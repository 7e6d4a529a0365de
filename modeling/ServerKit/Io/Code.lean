import ServerKit.Lib.Sockets
import ServerKit.Lib.Transition

/-! The echo servers in `zero_threadpool/io` that wait with epoll: `server_epoll.c`, `server1_epoll2.c` as it
is compiled, and the version under `#elif` in the same file. -/
namespace ServerKit.Io
open Function ServerKit.Lib

/-- `sizeof(struct epoll_event)`, which is packed. -/
def SIZEOF_EPOLL_EVENT : ℕ := 12

/-- The elements of `evs`. -/
def EVS_LENGTH : ℕ := 1024

/-- `sizeof(buf)` -/
def BUF_SIZE : ℕ := 5

/-- How `main` goes on behind a call of `recv`. -/
inductive Flow
  | again
  | next
  | exit (status : ℤ)
  deriving DecidableEq, Repr

/-- What the three programs have in their places. -/
structure Program where
  /-- The third argument of `epoll_wait`. -/
  size : ℕ
  /-- `ev.events` for a connection. -/
  events : ℕ
  /-- Behind `fcntl(cfd,F_SETFL,flag)`, `recv` does not wait. -/
  nonblocking : Bool
  /-- The status when `epoll_ctl` has failed. -/
  refused : ℤ
  sent : Flow
  closed : Flow
  empty : Flow

/-- `server_epoll.c`: no loop around `recv`, and every -1 is an exception. -/
def serverEpoll : Program :=
  ⟨EVS_LENGTH*SIZEOF_EPOLL_EVENT,EPOLLIN,false,-4,.next,.next,.exit 0⟩

/-- `server1_epoll2.c`, which has no `break` behind its `close`. -/
def server1Epoll2 : Program :=
  ⟨EVS_LENGTH*SIZEOF_EPOLL_EVENT,EPOLLIN ||| EPOLLET,true,-4,.again,.again,.next⟩

/-- The version under `#elif`, where `size` is divided by the size of an element. -/
def server1Epoll2Elif : Program :=
  ⟨EVS_LENGTH*SIZEOF_EPOLL_EVENT/SIZEOF_EPOLL_EVENT,EPOLLIN ||| EPOLLET,true,0,.again,.next,.next⟩

/-- What is told of a process that SIGPIPE has ended. -/
def SIGPIPE_STATUS : ℤ := 128+13

/-- The flow behind `send`, where the kernel takes some bytes or sends SIGPIPE. -/
def Program.behindSend (p : Program) : Option ℕ → Flow
  | some _ => p.sent
  | none => .exit SIGPIPE_STATUS

/-- The process and its kernel. -/
structure State where
  sockets : Sockets
  /-- The events of the last `epoll_wait` that are not looked at yet. -/
  pending : List (Ready ℕ)
  /-- The connection that `recv` is called for next. -/
  cdfd : Option ℕ
  exited : Option ℤ

/-- `accept` returns -1 for `none`, and then every later call fails, too. -/
def accepted (p : Program) (s : State) (cfd : Option ℕ) (granted : Bool) : State :=
  match cfd with
  | none => { s with exited := some p.refused }
  | some cfd =>
    let (sockets,cnt) := (s.sockets.accept cfd).add granted cfd p.events
    { s with
      sockets := sockets
      exited := if cnt = -1 then some p.refused else s.exited }

/-- `recv` with what is done for its result. Of the bytes that are sent, the kernel takes `took`. -/
def received (p : Program) (k : Sockets) (cdfd count : ℕ) (took : Option ℕ) : Sockets × Flow :=
  -- a descriptor that is closed is EBADF
  if k.epoll.opened cdfd = false then (k,.exit 0)
  else
    match (k.streams cdfd).recv count with
    | (.data bytes,stream) =>
      let sent := stream.sent ++ bytes.take (took.getD 0)
      ({ k with streams := update k.streams cdfd { stream with sent := sent } },p.behindSend took)
    | (.closed,_) => ((k.del cdfd).close cdfd,p.closed)
    | (.again,_) => (k,p.empty)
    | (.failed,stream) => ({ k with streams := update k.streams cdfd stream },.exit 0)

def State.went (s : State) (cdfd : ℕ) : Sockets × Flow → State
  | (k,.again) => { s with sockets := k, cdfd := some cdfd }
  | (k,.next) => { s with sockets := k, cdfd := none }
  | (k,.exit status) => { s with sockets := k, cdfd := none, exited := some status }

/-- The program behind its first `epoll_ctl`, where `opened` are the descriptors of the process. -/
def start (opened : ℕ → Bool) (lfd : ℕ) : State where
  sockets :=
    ⟨⟨fun fd => fd = lfd || opened fd,update (fun _ => none) lfd (some ⟨EPOLLIN,lfd⟩),[]⟩,
      fun _ => Stream.fresh,fun _ => false,[]⟩
  pending := []
  cdfd := none
  exited := none

/-- What a client does, and what the process does until its next call. -/
inductive Action
  | connect
  | queued (n : ℕ) (a : Arrival)
  | arrive (fd : ℕ) (a : Arrival)
  | wait (batch : List (Ready ℕ))
  | accept (cfd : Option ℕ) (granted : Bool)
  | event
  | recv (count : ℕ) (took : Option ℕ)

/-- `accept` has to wait while the backlog is empty, and `recv` on a blocking socket while nothing is
there. There is a SIGPIPE for a connection that is broken. -/
inductive Step (p : Program) (lfd : ℕ) (s : State) : Action → State → Prop
  | connect : Step p lfd s .connect { s with sockets := s.sockets.connect }
  | queued {n a} : Step p lfd s (.queued n a) { s with sockets := s.sockets.arriveQueued n a }
  | arrive {fd a} (hfd : fd ≠ lfd) (hreg : s.sockets.epoll.interest fd ≠ none) :
      Step p lfd s (.arrive fd a) { s with sockets := s.sockets.arrive fd a }
  | wait {batch} (hrunning : s.exited = none) (hcdfd : s.cdfd = none) (hpending : s.pending = [])
      (hbatch : s.sockets.Reports lfd batch) (hsize : batch.length ≤ p.size) :
      Step p lfd s (.wait batch) { s with sockets := s.sockets.told batch, pending := batch }
  | accept {e pending cfd granted} (hrunning : s.exited = none) (hcdfd : s.cdfd = none)
      (hpending : s.pending = e :: pending) (hlfd : e.data = lfd) (hbacklog : s.sockets.backlog ≠ [])
      (hnew : ∀ fd, cfd = some fd → s.sockets.epoll.opened fd = false) :
      Step p lfd s (.accept cfd granted) (accepted p { s with pending := pending } cfd granted)
  | event {e pending} (hrunning : s.exited = none) (hcdfd : s.cdfd = none)
      (hpending : s.pending = e :: pending) (hlfd : e.data ≠ lfd) :
      Step p lfd s .event { s with pending := pending, cdfd := some e.data }
  | recv {cdfd count took} (hrunning : s.exited = none) (hcdfd : s.cdfd = some cdfd) (hcount : 0 < count)
      (hfits : count ≤ BUF_SIZE)
      (hnow : p.nonblocking = true ∨ s.sockets.epoll.opened cdfd = false ∨ (s.sockets.streams cdfd).Ready)
      (hsend : took = none → (s.sockets.streams cdfd).ending = .broken) :
      Step p lfd s (.recv count took) (s.went cdfd (received p s.sockets cdfd count took))

end ServerKit.Io
