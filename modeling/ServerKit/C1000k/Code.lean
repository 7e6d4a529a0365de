import ServerKit.Lib.Blocks
import ServerKit.Lib.Epoll
import ServerKit.Lib.Transition

/-! The event loop of `zero_threadpool/reactor/c1000k/server.c`, which echoes what it receives. Its `send`
takes all the bytes that are offered. -/
namespace ServerKit.C1000k
open Function ServerKit.Lib

def BUFFER_LENGTH : ℕ := 128
def EVENTS_LENGTH : ℕ := 128
def ITEM_LENGTH : ℕ := 1024

/-- A `struct sock_item` without what `main` leaves alone. A buffer is `none` when it is NULL or freed. -/
structure SockItem where
  fd : ℕ
  rbuffer : Option (List UInt8)
  rlength : ℕ
  wbuffer : Option (List UInt8)
  wlength : ℕ

structure Reactor where
  blkcnt : ℕ
  evblk : List (ℕ → SockItem)

/-- What went over a connection since it was accepted: the chunks that `recv` returned, and the bytes. -/
structure Wire where
  received : List (List UInt8)
  sent : List UInt8

/-- The reactor with the kernel. An event is registered with its descriptor. -/
structure Server where
  reactor : Reactor
  kernel : Epoll ℕ
  wires : ℕ → Wire

/-- What `accept` and `recv` return, where `none` is -1 and no bytes are the end of the connection. -/
structure Results where
  accept : Option ℕ
  recv : Option (List UInt8)

/-- An item of a new block, which `memset` has filled with zeros. -/
def zeroItem : SockItem := ⟨0,none,0,none,0⟩

namespace Reactor

/-- An item is found by the position of its block in the chain and by its place there. -/
def item (r : Reactor) (p : ℕ × ℕ) : SockItem := slotAt zeroItem r.evblk p

def setItem (r : Reactor) (p : ℕ × ℕ) (item : SockItem) : Reactor :=
  { r with evblk := setSlotAt r.evblk p item }

end Reactor

/-- The allocations succeed. -/
def reactorResize (r : Reactor) : Reactor := ⟨r.blkcnt+1,r.evblk ++ [fun _ => zeroItem]⟩

/-- The first loop adds blocks while `blkidx >= r->blkcnt`. The result is NULL for the descriptor 0. -/
def reactorLookup (r : Reactor) (sockfd : ℕ) : Option (Reactor × (ℕ × ℕ)) :=
  if sockfd = 0 then none
  else
    let blkidx := sockfd/ITEM_LENGTH
    some (forUp 0 (blkidx+1-r.blkcnt) (fun _ r => reactorResize r) r,(blkidx,sockfd % ITEM_LENGTH))

/-- An entry of `sockfds` is negative when `init_server` has failed. -/
def isListenfd : List ℤ → ℕ → Bool
  | [],_ => false
  | fd :: fds,connfd => if fd = connfd then true else isListenfd fds connfd

/-- How the loop over the events goes on. -/
inductive Next
  | continue
  | break
  deriving DecidableEq

def Server.ctl (s : Server) (op : EpollOp) (fd events : ℕ) : Server :=
  { s with kernel := (s.kernel.ctl true op fd ⟨events,fd⟩).1 }

/-- A new connection: a null pointer that is used is no result. -/
def accepted (s : Server) (connfd : ℕ) : Option Server := do
  let s := { s with
    kernel := s.kernel.accept connfd
    wires := update s.wires connfd ⟨[],[]⟩ }
  let s := s.ctl .add connfd EPOLLIN
  let (r,p) ← reactorLookup s.reactor connfd
  let zeros : Option (List UInt8) := some (List.replicate BUFFER_LENGTH 0)
  let item := { r.item p with fd := connfd, rbuffer := zeros, rlength := 0, wbuffer := zeros, wlength := 0 }
  return { s with reactor := r.setItem p item }

/-- The branch for EPOLLIN. Of `rbuffer`, the front is overwritten and the whole is copied. -/
def readable (s : Server) (clientfd : ℕ) (recv : Option (List UInt8)) : Option Server := do
  let (r,p) ← reactorLookup s.reactor clientfd
  let item := r.item p
  let rbuffer ← item.rbuffer
  let wbuffer ← item.wbuffer
  match recv with
  | none => return { s with reactor := r }
  | some [] =>
    let item := { item with fd := 0, rbuffer := none, wbuffer := none }
    return { s with reactor := r.setItem p item, kernel := s.kernel.close clientfd }
  | some (b :: bytes) =>
    let rbuffer := b :: bytes ++ rbuffer.drop (b :: bytes).length
    let wbuffer := rbuffer.take BUFFER_LENGTH ++ wbuffer.drop BUFFER_LENGTH
    let w := s.wires clientfd
    let s := { s with
      reactor := r.setItem p { item with rbuffer := some rbuffer, wbuffer := some wbuffer }
      wires := update s.wires clientfd { w with received := w.received ++ [b :: bytes] } }
    return s.ctl .mod clientfd EPOLLOUT

/-- The branch for EPOLLOUT. -/
def writable (s : Server) (clientfd : ℕ) : Option Server := do
  let (r,p) ← reactorLookup s.reactor clientfd
  let wbuffer ← (r.item p).wbuffer
  let w := s.wires clientfd
  let s := { s with
    reactor := r
    wires := update s.wires clientfd { w with sent := w.sent ++ wbuffer.take BUFFER_LENGTH } }
  return s.ctl .mod clientfd EPOLLIN

/-- The body of the loop over the events, which a failed `accept` ends. -/
def handle (sockfds : List ℤ) (s : Server) (e : Ready ℕ) (res : Results) : Option (Server × Next) :=
  let clientfd := e.data
  if isListenfd sockfds clientfd then
    match res.accept with
    | none => some (s,.break)
    | some connfd => (accepted s connfd).map (·,.continue)
  else if hasBit e.events EPOLLIN then (readable s clientfd res.recv).map (·,.continue)
  else if hasBit e.events EPOLLOUT then (writable s clientfd).map (·,.continue)
  else some (s,.continue)

/-- The loop between two events. -/
structure State where
  server : Server
  /-- The events of the last `epoll_wait` that are not looked at yet. -/
  pending : List (Ready ℕ)

/-- A descriptor of a failed `init_server` cannot be added. -/
def listening (s : Server) (sockfd : ℤ) : Server :=
  match sockfd with
  | .ofNat fd => s.ctl .add fd EPOLLIN
  | .negSucc _ => s

/-- The reactor of `main` before its loop, on a kernel that has the sockets and the descriptors in
`opened`. Here `sockfds` has what `init_server` returned for each port. -/
def start (opened : ℕ → Bool) (sockfds : List ℤ) : State where
  server := sockfds.foldl listening
    { reactor := ⟨0,[]⟩
      kernel := ⟨fun fd => isListenfd sockfds fd || opened fd,fun _ => none,[]⟩
      wires := fun _ => ⟨[],[]⟩ }
  pending := []

/-- `accept` returns a descriptor that was not open, and `recv` fills at most the buffer. -/
structure Results.Fits (res : Results) (k : Epoll ℕ) : Prop where
  fresh : ∀ fd, res.accept = some fd → k.opened fd = false
  recv : ∀ bytes, res.recv = some bytes → bytes.length ≤ BUFFER_LENGTH

inductive Action
  | wait (batch : List (Ready ℕ))
  | event (res : Results)

inductive Step (sockfds : List ℤ) (s : State) : Action → State → Prop
  | wait {batch} (hpending : s.pending = []) (h : s.server.kernel.Reports batch)
      (hlength : batch.length ≤ EVENTS_LENGTH) : Step sockfds s (.wait batch) { s with pending := batch }
  | event {e pending res server next} (hpending : s.pending = e :: pending)
      (hfits : res.Fits s.server.kernel) (h : handle sockfds s.server e res = some (server,next)) :
      Step sockfds s (.event res) ⟨server,if next = .break then [] else pending⟩

end ServerKit.C1000k
