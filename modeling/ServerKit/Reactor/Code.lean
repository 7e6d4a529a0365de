import Mathlib.Algebra.Notation.Defs
import ServerKit.Lib.CString
import ServerKit.Lib.Epoll
import ServerKit.Lib.Loops

/-! The event loop of `reactor+http/reactor_singlecb_http_c1000k.c` and of
`reactor+websocket/reactor_singlecb_c1000k.c`. The two differ in some fields of an event and in how a
request is parsed and answered. -/
namespace ServerKit.Reactor
open Function ServerKit.Lib

def BUFFER_LENGTH : ℕ := 1024
def MAX_EPOLL_EVENTS : ℕ := 1024

/-- What EWOULDBLOCK is as well. -/
def EAGAIN : ℕ := 11
def EWOULDBLOCK : ℕ := 11
def ECONNRESET : ℕ := 104

inductive Callback
  | acceptCb
  | recvCb
  | sendCb
  deriving DecidableEq

/-- The argument of a callback: NULL, or the reactor. -/
inductive Arg
  | null
  | reactor
  deriving DecidableEq

/-- A `struct ntyevent`; `ext` are the fields that only one of the servers has. -/
structure NtyEvent (X : Type) where
  fd : ℕ
  events : ℕ
  arg : Arg
  callback : Option Callback
  status : ℕ
  buffer : List UInt8
  wbuffer : List UInt8
  length : ℕ
  wlength : ℕ
  ext : X

/-- Where an event is: the position of its block in the chain, and its place there. -/
abbrev Ptr := ℕ × ℕ

structure NtyReactor (X : Type) where
  blkcnt : ℕ
  evblks : List (ℕ → NtyEvent X)

/-- What has happened to a descriptor. A message is kept with the `ext` it was handled with, and a reply
with the results of the calls that send and with the bytes that each of them is given. -/
inductive Event (X : Type)
  | accepted
  | message (bytes : List UInt8) (ext : X)
  | reply (send : Option ℕ) (rest : List ℕ) (offered : List (List UInt8))
  | closed

/-- The reactor with the kernel, and what has happened to each descriptor, the last event first. -/
structure Server (X : Type) where
  reactor : NtyReactor X
  kernel : Epoll Ptr
  log : ℕ → List (Event X)

/-- What a server does with the event of a connection. -/
structure App (X : Type) where
  /-- A zero byte is written just behind `buffer`. -/
  pastBuffer : NtyEvent X → NtyEvent X
  request : NtyEvent X → NtyEvent X
  response : NtyEvent X → NtyEvent X
  /-- What is sent after the bytes of `wbuffer`, one call after the other. -/
  rest : NtyEvent X → List (List UInt8)

inductive Recv
  | data (bytes : List UInt8)
  | fin
  | error (errno : ℕ)

/-- What the system calls of one callback return. A call that sends takes at most this many bytes. -/
structure Results where
  accept : Option ℕ
  fcntl : Bool
  recv : Recv
  send : Option ℕ
  rest : List ℕ

variable {X : Type}

/-- An event of a new block, which `memset` has filled with zeros. -/
def zeroEvent [Zero X] : NtyEvent X where
  fd := 0
  events := 0
  arg := .null
  callback := none
  status := 0
  buffer := List.replicate BUFFER_LENGTH 0
  wbuffer := List.replicate BUFFER_LENGTH 0
  length := 0
  wlength := 0
  ext := 0

def ntyEventSet (ev : NtyEvent X) (fd : ℕ) (callback : Callback) (arg : Arg) : NtyEvent X :=
  { ev with fd := fd, callback := some callback, events := 0, arg := arg }

/-- Here `p` is where `ev` is. -/
def ntyEventAdd (k : Epoll Ptr) (granted : Bool) (events : ℕ) (ev : NtyEvent X) (p : Ptr) :
    Epoll Ptr × NtyEvent X × ℤ :=
  let ev := { ev with events := events }
  if ev.status = 1 then
    let r := k.ctl granted .mod ev.fd ⟨events,p⟩
    (r.1,ev,r.2)
  else
    let r := k.ctl granted .add ev.fd ⟨events,p⟩
    (r.1,{ ev with status := 1 },r.2)

def ntyEventDel (k : Epoll Ptr) (ev : NtyEvent X) (p : Ptr) : Epoll Ptr × NtyEvent X × ℤ :=
  if ev.status ≠ 1 then (k,ev,-1)
  else ((k.ctl true .del ev.fd ⟨0,p⟩).1,{ ev with status := 0 },0)

namespace NtyReactor
variable [Zero X]

def slot (r : NtyReactor X) (p : Ptr) : NtyEvent X := (r.evblks.getD p.1 fun _ => zeroEvent) p.2

def setSlot (r : NtyReactor X) (p : Ptr) (ev : NtyEvent X) : NtyReactor X :=
  { r with evblks := r.evblks.modify p.1 fun evs => update evs p.2 ev }

end NtyReactor

section Callbacks
variable [Zero X]

/-- The allocations succeed. -/
def ntyreactorAlloc (r : NtyReactor X) : NtyReactor X :=
  ⟨r.blkcnt+1,r.evblks ++ [fun _ => zeroEvent]⟩

/-- The first loop allocates blocks while `blkidx >= reactor->blkcnt`. -/
def ntyreactorIdx (r : NtyReactor X) (sockfd : ℕ) : NtyReactor X × Ptr :=
  let blkidx := sockfd/MAX_EPOLL_EVENTS
  (forUp 0 (blkidx+1-r.blkcnt) (fun _ r => ntyreactorAlloc r) r,
    (blkidx,sockfd % MAX_EPOLL_EVENTS))

def ntyreactorInit : NtyReactor X := ⟨1,[fun _ => zeroEvent]⟩

def Server.close (s : Server X) (fd : ℕ) : Server X :=
  { s with kernel := s.kernel.close fd, log := update s.log fd (.closed :: s.log fd) }

/-- What `recv` leaves in the buffer. -/
def fill (ev : NtyEvent X) (bytes : List UInt8) : NtyEvent X :=
  { ev with buffer := bytes ++ ev.buffer.drop bytes.length }

/-- `ev->length = len; ev->buffer[len] = '\0'`. -/
def terminate (app : App X) (ev : NtyEvent X) (len : ℕ) : NtyEvent X :=
  let ev := { ev with length := len }
  if len < BUFFER_LENGTH then { ev with buffer := ev.buffer.set len 0 } else app.pastBuffer ev

def recvCb (app : App X) (s : Server X) (fd : ℕ) (recv : Recv) : Server X :=
  let i := ntyreactorIdx s.reactor fd
  let ev := i.1.slot i.2
  match recv with
  | .data bytes =>
    let d := ntyEventDel s.kernel (fill ev bytes) i.2
    let ev := terminate app d.2.1 bytes.length
    let a := ntyEventAdd d.1 true EPOLLOUT (ntyEventSet (app.request ev) fd .sendCb .reactor) i.2
    { reactor := i.1.setSlot i.2 a.2.1
      kernel := a.1
      log := update s.log fd (.message bytes ev.ext :: s.log fd) }
  | .fin =>
    let d := ntyEventDel s.kernel ev i.2
    let d := ntyEventDel d.1 d.2.1 i.2
    Server.close { s with reactor := i.1.setSlot i.2 d.2.1, kernel := d.1 } d.2.1.fd
  | .error errno =>
    let d := ntyEventDel s.kernel ev i.2
    if errno = EAGAIN ∧ errno = EWOULDBLOCK then
      { s with reactor := i.1.setSlot i.2 d.2.1, kernel := d.1 }
    else if errno = ECONNRESET then
      let d := ntyEventDel d.1 d.2.1 i.2
      Server.close { s with reactor := i.1.setSlot i.2 d.2.1, kernel := d.1 } d.2.1.fd
    else { s with reactor := i.1.setSlot i.2 d.2.1, kernel := d.1 }

def sendCb (app : App X) (s : Server X) (fd : ℕ) (send : Option ℕ) (rest : List ℕ) : Server X :=
  let i := ntyreactorIdx s.reactor fd
  let ev := app.response (i.1.slot i.2)
  let len := send.map fun n => min n ev.wlength
  let offered := ev.wbuffer.take ev.wlength
  if 0 < len.getD 0 then
    let d := ntyEventDel s.kernel ev i.2
    let a := ntyEventAdd d.1 true EPOLLIN (ntyEventSet d.2.1 fd .recvCb .reactor) i.2
    { reactor := i.1.setSlot i.2 a.2.1
      kernel := a.1
      log := update s.log fd (.reply send rest (offered :: app.rest ev) :: s.log fd) }
  else
    let d := ntyEventDel s.kernel ev i.2
    Server.close
      { reactor := i.1.setSlot i.2 d.2.1
        kernel := d.1
        log := update s.log fd (.reply send rest [offered] :: s.log fd) } d.2.1.fd

/-- When `fcntl` fails the new connection is left as it is. -/
def acceptCb (s : Server X) (accept : Option ℕ) (fcntl : Bool) : Server X :=
  match accept with
  | none => s
  | some clientfd =>
    let s := { s with
      kernel := s.kernel.accept clientfd
      log := update s.log clientfd (.accepted :: s.log clientfd) }
    if fcntl then
      let i := ntyreactorIdx s.reactor clientfd
      let event := ntyEventSet (i.1.slot i.2) clientfd .recvCb .reactor
      let a := ntyEventAdd s.kernel true EPOLLIN event i.2
      { s with reactor := i.1.setSlot i.2 a.2.1, kernel := a.1 }
    else s

/-- `ev->callback(ev->fd, events, ev->arg)`. A callback with a NULL argument returns at once. -/
def call (app : App X) (s : Server X) (ev : NtyEvent X) (res : Results) : Server X :=
  match ev.arg,ev.callback with
  | .reactor,some .acceptCb => acceptCb s res.accept res.fcntl
  | .reactor,some .recvCb => recvCb app s ev.fd res.recv
  | .reactor,some .sendCb => sendCb app s ev.fd res.send res.rest
  | _,_ => s

/-- One `if` of the loop: the callback runs when the event is reported and the slot asks for it. -/
def test (app : App X) (bit : ℕ) (s : Server X) (e : Ready Ptr) (res : Results) : Server X :=
  let ev := s.reactor.slot e.data
  if hasBit e.events bit ∧ hasBit ev.events bit then call app s ev res else s

def ntyreactorAddlistener (s : Server X) (sockfd : ℕ) : Server X :=
  let i := ntyreactorIdx s.reactor sockfd
  let event := ntyEventSet (i.1.slot i.2) sockfd .acceptCb .reactor
  let a := ntyEventAdd s.kernel true EPOLLIN event i.2
  { s with reactor := i.1.setSlot i.2 a.2.1, kernel := a.1 }

end Callbacks

/-- From the index `idx` on: where the next line begins, if there is a CRLF, and what is copied. -/
def readlineFrom : ℕ → List UInt8 → Option ℕ × List UInt8
  | _,[] => (none,[])
  | idx,c :: s =>
    if c = 13 ∧ s.head? = some 10 then (some (idx+2),[])
    else
      let r := readlineFrom (idx+1) s
      (r.1,c :: r.2)

/-- Here `none` is the returned `-1`. The zero behind the text is no line feed. -/
def readline (allbuf : List UInt8) (idx : ℕ) : Option ℕ × List UInt8 :=
  readlineFrom idx ((text allbuf).drop idx)

end ServerKit.Reactor
