import ServerKit.Lib.Epoll
import ServerKit.Lib.Transition

/-! The event loop of `zero_threadpool/reactor/server_reactor.c`, whose items say in `events` both
whether a descriptor is registered and what it waits for. -/
namespace ServerKit.ItemReactor
open Function ServerKit.Lib

def BUFFER_LENGTH : ℕ := 1024
def MAX_EPOLL_EVENT : ℕ := 1024
def NOSET_CB : ℕ := 0
def READ_CB : ℕ := 1
def WRITE_CB : ℕ := 2
def ACCEPT_CB : ℕ := 3

inductive Callback
  | readCallback
  | writeCallback
  | acceptCallback
  deriving DecidableEq

/-- A `struct nitem`; its `status` and `rlength` are used nowhere. A pointer is `none` when it is NULL. -/
structure Nitem where
  fd : ℕ
  events : ℕ
  arg : Option ℕ
  readcb : Option Callback
  writecb : Option Callback
  acceptcb : Option Callback
  sbuffer : List UInt8
  slength : ℕ
  rbuffer : List UInt8

/-- The reactor with the kernel. An event is registered with the index of its item. -/
structure Server where
  items : ℕ → Nitem
  kernel : Epoll ℕ
  /-- The connections that were accepted and are not closed. -/
  accepted : ℕ → Bool

/-- What the system calls of one callback return; `granted` is for a request to add or to modify. -/
structure Results where
  granted : Bool
  accept : Option ℕ
  recv : Option (List UInt8)
  send : ℤ

/-- An item as `memset` leaves it. -/
def zeroItem : Nitem where
  fd := 0
  events := 0
  arg := none
  readcb := none
  writecb := none
  acceptcb := none
  sbuffer := List.replicate BUFFER_LENGTH 0
  slength := 0
  rbuffer := List.replicate BUFFER_LENGTH 0

/-- What `nreactor_set_event` writes before it asks the kernel. -/
def Nitem.prepare (item : Nitem) (fd : ℕ) (cb : Option Callback) (event : ℕ) (arg : Option ℕ) : Nitem :=
  if event = READ_CB then { item with fd := fd, readcb := cb, arg := arg }
  else if event = WRITE_CB then { item with fd := fd, writecb := cb, arg := arg }
  else if event = ACCEPT_CB then { item with fd := fd, acceptcb := cb, arg := arg }
  else item

/-- The `ev.events` that goes with it. -/
def maskOf (event : ℕ) : ℕ :=
  if event = READ_CB then EPOLLIN
  else if event = WRITE_CB then EPOLLOUT
  else if event = ACCEPT_CB then EPOLLIN
  else 0

def Server.setItem (s : Server) (fd : ℕ) (item : Nitem) : Server :=
  { s with items := update s.items fd item }

def nreactorSetEvent (s : Server) (granted : Bool) (fd : ℕ) (cb : Option Callback) (event : ℕ)
    (arg : Option ℕ) : Server × ℤ :=
  let item := (s.items fd).prepare fd cb event arg
  let s := s.setItem fd item
  if item.events = NOSET_CB then
    let r := s.kernel.ctl granted .add fd ⟨maskOf event,fd⟩
    if r.2 < 0 then ({ s with kernel := r.1 },-1)
    else ({ s.setItem fd { item with events := event } with kernel := r.1 },0)
  else if item.events ≠ event then
    let r := s.kernel.ctl granted .mod fd ⟨maskOf event,fd⟩
    if r.2 < 0 then ({ s with kernel := r.1 },-1)
    else ({ s.setItem fd { item with events := event } with kernel := r.1 },0)
  else (s,0)

/-- The request to delete ignores the event that comes with it. -/
def nreactorDelEvent (s : Server) (fd : ℕ) : Server :=
  { s.setItem fd { s.items fd with events := 0 } with
    kernel := (s.kernel.ctl true .del fd ⟨0,fd⟩).1 }

def Server.close (s : Server) (fd : ℕ) : Server :=
  { s with kernel := s.kernel.close fd, accepted := update s.accepted fd false }

def writeCallback (s : Server) (granted : Bool) (fd : ℕ) (send : ℤ) : Server :=
  if send < (s.items fd).slength then
    (nreactorSetEvent s granted fd (some .writeCallback) WRITE_CB none).1
  else (nreactorSetEvent s granted fd (some .readCallback) READ_CB none).1

/-- The bytes that were received are copied from `rbuffer` to `sbuffer`. -/
def Nitem.fill (item : Nitem) (bytes : List UInt8) : Nitem :=
  let rbuffer := bytes ++ item.rbuffer.drop bytes.length
  { item with
    rbuffer := rbuffer
    sbuffer := rbuffer.take bytes.length ++ item.sbuffer.drop bytes.length
    slength := bytes.length }

/-- Here `recv` is `none` when it returns -1, and no bytes are the end of the connection. -/
def readCallback (s : Server) (granted : Bool) (fd : ℕ) (recv : Option (List UInt8)) : Server :=
  match recv with
  | none => s
  | some [] => (nreactorDelEvent s fd).close fd
  | some (b :: bytes) =>
    let s := s.setItem fd ((s.items fd).fill (b :: bytes))
    (nreactorSetEvent s granted fd (some .writeCallback) WRITE_CB none).1

def acceptCallback (s : Server) (granted : Bool) (accept : Option ℕ) : Server :=
  match accept with
  | none => s
  | some connfd =>
    let s := { s with kernel := s.kernel.accept connfd, accepted := update s.accepted connfd true }
    (nreactorSetEvent s granted connfd (some .readCallback) READ_CB none).1

/-- A call through a pointer of an item, which must not be NULL. -/
def call (cb : Option Callback) (s : Server) (fd : ℕ) (res : Results) : Option Server :=
  match cb with
  | none => none
  | some .readCallback => some (readCallback s res.granted fd res.recv)
  | some .writeCallback => some (writeCallback s res.granted fd res.send)
  | some .acceptCallback => some (acceptCallback s res.granted res.accept)

/-- The first call for an event: the acceptor of the listening descriptor, or the reader. -/
def callIn (listenfd : ℕ) (s : Server) (e : Ready ℕ) (res : Results) : Option Server :=
  let item := s.items e.data
  if item.fd = listenfd then call item.acceptcb s listenfd res
  else if hasBit e.events EPOLLIN then call item.readcb s item.fd res
  else some s

/-- The second one: the writer. Here `connfd` is what the item held before the first call. -/
def callOut (listenfd connfd : ℕ) (s : Server) (e : Ready ℕ) (res : Results) : Option Server :=
  if connfd = listenfd then some s
  else if hasBit e.events EPOLLOUT then call (s.items e.data).writecb s connfd res
  else some s

/-- The loop between two events. -/
structure State where
  server : Server
  /-- The events of the last `epoll_wait` that are not looked at yet. -/
  pending : List (Ready ℕ)

/-- A new reactor on a kernel that has the descriptors in `opened`. -/
def boot (opened : ℕ → Bool) : Server where
  items := fun _ => zeroItem
  kernel := ⟨opened,fun _ => none,[]⟩
  accepted := fun _ => false

/-- The reactor of `main` before its loop. -/
def start (opened : ℕ → Bool) (listenfd : ℕ) (granted : Bool) : State where
  server := (nreactorSetEvent (boot opened) granted listenfd (some .acceptCallback) ACCEPT_CB none).1
  pending := []

/-- `accept` returns a descriptor that was not open and has an item, and `recv` fills at most the
buffer. -/
structure Results.Fits (res : Results) (k : Epoll ℕ) : Prop where
  fresh : ∀ fd, res.accept = some fd → k.opened fd = false
  bound : ∀ fd, res.accept = some fd → fd < MAX_EPOLL_EVENT
  recv : ∀ bytes, res.recv = some bytes → bytes.length ≤ BUFFER_LENGTH

inductive Action
  | wait (batch : List (Ready ℕ))
  | event (first second : Results)

inductive Step (listenfd : ℕ) (s : State) : Action → State → Prop
  | wait {batch} (hpending : s.pending = []) (h : s.server.kernel.Reports batch) :
      Step listenfd s (.wait batch) { s with pending := batch }
  | event {e pending first second s₁ s₂} (hpending : s.pending = e :: pending)
      (hfirst : first.Fits s.server.kernel) (hin : callIn listenfd s.server e first = some s₁)
      (hsecond : second.Fits s₁.kernel)
      (hout : callOut listenfd (s.server.items e.data).fd s₁ e second = some s₂) :
      Step listenfd s (.event first second) ⟨s₂,pending⟩

end ServerKit.ItemReactor
