import ServerKit.Lib.Epoll
import Mathlib.Data.List.Basic

/-! The sockets of a server: what has come over each connection, what was read of it and what was sent,
and which descriptors `epoll_wait` tells about, level-triggered or edge-triggered. -/
namespace ServerKit.Lib
open Function

def EPOLLET : ℕ := 0x80000000

/-- How the stream of a client goes on behind the bytes that have come. -/
inductive Ending
  | alive
  | closed
  | broken
  deriving DecidableEq, Repr

structure Stream where
  unread : List UInt8
  ending : Ending
  received : List UInt8
  sent : List UInt8

/-- What comes from a client. -/
inductive Arrival
  | bytes (bytes : List UInt8)
  | close
  | reset

/-- A result of `recv`; `again` is -1 with EAGAIN, and `failed` is -1 with another error. -/
inductive Recv
  | data (bytes : List UInt8)
  | closed
  | again
  | failed
  deriving DecidableEq

namespace Stream
variable {s : Stream} {count : ℕ}

def fresh : Stream := ⟨[],.alive,[],[]⟩

/-- A client that has closed its side sends nothing more, but the connection may still break. -/
def receive (s : Stream) : Arrival → Stream
  | .bytes bytes => if s.ending = .alive then { s with unread := s.unread ++ bytes } else s
  | .close => if s.ending = .alive then { s with ending := .closed } else s
  | .reset => { s with ending := .broken }

/-- A call of `recv` returns at once. -/
def Ready (s : Stream) : Prop := s.unread ≠ [] ∨ s.ending ≠ .alive

instance (s : Stream) : Decidable s.Ready := inferInstanceAs (Decidable (_ ∨ _))

/-- `count` bytes are read if there are so many. An error is told once. -/
def recv (s : Stream) (count : ℕ) : Recv × Stream :=
  match s.unread with
  | b :: bytes => (.data ((b :: bytes).take count),
      { s with unread := (b :: bytes).drop count, received := s.received ++ (b :: bytes).take count })
  | [] => match s.ending with
    | .alive => (.again,s)
    | .closed => (.closed,s)
    | .broken => (.failed,{ s with ending := .closed })

/-- What the client has sent. -/
def arrived (s : Stream) : List UInt8 := s.received ++ s.unread

/-- What is known of the result. -/
inductive Receives (s : Stream) (count : ℕ) : Recv × Stream → Prop
  | data (hunread : s.unread ≠ []) : Receives s count (.data (s.unread.take count),
      { s with unread := s.unread.drop count, received := s.received ++ s.unread.take count })
  | again (hunread : s.unread = []) (hending : s.ending = .alive) : Receives s count (.again,s)
  | closed (hunread : s.unread = []) (hending : s.ending = .closed) : Receives s count (.closed,s)
  | failed (hunread : s.unread = []) (hending : s.ending = .broken) :
      Receives s count (.failed,{ s with ending := .closed })

theorem receives (s : Stream) (count : ℕ) : s.Receives count (s.recv count) := by
  obtain ⟨unread,ending,received,sent⟩ := s
  cases unread with
  | cons b bytes => exact .data (List.cons_ne_nil b bytes)
  | nil =>
    cases ending with
    | alive => exact .again rfl rfl
    | closed => exact .closed rfl rfl
    | broken => exact .failed rfl rfl

/-- `recv` would have to wait exactly when nothing is there. -/
theorem recv_again_iff : (s.recv count).1 = .again ↔ ¬s.Ready := by
  have hreceives := s.receives count
  unfold Ready
  generalize s.recv count = result at hreceives
  cases hreceives with
  | data hunread => simp [hunread]
  | again hunread hending => simp [hunread,hending]
  | closed hunread hending => simp [hunread,hending]
  | failed hunread hending => simp [hunread,hending]

theorem ready_receive (h : s.Ready) (a : Arrival) : (s.receive a).Ready := by
  obtain ⟨unread,ending,received,sent⟩ := s
  cases ending with
  | alive =>
    have hunread : unread ≠ [] := h.resolve_right fun hne => hne rfl
    cases a with
    | bytes bytes => exact .inl (List.append_ne_nil_of_left_ne_nil hunread bytes)
    | close => exact .inr nofun
    | reset => exact .inr nofun
  | closed => cases a <;> exact .inr nofun
  | broken => cases a <;> exact .inr nofun

/-- What comes from a client changes neither what was read nor what was sent. -/
@[simp] theorem received_receive (s : Stream) (a : Arrival) : (s.receive a).received = s.received := by
  obtain ⟨unread,ending,received,sent⟩ := s
  cases ending <;> cases a <;> rfl

@[simp] theorem sent_receive (s : Stream) (a : Arrival) : (s.receive a).sent = s.sent := by
  obtain ⟨unread,ending,received,sent⟩ := s
  cases ending <;> cases a <;> rfl

/-- The client is there, and all that it has sent is read. -/
structure Answered (s : Stream) : Prop where
  alive : s.ending = .alive
  received : s.received = s.arrived

theorem Answered.of_not_ready (h : ¬s.Ready) : s.Answered := by
  obtain ⟨hunread,hending⟩ := not_or.mp h
  refine ⟨not_not.mp hending,?_⟩
  unfold arrived
  rw [not_not.mp hunread, List.append_nil]

end Stream

/-- The sockets, where `backlog` has the connections that wait for `accept`. A descriptor is marked when
something has come that `epoll_wait` has not told yet. -/
structure Sockets where
  epoll : Epoll ℕ
  streams : ℕ → Stream
  marked : ℕ → Bool
  backlog : List Stream

namespace Sockets
variable {k : Sockets} {lfd fd : ℕ}

/-- A reading call on `fd` returns at once, where `lfd` listens. -/
def Ready (k : Sockets) (lfd fd : ℕ) : Prop :=
  if fd = lfd then k.backlog ≠ [] else (k.streams fd).Ready

/-- `epoll_wait` has to tell that `fd` can be read: it was asked to, and it has not done so yet if it tells
every edge once. -/
structure Due (k : Sockets) (lfd fd : ℕ) : Prop where
  registered : ∃ i, k.epoll.interest fd = some i ∧ hasBit i.events EPOLLIN ∧
    (hasBit i.events EPOLLET → k.marked fd = true)
  ready : k.Ready lfd fd

/-- A result of `epoll_wait`. -/
structure Reports (k : Sockets) (lfd : ℕ) (batch : List (Lib.Ready ℕ)) : Prop where
  reports : k.epoll.Reports batch
  due : ∀ e ∈ batch, k.Due lfd e.fd

section Told
variable {events : ℕ}

theorem Due.intro (hi : k.epoll.interest fd = some ⟨events,fd⟩) (hin : hasBit events EPOLLIN)
    (hedge : hasBit events EPOLLET → k.marked fd = true) (hready : k.Ready lfd fd) : k.Due lfd fd :=
  ⟨⟨_,hi,hin,hedge⟩,hready⟩

/-- What is due may be told alone. -/
theorem reports_readable (hi : k.epoll.interest fd = some ⟨events,fd⟩) (hin : hasBit events EPOLLIN)
    (hedge : hasBit events EPOLLET → k.marked fd = true) (hready : k.Ready lfd fd) :
    k.Reports lfd [⟨fd,EPOLLIN,fd⟩] := by
  refine ⟨⟨List.nodup_singleton _,fun e he => ?_⟩,fun e he => ?_⟩
  · rw [List.mem_singleton.mp he]
    exact ⟨_,hi,rfl,fun _ => hin,fun hout => absurd hout (show ¬hasBit EPOLLIN EPOLLOUT by decide)⟩
  · rw [List.mem_singleton.mp he]
    exact .intro hi hin hedge hready

end Told

/-- One descriptor may be told of alone. -/
theorem reports_one (hdue : k.Due lfd fd) : ∃ e, e.fd = fd ∧ k.Reports lfd [e] := by
  obtain ⟨i,hi,-⟩ := hdue.registered
  refine ⟨⟨fd,i.events,i.data⟩,rfl,⟨List.nodup_singleton _,fun e he => ?_⟩,fun e he => ?_⟩
  · rw [List.mem_singleton.mp he]
    exact ⟨i,hi,rfl,id,id⟩
  · rw [List.mem_singleton.mp he]
    exact hdue

def connect (k : Sockets) : Sockets := { k with backlog := k.backlog ++ [Stream.fresh] }

/-- Something comes from the client of a connection that still waits. -/
def arriveQueued (k : Sockets) (n : ℕ) (a : Arrival) : Sockets :=
  { k with backlog := k.backlog.modify n (·.receive a) }

def arrive (k : Sockets) (fd : ℕ) (a : Arrival) : Sockets :=
  { k with
    streams := update k.streams fd ((k.streams fd).receive a)
    marked := update k.marked fd true }

/-- The marks of what `epoll_wait` has told. -/
def told (k : Sockets) (batch : List (Lib.Ready ℕ)) : Sockets :=
  { k with marked := fun fd => k.marked fd && !(batch.map (·.fd)).contains fd }

/-- The oldest connection gets the descriptor `fd`. -/
def accept (k : Sockets) (fd : ℕ) : Sockets :=
  { k with
    epoll := k.epoll.accept fd
    streams := update k.streams fd (k.backlog.headD Stream.fresh)
    backlog := k.backlog.tail }

/-- What is there already is told, too. -/
def add (k : Sockets) (granted : Bool) (fd events : ℕ) : Sockets × ℤ :=
  let (epoll,ret) := k.epoll.ctl granted .add fd ⟨events,fd⟩
  ({ k with epoll := epoll, marked := update k.marked fd true },ret)

def del (k : Sockets) (fd : ℕ) : Sockets := { k with epoll := (k.epoll.ctl true .del fd ⟨0,fd⟩).1 }

def close (k : Sockets) (fd : ℕ) : Sockets := { k with epoll := k.epoll.close fd }

/-- What the kernel has for one descriptor. -/
structure Link where
  opened : Bool
  interest : Option (Interest ℕ)
  stream : Stream
  marked : Bool

def link (k : Sockets) (fd : ℕ) : Link :=
  ⟨k.epoll.opened fd,k.epoll.interest fd,k.streams fd,k.marked fd⟩

section Links

/-- What is written at `fd` is seen there only. -/
theorem link_eq_update {k' : Sockets} {c : Link}
    (hopened : k'.epoll.opened = update k.epoll.opened fd c.opened)
    (hinterest : k'.epoll.interest = update k.epoll.interest fd c.interest)
    (hstreams : k'.streams = update k.streams fd c.stream)
    (hmarked : k'.marked = update k.marked fd c.marked) : k'.link = update k.link fd c := by
  funext fd'
  rw [link, hopened, hinterest, hstreams, hmarked]
  by_cases hfd : fd' = fd
  · subst hfd
    simp
  · simp [hfd,link]

theorem link_arrive (k : Sockets) (fd : ℕ) (a : Arrival) : (k.arrive fd a).link =
    update k.link fd { k.link fd with stream := (k.streams fd).receive a, marked := true } := by
  apply link_eq_update
  · exact (update_eq_self ..).symm
  · exact (update_eq_self ..).symm
  · rfl
  · rfl

/-- The connection that `accept` and `add` make. -/
def joined (k : Sockets) (fd events : ℕ) : Sockets where
  epoll := (k.epoll.accept fd).set fd (some ⟨events,fd⟩)
  streams := update k.streams fd (k.backlog.headD Stream.fresh)
  marked := update k.marked fd true
  backlog := k.backlog.tail

theorem add_granted {events : ℕ} (hfree : k.epoll.interest fd = none) :
    (k.accept fd).add true fd events = (k.joined fd events,0) := by
  have hopen : (k.epoll.accept fd).opened fd = true := update_self ..
  have hctl : (k.epoll.accept fd).ctl true .add fd ⟨events,fd⟩ = _ := Epoll.ctl_add hopen hfree
  unfold add accept joined
  dsimp only
  rw [hctl]

theorem add_refused {events : ℕ} : ((k.accept fd).add false fd events).2 = -1 := by
  simp [add,Epoll.ctl]

theorem link_joined (k : Sockets) (fd events : ℕ) : (k.joined fd events).link =
    update k.link fd ⟨true,some ⟨events,fd⟩,k.backlog.headD Stream.fresh,true⟩ := by
  apply link_eq_update
  · rfl
  · rfl
  · rfl
  · rfl

theorem del_close (hreg : k.epoll.interest fd ≠ none) : (k.del fd).close fd = k.close fd := by
  unfold del close
  dsimp only
  rw [Epoll.ctl_del hreg, Epoll.close_set]

theorem link_close (k : Sockets) (fd : ℕ) : (k.close fd).link =
    update k.link fd { k.link fd with opened := false, interest := none } := by
  apply link_eq_update
  · rfl
  · rfl
  · exact (update_eq_self ..).symm
  · exact (update_eq_self ..).symm

/-- The stream of one connection is written. -/
def setStream (k : Sockets) (fd : ℕ) (stream : Stream) : Sockets :=
  { k with streams := update k.streams fd stream }

theorem link_setStream (k : Sockets) (fd : ℕ) (stream : Stream) :
    (k.setStream fd stream).link = update k.link fd { k.link fd with stream := stream } := by
  apply link_eq_update
  · exact (update_eq_self ..).symm
  · exact (update_eq_self ..).symm
  · rfl
  · exact (update_eq_self ..).symm

theorem link_told (k : Sockets) (batch : List (Lib.Ready ℕ)) (fd : ℕ) : (k.told batch).link fd =
    { k.link fd with marked := k.marked fd && !(batch.map (·.fd)).contains fd } := rfl

theorem ready_arrive (h : k.Ready lfd fd) (fd' : ℕ) (a : Arrival) : (k.arrive fd' a).Ready lfd fd := by
  unfold Ready at h ⊢
  split at h
  · next hfd => rwa [if_pos hfd]
  · next hfd =>
    rw [if_neg hfd]
    change (update k.streams fd' ((k.streams fd').receive a) fd).Ready
    by_cases heq : fd = fd'
    · subst heq
      rw [update_self]
      exact Stream.ready_receive h a
    · rwa [update_of_ne heq]

theorem ready_connect (h : k.Ready lfd fd) : k.connect.Ready lfd fd := by
  unfold Ready at h ⊢
  split at h
  · next hfd =>
    rw [if_pos hfd]
    exact List.append_ne_nil_of_left_ne_nil h _
  · next hfd => rwa [if_neg hfd]

theorem ready_arriveQueued (h : k.Ready lfd fd) (n : ℕ) (a : Arrival) :
    (k.arriveQueued n a).Ready lfd fd := by
  unfold Ready at h ⊢
  split at h
  · next hfd =>
    rw [if_pos hfd]
    intro hnil
    apply h
    apply List.length_eq_zero_iff.mp
    exact (List.length_modify ..).symm.trans (congrArg List.length hnil)
  · next hfd => rwa [if_neg hfd]

/-- A connection is as ready as its stream. -/
theorem ready_iff (hfd : fd ≠ lfd) : k.Ready lfd fd ↔ (k.link fd).stream.Ready := by
  unfold Ready
  rw [if_neg hfd]
  rfl

end Links
end Sockets
end ServerKit.Lib
