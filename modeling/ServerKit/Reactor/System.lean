import ServerKit.Lib.Blocks
import ServerKit.Lib.Transition
import ServerKit.Reactor.Code

/-! Runs of the event loop, and what one callback does: it changes what belongs to one descriptor. -/
namespace ServerKit.Reactor
open Function ServerKit.Lib

variable {X : Type} [Zero X]

/-- The loop between two callbacks. -/
structure State (X : Type) where
  server : Server X
  /-- The events of the last `epoll_wait` that are not looked at yet. -/
  pending : List (Ready Ptr)
  /-- The event whose test for EPOLLIN is done. -/
  second : Option (Ready Ptr)

/-- A new reactor on a kernel that has the descriptors in `opened`. -/
def boot (opened : ℕ → Bool) : Server X where
  reactor := ntyreactorInit
  kernel := ⟨opened,fun _ => none,[]⟩
  log := fun _ => []

/-- The reactor of `main` before its loop. -/
def start (opened : ℕ → Bool) (listenfd : ℕ) : State X where
  server := ntyreactorAddlistener (boot opened) listenfd
  pending := []
  second := none

/-- `accept` returns a descriptor that was not open, and `recv` fills at most the buffer. -/
structure Results.Fits (res : Results) (k : Epoll Ptr) : Prop where
  accept : ∀ fd, res.accept = some fd → k.opened fd = false
  recv : ∀ bytes, res.recv = .data bytes → bytes ≠ [] ∧ bytes.length ≤ BUFFER_LENGTH

inductive Action
  | wait (batch : List (Ready Ptr))
  | testIn (res : Results)
  | testOut (res : Results)

inductive Step (app : App X) (s : State X) : Action → State X → Prop
  | wait {batch} (hpending : s.pending = []) (hsecond : s.second = none)
      (h : s.server.kernel.Reports batch) : Step app s (.wait batch) { s with pending := batch }
  | testIn {e pending res} (hpending : s.pending = e :: pending) (hsecond : s.second = none)
      (hfits : res.Fits s.server.kernel) :
      Step app s (.testIn res) ⟨test app EPOLLIN s.server e res,pending,some e⟩
  | testOut {e res} (hsecond : s.second = some e) (hfits : res.Fits s.server.kernel) :
      Step app s (.testOut res) ⟨test app EPOLLOUT s.server e res,s.pending,none⟩

section Chain
variable {r : NtyReactor X} {p q : Ptr} {ev : NtyEvent X} {fd : ℕ}

/-- Where the event of a descriptor is. -/
def slotOf (fd : ℕ) : Ptr := (fd/MAX_EPOLL_EVENTS,fd % MAX_EPOLL_EVENTS)

theorem slotOf_inj {fd fd' : ℕ} : slotOf fd = slotOf fd' ↔ fd = fd' := place_inj

/-- The counter is the length of the chain. -/
def NtyReactor.Valid (r : NtyReactor X) : Prop := r.blkcnt = r.evblks.length

theorem slot_alloc (r : NtyReactor X) (p : Ptr) : (ntyreactorAlloc r).slot p = r.slot p :=
  slotAt_append zeroEvent r.evblks p

/-- New blocks leave the slots as they are. -/
theorem forUp_alloc (lo n : ℕ) (r : NtyReactor X) (hr : r.Valid) (p : Ptr) :
    (forUp lo n (fun _ r => ntyreactorAlloc r) r).slot p = r.slot p ∧
      (forUp lo n (fun _ r => ntyreactorAlloc r) r).Valid ∧
      (forUp lo n (fun _ r => ntyreactorAlloc r) r).evblks.length = r.evblks.length+n := by
  induction n generalizing lo r with
  | zero => exact ⟨rfl,hr,rfl⟩
  | succ n ih =>
    have hvalid : (ntyreactorAlloc r).Valid := by
      rw [NtyReactor.Valid, ntyreactorAlloc, List.length_append, List.length_singleton, hr]
    obtain ⟨hslot,hr',hlength⟩ := ih (lo+1) (ntyreactorAlloc r) hvalid
    refine ⟨hslot.trans (slot_alloc r p),hr',hlength.trans ?_⟩
    rw [ntyreactorAlloc, List.length_append, List.length_singleton]
    omega

theorem ntyreactorIdx_snd (r : NtyReactor X) (fd : ℕ) : (ntyreactorIdx r fd).2 = slotOf fd := rfl

theorem slot_idx (hr : r.Valid) (fd : ℕ) (p : Ptr) : (ntyreactorIdx r fd).1.slot p = r.slot p :=
  (forUp_alloc 0 _ r hr p).1

theorem slot_setSlot (h : p.1 < r.evblks.length) :
    (r.setSlot p ev).slot q = if q = p then ev else r.slot q :=
  slotAt_setSlotAt h

/-- Writing to the event of a descriptor, as the callbacks do. -/
theorem slot_write (hr : r.Valid) (fd fd' : ℕ) (ev : NtyEvent X) :
    ((ntyreactorIdx r fd).1.setSlot (ntyreactorIdx r fd).2 ev).slot (slotOf fd') =
      if fd' = fd then ev else r.slot (slotOf fd') := by
  have hlength := (forUp_alloc 0 (fd/MAX_EPOLL_EVENTS+1-r.blkcnt) r hr (0,0)).2.2
  rw [slot_setSlot, slot_idx hr]
  · exact if_congr slotOf_inj rfl rfl
  · rw [NtyReactor.Valid] at hr
    change fd/MAX_EPOLL_EVENTS < (forUp 0 _ _ r).evblks.length
    omega

theorem valid_write (hr : r.Valid) (fd : ℕ) (ev : NtyEvent X) :
    ((ntyreactorIdx r fd).1.setSlot (ntyreactorIdx r fd).2 ev).Valid := by
  have hvalid := (forUp_alloc 0 (fd/MAX_EPOLL_EVENTS+1-r.blkcnt) r hr (0,0)).2.1
  rw [NtyReactor.Valid, NtyReactor.setSlot, List.length_modify]
  exact hvalid

end Chain
end ServerKit.Reactor
