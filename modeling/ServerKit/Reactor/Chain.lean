import ServerKit.Lib.Links
import ServerKit.Reactor.Http

/-! The blocks of a reactor as they lie in memory: a list that grows behind its last block and that every
lookup walks along. The events of a descriptor are where the list of blocks in `NtyReactor` has them. -/
namespace ServerKit.Reactor.Chain
open Function ServerKit.Lib

variable {X : Type}

/-- A `struct eventblock`: the address of its array of events and the one of the next block. -/
structure Eventblock where
  events : ℕ
  next : ℕ

/-- The `struct ntyreactor` with the memory: blocks, arrays of events, and `fresh`, which is the next
address that `malloc` gives. -/
structure NtyReactor (X : Type) where
  blkcnt : ℕ
  evblks : ℕ
  block : ℕ → Eventblock
  events : ℕ → ℕ → NtyEvent X
  fresh : ℕ

/-- The address of an event: its array and its place there. -/
abbrev Slot := ℕ × ℕ

section Functions
variable [Zero X]

/-- The returned status comes second. -/
def ntyreactorAlloc (fuel : ℕ) (r : NtyReactor X) : Option (NtyReactor X × ℤ) :=
  if r.evblks = 0 then some (r,-1)
  else
    (whileLoop (fun blk => (r.block blk).next ≠ 0) (fun blk => (r.block blk).next) fuel r.evblks).map
      fun blk =>
        let evs := r.fresh
        let block := r.fresh+1
        let blocks := update r.block block ⟨evs,0⟩
        ({ blkcnt := r.blkcnt+1
           evblks := r.evblks
           block := update blocks blk { blocks blk with next := block }
           events := update r.events evs fun _ => zeroEvent
           fresh := r.fresh+2 },0)

/-- The loop of `ntyreactor_idx` that allocates. -/
def growLoop (blkidx : ℕ) : ℕ → NtyReactor X → Option (NtyReactor X)
  | 0,_ => none
  | fuel+1,r =>
    if blkidx ≥ r.blkcnt then (ntyreactorAlloc fuel r).bind fun a => growLoop blkidx fuel a.1
    else some r

/-- The returned slot comes second; without a first block it is NULL. A walk that ends at NULL is followed
by `blk->events`. -/
def ntyreactorIdx (fuel : ℕ) (r : NtyReactor X) (sockfd : ℕ) : Option (NtyReactor X × Option Slot) :=
  if r.evblks = 0 then some (r,none)
  else
    let blkidx := sockfd/MAX_EPOLL_EVENTS
    (growLoop blkidx fuel r).bind fun r =>
      (whileLoop (fun s : ℕ × ℕ => s.1 ≠ blkidx ∧ s.2 ≠ 0) (fun s => (s.1+1,(r.block s.2).next)) fuel
        (0,r.evblks)).bind fun s =>
          if s.2 = 0 then none
          else some (r,some ((r.block s.2).events,sockfd % MAX_EPOLL_EVENTS))

/-- The memory in which the reactor is set up may have any contents. -/
def ntyreactorInit (r : NtyReactor X) : NtyReactor X where
  blkcnt := 1
  evblks := r.fresh+1
  block := update r.block (r.fresh+1) ⟨r.fresh,0⟩
  events := update r.events r.fresh fun _ => zeroEvent
  fresh := r.fresh+2

end Functions

/-- The blocks of the chain are at `bs`, each one with an array of its own. -/
structure Holds (r : NtyReactor X) (bs : List ℕ) : Prop where
  links : Links (fun p => (r.block p).next) r.evblks bs 0
  count : r.blkcnt = bs.length
  pos : bs ≠ []
  nodup : bs.Nodup
  arrays : (bs.map fun p => (r.block p).events).Nodup
  old : ∀ p ∈ bs, p < r.fresh ∧ (r.block p).events < r.fresh

/-- What the growth of a chain leaves as it was. -/
structure Kept (r r' : NtyReactor X) (bs : List ℕ) : Prop where
  array : ∀ p ∈ bs, (r'.block p).events = (r.block p).events
  events : ∀ p ∈ bs, r'.events (r.block p).events = r.events (r.block p).events

/-- The same blocks as a list of arrays. -/
def NtyReactor.view (r : NtyReactor X) (bs : List ℕ) : Reactor.NtyReactor X :=
  ⟨r.blkcnt,bs.map fun p => r.events (r.block p).events⟩

/-- The slot of a descriptor is at its place in the array of its block. -/
def IsSlot (r : NtyReactor X) (bs : List ℕ) (fd : ℕ) (slot : Slot) : Prop :=
  ∃ p, bs[fd/MAX_EPOLL_EVENTS]? = some p ∧ slot = ((r.block p).events,fd % MAX_EPOLL_EVENTS)

section Kept
variable {r r' r'' : NtyReactor X} {bs bs' : List ℕ}

theorem Kept.refl (r : NtyReactor X) (bs : List ℕ) : Kept r r bs := ⟨fun _ _ => rfl,fun _ _ => rfl⟩

theorem Kept.trans (h : Kept r r' bs) (h' : Kept r' r'' (bs ++ bs')) : Kept r r'' bs where
  array p hp := (h'.array p (List.mem_append_left _ hp)).trans (h.array p hp)
  events p hp := by
    rw [← h.events p hp, ← h.array p hp]
    exact h'.events p (List.mem_append_left _ hp)

theorem IsSlot.kept {fd : ℕ} {slot : Slot} (h : IsSlot r bs fd slot) (hkept : Kept r r' bs) :
    IsSlot r' (bs ++ bs') fd slot := by
  obtain ⟨p,hp,rfl⟩ := h
  refine ⟨p,?_,?_⟩
  · rw [List.getElem?_append_left (List.getElem?_eq_some_iff.mp hp).1, hp]
  · rw [hkept.array p (List.mem_of_getElem? hp)]

/-- One slot belongs to one descriptor. -/
theorem IsSlot.inj {fd fd' : ℕ} {slot slot' : Slot} (h : Holds r bs) (hs : IsSlot r bs fd slot)
    (hs' : IsSlot r bs fd' slot') : slot = slot' ↔ fd = fd' := by
  obtain ⟨p,hp,rfl⟩ := hs
  obtain ⟨q,hq,rfl⟩ := hs'
  constructor
  · intro hsame
    obtain ⟨harray,hmod⟩ := Prod.mk.inj hsame
    have hget : ∀ {i : ℕ} {p : ℕ}, bs[i]? = some p →
        (bs.map fun p => (r.block p).events)[i]? = some (r.block p).events := by
      intro i p hp
      rw [List.getElem?_map, hp]
      rfl
    have hdiv : fd/MAX_EPOLL_EVENTS = fd'/MAX_EPOLL_EVENTS := by
      refine (List.getElem?_inj ?_ h.arrays).mp ?_
      · rw [List.length_map]
        exact (List.getElem?_eq_some_iff.mp hp).1
      · rw [hget hp, hget hq, harray]
    exact slotOf_inj.mp (Prod.ext hdiv hmod)
  · rintro rfl
    obtain rfl := Option.some.inj (hp.symm.trans hq)
    rfl

end Kept

section Grow
variable [Zero X] {r : NtyReactor X} {bs : List ℕ} {x p : ℕ}

/-- A new block behind the last one, which is at `blk`. -/
def NtyReactor.grown (r : NtyReactor X) (blk : ℕ) : NtyReactor X :=
  let blocks := update r.block (r.fresh+1) ⟨r.fresh,0⟩
  { blkcnt := r.blkcnt+1
    evblks := r.evblks
    block := update blocks blk { blocks blk with next := r.fresh+1 }
    events := update r.events r.fresh fun _ => zeroEvent
    fresh := r.fresh+2 }

theorem grown_block_new (hx : x < r.fresh) : (r.grown x).block (r.fresh+1) = ⟨r.fresh,0⟩ := by
  have hne : r.fresh+1 ≠ x := by omega
  exact (update_of_ne hne ..).trans (update_self ..)

theorem grown_block_last (hx : x < r.fresh) :
    (r.grown x).block x = ⟨(r.block x).events,r.fresh+1⟩ := by
  have hne : x ≠ r.fresh+1 := by omega
  simp [NtyReactor.grown,hne]

theorem grown_block (hp : p < r.fresh) (hne : p ≠ x) : (r.grown x).block p = r.block p := by
  have hnew : p ≠ r.fresh+1 := by omega
  exact (update_of_ne hne ..).trans (update_of_ne hnew ..)

theorem grown_array (hx : x < r.fresh) (hp : p < r.fresh) :
    ((r.grown x).block p).events = (r.block p).events := by
  by_cases hne : p = x
  · rw [hne, grown_block_last hx]
  · rw [grown_block hp hne]

theorem grown_kept (h : Holds r bs) (hx : x ∈ bs) : Kept r (r.grown x) bs where
  array p hp := grown_array (h.old x hx).1 (h.old p hp).1
  events p hp := update_of_ne (h.old p hp).2.ne ..

theorem grown_holds {ps : List ℕ} (h : Holds r (ps ++ [x])) :
    Holds (r.grown x) (ps ++ [x] ++ [r.fresh+1]) := by
  have hx : x < r.fresh := (h.old x (by simp)).1
  have hold : ∀ p ∈ ps ++ [x], p < r.fresh := fun p hp => (h.old p hp).1
  have hkept : Kept r (r.grown x) (ps ++ [x]) := grown_kept h (by simp)
  have harrays : (ps ++ [x]).map (fun p => ((r.grown x).block p).events) =
      (ps ++ [x]).map fun p => (r.block p).events := List.map_congr_left hkept.array
  obtain ⟨hlinks,hnodup⟩ : Links (fun p => ((r.grown x).block p).next) r.evblks (ps ++ [x] ++ [r.fresh+1]) 0 ∧
      (ps ++ [x] ++ [r.fresh+1]).Nodup := by
    refine h.links.snoc_above h.nodup (fun p hp => (hold p hp).trans (Nat.lt_succ_self _)) ?_ ?_
      fun p hp hne => ?_
    · rw [grown_block_last hx]
    · rw [grown_block_new hx]
    · rw [grown_block (hold p (by simp [hp])) hne]
  refine ⟨hlinks,?_,by simp,hnodup,?_,?_⟩
  · change r.blkcnt+1 = _
    rw [List.length_append, List.length_singleton, h.count]
  · rw [List.map_append, harrays, List.map_singleton, grown_block_new hx]
    refine List.nodup_append.mpr ⟨h.arrays,List.nodup_singleton _,?_⟩
    rintro a ha _ hnew rfl
    obtain ⟨p,hp,rfl⟩ := List.mem_map.mp ha
    exact absurd (List.mem_singleton.mp hnew) (h.old p hp).2.ne
  · intro p hp
    obtain hp | hp := List.mem_append.mp hp
    · rw [hkept.array p hp]
      obtain ⟨hp₁,hp₂⟩ := h.old p hp
      change p < r.fresh+2 ∧ _ < r.fresh+2
      omega
    · rw [List.mem_singleton.mp hp, grown_block_new hx]
      change r.fresh+1 < r.fresh+2 ∧ r.fresh < r.fresh+2
      omega

theorem grown_view {ps : List ℕ} (h : Holds r (ps ++ [x])) :
    (r.grown x).view (ps ++ [x] ++ [r.fresh+1]) = Reactor.ntyreactorAlloc (r.view (ps ++ [x])) := by
  have hx : x < r.fresh := (h.old x (by simp)).1
  have hkept : Kept r (r.grown x) (ps ++ [x]) := grown_kept h (by simp)
  have hold : (ps ++ [x]).map (fun p => (r.grown x).events ((r.grown x).block p).events) =
      (ps ++ [x]).map fun p => r.events (r.block p).events := by
    refine List.map_congr_left fun p hp => ?_
    rw [hkept.array p hp, hkept.events p hp]
  have hnew : (r.grown x).events r.fresh = fun _ => zeroEvent := update_self ..
  rw [NtyReactor.view, List.map_append, hold, List.map_singleton, grown_block_new hx, hnew]
  rfl

/-- `ntyreactor_alloc` hangs a zeroed block behind the chain. -/
theorem ntyreactorAlloc_spec (h : Holds r bs) :
    ∃ r', Returns (fun f => ntyreactorAlloc f r) (r',0) ∧ Holds r' (bs ++ [r.fresh+1]) ∧ Kept r r' bs ∧
      r'.view (bs ++ [r.fresh+1]) = Reactor.ntyreactorAlloc (r.view bs) := by
  obtain ⟨ps,x,rfl⟩ := bs.eq_nil_or_concat'.resolve_left h.pos
  have hroot : r.evblks ≠ 0 := h.links.head_ne_null h.pos
  have hcode : ∀ f, ntyreactorAlloc f r =
      (whileLoop (fun blk => (r.block blk).next ≠ 0) (fun blk => (r.block blk).next) f r.evblks).map
        fun blk => (r.grown blk,0) := fun f => if_neg hroot
  exact ⟨r.grown x,Returns.congr hcode (h.links.walk_last.map _),grown_holds h,
    grown_kept h (by simp),grown_view h⟩

/-- The loop allocates as many blocks as are missing. -/
theorem growLoop_spec (blkidx lo : ℕ) {n : ℕ} (h : Holds r bs) (hn : blkidx+1-r.blkcnt = n) :
    ∃ r' new, Returns (fun f => growLoop blkidx f r) r' ∧ Holds r' (bs ++ new) ∧ Kept r r' bs ∧
      new.length = n ∧
      r'.view (bs ++ new) = forUp lo n (fun _ r => Reactor.ntyreactorAlloc r) (r.view bs) := by
  induction n generalizing lo r bs with
  | zero =>
    have hfar : ¬ blkidx ≥ r.blkcnt := by omega
    have hstop : Returns (fun f => growLoop blkidx f r) r :=
      Returns.succ (fun f => if_neg hfar) (Returns.const r)
    exact ⟨r,[],hstop,by rwa [List.append_nil],.refl r bs,rfl,by rw [List.append_nil]; rfl⟩
  | succ n ih =>
    have hnear : blkidx ≥ r.blkcnt := by omega
    obtain ⟨r₁,halloc,hr₁,hkept,hview⟩ := ntyreactorAlloc_spec h
    have hcount : r₁.blkcnt = r.blkcnt+1 := by
      rw [hr₁.count, h.count, List.length_append, List.length_singleton]
    obtain ⟨r₂,new,hloop,hr₂,hkept₂,hlen,hview₂⟩ := ih (lo+1) hr₁ (by omega)
    rw [List.append_assoc] at hr₂ hview₂
    refine ⟨r₂,[r.fresh+1] ++ new,?_,hr₂,hkept.trans hkept₂,?_,?_⟩
    · exact Returns.succ (fun f => if_pos hnear) (halloc.bind hloop)
    · rw [List.length_append, List.length_singleton, hlen]
      omega
    · rw [hview₂, hview]
      rfl

theorem ntyreactorIdx_spec (h : Holds r bs) (fd : ℕ) :
    ∃ r' new slot, Returns (fun f => ntyreactorIdx f r fd) (r',some slot) ∧ Holds r' (bs ++ new) ∧
      Kept r r' bs ∧ IsSlot r' (bs ++ new) fd slot ∧
      r'.view (bs ++ new) = (Reactor.ntyreactorIdx (r.view bs) fd).1 := by
  have hroot : r.evblks ≠ 0 := h.links.head_ne_null h.pos
  obtain ⟨r',new,hgrow,hr',hkept,hlen,hview⟩ := growLoop_spec (fd/MAX_EPOLL_EVENTS) 0 h rfl
  have hcount := h.count
  have hin : fd/MAX_EPOLL_EVENTS < (bs ++ new).length := by
    rw [List.length_append, hlen]
    omega
  obtain ⟨p,hp⟩ : ∃ p, (bs ++ new)[fd/MAX_EPOLL_EVENTS]? = some p :=
    ⟨_,List.getElem?_eq_getElem hin⟩
  have hne : p ≠ 0 := hr'.links.ne_null (List.mem_of_getElem? hp)
  have hwalk := hr'.links.walk_index (i := 0) hp
  rw [Nat.zero_add] at hwalk
  refine ⟨r',new,((r'.block p).events,fd % MAX_EPOLL_EVENTS),?_,hr',hkept,⟨p,hp,rfl⟩,hview⟩
  refine Returns.congr (fun f => if_neg hroot) (hgrow.bind (hwalk.bind ?_))
  exact Returns.congr (fun f => if_neg hne) (Returns.const _)

end Grow
section Runs

def NtyReactor.event (r : NtyReactor X) (slot : Slot) : NtyEvent X := r.events slot.1 slot.2

def NtyReactor.write (r : NtyReactor X) (slot : Slot) (ev : NtyEvent X) : NtyReactor X :=
  { r with events := update r.events slot.1 (update (r.events slot.1) slot.2 ev) }

/-- A call of `ntyreactor_idx` with the slot that it returns, or a write to a slot. -/
inductive Call (X : Type)
  | idx (fd : ℕ) (slot : Slot)
  | write (slot : Slot) (ev : NtyEvent X)

inductive Step [Zero X] (r : NtyReactor X) : Call X → NtyReactor X → Prop
  | idx {fd slot r'} (ret : Returns (fun f => ntyreactorIdx f r fd) (r',some slot)) :
      Step r (.idx fd slot) r'
  | write {slot ev} : Step r (.write slot ev) (r.write slot ev)

variable {r r' : NtyReactor X} {bs : List ℕ} {fd : ℕ} {slot : Slot}

theorem Holds.write (h : Holds r bs) (slot : Slot) (ev : NtyEvent X) : Holds (r.write slot ev) bs :=
  ⟨h.links,h.count,h.pos,h.nodup,h.arrays,h.old⟩

theorem event_slot [Zero X] (hs : IsSlot r bs fd slot) : r.event slot = (r.view bs).slot (slotOf fd) := by
  obtain ⟨p,hp,rfl⟩ := hs
  simp [NtyReactor.event,NtyReactor.view,Reactor.NtyReactor.slot,slotOf,hp]

theorem write_view [Zero X] (h : Holds r bs) (hs : IsSlot r bs fd slot) (ev : NtyEvent X) :
    (r.write slot ev).view bs = (r.view bs).setSlot (slotOf fd) ev := by
  obtain ⟨p,hp,rfl⟩ := hs
  have hblocks : bs.map (fun q => update r.events (r.block p).events
      (update (r.events (r.block p).events) (fd % MAX_EPOLL_EVENTS) ev) (r.block q).events) =
        (bs.map fun q => r.events (r.block q).events).modify (fd/MAX_EPOLL_EVENTS) fun evs =>
          update evs (fd % MAX_EPOLL_EVENTS) ev := by
    apply List.ext_getElem?
    intro j
    rw [List.getElem?_modify, List.getElem?_map, List.getElem?_map]
    cases hq : bs[j]? with
    | none => simp
    | some q =>
      by_cases hj : fd/MAX_EPOLL_EVENTS = j
      · subst hj
        obtain rfl := Option.some.inj (hp.symm.trans hq)
        simp
      · have hne : (r.block q).events ≠ (r.block p).events := by
          intro hsame
          have hget : (bs.map fun p => (r.block p).events)[j]? =
              (bs.map fun p => (r.block p).events)[fd/MAX_EPOLL_EVENTS]? := by
            rw [List.getElem?_map, List.getElem?_map, hq, hp, Option.map_some, Option.map_some, hsame]
          have hlt : j < (bs.map fun p => (r.block p).events).length := by
            rw [List.length_map]
            exact (List.getElem?_eq_some_iff.mp hq).1
          exact hj ((List.getElem?_inj hlt h.arrays).mp hget).symm
        simp [hj,update_of_ne hne]
  exact congrArg (Reactor.NtyReactor.mk r.blkcnt) hblocks

variable [Zero X]

/-- The event of a descriptor is read and written where the list of blocks has it. -/
theorem idx_refines (h : Holds r bs) (fd : ℕ) : ∃ r' new slot, Step r (.idx fd slot) r' ∧
    Holds r' (bs ++ new) ∧ r'.view (bs ++ new) = (Reactor.ntyreactorIdx (r.view bs) fd).1 ∧
      r'.event slot = (r'.view (bs ++ new)).slot (slotOf fd) ∧
      ∀ ev, (r'.write slot ev).view (bs ++ new) = (r'.view (bs ++ new)).setSlot (slotOf fd) ev := by
  obtain ⟨r',new,slot,hret,hr',-,hslot,hview⟩ := ntyreactorIdx_spec h fd
  exact ⟨r',new,slot,.idx hret,hr',hview,event_slot hslot,write_view hr' hslot⟩

theorem holds_init (r : NtyReactor X) : Holds (ntyreactorInit r) [r.fresh+1] := by
  have hblock : (ntyreactorInit r).block (r.fresh+1) = ⟨r.fresh,0⟩ := update_self ..
  refine ⟨.cons (Nat.succ_ne_zero _) ?_,rfl,List.cons_ne_nil _ _,List.nodup_singleton _,?_,?_⟩
  · change Links _ ((ntyreactorInit r).block (r.fresh+1)).next [] 0
    rw [hblock]
    exact .nil 0
  · exact List.nodup_singleton _
  · intro p hp
    rw [List.mem_singleton.mp hp, hblock]
    exact ⟨Nat.lt_succ_self _,Nat.lt_add_of_pos_right Nat.two_pos⟩

/-- Every slot that a run has returned is still the slot of its descriptor. -/
def Returned (s : NtyReactor X) (bs : List ℕ) (calls : List (Call X)) : Prop :=
  ∀ fd slot, .idx fd slot ∈ calls → IsSlot s bs fd slot

theorem run_holds {calls : List (Call X)} {s : NtyReactor X}
    (h : Run Step (ntyreactorInit r) calls s) : ∃ bs, Holds s bs ∧ Returned s bs calls := by
  induction h with
  | nil => exact ⟨_,holds_init r,fun _ _ hmem => absurd hmem List.not_mem_nil⟩
  | @snoc calls call s s' run last ih =>
    obtain ⟨bs,hs,hret⟩ := ih
    cases last with
    | @idx fd slot _ ret =>
      obtain ⟨s₁,new,slot₁,ret₁,hs₁,hkept,hslot,-⟩ := ntyreactorIdx_spec hs fd
      obtain ⟨rfl,hsame⟩ := Prod.mk.inj (ret.unique ret₁)
      obtain rfl := Option.some.inj hsame
      refine ⟨bs ++ new,hs₁,fun fd' slot' hmem => ?_⟩
      obtain hmem | hmem := List.mem_append.mp hmem
      · exact (hret fd' slot' hmem).kept hkept
      · obtain ⟨rfl,rfl⟩ := Call.idx.inj (List.mem_singleton.mp hmem)
        exact hslot
    | @write slot ev =>
      refine ⟨bs,hs.write slot ev,fun fd' slot' hmem => hret fd' slot' ?_⟩
      simpa using hmem

/-- After any calls, with any writes to the events in between: the counter is the length of the chain, a
lookup returns the slot of the descriptor and keeps the blocks and what is in them, and two lookups have
returned one slot exactly if they were for one descriptor. -/
theorem run_slots (r : NtyReactor X) {calls : List (Call X)} {s : NtyReactor X}
    (h : Run Step (ntyreactorInit r) calls s) :
    (∃ bs, Links (fun p => (s.block p).next) s.evblks bs 0 ∧ s.blkcnt = bs.length ∧
      ∀ fd, ∃ s' new slot, Step s (.idx fd slot) s' ∧
        Links (fun p => (s'.block p).next) s'.evblks (bs ++ new) 0 ∧
        s'.blkcnt = (bs ++ new).length ∧ IsSlot s' (bs ++ new) fd slot ∧ Kept s s' bs) ∧
      ∀ fd fd' slot slot', .idx fd slot ∈ calls → .idx fd' slot' ∈ calls →
        (slot = slot' ↔ fd = fd') := by
  obtain ⟨bs,hs,hret⟩ := run_holds h
  refine ⟨⟨bs,hs.links,hs.count,fun fd => ?_⟩,fun fd fd' slot slot' hmem hmem' => ?_⟩
  · obtain ⟨s',new,slot,ret,hs',hkept,hslot,-⟩ := ntyreactorIdx_spec hs fd
    exact ⟨s',new,slot,.idx ret,hs'.links,hs'.count,hslot,hkept⟩
  · exact (hret fd slot hmem).inj hs (hret fd' slot' hmem')

/-- Memory of the HTTP server in which nothing has been allocated. -/
def freshMemory : NtyReactor Http.Fields := ⟨0,0,fun _ => ⟨0,0⟩,fun _ _ => zeroEvent,1⟩

theorem run_slots_two : ∃ calls s slot slot', Run Step (ntyreactorInit freshMemory) calls s ∧
    calls = [.idx 2000 slot,.idx 5 slot'] ∧ slot ≠ slot' := by
  obtain ⟨r₁,_,slot,ret,hr₁,-⟩ := ntyreactorIdx_spec (holds_init freshMemory) 2000
  obtain ⟨r₂,_,slot',ret',-⟩ := ntyreactorIdx_spec hr₁ 5
  have hrun := (Run.nil.snoc (Step.idx ret)).snoc (.idx ret')
  obtain ⟨-,hinj⟩ := run_slots freshMemory hrun
  refine ⟨_,r₂,slot,slot',hrun,rfl,fun hsame => ?_⟩
  exact absurd ((hinj 2000 5 slot slot' (by simp) (by simp)).mp hsame) (by decide)

end Runs
end ServerKit.Reactor.Chain
