import ServerKit.Reactor.Chain

/-! The lookup of an event when `malloc` may fail, and for descriptors that are negative. -/
namespace ServerKit.Reactor.Malloc
open Function ServerKit.Lib

/-- From the `i`th call of `malloc` on there are `n` disjoint pairs of successive calls that succeed. -/
inductive Pairs (σ : ℕ → Bool) : ℕ → ℕ → Prop
  | zero (i : ℕ) : Pairs σ 0 i
  | pair {n i j : ℕ} (hij : i ≤ j) (first : σ j = true) (second : σ (j+1) = true)
      (rest : Pairs σ n (j+2)) : Pairs σ (n+1) i

section Pairs
variable {σ : ℕ → Bool} {n i i' : ℕ}

theorem Pairs.earlier (h : Pairs σ n i) (hi : i' ≤ i) : Pairs σ n i' := by
  cases h with
  | zero => exact .zero i'
  | pair hij first second rest => exact .pair (hi.trans hij) first second rest

end Pairs

variable {X : Type}

/-- The reactor with the memory, and how many calls of `malloc` there have been. -/
structure Memory (X : Type) where
  reactor : Chain.NtyReactor X
  mallocs : ℕ

/-- Where an event is: the address of its array, and the index there, which need not be in the array. -/
abbrev Slot := ℕ × ℤ

section Functions
variable [Zero X] (σ : ℕ → Bool)

/-- An array of events that is zeroed, and that nothing leads to. -/
def allocEvs (r : Chain.NtyReactor X) : Chain.NtyReactor X :=
  { r with
    events := update r.events r.fresh fun _ => zeroEvent
    fresh := r.fresh+1 }

/-- A block for the array `evs`, behind the last block `blk`. -/
def hangBlock (r : Chain.NtyReactor X) (evs blk : ℕ) : Chain.NtyReactor X :=
  let block := r.fresh
  let blocks := update r.block block ⟨evs,0⟩
  { r with
    blkcnt := r.blkcnt+1
    block := update blocks blk { blocks blk with next := block }
    fresh := r.fresh+1 }

/-- What `ntyreactor_alloc` does when its loop has stopped at `blk`; the status comes second. -/
def allocBehind (m : Memory X) (blk : ℕ) : Memory X × ℤ :=
  if σ m.mallocs = false then (⟨m.reactor,m.mallocs+1⟩,-2)
  else if σ (m.mallocs+1) = false then (⟨allocEvs m.reactor,m.mallocs+2⟩,-3)
  else (⟨hangBlock (allocEvs m.reactor) m.reactor.fresh blk,m.mallocs+2⟩,0)

def ntyreactorAlloc (fuel : ℕ) (m : Memory X) : Option (Memory X × ℤ) :=
  let r := m.reactor
  if r.evblks = 0 then some (m,-1)
  else
    (whileLoop (fun blk => (r.block blk).next ≠ 0) (fun blk => (r.block blk).next) fuel r.evblks).map
      (allocBehind σ m)

/-- The loop of `ntyreactor_idx` that allocates. -/
def growLoop (blkidx : ℤ) : ℕ → Memory X → Option (Memory X)
  | 0,_ => none
  | fuel+1,m =>
    if blkidx ≥ m.reactor.blkcnt then (ntyreactorAlloc σ fuel m).bind fun a => growLoop blkidx fuel a.1
    else some m

/-- Quotient and remainder are those of C, which round towards zero. -/
def ntyreactorIdx (fuel : ℕ) (m : Memory X) (sockfd : ℤ) : Option (Memory X × Option Slot) :=
  if m.reactor.evblks = 0 then some (m,none)
  else
    let blkidx := sockfd.tdiv MAX_EPOLL_EVENTS
    (growLoop σ blkidx fuel m).bind fun m =>
      (whileLoop (fun s : ℕ × ℕ => (s.1 : ℤ) ≠ blkidx ∧ s.2 ≠ 0)
        (fun s => (s.1+1,(m.reactor.block s.2).next)) fuel (0,m.reactor.evblks)).bind fun s =>
          if s.2 = 0 then none
          else some (m,some ((m.reactor.block s.2).events,sockfd.tmod MAX_EPOLL_EVENTS))

/-- The reactor after `memset`. -/
def zeroed (r : Chain.NtyReactor X) : Chain.NtyReactor X := { r with blkcnt := 0, evblks := 0 }

/-- Here `epoll` says whether `epoll_create` gives a descriptor. -/
def ntyreactorInit (epoll : Bool) (r : Chain.NtyReactor X) : Memory X :=
  if epoll = false then ⟨zeroed r,0⟩
  else if σ 0 = false then ⟨zeroed r,1⟩
  else if σ 1 = false then ⟨zeroed (allocEvs r),2⟩
  else ⟨Chain.ntyreactorInit r,2⟩

/-- A call of `ntyreactor_idx`, or a write to an event. -/
inductive Call (X : Type)
  | idx (sockfd : ℤ) (slot : Option Slot)
  | write (slot : Chain.Slot) (ev : NtyEvent X)

inductive Step (m : Memory X) : Call X → Memory X → Prop
  | idx {sockfd slot m'} (ret : Returns (fun f => ntyreactorIdx σ f m sockfd) (m',slot)) :
      Step m (.idx sockfd slot) m'
  | write {slot ev} : Step m (.write slot ev) ⟨m.reactor.write slot ev,m.mallocs⟩

/-- A call of `ntyreactor_alloc`, with its status. -/
def Attempt (m : Memory X) (status : ℤ) (m' : Memory X) : Prop :=
  Returns (fun f => ntyreactorAlloc σ f m) (m',status)

end Functions

open Chain (Holds)

/-- The index is one of the array of a block of the chain. -/
def InBlock (r : Chain.NtyReactor X) (slot : Slot) : Prop :=
  ∃ bs p, Links (fun p => (r.block p).next) r.evblks bs 0 ∧ p ∈ bs ∧ slot.1 = (r.block p).events ∧
    0 ≤ slot.2 ∧ slot.2 < MAX_EPOLL_EVENTS

/-- The call returns NULL or an event of the chain, and what fails on the way leaves the chain alone. -/
structure Survives [Zero X] (σ : ℕ → Bool) (m : Memory X) (sockfd : ℤ) : Prop where
  returns : ∃ m' slot, Returns (fun f => ntyreactorIdx σ f m sockfd) (m',slot) ∧
    ∀ s, slot = some s → InBlock m'.reactor s
  failed : ∀ statuses m₁ status m₂, Run (Attempt σ) m statuses m₁ → Attempt σ m₁ status m₂ →
    status ≠ 0 → m₂.reactor.evblks = m₁.reactor.evblks ∧ m₂.reactor.blkcnt = m₁.reactor.blkcnt ∧
      m₂.reactor.block = m₁.reactor.block

/-- How many blocks the chain lacks for a descriptor. -/
def missing (m : Memory X) (sockfd : ℤ) : ℕ := sockfd.toNat/MAX_EPOLL_EVENTS+1-m.reactor.blkcnt

theorem missing_eq (m : Memory X) (fd : ℕ) :
    ((fd : ℤ).tdiv MAX_EPOLL_EVENTS+1-m.reactor.blkcnt).toNat = missing m fd := by
  have hquot : (fd : ℤ).tdiv MAX_EPOLL_EVENTS = (fd/MAX_EPOLL_EVENTS : ℕ) := rfl
  rw [missing, hquot, Int.toNat_natCast]
  omega

section Attempts
variable [Zero X] {σ : ℕ → Bool} {m m' : Memory X} {bs ps : List ℕ} {x : ℕ} {status : ℤ}

theorem allocBehind_failed (h : (allocBehind σ m x).2 ≠ 0) :
    (allocBehind σ m x).1.reactor.evblks = m.reactor.evblks ∧
      (allocBehind σ m x).1.reactor.blkcnt = m.reactor.blkcnt ∧
      (allocBehind σ m x).1.reactor.block = m.reactor.block := by
  unfold allocBehind at h ⊢
  split at h
  · next hfirst =>
    rw [if_pos hfirst]
    exact ⟨rfl,rfl,rfl⟩
  · next hfirst =>
    rw [if_neg hfirst]
    split at h
    · next hsecond =>
      rw [if_pos hsecond]
      exact ⟨rfl,rfl,rfl⟩
    · exact absurd rfl h

/-- A call that reports a failure has changed neither the chain nor its length. -/
theorem attempt_failed (h : Attempt σ m status m') (hstatus : status ≠ 0) :
    m'.reactor.evblks = m.reactor.evblks ∧ m'.reactor.blkcnt = m.reactor.blkcnt ∧
      m'.reactor.block = m.reactor.block := by
  obtain ⟨N,hN⟩ := h
  have hcall := hN N le_rfl
  unfold ntyreactorAlloc at hcall
  dsimp only at hcall
  split at hcall
  · cases hcall
    exact ⟨rfl,rfl,rfl⟩
  · obtain ⟨x,-,heq⟩ := Option.map_eq_some_iff.mp hcall
    have hfailed := allocBehind_failed (σ := σ) (m := m) (x := x)
    rw [heq] at hfailed
    exact hfailed hstatus

/-- The events of a chain are not where a new array is. -/
theorem holds_allocEvs (h : Holds m.reactor bs) : Holds (allocEvs m.reactor) bs where
  links := h.links
  count := h.count
  pos := h.pos
  nodup := h.nodup
  arrays := h.arrays
  old p hp := ⟨(h.old p hp).1.trans (Nat.lt_succ_self _),(h.old p hp).2.trans (Nat.lt_succ_self _)⟩

theorem attempt_chain (h : Holds m.reactor (ps ++ [x])) :
    Returns (fun f => ntyreactorAlloc σ f m) (allocBehind σ m x) := by
  have hroot : m.reactor.evblks ≠ 0 := h.links.head_ne_null h.pos
  exact Returns.congr (fun _ => if_neg hroot) (h.links.walk_last.map _)

/-- What a call returns that comes back does not depend on its fuel. -/
theorem alloc_eq_some (h : Holds m.reactor (ps ++ [x])) {f : ℕ} {a : Memory X × ℤ}
    (ha : ntyreactorAlloc σ f m = some a) : a = allocBehind σ m x := by
  have hroot : m.reactor.evblks ≠ 0 := h.links.head_ne_null h.pos
  unfold ntyreactorAlloc at ha
  dsimp only at ha
  rw [if_neg hroot] at ha
  obtain ⟨y,hy,rfl⟩ := Option.map_eq_some_iff.mp ha
  rw [(loop_returns hy).unique h.links.walk_last]

/-- The three ways in which a call for a block may end. -/
theorem allocBehind_cases (h : Holds m.reactor (ps ++ [x])) :
    (σ m.mallocs = false ∧ (allocBehind σ m x).1.mallocs = m.mallocs+1 ∧
        (allocBehind σ m x).1.reactor.blkcnt = m.reactor.blkcnt ∧
        Holds (allocBehind σ m x).1.reactor (ps ++ [x])) ∨
      (σ (m.mallocs+1) = false ∧ (allocBehind σ m x).1.mallocs = m.mallocs+2 ∧
        (allocBehind σ m x).1.reactor.blkcnt = m.reactor.blkcnt ∧
        Holds (allocBehind σ m x).1.reactor (ps ++ [x])) ∨
      (σ m.mallocs = true ∧ σ (m.mallocs+1) = true ∧ (allocBehind σ m x).1.mallocs = m.mallocs+2 ∧
        (allocBehind σ m x).1.reactor.blkcnt = m.reactor.blkcnt+1 ∧
        Holds (allocBehind σ m x).1.reactor (ps ++ [x] ++ [m.reactor.fresh+1])) := by
  unfold allocBehind
  by_cases hfirst : σ m.mallocs = false
  · rw [if_pos hfirst]
    exact .inl ⟨hfirst,rfl,rfl,h⟩
  · rw [if_neg hfirst]
    by_cases hsecond : σ (m.mallocs+1) = false
    · rw [if_pos hsecond]
      exact .inr (.inl ⟨hsecond,rfl,rfl,holds_allocEvs h⟩)
    · rw [if_neg hsecond]
      exact .inr (.inr ⟨eq_true_of_ne_false hfirst,eq_true_of_ne_false hsecond,rfl,rfl,
        Chain.grown_holds h⟩)

/-- A loop that has come to an end has found a pair for every missing block. -/
theorem growLoop_pairs {f n : ℕ} {blkidx : ℤ} (h : Holds m.reactor bs)
    (hn : (blkidx+1-m.reactor.blkcnt).toNat = n) (hloop : growLoop σ blkidx f m = some m') :
    Pairs σ n m.mallocs ∧ ∃ bs', Holds m'.reactor bs' ∧ blkidx < bs'.length := by
  induction f generalizing m bs n with
  | zero => cases hloop
  | succ f ih =>
    rw [growLoop] at hloop
    split at hloop
    · next hnear =>
      obtain ⟨ps,x,rfl⟩ := bs.eq_nil_or_concat'.resolve_left h.pos
      obtain ⟨a,ha,hrest⟩ := Option.bind_eq_some_iff.mp hloop
      obtain rfl := alloc_eq_some h ha
      obtain ⟨-,hm,hcount,hr⟩ | ⟨-,hm,hcount,hr⟩ | ⟨hfirst,hsecond,hm,hcount,hr⟩ :=
        allocBehind_cases (σ := σ) h
      · obtain ⟨hpairs,hend⟩ := ih hr (hcount ▸ hn) hrest
        exact ⟨hpairs.earlier (by omega),hend⟩
      · obtain ⟨hpairs,hend⟩ := ih hr (hcount ▸ hn) hrest
        exact ⟨hpairs.earlier (by omega),hend⟩
      · obtain ⟨n,rfl⟩ : ∃ k, n = k+1 := ⟨n-1,by omega⟩
        obtain ⟨hpairs,hend⟩ := ih hr (n := n) (by omega) hrest
        exact ⟨.pair le_rfl hfirst hsecond (hm ▸ hpairs),hend⟩
    · next hfar =>
      obtain rfl := Option.some.inj hloop
      have hcount := h.count
      obtain rfl : n = 0 := by omega
      exact ⟨.zero _,bs,h,by omega⟩

/-- The loop comes to an end if there is a pair for every missing block. The calls up to the next pair are
gone through one or two at a time. -/
theorem growLoop_returns {n : ℕ} {blkidx : ℤ} (h : Holds m.reactor bs)
    (hn : (blkidx+1-m.reactor.blkcnt).toNat = n) (hpairs : Pairs σ n m.mallocs) :
    ∃ m', Returns (fun f => growLoop σ blkidx f m) m' := by
  induction n generalizing m bs with
  | zero =>
    have hfar : ¬ blkidx ≥ m.reactor.blkcnt := by omega
    exact ⟨m,Returns.succ (fun f => if_neg hfar) (Returns.const m)⟩
  | succ n ih =>
    obtain _ | @⟨_,_,j,hij,hfirst,hsecond,hrest⟩ := hpairs
    induction hk : j-m.mallocs using Nat.strong_induction_on generalizing m bs with
    | _ k ihk =>
      subst hk
      have hnear : blkidx ≥ m.reactor.blkcnt := by omega
      obtain ⟨ps,x,rfl⟩ := bs.eq_nil_or_concat'.resolve_left h.pos
      -- what is left to do after the next call
      have hnext (hcall : ∃ m', Returns (fun f => growLoop σ blkidx f (allocBehind σ m x).1) m') :
          ∃ m', Returns (fun f => growLoop σ blkidx f m) m' := by
        obtain ⟨m',hm'⟩ := hcall
        exact ⟨m',Returns.succ (fun f => if_pos hnear) ((attempt_chain h).bind hm')⟩
      apply hnext
      obtain ⟨hfail,hm,hcount,hr⟩ | ⟨hfail,hm,hcount,hr⟩ | ⟨-,-,hm,hcount,hr⟩ :=
        allocBehind_cases (σ := σ) h
      · have hne : m.mallocs ≠ j := by
          rintro rfl
          exact Bool.false_ne_true (hfail.symm.trans hfirst)
        exact ihk _ (by omega) hr (hcount ▸ hn) (by omega) rfl
      · have hne : m.mallocs ≠ j := by
          rintro rfl
          exact Bool.false_ne_true (hfail.symm.trans hsecond)
        have hne' : m.mallocs+1 ≠ j := by
          rintro rfl
          exact Bool.false_ne_true (hfail.symm.trans hfirst)
        exact ihk _ (by omega) hr (hcount ▸ hn) (by omega) rfl
      · exact ih hr (by omega) (hrest.earlier (by omega))

end Attempts

section Success
variable [Zero X] {σ : ℕ → Bool}

/-- When `malloc` never fails, the functions are those of the chain. -/
theorem ntyreactorAlloc_eq (hσ : ∀ i, σ i = true) (f : ℕ) (m : Memory X) :
    (ntyreactorAlloc σ f m).map (fun a => (a.1.reactor,a.2)) = Chain.ntyreactorAlloc f m.reactor := by
  have hbehind (blk : ℕ) : allocBehind σ m blk = (⟨m.reactor.grown blk,m.mallocs+2⟩,0) := by
    unfold allocBehind
    rw [hσ, hσ, if_neg Bool.noConfusion, if_neg Bool.noConfusion]
    rfl
  unfold ntyreactorAlloc Chain.ntyreactorAlloc
  dsimp only
  split
  · rfl
  · rw [Option.map_map]
    congr 1
    funext blk
    exact congrArg (fun a : Memory X × ℤ => (a.1.reactor,a.2)) (hbehind blk)

theorem growLoop_eq (hσ : ∀ i, σ i = true) (blkidx f : ℕ) (m : Memory X) :
    (growLoop σ blkidx f m).map (·.reactor) = Chain.growLoop blkidx f m.reactor := by
  induction f generalizing m with
  | zero => rfl
  | succ f ih =>
    rw [growLoop, Chain.growLoop, ← ntyreactorAlloc_eq hσ]
    by_cases hnear : blkidx ≥ m.reactor.blkcnt
    · rw [if_pos hnear, if_pos (Int.ofNat_le.mpr hnear), Option.map_bind, Option.bind_map]
      congr 1
      funext a
      exact ih a.1
    · rw [if_neg hnear, if_neg (fun h => hnear (Int.ofNat_le.mp h))]
      rfl

theorem ntyreactorIdx_eq (hσ : ∀ i, σ i = true) (f : ℕ) (m : Memory X) (fd : ℕ) :
    (ntyreactorIdx σ f m fd).map (fun a => (a.1.reactor,a.2)) =
      (Chain.ntyreactorIdx f m.reactor fd).map fun a => (a.1,a.2.map fun slot => (slot.1,(slot.2 : ℤ))) := by
  unfold ntyreactorIdx Chain.ntyreactorIdx
  split
  · rfl
  · dsimp only
    rw [← growLoop_eq hσ, Option.bind_map, Option.map_bind, Option.map_bind]
    congr 1
    funext m'
    have htest (s : ℕ × ℕ) : (s.1 : ℤ) ≠ (fd : ℤ).tdiv MAX_EPOLL_EVENTS ∧ s.2 ≠ 0 ↔
        s.1 ≠ fd/MAX_EPOLL_EVENTS ∧ s.2 ≠ 0 := and_congr_left' (not_congr Int.ofNat_inj)
    have hwalk := whileLoop_congr_cond htest (fun s => (s.1+1,(m'.reactor.block s.2).next)) f
      (0,m'.reactor.evblks)
    dsimp only [comp_apply]
    rw [hwalk, Option.map_bind, Option.map_bind]
    congr 1
    funext s
    dsimp only [comp_apply]
    split <;> rfl

end Success

section Lookup
variable [Zero X] {σ : ℕ → Bool} {m : Memory X} {bs : List ℕ} {sockfd : ℤ}

/-- A lookup that returns is one that the loop and the walk return from. -/
theorem idx_eq_some (h : Holds m.reactor bs) {f : ℕ} {m' : Memory X} {slot : Option Slot}
    (hidx : ntyreactorIdx σ f m sockfd = some (m',slot)) :
    growLoop σ (sockfd.tdiv MAX_EPOLL_EVENTS) f m = some m' ∧
      ∃ i p, p ≠ 0 ∧ slot = some ((m'.reactor.block p).events,sockfd.tmod MAX_EPOLL_EVENTS) ∧
        whileLoop (fun s : ℕ × ℕ => (s.1 : ℤ) ≠ sockfd.tdiv MAX_EPOLL_EVENTS ∧ s.2 ≠ 0)
          (fun s => (s.1+1,(m'.reactor.block s.2).next)) f (0,m'.reactor.evblks) = some (i,p) := by
  have hroot : m.reactor.evblks ≠ 0 := h.links.head_ne_null h.pos
  unfold ntyreactorIdx at hidx
  rw [if_neg hroot] at hidx
  obtain ⟨m₁,hgrow,hrest⟩ := Option.bind_eq_some_iff.mp hidx
  obtain ⟨⟨i,p⟩,hwalk,hend⟩ := Option.bind_eq_some_iff.mp hrest
  dsimp only at hend
  split at hend
  · cases hend
  · next hne =>
    obtain ⟨rfl,rfl⟩ := Prod.mk.inj (Option.some.inj hend)
    exact ⟨hgrow,i,p,hne,rfl,hwalk⟩

/-- For a negative descriptor there is no event: the index is negative, or the walk ends at NULL. -/
theorem idx_negative (h : Holds m.reactor bs) (hneg : sockfd < 0) {m' : Memory X} {slot : Option Slot}
    (hret : Returns (fun f => ntyreactorIdx σ f m sockfd) (m',slot)) :
    ∃ s, slot = some s ∧ ¬ InBlock m'.reactor s := by
  obtain ⟨N,hN⟩ := hret
  obtain ⟨hgrow,i,p,hne,rfl,hwalk⟩ := idx_eq_some h (hN (N+1) N.le_succ)
  refine ⟨_,rfl,?_⟩
  rintro ⟨-,-,-,-,-,hindex,-⟩
  have hdivmod := Int.mul_tdiv_add_tmod sockfd MAX_EPOLL_EVENTS
  have hquot : sockfd.tdiv MAX_EPOLL_EVENTS < 0 := by
    dsimp only at hindex
    unfold MAX_EPOLL_EVENTS at hdivmod hindex ⊢
    omega
  -- a negative quotient is behind no counter: nothing is allocated, and the walk does not stop before NULL
  rw [growLoop, if_neg (by omega)] at hgrow
  obtain rfl := Option.some.inj hgrow
  have hall := h.links.walk_all (c := fun i => (i : ℤ) ≠ sockfd.tdiv MAX_EPOLL_EVENTS) (i := 0)
    fun j => by omega
  exact hne (Prod.mk.inj ((loop_returns hwalk).unique hall)).2

/-- For the others there is one if enough calls succeed in pairs. -/
theorem idx_returns (h : Holds m.reactor bs) (hpos : 0 ≤ sockfd)
    (hpairs : Pairs σ (missing m sockfd) m.mallocs) :
    ∃ m' slot, Returns (fun f => ntyreactorIdx σ f m sockfd) (m',slot) ∧
      ∀ s, slot = some s → InBlock m'.reactor s := by
  have hroot : m.reactor.evblks ≠ 0 := h.links.head_ne_null h.pos
  obtain ⟨fd,rfl⟩ := Int.eq_ofNat_of_zero_le hpos
  have hquot : (fd : ℤ).tdiv MAX_EPOLL_EVENTS = (fd/MAX_EPOLL_EVENTS : ℕ) := rfl
  obtain ⟨m',N,hN⟩ := growLoop_returns h (missing_eq m fd) hpairs
  obtain ⟨-,bs',hr',hin⟩ := growLoop_pairs h rfl (hN N le_rfl)
  rw [hquot, Int.ofNat_lt] at hin
  obtain ⟨p,hp⟩ : ∃ p, bs'[fd/MAX_EPOLL_EVENTS]? = some p := ⟨_,List.getElem?_eq_getElem hin⟩
  have hmem : p ∈ bs' := List.mem_of_getElem? hp
  have hwalk := hr'.links.walk_until
    (c := fun i => (i : ℤ) ≠ (fd : ℤ).tdiv MAX_EPOLL_EVENTS) (i := 0) hp
    (fun j hj => by rw [hquot]; omega) (by rw [hquot]; omega)
  refine ⟨m',some ((m'.reactor.block p).events,(fd : ℤ).tmod MAX_EPOLL_EVENTS),?_,?_⟩
  · refine Returns.congr (fun f => if_neg hroot) (Returns.bind ⟨N,hN⟩ (hwalk.bind ?_))
    exact Returns.congr (fun f => if_neg (hr'.links.ne_null hmem)) (Returns.const _)
  · rintro s hs
    obtain rfl := Option.some.inj hs
    refine ⟨bs',p,hr'.links,hmem,rfl,?_,?_⟩
    · exact Int.natCast_nonneg (fd % MAX_EPOLL_EVENTS)
    · exact Int.ofNat_lt.mpr (Nat.mod_lt fd (by decide))

/-- A call on a chain of blocks. -/
theorem survives_iff (h : Holds m.reactor bs) :
    Survives σ m sockfd ↔ 0 ≤ sockfd ∧ Pairs σ (missing m sockfd) m.mallocs := by
  constructor
  · rintro ⟨⟨m',slot,hret,hslot⟩,-⟩
    obtain hneg | hpos := Int.lt_or_le sockfd 0
    · obtain ⟨s,hs,hout⟩ := idx_negative h hneg hret
      exact absurd (hslot s hs) hout
    · refine ⟨hpos,?_⟩
      obtain ⟨N,hN⟩ := hret
      obtain ⟨fd,rfl⟩ := Int.eq_ofNat_of_zero_le hpos
      exact (growLoop_pairs h (missing_eq m fd) (idx_eq_some h (hN N le_rfl)).1).1
  · rintro ⟨hpos,hpairs⟩
    exact ⟨idx_returns h hpos hpairs,fun _ _ _ _ _ hlast => attempt_failed hlast⟩

/-- A call on a reactor that has no blocks. -/
theorem survives_empty (hempty : m.reactor.evblks = 0) (sockfd : ℤ) : Survives σ m sockfd where
  returns := ⟨m,none,Returns.congr (fun _ => if_pos hempty) (Returns.const _),nofun⟩
  failed _ _ _ _ _ hlast := attempt_failed hlast

end Lookup

/-- The reactor has no blocks, or a chain of them. -/
def Chained (m : Memory X) : Prop := m.reactor.evblks = 0 ∨ ∃ bs, Holds m.reactor bs

section Runs
variable [Zero X] {σ : ℕ → Bool} {m m' : Memory X}

theorem chained_init (epoll : Bool) (r : Chain.NtyReactor X) : Chained (ntyreactorInit σ epoll r) := by
  unfold ntyreactorInit
  split
  · exact .inl rfl
  · split
    · exact .inl rfl
    · split
      · exact .inl rfl
      · exact .inr ⟨_,Chain.holds_init r⟩

theorem chained_step {call : Call X} (h : Chained m) (hstep : Step σ m call m') : Chained m' := by
  cases hstep with
  | @idx sockfd slot _ ret =>
    obtain hempty | ⟨bs,hr⟩ := h
    · have hnull : Returns (fun f => ntyreactorIdx σ f m sockfd) (m,none) :=
        Returns.congr (fun _ => if_pos hempty) (Returns.const _)
      obtain rfl := (Prod.mk.inj (ret.unique hnull)).1
      exact .inl hempty
    · obtain ⟨N,hN⟩ := ret
      obtain ⟨-,bs',hr',-⟩ := growLoop_pairs hr rfl (idx_eq_some hr (hN N le_rfl)).1
      exact .inr ⟨bs',hr'⟩
  | @write slot ev =>
    obtain hempty | ⟨bs,hr⟩ := h
    · exact .inl hempty
    · exact .inr ⟨bs,hr.write slot ev⟩

/-- In every state that calls lead to, whatever `malloc` and `epoll_create` return: a lookup survives if
there are no blocks, or if the descriptor is not negative and from now on there is a pair of successive
calls of `malloc` that succeed for every missing block. -/
theorem lookup_survives_iff {epoll : Bool} {r : Chain.NtyReactor X} {calls : List (Call X)}
    (h : Run (Step σ) (ntyreactorInit σ epoll r) calls m) (sockfd : ℤ) :
    Survives σ m sockfd ↔
      m.reactor.evblks = 0 ∨ 0 ≤ sockfd ∧ Pairs σ (missing m sockfd) m.mallocs := by
  have hchained : Chained m := h.invariant (chained_init epoll r) fun _ _ _ hm hstep => chained_step hm hstep
  by_cases hempty : m.reactor.evblks = 0
  · exact iff_of_true (survives_empty hempty sockfd) (.inl hempty)
  · obtain ⟨bs,hr⟩ := hchained.resolve_left hempty
    rw [survives_iff hr]
    exact (or_iff_right hempty).symm

/-- After a start in which every `malloc` succeeds, the descriptor 2000 has its event. -/
theorem lookup_survives_2000 :
    Survives (fun _ => true) (ntyreactorInit (fun _ => true) true Chain.freshMemory) 2000 := by
  refine (lookup_survives_iff .nil 2000).mpr (.inr ⟨by decide,?_⟩)
  exact .pair le_rfl rfl rfl (.zero _)

/-- The result of a failed `init_sock`. -/
theorem lookup_not_survives :
    ¬ Survives (fun _ => true) (ntyreactorInit (fun _ => true) true Chain.freshMemory) (-1) := by
  rintro ⟨⟨m',slot,hret,hslot⟩,-⟩
  have hr : Holds (ntyreactorInit (fun _ => true) true Chain.freshMemory).reactor _ :=
    Chain.holds_init Chain.freshMemory
  obtain ⟨s,hs,hout⟩ := idx_negative hr (by decide) hret
  exact hout (hslot s hs)

end Runs
end ServerKit.Reactor.Malloc
