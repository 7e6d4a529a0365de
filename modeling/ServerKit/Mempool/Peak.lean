import ServerKit.Mempool.FreeList

/-! How much of its page a memory pool uses: a block that was given back is taken again before a new one. -/
namespace ServerKit.Mempool
open Function ServerKit.Lib

/-- The blocks from the number `n` on. -/
def blocksFrom (mem b n : ℕ) : List ℕ := (List.range' n (MEM_PAGE_SIZE/b-n)).map fun k => mem+k*b

/-- The blocks below the number `n`. -/
def blocksBelow (mem b n : ℕ) : List ℕ := (List.range n).map fun k => mem+k*b

/-- A step, with the greatest number of blocks that the client has had at once. -/
def PeakStep (p : State × ℕ) (a : Action) (p' : State × ℕ) : Prop :=
  Step p.1 a p'.1 ∧ p'.2 = max p.2 p'.1.outstanding.length

theorem exists_peak {s s' : State} {actions : List Action} (h : Run Step s actions s') :
    ∃ peak, Run PeakStep (s,0) actions (s',peak) := by
  induction h with
  | nil => exact ⟨0,.nil⟩
  | @snoc _ _ _ s'' _ last ih =>
    obtain ⟨peak,ih⟩ := ih
    exact ⟨max peak s''.outstanding.length,ih.snoc ⟨last,rfl⟩⟩

/-- The chain leads through the blocks that have come back to those that were never taken. -/
structure Peaked (mem b : ℕ) (m₀ : Mem) (s : State) (peak : ℕ) : Prop where
  le : peak ≤ MEM_PAGE_SIZE/b
  chain : ∃ returned, follow s.m s.mp.freeCount.toNat s.mp.ptr = returned ++ blocksFrom mem b peak ∧
    (returned ++ s.outstanding).Perm (blocksBelow mem b peak)
  untouched : ∀ x, mem+peak*b ≤ x → s.m x = m₀ x

section Peaks
variable {mem b peak : ℕ} {m₀ : Mem} {s s' : State} {a : Action}

theorem mem_blocksBelow {p n : ℕ} : p ∈ blocksBelow mem b n ↔ ∃ k < n, p = mem+k*b := by
  simp only [blocksBelow, List.mem_map, List.mem_range, eq_comm]

/-- The first of the blocks is the next one that is taken. -/
theorem blocksFrom_cons {n : ℕ} (hn : n < MEM_PAGE_SIZE/b) :
    blocksFrom mem b n = (mem+n*b) :: blocksFrom mem b (n+1) := by
  have hcount : MEM_PAGE_SIZE/b-n = MEM_PAGE_SIZE/b-(n+1)+1 := by omega
  unfold blocksFrom
  rw [hcount, List.range'_succ, List.map_cons]

theorem blocksBelow_succ (mem b n : ℕ) : blocksBelow mem b (n+1) = blocksBelow mem b n ++ [mem+n*b] := by
  unfold blocksBelow
  rw [List.range_succ, List.map_append]
  rfl

/-- A block of the client lies below all that was never taken. -/
theorem Peaked.below (h : Peaked mem b m₀ s peak) {p : ℕ} (hp : p ∈ s.outstanding) : p+b ≤ mem+peak*b := by
  obtain ⟨returned,-,hperm⟩ := h.chain
  obtain ⟨k,hk,rfl⟩ := mem_blocksBelow.mp (hperm.subset (List.mem_append_right _ hp))
  have hle : (k+1)*b ≤ peak*b := Nat.mul_le_mul_right b hk
  rw [Nat.succ_mul] at hle
  omega

/-- The blocks that were taken are the client's and those that have come back. -/
theorem length_taken {returned : List ℕ} (hperm : (returned ++ s.outstanding).Perm (blocksBelow mem b peak)) :
    returned.length+s.outstanding.length = peak := by
  have hlength := hperm.length_eq
  unfold blocksBelow at hlength
  rwa [List.length_append, List.length_map, List.length_range] at hlength

theorem Peaked.length_le (h : Peaked mem b m₀ s peak) : s.outstanding.length ≤ peak := by
  obtain ⟨returned,-,hperm⟩ := h.chain
  exact (Nat.le_add_left ..).trans_eq (length_taken hperm)

theorem start_peaked (m : Mem) (hb : 8 ≤ b) (hle : b ≤ MEM_PAGE_SIZE) (h0 : mem ≠ 0)
    (hspace : mem+MEM_PAGE_SIZE+8 ≤ 2^64) : Peaked mem b (start m mem b).m (start m mem b) 0 := by
  refine ⟨Nat.zero_le _,⟨[],?_,.nil⟩,fun x _ => rfl⟩
  rw [follow_start m hb hle h0 hspace]
  unfold blocks blocksFrom
  rw [List.range_eq_range']
  rfl

/-- A new block is taken when no block has come back, and then the client has more blocks than ever. -/
theorem Peaked.malloc (h : Peaked mem b m₀ s peak) (hs : Chained mem b s) (hfree : s.mp.freeCount ≠ 0)
    {mp : MempoolT} (hmp : mp = { s.mp with ptr := loadWord s.m s.mp.ptr, freeCount := s.mp.freeCount-1 }) :
    Peaked mem b m₀ { s with mp := mp, outstanding := s.mp.ptr :: s.outstanding }
      (max peak (s.outstanding.length+1)) := by
  obtain ⟨returned,hchain,hperm⟩ := h.chain
  have hlength := length_taken hperm
  rw [hs.follow_head hfree] at hchain
  subst hmp
  cases returned with
  | nil =>
    have hlt : peak < MEM_PAGE_SIZE/b := by
      by_contra hnot
      have hnil : blocksFrom mem b peak = [] := by
        unfold blocksFrom
        rw [Nat.sub_eq_zero_of_le (Nat.le_of_not_lt hnot)]
        rfl
      rw [hnil] at hchain
      cases hchain
    rw [List.nil_append, blocksFrom_cons hlt] at hchain
    obtain ⟨hptr,htail⟩ := List.cons.inj hchain
    have hmax : max peak (s.outstanding.length+1) = peak+1 := by
      rw [List.length_nil] at hlength
      omega
    rw [hmax]
    refine ⟨hlt,⟨[],htail,?_⟩,fun x hx => h.untouched x ?_⟩
    · rw [blocksBelow_succ, ← hptr]
      exact (List.Perm.cons _ hperm).trans (List.perm_append_singleton ..).symm
    · rw [Nat.succ_mul] at hx
      omega
  | cons p returned =>
    obtain ⟨hptr,htail⟩ := List.cons.inj hchain
    have hmax : max peak (s.outstanding.length+1) = peak := by
      rw [List.length_cons] at hlength
      omega
    rw [hmax]
    refine ⟨h.le,⟨returned,htail,?_⟩,h.untouched⟩
    rw [hptr]
    exact List.perm_middle.trans hperm

theorem Peaked.free (h : Peaked mem b m₀ s peak) (hs : Chained mem b s) (hb : 8 ≤ b)
    (hspace : mem+MEM_PAGE_SIZE+8 ≤ 2^64) {ptr : ℕ} (hptr : ptr ∈ s.outstanding) : Peaked mem b m₀
      ⟨(Mempool.free s.mp s.m ptr).1,(Mempool.free s.mp s.m ptr).2,s.outstanding.erase ptr⟩ peak := by
  obtain ⟨returned,hchain,hperm⟩ := h.chain
  refine ⟨h.le,⟨ptr :: returned,?_,?_⟩,fun x hx => ?_⟩
  · rw [List.cons_append, ← hchain]
    exact hs.follow_free hb hspace hptr
  · exact List.perm_middle.symm.trans (((List.perm_cons_erase hptr).symm.append_left _).trans hperm)
  · have hbelow := h.below hptr
    rw [← h.untouched x hx]
    exact storeBytes_of_notMem (.inr (by omega))

theorem PeakStep.peaked {p p' : State × ℕ} (hs : Chained mem b p.1) (h : Peaked mem b m₀ p.1 p.2) (h0 : mem ≠ 0)
    (hb : 8 ≤ b) (hle : b ≤ MEM_PAGE_SIZE) (hspace : mem+MEM_PAGE_SIZE+8 ≤ 2^64) (hstep : PeakStep p a p') :
    Peaked mem b m₀ p'.1 p'.2 := by
  obtain ⟨s,peak⟩ := p
  obtain ⟨s',peak'⟩ := p'
  obtain ⟨hstep,hpeak⟩ := hstep
  dsimp only at hs h hstep hpeak ⊢
  subst hpeak
  -- only a call of `_malloc` may move the peak
  have hsame {n : ℕ} (hn : n ≤ s.outstanding.length) : max peak n = peak :=
    max_eq_left (hn.trans h.length_le)
  cases hstep with
  | null hnull =>
    rw [hs.malloc_null hle ((hs.malloc_eq_null h0 hle _).mp hnull), hsame le_rfl]
    exact ⟨h.le,h.chain,h.untouched⟩
  | malloc hsome =>
    rw [Ne, hs.malloc_eq_null h0 hle] at hsome
    rw [hs.malloc_some hle hsome]
    exact h.malloc hs (fun hfree => hsome (.inl hfree)) rfl
  | free hptr =>
    rw [hsame List.length_erase_le]
    exact h.free hs hb hspace hptr
  | write hptr hge hlt =>
    rw [hs.blockSize, toSize_natCast hle] at hlt
    rw [hsame le_rfl]
    obtain ⟨returned,hchain,hperm⟩ := h.chain
    refine ⟨h.le,⟨returned,(hs.follow_write hb hptr hge hlt _).trans hchain,hperm⟩,fun x hx => ?_⟩
    have hbelow := h.below hptr
    rw [← h.untouched x hx]
    exact update_of_ne (by omega) ..

end Peaks

/-- The pool uses as many blocks as the client has had at once: these are the first ones of the page, and behind
them the memory is as `memp_init` has left it. -/
theorem run_peak (m : Mem) {mem b : ℕ} (hb : 8 ≤ b) (hle : b ≤ MEM_PAGE_SIZE) (h0 : mem ≠ 0)
    (hspace : mem+MEM_PAGE_SIZE+8 ≤ 2^64) {actions : List Action} {s : State}
    (h : Run Step (start m mem b) actions s) : ∃ peak, Run PeakStep (start m mem b,0) actions (s,peak) ∧
      (∀ p ∈ s.outstanding, ∃ k < peak, p = mem+k*b) ∧
        ∀ x, mem+peak*b ≤ x → s.m x = (start m mem b).m x := by
  obtain ⟨peak,hrun⟩ := exists_peak h
  have hkept : Chained mem b s ∧ Peaked mem b (start m mem b).m s peak :=
    hrun.invariant (P := fun p => Chained mem b p.1 ∧ Peaked mem b (start m mem b).m p.1 p.2)
      ⟨start_chained m hb hle h0 hspace,start_peaked m hb hle h0 hspace⟩
      fun p a p' hp hstep => ⟨hstep.1.chained hp.1 h0 hb hle hspace,hstep.peaked hp.1 hp.2 h0 hb hle hspace⟩
  obtain ⟨returned,-,hperm⟩ := hkept.2.chain
  refine ⟨peak,hrun,fun p hp => ?_,hkept.2.untouched⟩
  exact mem_blocksBelow.mp (hperm.subset (List.mem_append_right _ hp))

/-- A block is taken, comes back and is taken again. -/
theorem run_peak_again : ∃ actions s peak, actions = [.malloc 5,.free 4096,.malloc 9] ∧ s.outstanding = [4096] ∧
    Run PeakStep (start (fun _ => 0) 4096 32,0) actions (s,peak) ∧
      (∀ p ∈ s.outstanding, ∃ k < peak, p = 4096+k*32) ∧
        ∀ x, 4096+peak*32 ≤ x → s.m x = (start (fun _ => 0) 4096 32).m x := by
  have hnil : Run Step (start (fun _ => 0) 4096 32) [] _ := .nil
  have htaken := hnil.snoc (l := .malloc 5) (.malloc (by decide))
  have hback := htaken.snoc (l := .free 4096) (.free List.mem_cons_self)
  have hagain := hback.snoc (l := .malloc 9) (.malloc (by decide))
  obtain ⟨peak,hpeak⟩ := run_peak (fun _ => 0) (by decide) (by decide) (by decide) (by decide) hagain
  exact ⟨_,_,peak,rfl,rfl,hpeak⟩

end ServerKit.Mempool
