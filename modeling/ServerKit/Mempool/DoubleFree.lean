import ServerKit.Mempool.FreeList

/-! What `_free` does with a block that the client does not have: such a block is in the chain already, and
then the chain comes back to it. -/
namespace ServerKit.Mempool
open Function ServerKit.Lib

/-- The state after a call of `_free` that nothing is known of. -/
def freed (s : State) (ptr : ℕ) : State :=
  ⟨(free s.mp s.m ptr).1,(free s.mp s.m ptr).2,s.outstanding.erase ptr⟩

section Follow
variable {m m' : Mem} {n k p q : ℕ}

theorem take_follow (h : k ≤ n) : (follow m n p).take k = follow m k p := by
  induction k generalizing n p with
  | zero => rfl
  | succ k ih =>
    obtain ⟨n,rfl⟩ := Nat.exists_eq_add_of_le' (Nat.one_le_of_lt h)
    rw [follow, follow, List.take_succ_cons, ih (Nat.le_of_succ_le_succ h)]

/-- The link of the last block does not matter. -/
theorem follow_succ_congr (h : ∀ q ∈ follow m n p, loadWord m' q = loadWord m q) :
    follow m' (n+1) p = follow m (n+1) p := by
  induction n generalizing p with
  | zero => rfl
  | succ n ih =>
    have hhead : loadWord m' p = loadWord m p := h p List.mem_cons_self
    change p :: follow m' (n+1) (loadWord m' p) = p :: follow m (n+1) (loadWord m p)
    rw [hhead, ih fun q hq => h q (List.mem_cons_of_mem _ hq)]

end Follow

section Calls
variable {mem b ptr : ℕ} {s : State}

/-- Calls of `_malloc` take the blocks of the chain one after the other. -/
theorem mallocs_run {n : ℕ} (hcount : n ≤ s.mp.freeCount.toNat) (hnull : ∀ q ∈ follow s.m n s.mp.ptr, q ≠ 0) :
    ∃ s', Run Step s (List.replicate n (.malloc 0)) s' ∧
      s'.outstanding = (follow s.m n s.mp.ptr).reverse ++ s.outstanding := by
  induction n generalizing s with
  | zero => exact ⟨s,.nil,rfl⟩
  | succ n ih =>
    have hfree : s.mp.freeCount ≠ 0 := by omega
    have hmalloc : malloc s.mp s.m 0 =
        ({ s.mp with ptr := loadWord s.m s.mp.ptr, freeCount := s.mp.freeCount-1 },s.mp.ptr) := by
      rw [malloc, if_neg hfree, if_neg (Nat.not_lt_zero _)]
    have hfirst : Step s (.malloc 0) { s with
        mp := { s.mp with ptr := loadWord s.m s.mp.ptr, freeCount := s.mp.freeCount-1 }
        outstanding := s.mp.ptr :: s.outstanding } := by
      have hsome : (malloc s.mp s.m 0).2 ≠ 0 := by
        rw [hmalloc]
        exact hnull _ List.mem_cons_self
      have hstep : Step s (.malloc 0) _ := .malloc hsome
      rwa [hmalloc] at hstep
    obtain ⟨s',hrun,hout⟩ := ih (s := { s with
        mp := { s.mp with ptr := loadWord s.m s.mp.ptr, freeCount := s.mp.freeCount-1 }
        outstanding := s.mp.ptr :: s.outstanding })
      (show n ≤ (s.mp.freeCount-1).toNat by omega) fun q hq => hnull q (List.mem_cons_of_mem _ hq)
    refine ⟨s',hrun.cons hfirst,?_⟩
    rw [hout, follow, List.reverse_cons, List.append_assoc]
    rfl

/-- From a block that was in the chain already the chain leads back to it. -/
theorem Chained.follow_again (h : Chained mem b s) (hb : 8 ≤ b) (hspace : mem+MEM_PAGE_SIZE+8 ≤ 2^64)
    (hptr : ptr ∈ follow s.m s.mp.freeCount.toNat s.mp.ptr) : ∃ between,
      between.length < s.mp.freeCount.toNat ∧ (∀ q ∈ between, q ∈ blocks mem b) ∧
        follow (freed s ptr).m (between.length+2) (freed s ptr).mp.ptr = ptr :: (between ++ [ptr]) := by
  obtain ⟨hchain,-,-⟩ := List.nodup_append.mp (h.nodup (by omega))
  obtain ⟨between,behind,hsplit⟩ := List.append_of_mem hptr
  have hlength := congrArg List.length hsplit
  rw [length_follow, List.length_append, List.length_cons] at hlength
  have hmem {q : ℕ} (hq : q ∈ between) : q ∈ blocks mem b :=
    h.free_mem (hsplit ▸ List.mem_append_left _ hq)
  have hne {q : ℕ} (hq : q ∈ between) : q ≠ ptr := by
    rw [hsplit] at hchain
    exact (List.nodup_append.mp hchain).2.2 q hq ptr List.mem_cons_self
  have htake : follow s.m (between.length+1) s.mp.ptr = between ++ [ptr] := by
    rw [← take_follow (show between.length+1 ≤ s.mp.freeCount.toNat by omega), hsplit,
      List.append_cons]
    exact List.take_left' List.length_append
  have hbetween : follow s.m between.length s.mp.ptr = between := by
    rw [← take_follow (show between.length ≤ s.mp.freeCount.toNat by omega), hsplit]
    exact List.take_left
  refine ⟨between,by omega,fun q hq => hmem hq,?_⟩
  -- the link of `ptr` is the old head now, and the other links are as they were
  have hhead : loadWord (storeWord s.m ptr s.mp.ptr) ptr = s.mp.ptr := by
    have hin := block_in_page (h.ptr_mem (by omega))
    exact loadWord_storeWord s.m ptr (by omega)
  have hrest : follow (storeWord s.m ptr s.mp.ptr) (between.length+1) s.mp.ptr = between ++ [ptr] := by
    rw [← htake]
    apply follow_succ_congr
    rw [hbetween]
    intro q hq
    have hapart := blocks_apart (hmem hq) (h.free_mem hptr) (hne hq)
    exact loadWord_storeWord_of_disjoint (by omega)
  change follow (storeWord s.m ptr s.mp.ptr) (between.length+2) ptr = _
  rw [follow, hhead, hrest]

/-- After a call of `_free` for a block of the chain, calls of `_malloc` can return this block twice. -/
theorem Chained.taken_twice (h : Chained mem b s) (hb : 8 ≤ b) (h0 : mem ≠ 0)
    (hspace : mem+MEM_PAGE_SIZE+8 ≤ 2^64) (hptr : ptr ∈ follow s.m s.mp.freeCount.toNat s.mp.ptr) :
    ∃ actions s', Run Step (freed s ptr) actions s' ∧ ¬s'.outstanding.Nodup := by
  have hnonneg := h.count_nonneg
  obtain ⟨between,hlength,hmem,hfollow⟩ := h.follow_again hb hspace hptr
  have hnull {q : ℕ} (hq : q ∈ blocks mem b) : q ≠ 0 := by
    have hin := block_in_page hq
    omega
  have hcount : between.length+2 ≤ (freed s ptr).mp.freeCount.toNat := by
    change between.length+2 ≤ (s.mp.freeCount+1).toNat
    omega
  obtain ⟨s',hrun,hout⟩ := mallocs_run hcount fun q hq => by
    rw [hfollow] at hq
    obtain rfl | hq := List.mem_cons.mp hq
    · exact hnull (h.free_mem hptr)
    · obtain hq | hq := List.mem_append.mp hq
      · exact hnull (hmem q hq)
      · rw [List.mem_singleton.mp hq]
        exact hnull (h.free_mem hptr)
  refine ⟨_,s',hrun,fun hnodup => ?_⟩
  rw [hout, hfollow] at hnodup
  have hlist := List.nodup_reverse.mp (List.nodup_append.mp hnodup).1
  exact (List.nodup_cons.mp hlist).1 (List.mem_append_right _ List.mem_cons_self)

end Calls

/-- A call of `_free` for a block of the page keeps the client's blocks distinct in all that follows, exactly if
the client has the block. -/
theorem free_safe_iff (m : Mem) {mem b : ℕ} (hb : 8 ≤ b) (hle : b ≤ MEM_PAGE_SIZE) (h0 : mem ≠ 0)
    (hspace : mem+MEM_PAGE_SIZE+8 ≤ 2^64) {actions : List Action} {s : State}
    (h : Run Step (start m mem b) actions s) {ptr : ℕ} (hptr : ptr ∈ blocks mem b) :
    (∀ actions' s', Run Step (freed s ptr) actions' s' → s'.outstanding.Nodup) ↔ ptr ∈ s.outstanding := by
  have hchained := (start_chained m hb hle h0 hspace).run h0 hb hle hspace h
  constructor
  · intro hsafe
    obtain hchain | hout := List.mem_append.mp (hchained.perm.symm.subset hptr)
    · obtain ⟨actions',s',hrun,hnot⟩ := hchained.taken_twice hb h0 hspace hchain
      exact absurd (hsafe actions' s' hrun) hnot
    · exact hout
  · intro hout actions' s' hrun
    have hkept := (hchained.free hb hspace hout).run h0 hb hle hspace hrun
    exact (List.nodup_append.mp (hkept.nodup (by omega))).2.1

/-- The first block is given back twice. -/
theorem free_safe_iff_twice : ∃ s, Run Step (start (fun _ => 0) 4096 32) [.malloc 5,.free 4096] s ∧
    ¬∀ actions' s', Run Step (freed s 4096) actions' s' → s'.outstanding.Nodup := by
  have hnil : Run Step (start (fun _ => 0) 4096 32) [] _ := .nil
  have htaken := hnil.snoc (l := .malloc 5) (.malloc (by decide))
  have hback := htaken.snoc (l := .free 4096) (.free List.mem_cons_self)
  refine ⟨_,hback,fun hsafe => ?_⟩
  have hout := (free_safe_iff (fun _ => 0) (by decide) (by decide) (by decide) (by decide) hback
    (mem_blocks.mpr ⟨0,by decide,rfl⟩)).mp hsafe
  exact List.not_mem_nil hout

end ServerKit.Mempool
