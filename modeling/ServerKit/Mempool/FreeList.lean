import ServerKit.Mempool.Code
import ServerKit.Lib.Transition
import Mathlib.Data.List.Nodup
import Mathlib.Data.List.Perm.Basic
import Mathlib.Data.List.Range
import Mathlib.Tactic.NormNum

/-! The free list of a memory pool over any calls and writes of a client. -/
namespace ServerKit.Mempool
open Function ServerKit.Lib

/-- The `n` blocks that are met from `p` on. -/
def follow (m : Mem) : ℕ → ℕ → List ℕ
  | 0,_ => []
  | n+1,p => p :: follow m n (loadWord m p)

/-- The blocks of the page at `mem`. -/
def blocks (mem b : ℕ) : List ℕ := (List.range (MEM_PAGE_SIZE/b)).map fun k => mem+k*b

section Follow
variable {m m' : Mem} {n : ℕ} {p q : ℕ}

theorem length_follow (m : Mem) (n : ℕ) (p : ℕ) : (follow m n p).length = n := by
  induction n generalizing p with
  | zero => rfl
  | succ n ih => rw [follow, List.length_cons, ih]

/-- Only the links that are followed matter. -/
theorem follow_congr (h : ∀ q ∈ follow m n p, loadWord m' q = loadWord m q) :
    follow m' n p = follow m n p := by
  induction n generalizing p with
  | zero => rfl
  | succ n ih =>
    have hhead : loadWord m' p = loadWord m p := h p List.mem_cons_self
    rw [follow, follow, hhead, ih fun q hq => h q (List.mem_cons_of_mem _ hq)]

end Follow

section Blocks
variable {mem b : ℕ} {p q : ℕ}

theorem mem_blocks : p ∈ blocks mem b ↔ ∃ k < MEM_PAGE_SIZE/b, p = mem+k*b := by
  simp only [blocks, List.mem_map, List.mem_range, eq_comm]

theorem nodup_blocks (hb : 0 < b) : (blocks mem b).Nodup := by
  refine List.Nodup.map ?_ List.nodup_range
  intro i j hij
  exact Nat.eq_of_mul_eq_mul_right hb (Nat.add_left_cancel hij)

/-- Two blocks do not overlap. -/
theorem blocks_apart (hp : p ∈ blocks mem b) (hq : q ∈ blocks mem b) (hne : p ≠ q) :
    p+b ≤ q ∨ q+b ≤ p := by
  obtain ⟨i,-,rfl⟩ := mem_blocks.mp hp
  obtain ⟨j,-,rfl⟩ := mem_blocks.mp hq
  obtain hij | rfl | hij := lt_trichotomy i j
  · have hle : (i+1)*b ≤ j*b := Nat.mul_le_mul_right b hij
    rw [Nat.succ_mul] at hle
    omega
  · exact absurd rfl hne
  · have hle : (j+1)*b ≤ i*b := Nat.mul_le_mul_right b hij
    rw [Nat.succ_mul] at hle
    omega

theorem block_in_page (hp : p ∈ blocks mem b) : mem ≤ p ∧ p+b ≤ mem+MEM_PAGE_SIZE := by
  obtain ⟨k,hk,rfl⟩ := mem_blocks.mp hp
  have hle : (k+1)*b ≤ MEM_PAGE_SIZE/b*b := Nat.mul_le_mul_right b hk
  have hpage : MEM_PAGE_SIZE/b*b ≤ MEM_PAGE_SIZE := Nat.div_mul_le_self MEM_PAGE_SIZE b
  rw [Nat.succ_mul] at hle
  omega

end Blocks

section Init
variable {b n : ℕ} {m : Mem} {p : ℕ}

theorem linkBlocks_succ (b n : ℕ) (m : Mem) (p : ℕ) :
    linkBlocks b (n+1) m p = linkBlocks b n (storeWord m p (p+b)) (p+b) := by
  rw [linkBlocks, forUp, forUp_succ]
  rfl

theorem linkBlocks_ptr (b n : ℕ) (m : Mem) (p : ℕ) : (linkBlocks b n m p).2 = p+n*b := by
  induction n generalizing m p with
  | zero => simp [linkBlocks,forUp]
  | succ n ih =>
    rw [linkBlocks_succ, ih, Nat.succ_mul]
    omega

/-- The loop leaves alone what is before its first block. -/
theorem linkBlocks_frame {x : ℕ} (hx : x+8 ≤ p) :
    loadWord (linkBlocks b n m p).1 x = loadWord m x := by
  induction n generalizing m p with
  | zero => rfl
  | succ n ih =>
    rw [linkBlocks_succ, ih (by omega)]
    exact loadWord_storeWord_of_disjoint (.inl hx)

/-- The loop chains the blocks in the order of their addresses. -/
theorem follow_linkBlocks (hb : 8 ≤ b) (hspace : p+n*b < 2^64) :
    follow (linkBlocks b n m p).1 n p = (List.range n).map fun k => p+k*b := by
  induction n generalizing m p with
  | zero => rfl
  | succ n ih =>
    rw [Nat.succ_mul] at hspace
    have hlink : loadWord (linkBlocks b (n+1) m p).1 p = p+b := by
      rw [linkBlocks_succ, linkBlocks_frame (by omega)]
      exact loadWord_storeWord m p (by omega)
    have htail := ih (m := storeWord m p (p+b)) (p := p+b) (by omega)
    rw [follow, hlink, linkBlocks_succ, htail, List.range_succ_eq_map, List.map_cons, List.map_map]
    apply congrArg₂ List.cons
    · simp
    · apply List.map_congr_left
      intro k _
      change p+b+k*b = p+(k+1)*b
      rw [Nat.succ_mul]
      omega

end Init

/-- The chain holds the blocks that are not outstanding. -/
structure Chained (mem b : ℕ) (s : State) : Prop where
  blockSize : s.mp.blockSize = b
  count_nonneg : 0 ≤ s.mp.freeCount
  perm : (follow s.m s.mp.freeCount.toNat s.mp.ptr ++ s.outstanding).Perm (blocks mem b)

theorem toSize_natCast {b : ℕ} (hb : b ≤ MEM_PAGE_SIZE) : toSize b = b := by
  simp only [MEM_PAGE_SIZE] at hb
  simp only [toSize]
  omega

theorem toInt_natCast {n : ℕ} (hn : n ≤ MEM_PAGE_SIZE) : toInt n = n := by
  simp only [MEM_PAGE_SIZE] at hn
  exact Int.bmod_eq_of_le (by omega) (by omega)

section Steps
variable {mem b : ℕ} {s s' : State} {a : Action}

theorem start_eq (m : Mem) (hle : b ≤ MEM_PAGE_SIZE) (h0 : mem ≠ 0) : start m mem b =
    ⟨⟨b,(MEM_PAGE_SIZE/b : ℕ),mem,mem⟩,
      storeWord (linkBlocks b (MEM_PAGE_SIZE/b) m mem).1 (mem+MEM_PAGE_SIZE/b*b) 0,[]⟩ := by
  have hcount : toInt (MEM_PAGE_SIZE/b : ℕ) = (MEM_PAGE_SIZE/b : ℕ) :=
    toInt_natCast (Nat.div_le_self _ _)
  rw [start, mempInit, if_neg h0, hcount, toInt_natCast hle, ← linkBlocks_ptr b _ m mem]
  rfl

/-- At first the chain leads through all blocks in the order of their addresses. -/
theorem follow_start (m : Mem) (hb : 8 ≤ b) (hle : b ≤ MEM_PAGE_SIZE) (h0 : mem ≠ 0)
    (hspace : mem+MEM_PAGE_SIZE+8 ≤ 2^64) :
    follow (start m mem b).m (start m mem b).mp.freeCount.toNat (start m mem b).mp.ptr = blocks mem b := by
  have hpage : MEM_PAGE_SIZE/b*b ≤ MEM_PAGE_SIZE := Nat.div_mul_le_self MEM_PAGE_SIZE b
  have hfollow := follow_linkBlocks (m := m) (p := mem) (n := MEM_PAGE_SIZE/b) hb (by omega)
  rw [start_eq m hle h0, Int.toNat_natCast, follow_congr, hfollow]
  · rfl
  · intro q hq
    rw [hfollow] at hq
    have hin := block_in_page (mem_blocks.mpr (mem_blocks.mp hq))
    obtain ⟨k,hk,rfl⟩ := mem_blocks.mp hq
    have hle : (k+1)*b ≤ MEM_PAGE_SIZE/b*b := Nat.mul_le_mul_right b hk
    rw [Nat.succ_mul] at hle
    exact loadWord_storeWord_of_disjoint (.inl (by omega))

theorem start_chained (m : Mem) (hb : 8 ≤ b) (hle : b ≤ MEM_PAGE_SIZE) (h0 : mem ≠ 0)
    (hspace : mem+MEM_PAGE_SIZE+8 ≤ 2^64) : Chained mem b (start m mem b) := by
  refine ⟨?_,?_,?_⟩
  · rw [start_eq m hle h0]
  · rw [start_eq m hle h0]
    exact Int.natCast_nonneg _
  · rw [follow_start m hb hle h0 hspace]
    exact .of_eq (List.append_nil _)

namespace Chained

theorem free_mem (h : Chained mem b s) {q : ℕ}
    (hq : q ∈ follow s.m s.mp.freeCount.toNat s.mp.ptr) : q ∈ blocks mem b :=
  h.perm.subset (List.mem_append_left _ hq)

theorem outstanding_mem (h : Chained mem b s) {p : ℕ} (hp : p ∈ s.outstanding) :
    p ∈ blocks mem b := h.perm.subset (List.mem_append_right _ hp)

theorem nodup (h : Chained mem b s) (hb : 0 < b) :
    (follow s.m s.mp.freeCount.toNat s.mp.ptr ++ s.outstanding).Nodup :=
  h.perm.nodup_iff.mpr (nodup_blocks hb)

/-- A block that is outstanding is not in the chain, so its bytes are no link. -/
theorem apart (h : Chained mem b s) (hb : 0 < b) {p q : ℕ} (hp : p ∈ s.outstanding)
    (hq : q ∈ follow s.m s.mp.freeCount.toNat s.mp.ptr) : p+b ≤ q ∨ q+b ≤ p := by
  refine blocks_apart (h.outstanding_mem hp) (h.free_mem hq) ?_
  rintro rfl
  exact (List.nodup_append.mp (h.nodup hb)).2.2 p hq p hp rfl

theorem ptr_mem (h : Chained mem b s) (hfree : s.mp.freeCount ≠ 0) : s.mp.ptr ∈ blocks mem b := by
  refine h.free_mem ?_
  have h0 := h.count_nonneg
  obtain ⟨n,hn⟩ := Nat.exists_eq_succ_of_ne_zero (show s.mp.freeCount.toNat ≠ 0 by omega)
  rw [hn]
  exact List.mem_cons_self

/-- `_malloc` returns NULL exactly when there is no free block or the blocks are too small. -/
theorem malloc_eq_null (h : Chained mem b s) (h0 : mem ≠ 0) (hb : b ≤ MEM_PAGE_SIZE) (size : ℕ) :
    (malloc s.mp s.m size).2 = 0 ↔ s.mp.freeCount = 0 ∨ b < size := by
  have hsize : toSize s.mp.blockSize = b := by rw [h.blockSize, toSize_natCast hb]
  rw [malloc, hsize]
  by_cases hfree : s.mp.freeCount = 0
  · simp [hfree]
  · by_cases hlt : b < size
    · simp [hfree,hlt]
    · have hptr := (block_in_page (h.ptr_mem hfree)).1
      rw [if_neg hfree, if_neg hlt]
      simp only [hfree, hlt, or_self, iff_false]
      omega

theorem malloc_null (h : Chained mem b s) {size : ℕ} (hb : b ≤ MEM_PAGE_SIZE)
    (hnull : s.mp.freeCount = 0 ∨ b < size) : (malloc s.mp s.m size).1 = s.mp := by
  have hsize : toSize s.mp.blockSize = b := by rw [h.blockSize, toSize_natCast hb]
  rw [malloc, hsize]
  by_cases hfree : s.mp.freeCount = 0
  · rw [if_pos hfree]
  · rw [if_neg hfree, if_pos (hnull.resolve_left hfree)]

theorem malloc_some (h : Chained mem b s) {size : ℕ} (hb : b ≤ MEM_PAGE_SIZE)
    (hsome : ¬ (s.mp.freeCount = 0 ∨ b < size)) : malloc s.mp s.m size =
      ({ s.mp with ptr := loadWord s.m s.mp.ptr, freeCount := s.mp.freeCount-1 },s.mp.ptr) := by
  have hsize : toSize s.mp.blockSize = b := by rw [h.blockSize, toSize_natCast hb]
  rw [malloc, hsize, if_neg fun hfree => hsome (.inl hfree), if_neg fun hlt => hsome (.inr hlt)]

/-- Writes to an outstanding block leave the chain as it is. -/
theorem follow_frame (h : Chained mem b s) (hb : 0 < b) {p : ℕ} {m' : Mem} (hp : p ∈ s.outstanding)
    (hframe : ∀ q, p+b ≤ q ∨ q+b ≤ p → loadWord m' q = loadWord s.m q) :
    follow m' s.mp.freeCount.toNat s.mp.ptr = follow s.m s.mp.freeCount.toNat s.mp.ptr :=
  follow_congr fun q hq => hframe q (h.apart hb hp hq)

/-- The first block of the chain is the one that `_malloc` takes. -/
theorem follow_head (h : Chained mem b s) (hfree : s.mp.freeCount ≠ 0) :
    follow s.m s.mp.freeCount.toNat s.mp.ptr =
      s.mp.ptr :: follow s.m (s.mp.freeCount-1).toNat (loadWord s.m s.mp.ptr) := by
  have hnonneg := h.count_nonneg
  have hcount : s.mp.freeCount.toNat = (s.mp.freeCount-1).toNat+1 := by omega
  rw [hcount, follow]

theorem malloc (h : Chained mem b s) (hle : b ≤ MEM_PAGE_SIZE) {size : ℕ}
    (hsome : ¬ (s.mp.freeCount = 0 ∨ b < size)) : Chained mem b { s with
      mp := (Mempool.malloc s.mp s.m size).1
      outstanding := (Mempool.malloc s.mp s.m size).2 :: s.outstanding } := by
  have hfree : s.mp.freeCount ≠ 0 := fun hfree => hsome (.inl hfree)
  have hnonneg := h.count_nonneg
  have hperm := h.perm
  rw [h.follow_head hfree, List.cons_append] at hperm
  rw [h.malloc_some hle hsome]
  refine ⟨h.blockSize,?_,List.perm_middle.trans hperm⟩
  change 0 ≤ s.mp.freeCount-1
  omega

/-- The block that comes back is linked to the blocks that were free. -/
theorem follow_free (h : Chained mem b s) (hb : 8 ≤ b) (hspace : mem+MEM_PAGE_SIZE+8 ≤ 2^64) {ptr : ℕ}
    (hptr : ptr ∈ s.outstanding) : follow (storeWord s.m ptr s.mp.ptr) (s.mp.freeCount+1).toNat ptr =
      ptr :: follow s.m s.mp.freeCount.toNat s.mp.ptr := by
  have hnonneg := h.count_nonneg
  have hcount : (s.mp.freeCount+1).toNat = s.mp.freeCount.toNat+1 := by omega
  have hsame : follow (storeWord s.m ptr s.mp.ptr) s.mp.freeCount.toNat s.mp.ptr =
      follow s.m s.mp.freeCount.toNat s.mp.ptr :=
    h.follow_frame (by omega) hptr fun q hq => loadWord_storeWord_of_disjoint (by omega)
  rw [hcount, follow]
  apply congrArg
  by_cases hfree : s.mp.freeCount = 0
  · rw [hfree]
    rfl
  · have hin := block_in_page (h.ptr_mem hfree)
    rw [loadWord_storeWord s.m ptr (by omega), hsame]

theorem free (h : Chained mem b s) (hb : 8 ≤ b) (hspace : mem+MEM_PAGE_SIZE+8 ≤ 2^64) {ptr : ℕ}
    (hptr : ptr ∈ s.outstanding) : Chained mem b
      ⟨(Mempool.free s.mp s.m ptr).1,(Mempool.free s.mp s.m ptr).2,s.outstanding.erase ptr⟩ := by
  have hnonneg := h.count_nonneg
  refine ⟨h.blockSize,?_,?_⟩
  · change 0 ≤ s.mp.freeCount+1
    omega
  · change (follow (storeWord s.m ptr s.mp.ptr) (s.mp.freeCount+1).toNat ptr ++
      s.outstanding.erase ptr).Perm (blocks mem b)
    rw [h.follow_free hb hspace hptr, List.cons_append]
    exact List.perm_middle.symm.trans
      (((List.perm_cons_erase hptr).symm.append_left _).trans h.perm)

/-- A client that writes to its block leaves the chain as it is. -/
theorem follow_write (h : Chained mem b s) (hb : 8 ≤ b) {ptr x : ℕ} (hptr : ptr ∈ s.outstanding)
    (hge : ptr ≤ x) (hlt : x < ptr+b) (byte : UInt8) :
    follow (update s.m x byte) s.mp.freeCount.toNat s.mp.ptr = follow s.m s.mp.freeCount.toNat s.mp.ptr :=
  h.follow_frame (by omega) hptr fun q hq => loadWord_update_of_notMem (by omega) byte

theorem write (h : Chained mem b s) (hb : 8 ≤ b) {ptr x : ℕ} (hptr : ptr ∈ s.outstanding)
    (hge : ptr ≤ x) (hlt : x < ptr+b) (byte : UInt8) :
    Chained mem b { s with m := update s.m x byte } := by
  refine ⟨h.blockSize,h.count_nonneg,?_⟩
  change (follow (update s.m x byte) s.mp.freeCount.toNat s.mp.ptr ++ s.outstanding).Perm _
  rw [h.follow_write hb hptr hge hlt]
  exact h.perm

end Chained

theorem Step.chained (hs : Chained mem b s) (h0 : mem ≠ 0) (hb : 8 ≤ b) (hle : b ≤ MEM_PAGE_SIZE)
    (hspace : mem+MEM_PAGE_SIZE+8 ≤ 2^64) (h : Step s a s') : Chained mem b s' := by
  cases h with
  | null hnull =>
    rw [hs.malloc_null hle ((hs.malloc_eq_null h0 hle _).mp hnull)]
    exact ⟨hs.blockSize,hs.count_nonneg,hs.perm⟩
  | malloc hsome =>
    rw [Ne, hs.malloc_eq_null h0 hle] at hsome
    exact hs.malloc hle hsome
  | free hptr => exact hs.free hb hspace hptr
  | write hptr hge hlt =>
    rw [hs.blockSize, toSize_natCast hle] at hlt
    exact hs.write hb hptr hge hlt _

/-- Any calls and writes of a client keep the chain. -/
theorem Chained.run (hs : Chained mem b s) (h0 : mem ≠ 0) (hb : 8 ≤ b) (hle : b ≤ MEM_PAGE_SIZE)
    (hspace : mem+MEM_PAGE_SIZE+8 ≤ 2^64) {actions : List Action} (h : Run Step s actions s') : Chained mem b s' :=
  h.invariant (P := Chained mem b) hs fun _ _ _ hs hstep => hstep.chained hs h0 hb hle hspace

end Steps

/-- The blocks of a pool: those a client has, and those in the chain. -/
structure PoolKept (mem b : ℕ) (s : State) : Prop where
  outstanding_nodup : s.outstanding.Nodup
  outstanding_block : ∀ p ∈ s.outstanding, ∃ k < MEM_PAGE_SIZE/b, p = mem+k*b
  in_page : ∀ p ∈ s.outstanding, mem ≤ p ∧ p+b ≤ mem+MEM_PAGE_SIZE
  no_overlap : ∀ p ∈ s.outstanding, ∀ q ∈ s.outstanding, p ≠ q → p+b ≤ q ∨ q+b ≤ p
  count : s.mp.freeCount + s.outstanding.length = (MEM_PAGE_SIZE/b : ℕ)
  chain_nodup : (follow s.m s.mp.freeCount.toNat s.mp.ptr).Nodup
  chain : ∀ p, p ∈ follow s.m s.mp.freeCount.toNat s.mp.ptr ↔
    (∃ k < MEM_PAGE_SIZE/b, p = mem+k*b) ∧ p ∉ s.outstanding
  null : ∀ size, (malloc s.mp s.m size).2 = 0 ↔ s.mp.freeCount = 0 ∨ b < size

theorem Chained.kept {mem b : ℕ} {s : State} (h : Chained mem b s) (h0 : mem ≠ 0) (hb : 8 ≤ b)
    (hle : b ≤ MEM_PAGE_SIZE) : PoolKept mem b s := by
  obtain ⟨hchain,hout,hdisjoint⟩ := List.nodup_append.mp (h.nodup (by omega))
  refine ⟨hout,fun p hp => mem_blocks.mp (h.outstanding_mem hp),
    fun p hp => block_in_page (h.outstanding_mem hp),
    fun p hp q hq => blocks_apart (h.outstanding_mem hp) (h.outstanding_mem hq),?_,hchain,
    fun p => ⟨fun hp => ?_,?_⟩,h.malloc_eq_null h0 hle⟩
  · have hlength := h.perm.length_eq
    rw [List.length_append, length_follow, blocks, List.length_map, List.length_range] at hlength
    have hnonneg := h.count_nonneg
    omega
  · exact ⟨mem_blocks.mp (h.free_mem hp),fun hp' => hdisjoint p hp p hp' rfl⟩
  · rintro ⟨hblock,hnot⟩
    obtain hp | hp := List.mem_append.mp (h.perm.symm.subset (mem_blocks.mpr hblock))
    · exact hp
    · exact absurd hp hnot

/-- After any calls and writes of a client the blocks are kept apart. -/
theorem run_poolKept (m : Mem) {mem b : ℕ} (hb : 8 ≤ b) (hle : b ≤ MEM_PAGE_SIZE) (h0 : mem ≠ 0)
    (hspace : mem+MEM_PAGE_SIZE+8 ≤ 2^64) (actions : List Action) (s : State)
    (h : Run Step (start m mem b) actions s) : PoolKept mem b s := by
  have hchained := (start_chained m hb hle h0 hspace).run h0 hb hle hspace h
  exact hchained.kept h0 hb hle

/-- A pool of two blocks: both are handed out, a third call gets NULL, and the first block is written to, given
back and handed out again. -/
theorem run_poolKept_two : ∃ s, Run Step (start (fun _ => 0) 4096 2048)
    [.malloc 5,.malloc 2048,.malloc 1,.write 4096 255,.free 4096,.malloc 8] s ∧
    s.outstanding = [4096,6144] ∧ s.mp.freeCount = 0 ∧ PoolKept 4096 2048 s := by
  have h₀ : Run Step (start (fun _ => 0) 4096 2048) [] _ := .nil
  have h₁ := h₀.snoc (l := .malloc 5) (.malloc (by decide))
  have h₂ := h₁.snoc (l := .malloc 2048) (.malloc (by decide))
  have h₃ := h₂.snoc (l := .malloc 1) (.null (by decide))
  have h₄ := h₃.snoc (l := .write 4096 255) (.write (by decide : 4096 ∈ _) (by decide) (by decide))
  have h₅ := h₄.snoc (l := .free 4096) (.free (by decide))
  have h₆ := h₅.snoc (l := .malloc 8) (.malloc (by decide))
  exact ⟨_,h₆,by decide,by decide,run_poolKept _ (by decide) (by decide) (by decide) (by decide) _ _ h₆⟩

end ServerKit.Mempool
