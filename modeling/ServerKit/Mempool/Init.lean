import ServerKit.Lib.Links
import ServerKit.Lib.Logged
import ServerKit.Mempool.FreeList

/-! Where `memp_init` writes, and the list that it leaves: the write that ends the list is one block
too late. -/
namespace ServerKit.Mempool
open ServerKit.Lib

/-! `memp_init` with a log of the addresses that it writes a pointer to. -/
namespace Traced
open Logged

def storePtr (p v : ℕ) : Logged Mem ℕ Unit := .write (storeWord · p v) fun _ => p

/-- The loop, which ends with `ptr2`. -/
def linkBlocks (blockSize : ℕ) : ℕ → ℕ → Logged Mem ℕ ℕ
  | 0,ptr2 => pure ptr2
  | n+1,ptr2 => do
    storePtr ptr2 (ptr2+blockSize)
    linkBlocks blockSize n (ptr2+blockSize)

def mempInit (mem : ℕ) (blockSize : ℕ) : Logged Mem ℕ (MempoolT × ℤ) :=
  let mp : MempoolT := ⟨toInt blockSize,toInt (MEM_PAGE_SIZE/blockSize : ℕ),mem,0⟩
  if mem = 0 then pure (mp,-1)
  else do
    let mp := { mp with ptr := mp.mem }
    let ptr2 ← linkBlocks blockSize mp.freeCount.toNat mp.ptr
    storePtr ptr2 0
    return (mp,0)

section Loop
variable {b n p : ℕ} {m : Mem} {P : ℕ → Prop}

theorem linkBlocks_eq (b n p : ℕ) (m : Mem) :
    Mempool.linkBlocks b n m p = ((linkBlocks b n p).state m,(linkBlocks b n p).val m) := by
  induction n generalizing p m with
  | zero => rfl
  | succ n ih =>
    rw [linkBlocks_succ, ih]
    rfl

theorem clean_linkBlocks : Clean P (linkBlocks b n p) m ↔ ∀ k < n, P (p+k*b) := by
  induction n generalizing p m with
  | zero => exact iff_of_true (clean_pure p) fun k hk => absurd hk (Nat.not_lt_zero k)
  | succ n ih =>
    rw [linkBlocks, clean_bind, storePtr, clean_write, ih]
    constructor
    · rintro ⟨h0,hrest⟩ k hk
      obtain _ | k := k
      · rwa [Nat.zero_mul]
      · have hk := hrest k (Nat.lt_of_succ_lt_succ hk)
        rwa [Nat.add_assoc, Nat.add_comm b, ← Nat.succ_mul] at hk
    · intro h
      refine ⟨by simpa using h 0 (Nat.zero_lt_succ n),fun k hk => ?_⟩
      rw [Nat.add_assoc, Nat.add_comm b, ← Nat.succ_mul]
      exact h (k+1) (Nat.succ_lt_succ hk)

end Loop

/-- Without the log it is `memp_init`. -/
theorem mempInit_eq (m : Mem) (mem b : ℕ) : Mempool.mempInit m mem b =
    (((mempInit mem b).val m).1,(mempInit mem b).state m,((mempInit mem b).val m).2) := by
  by_cases h0 : mem = 0
  · simp only [Mempool.mempInit, mempInit, if_pos h0, val_pure, state_pure]
  · simp only [Mempool.mempInit, mempInit, if_neg h0, linkBlocks_eq, storePtr, val_bind, state_bind,
      val_pure, state_pure, state_write]

end Traced

section Chain
variable {b n p : ℕ} {m : Mem}

/-- The loop and the write behind it chain one block more than the loop has passes. -/
theorem links_linkBlocks (hb : 8 ≤ b) (hp : p ≠ 0) (hspace : p+n*b < 2^64) :
    Links (loadWord (storeWord (linkBlocks b n m p).1 (p+n*b) 0)) p
      ((List.range (n+1)).map fun k => p+k*b) 0 := by
  induction n generalizing m p with
  | zero =>
    have hlast : loadWord (storeWord m p 0) p = 0 := loadWord_storeWord m p (by decide)
    have hcell : Links (loadWord (storeWord m p 0)) p [p] 0 := by
      refine .cons hp ?_
      rw [hlast]
      exact .nil 0
    simpa [linkBlocks,forUp] using hcell
  | succ n ih =>
    have hsum : p+(n+1)*b = p+b+n*b := by rw [Nat.succ_mul]; omega
    rw [hsum] at hspace ⊢
    rw [linkBlocks_succ]
    have hlink : loadWord (storeWord (linkBlocks b n (storeWord m p (p+b)) (p+b)).1 (p+b+n*b) 0) p =
        p+b := by
      rw [loadWord_storeWord_of_disjoint (.inl (by omega)), linkBlocks_frame (by omega)]
      exact loadWord_storeWord m p (by omega)
    have hrest := ih (m := storeWord m p (p+b)) (p := p+b) (by omega) (by omega)
    rw [List.range_succ_eq_map, List.map_cons, List.map_map, Nat.zero_mul, Nat.add_zero]
    refine .cons hp ?_
    rw [hlink]
    have hmap : (List.range (n+1)).map ((fun k => p+k*b) ∘ Nat.succ) =
        (List.range (n+1)).map fun k => p+b+k*b := by
      apply List.map_congr_left
      intro k _
      change p+(k+1)*b = p+b+k*b
      rw [Nat.succ_mul]
      omega
    rw [hmap]
    exact hrest

end Chain
/-- Every pointer goes into the page, and the pool's list has `free_count` blocks. -/
def InitKept (m : Mem) (mem b : ℕ) : Prop :=
  (∀ a ∈ (Traced.mempInit mem b).log m, mem ≤ a ∧ a+8 ≤ mem+MEM_PAGE_SIZE) ∧
    Links (loadWord (mempInit m mem b).2.1) (mempInit m mem b).1.ptr
      ((List.range (mempInit m mem b).1.freeCount.toNat).map fun k => mem+k*b) 0

section Init
variable {b mem : ℕ} {m : Mem}

theorem mempInit_run (m : Mem) (b : ℕ) (h0 : mem ≠ 0) : mempInit m mem b =
    (⟨toInt b,(MEM_PAGE_SIZE/b : ℕ),mem,mem⟩,
      storeWord (linkBlocks b (MEM_PAGE_SIZE/b) m mem).1 (mem+MEM_PAGE_SIZE/b*b) 0,0) := by
  have hcount : toInt (MEM_PAGE_SIZE/b : ℕ) = (MEM_PAGE_SIZE/b : ℕ) :=
    toInt_natCast (Nat.div_le_self _ _)
  rw [mempInit, if_neg h0, hcount, ← linkBlocks_ptr b _ m mem]
  generalize MEM_PAGE_SIZE/b = count, toInt b = size
  rfl

/-- The last write is behind the page unless the blocks leave room for a pointer. -/
theorem writes_in_page_iff (h0 : mem ≠ 0) :
    (∀ a ∈ (Traced.mempInit mem b).log m, mem ≤ a ∧ a+8 ≤ mem+MEM_PAGE_SIZE) ↔
      8 ≤ MEM_PAGE_SIZE % b := by
  change Logged.Clean (fun a => mem ≤ a ∧ a+8 ≤ mem+MEM_PAGE_SIZE) (Traced.mempInit mem b) m ↔ _
  have hcount : (toInt (MEM_PAGE_SIZE/b : ℕ)).toNat = MEM_PAGE_SIZE/b := by
    rw [toInt_natCast (Nat.div_le_self _ _), Int.toNat_natCast]
  have hdiv := Nat.div_add_mod' MEM_PAGE_SIZE b
  have hval : ∀ n p (m : Mem), (Traced.linkBlocks b n p).val m = p+n*b := fun n p m => by
    rw [← linkBlocks_ptr b n m p, Traced.linkBlocks_eq]
  rw [Traced.mempInit, if_neg h0]
  simp only [Logged.clean_bind, Logged.clean_write, Logged.clean_pure, Traced.storePtr,
    Traced.clean_linkBlocks, hcount, hval, and_true]
  generalize MEM_PAGE_SIZE/b = n at hdiv ⊢
  constructor
  · rintro ⟨-,hlast⟩
    omega
  · intro hroom
    refine ⟨fun k hk => ?_,by omega,by omega⟩
    have hle : k*b ≤ n*b := Nat.mul_le_mul_right b hk.le
    omega

/-- The list that `memp_init` leaves has one block more than `free_count`. -/
theorem links_mempInit (hb : 8 ≤ b) (h0 : mem ≠ 0) (hspace : mem+MEM_PAGE_SIZE < 2^64) :
    Links (loadWord (mempInit m mem b).2.1) (mempInit m mem b).1.ptr
      ((List.range ((mempInit m mem b).1.freeCount.toNat+1)).map fun k => mem+k*b) 0 := by
  have hpage : MEM_PAGE_SIZE/b*b ≤ MEM_PAGE_SIZE := Nat.div_mul_le_self MEM_PAGE_SIZE b
  rw [mempInit_run m b h0]
  exact links_linkBlocks hb h0 (by omega)

theorem not_initKept (hb : 8 ≤ b) (h0 : mem ≠ 0) (hspace : mem+MEM_PAGE_SIZE < 2^64) :
    ¬ InitKept m mem b := by
  rintro ⟨-,hlinks⟩
  have hlen := congrArg List.length (hlinks.unique (links_mempInit hb h0 hspace))
  simp at hlen

end Init

/-- `memp_init` never leaves the list that it should: the NULL at its end is one block too late, and
with less than eight bytes behind the last block it is written behind the page. -/
theorem mempInit_never_kept (m : Mem) {mem b : ℕ} (hb : 8 ≤ b) (hspace : mem+MEM_PAGE_SIZE < 2^64)
    (hret : (mempInit m mem b).2.2 = 0) :
    ¬ InitKept m mem b ∧
    ((∀ a ∈ (Traced.mempInit mem b).log m, mem ≤ a ∧ a+8 ≤ mem+MEM_PAGE_SIZE) ↔
      8 ≤ MEM_PAGE_SIZE % b) ∧
    Links (loadWord (mempInit m mem b).2.1) (mempInit m mem b).1.ptr
      ((List.range ((mempInit m mem b).1.freeCount.toNat+1)).map fun k => mem+k*b) 0 := by
  have h0 : mem ≠ 0 := by
    rintro rfl
    exact absurd hret (show ¬ (-1 : ℤ) = 0 by decide)
  exact ⟨not_initKept hb h0 hspace,writes_in_page_iff h0,links_mempInit hb h0 hspace⟩

theorem mempInit_never_kept_page : ¬ InitKept (fun _ => 0) 4096 32 ∧
    ((∀ a ∈ (Traced.mempInit 4096 32).log fun _ => 0, 4096 ≤ a ∧ a+8 ≤ 4096+MEM_PAGE_SIZE) ↔
      8 ≤ MEM_PAGE_SIZE % 32) := by
  have hspace : 4096+MEM_PAGE_SIZE < 2^64 := by decide
  obtain ⟨hnot,hiff,-⟩ := mempInit_never_kept (fun _ => 0) (b := 32) (by decide) hspace rfl
  exact ⟨hnot,hiff⟩

/-- Blocks of 32 bytes fill the page, and the last write goes behind it. -/
theorem mempInit_beyond_page : ¬ InitKept (fun _ => 0) 4096 32 ∧
    ∃ a ∈ (Traced.mempInit 4096 32).log fun _ => 0, ¬ (4096 ≤ a ∧ a+8 ≤ 4096+MEM_PAGE_SIZE) := by
  refine ⟨not_initKept (by decide) (by decide) (by decide),?_⟩
  by_contra hnone
  have h0 : 4096 ≠ 0 := by decide
  have hroom := (writes_in_page_iff (b := 32) h0).mp fun a ha => by
    by_contra hout
    exact hnone ⟨a,ha,hout⟩
  exact absurd hroom (by decide)

end ServerKit.Mempool
