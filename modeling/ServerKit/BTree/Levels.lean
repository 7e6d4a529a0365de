import ServerKit.BTree.Accesses
import ServerKit.BTree.Delete

/-! What one level of `btree_delete_key` reads and writes above the leaves, branch by branch. -/
namespace ServerKit.BTree
open Function ServerKit.Lib Btree

namespace Traced
open Logged
variable {P : Access → Prop} {T : Btree} {node : Ptr} {b : Bool} {A B : List ℤ} {cs : List Ptr} {k : ℤ}

/-- The scan of one level. -/
theorem clean_scanLess (hP : Tolerates P T.t) (hn : Cell T node b A cs) (k : ℤ) :
    Clean P (scanLess node k) T := by
  have hle := hn.holds.length_le
  have hnum := hn.num
  rw [scanLess, clean_bind, clean_getNum, hn.live]
  refine ⟨hP.field,clean_scanUp (fun _ => state_and rfl rfl) fun j hj => ?_⟩
  rw [val_getNum, hnum] at hj
  refine clean_and rfl ?_ fun _ => ?_
  · simp [hn.live]
    exact hP.key (by omega) (by omega)
  · simp [hn.live]
    exact hP.field

theorem clean_isFound (hP : Tolerates P T.t) (hn : Cell T node b A cs) (k : ℤ) (idx : ℕ) :
    Clean P (isFound node k idx) T := by
  have hle := hn.holds.length_le
  have hnum := hn.num
  refine clean_and rfl ?_ fun hlt => ?_
  · simp [hn.live]
    exact hP.field
  · have hlt : idx < T.num node := of_decide_eq_true hlt
    simp [hn.live]
    exact hP.key (by omega) (by omega)

/-- A level whose scan has found the key. -/
theorem acts_found (hP : Tolerates P T.t) (hn : Cell T node b (A ++ k :: B) cs)
    (hscan : Lib.scanUp (fun i => k > T.key node i) 0 (T.num node) = A.length) :
    Acts P (btreeDeleteKey (node,k)) (deleteFound node k A.length) T := by
  refine (Acts.of_eq (if_neg hn.ne_null)).trans ?_
  refine (Acts.read state_scanLess (clean_scanLess hP hn k) _).trans ?_
  rw [val_scanLess, hscan]
  exact .test_true state_isFound (clean_isFound hP hn k _) (isFound_iff.mpr hn.found)

/-- A level whose scan stops before a greater key. -/
theorem acts_below (hP : Tolerates P T.t) (hn : Cell T node b (A ++ B) cs)
    (hscan : Lib.scanUp (fun i => k > T.key node i) 0 (T.num node) = A.length)
    (hB : ∀ b ∈ B.head?, k < b) :
    Acts P (btreeDeleteKey (node,k)) (deleteBelow node k A.length) T := by
  refine (Acts.of_eq (if_neg hn.ne_null)).trans ?_
  refine (Acts.read state_scanLess (clean_scanLess hP hn k) _).trans ?_
  rw [val_scanLess, hscan]
  exact .test_false state_isFound (clean_isFound hP hn k _) (mt isFound_iff.mp (hn.not_found hB))

section Found
variable {idx : ℕ} {l r : Ptr}

theorem level_left (hP : Tolerates P T.t) (ht : 2 ≤ T.t) (hn : Cell T node false A cs)
    (hidx : idx < A.length) (hl : T.child node idx = l) (hlive : T.live l = true) (hne : l ≠ node)
    (hnum : T.t ≤ T.num l) (hle : T.num l ≤ 2*T.t-1) :
    Gives P (deleteFound node k idx) T (.inl (l,T.key l (T.num l-1)))
      (T.setKey node idx (T.key l (T.num l-1))) True := by
  have hsize := hn.holds.length_le
  refine ⟨?_,?_,?_⟩
  · simp [deleteFound,hn.leaf,hl,hnum,key_setKey_ne hne]
  · simp [deleteFound,hn.leaf,hl,hnum]
  · simp [deleteFound,hn.leaf,hn.live,hl,hnum,hlive]
    simp (disch := omega) [hP.key,hP.child,hP.field]

theorem level_right (hP : Tolerates P T.t) (ht : 2 ≤ T.t) (hn : Cell T node false A cs)
    (hidx : idx < A.length) (hl : T.child node idx = l) (hllive : T.live l = true)
    (hlnum : T.num l < T.t) (hr : T.child node (idx+1) = r) (hlive : T.live r = true)
    (hne : r ≠ node) (hnum : T.t ≤ T.num r) :
    Gives P (deleteFound node k idx) T (.inl (r,T.key r 0)) (T.setKey node idx (T.key r 0)) True := by
  have hsize := hn.holds.length_le
  have hpoor : ¬ T.t ≤ T.num l := by omega
  refine ⟨?_,?_,?_⟩
  · simp [deleteFound,hn.leaf,hl,hr,hpoor,hnum,key_setKey_ne hne]
  · simp [deleteFound,hn.leaf,hl,hr,hpoor,hnum]
  · simp [deleteFound,hn.leaf,hn.live,hl,hr,hpoor,hnum,hllive,hlive]
    simp (disch := omega) [hP.key,hP.child,hP.field]

/-- After the merge of the two subtrees of the key the code reads a child pointer of the node, also
if the merge has freed the node. -/
theorem level_merge (hP : Tolerates P T.t) (ht : 2 ≤ T.t) (hn : Cell T node false A cs)
    (hidx : idx < A.length) (hl : T.child node idx = l) (hllive : T.live l = true)
    (hlnum : T.num l < T.t) (hr : T.child node (idx+1) = r) (hrlive : T.live r = true)
    (hrnum : T.num r < T.t) (hnl : node ≠ l) (hnr : node ≠ r)
    (hchild : (BTree.btreeMerge T node idx).child node idx = l)
    (hlive : (BTree.btreeMerge T node idx).live node = decide (A.length ≠ 1)) :
    Gives P (deleteFound node k idx) T (.inl (l,k)) (BTree.btreeMerge T node idx)
      (P ⟨node,.child (A.length+1),true⟩ ∧ P ⟨node,.child idx,decide (A.length ≠ 1)⟩) := by
  have hsize := hn.holds.length_le
  have hlpoor : ¬ T.t ≤ T.num l := by omega
  have hrpoor : ¬ T.t ≤ T.num r := by omega
  have hmerge := clean_merge hP ht hl hr hnl hnr hn.live hllive hrlive
    (by rwa [hn.num]) (by rwa [hn.num])
  rw [hn.num] at hmerge
  refine ⟨?_,?_,?_⟩
  · simp [deleteFound,hn.leaf,hl,hr,hlpoor,hrpoor,state_merge,hchild]
  · simp [deleteFound,hn.leaf,hl,hr,hlpoor,hrpoor,state_merge]
  · simp [deleteFound,hn.leaf,hn.live,hl,hr,hlpoor,hrpoor,hllive,hrlive,state_merge,hmerge,hlive]
    simp (disch := omega) [hP.child,hP.field]

end Found

section Below
variable {idx : ℕ} {c l r : Ptr}

theorem gives_below (hP : Tolerates P T.t) (ht : 2 ≤ T.t) (hn : Cell T node b A cs)
    (hidx : idx ≤ A.length) (hc : T.child node idx = c) (hc0 : c ≠ 0) {d : Ptr} {T' : Btree}
    {good : Prop} (h : Gives P (refill node idx c) T d T' good) :
    Gives P (deleteBelow node k idx) T (.inl (d,k)) T' good := by
  have hsize := hn.holds.length_le
  have hread : P ⟨node,.child idx,true⟩ := hP.child (by omega) (by omega)
  refine ⟨?_,?_,?_⟩
  · simp [deleteBelow,hc,hc0,h.val]
  · simp [deleteBelow,hc,hc0,h.state]
  · simp [deleteBelow,hc,hc0,hn.live,h.clean,hread]

theorem refill_enough (hP : Tolerates P T.t) (hlive : T.live c = true) (hc : T.num c ≠ T.t-1) :
    Gives P (refill node idx c) T c T True := by
  refine ⟨?_,?_,?_⟩
  · simp [refill,hc]
  · simp [refill,hc]
  · simp [refill,hc,hlive]
    exact hP.field

/-- A sibling, if there is one, is allocated. -/
def Allocated (T : Btree) (p : Ptr) : Prop := p ≠ 0 → T.live p = true

theorem clean_numIs (hP : Tolerates P T.t) {p : Ptr} (hp : Allocated T p) (q : ℕ → Bool) :
    Clean P (numIs p q) T := by
  rw [numIs, clean_ite]
  split
  · exact clean_pure false
  · next h0 =>
    simp [hp h0]
    exact hP.field

theorem clean_canBorrow (hP : Tolerates P T.t) {t : ℕ} (hl : Allocated T l) (hr : Allocated T r) :
    Clean P (canBorrow t l r) T :=
  clean_or (state_numIs _) (clean_numIs hP hl _) (clean_numIs hP hr _)

theorem clean_prefersNext (hP : Tolerates P T.t) {t : ℕ} (hl : Allocated T l) (hr : Allocated T r) :
    Clean P (prefersNext t l r) T := by
  rw [prefersNext, clean_bind, state_richR]
  refine ⟨?_,clean_and (state_numIs _) (clean_numIs hP hr _) fun _ => clean_pure _⟩
  rw [richR, clean_ite]
  split
  · next h0 =>
    simp [hl h0.1,hr h0.2]
    exact ⟨hP.field,hP.field⟩
  · exact clean_pure _

theorem clean_mustMerge (hP : Tolerates P T.t) {t : ℕ} (hl : Allocated T l) (hr : Allocated T r) :
    Clean P (mustMerge t l r) T :=
  clean_and (state_or rfl (state_numIs _)) (clean_or rfl (clean_pure _) (clean_numIs hP hl _))
    fun _ => clean_or rfl (clean_pure _) (clean_numIs hP hr _)

/-- The siblings of a child of `t-1` keys. -/
structure Siblings (T : Btree) (node : Ptr) (idx : ℕ) (c l r : Ptr) : Prop where
  minimal : T.num c = T.t-1
  left : (if 1 ≤ idx then T.child node (idx-1) else 0) = l
  right : (if idx+1 ≤ T.num node then T.child node (idx+1) else 0) = r
  live : T.live c = true
  left_live : Allocated T l
  right_live : Allocated T r

/-- What such a child gets depends on its siblings. -/
theorem acts_refill (hP : Tolerates P T.t) (ht : 2 ≤ T.t) (hn : Cell T node b A cs)
    (hidx : idx ≤ A.length) (hs : Siblings T node idx c l r) :
    Acts P (refill node idx c) (borrowOrMerge T.t node idx c l r) T := by
  have hsize := hn.holds.length_le
  have hleft : Clean P (leftSibling node idx) T := by
    rw [leftSibling, clean_ite, clean_getChild, hn.live]
    split
    · exact hP.child (by omega) (by omega)
    · exact clean_pure 0
  have hright : Clean P (rightSibling node idx) T := by
    rw [rightSibling, clean_bind, clean_getNum, state_getNum, clean_ite, clean_getChild, hn.live,
      val_getNum]
    refine ⟨hP.field,?_⟩
    split
    · next hlt =>
      rw [hn.num] at hlt
      exact hP.child (by omega) (by omega)
    · exact clean_pure 0
  have hnum : Clean P (getNum c) T := by
    rw [clean_getNum, hs.live]
    exact hP.field
  refine (Acts.read rfl clean_degree _).trans ?_
  refine (Acts.read rfl hnum _).trans ((Acts.of_eq (if_pos hs.minimal)).trans ?_)
  refine (Acts.read state_leftSibling hleft _).trans ?_
  refine (Acts.read state_rightSibling hright _).trans (.of_eq ?_)
  rw [val_leftSibling, val_rightSibling, hs.left, hs.right]
  rfl

theorem refill_next (hP : Tolerates P T.t) (ht : 2 ≤ T.t) (hn : Cell T node b A cs)
    (hidx : idx < A.length) (hs : Siblings T node idx c l r) (hcr : r ≠ c) (h0 : r ≠ 0)
    (hnum : T.t ≤ T.num r) (hle : T.num r ≤ 2*T.t-1) (hl : l ≠ 0 → T.num l < T.num r) :
    Gives P (refill node idx c) T c (BTree.borrowFromNext T node idx c r) True := by
  have hsize := hn.holds.length_le
  refine (acts_refill hP ht hn hidx.le hs).gives ?_
  refine (Acts.test_true state_canBorrow (clean_canBorrow hP hs.left_live hs.right_live)
    (canBorrow_iff.mpr (.inr ⟨h0,hnum⟩))).gives ?_
  refine (Acts.test_true state_prefersNext (clean_prefersNext hP hs.left_live hs.right_live)
    (prefersNext_iff.mpr ⟨h0,hnum,?_⟩)).gives ?_
  · split
    · next hboth => exact decide_eq_true (hl hboth.1)
    · exact decide_eq_true h0
  · have hclean := clean_borrowFromNext hP hn.live hs.live (hs.right_live h0) hcr (by rwa [hn.num])
      (by rwa [hn.num]) (by rw [hs.minimal]; omega) (by omega) hle
    exact Gives.pure (state_borrowFromNext ..) (iff_of_true hclean trivial) c

theorem refill_prev (hP : Tolerates P T.t) (ht : 2 ≤ T.t) (hn : Cell T node b A cs)
    (hpos : 1 ≤ idx) (hidx : idx ≤ A.length) (hs : Siblings T node idx c l r) (hcl : l ≠ c)
    (h0 : l ≠ 0) (hnum : T.t ≤ T.num l) (hle : T.num l ≤ 2*T.t-1)
    (hr : r ≠ 0 → T.num r ≤ T.num l) :
    Gives P (refill node idx c) T c (BTree.borrowFromPrev T node idx c l) True := by
  have hsize := hn.holds.length_le
  refine (acts_refill hP ht hn hidx hs).gives ?_
  refine (Acts.test_true state_canBorrow (clean_canBorrow hP hs.left_live hs.right_live)
    (canBorrow_iff.mpr (.inl ⟨h0,hnum⟩))).gives ?_
  refine (Acts.test_false state_prefersNext (clean_prefersNext hP hs.left_live hs.right_live)
    fun hnext => ?_).gives ?_
  · obtain ⟨hr0,-,hrich⟩ := prefersNext_iff.mp hnext
    rw [if_pos ⟨h0,hr0⟩, decide_eq_true_iff] at hrich
    exact absurd hrich (not_lt.mpr (hr hr0))
  · have hclean := clean_borrowFromPrev hP ht hn.live hs.live (hs.left_live h0) hcl hpos
      (by rwa [hn.num]) (by rwa [hn.num]) (by rw [hs.minimal]; omega) (by omega) hle
    exact Gives.pure (state_borrowFromPrev ..) (iff_of_true hclean trivial) c

/-- Neither sibling can give a key. -/
theorem acts_mustMerge (hP : Tolerates P T.t) (ht : 2 ≤ T.t) (hn : Cell T node b A cs)
    (hidx : idx ≤ A.length) (hs : Siblings T node idx c l r) (hl : l ≠ 0 → T.num l = T.t-1)
    (hr : r ≠ 0 → T.num r = T.t-1) :
    Acts P (refill node idx c) (do
      if ← isMinimal T.t l then do
        btreeMerge node (idx-1)
        return l
      else if ← isMinimal T.t r then do
        btreeMerge node idx
        return c
      else return c) T := by
  refine (acts_refill hP ht hn hidx hs).trans ?_
  refine (Acts.test_false state_canBorrow (clean_canBorrow hP hs.left_live hs.right_live)
    fun hrich => ?_).trans ?_
  · obtain ⟨h0,hnum⟩ | ⟨h0,hnum⟩ := canBorrow_iff.mp hrich
    · have hpoor := hl h0
      omega
    · have hpoor := hr h0
      omega
  · exact .test_true state_mustMerge (clean_mustMerge hP hs.left_live hs.right_live)
      (mustMerge_iff.mpr ⟨or_iff_not_imp_left.mpr hl,or_iff_not_imp_left.mpr hr⟩)

theorem refill_mergePrev (hP : Tolerates P T.t) (ht : 2 ≤ T.t) (hn : Cell T node b A cs)
    (hpos : 1 ≤ idx) (hidx : idx ≤ A.length) (hs : Siblings T node idx c l r) (h0 : l ≠ 0)
    (hl : T.num l = T.t-1) (hr : r ≠ 0 → T.num r = T.t-1) (hc : T.child node idx = c)
    (hnl : node ≠ l) (hnc : node ≠ c) :
    Gives P (refill node idx c) T l (BTree.btreeMerge T node (idx-1))
      (P ⟨node,.child (A.length+1),true⟩) := by
  have hsize := hn.holds.length_le
  refine (acts_mustMerge hP ht hn hidx hs (fun _ => hl) hr).gives ?_
  refine (Acts.test_true state_isMinimal (clean_numIs hP hs.left_live _)
    (isMinimal_iff.mpr ⟨h0,hl⟩)).gives ?_
  have hleft : T.child node (idx-1) = l := by rw [← hs.left, if_pos hpos]
  have hclean := clean_merge hP ht hleft (by rwa [Nat.sub_add_cancel hpos]) hnl hnc
    hn.live (hs.left_live h0) hs.live (by rw [hn.num]; omega) (by rwa [hn.num])
  rw [hn.num] at hclean
  exact Gives.pure (state_merge ..) hclean l

theorem refill_mergeNext (hP : Tolerates P T.t) (ht : 2 ≤ T.t) (hn : Cell T node b A cs)
    (hidx : idx < A.length) (hs : Siblings T node idx c 0 r) (h0 : r ≠ 0)
    (hr : T.num r = T.t-1) (hc : T.child node idx = c) (hnc : node ≠ c) (hnr : node ≠ r) :
    Gives P (refill node idx c) T c (BTree.btreeMerge T node idx)
      (P ⟨node,.child (A.length+1),true⟩) := by
  have hsize := hn.holds.length_le
  refine (acts_mustMerge hP ht hn hidx.le hs (fun hne => absurd rfl hne) fun _ => hr).gives ?_
  refine (Acts.test_false state_isMinimal (clean_numIs hP hs.left_live _)
    fun hmin => (isMinimal_iff.mp hmin).1 rfl).gives ?_
  refine (Acts.test_true state_isMinimal (clean_numIs hP hs.right_live _)
    (isMinimal_iff.mpr ⟨h0,hr⟩)).gives ?_
  have hright : T.child node (idx+1) = r := by
    rw [← hs.right, if_pos (by rw [hn.num]; omega)]
  have hclean := clean_merge hP ht hc hright hnc hnr hn.live hs.live
    (hs.right_live h0) (by rwa [hn.num]) (by rwa [hn.num])
  rw [hn.num] at hclean
  exact Gives.pure (state_merge ..) hclean c

end Below

end Traced
end ServerKit.BTree
