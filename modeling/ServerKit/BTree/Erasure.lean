import Mathlib.Data.Nat.Cast.Order.Ring
import ServerKit.BTree.Heap
import ServerKit.BTree.Traced

/-! Without their logs the traced operations are the operations. The equations for runs hold on every
store, also where an index leaves its array. -/
namespace ServerKit.BTree.Traced
open ServerKit.Lib ServerKit.Lib.Logged

variable {T : Btree} {p : Ptr}

@[simp] theorem val_getKey (i : ℤ) : (getKey p i).val T = T.key p i.toNat := rfl
@[simp] theorem state_getKey (i : ℤ) : (getKey p i).state T = T := rfl
@[simp] theorem val_getChild (i : ℤ) : (getChild p i).val T = T.child p i.toNat := rfl
@[simp] theorem state_getChild (i : ℤ) : (getChild p i).state T = T := rfl
@[simp] theorem val_getNum : (getNum p).val T = T.num p := rfl
@[simp] theorem state_getNum : (getNum p).state T = T := rfl
@[simp] theorem val_getLeaf : (getLeaf p).val T = T.leaf p := rfl
@[simp] theorem state_getLeaf : (getLeaf p).state T = T := rfl
@[simp] theorem state_setKey (i k : ℤ) : (setKey p i k).state T = T.setKey p i.toNat k := rfl
@[simp] theorem state_setChild (i : ℤ) (c : Ptr) :
    (setChild p i c).state T = T.setChild p i.toNat c := rfl
@[simp] theorem state_setNum (m : ℕ) : (setNum p m).state T = T.setNum p m := rfl
@[simp] theorem state_free : (free p).state T = T.free p := rfl
@[simp] theorem state_testNum : (testNum p).state T = T := rfl
@[simp] theorem val_degree : degree.val T = T.t := rfl
@[simp] theorem state_degree : degree.state T = T := rfl
@[simp] theorem val_getRoot : getRoot.val T = T.root := rfl
@[simp] theorem state_getRoot : getRoot.state T = T := rfl
@[simp] theorem state_setRoot : (setRoot p).state T = T.setRoot p := rfl
@[simp] theorem val_createNode (b : Bool) : (btreeCreateNode b).val T = T.next := rfl
@[simp] theorem state_createNode (b : Bool) :
    (btreeCreateNode b).state T = BTree.btreeCreateNode T b := rfl

@[simp] theorem toNat_add (a b : ℕ) : ((a : ℤ)+b).toNat = a+b := rfl

/-- Keys and children lie in different arrays. -/
theorem child_setKey (p q : Ptr) (i j : ℕ) (k : ℤ) : (T.setKey p i k).child q j = T.child q j := by
  obtain rfl | hq := eq_or_ne q p
  · exact congrArg (fun n => n.childrens.getD j 0) Btree.modify_node_self
  · exact congrArg (fun n => n.childrens.getD j 0) (Btree.modify_node_ne hq)

theorem state_splitChild (x : Ptr) (i : ℕ) :
    (btreeSplitChild x i).state T = BTree.btreeSplitChild T x i := by
  simp [btreeSplitChild,BTree.btreeSplitChild]

theorem state_merge (node : Ptr) (idx : ℕ) :
    (btreeMerge node idx).state T = BTree.btreeMerge T node idx := by
  simp [btreeMerge,BTree.btreeMerge,btreeDestroyNode,BTree.btreeDestroyNode,child_setKey,
    -Nat.cast_max]
  rfl

theorem state_removeFromLeaf (node : Ptr) (idx : ℕ) :
    (removeFromLeaf node idx).state T = BTree.removeFromLeaf T node idx := by
  simp [removeFromLeaf,BTree.removeFromLeaf]

theorem state_borrowFromNext (node : Ptr) (idx : ℕ) (child right : Ptr) :
    (borrowFromNext node idx child right).state T = BTree.borrowFromNext T node idx child right := by
  simp [borrowFromNext,BTree.borrowFromNext,child_setKey]

theorem state_borrowFromPrev (node : Ptr) (idx : ℕ) (child left : Ptr) :
    (borrowFromPrev node idx child left).state T = BTree.borrowFromPrev T node idx child left := by
  simp [borrowFromPrev,BTree.borrowFromPrev,child_setKey]

theorem numIs_iff {r : ℕ → Bool} : (numIs p r).val T = true ↔ p ≠ 0 ∧ r (T.num p) = true := by
  rw [numIs, val_ite]
  split
  · next h0 => simp [h0]
  · next h0 => simp [h0]

@[simp] theorem state_numIs (r : ℕ → Bool) : (numIs p r).state T = T := by
  rw [numIs, state_ite]
  exact ite_self T

section Siblings
variable {node child left right : Ptr} {idx : ℕ}

@[simp] theorem val_leftSibling :
    (leftSibling node idx).val T = if 1 ≤ idx then T.child node (idx-1) else 0 := by
  rw [leftSibling, val_ite, val_getChild, Int.pred_toNat]
  rfl

@[simp] theorem state_leftSibling : (leftSibling node idx).state T = T := by
  rw [leftSibling, state_ite]
  exact ite_self T

@[simp] theorem val_rightSibling :
    (rightSibling node idx).val T = if idx+1 ≤ T.num node then T.child node (idx+1) else 0 := by
  rw [rightSibling, val_bind, val_ite]
  rfl

@[simp] theorem state_rightSibling : (rightSibling node idx).state T = T := by
  rw [rightSibling, state_bind, state_ite]
  exact ite_self T

section Tests
variable {t : ℕ}

theorem canBorrow_iff : (canBorrow t left right).val T = true ↔
    (left ≠ 0 ∧ T.num left ≥ t) ∨ (right ≠ 0 ∧ T.num right ≥ t) := by
  rw [canBorrow, val_or (state_numIs _), Bool.or_eq_true, numIs_iff, numIs_iff]
  simp

@[simp] theorem state_canBorrow : (canBorrow t left right).state T = T :=
  state_or (state_numIs _) (state_numIs _)

theorem val_richR : (richR left right).val T =
    if left ≠ 0 ∧ right ≠ 0 then decide (T.num right > T.num left) else decide (right ≠ 0) := by
  rw [richR, val_ite]
  rfl

@[simp] theorem state_richR : (richR left right).state T = T := by
  rw [richR, state_ite]
  exact ite_self T

theorem prefersNext_iff : (prefersNext t left right).val T = true ↔
    right ≠ 0 ∧ T.num right ≥ t ∧
      (if left ≠ 0 ∧ right ≠ 0 then decide (T.num right > T.num left) else decide (right ≠ 0)) := by
  rw [prefersNext, val_bind, state_richR, val_and (state_numIs _), val_richR, Bool.and_eq_true,
    numIs_iff, val_pure, and_assoc, decide_eq_true_iff]

@[simp] theorem state_prefersNext : (prefersNext t left right).state T = T := by
  rw [prefersNext, state_bind, state_richR]
  exact state_and (state_numIs _) rfl

theorem isMinimal_iff : (isMinimal t p).val T = true ↔ p ≠ 0 ∧ T.num p = t-1 := by
  rw [isMinimal, numIs_iff, decide_eq_true_iff]

@[simp] theorem state_isMinimal : (isMinimal t p).state T = T := state_numIs _

theorem mustMerge_iff : (mustMerge t left right).val T = true ↔
    (left = 0 ∨ T.num left = t-1) ∧ (right = 0 ∨ T.num right = t-1) := by
  have hpoor : ∀ q, (or (pure (q = 0)) (numIs q (· = t-1))).val T = true ↔ q = 0 ∨ T.num q = t-1 := by
    intro q
    rw [val_or rfl, Bool.or_eq_true, numIs_iff, val_pure, decide_eq_true_iff, decide_eq_true_iff]
    tauto
  rw [mustMerge, val_and (state_or rfl (state_numIs _)), Bool.and_eq_true, hpoor, hpoor]

@[simp] theorem state_mustMerge : (mustMerge t left right).state T = T :=
  state_and (state_or rfl (state_numIs _)) (state_or rfl (state_numIs _))

end Tests

theorem state_refill : (refill node idx child).state T = (BTree.refill T node idx child).1 := by
  simp only [refill, borrowOrMerge, BTree.refill, apply_ite Prod.fst, ↓state_bind, ↓state_ite, val_degree,
    state_degree, val_getNum, state_getNum, val_leftSibling, state_leftSibling, val_rightSibling,
    state_rightSibling, canBorrow_iff, state_canBorrow, prefersNext_iff, state_prefersNext,
    mustMerge_iff, state_mustMerge, isMinimal_iff, state_isMinimal,
    state_borrowFromNext, state_borrowFromPrev, state_merge, state_pure]

theorem val_refill : (refill node idx child).val T = (BTree.refill T node idx child).2 := by
  simp only [refill, borrowOrMerge, BTree.refill, apply_ite Prod.snd, ↓val_bind, ↓val_ite, val_degree,
    state_degree, val_getNum, state_getNum, val_leftSibling, state_leftSibling, val_rightSibling,
    state_rightSibling, canBorrow_iff, state_canBorrow, prefersNext_iff, state_prefersNext,
    mustMerge_iff, state_mustMerge, isMinimal_iff, state_isMinimal, val_pure]

end Siblings

section Deletion
variable {node : Ptr} {key : ℤ} {idx : ℕ}

@[simp] theorem val_scanLess :
    (scanLess node key).val T = Lib.scanUp (fun i => key > T.key node i) 0 (T.num node) := by
  refine (scanUp_eq (fun _ => state_and rfl rfl) 0 (T.num node)).1.trans ?_
  congr 1
  funext _
  rw [val_and rfl]
  exact Bool.and_true _

@[simp] theorem state_scanLess : (scanLess node key).state T = T :=
  (scanUp_eq (fun _ => state_and rfl rfl) 0 (T.num node)).2

theorem isFound_iff :
    (isFound node key idx).val T = true ↔ idx < T.num node ∧ key = T.key node idx := by
  rw [isFound, val_and rfl, Bool.and_eq_true]
  exact and_congr decide_eq_true_iff decide_eq_true_iff

@[simp] theorem state_isFound : (isFound node key idx).state T = T := state_and rfl rfl

theorem deleteKey_succ (f : ℕ) : BTree.btreeDeleteKey (f+1) T node key =
    ((btreeDeleteKey (node,key)).val T).elim
      (fun b => BTree.btreeDeleteKey f ((btreeDeleteKey (node,key)).state T) b.1 b.2)
      fun r => some ((btreeDeleteKey (node,key)).state T,r) := by
  rw [BTree.btreeDeleteKey, btreeDeleteKey]
  simp only [deleteFound, deleteBelow, ↓state_bind, ↓state_ite, ↓val_bind, ↓val_ite, val_degree,
    state_degree, val_getNum, state_getNum, val_getLeaf, state_getLeaf, val_getKey, state_getKey,
    val_getChild, state_getChild, state_setKey, val_scanLess, state_scanLess, isFound_iff, state_isFound,
    val_refill, state_refill, state_removeFromLeaf, state_merge, Int.toNat_natCast,
    Int.toNat_natCast_add_one, Int.pred_toNat, Int.toNat_zero, val_pure, state_pure]
  split
  · rfl
  split
  · split
    · rfl
    · split
      · rfl
      · split
        · rfl
        · rfl
  · split
    · rfl
    · rfl

end Deletion

section Insertion
variable {x : Ptr} {k : ℤ}

theorem shiftGreater_run (n : ℕ) (T : Btree) :
    BTree.shiftGreater x k n T = ((shiftGreater x k n).val T,(shiftGreater x k n).state T) := by
  induction n generalizing T with
  | zero => rfl
  | succ n ih =>
    rw [BTree.shiftGreater, shiftGreater]
    simp only [↓state_bind, ↓state_ite, ↓val_bind, ↓val_ite, val_getKey, state_getKey, state_setKey,
      Int.toNat_natCast, Int.toNat_natCast_add_one, val_pure, state_pure]
    split
    · exact ih _
    · rfl

/-- The scan for the place of a key above the leaves. -/
theorem val_scanGreater (n : ℕ) :
    (scanDown (fun j => do return decide ((← getKey x j) > k)) n).val T =
      Lib.scanDown (fun j => T.key x j > k) n :=
  (scanDown_eq (fun _ => rfl) n).1

theorem state_scanGreater (n : ℕ) :
    (scanDown (fun j => do return decide ((← getKey x j) > k)) n).state T = T :=
  (scanDown_eq (fun _ => rfl) n).2

theorem insertNonfull_succ (f : ℕ) : BTree.btreeInsertNonfull (f+1) T x k =
    ((btreeInsertNonfull k x).val T).elim
      (fun y => BTree.btreeInsertNonfull f ((btreeInsertNonfull k x).state T) y k)
      fun _ => some ((btreeInsertNonfull k x).state T) := by
  rw [BTree.btreeInsertNonfull, btreeInsertNonfull, shiftGreater_run]
  simp only [↓state_bind, ↓state_ite, ↓val_bind, ↓val_ite, val_degree, state_degree, val_getNum,
    state_getNum, val_getLeaf, state_getLeaf, val_getKey, state_getKey, val_getChild, state_getChild,
    state_setKey, state_setNum, val_scanGreater, state_scanGreater, state_splitChild,
    Int.toNat_natCast, val_pure, state_pure]
  split
  · rfl
  split
  · rfl
  · rfl

theorem insert_run (h0 : T.root ≠ 0) (f : ℕ) (key : ℤ) : BTree.btreeInsert f T key =
    BTree.btreeInsertNonfull f ((insertAtRoot key).state T) ((insertAtRoot key).val T) key := by
  rw [BTree.btreeInsert, if_neg h0]
  simp only [insertAtRoot, ↓state_bind, ↓state_ite, ↓val_bind, ↓val_ite, val_degree, state_degree,
    val_getRoot, state_getRoot, val_getNum, state_getNum, val_createNode, state_createNode,
    state_setRoot, state_setChild, val_getKey, state_getKey, val_getChild, state_getChild,
    state_splitChild, apply_ite Int.toNat, Int.toNat_zero, Int.toNat_one, val_pure, state_pure]
  split
  · rfl
  · rfl

/-- Without the log it is the insertion. -/
theorem insert_eq (f : ℕ) (T : Btree) (key : ℤ) :
    (btreeInsert f T key).map (fun r => r.2.1) = BTree.btreeInsert f T key := by
  rw [btreeInsert]
  split
  · next h0 =>
    rw [BTree.btreeInsert, if_pos h0]
    rfl
  · next h0 =>
    have hrun : ∀ x T', (loop (btreeInsertNonfull key) f x T').map (fun r => r.2.1) =
        BTree.btreeInsertNonfull f T' x key := fun x T' =>
      loop_eq (F := fun n x T => BTree.btreeInsertNonfull n T x key) (g := fun _ T => T)
        (fun _ _ => rfl) (fun n _ _ => insertNonfull_succ n) f x T'
    rw [loopFrom_eq (F := fun _ x T => BTree.btreeInsertNonfull f T x key) (g := fun _ T => T) hrun,
      insert_run h0]

end Insertion

/-- Without the log it is the deletion. -/
theorem delete_eq (f : ℕ) (T : Btree) (key : ℤ) :
    (btreeDelete f T key).map (fun r => (r.2.1,r.1.1,r.1.2)) = BTree.btreeDelete f T key := by
  rw [btreeDelete, BTree.btreeDelete]
  split
  · rfl
  · have hrun : ∀ b T', (loop btreeDeleteKey f b T').map (fun r => (r.2.1,r.1)) =
        BTree.btreeDeleteKey f T' b.1 b.2 := fun b T' =>
      loop_eq (F := fun n b T => BTree.btreeDeleteKey n T b.1 b.2) (g := fun b T => (T,b))
        (fun _ _ => rfl) (fun n _ _ => deleteKey_succ n) f b T'
    rw [← hrun (T.root,key) T, Option.map_map, Option.map_map]
    rfl

end ServerKit.BTree.Traced
