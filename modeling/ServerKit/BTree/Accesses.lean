import ServerKit.BTree.Erasure

/-! What the single operations read and write, as long as the nodes that they work on are allocated
and hold as many keys as they should: everything lies inside the arrays but one write of a merge. -/
namespace ServerKit.BTree
open Function ServerKit.Lib ServerKit.Lib.Logged

/-! Writes to one part of a node leave the other parts, and the other nodes, as they are. -/
namespace Btree
variable {T : Btree} {p q : Ptr}

theorem field_modify {α : Type} (g : BtreeNode → α) {f : BtreeNode → BtreeNode}
    (h : ∀ n, g (f n) = g n) : g ((T.modify p f).node q) = g (T.node q) := by
  obtain rfl | hq := eq_or_ne q p
  · rw [modify_node_self, h]
  · rw [modify_node_ne hq]

@[simp] theorem num_setKey (i : ℕ) (k : ℤ) : (T.setKey p i k).num q = T.num q :=
  field_modify BtreeNode.num fun _ => rfl
@[simp] theorem num_setChild (i : ℕ) (c : Ptr) : (T.setChild p i c).num q = T.num q :=
  field_modify BtreeNode.num fun _ => rfl
@[simp] theorem leaf_setKey (i : ℕ) (k : ℤ) : (T.setKey p i k).leaf q = T.leaf q :=
  field_modify BtreeNode.leaf fun _ => rfl
@[simp] theorem leaf_setNum (m : ℕ) : (T.setNum p m).leaf q = T.leaf q :=
  field_modify BtreeNode.leaf fun _ => rfl
@[simp] theorem num_setNum (m : ℕ) : (T.setNum p m).num p = m :=
  congrArg BtreeNode.num modify_node_self
theorem num_setNum_ne (h : q ≠ p) (m : ℕ) : (T.setNum p m).num q = T.num q :=
  congrArg BtreeNode.num (modify_node_ne h)
theorem key_setKey_ne (h : q ≠ p) (i j : ℕ) (k : ℤ) : (T.setKey p i k).key q j = T.key q j :=
  congrArg (fun n => n.keys.getD j 0) (modify_node_ne h)
@[simp] theorem num_setRoot : (T.setRoot p).num q = T.num q := rfl
@[simp] theorem num_free : (T.free p).num q = T.num q := rfl
theorem num_createNode_ne (h : q ≠ T.next) (b : Bool) : (btreeCreateNode T b).num q = T.num q :=
  congrArg BtreeNode.num (createNode_node_ne h)

@[simp] theorem live_setKey (i : ℕ) (k : ℤ) : (T.setKey p i k).live q = T.live q := (rfl)
@[simp] theorem live_setChild (i : ℕ) (c : Ptr) : (T.setChild p i c).live q = T.live q := (rfl)
@[simp] theorem live_setNum (m : ℕ) : (T.setNum p m).live q = T.live q := (rfl)
@[simp] theorem live_setRoot : (T.setRoot p).live q = T.live q := (rfl)
theorem live_free_ne (h : q ≠ p) : (T.free p).live q = T.live q := update_of_ne h ..
@[simp] theorem live_createNode (b : Bool) : (btreeCreateNode T b).live T.next = true := update_self ..
theorem live_createNode_ne (h : q ≠ T.next) (b : Bool) : (btreeCreateNode T b).live q = T.live q :=
  update_of_ne h ..

section Loops
variable {body : ℕ → Btree → Btree} {lo n : ℕ}

@[simp] theorem live_forUp (h : ∀ j T, (body j T).live q = T.live q) :
    (forUp lo n body T).live q = T.live q := forUp_keeps (fun T => T.live q) h lo n T
@[simp] theorem num_forUp (h : ∀ j T, (body j T).num q = T.num q) :
    (forUp lo n body T).num q = T.num q := forUp_keeps (fun T => T.num q) h lo n T
@[simp] theorem leaf_forUp (h : ∀ j T, (body j T).leaf q = T.leaf q) :
    (forUp lo n body T).leaf q = T.leaf q := forUp_keeps (fun T => T.leaf q) h lo n T
@[simp] theorem live_forDown (h : ∀ j T, (body j T).live q = T.live q) :
    (forDown lo n body T).live q = T.live q := forDown_keeps (fun T => T.live q) h lo n T
@[simp] theorem num_forDown (h : ∀ j T, (body j T).num q = T.num q) :
    (forDown lo n body T).num q = T.num q := forDown_keeps (fun T => T.num q) h lo n T

@[simp] theorem live_ite (c : Prop) [Decidable c] (T' : Btree) :
    (if c then T else T').live q = if c then T.live q else T'.live q :=
  apply_ite (fun T => T.live q) c T T'
@[simp] theorem num_ite (c : Prop) [Decidable c] (T' : Btree) :
    (if c then T else T').num q = if c then T.num q else T'.num q :=
  apply_ite (fun T => T.num q) c T T'

end Loops
end Btree

namespace Traced
open Btree
variable {P : Access → Prop} {T : Btree} {p : Ptr}

@[simp] theorem clean_getKey (i : ℤ) : Clean P (getKey p i) T ↔ P ⟨p,.key i,T.live p⟩ :=
  clean_read _ _
@[simp] theorem clean_getChild (i : ℤ) : Clean P (getChild p i) T ↔ P ⟨p,.child i,T.live p⟩ :=
  clean_read _ _
@[simp] theorem clean_setKey (i k : ℤ) : Clean P (setKey p i k) T ↔ P ⟨p,.key i,T.live p⟩ :=
  clean_write _ _
@[simp] theorem clean_setChild (i : ℤ) (c : Ptr) :
    Clean P (setChild p i c) T ↔ P ⟨p,.child i,T.live p⟩ := clean_write _ _
@[simp] theorem clean_getNum : Clean P (getNum p) T ↔ P ⟨p,.field,T.live p⟩ := clean_read _ _
@[simp] theorem clean_getLeaf : Clean P (getLeaf p) T ↔ P ⟨p,.field,T.live p⟩ := clean_read _ _
@[simp] theorem clean_setNum (m : ℕ) : Clean P (setNum p m) T ↔ P ⟨p,.field,T.live p⟩ :=
  clean_write _ _
@[simp] theorem clean_free : Clean P (free p) T ↔ P ⟨p,.field,T.live p⟩ := clean_write _ _
@[simp] theorem clean_testNum : Clean P (testNum p) T ↔ P ⟨p,.field,T.live p⟩ := clean_write _ _
@[simp] theorem clean_degree : Clean P degree T := clean_get _
@[simp] theorem clean_getRoot : Clean P getRoot T := clean_get _
@[simp] theorem clean_setRoot : Clean P (setRoot p) T := clean_modify _
@[simp] theorem clean_createNode (b : Bool) :
    Clean P (btreeCreateNode b) T ↔ P ⟨T.next,.field,true⟩ := by
  simp [btreeCreateNode]

/-- `P` is true of all accesses to allocated nodes inside their arrays. -/
def Tolerates (P : Access → Prop) (t : ℕ) : Prop :=
  ∀ p part, Part.InBounds t part → P ⟨p,part,true⟩

namespace Tolerates
variable {t : ℕ} {i : ℤ}

theorem key (hP : Tolerates P t) (h0 : 0 ≤ i) (hi : i ≤ 2*t-2) : P ⟨p,.key i,true⟩ := hP _ _ ⟨h0,hi⟩
theorem child (hP : Tolerates P t) (h0 : 0 ≤ i) (hi : i ≤ 2*t-1) : P ⟨p,.child i,true⟩ :=
  hP _ _ ⟨h0,hi⟩
theorem field (hP : Tolerates P t) : P ⟨p,.field,true⟩ := hP _ _ trivial

end Tolerates

section Loops
variable {lo n : ℕ} {body : ℕ → Traced Unit}

/-- A loop that allocates and frees nothing. -/
theorem clean_up (hlive : ∀ j T, ((body j).state T).live = T.live)
    (hbody : ∀ j T', lo ≤ j → j < lo+n → T'.live = T.live → Clean P (body j) T') :
    Clean P (Logged.forUp lo n body) T :=
  clean_forUp (I := fun T' => T'.live = T.live) rfl fun j s h₁ h₂ hs =>
    ⟨hbody j s h₁ h₂ hs,(hlive j s).trans hs⟩

theorem clean_down (hlive : ∀ j T, ((body j).state T).live = T.live)
    (hbody : ∀ j T', lo ≤ j → j < lo+n → T'.live = T.live → Clean P (body j) T') :
    Clean P (Logged.forDown lo n body) T :=
  clean_forDown (I := fun T' => T'.live = T.live) rfl fun j s h₁ h₂ hs =>
    ⟨hbody j s h₁ h₂ hs,(hlive j s).trans hs⟩

end Loops

section Operations
variable {node l r x y : Ptr} {idx : ℕ}

/-- A merge writes behind the last child of the node, which a full node has no cell for. -/
theorem clean_merge (hP : Tolerates P T.t) (ht : 2 ≤ T.t) (hl : T.child node idx = l)
    (hr : T.child node (idx+1) = r) (hnl : node ≠ l) (hnr : node ≠ r) (hlive : T.live node = true)
    (hllive : T.live l = true) (hrlive : T.live r = true) (hidx : idx < T.num node)
    (hnum : T.num node ≤ 2*T.t-1) :
    Clean P (btreeMerge node idx) T ↔ P ⟨node,.child (T.num node+1),true⟩ := by
  have hkeys : ∀ T', T'.live l = true → T'.live r = true → Clean P
      (Logged.forUp 0 (T.t-1) fun i => do setKey l (T.t+i) (← getKey r i)) T' := by
    intro T' hl' hr'
    refine clean_up (fun _ _ => rfl) fun j T'' _ hj hlive => ?_
    simp (disch := omega) [hlive,hl',hr',hP.key]
  have hchildrens : ∀ T', T'.live l = true → T'.live r = true → Clean P
      (Logged.forUp 0 T.t fun i => do setChild l (T.t+i) (← getChild r i)) T' := by
    intro T' hl' hr'
    refine clean_up (fun _ _ => rfl) fun j T'' _ hj hlive => ?_
    simp (disch := omega) [hlive,hl',hr',hP.child]
  have hgap : ∀ T', T'.live node = true → Clean P
      (Logged.forUp (idx+1) (T.num node-(idx+1)) fun i => do
        setKey node (i-1) (← getKey node i)
        setChild node i (← getChild node (i+1))
        testNum node) T' := by
    intro T' hnode'
    refine clean_up (fun _ _ => rfl) fun j T'' hlo hj hlive => ?_
    simp (disch := omega) [hlive,hnode',hP.key,hP.child,hP.field]
  simp [btreeMerge,btreeDestroyNode,hl,hr,hlive,hllive,hrlive,num_setNum_ne,live_free_ne,hnl,hnr,
    hkeys,hchildrens,hgap]
  simp (disch := omega) [hP.key,hP.child,hP.field]

theorem clean_removeFromLeaf (hP : Tolerates P T.t) (hlive : T.live node = true)
    (hidx : idx < T.num node) (hnum : T.num node ≤ 2*T.t-1) :
    Clean P (removeFromLeaf node idx) T := by
  have hkeys : Clean P (Logged.forUp idx (T.num node-1-idx) fun i => do
      setKey node i (← getKey node (i+1))
      testNum node) T := by
    refine clean_up (fun _ _ => rfl) fun j T' hlo hj hlive' => ?_
    simp (disch := omega) [hlive',hlive,hP.key,hP.field]
  simp [removeFromLeaf,hlive,hkeys]
  simp (disch := omega) [hP.key,hP.field]

theorem clean_borrowFromNext (hP : Tolerates P T.t) (hlive : T.live node = true)
    (hylive : T.live y = true) (hrlive : T.live r = true) (hry : r ≠ y)
    (hidx : idx < T.num node) (hnum : T.num node ≤ 2*T.t-1) (hynum : T.num y < 2*T.t-1)
    (hrpos : 1 ≤ T.num r) (hrnum : T.num r ≤ 2*T.t-1) :
    Clean P (borrowFromNext node idx y r) T := by
  have hshift : ∀ T', T'.live r = true → Clean P (Logged.forUp 0 (T.num r-1) fun i => do
      setKey r i (← getKey r (i+1))
      setChild r i (← getChild r (i+1))
      testNum r) T' := by
    intro T' hr'
    refine clean_up (fun _ _ => rfl) fun j T'' hlo hj hlive' => ?_
    simp (disch := omega) [hlive',hr',hP.key,hP.child,hP.field]
  simp [borrowFromNext,hlive,hylive,hrlive,num_setNum_ne,hry,hshift]
  simp (disch := omega) [hP.key,hP.child,hP.field]

theorem clean_borrowFromPrev (hP : Tolerates P T.t) (ht : 2 ≤ T.t) (hlive : T.live node = true)
    (hylive : T.live y = true) (hllive : T.live l = true) (hly : l ≠ y) (hpos : 1 ≤ idx)
    (hidx : idx ≤ T.num node) (hnum : T.num node ≤ 2*T.t-1) (hynum : T.num y < 2*T.t-1)
    (hlpos : 1 ≤ T.num l) (hlnum : T.num l ≤ 2*T.t-1) :
    Clean P (borrowFromPrev node idx y l) T := by
  have hshift : Clean P (Logged.forDown 1 (T.num y) fun i => do
      setKey y i (← getKey y (i-1))
      setChild y (i+1) (← getChild y i)) T := by
    refine clean_down (fun _ _ => rfl) fun j T' hlo hj hlive' => ?_
    simp (disch := omega) [hlive',hylive,hP.key,hP.child]
  simp [borrowFromPrev,hlive,hylive,hllive,num_setNum_ne,hly,hshift]
  simp (disch := omega) [hP.key,hP.child,hP.field]

theorem clean_splitChild (hP : Tolerates P T.t) (ht : 2 ≤ T.t) (hy : T.child x idx = y)
    (hxy : x ≠ y) (hx : x ≠ T.next) (hyn : y ≠ T.next) (hlive : T.live x = true)
    (hylive : T.live y = true) (hidx : idx ≤ T.num x) (hnum : T.num x < 2*T.t-1) :
    Clean P (btreeSplitChild x idx) T := by
  have hkeys : ∀ T', T'.live T.next = true → T'.live y = true → Clean P
      (Logged.forUp 0 (T.t-1) fun j => do setKey T.next j (← getKey y (j+T.t))) T' := by
    intro T' hz' hy'
    refine clean_up (fun _ _ => rfl) fun j T'' _ hj hlive' => ?_
    simp (disch := omega) [hlive',hz',hy',hP.key]
  have hchildrens : ∀ T', T'.live T.next = true → T'.live y = true → Clean P
      (Logged.forUp 0 T.t fun j => do setChild T.next j (← getChild y (j+T.t))) T' := by
    intro T' hz' hy'
    refine clean_up (fun _ _ => rfl) fun j T'' _ hj hlive' => ?_
    simp (disch := omega) [hlive',hz',hy',hP.child]
  have hshiftC : ∀ T', T'.live x = true → Clean P
      (Logged.forDown (idx+1) (T.num x-idx) fun j => do setChild x (j+1) (← getChild x j)) T' := by
    intro T' hx'
    refine clean_down (fun _ _ => rfl) fun j T'' _ hj hlive' => ?_
    simp (disch := omega) [hlive',hx',hP.child]
  have hshiftK : ∀ T', T'.live x = true → Clean P
      (Logged.forDown idx (T.num x-idx) fun j => do setKey x (j+1) (← getKey x j)) T' := by
    intro T' hx'
    refine clean_down (fun _ _ => rfl) fun j T'' _ hj hlive' => ?_
    simp (disch := omega) [hlive',hx',hP.key]
  simp [btreeSplitChild,hy,hlive,hylive,num_setNum_ne,num_createNode_ne,live_createNode_ne,hxy,hx,hyn,
    hkeys,hchildrens,hshiftC,hshiftK]
  simp (disch := omega) [hP.key,hP.child,hP.field]

theorem clean_shiftGreater {t n : ℕ} (hP : Tolerates P t) (k : ℤ) (hn : n < 2*t-1)
    (hlive : T.live x = true) : Clean P (shiftGreater x k n) T := by
  induction n generalizing T with
  | zero => exact clean_pure 0
  | succ n ih =>
    rw [shiftGreater]
    have hrest := ih (by omega) (T := T.setKey x (n+1) (T.key x n)) hlive
    simp [hlive,hrest]
    simp (disch := omega) [hP.key]

theorem val_shiftGreater_le (k : ℤ) (n : ℕ) : (shiftGreater x k n).val T ≤ n := by
  induction n generalizing T with
  | zero => exact le_rfl
  | succ n ih =>
    rw [shiftGreater, val_bind, val_ite]
    split
    · exact ih.trans n.le_succ
    · exact le_rfl

theorem live_shiftGreater (k : ℤ) (n : ℕ) (q : Ptr) :
    ((shiftGreater x k n).state T).live q = T.live q := by
  induction n generalizing T with
  | zero => rfl
  | succ n ih =>
    rw [shiftGreater, state_bind, state_ite]
    split
    · exact ih
    · rfl

/-- The scan for the place of a key above the leaves. -/
theorem clean_scanGreater {t n : ℕ} (hP : Tolerates P t) (k : ℤ) (hn : n ≤ 2*t-1)
    (hlive : T.live x = true) :
    Clean P (scanDown (fun j => do return decide ((← getKey x j) > k)) n) T := by
  refine clean_scanDown (fun _ => rfl) fun j hj => ?_
  simp [hlive]
  exact hP.key (by omega) (by omega)

end Operations
end Traced
end ServerKit.BTree
