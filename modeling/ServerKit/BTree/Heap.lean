import ServerKit.BTree.Nodes

/-! The heap operations as changes of single records. The loops of the code read one node while they
write another, so every equation asks that the nodes be different. -/
namespace ServerKit.BTree
open Function ServerKit.Lib

namespace Btree
variable {T : Btree} {p q : Ptr} {f g : BtreeNode → BtreeNode}

@[simp] theorem modify_node_self : (T.modify p f).node p = f (T.node p) := update_self ..
theorem modify_node_ne (h : q ≠ p) : (T.modify p f).node q = T.node q := update_of_ne h ..

@[simp] theorem modify_modify : (T.modify p f).modify p g = T.modify p (g ∘ f) := by
  simp [modify]

theorem modify_id : T.modify p id = T := by
  simp [modify]

theorem modify_congr (h : f (T.node p) = g (T.node p)) : T.modify p f = T.modify p g := by
  rw [modify, h]
  rfl

@[simp] theorem free_node : (T.free p).node = T.node := rfl
@[simp] theorem setRoot_node : (T.setRoot p).node = T.node := rfl

end Btree
open Btree

section Loops
variable {T : Btree} {p q : Ptr}

/-- A loop that changes the keys of `p` and reads those of `q`. -/
theorem forUp_keys {body : ℕ → Btree → Btree} {g : ℕ → List ℤ → List ℤ} (m : BtreeNode) (lo n : ℕ)
    (hpq : p ≠ q) (hbody : ∀ j T, T.node q = m →
      body j T = T.modify p fun n => { n with keys := g j n.keys }) (hm : T.node q = m) :
    forUp lo n body T = T.modify p fun n' => { n' with keys := forUp lo n g n'.keys } :=
  forUp_lift (I := fun T => T.node q = m)
    (L := fun f T => T.modify p fun n => { n with keys := f n.keys })
    (fun _ => modify_id) (fun _ _ _ => modify_modify)
    (fun _ _ h => (modify_node_ne hpq.symm).trans h) hbody lo n T hm

theorem forUp_childrens {body : ℕ → Btree → Btree} {g : ℕ → List Ptr → List Ptr} (m : BtreeNode)
    (lo n : ℕ) (hpq : p ≠ q) (hbody : ∀ j T, T.node q = m →
      body j T = T.modify p fun n => { n with childrens := g j n.childrens }) (hm : T.node q = m) :
    forUp lo n body T = T.modify p fun n' => { n' with childrens := forUp lo n g n'.childrens } :=
  forUp_lift (I := fun T => T.node q = m)
    (L := fun f T => T.modify p fun n => { n with childrens := f n.childrens })
    (fun _ => modify_id) (fun _ _ _ => modify_modify)
    (fun _ _ h => (modify_node_ne hpq.symm).trans h) hbody lo n T hm

theorem copy_keys (hpq : p ≠ q) (o c n : ℕ) :
    forUp 0 n (fun j T => T.setKey p (o+j) (T.key q (j+c))) T =
      T.modify p fun m => { m with keys := copyInto 0 o c n (T.node q).keys m.keys } :=
  forUp_keys (T.node q) 0 n hpq (fun j T' h => by simp [setKey,key,h]) rfl

theorem copy_childrens (hpq : p ≠ q) (o c n : ℕ) :
    forUp 0 n (fun j T => T.setChild p (o+j) (T.child q (j+c))) T =
      T.modify p fun m => { m with childrens := copyInto 0 o c n (T.node q).childrens m.childrens } :=
  forUp_childrens (T.node q) 0 n hpq (fun j T' h => by simp [setChild,child,h]) rfl

/-- A loop that changes both arrays of `p`, reading nothing but `p`. -/
theorem forUp_both {body : ℕ → Btree → Btree} {f : ℕ → List ℤ → List ℤ} {g : ℕ → List Ptr → List Ptr}
    (lo n : ℕ) (hbody : ∀ j T, body j T = T.modify p fun n =>
      { n with keys := f j n.keys, childrens := g j n.childrens }) :
    forUp lo n body T = T.modify p fun m =>
      { m with keys := forUp lo n f m.keys, childrens := forUp lo n g m.childrens } := by
  have hlift := forUp_lift (I := fun _ => True) (g := fun j s => (f j s.1,g j s.2))
    (L := fun f (T : Btree) => T.modify p fun n =>
      { n with keys := (f (n.keys,n.childrens)).1, childrens := (f (n.keys,n.childrens)).2 })
    (fun _ => modify_id) (fun _ _ _ => modify_modify) (fun _ _ _ => trivial)
    (fun j T _ => hbody j T) lo n T trivial
  simpa only [forUp_prod] using hlift

theorem forDown_both {body : ℕ → Btree → Btree} {f : ℕ → List ℤ → List ℤ}
    {g : ℕ → List Ptr → List Ptr} (lo n : ℕ) (hbody : ∀ j T, body j T = T.modify p fun n =>
      { n with keys := f j n.keys, childrens := g j n.childrens }) :
    forDown lo n body T = T.modify p fun m =>
      { m with keys := forDown lo n f m.keys, childrens := forDown lo n g m.childrens } := by
  have hlift := forDown_lift (I := fun _ => True) (g := fun j s => (f j s.1,g j s.2))
    (L := fun f (T : Btree) => T.modify p fun n =>
      { n with keys := (f (n.keys,n.childrens)).1, childrens := (f (n.keys,n.childrens)).2 })
    (fun _ => modify_id) (fun _ _ _ => modify_modify) (fun _ _ _ => trivial)
    (fun j T _ => hbody j T) lo n T trivial
  simpa only [forDown_prod] using hlift

theorem shiftDown_keys (lo n : ℕ) :
    forUp lo n (fun j T => T.setKey p j (T.key p (j+1))) T =
      T.modify p fun m => { m with keys := shiftDown 0 lo n m.keys } := by
  refine (forUp_both (f := fun j l => l.set j (l.getD (j+1) 0)) (g := fun _ => id) lo n
    fun _ _ => rfl).trans ?_
  simp only [forUp_id]
  rfl

theorem shiftUp_keys (lo n : ℕ) :
    forDown lo n (fun j T => T.setKey p (j+1) (T.key p j)) T =
      T.modify p fun m => { m with keys := shiftUp 0 lo n m.keys } := by
  refine (forDown_both (f := fun j l => l.set (j+1) (l.getD j 0)) (g := fun _ => id) lo n
    fun _ _ => rfl).trans ?_
  simp only [forDown_id]
  rfl

theorem shiftUp_childrens (lo n : ℕ) :
    forDown lo n (fun j T => T.setChild p (j+1) (T.child p j)) T =
      T.modify p fun m => { m with childrens := shiftUp 0 lo n m.childrens } := by
  refine (forDown_both (f := fun _ => id) (g := fun j l => l.set (j+1) (l.getD j 0)) lo n
    fun _ _ => rfl).trans ?_
  simp only [forDown_id]
  rfl

end Loops

section Operations
variable {T : Btree} {x y z l r : Ptr}

theorem createNode_node_ne {p : Ptr} {b : Bool} (h : p ≠ T.next) :
    (btreeCreateNode T b).node p = T.node p := update_of_ne h ..

theorem createNode_node {b : Bool} : (btreeCreateNode T b).node T.next =
    ⟨List.replicate (2*T.t-1) 0,List.replicate (2*T.t) 0,0,b⟩ := update_self ..

/-- The last part of a split: `x` gets the new child `z` and the middle key. -/
theorem insertChild_stage {i j : ℕ} (hxy : x ≠ y) :
    (let T₁ := forDown (i+1) (T.num x-i) (fun j T => T.setChild x (j+1) (T.child x j)) T
      let T₂ := T₁.setChild x (i+1) z
      let T₃ := forDown i (T₂.num x-i) (fun j T => T.setKey x (j+1) (T.key x j)) T₂
      let T₄ := T₃.setKey x i (T₃.key y j)
      T₄.setNum x (T₄.num x+1)) = T.modify x (BtreeNode.insertChild i (T.key y j) z) := by
  simp only [shiftUp_childrens, shiftUp_keys]
  simp only [setChild, setKey, setNum, modify_modify, num, key, modify_node_self,
    modify_node_ne hxy.symm]
  exact modify_congr rfl

/-- The new node first gets its keys and children, then its sibling and its parent change. -/
theorem btreeSplitChild_eq {i : ℕ} (hy : T.child x i = y) (hxy : x ≠ y) (hyz : y ≠ T.next) :
    btreeSplitChild T x i =
      (((btreeCreateNode T (T.leaf y)).modify T.next fun _ => (T.node y).upperHalf T.t).modify y
        fun n => { n with num := T.t-1 }).modify x
          (BtreeNode.insertChild i (T.key y (T.t-1)) T.next) := by
  unfold btreeSplitChild
  extract_lets t y' z T₁ T₂ T₃ T₄ T₅ T₆ T₇ T₈ T₉
  obtain rfl : y' = y := hy
  have hy₁ : T₁.node y' = T.node y' := createNode_node_ne hyz
  have hy₂ : T₂.node y' = T.node y' := (modify_node_ne hyz).trans hy₁
  have hz₁ : T₁.node z = ⟨List.replicate (2*t-1) 0,List.replicate (2*t) 0,0,T.leaf y'⟩ :=
    createNode_node
  have h₃ : T₃ = T₂.modify z fun m =>
      { m with keys := copyInto 0 0 t (t-1) (T.node y').keys m.keys } := by
    have hcopy := copy_keys (T := T₂) hyz.symm 0 t (t-1)
    simp only [Nat.zero_add] at hcopy
    rw [← hy₂]
    exact hcopy
  have hy₃ : T₃.node y' = T.node y' := by rw [h₃, modify_node_ne hyz, hy₂]
  have h₄ : T₄ = T₁.modify z fun _ => (T.node y').upperHalf t := by
    have hcopy := copy_childrens (T := T₃) hyz.symm 0 t t
    simp only [Nat.zero_add] at hcopy
    have hleaf : T₃.leaf y' = (T.node y').leaf := congrArg BtreeNode.leaf hy₃
    simp only [T₄, hleaf]
    split
    · next hl =>
      rw [h₃, show T₂ = T₁.modify z _ from rfl, modify_modify]
      exact modify_congr (by simp [hz₁,BtreeNode.upperHalf,hl,leaf])
    · next hl =>
      rw [hcopy, hy₃, h₃, show T₂ = T₁.modify z _ from rfl, modify_modify, modify_modify]
      exact modify_congr (by simp [hz₁,BtreeNode.upperHalf,hl,leaf])
  have hy₅ : T₅.key y' (t-1) = T.key y' (t-1) := by
    rw [key, show T₅ = T₄.modify y' _ from rfl, modify_node_self, h₄, modify_node_ne hyz, hy₁, key]
  refine (insertChild_stage (T := T₅) hxy).trans ?_
  rw [hy₅, show T₅ = T₄.modify y' _ from rfl, h₄]

/-- The first part of a merge: the right node is appended to the left one. -/
theorem absorb_stage {k : ℤ} (hlr : l ≠ r) :
    (let T₁ := T.setKey l (T.t-1) k
      let T₂ := forUp 0 (T.t-1) (fun i T' => T'.setKey l (T.t+i) (T'.key r i)) T₁
      let T₃ := if T₂.leaf l then T₂
        else forUp 0 T.t (fun i T' => T'.setChild l (T.t+i) (T'.child r i)) T₂
      T₃.setNum l (T₃.num l+T.t)) = T.modify l (BtreeNode.absorb T.t k (T.node r)) := by
  have hk : ∀ T' : Btree, forUp 0 (T.t-1) (fun i T' => T'.setKey l (T.t+i) (T'.key r i)) T' = _ :=
    fun T' => copy_keys hlr T.t 0 (T.t-1)
  have hc : ∀ T' : Btree, forUp 0 T.t (fun i T' => T'.setChild l (T.t+i) (T'.child r i)) T' = _ :=
    fun T' => copy_childrens hlr T.t 0 T.t
  simp only [hk, hc]
  simp only [setKey, setNum, modify_modify, num, leaf, modify_node_self, modify_node_ne hlr.symm]
  split
  · next hl =>
    have hl' : (T.node l).leaf = true := hl
    simp only [modify_modify, modify_node_self]
    exact modify_congr (by simp [BtreeNode.absorb,hl'])
  · next hl =>
    have hl' : (T.node l).leaf = false := by simpa using hl
    simp only [modify_modify, modify_node_self]
    exact modify_congr (by simp [BtreeNode.absorb,hl'])

/-- The last part of a merge: `x` loses the separator and the right child. -/
theorem closeGap_stage {i : ℕ} :
    (let T₁ := forUp (i+1) (T.num x-(i+1)) (fun i T =>
        (T.setKey x (i-1) (T.key x i)).setChild x i (T.child x (i+1))) T
      let T₂ := T₁.setChild x (max (i+1) (T.num x)+1) 0
      T₂.setNum x (T₂.num x-1)) = T.modify x (BtreeNode.closeGap i) := by
  have hloop : ∀ n, forUp (i+1) n (fun i T =>
      (T.setKey x (i-1) (T.key x i)).setChild x i (T.child x (i+1))) T = T.modify x fun m =>
        { m with keys := shiftDown 0 i n m.keys, childrens := shiftDown 0 (i+1) n m.childrens } := by
    intro n
    refine (forUp_both (p := x) (f := fun i l => l.set (i-1) (l.getD i 0))
      (g := fun i l => l.set i (l.getD (i+1) 0)) (i+1) n fun j T => ?_).trans ?_
    · simp only [setKey, setChild, key, child, modify_modify]
      exact modify_congr rfl
    · simp only [forUp_succ (fun i (l : List ℤ) => l.set (i-1) (l.getD i 0))]
      rfl
  simp only [hloop]
  simp only [setChild, setNum, modify_modify, num, modify_node_self]
  exact modify_congr rfl

/-- A merge at `x`, which is the root if it had only one key. -/
theorem btreeMerge_eq {i : ℕ} (hl : T.child x i = l) (hr : T.child x (i+1) = r) (hlr : l ≠ r)
    (hxl : x ≠ l) :
    btreeMerge T x i =
      (let T' := ((T.modify l (BtreeNode.absorb T.t (T.key x i) (T.node r))).free r).modify x
          (BtreeNode.closeGap i)
        if T.num x-1 = 0 then (T'.setRoot l).free x else T') := by
  unfold btreeMerge
  extract_lets t left right T₁ T₂ T₃ T₄ T₅ j T₆ T₇ T₈
  obtain rfl : left = l := hl
  obtain rfl : right = r := hr
  have h₄ : T₄ = T.modify left (BtreeNode.absorb T.t (T.key x i) (T.node right)) := absorb_stage hlr
  have hnum : T₅.num x = T.num x := by
    rw [num, show T₅ = T₄.free right from rfl, h₄, free_node, modify_node_ne hxl, num]
  have h₈ : T₈ = T₅.modify x (BtreeNode.closeGap i) := closeGap_stage
  have hnum' : T₈.num x = T.num x-1 := by
    rw [num, h₈, modify_node_self, ← hnum]
    rfl
  rw [hnum', h₈, show T₅ = T₄.free right from rfl, h₄]
  rfl

/-- What `btree_split_child` leaves: the halves of `y`, the upper one in the new node, and a parent with
one key and one child more. -/
structure Divided (T T' : Btree) (x y : Ptr) (i : ℕ) : Prop where
  t : T'.t = T.t
  root : T'.root = T.root
  next : T'.next = T.next+1
  parent : T'.node x = (T.node x).insertChild i (T.key y (T.t-1)) T.next
  left : T'.node y = { T.node y with num := T.t-1 }
  right : T'.node T.next = (T.node y).upperHalf T.t
  other : ∀ q, q ≠ x → q ≠ y → q ≠ T.next → T'.node q = T.node q
  live_new : T'.live T.next = true
  live : ∀ q, q ≠ T.next → T'.live q = T.live q

theorem btreeSplitChild_divided {i : ℕ} (hy : T.child x i = y) (hxy : x ≠ y) (hxz : x ≠ T.next)
    (hyz : y ≠ T.next) : Divided T (btreeSplitChild T x i) x y i := by
  rw [btreeSplitChild_eq hy hxy hyz]
  refine ⟨rfl,rfl,rfl,?_,?_,?_,fun q h₁ h₂ h₃ => ?_,update_self ..,fun q hq => update_of_ne hq ..⟩
  · rw [modify_node_self, modify_node_ne hxy, modify_node_ne hxz, createNode_node_ne hxz]
  · rw [modify_node_ne hxy.symm, modify_node_self, modify_node_ne hyz, createNode_node_ne hyz]
  · rw [modify_node_ne hxz.symm, modify_node_ne hyz.symm, modify_node_self]
  · rw [modify_node_ne h₁, modify_node_ne h₂, modify_node_ne h₃, createNode_node_ne h₃]

/-- What `btree_merge` leaves: `l` has taken over `r`, which is free, and the parent has one key and one
child less. A parent that had only one key makes place for `l` as the root. -/
structure Merged (T T' : Btree) (x l r : Ptr) (i : ℕ) : Prop where
  t : T'.t = T.t
  next : T'.next = T.next
  parent : T'.node x = (T.node x).closeGap i
  left : T'.node l = BtreeNode.absorb T.t (T.key x i) (T.node r) (T.node l)
  other : ∀ q, q ≠ x → q ≠ l → T'.node q = T.node q
  live : ∀ q, q ≠ x → q ≠ r → T'.live q = T.live q
  kept : 2 ≤ T.num x → T'.root = T.root ∧ ∀ q, q ≠ r → T'.live q = T.live q
  collapsed : T.num x = 1 → T'.root = l ∧ T'.live x = false

theorem btreeMerge_merged {i : ℕ} (hl : T.child x i = l) (hr : T.child x (i+1) = r) (hlr : l ≠ r)
    (hxl : x ≠ l) : Merged T (btreeMerge T x i) x l r i := by
  rw [btreeMerge_eq hl hr hlr hxl]
  extract_lets T₁
  have hparent : T₁.node x = (T.node x).closeGap i := by
    rw [modify_node_self, free_node, modify_node_ne hxl]
  have hleft : T₁.node l = BtreeNode.absorb T.t (T.key x i) (T.node r) (T.node l) := by
    rw [modify_node_ne hxl.symm, free_node, modify_node_self]
  have hother : ∀ q, q ≠ x → q ≠ l → T₁.node q = T.node q := by
    intro q h₁ h₂
    rw [modify_node_ne h₁, free_node, modify_node_ne h₂]
  have hlive : ∀ q, q ≠ r → T₁.live q = T.live q := fun q hq => update_of_ne hq ..
  split
  · next hzero =>
    refine ⟨rfl,rfl,hparent,hleft,hother,fun q hqx hqr => ?_,fun hkept => ?_,
      fun _ => ⟨rfl,update_self ..⟩⟩
    · exact (update_of_ne hqx ..).trans (hlive q hqr)
    · omega
  · next hpos =>
    refine ⟨rfl,rfl,hparent,hleft,hother,fun q _ => hlive q,fun _ => ⟨rfl,hlive⟩,fun hone => ?_⟩
    omega

theorem removeFromLeaf_eq {i : ℕ} :
    removeFromLeaf T x i =
      (let T' := T.modify x (BtreeNode.removeKey i)
        if T.num x-1 = 0 then (T'.free x).setRoot 0 else T') := by
  have h : (let T₁ := forUp i (T.num x-1-i) (fun j T => T.setKey x j (T.key x (j+1))) T
      let T₂ := T₁.setKey x (T₁.num x-1) 0
      T₂.setNum x (T₂.num x-1)) = T.modify x (BtreeNode.removeKey i) := by
    simp only [shiftDown_keys]
    simp only [setKey, setNum, modify_modify, num, modify_node_self]
    exact modify_congr rfl
  unfold removeFromLeaf
  extract_lets T₁ T₂ T₃
  rw [show T₃ = T.modify x (BtreeNode.removeKey i) from h]
  simp only [num, modify_node_self]
  rfl

/-- The loop in a leaf stops where a scan from the right stops. -/
theorem shiftGreater_eq (k : ℤ) (n : ℕ) (T : Btree) (i : ℕ)
    (hi : scanDown (fun j => T.key x j > k) n = i) :
    shiftGreater x k n T = (i,T.modify x fun m => { m with keys := shiftUp 0 i (n-i) m.keys }) := by
  induction n generalizing T with
  | zero =>
    obtain rfl : 0 = i := hi
    exact congrArg (Prod.mk _) modify_id.symm
  | succ n ih =>
    rw [scanDown] at hi
    rw [shiftGreater]
    by_cases hk : T.key x n > k
    · rw [if_pos hk]
      simp only [hk, decide_true, if_true] at hi
      have hle : i ≤ n := hi ▸ scanDown_le _ n
      have hsame : scanDown (fun j => (T.setKey x (n+1) (T.key x n)).key x j > k) n = i := by
        rw [← hi]
        refine scanDown_congr fun j hj => ?_
        simp [setKey,key,List.getElem?_set_ne (show n+1 ≠ j by omega)]
      rw [ih _ hsame, setKey, modify_modify, show n+1-i = n-i+1 by omega]
      refine congrArg (Prod.mk i) (modify_congr ?_)
      simp [shiftUp,forDown,key,show i+(n-i) = n by omega]
    · rw [if_neg hk]
      simp only [hk, decide_false, Bool.false_eq_true, if_false] at hi
      subst hi
      rw [Nat.sub_self]
      exact congrArg (Prod.mk _) modify_id.symm

/-- Right child to child: the separator goes down and the first key of `r` goes up. -/
theorem borrowFromNext_eq {i : ℕ} (hxr : x ≠ r) (hyr : y ≠ r) :
    borrowFromNext T x i y r =
      ((T.modify y (BtreeNode.pushBack (T.key x i) (T.child r 0))).modify x
        fun n => { n with keys := n.keys.set i (T.key r 0) }).modify r BtreeNode.popFront := by
  have hloop : ∀ n (T : Btree), forUp 0 n (fun i T =>
      (T.setKey r i (T.key r (i+1))).setChild r i (T.child r (i+1))) T = T.modify r fun m =>
        { m with keys := shiftDown 0 0 n m.keys, childrens := shiftDown 0 0 n m.childrens } := by
    intro n T
    refine forUp_both (p := r) (f := fun i l => l.set i (l.getD (i+1) 0))
      (g := fun i l => l.set i (l.getD (i+1) 0)) 0 n fun j T => ?_
    simp only [setKey, setChild, key, child, modify_modify]
    exact modify_congr rfl
  unfold borrowFromNext
  simp only [hloop]
  simp only [setKey, setChild, setNum, modify_modify, num, key, child, modify_node_self,
    modify_node_ne hxr.symm, modify_node_ne hyr.symm]
  refine (congrArg (fun T => (modify T x _).modify r _) (modify_congr rfl)).trans (modify_congr ?_)
  rw [modify_node_ne hxr.symm, modify_node_ne hyr.symm]
  rfl

theorem borrowFromPrev_eq {i : ℕ} (hxy : x ≠ y) (hxl : x ≠ l) (hyl : y ≠ l) :
    borrowFromPrev T x i y l =
      ((T.modify y (BtreeNode.pushFront (T.key x (i-1)) (T.child l (T.num l)))).modify x
        fun n => { n with keys := n.keys.set (i-1) (T.key l (T.num l-1)) }).modify l
          BtreeNode.popBack := by
  have hloop : ∀ n (T : Btree), forDown 1 n (fun i T =>
      (T.setKey y i (T.key y (i-1))).setChild y (i+1) (T.child y i)) T = T.modify y fun m =>
        { m with keys := shiftUp 0 0 n m.keys, childrens := shiftUp 0 1 n m.childrens } := by
    intro n T
    refine (forDown_both (p := y) (f := fun i l => l.set i (l.getD (i-1) 0))
      (g := fun i l => l.set (i+1) (l.getD i 0)) 1 n fun j T => ?_).trans ?_
    · simp only [setKey, setChild, key, child, modify_modify]
      exact modify_congr rfl
    · simp only [forDown_succ (fun i (l : List ℤ) => l.set i (l.getD (i-1) 0)) 0]
      rfl
  unfold borrowFromPrev
  simp only [hloop]
  simp only [setKey, setChild, setNum, modify_modify, num, key, child, modify_node_self,
    modify_node_ne hxy, modify_node_ne hxl.symm, modify_node_ne hyl.symm]
  refine (congrArg (fun T => (modify T x _).modify l _) (modify_congr rfl)).trans (modify_congr ?_)
  rw [modify_node_ne hxl.symm, modify_node_ne hyl.symm]
  rfl

end Operations
end ServerKit.BTree
