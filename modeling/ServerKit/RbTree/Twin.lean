import ServerKit.RbTree.Refinement

/-! The red-black tree of `rbtree/rbtree.cpp`, a second program for the same calls. What it has word for
word as `rbtree/main.cpp` (the left rotation, the search and the links of `rbtree_insert`, the splice of
`rbtree_delete`, `rbtree_search`) is not repeated. -/
namespace ServerKit.RbTree
open Function BinaryTree ServerKit.Lib

variable {V : Type*}

namespace Twin

def findMin (fuel : ℕ) (T : Rbtree V) (x : Ptr) : Option Ptr :=
  whileLoop (fun x => T.left x ≠ T.nil) (fun x => T.left x) fuel x

def rbtreeSuccessor (fuel : ℕ) (T : Rbtree V) (x : Ptr) : Option Ptr :=
  let y := T.parent x
  if T.right x ≠ T.nil then
    findMin fuel T (T.right x)
  else
    (whileLoop (fun s : Ptr × Ptr => s.2 ≠ T.nil ∧ s.1 = T.right s.2)
      (fun s => (s.2,T.parent s.2)) fuel (x,y)).map Prod.snd

/-- Here the left child of the parent is tested first. -/
def rbtreeRightRotate (T : Rbtree V) (x : Ptr) : Rbtree V :=
  let y := T.left x
  let T₁ := T.setLeft x (T.right y)
  let T₂ := if T₁.right y ≠ T₁.nil then T₁.setParent (T₁.right y) x else T₁
  let T₃ := T₂.setParent y (T₂.parent x)
  let T₄ :=
    if T₃.parent x = T₃.nil then T₃.setRoot y
    else if x = T₃.left (T₃.parent x) then T₃.setLeft (T₃.parent x) y
    else T₃.setRight (T₃.parent x) y
  let T₅ := T₄.setRight y x
  T₅.setParent x y

/-- The arm taken when `z->parent` is a left child. Here `y` is the grandparent. -/
def insertFixupLeftArm (T : Rbtree V) (z : Ptr) : Rbtree V × Ptr :=
  let y := T.parent (T.parent z)
  if T.color (T.right y) = .RED then
    let T₁ := T.setColor (T.parent z) .BLACK
    let T₂ := T₁.setColor y .RED
    let T₃ := T₂.setColor (T₂.right y) .BLACK
    (T₃,y)
  else
    let s := if z = T.right (T.parent z) then (rbtreeLeftRotate T (T.parent z),T.parent z) else (T,z)
    let T₁ := s.1.setColor (s.1.parent s.2) .BLACK
    let T₂ := T₁.setColor (T₁.parent (T₁.parent s.2)) .RED
    (rbtreeRightRotate T₂ (T₂.parent (T₂.parent s.2)),s.2)

/-- The `else` arm, which recolours in another order. -/
def insertFixupRightArm (T : Rbtree V) (z : Ptr) : Rbtree V × Ptr :=
  let y := T.parent (T.parent z)
  if T.color (T.left y) = .RED then
    let T₁ := T.setColor (T.parent z) .BLACK
    let T₂ := T₁.setColor (T₁.left y) .BLACK
    let T₃ := T₂.setColor y .RED
    (T₃,y)
  else
    let s := if z = T.left (T.parent z) then (rbtreeRightRotate T (T.parent z),T.parent z) else (T,z)
    let T₁ := s.1.setColor (s.1.parent s.2) .BLACK
    let T₂ := T₁.setColor (T₁.parent (T₁.parent s.2)) .RED
    (rbtreeLeftRotate T₂ (T₂.parent (T₂.parent s.2)),s.2)

def insertFixupPass (s : Rbtree V × Ptr) : Rbtree V × Ptr :=
  if s.1.parent s.2 = s.1.left (s.1.parent (s.1.parent s.2)) then insertFixupLeftArm s.1 s.2
  else insertFixupRightArm s.1 s.2

def rbtreeInsertFixup (fuel : ℕ) (T : Rbtree V) (z : Ptr) : Option (Rbtree V) :=
  (whileLoop (fun s : Rbtree V × Ptr => s.1.color (s.1.parent s.2) = .RED)
    insertFixupPass fuel (T,z)).map fun s => s.1.setColor s.1.root .BLACK

def rbtreeInsert (fuel : ℕ) (T : Rbtree V) (z : Ptr) : Option (Rbtree V) :=
  (loop (insertDescendPass T z) fuel (T.nil,T.root)).bind fun
    | none => some T
    | some y => rbtreeInsertFixup fuel (insertLink T z y) z

def deleteFixupLeftTail (T : Rbtree V) (x w : Ptr) : Rbtree V × Ptr :=
  if T.color (T.left w) = .BLACK ∧ T.color (T.right w) = .BLACK then
    let T₁ := T.setColor w .RED
    (T₁,T₁.parent x)
  else
    let s :=
      if T.color (T.right w) = .BLACK then
        let T₁ := T.setColor (T.left w) .BLACK
        let T₂ := T₁.setColor w .RED
        let T₃ := rbtreeRightRotate T₂ w
        (T₃,T₃.right (T₃.parent x))
      else (T,w)
    let T₁ := s.1.setColor s.2 (s.1.color (s.1.parent x))
    let T₂ := T₁.setColor (T₁.parent x) .BLACK
    let T₃ := T₂.setColor (T₂.right s.2) .BLACK
    let T₄ := rbtreeLeftRotate T₃ (T₃.parent x)
    (T₄,T₄.root)

def deleteFixupLeftArm (T : Rbtree V) (x : Ptr) : Rbtree V × Ptr :=
  let w := T.right (T.parent x)
  let s :=
    if T.color w = .RED then
      let T₁ := T.setColor w .BLACK
      let T₂ := T₁.setColor (T₁.parent x) .RED
      let T₃ := rbtreeLeftRotate T₂ (T₂.parent x)
      (T₃,T₃.right (T₃.parent x))
    else (T,w)
  deleteFixupLeftTail s.1 x s.2

def deleteFixupRightTail (T : Rbtree V) (x w : Ptr) : Rbtree V × Ptr :=
  if T.color (T.left w) = .BLACK ∧ T.color (T.right w) = .BLACK then
    let T₁ := T.setColor w .RED
    (T₁,T₁.parent x)
  else
    let s :=
      if T.color (T.left w) = .BLACK then
        let T₁ := T.setColor (T.right w) .BLACK
        let T₂ := T₁.setColor w .RED
        let T₃ := rbtreeLeftRotate T₂ w
        (T₃,T₃.left (T₃.parent x))
      else (T,w)
    let T₁ := s.1.setColor s.2 (s.1.color (s.1.parent x))
    let T₂ := T₁.setColor (T₁.parent x) .BLACK
    let T₃ := T₂.setColor (T₂.left s.2) .BLACK
    let T₄ := rbtreeRightRotate T₃ (T₃.parent x)
    (T₄,T₄.root)

def deleteFixupRightArm (T : Rbtree V) (x : Ptr) : Rbtree V × Ptr :=
  let w := T.left (T.parent x)
  let s :=
    if T.color w = .RED then
      let T₁ := T.setColor w .BLACK
      let T₂ := T₁.setColor (T₁.parent x) .RED
      let T₃ := rbtreeRightRotate T₂ (T₂.parent x)
      (T₃,T₃.left (T₃.parent x))
    else (T,w)
  deleteFixupRightTail s.1 x s.2

def deleteFixupPass (s : Rbtree V × Ptr) : Rbtree V × Ptr :=
  if s.2 = s.1.left (s.1.parent s.2) then deleteFixupLeftArm s.1 s.2
  else deleteFixupRightArm s.1 s.2

def rbtreeDeleteFixup (fuel : ℕ) (T : Rbtree V) (x : Ptr) : Option (Rbtree V) :=
  (whileLoop (fun s : Rbtree V × Ptr => s.2 ≠ s.1.root ∧ s.1.color s.2 = .BLACK)
    deleteFixupPass fuel (T,x)).map fun s => s.1.setColor s.2 .BLACK

def rbtreeDelete (fuel : ℕ) (T : Rbtree V) (z : Ptr) : Option (Rbtree V × Ptr) :=
  (if T.left z = T.nil ∨ T.right z = T.nil then some z else rbtreeSuccessor fuel T z).bind fun y =>
    let x := if T.left y ≠ T.nil then T.left y else if T.right y ≠ T.nil then T.right y else T.nil
    let T₁ := deleteSplice T y x
    let T₂ := if y ≠ z then (T₁.setKey z (T₁.key y)).setValue z (T₁.value y) else T₁
    if T₂.color y = .BLACK then (rbtreeDeleteFixup fuel T₂ x).map fun T => (T,y)
    else some (T₂,y)

/-- One call of the second program. -/
inductive CallStep : Rbtree V → Call V → Rbtree V → Prop
  | insert {T T' p color right left parent k v} (hp : p ≠ T.nil) (fresh : ¬ Reachable T p)
      (ret : Returns (fun n => rbtreeInsert n (T.store p color right left parent k v) p) T') :
      CallStep T (.insert k v) T'
  | delete {T T' p y k} (found : Returns (fun n => rbtreeSearch n T k) p) (hp : p ≠ T.nil)
      (ret : Returns (fun n => rbtreeDelete n T p) (T',y)) : CallStep T (.delete k) T'

end Twin

/-- The node hangs at the root, or from a node of which it is one child and not the other. -/
structure Hung (T : Rbtree V) (x : Ptr) : Prop where
  parent_ne : T.parent x ≠ x
  side : T.parent x = T.nil ∨ (x = T.left (T.parent x) ↔ x ≠ T.right (T.parent x))

section Rotate
variable {T : Rbtree V} {C : CellContext V} {x y : Cell V} {a b c : CellTree V}

theorem Focus.hung (h : Focus T C (.node x a b)) : Hung T x.ptr := by
  have hpar : T.parent x.ptr = holeParent T.nil C := h.sub.1.parent
  refine ⟨hpar.trans_ne (h.ne_holeParent (by simp)).symm,?_⟩
  rw [hpar]
  cases C with
  | nil => exact .inl rfl
  | cons f C =>
    obtain ⟨side,p,t⟩ := f
    have hne := h.root_ne_sibling
    have hp := h.stores_frame
    right
    cases side with
    | left =>
      have hl : T.left p.ptr = x.ptr := hp.left
      have hr : T.right p.ptr = rootPtr T.nil t := hp.right
      simp [hl, hr, hne]
    | right =>
      have hl : T.left p.ptr = rootPtr T.nil t := hp.left
      have hr : T.right p.ptr = x.ptr := hp.right
      simp [hl, hr, hne]

/-- What the right rotation relies on, besides the colours. -/
structure Turnable (T : Rbtree V) (x : Ptr) : Prop where
  hung : Hung T x
  left_ne : T.left x ≠ x
  inner_ne : T.right (T.left x) ≠ x

theorem Focus.turnable (h : Focus T C (.node x (.node y a b) c)) : Turnable T x.ptr := by
  have hsub := h.nodup_sub
  simp only [ptrs_node, List.nodup_append, List.nodup_cons, List.mem_append, List.mem_cons] at hsub
  have hleft : T.left x.ptr = y.ptr := h.sub.1.left
  have hinner : T.right y.ptr = rootPtr T.nil b := h.sub.2.1.1.right
  refine ⟨h.hung,?_,?_⟩
  · rw [hleft]
    grind
  · rw [hleft, hinner]
    cases b with
    | nil => exact h.sub.1.ne_nil.symm
    | node d b₁ b₂ =>
      rw [rootPtr_node]
      have hd : d.ptr ∈ ptrs (.node d b₁ b₂) := by simp
      grind

/-- The two right rotations test the children of the parent in the opposite order. -/
theorem Turnable.rightRotate {x : Ptr} (h : Turnable T x) :
    Twin.rbtreeRightRotate T x = rbtreeRightRotate T x := by
  unfold Twin.rbtreeRightRotate rbtreeRightRotate
  dsimp only
  set T₁ := T.setLeft x (T.right (T.left x)) with hT₁
  set T₂ := if T₁.right (T.left x) ≠ T₁.nil then T₁.setParent (T₁.right (T.left x)) x else T₁ with hT₂
  set T₃ := T₂.setParent (T.left x) (T₂.parent x) with hT₃
  have hlinks : T₃.left = T₁.left ∧ T₃.right = T.right ∧ T₃.nil = T.nil := by
    rw [hT₃, hT₂]
    split <;> exact ⟨rfl,rfl,rfl⟩
  have hpar : T₃.parent x = T.parent x := by
    have hinner : T₂.parent x = T.parent x := by
      rw [hT₂]
      split
      · exact update_of_ne h.inner_ne.symm ..
      · rfl
    exact (update_of_ne h.left_ne.symm ..).trans hinner
  have hleft : T₃.left (T.parent x) = T.left (T.parent x) := by
    rw [hlinks.1]
    exact update_of_ne h.hung.parent_ne ..
  rw [hpar, hlinks.2.2, hleft, hlinks.2.1]
  obtain hroot | hside := h.hung.side
  · rw [if_pos hroot, if_pos hroot]
  · by_cases hl : x = T.left (T.parent x)
    · rw [if_pos hl, if_neg (hside.mp hl)]
    · have hr : x = T.right (T.parent x) := by
        by_contra hr
        exact hl (hside.mpr hr)
      rw [if_neg hl, if_pos hr]

theorem Turnable.setColor {x : Ptr} (h : Turnable T x) (p : Ptr) (k : Color) :
    Turnable (T.setColor p k) x := ⟨⟨h.hung.parent_ne,h.hung.side⟩,h.left_ne,h.inner_ne⟩

end Rotate

section Insert
variable {T : Rbtree V} {C : CellContext V} {z p g : Cell V} {l r sib u : CellTree V} {n : ℕ} {d : Side}

/-- The rotation at the grandparent. -/
theorem Focus.turnable_grandparent (h : Focus T (⟨.left,p,sib⟩::⟨.left,g,u⟩::C) (.node z l r)) :
    Turnable T (T.parent (T.parent z.ptr)) := by
  have hzp : T.parent z.ptr = p.ptr := h.sub.1.parent
  have hpg : T.parent p.ptr = g.ptr := h.stores_frame.parent
  rw [hzp, hpg]
  exact (focus_left.mp (focus_left.mp h)).turnable

theorem twin_insertFixupLeftArm (h : Focus T (⟨d,p,sib⟩::⟨.left,g,u⟩::C) (.node z l r)) :
    Twin.insertFixupLeftArm T z.ptr = insertFixupLeftArm T z.ptr := by
  have hzp : T.parent z.ptr = p.ptr := h.sub.1.parent
  have hpg : T.parent p.ptr = g.ptr := h.stores_frame.parent
  have hf := focus_fill.mp h
  have hgu : T.right g.ptr ≠ g.ptr := by
    rw [show T.right g.ptr = rootPtr T.nil u from hf.stores_frame.right]
    cases u with
    | nil => exact hf.stores_frame.ne_nil.symm
    | node c a b => exact (focus_right.mpr (focus_left.mp hf)).ne_of_mem (by simp) (by simp)
  unfold Twin.insertFixupLeftArm insertFixupLeftArm
  simp only [hzp, hpg]
  by_cases hred : T.color (T.right g.ptr) = .RED
  · rw [if_pos hred, if_pos hred]
    simp only [Rbtree.setColor, hzp, hpg]
    rw [update_comm hgu.symm]
  · rw [if_neg hred, if_neg hred]
    refine congrArg (·,_) (Turnable.rightRotate (.setColor (.setColor ?_ _ _) _ _))
    cases d with
    | left =>
      have hne : z.ptr ≠ T.right p.ptr := by
        rw [show T.right p.ptr = _ from h.stores_frame.right]
        exact h.root_ne_sibling
      rw [if_neg hne]
      exact h.turnable_grandparent
    | right =>
      have heq : z.ptr = T.right p.ptr := (h.stores_frame.right).symm
      rw [if_pos heq]
      exact (focus_left.mpr (focus_right.mp h).leftRotate).turnable_grandparent

theorem twin_insertFixupRightArm {d' : Side} (h : Focus T (⟨d,p,sib⟩::⟨d',g,u⟩::C) (.node z l r)) :
    Twin.insertFixupRightArm T z.ptr = insertFixupRightArm T z.ptr := by
  have hzp : T.parent z.ptr = p.ptr := h.sub.1.parent
  have hrotate (hz : z.ptr = T.left p.ptr) :
      Twin.rbtreeRightRotate T p.ptr = rbtreeRightRotate T p.ptr := by
    cases d with
    | left => exact (focus_left.mp h).turnable.rightRotate
    | right =>
      rw [show T.left p.ptr = _ from h.stores_frame.left] at hz
      exact absurd hz h.root_ne_sibling
  unfold Twin.insertFixupRightArm insertFixupRightArm
  by_cases hred : T.color (T.left (T.parent (T.parent z.ptr))) = .RED
  · rw [if_pos hred, if_pos hred]
    rfl
  · rw [if_neg hred, if_neg hred]
    by_cases hz : z.ptr = T.left (T.parent z.ptr)
    · rw [hzp] at hz ⊢
      rw [if_pos hz, if_pos hz, hrotate hz]
    · rw [if_neg hz, if_neg hz]

theorem InsertBelow.twin_pass {f g : Frame (Cell V)} {k : Color} (h : InsertBelow T C f g z l r k n) :
    Twin.insertFixupPass (T,z.ptr) = insertFixupPass (T,z.ptr) := by
  obtain ⟨d',g,u⟩ := g
  obtain ⟨d,p,sib⟩ := f
  have hzp : T.parent z.ptr = p.ptr := h.focus.sub.1.parent
  have hpg : T.parent p.ptr = g.ptr := h.focus.stores_frame.parent
  unfold Twin.insertFixupPass insertFixupPass
  by_cases hside : T.parent z.ptr = T.left (T.parent (T.parent z.ptr))
  · rw [if_pos hside, if_pos hside]
    cases d' with
    | left => exact twin_insertFixupLeftArm h.focus
    | right =>
      have hf := focus_fill.mp h.focus
      rw [hzp, hpg, show T.left g.ptr = rootPtr T.nil u from hf.stores_frame.left] at hside
      cases d
      · exact absurd hside hf.root_ne_sibling
      · exact absurd hside hf.root_ne_sibling
  · rw [if_neg hside, if_neg hside]
    exact twin_insertFixupRightArm h.focus

/-- The two fixups of an insertion agree, whatever the fuel. -/
theorem twin_insertFixup {x : Ptr} (h : InsertHead (T,x)) (fuel : ℕ) :
    Twin.rbtreeInsertFixup fuel T x = rbtreeInsertFixup fuel T x := by
  unfold Twin.rbtreeInsertFixup rbtreeInsertFixup
  rw [whileLoop_congr (I := fun s => InsertHead s ∨ s.1.color (s.1.parent s.2) = .BLACK) _ (.inl h)]
  rintro ⟨T,x⟩ (hhead | hblack) hred
  · obtain ⟨C,f,g,z,l,r,k,n,rfl,hbelow⟩ := hhead.below hred
    exact ⟨hbelow.twin_pass,hbelow.pass⟩
  · cases hblack.symm.trans hred

end Insert

section Delete
variable {T : Rbtree V} {C : CellContext V} {p w : Cell V} {s wl wr : CellTree V} {x : Ptr} {n : ℕ}

/-- A subtree whose root is not BLACK has a root. -/
theorem Linked.of_not_black {a : Ptr} {t : CellTree V} (h : Linked T a t) (hblack : T.color T.nil = .BLACK)
    (hred : T.color (rootPtr T.nil t) ≠ .BLACK) : ∃ c l r, t = .node c l r := by
  cases t with
  | nil => exact absurd hblack hred
  | node c l r => exact ⟨c,l,r,rfl⟩

theorem twin_deleteFixupLeftTail (h : At T (⟨.left,p,.node w wl wr⟩::C) s x) :
    Twin.deleteFixupLeftTail T x w.ptr = deleteFixupLeftTail T x w.ptr := by
  have hf : Focus T (⟨.right,p,s⟩::C) (.node w wl wr) := focus_right.mpr (focus_left.mp h.focus)
  have hleft : T.left w.ptr = rootPtr T.nil wl := hf.sub.1.left
  unfold Twin.deleteFixupLeftTail deleteFixupLeftTail
  by_cases hboth : T.color (T.left w.ptr) = .BLACK ∧ T.color (T.right w.ptr) = .BLACK
  · rw [if_pos hboth, if_pos hboth]
  · rw [if_neg hboth, if_neg hboth]
    by_cases hfar : T.color (T.right w.ptr) = .BLACK
    · have hnear : T.color (rootPtr T.nil wl) ≠ .BLACK := by
        rw [← hleft]
        exact fun hnear => hboth ⟨hnear,hfar⟩
      obtain ⟨a,al,ar,rfl⟩ := hf.sub.2.1.of_not_black h.nil_black hnear
      have hrotate := (hf.turnable.setColor (T.left w.ptr) .BLACK).setColor w.ptr .RED
      simp only [if_pos hfar, hrotate.rightRotate]
    · simp only [if_neg hfar]

/-- Once the sibling is BLACK, it is a node. -/
theorem twin_deleteFixupLeftArm {w : CellTree V} (h : At T (⟨.left,p,w⟩::C) s x)
    (hE : Expects (⟨.left,p,w⟩::C) .BLACK (n+1)) :
    Twin.deleteFixupLeftArm T x = deleteFixupLeftArm T x := by
  obtain ⟨⟨k,hw,-⟩,-⟩ := hE
  have hxp : T.parent x = p.ptr := h.parent
  have hpw : T.right p.ptr = rootPtr T.nil w := h.focus.stores_frame.right
  have hcw : T.color (rootPtr T.nil w) = k :=
    ((focus_fill.mp h.focus).sub.2.2.color_root h.nil_black).trans hw.color
  unfold Twin.deleteFixupLeftArm deleteFixupLeftArm
  simp only [hxp, hpw, hcw]
  cases k with
  | BLACK =>
    obtain ⟨c,wl,wr,i,j,rfl,-⟩ := hw.of_black_succ
    exact twin_deleteFixupLeftTail h
  | RED =>
    obtain ⟨c,wl,wr,rfl,-,hwl,-⟩ := hw.of_red
    obtain ⟨b,bl,br,i,j,rfl,-⟩ := hwl.of_black_succ
    have h₁ := deleteFixup_redSibling h
    have hpar := h₁.parent
    have hsib := h₁.focus.stores_frame.right
    simp only [rootPtr_node, if_pos, Rbtree.setColor, hxp, holeParent_cons] at h₁ hpar hsib ⊢
    rw [hpar, hsib]
    exact twin_deleteFixupLeftTail h₁

theorem twin_deleteFixupRightTail (h : At T (⟨.right,p,.node w wl wr⟩::C) s x) :
    Twin.deleteFixupRightTail T x w.ptr = deleteFixupRightTail T x w.ptr := by
  have hf : Focus T (⟨.left,p,s⟩::C) (.node w wl wr) := focus_left.mpr (focus_right.mp h.focus)
  have hright : T.right w.ptr = rootPtr T.nil wr := hf.sub.1.right
  have hxp : T.parent x = p.ptr := h.parent
  unfold Twin.deleteFixupRightTail deleteFixupRightTail
  by_cases hboth : T.color (T.left w.ptr) = .BLACK ∧ T.color (T.right w.ptr) = .BLACK
  · rw [if_pos hboth, if_pos hboth]
  · rw [if_neg hboth, if_neg hboth]
    have hlast {T' : Rbtree V} {w' : Cell V} {wl' wr' : CellTree V}
        (h' : At T' (⟨.right,p,.node w' wl' wr'⟩::C) s x) (a b c : Ptr) (i j k : Color) :
        Twin.rbtreeRightRotate (((T'.setColor a i).setColor b j).setColor c k) (T'.parent x) =
          rbtreeRightRotate (((T'.setColor a i).setColor b j).setColor c k) (T'.parent x) := by
      rw [show T'.parent x = p.ptr from h'.parent]
      have hturn := (focus_right.mp h'.focus).turnable
      exact (((hturn.setColor a i).setColor b j).setColor c k).rightRotate
    by_cases hfar : T.color (T.left w.ptr) = .BLACK
    · have hnear : T.color (rootPtr T.nil wr) ≠ .BLACK := by
        rw [← hright]
        exact fun hnear => hboth ⟨hfar,hnear⟩
      obtain ⟨a,al,ar,rfl⟩ := hf.sub.2.2.of_not_black h.nil_black hnear
      have h₁ := deleteFixup_redNephew_right h
      rw [rootPtr_node] at hright
      simp only [if_pos hfar, hright]
      exact congrArg (fun T => (T,T.root)) (hlast h₁ _ _ _ _ _ _)
    · simp only [if_neg hfar]
      exact congrArg (fun T => (T,T.root)) (hlast h _ _ _ _ _ _)

theorem twin_deleteFixupRightArm {w : CellTree V} (h : At T (⟨.right,p,w⟩::C) s x)
    (hE : Expects (⟨.right,p,w⟩::C) .BLACK (n+1)) :
    Twin.deleteFixupRightArm T x = deleteFixupRightArm T x := by
  obtain ⟨⟨k,hw,-⟩,-⟩ := hE
  have hxp : T.parent x = p.ptr := h.parent
  have hpw : T.left p.ptr = rootPtr T.nil w := h.focus.stores_frame.left
  have hcw : T.color (rootPtr T.nil w) = k :=
    ((focus_fill.mp h.focus).sub.2.1.color_root h.nil_black).trans hw.color
  unfold Twin.deleteFixupRightArm deleteFixupRightArm
  simp only [hxp, hpw, hcw]
  cases k with
  | BLACK =>
    obtain ⟨c,wl,wr,i,j,rfl,-⟩ := hw.of_black_succ
    exact twin_deleteFixupRightTail h
  | RED =>
    obtain ⟨c,wl,wr,rfl,-,-,hwr⟩ := hw.of_red
    obtain ⟨b,bl,br,i,j,rfl,-⟩ := hwr.of_black_succ
    have h₁ := deleteFixup_redSibling_right h
    have hrotate := ((focus_right.mp h.focus).turnable.setColor c.ptr .BLACK).setColor p.ptr .RED
    have hpar := h₁.parent
    have hsib := h₁.focus.stores_frame.left
    simp only [rootPtr_node, if_pos, Rbtree.setColor, hxp, holeParent_cons] at h₁ hrotate hpar hsib ⊢
    rw [hrotate.rightRotate, hpar, hsib]
    exact twin_deleteFixupRightTail h₁

theorem twin_deleteFixupPass {f : Frame (Cell V)} (h : At T (f::C) s x)
    (hE : Expects (f::C) .BLACK (n+1)) : Twin.deleteFixupPass (T,x) = deleteFixupPass (T,x) := by
  have hside := h.left_iff hE
  obtain ⟨side,p,w⟩ := f
  unfold Twin.deleteFixupPass deleteFixupPass
  cases side with
  | left =>
    rw [if_pos (hside.mpr rfl), if_pos (hside.mpr rfl)]
    exact twin_deleteFixupLeftArm h hE
  | right =>
    have hne : ¬ x = T.left (T.parent x) := fun hx => nomatch hside.mp hx
    rw [if_neg hne, if_neg hne]
    exact twin_deleteFixupRightArm h hE

/-- The two fixups of a deletion agree, whatever the fuel. -/
theorem twin_deleteFixup (h : DeleteHead (T,x)) (fuel : ℕ) :
    Twin.rbtreeDeleteFixup fuel T x = rbtreeDeleteFixup fuel T x := by
  unfold Twin.rbtreeDeleteFixup rbtreeDeleteFixup
  rw [whileLoop_congr (I := fun s => DeleteHead s ∨ s.2 = s.1.root) _ (.inl h)]
  rintro ⟨T,x⟩ (hhead | hroot) hcond
  · obtain ⟨f,C,s,n,hat,hs,hE⟩ := hhead.below hcond
    exact ⟨twin_deleteFixupPass hat hE,deleteFixupPass_head hat hs hE⟩
  · exact absurd hroot hcond.1

end Delete

section Calls
variable {T : Rbtree V} {t : CellTree V} {z : Ptr}

theorem twin_insert (hT : IsRbtree T t) (hzn : z ≠ T.nil) :
    ∃ T', Returns (fun n => rbtreeInsert n T z) T' ∧ Returns (fun n => Twin.rbtreeInsert n T z) T' := by
  by_cases hk : T.key z ∈ keys t
  · exact ⟨T,rbtreeInsert_existing hT hk,(insertDescend_existing hT hk).bind (Returns.const T)⟩
  · have hz : z ∉ ptrs t := fun hz => hk (hT.key_mem hz)
    obtain ⟨y,C,hret,-,-,-,hlink,hblack,hE⟩ := insert_place hT hz hzn hk
    obtain ⟨T',t',hfix,-⟩ := rbtreeInsertFixup_spec hlink hblack rfl RB.nil RB.nil hE
    have hhead : InsertHead (insertLink T z y,z) := .intro hlink hblack rfl RB.nil RB.nil hE
    have htwin : Returns (fun n => Twin.rbtreeInsertFixup n (insertLink T z y) z) T' :=
      Returns.congr (twin_insertFixup hhead) hfix
    exact ⟨T',hret.bind hfix,hret.bind htwin⟩

/-- The two programs choose the same node to take out. -/
theorem twin_delete (hT : IsRbtree T t) (hz : Reachable T z) :
    ∃ T' y, Returns (fun n => rbtreeDelete n T z) (T',y) ∧
      Returns (fun n => Twin.rbtreeDelete n T z) (T',y) := by
  obtain ⟨y,C,s,hchoice,-,hat,hlacking⟩ := delete_place hT ((reachable_iff hT.holds).mp hz)
  obtain ⟨T',-,y',-,-,hret,-⟩ := rbtreeDelete_correct T t z hT hz
  refine ⟨T',y',hret,?_⟩
  -- from a fuel on at which the node to take out is found, the programs are the same
  obtain ⟨N,hN⟩ := hchoice
  obtain ⟨M,hM⟩ := hret
  refine ⟨max N M,fun n hn => (Eq.trans ?_ (hM n (by omega)))⟩
  change Twin.rbtreeDelete n T z = rbtreeDelete n T z
  have hy : deleteChoice n T z = some y := hN n (by omega)
  have htwin : Twin.rbtreeDelete n T z = (deleteChoice n T z).bind fun y =>
      if (deleteUnlink T z y).color y = .BLACK then
        (Twin.rbtreeDeleteFixup n (deleteUnlink T z y) (deleteChild T y)).map fun T => (T,y)
      else some (deleteUnlink T z y,y) := rfl
  rw [htwin, rbtreeDelete_eq, hy, Option.bind_some, Option.bind_some]
  by_cases hblack : (deleteUnlink T z y).color y = .BLACK
  · rw [if_pos hblack, if_pos hblack, twin_deleteFixup (.intro hat (hlacking hblack))]
  · rw [if_neg hblack, if_neg hblack]

/-- Every step of the one program is a step of the other one. -/
theorem twin_callStep {T' : Rbtree V} {m : KeyMap V} {call : Call V} (hm : Holds T m) :
    CallStep T call T' ↔ Twin.CallStep T call T' := by
  obtain ⟨t,hT,-⟩ := hm
  have hinsert {p color right left parent k v} (hp : p ≠ T.nil) (fresh : ¬ Reachable T p) :
      Returns (fun n => rbtreeInsert n (T.store p color right left parent k v) p) T' ↔
        Returns (fun n => Twin.rbtreeInsert n (T.store p color right left parent k v) p) T' := by
    have hnew : IsRbtree (T.store p color right left parent k v) t :=
      store_isRbtree hT hp (mt (reachable_iff hT.holds).mpr fresh)
    obtain ⟨T₁,hret,htwin⟩ := twin_insert hnew hp
    exact hret.iff_of_both htwin
  have hdelete {p k y} (found : Returns (fun n => rbtreeSearch n T k) p) (hp : p ≠ T.nil) :
      Returns (fun n => rbtreeDelete n T p) (T',y) ↔
        Returns (fun n => Twin.rbtreeDelete n T p) (T',y) := by
    obtain ⟨c,hc,rfl,-⟩ := rbtreeSearch_linked_node hT found hp
    obtain ⟨T₁,y₁,hret,htwin⟩ := twin_delete hT ((reachable_iff hT.holds).mpr (List.mem_map_of_mem hc))
    exact hret.iff_of_both htwin
  constructor
  · intro h
    cases h with
    | insert hp fresh ret => exact .insert hp fresh ((hinsert hp fresh).mp ret)
    | delete found hp ret => exact .delete found hp ((hdelete found hp).mp ret)
  · intro h
    cases h with
    | insert hp fresh ret => exact .insert hp fresh ((hinsert hp fresh).mpr ret)
    | delete found hp ret => exact .delete found hp ((hdelete found hp).mpr ret)

theorem twin_run {T₀ : Rbtree V} {calls : List (Call V)} (h₀ : IsEmpty T₀) :
    Run CallStep T₀ calls T ↔ Run Twin.CallStep T₀ calls T := by
  have hholds {calls T} (h : Run CallStep T₀ calls T) : Holds T (mapAfter calls) :=
    h.simulates h₀.holds fun _ _ _ _ hs hstep => callStep_holds hs hstep
  constructor
  · intro h
    induction h with
    | nil => exact .nil
    | snoc run last ih => exact ih.snoc ((twin_callStep (hholds run)).mp last)
  · intro h
    induction h with
    | nil => exact .nil
    | snoc run last ih => exact ih.snoc ((twin_callStep (hholds ih)).mpr last)

/-- The two programs agree: on a red-black heap every insertion and every deletion of a linked node ends
in one and the same heap, with the same root and the same returned node; and so do all calls from the
empty tree on. -/
theorem programs_agree (T : Rbtree V) (t : CellTree V) (hT : IsRbtree T t) :
    (∀ z, z ≠ T.nil → ∃ T', Returns (fun n => rbtreeInsert n T z) T' ∧
      Returns (fun n => Twin.rbtreeInsert n T z) T') ∧
    (∀ z, Reachable T z → ∃ T' y, Returns (fun n => rbtreeDelete n T z) (T',y) ∧
      Returns (fun n => Twin.rbtreeDelete n T z) (T',y)) ∧
    ∀ T₀ : Rbtree V, IsEmpty T₀ → ∀ calls T', Run CallStep T₀ calls T' ↔ Run Twin.CallStep T₀ calls T' :=
  ⟨fun _ => twin_insert hT,fun _ => twin_delete hT,fun _ h₀ _ _ => twin_run h₀⟩

theorem programs_agree_sample :
    (∃ T', Returns (fun n => rbtreeInsert n sampleTree 8) T' ∧
      Returns (fun n => Twin.rbtreeInsert n sampleTree 8) T') ∧
    (∃ T' y, Returns (fun n => rbtreeDelete n sampleTree 1) (T',y) ∧
      Returns (fun n => Twin.rbtreeDelete n sampleTree 1) (T',y)) ∧
    ∃ T' y, Returns (fun n => rbtreeDelete n sampleTree 6) (T',y) ∧
      Returns (fun n => Twin.rbtreeDelete n sampleTree 6) (T',y) := by
  obtain ⟨hinsert,hdelete,-⟩ := programs_agree sampleTree _ sampleTree_isRbtree
  exact ⟨hinsert 8 (by decide),hdelete 1 (sampleTree_reachable (by decide)),
    hdelete 6 (sampleTree_reachable (by decide))⟩

end Calls
end ServerKit.RbTree
