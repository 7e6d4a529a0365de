import ServerKit.RbTree.Guarded

/-! On a red-black heap the guarded programs do not fault, and they do what the programs do. -/
namespace ServerKit.RbTree
open Function BinaryTree ServerKit.Lib

variable {V : Type}

/-- The rotation that takes a node down to the side. -/
def turn : Side → Rbtree V → Ptr → Rbtree V
  | .left => rbtreeLeftRotate
  | .right => rbtreeRightRotate

/-- The writes that put `y` in the place of `x`. -/
def Rbtree.replace (d : Side) (T : Rbtree V) (x y : Ptr) : Rbtree V :=
  if T.parent x = T.nil then T.setRoot y
  else if x = T.child d (T.parent x) then T.setChild d (T.parent x) y
  else T.setChild d.flip (T.parent x) y

/-- The writes of a rotation before that. -/
def turnStart (d : Side) (T : Rbtree V) (x : Ptr) : Rbtree V :=
  let y := T.child d.flip x
  let T₁ := T.setChild d.flip x (T.child d y)
  let T₂ := if T₁.child d y ≠ T₁.nil then T₁.setParent (T₁.child d y) x else T₁
  T₂.setParent y (T₂.parent x)

theorem turn_eq (d : Side) (T : Rbtree V) (x : Ptr) :
    turn d T x = (((turnStart d T x).replace d x (T.child d.flip x)).setChild d
      (T.child d.flip x) x).setParent x (T.child d.flip x) := by
  cases d <;> rfl

/-- The arms of the two fixups, on either side. -/
def insertArm (d : Side) (T : Rbtree V) (z : Ptr) : Rbtree V × Ptr :=
  let y := T.child d.flip (T.parent (T.parent z))
  if T.color y = .RED then
    let T₁ := T.setColor (T.parent z) .BLACK
    let T₂ := T₁.setColor y .BLACK
    let T₃ := T₂.setColor (T₂.parent (T₂.parent z)) .RED
    (T₃,T₃.parent (T₃.parent z))
  else
    let s := if z = T.child d.flip (T.parent z) then (turn d T (T.parent z),T.parent z) else (T,z)
    let T₁ := s.1.setColor (s.1.parent s.2) .BLACK
    let T₂ := T₁.setColor (T₁.parent (T₁.parent s.2)) .RED
    (turn d.flip T₂ (T₂.parent (T₂.parent s.2)),s.2)

theorem insertArm_left : insertArm (V := V) .left = insertFixupLeftArm := rfl
theorem insertArm_right : insertArm (V := V) .right = insertFixupRightArm := rfl

/-- The heap after the rotation at the sibling. -/
def nephewUp (d : Side) (T : Rbtree V) (w : Ptr) : Rbtree V :=
  let T₁ := T.setColor (T.child d w) .BLACK
  let T₂ := T₁.setColor w .RED
  turn d.flip T₂ w

def deleteNephew (d : Side) (T : Rbtree V) (x w : Ptr) : Rbtree V × Ptr :=
  let s :=
    if T.color (T.child d.flip w) = .BLACK then
      (nephewUp d T w,(nephewUp d T w).child d.flip ((nephewUp d T w).parent x))
    else (T,w)
  let T₁ := s.1.setColor s.2 (s.1.color (s.1.parent x))
  let T₂ := T₁.setColor (T₁.parent x) .BLACK
  let T₃ := T₂.setColor (T₂.child d.flip s.2) .BLACK
  let T₄ := turn d T₃ (T₃.parent x)
  (T₄,T₄.root)

def deleteTail (d : Side) (T : Rbtree V) (x w : Ptr) : Rbtree V × Ptr :=
  if T.color (T.left w) = .BLACK ∧ T.color (T.right w) = .BLACK then
    let T₁ := T.setColor w .RED
    (T₁,T₁.parent x)
  else deleteNephew d T x w

/-- The heap after the rotation that follows the first test. -/
def siblingUp (d : Side) (T : Rbtree V) (x : Ptr) : Rbtree V :=
  let T₁ := T.setColor (T.child d.flip (T.parent x)) .BLACK
  let T₂ := T₁.setColor (T₁.parent x) .RED
  turn d T₂ (T₂.parent x)

def deleteArm (d : Side) (T : Rbtree V) (x : Ptr) : Rbtree V × Ptr :=
  let w := T.child d.flip (T.parent x)
  let s :=
    if T.color w = .RED then
      (siblingUp d T x,(siblingUp d T x).child d.flip ((siblingUp d T x).parent x))
    else (T,w)
  deleteTail d s.1 x s.2

theorem deleteArm_left : deleteArm (V := V) .left = deleteFixupLeftArm := rfl
theorem deleteArm_right : deleteArm (V := V) .right = deleteFixupRightArm := rfl

section Nil
variable (T : Rbtree V) (d : Side) (x y : Ptr)

@[simp] theorem setChild_nil : (T.setChild d x y).nil = T.nil := by cases d <;> rfl
@[simp] theorem replace_nil : (T.replace d x y).nil = T.nil := by
  unfold Rbtree.replace
  split_ifs <;> simp
@[simp] theorem turnStart_nil : (turnStart d T x).nil = T.nil := by
  unfold turnStart
  dsimp only
  split_ifs <;> simp
@[simp] theorem turn_nil : (turn d T x).nil = T.nil := by simp [turn_eq]

end Nil

namespace Guarded
variable {T : Rbtree V} {b : Bool} {x y : Ptr} {d : Side}

@[simp] theorem run_nil : (nil : Guarded V Ptr).run (T,b) = some (T.nil,(T,b)) := rfl
@[simp] theorem run_root : (root : Guarded V Ptr).run (T,b) = some (T.root,(T,b)) := rfl
@[simp] theorem run_color : (color x : Guarded V Color).run (T,b) = some (T.color x,(T,b)) := rfl
@[simp] theorem run_setRoot : (setRoot x).run (T,b) = some ((),(T.setRoot x,b)) := rfl
@[simp] theorem run_setColor {k : Color} :
    (setColor x k).run (T,b) = some ((),(T.setColor x k,b)) := rfl
@[simp] theorem run_setParent :
    (setParent x y).run (T,b) = some ((),(T.setParent x y,b || decide (x = T.nil))) := rfl

theorem run_child (hx : x ≠ T.nil) : (child d x).run (T,b) = some (T.child d x,(T,b)) := if_pos hx

theorem run_left (hx : x ≠ T.nil) : (left x).run (T,b) = some (T.left x,(T,b)) := if_pos hx

theorem run_right (hx : x ≠ T.nil) : (right x).run (T,b) = some (T.right x,(T,b)) := if_pos hx

theorem run_parent (hx : x = T.nil → b = true) : (parent x).run (T,b) = some (T.parent x,(T,b)) :=
  if_pos hx

theorem run_parent_node (hx : x ≠ T.nil) : (parent x).run (T,b) = some (T.parent x,(T,b)) :=
  run_parent fun h => absurd h hx

theorem run_key (hx : x ≠ T.nil) : (key x).run (T,b) = some (T.key x,(T,b)) := if_pos hx

theorem run_value (hx : x ≠ T.nil) : (value x).run (T,b) = some (T.value x,(T,b)) := if_pos hx

theorem run_setChild (hx : x ≠ T.nil) :
    (setChild d x y).run (T,b) = some ((),(T.setChild d x y,b)) := if_pos hx

theorem run_setLeft (hx : x ≠ T.nil) : (setLeft x y).run (T,b) = some ((),(T.setLeft x y,b)) := if_pos hx

theorem run_setRight (hx : x ≠ T.nil) : (setRight x y).run (T,b) = some ((),(T.setRight x y,b)) := if_pos hx

theorem run_setKey {k : ℤ} (hx : x ≠ T.nil) : (setKey x k).run (T,b) = some ((),(T.setKey x k,b)) := if_pos hx

theorem run_setValue {v : V} (hx : x ≠ T.nil) :
    (setValue x v).run (T,b) = some ((),(T.setValue x v,b)) := if_pos hx

theorem run_setParent_node (hx : x ≠ T.nil) :
    (setParent x y).run (T,b) = some ((),(T.setParent x y,b)) := by
  rw [run_setParent, decide_eq_false hx, Bool.or_false]

theorem run_replace (hx : x ≠ T.nil) : (replace d x y).run (T,b) = some ((),(T.replace d x y,b)) := by
  unfold replace Rbtree.replace
  rw [Blind.run_next (run_parent_node hx), Blind.run_next run_nil, Blind.run_ite]
  split
  · rfl
  · next hp =>
    rw [Blind.run_next (run_parent_node hx), Blind.run_next (run_child hp), Blind.run_ite]
    split
    · rw [Blind.run_next (run_parent_node hx), run_setChild hp]
    · rw [Blind.run_next (run_parent_node hx), run_setChild hp]

theorem run_rotate (hx : x ≠ T.nil) (hy : T.child d.flip x ≠ T.nil) :
    (rotate d x).run (T,b) = some ((),(turn d T x,b)) := by
  set y := T.child d.flip x with hy'
  have hlast : (replace d x y >>= fun _ => setChild d y x >>= fun _ => setParent x y).run
      (turnStart d T x,b) = some ((),(turn d T x,b)) := by
    rw [Blind.run_next (run_replace (by simpa using hx)), Blind.run_next (run_setChild (by simpa using hy)),
      run_setParent_node (by simpa using hx), turn_eq]
  rw [← hlast]
  have hc : (T.setChild d.flip x (T.child d y)).child d y = T.child d y := by cases d <;> rfl
  unfold rotate turnStart
  rw [Blind.run_next (run_child hx), ← hy', Blind.run_next (run_child hy), Blind.run_next (run_setChild hx)]
  set T₁ := T.setChild d.flip x (T.child d y) with hT₁
  have hx₁ : x ≠ T₁.nil := by simpa [hT₁] using hx
  have hy₁ : y ≠ T₁.nil := by simpa [hT₁] using hy
  rw [Blind.run_next (run_child hy₁), Blind.run_next run_nil]
  dsimp only
  by_cases hb : T₁.child d y = T₁.nil
  · rw [if_neg (not_not.mpr hb), if_neg (not_not.mpr hb), Blind.run_next (run_parent_node hx₁),
      Blind.run_next (run_setParent_node hy₁)]
  · rw [if_pos hb, if_pos hb, Blind.run_next (run_child hy₁),
      Blind.run_next (run_setParent_node hb)]
    have hx₂ : x ≠ (T₁.setParent (T₁.child d y) x).nil := hx₁
    have hy₂ : y ≠ (T₁.setParent (T₁.child d y) x).nil := hy₁
    rw [Blind.run_next (run_parent_node hx₂), Blind.run_next (run_setParent_node hy₂)]

/-- The node `z`, its parent and its grandparent are linked, with the parent on the side `d`. -/
structure Straight (d : Side) (T : Rbtree V) (z : Ptr) : Prop where
  node : z ≠ T.nil
  parent : T.parent z ≠ T.nil
  grandparent : T.parent (T.parent z) ≠ T.nil
  side : T.child d (T.parent (T.parent z)) = T.parent z

/-- The recolouring and the rotation at the grandparent. -/
theorem run_straight {z : Ptr} (h : Straight d T z) :
    let T₁ := T.setColor (T.parent z) .BLACK
    let T₂ := T₁.setColor (T₁.parent (T₁.parent z)) .RED
    (do setColor (← parent z) .BLACK
        setColor (← parent (← parent z)) .RED
        rotate d.flip (← parent (← parent z))
        return z : Guarded V Ptr).run (T,b) = some (z,(turn d.flip T₂ (T₂.parent (T₂.parent z)),b)) := by
  intro T₁ T₂
  have hchild : T₂.child d.flip.flip (T₂.parent (T₂.parent z)) ≠ T₂.nil := by
    have hside := h.side
    have hpar := h.parent
    cases d
    · exact fun hn => hpar (hside.symm.trans hn)
    · exact fun hn => hpar (hside.symm.trans hn)
  have hz : z ≠ T₁.nil := h.node
  have hp : T₁.parent z ≠ T₁.nil := h.parent
  have hz₂ : z ≠ T₂.nil := h.node
  have hp₂ : T₂.parent z ≠ T₂.nil := h.parent
  have hg₂ : T₂.parent (T₂.parent z) ≠ T₂.nil := h.grandparent
  rw [Blind.run_next (run_parent_node h.node), Blind.run_next run_setColor,
    Blind.run_next (run_parent_node hz), Blind.run_next (run_parent_node hp), Blind.run_next run_setColor,
    Blind.run_next (run_parent_node hz₂), Blind.run_next (run_parent_node hp₂),
    Blind.run_next (run_rotate hg₂ hchild), Blind.run_pure]

theorem run_insertFixupArm {z : Ptr} (h : Straight d T z)
    (hturn : z = T.child d.flip (T.parent z) → Straight d (turn d T (T.parent z)) (T.parent z)) :
    (insertFixupArm d z).run (T,b) = some ((insertArm d T z).2,((insertArm d T z).1,b)) := by
  unfold insertFixupArm insertArm
  rw [Blind.run_next (run_parent_node h.node), Blind.run_next (run_parent_node h.parent),
    Blind.run_next (run_child h.grandparent), Blind.run_next run_color]
  dsimp only
  by_cases hy : T.color (T.child d.flip (T.parent (T.parent z))) = .RED
  · rw [if_pos hy, if_pos hy]
    set y := T.child d.flip (T.parent (T.parent z))
    set T₁ := T.setColor (T.parent z) .BLACK
    set T₂ := T₁.setColor y .BLACK
    set T₃ := T₂.setColor (T₂.parent (T₂.parent z)) .RED
    have hz₂ : z ≠ T₂.nil := h.node
    have hp₂ : T₂.parent z ≠ T₂.nil := h.parent
    have hz₃ : z ≠ T₃.nil := h.node
    have hp₃ : T₃.parent z ≠ T₃.nil := h.parent
    rw [Blind.run_next (run_parent_node h.node), Blind.run_next run_setColor, Blind.run_next run_setColor,
      Blind.run_next (run_parent_node hz₂), Blind.run_next (run_parent_node hp₂),
      Blind.run_next run_setColor, Blind.run_next (run_parent_node hz₃), run_parent_node hp₃]
  · rw [if_neg hy, if_neg hy, Blind.run_next (run_parent_node h.node), Blind.run_next (run_child h.parent)]
    by_cases hz : z = T.child d.flip (T.parent z)
    · have hinner : T.child d.flip (T.parent z) ≠ T.nil := by
        rw [← hz]
        exact h.node
      rw [if_pos hz, if_pos hz, Blind.run_next (run_parent_node h.node),
        Blind.run_next (run_rotate h.parent hinner)]
      exact run_straight (hturn hz)
    · rw [if_neg hz, if_neg hz]
      exact run_straight h

/-- The sibling `w` of the place `x` is linked. -/
structure Sibling (d : Side) (T : Rbtree V) (x w : Ptr) : Prop where
  parent : T.parent x ≠ T.nil
  node : w ≠ T.nil
  side : T.child d.flip (T.parent x) = w

/-- The last recolourings and the rotation at the parent. -/
theorem run_last {x w : Ptr} (hx : x = T.nil → b = true) (h : Sibling d T x w) :
    let T₁ := T.setColor w (T.color (T.parent x))
    let T₂ := T₁.setColor (T₁.parent x) .BLACK
    let T₃ := T₂.setColor (T₂.child d.flip w) .BLACK
    let T₄ := turn d T₃ (T₃.parent x)
    (do setColor w (← color (← parent x))
        setColor (← parent x) .BLACK
        setColor (← child d.flip w) .BLACK
        rotate d (← parent x)
        root : Guarded V Ptr).run (T,b) = some (T₄.root,(T₄,b)) := by
  intro T₁ T₂ T₃ T₄
  have hx₁ : x = T₁.nil → b = true := hx
  have hw₂ : w ≠ T₂.nil := h.node
  have hx₃ : x = T₃.nil → b = true := hx
  have hp₃ : T₃.parent x ≠ T₃.nil := h.parent
  have hsib : T₃.child d.flip (T₃.parent x) ≠ T₃.nil := by
    have hside := h.side
    have hnode := h.node
    cases d
    · exact fun hn => hnode (hside.symm.trans hn)
    · exact fun hn => hnode (hside.symm.trans hn)
  rw [Blind.run_next (run_parent hx), Blind.run_next run_color, Blind.run_next run_setColor,
    Blind.run_next (run_parent hx₁), Blind.run_next run_setColor, Blind.run_next (run_child hw₂),
    Blind.run_next run_setColor, Blind.run_next (run_parent hx₃), Blind.run_next (run_rotate hp₃ hsib),
    run_root]

theorem run_deleteFixupNephew {x w : Ptr} (hx : x = T.nil → b = true) (h : Sibling d T x w)
    (hturn : T.color (T.child d.flip w) = .BLACK → T.child d w ≠ T.nil ∧
      Sibling d (nephewUp d T w) x ((nephewUp d T w).child d.flip ((nephewUp d T w).parent x))) :
    (deleteFixupNephew d x w).run (T,b) = some ((deleteNephew d T x w).2,((deleteNephew d T x w).1,b)) := by
  unfold deleteFixupNephew deleteNephew
  rw [Blind.run_next (run_child h.node), Blind.run_next run_color]
  dsimp only
  by_cases hfar : T.color (T.child d.flip w) = .BLACK
  · obtain ⟨hnear,hup⟩ := hturn hfar
    rw [if_pos hfar, if_pos hfar]
    set T₁ := T.setColor (T.child d w) .BLACK
    set T₂ := T₁.setColor w .RED
    have hw₂ : w ≠ T₂.nil := h.node
    have hnear₂ : T₂.child d.flip.flip w ≠ T₂.nil := by cases d <;> exact hnear
    have hx₃ : x = (nephewUp d T w).nil → b = true := by simpa [nephewUp] using hx
    have hrotate : (rotate d.flip w).run (T₂,b) = some ((),(nephewUp d T w,b)) := run_rotate hw₂ hnear₂
    rw [Blind.run_next (run_child h.node), Blind.run_next run_setColor, Blind.run_next run_setColor,
      Blind.run_next hrotate, Blind.run_next (run_parent hx₃), Blind.run_next (run_child hup.parent)]
    exact run_last hx₃ hup
  · rw [if_neg hfar, if_neg hfar]
    exact run_last hx h

/-- The sibling is linked, and so is the one that comes up when the near nephew is RED. -/
structure Ready (d : Side) (T : Rbtree V) (x w : Ptr) : Prop extends Sibling d T x w where
  near : T.color (T.child d w) = .RED → T.child d w ≠ T.nil ∧
    Sibling d (nephewUp d T w) x ((nephewUp d T w).child d.flip ((nephewUp d T w).parent x))

theorem run_deleteFixupTail {x w : Ptr} (hx : x = T.nil → b = true) (h : Ready d T x w) :
    (deleteFixupTail d x w).run (T,b) = some ((deleteTail d T x w).2,((deleteTail d T x w).1,b)) := by
  unfold deleteFixupTail deleteTail
  rw [Blind.run_next (run_left h.node), Blind.run_next run_color]
  dsimp only
  have hnephew : ¬ (T.color (T.left w) = .BLACK ∧ T.color (T.right w) = .BLACK) →
      (deleteFixupNephew d x w).run (T,b) = some ((deleteNephew d T x w).2,((deleteNephew d T x w).1,b)) := by
    intro hboth
    apply run_deleteFixupNephew hx h.toSibling
    intro hfar
    apply h.near
    cases hnear : T.color (T.child d w) with
    | RED => rfl
    | BLACK =>
      cases d
      · exact absurd ⟨hnear,hfar⟩ hboth
      · exact absurd ⟨hfar,hnear⟩ hboth
  by_cases hl : T.color (T.left w) = .BLACK
  · rw [if_pos hl, Blind.run_next (run_right h.node), Blind.run_next run_color]
    by_cases hr : T.color (T.right w) = .BLACK
    · have hx₁ : x = (T.setColor w .RED).nil → b = true := hx
      rw [if_pos hr, if_pos ⟨hl,hr⟩, Blind.run_next run_setColor, run_parent hx₁]
    · have hboth : ¬ (T.color (T.left w) = .BLACK ∧ T.color (T.right w) = .BLACK) := fun h => hr h.2
      rw [if_neg hr, if_neg hboth]
      exact hnephew hboth
  · have hboth : ¬ (T.color (T.left w) = .BLACK ∧ T.color (T.right w) = .BLACK) := fun h => hl h.1
    rw [if_neg hl, if_neg hboth]
    exact hnephew hboth

theorem run_deleteFixupArm {x : Ptr} (hx : x = T.nil → b = true)
    (h : Sibling d T x (T.child d.flip (T.parent x)))
    (hblack : T.color (T.child d.flip (T.parent x)) = .BLACK → Ready d T x (T.child d.flip (T.parent x)))
    (hred : T.color (T.child d.flip (T.parent x)) = .RED →
      Ready d (siblingUp d T x) x ((siblingUp d T x).child d.flip ((siblingUp d T x).parent x))) :
    (deleteFixupArm d x).run (T,b) = some ((deleteArm d T x).2,((deleteArm d T x).1,b)) := by
  unfold deleteFixupArm deleteArm
  rw [Blind.run_next (run_parent hx), Blind.run_next (run_child h.parent), Blind.run_next run_color]
  dsimp only
  set w := T.child d.flip (T.parent x) with hw
  by_cases hcolor : T.color w = .RED
  · have hready := hred hcolor
    rw [if_pos hcolor, if_pos hcolor]
    set T₁ := T.setColor w .BLACK
    set T₂ := T₁.setColor (T₁.parent x) .RED
    have hx₁ : x = T₁.nil → b = true := hx
    have hx₂ : x = T₂.nil → b = true := hx
    have hp₂ : T₂.parent x ≠ T₂.nil := h.parent
    have hw₂ : T₂.child d.flip (T₂.parent x) ≠ T₂.nil := by
      have hnode := h.node
      cases d <;> exact hnode
    have hx₃ : x = (siblingUp d T x).nil → b = true := by simpa [siblingUp] using hx
    have hrotate : (rotate d (T₂.parent x)).run (T₂,b) = some ((),(siblingUp d T x,b)) := run_rotate hp₂ hw₂
    rw [Blind.run_next run_setColor, Blind.run_next (run_parent hx₁), Blind.run_next run_setColor,
      Blind.run_next (run_parent hx₂), Blind.run_next hrotate, Blind.run_next (run_parent hx₃),
      Blind.run_next (run_child hready.parent)]
    exact run_deleteFixupTail hx₃ hready
  · rw [if_neg hcolor, if_neg hcolor]
    apply run_deleteFixupTail hx
    apply hblack
    cases hc : T.color w with
    | RED => exact absurd hc hcolor
    | BLACK => rfl

end Guarded
end ServerKit.RbTree
