import ServerKit.Lib.Logged
import ServerKit.RbTree.Indifference

/-! The two fixups once more, as programs that log their rotations and the nodes that they cannot do
without: those whose links they follow, whose links they change and which they paint. -/
namespace ServerKit.RbTree
open Function BinaryTree ServerKit.Lib

variable {V : Type}

namespace Counted

inductive Event
  | node (p : Ptr)
  | rotate
  deriving DecidableEq, Repr

end Counted

abbrev Counted (V : Type) := Logged (Rbtree V) Counted.Event

namespace Counted

def Event.isRotate : Event → Bool
  | .node _ => false
  | .rotate => true

/-- The node is not `n`. -/
def Event.Linked (n : Ptr) : Event → Prop
  | .node p => p ≠ n
  | .rotate => True

def nil : Counted V Ptr := .get (·.nil)

def root : Counted V Ptr := .get (·.root)

/-- Also nil has a color. -/
def color (x : Ptr) : Counted V Color := .get (·.color x)

def child (d : Side) (x : Ptr) : Counted V Ptr := .read (·.child d x) fun _ => .node x

def left (x : Ptr) : Counted V Ptr := child .left x

def right (x : Ptr) : Counted V Ptr := child .right x

def parent (x : Ptr) : Counted V Ptr := .read (·.parent x) fun _ => .node x

/-- `x->parent` in `rbtree_delete_fixup`, where `x` may be nil. -/
def placeParent (x : Ptr) : Counted V Ptr := .get (·.parent x)

def setRoot (x : Ptr) : Counted V Unit := .modify (·.setRoot x)

def setColor (x : Ptr) (c : Color) : Counted V Unit := .write (·.setColor x c) fun _ => .node x

def setChild (d : Side) (x y : Ptr) : Counted V Unit := .write (·.setChild d x y) fun _ => .node x

def setParent (x y : Ptr) : Counted V Unit := .write (·.setParent x y) fun _ => .node x

def replace (d : Side) (x y : Ptr) : Counted V Unit := do
  if (← parent x) = (← nil) then
    setRoot y
  else if x = (← child d (← parent x)) then
    setChild d (← parent x) y
  else
    setChild d.flip (← parent x) y

/-- The rotation that takes `x` down to the side `d`. -/
def rotate (d : Side) (x : Ptr) : Counted V Unit := do
  Logged.read (fun _ => ()) fun _ => .rotate
  let y ← child d.flip x
  setChild d.flip x (← child d y)
  if (← child d y) ≠ (← nil) then
    setParent (← child d y) x
  setParent y (← parent x)
  replace d x y
  setChild d y x
  setParent x y

def insertFixupArm (d : Side) (z : Ptr) : Counted V Ptr := do
  let y ← child d.flip (← parent (← parent z))
  if (← color y) = .RED then
    setColor (← parent z) .BLACK
    setColor y .BLACK
    setColor (← parent (← parent z)) .RED
    parent (← parent z)
  else
    let mut z := z
    if z = (← child d.flip (← parent z)) then
      z ← parent z
      rotate d z
    setColor (← parent z) .BLACK
    setColor (← parent (← parent z)) .RED
    rotate d.flip (← parent (← parent z))
    return z

/-- One test of the loop of `rbtree_insert_fixup`, and the pass behind it. -/
def insertFixupPass (z : Ptr) : Counted V (Ptr ⊕ Ptr) := do
  if (← color (← parent z)) = .RED then
    if (← parent z) = (← left (← parent (← parent z))) then
      return .inl (← insertFixupArm .left z)
    else
      return .inl (← insertFixupArm .right z)
  else
    return .inr z

def deleteFixupNephew (d : Side) (x w : Ptr) : Counted V Ptr := do
  let mut w := w
  if (← color (← child d.flip w)) = .BLACK then
    setColor (← child d w) .BLACK
    setColor w .RED
    rotate d.flip w
    w ← child d.flip (← placeParent x)
  setColor w (← color (← placeParent x))
  setColor (← placeParent x) .BLACK
  setColor (← child d.flip w) .BLACK
  rotate d (← placeParent x)
  root

def deleteFixupTail (d : Side) (x w : Ptr) : Counted V Ptr := do
  if (← color (← left w)) = .BLACK then
    if (← color (← right w)) = .BLACK then
      setColor w .RED
      placeParent x
    else
      deleteFixupNephew d x w
  else
    deleteFixupNephew d x w

def deleteFixupArm (d : Side) (x : Ptr) : Counted V Ptr := do
  let mut w ← child d.flip (← placeParent x)
  if (← color w) = .RED then
    setColor w .BLACK
    setColor (← placeParent x) .RED
    rotate d (← placeParent x)
    w ← child d.flip (← placeParent x)
  deleteFixupTail d x w

/-- One test of the loop of `rbtree_delete_fixup`, and the pass behind it. -/
def deleteFixupPass (x : Ptr) : Counted V (Ptr ⊕ Ptr) := do
  if x ≠ (← root) then
    if (← color x) = .BLACK then
      if x = (← left (← placeParent x)) then
        return .inl (← deleteFixupArm .left x)
      else
        return .inl (← deleteFixupArm .right x)
    else
      return .inr x
  else
    return .inr x

/-- `rbtree_insert` with what its fixup logs. -/
def rbtreeInsert (fuel : ℕ) (T : Rbtree V) (z : Ptr) : Option (Rbtree V × List Event) :=
  (loop (insertDescendPass T z) fuel (T.nil,T.root)).bind fun
    | none => some (T,[])
    | some y => (Logged.loop insertFixupPass fuel z (insertLink T z y)).map fun (_,U,es) =>
        (U.setColor U.root .BLACK,es)

/-- `rbtree_delete` with what its fixup logs. -/
def rbtreeDelete (fuel : ℕ) (T : Rbtree V) (z : Ptr) : Option (Rbtree V × Ptr × List Event) :=
  (deleteChoice fuel T z).bind fun y =>
    let U := deleteUnlink T z y
    if U.color y = .BLACK then
      (Logged.loop deleteFixupPass fuel (deleteChild T y) U).map fun (x,U,es) => (U.setColor x .BLACK,y,es)
    else some (U,y,[])

/-- The run from `T` gives `a` and ends in `U`. It needs no node where nil is, and it rotates `k` times at
most. -/
abbrev Runs {α : Type} (n : Ptr) (m : Counted V α) (T : Rbtree V) (a : α) (U : Rbtree V) (k : ℕ) : Prop :=
  Logged.Within (Event.Linked n) Event.isRotate m T a U k

namespace Runs
variable {T T₁ U : Rbtree V} {n x y : Ptr} {d : Side} {c : Color} {α β : Type} {a : α} {b : β} {j k : ℕ}

theorem pure (a : α) : Runs n (Pure.pure a) T a T 0 :=
  ⟨rfl,rfl,Logged.clean_pure a,Nat.le_refl 0⟩

/-- A command that needs the node `x`. -/
theorem node {m : Counted V β} (hx : x ≠ n) (hm : m T = (b,T₁,[.node x])) : Runs n m T b T₁ 0 := by
  have hlog : m.log T = [.node x] := congrArg (fun r => r.2.2) hm
  refine ⟨congrArg Prod.fst hm,congrArg (fun r => r.2.1) hm,?_,?_⟩
  · unfold Logged.Clean
    rw [hlog]
    exact List.forall_mem_singleton.mpr hx
  · unfold Logged.count
    rw [hlog]
    exact Nat.le_refl 0

/-- A command that needs none. -/
theorem free {m : Counted V β} (hm : m T = (b,T₁,[])) : Runs n m T b T₁ 0 := by
  have hlog : m.log T = [] := congrArg (fun r => r.2.2) hm
  refine ⟨congrArg Prod.fst hm,congrArg (fun r => r.2.1) hm,?_,?_⟩
  · unfold Logged.Clean
    rw [hlog]
    exact fun _ he => absurd he List.not_mem_nil
  · unfold Logged.count
    rw [hlog]
    exact Nat.le_refl 0

theorem next {m : Counted V β} {f : β → Counted V α} (hm : Runs n m T b T₁ 0)
    (h : Runs n (f b) T₁ a U k) : Runs n (m >>= f) T a U k := by
  rw [← Nat.zero_add k]
  exact hm.bind h

theorem look {g : Rbtree V → β} {f : β → Counted V α} (h : Runs n (f (g T)) T a U k) :
    Runs n (Logged.get g >>= f) T a U k := next (free rfl) h

theorem child {f : Ptr → Counted V α} (hx : x ≠ n) (h : Runs n (f (T.child d x)) T a U k) :
    Runs n (Counted.child d x >>= f) T a U k := next (node hx rfl) h

theorem parent {f : Ptr → Counted V α} (hx : x ≠ n) (h : Runs n (f (T.parent x)) T a U k) :
    Runs n (Counted.parent x >>= f) T a U k := next (node hx rfl) h

theorem setColor {f : Unit → Counted V α} (hx : x ≠ n) (h : Runs n (f ()) (T.setColor x c) a U k) :
    Runs n (Counted.setColor x c >>= f) T a U k := next (node hx rfl) h

theorem setParent {f : Unit → Counted V α} (hx : x ≠ n) (h : Runs n (f ()) (T.setParent x y) a U k) :
    Runs n (Counted.setParent x y >>= f) T a U k := next (node hx rfl) h

theorem setChild {f : Unit → Counted V α} (hx : x ≠ n) (h : Runs n (f ()) (T.setChild d x y) a U k) :
    Runs n (Counted.setChild d x y >>= f) T a U k := next (node hx rfl) h

/-- The mark at the start of a rotation. -/
theorem mark {f : Unit → Counted V α} (h : Runs n (f ()) T a U k) :
    Runs n ((Logged.read (fun _ => ()) fun _ => .rotate) >>= f) T a U (k+1) := by
  have hmark : Runs n (Logged.read (fun _ => ()) fun _ => .rotate) T () T 1 :=
    ⟨rfl,rfl,List.forall_mem_singleton.mpr trivial,Nat.le_refl 1⟩
  rw [Nat.add_comm]
  exact hmark.bind h

/-- A program and what it gives. -/
theorem map {m : Counted V β} (h : Runs n m T b U k) (g : β → α) :
    Runs n (m >>= fun b => Pure.pure (g b)) T (g b) U k :=
  Logged.Within.bind (f := fun b => Pure.pure (g b)) h (pure (g b))

theorem weaken {m : Counted V α} (h : Runs n m T a U j) (hle : j ≤ k) : Runs n m T a U k :=
  ⟨h.val,h.state,h.clean,h.count.trans hle⟩

end Runs

section Rotate
variable {T : Rbtree V} {n x y : Ptr} {d : Side}

theorem replace_runs (hnil : T.nil = n) (hx : x ≠ n) : Runs n (replace d x y) T () (T.replace d x y) 0 := by
  subst hnil
  unfold replace Rbtree.replace
  apply Runs.parent hx
  apply Runs.look
  by_cases hp : T.parent x = T.nil
  · rw [if_pos hp, if_pos hp]
    exact Runs.free rfl
  · rw [if_neg hp, if_neg hp]
    apply Runs.parent hx
    apply Runs.child hp
    by_cases hside : x = T.child d (T.parent x)
    · rw [if_pos hside, if_pos hside]
      apply Runs.parent hx
      exact Runs.node hp rfl
    · rw [if_neg hside, if_neg hside]
      apply Runs.parent hx
      exact Runs.node hp rfl

theorem rotate_runs (hnil : T.nil = n) (hx : x ≠ n) (hy : T.child d.flip x ≠ n) :
    Runs n (rotate d x) T () (turn d T x) 1 := by
  set y := T.child d.flip x with hy'
  have hlast : Runs n (replace d x y >>= fun _ => setChild d y x >>= fun _ => setParent x y)
      (turnStart d T x) () (turn d T x) 0 := by
    apply Runs.next (replace_runs (by rw [turnStart_nil, hnil]) hx)
    apply Runs.setChild hy
    rw [turn_eq]
    exact Runs.node hx rfl
  have hc : (T.setChild d.flip x (T.child d y)).child d y = T.child d y := by cases d <;> rfl
  unfold turnStart at hlast
  unfold rotate
  apply Runs.mark
  apply Runs.child hx
  rw [← hy'] at hlast ⊢
  apply Runs.child hy
  apply Runs.setChild hx
  apply Runs.child hy
  apply Runs.look
  dsimp only at hlast ⊢
  set T₁ := T.setChild d.flip x (T.child d y) with hT₁
  by_cases hb : T₁.child d y = T₁.nil
  · rw [if_neg (not_not.mpr hb)] at hlast ⊢
    apply Runs.parent hx
    exact Runs.setParent hy hlast
  · have hnil₁ : T₁.nil = n := by rw [hT₁, setChild_nil, hnil]
    rw [if_pos hb] at hlast ⊢
    apply Runs.child hy
    apply Runs.setParent (hnil₁ ▸ hb)
    apply Runs.parent hx
    exact Runs.setParent hy hlast

/-- A rotation before a program. -/
theorem rotate_next {α : Type} {f : Unit → Counted V α} {U : Rbtree V} {a : α} {k : ℕ} (hnil : T.nil = n)
    (hx : x ≠ n) (hy : T.child d.flip x ≠ n) (h : Runs n (f ()) (turn d T x) a U k) :
    Runs n (rotate d x >>= f) T a U (k+1) := by
  rw [Nat.add_comm]
  exact (rotate_runs hnil hx hy).bind h

end Rotate

section InsertArm
variable {T : Rbtree V} {n z : Ptr} {d : Side}

/-- The recolouring and the rotation at the grandparent. -/
theorem straight_runs (hnil : T.nil = n) (h : Guarded.Straight d T z) :
    let T₁ := T.setColor (T.parent z) .BLACK
    let T₂ := T₁.setColor (T₁.parent (T₁.parent z)) .RED
    Runs n (do
      setColor (← parent z) .BLACK
      setColor (← parent (← parent z)) .RED
      rotate d.flip (← parent (← parent z))
      return z) T z (turn d.flip T₂ (T₂.parent (T₂.parent z))) 1 := by
  subst hnil
  intro T₁ T₂
  have hchild : T₂.child d.flip.flip (T₂.parent (T₂.parent z)) ≠ T₂.nil := by
    have hside := h.side
    have hpar := h.parent
    cases d
    · exact fun hn => hpar (hside.symm.trans hn)
    · exact fun hn => hpar (hside.symm.trans hn)
  apply Runs.parent h.node
  apply Runs.setColor h.parent
  apply Runs.parent h.node
  apply Runs.parent h.parent
  apply Runs.setColor h.grandparent
  apply Runs.parent h.node
  apply Runs.parent h.parent
  have hg₂ : T₂.parent (T₂.parent z) ≠ T₂.nil := h.grandparent
  apply rotate_next (T := T₂) rfl hg₂ hchild
  exact Runs.pure z

theorem insertFixupArm_runs (h : Guarded.Straight d T z)
    (hturn : z = T.child d.flip (T.parent z) → Guarded.Straight d (turn d T (T.parent z)) (T.parent z))
    (hblack : T.color T.nil = .BLACK) :
    Runs T.nil (insertFixupArm d z) T (insertArm d T z).2 (insertArm d T z).1
      (if T.color (T.child d.flip (T.parent (T.parent z))) = .RED then 0 else 2) := by
  unfold insertFixupArm insertArm
  apply Runs.parent h.node
  apply Runs.parent h.parent
  apply Runs.child h.grandparent
  apply Runs.look
  dsimp only
  by_cases hy : T.color (T.child d.flip (T.parent (T.parent z))) = .RED
  · have huncle : T.child d.flip (T.parent (T.parent z)) ≠ T.nil := by
      intro hnil
      rw [hnil, hblack] at hy
      cases hy
    rw [if_pos hy, if_pos hy, if_pos hy]
    apply Runs.parent h.node
    apply Runs.setColor h.parent
    apply Runs.setColor huncle
    apply Runs.parent h.node
    apply Runs.parent h.parent
    apply Runs.setColor h.grandparent
    apply Runs.parent h.node
    exact Runs.node h.parent rfl
  · rw [if_neg hy, if_neg hy, if_neg hy]
    apply Runs.parent h.node
    apply Runs.child h.parent
    by_cases hz : z = T.child d.flip (T.parent z)
    · have hinner : T.child d.flip (T.parent z) ≠ T.nil := by
        rw [← hz]
        exact h.node
      rw [if_pos hz, if_pos hz]
      apply Runs.parent h.node
      apply rotate_next rfl h.parent hinner
      exact straight_runs (turn_nil T d _) (hturn hz)
    · rw [if_neg hz, if_neg hz]
      exact (straight_runs rfl h).weaken (Nat.le_succ 1)

end InsertArm

section DeleteArm
variable {T : Rbtree V} {n x w : Ptr} {d : Side}

/-- The last recolourings and the rotation at the parent. -/
theorem last_runs (hnil : T.nil = n) (h : Guarded.Sibling d T x w) (hfar : T.child d.flip w ≠ n) :
    let T₁ := T.setColor w (T.color (T.parent x))
    let T₂ := T₁.setColor (T₁.parent x) .BLACK
    let T₃ := T₂.setColor (T₂.child d.flip w) .BLACK
    let T₄ := turn d T₃ (T₃.parent x)
    Runs n (do
      setColor w (← color (← placeParent x))
      setColor (← placeParent x) .BLACK
      setColor (← child d.flip w) .BLACK
      rotate d (← placeParent x)
      root) T T₄.root T₄ 1 := by
  subst hnil
  intro T₁ T₂ T₃ T₄
  have hsib : T₃.child d.flip (T₃.parent x) ≠ T₃.nil := by
    have hside := h.side
    have hnode := h.node
    cases d
    · exact fun hn => hnode (hside.symm.trans hn)
    · exact fun hn => hnode (hside.symm.trans hn)
  have hfar₂ : T₂.child d.flip w ≠ T.nil := by
    cases d
    · exact hfar
    · exact hfar
  apply Runs.look
  apply Runs.look
  apply Runs.setColor h.node
  apply Runs.look
  apply Runs.setColor h.parent
  apply Runs.child h.node
  apply Runs.setColor hfar₂
  apply Runs.look
  have hp₃ : T₃.parent x ≠ T₃.nil := h.parent
  apply rotate_next (T := T₃) rfl hp₃ hsib
  exact Runs.free rfl

/-- The sibling `w` is linked, and so are its RED children. -/
structure Ready (d : Side) (T : Rbtree V) (x w : Ptr) : Prop extends Guarded.Sibling d T x w where
  nil_black : T.color T.nil = .BLACK
  near : T.color (T.child d w) = .RED →
    T.child d w ≠ T.nil ∧ Guarded.Sibling d (nephewUp d T w) x (T.child d w)

theorem Ready.ne_nil {p : Ptr} (h : Ready d T x w) (hp : T.color p ≠ .BLACK) : p ≠ T.nil := by
  rintro rfl
  exact hp h.nil_black

/-- The node that has gone down is on the other side of the one that has come up. -/
theorem turn_child (d : Side) (T : Rbtree V) (x : Ptr) : (turn d T x).child d (T.child d.flip x) = x := by
  rw [turn_eq]
  cases d
  · exact update_self ..
  · exact update_self ..

/-- After the near nephew has come up, the far one is the old sibling. -/
theorem nephewUp_far (d : Side) (T : Rbtree V) (w : Ptr) :
    (nephewUp d T w).child d.flip (T.child d w) = w := by
  have hturn := turn_child d.flip ((T.setColor (T.child d w) .BLACK).setColor w .RED) w
  cases d
  · exact hturn
  · exact hturn

theorem deleteFixupNephew_runs (hnil : T.nil = n) (h : Ready d T x w)
    (hboth : T.color (T.child d.flip w) = .BLACK → T.color (T.child d w) = .RED) :
    Runs n (deleteFixupNephew d x w) T (deleteNephew d T x w).2 (deleteNephew d T x w).1 2 := by
  unfold deleteFixupNephew deleteNephew
  subst hnil
  apply Runs.child h.node
  apply Runs.look
  dsimp only
  by_cases hblack : T.color (T.child d.flip w) = .BLACK
  · obtain ⟨hnear,hup⟩ := h.near (hboth hblack)
    have hold : (nephewUp d T w).child d.flip (T.child d w) ≠ T.nil := by
      rw [nephewUp_far]
      exact h.node
    rw [if_pos hblack, if_pos hblack, hup.side]
    set T₁ := T.setColor (T.child d w) .BLACK
    set T₂ := T₁.setColor w .RED
    have hw₂ : w ≠ T₂.nil := h.node
    have hnear₂ : T₂.child d.flip.flip w ≠ T₂.nil := by cases d <;> exact hnear
    have hnil : (nephewUp d T w).nil = T.nil := turn_nil T₂ d.flip w
    apply Runs.child h.node
    apply Runs.setColor hnear
    apply Runs.setColor h.node
    apply rotate_next (T := T₂) rfl hw₂ hnear₂
    apply Runs.look
    apply Runs.child (hnil ▸ hup.parent)
    have hw : (turn d.flip T₂ w).child d.flip ((turn d.flip T₂ w).parent x) = T.child d w := hup.side
    rw [hw]
    exact last_runs hnil hup hold
  · rw [if_neg hblack, if_neg hblack]
    exact (last_runs rfl h.toSibling (h.ne_nil hblack)).weaken (Nat.le_succ 1)

theorem deleteFixupTail_runs (hnil : T.nil = n) (h : Ready d T x w) :
    Runs n (deleteFixupTail d x w) T (deleteTail d T x w).2 (deleteTail d T x w).1
      (if T.color (T.left w) = .BLACK ∧ T.color (T.right w) = .BLACK then 0 else 2) := by
  subst hnil
  unfold deleteFixupTail deleteTail
  have hnephew : ¬ (T.color (T.left w) = .BLACK ∧ T.color (T.right w) = .BLACK) →
      Runs T.nil (deleteFixupNephew d x w) T (deleteNephew d T x w).2 (deleteNephew d T x w).1 2 := by
    intro hboth
    apply deleteFixupNephew_runs rfl h
    intro hfar
    cases hnear : T.color (T.child d w) with
    | RED => rfl
    | BLACK =>
      cases d
      · exact absurd ⟨hnear,hfar⟩ hboth
      · exact absurd ⟨hfar,hnear⟩ hboth
  apply Runs.child h.node
  apply Runs.look
  by_cases hl : T.color (T.left w) = .BLACK
  · rw [if_pos (show T.color (T.child .left w) = .BLACK from hl)]
    apply Runs.child h.node
    apply Runs.look
    by_cases hr : T.color (T.right w) = .BLACK
    · rw [if_pos (show T.color (T.child .right w) = .BLACK from hr), if_pos ⟨hl,hr⟩, if_pos ⟨hl,hr⟩]
      apply Runs.setColor h.node
      exact Runs.free rfl
    · have hboth : ¬ (T.color (T.left w) = .BLACK ∧ T.color (T.right w) = .BLACK) := fun h => hr h.2
      rw [if_neg (show ¬ T.color (T.child .right w) = .BLACK from hr), if_neg hboth, if_neg hboth]
      exact hnephew hboth
  · have hboth : ¬ (T.color (T.left w) = .BLACK ∧ T.color (T.right w) = .BLACK) := fun h => hl h.1
    rw [if_neg (show ¬ T.color (T.child .left w) = .BLACK from hl), if_neg hboth, if_neg hboth]
    exact hnephew hboth

/-- Neither the sibling nor a child of it is RED. -/
def AllBlack (T : Rbtree V) (w : Ptr) : Prop :=
  T.color w = .BLACK ∧ T.color (T.left w) = .BLACK ∧ T.color (T.right w) = .BLACK

instance (T : Rbtree V) (w : Ptr) : Decidable (AllBlack T w) := inferInstanceAs (Decidable (_ ∧ _))

theorem deleteFixupArm_runs (h : Guarded.Sibling d T x (T.child d.flip (T.parent x)))
    (hblack : T.color (T.child d.flip (T.parent x)) = .BLACK → Ready d T x (T.child d.flip (T.parent x)))
    (hred : T.color (T.child d.flip (T.parent x)) = .RED →
      Ready d (siblingUp d T x) x ((siblingUp d T x).child d.flip ((siblingUp d T x).parent x))) :
    Runs T.nil (deleteFixupArm d x) T (deleteArm d T x).2 (deleteArm d T x).1
      (if AllBlack T (T.child d.flip (T.parent x)) then 0 else 3) := by
  unfold deleteFixupArm deleteArm
  apply Runs.look
  apply Runs.child h.parent
  apply Runs.look
  dsimp only
  set w := T.child d.flip (T.parent x) with hw
  by_cases hcolor : T.color w = .RED
  · have hready := hred hcolor
    have hsome : ¬ AllBlack T w := by
      rintro ⟨hw,-⟩
      cases hw.symm.trans hcolor
    rw [if_pos hcolor, if_pos hcolor, if_neg hsome]
    set T₁ := T.setColor w .BLACK
    set T₂ := T₁.setColor (T₁.parent x) .RED
    have hp₂ : T₂.parent x ≠ T₂.nil := h.parent
    have hw₂ : T₂.child d.flip (T₂.parent x) ≠ T₂.nil := by
      have hnode := h.node
      cases d <;> exact hnode
    have hnil : (siblingUp d T x).nil = T.nil := turn_nil T₂ d _
    apply Runs.setColor h.node
    apply Runs.look
    apply Runs.setColor h.parent
    apply Runs.look
    apply rotate_next (T := T₂) rfl hp₂ hw₂
    apply Runs.look
    apply Runs.child (hnil ▸ hready.parent)
    apply (deleteFixupTail_runs hnil hready).weaken
    split
    · exact Nat.zero_le 2
    · exact Nat.le_refl 2
  · have hw : T.color w = .BLACK := by
      cases hc : T.color w with
      | RED => exact absurd hc hcolor
      | BLACK => rfl
    rw [if_neg hcolor, if_neg hcolor]
    apply (deleteFixupTail_runs rfl (hblack hw)).weaken
    by_cases hboth : T.color (T.left w) = .BLACK ∧ T.color (T.right w) = .BLACK
    · rw [if_pos hboth, if_pos ⟨hw,hboth⟩]
    · have hsome : ¬ AllBlack T w := fun h => hboth h.2
      rw [if_neg hboth, if_neg hsome]
      exact Nat.le_succ 2

end DeleteArm

end Counted
end ServerKit.RbTree
