import ServerKit.Lib.Blind
import ServerKit.RbTree.Refinement

/-! The red-black tree of `rbtree/main.cpp` once more, as programs that fault when they use a field of
the sentinel that nobody has set: its `left`, `right`, `key` and `value`, and its `parent` until the call
has stored one. The two rotations, and the two arms of each fixup, are one program with a side. -/
namespace ServerKit.RbTree
open Function BinaryTree ServerKit.Lib

variable {V : Type}

def Rbtree.child (T : Rbtree V) : Side → Ptr → Ptr
  | .left => T.left
  | .right => T.right

def Rbtree.setChild (T : Rbtree V) : Side → Ptr → Ptr → Rbtree V
  | .left => T.setLeft
  | .right => T.setRight

/-- The heaps differ in the `left`, `right`, `parent`, `key` and `value` of nil only. -/
structure SameButNil (T T' : Rbtree V) : Prop where
  root : T'.root = T.root
  nil : T'.nil = T.nil
  color : T'.color = T.color
  left : ∀ p, p ≠ T.nil → T'.left p = T.left p
  right : ∀ p, p ≠ T.nil → T'.right p = T.right p
  parent : ∀ p, p ≠ T.nil → T'.parent p = T.parent p
  key : ∀ p, p ≠ T.nil → T'.key p = T.key p
  value : ∀ p, p ≠ T.nil → T'.value p = T.value p

/-- A heap, and whether the call has stored a parent in nil. -/
abbrev Memory (V : Type) := Rbtree V × Bool

/-- What a call can tell about two memories. -/
structure Agree (s s' : Memory V) : Prop where
  same : SameButNil s.1 s'.1
  flag : s'.2 = s.2
  stored : s.2 = true → s'.1.parent s.1.nil = s.1.parent s.1.nil

abbrev Guarded (V : Type) := Blind (Agree (V := V))

namespace Guarded

def nil : Guarded V Ptr := .read (fun _ => True) (fun s => s.1.nil) fun _ _ h _ => ⟨trivial,h.same.nil.symm⟩

def root : Guarded V Ptr :=
  .read (fun _ => True) (fun s => s.1.root) fun _ _ h _ => ⟨trivial,h.same.root.symm⟩

def color (x : Ptr) : Guarded V Color :=
  .read (fun _ => True) (fun s => s.1.color x) fun _ _ h _ => ⟨trivial,by rw [h.same.color]⟩

def child (d : Side) (x : Ptr) : Guarded V Ptr :=
  .read (fun s => x ≠ s.1.nil) (fun s => s.1.child d x) fun _ _ h hx => by
    refine ⟨by rwa [h.same.nil],?_⟩
    cases d with
    | left => exact (h.same.left x hx).symm
    | right => exact (h.same.right x hx).symm

def left (x : Ptr) : Guarded V Ptr := child .left x

def right (x : Ptr) : Guarded V Ptr := child .right x

def parent (x : Ptr) : Guarded V Ptr :=
  .read (fun s => x = s.1.nil → s.2 = true) (fun s => s.1.parent x) fun s _ h hx => by
    refine ⟨by rwa [h.same.nil, h.flag],?_⟩
    by_cases hnil : x = s.1.nil
    · rw [hnil, h.stored (hx hnil)]
    · exact (h.same.parent x hnil).symm

def key (x : Ptr) : Guarded V ℤ :=
  .read (fun s => x ≠ s.1.nil) (fun s => s.1.key x) fun _ _ h hx =>
    ⟨by rwa [h.same.nil],(h.same.key x hx).symm⟩

def value (x : Ptr) : Guarded V V :=
  .read (fun s => x ≠ s.1.nil) (fun s => s.1.value x) fun _ _ h hx =>
    ⟨by rwa [h.same.nil],(h.same.value x hx).symm⟩

def setRoot (x : Ptr) : Guarded V Unit :=
  .write (fun _ => True) (fun s => (s.1.setRoot x,s.2)) fun _ _ h _ =>
    ⟨trivial,{ h.same with root := rfl },h.flag,h.stored⟩

def setColor (x : Ptr) (c : Color) : Guarded V Unit :=
  .write (fun _ => True) (fun s => (s.1.setColor x c,s.2)) fun _ _ h _ =>
    ⟨trivial,{ h.same with color := congrArg (fun f : Ptr → Color => update f x c) h.same.color },h.flag,
      h.stored⟩

/-- A map that was equal off nil is equal off nil after a write to both. -/
theorem update_off {α : Type} {f f' : Ptr → α} {n : Ptr} (h : ∀ p, p ≠ n → f' p = f p) (x : Ptr) (a : α)
    (p : Ptr) (hp : p ≠ n) : update f' x a p = update f x a p := by
  by_cases hx : p = x
  · rw [hx, update_self, update_self]
  · rw [update_of_ne hx, update_of_ne hx]
    exact h p hp

def setChild (d : Side) (x y : Ptr) : Guarded V Unit :=
  .write (fun s => x ≠ s.1.nil) (fun s => (s.1.setChild d x y,s.2)) fun s s' h hx => by
    refine ⟨by rwa [h.same.nil],?_⟩
    cases d with
    | left => exact ⟨{ h.same with left := update_off h.same.left x y },h.flag,h.stored⟩
    | right => exact ⟨{ h.same with right := update_off h.same.right x y },h.flag,h.stored⟩

def setLeft (x y : Ptr) : Guarded V Unit := setChild .left x y

def setRight (x y : Ptr) : Guarded V Unit := setChild .right x y

def setParent (x y : Ptr) : Guarded V Unit :=
  .write (fun _ => True) (fun s => (s.1.setParent x y,s.2 || x = s.1.nil)) fun s s' h _ => by
    refine ⟨trivial,{ h.same with parent := update_off h.same.parent x y },?_,fun hstored => ?_⟩
    · dsimp only
      rw [h.flag, h.same.nil]
    · dsimp only [Rbtree.setParent]
      by_cases hx : s.1.nil = x
      · rw [← hx, update_self, update_self]
      · rw [update_of_ne hx, update_of_ne hx]
        have hne : ¬ x = s.1.nil := fun hx' => hx hx'.symm
        simp only [hne, decide_false, Bool.or_false] at hstored
        exact h.stored hstored

def setKey (x : Ptr) (k : ℤ) : Guarded V Unit :=
  .write (fun s => x ≠ s.1.nil) (fun s => (s.1.setKey x k,s.2)) fun s s' h hx =>
    ⟨by rwa [h.same.nil],{ h.same with key := update_off h.same.key x k },h.flag,h.stored⟩

def setValue (x : Ptr) (v : V) : Guarded V Unit :=
  .write (fun s => x ≠ s.1.nil) (fun s => (s.1.setValue x v,s.2)) fun s s' h hx =>
    ⟨by rwa [h.same.nil],{ h.same with value := update_off h.same.value x v },h.flag,h.stored⟩

def miniTest (x : Ptr) : Guarded V Bool := do return (← left x) ≠ (← nil)

def rbtreeMini (fuel : ℕ) (x : Ptr) : Guarded V Ptr := Blind.whileLoop miniTest left fuel x

def climbTest (s : Ptr × Ptr) : Guarded V Bool := do
  if s.2 ≠ (← nil) then return s.1 = (← right s.2) else return false

/-- The climb runs on the pair `(x,y)`. -/
def rbtreeSuccessor (fuel : ℕ) (x : Ptr) : Guarded V Ptr := do
  let y ← parent x
  if (← right x) ≠ (← nil) then
    rbtreeMini fuel (← right x)
  else
    let s ← Blind.whileLoop climbTest (fun s => do return (s.2,← parent s.2)) fuel (x,y)
    return s.2

/-- The node `y` is put where `x` is; of the two child links of the parent, that on the side `d` is tested. -/
def replace (d : Side) (x y : Ptr) : Guarded V Unit := do
  if (← parent x) = (← nil) then
    setRoot y
  else if x = (← child d (← parent x)) then
    setChild d (← parent x) y
  else
    setChild d.flip (← parent x) y

/-- The node `x` goes down to the side `d`, and its child on the other side comes up. -/
def rotate (d : Side) (x : Ptr) : Guarded V Unit := do
  let y ← child d.flip x
  setChild d.flip x (← child d y)
  if (← child d y) ≠ (← nil) then
    setParent (← child d y) x
  setParent y (← parent x)
  replace d x y
  setChild d y x
  setParent x y

def rbtreeLeftRotate (x : Ptr) : Guarded V Unit := rotate .left x

def rbtreeRightRotate (y : Ptr) : Guarded V Unit := rotate .right y

/-- The arm of the fixup for a parent on the side `d`; it returns the next `z`. -/
def insertFixupArm (d : Side) (z : Ptr) : Guarded V Ptr := do
  let y ← child d.flip (← parent (← parent z))
  if (← color y) = .RED then
    setColor (← parent z) .BLACK
    setColor y .BLACK
    setColor (← parent (← parent z)) .RED
    parent (← parent z)
  else
    let mut z := z
    if z = (← child d.flip (← parent z)) then
      z ← parent z
      rotate d z
    setColor (← parent z) .BLACK
    setColor (← parent (← parent z)) .RED
    rotate d.flip (← parent (← parent z))
    return z

def insertFixupPass (z : Ptr) : Guarded V Ptr := do
  if (← parent z) = (← left (← parent (← parent z))) then
    insertFixupArm .left z
  else
    insertFixupArm .right z

def insertFixupTest (z : Ptr) : Guarded V Bool := do return (← color (← parent z)) = .RED

def rbtreeInsertFixup (fuel : ℕ) (z : Ptr) : Guarded V Unit := do
  let _ ← Blind.whileLoop insertFixupTest insertFixupPass fuel z
  setColor (← root) .BLACK

def insertDescendPass (z : Ptr) (s : Ptr × Ptr) : Guarded V (Ptr × Ptr ⊕ Option Ptr) := do
  if s.2 ≠ (← nil) then
    let y := s.2
    if (← key z) < (← key s.2) then
      return .inl (y,← left s.2)
    else if (← key z) > (← key s.2) then
      return .inl (y,← right s.2)
    else
      return .inr none
  else
    return .inr (some s.1)

def insertLink (z y : Ptr) : Guarded V Unit := do
  setParent z y
  if y = (← nil) then
    setRoot z
  else if (← key z) < (← key y) then
    setLeft y z
  else
    setRight y z
  setLeft z (← nil)
  setRight z (← nil)
  setColor z .RED

def rbtreeInsert (fuel : ℕ) (z : Ptr) : Guarded V Unit := do
  match ← Blind.loop (insertDescendPass z) fuel (← nil,← root) with
  | none => return ()
  | some y =>
    insertLink z y
    rbtreeInsertFixup fuel z

/-- The rest of the arm for an `x` on the side `d` when a child of the sibling `w` is RED. -/
def deleteFixupNephew (d : Side) (x w : Ptr) : Guarded V Ptr := do
  let mut w := w
  if (← color (← child d.flip w)) = .BLACK then
    setColor (← child d w) .BLACK
    setColor w .RED
    rotate d.flip w
    w ← child d.flip (← parent x)
  setColor w (← color (← parent x))
  setColor (← parent x) .BLACK
  setColor (← child d.flip w) .BLACK
  rotate d (← parent x)
  root

/-- The arm for an `x` on the side `d` after its first test, with the sibling `w`. -/
def deleteFixupTail (d : Side) (x w : Ptr) : Guarded V Ptr := do
  if (← color (← left w)) = .BLACK then
    if (← color (← right w)) = .BLACK then
      setColor w .RED
      parent x
    else
      deleteFixupNephew d x w
  else
    deleteFixupNephew d x w

/-- The arm of the fixup for an `x` on the side `d`; it returns the next `x`. -/
def deleteFixupArm (d : Side) (x : Ptr) : Guarded V Ptr := do
  let mut w ← child d.flip (← parent x)
  if (← color w) = .RED then
    setColor w .BLACK
    setColor (← parent x) .RED
    rotate d (← parent x)
    w ← child d.flip (← parent x)
  deleteFixupTail d x w

def deleteFixupPass (x : Ptr) : Guarded V Ptr := do
  if x = (← left (← parent x)) then
    deleteFixupArm .left x
  else
    deleteFixupArm .right x

def deleteFixupTest (x : Ptr) : Guarded V Bool := do
  if x ≠ (← root) then return (← color x) = .BLACK else return false

def rbtreeDeleteFixup (fuel : ℕ) (x : Ptr) : Guarded V Unit := do
  let x ← Blind.whileLoop deleteFixupTest deleteFixupPass fuel x
  setColor x .BLACK

/-- The node to take out: `z`, or the next one. -/
def deleteChoice (fuel : ℕ) (z : Ptr) : Guarded V Ptr := do
  if (← left z) = (← nil) then
    return z
  else if (← right z) = (← nil) then
    return z
  else
    rbtreeSuccessor fuel z

/-- Take `y` out and copy its data to `z`; it returns the child that has taken the place of `y`. -/
def deleteUnlink (z y : Ptr) : Guarded V Ptr := do
  let mut x ← nil
  if (← left y) ≠ (← nil) then
    x ← left y
  else if (← right y) ≠ (← nil) then
    x ← right y
  setParent x (← parent y)
  replace .left y x
  if y ≠ z then
    setKey z (← key y)
    setValue z (← value y)
  return x

def rbtreeDelete (fuel : ℕ) (z : Ptr) : Guarded V Ptr := do
  let y ← deleteChoice fuel z
  let x ← deleteUnlink z y
  if (← color y) = .BLACK then
    rbtreeDeleteFixup fuel x
  return y

def searchPass (key : ℤ) (node : Ptr) : Guarded V (Ptr ⊕ Ptr) := do
  if node ≠ (← nil) then
    if key < (← Guarded.key node) then
      return .inl (← left node)
    else if key > (← Guarded.key node) then
      return .inl (← right node)
    else
      return .inr node
  else
    return .inr (← nil)

def rbtreeSearch (fuel : ℕ) (key : ℤ) : Guarded V Ptr := do
  Blind.loop (searchPass key) fuel (← root)

end Guarded
end ServerKit.RbTree
