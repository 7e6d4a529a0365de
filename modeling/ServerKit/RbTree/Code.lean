import Mathlib.Logic.Function.Basic
import ServerKit.Lib.Fuel

/-! The red-black tree of `rbtree/main.cpp` on an explicit heap. Every field of the node record is
a map from addresses, so `x->left` is `T.left x` and a write changes one map at one address. -/
namespace ServerKit.RbTree
open Function ServerKit.Lib

inductive Color where
  | RED
  | BLACK
  deriving DecidableEq, Repr

/-- The address of a node. -/
abbrev Ptr := ℕ

/-- The tree record together with the node fields of the heap it lives in. -/
structure Rbtree (V : Type*) where
  root : Ptr
  nil : Ptr
  color : Ptr → Color
  right : Ptr → Ptr
  left : Ptr → Ptr
  parent : Ptr → Ptr
  key : Ptr → ℤ
  value : Ptr → V

variable {V : Type*}

namespace Rbtree

@[simp] def setRoot (T : Rbtree V) (x : Ptr) : Rbtree V := { T with root := x }
@[simp] def setColor (T : Rbtree V) (x : Ptr) (c : Color) : Rbtree V :=
  { T with color := update T.color x c }
@[simp] def setRight (T : Rbtree V) (x y : Ptr) : Rbtree V := { T with right := update T.right x y }
@[simp] def setLeft (T : Rbtree V) (x y : Ptr) : Rbtree V := { T with left := update T.left x y }
@[simp] def setParent (T : Rbtree V) (x y : Ptr) : Rbtree V :=
  { T with parent := update T.parent x y }
@[simp] def setKey (T : Rbtree V) (x : Ptr) (k : ℤ) : Rbtree V := { T with key := update T.key x k }
@[simp] def setValue (T : Rbtree V) (x : Ptr) (v : V) : Rbtree V :=
  { T with value := update T.value x v }

end Rbtree

def rbtreeMini (fuel : ℕ) (T : Rbtree V) (x : Ptr) : Option Ptr :=
  whileLoop (fun x => T.left x ≠ T.nil) (fun x => T.left x) fuel x

/-- The climb of `rbtree_successor` runs on the pair `(x,y)`. -/
def rbtreeSuccessor (fuel : ℕ) (T : Rbtree V) (x : Ptr) : Option Ptr :=
  let y := T.parent x
  if T.right x ≠ T.nil then
    rbtreeMini fuel T (T.right x)
  else
    (whileLoop (fun s : Ptr × Ptr => s.2 ≠ T.nil ∧ s.1 = T.right s.2)
      (fun s => (s.2,T.parent s.2)) fuel (x,y)).map Prod.snd

def rbtreeLeftRotate (T : Rbtree V) (x : Ptr) : Rbtree V :=
  let y := T.right x
  let T₁ := T.setRight x (T.left y)
  let T₂ := if T₁.left y ≠ T₁.nil then T₁.setParent (T₁.left y) x else T₁
  let T₃ := T₂.setParent y (T₂.parent x)
  let T₄ :=
    if T₃.parent x = T₃.nil then T₃.setRoot y
    else if x = T₃.left (T₃.parent x) then T₃.setLeft (T₃.parent x) y
    else T₃.setRight (T₃.parent x) y
  let T₅ := T₄.setLeft y x
  T₅.setParent x y

def rbtreeRightRotate (T : Rbtree V) (y : Ptr) : Rbtree V :=
  let x := T.left y
  let T₁ := T.setLeft y (T.right x)
  let T₂ := if T₁.right x ≠ T₁.nil then T₁.setParent (T₁.right x) y else T₁
  let T₃ := T₂.setParent x (T₂.parent y)
  let T₄ :=
    if T₃.parent y = T₃.nil then T₃.setRoot x
    else if y = T₃.right (T₃.parent y) then T₃.setRight (T₃.parent y) x
    else T₃.setLeft (T₃.parent y) x
  let T₅ := T₄.setRight x y
  T₅.setParent y x

/-- The arm of `rbtree_insert_fixup` taken when `z->parent` is a left child. -/
def insertFixupLeftArm (T : Rbtree V) (z : Ptr) : Rbtree V × Ptr :=
  let y := T.right (T.parent (T.parent z))
  if T.color y = .RED then
    let T₁ := T.setColor (T.parent z) .BLACK
    let T₂ := T₁.setColor y .BLACK
    let T₃ := T₂.setColor (T₂.parent (T₂.parent z)) .RED
    (T₃,T₃.parent (T₃.parent z))
  else
    let s := if z = T.right (T.parent z) then (rbtreeLeftRotate T (T.parent z),T.parent z) else (T,z)
    let T₁ := s.1.setColor (s.1.parent s.2) .BLACK
    let T₂ := T₁.setColor (T₁.parent (T₁.parent s.2)) .RED
    (rbtreeRightRotate T₂ (T₂.parent (T₂.parent s.2)),s.2)

/-- The `else` arm of `rbtree_insert_fixup`. -/
def insertFixupRightArm (T : Rbtree V) (z : Ptr) : Rbtree V × Ptr :=
  let y := T.left (T.parent (T.parent z))
  if T.color y = .RED then
    let T₁ := T.setColor (T.parent z) .BLACK
    let T₂ := T₁.setColor y .BLACK
    let T₃ := T₂.setColor (T₂.parent (T₂.parent z)) .RED
    (T₃,T₃.parent (T₃.parent z))
  else
    let s := if z = T.left (T.parent z) then (rbtreeRightRotate T (T.parent z),T.parent z) else (T,z)
    let T₁ := s.1.setColor (s.1.parent s.2) .BLACK
    let T₂ := T₁.setColor (T₁.parent (T₁.parent s.2)) .RED
    (rbtreeLeftRotate T₂ (T₂.parent (T₂.parent s.2)),s.2)

/-- One pass of the loop of `rbtree_insert_fixup`. -/
def insertFixupPass (s : Rbtree V × Ptr) : Rbtree V × Ptr :=
  if s.1.parent s.2 = s.1.left (s.1.parent (s.1.parent s.2)) then insertFixupLeftArm s.1 s.2
  else insertFixupRightArm s.1 s.2

def rbtreeInsertFixup (fuel : ℕ) (T : Rbtree V) (z : Ptr) : Option (Rbtree V) :=
  (whileLoop (fun s : Rbtree V × Ptr => s.1.color (s.1.parent s.2) = .RED)
    insertFixupPass fuel (T,z)).map fun s => s.1.setColor s.1.root .BLACK

/-- The search loop of `rbtree_insert` on the pair `(y,x)`; `none` is its `return` on an existing
key, `some y` the last node before `nil`. -/
def insertDescendPass (T : Rbtree V) (z : Ptr) (s : Ptr × Ptr) : Ptr × Ptr ⊕ Option Ptr :=
  if s.2 ≠ T.nil then
    let y := s.2
    if T.key z < T.key s.2 then .inl (y,T.left s.2)
    else if T.key z > T.key s.2 then .inl (y,T.right s.2)
    else .inr none
  else .inr (some s.1)

/-- The writes of `rbtree_insert` after its search, up to the call of the fixup. -/
def insertLink (T : Rbtree V) (z y : Ptr) : Rbtree V :=
  let T₁ := T.setParent z y
  let T₂ :=
    if y = T₁.nil then T₁.setRoot z
    else if T₁.key z < T₁.key y then T₁.setLeft y z
    else T₁.setRight y z
  let T₃ := T₂.setLeft z T₂.nil
  let T₄ := T₃.setRight z T₃.nil
  T₄.setColor z .RED

def rbtreeInsert (fuel : ℕ) (T : Rbtree V) (z : Ptr) : Option (Rbtree V) :=
  (loop (insertDescendPass T z) fuel (T.nil,T.root)).bind fun
    | none => some T
    | some y => rbtreeInsertFixup fuel (insertLink T z y) z

/-- The left arm of `rbtree_delete_fixup` after its first test, with the sibling `w`. -/
def deleteFixupLeftTail (T : Rbtree V) (x w : Ptr) : Rbtree V × Ptr :=
  if T.color (T.left w) = .BLACK ∧ T.color (T.right w) = .BLACK then
    let T₁ := T.setColor w .RED
    (T₁,T₁.parent x)
  else
    let s :=
      if T.color (T.right w) = .BLACK then
        let T₁ := T.setColor (T.left w) .BLACK
        let T₂ := T₁.setColor w .RED
        let T₃ := rbtreeRightRotate T₂ w
        (T₃,T₃.right (T₃.parent x))
      else (T,w)
    let T₁ := s.1.setColor s.2 (s.1.color (s.1.parent x))
    let T₂ := T₁.setColor (T₁.parent x) .BLACK
    let T₃ := T₂.setColor (T₂.right s.2) .BLACK
    let T₄ := rbtreeLeftRotate T₃ (T₃.parent x)
    (T₄,T₄.root)

/-- The arm of `rbtree_delete_fixup` taken when `x` is a left child. -/
def deleteFixupLeftArm (T : Rbtree V) (x : Ptr) : Rbtree V × Ptr :=
  let w := T.right (T.parent x)
  let s :=
    if T.color w = .RED then
      let T₁ := T.setColor w .BLACK
      let T₂ := T₁.setColor (T₁.parent x) .RED
      let T₃ := rbtreeLeftRotate T₂ (T₂.parent x)
      (T₃,T₃.right (T₃.parent x))
    else (T,w)
  deleteFixupLeftTail s.1 x s.2

/-- The `else` arm of `rbtree_delete_fixup` after its first test, with the sibling `w`. -/
def deleteFixupRightTail (T : Rbtree V) (x w : Ptr) : Rbtree V × Ptr :=
  if T.color (T.left w) = .BLACK ∧ T.color (T.right w) = .BLACK then
    let T₁ := T.setColor w .RED
    (T₁,T₁.parent x)
  else
    let s :=
      if T.color (T.left w) = .BLACK then
        let T₁ := T.setColor (T.right w) .BLACK
        let T₂ := T₁.setColor w .RED
        let T₃ := rbtreeLeftRotate T₂ w
        (T₃,T₃.left (T₃.parent x))
      else (T,w)
    let T₁ := s.1.setColor s.2 (s.1.color (s.1.parent x))
    let T₂ := T₁.setColor (T₁.parent x) .BLACK
    let T₃ := T₂.setColor (T₂.left s.2) .BLACK
    let T₄ := rbtreeRightRotate T₃ (T₃.parent x)
    (T₄,T₄.root)

/-- The `else` arm of `rbtree_delete_fixup`. -/
def deleteFixupRightArm (T : Rbtree V) (x : Ptr) : Rbtree V × Ptr :=
  let w := T.left (T.parent x)
  let s :=
    if T.color w = .RED then
      let T₁ := T.setColor w .BLACK
      let T₂ := T₁.setColor (T₁.parent x) .RED
      let T₃ := rbtreeRightRotate T₂ (T₂.parent x)
      (T₃,T₃.left (T₃.parent x))
    else (T,w)
  deleteFixupRightTail s.1 x s.2

/-- One pass of the loop of `rbtree_delete_fixup`. -/
def deleteFixupPass (s : Rbtree V × Ptr) : Rbtree V × Ptr :=
  if s.2 = s.1.left (s.1.parent s.2) then deleteFixupLeftArm s.1 s.2
  else deleteFixupRightArm s.1 s.2

def rbtreeDeleteFixup (fuel : ℕ) (T : Rbtree V) (x : Ptr) : Option (Rbtree V) :=
  (whileLoop (fun s : Rbtree V × Ptr => s.2 ≠ s.1.root ∧ s.1.color s.2 = .BLACK)
    deleteFixupPass fuel (T,x)).map fun s => s.1.setColor s.2 .BLACK

/-- The writes of `rbtree_delete` that put `x` in the place of `y`. -/
def deleteSplice (T : Rbtree V) (y x : Ptr) : Rbtree V :=
  let T₁ := T.setParent x (T.parent y)
  if T₁.parent y = T₁.nil then T₁.setRoot x
  else if y = T₁.left (T₁.parent y) then T₁.setLeft (T₁.parent y) x
  else T₁.setRight (T₁.parent y) x

/-- `rbtree_delete` returns the node it took out of the tree. -/
def rbtreeDelete (fuel : ℕ) (T : Rbtree V) (z : Ptr) : Option (Rbtree V × Ptr) :=
  (if T.left z = T.nil ∨ T.right z = T.nil then some z else rbtreeSuccessor fuel T z).bind fun y =>
    let x := if T.left y ≠ T.nil then T.left y else if T.right y ≠ T.nil then T.right y else T.nil
    let T₁ := deleteSplice T y x
    let T₂ := if y ≠ z then (T₁.setKey z (T₁.key y)).setValue z (T₁.value y) else T₁
    if T₂.color y = .BLACK then (rbtreeDeleteFixup fuel T₂ x).map fun T => (T,y)
    else some (T₂,y)

def rbtreeSearch (fuel : ℕ) (T : Rbtree V) (key : ℤ) : Option Ptr :=
  loop (fun node : Ptr =>
    if node ≠ T.nil then
      if key < T.key node then .inl (T.left node)
      else if key > T.key node then .inl (T.right node)
      else .inr node
    else .inr T.nil) fuel T.root

/-- The key and colour that `rbtree_traversal` prints at each node, in order. -/
def rbtreeTraversal : ℕ → Rbtree V → Ptr → Option (List (ℤ × Color))
  | 0,_,_ => none
  | fuel+1,T,node =>
    if node ≠ T.nil then
      (rbtreeTraversal fuel T (T.left node)).bind fun l =>
        (rbtreeTraversal fuel T (T.right node)).map fun r => l ++ (T.key node,T.color node) :: r
    else some []

end ServerKit.RbTree
