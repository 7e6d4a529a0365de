import ServerKit.BTree.Code
import ServerKit.Lib.Logged

/-! The same code with a log of every read and write of a node. Array indices are integers here, so
that one below zero can be seen, and a recursive call is what a pass ends with. -/
namespace ServerKit.BTree
open ServerKit.Lib

/-- The part of a node that is read or written. The fields are `num`, `leaf` and the addresses of
the arrays; the release of a node counts as an access to them. -/
inductive Part
  | key (i : ℤ)
  | child (i : ℤ)
  | field
  deriving DecidableEq, Repr

/-- Whether the index lies inside the arrays that `btree_create_node` allocates. -/
def Part.InBounds (t : ℕ) : Part → Prop
  | .key i => 0 ≤ i ∧ i ≤ 2*t-2
  | .child i => 0 ≤ i ∧ i ≤ 2*t-1
  | .field => True

/-- One read or write; `live` tells whether the node was in the store then. -/
structure Access where
  ptr : Ptr
  part : Part
  live : Bool
  deriving DecidableEq, Repr

abbrev Traced (α : Type) := Logged Btree Access α

namespace Traced
open Logged

def access (p : Ptr) (part : Part) (T : Btree) : Access := ⟨p,part,T.live p⟩

def getKey (p : Ptr) (i : ℤ) : Traced ℤ := .read (·.key p i.toNat) (access p (.key i))
def getChild (p : Ptr) (i : ℤ) : Traced Ptr := .read (·.child p i.toNat) (access p (.child i))
def getNum (p : Ptr) : Traced ℕ := .read (·.num p) (access p .field)
def getLeaf (p : Ptr) : Traced Bool := .read (·.leaf p) (access p .field)

def setKey (p : Ptr) (i : ℤ) (k : ℤ) : Traced Unit :=
  .write (·.setKey p i.toNat k) (access p (.key i))
def setChild (p : Ptr) (i : ℤ) (c : Ptr) : Traced Unit :=
  .write (·.setChild p i.toNat c) (access p (.child i))
def setNum (p : Ptr) (m : ℕ) : Traced Unit := .write (·.setNum p m) (access p .field)
def free (p : Ptr) : Traced Unit := .write (·.free p) (access p .field)

/-- The test of a loop bound, which reads `num` again after every pass. -/
def testNum (p : Ptr) : Traced Unit := .write id (access p .field)

def degree : Traced ℕ := .get Btree.t
def getRoot : Traced Ptr := .get Btree.root
def setRoot (p : Ptr) : Traced Unit := .modify (·.setRoot p)

def btreeCreateNode (leaf : Bool) : Traced Ptr := do
  let node ← Logged.get Btree.next
  Logged.write (BTree.btreeCreateNode · leaf) fun T => ⟨T.next,.field,true⟩
  return node

def btreeDestroyNode (node : Ptr) : Traced Unit := free node

def btreeSplitChild (x : Ptr) (i : ℕ) : Traced Unit := do
  let t ← degree
  let y ← getChild x i
  let z ← btreeCreateNode (← getLeaf y)
  setNum z (t-1)
  forUp 0 (t-1) fun j => do setKey z j (← getKey y (j+t))
  skipIf (← getLeaf y) (forUp 0 t fun j => do setChild z j (← getChild y (j+t)))
  setNum y (t-1)
  forDown (i+1) ((← getNum x)-i) fun j => do setChild x (j+1) (← getChild x j)
  setChild x (i+1) z
  forDown i ((← getNum x)-i) fun j => do setKey x (j+1) (← getKey x j)
  setKey x i (← getKey y (t-1))
  setNum x ((← getNum x)+1)

def shiftGreater (x : Ptr) (k : ℤ) : ℕ → Traced ℕ
  | 0 => pure 0
  | n+1 => do
    if (← getKey x n) > k then do
      setKey x (n+1) (← getKey x n)
      shiftGreater x k n
    else pure (n+1)

/-- One level of the descent; it ends with the node that the recursive call is for. -/
def btreeInsertNonfull (k : ℤ) (x : Ptr) : Traced (Ptr ⊕ Unit) := do
  let n ← getNum x
  if ← getLeaf x then do
    let i ← shiftGreater x k n
    setKey x i k
    setNum x ((← getNum x)+1)
    return .inr ()
  else do
    let i ← scanDown (fun j => do return decide ((← getKey x j) > k)) n
    if (← getNum (← getChild x i)) = 2*(← degree)-1 then do
      btreeSplitChild x i
      let i := if k > (← getKey x i) then i+1 else i
      return .inl (← getChild x i)
    else return .inl (← getChild x i)

/-- The part of `btree_insert` before the descent. -/
def insertAtRoot (key : ℤ) : Traced Ptr := do
  let r ← getRoot
  if (← getNum r) = 2*(← degree)-1 then do
    let node ← btreeCreateNode false
    setRoot node
    setChild node 0 r
    btreeSplitChild node 0
    let i : ℤ := if (← getKey node 0) < key then 1 else 0
    getChild node i
  else pure r

def btreeInsert (fuel : ℕ) (T : Btree) (key : ℤ) : Option (Unit × Btree × List Access) :=
  if T.root = 0 then none else loopFrom (insertAtRoot key) (btreeInsertNonfull key) fuel T

def btreeMerge (node : Ptr) (idx : ℕ) : Traced Unit := do
  let t ← degree
  let left ← getChild node idx
  let right ← getChild node (idx+1)
  setKey left (t-1) (← getKey node idx)
  forUp 0 (t-1) fun i => do setKey left (t+i) (← getKey right i)
  skipIf (← getLeaf left) (forUp 0 t fun i => do setChild left (t+i) (← getChild right i))
  setNum left ((← getNum left)+t)
  btreeDestroyNode right
  let n ← getNum node
  forUp (idx+1) (n-(idx+1)) fun i => do
    setKey node (i-1) (← getKey node i)
    setChild node i (← getChild node (i+1))
    testNum node
  setChild node ((max (idx+1) n : ℕ)+1) 0
  setNum node ((← getNum node)-1)
  if (← getNum node) = 0 then do
    setRoot left
    btreeDestroyNode node

def removeFromLeaf (node : Ptr) (idx : ℕ) : Traced Unit := do
  let n ← getNum node
  forUp idx (n-1-idx) fun i => do
    setKey node i (← getKey node (i+1))
    testNum node
  setKey node ((← getNum node)-1) 0
  setNum node ((← getNum node)-1)
  if (← getNum node) = 0 then do
    free node
    setRoot 0

def borrowFromNext (node : Ptr) (idx : ℕ) (child right : Ptr) : Traced Unit := do
  setKey child (← getNum child) (← getKey node idx)
  setChild child ((← getNum child)+1) (← getChild right 0)
  setNum child ((← getNum child)+1)
  setKey node idx (← getKey right 0)
  let n ← getNum right
  forUp 0 (n-1) fun i => do
    setKey right i (← getKey right (i+1))
    setChild right i (← getChild right (i+1))
    testNum right
  setKey right ((← getNum right)-1) 0
  setChild right ((← getNum right)-1) (← getChild right (← getNum right))
  setChild right (← getNum right) 0
  setNum right ((← getNum right)-1)

def borrowFromPrev (node : Ptr) (idx : ℕ) (child left : Ptr) : Traced Unit := do
  let n ← getNum child
  forDown 1 n fun i => do
    setKey child i (← getKey child (i-1))
    setChild child (i+1) (← getChild child i)
  setChild child 1 (← getChild child 0)
  setChild child 0 (← getChild left (← getNum left))
  setKey child 0 (← getKey node (idx-1))
  setNum child ((← getNum child)+1)
  setKey node (idx-1) (← getKey left ((← getNum left)-1))
  setKey left ((← getNum left)-1) 0
  setChild left (← getNum left) 0
  setNum left ((← getNum left)-1)

/-- `p && r(p->num)`. -/
def numIs (p : Ptr) (r : ℕ → Bool) : Traced Bool := do
  if p = 0 then pure false else return r (← getNum p)

def leftSibling (node : Ptr) (idx : ℕ) : Traced Ptr :=
  if 1 ≤ idx then getChild node (idx-1) else pure 0

def rightSibling (node : Ptr) (idx : ℕ) : Traced Ptr := do
  if idx+1 ≤ (← getNum node) then getChild node (idx+1) else pure 0

/-- `left && left->num >= t || right && right->num >= t`. -/
def canBorrow (t : ℕ) (left right : Ptr) : Traced Bool :=
  or (numIs left (· ≥ t)) (numIs right (· ≥ t))

def richR (left right : Ptr) : Traced Bool := do
  if left ≠ 0 ∧ right ≠ 0 then return decide ((← getNum right) > (← getNum left))
  else return decide (right ≠ 0)

/-- `right && right->num >= t && richR`. -/
def prefersNext (t : ℕ) (left right : Ptr) : Traced Bool := do
  let rich ← richR left right
  and (numIs right (· ≥ t)) (pure rich)

/-- `p && p->num == t-1`. -/
def isMinimal (t : ℕ) (p : Ptr) : Traced Bool := numIs p (· = t-1)

/-- `(!left || left->num == t-1) && (!right || right->num == t-1)`. -/
def mustMerge (t : ℕ) (left right : Ptr) : Traced Bool :=
  and (or (pure (left = 0)) (numIs left (· = t-1))) (or (pure (right = 0)) (numIs right (· = t-1)))

/-- A child of `t-1` keys gets one from a sibling, or it is merged with one. -/
def borrowOrMerge (t : ℕ) (node : Ptr) (idx : ℕ) (child left right : Ptr) : Traced Ptr := do
  if ← canBorrow t left right then do
    if ← prefersNext t left right then do
      borrowFromNext node idx child right
      return child
    else do
      borrowFromPrev node idx child left
      return child
  else if ← mustMerge t left right then do
    if ← isMinimal t left then do
      btreeMerge node (idx-1)
      return left
    else if ← isMinimal t right then do
      btreeMerge node idx
      return child
    else return child
  else return child

def refill (node : Ptr) (idx : ℕ) (child : Ptr) : Traced Ptr := do
  let t ← degree
  if (← getNum child) = t-1 then do
    let left ← leftSibling node idx
    let right ← rightSibling node idx
    borrowOrMerge t node idx child left right
  else return child

/-- The scan for the first key that is not less. -/
def scanLess (node : Ptr) (key : ℤ) : Traced ℕ := do
  let n ← getNum node
  scanUp (fun i => and (do return decide (key > (← getKey node i))) (do testNum node; return true)) 0 n

/-- `idx < node->num && key == node->keys[idx]`. -/
def isFound (node : Ptr) (key : ℤ) (idx : ℕ) : Traced Bool :=
  and (do return decide (idx < (← getNum node))) (do return decide (key = (← getKey node idx)))

/-- The branch of `btree_delete_key` that has found the key. -/
def deleteFound (node : Ptr) (key : ℤ) (idx : ℕ) : Traced (Ptr × ℤ ⊕ Bool) := do
  let t ← degree
  if ← getLeaf node then do
    removeFromLeaf node idx
    return .inr false
  else if (← getNum (← getChild node idx)) ≥ t then do
    let left ← getChild node idx
    setKey node idx (← getKey left ((← getNum left)-1))
    return .inl (left,← getKey left ((← getNum left)-1))
  else if (← getNum (← getChild node (idx+1))) ≥ t then do
    let right ← getChild node (idx+1)
    setKey node idx (← getKey right 0)
    return .inl (right,← getKey right 0)
  else do
    btreeMerge node idx
    return .inl (← getChild node idx,key)

/-- The other branch. -/
def deleteBelow (node : Ptr) (key : ℤ) (idx : ℕ) : Traced (Ptr × ℤ ⊕ Bool) := do
  let child ← getChild node idx
  if child = 0 then return .inr true
  else do
    let child ← refill node idx child
    return .inl (child,key)

/-- One level of the descent; it ends with the arguments of the recursive call, or with the flag. -/
def btreeDeleteKey : Ptr × ℤ → Traced (Ptr × ℤ ⊕ Bool) := fun (node,key) => do
  if node = 0 then return .inr false
  else do
    let idx ← scanLess node key
    if ← isFound node key idx then deleteFound node key idx else deleteBelow node key idx

def btreeDelete (fuel : ℕ) (T : Btree) (key : ℤ) : Option ((Bool × ℤ) × Btree × List Access) :=
  if T.root = 0 then some ((false,-1),T,[])
  else (loop btreeDeleteKey fuel (T.root,key) T).map fun r => ((r.1,0),r.2)

end Traced
end ServerKit.BTree
