import Mathlib.Logic.Function.Basic
import ServerKit.Lib.Loops
import ServerKit.Lib.Fuel

/-! The B-tree of `btree/btree.cpp` on an explicit node store. A read past the end of an array gives
`0` and a write past its end has no effect. A freed node leaves the store, and its cells keep what
they held. -/
namespace ServerKit.BTree
open Function ServerKit.Lib

/-- The address of a node; `0` is NULL. -/
abbrev Ptr := ℕ

structure BtreeNode where
  keys : List ℤ
  childrens : List Ptr
  num : ℕ
  leaf : Bool
  deriving DecidableEq, Repr

/-- The tree record together with the nodes: `live` tells which ones are allocated, and `next` is
the address that the next `calloc` gives. -/
structure Btree where
  root : Ptr
  t : ℕ
  node : Ptr → BtreeNode
  live : Ptr → Bool
  next : Ptr

namespace Btree

def key (T : Btree) (p : Ptr) (i : ℕ) : ℤ := (T.node p).keys.getD i 0
def child (T : Btree) (p : Ptr) (i : ℕ) : Ptr := (T.node p).childrens.getD i 0
def num (T : Btree) (p : Ptr) : ℕ := (T.node p).num
def leaf (T : Btree) (p : Ptr) : Bool := (T.node p).leaf

def modify (T : Btree) (p : Ptr) (f : BtreeNode → BtreeNode) : Btree :=
  { T with node := update T.node p (f (T.node p)) }

def setKey (T : Btree) (p : Ptr) (i : ℕ) (k : ℤ) : Btree :=
  T.modify p fun n => { n with keys := n.keys.set i k }
def setChild (T : Btree) (p : Ptr) (i : ℕ) (c : Ptr) : Btree :=
  T.modify p fun n => { n with childrens := n.childrens.set i c }
def setNum (T : Btree) (p : Ptr) (m : ℕ) : Btree := T.modify p fun n => { n with num := m }
def setRoot (T : Btree) (p : Ptr) : Btree := { T with root := p }
def free (T : Btree) (p : Ptr) : Btree := { T with live := update T.live p false }

end Btree

/-- The new node is at the address `T.next` of the old store. -/
def btreeCreateNode (T : Btree) (leaf : Bool) : Btree :=
  { T with
    node := update T.node T.next
      ⟨List.replicate (2*T.t-1) 0,List.replicate (2*T.t) 0,0,leaf⟩
    live := update T.live T.next true
    next := T.next+1 }

def btreeDestroyNode (T : Btree) (node : Ptr) : Btree := T.free node

def btreeCreate (T : Btree) (t : ℕ) : Btree :=
  let T := { T with t := t }
  let x := T.next
  (btreeCreateNode T true).setRoot x

def btreeSplitChild (T : Btree) (x : Ptr) (i : ℕ) : Btree :=
  let t := T.t
  let y := T.child x i
  let z := T.next
  let T := btreeCreateNode T (T.leaf y)
  let T := T.setNum z (t-1)
  let T := forUp 0 (t-1) (fun j T => T.setKey z j (T.key y (j+t))) T
  let T := if T.leaf y then T else forUp 0 t (fun j T => T.setChild z j (T.child y (j+t))) T
  let T := T.setNum y (t-1)
  let T := forDown (i+1) (T.num x - i) (fun j T => T.setChild x (j+1) (T.child x j)) T
  let T := T.setChild x (i+1) z
  let T := forDown i (T.num x - i) (fun j T => T.setKey x (j+1) (T.key x j)) T
  let T := T.setKey x i (T.key y (t-1))
  T.setNum x (T.num x+1)

/-- The loop that makes room in a leaf, from `i = n - 1` downwards; it returns `i + 1`. -/
def shiftGreater (x : Ptr) (k : ℤ) : ℕ → Btree → ℕ × Btree
  | 0,T => (0,T)
  | n+1,T => if T.key x n > k then shiftGreater x k n (T.setKey x (n+1) (T.key x n)) else (n+1,T)

/-- Here `i` is one more than in the source. -/
def btreeInsertNonfull : ℕ → Btree → Ptr → ℤ → Option Btree
  | 0,_,_,_ => none
  | fuel+1,T,x,k =>
    if T.leaf x then
      let (i,T) := shiftGreater x k (T.num x) T
      let T := T.setKey x i k
      some (T.setNum x (T.num x+1))
    else
      let i := scanDown (fun j => T.key x j > k) (T.num x)
      if T.num (T.child x i) = 2*T.t-1 then
        let T := btreeSplitChild T x i
        let i := if k > T.key x i then i+1 else i
        btreeInsertNonfull fuel T (T.child x i) k
      else btreeInsertNonfull fuel T (T.child x i) k

/-- A NULL root is dereferenced by `r->num`, so nothing is returned then. -/
def btreeInsert (fuel : ℕ) (T : Btree) (key : ℤ) : Option Btree :=
  let r := T.root
  if r = 0 then none
  else if T.num r = 2*T.t-1 then
    let node := T.next
    let T := btreeCreateNode T false
    let T := T.setRoot node
    let T := T.setChild node 0 r
    let T := btreeSplitChild T node 0
    let i := if T.key node 0 < key then 1 else 0
    btreeInsertNonfull fuel T (T.child node i) key
  else btreeInsertNonfull fuel T r key

/-- What `btree_traverse` prints. -/
def btreeTraverse : ℕ → Btree → Ptr → Option (List ℤ)
  | 0,_,_ => none
  | fuel+1,T,x =>
    let below := fun i => if T.leaf x then some [] else btreeTraverse fuel T (T.child x i)
    (emitUp (fun i => (below i).map fun l => l ++ [T.key x i]) 0 (T.num x)).bind fun out =>
      (below (T.num x)).map fun l => out ++ l

/-- What `btree_print` prints for one call. -/
inductive Line
  | node (layer keynum : ℕ) (isLeaf : Bool) (keys : List ℤ)
  | empty
  deriving DecidableEq, Repr

def btreePrint : ℕ → Btree → Ptr → ℕ → Option (List Line)
  | 0,_,_,_ => none
  | fuel+1,T,node,layer =>
    if node ≠ 0 then
      let line := Line.node layer (T.num node) (T.leaf node) ((List.range (T.num node)).map (T.key node))
      (emitUp (fun i =>
        if T.child node i ≠ 0 then btreePrint fuel T (T.child node i) (layer+1) else some [])
        0 (T.num node+1)).map fun out => line :: out
    else some [.empty]

/-- After its loop `i` is the larger one of `idx+1` and `node->num`. -/
def btreeMerge (T : Btree) (node : Ptr) (idx : ℕ) : Btree :=
  let t := T.t
  let left := T.child node idx
  let right := T.child node (idx+1)
  let T := T.setKey left (t-1) (T.key node idx)
  let T := forUp 0 (t-1) (fun i T => T.setKey left (t+i) (T.key right i)) T
  let T := if T.leaf left then T
    else forUp 0 t (fun i T => T.setChild left (t+i) (T.child right i)) T
  let T := T.setNum left (T.num left+t)
  let T := btreeDestroyNode T right
  let i := max (idx+1) (T.num node)
  let T := forUp (idx+1) (T.num node-(idx+1)) (fun i T =>
    (T.setKey node (i-1) (T.key node i)).setChild node i (T.child node (i+1))) T
  let T := T.setChild node (i+1) 0
  let T := T.setNum node (T.num node-1)
  if T.num node = 0 then btreeDestroyNode (T.setRoot left) node else T

/-- The branch of `btree_delete_key` that finds the key in a leaf. -/
def removeFromLeaf (T : Btree) (node : Ptr) (idx : ℕ) : Btree :=
  let T := forUp idx (T.num node-1-idx) (fun i T => T.setKey node i (T.key node (i+1))) T
  let T := T.setKey node (T.num node-1) 0
  let T := T.setNum node (T.num node-1)
  if T.num node = 0 then (T.free node).setRoot 0 else T

def borrowFromNext (T : Btree) (node : Ptr) (idx : ℕ) (child right : Ptr) : Btree :=
  let T := T.setKey child (T.num child) (T.key node idx)
  let T := T.setChild child (T.num child+1) (T.child right 0)
  let T := T.setNum child (T.num child+1)
  let T := T.setKey node idx (T.key right 0)
  let T := forUp 0 (T.num right-1) (fun i T =>
    (T.setKey right i (T.key right (i+1))).setChild right i (T.child right (i+1))) T
  let T := T.setKey right (T.num right-1) 0
  let T := T.setChild right (T.num right-1) (T.child right (T.num right))
  let T := T.setChild right (T.num right) 0
  T.setNum right (T.num right-1)

def borrowFromPrev (T : Btree) (node : Ptr) (idx : ℕ) (child left : Ptr) : Btree :=
  let T := forDown 1 (T.num child) (fun i T =>
    (T.setKey child i (T.key child (i-1))).setChild child (i+1) (T.child child i)) T
  let T := T.setChild child 1 (T.child child 0)
  let T := T.setChild child 0 (T.child left (T.num left))
  let T := T.setKey child 0 (T.key node (idx-1))
  let T := T.setNum child (T.num child+1)
  let T := T.setKey node (idx-1) (T.key left (T.num left-1))
  let T := T.setKey left (T.num left-1) 0
  let T := T.setChild left (T.num left) 0
  T.setNum left (T.num left-1)

/-- The part of `btree_delete_key` that gives a child of `t-1` keys one more, or merges it; it also
returns where the search goes on. -/
def refill (T : Btree) (node : Ptr) (idx : ℕ) (child : Ptr) : Btree × Ptr :=
  if T.num child = T.t-1 then
    let left := if 1 ≤ idx then T.child node (idx-1) else 0
    let right := if idx+1 ≤ T.num node then T.child node (idx+1) else 0
    if (left ≠ 0 ∧ T.num left ≥ T.t) ∨ (right ≠ 0 ∧ T.num right ≥ T.t) then
      let richR : Bool :=
        if left ≠ 0 ∧ right ≠ 0 then T.num right > T.num left else right ≠ 0
      if right ≠ 0 ∧ T.num right ≥ T.t ∧ richR then (borrowFromNext T node idx child right,child)
      else (borrowFromPrev T node idx child left,child)
    else if (left = 0 ∨ T.num left = T.t-1) ∧ (right = 0 ∨ T.num right = T.t-1) then
      if left ≠ 0 ∧ T.num left = T.t-1 then (btreeMerge T node (idx-1),left)
      else if right ≠ 0 ∧ T.num right = T.t-1 then (btreeMerge T node idx,child)
      else (T,child)
    else (T,child)
  else (T,child)

/-- The flag tells whether `Cannot del key` was printed. -/
def btreeDeleteKey : ℕ → Btree → Ptr → ℤ → Option (Btree × Bool)
  | 0,_,_,_ => none
  | fuel+1,T,node,key =>
    if node = 0 then some (T,false)
    else
      let idx := scanUp (fun i => key > T.key node i) 0 (T.num node)
      if idx < T.num node ∧ key = T.key node idx then
        if T.leaf node then some (removeFromLeaf T node idx,false)
        else if T.num (T.child node idx) ≥ T.t then
          let left := T.child node idx
          let T := T.setKey node idx (T.key left (T.num left-1))
          btreeDeleteKey fuel T left (T.key left (T.num left-1))
        else if T.num (T.child node (idx+1)) ≥ T.t then
          let right := T.child node (idx+1)
          let T := T.setKey node idx (T.key right 0)
          btreeDeleteKey fuel T right (T.key right 0)
        else
          let T := btreeMerge T node idx
          btreeDeleteKey fuel T (T.child node idx) key
      else
        let child := T.child node idx
        if child = 0 then some (T,true)
        else
          let (T,child) := refill T node idx child
          btreeDeleteKey fuel T child key

/-- The store, the flag of `btreeDeleteKey` and the returned status. -/
def btreeDelete (fuel : ℕ) (T : Btree) (key : ℤ) : Option (Btree × Bool × ℤ) :=
  if T.root = 0 then some (T,false,-1)
  else (btreeDeleteKey fuel T T.root key).map fun r => (r.1,r.2,0)

end ServerKit.BTree
