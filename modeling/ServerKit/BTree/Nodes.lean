import Mathlib.Data.List.GetD
import ServerKit.BTree.Code

/-! The array work of the B-tree on one node record at a time: what a record holds, and what each
loop of the code does to it. -/
namespace ServerKit.BTree
open ServerKit.Lib

/-- A node record of degree `t` that holds the keys `ks` and the children `cs`; the cells behind
them are arbitrary, but in a leaf every child cell is NULL. -/
structure NodeHolds (t : ℕ) (n : BtreeNode) (isLeaf : Bool) (ks : List ℤ) (cs : List Ptr) : Prop where
  leaf : n.leaf = isLeaf
  num : n.num = ks.length
  keys : ks <+: n.keys
  keys_size : n.keys.length = 2*t-1
  childrens : cs <+: n.childrens
  childrens_size : n.childrens.length = 2*t
  nulls : isLeaf = true → n.childrens = List.replicate (2*t) 0

theorem getD_replicate_self {α : Type} (d : α) (m i : ℕ) : (List.replicate m d).getD i d = d := by
  rw [List.getD_eq_getElem?_getD, List.getElem?_getD_replicate_default_eq]

namespace NodeHolds
variable {t : ℕ} {n : BtreeNode} {isLeaf : Bool} {ks : List ℤ} {cs : List Ptr}

theorem key {A B : List ℤ} {k : ℤ} (h : NodeHolds t n isLeaf (A ++ k :: B) cs) :
    n.keys.getD A.length 0 = k := by
  obtain ⟨pad,hpad⟩ := h.keys
  rw [← hpad]
  simp

theorem child {P S : List Ptr} {c : Ptr} (h : NodeHolds t n isLeaf ks (P ++ c :: S)) :
    n.childrens.getD P.length 0 = c := by
  obtain ⟨pad,hpad⟩ := h.childrens
  rw [← hpad]
  simp

theorem null (h : NodeHolds t n true ks cs) (i : ℕ) : n.childrens.getD i 0 = 0 := by
  rw [h.nulls rfl, getD_replicate_self]

theorem length_le (h : NodeHolds t n isLeaf ks cs) : ks.length ≤ 2*t-1 :=
  h.keys_size ▸ h.keys.length_le

theorem setKey {A B : List ℤ} {k : ℤ} (s : ℤ) (h : NodeHolds t n isLeaf (A ++ k :: B) cs) :
    NodeHolds t { n with keys := n.keys.set A.length s } isLeaf (A ++ s :: B) cs := by
  obtain ⟨pad,hpad⟩ := h.keys
  refine { h with num := by simpa using h.num, keys := ⟨pad,?_⟩, keys_size := by simp [h.keys_size] }
  rw [← hpad]
  simp

end NodeHolds

/-! Arrays of keys and of children under the loops. -/

/-- `x[j] = x[j+1]` for the `n` cells from `lo` on. -/
def shiftDown {α : Type} (d : α) (lo n : ℕ) : List α → List α :=
  forUp lo n fun j l => l.set j (l.getD (j+1) d)

/-- `x[j+1] = x[j]` for the `n` cells from `lo` on, from the last one downwards. -/
def shiftUp {α : Type} (d : α) (lo n : ℕ) : List α → List α :=
  forDown lo n fun j l => l.set (j+1) (l.getD j d)

/-- `x[o+j] = y[c+j]` for `n` cells. -/
def copyInto {α : Type} (d : α) (o c n : ℕ) (y : List α) : List α → List α :=
  forUp 0 n fun j l => l.set (o+j) (y.getD (j+c) d)

section Prefix
variable {α : Type} {d : α} {A B M l l' : List α} {x : α}

theorem length_shiftDown (lo n : ℕ) (l : List α) : (shiftDown d lo n l).length = l.length := by
  induction n generalizing lo l with
  | zero => rfl
  | succ n ih => exact (ih (lo+1) _).trans (List.length_set ..)

theorem length_shiftUp (lo n : ℕ) (l : List α) : (shiftUp d lo n l).length = l.length := by
  induction n generalizing l with
  | zero => rfl
  | succ n ih => exact (ih _).trans (List.length_set ..)

theorem shiftDown_replicate (lo n m : ℕ) :
    shiftDown d lo n (List.replicate m d) = List.replicate m d := by
  induction n generalizing lo with
  | zero => rfl
  | succ n ih =>
    rw [shiftDown, forUp, getD_replicate_self, List.set_replicate_self]
    exact ih (lo+1)

theorem shiftUp_replicate (lo n m : ℕ) :
    shiftUp d lo n (List.replicate m d) = List.replicate m d := by
  induction n with
  | zero => rfl
  | succ n ih =>
    rw [shiftUp, forDown, getD_replicate_self, List.set_replicate_self]
    exact ih

theorem prefix_shiftDown (h : A ++ x :: M <+: l) :
    A ++ M <+: shiftDown d A.length M.length l := by
  obtain ⟨pad,rfl⟩ := h
  obtain ⟨y,hy⟩ := forUp_shift d A M pad x
  exact ⟨y :: pad,hy.symm⟩

theorem prefix_shiftUp (h : A ++ M <+: l) (hl : (A ++ M).length < l.length) (x : α) :
    A ++ x :: M <+: (shiftUp d A.length M.length l).set A.length x := by
  obtain ⟨pad,rfl⟩ := h
  obtain _ | ⟨z,pad⟩ := pad
  · simp at hl
  · obtain ⟨y,hy⟩ := forDown_shift d A M pad z
    exact ⟨pad,by rw [shiftUp, hy]; simp⟩

theorem prefix_copyInto (h : M <+: l) (h' : A ++ B <+: l') (hl : M.length+B.length ≤ l.length) :
    M ++ B <+: copyInto d M.length A.length B.length l' l := by
  obtain ⟨pad,rfl⟩ := h
  obtain ⟨pad',rfl⟩ := h'
  have hlen : B.length ≤ pad.length := by
    rw [List.length_append] at hl
    omega
  have hcopy := forUp_copy d M (pad.take B.length) (pad.drop B.length) A B pad' (by simp [hlen])
  rw [List.append_assoc M, List.take_append_drop, List.length_take, min_eq_left hlen] at hcopy
  exact ⟨pad.drop B.length,hcopy.symm⟩

theorem length_copyInto (o c n : ℕ) (l' l : List α) :
    (copyInto d o c n l' l).length = l.length := by
  have key : ∀ lo (l : List α),
      (forUp lo n (fun j l => l.set (o+j) (l'.getD (j+c) d)) l).length = l.length := by
    induction n with
    | zero => exact fun _ _ => rfl
    | succ n ih => exact fun lo l => (ih (lo+1) _).trans (List.length_set ..)
  exact key 0 l

theorem prefix_set (h : A ++ x :: B <+: l) (y : α) : A ++ y :: B <+: l.set A.length y := by
  obtain ⟨pad,rfl⟩ := h
  exact ⟨pad,by simp⟩

/-- A write behind the prefix is not seen. -/
theorem prefix_set_behind (h : A <+: l) {i : ℕ} (hi : A.length ≤ i) (y : α) : A <+: l.set i y := by
  obtain ⟨pad,rfl⟩ := h
  exact ⟨pad.set (i-A.length) y,by rw [List.set_append_right _ _ hi]⟩

theorem prefix_push (h : A <+: l) (hl : A.length < l.length) (y : α) :
    A ++ [y] <+: l.set A.length y := by
  obtain ⟨pad,rfl⟩ := h
  obtain _ | ⟨z,pad⟩ := pad
  · simp at hl
  · exact ⟨pad,by simp⟩

theorem getD_of_prefix (h : A ++ x :: B <+: l) : l.getD A.length d = x := by
  obtain ⟨pad,rfl⟩ := h
  simp

theorem prefix_shiftUp_left (h : A ++ M <+: l) (hl : (A ++ M).length < l.length) :
    A <+: shiftUp d A.length M.length l := by
  obtain ⟨pad,rfl⟩ := h
  obtain _ | ⟨z,pad⟩ := pad
  · simp at hl
  · obtain ⟨y,hy⟩ := forDown_shift d A M pad z
    exact ⟨y :: M ++ pad,by rw [shiftUp, hy]; simp⟩

theorem prefix_of_append (h : A ++ B <+: l) : A <+: l :=
  (List.prefix_append A B).trans h

end Prefix

/-! What the code does to one record. -/
namespace BtreeNode

/-- A key goes to the position `i` of a leaf. -/
def insertKey (i : ℕ) (k : ℤ) (n : BtreeNode) : BtreeNode :=
  { n with keys := (shiftUp 0 i (n.num-i) n.keys).set i k, num := n.num+1 }

/-- The key of the position `i` leaves a leaf. -/
def removeKey (i : ℕ) (n : BtreeNode) : BtreeNode :=
  { n with keys := (shiftDown 0 i (n.num-1-i) n.keys).set (n.num-1) 0, num := n.num-1 }

/-- The parent of a split child gets the middle key and the new node `z`. -/
def insertChild (i : ℕ) (k : ℤ) (z : Ptr) (n : BtreeNode) : BtreeNode :=
  { n with
    keys := (shiftUp 0 i (n.num-i) n.keys).set i k
    childrens := (shiftUp 0 (i+1) (n.num-i) n.childrens).set (i+1) z
    num := n.num+1 }

/-- The new node of a split. -/
def upperHalf (t : ℕ) (y : BtreeNode) : BtreeNode where
  keys := copyInto 0 0 t (t-1) y.keys (List.replicate (2*t-1) 0)
  childrens := if y.leaf then List.replicate (2*t) 0
    else copyInto 0 0 t t y.childrens (List.replicate (2*t) 0)
  num := t-1
  leaf := y.leaf

/-- The left node of a merge. -/
def absorb (t : ℕ) (k : ℤ) (r l : BtreeNode) : BtreeNode :=
  { l with
    keys := copyInto 0 t 0 (t-1) r.keys (l.keys.set (t-1) k)
    childrens := if l.leaf then l.childrens else copyInto 0 t 0 t r.childrens l.childrens
    num := l.num+t }

/-- The parent of a merge. -/
def closeGap (i : ℕ) (n : BtreeNode) : BtreeNode :=
  { n with
    keys := shiftDown 0 i (n.num-(i+1)) n.keys
    childrens := (shiftDown 0 (i+1) (n.num-(i+1)) n.childrens).set (max (i+1) n.num+1) 0
    num := n.num-1 }

def pushBack (k : ℤ) (c : Ptr) (n : BtreeNode) : BtreeNode :=
  { n with
    keys := n.keys.set n.num k, childrens := n.childrens.set (n.num+1) c, num := n.num+1 }

def popBack (n : BtreeNode) : BtreeNode :=
  { n with keys := n.keys.set (n.num-1) 0, childrens := n.childrens.set n.num 0, num := n.num-1 }

def pushFront (k : ℤ) (c : Ptr) (n : BtreeNode) : BtreeNode :=
  let cs := shiftUp 0 1 n.num n.childrens
  { n with
    keys := (shiftUp 0 0 n.num n.keys).set 0 k
    childrens := (cs.set 1 (cs.getD 0 0)).set 0 c
    num := n.num+1 }

def popFront (n : BtreeNode) : BtreeNode :=
  let cs := shiftDown 0 0 (n.num-1) n.childrens
  { n with
    keys := (shiftDown 0 0 (n.num-1) n.keys).set (n.num-1) 0
    childrens := (cs.set (n.num-1) (cs.getD n.num 0)).set n.num 0
    num := n.num-1 }

end BtreeNode

namespace NodeHolds
variable {t : ℕ} {n l r : BtreeNode} {isLeaf : Bool} {A B ks lk rk : List ℤ} {P S cs lc rc : List Ptr}
  {k : ℤ} {c d z : Ptr}

theorem length_lt (h : NodeHolds t n isLeaf ks cs) (hlt : ks.length < 2*t-1) :
    ks.length < n.keys.length := by
  rw [h.keys_size]
  exact hlt

theorem insertKey (h : NodeHolds t n true (A ++ B) []) (hlt : (A ++ B).length < 2*t-1) (k : ℤ) :
    NodeHolds t (n.insertKey A.length k) true (A ++ k :: B) [] := by
  have hB : n.num-A.length = B.length := by
    rw [h.num, List.length_append]
    omega
  refine { h with num := ?_, keys := ?_, keys_size := ?_ }
  · simp [BtreeNode.insertKey,h.num]
    omega
  · rw [BtreeNode.insertKey, hB]
    exact prefix_shiftUp h.keys (h.length_lt hlt) k
  · simp [BtreeNode.insertKey,length_shiftUp,h.keys_size]

theorem removeKey (h : NodeHolds t n true (A ++ k :: B) []) :
    NodeHolds t (n.removeKey A.length) true (A ++ B) [] := by
  have hnum : n.num = A.length+B.length+1 := by
    rw [h.num, List.length_append, List.length_cons]
    omega
  have hB : n.num-1-A.length = B.length := by omega
  refine { h with num := ?_, keys := ?_, keys_size := ?_ }
  · simp [BtreeNode.removeKey,hnum]
  · rw [BtreeNode.removeKey, hB]
    exact prefix_set_behind (prefix_shiftDown h.keys) (by simp; omega) 0
  · simp [BtreeNode.removeKey,length_shiftDown,h.keys_size]

theorem insertChild (h : NodeHolds t n false (A ++ B) (P ++ c :: S)) (hP : P.length = A.length)
    (hS : S.length = B.length) (hlt : (A ++ B).length < 2*t-1) (k : ℤ) (z : Ptr) :
    NodeHolds t (n.insertChild A.length k z) false (A ++ k :: B) (P ++ c :: z :: S) := by
  have hB : n.num-A.length = B.length := by
    rw [h.num, List.length_append]
    omega
  have hchilds : P ++ [c] ++ S <+: n.childrens := by simpa using h.childrens
  have hroom : (P ++ [c] ++ S).length < n.childrens.length := by
    rw [List.length_append] at hlt
    simp [h.childrens_size]
    omega
  have hi : (P ++ [c]).length = A.length+1 := by simp [hP]
  refine { h with
    num := ?_, keys := ?_, keys_size := ?_, childrens := ?_, childrens_size := ?_, nulls := by simp }
  · simp [BtreeNode.insertChild,h.num]
    omega
  · rw [BtreeNode.insertChild, hB]
    exact prefix_shiftUp h.keys (h.length_lt hlt) k
  · simp [BtreeNode.insertChild,length_shiftUp,h.keys_size]
  · have hshift := prefix_shiftUp (d := (0 : Ptr)) hchilds hroom z
    rw [hi, hS] at hshift
    rw [BtreeNode.insertChild, hB]
    simpa using hshift
  · simp [BtreeNode.insertChild,length_shiftUp,h.childrens_size]

/-- A full node that forgets its upper half. -/
theorem truncate (h : NodeHolds t n isLeaf (lk ++ rk) (lc ++ rc)) :
    NodeHolds t { n with num := lk.length } isLeaf lk lc :=
  { h with num := rfl, keys := prefix_of_append h.keys, childrens := prefix_of_append h.childrens }

theorem upperHalf (h : NodeHolds t n isLeaf (lk ++ k :: rk) (lc ++ rc)) (hl : lk.length+1 = t)
    (hr : rk.length+1 = t) (hlc : isLeaf = false → lc.length = t) (hrc : isLeaf = false → rc.length = t)
    (hleaf : isLeaf = true → rc = []) :
    NodeHolds t (BtreeNode.upperHalf t n) isLeaf rk rc where
  leaf := h.leaf
  num := by
    change t-1 = rk.length
    omega
  keys := by
    have hk : lk ++ [k] ++ rk <+: n.keys := by simpa using h.keys
    have hcopy := prefix_copyInto (d := (0 : ℤ)) (l := List.replicate (2*t-1) 0) List.nil_prefix hk
      (by simp; omega)
    rw [List.length_append, List.length_singleton, hl, show rk.length = t-1 by omega] at hcopy
    exact hcopy
  keys_size := by simp [BtreeNode.upperHalf,length_copyInto]
  childrens := by
    cases isLeaf with
    | true => simp [hleaf]
    | false =>
      have hcopy := prefix_copyInto (d := (0 : Ptr)) (l := List.replicate (2*t) 0) List.nil_prefix
        h.childrens (by simp [hrc]; omega)
      rw [hlc rfl, hrc rfl] at hcopy
      simpa [BtreeNode.upperHalf,h.leaf] using hcopy
  childrens_size := by
    rw [BtreeNode.upperHalf]
    split <;> simp [length_copyInto]
  nulls hb := by
    subst hb
    simp [BtreeNode.upperHalf,h.leaf]

theorem absorb (hl : NodeHolds t l isLeaf lk lc) (hr : NodeHolds t r isLeaf rk rc)
    (hlk : lk.length+1 = t) (hrk : rk.length+1 = t) (hlc : isLeaf = false → lc.length = t)
    (hrc : isLeaf = false → rc.length = t) (hleaf : isLeaf = true → rc = []) (k : ℤ) :
    NodeHolds t (BtreeNode.absorb t k r l) isLeaf (lk ++ k :: rk) (lc ++ rc) where
  leaf := hl.leaf
  num := by
    simp [BtreeNode.absorb,hl.num]
    omega
  keys := by
    have hpush := prefix_push hl.keys (hl.length_lt (by omega)) k
    have hcopy := prefix_copyInto (d := (0 : ℤ)) (A := []) hpush hr.keys
      (by simp [hl.keys_size]; omega)
    rw [List.length_append, List.length_singleton, hlk, show rk.length = t-1 by omega,
      show lk.length = t-1 by omega] at hcopy
    rw [BtreeNode.absorb]
    simpa using hcopy
  keys_size := by simp [BtreeNode.absorb,length_copyInto,hl.keys_size]
  childrens := by
    cases isLeaf with
    | true => simpa [hleaf,BtreeNode.absorb,hl.leaf] using hl.childrens
    | false =>
      have hcopy := prefix_copyInto (d := (0 : Ptr)) (A := []) hl.childrens hr.childrens
        (by simp [hlc,hrc,hl.childrens_size]; omega)
      rw [hlc rfl, hrc rfl] at hcopy
      simpa [BtreeNode.absorb,hl.leaf] using hcopy
  childrens_size := by
    rw [BtreeNode.absorb]
    split <;> simp [length_copyInto,hl.childrens_size]
  nulls hb := by
    subst hb
    simpa [BtreeNode.absorb,hl.leaf] using hl.nulls rfl

theorem closeGap (h : NodeHolds t n false (A ++ k :: B) (P ++ c :: d :: S))
    (hP : P.length = A.length) (hS : S.length = B.length) :
    NodeHolds t (n.closeGap A.length) false (A ++ B) (P ++ c :: S) := by
  have hnum : n.num = A.length+B.length+1 := by
    rw [h.num, List.length_append, List.length_cons]
    omega
  have hB : n.num-(A.length+1) = B.length := by omega
  refine { h with
    num := ?_, keys := ?_, keys_size := ?_, childrens := ?_, childrens_size := ?_, nulls := by simp }
  · simp [BtreeNode.closeGap,hnum]
  · rw [BtreeNode.closeGap, hB]
    exact prefix_shiftDown h.keys
  · simp [BtreeNode.closeGap,length_shiftDown,h.keys_size]
  · have hchilds : P ++ [c] ++ d :: S <+: n.childrens := by simpa using h.childrens
    have hshift := prefix_shiftDown (d := (0 : Ptr)) hchilds
    rw [List.length_append, List.length_singleton, hP, hS] at hshift
    rw [BtreeNode.closeGap, hB]
    simpa using prefix_set_behind hshift (i := max (A.length+1) n.num+1) (by simp; omega) 0
  · simp [BtreeNode.closeGap,length_shiftDown,h.childrens_size]

theorem pushBack (h : NodeHolds t n isLeaf ks cs) (hlt : ks.length < 2*t-1) (k : ℤ) {ds : List Ptr}
    (hc : isLeaf = true → c = 0 ∧ ds = []) (hds : isLeaf = false → cs.length = ks.length+1 ∧ ds = [c]) :
    NodeHolds t (n.pushBack k c) isLeaf (ks ++ [k]) (cs ++ ds) where
  leaf := h.leaf
  num := by simp [BtreeNode.pushBack,h.num]
  keys := by
    rw [BtreeNode.pushBack, h.num]
    exact prefix_push h.keys (h.length_lt hlt) k
  keys_size := by simp [BtreeNode.pushBack,h.keys_size]
  childrens := by
    rw [BtreeNode.pushBack, h.num]
    cases isLeaf with
    | true =>
      obtain ⟨rfl,rfl⟩ := hc rfl
      rw [List.append_nil, h.nulls rfl, List.set_replicate_self, ← h.nulls rfl]
      exact h.childrens
    | false =>
      obtain ⟨hcs,rfl⟩ := hds rfl
      rw [← hcs]
      exact prefix_push h.childrens (by rw [h.childrens_size]; omega) c
  childrens_size := by simp [BtreeNode.pushBack,h.childrens_size]
  nulls hb := by rw [BtreeNode.pushBack, h.nulls hb, (hc hb).1, List.set_replicate_self]

theorem popBack (h : NodeHolds t n isLeaf (ks ++ [k]) (cs ++ S))
    (hS : isLeaf = false → cs.length = ks.length+1) (hcs : isLeaf = true → cs = []) :
    NodeHolds t n.popBack isLeaf ks cs := by
  have hnum : n.num = ks.length+1 := by simpa using h.num
  refine ⟨h.leaf,by simp [BtreeNode.popBack,hnum],?_,?_,?_,?_,fun hb => ?_⟩
  · exact prefix_set_behind (prefix_of_append h.keys) (by omega) 0
  · simp [BtreeNode.popBack,h.keys_size]
  · cases isLeaf with
    | true =>
      rw [hcs rfl]
      exact List.nil_prefix
    | false => exact prefix_set_behind (prefix_of_append h.childrens) (by rw [hS rfl, hnum]) 0
  · simp [BtreeNode.popBack,h.childrens_size]
  · rw [BtreeNode.popBack, h.nulls hb, List.set_replicate_self]

theorem pushFront (h : NodeHolds t n isLeaf ks cs) (hlt : ks.length < 2*t-1) (k : ℤ) {ds : List Ptr}
    (hc : isLeaf = true → c = 0 ∧ ds = []) (hds : isLeaf = false → cs.length = ks.length+1 ∧ ds = [c]) :
    NodeHolds t (n.pushFront k c) isLeaf (k :: ks) (ds ++ cs) where
  leaf := h.leaf
  num := by simp [BtreeNode.pushFront,h.num]
  keys := by
    rw [BtreeNode.pushFront, h.num]
    exact prefix_shiftUp (A := []) h.keys (h.length_lt hlt) k
  keys_size := by simp [BtreeNode.pushFront,length_shiftUp,h.keys_size]
  childrens := by
    cases isLeaf with
    | true =>
      obtain ⟨rfl,rfl⟩ := hc rfl
      have hsame : (n.pushFront k 0).childrens = n.childrens := by
        rw [BtreeNode.pushFront, h.nulls rfl]
        simp only [shiftUp_replicate, getD_replicate_self, List.set_replicate_self]
      rw [hsame]
      exact h.childrens
    | false =>
      obtain ⟨hcs,rfl⟩ := hds rfl
      obtain _ | ⟨c₀,M⟩ := cs
      · simp at hcs
      · have hM : n.num = M.length := by
          rw [h.num]
          simpa using hcs.symm
        have hchilds : [c₀] ++ M <+: n.childrens := h.childrens
        have hroom : ([c₀] ++ M).length < n.childrens.length := by
          rw [h.childrens_size, List.singleton_append, hcs]
          omega
        have hfirst : (shiftUp 0 1 n.num n.childrens).getD 0 0 = c₀ := by
          rw [hM]
          exact getD_of_prefix (A := []) (prefix_shiftUp_left hchilds hroom)
        have hshift : [c₀] ++ c₀ :: M <+: (shiftUp 0 1 n.num n.childrens).set 1 c₀ := by
          rw [hM]
          exact prefix_shiftUp hchilds hroom c₀
        simp only [BtreeNode.pushFront, hfirst]
        exact prefix_set (A := []) hshift c
  childrens_size := by simp [BtreeNode.pushFront,length_shiftUp,h.childrens_size]
  nulls hb := by
    rw [BtreeNode.pushFront, h.nulls hb]
    simp only [shiftUp_replicate, getD_replicate_self, List.set_replicate_self, (hc hb).1]

theorem popFront (h : NodeHolds t n isLeaf (k :: ks) (S ++ cs)) (hS : isLeaf = false → S = [c])
    (hcs : isLeaf = false → cs.length = ks.length+1) (hleaf : isLeaf = true → cs = []) :
    NodeHolds t n.popFront isLeaf ks cs := by
  have hnum : n.num-1 = ks.length := by
    rw [h.num]
    simp
  refine ⟨h.leaf,hnum,?_,?_,?_,?_,fun hb => ?_⟩
  · rw [BtreeNode.popFront, hnum]
    exact prefix_set_behind (prefix_shiftDown (A := []) h.keys) le_rfl 0
  · simp [BtreeNode.popFront,length_shiftDown,h.keys_size]
  · cases isLeaf with
    | true =>
      rw [hleaf rfl]
      exact List.nil_prefix
    | false =>
      obtain ⟨pad,hpad⟩ := h.childrens
      obtain rfl := hS rfl
      -- the loop stops one cell early, and the last child is moved by hand
      obtain rfl | ⟨M,e,rfl⟩ := cs.eq_nil_or_concat
      · simp at hcs
      · have hM : ks.length = M.length := by simpa using (hcs rfl).symm
        have hn : n.num = M.length+1 := by
          rw [h.num, List.length_cons, hM]
        obtain ⟨y,hy⟩ := forUp_shift (0 : Ptr) [] M (e :: pad) c
        have hshift : shiftDown 0 0 (n.num-1) n.childrens = M ++ y :: e :: pad := by
          rw [← hpad, hnum, hM]
          simpa [shiftDown] using hy
        refine ⟨0 :: pad,?_⟩
        simp only [BtreeNode.popFront, hshift]
        simp [hn]
  · simp [BtreeNode.popFront,length_shiftDown,h.childrens_size]
  · rw [BtreeNode.popFront, h.nulls hb]
    simp only [shiftDown_replicate, getD_replicate_self, List.set_replicate_self]

end NodeHolds
end ServerKit.BTree
