import Mathlib.Algebra.Group.Nat.Defs
import Mathlib.Algebra.Ring.Int.Defs
import ServerKit.BTree.Traced
import ServerKit.Lib.Bisection

/-! What `btree_bin_search` finds, and which keys it reads. -/
namespace ServerKit.BTree
open ServerKit.Lib

/-- The sum of two values of type `int`, which wraps around. -/
def addInt (a b : ℤ) : ℤ := Int.bmod (a+b) (2^32)

def INT_MAX : ℤ := 2^31-1

/-- One pass of the loop on `low` and `high`. -/
def binSearchPass (node : Ptr) (key : ℤ) : ℤ × ℤ → Traced ((ℤ × ℤ) ⊕ ℤ)
  | (low,high) =>
    if low ≤ high then do
      let mid := (addInt low high).tdiv 2
      if key > (← Traced.getKey node mid) then return .inl (addInt mid 1,high)
      else return .inl (low,addInt mid (-1))
    else return .inr low

def btreeBinSearch (fuel : ℕ) (node : Ptr) (low high key : ℤ) (T : Btree) :
    Option (ℤ × Btree × List Access) :=
  if low > high ∨ low < 0 ∨ high < 0 then some (-1,T,[])
  else Logged.loop (binSearchPass node key) fuel (low,high) T

section Passes
variable (T : Btree) (node : Ptr) (key : ℤ) {low high : ℤ}

/-- The key at a position is less than the one that is searched for. -/
def Less (T : Btree) (node : Ptr) (key j : ℤ) : Prop := T.key node j.toNat < key

instance (T : Btree) (node : Ptr) (key j : ℤ) : Decidable (Less T node key j) :=
  inferInstanceAs (Decidable (_ < _))

/-- The read of the key in the middle of an interval. -/
def midRead (T : Btree) (node : Ptr) (x : ℤ × ℤ) : Access := Traced.access node (.key ((x.1+x.2)/2)) T

theorem addInt_eq {a b : ℤ} (h : -2^31 ≤ a+b) (h' : a+b ≤ INT_MAX) : addInt a b = a+b := by
  unfold INT_MAX at h'
  exact Int.bmod_eq_of_le (by omega) (by omega)

/-- A sum of two positions that does not fit becomes negative. -/
theorem addInt_overflow {a b : ℤ} (h : INT_MAX < a+b) (ha : a ≤ INT_MAX) (hb : b ≤ INT_MAX) :
    addInt a b < -1 := by
  unfold INT_MAX at h ha hb
  unfold addInt
  rw [Int.bmod_def]
  split <;> omega

/-- The two halves of an interval whose bounds have a sum that fits. -/
theorem binSearchPass_eq (hlow : 0 ≤ low) (hle : low ≤ high) (hsum : low+high ≤ INT_MAX) :
    binSearchPass node key (low,high) T =
      (.inl (if Less T node key ((low+high)/2) then ((low+high)/2+1,high) else (low,(low+high)/2-1)),T,
        [midRead T node (low,high)]) := by
  have hmax := hsum
  unfold INT_MAX at hmax
  have hmid : (addInt low high).tdiv 2 = (low+high)/2 := by
    rw [addInt_eq (by omega) hsum]
    exact Int.tdiv_eq_ediv_of_nonneg (by omega)
  have hright : addInt ((low+high)/2) 1 = (low+high)/2+1 := addInt_eq (by omega) (by unfold INT_MAX; omega)
  have hleft : addInt ((low+high)/2) (-1) = (low+high)/2-1 := addInt_eq (by omega) (by unfold INT_MAX; omega)
  have hread : Traced.getKey node ((low+high)/2) T =
    (T.key node ((low+high)/2).toNat,T,[midRead T node (low,high)]) := rfl
  rw [binSearchPass, if_pos hle, hmid, hright, hleft, Logged.bind_eq hread]
  by_cases hless : Less T node key ((low+high)/2)
  · rw [if_pos hless, if_pos (show key > _ from hless)]
    rfl
  · rw [if_neg hless, if_neg (show ¬ key > _ from hless)]
    rfl

/-- In the middle of other intervals is a negative position. -/
theorem binSearchPass_overflow (hle : low ≤ high) (hsum : INT_MAX < low+high) (hmax : high ≤ INT_MAX) :
    ∃ j < 0, Traced.access node (.key j) T ∈ (binSearchPass node key (low,high)).log T := by
  have hneg := addInt_overflow hsum (Int.le_trans hle hmax) hmax
  refine ⟨(addInt low high).tdiv 2,?_,?_⟩
  · have hsign : Int.sign 2 = 1 := rfl
    have hquot := Int.tdiv_eq_ediv (a := addInt low high) (b := 2)
    split at hquot <;> omega
  · rw [binSearchPass, if_pos hle]
    exact List.mem_append_left _ List.mem_cons_self

end Passes

section Runs
variable {T : Btree} {node : Ptr} {key low high : ℤ} {l : List (ℤ × ℤ)} {i : ℤ}

/-- As long as all sums fit, the loop is a bisection. -/
theorem binSearch_returns (h : Bisection (Less T node key) low high l i) (hlow : 0 ≤ low)
    (hsum : ∀ x ∈ l, x.1+x.2 ≤ INT_MAX) :
    Returns (fun n => Logged.loop (binSearchPass node key) n (low,high) T) (i,T,l.map (midRead T node)) := by
  induction h with
  | @done low high hlt =>
    refine Logged.returns_done ?_
    rw [binSearchPass, if_neg (Int.not_le.mpr hlt)]
    rfl
  | @right low high l i hle hmid rest ih =>
    obtain ⟨hfirst,hsum⟩ := List.forall_mem_cons.mp hsum
    have hpass := binSearchPass_eq T node key hlow hle hfirst
    rw [if_pos hmid] at hpass
    exact Logged.returns_next hpass (ih (by omega) hsum)
  | @left low high l i hle hmid rest ih =>
    obtain ⟨hfirst,hsum⟩ := List.forall_mem_cons.mp hsum
    have hpass := binSearchPass_eq T node key hlow hle hfirst
    rw [if_neg hmid] at hpass
    exact Logged.returns_next hpass (ih hlow hsum)

/-- If the first sum does not fit, a key in front of the array is read. -/
theorem binSearch_overflow (hle : low ≤ high) (hsum : INT_MAX < low+high) (hmax : high ≤ INT_MAX) {n : ℕ}
    {r : ℤ} {t : Btree} {es : List Access}
    (hrun : Logged.loop (binSearchPass node key) n (low,high) T = some (r,t,es)) :
    ∃ j < 0, Traced.access node (.key j) T ∈ es := by
  obtain ⟨j,hj,hin⟩ := binSearchPass_overflow T node key hle hsum hmax
  exact ⟨j,hj,Logged.clean_of_loop hrun (fun _ => id) _ hin⟩

/-- Once a sum does not fit, one is read. -/
theorem binSearch_overflows (h : Bisection (Less T node key) low high l i) (hlow : 0 ≤ low)
    (hmax : high ≤ INT_MAX) (hsum : ∃ x ∈ l, INT_MAX < x.1+x.2) {n : ℕ} {r : ℤ} {t : Btree}
    {es : List Access} (hrun : Logged.loop (binSearchPass node key) n (low,high) T = some (r,t,es)) :
    ∃ j < 0, Traced.access node (.key j) T ∈ es := by
  have hlater {x : ℤ × ℤ} {l : List (ℤ × ℤ)} (hx : x.1+x.2 ≤ INT_MAX)
      (h : ∃ y ∈ x :: l, INT_MAX < y.1+y.2) : ∃ y ∈ l, INT_MAX < y.1+y.2 := by
    obtain ⟨y,hy,hover⟩ := h
    obtain rfl | hy := List.mem_cons.mp hy
    · exact absurd hx (Int.not_le.mpr hover)
    · exact ⟨y,hy,hover⟩
  induction h generalizing n es with
  | done =>
    obtain ⟨x,hx,-⟩ := hsum
    cases hx
  | @right low high l i hle hmid rest ih =>
    obtain hover | hfits := Int.lt_or_le INT_MAX (low+high)
    · exact binSearch_overflow hle hover hmax hrun
    · have hpass := binSearchPass_eq T node key hlow hle hfits
      rw [if_pos hmid] at hpass
      obtain ⟨m,es',hrest,rfl⟩ := Logged.loop_of_next hpass hrun
      obtain ⟨j,hj,hin⟩ := ih (by omega) hmax (hlater hfits hsum) hrest
      exact ⟨j,hj,List.mem_append_right _ hin⟩
  | @left low high l i hle hmid rest ih =>
    obtain hover | hfits := Int.lt_or_le INT_MAX (low+high)
    · exact binSearch_overflow hle hover hmax hrun
    · have hpass := binSearchPass_eq T node key hlow hle hfits
      rw [if_neg hmid] at hpass
      obtain ⟨m,es',hrest,rfl⟩ := Logged.loop_of_next hpass hrun
      obtain ⟨j,hj,hin⟩ := ih hlow (by omega) (hlater hfits hsum) hrest
      exact ⟨j,hj,List.mem_append_right _ hin⟩

end Runs

/-- The keys of a node do not decrease from `low` to `high`. -/
def SortedOn (T : Btree) (node : Ptr) (low high : ℤ) : Prop :=
  ∀ a b : ℤ, low ≤ a → a ≤ b → b ≤ high → T.key node a.toNat ≤ T.key node b.toNat

/-- The search comes to an end, reads keys from `low` to `high` only, and returns the first position there
whose key is not less than `key`, or the one behind `high`. Over the whole node this is where the scan of
`btreeDeleteKey` ends. -/
def Finds (T : Btree) (node : Ptr) (low high key : ℤ) : Prop :=
  ∃ i es, Returns (fun n => btreeBinSearch n node low high key T) (i,T,es) ∧
    (∀ e ∈ es, ∃ j, e = Traced.access node (.key j) T ∧ low ≤ j ∧ j ≤ high) ∧
    LowerBound (Less T node key) low high i ∧
    (low = 0 → high = T.num node-1 → i = scanUp (fun i => key > T.key node i) 0 (T.num node))

section Finds
variable {T : Btree} {node : Ptr} {key low high : ℤ}

theorem lowerBound_scanUp (T : Btree) (node : Ptr) (key : ℤ) : LowerBound (Less T node key) 0
    (T.num node-1) (scanUp (fun i => key > T.key node i) 0 (T.num node) : ℕ) := by
  obtain ⟨-,hle,hbelow,hstop⟩ := scanUp_spec (fun i => key > T.key node i) 0 (T.num node)
  refine ⟨Int.natCast_nonneg _,by omega,fun j hj hlt => ?_,hstop.imp (fun h => by omega) fun h => ?_⟩
  · exact of_decide_eq_true (hbelow j.toNat (Nat.zero_le _) (by omega))
  · exact of_decide_eq_false h

theorem btreeBinSearch_eq (hlow : 0 ≤ low) (hle : low ≤ high) (fuel : ℕ) :
    btreeBinSearch fuel node low high key T = Logged.loop (binSearchPass node key) fuel (low,high) T :=
  if_neg (by omega)

/-- The search finds its position if all the sums fit. -/
theorem finds (hlow : 0 ≤ low) (hle : low ≤ high) (hsorted : SortedOn T node low high)
    (hsum : ∀ l i, Bisection (Less T node key) low high l i → ∀ x ∈ l, x.1+x.2 ≤ INT_MAX) :
    Finds T node low high key := by
  obtain ⟨l,i,h⟩ := Bisection.exists_result (Less T node key) low high
  have hbound : LowerBound (Less T node key) low high i :=
    h.lowerBound (by omega) fun a b ha hab hb => Int.lt_of_le_of_lt (hsorted a b ha hab hb)
  refine ⟨i,l.map (midRead T node),?_,fun e he => ?_,hbound,?_⟩
  · exact (binSearch_returns h hlow (hsum l i h)).congr (btreeBinSearch_eq hlow hle)
  · obtain ⟨x,hx,rfl⟩ := List.mem_map.mp he
    have hin := h.within x hx
    exact ⟨_,rfl,by omega,by omega⟩
  · rintro rfl rfl
    exact hbound.unique (lowerBound_scanUp T node key)

/-- It does not if one of them does not fit. -/
theorem not_finds (hlow : 0 ≤ low) (hle : low ≤ high) (hmax : high ≤ INT_MAX) {l : List (ℤ × ℤ)} {i : ℤ}
    (h : Bisection (Less T node key) low high l i) (hsum : ∃ x ∈ l, INT_MAX < x.1+x.2) :
    ¬ Finds T node low high key := by
  rintro ⟨r,es,⟨N,hN⟩,hreads,-⟩
  have hrun := (btreeBinSearch_eq hlow hle N).symm.trans (hN N (Nat.le_refl N))
  obtain ⟨j,hj,hin⟩ := binSearch_overflows h hlow hmax hsum hrun
  obtain ⟨j',heq,hge,-⟩ := hreads _ hin
  cases heq
  omega

/-- A tree of one node with `n` zeros. -/
def zeros (n : ℕ) : Btree where
  root := 1
  t := n/2+1
  node := fun _ => ⟨List.replicate (2*(n/2+1)-1) 0,List.replicate (2*(n/2+1)) 0,n,true⟩
  live := fun p => p = 1
  next := 2

theorem key_zeros (n : ℕ) (node : Ptr) (i : ℕ) : (zeros n).key node i = 0 := by
  change (List.replicate _ (0 : ℤ)).getD i 0 = 0
  rw [List.getD_eq_getElem?_getD, List.getElem?_replicate]
  split <;> rfl

theorem sortedOn_zeros (n : ℕ) (node : Ptr) (low high : ℤ) : SortedOn (zeros n) node low high := by
  intro a b _ _ _
  exact Int.le_of_eq ((key_zeros n node _).trans (key_zeros n node _).symm)

/-- Among zeros the search for `1` comes to the last position. -/
theorem not_finds_zeros (n : ℕ) (node : Ptr) (hlow : 0 ≤ low) (hle : low ≤ high) (hmax : high ≤ INT_MAX)
    (hsum : INT_MAX < high+high) : ¬ Finds (zeros n) node low high 1 := by
  obtain ⟨l,i,h⟩ := Bisection.exists_result (Less (zeros n) node 1) low high
  refine not_finds hlow hle hmax h ⟨(high,high),h.last hle fun j _ _ => ?_,hsum⟩
  unfold Less
  rw [key_zeros]
  exact Int.zero_lt_one

end Finds

section Results
variable {low high : ℤ}

/-- On keys that do not decrease, the search does what it should for a node and a key exactly if all the sums
`low + high` fit into an `int` that the bisection comes to, and it does so for all nodes and all keys exactly
if twice `high` fits. -/
theorem binSearch_finds_iff (hlow : 0 ≤ low) (hle : low ≤ high) (hsum : low+high ≤ INT_MAX) :
    (∀ (T : Btree) (node : Ptr) (key : ℤ), high < T.num node → SortedOn T node low high →
      (Finds T node low high key ↔
        ∀ l i, Bisection (Less T node key) low high l i → ∀ x ∈ l, x.1+x.2 ≤ INT_MAX)) ∧
    ((∀ (T : Btree) (node : Ptr) (key : ℤ), high < T.num node → SortedOn T node low high →
      Finds T node low high key) ↔ high+high ≤ INT_MAX) := by
  have hmax : high ≤ INT_MAX := by omega
  refine ⟨fun T node key hnum hsorted => ⟨fun h l i hl x hx => ?_,finds hlow hle hsorted⟩,?_,?_⟩
  · by_contra hover
    exact not_finds hlow hle hmax hl ⟨x,hx,Int.not_le.mp hover⟩ h
  · intro hall
    by_contra hover
    have hnum : high < ((zeros (high+1).toNat).num 1 : ℕ) := by
      change high < ((high+1).toNat : ℤ)
      omega
    have hsorted := sortedOn_zeros (high+1).toNat 1 low high
    exact not_finds_zeros _ 1 hlow hle hmax (Int.not_le.mp hover) (hall _ 1 1 hnum hsorted)
  · intro htwice T node key hnum hsorted
    refine finds hlow hle hsorted fun l i hl x hx => ?_
    have hin := hl.within x hx
    omega

/-- The keys `1, 3, 3, 5`. -/
def fourKeys : Btree where
  root := 1
  t := 3
  node := fun _ => ⟨[1,3,3,5,0],[0,0,0,0,0,0],4,true⟩
  live := fun p => p = 1
  next := 2

theorem sortedOn_fourKeys : SortedOn fourKeys 1 0 3 := by
  intro a b ha hab hb
  have hkeys : ∀ j ≤ 3, ∀ i ≤ j, fourKeys.key 1 i ≤ fourKeys.key 1 j := by decide
  exact hkeys b.toNat (by omega) a.toNat (by omega)

theorem binSearch_finds_three : Finds fourKeys 1 0 3 3 :=
  (binSearch_finds_iff (by decide) (by decide) (by decide)).2.mpr (by decide) fourKeys 1 3 (by decide)
    sortedOn_fourKeys

/-- A node with more than `2^30` keys. -/
theorem binSearch_not_finds : ∃ (T : Btree) (node : Ptr) (low high key : ℤ), 0 ≤ low ∧ low ≤ high ∧
    high < T.num node ∧ low+high ≤ INT_MAX ∧ SortedOn T node low high ∧ ¬ Finds T node low high key :=
  ⟨zeros (2^30+1),1,0,2^30,1,by decide,by decide,by decide,by decide,sortedOn_zeros _ 1 0 (2^30),
    not_finds_zeros _ 1 (by decide) (by decide) (by decide) (by decide)⟩

end Results
end ServerKit.BTree
