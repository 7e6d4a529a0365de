import ServerKit.BTree.Levels

/-! The way of a deletion through the tree: which subtree each level enters, and where two nodes are
merged on the way. -/
namespace ServerKit.BTree
open Function ServerKit.Lib Btree

/-- How a level ends: without a merge, with the merge of a child and its sibling before the child is
entered, or with the merge of the two subtrees of the key that is deleted. -/
inductive Branch
  | enter
  | mergeSiblings
  | mergeFound
  deriving DecidableEq

/-- Below the first tree the search for the first key goes on in the second tree, for the second
key. -/
inductive Descent (t : ℕ) {h : ℕ} : Tree (h+1) → ℤ → Branch → Tree h → ℤ → Prop
  | fromLeft {p : Ptr} {A B lk : List ℤ} {k s : ℤ} {P S : List (Tree h)} {L R : Tree h}
      (hA : ∀ a ∈ A, a < k) (hP : P.length = A.length) (hL : t ≤ L.keys.length)
      (hs : L.keys = lk ++ [s]) : Descent t ⟨p,A ++ k :: B,P ++ L :: R :: S⟩ k .enter L s
  | fromRight {p : Ptr} {A B rk : List ℤ} {k s : ℤ} {P S : List (Tree h)} {L R : Tree h}
      (hA : ∀ a ∈ A, a < k) (hP : P.length = A.length) (hL : L.keys.length < t)
      (hR : t ≤ R.keys.length) (hs : R.keys = s :: rk) :
      Descent t ⟨p,A ++ k :: B,P ++ L :: R :: S⟩ k .enter R s
  | mergeFound {p : Ptr} {A B : List ℤ} {k : ℤ} {P S : List (Tree h)} {L R : Tree h}
      (hA : ∀ a ∈ A, a < k) (hP : P.length = A.length) (hL : L.keys.length < t)
      (hR : R.keys.length < t) :
      Descent t ⟨p,A ++ k :: B,P ++ L :: R :: S⟩ k .mergeFound (join L k R) k
  | enough {p : Ptr} {A B : List ℤ} {k : ℤ} {P S : List (Tree h)} {c : Tree h}
      (hA : ∀ a ∈ A, a < k) (hB : ∀ b ∈ B.head?, k < b) (hP : P.length = A.length)
      (hc : c.keys.length ≠ t-1) : Descent t ⟨p,A ++ B,P ++ c :: S⟩ k .enter c k
  | fromNext {p : Ptr} {A B : List ℤ} {k m x : ℤ} {P S : List (Tree h)} {c e r : Tree h}
      (hA : ∀ a ∈ A, a < k) (hm : k < m) (hP : P.length = A.length) (he : Edge e)
      (hptr : r.ptr = e.ptr) (hc : c.keys.length = t-1) (hr : t ≤ r.keys.length+1)
      (hl : ∀ l ∈ P.getLast?, l.keys.length < r.keys.length+1) :
      Descent t ⟨p,A ++ m :: B,P ++ c :: join e x r :: S⟩ k .enter (join c m e) k
  | fromPrev {p : Ptr} {A B : List ℤ} {k m x : ℤ} {P S : List (Tree h)} {c e l : Tree h}
      (hA : ∀ a ∈ A ++ [m], a < k) (hB : ∀ b ∈ B.head?, k < b) (hP : P.length = A.length)
      (he : Edge e) (hptr : e.ptr = c.ptr) (hc : c.keys.length = t-1) (hl : t ≤ l.keys.length+1)
      (hr : ∀ r ∈ S.head?, r.keys.length ≤ l.keys.length+1) :
      Descent t ⟨p,A ++ m :: B,P ++ join l x e :: c :: S⟩ k .enter (join e m c) k
  | mergePrev {p : Ptr} {A B : List ℤ} {k m : ℤ} {P S : List (Tree h)} {c l : Tree h}
      (hA : ∀ a ∈ A ++ [m], a < k) (hB : ∀ b ∈ B.head?, k < b) (hP : P.length = A.length)
      (hc : c.keys.length = t-1) (hl : l.keys.length = t-1)
      (hr : ∀ r ∈ S.head?, r.keys.length = t-1) :
      Descent t ⟨p,A ++ m :: B,P ++ l :: c :: S⟩ k .mergeSiblings (join l m c) k
  | mergeNext {p : Ptr} {B : List ℤ} {k m : ℤ} {S : List (Tree h)} {c r : Tree h} (hm : k < m)
      (hc : c.keys.length = t-1) (hr : r.keys.length = t-1) :
      Descent t ⟨p,m :: B,c :: r :: S⟩ k .mergeSiblings (join c m r) k

section Step
variable {T : Btree} {h : ℕ} {p : Ptr} {ks A B : List ℤ} {P S : List (Tree h)} {c L R : Tree h} {k : ℤ}

/-- The scan stops behind the keys that are less. -/
theorem scan_length {b : Bool} {cs : List Ptr} (hp : Cell T p b (A ++ B) cs) (hA : ∀ a ∈ A, a < k)
    (hB : ∀ b ∈ B.head?, k ≤ b) : scanUp (fun i => k > T.key p i) 0 (T.num p) = A.length := by
  have hprefix : ∀ {A B : List ℤ}, (∀ a ∈ A, a < k) → (∀ b ∈ B.head?, k ≤ b) →
      (A ++ B).takeWhile (· < k) = A := by
    intro A B hA hB
    rw [List.takeWhile_append_of_pos (by simpa using hA)]
    obtain _ | ⟨b,B⟩ := B
    · exact List.append_nil A
    · simp [not_lt.mpr (hB b rfl)]
  obtain ⟨A',B',hsplit,hscan,hA',hB'⟩ := scan_less k hp
  rw [hscan, ← hprefix hA' hB', ← hsplit, hprefix hA hB]

/-- Two neighbouring subtrees of the node `p`. -/
structure Neighbours (T : Btree) (p : Ptr) (i : ℕ) (L R : Tree h) : Prop where
  left : T.child p i = L.ptr
  right : T.child p (i+1) = R.ptr
  repL : Rep T L
  repR : Rep T R
  ne_left : p ≠ L.ptr
  ne_right : p ≠ R.ptr
  ne : L.ptr ≠ R.ptr

theorem Rep.neighbours (hn : Rep T (⟨p,ks,P ++ L :: R :: S⟩ : Tree (h+1))) :
    Neighbours T p P.length L R := by
  have hn₁ : Rep T (⟨p,ks,P ++ [L,R] ++ S⟩ : Tree (h+1)) := by simpa using hn
  have hn₂ : Rep T (⟨p,ks,(P ++ [L]) ++ R :: S⟩ : Tree (h+1)) := by simpa using hn
  obtain ⟨hpL,hpR,hLR⟩ := hn₁.distinct
  refine ⟨hn.child,?_,hn.kid,hn₂.kid,hpL,hpR,hLR⟩
  have hchild := hn₂.child
  rwa [List.length_append, List.length_singleton] at hchild

/-- The pointer to a sibling, which is NULL where there is none. -/
inductive IsSibling (T : Btree) : Option (Tree h) → Ptr → Prop
  | none : IsSibling T none 0
  | some {d : Tree h} (hd : Rep T d) : IsSibling T (some d) d.ptr

theorem IsSibling.allocated {o : Option (Tree h)} {q : Ptr} (hq : IsSibling T o q) :
    Traced.Allocated T q := by
  cases hq with
  | none => exact fun h0 => absurd rfl h0
  | some hd => exact fun _ => hd.cell.live

theorem IsSibling.num {o : Option (Tree h)} {q : Ptr} (hq : IsSibling T o q) (h0 : q ≠ 0) :
    ∃ d ∈ o, T.num q = d.keys.length := by
  cases hq with
  | none => exact absurd rfl h0
  | @some d hd => exact ⟨d,rfl,hd.cell.num⟩

theorem exists_siblings (hn : Rep T (⟨p,A ++ B,P ++ c :: S⟩ : Tree (h+1))) (hP : P.length = A.length)
    (hS : S.length = B.length) (hc : c.keys.length = T.t-1) :
    ∃ l r, Traced.Siblings T p A.length c.ptr l r ∧ IsSibling T P.getLast? l ∧
      IsSibling T S.head? r := by
  have hl : IsSibling T P.getLast? (if 1 ≤ A.length then T.child p (A.length-1) else 0) := by
    rw [← hP]
    obtain rfl | ⟨P,l,rfl⟩ := P.eq_nil_or_concat'
    · exact .none
    · have hn' : Rep T (⟨p,A ++ B,P ++ l :: c :: S⟩ : Tree (h+1)) := by simpa using hn
      have hlen : (P ++ [l]).length-1 = P.length := by simp
      rw [if_pos (by simp), hlen, hn'.child, List.getLast?_concat]
      exact .some hn'.kid
  have hr : IsSibling T S.head? (if A.length+1 ≤ T.num p then T.child p (A.length+1) else 0) := by
    have hnum : T.num p = A.length+B.length := by
      rw [show T.num p = _ from hn.cell.num, List.length_append]
    obtain _ | ⟨r,S⟩ := S
    · have hB : B.length = 0 := hS.symm
      rw [if_neg (by omega)]
      exact .none
    · have hB : B.length = S.length+1 := hS.symm
      rw [if_pos (by omega), ← hP, hn.neighbours.right]
      exact .some hn.neighbours.repR
  exact ⟨_,_,⟨hn.kid.cell.num.trans hc,rfl,rfl,hn.kid.cell.live,hl.allocated,hr.allocated⟩,hl,hr⟩

/-- A merge frees the node if it had only one key. -/
theorem live_merge {m : ℤ} (hn : Rep T (⟨p,A ++ m :: B,P ++ L :: R :: S⟩ : Tree (h+1)))
    (hP : P.length = A.length) :
    (btreeMerge T p A.length).live p = decide ((A ++ m :: B).length ≠ 1) := by
  have hs := hn.neighbours
  rw [hP] at hs
  have hpos : (A ++ m :: B).length ≠ 0 := by simp
  have hnum : T.num p = (A ++ m :: B).length := hn.cell.num
  have hmerge := btreeMerge_merged hs.left hs.right hs.ne hs.ne_left
  obtain hone | hne := eq_or_ne (A ++ m :: B).length 1
  · rw [hone]
    exact (hmerge.collapsed (hnum.trans hone)).2
  · obtain ⟨-,hlive⟩ := hmerge.kept (by omega)
    rw [decide_eq_true hne, hlive p hs.ne_right, hn.cell.live]

/-- What is read and written on a level whose result is known. -/
def Branch.Good (P : Access → Prop) (p : Ptr) (m i : ℕ) (b : Branch) : Prop :=
  (b ≠ .enter → P ⟨p,.child (m+1),true⟩) ∧ (b = .mergeFound → P ⟨p,.child i,decide (m ≠ 1)⟩)

namespace Branch
variable {Q : Access → Prop} {m i : ℕ}

theorem good_enter : Good Q p m i .enter ↔ True := by
  simp [Good]

theorem good_siblings : Good Q p m i .mergeSiblings ↔ Q ⟨p,.child (m+1),true⟩ := by
  simp [Good]

theorem good_found : Good Q p m i .mergeFound ↔
    Q ⟨p,.child (m+1),true⟩ ∧ Q ⟨p,.child i,decide (m ≠ 1)⟩ := by
  simp [Good]

end Branch

/-- One level of the code follows the descent. -/
def Follows (Q : Access → Prop) (T : Btree) (n : Tree (h+1)) (k : ℤ) (b : Branch) (c : Tree h)
    (j : ℤ) : Prop :=
  ∃ (T' : Btree) (i : ℕ), i ≤ n.keys.length ∧ T'.t = T.t ∧ Rep T' c ∧
    Logged.Gives Q (Traced.btreeDeleteKey (n.ptr,k)) T (.inl (c.ptr,j)) T'
      (b.Good Q n.ptr n.keys.length i)

section Levels
variable {Q : Access → Prop} {r l e : Tree h} {m x s : ℤ} {lk rk : List ℤ}

theorem follows_left (hQ : Traced.Tolerates Q T.t) (ht : 2 ≤ T.t)
    (hn : Rep T (⟨p,A ++ k :: B,P ++ L :: R :: S⟩ : Tree (h+1))) (hA : ∀ a ∈ A, a < k)
    (hP : P.length = A.length) (hL : T.t ≤ L.keys.length) (hs : L.keys = lk ++ [s]) :
    Follows Q T (⟨p,A ++ k :: B,P ++ L :: R :: S⟩ : Tree (h+1)) k .enter L s := by
  have hpair := hn.neighbours
  rw [hP] at hpair
  have hnum : T.num L.ptr = L.keys.length := hpair.repL.cell.num
  have hkey : T.key L.ptr (T.num L.ptr-1) = s := by
    have hcell := hpair.repL.cell
    rw [hnum]
    rw [hs] at hcell ⊢
    simpa using hcell.key
  have hcell : Cell T p false (A ++ k :: B) ((P ++ L :: R :: S).map Page.ptr) := hn.cell
  have hlen : A.length < (A ++ k :: B).length := by simp
  have hgives := Traced.level_left (k := k) hQ ht hcell hlen hpair.left hpair.repL.cell.live
    hpair.ne_left.symm (by rwa [hnum]) (hnum.trans_le hpair.repL.cell.holds.length_le)
  rw [hkey] at hgives
  have hscan := scan_length hcell hA (by simp)
  refine ⟨T.setKey p A.length s,A.length,hlen.le,rfl,(hn.setKey s).1.kid,
    (Traced.acts_found hQ hcell hscan).gives ?_⟩
  rw [Branch.good_enter]
  exact hgives

theorem follows_right (hQ : Traced.Tolerates Q T.t) (ht : 2 ≤ T.t)
    (hn : Rep T (⟨p,A ++ k :: B,P ++ L :: R :: S⟩ : Tree (h+1))) (hA : ∀ a ∈ A, a < k)
    (hP : P.length = A.length) (hL : L.keys.length < T.t) (hR : T.t ≤ R.keys.length)
    (hs : R.keys = s :: rk) :
    Follows Q T (⟨p,A ++ k :: B,P ++ L :: R :: S⟩ : Tree (h+1)) k .enter R s := by
  have hpair := hn.neighbours
  rw [hP] at hpair
  have hnumL : T.num L.ptr = L.keys.length := hpair.repL.cell.num
  have hnumR : T.num R.ptr = R.keys.length := hpair.repR.cell.num
  have hkey : T.key R.ptr 0 = s := by
    have hcell := hpair.repR.cell
    rw [hs] at hcell
    exact Cell.key (A := []) hcell
  have hcell : Cell T p false (A ++ k :: B) ((P ++ L :: R :: S).map Page.ptr) := hn.cell
  have hlen : A.length < (A ++ k :: B).length := by simp
  have hgives := Traced.level_right (k := k) hQ ht hcell hlen hpair.left hpair.repL.cell.live
    (by rwa [hnumL]) hpair.right hpair.repR.cell.live hpair.ne_right.symm (by rwa [hnumR])
  rw [hkey] at hgives
  have hn₂ : Rep T (⟨p,A ++ k :: B,(P ++ [L]) ++ R :: S⟩ : Tree (h+1)) := by simpa using hn
  have hscan := scan_length hcell hA (by simp)
  refine ⟨T.setKey p A.length s,A.length,hlen.le,rfl,(hn₂.setKey s).1.kid,
    (Traced.acts_found hQ hcell hscan).gives ?_⟩
  rw [Branch.good_enter]
  exact hgives

theorem follows_found (hQ : Traced.Tolerates Q T.t) (ht : 2 ≤ T.t)
    (hn : Rep T (⟨p,A ++ k :: B,P ++ L :: R :: S⟩ : Tree (h+1)))
    (hfit : FitsBelow T.t (⟨p,A ++ k :: B,P ++ L :: R :: S⟩ : Tree (h+1))) (hA : ∀ a ∈ A, a < k)
    (hP : P.length = A.length) (hL : L.keys.length < T.t) (hR : R.keys.length < T.t) :
    Follows Q T (⟨p,A ++ k :: B,P ++ L :: R :: S⟩ : Tree (h+1)) k .mergeFound (join L k R) k := by
  have hpair := hn.neighbours
  rw [hP] at hpair
  have hnumL : T.num L.ptr = L.keys.length := hpair.repL.cell.num
  have hnumR : T.num R.ptr = R.keys.length := hpair.repR.cell.num
  have hcell : Cell T p false (A ++ k :: B) ((P ++ L :: R :: S).map Page.ptr) := hn.cell
  have hlen : A.length < (A ++ k :: B).length := by simp
  obtain ⟨hS,hLfit,-,hSfit⟩ := (fitsBelow_focus hP).mp hfit
  obtain ⟨hLnum,hLb⟩ := fits_iff.mp hLfit
  obtain ⟨hRnum,hRb⟩ := fits_iff.mp (hSfit R List.mem_cons_self)
  obtain ⟨ht',hchild,hs⟩ := btreeMerge_spec hn hP (by simpa using hS) (by omega) (by omega)
    (fun h0 => by rw [hLb.arity h0]; omega) fun h0 => by rw [hRb.arity h0]; omega
  have hgives := Traced.level_merge (k := k) hQ ht hcell hlen hpair.left hpair.repL.cell.live
    (by rwa [hnumL]) hpair.right hpair.repR.cell.live (by rwa [hnumR]) hpair.ne_left hpair.ne_right
    hchild (live_merge hn hP)
  have hscan := scan_length hcell hA (by simp)
  refine ⟨btreeMerge T p A.length,A.length,hlen.le,ht',hs.rep,
    (Traced.acts_found hQ hcell hscan).gives ?_⟩
  rw [Branch.good_found]
  exact hgives

/-- A level that goes on below the node. -/
theorem follows_below (hQ : Traced.Tolerates Q T.t) (ht : 2 ≤ T.t)
    (hn : Rep T (⟨p,A ++ B,P ++ c :: S⟩ : Tree (h+1))) (hA : ∀ a ∈ A, a < k)
    (hB : ∀ b ∈ B.head?, k < b) (hP : P.length = A.length) {d : Tree h} {T' : Btree} {b : Branch}
    (ht' : T'.t = T.t) (hd : Rep T' d)
    (hgives : Logged.Gives Q (Traced.refill p A.length c.ptr) T d.ptr T'
      (b.Good Q p (A ++ B).length A.length)) :
    Follows Q T (⟨p,A ++ B,P ++ c :: S⟩ : Tree (h+1)) k b d k := by
  have hcell : Cell T p false (A ++ B) ((P ++ c :: S).map Page.ptr) := hn.cell
  have hlen : A.length ≤ (A ++ B).length := by simp
  have hscan := scan_length hcell hA fun b hb => (hB b hb).le
  refine ⟨T',A.length,hlen,ht',hd,(Traced.acts_below hQ hcell hscan hB).gives ?_⟩
  exact Traced.gives_below hQ ht hcell hlen (hP ▸ hn.child) hn.kid.cell.ne_null hgives

theorem follows_enough (hQ : Traced.Tolerates Q T.t) (ht : 2 ≤ T.t)
    (hn : Rep T (⟨p,A ++ B,P ++ c :: S⟩ : Tree (h+1))) (hA : ∀ a ∈ A, a < k)
    (hB : ∀ b ∈ B.head?, k < b) (hP : P.length = A.length) (hc : c.keys.length ≠ T.t-1) :
    Follows Q T (⟨p,A ++ B,P ++ c :: S⟩ : Tree (h+1)) k .enter c k := by
  have hnum : T.num c.ptr = c.keys.length := hn.kid.cell.num
  refine follows_below hQ ht hn hA hB hP rfl hn.kid ?_
  rw [Branch.good_enter]
  exact Traced.refill_enough hQ hn.kid.cell.live (by rwa [hnum])

theorem follows_next (hQ : Traced.Tolerates Q T.t) (ht : 2 ≤ T.t)
    (hn : Rep T (⟨p,A ++ m :: B,P ++ c :: join e x r :: S⟩ : Tree (h+1)))
    (hfit : FitsBelow T.t (⟨p,A ++ m :: B,P ++ c :: join e x r :: S⟩ : Tree (h+1)))
    (hA : ∀ a ∈ A, a < k) (hm : k < m) (hP : P.length = A.length) (he : Edge e)
    (hptr : r.ptr = e.ptr) (hc : c.keys.length = T.t-1) (hr : T.t ≤ r.keys.length+1)
    (hl : ∀ l ∈ P.getLast?, l.keys.length < r.keys.length+1) :
    Follows Q T (⟨p,A ++ m :: B,P ++ c :: join e x r :: S⟩ : Tree (h+1)) k .enter (join c m e) k := by
  obtain ⟨hS,hcfit,-,hSfit⟩ := (fitsBelow_focus hP).mp hfit
  have hcb := (fits_iff.mp hcfit).2
  obtain ⟨hrnum,hrb⟩ := fits_iff.mp (hSfit _ List.mem_cons_self)
  obtain ⟨hroot,hrep,hstep⟩ := borrowFromNext_spec hn he hptr (by omega) hcb.arity
    (hrb.of_join he.arity).2.arity
  have hpair := hn.neighbours
  obtain ⟨left,right,hsib,hleft,hright⟩ := exists_siblings hn hP hS hc
  obtain rfl : right = (join e x r).ptr := by
    cases hright
    rfl
  have hlen : (join e x r).keys.length = r.keys.length+1 := by simp [join,he.keys]
  have hnum : T.num e.ptr = r.keys.length+1 := hpair.repR.cell.num.trans hlen
  have hcell : Cell T p false (A ++ m :: B) ((P ++ c :: join e x r :: S).map Page.ptr) := hn.cell
  refine follows_below hQ ht hn hA (by simpa using hm) hP hstep.t hrep.kid ?_
  rw [Branch.good_enter]
  refine Traced.refill_next hQ ht hcell (by simp) hsib hpair.ne.symm hpair.repR.cell.ne_null
    (by rwa [hnum]) (by omega) fun h0 => ?_
  obtain ⟨d,hd,hdnum⟩ := hleft.num h0
  rw [hdnum, hnum]
  exact hl d hd

/-- A node seen from the right one of two neighbours. -/
theorem page_next : (⟨p,(A ++ [m]) ++ B,(P ++ [l]) ++ c :: S⟩ : Tree (h+1)) =
    ⟨p,A ++ m :: B,P ++ l :: c :: S⟩ := by
  simp

theorem follows_prev (hQ : Traced.Tolerates Q T.t) (ht : 2 ≤ T.t)
    (hn : Rep T (⟨p,A ++ m :: B,P ++ join l x e :: c :: S⟩ : Tree (h+1)))
    (hfit : FitsBelow T.t (⟨p,A ++ m :: B,P ++ join l x e :: c :: S⟩ : Tree (h+1)))
    (hA : ∀ a ∈ A ++ [m], a < k) (hB : ∀ b ∈ B.head?, k < b) (hP : P.length = A.length) (he : Edge e)
    (hptr : e.ptr = c.ptr) (hc : c.keys.length = T.t-1) (hl : T.t ≤ l.keys.length+1)
    (hr : ∀ r ∈ S.head?, r.keys.length ≤ l.keys.length+1) :
    Follows Q T (⟨p,A ++ m :: B,P ++ join l x e :: c :: S⟩ : Tree (h+1)) k .enter (join e m c) k := by
  obtain ⟨hS,hlfit,-,hSfit⟩ := (fitsBelow_focus hP).mp hfit
  obtain ⟨hlnum,hlb⟩ := fits_iff.mp hlfit
  have hcb := (fits_iff.mp (hSfit _ List.mem_cons_self)).2
  obtain ⟨hroot,hrep,hstep⟩ := borrowFromPrev_spec hn he hptr (by omega) hcb.arity
    (Refill.join_edge_arity he hlb)
  have hpair := hn.neighbours
  have hn' : Rep T (⟨p,(A ++ [m]) ++ B,(P ++ [join l x e]) ++ c :: S⟩ : Tree (h+1)) := by
    rwa [page_next]
  have hP' : (P ++ [join l x e]).length = (A ++ [m]).length := by simp [hP]
  obtain ⟨left,right,hsib,hleft,hright⟩ := exists_siblings hn' hP' (by simpa using hS) hc
  rw [List.getLast?_concat] at hleft
  obtain rfl : left = (join l x e).ptr := by
    cases hleft
    rfl
  have hlen : (join l x e).keys.length = l.keys.length+1 := by simp [join,he.keys]
  have hnum : T.num l.ptr = l.keys.length+1 := hpair.repL.cell.num.trans hlen
  have hcell : Cell T p false ((A ++ [m]) ++ B) (((P ++ [join l x e]) ++ c :: S).map Page.ptr) :=
    hn'.cell
  have hidx : (A ++ [m]).length = A.length+1 := by simp
  rw [← page_next]
  refine follows_below hQ ht hn' hA hB hP' hstep.t hrep.neighbours.repR ?_
  rw [Branch.good_enter, show (join e m c).ptr = c.ptr from hptr, ← hidx]
  refine Traced.refill_prev hQ ht hcell (by simp) (by simp) hsib hpair.ne hpair.repL.cell.ne_null
    (by rwa [hnum]) (by omega) fun h0 => ?_
  obtain ⟨d,hd,hdnum⟩ := hright.num h0
  rw [hdnum, hnum]
  exact hr d hd

theorem follows_mergePrev (hQ : Traced.Tolerates Q T.t) (ht : 2 ≤ T.t)
    (hn : Rep T (⟨p,A ++ m :: B,P ++ l :: c :: S⟩ : Tree (h+1)))
    (hfit : FitsBelow T.t (⟨p,A ++ m :: B,P ++ l :: c :: S⟩ : Tree (h+1)))
    (hA : ∀ a ∈ A ++ [m], a < k) (hB : ∀ b ∈ B.head?, k < b) (hP : P.length = A.length)
    (hc : c.keys.length = T.t-1) (hl : l.keys.length = T.t-1)
    (hr : ∀ r ∈ S.head?, r.keys.length = T.t-1) :
    Follows Q T (⟨p,A ++ m :: B,P ++ l :: c :: S⟩ : Tree (h+1)) k .mergeSiblings (join l m c) k := by
  obtain ⟨hS,hlfit,-,hSfit⟩ := (fitsBelow_focus hP).mp hfit
  have hlb := (fits_iff.mp hlfit).2
  have hcb := (fits_iff.mp (hSfit _ List.mem_cons_self)).2
  obtain ⟨ht',-,hs⟩ := btreeMerge_spec hn hP (by simpa using hS) (by omega) (by omega)
    (fun h0 => by rw [hlb.arity h0]; omega) fun h0 => by rw [hcb.arity h0]; omega
  have hpair := hn.neighbours
  have hn' : Rep T (⟨p,(A ++ [m]) ++ B,(P ++ [l]) ++ c :: S⟩ : Tree (h+1)) := by rwa [page_next]
  have hP' : (P ++ [l]).length = (A ++ [m]).length := by simp [hP]
  obtain ⟨left,right,hsib,hleft,hright⟩ := exists_siblings hn' hP' (by simpa using hS) hc
  rw [List.getLast?_concat] at hleft
  obtain rfl : left = l.ptr := by
    cases hleft
    rfl
  have hcell : Cell T p false ((A ++ [m]) ++ B) (((P ++ [l]) ++ c :: S).map Page.ptr) := hn'.cell
  have hnum : T.num l.ptr = T.t-1 := hpair.repL.cell.num.trans hl
  have hidx : (A ++ [m]).length-1 = A.length := by simp
  rw [← page_next]
  refine follows_below hQ ht hn' hA hB hP' ht' hs.rep ?_
  rw [Branch.good_siblings, ← hidx]
  refine Traced.refill_mergePrev hQ ht hcell (by simp) (by simp) hsib hpair.repL.cell.ne_null hnum
    (fun h0 => ?_) (hP' ▸ hn'.child) hpair.ne_left hpair.ne_right
  obtain ⟨d,hd,hdnum⟩ := hright.num h0
  exact hdnum.trans (hr d hd)

theorem follows_mergeNext (hQ : Traced.Tolerates Q T.t) (ht : 2 ≤ T.t)
    (hn : Rep T (⟨p,m :: B,c :: r :: S⟩ : Tree (h+1)))
    (hfit : FitsBelow T.t (⟨p,m :: B,c :: r :: S⟩ : Tree (h+1))) (hm : k < m)
    (hc : c.keys.length = T.t-1) (hr : r.keys.length = T.t-1) :
    Follows Q T (⟨p,m :: B,c :: r :: S⟩ : Tree (h+1)) k .mergeSiblings (join c m r) k := by
  have hn' : Rep T (⟨p,[] ++ m :: B,[] ++ c :: r :: S⟩ : Tree (h+1)) := hn
  have hfit' : FitsBelow T.t (⟨p,[] ++ m :: B,[] ++ c :: r :: S⟩ : Tree (h+1)) := hfit
  obtain ⟨hS,hcfit,-,hSfit⟩ := (fitsBelow_focus rfl).mp hfit'
  have hcb := (fits_iff.mp hcfit).2
  have hrb := (fits_iff.mp (hSfit _ List.mem_cons_self)).2
  obtain ⟨ht',-,hs⟩ := btreeMerge_spec hn' rfl (by simpa using hS) (by omega) (by omega)
    (fun h0 => by rw [hcb.arity h0]; omega) fun h0 => by rw [hrb.arity h0]; omega
  have hpair := hn'.neighbours
  obtain ⟨left,right,hsib,hleft,hright⟩ := exists_siblings hn' rfl hS hc
  obtain rfl : left = 0 := by
    cases hleft
    rfl
  obtain rfl : right = r.ptr := by
    cases hright
    rfl
  have hcell : Cell T p false ([] ++ m :: B) (([] ++ c :: r :: S).map Page.ptr) := hn'.cell
  refine follows_below (A := []) (P := []) hQ ht hn' (by simp) (by simpa using hm) rfl ht' hs.rep ?_
  rw [Branch.good_siblings]
  exact Traced.refill_mergeNext hQ ht hcell (by simp) hsib hpair.repR.cell.ne_null
    (hpair.repR.cell.num.trans hr) hpair.left hpair.ne_left hpair.ne_right

end Levels

/-- Every level of the code follows the descent. -/
theorem Descent.follows {n : Tree (h+1)} {b : Branch} {j : ℤ} {Q : Access → Prop}
    (hd : Descent T.t n k b c j) (hQ : Traced.Tolerates Q T.t) (ht : 2 ≤ T.t) (hn : Rep T n)
    (hfit : FitsBelow T.t n) : Follows Q T n k b c j := by
  cases hd with
  | fromLeft hA hP hL hs => exact follows_left hQ ht hn hA hP hL hs
  | fromRight hA hP hL hR hs => exact follows_right hQ ht hn hA hP hL hR hs
  | mergeFound hA hP hL hR => exact follows_found hQ ht hn hfit hA hP hL hR
  | enough hA hB hP hc => exact follows_enough hQ ht hn hA hB hP hc
  | fromNext hA hm hP he hptr hc hr hl => exact follows_next hQ ht hn hfit hA hm hP he hptr hc hr hl
  | fromPrev hA hB hP he hptr hc hl hr =>
    exact follows_prev hQ ht hn hfit hA hB hP he hptr hc hl hr
  | mergePrev hA hB hP hc hl hr => exact follows_mergePrev hQ ht hn hfit hA hB hP hc hl hr
  | mergeNext hm hc hr => exact follows_mergeNext hQ ht hn hfit hm hc hr

end Step

section Shape
variable {t h : ℕ} {n : Tree (h+1)} {k j : ℤ} {b : Branch} {c : Tree h}

/-- The subtree that is entered has at least `t` keys. -/
theorem Descent.fits (hd : Descent t n k b c j) (ht : 1 ≤ t) (hn : FitsBelow t n) :
    Fits t (h+1) c ∧ t ≤ c.keys.length := by
  cases hd with
  | fromLeft hA hP hL hs => exact ⟨((fitsBelow_focus hP).mp hn).2.1,hL⟩
  | fromRight hA hP hL hR hs => exact ⟨((fitsBelow_focus hP).mp hn).2.2.2 _ List.mem_cons_self,hR⟩
  | @mergeFound p A B k P S L R hA hP hL hR =>
    obtain ⟨hS,hLfit,hPfit,hSfit⟩ := (fitsBelow_focus hP).mp hn
    have hRfit := hSfit R List.mem_cons_self
    have hs : Spot.Fit t ⟨A,P,L,k :: B,R :: S⟩ := ⟨hP,hS,hPfit,hSfit⟩
    have hrefill : Refill t ⟨A,P,L,k :: B,R :: S⟩ ⟨A,P,join L k R,B,S⟩ :=
      .mergeNext (by have := (fits_iff.mp hLfit).1; omega) (by have := (fits_iff.mp hRfit).1; omega)
    obtain ⟨-,hc,hnum,-⟩ := hrefill.shape ht hs hLfit
    exact ⟨hc,hnum⟩
  | @enough p A B k P S c hA hB hP hc =>
    have hcfit := ((fitsBelow_focus hP).mp hn).2.1
    refine ⟨hcfit,?_⟩
    have hnum := (fits_iff.mp hcfit).1
    omega
  | @fromNext p A B k m x P S c e r hA hm hP he hptr hc hr hl =>
    obtain ⟨hS,hcfit,hPfit,hSfit⟩ := (fitsBelow_focus hP).mp hn
    have hs : Spot.Fit t ⟨A,P,c,m :: B,join e x r :: S⟩ := ⟨hP,hS,hPfit,hSfit⟩
    obtain ⟨-,hc',hnum,-⟩ := (Refill.fromNext he hc hr).shape ht hs hcfit
    exact ⟨hc',hnum⟩
  | @fromPrev p A B k m x P S c e l hA hB hP he hptr hc hl hr =>
    rw [← page_next] at hn
    have hP' : (P ++ [join l x e]).length = (A ++ [m]).length := by simp [hP]
    obtain ⟨hS,hcfit,hPfit,hSfit⟩ := (fitsBelow_focus hP').mp hn
    have hs : Spot.Fit t ⟨A ++ [m],P ++ [join l x e],c,B,S⟩ := ⟨hP',hS,hPfit,hSfit⟩
    obtain ⟨-,hc',hnum,-⟩ := (Refill.fromPrev he hc hl).shape ht hs hcfit
    exact ⟨hc',hnum⟩
  | @mergePrev p A B k m P S c l hA hB hP hc hl hr =>
    rw [← page_next] at hn
    have hP' : (P ++ [l]).length = (A ++ [m]).length := by simp [hP]
    obtain ⟨hS,hcfit,hPfit,hSfit⟩ := (fitsBelow_focus hP').mp hn
    have hs : Spot.Fit t ⟨A ++ [m],P ++ [l],c,B,S⟩ := ⟨hP',hS,hPfit,hSfit⟩
    obtain ⟨-,hc',hnum,-⟩ := (Refill.mergePrev hc hl).shape ht hs hcfit
    exact ⟨hc',hnum⟩
  | @mergeNext p B k m S c r hm hc hr =>
    have hn' : FitsBelow t (⟨p,[] ++ m :: B,[] ++ c :: r :: S⟩ : Tree (h+1)) := hn
    obtain ⟨hS,hcfit,hPfit,hSfit⟩ := (fitsBelow_focus rfl).mp hn'
    have hs : Spot.Fit t ⟨[],[],c,m :: B,r :: S⟩ := ⟨rfl,hS,hPfit,hSfit⟩
    obtain ⟨-,hc',hnum,-⟩ := (Refill.mergeNext hc hr).shape ht hs hcfit
    exact ⟨hc',hnum⟩

/-- A child of `t-1` keys gets a key from the richer sibling, the right one only if it is richer, or
it is merged with the left one, if there is one. -/
theorem exists_refill {p : Ptr} {A B : List ℤ} {P S : List (Tree h)} (ht : 2 ≤ t)
    (hn : FitsBelow t (⟨p,A ++ B,P ++ c :: S⟩ : Tree (h+1))) (hne : A ++ B ≠ [])
    (hA : ∀ a ∈ A, a < k) (hB : ∀ b ∈ B.head?, k < b) (hP : P.length = A.length)
    (hc : c.keys.length = t-1) :
    ∃ b d, Descent t (⟨p,A ++ B,P ++ c :: S⟩ : Tree (h+1)) k b d k := by
  obtain ⟨hS,-,hPfit,hSfit⟩ := (fitsBelow_focus hP).mp hn
  have hmin : ∀ d ∈ S.head?, t-1 ≤ d.keys.length := fun d hd =>
    (fits_iff.mp (hSfit d (List.mem_of_mem_head? hd))).1.1
  by_cases hnext : ∃ r ∈ S.head?, t ≤ r.keys.length ∧ ∀ l ∈ P.getLast?, l.keys.length < r.keys.length
  · obtain ⟨r,hr,hrnum,hl⟩ := hnext
    obtain ⟨S,rfl⟩ := List.head?_eq_some_iff.mp hr
    obtain _ | ⟨m,B⟩ := B
    · simp at hS
    have hrb := (fits_iff.mp (hSfit r List.mem_cons_self)).2
    obtain ⟨e,x,r,rfl,he,hptr,hptr'⟩ := exists_first hrb (List.ne_nil_of_length_pos (by omega))
    have hlen : (join e x r).keys.length = r.keys.length+1 := by simp [join,he.keys]
    rw [hlen] at hrnum hl
    exact ⟨_,_,.fromNext hA (hB m rfl) hP he (hptr'.trans hptr.symm) hc hrnum hl⟩
  obtain rfl | ⟨P,l,rfl⟩ := P.eq_nil_or_concat'
  · obtain rfl : A = [] := List.eq_nil_of_length_eq_zero hP.symm
    obtain _ | ⟨m,B⟩ := B
    · exact absurd rfl hne
    obtain _ | ⟨r,S⟩ := S
    · simp at hS
    have hr : ¬ t ≤ r.keys.length := fun hle => hnext ⟨r,rfl,hle,by simp⟩
    have hrmin := hmin r rfl
    exact ⟨_,_,.mergeNext (hB m rfl) hc (by omega)⟩
  · obtain rfl | ⟨A,m,rfl⟩ := A.eq_nil_or_concat'
    · simp at hP
    have hP' : P.length = A.length := by simpa using hP
    have hlfit := fits_iff.mp (hPfit l (by simp))
    rw [page_next]
    by_cases hl : t ≤ l.keys.length
    · obtain ⟨l,x,e,rfl,he,hptr,-⟩ := exists_last c.ptr hlfit.2 (List.ne_nil_of_length_pos (by omega))
      have hlen : (join l x e).keys.length = l.keys.length+1 := by simp [join,he.keys]
      rw [hlen] at hl
      refine ⟨_,_,.fromPrev hA hB hP' he hptr hc hl fun r hr => ?_⟩
      by_contra hlt
      refine hnext ⟨r,hr,by omega,fun d hd => ?_⟩
      rw [List.getLast?_concat] at hd
      obtain rfl := Option.some.inj hd
      omega
    · have hlmin := hlfit.1.1
      refine ⟨_,_,.mergePrev hA hB hP' hc (by omega) fun r hr => ?_⟩
      have hrmin := hmin r hr
      by_contra hne
      refine hnext ⟨r,hr,by omega,fun d hd => ?_⟩
      rw [List.getLast?_concat] at hd
      obtain rfl := Option.some.inj hd
      omega

/-- There is always a subtree to go on in. -/
theorem exists_descent (ht : 2 ≤ t) (hn : FitsBelow t n) (hne : n.keys ≠ []) (k : ℤ) :
    ∃ b c j, Descent t n k b c j := by
  obtain ⟨p,ks,cs⟩ := n
  obtain ⟨A,B,hsplit,hA,hB⟩ : ∃ A B, ks = A ++ B ∧ (∀ a ∈ A, a < k) ∧ ∀ b ∈ B.head?, k ≤ b := by
    refine ⟨ks.takeWhile (· < k),ks.dropWhile (· < k),List.takeWhile_append_dropWhile.symm,
      fun a ha => by simpa using List.mem_takeWhile_imp ha,fun b hb => ?_⟩
    have hnot := List.head?_dropWhile_not (· < k) ks
    rw [Option.mem_def.mp hb] at hnot
    simpa using hnot
  subst hsplit
  obtain ⟨P,c,S,rfl,hP,hS⟩ := exists_kid (hn.arity (Nat.succ_ne_zero h))
  obtain ⟨B,rfl⟩ | hB := head_cases hB
  · obtain _ | ⟨R,S⟩ := S
    · simp at hS
    by_cases hL : t ≤ c.keys.length
    · obtain hnil | ⟨lk,s,hs⟩ := c.keys.eq_nil_or_concat'
      · rw [hnil, List.length_nil] at hL
        omega
      · exact ⟨_,_,_,.fromLeft hA hP hL hs⟩
    by_cases hR : t ≤ R.keys.length
    · obtain ⟨s,rk,hs⟩ := List.exists_cons_of_ne_nil (List.ne_nil_of_length_pos
        (show 0 < R.keys.length by omega))
      exact ⟨_,_,_,.fromRight hA hP (not_le.mp hL) hR hs⟩
    · exact ⟨_,_,_,.mergeFound hA hP (not_le.mp hL) (not_le.mp hR)⟩
  · by_cases hc : c.keys.length = t-1
    · obtain ⟨b,d,hd⟩ := exists_refill ht hn hne hA hB hP hc
      exact ⟨b,d,k,hd⟩
    · exact ⟨_,_,_,.enough hA hB hP hc⟩

end Shape
end ServerKit.BTree
