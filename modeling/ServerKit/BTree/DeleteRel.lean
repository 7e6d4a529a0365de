import ServerKit.BTree.Tree
import ServerKit.Lib.SortedList
import Mathlib.Data.Int.Order.Basic

/-! Deletion on trees, one rule for every branch of `btree_delete_key`: what it does to the shape and
to the keys in order. -/
namespace ServerKit.BTree
open ServerKit.Lib

/-- A node seen from one of its subtrees. -/
structure Spot (h : ℕ) where
  keysL : List ℤ
  kidsL : List (Tree h)
  kid : Tree h
  keysR : List ℤ
  kidsR : List (Tree h)

namespace Spot
variable {h : ℕ}

def page (s : Spot h) (p : Ptr) : Tree (h+1) := ⟨p,s.keysL ++ s.keysR,s.kidsL ++ s.kid :: s.kidsR⟩

def before (s : Spot h) : List ℤ := weave (s.kidsL.map inorder) s.keysL

def after (s : Spot h) : List ℤ := weaveTail (s.kidsR.map inorder) s.keysR

theorem inorder_page {s : Spot h} (p : Ptr) (hs : s.kidsL.length = s.keysL.length) :
    inorder (s.page p) = s.before ++ inorder s.kid ++ s.after :=
  inorder_focus p hs

end Spot

/-- A subtree without a key, which a key is put next to. -/
structure Edge {h : ℕ} (e : Tree h) : Prop where
  keys : e.keys = []
  kids : h ≠ 0 → e.kids.length = 1

/-- What `btree_delete_key` does to the child of `t-1` keys that it is about to enter: a key and a
subtree come from a sibling, or the child is merged with one. -/
inductive Refill (t : ℕ) {h : ℕ} : Spot h → Spot h → Prop
  | enough {s : Spot h} (hc : s.kid.keys.length ≠ t-1) : Refill t s s
  | fromNext {A B : List ℤ} {P S : List (Tree h)} {c e r : Tree h} {m x : ℤ} (he : Edge e)
      (hc : c.keys.length = t-1) (hr : t ≤ r.keys.length+1) :
      Refill t ⟨A,P,c,m :: B,join e x r :: S⟩ ⟨A,P,join c m e,x :: B,r :: S⟩
  | fromPrev {A B : List ℤ} {P S : List (Tree h)} {c e l : Tree h} {m x : ℤ} (he : Edge e)
      (hc : c.keys.length = t-1) (hl : t ≤ l.keys.length+1) :
      Refill t ⟨A ++ [m],P ++ [join l x e],c,B,S⟩ ⟨A ++ [x],P ++ [l],join e m c,B,S⟩
  | mergePrev {A B : List ℤ} {P S : List (Tree h)} {c l : Tree h} {m : ℤ}
      (hc : c.keys.length = t-1) (hl : l.keys.length = t-1) :
      Refill t ⟨A ++ [m],P ++ [l],c,B,S⟩ ⟨A,P,join l m c,B,S⟩
  | mergeNext {A B : List ℤ} {P S : List (Tree h)} {c r : Tree h} {m : ℤ}
      (hc : c.keys.length = t-1) (hr : r.keys.length = t-1) :
      Refill t ⟨A,P,c,m :: B,r :: S⟩ ⟨A,P,join c m r,B,S⟩

/-- `btree_delete_key` turns the first tree into the second one; the flag tells whether it ended at the
NULL child of a leaf. -/
inductive Del (t : ℕ) : {h : ℕ} → Tree h → ℤ → Tree h → Bool → Prop
  | leafHit {p : Ptr} {A B : List ℤ} {k : ℤ} (hA : ∀ a ∈ A, a < k) :
      Del t (⟨p,A ++ k :: B,[]⟩ : Tree 0) k ⟨p,A ++ B,[]⟩ false
  | leafMiss {p : Ptr} {A B : List ℤ} {k : ℤ} (hA : ∀ a ∈ A, a < k) (hB : ∀ b ∈ B.head?, k < b) :
      Del t (⟨p,A ++ B,[]⟩ : Tree 0) k ⟨p,A ++ B,[]⟩ true
  | fromLeft {h : ℕ} {p : Ptr} {A B lk : List ℤ} {k s : ℤ} {P S : List (Tree h)} {L L' R : Tree h}
      {b : Bool} (hA : ∀ a ∈ A, a < k) (hP : P.length = A.length) (hL : t ≤ L.keys.length)
      (hs : L.keys = lk ++ [s]) (del : Del t L s L' b) :
      Del t (⟨p,A ++ k :: B,P ++ L :: R :: S⟩ : Tree (h+1)) k ⟨p,A ++ s :: B,P ++ L' :: R :: S⟩ b
  | fromRight {h : ℕ} {p : Ptr} {A B rk : List ℤ} {k s : ℤ} {P S : List (Tree h)} {L R R' : Tree h}
      {b : Bool} (hA : ∀ a ∈ A, a < k) (hP : P.length = A.length) (hL : L.keys.length < t)
      (hR : t ≤ R.keys.length) (hs : R.keys = s :: rk) (del : Del t R s R' b) :
      Del t (⟨p,A ++ k :: B,P ++ L :: R :: S⟩ : Tree (h+1)) k ⟨p,A ++ s :: B,P ++ L :: R' :: S⟩ b
  | merge {h : ℕ} {p : Ptr} {A B : List ℤ} {k : ℤ} {P S : List (Tree h)} {L R M : Tree h}
      {b : Bool} (hA : ∀ a ∈ A, a < k) (hP : P.length = A.length) (hL : L.keys.length < t)
      (hR : R.keys.length < t) (del : Del t (join L k R) k M b) :
      Del t (⟨p,A ++ k :: B,P ++ L :: R :: S⟩ : Tree (h+1)) k ⟨p,A ++ B,P ++ M :: S⟩ b
  | down {h : ℕ} {p : Ptr} {k : ℤ} {s s' : Spot h} {c : Tree h} {b : Bool} (hA : ∀ a ∈ s.keysL, a < k)
      (hB : ∀ b ∈ s.keysR.head?, k < b) (hP : s.kidsL.length = s.keysL.length)
      (refill : Refill t s s') (del : Del t s'.kid k c b) :
      Del t (s.page p) k ({ s' with kid := c }.page p) b

theorem Edge.arity {h : ℕ} {e : Tree h} (he : Edge e) (h0 : h ≠ 0) :
    e.kids.length = e.keys.length+1 := by
  rw [he.kids h0, he.keys]
  rfl

/-- The shape around a spot: as many subtrees as keys on each side, and all of them fit. -/
structure Spot.Fit {h : ℕ} (t : ℕ) (s : Spot h) : Prop where
  left : s.kidsL.length = s.keysL.length
  right : s.kidsR.length = s.keysR.length
  kidsL : ∀ d ∈ s.kidsL, Fits t (h+1) d
  kidsR : ∀ d ∈ s.kidsR, Fits t (h+1) d

theorem fitsBelow_page {t h : ℕ} {s : Spot h} {p : Ptr} (hP : s.kidsL.length = s.keysL.length) :
    FitsBelow t (s.page p) ↔ s.Fit t ∧ Fits t (h+1) s.kid := by
  rw [Spot.page, fitsBelow_focus hP]
  constructor
  · rintro ⟨hS,hc,hL,hR⟩
    exact ⟨⟨hP,hS,hL,hR⟩,hc⟩
  · rintro ⟨hs,hc⟩
    exact ⟨hs.right,hc,hs.kidsL,hs.kidsR⟩

namespace Refill
variable {t h : ℕ} {s s' : Spot h}

theorem join_edge_arity {l e : Tree h} {x : ℤ} (he : Edge e) (hj : FitsBelow t (join l x e))
    (h0 : h ≠ 0) : l.kids.length = l.keys.length+1 := by
  have harity := hj.arity h0
  simp only [join, List.length_append, List.length_cons, he.kids h0, he.keys, List.length_nil]
    at harity
  omega

theorem shape (hr : Refill t s s') (ht : 1 ≤ t) (hs : s.Fit t) (hc : Fits t (h+1) s.kid) :
    s'.Fit t ∧ Fits t (h+1) s'.kid ∧ t ≤ s'.kid.keys.length ∧
      (s'.keysL ++ s'.keysR).length ≤ (s.keysL ++ s.keysR).length ∧
      (s.keysL ++ s.keysR).length ≤ (s'.keysL ++ s'.keysR).length+1 := by
  obtain ⟨hcnum,hcfit⟩ := fits_iff.mp hc
  cases hr with
  | enough hne => exact ⟨hs,hc,by omega,le_rfl,Nat.le_succ _⟩
  | @fromNext A B P S c e r m x he hck hrk =>
    obtain ⟨hjnum,hj⟩ := fits_iff.mp (hs.kidsR _ List.mem_cons_self)
    obtain ⟨hefit,hrfit⟩ := hj.of_join he.arity
    simp only [join, he.keys, List.nil_append, List.length_cons] at hjnum
    have hlen : (join c m e).keys.length = t := by
      simp [join,he.keys]
      omega
    refine ⟨⟨hs.left,hs.right,hs.kidsL,?_⟩,fits_iff.mpr ⟨by dsimp only; omega,hcfit.join hefit m⟩,hlen.ge,
      by simp,by simp⟩
    intro d hd
    obtain rfl | hd := List.mem_cons.mp hd
    · exact fits_iff.mpr ⟨by omega,hrfit⟩
    · exact hs.kidsR d (List.mem_cons_of_mem _ hd)
  | @fromPrev A B P S c e l m x he hck hlk =>
    obtain ⟨hjnum,hj⟩ := fits_iff.mp (hs.kidsL (join l x e) (by simp))
    obtain ⟨hlfit,hefit⟩ := hj.of_join (join_edge_arity he hj)
    simp only [join, he.keys, List.length_append, List.length_cons, List.length_nil] at hjnum
    have hlen : (join e m c).keys.length = t := by
      simp [join,he.keys]
      omega
    refine ⟨⟨by simpa using hs.left,hs.right,?_,hs.kidsR⟩,
      fits_iff.mpr ⟨by dsimp only; omega,hefit.join hcfit m⟩,
      hlen.ge,by simp,by simp⟩
    intro d hd
    obtain hd | hd := List.mem_append.mp hd
    · exact hs.kidsL d (List.mem_append_left _ hd)
    · obtain rfl := List.mem_singleton.mp hd
      exact fits_iff.mpr ⟨by omega,hlfit⟩
  | @mergePrev A B P S c l m hck hlk =>
    obtain ⟨hlnum,hlfit⟩ := fits_iff.mp (hs.kidsL l (by simp))
    have hlen : (join l m c).keys.length = 2*t-1 := by
      simp [join,hlk,hck]
      omega
    refine ⟨⟨by simpa using hs.left,hs.right,fun d hd => hs.kidsL d (by simp [hd]),hs.kidsR⟩,
      fits_iff.mpr ⟨by dsimp only; omega,hlfit.join hcfit m⟩,by dsimp only; omega,by simp,by simp; omega⟩
  | @mergeNext A B P S c r m hck hrk =>
    obtain ⟨hrnum,hrfit⟩ := fits_iff.mp (hs.kidsR r (by simp))
    have hlen : (join c m r).keys.length = 2*t-1 := by
      simp [join,hrk,hck]
      omega
    refine ⟨⟨hs.left,by simpa using hs.right,hs.kidsL,fun d hd => hs.kidsR d (by simp [hd])⟩,
      fits_iff.mpr ⟨by dsimp only; omega,hcfit.join hrfit m⟩,by dsimp only; omega,by simp,by simp; omega⟩

/-- A refill moves keys and subtrees across the border of the child and no further. -/
theorem inorder_eq (hr : Refill t s s') (hs : s.Fit t) (hc : Fits t (h+1) s.kid) :
    ∃ U V, inorder s'.kid = U ++ inorder s.kid ++ V ∧ s.before = s'.before ++ U ∧
      s.after = V ++ s'.after := by
  have harity := (fits_iff.mp hc).2.arity
  cases hr with
  | enough hne => exact ⟨[],[],by simp,by simp,by simp⟩
  | @fromNext A B P S c e r m x he hck hrk =>
    refine ⟨[],m :: inorder e,?_,by simp [Spot.before],?_⟩
    · rw [inorder_join m harity]
      rfl
    · simp only [Spot.after, List.map_cons, weaveTail_cons, weave_cons]
      rw [inorder_join x he.arity]
      simp
  | @fromPrev A B P S c e l m x he hck hlk =>
    have hj := (fits_iff.mp (hs.kidsL (join l x e) (by simp))).2
    have hP : (P.map inorder).length = A.length := by simpa using hs.left
    refine ⟨inorder e ++ [m],[],?_,?_,by simp [Spot.after]⟩
    · rw [inorder_join m he.arity]
      simp
    · simp only [Spot.before, List.map_append, List.map_singleton, weave_snoc hP]
      rw [inorder_join x (join_edge_arity he hj)]
      simp
  | @mergePrev A B P S c l m hck hlk =>
    have hP : (P.map inorder).length = A.length := by simpa using hs.left
    refine ⟨inorder l ++ [m],[],?_,?_,by simp [Spot.after]⟩
    · rw [inorder_join m (fits_iff.mp (hs.kidsL l (by simp))).2.arity]
      simp
    · simp only [Spot.before, List.map_append, List.map_singleton, weave_snoc hP]
      simp
  | @mergeNext A B P S c r m hck hrk =>
    refine ⟨[],m :: inorder r,?_,by simp [Spot.before],?_⟩
    · rw [inorder_join m harity]
      rfl
    · simp only [Spot.after, List.map_cons, weaveTail_cons, weave_cons]
      simp

end Refill

/-- In a sorted node the search key lies strictly between what is before and what is after the
subtree that is entered. -/
theorem Spot.strict {t h : ℕ} {s : Spot h} {k : ℤ} {M : List ℤ} (hfit : s.Fit t)
    (hs : (s.before ++ M ++ s.after).Pairwise (· ≤ ·)) (hA : ∀ a ∈ s.keysL, a < k)
    (hB : ∀ b ∈ s.keysR.head?, k < b) : (∀ x ∈ s.before, x < k) ∧ ∀ y ∈ s.after, k < y := by
  simp only [List.pairwise_append] at hs
  have hlast : s.before.getLast? = s.keysL.getLast? := getLast?_weave (by simpa using hfit.left)
  have hhead : s.after.head? = s.keysR.head? := head?_weaveTail (by simpa using hfit.right)
  refine ⟨lt_of_last_lt hs.1.1 fun b hb => hA b ?_,lt_of_lt_head hs.2.1 (by rwa [hhead])⟩
  rw [hlast] at hb
  exact List.mem_of_getLast? hb

namespace Refill
variable {t h : ℕ} {s s' : Spot h}

theorem inorder_page_eq (hr : Refill t s s') (hs : s.Fit t) (hc : Fits t (h+1) s.kid) :
    s.before ++ inorder s.kid ++ s.after = s'.before ++ inorder s'.kid ++ s'.after := by
  obtain ⟨U,V,hkid,hbefore,hafter⟩ := hr.inorder_eq hs hc
  simp [hkid,hbefore,hafter]

/-- The search key stays strictly between the two sides. -/
theorem strict {k : ℤ} {M : List ℤ} (hr : Refill t s s') (hfit : s.Fit t) (hc : Fits t (h+1) s.kid)
    (hs : (s.before ++ M ++ s.after).Pairwise (· ≤ ·)) (hA : ∀ a ∈ s.keysL, a < k)
    (hB : ∀ b ∈ s.keysR.head?, k < b) : (∀ x ∈ s'.before, x < k) ∧ ∀ y ∈ s'.after, k < y := by
  obtain ⟨U,V,-,hbefore,hafter⟩ := hr.inorder_eq hfit hc
  obtain ⟨hX,hY⟩ := Spot.strict hfit hs hA hB
  rw [hbefore] at hX
  rw [hafter] at hY
  exact ⟨fun x hx => hX x (List.mem_append_left _ hx),fun y hy => hY y (List.mem_append_right _ hy)⟩

end Refill

/-- One key less in the middle is one key less. -/
theorem perm_context {k : ℤ} {M M' : List ℤ} (h : M.Perm (k :: M')) (X Y : List ℤ) :
    (X ++ M ++ Y).Perm (k :: (X ++ M' ++ Y)) :=
  ((h.append_left X).append_right Y).trans (List.perm_middle.append_right Y)

theorem mem_inorder_of_mem_keys {h : ℕ} {n : Tree h} {k : ℤ} (hk : k ∈ n.keys) : k ∈ inorder n :=
  (sublist_weave _ _).subset hk

namespace Del
variable {t h : ℕ} {n n' : Tree h} {k : ℤ} {b : Bool}

/-- A node loses at most one key, and everything below it still fits. -/
theorem shape (hdel : Del t n k n' b) (ht : 1 ≤ t) (hn : FitsBelow t n) :
    FitsBelow t n' ∧ n'.keys.length ≤ n.keys.length ∧ n.keys.length ≤ n'.keys.length+1 := by
  induction hdel with
  | leafHit hA => exact ⟨⟨by simp,by simp⟩,by simp,by simp; omega⟩
  | leafMiss hA hB => exact ⟨hn,le_rfl,Nat.le_succ _⟩
  | @fromLeft h p A B lk k s P S L L' R b hA hP hL hlk del ih =>
    obtain ⟨hS,hLfit,hP',hS'⟩ := (fitsBelow_focus hP).mp hn
    obtain ⟨hLnum,hLb⟩ := fits_iff.mp hLfit
    obtain ⟨hL',hle,hle'⟩ := ih hLb
    refine ⟨(fitsBelow_focus hP).mpr ⟨hS,fits_iff.mpr ⟨by omega,hL'⟩,hP',hS'⟩,by simp,by simp⟩
  | @fromRight h p A B rk k s P S L R R' b hA hP hL hR hrk del ih =>
    obtain ⟨hS,hLfit,hP',hS'⟩ := (fitsBelow_focus hP).mp hn
    obtain ⟨hRnum,hRb⟩ := fits_iff.mp (hS' R List.mem_cons_self)
    obtain ⟨hR',hle,hle'⟩ := ih hRb
    refine ⟨(fitsBelow_focus hP).mpr ⟨hS,hLfit,hP',fun d hd => ?_⟩,by simp,by simp⟩
    obtain rfl | hd := List.mem_cons.mp hd
    · exact fits_iff.mpr ⟨by omega,hR'⟩
    · exact hS' d (List.mem_cons_of_mem _ hd)
  | @merge h p A B k P S L R M b hA hP hL hR del ih =>
    obtain ⟨hS,hLfit,hP',hS'⟩ := (fitsBelow_focus hP).mp hn
    obtain ⟨hLnum,hLb⟩ := fits_iff.mp hLfit
    obtain ⟨hRnum,hRb⟩ := fits_iff.mp (hS' R List.mem_cons_self)
    obtain ⟨hM,hle,hle'⟩ := ih (hLb.join hRb k)
    have hlen : (join L k R).keys.length = 2*t-1 := by
      simp [join]
      omega
    refine ⟨(fitsBelow_focus hP).mpr ⟨by simpa using hS,fits_iff.mpr ⟨by omega,hM⟩,hP',
      fun d hd => hS' d (List.mem_cons_of_mem _ hd)⟩,by simp,by simp; omega⟩
  | @down h p k s s' c b hA hB hP refill del ih =>
    obtain ⟨hfit,hc⟩ := (fitsBelow_page hP).mp hn
    obtain ⟨hfit',hc',hnum,hle,hle'⟩ := refill.shape ht hfit hc
    obtain ⟨hcnum,hcb⟩ := fits_iff.mp hc'
    obtain ⟨hb,hle₂,hle₂'⟩ := ih hcb
    refine ⟨(fitsBelow_page (s := { s' with kid := c }) hfit'.left).mpr
      ⟨⟨hfit'.left,hfit'.right,hfit'.kidsL,hfit'.kidsR⟩,?_⟩,hle,hle'⟩
    exact fits_iff.mpr ⟨by dsimp only; omega,hb⟩

/-- In a sorted tree a stored key goes once and everything else stays; for a key that is not
stored nothing changes in the order. -/
theorem keys (hdel : Del t n k n' b) (ht : 1 ≤ t) (hn : FitsBelow t n)
    (hs : (inorder n).Pairwise (· ≤ ·)) :
    (k ∈ inorder n ∧ (inorder n).Perm (k :: inorder n') ∧ b = false) ∨
      (k ∉ inorder n ∧ inorder n' = inorder n ∧ b = true) := by
  induction hdel with
  | @leafHit p A B k hA =>
    exact .inl ⟨mem_inorder_of_mem_keys (by simp),List.perm_middle,rfl⟩
  | @leafMiss p A B k hA hB =>
    refine .inr ⟨fun hk => ?_,rfl,rfl⟩
    have hs' : (A ++ B).Pairwise (· ≤ ·) := hs
    obtain hk | hk := List.mem_append.mp hk
    · exact lt_irrefl k (hA k hk)
    · exact lt_irrefl k (lt_of_lt_head (List.pairwise_append.mp hs').2.1 hB k hk)
  | @fromLeft h p A B lk k s P S L L' R b hA hP hL hlk del ih =>
    refine .inl ⟨mem_inorder_of_mem_keys (by simp),?_⟩
    obtain ⟨hS,hLfit,-⟩ := (fitsBelow_focus hP).mp hn
    rw [inorder_separator p k hP] at hs ⊢
    rw [inorder_separator p s hP]
    simp only [List.pairwise_append] at hs
    have hmem : s ∈ inorder L := mem_inorder_of_mem_keys (by simp [hlk])
    obtain ⟨-,hperm,hb⟩ | ⟨hnot,-⟩ := ih (fits_iff.mp hLfit).2 hs.1.2.1.1
    · refine ⟨perm_context ?_ _ _,hb⟩
      calc inorder L ++ k :: inorder R
        _ |>.Perm (k :: (inorder L ++ inorder R)) := List.perm_middle
        _ |>.Perm (k :: (s :: inorder L' ++ inorder R)) := (hperm.append_right _).cons k
        _ |>.Perm (k :: (inorder L' ++ s :: inorder R)) := List.perm_middle.symm.cons k
    · exact absurd hmem hnot
  | @fromRight h p A B rk k s P S L R R' b hA hP hL hR hrk del ih =>
    refine .inl ⟨mem_inorder_of_mem_keys (by simp),?_⟩
    obtain ⟨hS,-,-,hS'⟩ := (fitsBelow_focus hP).mp hn
    rw [inorder_separator p k hP] at hs ⊢
    rw [inorder_separator p s hP]
    simp only [List.pairwise_append, List.pairwise_cons] at hs
    have hmem : s ∈ inorder R := mem_inorder_of_mem_keys (by simp [hrk])
    obtain ⟨-,hperm,hb⟩ | ⟨hnot,-⟩ := ih (fits_iff.mp (hS' R List.mem_cons_self)).2 hs.1.2.1.2.1.2
    · refine ⟨perm_context ?_ _ _,hb⟩
      calc inorder L ++ k :: inorder R
        _ |>.Perm (k :: (inorder L ++ inorder R)) := List.perm_middle
        _ |>.Perm (k :: (inorder L ++ s :: inorder R')) := (hperm.append_left _).cons k
    · exact absurd hmem hnot
  | @merge h p A B k P S L R M b hA hP hL hR del ih =>
    refine .inl ⟨mem_inorder_of_mem_keys (by simp),?_⟩
    obtain ⟨hS,hLfit,-,hS'⟩ := (fitsBelow_focus hP).mp hn
    have hLb := (fits_iff.mp hLfit).2
    have hRb := (fits_iff.mp (hS' R List.mem_cons_self)).2
    rw [inorder_separator p k hP, ← inorder_join k hLb.arity] at hs ⊢
    rw [inorder_focus p hP]
    simp only [List.pairwise_append] at hs
    obtain ⟨-,hperm,hb⟩ | ⟨hnot,-⟩ := ih (hLb.join hRb k) hs.1.2.1
    · exact ⟨perm_context hperm _ _,hb⟩
    · exact absurd (mem_inorder_of_mem_keys (by simp [join])) hnot
  | @down h p k s s' c b hA hB hP refill del ih =>
    obtain ⟨hfit,hc⟩ := (fitsBelow_page hP).mp hn
    obtain ⟨hfit',hc',-⟩ := refill.shape ht hfit hc
    have hsame := refill.inorder_page_eq hfit hc
    rw [Spot.inorder_page p hP] at hs ⊢
    rw [Spot.inorder_page (s := { s' with kid := c }) p hfit'.left]
    obtain ⟨hX,hY⟩ := refill.strict hfit hc hs hA hB
    rw [hsame] at hs ⊢
    simp only [List.pairwise_append] at hs
    obtain ⟨hk,hperm,hb⟩ | ⟨hk,heq,hb⟩ := ih (fits_iff.mp hc').2 hs.1.2.1
    · exact .inl ⟨by simp [hk],perm_context hperm _ _,hb⟩
    · refine .inr ⟨fun hmem => ?_,by rw [heq]; rfl,hb⟩
      simp only [List.mem_append] at hmem
      obtain (hmem | hmem) | hmem := hmem
      · exact lt_irrefl k (hX k hmem)
      · exact hk hmem
      · exact lt_irrefl k (hY k hmem)

/-- A stored key goes once. -/
theorem keys_of_mem (hdel : Del t n k n' b) (ht : 1 ≤ t) (hn : FitsBelow t n)
    (hs : (inorder n).Pairwise (· ≤ ·)) (hk : k ∈ inorder n) :
    (inorder n).Perm (k :: inorder n') ∧ b = false :=
  ((hdel.keys ht hn hs).resolve_right fun hnot => hnot.1 hk).2

end Del

end ServerKit.BTree
