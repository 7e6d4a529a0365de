import ServerKit.BTree.Code
import ServerKit.Lib.Weave

/-! The trees that a node store holds. The height is part of the type, so all leaves of a tree lie
at one depth. -/
namespace ServerKit.BTree
open ServerKit.Lib

/-- The contents of one node: its address, its keys and its subtrees. -/
structure Page (C : Type) where
  ptr : Ptr
  keys : List ℤ
  kids : List C
  deriving DecidableEq, Repr

/-- What hangs below a node of height `h`: nothing below a leaf. -/
@[reducible] def Kid : ℕ → Type
  | 0 => Empty
  | h+1 => Page (Kid h)

/-- A tree whose leaves lie `h` edges below its root. -/
abbrev Tree (h : ℕ) := Page (Kid h)

def kidPtr : (h : ℕ) → Kid h → Ptr
  | 0,_ => 0
  | _+1,n => n.ptr

@[simp] theorem kidPtr_succ (h : ℕ) : kidPtr (h+1) = Page.ptr := rfl

def kidPtrs : (h : ℕ) → Kid h → List Ptr
  | 0,_ => []
  | h+1,n => n.ptr :: n.kids.flatMap (kidPtrs h)

def kidKeys : (h : ℕ) → Kid h → List ℤ
  | 0,_ => []
  | h+1,n => weave (n.kids.map (kidKeys h)) n.keys

/-- The addresses of all nodes. -/
def ptrs {h : ℕ} (n : Tree h) : List Ptr := kidPtrs (h+1) n

/-- All keys in order. -/
def inorder {h : ℕ} (n : Tree h) : List ℤ := kidKeys (h+1) n

@[simp] theorem ptrs_mk {h : ℕ} (p : Ptr) (ks : List ℤ) (cs : List (Kid h)) :
    ptrs (⟨p,ks,cs⟩ : Tree h) = p :: cs.flatMap (kidPtrs h) := rfl

@[simp] theorem inorder_mk {h : ℕ} (p : Ptr) (ks : List ℤ) (cs : List (Kid h)) :
    inorder (⟨p,ks,cs⟩ : Tree h) = weave (cs.map (kidKeys h)) ks := rfl

/-- A leaf has no subtrees. -/
theorem kids_eq_nil (n : Tree 0) : n.kids = [] :=
  List.eq_nil_iff_forall_not_mem.mpr fun c => c.elim

/-- A place among the keys is a place among the subtrees. -/
theorem exists_kid {C : Type} {cs : List C} {A B : List ℤ} (h : cs.length = (A ++ B).length+1) :
    ∃ P c S, cs = P ++ c :: S ∧ P.length = A.length ∧ S.length = B.length := by
  rw [List.length_append] at h
  have hlt : A.length < cs.length := by omega
  refine ⟨cs.take A.length,cs[A.length],cs.drop (A.length+1),?_,?_,?_⟩
  · rw [← List.drop_eq_getElem_cons hlt, List.take_append_drop]
  · rw [List.length_take]
    omega
  · rw [List.length_drop]
    omega

/-- A place among the keys of a node above the leaves, and the children around it. -/
theorem exists_place {C : Type} {cs : List C} {ks : List ℤ} (hcs : cs.length = ks.length+1) {i : ℕ}
    (hi : i ≤ ks.length) :
    ∃ A B P c S, ks = A ++ B ∧ cs = P ++ c :: S ∧ A.length = i ∧ P.length = i ∧
      S.length = B.length := by
  obtain ⟨P,c,S,hsplit,hP,hS⟩ := exists_kid (A := ks.take i) (B := ks.drop i)
    (by rwa [List.take_append_drop])
  have hA : (ks.take i).length = i := by rw [List.length_take, min_eq_left hi]
  exact ⟨_,_,P,c,S,(List.take_append_drop i ks).symm,hsplit,hA,hP.trans hA,hS⟩

section Order
variable {h : ℕ} {A B : List ℤ} {P S : List (Tree h)} {L R c : Tree h}

/-- The keys around one subtree. -/
theorem inorder_focus (p : Ptr) (hP : P.length = A.length) :
    inorder (⟨p,A ++ B,P ++ c :: S⟩ : Tree (h+1)) =
      weave (P.map inorder) A ++ inorder c ++ weaveTail (S.map inorder) B := by
  rw [inorder_mk, List.map_append, List.map_cons, weave_focus (by simpa using hP)]
  rfl

/-- The keys around one separator and its two subtrees. -/
theorem inorder_separator (p : Ptr) (k : ℤ) (hP : P.length = A.length) :
    inorder (⟨p,A ++ k :: B,P ++ L :: R :: S⟩ : Tree (h+1)) =
      weave (P.map inorder) A ++ (inorder L ++ k :: inorder R) ++ weaveTail (S.map inorder) B := by
  rw [inorder_focus p hP, List.map_cons, weaveTail_cons, weave_cons]
  simp

end Order

/-- Two siblings and the separator between them as one node. -/
def join {C : Type} (L : Page C) (k : ℤ) (R : Page C) : Page C :=
  ⟨L.ptr,L.keys ++ k :: R.keys,L.kids ++ R.kids⟩

theorem inorder_join {h : ℕ} {L R : Tree h} (k : ℤ) (hL : h ≠ 0 → L.kids.length = L.keys.length+1) :
    inorder (join L k R) = inorder L ++ k :: inorder R := by
  obtain ⟨p,lk,lc⟩ := L
  obtain ⟨q,rk,rc⟩ := R
  cases h with
  | zero =>
    obtain rfl : lc = [] := kids_eq_nil ⟨p,lk,lc⟩
    obtain rfl : rc = [] := kids_eq_nil ⟨p,lk,rc⟩
    rfl
  | succ h =>
    obtain rfl | ⟨lc,d,rfl⟩ := lc.eq_nil_or_concat
    · simp at hL
    · rw [List.concat_eq_append] at *
      have hlen : (lc.map (kidKeys (h+1))).length = lk.length := by simpa using hL
      have hleft : weave ((lc ++ [d]).map (kidKeys (h+1))) lk =
          weave (lc.map (kidKeys (h+1))) lk ++ kidKeys (h+1) d := by
        have happend := weave_append hlen [kidKeys (h+1) d] []
        simpa using happend
      change weave ((lc ++ [d] ++ rc).map (kidKeys (h+1))) (lk ++ k :: rk) =
        weave ((lc ++ [d]).map (kidKeys (h+1))) lk ++ k :: weave (rc.map (kidKeys (h+1))) rk
      rw [hleft, List.append_assoc lc, List.map_append, weave_append hlen]
      simp

section Shape

/-- A subtree that may hang below a node: `t-1` to `2*t-1` keys in every node, and one child more
than keys above the leaves. -/
def Fits (t : ℕ) : (h : ℕ) → Kid h → Prop
  | 0,_ => True
  | h+1,n => (t-1 ≤ n.keys.length ∧ n.keys.length ≤ 2*t-1) ∧
      (h ≠ 0 → n.kids.length = n.keys.length+1) ∧ ∀ c ∈ n.kids, Fits t h c

/-- A node whose subtrees all fit; the number of its own keys is left open. -/
structure FitsBelow {h : ℕ} (t : ℕ) (n : Tree h) : Prop where
  arity : h ≠ 0 → n.kids.length = n.keys.length+1
  kids : ∀ c ∈ n.kids, Fits t h c

/-- The shape of a whole tree of degree `t`. -/
structure ShapeValid {h : ℕ} (t : ℕ) (n : Tree h) : Prop extends FitsBelow t n where
  num_le : n.keys.length ≤ 2*t-1
  root_num : h ≠ 0 → 1 ≤ n.keys.length

theorem fits_iff {t h : ℕ} {n : Tree h} :
    Fits t (h+1) n ↔ (t-1 ≤ n.keys.length ∧ n.keys.length ≤ 2*t-1) ∧ FitsBelow t n :=
  ⟨fun ⟨h₁,h₂,h₃⟩ => ⟨h₁,h₂,h₃⟩,fun ⟨h₁,h₂,h₃⟩ => ⟨h₁,h₂,h₃⟩⟩

variable {t h : ℕ} {A B : List ℤ} {P S : List (Tree h)} {L R c : Tree h} {p : Ptr}

theorem FitsBelow.join {L R : Tree h} (hL : FitsBelow t L) (hR : FitsBelow t R) (k : ℤ) :
    FitsBelow t (join L k R) := by
  refine ⟨fun h0 => ?_,fun c hc => ?_⟩
  · simp only [BTree.join, List.length_append, List.length_cons, hL.arity h0, hR.arity h0]
    omega
  · exact (List.mem_append.mp hc).elim (hL.kids c) (hR.kids c)

theorem FitsBelow.of_join {L R : Tree h} {k : ℤ} (hLR : FitsBelow t (BTree.join L k R))
    (hL : h ≠ 0 → L.kids.length = L.keys.length+1) : FitsBelow t L ∧ FitsBelow t R := by
  refine ⟨⟨hL,fun c hc => hLR.kids c (List.mem_append_left _ hc)⟩,fun h0 => ?_,
    fun c hc => hLR.kids c (List.mem_append_right _ hc)⟩
  have harity := hLR.arity h0
  simp only [BTree.join, List.length_append, List.length_cons, hL h0] at harity
  omega

/-- Only the number of keys and the subtrees matter. -/
theorem fitsBelow_focus (hP : P.length = A.length) :
    FitsBelow t (⟨p,A ++ B,P ++ c :: S⟩ : Tree (h+1)) ↔
      S.length = B.length ∧ Fits t (h+1) c ∧ (∀ d ∈ P, Fits t (h+1) d) ∧ ∀ d ∈ S, Fits t (h+1) d := by
  constructor
  · intro hn
    have harity := hn.arity (Nat.succ_ne_zero h)
    simp only [List.length_append, List.length_cons] at harity
    refine ⟨by omega,hn.kids c (by simp),fun d hd => hn.kids d (by simp [hd]),
      fun d hd => hn.kids d (by simp [hd])⟩
  · rintro ⟨hS,hc,hP',hS'⟩
    refine ⟨fun _ => by simp; omega,fun d hd => ?_⟩
    simp only [List.mem_append, List.mem_cons] at hd
    obtain hd | rfl | hd := hd
    · exact hP' d hd
    · exact hc
    · exact hS' d hd

end Shape

end ServerKit.BTree
