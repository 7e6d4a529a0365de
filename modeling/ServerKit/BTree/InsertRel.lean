import ServerKit.BTree.Tree
import ServerKit.Lib.SortedList
import Mathlib.Data.Int.Order.Basic

/-! Insertion on trees, one rule for every branch of `btree_insert_nonfull`: what it does to the
keys in order, and that it keeps the shape. -/
namespace ServerKit.BTree
open ServerKit.Lib

/-- `btree_insert_nonfull` turns the first tree into the second one. -/
inductive Ins (t : ℕ) : {h : ℕ} → Tree h → ℤ → Tree h → Prop
  | leaf {p : Ptr} {A B : List ℤ} {k : ℤ} (hA : ∀ a ∈ A.getLast?, a ≤ k) (hB : ∀ b ∈ B.head?, k < b) :
      Ins t (⟨p,A ++ B,[]⟩ : Tree 0) k ⟨p,A ++ k :: B,[]⟩
  | down {h : ℕ} {p : Ptr} {A B : List ℤ} {k : ℤ} {P S : List (Tree h)} {c c' : Tree h}
      (hA : ∀ a ∈ A.getLast?, a ≤ k) (hB : ∀ b ∈ B.head?, k < b) (hP : P.length = A.length)
      (hc : c.keys.length ≠ 2*t-1) (ins : Ins t c k c') :
      Ins t (⟨p,A ++ B,P ++ c :: S⟩ : Tree (h+1)) k ⟨p,A ++ B,P ++ c' :: S⟩
  | splitLeft {h : ℕ} {p : Ptr} {A B : List ℤ} {k m : ℤ} {P S : List (Tree h)} {l l' r : Tree h}
      (hA : ∀ a ∈ A.getLast?, a ≤ k) (hB : ∀ b ∈ B.head?, k < b) (hP : P.length = A.length)
      (hl : l.keys.length+1 = t) (hr : r.keys.length+1 = t) (hlc : h ≠ 0 → l.kids.length = t)
      (hm : k ≤ m) (ins : Ins t l k l') :
      Ins t (⟨p,A ++ B,P ++ join l m r :: S⟩ : Tree (h+1)) k ⟨p,A ++ m :: B,P ++ l' :: r :: S⟩
  | splitRight {h : ℕ} {p : Ptr} {A B : List ℤ} {k m : ℤ} {P S : List (Tree h)} {l r r' : Tree h}
      (hA : ∀ a ∈ A.getLast?, a ≤ k) (hB : ∀ b ∈ B.head?, k < b) (hP : P.length = A.length)
      (hl : l.keys.length+1 = t) (hr : r.keys.length+1 = t) (hlc : h ≠ 0 → l.kids.length = t)
      (hm : m < k) (ins : Ins t r k r') :
      Ins t (⟨p,A ++ B,P ++ join l m r :: S⟩ : Tree (h+1)) k ⟨p,A ++ m :: B,P ++ l :: r' :: S⟩

/-- `k` is put into `L`, behind everything below it and before everything above it. -/
def InsertedIn (k : ℤ) (L L' : List ℤ) : Prop :=
  ∃ X Y, L = X ++ Y ∧ L' = X ++ k :: Y ∧ (∀ x ∈ X, x ≤ k) ∧ ∀ y ∈ Y, k ≤ y

namespace InsertedIn
variable {k : ℤ} {L L' X Y : List ℤ}

theorem extend (h : InsertedIn k L L') (hX : ∀ x ∈ X, x ≤ k) (hY : ∀ y ∈ Y, k ≤ y) :
    InsertedIn k (X ++ L ++ Y) (X ++ L' ++ Y) := by
  obtain ⟨M,N,rfl,rfl,hM,hN⟩ := h
  refine ⟨X ++ M,N ++ Y,by simp,by simp,fun x hx => ?_,fun y hy => ?_⟩
  · exact (List.mem_append.mp hx).elim (hX x) (hM x)
  · exact (List.mem_append.mp hy).elim (hN y) (hY y)

end InsertedIn

/-- The two sides of the subtree that the search goes into. -/
theorem below_above {h : ℕ} {A B M : List ℤ} {P S : List (Tree h)} {k : ℤ}
    (hs : (weave (P.map inorder) A ++ M ++ weaveTail (S.map inorder) B).Pairwise (· ≤ ·))
    (hP : P.length = A.length) (hS : S.length = B.length) (hA : ∀ a ∈ A.getLast?, a ≤ k)
    (hB : ∀ b ∈ B.head?, k < b) :
    (∀ x ∈ weave (P.map inorder) A, x ≤ k) ∧ ∀ y ∈ weaveTail (S.map inorder) B, k ≤ y := by
  simp only [List.pairwise_append] at hs
  have hlast : (weave (P.map inorder) A).getLast? = A.getLast? := getLast?_weave (by simpa using hP)
  have hhead : (weaveTail (S.map inorder) B).head? = B.head? := head?_weaveTail (by simpa using hS)
  refine ⟨le_of_last_le hs.1.1 (by rwa [hlast]),fun y hy => ?_⟩
  exact (lt_of_lt_head hs.2.1 (by rwa [hhead]) y hy).le

namespace Ins
variable {t h : ℕ} {n n' : Tree h} {k : ℤ}

/-- A node that is not full gets at most one key more, and everything below it still fits. -/
theorem shape (hins : Ins t n k n') (hn : FitsBelow t n) (hnum : n.keys.length < 2*t-1) :
    FitsBelow t n' ∧ n.keys.length ≤ n'.keys.length ∧ n'.keys.length ≤ n.keys.length+1 := by
  induction hins with
  | leaf hA hB => exact ⟨⟨by simp,by simp⟩,by simp,by simp; omega⟩
  | down hA hB hP hc ins ih =>
    obtain ⟨hS,hcfit,hP',hS'⟩ := (fitsBelow_focus hP).mp hn
    obtain ⟨⟨hlo,hhi⟩,hcb⟩ := fits_iff.mp hcfit
    obtain ⟨hcb',hle,hle'⟩ := ih hcb (by omega)
    refine ⟨(fitsBelow_focus hP).mpr ⟨hS,fits_iff.mpr ⟨⟨by omega,by omega⟩,hcb'⟩,hP',hS'⟩,le_rfl,?_⟩
    exact Nat.le_succ _
  | @splitLeft h p A B k m P S l l' r hA hB hP hl hr hlc hm ins ih =>
    obtain ⟨hS,hcfit,hP',hS'⟩ := (fitsBelow_focus hP).mp hn
    obtain ⟨hlb,hrb⟩ := (fits_iff.mp hcfit).2.of_join fun h0 => (hlc h0).trans hl.symm
    obtain ⟨hlb',hle,hle'⟩ := ih hlb (by omega)
    refine ⟨(fitsBelow_focus hP).mpr ⟨by simp [hS],fits_iff.mpr ⟨⟨by omega,by omega⟩,hlb'⟩,hP',?_⟩,
      by simp,by simp; omega⟩
    intro d hd
    obtain rfl | hd := List.mem_cons.mp hd
    · exact fits_iff.mpr ⟨⟨by omega,by omega⟩,hrb⟩
    · exact hS' d hd
  | @splitRight h p A B k m P S l r r' hA hB hP hl hr hlc hm ins ih =>
    obtain ⟨hS,hcfit,hP',hS'⟩ := (fitsBelow_focus hP).mp hn
    obtain ⟨hlb,hrb⟩ := (fits_iff.mp hcfit).2.of_join fun h0 => (hlc h0).trans hl.symm
    obtain ⟨hrb',hle,hle'⟩ := ih hrb (by omega)
    refine ⟨(fitsBelow_focus hP).mpr ⟨by simp [hS],fits_iff.mpr ⟨⟨by omega,by omega⟩,hlb⟩,hP',?_⟩,
      by simp,by simp; omega⟩
    intro d hd
    obtain rfl | hd := List.mem_cons.mp hd
    · exact fits_iff.mpr ⟨⟨by omega,by omega⟩,hrb'⟩
    · exact hS' d hd

/-- A full child in a sorted node, which is split before the search goes on. -/
theorem sorted_join {p : Ptr} {A B : List ℤ} {m : ℤ} {P S : List (Tree h)} {l r : Tree h}
    (hn : FitsBelow t (⟨p,A ++ B,P ++ join l m r :: S⟩ : Tree (h+1)))
    (hs : (inorder (⟨p,A ++ B,P ++ join l m r :: S⟩ : Tree (h+1))).Pairwise (· ≤ ·))
    (hA : ∀ a ∈ A.getLast?, a ≤ k) (hB : ∀ b ∈ B.head?, k < b) (hP : P.length = A.length)
    (harity : h ≠ 0 → l.kids.length = l.keys.length+1) :
    ((∀ x ∈ weave (P.map inorder) A, x ≤ k) ∧ ∀ y ∈ weaveTail (S.map inorder) B, k ≤ y) ∧
      (inorder l ++ m :: inorder r).Pairwise (· ≤ ·) ∧ FitsBelow t l ∧ FitsBelow t r := by
  obtain ⟨hS,hcfit,-⟩ := (fitsBelow_focus hP).mp hn
  rw [inorder_focus p hP, inorder_join m harity] at hs
  have hsides := below_above hs hP hS hA hB
  simp only [List.pairwise_append] at hs
  exact ⟨hsides,List.pairwise_append.mpr hs.1.2.1,(fits_iff.mp hcfit).2.of_join harity⟩

/-- In a sorted tree the key goes where the order wants it. -/
theorem inserted (hins : Ins t n k n') (hn : FitsBelow t n) (hs : (inorder n).Pairwise (· ≤ ·)) :
    InsertedIn k (inorder n) (inorder n') := by
  induction hins with
  | @leaf p A B k hA hB =>
    have hs' : (A ++ B).Pairwise (· ≤ ·) := hs
    rw [List.pairwise_append] at hs'
    exact ⟨A,B,rfl,rfl,le_of_last_le hs'.1 hA,fun b hb => (lt_of_lt_head hs'.2.1 hB b hb).le⟩
  | @down h p A B k P S c c' hA hB hP hc ins ih =>
    obtain ⟨hS,hcfit,-⟩ := (fitsBelow_focus hP).mp hn
    rw [inorder_focus p hP] at hs ⊢
    rw [inorder_focus p hP]
    obtain ⟨hX,hY⟩ := below_above hs hP hS hA hB
    simp only [List.pairwise_append] at hs
    exact (ih (fits_iff.mp hcfit).2 hs.1.2.1).extend hX hY
  | @splitLeft h p A B k m P S l l' r hA hB hP hl hr hlc hm ins ih =>
    have harity : h ≠ 0 → l.kids.length = l.keys.length+1 := fun h0 => (hlc h0).trans hl.symm
    obtain ⟨⟨hX,hY⟩,hlr,hlb,-⟩ := sorted_join hn hs hA hB hP harity
    rw [List.pairwise_append, List.pairwise_cons] at hlr
    rw [inorder_focus p hP, inorder_join m harity, inorder_separator p m hP]
    have hins := ih hlb hlr.1
    have hr : ∀ y ∈ m :: inorder r, k ≤ y := by
      intro y hy
      obtain rfl | hy := List.mem_cons.mp hy
      · exact hm
      · exact hm.trans (hlr.2.1.1 y hy)
    simpa using (hins.extend (X := []) (by simp) hr).extend hX hY
  | @splitRight h p A B k m P S l r r' hA hB hP hl hr hlc hm ins ih =>
    have harity : h ≠ 0 → l.kids.length = l.keys.length+1 := fun h0 => (hlc h0).trans hl.symm
    obtain ⟨⟨hX,hY⟩,hlr,-,hrb⟩ := sorted_join hn hs hA hB hP harity
    rw [List.pairwise_append, List.pairwise_cons] at hlr
    rw [inorder_focus p hP, inorder_join m harity, inorder_separator p m hP]
    have hins := ih hrb hlr.2.1.2
    have hl : ∀ x ∈ inorder l ++ [m], x ≤ k := by
      intro x hx
      obtain hx | hx := List.mem_append.mp hx
      · exact (hlr.2.2 x hx m List.mem_cons_self).trans hm.le
      · exact (List.mem_singleton.mp hx).trans_le hm.le
    simpa using (hins.extend (Y := []) hl (by simp)).extend hX hY

end Ins
end ServerKit.BTree
