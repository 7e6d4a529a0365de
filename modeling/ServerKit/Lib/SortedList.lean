import Mathlib.Data.List.Sort

/-! Sorted lists: what their ends say about their members, which changes in the middle keep them
sorted, and ordered insertion by the place that the new element takes. -/
namespace ServerKit.Lib

section Ends
variable {α : Type*} [PartialOrder α] {L : List α} {a k : α}

theorem exists_last_ge (hs : L.Pairwise (· ≤ ·)) (ha : a ∈ L) : ∃ b ∈ L.getLast?, a ≤ b := by
  obtain rfl | ⟨L,b,rfl⟩ := L.eq_nil_or_concat
  · simp at ha
  · rw [List.concat_eq_append] at *
    refine ⟨b,by simp,?_⟩
    obtain ha | ha := List.mem_append.mp ha
    · exact (List.pairwise_append.mp hs).2.2 a ha b (by simp)
    · rw [List.mem_singleton.mp ha]

theorem exists_head_le (hs : L.Pairwise (· ≤ ·)) (ha : a ∈ L) : ∃ b ∈ L.head?, b ≤ a := by
  obtain _ | ⟨b,L⟩ := L
  · simp at ha
  · refine ⟨b,rfl,?_⟩
    obtain rfl | ha := List.mem_cons.mp ha
    · exact le_rfl
    · exact (List.pairwise_cons.mp hs).1 a ha

theorem le_of_last_le (hs : L.Pairwise (· ≤ ·)) (h : ∀ b ∈ L.getLast?, b ≤ k) : ∀ a ∈ L, a ≤ k := by
  intro a ha
  obtain ⟨b,hb,hle⟩ := exists_last_ge hs ha
  exact hle.trans (h b hb)

theorem lt_of_last_lt (hs : L.Pairwise (· ≤ ·)) (h : ∀ b ∈ L.getLast?, b < k) : ∀ a ∈ L, a < k := by
  intro a ha
  obtain ⟨b,hb,hle⟩ := exists_last_ge hs ha
  exact hle.trans_lt (h b hb)

theorem lt_of_lt_head (hs : L.Pairwise (· ≤ ·)) (h : ∀ b ∈ L.head?, k < b) : ∀ a ∈ L, k < a := by
  intro a ha
  obtain ⟨b,hb,hle⟩ := exists_head_le hs ha
  exact (h b hb).trans_le hle

end Ends

section Middle
variable {α : Type*} [Preorder α] {X Y M M' : List α} {k s : α}

theorem pairwise_middle (h : (X ++ M ++ Y).Pairwise (· ≤ ·)) : M.Pairwise (· ≤ ·) :=
  (List.pairwise_append.mp (List.pairwise_append.mp h).1).2.1

/-- In a sorted list a part may be replaced by a sorted list of some of its members. -/
theorem pairwise_replace (h : (X ++ M ++ Y).Pairwise (· ≤ ·)) (hM : M' ⊆ M) :
    (X ++ M' ++ Y).Pairwise (· ≤ ·) ↔ M'.Pairwise (· ≤ ·) := by
  refine ⟨pairwise_middle,fun h' => ?_⟩
  simp only [List.pairwise_append, List.mem_append] at h ⊢
  refine ⟨⟨h.1.1,h',fun x hx y hy => h.1.2.2 x hx y (hM hy)⟩,h.2.1,?_⟩
  rintro x (hx | hx) y hy
  · exact h.2.2 x (.inl hx) y hy
  · exact h.2.2 x (.inr (hM hx)) y hy

/-- A member of the left part takes the place of the pivot. -/
theorem pairwise_pivot_left (h : (M ++ k :: Y).Pairwise (· ≤ ·)) (hperm : M.Perm (s :: M')) :
    (M' ++ s :: Y).Pairwise (· ≤ ·) ↔ (∀ x ∈ M, x ≤ s) ∧ M'.Pairwise (· ≤ ·) := by
  obtain ⟨-,hkY,hMY⟩ := List.pairwise_append.mp h
  have hs : s ∈ M := hperm.symm.subset List.mem_cons_self
  have hM' : M' ⊆ M := fun x hx => hperm.symm.subset (List.mem_cons_of_mem _ hx)
  rw [List.pairwise_append, List.pairwise_cons]
  constructor
  · rintro ⟨hsorted,-,hle⟩
    refine ⟨fun x hx => ?_,hsorted⟩
    obtain rfl | hx := List.mem_cons.mp (hperm.subset hx)
    · exact le_rfl
    · exact hle x hx s List.mem_cons_self
  · rintro ⟨hle,hsorted⟩
    have hsY : ∀ y ∈ Y, s ≤ y := fun y hy => hMY s hs y (List.mem_cons_of_mem _ hy)
    refine ⟨hsorted,⟨hsY,(List.pairwise_cons.mp hkY).2⟩,fun x hx y hy => ?_⟩
    obtain rfl | hy := List.mem_cons.mp hy
    · exact hle x (hM' hx)
    · exact hMY x (hM' hx) y (List.mem_cons_of_mem _ hy)

/-- A member of the right part takes the place of the pivot. -/
theorem pairwise_pivot_right (h : (X ++ k :: M).Pairwise (· ≤ ·)) (hperm : M.Perm (s :: M')) :
    (X ++ s :: M').Pairwise (· ≤ ·) ↔ (∀ x ∈ M, s ≤ x) ∧ M'.Pairwise (· ≤ ·) := by
  obtain ⟨hX,-,hXM⟩ := List.pairwise_append.mp h
  have hs : s ∈ M := hperm.symm.subset List.mem_cons_self
  have hM' : M' ⊆ M := fun x hx => hperm.symm.subset (List.mem_cons_of_mem _ hx)
  rw [List.pairwise_append, List.pairwise_cons]
  constructor
  · rintro ⟨-,⟨hle,hsorted⟩,-⟩
    refine ⟨fun x hx => ?_,hsorted⟩
    obtain rfl | hx := List.mem_cons.mp (hperm.subset hx)
    · exact le_rfl
    · exact hle x hx
  · rintro ⟨hle,hsorted⟩
    refine ⟨hX,⟨fun y hy => hle y (hM' hy),hsorted⟩,fun x hx y hy => ?_⟩
    obtain rfl | hy := List.mem_cons.mp hy
    · exact hXM x hx y (List.mem_cons_of_mem _ hs)
    · exact hXM x hx y (List.mem_cons_of_mem _ (hM' hy))

end Middle

/-- Ordered insertion is any insertion that leaves the list sorted. -/
theorem orderedInsert_eq_of_sorted {α : Type*} [LinearOrder α] {k : α} {A B : List α}
    (h : (A ++ k :: B).Pairwise (· ≤ ·)) : (A ++ B).orderedInsert (· ≤ ·) k = A ++ k :: B := by
  have hAB : (A ++ B).Pairwise (· ≤ ·) :=
    h.sublist (List.sublist_append_right [k] B |>.append_left A)
  have hperm : ((A ++ B).orderedInsert (· ≤ ·) k).Perm (A ++ k :: B) :=
    (List.perm_orderedInsert (· ≤ ·) k (A ++ B)).trans List.perm_middle.symm
  exact hperm.eq_of_pairwise' (hAB.orderedInsert k _) h

end ServerKit.Lib
