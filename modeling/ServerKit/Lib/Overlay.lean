import ServerKit.Lib.CString
import Mathlib.Data.List.GetD
import Mathlib.Data.List.Induction

/-! Chunks that are written one after the other to the front of one array, which keeps what is behind them. -/
namespace ServerKit.Lib

variable {α : Type*}

/-- The array behind the writes. -/
def overlay (array : List α) (chunks : List (List α)) : List α :=
  chunks.foldl (fun array chunk => chunk ++ array.drop chunk.length) array

@[simp] theorem overlay_snoc (array : List α) (chunks : List (List α)) (chunk : List α) :
    overlay array (chunks ++ [chunk]) = chunk ++ (overlay array chunks).drop chunk.length := by
  unfold overlay
  rw [List.foldl_append]
  rfl

theorem length_overlay {array : List α} {chunks : List (List α)}
    (h : ∀ chunk ∈ chunks, chunk.length ≤ array.length) : (overlay array chunks).length = array.length := by
  induction chunks using List.reverseRecOn with
  | nil => rfl
  | append_singleton chunks chunk ih =>
    have hle := h chunk (List.mem_append_right _ (List.mem_singleton_self _))
    rw [overlay_snoc, List.length_append, List.length_drop,
      ih fun c hc => h c (List.mem_append_left _ hc)]
    omega

section Zeros
variable {array : List UInt8} {chunks : List (List UInt8)} {chunk rest : List UInt8}

/-- At `j` there is no zero if a chunk without zeros has been there. -/
theorem getD_overlay_eq_zero_iff (h : ∀ chunk ∈ chunks, 0 ∉ chunk) (j : ℕ) :
    (overlay array chunks).getD j 0 = 0 ↔ (∀ chunk ∈ chunks, chunk.length ≤ j) ∧ array.getD j 0 = 0 := by
  induction chunks using List.reverseRecOn with
  | nil => exact ⟨fun hj => ⟨nofun,hj⟩,And.right⟩
  | append_singleton chunks chunk ih =>
    have ih := ih fun c hc => h c (List.mem_append_left _ hc)
    have hchunk := h chunk (List.mem_append_right _ (List.mem_singleton_self _))
    rw [overlay_snoc, List.forall_mem_append, List.forall_mem_singleton]
    by_cases hj : chunk.length ≤ j
    · rw [List.getD_append_right _ _ _ _ hj, List.getD_eq_getElem?_getD, List.getElem?_drop,
        Nat.add_sub_cancel' hj, ← List.getD_eq_getElem?_getD, ih]
      exact ⟨fun ⟨hall,hzero⟩ => ⟨⟨hall,hj⟩,hzero⟩,fun ⟨⟨hall,_⟩,hzero⟩ => ⟨hall,hzero⟩⟩
    · have hlt := Nat.lt_of_not_le hj
      refine iff_of_false ?_ fun hall => hj hall.1.2
      rw [List.getD_append _ _ _ _ hlt, List.getD_eq_getElem _ _ hlt]
      intro hzero
      exact hchunk (hzero ▸ List.getElem_mem hlt)

/-- A text ends with the chunk if the chunk has no zero and there is one behind it. -/
theorem text_append_eq_iff : text (chunk ++ rest) = chunk ↔ 0 ∉ chunk ∧ rest.getD 0 0 = 0 := by
  constructor
  · intro htext
    have hzero : 0 ∉ chunk := htext ▸ zero_notMem_text _
    refine ⟨hzero,?_⟩
    rw [text_append hzero, List.append_right_eq_self] at htext
    cases rest with
    | nil => rfl
    | cons b rest =>
      by_contra hb
      rw [text, List.takeWhile_cons_of_pos (by simpa using hb)] at htext
      cases htext
  · rintro ⟨hzero,hrest⟩
    rw [text_append hzero, List.append_right_eq_self]
    cases rest with
    | nil => rfl
    | cons b rest =>
      obtain rfl : b = 0 := hrest
      rfl

/-- After each write the text in the array is the chunk, exactly if no chunk has a zero or is shorter than one
before it, and the array has its zeros in the right places. -/
theorem overlay_texts_iff (array : List UInt8) (chunks : List (List UInt8)) :
    (∀ before chunk after, chunks = before ++ chunk :: after →
      text (overlay array (before ++ [chunk])) = chunk) ↔
    (∀ chunk ∈ chunks, 0 ∉ chunk) ∧ chunks.Pairwise (fun c c' => c.length ≤ c'.length) ∧
      ∀ chunk ∈ chunks, array.getD chunk.length 0 = 0 := by
  induction chunks using List.reverseRecOn with
  | nil =>
    refine iff_of_true (fun before chunk after h => ?_) ⟨nofun,.nil,nofun⟩
    cases before <;> cases h
  | append_singleton chunks chunk ih =>
    have hsplit : (∀ before c after, chunks ++ [chunk] = before ++ c :: after →
        text (overlay array (before ++ [c])) = c) ↔
        (∀ before c after, chunks = before ++ c :: after → text (overlay array (before ++ [c])) = c) ∧
          text (overlay array (chunks ++ [chunk])) = chunk := by
      constructor
      · intro h
        refine ⟨fun before c after heq => h before c (after ++ [chunk]) ?_,h chunks chunk [] rfl⟩
        rw [heq, List.append_assoc, List.cons_append]
      · rintro ⟨hold,hlast⟩ before c after heq
        cases after using List.reverseRecOn with
        | nil =>
          obtain ⟨rfl,hc⟩ := List.append_inj' heq rfl
          rwa [← (List.cons.inj hc).1]
        | append_singleton after last =>
          rw [← List.cons_append, ← List.append_assoc] at heq
          exact hold before c after (List.append_inj' heq rfl).1
    rw [hsplit, ih, List.forall_mem_append, List.forall_mem_append, List.pairwise_append,
      List.forall_mem_singleton, List.forall_mem_singleton, overlay_snoc, text_append_eq_iff]
    have hget : ((overlay array chunks).drop chunk.length).getD 0 0 = (overlay array chunks).getD chunk.length 0 := by
      rw [List.getD_eq_getElem?_getD, List.getElem?_drop, Nat.add_zero, List.getD_eq_getElem?_getD]
    rw [hget]
    constructor
    · rintro ⟨⟨hzero,hsorted,hplaces⟩,hchunk,hlast⟩
      obtain ⟨hall,hplace⟩ := (getD_overlay_eq_zero_iff hzero _).mp hlast
      refine ⟨⟨hzero,hchunk⟩,⟨hsorted,List.pairwise_singleton _ _,fun c hc c' hc' => ?_⟩,hplaces,hplace⟩
      rw [List.mem_singleton.mp hc']
      exact hall c hc
    · rintro ⟨⟨hzero,hchunk⟩,⟨hsorted,-,hall⟩,hplaces,hplace⟩
      refine ⟨⟨hzero,hsorted,hplaces⟩,hchunk,(getD_overlay_eq_zero_iff hzero _).mpr ⟨fun c hc => ?_,hplace⟩⟩
      exact hall c hc chunk (List.mem_singleton_self _)

end Zeros
end ServerKit.Lib
