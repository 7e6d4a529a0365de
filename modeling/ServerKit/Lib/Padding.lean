import Mathlib.Data.List.Basic

/-! Messages that are sent in blocks of a fixed size, each one at the front of its block. -/
namespace ServerKit.Lib

variable {α : Type*} {n : ℕ}

inductive Padded (n : ℕ) : List (List α) → List α → Prop
  | nil : Padded n [] []
  | snoc {ms out m block} (h : Padded n ms out) (hblock : block.length = n) (hm : m <+: block) :
      Padded n (ms ++ [m]) (out ++ block)

namespace Padded
variable {ms : List (List α)} {out : List α}

theorem length_eq (h : Padded n ms out) : out.length = n*ms.length := by
  induction h with
  | nil => rfl
  | snoc _ hblock _ ih => simp [ih, hblock, Nat.mul_add]

theorem length_flatten_le (h : Padded n ms out) : ms.flatten.length ≤ out.length := by
  induction h with
  | nil => exact Nat.le_refl 0
  | snoc _ hblock hm ih =>
    have hle := hm.length_le
    simp only [List.flatten_append, List.length_append, List.flatten_singleton]
    omega

/-- Nothing but the messages is sent exactly if each of them fills its block. -/
theorem eq_flatten_iff (h : Padded n ms out) : out = ms.flatten ↔ ∀ m ∈ ms, m.length = n := by
  induction h with
  | nil => simp
  | @snoc ms out m block h hblock hm ih =>
    rw [List.flatten_append, List.flatten_singleton]
    constructor
    · intro heq
      have hle := hm.length_le
      have hshort := h.length_flatten_le
      have hlength := congrArg List.length heq
      rw [List.length_append, List.length_append] at hlength
      obtain ⟨hout,rfl⟩ := List.append_inj heq (by omega)
      intro m' hm'
      obtain hold | hnew := List.mem_append.mp hm'
      · exact ih.mp hout m' hold
      · rw [List.mem_singleton.mp hnew]
        exact hblock
    · intro hfull
      have hout : out = ms.flatten := by
        apply ih.mpr
        intro m' hm'
        exact hfull m' (List.mem_append_left _ hm')
      have hsize : m.length = n := by
        apply hfull
        exact List.mem_append_right _ (List.mem_singleton_self m)
      rw [hout, hm.eq_of_length (hsize.trans hblock.symm)]

end Padded
end ServerKit.Lib
