import Mathlib.Data.List.Basic

/-! Condition variables among finitely many threads. Each thread has a state, and `wake` is the state
to which a wake-up takes a thread that waits for the variable. -/
namespace ServerKit.Lib

variable {σ : Type*}

/-- A signal wakes one waiting thread if there is one, and otherwise it is lost. -/
inductive Signal (wake : σ → Option σ) (l : List σ) : List σ → Prop
  | woken {i : ℕ} {x y : σ} (hi : l[i]? = some x) (hx : wake x = some y) : Signal wake l (l.set i y)
  | lost (h : ∀ x ∈ l, wake x = none) : Signal wake l l

theorem Signal.exists (wake : σ → Option σ) (l : List σ) : ∃ l', Signal wake l l' := by
  by_cases h : ∀ x ∈ l, wake x = none
  · exact ⟨l,.lost h⟩
  · simp only [not_forall] at h
    obtain ⟨x,hx,hwake⟩ := h
    obtain ⟨y,hy⟩ := Option.ne_none_iff_exists'.mp hwake
    obtain ⟨i,hi⟩ := List.mem_iff_getElem?.mp hx
    exact ⟨l.set i y,.woken hi hy⟩

/-- One thread has gone from one place to another. -/
theorem countP_set_getElem? {p : σ → Bool} {l : List σ} {i : ℕ} {a b : σ} (h : l[i]? = some a) :
    (l.set i b).countP p + (p a).toNat = l.countP p + (p b).toNat := by
  obtain ⟨hlt,hget⟩ := List.getElem?_eq_some_iff.mp h
  rw [List.countP_set hlt, hget]
  cases hp : p a with
  | false => cases p b <;> simp
  | true =>
    have hpos : 0 < l.countP p := List.countP_pos_iff.mpr ⟨a,List.mem_of_getElem? h,hp⟩
    cases p b <;> simp <;> omega

end ServerKit.Lib
