import Mathlib.Data.List.Basic

/-! Runs of a labelled step relation, and the two ways to argue about all of them: an invariant of
every step, and a function on abstract states that every step follows. -/
namespace ServerKit.Lib

variable {σ τ ℓ : Type*}

/-- The states that a finite sequence of labelled steps leads to. -/
inductive Run (step : σ → ℓ → σ → Prop) (s : σ) : List ℓ → σ → Prop
  | nil : Run step s [] s
  | snoc {ls l s' s''} (run : Run step s ls s') (last : step s' l s'') : Run step s (ls ++ [l]) s''

namespace Run
variable {step : σ → ℓ → σ → Prop} {s s' : σ} {ls : List ℓ}

/-- What holds at the start and is kept by every step holds after every run. -/
theorem invariant {P : σ → Prop} (h : Run step s ls s') (hs : P s)
    (hstep : ∀ s l s', P s → step s l s' → P s') : P s' := by
  induction h with
  | nil => exact hs
  | snoc _ last ih => exact hstep _ _ _ ih last

/-- A run is followed by the abstract states when every step is. -/
theorem simulates {R : σ → τ → Prop} {spec : τ → ℓ → τ} {t : τ} (h : Run step s ls s') (hs : R s t)
    (hstep : ∀ s l s' t, R s t → step s l s' → R s' (spec t l)) : R s' (ls.foldl spec t) := by
  induction h with
  | nil => exact hs
  | snoc _ last ih =>
    rw [List.foldl_append]
    exact hstep _ _ _ _ ih last

theorem cons {l : ℓ} {s'' : σ} (first : step s l s') (h : Run step s' ls s'') :
    Run step s (l :: ls) s'' := by
  induction h with
  | nil => exact Run.nil.snoc first
  | snoc _ last ih => exact ih.snoc last

theorem append {ls' : List ℓ} {s'' : σ} (h : Run step s ls s') (h' : Run step s' ls' s'') :
    Run step s (ls ++ ls') s'' := by
  induction h' with
  | nil => rwa [List.append_nil]
  | snoc _ last ih =>
    rw [← List.append_assoc]
    exact ih.snoc last

theorem mono {step' : σ → ℓ → σ → Prop} (h : Run step s ls s')
    (hstep : ∀ s l s', step s l s' → step' s l s') : Run step' s ls s' := by
  induction h with
  | nil => exact .nil
  | snoc _ last ih => exact ih.snoc (hstep _ _ _ last)

theorem eq_of_nil (h : Run step s ls s') (hls : ls = []) : s' = s := by
  cases h with
  | nil => rfl
  | snoc run last => simp at hls

/-- The first step of a run. -/
theorem of_cons {l : ℓ} {ls₀ : List ℓ} (h : Run step s ls₀ s') (hls : ls₀ = l :: ls) :
    ∃ s₁, step s l s₁ ∧ Run step s₁ ls s' := by
  induction h generalizing ls with
  | nil => cases hls
  | @snoc ls₁ l₁ s₁ s₂ run last ih =>
    obtain ⟨hnil,hlast⟩ | ⟨ls₂,hcons,rfl⟩ := List.append_eq_cons_iff.mp hls
    · obtain ⟨rfl,rfl⟩ := List.cons.inj hlast
      rw [run.eq_of_nil hnil] at last
      exact ⟨s₂,last,.nil⟩
    · obtain ⟨s₀,hfirst,hrun⟩ := ih hcons
      exact ⟨s₀,hfirst,hrun.snoc last⟩

theorem of_append {ls₀ ls' : List ℓ} (h : Run step s ls₀ s') (hls : ls₀ = ls ++ ls') :
    ∃ s₁, Run step s ls s₁ ∧ Run step s₁ ls' s' := by
  induction ls generalizing s ls₀ with
  | nil =>
    subst hls
    exact ⟨s,.nil,h⟩
  | cons l ls ih =>
    obtain ⟨s₀,hfirst,hrest⟩ := h.of_cons hls
    obtain ⟨s₁,hrun,hrun'⟩ := ih hrest rfl
    exact ⟨s₁,cons hfirst hrun,hrun'⟩

/-- Steps that are determined by their labels lead to one state. -/
theorem unique {s₁ : σ} (hdet : ∀ s l a b, step s l a → step s l b → a = b) (h : Run step s ls s')
    (h' : Run step s ls s₁) : s' = s₁ := by
  induction ls generalizing s with
  | nil => rw [h.eq_of_nil rfl, h'.eq_of_nil rfl]
  | cons l ls ih =>
    obtain ⟨a,hfirst,hrest⟩ := h.of_cons rfl
    obtain ⟨b,hfirst',hrest'⟩ := h'.of_cons rfl
    obtain rfl := hdet _ _ _ _ hfirst hfirst'
    exact ih hrest hrest'

end Run

/-- A run with its steps, each one together with the state before it. -/
inductive Trace (step : σ → ℓ → σ → Prop) (s : σ) : List (σ × ℓ) → σ → Prop
  | nil : Trace step s [] s
  | snoc {steps l s' s''} (trace : Trace step s steps s') (last : step s' l s'') :
      Trace step s (steps ++ [(s',l)]) s''

namespace Trace
variable {step : σ → ℓ → σ → Prop} {s s' : σ} {steps : List (σ × ℓ)}

theorem run (h : Trace step s steps s') : Run step s (steps.map Prod.snd) s' := by
  induction h with
  | nil => exact Run.nil
  | snoc _ last ih =>
    rw [List.map_append]
    exact ih.snoc last

theorem step_of_mem (h : Trace step s steps s') {x : σ × ℓ} (hx : x ∈ steps) :
    ∃ s'', step x.1 x.2 s'' := by
  induction h with
  | nil => cases hx
  | snoc _ last ih =>
    obtain hx | hx := List.mem_append.mp hx
    · exact ih hx
    · rw [List.mem_singleton.mp hx]
      exact ⟨_,last⟩

/-- What holds at the start and is kept by every step holds all along a run. -/
theorem invariant {J : σ → Prop} (h : Trace step s steps s') (hJ : J s)
    (kept : ∀ s l s', J s → step s l s' → J s') : (∀ x ∈ steps, J x.1) ∧ J s' := by
  induction h with
  | nil => exact ⟨nofun,hJ⟩
  | snoc _ last ih =>
    refine ⟨fun x hx => ?_,kept _ _ _ ih.2 last⟩
    obtain hx | hx := List.mem_append.mp hx
    · exact ih.1 x hx
    · rw [List.mem_singleton.mp hx]
      exact ih.2

/-- `J` holds as long as no step is in `B`, and the first step in `B` breaks `P`, which `J` implies. So
`P` holds all along a run exactly if no step of the run is in `B`. -/
theorem until_iff {J P : σ → Prop} {B : σ → ℓ → Prop} (h : Trace step s steps s') (hJ : J s)
    (imp : ∀ s, J s → P s) (kept : ∀ s l s', J s → ¬ B s l → step s l s' → J s')
    (broken : ∀ s l s', J s → B s l → step s l s' → ¬ P s') :
    ((∀ x ∈ steps, P x.1) ∧ P s') ↔ ∀ x ∈ steps, ¬ B x.1 x.2 := by
  suffices hboth : (((∀ x ∈ steps, P x.1) ∧ P s') ↔ ∀ x ∈ steps, ¬ B x.1 x.2) ∧
      ((∀ x ∈ steps, ¬ B x.1 x.2) → J s') from hboth.1
  induction h with
  | nil => exact ⟨iff_of_true ⟨nofun,imp s hJ⟩ nofun,fun _ => hJ⟩
  | @snoc steps l s' s'' trace last ih =>
    obtain ⟨hiff,hJ'⟩ := ih
    simp only [List.mem_append, List.mem_singleton, or_imp, forall_and, forall_eq]
    refine ⟨⟨?_,?_⟩,fun hnone => kept _ _ _ (hJ' hnone.1) hnone.2 last⟩
    · rintro ⟨hbefore,hs''⟩
      have hnone := hiff.mp hbefore
      exact ⟨hnone,fun hB => broken _ _ _ (hJ' hnone) hB last hs''⟩
    · rintro ⟨hnone,hB⟩
      exact ⟨hiff.mpr hnone,imp _ (kept _ _ _ (hJ' hnone) hB last)⟩

/-- `J` holds as long as no step is in `B`, and while it does the steps in `B` are those that are not
good. So all steps of a run are good exactly if none of them is in `B`. -/
theorem steps_iff {J : σ → Prop} {G B : σ → ℓ → Prop} (h : Trace step s steps s') (hJ : J s)
    (good : ∀ s l s', J s → step s l s' → (G s l ↔ ¬ B s l))
    (kept : ∀ s l s', J s → ¬ B s l → step s l s' → J s') :
    ((∀ x ∈ steps, G x.1 x.2) ↔ ∀ x ∈ steps, ¬ B x.1 x.2) ∧
      ((∀ x ∈ steps, ¬ B x.1 x.2) → (∀ x ∈ steps, J x.1) ∧ J s') := by
  induction h with
  | nil => exact ⟨iff_of_true nofun nofun,fun _ => ⟨nofun,hJ⟩⟩
  | @snoc steps l s' s'' trace last ih =>
    obtain ⟨hiff,hkept⟩ := ih
    have hsplit (Q : σ → ℓ → Prop) : (∀ x ∈ steps ++ [(s',l)], Q x.1 x.2) ↔
        (∀ x ∈ steps, Q x.1 x.2) ∧ Q s' l :=
      List.forall_mem_append.trans (and_congr_right' List.forall_mem_singleton)
    rw [hsplit G, hsplit fun s l => ¬ B s l, hsplit fun s _ => J s]
    refine ⟨⟨?_,?_⟩,?_⟩
    · rintro ⟨hbefore,hgood⟩
      have hnone := hiff.mp hbefore
      exact ⟨hnone,(good _ _ _ (hkept hnone).2 last).mp hgood⟩
    · rintro ⟨hnone,hB⟩
      exact ⟨hiff.mpr hnone,(good _ _ _ (hkept hnone).2 last).mpr hB⟩
    · rintro ⟨hnone,hB⟩
      obtain ⟨hall,hs'⟩ := hkept hnone
      exact ⟨⟨hall,hs'⟩,kept _ _ _ hs' hB last⟩

/-- If `P` is broken by the steps in `B` and kept by all others, then it holds all along a run exactly
if no step of the run is in `B`. -/
theorem always_iff {I P : σ → Prop} {B : σ → ℓ → Prop} (h : Trace step s steps s') (hI : I s) (hP : P s)
    (inv : ∀ s l s', I s → step s l s' → I s')
    (kept : ∀ s l s', I s → P s → ¬ B s l → step s l s' → P s')
    (broken : ∀ s l s', I s → B s l → step s l s' → ¬ P s') :
    ((∀ x ∈ steps, P x.1) ∧ P s') ↔ ∀ x ∈ steps, ¬ B x.1 x.2 := by
  refine h.until_iff (J := fun s => I s ∧ P s) ⟨hI,hP⟩ (fun _ hs => hs.2) ?_ ?_
  · rintro s l s' ⟨hI,hP⟩ hB hstep
    exact ⟨inv s l s' hI hstep,kept s l s' hI hP hB hstep⟩
  · rintro s l s' ⟨hI,-⟩ hB hstep
    exact broken s l s' hI hB hstep

/-- `J` is kept by the steps that are not in `B`, and the first step in `B` leads to `D`, which is never left. So
at the end of a run the one or the other holds. -/
theorem divides {J D : σ → Prop} {B : σ → ℓ → Prop} (h : Trace step s steps s') (hJ : J s)
    (kept : ∀ s l s', J s → ¬B s l → step s l s' → J s')
    (broken : ∀ s l s', J s → B s l → step s l s' → D s') (stays : ∀ s l s', D s → step s l s' → D s') :
    (∀ x ∈ steps, ¬B x.1 x.2) ∧ J s' ∨ (∃ x ∈ steps, B x.1 x.2) ∧ D s' := by
  induction h with
  | nil => exact .inl ⟨nofun,hJ⟩
  | @snoc steps l s' s'' trace last ih =>
    obtain ⟨hnone,hJ'⟩ | ⟨⟨x,hx,hB⟩,hD⟩ := ih
    · by_cases hlast : B s' l
      · exact .inr ⟨⟨_,List.mem_append_right _ (List.mem_singleton_self _),hlast⟩,broken _ _ _ hJ' hlast last⟩
      · refine .inl ⟨fun x hx => ?_,kept _ _ _ hJ' hlast last⟩
        obtain hx | hx := List.mem_append.mp hx
        · exact hnone x hx
        · rwa [List.mem_singleton.mp hx]
    · exact .inr ⟨⟨x,List.mem_append_left _ hx,hB⟩,stays _ _ _ hD last⟩

end Trace
end ServerKit.Lib
