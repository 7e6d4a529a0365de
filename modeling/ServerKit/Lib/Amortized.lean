import ServerKit.Lib.Fuel
import ServerKit.Lib.Transition
import Mathlib.Algebra.BigOperators.Group.List.Basic
import Mathlib.Algebra.GroupWithZero.Nat

/-! Amortised cost. A potential pays for the passes of a loop: every pass lowers it, but for the last one.
Over a run of calls the potentials cancel. -/
namespace ServerKit.Lib

variable {σ ℓ : Type*}

/-- The loop `while (cond) body`, with the number of its passes. -/
def countLoop (cond : σ → Prop) [DecidablePred cond] (body : σ → σ) : ℕ → σ → Option (σ × ℕ)
  | 0,_ => none
  | n+1,s => if cond s then (countLoop cond body n (body s)).map fun r => (r.1,r.2+1) else some (s,0)

section Loop
variable {cond : σ → Prop} [DecidablePred cond] {body : σ → σ} {s s' : σ} {m c : ℕ}

/-- Counting does not change the loop. -/
theorem countLoop_fst (n : ℕ) (s : σ) :
    (countLoop cond body n s).map Prod.fst = whileLoop cond body n s := by
  induction n generalizing s with
  | zero => rfl
  | succ n ih =>
    rw [countLoop, whileLoop, loop]
    by_cases hcond : cond s
    · rw [if_pos hcond, if_pos hcond, Option.map_map]
      exact ih (body s)
    · rw [if_neg hcond, if_neg hcond]
      rfl

theorem countLoop_succ {n : ℕ} (h : countLoop cond body (n+1) s = some (s',c)) :
    (cond s ∧ ∃ c', c = c'+1 ∧ countLoop cond body n (body s) = some (s',c')) ∨
      ¬cond s ∧ s' = s ∧ c = 0 := by
  rw [countLoop] at h
  by_cases hcond : cond s
  · rw [if_pos hcond] at h
    obtain ⟨⟨s₁,c'⟩,hloop,heq⟩ := Option.map_eq_some_iff.mp h
    obtain ⟨rfl,rfl⟩ := Prod.mk.inj heq
    exact .inl ⟨hcond,c',rfl,hloop⟩
  · rw [if_neg hcond] at h
    obtain ⟨rfl,rfl⟩ := Prod.mk.inj (Option.some.inj h)
    exact .inr ⟨hcond,rfl,rfl⟩

/-- A loop whose passes are paid by the potential, except for `k` in the last one. -/
theorem countLoop_amortized {R : σ → ℕ → Prop} {k : ℕ}
    (hpass : ∀ s m, R s m → cond s → ∃ m', R (body s) m' ∧
      (m'+1 ≤ m ∨ ¬cond (body s) ∧ m'+1 ≤ m+k))
    {n : ℕ} (hs : R s m) (hret : countLoop cond body n s = some (s',c)) :
    ∃ m', R s' m' ∧ ¬cond s' ∧ c+m' ≤ m+k := by
  induction n generalizing s m c with
  | zero => cases hret
  | succ n ih =>
    obtain ⟨hcond,c',rfl,hloop⟩ | ⟨hexit,rfl,rfl⟩ := countLoop_succ hret
    · obtain ⟨m₁,hs₁,hpaid | ⟨hexit,hlast⟩⟩ := hpass s m hs hcond
      · obtain ⟨m',hs',hexit,hle⟩ := ih hs₁ hloop
        exact ⟨m',hs',hexit,by omega⟩
      · cases n with
        | zero => cases hloop
        | succ n =>
          obtain ⟨hagain,-⟩ | ⟨-,rfl,rfl⟩ := countLoop_succ hloop
          · exact absurd hagain hexit
          · exact ⟨m₁,hs₁,hexit,by omega⟩
    · exact ⟨m,hs,hexit,by omega⟩

theorem countLoop_mono {n n' : ℕ} (h : countLoop cond body n s = some (s',c)) (hle : n ≤ n') :
    countLoop cond body n' s = some (s',c) := by
  induction n generalizing s c n' with
  | zero => cases h
  | succ n ih =>
    cases n' with
    | zero => exact absurd hle (Nat.not_succ_le_zero n)
    | succ n' =>
      rw [countLoop]
      obtain ⟨hcond,c',rfl,hloop⟩ | ⟨hcond,rfl,rfl⟩ := countLoop_succ h
      · rw [if_pos hcond, ih hloop (Nat.le_of_succ_le_succ hle)]
        rfl
      · rw [if_neg hcond]

/-- A loop that returns can be counted. -/
theorem countLoop_of_returns (h : Returns (fun n => whileLoop cond body n s) s') :
    ∃ c, Returns (fun n => countLoop cond body n s) (s',c) := by
  obtain ⟨N,hN⟩ := h
  have hfst := (countLoop_fst N s).trans (hN N le_rfl)
  obtain ⟨⟨s₁,c⟩,hcount,rfl⟩ := Option.map_eq_some_iff.mp hfst
  exact ⟨c,N,fun n hn => countLoop_mono hcount hn⟩

end Loop

/-- When every step is paid by `k` and the potential, so is a run by `k` for each of its steps. -/
theorem Run.amortized {step : σ → ℓ → σ → Prop} {f : ℓ → ℕ} {R : σ → ℕ → Prop} {k m : ℕ} {s s' : σ}
    {ls : List ℓ} (h : Run step s ls s') (hs : R s m)
    (hstep : ∀ s l s' m, R s m → step s l s' → ∃ m', R s' m' ∧ f l+m' ≤ m+k) :
    ∃ m', R s' m' ∧ (ls.map f).sum+m' ≤ m+k*ls.length := by
  induction h with
  | nil => exact ⟨m,hs,by simp⟩
  | @snoc ls l s₁ s₂ run last ih =>
    obtain ⟨m₁,hs₁,hle₁⟩ := ih
    obtain ⟨m₂,hs₂,hle₂⟩ := hstep s₁ l s₂ m₁ hs₁ last
    refine ⟨m₂,hs₂,?_⟩
    rw [List.map_append, List.sum_append, List.map_singleton, List.sum_singleton, List.length_append,
      List.length_singleton, Nat.mul_succ]
    omega

end ServerKit.Lib
