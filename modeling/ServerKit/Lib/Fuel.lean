import Mathlib.Data.Nat.Notation
import Mathlib.Order.Nat

/-! Fuelled computations. A loop or a recursion that need not stop is run with a fuel argument,
and what it returns is what it returns at every large enough fuel. -/
namespace ServerKit.Lib

variable {α β σ ρ : Type*}

/-- The fuelled computation `f` returns `a`: it does so at every large enough fuel. -/
def Returns (f : ℕ → Option α) (a : α) : Prop := ∃ N, ∀ n, N ≤ n → f n = some a

namespace Returns

theorem unique {f : ℕ → Option α} {a b : α} (ha : Returns f a) (hb : Returns f b) : a = b := by
  obtain ⟨N,hN⟩ := ha
  obtain ⟨M,hM⟩ := hb
  have h := (hN (max N M) (le_max_left N M)).symm.trans (hM (max N M) (le_max_right N M))
  exact Option.some.inj h

/-- Two computations that both return `a` return the same. -/
theorem iff_of_both {f g : ℕ → Option α} {a b : α} (hf : Returns f a) (hg : Returns g a) :
    Returns f b ↔ Returns g b := by
  constructor
  · intro h
    rwa [h.unique hf]
  · intro h
    rwa [h.unique hg]

theorem const (a : α) : Returns (fun _ => some a) a := ⟨0,fun _ _ => rfl⟩

/-- One computation after another, both at the same fuel. -/
theorem bind {f : ℕ → Option α} {g : ℕ → α → Option β} {a : α} {b : β}
    (ha : Returns f a) (hb : Returns (fun n => g n a) b) :
    Returns (fun n => (f n).bind (g n)) b := by
  obtain ⟨N,hN⟩ := ha
  obtain ⟨M,hM⟩ := hb
  refine ⟨max N M,fun n hn => ?_⟩
  simp only [hN n ((le_max_left N M).trans hn), Option.bind_some]
  exact hM n ((le_max_right N M).trans hn)

/-- The second of two computations that return together, at some fuel. -/
theorem of_bind {f : ℕ → Option α} {g : ℕ → α → Option β} {a : α} {b : β} (ha : Returns f a)
    (hb : Returns (fun n => (f n).bind (g n)) b) : ∃ n, g n a = some b := by
  obtain ⟨N,hN⟩ := ha
  obtain ⟨M,hM⟩ := hb
  refine ⟨max N M,?_⟩
  have h : (f (max N M)).bind (g (max N M)) = some b := hM _ (le_max_right N M)
  rwa [hN (max N M) (le_max_left N M), Option.bind_some] at h

theorem map {f : ℕ → Option α} {a : α} (g : α → β) (ha : Returns f a) :
    Returns (fun n => (f n).map g) (g a) := by
  obtain ⟨N,hN⟩ := ha
  exact ⟨N,fun n hn => by simp [hN n hn]⟩

/-- A recursive call made with one unit of fuel less. -/
theorem succ {f g : ℕ → Option α} {a : α} (hf : ∀ n, f (n+1) = g n) (hg : Returns g a) :
    Returns f a := by
  obtain ⟨N,hN⟩ := hg
  refine ⟨N+1,fun n hn => ?_⟩
  cases n with
  | zero => omega
  | succ n => rw [hf n, hN n (by omega)]

theorem congr {f g : ℕ → Option α} {a : α} (hfg : ∀ n, f n = g n) (hg : Returns g a) :
    Returns f a := by
  obtain ⟨N,hN⟩ := hg
  exact ⟨N,fun n hn => by rw [hfg n, hN n hn]⟩

end Returns

/-- The recursion `f`, whose fuel is the number of calls that may be open at a time, returns although
no call is nested more than `d` deep in the first one. -/
def DepthAtMost (f : ℕ → Option α) (d : ℕ) : Prop := ∃ a, ∀ n, d < n → f n = some a

theorem DepthAtMost.succ {f g : ℕ → Option α} {d : ℕ} (hf : ∀ n, f (n+1) = g n)
    (hg : DepthAtMost g d) : DepthAtMost f (d+1) := by
  obtain ⟨a,ha⟩ := hg
  refine ⟨a,fun n hn => ?_⟩
  cases n with
  | zero => exact absurd hn (Nat.not_lt_zero _)
  | succ n => rw [hf, ha n (Nat.lt_of_succ_lt_succ hn)]

theorem DepthAtMost.leaf {f : ℕ → Option α} {a : α} (hf : ∀ n, f (n+1) = some a) : DepthAtMost f 0 := by
  refine ⟨a,fun n hn => ?_⟩
  cases n with
  | zero => exact absurd hn (lt_irrefl 0)
  | succ n => exact hf n

theorem DepthAtMost.congr {f g : ℕ → Option α} {d : ℕ} (hfg : ∀ n, f n = g n) (hg : DepthAtMost g d) :
    DepthAtMost f d := by
  obtain ⟨a,ha⟩ := hg
  exact ⟨a,fun n hn => (hfg n).trans (ha n hn)⟩

theorem DepthAtMost.map {f : ℕ → Option α} {d : ℕ} (g : α → β) (hf : DepthAtMost f d) :
    DepthAtMost (fun n => (f n).map g) d := by
  obtain ⟨a,ha⟩ := hf
  exact ⟨g a,fun n hn => congrArg (Option.map g) (ha n hn)⟩

/-- A loop of a program: every pass either goes on with a new state or leaves with a result. -/
def loop (pass : σ → σ ⊕ ρ) : ℕ → σ → Option ρ
  | 0,_ => none
  | n+1,s => match pass s with
    | .inl s' => loop pass n s'
    | .inr r => some r

theorem loop_done {pass : σ → σ ⊕ ρ} {s : σ} {r : ρ} (h : pass s = .inr r) :
    Returns (fun n => loop pass n s) r := by
  apply Returns.succ (fun n => ?_) (Returns.const r)
  simp [loop,h]

theorem loop_next {pass : σ → σ ⊕ ρ} {s s' : σ} {r : ρ} (h : pass s = .inl s')
    (hr : Returns (fun n => loop pass n s') r) : Returns (fun n => loop pass n s) r := by
  apply Returns.succ (fun n => ?_) hr
  simp [loop,h]

/-- A loop that has come to an end does so with more fuel as well. -/
theorem loop_returns {pass : σ → σ ⊕ ρ} {n : ℕ} {s : σ} {r : ρ} (h : loop pass n s = some r) :
    Returns (fun n => loop pass n s) r := by
  induction n generalizing s with
  | zero => cases h
  | succ n ih =>
    rw [loop] at h
    cases hpass : pass s with
    | inl s' =>
      rw [hpass] at h
      exact loop_next hpass (ih h)
    | inr r' =>
      rw [hpass] at h
      obtain rfl := Option.some.inj h
      exact loop_done hpass

/-- The loop `while (cond) body`, which returns the state in which the test fails. -/
def whileLoop (cond : σ → Prop) [DecidablePred cond] (body : σ → σ) (fuel : ℕ) (s : σ) : Option σ :=
  loop (fun s => if cond s then .inl (body s) else .inr s) fuel s

section While
variable {cond : σ → Prop} [DecidablePred cond] {body : σ → σ} {s s' : σ}

theorem while_exit (h : ¬ cond s) : Returns (fun n => whileLoop cond body n s) s :=
  loop_done (by simp [h])

theorem while_pass (h : cond s) (hr : Returns (fun n => whileLoop cond body n (body s)) s') :
    Returns (fun n => whileLoop cond body n s) s' :=
  loop_next (by simp [h]) hr

theorem whileLoop_congr_cond {cond' : σ → Prop} [DecidablePred cond'] (h : ∀ s, cond s ↔ cond' s)
    (body : σ → σ) (fuel : ℕ) (s : σ) : whileLoop cond body fuel s = whileLoop cond' body fuel s := by
  have hpass : (fun s => if cond s then .inl (body s) else (.inr s : σ ⊕ σ)) =
      fun s => if cond' s then .inl (body s) else .inr s := by
    funext s
    exact if_congr (h s) rfl rfl
  exact congrArg (fun pass => loop pass fuel s) hpass

/-- Two bodies that agree as long as the invariant `I` holds make one loop. -/
theorem whileLoop_congr {I : σ → Prop} {body' : σ → σ}
    (hbody : ∀ s, I s → cond s → body' s = body s ∧ I (body s)) (hs : I s) (fuel : ℕ) :
    whileLoop cond body' fuel s = whileLoop cond body fuel s := by
  unfold whileLoop
  induction fuel generalizing s with
  | zero => rfl
  | succ n ih =>
    rw [loop, loop]
    by_cases hcond : cond s
    · obtain ⟨heq,hI⟩ := hbody s hs hcond
      rw [if_pos hcond, if_pos hcond, heq]
      exact ih hI
    · rw [if_neg hcond, if_neg hcond]

end While
end ServerKit.Lib
