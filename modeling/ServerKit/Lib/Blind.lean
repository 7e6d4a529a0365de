import ServerKit.Lib.Fuel

/-! Programs on a state that may fault and that cannot tell related states apart: what such a program
returns on a state, it returns on every related state as well, and it leaves related states. -/
namespace ServerKit.Lib
universe v

/-- A program that faults has no result. -/
structure Blind {σ : Type v} (R : σ → σ → Prop) (α : Type) where
  run : σ → Option (α × σ)
  blind : ∀ {s s' t : σ} {a : α}, R s s' → run s = some (a,t) → ∃ t', run s' = some (a,t') ∧ R t t'

namespace Blind
variable {σ : Type v} {R : σ → σ → Prop} {α β ρ : Type}

instance : Monad (Blind R) where
  pure a :=
    { run := fun s => some (a,s)
      blind := by
        rintro s s' t b hR ⟨⟩
        exact ⟨s',rfl,hR⟩ }
  bind m f :=
    { run := fun s => (m.run s).bind fun p => (f p.1).run p.2
      blind := by
        intro s s' t b hR h
        obtain ⟨⟨a,t₁⟩,hm,hf⟩ := Option.bind_eq_some_iff.mp h
        obtain ⟨t₁',hm',hR'⟩ := m.blind hR hm
        obtain ⟨t',hf',hR''⟩ := (f a).blind hR' hf
        exact ⟨t',Option.bind_eq_some_iff.mpr ⟨_,hm',hf'⟩,hR''⟩ }

def fail : Blind R α := ⟨fun _ => none,nofun⟩

/-- Read what related states agree on. It faults on the states outside `p`. -/
def read (p : σ → Prop) [DecidablePred p] (f : σ → α)
    (h : ∀ s s', R s s' → p s → p s' ∧ f s = f s') : Blind R α where
  run s := if p s then some (f s,s) else none
  blind := by
    intro s s' t a hR hrun
    split at hrun
    · next hp =>
      obtain ⟨rfl,rfl⟩ := Prod.mk.inj (Option.some.inj hrun)
      obtain ⟨hp',hf⟩ := h s s' hR hp
      exact ⟨s',by rw [if_pos hp', hf],hR⟩
    · cases hrun

/-- Write, and fault on the states outside `p`. -/
def write (p : σ → Prop) [DecidablePred p] (f : σ → σ)
    (h : ∀ s s', R s s' → p s → p s' ∧ R (f s) (f s')) : Blind R Unit where
  run s := if p s then some ((),f s) else none
  blind := by
    intro s s' t a hR hrun
    split at hrun
    · next hp =>
      obtain ⟨-,rfl⟩ := Prod.mk.inj (Option.some.inj hrun)
      obtain ⟨hp',hf⟩ := h s s' hR hp
      exact ⟨f s',if_pos hp',hf⟩
    · cases hrun

/-- A loop: every pass either goes on with a new value or leaves with a result. -/
def loop (pass : β → Blind R (β ⊕ ρ)) : ℕ → β → Blind R ρ
  | 0,_ => fail
  | n+1,b => do
    match ← pass b with
    | .inl b' => loop pass n b'
    | .inr r => return r

/-- The loop `while (cond) body`. -/
def whileLoop (cond : β → Blind R Bool) (body : β → Blind R β) : ℕ → β → Blind R β
  | 0,_ => fail
  | n+1,b => do
    if ← cond b then whileLoop cond body n (← body b) else return b

section Run
variable {s t : σ} {a : α}

@[simp] theorem run_pure (a : α) (s : σ) : (pure a : Blind R α).run s = some (a,s) := rfl

@[simp] theorem run_bind (m : Blind R α) (f : α → Blind R β) (s : σ) :
    (m >>= f).run s = (m.run s).bind fun p => (f p.1).run p.2 := rfl

/-- What comes after a command that has run. -/
theorem run_next {m : Blind R α} (h : m.run s = some (a,t)) (f : α → Blind R β) :
    (m >>= f).run s = (f a).run t := by
  rw [run_bind, h, Option.bind_some]

@[simp] theorem run_ite (c : Prop) [Decidable c] (m m' : Blind R α) (s : σ) :
    (if c then m else m').run s = if c then m.run s else m'.run s := by
  split <;> rfl

/-- One program after another, both at the same fuel. -/
theorem returns_bind {m : ℕ → Blind R α} {f : ℕ → α → Blind R β} {r : β × σ}
    (hm : Returns (fun n => (m n).run s) (a,t)) (hf : Returns (fun n => (f n a).run t) r) :
    Returns (fun n => (m n >>= f n).run s) r := hm.bind hf

/-- A command without fuel before a program. -/
theorem returns_next {m : Blind R α} {f : ℕ → α → Blind R β} {r : β × σ} (hm : m.run s = some (a,t))
    (hf : Returns (fun n => (f n a).run t) r) : Returns (fun n => (m >>= f n).run s) r :=
  hf.congr fun n => run_next hm (f n)

/-- Runs on related states return the same, and leave related states. -/
theorem returns_agree {m : ℕ → Blind R α} {s' t' : σ} {a' : α} (hR : R s s')
    (h : Returns (fun n => (m n).run s) (a,t)) (h' : Returns (fun n => (m n).run s') (a',t')) :
    a' = a ∧ R t t' := by
  obtain ⟨N,hN⟩ := h
  obtain ⟨M,hM⟩ := h'
  obtain ⟨t'',hrun,hR'⟩ := (m (max N M)).blind hR (hN _ (Nat.le_max_left N M))
  obtain ⟨rfl,rfl⟩ := Prod.mk.inj (Option.some.inj ((hM _ (Nat.le_max_right N M)).symm.trans hrun))
  exact ⟨rfl,hR'⟩

/-- A loop that only reads returns what a loop without state returns that it follows pass by pass. -/
theorem loop_returns {p : β → β ⊕ ρ} {pass : β → Blind R (β ⊕ ρ)} (hpass : ∀ x, (pass x).run s = some (p x,s))
    {x : β} {r : ρ} (h : Returns (fun n => Lib.loop p n x) r) :
    Returns (fun n => (loop pass n x).run s) (r,s) := by
  have hrun : ∀ n x, Lib.loop p n x = some r → (loop pass n x).run s = some (r,s) := by
    intro n
    induction n with
    | zero => exact fun _ h => nomatch h
    | succ n ih =>
      intro x h
      rw [Lib.loop] at h
      rw [loop, run_next (hpass x)]
      cases hp : p x with
      | inl x' =>
        rw [hp] at h
        exact ih x' h
      | inr r' =>
        rw [hp] at h
        obtain rfl := Option.some.inj h
        rfl
  obtain ⟨N,hN⟩ := h
  exact ⟨N,fun n hn => hrun n x (hN n hn)⟩

/-- A loop with a test returns what a loop without faults returns that it follows pass by pass, as
long as the invariant `I` holds: `place` says where the loop is. -/
theorem whileLoop_returns {τ : Type*} {I cond : τ → Prop} [DecidablePred cond] {body : τ → τ}
    {test : β → Blind R Bool} {m : β → Blind R β} (place : τ → β × σ)
    (htest : ∀ x, I x → (test (place x).1).run (place x).2 = some (decide (cond x),(place x).2))
    (hpass : ∀ x, I x → cond x → I (body x) ∧ (m (place x).1).run (place x).2 = some (place (body x)))
    {x x' : τ} (hx : I x) (h : Returns (fun n => Lib.whileLoop cond body n x) x') :
    I x' ∧ Returns (fun n => (whileLoop test m n (place x).1).run (place x).2) (place x') := by
  have hrun : ∀ n x, I x → Lib.whileLoop cond body n x = some x' →
      I x' ∧ (whileLoop test m n (place x).1).run (place x).2 = some (place x') := by
    intro n
    induction n with
    | zero => exact fun _ _ h => nomatch h
    | succ n ih =>
      intro x hx h
      rw [Lib.whileLoop, Lib.loop] at h
      rw [whileLoop, run_bind, htest x hx, Option.bind_some]
      by_cases hcond : cond x
      · obtain ⟨hx',hm⟩ := hpass x hx hcond
        rw [if_pos hcond] at h
        simp only [decide_eq_true hcond, if_true, run_bind, hm, Option.bind_some]
        exact ih (body x) hx' h
      · rw [if_neg hcond] at h
        obtain rfl := Option.some.inj h
        refine ⟨hx,?_⟩
        simp only [decide_eq_false hcond, Bool.false_eq_true, if_false, run_pure]
  obtain ⟨N,hN⟩ := h
  exact ⟨(hrun N x hx (hN N (Nat.le_refl N))).1,N,fun n hn => (hrun n x hx (hN n hn)).2⟩

end Run
end Blind
end ServerKit.Lib
