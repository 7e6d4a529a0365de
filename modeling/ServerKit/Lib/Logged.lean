import ServerKit.Lib.Fuel
import ServerKit.Lib.Loops

/-! Programs on a state that log what they do. A program is `Clean` if all that it logs has a certain
property; the cleanness of a program is that of its parts. -/
namespace ServerKit.Lib

/-- A program with its value, its final state and the events that it logs. -/
def Logged (σ ε α : Type) := σ → α × σ × List ε

namespace Logged
variable {σ ε α β ρ : Type}

def val (m : Logged σ ε α) (s : σ) : α := (m s).1
def state (m : Logged σ ε α) (s : σ) : σ := (m s).2.1
def log (m : Logged σ ε α) (s : σ) : List ε := (m s).2.2

instance : Monad (Logged σ ε) where
  pure a := fun s => (a,s,[])
  bind m f := fun s =>
    ((f (m.val s)).val (m.state s),(f (m.val s)).state (m.state s),
      m.log s ++ (f (m.val s)).log (m.state s))

/-- A look at the state that is not an event. -/
def get (f : σ → α) : Logged σ ε α := fun s => (f s,s,[])

def modify (f : σ → σ) : Logged σ ε Unit := fun s => ((),f s,[])

/-- A read or a write that is an event; which one is told from the state before it. -/
def read (f : σ → α) (event : σ → ε) : Logged σ ε α := fun s => (f s,s,[event s])

def write (f : σ → σ) (event : σ → ε) : Logged σ ε Unit := fun s => ((),f s,[event s])

/-- `for (j = lo; j < lo + n; j++) body`. -/
def forUp (lo : ℕ) : ℕ → (ℕ → Logged σ ε Unit) → Logged σ ε Unit
  | 0,_ => pure ()
  | n+1,body => do
    body lo
    forUp (lo+1) n body

/-- `for (j = lo + n - 1; j >= lo; j--) body`. -/
def forDown (lo : ℕ) : ℕ → (ℕ → Logged σ ε Unit) → Logged σ ε Unit
  | 0,_ => pure ()
  | n+1,body => do
    body (lo+n)
    forDown lo n body

/-- `while (i < i₀ + n && p i) i++`, which returns the last `i`. -/
def scanUp (p : ℕ → Logged σ ε Bool) : ℕ → ℕ → Logged σ ε ℕ
  | i,0 => pure i
  | i,n+1 => do if ← p i then scanUp p (i+1) n else pure i

/-- `i = n - 1; while (i >= 0 && p i) i--`, which returns `i + 1`. -/
def scanDown (p : ℕ → Logged σ ε Bool) : ℕ → Logged σ ε ℕ
  | 0 => pure 0
  | n+1 => do if ← p n then scanDown p n else pure (n+1)

/-- `m && m'` of C, which runs `m'` only if `m` gives true. -/
def and (m m' : Logged σ ε Bool) : Logged σ ε Bool := do if ← m then m' else pure false

def or (m m' : Logged σ ε Bool) : Logged σ ε Bool := do if ← m then pure true else m'

/-- A command that a condition skips. -/
def skipIf (c : Bool) (m : Logged σ ε Unit) : Logged σ ε Unit :=
  if c then pure () else m

/-- A recursion in tail position: every pass either calls it again or ends it. -/
def loop (pass : β → Logged σ ε (β ⊕ ρ)) : ℕ → β → σ → Option (ρ × σ × List ε)
  | 0,_,_ => none
  | n+1,b,s => match pass b s with
    | (.inl b',s',es) => (loop pass n b' s').map fun r => (r.1,r.2.1,es ++ r.2.2)
    | (.inr r,s',es) => some (r,s',es)

/-- A program that computes the arguments of such a recursion. -/
def loopFrom (m : Logged σ ε β) (pass : β → Logged σ ε (β ⊕ ρ)) (n : ℕ) (s : σ) :
    Option (ρ × σ × List ε) :=
  (loop pass n (m.val s) (m.state s)).map fun r => (r.1,r.2.1,m.log s ++ r.2.2)

section Results
variable {s : σ}

@[simp] theorem val_pure (a : α) : (pure a : Logged σ ε α).val s = a := rfl
@[simp] theorem state_pure (a : α) : (pure a : Logged σ ε α).state s = s := rfl
@[simp ↓] theorem val_bind (m : Logged σ ε α) (f : α → Logged σ ε β) :
    (m >>= f).val s = (f (m.val s)).val (m.state s) := (rfl)
@[simp ↓] theorem state_bind (m : Logged σ ε α) (f : α → Logged σ ε β) :
    (m >>= f).state s = (f (m.val s)).state (m.state s) := (rfl)
@[simp] theorem val_get (f : σ → α) : (get f : Logged σ ε α).val s = f s := rfl
@[simp] theorem state_get (f : σ → α) : (get f : Logged σ ε α).state s = s := rfl
@[simp] theorem state_modify (f : σ → σ) : (modify f : Logged σ ε Unit).state s = f s := rfl
@[simp] theorem val_read (f : σ → α) (e : σ → ε) : (read f e).val s = f s := rfl
@[simp] theorem state_read (f : σ → α) (e : σ → ε) : (read f e).state s = s := rfl
@[simp] theorem state_write (f : σ → σ) (e : σ → ε) : (write f e).state s = f s := rfl

/-- A program behind one whose result is known. -/
theorem bind_eq {m : Logged σ ε α} {a : α} {t : σ} {es : List ε} (h : m s = (a,t,es))
    (f : α → Logged σ ε β) : (m >>= f) s = ((f a).val t,(f a).state t,es ++ (f a).log t) := by
  change ((f (m s).1).val (m s).2.1,(f (m s).1).state (m s).2.1,(m s).2.2 ++ (f (m s).1).log (m s).2.1) = _
  rw [h]

@[simp ↓] theorem val_ite (c : Prop) [Decidable c] (m m' : Logged σ ε α) :
    (if c then m else m').val s = if c then m.val s else m'.val s := by
  split <;> rfl

@[simp ↓] theorem state_ite (c : Prop) [Decidable c] (m m' : Logged σ ε α) :
    (if c then m else m').state s = if c then m.state s else m'.state s := by
  split <;> rfl

@[simp ↓] theorem state_skipIf (c : Bool) (m : Logged σ ε Unit) :
    (skipIf c m).state s = if c then s else m.state s :=
  state_ite (c = true) (pure ()) m

section Short
variable {m m' : Logged σ ε Bool}

/-- A test that only reads. -/
@[simp] theorem val_and (h : m.state s = s) : (and m m').val s = (m.val s && m'.val s) := by
  rw [and, val_bind, h, val_ite]
  cases m.val s <;> rfl

@[simp] theorem state_and (h : m.state s = s) (h' : m'.state s = s) : (and m m').state s = s := by
  rw [and, state_bind, h, state_ite, h']
  exact ite_self s

@[simp] theorem val_or (h : m.state s = s) : (or m m').val s = (m.val s || m'.val s) := by
  rw [or, val_bind, h, val_ite]
  cases m.val s <;> rfl

@[simp] theorem state_or (h : m.state s = s) (h' : m'.state s = s) : (or m m').state s = s := by
  rw [or, state_bind, h, state_ite, h']
  exact ite_self s

end Short

/-- Without its log a loop is the loop over the states. -/
@[simp ↓] theorem state_forUp (lo n : ℕ) (body : ℕ → Logged σ ε Unit) :
    (forUp lo n body).state s = Lib.forUp lo n (fun j s => (body j).state s) s := by
  induction n generalizing lo s with
  | zero => rfl
  | succ n ih => exact ih (lo+1)

@[simp ↓] theorem state_forDown (lo n : ℕ) (body : ℕ → Logged σ ε Unit) :
    (forDown lo n body).state s = Lib.forDown lo n (fun j s => (body j).state s) s := by
  induction n generalizing s with
  | zero => rfl
  | succ n ih => exact ih

end Results

/-- Every event that the program logs from the state `s` on has the property `P`. -/
def Clean (P : ε → Prop) (m : Logged σ ε α) (s : σ) : Prop := ∀ e ∈ m.log s, P e

section Clean
variable {P : ε → Prop} {s : σ}

@[simp] theorem clean_pure (a : α) : Clean P (pure a : Logged σ ε α) s :=
  fun _ he => absurd he List.not_mem_nil

@[simp] theorem clean_get (f : σ → α) : Clean P (get f : Logged σ ε α) s :=
  fun _ he => absurd he List.not_mem_nil

@[simp] theorem clean_modify (f : σ → σ) : Clean P (modify f : Logged σ ε Unit) s :=
  fun _ he => absurd he List.not_mem_nil

@[simp] theorem clean_read (f : σ → α) (e : σ → ε) : Clean P (read f e) s ↔ P (e s) :=
  List.forall_mem_singleton

@[simp] theorem clean_write (f : σ → σ) (e : σ → ε) : Clean P (write f e) s ↔ P (e s) :=
  List.forall_mem_singleton

@[simp ↓] theorem clean_bind (m : Logged σ ε α) (f : α → Logged σ ε β) :
    Clean P (m >>= f) s ↔ Clean P m s ∧ Clean P (f (m.val s)) (m.state s) :=
  List.forall_mem_append

@[simp ↓] theorem clean_ite (c : Prop) [Decidable c] (m m' : Logged σ ε α) :
    Clean P (if c then m else m') s ↔ if c then Clean P m s else Clean P m' s := by
  split <;> rfl

@[simp ↓] theorem clean_skipIf (c : Bool) (m : Logged σ ε Unit) :
    Clean P (skipIf c m) s ↔ (c = false → Clean P m s) := by
  cases c with
  | false => exact ⟨fun h _ => h,fun h => h rfl⟩
  | true => exact iff_of_true (clean_pure ()) nofun

theorem clean_and {m m' : Logged σ ε Bool} (h : m.state s = s) (hm : Clean P m s)
    (hm' : m.val s = true → Clean P m' s) : Clean P (and m m') s := by
  rw [and, clean_bind, h, clean_ite]
  refine ⟨hm,?_⟩
  split
  · next htrue => exact hm' htrue
  · exact clean_pure false

theorem clean_or {m m' : Logged σ ε Bool} (h : m.state s = s) (hm : Clean P m s)
    (hm' : Clean P m' s) : Clean P (or m m') s := by
  rw [or, clean_bind, h, clean_ite]
  refine ⟨hm,?_⟩
  split
  · exact clean_pure true
  · exact hm'

/-- A loop is clean if its body is, in all states that an invariant allows. -/
theorem clean_forUp {I : σ → Prop} {lo n : ℕ} {body : ℕ → Logged σ ε Unit} (hs : I s)
    (hbody : ∀ j s, lo ≤ j → j < lo+n → I s → Clean P (body j) s ∧ I ((body j).state s)) :
    Clean P (forUp lo n body) s := by
  induction n generalizing lo s with
  | zero => exact clean_pure ()
  | succ n ih =>
    obtain ⟨hclean,hI⟩ := hbody lo s le_rfl (by omega) hs
    rw [forUp, clean_bind]
    exact ⟨hclean,ih hI fun j s h₁ h₂ => hbody j s (by omega) (by omega)⟩

/-- A loop whose passes are clean or not whatever the state is. -/
theorem clean_forUp_iff {good : ℕ → Prop} {body : ℕ → Logged σ ε Unit}
    (h : ∀ j s, Clean P (body j) s ↔ good j) (lo n : ℕ) (s : σ) :
    Clean P (forUp lo n body) s ↔ ∀ j, lo ≤ j → j < lo+n → good j := by
  induction n generalizing lo s with
  | zero => exact iff_of_true (clean_pure ()) (by omega)
  | succ n ih =>
    rw [forUp, clean_bind, h, ih (lo+1)]
    constructor
    · rintro ⟨hlo,hrest⟩ j hj hj'
      obtain rfl | hlt := Nat.eq_or_lt_of_le hj
      · exact hlo
      · exact hrest j hlt (by omega)
    · intro hall
      exact ⟨hall lo le_rfl (by omega),fun j hj hj' => hall j (by omega) (by omega)⟩

theorem clean_forDown {I : σ → Prop} {lo n : ℕ} {body : ℕ → Logged σ ε Unit} (hs : I s)
    (hbody : ∀ j s, lo ≤ j → j < lo+n → I s → Clean P (body j) s ∧ I ((body j).state s)) :
    Clean P (forDown lo n body) s := by
  induction n generalizing s with
  | zero => exact clean_pure ()
  | succ n ih =>
    obtain ⟨hclean,hI⟩ := hbody (lo+n) s (by omega) (by omega) hs
    rw [forDown, clean_bind]
    exact ⟨hclean,ih hI fun j s h₁ h₂ => hbody j s h₁ (by omega)⟩

end Clean

/-- How many of the events that the program logs are of the kind `p`. -/
def count (p : ε → Bool) (m : Logged σ ε α) (s : σ) : ℕ := (m.log s).countP p

@[simp ↓] theorem count_bind (p : ε → Bool) (m : Logged σ ε α) (f : α → Logged σ ε β) (s : σ) :
    (m >>= f).count p s = m.count p s + (f (m.val s)).count p (m.state s) := List.countP_append

/-- From `s` on the two programs do the same, but for events that have the property `P`. -/
structure Acts (P : ε → Prop) (m m' : Logged σ ε α) (s : σ) : Prop where
  val : m.val s = m'.val s
  state : m.state s = m'.state s
  clean : Clean P m s ↔ Clean P m' s

section Acts
variable {P : ε → Prop} {s : σ} {m m' m'' : Logged σ ε α}

theorem Acts.of_eq (h : m = m') : Acts P m m' s := by
  subst h
  exact ⟨rfl,rfl,Iff.rfl⟩

theorem Acts.trans (h : Acts P m m' s) (h' : Acts P m' m'' s) : Acts P m m'' s :=
  ⟨h.val.trans h'.val,h.state.trans h'.state,h.clean.trans h'.clean⟩

/-- A program after one that only reads. -/
theorem Acts.read {r : Logged σ ε β} (hr : r.state s = s) (hclean : Clean P r s)
    (f : β → Logged σ ε α) : Acts P (r >>= f) (f (r.val s)) s := by
  refine ⟨?_,?_,?_⟩
  · rw [val_bind, hr]
  · rw [state_bind, hr]
  · rw [clean_bind, hr]
    exact and_iff_right hclean

/-- A test that only reads and comes out true. -/
theorem Acts.test_true {r : Logged σ ε Bool} (hr : r.state s = s) (hclean : Clean P r s)
    (h : r.val s = true) : Acts P (r >>= fun b => if b = true then m else m') m s :=
  (Acts.read hr hclean _).trans (.of_eq (if_pos h))

theorem Acts.test_false {r : Logged σ ε Bool} (hr : r.state s = s) (hclean : Clean P r s)
    (h : ¬ r.val s = true) : Acts P (r >>= fun b => if b = true then m else m') m' s :=
  (Acts.read hr hclean _).trans (.of_eq (if_neg h))

/-- The run from `s` gives `a` and ends in `t`, and it is clean exactly if `good` holds. -/
structure Gives (P : ε → Prop) (m : Logged σ ε α) (s : σ) (a : α) (t : σ) (good : Prop) : Prop where
  val : m.val s = a
  state : m.state s = t
  clean : Clean P m s ↔ good

theorem Acts.gives {a : α} {t : σ} {good : Prop} (h : Acts P m m' s) (hm : Gives P m' s a t good) :
    Gives P m s a t good :=
  ⟨h.val.trans hm.val,h.state.trans hm.state,h.clean.trans hm.clean⟩

theorem gives_pure (a : α) (s : σ) : Gives P (Pure.pure a) s a s True :=
  ⟨rfl,rfl,iff_true_intro (clean_pure a)⟩

theorem gives_read (f : σ → α) (event : σ → ε) (s : σ) :
    Gives P (Logged.read f event) s (f s) s (P (event s)) :=
  ⟨rfl,rfl,clean_read f event⟩

theorem Gives.congr {m : Logged σ ε α} {a : α} {t : σ} {good good' : Prop} (h : Gives P m s a t good)
    (hgood : good ↔ good') : Gives P m s a t good' :=
  ⟨h.val,h.state,h.clean.trans hgood⟩

/-- One program after another. -/
theorem Gives.bind {m : Logged σ ε β} {f : β → Logged σ ε α} {b : β} {a : α} {t u : σ}
    {good good' : Prop} (h : Gives P m s b t good) (hf : Gives P (f b) t a u good') :
    Gives P (m >>= f) s a u (good ∧ good') := by
  refine ⟨?_,?_,?_⟩
  · rw [val_bind, h.val, h.state]
    exact hf.val
  · rw [state_bind, h.val, h.state]
    exact hf.state
  · rw [clean_bind, h.val, h.state]
    exact and_congr h.clean hf.clean

/-- A test that comes out true, and what it leads to. -/
theorem Gives.ite_true {r : Logged σ ε Bool} {a : α} {t u : σ} {good good' : Prop}
    (h : Gives P r s true t good) (hm : Gives P m t a u good') :
    Gives P (r >>= fun b => if b = true then m else m') s a u (good ∧ good') := by
  apply h.bind
  rwa [if_pos rfl]

theorem Gives.ite_false {r : Logged σ ε Bool} {a : α} {t u : σ} {good good' : Prop}
    (h : Gives P r s false t good) (hm : Gives P m' t a u good') :
    Gives P (r >>= fun b => if b = true then m else m') s a u (good ∧ good') := by
  apply h.bind
  rwa [if_neg Bool.false_ne_true]

/-- A command that is followed by a value. -/
theorem Gives.pure {c : Logged σ ε Unit} {t : σ} {good : Prop} (hstate : c.state s = t)
    (hclean : Clean P c s ↔ good) (a : α) : Gives P (do c; return a) s a t good := by
  refine ⟨rfl,hstate,?_⟩
  rw [clean_bind, hclean]
  exact and_iff_left (clean_pure a)

end Acts

/-- The run from `s` gives `a` and ends in `t`. What it logs has the property `P`, and not more than `k` of
it are of the kind `p`. -/
structure Within (P : ε → Prop) (p : ε → Bool) (m : Logged σ ε α) (s : σ) (a : α) (t : σ) (k : ℕ) :
    Prop where
  val : m.val s = a
  state : m.state s = t
  clean : Clean P m s
  count : m.count p s ≤ k

theorem Within.eq {P : ε → Prop} {p : ε → Bool} {m : Logged σ ε α} {s t : σ} {a : α} {k : ℕ}
    (h : Within P p m s a t k) : m s = (a,t,m.log s) := by
  rw [← h.val, ← h.state]
  rfl

/-- One program after another. -/
theorem Within.bind {P : ε → Prop} {p : ε → Bool} {m : Logged σ ε α} {f : α → Logged σ ε β} {s t u : σ}
    {a : α} {b : β} {j k : ℕ} (h : Within P p m s a t j) (hf : Within P p (f a) t b u k) :
    Within P p (m >>= f) s b u (j+k) := by
  obtain ⟨rfl,rfl,hclean,hcount⟩ := h
  refine ⟨hf.val,hf.state,?_,?_⟩
  · rw [clean_bind]
    exact ⟨hclean,hf.clean⟩
  · rw [count_bind]
    exact Nat.add_le_add hcount hf.count

section Scans
variable {P : ε → Prop} {s : σ} {p : ℕ → Logged σ ε Bool}

/-- A scan whose test only reads. -/
theorem scanUp_eq (hp : ∀ i, (p i).state s = s) (i n : ℕ) :
    (scanUp p i n).val s = Lib.scanUp (fun i => (p i).val s) i n ∧ (scanUp p i n).state s = s := by
  induction n generalizing i with
  | zero => exact ⟨rfl,rfl⟩
  | succ n ih =>
    rw [scanUp, Lib.scanUp, val_bind, state_bind, hp, val_ite, state_ite, (ih (i+1)).1, (ih (i+1)).2]
    exact ⟨rfl,ite_self s⟩

theorem scanDown_eq (hp : ∀ i, (p i).state s = s) (n : ℕ) :
    (scanDown p n).val s = Lib.scanDown (fun i => (p i).val s) n ∧ (scanDown p n).state s = s := by
  induction n with
  | zero => exact ⟨rfl,rfl⟩
  | succ n ih =>
    rw [scanDown, Lib.scanDown, val_bind, state_bind, hp, val_ite, state_ite, ih.1, ih.2]
    exact ⟨rfl,ite_self s⟩

theorem clean_scanUp {i n : ℕ} (hp : ∀ i, (p i).state s = s)
    (hclean : ∀ j, j < i+n → Clean P (p j) s) : Clean P (scanUp p i n) s := by
  induction n generalizing i with
  | zero => exact clean_pure i
  | succ n ih =>
    rw [scanUp, clean_bind, hp, clean_ite]
    refine ⟨hclean i (by omega),?_⟩
    split
    · exact ih fun j hj => hclean j (by omega)
    · exact clean_pure i

theorem clean_scanDown {n : ℕ} (hp : ∀ i, (p i).state s = s)
    (hclean : ∀ j, j < n → Clean P (p j) s) : Clean P (scanDown p n) s := by
  induction n with
  | zero => exact clean_pure 0
  | succ n ih =>
    rw [scanDown, clean_bind, hp, clean_ite]
    refine ⟨hclean n n.lt_succ_self,?_⟩
    split
    · exact ih fun j hj => hclean j (by omega)
    · exact clean_pure (n+1)

end Scans

/-- A recursion that does after every pass what the result of the pass says. -/
theorem loop_eq {pass : β → Logged σ ε (β ⊕ ρ)} {γ : Type} {F : ℕ → β → σ → Option γ} {g : ρ → σ → γ}
    (hzero : ∀ b s, F 0 b s = none)
    (hsucc : ∀ n b s, F (n+1) b s = ((pass b).val s).elim (fun b' => F n b' ((pass b).state s))
      fun r => some (g r ((pass b).state s)))
    (n : ℕ) (b : β) (s : σ) : (loop pass n b s).map (fun r => g r.1 r.2.1) = F n b s := by
  induction n generalizing b s with
  | zero => exact (hzero b s).symm
  | succ n ih =>
    rw [hsucc, loop, show pass b s = ((pass b).val s,(pass b).state s,(pass b).log s) from rfl]
    cases (pass b).val s with
    | inl b' =>
      dsimp only [Sum.elim_inl]
      rw [← ih, Option.map_map]
      rfl
    | inr r => rfl

theorem loopFrom_eq {m : Logged σ ε β} {pass : β → Logged σ ε (β ⊕ ρ)} {γ : Type}
    {F : ℕ → β → σ → Option γ} {g : ρ → σ → γ} {n : ℕ} {s : σ}
    (h : ∀ b s, (loop pass n b s).map (fun r => g r.1 r.2.1) = F n b s) :
    (loopFrom m pass n s).map (fun r => g r.1 r.2.1) = F n (m.val s) (m.state s) := by
  rw [← h, loopFrom, Option.map_map]
  rfl

section Recursion
variable {P : ε → Prop} {pass : β → Logged σ ε (β ⊕ ρ)} {b b' : β} {s : σ} {r : ρ}

/-- The run that starts at `b` ends, with `r` in the state `t`, and what it logs has the property `P`
exactly if `good` holds. -/
def Ends (pass : β → Logged σ ε (β ⊕ ρ)) (P : ε → Prop) (b : β) (s : σ) (r : ρ) (t : σ)
    (good : Prop) : Prop :=
  ∃ es, Returns (fun n => loop pass n b s) (r,t,es) ∧ ((∀ e ∈ es, P e) ↔ good)

theorem Gives.loop_done {t : σ} {good : Prop} (h : Gives P (pass b) s (.inr r) t good) (n : ℕ) :
    loop pass (n+1) b s = some (r,t,(pass b).log s) := by
  rw [loop, show pass b s = (.inr r,t,(pass b).log s) from h.val ▸ h.state ▸ rfl]

theorem Gives.loop_next {t : σ} {good : Prop} (h : Gives P (pass b) s (.inl b') t good) (n : ℕ) :
    loop pass (n+1) b s =
      (loop pass n b' t).map fun r => (r.1,r.2.1,(pass b).log s ++ r.2.2) := by
  rw [loop, show pass b s = (.inl b',t,(pass b).log s) from h.val ▸ h.state ▸ rfl]

theorem Gives.done {t : σ} {good : Prop} (h : Gives P (pass b) s (.inr r) t good) :
    Ends pass P b s r t good :=
  ⟨(pass b).log s,Returns.succ h.loop_done (Returns.const _),h.clean⟩

theorem Gives.next {t t' : σ} {good good' : Prop} (h : Gives P (pass b) s (.inl b') t good)
    (hr : Ends pass P b' t r t' good') : Ends pass P b s r t' (good ∧ good') := by
  obtain ⟨es,hret,hgood⟩ := hr
  refine ⟨(pass b).log s ++ es,?_,List.forall_mem_append.trans (and_congr h.clean hgood)⟩
  exact Returns.succ h.loop_next (hret.map fun r => (r.1,r.2.1,(pass b).log s ++ r.2.2))

/-- A run of the loop with a last pass that is known. -/
theorem returns_done {t : σ} {es : List ε} (h : pass b s = (.inr r,t,es)) :
    Returns (fun n => loop pass n b s) (r,t,es) := by
  refine Returns.succ (fun n => ?_) (Returns.const _)
  rw [loop, h]

/-- A run of the loop with a first pass that is known. -/
theorem returns_next {t t' : σ} {es es' : List ε} (h : pass b s = (.inl b',t,es))
    (hr : Returns (fun n => loop pass n b' t) (r,t',es')) :
    Returns (fun n => loop pass n b s) (r,t',es ++ es') := by
  refine Returns.succ (fun n => ?_) (hr.map fun r => (r.1,r.2.1,es ++ r.2.2))
  rw [loop, h]

/-- The passes behind a first one that is known. -/
theorem loop_of_next {n : ℕ} {t t' : σ} {es es' : List ε} (h : pass b s = (.inl b',t,es))
    (hrun : loop pass n b s = some (r,t',es')) :
    ∃ m es'', loop pass m b' t = some (r,t',es'') ∧ es' = es ++ es'' := by
  cases n with
  | zero => cases hrun
  | succ n =>
    rw [loop, h] at hrun
    obtain ⟨x,hx,heq⟩ := Option.map_eq_some_iff.mp hrun
    cases heq
    exact ⟨n,x.2.2,hx,rfl⟩

/-- A loop that follows the loop `while (cond) body` place by place, as long as the invariant `I` holds. A
pass may log as many events of the kind `p` as it takes out of the potential. -/
theorem loop_within {τ : Type*} {I cond : τ → Prop} [DecidablePred cond] {body : τ → τ} {p : ε → Bool}
    (potential : τ → ℕ) (place : τ → β × σ) (last : τ → ρ)
    (hexit : ∀ x, I x → ¬ cond x → Within P p (pass (place x).1) (place x).2 (.inr (last x)) (place x).2
      (potential x))
    (hpass : ∀ x, I x → cond x → I (body x) ∧ ∃ k, Within P p (pass (place x).1) (place x).2
      (.inl (place (body x)).1) (place (body x)).2 k ∧ k+potential (body x) ≤ potential x)
    {x x' : τ} (hx : I x) (h : Returns (fun n => Lib.whileLoop cond body n x) x') :
    ∃ es, Returns (fun n => loop pass n (place x).1 (place x).2) (last x',(place x').2,es) ∧
      (∀ e ∈ es, P e) ∧ es.countP p ≤ potential x := by
  obtain ⟨N,hN⟩ := h
  have hrun : Lib.whileLoop cond body N x = some x' := hN N (Nat.le_refl N)
  clear hN
  induction N generalizing x with
  | zero => cases hrun
  | succ n ih =>
    rw [Lib.whileLoop, Lib.loop] at hrun
    by_cases hcond : cond x
    · rw [if_pos hcond] at hrun
      obtain ⟨hnext,k,hk,hle⟩ := hpass x hx hcond
      obtain ⟨es,hret,hclean,hcount⟩ := ih hnext hrun
      refine ⟨(pass (place x).1).log (place x).2 ++ es,returns_next hk.eq hret,
        List.forall_mem_append.mpr ⟨hk.clean,hclean⟩,?_⟩
      have hfirst : ((pass (place x).1).log (place x).2).countP p ≤ k := hk.count
      rw [List.countP_append]
      omega
    · rw [if_neg hcond] at hrun
      obtain rfl := Option.some.inj hrun
      have hlast := hexit x hx hcond
      exact ⟨_,returns_done hlast.eq,hlast.clean,hlast.count⟩

/-- Such a loop in which a pass that logs one of these events is the last. -/
theorem loop_within_last {τ : Type*} {I cond : τ → Prop} [DecidablePred cond] {body : τ → τ} {p : ε → Bool}
    {m : ℕ} (place : τ → β × σ) (last : τ → ρ)
    (hexit : ∀ x, I x → ¬ cond x → Within P p (pass (place x).1) (place x).2 (.inr (last x)) (place x).2 0)
    (hpass : ∀ x, I x → cond x → I (body x) ∧ ∃ k ≤ m, Within P p (pass (place x).1) (place x).2
      (.inl (place (body x)).1) (place (body x)).2 k ∧ (k ≠ 0 → ¬ cond (body x)))
    {x x' : τ} (hx : I x) (h : Returns (fun n => Lib.whileLoop cond body n x) x') :
    ∃ es, Returns (fun n => loop pass n (place x).1 (place x).2) (last x',(place x').2,es) ∧
      (∀ e ∈ es, P e) ∧ es.countP p ≤ m := by
  have hle : ∀ x, (if cond x then m else 0) ≤ m := by
    intro x
    split
    · exact Nat.le_refl m
    · exact Nat.zero_le m
  have hrun := loop_within (fun x => if cond x then m else 0) place last
    (fun x hI hcond => by
      rw [if_neg hcond]
      exact hexit x hI hcond)
    (fun x hI hcond => by
      obtain ⟨hnext,k,hk,hpass,hlast⟩ := hpass x hI hcond
      refine ⟨hnext,k,hpass,?_⟩
      rw [if_pos hcond]
      by_cases hzero : k = 0
      · rw [hzero, Nat.zero_add]
        exact hle (body x)
      · rw [if_neg (hlast hzero)]
        exact hk)
    hx h
  obtain ⟨es,hret,hclean,hcount⟩ := hrun
  exact ⟨es,hret,hclean,hcount.trans (hle x)⟩

theorem Ends.congr {t : σ} {good good' : Prop} (h : Ends pass P b s r t good) (hgood : good ↔ good') :
    Ends pass P b s r t good' := by
  obtain ⟨es,hret,hes⟩ := h
  exact ⟨es,hret,hes.trans hgood⟩

/-- A program before the recursion. -/
theorem Gives.ends {m : Logged σ ε β} {t t' : σ} {good good' : Prop} (h : Gives P m s b t good)
    (hr : Ends pass P b t r t' good') : ∃ es, Returns (fun n => loopFrom m pass n s) (r,t',es) ∧
      ((∀ e ∈ es, P e) ↔ good ∧ good') := by
  obtain ⟨es,hret,hgood⟩ := hr
  refine ⟨m.log s ++ es,?_,List.forall_mem_append.trans (and_congr h.clean hgood)⟩
  refine Returns.congr (fun n => ?_) (hret.map fun r => (r.1,r.2.1,m.log s ++ r.2.2))
  rw [loopFrom, h.val, h.state]

/-- What the first pass logs is in the log of the run. -/
theorem clean_of_loop {n : ℕ} {t : σ} {es : List ε} (h : loop pass n b s = some (r,t,es))
    (hes : ∀ e ∈ es, P e) : Clean P (pass b) s := by
  cases n with
  | zero => cases h
  | succ n =>
    rw [loop, show pass b s = ((pass b).val s,(pass b).state s,(pass b).log s) from rfl] at h
    cases hval : (pass b).val s with
    | inl b' =>
      rw [hval] at h
      obtain ⟨x,-,hx⟩ := Option.map_eq_some_iff.mp h
      obtain rfl : (pass b).log s ++ x.2.2 = es := congrArg (fun y => y.2.2) hx
      exact fun e he => hes e (List.mem_append_left _ he)
    | inr r' =>
      rw [hval] at h
      obtain rfl : (pass b).log s = es := congrArg (fun y => y.2.2) (Option.some.inj h)
      exact hes

/-- What the program logs that comes before a recursion is in its log. -/
theorem clean_of_loopFrom {m : Logged σ ε β} {n : ℕ} {t : σ} {es : List ε}
    (h : loopFrom m pass n s = some (r,t,es)) (hes : ∀ e ∈ es, P e) : Clean P m s := by
  obtain ⟨x,-,hx⟩ := Option.map_eq_some_iff.mp h
  obtain rfl : m.log s ++ x.2.2 = es := congrArg (fun y => y.2.2) hx
  exact fun e he => hes e (List.mem_append_left _ he)

theorem Gives.of_loopFrom {m : Logged σ ε β} {n : ℕ} {t u : σ} {good : Prop} {es : List ε}
    (hm : Gives P m s b t good) (h : loopFrom m pass n s = some (r,u,es)) :
    ∃ es', loop pass n b t = some (r,u,es') ∧ ∀ e ∈ es', e ∈ es := by
  rw [loopFrom, hm.val, hm.state] at h
  obtain ⟨⟨r',u',es'⟩,hloop,heq⟩ := Option.map_eq_some_iff.mp h
  obtain rfl : r' = r := congrArg Prod.fst heq
  obtain rfl : u' = u := congrArg (fun y => y.2.1) heq
  obtain rfl : m.log s ++ es' = es := congrArg (fun y => y.2.2) heq
  exact ⟨es',hloop,fun e he => List.mem_append_right _ he⟩

end Recursion
end Logged
end ServerKit.Lib
