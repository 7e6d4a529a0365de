import Mathlib.Data.List.Induction

/-! Counted loops of C over arrays, and what the usual ones (copy a run of cells, move a run one
cell up or down) leave in an array that begins with a given list. -/
namespace ServerKit.Lib

variable {σ τ α : Type*}

/-- `for (j = lo; j < lo + n; j++) body`. -/
def forUp (lo : ℕ) : ℕ → (ℕ → σ → σ) → σ → σ
  | 0,_,s => s
  | n+1,body,s => forUp (lo+1) n body (body lo s)

/-- `for (j = lo + n - 1; j >= lo; j--) body`. -/
def forDown (lo : ℕ) : ℕ → (ℕ → σ → σ) → σ → σ
  | 0,_,s => s
  | n+1,body,s => forDown lo n body (body (lo+n) s)

/-- `while (i < i₀ + n && p i) i++`, which returns the last `i`. -/
def scanUp (p : ℕ → Bool) : ℕ → ℕ → ℕ
  | i,0 => i
  | i,n+1 => if p i then scanUp p (i+1) n else i

/-- `i = n - 1; while (i >= 0 && p i) i--`, which returns `i + 1`. -/
def scanDown (p : ℕ → Bool) : ℕ → ℕ
  | 0 => 0
  | n+1 => if p n then scanDown p n else n+1

/-- The output of `for (j = lo; j < lo + n; j++)`, whose body may print. -/
def emitUp (body : ℕ → Option (List α)) : ℕ → ℕ → Option (List α)
  | _,0 => some []
  | lo,n+1 => (body lo).bind fun l => (emitUp body (lo+1) n).map fun out => l ++ out

theorem emitUp_some {body : ℕ → Option (List α)} {out : ℕ → List α} {lo n : ℕ}
    (hbody : ∀ j, lo ≤ j → j < lo+n → body j = some (out j)) :
    emitUp body lo n = some ((List.range' lo n).flatMap out) := by
  induction n generalizing lo with
  | zero => rfl
  | succ n ih =>
    rw [emitUp, hbody lo (Nat.le_refl lo) (by omega), ih fun j h₁ h₂ => hbody j (by omega) (by omega)]
    rfl

/-- The scan ends at the first position at which the predicate does not hold. -/
theorem scanUp_spec (p : ℕ → Bool) (i n : ℕ) : i ≤ scanUp p i n ∧ scanUp p i n ≤ i+n ∧
    (∀ j, i ≤ j → j < scanUp p i n → p j = true) ∧
    (scanUp p i n = i+n ∨ p (scanUp p i n) = false) := by
  induction n generalizing i with
  | zero => exact ⟨Nat.le_refl _,Nat.le_refl _,fun j hj hlt => absurd hj (Nat.not_le.mpr hlt),.inl rfl⟩
  | succ n ih =>
    obtain ⟨hge,hle,hbelow,hstop⟩ := ih (i+1)
    rw [scanUp]
    split
    · next hi =>
      refine ⟨by omega,by omega,fun j hj hlt => ?_,hstop.imp_left fun h => by omega⟩
      obtain rfl | hne := Nat.eq_or_lt_of_le hj
      · exact hi
      · exact hbelow j hne hlt
    · next hi =>
      refine ⟨Nat.le_refl _,Nat.le_add_right .., fun j hj hlt => absurd hj (Nat.not_le.mpr hlt),.inr ?_⟩
      exact Bool.eq_false_iff.mpr hi

section Transport
variable {body : ℕ → σ → σ} {g : ℕ → τ → τ}

/-- A loop whose body acts on a part of the state, through `L`, does so as a whole, as long as `I`
holds. -/
theorem forUp_lift {I : σ → Prop} {L : (τ → τ) → σ → σ} (hid : ∀ s, L id s = s)
    (hcomp : ∀ f f' s, L f' (L f s) = L (f' ∘ f) s)
    (hI : ∀ f s, I s → I (L f s)) (hbody : ∀ j s, I s → body j s = L (g j) s)
    (lo n : ℕ) (s : σ) (hs : I s) : forUp lo n body s = L (forUp lo n g) s := by
  induction n generalizing lo s with
  | zero => exact (hid s).symm
  | succ n ih =>
    rw [forUp, hbody lo s hs, ih (lo+1) _ (hI _ _ hs), hcomp]
    rfl

theorem forDown_lift {I : σ → Prop} {L : (τ → τ) → σ → σ} (hid : ∀ s, L id s = s)
    (hcomp : ∀ f f' s, L f' (L f s) = L (f' ∘ f) s)
    (hI : ∀ f s, I s → I (L f s)) (hbody : ∀ j s, I s → body j s = L (g j) s)
    (lo n : ℕ) (s : σ) (hs : I s) : forDown lo n body s = L (forDown lo n g) s := by
  induction n generalizing s with
  | zero => exact (hid s).symm
  | succ n ih =>
    rw [forDown, hbody _ s hs, ih _ (hI _ _ hs), hcomp]
    rfl

/-- Counting from one higher. -/
theorem forUp_succ (body : ℕ → σ → σ) (lo n : ℕ) (s : σ) :
    forUp (lo+1) n body s = forUp lo n (fun j => body (j+1)) s := by
  induction n generalizing lo s with
  | zero => rfl
  | succ n ih => exact ih (lo+1) _

theorem forDown_succ (body : ℕ → σ → σ) (lo n : ℕ) (s : σ) :
    forDown (lo+1) n body s = forDown lo n (fun j => body (j+1)) s := by
  induction n generalizing s with
  | zero => rfl
  | succ n ih =>
    rw [forDown, forDown, ih]
    congr 2
    omega

/-- A loop over two independent components. -/
theorem forUp_prod (f : ℕ → σ → σ) (g : ℕ → τ → τ) (lo n : ℕ) (s : σ × τ) :
    forUp lo n (fun j s => (f j s.1,g j s.2)) s = (forUp lo n f s.1,forUp lo n g s.2) := by
  induction n generalizing lo s with
  | zero => rfl
  | succ n ih => exact ih (lo+1) _

theorem forDown_prod (f : ℕ → σ → σ) (g : ℕ → τ → τ) (lo n : ℕ) (s : σ × τ) :
    forDown lo n (fun j s => (f j s.1,g j s.2)) s = (forDown lo n f s.1,forDown lo n g s.2) := by
  induction n generalizing s with
  | zero => rfl
  | succ n ih => exact ih _

theorem forUp_id (lo n : ℕ) (s : σ) : forUp lo n (fun _ => id) s = s := by
  induction n generalizing lo with
  | zero => rfl
  | succ n ih => exact ih (lo+1)

theorem forDown_id (lo n : ℕ) (s : σ) : forDown lo n (fun _ => id) s = s := by
  induction n with
  | zero => rfl
  | succ n ih => exact ih

/-- What the body keeps, the loop keeps. -/
theorem forUp_keeps (f : σ → τ) (h : ∀ j s, f (body j s) = f s) (lo n : ℕ) (s : σ) :
    f (forUp lo n body s) = f s := by
  induction n generalizing lo s with
  | zero => rfl
  | succ n ih => exact (ih (lo+1) _).trans (h lo s)

theorem forDown_keeps (f : σ → τ) (h : ∀ j s, f (body j s) = f s) (lo n : ℕ) (s : σ) :
    f (forDown lo n body s) = f s := by
  induction n generalizing s with
  | zero => rfl
  | succ n ih => exact (ih _).trans (h _ s)

end Transport

section Arrays

/-- Cells `o, …, o+n-1` get the values `g 0, …, g (n-1)`. -/
theorem forUp_fill (g : ℕ → α) (A M B : List α) (lo o : ℕ) (ho : A.length = o+lo) :
    forUp lo M.length (fun j l => l.set (o+j) (g j)) (A ++ M ++ B) =
      A ++ (List.range' lo M.length).map g ++ B := by
  induction M generalizing A lo with
  | nil => simp [forUp]
  | cons x M ih =>
    have hstep := ih (A ++ [g lo]) (lo+1) (by simp; omega)
    simp only [List.length_cons, forUp]
    rw [← ho]
    simpa [List.range'_succ] using hstep

theorem getD_middle (d : α) (A M B : List α) {i : ℕ} (hi : i < M.length) :
    (A ++ M ++ B).getD (A.length+i) d = M[i] := by
  rw [List.getD_eq_getElem?_getD, List.append_assoc, List.getElem?_append_right (by omega),
    Nat.add_sub_cancel_left, List.getElem?_append_left hi, List.getElem?_eq_getElem hi]
  rfl

/-- `n` cells of another array are copied behind the first `o` ones. -/
theorem forUp_copy (d : α) (A M B A' M' B' : List α) (hM : M'.length = M.length) :
    forUp 0 M.length (fun j l => l.set (A.length+j) ((A' ++ M' ++ B').getD (j+A'.length) d))
      (A ++ M ++ B) = A ++ M' ++ B := by
  rw [forUp_fill _ A M B 0 A.length rfl]
  congr 2
  apply List.ext_getElem
  · simp [hM]
  · intro i h₁ h₂
    have hread := getD_middle d A' M' B' h₂
    simpa [Nat.add_comm i] using hread

/-- A run of cells moves one cell up. -/
theorem forDown_shift (d : α) (A M B : List α) (x : α) :
    ∃ y, forDown A.length M.length (fun j l => l.set (j+1) (l.getD j d)) (A ++ M ++ x :: B) =
      A ++ y :: M ++ B := by
  induction M using List.reverseRecOn generalizing x B with
  | nil => exact ⟨x,by simp [forDown]⟩
  | append_singleton M z ih =>
    obtain ⟨y,hy⟩ := ih (z :: B) z
    refine ⟨y,?_⟩
    rw [List.length_append, List.length_singleton, forDown]
    have hread : (A ++ (M ++ [z]) ++ x :: B).getD (A.length+M.length) d = z := by
      simp
    have hwrite : (A ++ (M ++ [z]) ++ x :: B).set (A.length+M.length+1) z =
        A ++ M ++ z :: z :: B := by
      simp [List.set_append_right, Nat.add_assoc]
    rw [hread, hwrite, hy]
    simp

/-- A run of cells moves one cell down. -/
theorem forUp_shift (d : α) (A M B : List α) (x : α) :
    ∃ y, forUp A.length M.length (fun j l => l.set j (l.getD (j+1) d)) (A ++ x :: M ++ B) =
      A ++ M ++ y :: B := by
  induction M generalizing A x with
  | nil => exact ⟨x,by simp [forUp]⟩
  | cons z M ih =>
    obtain ⟨y,hy⟩ := ih (A ++ [z]) z
    refine ⟨y,?_⟩
    have hread : (A ++ x :: z :: M ++ B).getD (A.length+1) d = z := by
      simp
    have hwrite : (A ++ x :: z :: M ++ B).set A.length z = A ++ [z] ++ z :: M ++ B := by
      simp
    rw [List.length_cons, forUp, hread, hwrite]
    simpa using hy

end Arrays

theorem scanDown_le (p : ℕ → Bool) (n : ℕ) : scanDown p n ≤ n := by
  induction n with
  | zero => exact Nat.le_refl 0
  | succ n ih =>
    rw [scanDown]
    split
    · omega
    · exact Nat.le_refl _

/-- Only the cells that are scanned matter. -/
theorem scanDown_congr {p p' : ℕ → Bool} {n : ℕ} (h : ∀ j < n, p j = p' j) :
    scanDown p n = scanDown p' n := by
  induction n with
  | zero => rfl
  | succ n ih => rw [scanDown, scanDown, h n n.lt_succ_self, ih fun j hj => h j (by omega)]

section Scans
variable {p : ℕ → Bool} {q : α → Bool} {d : α}

/-- The scan from the left stops behind the longest prefix whose members pass the test. -/
theorem scanUp_split (d : α) (A M B : List α) (hp : ∀ i, p i = q ((A ++ M ++ B).getD i d)) :
    ∃ X Y, M = X ++ Y ∧ scanUp p A.length M.length = A.length+X.length ∧
      (∀ x ∈ X, q x = true) ∧ ∀ y ∈ Y.head?, q y = false := by
  induction M generalizing A with
  | nil => exact ⟨[],[],rfl,rfl,by simp,by simp⟩
  | cons x M ih =>
    have hx : p A.length = q x := by
      rw [hp]
      simp
    cases hq : q x with
    | false => exact ⟨[],x :: M,rfl,by simp [scanUp,hx,hq],by simp,by simpa using hq⟩
    | true =>
      obtain ⟨X,Y,rfl,hscan,hX,hY⟩ := ih (A ++ [x]) (by simpa using hp)
      rw [List.length_append, List.length_singleton] at hscan
      refine ⟨x :: X,Y,rfl,?_,by simpa [hq] using hX,hY⟩
      rw [List.length_cons, scanUp, hx, hq, if_pos rfl, hscan, List.length_cons]
      omega

/-- The scan from the right stops before the longest suffix whose members pass the test. -/
theorem scanDown_split (d : α) (M B : List α) (hp : ∀ i, p i = q ((M ++ B).getD i d)) :
    ∃ X Y, M = X ++ Y ∧ scanDown p M.length = X.length ∧
      (∀ y ∈ Y, q y = true) ∧ ∀ x ∈ X.getLast?, q x = false := by
  induction M using List.reverseRecOn generalizing B with
  | nil => exact ⟨[],[],rfl,rfl,by simp,by simp⟩
  | append_singleton M x ih =>
    have hx : p M.length = q x := by
      rw [hp]
      simp
    rw [List.length_append, List.length_singleton, scanDown, hx]
    cases hq : q x with
    | false => exact ⟨M ++ [x],[],by simp,by simp,by simp,by simpa using hq⟩
    | true =>
      obtain ⟨X,Y,rfl,hscan,hY,hX⟩ := ih (x :: B) (by simpa using hp)
      refine ⟨X,Y ++ [x],by simp,by simpa using hscan,?_,hX⟩
      simpa [or_imp,forall_and,hq] using hY

end Scans
end ServerKit.Lib
