import Mathlib.Data.List.Basic
import ServerKit.Lib.Fuel

/-! Cells that are linked by their addresses; 0 is NULL. -/
namespace ServerKit.Lib

/-- The links lead from `p` through the cells `ps` to `q`. -/
inductive Links (next : ℕ → ℕ) : ℕ → List ℕ → ℕ → Prop
  | nil (p : ℕ) : Links next p [] p
  | cons {p q : ℕ} {ps : List ℕ} (hp : p ≠ 0) (tail : Links next (next p) ps q) :
      Links next p (p :: ps) q

namespace Links
variable {next next' : ℕ → ℕ} {p q r x : ℕ} {ps qs : List ℕ}

theorem eq_of_nil (h : Links next p [] q) : p = q := by
  cases h
  rfl

theorem of_cons (h : Links next p (x :: ps) q) : p = x ∧ x ≠ 0 ∧ Links next (next x) ps q := by
  cases h with
  | cons hp tail => exact ⟨rfl,hp,tail⟩

theorem append (h : Links next p ps q) (h' : Links next q qs r) : Links next p (ps ++ qs) r := by
  induction h with
  | nil => exact h'
  | cons hp _ ih => exact .cons hp (ih h')

theorem of_append (h : Links next p (ps ++ qs) r) : ∃ q, Links next p ps q ∧ Links next q qs r := by
  induction ps generalizing p with
  | nil => exact ⟨p,.nil p,h⟩
  | cons x ps ih =>
    obtain ⟨rfl,hp,tail⟩ := h.of_cons
    obtain ⟨q,hq,hr⟩ := ih tail
    exact ⟨q,.cons hp hq,hr⟩

/-- Only the links of the cells on the way matter. -/
theorem congr (h : Links next p ps q) (hnext : ∀ x ∈ ps, next' x = next x) : Links next' p ps q := by
  induction h with
  | nil => exact .nil _
  | @cons p q ps hp _ ih =>
    refine .cons hp ?_
    rw [hnext p List.mem_cons_self]
    exact ih fun x hx => hnext x (List.mem_cons_of_mem p hx)

theorem ne_null (h : Links next p ps q) (hx : x ∈ ps) : x ≠ 0 := by
  induction h with
  | nil => exact absurd hx List.not_mem_nil
  | cons hp _ ih =>
    obtain rfl | hx := List.mem_cons.mp hx
    · exact hp
    · exact ih hx

/-- A list with a cell in it does not start at NULL. -/
theorem head_ne_null (h : Links next p ps q) (hps : ps ≠ []) : p ≠ 0 := by
  cases h with
  | nil => exact absurd rfl hps
  | cons hp => exact hp

/-- From one address there is one way to NULL. -/
theorem unique (h : Links next p ps 0) (h' : Links next p qs 0) : ps = qs := by
  induction ps generalizing p qs with
  | nil =>
    obtain rfl := h.eq_of_nil
    obtain _ | ⟨y,qs⟩ := qs
    · rfl
    · obtain ⟨rfl,hy,-⟩ := h'.of_cons
      exact absurd rfl hy
  | cons x ps ih =>
    obtain ⟨rfl,hx,tail⟩ := h.of_cons
    obtain _ | ⟨y,qs⟩ := qs
    · exact absurd h'.eq_of_nil hx
    · obtain ⟨rfl,-,tail'⟩ := h'.of_cons
      rw [ih tail tail']

/-- The walk to the last cell. -/
theorem walk_last (h : Links next p (ps ++ [x]) 0) :
    Returns (fun n => whileLoop (fun q => next q ≠ 0) next n p) x := by
  induction ps generalizing p with
  | nil =>
    obtain ⟨rfl,-,tail⟩ := h.of_cons
    exact while_exit (not_not.mpr tail.eq_of_nil)
  | cons y ps ih =>
    obtain ⟨rfl,-,tail⟩ := h.of_cons
    exact while_pass (tail.head_ne_null (by simp)) (ih tail)

/-- The walk to the last cell that tests for NULL as well. -/
theorem walk_last_or_null (h : Links next p (ps ++ [x]) 0) :
    Returns (fun n => whileLoop (fun q => q ≠ 0 ∧ next q ≠ 0) next n p) x := by
  induction ps generalizing p with
  | nil =>
    obtain ⟨rfl,-,tail⟩ := h.of_cons
    exact while_exit fun hgo => hgo.2 tail.eq_of_nil
  | cons y ps ih =>
    obtain ⟨rfl,hp,tail⟩ := h.of_cons
    exact while_pass ⟨hp,tail.head_ne_null (by simp)⟩ (ih tail)

/-- The walk that counts its steps, from the step `i` on to the step `i+k`, at which its test fails. -/
theorem walk_until {c : ℕ → Prop} [DecidablePred c] {i k : ℕ} (h : Links next p ps q)
    (hx : ps[k]? = some x) (hgo : ∀ j, j < i+k → c j) (hend : ¬ c (i+k)) :
    Returns (fun n => whileLoop (fun s : ℕ × ℕ => c s.1 ∧ s.2 ≠ 0)
      (fun s => (s.1+1,next s.2)) n (i,p)) (i+k,x) := by
  induction k generalizing i p ps with
  | zero =>
    obtain _ | ⟨y,ps⟩ := ps
    · simp at hx
    · obtain rfl : y = x := Option.some.inj hx
      obtain ⟨rfl,-,-⟩ := h.of_cons
      exact while_exit fun h => hend h.1
  | succ k ih =>
    have hsum : i+1+k = i+(k+1) := by omega
    obtain _ | ⟨y,ps⟩ := ps
    · simp at hx
    · obtain ⟨rfl,hy,tail⟩ := h.of_cons
      have hrest := ih (i := i+1) tail hx (by rwa [hsum]) (by rwa [hsum])
      rw [hsum] at hrest
      exact while_pass ⟨hgo i (by omega),hy⟩ hrest

/-- A walk that counts its steps and is stopped by nothing but NULL. -/
theorem walk_all {c : ℕ → Prop} [DecidablePred c] {i : ℕ} (h : Links next p ps 0) (hgo : ∀ j, c j) :
    Returns (fun n => whileLoop (fun s : ℕ × ℕ => c s.1 ∧ s.2 ≠ 0)
      (fun s => (s.1+1,next s.2)) n (i,p)) (i+ps.length,0) := by
  induction ps generalizing i p with
  | nil =>
    obtain rfl := h.eq_of_nil
    exact while_exit fun h => h.2 rfl
  | cons y ps ih =>
    obtain ⟨rfl,hy,tail⟩ := h.of_cons
    have hrest := ih (i := i+1) tail
    rw [Nat.add_assoc, Nat.add_comm 1] at hrest
    exact while_pass ⟨hgo i,hy⟩ hrest

theorem walk_index {i k : ℕ} (h : Links next p ps q) (hx : ps[k]? = some x) :
    Returns (fun n => whileLoop (fun s : ℕ × ℕ => s.1 ≠ i+k ∧ s.2 ≠ 0)
      (fun s => (s.1+1,next s.2)) n (i,p)) (i+k,x) :=
  h.walk_until hx (fun _ hj => hj.ne) (not_not.mpr rfl)

/-- A new cell behind the last one. -/
theorem snoc (h : Links next p (ps ++ [x]) 0) {new : ℕ} (hnew : new ≠ 0) (hlast : next' x = new)
    (hend : next' new = 0) (hrest : ∀ y ∈ ps, next' y = next y) :
    Links next' p (ps ++ [x] ++ [new]) 0 := by
  obtain ⟨q,hps,hx⟩ := h.of_append
  obtain ⟨rfl,hne,-⟩ := hx.of_cons
  refine ((hps.congr hrest).append (.cons hne ?_)).append (.cons hnew ?_)
  · rw [hlast]
    exact .nil _
  · rw [hend]
    exact .nil 0

/-- A new cell above all the others. -/
theorem snoc_above (h : Links next p (ps ++ [x]) 0) (hnodup : (ps ++ [x]).Nodup) {new : ℕ}
    (habove : ∀ y ∈ ps ++ [x], y < new) (hlast : next' x = new) (hend : next' new = 0)
    (hrest : ∀ y ∈ ps, y ≠ x → next' y = next y) :
    Links next' p (ps ++ [x] ++ [new]) 0 ∧ (ps ++ [x] ++ [new]).Nodup := by
  have hx : x ∈ ps ++ [x] := List.mem_append_right ps List.mem_cons_self
  constructor
  · refine h.snoc (Nat.ne_zero_of_lt (habove x hx)) hlast hend fun y hy => hrest y hy ?_
    exact (List.nodup_append.mp hnodup).2.2 y hy x List.mem_cons_self
  · refine List.nodup_append.mpr ⟨hnodup,by simp,fun y hy z hz => ?_⟩
    rw [List.mem_singleton.mp hz]
    exact (habove y hy).ne

end Links
end ServerKit.Lib
