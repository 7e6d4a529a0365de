import ServerKit.Lib.Monitor
import Mathlib.Data.List.Count
import Mathlib.Logic.Function.Basic

/-! What the threads of a system hold, all together. Thread `i` holds `H i x` when it is in the state
`x`. The order does not matter, so the statements count. -/
namespace ServerKit.Lib

variable {σ β : Type*}

def carried (H : ℕ → σ → List β) (l : List σ) : List β := (l.mapIdx H).flatten

section Carried
variable {H K : ℕ → σ → List β} {l : List σ} {x y : σ} {i : ℕ}

@[simp] theorem carried_nil (H : ℕ → σ → List β) : carried H [] = [] := rfl

theorem carried_cons (H : ℕ → σ → List β) (x : σ) (l : List σ) :
    carried H (x :: l) = H 0 x ++ carried (fun i => H (i+1)) l := by
  rw [carried, List.mapIdx_cons, List.flatten_cons]
  rfl

theorem carried_congr (h : ∀ i x, l[i]? = some x → K i x = H i x) :
    carried K l = carried H l := by
  induction l generalizing H K with
  | nil => rfl
  | cons a l ih =>
    rw [carried_cons, carried_cons, h 0 a rfl, ih fun i x hx => h (i+1) x hx]

/-- One thread goes to another state, and only what that thread holds may change. -/
theorem count_carried_set [DecidableEq β] (b : β) (hx : l[i]? = some x)
    (hsame : ∀ j, j ≠ i → K j = H j) :
    (carried K (l.set i y)).count b+(H i x).count b =
      (carried H l).count b+(K i y).count b := by
  induction l generalizing i H K with
  | nil => cases hx
  | cons a l ih =>
    cases i with
    | zero =>
      obtain rfl : a = x := Option.some.inj hx
      have htail : carried (fun i => K (i+1)) l = carried (fun i => H (i+1)) l :=
        carried_congr fun j z _ => congrFun (hsame (j+1) (Nat.succ_ne_zero j)) z
      rw [List.set_cons_zero, carried_cons, carried_cons, htail, List.count_append, List.count_append]
      omega
    | succ i =>
      have htail := ih (H := fun i => H (i+1)) (K := fun i => K (i+1)) hx
        fun j hj => hsame (j+1) (Nat.succ_ne_succ_iff.mpr hj)
      rw [List.set_cons_succ, carried_cons, carried_cons, hsame 0 (Nat.succ_ne_zero i).symm,
        List.count_append, List.count_append]
      omega

/-- The state of one thread stays, and what it holds may change. -/
theorem count_carried_update [DecidableEq β] (b : β) (hx : l[i]? = some x)
    (hsame : ∀ j, j ≠ i → K j = H j) :
    (carried K l).count b+(H i x).count b = (carried H l).count b+(K i x).count b := by
  obtain ⟨hlt,hget⟩ := List.getElem?_eq_some_iff.mp hx
  have hset := count_carried_set (y := x) b hx hsame
  rwa [← hget, List.set_getElem_self hlt, hget] at hset

/-- New threads that hold nothing. -/
theorem carried_append {m : List σ} (hm : ∀ i, ∀ x ∈ m, H i x = []) :
    carried H (l ++ m) = carried H l := by
  induction l generalizing H with
  | nil =>
    rw [List.nil_append, carried_nil]
    induction m generalizing H with
    | nil => rfl
    | cons a m ih =>
      rw [carried_cons, hm 0 a List.mem_cons_self, List.nil_append]
      exact ih fun i x hx => hm (i+1) x (List.mem_cons_of_mem _ hx)
  | cons a l ih =>
    rw [List.cons_append, carried_cons, carried_cons, ih fun i x hx => hm (i+1) x hx]

/-- A thread that goes to another state and holds the same. -/
theorem carried_move (hx : l[i]? = some x) (hsame : ∀ j, j ≠ i → K j = H j)
    (hi : K i y = H i x) : carried K (l.set i y) = carried H l := by
  induction l generalizing i H K with
  | nil => rfl
  | cons a l ih =>
    cases i with
    | zero =>
      obtain rfl : a = x := Option.some.inj hx
      have htail : carried (fun i => K (i+1)) l = carried (fun i => H (i+1)) l :=
        carried_congr fun j z _ => congrFun (hsame (j+1) (Nat.succ_ne_zero j)) z
      rw [List.set_cons_zero, carried_cons, carried_cons, hi, htail]
    | succ i =>
      have htail := ih (H := fun i => H (i+1)) (K := fun i => K (i+1)) hx
        (fun j hj => hsame (j+1) (Nat.succ_ne_succ_iff.mpr hj)) hi
      rw [List.set_cons_succ, carried_cons, carried_cons, hsame 0 (Nat.succ_ne_zero i).symm, htail]

theorem carried_set (hx : l[i]? = some x) (hsame : H i y = H i x) :
    carried H (l.set i y) = carried H l :=
  carried_move hx (fun _ _ => rfl) hsame

theorem carried_update (hx : l[i]? = some x) (hsame : ∀ j, j ≠ i → K j = H j)
    (hi : K i x = H i x) : carried K l = carried H l := by
  refine carried_congr fun j z hz => ?_
  obtain rfl | hne := eq_or_ne j i
  · obtain rfl : x = z := Option.some.inj (hx.symm.trans hz)
    exact hi
  · rw [hsame j hne]

/-- The threads hold what their places say. -/
theorem carried_of_map {γ : Type*} {f : σ → γ} {l' : List σ} (h : l'.map f = l.map f) (H : γ → List β) :
    carried (fun _ x => H (f x)) l' = carried (fun _ x => H (f x)) l := by
  have hmap (l : List σ) : carried (fun _ x => H (f x)) l = ((l.map f).map H).flatten := by
    induction l with
    | nil => rfl
    | cons a l ih =>
      rw [carried_cons, ih]
      rfl
  rw [hmap, hmap, h]

/-- A wake-up moves nothing when a woken thread holds what it held before. -/
theorem Signal.carried {wake : σ → Option σ} {l' : List σ} (h : Signal wake l l')
    (hwake : ∀ i x y, wake x = some y → H i y = H i x) :
    Lib.carried H l' = Lib.carried H l := by
  cases h with
  | lost h => rfl
  | woken hi hx => exact carried_set hi (hwake _ _ _ hx)

theorem Signal.length_eq {wake : σ → Option σ} {l' : List σ} (h : Signal wake l l') : l'.length = l.length := by
  cases h with
  | lost h => rfl
  | woken hi hx => exact List.length_set ..

theorem Signal.map_eq {γ : Type*} {f : σ → γ} {wake : σ → Option σ} {l' : List σ} (h : Signal wake l l')
    (hwake : ∀ x y, wake x = some y → f y = f x) : l'.map f = l.map f := by
  cases h with
  | lost h => rfl
  | @woken i x y hi hx =>
    have hmap : (l.map f)[i]? = some (f x) := by rw [List.getElem?_map, hi]; rfl
    obtain ⟨hlt,hget⟩ := List.getElem?_eq_some_iff.mp hmap
    rw [List.map_set, hwake x y hx, ← hget, List.set_getElem_self hlt]

theorem mem_carried {b : β} (hx : l[i]? = some x) (hb : b ∈ H i x) : b ∈ carried H l :=
  List.mem_flatten.mpr ⟨H i x,List.mem_iff_getElem?.mpr ⟨i,by rw [List.getElem?_mapIdx, hx]; rfl⟩,hb⟩

theorem count_carried_le [DecidableEq β] (b : β)
    (h : ∀ i x, l[i]? = some x → (H i x).count b ≤ (K i x).count b) :
    (carried H l).count b ≤ (carried K l).count b := by
  induction l generalizing H K with
  | nil => exact Nat.le_refl _
  | cons a l ih =>
    rw [carried_cons, carried_cons, List.count_append, List.count_append]
    exact Nat.add_le_add (h 0 a rfl) (ih fun i x hx => h (i+1) x hx)

/-- What no two threads hold, each holds alone. -/
theorem carried_alone [DecidableEq β] {b : β} {j : ℕ} (hx : l[i]? = some x) (hb : b ∈ H i x)
    (hy : l[j]? = some y) (hb' : b ∈ H j y) (hle : (carried H l).count b ≤ 1) : i = j := by
  by_contra hne
  -- without the first thread `b` is still there
  have hupdate := count_carried_update (K := Function.update H i fun _ => []) b hx
    fun k hk => Function.update_of_ne hk _ _
  have hrest : b ∈ carried (Function.update H i fun _ => []) l := by
    refine mem_carried hy ?_
    rwa [Function.update_of_ne (Ne.symm hne)]
  have hpos := List.count_pos_iff.mpr hrest
  have hpos' := List.count_pos_iff.mpr hb
  rw [Function.update_self, List.count_nil] at hupdate
  omega

theorem exists_of_mem_carried {b : β} (hb : b ∈ carried H l) : ∃ i x, l[i]? = some x ∧ b ∈ H i x := by
  obtain ⟨bs,hbs,hb⟩ := List.mem_flatten.mp hb
  obtain ⟨i,hi⟩ := List.mem_iff_getElem?.mp hbs
  rw [List.getElem?_mapIdx] at hi
  obtain ⟨x,hx,rfl⟩ := Option.map_eq_some_iff.mp hi
  exact ⟨i,x,hx,hb⟩

/-- Only one thread holds something. -/
theorem carried_single {k : ℕ} (h : ∀ i x, l[i]? = some x → i ≠ k → H i x = []) :
    carried H l = l[k]?.elim [] (H k) := by
  induction l generalizing k H with
  | nil => rfl
  | cons a l ih =>
    rw [carried_cons]
    cases k with
    | zero =>
      have hnone : carried (fun i => H (i+1)) l = l[l.length]?.elim [] fun x => H (l.length+1) x :=
        ih fun i x hx _ => h (i+1) x hx (Nat.succ_ne_zero i)
      rw [hnone, List.getElem?_eq_none (Nat.le_refl _)]
      exact List.append_nil _
    | succ k =>
      rw [h 0 a rfl (Nat.succ_ne_zero k).symm, List.nil_append, List.getElem?_cons_succ]
      exact ih fun i x hx hi => h (i+1) x hx fun heq => hi (Nat.succ_inj.mp heq)

end Carried
end ServerKit.Lib
