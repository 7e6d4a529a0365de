import Mathlib.Data.List.Basic
import Mathlib.Data.Int.ModEq
import Mathlib.Logic.Function.Basic

/-! A ring of `cap` cells with a front and a number of occupied cells, as a queue. -/
namespace ServerKit.Lib
open Function

variable {α : Type*}

/-- The `n` cells from `front` on. -/
def ring (cells : ℤ → α) (cap front : ℤ) (n : ℕ) : List α :=
  (List.range n).map fun i : ℕ => cells ((front+(i : ℤ)) % cap)

section Ring
variable {cap front : ℤ} {n : ℕ}

/-- Fewer than `cap` steps lead to another cell. -/
theorem ring_index_ne {i j : ℕ} (hi : i < j) (hj : (j : ℤ) < cap) :
    (front+i) % cap ≠ (front+j) % cap := by
  intro heq
  have hdvd : cap ∣ (front+j)-(front+i) := Int.ModEq.dvd heq
  have hle := Int.le_of_dvd (by omega) hdvd
  omega

/-- A new element behind the occupied cells. -/
theorem ring_push (cells : ℤ → α) (front : ℤ) (hn : (n : ℤ) < cap) (x : α) :
    ring (update cells ((front+n) % cap) x) cap front (n+1) = ring cells cap front n ++ [x] := by
  rw [ring, List.range_succ, List.map_append, List.map_singleton, update_self]
  congr 1
  apply List.map_congr_left
  intro i hi
  exact update_of_ne (ring_index_ne (List.mem_range.mp hi) hn) ..

/-- The element at the front leaves. -/
theorem ring_pop (cells : ℤ → α) (n : ℕ) (h0 : 0 ≤ front) (hlt : front < cap) :
    ring cells cap front (n+1) = cells front :: ring cells cap ((front+1) % cap) n := by
  rw [ring, List.range_succ_eq_map, List.map_cons, List.map_map]
  congr 1
  · rw [Nat.cast_zero, add_zero, Int.emod_eq_of_lt h0 hlt]
  · apply List.map_congr_left
    intro i _
    rw [comp_apply, Int.emod_add_emod]
    congr 2
    omega

end Ring
end ServerKit.Lib
