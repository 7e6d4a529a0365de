import Mathlib.Order.Basic
import Mathlib.Data.Int.Notation

/-! Bisection of an interval of integers by a predicate: the intervals that it goes through and where it ends.
If the predicate holds up to some position and not from there on, then it ends at that position. -/
namespace ServerKit.Lib

/-- The intervals from `lo..hi` on, each one half of the one before, until the interval is empty. -/
inductive Bisection (less : ℤ → Prop) : ℤ → ℤ → List (ℤ × ℤ) → ℤ → Prop
  | done {lo hi} (h : hi < lo) : Bisection less lo hi [] lo
  | right {lo hi l i} (h : lo ≤ hi) (hmid : less ((lo+hi)/2))
      (rest : Bisection less ((lo+hi)/2+1) hi l i) : Bisection less lo hi ((lo,hi) :: l) i
  | left {lo hi l i} (h : lo ≤ hi) (hmid : ¬ less ((lo+hi)/2))
      (rest : Bisection less lo ((lo+hi)/2-1) l i) : Bisection less lo hi ((lo,hi) :: l) i

/-- The least position of `lo..hi` at which the predicate does not hold, or the one behind `hi`. -/
structure LowerBound (less : ℤ → Prop) (lo hi i : ℤ) : Prop where
  ge : lo ≤ i
  le : i ≤ hi+1
  below : ∀ j, lo ≤ j → j < i → less j
  stop : i = hi+1 ∨ ¬ less i

variable {less : ℤ → Prop} {lo hi i i' : ℤ} {l : List (ℤ × ℤ)}

theorem LowerBound.unique (h : LowerBound less lo hi i) (h' : LowerBound less lo hi i') : i = i' := by
  have hle {a b : ℤ} (ha : LowerBound less lo hi a) (hb : LowerBound less lo hi b) : b ≤ a := by
    by_contra hlt
    have hless := hb.below a ha.ge (Int.not_le.mp hlt)
    have hend := hb.le
    obtain heq | hnot := ha.stop
    · omega
    · exact hnot hless
  have h₁ := hle h h'
  have h₂ := hle h' h
  omega

namespace Bisection

theorem exists_result (less : ℤ → Prop) (lo hi : ℤ) : ∃ l i, Bisection less lo hi l i := by
  generalize hn : (hi+1-lo).toNat = n
  induction n using Nat.strongRecOn generalizing lo hi with
  | _ n ih =>
    obtain hlt | hle := Int.lt_or_le hi lo
    · exact ⟨[],lo,.done hlt⟩
    · by_cases hmid : less ((lo+hi)/2)
      · obtain ⟨l,i,h⟩ := ih _ (by omega) ((lo+hi)/2+1) hi rfl
        exact ⟨_,i,.right hle hmid h⟩
      · obtain ⟨l,i,h⟩ := ih _ (by omega) lo ((lo+hi)/2-1) rfl
        exact ⟨_,i,.left hle hmid h⟩

/-- All intervals lie in the first one. -/
theorem within (h : Bisection less lo hi l i) : ∀ x ∈ l, lo ≤ x.1 ∧ x.1 ≤ x.2 ∧ x.2 ≤ hi := by
  induction h with
  | done => exact nofun
  | right hle hmid rest ih =>
    intro x hx
    obtain rfl | hx := List.mem_cons.mp hx
    · exact ⟨Int.le_refl _,hle,Int.le_refl _⟩
    · have hin := ih x hx
      omega
  | left hle hmid rest ih =>
    intro x hx
    obtain rfl | hx := List.mem_cons.mp hx
    · exact ⟨Int.le_refl _,hle,Int.le_refl _⟩
    · have hin := ih x hx
      omega

/-- What lies left of the interval is less, what lies right of it is not. -/
theorem lowerBound (h : Bisection less lo hi l i) (hle : lo ≤ hi+1)
    (hsorted : ∀ a b, lo ≤ a → a ≤ b → b ≤ hi → less b → less a) : LowerBound less lo hi i := by
  induction h with
  | done hlt => exact ⟨Int.le_refl _,hle,by omega,.inl (by omega)⟩
  | @right lo hi l i h hmid rest ih =>
    have hright := ih (by omega) fun a b ha hb => hsorted a b (by omega) hb
    have hge := hright.ge
    refine ⟨by omega,hright.le,fun j hj hji => ?_,hright.stop⟩
    obtain hlt | hge := Int.lt_or_le ((lo+hi)/2) j
    · exact hright.below j (by omega) hji
    · exact hsorted j _ hj hge (by omega) hmid
  | @left lo hi l i h hmid rest ih =>
    have hleft := ih (by omega) fun a b ha hb hle => hsorted a b ha hb (by omega)
    have hle := hleft.le
    refine ⟨hleft.ge,by omega,hleft.below,.inr ?_⟩
    obtain heq | hnot := hleft.stop
    · rw [heq, Int.sub_add_cancel]
      exact hmid
    · exact hnot

/-- If everything is less, then the last interval is the last position. -/
theorem last (h : Bisection less lo hi l i) (hle : lo ≤ hi) (hall : ∀ j, lo ≤ j → j ≤ hi → less j) :
    (hi,hi) ∈ l := by
  induction h with
  | done hlt => omega
  | @right lo hi l i h hmid rest ih =>
    obtain hlt | hge := Int.lt_or_le ((lo+hi)/2) hi
    · exact List.mem_cons_of_mem _ (ih hlt fun j hj => hall j (by omega))
    · obtain rfl : lo = hi := by omega
      exact List.mem_cons_self
  | @left lo hi l i h hmid rest ih => exact absurd (hall _ (by omega) (by omega)) hmid

end Bisection
end ServerKit.Lib
