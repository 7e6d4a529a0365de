import Mathlib.Data.List.Basic
import Mathlib.Logic.Function.Basic
import ServerKit.Lib.Loops

/-! An array that grows by blocks: a number goes to the block of its quotient, at its remainder. Behind the
last block everything is read as the value `z`, which new blocks are filled with. -/
namespace ServerKit.Lib
open Function

variable {α : Type*}

def slotAt (z : α) (bs : List (ℕ → α)) (p : ℕ × ℕ) : α := (bs.getD p.1 fun _ => z) p.2

def setSlotAt (bs : List (ℕ → α)) (p : ℕ × ℕ) (a : α) : List (ℕ → α) :=
  bs.modify p.1 fun b => update b p.2 a

variable {z a : α} {bs : List (ℕ → α)} {p q : ℕ × ℕ}

/-- Another block changes nothing that was read before. -/
theorem slotAt_append (z : α) (bs : List (ℕ → α)) (p : ℕ × ℕ) :
    slotAt z (bs ++ [fun _ => z]) p = slotAt z bs p := by
  unfold slotAt
  obtain hlt | heq | hgt := Nat.lt_trichotomy p.1 bs.length
  · simp [List.getElem?_append_left hlt]
  · simp [heq]
  · have hle : (bs ++ [fun _ => z]).length ≤ p.1 := by
      rw [List.length_append, List.length_singleton]
      exact hgt
    simp [List.getElem?_eq_none (Nat.le_of_lt hgt), List.getElem?_eq_none hle]

theorem slotAt_setSlotAt (h : p.1 < bs.length) :
    slotAt z (setSlotAt bs p a) q = if q = p then a else slotAt z bs q := by
  unfold slotAt setSlotAt
  obtain ⟨b,o⟩ := p
  obtain ⟨b',o'⟩ := q
  by_cases hb : b = b'
  · subst hb
    by_cases ho : o' = o
    · simp [List.getElem?_eq_getElem h, ho]
    · simp [List.getElem?_eq_getElem h, ho]
  · have hne : ¬ (b' = b ∧ o' = o) := fun h => hb h.1.symm
    simp [hb, hne]

@[simp] theorem length_setSlotAt : (setSlotAt bs p a).length = bs.length := List.length_modify ..

/-- No two numbers have one place. -/
theorem place_inj {size i j : ℕ} : (i/size,i % size) = (j/size,j % size) ↔ i = j := by
  constructor
  · intro h
    obtain ⟨hdiv,hmod⟩ := Prod.mk.inj h
    rw [← Nat.div_add_mod i size, ← Nat.div_add_mod j size, hdiv, hmod]
  · rintro rfl
    rfl

end ServerKit.Lib
