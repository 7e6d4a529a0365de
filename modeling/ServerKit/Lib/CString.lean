import Mathlib.Data.List.Infix
import Mathlib.Data.List.TakeWhile
import Mathlib.Data.Nat.Notation

/-! Strings of C: the bytes of an array up to the first zero. -/
namespace ServerKit.Lib

/-- The bytes of a literal. -/
def bytes (s : String) : List UInt8 := s.toList.map fun c => UInt8.ofNat c.toNat

/-- The string in an array, which `strlen` measures. -/
def text (array : List UInt8) : List UInt8 := array.takeWhile fun b => b ≠ 0

/-- What a string and its zero leave in an array that they are written to. -/
def putText (array s : List UInt8) : List UInt8 := s ++ 0 :: array.drop (s.length+1)

/-- What is left of an array when `s` is written to it from `j` on. -/
def putAt (array : List UInt8) (j : ℕ) (s : List UInt8) : List UInt8 :=
  array.take j ++ s ++ array.drop (j+s.length)

/-- Whether `strstr` finds something. -/
def strstr (s needle : List UInt8) : Bool := decide (needle <:+: s)

section Needles
variable {α : Type*} {needle a b : List α} {x : α}

theorem isPrefix_append_cons (hx : x ∉ needle) (h : needle <+: a ++ x :: b) : needle <+: a := by
  induction needle generalizing a with
  | nil => exact List.nil_prefix
  | cons n needle ih =>
    cases a with
    | nil =>
      obtain ⟨rfl,-⟩ := List.cons_prefix_cons.mp h
      exact absurd List.mem_cons_self hx
    | cons c a =>
      obtain ⟨rfl,hrest⟩ := List.cons_prefix_cons.mp h
      exact List.cons_prefix_cons.mpr ⟨rfl,ih (fun hmem => hx (List.mem_cons_of_mem _ hmem)) hrest⟩

/-- What has no separator is found on one side of it. -/
theorem infix_append_cons_iff (hx : x ∉ needle) :
    needle <:+: a ++ x :: b ↔ needle <:+: a ∨ needle <:+: b := by
  constructor
  · intro h
    induction a with
    | nil =>
      obtain hstarts | hlater := List.infix_cons_iff.mp h
      · exact .inl (isPrefix_append_cons (a := []) hx hstarts).isInfix
      · exact .inr hlater
    | cons c a ih =>
      obtain hstarts | hlater := List.infix_cons_iff.mp h
      · exact .inl (isPrefix_append_cons (a := c :: a) hx hstarts).isInfix
      · obtain hleft | hright := ih hlater
        · exact .inl (hleft.trans (List.infix_cons List.infix_rfl))
        · exact .inr hright
  · rintro (hleft | hright)
    · exact hleft.trans (List.prefix_append _ _).isInfix
    · exact hright.trans ((List.suffix_cons x b).trans (List.suffix_append a _)).isInfix

end Needles

section Text
variable {array s : List UInt8}

/-- Nothing behind a zero matters. -/
theorem text_append_zero (s rest : List UInt8) : text (s ++ 0 :: rest) = text s := by
  unfold text
  induction s with
  | nil => rfl
  | cons b s ih => rw [List.cons_append, List.takeWhile_cons, List.takeWhile_cons, ih]

/-- A zero behind a string, if there is a place for one. -/
theorem text_terminated (s rest : List UInt8) : text ((s ++ rest).set s.length 0) = text s := by
  rw [List.set_append_right _ _ le_rfl, Nat.sub_self]
  cases rest with
  | nil => rw [List.set_nil, List.append_nil]
  | cons b rest => exact text_append_zero s rest

theorem text_of_notMem (hs : 0 ∉ s) : text s = s := by
  unfold text
  rw [List.takeWhile_eq_self_iff]
  intro b hb
  have hne : b ≠ 0 := fun h => hs (h ▸ hb)
  simpa using hne

theorem text_append (hs : 0 ∉ s) (array : List UInt8) : text (s ++ array) = s ++ text array := by
  unfold text
  induction s with
  | nil => rfl
  | cons b s ih =>
    have hb : decide (b ≠ 0) = true := by simpa using fun h : b = 0 => hs (h ▸ List.mem_cons_self)
    rw [List.cons_append, List.takeWhile_cons, if_pos hb, ih fun h => hs (List.mem_cons_of_mem b h)]
    rfl

/-- Up to its zero an array is its text. -/
theorem getD_text {i : ℕ} (hi : i ≤ (text array).length) : array.getD i 0 = (text array).getD i 0 := by
  unfold text at hi ⊢
  induction array generalizing i with
  | nil => rfl
  | cons b array ih =>
    rw [List.takeWhile_cons] at hi ⊢
    by_cases hb : b = 0
    · subst hb
      obtain rfl : i = 0 := by simpa using hi
      rfl
    · have hb' : decide (b ≠ 0) = true := by simpa using hb
      rw [if_pos hb'] at hi ⊢
      cases i with
      | zero => rfl
      | succ i => exact ih (Nat.le_of_succ_le_succ hi)

theorem getD_congr {array' : List UInt8} (h : text array = text array') {i : ℕ}
    (hi : i ≤ (text array).length) : array.getD i 0 = array'.getD i 0 := by
  have hi' : i ≤ (text array').length := h ▸ hi
  calc
    array.getD i 0 = (text array).getD i 0 := getD_text hi
    _ = (text array').getD i 0 := by rw [h]
    _ = array'.getD i 0 := (getD_text hi').symm

/-- Behind the text is a zero, or the end of the array. -/
theorem getD_length_text (array : List UInt8) : array.getD (text array).length 0 = 0 := by
  rw [getD_text le_rfl]
  simp

theorem text_putText (hs : 0 ∉ s) (array : List UInt8) : text (putText array s) = s :=
  (text_append_zero s _).trans (text_of_notMem hs)

theorem take_putText (array s : List UInt8) : (putText array s).take s.length = s := by
  rw [putText, List.take_left]

theorem getD_set_self {i : ℕ} (hi : i < array.length) (c : UInt8) : (array.set i c).getD i 0 = c := by
  rw [List.getD_eq_getElem?_getD, List.getElem?_set_self hi]
  rfl

theorem getD_set_ne {i j : ℕ} (hne : i ≠ j) (c : UInt8) : (array.set i c).getD j 0 = array.getD j 0 := by
  rw [List.getD_eq_getElem?_getD, List.getElem?_set_ne hne, List.getD_eq_getElem?_getD]

/-- The string from `i` on ends at the next zero at the latest. -/
theorem length_text_drop {i j : ℕ} (hij : i ≤ j) (hzero : array.getD j 0 = 0) :
    i+(text (array.drop i)).length ≤ j := by
  by_contra hlt
  have hsplit : i+(j-i) = j := by omega
  have hmem : (text (array.drop i)).getD (j-i) 0 = 0 := by
    rw [← getD_text (by omega), List.getD_eq_getElem?_getD, List.getElem?_drop, hsplit,
      ← List.getD_eq_getElem?_getD, hzero]
  have hin : j-i < (text (array.drop i)).length := by omega
  rw [List.getD_eq_getElem?_getD, List.getElem?_eq_getElem hin, Option.getD_some] at hmem
  have hne := List.mem_takeWhile_imp (hmem ▸ List.getElem_mem hin)
  simp at hne

theorem putAt_nil (array : List UInt8) (j : ℕ) : putAt array j [] = array := by
  rw [putAt, List.append_nil, List.length_nil, Nat.add_zero, List.take_append_drop]

/-- A byte before the rest. -/
theorem putAt_set {j : ℕ} (hj : j < array.length) (c : UInt8) (s : List UInt8) :
    putAt (array.set j c) (j+1) s = putAt array j (c :: s) := by
  have htake : (array.set j c).take (j+1) = array.take j ++ [c] := by
    rw [List.take_succ_eq_append_getElem (by rwa [List.length_set]), List.take_set_of_le le_rfl,
      List.getElem_set_self]
  rw [putAt, putAt, htake, List.drop_set_of_lt (by omega), List.append_assoc, List.append_assoc,
    List.append_assoc, List.length_cons, Nat.add_comm s.length 1, Nat.add_assoc]
  rfl

/-- A string that is written to an array of zeros has a zero behind it. -/
theorem putAt_zeros {n : ℕ} (hn : s.length < n) (rest : List UInt8) :
    ∃ t, putAt (List.replicate n 0 ++ rest) 0 s = s ++ 0 :: t := by
  obtain ⟨k,rfl⟩ := Nat.exists_eq_add_of_lt hn
  have hsplit : List.replicate (s.length+k+1) (0 : UInt8) =
      List.replicate s.length 0 ++ 0 :: List.replicate k 0 := by
    rw [Nat.add_assoc, List.replicate_add, List.replicate_succ]
  refine ⟨List.replicate k 0 ++ rest,?_⟩
  rw [putAt, Nat.zero_add, List.take_zero, List.nil_append, hsplit, List.append_assoc,
    List.drop_left' List.length_replicate]
  rfl

theorem text_putAt_zeros (hs : 0 ∉ s) {n : ℕ} (hn : s.length < n) (rest : List UInt8) :
    text (putAt (List.replicate n 0 ++ rest) 0 s) = s := by
  obtain ⟨t,ht⟩ := putAt_zeros hn rest
  rw [ht, text_append_zero, text_of_notMem hs]

theorem getD_putAt_zeros {n : ℕ} (hn : s.length ≤ n) (rest : List UInt8) {i : ℕ} (hi : i < n) :
    (putAt (List.replicate n 0 ++ rest) 0 s).getD i 0 = s.getD i 0 := by
  rw [putAt, Nat.zero_add, List.take_zero, List.nil_append, List.drop_append,
    List.drop_replicate, List.getD_eq_getElem?_getD, List.getD_eq_getElem?_getD]
  obtain hlt | hge := Nat.lt_or_ge i s.length
  · rw [List.getElem?_append_left hlt]
  · have hzero : i-s.length < n-s.length := by omega
    rw [List.getElem?_append_right hge, List.getElem?_append_left (by rwa [List.length_replicate]),
      List.getElem?_replicate_of_lt hzero, List.getElem?_eq_none hge]
    rfl

theorem zero_mem_putAt_zeros {n : ℕ} (hn : s.length < n) (rest : List UInt8) :
    0 ∈ (putAt (List.replicate n 0 ++ rest) 0 s).take n := by
  obtain ⟨t,ht⟩ := putAt_zeros hn rest
  obtain ⟨k,rfl⟩ := Nat.exists_eq_add_of_lt hn
  rw [ht, Nat.add_assoc, List.take_append, List.take_of_length_le (Nat.le_add_right _ _),
    Nat.add_sub_cancel_left, List.take_succ_cons]
  exact List.mem_append_right _ List.mem_cons_self

theorem zero_notMem_text (array : List UInt8) : 0 ∉ text array := by
  intro hmem
  have hne := List.mem_takeWhile_imp hmem
  simp at hne

end Text
end ServerKit.Lib
