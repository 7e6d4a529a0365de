import Mathlib.Data.List.Basic
import ServerKit.Lib.CString

/-! The standard base64 encoding of bytes, with padding and without line feeds. -/
namespace ServerKit.Lib.Base64

def alphabet : List UInt8 := bytes "ABCDEFGHIJKLMNOPQRSTUVWXYZabcdefghijklmnopqrstuvwxyz0123456789+/"

def digit (n : ℕ) : UInt8 := alphabet.getD n 0
def value (c : UInt8) : ℕ := alphabet.idxOf c

/-- The character that fills up the last group. -/
def pad : UInt8 := 61

/-- Every three bytes become four digits of six bits. -/
def encode : List UInt8 → List UInt8
  | [] => []
  | [a] => [digit (a.toNat/4),digit (a.toNat%4*16),pad,pad]
  | [a,b] => [digit (a.toNat/4),digit (a.toNat%4*16+b.toNat/16),digit (b.toNat%16*4),pad]
  | a :: b :: c :: s =>
    digit (a.toNat/4) :: digit (a.toNat%4*16+b.toNat/16) :: digit (b.toNat%16*4+c.toNat/64) ::
      digit (c.toNat%64) :: encode s

def decode : List UInt8 → List UInt8
  | x :: y :: z :: w :: s =>
    let a := UInt8.ofNat (value x*4+value y/16)
    let b := UInt8.ofNat (value y%16*16+value z/4)
    let c := UInt8.ofNat (value z%4*64+value w)
    if z = pad then [a] else if w = pad then [a,b] else a :: b :: c :: decode s
  | _ => []

theorem value_digit {n : ℕ} (hn : n < 64) : value (digit n) = n := by
  have hall : ∀ i : Fin 64, value (digit i) = i := by decide +kernel
  exact hall ⟨n,hn⟩

theorem digit_ne_pad {n : ℕ} (hn : n < 64) : digit n ≠ pad := by
  have hall : ∀ i : Fin 64, digit i ≠ pad := by decide +kernel
  exact hall ⟨n,hn⟩

theorem digit_ne_zero {n : ℕ} (hn : n < 64) : digit n ≠ 0 := by
  have hall : ∀ i : Fin 64, digit i ≠ 0 := by decide +kernel
  exact hall ⟨n,hn⟩

theorem ofNat_eq {b : UInt8} {n : ℕ} (h : n = b.toNat) : UInt8.ofNat n = b := by
  rw [h, UInt8.ofNat_toNat]

section Groups
variable (a b c : UInt8)

/-- The digits of a group. -/
theorem first_lt : a.toNat/4 < 64 := by
  have ha := a.toNat_lt
  omega

theorem second_lt : a.toNat%4*16+b.toNat/16 < 64 := by
  have hb := b.toNat_lt
  omega

theorem third_lt : b.toNat%16*4+c.toNat/64 < 64 := by
  have hc := c.toNat_lt
  omega

theorem fourth_lt : c.toNat%64 < 64 := Nat.mod_lt _ (by decide)

end Groups

theorem decode_encode (s : List UInt8) : decode (encode s) = s := by
  fun_induction encode s with
  | case1 => rfl
  | case2 a =>
    have hy := second_lt a 0
    rw [show (0 : UInt8).toNat = 0 from rfl] at hy
    rw [decode, value_digit (first_lt a), value_digit (by omega)]
    simp only [if_true, List.cons.injEq, and_true]
    exact ofNat_eq (by omega)
  | case3 a b =>
    have hz := third_lt b 0
    rw [show (0 : UInt8).toNat = 0 from rfl] at hz
    rw [decode, value_digit (first_lt a), value_digit (second_lt a b), value_digit (by omega)]
    simp only [if_neg (digit_ne_pad (show b.toNat%16*4 < 64 by omega)), if_true, List.cons.injEq, and_true]
    have hb := b.toNat_lt
    exact ⟨ofNat_eq (by omega),ofNat_eq (by omega)⟩
  | case4 a b c s ih =>
    rw [decode, value_digit (first_lt a), value_digit (second_lt a b), value_digit (third_lt b c),
      value_digit (fourth_lt c), ih]
    simp only [if_neg (digit_ne_pad (third_lt b c)), if_neg (digit_ne_pad (fourth_lt c)),
      List.cons.injEq, and_true]
    have hb := b.toNat_lt
    have hc := c.toNat_lt
    exact ⟨ofNat_eq (by omega),ofNat_eq (by omega),ofNat_eq (by omega)⟩

theorem encode_injective : Function.Injective encode := Function.LeftInverse.injective decode_encode

theorem length_encode (s : List UInt8) : (encode s).length = 4*((s.length+2)/3) := by
  fun_induction encode s with
  | case1 => rfl
  | case2 a => simp
  | case3 a b => simp
  | case4 a b c s ih =>
    simp only [List.length_cons, ih]
    omega

/-- An encoding is a string. -/
theorem zero_notMem_encode (s : List UInt8) : 0 ∉ encode s := by
  have hpad : (0 : UInt8) ∉ [pad] := by decide
  have hdigit {n : ℕ} (hn : n < 64) {l : List UInt8} (hl : 0 ∉ l) : 0 ∉ digit n :: l :=
    List.not_mem_cons_of_ne_of_not_mem (digit_ne_zero hn).symm hl
  fun_induction encode s with
  | case1 => exact List.not_mem_nil
  | case2 a =>
    have hy := second_lt a 0
    exact hdigit (first_lt a) (hdigit hy (List.not_mem_cons_of_ne_of_not_mem (by decide) hpad))
  | case3 a b =>
    have hz := third_lt b 0
    exact hdigit (first_lt a) (hdigit (second_lt a b) (hdigit hz hpad))
  | case4 a b c s ih =>
    exact hdigit (first_lt a) (hdigit (second_lt a b) (hdigit (third_lt b c) (hdigit (fourth_lt c) ih)))

end ServerKit.Lib.Base64
