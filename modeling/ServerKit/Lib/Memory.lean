import Mathlib.Algebra.Order.Ring.Nat
import Mathlib.Logic.Function.Basic
import Mathlib.Tactic.Ring

/-! Byte-addressed memory with words of eight bytes, the least significant one first. -/
namespace ServerKit.Lib
open Function

abbrev Mem := ℕ → UInt8

/-- The number in the `n` bytes from `a` on. -/
def loadBytes (m : Mem) : ℕ → ℕ → ℕ
  | 0,_ => 0
  | n+1,a => (m a).toNat + 256*loadBytes m n (a+1)

def storeBytes (m : Mem) : ℕ → ℕ → ℕ → Mem
  | 0,_,_ => m
  | n+1,a,v => update (storeBytes m n (a+1) (v/256)) a (UInt8.ofNat v)

def loadWord (m : Mem) (a : ℕ) : ℕ := loadBytes m 8 a

/-- What does not fit into eight bytes is cut off. -/
def storeWord (m : Mem) (a v : ℕ) : Mem := storeBytes m 8 a v

section Bytes
variable {m m' : Mem} {n a v x : ℕ}

theorem loadBytes_congr (h : ∀ x, a ≤ x → x < a+n → m x = m' x) :
    loadBytes m n a = loadBytes m' n a := by
  induction n generalizing a with
  | zero => rfl
  | succ n ih =>
    rw [loadBytes, loadBytes, h a le_rfl (by omega), ih fun x hx hlt => h x (by omega) (by omega)]

theorem storeBytes_of_notMem (h : x < a ∨ a+n ≤ x) : storeBytes m n a v x = m x := by
  induction n generalizing a v with
  | zero => rfl
  | succ n ih =>
    rw [storeBytes, update_of_ne (by omega)]
    exact ih (by omega)

theorem loadBytes_storeBytes (m : Mem) (n a v : ℕ) :
    loadBytes (storeBytes m n a v) n a = v % 256^n := by
  induction n generalizing a v with
  | zero => simp [loadBytes,Nat.mod_one]
  | succ n ih =>
    have htail : loadBytes (storeBytes m (n+1) a v) n (a+1) =
        loadBytes (storeBytes m n (a+1) (v/256)) n (a+1) := by
      apply loadBytes_congr
      intro x hx _
      exact update_of_ne (by omega) ..
    have hbyte : (UInt8.ofNat v).toNat = v % 256 := UInt8.toNat_ofNat'
    rw [loadBytes, htail, ih, storeBytes, update_self, hbyte, pow_succ', Nat.mod_mul]

end Bytes

section Words
variable {m m' : Mem} {a b v : ℕ}

theorem loadWord_storeWord (m : Mem) (a : ℕ) (hv : v < 2^64) : loadWord (storeWord m a v) a = v := by
  rw [loadWord, storeWord, loadBytes_storeBytes]
  exact Nat.mod_eq_of_lt hv

theorem loadWord_storeWord_of_disjoint (h : a+8 ≤ b ∨ b+8 ≤ a) :
    loadWord (storeWord m b v) a = loadWord m a := by
  apply loadBytes_congr
  intro x hx hlt
  exact storeBytes_of_notMem (by omega)

theorem loadWord_update_of_notMem {x : ℕ} (h : x < a ∨ a+8 ≤ x) (y : UInt8) :
    loadWord (update m x y) a = loadWord m a := by
  apply loadBytes_congr
  intro z hz hlt
  exact update_of_ne (by omega) ..

end Words
end ServerKit.Lib
