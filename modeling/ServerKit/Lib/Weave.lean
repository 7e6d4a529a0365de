import Mathlib.Algebra.GroupWithZero.Nat
import Mathlib.Data.List.Basic
import ServerKit.Lib.Loops

/-! Interleaving the in-order lists of the children of a node with the keys of the node: the first
child, the first key, the second child, and so on. A leaf has no children, so its keys remain. -/
namespace ServerKit.Lib

variable {α β : Type*}

def weave : List (List α) → List α → List α
  | [],ks => ks
  | x :: xs,[] => x ++ weave xs []
  | x :: xs,k :: ks => x ++ k :: weave xs ks

@[simp] theorem weave_nil (ks : List α) : weave [] ks = ks := rfl

@[simp] theorem weave_cons_cons (x : List α) (xs : List (List α)) (k : α) (ks : List α) :
    weave (x :: xs) (k :: ks) = x ++ k :: weave xs ks := rfl

@[simp] theorem weave_cons_nil (x : List α) (xs : List (List α)) :
    weave (x :: xs) [] = x ++ weave xs [] := rfl

theorem weave_append {xs : List (List α)} {ks : List α} (h : xs.length = ks.length)
    (ys : List (List α)) (ls : List α) :
    weave (xs ++ ys) (ks ++ ls) = weave xs ks ++ weave ys ls := by
  induction xs generalizing ks with
  | nil =>
    obtain rfl := List.eq_nil_of_length_eq_zero h.symm
    rfl
  | cons x xs ih =>
    obtain _ | ⟨k,ks⟩ := ks
    · simp at h
    · simp [ih (by simpa using h)]

theorem sublist_weave (xs : List (List α)) (ks : List α) : ks.Sublist (weave xs ks) := by
  induction xs generalizing ks with
  | nil => exact List.Sublist.refl ks
  | cons x xs ih =>
    cases ks with
    | nil => exact List.nil_sublist _
    | cons k ks => exact ((ih ks).cons_cons k).trans (List.sublist_append_right _ _)

/-- What follows the first child. -/
def weaveTail : List (List α) → List α → List α
  | xs,[] => weave xs []
  | xs,k :: ks => k :: weave xs ks

@[simp] theorem weaveTail_cons (xs : List (List α)) (k : α) (ks : List α) :
    weaveTail xs (k :: ks) = k :: weave xs ks := rfl

theorem weave_cons (x : List α) (xs : List (List α)) (ks : List α) :
    weave (x :: xs) ks = x ++ weaveTail xs ks := by
  cases ks <;> rfl

theorem weave_snoc {xs : List (List α)} {ks : List α} (h : xs.length = ks.length) (x : List α) (k : α) :
    weave (xs ++ [x]) (ks ++ [k]) = weave xs ks ++ x ++ [k] := by
  rw [weave_append h]
  simp

/-- A child that sits between the keys `ks` and `ls`. -/
theorem weave_focus {xs : List (List α)} {ks : List α} (h : xs.length = ks.length) (x : List α)
    (ys : List (List α)) (ls : List α) :
    weave (xs ++ x :: ys) (ks ++ ls) = weave xs ks ++ x ++ weaveTail ys ls := by
  rw [weave_append h, weave_cons, List.append_assoc]

/-- Before a child comes the key just before it. -/
theorem getLast?_weave {xs : List (List α)} {ks : List α} (h : xs.length = ks.length) :
    (weave xs ks).getLast? = ks.getLast? := by
  obtain rfl | ⟨ks,k,rfl⟩ := ks.eq_nil_or_concat
  · obtain rfl := List.eq_nil_of_length_eq_zero h
    rfl
  · obtain rfl | ⟨xs,x,rfl⟩ := xs.eq_nil_or_concat
    · simp at h
    · rw [List.concat_eq_append, List.concat_eq_append, weave_snoc (by simpa using h)]
      simp

/-- Behind a child comes the key just behind it. -/
theorem head?_weaveTail {xs : List (List α)} {ks : List α} (h : xs.length = ks.length) :
    (weaveTail xs ks).head? = ks.head? := by
  obtain _ | ⟨k,ks⟩ := ks
  · obtain rfl := List.eq_nil_of_length_eq_zero h
    rfl
  · rfl

/-- A loop that prints a child and a key in turn, and the last child after it. -/
theorem emitUp_weave (below : ℕ → Option (List α)) (key : ℕ → α) {xs : List (List α)} {ks : List α}
    (lo : ℕ) (hlen : xs.length ≤ ks.length+1)
    (hbelow : ∀ i ≤ ks.length, below (lo+i) = some (xs.getD i []))
    (hkey : ∀ i (hi : i < ks.length), key (lo+i) = ks[i]) :
    ((emitUp (fun i => (below i).map fun l => l ++ [key i]) lo ks.length).bind fun out =>
      (below (lo+ks.length)).map fun l => out ++ l) = some (weave xs ks) := by
  induction ks generalizing lo xs with
  | nil =>
    have hlast : below lo = some (xs.getD 0 []) := hbelow 0 (Nat.le_refl 0)
    obtain _ | ⟨x,_ | ⟨y,xs⟩⟩ := xs
    · simp [emitUp,hlast]
    · simp [emitUp,hlast]
    · simp at hlen
  | cons k ks ih =>
    have hfirst : below lo = some (xs.getD 0 []) := hbelow 0 (Nat.zero_le _)
    have hk : key lo = k := hkey 0 (Nat.zero_lt_succ _)
    have hlen' : xs.tail.length ≤ ks.length+1 := by simp at hlen ⊢; omega
    have hrest := ih (lo+1) hlen'
      (fun i hi => by
        have hnext := hbelow (i+1) (Nat.succ_le_succ hi)
        rw [← Nat.add_assoc, Nat.add_right_comm] at hnext
        rw [hnext]
        cases xs <;> rfl)
      (fun i hi => by
        have hnext := hkey (i+1) (Nat.succ_lt_succ hi)
        rw [← Nat.add_assoc, Nat.add_right_comm] at hnext
        exact hnext)
    have hweave : weave xs (k :: ks) = xs.getD 0 [] ++ [k] ++ weave xs.tail ks := by
      cases xs with
      | nil => rfl
      | cons x xs => simp
    rw [hweave, List.length_cons, emitUp, hfirst, hk]
    rw [show lo+(ks.length+1) = lo+1+ks.length by omega]
    obtain ⟨out,hout,hlast⟩ := Option.bind_eq_some_iff.mp hrest
    obtain ⟨l,hl,hall⟩ := Option.map_eq_some_iff.mp hlast
    rw [hout, hl, ← hall]
    simp

theorem length_weave {xs : List (List α)} {ks : List α} (h : xs.length = ks.length+1) :
    (weave xs ks).length+1 = (xs.map fun x => x.length+1).sum := by
  induction ks generalizing xs with
  | nil =>
    obtain ⟨x,rfl⟩ := List.length_eq_one_iff.mp h
    simp
  | cons k ks ih =>
    obtain _ | ⟨x,xs⟩ := xs
    · simp at h
    · have hlen : xs.length = ks.length+1 := by simpa using h
      have hrest := ih hlen
      simp only [weave_cons_cons, List.length_append, List.length_cons, List.map_cons, List.sum_cons]
      omega

end ServerKit.Lib
