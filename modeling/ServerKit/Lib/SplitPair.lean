import Mathlib.Data.List.Basic
import Mathlib.Data.List.Infix

/-! Splitting a list at the places where an element is followed by a certain other one. -/
namespace ServerKit.Lib

variable {α : Type*}

/-- The pieces between the pairs of `c` and `d`. -/
def splitPair [DecidableEq α] (c d : α) : List α → List (List α)
  | [] => [[]]
  | [x] => [[x]]
  | x :: y :: s =>
    if x = c ∧ y = d then [] :: splitPair c d s else (splitPair c d (y :: s)).modifyHead (x :: ·)

/-- The pieces with the places where they start, the first of them at `i`. -/
def placed (i : ℕ) : List (List α) → List (ℕ × List α)
  | [] => []
  | l :: ls => (i,l) :: placed (i+l.length+2) ls

section Pieces
variable {c d x : α} {l : List α} {ls : List (List α)}

theorem intercalate_modifyHead (sep : List α) (x : α) (h : ls ≠ []) :
    sep.intercalate (ls.modifyHead (x :: ·)) = x :: sep.intercalate ls := by
  match ls with
  | [] => exact absurd rfl h
  | [l] => simp
  | l :: l' :: ls => simp

theorem not_pair_infix_cons (hhead : ¬ (x = c ∧ l.head? = some d)) (hl : ¬ [c,d] <:+: l) :
    ¬ [c,d] <:+: x :: l := by
  rw [List.infix_cons_iff]
  rintro (hstarts | hinfix)
  · obtain ⟨hx,t,rfl⟩ := List.cons_prefix_cons.mp hstarts
    exact hhead ⟨hx.symm,rfl⟩
  · exact hl hinfix

/-- No pair in either of two lists, and none where they meet. -/
theorem not_pair_infix_append {l' : List α} (hl : ¬ [c,d] <:+: l) (hl' : ¬ [c,d] <:+: l')
    (hmeet : l'.head? ≠ some d) : ¬ [c,d] <:+: l ++ l' := by
  induction l with
  | nil => exact hl'
  | cons x l ih =>
    refine not_pair_infix_cons ?_ (ih fun h => hl (h.trans (List.infix_cons List.infix_rfl)))
    rintro ⟨hx,hhead⟩
    cases l with
    | nil => exact hmeet hhead
    | cons y l => exact hl ⟨[],l,by rw [hx, ← Option.some.inj hhead]; rfl⟩

theorem not_pair_infix_short (hl : l.length < 2) : ¬ [c,d] <:+: l :=
  fun h => absurd h.length_le (Nat.not_le.mpr hl)

/-- A list that the pair comes at the beginning of. -/
theorem head_pair (hx : x = c) (hhead : l.head? = some d) : [c,d] <:+: x :: l := by
  cases l with
  | nil => cases hhead
  | cons y l =>
    obtain rfl := Option.some.inj hhead
    exact ⟨[],l,by rw [hx]; rfl⟩

theorem placed_map_snd (i : ℕ) (ls : List (List α)) : (placed i ls).map Prod.snd = ls := by
  induction ls generalizing i with
  | nil => rfl
  | cons l ls ih => exact congrArg (l :: ·) (ih _)

end Pieces

section Split
variable [DecidableEq α] {c d x b : α} {l s : List α}

theorem splitPair_ne_nil (c d : α) (s : List α) : splitPair c d s ≠ [] := by
  fun_induction splitPair c d s with
  | case1 => exact List.cons_ne_nil _ _
  | case2 => exact List.cons_ne_nil _ _
  | case3 => exact List.cons_ne_nil _ _
  | case4 x y s hne ih => rwa [ne_eq, List.modifyHead_eq_nil_iff]

@[simp] theorem splitPair_pair (c d : α) (s : List α) :
    splitPair c d (c :: d :: s) = [] :: splitPair c d s :=
  if_pos ⟨rfl,rfl⟩

theorem splitPair_cons (h : ¬ (x = c ∧ s.head? = some d)) :
    splitPair c d (x :: s) = (splitPair c d s).modifyHead (x :: ·) := by
  cases s with
  | nil => rfl
  | cons y s =>
    apply if_neg
    rintro ⟨hx,rfl⟩
    exact h ⟨hx,rfl⟩

/-- What begins with the first piece. -/
theorem exists_splitPair (c d : α) (s : List α) : ∃ l ls, splitPair c d s = l :: ls ∧ l <+: s := by
  fun_induction splitPair c d s with
  | case1 => exact ⟨[],[],rfl,List.prefix_rfl⟩
  | case2 x => exact ⟨[x],[],rfl,List.prefix_rfl⟩
  | case3 => exact ⟨[],_,rfl,List.nil_prefix⟩
  | case4 x y s hne ih =>
    obtain ⟨l,ls,heq,hstarts⟩ := ih
    refine ⟨x :: l,ls,?_,(List.prefix_cons_inj x).mpr hstarts⟩
    rw [heq]
    rfl

/-- The pieces are joined to the list. -/
theorem intercalate_splitPair (c d : α) (s : List α) : [c,d].intercalate (splitPair c d s) = s := by
  fun_induction splitPair c d s with
  | case1 => rfl
  | case2 x => rfl
  | case3 x y s hpair ih =>
    obtain ⟨rfl,rfl⟩ := hpair
    rw [List.intercalate_cons_of_ne_nil (splitPair_ne_nil _ _ s), ih]
    rfl
  | case4 x y s hne ih => rw [intercalate_modifyHead _ _ (splitPair_ne_nil _ _ _), ih]

theorem not_pair_infix_of_mem : ∀ l ∈ splitPair c d s, ¬ [c,d] <:+: l := by
  fun_induction splitPair c d s with
  | case1 => exact List.forall_mem_singleton.mpr (not_pair_infix_short Nat.zero_lt_two)
  | case2 x => exact List.forall_mem_singleton.mpr (not_pair_infix_short Nat.one_lt_two)
  | case3 x y s hpair ih => exact List.forall_mem_cons.mpr ⟨not_pair_infix_short Nat.zero_lt_two,ih⟩
  | case4 x y s hne ih =>
    obtain ⟨l,ls,heq,hstarts⟩ := exists_splitPair c d (y :: s)
    rw [heq, List.forall_mem_cons] at ih
    rw [heq]
    refine List.forall_mem_cons.mpr ⟨not_pair_infix_cons ?_ ih.1,ih.2⟩
    rintro ⟨hx,hhead⟩
    obtain ⟨t,ht⟩ := hstarts
    cases l with
    | nil => cases hhead
    | cons z l =>
      obtain rfl : z = d := Option.some.inj hhead
      exact hne ⟨hx,(List.cons.inj ht).1.symm⟩

/-- A piece without the pair is the first one when the pair comes behind it. -/
theorem splitPair_append (hcd : c ≠ d) (hl : ¬ [c,d] <:+: l) (s : List α) :
    splitPair c d (l ++ c :: d :: s) = l :: splitPair c d s := by
  induction l with
  | nil => exact splitPair_pair c d s
  | cons x l ih =>
    have hhead : ¬ (x = c ∧ (l ++ c :: d :: s).head? = some d) := by
      rintro ⟨hx,hhead⟩
      cases l with
      | nil => exact hcd (Option.some.inj hhead)
      | cons y l => exact hl (head_pair hx hhead)
    rw [List.cons_append, splitPair_cons hhead, ih fun h => hl (h.trans (List.infix_cons List.infix_rfl))]
    rfl

/-- Pieces that the pair comes behind, one after the other. -/
theorem splitPair_flatten (hcd : c ≠ d) {ls : List (List α)} (hls : ∀ l ∈ ls, ¬ [c,d] <:+: l)
    (s : List α) : splitPair c d ((ls.map fun l => l ++ [c,d]).flatten ++ s) = ls ++ splitPair c d s := by
  induction ls with
  | nil => rfl
  | cons l ls ih =>
    have hrest := ih fun x hx => hls x (.tail _ hx)
    rw [List.map_cons, List.flatten_cons, List.append_assoc, List.append_assoc]
    exact (splitPair_append hcd (hls l (.head _)) _).trans (congrArg (l :: ·) hrest)

theorem splitPair_of_not_infix (hl : ¬ [c,d] <:+: l) : splitPair c d l = [l] := by
  induction l with
  | nil => rfl
  | cons x l ih =>
    have hhead : ¬ (x = c ∧ l.head? = some d) := fun h => hl (head_pair h.1 h.2)
    rw [splitPair_cons hhead, ih fun h => hl (h.trans (List.infix_cons List.infix_rfl))]
    rfl

/-- A list begins with the pair if the first of several pieces is empty. -/
theorem pair_starts_iff : [c,d] <+: s ↔ ∃ l ls, splitPair c d s = [] :: l :: ls := by
  constructor
  · rintro ⟨t,rfl⟩
    obtain ⟨l,ls,heq,-⟩ := exists_splitPair c d t
    exact ⟨l,ls,by rw [← heq]; exact splitPair_pair c d t⟩
  · rintro ⟨l,ls,heq⟩
    match s with
    | [] => cases heq
    | [x] => cases heq
    | x :: y :: s =>
      by_cases hpair : x = c ∧ y = d
      · obtain ⟨rfl,rfl⟩ := hpair
        exact ⟨s,rfl⟩
      · obtain ⟨l',ls',heq',-⟩ := exists_splitPair c d (y :: s)
        rw [splitPair, if_neg hpair, heq'] at heq
        cases heq

/-- What is in no pair is in a piece, at its place. -/
theorem exists_placed {i : ℕ} (j : ℕ) (hi : s[i]? = some b) (hfirst : ¬ (b = c ∧ s[i+1]? = some d))
    (hsecond : ¬ (b = d ∧ 0 < i ∧ s[i-1]? = some c)) :
    ∃ p ∈ placed j (splitPair c d s), p.1 ≤ i+j ∧ p.2[i+j-p.1]? = some b := by
  fun_induction splitPair c d s generalizing i j with
  | case1 => cases hi
  | case2 x =>
    cases i with
    | zero => exact ⟨(j,[x]),List.mem_singleton_self _,by omega,by simpa using hi⟩
    | succ i => cases hi
  | case3 x y s hpair ih =>
    obtain ⟨rfl,rfl⟩ := hpair
    match i with
    | 0 => exact absurd ⟨(Option.some.inj hi).symm,rfl⟩ hfirst
    | 1 => exact absurd ⟨(Option.some.inj hi).symm,Nat.zero_lt_one,rfl⟩ hsecond
    | i+2 =>
      have hsecond' : ¬ (b = y ∧ 0 < i ∧ s[i-1]? = some x) := by
        rintro ⟨hb,hpos,hprev⟩
        obtain ⟨i,rfl⟩ := Nat.exists_eq_add_of_lt hpos
        refine hsecond ⟨hb,by omega,?_⟩
        simpa using hprev
      obtain ⟨p,hmem,hle,hp⟩ := ih (j+2) hi hfirst hsecond'
      have hsum : i+2+j = i+(j+2) := by omega
      exact ⟨p,List.mem_cons_of_mem _ hmem,by omega,by rwa [hsum]⟩
  | case4 x y s hne ih =>
    obtain ⟨l₀,ls,heq,hstarts⟩ := exists_splitPair c d (y :: s)
    rw [heq] at ih ⊢
    cases i with
    | zero =>
      obtain rfl : x = b := Option.some.inj hi
      exact ⟨(j,x :: l₀),List.mem_cons_self,by omega,by simp⟩
    | succ i =>
      have hsecond' : ¬ (b = d ∧ 0 < i ∧ (y :: s)[i-1]? = some c) := by
        rintro ⟨hb,hpos,hprev⟩
        obtain ⟨i,rfl⟩ := Nat.exists_eq_add_of_lt hpos
        refine hsecond ⟨hb,by omega,?_⟩
        simpa using hprev
      have hsum : i+1+j = i+(j+1) := by omega
      obtain ⟨p,hmem,hle,hp⟩ := ih (j+1) hi hfirst hsecond'
      rw [hsum]
      obtain rfl | hmem := List.mem_cons.mp hmem
      · refine ⟨(j,x :: l₀),List.mem_cons_self,by omega,?_⟩
        have hsub : i+(j+1)-j = i+(j+1)-(j+1)+1 := by omega
        rwa [hsub, List.getElem?_cons_succ]
      · refine ⟨p,?_,hle,hp⟩
        have hplace : j+(x :: l₀).length+2 = j+1+l₀.length+2 := by rw [List.length_cons]; omega
        change p ∈ _ :: placed (j+(x :: l₀).length+2) ls
        rw [hplace]
        exact List.mem_cons_of_mem _ hmem

end Split
end ServerKit.Lib
