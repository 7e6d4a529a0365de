import ServerKit.BTree.DeleteRel
import Mathlib.Data.List.TakeWhile

/-! When a deletion keeps the keys in order. The code overwrites a separator with the last key of its
left child or the first key of its right child; in a child that is not a leaf this key need not be
the neighbour of the separator in the order. -/
namespace ServerKit.BTree
open ServerKit.Lib

/-- Every key that a deletion copies over a separator is the greatest key of the left subtree or the
least key of the right subtree it comes from. -/
def CopiesExtreme (t : ℕ) : (h : ℕ) → Tree h → ℤ → Prop
  | 0,_,_ => True
  | h+1,n,k =>
    let i := (n.keys.takeWhile (· < k)).length
    match n.kids.drop i with
    | [] => True
    | L :: S => match n.keys.drop i,S with
      | s :: _,R :: _ =>
        if s = k then
          if t ≤ L.keys.length then
            ∀ m ∈ L.keys.getLast?, (∀ x ∈ inorder L, x ≤ m) ∧ CopiesExtreme t h L m
          else if t ≤ R.keys.length then
            ∀ m ∈ R.keys.head?, (∀ x ∈ inorder R, m ≤ x) ∧ CopiesExtreme t h R m
          else CopiesExtreme t h (join L k R) k
        else CopiesExtreme t h L k
      | _,_ => CopiesExtreme t h L k

theorem takeWhile_lt {A B : List ℤ} {k : ℤ} (hA : ∀ a ∈ A, a < k) (hB : ∀ b ∈ B.head?, k ≤ b) :
    (A ++ B).takeWhile (· < k) = A := by
  rw [List.takeWhile_append_of_pos (by simpa using hA)]
  obtain _ | ⟨b,B⟩ := B
  · simp
  · have hb : ¬ b < k := not_lt.mpr (hB b rfl)
    simp [hb]

section Unfold
variable {t h : ℕ} {p : Ptr} {A B : List ℤ} {k : ℤ} {P S : List (Tree h)} {L R c : Tree h}

theorem copies_found (hA : ∀ a ∈ A, a < k) (hP : P.length = A.length) :
    CopiesExtreme t (h+1) (⟨p,A ++ k :: B,P ++ L :: R :: S⟩ : Tree (h+1)) k ↔
      if t ≤ L.keys.length then
        ∀ m ∈ L.keys.getLast?, (∀ x ∈ inorder L, x ≤ m) ∧ CopiesExtreme t h L m
      else if t ≤ R.keys.length then
        ∀ m ∈ R.keys.head?, (∀ x ∈ inorder R, m ≤ x) ∧ CopiesExtreme t h R m
      else CopiesExtreme t h (join L k R) k := by
  have htake : (A ++ k :: B).takeWhile (· < k) = A := takeWhile_lt hA (by simp)
  simp only [CopiesExtreme, htake, List.drop_left]
  rw [← hP, List.drop_left]
  simp

theorem copies_down (hA : ∀ a ∈ A, a < k) (hB : ∀ b ∈ B.head?, k < b) (hP : P.length = A.length) :
    CopiesExtreme t (h+1) (⟨p,A ++ B,P ++ c :: S⟩ : Tree (h+1)) k ↔ CopiesExtreme t h c k := by
  have htake : (A ++ B).takeWhile (· < k) = A := takeWhile_lt hA fun b hb => (hB b hb).le
  simp only [CopiesExtreme, htake, List.drop_left]
  rw [← hP, List.drop_left]
  obtain _ | ⟨b,B⟩ := B
  · simp
  · have hb : b ≠ k := (hB b rfl).ne'
    obtain _ | ⟨R,S⟩ := S
    · simp
    · simp [hb]

end Unfold

/-- Where the search stops among the keys of a node. -/
theorem exists_split_lt (ks : List ℤ) (k : ℤ) : ∃ A B, ks = A ++ B ∧ (∀ a ∈ A, a < k) ∧
    ∀ b ∈ B.head?, k ≤ b := by
  refine ⟨ks.takeWhile (· < k),ks.dropWhile (· < k),List.takeWhile_append_dropWhile.symm,?_,?_⟩
  · intro a ha
    simpa using List.mem_takeWhile_imp ha
  · intro b hb
    have hnot := List.head?_dropWhile_not (· < k) ks
    rw [Option.mem_def.mp hb] at hnot
    simpa using hnot

section Join
variable {t h : ℕ} {c l r : Tree h} {k m : ℤ}

/-- What is joined behind the search key does not matter. -/
theorem copies_join_left (hc : h ≠ 0 → c.kids.length = c.keys.length+1) (hm : k < m) :
    CopiesExtreme t h (join c m r) k ↔ CopiesExtreme t h c k := by
  cases h with
  | zero => exact Iff.rfl
  | succ h =>
    obtain ⟨p,ks,cs⟩ := c
    obtain ⟨A,B,rfl,hA,hB⟩ := exists_split_lt ks k
    obtain ⟨P,d,S,rfl,hP,hS⟩ := exists_kid (hc (Nat.succ_ne_zero h))
    have hjoin : join (⟨p,A ++ B,P ++ d :: S⟩ : Tree (h+1)) m r =
        ⟨p,A ++ (B ++ m :: r.keys),P ++ d :: (S ++ r.kids)⟩ := by simp [join]
    rw [hjoin]
    obtain _ | ⟨b,B⟩ := B
    · rw [copies_down hA (by simpa using hm) hP, copies_down hA (by simp) hP]
    · obtain rfl | hlt := (hB b rfl).eq_or_lt
      · obtain _ | ⟨R,S⟩ := S
        · simp at hS
        · rw [List.cons_append, List.cons_append, copies_found hA hP, copies_found hA hP]
      · rw [copies_down hA (by simpa using hlt) hP, copies_down hA (by simpa using hlt) hP]

/-- What is joined before the search key does not matter. -/
theorem copies_join_right (hl : h ≠ 0 → l.kids.length = l.keys.length+1)
    (hc : h ≠ 0 → c.kids.length = c.keys.length+1) (hlk : ∀ a ∈ l.keys, a < k) (hm : m < k) :
    CopiesExtreme t h (join l m c) k ↔ CopiesExtreme t h c k := by
  cases h with
  | zero => exact Iff.rfl
  | succ h =>
    obtain ⟨p,ks,cs⟩ := c
    obtain ⟨A,B,rfl,hA,hB⟩ := exists_split_lt ks k
    obtain ⟨P,d,S,rfl,hP,hS⟩ := exists_kid (hc (Nat.succ_ne_zero h))
    have hjoin : join l m (⟨p,A ++ B,P ++ d :: S⟩ : Tree (h+1)) =
        ⟨l.ptr,(l.keys ++ m :: A) ++ B,(l.kids ++ P) ++ d :: S⟩ := by simp [join]
    have hA' : ∀ a ∈ l.keys ++ m :: A, a < k := by
      intro a ha
      simp only [List.mem_append, List.mem_cons] at ha
      obtain ha | rfl | ha := ha
      · exact hlk a ha
      · exact hm
      · exact hA a ha
    have hP' : (l.kids ++ P).length = (l.keys ++ m :: A).length := by
      have harity := hl (Nat.succ_ne_zero h)
      simp only [List.length_append, List.length_cons]
      omega
    rw [hjoin]
    obtain _ | ⟨b,B⟩ := B
    · rw [copies_down hA' (by simp) hP', copies_down hA (by simp) hP]
    · obtain rfl | hlt := (hB b rfl).eq_or_lt
      · obtain _ | ⟨R,S⟩ := S
        · simp at hS
        · rw [copies_found hA' hP', copies_found hA hP]
      · rw [copies_down hA' (by simpa using hlt) hP', copies_down hA (by simpa using hlt) hP]

/-- The refill of a child changes nothing for the keys that are copied below it. -/
theorem Refill.copies_iff {s s' : Spot h} (hr : Refill t s s') (hfit : s.Fit t)
    (hc : Fits t (h+1) s.kid) (hs : (s.before ++ inorder s.kid ++ s.after).Pairwise (· ≤ ·))
    (hA : ∀ a ∈ s.keysL, a < k) (hB : ∀ b ∈ s.keysR.head?, k < b) :
    CopiesExtreme t h s'.kid k ↔ CopiesExtreme t h s.kid k := by
  have harity := (fits_iff.mp hc).2.arity
  cases hr with
  | enough hne => exact Iff.rfl
  | @fromNext A B P S c e r m x he hck hrk => exact copies_join_left harity (hB m rfl)
  | @fromPrev A B P S c e l m x he hck hlk =>
    exact copies_join_right he.arity harity (by simp [he.keys]) (hA m (by simp))
  | @mergePrev A B P S c l m hck hlk =>
    have hlfit := (fits_iff.mp (hfit.kidsL l (by simp))).2
    refine copies_join_right hlfit.arity harity (fun a ha => ?_) (hA m (by simp))
    have hbefore := (Spot.strict hfit hs hA hB).1
    have hP : (P.map inorder).length = A.length := by simpa using hfit.left
    simp only [Spot.before, List.map_append, List.map_singleton, weave_snoc hP] at hbefore
    exact hbefore a (by simp [mem_inorder_of_mem_keys ha])
  | @mergeNext A B P S c r m hck hrk => exact copies_join_left harity (hB m rfl)

end Join

namespace Del
variable {t h : ℕ} {n n' : Tree h} {k : ℤ} {b : Bool}

/-- What is left of the keys was there before. -/
theorem keys_subset (hdel : Del t n k n' b) (ht : 1 ≤ t) (hn : FitsBelow t n)
    (hs : (inorder n).Pairwise (· ≤ ·)) (hk : k ∈ inorder n) : inorder n' ⊆ inorder n := fun _ hx =>
  (hdel.keys_of_mem ht hn hs hk).1.symm.subset (List.mem_cons_of_mem _ hx)

/-- The keys stay in order exactly if every copied key is an extreme one. -/
theorem sorted_iff (hdel : Del t n k n' b) (ht : 1 ≤ t) (hn : FitsBelow t n)
    (hs : (inorder n).Pairwise (· ≤ ·)) (hk : k ∈ inorder n) :
    (inorder n').Pairwise (· ≤ ·) ↔ CopiesExtreme t h n k := by
  induction hdel with
  | @leafHit p A B k hA =>
    refine iff_of_true ?_ trivial
    have hs' : (A ++ k :: B).Pairwise (· ≤ ·) := hs
    exact hs'.sublist ((List.sublist_cons_self k B).append_left A)
  | leafMiss hA hB => exact iff_of_true hs trivial
  | @fromLeft h p A B lk k s P S L L' R b hA hP hL hlk del ih =>
    obtain ⟨hS,hLfit,-⟩ := (fitsBelow_focus hP).mp hn
    have hLb := (fits_iff.mp hLfit).2
    have hmem : s ∈ inorder L := mem_inorder_of_mem_keys (by simp [hlk])
    rw [inorder_separator p k hP] at hs
    have hmid := pairwise_middle hs
    have hLs := (List.pairwise_append.mp hmid).1
    obtain ⟨hperm,-⟩ := del.keys_of_mem ht hLb hLs hmem
    have hsub : inorder L' ++ s :: inorder R ⊆ inorder L ++ k :: inorder R := by
      intro x hx
      simp only [List.mem_append, List.mem_cons] at hx ⊢
      obtain hx | rfl | hx := hx
      · exact .inl (del.keys_subset ht hLb hLs hmem hx)
      · exact .inl hmem
      · exact .inr (.inr hx)
    rw [inorder_separator p s hP, pairwise_replace hs hsub, copies_found hA hP, if_pos hL, hlk]
    simp only [List.getLast?_concat, Option.mem_def, Option.some.injEq, forall_eq']
    rw [← ih hLb hLs hmem]
    exact pairwise_pivot_left hmid hperm
  | @fromRight h p A B rk k s P S L R R' b hA hP hL hR hrk del ih =>
    obtain ⟨hS,-,-,hS'⟩ := (fitsBelow_focus hP).mp hn
    have hRb := (fits_iff.mp (hS' R List.mem_cons_self)).2
    have hmem : s ∈ inorder R := mem_inorder_of_mem_keys (by simp [hrk])
    rw [inorder_separator p k hP] at hs
    have hmid := pairwise_middle hs
    have hRs := (List.pairwise_cons.mp (List.pairwise_append.mp hmid).2.1).2
    obtain ⟨hperm,-⟩ := del.keys_of_mem ht hRb hRs hmem
    have hsub : inorder L ++ s :: inorder R' ⊆ inorder L ++ k :: inorder R := by
      intro x hx
      simp only [List.mem_append, List.mem_cons] at hx ⊢
      obtain hx | rfl | hx := hx
      · exact .inl hx
      · exact .inr (.inr hmem)
      · exact .inr (.inr (del.keys_subset ht hRb hRs hmem hx))
    rw [inorder_separator p s hP, pairwise_replace hs hsub, copies_found hA hP,
      if_neg (not_le.mpr hL), if_pos hR, hrk]
    simp only [List.head?_cons, Option.mem_def, Option.some.injEq, forall_eq']
    rw [← ih hRb hRs hmem]
    exact pairwise_pivot_right hmid hperm
  | @merge h p A B k P S L R M b hA hP hL hR del ih =>
    obtain ⟨hS,hLfit,-,hS'⟩ := (fitsBelow_focus hP).mp hn
    have hLb := (fits_iff.mp hLfit).2
    have hJb := hLb.join (fits_iff.mp (hS' R List.mem_cons_self)).2 k
    have hmem : k ∈ inorder (join L k R) := mem_inorder_of_mem_keys (by simp [join])
    rw [inorder_separator p k hP, ← inorder_join k hLb.arity] at hs
    have hmid := pairwise_middle hs
    rw [inorder_focus p hP, pairwise_replace hs (del.keys_subset ht hJb hmid hmem),
      copies_found hA hP, if_neg (not_le.mpr hL), if_neg (not_le.mpr hR)]
    exact ih hJb hmid hmem
  | @down h p k s s' c b hA hB hP refill del ih =>
    obtain ⟨hfit,hc⟩ := (fitsBelow_page hP).mp hn
    obtain ⟨hfit',hc',-⟩ := refill.shape ht hfit hc
    have hcb' := (fits_iff.mp hc').2
    have hsame := refill.inorder_page_eq hfit hc
    rw [Spot.inorder_page p hP] at hs hk
    rw [Spot.inorder_page (s := { s' with kid := c }) p hfit'.left]
    obtain ⟨hX,hY⟩ := refill.strict hfit hc hs hA hB
    have hcopies := refill.copies_iff hfit hc hs hA hB
    rw [hsame] at hs hk
    have hmid := pairwise_middle hs
    have hmem : k ∈ inorder s'.kid := by
      simp only [List.mem_append] at hk
      obtain (hk | hk) | hk := hk
      · exact absurd (hX k hk) (lt_irrefl k)
      · exact hk
      · exact absurd (hY k hk) (lt_irrefl k)
    have hunfold : CopiesExtreme t (h+1) (s.page p) k ↔ CopiesExtreme t h s.kid k :=
      copies_down hA hB hP
    rw [hunfold, ← hcopies, ← ih hcb' hmid hmem]
    exact pairwise_replace hs (del.keys_subset ht hcb' hmid hmem)

end Del
end ServerKit.BTree
