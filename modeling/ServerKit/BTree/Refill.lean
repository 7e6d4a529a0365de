import ServerKit.BTree.Siblings

/-! The refill that `btree_delete_key` makes before it enters a child of `t-1` keys, on the store. -/
namespace ServerKit.BTree
open ServerKit.Lib Btree

variable {T : Btree} {h : ℕ}

/-- The first key of a node, with the subtree before it. -/
theorem exists_first {t : ℕ} {R : Tree h} (hR : FitsBelow t R) (hne : R.keys ≠ []) :
    ∃ e x r, R = join e x r ∧ Edge e ∧ e.ptr = R.ptr ∧ r.ptr = R.ptr := by
  obtain ⟨p,ks,cs⟩ := R
  obtain ⟨x,rk,rfl⟩ := List.exists_cons_of_ne_nil hne
  cases h with
  | zero =>
    refine ⟨⟨p,[],[]⟩,x,⟨p,rk,[]⟩,?_,⟨rfl,fun h0 => absurd rfl h0⟩,rfl,rfl⟩
    rw [show cs = [] from kids_eq_nil ⟨p,x :: rk,cs⟩]
    rfl
  | succ h =>
    have harity := hR.arity (Nat.succ_ne_zero h)
    obtain _ | ⟨c,cs⟩ := cs
    · simp at harity
    · exact ⟨⟨p,[],[c]⟩,x,⟨p,rk,cs⟩,rfl,⟨rfl,fun _ => rfl⟩,rfl,rfl⟩

/-- The last key of a node, with the subtree behind it under any address. -/
theorem exists_last {t : ℕ} {L : Tree h} (q : Ptr) (hL : FitsBelow t L) (hne : L.keys ≠ []) :
    ∃ l x e, L = join l x e ∧ Edge e ∧ e.ptr = q ∧ l.ptr = L.ptr := by
  obtain ⟨p,ks,cs⟩ := L
  obtain ⟨lk,x,rfl⟩ := List.eq_nil_or_concat' ks |>.resolve_left hne
  cases h with
  | zero =>
    refine ⟨⟨p,lk,[]⟩,x,⟨q,[],[]⟩,?_,⟨rfl,fun h0 => absurd rfl h0⟩,rfl,rfl⟩
    rw [show cs = [] from kids_eq_nil ⟨p,lk ++ [x],cs⟩]
    rfl
  | succ h =>
    have harity := hL.arity (Nat.succ_ne_zero h)
    obtain rfl | ⟨cs,c,rfl⟩ := List.eq_nil_or_concat' cs
    · simp at harity
    · exact ⟨⟨p,lk,cs⟩,x,⟨q,[],[c]⟩,rfl,⟨rfl,fun _ => rfl⟩,rfl,rfl⟩

/-- Which branch `refill` takes for a child of `t-1` keys that has a sibling. -/
theorem refill_cases {node child : Ptr} {idx : ℕ} (hc : T.num child = T.t-1)
    (left right : Ptr) (hl : (if 1 ≤ idx then T.child node (idx-1) else 0) = left)
    (hr : (if idx+1 ≤ T.num node then T.child node (idx+1) else 0) = right)
    (hlnum : left ≠ 0 → T.t-1 ≤ T.num left) (hrnum : right ≠ 0 → T.t-1 ≤ T.num right)
    (hsome : left ≠ 0 ∨ right ≠ 0) :
    (right ≠ 0 ∧ T.t ≤ T.num right ∧
        refill T node idx child = (borrowFromNext T node idx child right,child)) ∨
      (left ≠ 0 ∧ T.t ≤ T.num left ∧
        refill T node idx child = (borrowFromPrev T node idx child left,child)) ∨
      (left ≠ 0 ∧ T.num left = T.t-1 ∧ refill T node idx child = (btreeMerge T node (idx-1),left)) ∨
      (right ≠ 0 ∧ T.num right = T.t-1 ∧ refill T node idx child = (btreeMerge T node idx,child)) := by
  rw [refill, if_pos hc]
  simp only [hl, hr]
  generalize hR : (if left ≠ 0 ∧ right ≠ 0 then decide (T.num right > T.num left)
    else decide (right ≠ 0)) = richR
  split
  · split
    · next hright => exact .inl ⟨hright.1,hright.2.1,rfl⟩
    · next hrich hright =>
      refine .inr (.inl ?_)
      obtain ⟨h0,hnum⟩ | ⟨h0,hnum⟩ := hrich
      · exact ⟨h0,hnum,rfl⟩
      · -- the left sibling has at least as many keys as the right one
        have hle : left ≠ 0 ∧ T.num right ≤ T.num left := by
          by_contra hnot
          refine hright ⟨h0,hnum,?_⟩
          rw [← hR]
          split
          · next hboth => simpa using fun hle => hnot ⟨hboth.1,hle⟩
          · simpa using h0
        exact ⟨hle.1,hnum.trans hle.2,rfl⟩
  · next hpoor =>
    have hlt : ∀ q, (q = left ∨ q = right) → q ≠ 0 → T.num q = T.t-1 := by
      rintro q (rfl | rfl) h0
      · have hnot : ¬ T.t ≤ T.num q := fun hle => hpoor (.inl ⟨h0,hle⟩)
        have hge := hlnum h0
        omega
      · have hnot : ¬ T.t ≤ T.num q := fun hle => hpoor (.inr ⟨h0,hle⟩)
        have hge := hrnum h0
        omega
    have hboth : (left = 0 ∨ T.num left = T.t-1) ∧ (right = 0 ∨ T.num right = T.t-1) :=
      ⟨or_iff_not_imp_left.mpr (hlt left (.inl rfl)),or_iff_not_imp_left.mpr (hlt right (.inr rfl))⟩
    rw [if_pos hboth]
    split
    · next hleft => exact .inr (.inr (.inl ⟨hleft.1,hleft.2,rfl⟩))
    · next hleft =>
      have hright : right ≠ 0 :=
        hsome.resolve_left fun h0 => hleft ⟨h0,hlt left (.inl rfl) h0⟩
      have hnum := hlt right (.inr rfl) hright
      exact .inr (.inr (.inr ⟨hright,hnum,by rw [if_pos ⟨hright,hnum⟩]⟩))

section Siblings
variable {p : Ptr} {A B : List ℤ} {P S : List (Tree h)} {c : Tree h}

theorem left_sibling (hn : Rep T (⟨p,A ++ B,P ++ c :: S⟩ : Tree (h+1))) (hP : P.length = A.length)
    {left : Ptr} (hl : (if 1 ≤ A.length then T.child p (A.length-1) else 0) = left) :
    (A = [] ∧ left = 0) ∨ ∃ A' m P' l, A = A' ++ [m] ∧ P = P' ++ [l] ∧ left = l.ptr ∧
      left ≠ 0 ∧ T.num left = l.keys.length := by
  obtain rfl | ⟨A',m,rfl⟩ := A.eq_nil_or_concat'
  · exact .inl ⟨rfl,hl.symm⟩
  · obtain rfl | ⟨P',l,rfl⟩ := P.eq_nil_or_concat'
    · simp at hP
    · have hn' : Rep T (⟨p,A' ++ [m] ++ B,P' ++ l :: c :: S⟩ : Tree (h+1)) := by simpa using hn
      have hP' : A'.length = P'.length := by simpa using hP.symm
      obtain rfl : l.ptr = left := by
        rw [← hl, ← hn'.child]
        simp [hP']
      exact .inr ⟨A',m,P',l,rfl,rfl,rfl,hn'.kid.cell.ne_null,hn'.kid.cell.num⟩

theorem right_sibling (hn : Rep T (⟨p,A ++ B,P ++ c :: S⟩ : Tree (h+1))) (hP : P.length = A.length)
    (hS : S.length = B.length) {right : Ptr}
    (hr : (if A.length+1 ≤ T.num p then T.child p (A.length+1) else 0) = right) :
    (B = [] ∧ right = 0) ∨ ∃ m B' r S', B = m :: B' ∧ S = r :: S' ∧ right = r.ptr ∧ right ≠ 0 ∧
      T.num right = r.keys.length := by
  have hnum : T.num p = A.length+B.length := by rw [show T.num p = _ from hn.cell.num, List.length_append]
  obtain _ | ⟨m,B⟩ := B
  · refine .inl ⟨rfl,?_⟩
    rw [← hr, if_neg (by rw [hnum, List.length_nil]; omega)]
  · obtain _ | ⟨r,S⟩ := S
    · simp at hS
    · have hn' : Rep T (⟨p,A ++ m :: B,(P ++ [c]) ++ r :: S⟩ : Tree (h+1)) := by simpa using hn
      obtain rfl : r.ptr = right := by
        rw [← hr, ← hn'.child, hnum]
        simp [hP]
      exact .inr ⟨m,B,r,S,rfl,rfl,rfl,hn'.kid.cell.ne_null,hn'.kid.cell.num⟩

end Siblings

/-- The refill of the child that the search enters. -/
theorem refill_spec {p : Ptr} {s : Spot h} (ht : 2 ≤ T.t) (hn : Rep T (s.page p)) (hfit : s.Fit T.t)
    (hc : Fits T.t (h+1) s.kid) (hne : s.keysL ++ s.keysR ≠ []) :
    ∃ s', Refill T.t s s' ∧ (refill T p s.keysL.length s.kid.ptr).2 = s'.kid.ptr ∧
      (refill T p s.keysL.length s.kid.ptr).1.t = T.t ∧
      Entered T (refill T p s.keysL.length s.kid.ptr).1 (s.page p) s' := by
  obtain ⟨A,P,c,B,S⟩ := s
  obtain ⟨hP,hS,hPfit,hSfit⟩ := hfit
  obtain ⟨hcnum,hcb⟩ := fits_iff.mp hc
  dsimp only at hP hS hPfit hSfit hcnum hcb hne hn ⊢
  have hrep : Rep T (⟨p,A ++ B,P ++ c :: S⟩ : Tree (h+1)) := hn
  have hnum : T.num c.ptr = c.keys.length := hrep.kid.cell.num
  by_cases hmin : c.keys.length = T.t-1
  · obtain ⟨left,hl⟩ : ∃ left, (if 1 ≤ A.length then T.child p (A.length-1) else 0) = left := ⟨_,rfl⟩
    obtain ⟨right,hr⟩ : ∃ right,
      (if A.length+1 ≤ T.num p then T.child p (A.length+1) else 0) = right := ⟨_,rfl⟩
    have hleft := left_sibling hrep hP hl
    have hright := right_sibling hrep hP hS hr
    have hlnum : left ≠ 0 → T.t-1 ≤ T.num left := by
      intro h0
      obtain ⟨A',m,P',l,rfl,rfl,-,-,hlen⟩ := hleft.resolve_left fun hnil => h0 hnil.2
      rw [hlen]
      exact (fits_iff.mp (hPfit l (by simp))).1.1
    have hrnum : right ≠ 0 → T.t-1 ≤ T.num right := by
      intro h0
      obtain ⟨m,B',r,S',rfl,rfl,-,-,hlen⟩ := hright.resolve_left fun hnil => h0 hnil.2
      rw [hlen]
      exact (fits_iff.mp (hSfit r (by simp))).1.1
    have hsome : left ≠ 0 ∨ right ≠ 0 := by
      obtain ⟨hA,-⟩ | ⟨_,_,_,_,-,-,-,h0,-⟩ := hleft
      · obtain ⟨hB,-⟩ | ⟨_,_,_,_,-,-,-,h0,-⟩ := hright
        · exact absurd (by rw [hA, hB]; rfl) hne
        · exact .inr h0
      · exact .inl h0
    obtain ⟨h0,hge,hcode⟩ | ⟨h0,hge,hcode⟩ | ⟨h0,heq,hcode⟩ | ⟨h0,heq,hcode⟩ :=
      refill_cases (hnum.trans hmin) left right hl hr hlnum hrnum hsome
    · obtain ⟨m,B,r,S,rfl,rfl,rfl,-,hlen⟩ := hright.resolve_left fun hnil => h0 hnil.2
      rw [hlen] at hge
      have hrb := (fits_iff.mp (hSfit r (by simp))).2
      obtain ⟨e,x,r,rfl,he,hptr,hptr'⟩ := exists_first hrb (by rintro hnil; simp [hnil] at hge; omega)
      have hr_arity := (hrb.of_join he.arity).2.arity
      obtain ⟨hroot,hrep',hstep⟩ := borrowFromNext_spec hrep he (by rw [hptr, hptr']) (by omega)
        hcb.arity hr_arity
      rw [hcode]
      refine ⟨_,.fromNext he hmin ?_,rfl,hstep.t,.kept (by simp) hroot hrep' hstep⟩
      simpa [join,he.keys] using hge
    · obtain ⟨A,m,P,l,rfl,rfl,rfl,-,hlen⟩ := hleft.resolve_left fun hnil => h0 hnil.2
      rw [hlen] at hge
      have hlb := (fits_iff.mp (hPfit l (by simp))).2
      obtain ⟨l,x,e,rfl,he,hptr,hptr'⟩ := exists_last c.ptr hlb (by rintro hnil; simp [hnil] at hge; omega)
      have hpage : Spot.page ⟨A ++ [m],P ++ [join l x e],c,B,S⟩ p =
          ⟨p,A ++ m :: B,P ++ join l x e :: c :: S⟩ := by simp [Spot.page]
      have hpage' : Spot.page ⟨A ++ [x],P ++ [l],join e m c,B,S⟩ p =
          ⟨p,A ++ x :: B,P ++ l :: join e m c :: S⟩ := by simp [Spot.page]
      rw [hpage] at hn
      obtain ⟨hroot,hrep',hstep⟩ := borrowFromPrev_spec hn he hptr (by omega) hcb.arity
        (Refill.join_edge_arity he hlb)
      rw [hcode, List.length_append, List.length_singleton]
      refine ⟨_,.fromPrev he hmin ?_,hptr.symm,hstep.t,.kept (by simp) hroot ?_ ?_⟩
      · simpa [join,he.keys] using hge
      · rw [hpage, hpage']
        exact hrep'
      · rw [hpage, hpage']
        exact hstep
    · obtain ⟨A,m,P,l,rfl,rfl,rfl,-,hlen⟩ := hleft.resolve_left fun hnil => h0 hnil.2
      rw [hlen] at heq
      have hlb := (fits_iff.mp (hPfit l (by simp))).2
      have hpage : Spot.page ⟨A ++ [m],P ++ [l],c,B,S⟩ p = ⟨p,A ++ m :: B,P ++ l :: c :: S⟩ := by
        simp [Spot.page]
      rw [hpage] at hn
      obtain ⟨ht',-,hs⟩ := btreeMerge_spec hn (by simpa using hP) hS (by omega) (by omega)
        (fun h0 => by rw [hlb.arity h0]; omega) fun h0 => by rw [hcb.arity h0]; omega
      rw [hcode, List.length_append, List.length_singleton, Nat.add_sub_cancel, hpage]
      exact ⟨_,.mergePrev hmin heq,rfl,ht',hs⟩
    · obtain ⟨m,B,r,S,rfl,rfl,rfl,-,hlen⟩ := hright.resolve_left fun hnil => h0 hnil.2
      rw [hlen] at heq
      have hrb := (fits_iff.mp (hSfit r (by simp))).2
      obtain ⟨ht',-,hs⟩ := btreeMerge_spec hrep hP (by simpa using hS) (by omega) (by omega)
        (fun h0 => by rw [hcb.arity h0]; omega) fun h0 => by rw [hrb.arity h0]; omega
      rw [hcode]
      exact ⟨_,.mergeNext hmin heq,rfl,ht',hs⟩
  · have hskip : refill T p A.length c.ptr = (T,c.ptr) := by
      rw [refill, if_neg (by rwa [hnum])]
    rw [hskip]
    exact ⟨_,.enough hmin,rfl,rfl,.kept hne rfl hn (Step.refl T _)⟩

end ServerKit.BTree
