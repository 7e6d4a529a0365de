import ServerKit.BTree.Footprint

/-! Which nodes a deletion frees: the right one of two that are merged, and the root that has lost its last key. -/
namespace ServerKit.BTree
open Function ServerKit.Lib Btree

/-- How the store gets from the node `n` to the subtree `s.kid`, as in `Entered`, with the nodes that stay. -/
inductive Shrunk {h : ℕ} (T T' : Btree) (n : Tree (h+1)) (s : Spot h) : Prop
  | kept (num : s.keysL ++ s.keysR ≠ []) (root : T'.root = T.root) (rep : Rep T' (s.page n.ptr))
      (foot : Footprint T T' (ptrs n) (ptrs (s.page n.ptr)))
  | collapsed (num : n.keys.length = 1) (keysL : s.keysL = []) (kidsL : s.kidsL = [])
      (keysR : s.keysR = []) (kidsR : s.kidsR = []) (root : T'.root = s.kid.ptr) (rep : Rep T' s.kid)
      (foot : Footprint T T' (ptrs n) (ptrs s.kid))

section Merge
variable {T : Btree} {h : ℕ} {p : Ptr} {A B : List ℤ} {P S : List (Tree h)} {c e l r : Tree h} {m x : ℤ}

/-- A merge frees the right child, and the root if that has lost its last key. -/
theorem btreeMerge_shrunk (hn : Rep T (⟨p,A ++ m :: B,P ++ l :: r :: S⟩ : Tree (h+1)))
    (hP : P.length = A.length) (hS : S.length = B.length) (hl : l.keys.length+1 = T.t)
    (hr : r.keys.length+1 = T.t) (hlc : h ≠ 0 → l.kids.length = T.t)
    (hrc : h ≠ 0 → r.kids.length = T.t) :
    (btreeMerge T p A.length).t = T.t ∧
      Shrunk T (btreeMerge T p A.length) (⟨p,A ++ m :: B,P ++ l :: r :: S⟩ : Tree (h+1))
        ⟨A,P,join l m r,B,S⟩ := by
  obtain ⟨ht,-,hentered⟩ := btreeMerge_spec hn hP hS hl hr hlc hrc
  have hn' : Rep T (⟨p,A ++ m :: B,P ++ [l,r] ++ S⟩ : Tree (h+1)) := by simpa using hn
  obtain ⟨hpl,hpr,hlr⟩ := hn'.distinct
  have hn₂ : Rep T (⟨p,A ++ m :: B,(P ++ [l]) ++ r :: S⟩ : Tree (h+1)) := by simpa using hn
  have hchild_l : T.child p A.length = l.ptr := hP ▸ hn.child
  have hchild_r : T.child p (A.length+1) = r.ptr := by
    have hchild := hn₂.child
    rwa [List.length_append, List.length_singleton, hP] at hchild
  have hmerge := btreeMerge_merged hchild_l hchild_r hlr hpl
  have hfreed : (btreeMerge T p A.length).live r.ptr = false := by
    rw [btreeMerge_eq hchild_l hchild_r hlr hpl]
    dsimp only
    split
    · exact (update_of_ne hpr.symm ..).trans (update_self ..)
    · exact update_self ..
  have hnum : T.num p = (A ++ B).length+1 := by
    rw [show T.num p = _ from hn.cell.num, List.length_append, List.length_append, List.length_cons]
    rfl
  set T' := btreeMerge T p A.length
  have hold : ∀ q, q ∈ ptrs (⟨p,A ++ m :: B,P ++ l :: r :: S⟩ : Tree (h+1)) ↔
      (q = p ∨ q ∈ P.flatMap ptrs ∨ q ∈ S.flatMap ptrs) ∨ q ∈ ptrs (join l m r) ∨ q = r.ptr := by
    intro q
    rw [mem_pair, mem_join, mem_ptrs (r := r)]
    tauto
  have hne {q : Ptr} (hq : T'.live q = true) : q ≠ r.ptr := by
    rintro rfl
    cases hq.symm.trans hfreed
  refine ⟨ht,?_⟩
  cases hentered with
  | kept num root rep step =>
    have hpos := List.length_pos_iff.mpr num
    obtain ⟨-,hlive⟩ := hmerge.kept (by dsimp only at hpos; omega)
    refine .kept num root rep ⟨step,fun q hq => ?_⟩
    have hqr := hne hq
    rw [hlive q hqr] at hq
    rw [hold, Spot.page, mem_page]
    tauto
  | collapsed num keysL kidsL keysR kidsR root rep =>
    have hone : T.num p = 1 := hn.cell.num.trans num
    have hsub : ptrs (join l m r) ⊆ ptrs (⟨p,A ++ m :: B,P ++ l :: r :: S⟩ : Tree (h+1)) :=
      fun q hq => (hold q).mpr (.inr (.inl hq))
    have hl_mem : l.ptr ∈ ptrs (join l m r) := List.mem_cons_self
    refine .collapsed num keysL kidsL keysR kidsR root rep
      ⟨⟨hmerge.t,hmerge.next.ge,fun q hq hout => ?_,fun q hq => .inl (hsub hq)⟩,fun q hq => ?_⟩
    · rw [hold] at hout
      simp only [not_or] at hout
      have hql : q ≠ l.ptr := fun heq => hout.2.1 (heq ▸ hl_mem)
      exact ⟨hmerge.other q hout.1.1 hql,hmerge.live q hout.1.1 hout.2.2⟩
    · have hqr := hne hq
      have hqp : q ≠ p := by
        rintro rfl
        cases hq.symm.trans (hmerge.collapsed hone).2
      rw [hmerge.live q hqp hqr] at hq
      obtain rfl : P = [] := kidsL
      obtain rfl : S = [] := kidsR
      rw [hold]
      simp only [List.flatMap_nil, List.not_mem_nil, or_false]
      tauto

/-- A key is borrowed from the next child. -/
theorem borrowFromNext_shrunk (hn : Rep T (⟨p,A ++ m :: B,P ++ c :: join e x r :: S⟩ : Tree (h+1)))
    (he : Edge e) (hptr : r.ptr = e.ptr) (hnum : c.keys.length < 2*T.t-1)
    (hc : h ≠ 0 → c.kids.length = c.keys.length+1) (hr : h ≠ 0 → r.kids.length = r.keys.length+1) :
    (borrowFromNext T p A.length c.ptr e.ptr).t = T.t ∧
      Shrunk T (borrowFromNext T p A.length c.ptr e.ptr)
        (⟨p,A ++ m :: B,P ++ c :: join e x r :: S⟩ : Tree (h+1)) ⟨A,P,join c m e,x :: B,r :: S⟩ := by
  obtain ⟨hroot,hrep,hstep⟩ := borrowFromNext_spec hn he hptr hnum hc hr
  have hn' : Rep T (⟨p,A ++ m :: B,P ++ [c,join e x r] ++ S⟩ : Tree (h+1)) := by simpa using hn
  obtain ⟨-,hpr,hcr⟩ : p ≠ c.ptr ∧ p ≠ e.ptr ∧ c.ptr ≠ e.ptr := hn'.distinct
  have hlive : (borrowFromNext T p A.length c.ptr e.ptr).live = T.live := by
    rw [borrowFromNext_eq hpr hcr]
    rfl
  refine ⟨hstep.t,.kept (by simp) hroot hrep (.of_subset hstep hlive fun q hq => ?_)⟩
  rw [mem_pair, mem_join, mem_ptrs (r := e)] at hq
  rw [Spot.page, mem_pair, mem_join, mem_ptrs (r := r), hptr]
  tauto

/-- A key is borrowed from the child before. -/
theorem borrowFromPrev_shrunk (hn : Rep T (⟨p,A ++ m :: B,P ++ join l x e :: c :: S⟩ : Tree (h+1)))
    (he : Edge e) (hptr : e.ptr = c.ptr) (hnum : c.keys.length < 2*T.t-1)
    (hc : h ≠ 0 → c.kids.length = c.keys.length+1) (hl : h ≠ 0 → l.kids.length = l.keys.length+1) :
    (borrowFromPrev T p (A.length+1) c.ptr l.ptr).t = T.t ∧
      Shrunk T (borrowFromPrev T p (A.length+1) c.ptr l.ptr)
        (⟨p,A ++ m :: B,P ++ join l x e :: c :: S⟩ : Tree (h+1)) ⟨A ++ [x],P ++ [l],join e m c,B,S⟩ := by
  obtain ⟨hroot,hrep,hstep⟩ := borrowFromPrev_spec hn he hptr hnum hc hl
  have hn' : Rep T (⟨p,A ++ m :: B,P ++ [join l x e,c] ++ S⟩ : Tree (h+1)) := by simpa using hn
  obtain ⟨hpl,hpc,hlc⟩ : p ≠ l.ptr ∧ p ≠ c.ptr ∧ l.ptr ≠ c.ptr := hn'.distinct
  have hlive : (borrowFromPrev T p (A.length+1) c.ptr l.ptr).live = T.live := by
    rw [borrowFromPrev_eq hpc hpl hlc.symm]
    rfl
  have hpage : Spot.page ⟨A ++ [x],P ++ [l],join e m c,B,S⟩ p =
      ⟨p,A ++ x :: B,P ++ l :: join e m c :: S⟩ := by simp [Spot.page]
  have hfoot := Footprint.of_subset hstep hlive fun q hq => by
    rw [mem_pair, mem_join, mem_ptrs (r := c)] at hq
    rw [mem_pair, mem_join, mem_ptrs (r := e), hptr]
    tauto
  exact ⟨hstep.t,.kept (by simp) hroot (by rwa [hpage]) (by rwa [hpage])⟩

/-- The refill of the child that the search enters. -/
theorem refill_shrunk {s : Spot h} (ht : 2 ≤ T.t) (hn : Rep T (s.page p)) (hfit : s.Fit T.t)
    (hc : Fits T.t (h+1) s.kid) (hne : s.keysL ++ s.keysR ≠ []) :
    ∃ s', Refill T.t s s' ∧ (refill T p s.keysL.length s.kid.ptr).2 = s'.kid.ptr ∧
      (refill T p s.keysL.length s.kid.ptr).1.t = T.t ∧
      Shrunk T (refill T p s.keysL.length s.kid.ptr).1 (s.page p) s' := by
  obtain ⟨A,P,c,B,S⟩ := s
  obtain ⟨hP,hS,hPfit,hSfit⟩ := hfit
  obtain ⟨hcnum,hcb⟩ := fits_iff.mp hc
  dsimp only at hP hS hPfit hSfit hcnum hcb hne hn ⊢
  have hrep : Rep T (⟨p,A ++ B,P ++ c :: S⟩ : Tree (h+1)) := hn
  have hnum : T.num c.ptr = c.keys.length := hrep.kid.cell.num
  by_cases hmin : c.keys.length = T.t-1
  · obtain ⟨left,hl⟩ : ∃ left, (if 1 ≤ A.length then T.child p (A.length-1) else 0) = left := ⟨_,rfl⟩
    obtain ⟨right,hr⟩ : ∃ right,
      (if A.length+1 ≤ T.num p then T.child p (A.length+1) else 0) = right := ⟨_,rfl⟩
    have hleft := left_sibling hrep hP hl
    have hright := right_sibling hrep hP hS hr
    have hlnum : left ≠ 0 → T.t-1 ≤ T.num left := by
      intro h0
      obtain ⟨A',m,P',l,rfl,rfl,-,-,hlen⟩ := hleft.resolve_left fun hnil => h0 hnil.2
      rw [hlen]
      exact (fits_iff.mp (hPfit l (by simp))).1.1
    have hrnum : right ≠ 0 → T.t-1 ≤ T.num right := by
      intro h0
      obtain ⟨m,B',r,S',rfl,rfl,-,-,hlen⟩ := hright.resolve_left fun hnil => h0 hnil.2
      rw [hlen]
      exact (fits_iff.mp (hSfit r (by simp))).1.1
    have hsome : left ≠ 0 ∨ right ≠ 0 := by
      obtain ⟨hA,-⟩ | ⟨_,_,_,_,-,-,-,h0,-⟩ := hleft
      · obtain ⟨hB,-⟩ | ⟨_,_,_,_,-,-,-,h0,-⟩ := hright
        · exact absurd (by rw [hA, hB]; rfl) hne
        · exact .inr h0
      · exact .inl h0
    obtain ⟨h0,hge,hcode⟩ | ⟨h0,hge,hcode⟩ | ⟨h0,heq,hcode⟩ | ⟨h0,heq,hcode⟩ :=
      refill_cases (hnum.trans hmin) left right hl hr hlnum hrnum hsome
    · obtain ⟨m,B,r,S,rfl,rfl,rfl,-,hlen⟩ := hright.resolve_left fun hnil => h0 hnil.2
      rw [hlen] at hge
      have hrb := (fits_iff.mp (hSfit r (by simp))).2
      obtain ⟨e,x,r,rfl,he,hptr,hptr'⟩ := exists_first hrb (by rintro hnil; simp [hnil] at hge; omega)
      have hr_arity := (hrb.of_join he.arity).2.arity
      obtain ⟨ht',hs⟩ := borrowFromNext_shrunk hrep he (by rw [hptr, hptr']) (by omega) hcb.arity hr_arity
      rw [hcode]
      refine ⟨_,.fromNext he hmin ?_,rfl,ht',hs⟩
      simpa [join,he.keys] using hge
    · obtain ⟨A,m,P,l,rfl,rfl,rfl,-,hlen⟩ := hleft.resolve_left fun hnil => h0 hnil.2
      rw [hlen] at hge
      have hlb := (fits_iff.mp (hPfit l (by simp))).2
      obtain ⟨l,x,e,rfl,he,hptr,hptr'⟩ := exists_last c.ptr hlb (by rintro hnil; simp [hnil] at hge; omega)
      have hpage : Spot.page ⟨A ++ [m],P ++ [join l x e],c,B,S⟩ p =
          ⟨p,A ++ m :: B,P ++ join l x e :: c :: S⟩ := by simp [Spot.page]
      rw [hpage] at hn ⊢
      obtain ⟨ht',hs⟩ := borrowFromPrev_shrunk hn he hptr (by omega) hcb.arity
        (Refill.join_edge_arity he hlb)
      rw [hcode, List.length_append, List.length_singleton]
      refine ⟨_,.fromPrev he hmin ?_,hptr.symm,ht',hs⟩
      simpa [join,he.keys] using hge
    · obtain ⟨A,m,P,l,rfl,rfl,rfl,-,hlen⟩ := hleft.resolve_left fun hnil => h0 hnil.2
      rw [hlen] at heq
      have hlb := (fits_iff.mp (hPfit l (by simp))).2
      have hpage : Spot.page ⟨A ++ [m],P ++ [l],c,B,S⟩ p = ⟨p,A ++ m :: B,P ++ l :: c :: S⟩ := by
        simp [Spot.page]
      rw [hpage] at hn
      obtain ⟨ht',hs⟩ := btreeMerge_shrunk hn (by simpa using hP) hS (by omega) (by omega)
        (fun h0 => by rw [hlb.arity h0]; omega) fun h0 => by rw [hcb.arity h0]; omega
      rw [hcode, List.length_append, List.length_singleton, Nat.add_sub_cancel, hpage]
      exact ⟨_,.mergePrev hmin heq,rfl,ht',hs⟩
    · obtain ⟨m,B,r,S,rfl,rfl,rfl,-,hlen⟩ := hright.resolve_left fun hnil => h0 hnil.2
      rw [hlen] at heq
      have hrb := (fits_iff.mp (hSfit r (by simp))).2
      obtain ⟨ht',hs⟩ := btreeMerge_shrunk hrep hP (by simpa using hS) (by omega) (by omega)
        (fun h0 => by rw [hcb.arity h0]; omega) fun h0 => by rw [hrb.arity h0]; omega
      rw [hcode]
      exact ⟨_,.mergeNext hmin heq,rfl,ht',hs⟩
  · have hskip : refill T p A.length c.ptr = (T,c.ptr) := by
      rw [refill, if_neg (by rwa [hnum])]
    rw [hskip]
    exact ⟨_,.enough hmin,rfl,rfl,.kept hne rfl hn
      (.of_subset (Step.refl T _) rfl (List.Subset.refl _))⟩

end Merge

section Levels
variable {T : Btree} {h : ℕ} {p : Ptr} {A B : List ℤ} {P S : List (Tree h)} {c L R : Tree h} {k : ℤ}

/-- One call of `btree_delete_key` above the leaves: it goes on with another key in a subtree of `t` or more keys,
and what happens to this subtree happens to the node. -/
structure Level (T T₁ : Btree) (n : Tree (h+1)) (k : ℤ) (s : Spot h) (j : ℤ) : Prop where
  code : ∀ f, btreeDeleteKey (f+1) T n.ptr k = btreeDeleteKey f T₁ s.kid.ptr j
  t : T₁.t = T.t
  shrunk : Shrunk T T₁ n s
  fits : FitsBelow T.t s.kid
  num : T.t ≤ s.kid.keys.length
  del : ∀ c b, Del T.t s.kid j c b → Del T.t n k ({ s with kid := c }.page n.ptr) b

/-- A separator is overwritten with a key of the subtree `c` next to it. -/
theorem setKey_shrunk (hn : Rep T (⟨p,A ++ k :: B,P ++ c :: S⟩ : Tree (h+1))) {s : Spot h} {j : ℤ}
    (hpage : s.page p = ⟨p,A ++ j :: B,P ++ c :: S⟩) (hne : s.keysL ++ s.keysR ≠ []) :
    Shrunk T (T.setKey p A.length j) (⟨p,A ++ k :: B,P ++ c :: S⟩ : Tree (h+1)) s := by
  obtain ⟨hrep,hstep⟩ := hn.setKey j
  have hfoot : Footprint T (T.setKey p A.length j) _ _ := .of_subset hstep rfl (List.Subset.refl _)
  exact .kept hne rfl (by rwa [hpage]) (by rwa [hpage])

/-- The key is found above the leaves. -/
theorem found_level (ht : 2 ≤ T.t) (hn : Rep T (⟨p,A ++ k :: B,P ++ L :: R :: S⟩ : Tree (h+1)))
    (hfit : FitsBelow T.t (⟨p,A ++ k :: B,P ++ L :: R :: S⟩ : Tree (h+1))) (hP : P.length = A.length)
    (hS : S.length = B.length)
    (hscan : scanUp (fun i => k > T.key p i) 0 (T.num p) = A.length) (hA : ∀ a ∈ A, a < k) :
    ∃ T₁ s j, Level T T₁ (⟨p,A ++ k :: B,P ++ L :: R :: S⟩ : Tree (h+1)) k s j := by
  have hn₂ : Rep T (⟨p,A ++ k :: B,(P ++ [L]) ++ R :: S⟩ : Tree (h+1)) := by simpa using hn
  have hn' : Rep T (⟨p,A ++ k :: B,P ++ [L,R] ++ S⟩ : Tree (h+1)) := by simpa using hn
  obtain ⟨hpL,hpR,-⟩ := hn'.distinct
  obtain ⟨-,hLfit,-,hSfit⟩ := (fitsBelow_focus hP).mp hfit
  obtain ⟨hLnum,hLb⟩ := fits_iff.mp hLfit
  obtain ⟨hRnum,hRb⟩ := fits_iff.mp (hSfit R List.mem_cons_self)
  have hfound := hn.cell.found
  have hleaf : T.leaf p = false := hn.cell.leaf
  have hleft : T.child p A.length = L.ptr := hP ▸ hn.child
  have hright : T.child p (A.length+1) = R.ptr := by
    have hchild := hn₂.child
    rwa [List.length_append, List.length_singleton, hP] at hchild
  have hnumL : T.num L.ptr = L.keys.length := hn.kid.cell.num
  have hnumR : T.num R.ptr = R.keys.length := hn₂.kid.cell.num
  by_cases hL : T.t ≤ L.keys.length
  · obtain hnil | ⟨lk,j,hlk⟩ := L.keys.eq_nil_or_concat'
    · simp [hnil] at hL
      omega
    · have hj : T.key L.ptr (L.keys.length-1) = j := by
        have hcell := hn.kid.cell
        rw [hlk] at hcell ⊢
        simpa using hcell.key
      have hnode : (T.setKey p A.length j).node L.ptr = T.node L.ptr := modify_node_ne hpL.symm
      refine ⟨T.setKey p A.length j,⟨A,P,L,j :: B,R :: S⟩,j,fun f => ?_,rfl,setKey_shrunk hn rfl (by simp),
        hLb,hL,fun c b hdel => ?_⟩
      · have hnum' : (T.setKey p A.length j).num L.ptr = L.keys.length := by rw [num, hnode, ← hnumL, num]
        have hj' : (T.setKey p A.length j).key L.ptr (L.keys.length-1) = j := by rw [key, hnode, ← key, hj]
        rw [btreeDeleteKey, if_neg hn.cell.ne_null]
        simp only [hscan, eq_true hfound, hleaf, hleft, hnumL, ge_iff_le, eq_true hL, hj, hnum', hj',
          Bool.false_eq_true, if_true, if_false]
      · exact .fromLeft hA hP hL hlk hdel
  · by_cases hR : T.t ≤ R.keys.length
    · obtain ⟨j,rk,hrk⟩ := List.exists_cons_of_ne_nil (List.ne_nil_of_length_pos
        (show 0 < R.keys.length by omega))
      have hj : T.key R.ptr 0 = j := by
        have hcell := hn₂.kid.cell
        rw [hrk] at hcell
        exact Cell.key (A := []) hcell
      have hpage (c : Tree h) : Spot.page ⟨A ++ [j],P ++ [L],c,B,S⟩ p =
          ⟨p,A ++ j :: B,P ++ L :: c :: S⟩ := by simp [Spot.page]
      refine ⟨T.setKey p A.length j,⟨A ++ [j],P ++ [L],R,B,S⟩,j,fun f => ?_,rfl,
        setKey_shrunk hn (hpage R) (by simp),hRb,hR,fun c b hdel => ?_⟩
      · have hj' : (T.setKey p A.length j).key R.ptr 0 = j := by
          rw [key, show (T.setKey p A.length j).node R.ptr = _ from modify_node_ne hpR.symm, ← key, hj]
        rw [btreeDeleteKey, if_neg hn.cell.ne_null]
        simp only [hscan, eq_true hfound, hleaf, hleft, hright, hnumL, hnumR, ge_iff_le, eq_false hL,
          eq_true hR, hj, hj', Bool.false_eq_true, if_true, if_false]
      · rw [hpage c]
        exact .fromRight hA hP (not_le.mp hL) hR hrk hdel
    · have hlc (h0 : h ≠ 0) : L.kids.length = T.t := by rw [hLb.arity h0]; omega
      have hrc (h0 : h ≠ 0) : R.kids.length = T.t := by rw [hRb.arity h0]; omega
      obtain ⟨-,hchild₁,-⟩ := btreeMerge_spec hn hP hS (by omega) (by omega) hlc hrc
      obtain ⟨ht₁,hs⟩ := btreeMerge_shrunk hn hP hS (by omega) (by omega) hlc hrc
      refine ⟨_,_,k,fun f => ?_,ht₁,hs,hLb.join hRb k,?_,fun c b hdel => ?_⟩
      · rw [btreeDeleteKey, if_neg hn.cell.ne_null]
        simp only [hscan, eq_true hfound, hleaf, hleft, hright, hnumL, hnumR, ge_iff_le, eq_false hL,
          eq_false hR, hchild₁, Bool.false_eq_true, if_true, if_false]
        rfl
      · simp only [join, List.length_append, List.length_cons]
        omega
      · exact .merge hA hP (not_le.mp hL) (not_le.mp hR) hdel

/-- The key is not in the node. -/
theorem down_level (ht : 2 ≤ T.t) (hn : Rep T (⟨p,A ++ B,P ++ c :: S⟩ : Tree (h+1)))
    (hfit : FitsBelow T.t (⟨p,A ++ B,P ++ c :: S⟩ : Tree (h+1))) (hne : A ++ B ≠ [])
    (hP : P.length = A.length)
    (hscan : scanUp (fun i => k > T.key p i) 0 (T.num p) = A.length) (hA : ∀ a ∈ A, a < k)
    (hB : ∀ b ∈ B.head?, k < b) :
    ∃ T₁ s j, Level T T₁ (⟨p,A ++ B,P ++ c :: S⟩ : Tree (h+1)) k s j := by
  have hchild : T.child p A.length = c.ptr := hP ▸ hn.child
  obtain ⟨hs,hc⟩ := (fitsBelow_page (s := ⟨A,P,c,B,S⟩) hP).mp hfit
  obtain ⟨s',hrefill,hptr,ht₁,hshrunk⟩ := refill_shrunk ht (s := ⟨A,P,c,B,S⟩) hn hs hc hne
  obtain ⟨-,hc',hnum,-⟩ := hrefill.shape (by omega) hs hc
  refine ⟨_,s',k,fun f => ?_,ht₁,hshrunk,(fits_iff.mp hc').2,hnum,fun c b hdel => ?_⟩
  · rw [btreeDeleteKey, if_neg hn.cell.ne_null, ← hptr]
    simp only [hscan, eq_false (hn.cell.not_found hB), hchild, hn.kid.cell.ne_null, if_false]
  · exact .down hA hB hP hrefill hdel

theorem delete_level {n : Tree (h+1)} (ht : 2 ≤ T.t) (hn : Rep T n) (hfit : FitsBelow T.t n)
    (hne : n.keys ≠ []) (k : ℤ) : ∃ T₁ s j, Level T T₁ n k s j := by
  obtain ⟨p,ks,cs⟩ := n
  obtain ⟨A,B,rfl,hscan,hA,hB⟩ := scan_less k hn.cell
  obtain ⟨P,c,S,rfl,hP,hS⟩ := exists_kid (hfit.arity (Nat.succ_ne_zero h))
  obtain ⟨B,rfl⟩ | hB := head_cases hB
  · obtain _ | ⟨R,S⟩ := S
    · simp at hS
    · exact found_level ht hn hfit hP (by simpa using hS) hscan hA
  · exact down_level ht hn hfit hne hP hscan hA hB

end Levels
end ServerKit.BTree
