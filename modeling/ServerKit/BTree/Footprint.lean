import ServerKit.BTree.Delete

/-! Which nodes each operation of the B-tree allocates and frees: the nodes of the new tree take the place of
those of the old one, and nothing else stays allocated. Here `live` follows the node records and not their arrays. -/
namespace ServerKit.BTree
open Function ServerKit.Lib Btree

/-- A step that leaves nothing allocated but the nodes `new` and what was so beside the nodes `old`. -/
structure Footprint (T T' : Btree) (old new : List Ptr) : Prop extends Step T T' old new where
  exact : ∀ q, T'.live q = true → q ∈ new ∨ q ∉ old ∧ T.live q = true

section Members
variable {h : ℕ} {p q : Ptr} {ks : List ℤ} {P S : List (Tree h)} {c d l r : Tree h} {m : ℤ}

theorem ptrs_page : ptrs (⟨p,ks,P ++ c :: S⟩ : Tree (h+1)) =
    p :: P.flatMap ptrs ++ ptrs c ++ S.flatMap ptrs := by
  have happend := ptrs_append p ks P [c] S
  rwa [List.flatMap_singleton, List.append_assoc P, List.singleton_append] at happend

theorem mem_page : q ∈ ptrs (⟨p,ks,P ++ c :: S⟩ : Tree (h+1)) ↔
    (q = p ∨ q ∈ P.flatMap ptrs ∨ q ∈ S.flatMap ptrs) ∨ q ∈ ptrs c := by
  rw [ptrs_page, List.mem_append, List.mem_append, List.mem_cons]
  tauto

theorem mem_pair : q ∈ ptrs (⟨p,ks,P ++ c :: d :: S⟩ : Tree (h+1)) ↔
    (q = p ∨ q ∈ P.flatMap ptrs ∨ q ∈ S.flatMap ptrs) ∨ q ∈ ptrs c ∨ q ∈ ptrs d := by
  rw [mem_page, List.flatMap_cons, List.mem_append]
  tauto

theorem mem_ptrs : q ∈ ptrs r ↔ q = r.ptr ∨ q ∈ r.kids.flatMap (kidPtrs h) := List.mem_cons

theorem mem_join : q ∈ ptrs (join l m r) ↔ q ∈ ptrs l ∨ q ∈ r.kids.flatMap (kidPtrs h) := by
  rw [mem_ptrs, mem_ptrs, or_assoc, ← List.mem_append, ← List.flatMap_append]
  rfl

end Members

namespace Footprint
variable {T T' T'' : Btree} {old mid new : List Ptr}

/-- Nothing is allocated or freed. -/
theorem of_subset (h : Step T T' old new) (hlive : T'.live = T.live) (hsub : old ⊆ new) :
    Footprint T T' old new := by
  refine ⟨h,fun q hq => ?_⟩
  by_cases hold : q ∈ old
  · exact .inl (hsub hold)
  · rw [hlive] at hq
    exact .inr ⟨hold,hq⟩

theorem trans (h₁ : Footprint T T' old mid) (h₂ : Footprint T' T'' mid new) : Footprint T T'' old new := by
  refine ⟨h₁.toStep.trans h₂.toStep,fun q hq => ?_⟩
  obtain hnew | ⟨hmid,hq'⟩ := h₂.exact q hq
  · exact .inl hnew
  · exact .inr ((h₁.exact q hq').resolve_left hmid)

theorem frame (h : Footprint T T' old new) (X Y : List Ptr) :
    Footprint T T' (X ++ old ++ Y) (X ++ new ++ Y) := by
  refine ⟨h.toStep.frame X Y,fun q hq => ?_⟩
  have hcase := h.exact q hq
  simp only [List.mem_append]
  tauto

/-- One subtree of a node is replaced. -/
theorem page {h : ℕ} {c c' : Tree h} (hc : Footprint T T' (ptrs c) (ptrs c')) (p : Ptr) (ks ks' : List ℤ)
    (P S : List (Tree h)) :
    Footprint T T' (ptrs (⟨p,ks,P ++ c :: S⟩ : Tree (h+1))) (ptrs (⟨p,ks',P ++ c' :: S⟩ : Tree (h+1))) := by
  have hframe := hc.frame (p :: P.flatMap ptrs) (S.flatMap ptrs)
  rw [ptrs_page, ptrs_page]
  exact hframe

end Footprint

section Insert
variable {T : Btree} {h : ℕ} {p : Ptr} {A B : List ℤ} {P S : List (Tree h)} {c l r : Tree h} {m k : ℤ}

/-- A split allocates the right half. -/
theorem btreeSplitChild_footprint (hn : Rep T (⟨p,A ++ B,P ++ join l m r :: S⟩ : Tree (h+1)))
    (hP : P.length = A.length) (hS : S.length = B.length) (hl : l.keys.length+1 = T.t)
    (hr : r.keys.length+1 = T.t) (hlc : h ≠ 0 → l.kids.length = T.t)
    (hrc : h ≠ 0 → r.kids.length = T.t) (hrptr : r.ptr = T.next)
    (hroom : (A ++ B).length < 2*T.t-1) :
    Footprint T (btreeSplitChild T p A.length) (ptrs (⟨p,A ++ B,P ++ join l m r :: S⟩ : Tree (h+1)))
      (ptrs (⟨p,A ++ m :: B,P ++ l :: r :: S⟩ : Tree (h+1))) := by
  obtain ⟨-,hstep,-⟩ := btreeSplitChild_spec hn hP hS hl hr hlc hrc hrptr hroom
  have hchild : T.child p A.length = l.ptr := hP ▸ hn.child
  have hpl : p ≠ l.ptr := fun heq => hn.notMem_kid (heq ▸ List.mem_cons_self)
  have hsplit := btreeSplitChild_divided hchild hpl hn.cell.lt_next.ne hn.kid.cell.lt_next.ne
  refine ⟨hstep,fun q hq => ?_⟩
  have hsub : ptrs (⟨p,A ++ B,P ++ join l m r :: S⟩ : Tree (h+1)) ⊆
      ptrs (⟨p,A ++ m :: B,P ++ l :: r :: S⟩ : Tree (h+1)) := by
    intro q hq
    rw [mem_page, mem_join] at hq
    rw [mem_pair, mem_ptrs (r := r)]
    tauto
  by_cases hnext : q = T.next
  · left
    rw [hnext, ← hrptr, mem_pair]
    exact .inr (.inr List.mem_cons_self)
  · rw [hsplit.live q hnext] at hq
    by_cases hold : q ∈ ptrs (⟨p,A ++ B,P ++ join l m r :: S⟩ : Tree (h+1))
    · exact .inl (hsub hold)
    · exact .inr ⟨hold,hq⟩

/-- What `btree_insert_nonfull` does to the nodes below one that is not full. -/
def NonfullFootprint (k : ℤ) (h : ℕ) : Prop :=
  ∀ (T : Btree) (n : Tree h), 2 ≤ T.t → Rep T n → FitsBelow T.t n → n.keys.length < 2*T.t-1 →
    ∃ T' n', Returns (fun f => btreeInsertNonfull f T n.ptr k) T' ∧ Ins T.t n k n' ∧
      n'.ptr = n.ptr ∧ Rep T' n' ∧ Footprint T T' (ptrs n) (ptrs n') ∧ T'.root = T.root

/-- The new node of a split is linked before the search goes on. -/
theorem footprint_after_split (spec : NonfullFootprint k h) (ht : 2 ≤ T.t)
    (hn : Rep T (⟨p,A ++ B,P ++ c :: S⟩ : Tree (h+1)))
    (hfits : FitsBelow T.t (⟨p,A ++ B,P ++ c :: S⟩ : Tree (h+1))) (hP : P.length = A.length)
    (hA : ∀ a ∈ A.getLast?, a ≤ k) (hB : ∀ b ∈ B.head?, k < b) (hroom : (A ++ B).length < 2*T.t-1)
    (hfull : c.keys.length = 2*T.t-1) :
    let T₁ := btreeSplitChild T p A.length
    let i := if k > T₁.key p A.length then A.length+1 else A.length
    ∃ (T' : Btree) (n' : Tree (h+1)), Returns (fun f => btreeInsertNonfull f T₁ (T₁.child p i) k) T' ∧
      Ins T.t (⟨p,A ++ B,P ++ c :: S⟩ : Tree (h+1)) k n' ∧ n'.ptr = p ∧
      n'.keys.length = (A ++ B).length+1 ∧ Rep T' n' ∧
      Footprint T T' (ptrs (⟨p,A ++ B,P ++ c :: S⟩ : Tree (h+1))) (ptrs n') ∧ T'.root = T.root := by
  intro T₁ i
  obtain ⟨hS,hcfits,-⟩ := (fitsBelow_focus hP).mp hfits
  have hcfits := fits_iff.mp hcfits
  obtain ⟨l,m,r,rfl,hlp,hrp,hl,hr,hlc,hrc⟩ := exists_join T.next (by omega) hfull hcfits.2
  obtain ⟨hlfits,hrfits⟩ := hcfits.2.of_join fun h0 => (hlc h0).trans hl.symm
  obtain ⟨hn₁,hstep₁,hroot₁⟩ := btreeSplitChild_spec hn hP hS hl hr hlc hrc hrp hroom
  have hfoot₁ := btreeSplitChild_footprint hn hP hS hl hr hlc hrc hrp hroom
  have ht₁ : T₁.t = T.t := hstep₁.t
  have hkey : T₁.key p A.length = m := hn₁.cell.key
  by_cases hm : m < k
  · have hn₂ : Rep T₁ (⟨p,A ++ m :: B,(P ++ [l]) ++ r :: S⟩ : Tree (h+1)) := by simpa using hn₁
    have hchild : T₁.child p i = r.ptr := by
      have hi : i = (P ++ [l]).length := by simp [i,hkey,hm,hP]
      rw [hi]
      exact hn₂.child
    obtain ⟨T',r',hret,hins,hptr,hr',hfoot,hroot⟩ :=
      spec T₁ r (by omega) hn₂.kid (by rwa [ht₁]) (by omega)
    obtain ⟨hn',-⟩ := hn₂.descend hfoot.toStep hr' hptr
    have hpage := hfoot.page p (A ++ m :: B) (A ++ m :: B) (P ++ [l]) S
    simp only [List.append_assoc, List.singleton_append] at hn' hpage
    rw [ht₁] at hins
    exact ⟨T',⟨p,A ++ m :: B,P ++ l :: r' :: S⟩,by rwa [hchild],
      .splitRight hA hB hP hl hr hlc hm hins,rfl,by simp; omega,hn',hfoot₁.trans hpage,hroot.trans hroot₁⟩
  · have hchild : T₁.child p i = l.ptr := by
      have hi : i = P.length := by simp [i,hkey,hm,hP]
      rw [hi]
      exact hn₁.child
    obtain ⟨T',l',hret,hins,hptr,hl',hfoot,hroot⟩ :=
      spec T₁ l (by omega) hn₁.kid (by rwa [ht₁]) (by omega)
    obtain ⟨hn',-⟩ := hn₁.descend hfoot.toStep hl' hptr
    rw [ht₁] at hins
    exact ⟨T',⟨p,A ++ m :: B,P ++ l' :: r :: S⟩,by rwa [hchild],
      .splitLeft hA hB hP hl hr hlc (not_lt.mp hm) hins,rfl,by simp; omega,hn',
      hfoot₁.trans (hfoot.page p _ _ P (r :: S)),hroot.trans hroot₁⟩

theorem btreeInsertNonfull_footprint (k : ℤ) (h : ℕ) : NonfullFootprint k h := by
  induction h with
  | zero =>
    rintro T ⟨p,ks,cs⟩ ht hn hfits hnum
    obtain rfl : cs = [] := kids_eq_nil ⟨p,ks,cs⟩
    obtain ⟨T',⟨p',ks',cs'⟩,hret,hins,rfl,hn',hstep,hroot⟩ :=
      btreeInsertNonfull_spec k 0 T ⟨p,ks,[]⟩ ht hn hfits hnum
    obtain rfl : cs' = [] := kids_eq_nil ⟨p',ks',cs'⟩
    have hcell : Cell T p' true ks [] := hn.cell
    obtain ⟨A,B,rfl,hscan,-⟩ := scan_greater k hcell
    have hcode : ∀ f, btreeInsertNonfull (f+1) T p' k =
        some (T.modify p' (BtreeNode.insertKey A.length k)) := by
      intro f
      rw [btreeInsertNonfull, if_pos hcell.leaf, shiftGreater_eq k (T.num p') T A.length hscan]
      simp only [setKey, setNum, num, modify_modify, modify_node_self]
      rfl
    have hlive : T'.live = T.live := by
      rw [hret.unique (Returns.succ hcode (Returns.const _))]
      rfl
    exact ⟨T',⟨p',ks',[]⟩,hret,hins,rfl,hn',.of_subset hstep hlive (List.Subset.refl _),hroot⟩
  | succ h ih =>
    rintro T ⟨p,ks,cs⟩ ht hn hfits hnum
    obtain ⟨A,B,rfl,hscan,hA,hB⟩ := scan_greater k hn.cell
    obtain ⟨P,c,S,rfl,hP,hS⟩ := exists_kid (hfits.arity (Nat.succ_ne_zero h))
    have hleaf : ¬ T.leaf p = true := by simp [hn.cell.leaf]
    have hc := hn.kid
    have hchild : T.child p A.length = c.ptr := hP ▸ hn.child
    have hcfits := fits_iff.mp (hfits.kids c (by simp))
    by_cases hfull : c.keys.length = 2*T.t-1
    · have hsplit : ∀ f, btreeInsertNonfull (f+1) T p k =
          (let T₁ := btreeSplitChild T p A.length
            let i := if k > T₁.key p A.length then A.length+1 else A.length
            btreeInsertNonfull f T₁ (T₁.child p i) k) := by
        intro f
        rw [btreeInsertNonfull, if_neg hleaf]
        simp only [hscan, hchild, hc.cell.num, hfull, if_true]
      obtain ⟨T',n',hret,hins,hptr,-,hn',hfoot,hroot⟩ :=
        footprint_after_split ih ht hn hfits hP hA hB hnum hfull
      exact ⟨T',n',Returns.succ hsplit hret,hins,hptr,hn',hfoot,hroot⟩
    · have hskip : ∀ f, btreeInsertNonfull (f+1) T p k = btreeInsertNonfull f T c.ptr k := by
        intro f
        rw [btreeInsertNonfull, if_neg hleaf]
        simp only [hscan, hchild, hc.cell.num, hfull, if_false]
      obtain ⟨T',c',hret,hins,hptr,hc',hfoot,hroot⟩ := ih T c ht hc hcfits.2 (by omega)
      obtain ⟨hn',-⟩ := hn.descend hfoot.toStep hc' hptr
      exact ⟨T',⟨p,A ++ B,P ++ c' :: S⟩,Returns.succ hskip hret,.down hA hB hP hfull hins,rfl,hn',
        hfoot.page p _ _ P S,hroot⟩

/-- The new root of `btree_insert`. -/
theorem newRoot_footprint (n : Tree h) :
    Footprint T (((btreeCreateNode T false).setRoot T.next).setChild T.next 0 n.ptr) (ptrs n)
      (ptrs (⟨T.next,[],[n]⟩ : Tree (h+1))) := by
  have hmem : ∀ q, q ∈ ptrs (⟨T.next,[],[n]⟩ : Tree (h+1)) ↔ q = T.next ∨ q ∈ ptrs n := by
    intro q
    rw [mem_ptrs, List.flatMap_singleton]
    rfl
  have hlive : ∀ q, q ≠ T.next → (((btreeCreateNode T false).setRoot T.next).setChild T.next 0 n.ptr).live q =
      T.live q := fun q hq => update_of_ne hq ..
  refine ⟨⟨rfl,Nat.le_succ _,fun q hq _ => ⟨?_,hlive q hq.ne⟩,fun q hq => ?_⟩,fun q hq => ?_⟩
  · exact (modify_node_ne hq.ne).trans (createNode_node_ne hq.ne)
  · obtain rfl | hq := (hmem q).mp hq
    · exact .inr le_rfl
    · exact .inl hq
  · rw [hmem]
    by_cases hnew : q = T.next
    · exact .inl (.inl hnew)
    · rw [hlive q hnew] at hq
      by_cases hold : q ∈ ptrs n
      · exact .inl (.inr hold)
      · exact .inr ⟨hold,hq⟩

/-- `btree_insert` allocates nothing that it does not link. -/
theorem btreeInsert_footprint {n : Tree h} (k : ℤ) (ht : 2 ≤ T.t) (hT : IsBtree T n) :
    ∃ (h' : ℕ) (T' : Btree) (n' : Tree h'), Returns (fun f => btreeInsert f T k) T' ∧ T'.t = T.t ∧
      IsBtree T' n' ∧ Footprint T T' (ptrs n) (ptrs n') := by
  have hnull : n.ptr ≠ 0 := hT.rep.cell.ne_null
  have hnum : T.num n.ptr = n.keys.length := hT.rep.cell.num
  have hle := hT.shape.num_le
  by_cases hfull : n.keys.length = 2*T.t-1
  · set T₀ := ((btreeCreateNode T false).setRoot T.next).setChild T.next 0 n.ptr with hT₀
    have hrep : Rep T₀ (⟨T.next,[],[n]⟩ : Tree (h+1)) := rep_newRoot ht hT.rep
    have hlt : ([] : List ℤ).length < 2*T.t-1 := by simp; omega
    have hfits : FitsBelow T.t (⟨T.next,[],[n]⟩ : Tree (h+1)) := by
      refine ⟨fun _ => rfl,fun d hd => ?_⟩
      obtain rfl := List.mem_singleton.mp hd
      exact fits_iff.mpr ⟨⟨by omega,hle⟩,hT.shape.toFitsBelow⟩
    obtain ⟨T',n',hret,hins,hptr,hlen,hn',hfoot,hroot⟩ :=
      footprint_after_split (T := T₀) (A := []) (B := []) (P := []) (S := [])
        (btreeInsertNonfull_footprint k h) ht hrep hfits rfl (by simp) (by simp) hlt hfull
    have hcode : ∀ f, btreeInsert f T k =
        (let T₁ := btreeSplitChild T₀ T.next 0
          let i := if k > T₁.key T.next 0 then 0+1 else 0
          btreeInsertNonfull f T₁ (T₁.child T.next i) k) := by
      intro f
      rw [btreeInsert]
      simp only [hT.root, hnull, hnum, hfull, if_true, if_false]
      rfl
    obtain ⟨hbelow,-,-⟩ := hins.shape hfits hlt
    refine ⟨h+1,T',n',Returns.congr hcode hret,hfoot.t,⟨by rw [hroot, hptr]; rfl,hn',?_⟩,
      (newRoot_footprint n).trans hfoot⟩
    rw [hfoot.t]
    refine ⟨hbelow,?_,fun _ => ?_⟩
    · rw [hlen]
      change 0+1 ≤ 2*T.t-1
      omega
    · rw [hlen]
      exact Nat.le_add_left 1 _
  · have hcode : ∀ f, btreeInsert f T k = btreeInsertNonfull f T n.ptr k := by
      intro f
      rw [btreeInsert]
      simp only [hT.root, hnull, hnum, hfull, if_false]
    obtain ⟨T',n',hret,hins,hptr,hn',hfoot,hroot⟩ :=
      btreeInsertNonfull_footprint k h T n ht hT.rep hT.shape.toFitsBelow (by omega)
    obtain ⟨hbelow,hlo,hhi⟩ := hins.shape hT.shape.toFitsBelow (by omega)
    refine ⟨h,T',n',Returns.congr hcode hret,hfoot.t,⟨by rw [hroot, hptr, hT.root],hn',?_⟩,hfoot⟩
    rw [hfoot.t]
    exact ⟨hbelow,by omega,fun h0 => (hT.shape.root_num h0).trans hlo⟩

end Insert

end ServerKit.BTree
