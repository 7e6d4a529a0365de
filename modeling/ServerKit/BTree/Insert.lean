import ServerKit.BTree.Held
import ServerKit.BTree.InsertRel

/-! `btree_insert` on the store: every split and every descent follows the rules for trees, so a
valid B-tree gets the key in its sorted place and stays valid. -/
namespace ServerKit.BTree
open Function ServerKit.Lib Btree

/-- A full node is two half nodes and the key between them; the new one is to have address `q`. -/
theorem exists_join {t h : ℕ} {c : Tree h} (q : Ptr) (ht : 1 ≤ t) (hnum : c.keys.length = 2*t-1)
    (hc : FitsBelow t c) : ∃ (l : Tree h) (m : ℤ) (r : Tree h), c = join l m r ∧ l.ptr = c.ptr ∧
      r.ptr = q ∧ l.keys.length+1 = t ∧ r.keys.length+1 = t ∧
      (h ≠ 0 → l.kids.length = t) ∧ (h ≠ 0 → r.kids.length = t) := by
  obtain ⟨p,ks,cs⟩ := c
  have hdrop : t-1 < ks.length := by
    have : ks.length = 2*t-1 := hnum
    omega
  have hsplit : ks.take (t-1) ++ ks[t-1] :: ks.drop t = ks := by
    have hcons := List.drop_eq_getElem_cons hdrop
    rw [Nat.sub_add_cancel ht] at hcons
    rw [← hcons, List.take_append_drop]
  have hlen : ks.length = 2*t-1 := hnum
  refine ⟨⟨p,ks.take (t-1),cs.take t⟩,ks[t-1],⟨q,ks.drop t,cs.drop t⟩,?_,rfl,rfl,?_,?_,?_,?_⟩
  · simp [join,hsplit]
  · simp
    omega
  · simp
    omega
  all_goals
    intro h0
    have harity : cs.length = ks.length+1 := hc.arity h0
    simp
    omega

section Split
variable {T : Btree} {h : ℕ} {p : Ptr} {A B : List ℤ} {P S : List (Tree h)} {l r : Tree h} {m : ℤ}

theorem btreeSplitChild_spec (hn : Rep T (⟨p,A ++ B,P ++ join l m r :: S⟩ : Tree (h+1)))
    (hP : P.length = A.length) (hS : S.length = B.length) (hl : l.keys.length+1 = T.t)
    (hr : r.keys.length+1 = T.t) (hlc : h ≠ 0 → l.kids.length = T.t)
    (hrc : h ≠ 0 → r.kids.length = T.t) (hrptr : r.ptr = T.next)
    (hroom : (A ++ B).length < 2*T.t-1) :
    Rep (btreeSplitChild T p A.length) (⟨p,A ++ m :: B,P ++ l :: r :: S⟩ : Tree (h+1)) ∧
      Step T (btreeSplitChild T p A.length)
        (ptrs (⟨p,A ++ B,P ++ join l m r :: S⟩ : Tree (h+1)))
        (ptrs (⟨p,A ++ m :: B,P ++ l :: r :: S⟩ : Tree (h+1))) ∧
      (btreeSplitChild T p A.length).root = T.root := by
  have hc := hn.kid
  have hpc : p ∉ ptrs (join l m r) := hn.notMem_kid
  have hpy : p ≠ l.ptr := fun heq => hpc (by simp [heq,join])
  have hpz : p ≠ T.next := hn.cell.lt_next.ne
  have hyz : l.ptr ≠ T.next := hc.cell.lt_next.ne
  have hchild : T.child p A.length = l.ptr := by
    rw [← hP]
    exact hn.child
  have hkey : T.key l.ptr (T.t-1) = m := by
    rw [← hl]
    exact hc.cell.key
  have hsplit := btreeSplitChild_divided hchild hpy hpz hyz
  set T' := btreeSplitChild T p A.length
  have hold : [join l m r].flatMap ptrs = l.ptr :: (l.kids ++ r.kids).flatMap (kidPtrs h) := by
    rw [List.flatMap_singleton]
    rfl
  have hnew : [l,r].flatMap ptrs =
      l.ptr :: l.kids.flatMap (kidPtrs h) ++ T.next :: r.kids.flatMap (kidPtrs h) := by
    simp only [List.flatMap_cons, List.flatMap_nil, List.append_nil, ← hrptr]
    rfl
  have hn' : Rep T (⟨p,A ++ B,P ++ [join l m r] ++ S⟩ : Tree (h+1)) := by simpa using hn
  have hperm : (p :: [l,r].flatMap ptrs).Perm (T.next :: p :: [join l m r].flatMap ptrs) := by
    rw [hold, hnew, List.flatMap_append]
    change (p :: l.ptr :: l.kids.flatMap (kidPtrs h) ++ T.next :: r.kids.flatMap (kidPtrs h)).Perm
      (T.next :: (p :: l.ptr :: l.kids.flatMap (kidPtrs h) ++ r.kids.flatMap (kidPtrs h)))
    exact List.perm_middle
  have hagree : ∀ q < T.next, q ≠ p → q ≠ l.ptr → Agree T T' q := fun q hq h₁ h₂ =>
    ⟨hsplit.other q h₁ h₂ hq.ne,hsplit.live q hq.ne⟩
  have hnext : T.next < T'.next := by rw [hsplit.next]; exact Nat.lt_succ_self _
  have hstep : Step T T' (p :: [join l m r].flatMap ptrs) (p :: [l,r].flatMap ptrs) := by
    refine ⟨hsplit.t,hnext.le,fun q hq hout => ?_,fun q hq => ?_⟩
    · rw [hold] at hout
      simp only [List.mem_cons, not_or] at hout
      exact hagree q hq hout.1 hout.2.1
    · obtain rfl | hq := List.mem_cons.mp (hperm.subset hq)
      · exact .inr le_rfl
      · exact .inl hq
  have hcell : Cell T' p false (A ++ m :: B) ((P ++ [l,r] ++ S).map Page.ptr) := by
    refine ⟨hn.cell.ne_null,(hsplit.live p hpz).trans hn.cell.live,hn.cell.lt_next.trans hnext,?_⟩
    have hholds : NodeHolds T.t (T.node p) false (A ++ B) (P.map Page.ptr ++ l.ptr :: S.map Page.ptr) := by
      simpa [join] using hn.cell.holds
    have hins := hholds.insertChild (by simpa using hP) (by simpa using hS) hroom m T.next
    rw [hsplit.t, hsplit.parent, hkey]
    simpa [hrptr] using hins
  have hcell_y : Cell T' l.ptr (h == 0) l.keys (l.kids.map (kidPtr h)) := by
    refine ⟨hc.cell.ne_null,(hsplit.live _ hyz).trans hc.cell.live,hc.cell.lt_next.trans hnext,?_⟩
    have hholds : NodeHolds T.t (T.node l.ptr) (h == 0) (l.keys ++ m :: r.keys)
        (l.kids.map (kidPtr h) ++ r.kids.map (kidPtr h)) := List.map_append ▸ hc.cell.holds
    have htrunc := hholds.truncate
    rw [show l.keys.length = T.t-1 by omega] at htrunc
    rw [hsplit.t, hsplit.left]
    exact htrunc
  have hcell_z : Cell T' r.ptr (h == 0) r.keys (r.kids.map (kidPtr h)) := by
    have hholds : NodeHolds T.t (T.node l.ptr) (h == 0) (l.keys ++ m :: r.keys)
        (l.kids.map (kidPtr h) ++ r.kids.map (kidPtr h)) := List.map_append ▸ hc.cell.holds
    have hupper := hholds.upperHalf hl hr (by simpa using hlc) (by simpa using hrc) (by
      intro h0
      obtain rfl : h = 0 := by simpa using h0
      rw [kids_eq_nil r, List.map_nil])
    rw [hrptr]
    refine ⟨?_,hsplit.live_new,hnext,by rwa [hsplit.t, hsplit.right]⟩
    exact (Nat.zero_lt_of_lt hn.cell.lt_next).ne'
  have hbelow : ∀ d ∈ l.kids ++ r.kids, KidRep T' h d := by
    refine hn'.below hsplit.t hnext.le (fun q hq h₁ h₂ => hagree q hq h₁ ?_) _ (List.mem_singleton_self _)
    simpa [join] using h₂
  have hkids : ∀ d ∈ [l,r], KidRep T' (h+1) d := by
    intro d hd
    obtain rfl | hd := List.mem_cons.mp hd
    · exact ⟨hcell_y,fun d hd => hbelow d (List.mem_append_left _ hd)⟩
    · obtain rfl := List.mem_singleton.mp hd
      exact ⟨hcell_z,fun d hd => hbelow d (List.mem_append_right _ hd)⟩
  have hnodup : (p :: [l,r].flatMap ptrs).Nodup := by
    refine hperm.symm.nodup (List.nodup_cons.mpr ⟨fun hmem => ?_,hn'.nodup_kids⟩)
    rw [List.flatMap_singleton] at hmem
    obtain hmem | hmem := List.mem_cons.mp hmem
    · exact hpz hmem.symm
    · exact lt_irrefl _ (hc.lt_next _ hmem)
  obtain ⟨hrep,hstep'⟩ := hn'.rebuild hstep hcell hkids hnodup
  exact ⟨by simpa using hrep,by simpa using hstep',hsplit.root⟩

end Split

/-- Where the scans of `btree_insert_nonfull` stop. -/
theorem scan_greater {T : Btree} {p : Ptr} {b : Bool} {ks : List ℤ} {cs : List Ptr} (k : ℤ)
    (h : Cell T p b ks cs) : ∃ A B, ks = A ++ B ∧
      scanDown (fun j => T.key p j > k) (T.num p) = A.length ∧
      (∀ a ∈ A.getLast?, a ≤ k) ∧ ∀ b ∈ B.head?, k < b := by
  obtain ⟨pad,hpad⟩ := h.holds.keys
  obtain ⟨A,B,hks,hscan,hB,hA⟩ := scanDown_split (p := fun j => decide (T.key p j > k))
    (q := fun x => decide (x > k)) 0 ks pad (fun i => by rw [key, ← hpad])
  refine ⟨A,B,hks,by rw [h.num, hscan],fun a ha => ?_,fun b hb => ?_⟩
  · simpa using hA a ha
  · simpa using hB b (List.mem_of_mem_head? hb)

/-- What `btree_insert_nonfull` guarantees for nodes of height `h` that are not full. -/
def NonfullSpec (k : ℤ) (h : ℕ) : Prop :=
  ∀ (T : Btree) (n : Tree h), 2 ≤ T.t → Rep T n → FitsBelow T.t n → n.keys.length < 2*T.t-1 →
    ∃ T' n', Returns (fun f => btreeInsertNonfull f T n.ptr k) T' ∧ Ins T.t n k n' ∧
      n'.ptr = n.ptr ∧ Rep T' n' ∧ Step T T' (ptrs n) (ptrs n') ∧ T'.root = T.root

/-- A full child is split, and the half is chosen into which the key goes. -/
theorem insert_after_split {k : ℤ} {h : ℕ} (spec : NonfullSpec k h) {T : Btree} {p : Ptr}
    {A B : List ℤ} {P S : List (Tree h)} {c : Tree h} (ht : 2 ≤ T.t)
    (hn : Rep T (⟨p,A ++ B,P ++ c :: S⟩ : Tree (h+1)))
    (hfits : FitsBelow T.t (⟨p,A ++ B,P ++ c :: S⟩ : Tree (h+1))) (hP : P.length = A.length)
    (hA : ∀ a ∈ A.getLast?, a ≤ k) (hB : ∀ b ∈ B.head?, k < b) (hroom : (A ++ B).length < 2*T.t-1)
    (hfull : c.keys.length = 2*T.t-1) :
    let T₁ := btreeSplitChild T p A.length
    let i := if k > T₁.key p A.length then A.length+1 else A.length
    ∃ (T' : Btree) (n' : Tree (h+1)), Returns (fun f => btreeInsertNonfull f T₁ (T₁.child p i) k) T' ∧
      Ins T.t (⟨p,A ++ B,P ++ c :: S⟩ : Tree (h+1)) k n' ∧ n'.ptr = p ∧
      n'.keys.length = (A ++ B).length+1 ∧ Rep T' n' ∧
      Step T T' (ptrs (⟨p,A ++ B,P ++ c :: S⟩ : Tree (h+1))) (ptrs n') ∧ T'.root = T.root := by
  intro T₁ i
  obtain ⟨hS,hcfits,-⟩ := (fitsBelow_focus hP).mp hfits
  have hcfits := fits_iff.mp hcfits
  obtain ⟨l,m,r,rfl,hlp,hrp,hl,hr,hlc,hrc⟩ := exists_join T.next (by omega) hfull hcfits.2
  obtain ⟨hlfits,hrfits⟩ := hcfits.2.of_join fun h0 => (hlc h0).trans hl.symm
  obtain ⟨hn₁,hstep₁,hroot₁⟩ := btreeSplitChild_spec hn hP hS hl hr hlc hrc hrp hroom
  have ht₁ : T₁.t = T.t := hstep₁.t
  have hkey : T₁.key p A.length = m := hn₁.cell.key
  by_cases hm : m < k
  · have hn₂ : Rep T₁ (⟨p,A ++ m :: B,(P ++ [l]) ++ r :: S⟩ : Tree (h+1)) := by simpa using hn₁
    have hchild : T₁.child p i = r.ptr := by
      have hi : i = (P ++ [l]).length := by simp [i,hkey,hm,hP]
      rw [hi]
      exact hn₂.child
    obtain ⟨T',r',hret,hins,hptr,hr',hstep,hroot⟩ :=
      spec T₁ r (by omega) hn₂.kid (by rwa [ht₁]) (by omega)
    obtain ⟨hn',hstep'⟩ := hn₂.descend hstep hr' hptr
    rw [ht₁] at hins
    refine ⟨T',⟨p,A ++ m :: B,P ++ l :: r' :: S⟩,by rwa [hchild],
      .splitRight hA hB hP hl hr hlc hm hins,rfl,by simp; omega,by simpa using hn',hstep₁.trans ?_,
      hroot.trans hroot₁⟩
    simpa using hstep'
  · have hchild : T₁.child p i = l.ptr := by
      have hi : i = P.length := by simp [i,hkey,hm,hP]
      rw [hi]
      exact hn₁.child
    obtain ⟨T',l',hret,hins,hptr,hl',hstep,hroot⟩ :=
      spec T₁ l (by omega) hn₁.kid (by rwa [ht₁]) (by omega)
    obtain ⟨hn',hstep'⟩ := hn₁.descend hstep hl' hptr
    rw [ht₁] at hins
    exact ⟨T',⟨p,A ++ m :: B,P ++ l' :: r :: S⟩,by rwa [hchild],
      .splitLeft hA hB hP hl hr hlc (not_lt.mp hm) hins,rfl,by simp; omega,hn',
      hstep₁.trans hstep',hroot.trans hroot₁⟩

/-- `btree_insert_nonfull` follows the rules. -/
theorem btreeInsertNonfull_spec (k : ℤ) (h : ℕ) : NonfullSpec k h := by
  induction h with
  | zero =>
    rintro T ⟨p,ks,cs⟩ ht hn hfits hnum
    obtain rfl : cs = [] := kids_eq_nil ⟨p,ks,cs⟩
    have hcell : Cell T p true ks [] := hn.cell
    obtain ⟨A,B,rfl,hscan,hA,hB⟩ := scan_greater k hcell
    set T' := T.modify p (BtreeNode.insertKey A.length k) with hT'
    have hret : ∀ f, btreeInsertNonfull (f+1) T p k = some T' := by
      intro f
      rw [btreeInsertNonfull, if_pos hcell.leaf, shiftGreater_eq k (T.num p) T A.length hscan]
      simp only [setKey, setNum, num, modify_modify, modify_node_self]
      rfl
    refine ⟨T',⟨p,A ++ k :: B,[]⟩,Returns.succ hret (Returns.const _),.leaf hA hB,rfl,?_,?_,rfl⟩
    · refine ⟨⟨hcell.ne_null,hcell.live,hcell.lt_next,?_⟩,by simp,hn.nodup⟩
      change NodeHolds T.t (T'.node p) true (A ++ k :: B) []
      rw [hT', modify_node_self]
      exact hcell.holds.insertKey hnum k
    · refine ⟨rfl,le_rfl,fun q hq hout => ⟨modify_node_ne ?_,rfl⟩,fun q => .inl⟩
      rintro rfl
      exact hout List.mem_cons_self
  | succ h ih =>
    rintro T ⟨p,ks,cs⟩ ht hn hfits hnum
    obtain ⟨A,B,rfl,hscan,hA,hB⟩ := scan_greater k hn.cell
    obtain ⟨P,c,S,rfl,hP,hS⟩ := exists_kid (hfits.arity (Nat.succ_ne_zero h))
    have hleaf : ¬ T.leaf p = true := by simp [hn.cell.leaf]
    have hc := hn.kid
    have hchild : T.child p A.length = c.ptr := hP ▸ hn.child
    have hcfits := fits_iff.mp (hfits.kids c (by simp))
    by_cases hfull : c.keys.length = 2*T.t-1
    · have hsplit : ∀ f, btreeInsertNonfull (f+1) T p k =
          (let T₁ := btreeSplitChild T p A.length
            let i := if k > T₁.key p A.length then A.length+1 else A.length
            btreeInsertNonfull f T₁ (T₁.child p i) k) := by
        intro f
        rw [btreeInsertNonfull, if_neg hleaf]
        simp only [hscan, hchild, hc.cell.num, hfull, if_true]
      obtain ⟨T',n',hret,hins,hptr,-,hn',hstep,hroot⟩ :=
        insert_after_split ih ht hn hfits hP hA hB hnum hfull
      exact ⟨T',n',Returns.succ hsplit hret,hins,hptr,hn',hstep,hroot⟩
    · have hskip : ∀ f, btreeInsertNonfull (f+1) T p k = btreeInsertNonfull f T c.ptr k := by
        intro f
        rw [btreeInsertNonfull, if_neg hleaf]
        simp only [hscan, hchild, hc.cell.num, hfull, if_false]
      obtain ⟨T',c',hret,hins,hptr,hc',hstep,hroot⟩ := ih T c ht hc hcfits.2 (by omega)
      obtain ⟨hn',hstep'⟩ := hn.descend hstep hc' hptr
      exact ⟨T',⟨p,A ++ B,P ++ c' :: S⟩,Returns.succ hskip hret,.down hA hB hP hfull hins,rfl,hn',
        hstep',hroot⟩

/-- The new root of `btree_insert`, above the full old one. -/
theorem rep_newRoot {h : ℕ} {T : Btree} {n : Tree h} (ht : 2 ≤ T.t) (hn : Rep T n) :
    Rep (((btreeCreateNode T false).setRoot T.next).setChild T.next 0 n.ptr)
      (⟨T.next,[],[n]⟩ : Tree (h+1)) := by
  set T' := ((btreeCreateNode T false).setRoot T.next).setChild T.next 0 n.ptr with hT'
  have hnode : ∀ q, q ≠ T.next → T'.node q = T.node q := fun q hq =>
    (modify_node_ne hq).trans (createNode_node_ne hq)
  have hlive : ∀ q, q ≠ T.next → T'.live q = T.live q := fun q hq => update_of_ne hq ..
  have hroot : T'.node T.next =
      ⟨List.replicate (2*T.t-1) 0,(List.replicate (2*T.t) 0).set 0 n.ptr,0,false⟩ := by
    rw [hT', setChild, modify_node_self, setRoot_node, createNode_node]
  refine ⟨⟨?_,update_self ..,Nat.lt_succ_self _,?_⟩,fun d hd => ?_,?_⟩
  · exact (Nat.zero_lt_of_lt hn.cell.lt_next).ne'
  · change NodeHolds T.t (T'.node T.next) false [] [n.ptr]
    rw [hroot]
    refine ⟨rfl,rfl,List.nil_prefix,by simp,?_,by simp,by simp⟩
    exact prefix_push List.nil_prefix (by simp; omega) n.ptr
  · obtain rfl := List.mem_singleton.mp hd
    refine KidRep.frame (h := h+1) ⟨hn.cell,hn.kids⟩ rfl (Nat.le_succ _) fun q hq => ?_
    have hne := (hn.lt_next q hq).ne
    exact ⟨hnode q hne,hlive q hne⟩
  · change (T.next :: [n].flatMap ptrs).Nodup
    rw [List.flatMap_singleton]
    exact List.nodup_cons.mpr ⟨fun hmem => lt_irrefl _ (hn.lt_next _ hmem),hn.nodup⟩

/-- What `btree_insert` does to a B-tree, whatever the order of its keys: it follows the rules,
after a full root has got a new root above it. -/
theorem btreeInsert_spec {h : ℕ} {T : Btree} {n : Tree h} (k : ℤ) (ht : 2 ≤ T.t)
    (hT : IsBtree T n) : ∃ (h' : ℕ) (T' : Btree) (n₀ n' : Tree h'),
      Returns (fun f => btreeInsert f T k) T' ∧ T'.t = T.t ∧ FitsBelow T.t n₀ ∧
      inorder n₀ = inorder n ∧ Ins T.t n₀ k n' ∧ IsBtree T' n' := by
  have hnull : n.ptr ≠ 0 := hT.rep.cell.ne_null
  have hnum : T.num n.ptr = n.keys.length := hT.rep.cell.num
  have hle := hT.shape.num_le
  by_cases hfull : n.keys.length = 2*T.t-1
  · set T₀ := ((btreeCreateNode T false).setRoot T.next).setChild T.next 0 n.ptr with hT₀
    have hrep : Rep T₀ (⟨T.next,[],[n]⟩ : Tree (h+1)) := rep_newRoot ht hT.rep
    have hlt : ([] : List ℤ).length < 2*T.t-1 := by simp; omega
    have hfits : FitsBelow T.t (⟨T.next,[],[n]⟩ : Tree (h+1)) := by
      refine ⟨fun _ => rfl,fun d hd => ?_⟩
      obtain rfl := List.mem_singleton.mp hd
      exact fits_iff.mpr ⟨⟨by omega,hle⟩,hT.shape.toFitsBelow⟩
    obtain ⟨T',n',hret,hins,hptr,hlen,hn',hstep,hroot⟩ :=
      insert_after_split (T := T₀) (A := []) (B := []) (P := []) (S := [])
        (btreeInsertNonfull_spec k h) ht hrep hfits rfl (by simp) (by simp) hlt hfull
    have hcode : ∀ f, btreeInsert f T k =
        (let T₁ := btreeSplitChild T₀ T.next 0
          let i := if k > T₁.key T.next 0 then 0+1 else 0
          btreeInsertNonfull f T₁ (T₁.child T.next i) k) := by
      intro f
      rw [btreeInsert]
      simp only [hT.root, hnull, hnum, hfull, if_true, if_false]
      rfl
    obtain ⟨hbelow,-,-⟩ := hins.shape hfits hlt
    refine ⟨h+1,T',⟨T.next,[],[n]⟩,n',Returns.congr hcode hret,hstep.t,hfits,?_,hins,?_⟩
    · change weave [inorder n] [] = inorder n
      simp
    · refine ⟨by rw [hroot, hptr]; rfl,hn',?_⟩
      rw [hstep.t]
      refine ⟨hbelow,?_,fun _ => ?_⟩
      · rw [hlen]
        change 0+1 ≤ 2*T.t-1
        omega
      · rw [hlen]
        exact Nat.le_add_left 1 _
  · have hcode : ∀ f, btreeInsert f T k = btreeInsertNonfull f T n.ptr k := by
      intro f
      rw [btreeInsert]
      simp only [hT.root, hnull, hnum, hfull, if_false]
    obtain ⟨T',n',hret,hins,hptr,hn',hstep,hroot⟩ :=
      btreeInsertNonfull_spec k h T n ht hT.rep hT.shape.toFitsBelow (by omega)
    obtain ⟨hbelow,hlo,hhi⟩ := hins.shape hT.shape.toFitsBelow (by omega)
    refine ⟨h,T',n,n',Returns.congr hcode hret,hstep.t,hT.shape.toFitsBelow,rfl,hins,?_⟩
    refine ⟨by rw [hroot, hptr, hT.root],hn',?_⟩
    rw [hstep.t]
    exact ⟨hbelow,by omega,fun h0 => (hT.shape.root_num h0).trans hlo⟩

theorem Ins.orderedInsert {t h : ℕ} {n n' : Tree h} {k : ℤ} (hins : Ins t n k n') (hfits : FitsBelow t n)
    (hs : (inorder n).Pairwise (· ≤ ·)) :
    (inorder n').Pairwise (· ≤ ·) ∧ inorder n' = (inorder n).orderedInsert (· ≤ ·) k := by
  obtain ⟨X,Y,hXY,hXY',hX,hY⟩ := hins.inserted hfits hs
  rw [hXY] at hs ⊢
  have hs' : (X ++ k :: Y).Pairwise (· ≤ ·) := by
    simp only [List.pairwise_append, List.pairwise_cons] at hs ⊢
    refine ⟨hs.1,⟨hY,hs.2.1⟩,fun x hx y hy => ?_⟩
    obtain rfl | hy := List.mem_cons.mp hy
    · exact hX x hx
    · exact hs.2.2 x hx y hy
  rw [hXY']
  exact ⟨hs',(orderedInsert_eq_of_sorted hs').symm⟩

/-- `btree_insert` puts the key into its sorted place and keeps the B-tree valid. That the keys are
in order says that every separator bounds its two subtrees. -/
theorem btreeInsert_correct {h : ℕ} (T : Btree) (n : Tree h) (k : ℤ) (ht : 2 ≤ T.t)
    (hT : IsBtree T n) (hs : (inorder n).Pairwise (· ≤ ·)) :
    ∃ (h' : ℕ) (T' : Btree) (n' : Tree h'), Returns (fun f => btreeInsert f T k) T' ∧ T'.t = T.t ∧
      IsBtree T' n' ∧ (inorder n').Pairwise (· ≤ ·) ∧
      inorder n' = (inorder n).orderedInsert (· ≤ ·) k := by
  obtain ⟨h',T',n₀,n',hret,ht',hfits,hsame,hins,hT'⟩ := btreeInsert_spec k ht hT
  rw [← hsame] at hs ⊢
  obtain ⟨hs',hkeys⟩ := hins.orderedInsert hfits hs
  exact ⟨h',T',n',hret,ht',hT',hs',hkeys⟩

/-- A full root over a full child, for the minimum degree two. -/
def fullTree : Tree 1 := ⟨1,[10,20,30],[⟨2,[1],[]⟩,⟨3,[12,14,16],[]⟩,⟨4,[25],[]⟩,⟨5,[35],[]⟩]⟩

theorem fullTree_isBtree : IsBtree (storeOf 2 fullTree) fullTree := by
  refine storeOf_isBtree (by decide) ⟨⟨fun _ => rfl,?_⟩,by decide,by decide⟩ (by decide) (by decide)
  simp [fullTree,Fits]

-- both are split: the root gets a parent with one key, the leaf a sibling behind the separator 14
example : (btreeInsert 4 (storeOf 2 fullTree) 15).map (fun T => (T.num T.root,T.num (T.child T.root 0),
    T.num 3)) = some (1,2,1) := by decide

theorem btreeInsert_correct_fifteen : ∃ (h' : ℕ) (T' : Btree) (n' : Tree h'),
    Returns (fun f => btreeInsert f (storeOf 2 fullTree) 15) T' ∧ IsBtree T' n' ∧
      inorder n' = [1,10,12,14,15,16,20,25,30,35] := by
  obtain ⟨h',T',n',hret,-,hT',-,hkeys⟩ :=
    btreeInsert_correct (storeOf 2 fullTree) fullTree 15 le_rfl fullTree_isBtree (by decide)
  exact ⟨h',T',n',hret,hT',hkeys.trans (by decide)⟩

end ServerKit.BTree
