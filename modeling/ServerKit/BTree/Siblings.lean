import ServerKit.BTree.DeleteRel
import ServerKit.BTree.Store

/-! What a deletion does to two neighbouring children on the store: a merge, which can take the last
key of the root and then frees it, and the two ways to borrow a key. -/
namespace ServerKit.BTree
open Function ServerKit.Lib Btree

/-- How the store gets from the node `n` to the subtree `s.kid` that the search goes on in: either
`n` has become the page of `s`, or it was the root and `s.kid` has taken its place. -/
inductive Entered {h : ℕ} (T T' : Btree) (n : Tree (h+1)) (s : Spot h) : Prop
  | kept (num : s.keysL ++ s.keysR ≠ []) (root : T'.root = T.root) (rep : Rep T' (s.page n.ptr))
      (step : Step T T' (ptrs n) (ptrs (s.page n.ptr)))
  | collapsed (num : n.keys.length = 1) (keysL : s.keysL = []) (kidsL : s.kidsL = [])
      (keysR : s.keysR = []) (kidsR : s.kidsR = []) (root : T'.root = s.kid.ptr) (rep : Rep T' s.kid)

/-- Two neighbours among the children of a node, and the node itself, lie at three addresses. -/
theorem Rep.distinct {T : Btree} {h : ℕ} {p : Ptr} {ks : List ℤ} {P S : List (Tree h)}
    {l r : Tree h} (hn : Rep T (⟨p,ks,P ++ [l,r] ++ S⟩ : Tree (h+1))) :
    p ≠ l.ptr ∧ p ≠ r.ptr ∧ l.ptr ≠ r.ptr := by
  obtain ⟨hp,hlr⟩ := List.nodup_cons.mp hn.nodup_kids
  have hl : l.ptr ∈ ptrs l := List.mem_cons_self
  have hr : r.ptr ∈ ptrs r := List.mem_cons_self
  simp only [List.flatMap_cons, List.flatMap_nil, List.append_nil, List.mem_append, not_or] at hp hlr
  refine ⟨fun heq => hp.1 (heq ▸ hl),fun heq => hp.2 (heq ▸ hr),fun heq => ?_⟩
  exact (List.nodup_append.mp hlr).2.2 _ hl _ hr heq

section Merge
variable {T : Btree} {h : ℕ} {p : Ptr} {A B : List ℤ} {P S : List (Tree h)} {l r : Tree h} {m : ℤ}

/-- A merge, with or without a collapse of the root; in both cases the child pointer at the merged
place, read from a freed root too, is the merged child. -/
theorem btreeMerge_spec (hn : Rep T (⟨p,A ++ m :: B,P ++ l :: r :: S⟩ : Tree (h+1)))
    (hP : P.length = A.length) (hS : S.length = B.length) (hl : l.keys.length+1 = T.t)
    (hr : r.keys.length+1 = T.t) (hlc : h ≠ 0 → l.kids.length = T.t)
    (hrc : h ≠ 0 → r.kids.length = T.t) :
    (btreeMerge T p A.length).t = T.t ∧ (btreeMerge T p A.length).child p A.length = l.ptr ∧
      Entered T (btreeMerge T p A.length) (⟨p,A ++ m :: B,P ++ l :: r :: S⟩ : Tree (h+1))
        ⟨A,P,join l m r,B,S⟩ := by
  have hn' : Rep T (⟨p,A ++ m :: B,P ++ [l,r] ++ S⟩ : Tree (h+1)) := by simpa using hn
  have hn₂ : Rep T (⟨p,A ++ m :: B,(P ++ [l]) ++ r :: S⟩ : Tree (h+1)) := by simpa using hn
  obtain ⟨hpl,hpr,hlr⟩ := hn'.distinct
  have hl_cell := hn.kid.cell
  have hr_cell := hn₂.kid.cell
  have hchild_l : T.child p A.length = l.ptr := hP ▸ hn.child
  have hchild_r : T.child p (A.length+1) = r.ptr := by
    have hchild := hn₂.child
    rwa [List.length_append, List.length_singleton, hP] at hchild
  have hnum : T.num p = (A ++ B).length+1 := by
    rw [show T.num p = _ from hn.cell.num, List.length_append, List.length_append, List.length_cons]
    rfl
  have hkey : T.key p A.length = m := hn.cell.key
  have hmerge := btreeMerge_merged hchild_l hchild_r hlr hpl
  set T' := btreeMerge T p A.length
  have hgap : NodeHolds T.t (T'.node p) false (A ++ B) (P.map Page.ptr ++ l.ptr :: S.map Page.ptr) := by
    have hholds : NodeHolds T.t (T.node p) false (A ++ m :: B)
        (P.map Page.ptr ++ l.ptr :: r.ptr :: S.map Page.ptr) := by simpa using hn.cell.holds
    rw [hmerge.parent]
    exact hholds.closeGap (by simpa using hP) (by simpa using hS)
  have hjoin : Cell T' l.ptr (h == 0) (l.keys ++ m :: r.keys) ((l.kids ++ r.kids).map (kidPtr h)) := by
    refine ⟨hl_cell.ne_null,(hmerge.live _ hpl.symm hlr).trans hl_cell.live,
      hl_cell.lt_next.trans_eq hmerge.next.symm,?_⟩
    rw [hmerge.t, hmerge.left, hkey, List.map_append]
    refine hl_cell.holds.absorb hr_cell.holds hl hr (by simpa using hlc) (by simpa using hrc) ?_ m
    intro h0
    obtain rfl : h = 0 := by simpa using h0
    rw [kids_eq_nil r, List.map_nil]
  have hsub : ([join l m r].flatMap ptrs).Subperm ([l,r].flatMap ptrs) := by
    refine List.Sublist.subperm ?_
    change (l.ptr :: (l.kids ++ r.kids).flatMap (kidPtrs h) ++ []).Sublist
      (l.ptr :: l.kids.flatMap (kidPtrs h) ++ (r.ptr :: r.kids.flatMap (kidPtrs h) ++ []))
    rw [List.flatMap_append, List.append_nil, List.append_nil, List.cons_append]
    exact ((List.sublist_cons_self _ _).append_left _).cons_cons _
  have hagree : ∀ q, q ≠ p → q ∉ [l,r].map Page.ptr → Agree T T' q := by
    intro q hqp hq
    simp only [List.map_cons, List.map_nil, List.mem_cons, not_or] at hq
    exact ⟨hmerge.other q hqp hq.1,hmerge.live q hqp hq.2.1⟩
  have hchild : T'.child p A.length = l.ptr := by
    have hread := hgap.child
    rwa [List.length_map, hP] at hread
  refine ⟨hmerge.t,hchild,?_⟩
  obtain hnil | hne := eq_or_ne (A ++ B) []
  · obtain ⟨rfl,rfl⟩ := List.append_eq_nil_iff.mp hnil
    obtain rfl := List.eq_nil_of_length_eq_zero hP
    obtain rfl := List.eq_nil_of_length_eq_zero hS
    refine .collapsed rfl rfl rfl rfl rfl (hmerge.collapsed hnum).1 ⟨hjoin,fun d hd => ?_,?_⟩
    · have hbelow := hn'.below hmerge.t hmerge.next.ge fun q _ => hagree q
      obtain hd | hd := List.mem_append.mp hd
      · exact hbelow l (by simp) d hd
      · exact hbelow r (by simp) d hd
    · obtain ⟨L,hperm,hL⟩ := hsub
      have hnodup := (hn'.nodup_kids.sublist (List.sublist_cons_self _ _)).sublist hL
      simpa using hperm.nodup hnodup
  · have hpos := List.length_pos_iff.mpr hne
    obtain ⟨hroot,hlive⟩ := hmerge.kept (by omega)
    have hcell : Cell T' p false (A ++ B) ((P ++ [join l m r] ++ S).map Page.ptr) := by
      refine ⟨hn.cell.ne_null,(hlive p hpr).trans hn.cell.live,
        hn.cell.lt_next.trans_eq hmerge.next.symm,?_⟩
      rw [hmerge.t]
      simpa [join] using hgap
    have hcells : ∀ d ∈ [join l m r], Cell T' d.ptr (h == 0) d.keys (d.kids.map (kidPtr h)) := by
      intro d hd
      obtain rfl := List.mem_singleton.mp hd
      exact hjoin
    have hkids : ∀ d ∈ [join l m r], ∀ e ∈ d.kids, ∃ c ∈ [l,r], e ∈ c.kids := by
      intro d hd e he
      obtain rfl := List.mem_singleton.mp hd
      obtain he | he := List.mem_append.mp he
      · exact ⟨l,by simp,he⟩
      · exact ⟨r,by simp,he⟩
    obtain ⟨hrep,hstep⟩ := hn'.rearrange hmerge.t hmerge.next hsub hagree hcell hcells hkids
    exact .kept hne hroot (by simpa [Spot.page] using hrep) (by simpa [Spot.page] using hstep)

end Merge

section Borrow
variable {T : Btree} {h : ℕ} {p : Ptr} {A B : List ℤ} {P S : List (Tree h)} {c e l r : Tree h}
  {m x : ℤ}

/-- The child that an edge brings along, which is NULL for a leaf. -/
theorem Edge.child (he : Edge e) {i : ℕ} {q : Ptr} {ks : List ℤ} {X Y : List Ptr}
    (hcell : Cell T q (h == 0) ks (X ++ e.kids.map (kidPtr h) ++ Y)) (hi : h ≠ 0 → X.length = i) :
    ((h == 0) = true → T.child q i = 0 ∧ e.kids.map (kidPtr h) = []) ∧
      ((h == 0) = false → e.kids.map (kidPtr h) = [T.child q i]) := by
  constructor
  · intro h0
    have hnull : NodeHolds T.t (T.node q) true _ _ := h0 ▸ hcell.holds
    obtain rfl : h = 0 := by simpa using h0
    exact ⟨hnull.null i,by rw [kids_eq_nil e, List.map_nil]⟩
  · intro h0
    have h0 : h ≠ 0 := by simpa using h0
    obtain ⟨d,hd⟩ := List.length_eq_one_iff.mp (he.kids h0)
    rw [hd, List.map_singleton, List.append_assoc, List.singleton_append] at hcell
    rw [hd, List.map_singleton, ← hi h0, hcell.child]

/-- Two neighbours exchange a subtree and the separator between them changes. -/
theorem Rep.exchange {T' : Btree} {ks ks' : List ℤ} {a b a' b' : Tree h}
    (hn : Rep T (⟨p,ks,P ++ a :: b :: S⟩ : Tree (h+1))) (ht : T'.t = T.t) (hnext : T'.next = T.next)
    (hlive : T'.live = T.live)
    (hnode : ∀ q, q ≠ p → q ≠ a.ptr → q ≠ b.ptr → T'.node q = T.node q) (ha : a'.ptr = a.ptr)
    (hb : b'.ptr = b.ptr) (hkids : a'.kids ++ b'.kids = a.kids ++ b.kids)
    (hp : NodeHolds T.t (T'.node p) false ks' ((P ++ a :: b :: S).map Page.ptr))
    (hna : NodeHolds T.t (T'.node a.ptr) (h == 0) a'.keys (a'.kids.map (kidPtr h)))
    (hnb : NodeHolds T.t (T'.node b.ptr) (h == 0) b'.keys (b'.kids.map (kidPtr h))) :
    Rep T' (⟨p,ks',P ++ a' :: b' :: S⟩ : Tree (h+1)) ∧
      Step T T' (ptrs (⟨p,ks,P ++ a :: b :: S⟩ : Tree (h+1)))
        (ptrs (⟨p,ks',P ++ a' :: b' :: S⟩ : Tree (h+1))) := by
  have hn' : Rep T (⟨p,ks,P ++ [a,b] ++ S⟩ : Tree (h+1)) := by simpa using hn
  have hn₂ : Rep T (⟨p,ks,(P ++ [a]) ++ b :: S⟩ : Tree (h+1)) := by simpa using hn
  have hcell_of : ∀ {q : Ptr} {isLeaf : Bool} {ls ls' : List ℤ} {cs cs' : List Ptr},
      Cell T q isLeaf ls cs → NodeHolds T.t (T'.node q) isLeaf ls' cs' → Cell T' q isLeaf ls' cs' := by
    intro q isLeaf ls ls' cs cs' hq hholds
    exact ⟨hq.ne_null,by rw [hlive, hq.live],by rw [hnext]; exact hq.lt_next,by rwa [ht]⟩
  have hagree : ∀ q, q ≠ p → q ∉ [a,b].map Page.ptr → Agree T T' q := by
    intro q hq hout
    simp only [List.map_cons, List.map_nil, List.mem_cons, not_or] at hout
    exact ⟨hnode q hq hout.1 hout.2.1,by rw [hlive]⟩
  have hcell : Cell T' p false ks' ((P ++ [a',b'] ++ S).map Page.ptr) := by
    refine hcell_of hn.cell ?_
    simpa [ha,hb] using hp
  have hcells : ∀ d ∈ [a',b'], Cell T' d.ptr (h == 0) d.keys (d.kids.map (kidPtr h)) := by
    intro d hd
    obtain rfl | hd := List.mem_cons.mp hd
    · rw [ha]
      exact hcell_of hn.kid.cell hna
    · obtain rfl := List.mem_singleton.mp hd
      rw [hb]
      exact hcell_of hn₂.kid.cell hnb
  have hfrom : ∀ d ∈ [a',b'], ∀ f ∈ d.kids, ∃ c ∈ [a,b], f ∈ c.kids := by
    intro d hd f hf
    have hmem : f ∈ a.kids ++ b.kids := by
      rw [← hkids]
      obtain rfl | hd := List.mem_cons.mp hd
      · exact List.mem_append_left _ hf
      · obtain rfl := List.mem_singleton.mp hd
        exact List.mem_append_right _ hf
    exact (List.mem_append.mp hmem).elim (fun hf => ⟨a,by simp,hf⟩) fun hf => ⟨b,by simp,hf⟩
  have hsub : ([a',b'].flatMap ptrs).Subperm ([a,b].flatMap ptrs) := by
    have hpart : ∀ a b : Tree h, ([a,b].flatMap ptrs).Perm
        (a.ptr :: b.ptr :: (a.kids ++ b.kids).flatMap (kidPtrs h)) := by
      intro a b
      change (a.ptr :: a.kids.flatMap (kidPtrs h) ++ (b.ptr :: b.kids.flatMap (kidPtrs h) ++ [])).Perm _
      rw [List.flatMap_append, List.append_nil, List.cons_append]
      exact List.perm_middle.cons _
    refine List.Perm.subperm ((hpart a' b').trans ?_)
    rw [hkids, ha, hb]
    exact (hpart a b).symm
  obtain ⟨hrep,hstep⟩ := hn'.rearrange ht hnext hsub hagree hcell hcells hfrom
  exact ⟨by simpa using hrep,by simpa using hstep⟩

theorem borrowFromNext_spec (hn : Rep T (⟨p,A ++ m :: B,P ++ c :: join e x r :: S⟩ : Tree (h+1)))
    (he : Edge e) (hptr : r.ptr = e.ptr) (hnum : c.keys.length < 2*T.t-1)
    (hc : h ≠ 0 → c.kids.length = c.keys.length+1) (hr : h ≠ 0 → r.kids.length = r.keys.length+1) :
    let T' := borrowFromNext T p A.length c.ptr e.ptr
    T'.root = T.root ∧ Rep T' (⟨p,A ++ x :: B,P ++ join c m e :: r :: S⟩ : Tree (h+1)) ∧
      Step T T' (ptrs (⟨p,A ++ m :: B,P ++ c :: join e x r :: S⟩ : Tree (h+1)))
        (ptrs (⟨p,A ++ x :: B,P ++ join c m e :: r :: S⟩ : Tree (h+1))) := by
  intro T'
  have hn' : Rep T (⟨p,A ++ m :: B,P ++ [c,join e x r] ++ S⟩ : Tree (h+1)) := by simpa using hn
  have hn₂ : Rep T (⟨p,A ++ m :: B,(P ++ [c]) ++ join e x r :: S⟩ : Tree (h+1)) := by
    simpa using hn
  obtain ⟨hpc,hpr,hcr⟩ : p ≠ c.ptr ∧ p ≠ e.ptr ∧ c.ptr ≠ e.ptr := hn'.distinct
  have hr_cell : Cell T e.ptr (h == 0) (x :: r.keys)
      ([] ++ e.kids.map (kidPtr h) ++ r.kids.map (kidPtr h)) := by
    simpa [join,he.keys] using hn₂.kid.cell
  have hkey : T.key e.ptr 0 = x := Cell.key (A := []) hr_cell
  have hT' : T' = _ := borrowFromNext_eq hpr hcr
  rw [show T.key p A.length = m from hn.cell.key, hkey] at hT'
  obtain ⟨hleaf,hinner⟩ := he.child hr_cell fun _ => rfl
  have ht : T'.t = T.t := by rw [hT']; rfl
  have hnext : T'.next = T.next := by rw [hT']; rfl
  have hlive : T'.live = T.live := by rw [hT']; rfl
  have hnode : ∀ q, q ≠ p → q ≠ c.ptr → q ≠ e.ptr → T'.node q = T.node q := by
    intro q h₁ h₂ h₃
    rw [hT', modify_node_ne h₃, modify_node_ne h₁, modify_node_ne h₂]
  have hp : NodeHolds T.t (T'.node p) false (A ++ x :: B)
      ((P ++ c :: join e x r :: S).map Page.ptr) := by
    rw [hT', modify_node_ne hpr, modify_node_self, modify_node_ne hpc]
    exact hn.cell.holds.setKey x
  have hnc : NodeHolds T.t (T'.node c.ptr) (h == 0) (join c m e).keys
      ((join c m e).kids.map (kidPtr h)) := by
    rw [hT', modify_node_ne hcr, modify_node_ne hpc.symm, modify_node_self]
    simp only [join, he.keys, List.map_append]
    exact hn.kid.cell.holds.pushBack hnum m hleaf fun h0 =>
      ⟨by simpa using hc (by simpa using h0),hinner h0⟩
  have hnr : NodeHolds T.t (T'.node (join e x r).ptr) (h == 0) r.keys (r.kids.map (kidPtr h)) := by
    change NodeHolds T.t (T'.node e.ptr) _ _ _
    rw [hT', modify_node_self, modify_node_ne hpr.symm, modify_node_ne hcr.symm]
    refine hr_cell.holds.popFront hinner (fun h0 => by simpa using hr (by simpa using h0)) fun h0 => ?_
    obtain rfl : h = 0 := by simpa using h0
    rw [kids_eq_nil r, List.map_nil]
  have hcptr : (join c m e).ptr = c.ptr := rfl
  have hkids : (join c m e).kids ++ r.kids = c.kids ++ (join e x r).kids := List.append_assoc ..
  obtain ⟨hrep,hstep⟩ := hn.exchange ht hnext hlive hnode hcptr hptr hkids hp hnc hnr
  exact ⟨by rw [hT']; rfl,hrep,hstep⟩

theorem borrowFromPrev_spec (hn : Rep T (⟨p,A ++ m :: B,P ++ join l x e :: c :: S⟩ : Tree (h+1)))
    (he : Edge e) (hptr : e.ptr = c.ptr) (hnum : c.keys.length < 2*T.t-1)
    (hc : h ≠ 0 → c.kids.length = c.keys.length+1) (hl : h ≠ 0 → l.kids.length = l.keys.length+1) :
    let T' := borrowFromPrev T p (A.length+1) c.ptr l.ptr
    T'.root = T.root ∧ Rep T' (⟨p,A ++ x :: B,P ++ l :: join e m c :: S⟩ : Tree (h+1)) ∧
      Step T T' (ptrs (⟨p,A ++ m :: B,P ++ join l x e :: c :: S⟩ : Tree (h+1)))
        (ptrs (⟨p,A ++ x :: B,P ++ l :: join e m c :: S⟩ : Tree (h+1))) := by
  intro T'
  have hn' : Rep T (⟨p,A ++ m :: B,P ++ [join l x e,c] ++ S⟩ : Tree (h+1)) := by simpa using hn
  have hn₂ : Rep T (⟨p,A ++ m :: B,(P ++ [join l x e]) ++ c :: S⟩ : Tree (h+1)) := by
    simpa using hn
  obtain ⟨hpl,hpc,hlc⟩ : p ≠ l.ptr ∧ p ≠ c.ptr ∧ l.ptr ≠ c.ptr := hn'.distinct
  have hl_cell : Cell T l.ptr (h == 0) (l.keys ++ [x])
      (l.kids.map (kidPtr h) ++ e.kids.map (kidPtr h) ++ []) := by
    simpa [join,he.keys] using hn.kid.cell
  have hlnum : T.num l.ptr = l.keys.length+1 := by
    rw [show T.num l.ptr = _ from hl_cell.num, List.length_append, List.length_singleton]
  have hkey : T.key l.ptr l.keys.length = x := hl_cell.key
  have hT' : T' = _ := borrowFromPrev_eq hpc hpl hlc.symm
  rw [Nat.add_sub_cancel, show T.key p A.length = m from hn.cell.key, hlnum, Nat.add_sub_cancel, hkey]
    at hT'
  obtain ⟨hleaf,hinner⟩ := he.child hl_cell fun h0 => by rw [List.length_map, hl h0]
  have ht : T'.t = T.t := by rw [hT']; rfl
  have hnext : T'.next = T.next := by rw [hT']; rfl
  have hlive : T'.live = T.live := by rw [hT']; rfl
  have hnode : ∀ q, q ≠ p → q ≠ l.ptr → q ≠ c.ptr → T'.node q = T.node q := by
    intro q h₁ h₂ h₃
    rw [hT', modify_node_ne h₂, modify_node_ne h₁, modify_node_ne h₃]
  have hp : NodeHolds T.t (T'.node p) false (A ++ x :: B)
      ((P ++ join l x e :: c :: S).map Page.ptr) := by
    rw [hT', modify_node_ne hpl, modify_node_self, modify_node_ne hpc]
    exact hn.cell.holds.setKey x
  have hnl : NodeHolds T.t (T'.node (join l x e).ptr) (h == 0) l.keys (l.kids.map (kidPtr h)) := by
    change NodeHolds T.t (T'.node l.ptr) _ _ _
    rw [hT', modify_node_self, modify_node_ne hpl.symm, modify_node_ne hlc]
    have hholds := hl_cell.holds
    rw [List.append_nil] at hholds
    refine hholds.popBack (fun h0 => by simpa using hl (by simpa using h0)) fun h0 => ?_
    obtain rfl : h = 0 := by simpa using h0
    rw [kids_eq_nil l, List.map_nil]
  have hnc : NodeHolds T.t (T'.node c.ptr) (h == 0) (join e m c).keys
      ((join e m c).kids.map (kidPtr h)) := by
    rw [hT', modify_node_ne hlc.symm, modify_node_ne hpc.symm, modify_node_self]
    simp only [join, he.keys, List.map_append, List.nil_append]
    exact hn₂.kid.cell.holds.pushFront hnum m hleaf fun h0 =>
      ⟨by simpa using hc (by simpa using h0),hinner h0⟩
  have hlptr : l.ptr = (join l x e).ptr := rfl
  have hptr' : (join e m c).ptr = c.ptr := hptr
  have hkids : l.kids ++ (join e m c).kids = (join l x e).kids ++ c.kids :=
    (List.append_assoc ..).symm
  obtain ⟨hrep,hstep⟩ := hn.exchange ht hnext hlive hnode hlptr hptr' hkids hp hnl hnc
  exact ⟨by rw [hT']; rfl,hrep,hstep⟩

end Borrow
end ServerKit.BTree
