import ServerKit.BTree.Heap
import ServerKit.BTree.Tree
import Mathlib.Data.List.Perm.Subperm

/-! What it means that a node store holds a tree, and how a tree is put together again after some
children of one node have changed. -/
namespace ServerKit.BTree
open ServerKit.Lib

/-- The node `p` is allocated and holds the keys `ks` and the children `cs`. -/
structure Cell (T : Btree) (p : Ptr) (isLeaf : Bool) (ks : List ℤ) (cs : List Ptr) : Prop where
  ne_null : p ≠ 0
  live : T.live p = true
  lt_next : p < T.next
  holds : NodeHolds T.t (T.node p) isLeaf ks cs

theorem Cell.key {T : Btree} {p : Ptr} {b : Bool} {A B : List ℤ} {k : ℤ} {cs : List Ptr}
    (h : Cell T p b (A ++ k :: B) cs) : T.key p A.length = k := h.holds.key

theorem Cell.key_getElem {T : Btree} {p : Ptr} {b : Bool} {ks : List ℤ} {cs : List Ptr} {i : ℕ}
    (h : Cell T p b ks cs) (hi : i < ks.length) : T.key p i = ks[i] := by
  obtain ⟨pad,hpad⟩ := h.holds.keys
  rw [Btree.key, ← hpad, List.getD_append _ _ _ _ hi, List.getD_eq_getElem]

theorem Cell.child {T : Btree} {p c : Ptr} {b : Bool} {ks : List ℤ} {P S : List Ptr}
    (h : Cell T p b ks (P ++ c :: S)) : T.child p P.length = c := h.holds.child

theorem Cell.num {T : Btree} {p : Ptr} {b : Bool} {ks : List ℤ} {cs : List Ptr}
    (h : Cell T p b ks cs) : T.num p = ks.length := h.holds.num

theorem Cell.leaf {T : Btree} {p : Ptr} {b : Bool} {ks : List ℤ} {cs : List Ptr}
    (h : Cell T p b ks cs) : T.leaf p = b := h.holds.leaf

/-- The store holds the subtree. -/
def KidRep (T : Btree) : (h : ℕ) → Kid h → Prop
  | 0,_ => True
  | h+1,n => Cell T n.ptr (h == 0) n.keys (n.kids.map (kidPtr h)) ∧ ∀ c ∈ n.kids, KidRep T h c

/-- The store holds the tree, no two nodes of which have one address. -/
structure Rep {h : ℕ} (T : Btree) (n : Tree h) : Prop where
  cell : Cell T n.ptr (h == 0) n.keys (n.kids.map (kidPtr h))
  kids : ∀ c ∈ n.kids, KidRep T h c
  nodup : (ptrs n).Nodup

/-- A valid B-tree but for the order of its keys. -/
structure IsBtree {h : ℕ} (T : Btree) (n : Tree h) : Prop where
  root : T.root = n.ptr
  rep : Rep T n
  shape : ShapeValid T.t n

/-- A node that two stores agree on. -/
def Agree (T T' : Btree) (p : Ptr) : Prop := T'.node p = T.node p ∧ T'.live p = T.live p

variable {T T' : Btree}

theorem Cell.frame {p : Ptr} {isLeaf : Bool} {ks : List ℤ} {cs : List Ptr}
    (h : Cell T p isLeaf ks cs) (ht : T'.t = T.t) (hnext : T.next ≤ T'.next) (hp : Agree T T' p) :
    Cell T' p isLeaf ks cs where
  ne_null := h.ne_null
  live := hp.2.trans h.live
  lt_next := h.lt_next.trans_le hnext
  holds := by
    rw [ht, hp.1]
    exact h.holds

/-- A subtree is held as long as nothing happens to its nodes. -/
theorem KidRep.frame {h : ℕ} {c : Kid h} (hc : KidRep T h c) (ht : T'.t = T.t)
    (hnext : T.next ≤ T'.next) (hagree : ∀ p ∈ kidPtrs h c, Agree T T' p) : KidRep T' h c := by
  induction h with
  | zero => trivial
  | succ h ih =>
    refine ⟨hc.1.frame ht hnext (hagree _ List.mem_cons_self),fun d hd => ih (hc.2 d hd) ?_⟩
    exact fun p hp => hagree p (List.mem_cons_of_mem _ (List.mem_flatMap_of_mem hd hp))

theorem KidRep.exists_cell {h : ℕ} {c : Kid h} (hc : KidRep T h c) :
    ∀ p ∈ kidPtrs h c, ∃ b ks cs, Cell T p b ks cs := by
  induction h with
  | zero => exact fun p hp => absurd hp List.not_mem_nil
  | succ h ih =>
    intro p hp
    obtain rfl | hp := List.mem_cons.mp hp
    · exact ⟨_,_,_,hc.1⟩
    · obtain ⟨d,hd,hp⟩ := List.mem_flatMap.mp hp
      exact ih (hc.2 d hd) p hp

theorem KidRep.lt_next {h : ℕ} {c : Kid h} (hc : KidRep T h c) : ∀ p ∈ kidPtrs h c, p < T.next := by
  intro p hp
  obtain ⟨b,ks,cs,hcell⟩ := hc.exists_cell p hp
  exact hcell.lt_next

section Node
variable {h : ℕ} {n : Tree h}

theorem Rep.exists_cell (hn : Rep T n) : ∀ p ∈ ptrs n, ∃ b ks cs, Cell T p b ks cs :=
  KidRep.exists_cell (h := h+1) (c := n) ⟨hn.cell,hn.kids⟩

theorem Rep.lt_next (hn : Rep T n) : ∀ p ∈ ptrs n, p < T.next :=
  KidRep.lt_next (h := h+1) (c := n) ⟨hn.cell,hn.kids⟩

theorem Rep.live (hn : Rep T n) : ∀ p ∈ ptrs n, T.live p = true := by
  intro p hp
  obtain ⟨b,ks,cs,hcell⟩ := hn.exists_cell p hp
  exact hcell.live

theorem Rep.frame (hn : Rep T n) (ht : T'.t = T.t) (hnext : T.next ≤ T'.next)
    (hagree : ∀ p ∈ ptrs n, Agree T T' p) : Rep T' n := by
  obtain ⟨hcell,hkids⟩ := KidRep.frame (h := h+1) (c := n) ⟨hn.cell,hn.kids⟩ ht hnext hagree
  exact ⟨hcell,hkids,hn.nodup⟩

end Node

/-- A step from one store to another that touches only the nodes `old` of a subtree and leaves the
nodes `new`, the additional ones freshly allocated. -/
structure Step (T T' : Btree) (old new : List Ptr) : Prop where
  t : T'.t = T.t
  next : T.next ≤ T'.next
  agree : ∀ q < T.next, q ∉ old → Agree T T' q
  fresh : ∀ q ∈ new, q ∈ old ∨ T.next ≤ q

namespace Step
variable {T'' : Btree} {old mid new : List Ptr}

theorem refl (T : Btree) (old : List Ptr) : Step T T old old :=
  ⟨rfl,le_rfl,fun _ _ _ => ⟨rfl,rfl⟩,fun _ => .inl⟩

theorem trans (h₁ : Step T T' old mid) (h₂ : Step T' T'' mid new) : Step T T'' old new where
  t := h₂.t.trans h₁.t
  next := h₁.next.trans h₂.next
  agree q hq hold := by
    have hmid : q ∉ mid := fun hmid => (h₁.fresh q hmid).elim hold (not_le.mpr hq)
    have ha := h₁.agree q hq hold
    have hb := h₂.agree q (hq.trans_le h₁.next) hmid
    exact ⟨hb.1.trans ha.1,hb.2.trans ha.2⟩
  fresh q hq := (h₂.fresh q hq).elim (h₁.fresh q) fun hge => .inr (h₁.next.trans hge)

/-- The nodes around those that are touched. -/
theorem frame (h : Step T T' old new) (X Y : List Ptr) :
    Step T T' (X ++ old ++ Y) (X ++ new ++ Y) where
  t := h.t
  next := h.next
  agree q hq hold := h.agree q hq fun hmem => hold (by simp [hmem])
  fresh q hq := by
    simp only [List.mem_append] at hq ⊢
    have := h.fresh q
    tauto

end Step

/-- Fresh or old addresses in the place of old ones. -/
theorem nodup_replace {p N : Ptr} {X Y Y' Z : List Ptr} (h : (p :: (X ++ Y ++ Z)).Nodup)
    (h' : (p :: Y').Nodup) (hfresh : ∀ q ∈ Y', q ∈ p :: Y ∨ N ≤ q)
    (hlt : ∀ q ∈ p :: (X ++ Y ++ Z), q < N) : (p :: (X ++ Y' ++ Z)).Nodup := by
  simp only [List.nodup_cons, List.nodup_append, List.mem_append, List.mem_cons, not_or] at *
  obtain ⟨⟨⟨hpX,hpY⟩,hpZ⟩,⟨hX,hY,hXY⟩,hZ,hXYZ⟩ := h
  have hout : ∀ q ∈ Y', q ∉ X ∧ q ∉ Z := by
    intro q hq
    have hcase := hfresh q hq
    constructor
    · intro hqX
      have hltq := hlt q (by simp [hqX])
      obtain (rfl | hqY) | hge := hcase
      · exact hpX hqX
      · exact hXY q hqX q hqY rfl
      · exact absurd hltq (not_lt.mpr hge)
    · intro hqZ
      have hltq := hlt q (by simp [hqZ])
      obtain (rfl | hqY) | hge := hcase
      · exact hpZ hqZ
      · exact hXYZ q (.inr hqY) q hqZ rfl
      · exact absurd hltq (not_lt.mpr hge)
  refine ⟨⟨⟨hpX,h'.1⟩,hpZ⟩,⟨hX,h'.2,?_⟩,hZ,?_⟩
  · rintro a ha b hb rfl
    exact (hout a hb).1 ha
  · rintro a (ha | ha) b hb rfl
    · exact hXYZ a (.inl ha) a hb rfl
    · exact (hout a ha).2 hb

section Rebuild
variable {h : ℕ} {p : Ptr} {ks ks' : List ℤ} {P M M' S : List (Tree h)} {c c' : Tree h}

theorem ptrs_append (p : Ptr) (ks : List ℤ) (P M S : List (Tree h)) :
    ptrs (⟨p,ks,P ++ M ++ S⟩ : Tree (h+1)) =
      p :: (P.flatMap ptrs ++ M.flatMap ptrs ++ S.flatMap ptrs) := by
  rw [← List.flatMap_append, ← List.flatMap_append]
  rfl

/-- Children `M` of a node make place for children `M'`. -/
theorem Rep.rebuild (hn : Rep T (⟨p,ks,P ++ M ++ S⟩ : Tree (h+1)))
    (hstep : Step T T' (p :: M.flatMap ptrs) (p :: M'.flatMap ptrs))
    (hcell : Cell T' p false ks' ((P ++ M' ++ S).map Page.ptr))
    (hkids : ∀ d ∈ M', KidRep T' (h+1) d) (hnodup : (p :: M'.flatMap ptrs).Nodup) :
    Rep T' (⟨p,ks',P ++ M' ++ S⟩ : Tree (h+1)) ∧
      Step T T' (ptrs (⟨p,ks,P ++ M ++ S⟩ : Tree (h+1))) (ptrs (⟨p,ks',P ++ M' ++ S⟩ : Tree (h+1))) := by
  have hlt := hn.lt_next
  have hold := hn.nodup
  rw [ptrs_append] at hlt hold
  have hnew := nodup_replace hold hnodup (fun q hq => hstep.fresh q (List.mem_cons_of_mem _ hq)) hlt
  simp only [List.nodup_cons, List.nodup_append, List.mem_append, not_or] at hold
  obtain ⟨⟨⟨hpP,-⟩,hpS⟩,⟨-,-,hPM⟩,-,hPMS⟩ := hold
  refine ⟨⟨hcell,fun d hd => ?_,by rwa [ptrs_append]⟩,?_⟩
  · -- the other children are where they were
    have hframe : ∀ d ∈ P ++ M ++ S, (∀ q ∈ ptrs d, q ≠ p ∧ q ∉ M.flatMap ptrs) →
        KidRep T' (h+1) d := by
      intro d hd hout
      refine (hn.kids d hd).frame hstep.t hstep.next fun q hq => hstep.agree q ?_ ?_
      · exact (hn.kids d hd).lt_next q hq
      · simpa using hout q hq
    simp only [List.mem_append] at hd
    obtain (hd | hd) | hd := hd
    · refine hframe d (by simp [hd]) fun q hq => ?_
      have hqP : q ∈ P.flatMap ptrs := List.mem_flatMap_of_mem hd hq
      exact ⟨ne_of_mem_of_not_mem hqP hpP,fun hqM => hPM q hqP q hqM rfl⟩
    · exact hkids d hd
    · refine hframe d (by simp [hd]) fun q hq => ?_
      have hqS : q ∈ S.flatMap ptrs := List.mem_flatMap_of_mem hd hq
      exact ⟨ne_of_mem_of_not_mem hqS hpS,fun hqM => hPMS q (.inr hqM) q hqS rfl⟩
  · rw [ptrs_append, ptrs_append]
    refine ⟨hstep.t,hstep.next,fun q hq hout => hstep.agree q hq ?_,fun q hq => ?_⟩
    · simp only [List.mem_cons, List.mem_append, not_or] at hout ⊢
      exact ⟨hout.1,hout.2.1.2⟩
    · have hcase := hstep.fresh q
      simp only [List.mem_cons, List.mem_append] at hq hcase ⊢
      tauto

/-- What hangs below the children `M` has none of their addresses. -/
theorem notMem_map_ptr {M : List (Tree h)} (hM : (M.flatMap ptrs).Nodup) {c : Tree h} (hc : c ∈ M)
    {d : Kid h} (hd : d ∈ c.kids) {q : Ptr} (hq : q ∈ kidPtrs h d) : q ∉ M.map Page.ptr := by
  induction M with
  | nil => simp
  | cons c₀ M ih =>
    rw [List.flatMap_cons, List.nodup_append] at hM
    obtain ⟨hc₀,hM',hdisj⟩ := hM
    have hbelow : ∀ c : Tree h, d ∈ c.kids → q ∈ c.kids.flatMap (kidPtrs h) := fun c hd =>
      List.mem_flatMap_of_mem hd hq
    rw [List.map_cons, List.mem_cons, not_or]
    obtain rfl | hc := List.mem_cons.mp hc
    · refine ⟨fun heq => (List.nodup_cons.mp hc₀).1 (heq ▸ hbelow c hd),fun hmem => ?_⟩
      obtain ⟨c',hc',rfl⟩ := List.mem_map.mp hmem
      have hq' : c'.ptr ∈ M.flatMap ptrs := List.mem_flatMap_of_mem hc' List.mem_cons_self
      exact hdisj _ (List.mem_cons_of_mem _ (hbelow c hd)) _ hq' rfl
    · refine ⟨fun heq => ?_,ih hM' hc⟩
      have hq' : q ∈ M.flatMap ptrs :=
        List.mem_flatMap_of_mem hc (List.mem_cons_of_mem _ (hbelow c hd))
      exact hdisj q (by rw [heq]; exact List.mem_cons_self) q hq' rfl

theorem Rep.nodup_kids (hn : Rep T (⟨p,ks,P ++ M ++ S⟩ : Tree (h+1))) :
    (p :: M.flatMap ptrs).Nodup := by
  have hold := hn.nodup
  rw [ptrs_append] at hold
  refine hold.sublist (List.Sublist.cons_cons p ?_)
  exact (List.sublist_append_right _ _).trans (List.sublist_append_left _ _)

/-- Nothing happens below the children `M` as long as only they and their parent change. -/
theorem Rep.below (hn : Rep T (⟨p,ks,P ++ M ++ S⟩ : Tree (h+1))) (ht : T'.t = T.t)
    (hnext : T.next ≤ T'.next)
    (hagree : ∀ q < T.next, q ≠ p → q ∉ M.map Page.ptr → Agree T T' q) :
    ∀ c ∈ M, ∀ e ∈ c.kids, KidRep T' h e := by
  obtain ⟨hpM,hM⟩ := List.nodup_cons.mp hn.nodup_kids
  intro c hc e he
  have hc' := hn.kids c (by simp [hc])
  have hlt := KidRep.lt_next (hc'.2 e he)
  refine (hc'.2 e he).frame ht hnext fun q hq => hagree q (hlt q hq) ?_ (notMem_map_ptr hM hc he hq)
  rintro rfl
  have hmem : q ∈ c.kids.flatMap (kidPtrs h) := List.mem_flatMap_of_mem he hq
  exact hpM (List.mem_flatMap_of_mem hc (List.mem_cons_of_mem _ hmem))

/-- Children `M` of a node exchange keys and subtrees, and some of them go. -/
theorem Rep.rearrange (hn : Rep T (⟨p,ks,P ++ M ++ S⟩ : Tree (h+1))) (ht : T'.t = T.t)
    (hnext : T'.next = T.next) (hsub : (M'.flatMap ptrs).Subperm (M.flatMap ptrs))
    (hagree : ∀ q, q ≠ p → q ∉ M.map Page.ptr → Agree T T' q)
    (hcell : Cell T' p false ks' ((P ++ M' ++ S).map Page.ptr))
    (hcells : ∀ d ∈ M', Cell T' d.ptr (h == 0) d.keys (d.kids.map (kidPtr h)))
    (hkids : ∀ d ∈ M', ∀ e ∈ d.kids, ∃ c ∈ M, e ∈ c.kids) :
    Rep T' (⟨p,ks',P ++ M' ++ S⟩ : Tree (h+1)) ∧
      Step T T' (ptrs (⟨p,ks,P ++ M ++ S⟩ : Tree (h+1))) (ptrs (⟨p,ks',P ++ M' ++ S⟩ : Tree (h+1))) := by
  obtain ⟨hpM,hM⟩ := List.nodup_cons.mp hn.nodup_kids
  refine hn.rebuild ⟨ht,hnext.ge,fun q hq hout => ?_,fun q hq => .inl ?_⟩ hcell (fun d hd => ?_) ?_
  · simp only [List.mem_cons, not_or] at hout
    refine hagree q hout.1 fun hmem => hout.2 ?_
    obtain ⟨c,hc,rfl⟩ := List.mem_map.mp hmem
    exact List.mem_flatMap_of_mem hc List.mem_cons_self
  · obtain rfl | hq := List.mem_cons.mp hq
    · exact List.mem_cons_self
    · exact List.mem_cons_of_mem _ (hsub.subset hq)
  · refine ⟨hcells d hd,fun e he => ?_⟩
    obtain ⟨c,hc,he'⟩ := hkids d hd e he
    exact hn.below ht hnext.ge (fun q _ => hagree q) c hc e he'
  · obtain ⟨l,hperm,hl⟩ := hsub
    exact List.nodup_cons.mpr ⟨fun hmem => hpM (hl.subset (hperm.symm.subset hmem)),
      hperm.nodup (hM.sublist hl)⟩

/-- The subtree that hangs at one place of a node. -/
theorem Rep.kid (hn : Rep T (⟨p,ks,P ++ c :: S⟩ : Tree (h+1))) : Rep T c := by
  have hc := hn.kids c (by simp)
  refine ⟨hc.1,hc.2,?_⟩
  have hnodup := hn.nodup
  rw [← List.singleton_append, ← List.append_assoc, ptrs_append, List.flatMap_singleton] at hnodup
  exact ((List.nodup_cons.mp hnodup).2.sublist (List.sublist_append_left _ _)).sublist
    (List.sublist_append_right _ _)

theorem Rep.notMem_kid (hn : Rep T (⟨p,ks,P ++ c :: S⟩ : Tree (h+1))) : p ∉ ptrs c := by
  have hnodup := hn.nodup
  rw [← List.singleton_append, ← List.append_assoc, ptrs_append, List.flatMap_singleton] at hnodup
  exact fun hmem => (List.nodup_cons.mp hnodup).1 (by simp [hmem])

theorem Rep.child (hn : Rep T (⟨p,ks,P ++ c :: S⟩ : Tree (h+1))) : T.child p P.length = c.ptr := by
  have hcell := hn.cell
  rw [List.map_append, List.map_cons] at hcell
  have hchild := hcell.child
  rw [List.length_map] at hchild
  exact hchild

/-- Up to the last key every child pointer leads to a subtree. -/
theorem Rep.exists_child {cs : List (Tree h)} {i : ℕ} (hn : Rep T (⟨p,ks,cs⟩ : Tree (h+1)))
    (harity : cs.length = ks.length+1) (hi : i ≤ ks.length) :
    ∃ c, cs[i]? = some c ∧ c ∈ cs ∧ T.child p i = c.ptr ∧ Rep T c := by
  obtain ⟨A,B,P,c,S,-,rfl,-,rfl,-⟩ := exists_place harity hi
  exact ⟨c,by simp,by simp,hn.child,hn.kid⟩

/-- One subtree of a node is replaced by another one with the same root. -/
theorem Rep.descend (hn : Rep T (⟨p,ks,P ++ c :: S⟩ : Tree (h+1)))
    (hstep : Step T T' (ptrs c) (ptrs c')) (hc' : Rep T' c') (hptr : c'.ptr = c.ptr) :
    Rep T' (⟨p,ks,P ++ c' :: S⟩ : Tree (h+1)) ∧
      Step T T' (ptrs (⟨p,ks,P ++ c :: S⟩ : Tree (h+1))) (ptrs (⟨p,ks,P ++ c' :: S⟩ : Tree (h+1))) := by
  have hpc : p ∉ ptrs c := hn.notMem_kid
  have hpc' : p ∉ ptrs c' := fun hmem =>
    (hstep.fresh p hmem).elim hpc (not_le.mpr hn.cell.lt_next)
  have hcell := hn.cell.frame hstep.t hstep.next (hstep.agree p hn.cell.lt_next hpc)
  have hn' : Rep T (⟨p,ks,P ++ [c] ++ S⟩ : Tree (h+1)) := by simpa using hn
  have hstep' : Step T T' (p :: [c].flatMap ptrs) (p :: [c'].flatMap ptrs) := by
    simpa using hstep.frame [p] []
  have hcell' : Cell T' p false ks ((P ++ [c'] ++ S).map Page.ptr) := by
    have hptrs : (P ++ [c'] ++ S).map Page.ptr = (P ++ c :: S).map Page.ptr := by simp [hptr]
    rw [hptrs]
    exact hcell
  have hkids : ∀ d ∈ [c'], KidRep T' (h+1) d := by
    intro d hd
    obtain rfl := List.mem_singleton.mp hd
    exact ⟨hc'.cell,hc'.kids⟩
  have hnodup : (p :: [c'].flatMap ptrs).Nodup := by
    rw [List.flatMap_singleton]
    exact List.nodup_cons.mpr ⟨hpc',hc'.nodup⟩
  obtain ⟨hrep,hstep''⟩ := hn'.rebuild hstep' hcell' hkids hnodup
  exact ⟨by simpa using hrep,by simpa using hstep''⟩

end Rebuild
end ServerKit.BTree
