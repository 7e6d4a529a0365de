import ServerKit.BTree.Store

/-! A store and its B-tree determine each other: the keys in order can be read off the store, and
there is a store for every tree. -/
namespace ServerKit.BTree
open ServerKit.Lib

section Unique
variable {T : Btree}

theorem prefix_unique {α : Type} {l l' m : List α} (h : l <+: m) (h' : l' <+: m)
    (hlen : l.length = l'.length) : l = l' :=
  (List.prefix_of_prefix_length_le h h' hlen.le).eq_of_length hlen

theorem NodeHolds.keys_unique {t : ℕ} {n : BtreeNode} {b b' : Bool} {ks ks' : List ℤ}
    {cs cs' : List Ptr} (h : NodeHolds t n b ks cs) (h' : NodeHolds t n b' ks' cs') : ks = ks' :=
  prefix_unique h.keys h'.keys (h.num.symm.trans h'.num)

/-- One address is the root of one tree only, as far as its keys are concerned. -/
theorem KidRep.inorder_eq {t t' h h' : ℕ} {n : Tree h} {n' : Tree h'} (hn : KidRep T (h+1) n)
    (hn' : KidRep T (h'+1) n') (hfit : FitsBelow t n) (hfit' : FitsBelow t' n')
    (hptr : n.ptr = n'.ptr) : inorder n = inorder n' := by
  induction h generalizing h' with
  | zero =>
    obtain ⟨p,ks,cs⟩ := n
    obtain ⟨p',ks',cs'⟩ := n'
    obtain rfl : p = p' := hptr
    obtain rfl := hn.1.holds.keys_unique hn'.1.holds
    have hleaf : (h' == 0) = true := (hn'.1.leaf.symm.trans hn.1.leaf)
    obtain rfl : h' = 0 := by simpa using hleaf
    rw [show cs = [] from kids_eq_nil ⟨p,ks,cs⟩, show cs' = [] from kids_eq_nil ⟨p,ks,cs'⟩]
  | succ h ih =>
    obtain _ | h' := h'
    · have hleaf : ((0 : ℕ) == 0) = (h+1 == 0) := by
        rw [← hn'.1.leaf, ← hptr]
        exact hn.1.leaf
      simp at hleaf
    · obtain ⟨p,ks,cs⟩ := n
      obtain ⟨p',ks',cs'⟩ := n'
      obtain rfl : p = p' := hptr
      obtain rfl := hn.1.holds.keys_unique hn'.1.holds
      have hlen : cs.length = cs'.length :=
        (hfit.arity (Nat.succ_ne_zero h)).trans (hfit'.arity (Nat.succ_ne_zero h')).symm
      have hptrs : cs.map Page.ptr = cs'.map Page.ptr :=
        prefix_unique hn.1.holds.childrens hn'.1.holds.childrens (by simpa using hlen)
      have hkeys : cs.map inorder = cs'.map inorder := by
        refine List.ext_getElem (by simpa using hlen) fun i hi hi' => ?_
        rw [List.length_map] at hi hi'
        rw [List.getElem_map, List.getElem_map]
        have hmem : cs[i] ∈ cs := List.getElem_mem hi
        have hmem' : cs'[i] ∈ cs' := List.getElem_mem hi'
        refine ih (hn.2 _ hmem) (hn'.2 _ hmem') (fits_iff.mp (hfit.kids _ hmem)).2
          (fits_iff.mp (hfit'.kids _ hmem')).2 ?_
        have hget := congrArg (·[i]?) hptrs
        simpa [hi,hi'] using hget
      change weave (cs.map inorder) ks = weave (cs'.map inorder) ks
      rw [hkeys]

/-- The keys in order of the B-tree that a store holds; under a NULL root there are none. -/
inductive HoldsKeys (T : Btree) : List ℤ → Prop
  | null (root : T.root = 0) : HoldsKeys T []
  | tree {h : ℕ} {n : Tree h} (hT : IsBtree T n) : HoldsKeys T (inorder n)

theorem HoldsKeys.unique {L L' : List ℤ} (h : HoldsKeys T L) (h' : HoldsKeys T L') : L = L' := by
  cases h with
  | null root =>
    cases h' with
    | null => rfl
    | tree hT => exact absurd (hT.root.symm.trans root) hT.rep.cell.ne_null
  | tree hT =>
    cases h' with
    | null root => exact absurd (hT.root.symm.trans root) hT.rep.cell.ne_null
    | tree hT' =>
      exact KidRep.inorder_eq ⟨hT.rep.cell,hT.rep.kids⟩ ⟨hT'.rep.cell,hT'.rep.kids⟩
        hT.shape.toFitsBelow hT'.shape.toFitsBelow (hT.root.symm.trans hT'.root)

end Unique

section Exists
variable {t h : ℕ}

def pageRecord (t : ℕ) (isLeaf : Bool) (ks : List ℤ) (cs : List Ptr) : BtreeNode where
  keys := ks ++ List.replicate (2*t-1-ks.length) 0
  childrens := if isLeaf then List.replicate (2*t) 0 else cs ++ List.replicate (2*t-cs.length) 0
  num := ks.length
  leaf := isLeaf

theorem nodeHolds_pageRecord {isLeaf : Bool} {ks : List ℤ} {cs : List Ptr} (hk : ks.length ≤ 2*t-1)
    (hc : cs.length ≤ 2*t) (hleaf : isLeaf = true → cs = []) :
    NodeHolds t (pageRecord t isLeaf ks cs) isLeaf ks cs where
  leaf := rfl
  num := rfl
  keys := List.prefix_append ..
  keys_size := by
    simp only [pageRecord, List.length_append, List.length_replicate]
    omega
  childrens := by
    cases isLeaf with
    | true => simp [hleaf]
    | false => exact List.prefix_append ..
  childrens_size := by
    cases isLeaf with
    | true => simp [pageRecord]
    | false =>
      simp [pageRecord]
      omega
  nulls hb := by simp [pageRecord,hb]

/-- The records of a subtree with their addresses. -/
def kidRecords (t : ℕ) : (h : ℕ) → Kid h → List (Ptr × BtreeNode)
  | 0,_ => []
  | h+1,n => (n.ptr,pageRecord t (h == 0) n.keys (n.kids.map (kidPtr h))) ::
      n.kids.flatMap (kidRecords t h)

theorem map_fst_kidRecords (t h : ℕ) (c : Kid h) : (kidRecords t h c).map Prod.fst = kidPtrs h c := by
  induction h with
  | zero => rfl
  | succ h ih =>
    rw [kidRecords, List.map_cons, List.map_flatMap, kidPtrs]
    congr 1
    exact congrArg (c.kids.flatMap ·) (funext ih)

/-- A store that holds the tree and nothing else. -/
def storeOf (t : ℕ) (n : Tree h) : Btree where
  root := n.ptr
  t := t
  node p := ((kidRecords t (h+1) n).lookup p).getD (pageRecord t true [] [])
  live p := (ptrs n).contains p
  next := (ptrs n).foldr max 0+1

section Records
variable {n : Tree h} {p : Ptr} {r : BtreeNode}

theorem storeOf_node (hnodup : (ptrs n).Nodup) (hr : (p,r) ∈ kidRecords t (h+1) n) :
    (storeOf t n).node p = r := by
  obtain ⟨X,Y,hXY⟩ := List.append_of_mem hr
  have hfst : (kidRecords t (h+1) n).map Prod.fst = ptrs n := map_fst_kidRecords t (h+1) n
  rw [← hfst, hXY, List.map_append, List.map_cons] at hnodup
  have hlookup : (kidRecords t (h+1) n).lookup p = some r := by
    refine List.lookup_eq_some_iff.mpr ⟨X,Y,hXY,fun e he => ?_⟩
    have hne := (List.nodup_append.mp hnodup).2.2 e.1 (List.mem_map_of_mem he) p List.mem_cons_self
    simpa using hne.symm
  change ((kidRecords t (h+1) n).lookup p).getD _ = r
  rw [hlookup]
  rfl

theorem le_foldr_max {L : List ℕ} {a : ℕ} (ha : a ∈ L) : a ≤ L.foldr max 0 := by
  induction L with
  | nil => simp at ha
  | cons b L ih =>
    rw [List.foldr_cons]
    obtain rfl | ha := List.mem_cons.mp ha
    · exact le_max_left ..
    · exact (ih ha).trans (le_max_right ..)

theorem storeOf_cell (hnodup : (ptrs n).Nodup) (h0 : 0 ∉ ptrs n) {isLeaf : Bool} {ks : List ℤ}
    {cs : List Ptr} (hr : (p,pageRecord t isLeaf ks cs) ∈ kidRecords t (h+1) n)
    (hk : ks.length ≤ 2*t-1) (hc : cs.length ≤ 2*t) (hleaf : isLeaf = true → cs = []) :
    Cell (storeOf t n) p isLeaf ks cs := by
  have hp : p ∈ ptrs n := by
    have hmem := List.mem_map_of_mem (f := Prod.fst) hr
    rwa [map_fst_kidRecords] at hmem
  refine ⟨fun hzero => h0 (hzero ▸ hp),List.contains_iff_mem.mpr hp,?_,?_⟩
  · exact Nat.lt_succ_of_le (le_foldr_max hp)
  · rw [storeOf_node hnodup hr]
    exact nodeHolds_pageRecord hk hc hleaf

end Records

/-- Every tree of the right shape is held by a store. -/
theorem storeOf_isBtree {n : Tree h} (ht : 1 ≤ t) (hn : ShapeValid t n) (hnodup : (ptrs n).Nodup)
    (h0 : 0 ∉ ptrs n) : IsBtree (storeOf t n) n := by
  have hcell : ∀ {h' : ℕ} (c : Tree h'), kidRecords t (h'+1) c ⊆ kidRecords t (h+1) n →
      FitsBelow t c → c.keys.length ≤ 2*t-1 →
      Cell (storeOf t n) c.ptr (h' == 0) c.keys (c.kids.map (kidPtr h')) := by
    intro h' c hc hfit hnum
    refine storeOf_cell hnodup h0 (hc List.mem_cons_self) hnum ?_ fun hleaf => ?_
    · cases h' with
      | zero => simp [kids_eq_nil c]
      | succ h' =>
        rw [List.length_map, hfit.arity (Nat.succ_ne_zero h')]
        omega
    · obtain rfl : h' = 0 := by simpa using hleaf
      simp [kids_eq_nil c]
  have hkid : ∀ {h' : ℕ} (c : Kid h'), kidRecords t h' c ⊆ kidRecords t (h+1) n → Fits t h' c →
      KidRep (storeOf t n) h' c := by
    intro h' c
    induction h' with
    | zero => exact fun _ _ => trivial
    | succ h' ih =>
      intro hc hfits
      obtain ⟨hnum,hfit⟩ := fits_iff.mp hfits
      refine ⟨hcell c hc hfit hnum.2,fun d hd => ih d (fun e he => hc ?_) (hfit.kids d hd)⟩
      exact List.mem_cons_of_mem _ (List.mem_flatMap_of_mem hd he)
  refine ⟨rfl,⟨hcell n (List.Subset.refl _) hn.toFitsBelow hn.num_le,fun d hd => ?_,hnodup⟩,hn⟩
  refine hkid d (fun e he => ?_) (hn.kids d hd)
  exact List.mem_cons_of_mem _ (List.mem_flatMap_of_mem hd he)

end Exists
end ServerKit.BTree
