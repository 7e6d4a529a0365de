import ServerKit.BTree.InBounds

/-! A split of a full child and a merge of two minimal children undo each other, up to the address of
the right one. -/
namespace ServerKit.BTree
open ServerKit.Lib Btree

namespace BtreeNode

/-- The keys at the positions `0..num-1`. -/
def keySeq (n : BtreeNode) : List ℤ := (List.range n.num).map fun j => n.keys.getD j 0

/-- The children at the positions `0..num`. -/
def childSeq (n : BtreeNode) : List Ptr := (List.range (n.num+1)).map fun j => n.childrens.getD j 0

/-- Two records with the same keys and children; the cells behind them may differ. -/
structure Same (n n' : BtreeNode) : Prop where
  leaf : n'.leaf = n.leaf
  keys : n'.keySeq = n.keySeq
  childs : n'.childSeq = n.childSeq

end BtreeNode

section Cells
variable {α : Type} {d : α} {l y : List α}

theorem map_getD_of_prefix {ks : List α} (h : ks <+: l) :
    (List.range ks.length).map (fun j => l.getD j d) = ks := by
  obtain ⟨pad,rfl⟩ := h
  refine List.ext_getElem (by simp) fun j hj hj' => ?_
  rw [List.getElem_map, List.getElem_range, List.getD_append _ _ _ _ hj', List.getD_eq_getElem]

theorem prefix_map_getD {m : ℕ} (hm : m ≤ l.length) :
    (List.range m).map (fun j => l.getD j d) <+: l := by
  have hlen : (l.take m).length = m := by rw [List.length_take, min_eq_left hm]
  have htake := map_getD_of_prefix (d := d) (List.take_prefix m l)
  rw [hlen] at htake
  rw [htake]
  exact List.take_prefix m l

theorem set_getD_self (i : ℕ) : l.set i (l.getD i d) = l := by
  refine List.ext_getElem (List.length_set ..) fun j hj hj' => ?_
  rw [List.getElem_set]
  split
  · next heq =>
    subst heq
    exact List.getD_eq_getElem ..
  · rfl

/-- A copy of what is there already changes nothing. -/
theorem copyInto_self {o c n : ℕ} (h : ∀ j < n, y.getD (j+c) d = l.getD (o+j) d) :
    copyInto d o c n y l = l := by
  have hloop : ∀ lo m, lo+m ≤ n → forUp lo m (fun j l => l.set (o+j) (y.getD (j+c) d)) l = l := by
    intro lo m
    induction m generalizing lo with
    | zero => exact fun _ => rfl
    | succ m ih =>
      intro hle
      rw [forUp, h lo (by omega), set_getD_self]
      exact ih (lo+1) (by omega)
  exact hloop 0 n (Nat.zero_add n).le

/-- What a copy into a fresh array holds. -/
theorem getD_copyInto_replicate {c n m j : ℕ} (hm : n ≤ m) (hy : c+n ≤ y.length) (hj : j < n) :
    (copyInto d 0 c n y (List.replicate m d)).getD j d = y.getD (j+c) d := by
  have hc : (y.take c).length = c := by
    rw [List.length_take]
    omega
  have hn : ((y.drop c).take n).length = n := by
    rw [List.length_take, List.length_drop]
    omega
  have hsplit : y.take c ++ (y.drop c).take n <+: y := by
    refine ⟨(y.drop c).drop n,?_⟩
    rw [List.append_assoc, List.take_append_drop, List.take_append_drop]
  have hcopy := prefix_copyInto (d := d) (l := List.replicate m d) List.nil_prefix hsplit (by simp; omega)
  rw [hc, hn, List.nil_append] at hcopy
  obtain ⟨pad,hpad⟩ := hcopy
  rw [List.length_nil] at hpad
  rw [← hpad, List.getD_append _ _ _ _ (by omega), List.getD_eq_getElem _ _ (by omega),
    List.getElem_take, List.getElem_drop, List.getD_eq_getElem _ _ (by omega)]
  simp only [Nat.add_comm]

end Cells

namespace NodeHolds
variable {t : ℕ} {n n' : BtreeNode} {b : Bool} {ks : List ℤ} {cs : List Ptr}

theorem keySeq (h : NodeHolds t n b ks cs) : n.keySeq = ks := by
  rw [BtreeNode.keySeq, h.num]
  exact map_getD_of_prefix h.keys

theorem childSeq (h : NodeHolds t n b ks cs) (hcs : cs.length = ks.length+1) : n.childSeq = cs := by
  rw [BtreeNode.childSeq, h.num, ← hcs]
  exact map_getD_of_prefix h.childrens

/-- The contents of a record determine its sequences. -/
theorem same (h : NodeHolds t n b ks cs) (h' : NodeHolds t n' b ks cs)
    (hcs : b = false → cs.length = ks.length+1) : n.Same n' := by
  refine ⟨h'.leaf.trans h.leaf.symm,h'.keySeq.trans h.keySeq.symm,?_⟩
  cases b with
  | false => rw [h.childSeq (hcs rfl), h'.childSeq (hcs rfl)]
  | true => rw [BtreeNode.childSeq, BtreeNode.childSeq, h.num, h'.num, h.nulls rfl, h'.nulls rfl]

end NodeHolds

/-- A node as the tree has it: both arrays have the size that `btree_create_node` gives them, and a
leaf has no child. -/
structure Formed (T : Btree) (p : Ptr) : Prop where
  lt_next : p < T.next
  keys_size : (T.node p).keys.length = 2*T.t-1
  childrens_size : (T.node p).childrens.length = 2*T.t
  nulls : T.leaf p = true → (T.node p).childrens = List.replicate (2*T.t) 0

section Formed
variable {T : Btree} {p : Ptr}

theorem Cell.formed {b : Bool} {ks : List ℤ} {cs : List Ptr} (h : Cell T p b ks cs) : Formed T p :=
  ⟨h.lt_next,h.holds.keys_size,h.holds.childrens_size,fun hleaf =>
    h.holds.nulls (h.leaf.symm.trans hleaf)⟩

/-- The keys and children of a formed node; a leaf is not said to have any of these. -/
theorem Formed.holds {b : Bool} (h : Formed T p) (hb : T.leaf p = b) (ht : 1 ≤ T.t)
    (hnum : T.num p ≤ 2*T.t-1) : ∃ ks cs, NodeHolds T.t (T.node p) b ks cs ∧ ks.length = T.num p ∧
      (b = true → cs = []) ∧ (b = false → cs.length = T.num p+1) := by
  have hkeys : (T.node p).keySeq <+: (T.node p).keys := prefix_map_getD (h.keys_size ▸ hnum)
  have hchilds : (T.node p).childSeq <+: (T.node p).childrens := by
    refine prefix_map_getD ?_
    rw [h.childrens_size]
    exact Nat.succ_le_of_lt (hnum.trans_lt (by omega))
  have hlen : (T.node p).keySeq.length = T.num p := by simp [BtreeNode.keySeq,num]
  refine ⟨_,if b then [] else (T.node p).childSeq,
    ⟨hb,hlen.symm,hkeys,h.keys_size,?_,h.childrens_size,fun htrue => h.nulls (hb.trans htrue)⟩,hlen,?_,?_⟩
  · cases b with
    | true => exact List.nil_prefix
    | false => exact hchilds
  · rintro rfl
    rfl
  · rintro rfl
    simp [BtreeNode.childSeq,num]

end Formed

/-! The two operations on the records that they change. -/
section Records
variable {t : ℕ} {n l r : BtreeNode} {b : Bool} {ks lk rk : List ℤ} {cs lc rc : List Ptr}

/-- A full node takes its upper half back. -/
theorem BtreeNode.absorb_upperHalf (ht : 1 ≤ t) (hk : n.keys.length = 2*t-1)
    (hc : n.childrens.length = 2*t) (hnum : n.num = 2*t-1) :
    BtreeNode.absorb t (n.keys.getD (t-1) 0) (n.upperHalf t) { n with num := t-1 } = n := by
  obtain ⟨keys,childrens,num,leaf⟩ := n
  have hkeys : copyInto 0 t 0 (t-1) (copyInto 0 0 t (t-1) keys (List.replicate (2*t-1) 0)) keys =
      keys := by
    refine copyInto_self fun j hj => ?_
    rw [Nat.add_zero, getD_copyInto_replicate (by omega) (hk ▸ by omega) hj, Nat.add_comm]
  have hchilds : copyInto 0 t 0 t (copyInto 0 0 t t childrens (List.replicate (2*t) 0)) childrens =
      childrens := by
    refine copyInto_self fun j hj => ?_
    rw [Nat.add_zero, getD_copyInto_replicate (by omega) (hc ▸ by omega) hj, Nat.add_comm]
  have hsum : t-1+t = num := by
    rw [show num = 2*t-1 from hnum]
    omega
  cases leaf with
  | true => simp only [BtreeNode.absorb, BtreeNode.upperHalf, set_getD_self, hkeys, hsum, if_true]
  | false =>
    simp only [BtreeNode.absorb, BtreeNode.upperHalf, set_getD_self, hkeys, hchilds, hsum,
      Bool.false_eq_true, if_false]

/-- Two minimal nodes can be taken apart again after one has absorbed the other. -/
theorem NodeHolds.halves_absorb (hl : NodeHolds t l b lk lc) (hr : NodeHolds t r b rk rc)
    (hlk : lk.length+1 = t) (hrk : rk.length+1 = t) (hlc : b = false → lc.length = t)
    (hrc : b = false → rc.length = t) (hleaf : b = true → rc = []) (k : ℤ) :
    (BtreeNode.absorb t k r l).keys.getD (t-1) 0 = k ∧
      NodeHolds t { BtreeNode.absorb t k r l with num := t-1 } b lk lc ∧
      NodeHolds t ((BtreeNode.absorb t k r l).upperHalf t) b rk rc := by
  have habsorb := hl.absorb hr hlk hrk hlc hrc hleaf k
  have hkey := habsorb.key
  have htrunc := habsorb.truncate
  rw [show lk.length = t-1 by omega] at hkey htrunc
  exact ⟨hkey,htrunc,habsorb.upperHalf hlk hrk hlc hrc hleaf⟩

/-- Where the parent of a split has the middle key and the two halves. -/
theorem NodeHolds.insertChild_reads (h : NodeHolds t n false ks cs) (hcs : cs.length = ks.length+1)
    {i : ℕ} (hi : i ≤ ks.length) (hlt : ks.length < 2*t-1) (k : ℤ) (z : Ptr) :
    (n.insertChild i k z).keys.getD i 0 = k ∧
      (n.insertChild i k z).childrens.getD i 0 = n.childrens.getD i 0 ∧
      (n.insertChild i k z).childrens.getD (i+1) 0 = z := by
  obtain ⟨A,B,P,c,S,rfl,rfl,rfl,hP,hS⟩ := exists_place hcs hi
  have hins := h.insertChild hP hS hlt k z
  have hins₂ : NodeHolds t (n.insertChild A.length k z) false (A ++ k :: B) ((P ++ [c]) ++ z :: S) := by
    simpa using hins
  have hleft := hins.child
  have hright := hins₂.child
  have hold := h.child
  rw [List.length_append, List.length_singleton] at hright
  rw [hP] at hleft hright hold
  exact ⟨hins.key,hleft.trans hold.symm,hright⟩

/-- A merge leaves the left child in its place. -/
theorem NodeHolds.closeGap_reads (h : NodeHolds t n false ks cs) (hcs : cs.length = ks.length+1)
    {i : ℕ} (hi : i < ks.length) : (n.closeGap i).childrens.getD i 0 = n.childrens.getD i 0 := by
  obtain ⟨A,B,P,c,S,rfl,rfl,rfl,hP,hS⟩ := exists_place hcs hi.le
  obtain _ | ⟨k,B⟩ := B
  · simp at hi
  obtain _ | ⟨d,S⟩ := S
  · simp at hS
  have hgap := (h.closeGap hP (by simpa using hS)).child
  have hold := h.child
  rw [hP] at hgap hold
  exact hgap.trans hold.symm

/-- The parent of a split and then of a merge. -/
theorem NodeHolds.closeGap_insertChild (h : NodeHolds t n false ks cs) (hcs : cs.length = ks.length+1)
    {i : ℕ} (hi : i ≤ ks.length) (hlt : ks.length < 2*t-1) (k : ℤ) (z : Ptr) :
    NodeHolds t ((n.insertChild i k z).closeGap i) false ks cs := by
  obtain ⟨A,B,P,c,S,rfl,rfl,rfl,hP,hS⟩ := exists_place hcs hi
  exact (h.insertChild hP hS hlt k z).closeGap hP hS

/-- The parent of a merge and then of a split. -/
theorem NodeHolds.insertChild_closeGap (h : NodeHolds t n false ks cs) (hcs : cs.length = ks.length+1)
    {i : ℕ} (hi : i < ks.length) (z : Ptr) :
    NodeHolds t ((n.closeGap i).insertChild i (n.keys.getD i 0) z) false ks (cs.set (i+1) z) := by
  obtain ⟨A,B,P,c,S,rfl,rfl,rfl,hP,hS⟩ := exists_place hcs hi.le
  obtain _ | ⟨k,B⟩ := B
  · simp at hi
  obtain _ | ⟨d,S⟩ := S
  · simp at hS
  have hS' : S.length = B.length := by simpa using hS
  have hle := h.length_le
  rw [List.length_append, List.length_cons] at hle
  have hins := (h.closeGap hP hS').insertChild hP hS' (by rw [List.length_append]; omega) k z
  have hset : (P ++ c :: d :: S).set (A.length+1) z = P ++ c :: z :: S := by
    rw [← hP]
    simp [List.set_append_right]
  rwa [h.key, hset]

end Records

/-- `btree_split_child(T, x, i)` is called for a full child of a node that is not full. -/
structure Splittable (T : Btree) (x : Ptr) (i : ℕ) : Prop where
  node : Formed T x
  inner : T.leaf x = false
  num_pos : 1 ≤ T.num x
  num_le : T.num x ≤ 2*T.t-2
  idx_le : i ≤ T.num x
  child : Formed T (T.child x i)
  ne : x ≠ T.child x i
  full : T.num (T.child x i) = 2*T.t-1

/-- `btree_merge(T, x, i)` is called for two minimal children of a node with another key. -/
structure Mergeable (T : Btree) (x : Ptr) (i : ℕ) : Prop where
  node : Formed T x
  inner : T.leaf x = false
  two_le : 2 ≤ T.num x
  num_le : T.num x ≤ 2*T.t-1
  idx_lt : i < T.num x
  left : Formed T (T.child x i)
  right : Formed T (T.child x (i+1))
  ne_left : x ≠ T.child x i
  ne : T.child x i ≠ T.child x (i+1)
  leaf : T.leaf (T.child x (i+1)) = T.leaf (T.child x i)
  left_minimal : T.num (T.child x i) = T.t-1
  right_minimal : T.num (T.child x (i+1)) = T.t-1

section Inverse
variable {T : Btree} {x : Ptr} {i : ℕ}

theorem BtreeNode.Same.refl (n : BtreeNode) : n.Same n := ⟨rfl,rfl,rfl⟩

theorem merge_splitChild (ht : 2 ≤ T.t) (h : Splittable T x i) :
    let T' := btreeMerge (btreeSplitChild T x i) x i
    T'.root = T.root ∧ ∀ q < T.next, (T.node q).Same (T'.node q) ∧ T'.live q = T.live q := by
  intro T'
  have hmax := h.num_le
  obtain ⟨ks,cs,hholds,hks,-,hlen⟩ := h.node.holds h.inner (by omega) (by omega)
  have harity : cs.length = ks.length+1 := hks ▸ hlen rfl
  have hi : i ≤ ks.length := hks ▸ h.idx_le
  have hlt : ks.length < 2*T.t-1 := by omega
  obtain ⟨y,hy⟩ : ∃ y, T.child x i = y := ⟨_,rfl⟩
  obtain ⟨hnode,-,hmin,-,-,hchild,hxy,hfull⟩ := h
  rw [hy] at hchild hxy hfull
  have hxz := hnode.lt_next.ne
  have hyz := hchild.lt_next.ne
  -- the split
  have hsplit := btreeSplitChild_divided hy hxy hxz hyz
  set T₁ := btreeSplitChild T x i
  obtain ⟨hkey,hleft,hright⟩ := hholds.insertChild_reads harity hi hlt (T.key y (T.t-1)) T.next
  rw [← hsplit.parent] at hkey hleft hright
  have hnum : T₁.num x = T.num x+1 := congrArg BtreeNode.num hsplit.parent
  -- the merge
  have hmerge : Merged T₁ T' x y T.next i :=
    btreeMerge_merged (hleft.trans hy) hright hyz hxy
  obtain ⟨hroot,hlive⟩ := hmerge.kept (by omega)
  have hx : T'.node x = ((T.node x).insertChild i (T.key y (T.t-1)) T.next).closeGap i := by
    rw [hmerge.parent, hsplit.parent]
  have hback : T'.node y = T.node y := by
    rw [hmerge.left, hsplit.t, hsplit.left, hsplit.right, show T₁.key x i = _ from hkey]
    exact BtreeNode.absorb_upperHalf (by omega) hchild.keys_size hchild.childrens_size hfull
  refine ⟨hroot.trans hsplit.root,fun q hq => ⟨?_,?_⟩⟩
  · obtain rfl | hqx := eq_or_ne q x
    · rw [hx]
      exact hholds.same (hholds.closeGap_insertChild harity hi hlt _ _) fun _ => harity
    obtain rfl | hqy := eq_or_ne q y
    · rw [hback]
      exact .refl _
    · rw [hmerge.other q hqx hqy, hsplit.other q hqx hqy hq.ne]
      exact .refl _
  · rw [hlive q hq.ne, hsplit.live q hq.ne]

theorem splitChild_merge (ht : 2 ≤ T.t) (h : Mergeable T x i) :
    let T' := btreeSplitChild (btreeMerge T x i) x i
    T'.root = T.root ∧ (T'.node x).keySeq = (T.node x).keySeq ∧
      (T'.node x).childSeq = (T.node x).childSeq.set (i+1) T.next ∧
      (T.node (T.child x (i+1))).Same (T'.node T.next) ∧
      ∀ q < T.next, q ≠ x → q ≠ T.child x (i+1) →
        (T.node q).Same (T'.node q) ∧ T'.live q = T.live q := by
  intro T'
  have hmax := h.num_le
  obtain ⟨ks,cs,hholds,hks,-,hlen⟩ := h.node.holds h.inner (by omega) hmax
  have harity : cs.length = ks.length+1 := hks ▸ hlen rfl
  have hi : i < ks.length := hks ▸ h.idx_lt
  obtain ⟨l,hl⟩ : ∃ l, T.child x i = l := ⟨_,rfl⟩
  obtain ⟨r,hr⟩ : ∃ r, T.child x (i+1) = r := ⟨_,rfl⟩
  obtain ⟨hnode,-,hmin,-,-,hL,hR,hxl,hlr,hleaf,hlnum,hrnum⟩ := h
  rw [hl] at hL hxl hlr hleaf hlnum
  rw [hr] at hR hlr hleaf hrnum
  rw [hr]
  obtain ⟨lk,lc,hlholds,hlk,-,hlc⟩ := hL.holds rfl (by omega) (by omega)
  obtain ⟨rk,rc,hrholds,hrk,hrnil,hrc⟩ := hR.holds hleaf (by omega) (by omega)
  have hxz := hnode.lt_next.ne
  have hlz := hL.lt_next.ne
  -- the merge
  have hmerge := btreeMerge_merged hl hr hlr hxl
  obtain ⟨hroot,hlive⟩ := hmerge.kept hmin
  set T₁ := btreeMerge T x i
  have hchild : T₁.child x i = l := by
    have hread := hholds.closeGap_reads harity hi
    rw [← hmerge.parent] at hread
    exact hread.trans hl
  obtain ⟨hkey,hleft,hright⟩ := hlholds.halves_absorb hrholds (by omega) (by omega)
    (fun hb => by rw [hlc hb]; omega) (fun hb => by rw [hrc hb]; omega) hrnil (T.key x i)
  rw [← hmerge.left, ← hmerge.t] at hkey hleft hright
  -- the split
  have hsplit : Divided T₁ T' x l i :=
    btreeSplitChild_divided hchild hxl (hmerge.next ▸ hxz) (hmerge.next ▸ hlz)
  rw [← hsplit.left, hmerge.t] at hleft
  rw [← hsplit.right, hmerge.next, hmerge.t] at hright
  have hx : NodeHolds T.t (T'.node x) false ks (cs.set (i+1) T.next) := by
    rw [hsplit.parent, show T₁.key l (T₁.t-1) = _ from hkey, hmerge.parent, hmerge.next]
    exact hholds.insertChild_closeGap harity hi T.next
  refine ⟨hsplit.root.trans hroot,?_,?_,?_,fun q hq hqx hqr => ⟨?_,?_⟩⟩
  · rw [hx.keySeq, hholds.keySeq]
  · rw [hx.childSeq (by simpa using harity), hholds.childSeq harity]
  · exact hrholds.same hright fun hb => by rw [hrc hb, hrk]
  · obtain rfl | hql := eq_or_ne q l
    · exact hlholds.same hleft fun hb => by rw [hlc hb, hlk]
    · rw [hsplit.other q hqx hql (hmerge.next ▸ hq.ne), hmerge.other q hqx hql]
      exact .refl _
  · rw [hsplit.live q (hmerge.next ▸ hq.ne), hlive q hqr]

end Inverse

section Trees
variable {T : Btree} {h : ℕ} {p : Ptr} {ks : List ℤ} {P S : List (Tree h)} {c l r : Tree h}

/-- A full subtree of a node with room. -/
theorem Rep.splittable (hn : Rep T (⟨p,ks,P ++ c :: S⟩ : Tree (h+1))) (hP : P.length ≤ ks.length)
    (hpos : 1 ≤ ks.length) (hroom : ks.length ≤ 2*T.t-2) (hfull : c.keys.length = 2*T.t-1) :
    Splittable T p P.length := by
  have hnum : T.num p = ks.length := hn.cell.num
  have hnumc : T.num c.ptr = c.keys.length := hn.kid.cell.num
  have hne : p ≠ c.ptr := fun heq => hn.notMem_kid (heq ▸ List.mem_cons_self)
  refine ⟨hn.cell.formed,hn.cell.leaf,by omega,by omega,by omega,?_,?_,?_⟩
  all_goals rw [hn.child]
  · exact hn.kid.cell.formed
  · exact hne
  · rw [hnumc, hfull]

/-- Two neighbouring minimal subtrees. -/
theorem Rep.mergeable (hn : Rep T (⟨p,ks,P ++ l :: r :: S⟩ : Tree (h+1))) (hP : P.length < ks.length)
    (hmin : 2 ≤ ks.length) (hl : l.keys.length = T.t-1) (hr : r.keys.length = T.t-1) :
    Mergeable T p P.length := by
  have hnum : T.num p = ks.length := hn.cell.num
  have hle : ks.length ≤ 2*T.t-1 := hn.cell.holds.length_le
  have hs := hn.neighbours
  have hnuml : T.num l.ptr = l.keys.length := hs.repL.cell.num
  have hnumr : T.num r.ptr = r.keys.length := hs.repR.cell.num
  refine ⟨hn.cell.formed,hn.cell.leaf,by omega,by omega,by omega,?_,?_,?_,?_,?_,?_,?_⟩
  all_goals simp only [hs.left, hs.right]
  · exact hs.repL.cell.formed
  · exact hs.repR.cell.formed
  · exact hs.ne_left
  · exact hs.ne
  · exact hs.repR.cell.leaf.trans hs.repL.cell.leaf.symm
  · rw [hnuml, hl]
  · rw [hnumr, hr]

end Trees

/-- A merge after a split leaves every node as it was. A split after a merge does so up to the right
child, whose contents are in a new node at the same place. -/
theorem splitChild_merge_inverse (T : Btree) (x : Ptr) (i : ℕ) (ht : 2 ≤ T.t) :
    (Splittable T x i →
      let T' := btreeMerge (btreeSplitChild T x i) x i
      T'.root = T.root ∧ ∀ q < T.next, (T.node q).Same (T'.node q) ∧ T'.live q = T.live q) ∧
    (Mergeable T x i →
      let T' := btreeSplitChild (btreeMerge T x i) x i
      T'.root = T.root ∧ (T'.node x).keySeq = (T.node x).keySeq ∧
        (T'.node x).childSeq = (T.node x).childSeq.set (i+1) T.next ∧
        (T.node (T.child x (i+1))).Same (T'.node T.next) ∧
        ∀ q < T.next, q ≠ x → q ≠ T.child x (i+1) →
          (T.node q).Same (T'.node q) ∧ T'.live q = T.live q) :=
  ⟨merge_splitChild ht,splitChild_merge ht⟩

/-- A full leaf next to a minimal one. -/
def fullChild : Tree 1 := ⟨1,[10],[⟨2,[1,2,3],[]⟩,⟨3,[20],[]⟩]⟩

theorem fullChild_isBtree : IsBtree (storeOf 2 fullChild) fullChild := by
  refine storeOf_isBtree (by decide) ⟨⟨fun _ => rfl,?_⟩,by decide,by decide⟩ (by decide) (by decide)
  simp [fullChild,Fits]

theorem splitChild_merge_inverse_two :
    ((btreeMerge (btreeSplitChild (storeOf 2 fullChild) 1 0) 1 0).node 2).keySeq = [1,2,3] ∧
    ((btreeSplitChild (btreeMerge (storeOf 2 fullRoot) 1 1) 1 1).node 1).keySeq = [2,4,6] ∧
    ((btreeSplitChild (btreeMerge (storeOf 2 fullRoot) 1 1) 1 1).node 6).keySeq = [5] := by
  have hfull : Splittable (storeOf 2 fullChild) 1 0 :=
    Rep.splittable (P := []) fullChild_isBtree.rep (by decide) (by decide) (by decide) (by decide)
  have hmin : Mergeable (storeOf 2 fullRoot) 1 1 :=
    Rep.mergeable (P := [⟨2,[1],[]⟩]) fullRoot_isBtree.rep (by decide) (by decide) (by decide) (by decide)
  obtain ⟨-,hsame⟩ := (splitChild_merge_inverse (storeOf 2 fullChild) 1 0 le_rfl).1 hfull
  obtain ⟨-,hkeys,-,hright,-⟩ := (splitChild_merge_inverse (storeOf 2 fullRoot) 1 1 le_rfl).2 hmin
  refine ⟨(hsame 2 (by decide)).1.keys.trans ?_,hkeys.trans ?_,hright.keys.trans ?_⟩
  · decide
  · decide
  · decide

end ServerKit.BTree
