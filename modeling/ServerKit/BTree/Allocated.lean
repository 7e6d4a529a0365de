import ServerKit.BTree.Emptied
import ServerKit.BTree.Lifetimes
import ServerKit.BTree.Shrink

/-! After any calls the allocated nodes are those that are linked below the root, so none is lost, and their
number is bounded by the number of keys. -/
namespace ServerKit.BTree
open Function ServerKit.Lib Btree

/-- How `btree_delete_key` gets from `n` to `n'`, as in `Outcome`, with the nodes that stay. -/
inductive Left {h : ℕ} (T T' : Btree) (n n' : Tree h) : Prop
  | kept (num : n'.keys = [] → n.keys = []) (root : T'.root = T.root) (rep : Rep T' n')
      (foot : Footprint T T' (ptrs n) (ptrs n'))
  | collapsed (num : n.keys.length = 1) (keys : n'.keys = []) (collapsed : Collapsed T' n')
      (foot : Footprint T T' (ptrs n) (n'.kids.flatMap (kidPtrs h)))

section Delete
variable {T T₁ T' : Btree} {h : ℕ} {k j : ℤ}

/-- What happens in the subtree that a level enters happens to the node. -/
theorem Level.leave {n : Tree (h+1)} {s : Spot h} {c : Tree h} (hl : Level T T₁ n k s j) (ht : 2 ≤ T.t)
    (hptr : c.ptr = s.kid.ptr) (hc : Left T₁ T' s.kid c) : Left T T' n ({ s with kid := c }.page n.ptr) := by
  cases hc with
  | collapsed num =>
    have hnum := hl.num
    omega
  | kept num root rep foot =>
    cases hl.shrunk with
    | kept num₁ root₁ rep₁ foot₁ =>
      obtain ⟨hrep,-⟩ := rep₁.descend foot.toStep rep hptr
      exact .kept (fun hnil => absurd hnil num₁) (root.trans root₁) hrep (foot₁.trans (foot.page ..))
    | collapsed num₁ keysL kidsL keysR kidsR root₁ rep₁ foot₁ =>
      refine .collapsed num₁ (by simp [Spot.page,keysL,keysR])
        ⟨c,by simp [Spot.page,kidsL,kidsR],by rw [root, root₁, hptr],rep⟩ ?_
      have hkids : ({ s with kid := c }.page n.ptr).kids.flatMap (kidPtrs (h+1)) = ptrs c := by
        simp only [Spot.page, kidsL, kidsR, List.nil_append, List.flatMap_singleton]
        rfl
      rw [hkids]
      exact foot₁.trans foot

/-- What `btree_delete_key` does to the nodes of height `h`. -/
def LeftSpec (h : ℕ) : Prop :=
  ∀ (T : Btree) (n : Tree h) (k : ℤ), 2 ≤ T.t → Rep T n → FitsBelow T.t n → (h ≠ 0 → n.keys ≠ []) →
    ∃ T' n' b, Returns (fun f => btreeDeleteKey f T n.ptr k) (T',b) ∧ T'.t = T.t ∧ Del T.t n k n' b ∧
      n'.ptr = n.ptr ∧ Left T T' n n'

/-- The only node of a tree stays, or it is freed with its last key. -/
theorem deleteLeaf_left : LeftSpec 0 := by
  rintro T ⟨p,ks,cs⟩ k ht hn hfit -
  obtain rfl : cs = [] := kids_eq_nil ⟨p,ks,cs⟩
  have hcell : Cell T p true ks [] := hn.cell
  obtain ⟨A,B,rfl,hscan,hA,hB⟩ := scan_less k hcell
  have hunfold : ∀ f, btreeDeleteKey (f+1) T p k =
      if A.length < T.num p ∧ k = T.key p A.length then some (removeFromLeaf T p A.length,false)
      else some (T,true) := by
    intro f
    have hnull : T.child p A.length = 0 := hcell.holds.null _
    rw [btreeDeleteKey, if_neg hcell.ne_null]
    simp only [hscan, hcell.leaf, hnull, if_true]
  obtain ⟨B,rfl⟩ | hB := head_cases hB
  · have hret : Returns (fun f => btreeDeleteKey f T p k) (removeFromLeaf T p A.length,false) :=
      Returns.succ (fun f => (hunfold f).trans (if_pos hcell.found)) (Returns.const _)
    have hnum : T.num p = A.length+B.length+1 := by
      rw [hcell.num, List.length_append, List.length_cons]
      omega
    have hagree : ∀ q, q ≠ p → Agree T (T.modify p (BtreeNode.removeKey A.length)) q :=
      fun q hq => ⟨modify_node_ne hq,rfl⟩
    rw [removeFromLeaf_eq] at hret
    dsimp only at hret
    split at hret
    · next hzero =>
      obtain rfl : A = [] := List.eq_nil_of_length_eq_zero (by omega)
      obtain rfl : B = [] := List.eq_nil_of_length_eq_zero (by omega)
      refine ⟨_,⟨p,[],[]⟩,false,hret,rfl,.leafHit hA,rfl,.collapsed rfl rfl rfl
        ⟨⟨rfl,le_rfl,fun q hq hout => ?_,fun q hq => absurd hq List.not_mem_nil⟩,fun q hq => ?_⟩⟩
      · have hqp : q ≠ p := fun heq => hout (heq ▸ List.mem_cons_self)
        exact ⟨(hagree q hqp).1,update_of_ne hqp ..⟩
      · have hqp : q ≠ p := by
          rintro rfl
          cases hq.symm.trans (update_self ..)
        exact .inr ⟨fun hold => hqp (List.mem_singleton.mp hold),(update_of_ne hqp ..).symm.trans hq⟩
    · next hpos =>
      have hstep : Step T (T.modify p (BtreeNode.removeKey A.length)) [p] [p] :=
        ⟨rfl,le_rfl,fun q hq hout => hagree q (by simpa using hout),fun q => .inl⟩
      refine ⟨_,⟨p,A ++ B,[]⟩,false,hret,rfl,.leafHit hA,rfl,.kept (fun hnil => ?_) rfl
        ⟨⟨hcell.ne_null,hcell.live,hcell.lt_next,?_⟩,by simp,hn.nodup⟩
        (.of_subset hstep rfl (List.Subset.refl _))⟩
      · have hlen : (A ++ B).length = 0 := congrArg List.length hnil
        rw [List.length_append] at hlen
        omega
      · change NodeHolds T.t ((T.modify p (BtreeNode.removeKey A.length)).node p) true (A ++ B) []
        rw [modify_node_self]
        exact hcell.holds.removeKey
  · have hret : Returns (fun f => btreeDeleteKey f T p k) (T,true) :=
      Returns.succ (fun f => (hunfold f).trans (if_neg (hcell.not_found hB))) (Returns.const _)
    exact ⟨T,_,true,hret,rfl,.leafMiss hA hB,rfl,.kept id rfl hn
      (.of_subset (Step.refl T _) rfl (List.Subset.refl _))⟩

theorem deleteKey_left (h : ℕ) : LeftSpec h := by
  induction h with
  | zero => exact deleteLeaf_left
  | succ h ih =>
    intro T n k ht hn hfit hne
    obtain ⟨T₁,s,j,hl⟩ := delete_level ht hn hfit (hne (Nat.succ_ne_zero h)) k
    have hrep : Rep T₁ s.kid := by
      cases hl.shrunk with
      | kept num root rep => exact rep.kid
      | collapsed num keysL kidsL keysR kidsR root rep => exact rep
    have hnum := hl.num
    obtain ⟨T',c,b,hret,ht',hdel,hptr,hleft⟩ := ih T₁ s.kid j (hl.t ▸ ht) hrep (hl.t ▸ hl.fits)
      fun _ => List.ne_nil_of_length_pos (by omega)
    rw [hl.t] at hdel
    exact ⟨T',_,b,Returns.succ hl.code hret,ht'.trans hl.t,hl.del c b hdel,rfl,hl.leave ht hptr hleft⟩

end Delete

/-- The nodes of the B-tree that a store holds; under a NULL root there are none. -/
inductive Linked (T : Btree) : List Ptr → Prop
  | null (root : T.root = 0) : Linked T []
  | tree {h : ℕ} {n : Tree h} (hT : IsBtree T n) : Linked T (ptrs n)

section Linked
variable {T T' : Btree} {h : ℕ} {n : Tree h} {ps : List Ptr}

/-- Every node of a tree can be reached when its root can. -/
theorem Rep.reachable (hn : Rep T n) (hfit : FitsBelow T.t n) (hroot : Reachable T n.ptr) :
    ∀ p ∈ ptrs n, Reachable T p := by
  induction h with
  | zero =>
    intro p hp
    rw [mem_ptrs, kids_eq_nil n] at hp
    obtain rfl | hp := hp
    · exact hroot
    · cases hp
  | succ h ih =>
    obtain ⟨q,ks,cs⟩ := n
    intro p hp
    obtain rfl | hp := List.mem_cons.mp hp
    · exact hroot
    · obtain ⟨c,hc,hpc⟩ := List.mem_flatMap.mp hp
      obtain ⟨P,S,rfl⟩ := List.append_of_mem hc
      have harity : (P ++ c :: S).length = ks.length+1 := hfit.arity (Nat.succ_ne_zero h)
      have hle : P.length ≤ T.num q := by
        rw [show T.num q = ks.length from hn.cell.num]
        rw [List.length_append, List.length_cons] at harity
        omega
      have hchild := hn.child
      refine ih hn.kid (fits_iff.mp (hfit.kids c hc)).2 ?_ p hpc
      rw [← hchild]
      exact .child hroot hle (hchild.trans_ne hn.kid.cell.ne_null)

theorem Linked.mem_iff (hps : Linked T ps) {p : Ptr} : p ∈ ps ↔ Reachable T p := by
  cases hps with
  | null root => exact iff_of_false List.not_mem_nil (not_reachable_null root)
  | tree hT =>
    refine ⟨fun hp => hT.rep.reachable hT.shape.toFitsBelow ?_ p hp,fun hp => hp.mem_ptrs hT⟩
    rw [← hT.root]
    exact .root (hT.root.trans_ne hT.rep.cell.ne_null)

theorem Linked.live (hps : Linked T ps) : ∀ p ∈ ps, T.live p = true := by
  cases hps with
  | null => nofun
  | tree hT => exact hT.rep.live

/-- What `btree_delete_key` leaves is a B-tree again, or nothing. -/
theorem Left.linked {n' : Tree h} {k : ℤ} {b : Bool} (hn : Left T T' n n') (ht : 2 ≤ T.t) (hT : IsBtree T n)
    (ht' : T'.t = T.t) (hdel : Del T.t n k n' b) (hptr : n'.ptr = n.ptr) :
    ∃ ps', Linked T' ps' ∧ Footprint T T' (ptrs n) ps' := by
  obtain ⟨hfit,hle,-⟩ := hdel.shape (by omega) hT.shape.toFitsBelow
  cases hn with
  | kept num root rep foot =>
    refine ⟨_,.tree ⟨root.trans (hT.root.trans hptr.symm),rep,?_⟩,foot⟩
    rw [ht']
    refine ⟨hfit,hle.trans hT.shape.num_le,fun h0 => List.length_pos_iff.mpr fun hnil => ?_⟩
    have hnum := hT.shape.root_num h0
    rw [num hnil] at hnum
    exact absurd hnum (by decide)
  | collapsed num keys collapsed foot =>
    refine ⟨_,?_,foot⟩
    obtain ⟨p,ks,cs⟩ := n'
    obtain rfl : ks = [] := keys
    cases h with
    | zero =>
      obtain rfl : cs = [] := kids_eq_nil ⟨p,[],cs⟩
      exact .null collapsed
    | succ h =>
      obtain ⟨m,hm,hroot,hrep⟩ := collapsed
      obtain rfl : cs = [m] := hm
      obtain ⟨hnum,hmfit⟩ := fits_iff.mp (hfit.kids m List.mem_cons_self)
      have hnodes : ([m] : List (Tree h)).flatMap (kidPtrs (h+1)) = ptrs m := List.flatMap_singleton ..
      change Linked T' (([m] : List (Tree h)).flatMap (kidPtrs (h+1)))
      rw [hnodes]
      refine .tree ⟨hroot,hrep,?_⟩
      rw [ht']
      exact ⟨hmfit,hnum.2,fun _ => by omega⟩

/-- A call leaves nothing allocated that it does not link. -/
theorem callStep_linked {c : Call} (ht : 2 ≤ T.t) (hps : Linked T ps) (hstep : CallStep T c T') :
    ∃ ps', Linked T' ps' ∧ Footprint T T' ps ps' := by
  cases hps with
  | null root =>
    cases hstep with
    | @insert _ k ret =>
      obtain ⟨N,hN⟩ := ret
      cases (hN N le_rfl).symm.trans (if_pos root)
    | @delete _ k b status ret =>
      have hsame : Returns (fun f => btreeDelete f T k) (T,false,-1) :=
        Returns.congr (fun f => by rw [btreeDelete, if_pos root]) (Returns.const _)
      obtain ⟨rfl,-⟩ := Prod.mk.inj (ret.unique hsame)
      exact ⟨[],.null root,.of_subset (Step.refl T' []) rfl (List.Subset.refl _)⟩
  | @tree h n hT =>
    cases hstep with
    | @insert _ k ret =>
      obtain ⟨h',T₁,n',hret,-,hT',hfoot⟩ := btreeInsert_footprint k ht hT
      obtain rfl := ret.unique hret
      exact ⟨_,.tree hT',hfoot⟩
    | @delete _ k b status ret =>
      have hne : h ≠ 0 → n.keys ≠ [] := fun h0 => List.ne_nil_of_length_pos (hT.shape.root_num h0)
      obtain ⟨T₁,n',b',hret,ht',hdel,hptr,hleft⟩ :=
        deleteKey_left h T n k ht hT.rep hT.shape.toFitsBelow hne
      have hcode : ∀ f, btreeDelete f T k =
          (btreeDeleteKey f T n.ptr k).map fun r => (r.1,r.2,0) := by
        intro f
        rw [btreeDelete, hT.root, if_neg hT.rep.cell.ne_null]
      obtain ⟨rfl,-⟩ := Prod.mk.inj (ret.unique (Returns.congr hcode (hret.map _)))
      exact hleft.linked ht hT ht' hdel hptr

end Linked

section Runs
variable {T T' : Btree} {t : ℕ} {calls : List Call}

/-- `btree_create` allocates the root. -/
theorem btreeCreate_footprint (T : Btree) (t : ℕ) (hnext : 0 < T.next) :
    Linked (btreeCreate T t) [T.next] ∧ Footprint { T with t := t } (btreeCreate T t) [] [T.next] := by
  refine ⟨.tree (btreeCreate_isBtree T t hnext),⟨rfl,Nat.le_succ _,fun q hq _ => ?_,fun q hq => ?_⟩,fun q hq => ?_⟩
  · exact ⟨update_of_ne (Nat.ne_of_lt hq) ..,update_of_ne (Nat.ne_of_lt hq) ..⟩
  · exact .inr (List.mem_singleton.mp hq).ge
  · by_cases hnew : q = T.next
    · exact .inl (List.mem_singleton.mpr hnew)
    · exact .inr ⟨List.not_mem_nil,(update_of_ne hnew ..).symm.trans hq⟩

/-- The nodes that are linked after any calls are all that these calls leave allocated. -/
theorem run_linked (ht : 2 ≤ t) (hnext : 0 < T.next) (hrun : Run CallStep (btreeCreate T t) calls T') :
    ∃ ps, Linked T' ps ∧ Footprint { T with t := t } T' [] ps := by
  refine hrun.invariant (P := fun T' => ∃ ps, Linked T' ps ∧ Footprint { T with t := t } T' [] ps)
    ⟨_,btreeCreate_footprint T t hnext⟩ ?_
  rintro T₁ c T₂ ⟨ps,hps,hfoot⟩ hstep
  have ht₁ : T₁.t = t := hfoot.t
  obtain ⟨ps',hps',hfoot'⟩ := callStep_linked (ht₁ ▸ ht) hps hstep
  exact ⟨ps',hps',hfoot.trans hfoot'⟩

/-- After any calls that all return, a node is allocated exactly if it is linked below the root or was
allocated before `btree_create`, and no node is both. So no node leaks, and none of other owners is freed. -/
theorem live_iff_reachable (T : Btree) {t : ℕ} (ht : 2 ≤ t) (hnext : 0 < T.next)
    (hlive : ∀ p, T.live p = true → p < T.next) {calls : List Call} {T' : Btree}
    (hrun : Run CallStep (btreeCreate T t) calls T') :
    (∀ p, T'.live p = true ↔ Reachable T' p ∨ T.live p = true) ∧
      ∀ p, Reachable T' p → T.live p = false := by
  obtain ⟨ps,hps,hfoot⟩ := run_linked ht hnext hrun
  refine ⟨fun p => ⟨fun hp => ?_,fun hp => ?_⟩,fun p hp => ?_⟩
  · obtain hmem | ⟨-,hold⟩ := hfoot.exact p hp
    · exact .inl (hps.mem_iff.mp hmem)
    · exact .inr hold
  · obtain hp | hp := hp
    · exact hps.live p (hps.mem_iff.mpr hp)
    · exact (hfoot.agree p (hlive p hp) List.not_mem_nil).2.trans hp
  · obtain hnone | hge := hfoot.fresh p (hps.mem_iff.mpr hp)
    · cases hnone
    · by_contra hold
      exact absurd (hlive p (Bool.not_eq_false _ ▸ hold)) (not_lt.mpr hge)

/-- Four keys, in three nodes. -/
theorem fourKeys_run : ∃ T', Run CallStep (btreeCreate emptyStore 2)
    [.insert 1,.insert 2,.insert 3,.insert 4] T' ∧ HoldsKeys T' [1,2,3,4] := by
  obtain ⟨T₁,hstep₁,hT₁⟩ := emptyStore_holdsSorted.insert le_rfl 1
  obtain ⟨T₂,hstep₂,hT₂⟩ := hT₁.insert le_rfl 2
  obtain ⟨T₃,hstep₃,hT₃⟩ := hT₂.insert le_rfl 3
  obtain ⟨T₄,hstep₄,hT₄⟩ := hT₃.insert le_rfl 4
  exact ⟨T₄,(((Run.nil.snoc hstep₁).snoc hstep₂).snoc hstep₃).snoc hstep₄,hT₄.holdsKeys⟩

theorem live_iff_reachable_four : ∃ T', Run CallStep (btreeCreate emptyStore 2)
    [.insert 1,.insert 2,.insert 3,.insert 4] T' ∧
      (∀ p, T'.live p = true ↔ Reachable T' p ∨ emptyStore.live p = true) ∧
      ∀ p, Reachable T' p → emptyStore.live p = false := by
  obtain ⟨T',hrun,-⟩ := fourKeys_run
  exact ⟨T',hrun,live_iff_reachable emptyStore le_rfl (by decide) nofun hrun⟩

end Runs

section Count
variable {t h : ℕ}

theorem length_weave_add {xs : List (List ℤ)} {ks : List ℤ} (h : xs.length = ks.length+1 ∨ xs = []) :
    (weave xs ks).length = (xs.map List.length).sum+ks.length := by
  obtain h | rfl := h
  · have hlength := length_weave h
    have hsum (xs : List (List ℤ)) : (xs.map fun x => x.length+1).sum = (xs.map List.length).sum+xs.length := by
      induction xs with
      | nil => rfl
      | cons x xs ih =>
        simp only [List.map_cons, List.sum_cons, List.length_cons, ih]
        omega
    have hall := hsum xs
    omega
  · cases ks <;> simp

/-- The nodes of a list of subtrees, counted by their keys. -/
theorem flatMap_bounds {C : Type} {nodes : C → List Ptr} {keys : C → List ℤ} {lo hi : ℕ} {cs : List C}
    (hcs : ∀ c ∈ cs, lo*(nodes c).length ≤ (keys c).length ∧ (keys c).length ≤ hi*(nodes c).length) :
    lo*(cs.flatMap nodes).length ≤ ((cs.map keys).map List.length).sum ∧
      ((cs.map keys).map List.length).sum ≤ hi*(cs.flatMap nodes).length := by
  induction cs with
  | nil => simp
  | cons c cs ih =>
    obtain ⟨hlo,hhi⟩ := hcs c List.mem_cons_self
    obtain ⟨hlo',hhi'⟩ := ih fun d hd => hcs d (List.mem_cons_of_mem c hd)
    simp only [List.flatMap_cons, List.length_append, List.map_cons, List.sum_cons, Nat.mul_add]
    exact ⟨Nat.add_le_add hlo hlo',Nat.add_le_add hhi hhi'⟩

/-- Every node below a root has from `t-1` to `2*t-1` keys. -/
theorem Fits.bounds {c : Kid h} (hc : Fits t h c) :
    (t-1)*(kidPtrs h c).length ≤ (kidKeys h c).length ∧
      (kidKeys h c).length ≤ (2*t-1)*(kidPtrs h c).length := by
  induction h with
  | zero => exact c.elim
  | succ h ih =>
    obtain ⟨⟨hmin,hmax⟩,harity,hkids⟩ := hc
    have hweave : (kidKeys (h+1) c).length = ((c.kids.map (kidKeys h)).map List.length).sum+c.keys.length := by
      apply length_weave_add
      rw [List.length_map]
      obtain rfl | h0 := eq_or_ne h 0
      · exact .inr (by rw [kids_eq_nil c, List.map_nil])
      · exact .inl (harity h0)
    obtain ⟨hlo,hhi⟩ := flatMap_bounds fun d hd => ih (hkids d hd)
    have hptrs : (kidPtrs (h+1) c).length = (c.kids.flatMap (kidPtrs h)).length+1 := List.length_cons
    rw [hweave, hptrs, Nat.mul_succ, Nat.mul_succ]
    exact ⟨Nat.add_le_add hlo hmin,Nat.add_le_add hhi hmax⟩

/-- The root may have fewer keys. -/
theorem Linked.bounds {T : Btree} {ps : List Ptr} (hps : Linked T ps) :
    ps.Nodup ∧ ∃ L, HoldsKeys T L ∧ L.length ≤ (2*T.t-1)*ps.length ∧
      (T.t-1)*ps.length ≤ L.length+(T.t-1) := by
  cases hps with
  | null root => exact ⟨List.nodup_nil,[],.null root,Nat.zero_le _,Nat.zero_le _⟩
  | @tree h n hT =>
    refine ⟨hT.rep.nodup,inorder n,.tree hT,?_⟩
    obtain ⟨hlo,hhi⟩ := flatMap_bounds fun d hd => (hT.shape.kids d hd).bounds
    have hkeys : (inorder n).length = ((n.kids.map (kidKeys h)).map List.length).sum+n.keys.length := by
      apply length_weave_add
      rw [List.length_map]
      obtain rfl | h0 := eq_or_ne h 0
      · exact .inr (by rw [kids_eq_nil n, List.map_nil])
      · exact .inl (hT.shape.arity h0)
    have hptrs : (ptrs n).length = (n.kids.flatMap (kidPtrs h)).length+1 := List.length_cons
    have hnum := hT.shape.num_le
    rw [hkeys, hptrs, Nat.mul_succ, Nat.mul_succ]
    omega

/-- The memory of a B-tree goes with its keys: after any calls that all return, `N` nodes are allocated beside
those from before `btree_create`, for at most `(2*t-1)*N` and at least `(t-1)*(N-1)` keys. -/
theorem node_count_bounds (T : Btree) {t : ℕ} (ht : 2 ≤ t) (hnext : 0 < T.next)
    (hlive : ∀ p, T.live p = true → p < T.next) {calls : List Call} {T' : Btree}
    (hrun : Run CallStep (btreeCreate T t) calls T') :
    ∃ ps : List Ptr, ps.Nodup ∧ (∀ p, p ∈ ps ↔ T'.live p = true ∧ T.live p = false) ∧
      ∃ L, HoldsKeys T' L ∧ L.length ≤ (2*t-1)*ps.length ∧ (t-1)*ps.length ≤ L.length+(t-1) := by
  obtain ⟨hiff,hold⟩ := live_iff_reachable T ht hnext hlive hrun
  obtain ⟨ps,hps,hfoot⟩ := run_linked ht hnext hrun
  obtain ⟨hnodup,hbounds⟩ := hps.bounds
  rw [hfoot.t] at hbounds
  refine ⟨ps,hnodup,fun p => ?_,hbounds⟩
  rw [hps.mem_iff, hiff]
  constructor
  · exact fun hp => ⟨.inl hp,hold p hp⟩
  · rintro ⟨hp | hp,hnot⟩
    · exact hp
    · cases hp.symm.trans hnot

theorem node_count_bounds_four : ∃ T', Run CallStep (btreeCreate emptyStore 2)
    [.insert 1,.insert 2,.insert 3,.insert 4] T' ∧ ∃ ps : List Ptr, ps.Nodup ∧
      (∀ p, p ∈ ps ↔ T'.live p = true ∧ emptyStore.live p = false) ∧
      ∃ L, HoldsKeys T' L ∧ L.length ≤ 3*ps.length ∧ ps.length ≤ L.length+1 := by
  obtain ⟨T',hrun,-⟩ := fourKeys_run
  obtain ⟨ps,hnodup,hmem,L,hL,hhi,hlo⟩ := node_count_bounds emptyStore le_rfl (by decide) nofun hrun
  exact ⟨T',hrun,ps,hnodup,hmem,L,hL,hhi,by omega⟩

end Count
end ServerKit.BTree
