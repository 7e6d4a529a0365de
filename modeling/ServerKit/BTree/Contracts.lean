import ServerKit.BTree.Delete
import ServerKit.Lib.Transition

/-! What a client of the B-tree can rely on after `btree_delete`, and where the order of the keys is
lost. -/
namespace ServerKit.BTree
open Function ServerKit.Lib

theorem HoldsKeys.exists_tree {T : Btree} {L : List ℤ} (hL : HoldsKeys T L) (hroot : T.root ≠ 0) :
    ∃ (h : ℕ) (n : Tree h), IsBtree T n ∧ inorder n = L := by
  cases hL with
  | null root => exact absurd root hroot
  | tree hT => exact ⟨_,_,hT,rfl⟩

section Delete
variable {h : ℕ} {T : Btree} {n : Tree h}

/-- What is left is a B-tree again, or nothing. -/
theorem Outcome.holdsKeys {T' : Btree} {n' : Tree h} {k : ℤ} {b : Bool} (ht : 2 ≤ T.t)
    (hT : IsBtree T n) (ht' : T'.t = T.t) (hdel : Del T.t n k n' b) (hptr : n'.ptr = n.ptr)
    (hout : Outcome T T' n n') : HoldsKeys T' (inorder n') := by
  obtain ⟨hfit,hle,-⟩ := hdel.shape (by omega) hT.shape.toFitsBelow
  cases hout with
  | kept num root rep step =>
    refine .tree ⟨root.trans (hT.root.trans hptr.symm),rep,?_⟩
    rw [ht']
    refine ⟨hfit,hle.trans hT.shape.num_le,fun h0 => ?_⟩
    refine List.length_pos_iff.mpr fun hnil => ?_
    have hnum := hT.shape.root_num h0
    rw [num hnil] at hnum
    exact absurd hnum (by decide)
  | collapsed num keys collapsed =>
    obtain ⟨p,ks,cs⟩ := n'
    obtain rfl : ks = [] := keys
    cases h with
    | zero =>
      rw [show cs = [] from kids_eq_nil ⟨p,[],cs⟩]
      exact .null collapsed
    | succ h =>
      obtain ⟨m,hm,hroot,hrep⟩ := collapsed
      obtain rfl : cs = [m] := hm
      obtain ⟨hnum,hmfit⟩ := fits_iff.mp (hfit.kids m List.mem_cons_self)
      have hsame : inorder (⟨p,[],[m]⟩ : Tree (h+1)) = inorder m := by
        change weave [inorder m] [] = inorder m
        simp
      rw [hsame]
      refine .tree ⟨hroot,hrep,?_⟩
      rw [ht']
      exact ⟨hmfit,hnum.2,fun _ => by omega⟩

/-- Only the removal of the last key leaves a NULL root. -/
theorem Outcome.root_eq_null {T' : Btree} {n' : Tree h} {k : ℤ} {b : Bool} (hT : IsBtree T n)
    (hdel : Del T.t n k n' b) (hout : Outcome T T' n n') (hroot' : T'.root = 0) : inorder n = [k] := by
  cases hout with
  | kept num root rep step =>
    rw [root, hT.root] at hroot'
    exact absurd hroot' hT.rep.cell.ne_null
  | collapsed num keys collapsed =>
    cases hdel with
    | @leafHit p A B k hA =>
      obtain ⟨rfl,rfl⟩ := List.append_eq_nil_iff.mp keys
      rfl
    | leafMiss hA hB =>
      rw [show _ ++ _ = [] from keys] at num
      exact absurd num Nat.zero_ne_one
    | fromLeft | fromRight | merge | down =>
      obtain ⟨m,-,hroot,hrep⟩ := collapsed
      exact absurd (hroot.symm.trans hroot') hrep.cell.ne_null

/-- What `btree_delete` does to a B-tree, whatever the order of its keys. -/
theorem btreeDelete_spec (k : ℤ) (ht : 2 ≤ T.t) (hT : IsBtree T n) :
    ∃ (T' : Btree) (n' : Tree h) (b : Bool), Returns (fun f => btreeDelete f T k) (T',b,0) ∧
      T'.t = T.t ∧ Del T.t n k n' b ∧ HoldsKeys T' (inorder n') ∧
      (T'.root = 0 → inorder n = [k]) := by
  have hne : h ≠ 0 → n.keys ≠ [] := fun h0 => List.ne_nil_of_length_pos (hT.shape.root_num h0)
  obtain ⟨T',n',b,hret,ht',hdel,hptr,hout⟩ :=
    btreeDeleteKey_spec h T n k ht hT.rep hT.shape.toFitsBelow hne
  have hcode : ∀ f, btreeDelete f T k =
      (btreeDeleteKey f T n.ptr k).map fun r => (r.1,r.2,0) := by
    intro f
    rw [btreeDelete, hT.root, if_neg hT.rep.cell.ne_null]
  exact ⟨T',n',b,Returns.congr hcode (hret.map _),ht',hdel,hout.holdsKeys ht hT ht' hdel hptr,
    hout.root_eq_null hT hdel⟩

/-- After the deletion of a stored key the keys are in order exactly if every key that was copied
over a separator was the greatest one of its left, or the least one of its right subtree. -/
theorem btreeDelete_sorted_iff {h : ℕ} (T : Btree) (n : Tree h) (k : ℤ) (ht : 2 ≤ T.t)
    (hT : IsBtree T n) (hs : (inorder n).Pairwise (· ≤ ·)) (hk : k ∈ inorder n) :
    ∃ (T' : Btree) (L : List ℤ), Returns (fun f => btreeDelete f T k) (T',false,0) ∧
      HoldsKeys T' L ∧ (L.Pairwise (· ≤ ·) ↔ CopiesExtreme T.t h n k) := by
  obtain ⟨T',n',b,hret,-,hdel,hL,-⟩ := btreeDelete_spec k ht hT
  obtain ⟨-,rfl⟩ := hdel.keys_of_mem (by omega) hT.shape.toFitsBelow hs hk
  exact ⟨T',inorder n',hret,hL,hdel.sorted_iff (by omega) hT.shape.toFitsBelow hs hk⟩

/-- Three levels of degree 2: the child to the left of the separator 10 is not a leaf, and its last
key 4 is not its greatest one. -/
def deepTree : Tree 2 :=
  ⟨1,[10],[⟨2,[2,4],[⟨4,[1],[]⟩,⟨5,[3],[]⟩,⟨6,[5],[]⟩]⟩,⟨3,[20],[⟨7,[15],[]⟩,⟨8,[30],[]⟩]⟩]⟩

theorem deepTree_isBtree : IsBtree (storeOf 2 deepTree) deepTree := by
  refine storeOf_isBtree (by decide) ⟨⟨fun _ => rfl,?_⟩,by decide,by decide⟩ (by decide) (by decide)
  simp [deepTree,Fits]

theorem deepTree_sorted : (inorder deepTree).Pairwise (· ≤ ·) := by decide

theorem btreeDelete_sorted_iff_deep : ∃ (T' : Btree) (L : List ℤ),
    Returns (fun f => btreeDelete f (storeOf 2 deepTree) 1) (T',false,0) ∧ HoldsKeys T' L ∧
      L.Pairwise (· ≤ ·) := by
  obtain ⟨T',L,hret,hL,hiff⟩ := btreeDelete_sorted_iff (storeOf 2 deepTree) deepTree 1 le_rfl
    deepTree_isBtree deepTree_sorted (by decide)
  refine ⟨T',L,hret,hL,hiff.mpr ?_⟩
  change CopiesExtreme 2 2 deepTree 1
  simp [deepTree,CopiesExtreme]

/-- The separator 10 is replaced by 4, with 5 still to its left. -/
theorem btreeDelete_misorders : IsBtree (storeOf 2 deepTree) deepTree ∧
    (inorder deepTree).Pairwise (· ≤ ·) ∧ 10 ∈ inorder deepTree ∧
    ∃ (T' : Btree) (L : List ℤ), Returns (fun f => btreeDelete f (storeOf 2 deepTree) 10) (T',false,0) ∧
      HoldsKeys T' L ∧ ¬ L.Pairwise (· ≤ ·) := by
  have hmem : 10 ∈ inorder deepTree := by decide
  refine ⟨deepTree_isBtree,deepTree_sorted,hmem,?_⟩
  obtain ⟨T',n',b,hret,-,hdel,hL,-⟩ := btreeDelete_spec 10 le_rfl deepTree_isBtree
  have hdel' : Del 2 deepTree 10 n' b := hdel
  have hfit : FitsBelow 2 deepTree := deepTree_isBtree.shape.toFitsBelow
  obtain ⟨-,rfl⟩ := hdel'.keys_of_mem (by omega) hfit deepTree_sorted hmem
  refine ⟨T',inorder n',hret,hL,fun hs => ?_⟩
  have hcopies := (hdel'.sorted_iff (by omega) hfit deepTree_sorted hmem).mp hs
  simp [deepTree,CopiesExtreme] at hcopies
  exact absurd (hcopies 5 (by decide)) (by decide)

/-- The deletion of a stored key takes away one occurrence of it and nothing else. -/
theorem btreeDelete_perm {h : ℕ} (T : Btree) (n : Tree h) (k : ℤ) (ht : 2 ≤ T.t) (hT : IsBtree T n)
    (hs : (inorder n).Pairwise (· ≤ ·)) (hk : k ∈ inorder n) :
    ∃ (T' : Btree) (L : List ℤ), Returns (fun f => btreeDelete f T k) (T',false,0) ∧
      HoldsKeys T' L ∧ (inorder n).Perm (k :: L) := by
  obtain ⟨T',n',b,hret,-,hdel,hL,-⟩ := btreeDelete_spec k ht hT
  obtain ⟨hperm,rfl⟩ := hdel.keys_of_mem (by omega) hT.shape.toFitsBelow hs hk
  exact ⟨T',inorder n',hret,hL,hperm⟩

theorem btreeDelete_perm_deep : ∃ (T' : Btree) (L : List ℤ),
    Returns (fun f => btreeDelete f (storeOf 2 deepTree) 10) (T',false,0) ∧ HoldsKeys T' L ∧
      [1,2,3,4,5,10,15,20,30].Perm (10 :: L) :=
  btreeDelete_perm (storeOf 2 deepTree) deepTree 10 le_rfl deepTree_isBtree deepTree_sorted (by decide)

/-- The deletion of a key that is not stored ends at the NULL child of a leaf; the B-tree may get
another shape but keeps its keys. -/
theorem btreeDelete_absent {h : ℕ} (T : Btree) (n : Tree h) (k : ℤ) (ht : 2 ≤ T.t) (hT : IsBtree T n)
    (hs : (inorder n).Pairwise (· ≤ ·)) (hk : k ∉ inorder n) :
    ∃ (T' : Btree) (h' : ℕ) (n' : Tree h'), Returns (fun f => btreeDelete f T k) (T',true,0) ∧
      T'.t = T.t ∧ IsBtree T' n' ∧ (inorder n').Pairwise (· ≤ ·) ∧ inorder n' = inorder n := by
  obtain ⟨T',n',b,hret,ht',hdel,hL,hnull⟩ := btreeDelete_spec k ht hT
  obtain ⟨-,hsame,rfl⟩ :=
    (hdel.keys (by omega) hT.shape.toFitsBelow hs).resolve_left fun hnot => hk hnot.1
  have hroot : T'.root ≠ 0 := fun h0 => hk (by simp [hnull h0])
  obtain ⟨h',m,hm,hmkeys⟩ := hL.exists_tree hroot
  rw [hsame] at hmkeys
  exact ⟨T',h',m,hret,ht',hm,by rwa [hmkeys],hmkeys⟩

theorem btreeDelete_absent_deep : ∃ (T' : Btree) (h' : ℕ) (n' : Tree h'),
    Returns (fun f => btreeDelete f (storeOf 2 deepTree) 16) (T',true,0) ∧ IsBtree T' n' ∧
      inorder n' = [1,2,3,4,5,10,15,20,30] := by
  obtain ⟨T',h',n',hret,-,hT',-,hkeys⟩ := btreeDelete_absent (storeOf 2 deepTree) deepTree 16 le_rfl
    deepTree_isBtree deepTree_sorted (by decide)
  exact ⟨T',h',n',hret,hT',hkeys⟩

/-- Both operations keep the shape, whatever the order of the keys; only the removal of the last
key leaves no tree. -/
theorem btree_keeps_shape {h : ℕ} (T : Btree) (n : Tree h) (k : ℤ) (ht : 2 ≤ T.t) (hT : IsBtree T n) :
    (∃ (T' : Btree) (h' : ℕ) (n' : Tree h'), Returns (fun f => btreeInsert f T k) T' ∧ T'.t = T.t ∧
      IsBtree T' n') ∧
    ∃ (T' : Btree) (b : Bool), Returns (fun f => btreeDelete f T k) (T',b,0) ∧ T'.t = T.t ∧
      ((∃ (h' : ℕ) (n' : Tree h'), IsBtree T' n') ∨ T'.root = 0 ∧ inorder n = [k]) := by
  constructor
  · obtain ⟨h',T',n₀,n',hret,ht',-,-,-,hT'⟩ := btreeInsert_spec k ht hT
    exact ⟨T',h',n',hret,ht',hT'⟩
  · obtain ⟨T',n',b,hret,ht',hdel,hL,hnull⟩ := btreeDelete_spec k ht hT
    refine ⟨T',b,hret,ht',?_⟩
    by_cases h0 : T'.root = 0
    · exact .inr ⟨h0,hnull h0⟩
    · obtain ⟨h',m,hm,-⟩ := hL.exists_tree h0
      exact .inl ⟨h',m,hm⟩

theorem btree_keeps_shape_deep : ∃ (T' : Btree) (h' : ℕ) (n' : Tree h'),
    Returns (fun f => btreeInsert f (storeOf 2 deepTree) 7) T' ∧ IsBtree T' n' := by
  obtain ⟨⟨T',h',n',hret,-,hT'⟩,-⟩ :=
    btree_keeps_shape (storeOf 2 deepTree) deepTree 7 le_rfl deepTree_isBtree
  exact ⟨T',h',n',hret,hT'⟩

end Delete

section Runs

/-- `btree_create` gives a B-tree without a key, its root being a leaf. -/
theorem btreeCreate_isBtree (T : Btree) (t : ℕ) (hnext : 0 < T.next) :
    IsBtree (btreeCreate T t) (⟨T.next,[],[]⟩ : Tree 0) := by
  have hnode : (btreeCreate T t).node T.next =
      ⟨List.replicate (2*t-1) 0,List.replicate (2*t) 0,0,true⟩ := update_self ..
  refine ⟨rfl,⟨⟨hnext.ne',update_self ..,Nat.lt_succ_self _,?_⟩,fun c => c.elim,List.nodup_singleton _⟩,
    ⟨⟨fun h0 => absurd rfl h0,fun c => c.elim⟩,Nat.zero_le _,fun h0 => absurd rfl h0⟩⟩
  change NodeHolds t ((btreeCreate T t).node T.next) true [] []
  rw [hnode]
  exact ⟨rfl,rfl,List.nil_prefix,by simp,List.nil_prefix,by simp,fun _ => rfl⟩

/-- A call that a client makes. -/
inductive Call
  | insert (k : ℤ)
  | delete (k : ℤ)

inductive CallStep : Btree → Call → Btree → Prop
  | insert {T T' k} (ret : Returns (fun f => btreeInsert f T k) T') : CallStep T (.insert k) T'
  | delete {T T' k b status} (ret : Returns (fun f => btreeDelete f T k) (T',b,status)) :
      CallStep T (.delete k) T'

/-- What holds after any calls: the store holds a B-tree, or its root is NULL. -/
def Usable (t : ℕ) (T : Btree) : Prop :=
  T.t = t ∧ (T.root = 0 ∨ ∃ (h : ℕ) (n : Tree h), IsBtree T n)

theorem callStep_usable {t : ℕ} (ht : 2 ≤ t) {T T' : Btree} {c : Call} (hT : Usable t T)
    (hstep : CallStep T c T') : Usable t T' := by
  obtain ⟨rfl,hnull | ⟨h,n,hn⟩⟩ := hT
  · cases hstep with
    | @insert _ k ret =>
      obtain ⟨N,hN⟩ := ret
      have hnone : btreeInsert N T k = none := if_pos hnull
      exact absurd ((hN N le_rfl).symm.trans hnone) (Option.some_ne_none _)
    | @delete _ k b status ret =>
      have hsame : Returns (fun f => btreeDelete f T k) (T,false,-1) :=
        Returns.congr (fun f => by rw [btreeDelete, if_pos hnull]) (Returns.const _)
      obtain ⟨rfl,-⟩ := Prod.mk.inj (ret.unique hsame)
      exact ⟨rfl,.inl hnull⟩
  · cases hstep with
    | @insert _ k ret =>
      obtain ⟨h',T₁,n₀,n',hret,ht',-,-,-,hT'⟩ := btreeInsert_spec k ht hn
      obtain rfl := ret.unique hret
      exact ⟨ht',.inr ⟨h',n',hT'⟩⟩
    | @delete _ k b status ret =>
      obtain ⟨T₁,n',b',hret,ht',-,hL,-⟩ := btreeDelete_spec k ht hn
      obtain ⟨rfl,-⟩ := Prod.mk.inj (ret.unique hret)
      refine ⟨ht',or_iff_not_imp_left.mpr fun hroot => ?_⟩
      obtain ⟨h',m,hm,-⟩ := hL.exists_tree hroot
      exact ⟨h',m,hm⟩

/-- The shape of a B-tree after any calls from `btree_create` on. -/
theorem run_usable (T : Btree) {t : ℕ} (ht : 2 ≤ t) (hnext : 0 < T.next) {calls : List Call}
    {T' : Btree} (h : Run CallStep (btreeCreate T t) calls T') : Usable t T' :=
  h.invariant ⟨rfl,.inr ⟨0,_,btreeCreate_isBtree T t hnext⟩⟩ fun _ _ _ hT hstep =>
    callStep_usable ht hT hstep

/-- The store holds a B-tree with the keys `L`, in order. -/
def HoldsSorted (t : ℕ) (T : Btree) (L : List ℤ) : Prop :=
  T.t = t ∧ ∃ (h : ℕ) (n : Tree h), IsBtree T n ∧ (inorder n).Pairwise (· ≤ ·) ∧ inorder n = L

theorem insert_holdsSorted {t : ℕ} (ht : 2 ≤ t) {T T' : Btree} {k : ℤ} {L : List ℤ}
    (hT : HoldsSorted t T L) (ret : Returns (fun f => btreeInsert f T k) T') :
    HoldsSorted t T' (L.orderedInsert (· ≤ ·) k) := by
  obtain ⟨rfl,h,n,hn,hs,rfl⟩ := hT
  obtain ⟨h',T₁,n₀,n',hret,ht',hfits,hsame,hins,hT'⟩ := btreeInsert_spec k ht hn
  obtain rfl := ret.unique hret
  rw [← hsame] at hs ⊢
  obtain ⟨hs',hkeys⟩ := hins.orderedInsert hfits hs
  exact ⟨ht',h',n',hT',hs',hkeys⟩

end Runs
end ServerKit.BTree
