import ServerKit.BTree.Contracts

/-! The two empty B-trees: `btree_create` leaves a leaf without a key, the removal of the last key a
NULL root, and only the first one can be inserted into. -/
namespace ServerKit.BTree
open ServerKit.Lib

theorem Ins.mem {t h : ℕ} {n n' : Tree h} {k : ℤ} (hins : Ins t n k n') : k ∈ inorder n' := by
  induction hins with
  | leaf => exact List.mem_append_right _ List.mem_cons_self
  | @down h p A B k P S c c' hA hB hP hc ins ih =>
    rw [inorder_focus p hP]
    exact List.mem_append_left _ (List.mem_append_right _ ih)
  | @splitLeft h p A B k m P S l l' r hA hB hP hl hr hlc hm ins ih =>
    rw [inorder_separator p m hP]
    simp [ih]
  | @splitRight h p A B k m P S l r r' hA hB hP hl hr hlc hm ins ih =>
    rw [inorder_separator p m hP]
    simp [ih]

/-- A B-tree of one key is a leaf. -/
theorem height_eq_zero {t h : ℕ} {n : Tree h} {k : ℤ} (ht : 2 ≤ t) (hn : ShapeValid t n)
    (hk : inorder n = [k]) : h = 0 := by
  obtain ⟨p,ks,cs⟩ := n
  cases h with
  | zero => rfl
  | succ h =>
    obtain _ | ⟨a,B⟩ := ks
    · exact absurd (hn.root_num (Nat.succ_ne_zero h)) (Nat.not_succ_le_zero 0)
    obtain ⟨P,c,S,rfl,hP,-⟩ := exists_kid (A := []) (hn.arity (Nat.succ_ne_zero h))
    obtain rfl : P = [] := List.eq_nil_of_length_eq_zero hP
    -- the first subtree has a key as well
    have hc : t-1 ≤ c.keys.length := (fits_iff.mp (hn.kids c (by simp))).1.1
    have hle : c.keys.length ≤ (inorder c).length := (sublist_weave _ _).length_le
    have hone : (inorder c ++ a :: weave (S.map inorder) B).length = 1 := congrArg List.length hk
    rw [List.length_append, List.length_cons] at hone
    omega

/-- The deletion of the only key leaves nothing. -/
theorem Del.keys_eq_nil {t : ℕ} {p : Ptr} {k : ℤ} {n' : Tree 0} {b : Bool}
    (hdel : Del t (⟨p,[k],[]⟩ : Tree 0) k n' b) : n'.keys = [] := by
  generalize hn : (⟨p,[k],[]⟩ : Tree 0) = n at hdel
  cases hdel with
  | @leafHit q A B k hA =>
    have hlen : [k].length = (A ++ k :: B).length := congrArg (fun n => n.keys.length) hn
    simp only [List.length_append, List.length_cons, List.length_nil] at hlen
    exact List.eq_nil_of_length_eq_zero (by simp only [List.length_append]; omega)
  | @leafMiss q A B k hA hB =>
    have hkeys : [k] = A ++ B := congrArg Page.keys hn
    obtain _ | ⟨a,A⟩ := A
    · obtain rfl : [k] = B := hkeys
      exact absurd (hB k rfl) (lt_irrefl k)
    · obtain ⟨rfl,-⟩ := List.cons.inj hkeys
      exact absurd (hA k List.mem_cons_self) (lt_irrefl k)

section Calls
variable {T T' T₁ : Btree} {t : ℕ} {k : ℤ} {c : Call} {calls : List Call}

theorem CallStep.unique (h : CallStep T c T') (h' : CallStep T c T₁) : T' = T₁ := by
  cases h with
  | insert ret =>
    cases h' with
    | insert ret' => exact ret.unique ret'
  | delete ret =>
    cases h' with
    | delete ret' => exact (Prod.mk.inj (ret.unique ret')).1

/-- An insertion returns exactly if there is a root, and the key is in the tree then. -/
theorem insert_served (ht : 2 ≤ t) (hT : Usable t T) (hroot : T.root ≠ 0) (k : ℤ) :
    ∃ T' L, CallStep T (.insert k) T' ∧ HoldsKeys T' L ∧ k ∈ L := by
  obtain ⟨rfl,hnull | ⟨h,n,hn⟩⟩ := hT
  · exact absurd hnull hroot
  · obtain ⟨h',T',n₀,n',hret,-,-,-,hins,hT'⟩ := btreeInsert_spec k ht hn
    exact ⟨T',inorder n',.insert hret,.tree hT',hins.mem⟩

theorem not_insert_null (hroot : T.root = 0) : ¬ CallStep T (.insert k) T' := by
  rintro ⟨N,hN⟩
  have hnone : btreeInsert N T k = none := if_pos hroot
  exact absurd ((hN N le_rfl).symm.trans hnone) (Option.some_ne_none _)

/-- A deletion always returns. -/
theorem delete_returns (ht : 2 ≤ t) (hT : Usable t T) (k : ℤ) : ∃ T', CallStep T (.delete k) T' := by
  obtain ⟨rfl,hnull | ⟨h,n,hn⟩⟩ := hT
  · have hsame : Returns (fun f => btreeDelete f T k) (T,false,-1) :=
      Returns.congr (fun f => by rw [btreeDelete, if_pos hnull]) (Returns.const _)
    exact ⟨T,.delete hsame⟩
  · obtain ⟨T',-,b,hret,-⟩ := btreeDelete_spec k ht hn
    exact ⟨T',.delete hret⟩

/-- Nothing brings a NULL root back. -/
theorem root_stays_null (hroot : T.root = 0) (hstep : CallStep T c T') : T'.root = 0 := by
  cases hstep with
  | insert ret => exact absurd (CallStep.insert ret) (not_insert_null hroot)
  | @delete _ k b status ret =>
    have hsame : Returns (fun f => btreeDelete f T k) (T,false,-1) :=
      Returns.congr (fun f => by rw [btreeDelete, if_pos hroot]) (Returns.const _)
    obtain ⟨rfl,-⟩ := Prod.mk.inj (ret.unique hsame)
    exact hroot

/-- The root becomes NULL by the deletion of the only key, and by nothing else. -/
theorem delete_null_iff (ht : 2 ≤ t) (hT : Usable t T) (hroot : T.root ≠ 0)
    (hstep : CallStep T (.delete k) T') : T'.root = 0 ↔ HoldsKeys T [k] := by
  obtain ⟨rfl,hnull | ⟨h,n,hn⟩⟩ := hT
  · exact absurd hnull hroot
  obtain ⟨T₁,n',b,hret,ht',hdel,hL,honly⟩ := btreeDelete_spec k ht hn
  obtain rfl : T' = T₁ := hstep.unique (.delete hret)
  constructor
  · intro h0
    rw [← honly h0]
    exact .tree hn
  · intro hk
    have hone : inorder n = [k] := (HoldsKeys.tree hn).unique hk
    obtain rfl := height_eq_zero ht hn.shape hone
    obtain ⟨p,ks,cs⟩ := n
    obtain rfl : cs = [] := kids_eq_nil ⟨p,ks,cs⟩
    obtain rfl : ks = [k] := hone
    obtain ⟨T₂,n₂,b₂,hret₂,-,hdel₂,-,hout⟩ := deleteLeaf_spec T ⟨p,[k],[]⟩ k ht hn.rep
      hn.shape.toFitsBelow (fun h0 => absurd rfl h0)
    have hcode : ∀ f, btreeDelete f T k = (btreeDeleteKey f T p k).map fun r => (r.1,r.2,0) := by
      intro f
      rw [btreeDelete, hn.root, if_neg hn.rep.cell.ne_null]
    obtain rfl : T' = T₂ := hstep.unique (.delete (Returns.congr hcode (hret₂.map _)))
    cases hout with
    | kept num => exact absurd (num hdel₂.keys_eq_nil) (List.cons_ne_nil k [])
    | collapsed num keys collapsed => exact collapsed

/-- After calls that all return, the root is NULL only if one of them deleted the only key. -/
theorem exists_last_deleted (ht : 2 ≤ t) (hT : Usable t T) (hroot : T.root ≠ 0)
    (h : Run CallStep T calls T') (hnull : T'.root = 0) :
    ∃ before k mid T₁, calls = before ++ .delete k :: mid ∧ Run CallStep T before T₁ ∧
      HoldsKeys T₁ [k] := by
  induction h with
  | nil => exact absurd hnull hroot
  | @snoc calls c T₁ T₂ run last ih =>
    have hT₁ : Usable t T₁ := run.invariant hT fun _ _ _ hU hstep => callStep_usable ht hU hstep
    by_cases hroot₁ : T₁.root = 0
    · obtain ⟨before,k,mid,T₀,rfl,hrun,hone⟩ := ih hroot₁
      exact ⟨before,k,mid ++ [c],T₀,by simp,hrun,hone⟩
    · cases c with
      | insert k =>
        obtain ⟨T₃,L,hstep,hL,hk⟩ := insert_served ht hT₁ hroot₁ k
        obtain rfl := last.unique hstep
        cases hL with
        | null => exact absurd hk List.not_mem_nil
        | tree hn => exact absurd (hn.root.symm.trans hnull) hn.rep.cell.ne_null
      | delete k => exact ⟨calls,k,[],T₁,rfl,run,(delete_null_iff ht hT₁ hroot₁ last).mp hnull⟩

end Calls

section Sequences

/-- Every insertion among the calls returns, and its key is in the tree afterwards. -/
def InsertsServed (T : Btree) (calls : List Call) : Prop :=
  ∀ before k after, calls = before ++ .insert k :: after →
    ∃ T' L, Run CallStep T (before ++ [.insert k]) T' ∧ HoldsKeys T' L ∧ k ∈ L

/-- One of the calls deletes the only key that the tree holds, and an insertion comes after it. -/
def InsertsAfterLast (T : Btree) (calls : List Call) : Prop :=
  ∃ before k mid k' after T₁, calls = before ++ .delete k :: mid ++ .insert k' :: after ∧
    Run CallStep T before T₁ ∧ HoldsKeys T₁ [k]

variable {T T₁ T' : Btree} {t : ℕ} {calls : List Call}

/-- Calls whose insertions are served all return. -/
theorem exists_run (ht : 2 ≤ t) (hT : Usable t T) (hroot : T.root ≠ 0)
    (hlast : ¬ InsertsAfterLast T calls) : ∃ T', Run CallStep T calls T' := by
  induction calls using List.reverseRecOn with
  | nil => exact ⟨T,.nil⟩
  | append_singleton calls c ih =>
    obtain ⟨T₁,hrun⟩ := ih <| by
      rintro ⟨before,k,mid,k',after,T₁,rfl,hrest⟩
      exact hlast ⟨before,k,mid,k',after ++ [c],T₁,by simp,hrest⟩
    have hT₁ : Usable t T₁ := hrun.invariant hT fun _ _ _ hU hstep => callStep_usable ht hU hstep
    cases c with
    | delete k =>
      obtain ⟨T',hstep⟩ := delete_returns ht hT₁ k
      exact ⟨T',hrun.snoc hstep⟩
    | insert k =>
      have hroot₁ : T₁.root ≠ 0 := by
        intro hnull
        obtain ⟨before,k₀,mid,T₀,rfl,hbefore,hone⟩ := exists_last_deleted ht hT hroot hrun hnull
        exact hlast ⟨before,k₀,mid,k,[],T₀,rfl,hbefore,hone⟩
      obtain ⟨T',-,hstep,-⟩ := insert_served ht hT₁ hroot₁ k
      exact ⟨T',hrun.snoc hstep⟩

theorem not_served (ht : 2 ≤ t) (hT : Usable t T) (hlast : InsertsAfterLast T calls) :
    ¬ InsertsServed T calls := by
  obtain ⟨before,k,mid,k',after,T₁,rfl,hbefore,hone⟩ := hlast
  intro hserved
  obtain ⟨T',L,hrun,-⟩ := hserved (before ++ .delete k :: mid) k' after rfl
  obtain ⟨T₂,hdeleted,hinsert⟩ := hrun.of_append rfl
  obtain ⟨T₃,hbefore',hrest⟩ := hdeleted.of_append rfl
  obtain rfl := hbefore.unique (fun _ _ _ _ h h' => h.unique h') hbefore'
  have hT₁ : Usable t T₁ := hbefore.invariant hT fun _ _ _ hU hstep => callStep_usable ht hU hstep
  have hroot : T₁.root ≠ 0 := by
    generalize hL : [k] = L at hone
    cases hone with
    | null => exact absurd hL (List.cons_ne_nil k [])
    | tree hn => exact fun hnull => hn.rep.cell.ne_null (hn.root.symm.trans hnull)
  obtain ⟨T₀,hdelete,hmid⟩ := hrest.of_cons rfl
  have hnull : T₂.root = 0 := hmid.invariant ((delete_null_iff ht hT₁ hroot hdelete).mpr hone)
    fun _ _ _ hroot hstep => root_stays_null hroot hstep
  obtain ⟨T₄,hstep,-⟩ := hinsert.of_cons rfl
  exact not_insert_null hnull hstep

/-- From `btree_create` on every insertion is served, up to one that comes after the deletion of the
only key. -/
theorem btree_inserts_served_iff (T : Btree) {t : ℕ} (ht : 2 ≤ t) (hnext : 0 < T.next)
    (calls : List Call) :
    InsertsServed (btreeCreate T t) calls ↔ ¬ InsertsAfterLast (btreeCreate T t) calls := by
  have hcreate : IsBtree (btreeCreate T t) (⟨T.next,[],[]⟩ : Tree 0) := btreeCreate_isBtree T t hnext
  have hT : Usable t (btreeCreate T t) := ⟨rfl,.inr ⟨0,_,hcreate⟩⟩
  have hroot : (btreeCreate T t).root ≠ 0 := hnext.ne'
  refine ⟨fun hserved hlast => not_served ht hT hlast hserved,?_⟩
  rintro hlast before k after rfl
  have hlast' : ¬ InsertsAfterLast (btreeCreate T t) (before ++ [.insert k]) := by
    rintro ⟨a,k₀,mid,k',c,T₁,hcalls,hrest⟩
    refine hlast ⟨a,k₀,mid,k',c ++ after,T₁,?_,hrest⟩
    rw [List.append_cons, hcalls]
    simp
  obtain ⟨T',hrun⟩ := exists_run ht hT hroot hlast'
  obtain ⟨T₁,hbefore,hinsert⟩ := hrun.of_append rfl
  have hT₁ : Usable t T₁ := hbefore.invariant hT fun _ _ _ hU hstep => callStep_usable ht hU hstep
  obtain ⟨T₂,hstep,-⟩ := hinsert.of_cons rfl
  have hroot₁ : T₁.root ≠ 0 := fun hnull => not_insert_null hnull hstep
  obtain ⟨T₃,L,hstep',hL,hk⟩ := insert_served ht hT₁ hroot₁ k
  exact ⟨T₃,L,hbefore.snoc hstep',hL,hk⟩

/-- A store in which nothing has been allocated. -/
def emptyStore : Btree := ⟨0,0,fun _ => ⟨[],[],0,false⟩,fun _ => false,1⟩

theorem HoldsSorted.holdsKeys {L : List ℤ} (hT : HoldsSorted t T L) : HoldsKeys T L := by
  obtain ⟨-,h,n,hn,-,rfl⟩ := hT
  exact .tree hn

theorem HoldsSorted.insert {L : List ℤ} (ht : 2 ≤ t) (hT : HoldsSorted t T L) (k : ℤ) :
    ∃ T', CallStep T (.insert k) T' ∧ HoldsSorted t T' (L.orderedInsert (· ≤ ·) k) := by
  obtain ⟨ht',h,n,hn,-⟩ := id hT
  have hroot : T.root ≠ 0 := fun hnull => hn.rep.cell.ne_null (hn.root.symm.trans hnull)
  obtain ⟨T',-,hstep,-⟩ := insert_served ht ⟨ht',.inr ⟨h,n,hn⟩⟩ hroot k
  cases hstep with
  | insert ret => exact ⟨T',.insert ret,insert_holdsSorted ht hT ret⟩

theorem emptyStore_holdsSorted : HoldsSorted 2 (btreeCreate emptyStore 2) [] :=
  ⟨rfl,0,_,btreeCreate_isBtree emptyStore 2 (by decide),List.Pairwise.nil,rfl⟩

/-- The only key goes, and the next insertion finds no root. -/
theorem btree_insert_after_last : 0 < emptyStore.next ∧
    ¬ InsertsServed (btreeCreate emptyStore 2) [.insert 5,.delete 5,.insert 7] := by
  refine ⟨by decide,?_⟩
  have hcreate : HoldsSorted 2 (btreeCreate emptyStore 2) [] := emptyStore_holdsSorted
  obtain ⟨T₁,hstep,hT₁⟩ := hcreate.insert le_rfl 5
  have hone : HoldsKeys T₁ [5] := hT₁.holdsKeys
  obtain ⟨-,h,n,hn,-⟩ := hcreate
  exact not_served le_rfl ⟨rfl,.inr ⟨h,n,hn⟩⟩
    ⟨[.insert 5],5,[],7,[],T₁,rfl,Run.nil.snoc hstep,hone⟩

/-- With another key left the tree stays usable. -/
theorem btree_inserts_served_two :
    InsertsServed (btreeCreate emptyStore 2) [.insert 5,.insert 6,.delete 5,.insert 7] := by
  refine (btree_inserts_served_iff emptyStore le_rfl (by decide) _).mpr ?_
  rintro ⟨before,k,mid,k',after,T₁,hcalls,hrun,hone⟩
  obtain ⟨T₂,hstep,hT₂⟩ := emptyStore_holdsSorted.insert le_rfl 5
  obtain ⟨T₃,hstep',hT₃⟩ := hT₂.insert le_rfl 6
  obtain _ | ⟨a,_ | ⟨b,_ | ⟨c,_ | ⟨d,before⟩⟩⟩⟩ := before
  all_goals simp at hcalls
  obtain ⟨rfl,rfl,-⟩ := hcalls
  have hsame : T₁ = T₃ :=
    hrun.unique (fun _ _ _ _ h h' => h.unique h') ((Run.nil.snoc hstep).snoc hstep')
  subst hsame
  have hlen : [k].length = 2 := congrArg List.length (hone.unique hT₃.holdsKeys)
  exact absurd hlen (by simp)

end Sequences
end ServerKit.BTree
