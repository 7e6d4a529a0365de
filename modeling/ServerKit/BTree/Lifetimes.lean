import ServerKit.BTree.InBounds

/-! A deletion uses no node after it has been freed, unless it merges the only two children of the
root because it has found the key there. -/
namespace ServerKit.BTree
open Function ServerKit.Lib Btree

/-- The nodes that are linked below the root. -/
inductive Reachable (T : Btree) : Ptr → Prop
  | root (h0 : T.root ≠ 0) : Reachable T T.root
  | child {p : Ptr} {i : ℕ} (hp : Reachable T p) (hi : i ≤ T.num p) (h0 : T.child p i ≠ 0) :
      Reachable T (T.child p i)

section Linked
variable {T : Btree} {h : ℕ} {n : Tree h}

/-- Every node of a tree is the root of a subtree. -/
theorem Rep.exists_subtree (hn : Rep T n) (hfit : FitsBelow T.t n) {p : Ptr} (hp : p ∈ ptrs n) :
    ∃ (h' : ℕ) (m : Tree h'), m.ptr = p ∧ ptrs m ⊆ ptrs n ∧ Rep T m ∧ FitsBelow T.t m := by
  induction h with
  | zero =>
    obtain ⟨q,ks,cs⟩ := n
    obtain rfl : cs = [] := kids_eq_nil ⟨q,ks,cs⟩
    exact ⟨0,_,(List.mem_singleton.mp hp).symm,List.Subset.refl _,hn,hfit⟩
  | succ h ih =>
    obtain ⟨q,ks,cs⟩ := n
    obtain rfl | hp := List.mem_cons.mp hp
    · exact ⟨h+1,_,rfl,List.Subset.refl _,hn,hfit⟩
    · obtain ⟨c,hc,hpc⟩ := List.mem_flatMap.mp hp
      obtain ⟨P,S,rfl⟩ := List.append_of_mem hc
      obtain ⟨h',m,hptr,hsub,hm,hmfit⟩ :=
        ih (n := c) hn.kid (fits_iff.mp (hfit.kids c hc)).2 hpc
      refine ⟨h',m,hptr,fun r hr => List.mem_cons_of_mem q ?_,hm,hmfit⟩
      exact List.mem_flatMap_of_mem hc (hsub hr)

/-- What a node of a tree links to is a node of the tree again. -/
theorem child_mem_ptrs (hn : Rep T n) (hfit : FitsBelow T.t n) {p : Ptr} (hp : p ∈ ptrs n) {i : ℕ}
    (hi : i ≤ T.num p) (h0 : T.child p i ≠ 0) : T.child p i ∈ ptrs n := by
  obtain ⟨h',m,rfl,hsub,hm,hmfit⟩ := hn.exists_subtree hfit hp
  cases h' with
  | zero => exact absurd (hm.cell.holds.null i) h0
  | succ h' =>
    obtain ⟨p,ks,cs⟩ := m
    have harity : cs.length = ks.length+1 := hmfit.arity (Nat.succ_ne_zero h')
    obtain ⟨c,-,hc,hchild,-⟩ := hm.exists_child harity (hi.trans_eq hm.cell.num)
    apply hsub
    rw [hchild]
    exact List.mem_cons_of_mem p (List.mem_flatMap_of_mem hc List.mem_cons_self)

theorem Reachable.mem_ptrs {p : Ptr} (hp : Reachable T p) (hT : IsBtree T n) : p ∈ ptrs n := by
  induction hp with
  | root h0 =>
    rw [hT.root]
    exact List.mem_cons_self
  | child _ hi h0 ih => exact child_mem_ptrs hT.rep hT.shape.toFitsBelow ih hi h0

theorem not_reachable_null (h0 : T.root = 0) {p : Ptr} : ¬ Reachable T p := by
  intro hp
  induction hp with
  | root hne => exact hne h0
  | child _ _ _ ih => exact ih

/-- All linked nodes are allocated, whatever keys the store holds. -/
theorem HoldsKeys.live {L : List ℤ} (hL : HoldsKeys T L) {p : Ptr} (hp : Reachable T p) :
    T.live p = true := by
  cases hL with
  | null root => exact absurd hp (not_reachable_null root)
  | tree hT => exact hT.rep.live p (hp.mem_ptrs hT)

end Linked

/-- The key is the only one of the root, and both subtrees are minimal. -/
def RootMerge (t : ℕ) : {h : ℕ} → Tree h → ℤ → Prop
  | 0,_,_ => False
  | _+1,n,k => n.keys = [k] ∧ ∀ c ∈ n.kids, c.keys.length = t-1

/-- The two subtrees of the only key of a node are merged. -/
abbrev mergesLast (b : Branch) (m : ℕ) : Prop := b = .mergeFound ∧ m = 1

section Merge
variable {t h : ℕ}

/-- Below the root every node of the descent has at least two keys. -/
theorem not_meets_mergesLast {n : Tree h} {k : ℤ} (ht : 2 ≤ t) (hfit : FitsBelow t n)
    (hnum : t ≤ n.keys.length) : ¬ Meets t mergesLast n k := by
  intro hmeets
  induction hmeets with
  | here hd hb => omega
  | later hd hc ih =>
    obtain ⟨hcfit,hcnum⟩ := hd.fits (by omega) hfit
    exact ih (fits_iff.mp hcfit).2 hcnum

theorem meets_mergesLast_iff {n : Tree h} {k : ℤ} (ht : 2 ≤ t) (hfit : FitsBelow t n) :
    Meets t mergesLast n k ↔ RootMerge t n k := by
  constructor
  · intro hmeets
    cases hmeets with
    | here hd hb =>
      obtain ⟨rfl,hone⟩ := hb
      cases hd with
      | @mergeFound p A B k P S L R hA hP hL hR =>
        have hlen : A.length+(B.length+1) = 1 := by simpa using hone
        obtain rfl : A = [] := List.eq_nil_of_length_eq_zero (by omega)
        obtain rfl : B = [] := List.eq_nil_of_length_eq_zero (by omega)
        obtain rfl : P = [] := List.eq_nil_of_length_eq_zero hP
        obtain ⟨hS,hLfit,-,hSfit⟩ := (fitsBelow_focus (A := []) (P := []) rfl).mp hfit
        obtain rfl : S = [] := List.eq_nil_of_length_eq_zero (by simpa using hS)
        have hLmin := (fits_iff.mp hLfit).1.1
        have hRmin := (fits_iff.mp (hSfit R List.mem_cons_self)).1.1
        refine ⟨rfl,fun c hc => ?_⟩
        obtain rfl | hc := List.mem_cons.mp hc
        · omega
        · obtain rfl := List.mem_singleton.mp hc
          omega
    | later hd hc =>
      obtain ⟨hcfit,hcnum⟩ := hd.fits (by omega) hfit
      exact absurd hc (not_meets_mergesLast ht (fits_iff.mp hcfit).2 hcnum)
  · intro hroot
    cases h with
    | zero => exact hroot.elim
    | succ h =>
      obtain ⟨p,ks,cs⟩ := n
      obtain ⟨rfl,hmin⟩ := hroot
      have harity : cs.length = 2 := hfit.arity (Nat.succ_ne_zero h)
      obtain ⟨L,R,rfl⟩ := List.length_eq_two.mp harity
      have hL := hmin L List.mem_cons_self
      have hR := hmin R (List.mem_cons_of_mem L List.mem_cons_self)
      have hd : Descent t (⟨p,[k],[L,R]⟩ : Tree (h+1)) k .mergeFound (join L k R) k :=
        .mergeFound (A := []) (P := []) (by simp) rfl (by omega) (by omega)
      exact .here hd ⟨rfl,rfl⟩

end Merge
theorem Traced.tolerates_live (t : ℕ) : Traced.Tolerates (fun e => e.live = true) t :=
  fun _ _ _ => rfl

theorem Branch.good_live {m i : ℕ} (p : Ptr) (b : Branch) :
    b.Good (fun e => e.live = true) p m i ↔ ¬ mergesLast b m := by
  cases b with
  | enter => simp [Branch.good_enter]
  | mergeSiblings => simp [Branch.good_siblings]
  | mergeFound => simp [Branch.good_found]

theorem delete_log_live {T : Btree} {h : ℕ} {n : Tree h} (k : ℤ) (ht : 2 ≤ T.t) (hT : IsBtree T n) :
    ∃ (T' : Btree) (b : Bool) (es : List Access),
      Returns (fun f => Traced.btreeDelete f T k) ((b,0),T',es) ∧
      Returns (fun f => btreeDelete f T k) (T',b,0) ∧
      ((∀ e ∈ es, e.live = true) ↔ ¬ RootMerge T.t n k) ∧ ∀ p, Reachable T' p → T'.live p = true := by
  obtain ⟨T',b,es,hlog,hret,hes⟩ := delete_log (Traced.tolerates_live T.t)
    (fun p _ _ b _ _ => Branch.good_live p b) ht hT k
  obtain ⟨T'',n',b',hret',-,-,hL,-⟩ := btreeDelete_spec k ht hT
  obtain ⟨rfl,-⟩ := Prod.mk.inj (hret.unique hret')
  rw [meets_mergesLast_iff ht hT.shape.toFitsBelow] at hes
  exact ⟨T',b,es,hlog,hret,hes,fun p hp => hL.live hp⟩

/-- A deletion uses only nodes that are allocated, and it leaves only such nodes linked, unless the
key is the only one of the root and both subtrees are minimal. -/
theorem nodes_live_iff {h : ℕ} (T : Btree) (n : Tree h) (k : ℤ) (ht : 2 ≤ T.t) (hT : IsBtree T n) :
    ∃ (T' : Btree) (b : Bool) (es : List Access),
      Returns (fun f => Traced.btreeDelete f T k) ((b,0),T',es) ∧
      Returns (fun f => btreeDelete f T k) (T',b,0) ∧
      (((∀ e ∈ es, e.live = true) ∧ ∀ p, Reachable T' p → T'.live p = true) ↔
        ¬ RootMerge T.t n k) := by
  obtain ⟨T',b,es,hlog,hret,hes,hlive⟩ := delete_log_live k ht hT
  exact ⟨T',b,es,hlog,hret,(and_iff_left hlive).trans hes⟩

theorem nodes_live_iff_deep : ∃ (T' : Btree) (b : Bool) (es : List Access),
    Returns (fun f => Traced.btreeDelete f (storeOf 2 deepTree) 10) ((b,0),T',es) ∧
    Returns (fun f => btreeDelete f (storeOf 2 deepTree) 10) (T',b,0) ∧
    (((∀ e ∈ es, e.live = true) ∧ ∀ p, Reachable T' p → T'.live p = true) ↔
      ¬ RootMerge 2 deepTree 10) :=
  nodes_live_iff (storeOf 2 deepTree) deepTree 10 le_rfl deepTree_isBtree

/-- One key above two minimal leaves. -/
def minimalRoot : Tree 1 := ⟨1,[10],[⟨2,[5],[]⟩,⟨3,[20],[]⟩]⟩

theorem minimalRoot_isBtree : IsBtree (storeOf 2 minimalRoot) minimalRoot := by
  refine storeOf_isBtree (by decide) ⟨⟨fun _ => rfl,?_⟩,by decide,by decide⟩ (by decide) (by decide)
  simp [minimalRoot,Fits]

/-- The merge frees the root, and then a child pointer of the root is read. -/
theorem delete_uses_freed : IsBtree (storeOf 2 minimalRoot) minimalRoot ∧
    (inorder minimalRoot).Pairwise (· ≤ ·) ∧ ∃ (T' : Btree) (b : Bool) (es : List Access),
      Returns (fun f => Traced.btreeDelete f (storeOf 2 minimalRoot) 10) ((b,0),T',es) ∧
      ∃ e ∈ es, ¬ e.live = true := by
  obtain ⟨T',b,es,hlog,-,hes,-⟩ := delete_log_live 10 le_rfl minimalRoot_isBtree
  refine ⟨minimalRoot_isBtree,by decide,T',b,es,hlog,?_⟩
  by_contra hnone
  refine hes.mp (fun e he => ?_) ⟨rfl,by decide⟩
  by_contra hfreed
  exact hnone ⟨e,he,hfreed⟩

end ServerKit.BTree
