import Mathlib.Algebra.Order.BigOperators.Group.List
import Mathlib.Analysis.SpecialFunctions.Log.Base
import ServerKit.BTree.Emptied
import ServerKit.BTree.InBounds

/-! How high a B-tree is for the number of its keys, and how deep its recursions go. -/
namespace ServerKit.BTree
open ServerKit.Lib

/-- A leaf lies `d` edges below the node. -/
inductive LeafBelow (T : Btree) : Ptr → ℕ → Prop
  | leaf {p : Ptr} (hleaf : T.leaf p = true) : LeafBelow T p 0
  | child {p : Ptr} {i d : ℕ} (hleaf : T.leaf p = false) (hi : i ≤ T.num p)
      (hc : LeafBelow T (T.child p i) d) : LeafBelow T p (d+1)

section Count
variable {t h : ℕ}

theorem kids_mul_le {n : Tree (h+1)} {m : ℕ} (harity : n.kids.length = n.keys.length+1)
    (hkids : ∀ c ∈ n.kids, m ≤ (inorder c).length+1) :
    n.kids.length*m ≤ (inorder n).length+1 := by
  obtain ⟨p,ks,cs⟩ := n
  rw [inorder_mk, length_weave (by simpa using harity), List.map_map]
  have hsum := List.card_nsmul_le_sum (cs.map fun c => (inorder c).length+1) m (by simpa using hkids)
  rwa [List.length_map, smul_eq_mul] at hsum

/-- A subtree has at least as many keys as its degree and its height ask for. -/
theorem Fits.pow_le {c : Tree h} (ht : 1 ≤ t) (hc : Fits t (h+1) c) :
    t^(h+1) ≤ (inorder c).length+1 := by
  obtain ⟨⟨hmin,-⟩,hfit⟩ := fits_iff.mp hc
  induction h with
  | zero =>
    have hle : c.keys.length ≤ (inorder c).length := (sublist_weave _ _).length_le
    rw [zero_add, pow_one]
    omega
  | succ h ih =>
    have harity := hfit.arity (Nat.succ_ne_zero h)
    have hkids : ∀ d ∈ c.kids, t^(h+1) ≤ (inorder d).length+1 := fun d hd => by
      have hd := hfit.kids d hd
      exact ih hd (fits_iff.mp hd).2 (fits_iff.mp hd).1.1
    calc t^(h+1+1) = t*t^(h+1) := pow_succ' t (h+1)
      _ ≤ c.kids.length*t^(h+1) := Nat.mul_le_mul_right _ (by omega)
      _ ≤ (inorder c).length+1 := kids_mul_le harity hkids

/-- The keys of a tree that is not empty. -/
theorem ShapeValid.two_mul_pow_le {n : Tree h} (ht : 1 ≤ t) (hn : ShapeValid t n)
    (hne : inorder n ≠ []) : 2*t^h ≤ (inorder n).length+1 := by
  cases h with
  | zero =>
    have hpos := List.length_pos_iff.mpr hne
    rw [pow_zero]
    omega
  | succ h =>
    have harity := hn.arity (Nat.succ_ne_zero h)
    have hnum := hn.root_num (Nat.succ_ne_zero h)
    calc 2*t^(h+1) ≤ n.kids.length*t^(h+1) := Nat.mul_le_mul_right _ (by omega)
      _ ≤ (inorder n).length+1 := kids_mul_le harity fun c hc => (hn.kids c hc).pow_le ht

end Count

section Depth
variable {T : Btree} {h : ℕ} {n : Tree h}

/-- All leaves lie at the height of the tree. -/
theorem leafBelow_iff (hn : Rep T n) (hfit : FitsBelow T.t n) {d : ℕ} :
    LeafBelow T n.ptr d ↔ d = h := by
  induction h generalizing d with
  | zero =>
    have hleaf : T.leaf n.ptr = true := hn.cell.leaf
    constructor
    · intro hd
      cases hd with
      | leaf => rfl
      | child hinner => exact absurd (hleaf.symm.trans hinner) nofun
    · rintro rfl
      exact .leaf hleaf
  | succ h ih =>
    obtain ⟨p,ks,cs⟩ := n
    have hleaf : T.leaf p = false := hn.cell.leaf
    have hnum : T.num p = ks.length := hn.cell.num
    have harity : cs.length = ks.length+1 := hfit.arity (Nat.succ_ne_zero h)
    constructor
    · intro hd
      cases hd with
      | leaf h0 => exact absurd (h0.symm.trans hleaf) nofun
      | child _ hi hd =>
        obtain ⟨c,-,hc,hchild,hrep⟩ := hn.exists_child harity (hi.trans_eq hnum)
        rw [hchild] at hd
        exact congrArg Nat.succ ((ih hrep (fits_iff.mp (hfit.kids c hc)).2).mp hd)
    · rintro rfl
      obtain ⟨c,-,hc,hchild,hrep⟩ := hn.exists_child harity (Nat.zero_le _)
      refine .child hleaf (Nat.zero_le _) ?_
      rw [hchild]
      exact (ih hrep (fits_iff.mp (hfit.kids c hc)).2).mpr rfl

/-- An access that nothing is asked of. -/
theorem Traced.tolerates_true (t : ℕ) : Traced.Tolerates (fun _ => True) t := fun _ _ _ => trivial

theorem insertNonfull_depth (ht : 2 ≤ T.t) (hn : Rep T n) (hfit : FitsBelow T.t n)
    (hnum : n.keys.length < 2*T.t-1) (k : ℤ) :
    DepthAtMost (fun f => btreeInsertNonfull f T n.ptr k) h := by
  induction h generalizing T with
  | zero =>
    obtain ⟨T',hgives⟩ := insert_leaf (Traced.tolerates_true _) hn hnum k
    refine DepthAtMost.leaf (a := T') fun f => ?_
    rw [Traced.insertNonfull_succ, hgives.val, hgives.state]
    rfl
  | succ h ih =>
    obtain ⟨T₁,d,ht₁,hd,hdfit,hdnum,hgives⟩ := insert_level (Traced.tolerates_true _) ht hn hfit hnum k
    rw [← ht₁] at ht hdfit hdnum
    refine DepthAtMost.succ (fun f => ?_) (ih ht hd hdfit hdnum)
    rw [Traced.insertNonfull_succ, hgives.val, hgives.state]
    rfl

theorem insert_depth (ht : 2 ≤ T.t) (hT : IsBtree T n) (k : ℤ) :
    DepthAtMost (fun f => btreeInsert f T k) h := by
  obtain ⟨T₁,d,ht₁,hd,hfit,hnum,hgives⟩ := insert_root (Traced.tolerates_true _) ht hT k
  have hnull : T.root ≠ 0 := hT.root.trans_ne hT.rep.cell.ne_null
  rw [← ht₁] at ht hfit hnum
  refine DepthAtMost.congr (fun f => ?_) (insertNonfull_depth ht hd hfit hnum k)
  rw [Traced.insert_run hnull, hgives.val, hgives.state]

theorem deleteKey_depth (ht : 2 ≤ T.t) (hn : Rep T n) (hfit : FitsBelow T.t n)
    (hne : h ≠ 0 → n.keys ≠ []) (k : ℤ) : DepthAtMost (fun f => btreeDeleteKey f T n.ptr k) h := by
  induction h generalizing T k with
  | zero =>
    obtain ⟨T',b,hgives⟩ := delete_leaf (Traced.tolerates_true _) ht hn k
    refine DepthAtMost.leaf (a := (T',b)) fun f => ?_
    rw [Traced.deleteKey_succ, hgives.val, hgives.state]
    rfl
  | succ h ih =>
    obtain ⟨b,c,j,hd⟩ := exists_descent ht hfit (hne (Nat.succ_ne_zero h)) k
    obtain ⟨T₁,i,hi,ht₁,hc,hgives⟩ := hd.follows (Traced.tolerates_true _) ht hn hfit
    obtain ⟨hcfit,hcnum⟩ := hd.fits (by omega) hfit
    have hcne : c.keys ≠ [] := List.ne_nil_of_length_pos (by omega)
    rw [← ht₁] at ht hcfit
    refine DepthAtMost.succ (fun f => ?_) (ih ht hc (fits_iff.mp hcfit).2 (fun _ => hcne) j)
    rw [Traced.deleteKey_succ, hgives.val, hgives.state]
    rfl

theorem delete_depth (ht : 2 ≤ T.t) (hT : IsBtree T n) (k : ℤ) :
    DepthAtMost (fun f => btreeDelete f T k) h := by
  have hnull : T.root ≠ 0 := hT.root.trans_ne hT.rep.cell.ne_null
  have hdepth := deleteKey_depth ht hT.rep hT.shape.toFitsBelow
    (fun h0 => List.ne_nil_of_length_pos (hT.shape.root_num h0)) k
  refine DepthAtMost.congr (fun f => ?_) (hdepth.map fun r => (r.1,r.2,(0 : ℤ)))
  rw [btreeDelete, if_neg hnull, hT.root]

/-- One call of `btree_traverse`, which prints `xs` below the node. -/
theorem btreeTraverse_node {p : Ptr} {b : Bool} {ks : List ℤ} {cs : List Ptr} {xs : List (List ℤ)} {f : ℕ}
    (hp : Cell T p b ks cs) (hlen : xs.length ≤ ks.length+1)
    (hbelow : ∀ i ≤ ks.length, (if T.leaf p then some [] else btreeTraverse f T (T.child p i)) =
      some (xs.getD i [])) :
    btreeTraverse (f+1) T p = some (weave xs ks) := by
  have hweave := emitUp_weave (fun i => if T.leaf p then some [] else btreeTraverse f T (T.child p i))
    (T.key p) 0 hlen (fun i hi => by rw [zero_add]; exact hbelow i hi)
    (fun i hi => by rw [zero_add]; exact hp.key_getElem hi)
  rw [zero_add] at hweave
  rw [btreeTraverse, hp.num]
  exact hweave

/-- `btree_traverse` prints the keys in order. -/
theorem btreeTraverse_spec (hn : Rep T n) (hfit : FitsBelow T.t n) {f : ℕ} (hf : h < f) :
    btreeTraverse f T n.ptr = some (inorder n) := by
  obtain _ | f := f
  · exact absurd hf (Nat.not_lt_zero h)
  induction h generalizing f with
  | zero =>
    obtain ⟨p,ks,cs⟩ := n
    obtain rfl : cs = [] := kids_eq_nil ⟨p,ks,cs⟩
    exact btreeTraverse_node hn.cell (Nat.zero_le _) fun i _ => if_pos hn.cell.leaf
  | succ h ih =>
    obtain ⟨p,ks,cs⟩ := n
    have harity : cs.length = ks.length+1 := hfit.arity (Nat.succ_ne_zero h)
    have hleaf : ¬ T.leaf p = true := by simp [show T.leaf p = false from hn.cell.leaf]
    refine btreeTraverse_node hn.cell (by simp [harity]) fun i hi => ?_
    obtain ⟨c,hget,hc,hchild,hrep⟩ := hn.exists_child harity hi
    obtain _ | f := f
    · exact absurd (Nat.lt_of_succ_lt_succ hf) (Nat.not_lt_zero h)
    rw [if_neg hleaf, hchild, ih hrep (fits_iff.mp (hfit.kids c hc)).2 f (Nat.lt_of_succ_lt_succ hf),
      List.getD_eq_getElem?_getD, List.getElem?_map, hget]
    rfl

/-- One call of `btree_print`. -/
theorem print_node {p : Ptr} {layer d : ℕ} (hp : p ≠ 0)
    (hbelow : ∀ i, ∃ out, ∀ f, d ≤ f → i ≤ T.num p →
      (if T.child p i ≠ 0 then btreePrint f T (T.child p i) (layer+1) else some []) = some out) :
    DepthAtMost (fun f => btreePrint f T p layer) d := by
  choose out hout using hbelow
  refine ⟨.node layer (T.num p) (T.leaf p) ((List.range (T.num p)).map (T.key p)) ::
    (List.range' 0 (T.num p+1)).flatMap out,fun f hf => ?_⟩
  obtain _ | f := f
  · exact absurd hf (Nat.not_lt_zero d)
  change btreePrint (f+1) T p layer = _
  rw [btreePrint, if_pos hp, emitUp_some fun i _ hi => hout i f (Nat.le_of_lt_succ hf) (by omega)]
  rfl

theorem print_depth (hn : Rep T n) (hfit : FitsBelow T.t n) (layer : ℕ) :
    DepthAtMost (fun f => btreePrint f T n.ptr layer) h := by
  induction h generalizing layer with
  | zero =>
    obtain ⟨p,ks,cs⟩ := n
    refine print_node hn.cell.ne_null fun i => ⟨[],fun f _ _ => if_neg ?_⟩
    exact not_not.mpr (hn.cell.holds.null i)
  | succ h ih =>
    obtain ⟨p,ks,cs⟩ := n
    have harity : cs.length = ks.length+1 := hfit.arity (Nat.succ_ne_zero h)
    refine print_node hn.cell.ne_null fun i => ?_
    by_cases hi : i ≤ ks.length
    · obtain ⟨c,-,hc,hchild,hrep⟩ := hn.exists_child harity hi
      obtain ⟨out,hout⟩ := ih hrep (fits_iff.mp (hfit.kids c hc)).2 (layer+1)
      refine ⟨out,fun f hf _ => ?_⟩
      rw [hchild, if_pos hrep.cell.ne_null]
      exact hout f hf
    · exact ⟨[],fun f _ hle => absurd (hle.trans_eq hn.cell.num) hi⟩

end Depth
/-- After any calls that all return, a tree that is not empty has its leaves at one depth `h` with
`2*t^h - 1` or more keys, and no recursion goes deeper than that. -/
theorem btree_height (T : Btree) {t : ℕ} (ht : 2 ≤ t) (hnext : 0 < T.next) {calls : List Call}
    {T' : Btree} (hrun : Run CallStep (btreeCreate T t) calls T') :
    ∃ L, HoldsKeys T' L ∧ (L ≠ [] → ∃ h : ℕ, (∀ d, LeafBelow T' T'.root d ↔ d = h) ∧
      2*t^h ≤ L.length+1 ∧ (h : ℝ) ≤ Real.logb t ((L.length+1)/2) ∧
      ∀ k, DepthAtMost (fun f => btreeInsert f T' k) h ∧
        DepthAtMost (fun f => btreeDelete f T' k) h ∧
        DepthAtMost (fun f => btreeTraverse f T' T'.root) h ∧
        ∀ layer, DepthAtMost (fun f => btreePrint f T' T'.root layer) h) := by
  obtain ⟨rfl,hnull | ⟨h,n,hn⟩⟩ := run_usable T ht hnext hrun
  · exact ⟨[],.null hnull,fun hne => absurd rfl hne⟩
  have hfit := hn.shape.toFitsBelow
  refine ⟨inorder n,.tree hn,fun hne => ⟨h,fun d => ?_,?_,?_,fun k => ⟨?_,?_,?_,fun layer => ?_⟩⟩⟩
  · rw [hn.root]
    exact leafBelow_iff hn.rep hfit
  · exact hn.shape.two_mul_pow_le (by omega) hne
  · have hle := hn.shape.two_mul_pow_le (by omega) hne
    have hpow : (T'.t : ℝ)^h ≤ ((inorder n).length+1)/2 := by
      rw [le_div_iff₀ two_pos, mul_comm]
      exact_mod_cast hle
    rw [← Real.rpow_natCast] at hpow
    exact (Real.le_logb_iff_rpow_le (by exact_mod_cast ht) (by positivity)).mpr hpow
  · exact insert_depth ht hn k
  · exact delete_depth ht hn k
  · rw [hn.root]
    exact ⟨inorder n,fun f hf => btreeTraverse_spec hn.rep hfit hf⟩
  · rw [hn.root]
    exact print_depth hn.rep hfit layer

/-- A leaf below the root after six insertions: three keys are all that a root without children has. -/
theorem exists_sixKeys : ∃ T', Run CallStep (btreeCreate emptyStore 2)
    [.insert 3,.insert 1,.insert 6,.insert 2,.insert 5,.insert 4] T' ∧ HoldsKeys T' [1,2,3,4,5,6] ∧
    ¬ LeafBelow T' T'.root 0 := by
  obtain ⟨T₁,hstep₁,hT₁⟩ := emptyStore_holdsSorted.insert le_rfl 3
  obtain ⟨T₂,hstep₂,hT₂⟩ := hT₁.insert le_rfl 1
  obtain ⟨T₃,hstep₃,hT₃⟩ := hT₂.insert le_rfl 6
  obtain ⟨T₄,hstep₄,hT₄⟩ := hT₃.insert le_rfl 2
  obtain ⟨T₅,hstep₅,hT₅⟩ := hT₄.insert le_rfl 5
  obtain ⟨T₆,hstep₆,hT₆⟩ := hT₅.insert le_rfl 4
  refine ⟨T₆,(((((Run.nil.snoc hstep₁).snoc hstep₂).snoc hstep₃).snoc hstep₄).snoc hstep₅).snoc hstep₆,
    hT₆.holdsKeys,fun hleaf => ?_⟩
  obtain ⟨ht,h,n,hn,-,hkeys⟩ := hT₆
  rw [hn.root, leafBelow_iff hn.rep hn.shape.toFitsBelow] at hleaf
  subst hleaf
  have hnum := hn.shape.num_le
  rw [ht] at hnum
  obtain ⟨p,ks,cs⟩ := n
  obtain rfl : cs = [] := kids_eq_nil ⟨p,ks,cs⟩
  have hks : weave [] ks = [1,2,3,4,5,6] := hkeys
  have hlen : ks.length = 6 := by simpa using congrArg List.length hks
  exact absurd hnum (by simp [hlen])

theorem btree_height_six : ∃ T', Run CallStep (btreeCreate emptyStore 2)
    [.insert 3,.insert 1,.insert 6,.insert 2,.insert 5,.insert 4] T' ∧ HoldsKeys T' [1,2,3,4,5,6] ∧
    (∀ d, LeafBelow T' T'.root d ↔ d = 1) ∧
    ∀ k, DepthAtMost (fun f => btreeInsert f T' k) 1 ∧ DepthAtMost (fun f => btreeDelete f T' k) 1 := by
  obtain ⟨T',hrun,hkeys,hroot⟩ := exists_sixKeys
  obtain ⟨L,hL,hheight⟩ := btree_height emptyStore le_rfl (by decide) hrun
  obtain rfl := hL.unique hkeys
  obtain ⟨h,hleaf,hpow,-,hdepth⟩ := hheight (List.cons_ne_nil 1 _)
  have hpos : h ≠ 0 := fun h0 => hroot ((hleaf 0).mpr h0.symm)
  have hle : h < 2 := by
    by_contra hge
    have h4 : 2^2 ≤ 2^h := Nat.pow_le_pow_right zero_lt_two (not_lt.mp hge)
    simp at hpow
    omega
  obtain rfl : h = 1 := by omega
  exact ⟨T',hrun,hkeys,hleaf,fun k => ⟨(hdepth k).1,(hdepth k).2.1⟩⟩

end ServerKit.BTree
