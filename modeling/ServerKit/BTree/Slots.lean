import ServerKit.BTree.Emptied
import ServerKit.BTree.Lifetimes

/-! What the child slots hold: nothing in a leaf, and distinct nodes in the others. Stale pointers stay
behind the last child, where no code looks. -/
namespace ServerKit.BTree
open ServerKit.Lib

/-- The child slots of a linked node. -/
structure Slots (T : Btree) (p : Ptr) : Prop where
  size : (T.node p).childrens.length = 2*T.t
  num_lt : T.num p < 2*T.t
  null : T.leaf p = true → ∀ i < 2*T.t, T.child p i = 0
  ne_null : T.leaf p = false → ∀ i ≤ T.num p, T.child p i ≠ 0
  distinct : T.leaf p = false → ∀ i ≤ T.num p, ∀ j ≤ T.num p, T.child p i = T.child p j → i = j

/-- Up to the last child a NULL pointer means a leaf. -/
theorem Slots.null_iff {T : Btree} {p : Ptr} (h : Slots T p) {i : ℕ} (hi : i ≤ T.num p) :
    T.child p i = 0 ↔ T.leaf p = true := by
  constructor
  · intro h0
    by_contra hinner
    exact h.ne_null (Bool.eq_false_iff.mpr hinner) i hi h0
  · intro hleaf
    exact h.null hleaf i (hi.trans_lt h.num_lt)

section Nodes
variable {T : Btree} {h : ℕ} {n : Tree h}

/-- The roots of the subtrees are among their nodes. -/
theorem sublist_flatMap_ptrs (cs : List (Tree h)) : (cs.map Page.ptr).Sublist (cs.flatMap ptrs) := by
  induction cs with
  | nil => exact List.Sublist.refl []
  | cons c cs ih =>
    rw [List.map_cons, List.flatMap_cons]
    exact (ih.trans (List.sublist_append_right _ _)).cons_cons c.ptr

/-- The root of a tree that the store holds. -/
theorem Rep.slots (ht : 1 ≤ T.t) (hn : Rep T n) (hfit : FitsBelow T.t n) : Slots T n.ptr := by
  have hle := hn.cell.holds.length_le
  have hnum : T.num n.ptr = n.keys.length := hn.cell.num
  have hsize := hn.cell.holds.childrens_size
  cases h with
  | zero =>
    have hleaf : T.leaf n.ptr = true := hn.cell.leaf
    have hinner : T.leaf n.ptr ≠ false := by simp [hleaf]
    exact ⟨hsize,by omega,fun _ i _ => hn.cell.holds.null i,fun hf => absurd hf hinner,
      fun hf => absurd hf hinner⟩
  | succ h =>
    obtain ⟨p,ks,cs⟩ := n
    have harity : cs.length = ks.length+1 := hfit.arity (Nat.succ_ne_zero h)
    have hinner : T.leaf p = false := hn.cell.leaf
    have hnodup : (cs.map Page.ptr).Nodup :=
      (List.nodup_cons.mp hn.nodup).2.sublist (sublist_flatMap_ptrs cs)
    have hslot : ∀ i ≤ T.num p, (cs.map Page.ptr)[i]? = some (T.child p i) ∧ T.child p i ≠ 0 := by
      intro i hi
      obtain ⟨c,hget,-,hchild,hc⟩ := hn.exists_child harity (hi.trans_eq hnum)
      rw [hchild, List.getElem?_map, hget]
      exact ⟨rfl,hc.cell.ne_null⟩
    refine ⟨hsize,by omega,fun hf => ?_,fun _ i hi => (hslot i hi).2,fun _ i hi j hj heq => ?_⟩
    · rw [hinner] at hf
      cases hf
    · have hlt : i < (cs.map Page.ptr).length := by
        rw [List.length_map, harity]
        exact Nat.lt_succ_of_le (hi.trans_eq hnum)
      apply (List.getElem?_inj hlt hnodup).mp
      rw [(hslot i hi).1, (hslot j hj).1, heq]

end Nodes

/-- The calls of `btree_delete_key` that `btree_delete` makes, each one with the store that it finds. -/
inductive DeleteCall (T : Btree) (k : ℤ) : Btree → Ptr → ℤ → Prop
  | first (h0 : T.root ≠ 0) : DeleteCall T k T T.root k
  | next {T₁ : Btree} {p q : Ptr} {j l : ℤ} (hp : DeleteCall T k T₁ p j)
      (hq : (Traced.btreeDeleteKey (p,j)).val T₁ = .inl (q,l)) :
      DeleteCall T k ((Traced.btreeDeleteKey (p,j)).state T₁) q l

/-- A node that a deletion may be called for: it is the root of a tree with a key above the leaves. -/
def Deletable (t : ℕ) (T : Btree) (p : Ptr) : Prop :=
  T.t = t ∧ ∃ (h : ℕ) (n : Tree h), n.ptr = p ∧ Rep T n ∧ FitsBelow t n ∧ (h ≠ 0 → n.keys ≠ [])

section Calls
variable {t : ℕ} {T T₁ : Btree} {k j : ℤ} {p : Ptr}

/-- A level of the deletion calls the next one for a node of the same kind. -/
theorem Deletable.next (ht : 2 ≤ t) (hp : Deletable t T p) {q : Ptr} {l : ℤ}
    (hq : (Traced.btreeDeleteKey (p,j)).val T = .inl (q,l)) :
    Deletable t ((Traced.btreeDeleteKey (p,j)).state T) q := by
  obtain ⟨rfl,h,n,rfl,hn,hfit,hne⟩ := hp
  cases h with
  | zero =>
    obtain ⟨T',b,hgives⟩ := delete_leaf (Traced.tolerates_live T.t) ht hn j
    rw [hgives.val] at hq
    cases hq
  | succ h =>
    obtain ⟨b,c,l',hd⟩ := exists_descent ht hfit (hne (Nat.succ_ne_zero h)) j
    obtain ⟨T',i,-,ht',hc,hgives⟩ := hd.follows (Traced.tolerates_live T.t) ht hn hfit
    obtain ⟨hcfit,hcnum⟩ := hd.fits (by omega) hfit
    rw [hgives.val] at hq
    obtain ⟨rfl,rfl⟩ := Prod.mk.inj (Sum.inl.inj hq)
    rw [hgives.state]
    refine ⟨ht',h,c,rfl,hc,(fits_iff.mp hcfit).2,fun _ => ?_⟩
    exact List.ne_nil_of_length_pos (by omega)

theorem DeleteCall.deletable (ht : 2 ≤ T.t) {h : ℕ} {n : Tree h} (hT : IsBtree T n)
    (hp : DeleteCall T k T₁ p j) : Deletable T.t T₁ p := by
  induction hp with
  | first h0 =>
    refine ⟨rfl,h,n,hT.root.symm,hT.rep,hT.shape.toFitsBelow,fun hpos => ?_⟩
    exact List.ne_nil_of_length_pos (hT.shape.root_num hpos)
  | next _ hq ih => exact ih.next ht hq

theorem Deletable.slots (ht : 2 ≤ t) (hp : Deletable t T p) : Slots T p := by
  obtain ⟨rfl,h,n,rfl,hn,hfit,-⟩ := hp
  exact hn.slots (by omega) hfit

end Calls

section Runs
variable {T : Btree}

/-- After any calls that all return, every linked leaf has nothing but NULL in its child slots, and
every other linked node has distinct nodes in those up to its last child. So a deletion, whatever it
has changed on its way, finds a NULL child exactly in a leaf. -/
theorem children_slots (T : Btree) {t : ℕ} (ht : 2 ≤ t) (hnext : 0 < T.next) {calls : List Call}
    {T' : Btree} (hrun : Run CallStep (btreeCreate T t) calls T') :
    T'.t = t ∧ (∀ p, Reachable T' p → Slots T' p) ∧
      ∀ k T₁ p j, DeleteCall T' k T₁ p j →
        (T₁.child p (scanUp (fun i => j > T₁.key p i) 0 (T₁.num p)) = 0 ↔ T₁.leaf p = true) := by
  obtain ⟨rfl,hnull | ⟨h,n,hn⟩⟩ := run_usable T ht hnext hrun
  · refine ⟨rfl,fun p hp => absurd hp (not_reachable_null hnull),fun k T₁ p j hp => ?_⟩
    exfalso
    induction hp with
    | first h0 => exact h0 hnull
    | next _ _ ih => exact ih
  · refine ⟨rfl,fun p hp => ?_,fun k T₁ p j hp => ?_⟩
    · obtain ⟨h',m,rfl,-,hm,hfit⟩ := hn.rep.exists_subtree hn.shape.toFitsBelow (hp.mem_ptrs hn)
      exact hm.slots (by omega) hfit
    · obtain ⟨-,hle,-⟩ := scanUp_spec (fun i => j > T₁.key p i) 0 (T₁.num p)
      exact ((hp.deletable ht hn).slots ht).null_iff (hle.trans_eq (Nat.zero_add _))

/-- Three keys fill the first leaf, and the fourth one splits it. -/
theorem children_slots_four : ∃ T', Run CallStep (btreeCreate emptyStore 2)
    [.insert 1,.insert 2,.insert 3,.insert 4] T' ∧ HoldsKeys T' [1,2,3,4] ∧
      (∀ p, Reachable T' p → Slots T' p) ∧ ∀ T₁ p j, DeleteCall T' 9 T₁ p j →
        (T₁.child p (scanUp (fun i => j > T₁.key p i) 0 (T₁.num p)) = 0 ↔ T₁.leaf p = true) := by
  obtain ⟨T₁,hstep₁,hT₁⟩ := emptyStore_holdsSorted.insert le_rfl 1
  obtain ⟨T₂,hstep₂,hT₂⟩ := hT₁.insert le_rfl 2
  obtain ⟨T₃,hstep₃,hT₃⟩ := hT₂.insert le_rfl 3
  obtain ⟨T₄,hstep₄,hT₄⟩ := hT₃.insert le_rfl 4
  have hrun : Run CallStep (btreeCreate emptyStore 2) [.insert 1,.insert 2,.insert 3,.insert 4] T₄ :=
    (((Run.nil.snoc hstep₁).snoc hstep₂).snoc hstep₃).snoc hstep₄
  obtain ⟨-,hslots,htest⟩ := children_slots emptyStore le_rfl (by decide) hrun
  exact ⟨T₄,hrun,hT₄.holdsKeys,hslots,htest 9⟩

end Runs
end ServerKit.BTree
