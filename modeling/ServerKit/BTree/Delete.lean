import ServerKit.BTree.Insert
import ServerKit.BTree.Order
import ServerKit.BTree.Refill

/-! `btree_delete` on the store follows the rules for trees. -/
namespace ServerKit.BTree
open Function ServerKit.Lib Btree

/-- What takes the place of a root that has lost its last key. -/
def Collapsed (T : Btree) : {h : ℕ} → Tree h → Prop
  | 0,_ => T.root = 0
  | _+1,n => ∃ m, n.kids = [m] ∧ T.root = m.ptr ∧ Rep T m

/-- How the store gets from `n` to `n'`: in place, or by losing the last key of the root. -/
inductive Outcome {h : ℕ} (T T' : Btree) (n n' : Tree h) : Prop
  | kept (num : n'.keys = [] → n.keys = []) (root : T'.root = T.root) (rep : Rep T' n')
      (step : Step T T' (ptrs n) (ptrs n'))
  | collapsed (num : n.keys.length = 1) (keys : n'.keys = []) (collapsed : Collapsed T' n')

section Search
variable {T T₁ T' : Btree} {h : ℕ}

theorem Outcome.of_num {n n' : Tree h} (ho : Outcome T T' n n') (hn : n.keys.length ≠ 1) :
    T'.root = T.root ∧ Rep T' n' ∧ Step T T' (ptrs n) (ptrs n') := by
  cases ho with
  | kept num root rep step => exact ⟨root,rep,step⟩
  | collapsed num => exact absurd num hn

/-- The subtree that the search went on in is put back. -/
theorem Entered.leave {n : Tree (h+1)} {s : Spot h} {c : Tree h} (hs : Entered T T₁ n s)
    (hc : Rep T' c) (hptr : c.ptr = s.kid.ptr) (hstep : Step T₁ T' (ptrs s.kid) (ptrs c))
    (hroot : T'.root = T₁.root) : Outcome T T' n ({ s with kid := c }.page n.ptr) := by
  cases hs with
  | kept num root rep step =>
    obtain ⟨hrep,hstep'⟩ := rep.descend hstep hc hptr
    exact .kept (fun hnil => absurd hnil num) (hroot.trans root) hrep (step.trans hstep')
  | collapsed num keysL kidsL keysR kidsR root rep =>
    refine .collapsed num (by simp [Spot.page,keysL,keysR]) ⟨c,by simp [Spot.page,kidsL,kidsR],?_,hc⟩
    rw [hroot, root, hptr]

/-- Where the scan of `btree_delete_key` stops. -/
theorem scan_less {p : Ptr} {b : Bool} {ks : List ℤ} {cs : List Ptr} (k : ℤ) (hp : Cell T p b ks cs) :
    ∃ A B, ks = A ++ B ∧ scanUp (fun i => k > T.key p i) 0 (T.num p) = A.length ∧
      (∀ a ∈ A, a < k) ∧ ∀ b ∈ B.head?, k ≤ b := by
  obtain ⟨pad,hpad⟩ := hp.holds.keys
  obtain ⟨A,B,hks,hscan,hA,hB⟩ := scanUp_split (p := fun i => decide (k > T.key p i))
    (q := fun x => decide (k > x)) 0 [] ks pad (fun i => by rw [key, ← hpad]; rfl)
  refine ⟨A,B,hks,?_,fun a ha => by simpa using hA a ha,fun b hb => by simpa using hB b hb⟩
  rw [hp.num]
  simpa using hscan

/-- A separator is overwritten. -/
theorem Rep.setKey {p : Ptr} {A B : List ℤ} {k : ℤ} {cs : List (Kid h)}
    (hn : Rep T (⟨p,A ++ k :: B,cs⟩ : Tree h)) (s : ℤ) :
    Rep (T.setKey p A.length s) (⟨p,A ++ s :: B,cs⟩ : Tree h) ∧
      Step T (T.setKey p A.length s) (ptrs (⟨p,A ++ k :: B,cs⟩ : Tree h))
        (ptrs (⟨p,A ++ s :: B,cs⟩ : Tree h)) := by
  have hnode : ∀ q, q ≠ p → Agree T (T.setKey p A.length s) q := fun q hq => ⟨modify_node_ne hq,rfl⟩
  have hp : p ∉ cs.flatMap (kidPtrs h) := (List.nodup_cons.mp hn.nodup).1
  refine ⟨⟨⟨hn.cell.ne_null,hn.cell.live,hn.cell.lt_next,?_⟩,fun c hc => ?_,hn.nodup⟩,?_⟩
  · have hholds := hn.cell.holds.setKey s
    change NodeHolds T.t ((T.setKey p A.length s).node p) _ _ _
    rwa [Btree.setKey, modify_node_self]
  · refine (hn.kids c hc).frame rfl le_rfl fun q hq => hnode q ?_
    rintro rfl
    exact hp (List.mem_flatMap_of_mem hc hq)
  · refine ⟨rfl,le_rfl,fun q hq hout => hnode q ?_,fun q => .inl⟩
    rintro rfl
    exact hout List.mem_cons_self

theorem head_cases {B : List ℤ} {k : ℤ} (hB : ∀ b ∈ B.head?, k ≤ b) :
    (∃ B', B = k :: B') ∨ ∀ b ∈ B.head?, k < b := by
  obtain _ | ⟨b,B⟩ := B
  · exact .inr (by simp)
  · obtain rfl | hlt := (hB b rfl).eq_or_lt
    · exact .inl ⟨B,rfl⟩
    · exact .inr (by simpa using hlt)

section Found
variable {p : Ptr} {b : Bool} {A B : List ℤ} {cs : List Ptr} {k : ℤ}

theorem Cell.found (hp : Cell T p b (A ++ k :: B) cs) :
    A.length < T.num p ∧ k = T.key p A.length := by
  refine ⟨?_,hp.key.symm⟩
  rw [hp.num, List.length_append, List.length_cons]
  omega

theorem Cell.not_found (hp : Cell T p b (A ++ B) cs) (hB : ∀ b ∈ B.head?, k < b) :
    ¬ (A.length < T.num p ∧ k = T.key p A.length) := by
  rintro ⟨hlt,hk⟩
  obtain _ | ⟨b,B⟩ := B
  · rw [hp.num, List.append_nil] at hlt
    exact lt_irrefl _ hlt
  · rw [hp.key] at hk
    exact (hB b rfl).ne hk

end Found

/-- What `btree_delete_key` guarantees for nodes of height `h`. -/
def DeleteSpec (h : ℕ) : Prop :=
  ∀ (T : Btree) (n : Tree h) (k : ℤ), 2 ≤ T.t → Rep T n → FitsBelow T.t n → (h ≠ 0 → n.keys ≠ []) →
    ∃ T' n' b, Returns (fun f => btreeDeleteKey f T n.ptr k) (T',b) ∧ T'.t = T.t ∧ Del T.t n k n' b ∧
      n'.ptr = n.ptr ∧ Outcome T T' n n'

theorem deleteLeaf_spec : DeleteSpec 0 := by
  rintro T ⟨p,ks,cs⟩ k ht hn hfit -
  obtain rfl : cs = [] := kids_eq_nil ⟨p,ks,cs⟩
  have hcell : Cell T p true ks [] := hn.cell
  obtain ⟨A,B,rfl,hscan,hA,hB⟩ := scan_less k hcell
  have hunfold : ∀ f, btreeDeleteKey (f+1) T p k =
      if A.length < T.num p ∧ k = T.key p A.length then some (removeFromLeaf T p A.length,false)
      else some (T,true) := by
    intro f
    have hnull : T.child p A.length = 0 := hcell.holds.null _
    rw [btreeDeleteKey, if_neg hcell.ne_null]
    simp only [hscan, hcell.leaf, hnull, if_true]
  obtain ⟨B,rfl⟩ | hB := head_cases hB
  · have hret : Returns (fun f => btreeDeleteKey f T p k) (removeFromLeaf T p A.length,false) :=
      Returns.succ (fun f => (hunfold f).trans (if_pos hcell.found)) (Returns.const _)
    have hnum : T.num p = A.length+B.length+1 := by
      rw [hcell.num, List.length_append, List.length_cons]
      omega
    refine ⟨_,⟨p,A ++ B,[]⟩,false,hret,?_,.leafHit hA,rfl,?_⟩
    · rw [removeFromLeaf_eq]
      dsimp only
      split <;> rfl
    · rw [removeFromLeaf_eq]
      dsimp only
      split
      · next hzero =>
        have hA : A = [] := List.eq_nil_of_length_eq_zero (by omega)
        have hB : B = [] := List.eq_nil_of_length_eq_zero (by omega)
        exact .collapsed (by simp [hA,hB]) (by simp [hA,hB]) rfl
      · next hpos =>
        refine .kept (fun hnil => ?_) rfl ⟨⟨hcell.ne_null,hcell.live,hcell.lt_next,?_⟩,by simp,hn.nodup⟩ ?_
        · have hlen : (A ++ B).length = 0 := by rw [show A ++ B = [] from hnil, List.length_nil]
          rw [List.length_append] at hlen
          omega
        · change NodeHolds T.t ((T.modify p (BtreeNode.removeKey A.length)).node p) true (A ++ B) []
          rw [modify_node_self]
          exact hcell.holds.removeKey
        · refine ⟨rfl,le_rfl,fun q hq hout => ⟨modify_node_ne ?_,rfl⟩,fun q => .inl⟩
          rintro rfl
          exact hout List.mem_cons_self
  · have hret : Returns (fun f => btreeDeleteKey f T p k) (T,true) :=
      Returns.succ (fun f => (hunfold f).trans (if_neg (hcell.not_found hB))) (Returns.const _)
    exact ⟨T,_,true,hret,rfl,.leafMiss hA hB,rfl,.kept id rfl hn (Step.refl T _)⟩

end Search

section Inner
variable {T : Btree} {h : ℕ} {p : Ptr} {A B : List ℤ} {P S : List (Tree h)} {c L R : Tree h} {k : ℤ}

/-- After a separator has been overwritten, the copied key is deleted from a child of `t` or more
keys. -/
theorem delete_copied (spec : DeleteSpec h) (ht : 2 ≤ T.t)
    (hn : Rep T (⟨p,A ++ k :: B,P ++ c :: S⟩ : Tree (h+1))) (hc : FitsBelow T.t c)
    (hnum : T.t ≤ c.keys.length) (s : ℤ) :
    ∃ T' c' b, Returns (fun f => btreeDeleteKey f (T.setKey p A.length s) c.ptr s) (T',b) ∧
      T'.t = T.t ∧ Del T.t c s c' b ∧ Outcome T T' (⟨p,A ++ k :: B,P ++ c :: S⟩ : Tree (h+1))
        ⟨p,A ++ s :: B,P ++ c' :: S⟩ := by
  obtain ⟨hn₁,hstep₁⟩ := hn.setKey s
  have hne : c.keys ≠ [] := List.ne_nil_of_length_pos (by omega)
  obtain ⟨T',c',b,hret,ht',hdel,hptr,hout⟩ := spec (T.setKey p A.length s) c s ht hn₁.kid hc fun _ => hne
  obtain ⟨hroot,hc',hstep⟩ := hout.of_num (by omega)
  obtain ⟨hrep,hstep'⟩ := hn₁.descend hstep hc' hptr
  exact ⟨T',c',b,hret,ht',hdel,.kept (by simp) hroot hrep (hstep₁.trans hstep')⟩

theorem Entered.rep {T₁ : Btree} {n : Tree (h+1)} {s : Spot h} (hs : Entered T T₁ n s) :
    Rep T₁ s.kid := by
  cases hs with
  | kept num root rep step => exact rep.kid
  | collapsed num keysL kidsL keysR kidsR root rep => exact rep

/-- The search goes on in a child of `t` or more keys. -/
theorem delete_entered (spec : DeleteSpec h) (ht : 2 ≤ T.t) {T₁ : Btree} {n : Tree (h+1)} {s : Spot h}
    (ht₁ : T₁.t = T.t) (hs : Entered T T₁ n s) (hc : FitsBelow T.t s.kid)
    (hnum : T.t ≤ s.kid.keys.length) (k : ℤ) :
    ∃ T' c' b, Returns (fun f => btreeDeleteKey f T₁ s.kid.ptr k) (T',b) ∧ T'.t = T.t ∧
      Del T.t s.kid k c' b ∧ Outcome T T' n ({ s with kid := c' }.page n.ptr) := by
  rw [← ht₁] at hc hnum ht
  have hne : s.kid.keys ≠ [] := List.ne_nil_of_length_pos (by omega)
  obtain ⟨T',c',b,hret,ht',hdel,hptr,hout⟩ := spec T₁ s.kid k ht hs.rep hc fun _ => hne
  obtain ⟨hroot,hc',hstep⟩ := hout.of_num (by omega)
  rw [ht₁] at hdel
  exact ⟨T',c',b,hret,ht'.trans ht₁,hdel,hs.leave hc' hptr hstep hroot⟩

/-- The key is found above the leaves. -/
theorem deleteFound_spec (spec : DeleteSpec h) (ht : 2 ≤ T.t)
    (hn : Rep T (⟨p,A ++ k :: B,P ++ L :: R :: S⟩ : Tree (h+1)))
    (hfit : FitsBelow T.t (⟨p,A ++ k :: B,P ++ L :: R :: S⟩ : Tree (h+1))) (hP : P.length = A.length)
    (hS : S.length = B.length)
    (hscan : scanUp (fun i => k > T.key p i) 0 (T.num p) = A.length) (hA : ∀ a ∈ A, a < k) :
    ∃ (T' : Btree) (n' : Tree (h+1)) (b : Bool), Returns (fun f => btreeDeleteKey f T p k) (T',b) ∧
      T'.t = T.t ∧
      Del T.t (⟨p,A ++ k :: B,P ++ L :: R :: S⟩ : Tree (h+1)) k n' b ∧ n'.ptr = p ∧
      Outcome T T' (⟨p,A ++ k :: B,P ++ L :: R :: S⟩ : Tree (h+1)) n' := by
  have hn₂ : Rep T (⟨p,A ++ k :: B,(P ++ [L]) ++ R :: S⟩ : Tree (h+1)) := by simpa using hn
  have hn' : Rep T (⟨p,A ++ k :: B,P ++ [L,R] ++ S⟩ : Tree (h+1)) := by simpa using hn
  obtain ⟨hpL,hpR,-⟩ := hn'.distinct
  obtain ⟨-,hLfit,-,hSfit⟩ := (fitsBelow_focus hP).mp hfit
  obtain ⟨hLnum,hLb⟩ := fits_iff.mp hLfit
  obtain ⟨hRnum,hRb⟩ := fits_iff.mp (hSfit R List.mem_cons_self)
  have hfound := hn.cell.found
  have hleaf : T.leaf p = false := hn.cell.leaf
  have hleft : T.child p A.length = L.ptr := hP ▸ hn.child
  have hright : T.child p (A.length+1) = R.ptr := by
    have hchild := hn₂.child
    rwa [List.length_append, List.length_singleton, hP] at hchild
  have hnumL : T.num L.ptr = L.keys.length := hn.kid.cell.num
  have hnumR : T.num R.ptr = R.keys.length := hn₂.kid.cell.num
  by_cases hL : T.t ≤ L.keys.length
  · obtain hnil | ⟨lk,s,hlk⟩ := L.keys.eq_nil_or_concat'
    · simp [hnil] at hL
      omega
    · have hs : T.key L.ptr (L.keys.length-1) = s := by
        have hcell := hn.kid.cell
        rw [hlk] at hcell ⊢
        simpa using hcell.key
      have hnode : (T.setKey p A.length s).node L.ptr = T.node L.ptr := modify_node_ne hpL.symm
      have hcode : ∀ f, btreeDeleteKey (f+1) T p k =
          btreeDeleteKey f (T.setKey p A.length s) L.ptr s := by
        intro f
        have hnum' : (T.setKey p A.length s).num L.ptr = L.keys.length := by rw [num, hnode, ← hnumL, num]
        have hs' : (T.setKey p A.length s).key L.ptr (L.keys.length-1) = s := by rw [key, hnode, ← key, hs]
        rw [btreeDeleteKey, if_neg hn.cell.ne_null]
        simp only [hscan, eq_true hfound, hleaf, hleft, hnumL, ge_iff_le, eq_true hL, hs, hnum', hs',
          Bool.false_eq_true, if_true, if_false]
      obtain ⟨T',L',b,hret,ht',hdel,hout⟩ := delete_copied spec ht hn hLb hL s
      exact ⟨T',_,b,Returns.succ hcode hret,ht',.fromLeft hA hP hL hlk hdel,rfl,hout⟩
  · by_cases hR : T.t ≤ R.keys.length
    · obtain ⟨s,rk,hrk⟩ := List.exists_cons_of_ne_nil (List.ne_nil_of_length_pos
        (show 0 < R.keys.length by omega))
      have hs : T.key R.ptr 0 = s := by
        have hcell := hn₂.kid.cell
        rw [hrk] at hcell
        exact Cell.key (A := []) hcell
      have hcode : ∀ f, btreeDeleteKey (f+1) T p k =
          btreeDeleteKey f (T.setKey p A.length s) R.ptr s := by
        intro f
        have hs' : (T.setKey p A.length s).key R.ptr 0 = s := by
          rw [key, show (T.setKey p A.length s).node R.ptr = _ from modify_node_ne hpR.symm, ← key, hs]
        rw [btreeDeleteKey, if_neg hn.cell.ne_null]
        simp only [hscan, eq_true hfound, hleaf, hleft, hright, hnumL, hnumR, ge_iff_le, eq_false hL,
          eq_true hR, hs, hs', Bool.false_eq_true, if_true, if_false]
      obtain ⟨T',R',b,hret,ht',hdel,hout⟩ := delete_copied spec ht hn₂ hRb hR s
      refine ⟨T',⟨p,A ++ s :: B,P ++ L :: R' :: S⟩,b,Returns.succ hcode hret,ht',
        .fromRight hA hP (not_le.mp hL) hR hrk hdel,rfl,?_⟩
      simpa using hout
    · obtain ⟨ht₁,hchild₁,hs⟩ := btreeMerge_spec hn hP hS (by omega) (by omega)
        (fun h0 => by rw [hLb.arity h0]; omega) fun h0 => by rw [hRb.arity h0]; omega
      have hcode : ∀ f, btreeDeleteKey (f+1) T p k =
          btreeDeleteKey f (btreeMerge T p A.length) L.ptr k := by
        intro f
        rw [btreeDeleteKey, if_neg hn.cell.ne_null]
        simp only [hscan, eq_true hfound, hleaf, hleft, hright, hnumL, hnumR, ge_iff_le, eq_false hL,
          eq_false hR, hchild₁, Bool.false_eq_true, if_true, if_false]
      have hnum : T.t ≤ (join L k R).keys.length := by
        simp only [join, List.length_append, List.length_cons]
        omega
      obtain ⟨T',M,b,hret,ht',hdel,hout⟩ := delete_entered spec ht ht₁ hs (hLb.join hRb k) hnum k
      exact ⟨T',_,b,Returns.succ hcode hret,ht',.merge hA hP (not_le.mp hL) (not_le.mp hR) hdel,rfl,hout⟩

/-- The key is not in the node, and the search goes on below it. -/
theorem deleteDown_spec (spec : DeleteSpec h) (ht : 2 ≤ T.t)
    (hn : Rep T (⟨p,A ++ B,P ++ c :: S⟩ : Tree (h+1)))
    (hfit : FitsBelow T.t (⟨p,A ++ B,P ++ c :: S⟩ : Tree (h+1))) (hne : A ++ B ≠ [])
    (hP : P.length = A.length)
    (hscan : scanUp (fun i => k > T.key p i) 0 (T.num p) = A.length) (hA : ∀ a ∈ A, a < k)
    (hB : ∀ b ∈ B.head?, k < b) :
    ∃ (T' : Btree) (n' : Tree (h+1)) (b : Bool), Returns (fun f => btreeDeleteKey f T p k) (T',b) ∧
      T'.t = T.t ∧
      Del T.t (⟨p,A ++ B,P ++ c :: S⟩ : Tree (h+1)) k n' b ∧ n'.ptr = p ∧
      Outcome T T' (⟨p,A ++ B,P ++ c :: S⟩ : Tree (h+1)) n' := by
  have hchild : T.child p A.length = c.ptr := hP ▸ hn.child
  have hcode : ∀ f, btreeDeleteKey (f+1) T p k =
      btreeDeleteKey f (refill T p A.length c.ptr).1 (refill T p A.length c.ptr).2 k := by
    intro f
    rw [btreeDeleteKey, if_neg hn.cell.ne_null]
    simp only [hscan, eq_false (hn.cell.not_found hB), hchild, hn.kid.cell.ne_null, if_false]
  obtain ⟨hs,hc⟩ := (fitsBelow_page (s := ⟨A,P,c,B,S⟩) hP).mp hfit
  obtain ⟨s',hrefill,hptr,ht₁,hentered⟩ := refill_spec ht (s := ⟨A,P,c,B,S⟩) hn hs hc hne
  obtain ⟨-,hc',hnum,-⟩ := hrefill.shape (by omega) hs hc
  obtain ⟨T',c',b,hret,ht',hdel,hout⟩ :=
    delete_entered spec ht ht₁ hentered (fits_iff.mp hc').2 hnum k
  rw [← hptr] at hret
  exact ⟨T',_,b,Returns.succ hcode hret,ht',.down hA hB hP hrefill hdel,rfl,hout⟩

/-- `btree_delete_key` follows the rules. -/
theorem btreeDeleteKey_spec (h : ℕ) : DeleteSpec h := by
  induction h with
  | zero => exact deleteLeaf_spec
  | succ h ih =>
    rintro T ⟨p,ks,cs⟩ k ht hn hfit hne
    obtain ⟨A,B,rfl,hscan,hA,hB⟩ := scan_less k hn.cell
    obtain ⟨P,c,S,rfl,hP,hS⟩ := exists_kid (hfit.arity (Nat.succ_ne_zero h))
    obtain ⟨B,rfl⟩ | hB := head_cases hB
    · obtain _ | ⟨R,S⟩ := S
      · simp at hS
      · exact deleteFound_spec ih ht hn hfit hP (by simpa using hS) hscan hA
    · exact deleteDown_spec ih ht hn hfit (hne (Nat.succ_ne_zero h)) hP hscan hA hB

end Inner
end ServerKit.BTree
