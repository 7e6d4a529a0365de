import ServerKit.BTree.Contracts
import ServerKit.BTree.Descent

/-! Every access of an insertion lies inside the arrays, and every access of a deletion does unless
two children of a full node are merged. -/
namespace ServerKit.BTree
open Function ServerKit.Lib Btree

section Insert
variable {T : Btree} {h : ℕ} {p : Ptr} {A B : List ℤ} {P S : List (Tree h)} {c : Tree h} {k : ℤ}
  {Q : Access → Prop}

/-- After the split of a full child the key goes into one of its halves. -/
theorem exists_half (ht : 2 ≤ T.t) (hn : Rep T (⟨p,A ++ B,P ++ c :: S⟩ : Tree (h+1)))
    (hfits : FitsBelow T.t (⟨p,A ++ B,P ++ c :: S⟩ : Tree (h+1))) (hP : P.length = A.length)
    (hroom : (A ++ B).length < 2*T.t-1) (hfull : c.keys.length = 2*T.t-1) (k : ℤ) :
    let T₁ := btreeSplitChild T p A.length
    ∃ d : Tree h, T₁.child p (if k > T₁.key p A.length then A.length+1 else A.length) = d.ptr ∧
      T₁.t = T.t ∧ T₁.live p = true ∧ Rep T₁ d ∧ FitsBelow T.t d ∧ d.keys.length < 2*T.t-1 := by
  intro T₁
  obtain ⟨hS,hcfits,-⟩ := (fitsBelow_focus hP).mp hfits
  have hcfits := fits_iff.mp hcfits
  obtain ⟨l,m,r,rfl,hlp,hrp,hl,hr,hlc,hrc⟩ := exists_join T.next (by omega) hfull hcfits.2
  obtain ⟨hlfits,hrfits⟩ := hcfits.2.of_join fun h0 => (hlc h0).trans hl.symm
  obtain ⟨hn₁,hstep,-⟩ := btreeSplitChild_spec hn hP hS hl hr hlc hrc hrp hroom
  have hkey : T₁.key p A.length = m := hn₁.cell.key
  have hpair := hn₁.neighbours
  rw [hP] at hpair
  rw [hkey]
  split
  · exact ⟨r,hpair.right,hstep.t,hn₁.cell.live,hpair.repR,hrfits,by omega⟩
  · exact ⟨l,hpair.left,hstep.t,hn₁.cell.live,hpair.repL,hlfits,by omega⟩

/-- One level of an insertion into a node that is not full, above the leaves. -/
theorem insert_level (hQ : Traced.Tolerates Q T.t) (ht : 2 ≤ T.t) {n : Tree (h+1)} (hn : Rep T n)
    (hfits : FitsBelow T.t n) (hnum : n.keys.length < 2*T.t-1) (k : ℤ) :
    ∃ (T₁ : Btree) (d : Tree h), T₁.t = T.t ∧ Rep T₁ d ∧ FitsBelow T.t d ∧
      d.keys.length < 2*T.t-1 ∧
      Logged.Gives Q (Traced.btreeInsertNonfull k n.ptr) T (.inl d.ptr) T₁ True := by
  obtain ⟨p,ks,cs⟩ := n
  obtain ⟨A,B,rfl,hscan,-,-⟩ := scan_greater k hn.cell
  obtain ⟨P,c,S,rfl,hP,-⟩ := exists_kid (hfits.arity (Nat.succ_ne_zero h))
  have hcell : Cell T p false (A ++ B) ((P ++ c :: S).map Page.ptr) := hn.cell
  have hlive := hcell.live
  have hlen : A.length ≤ (A ++ B).length := by simp
  have hchild : T.child p A.length = c.ptr := hP ▸ hn.child
  have hcnum : T.num c.ptr = c.keys.length := hn.kid.cell.num
  have hcfits := fits_iff.mp (hfits.kids c (by simp))
  have hscanned := Traced.clean_scanGreater hQ k hnum.le hlive
  dsimp only at hnum hscanned
  rw [← hcell.num] at hscanned hlen hnum
  by_cases hfull : c.keys.length = 2*T.t-1
  · obtain ⟨d,hd,ht₁,hp₁,hrep,hdfits,hdnum⟩ :=
      exists_half ht hn hfits hP (by rwa [← hcell.num]) hfull k
    have hpc : p ≠ c.ptr := fun heq => hn.notMem_kid (heq ▸ List.mem_cons_self)
    have hsplit : Logged.Clean Q (Traced.btreeSplitChild p A.length) T :=
      Traced.clean_splitChild hQ ht hchild hpc hcell.lt_next.ne hn.kid.cell.lt_next.ne hlive
        hn.kid.cell.live hlen hnum
    refine ⟨btreeSplitChild T p A.length,d,ht₁,hrep,hdfits,hdnum,?_,?_,?_⟩
    · simp [Traced.btreeInsertNonfull,hcell.leaf,Traced.val_scanGreater,Traced.state_scanGreater,
        hscan,hchild,hcnum,hfull,Traced.state_splitChild,-Nat.cast_ite]
      exact hd
    · simp [Traced.btreeInsertNonfull,hcell.leaf,Traced.val_scanGreater,Traced.state_scanGreater,
        hscan,hchild,hcnum,hfull,Traced.state_splitChild]
    · simp [Traced.btreeInsertNonfull,hcell.leaf,hlive,Traced.val_scanGreater,
        Traced.state_scanGreater,hscan,hchild,hcnum,hfull,Traced.state_splitChild,hscanned,hsplit,hp₁,
        hn.kid.cell.live]
      refine ⟨hQ.field,hQ.child (by omega) (by omega),hQ.field,hQ.key (by omega) (by omega),?_⟩
      split <;> exact hQ.child (by omega) (by omega)
  · refine ⟨T,c,rfl,hn.kid,hcfits.2,by omega,?_,?_,?_⟩
    · simp [Traced.btreeInsertNonfull,hcell.leaf,Traced.val_scanGreater,Traced.state_scanGreater,
        hscan,hchild,hcnum,hfull]
    · simp [Traced.btreeInsertNonfull,hcell.leaf,Traced.val_scanGreater,Traced.state_scanGreater,
        hscan,hchild,hcnum,hfull]
    · simp [Traced.btreeInsertNonfull,hcell.leaf,hlive,Traced.val_scanGreater,
        Traced.state_scanGreater,hscan,hchild,hcnum,hfull,hscanned,hn.kid.cell.live]
      exact ⟨hQ.field,hQ.child (by omega) (by omega),hQ.field,hQ.child (by omega) (by omega)⟩

theorem insert_leaf (hQ : Traced.Tolerates Q T.t) {n : Tree 0} (hn : Rep T n)
    (hnum : n.keys.length < 2*T.t-1) (k : ℤ) :
    ∃ T₁, Logged.Gives Q (Traced.btreeInsertNonfull k n.ptr) T (.inr ()) T₁ True := by
  have hlive : T.live n.ptr = true := hn.cell.live
  have hleaf : T.leaf n.ptr = true := hn.cell.leaf
  have hn' : T.num n.ptr = n.keys.length := hn.cell.num
  refine ⟨_,?_,rfl,?_⟩
  · simp [Traced.btreeInsertNonfull,hleaf]
  · have hle := Traced.val_shiftGreater_le (T := T) (x := n.ptr) k n.keys.length
    have hclean := Traced.clean_shiftGreater (n := n.keys.length) hQ k hnum hlive
    simp [Traced.btreeInsertNonfull,hleaf,hlive,hn',hclean,Traced.live_shiftGreater]
    exact ⟨hQ.field,hQ.key (by omega) (by omega),hQ.field⟩

/-- The descent of an insertion. -/
theorem insert_ends (hQ : Traced.Tolerates Q T.t) (ht : 2 ≤ T.t) {n : Tree h} (hn : Rep T n)
    (hfits : FitsBelow T.t n) (hnum : n.keys.length < 2*T.t-1) (k : ℤ) :
    ∃ T', Logged.Ends (Traced.btreeInsertNonfull k) Q n.ptr T () T' True := by
  induction h generalizing T with
  | zero =>
    obtain ⟨T',hgives⟩ := insert_leaf hQ hn hnum k
    exact ⟨T',hgives.done⟩
  | succ h ih =>
    obtain ⟨T₁,d,ht₁,hd,hdfits,hdnum,hgives⟩ := insert_level hQ ht hn hfits hnum k
    rw [← ht₁] at hQ ht hdfits hdnum
    obtain ⟨T',hends⟩ := ih hQ ht hd hdfits hdnum
    exact ⟨T',(hgives.next hends).congr (and_self_iff)⟩

/-- A full root is split below a new one. -/
theorem insert_root (hQ : Traced.Tolerates Q T.t) (ht : 2 ≤ T.t) {n : Tree h} (hT : IsBtree T n)
    (k : ℤ) : ∃ (T₁ : Btree) (d : Tree h), T₁.t = T.t ∧ Rep T₁ d ∧ FitsBelow T.t d ∧
      d.keys.length < 2*T.t-1 ∧ Logged.Gives Q (Traced.insertAtRoot k) T d.ptr T₁ True := by
  have hnum : T.num n.ptr = n.keys.length := hT.rep.cell.num
  have hlive : T.live n.ptr = true := hT.rep.cell.live
  have hle := hT.shape.num_le
  by_cases hfull : n.keys.length = 2*T.t-1
  · have hrep := rep_newRoot ht hT.rep
    set T₀ := ((btreeCreateNode T false).setRoot T.next).setChild T.next 0 n.ptr with hT₀
    have hfits : FitsBelow T.t (⟨T.next,[],[n]⟩ : Tree (h+1)) := by
      refine ⟨fun _ => rfl,fun d hd => ?_⟩
      obtain rfl := List.mem_singleton.mp hd
      exact fits_iff.mpr ⟨⟨by omega,hle⟩,hT.shape.toFitsBelow⟩
    obtain ⟨d,hd,ht₁,hp₁,hd',hdfits,hdnum⟩ := exists_half (T := T₀) (A := []) (B := []) (P := [])
      (S := []) ht hrep hfits rfl (show 0 < 2*T.t-1 by omega) hfull k
    have hfocus : Rep T₀ (⟨T.next,[],[] ++ n :: []⟩ : Tree (h+1)) := hrep
    have hkid := hfocus.kid.cell
    have hne : T.next ≠ n.ptr := hT.rep.cell.lt_next.ne'
    have hsplit : Logged.Clean Q (Traced.btreeSplitChild T.next 0) T₀ :=
      Traced.clean_splitChild hQ ht hfocus.child hne hrep.cell.lt_next.ne hkid.lt_next.ne
        hrep.cell.live hkid.live (Nat.zero_le _)
        (hrep.cell.num.trans_lt (show 0 < 2*T.t-1 by omega))
    have hhalf : (btreeSplitChild T₀ T.next 0).child T.next
        (if (btreeSplitChild T₀ T.next 0).key T.next 0 < k then 1 else 0) = d.ptr := hd
    have hlive₁ : (btreeSplitChild T₀ T.next 0).live T.next = true := hp₁
    refine ⟨btreeSplitChild T₀ T.next 0,d,ht₁,hd',hdfits,hdnum,?_,?_,?_⟩
    · simp [Traced.insertAtRoot,hT.root,hnum,hfull,Traced.state_splitChild,← hT₀]
      rw [← hhalf]
      split <;> rfl
    · simp [Traced.insertAtRoot,hT.root,hnum,hfull,Traced.state_splitChild,← hT₀]
    · simp [Traced.insertAtRoot,hT.root,hnum,hfull,Traced.state_splitChild,hlive,hlive₁,hsplit,← hT₀]
      refine ⟨hQ.field,hQ.field,hQ.child le_rfl (by omega),hQ.key le_rfl (by omega),?_⟩
      split <;> exact hQ.child (by omega) (by omega)
  · refine ⟨T,n,rfl,hT.rep,hT.shape.toFitsBelow,by omega,?_,?_,?_⟩
    · simp [Traced.insertAtRoot,hT.root,hnum,hfull]
    · simp [Traced.insertAtRoot,hT.root,hnum,hfull]
    · simp [Traced.insertAtRoot,hT.root,hnum,hfull,hlive]
      exact hQ.field

end Insert

section Delete
variable {T : Btree} {h : ℕ} {k : ℤ} {Q : Access → Prop}

theorem delete_leaf (hQ : Traced.Tolerates Q T.t) (ht : 2 ≤ T.t) {n : Tree 0} (hn : Rep T n) (k : ℤ) :
    ∃ T' b, Logged.Gives Q (Traced.btreeDeleteKey (n.ptr,k)) T (.inr b) T' True := by
  obtain ⟨p,ks,cs⟩ := n
  obtain rfl : cs = [] := kids_eq_nil ⟨p,ks,cs⟩
  have hcell : Cell T p true ks [] := hn.cell
  have hlive := hcell.live
  have hle := hcell.holds.length_le
  obtain ⟨A,B,rfl,hscan,hA,hB⟩ := scan_less k hcell
  have hnum : T.num p = (A ++ B).length := hcell.num
  obtain ⟨B,rfl⟩ | hB := head_cases hB
  · refine ⟨removeFromLeaf T p A.length,false,(Traced.acts_found hQ hcell hscan).gives ⟨?_,?_,?_⟩⟩
    · simp [Traced.deleteFound,hcell.leaf]
    · simp [Traced.deleteFound,hcell.leaf,Traced.state_removeFromLeaf]
    · have hclean : Logged.Clean Q (Traced.removeFromLeaf p A.length) T :=
        Traced.clean_removeFromLeaf hQ hlive (by simp [hnum]) (by rwa [hnum])
      simp [Traced.deleteFound,hcell.leaf,hlive,hclean]
      exact hQ.field
  · have hnull : T.child p A.length = 0 := hcell.holds.null A.length
    rw [List.length_append] at hle
    refine ⟨T,true,(Traced.acts_below hQ hcell hscan hB).gives ⟨?_,?_,?_⟩⟩
    · simp [Traced.deleteBelow,hnull]
    · simp [Traced.deleteBelow,hnull]
    · simp [Traced.deleteBelow,hnull,hlive]
      exact hQ.child (by omega) (by omega)

/-- Some level of the descent has the property `bad`, which depends on how it ends and on the number
of keys of its node. -/
inductive Meets (t : ℕ) (bad : Branch → ℕ → Prop) : {h : ℕ} → Tree h → ℤ → Prop
  | here {h : ℕ} {n : Tree (h+1)} {c : Tree h} {k j : ℤ} {b : Branch} (hd : Descent t n k b c j)
      (hb : bad b n.keys.length) : Meets t bad n k
  | later {h : ℕ} {n : Tree (h+1)} {c : Tree h} {k j : ℤ} {b : Branch} (hd : Descent t n k b c j)
      (hc : Meets t bad c j) : Meets t bad n k

/-- Where only `bad` levels spoil the property `Q`, the run keeps it exactly if it meets none. -/
theorem delete_ends {bad : Branch → ℕ → Prop} (hQ : Traced.Tolerates Q T.t)
    (hbad : ∀ p m i b, i ≤ m → m ≤ 2*T.t-1 → (Branch.Good Q p m i b ↔ ¬ bad b m)) (ht : 2 ≤ T.t)
    {n : Tree h} (hn : Rep T n) (hfit : FitsBelow T.t n) (hne : h ≠ 0 → n.keys ≠ []) (k : ℤ) :
    ∃ T' b, Logged.Ends Traced.btreeDeleteKey Q (n.ptr,k) T b T' (¬ Meets T.t bad n k) := by
  induction h generalizing T k with
  | zero =>
    obtain ⟨T',b,hgives⟩ := delete_leaf hQ ht hn k
    exact ⟨T',b,hgives.done.congr (iff_of_true trivial nofun)⟩
  | succ h ih =>
    have hle := hn.cell.holds.length_le
    -- A level that follows the descent, and the rest of the run.
    have hnext : ∀ {b c j}, Descent T.t n k b c j → ∃ T' r, Logged.Ends Traced.btreeDeleteKey Q
        (n.ptr,k) T r T' (¬ bad b n.keys.length ∧ ¬ Meets T.t bad c j) := by
      intro b c j hd
      obtain ⟨T₁,i,hi,ht₁,hc,hgives⟩ := hd.follows hQ ht hn hfit
      obtain ⟨hcfit,hcnum⟩ := hd.fits (by omega) hfit
      have hcne : c.keys ≠ [] := List.ne_nil_of_length_pos (by omega)
      rw [← ht₁] at hQ hbad ht hcfit
      obtain ⟨T',r,hends⟩ := ih hQ hbad ht hc (fits_iff.mp hcfit).2 (fun _ => hcne) j
      rw [ht₁] at hends hbad
      exact ⟨T',r,(hgives.next hends).congr (and_congr_left' (hbad _ _ _ _ hi hle))⟩
    by_cases hmeets : Meets T.t bad n k
    · cases hmeets with
      | here hd hb =>
        obtain ⟨T',r,hends⟩ := hnext hd
        exact ⟨T',r,hends.congr (iff_of_false (fun h => h.1 hb) (not_not_intro (.here hd hb)))⟩
      | later hd hc =>
        obtain ⟨T',r,hends⟩ := hnext hd
        exact ⟨T',r,hends.congr (iff_of_false (fun h => h.2 hc) (not_not_intro (.later hd hc)))⟩
    · obtain ⟨b,c,j,hd⟩ := exists_descent ht hfit (hne (Nat.succ_ne_zero h)) k
      obtain ⟨T',r,hends⟩ := hnext hd
      exact ⟨T',r,hends.congr (iff_of_true ⟨fun hb => hmeets (.here hd hb),
        fun hc => hmeets (.later hd hc)⟩ hmeets)⟩

/-- The log of a deletion. -/
theorem delete_log {bad : Branch → ℕ → Prop} (hQ : Traced.Tolerates Q T.t)
    (hbad : ∀ p m i b, i ≤ m → m ≤ 2*T.t-1 → (Branch.Good Q p m i b ↔ ¬ bad b m)) (ht : 2 ≤ T.t)
    {n : Tree h} (hT : IsBtree T n) (k : ℤ) : ∃ (T' : Btree) (b : Bool) (es : List Access),
      Returns (fun f => Traced.btreeDelete f T k) ((b,0),T',es) ∧
      Returns (fun f => btreeDelete f T k) (T',b,0) ∧ ((∀ e ∈ es, Q e) ↔ ¬ Meets T.t bad n k) := by
  obtain ⟨T',b,es,hret,hes⟩ := delete_ends hQ hbad ht hT.rep hT.shape.toFitsBelow
    (fun h0 => List.ne_nil_of_length_pos (hT.shape.root_num h0)) k
  have hnull : T.root ≠ 0 := hT.root.trans_ne hT.rep.cell.ne_null
  have hlog : Returns (fun f => Traced.btreeDelete f T k) ((b,0),T',es) := by
    refine Returns.congr (fun f => ?_) (hret.map fun r => ((r.1,0),r.2))
    rw [Traced.btreeDelete, if_neg hnull, hT.root]
  exact ⟨T',b,es,hlog,Returns.congr (fun f => (Traced.delete_eq f T k).symm) (hlog.map _),hes⟩

end Delete

/-- Every access of an insertion is one to an allocated node inside its arrays. -/
theorem insert_log {T : Btree} {h : ℕ} {n : Tree h} {Q : Access → Prop} (hQ : Traced.Tolerates Q T.t)
    (ht : 2 ≤ T.t) (hT : IsBtree T n) (k : ℤ) : ∃ (T' : Btree) (es : List Access),
      Returns (fun f => Traced.btreeInsert f T k) ((),T',es) ∧
      Returns (fun f => btreeInsert f T k) T' ∧ ∀ e ∈ es, Q e := by
  obtain ⟨T₁,d,ht₁,hd,hfits,hnum,hgives⟩ := insert_root hQ ht hT k
  rw [← ht₁] at hQ ht hfits hnum
  obtain ⟨T',hends⟩ := insert_ends hQ ht hd hfits hnum k
  obtain ⟨es,hret,hes⟩ := hgives.ends hends
  have hnull : T.root ≠ 0 := hT.root.trans_ne hT.rep.cell.ne_null
  have hlog : Returns (fun f => Traced.btreeInsert f T k) ((),T',es) :=
    Returns.congr (fun f => if_neg hnull) hret
  exact ⟨T',es,hlog,Returns.congr (fun f => (Traced.insert_eq f T k).symm) (hlog.map _),
    hes.mpr ⟨trivial,trivial⟩⟩

/-- Two children of a node of `2t-1` keys are merged on the way. -/
def FullMerge (t : ℕ) {h : ℕ} (n : Tree h) (k : ℤ) : Prop :=
  Meets t (fun b m => b ≠ .enter ∧ m = 2*t-1) n k

theorem Traced.tolerates_inBounds (t : ℕ) : Traced.Tolerates (fun e => e.part.InBounds t) t :=
  fun _ _ h => h

theorem Branch.good_inBounds {t m i : ℕ} (p : Ptr) (b : Branch) (ht : 2 ≤ t) (hi : i ≤ m)
    (hm : m ≤ 2*t-1) :
    b.Good (fun e => e.part.InBounds t) p m i ↔ ¬ (b ≠ .enter ∧ m = 2*t-1) := by
  cases b with
  | enter => simp [Branch.good_enter]
  | mergeSiblings =>
    simp [Branch.good_siblings,Part.InBounds]
    omega
  | mergeFound =>
    simp [Branch.good_found,Part.InBounds]
    omega

theorem delete_log_inBounds {T : Btree} {h : ℕ} {n : Tree h} (k : ℤ) (ht : 2 ≤ T.t)
    (hT : IsBtree T n) : ∃ (T' : Btree) (b : Bool) (es : List Access),
      Returns (fun f => Traced.btreeDelete f T k) ((b,0),T',es) ∧
      Returns (fun f => btreeDelete f T k) (T',b,0) ∧
      ((∀ e ∈ es, e.part.InBounds T.t) ↔ ¬ FullMerge T.t n k) :=
  delete_log (Traced.tolerates_inBounds T.t) (fun p _ _ b => Branch.good_inBounds p b ht) ht hT k

/-- An insertion stays inside the arrays, and a deletion does unless it merges two children of a full
node. -/
theorem accesses_inBounds_iff {h : ℕ} (T : Btree) (n : Tree h) (k : ℤ) (ht : 2 ≤ T.t)
    (hT : IsBtree T n) :
    (∃ (T' : Btree) (es : List Access), Returns (fun f => Traced.btreeInsert f T k) ((),T',es) ∧
      Returns (fun f => btreeInsert f T k) T' ∧ ∀ e ∈ es, e.part.InBounds T.t) ∧
    ∃ (T' : Btree) (b : Bool) (es : List Access),
      Returns (fun f => Traced.btreeDelete f T k) ((b,0),T',es) ∧
      Returns (fun f => btreeDelete f T k) (T',b,0) ∧
      ((∀ e ∈ es, e.part.InBounds T.t) ↔ ¬ FullMerge T.t n k) :=
  ⟨insert_log (Traced.tolerates_inBounds T.t) ht hT k,delete_log_inBounds k ht hT⟩

theorem accesses_inBounds_iff_deep :
    (∃ (T' : Btree) (es : List Access),
      Returns (fun f => Traced.btreeInsert f (storeOf 2 deepTree) 7) ((),T',es) ∧
      Returns (fun f => btreeInsert f (storeOf 2 deepTree) 7) T' ∧ ∀ e ∈ es, e.part.InBounds 2) ∧
    ∃ (T' : Btree) (b : Bool) (es : List Access),
      Returns (fun f => Traced.btreeDelete f (storeOf 2 deepTree) 7) ((b,0),T',es) ∧
      Returns (fun f => btreeDelete f (storeOf 2 deepTree) 7) (T',b,0) ∧
      ((∀ e ∈ es, e.part.InBounds 2) ↔ ¬ FullMerge 2 deepTree 7) :=
  accesses_inBounds_iff (storeOf 2 deepTree) deepTree 7 le_rfl deepTree_isBtree

/-- A full root of degree 2 above minimal leaves. -/
def fullRoot : Tree 1 := ⟨1,[2,4,6],[⟨2,[1],[]⟩,⟨3,[3],[]⟩,⟨4,[5],[]⟩,⟨5,[7],[]⟩]⟩

theorem fullRoot_isBtree : IsBtree (storeOf 2 fullRoot) fullRoot := by
  refine storeOf_isBtree (by decide) ⟨⟨fun _ => rfl,?_⟩,by decide,by decide⟩ (by decide) (by decide)
  simp [fullRoot,Fits]

/-- The two leaves beside the key 2 are merged, and the merge writes behind the last child. -/
theorem delete_beyond_children : IsBtree (storeOf 2 fullRoot) fullRoot ∧
    (inorder fullRoot).Pairwise (· ≤ ·) ∧ ∃ (T' : Btree) (b : Bool) (es : List Access),
      Returns (fun f => Traced.btreeDelete f (storeOf 2 fullRoot) 2) ((b,0),T',es) ∧
      ∃ e ∈ es, ¬ e.part.InBounds 2 := by
  obtain ⟨T',b,es,hlog,-,hiff⟩ := delete_log_inBounds 2 le_rfl fullRoot_isBtree
  refine ⟨fullRoot_isBtree,by decide,T',b,es,hlog,?_⟩
  have hd : Descent 2 fullRoot 2 .mergeFound (join ⟨2,[1],[]⟩ 2 ⟨3,[3],[]⟩) 2 :=
    Descent.mergeFound (A := []) (P := []) (by simp) rfl (by decide) (by decide)
  have hfull : FullMerge 2 fullRoot 2 := .here hd ⟨by decide,rfl⟩
  by_contra hnone
  refine hiff.mp (fun e he => ?_) hfull
  by_contra hout
  exact hnone ⟨e,he,hout⟩

end ServerKit.BTree
