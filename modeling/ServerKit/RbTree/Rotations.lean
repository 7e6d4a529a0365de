import ServerKit.RbTree.Counted

/-! How often the two fixups rotate: a pass that rotates is the last one. -/
namespace ServerKit.RbTree
open Function BinaryTree ServerKit.Lib

variable {V : Type}

section Insert
variable {T : Rbtree V} {C : CellContext V} {f g : Frame (Cell V)} {z p q : Cell V} {l r s t u : CellTree V}
  {k : Color} {n : ℕ} {d : Side} {x : Ptr}

/-- The rotation that takes the grandparent of the hole down. -/
theorem Focus.turn_up (h : Focus T (⟨d,p,t⟩::⟨d,q,u⟩::C) s) :
    Focus (RbTree.turn d.flip T q.ptr) (⟨d,p,Frame.fill ⟨d,q,u⟩ t⟩::C) s := by
  cases d
  · exact focus_left.mpr (focus_left.mp (focus_left.mp h)).rightRotate
  · exact focus_right.mpr (focus_right.mp (focus_right.mp h)).leftRotate

/-- The rotation at the grandparent leaves a BLACK parent. -/
theorem Focus.straight_exit (h : Focus T (⟨d,p,t⟩::⟨d,q,u⟩::C) (.node z l r)) :
    let T₁ := T.setColor (T.parent z.ptr) .BLACK
    let T₂ := T₁.setColor (T₁.parent (T₁.parent z.ptr)) .RED
    let U := RbTree.turn d.flip T₂ (T₂.parent (T₂.parent z.ptr))
    U.color (U.parent z.ptr) = .BLACK := by
  intro T₁ T₂ U
  have hp : T.parent z.ptr = p.ptr := h.sub.1.parent
  have hq : T.parent (T.parent z.ptr) = q.ptr := by
    rw [hp]
    exact h.stores_frame.parent
  have h₁ : Focus T₁ (⟨d,{ p with color := .BLACK },t⟩::⟨d,q,u⟩::C) (.node z l r) := by
    have h₁ := h.setColor_frame .BLACK
    simp only [T₁, hp]
    exact h₁
  have h₂ : Focus T₂ (⟨d,{ p with color := .BLACK },t⟩::⟨d,{ q with color := .RED },u⟩::C) (.node z l r) := by
    have h₂ := (focus_fill.mp h₁).setColor_frame .RED
    have hq₁ : T₁.parent (T₁.parent z.ptr) = q.ptr := hq
    simp only [T₂, hq₁]
    exact focus_fill.mpr h₂
  have hq₂ : T₂.parent (T₂.parent z.ptr) = q.ptr := hq
  have hU : Focus U (⟨d,{ p with color := .BLACK },Frame.fill ⟨d,{ q with color := .RED },u⟩ t⟩::C)
      (.node z l r) := by
    simp only [U, hq₂]
    exact h₂.turn_up
  have hparent : U.parent z.ptr = p.ptr := hU.sub.1.parent
  rw [hparent]
  exact hU.stores_frame.color

/-- An outer child is on the side of its parent. -/
theorem InsertBelow.side_eq (h : InsertBelow T C f g z l r k n)
    (hz : z.ptr ≠ T.child g.side.flip (T.parent z.ptr)) : f.side = g.side := by
  have hzp : T.parent z.ptr = f.label.ptr := h.focus.sub.1.parent
  rw [hzp] at hz
  by_contra hne
  rw [← Side.eq_flip_of_ne hne] at hz
  exact hz h.focus.child_side.symm

/-- Unless the uncle is RED, the arm is the last one. -/
theorem InsertBelow.exit (h : InsertBelow T C f g z l r k n)
    (hy : T.color (T.child g.side.flip (T.parent (T.parent z.ptr))) ≠ .RED) :
    (insertArm g.side T z.ptr).1.color ((insertArm g.side T z.ptr).1.parent (insertArm g.side T z.ptr).2) =
      .BLACK := by
  unfold insertArm
  rw [if_neg hy]
  by_cases hz : z.ptr = T.child g.side.flip (T.parent z.ptr)
  · obtain ⟨q,t,l',r',hfocus⟩ := h.turned_focus hz
    have hzp : T.parent z.ptr = f.label.ptr := h.focus.sub.1.parent
    rw [if_pos hz]
    dsimp only
    rw [hzp] at hfocus ⊢
    exact hfocus.straight_exit
  · have hside := h.side_eq hz
    have hfocus := h.focus
    rw [if_neg hz]
    obtain ⟨d,q,t⟩ := f
    obtain rfl : d = g.side := hside
    exact hfocus.straight_exit

/-- A pass rotates twice at most, and one that rotates is the last. -/
theorem InsertBelow.pass_runs (h : InsertBelow T C f g z l r k n) : ∃ j ≤ 2,
    Counted.Runs T.nil (Counted.insertFixupPass z.ptr) T (.inl (insertFixupPass (T,z.ptr)).2)
      (insertFixupPass (T,z.ptr)).1 j ∧
    (j ≠ 0 → (insertFixupPass (T,z.ptr)).1.color
      ((insertFixupPass (T,z.ptr)).1.parent (insertFixupPass (T,z.ptr)).2) = .BLACK) := by
  have hs := h.focus.straight
  have hred : T.color (T.parent z.ptr) = .RED := by
    rw [show T.parent z.ptr = f.label.ptr from h.focus.sub.1.parent, h.focus.stores_frame.color]
    exact h.parent_red
  rw [h.pass_eq]
  refine ⟨if T.color (T.child g.side.flip (T.parent (T.parent z.ptr))) = .RED then 0 else 2,?_,?_,
    fun hj => h.exit fun hy => hj (if_pos hy)⟩
  · split
    · exact Nat.zero_le 2
    · exact Nat.le_refl 2
  · unfold Counted.insertFixupPass
    apply Counted.Runs.parent hs.node
    apply Counted.Runs.look
    rw [if_pos hred]
    apply Counted.Runs.parent hs.node
    apply Counted.Runs.parent hs.node
    apply Counted.Runs.parent hs.parent
    apply Counted.Runs.child hs.grandparent
    have harm := h.arm_eq fun d =>
      (do return .inl (← Counted.insertFixupArm d z.ptr) : Counted V (Ptr ⊕ Ptr))
    have hruns := (Counted.insertFixupArm_runs hs h.turned h.nil_black).map fun z => (.inl z : Ptr ⊕ Ptr)
    rw [← harm] at hruns
    exact hruns

theorem insertArm_nil (d : Side) (T : Rbtree V) (z : Ptr) : (insertArm d T z).1.nil = T.nil := by
  unfold insertArm
  dsimp only
  split_ifs <;> simp

/-- The loop of `rbtree_insert_fixup` does not use nil as a node, and it rotates twice at most. -/
theorem insertFixup_rotations {s : Rbtree V × Ptr} (h : InsertHead (T,x))
    (hret : Returns (fun m => whileLoop (fun s : Rbtree V × Ptr => s.1.color (s.1.parent s.2) = .RED)
      insertFixupPass m (T,x)) s) :
    ∃ es, Returns (fun m => Logged.loop Counted.insertFixupPass m x T) (s.2,s.1,es) ∧
      (∀ e ∈ es, Counted.Event.Linked T.nil e) ∧ es.countP Counted.Event.isRotate ≤ 2 := by
  have hexit : ∀ s : Rbtree V × Ptr, InsertTest s ∧ s.1.nil = T.nil → ¬ s.1.color (s.1.parent s.2) = .RED →
      Counted.Runs T.nil (Counted.insertFixupPass s.2) s.1 (.inr s.2) s.1 0 := by
    rintro ⟨U,y⟩ ⟨⟨hy,-⟩,hnil⟩ hblack
    unfold Counted.insertFixupPass
    apply Counted.Runs.parent (hnil ▸ hy)
    apply Counted.Runs.look
    rw [if_neg hblack]
    exact Counted.Runs.pure _
  have hpass : ∀ s : Rbtree V × Ptr, InsertTest s ∧ s.1.nil = T.nil → s.1.color (s.1.parent s.2) = .RED →
      (InsertTest (insertFixupPass s) ∧ (insertFixupPass s).1.nil = T.nil) ∧ ∃ k ≤ 2,
        Counted.Runs T.nil (Counted.insertFixupPass s.2) s.1 (.inl (insertFixupPass s).2)
          (insertFixupPass s).1 k ∧
        (k ≠ 0 →
          ¬ (insertFixupPass s).1.color ((insertFixupPass s).1.parent (insertFixupPass s).2) = .RED) := by
    rintro ⟨U,y⟩ ⟨⟨hy,hI⟩,hnil⟩ hred
    have hhead : InsertHead (U,y) := by
      apply hI.resolve_right
      rw [hred]
      nofun
    obtain ⟨C,f,g,z,l,r,k,n,rfl,hbelow⟩ := hhead.below hred
    obtain ⟨j,hj,hruns,hlast⟩ := hbelow.pass_runs
    obtain ⟨hnode,-⟩ := run_insertFixupPass (b := false) hbelow
    have hnext : (insertFixupPass (U,z.ptr)).1.nil = U.nil := by
      rw [hbelow.pass_eq]
      exact insertArm_nil ..
    refine ⟨⟨⟨hnode,hbelow.pass⟩,hnext.trans hnil⟩,j,hj,hnil ▸ hruns,fun hne => ?_⟩
    rw [hlast hne]
    nofun
  exact Logged.loop_within_last (fun s : Rbtree V × Ptr => (s.2,s.1)) (fun s => s.2) hexit hpass
    ⟨h.test,rfl⟩ hret

end Insert

section Delete
variable {T : Rbtree V} {C : CellContext V} {f : Frame (Cell V)} {p w : Cell V} {t far near : CellTree V}
  {n : ℕ} {d : Side} {x : Ptr}

theorem At.counted (h : At T (⟨d,p,Frame.fill ⟨d,w,far⟩ near⟩::C) t x) : Counted.Ready d T x w.ptr :=
  ⟨h.sibling,h.nil_black,h.near_up⟩

/-- The parent of the place is RED after the rotation for a RED sibling. -/
theorem At.siblingUp_red (h : At T (f::C) t x) (hE : Expects (f::C) .BLACK (n+1))
    (hred : T.color (T.child f.side.flip (T.parent x)) = .RED) :
    (siblingUp f.side T x).color ((siblingUp f.side T x).parent x) = .RED := by
  obtain ⟨d,p,s⟩ := f
  obtain ⟨w,far,near,rfl,-⟩ := h.exists_sibling hE
  have hup := h.redSibling
  rw [show (siblingUp d T x).parent x = p.ptr from hup.parent]
  exact hup.focus.stores_frame.color

/-- Unless the sibling and its children are BLACK, the arm is the last one. -/
theorem At.exit (h : At T (f::C) t x) (hE : Expects (f::C) .BLACK (n+1))
    (hsome : ¬ Counted.AllBlack T (T.child f.side.flip (T.parent x))) :
    (deleteArm f.side T x).2 = (deleteArm f.side T x).1.root ∨
      (deleteArm f.side T x).1.color (deleteArm f.side T x).2 = .RED := by
  unfold deleteArm
  dsimp only
  by_cases hred : T.color (T.child f.side.flip (T.parent x)) = .RED
  · rw [if_pos hred]
    unfold deleteTail
    split
    · -- the sibling that has come up turns RED, and the parent has been RED before
      right
      change update _ _ _ _ = _
      rw [update_apply]
      split
      · rfl
      · exact h.siblingUp_red hE hred
    · exact .inl rfl
  · have hblack : T.color (T.child f.side.flip (T.parent x)) = .BLACK := by
      cases hc : T.color (T.child f.side.flip (T.parent x)) with
      | RED => exact absurd hc hred
      | BLACK => rfl
    rw [if_neg hred]
    unfold deleteTail
    split
    · next hboth => exact absurd ⟨hblack,hboth⟩ hsome
    · exact .inl rfl

/-- A pass rotates three times at most, and one that rotates is the last. -/
theorem At.pass_runs (h : At T (f::C) t x) (hE : Expects (f::C) .BLACK (n+1)) (hroot : x ≠ T.root)
    (hblack : T.color x = .BLACK) : ∃ j ≤ 3,
    Counted.Runs T.nil (Counted.deleteFixupPass x) T (.inl (deleteFixupPass (T,x)).2)
      (deleteFixupPass (T,x)).1 j ∧
    (j ≠ 0 → (deleteFixupPass (T,x)).2 = (deleteFixupPass (T,x)).1.root ∨
      (deleteFixupPass (T,x)).1.color (deleteFixupPass (T,x)).2 = .RED) := by
  obtain ⟨hs,hready,hred⟩ := h.arm_of (R := fun T w => Counted.Ready f.side T x w) hE At.counted
  rw [h.pass_eq hE]
  refine ⟨if Counted.AllBlack T (T.child f.side.flip (T.parent x)) then 0 else 3,?_,?_,
    fun hj => h.exit hE fun hall => hj (if_pos hall)⟩
  · split
    · exact Nat.zero_le 3
    · exact Nat.le_refl 3
  · unfold Counted.deleteFixupPass
    apply Counted.Runs.look
    rw [if_pos hroot]
    apply Counted.Runs.look
    rw [if_pos hblack]
    apply Counted.Runs.look
    apply Counted.Runs.child hs.parent
    have harm := h.arm_eq hE fun d =>
      (do return .inl (← Counted.deleteFixupArm d x) : Counted V (Ptr ⊕ Ptr))
    have hruns := (Counted.deleteFixupArm_runs hs hready hred).map fun x => (.inl x : Ptr ⊕ Ptr)
    rw [← harm] at hruns
    exact hruns

theorem deleteArm_nil (d : Side) (T : Rbtree V) (x : Ptr) : (deleteArm d T x).1.nil = T.nil := by
  unfold deleteArm deleteTail deleteNephew siblingUp nephewUp
  dsimp only
  split_ifs <;> simp

/-- The loop of `rbtree_delete_fixup` does not use nil as a node, and it rotates three times at most. -/
theorem deleteFixup_rotations {s : Rbtree V × Ptr} (h : DeleteHead (T,x))
    (hret : Returns (fun m => whileLoop (fun s : Rbtree V × Ptr => s.2 ≠ s.1.root ∧
      s.1.color s.2 = .BLACK) deleteFixupPass m (T,x)) s) :
    ∃ es, Returns (fun m => Logged.loop Counted.deleteFixupPass m x T) (s.2,s.1,es) ∧
      (∀ e ∈ es, Counted.Event.Linked T.nil e) ∧ es.countP Counted.Event.isRotate ≤ 3 := by
  have hexit : ∀ s : Rbtree V × Ptr, (s.2 = s.1.root ∨ DeleteHead s) ∧ s.1.nil = T.nil →
      ¬ (s.2 ≠ s.1.root ∧ s.1.color s.2 = .BLACK) →
      Counted.Runs T.nil (Counted.deleteFixupPass s.2) s.1 (.inr s.2) s.1 0 := by
    rintro ⟨U,y⟩ - hcond
    unfold Counted.deleteFixupPass
    apply Counted.Runs.look
    by_cases hroot : y = U.root
    · rw [if_neg (not_not.mpr hroot)]
      exact Counted.Runs.pure _
    · rw [if_pos hroot]
      apply Counted.Runs.look
      rw [if_neg fun hblack => hcond ⟨hroot,hblack⟩]
      exact Counted.Runs.pure _
  have hpass : ∀ s : Rbtree V × Ptr, (s.2 = s.1.root ∨ DeleteHead s) ∧ s.1.nil = T.nil →
      s.2 ≠ s.1.root ∧ s.1.color s.2 = .BLACK →
      (((deleteFixupPass s).2 = (deleteFixupPass s).1.root ∨ DeleteHead (deleteFixupPass s)) ∧
        (deleteFixupPass s).1.nil = T.nil) ∧ ∃ k ≤ 3,
        Counted.Runs T.nil (Counted.deleteFixupPass s.2) s.1 (.inl (deleteFixupPass s).2)
          (deleteFixupPass s).1 k ∧
        (k ≠ 0 → ¬ ((deleteFixupPass s).2 ≠ (deleteFixupPass s).1.root ∧
          (deleteFixupPass s).1.color (deleteFixupPass s).2 = .BLACK)) := by
    rintro ⟨U,y⟩ ⟨hI,hnil⟩ hcond
    obtain ⟨f,C,t,n,hat,hrb,hE⟩ := (hI.resolve_left hcond.1).below hcond
    obtain ⟨j,hj,hruns,hlast⟩ := hat.pass_runs hE hcond.1 hcond.2
    have hnext : (deleteFixupPass (U,y)).1.nil = U.nil := by
      rw [hat.pass_eq hE]
      exact deleteArm_nil ..
    refine ⟨⟨(deleteFixupPass_head hat hrb hE).symm,hnext.trans hnil⟩,j,hj,hnil ▸ hruns,?_⟩
    rintro hne ⟨hroot,hblack⟩
    obtain hx | hx := hlast hne
    · exact hroot hx
    · cases hx.symm.trans hblack
  exact Logged.loop_within_last (fun s : Rbtree V × Ptr => (s.2,s.1)) (fun s => s.2) hexit hpass
    ⟨.inr h,rfl⟩ hret

end Delete

/-- A loop that does not use nil as a node and rotates `k` times at most. -/
structure Frugal (nil : Ptr) (es : List Counted.Event) (k : ℕ) : Prop where
  linked : ∀ p, .node p ∈ es → p ≠ nil
  rotations : es.countP Counted.Event.isRotate ≤ k

theorem frugal_nil (nil : Ptr) (k : ℕ) : Frugal nil [] k :=
  ⟨fun _ hp => absurd hp List.not_mem_nil,Nat.zero_le k⟩

section Calls
variable {T : Rbtree V} {t : CellTree V} {z : Ptr}

theorem insertLink_nil (T : Rbtree V) (z y : Ptr) : (insertLink T z y).nil = T.nil := by
  unfold insertLink
  dsimp only
  split_ifs <;> rfl

theorem insert_frugal (hT : IsRbtree T t) (hz : z ≠ T.nil) :
    ∃ U es, Returns (fun n => Counted.rbtreeInsert n T z) (U,es) ∧
      Returns (fun n => rbtreeInsert n T z) U ∧ Frugal T.nil es 2 := by
  by_cases hk : T.key z ∈ keys t
  · refine ⟨T,[],?_,rbtreeInsert_existing hT hk,frugal_nil T.nil 2⟩
    exact (insertDescend_existing hT hk).bind (Returns.const _)
  · have hfresh : z ∉ ptrs t := fun hmem => hk (hT.key_mem hmem)
    obtain ⟨y,C,hret,-,-,-,focus,hblack,hE⟩ := insert_place hT hfresh hz hk
    have hhead : InsertHead (insertLink T z y,z) := .intro focus hblack rfl RB.nil RB.nil hE
    obtain ⟨U,x,u,hloop,-⟩ := insertFixup_loop C focus hblack rfl RB.nil RB.nil hE
    obtain ⟨es,hrun,hlinked,hcount⟩ := insertFixup_rotations hhead hloop
    have hnil : (insertLink T z y).nil = T.nil := insertLink_nil ..
    have hfix : Returns (fun n => rbtreeInsertFixup n (insertLink T z y) z) (U.setColor U.root .BLACK) :=
      hloop.map fun s : Rbtree V × Ptr => s.1.setColor s.1.root .BLACK
    refine ⟨U.setColor U.root .BLACK,es,?_,hret.bind hfix,fun p hp => hnil ▸ hlinked _ hp,hcount⟩
    exact hret.bind (hrun.map fun r => (r.2.1.setColor r.2.1.root .BLACK,r.2.2))

theorem delete_frugal (hT : IsRbtree T t) (hz : Reachable T z) :
    ∃ U y es, Returns (fun n => Counted.rbtreeDelete n T z) (U,y,es) ∧
      Returns (fun n => rbtreeDelete n T z) (U,y) ∧ Frugal T.nil es 3 := by
  obtain ⟨y,C,s,hchoice,-,hat,hlack⟩ := delete_place hT ((reachable_iff hT.holds).mp hz)
  by_cases hblack : (deleteUnlink T z y).color y = .BLACK
  · obtain ⟨U,x,u,N,hloop,-⟩ := deleteFixup_loop (C.length+1) hat (hlack hblack) (.inr (Nat.lt_succ_self _))
    obtain ⟨es,hrun,hlinked,hcount⟩ := deleteFixup_rotations (.intro hat (hlack hblack)) hloop
    have hnil : (deleteUnlink T z y).nil = T.nil := deleteUnlink_nil T z y
    have hfix : Returns (fun n => rbtreeDeleteFixup n (deleteUnlink T z y) (deleteChild T y))
        (U.setColor x .BLACK) := hloop.map fun s : Rbtree V × Ptr => s.1.setColor s.2 .BLACK
    refine ⟨U.setColor x .BLACK,y,es,?_,?_,fun p hp => hnil ▸ hlinked _ hp,hcount⟩
    · apply hchoice.bind
      refine (hrun.map fun r => (r.2.1.setColor r.1 .BLACK,y,r.2.2)).congr fun n => ?_
      exact if_pos hblack
    · exact hchoice.bind ((hfix.map fun U => (U,y)).congr fun n => if_pos hblack)
  · refine ⟨deleteUnlink T z y,y,[],?_,?_,frugal_nil T.nil 3⟩
    · exact hchoice.bind ((Returns.const _).congr fun n => if_neg hblack)
    · exact hchoice.bind ((Returns.const _).congr fun n => if_neg hblack)

end Calls

/-- On a red-black heap the loops of both fixups come to an end. No link of nil is followed or changed in
them and nil is not painted; an insertion rotates twice at most, a deletion three times. -/
theorem fixups_frugal {T : Rbtree V} {t : CellTree V} (hT : IsRbtree T t) :
    (∀ z, z ≠ T.nil → ∃ U es, Returns (fun n => Counted.rbtreeInsert n T z) (U,es) ∧
      Returns (fun n => rbtreeInsert n T z) U ∧ Frugal T.nil es 2) ∧
    ∀ z, Reachable T z → ∃ U y es, Returns (fun n => Counted.rbtreeDelete n T z) (U,y,es) ∧
      Returns (fun n => rbtreeDelete n T z) (U,y) ∧ Frugal T.nil es 3 :=
  ⟨fun _ hz => insert_frugal hT hz,fun _ hz => delete_frugal hT hz⟩

/-- The insertion leads to rotations at `6` and at `2`, the deletion to rotations at `2` and at `6`. -/
theorem fixups_frugal_sample :
    (∃ U es, Returns (fun n => Counted.rbtreeInsert n sampleTree 8) (U,es) ∧
      Returns (fun n => rbtreeInsert n sampleTree 8) U ∧ Frugal sampleTree.nil es 2) ∧
    ∃ U y es, Returns (fun n => Counted.rbtreeDelete n sampleTree 1) (U,y,es) ∧
      Returns (fun n => rbtreeDelete n sampleTree 1) (U,y) ∧ Frugal sampleTree.nil es 3 := by
  obtain ⟨hinsert,hdelete⟩ := fixups_frugal sampleTree_isRbtree
  exact ⟨hinsert 8 (by decide),hdelete 1 (sampleTree_reachable (by decide))⟩

end ServerKit.RbTree
