import ServerKit.RbTree.Sentinel

/-! The sentinel's uninitialised fields do not matter: on a red-black heap every call runs through in
the guarded programs, and these cannot tell heaps apart that differ in those fields. -/
namespace ServerKit.RbTree
open Function BinaryTree ServerKit.Lib

variable {V : Type}

section Places
variable {T : Rbtree V} {C : CellContext V} {f g : Frame (Cell V)} {x y z p w a : Cell V}
  {s l r near far : CellTree V} {d : Side} {u : Ptr}

@[simp] theorem rootPtr_fill (n : Ptr) (f : Frame (Cell V)) (s : CellTree V) :
    rootPtr n (f.fill s) = f.label.ptr := by
  obtain ⟨d,c,t⟩ := f
  cases d <;> rfl

theorem Focus.child_side (h : Focus T (f::C) s) : T.child f.side f.label.ptr = rootPtr T.nil s := by
  obtain ⟨d,c,t⟩ := f
  cases d
  · exact h.stores_frame.left
  · exact h.stores_frame.right

theorem Focus.child_flip (h : Focus T (f::C) s) :
    T.child f.side.flip f.label.ptr = rootPtr T.nil f.sibling := by
  obtain ⟨d,c,t⟩ := f
  cases d
  · exact h.stores_frame.right
  · exact h.stores_frame.left

/-- The rotation that takes the parent of the hole down. -/
theorem Focus.turn {b c : CellTree V} (h : Focus T (⟨d,x,Frame.fill ⟨d.flip,y,b⟩ c⟩::C) s) :
    Focus (turn d T x.ptr) (⟨d,x,b⟩::⟨d,y,c⟩::C) s := by
  cases d
  · exact focus_left.mpr (focus_left.mpr (focus_left.mp h).leftRotate)
  · exact focus_right.mpr (focus_right.mpr (focus_right.mp h).rightRotate)

/-- Two levels above the hole, as the fixup of an insertion reads them. -/
theorem Focus.straight (h : Focus T (f::g::C) (.node z l r)) : Guarded.Straight g.side T z.ptr := by
  have hzp : T.parent z.ptr = f.label.ptr := h.sub.1.parent
  have hpg : T.parent f.label.ptr = g.label.ptr := h.stores_frame.parent
  have hg := focus_fill.mp h
  refine ⟨h.sub.1.ne_nil,?_,?_,?_⟩
  · rw [hzp]
    exact h.stores_frame.ne_nil
  · rw [hzp,hpg]
    exact hg.stores_frame.ne_nil
  · rw [hzp, hpg, hg.child_side, rootPtr_fill]

/-- A node seen from the child on the side. -/
theorem exists_fill (d : Side) (c : Cell V) (l r : CellTree V) :
    ∃ t s, BinaryTree.node c l r = Frame.fill ⟨d,c,t⟩ s := by
  cases d with
  | left => exact ⟨r,l,rfl⟩
  | right => exact ⟨l,r,rfl⟩

/-- The other child of the node that the hole hangs from. -/
theorem Focus.swap {t : CellTree V} (h : Focus T (⟨d,p,t⟩::C) s) : Focus T (⟨d.flip,p,s⟩::C) t := by
  cases d
  · exact focus_right.mpr (focus_left.mp h)
  · exact focus_left.mpr (focus_right.mp h)

/-- After the rotation at the parent of an inner child, the parent stands in its place. -/
theorem InsertBelow.turned_focus {k : Color} {n : ℕ} (h : InsertBelow T C f g z l r k n)
    (hz : z.ptr = T.child g.side.flip (T.parent z.ptr)) : ∃ q t l' r',
    Focus (RbTree.turn g.side T (T.parent z.ptr)) (⟨g.side,q,t⟩::g::C) (.node f.label l' r') := by
  have hf := h.focus
  have hzp : T.parent z.ptr = f.label.ptr := hf.sub.1.parent
  rw [hzp] at hz ⊢
  obtain ⟨e,q,sib⟩ := f
  obtain ⟨d,a,u⟩ := g
  have hside : e = d.flip := by
    apply Side.eq_flip_of_ne
    rintro rfl
    exact hf.root_ne_sibling (hz.trans hf.child_flip)
  subst hside
  obtain ⟨b,c,hbc⟩ := exists_fill d.flip z l r
  rw [hbc] at hf
  have hswap := hf.swap
  rw [Side.flip_flip] at hswap
  have hturn := focus_fill.mp hswap.turn
  obtain ⟨l',r',hq⟩ : ∃ l' r', Frame.fill ⟨d,q,b⟩ sib = .node q l' r' := by cases d <;> exact ⟨_,_,rfl⟩
  rw [hq] at hturn
  exact ⟨z,c,l',r',hturn⟩

theorem InsertBelow.turned {k : Color} {n : ℕ} (h : InsertBelow T C f g z l r k n)
    (hz : z.ptr = T.child g.side.flip (T.parent z.ptr)) :
    Guarded.Straight g.side (RbTree.turn g.side T (T.parent z.ptr)) (T.parent z.ptr) := by
  obtain ⟨q,t,l',r',hfocus⟩ := h.turned_focus hz
  have hzp : T.parent z.ptr = f.label.ptr := h.focus.sub.1.parent
  rw [hzp] at hfocus ⊢
  exact hfocus.straight

/-- The place of the loop of `rbtree_delete_fixup`, with the sibling taken apart. -/
theorem At.sibling (h : At T (⟨d,p,Frame.fill ⟨d,w,far⟩ near⟩::C) s u) : Guarded.Sibling d T u w.ptr := by
  have hpar : T.parent u = p.ptr := h.parent
  refine ⟨?_,?_,?_⟩
  · rw [hpar]
    exact h.focus.stores_frame.ne_nil
  · exact (focus_fill.mpr h.focus.swap).stores_frame.ne_nil
  · rw [hpar]
    exact h.focus.child_flip.trans (rootPtr_fill _ _ _)

theorem At.redSibling (h : At T (⟨d,p,Frame.fill ⟨d,w,far⟩ near⟩::C) s u) :
    At (siblingUp d T u)
      (⟨d,{ p with color := .RED },near⟩::⟨d,{ w with color := .BLACK },far⟩::C) s u := by
  have hpar : T.parent u = p.ptr := h.parent
  have hw : T.child d.flip p.ptr = w.ptr := hpar ▸ h.sibling.side
  have hup : siblingUp d T u =
      RbTree.turn d ((T.setColor w.ptr .BLACK).setColor p.ptr .RED) p.ptr := by
    change RbTree.turn d ((T.setColor (T.child d.flip (T.parent u)) .BLACK).setColor (T.parent u) .RED)
      (T.parent u) = _
    rw [hpar, hw]
  rw [hup]
  cases d
  · exact deleteFixup_redSibling h
  · exact deleteFixup_redSibling_right h

theorem At.redNephew (h : At T (⟨d,p,Frame.fill ⟨d,w,far⟩ (Frame.fill ⟨d,a,r⟩ l)⟩::C) s u) :
    At (nephewUp d T w.ptr) (⟨d,p,Frame.fill ⟨d,{ a with color := .BLACK },
      Frame.fill ⟨d,{ w with color := .RED },far⟩ r⟩ l⟩::C) s u := by
  have ha : T.child d w.ptr = a.ptr := by
    have hchild := (focus_fill.mpr h.focus.swap).child_side
    rwa [rootPtr_fill] at hchild
  have hup : nephewUp d T w.ptr =
      RbTree.turn d.flip ((T.setColor a.ptr .BLACK).setColor w.ptr .RED) w.ptr := by
    rw [nephewUp, ha]
  rw [hup]
  cases d
  · exact deleteFixup_redNephew h
  · exact deleteFixup_redNephew_right h

/-- A RED near nephew is linked, and it is the sibling after it has come up. -/
theorem At.near_up (h : At T (⟨d,p,Frame.fill ⟨d,w,far⟩ near⟩::C) s u)
    (hnear : T.color (T.child d w.ptr) = .RED) :
    T.child d w.ptr ≠ T.nil ∧ Guarded.Sibling d (nephewUp d T w.ptr) u (T.child d w.ptr) := by
  have hn := focus_fill.mpr h.focus.swap
  have hchild : T.child d w.ptr = rootPtr T.nil near := hn.child_side
  rw [hchild] at hnear ⊢
  rw [hn.sub.color_root h.nil_black] at hnear
  cases near with
  | nil => cases hnear
  | node a l r =>
    obtain ⟨r',l',hfill⟩ := exists_fill d a l r
    rw [hfill] at h
    exact ⟨hn.sub.1.ne_nil,h.redNephew.sibling⟩

/-- The sibling is ready for the rest of the arm. -/
theorem At.ready (h : At T (⟨d,p,Frame.fill ⟨d,w,far⟩ near⟩::C) s u) : Guarded.Ready d T u w.ptr := by
  refine ⟨h.sibling,fun hnear => ?_⟩
  obtain ⟨hnode,hup⟩ := h.near_up hnear
  refine ⟨hnode,?_⟩
  rw [hup.side]
  exact hup

/-- The sibling of a place that is one BLACK node short is linked, and so is the near child of a RED one. -/
theorem At.exists_sibling {t : CellTree V} {n : ℕ} (h : At T (⟨d,p,t⟩::C) s u)
    (hE : Expects (⟨d,p,t⟩::C) .BLACK (n+1)) : ∃ w far near, t = Frame.fill ⟨d,w,far⟩ near ∧
      (T.color w.ptr = .RED → ∃ e far' near', near = Frame.fill ⟨d,e,far'⟩ near') := by
  obtain ⟨⟨k,ht,-⟩,-⟩ := hE
  cases t with
  | nil => exact absurd ht.height (by simp [BlackHeight])
  | node w l r =>
    obtain ⟨far,near,hfill⟩ := exists_fill d w l r
    refine ⟨w,far,near,hfill,fun hred => ?_⟩
    rw [hfill] at h ht
    have hw : w.color = .RED := (focus_fill.mpr h.focus.swap).stores_frame.color.symm.trans hred
    obtain ⟨rfl,m,i,j,hm,hnear,-⟩ := rb_fill.mp ht
    cases near with
    | nil =>
      have hzero : m = 0 := hnear.height
      rw [hw, hzero] at hm
      exact absurd hm (by simp [blacks])
    | node e a b =>
      obtain ⟨a',b',hfill'⟩ := exists_fill d e a b
      exact ⟨e,a',b',hfill'⟩

/-- The arm of `rbtree_delete_fixup` finds what there is at every place with a linked sibling. -/
theorem At.arm_of {f : Frame (Cell V)} {n : ℕ} {R : Rbtree V → Ptr → Prop} (h : At T (f::C) s u)
    (hE : Expects (f::C) .BLACK (n+1))
    (hR : ∀ {T C p w far near}, At T (⟨f.side,p,Frame.fill ⟨f.side,w,far⟩ near⟩::C) s u → R T w.ptr) :
    let w := T.child f.side.flip (T.parent u)
    let U := siblingUp f.side T u
    Guarded.Sibling f.side T u w ∧ (T.color w = .BLACK → R T w) ∧
      (T.color w = .RED → R U (U.child f.side.flip (U.parent u))) := by
  obtain ⟨d,p,t⟩ := f
  obtain ⟨w,far,near,rfl,hnear⟩ := h.exists_sibling hE
  rw [h.sibling.side]
  refine ⟨h.sibling,fun _ => hR h,fun hred => ?_⟩
  obtain ⟨e,far',near',rfl⟩ := hnear hred
  have hup := h.redSibling
  rw [hup.sibling.side]
  exact hR hup

theorem At.arm {f : Frame (Cell V)} {n : ℕ} (h : At T (f::C) s u) (hE : Expects (f::C) .BLACK (n+1)) :
    let w := T.child f.side.flip (T.parent u)
    Guarded.Sibling f.side T u w ∧ (T.color w = .BLACK → Guarded.Ready f.side T u w) ∧
      (T.color w = .RED → Guarded.Ready f.side (siblingUp f.side T u) u
        ((siblingUp f.side T u).child f.side.flip ((siblingUp f.side T u).parent u))) :=
  h.arm_of (R := fun T w => Guarded.Ready f.side T u w) hE At.ready

end Places

section InsertLoop
variable {T : Rbtree V} {C : CellContext V} {f g : Frame (Cell V)} {z : Cell V} {l r : CellTree V}
  {k : Color} {n : ℕ} {b : Bool} {x : Ptr}

theorem insertArm_node {d : Side} (h : Guarded.Straight d T x) :
    (insertArm d T x).2 ≠ (insertArm d T x).1.nil := by
  unfold insertArm
  dsimp only
  split_ifs
  · exact h.grandparent
  · simpa using h.parent
  · simpa using h.node

/-- The test on the grandparent finds the side. -/
theorem InsertBelow.left_iff (h : InsertBelow T C f g z l r k n) :
    T.parent z.ptr = T.left (T.parent (T.parent z.ptr)) ↔ g.side = .left := by
  have hzp : T.parent z.ptr = f.label.ptr := h.focus.sub.1.parent
  have hpg : T.parent f.label.ptr = g.label.ptr := h.focus.stores_frame.parent
  have hg := focus_fill.mp h.focus
  rw [hzp, hpg]
  obtain ⟨d,a,u⟩ := g
  cases d with
  | left =>
    refine iff_of_true ?_ rfl
    have hchild := hg.child_side
    rw [rootPtr_fill] at hchild
    exact hchild.symm
  | right =>
    refine iff_of_false (fun heq => ?_) nofun
    have hsib : T.left a.ptr = rootPtr T.nil u := hg.child_flip
    obtain ⟨d,q,sib⟩ := f
    cases d
    · exact hg.root_ne_sibling (heq.trans hsib)
    · exact hg.root_ne_sibling (heq.trans hsib)

/-- The arm of the pass is that for the side of the parent. -/
theorem InsertBelow.arm_eq {α : Type} (h : InsertBelow T C f g z l r k n) (F : Side → α) :
    (if T.parent z.ptr = T.left (T.parent (T.parent z.ptr)) then F .left else F .right) = F g.side := by
  have hside := h.left_iff
  cases hg : g.side with
  | left => exact if_pos (hside.mpr hg)
  | right => exact if_neg fun heq => nomatch hg.symm.trans (hside.mp heq)

theorem InsertBelow.pass_eq (h : InsertBelow T C f g z l r k n) :
    insertFixupPass (T,z.ptr) = insertArm g.side T z.ptr := by
  rw [insertFixupPass, ← insertArm_left, ← insertArm_right]
  exact h.arm_eq fun d => insertArm d T z.ptr

theorem run_insertFixupPass (h : InsertBelow T C f g z l r k n) :
    (insertFixupPass (T,z.ptr)).2 ≠ (insertFixupPass (T,z.ptr)).1.nil ∧
      (Guarded.insertFixupPass z.ptr).run (T,b) =
        some ((insertFixupPass (T,z.ptr)).2,((insertFixupPass (T,z.ptr)).1,b)) := by
  have hs := h.focus.straight
  rw [h.pass_eq]
  refine ⟨insertArm_node hs,?_⟩
  unfold Guarded.insertFixupPass
  rw [Blind.run_next (Guarded.run_parent_node hs.node), Blind.run_next (Guarded.run_parent_node hs.node),
    Blind.run_next (Guarded.run_parent_node hs.parent), Blind.run_next (Guarded.run_left hs.grandparent),
    h.arm_eq fun d => Guarded.insertFixupArm d z.ptr]
  exact Guarded.run_insertFixupArm hs h.turned

/-- What holds before every test of the loop of `rbtree_insert_fixup`. -/
def InsertTest (s : Rbtree V × Ptr) : Prop :=
  s.2 ≠ s.1.nil ∧ (InsertHead s ∨ s.1.color (s.1.parent s.2) = .BLACK)

theorem InsertHead.test {s : Rbtree V × Ptr} (h : InsertHead s) : InsertTest s := by
  refine ⟨?_,.inl h⟩
  obtain ⟨focus,-⟩ := h
  exact focus.sub.1.ne_nil

theorem run_insertFixup {s : Rbtree V × Ptr} (h : InsertHead (T,x))
    (hret : Returns (fun m => whileLoop (fun s : Rbtree V × Ptr => s.1.color (s.1.parent s.2) = .RED)
      insertFixupPass m (T,x)) s) :
    Returns (fun m => (Guarded.rbtreeInsertFixup m x).run (T,b)) ((),(s.1.setColor s.1.root .BLACK,b)) := by
  have htest : ∀ s : Rbtree V × Ptr, InsertTest s → (Guarded.insertFixupTest s.2).run (s.1,b) =
      some (decide (s.1.color (s.1.parent s.2) = .RED),(s.1,b)) := by
    rintro ⟨U,y⟩ ⟨hy,-⟩
    unfold Guarded.insertFixupTest
    rw [Blind.run_next (Guarded.run_parent_node hy), Blind.run_next Guarded.run_color, Blind.run_pure]
  have hpass : ∀ s : Rbtree V × Ptr, InsertTest s → s.1.color (s.1.parent s.2) = .RED →
      InsertTest (insertFixupPass s) ∧ (Guarded.insertFixupPass s.2).run (s.1,b) =
        some ((insertFixupPass s).2,((insertFixupPass s).1,b)) := by
    rintro ⟨U,y⟩ ⟨hy,hI⟩ hred
    have hhead : InsertHead (U,y) := by
      apply hI.resolve_right
      rw [hred]
      nofun
    obtain ⟨C,f,g,z,l,r,k,n,rfl,hbelow⟩ := hhead.below hred
    obtain ⟨hnode,hrun⟩ := run_insertFixupPass (b := b) hbelow
    exact ⟨⟨hnode,hbelow.pass⟩,hrun⟩
  have hloop := Blind.whileLoop_returns (fun s : Rbtree V × Ptr => (s.2,(s.1,b))) htest hpass h.test hret
  exact hloop.2.bind (Returns.const _)

end InsertLoop

section DeleteLoop
variable {T : Rbtree V} {C : CellContext V} {f : Frame (Cell V)} {t : CellTree V} {n : ℕ} {b : Bool} {x : Ptr}

/-- The arm of the pass is that for the side of the place. -/
theorem At.arm_eq {α : Type} (h : At T (f::C) t x) (hE : Expects (f::C) .BLACK (n+1)) (F : Side → α) :
    (if x = T.left (T.parent x) then F .left else F .right) = F f.side := by
  have hside := h.left_iff hE
  cases hf : f.side with
  | left => exact if_pos (hside.mpr hf)
  | right => exact if_neg fun heq => nomatch hf.symm.trans (hside.mp heq)

theorem At.pass_eq (h : At T (f::C) t x) (hE : Expects (f::C) .BLACK (n+1)) :
    deleteFixupPass (T,x) = deleteArm f.side T x := by
  rw [deleteFixupPass, ← deleteArm_left, ← deleteArm_right]
  exact h.arm_eq hE fun d => deleteArm d T x

theorem deleteTail_node {d : Side} {w : Ptr} (h : Guarded.Sibling d T x w) :
    (deleteTail d T x w).2 ≠ (deleteTail d T x w).1.nil ∨
      (deleteTail d T x w).2 = (deleteTail d T x w).1.root := by
  unfold deleteTail
  dsimp only
  split_ifs
  · exact .inl h.parent
  · exact .inr rfl

theorem deleteArm_node (h : At T (f::C) t x) (hE : Expects (f::C) .BLACK (n+1)) :
    (deleteArm f.side T x).2 ≠ (deleteArm f.side T x).1.nil ∨
      (deleteArm f.side T x).2 = (deleteArm f.side T x).1.root := by
  obtain ⟨hs,-,hred⟩ := h.arm hE
  unfold deleteArm
  dsimp only
  split_ifs with hc
  · exact deleteTail_node (hred hc).toSibling
  · exact deleteTail_node hs

theorem run_deleteFixupPass (hx : x = T.nil → b = true) (h : At T (f::C) t x)
    (hE : Expects (f::C) .BLACK (n+1)) :
    ((deleteFixupPass (T,x)).2 ≠ (deleteFixupPass (T,x)).1.nil ∨
        (deleteFixupPass (T,x)).2 = (deleteFixupPass (T,x)).1.root) ∧
      (Guarded.deleteFixupPass x).run (T,b) =
        some ((deleteFixupPass (T,x)).2,((deleteFixupPass (T,x)).1,b)) := by
  obtain ⟨hs,hblack,hred⟩ := h.arm hE
  rw [h.pass_eq hE]
  refine ⟨deleteArm_node h hE,?_⟩
  unfold Guarded.deleteFixupPass
  rw [Blind.run_next (Guarded.run_parent hx), Blind.run_next (Guarded.run_left hs.parent),
    h.arm_eq hE fun d => Guarded.deleteFixupArm d x]
  exact Guarded.run_deleteFixupArm hx hs hblack hred

/-- What holds before every test of the loop of `rbtree_delete_fixup`. -/
def DeleteTest (b : Bool) (s : Rbtree V × Ptr) : Prop :=
  s.2 = s.1.root ∨ (DeleteHead s ∧ (s.2 = s.1.nil → b = true))

theorem run_deleteFixup {s : Rbtree V × Ptr} (h : DeleteHead (T,x)) (hx : x = T.nil → b = true)
    (hret : Returns (fun m => whileLoop (fun s : Rbtree V × Ptr => s.2 ≠ s.1.root ∧
      s.1.color s.2 = .BLACK) deleteFixupPass m (T,x)) s) :
    Returns (fun m => (Guarded.rbtreeDeleteFixup m x).run (T,b)) ((),(s.1.setColor s.2 .BLACK,b)) := by
  have htest : ∀ s : Rbtree V × Ptr, DeleteTest b s → (Guarded.deleteFixupTest s.2).run (s.1,b) =
      some (decide (s.2 ≠ s.1.root ∧ s.1.color s.2 = .BLACK),(s.1,b)) := by
    rintro ⟨U,y⟩ -
    unfold Guarded.deleteFixupTest
    rw [Blind.run_next Guarded.run_root]
    by_cases hy : y = U.root
    · rw [if_neg (not_not.mpr hy), Blind.run_pure]
      simp [hy]
    · rw [if_pos hy, Blind.run_next Guarded.run_color, Blind.run_pure]
      simp [hy]
  have hpass : ∀ s : Rbtree V × Ptr, DeleteTest b s → s.2 ≠ s.1.root ∧ s.1.color s.2 = .BLACK →
      DeleteTest b (deleteFixupPass s) ∧ (Guarded.deleteFixupPass s.2).run (s.1,b) =
        some ((deleteFixupPass s).2,((deleteFixupPass s).1,b)) := by
    rintro ⟨U,y⟩ hI hcond
    obtain ⟨hhead,hy⟩ := hI.resolve_left hcond.1
    obtain ⟨f,C,t,n,hat,hrb,hE⟩ := hhead.below hcond
    obtain ⟨hnode,hrun⟩ := run_deleteFixupPass hy hat hE
    refine ⟨?_,hrun⟩
    obtain hnext | hroot := deleteFixupPass_head hat hrb hE
    · obtain hnode | hroot := hnode
      · exact .inr ⟨hnext,fun hnil => absurd hnil hnode⟩
      · exact .inl hroot
    · exact .inl hroot
  have hloop := Blind.whileLoop_returns (fun s : Rbtree V × Ptr => (s.2,(s.1,b))) htest hpass
    (.inr ⟨h,hx⟩) hret
  exact hloop.2.bind (Returns.const _)

end DeleteLoop

section Calls
variable {T : Rbtree V} {t : CellTree V} {b : Bool} {x y z : Ptr}

theorem run_insertDescend {r : Option Ptr} (hz : z ≠ T.nil)
    (hret : Returns (fun n => loop (insertDescendPass T z) n (T.nil,T.root)) r) :
    Returns (fun n => (Blind.loop (Guarded.insertDescendPass z) n (T.nil,T.root)).run (T,b)) (r,(T,b)) := by
  have hpass : ∀ s : Ptr × Ptr, (Guarded.insertDescendPass z s).run (T,b) =
      some (insertDescendPass T z s,(T,b)) := by
    intro s
    unfold Guarded.insertDescendPass insertDescendPass
    rw [Blind.run_next Guarded.run_nil]
    by_cases hs : s.2 = T.nil
    · rw [if_neg (not_not.mpr hs), if_neg (not_not.mpr hs), Blind.run_pure]
    · rw [if_pos hs, if_pos hs, Blind.run_next (Guarded.run_key hz), Blind.run_next (Guarded.run_key hs)]
      dsimp only
      by_cases hlt : T.key z < T.key s.2
      · rw [if_pos hlt, if_pos hlt, Blind.run_next (Guarded.run_left hs), Blind.run_pure]
      · rw [if_neg hlt, if_neg hlt, Blind.run_next (Guarded.run_key hz), Blind.run_next (Guarded.run_key hs)]
        by_cases hgt : T.key z > T.key s.2
        · rw [if_pos hgt, if_pos hgt, Blind.run_next (Guarded.run_right hs), Blind.run_pure]
        · rw [if_neg hgt, if_neg hgt, Blind.run_pure]
  exact Blind.loop_returns hpass hret

/-- The last three writes of the link. -/
theorem run_newLeaf (hz : z ≠ T.nil) :
    (do Guarded.setLeft z (← Guarded.nil)
        Guarded.setRight z (← Guarded.nil)
        Guarded.setColor z .RED : Guarded V Unit).run (T,b) =
      some ((),(((T.setLeft z T.nil).setRight z T.nil).setColor z .RED,b)) := by
  have hz₁ : z ≠ (T.setLeft z T.nil).nil := hz
  rw [Blind.run_next Guarded.run_nil, Blind.run_next (Guarded.run_setLeft hz),
    Blind.run_next Guarded.run_nil, Blind.run_next (Guarded.run_setRight hz₁), Guarded.run_setColor]
  rfl

theorem run_insertLink (hz : z ≠ T.nil) :
    (Guarded.insertLink z y).run (T,b) = some ((),(insertLink T z y,b)) := by
  unfold Guarded.insertLink insertLink
  set T₁ := T.setParent z y
  have hz₁ : z ≠ T₁.nil := hz
  rw [Blind.run_next (Guarded.run_setParent_node hz), Blind.run_next Guarded.run_nil]
  dsimp only
  by_cases hy : y = T₁.nil
  · rw [if_pos hy, if_pos hy, Blind.run_next Guarded.run_setRoot]
    exact run_newLeaf hz₁
  · rw [if_neg hy, if_neg hy, Blind.run_next (Guarded.run_key hz₁), Blind.run_next (Guarded.run_key hy)]
    by_cases hlt : T₁.key z < T₁.key y
    · rw [if_pos hlt, if_pos hlt, Blind.run_next (Guarded.run_setLeft hy)]
      exact run_newLeaf hz₁
    · rw [if_neg hlt, if_neg hlt, Blind.run_next (Guarded.run_setRight hy)]
      exact run_newLeaf hz₁

/-- A call on one heap: the program returns, the guarded one returns the same without a fault, and nil
is BLACK afterwards. -/
def Follows {α : Type} (m : ℕ → Guarded V α) (f : ℕ → Rbtree V → Option (α × Rbtree V)) (T : Rbtree V) :
    Prop :=
  ∃ a U b, Returns (fun n => f n T) (a,U) ∧ Returns (fun n => (m n).run (T,false)) (a,(U,b)) ∧
    U.color U.nil = .BLACK

theorem insert_follows (hT : IsRbtree T t) (hz : z ≠ T.nil) :
    Follows (fun n => Guarded.rbtreeInsert n z) (fun n U => (rbtreeInsert n U z).map fun U => ((),U)) T := by
  by_cases hk : T.key z ∈ keys t
  · have hdescend := run_insertDescend (b := false) hz (insertDescend_existing hT hk)
    refine ⟨(),T,false,(rbtreeInsert_existing hT hk).map fun U => ((),U),?_,hT.nil_black⟩
    apply Blind.returns_next Guarded.run_nil
    apply Blind.returns_next Guarded.run_root
    exact Blind.returns_bind hdescend (Returns.const _)
  · have hfresh : z ∉ ptrs t := fun hmem => hk (hT.key_mem hmem)
    obtain ⟨y,C,hret,-,-,-,focus,hblack,hE⟩ := insert_place hT hfresh hz hk
    have hhead : InsertHead (insertLink T z y,z) := .intro focus hblack rfl RB.nil RB.nil hE
    obtain ⟨U,x,u,hloop,hend⟩ := insertFixup_loop C focus hblack rfl RB.nil RB.nil hE
    refine ⟨(),U.setColor U.root .BLACK,false,?_,?_,setColor_nil_black hend.nil_black⟩
    · have hfix : Returns (fun n => rbtreeInsertFixup n (insertLink T z y) z) (U.setColor U.root .BLACK) :=
        hloop.map fun s : Rbtree V × Ptr => s.1.setColor s.1.root .BLACK
      exact (hret.bind hfix).map fun U => ((),U)
    · apply Blind.returns_next Guarded.run_nil
      apply Blind.returns_next Guarded.run_root
      apply Blind.returns_bind (run_insertDescend hz hret)
      exact Blind.returns_next (run_insertLink hz) (run_insertFixup hhead hloop)

theorem run_mini (hx : x ≠ T.nil) (hret : Returns (fun n => rbtreeMini n T x) y) :
    y ≠ T.nil ∧ Returns (fun n => (Guarded.rbtreeMini n x).run (T,b)) (y,(T,b)) := by
  have htest : ∀ x, x ≠ T.nil →
      (Guarded.miniTest x).run (T,b) = some (decide (T.left x ≠ T.nil),(T,b)) := by
    intro x hx
    unfold Guarded.miniTest
    rw [Blind.run_next (Guarded.run_left hx), Blind.run_next Guarded.run_nil, Blind.run_pure]
  have hpass : ∀ x, x ≠ T.nil → T.left x ≠ T.nil →
      T.left x ≠ T.nil ∧ (Guarded.left x).run (T,b) = some (T.left x,(T,b)) :=
    fun x hx hleft => ⟨hleft,Guarded.run_left hx⟩
  exact Blind.whileLoop_returns (I := fun x => x ≠ T.nil) (fun x => (x,(T,b))) htest hpass hx hret

/-- The climb of `rbtree_successor` ends at the root at the latest. -/
theorem climb_returns (C : CellContext V) : ∀ {s : CellTree V}, Focus T C s → ∃ r,
    Returns (fun n => whileLoop (fun s : Ptr × Ptr => s.2 ≠ T.nil ∧ s.1 = T.right s.2)
      (fun s => (s.2,T.parent s.2)) n (rootPtr T.nil s,holeParent T.nil C)) r := by
  induction C with
  | nil => exact fun _ => ⟨_,while_exit (fun h => h.1 rfl)⟩
  | cons f C ih =>
    intro s h
    by_cases hcond : f.label.ptr ≠ T.nil ∧ rootPtr T.nil s = T.right f.label.ptr
    · obtain ⟨r,hr⟩ := ih (focus_fill.mp h)
      have hpar : T.parent f.label.ptr = holeParent T.nil C := h.stores_frame.parent
      refine ⟨r,while_pass hcond ?_⟩
      rw [rootPtr_fill] at hr
      rw [holeParent_cons, hpar]
      exact hr
    · exact ⟨_,while_exit hcond⟩

theorem run_climb {s r : Ptr × Ptr}
    (hret : Returns (fun n => whileLoop (fun s : Ptr × Ptr => s.2 ≠ T.nil ∧ s.1 = T.right s.2)
      (fun s => (s.2,T.parent s.2)) n s) r) :
    Returns (fun n => (Blind.whileLoop Guarded.climbTest
      (fun s => do return (s.2,← Guarded.parent s.2)) n s).run (T,b)) (r,(T,b)) := by
  have htest : ∀ s : Ptr × Ptr, True → (Guarded.climbTest s).run (T,b) =
      some (decide (s.2 ≠ T.nil ∧ s.1 = T.right s.2),(T,b)) := by
    rintro s -
    unfold Guarded.climbTest
    rw [Blind.run_next Guarded.run_nil]
    by_cases hs : s.2 = T.nil
    · rw [if_neg (not_not.mpr hs), Blind.run_pure]
      simp [hs]
    · rw [if_pos hs, Blind.run_next (Guarded.run_right hs), Blind.run_pure]
      simp [hs]
  have hpass : ∀ s : Ptr × Ptr, True → s.2 ≠ T.nil ∧ s.1 = T.right s.2 → True ∧
      (do return (s.2,← Guarded.parent s.2) : Guarded V (Ptr × Ptr)).run (T,b) =
        some ((s.2,T.parent s.2),(T,b)) := by
    rintro s - ⟨hs,-⟩
    refine ⟨trivial,?_⟩
    rw [Blind.run_next (Guarded.run_parent_node hs), Blind.run_pure]
  exact (Blind.whileLoop_returns (fun s => (s,(T,b))) htest hpass trivial hret).2

/-- `rbtree_successor` of a linked node. -/
theorem run_successor {C : CellContext V} {c : Cell V} {l r : CellTree V} (h : Focus T C (.node c l r)) :
    ∃ y, Returns (fun n => rbtreeSuccessor n T c.ptr) y ∧
      Returns (fun n => (Guarded.rbtreeSuccessor n c.ptr).run (T,b)) (y,(T,b)) := by
  have hc := h.sub.1
  have hright : T.right c.ptr = rootPtr T.nil r := hc.right
  unfold rbtreeSuccessor Guarded.rbtreeSuccessor
  cases r with
  | nil =>
    have hnil : ¬ T.right c.ptr ≠ T.nil := not_not.mpr hright
    obtain ⟨s,hs⟩ := climb_returns C h
    rw [rootPtr_node, ← hc.parent] at hs
    refine ⟨s.2,(hs.map Prod.snd).congr fun n => if_neg hnil,?_⟩
    apply Blind.returns_next (Guarded.run_parent_node hc.ne_nil)
    apply Blind.returns_next (Guarded.run_right hc.ne_nil)
    apply Blind.returns_next Guarded.run_nil
    simp only [if_neg hnil]
    exact Blind.returns_bind (run_climb hs) (Returns.const _)
  | node d rl rr =>
    have hd : T.right c.ptr ≠ T.nil := by
      rw [hright]
      exact h.sub.2.2.1.ne_nil
    obtain ⟨D,y,e,-,-,hmini⟩ := rbtreeMini_spec rl (focus_right.mpr h)
    rw [show d.ptr = T.right c.ptr from hright.symm] at hmini
    refine ⟨y.ptr,hmini.congr fun n => if_pos hd,?_⟩
    apply Blind.returns_next (Guarded.run_parent_node hc.ne_nil)
    apply Blind.returns_next (Guarded.run_right hc.ne_nil)
    apply Blind.returns_next Guarded.run_nil
    simp only [if_pos hd]
    exact Blind.returns_next (Guarded.run_right hc.ne_nil) (run_mini hd hmini).2

/-- A linked node, seen from the root. -/
theorem IsRbtree.focus (hT : IsRbtree T t) (hx : Reachable T x) :
    ∃ C c l r, x = c.ptr ∧ Focus T C (.node c l r) := by
  obtain ⟨c,hc,rfl⟩ := List.mem_map.mp ((reachable_iff hT.holds).mp hx)
  obtain ⟨C,l,r,rfl⟩ := exists_focus hc
  exact ⟨C,c,l,r,rfl,represents_plug.mp hT.holds⟩

theorem successor_follows (hT : IsRbtree T t) (hx : Reachable T x) :
    Follows (fun n => Guarded.rbtreeSuccessor n x)
      (fun n U => (rbtreeSuccessor n U x).map fun y => (y,U)) T := by
  obtain ⟨C,c,l,r,rfl,h⟩ := hT.focus hx
  obtain ⟨y,hret,hrun⟩ := run_successor (b := false) h
  exact ⟨y,T,false,hret.map fun y => (y,T),hrun,hT.nil_black⟩

theorem search_follows (hT : IsRbtree T t) (k : ℤ) :
    Follows (fun n => Guarded.rbtreeSearch n k) (fun n U => (rbtreeSearch n U k).map fun y => (y,U)) T := by
  obtain ⟨p,hret,-⟩ := rbtreeSearch_spec hT k
  have hpass : ∀ x, (Guarded.searchPass k x).run (T,false) = some (if x ≠ T.nil then
      if k < T.key x then .inl (T.left x) else if k > T.key x then .inl (T.right x) else .inr x
      else .inr T.nil,(T,false)) := by
    intro x
    unfold Guarded.searchPass
    rw [Blind.run_next Guarded.run_nil]
    by_cases hx : x = T.nil
    · rw [if_neg (not_not.mpr hx), if_neg (not_not.mpr hx), Blind.run_next Guarded.run_nil, Blind.run_pure]
    · rw [if_pos hx, if_pos hx, Blind.run_next (Guarded.run_key hx)]
      by_cases hlt : k < T.key x
      · rw [if_pos hlt, if_pos hlt, Blind.run_next (Guarded.run_left hx), Blind.run_pure]
      · rw [if_neg hlt, if_neg hlt, Blind.run_next (Guarded.run_key hx)]
        by_cases hgt : k > T.key x
        · rw [if_pos hgt, if_pos hgt, Blind.run_next (Guarded.run_right hx), Blind.run_pure]
        · rw [if_neg hgt, if_neg hgt, Blind.run_pure]
  refine ⟨p,T,false,hret.map fun y => (y,T),?_,hT.nil_black⟩
  exact Blind.returns_next Guarded.run_root (Blind.loop_returns hpass hret)

/-- The guarded choice is the choice. -/
theorem run_deleteChoice (hT : IsRbtree T t) (hz : Reachable T z)
    (hret : Returns (fun n => deleteChoice n T z) y) :
    Returns (fun n => (Guarded.deleteChoice n z).run (T,b)) (y,(T,b)) := by
  obtain ⟨C,c,l,r,rfl,h⟩ := hT.focus hz
  have hc := h.sub.1.ne_nil
  obtain ⟨y',hret',hrun⟩ := run_successor (b := b) h
  unfold deleteChoice at hret
  unfold Guarded.deleteChoice
  apply Blind.returns_next (Guarded.run_left hc)
  apply Blind.returns_next Guarded.run_nil
  by_cases hl : T.left c.ptr = T.nil
  · simp only [if_pos (Or.inl (b := T.right c.ptr = T.nil) hl)] at hret
    simp only [if_pos hl]
    obtain rfl := hret.unique (Returns.const _)
    exact Returns.const _
  · simp only [if_neg hl]
    apply Blind.returns_next (Guarded.run_right hc)
    apply Blind.returns_next Guarded.run_nil
    by_cases hr : T.right c.ptr = T.nil
    · simp only [if_pos (Or.inr (a := T.left c.ptr = T.nil) hr)] at hret
      simp only [if_pos hr]
      obtain rfl := hret.unique (Returns.const _)
      exact Returns.const _
    · simp only [if_neg (not_or.mpr ⟨hl,hr⟩)] at hret
      simp only [if_neg hr]
      obtain rfl := hret.unique hret'
      exact hrun

/-- The writes that take `y` out and put `x` in its place. -/
theorem run_unlink (hz : z ≠ T.nil) (hy : y ≠ T.nil) :
    (do Guarded.setParent x (← Guarded.parent y)
        Guarded.replace .left y x
        if y ≠ z then
          Guarded.setKey z (← Guarded.key y)
          Guarded.setValue z (← Guarded.value y)
        return x : Guarded V Ptr).run (T,b) =
      some (x,((if y ≠ z then ((deleteSplice T y x).setKey z ((deleteSplice T y x).key y)).setValue z
        ((deleteSplice T y x).value y) else deleteSplice T y x),b || decide (x = T.nil))) := by
  have hy₁ : y ≠ (T.setParent x (T.parent y)).nil := hy
  have hsplice : (T.setParent x (T.parent y)).replace .left y x = deleteSplice T y x := rfl
  rw [Blind.run_next (Guarded.run_parent_node hy), Blind.run_next Guarded.run_setParent,
    Blind.run_next (Guarded.run_replace hy₁), hsplice]
  set T₁ := deleteSplice T y x with hT₁
  have hy₂ : y ≠ T₁.nil := by simpa [hT₁] using hy
  have hz₂ : z ≠ T₁.nil := by simpa [hT₁] using hz
  have hy₃ : y ≠ (T₁.setKey z (T₁.key y)).nil := hy₂
  have hz₃ : z ≠ (T₁.setKey z (T₁.key y)).nil := hz₂
  by_cases hyz : y = z
  · rw [if_neg (not_not.mpr hyz), if_neg (not_not.mpr hyz), Blind.run_pure]
  · rw [if_pos hyz, if_pos hyz, Blind.run_next (Guarded.run_key hy₂), Blind.run_next (Guarded.run_setKey hz₂),
      Blind.run_next (Guarded.run_value hy₃), Blind.run_next (Guarded.run_setValue hz₃), Blind.run_pure]
    rfl

/-- If nil takes the place of `y`, its parent has been stored. -/
theorem run_deleteUnlink (hz : z ≠ T.nil) (hy : y ≠ T.nil) :
    (Guarded.deleteUnlink z y).run (T,b) = some (deleteChild T y,
      (deleteUnlink T z y,b || decide (deleteChild T y = T.nil))) := by
  unfold Guarded.deleteUnlink deleteUnlink deleteChild
  rw [Blind.run_next Guarded.run_nil, Blind.run_next (Guarded.run_left hy), Blind.run_next Guarded.run_nil]
  dsimp only
  by_cases hl : T.left y = T.nil
  · rw [if_neg (not_not.mpr hl), if_neg (not_not.mpr hl), Blind.run_next (Guarded.run_right hy),
      Blind.run_next Guarded.run_nil]
    by_cases hr : T.right y = T.nil
    · rw [if_neg (not_not.mpr hr), if_neg (not_not.mpr hr)]
      exact run_unlink hz hy
    · rw [if_pos hr, if_pos hr, Blind.run_next (Guarded.run_right hy)]
      exact run_unlink hz hy
  · rw [if_pos hl, if_pos hl, Blind.run_next (Guarded.run_left hy)]
    exact run_unlink hz hy

theorem delete_follows (hT : IsRbtree T t) (hz : Reachable T z) :
    Follows (fun n => Guarded.rbtreeDelete n z) (fun n U => (rbtreeDelete n U z).map Prod.swap) T := by
  have hmem := (reachable_iff hT.holds).mp hz
  obtain ⟨y,C,s,hchoice,hy,hat,hlack⟩ := delete_place hT hmem
  have hrun := run_deleteUnlink (b := false) (hT.holds.sub.ne_nil hmem) (hT.holds.sub.ne_nil hy)
  rw [Bool.false_or] at hrun
  by_cases hblack : (deleteUnlink T z y).color y = .BLACK
  · have hflag : deleteChild T y = (deleteUnlink T z y).nil → decide (deleteChild T y = T.nil) = true := by
      simp
    obtain ⟨U,x,u,N,hloop,-,hnil,-⟩ :=
      deleteFixup_loop (C.length+1) hat (hlack hblack) (.inr (Nat.lt_succ_self _))
    have hfix : Returns (fun n => rbtreeDeleteFixup n (deleteUnlink T z y) (deleteChild T y))
        (U.setColor x .BLACK) := hloop.map fun s : Rbtree V × Ptr => s.1.setColor s.2 .BLACK
    have hpure : Returns (fun n => rbtreeDelete n T z) (U.setColor x .BLACK,y) :=
      hchoice.bind ((hfix.map fun U => (U,y)).congr fun n => if_pos hblack)
    refine ⟨y,U.setColor x .BLACK,decide (deleteChild T y = T.nil),hpure.map Prod.swap,?_,
      setColor_nil_black hnil⟩
    apply Blind.returns_bind (run_deleteChoice hT hz hchoice)
    apply Blind.returns_next hrun
    apply Blind.returns_next Guarded.run_color
    simp only [if_pos hblack]
    exact Blind.returns_bind (run_deleteFixup (.intro hat (hlack hblack)) hflag hloop) (Returns.const _)
  · have hpure : Returns (fun n => rbtreeDelete n T z) (deleteUnlink T z y,y) :=
      hchoice.bind ((Returns.const _).congr fun n => if_neg hblack)
    refine ⟨y,deleteUnlink T z y,decide (deleteChild T y = T.nil),hpure.map Prod.swap,?_,hat.nil_black⟩
    apply Blind.returns_bind (run_deleteChoice hT hz hchoice)
    apply Blind.returns_next hrun
    apply Blind.returns_next Guarded.run_color
    simp only [if_neg hblack]
    exact Returns.const _

end Calls

/-- A red-black heap stays one, of the same tree, when the fields of nil change. -/
theorem SameButNil.isRbtree {T T' : Rbtree V} {t : CellTree V} (h : SameButNil T T') (hT : IsRbtree T t) :
    IsRbtree T' t := by
  have hf : Focus T [] t := hT.holds
  have hsub : Linked T' T.nil t := hf.sub.frame h.nil
    (fun p hp => ⟨by rw [h.color],h.key p (hf.sub.ne_nil hp),h.value p (hf.sub.ne_nil hp),
      h.left p (hf.sub.ne_nil hp),h.right p (hf.sub.ne_nil hp)⟩) (fun p hp => h.parent p (hf.sub.ne_nil hp))
  have hroot : T'.root = rootPtr T'.nil t := by
    rw [h.root, h.nil]
    exact hf.context
  have hrep : Represents T' t := by
    refine ⟨hroot,?_,hf.nodup⟩
    rw [holeParent_nil, h.nil]
    exact hsub
  exact { hT with holds := hrep, nil_black := by rw [h.color, h.nil]; exact hT.nil_black }

/-- The call `m` does on both heaps what the program `f` does, without a fault: it returns the same,
and the heaps it leaves have the same root and the same nodes. -/
def Indifferent {α : Type} (m : ℕ → Guarded V α) (f : ℕ → Rbtree V → Option (α × Rbtree V))
    (T T' : Rbtree V) : Prop :=
  ∃ a U U' b, Returns (fun n => f n T) (a,U) ∧ Returns (fun n => f n T') (a,U') ∧
    Returns (fun n => (m n).run (T,false)) (a,(U,b)) ∧ Returns (fun n => (m n).run (T',false)) (a,(U',b)) ∧
    SameButNil U U' ∧ U.color U.nil = .BLACK ∧ U'.color U'.nil = .BLACK

theorem Follows.indifferent {α : Type} {m : ℕ → Guarded V α} {f : ℕ → Rbtree V → Option (α × Rbtree V)}
    {T T' : Rbtree V} (hsame : SameButNil T T') (h : Follows m f T) (h' : Follows m f T') :
    Indifferent m f T T' := by
  obtain ⟨a,U,b,hf,hm,hnil⟩ := h
  obtain ⟨a',U',b',hf',hm',hnil'⟩ := h'
  have hagree : Agree (T,false) (T',false) := ⟨hsame,rfl,nofun⟩
  obtain ⟨rfl,hU⟩ := Blind.returns_agree hagree hm hm'
  obtain rfl : b' = b := hU.flag
  exact ⟨_,U,U',_,hf,hf',hm,hm',hU.same,hnil,hnil'⟩

/-- The uninitialised fields of the sentinel do not matter. On a red-black heap an insertion, a deletion
of a linked node, a search and a successor of a linked node never use the `left`, `right` and `key` of
nil, and they tell heaps that differ in nil's fields only not apart; nil is BLACK afterwards. -/
theorem sentinel_indifferent (T T' : Rbtree V) (t : CellTree V) (hT : IsRbtree T t) (h : SameButNil T T') :
    (∀ z, z ≠ T.nil → Indifferent (fun n => Guarded.rbtreeInsert n z)
      (fun n U => (rbtreeInsert n U z).map fun U => ((),U)) T T') ∧
    (∀ z, Reachable T z → Indifferent (fun n => Guarded.rbtreeDelete n z)
      (fun n U => (rbtreeDelete n U z).map Prod.swap) T T') ∧
    (∀ k, Indifferent (fun n => Guarded.rbtreeSearch n k)
      (fun n U => (rbtreeSearch n U k).map fun p => (p,U)) T T') ∧
    ∀ x, Reachable T x → Indifferent (fun n => Guarded.rbtreeSuccessor n x)
      (fun n U => (rbtreeSuccessor n U x).map fun p => (p,U)) T T' := by
  have hT' := h.isRbtree hT
  have hreach : ∀ {x}, Reachable T x → Reachable T' x := fun hx =>
    (reachable_iff hT'.holds).mpr ((reachable_iff hT.holds).mp hx)
  refine ⟨fun z hz => ?_,fun z hz => ?_,fun k => ?_,fun x hx => ?_⟩
  · exact Follows.indifferent h (insert_follows hT hz) (insert_follows hT' (by rwa [h.nil]))
  · exact Follows.indifferent h (delete_follows hT hz) (delete_follows hT' (hreach hz))
  · exact Follows.indifferent h (search_follows hT k) (search_follows hT' k)
  · exact Follows.indifferent h (successor_follows hT hx) (successor_follows hT' (hreach hx))

/-- The heap of `sampleTree` with other values in the record of nil, which `main` does not write. -/
def sampleTreeStray : Rbtree ℕ :=
  { sampleTree with
    right := update sampleTree.right 0 5, left := update sampleTree.left 0 6
    parent := update sampleTree.parent 0 7, key := update sampleTree.key 0 9 }

theorem sentinel_indifferent_sample :
    Indifferent (fun n => Guarded.rbtreeInsert n 8)
      (fun n U => (rbtreeInsert n U 8).map fun U => ((),U)) sampleTree sampleTreeStray ∧
    Indifferent (fun n => Guarded.rbtreeDelete n 1)
      (fun n U => (rbtreeDelete n U 1).map Prod.swap) sampleTree sampleTreeStray ∧
    Indifferent (fun n => Guarded.rbtreeDelete n 6)
      (fun n U => (rbtreeDelete n U 6).map Prod.swap) sampleTree sampleTreeStray := by
  have hsame : SameButNil sampleTree sampleTreeStray := by
    refine ⟨rfl,rfl,rfl,fun p hp => ?_,fun p hp => ?_,fun p hp => ?_,fun p hp => ?_,fun _ _ => rfl⟩
    all_goals exact update_of_ne hp _ _
  obtain ⟨hinsert,hdelete,-⟩ := sentinel_indifferent sampleTree sampleTreeStray _ sampleTree_isRbtree hsame
  exact ⟨hinsert 8 (by decide),hdelete 1 (sampleTree_reachable (by decide)),
    hdelete 6 (sampleTree_reachable (by decide))⟩

end ServerKit.RbTree
