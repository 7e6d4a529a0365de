import ServerKit.RbTree.Invariant

/-! The loop of `rbtree_insert_fixup`. Its invariant: the focused node is RED over two BLACK
subtrees, and the context expects a BLACK root of the same black height. -/
namespace ServerKit.RbTree
open Function BinaryTree ServerKit.Lib

variable {V : Type*}

/-- What recolouring and rotating leave alone: which nodes are linked, in which order, with what. -/
def entries (t : CellTree V) : List (Ptr × ℤ × V) := (inorder t).map fun c => (c.ptr,c.key,c.value)

@[simp] theorem entries_nil : entries (.nil : CellTree V) = [] := rfl
@[simp] theorem entries_node (c : Cell V) (l r : CellTree V) :
    entries (.node c l r) = entries l ++ (c.ptr,c.key,c.value) :: entries r := by simp [entries]
@[simp] theorem entries_mirrorTree (t : CellTree V) :
    entries (mirrorTree t) = (entries t).reverse := by simp [entries]
@[simp] theorem entries_blacken (t : CellTree V) : entries (blacken t) = entries t := by
  cases t <;> simp [blacken]

theorem entries_plug {C : CellContext V} {s s' : CellTree V} (h : entries s = entries s') :
    entries (plug C s) = entries (plug C s') := by
  simp only [entries] at h
  simp [entries,inorder_plug,h]

theorem Linked.color_root {T : Rbtree V} {a : Ptr} {t : CellTree V} (h : Linked T a t)
    (hnil : T.color T.nil = .BLACK) : T.color (rootPtr T.nil t) = rootColor t := by
  cases t with
  | nil => exact hnil
  | node c l r => exact h.1.color

/-- The record of the node that the hole hangs from. -/
theorem Focus.stores_frame {T : Rbtree V} {f : Frame (Cell V)} {C : CellContext V} {s : CellTree V}
    (h : Focus T (f::C) s) : Stores T f.label (holeParent T.nil C)
      (match f.side with | .left => rootPtr T.nil s | .right => rootPtr T.nil f.sibling)
      (match f.side with | .left => rootPtr T.nil f.sibling | .right => rootPtr T.nil s) := by
  obtain ⟨side,c,t⟩ := f
  have hs := (focus_fill.mp h).sub
  cases side
  · exact hs.1
  · exact hs.1

/-- The root of the focused subtree is not the root of its sibling. -/
theorem Focus.root_ne_sibling {T : Rbtree V} {f : Frame (Cell V)} {C : CellContext V} {c : Cell V}
    {l r : CellTree V} (h : Focus T (f::C) (.node c l r)) : c.ptr ≠ rootPtr T.nil f.sibling := by
  cases ht : f.sibling with
  | nil => exact h.sub.1.ne_nil
  | node d a b => exact h.ne_of_mem (by simp) (by simp [ht])

/-- The node that the hole hangs from gets another colour. -/
theorem Focus.setColor_frame {T : Rbtree V} {f : Frame (Cell V)} {C : CellContext V} {s : CellTree V}
    (h : Focus T (f::C) s) (k : Color) :
    Focus (T.setColor f.label.ptr k) (⟨f.side,{ f.label with color := k },f.sibling⟩::C) s := by
  obtain ⟨side,c,t⟩ := f
  cases side
  · exact focus_left.mpr ((focus_left.mp h).setColor k)
  · exact focus_right.mpr ((focus_right.mp h).setColor k)

/-- Where one pass leaves the loop: two levels higher with the same defect, or done. -/
inductive InsertPass (nil : Ptr) (C : CellContext V) (n : ℕ) (e : List (Ptr × ℤ × V)) :
    Rbtree V × Ptr → Prop
  | climb {T x z l r} (hx : x = z.ptr) (hnil : T.nil = nil) (hblack : T.color T.nil = .BLACK)
      (focus : Focus T C (.node z l r)) (red : z.color = .RED) (left : RB .BLACK n l)
      (right : RB .BLACK n r) (same : entries (.node z l r) = e) : InsertPass nil C n e (T,x)
  | done {T x s} (hnil : T.nil = nil) (hblack : T.color T.nil = .BLACK) (focus : Focus T C s)
      (rb : RB .BLACK n s) (exit : T.color (T.parent x) = .BLACK) (same : entries s = e) :
      InsertPass nil C n e (T,x)

section LeftArm
variable {T : Rbtree V} {C : CellContext V} {z p g : Cell V} {l r sib u : CellTree V} {n : ℕ}

/-- The last two recolourings and the rotation at the grandparent. -/
theorem insertFixup_straight (h : Focus T (⟨.left,p,sib⟩::⟨.left,g,u⟩::C) (.node z l r))
    (hblack : T.color T.nil = .BLACK) (hz : z.color = .RED) (hl : RB .BLACK n l)
    (hr : RB .BLACK n r) (hsib : RB .BLACK n sib) (hu : RB .BLACK n u) :
    let T₁ := T.setColor (T.parent z.ptr) .BLACK
    let T₂ := T₁.setColor (T₁.parent (T₁.parent z.ptr)) .RED
    InsertPass T.nil C (n+1) (entries (.node g (.node p (.node z l r) sib) u))
      (rbtreeRightRotate T₂ (T₂.parent (T₂.parent z.ptr)),z.ptr) := by
  have hp : T.parent z.ptr = p.ptr := h.sub.1.parent
  have hg : T.parent p.ptr = g.ptr := h.stores_frame.parent
  have hpn : p.ptr ≠ T.nil := h.stores_frame.ne_nil
  have hgn : g.ptr ≠ T.nil := (focus_fill.mp h).stores_frame.ne_nil
  have h₁ := focus_left.mp (focus_left.mp (h.setColor_frame .BLACK))
  have h₂ := h₁.setColor .RED
  have h₃ := h₂.rightRotate
  simp only [Rbtree.setColor] at h₃ ⊢
  rw [hp,hg]
  refine .done ?_ ?_ h₃ (RB.black rfl (RB.red hz hl hr) (RB.red rfl hsib hu)) ?_ (by simp)
  · simp [rbtreeRightRotate_eq]
  · simp [rbtreeRightRotate_eq,update_of_ne hgn.symm,update_of_ne hpn.symm,hblack]
  · have hpar := h₃.sub.2.1.1.parent
    rw [hpar]
    exact h₃.sub.1.color

theorem insertFixupLeftArm_spec {d : Side} (h : Focus T (⟨d,p,sib⟩::⟨.left,g,u⟩::C) (.node z l r))
    (hblack : T.color T.nil = .BLACK) (hz : z.color = .RED) (hp : p.color = .RED)
    (hl : RB .BLACK n l) (hr : RB .BLACK n r) (hsib : RB .BLACK n sib) {k : Color} (hu : RB k n u) :
    InsertPass T.nil C (n+1)
      (entries (Frame.fill ⟨.left,g,u⟩ (Frame.fill ⟨d,p,sib⟩ (.node z l r))))
      (insertFixupLeftArm T z.ptr) := by
  have hzp : T.parent z.ptr = p.ptr := h.sub.1.parent
  have hpg : T.parent p.ptr = g.ptr := h.stores_frame.parent
  have hgu := (focus_fill.mp h).stores_frame
  have hcu : T.color (rootPtr T.nil u) = k :=
    ((focus_fill.mp (focus_fill.mp h)).sub.2.2.color_root hblack).trans hu.color
  unfold insertFixupLeftArm
  simp only [hzp, hpg, hgu.right, hcu]
  cases k with
  | RED =>
    -- the uncle is RED: recolour and go on at the grandparent
    obtain ⟨uc,ul,ur,rfl,-,hul,hur⟩ := hu.of_red
    have h₁ := focus_left.mp (focus_fill.mp (h.setColor_frame .BLACK))
    have h₂ := focus_right.mp ((focus_right.mpr h₁).setColor .BLACK)
    have h₃ := h₂.setColor .RED
    rw [if_pos rfl]
    simp only [Rbtree.setColor, rootPtr_node] at h₃ ⊢
    rw [hzp,hpg]
    refine .climb ?_ rfl ?_ h₃ rfl ?_ (RB.black ?_ hul hur) ?_
    · rfl
    · have hpn := h.stores_frame.ne_nil
      have hun := (focus_fill.mp (focus_fill.mp h)).sub.2.2.1.ne_nil
      simp [update_of_ne hgu.ne_nil.symm,update_of_ne hpn.symm,update_of_ne hun.symm,hblack]
    · exact rb_fill.mpr ⟨rfl,n,_,_,rfl,RB.red hz hl hr,hsib,by simp⟩
    · rfl
    · cases d <;> simp
  | BLACK =>
    rw [if_neg (by simp)]
    cases d with
    | left =>
      have hne : z.ptr ≠ T.right p.ptr := by
        rw [h.stores_frame.right]; exact h.root_ne_sibling
      rw [if_neg hne]
      simpa [hzp] using insertFixup_straight h hblack hz hl hr hsib hu
    | right =>
      have heq : T.right p.ptr = z.ptr := h.stores_frame.right
      rw [if_pos heq.symm]
      have h₁ := (focus_right.mp h).leftRotate
      have h₂ := insertFixup_straight (focus_left.mpr h₁) (by simpa using hblack) hp hsib hl hr hu
      simpa using h₂

end LeftArm

/-! The other arm is the same code on the mirrored heap. -/

theorem rbtreeLeftRotate_mirror (T : Rbtree V) (x : Ptr) :
    rbtreeLeftRotate T.mirror x = (rbtreeRightRotate T x).mirror := by
  rw [rbtreeRightRotate_eq]; rfl

theorem rbtreeRightRotate_mirror (T : Rbtree V) (x : Ptr) :
    rbtreeRightRotate T.mirror x = (rbtreeLeftRotate T x).mirror := by
  rw [rbtreeRightRotate_eq]; rfl

theorem setColor_mirror (T : Rbtree V) (x : Ptr) (k : Color) :
    T.mirror.setColor x k = (T.setColor x k).mirror := rfl

theorem insertFixupRightArm_eq (T : Rbtree V) (z : Ptr) :
    insertFixupRightArm T z =
      ((insertFixupLeftArm T.mirror z).1.mirror,(insertFixupLeftArm T.mirror z).2) := by
  unfold insertFixupLeftArm insertFixupRightArm
  by_cases hy : T.color (T.left (T.parent (T.parent z))) = .RED
  · simp only [Rbtree.mirror_color, Rbtree.mirror_right, Rbtree.mirror_parent, hy, if_true,
      setColor_mirror, Rbtree.mirror_mirror]
  · simp only [Rbtree.mirror_color, Rbtree.mirror_right, Rbtree.mirror_parent, hy, if_false]
    by_cases hz : z = T.left (T.parent z)
    · simp only [eq_true hz, if_true, rbtreeLeftRotate_mirror, rbtreeRightRotate_mirror, setColor_mirror,
        Rbtree.mirror_parent, Rbtree.mirror_mirror]
    · simp only [eq_false hz, if_false, rbtreeRightRotate_mirror, setColor_mirror, Rbtree.mirror_parent,
        Rbtree.mirror_mirror]

theorem InsertPass.of_mirror {nil : Ptr} {C : CellContext V} {n : ℕ} {e : List (Ptr × ℤ × V)}
    {s : Rbtree V × Ptr} (h : InsertPass nil (C.map Frame.mirror) n e.reverse s) :
    InsertPass nil C n e (s.1.mirror,s.2) := by
  cases h with
  | @climb T x z l r hx hnil hblack focus red left right same =>
    have hf : Focus T.mirror C (.node z (mirrorTree r) (mirrorTree l)) := by
      apply Focus.of_mirror
      simpa using focus
    refine .climb hx hnil hblack hf red right.mirror left.mirror ?_
    rw [← mirrorTree_node, entries_mirrorTree, same, List.reverse_reverse]
  | @done T x t hnil hblack focus rb exit same =>
    have hf : Focus T.mirror C (mirrorTree t) := by
      apply Focus.of_mirror
      simpa using focus
    refine .done hnil hblack hf rb.mirror exit ?_
    rw [entries_mirrorTree, same, List.reverse_reverse]

section Loop
variable {T : Rbtree V} {C : CellContext V} {z p g : Cell V} {l r sib u : CellTree V} {n : ℕ}

theorem insertFixupPass_spec {d d' : Side} {k : Color}
    (h : Focus T (⟨d,p,sib⟩::⟨d',g,u⟩::C) (.node z l r))
    (hblack : T.color T.nil = .BLACK) (hz : z.color = .RED) (hp : p.color = .RED)
    (hl : RB .BLACK n l) (hr : RB .BLACK n r) (hsib : RB .BLACK n sib) (hu : RB k n u) :
    InsertPass T.nil C (n+1)
      (entries (Frame.fill ⟨d',g,u⟩ (Frame.fill ⟨d,p,sib⟩ (.node z l r))))
      (insertFixupPass (T,z.ptr)) := by
  have hzp : T.parent z.ptr = p.ptr := h.sub.1.parent
  have hpg : T.parent p.ptr = g.ptr := h.stores_frame.parent
  have hf := focus_fill.mp h
  have hroot : rootPtr T.nil (Frame.fill ⟨d,p,sib⟩ (.node z l r)) = p.ptr := by cases d <;> rfl
  unfold insertFixupPass
  simp only [hzp,hpg]
  cases d' with
  | left =>
    have heq : T.left g.ptr = p.ptr := hf.stores_frame.left.trans hroot
    rw [if_pos heq.symm]
    exact insertFixupLeftArm_spec h hblack hz hp hl hr hsib hu
  | right =>
    have hne : p.ptr ≠ T.left g.ptr := by
      rw [show T.left g.ptr = rootPtr T.nil u from hf.stores_frame.left]
      cases d
      · exact hf.root_ne_sibling
      · exact hf.root_ne_sibling
    rw [if_neg hne, insertFixupRightArm_eq]
    apply InsertPass.of_mirror
    have hm := insertFixupLeftArm_spec h.mirror hblack hz hp hr.mirror hl.mirror hsib.mirror hu.mirror
    cases d <;> simpa using hm

/-- A RED parent of a RED node has a parent itself. -/
theorem Expects.of_red_parent {f : Frame (Cell V)} (h : Expects (f::C) .BLACK n)
    (hf : f.label.color = .RED) : RB .BLACK n f.sibling ∧
      ∃ g C' k, C = g::C' ∧ RB k n g.sibling ∧ Expects C' .BLACK (n+1) := by
  obtain ⟨⟨j,hsib,hk⟩,hE⟩ := h
  obtain ⟨-,rfl⟩ := hk hf
  rw [hf] at hE
  obtain ⟨g,C',rfl,-,⟨k,hu⟩,hE'⟩ := hE.of_red
  exact ⟨hsib,g,C',k,rfl,hu,hE'⟩

/-- The place of the loop when it goes on: the parent `f` is RED, and `g` is the grandparent. -/
structure InsertBelow (T : Rbtree V) (C : CellContext V) (f g : Frame (Cell V)) (z : Cell V)
    (l r : CellTree V) (k : Color) (n : ℕ) : Prop where
  focus : Focus T (f::g::C) (.node z l r)
  nil_black : T.color T.nil = .BLACK
  red : z.color = .RED
  parent_red : f.label.color = .RED
  left : RB .BLACK n l
  right : RB .BLACK n r
  sibling : RB .BLACK n f.sibling
  uncle : RB k n g.sibling
  expects : Expects C .BLACK (n+1)

/-- The state before a test of the loop, unless the loop is done. -/
inductive InsertHead : Rbtree V × Ptr → Prop
  | intro {T : Rbtree V} {C : CellContext V} {z : Cell V} {l r : CellTree V} {n : ℕ}
      (focus : Focus T C (.node z l r)) (nil_black : T.color T.nil = .BLACK) (red : z.color = .RED)
      (left : RB .BLACK n l) (right : RB .BLACK n r) (expects : Expects C .BLACK n) : InsertHead (T,z.ptr)

theorem InsertHead.below {x : Ptr} (h : InsertHead (T,x)) (hred : T.color (T.parent x) = .RED) :
    ∃ C f g z l r k n, x = z.ptr ∧ InsertBelow T C f g z l r k n := by
  obtain ⟨focus,nil_black,red,left,right,expects⟩ := h
  rename_i C z l r n
  have hpar : T.parent z.ptr = holeParent T.nil C := focus.sub.1.parent
  rw [hpar] at hred
  cases C with
  | nil => cases nil_black.symm.trans hred
  | cons f C =>
    have hf : f.label.color = .RED := focus.stores_frame.color.symm.trans hred
    obtain ⟨hsib,g,C',k,rfl,hu,hE⟩ := expects.of_red_parent hf
    exact ⟨C',f,g,z,l,r,k,n,rfl,focus,nil_black,red,hf,left,right,hsib,hu,hE⟩

/-- A pass leads to the next test, or to one that fails. -/
theorem InsertBelow.pass {f g : Frame (Cell V)} {k : Color} (h : InsertBelow T C f g z l r k n) :
    InsertHead (insertFixupPass (T,z.ptr)) ∨ (insertFixupPass (T,z.ptr)).1.color
      ((insertFixupPass (T,z.ptr)).1.parent (insertFixupPass (T,z.ptr)).2) = .BLACK := by
  have hpass := insertFixupPass_spec h.focus h.nil_black h.red h.parent_red h.left h.right h.sibling h.uncle
  generalize insertFixupPass (T,z.ptr) = s at hpass
  cases hpass with
  | climb hx hnil hblack focus red left right same =>
    rw [hx]
    exact .inl (.intro focus hblack red left right h.expects)
  | done hnil hblack focus rb exit same => exact .inr exit

/-- The state in which the loop ends: a red-black tree but for the colour of its root. -/
structure InsertEnd (nil : Ptr) (e : List (Ptr × ℤ × V)) (T : Rbtree V) (t : CellTree V) : Prop where
  nil_eq : T.nil = nil
  nil_black : T.color T.nil = .BLACK
  holds : Represents T t
  rb : ∃ N, RB .BLACK N (blacken t)
  same : entries t = e

theorem insertFixup_loop (C : CellContext V) : ∀ {T : Rbtree V} {z : Cell V} {l r : CellTree V} {n : ℕ},
    Focus T C (.node z l r) → T.color T.nil = .BLACK → z.color = .RED → RB .BLACK n l →
    RB .BLACK n r → Expects C .BLACK n →
    ∃ T' x t, Returns (fun m => whileLoop (fun s : Rbtree V × Ptr => s.1.color (s.1.parent s.2) = .RED)
      insertFixupPass m (T,z.ptr)) (T',x) ∧ InsertEnd T.nil (entries (plug C (.node z l r))) T' t := by
  induction hC : C.length using Nat.strong_induction_on generalizing C with
  | _ len ih =>
    intro T z l r n h hblack hz hl hr hE
    have hzp := h.sub.1.parent
    cases C with
    | nil =>
      refine ⟨T,z.ptr,_,while_exit ?_,rfl,hblack,h,⟨n+1,RB.black rfl hl hr⟩,rfl⟩
      simp [hzp,hblack]
    | cons f C =>
      obtain ⟨d,p,sib⟩ := f
      obtain ⟨⟨j,hsib,hk⟩,hE'⟩ := hE
      have hpc : T.color (T.parent z.ptr) = p.color := by rw [hzp]; exact h.stores_frame.color
      cases hp : p.color with
      | BLACK =>
        refine ⟨T,z.ptr,_,while_exit (by simp [hpc,hp]),rfl,hblack,represents_plug.mpr h,?_,rfl⟩
        have hred : Expects (⟨d,p,sib⟩::C) .RED n := ⟨⟨j,hsib,by simp [hp]⟩,hE'⟩
        obtain ⟨N,hN⟩ := rb_plug.mpr ⟨.RED,n,RB.red hz hl hr,hred⟩
        exact ⟨N,by rwa [blacken_of_black hN.color]⟩
      | RED =>
        obtain ⟨hsib',g,C',k,rfl,hu,hE''⟩ := Expects.of_red_parent ⟨⟨j,hsib,hk⟩,hE'⟩ hp
        obtain ⟨d',g,u⟩ := g
        have hpass := insertFixupPass_spec h hblack hz hp hl hr hsib' hu
        have hcond : T.color (T.parent z.ptr) = .RED := hpc.trans hp
        generalize hs : insertFixupPass (T,z.ptr) = s at hpass
        cases hpass with
        | @climb T₁ x z₁ l₁ r₁ hx hnil₁ hblack₁ h₁ hz₁ hl₁ hr₁ same₁ =>
          obtain ⟨T',x',t,hret,hend⟩ := ih C'.length (by simp at hC; omega) C' rfl h₁ hblack₁ hz₁ hl₁ hr₁ hE''
          refine ⟨T',x',t,while_pass hcond ?_,?_⟩
          · rw [hs,hx]; exact hret
          · rw [hnil₁, entries_plug same₁] at hend
            exact hend
        | @done T₁ x s₁ hnil₁ hblack₁ h₁ hrb hexit same₁ =>
          refine ⟨T₁,x,_,while_pass hcond ?_,hnil₁,hblack₁,represents_plug.mpr h₁,?_,entries_plug same₁⟩
          · rw [hs]
            exact while_exit (by simp [hexit])
          · obtain ⟨N,hN⟩ := rb_plug.mpr ⟨_,_,hrb,hE''⟩
            exact ⟨N,by rwa [blacken_of_black hN.color]⟩

/-- `rbtree_insert_fixup` ends, and what it leaves is a red-black tree with the same entries. -/
theorem rbtreeInsertFixup_spec (h : Focus T C (.node z l r)) (hblack : T.color T.nil = .BLACK)
    (hz : z.color = .RED) (hl : RB .BLACK n l) (hr : RB .BLACK n r) (hE : Expects C .BLACK n) :
    ∃ T' t, Returns (fun m => rbtreeInsertFixup m T z.ptr) T' ∧
      InsertEnd T.nil (entries (plug C (.node z l r))) T' t ∧ rootColor t = .BLACK := by
  obtain ⟨T',x,t,hret,hend⟩ := insertFixup_loop C h hblack hz hl hr hE
  have hne : entries t ≠ [] := by rw [hend.same]; simp [entries,inorder_plug]
  cases t with
  | nil => exact absurd rfl hne
  | node c a b =>
    have hfocus : Focus T' [] (.node c a b) := hend.holds
    have hroot : T'.root = c.ptr := hfocus.context
    refine ⟨T'.setColor T'.root .BLACK,.node { c with color := .BLACK } a b,
      Returns.map (fun s : Rbtree V × Ptr => s.1.setColor s.1.root .BLACK) hret,
      ⟨hend.nil_eq,?_,?_,?_,?_⟩,rfl⟩
    · rw [hroot]
      exact (setColor_nil hfocus.sub.1.ne_nil).trans hend.nil_black
    · rw [hroot]
      exact hfocus.setColor .BLACK
    · obtain ⟨N,hN⟩ := hend.rb
      exact ⟨N,hN⟩
    · rw [← hend.same]
      simp

end Loop
end ServerKit.RbTree
