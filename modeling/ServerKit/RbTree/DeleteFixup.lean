import ServerKit.RbTree.InsertFixup

/-! The loop of `rbtree_delete_fixup`. Its invariant: the paths through the focused subtree lack one
BLACK node, and nothing else is wrong. The focused subtree may be nil; its parent link is then the
one that `rbtree_delete` stored in the sentinel. -/
namespace ServerKit.RbTree
open Function BinaryTree ServerKit.Lib

variable {V : Type*}

/-- The subtree is one BLACK node short, or has a RED root that has only to be made BLACK. -/
def Lacking (C : CellContext V) (s : CellTree V) : Prop :=
  (∃ n, RB .BLACK n s ∧ Expects C .BLACK (n+1)) ∨
    (rootColor s = .RED ∧ ∃ n, RB .BLACK n (blacken s) ∧ Expects C .BLACK n)

/-- The loop stands at `x`, the root of the focused subtree. -/
structure At (T : Rbtree V) (C : CellContext V) (s : CellTree V) (x : Ptr) : Prop where
  focus : Focus T C s
  here : x = rootPtr T.nil s
  parent : T.parent x = holeParent T.nil C
  nil_black : T.color T.nil = .BLACK

/-- Where one pass that started `d` levels below the root leaves the loop. -/
inductive DeletePass (nil : Ptr) (d : ℕ) (e : List (Ptr × ℤ × V)) : Rbtree V × Ptr → Prop
  | climb {T x C' s} (hnil : T.nil = nil) (place : At T C' s x) (lacking : Lacking C' s)
      (less : rootColor s = .RED ∨ C'.length < d) (same : entries (plug C' s) = e) :
      DeletePass nil d e (T,x)
  | done {T x t N} (hnil : T.nil = nil) (hblack : T.color T.nil = .BLACK) (holds : Represents T t)
      (rb : RB .BLACK N t) (hroot : x = T.root) (same : entries t = e) : DeletePass nil d e (T,x)

/-- A rotation at a linked node does not touch the parent link of the sentinel. -/
theorem rbtreeLeftRotate_parent_nil {T : Rbtree V} {x : Ptr} (hx : x ≠ T.nil)
    (hy : T.right x ≠ T.nil) : (rbtreeLeftRotate T x).parent T.nil = T.parent T.nil := by
  have hrehang : ∀ (T : Rbtree V) p x y, (rehang T p x y).parent = T.parent := by
    intro T p x y
    unfold rehang
    split_ifs <;> rfl
  rw [rbtreeLeftRotate_eq]
  simp only [Rbtree.setParent, Rbtree.setLeft]
  rw [update_of_ne hx.symm, hrehang]
  simp only [leftRotateStart]
  split_ifs with hb
  · have hb' : T.nil ≠ T.left (T.right x) := fun h => hb h.symm
    simp [update_of_ne hy.symm,update_of_ne hb']
  · simp [update_of_ne hy.symm]

theorem rbtreeRightRotate_parent_nil {T : Rbtree V} {x : Ptr} (hx : x ≠ T.nil)
    (hy : T.left x ≠ T.nil) : (rbtreeRightRotate T x).parent T.nil = T.parent T.nil := by
  rw [rbtreeRightRotate_eq]
  exact rbtreeLeftRotate_parent_nil (T := T.mirror) hx hy

@[simp] theorem rbtreeRightRotate_nil (T : Rbtree V) (x : Ptr) :
    (rbtreeRightRotate T x).nil = T.nil := by simp [rbtreeRightRotate_eq]
@[simp] theorem rbtreeRightRotate_color (T : Rbtree V) (x : Ptr) :
    (rbtreeRightRotate T x).color = T.color := by simp [rbtreeRightRotate_eq]

namespace At
variable {T T' : Rbtree V} {C C' : CellContext V} {s : CellTree V} {x : Ptr}

/-- The place is kept by whatever keeps the subtree and the parent link of the sentinel. -/
theorem transfer (h : At T C s x) (hf : Focus T' C' s) (hnil : T'.nil = T.nil)
    (hpar : T'.parent T.nil = T.parent T.nil) (hC : holeParent T.nil C' = holeParent T.nil C)
    (hblack : T'.color T'.nil = .BLACK) : At T' C' s x := by
  refine ⟨hf,by rw [hnil]; exact h.here,?_,hblack⟩
  have hx := h.here
  cases s with
  | nil =>
    rw [rootPtr_nil] at hx
    subst hx
    rw [hpar, h.parent, hnil, hC]
  | node c l r =>
    rw [rootPtr_node] at hx
    subst hx
    exact hf.sub.1.parent

end At

section LeftArm
variable {T : Rbtree V} {C : CellContext V} {p w : Cell V} {s wl wr : CellTree V} {x : Ptr} {n d : ℕ}

/-- The RED-sibling case: afterwards the sibling is BLACK and the parent RED, one level deeper. -/
theorem deleteFixup_redSibling (h : At T (⟨.left,p,.node w wl wr⟩::C) s x) :
    let T₁ := T.setColor w.ptr .BLACK
    let T₂ := T₁.setColor p.ptr .RED
    At (rbtreeLeftRotate T₂ p.ptr)
      (⟨.left,{ p with color := .RED },wl⟩::⟨.left,{ w with color := .BLACK },wr⟩::C) s x := by
  intro T₁ T₂
  have hf := h.focus
  have hpn : p.ptr ≠ T.nil := hf.stores_frame.ne_nil
  have hwn : w.ptr ≠ T.nil := (focus_left.mp hf).sub.2.2.1.ne_nil
  have h₁ := focus_right.mp ((focus_right.mpr (focus_left.mp hf)).setColor .BLACK)
  have h₂ : Focus T₂ C (.node { p with color := .RED } s (.node { w with color := .BLACK } wl wr)) :=
    h₁.setColor .RED
  have h₃ := h₂.leftRotate
  have hright : T₂.right p.ptr = w.ptr := h₂.sub.1.right
  refine h.transfer (focus_left.mpr (focus_left.mpr h₃)) (by simp [T₂,T₁]) ?_ rfl ?_
  · exact rbtreeLeftRotate_parent_nil (T := T₂) hpn (by rw [hright]; exact hwn)
  · simp [T₂,T₁,update_of_ne hpn.symm,update_of_ne hwn.symm,h.nil_black]

/-- With a RED near nephew: afterwards it is the sibling, and the far nephew is RED. -/
theorem deleteFixup_redNephew {a : Cell V} {al ar : CellTree V}
    (h : At T (⟨.left,p,.node w (.node a al ar) wr⟩::C) s x) :
    let T₁ := T.setColor a.ptr .BLACK
    let T₂ := T₁.setColor w.ptr .RED
    At (rbtreeRightRotate T₂ w.ptr) (⟨.left,p,.node { a with color := .BLACK } al
      (.node { w with color := .RED } ar wr)⟩::C) s x := by
  intro T₁ T₂
  have h₁ := focus_right.mpr (focus_left.mp h.focus)
  have hleft : T.left w.ptr = a.ptr := h₁.sub.1.left
  have han : a.ptr ≠ T.nil := h₁.sub.2.1.1.ne_nil
  have hwn : w.ptr ≠ T.nil := h₁.sub.1.ne_nil
  have h₂ := focus_left.mp ((focus_left.mpr h₁).setColor .BLACK)
  have h₃ := (h₂.setColor .RED).rightRotate
  refine h.transfer (focus_left.mpr (focus_right.mp h₃)) (by simp [T₂,T₁]) ?_ rfl ?_
  · exact rbtreeRightRotate_parent_nil (T := T₂) hwn (by simpa [T₂,T₁,hleft] using han)
  · simp [T₂,T₁,update_of_ne han.symm,update_of_ne hwn.symm,h.nil_black]

/-- The last recolourings and the rotation at the parent, with a RED far nephew. -/
theorem deleteFixup_last {b : Cell V} {bl br : CellTree V} {i : Color}
    (h : At T (⟨.left,p,.node w wl (.node b bl br)⟩::C) s x) (hs : RB .BLACK n s)
    (hwl : RB i n wl) (hbl : RB .BLACK n bl) (hbr : RB .BLACK n br)
    (hE : Expects C p.color (n+1+blacks p.color)) :
    let T₁ := T.setColor w.ptr (T.color (T.parent x))
    let T₂ := T₁.setColor (T₁.parent x) .BLACK
    let T₃ := T₂.setColor (T₂.right w.ptr) .BLACK
    let T₄ := rbtreeLeftRotate T₃ (T₃.parent x)
    DeletePass T.nil d
      (entries (plug (⟨.left,p,.node w wl (.node b bl br)⟩::C) s)) (T₄,T₄.root) := by
  intro T₁ T₂ T₃ T₄
  have hf := h.focus
  have hxp : T.parent x = p.ptr := h.parent
  have hpc : T.color p.ptr = p.color := hf.stores_frame.color
  have hpn : p.ptr ≠ T.nil := hf.stores_frame.ne_nil
  have hw := (focus_left.mp hf).sub.2.2.1
  have hbn : b.ptr ≠ T.nil := (focus_left.mp hf).sub.2.2.2.2.1.ne_nil
  have h₁ := focus_right.mp ((focus_right.mpr (focus_left.mp hf)).setColor p.color)
  have h₂ := h₁.setColor .BLACK
  have h₃ := focus_right.mp (focus_right.mp ((focus_right.mpr (focus_right.mpr h₂)).setColor .BLACK))
  have hT₃ : T₃ = ((T.setColor w.ptr p.color).setColor p.ptr .BLACK).setColor b.ptr .BLACK := by
    have hwb : T.right w.ptr = b.ptr := hw.right
    simp [T₃,T₂,T₁,hxp,hpc,hwb]
  have hpar : T₃.parent x = p.ptr := by simp [T₃,T₂,T₁,hxp]
  have h₄ := h₃.leftRotate
  rw [← hT₃] at h₄
  have hT₄ : T₄ = rbtreeLeftRotate T₃ p.ptr := by simp only [T₄,hpar]
  rw [← show T₄ = _ from hT₄] at h₄
  have hrb : RB p.color (n+1+blacks p.color) (.node { w with color := p.color }
      (.node { p with color := .BLACK } s wl) (.node { b with color := .BLACK } bl br)) :=
    rb_node.mpr ⟨rfl,n+1,_,_,rfl,RB.black rfl hs hwl,RB.black rfl hbl hbr,fun _ => ⟨rfl,rfl⟩⟩
  obtain ⟨N,hN⟩ := rb_plug.mpr ⟨_,_,hrb,hE⟩
  refine .done ?_ ?_ (represents_plug.mpr h₄) hN rfl ?_
  · simp [T₄,T₃,T₂,T₁]
  · simp [T₄,hT₃,update_of_ne hw.ne_nil.symm,update_of_ne hpn.symm,update_of_ne hbn.symm,h.nil_black]
  · rw [plug_cons]
    apply entries_plug
    simp

/-- The left arm once the sibling is BLACK. -/
theorem deleteFixupLeftTail_spec {i j : Color} (h : At T (⟨.left,p,.node w wl wr⟩::C) s x)
    (hs : RB .BLACK n s) (hwl : RB i n wl) (hwr : RB j n wr)
    (hE : Expects C p.color (n+1+blacks p.color)) (hd : p.color = .RED ∨ C.length < d) :
    DeletePass T.nil d
      (entries (plug (⟨.left,p,.node w wl wr⟩::C) s)) (deleteFixupLeftTail T x w.ptr) := by
  have hf := h.focus
  have hxp : T.parent x = p.ptr := h.parent
  have hwT := (focus_left.mp hf).sub.2.2
  have hci : T.color (T.left w.ptr) = i := by
    rw [hwT.1.left, hwT.2.1.color_root h.nil_black]; exact hwl.color
  have hcj : T.color (T.right w.ptr) = j := by
    rw [hwT.1.right, hwT.2.2.color_root h.nil_black]; exact hwr.color
  unfold deleteFixupLeftTail
  rw [hci,hcj]
  cases j with
  | BLACK =>
    cases i with
    | BLACK =>
      -- both nephews BLACK: the sibling turns RED and the parent is one BLACK node short
      rw [if_pos ⟨rfl,rfl⟩]
      have h₁ := focus_right.mp ((focus_right.mpr (focus_left.mp hf)).setColor .RED)
      refine .climb rfl ⟨h₁,?_,?_,?_⟩ ?_ ?_ ?_
      · exact hxp
      · change T.parent (T.parent x) = _
        rw [hxp]
        exact h₁.sub.1.parent
      · exact (setColor_nil hwT.1.ne_nil).trans h.nil_black
      · cases hp : p.color with
        | RED =>
          rw [hp] at hE
          exact .inr ⟨hp,n+1,RB.black rfl hs (RB.red rfl hwl hwr),hE.black⟩
        | BLACK =>
          rw [hp] at hE
          exact .inl ⟨n+1,RB.black hp hs (RB.red rfl hwl hwr),hE⟩
      · exact hd
      · rw [plug_cons]
        apply entries_plug
        simp
    | RED =>
      rw [if_neg (by simp), if_pos rfl]
      obtain ⟨a,al,ar,rfl,-,hal,har⟩ := hwl.of_red
      have hleft : T.left w.ptr = a.ptr := hwT.1.left
      have h₄ := deleteFixup_redNephew h
      dsimp only at h₄
      set T₂ := (T.setColor a.ptr .BLACK).setColor w.ptr .RED with hT₂
      have hlast := deleteFixup_last (d := d) h₄ hs hal har hwr hE
      have hpar : (rbtreeRightRotate T₂ w.ptr).parent x = p.ptr := h₄.parent
      have hsib : (rbtreeRightRotate T₂ w.ptr).right p.ptr = a.ptr := h₄.focus.stores_frame.right
      simp only [hleft, ← hT₂, hpar, hsib] at hlast ⊢
      have hsame : entries (plug (⟨.left,p,.node { a with color := .BLACK } al
          (.node { w with color := .RED } ar wr)⟩::C) s) =
          entries (plug (⟨.left,p,.node w (.node a al ar) wr⟩::C) s) := by
        rw [plug_cons,plug_cons]
        apply entries_plug
        simp
      rw [hsame] at hlast
      simpa [T₂] using hlast
  | RED =>
    rw [if_neg (by simp), if_neg (by simp)]
    obtain ⟨b,bl,br,rfl,-,hbl,hbr⟩ := hwr.of_red
    exact deleteFixup_last h hs hwl hbl hbr hE

theorem deleteFixupLeftArm_spec {w : CellTree V} (h : At T (⟨.left,p,w⟩::C) s x)
    (hs : RB .BLACK n s) (hE : Expects (⟨.left,p,w⟩::C) .BLACK (n+1)) :
    DeletePass T.nil (C.length+1) (entries (plug (⟨.left,p,w⟩::C) s)) (deleteFixupLeftArm T x) := by
  obtain ⟨⟨k,hw,hk⟩,hE⟩ := hE
  have hxp : T.parent x = p.ptr := h.parent
  have hpw : T.right p.ptr = rootPtr T.nil w := h.focus.stores_frame.right
  have hcw : T.color (rootPtr T.nil w) = k :=
    ((focus_fill.mp h.focus).sub.2.2.color_root h.nil_black).trans hw.color
  unfold deleteFixupLeftArm
  simp only [hxp,hpw,hcw]
  cases k with
  | BLACK =>
    obtain ⟨c,wl,wr,i,j,rfl,-,hwl,hwr⟩ := hw.of_black_succ
    rw [if_neg (by simp)]
    exact deleteFixupLeftTail_spec h hs hwl hwr hE (.inr (Nat.lt_succ_self _))
  | RED =>
    obtain ⟨c,wl,wr,rfl,-,hwl,hwr⟩ := hw.of_red
    have hp : p.color = .BLACK := by
      cases hp : p.color with
      | RED => exact absurd (hk hp).2 (by simp)
      | BLACK => rfl
    rw [hp] at hE
    obtain ⟨b,bl,br,i,j,rfl,-,hbl,hbr⟩ := hwl.of_black_succ
    have h₁ := deleteFixup_redSibling h
    have hE₁ : Expects (⟨.left,{ c with color := .BLACK },wr⟩::C) .RED (n+1) := by
      refine ⟨⟨.BLACK,hwr,by simp⟩,hE⟩
    have htail := deleteFixupLeftTail_spec (d := C.length+1) h₁ hs hbl hbr hE₁ (.inl rfl)
    have hpar := h₁.parent
    have hsib := h₁.focus.stores_frame.right
    simp only [rootPtr_node, if_pos, Rbtree.setColor, hxp, holeParent_cons] at htail hpar hsib ⊢
    rw [hpar,hsib]
    have hsame : entries (plug (⟨.left,{ p with color := .RED },.node b bl br⟩::
        ⟨.left,{ c with color := .BLACK },wr⟩::C) s) =
        entries (plug (⟨.left,p,.node c (.node b bl br) wr⟩::C) s) := by
      simp only [plug_cons]
      apply entries_plug
      simp
    rw [hsame] at htail
    simpa using htail

end LeftArm

/-! The other arm is the same code on the mirrored heap. -/

theorem deleteFixupRightTail_eq (T : Rbtree V) (x w : Ptr) :
    deleteFixupRightTail T x w =
      ((deleteFixupLeftTail T.mirror x w).1.mirror,(deleteFixupLeftTail T.mirror x w).2) := by
  unfold deleteFixupLeftTail deleteFixupRightTail
  by_cases hw : T.color (T.left w) = .BLACK ∧ T.color (T.right w) = .BLACK
  · simp only [Rbtree.mirror_color, Rbtree.mirror_left, Rbtree.mirror_right, hw, and_self, if_true,
      setColor_mirror, Rbtree.mirror_mirror, Rbtree.mirror_parent]
  · have hw' : ¬ (T.color (T.right w) = .BLACK ∧ T.color (T.left w) = .BLACK) := fun h => hw h.symm
    simp only [Rbtree.mirror_color, Rbtree.mirror_left, Rbtree.mirror_right, hw, hw', if_false]
    by_cases hl : T.color (T.left w) = .BLACK
    · simp only [hl, if_true, rbtreeLeftRotate_mirror, rbtreeRightRotate_mirror, setColor_mirror,
        Rbtree.mirror_parent, Rbtree.mirror_color, Rbtree.mirror_right, Rbtree.mirror_mirror,
        Rbtree.mirror_root]
    · simp only [hl, if_false, rbtreeLeftRotate_mirror, setColor_mirror, Rbtree.mirror_parent,
        Rbtree.mirror_color, Rbtree.mirror_right, Rbtree.mirror_mirror, Rbtree.mirror_root]

theorem deleteFixupRightArm_eq (T : Rbtree V) (x : Ptr) :
    deleteFixupRightArm T x =
      ((deleteFixupLeftArm T.mirror x).1.mirror,(deleteFixupLeftArm T.mirror x).2) := by
  unfold deleteFixupLeftArm deleteFixupRightArm
  by_cases hw : T.color (T.left (T.parent x)) = .RED
  · simp only [Rbtree.mirror_color, Rbtree.mirror_right, Rbtree.mirror_parent, hw, if_true,
      deleteFixupRightTail_eq, rbtreeLeftRotate_mirror, setColor_mirror]
  · simp only [Rbtree.mirror_color, Rbtree.mirror_right, Rbtree.mirror_parent, hw, if_false,
      deleteFixupRightTail_eq]

theorem Lacking.mirror {C : CellContext V} {s : CellTree V} (h : Lacking C s) :
    Lacking (C.map Frame.mirror) (mirrorTree s) := by
  obtain ⟨n,hs,hC⟩ | ⟨hred,n,hs,hC⟩ := h
  · exact .inl ⟨n,hs.mirror,hC.mirror⟩
  · refine .inr ⟨by simpa using hred,n,?_,hC.mirror⟩
    have hm : blacken (mirrorTree s) = mirrorTree (blacken s) := by cases s <;> rfl
    rw [hm]
    exact hs.mirror

theorem At.mirror {T : Rbtree V} {C : CellContext V} {s : CellTree V} {x : Ptr} (h : At T C s x) :
    At T.mirror (C.map Frame.mirror) (mirrorTree s) x :=
  ⟨h.focus.mirror,by simpa using h.here,by simpa using h.parent,h.nil_black⟩

theorem At.of_mirror {T : Rbtree V} {C : CellContext V} {s : CellTree V} {x : Ptr}
    (h : At T.mirror (C.map Frame.mirror) (mirrorTree s) x) : At T C s x :=
  ⟨Focus.of_mirror h.focus,by simpa using h.here,by simpa using h.parent,h.nil_black⟩

section RightPlaces
variable {T : Rbtree V} {C : CellContext V} {p w a : Cell V} {s wl wr al ar : CellTree V} {x : Ptr}

theorem deleteFixup_redSibling_right (h : At T (⟨.right,p,.node w wl wr⟩::C) s x) :
    let T₁ := T.setColor w.ptr .BLACK
    let T₂ := T₁.setColor p.ptr .RED
    At (rbtreeRightRotate T₂ p.ptr)
      (⟨.right,{ p with color := .RED },wr⟩::⟨.right,{ w with color := .BLACK },wl⟩::C) s x := by
  have hm : At T.mirror (⟨.left,p,.node w (mirrorTree wr) (mirrorTree wl)⟩::C.map Frame.mirror)
      (mirrorTree s) x := h.mirror
  have hr := deleteFixup_redSibling hm
  simp only [setColor_mirror, rbtreeLeftRotate_mirror] at hr
  exact At.of_mirror hr

theorem deleteFixup_redNephew_right (h : At T (⟨.right,p,.node w wl (.node a al ar)⟩::C) s x) :
    let T₁ := T.setColor a.ptr .BLACK
    let T₂ := T₁.setColor w.ptr .RED
    At (rbtreeLeftRotate T₂ w.ptr) (⟨.right,p,.node { a with color := .BLACK }
      (.node { w with color := .RED } wl al) ar⟩::C) s x := by
  have hm : At T.mirror (⟨.left,p,.node w (.node a (mirrorTree ar) (mirrorTree al)) (mirrorTree wl)⟩::
      C.map Frame.mirror) (mirrorTree s) x := h.mirror
  have hr := deleteFixup_redNephew hm
  simp only [setColor_mirror, rbtreeRightRotate_mirror] at hr
  exact At.of_mirror hr

end RightPlaces

theorem DeletePass.of_mirror {nil : Ptr} {d : ℕ} {e : List (Ptr × ℤ × V)} {s : Rbtree V × Ptr}
    (h : DeletePass nil d e.reverse s) : DeletePass nil d e (s.1.mirror,s.2) := by
  cases h with
  | @climb T x C s hnil place lacking less same =>
    refine .climb hnil place.mirror lacking.mirror (by simpa using less) ?_
    rw [← mirrorTree_plug, entries_mirrorTree, same, List.reverse_reverse]
  | @done T x t N hnil hblack holds rb hroot same =>
    refine .done hnil hblack (t := mirrorTree t) holds.mirror rb.mirror hroot ?_
    rw [entries_mirrorTree, same, List.reverse_reverse]

section Loop
variable {T : Rbtree V} {C : CellContext V} {s : CellTree V} {x : Ptr} {n : ℕ}

/-- The test on the child link finds the side, even if the place is nil. -/
theorem At.left_iff {f : Frame (Cell V)} (h : At T (f::C) s x) (hE : Expects (f::C) .BLACK (n+1)) :
    x = T.left (T.parent x) ↔ f.side = .left := by
  obtain ⟨side,p,w⟩ := f
  rw [show T.parent x = p.ptr from h.parent]
  cases side with
  | left => exact iff_of_true (h.here.trans (h.focus.stores_frame.left).symm) rfl
  | right =>
    refine iff_of_false ?_ nofun
    rw [h.here, show T.left p.ptr = rootPtr T.nil w from h.focus.stores_frame.left]
    cases hs' : s with
    | nil =>
      obtain ⟨⟨k,hw,-⟩,-⟩ := hE
      cases w with
      | nil => exact absurd hw.height (by simp [BlackHeight])
      | node c l r => exact (focus_right.mp h.focus).sub.2.1.1.ne_nil.symm
    | node c l r =>
      have hf := h.focus
      rw [hs'] at hf
      exact hf.root_ne_sibling

theorem deleteFixupPass_spec {f : Frame (Cell V)} (h : At T (f::C) s x) (hs : RB .BLACK n s)
    (hE : Expects (f::C) .BLACK (n+1)) :
    DeletePass T.nil (C.length+1) (entries (plug (f::C) s)) (deleteFixupPass (T,x)) := by
  have hside := h.left_iff hE
  obtain ⟨side,p,w⟩ := f
  unfold deleteFixupPass
  cases side with
  | left =>
    rw [if_pos (hside.mpr rfl)]
    exact deleteFixupLeftArm_spec h hs hE
  | right =>
    have hne : ¬ x = T.left (T.parent x) := fun hx => nomatch hside.mp hx
    rw [if_neg hne, deleteFixupRightArm_eq]
    apply DeletePass.of_mirror
    have hm := deleteFixupLeftArm_spec h.mirror hs.mirror hE.mirror
    rw [← entries_mirrorTree, mirrorTree_plug]
    simpa using hm

theorem LinkedContext.root_mem {hole : Ptr} (h : LinkedContext T hole C) (hC : C ≠ []) :
    T.root ∈ contextPtrs C := by
  induction C generalizing hole with
  | nil => contradiction
  | cons f C ih =>
    obtain ⟨side,c,t⟩ := f
    have hrest : LinkedContext T c.ptr C := by cases side <;> exact h.2.2
    cases C with
    | nil => simp [show T.root = c.ptr from hrest]
    | cons g C =>
      have hmem := ih hrest (by simp)
      rw [contextPtrs_cons]
      exact List.mem_cons_of_mem _ (List.mem_append_right _ hmem)

/-- The place is the root of the tree exactly when nothing is above it. -/
theorem At.root_iff (h : At T C s x) : x = T.root ↔ C = [] := by
  constructor
  · intro hx
    by_contra hne
    have hmem := h.focus.context.root_mem hne
    rw [← hx, h.here] at hmem
    cases s with
    | nil => exact h.focus.context.ne_nil hmem rfl
    | node c l r => exact h.focus.ne_of_mem (by simp) hmem rfl
  · rintro rfl
    exact h.here.trans (show T.root = rootPtr T.nil s from h.focus.context).symm

theorem setColor_self {k : Color} (h : T.color x = k) : T.setColor x k = T := by
  subst h
  simp only [Rbtree.setColor, update_eq_self]

/-- Making a node BLACK leaves nil BLACK. -/
theorem setColor_nil_black (h : T.color T.nil = .BLACK) :
    (T.setColor x .BLACK).color (T.setColor x .BLACK).nil = .BLACK := by
  simp only [Rbtree.setColor, update_apply]
  split_ifs
  · rfl
  · exact h

/-- Leaving the loop: making the place BLACK repairs the tree. -/
theorem deleteFixup_exit (h : At T C s x) (hl : Lacking C s) (hx : C = [] ∨ rootColor s = .RED) :
    Focus (T.setColor x .BLACK) C (blacken s) ∧ ∃ N, RB .BLACK N (plug C (blacken s)) := by
  constructor
  · have hx := h.here
    cases s with
    | nil =>
      rw [setColor_self (by rw [hx]; exact h.nil_black)]
      exact h.focus
    | node c l r =>
      rw [hx]
      exact h.focus.setColor .BLACK
  · obtain ⟨n,hs,hC⟩ | ⟨-,n,hs,hC⟩ := hl
    · obtain rfl | hred := hx
      · exact ⟨n,by rwa [blacken_of_black hs.color]⟩
      · exact absurd (hs.color.symm.trans hred) (by simp)
    · exact rb_plug.mpr ⟨_,n,hs,hC⟩

/-- The loop goes on: there is a parent, and the place is one BLACK node short. -/
theorem At.below (h : At T C s x) (hl : Lacking C s) (hcond : x ≠ T.root ∧ T.color x = .BLACK) :
    ∃ f C' n, C = f::C' ∧ RB .BLACK n s ∧ Expects C .BLACK (n+1) := by
  have hcolor : rootColor s = .BLACK := by
    rw [← hcond.2, h.here, h.focus.sub.color_root h.nil_black]
  obtain ⟨n,hs,hE⟩ | ⟨hred,-⟩ := hl
  · cases C with
    | nil => exact absurd (h.root_iff.mpr rfl) hcond.1
    | cons f C => exact ⟨f,C,n,rfl,hs,hE⟩
  · cases hcolor.symm.trans hred

/-- The state before a test of the loop, unless the loop is done. -/
inductive DeleteHead : Rbtree V × Ptr → Prop
  | intro {T : Rbtree V} {C : CellContext V} {s : CellTree V} {x : Ptr} (place : At T C s x)
      (lacking : Lacking C s) : DeleteHead (T,x)

theorem DeleteHead.below (h : DeleteHead (T,x)) (hcond : x ≠ T.root ∧ T.color x = .BLACK) :
    ∃ f C s n, At T (f::C) s x ∧ RB .BLACK n s ∧ Expects (f::C) .BLACK (n+1) := by
  obtain ⟨place,lacking⟩ := h
  obtain ⟨f,C,n,rfl,hs,hE⟩ := place.below lacking hcond
  exact ⟨f,C,_,n,place,hs,hE⟩

/-- A pass leads to the next test, or to one that fails. -/
theorem deleteFixupPass_head {f : Frame (Cell V)} (h : At T (f::C) s x) (hs : RB .BLACK n s)
    (hE : Expects (f::C) .BLACK (n+1)) : DeleteHead (deleteFixupPass (T,x)) ∨
      (deleteFixupPass (T,x)).2 = (deleteFixupPass (T,x)).1.root := by
  have hpass := deleteFixupPass_spec h hs hE
  generalize deleteFixupPass (T,x) = r at hpass
  cases hpass with
  | climb hnil place lacking less same => exact .inl (.intro place lacking)
  | done hnil hblack holds rb hroot same => exact .inr hroot

theorem deleteFixup_loop (d : ℕ) : ∀ {T : Rbtree V} {C : CellContext V} {s : CellTree V} {x : Ptr},
    At T C s x → Lacking C s → (rootColor s = .RED ∨ C.length < d) →
    ∃ T' x' t N, Returns (fun m => whileLoop (fun s : Rbtree V × Ptr => s.2 ≠ s.1.root ∧
        s.1.color s.2 = .BLACK) deleteFixupPass m (T,x)) (T',x') ∧ T'.nil = T.nil ∧
      T'.color T'.nil = .BLACK ∧ Represents (T'.setColor x' .BLACK) t ∧ RB .BLACK N t ∧
      entries t = entries (plug C s) := by
  induction d with
  | zero =>
    intro T C s x h hl hd
    have hred : rootColor s = .RED := by simpa using hd
    obtain ⟨hf,N,hN⟩ := deleteFixup_exit h hl (.inr hred)
    refine ⟨T,x,_,N,while_exit ?_,rfl,h.nil_black,represents_plug.mpr hf,hN,entries_plug (by simp)⟩
    simp [h.here,h.focus.sub.color_root h.nil_black,hred]
  | succ d ih =>
    intro T C s x h hl hd
    by_cases hexit : C = [] ∨ rootColor s = .RED
    · obtain ⟨hf,N,hN⟩ := deleteFixup_exit h hl hexit
      refine ⟨T,x,_,N,while_exit ?_,rfl,h.nil_black,represents_plug.mpr hf,hN,entries_plug (by simp)⟩
      rintro ⟨hroot,hblack⟩
      obtain hC | hred := hexit
      · exact hroot (h.root_iff.mpr hC)
      · rw [h.here, h.focus.sub.color_root h.nil_black, hred] at hblack
        exact absurd hblack (by simp)
    · obtain ⟨hC,hred⟩ := not_or.mp hexit
      have hcond : x ≠ T.root ∧ T.color x = .BLACK := by
        refine ⟨fun hx => hC (h.root_iff.mp hx),?_⟩
        rw [h.here, h.focus.sub.color_root h.nil_black]
        cases hs : rootColor s with
        | RED => exact absurd hs hred
        | BLACK => rfl
      obtain ⟨f,C,n,rfl,hs,hE⟩ := h.below hl hcond
      have hpass := deleteFixupPass_spec h hs hE
      have hlen : C.length+1 < d+1 := by simpa [hred] using hd
      generalize hr : deleteFixupPass (T,x) = r at hpass
      cases hpass with
      | @climb T₁ x₁ C₁ s₁ hnil place lacking less same =>
        have hless : rootColor s₁ = .RED ∨ C₁.length < d := less.imp_right fun h => by omega
        obtain ⟨T',x',t,N,hret,hnil',hblack',hrep,hN,hsame⟩ := ih place lacking hless
        refine ⟨T',x',t,N,while_pass hcond ?_,hnil'.trans hnil,hblack',hrep,hN,hsame.trans same⟩
        rw [hr]
        exact hret
      | @done T₁ x₁ t N hnil hblack holds rb hroot same =>
        subst hroot
        refine ⟨T₁,T₁.root,t,N,while_pass hcond ?_,hnil,hblack,?_,rb,same⟩
        · rw [hr]
          exact while_exit (by simp)
        · have hf : Focus T₁ [] t := holds
          have hroot : T₁.root = rootPtr T₁.nil t := hf.context
          rw [setColor_self (by rw [hroot, hf.sub.color_root hblack]; exact rb.color)]
          exact holds

/-- `rbtree_delete_fixup` ends, and what it leaves is a red-black tree with the same entries. -/
theorem rbtreeDeleteFixup_spec (h : At T C s x) (hl : Lacking C s) :
    ∃ T' t N, Returns (fun m => rbtreeDeleteFixup m T x) T' ∧ T'.nil = T.nil ∧
      T'.color T'.nil = .BLACK ∧ Represents T' t ∧ RB .BLACK N t ∧
      entries t = entries (plug C s) := by
  obtain ⟨T',x',t,N,hret,hnil,hblack,hrep,hN,hsame⟩ :=
    deleteFixup_loop (C.length+1) h hl (.inr (Nat.lt_succ_self _))
  exact ⟨T'.setColor x' .BLACK,t,N,Returns.map (fun s : Rbtree V × Ptr => s.1.setColor s.2 .BLACK) hret,
    hnil,setColor_nil_black hblack,hrep,hN,hsame⟩

end Loop
end ServerKit.RbTree
