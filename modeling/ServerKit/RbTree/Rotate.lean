import ServerKit.RbTree.Shape

/-! Rotations: what the six writes do to the tree that the heap holds. -/
namespace ServerKit.RbTree
open Function BinaryTree ServerKit.Lib

variable {V : Type*} {T : Rbtree V} {C : CellContext V} {x y : Cell V} {a b c : CellTree V}

/-- The heap in the middle of a left rotation, before `y` is hung where `x` was. -/
def leftRotateStart (T : Rbtree V) (x : Ptr) : Rbtree V :=
  let y := T.right x
  let T₁ := T.setRight x (T.left y)
  let T₂ := if T₁.left y ≠ T₁.nil then T₁.setParent (T₁.left y) x else T₁
  T₂.setParent y (T₂.parent x)

theorem rbtreeLeftRotate_eq (T : Rbtree V) (x : Ptr) :
    rbtreeLeftRotate T x =
      ((rehang (leftRotateStart T x) ((leftRotateStart T x).parent x) x (T.right x)).setLeft
        (T.right x) x).setParent x (T.right x) := rfl

section Start
variable (T : Rbtree V) (x : Ptr)

@[simp] theorem leftRotateStart_nil : (leftRotateStart T x).nil = T.nil := by
  simp only [leftRotateStart]; split_ifs <;> rfl
@[simp] theorem leftRotateStart_root : (leftRotateStart T x).root = T.root := by
  simp only [leftRotateStart]; split_ifs <;> rfl
@[simp] theorem leftRotateStart_color : (leftRotateStart T x).color = T.color := by
  simp only [leftRotateStart]; split_ifs <;> rfl
@[simp] theorem leftRotateStart_key : (leftRotateStart T x).key = T.key := by
  simp only [leftRotateStart]; split_ifs <;> rfl
@[simp] theorem leftRotateStart_value : (leftRotateStart T x).value = T.value := by
  simp only [leftRotateStart]; split_ifs <;> rfl
@[simp] theorem leftRotateStart_left : (leftRotateStart T x).left = T.left := by
  simp only [leftRotateStart]; split_ifs <;> rfl
@[simp] theorem leftRotateStart_right :
    (leftRotateStart T x).right = update T.right x (T.left (T.right x)) := by
  simp only [leftRotateStart]; split_ifs <;> rfl

theorem leftRotateStart_parent_of_ne {p : Ptr} (hy : p ≠ T.right x) (hb : p ≠ T.left (T.right x)) :
    (leftRotateStart T x).parent p = T.parent p := by
  simp only [leftRotateStart]
  split_ifs <;> simp [update_of_ne hy,update_of_ne hb]

theorem leftRotateStart_parent_top (h : T.left (T.right x) ≠ x) :
    (leftRotateStart T x).parent (T.right x) = T.parent x := by
  simp only [leftRotateStart]
  split_ifs <;> simp [update_of_ne h.symm]

theorem leftRotateStart_parent_inner (h : T.left (T.right x) ≠ T.nil)
    (hy : T.left (T.right x) ≠ T.right x) :
    (leftRotateStart T x).parent (T.left (T.right x)) = x := by
  simp only [leftRotateStart]
  split_ifs with hif
  · simp [update_of_ne hy]
  · exact absurd h (by simpa using hif)

end Start

section Rotate
variable (T : Rbtree V) (p x y : Ptr)

@[simp] theorem rehang_nil : (rehang T p x y).nil = T.nil := by
  unfold rehang; split_ifs <;> rfl
@[simp] theorem rehang_color : (rehang T p x y).color = T.color := by
  unfold rehang; split_ifs <;> rfl
@[simp] theorem rehang_key : (rehang T p x y).key = T.key := by
  unfold rehang; split_ifs <;> rfl
@[simp] theorem rehang_value : (rehang T p x y).value = T.value := by
  unfold rehang; split_ifs <;> rfl

@[simp] theorem rbtreeLeftRotate_nil : (rbtreeLeftRotate T x).nil = T.nil := by
  simp [rbtreeLeftRotate_eq]
@[simp] theorem rbtreeLeftRotate_color : (rbtreeLeftRotate T x).color = T.color := by
  simp [rbtreeLeftRotate_eq]
end Rotate

/-- The subtree between the two nodes does not hang from itself. -/
theorem Focus.inner_ne (h : Focus T C (.node x a (.node y b c))) : x.ptr ≠ y.ptr ∧
    rootPtr T.nil b ≠ x.ptr ∧ rootPtr T.nil b ≠ y.ptr ∧ ∀ p ∈ contextPtrs C, p ≠ rootPtr T.nil b := by
  have hsub := h.nodup_sub
  have hnil := fun p (hp : p ∈ ptrs (.node x a (.node y b c))) => h.sub.ne_nil hp
  have hctx := fun p q (hp : p ∈ ptrs (.node x a (.node y b c))) hq => h.ne_of_mem (q := q) hp hq
  simp only [ptrs_node, List.nodup_append, List.nodup_cons, List.mem_append, List.mem_cons] at hsub hnil hctx
  have hbmem := rootPtr_eq_or_mem T.nil b
  refine ⟨by grind,by grind,by grind,fun p hp => ?_⟩
  have hne := h.context.ne_nil hp
  grind

/-- The ancestors do not notice the first three writes. -/
theorem Focus.leftRotateStart_context (h : Focus T C (.node x a (.node y b c))) :
    LinkedContext (leftRotateStart T x.ptr) x.ptr C ∧
      (leftRotateStart T x.ptr).parent x.ptr = holeParent T.nil C := by
  obtain ⟨hxy,hbx,-,hbC⟩ := h.inner_ne
  have hctx := fun p q (hp : p ∈ ptrs (.node x a (.node y b c))) hq => h.ne_of_mem (q := q) hp hq
  simp only [ptrs_node, List.mem_append, List.mem_cons] at hctx
  obtain ⟨hC,⟨hx,-,hy,-⟩,-⟩ := h
  have hyp : T.right x.ptr = y.ptr := hx.right
  have hbp : T.left y.ptr = rootPtr T.nil b := hy.left
  constructor
  · refine hC.frame (by simp) (by simp) (fun p hp => ?_) fun p hp => ?_
    · have hpx : p ≠ x.ptr := (hctx _ p (by simp) hp).symm
      exact ⟨by simp,by simp,by simp,by simp,by simp [update_of_ne hpx]⟩
    · have hpy : p ≠ y.ptr := (hctx _ p (by simp) hp).symm
      exact leftRotateStart_parent_of_ne _ _ (by rwa [hyp]) (by rw [hyp, hbp]; exact hbC p hp)
  · rw [leftRotateStart_parent_of_ne _ _ (by rwa [hyp]) (by rw [hyp, hbp]; exact hbx.symm)]
    exact hx.parent

/-- The last three writes: one child link, and the two links between the two nodes. -/
theorem Focus.leftRotate_eq (h : Focus T C (.node x a (.node y b c))) : rbtreeLeftRotate T x.ptr =
    ((hang (leftRotateStart T x.ptr) y.ptr C).setLeft y.ptr x.ptr).setParent x.ptr y.ptr := by
  obtain ⟨hC₁,hpx⟩ := h.leftRotateStart_context
  have hx := h.sub.1
  have hyp : T.right x.ptr = y.ptr := hx.right
  have hre := rehang_eq_hang hC₁ (fun hmem => h.ne_of_mem (by simp) hmem rfl)
    (by rw [leftRotateStart_nil]; exact hx.ne_nil) y.ptr
  rw [leftRotateStart_nil] at hre
  rw [rbtreeLeftRotate_eq, hpx, hyp, hre]

/-- A left rotation at the root of the focused subtree. -/
theorem Focus.leftRotate (h : Focus T C (.node x a (.node y b c))) :
    Focus (rbtreeLeftRotate T x.ptr) C (.node y (.node x a b) c) := by
  have hpar := fun p (hp : p ∈ ptrs (.node x a (.node y b c))) => h.ne_holeParent hp
  have hnil := fun p (hp : p ∈ ptrs (.node x a (.node y b c))) => h.sub.ne_nil hp
  have hctx := fun p q (hp : p ∈ ptrs (.node x a (.node y b c))) hq => h.ne_of_mem (q := q) hp hq
  have hsub := h.nodup_sub
  have hnC := h.nodup_context
  obtain ⟨hxy,hbx,hby,-⟩ := h.inner_ne
  obtain ⟨hC₁,-⟩ := h.leftRotateStart_context
  have hrot := h.leftRotate_eq
  obtain ⟨-,⟨hx,ha,hy,hb,hc⟩,hnodup⟩ := h
  simp only [ptrs_node, List.nodup_append, List.nodup_cons, List.mem_append, List.mem_cons]
    at hsub hpar hnil hctx
  have hbp : T.left y.ptr = rootPtr T.nil b := hy.left
  have hyp : T.right x.ptr = y.ptr := hx.right
  have hbmem := rootPtr_eq_or_mem T.nil b
  -- the three intermediate heaps
  set T₁ := leftRotateStart T x.ptr with hT₁
  have hn₁ : T₁.nil = T.nil := by simp [hT₁]
  have hp₁ : ∀ p, p ≠ y.ptr → p ≠ rootPtr T.nil b → T₁.parent p = T.parent p := fun p hp hp' =>
    leftRotateStart_parent_of_ne _ _ (by rwa [hyp]) (by rwa [hyp,hbp])
  have hd₁ : ∀ p, p ≠ x.ptr → SameData T T₁ p := fun p hp =>
    ⟨by simp [hT₁],by simp [hT₁],by simp [hT₁],by simp [hT₁],by simp [hT₁,update_of_ne hp]⟩
  set T₂ := hang T₁ y.ptr C with hT₂
  set T₃ := (T₂.setLeft y.ptr x.ptr).setParent x.ptr y.ptr with hT₃
  rw [hrot]
  have hd₂ : ∀ p, p ≠ holeParent T.nil C → SameData T₁ T₂ p := fun p hp => SameData.hang T₁ hp
  have hd₃ : ∀ p, p ≠ y.ptr → SameData T₂ T₃ p := fun p hp =>
    ⟨rfl,rfl,rfl,by simp [hT₃,update_of_ne hp],rfl⟩
  have hp₂ : T₂.parent = T₁.parent := by simp [hT₂]
  have hp₃ : ∀ p, p ≠ x.ptr → T₃.parent p = T₂.parent p := fun p hp => by simp [hT₃,update_of_ne hp]
  have hn₃ : T₃.nil = T.nil := by simp [hT₃,hT₂,hT₁]
  -- away from `x`, `y` and the parent of `x` nothing but one parent link has changed
  have hd : ∀ p, p ≠ x.ptr → p ≠ y.ptr → p ≠ holeParent T.nil C → SameData T T₃ p :=
    fun p h1 h2 h3 => ((hd₁ p h1).trans (hd₂ p h3)).trans (hd₃ p h2)
  have hp : ∀ p, p ≠ x.ptr → p ≠ y.ptr → p ≠ rootPtr T.nil b → T₃.parent p = T.parent p :=
    fun p h1 h2 h3 => by rw [hp₃ p h1, hp₂, hp₁ p h2 h3]
  refine ⟨?_,⟨?_,⟨?_,?_,?_⟩,?_⟩,?_⟩
  · have h₂ : LinkedContext T₂ y.ptr C := hC₁.hang hnC y.ptr
    exact h₂.frame rfl rfl (fun p h => hd₃ p (hctx _ p (by simp) h).symm)
      (fun p h => hp₃ p (hctx _ p (by simp) h).symm)
  · have hsame := (hd₁ y.ptr hxy.symm).trans (hd₂ y.ptr (hpar _ (by simp)))
    refine ⟨?_,?_,?_,?_,?_,?_,?_⟩
    · rw [hn₃]; exact hy.ne_nil
    · exact hsame.color.trans hy.color
    · exact hsame.key.trans hy.key
    · exact hsame.value.trans hy.value
    · rw [hn₃, hp₃ _ hxy.symm, hp₂, hT₁, ← hyp, leftRotateStart_parent_top _ _ (by rwa [hyp,hbp])]
      exact hx.parent
    · simp [hT₃]
    · rw [hn₃]; exact hsame.right.trans hy.right
  · refine ⟨?_,?_,?_,?_,?_,?_,?_⟩
    · rw [hn₃]; exact hx.ne_nil
    · exact (show T₃.color x.ptr = T.color x.ptr by simp [hT₃,hT₂,hT₁]).trans hx.color
    · exact (show T₃.key x.ptr = T.key x.ptr by simp [hT₃,hT₂,hT₁]).trans hx.key
    · exact (show T₃.value x.ptr = T.value x.ptr by simp [hT₃,hT₂,hT₁]).trans hx.value
    · simp [hT₃]
    · rw [hn₃, (hd₃ _ hxy).left, (hd₂ _ (hpar _ (by simp))).left, hT₁, leftRotateStart_left]
      exact hx.left
    · rw [hn₃, (hd₃ _ hxy).right, (hd₂ _ (hpar _ (by simp))).right, hT₁, leftRotateStart_right, hyp]
      simp [hbp]
  · refine ha.frame hn₃ (fun p h => hd p ?_ ?_ (hpar p (by simp [h]))) (fun p h => hp p ?_ ?_ ?_)
    all_goals grind
  · refine hb.reparent hn₃ (fun p h => hd p ?_ ?_ (hpar p (by simp [h])))
      (fun p h hne => hp p ?_ ?_ hne) (fun hne => ?_) hsub.2.1.2.1
    any_goals grind
    have hmem : rootPtr T.nil b ∈ ptrs b := rootPtr_mem hne
    rw [hp₃ _ hbx, hp₂, hT₁, ← hbp, ← hyp]
    refine leftRotateStart_parent_inner _ _ ?_ ?_
    · rw [hyp,hbp]; exact hnil _ (by simp [hmem])
    · rwa [hyp,hbp]
  · refine hc.frame hn₃ (fun p h => hd p ?_ ?_ (hpar p (by simp [h]))) (fun p h => hp p ?_ ?_ ?_)
    all_goals grind
  · refine (((ptrs_plug C _).trans ?_).nodup_iff).mpr hnodup
    refine List.Perm.trans ?_ (ptrs_plug C _).symm
    simp

/-! The right rotation is the left rotation of the mirrored heap. -/

/-- The same heap with the names of the two child links exchanged. -/
def Rbtree.mirror (T : Rbtree V) : Rbtree V := { T with left := T.right, right := T.left }

@[simp] theorem Rbtree.mirror_mirror (T : Rbtree V) : T.mirror.mirror = T := rfl
@[simp] theorem Rbtree.mirror_nil (T : Rbtree V) : T.mirror.nil = T.nil := rfl
@[simp] theorem Rbtree.mirror_root (T : Rbtree V) : T.mirror.root = T.root := rfl
@[simp] theorem Rbtree.mirror_color (T : Rbtree V) : T.mirror.color = T.color := rfl
@[simp] theorem Rbtree.mirror_parent (T : Rbtree V) : T.mirror.parent = T.parent := rfl
@[simp] theorem Rbtree.mirror_left (T : Rbtree V) : T.mirror.left = T.right := rfl
@[simp] theorem Rbtree.mirror_right (T : Rbtree V) : T.mirror.right = T.left := rfl

theorem rbtreeRightRotate_eq (T : Rbtree V) (y : Ptr) :
    rbtreeRightRotate T y = (rbtreeLeftRotate T.mirror y).mirror := by
  by_cases h : T.right (T.left y) = T.nil
  · simp only [rbtreeRightRotate, rbtreeLeftRotate, Rbtree.setLeft, Rbtree.setRight, Rbtree.setParent,
      Rbtree.mirror, h, ne_eq, not_true, if_false]
    split_ifs <;> rfl
  · simp only [rbtreeRightRotate, rbtreeLeftRotate, Rbtree.setLeft, Rbtree.setRight, Rbtree.setParent,
      Rbtree.mirror, h, ne_eq, not_false_iff, if_true]
    split_ifs <;> rfl

@[simp] theorem rootPtr_mirrorTree (n : Ptr) (t : CellTree V) : rootPtr n (mirrorTree t) = rootPtr n t := by
  cases t <;> rfl

@[simp] theorem holeParent_mirror (n : Ptr) (C : CellContext V) :
    holeParent n (C.map Frame.mirror) = holeParent n C := by
  cases C <;> rfl

theorem Stores.mirror {T : Rbtree V} {c : Cell V} {p l r : Ptr} (h : Stores T c p l r) :
    Stores T.mirror c p r l :=
  ⟨h.ne_nil,h.color,h.key,h.value,h.parent,h.right,h.left⟩

theorem Linked.mirror {T : Rbtree V} {p : Ptr} {t : CellTree V} (h : Linked T p t) :
    Linked T.mirror p (mirrorTree t) := by
  induction t generalizing p with
  | nil => trivial
  | node c l r ihl ihr =>
    obtain ⟨hc,hl,hr⟩ := h
    refine ⟨?_,ihr hr,ihl hl⟩
    simpa using hc.mirror

theorem LinkedContext.mirror {T : Rbtree V} {p : Ptr} {C : CellContext V}
    (h : LinkedContext T p C) : LinkedContext T.mirror p (C.map Frame.mirror) := by
  induction C generalizing p with
  | nil => exact h
  | cons f C ih =>
    obtain ⟨side,c,t⟩ := f
    cases side
    all_goals
      obtain ⟨hc,ht,hC⟩ := h
      refine ⟨?_,ht.mirror,ih hC⟩
      simpa using hc.mirror

theorem Focus.mirror {s : CellTree V} (h : Focus T C s) :
    Focus T.mirror (C.map Frame.mirror) (mirrorTree s) := by
  refine ⟨?_,?_,?_⟩
  · simpa using h.context.mirror
  · simpa using h.sub.mirror
  · have hr := List.nodup_reverse.mpr h.nodup
    rw [← mirrorTree_plug]
    simpa [ptrs,-mirrorTree_plug] using hr

theorem Focus.of_mirror {s : CellTree V} (h : Focus T.mirror (C.map Frame.mirror) (mirrorTree s)) :
    Focus T C s := by
  have hm := h.mirror
  have hC : (C.map Frame.mirror).map Frame.mirror = C := by
    rw [List.map_map]
    refine List.map_id'' (fun f => ?_) C
    obtain ⟨side,c,t⟩ := f
    cases side <;> simp
  rwa [Rbtree.mirror_mirror, hC, mirrorTree_mirrorTree] at hm

/-- A right rotation at the root of the focused subtree. -/
theorem Focus.rightRotate (h : Focus T C (.node y (.node x a b) c)) :
    Focus (rbtreeRightRotate T y.ptr) C (.node x a (.node y b c)) := by
  have hm := h.mirror
  simp only [mirrorTree_node] at hm
  have hr := hm.leftRotate
  rw [rbtreeRightRotate_eq]
  exact Focus.of_mirror hr

end ServerKit.RbTree
