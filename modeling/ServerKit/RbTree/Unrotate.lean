import ServerKit.RbTree.Rotate
import ServerKit.RbTree.Successor

/-! A rotation is undone by the opposite one: afterwards the whole heap is as it was before. -/
namespace ServerKit.RbTree
open Function BinaryTree ServerKit.Lib

variable {V : Type*} {T T' : Rbtree V} {C : CellContext V} {x y : Cell V} {a b c s t : CellTree V}

section Heaps

/-- Two heaps that hold the same tree have the same records for its nodes. -/
theorem Linked.same {p : Ptr} (h : Linked T p t) (h' : Linked T' p t) (hnil : T'.nil = T.nil) :
    ∀ q ∈ ptrs t, SameData T T' q ∧ T'.parent q = T.parent q := by
  induction t generalizing p with
  | nil => exact fun q hq => absurd hq List.not_mem_nil
  | node c l r ihl ihr =>
    obtain ⟨hc,hl,hr⟩ := h
    obtain ⟨hc',hl',hr'⟩ := h'
    intro q hq
    rw [ptrs_node, List.mem_append, List.mem_cons] at hq
    obtain hq | rfl | hq := hq
    · exact ihl hl hl' q hq
    · rw [hnil] at hc'
      refine ⟨⟨?_,?_,?_,?_,?_⟩,hc'.parent.trans hc.parent.symm⟩
      · exact hc'.color.trans hc.color.symm
      · exact hc'.key.trans hc.key.symm
      · exact hc'.value.trans hc.value.symm
      · exact hc'.left.trans hc.left.symm
      · exact hc'.right.trans hc.right.symm
    · exact ihr hr hr' q hq

/-- Two heaps with the same tree that agree everywhere else are equal. -/
theorem Represents.heap_eq (h : Represents T t) (h' : Represents T' t) (hnil : T'.nil = T.nil)
    (hout : ∀ q, q ∉ ptrs t → SameData T T' q ∧ T'.parent q = T.parent q) : T' = T := by
  have hall (q : Ptr) : SameData T T' q ∧ T'.parent q = T.parent q := by
    by_cases hq : q ∈ ptrs t
    · exact h.sub.same (by simpa only [hnil] using h'.sub) hnil q hq
    · exact hout q hq
  have hroot : T'.root = T.root := by
    have hfound : T'.root = rootPtr T'.nil t := h'.context
    have hbefore : T.root = rootPtr T.nil t := h.context
    rw [hfound, hbefore, hnil]
  have hcolor : T'.color = T.color := funext fun q => (hall q).1.color
  have hkey : T'.key = T.key := funext fun q => (hall q).1.key
  have hvalue : T'.value = T.value := funext fun q => (hall q).1.value
  have hleft : T'.left = T.left := funext fun q => (hall q).1.left
  have hright : T'.right = T.right := funext fun q => (hall q).1.right
  have hparent : T'.parent = T.parent := funext fun q => (hall q).2
  cases T
  cases T'
  simp_all

end Heaps

section Undo

/-- A left rotation writes to nodes of the tree only. -/
theorem Focus.leftRotate_frame (h : Focus T C (.node x a (.node y b c))) {q : Ptr}
    (hq : q ∉ ptrs (plug C (.node x a (.node y b c)))) :
    SameData T (rbtreeLeftRotate T x.ptr) q ∧ (rbtreeLeftRotate T x.ptr).parent q = T.parent q := by
  have hyp : T.right x.ptr = y.ptr := h.sub.1.right
  have hbp : T.left y.ptr = rootPtr T.nil b := h.sub.2.2.1.left
  rw [(ptrs_plug C _).mem_iff, List.mem_append, not_or] at hq
  obtain ⟨hsub,hctx⟩ := hq
  simp only [ptrs_node, List.mem_append, List.mem_cons, not_or] at hsub
  obtain ⟨-,hx,hb,hy,-⟩ := hsub
  -- some address that `q` is not stands for the parent of the root
  have hhole : q ≠ holeParent (q+1) C := by
    cases C with
    | nil => exact (Nat.succ_ne_self q).symm
    | cons f C =>
      intro heq
      have hlabel : q = f.label.ptr := heq
      exact hctx (hlabel ▸ List.mem_cons_self)
  have hhang := SameData.hang (leftRotateStart T x.ptr) (y := y.ptr) hhole
  have hdata : SameData T (leftRotateStart T x.ptr) q :=
    ⟨by simp,by simp,by simp,by simp,by simp [update_of_ne hx]⟩
  have hparent : (leftRotateStart T x.ptr).parent q = T.parent q := by
    cases b with
    | nil =>
      have hnil : T.left y.ptr = T.nil := hbp
      simp [leftRotateStart,hyp,hnil,update_of_ne hy]
    | node c' l r =>
      refine leftRotateStart_parent_of_ne T x.ptr (by rwa [hyp]) ?_
      rw [hyp, hbp]
      rintro rfl
      exact hb (by simp)
  rw [h.leftRotate_eq]
  constructor
  · refine (hdata.trans hhang).trans ⟨rfl,rfl,rfl,?_,rfl⟩
    exact update_of_ne hy ..
  · refine (update_of_ne hx ..).trans ?_
    exact (congrFun (hang_parent ..) q).trans hparent

theorem Focus.rightRotate_frame (h : Focus T C (.node y (.node x a b) c)) {q : Ptr}
    (hq : q ∉ ptrs (plug C (.node y (.node x a b) c))) :
    SameData T (rbtreeRightRotate T y.ptr) q ∧ (rbtreeRightRotate T y.ptr).parent q = T.parent q := by
  have hm := h.mirror
  simp only [mirrorTree_node] at hm
  have hout : q ∉ ptrs (plug (C.map Frame.mirror) (.node y (mirrorTree c) (.node x (mirrorTree b)
      (mirrorTree a)))) := by
    have hmirror := mirrorTree_plug C (.node y (.node x a b) c)
    simp only [mirrorTree_node] at hmirror
    rw [← hmirror]
    simpa [ptrs,-mirrorTree_plug] using hq
  obtain ⟨hdata,hparent⟩ := hm.leftRotate_frame hout
  rw [rbtreeRightRotate_eq]
  exact ⟨⟨hdata.color,hdata.key,hdata.value,hdata.right,hdata.left⟩,hparent⟩

theorem Focus.leftRotate_undo (h : Focus T C (.node x a (.node y b c))) :
    rbtreeRightRotate (rbtreeLeftRotate T x.ptr) y.ptr = T := by
  have hback := h.leftRotate.rightRotate
  have hperm : (ptrs (plug C (.node y (.node x a b) c))).Perm
      (ptrs (plug C (.node x a (.node y b c)))) := by
    refine (ptrs_plug C _).trans (List.Perm.trans ?_ (ptrs_plug C _).symm)
    simp
  refine Represents.heap_eq (represents_plug.mpr h) (represents_plug.mpr hback) ?_ fun q hq => ?_
  · rw [rbtreeRightRotate_eq]
    simp
  · obtain ⟨hdata,hparent⟩ := h.leftRotate_frame hq
    obtain ⟨hdata',hparent'⟩ := h.leftRotate.rightRotate_frame (mt hperm.mem_iff.mp hq)
    exact ⟨hdata.trans hdata',hparent'.trans hparent⟩

end Undo

section Results

/-- What a left rotation at `x` does to a heap that holds the tree `t`. -/
structure LeftRotates (T : Rbtree V) (t : CellTree V) (x : Ptr) : Prop where
  linked : ∃ t', Represents (rbtreeLeftRotate T x) t' ∧ inorder t' = inorder t
  color : (rbtreeLeftRotate T x).color = T.color
  undone : rbtreeRightRotate (rbtreeLeftRotate T x) (T.right x) = T

structure RightRotates (T : Rbtree V) (t : CellTree V) (y : Ptr) : Prop where
  linked : ∃ t', Represents (rbtreeRightRotate T y) t' ∧ inorder t' = inorder t
  color : (rbtreeRightRotate T y).color = T.color
  undone : rbtreeLeftRotate (rbtreeRightRotate T y) (T.left y) = T

theorem leftRotates {p : Ptr} (h : Represents T t) (hp : p ∈ ptrs t) (hright : T.right p ≠ T.nil) :
    LeftRotates T t p := by
  obtain ⟨x,hx,rfl⟩ := List.mem_map.mp hp
  obtain ⟨C,a,s,rfl⟩ := exists_focus hx
  have hfocus := represents_plug.mp h
  have hs : T.right x.ptr = rootPtr T.nil s := hfocus.sub.1.right
  cases s with
  | nil => exact absurd hs hright
  | node y b c =>
    refine ⟨⟨_,represents_plug.mpr hfocus.leftRotate,?_⟩,rbtreeLeftRotate_color T x.ptr,?_⟩
    · simp [inorder_plug]
    · rw [hs]
      exact hfocus.leftRotate_undo

/-- A rotation keeps the links, the nodes from left to right and the colors, and the opposite rotation at the
node that has come up makes the heap again what it was. -/
theorem rotate_restores {p : Ptr} (h : Represents T t) (hp : p ∈ ptrs t) :
    (T.right p ≠ T.nil → LeftRotates T t p) ∧ (T.left p ≠ T.nil → RightRotates T t p) := by
  refine ⟨leftRotates h hp,fun hleft => ?_⟩
  have hmem : p ∈ ptrs (mirrorTree t) := by simpa [ptrs] using hp
  have hm : Represents T.mirror (mirrorTree t) := Focus.mirror (C := []) h
  obtain ⟨⟨t',ht',hinorder⟩,hcolor,hundone⟩ := leftRotates hm hmem hleft
  have hright : (rbtreeLeftRotate T.mirror p).mirror = rbtreeRightRotate T p :=
    (rbtreeRightRotate_eq T p).symm
  refine ⟨⟨mirrorTree t',?_,?_⟩,?_,?_⟩
  · rw [← hright]
    exact Focus.mirror (C := []) ht'
  · rw [inorder_mirrorTree, hinorder, inorder_mirrorTree, List.reverse_reverse]
  · rw [← hright]
    exact hcolor
  · rw [rbtreeRightRotate_eq, hright] at hundone
    exact congrArg Rbtree.mirror hundone

theorem rotate_restores_two : LeftRotates twoNodesHeap twoNodes 1 ∧
    ∃ t, RightRotates (rbtreeLeftRotate twoNodesHeap 1) t 2 := by
  have hone : 1 ∈ ptrs twoNodes := by decide
  have hleft := (rotate_restores twoNodes_isRbtree.holds hone).1 (by decide)
  obtain ⟨t,ht,hinorder⟩ := hleft.linked
  have htwo : 2 ∈ ptrs t := by
    rw [ptrs, hinorder]
    decide
  exact ⟨hleft,t,(rotate_restores ht htwo).2 (by decide)⟩

end Results
end ServerKit.RbTree
