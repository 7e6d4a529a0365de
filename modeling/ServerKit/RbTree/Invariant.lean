import ServerKit.RbTree.Rotate

/-! The red-black invariants of a tree of cells, and what a context asks of the subtree in its hole. -/
namespace ServerKit.RbTree
open Function BinaryTree ServerKit.Lib

variable {V : Type*}

def rootColor : CellTree V → Color
  | .nil => .BLACK
  | .node c _ _ => c.color

/-- No RED node has a RED child. -/
def NoRedRed : CellTree V → Prop
  | .nil => True
  | .node c l r => (c.color = .RED → rootColor l = .BLACK ∧ rootColor r = .BLACK) ∧
      NoRedRed l ∧ NoRedRed r

/-- What a node of the colour adds to the black count. -/
def blacks : Color → ℕ
  | .RED => 0
  | .BLACK => 1

/-- Every path down to nil passes `n` BLACK nodes. -/
def BlackHeight : CellTree V → ℕ → Prop
  | .nil,n => n = 0
  | .node c l r,n => ∃ m, n = m+blacks c.color ∧ BlackHeight l m ∧ BlackHeight r m

/-- A red-black subtree with root colour `k` and black height `n`. -/
structure RB (k : Color) (n : ℕ) (t : CellTree V) : Prop where
  color : rootColor t = k
  noRedRed : NoRedRed t
  height : BlackHeight t n

section RB
variable {c : Cell V} {l r t : CellTree V} {j k : Color} {n : ℕ}

theorem RB.nil : RB .BLACK 0 (.nil : CellTree V) := ⟨rfl,trivial,rfl⟩

theorem rb_node : RB k n (.node c l r) ↔ c.color = k ∧ ∃ m i j, n = m+blacks k ∧ RB i m l ∧
    RB j m r ∧ (k = .RED → i = .BLACK ∧ j = .BLACK) := by
  constructor
  · rintro ⟨rfl,⟨hk,hl,hr⟩,m,hn,hm,hm'⟩
    exact ⟨rfl,m,_,_,hn,⟨rfl,hl,hm⟩,⟨rfl,hr,hm'⟩,hk⟩
  · rintro ⟨rfl,m,_,_,hn,⟨rfl,hl,hm⟩,⟨rfl,hr,hm'⟩,hk⟩
    exact ⟨rfl,⟨hk,hl,hr⟩,m,hn,hm,hm'⟩

theorem RB.red (hc : c.color = .RED) (hl : RB .BLACK n l) (hr : RB .BLACK n r) :
    RB .RED n (.node c l r) := rb_node.mpr ⟨hc,n,_,_,rfl,hl,hr,fun _ => ⟨rfl,rfl⟩⟩

theorem RB.black (hc : c.color = .BLACK) (hl : RB j n l) (hr : RB k n r) :
    RB .BLACK (n+1) (.node c l r) := rb_node.mpr ⟨hc,n,_,_,rfl,hl,hr,by simp⟩

/-- A subtree with a RED root is a node over two BLACK subtrees. -/
theorem RB.of_red (h : RB .RED n t) :
    ∃ c l r, t = .node c l r ∧ c.color = .RED ∧ RB .BLACK n l ∧ RB .BLACK n r := by
  cases t with
  | nil => exact absurd h.color (by simp [rootColor])
  | node c l r =>
    obtain ⟨hc,m,i,j,hn,hl,hr,hk⟩ := rb_node.mp h
    obtain ⟨rfl,rfl⟩ := hk rfl
    obtain rfl : n = m := hn
    exact ⟨c,l,r,rfl,hc,hl,hr⟩

/-- A subtree with a BLACK node on every path has a root. -/
theorem RB.of_black_succ (h : RB .BLACK (n+1) t) :
    ∃ c l r i j, t = .node c l r ∧ c.color = .BLACK ∧ RB i n l ∧ RB j n r := by
  cases t with
  | nil => exact absurd h.height (by simp [BlackHeight])
  | node c l r =>
    obtain ⟨hc,m,i,j,hn,hl,hr,-⟩ := rb_node.mp h
    obtain rfl : n = m := by simpa [blacks] using hn
    exact ⟨c,l,r,i,j,rfl,hc,hl,hr⟩

end RB

/-- The root of the tree made BLACK. -/
def blacken : CellTree V → CellTree V
  | .nil => .nil
  | .node c l r => .node { c with color := .BLACK } l r

theorem RB.blacken_red {n : ℕ} {t : CellTree V} (h : RB .RED n t) : RB .BLACK (n+1) (blacken t) := by
  obtain ⟨c,l,r,rfl,-,hl,hr⟩ := h.of_red
  exact RB.black rfl hl hr

theorem blacken_of_black {t : CellTree V} (h : rootColor t = .BLACK) : blacken t = t := by
  cases t with
  | nil => rfl
  | node c l r =>
    obtain ⟨p,k,q,v⟩ := c
    obtain rfl : k = .BLACK := h
    rfl

/-- The context turns any red-black subtree with root colour `k` and black height `n` into a
red-black tree with a BLACK root. -/
def Expects : CellContext V → Color → ℕ → Prop
  | [],k,_ => k = .BLACK
  | f::C,k,n => (∃ j, RB j n f.sibling ∧ (f.label.color = .RED → k = .BLACK ∧ j = .BLACK)) ∧
      Expects C f.label.color (n+blacks f.label.color)

theorem Expects.black {C : CellContext V} {n : ℕ} (h : Expects C .RED n) : Expects C .BLACK n := by
  cases C with
  | nil => rfl
  | cons f C =>
    obtain ⟨⟨j,hj,hk⟩,hC⟩ := h
    exact ⟨⟨j,hj,fun h => ⟨rfl,(hk h).2⟩⟩,hC⟩

/-- A hole that takes a RED root hangs from a BLACK node. -/
theorem Expects.of_red {C : CellContext V} {n : ℕ} (h : Expects C .RED n) :
    ∃ f C', C = f::C' ∧ f.label.color = .BLACK ∧ (∃ j, RB j n f.sibling) ∧
      Expects C' .BLACK (n+1) := by
  cases C with
  | nil => exact absurd h (by simp [Expects])
  | cons f C =>
    obtain ⟨⟨j,hj,hk⟩,hC⟩ := h
    have hb : f.label.color = .BLACK := by
      cases hf : f.label.color with
      | RED => exact absurd (hk hf).1 (by simp)
      | BLACK => rfl
    rw [hb] at hC
    exact ⟨f,C,rfl,hb,⟨j,hj⟩,hC⟩

theorem rb_fill {f : Frame (Cell V)} {s : CellTree V} {i : Color} {N : ℕ} :
    RB i N (f.fill s) ↔ f.label.color = i ∧ ∃ m k j, N = m+blacks i ∧ RB k m s ∧ RB j m f.sibling ∧
      (i = .RED → k = .BLACK ∧ j = .BLACK) := by
  obtain ⟨side,c,t⟩ := f
  cases side
  · exact rb_node
  · rw [fill_right, rb_node]
    constructor
    · rintro ⟨hc,m,j,k,hN,ht,hs,h⟩; exact ⟨hc,m,k,j,hN,hs,ht,fun h' => (h h').symm⟩
    · rintro ⟨hc,m,k,j,hN,hs,ht,h⟩; exact ⟨hc,m,j,k,hN,ht,hs,fun h' => (h h').symm⟩

/-- A whole red-black tree is a red-black subtree in a context that expects it. -/
theorem rb_plug {C : CellContext V} {s : CellTree V} :
    (∃ N, RB .BLACK N (plug C s)) ↔ ∃ k n, RB k n s ∧ Expects C k n := by
  induction C generalizing s with
  | nil =>
    constructor
    · rintro ⟨N,h⟩; exact ⟨.BLACK,N,h,rfl⟩
    · rintro ⟨k,n,h,rfl⟩; exact ⟨n,h⟩
  | cons f C ih =>
    rw [plug_cons, ih]
    constructor
    · rintro ⟨i,N,h,hC⟩
      obtain ⟨rfl,m,k,j,rfl,hs,hj,hk⟩ := rb_fill.mp h
      exact ⟨k,m,hs,⟨j,hj,hk⟩,hC⟩
    · rintro ⟨k,n,hs,⟨j,hj,hk⟩,hC⟩
      exact ⟨_,_,rb_fill.mpr ⟨rfl,n,k,j,rfl,hs,hj,hk⟩,hC⟩

/-! Mirror images keep the colours and the black heights. -/

@[simp] theorem rootColor_mirrorTree (t : CellTree V) : rootColor (mirrorTree t) = rootColor t := by
  cases t <;> rfl

theorem RB.mirror {k : Color} {n : ℕ} {t : CellTree V} (h : RB k n t) : RB k n (mirrorTree t) := by
  induction t generalizing k n with
  | nil => exact h
  | node c l r ihl ihr =>
    obtain ⟨hc,m,i,j,hn,hl,hr,hk⟩ := rb_node.mp h
    exact rb_node.mpr ⟨hc,m,j,i,hn,ihr hr,ihl hl,fun h => (hk h).symm⟩

theorem Expects.mirror {C : CellContext V} {k : Color} {n : ℕ} (h : Expects C k n) :
    Expects (C.map Frame.mirror) k n := by
  induction C generalizing k n with
  | nil => exact h
  | cons f C ih =>
    obtain ⟨⟨j,hj,hk⟩,hC⟩ := h
    exact ⟨⟨j,hj.mirror,hk⟩,ih hC⟩

/-! Changing what a linked node stores besides its links. -/

/-- The node at the root of the focused subtree gets new data. -/
theorem Focus.relabel {T T' : Rbtree V} {C : CellContext V} {c c' : Cell V} {l r : CellTree V}
    (h : Focus T C (.node c l r)) (hptr : c'.ptr = c.ptr)
    (hcolor : T'.color = update T.color c.ptr c'.color)
    (hkey : T'.key = update T.key c.ptr c'.key)
    (hvalue : T'.value = update T.value c.ptr c'.value)
    (hroot : T'.root = T.root) (hnil : T'.nil = T.nil) (hleft : T'.left = T.left)
    (hright : T'.right = T.right) (hparent : T'.parent = T.parent) :
    Focus T' C (.node c' l r) := by
  have hd : ∀ p, p ≠ c.ptr → SameData T T' p := fun p hp =>
    ⟨by simp [hcolor,update_of_ne hp],by simp [hkey,update_of_ne hp],
      by simp [hvalue,update_of_ne hp],by rw [hleft],by rw [hright]⟩
  have hne := fun p hp => (h.ne_of_mem (p := c.ptr) (q := p) (by simp) hp).symm
  have hsub := h.nodup_sub
  simp only [ptrs_node, List.nodup_append, List.nodup_cons] at hsub
  obtain ⟨hC,⟨hc,hl,hr⟩,hn⟩ := h
  refine ⟨?_,⟨⟨?_,?_,?_,?_,?_,?_,?_⟩,?_,?_⟩,?_⟩
  · rw [rootPtr_node, hptr]
    exact hC.frame hnil hroot (fun p hp => hd p (hne p hp)) (fun p _ => by rw [hparent])
  · rw [hptr,hnil]; exact hc.ne_nil
  · simp [hptr,hcolor]
  · simp [hptr,hkey]
  · simp [hptr,hvalue]
  · rw [hptr,hparent,hnil]; exact hc.parent
  · rw [hptr,hleft,hnil]; exact hc.left
  · rw [hptr,hright,hnil]; exact hc.right
  · rw [hptr]
    exact hl.frame hnil (fun p hp => hd p (hsub.2.2 p hp c.ptr (by simp))) (fun p _ => by rw [hparent])
  · rw [hptr]
    refine hr.frame hnil (fun p hp => hd p ?_) (fun p _ => by rw [hparent])
    rintro rfl
    exact hsub.2.1.1 hp
  · refine ((ptrs_plug C _).trans ?_).nodup_iff.mpr hn
    refine List.Perm.trans ?_ (ptrs_plug C _).symm
    simp [hptr]

/-- The node at the root of the focused subtree gets another colour. -/
theorem Focus.setColor {T : Rbtree V} {C : CellContext V} {c : Cell V} {l r : CellTree V}
    (h : Focus T C (.node c l r)) (k : Color) :
    Focus (T.setColor c.ptr k) C (.node { c with color := k } l r) := by
  have hc := h.sub.1
  refine h.relabel rfl rfl ?_ ?_ rfl rfl rfl rfl rfl
  · exact (update_eq_self_iff.mpr hc.key.symm).symm
  · exact (update_eq_self_iff.mpr hc.value.symm).symm

/-- The colour of nil is not the colour of a linked node. -/
theorem setColor_nil {T : Rbtree V} {p : Ptr} {k : Color} (h : p ≠ T.nil) :
    (T.setColor p k).color T.nil = T.color T.nil := by
  simp [update_of_ne h.symm]

end ServerKit.RbTree
