import ServerKit.RbTree.Code
import ServerKit.Lib.TreeZipper
import Mathlib.Data.List.Nodup

/-! Which tree a heap holds. A tree of cells names every node with what its record stores, and
`Focus T C s` says that the heap holds the subtree `s` below the ancestors `C`. -/
namespace ServerKit.RbTree
open Function BinaryTree ServerKit.Lib

variable {V : Type*}

/-- What the record of a linked node stores besides its links. -/
structure Cell (V : Type*) where
  ptr : Ptr
  color : Color
  key : ℤ
  value : V

abbrev CellTree (V : Type*) := BinaryTree (Cell V)
abbrev CellContext (V : Type*) := Context (Cell V)

def rootPtr (nil : Ptr) : CellTree V → Ptr
  | .nil => nil
  | .node c _ _ => c.ptr

/-- The node that the hole hangs from. -/
def holeParent (nil : Ptr) : CellContext V → Ptr
  | [] => nil
  | f::_ => f.label.ptr

@[simp] theorem rootPtr_nil (n : Ptr) : rootPtr n (.nil : CellTree V) = n := rfl
@[simp] theorem rootPtr_node (n : Ptr) (c : Cell V) (l r : CellTree V) :
    rootPtr n (.node c l r) = c.ptr := rfl
@[simp] theorem holeParent_nil (n : Ptr) : holeParent n ([] : CellContext V) = n := rfl
@[simp] theorem holeParent_cons (n : Ptr) (f : Frame (Cell V)) (C : CellContext V) :
    holeParent n (f::C) = f.label.ptr := rfl

def ptrs (t : CellTree V) : List Ptr := (inorder t).map Cell.ptr

/-- The nodes around the hole. -/
def contextPtrs : CellContext V → List Ptr
  | [] => []
  | f::C => f.label.ptr :: (ptrs f.sibling ++ contextPtrs C)

@[simp] theorem ptrs_nil : ptrs (.nil : CellTree V) = [] := rfl
@[simp] theorem ptrs_node (c : Cell V) (l r : CellTree V) :
    ptrs (.node c l r) = ptrs l ++ c.ptr :: ptrs r := by simp [ptrs]
@[simp] theorem contextPtrs_nil : contextPtrs ([] : CellContext V) = [] := rfl

@[simp] theorem contextPtrs_cons (f : Frame (Cell V)) (C : CellContext V) :
    contextPtrs (f::C) = f.label.ptr :: (ptrs f.sibling ++ contextPtrs C) := rfl

theorem ptrs_plug (C : CellContext V) (s : CellTree V) :
    (ptrs (plug C s)).Perm (ptrs s ++ contextPtrs C) := by
  induction C generalizing s with
  | nil => simp
  | cons f C ih =>
    obtain ⟨side,c,t⟩ := f
    cases side
    · refine (ih _).trans ?_
      simp
    · refine (ih _).trans ?_
      simp only [fill_right, ptrs_node, contextPtrs_cons, List.append_assoc, List.cons_append]
      refine List.perm_middle.trans ?_
      refine (List.Perm.cons _ ?_).trans List.perm_middle.symm
      rw [← List.append_assoc, ← List.append_assoc]
      exact List.Perm.append_right _ List.perm_append_comm

theorem rootPtr_mem {n : Ptr} {t : CellTree V} (h : t ≠ .nil) : rootPtr n t ∈ ptrs t := by
  cases t with
  | nil => contradiction
  | node c l r => simp

theorem rootPtr_eq_or_mem (n : Ptr) (t : CellTree V) : rootPtr n t = n ∨ rootPtr n t ∈ ptrs t := by
  cases t with
  | nil => exact .inl rfl
  | node c l r => exact .inr (rootPtr_mem nofun)

/-- The record of `c` in the heap, with its three links. -/
structure Stores (T : Rbtree V) (c : Cell V) (parent left right : Ptr) : Prop where
  ne_nil : c.ptr ≠ T.nil
  color : T.color c.ptr = c.color
  key : T.key c.ptr = c.key
  value : T.value c.ptr = c.value
  parent : T.parent c.ptr = parent
  left : T.left c.ptr = left
  right : T.right c.ptr = right

/-- The heap holds the subtree, its root hanging from `parent`. -/
def Linked (T : Rbtree V) (parent : Ptr) : CellTree V → Prop
  | .nil => True
  | .node c l r => Stores T c parent (rootPtr T.nil l) (rootPtr T.nil r) ∧
      Linked T c.ptr l ∧ Linked T c.ptr r

/-- The heap holds everything around a hole in which the node `hole` hangs. -/
def LinkedContext (T : Rbtree V) (hole : Ptr) : CellContext V → Prop
  | [] => T.root = hole
  | ⟨.left,c,t⟩::C => Stores T c (holeParent T.nil C) hole (rootPtr T.nil t) ∧
      Linked T c.ptr t ∧ LinkedContext T c.ptr C
  | ⟨.right,c,t⟩::C => Stores T c (holeParent T.nil C) (rootPtr T.nil t) hole ∧
      Linked T c.ptr t ∧ LinkedContext T c.ptr C

/-- The heap holds the tree `plug C s` and no node twice. -/
structure Focus (T : Rbtree V) (C : CellContext V) (s : CellTree V) : Prop where
  context : LinkedContext T (rootPtr T.nil s) C
  sub : Linked T (holeParent T.nil C) s
  nodup : (ptrs (plug C s)).Nodup

/-- The heap holds the tree `t`: from `T->root` down, with every parent link. -/
def Represents (T : Rbtree V) (t : CellTree V) : Prop := Focus T [] t

theorem focus_fill {T : Rbtree V} {C : CellContext V} {f : Frame (Cell V)} {s : CellTree V} :
    Focus T (f::C) s ↔ Focus T C (f.fill s) := by
  obtain ⟨side,c,t⟩ := f
  cases side
  · constructor
    · rintro ⟨⟨hc,ht,hC⟩,hs,hn⟩; exact ⟨hC,⟨hc,hs,ht⟩,hn⟩
    · rintro ⟨hC,⟨hc,hs,ht⟩,hn⟩; exact ⟨⟨hc,ht,hC⟩,hs,hn⟩
  · constructor
    · rintro ⟨⟨hc,ht,hC⟩,hs,hn⟩; exact ⟨hC,⟨hc,ht,hs⟩,hn⟩
    · rintro ⟨hC,⟨hc,ht,hs⟩,hn⟩; exact ⟨⟨hc,ht,hC⟩,hs,hn⟩

theorem focus_left {T : Rbtree V} {C : CellContext V} {c : Cell V} {s t : CellTree V} :
    Focus T (⟨.left,c,t⟩::C) s ↔ Focus T C (.node c s t) := focus_fill

theorem focus_right {T : Rbtree V} {C : CellContext V} {c : Cell V} {s t : CellTree V} :
    Focus T (⟨.right,c,t⟩::C) s ↔ Focus T C (.node c t s) := focus_fill

theorem focus_append {T : Rbtree V} {D C : CellContext V} {s : CellTree V} :
    Focus T (D ++ C) s ↔ Focus T C (plug D s) := by
  induction D generalizing s with
  | nil => rfl
  | cons f D ih => rw [List.cons_append, focus_fill, ih, plug_cons]

/-- The same heap, seen from any of its subtrees. -/
theorem represents_plug {T : Rbtree V} {C : CellContext V} {s : CellTree V} :
    Represents T (plug C s) ↔ Focus T C s := by
  have h := focus_append (T := T) (D := C) (C := []) (s := s)
  rw [List.append_nil] at h
  exact h.symm

/-- `T'` stores at `p` what `T` stores there, the parent link apart. -/
structure SameData (T T' : Rbtree V) (p : Ptr) : Prop where
  color : T'.color p = T.color p
  key : T'.key p = T.key p
  value : T'.value p = T.value p
  left : T'.left p = T.left p
  right : T'.right p = T.right p

theorem Stores.frame {T T' : Rbtree V} {c : Cell V} {a l r : Ptr} (h : Stores T c a l r)
    (hnil : T'.nil = T.nil) (hd : SameData T T' c.ptr) (hp : T'.parent c.ptr = T.parent c.ptr) :
    Stores T' c a l r :=
  ⟨by rw [hnil]; exact h.ne_nil,hd.color.trans h.color,hd.key.trans h.key,
    hd.value.trans h.value,hp.trans h.parent,hd.left.trans h.left,hd.right.trans h.right⟩

theorem Linked.frame {T T' : Rbtree V} {a : Ptr} {t : CellTree V} (h : Linked T a t)
    (hnil : T'.nil = T.nil) (hd : ∀ p ∈ ptrs t, SameData T T' p)
    (hp : ∀ p ∈ ptrs t, T'.parent p = T.parent p) : Linked T' a t := by
  induction t generalizing a with
  | nil => trivial
  | node c l r ihl ihr =>
    obtain ⟨hc,hl,hr⟩ := h
    refine ⟨?_,?_,?_⟩
    · rw [hnil]
      exact hc.frame hnil (hd _ (by simp)) (hp _ (by simp))
    · exact ihl hl (fun p h => hd p (by simp [h])) (fun p h => hp p (by simp [h]))
    · exact ihr hr (fun p h => hd p (by simp [h])) (fun p h => hp p (by simp [h]))

/-- A subtree whose root alone got a new parent link. -/
theorem Linked.reparent {T T' : Rbtree V} {a a' : Ptr} {t : CellTree V} (h : Linked T a t)
    (hnil : T'.nil = T.nil) (hd : ∀ p ∈ ptrs t, SameData T T' p)
    (hp : ∀ p ∈ ptrs t, p ≠ rootPtr T.nil t → T'.parent p = T.parent p)
    (hroot : t ≠ .nil → T'.parent (rootPtr T.nil t) = a') (hn : (ptrs t).Nodup) :
    Linked T' a' t := by
  cases t with
  | nil => trivial
  | node c l r =>
    obtain ⟨hc,hl,hr⟩ := h
    have hd' := hd c.ptr (by simp)
    simp only [ptrs_node, List.nodup_append, List.nodup_cons] at hn
    refine ⟨⟨by rw [hnil]; exact hc.ne_nil,hd'.color.trans hc.color,hd'.key.trans hc.key,
      hd'.value.trans hc.value,hroot (by simp),?_,?_⟩,?_,?_⟩
    · rw [hnil]; exact hd'.left.trans hc.left
    · rw [hnil]; exact hd'.right.trans hc.right
    · refine hl.frame hnil (fun p h => hd p (by simp [h])) (fun p h => hp p (by simp [h]) ?_)
      exact hn.2.2 p h c.ptr (by simp)
    · refine hr.frame hnil (fun p h => hd p (by simp [h])) (fun p h => hp p (by simp [h]) ?_)
      rintro rfl
      exact hn.2.1.1 h

theorem LinkedContext.frame {T T' : Rbtree V} {hole : Ptr} {C : CellContext V}
    (h : LinkedContext T hole C) (hnil : T'.nil = T.nil) (hroot : T'.root = T.root)
    (hd : ∀ p ∈ contextPtrs C, SameData T T' p)
    (hp : ∀ p ∈ contextPtrs C, T'.parent p = T.parent p) : LinkedContext T' hole C := by
  induction C generalizing hole with
  | nil => exact hroot.trans h
  | cons f C ih =>
    have hC : ∀ hole, LinkedContext T hole C → LinkedContext T' hole C := fun hole h =>
      ih h (fun p h => hd p (by simp [h])) (fun p h => hp p (by simp [h]))
    have hc := hd f.label.ptr (by simp)
    have hcp := hp f.label.ptr (by simp)
    obtain ⟨side,c,t⟩ := f
    have ht : ∀ a, Linked T a t → Linked T' a t := fun a h =>
      h.frame hnil (fun p h => hd p (by simp [h])) (fun p h => hp p (by simp [h]))
    cases side
    · obtain ⟨hs,hl,hC'⟩ := h
      refine ⟨?_,ht _ hl,hC _ hC'⟩
      rw [hnil]; exact hs.frame hnil hc hcp
    · obtain ⟨hs,hl,hC'⟩ := h
      refine ⟨?_,ht _ hl,hC _ hC'⟩
      rw [hnil]; exact hs.frame hnil hc hcp

/-- The writes that hang `y` where `x` hung: at the root or at the parent `p` of `x`. -/
def rehang (T : Rbtree V) (p x y : Ptr) : Rbtree V :=
  if p = T.nil then T.setRoot y
  else if x = T.left p then T.setLeft p y
  else T.setRight p y

/-- The one write that hangs `y` into the hole of the context. -/
def hang (T : Rbtree V) (y : Ptr) : CellContext V → Rbtree V
  | [] => T.setRoot y
  | ⟨.left,c,_⟩::_ => T.setLeft c.ptr y
  | ⟨.right,c,_⟩::_ => T.setRight c.ptr y

@[simp] theorem hang_nil (T : Rbtree V) (y : Ptr) (C : CellContext V) :
    (hang T y C).nil = T.nil := by
  obtain _ | ⟨⟨_ | _,c,t⟩,C⟩ := C <;> rfl
@[simp] theorem hang_color (T : Rbtree V) (y : Ptr) (C : CellContext V) :
    (hang T y C).color = T.color := by
  obtain _ | ⟨⟨_ | _,c,t⟩,C⟩ := C <;> rfl
@[simp] theorem hang_key (T : Rbtree V) (y : Ptr) (C : CellContext V) :
    (hang T y C).key = T.key := by
  obtain _ | ⟨⟨_ | _,c,t⟩,C⟩ := C <;> rfl
@[simp] theorem hang_value (T : Rbtree V) (y : Ptr) (C : CellContext V) :
    (hang T y C).value = T.value := by
  obtain _ | ⟨⟨_ | _,c,t⟩,C⟩ := C <;> rfl
@[simp] theorem hang_parent (T : Rbtree V) (y : Ptr) (C : CellContext V) :
    (hang T y C).parent = T.parent := by
  obtain _ | ⟨⟨_ | _,c,t⟩,C⟩ := C <;> rfl

theorem SameData.hang (T : Rbtree V) {y q n : Ptr} {C : CellContext V} (h : q ≠ holeParent n C) :
    SameData T (hang T y C) q := by
  obtain _ | ⟨⟨_ | _,c,t⟩,C⟩ := C
  · exact ⟨rfl,rfl,rfl,rfl,rfl⟩
  · exact ⟨rfl,rfl,rfl,update_of_ne h _ _,rfl⟩
  · exact ⟨rfl,rfl,rfl,rfl,update_of_ne h _ _⟩

/-- Hanging another node into the hole leaves everything around the hole as it was. -/
theorem LinkedContext.hang {T : Rbtree V} {x : Ptr} {C : CellContext V}
    (h : LinkedContext T x C) (hn : (contextPtrs C).Nodup) (y : Ptr) :
    LinkedContext (hang T y C) y C := by
  cases C with
  | nil => exact rfl
  | cons f C =>
    obtain ⟨side,c,t⟩ := f
    simp only [contextPtrs_cons, List.nodup_cons, List.mem_append, not_or, List.nodup_append] at hn
    obtain ⟨⟨hct,hcC⟩,-,hC,-⟩ := hn
    have hd : ∀ p, p ≠ c.ptr → SameData T (RbTree.hang T y (⟨side,c,t⟩::C)) p := fun p hp =>
      SameData.hang (n := T.nil) T hp
    have ht : ∀ a, Linked T a t → Linked (RbTree.hang T y (⟨side,c,t⟩::C)) a t := fun a h =>
      h.frame (by simp) (fun p hp => hd p (by rintro rfl; exact hct hp)) (by simp)
    have hrest : ∀ a, LinkedContext T a C → LinkedContext (RbTree.hang T y (⟨side,c,t⟩::C)) a C :=
      fun a h => h.frame (by simp) (by cases side <;> rfl)
        (fun p hp => hd p (by rintro rfl; exact hcC hp)) (by simp)
    cases side
    · obtain ⟨hs,hl,hC'⟩ := h
      exact ⟨⟨hs.ne_nil,hs.color,hs.key,hs.value,hs.parent,update_self ..,hs.right⟩,ht _ hl,hrest _ hC'⟩
    · obtain ⟨hs,hl,hC'⟩ := h
      exact ⟨⟨hs.ne_nil,hs.color,hs.key,hs.value,hs.parent,hs.left,update_self ..⟩,ht _ hl,hrest _ hC'⟩

/-- The test on the child link finds the side that the context says. -/
theorem rehang_eq_hang {T : Rbtree V} {x : Ptr} {C : CellContext V} (h : LinkedContext T x C)
    (hx : x ∉ contextPtrs C) (hxn : x ≠ T.nil) (y : Ptr) :
    rehang T (holeParent T.nil C) x y = hang T y C := by
  cases C with
  | nil => simp [rehang,RbTree.hang]
  | cons f C =>
    obtain ⟨side,c,t⟩ := f
    have hsib : x ≠ rootPtr T.nil t := by
      rintro rfl
      cases t with
      | nil => exact hxn rfl
      | node => exact hx (by simp)
    cases side
    · simp [rehang,RbTree.hang,h.1.ne_nil,h.1.left]
    · simp [rehang,RbTree.hang,h.1.ne_nil,h.1.left,hsib]

theorem Linked.ne_nil {T : Rbtree V} {a p : Ptr} {t : CellTree V} (h : Linked T a t)
    (hp : p ∈ ptrs t) : p ≠ T.nil := by
  induction t generalizing a with
  | nil => simp at hp
  | node c l r ihl ihr =>
    obtain ⟨hc,hl,hr⟩ := h
    simp only [ptrs_node, List.mem_append, List.mem_cons] at hp
    obtain hp | rfl | hp := hp
    · exact ihl hl hp
    · exact hc.ne_nil
    · exact ihr hr hp

theorem LinkedContext.ne_nil {T : Rbtree V} {hole p : Ptr} {C : CellContext V}
    (h : LinkedContext T hole C) (hp : p ∈ contextPtrs C) : p ≠ T.nil := by
  induction C generalizing hole with
  | nil => simp at hp
  | cons f C ih =>
    obtain ⟨side,c,t⟩ := f
    simp only [contextPtrs_cons, List.mem_cons, List.mem_append] at hp
    cases side
    all_goals
      obtain ⟨hc,ht,hC⟩ := h
      obtain rfl | hp | hp := hp
      · exact hc.ne_nil
      · exact ht.ne_nil hp
      · exact ih hC hp

/-- A subtree keeps its links when the heap changes elsewhere. -/
theorem SameData.trans {T T' T'' : Rbtree V} {p : Ptr} (h : SameData T T' p)
    (h' : SameData T' T'' p) : SameData T T'' p :=
  ⟨h'.color.trans h.color,h'.key.trans h.key,h'.value.trans h.value,h'.left.trans h.left,
    h'.right.trans h.right⟩

namespace Focus
variable {T : Rbtree V} {C : CellContext V} {s : CellTree V}

theorem nodup_parts (h : Focus T C s) : (ptrs s ++ contextPtrs C).Nodup :=
  (ptrs_plug C s).nodup_iff.mp h.nodup

theorem nodup_sub (h : Focus T C s) : (ptrs s).Nodup := (List.nodup_append.mp h.nodup_parts).1

theorem nodup_context (h : Focus T C s) : (contextPtrs C).Nodup :=
  (List.nodup_append.mp h.nodup_parts).2.1

theorem ne_of_mem (h : Focus T C s) {p q : Ptr} (hp : p ∈ ptrs s) (hq : q ∈ contextPtrs C) :
    p ≠ q := (List.nodup_append.mp h.nodup_parts).2.2 p hp q hq

theorem ne_holeParent (h : Focus T C s) {p : Ptr} (hp : p ∈ ptrs s) : p ≠ holeParent T.nil C := by
  cases C with
  | nil => exact h.sub.ne_nil hp
  | cons f C => exact h.ne_of_mem hp (by simp)

end Focus

/-- The nodes that child links reach from `T->root`. -/
inductive Reachable (T : Rbtree V) : Ptr → Prop
  | root (h : T.root ≠ T.nil) : Reachable T T.root
  | left {p} (hp : Reachable T p) (h : T.left p ≠ T.nil) : Reachable T (T.left p)
  | right {p} (hp : Reachable T p) (h : T.right p ≠ T.nil) : Reachable T (T.right p)

theorem Linked.reachable {T : Rbtree V} {a p : Ptr} {t : CellTree V} (h : Linked T a t)
    (hroot : t ≠ .nil → Reachable T (rootPtr T.nil t)) (hp : p ∈ ptrs t) : Reachable T p := by
  induction t generalizing a with
  | nil => simp at hp
  | node c l r ihl ihr =>
    obtain ⟨hc,hl,hr⟩ := h
    have hhere : Reachable T c.ptr := hroot (by simp)
    simp only [ptrs_node, List.mem_append, List.mem_cons] at hp
    obtain hp | rfl | hp := hp
    · refine ihl hl (fun hne => ?_) hp
      have hn : rootPtr T.nil l ≠ T.nil := hl.ne_nil (rootPtr_mem hne)
      rw [← hc.left] at hn ⊢
      exact .left hhere hn
    · exact hhere
    · refine ihr hr (fun hne => ?_) hp
      have hn : rootPtr T.nil r ≠ T.nil := hr.ne_nil (rootPtr_mem hne)
      rw [← hc.right] at hn ⊢
      exact .right hhere hn

theorem Linked.children_mem {T : Rbtree V} {a p : Ptr} {t : CellTree V} (h : Linked T a t)
    (hp : p ∈ ptrs t) : (T.left p = T.nil ∨ T.left p ∈ ptrs t) ∧
      (T.right p = T.nil ∨ T.right p ∈ ptrs t) := by
  induction t generalizing a with
  | nil => simp at hp
  | node c l r ihl ihr =>
    obtain ⟨hc,hl,hr⟩ := h
    simp only [ptrs_node, List.mem_append, List.mem_cons] at hp ⊢
    obtain hp | rfl | hp := hp
    · have := ihl hl hp
      tauto
    · rw [hc.left,hc.right]
      have h₁ := rootPtr_eq_or_mem T.nil l
      have h₂ := rootPtr_eq_or_mem T.nil r
      tauto
    · have := ihr hr hp
      tauto

/-- The nodes of the tree that a heap holds are the nodes that it reaches. -/
theorem reachable_iff {T : Rbtree V} {t : CellTree V} (h : Represents T t) {p : Ptr} :
    Reachable T p ↔ p ∈ ptrs t := by
  have hroot : T.root = rootPtr T.nil t := Focus.context h
  constructor
  · intro hp
    induction hp with
    | root hne =>
      rw [hroot] at hne ⊢
      exact rootPtr_mem (by rintro rfl; exact hne rfl)
    | left hp hne ih => exact (h.sub.children_mem ih).1.resolve_left hne
    | right hp hne ih => exact (h.sub.children_mem ih).2.resolve_left hne
  · refine h.sub.reachable fun hne => ?_
    have hn : rootPtr T.nil t ≠ T.nil := h.sub.ne_nil (rootPtr_mem hne)
    rw [← hroot] at hn ⊢
    exact .root hn

end ServerKit.RbTree
