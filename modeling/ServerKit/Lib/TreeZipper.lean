import Mathlib.Data.Tree.Basic
import Mathlib.Tactic.Common
import Mathlib.Data.List.Basic

/-! Binary trees seen from one of their subtrees: the path back to the root is a list of frames,
innermost first, and putting a subtree back is `plug`. -/
namespace ServerKit.Lib
open BinaryTree

variable {α β : Type*}

/-- The side of its parent on which a subtree hangs. -/
inductive Side where
  | left
  | right
  deriving DecidableEq, Repr

def Side.flip : Side → Side
  | .left => .right
  | .right => .left

@[simp] theorem Side.flip_left : Side.left.flip = .right := rfl
@[simp] theorem Side.flip_right : Side.right.flip = .left := rfl
@[simp] theorem Side.flip_flip (d : Side) : d.flip.flip = d := by cases d <;> rfl

theorem Side.eq_flip_of_ne {d e : Side} (h : d ≠ e) : d = e.flip := by
  revert h
  cases d <;> cases e <;> decide

/-- One ancestor of the hole: its label, the side the hole is on, the subtree on the other side. -/
structure Frame (α : Type*) where
  side : Side
  label : α
  sibling : BinaryTree α

abbrev Context (α : Type*) := List (Frame α)

def Frame.fill (f : Frame α) (s : BinaryTree α) : BinaryTree α :=
  match f.side with
  | .left => .node f.label s f.sibling
  | .right => .node f.label f.sibling s

/-- Put a subtree back below its ancestors. -/
def plug : Context α → BinaryTree α → BinaryTree α
  | [],s => s
  | f::C,s => plug C (f.fill s)

@[simp] theorem fill_left (a : α) (t s : BinaryTree α) :
    Frame.fill ⟨.left,a,t⟩ s = .node a s t := rfl
@[simp] theorem fill_right (a : α) (t s : BinaryTree α) :
    Frame.fill ⟨.right,a,t⟩ s = .node a t s := rfl
@[simp] theorem plug_nil (s : BinaryTree α) : plug [] s = s := rfl
@[simp] theorem plug_cons (f : Frame α) (C : Context α) (s : BinaryTree α) :
    plug (f::C) s = plug C (f.fill s) := rfl

theorem plug_append (D C : Context α) (s : BinaryTree α) : plug (D ++ C) s = plug C (plug D s) := by
  induction D generalizing s with
  | nil => rfl
  | cons f D ih => simp [ih]

/-- The labels of a tree from left to right. -/
def inorder : BinaryTree α → List α
  | .nil => []
  | .node a l r => inorder l ++ a :: inorder r

@[simp] theorem inorder_nil : inorder (nil : BinaryTree α) = [] := rfl
@[simp] theorem inorder_node (a : α) (l r : BinaryTree α) :
    inorder (node a l r) = inorder l ++ a :: inorder r := rfl

/-- The labels to the left of the hole, from left to right. -/
def before : Context α → List α
  | [] => []
  | ⟨.left,_,_⟩::C => before C
  | ⟨.right,a,l⟩::C => before C ++ (inorder l ++ [a])

/-- The labels to the right of the hole, from left to right. -/
def after : Context α → List α
  | [] => []
  | ⟨.left,a,r⟩::C => a :: inorder r ++ after C
  | ⟨.right,_,_⟩::C => after C

@[simp] theorem before_nil : before ([] : Context α) = [] := rfl
@[simp] theorem before_left (a : α) (t : BinaryTree α) (C : Context α) :
    before (⟨.left,a,t⟩::C) = before C := rfl
@[simp] theorem before_right (a : α) (t : BinaryTree α) (C : Context α) :
    before (⟨.right,a,t⟩::C) = before C ++ (inorder t ++ [a]) := rfl
@[simp] theorem after_nil : after ([] : Context α) = [] := rfl
@[simp] theorem after_left (a : α) (t : BinaryTree α) (C : Context α) :
    after (⟨.left,a,t⟩::C) = a :: inorder t ++ after C := rfl
@[simp] theorem after_right (a : α) (t : BinaryTree α) (C : Context α) :
    after (⟨.right,a,t⟩::C) = after C := rfl

theorem after_append (D C : Context α) : after (D ++ C) = after D ++ after C := by
  induction D with
  | nil => rfl
  | cons f D ih =>
    obtain ⟨side,a,t⟩ := f
    cases side <;> simp [ih]

theorem inorder_plug (C : Context α) (s : BinaryTree α) :
    inorder (plug C s) = before C ++ (inorder s ++ after C) := by
  induction C generalizing s with
  | nil => simp
  | cons f C ih =>
    obtain ⟨side,a,t⟩ := f
    cases side <;> simp [ih]

/-- Every place among the labels is the root of a subtree. -/
theorem exists_focus_at {a : α} {t : BinaryTree α} {A L : List α} (h : inorder t = A ++ a :: L) :
    ∃ C l r, t = plug C (node a l r) ∧ L = inorder r ++ after C := by
  induction t generalizing A L with
  | nil => simp at h
  | node b l r ihl ihr =>
    obtain ⟨M,rfl,hM⟩ | ⟨M,hM,hL⟩ := List.append_eq_append_iff.mp h
    · obtain _ | ⟨m,M⟩ := M
      · obtain ⟨rfl,rfl⟩ := List.cons.inj hM
        exact ⟨[],l,r,rfl,by simp⟩
      · obtain ⟨-,hr⟩ := List.cons.inj hM
        obtain ⟨C,l',r',rfl,rfl⟩ := ihr hr
        exact ⟨C ++ [⟨.right,b,l⟩],l',r',by simp [plug_append],by simp [after_append]⟩
    · obtain _ | ⟨m,M⟩ := M
      · obtain ⟨rfl,rfl⟩ := List.cons.inj hL
        exact ⟨[],l,r,rfl,by simp⟩
      · obtain ⟨rfl,rfl⟩ := List.cons.inj hL
        obtain ⟨C,l',r',rfl,rfl⟩ := ihl hM
        exact ⟨C ++ [⟨.left,b,r⟩],l',r',by simp [plug_append],by simp [after_append]⟩

/-- Every label of a tree is the root of a subtree of it. -/
theorem exists_focus {a : α} {t : BinaryTree α} (h : a ∈ inorder t) :
    ∃ C l r, t = plug C (node a l r) := by
  obtain ⟨A,L,hAL⟩ := List.append_of_mem h
  obtain ⟨C,l,r,ht,-⟩ := exists_focus_at hAL
  exact ⟨C,l,r,ht⟩

theorem before_of_left {D : Context α} (h : ∀ f ∈ D, f.side = .left) : before D = [] := by
  induction D with
  | nil => rfl
  | cons f D ih =>
    obtain ⟨side,a,t⟩ := f
    have hs : side = .left := h _ List.mem_cons_self
    subst hs
    simpa using ih fun f hf => h f (by simp [hf])

/-! Left-right mirror images. -/

def mirrorTree : BinaryTree α → BinaryTree α
  | .nil => .nil
  | .node a l r => .node a (mirrorTree r) (mirrorTree l)

@[simp] theorem mirrorTree_node (a : α) (l r : BinaryTree α) :
    mirrorTree (node a l r) = node a (mirrorTree r) (mirrorTree l) := rfl

@[simp] theorem mirrorTree_mirrorTree (t : BinaryTree α) : mirrorTree (mirrorTree t) = t := by
  induction t with
  | nil => rfl
  | node a l r ihl ihr => simp [ihl,ihr]

@[simp] theorem inorder_mirrorTree (t : BinaryTree α) : inorder (mirrorTree t) = (inorder t).reverse := by
  induction t with
  | nil => rfl
  | node a l r ihl ihr => simp [ihl,ihr]

def Frame.mirror (f : Frame α) : Frame α := ⟨f.side.flip,f.label,mirrorTree f.sibling⟩

@[simp] theorem Frame.mirror_mk (d : Side) (a : α) (t : BinaryTree α) :
    Frame.mirror ⟨d,a,t⟩ = ⟨d.flip,a,mirrorTree t⟩ := rfl

@[simp] theorem mirrorTree_plug (C : Context α) (s : BinaryTree α) :
    mirrorTree (plug C s) = plug (C.map Frame.mirror) (mirrorTree s) := by
  induction C generalizing s with
  | nil => rfl
  | cons f C ih =>
    obtain ⟨side,a,t⟩ := f
    cases side <;> simp [ih]

end ServerKit.Lib
