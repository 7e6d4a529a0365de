import ServerKit.RbTree.Refinement

/-! `rbtree_successor` leads from every node to the next one in order, whether it finds it below the
node or above. -/
namespace ServerKit.RbTree
open Function BinaryTree ServerKit.Lib

variable {V : Type*}

/-- The loop of a client: the node `x` and one successor after another, until nil is reached. -/
def successorWalk : ℕ → Rbtree V → Ptr → Option (List Ptr)
  | 0,_,_ => none
  | fuel+1,T,x =>
    if x ≠ T.nil then
      (rbtreeSuccessor fuel T x).bind fun y => (successorWalk fuel T y).map fun l => x :: l
    else some []

/-- The first node of a list, or nil. -/
def headPtr (nil : Ptr) : List (Cell V) → Ptr
  | [] => nil
  | c::_ => c.ptr

section Successor
variable {T : Rbtree V} {C : CellContext V} {c : Cell V} {l r s t : CellTree V}

/-- The climb ends at the first node to the right of the subtree. -/
theorem climb_spec (h : Focus T C s) (hs : s ≠ .nil) :
    ∃ x, Returns (fun n => whileLoop (fun s : Ptr × Ptr => s.2 ≠ T.nil ∧ s.1 = T.right s.2)
      (fun s => (s.2,T.parent s.2)) n (rootPtr T.nil s,holeParent T.nil C)) (x,headPtr T.nil (after C)) := by
  induction C generalizing s with
  | nil => exact ⟨_,while_exit fun hcond => hcond.1 rfl⟩
  | cons f C ih =>
    obtain ⟨side,c,t⟩ := f
    cases side with
    | left =>
      refine ⟨_,while_exit fun hcond => ?_⟩
      -- The root of the subtree is not the right child.
      have hright : rootPtr T.nil s = rootPtr T.nil t := hcond.2.trans h.context.1.right
      have hmem : rootPtr T.nil s ∈ ptrs s := rootPtr_mem hs
      cases t with
      | nil => exact h.sub.ne_nil hmem hright
      | node d l r => exact h.ne_of_mem hmem (by simp) hright
    | right =>
      have hc := h.context.1
      have hfill : Focus T C (.node c t s) := focus_right.mp h
      obtain ⟨x,hret⟩ := ih hfill (by simp)
      have hparent : T.parent c.ptr = holeParent T.nil C := hc.parent
      rw [← hparent] at hret
      exact ⟨x,while_pass ⟨hc.ne_nil,hc.right.symm⟩ hret⟩

/-- `rbtree_successor` returns the next node in order, or nil. -/
theorem rbtreeSuccessor_spec (h : Focus T C (.node c l r)) :
    Returns (fun n => rbtreeSuccessor n T c.ptr) (headPtr T.nil (inorder r ++ after C)) := by
  have hc := h.sub.1
  cases r with
  | nil =>
    have hright : ¬ T.right c.ptr ≠ T.nil := not_not.mpr hc.right
    obtain ⟨x,hret⟩ := climb_spec h (by simp)
    refine Returns.congr (fun n => ?_) (hret.map Prod.snd)
    rw [rbtreeSuccessor, if_neg hright, hc.parent]
    rfl
  | node d l' r' =>
    have hright : T.right c.ptr = d.ptr := hc.right
    have hd := focus_right.mpr h
    obtain ⟨y,Y,hY,hret⟩ := rbtreeMini_head hd
    rw [hY]
    refine Returns.congr (fun n => ?_) hret
    rw [rbtreeSuccessor, hright, if_pos hd.sub.1.ne_nil]

/-- From every place on, the walk visits the rest of the tree in order. -/
theorem successorWalk_spec {A L : List (Cell V)} (hT : Represents T t) (hL : inorder t = A ++ L) :
    Returns (fun n => successorWalk n T (headPtr T.nil L)) (L.map Cell.ptr) := by
  induction L generalizing A with
  | nil =>
    refine Returns.succ (fun n => ?_) (Returns.const [])
    exact if_neg (not_not.mpr rfl)
  | cons c L ih =>
    obtain ⟨C,l,r,rfl,rfl⟩ := exists_focus_at hL
    have hf := represents_plug.mp hT
    have hrest := ih (A := A ++ [c]) (by rw [hL, List.append_assoc, List.singleton_append])
    have hboth := (rbtreeSuccessor_spec hf).bind
      (g := fun n y => (successorWalk n T y).map fun l => c.ptr :: l) (hrest.map fun l => c.ptr :: l)
    exact Returns.succ (fun n => if_pos hf.sub.1.ne_nil) hboth

end Successor

/-- In a valid tree the next node in order is the one with the next greater key. -/
theorem headPtr_least {T : Rbtree V} {t : CellTree V} {c : Cell V} {A L : List (Cell V)}
    (hT : IsRbtree T t) (hL : inorder t = A ++ c :: L) :
    (headPtr T.nil L = T.nil ∧ ∀ p, Reachable T p → T.key p ≤ T.key c.ptr) ∨
      (Reachable T (headPtr T.nil L) ∧ T.key c.ptr < T.key (headPtr T.nil L) ∧
        ∀ p, Reachable T p → T.key c.ptr < T.key p → T.key (headPtr T.nil L) ≤ T.key p) := by
  have hsorted := hT.sorted
  rw [keys, hL, List.map_append, List.map_cons, List.pairwise_append, List.pairwise_cons] at hsorted
  obtain ⟨-,⟨hafter,hrest⟩,hbefore⟩ := hsorted
  have hreach : ∀ p, Reachable T p ↔ ∃ e ∈ A ++ c :: L, e.ptr = p := fun p => by
    rw [reachable_iff hT.holds, ptrs, hL, List.mem_map]
  have hkey : ∀ e ∈ A ++ c :: L, T.key e.ptr = e.key := fun e he => hT.holds.key (hL ▸ he)
  have hc := hkey c (by simp)
  have hless : ∀ e ∈ A, e.key < c.key := fun e he =>
    hbefore _ (List.mem_map_of_mem he) _ List.mem_cons_self
  cases L with
  | nil =>
    refine .inl ⟨rfl,fun p hp => ?_⟩
    obtain ⟨e,he,rfl⟩ := (hreach p).mp hp
    rw [hkey e he, hc]
    obtain he | he := List.mem_append.mp he
    · exact (hless e he).le
    · exact (congrArg Cell.key (List.mem_singleton.mp he)).le
  | cons d L =>
    have hd := hkey d (by simp)
    refine .inr ⟨(hreach d.ptr).mpr ⟨d,by simp,rfl⟩,?_,fun p hp hlt => ?_⟩
    · change T.key c.ptr < T.key d.ptr
      rw [hc, hd]
      exact hafter _ List.mem_cons_self
    · change T.key d.ptr ≤ T.key p
      obtain ⟨e,he,rfl⟩ := (hreach p).mp hp
      rw [hkey e he, hc] at hlt
      rw [hkey e he, hd]
      obtain he | he := List.mem_append.mp he
      · exact absurd hlt (not_lt.mpr (hless e he).le)
      obtain rfl | he := List.mem_cons.mp he
      · exact absurd hlt (lt_irrefl _)
      obtain rfl | he := List.mem_cons.mp he
      · exact le_rfl
      · exact ((List.pairwise_cons.mp hrest).1 _ (List.mem_map_of_mem he)).le

/-- In a valid tree that is not empty the walk from the least node visits every linked node once, in
the order of the keys, and every successor is the node with the next greater key. -/
theorem rbtreeSuccessor_visits {T : Rbtree V} {t : CellTree V} (hT : IsRbtree T t)
    (hroot : T.root ≠ T.nil) :
    (∃ x visited, Returns (fun n => rbtreeMini n T T.root) x ∧
      Returns (fun n => successorWalk n T x) visited ∧ visited.Nodup ∧
      (∀ p, p ∈ visited ↔ Reachable T p) ∧ (visited.map T.key).Pairwise (· < ·)) ∧
    ∀ x, Reachable T x → ∃ y, Returns (fun n => rbtreeSuccessor n T x) y ∧
      ((y = T.nil ∧ ∀ p, Reachable T p → T.key p ≤ T.key x) ∨
        (Reachable T y ∧ T.key x < T.key y ∧
          ∀ p, Reachable T p → T.key x < T.key p → T.key y ≤ T.key p)) := by
  constructor
  · have hf : Focus T [] t := hT.holds
    have hkeys : (ptrs t).map T.key = keys t := by
      rw [ptrs, List.map_map]
      exact List.map_congr_left fun c hc => hT.holds.key hc
    have hvisited : ((ptrs t).map T.key).Pairwise (· < ·) := hkeys ▸ hT.sorted
    cases t with
    | nil => exact absurd hf.context hroot
    | node c l r =>
      obtain ⟨y,Y,hY,hret⟩ := rbtreeMini_head hf
      have hptrs : (y :: Y).map Cell.ptr = ptrs (.node c l r) := by rw [ptrs, hY]
      have hwalk := successorWalk_spec hT.holds (A := []) hY
      rw [hptrs] at hwalk
      have hptr : T.root = c.ptr := hf.context
      rw [hptr]
      exact ⟨y.ptr,_,hret,hwalk,hf.nodup,fun p => (reachable_iff hT.holds).symm,hvisited⟩
  · intro x hx
    obtain ⟨c,hc,rfl⟩ := List.mem_map.mp ((reachable_iff hT.holds).mp hx)
    obtain ⟨A,L,hL⟩ := List.append_of_mem hc
    have hleast := headPtr_least hT hL
    obtain ⟨C,l,r,rfl,rfl⟩ := exists_focus_at hL
    exact ⟨_,rbtreeSuccessor_spec (represents_plug.mp hT.holds),hleast⟩

/-- A tree of two nodes. -/
def twoNodes : CellTree ℤ := .node ⟨1,.BLACK,5,0⟩ .nil (.node ⟨2,.RED,8,0⟩ .nil .nil)

/-- A heap that holds them; nil is the node 0. -/
def twoNodesHeap : Rbtree ℤ where
  root := 1
  nil := 0
  color p := if p = 2 then .RED else .BLACK
  right p := if p = 1 then 2 else 0
  left _ := 0
  parent p := if p = 2 then 1 else 0
  key p := if p = 1 then 5 else 8
  value _ := 0

theorem twoNodes_isRbtree : IsRbtree twoNodesHeap twoNodes := by
  refine ⟨⟨rfl,?_,by decide⟩,by decide,rfl,?_,⟨1,0,rfl,rfl,0,rfl,rfl,rfl⟩,rfl⟩
  · exact ⟨⟨by decide,rfl,rfl,rfl,rfl,rfl,rfl⟩,trivial,⟨by decide,rfl,rfl,rfl,rfl,rfl,rfl⟩,
      trivial,trivial⟩
  · exact ⟨by decide,trivial,fun _ => ⟨rfl,rfl⟩,trivial,trivial⟩

theorem rbtreeSuccessor_visits_two : ∃ x visited,
    Returns (fun n => rbtreeMini n twoNodesHeap twoNodesHeap.root) x ∧
    Returns (fun n => successorWalk n twoNodesHeap x) visited ∧
    ∀ p, p ∈ visited ↔ Reachable twoNodesHeap p := by
  obtain ⟨⟨x,visited,hmini,hwalk,-,hall,-⟩,-⟩ := rbtreeSuccessor_visits twoNodes_isRbtree (by decide)
  exact ⟨x,visited,hmini,hwalk,hall⟩

end ServerKit.RbTree
