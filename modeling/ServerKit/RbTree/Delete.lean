import ServerKit.RbTree.DeleteFixup
import ServerKit.RbTree.Insert

/-! `rbtree_delete` on a red-black heap. -/
namespace ServerKit.RbTree
open Function BinaryTree ServerKit.Lib

variable {V : Type*}

/-- `s` is what hangs below a node with at most one child, on either side. -/
def OnlyChild (a b s : CellTree V) : Prop := (a = .nil ∧ s = b) ∨ (b = .nil ∧ s = a)

theorem exists_onlyChild {l r : CellTree V} (h : l = .nil ∨ r = .nil) : ∃ s, OnlyChild l r s := by
  obtain rfl | rfl := h
  · exact ⟨r,.inl ⟨rfl,rfl⟩⟩
  · exact ⟨l,.inr ⟨rfl,rfl⟩⟩

theorem OnlyChild.entries {c : Cell V} {a b s : CellTree V} (h : OnlyChild a b s) :
    (entries (.node c a b) = (c.ptr,c.key,c.value) :: entries s ∨
      entries (.node c a b) = entries s ++ [(c.ptr,c.key,c.value)]) := by
  obtain ⟨rfl,rfl⟩ | ⟨rfl,rfl⟩ := h
  · exact .inl (by simp)
  · exact .inr (by simp)

/-- Taking a BLACK node with at most one child out of the tree. -/
theorem lacking_of_onlyChild {C : CellContext V} {c : Cell V} {a b s : CellTree V} {n : ℕ}
    (hs : OnlyChild a b s) (h : RB .BLACK n (.node c a b)) (hE : Expects C .BLACK n) :
    Lacking C s := by
  obtain ⟨hc,m,i,j,hn,ha,hb,-⟩ := rb_node.mp h
  have hm : ∃ k, RB k m s := by
    obtain ⟨-,rfl⟩ | ⟨-,rfl⟩ := hs
    · exact ⟨j,hb⟩
    · exact ⟨i,ha⟩
  obtain rfl : n = m+1 := hn
  obtain ⟨k,hk⟩ := hm
  cases k with
  | BLACK => exact .inl ⟨m,hk,hE⟩
  | RED => exact .inr ⟨hk.color,m+1,hk.blacken_red,hE⟩

/-! The parts of `rbtree_delete`. -/

/-- The node to take out of the tree. -/
def deleteChoice (fuel : ℕ) (T : Rbtree V) (z : Ptr) : Option Ptr :=
  if T.left z = T.nil ∨ T.right z = T.nil then some z else rbtreeSuccessor fuel T z

/-- The node that is put in the place of `y`. -/
def deleteChild (T : Rbtree V) (y : Ptr) : Ptr :=
  if T.left y ≠ T.nil then T.left y else if T.right y ≠ T.nil then T.right y else T.nil

/-- The writes before the call of the fixup. -/
def deleteUnlink (T : Rbtree V) (z y : Ptr) : Rbtree V :=
  let T₁ := deleteSplice T y (deleteChild T y)
  if y ≠ z then (T₁.setKey z (T₁.key y)).setValue z (T₁.value y) else T₁

theorem rbtreeDelete_eq (fuel : ℕ) (T : Rbtree V) (z : Ptr) :
    rbtreeDelete fuel T z = (deleteChoice fuel T z).bind fun y =>
      if (deleteUnlink T z y).color y = .BLACK then
        (rbtreeDeleteFixup fuel (deleteUnlink T z y) (deleteChild T y)).map fun T => (T,y)
      else some (deleteUnlink T z y,y) := rfl

section Splice
variable {T : Rbtree V} {C : CellContext V} {y : Cell V} {a b s : CellTree V}

/-- The node that `rbtree_delete` puts in the place of `y`. -/
theorem onlyChild_root (h : Focus T C (.node y a b)) (hs : OnlyChild a b s) :
    deleteChild T y.ptr = rootPtr T.nil s := by
  have hy := h.sub.1
  rw [deleteChild, hy.left, hy.right]
  obtain ⟨rfl,rfl⟩ | ⟨rfl,rfl⟩ := hs
  · rw [rootPtr_nil, if_neg (by simp)]
    split_ifs with h
    · rfl
    all_goals exact (not_not.mp h).symm
  · rw [rootPtr_nil]
    split_ifs with h
    · rfl
    all_goals exact (not_not.mp h).symm

/-- The splice takes `y` out and leaves the parent of `y` as the parent link of what took its place,
be that a node or the sentinel. -/
theorem deleteSplice_spec (h : Focus T C (.node y a b)) (hs : OnlyChild a b s)
    (hblack : T.color T.nil = .BLACK) :
    At (deleteSplice T y.ptr (rootPtr T.nil s)) C s (rootPtr T.nil s) := by
  have hpar : T.parent y.ptr = holeParent T.nil C := h.sub.1.parent
  have hsub : Linked T y.ptr s := by
    obtain ⟨-,rfl⟩ | ⟨-,rfl⟩ := hs
    · exact h.sub.2.2
    · exact h.sub.2.1
  have hmem : ∀ p ∈ ptrs s, p ∈ ptrs (.node y a b) ∧ p ≠ y.ptr := by
    have hn := h.nodup_sub
    simp only [ptrs_node, List.nodup_append, List.nodup_cons] at hn
    intro p hp
    obtain ⟨-,rfl⟩ | ⟨-,rfl⟩ := hs
    · refine ⟨by simp [hp],?_⟩
      rintro rfl
      exact hn.2.1.1 hp
    · exact ⟨by simp [hp],hn.2.2 p hp y.ptr (by simp)⟩
  have hroot : rootPtr T.nil s = T.nil ∨ rootPtr T.nil s ∈ ptrs s := by
    cases s with
    | nil => exact .inl rfl
    | node c l r => exact .inr (by simp)
  have hxy : rootPtr T.nil s ≠ y.ptr := by
    obtain hx | hx := hroot
    · rw [hx]; exact h.sub.1.ne_nil.symm
    · exact (hmem _ hx).2
  have hxC : ∀ p ∈ contextPtrs C, p ≠ rootPtr T.nil s := by
    intro p hp
    obtain hx | hx := hroot
    · rw [hx]; exact h.context.ne_nil hp
    · exact (h.ne_of_mem (hmem _ hx).1 hp).symm
  set x := rootPtr T.nil s with hx
  set T₁ := T.setParent x (holeParent T.nil C) with hT₁
  have hC₁ : LinkedContext T₁ y.ptr C := h.context.frame rfl rfl
    (fun p _ => ⟨rfl,rfl,rfl,rfl,rfl⟩) (fun p hp => update_of_ne (hxC p hp) _ _)
  have hyC : y.ptr ∉ contextPtrs C := fun hm => h.ne_of_mem (by simp) hm rfl
  have hsplice : deleteSplice T y.ptr x = hang T₁ x C := by
    rw [← rehang_eq_hang hC₁ hyC h.sub.1.ne_nil]
    have hpy : T₁.parent y.ptr = holeParent T.nil C := by
      simp [hT₁,update_of_ne hxy.symm,hpar]
    have hpT : T.parent y.ptr = holeParent T₁.nil C := hpar
    unfold deleteSplice rehang
    simp only [hpar, ← hT₁, hpy]
    rfl
  rw [hsplice]
  have hnil : (hang T₁ x C).nil = T.nil := by simp [hT₁]
  refine ⟨⟨?_,?_,?_⟩,?_,?_,?_⟩
  · rw [hnil, ← hx]
    exact hC₁.hang h.nodup_context x
  · rw [hnil]
    refine hsub.reparent hnil (fun p hp => ?_) (fun p _ hne => ?_) (fun _ => ?_) ?_
    · have hne := h.ne_holeParent (hmem p hp).1
      have hd : SameData T T₁ p := ⟨rfl,rfl,rfl,rfl,rfl⟩
      exact hd.trans (SameData.hang (n := T.nil) T₁ hne)
    · rw [hang_parent]
      exact update_of_ne hne _ _
    · rw [hang_parent]
      exact update_self ..
    · have hn := h.nodup_sub
      simp only [ptrs_node, List.nodup_append, List.nodup_cons] at hn
      obtain ⟨-,rfl⟩ | ⟨-,rfl⟩ := hs
      · exact hn.2.1.2
      · exact hn.1
  · have hsl : (ptrs s).Sublist (ptrs (.node y a b)) := by
      obtain ⟨-,rfl⟩ | ⟨-,rfl⟩ := hs
      · rw [ptrs_node]
        exact (List.sublist_cons_self _ _).trans (List.sublist_append_right _ _)
      · rw [ptrs_node]
        exact List.sublist_append_left _ _
    exact (ptrs_plug C s).nodup_iff.mpr (h.nodup_parts.sublist (hsl.append_right _))
  · rw [hnil]
  · rw [hnil, hang_parent]
    exact update_self ..
  · rw [hnil, hang_color]
    exact hblack

end Splice

/-- `rbtree_mini` walks down the left links to the leftmost node. -/
theorem rbtreeMini_spec {T : Rbtree V} (l : CellTree V) : ∀ {C : CellContext V} {c : Cell V}
    {r : CellTree V}, Focus T C (.node c l r) →
    ∃ D y b, BinaryTree.node c l r = plug D (.node y .nil b) ∧ (∀ f ∈ D, f.side = .left) ∧
      Returns (fun n => rbtreeMini n T c.ptr) y.ptr := by
  induction l with
  | nil =>
    intro C c r h
    refine ⟨[],c,r,rfl,by simp,while_exit ?_⟩
    simpa using h.sub.1.left
  | node d l' r' ih _ =>
    intro C c r h
    obtain ⟨D,y,b,hD,hside,hret⟩ := ih (focus_left.mpr h)
    have hleft : T.left c.ptr = d.ptr := h.sub.1.left
    refine ⟨D ++ [⟨.left,c,r⟩],y,b,by simp [plug_append,hD],?_,while_pass ?_ ?_⟩
    · intro f hf
      obtain hf | hf := List.mem_append.mp hf
      · exact hside f hf
      · rw [List.mem_singleton.mp hf]
    · rw [hleft]
      exact h.sub.2.1.1.ne_nil
    · rw [hleft]
      exact hret

theorem RB.relabel {c c' : Cell V} {l r : CellTree V} {k : Color} {n : ℕ}
    (h : RB k n (.node c l r)) (hc : c'.color = c.color) : RB k n (.node c' l r) := by
  obtain ⟨hk,rest⟩ := rb_node.mp h
  exact rb_node.mpr ⟨hc.trans hk,rest⟩

/-- The rest of `rbtree_delete` once the node `y` to take out is known. -/
theorem delete_finish {T : Rbtree V} {C : CellContext V} {y : Cell V} {a b s : CellTree V} {k : Color}
    {n : ℕ} {x : Ptr} (h : At T C s x) (hs : OnlyChild a b s) (hrb : RB k n (.node y a b))
    (hE : Expects C k n) (hcy : T.color y.ptr = y.color) :
    ∃ T' t N, Returns (fun n => if T.color y.ptr = .BLACK then
        (rbtreeDeleteFixup n T x).map fun T => (T,y.ptr) else some (T,y.ptr)) (T',y.ptr) ∧
      T'.nil = T.nil ∧ T'.color T'.nil = .BLACK ∧ Represents T' t ∧ RB .BLACK N t ∧
      entries t = entries (plug C s) := by
  rw [hcy]
  obtain ⟨hk,m,i,j,hn,ha,hb,hred⟩ := rb_node.mp hrb
  rw [hk]
  cases k with
  | BLACK =>
    obtain ⟨T',t,N,hret,rest⟩ := rbtreeDeleteFixup_spec h (lacking_of_onlyChild hs hrb hE)
    exact ⟨T',t,N,hret.map fun T => (T,y.ptr),rest⟩
  | RED =>
    obtain ⟨rfl,rfl⟩ := hred rfl
    obtain rfl : n = m := hn
    have hsub : RB .BLACK n s := by
      obtain ⟨-,rfl⟩ | ⟨-,rfl⟩ := hs
      · exact hb
      · exact ha
    obtain ⟨N,hN⟩ := rb_plug.mpr ⟨_,_,hsub,hE.black⟩
    exact ⟨T,_,N,Returns.const _,rfl,h.nil_black,represents_plug.mpr h.focus,hN,rfl⟩

section Data
variable (T : Rbtree V) (y x : Ptr)

@[simp] theorem deleteSplice_color : (deleteSplice T y x).color = T.color := by
  simp only [deleteSplice]; split_ifs <;> rfl
@[simp] theorem deleteSplice_key : (deleteSplice T y x).key = T.key := by
  simp only [deleteSplice]; split_ifs <;> rfl
@[simp] theorem deleteSplice_value : (deleteSplice T y x).value = T.value := by
  simp only [deleteSplice]; split_ifs <;> rfl
@[simp] theorem deleteSplice_nil : (deleteSplice T y x).nil = T.nil := by
  simp only [deleteSplice]; split_ifs <;> rfl

end Data

/-- The entries of a node, of what is left of it and of what is right of it. -/
theorem entries_plug_eq (C : CellContext V) (s : CellTree V) : entries (plug C s) =
    (before C).map (fun c => (c.ptr,c.key,c.value)) ++
      (entries s ++ (after C).map fun c => (c.ptr,c.key,c.value)) := by
  simp [entries,inorder_plug]

section Place
variable {T : Rbtree V} {C : CellContext V} {c : Cell V} {l r s : CellTree V} {k : Color} {n : ℕ}

@[simp] theorem deleteUnlink_nil (T : Rbtree V) (z y : Ptr) : (deleteUnlink T z y).nil = T.nil := by
  simp only [deleteUnlink]
  split_ifs <;> simp
@[simp] theorem deleteUnlink_color (T : Rbtree V) (z y : Ptr) : (deleteUnlink T z y).color = T.color := by
  simp only [deleteUnlink]
  split_ifs <;> simp

/-- A node with at most one child is the one to take out. -/
theorem delete_here_place (h : Focus T C (.node c l r)) (hblack : T.color T.nil = .BLACK)
    (hs : OnlyChild l r s) : Returns (fun n => deleteChoice n T c.ptr) c.ptr ∧
      At (deleteUnlink T c.ptr c.ptr) C s (deleteChild T c.ptr) := by
  have hif : T.left c.ptr = T.nil ∨ T.right c.ptr = T.nil := by
    rw [h.sub.1.left, h.sub.1.right]
    obtain ⟨rfl,-⟩ | ⟨rfl,-⟩ := hs
    · exact .inl rfl
    · exact .inr rfl
  constructor
  · refine Returns.congr (fun m => ?_) (Returns.const _)
    rw [deleteChoice, if_pos hif]
  · rw [deleteUnlink, onlyChild_root h hs]
    simpa using deleteSplice_spec h hs hblack

/-- `rbtree_delete` of a node with at most one child takes that node out. -/
theorem delete_here (h : Focus T C (.node c l r)) (hblack : T.color T.nil = .BLACK) (hs : OnlyChild l r s)
    (hrb : RB k n (.node c l r)) (hE : Expects C k n) :
    ∃ T' t N, Returns (fun n => rbtreeDelete n T c.ptr) (T',c.ptr) ∧ T'.nil = T.nil ∧
      T'.color T'.nil = .BLACK ∧ Represents T' t ∧ RB .BLACK N t ∧ entries t = entries (plug C s) := by
  obtain ⟨hchoice,hat⟩ := delete_here_place h hblack hs
  have hcy : (deleteUnlink T c.ptr c.ptr).color c.ptr = c.color := by simpa using h.sub.1.color
  obtain ⟨T',t,N,hret,hnil,rest⟩ := delete_finish hat hs hrb hE hcy
  exact ⟨T',t,N,hchoice.bind hret,by simpa using hnil,rest⟩

/-- Of a node with two children the next node is taken out, after its key and value are copied. -/
theorem delete_next_place (h : Focus T C (.node c l r)) (hblack : T.color T.nil = .BLACK) (hl : l ≠ .nil)
    (hr : r ≠ .nil) : ∃ D y b, r = plug D (.node y .nil b) ∧ (∀ f ∈ D, f.side = .left) ∧
      y.ptr ≠ c.ptr ∧ Returns (fun n => deleteChoice n T c.ptr) y.ptr ∧
      Focus T (D ++ ⟨.right,c,l⟩::C) (.node y .nil b) ∧
      At (deleteUnlink T c.ptr y.ptr)
        (D ++ ⟨.right,{ c with key := y.key, value := y.value },l⟩::C) b (deleteChild T y.ptr) := by
  cases r with
  | nil => contradiction
  | node d rl rr =>
  have hc := h.sub.1
  have hright : T.right c.ptr = d.ptr := hc.right
  have hdn : d.ptr ≠ T.nil := h.sub.2.2.1.ne_nil
  have hln : T.left c.ptr ≠ T.nil := by
    rw [hc.left]
    exact h.sub.2.1.ne_nil (rootPtr_mem hl)
  have hif : ¬ (T.left c.ptr = T.nil ∨ T.right c.ptr = T.nil) := by
    rw [hright]
    exact not_or.mpr ⟨hln,hdn⟩
  obtain ⟨D,y,b,hD,hside,hmini⟩ := rbtreeMini_spec rl (focus_right.mpr h)
  rw [hD] at h
  have hy : Focus T (D ++ ⟨.right,c,l⟩::C) (.node y .nil b) := focus_append.mpr (focus_right.mpr h)
  have hcell := hy.sub.1
  have hyc : y.ptr ≠ c.ptr := by
    have hm : c.ptr ∈ contextPtrs (D ++ ⟨.right,c,l⟩::C) := by
      clear hside hD hmini hy hcell h
      induction D with
      | nil => simp
      | cons f D ih => simp [ih]
    exact hy.ne_of_mem (by simp) hm
  have hchoice : Returns (fun m => deleteChoice m T c.ptr) y.ptr := by
    refine Returns.congr (fun m => ?_) hmini
    rw [deleteChoice, if_neg hif, rbtreeSuccessor, hright, if_pos hdn]
  refine ⟨D,y,b,hD,hside,hyc,hchoice,hy,?_⟩
  -- the splice, then the copy
  have hs : OnlyChild .nil b b := .inl ⟨rfl,rfl⟩
  have hat := deleteSplice_spec hy hs hblack
  rw [deleteUnlink, if_pos hyc, onlyChild_root hy hs]
  set x := rootPtr T.nil b with hx
  set T₁ := deleteSplice T y.ptr x with hT₁
  set c' : Cell V := { c with key := y.key, value := y.value } with hc'
  set T₂ := (T₁.setKey c.ptr (T₁.key y.ptr)).setValue c.ptr (T₁.value y.ptr) with hT₂
  have hk₁ : T₁.key y.ptr = y.key := by simpa [hT₁] using hcell.key
  have hv₁ : T₁.value y.ptr = y.value := by simpa [hT₁] using hcell.value
  have hf₁ : Focus T₁ C (.node c l (plug D b)) := focus_right.mp (focus_append.mp hat.focus)
  have hf₂ : Focus T₂ C (.node c' l (plug D b)) := by
    refine hf₁.relabel rfl ?_ ?_ ?_ rfl rfl rfl rfl rfl
    · exact (update_eq_self_iff.mpr hf₁.sub.1.color.symm).symm
    · simp only [hT₂, hk₁, Rbtree.setKey, Rbtree.setValue, hc']
    · simp only [hT₂, hv₁, Rbtree.setKey, Rbtree.setValue, hc']
  refine ⟨focus_append.mpr (focus_right.mpr hf₂),hat.here,?_,hat.nil_black⟩
  have hhole : holeParent T₁.nil (D ++ ⟨.right,c',l⟩::C) = holeParent T₁.nil (D ++ ⟨.right,c,l⟩::C) := by
    cases D <;> rfl
  exact hat.parent.trans hhole.symm

/-- The colours around the next node are those of the old tree. -/
theorem delete_next_rb {D : CellContext V} {y : Cell V} {b : CellTree V} (c' : Cell V)
    (hc' : c'.color = c.color)
    (hrb : RB k n (.node c l (plug D (.node y .nil b)))) (hE : Expects C k n) :
    ∃ k n, RB k n (.node y .nil b) ∧ Expects (D ++ ⟨.right,c',l⟩::C) k n := by
  apply rb_plug.mp
  rw [plug_append, plug_cons, fill_right]
  exact rb_plug.mpr ⟨k,n,hrb.relabel hc',hE⟩

/-- `rbtree_delete` of a node with two children takes the next node out. -/
theorem delete_next (h : Focus T C (.node c l r)) (hblack : T.color T.nil = .BLACK) (hl : l ≠ .nil)
    (hr : r ≠ .nil) (hrb : RB k n (.node c l r)) (hE : Expects C k n) :
    ∃ T' t N y E, Returns (fun n => rbtreeDelete n T c.ptr) (T',y) ∧ T'.nil = T.nil ∧
      T'.color T'.nil = .BLACK ∧ Represents T' t ∧ RB .BLACK N t ∧ y ≠ c.ptr ∧
      entries r = (y,T.key y,T.value y) :: E ∧
      entries t = (before C).map (fun c => (c.ptr,c.key,c.value)) ++ (entries l ++
        (c.ptr,T.key y,T.value y) :: E ++ (after C).map fun c => (c.ptr,c.key,c.value)) := by
  obtain ⟨D,y,b,rfl,hside,hyc,hchoice,hy,hat⟩ := delete_next_place h hblack hl hr
  have hcell := hy.sub.1
  have hs : OnlyChild .nil b b := .inl ⟨rfl,rfl⟩
  obtain ⟨k',n',hrb',hE'⟩ := delete_next_rb (c := c) ⟨c.ptr,c.color,y.key,y.value⟩ rfl hrb hE
  have hcy : (deleteUnlink T c.ptr y.ptr).color y.ptr = y.color := by simpa using hcell.color
  obtain ⟨T',t,N,hret,hnil,hblack',hrep,hN,hsame⟩ := delete_finish hat hs hrb' hE' hcy
  have hinr : entries (plug D (.node y .nil b)) = (y.ptr,y.key,y.value) :: entries (plug D b) := by
    simp [entries_plug_eq,before_of_left hside]
  refine ⟨T',t,N,y.ptr,entries (plug D b),hchoice.bind hret,by simpa using hnil,hblack',hrep,hN,hyc,?_,?_⟩
  · rw [hinr, hcell.key, hcell.value]
  · rw [hsame, plug_append, plug_cons, fill_right, entries_plug_eq, hcell.key, hcell.value]
    simp

/-- Where `rbtree_delete` calls its fixup: at the place of the node that it has taken out. -/
theorem delete_place {T : Rbtree V} {t : CellTree V} {z : Ptr} (hT : IsRbtree T t) (hz : z ∈ ptrs t) :
    ∃ y C s, Returns (fun n => deleteChoice n T z) y ∧ y ∈ ptrs t ∧
      At (deleteUnlink T z y) C s (deleteChild T y) ∧
      ((deleteUnlink T z y).color y = .BLACK → Lacking C s) := by
  obtain ⟨c,hc,rfl⟩ := List.mem_map.mp hz
  obtain ⟨C,l,r,rfl⟩ := exists_focus hc
  have h : Focus T C (.node c l r) := represents_plug.mp hT.holds
  obtain ⟨k,n,hrb,hE⟩ := rb_plug.mp hT.rb
  by_cases hone : l = .nil ∨ r = .nil
  · obtain ⟨s,hs⟩ := exists_onlyChild hone
    obtain ⟨hchoice,hat⟩ := delete_here_place h hT.nil_black hs
    refine ⟨c.ptr,C,s,hchoice,hz,hat,fun hblack => ?_⟩
    rw [deleteUnlink_color, h.sub.1.color] at hblack
    obtain rfl : k = .BLACK := hrb.color.symm.trans hblack
    exact lacking_of_onlyChild hs hrb hE
  · obtain ⟨hl,hr⟩ := not_or.mp hone
    obtain ⟨D,y,b,rfl,-,-,hchoice,hy,hat⟩ := delete_next_place h hT.nil_black hl hr
    refine ⟨y.ptr,_,b,hchoice,?_,hat,fun hblack => ?_⟩
    · rw [(ptrs_plug C _).mem_iff]
      simp [(ptrs_plug D _).mem_iff]
    · rw [deleteUnlink_color, hy.sub.1.color] at hblack
      obtain ⟨k',n',hrb',hE'⟩ :=
        delete_next_rb (c := c) ⟨c.ptr,c.color,y.key,y.value⟩ rfl hrb hE
      obtain rfl : k' = .BLACK := hrb'.color.symm.trans hblack
      exact lacking_of_onlyChild (.inl ⟨rfl,rfl⟩) hrb' hE'

end Place

/-- What `rbtree_delete` does to a red-black heap, entry by entry: it takes the entry of `z` out, and
with it either the node `z` itself or the next node `y`, whose key and value go to `z`. -/
theorem rbtreeDelete_entries {T : Rbtree V} {t : CellTree V} {z : Ptr} (hT : IsRbtree T t)
    (hz : z ∈ ptrs t) : ∃ T' t' y A B, Returns (fun n => rbtreeDelete n T z) (T',y) ∧ IsRbtree T' t' ∧
      T'.nil = T.nil ∧
      ((y = z ∧ entries t = A ++ (z,T.key z,T.value z) :: B ∧ entries t' = A ++ B) ∨
       (y ≠ z ∧ entries t = A ++ (z,T.key z,T.value z) :: (y,T.key y,T.value y) :: B ∧
        entries t' = A ++ (z,T.key y,T.value y) :: B)) := by
  obtain ⟨c,hc,rfl⟩ := List.mem_map.mp hz
  obtain ⟨C,l,r,rfl⟩ := exists_focus hc
  have h : Focus T C (.node c l r) := represents_plug.mp hT.holds
  obtain ⟨k,n,hrb,hE⟩ := rb_plug.mp hT.rb
  have hcell := h.sub.1
  have hsorted := hT.sorted
  rw [keys_eq_entries, entries_plug_eq, entries_node] at hsorted
  rw [hcell.key, hcell.value, entries_plug_eq, entries_node]
  set P := (before C).map fun c => (c.ptr,c.key,c.value) with hP
  set Q := (after C).map fun c => (c.ptr,c.key,c.value) with hQ
  by_cases hone : l = .nil ∨ r = .nil
  · obtain ⟨s,hs⟩ := exists_onlyChild hone
    obtain ⟨T',t',N,hret,hnil,hblack,hrep,hN,hsame⟩ := delete_here h hT.nil_black hs hrb hE
    have hlr : entries s = entries l ++ entries r := by
      obtain ⟨rfl,rfl⟩ | ⟨rfl,rfl⟩ := hs <;> simp
    have hsame' : entries t' = (P ++ entries l) ++ (entries r ++ Q) := by
      rw [hsame, entries_plug_eq, hlr]
      simp [hP,hQ]
    refine ⟨T',t',c.ptr,P ++ entries l,entries r ++ Q,hret,isRbtree_of_rb hN hrep ?_ hblack,hnil,
      .inl ⟨rfl,by simp,hsame'⟩⟩
    rw [keys_eq_entries, hsame']
    refine hsorted.sublist (List.Sublist.map _ ?_)
    simp only [List.append_assoc, List.cons_append]
    exact (((List.sublist_cons_self _ _).append_left _).append_left _)
  · obtain ⟨hl,hr⟩ := not_or.mp hone
    obtain ⟨T',t',N,y,E,hret,hnil,hblack,hrep,hN,hyc,hE',hsame⟩ :=
      delete_next h hT.nil_black hl hr hrb hE
    have hsame' : entries t' = (P ++ entries l) ++ (c.ptr,T.key y,T.value y) :: (E ++ Q) := by
      rw [hsame]
      simp [hP,hQ]
    refine ⟨T',t',y,P ++ entries l,E ++ Q,hret,isRbtree_of_rb hN hrep ?_ hblack,hnil,
      .inr ⟨hyc,by rw [hE']; simp,hsame'⟩⟩
    rw [hE'] at hsorted
    rw [keys_eq_entries, hsame']
    simp only [List.map_append, List.map_cons, List.append_assoc, List.cons_append] at hsorted ⊢
    exact hsorted.sublist (((List.sublist_cons_self _ _).append_left _).append_left _)

/-- Whichever node goes, the pair of `z` is the one that is lost. -/
theorem rbtreeDelete_pairs {T : Rbtree V} {t t' : CellTree V} {y z : Ptr} {A B : List (Ptr × ℤ × V)}
    (h : (y = z ∧ entries t = A ++ (z,T.key z,T.value z) :: B ∧ entries t' = A ++ B) ∨
      (y ≠ z ∧ entries t = A ++ (z,T.key z,T.value z) :: (y,T.key y,T.value y) :: B ∧
        entries t' = A ++ (z,T.key y,T.value y) :: B)) :
    ∃ A B, pairs t = A ++ (T.key z,T.value z) :: B ∧ pairs t' = A ++ B := by
  simp only [pairs_eq_entries]
  obtain ⟨-,ht,ht'⟩ | ⟨-,ht,ht'⟩ := h
  · exact ⟨A.map fun e => e.2,B.map fun e => e.2,by simp [ht],by simp [ht']⟩
  · exact ⟨A.map fun e => e.2,(T.key y,T.value y) :: B.map fun e => e.2,by simp [ht],by simp [ht']⟩

/-- `rbtree_delete` keeps a red-black heap a red-black heap and takes exactly the entry of `z` out.
The node it returns is the one node that is no longer linked, so it may be freed. -/
theorem rbtreeDelete_correct (T : Rbtree V) (t : CellTree V) (z : Ptr) (hT : IsRbtree T t)
    (hz : Reachable T z) :
    ∃ T' t' y A B, Returns (fun n => rbtreeDelete n T z) (T',y) ∧ IsRbtree T' t' ∧ T'.nil = T.nil ∧
      pairs t = A ++ (T.key z,T.value z) :: B ∧ pairs t' = A ++ B ∧
      Reachable T y ∧ ¬ Reachable T' y ∧ ∀ p, Reachable T p → p ≠ y → Reachable T' p := by
  have hz' : z ∈ ptrs t := (reachable_iff hT.holds).mp hz
  obtain ⟨T',t',y,A,B,hret,hT',hnil,hcase⟩ := rbtreeDelete_entries hT hz'
  obtain ⟨A',B',hpairs,hpairs'⟩ := rbtreeDelete_pairs hcase
  have hnodup : ((entries t).map fun e => e.1).Nodup := by
    rw [← ptrs_eq_entries]
    exact hT.holds.nodup
  refine ⟨T',t',y,A',B',hret,hT',hnil,hpairs,hpairs',?_⟩
  simp only [reachable_iff hT.holds, reachable_iff hT'.holds, ptrs_eq_entries]
  obtain ⟨rfl,ht,ht'⟩ | ⟨hyz,ht,ht'⟩ := hcase
  · rw [ht] at hnodup ⊢
    rw [ht']
    simp only [List.map_append, List.map_cons, List.nodup_append, List.nodup_cons] at hnodup
    simp only [List.map_append, List.map_cons, List.mem_append, List.mem_cons, not_or]
    refine ⟨.inr (.inl trivial),⟨fun h => hnodup.2.2 _ h _ (by simp) rfl,hnodup.2.1.1⟩,?_⟩
    tauto
  · rw [ht] at hnodup ⊢
    rw [ht']
    simp only [List.map_append, List.map_cons, List.nodup_append, List.nodup_cons] at hnodup
    simp only [List.map_append, List.map_cons, List.mem_append, List.mem_cons, not_or]
    refine ⟨.inr (.inr (.inl trivial)),⟨fun h => hnodup.2.2 _ h _ (by simp) rfl,hyz,hnodup.2.1.2.1⟩,?_⟩
    tauto

-- below 2 the lost node 1 is made good by the rotations at 2 and at 6; 6 gets the data of 7
example : (rbtreeDelete 8 sampleTree 1).map (fun r => (r.1.root,r.2)) = some (6,1) ∧
    (rbtreeDelete 8 sampleTree 6).map (fun r => (r.1.root,r.2,r.1.key 6)) = some (2,7,70) := by decide

theorem rbtreeDelete_correct_sample :
    (∃ T' t' y A B, Returns (fun n => rbtreeDelete n sampleTree 1) (T',y) ∧ IsRbtree T' t' ∧
      T'.nil = sampleTree.nil ∧ pairs sampleCells = A ++ (10,1) :: B ∧ pairs t' = A ++ B ∧
      Reachable sampleTree y ∧ ¬ Reachable T' y ∧ ∀ p, Reachable sampleTree p → p ≠ y → Reachable T' p) ∧
    ∃ T' t' y A B, Returns (fun n => rbtreeDelete n sampleTree 6) (T',y) ∧ IsRbtree T' t' ∧
      T'.nil = sampleTree.nil ∧ pairs sampleCells = A ++ (60,6) :: B ∧ pairs t' = A ++ B ∧
      Reachable sampleTree y ∧ ¬ Reachable T' y ∧ ∀ p, Reachable sampleTree p → p ≠ y → Reachable T' p :=
  ⟨rbtreeDelete_correct sampleTree _ 1 sampleTree_isRbtree (sampleTree_reachable (by decide)),
    rbtreeDelete_correct sampleTree _ 6 sampleTree_isRbtree (sampleTree_reachable (by decide))⟩

end ServerKit.RbTree
