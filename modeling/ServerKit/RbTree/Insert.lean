import ServerKit.RbTree.InsertFixup
import ServerKit.Lib.SortedList

/-! `rbtree_insert` on a red-black heap. -/
namespace ServerKit.RbTree
open Function BinaryTree ServerKit.Lib

variable {V : Type*}

def keys (t : CellTree V) : List ℤ := (inorder t).map Cell.key

@[simp] theorem keys_nil : keys (.nil : CellTree V) = [] := rfl
@[simp] theorem keys_node (c : Cell V) (l r : CellTree V) :
    keys (.node c l r) = keys l ++ c.key :: keys r := by simp [keys]

/-- The heap is a red-black tree heap, and `t` is the tree it holds: the keys are strictly ordered,
the root is BLACK, no RED node has a RED child, every path to nil passes equally many BLACK nodes,
parent and child links agree, the root hangs from nil, and nil is BLACK. -/
structure IsRbtree (T : Rbtree V) (t : CellTree V) : Prop where
  holds : Represents T t
  sorted : (keys t).Pairwise (· < ·)
  root_black : rootColor t = .BLACK
  noRedRed : NoRedRed t
  height : ∃ n, BlackHeight t n
  nil_black : T.color T.nil = .BLACK

theorem IsRbtree.rb {T : Rbtree V} {t : CellTree V} (h : IsRbtree T t) : ∃ N, RB .BLACK N t := by
  obtain ⟨n,hn⟩ := h.height
  exact ⟨n,h.root_black,h.noRedRed,hn⟩

theorem isRbtree_of_rb {T : Rbtree V} {t : CellTree V} {N : ℕ} (h : RB .BLACK N t)
    (holds : Represents T t) (sorted : (keys t).Pairwise (· < ·)) (hnil : T.color T.nil = .BLACK) :
    IsRbtree T t := ⟨holds,sorted,h.color,h.noRedRed,⟨N,h.height⟩,hnil⟩

theorem keys_eq_entries (t : CellTree V) : keys t = (entries t).map fun e => e.2.1 := by
  simp [keys,entries]

/-- The keys and values that a tree holds, in order. -/
def pairs (t : CellTree V) : List (ℤ × V) := (inorder t).map fun c => (c.key,c.value)

theorem pairs_eq_entries (t : CellTree V) : pairs t = (entries t).map fun e => e.2 := by
  simp [pairs,entries]

theorem keys_eq_pairs (t : CellTree V) : keys t = (pairs t).map Prod.fst := by
  simp [keys,pairs]

theorem ptrs_eq_entries (t : CellTree V) : ptrs t = (entries t).map fun e => e.1 := by
  simp [ptrs,entries]

/-- The key of the new node lies between the nodes left and right of the hole. -/
structure Between (k : ℤ) (C : CellContext V) : Prop where
  before : ∀ c ∈ before C, c.key < k
  after : ∀ c ∈ after C, k < c.key

/-- The search loop of `rbtree_insert` below a subtree: it stops at the node with the key, or at the
one place of the tree between whose neighbours the key belongs. -/
theorem insertDescend_spec {T : Rbtree V} {z : Ptr} (s : CellTree V) : ∀ {C : CellContext V},
    Focus T C s → (keys s).Pairwise (· < ·) → Between (T.key z) C →
    ((∃ c ∈ inorder s, c.key = T.key z) ∧
      Returns (fun n => loop (insertDescendPass T z) n (holeParent T.nil C,rootPtr T.nil s)) none) ∨
    ∃ C', plug C' .nil = plug C s ∧ Between (T.key z) C' ∧
      Returns (fun n => loop (insertDescendPass T z) n (holeParent T.nil C,rootPtr T.nil s))
        (some (holeParent T.nil C')) := by
  induction s with
  | nil =>
    intro C h _ hC
    exact .inr ⟨C,rfl,hC,loop_done (by simp [insertDescendPass])⟩
  | node c l r ihl ihr =>
    intro C h hs hC
    have hc := h.sub.1
    simp only [keys_node, List.pairwise_append, List.pairwise_cons] at hs
    obtain ⟨hsl,⟨hcr,hsr⟩,hlc⟩ := hs
    have hpass : insertDescendPass T z (holeParent T.nil C,c.ptr) =
        if T.key z < c.key then .inl (c.ptr,rootPtr T.nil l)
        else if T.key z > c.key then .inl (c.ptr,rootPtr T.nil r) else .inr none := by
      simp [insertDescendPass,hc.ne_nil,hc.key,hc.left,hc.right]
    obtain hlt | heq | hgt := lt_trichotomy (T.key z) c.key
    · rw [if_pos hlt] at hpass
      have hbet : Between (T.key z) (⟨.left,c,r⟩::C) := by
        refine ⟨hC.before,fun d hd => ?_⟩
        simp only [after_left, List.mem_append, List.mem_cons] at hd
        obtain (rfl | hd) | hd := hd
        · exact hlt
        · exact hlt.trans (hcr d.key (List.mem_map_of_mem hd))
        · exact hC.after d hd
      obtain ⟨⟨d,hd,hk⟩,hret⟩ | ⟨C',hplug,hbet',hret⟩ := ihl (focus_left.mpr h) hsl hbet
      · exact .inl ⟨⟨d,by simp [hd],hk⟩,loop_next hpass hret⟩
      · exact .inr ⟨C',hplug,hbet',loop_next hpass hret⟩
    · refine .inl ⟨⟨c,by simp,heq.symm⟩,loop_done ?_⟩
      rw [rootPtr_node, hpass, if_neg (by omega), if_neg (by omega)]
    · rw [if_neg (by omega), if_pos hgt] at hpass
      have hbet : Between (T.key z) (⟨.right,c,l⟩::C) := by
        refine ⟨fun d hd => ?_,hC.after⟩
        simp only [before_right, List.mem_append, List.mem_singleton] at hd
        obtain hd | hd | rfl := hd
        · exact hC.before d hd
        · exact (hlc d.key (List.mem_map_of_mem hd) c.key (by simp)).trans hgt
        · exact hgt
      obtain ⟨⟨d,hd,hk⟩,hret⟩ | ⟨C',hplug,hbet',hret⟩ := ihr (focus_right.mpr h) hsr hbet
      · exact .inl ⟨⟨d,by simp [hd],hk⟩,loop_next hpass hret⟩
      · exact .inr ⟨C',hplug,hbet',loop_next hpass hret⟩

/-- What the node holds once it is linked. -/
def newCell (T : Rbtree V) (z : Ptr) : Cell V := ⟨z,.RED,T.key z,T.value z⟩

theorem insertLink_eq {T : Rbtree V} {z : Ptr} {C : CellContext V}
    (h : LinkedContext T T.nil C) (hz : z ∉ contextPtrs C) (hC : Between (T.key z) C) :
    insertLink T z (holeParent T.nil C) =
      (((((hang (T.setParent z (holeParent T.nil C)) z C).setLeft z T.nil).setRight z T.nil)).setColor z
        .RED) := by
  cases C with
  | nil => simp [insertLink,hang]
  | cons f C =>
    obtain ⟨side,c,t⟩ := f
    have hcz : c.ptr ≠ z := by rintro rfl; simp at hz
    cases side
    · have hk := hC.after c (by simp)
      simp [insertLink,hang,h.1.ne_nil,h.1.key,hk]
    · have hk := hC.before c (by simp)
      simp [insertLink,hang,h.1.ne_nil,h.1.key,not_lt.mpr hk.le]

/-- The writes before the fixup hang the new node into the hole. -/
theorem Focus.insertLink {T : Rbtree V} {z : Ptr} {C : CellContext V} (h : Focus T C .nil)
    (hz : z ∉ contextPtrs C) (hzn : z ≠ T.nil) (hC : Between (T.key z) C) :
    Focus (insertLink T z (holeParent T.nil C)) C (.node (newCell T z) .nil .nil) := by
  have hne : ∀ p ∈ contextPtrs C, p ≠ z := by rintro p hp rfl; exact hz hp
  have hnz : z ≠ holeParent T.nil C := by
    cases C with
    | nil => exact hzn
    | cons f C => exact (hne _ (by simp)).symm
  rw [insertLink_eq h.context hz hC]
  have h₁ : LinkedContext (T.setParent z (holeParent T.nil C)) T.nil C :=
    h.context.frame rfl rfl (fun p _ => ⟨rfl,rfl,rfl,rfl,rfl⟩)
      (fun p hp => update_of_ne (hne p hp) _ _)
  have h₂ := h₁.hang h.nodup_context z
  refine ⟨?_,⟨⟨?_,?_,?_,?_,?_,?_,?_⟩,trivial,trivial⟩,?_⟩
  · refine h₂.frame rfl rfl (fun p hp => ⟨?_,rfl,rfl,?_,?_⟩) (fun p _ => rfl)
    · exact update_of_ne (hne p hp) _ _
    · exact update_of_ne (hne p hp) _ _
    · exact update_of_ne (hne p hp) _ _
  · simpa [newCell] using hzn
  · simp [newCell]
  · simp [newCell]
  · simp [newCell]
  · simp [newCell]
  · simp [newCell]
  · simp [newCell]
  · refine (ptrs_plug C _).nodup_iff.mpr ?_
    simpa [newCell,hz] using h.nodup_context

/-- For a new key, the search ends above a hole of the tree, and the links put the new node there. -/
theorem insert_place {T : Rbtree V} {t : CellTree V} {z : Ptr} (hT : IsRbtree T t)
    (hz : z ∉ ptrs t) (hzn : z ≠ T.nil) (hk : T.key z ∉ keys t) :
    ∃ y C, Returns (fun n => loop (insertDescendPass T z) n (T.nil,T.root)) (some y) ∧
      plug C .nil = t ∧ Between (T.key z) C ∧ (insertLink T z y).nil = T.nil ∧
      Focus (insertLink T z y) C (.node (newCell T z) .nil .nil) ∧
      (insertLink T z y).color (insertLink T z y).nil = .BLACK ∧ Expects C .BLACK 0 := by
  obtain ⟨⟨c,hc,heq⟩,-⟩ | ⟨C,hplug,hbet,hret⟩ :=
    insertDescend_spec (z := z) t (C := []) hT.holds hT.sorted ⟨by simp,by simp⟩
  · exact absurd (heq ▸ List.mem_map_of_mem hc) hk
  rw [← show T.root = rootPtr T.nil t from hT.holds.context] at hret
  rw [plug_nil] at hplug
  subst hplug
  have h : Focus T C .nil := represents_plug.mp hT.holds
  have hzC : z ∉ contextPtrs C := by simpa [(ptrs_plug C .nil).mem_iff] using hz
  obtain ⟨N,hN⟩ := hT.rb
  obtain ⟨k,n,hnil,hE⟩ := rb_plug.mp ⟨N,hN⟩
  obtain rfl : Color.BLACK = k := hnil.color
  obtain rfl : n = 0 := hnil.height
  have hnil' : (insertLink T z (holeParent T.nil C)).nil = T.nil := by
    rw [insertLink_eq h.context hzC hbet]; simp
  refine ⟨_,C,hret,rfl,hbet,hnil',h.insertLink hzC hzn hbet,?_,hE⟩
  rw [hnil', insertLink_eq h.context hzC hbet]
  simpa [update_of_ne hzn.symm] using hT.nil_black

/-- What `rbtree_insert` does to a red-black heap, entry by entry. -/
theorem rbtreeInsert_entries {T : Rbtree V} {t : CellTree V} {z : Ptr} (hT : IsRbtree T t)
    (hz : z ∉ ptrs t) (hzn : z ≠ T.nil) (hk : T.key z ∉ keys t) :
    ∃ T' t' A B, Returns (fun n => rbtreeInsert n T z) T' ∧ IsRbtree T' t' ∧ T'.nil = T.nil ∧
      entries t = A ++ B ∧ entries t' = A ++ (z,T.key z,T.value z) :: B ∧
      (∀ e ∈ A, e.2.1 < T.key z) ∧ ∀ e ∈ B, T.key z < e.2.1 := by
  obtain ⟨y,C,hret,rfl,hbet,hnil',hlink,hblack,hE⟩ := insert_place hT hz hzn hk
  obtain ⟨T',t',hret',hend,hroot⟩ := rbtreeInsertFixup_spec hlink hblack rfl RB.nil RB.nil hE
  obtain ⟨M,hM⟩ := hend.rb
  rw [blacken_of_black hroot] at hM
  have hsame := hend.same
  simp only [entries, inorder_plug, inorder_node, inorder_nil, List.nil_append, List.map_append,
    List.map_cons, List.cons_append] at hsame
  have hbefore : ∀ e ∈ (before C).map (fun c => (c.ptr,c.key,c.value)), e.2.1 < T.key z := by
    intro e he
    obtain ⟨c,hc,rfl⟩ := List.mem_map.mp he
    exact hbet.before c hc
  have hafter : ∀ e ∈ (after C).map (fun c => (c.ptr,c.key,c.value)), T.key z < e.2.1 := by
    intro e he
    obtain ⟨c,hc,rfl⟩ := List.mem_map.mp he
    exact hbet.after c hc
  refine ⟨T',t',_,_,?_,isRbtree_of_rb hM hend.holds ?_ hend.nil_black,hend.nil_eq.trans hnil',?_,hsame,
    hbefore,hafter⟩
  · exact hret.bind hret'
  · have hs := hT.sorted
    simp only [keys, inorder_plug, inorder_nil, List.nil_append, List.map_append,
      List.pairwise_append] at hs
    rw [keys_eq_entries]
    change (List.map _ (List.map _ (inorder t'))).Pairwise (· < ·)
    rw [hsame, List.map_append, List.map_cons, List.pairwise_append, List.pairwise_cons]
    refine ⟨by simpa [comp_def] using hs.1,⟨?_,by simpa [comp_def] using hs.2.1⟩,?_⟩
    · simpa [newCell] using hbet.after
    · intro a ha b hb
      obtain ⟨e,he,rfl⟩ := List.mem_map.mp ha
      have hlt := hbefore e he
      obtain rfl | hb := List.mem_cons.mp hb
      · exact hlt
      · obtain ⟨f,hf,rfl⟩ := List.mem_map.mp hb
        exact hlt.trans (hafter f hf)
  · simp [entries,inorder_plug]

/-- The search loop of `rbtree_insert` finds a key that is already there. -/
theorem insertDescend_existing {T : Rbtree V} {t : CellTree V} {z : Ptr} (hT : IsRbtree T t)
    (hk : T.key z ∈ keys t) : Returns (fun n => loop (insertDescendPass T z) n (T.nil,T.root)) none := by
  obtain ⟨-,hret⟩ | ⟨C,hplug,hbet,-⟩ :=
    insertDescend_spec (z := z) t (C := []) hT.holds hT.sorted ⟨by simp,by simp⟩
  · rw [← show T.root = rootPtr T.nil t from hT.holds.context] at hret
    exact hret
  · rw [plug_nil] at hplug
    subst hplug
    obtain ⟨c,hc,heq⟩ := List.mem_map.mp hk
    simp only [inorder_plug, inorder_nil, List.nil_append, List.mem_append] at hc
    obtain hc | hc := hc
    · exact absurd heq (hbet.before c hc).ne
    · exact absurd heq (hbet.after c hc).ne'

/-- A key that is already there: `rbtree_insert` returns from its search loop. -/
theorem rbtreeInsert_existing {T : Rbtree V} {t : CellTree V} {z : Ptr} (hT : IsRbtree T t)
    (hk : T.key z ∈ keys t) : Returns (fun n => rbtreeInsert n T z) T :=
  (insertDescend_existing hT hk).bind (Returns.const T)

theorem IsRbtree.key_mem {T : Rbtree V} {t : CellTree V} {z : Ptr} (hT : IsRbtree T t)
    (hz : z ∈ ptrs t) : T.key z ∈ keys t := by
  obtain ⟨c,hc,rfl⟩ := List.mem_map.mp hz
  have hkey : c.key ∈ keys t := List.mem_map_of_mem hc
  obtain ⟨C,l,r,rfl⟩ := exists_focus hc
  rwa [show T.key c.ptr = c.key from (represents_plug.mp hT.holds).sub.1.key]

/-- `rbtree_insert` keeps a red-black heap a red-black heap: a new key is inserted in order and no
node is lost, and for a key that is already there nothing is written at all. -/
theorem rbtreeInsert_correct (T : Rbtree V) (t : CellTree V) (z : Ptr) (hT : IsRbtree T t)
    (hz : ¬ Reachable T z) (hzn : z ≠ T.nil) :
    (T.key z ∉ keys t → ∃ T' t', Returns (fun n => rbtreeInsert n T z) T' ∧ IsRbtree T' t' ∧
      T'.nil = T.nil ∧ keys t' = (keys t).orderedInsert (· ≤ ·) (T.key z) ∧
      ∀ p, Reachable T' p ↔ p = z ∨ Reachable T p) ∧
    (T.key z ∈ keys t → Returns (fun n => rbtreeInsert n T z) T) := by
  refine ⟨fun hk => ?_,rbtreeInsert_existing hT⟩
  have hz' : z ∉ ptrs t := by rwa [← reachable_iff hT.holds]
  obtain ⟨T',t',A,B,hret,hT',hnil,hAB,hAB',-,-⟩ := rbtreeInsert_entries hT hz' hzn hk
  refine ⟨T',t',hret,hT',hnil,?_,fun p => ?_⟩
  · have hs := hT'.sorted.imp le_of_lt
    rw [keys_eq_entries, hAB', List.map_append, List.map_cons] at hs
    rw [keys_eq_entries, keys_eq_entries, hAB, hAB', List.map_append, List.map_append, List.map_cons]
    exact (orderedInsert_eq_of_sorted hs).symm
  · rw [reachable_iff hT.holds, reachable_iff hT'.holds, ptrs_eq_entries, ptrs_eq_entries, hAB, hAB']
    simp only [List.map_append, List.map_cons, List.mem_append, List.mem_cons]
    tauto

/-- A heap of the seven nodes `1`..`7`. The node `8`, between `3` and `4`, is not linked. -/
def sampleTree : Rbtree ℕ where
  root := 2
  nil := 0
  color p := if p ∈ [3,5,6] then .RED else .BLACK
  right p := match p with
    | 2 => 6
    | 4 => 5
    | 6 => 7
    | _ => 0
  left p := match p with
    | 2 => 1
    | 4 => 3
    | 6 => 4
    | _ => 0
  parent p := match p with
    | 1 | 6 => 2
    | 3 | 5 => 4
    | 4 | 7 => 6
    | _ => 0
  key p := if p = 8 then 35 else 10*p
  value p := p

/-- The tree of `sampleTree`. -/
def sampleCells : CellTree ℕ :=
  .node ⟨2,.BLACK,20,2⟩
    (.node ⟨1,.BLACK,10,1⟩ .nil .nil)
    (.node ⟨6,.RED,60,6⟩
      (.node ⟨4,.BLACK,40,4⟩ (.node ⟨3,.RED,30,3⟩ .nil .nil) (.node ⟨5,.RED,50,5⟩ .nil .nil))
      (.node ⟨7,.BLACK,70,7⟩ .nil .nil))

theorem sampleTree_represents : Represents sampleTree sampleCells := by
  refine ⟨rfl,?_,by decide⟩
  simp only [sampleCells, Linked]
  repeat' constructor
  all_goals decide

theorem sampleTree_isRbtree : IsRbtree sampleTree sampleCells := by
  have hleaf : ∀ p : Ptr, ∀ k : ℤ, ∀ v, RB .RED 0 (.node ⟨p,.RED,k,v⟩ (.nil : CellTree ℕ) .nil) :=
    fun p k v => .red rfl .nil .nil
  have hblack : ∀ p : Ptr, ∀ k : ℤ, ∀ v, RB .BLACK 1 (.node ⟨p,.BLACK,k,v⟩ (.nil : CellTree ℕ) .nil) :=
    fun p k v => .black rfl .nil .nil
  have hroot : RB .BLACK 2 sampleCells :=
    .black rfl (hblack 1 10 1) (.red rfl (.black rfl (hleaf 3 30 3) (hleaf 5 50 5)) (hblack 7 70 7))
  exact isRbtree_of_rb hroot sampleTree_represents (by decide) rfl

theorem sampleTree_reachable {p : Ptr} (hp : p ∈ [1,2,3,4,5,6,7]) : Reachable sampleTree p := by
  rw [reachable_iff sampleTree_represents]
  revert p
  decide

theorem sampleTree_notReachable : ¬ Reachable sampleTree 8 := by
  rw [reachable_iff sampleTree_represents]
  decide

-- the first pass paints 3, 4 and 5, the second one rotates at 6 and at 2
example : (rbtreeInsert 8 sampleTree 8).map Rbtree.root = some 4 := by decide

theorem rbtreeInsert_correct_sample :
    (∃ T' t', Returns (fun n => rbtreeInsert n sampleTree 8) T' ∧ IsRbtree T' t' ∧
      T'.nil = sampleTree.nil ∧ keys t' = [10,20,30,35,40,50,60,70] ∧
      ∀ p, Reachable T' p ↔ p = 8 ∨ Reachable sampleTree p) ∧
    Returns (fun n => rbtreeInsert n (sampleTree.setKey 8 40) 8) (sampleTree.setKey 8 40) := by
  have hrep : Represents (sampleTree.setKey 8 40) sampleCells := by
    refine ⟨rfl,?_,by decide⟩
    simp only [sampleCells, Linked]
    repeat' constructor
    all_goals decide
  have hsame : IsRbtree (sampleTree.setKey 8 40) sampleCells := { sampleTree_isRbtree with holds := hrep }
  refine ⟨(rbtreeInsert_correct sampleTree _ 8 sampleTree_isRbtree sampleTree_notReachable (by decide)).1
    (by decide),(rbtreeInsert_correct _ _ 8 hsame ?_ (by decide)).2 (by decide)⟩
  rw [reachable_iff hrep]
  decide

end ServerKit.RbTree
