import ServerKit.RbTree.Delete
import ServerKit.Lib.Transition
import Mathlib.Data.Finmap
import Mathlib.Data.Fintype.EquivFin

/-! The red-black tree as a finite map: runs of insertions and deletions from the empty tree. -/
namespace ServerKit.RbTree
open Function BinaryTree ServerKit.Lib

variable {V : Type*}

/-! What the two readers see. -/

theorem rbtreeSearch_linked {T : Rbtree V} {k : ℤ} (s : CellTree V) : ∀ {a : Ptr}, Linked T a s →
    (keys s).Pairwise (· < ·) → ∃ p, Returns (fun n => loop (fun node : Ptr =>
      if node ≠ T.nil then
        if k < T.key node then .inl (T.left node)
        else if k > T.key node then .inl (T.right node)
        else .inr node
      else .inr T.nil) n (rootPtr T.nil s)) p ∧
      ((p = T.nil ∧ k ∉ keys s) ∨ ∃ c ∈ inorder s, c.ptr = p ∧ c.key = k) := by
  induction s with
  | nil => exact fun _ _ => ⟨T.nil,loop_done (by simp),.inl ⟨rfl,by simp⟩⟩
  | node c l r ihl ihr =>
    intro a h hs
    obtain ⟨hc,hl,hr⟩ := h
    simp only [keys_node, List.pairwise_append, List.pairwise_cons] at hs
    obtain ⟨hsl,⟨hcr,hsr⟩,hlc⟩ := hs
    obtain hlt | rfl | hgt := lt_trichotomy k c.key
    · obtain ⟨p,hret,hp⟩ := ihl hl hsl
      refine ⟨p,loop_next ?_ hret,hp.imp (fun hp => ⟨hp.1,?_⟩) ?_⟩
      · simp [hc.ne_nil,hc.key,hc.left,hlt]
      · simp only [keys_node, List.mem_append, List.mem_cons, not_or]
        exact ⟨hp.2,by omega,fun hm => by have := hcr k hm; omega⟩
      · rintro ⟨d,hd,hdp⟩
        exact ⟨d,by simp [hd],hdp⟩
    · exact ⟨c.ptr,loop_done (by simp [hc.ne_nil,hc.key]),.inr ⟨c,by simp,rfl,rfl⟩⟩
    · obtain ⟨p,hret,hp⟩ := ihr hr hsr
      refine ⟨p,loop_next ?_ hret,hp.imp (fun hp => ⟨hp.1,?_⟩) ?_⟩
      · simp [hc.ne_nil,hc.key,hc.right,hgt,not_lt.mpr hgt.le]
      · simp only [keys_node, List.mem_append, List.mem_cons, not_or]
        exact ⟨fun hm => by have := hlc k hm c.key (by simp); omega,by omega,hp.2⟩
      · rintro ⟨d,hd,hdp⟩
        exact ⟨d,by simp [hd],hdp⟩

/-- `rbtree_search` finds the node with the key, or nil when there is none. -/
theorem rbtreeSearch_spec {T : Rbtree V} {t : CellTree V} (hT : IsRbtree T t) (k : ℤ) :
    ∃ p, Returns (fun n => rbtreeSearch n T k) p ∧
      ((p = T.nil ∧ k ∉ keys t) ∨ ∃ c ∈ inorder t, c.ptr = p ∧ c.key = k) := by
  have hroot : T.root = rootPtr T.nil t := Focus.context hT.holds
  obtain ⟨p,hret,hp⟩ := rbtreeSearch_linked (k := k) t hT.holds.sub hT.sorted
  refine ⟨p,?_,hp⟩
  rw [← hroot] at hret
  exact hret

/-- A node that a search has found is linked. -/
theorem rbtreeSearch_linked_node {T : Rbtree V} {t : CellTree V} {k : ℤ} {p : Ptr} (hT : IsRbtree T t)
    (found : Returns (fun n => rbtreeSearch n T k) p) (hp : p ≠ T.nil) :
    ∃ c ∈ inorder t, c.ptr = p ∧ c.key = k := by
  obtain ⟨q,hq,hcase⟩ := rbtreeSearch_spec hT k
  obtain rfl := found.unique hq
  exact hcase.resolve_left fun h => hp h.1

/-- `rbtree_traversal` prints key and colour of every node of a subtree in order. -/
theorem rbtreeTraversal_spec {T : Rbtree V} {a : Ptr} {s : CellTree V} (h : Linked T a s) :
    Returns (fun n => rbtreeTraversal n T (rootPtr T.nil s))
      ((inorder s).map fun c => (c.key,c.color)) := by
  induction s generalizing a with
  | nil =>
    refine Returns.succ (fun n => ?_) (Returns.const _)
    simp [rbtreeTraversal]
  | node c l r ihl ihr =>
    obtain ⟨hc,hl,hr⟩ := h
    have hboth := (ihl hl).bind (g := fun n x => (rbtreeTraversal n T (rootPtr T.nil r)).map fun y =>
      x ++ (c.key,c.color) :: y) ((ihr hr).map fun y => _ ++ (c.key,c.color) :: y)
    refine Returns.succ (fun n => ?_) (by simpa using hboth)
    simp [rbtreeTraversal,hc.ne_nil,hc.left,hc.right,hc.key,hc.color]

/-- The record of a node in the heap has the key that the tree says. -/
theorem Represents.key {T : Rbtree V} {t : CellTree V} (hT : Represents T t) {c : Cell V}
    (hc : c ∈ inorder t) : T.key c.ptr = c.key := by
  obtain ⟨C,l,r,rfl⟩ := exists_focus hc
  exact (represents_plug.mp hT).sub.1.key

section Least
variable {T : Rbtree V} {C : CellContext V} {c : Cell V} {l r : CellTree V}

theorem rbtreeMini_head (h : Focus T C (.node c l r)) : ∃ y Y, inorder (.node c l r) = y :: Y ∧
    Returns (fun n => rbtreeMini n T c.ptr) y.ptr := by
  obtain ⟨D,y,b,hD,hside,hret⟩ := rbtreeMini_spec l h
  refine ⟨y,inorder b ++ after D,?_,hret⟩
  rw [hD, inorder_plug, before_of_left hside]
  simp

end Least

/-! The abstract map. -/

/-- A call that a client makes. -/
inductive Call (V : Type*) where
  | insert (k : ℤ) (v : V)
  | delete (k : ℤ)

abbrev KeyMap (V : Type*) := Finmap fun _ : ℤ => V

/-- Insert-if-absent and remove. -/
def KeyMap.step (m : KeyMap V) : Call V → KeyMap V
  | .insert k v => if k ∈ m then m else Finmap.insert k v m
  | .delete k => m.erase k

/-- `malloc` and the two assignments of a client: at the address `p` the record `r` appears, whose
other fields are whatever the memory held. -/
def Rbtree.store (T : Rbtree V) (p : Ptr) (color : Color) (right left parent : Ptr) (k : ℤ) (v : V) :
    Rbtree V :=
  { T with
    color := update T.color p color, right := update T.right p right
    left := update T.left p left, parent := update T.parent p parent
    key := update T.key p k, value := update T.value p v }

/-- One call on the heap. A new node is none of the linked ones; a deletion gets the node that a
search for the key returned. -/
inductive CallStep : Rbtree V → Call V → Rbtree V → Prop
  | insert {T T' p color right left parent k v} (hp : p ≠ T.nil) (fresh : ¬ Reachable T p)
      (ret : Returns (fun n => rbtreeInsert n (T.store p color right left parent k v) p) T') :
      CallStep T (.insert k v) T'
  | delete {T T' p y k} (found : Returns (fun n => rbtreeSearch n T k) p) (hp : p ≠ T.nil)
      (ret : Returns (fun n => rbtreeDelete n T p) (T',y)) : CallStep T (.delete k) T'

/-- The heap holds the map. -/
def Holds (T : Rbtree V) (m : KeyMap V) : Prop :=
  ∃ t, IsRbtree T t ∧ ∀ k v, m.lookup k = some v ↔ (k,v) ∈ pairs t

theorem store_isRbtree {T : Rbtree V} {t : CellTree V} {p : Ptr} {color : Color}
    {right left parent : Ptr} {k : ℤ} {v : V} (hT : IsRbtree T t) (hp : p ≠ T.nil)
    (fresh : p ∉ ptrs t) : IsRbtree (T.store p color right left parent k v) t := by
  have hne : ∀ q ∈ ptrs t, q ≠ p := by
    rintro q hq rfl
    exact fresh hq
  have hf : Focus T [] t := hT.holds
  refine ⟨⟨hf.context,?_,hf.nodup⟩,hT.sorted,hT.root_black,hT.noRedRed,hT.height,?_⟩
  · refine hf.sub.frame rfl (fun q hq => ⟨?_,?_,?_,?_,?_⟩) (fun q hq => ?_)
    all_goals exact update_of_ne (hne q hq) _ _
  · exact (update_of_ne hp.symm _ _).trans hT.nil_black

/-- A key occurs once. -/
theorem pairs_inj {T : Rbtree V} {t : CellTree V} {A B : List (ℤ × V)} {k : ℤ} {v : V}
    (hT : IsRbtree T t) (h : pairs t = A ++ (k,v) :: B) : ∀ e ∈ A ++ B, e.1 ≠ k := by
  have hs := hT.sorted
  rw [keys_eq_pairs, h] at hs
  simp only [List.map_append, List.map_cons, List.pairwise_append, List.pairwise_cons] at hs
  intro e he
  obtain he | he := List.mem_append.mp he
  · exact (hs.2.2 _ (List.mem_map_of_mem he) k (by simp)).ne
  · exact (hs.2.1.1 _ (List.mem_map_of_mem he)).ne'

section Step
variable {T T' : Rbtree V} {m : KeyMap V}

theorem Holds.mem_iff {t : CellTree V} (h : ∀ k v, m.lookup k = some v ↔ (k,v) ∈ pairs t) (k : ℤ) :
    k ∈ m ↔ k ∈ keys t := by
  rw [← Finmap.lookup_isSome, Option.isSome_iff_exists, keys_eq_pairs, List.mem_map]
  constructor
  · rintro ⟨v,hv⟩
    exact ⟨(k,v),(h k v).mp hv,rfl⟩
  · rintro ⟨⟨k',v⟩,hv,rfl⟩
    exact ⟨v,(h _ v).mpr hv⟩

/-- An insertion returns, and it inserts if absent. -/
theorem holds_insert {p : Ptr} {color : Color} {right left parent : Ptr} {k : ℤ} {v : V}
    (h : Holds T m) (hp : p ≠ T.nil) (fresh : ¬ Reachable T p) :
    ∃ T', Returns (fun n => rbtreeInsert n (T.store p color right left parent k v) p) T' ∧
      T'.nil = T.nil ∧ Holds T' (m.step (.insert k v)) := by
  obtain ⟨t,hT,hm⟩ := h
  have hpt : p ∉ ptrs t := by rwa [← reachable_iff hT.holds]
  have hT₁ : IsRbtree (T.store p color right left parent k v) t := store_isRbtree hT hp hpt
  set T₁ := T.store p color right left parent k v with hdef
  have hkey : T₁.key p = k := by simp [hdef,Rbtree.store]
  have hval : T₁.value p = v := by simp [hdef,Rbtree.store]
  by_cases hk : k ∈ keys t
  · refine ⟨T₁,rbtreeInsert_existing hT₁ (by rwa [hkey]),rfl,t,hT₁,fun k' v' => ?_⟩
    rw [KeyMap.step, if_pos ((Holds.mem_iff hm k).mpr hk)]
    exact hm k' v'
  · obtain ⟨T',t',A,B,hret,hT',hnil,hAB,hAB',-,-⟩ := rbtreeInsert_entries hT₁ hpt hp (by rwa [hkey])
    refine ⟨T',hret,hnil,t',hT',fun k' v' => ?_⟩
    rw [KeyMap.step, if_neg (fun hm' => hk ((Holds.mem_iff hm k).mp hm')), pairs_eq_entries, hAB']
    rw [hkey,hval]
    simp only [List.map_append, List.map_cons, List.mem_append, List.mem_cons]
    by_cases hkk : k' = k
    · subst hkk
      have hnot : ∀ v', (k',v') ∉ pairs t := by
        intro v' hmem
        rw [keys_eq_pairs] at hk
        exact hk (List.mem_map_of_mem (f := Prod.fst) hmem)
      have hn := hnot v'
      rw [pairs_eq_entries, hAB] at hn
      simp only [List.map_append, List.mem_append, not_or] at hn
      rw [Finmap.lookup_insert]
      constructor
      · intro heq
        exact .inr (.inl (by rw [Option.some.inj heq]))
      · rintro (h | h | h)
        · exact absurd h hn.1
        · rw [(Prod.mk.inj h).2]
        · exact absurd h hn.2
    · rw [Finmap.lookup_insert_of_ne m hkk, hm, pairs_eq_entries, hAB]
      simp [hkk]

/-- A deletion of a node that a search returned returns, and it removes the key. -/
theorem holds_delete {p : Ptr} {k : ℤ} (h : Holds T m)
    (found : Returns (fun n => rbtreeSearch n T k) p) (hp : p ≠ T.nil) :
    ∃ T' y, Returns (fun n => rbtreeDelete n T p) (T',y) ∧ T'.nil = T.nil ∧
      Holds T' (m.step (.delete k)) := by
  obtain ⟨t,hT,hm⟩ := h
  obtain ⟨c,hc,rfl,rfl⟩ := rbtreeSearch_linked_node hT found hp
  obtain ⟨T',t',y,A,B,hret,hT',hnil,hcase⟩ := rbtreeDelete_entries hT (List.mem_map_of_mem hc)
  obtain ⟨A',B',hpairs,hpairs'⟩ := rbtreeDelete_pairs hcase
  refine ⟨T',y,hret,hnil,t',hT',fun k' v' => ?_⟩
  obtain ⟨C,l,r,rfl⟩ := exists_focus hc
  have hkey : T.key c.ptr = c.key := (represents_plug.mp hT.holds).sub.1.key
  rw [hkey] at hpairs
  rw [KeyMap.step, hpairs']
  have hinj := pairs_inj hT hpairs
  by_cases hkk : k' = c.key
  · subst hkk
    rw [Finmap.lookup_erase]
    constructor
    · intro h
      exact absurd h (by simp)
    · intro h
      exact absurd rfl (hinj _ h)
  · rw [Finmap.lookup_erase_ne hkk, hm, hpairs]
    simp only [List.mem_append, List.mem_cons, Prod.mk.injEq]
    tauto

/-- Every call follows the abstract map. -/
theorem callStep_holds {c : Call V} (h : Holds T m) (hstep : CallStep T c T') :
    Holds T' (m.step c) := by
  cases hstep with
  | insert hp fresh ret =>
    obtain ⟨T₁,hret,-,hT₁⟩ := holds_insert h hp fresh
    rwa [ret.unique hret]
  | delete found hp ret =>
    obtain ⟨T₁,y,hret,-,hT₁⟩ := holds_delete h found hp
    obtain ⟨rfl,-⟩ := Prod.mk.inj (ret.unique hret)
    exact hT₁

end Step

/-- The empty tree of `main`: the root is nil and nil is BLACK. -/
def IsEmpty (T : Rbtree V) : Prop := T.root = T.nil ∧ T.color T.nil = .BLACK

theorem IsEmpty.holds {T : Rbtree V} (h : IsEmpty T) : Holds T (∅ : KeyMap V) := by
  refine ⟨.nil,⟨⟨h.1,trivial,by simp⟩,by simp,rfl,trivial,⟨0,rfl⟩,h.2⟩,fun k v => ?_⟩
  simp [pairs]

/-- The map that a sequence of calls leaves. -/
def mapAfter (calls : List (Call V)) : KeyMap V := calls.foldl KeyMap.step ∅

/-- On a heap that holds a map, `rbtree_search` is the lookup. -/
theorem Holds.search {T : Rbtree V} {m : KeyMap V} (h : Holds T m) (k : ℤ) :
    ∃ p, Returns (fun n => rbtreeSearch n T k) p ∧ (p = T.nil ↔ k ∉ m) ∧
      ∀ v, m.lookup k = some v → Reachable T p ∧ T.key p = k ∧ T.value p = v := by
  obtain ⟨t,hT,hm⟩ := h
  obtain ⟨p,hret,⟨rfl,hk⟩ | ⟨c,hc,rfl,rfl⟩⟩ := rbtreeSearch_spec hT k
  · have hkm : k ∉ m := fun hkm => hk ((Holds.mem_iff hm k).mp hkm)
    refine ⟨_,hret,iff_of_true rfl hkm,fun v hv => absurd ?_ hkm⟩
    exact Finmap.lookup_isSome.mp (by simp [hv])
  · have hkey : c.key ∈ keys t := List.mem_map_of_mem hc
    have hptr : c.ptr ∈ ptrs t := List.mem_map_of_mem hc
    have hcell : (c.key,c.value) ∈ pairs t := List.mem_map_of_mem hc
    obtain ⟨C,l,r,rfl⟩ := exists_focus hc
    have hstores := (represents_plug.mp hT.holds).sub.1
    refine ⟨_,hret,iff_of_false hstores.ne_nil (not_not.mpr ((Holds.mem_iff hm _).mpr hkey)),?_⟩
    intro v hv
    refine ⟨(reachable_iff hT.holds).mpr hptr,hstores.key,?_⟩
    rw [(hm _ _).mpr hcell] at hv
    rw [hstores.value]
    exact Option.some.inj hv

/-- On a heap that holds a map, `rbtree_traversal` visits the keys in increasing order. -/
theorem Holds.traversal {T : Rbtree V} {m : KeyMap V} (h : Holds T m) :
    ∃ visited, Returns (fun n => rbtreeTraversal n T T.root) visited ∧
      (visited.map Prod.fst).Pairwise (· < ·) ∧ ∀ k, k ∈ visited.map Prod.fst ↔ k ∈ m := by
  obtain ⟨t,hT,hm⟩ := h
  have hroot : T.root = rootPtr T.nil t := Focus.context hT.holds
  have hkeys : ((inorder t).map fun c => (c.key,c.color)).map Prod.fst = keys t := by
    simp [keys]
  refine ⟨_,by rw [hroot]; exact rbtreeTraversal_spec hT.holds.sub,?_,fun k => ?_⟩
  · rw [hkeys]
    exact hT.sorted
  · rw [hkeys, Holds.mem_iff hm]

/-- After any calls on the empty tree every search and every traversal agrees with the map, and
the next insertion or deletion returns. -/
theorem rbtree_refines_map {T₀ T : Rbtree V} {calls : List (Call V)} (h₀ : IsEmpty T₀)
    (hrun : Run CallStep T₀ calls T) :
    (∀ k, ∃ p, Returns (fun n => rbtreeSearch n T k) p ∧ (p = T.nil ↔ k ∉ mapAfter calls) ∧
      ∀ v, (mapAfter calls).lookup k = some v →
        Reachable T p ∧ T.key p = k ∧ T.value p = v) ∧
    (∃ visited, Returns (fun n => rbtreeTraversal n T T.root) visited ∧
      (visited.map Prod.fst).Pairwise (· < ·) ∧
      ∀ k, k ∈ visited.map Prod.fst ↔ k ∈ mapAfter calls) ∧
    (∀ p color right left parent k v, p ≠ T.nil → ¬ Reachable T p → ∃ T',
      Returns (fun n => rbtreeInsert n (T.store p color right left parent k v) p) T') ∧
    (∀ p k, Returns (fun n => rbtreeSearch n T k) p → p ≠ T.nil → ∃ T' y,
      Returns (fun n => rbtreeDelete n T p) (T',y)) := by
  have hm : Holds T (mapAfter calls) :=
    hrun.simulates h₀.holds fun s l s' m hs hstep => callStep_holds hs hstep
  refine ⟨hm.search,hm.traversal,fun p color right left parent k v hp fresh => ?_,?_⟩
  · obtain ⟨T',hret,-⟩ := holds_insert hm hp fresh
    exact ⟨T',hret⟩
  · intro p k found hp
    obtain ⟨T',y,hret,-⟩ := holds_delete hm found hp
    exact ⟨T',y,hret⟩

section Runs
variable {T₀ T : Rbtree V} {calls : List (Call V)}

/-- After any calls there is a free address for the next node, and its insertion returns. -/
theorem run_insert (h₀ : IsEmpty T₀) (hrun : Run CallStep T₀ calls T) (k : ℤ) (v : V) :
    ∃ T', Run CallStep T₀ (calls ++ [.insert k v]) T' := by
  have hm : Holds T (mapAfter calls) :=
    hrun.simulates h₀.holds fun _ _ _ _ hs hstep => callStep_holds hs hstep
  obtain ⟨t,hT,-⟩ := id hm
  obtain ⟨p,hp⟩ := Infinite.exists_notMem_finset (T.nil :: ptrs t).toFinset
  simp only [List.mem_toFinset, List.mem_cons, not_or] at hp
  have fresh : ¬ Reachable T p := fun hpr => hp.2 ((reachable_iff hT.holds).mp hpr)
  obtain ⟨T',hret⟩ : ∃ T', Returns (fun n => rbtreeInsert n (T.store p .RED 0 0 0 k v) p) T' := by
    obtain ⟨T',hret,-⟩ := holds_insert hm hp.1 fresh
    exact ⟨T',hret⟩
  exact ⟨T',hrun.snoc (.insert hp.1 fresh hret)⟩

/-- After any calls a key that is there can be deleted. -/
theorem run_delete (h₀ : IsEmpty T₀) (hrun : Run CallStep T₀ calls T) {k : ℤ} (hk : k ∈ mapAfter calls) :
    ∃ T', Run CallStep T₀ (calls ++ [.delete k]) T' := by
  have hm : Holds T (mapAfter calls) :=
    hrun.simulates h₀.holds fun _ _ _ _ hs hstep => callStep_holds hs hstep
  obtain ⟨p,found,hp,-⟩ := hm.search k
  have hpn : p ≠ T.nil := fun heq => hp.mp heq hk
  obtain ⟨T',y,hret,-⟩ := holds_delete hm found hpn
  exact ⟨T',hrun.snoc (.delete found hpn hret)⟩

end Runs

/-- The heap of `main` before its loop, on memory full of zeros. -/
def emptyTree : Rbtree ℤ where
  root := 0
  nil := 0
  color _ := .BLACK
  right _ := 0
  left _ := 0
  parent _ := 0
  key _ := 0
  value _ := 0

/-- The key `3` is there when it is inserted again, and without `1` the tree has to be rotated. -/
def sampleCalls : List (Call ℤ) :=
  [.insert 1 10,.insert 2 20,.insert 3 30,.insert 4 40,.insert 3 33,.delete 1]

theorem exists_sampleRun : ∃ T, Run CallStep emptyTree sampleCalls T := by
  have h₀ : IsEmpty emptyTree := ⟨rfl,rfl⟩
  obtain ⟨T₁,h₁⟩ := run_insert h₀ .nil 1 10
  obtain ⟨T₂,h₂⟩ := run_insert h₀ h₁ 2 20
  obtain ⟨T₃,h₃⟩ := run_insert h₀ h₂ 3 30
  obtain ⟨T₄,h₄⟩ := run_insert h₀ h₃ 4 40
  obtain ⟨T₅,h₅⟩ := run_insert h₀ h₄ 3 33
  exact run_delete h₀ h₅ (by decide)

theorem rbtree_refines_map_sample : ∃ T visited, Run CallStep emptyTree sampleCalls T ∧
    Returns (fun n => rbtreeTraversal n T T.root) visited ∧
    (visited.map Prod.fst).Pairwise (· < ·) ∧ (∀ k, k ∈ visited.map Prod.fst ↔ k ∈ mapAfter sampleCalls) ∧
    (∃ p, Returns (fun n => rbtreeSearch n T 3) p ∧ Reachable T p ∧ T.key p = 3 ∧ T.value p = 30) ∧
    Returns (fun n => rbtreeSearch n T 1) T.nil := by
  obtain ⟨T,hrun⟩ := exists_sampleRun
  obtain ⟨hsearch,⟨visited,htrav,hsorted,hkeys⟩,-⟩ := rbtree_refines_map ⟨rfl,rfl⟩ hrun
  obtain ⟨p,hp,-,hfound⟩ := hsearch 3
  obtain ⟨q,hq,hnil,-⟩ := hsearch 1
  rw [hnil.mpr (by decide)] at hq
  exact ⟨T,visited,hrun,htrav,hsorted,hkeys,⟨p,hp,hfound 30 (by decide)⟩,hq⟩

end ServerKit.RbTree
