import Mathlib.Analysis.SpecialFunctions.Log.Base
import Mathlib.Data.Set.Card
import ServerKit.RbTree.Refinement

/-! How deep a red-black tree is: a search visits at most about twice the logarithm of the number of
its nodes. -/
namespace ServerKit.RbTree
open Function ServerKit.Lib

variable {V : Type*}

/-- The nodes of a path from a node down to nil. -/
inductive Path (T : Rbtree V) : Ptr → List Ptr → Prop
  | nil : Path T T.nil []
  | left {x : Ptr} {l : List Ptr} (hx : x ≠ T.nil) (hl : Path T (T.left x) l) : Path T x (x :: l)
  | right {x : Ptr} {l : List Ptr} (hx : x ≠ T.nil) (hr : Path T (T.right x) l) : Path T x (x :: l)

/-- The loop of `rbtree_search`, with the nodes that it visits. -/
def searchVisits (T : Rbtree V) (key : ℤ) : ℕ → Ptr → Option (Ptr × List Ptr)
  | 0,_ => none
  | fuel+1,node =>
    if node ≠ T.nil then
      if key < T.key node then
        (searchVisits T key fuel (T.left node)).map fun r => (r.1,node :: r.2)
      else if key > T.key node then
        (searchVisits T key fuel (T.right node)).map fun r => (r.1,node :: r.2)
      else some (node,[node])
    else some (T.nil,[])

open BinaryTree

/-- Without the visited nodes it is the search. -/
theorem searchVisits_fst (T : Rbtree V) (k : ℤ) (n : ℕ) :
    (searchVisits T k n T.root).map Prod.fst = rbtreeSearch n T k := by
  rw [rbtreeSearch]
  generalize T.root = x
  induction n generalizing x with
  | zero => rfl
  | succ n ih =>
    rw [searchVisits, loop]
    by_cases hx : x ≠ T.nil
    · rw [if_pos hx, if_pos hx]
      by_cases hlt : k < T.key x
      · rw [if_pos hlt, if_pos hlt, Option.map_map]
        exact ih (T.left x)
      rw [if_neg hlt, if_neg hlt]
      by_cases hgt : k > T.key x
      · rw [if_pos hgt, if_pos hgt, Option.map_map]
        exact ih (T.right x)
      · rw [if_neg hgt, if_neg hgt]
        rfl
    · rw [if_neg hx, if_neg hx]
      rfl

section Paths
variable {T : Rbtree V} {a : Ptr} {s t : CellTree V} {k : ℤ}

theorem path_nil {path : List Ptr} (hpath : Path T T.nil path) : path = [] := by
  generalize hx : T.nil = x at hpath
  cases hpath with
  | nil => rfl
  | left hne | right hne => exact absurd hx.symm hne

theorem path_cons {x : Ptr} {path : List Ptr} (hpath : Path T x path) (hx : x ≠ T.nil) :
    ∃ rest, path = x :: rest ∧ (Path T (T.left x) rest ∨ Path T (T.right x) rest) := by
  cases hpath with
  | nil => exact absurd rfl hx
  | left _ hl => exact ⟨_,rfl,.inl hl⟩
  | right _ hr => exact ⟨_,rfl,.inr hr⟩

theorem exists_path (h : Linked T a s) : ∃ l, Path T (rootPtr T.nil s) l := by
  induction s generalizing a with
  | nil => exact ⟨[],.nil⟩
  | node c l r ihl ihr =>
    obtain ⟨hc,hl,hr⟩ := h
    obtain ⟨path,hpath⟩ := ihl hl
    rw [← hc.left] at hpath
    exact ⟨c.ptr :: path,.left hc.ne_nil hpath⟩

/-- A search goes down one of the paths. -/
theorem searchVisits_spec (h : Linked T a s) (k : ℤ) : ∃ p vs path,
    Returns (fun n => searchVisits T k n (rootPtr T.nil s)) (p,vs) ∧
      Path T (rootPtr T.nil s) path ∧ vs <+: path := by
  induction s generalizing a with
  | nil =>
    refine ⟨T.nil,[],[],Returns.succ (fun n => ?_) (Returns.const _),.nil,List.nil_prefix⟩
    exact if_neg (not_not.mpr rfl)
  | node c l r ihl ihr =>
    have hpath := exists_path h
    obtain ⟨hc,hl,hr⟩ := h
    obtain ⟨pl,vl,pathl,hretl,hpathl,hvl⟩ := ihl hl
    obtain ⟨pr,vr,pathr,hretr,hpathr,hvr⟩ := ihr hr
    rw [← hc.left] at hretl hpathl
    rw [← hc.right] at hretr hpathr
    change ∃ p vs path, Returns (fun n => searchVisits T k n c.ptr) (p,vs) ∧ _
    by_cases hlt : k < T.key c.ptr
    · have hret := hretl.map fun r => (r.1,c.ptr :: r.2)
      refine ⟨pl,c.ptr :: vl,c.ptr :: pathl,Returns.succ (fun n => ?_) hret,
        .left hc.ne_nil hpathl,?_⟩
      · rw [searchVisits, if_pos hc.ne_nil, if_pos hlt]
      · exact List.cons_prefix_cons.mpr ⟨rfl,hvl⟩
    by_cases hgt : k > T.key c.ptr
    · have hret := hretr.map fun r => (r.1,c.ptr :: r.2)
      refine ⟨pr,c.ptr :: vr,c.ptr :: pathr,Returns.succ (fun n => ?_) hret,
        .right hc.ne_nil hpathr,?_⟩
      · rw [searchVisits, if_pos hc.ne_nil, if_neg hlt, if_pos hgt]
      · exact List.cons_prefix_cons.mpr ⟨rfl,hvr⟩
    · refine ⟨c.ptr,[c.ptr],c.ptr :: pathl,Returns.succ (fun n => ?_) (Returns.const _),
        .left hc.ne_nil hpathl,?_⟩
      · rw [searchVisits, if_pos hc.ne_nil, if_neg hlt, if_neg hgt]
      · exact List.cons_prefix_cons.mpr ⟨rfl,List.nil_prefix⟩

/-- No path is longer than twice the black height, but for a RED root. -/
theorem RB.length_path {j : Color} {n : ℕ} (hs : RB j n s) (h : Linked T a s) {path : List Ptr}
    (hpath : Path T (rootPtr T.nil s) path) : path.length + blacks j ≤ 2*n+1 := by
  induction s generalizing a j n path with
  | nil =>
    obtain rfl : n = 0 := hs.height
    obtain rfl : j = .BLACK := hs.color.symm
    rw [path_nil hpath]
    exact le_rfl
  | node c l r ihl ihr =>
    obtain ⟨hc,hl,hr⟩ := h
    obtain ⟨hcol,m,i,i',rfl,hsl,hsr,hred⟩ := rb_node.mp hs
    have hpath : Path T c.ptr path := hpath
    obtain ⟨rest,rfl,hrest⟩ := path_cons hpath hc.ne_nil
    rw [hc.left, hc.right] at hrest
    have hlen : rest.length ≤ 2*m+1-blacks i ∨ rest.length ≤ 2*m+1-blacks i' := by
      obtain hrest | hrest := hrest
      · exact .inl (Nat.le_sub_of_add_le (ihl hsl hl hrest))
      · exact .inr (Nat.le_sub_of_add_le (ihr hsr hr hrest))
    rw [List.length_cons]
    cases j with
    | RED =>
      obtain ⟨rfl,rfl⟩ := hred rfl
      simp only [blacks] at hlen ⊢
      omega
    | BLACK =>
      simp only [blacks] at hlen ⊢
      omega

/-- Every subtree has at least as many nodes as its black height asks for. -/
theorem RB.two_pow_le {j : Color} {n : ℕ} (hs : RB j n s) : 2^n ≤ (ptrs s).length+1 := by
  induction s generalizing j n with
  | nil =>
    obtain rfl : n = 0 := hs.height
    exact le_rfl
  | node c l r ihl ihr =>
    obtain ⟨hcol,m,i,i',rfl,hsl,hsr,-⟩ := rb_node.mp hs
    have hl := ihl hsl
    have hr := ihr hsr
    have hle : 2^(m+blacks j) ≤ 2^m+2^m := by
      rw [← two_mul, ← Nat.pow_succ']
      refine Nat.pow_le_pow_right zero_lt_two ?_
      cases j with
      | RED => exact m.le_succ
      | BLACK => exact le_rfl
    rw [ptrs_node, List.length_append, List.length_cons]
    omega

end Paths
/-- The linked nodes are finitely many. -/
theorem ncard_reachable {T : Rbtree V} {t : CellTree V} (hT : Represents T t) :
    {p | Reachable T p}.Finite ∧ {p | Reachable T p}.ncard = (ptrs t).length := by
  have hset : {p | Reachable T p} = ((ptrs t).toFinset : Set Ptr) := by
    ext p
    rw [List.coe_toFinset]
    exact reachable_iff hT
  rw [hset]
  refine ⟨Finset.finite_toSet _,?_⟩
  rw [Set.ncard_coe_finset]
  exact List.toFinset_card_of_nodup (Focus.nodup_sub hT)

/-- A tree is not higher than twice the logarithm of the number of its nodes. -/
theorem IsRbtree.path_le {T : Rbtree V} {t : CellTree V} (hT : IsRbtree T t) {path : List Ptr}
    (hpath : Path T T.root path) : 2^path.length ≤ ((ptrs t).length+1)^2 := by
  obtain ⟨n,hn⟩ := hT.rb
  have hroot : T.root = rootPtr T.nil t := Focus.context hT.holds
  rw [hroot] at hpath
  have hlen : path.length ≤ n*2 := by
    have hle := hn.length_path hT.holds.sub hpath
    simp only [blacks] at hle
    omega
  calc 2^path.length ≤ 2^(n*2) := Nat.pow_le_pow_right zero_lt_two hlen
    _ = (2^n)^2 := pow_mul 2 n 2
    _ ≤ ((ptrs t).length+1)^2 := Nat.pow_le_pow_left hn.two_pow_le 2

/-- After any calls on the empty tree every path from the root to nil is at most twice as long as the
logarithm of the number of linked nodes, and so is the list of nodes that a search visits. -/
theorem rbtree_height {T₀ T : Rbtree V} {calls : List (Call V)} (h₀ : IsEmpty T₀)
    (hrun : Run CallStep T₀ calls T) :
    {p | Reachable T p}.Finite ∧
    (∀ path, Path T T.root path → 2^path.length ≤ ({p | Reachable T p}.ncard+1)^2) ∧
    ∀ k, ∃ p vs, Returns (fun n => searchVisits T k n T.root) (p,vs) ∧
      Returns (fun n => rbtreeSearch n T k) p ∧
      (vs.length : ℝ) ≤ 2*Real.logb 2 ({p | Reachable T p}.ncard+1) := by
  obtain ⟨t,hT,-⟩ : Holds T (mapAfter calls) :=
    hrun.simulates h₀.holds fun s l s' m hs hstep => callStep_holds hs hstep
  have hroot : T.root = rootPtr T.nil t := Focus.context hT.holds
  obtain ⟨hfinite,hcard⟩ := ncard_reachable hT.holds
  rw [hcard]
  refine ⟨hfinite,fun path hpath => hT.path_le hpath,fun k => ?_⟩
  obtain ⟨p,vs,path,hret,hpath,hvs⟩ := searchVisits_spec hT.holds.sub k
  rw [← hroot] at hret hpath
  refine ⟨p,vs,hret,Returns.congr (fun n => (searchVisits_fst T k n).symm) (hret.map Prod.fst),?_⟩
  have hpow : (2 : ℝ)^vs.length ≤ ((ptrs t).length+1 : ℝ)^2 := by
    have hle := Nat.pow_le_pow_right zero_lt_two hvs.length_le
    exact_mod_cast hle.trans (hT.path_le hpath)
  rw [← Real.rpow_natCast] at hpow
  calc (vs.length : ℝ) ≤ Real.logb 2 (((ptrs t).length+1 : ℝ)^2) :=
        (Real.le_logb_iff_rpow_le one_lt_two (by positivity)).mpr hpow
    _ = 2*Real.logb 2 ((ptrs t).length+1) := Real.logb_pow ..

theorem rbtree_height_sample : ∃ T, Run CallStep emptyTree sampleCalls T ∧
    (∀ path, Path T T.root path → 2^path.length ≤ ({p | Reachable T p}.ncard+1)^2) ∧
    ∀ k, ∃ p vs, Returns (fun n => searchVisits T k n T.root) (p,vs) ∧
      Returns (fun n => rbtreeSearch n T k) p ∧
      (vs.length : ℝ) ≤ 2*Real.logb 2 ({p | Reachable T p}.ncard+1) := by
  obtain ⟨T,hrun⟩ := exists_sampleRun
  obtain ⟨-,hpaths,hsearch⟩ := rbtree_height ⟨rfl,rfl⟩ hrun
  exact ⟨T,hrun,hpaths,hsearch⟩

end ServerKit.RbTree
