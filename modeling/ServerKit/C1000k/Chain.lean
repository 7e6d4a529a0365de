import ServerKit.C1000k.Echo
import ServerKit.Lib.Links

/-! The chain of blocks in memory, as `zero_threadpool/reactor/c1000k/server.c` and its variant `server1.c`
look descriptors up in it. The two differ in what they do while the chain is empty. -/
namespace ServerKit.C1000k.Chain
open Function ServerKit.Lib

/-- A `struct eventblock`: the address of its array of items and the one of the next block. -/
structure Eventblock where
  items : ℕ
  next : ℕ

/-- The `struct reactor` with the memory: blocks, arrays of items, and `fresh`, which is the next address
that `malloc` gives. -/
structure Reactor where
  blkcnt : ℕ
  evblk : ℕ
  block : ℕ → Eventblock
  items : ℕ → ℕ → SockItem
  fresh : ℕ

/-- The address of an item: its array and its place there. -/
abbrev Slot := ℕ × ℕ

/-- What `calloc` gives, in a memory with any contents. -/
def zeroed (block : ℕ → Eventblock) (items : ℕ → ℕ → SockItem) (fresh : ℕ) : Reactor :=
  ⟨0,0,block,items,fresh⟩

namespace Reactor

/-- Both allocations succeed: a zeroed array at `fresh`, and a block for it behind. -/
def alloc (r : Reactor) : Reactor :=
  { r with
    block := update r.block (r.fresh+1) ⟨r.fresh,0⟩
    items := update r.items r.fresh fun _ => zeroItem
    fresh := r.fresh+2 }

def setNext (r : Reactor) (blk next : ℕ) : Reactor :=
  { r with block := update r.block blk { r.block blk with next := next } }

def setEvblk (r : Reactor) (blk : ℕ) : Reactor := { r with evblk := blk }

def countBlock (r : Reactor) : Reactor := { r with blkcnt := r.blkcnt+1 }

end Reactor

/-- The returned status comes second. -/
def reactorResize (fuel : ℕ) (r : Reactor) : Option (Reactor × ℤ) :=
  (whileLoop (fun blk => blk ≠ 0 ∧ (r.block blk).next ≠ 0) (fun blk => (r.block blk).next) fuel
    r.evblk).map fun blk =>
      let block := r.fresh+1
      let r := if blk = 0 then r.alloc.setEvblk block else r.alloc.setNext blk block
      (r.countBlock,0)

/-- The variant, which reads `blk->next` of the first block whether there is one or not. -/
def Server1.reactorResize (fuel : ℕ) (r : Reactor) : Option (Reactor × ℤ) :=
  if r.evblk = 0 then none
  else
    (whileLoop (fun blk => (r.block blk).next ≠ 0) (fun blk => (r.block blk).next) fuel r.evblk).map
      fun blk => ((r.alloc.setNext blk (r.fresh+1)).countBlock,0)

/-- The first loop of `reactor_lookup`. -/
def growLoop (resize : ℕ → Reactor → Option (Reactor × ℤ)) (blkidx : ℕ) : ℕ → Reactor → Option Reactor
  | 0,_ => none
  | fuel+1,r =>
    if blkidx ≥ r.blkcnt then (resize fuel r).bind fun a => growLoop resize blkidx fuel a.1
    else some r

/-- The second loop, and the item at which the lookup ends; NULL is not tested for there. -/
def findItem (fuel : ℕ) (r : Reactor) (sockfd : ℕ) : Option Slot :=
  let blkidx := sockfd/ITEM_LENGTH
  (whileLoop (fun s : ℕ × ℕ => s.1 < blkidx ∧ s.2 ≠ 0) (fun s => (s.1+1,(r.block s.2).next)) fuel
    (0,r.evblk)).bind fun s =>
      if s.2 = 0 then none else some ((r.block s.2).items,sockfd % ITEM_LENGTH)

/-- The lookup of a descriptor that is not 0. -/
def growAndFind (resize : ℕ → Reactor → Option (Reactor × ℤ)) (fuel : ℕ) (r : Reactor) (sockfd : ℕ) :
    Option (Reactor × Option Slot) :=
  (growLoop resize (sockfd/ITEM_LENGTH) fuel r).bind fun r =>
    (findItem fuel r sockfd).map fun slot => (r,some slot)

/-- The returned item comes second. -/
def reactorLookup (fuel : ℕ) (r : Reactor) (sockfd : ℕ) : Option (Reactor × Option Slot) :=
  if sockfd = 0 then some (r,none) else growAndFind reactorResize fuel r sockfd

def Server1.reactorLookup (fuel : ℕ) (r : Reactor) (sockfd : ℕ) : Option (Reactor × Option Slot) :=
  if r.evblk = 0 then some (r,none)
  else if sockfd = 0 then some (r,none)
  else growAndFind Server1.reactorResize fuel r sockfd

/-- The blocks of the chain are at `bs`, each one with an array of its own. -/
structure Holds (r : Reactor) (bs : List ℕ) : Prop where
  links : Links (fun p => (r.block p).next) r.evblk bs 0
  count : r.blkcnt = bs.length
  nodup : bs.Nodup
  old : ∀ p ∈ bs, p < r.fresh ∧ (r.block p).items < r.fresh

/-- The same blocks as a list of arrays. -/
def Reactor.view (r : Reactor) (bs : List ℕ) : C1000k.Reactor :=
  ⟨r.blkcnt,bs.map fun p => r.items (r.block p).items⟩

section Grow
variable {r r' : Reactor} {bs ps : List ℕ} {x p : ℕ}

theorem holds_zeroed (block : ℕ → Eventblock) (items : ℕ → ℕ → SockItem) (fresh : ℕ) :
    Holds (zeroed block items fresh) [] :=
  ⟨.nil 0,rfl,List.nodup_nil,fun _ hp => absurd hp List.not_mem_nil⟩

/-- The reactor with a new block behind the one at `x`. -/
def Reactor.grown (r : Reactor) (x : ℕ) : Reactor := (r.alloc.setNext x (r.fresh+1)).countBlock

theorem grown_block_new (hx : x < r.fresh) : (r.grown x).block (r.fresh+1) = ⟨r.fresh,0⟩ := by
  have hne : r.fresh+1 ≠ x := by omega
  exact (update_of_ne hne ..).trans (update_self ..)

theorem grown_block_last (hx : x < r.fresh) :
    (r.grown x).block x = ⟨(r.block x).items,r.fresh+1⟩ := by
  have hne : x ≠ r.fresh+1 := by omega
  simp [Reactor.grown,Reactor.setNext,Reactor.alloc,Reactor.countBlock,hne]

theorem grown_block (hp : p < r.fresh) (hne : p ≠ x) : (r.grown x).block p = r.block p := by
  have hnew : p ≠ r.fresh+1 := by omega
  exact (update_of_ne hne ..).trans (update_of_ne hnew ..)

theorem grown_items (hx : x < r.fresh) (hp : p < r.fresh) :
    ((r.grown x).block p).items = (r.block p).items := by
  by_cases hne : p = x
  · rw [hne, grown_block_last hx]
  · rw [grown_block hp hne]

theorem grown_holds (h : Holds r (ps ++ [x])) : Holds (r.grown x) (ps ++ [x] ++ [r.fresh+1]) := by
  have hx : x < r.fresh := (h.old x (by simp)).1
  have hold : ∀ p ∈ ps ++ [x], p < r.fresh := fun p hp => (h.old p hp).1
  obtain ⟨hlinks,hnodup⟩ : Links (fun p => ((r.grown x).block p).next) r.evblk (ps ++ [x] ++ [r.fresh+1]) 0 ∧
      (ps ++ [x] ++ [r.fresh+1]).Nodup := by
    refine h.links.snoc_above h.nodup (fun p hp => (hold p hp).trans (Nat.lt_succ_self _)) ?_ ?_
      fun p hp hne => ?_
    · rw [grown_block_last hx]
    · rw [grown_block_new hx]
    · rw [grown_block (hold p (by simp [hp])) hne]
  refine ⟨hlinks,?_,hnodup,?_⟩
  · change r.blkcnt+1 = _
    rw [List.length_append, List.length_singleton, h.count]
  · intro p hp
    change p < r.fresh+2 ∧ _ < r.fresh+2
    obtain hp | hp := List.mem_append.mp hp
    · rw [grown_items hx (hold p hp)]
      obtain ⟨hp₁,hp₂⟩ := h.old p hp
      omega
    · rw [List.mem_singleton.mp hp, grown_block_new hx]
      dsimp only
      omega

theorem grown_view (h : Holds r (ps ++ [x])) :
    (r.grown x).view (ps ++ [x] ++ [r.fresh+1]) = C1000k.reactorResize (r.view (ps ++ [x])) := by
  have hx : x < r.fresh := (h.old x (by simp)).1
  have hold : (ps ++ [x]).map (fun p => (r.grown x).items ((r.grown x).block p).items) =
      (ps ++ [x]).map fun p => r.items (r.block p).items := by
    refine List.map_congr_left fun p hp => ?_
    rw [grown_items hx (h.old p hp).1]
    exact update_of_ne (h.old p hp).2.ne ..
  have hnew : (r.grown x).items r.fresh = fun _ => zeroItem := update_self ..
  rw [Reactor.view, List.map_append, hold, List.map_singleton, grown_block_new hx, hnew]
  rfl

/-- The call hangs a zeroed block behind the chain. -/
def Resizes (resize : ℕ → Reactor → Option (Reactor × ℤ)) (r : Reactor) (bs : List ℕ) : Prop :=
  ∃ r', Returns (fun f => resize f r) (r',0) ∧ Holds r' (bs ++ [r.fresh+1]) ∧
    r'.view (bs ++ [r.fresh+1]) = C1000k.reactorResize (r.view bs)

/-- The first block of a reactor. -/
theorem reactorResize_first (h : Holds r []) : Resizes reactorResize r [] := by
  have hnull : r.evblk = 0 := h.links.eq_of_nil
  have hstop : Returns (fun f => whileLoop (fun blk => blk ≠ 0 ∧ (r.block blk).next ≠ 0)
      (fun blk => (r.block blk).next) f r.evblk) r.evblk := while_exit fun hgo => hgo.1 hnull
  have hblock : r.alloc.block (r.fresh+1) = ⟨r.fresh,0⟩ := update_self ..
  have hitems : r.alloc.items r.fresh = fun _ => zeroItem := update_self ..
  refine ⟨(r.alloc.setEvblk (r.fresh+1)).countBlock,?_,?_,?_⟩
  · have hret := hstop.map fun blk =>
      ((if blk = 0 then r.alloc.setEvblk (r.fresh+1) else r.alloc.setNext blk (r.fresh+1)).countBlock,
        (0 : ℤ))
    rwa [if_pos hnull] at hret
  · refine ⟨.cons (Nat.succ_ne_zero _) ?_,congrArg Nat.succ h.count,List.nodup_singleton _,?_⟩
    · change Links _ (r.alloc.block (r.fresh+1)).next [] 0
      rw [hblock]
      exact .nil 0
    · intro p hp
      change p < r.fresh+2 ∧ (r.alloc.block p).items < r.fresh+2
      rw [List.mem_singleton.mp hp, hblock]
      dsimp only
      omega
  · change C1000k.Reactor.mk (r.blkcnt+1) [r.alloc.items (r.alloc.block (r.fresh+1)).items] = _
    rw [hblock, hitems]
    rfl

theorem reactorResize_spec (h : Holds r bs) : Resizes reactorResize r bs := by
  obtain rfl | ⟨ps,x,rfl⟩ := bs.eq_nil_or_concat'
  · exact reactorResize_first h
  · have hne : x ≠ 0 := h.links.ne_null (by simp)
    refine ⟨r.grown x,?_,grown_holds h,grown_view h⟩
    have hret := h.links.walk_last_or_null.map fun blk =>
      ((if blk = 0 then r.alloc.setEvblk (r.fresh+1) else r.alloc.setNext blk (r.fresh+1)).countBlock,
        (0 : ℤ))
    rwa [if_neg hne] at hret

/-- The variant needs a block to start from. -/
theorem Server1.reactorResize_spec (hbs : bs ≠ []) (h : Holds r bs) :
    Resizes Server1.reactorResize r bs := by
  obtain ⟨ps,x,rfl⟩ := bs.eq_nil_or_concat'.resolve_left hbs
  have hroot : r.evblk ≠ 0 := h.links.head_ne_null hbs
  exact ⟨r.grown x,Returns.congr (fun _ => if_neg hroot) (h.links.walk_last.map _),grown_holds h,
    grown_view h⟩

end Grow

/-- The item of a descriptor is at its place in the block that its quotient counts to, and the chain is as
long as `blkcnt` says. -/
def IsItem (r : Reactor) (fd : ℕ) (slot : Slot) : Prop :=
  ∃ bs p, Links (fun p => (r.block p).next) r.evblk bs 0 ∧ r.blkcnt = bs.length ∧
    bs[(placeOf fd).1]? = some p ∧ slot = ((r.block p).items,(placeOf fd).2)

section Lookup
variable {resize : ℕ → Reactor → Option (Reactor × ℤ)} {I : List ℕ → Prop} {r : Reactor} {bs : List ℕ}

/-- As many blocks are added as are missing. -/
theorem growLoop_spec (hresize : ∀ r bs, I bs → Holds r bs → Resizes resize r bs)
    (hI : ∀ bs p, I bs → I (bs ++ [p])) (blkidx lo : ℕ) {n : ℕ} (hbs : I bs) (h : Holds r bs)
    (hn : blkidx+1-r.blkcnt = n) : ∃ r' new, Returns (fun f => growLoop resize blkidx f r) r' ∧
      Holds r' (bs ++ new) ∧ new.length = n ∧
      r'.view (bs ++ new) = forUp lo n (fun _ r => C1000k.reactorResize r) (r.view bs) := by
  induction n generalizing lo r bs with
  | zero =>
    have hfar : ¬ blkidx ≥ r.blkcnt := by omega
    have hstop : Returns (fun f => growLoop resize blkidx f r) r :=
      Returns.succ (fun f => if_neg hfar) (Returns.const r)
    exact ⟨r,[],hstop,by rwa [List.append_nil],rfl,by rw [List.append_nil]; rfl⟩
  | succ n ih =>
    have hnear : blkidx ≥ r.blkcnt := by omega
    obtain ⟨r₁,hret,hr₁,hview⟩ := hresize r bs hbs h
    have hcount : r₁.blkcnt = r.blkcnt+1 := by
      rw [hr₁.count, h.count, List.length_append, List.length_singleton]
    obtain ⟨r₂,new,hloop,hr₂,hlen,hview₂⟩ := ih (lo+1) (hI bs _ hbs) hr₁ (by omega)
    rw [List.append_assoc] at hr₂ hview₂
    refine ⟨r₂,[r.fresh+1] ++ new,?_,hr₂,?_,?_⟩
    · exact Returns.succ (fun f => if_pos hnear) (hret.bind hloop)
    · rw [List.length_append, List.length_singleton, hlen]
      omega
    · rw [hview₂, hview]
      rfl

/-- What a lookup does to a chain at `bs`: it grows as far as is needed, and the item is in it. -/
def Finds (lookup : ℕ → Reactor → ℕ → Option (Reactor × Option Slot)) (r : Reactor) (bs : List ℕ)
    (fd : ℕ) : Prop :=
  ∃ r' new slot, Returns (fun f => lookup f r fd) (r',some slot) ∧ Holds r' (bs ++ new) ∧
    IsItem r' fd slot ∧ (bs ++ new).length = max bs.length (fd/ITEM_LENGTH+1) ∧
    C1000k.reactorLookup (r.view bs) fd = some (r'.view (bs ++ new),placeOf fd)

theorem growAndFind_spec (hresize : ∀ r bs, I bs → Holds r bs → Resizes resize r bs)
    (hI : ∀ bs p, I bs → I (bs ++ [p])) (hbs : I bs) (h : Holds r bs) {fd : ℕ} (hfd : 0 < fd) :
    Finds (growAndFind resize) r bs fd := by
  obtain ⟨r',new,hgrow,hr',hlen,hview⟩ := growLoop_spec hresize hI (fd/ITEM_LENGTH) 0 hbs h rfl
  have hcount := h.count
  have hlength : (bs ++ new).length = max bs.length (fd/ITEM_LENGTH+1) := by
    rw [List.length_append, hlen]
    omega
  obtain ⟨p,hp⟩ : ∃ p, (bs ++ new)[fd/ITEM_LENGTH]? = some p :=
    ⟨_,List.getElem?_eq_getElem (by omega)⟩
  have hne : p ≠ 0 := hr'.links.ne_null (List.mem_of_getElem? hp)
  have hwalk := hr'.links.walk_until (c := fun i => i < fd/ITEM_LENGTH) (i := 0) hp
    (fun j hj => by omega) (by omega)
  rw [Nat.zero_add] at hwalk
  have hfind : Returns (fun f => findItem f r' fd) ((r'.block p).items,fd % ITEM_LENGTH) := by
    refine hwalk.bind ?_
    exact Returns.congr (fun f => if_neg hne) (Returns.const _)
  refine ⟨r',new,_,hgrow.bind (hfind.map _),hr',⟨bs ++ new,p,hr'.links,hr'.count,hp,rfl⟩,hlength,?_⟩
  rw [hview]
  exact if_neg hfd.ne'

/-- The lookup of the list of blocks, on the chain in memory. -/
theorem reactorLookup_spec (h : Holds r bs) {fd : ℕ} (hfd : 0 < fd) : Finds reactorLookup r bs fd := by
  obtain ⟨r',new,slot,hret,hrest⟩ := growAndFind_spec (I := fun _ => True)
    (fun _ _ _ => reactorResize_spec) (fun _ _ _ => trivial) trivial h hfd
  exact ⟨r',new,slot,Returns.congr (fun _ => if_neg hfd.ne') hret,hrest⟩

theorem Server1.reactorLookup_spec (hbs : bs ≠ []) (h : Holds r bs) {fd : ℕ} (hfd : 0 < fd) :
    Finds Server1.reactorLookup r bs fd := by
  have hroot : r.evblk ≠ 0 := h.links.head_ne_null hbs
  obtain ⟨r',new,slot,hret,hrest⟩ := growAndFind_spec (I := fun bs => bs ≠ [])
    (fun _ _ => Server1.reactorResize_spec) (fun bs p _ => by simp) hbs h hfd
  exact ⟨r',new,slot,Returns.congr (fun _ => (if_neg hroot).trans (if_neg hfd.ne')) hret,hrest⟩

/-- Without a block the variant returns NULL and changes nothing. -/
theorem Server1.reactorLookup_empty (h : Holds r []) (fd : ℕ) :
    Returns (fun f => Server1.reactorLookup f r fd) (r,none) :=
  Returns.congr (fun _ => if_pos h.links.eq_of_nil) (Returns.const _)

end Lookup

/-- At every call of a sequence both versions return the item of the descriptor, and the chains are of the
same length. -/
def Agree : Reactor → Reactor → List ℕ → Prop
  | _,_,[] => True
  | r,r₁,fd :: fds => ∃ r' slot r₁' slot₁, Returns (fun f => reactorLookup f r fd) (r',some slot) ∧
      Returns (fun f => Server1.reactorLookup f r₁ fd) (r₁',some slot₁) ∧ IsItem r' fd slot ∧
      IsItem r₁' fd slot₁ ∧ r'.blkcnt = r₁'.blkcnt ∧ Agree r' r₁' fds

section Agree
variable {r r₁ : Reactor} {bs bs₁ fds : List ℕ}

/-- Chains that have a block grow alike. -/
theorem agree_of_block (h : Holds r bs) (h₁ : Holds r₁ bs₁) (hlength : bs.length = bs₁.length)
    (hbs₁ : bs₁ ≠ []) (hfds : ∀ fd ∈ fds, 0 < fd) : Agree r r₁ fds := by
  induction fds generalizing r r₁ bs bs₁ with
  | nil => trivial
  | cons fd fds ih =>
    obtain ⟨hfd,hrest⟩ := List.forall_mem_cons.mp hfds
    obtain ⟨r',new,slot,hret,hr',hitem,hlen,-⟩ := reactorLookup_spec h hfd
    obtain ⟨r₁',new₁,slot₁,hret₁,hr₁',hitem₁,hlen₁,-⟩ := Server1.reactorLookup_spec hbs₁ h₁ hfd
    have hsame : (bs ++ new).length = (bs₁ ++ new₁).length := by rw [hlen, hlen₁, hlength]
    refine ⟨r',slot,r₁',slot₁,hret,hret₁,hitem,hitem₁,?_,?_⟩
    · rw [hr'.count, hr₁'.count, hsame]
    · exact ih hr' hr₁' hsame (List.append_ne_nil_of_left_ne_nil hbs₁ _) hrest

/-- The two versions agree if the chain has a block before the first call. -/
theorem lookups_agree_iff (h : Holds r bs) (h₁ : Holds r₁ bs₁) (hlength : bs.length = bs₁.length)
    (hfds : ∀ fd ∈ fds, 0 < fd) : Agree r r₁ fds ↔ bs₁ ≠ [] ∨ fds = [] := by
  constructor
  · intro hagree
    by_contra hnone
    obtain ⟨hempty,hcalls⟩ := not_or.mp hnone
    obtain rfl := not_not.mp hempty
    obtain ⟨fd,fds,rfl⟩ := List.exists_cons_of_ne_nil hcalls
    obtain ⟨-,-,r₁',slot₁,-,hret₁,-⟩ := hagree
    cases hret₁.unique (Server1.reactorLookup_empty h₁ fd)
  · rintro (hbs₁ | rfl)
    · exact agree_of_block h h₁ hlength hbs₁ hfds
    · trivial

/-- A reactor with one block. -/
def oneBlock : Reactor := ⟨1,1,fun _ => ⟨2,0⟩,fun _ _ => zeroItem,3⟩

theorem holds_oneBlock : Holds oneBlock [1] := by
  refine ⟨.cons Nat.one_ne_zero (.nil 0),rfl,List.nodup_singleton 1,fun p hp => ?_⟩
  rw [List.mem_singleton.mp hp]
  exact ⟨by decide,by decide⟩

theorem lookups_agree_oneBlock : Agree oneBlock oneBlock [5,3000,5] :=
  (lookups_agree_iff holds_oneBlock holds_oneBlock rfl (by decide)).mpr (.inl (by decide))

/-- The reactor of both `main` functions, before the first connection. -/
def atStart : Reactor := zeroed (fun _ => ⟨0,0⟩) (fun _ _ => zeroItem) 1

theorem lookups_disagree : ¬ Agree atStart atStart [5] := by
  rintro ⟨-,-,r₁',slot₁,-,hret₁,-⟩
  cases hret₁.unique (Server1.reactorLookup_empty (holds_zeroed _ _ 1) 5)

end Agree
end ServerKit.C1000k.Chain
