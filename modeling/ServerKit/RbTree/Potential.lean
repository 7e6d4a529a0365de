import ServerKit.Lib.Amortized
import ServerKit.RbTree.Rotations

/-! What the fixups cost in the long run. A BLACK node whose children are both BLACK or both RED is charged
in advance for a pass that recolours it. -/
namespace ServerKit.RbTree
open Function BinaryTree ServerKit.Lib

/-- The charge of a node of the first color with children of the other two. -/
def charge : Color → Color → Color → ℕ
  | .BLACK,.BLACK,.BLACK => 1
  | .BLACK,.RED,.RED => 2
  | _,_,_ => 0

theorem charge_comm (k i j : Color) : charge k i j = charge k j i := by cases k <;> cases i <;> cases j <;> rfl

theorem charge_le (k i j : Color) : charge k i j ≤ 2 := by cases k <;> cases i <;> cases j <;> decide

@[simp] theorem charge_red (i j : Color) : charge .RED i j = 0 := rfl
@[simp] theorem charge_both_black : charge .BLACK .BLACK .BLACK = 1 := rfl
@[simp] theorem charge_both_red : charge .BLACK .RED .RED = 2 := rfl
@[simp] theorem charge_red_black : charge .BLACK .RED .BLACK = 0 := rfl
@[simp] theorem charge_black_red : charge .BLACK .BLACK .RED = 0 := rfl

variable {V : Type}

def potential : CellTree V → ℕ
  | .nil => 0
  | .node c l r => charge c.color (rootColor l) (rootColor r)+potential l+potential r

/-- The charges around a hole for a root of the color. -/
def contextPotential : CellContext V → Color → ℕ
  | [],_ => 0
  | f::C,k => charge f.label.color k (rootColor f.sibling)+potential f.sibling+
      contextPotential C f.label.color

section Potential
variable {C D : CellContext V} {f : Frame (Cell V)} {c c' : Cell V} {l s t : CellTree V}

@[simp] theorem rootColor_node (c : Cell V) (l r : CellTree V) : rootColor (.node c l r) = c.color := rfl

theorem potential_node (c : Cell V) (l r : CellTree V) : potential (.node c l r) =
    charge c.color (rootColor l) (rootColor r)+potential l+potential r := rfl

@[simp] theorem rootColor_fill (f : Frame (Cell V)) (s : CellTree V) :
    rootColor (f.fill s) = f.label.color := by
  obtain ⟨d,c,t⟩ := f
  cases d <;> rfl

theorem potential_fill (f : Frame (Cell V)) (s : CellTree V) : potential (f.fill s) =
    charge f.label.color (rootColor s) (rootColor f.sibling)+potential f.sibling+potential s := by
  obtain ⟨d,c,t⟩ := f
  cases d with
  | left =>
    simp only [fill_left, potential]
    omega
  | right =>
    simp only [fill_right, potential, charge_comm _ (rootColor s)]

theorem potential_plug (C : CellContext V) (s : CellTree V) :
    potential (plug C s) = contextPotential C (rootColor s)+potential s := by
  induction C generalizing s with
  | nil => simp [contextPotential]
  | cons f C ih =>
    rw [plug_cons, ih, rootColor_fill, potential_fill, contextPotential]
    omega

/-- Only the charge of the node above the hole depends on the root. -/
theorem contextPotential_le (C : CellContext V) (j k : Color) :
    contextPotential C k ≤ contextPotential C j+2 := by
  cases C with
  | nil => exact Nat.zero_le 2
  | cons f C =>
    have hle := charge_le f.label.color k (rootColor f.sibling)
    simp only [contextPotential]
    omega

theorem contextPotential_red (hf : f.label.color = .RED) (j k : Color) :
    contextPotential (f::C) j = contextPotential (f::C) k := by
  simp only [contextPotential, hf, charge_red]

theorem contextPotential_relabel (D C : CellContext V) (hc : c'.color = c.color) (d : Side) (k : Color) :
    contextPotential (D ++ ⟨d,c',l⟩::C) k = contextPotential (D ++ ⟨d,c,l⟩::C) k := by
  induction D generalizing k with
  | nil => simp only [List.nil_append, contextPotential, hc]
  | cons f D ih => simp only [List.cons_append, contextPotential, ih]

/-- A subtree with a root of another color and another potential. -/
theorem potential_plug_le {m : ℕ} (h : potential t ≤ potential s+m) :
    potential (plug C t) ≤ potential (plug C s)+(m+2) := by
  have hle := contextPotential_le C (rootColor s) (rootColor t)
  rw [potential_plug, potential_plug]
  omega

end Potential

section Unique
variable {T : Rbtree V} {a b : Ptr} {s t : CellTree V}

theorem Linked.unique (hs : Linked T a s) (ht : Linked T b t) (h : rootPtr T.nil s = rootPtr T.nil t) :
    s = t := by
  induction s generalizing a b t with
  | nil =>
    cases t with
    | nil => rfl
    | node c l r => exact absurd h.symm ht.1.ne_nil
  | node c l r ihl ihr =>
    cases t with
    | nil => exact absurd h hs.1.ne_nil
    | node c' l' r' =>
      obtain ⟨hc,hl,hr⟩ := hs
      obtain ⟨hc',hl',hr'⟩ := ht
      have hptr : c.ptr = c'.ptr := h
      obtain ⟨p,k,q,v⟩ := c
      obtain ⟨p',k',q',v'⟩ := c'
      obtain rfl : p = p' := hptr
      rw [ihl hl hl' (hc.left.symm.trans hc'.left), ihr hr hr' (hc.right.symm.trans hc'.right)]
      obtain rfl : k = k' := hc.color.symm.trans hc'.color
      obtain rfl : q = q' := hc.key.symm.trans hc'.key
      obtain rfl : v = v' := hc.value.symm.trans hc'.value
      rfl

/-- A heap holds one tree. -/
theorem Represents.unique (hs : Represents T s) (ht : Represents T t) : s = t :=
  Linked.unique hs.sub ht.sub (hs.context.symm.trans ht.context)

/-- The potential of the tree that the heap holds. -/
def Charged (T : Rbtree V) (m : ℕ) : Prop := ∃ t, Represents T t ∧ potential t = m

theorem Charged.eq {m : ℕ} (h : Charged T m) (ht : Represents T t) : m = potential t := by
  obtain ⟨s,hs,rfl⟩ := h
  rw [hs.unique ht]

end Unique

section Insert
variable {T : Rbtree V} {C : CellContext V} {f g : Frame (Cell V)} {z p q : Cell V} {l r s t u : CellTree V}
  {k : Color} {n : ℕ} {d : Side} {x : Ptr}

/-- The recolouring and the rotation at the grandparent. -/
theorem Focus.straight_up (h : Focus T (⟨d,p,t⟩::⟨d,q,u⟩::C) (.node z l r)) :
    let T₁ := T.setColor (T.parent z.ptr) .BLACK
    let T₂ := T₁.setColor (T₁.parent (T₁.parent z.ptr)) .RED
    Focus (RbTree.turn d.flip T₂ (T₂.parent (T₂.parent z.ptr)))
      (⟨d,{ p with color := .BLACK },Frame.fill ⟨d,{ q with color := .RED },u⟩ t⟩::C) (.node z l r) := by
  intro T₁ T₂
  have hp : T.parent z.ptr = p.ptr := h.sub.1.parent
  have hq : T.parent p.ptr = q.ptr := h.stores_frame.parent
  have h₁ := (focus_fill.mp (h.setColor_frame .BLACK)).setColor_frame .RED
  have hT₂ : T₂ = (T.setColor p.ptr .BLACK).setColor q.ptr .RED := by simp [T₂,T₁,hp,hq]
  have hq₂ : T₂.parent (T₂.parent z.ptr) = q.ptr := by simp [hT₂,hp,hq]
  rw [hq₂, hT₂]
  exact (focus_fill.mpr h₁).turn_up

/-- After the rotation at the parent of an inner child, the parent stands in its place. -/
theorem InsertBelow.turned_up (h : InsertBelow T C f g z l r k n)
    (hz : z.ptr = T.child g.side.flip (T.parent z.ptr)) : ∃ t l' r',
    Focus (RbTree.turn g.side T (T.parent z.ptr)) (⟨g.side,z,t⟩::g::C) (.node f.label l' r') ∧
      potential t+potential l'+potential r' = potential l+potential r+potential f.sibling := by
  have hf := h.focus
  have hzp : T.parent z.ptr = f.label.ptr := hf.sub.1.parent
  rw [hzp] at hz ⊢
  obtain ⟨e,q,sib⟩ := f
  obtain ⟨d,a,u⟩ := g
  have hside : e = d.flip := by
    apply Side.eq_flip_of_ne
    rintro rfl
    exact hf.root_ne_sibling (hz.trans hf.child_flip)
  subst hside
  cases d with
  | left =>
    have hturn := (focus_right.mp hf).leftRotate
    exact ⟨r,sib,l,focus_left.mpr hturn,by dsimp only; omega⟩
  | right =>
    have hturn := (focus_left.mp hf).rightRotate
    exact ⟨l,r,sib,focus_right.mpr hturn,rfl⟩

/-- The colors that a RED uncle leaves. -/
theorem InsertBelow.recolored {uc : Cell V} {ul ur : CellTree V} (h : InsertBelow T C f g z l r k n)
    (hu : g.sibling = .node uc ul ur) :
    let T₁ := T.setColor (T.parent z.ptr) .BLACK
    let T₂ := T₁.setColor (T.child g.side.flip (T.parent (T.parent z.ptr))) .BLACK
    Focus (T₂.setColor (T₂.parent (T₂.parent z.ptr)) .RED) C
      (Frame.fill ⟨g.side,{ g.label with color := .RED },.node { uc with color := .BLACK } ul ur⟩
        (Frame.fill ⟨f.side,{ f.label with color := .BLACK },f.sibling⟩ (.node z l r))) := by
  intro T₁ T₂
  have hf := h.focus
  have hzp : T.parent z.ptr = f.label.ptr := hf.sub.1.parent
  have hpg : T.parent f.label.ptr = g.label.ptr := hf.stores_frame.parent
  have huncle : T.child g.side.flip g.label.ptr = uc.ptr := by
    have hflip := (focus_fill.mp hf).child_flip
    rwa [hu] at hflip
  have h₁ := focus_fill.mp (hf.setColor_frame .BLACK)
  obtain ⟨d,a,u⟩ := g
  obtain rfl : u = .node uc ul ur := hu
  have h₂ := (h₁.swap.setColor .BLACK).swap.setColor_frame .RED
  rw [Side.flip_flip] at h₂
  have hT₂ : T₂ = (T.setColor f.label.ptr .BLACK).setColor uc.ptr .BLACK := by
    simp only [T₂, T₁, hzp, hpg, huncle]
  have hg₂ : T₂.parent (T₂.parent z.ptr) = a.ptr := by
    rw [hT₂]
    exact (congrArg T.parent hzp).trans hpg
  rw [hg₂, hT₂]
  exact focus_fill.mp h₂

theorem InsertBelow.uncle_color (h : InsertBelow T C f g z l r k n) :
    T.color (T.child g.side.flip (T.parent (T.parent z.ptr))) = k := by
  have hf := h.focus
  have hzp : T.parent z.ptr = f.label.ptr := hf.sub.1.parent
  have hpg : T.parent f.label.ptr = g.label.ptr := hf.stores_frame.parent
  have hg := focus_fill.mp hf
  rw [hzp, hpg, hg.child_flip]
  obtain ⟨d,a,u⟩ := g
  exact (hg.swap.sub.color_root h.nil_black).trans h.uncle.color

/-- The charges two levels above a RED node with a RED parent. -/
theorem InsertBelow.potential_eq (h : InsertBelow T C f g z l r k n) (hg : g.label.color = .BLACK) :
    potential (plug (f::g::C) (.node z l r)) = contextPotential C .BLACK+charge .BLACK .RED k+
      potential g.sibling+potential f.sibling+potential l+potential r := by
  rw [potential_plug]
  simp only [contextPotential, potential_node, rootColor_node, h.red, h.parent_red, hg, charge_red,
    h.uncle.color]
  omega

/-- A pass that finds a RED uncle is paid by the grandparent, unless it is the last one. -/
theorem InsertBelow.recolor_paid (h : InsertBelow T C f g z l r .RED n) (hg : g.label.color = .BLACK) :
    ∃ t, Represents (insertArm g.side T z.ptr).1 t ∧
      (potential t+1 ≤ potential (plug (f::g::C) (.node z l r)) ∨
        (insertArm g.side T z.ptr).1.color
          ((insertArm g.side T z.ptr).1.parent (insertArm g.side T z.ptr).2) = .BLACK ∧
        potential t+1 ≤ potential (plug (f::g::C) (.node z l r))+3) := by
  obtain ⟨uc,ul,ur,hu,huc,hul,hur⟩ := h.uncle.of_red
  have hfocus := h.recolored hu
  have hm := h.potential_eq hg
  have harm : insertArm g.side T z.ptr = (_,_) := if_pos h.uncle_color
  have hzp : T.parent z.ptr = f.label.ptr := h.focus.sub.1.parent
  have hpg : T.parent f.label.ptr = g.label.ptr := h.focus.stores_frame.parent
  rw [harm]
  dsimp only at hfocus ⊢
  refine ⟨_,represents_plug.mpr hfocus,?_⟩
  have ht : potential (Frame.fill ⟨g.side,{ g.label with color := .RED },
      .node { uc with color := .BLACK } ul ur⟩ (Frame.fill ⟨f.side,{ f.label with color := .BLACK },f.sibling⟩
        (.node z l r)))+1 = charge .BLACK .RED .RED+potential g.sibling+potential f.sibling+potential l+
          potential r := by
    rw [potential_fill, potential_fill, hu]
    simp only [potential_node, rootColor_node, h.red, huc, charge_red, hul.color, hur.color, h.sibling.color,
      charge_both_black, charge_both_red, charge_red_black]
    omega
  rw [potential_plug, rootColor_fill]
  dsimp only
  cases C with
  | nil =>
    left
    simp only [contextPotential, charge_both_red] at hm ht ⊢
    omega
  | cons e C =>
    cases he : e.label.color with
    | RED =>
      left
      rw [contextPotential_red he .RED .BLACK]
      simp only [charge_both_red] at hm ht
      omega
    | BLACK =>
      -- the next test fails, and the node above has one more RED child
      right
      have hle := contextPotential_le (e::C) .BLACK .RED
      refine ⟨?_,by simp only [charge_both_red] at hm ht; omega⟩
      have hparent := (focus_fill.mpr hfocus).stores_frame.parent
      dsimp only [Rbtree.setColor] at hparent hfocus ⊢
      rw [hzp, hpg] at hfocus ⊢
      rw [hparent]
      exact hfocus.stores_frame.color.trans he

/-- What the last rotation of an insertion leaves. -/
theorem Focus.straight_charged (h : Focus T (⟨d,p,t⟩::⟨d,q,u⟩::C) (.node z l r)) (hz : z.color = .RED) :
    let T₁ := T.setColor (T.parent z.ptr) .BLACK
    let T₂ := T₁.setColor (T₁.parent (T₁.parent z.ptr)) .RED
    ∃ s, Represents (RbTree.turn d.flip T₂ (T₂.parent (T₂.parent z.ptr))) s ∧ potential s =
      contextPotential C .BLACK+2+potential u+potential t+potential l+potential r := by
  intro T₁ T₂
  refine ⟨_,represents_plug.mpr h.straight_up,?_⟩
  rw [potential_plug]
  simp only [contextPotential, potential_fill, potential_node, rootColor_node, rootColor_fill, hz, charge_red,
    charge_both_red]
  omega

/-- A pass that rotates costs three at most. -/
theorem InsertBelow.rotate_paid (h : InsertBelow T C f g z l r .BLACK n) (hg : g.label.color = .BLACK) :
    ∃ t, Represents (insertArm g.side T z.ptr).1 t ∧
      potential t+1 ≤ potential (plug (f::g::C) (.node z l r))+3 := by
  have hm := h.potential_eq hg
  rw [charge_red_black] at hm
  have hy : T.color (T.child g.side.flip (T.parent (T.parent z.ptr))) ≠ .RED := by
    rw [h.uncle_color]
    nofun
  unfold insertArm
  rw [if_neg hy]
  dsimp only
  by_cases hz : z.ptr = T.child g.side.flip (T.parent z.ptr)
  · obtain ⟨t,l',r',hfocus,hsum⟩ := h.turned_up hz
    have hzp : T.parent z.ptr = f.label.ptr := h.focus.sub.1.parent
    rw [if_pos hz]
    dsimp only
    rw [hzp] at hfocus ⊢
    obtain ⟨s,hs,hpot⟩ := hfocus.straight_charged h.parent_red
    exact ⟨s,hs,by omega⟩
  · have hside := h.side_eq hz
    have hfocus := h.focus
    rw [if_neg hz]
    obtain ⟨d,p,t⟩ := f
    obtain rfl : d = g.side := hside
    obtain ⟨s,hs,hpot⟩ := hfocus.straight_charged h.red
    exact ⟨s,hs,by dsimp only at hm; omega⟩

theorem InsertBelow.pass_paid (h : InsertBelow T C f g z l r k n) (hg : g.label.color = .BLACK) :
    ∃ t, Represents (insertFixupPass (T,z.ptr)).1 t ∧
      (potential t+1 ≤ potential (plug (f::g::C) (.node z l r)) ∨
        (insertFixupPass (T,z.ptr)).1.color
          ((insertFixupPass (T,z.ptr)).1.parent (insertFixupPass (T,z.ptr)).2) = .BLACK ∧
        potential t+1 ≤ potential (plug (f::g::C) (.node z l r))+3) := by
  rw [h.pass_eq]
  cases k with
  | RED => exact h.recolor_paid hg
  | BLACK =>
    obtain ⟨t,ht,hle⟩ := h.rotate_paid hg
    refine ⟨t,ht,.inr ⟨h.exit ?_,hle⟩⟩
    rw [h.uncle_color]
    nofun

/-- The grandparent is BLACK when the loop goes on. -/
theorem InsertHead.grandparent_black (h : InsertHead (T,x)) (hred : T.color (T.parent x) = .RED) :
    T.color (T.parent (T.parent x)) = .BLACK := by
  obtain ⟨focus,nil_black,red,left,right,expects⟩ := h
  rename_i C z l r n
  rw [show T.parent z.ptr = holeParent T.nil C from focus.sub.1.parent] at hred ⊢
  cases C with
  | nil => cases nil_black.symm.trans hred
  | cons f C =>
    have hf : f.label.color = .RED := focus.stores_frame.color.symm.trans hred
    obtain ⟨-,hE⟩ := expects
    rw [hf] at hE
    obtain ⟨g,C',rfl,hg,-⟩ := hE.of_red
    rw [holeParent_cons, focus.stores_frame.parent]
    exact (focus_fill.mp focus).stores_frame.color.trans hg

/-- The loop of `rbtree_insert_fixup` before a test, with the charges of the tree. -/
def InsertCharged (s : Rbtree V × Ptr) (m : ℕ) : Prop :=
  (InsertHead s ∨ s.1.color (s.1.parent s.2) = .BLACK) ∧ Charged s.1 m

theorem InsertCharged.pass {s : Rbtree V × Ptr} {m : ℕ} (h : InsertCharged s m)
    (hred : s.1.color (s.1.parent s.2) = .RED) : ∃ m', InsertCharged (insertFixupPass s) m' ∧ (m'+1 ≤ m ∨
      ¬(insertFixupPass s).1.color ((insertFixupPass s).1.parent (insertFixupPass s).2) = .RED ∧
        m'+1 ≤ m+3) := by
  obtain ⟨T,x⟩ := s
  have hhead : InsertHead (T,x) := h.1.resolve_right fun hblack => nomatch hblack.symm.trans hred
  have hgrand := hhead.grandparent_black hred
  obtain ⟨C,f,g,z,l,r,k,n,rfl,hbelow⟩ := hhead.below hred
  have hf := hbelow.focus
  have hg : g.label.color = .BLACK := by
    have hcolor := (focus_fill.mp hf).stores_frame.color
    rw [show T.parent z.ptr = f.label.ptr from hf.sub.1.parent, hf.stores_frame.parent] at hgrand
    exact hcolor.symm.trans hgrand
  rw [h.2.eq (represents_plug.mpr hf)]
  obtain ⟨t,ht,hpaid⟩ := hbelow.pass_paid hg
  refine ⟨potential t,⟨hbelow.pass,t,ht,rfl⟩,hpaid.imp_right fun hlast => ⟨?_,hlast.2⟩⟩
  rw [hlast.1]
  nofun

end Insert
end ServerKit.RbTree
