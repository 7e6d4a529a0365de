import ServerKit.RbTree.Potential

/-! All insertions and deletions of a run together: their fixups make a bounded number of passes for each
call, although a single one may climb to the root. -/
namespace ServerKit.RbTree
open Function BinaryTree ServerKit.Lib

variable {V : Type}

section Delete
variable {T : Rbtree V} {C : CellContext V} {f : Frame (Cell V)} {p w b : Cell V}
  {s t near far bl br : CellTree V} {d : Side} {i j : Color} {n : ℕ} {x : Ptr}

theorem fill_flip (d : Side) (w : Cell V) (far near : CellTree V) :
    Frame.fill ⟨d,w,far⟩ near = Frame.fill ⟨d.flip,w,near⟩ far := by cases d <;> rfl

theorem At.nephew_colors (h : At T (⟨d,p,Frame.fill ⟨d,w,far⟩ near⟩::C) s x) :
    T.color (T.child d w.ptr) = rootColor near ∧ T.color (T.child d.flip w.ptr) = rootColor far := by
  have hw := focus_fill.mpr h.focus.swap
  rw [show T.child d w.ptr = rootPtr T.nil near from hw.child_side,
    show T.child d.flip w.ptr = rootPtr T.nil far from hw.child_flip]
  exact ⟨hw.sub.color_root h.nil_black,hw.swap.sub.color_root h.nil_black⟩

/-- The charges around the place, with the sibling taken apart. -/
theorem sibling_potential (C : CellContext V) (d : Side) (p w : Cell V) (s near far : CellTree V) :
    potential (plug (⟨d,p,Frame.fill ⟨d,w,far⟩ near⟩::C) s) = contextPotential C p.color+
      charge p.color (rootColor s) w.color+charge w.color (rootColor near) (rootColor far)+
      potential near+potential far+potential s := by
  rw [potential_plug]
  simp only [contextPotential, potential_fill, rootColor_fill]
  omega

/-- The sibling turns RED. -/
theorem At.sibling_red (h : At T (⟨d,p,Frame.fill ⟨d,w,far⟩ near⟩::C) s x) :
    Represents (T.setColor w.ptr .RED)
      (plug (⟨d,p,Frame.fill ⟨d,{ w with color := .RED },far⟩ near⟩::C) s) := by
  have hw := focus_fill.mp ((focus_fill.mpr h.focus.swap).setColor_frame .RED)
  have hs := hw.swap
  rw [Side.flip_flip] at hs
  exact represents_plug.mpr hs

/-- The last recolourings and the rotation at the parent. -/
theorem At.last_up (h : At T (⟨d,p,Frame.fill ⟨d,w,.node b bl br⟩ near⟩::C) s x) :
    let T₁ := T.setColor w.ptr (T.color (T.parent x))
    let T₂ := T₁.setColor (T₁.parent x) .BLACK
    let T₃ := T₂.setColor (T₂.child d.flip w.ptr) .BLACK
    Focus (turn d T₃ (T₃.parent x)) (⟨d,{ p with color := .BLACK },near⟩::
      ⟨d,{ w with color := p.color },.node { b with color := .BLACK } bl br⟩::C) s := by
  intro T₁ T₂ T₃
  have hxp : T.parent x = p.ptr := h.parent
  have hpc : T.color p.ptr = p.color := h.focus.stores_frame.color
  have hw := focus_fill.mpr h.focus.swap
  have hwb : T.child d.flip w.ptr = b.ptr := hw.child_flip
  have hT₃ : T₃ = ((T.setColor w.ptr p.color).setColor p.ptr .BLACK).setColor b.ptr .BLACK := by
    have hchild : T₂.child d.flip w.ptr = b.ptr := by
      rw [← hwb]
      cases d <;> rfl
    simp only [T₃, hchild]
    simp [T₂,T₁,hxp,hpc]
  have hp₃ : T₃.parent x = p.ptr := hxp
  have h₁ := focus_fill.mp (hw.setColor_frame p.color)
  have h₂ := focus_fill.mpr (h₁.setColor_frame .BLACK)
  have h₃ := (h₂.swap.setColor .BLACK).swap
  rw [Side.flip_flip] at h₃
  have h₄ := (focus_fill.mp h₃).swap
  rw [Side.flip_flip] at h₄
  rw [hp₃, hT₃]
  dsimp only at h₄
  rw [fill_flip] at h₄
  exact h₄.turn

/-- What the last rotation of a deletion leaves costs three at most. -/
theorem At.last_paid (h : At T (⟨d,p,Frame.fill ⟨d,w,far⟩ near⟩::C) s x) (hs : rootColor s = .BLACK)
    (hw : w.color = .BLACK) (hfar : RB .RED n far) :
    let T₁ := T.setColor w.ptr (T.color (T.parent x))
    let T₂ := T₁.setColor (T₁.parent x) .BLACK
    let T₃ := T₂.setColor (T₂.child d.flip w.ptr) .BLACK
    ∃ t, Represents (turn d T₃ (T₃.parent x)) t ∧
      potential t ≤ potential (plug (⟨d,p,Frame.fill ⟨d,w,far⟩ near⟩::C) s)+2 := by
  intro T₁ T₂ T₃
  obtain ⟨b,bl,br,rfl,hb,hbl,hbr⟩ := hfar.of_red
  refine ⟨_,represents_plug.mpr h.last_up,?_⟩
  rw [sibling_potential, potential_plug]
  simp only [contextPotential, potential_node, rootColor_node, hs, hw, hb, hbl.color, hbr.color, charge_red,
    charge_both_black]
  cases rootColor near with
  | RED =>
    simp only [charge_both_red, charge_black_red]
    omega
  | BLACK =>
    simp only [charge_both_black, charge_black_red]
    omega

/-- The rotation that brings a RED near nephew up moves no charge. -/
theorem At.nephew_charged (h : At T (⟨d,p,Frame.fill ⟨d,w,far⟩ near⟩::C) s x) (hw : w.color = .BLACK)
    (hnear : RB .RED n near) (hfar : RB .BLACK n far) : ∃ (a : Cell V) (l r : CellTree V),
      T.child d w.ptr = a.ptr ∧
      At (nephewUp d T w.ptr) (⟨d,p,Frame.fill ⟨d,{ a with color := .BLACK },
        Frame.fill ⟨d,{ w with color := .RED },far⟩ r⟩ l⟩::C) s x ∧
      RB .RED n (Frame.fill ⟨d,{ w with color := .RED },far⟩ r) ∧
      potential (plug (⟨d,p,Frame.fill ⟨d,{ a with color := .BLACK },
        Frame.fill ⟨d,{ w with color := .RED },far⟩ r⟩ l⟩::C) s) =
        potential (plug (⟨d,p,Frame.fill ⟨d,w,far⟩ near⟩::C) s) := by
  obtain ⟨a,al,ar,rfl,ha,hal,har⟩ := hnear.of_red
  have hchild : T.child d w.ptr = a.ptr := (focus_fill.mpr h.focus.swap).child_side
  obtain ⟨r,l,hfill,hl,hr⟩ : ∃ r l, BinaryTree.node a al ar = Frame.fill ⟨d,a,r⟩ l ∧ RB .BLACK n l ∧
      RB .BLACK n r := by
    cases d with
    | left => exact ⟨ar,al,rfl,hal,har⟩
    | right => exact ⟨al,ar,rfl,har,hal⟩
  rw [hfill] at h ⊢
  refine ⟨a,l,r,hchild,h.redNephew,rb_fill.mpr ⟨rfl,n,_,_,rfl,hr,hfar,fun _ => ⟨rfl,rfl⟩⟩,?_⟩
  rw [sibling_potential, sibling_potential]
  simp only [rootColor_fill, potential_fill, ha, hw, hl.color, hr.color, hfar.color, charge_red,
    charge_red_black, charge_black_red]
  omega

theorem At.deleteNephew_paid (h : At T (⟨d,p,Frame.fill ⟨d,w,far⟩ near⟩::C) s x) (hs : rootColor s = .BLACK)
    (hw : w.color = .BLACK) (hnear : RB i n near) (hfar : RB j n far) (hboth : ¬(i = .BLACK ∧ j = .BLACK)) :
    ∃ t, Represents (deleteNephew d T x w.ptr).1 t ∧
      potential t ≤ potential (plug (⟨d,p,Frame.fill ⟨d,w,far⟩ near⟩::C) s)+2 := by
  have hcolor : T.color (T.child d.flip w.ptr) = j := h.nephew_colors.2.trans hfar.color
  unfold deleteNephew
  dsimp only
  rw [hcolor]
  cases j with
  | RED =>
    rw [if_neg (by nofun)]
    exact h.last_paid hs hw hfar
  | BLACK =>
    cases i with
    | BLACK => exact absurd ⟨rfl,rfl⟩ hboth
    | RED =>
      obtain ⟨a,l,r,hchild,hup,hrb,hpot⟩ := h.nephew_charged hw hnear hfar
      rw [if_pos rfl, hup.sibling.side, ← hpot]
      exact hup.last_paid hs rfl hrb

/-- The arm once the sibling is BLACK: to turn it RED is paid by its charge. -/
theorem At.deleteTail_paid (h : At T (⟨d,p,Frame.fill ⟨d,w,far⟩ near⟩::C) s x) (hs : rootColor s = .BLACK)
    (hw : w.color = .BLACK) (hnear : RB i n near) (hfar : RB j n far) :
    ∃ t, Represents (deleteTail d T x w.ptr).1 t ∧
      (potential t+1 ≤ potential (plug (⟨d,p,Frame.fill ⟨d,w,far⟩ near⟩::C) s) ∨
        ¬(T.color (T.left w.ptr) = .BLACK ∧ T.color (T.right w.ptr) = .BLACK) ∧
        potential t+1 ≤ potential (plug (⟨d,p,Frame.fill ⟨d,w,far⟩ near⟩::C) s)+3) := by
  have hcolors := h.nephew_colors
  rw [hnear.color, hfar.color] at hcolors
  have hiff : T.color (T.left w.ptr) = .BLACK ∧ T.color (T.right w.ptr) = .BLACK ↔
      i = .BLACK ∧ j = .BLACK := by
    rw [← hcolors.1, ← hcolors.2]
    cases d with
    | left => exact Iff.rfl
    | right => exact and_comm
  unfold deleteTail
  by_cases hboth : i = .BLACK ∧ j = .BLACK
  · rw [if_pos (hiff.mpr hboth)]
    refine ⟨_,h.sibling_red,.inl ?_⟩
    obtain ⟨rfl,rfl⟩ := hboth
    rw [sibling_potential, sibling_potential]
    simp only [hs, hw, hnear.color, hfar.color, charge_red, charge_both_black]
    cases p.color with
    | RED =>
      simp only [charge_red]
      omega
    | BLACK =>
      simp only [charge_both_black, charge_black_red]
      omega
  · rw [if_neg (mt hiff.mp hboth)]
    obtain ⟨t,ht,hle⟩ := h.deleteNephew_paid hs hw hnear hfar hboth
    exact ⟨t,ht,.inr ⟨mt hiff.mp hboth,by omega⟩⟩

/-- The rotation that brings a RED sibling up moves no charge. -/
theorem siblingUp_potential (C : CellContext V) (d : Side) (hs : rootColor s = .BLACK)
    (hp : p.color = .BLACK) (hw : w.color = .RED) (hnear : RB .BLACK n near) (hfar : RB .BLACK n far) :
    potential (plug (⟨d,{ p with color := .RED },near⟩::⟨d,{ w with color := .BLACK },far⟩::C) s) =
      potential (plug (⟨d,p,Frame.fill ⟨d,w,far⟩ near⟩::C) s) := by
  rw [sibling_potential, potential_plug]
  simp only [contextPotential, hs, hp, hw, hnear.color, hfar.color, charge_red, charge_red_black,
    charge_black_red]
  omega

/-- A pass that finds no RED node around the sibling is paid by the sibling, and any other is the last. -/
theorem At.deleteArm_paid (h : At T (f::C) s x) (hs : rootColor s = .BLACK)
    (hE : Expects (f::C) .BLACK (n+1)) : ∃ t, Represents (deleteArm f.side T x).1 t ∧
      (potential t+1 ≤ potential (plug (f::C) s) ∨
        ¬Counted.AllBlack T (T.child f.side.flip (T.parent x)) ∧
        potential t+1 ≤ potential (plug (f::C) s)+3) := by
  obtain ⟨d,p,u⟩ := f
  obtain ⟨w,far,near,rfl,hinner⟩ := h.exists_sibling hE
  have hchild : T.child d.flip (T.parent x) = w.ptr := h.sibling.side
  have hcolor : T.color w.ptr = w.color := (focus_fill.mpr h.focus.swap).stores_frame.color
  obtain ⟨⟨k,hu,hk⟩,-⟩ := hE
  obtain ⟨hwk,m,i,j,hm,hnear,hfar,hred⟩ := rb_fill.mp hu
  dsimp only at hwk hk hnear hfar ⊢
  unfold deleteArm
  dsimp only
  rw [hchild, hcolor, hwk]
  cases k with
  | BLACK =>
    rw [if_neg (by nofun)]
    obtain ⟨t,ht,hpaid⟩ := h.deleteTail_paid hs hwk hnear hfar
    exact ⟨t,ht,hpaid.imp_right fun hlast => ⟨fun hall => hlast.1 hall.2,hlast.2⟩⟩
  | RED =>
    obtain ⟨rfl,rfl⟩ := hred rfl
    have hp : p.color = .BLACK := by
      cases hp : p.color with
      | RED => exact absurd (hk hp).2 (by nofun)
      | BLACK => rfl
    obtain ⟨e,far',near',rfl⟩ := hinner (hcolor.trans hwk)
    obtain ⟨he,m',i',j',-,hnear',hfar',-⟩ := rb_fill.mp hnear
    have hup := h.redSibling
    rw [if_pos rfl, hup.sibling.side, ← siblingUp_potential C d hs hp hwk hnear hfar]
    obtain ⟨t,ht,hpaid⟩ := hup.deleteTail_paid hs he hnear' hfar'
    refine ⟨t,ht,hpaid.imp_right fun hlast => ⟨?_,hlast.2⟩⟩
    rintro ⟨hblack,-⟩
    cases hblack.symm.trans (hcolor.trans hwk)

/-- The loop of `rbtree_delete_fixup` before a test, with the charges of the tree. -/
def DeleteCharged (s : Rbtree V × Ptr) (m : ℕ) : Prop :=
  (DeleteHead s ∨ s.2 = s.1.root) ∧ Charged s.1 m

theorem DeleteCharged.pass {s : Rbtree V × Ptr} {m : ℕ} (h : DeleteCharged s m)
    (hcond : s.2 ≠ s.1.root ∧ s.1.color s.2 = .BLACK) :
    ∃ m', DeleteCharged (deleteFixupPass s) m' ∧ (m'+1 ≤ m ∨
      ¬((deleteFixupPass s).2 ≠ (deleteFixupPass s).1.root ∧
        (deleteFixupPass s).1.color (deleteFixupPass s).2 = .BLACK) ∧ m'+1 ≤ m+3) := by
  obtain ⟨T,x⟩ := s
  have hhead : DeleteHead (T,x) := h.1.resolve_right hcond.1
  obtain ⟨f,C,s,n,hat,hrb,hE⟩ := hhead.below hcond
  rw [h.2.eq (represents_plug.mpr hat.focus)]
  obtain ⟨t,ht,hpaid⟩ := hat.deleteArm_paid hrb.color hE
  rw [← hat.pass_eq hE] at ht
  refine ⟨potential t,⟨deleteFixupPass_head hat hrb hE,t,ht,rfl⟩,hpaid.imp_right fun hlast => ⟨?_,hlast.2⟩⟩
  rintro ⟨hroot,hblack⟩
  have hexit := hat.exit hE hlast.1
  rw [← hat.pass_eq hE] at hexit
  obtain hx | hx := hexit
  · exact hroot hx
  · cases hx.symm.trans hblack

end Delete

section Paint
variable {T : Rbtree V} {C : CellContext V} {s t : CellTree V} {x : Ptr} {m : ℕ}

theorem potential_blacken_le (t : CellTree V) : potential (blacken t) ≤ potential t+2 := by
  cases t with
  | nil => exact Nat.zero_le 2
  | node c l r =>
    have hle := charge_le .BLACK (rootColor l) (rootColor r)
    simp only [blacken, potential_node]
    omega

theorem Represents.blacken (h : Represents T t) : Represents (T.setColor T.root .BLACK) (blacken t) := by
  have hf : Focus T [] t := h
  have hroot : T.root = rootPtr T.nil t := hf.context
  cases t with
  | nil => exact ⟨hf.context,trivial,hf.nodup⟩
  | node c l r =>
    rw [hroot]
    exact hf.setColor .BLACK

/-- Behind the loop of `rbtree_insert_fixup` the root is painted. -/
theorem Charged.blacken (h : Charged T m) : ∃ m', Charged (T.setColor T.root .BLACK) m' ∧ m' ≤ m+2 := by
  obtain ⟨t,ht,rfl⟩ := h
  exact ⟨_,⟨_,ht.blacken,rfl⟩,potential_blacken_le t⟩

/-- Behind the loop of `rbtree_delete_fixup` the place is painted. -/
theorem DeleteCharged.exit (h : DeleteCharged (T,x) m) (hexit : ¬(x ≠ T.root ∧ T.color x = .BLACK)) :
    ∃ m', Charged (T.setColor x .BLACK) m' ∧ m' ≤ m+4 := by
  by_cases hroot : x = T.root
  · obtain ⟨m',hm',hle⟩ := h.2.blacken
    rw [hroot]
    exact ⟨m',hm',by omega⟩
  · obtain ⟨hat,hlack⟩ := h.1.resolve_right hroot
    rename_i C s
    have hcolor : rootColor s = .RED := by
      rw [← hat.focus.sub.color_root hat.nil_black, ← hat.here]
      cases hx : T.color x with
      | RED => rfl
      | BLACK => exact absurd ⟨hroot,hx⟩ hexit
    obtain ⟨hf,-⟩ := deleteFixup_exit hat hlack (.inr hcolor)
    rw [h.2.eq (represents_plug.mpr hat.focus)]
    exact ⟨_,⟨_,represents_plug.mpr hf,rfl⟩,potential_plug_le (potential_blacken_le s)⟩

end Paint

/-- `rbtree_insert` with the number of passes of its fixup. -/
def countInsert (fuel : ℕ) (T : Rbtree V) (z : Ptr) : Option (Rbtree V × ℕ) :=
  (loop (insertDescendPass T z) fuel (T.nil,T.root)).bind fun
    | none => some (T,0)
    | some y => (countLoop (fun s : Rbtree V × Ptr => s.1.color (s.1.parent s.2) = .RED) insertFixupPass fuel
        (insertLink T z y,z)).map fun (s,c) => (s.1.setColor s.1.root .BLACK,c)

/-- `rbtree_delete` with the number of passes of its fixup. -/
def countDelete (fuel : ℕ) (T : Rbtree V) (z : Ptr) : Option ((Rbtree V × Ptr) × ℕ) :=
  (deleteChoice fuel T z).bind fun y =>
    let U := deleteUnlink T z y
    if U.color y = .BLACK then
      (countLoop (fun s : Rbtree V × Ptr => s.2 ≠ s.1.root ∧ s.1.color s.2 = .BLACK) deleteFixupPass fuel
        (U,deleteChild T y)).map fun (s,c) => ((s.1.setColor s.2 .BLACK,y),c)
    else some ((U,y),0)

theorem countInsert_fst (n : ℕ) (T : Rbtree V) (z : Ptr) :
    (countInsert n T z).map Prod.fst = rbtreeInsert n T z := by
  unfold countInsert rbtreeInsert
  rw [Option.map_bind]
  congr 1
  funext r
  cases r with
  | none => rfl
  | some y =>
    dsimp only [Function.comp]
    rw [rbtreeInsertFixup, ← countLoop_fst, Option.map_map, Option.map_map]
    rfl

theorem countDelete_fst (n : ℕ) (T : Rbtree V) (z : Ptr) :
    (countDelete n T z).map Prod.fst = rbtreeDelete n T z := by
  rw [rbtreeDelete_eq]
  unfold countDelete
  rw [Option.map_bind]
  congr 1
  funext y
  dsimp only [Function.comp]
  split
  · rw [rbtreeDeleteFixup, ← countLoop_fst, Option.map_map, Option.map_map, Option.map_map]
    rfl
  · rfl

section Calls
variable {T T' : Rbtree V} {t : CellTree V} {y z : Ptr} {c : ℕ}

/-- An insertion takes at most seven more passes than it takes off the potential. -/
theorem countInsert_paid (hT : IsRbtree T t) (hz : z ∉ ptrs t) (hzn : z ≠ T.nil)
    (hret : Returns (fun n => countInsert n T z) (T',c)) :
    ∃ t', IsRbtree T' t' ∧ c+potential t' ≤ potential t+7 := by
  have hfst : Returns (fun n => rbtreeInsert n T z) T' :=
    (hret.map Prod.fst).congr fun n => (countInsert_fst n T z).symm
  by_cases hk : T.key z ∈ keys t
  · have hnone : Returns (fun n => countInsert n T z) (T,0) :=
      (insertDescend_existing hT hk).bind (Returns.const _)
    obtain ⟨rfl,rfl⟩ := Prod.mk.inj (hret.unique hnone)
    exact ⟨t,hT,by omega⟩
  · obtain ⟨T₁,t',A,B,hret₁,hT',-⟩ := rbtreeInsert_entries hT hz hzn hk
    obtain rfl := hfst.unique hret₁
    obtain ⟨y,C,hdescend,rfl,-,-,focus,hblack,hE⟩ := insert_place hT hz hzn hk
    have hhead : InsertHead (insertLink T z y,z) := .intro focus hblack rfl RB.nil RB.nil hE
    have hstart : InsertCharged (insertLink T z y,z) (potential (plug C (.node (newCell T z) .nil .nil))) :=
      ⟨.inl hhead,_,represents_plug.mpr focus,rfl⟩
    have hlink : potential (plug C (.node (newCell T z) .nil .nil)) ≤ potential (plug C .nil)+(0+2) :=
      potential_plug_le (Nat.le_refl 0)
    obtain ⟨n,hn⟩ := hdescend.of_bind hret
    obtain ⟨⟨⟨U,x⟩,c'⟩,hloop,heq⟩ := Option.map_eq_some_iff.mp hn
    obtain ⟨rfl,rfl⟩ := Prod.mk.inj heq
    obtain ⟨m,hm,-,hle⟩ := countLoop_amortized (fun s m hs hred => hs.pass hred) hstart hloop
    obtain ⟨m',hm',hle'⟩ := hm.2.blacken
    refine ⟨t',hT',?_⟩
    rw [← hm'.eq hT'.holds]
    omega

/-- To take a node out adds two to the potential at most. -/
theorem deleteUnlink_charged (hT : IsRbtree T t) (hz : z ∈ ptrs t)
    (hchoice : Returns (fun n => deleteChoice n T z) y) :
    ∃ m, Charged (deleteUnlink T z y) m ∧ m ≤ potential t+2 := by
  obtain ⟨c,hc,rfl⟩ := List.mem_map.mp hz
  obtain ⟨C,l,r,rfl⟩ := exists_focus hc
  have h : Focus T C (.node c l r) := represents_plug.mp hT.holds
  by_cases hone : l = .nil ∨ r = .nil
  · obtain ⟨s,hs⟩ := exists_onlyChild hone
    obtain ⟨hchoice',hat⟩ := delete_here_place h hT.nil_black hs
    obtain rfl := hchoice.unique hchoice'
    refine ⟨_,⟨_,represents_plug.mpr hat.focus,rfl⟩,potential_plug_le (m := 0) ?_⟩
    obtain ⟨rfl,rfl⟩ | ⟨rfl,rfl⟩ := hs
    · rw [potential_node]
      omega
    · rw [potential_node]
      omega
  · obtain ⟨hl,hr⟩ := not_or.mp hone
    obtain ⟨D,y',b,rfl,-,-,hchoice',hy,hat⟩ := delete_next_place h hT.nil_black hl hr
    obtain rfl := hchoice.unique hchoice'
    refine ⟨_,⟨_,represents_plug.mpr hat.focus,rfl⟩,?_⟩
    have hold : plug C (.node c l (plug D (.node y' .nil b))) =
        plug (D ++ ⟨.right,c,l⟩::C) (.node y' .nil b) := by
      rw [plug_append]
      rfl
    have hnode : potential b ≤ potential (.node y' .nil b)+0 := by
      rw [potential_node]
      omega
    have hcolor : { c with key := y'.key, value := y'.value }.color = c.color := rfl
    rw [hold, potential_plug, contextPotential_relabel D C hcolor, ← potential_plug]
    exact potential_plug_le hnode

/-- A deletion takes at most nine more passes than it takes off the potential. -/
theorem countDelete_paid (hT : IsRbtree T t) (hz : z ∈ ptrs t)
    (hret : Returns (fun n => countDelete n T z) ((T',y),c)) :
    ∃ t', IsRbtree T' t' ∧ c+potential t' ≤ potential t+9 := by
  have hfst : Returns (fun n => rbtreeDelete n T z) (T',y) :=
    (hret.map Prod.fst).congr fun n => (countDelete_fst n T z).symm
  obtain ⟨T₁,t',y₁,A,B,hret₁,hT',-⟩ := rbtreeDelete_entries hT hz
  obtain ⟨rfl,rfl⟩ := Prod.mk.inj (hfst.unique hret₁)
  obtain ⟨y',C,s,hchoice,-,hat,hlack⟩ := delete_place hT hz
  obtain ⟨m,hm,hle⟩ := deleteUnlink_charged hT hz hchoice
  obtain ⟨n,hn⟩ := hchoice.of_bind hret
  refine ⟨t',hT',?_⟩
  dsimp only at hn
  by_cases hblack : (deleteUnlink T z y').color y' = .BLACK
  · rw [if_pos hblack] at hn
    obtain ⟨⟨⟨U,x⟩,c'⟩,hloop,heq⟩ := Option.map_eq_some_iff.mp hn
    obtain ⟨hheap,rfl⟩ := Prod.mk.inj heq
    obtain ⟨rfl,rfl⟩ := Prod.mk.inj hheap
    have hstart : DeleteCharged (deleteUnlink T z y',deleteChild T y') m :=
      ⟨.inl (.intro hat (hlack hblack)),hm⟩
    obtain ⟨m',hm',hexit,hle'⟩ := countLoop_amortized (fun s m hs hcond => hs.pass hcond) hstart hloop
    obtain ⟨m'',hm'',hle''⟩ := hm'.exit hexit
    rw [← hm''.eq hT'.holds]
    omega
  · rw [if_neg hblack] at hn
    obtain ⟨hheap,rfl⟩ := Prod.mk.inj (Option.some.inj hn)
    obtain ⟨rfl,rfl⟩ := Prod.mk.inj hheap
    rw [← hm.eq hT'.holds]
    omega

theorem countInsert_returns (hT : IsRbtree T t) (hz : z ∉ ptrs t) (hzn : z ≠ T.nil) :
    ∃ T' c, Returns (fun n => countInsert n T z) (T',c) := by
  by_cases hk : T.key z ∈ keys t
  · exact ⟨T,0,(insertDescend_existing hT hk).bind (Returns.const _)⟩
  · obtain ⟨y,C,hdescend,-,-,-,focus,hblack,hE⟩ := insert_place hT hz hzn hk
    obtain ⟨U,x,u,hloop,-⟩ := insertFixup_loop C focus hblack rfl RB.nil RB.nil hE
    obtain ⟨c,hcount⟩ := countLoop_of_returns hloop
    exact ⟨_,c,hdescend.bind (hcount.map fun (s,c) => (s.1.setColor s.1.root .BLACK,c))⟩

theorem countDelete_returns (hT : IsRbtree T t) (hz : z ∈ ptrs t) :
    ∃ T' y c, Returns (fun n => countDelete n T z) ((T',y),c) := by
  obtain ⟨y,C,s,hchoice,-,hat,hlack⟩ := delete_place hT hz
  by_cases hblack : (deleteUnlink T z y).color y = .BLACK
  · obtain ⟨U,x,u,N,hloop,-⟩ := deleteFixup_loop (C.length+1) hat (hlack hblack) (.inr (Nat.lt_succ_self _))
    obtain ⟨c,hcount⟩ := countLoop_of_returns hloop
    have hpaint := hcount.map fun (s,c) => ((s.1.setColor s.2 .BLACK,y),c)
    exact ⟨_,y,c,hchoice.bind (hpaint.congr fun n => if_pos hblack)⟩
  · exact ⟨_,y,0,hchoice.bind ((Returns.const _).congr fun n => if_neg hblack)⟩

end Calls

/-- One call on the heap, with the number of passes of its fixup. -/
inductive CountedStep : Rbtree V → Call V × ℕ → Rbtree V → Prop
  | insert {T T' p color right left parent k v c} (hp : p ≠ T.nil) (fresh : ¬ Reachable T p)
      (ret : Returns (fun n => countInsert n (T.store p color right left parent k v) p) (T',c)) :
      CountedStep T (.insert k v,c) T'
  | delete {T T' p y k c} (found : Returns (fun n => rbtreeSearch n T k) p) (hp : p ≠ T.nil)
      (ret : Returns (fun n => countDelete n T p) ((T',y),c)) : CountedStep T (.delete k,c) T'

section Runs
variable {T T' : Rbtree V} {q : Call V} {l : Call V × ℕ} {m : ℕ}

/-- The heap of a red-black tree with the charges. -/
def ChargedRbtree (T : Rbtree V) (m : ℕ) : Prop := ∃ t, IsRbtree T t ∧ potential t = m

theorem ChargedRbtree.paid (h : ChargedRbtree T m) (hstep : CountedStep T l T') :
    ∃ m', ChargedRbtree T' m' ∧ l.2+m' ≤ m+9 := by
  obtain ⟨t,hT,rfl⟩ := h
  cases hstep with
  | @insert T' p color right left parent k v c hp fresh ret =>
    have hpt : p ∉ ptrs t := fun hmem => fresh ((reachable_iff hT.holds).mpr hmem)
    obtain ⟨t',hT',hle⟩ := countInsert_paid (store_isRbtree hT hp hpt) hpt hp ret
    exact ⟨_,⟨t',hT',rfl⟩,by dsimp only; omega⟩
  | @delete T' p y k c found hp ret =>
    obtain ⟨cell,hcell,rfl,rfl⟩ := rbtreeSearch_linked_node hT found hp
    obtain ⟨t',hT',hle⟩ := countDelete_paid hT (List.mem_map_of_mem hcell) ret
    exact ⟨_,⟨t',hT',rfl⟩,hle⟩

theorem CountedStep.call (h : CountedStep T l T') : CallStep T l.1 T' := by
  cases h with
  | insert hp fresh ret =>
    exact .insert hp fresh ((ret.map Prod.fst).congr fun n => (countInsert_fst n _ _).symm)
  | delete found hp ret =>
    exact .delete found hp ((ret.map Prod.fst).congr fun n => (countDelete_fst n _ _).symm)

/-- Every call can be counted. -/
theorem CallStep.counted {t : CellTree V} (hT : IsRbtree T t) (h : CallStep T q T') :
    ∃ c, CountedStep T (q,c) T' := by
  cases h with
  | @insert T' p color right left parent k v hp fresh ret =>
    have hpt : p ∉ ptrs t := fun hmem => fresh ((reachable_iff hT.holds).mpr hmem)
    have hstore : IsRbtree (T.store p color right left parent k v) t := store_isRbtree hT hp hpt
    obtain ⟨U,c,hU⟩ := countInsert_returns hstore hpt hp
    have hfst := (hU.map Prod.fst).congr fun n => (countInsert_fst n _ _).symm
    obtain rfl := ret.unique hfst
    exact ⟨c,.insert hp fresh hU⟩
  | @delete T' p y k found hp ret =>
    obtain ⟨cell,hcell,rfl,rfl⟩ := rbtreeSearch_linked_node hT found hp
    obtain ⟨U,y',c,hU⟩ := countDelete_returns hT (List.mem_map_of_mem hcell)
    have hfst := (hU.map Prod.fst).congr fun n => (countDelete_fst n _ _).symm
    obtain ⟨rfl,rfl⟩ := Prod.mk.inj (ret.unique hfst)
    exact ⟨c,.delete found hp hU⟩

/-- The fixups of all calls from the empty tree on make at most nine passes for each call, and every run of
calls can be counted so. -/
theorem fixups_amortized {T₀ : Rbtree V} (h₀ : IsEmpty T₀) :
    (∀ counted T, Run CountedStep T₀ counted T → (counted.map Prod.snd).sum ≤ 9*counted.length) ∧
      ∀ calls T, Run CallStep T₀ calls T →
        ∃ counted, counted.map Prod.fst = calls ∧ Run CountedStep T₀ counted T := by
  obtain ⟨t,hT,-⟩ := h₀.holds
  have hnil : t = .nil := by
    cases t with
    | nil => rfl
    | node c l r => exact absurd (hT.holds.context.symm.trans h₀.1) hT.holds.sub.1.ne_nil
  subst hnil
  refine ⟨fun counted T hrun => ?_,fun calls T hrun => ?_⟩
  · obtain ⟨m,-,hle⟩ := hrun.amortized (R := ChargedRbtree) (f := Prod.snd) ⟨.nil,hT,rfl⟩
      fun T l T' m hm hstep => hm.paid hstep
    exact (Nat.le_add_right _ m).trans (hle.trans (Nat.zero_add _).le)
  · have hcounted : (∃ t, IsRbtree T t) ∧
        ∃ counted, counted.map Prod.fst = calls ∧ Run CountedStep T₀ counted T := by
      induction hrun with
      | nil => exact ⟨⟨.nil,hT⟩,[],rfl,.nil⟩
      | @snoc calls q T₁ T₂ run last ih =>
        obtain ⟨⟨t,hT₁⟩,counted,rfl,hrun⟩ := ih
        obtain ⟨c,hstep⟩ := last.counted hT₁
        obtain ⟨-,⟨t',hT₂,-⟩,-⟩ := ChargedRbtree.paid ⟨t,hT₁,rfl⟩ hstep
        exact ⟨⟨t',hT₂⟩,counted ++ [(q,c)],by simp,hrun.snoc hstep⟩
    exact hcounted.2

theorem fixups_amortized_sample : ∃ counted T, counted.map Prod.fst = sampleCalls ∧
    Run CountedStep emptyTree counted T ∧ (counted.map Prod.snd).sum ≤ 54 := by
  obtain ⟨T,hcalls⟩ := exists_sampleRun
  have hempty : IsEmpty emptyTree := ⟨rfl,rfl⟩
  obtain ⟨hpaid,hcounts⟩ := fixups_amortized hempty
  obtain ⟨counted,hfst,hrun⟩ := hcounts sampleCalls T hcalls
  have hlength : counted.length = 6 := by
    rw [← counted.length_map (f := Prod.fst), hfst]
    rfl
  have hle := hpaid counted T hrun
  rw [hlength] at hle
  exact ⟨counted,T,hfst,hrun,hle⟩

end Runs
end ServerKit.RbTree
