import ServerKit.Lib.Logged
import ServerKit.Lib.SplitPair
import ServerKit.Reactor.Code

/-! The memory that `readline` works on, with a log of the places that are read and written, and the
lines that it finds. -/
namespace ServerKit.Reactor
open ServerKit.Lib

/-- The byte before `ev->buffer`, the memory from there on, and that from the line buffer on; `ext` is
what else is changed when a request is parsed. -/
structure Frame (X : Type) where
  before : UInt8
  buffer : List UInt8
  linebuf : List UInt8
  ext : X

/-- A byte that is read or written, an array that is taken for a string, and the start of the key in a
line of some length. -/
inductive Access
  | buffer (i : ℤ)
  | linebuf (i : ℕ)
  | string (array : List UInt8)
  | key (length : ℕ)

/-- Inside arrays of 1024 bytes. A string ends inside its array, and the key has a place in its line. -/
def Access.InBounds : Access → Prop
  | .buffer i => 0 ≤ i ∧ i < BUFFER_LENGTH
  | .linebuf i => i < 1024
  | .string array => 0 ∈ array.take 1024
  | .key length => 19 < length

abbrev Prog (X : Type) := Logged (Frame X) Access

/-- A line in a line buffer that was filled with zeros before. -/
def Frame.withLine {X : Type} (f : Frame X) (line : List UInt8) : Frame X :=
  { f with linebuf := putAt (List.replicate 1024 0 ++ f.linebuf.drop 1024) 0 line }

namespace Traced
open Logged
variable {X : Type}

def testBuffer (i : ℕ) (c : UInt8) : Prog X Bool :=
  .read (fun f => f.buffer.getD i 0 == c) fun _ => .buffer i

def getBuffer (i : ℕ) : Prog X UInt8 := .read (·.buffer.getD i 0) fun _ => .buffer i

def setLinebuf (i : ℕ) (c : UInt8) : Prog X Unit :=
  .write (fun f => { f with linebuf := f.linebuf.set i c }) fun _ => .linebuf i

/-- The zero is read too. -/
def strlen : Prog X ℕ := fun f =>
  ((text f.buffer).length,f,(List.range ((text f.buffer).length+1)).map fun i => .buffer i)

/-- The loop of `readline`, with `n` more bytes before the end of the text. -/
def copyLine : ℕ → ℕ → ℕ → Prog X (Option ℕ)
  | 0,_,_ => pure none
  | n+1,idx,j => do
    if ← and (testBuffer idx 13) (testBuffer (idx+1) 10) then pure (some (idx+2))
    else do
      let c ← getBuffer idx
      setLinebuf j c
      copyLine n (idx+1) (j+1)

def readline (idx : ℕ) : Prog X (Option ℕ) := do
  let len ← strlen
  copyLine (len-idx) idx 0

/-- `char linebuf[1024] = {0}` -/
def zeroLinebuf : Prog X Unit :=
  .modify fun f => { f with linebuf := List.replicate 1024 (0 : UInt8) ++ f.linebuf.drop 1024 }

def freshLine (idx : ℕ) : Prog X (Option ℕ) := do
  zeroLinebuf
  readline idx

def strstr (needle : List UInt8) : Prog X Bool :=
  .read (fun f => Lib.strstr (text f.linebuf) needle) fun f => .string f.linebuf

end Traced

theorem readlineFrom_le {idx j : ℕ} {s : List UInt8} (h : (readlineFrom idx s).1 = some j) :
    idx+2 ≤ j ∧ j ≤ idx+s.length := by
  induction s generalizing idx with
  | nil => cases h
  | cons c s ih =>
    rw [readlineFrom] at h
    split at h
    · next hend =>
      obtain rfl := Option.some.inj h
      have hs : s ≠ [] := fun hnil => by simp [hnil] at hend
      have hpos := List.length_pos_iff.mpr hs
      rw [List.length_cons]
      omega
    · have hle := ih h
      rw [List.length_cons]
      omega

/-- The next line begins later, and inside the text or at its end. -/
theorem readline_le {buffer : List UInt8} {idx j : ℕ} (h : (readline buffer idx).1 = some j) :
    idx+2 ≤ j ∧ j ≤ (text buffer).length := by
  have hle := readlineFrom_le h
  rw [List.length_drop] at hle
  omega

/-- What `readline` does from `idx` on, the line that it copies, and what comes then. -/
theorem readline_cases (buffer : List UInt8) (idx : ℕ) :
    (∃ l, splitPair 13 10 ((text buffer).drop idx) = [l] ∧ readline buffer idx = (none,l)) ∨
    ∃ l, splitPair 13 10 ((text buffer).drop idx) =
        l :: splitPair 13 10 ((text buffer).drop (idx+l.length+2)) ∧
      readline buffer idx = (some (idx+l.length+2),l) := by
  have hfrom (s : List UInt8) (idx : ℕ) : (∃ l, splitPair 13 10 s = [l] ∧ readlineFrom idx s = (none,l)) ∨
      ∃ l, splitPair 13 10 s = l :: splitPair 13 10 (s.drop (l.length+2)) ∧
        readlineFrom idx s = (some (idx+l.length+2),l) := by
    induction s generalizing idx with
    | nil => exact .inl ⟨[],rfl,rfl⟩
    | cons c s ih =>
      rw [readlineFrom]
      by_cases hpair : c = 13 ∧ s.head? = some 10
      · obtain ⟨rfl,hhead⟩ := hpair
        obtain ⟨s,rfl⟩ := List.head?_eq_some_iff.mp hhead
        refine .inr ⟨[],splitPair_pair ..,?_⟩
        rw [if_pos ⟨rfl,rfl⟩]
        rfl
      · rw [splitPair_cons hpair, if_neg hpair]
        obtain ⟨l,hsplit,hread⟩ | ⟨l,hsplit,hread⟩ := ih (idx+1)
        · refine .inl ⟨c :: l,?_,?_⟩
          · rw [hsplit]
            rfl
          · rw [hread]
        · have hplace : idx+1+l.length+2 = idx+(c :: l).length+2 := by
            rw [List.length_cons]
            omega
          refine .inr ⟨c :: l,?_,?_⟩
          · rw [hsplit]
            rfl
          · rw [hread, hplace]
  simpa only [readline, List.drop_drop, Nat.add_assoc] using hfrom ((text buffer).drop idx) idx

/-- The line is what comes first from `idx` on. -/
theorem line_starts (buffer : List UInt8) (idx : ℕ) :
    (readline buffer idx).2 <+: (text buffer).drop idx := by
  obtain ⟨l,ls,hsplit,hstarts⟩ := exists_splitPair 13 10 ((text buffer).drop idx)
  obtain ⟨l',hsplit',hread⟩ | ⟨l',hsplit',hread⟩ := readline_cases buffer idx
  · rw [hsplit, List.cons.injEq] at hsplit'
    rw [hread, ← hsplit'.1]
    exact hstarts
  · rw [hsplit, List.cons.injEq] at hsplit'
    rw [hread, ← hsplit'.1]
    exact hstarts

theorem zero_notMem_line (buffer : List UInt8) (idx : ℕ) : 0 ∉ (readline buffer idx).2 := fun hmem =>
  zero_notMem_text buffer (List.mem_of_mem_drop ((line_starts buffer idx).mem hmem))

theorem length_line_le (buffer : List UInt8) (idx : ℕ) :
    (readline buffer idx).2.length ≤ (text buffer).length-idx := by
  rw [← List.length_drop]
  exact (line_starts buffer idx).length_le

section Copy
variable {X : Type} {P : Access → Prop} {f : Frame X} {n idx j : ℕ}

/-- Before the end of the text the test of `readline` is about the text. -/
theorem exists_drop (h : idx < (text f.buffer).length) :
    ∃ c, (text f.buffer).drop idx = c :: (text f.buffer).drop (idx+1) ∧ f.buffer.getD idx 0 = c ∧
      (f.buffer.getD (idx+1) 0 = 10 ↔ ((text f.buffer).drop (idx+1)).head? = some 10) := by
  refine ⟨_,List.drop_eq_getElem_cons h,?_,?_⟩
  · rw [getD_text h.le, List.getD_eq_getElem?_getD, List.getElem?_eq_getElem h, Option.getD_some]
  · rw [getD_text h, List.getD_eq_getElem?_getD, List.head?_drop]
    cases (text f.buffer)[idx+1]? with
    | none => decide
    | some c => exact Option.some_inj.symm

open Logged in
/-- The loop copies what `readlineFrom` does, to the bytes of the line buffer from `j` on. -/
theorem copyLine_gives (hn : idx+n = (text f.buffer).length) {r : Option ℕ × List UInt8}
    (hr : readlineFrom idx ((text f.buffer).drop idx) = r) (hfits : j+r.2.length ≤ f.linebuf.length)
    (hbuffer : ∀ i ≤ (text f.buffer).length, P (.buffer i)) :
    Gives P (Traced.copyLine n idx j) f r.1 { f with linebuf := putAt f.linebuf j r.2 }
      (∀ k < r.2.length, P (.linebuf (j+k))) := by
  induction n generalizing f idx j r with
  | zero =>
    rw [List.drop_eq_nil_of_le (by omega)] at hr
    subst hr
    have hput : putAt f.linebuf j [] = f.linebuf := putAt_nil _ j
    refine ⟨rfl,?_,iff_of_true (clean_pure none) fun k hk => absurd hk (Nat.not_lt_zero k)⟩
    simp only [readlineFrom, hput]
    rfl
  | succ n ih =>
    have hlt : idx < (text f.buffer).length := by omega
    obtain ⟨c,hdrop,hfirst,hsecond⟩ := exists_drop hlt
    have hread : ∀ i < (text f.buffer).length+1, ∀ d,
        Clean P (Traced.testBuffer i d : Prog X Bool) f := fun i hi d =>
      (clean_read _ _).mpr (hbuffer i (Nat.le_of_lt_succ hi))
    have htest : Clean P (and (Traced.testBuffer idx 13) (Traced.testBuffer (idx+1) 10)) f :=
      clean_and rfl (hread idx (by omega) 13) fun _ => hread (idx+1) (by omega) 10
    have hval : (and (Traced.testBuffer idx 13) (Traced.testBuffer (idx+1) 10)).val f = true ↔
        c = 13 ∧ ((text f.buffer).drop (idx+1)).head? = some 10 := by
      rw [val_and rfl, Bool.and_eq_true, ← hfirst, ← hsecond]
      exact and_congr beq_iff_eq beq_iff_eq
    rw [hdrop, readlineFrom] at hr
    by_cases hpair : c = 13 ∧ ((text f.buffer).drop (idx+1)).head? = some 10
    · rw [if_pos hpair] at hr
      subst hr
      refine (Acts.test_true (state_and rfl rfl) htest (hval.mpr hpair)).gives ⟨rfl,?_,?_⟩
      · rw [putAt_nil]
        rfl
      · exact iff_of_true (clean_pure _) fun k hk => absurd hk (Nat.not_lt_zero k)
    · rw [if_neg hpair] at hr
      generalize hr' : readlineFrom (idx+1) ((text f.buffer).drop (idx+1)) = r' at hr
      subst hr
      dsimp only at hfits ⊢
      rw [List.length_cons] at hfits
      have hfits' : j+1+r'.2.length ≤ (f.linebuf.set j c).length := by
        rw [List.length_set]
        omega
      have hn' : idx+1+n = (text ({ f with linebuf := f.linebuf.set j c } : Frame X).buffer).length := by
        dsimp only
        omega
      have hcopied := ih hn' hr' hfits' hbuffer
      have hset : Gives P (Traced.setLinebuf j c) f () { f with linebuf := f.linebuf.set j c }
          (P (.linebuf j)) := ⟨rfl,rfl,clean_write _ _⟩
      have hget : Gives P (Traced.getBuffer idx) f c f True := by
        refine ⟨hfirst,rfl,iff_true_intro ((clean_read _ _).mpr ?_)⟩
        exact hbuffer idx hlt.le
      have hj : j < f.linebuf.length := by omega
      have hput := putAt_set hj c r'.2
      have hall := hget.bind (f := fun c => do
        Traced.setLinebuf j c
        Traced.copyLine n (idx+1) (j+1)) (hset.bind hcopied)
      refine (Acts.test_false (state_and rfl rfl) htest (mt hval.mp hpair)).gives ?_
      simpa only [hput, true_and, Nat.forall_lt_succ_left, List.length_cons, Nat.add_zero,
        Nat.add_assoc, Nat.add_comm 1] using hall

open Logged in
/-- The text is read with the zero behind it. -/
theorem strlen_gives : Gives P (Traced.strlen : Prog X ℕ) f (text f.buffer).length f
    (∀ i ≤ (text f.buffer).length, P (.buffer i)) := by
  refine ⟨rfl,rfl,?_⟩
  change (∀ e ∈ (List.range ((text f.buffer).length+1)).map fun i => Access.buffer i, P e) ↔ _
  simp only [List.pure_def, List.bind_eq_flatMap, List.mem_map, List.mem_flatMap, List.mem_range,
    Nat.lt_succ_iff, List.mem_cons, List.not_mem_nil, or_false, ↓existsAndEq, and_true,
    forall_exists_index, and_imp, forall_apply_eq_imp_iff₂]

open Logged in
/-- What `readline` does to the memory. -/
theorem readline_gives (hidx : idx ≤ (text f.buffer).length)
    (hfits : (readline f.buffer idx).2.length ≤ f.linebuf.length) :
    Gives P (Traced.readline idx) f (readline f.buffer idx).1
      { f with linebuf := putAt f.linebuf 0 (readline f.buffer idx).2 }
      ((∀ i ≤ (text f.buffer).length, P (.buffer i)) ∧
        ∀ k < (readline f.buffer idx).2.length, P (.linebuf k)) := by
  have hcopy (Q : Access → Prop) (hQ : ∀ i ≤ (text f.buffer).length, Q (.buffer i)) :
      Gives Q (Traced.copyLine ((text f.buffer).length-idx) idx 0) f (readline f.buffer idx).1
        { f with linebuf := putAt f.linebuf 0 (readline f.buffer idx).2 }
        (∀ k < (readline f.buffer idx).2.length, Q (.linebuf k)) := by
    have hgives := copyLine_gives (P := Q) (f := f) (j := 0) (Nat.add_sub_cancel' hidx) rfl
      (by rw [Nat.zero_add]; exact hfits) hQ
    simpa only [Nat.zero_add, readline] using hgives
  by_cases hbuffer : ∀ i ≤ (text f.buffer).length, P (.buffer i)
  · exact strlen_gives.bind (hcopy P hbuffer)
  · have hany := hcopy (fun _ => True) fun _ _ => trivial
    have hall := (strlen_gives (P := P)).bind (f := fun len => Traced.copyLine (len-idx) idx 0)
      ⟨hany.val,hany.state,Iff.rfl⟩
    exact hall.congr ⟨fun h => absurd h.1 hbuffer,fun h => absurd h.1 hbuffer⟩

open Logged in
/-- A line of a text that is shorter than the buffer. -/
theorem fresh_gives (hidx : idx ≤ (text f.buffer).length) (hfits : (text f.buffer).length < 1024) :
    Gives Access.InBounds (Traced.freshLine idx) f (readline f.buffer idx).1
      (f.withLine (readline f.buffer idx).2) True := by
  have hline := (length_line_le f.buffer idx).trans (Nat.sub_le _ _)
  have hzero : Gives Access.InBounds Traced.zeroLinebuf f ()
      { f with linebuf := List.replicate 1024 0 ++ f.linebuf.drop 1024 } True :=
    ⟨rfl,rfl,iff_true_intro (clean_modify _)⟩
  have hroom : (readline f.buffer idx).2.length ≤
      (List.replicate 1024 (0 : UInt8) ++ f.linebuf.drop 1024).length := by
    rw [List.length_append, List.length_replicate]
    omega
  have hread := readline_gives (P := Access.InBounds)
    (f := { f with linebuf := List.replicate 1024 (0 : UInt8) ++ f.linebuf.drop 1024 }) hidx hroom
  refine (hzero.bind hread).congr (iff_true_intro ⟨trivial,fun i hi => ?_,fun k hk => ?_⟩)
  · exact ⟨Int.natCast_nonneg i,Int.ofNat_lt.mpr (hi.trans_lt hfits)⟩
  · exact (hk.trans_le hline).trans hfits

open Logged in
theorem strstr_gives {line : List UInt8} (hzero : 0 ∉ line) (hline : line.length < 1024)
    (needle : List UInt8) : Gives Access.InBounds (Traced.strstr needle) (f.withLine line)
      (strstr line needle) (f.withLine line) True := by
  refine ⟨?_,rfl,(clean_read _ _).trans (iff_true_intro (zero_mem_putAt_zeros hline _))⟩
  exact congrArg (strstr · needle) (text_putAt_zeros hzero hline _)

end Copy

/-- The lines that are found when `readline` is called from `idx` on, and again from every place that it
returns, with the places where they start. The line buffer is filled with zeros before each call. -/
def readLines (allbuf : List UInt8) (size : ℕ) : ℕ → ℕ → Option (List (ℕ × List UInt8))
  | 0,_ => none
  | fuel+1,idx =>
    let f : Frame Unit := ⟨0,allbuf,List.replicate size 0,()⟩
    let line := (idx,text ((Traced.readline idx).state f).linebuf)
    match (Traced.readline idx).val f with
    | none => some [line]
    | some next => (readLines allbuf size fuel next).map (line :: ·)

section Lines
variable {allbuf : List UInt8} {size idx : ℕ}

/-- One call of `readline` with a line buffer that is filled with zeros. -/
theorem readLines_succ (hsize : (text allbuf).length < size) (hidx : idx ≤ (text allbuf).length)
    (fuel : ℕ) : readLines allbuf size (fuel+1) idx = match (readline allbuf idx).1 with
      | none => some [(idx,(readline allbuf idx).2)]
      | some next => (readLines allbuf size fuel next).map ((idx,(readline allbuf idx).2) :: ·) := by
  have hle : (readline allbuf idx).2.length < size :=
    (length_line_le allbuf idx).trans_lt ((Nat.sub_le _ _).trans_lt hsize)
  have hgives := readline_gives (P := fun _ => True) (f := (⟨0,allbuf,List.replicate size 0,()⟩ : Frame Unit))
    hidx (by rw [List.length_replicate]; exact hle.le)
  have hline := text_putAt_zeros (zero_notMem_line allbuf idx) hle []
  rw [List.append_nil] at hline
  simp only [readLines, hgives.val, hgives.state, hline]

/-- From `idx` on the lines are the pieces between the line ends. -/
theorem readLines_returns (hsize : (text allbuf).length < size) (hidx : idx ≤ (text allbuf).length) :
    Returns (fun fuel => readLines allbuf size fuel idx)
      (placed idx (splitPair 13 10 ((text allbuf).drop idx))) := by
  induction hrest : (text allbuf).length-idx using Nat.strong_induction_on generalizing idx with
  | _ n ih =>
    obtain ⟨l,hsplit,hread⟩ | ⟨l,hsplit,hread⟩ := readline_cases allbuf idx
    · refine Returns.succ (fun fuel => ?_) (Returns.const _)
      rw [readLines_succ hsize hidx, hread, hsplit]
      rfl
    · have hnext := readline_le (congrArg Prod.fst hread)
      rw [hsplit]
      refine Returns.succ (fun fuel => ?_) ((ih _ (by omega) hnext.2 rfl).map ((idx,l) :: ·))
      rw [readLines_succ hsize hidx, hread]

/-- For a string without zeros the calls come to an end. No line has a CRLF in it, the lines joined with
CRLF are the string, and every byte that is not of a CRLF is in a line. -/
theorem readLines_split {s : List UInt8} (hs : 0 ∉ s) (rest : List UInt8) (hsize : s.length < size) :
    ∃ lines, Returns (fun fuel => readLines (s ++ 0 :: rest) size fuel 0) lines ∧
      (∀ p ∈ lines, ¬ [13,10] <:+: p.2) ∧ [13,10].intercalate (lines.map Prod.snd) = s ∧
      ∀ i b, s[i]? = some b → ¬ (b = 13 ∧ s[i+1]? = some 10) →
        ¬ (b = 10 ∧ 0 < i ∧ s[i-1]? = some 13) → ∃ p ∈ lines, p.1 ≤ i ∧ p.2[i-p.1]? = some b := by
  have htext : text (s ++ 0 :: rest) = s := (text_append_zero s rest).trans (text_of_notMem hs)
  have hsize' : (text (s ++ 0 :: rest)).length < size := by rwa [htext]
  have hreturns := readLines_returns hsize' (Nat.zero_le _)
  rw [htext, List.drop_zero] at hreturns
  refine ⟨_,hreturns,fun p hp => ?_,?_,fun i b hi hfirst hsecond => ?_⟩
  · have hmem : p.2 ∈ (placed 0 (splitPair 13 10 s)).map Prod.snd := List.mem_map_of_mem hp
    rw [placed_map_snd] at hmem
    exact not_pair_infix_of_mem _ hmem
  · rw [placed_map_snd]
    exact intercalate_splitPair 13 10 s
  · exact exists_placed 0 hi hfirst hsecond

/-- An empty line, a carriage return before a line end, and two that end no line. -/
theorem readLines_split_sample : ∃ lines,
    Returns (fun fuel => readLines (bytes "a\r\n\r\nb\r\r\n\nc\rd\r" ++ 0 :: []) 1024 fuel 0) lines ∧
      [13,10].intercalate (lines.map Prod.snd) = bytes "a\r\n\r\nb\r\r\n\nc\rd\r" := by
  have hfits : (bytes "a\r\n\r\nb\r\r\n\nc\rd\r").length < 1024 := by decide
  obtain ⟨lines,hreturns,-,hjoin,-⟩ := readLines_split (by decide) [] hfits
  exact ⟨lines,hreturns,hjoin⟩

end Lines
end ServerKit.Reactor
