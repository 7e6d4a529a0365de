import ServerKit.Reactor.AcceptKey

/-! Which bytes of `ev->buffer` and of `linebuf` are read and written by `ws_handshark`. -/
namespace ServerKit.Reactor.Websocket
open ServerKit.Lib

namespace Traced
open Logged ServerKit.Reactor.Traced

/-- A byte from `ev->buffer` on, or the one before it. -/
def byteAt (f : Frame Keys) : ℤ → UInt8
  | .ofNat i => f.buffer.getD i 0
  | .negSucc _ => f.before

/-- `ev->buffer[i] != c` -/
def differs (i : ℤ) (c : UInt8) : Prog Keys Bool := .read (fun f => byteAt f i != c) fun _ => .buffer i

/-- The place of the key is that of the line which the GUID is appended to. -/
def keyPlace : Prog Keys Unit := fun f => ((),f,[.key (text f.linebuf).length])

/-- The zero behind the string is overwritten, and another one comes behind `s`. -/
def strcat (s : List UInt8) : Prog Keys Unit := fun f =>
  ((),{ f with linebuf := putAt f.linebuf (text f.linebuf).length (s ++ [0]) },
    .string f.linebuf :: (List.range (s.length+1)).map fun i => .linebuf ((text f.linebuf).length+i))

section Openssl
variable (sha1 base64 : List UInt8 → List UInt8)

/-- The string from `linebuf+19` on is read with its zero. -/
def accept : Prog Keys Unit := fun f =>
  let digest := sha1 ((text f.linebuf).drop 19)
  let secData := digest ++ f.ext.secData.drop digest.length
  let secAccept := base64Encode base64 (text secData) f.ext.secAccept
  ((),{ f with ext := ⟨secData,secAccept,secAccept.take ACCEPT_KEY_LENGTH⟩ },
    (List.range ((text f.linebuf).length+1-19)).map fun i => .linebuf (19+i))

def handsharkLine : Prog Keys Unit := do
  if ← strstr (bytes "Sec-WebSocket-Key") then
    keyPlace
    strcat GUID
    accept sha1 base64
  else return ()

/-- The test of the loop, with `-1` if there is no next line. -/
def goesOn (idx : ℤ) : Prog Keys Bool :=
  and (or (differs idx 13) (differs (idx+1) 10)) (pure (idx != -1))

/-- One pass of the loop. -/
def pass (idx : ℕ) : Prog Keys (ℕ ⊕ Unit) := do
  let next ← freshLine idx
  handsharkLine sha1 base64
  if ← goesOn (next.elim (-1) fun i => i) then return .inl (next.getD 0) else return .inr ()

def wsHandshark (fuel : ℕ) (f : Frame Keys) : Option (Unit × Frame Keys × List Access) :=
  loop (pass sha1 base64) fuel 0 f

end Openssl
end Traced

/-- A line with a key in it has a place for the key, and the GUID can be appended. -/
def KeyFits (l : List UInt8) : Prop := keyName <:+: l → 19 < l.length ∧ l.length+GUID.length < 1024

/-- `ws_handshark` comes to an end, and all its accesses are in bounds. -/
def Safe (sha1 base64 : List UInt8 → List UInt8) (f : Frame Keys) : Prop :=
  ∃ f' es, Returns (fun fuel => Traced.wsHandshark sha1 base64 fuel f) ((),f',es) ∧
    ∀ e ∈ es, e.InBounds

/-- Behind one of the lines the header comes to an end. -/
def HeaderEnds : List (List UInt8) → Prop
  | [] => False
  | _ :: ls => endsHeader ls = true ∨ HeaderEnds ls

section Line
open Logged
variable (sha1 base64 : List UInt8 → List UInt8) {line : List UInt8}

/-- The frame with `line` and the GUID behind it in the line buffer. -/
def appended (f : Frame Keys) (line rest : List UInt8) : Frame Keys :=
  { f with linebuf := line ++ GUID ++ 0 :: rest }

theorem text_withLine (hzero : 0 ∉ line) (hline : line.length < 1024) (f : Frame Keys) :
    text (f.withLine line).linebuf = line :=
  text_putAt_zeros hzero hline _

theorem text_appended (hzero : 0 ∉ line) (f : Frame Keys) (rest : List UInt8) :
    text (appended f line rest).linebuf = line ++ GUID := by
  change text (line ++ GUID ++ 0 :: rest) = _
  rw [text_append_zero, text_append hzero, text_of_notMem (by decide)]

theorem keyPlace_gives (hzero : 0 ∉ line) (hline : line.length < 1024) (f : Frame Keys) :
    Gives Access.InBounds Traced.keyPlace (f.withLine line) () (f.withLine line) (19 < line.length) := by
  refine ⟨rfl,rfl,?_⟩
  change (∀ e ∈ [Access.key (text (f.withLine line).linebuf).length], e.InBounds) ↔ _
  rw [text_withLine hzero hline]
  exact List.forall_mem_singleton

/-- The GUID with its zero fits behind the line, or `strcat` leaves the line buffer. -/
theorem strcat_gives (hzero : 0 ∉ line) (hline : line.length < 1024) (f : Frame Keys) : ∃ rest,
    Gives Access.InBounds (Traced.strcat GUID) (f.withLine line) () (appended f line rest)
      (line.length+GUID.length < 1024) := by
  obtain ⟨rest,hrest⟩ := putAt_zeros hline (f.linebuf.drop 1024)
  have htext := text_withLine hzero hline f
  have hput : putAt (f.withLine line).linebuf line.length (GUID ++ [0]) =
      line ++ GUID ++ 0 :: (0 :: rest).drop 37 := by
    change putAt (putAt _ 0 line) _ _ = _
    rw [hrest, putAt, List.take_left, List.drop_append, List.drop_eq_nil_of_le (Nat.le_add_right _ _),
      Nat.add_sub_cancel_left, List.nil_append, List.append_assoc, List.append_assoc, List.append_assoc]
    rfl
  refine ⟨(0 :: rest).drop 37,rfl,?_,?_⟩
  · change ({ f with
      linebuf := putAt _ (text (f.withLine line).linebuf).length _ } : Frame Keys) = _
    rw [htext, hput]
    rfl
  · change (∀ e ∈ Access.string _ :: List.map _ _, e.InBounds) ↔ _
    rw [htext, List.forall_mem_cons, List.forall_mem_map]
    have hstring : (Access.string (f.withLine line).linebuf).InBounds := zero_mem_putAt_zeros hline _
    constructor
    · intro h
      exact h.2 _ (List.mem_range.mpr (Nat.lt_succ_self _))
    · intro h
      refine ⟨hstring,fun i hi => ?_⟩
      have hi' := Nat.le_of_lt_succ (List.mem_range.mp hi)
      exact (Nat.add_le_add_left hi' _).trans_lt h

/-- The key is read with the GUID and the zero behind it. -/
theorem accept_gives (hzero : 0 ∉ line) (hkey : strstr line (bytes "Sec-WebSocket-Key") = true)
    (f : Frame Keys) (rest : List UInt8) :
    Gives Access.InBounds (Traced.accept sha1 base64) (appended f line rest) ()
      { appended f line rest with ext := handsharkLine sha1 base64 line f.ext }
      (line.length+GUID.length < 1024) := by
  have htext := text_appended hzero f rest
  refine ⟨rfl,?_,?_⟩
  · rw [handsharkLine, if_pos hkey, ← htext]
    rfl
  · change (∀ e ∈ List.map (fun i => Access.linebuf (19+i)) _, e.InBounds) ↔ _
    rw [htext, List.forall_mem_map, List.length_append]
    have hguid : GUID.length = 36 := rfl
    rw [hguid]
    constructor
    · intro h
      have hlast := h (line.length+17) (List.mem_range.mpr (by omega))
      change 19+(line.length+17) < 1024 at hlast
      omega
    · intro h i hi
      have hi' := List.mem_range.mp hi
      change 19+i < 1024
      omega

/-- What is done with a line. -/
theorem handsharkLine_gives (hzero : 0 ∉ line) (hline : line.length < 1024) (f : Frame Keys) : ∃ linebuf,
    Gives Access.InBounds (Traced.handsharkLine sha1 base64) (f.withLine line) ()
      ⟨f.before,f.buffer,linebuf,handsharkLine sha1 base64 line f.ext⟩ (KeyFits line) := by
  have hstrstr := strstr_gives (f := f) hzero hline (bytes "Sec-WebSocket-Key")
  by_cases hkey : strstr line (bytes "Sec-WebSocket-Key") = true
  · rw [hkey] at hstrstr
    obtain ⟨rest,hcat⟩ := strcat_gives hzero hline f
    have hplace := keyPlace_gives hzero hline f
    have haccept := accept_gives sha1 base64 hzero hkey f rest
    have hdone := hplace.bind (f := fun _ => do Traced.strcat GUID; Traced.accept sha1 base64)
      (hcat.bind (f := fun _ => Traced.accept sha1 base64) haccept)
    refine ⟨_,(hstrstr.ite_true hdone).congr ?_⟩
    have hfound : keyName <:+: line := of_decide_eq_true hkey
    unfold KeyFits
    tauto
  · have hmissing : ¬ keyName <:+: line := fun h => hkey (decide_eq_true h)
    rw [Bool.eq_false_iff.mpr hkey] at hstrstr
    refine ⟨(f.withLine line).linebuf,?_⟩
    rw [handsharkLine, if_neg hkey]
    exact (hstrstr.ite_false (gives_pure ..)).congr (iff_of_true ⟨trivial,trivial⟩ fun h => absurd h hmissing)

end Line

section Test
open Logged
variable {f : Frame Keys} {j : ℕ}

theorem differs_gives (hj : j < 1024) (c : UInt8) :
    Gives Access.InBounds (Traced.differs j c) f (f.buffer.getD j 0 != c) f True :=
  (gives_read ..).congr (iff_true_intro ⟨Int.natCast_nonneg j,Int.ofNat_lt.mpr hj⟩)

/-- With a line end before `j` the test is about the next line. The second byte is read only if the first
one is not behind the text. -/
theorem goesOn_gives (hfits : (text f.buffer).length < 1024) (hj : j ≤ (text f.buffer).length) :
    Gives Access.InBounds (Traced.goesOn j) f (!endsHeader (splitPair 13 10 ((text f.buffer).drop j))) f
      True := by
  have hline := (line_end_iff hj).trans endsHeader_splitPair.symm
  have hfirst := differs_gives (f := f) (hj.trans_lt hfits) 13
  have hor : Gives Access.InBounds (or (Traced.differs j 13) (Traced.differs (j+1) 10)) f
      (!endsHeader (splitPair 13 10 ((text f.buffer).drop j))) f True := by
    by_cases hcr : f.buffer.getD j 0 = 13
    · have hlt : j < (text f.buffer).length := by
        refine lt_of_le_of_ne hj fun heq => ?_
        rw [heq, getD_length_text] at hcr
        cases hcr
      have hsecond := differs_gives (f := f) (show j+1 < 1024 by omega) 10
      have htest : (f.buffer.getD (j+1) 0 != 10) =
          !endsHeader (splitPair 13 10 ((text f.buffer).drop j)) := by
        rw [Bool.eq_iff_iff, bne_iff_ne, Bool.not_eq_true', ← Bool.not_eq_true, ← hline]
        exact not_congr (and_iff_right hcr).symm
      rw [hcr, bne_self_eq_false] at hfirst
      rw [← htest]
      exact (hfirst.ite_false hsecond).congr and_self_iff
    · have hgoes : endsHeader (splitPair 13 10 ((text f.buffer).drop j)) = false :=
        Bool.eq_false_iff.mpr fun h => hcr (hline.mpr h).1
      rw [bne_iff_ne.mpr hcr] at hfirst
      rw [hgoes]
      exact (hfirst.ite_true (gives_pure ..)).congr and_self_iff
  generalize (!endsHeader (splitPair 13 10 ((text f.buffer).drop j))) = goes at hor ⊢
  cases goes with
  | false => exact (hor.ite_false (gives_pure ..)).congr and_self_iff
  | true =>
    have hnext : ((j : ℤ) != -1) = true := bne_iff_ne.mpr (by omega)
    refine (hor.ite_true ?_).congr and_self_iff
    exact hnext ▸ gives_pure ..

/-- Behind a line without a line end the test is about the byte before the buffer. -/
theorem goesOn_minus : Gives Access.InBounds (Traced.goesOn (-1)) f false f False := by
  have hstate (i : ℤ) (c : UInt8) : (Traced.differs i c).state f = f := rfl
  refine ⟨?_,state_and (state_or (hstate ..) (hstate ..)) rfl,iff_false_intro fun h => ?_⟩
  · rw [Traced.goesOn, val_and (state_or (hstate ..) (hstate ..))]
    exact Bool.and_false _
  · have hor := ((clean_bind _ _).mp h).1
    have hread := ((clean_bind _ _).mp hor).1
    exact absurd ((clean_read _ _).mp hread).1 (by decide)

end Test

section Run
open Logged
variable (sha1 base64 : List UInt8 → List UInt8) {f : Frame Keys} {line : List UInt8} {idx j : ℕ}

/-- One pass, when the test is known. -/
theorem pass_gives (hfits : (text f.buffer).length < 1024) (hidx : idx ≤ (text f.buffer).length)
    {next : Option ℕ} (hread : readline f.buffer idx = (next,line)) {goes : Bool} {good : Prop}
    (htest : ∀ f' : Frame Keys, f'.buffer = f.buffer →
      Gives Access.InBounds (Traced.goesOn (next.elim (-1) fun i => i)) f' goes f' good) : ∃ linebuf,
    Gives Access.InBounds (Traced.pass sha1 base64 idx) f
      (if goes then .inl (next.getD 0) else .inr ())
      ⟨f.before,f.buffer,linebuf,handsharkLine sha1 base64 line f.ext⟩ (KeyFits line ∧ good) := by
  have hzero := zero_notMem_line f.buffer idx
  have hline := (length_line_le f.buffer idx).trans_lt ((Nat.sub_le _ _).trans_lt hfits)
  have hfresh := fresh_gives hidx hfits
  rw [hread] at hzero hline hfresh
  obtain ⟨linebuf,hdone⟩ := handsharkLine_gives sha1 base64 hzero hline f
  have hgoes := htest ⟨f.before,f.buffer,linebuf,handsharkLine sha1 base64 line f.ext⟩ rfl
  have hend : Gives Access.InBounds (do
      if ← Traced.goesOn (next.elim (-1) fun i => i) then return .inl (next.getD 0) else return .inr ())
      ⟨f.before,f.buffer,linebuf,handsharkLine sha1 base64 line f.ext⟩
      (if goes then .inl (next.getD 0) else .inr () : ℕ ⊕ Unit)
      ⟨f.before,f.buffer,linebuf,handsharkLine sha1 base64 line f.ext⟩ good := by
    cases goes with
    | false => exact (hgoes.ite_false (gives_pure ..)).congr (and_iff_left trivial)
    | true => exact (hgoes.ite_true (gives_pure ..)).congr (and_iff_left trivial)
  refine ⟨linebuf,(hfresh.bind ?_).congr (and_iff_right trivial)⟩
  exact hdone.bind hend

/-- The loop over the lines, which the test ends behind a line without a line end. -/
theorem wsHandshark_ends (hfits : (text f.buffer).length < 1024) (hidx : idx ≤ (text f.buffer).length) :
    ∃ linebuf, Ends (Traced.pass sha1 base64) Access.InBounds idx f ()
      ⟨f.before,f.buffer,linebuf,(headerLines (splitPair 13 10 ((text f.buffer).drop idx))).foldl
        (fun k l => handsharkLine sha1 base64 l k) f.ext⟩
      (HeaderEnds (splitPair 13 10 ((text f.buffer).drop idx)) ∧
        ∀ l ∈ headerLines (splitPair 13 10 ((text f.buffer).drop idx)), KeyFits l) := by
  induction hrest : (text f.buffer).length-idx using Nat.strong_induction_on generalizing idx f with
  | _ n ih =>
    obtain ⟨l,hsplit,hread⟩ | ⟨l,hsplit,hread⟩ := readline_cases f.buffer idx
    · obtain ⟨linebuf,hpass⟩ := pass_gives sha1 base64 hfits hidx hread
        fun f' _ => goesOn_minus
      rw [hsplit]
      refine ⟨linebuf,hpass.done.congr (iff_of_false (fun h => h.2) fun h => ?_)⟩
      exact h.1.elim Bool.false_ne_true id
    · have hnext := readline_le (congrArg Prod.fst hread)
      have hgoes : ∀ f' : Frame Keys, f'.buffer = f.buffer → Gives Access.InBounds
          (Traced.goesOn ((some (idx+l.length+2)).elim (-1) fun i => i)) f'
          (!endsHeader (splitPair 13 10 ((text f.buffer).drop (idx+l.length+2)))) f' True := by
        intro f' hf'
        rw [← hf'] at hfits hnext ⊢
        exact goesOn_gives hfits hnext.2
      obtain ⟨linebuf,hpass⟩ := pass_gives sha1 base64 hfits hidx hread hgoes
      rw [hsplit]
      by_cases hend : endsHeader (splitPair 13 10 ((text f.buffer).drop (idx+l.length+2))) = true
      · rw [hend] at hpass
        rw [headerLines, if_pos hend, List.foldl_cons, List.foldl_nil, List.forall_mem_singleton]
        refine ⟨linebuf,hpass.done.congr ?_⟩
        exact ⟨fun h => ⟨.inl hend,h.1⟩,fun h => ⟨h.2,trivial⟩⟩
      · rw [Bool.eq_false_iff.mpr hend] at hpass
        rw [headerLines, if_neg hend, List.foldl_cons, List.forall_mem_cons]
        have hlt : (text f.buffer).length-(idx+l.length+2) < n := by omega
        obtain ⟨linebuf',hlater⟩ := ih _ hlt
          (f := ⟨f.before,f.buffer,linebuf,handsharkLine sha1 base64 l f.ext⟩) hfits hnext.2 rfl
        refine ⟨linebuf',(hpass.next hlater).congr ?_⟩
        exact ⟨fun h => ⟨.inr h.2.1,h.1.1,h.2.2⟩,
          fun h => ⟨⟨h.2.1,trivial⟩,h.1.resolve_left hend,h.2.2⟩⟩

/-- The header comes to an end if and only if an empty line is found, with the end of another one before
it. -/
theorem headerEnds_iff (s : List UInt8) : HeaderEnds (splitPair 13 10 s) ↔ [13,10,13,10] <:+: s := by
  fun_induction splitPair 13 10 s with
  | case1 =>
    exact iff_of_false (fun h => h.elim Bool.false_ne_true id) fun h => absurd h.length_le (by decide)
  | case2 x =>
    refine iff_of_false (fun h => h.elim Bool.false_ne_true id) fun h => ?_
    exact absurd h.length_le (by rw [List.length_singleton]; decide)
  | case3 x y s hpair ih =>
    obtain ⟨rfl,rfl⟩ := hpair
    have hlater : ¬ [13,10,13,10] <+: (10 : UInt8) :: s := fun h =>
      absurd (List.cons_prefix_cons.mp h).1 (by decide)
    rw [HeaderEnds, endsHeader_splitPair, ih, List.infix_cons_iff, List.infix_cons_iff, or_iff_right hlater,
      List.cons_prefix_cons, List.cons_prefix_cons]
    simp only [true_and]
  | case4 x y s hne ih =>
    have hfirst : ¬ [13,10,13,10] <+: x :: y :: s := by
      intro h
      obtain ⟨hx,h⟩ := List.cons_prefix_cons.mp h
      exact hne ⟨hx.symm,(List.cons_prefix_cons.mp h).1.symm⟩
    rw [List.infix_cons_iff, or_iff_right hfirst, ← ih]
    cases splitPair 13 10 (y :: s) with
    | nil => rfl
    | cons l ls => rfl

variable {sha1 base64} in
/-- A run whose accesses are all in bounds has found the end of the text inside the buffer. -/
theorem Safe.lt (h : Safe sha1 base64 f) : (text f.buffer).length < 1024 := by
  obtain ⟨f',es,⟨N,hN⟩,hes⟩ := h
  have hpass := clean_of_loop (hN N le_rfl) hes
  have hreadline := ((clean_bind _ _).mp ((clean_bind _ _).mp hpass).1).2
  have hstrlen := strlen_gives.clean.mp ((clean_bind _ _).mp hreadline).1
  exact Int.ofNat_lt.mp (hstrlen _ le_rfl).2

/-- With a text inside the buffer the handshake ends, with the key that is found without the log. -/
theorem wsHandshark_returns (hfits : (text f.buffer).length < 1024) {secAccept : List UInt8}
    (hext : f.ext = ⟨List.replicate 128 0,List.replicate 128 0,secAccept⟩) :
    ∃ f' es, Returns (fun fuel => Traced.wsHandshark sha1 base64 fuel f) ((),f',es) ∧
      f'.ext.evAccept = wsAccept sha1 base64 f.buffer secAccept := by
  obtain ⟨linebuf,es,hreturns,-⟩ := wsHandshark_ends sha1 base64 hfits (Nat.zero_le _)
  refine ⟨_,es,hreturns,?_⟩
  rw [secAccept_eq rfl, hext]
  rfl

theorem safe_iff_of_lt (hfits : (text f.buffer).length < 1024) :
    Safe sha1 base64 f ↔ [13,10,13,10] <:+: text f.buffer ∧
      ∀ l ∈ headerLines (splitPair 13 10 (text f.buffer)), KeyFits l := by
  obtain ⟨linebuf,es,hreturns,hgood⟩ := wsHandshark_ends sha1 base64 hfits (Nat.zero_le _)
  rw [List.drop_zero, headerEnds_iff] at hgood
  rw [← hgood]
  constructor
  · rintro ⟨f',es',hreturns',hes'⟩
    obtain rfl : es' = es := congrArg (·.2.2) (hreturns'.unique hreturns)
    exact hes'
  · exact fun hes => ⟨_,es,hreturns,hes⟩

/-- The handshake with a request of which `m` has been received ends with all accesses to `ev->buffer` and
to `linebuf` in bounds, and with the keys inside their lines, if and only if the text of `m` is shorter than
the buffer, the end of the header is in it, and no line of the header with a key in it is too short or too
long. Otherwise the byte before the buffer is read, or one behind an array is read or written. -/
theorem wsHandshark_safe_iff (before : UInt8) (m old linebuf : List UInt8) (ext : Keys) :
    Safe sha1 base64 ⟨before,(m ++ old).set m.length 0,linebuf,ext⟩ ↔
      (text m).length < 1024 ∧ [13,10,13,10] <:+: text m ∧
        ∀ l ∈ headerLines (splitPair 13 10 (text m)), KeyFits l := by
  have htext : text ((m ++ old).set m.length 0) = text m := text_terminated m old
  have hiff (hfits : (text m).length < 1024) := safe_iff_of_lt sha1 base64
    (f := ⟨before,(m ++ old).set m.length 0,linebuf,ext⟩) (htext.symm ▸ hfits)
  rw [htext] at hiff
  constructor
  · intro h
    have hfits : (text m).length < 1024 := htext ▸ h.lt
    exact ⟨hfits,(hiff hfits).mp h⟩
  · rintro ⟨hfits,h⟩
    exact (hiff hfits).mpr h

/-- The frame when `ws_handshark` is called with a request in the buffer. -/
def requested (m : List UInt8) : Frame Keys :=
  ⟨0,(m ++ List.replicate 1024 0).set m.length 0,List.replicate 1024 0,
    ⟨List.replicate 128 0,List.replicate 128 0,List.replicate ACCEPT_KEY_LENGTH 0⟩⟩

/-- A request that ends with its first line makes the test read the byte before the buffer. A key line of
988 bytes has no place for the GUID and its zero, and one of 18 bytes none for the key. -/
theorem wsHandshark_unsafe :
    let safe := fun m => Safe goodSha1 sampleFilter (requested m)
    ¬ safe (bytes "GET / HTTP/1.1\r\n") ∧
      ¬ safe (bytes "Sec-WebSocket-Key:" ++ List.replicate 970 65 ++ [13,10,13,10]) ∧
      ¬ safe (bytes "Sec-WebSocket-Key:\r\n\r\n") := by
  have hend {m : List UInt8} (h : Safe goodSha1 sampleFilter (requested m)) :=
    (safe_iff_of_lt _ _ h.lt).mp h
  have htext (m : List UInt8) : text (requested m).buffer = text m := text_terminated m _
  refine ⟨fun h => ?_,fun h => ?_,fun h => ?_⟩
  · have hblank := (hend h).1
    rw [htext] at hblank
    exact absurd hblank (by decide)
  · have hmem {c : UInt8} (hc : c ∉ bytes "Sec-WebSocket-Key:" ++ [65]) :
        c ∉ bytes "Sec-WebSocket-Key:" ++ List.replicate 970 65 := by
      intro hmem
      obtain hmem | hmem := List.mem_append.mp hmem
      · exact hc (List.mem_append_left _ hmem)
      · exact hc (List.mem_append_right _ (List.mem_singleton.mpr (List.eq_of_mem_replicate hmem)))
    have hcrlf : ¬ [13,10] <:+: bytes "Sec-WebSocket-Key:" ++ List.replicate 970 65 := fun hpair =>
      hmem (by decide) (hpair.subset (.head _))
    have hfits := (hend h).2 (bytes "Sec-WebSocket-Key:" ++ List.replicate 970 65) (by
      rw [htext, text_append (hmem (by decide)), text_crlf, splitPair_append (by decide) hcrlf]
      exact .head _)
    have hlength := (hfits ⟨[],58 :: List.replicate 970 65,rfl⟩).2
    rw [List.length_append, List.length_replicate] at hlength
    exact absurd hlength (by decide)
  · have hline := (hend h).2 (bytes "Sec-WebSocket-Key:") (by rw [htext]; decide)
    exact absurd (hline ⟨[],[58],rfl⟩).1 (by decide)

end Run
end ServerKit.Reactor.Websocket
