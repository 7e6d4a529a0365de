import ServerKit.Reactor.Gets
import ServerKit.Reactor.Readline

/-! Which bytes of `ev->buffer` and of `linebuffer` are read and written when a request is received by the
HTTP server, and what the server relies on for the search behind the method. -/
namespace ServerKit.Reactor.Http
open ServerKit.Lib

namespace Traced
open Logged ServerKit.Reactor.Traced

/-- `ev->buffer[len] = '\0'`, after `len` bytes have been received. -/
def terminate (len : ℕ) : Prog Fields Unit :=
  .write (fun f => { f with buffer := f.buffer.set len 0 }) fun _ => .buffer len

def setMethod (method : ℕ) : Prog Fields Unit :=
  .modify fun f => { f with ext := { f.ext with method := method } }

def setResource (s : List UInt8) : Prog Fields Unit :=
  .modify fun f => { f with ext := { f.ext with resource := putText f.ext.resource s } }

/-- The method that is found in the line, and where the search for a blank starts. -/
def findMethod : Prog Fields (Option ℕ) := do
  if ← strstr (bytes "GET") then
    setMethod HTTP_METHOD_GET
    return some 5
  else if ← strstr (bytes "POST") then
    setMethod HTTP_METHOD_POST
    return none
  else return none

/-- The part of `nty_http_request` before the search. -/
def ntyHttpRequest : Prog Fields (Option ℕ) := do
  let _ ← freshLine 0
  findMethod

def getLinebuf {X : Type} (i : ℕ) : Prog X UInt8 := .read (·.linebuf.getD i 0) fun _ => .linebuf i

/-- The search goes on, or the blank is overwritten. -/
def blankTest (i : ℕ) (c : UInt8) : Prog Fields (Option ℕ ⊕ Unit) :=
  if c ≠ 32 then return .inl (some (i+1))
  else do
    setLinebuf i 0
    setResource HTTP_WEB_ROOT
    return .inr ()

/-- One pass of the search, and what comes after the last one. -/
def findBlank : Option ℕ → Prog Fields (Option ℕ ⊕ Unit)
  | none => return .inr ()
  | some i => do
    let c ← getLinebuf i
    blankTest i c

/-- What `recv_cb` does with the arrays when it has received `len` bytes. -/
def recvCb (len : ℕ) (fuel : ℕ) (f : Frame Fields) : Option (Unit × Frame Fields × List Access) :=
  loopFrom (do terminate len; ntyHttpRequest) findBlank fuel f

end Traced

/-- `recv_cb` comes to an end, and all its accesses are in bounds. -/
def Safe (len : ℕ) (f : Frame Fields) : Prop :=
  ∃ f' es, Returns (fun fuel => Traced.recvCb len fuel f) ((),f',es) ∧ ∀ e ∈ es, e.InBounds

section Search
variable {P : Access → Prop} {f f' : Frame Fields} {i j : ℕ} {es : List Access}

/-- The frame after the search has stopped at `j`. -/
def stopped (f : Frame Fields) (j : ℕ) : Frame Fields :=
  { f with
    linebuf := f.linebuf.set j 0
    ext := { f.ext with resource := putText f.ext.resource HTTP_WEB_ROOT } }

theorem findBlank_next (h : f.linebuf.getD i 0 ≠ 32) :
    Logged.Gives P (Traced.findBlank (some i)) f (.inl (some (i+1))) f (P (.linebuf i)) := by
  have hread : Logged.Gives P (Traced.getLinebuf i : Prog Fields UInt8) f (f.linebuf.getD i 0) f
      (P (.linebuf i)) := Logged.gives_read ..
  have hgo : Logged.Gives P (Traced.blankTest i (f.linebuf.getD i 0)) f (.inl (some (i+1))) f True := by
    rw [Traced.blankTest, if_pos h]
    exact Logged.gives_pure ..
  exact (hread.bind hgo).congr (and_iff_left trivial)

theorem findBlank_stop (h : f.linebuf.getD i 0 = 32) :
    Logged.Gives P (Traced.findBlank (some i)) f (.inr ()) (stopped f i) (P (.linebuf i)) := by
  have hread : Logged.Gives P (Traced.getLinebuf i : Prog Fields UInt8) f (f.linebuf.getD i 0) f
      (P (.linebuf i)) := Logged.gives_read ..
  have hend : Logged.Gives P (Traced.blankTest i (f.linebuf.getD i 0)) f (.inr ()) (stopped f i)
      (P (.linebuf i)) := by
    rw [Traced.blankTest, if_neg (not_not.mpr h)]
    refine ⟨rfl,rfl,?_⟩
    rw [Logged.clean_bind]
    exact (and_iff_left (Logged.clean_pure _)).trans (Logged.clean_write _ _)
  exact (hread.bind hend).congr and_self_iff

/-- A search that comes to an end has read a blank. -/
theorem findBlank_found {fuel : ℕ} (h : Logged.loop Traced.findBlank fuel (some i) f = some ((),f',es)) :
    ∃ j, i ≤ j ∧ f.linebuf.getD j 0 = 32 ∧ Access.linebuf j ∈ es := by
  induction fuel generalizing i es with
  | zero => cases h
  | succ fuel ih =>
    by_cases hblank : f.linebuf.getD i 0 = 32
    · rw [(findBlank_stop (P := fun _ => True) hblank).loop_done] at h
      obtain rfl : (Traced.findBlank (some i)).log f = es := congrArg (·.2.2) (Option.some.inj h)
      exact ⟨i,le_rfl,hblank,List.mem_append_left _ (.head _)⟩
    · rw [(findBlank_next (P := fun _ => True) hblank).loop_next] at h
      obtain ⟨⟨_,g,es'⟩,hrest,heq⟩ := Option.map_eq_some_iff.mp h
      obtain rfl : g = f' := congrArg (·.2.1) heq
      obtain rfl : (Traced.findBlank (some i)).log f ++ es' = es := congrArg (·.2.2) heq
      obtain ⟨j,hj,hfound,hmem⟩ := ih hrest
      exact ⟨j,by omega,hfound,List.mem_append_right _ hmem⟩

/-- A blank that is not the first one is not needed. -/
theorem findBlank_ends (hij : i ≤ j) (hblank : f.linebuf.getD j 0 = 32)
    (hbefore : ∀ k, i ≤ k → k < j → f.linebuf.getD k 0 ≠ 32) (hP : ∀ k, i ≤ k → k ≤ j → P (.linebuf k)) :
    Logged.Ends Traced.findBlank P (some i) f () (stopped f j) True := by
  induction hn : j-i generalizing i with
  | zero =>
    obtain rfl : i = j := by omega
    exact (findBlank_stop hblank).done.congr (iff_true_intro (hP i le_rfl le_rfl))
  | succ n ih =>
    have hnext := findBlank_next (P := P) (hbefore i le_rfl (by omega))
    have hrest := ih (show i+1 ≤ j by omega) (fun k hk => hbefore k (by omega))
      (fun k hk => hP k (by omega)) (by omega)
    exact (hnext.next hrest).congr (iff_true_intro ⟨hP i le_rfl hij,trivial⟩)

end Search

section Request
open Logged
variable {f : Frame Fields} {len : ℕ}

/-- The memory when the search starts. -/
def parsed (f : Frame Fields) : Frame Fields :=
  { f.withLine (firstLine f.buffer) with
    ext := { f.ext with method := methodAfter f.buffer f.ext.method } }

theorem findMethod_gives (hfits : (text f.buffer).length < 1024) :
    Gives Access.InBounds Traced.findMethod (f.withLine (firstLine f.buffer))
      (if IsGet f.buffer then some 5 else none) (parsed f) True := by
  have hline : (firstLine f.buffer).length < 1024 := by
    have hle := length_line_le f.buffer 0
    unfold firstLine
    omega
  have hfound (needle : List UInt8) {b : Bool} (hb : strstr (firstLine f.buffer) needle = b) :
      Gives Access.InBounds (Traced.strstr needle) (f.withLine (firstLine f.buffer)) b
        (f.withLine (firstLine f.buffer)) True :=
    hb ▸ strstr_gives (zero_notMem_line f.buffer 0) hline needle
  have hset (method : ℕ) (b : Option ℕ) :
      Gives Access.InBounds (do Traced.setMethod method; return b) (f.withLine (firstLine f.buffer)) b
        { f.withLine (firstLine f.buffer) with ext := { f.ext with method := method } } True :=
    ⟨rfl,rfl,iff_true_intro ((clean_bind _ _).mpr ⟨clean_modify _,clean_pure _⟩)⟩
  unfold parsed methodAfter
  by_cases hget : IsGet f.buffer
  · rw [if_pos hget, if_pos hget]
    exact ((hfound _ hget).ite_true (hset ..)).congr and_self_iff
  · have hnot := Bool.eq_false_iff.mpr hget
    rw [if_neg hget, if_neg hget]
    refine ((hfound _ hnot).ite_false ?_).congr and_self_iff
    by_cases hpost : IsPost f.buffer
    · rw [if_pos hpost]
      exact ((hfound _ hpost).ite_true (hset ..)).congr and_self_iff
    · rw [if_neg hpost]
      refine ((hfound _ (Bool.eq_false_iff.mpr hpost)).ite_false ?_).congr and_self_iff
      exact gives_pure ..

/-- With a request that is shorter than the buffer all is in bounds up to the search. -/
theorem ntyHttpRequest_gives (hfits : (text f.buffer).length < 1024) :
    Gives Access.InBounds Traced.ntyHttpRequest f (if IsGet f.buffer then some 5 else none) (parsed f)
      True :=
  ((fresh_gives (Nat.zero_le _) hfits).bind (findMethod_gives hfits)).congr (and_self_iff)

end Request

section Receive
open Logged
variable {m old linebuf : List UInt8} {before : UInt8} {ext : Fields}

/-- The memory when `m` has been received. -/
def received (before : UInt8) (m old linebuf : List UInt8) (ext : Fields) : Frame Fields :=
  ⟨before,(m ++ old).set m.length 0,linebuf,ext⟩

theorem text_received (before : UInt8) (m old linebuf : List UInt8) (ext : Fields) :
    text (received before m old linebuf ext).buffer = text m :=
  text_terminated m old

/-- There is a first place at which the search can stop. -/
theorem exists_blank {line : List UInt8} (h : 32 ∈ line.drop 5) : ∃ j, 5 ≤ j ∧ j < line.length ∧
    line.getD j 0 = 32 ∧ ∀ k, 5 ≤ k → k < j → line.getD k 0 ≠ 32 := by
  have hex : ∃ j, 5 ≤ j ∧ line.getD j 0 = 32 := by
    obtain ⟨i,hi⟩ := List.getElem?_of_mem h
    rw [List.getElem?_drop] at hi
    exact ⟨5+i,Nat.le_add_right 5 i,by rw [List.getD_eq_getElem?_getD, hi]; rfl⟩
  obtain ⟨hfive,hfound⟩ := Nat.find_spec hex
  refine ⟨Nat.find hex,hfive,?_,hfound,fun k hk hlt hblank => Nat.find_min hex hlt ⟨hk,hblank⟩⟩
  by_contra hge
  rw [List.getD_eq_getElem?_getD, List.getElem?_eq_none (Nat.le_of_not_lt hge)] at hfound
  cases hfound

theorem ntyHttpRequest_other {ev : NtyEvent Fields} (h : ¬ IsGet ev.buffer) : (ntyHttpRequest ev).ext =
    { ev.ext with method := methodAfter ev.buffer ev.ext.method } := by
  unfold ntyHttpRequest methodAfter
  dsimp only
  rw [if_neg (show ¬ strstr (firstLine ev.buffer) (bytes "GET") = true from h), if_neg h]
  by_cases hpost : IsPost ev.buffer
  · rw [if_pos (show strstr (firstLine ev.buffer) (bytes "POST") = true from hpost), if_pos hpost]
  · rw [if_neg (show ¬ strstr (firstLine ev.buffer) (bytes "POST") = true from hpost), if_neg hpost]

theorem length_firstLine_lt (hlt : m.length < BUFFER_LENGTH) : (firstLine m).length < 1024 := by
  have hle := length_line_le m 0
  have htext : (text m).length ≤ m.length := (List.takeWhile_prefix _).length_le
  unfold BUFFER_LENGTH at hlt
  unfold firstLine
  omega

/-- The accesses before the search. -/
theorem prepare_gives (before : UInt8) (old linebuf : List UInt8) (ext : Fields)
    (hlt : m.length < BUFFER_LENGTH) :
    Gives Access.InBounds (do Traced.terminate m.length; Traced.ntyHttpRequest)
      ⟨before,m ++ old,linebuf,ext⟩ (if IsGet m then some 5 else none)
      (parsed (received before m old linebuf ext)) True := by
  have htext := text_received before m old linebuf ext
  have hterminate : Gives Access.InBounds (Traced.terminate m.length) ⟨before,m ++ old,linebuf,ext⟩ ()
      (received before m old linebuf ext) True := by
    refine ⟨rfl,rfl,(clean_write _ _).trans (iff_true_intro ?_)⟩
    exact ⟨Int.natCast_nonneg _,Int.ofNat_lt.mpr hlt⟩
  have hfits : (text (received before m old linebuf ext).buffer).length < 1024 := by
    rw [htext]
    exact (List.takeWhile_prefix _).length_le.trans_lt hlt
  have hrequest := ntyHttpRequest_gives hfits
  rw [if_congr (isGet_congr htext) rfl rfl] at hrequest
  exact (hterminate.bind hrequest).congr and_self_iff

/-- In the line buffer is the line, and there are zeros behind it. -/
theorem parsed_getD (before : UInt8) (old linebuf : List UInt8) (ext : Fields)
    (hlt : m.length < BUFFER_LENGTH) {j : ℕ} (hj : j < 1024) :
    (parsed (received before m old linebuf ext)).linebuf.getD j 0 = (firstLine m).getD j 0 := by
  have hline : firstLine (received before m old linebuf ext).buffer = firstLine m :=
    firstLine_congr (text_received before m old linebuf ext)
  unfold parsed Frame.withLine
  rw [hline]
  exact getD_putAt_zeros (length_firstLine_lt hlt).le _ hj

/-- The request is handled as without the log, and all accesses are in bounds. -/
theorem recvCb_returns (hlt : m.length < BUFFER_LENGTH) (hblank : IsGet m → 32 ∈ (firstLine m).drop 5) :
    ∃ f' es, Returns (fun fuel => Traced.recvCb m.length fuel ⟨before,m ++ old,linebuf,ext⟩) ((),f',es) ∧
      (∀ e ∈ es, e.InBounds) ∧
      ∀ ev : NtyEvent Fields, text ev.buffer = text m → ev.ext = ext → f'.ext = (ntyHttpRequest ev).ext := by
  have hprepare := prepare_gives before old linebuf ext hlt
  have htext := text_received before m old linebuf ext
  by_cases hget : IsGet m
  · obtain ⟨j,hfive,hj,hfound,hbefore⟩ := exists_blank (hblank hget)
    have hj' : j < 1024 := hj.trans (length_firstLine_lt hlt)
    have hgetD {k : ℕ} (hk : k < 1024) := parsed_getD before old linebuf ext hlt hk
    have hends := findBlank_ends (P := Access.InBounds) hfive ((hgetD hj').trans hfound)
      (fun k hk hkj => by rw [hgetD (hkj.trans hj')]; exact hbefore k hk hkj)
      (fun k _ hkj => hkj.trans_lt hj')
    rw [if_pos hget] at hprepare
    obtain ⟨es,hreturns,hgood⟩ := hprepare.ends hends
    refine ⟨_,es,hreturns,hgood.mpr ⟨trivial,trivial⟩,fun ev hev hext => ?_⟩
    have hmethod : methodAfter (received before m old linebuf ext).buffer ext.method = HTTP_METHOD_GET :=
      if_pos ((isGet_congr htext).mpr hget)
    rw [ntyHttpRequest_get ((isGet_congr hev).mpr hget), hext]
    exact congrArg (Fields.mk · _) hmethod
  · rw [if_neg hget] at hprepare
    have hends : Ends Traced.findBlank Access.InBounds none (parsed (received before m old linebuf ext))
        () (parsed (received before m old linebuf ext)) True :=
      Gives.done (gives_pure ..)
    obtain ⟨es,hreturns,hgood⟩ := hprepare.ends hends
    refine ⟨_,es,hreturns,hgood.mpr ⟨trivial,trivial⟩,fun ev hev hext => ?_⟩
    rw [ntyHttpRequest_other fun h => hget ((isGet_congr hev).mp h), hext,
      methodAfter_congr (hev.trans htext.symm)]
    rfl

/-- What a run needs whose accesses are all in bounds: the zero behind the message is inside the buffer. -/
theorem Safe.lt (h : Safe m.length ⟨before,m ++ old,linebuf,ext⟩) : m.length < BUFFER_LENGTH := by
  obtain ⟨f',es,⟨N,hN⟩,hes⟩ := h
  have hclean := (clean_bind _ _).mp (clean_of_loopFrom (hN N le_rfl) hes)
  exact Int.ofNat_lt.mp ((clean_write _ _).mp hclean.1).2

/-- The search of such a run has found a blank in the line. -/
theorem Safe.blank (h : Safe m.length ⟨before,m ++ old,linebuf,ext⟩) (hget : IsGet m) :
    32 ∈ (firstLine m).drop 5 := by
  have hlt := h.lt
  obtain ⟨f',es,⟨N,hN⟩,hes⟩ := h
  have hprepare := prepare_gives before old linebuf ext hlt
  rw [if_pos hget] at hprepare
  obtain ⟨es',hloop,hsub⟩ := hprepare.of_loopFrom (hN N le_rfl)
  obtain ⟨j,hfive,hfound,hmem⟩ := findBlank_found hloop
  have hj : j < 1024 := hes _ (hsub _ hmem)
  rw [parsed_getD before old linebuf ext hlt hj, List.getD_eq_getElem?_getD] at hfound
  have hline : (firstLine m)[j]? = some 32 := by
    cases hget? : (firstLine m)[j]? with
    | none => rw [hget?] at hfound; cases hfound
    | some c => rw [hget?] at hfound; exact congrArg some hfound
  refine List.mem_of_getElem? (i := j-5) ?_
  rwa [List.getElem?_drop, Nat.add_sub_cancel' hfive]

/-- All accesses to `ev->buffer` and to `linebuffer` are in bounds, and the search stops, if and only if
the message is shorter than the buffer and, in case its first line is taken for a GET request, this line
has a blank at the sixth byte or behind it. -/
theorem recvCb_safe_iff (before : UInt8) (m old linebuf : List UInt8) (ext : Fields) :
    Safe m.length ⟨before,m ++ old,linebuf,ext⟩ ↔
      m.length < BUFFER_LENGTH ∧ (IsGet m → 32 ∈ (firstLine m).drop 5) := by
  constructor
  · exact fun h => ⟨h.lt,h.blank⟩
  · rintro ⟨hlt,hblank⟩
    obtain ⟨f',es,hreturns,hes,-⟩ := recvCb_returns hlt hblank
    exact ⟨f',es,hreturns,hes⟩

/-- A message of three bytes without a blank makes the search leave the line buffer, and behind one that
fills `ev->buffer` the zero is written too far. -/
theorem recvCb_unsafe :
    ¬ Safe 3 ⟨0,bytes "GET" ++ List.replicate 2048 0,List.replicate 1024 0,0⟩ ∧
      ∀ m : List UInt8, m.length = BUFFER_LENGTH →
        ¬ Safe m.length ⟨0,m ++ List.replicate 1024 0,List.replicate 1024 0,0⟩ := by
  have hget : IsGet (bytes "GET") := by decide
  constructor
  · intro h
    have hblank := Safe.blank (m := bytes "GET") h hget
    exact absurd hblank (by decide)
  · intro m hlength h
    exact absurd h.lt (by rw [hlength]; exact lt_irrefl _)

end Receive
end ServerKit.Reactor.Http
