import ServerKit.Lib.Base64
import ServerKit.Reactor.Websocket

/-! The header lines that `ws_handshark` looks at, and the key that it leaves. -/
namespace ServerKit.Reactor.Websocket
open ServerKit.Lib

/-- An empty line comes next, with a line end behind it. -/
def endsHeader : List (List UInt8) → Bool
  | [] :: _ :: _ => true
  | _ => false

/-- The lines up to the end of the header. -/
def headerLines : List (List UInt8) → List (List UInt8)
  | [] => []
  | l :: ls => l :: if endsHeader ls then [] else headerLines ls

/-- Those that come behind a line. -/
def nextLines (ls : List (List UInt8)) : List (List UInt8) :=
  if endsHeader ls then [] else headerLines ls

section Lines
variable {buffer s : List UInt8} {idx : ℕ} {lines ls : List (List UInt8)}

theorem endsHeader_splitPair : endsHeader (splitPair 13 10 s) = true ↔ [13,10] <+: s := by
  rw [pair_starts_iff]
  generalize splitPair 13 10 s = ls
  unfold endsHeader
  split
  · next l ls => exact iff_of_true rfl ⟨l,ls,rfl⟩
  · next hnot =>
    refine iff_of_false Bool.false_ne_true ?_
    rintro ⟨l,ls,rfl⟩
    exact hnot l ls rfl

/-- The test of the loop of `ws_handshark`. -/
theorem line_end_iff (hidx : idx ≤ (text buffer).length) :
    buffer.getD idx 0 = 13 ∧ buffer.getD (idx+1) 0 = 10 ↔ [13,10] <+: (text buffer).drop idx := by
  obtain hlt | hend := hidx.lt_or_eq
  · rw [getD_text hidx, getD_text hlt, List.drop_eq_getElem_cons hlt, List.cons_prefix_cons,
      List.getD_eq_getElem?_getD, List.getElem?_eq_getElem hlt, Option.getD_some]
    refine and_congr eq_comm ?_
    rw [List.getD_eq_getElem?_getD, ← List.head?_drop]
    cases (text buffer).drop (idx+1) with
    | nil => decide
    | cons c s => simp [eq_comm]
  · rw [hend, getD_length_text, List.drop_length]
    exact iff_of_false (fun h => absurd h.1 (by decide)) (fun h => absurd h.length_le (by decide))

theorem headerLines_append (hne : ∀ l ∈ lines, l ≠ []) (hlines : lines ≠ []) :
    headerLines (lines ++ ls) = lines ++ nextLines ls := by
  induction lines with
  | nil => exact absurd rfl hlines
  | cons l lines ih =>
    cases lines with
    | nil => rfl
    | cons l' lines =>
      have hrest := ih (fun x hx => hne x (.tail _ hx)) (List.cons_ne_nil _ _)
      obtain ⟨c,l',rfl⟩ := List.exists_cons_of_ne_nil (hne l' (.tail _ (.head _)))
      have hgoes : endsHeader ((c :: l') :: lines ++ ls) = false := rfl
      rw [List.cons_append, headerLines, hgoes, if_neg Bool.false_ne_true, hrest]
      rfl

section Openssl
variable {sha1 base64 : List UInt8 → List UInt8} {fuel : ℕ}

theorem handsharkLoop_eq (k : Keys) (hidx : idx ≤ (text buffer).length)
    (hfuel : (text buffer).length < fuel+idx) :
    handsharkLoop sha1 base64 buffer fuel idx k =
      (headerLines (splitPair 13 10 ((text buffer).drop idx))).foldl
        (fun k l => handsharkLine sha1 base64 l k) k := by
  induction fuel generalizing idx k with
  | zero => omega
  | succ fuel ih =>
    rw [handsharkLoop]
    obtain ⟨l,hsplit,hread⟩ | ⟨l,hsplit,hread⟩ := readline_cases buffer idx
    · rw [hread, hsplit]
      rfl
    · have hnext := readline_le (congrArg Prod.fst hread)
      have htest : (buffer.getD (idx+l.length+2) 0 ≠ 13 ∨ buffer.getD (idx+l.length+2+1) 0 ≠ 10) ↔
          ¬ endsHeader (splitPair 13 10 ((text buffer).drop (idx+l.length+2))) = true := by
        rw [← not_and_or, line_end_iff hnext.2, endsHeader_splitPair]
      rw [hread, hsplit, headerLines, List.foldl_cons]
      dsimp only
      by_cases hend : endsHeader (splitPair 13 10 ((text buffer).drop (idx+l.length+2))) = true
      · rw [if_neg (fun h => htest.mp h hend), if_pos hend]
        rfl
      · rw [if_pos (htest.mpr hend), if_neg hend, ih _ hnext.2 (by omega)]

end Openssl
end Lines

/-- What `ws_handshark` looks for in a line. -/
def keyName : List UInt8 := bytes "Sec-WebSocket-Key"

/-- Lines with their ends. -/
def unlines (lines : List (List UInt8)) : List UInt8 := (lines.map fun l => l ++ [13,10]).flatten

/-- A header line that fits into the line buffer. -/
structure IsLine (l : List UInt8) : Prop where
  ne_nil : l ≠ []
  crlf : ¬ [13,10] <:+: l
  fits : l.length < 1024

/-- A request with one line that has a key, which fits into the line buffer together with the GUID. The
header ends with an empty line, or with the request. -/
structure KeyRequest where
  before : List (List UInt8)
  key : List UInt8
  after : List (List UInt8)
  rest : List UInt8
  isLine : ∀ l ∈ before ++ (bytes "Sec-WebSocket-Key: " ++ key) :: after, IsLine l
  others : ∀ l ∈ before ++ after, ¬ keyName <:+: l
  isString : 0 ∉ key
  fits : (bytes "Sec-WebSocket-Key: " ++ key ++ GUID).length < 1024
  ends : rest = [] ∨ [13,10] <+: rest

section Texts
variable {lines : List (List UInt8)} {l rest : List UInt8}

theorem unlines_append (lines lines' : List (List UInt8)) :
    unlines (lines ++ lines') = unlines lines ++ unlines lines' := by
  rw [unlines, List.map_append, List.flatten_append]
  rfl

theorem zero_notMem_unlines (h : ∀ l ∈ lines, 0 ∉ l) : 0 ∉ unlines lines := by
  intro hmem
  obtain ⟨l',hl',h0⟩ := List.mem_flatten.mp hmem
  obtain ⟨l,hl,rfl⟩ := List.mem_map.mp hl'
  obtain h0 | h0 := List.mem_append.mp h0
  · exact h l hl h0
  · exact absurd h0 (by decide)

/-- A zero in one of the lines hides what comes behind them. -/
theorem text_unlines_append (h : ∃ l ∈ lines, 0 ∈ l) (rest : List UInt8) :
    text (unlines lines ++ rest) = text (unlines lines) := by
  obtain ⟨l,hl,h0⟩ := h
  have hmem : 0 ∈ unlines lines :=
    List.mem_flatten.mpr ⟨_,List.mem_map_of_mem hl,List.mem_append_left _ h0⟩
  obtain ⟨s,t,heq⟩ := List.append_of_mem hmem
  rw [heq, List.append_assoc, List.cons_append, text_append_zero, text_append_zero]

theorem text_crlf (s : List UInt8) : text (13 :: 10 :: s) = 13 :: 10 :: text s := by
  have hzero : (0 : UInt8) ∉ [13,10] := by decide
  exact text_append hzero s

/-- The first of some lines, which may end with a zero, and those behind it. -/
theorem headerLines_unlines_cons (hline : IsLine l) (lines : List (List UInt8)) (rest : List UInt8) :
    let ls := splitPair 13 10 (text (unlines (l :: lines) ++ rest))
    endsHeader ls = false ∧ headerLines ls =
      text l :: if 0 ∈ l then [] else nextLines (splitPair 13 10 (text (unlines lines ++ rest))) := by
  have hcons : unlines (l :: lines) ++ rest = l ++ 13 :: 10 :: (unlines lines ++ rest) := by
    simp [unlines]
  rw [hcons]
  by_cases h0 : 0 ∈ l
  · obtain ⟨s,t,rfl⟩ := List.append_of_mem h0
    have htext : text (s ++ 0 :: t ++ 13 :: 10 :: (unlines lines ++ rest)) = text (s ++ 0 :: t) := by
      rw [List.append_assoc, List.cons_append, text_append_zero, text_append_zero]
    have hcrlf : ¬ [13,10] <:+: text (s ++ 0 :: t) := fun h =>
      hline.crlf (h.trans (List.takeWhile_prefix _).isInfix)
    rw [htext, splitPair_of_not_infix hcrlf, if_pos h0]
    exact ⟨by cases text (s ++ 0 :: t) <;> rfl,rfl⟩
  · rw [text_append h0, text_of_notMem h0, if_neg h0, text_crlf, splitPair_append (by decide) hline.crlf]
    obtain ⟨c,l,rfl⟩ := List.exists_cons_of_ne_nil hline.ne_nil
    exact ⟨rfl,rfl⟩

/-- The lines that are looked at are the header lines, as far as they go before a zero. -/
theorem nextLines_unlines (hlines : ∀ l ∈ lines, IsLine l) (hrest : rest = [] ∨ [13,10] <+: rest) :
    ∀ x ∈ nextLines (splitPair 13 10 (text (unlines lines ++ rest))), x = [] ∨ ∃ l ∈ lines, x <+: l := by
  induction lines with
  | nil =>
    intro x hx
    obtain rfl | ⟨t,rfl⟩ := hrest
    · exact .inl (List.mem_singleton.mp hx)
    · have hends : endsHeader (splitPair 13 10 (text (unlines [] ++ ([13,10] ++ t)))) = true := by
        rw [endsHeader_splitPair]
        exact text_crlf t ▸ List.prefix_append [13,10] (text t)
      rw [nextLines, if_pos hends] at hx
      cases hx
  | cons l lines ih =>
    intro x hx
    obtain ⟨hgoes,hcons⟩ := headerLines_unlines_cons (hlines l (.head _)) lines rest
    rw [nextLines, hgoes, if_neg Bool.false_ne_true, hcons] at hx
    obtain rfl | hx := List.mem_cons.mp hx
    · exact .inr ⟨l,.head _,List.takeWhile_prefix _⟩
    · split at hx
      · cases hx
      · obtain hnil | ⟨l',hl',hstarts⟩ := ih (fun l' hl' => hlines l' (.tail _ hl')) x hx
        · exact .inl hnil
        · exact .inr ⟨l',.tail _ hl',hstarts⟩

end Texts

namespace KeyRequest
variable (r : KeyRequest)

def keyLine : List UInt8 := bytes "Sec-WebSocket-Key: " ++ r.key

/-- The bytes of the request. -/
def message : List UInt8 := unlines (r.before ++ r.keyLine :: r.after) ++ r.rest

/-- A line that is not that of the key, as far as it goes before a zero. -/
theorem not_keyName {x : List UInt8} {lines : List (List UInt8)} (hlines : ∀ l ∈ lines, ¬ keyName <:+: l)
    (hx : x = [] ∨ ∃ l ∈ lines, x <+: l) : ¬ keyName <:+: x := by
  obtain rfl | ⟨l,hl,hstarts⟩ := hx
  · decide
  · exact fun h => hlines l hl (h.trans hstarts.isInfix)

/-- With a zero before the line of the key no line that is looked at has a key. -/
theorem headerLines_hidden (h : ∃ l ∈ r.before, 0 ∈ l) :
    ∀ x ∈ headerLines (splitPair 13 10 (text r.message)), ¬ keyName <:+: x := by
  have hbefore : ∀ l ∈ r.before, IsLine l := fun l hl => r.isLine l (List.mem_append_left _ hl)
  have htext : text r.message = text (unlines r.before ++ []) := by
    rw [message, unlines_append, List.append_assoc, text_unlines_append h, List.append_nil]
  rw [htext]
  obtain ⟨l,before,hcons⟩ := List.exists_cons_of_ne_nil (List.ne_nil_of_mem h.choose_spec.1)
  have hgoes := (headerLines_unlines_cons (hbefore l (hcons ▸ List.mem_cons_self)) before []).1
  intro x hx
  refine not_keyName (fun l hl => r.others l (List.mem_append_left _ hl)) ?_
  refine nextLines_unlines hbefore (.inl rfl) x ?_
  rwa [nextLines, hcons, hgoes, if_neg Bool.false_ne_true, ← hcons]

/-- Otherwise the key is in one of them, and nothing like it in the others. -/
theorem headerLines_found (h : ∀ l ∈ r.before, 0 ∉ l) : ∃ others, (∀ x ∈ others, ¬ keyName <:+: x) ∧
    headerLines (splitPair 13 10 (text r.message)) = r.before ++ [r.keyLine] ++ others := by
  have hlines : ∀ l ∈ r.before ++ [r.keyLine], IsLine l := fun l hl =>
    r.isLine l (by simpa [or_assoc,keyLine] using List.mem_append_left r.after hl)
  have hzero : 0 ∉ unlines (r.before ++ [r.keyLine]) := by
    apply zero_notMem_unlines
    intro l hl
    obtain hl | hl := List.mem_append.mp hl
    · exact h l hl
    · rw [List.mem_singleton.mp hl]
      exact fun hmem => (List.mem_append.mp hmem).elim (by decide) r.isString
  have hmessage : r.message = unlines (r.before ++ [r.keyLine]) ++ (unlines r.after ++ r.rest) := by
    rw [message, ← List.append_assoc, ← unlines_append, List.append_assoc]
    rfl
  refine ⟨nextLines (splitPair 13 10 (text (unlines r.after ++ r.rest))),?_,?_⟩
  · intro x hx
    refine not_keyName (fun l hl => r.others l (List.mem_append_right _ hl)) ?_
    exact nextLines_unlines (fun l hl => r.isLine l (by simp [hl])) r.ends x hx
  · rw [hmessage, text_append hzero, unlines, splitPair_flatten (by decide) fun l hl => (hlines l hl).crlf]
    refine headerLines_append (fun l hl => (hlines l hl).ne_nil) ?_
    exact List.append_ne_nil_of_right_ne_nil _ (List.cons_ne_nil _ _)

end KeyRequest

section Key
variable {sha1 base64 : List UInt8 → List UInt8} {k : Keys} {ls : List (List UInt8)}

theorem foldl_handsharkLine (h : ∀ l ∈ ls, ¬ keyName <:+: l) (k : Keys) :
    ls.foldl (fun k l => handsharkLine sha1 base64 l k) k = k := by
  induction ls with
  | nil => rfl
  | cons l ls ih =>
    have hl : ¬ strstr l (bytes "Sec-WebSocket-Key") = true := by
      unfold strstr
      rw [decide_eq_true_iff]
      exact h l (.head _)
    rw [List.foldl_cons, handsharkLine, if_neg hl]
    exact ih fun x hx => h x (.tail _ hx)

/-- What the base64 filter writes for a line of at most 64 characters: the standard encoding and a line
feed; it may write nothing when there is nothing to encode. -/
def IsFilter (base64 : List UInt8 → List UInt8) : Prop :=
  ∀ d, d.length ≤ 48 → base64 d = Base64.encode d ++ [10] ∨ d = [] ∧ base64 d = []

/-- What is left of the output of the filter when a byte string of at most 20 bytes goes through it. -/
theorem text_base64Encode (hbase64 : IsFilter base64) {d : List UInt8} (hd : d.length ≤ 20) :
    text ((base64Encode base64 d (List.replicate 128 0)).take ACCEPT_KEY_LENGTH) = Base64.encode d := by
  obtain hdata | ⟨rfl,hdata⟩ := hbase64 d (hd.trans (by decide))
  · have hne : Base64.encode d ++ [10] ≠ [] := List.append_ne_nil_of_right_ne_nil _ (List.cons_ne_nil _ _)
    have hlength : (Base64.encode d).length < ACCEPT_KEY_LENGTH := by
      rw [Base64.length_encode, ACCEPT_KEY_LENGTH]
      omega
    obtain ⟨n,hn⟩ := Nat.exists_eq_add_of_lt hlength
    have htake : ACCEPT_KEY_LENGTH-(Base64.encode d).length = n+1 := by omega
    rw [base64Encode, hdata, if_neg hne, List.dropLast_concat, List.take_append,
      List.take_of_length_le hlength.le, htake, List.take_succ_cons, text_append_zero,
      text_of_notMem (Base64.zero_notMem_encode d)]
  · rw [base64Encode, hdata, if_pos rfl]
    rfl

/-- The digest goes through `strlen`: what is encoded are the bytes before its first zero. -/
theorem text_handsharkLine (hsha1 : ∀ d, (sha1 d).length = 20) (hbase64 : IsFilter base64)
    (hdata : k.secData = List.replicate 128 0) (haccept : k.secAccept = List.replicate 128 0)
    (r : KeyRequest) : text (handsharkLine sha1 base64 r.keyLine k).evAccept =
      Base64.encode (text (sha1 (r.key ++ GUID))) := by
  have hkey : strstr r.keyLine (bytes "Sec-WebSocket-Key") = true :=
    decide_eq_true ⟨[],bytes ": " ++ r.key,rfl⟩
  have hdrop : (r.keyLine ++ GUID).drop 19 = r.key ++ GUID := rfl
  have hdigest := hsha1 (r.key ++ GUID)
  rw [handsharkLine, if_pos hkey, hdrop, hdata, haccept]
  generalize sha1 (r.key ++ GUID) = digest at hdigest
  have hzeros : (List.replicate 128 (0 : UInt8)).drop digest.length = 0 :: List.replicate 107 0 := by
    rw [hdigest]
    rfl
  have hle : (text digest).length ≤ 20 := hdigest ▸ (List.takeWhile_prefix _).length_le
  dsimp only
  rw [hzeros, text_append_zero]
  exact text_base64Encode hbase64 hle

theorem secAccept_eq {buffer : List UInt8} {ls : List (List UInt8)}
    (hlines : headerLines (splitPair 13 10 (text buffer)) = ls) (secAccept : List UInt8) :
    wsAccept sha1 base64 buffer secAccept = (ls.foldl (fun k l => handsharkLine sha1 base64 l k)
      ⟨List.replicate 128 0,List.replicate 128 0,secAccept⟩).evAccept := by
  rw [wsAccept, handsharkLoop_eq _ (Nat.zero_le _) (by omega), List.drop_zero, hlines]

/-- The client gets the encoding of the digest of its key if and only if no line before that of the key
has a zero in it and the digest has none. With a zero before the key nothing is written, so that it gets
what is left from before. -/
theorem secAccept_iff (hsha1 : ∀ d, (sha1 d).length = 20) (hbase64 : IsFilter base64) (r : KeyRequest)
    (ev : NtyEvent Fields) (hbuffer : text ev.buffer = text r.message) :
    text (wsHandshark sha1 base64 ev).ext.secAccept = Base64.encode (sha1 (r.key ++ GUID)) ↔
      (∀ l ∈ r.before, 0 ∉ l) ∧ 0 ∉ sha1 (r.key ++ GUID) ∨
        (∃ l ∈ r.before, 0 ∈ l) ∧ text ev.ext.secAccept = Base64.encode (sha1 (r.key ++ GUID)) := by
  change text (wsAccept sha1 base64 ev.buffer ev.ext.secAccept) = _ ↔ _
  by_cases hzero : ∃ l ∈ r.before, 0 ∈ l
  · have hnot : ¬ ∀ l ∈ r.before, 0 ∉ l := fun h => h _ hzero.choose_spec.1 hzero.choose_spec.2
    have hhidden := r.headerLines_hidden hzero
    rw [← hbuffer] at hhidden
    rw [secAccept_eq rfl, foldl_handsharkLine hhidden]
    simp only [hnot, hzero, false_and, false_or, true_and]
  · have hfree : ∀ l ∈ r.before, 0 ∉ l := fun l hl h0 => hzero ⟨l,hl,h0⟩
    obtain ⟨others,hothers,hlines⟩ := r.headerLines_found hfree
    rw [← hbuffer] at hlines
    rw [secAccept_eq hlines, List.foldl_append, List.foldl_append,
      foldl_handsharkLine fun l hl => r.others l (List.mem_append_left _ hl), List.foldl_cons,
      List.foldl_nil, foldl_handsharkLine hothers, text_handsharkLine hsha1 hbase64 rfl rfl,
      Base64.encode_injective.eq_iff]
    simp only [hzero, false_and, or_false]
    refine ⟨fun h => ⟨hfree,?_⟩,fun h => text_of_notMem h.2⟩
    rw [← h]
    exact zero_notMem_text _

end Key

section Sample

/-- A request with a key of 24 letters in its second line. -/
def keyRequest (key : List UInt8) (hisLine : IsLine (bytes "Sec-WebSocket-Key: " ++ key))
    (hisString : 0 ∉ key) (hfits : (bytes "Sec-WebSocket-Key: " ++ key ++ GUID).length < 1024) :
    KeyRequest where
  before := [bytes "GET /chat HTTP/1.1"]
  key := key
  after := [bytes "Sec-WebSocket-Version: 13"]
  rest := [13,10]
  isLine := by
    have hfirst : IsLine (bytes "GET /chat HTTP/1.1") := ⟨by decide,by decide,by decide⟩
    have hlast : IsLine (bytes "Sec-WebSocket-Version: 13") := ⟨by decide,by decide,by decide⟩
    simpa using ⟨hfirst,hisLine,hlast⟩
  others := by decide
  isString := hisString
  fits := hfits
  ends := .inr List.prefix_rfl

/-- The filter for less than a line. -/
def sampleFilter (d : List UInt8) : List UInt8 := if d = [] then [] else Base64.encode d ++ [10]

theorem sampleFilter_isFilter : IsFilter sampleFilter := by
  intro d hd
  unfold sampleFilter
  split
  · next h => exact .inr ⟨h,rfl⟩
  · exact .inl rfl

/-- A key, and the digest of it with the GUID. -/
def goodRequest : KeyRequest :=
  keyRequest (bytes "dGhlIHNhbXBsZSBub25jZQ==") ⟨by decide,by decide,by decide⟩ (by decide) (by decide)

def goodSha1 : List UInt8 → List UInt8 := fun _ =>
  [0xb3,0x7a,0x4f,0x2c,0xc0,0x62,0x4f,0x16,0x90,0xf6,0x46,0x06,0xcf,0x38,0x59,0x45,0xb2,0xbe,0xc4,0xea]

theorem secAccept_iff_sample : text (wsHandshark goodSha1 sampleFilter
    { (zeroEvent : NtyEvent Fields) with buffer := goodRequest.message }).ext.secAccept =
      Base64.encode (goodSha1 (goodRequest.key ++ GUID)) := by
  refine (secAccept_iff (fun _ => rfl) sampleFilter_isFilter goodRequest _ rfl).mpr (.inl ?_)
  decide

/-- A key whose digest with the GUID has a zero as its third byte. -/
def badRequest : KeyRequest :=
  keyRequest (bytes "dGhlIHNhbXBsZSBub24wNA==") ⟨by decide,by decide,by decide⟩ (by decide) (by decide)

def badSha1 : List UInt8 → List UInt8 := fun _ =>
  [0x0c,0x92,0x00,0xc5,0x02,0x2e,0x3e,0xb7,0x72,0xa8,0x4e,0x5d,0x8d,0x1d,0xd7,0x0a,0xdf,0xba,0xd2,0xd7]

/-- The client gets the encoding of two bytes instead of `DJIAxQIuPrdyqE5djR3XCt+60tc=`. -/
theorem secAccept_short :
    let accept := (wsHandshark badSha1 sampleFilter
      { (zeroEvent : NtyEvent Fields) with buffer := badRequest.message }).ext.secAccept
    text accept = bytes "DJI=" ∧ text accept ≠ Base64.encode (badSha1 (badRequest.key ++ GUID)) := by
  decide

end Sample
end ServerKit.Reactor.Websocket
