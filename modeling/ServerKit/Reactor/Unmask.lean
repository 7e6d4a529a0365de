import ServerKit.Lib.Logged
import ServerKit.Reactor.Websocket

/-! Which bytes of `ev->buffer` a frame is unmasked in and printed from, and which of them the message that
has been received covers. -/
namespace ServerKit.Reactor.Websocket
open ServerKit.Lib

/-- An access to `ev->buffer`: to a byte, or to the zero that ends a string which is printed. -/
inductive FrameAccess
  | byte (i : ℕ)
  | terminator (i : ℕ)

/-- The access stays in a message of `len` bytes; the zero may be the one that `recv_cb` writes behind it. -/
def FrameAccess.Received (len : ℕ) : FrameAccess → Prop
  | .byte i => i < len
  | .terminator i => i ≤ len

/-- `hdr->pl_len` and `hdr->mask`. -/
def plLen (buffer : List UInt8) : ℕ := (buffer.getD 1 0).toNat % 128
def mask (buffer : List UInt8) : ℕ := (buffer.getD 1 0).toNat / 128

namespace Traced

abbrev FrameProg (α : Type) := Logged (List UInt8) FrameAccess α

def getByte (i : ℕ) : FrameProg UInt8 := .read (·.getD i 0) fun _ => .byte i
def setByte (i : ℕ) (b : UInt8) : FrameProg Unit := .write (·.set i b) fun _ => .byte i

/-- `printf("payload: %s\n", ev->buffer + i)`. -/
def printText (i : ℕ) : FrameProg Unit := fun buffer =>
  let len := (text (buffer.drop i)).length
  ((),buffer,(List.range len).map (fun k => .byte (i+k)) ++ [.terminator (i+len)])

def getHdr (field : List UInt8 → ℕ) : FrameProg ℕ := .read field fun _ => .byte 1

def umask (payload length maskKey : ℕ) : FrameProg Unit :=
  .forUp 0 length fun i => do
    let p ← getByte (payload+i)
    let key ← getByte (maskKey+i%4)
    setByte (payload+i) (p ^^^ key)

/-- The branch for a short frame. -/
def unmaskShort : FrameProg Unit := do
  if (← getHdr mask) ≠ 0 then
    let length ← getHdr plLen
    umask 6 length 2
    printText 6
  else printText 2

/-- The branches for longer frames, which do nothing but test the length. -/
def skipLong : FrameProg Unit := do
  if (← getHdr plLen) = 126 then return ()
  else
    let _ ← getHdr plLen
    return ()

def wsTranmission : FrameProg Unit := do
  if (← getHdr plLen) < 126 then unmaskShort else skipLong

end Traced

section Unmask
variable {P : FrameAccess → Prop} {buffer : List UInt8} {payload length maskKey : ℕ}

/-- The bytes of the payload are xored and no others are changed; the key is outside the payload. -/
theorem getD_umask (hkey : maskKey+4 ≤ payload) (hsize : payload+length ≤ buffer.length) (j : ℕ) :
    (umask buffer payload length maskKey).getD j 0 = if payload ≤ j ∧ j < payload+length then
      buffer.getD j 0 ^^^ buffer.getD (maskKey+(j-payload)%4) 0 else buffer.getD j 0 := by
  have hfrom (lo : ℕ) (b : List UInt8) (hb : payload+lo+length ≤ b.length) :
      (forUp lo length (fun i b => b.set (payload+i)
        (b.getD (payload+i) 0 ^^^ b.getD (maskKey+i%4) 0)) b).getD j 0 =
      if payload+lo ≤ j ∧ j < payload+lo+length then
        b.getD j 0 ^^^ b.getD (maskKey+(j-payload)%4) 0 else b.getD j 0 := by
    clear hsize
    induction length generalizing lo b with
    | zero => rw [forUp, if_neg (by omega)]
    | succ n ih =>
      have hkey' : ∀ i, payload+lo ≠ maskKey+i%4 := fun i => by omega
      rw [forUp, ih (lo+1) _ (by rw [List.length_set]; omega), getD_set_ne (hkey' _)]
      obtain rfl | hne := eq_or_ne (payload+lo) j
      · rw [if_neg (by omega), if_pos (by omega), getD_set_self (by omega), Nat.add_sub_cancel_left]
      · rw [getD_set_ne hne]
        exact if_congr (by omega) rfl rfl
  exact hfrom 0 buffer hsize

theorem state_umask (buffer : List UInt8) (payload length maskKey : ℕ) :
    (Traced.umask payload length maskKey).state buffer = umask buffer payload length maskKey :=
  Logged.state_forUp ..

/-- A byte of the payload and one of the key are touched for every byte that is unmasked. -/
theorem clean_umask : Logged.Clean P (Traced.umask payload length maskKey) buffer ↔
    ∀ i < length, P (.byte (payload+i)) ∧ P (.byte (maskKey+i%4)) := by
  have hbody (i : ℕ) (b : List UInt8) : Logged.Clean P (do
      let p ← Traced.getByte (payload+i)
      let key ← Traced.getByte (maskKey+i%4)
      Traced.setByte (payload+i) (p ^^^ key)) b ↔
      P (.byte (payload+i)) ∧ P (.byte (maskKey+i%4)) := by
    unfold Traced.getByte Traced.setByte
    rw [Logged.clean_bind, Logged.clean_bind, Logged.clean_read, Logged.clean_read, Logged.clean_write]
    tauto
  refine (Logged.clean_forUp_iff hbody 0 length buffer).trans ⟨fun h i hi => ?_,fun h i _ hi => ?_⟩
  · exact h i i.zero_le (by omega)
  · exact h i (by omega)

/-- The string and the zero that ends it are read. -/
theorem clean_printText {i : ℕ} : Logged.Clean P (Traced.printText i) buffer ↔
    (∀ k < (text (buffer.drop i)).length, P (.byte (i+k))) ∧
      P (.terminator (i+(text (buffer.drop i)).length)) := by
  refine List.forall_mem_append.trans (and_congr ?_ List.forall_mem_singleton)
  rw [List.forall_mem_map]
  exact forall_congr' fun k => imp_congr_left List.mem_range

/-- What is printed from `i` on was received if the message reaches to `i` and ends in a zero. -/
theorem printText_received {i len : ℕ} (hi : i ≤ len) (hzero : buffer.getD len 0 = 0) :
    Logged.Clean (FrameAccess.Received len) (Traced.printText i) buffer := by
  have hend := length_text_drop hi hzero
  refine clean_printText.mpr ⟨fun k hk => ?_,hend⟩
  change i+k < len
  omega

end Unmask

section Frames
variable {P : FrameAccess → Prop} {buffer : List UInt8}

theorem clean_getHdr (field : List UInt8 → ℕ) :
    Logged.Clean P (Traced.getHdr field) buffer ↔ P (.byte 1) :=
  Logged.clean_read ..

/-- Every frame has its second byte read, and only short ones have others. -/
theorem clean_wsTranmission : Logged.Clean P Traced.wsTranmission buffer ↔ P (.byte 1) ∧
    (plLen buffer < 126 → Logged.Clean P Traced.unmaskShort buffer) := by
  unfold Traced.wsTranmission
  rw [Logged.clean_bind, clean_getHdr, Logged.clean_ite]
  refine and_congr_right fun hfirst => ?_
  change (if plLen buffer < 126 then _ else _) ↔ _
  split
  · next hshort => exact (imp_iff_right hshort).symm
  · next hlong =>
    refine iff_of_true ?_ fun hshort => absurd hshort hlong
    unfold Traced.skipLong
    rw [Logged.clean_bind, clean_getHdr, Logged.clean_ite]
    refine ⟨hfirst,?_⟩
    split
    · exact Logged.clean_pure ()
    · exact (Logged.clean_bind ..).mpr ⟨(clean_getHdr _).mpr hfirst,Logged.clean_pure ()⟩

theorem clean_masked (h : mask buffer ≠ 0) : Logged.Clean P Traced.unmaskShort buffer ↔
    P (.byte 1) ∧ Logged.Clean P (Traced.umask 6 (plLen buffer) 2) buffer ∧
      Logged.Clean P (Traced.printText 6) (umask buffer 6 (plLen buffer) 2) := by
  unfold Traced.unmaskShort
  rw [Logged.clean_bind, clean_getHdr]
  change _ ∧ Logged.Clean P (if mask buffer ≠ 0 then _ else _) buffer ↔ _
  rw [if_pos h, Logged.clean_bind, clean_getHdr, Logged.clean_bind, ← state_umask]
  exact and_self_left

theorem clean_unmasked (h : ¬ mask buffer ≠ 0) : Logged.Clean P Traced.unmaskShort buffer ↔
    P (.byte 1) ∧ Logged.Clean P (Traced.printText 2) buffer := by
  unfold Traced.unmaskShort
  rw [Logged.clean_bind, clean_getHdr]
  change _ ∧ Logged.Clean P (if mask buffer ≠ 0 then _ else _) buffer ↔ _
  rw [if_neg h]

/-- Without its log the function is the one of the server. -/
theorem state_wsTranmission (ev : NtyEvent Fields) :
    Traced.wsTranmission.state ev.buffer = (wsTranmission ev).buffer := by
  unfold Traced.wsTranmission
  rw [Logged.state_bind, Logged.state_ite]
  change (if plLen ev.buffer < 126 then _ else _) =
    (if plLen ev.buffer < 126 ∧ mask ev.buffer ≠ 0 then _ else ev).buffer
  by_cases hshort : plLen ev.buffer < 126
  · rw [if_pos hshort]
    unfold Traced.unmaskShort
    rw [Logged.state_bind]
    change Logged.state (if mask ev.buffer ≠ 0 then _ else _) ev.buffer = _
    by_cases hmask : mask ev.buffer ≠ 0
    · rw [if_pos hmask, if_pos ⟨hshort,hmask⟩]
      exact state_umask ..
    · rw [if_neg hmask, if_neg fun h => hmask h.2]
      rfl
  · rw [if_neg hshort, if_neg fun h => hshort h.1]
    unfold Traced.skipLong
    rw [Logged.state_bind, Logged.state_ite]
    exact ite_self _

end Frames

/-- The effect of `ws_tranmission` on `ev->buffer` is that on the received part of the payload, and nothing
that was not received is looked at. -/
structure OnlyPayload (ev : NtyEvent Fields) : Prop where
  header : ∀ i < 6, (wsTranmission ev).buffer.getD i 0 = ev.buffer.getD i 0
  beyond : ∀ i, ev.length ≤ i → (wsTranmission ev).buffer.getD i 0 = ev.buffer.getD i 0
  payload : plLen ev.buffer < 126 → mask ev.buffer ≠ 0 → ∀ i < plLen ev.buffer, 6+i < ev.length →
    (wsTranmission ev).buffer.getD (6+i) 0 = ev.buffer.getD (6+i) 0 ^^^ ev.buffer.getD (2+i%4) 0
  received : Logged.Clean (FrameAccess.Received ev.length) Traced.wsTranmission ev.buffer

/-- The message has its two bytes of header, and it has all of the payload that is unmasked. -/
def Covered (m : List UInt8) : Prop :=
  2 ≤ m.length ∧ (plLen m < 126 → mask m ≠ 0 → 6+plLen m ≤ m.length)

instance (m : List UInt8) : Decidable (Covered m) :=
  inferInstanceAs (Decidable (2 ≤ m.length ∧ (plLen m < 126 → mask m ≠ 0 → 6+plLen m ≤ m.length)))

section Received
variable {ev : NtyEvent Fields} {len : ℕ}

theorem getD_wsTranmission (hsize : ev.buffer.length = BUFFER_LENGTH) (j : ℕ) :
    (wsTranmission ev).buffer.getD j 0 =
      if (plLen ev.buffer < 126 ∧ mask ev.buffer ≠ 0) ∧ 6 ≤ j ∧ j < 6+plLen ev.buffer then
        ev.buffer.getD j 0 ^^^ ev.buffer.getD (2+(j-6)%4) 0 else ev.buffer.getD j 0 := by
  change (if plLen ev.buffer < 126 ∧ mask ev.buffer ≠ 0 then _ else ev).buffer.getD j 0 = _
  by_cases h : plLen ev.buffer < 126 ∧ mask ev.buffer ≠ 0
  · have hin : 6+plLen ev.buffer ≤ ev.buffer.length := by
      rw [hsize, BUFFER_LENGTH]
      omega
    rw [if_pos h]
    exact (getD_umask le_rfl hin j).trans (if_congr (and_iff_right h).symm rfl rfl)
  · rw [if_neg h, if_neg fun hj => h hj.1]

/-- The effect outside the message is none exactly if the payload is in it; the rest always holds. -/
theorem onlyPayload_iff_clean (hsize : ev.buffer.length = BUFFER_LENGTH)
    (hcovered : plLen ev.buffer < 126 → mask ev.buffer ≠ 0 →
      Logged.Clean (FrameAccess.Received ev.length) Traced.wsTranmission ev.buffer →
      6+plLen ev.buffer ≤ ev.length) :
    OnlyPayload ev ↔ Logged.Clean (FrameAccess.Received ev.length) Traced.wsTranmission ev.buffer := by
  refine ⟨OnlyPayload.received,fun hclean => ⟨?_,?_,?_,hclean⟩⟩
  · intro i hi
    rw [getD_wsTranmission hsize, if_neg (by omega)]
  · intro i hi
    rw [getD_wsTranmission hsize, if_neg]
    rintro ⟨⟨hshort,hmask⟩,-,hlt⟩
    have := hcovered hshort hmask hclean
    omega
  · intro hshort hmask i hi _
    rw [getD_wsTranmission hsize, if_pos ⟨⟨hshort,hmask⟩,by omega,by omega⟩, Nat.add_sub_cancel_left]

/-- Behind the message is a zero. -/
theorem clean_wsTranmission_iff (hsize : ev.buffer.length = BUFFER_LENGTH)
    (hzero : ev.buffer.getD len 0 = 0) :
    Logged.Clean (FrameAccess.Received len) Traced.wsTranmission ev.buffer ↔
      2 ≤ len ∧ (plLen ev.buffer < 126 → mask ev.buffer ≠ 0 → 6+plLen ev.buffer ≤ len) := by
  rw [clean_wsTranmission]
  refine and_congr_right fun (hfirst : 1 < len) => imp_congr_right fun hshort => ?_
  by_cases hmask : mask ev.buffer ≠ 0
  · rw [clean_masked hmask, clean_umask, imp_iff_right hmask]
    constructor
    · rintro ⟨-,hbytes,hprint⟩
      by_contra hlt
      obtain hnone | hpos := Nat.eq_zero_or_pos (plLen ev.buffer)
      · -- an empty payload is printed from behind the message
        have hend : 6+_ ≤ len := (clean_printText.mp hprint).2
        omega
      · have hlast : 6+(plLen ev.buffer-1) < len := (hbytes _ (Nat.sub_lt hpos Nat.one_pos)).1
        omega
    · intro hle
      have hin : 6+plLen ev.buffer ≤ ev.buffer.length := by
        rw [hsize, BUFFER_LENGTH]
        omega
      refine ⟨hfirst,fun i hi => ?_,printText_received (by omega) ?_⟩
      · constructor
        · change 6+i < len
          omega
        · change 2+i%4 < len
          omega
      · rw [getD_umask le_rfl hin, if_neg (by omega), hzero]
  · rw [clean_unmasked hmask]
    exact iff_of_true ⟨hfirst,printText_received hfirst hzero⟩ fun h => absurd h hmask

end Received

section Messages
variable (sha1 base64 : List UInt8 → List UInt8)

/-- A message fills the beginning of the buffer, and a zero comes behind it. -/
theorem received_buffer {ev : NtyEvent Fields} (hsize : ev.buffer.length = BUFFER_LENGTH)
    {m : List UInt8} (hm : m.length ≤ BUFFER_LENGTH) :
    (Conn.received (app sha1 base64) m ev).buffer = (m ++ ev.buffer.drop m.length).set m.length 0 := by
  unfold Conn.received terminate
  dsimp only
  split
  · rfl
  · next hge =>
    have hfull : (m ++ ev.buffer.drop m.length).length ≤ m.length := by
      rw [List.length_append, List.length_drop]
      omega
    exact (List.set_eq_of_length_le hfull).symm

theorem received_length {m : List UInt8} (hm : m.length ≤ BUFFER_LENGTH) (ev : NtyEvent Fields) :
    (Conn.received (app sha1 base64) m ev).length = m.length := by
  unfold Conn.received terminate
  dsimp only
  split
  · rfl
  · next hge =>
    change m.length/256*256 = m.length
    unfold BUFFER_LENGTH at hm hge
    omega

/-- A received frame is unmasked and printed as it should be if all of it has come. -/
theorem wsTranmission_onlyPayload_iff {ev : NtyEvent Fields} (hsize : ev.buffer.length = BUFFER_LENGTH)
    {m : List UInt8} (hm : m.length ≤ BUFFER_LENGTH) :
    OnlyPayload (Conn.received (app sha1 base64) m ev) ↔ Covered m := by
  have hbuffer := received_buffer sha1 base64 hsize hm
  have hlength := received_length sha1 base64 hm ev
  have hin : (m ++ ev.buffer.drop m.length).length = BUFFER_LENGTH := by
    rw [List.length_append, List.length_drop]
    omega
  have hsize' : (Conn.received (app sha1 base64) m ev).buffer.length = BUFFER_LENGTH := by
    rw [hbuffer, List.length_set, hin]
  have hzero : (Conn.received (app sha1 base64) m ev).buffer.getD m.length 0 = 0 := by
    rw [hbuffer]
    obtain hlt | hge := Nat.lt_or_ge m.length (m ++ ev.buffer.drop m.length).length
    · exact getD_set_self hlt 0
    · rw [List.getD_eq_getElem?_getD, List.getElem?_eq_none (by rwa [List.length_set])]
      rfl
  have hclean := clean_wsTranmission_iff hsize' hzero
  rw [onlyPayload_iff_clean hsize', hlength, hclean]
  · refine and_congr_right fun h2 => ?_
    have hsecond : (Conn.received (app sha1 base64) m ev).buffer.getD 1 0 = m.getD 1 0 := by
      rw [hbuffer, getD_set_ne (by omega), List.getD_eq_getElem?_getD, List.getElem?_append_left h2,
        List.getD_eq_getElem?_getD]
    unfold plLen mask
    rw [hsecond]
  · rw [hlength]
    exact fun hshort hmask h => (hclean.mp h).2 hshort hmask

/-- A masked frame of one byte that has come whole. -/
theorem wsTranmission_onlyPayload_whole :
    OnlyPayload (Conn.received (app (fun _ => []) fun _ => []) [129,129,1,2,3,4,73] zeroEvent) :=
  (wsTranmission_onlyPayload_iff _ _ List.length_replicate (by decide)).mpr (by decide)

/-- Of a payload of two bytes one has come, and the zero behind it is unmasked as well. -/
theorem wsTranmission_not_onlyPayload :
    ¬ OnlyPayload (Conn.received (app (fun _ => []) fun _ => []) [129,130,1,2,3,4,73] zeroEvent) := by
  intro h
  have hbeyond := h.beyond 7 (by decide)
  revert hbeyond
  decide +kernel

end Messages
end ServerKit.Reactor.Websocket
