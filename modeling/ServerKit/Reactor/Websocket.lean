import ServerKit.Reactor.Conn
import ServerKit.Reactor.Readline

/-! Requests and responses of `reactor+websocket/reactor_singlecb_c1000k.c`. -/
namespace ServerKit.Reactor.Websocket
open ServerKit.Lib

def ACCEPT_KEY_LENGTH : ℕ := 64
def GUID : List UInt8 := bytes "258EAFA5-E914-47DA-95CA-C5AB0DC85B11"
def WS_HANDSHARK : ℕ := 0
def WS_TRANMISSION : ℕ := 1

/-- The fields of an event that only this server has. -/
structure Fields where
  secAccept : List UInt8
  wsstatus : ℕ

instance : Zero Fields := ⟨⟨List.replicate ACCEPT_KEY_LENGTH 0,WS_HANDSHARK⟩⟩

/-- The arrays of `ws_handshark`, and that of the event. -/
structure Keys where
  secData : List UInt8
  secAccept : List UInt8
  evAccept : List UInt8

section Openssl
-- the functions of OpenSSL: a digest of 20 bytes, and what the base64 filter writes, which ends in a
-- line feed unless it is empty
variable (sha1 base64 : List UInt8 → List UInt8)

/-- What is left of `out_str`; the last byte that was copied becomes the zero. -/
def base64Encode (inStr outStr : List UInt8) : List UInt8 :=
  let data := base64 inStr
  if data = [] then outStr else data.dropLast ++ 0 :: outStr.drop data.length

/-- One pass of the loop of `ws_handshark`. The list has no bound where `linebuf` has 1024 bytes: with a key
line that is too long for the GUID, see `KeyFits`, the code writes behind the array. -/
def handsharkLine (linebuf : List UInt8) (k : Keys) : Keys :=
  if strstr linebuf (bytes "Sec-WebSocket-Key") then
    let digest := sha1 ((linebuf ++ GUID).drop 19)
    let secData := digest ++ k.secData.drop digest.length
    let secAccept := base64Encode base64 (text secData) k.secAccept
    ⟨secData,secAccept,secAccept.take ACCEPT_KEY_LENGTH⟩
  else k

/-- The loop of `ws_handshark` from `idx` on. Every pass that is followed by another one has moved `idx`
to a later line. -/
def handsharkLoop (buffer : List UInt8) : ℕ → ℕ → Keys → Keys
  | 0,_,k => k
  | fuel+1,idx,k =>
    let line := readline buffer idx
    let k := handsharkLine sha1 base64 line.2 k
    match line.1 with
    | none => k
    | some idx =>
      if buffer.getD idx 0 ≠ 13 ∨ buffer.getD (idx+1) 0 ≠ 10 then handsharkLoop buffer fuel idx k else k

/-- What `ws_handshark` leaves in `ev->sec_accept`. -/
def wsAccept (buffer secAccept : List UInt8) : List UInt8 :=
  (handsharkLoop sha1 base64 buffer ((text buffer).length+1) 0
    ⟨List.replicate 128 0,List.replicate 128 0,secAccept⟩).evAccept

def wsHandshark (ev : NtyEvent Fields) : NtyEvent Fields :=
  { ev with ext := { ev.ext with secAccept := wsAccept sha1 base64 ev.buffer ev.ext.secAccept } }

/-- The bytes from `payload` on are xored with the four bytes from `maskKey` on. -/
def umask (buffer : List UInt8) (payload length maskKey : ℕ) : List UInt8 :=
  forUp 0 length (fun i buffer => buffer.set (payload+i)
    (buffer.getD (payload+i) 0 ^^^ buffer.getD (maskKey+i%4) 0)) buffer

/-- The length and the mask bit are in the second byte; longer frames are ignored. -/
def wsTranmission (ev : NtyEvent Fields) : NtyEvent Fields :=
  let plLen := (ev.buffer.getD 1 0).toNat % 128
  let mask := (ev.buffer.getD 1 0).toNat / 128
  if plLen < 126 ∧ mask ≠ 0 then { ev with buffer := umask ev.buffer 6 plLen 2 } else ev

inductive Handler
  | handshark
  | tranmission
  deriving DecidableEq

/-- Which function a message is dispatched to. -/
def handler (x : Fields) : Option Handler :=
  if x.wsstatus = WS_HANDSHARK then some .handshark
  else if x.wsstatus = WS_TRANMISSION then some .tranmission
  else none

def wsRequest (ev : NtyEvent Fields) : NtyEvent Fields :=
  match handler ev.ext with
  | some .handshark =>
    let ev := wsHandshark sha1 base64 ev
    { ev with ext := { ev.ext with wsstatus := WS_TRANMISSION } }
  | some .tranmission => wsTranmission ev
  | none => ev

/-- The handshake response for a key. -/
def switching (key : List UInt8) : List UInt8 :=
  bytes "HTTP/1.1 101 Switching Protocols\r\nUpgrade: websocket\r\nConnection: Upgrade\r\n" ++
  bytes "Sec-WebSocket-Accept: " ++ key ++ bytes "\r\n\r\n"

def wsResponse (ev : NtyEvent Fields) : NtyEvent Fields :=
  let s := switching (text ev.ext.secAccept)
  { ev with wbuffer := putText ev.wbuffer s, wlength := s.length }

/-- Here `length` is what comes after `buffer`, least significant byte first. -/
def app : App Fields where
  pastBuffer := fun ev => { ev with length := ev.length/256*256 }
  request := wsRequest sha1 base64
  response := wsResponse
  rest := fun _ => []

/-- The handshake looks at the text of the buffer only. -/
theorem handsharkLoop_congr {buffer buffer' : List UInt8} (h : text buffer = text buffer')
    (fuel idx : ℕ) (k : Keys) :
    handsharkLoop sha1 base64 buffer fuel idx k = handsharkLoop sha1 base64 buffer' fuel idx k := by
  induction fuel generalizing idx k with
  | zero => rfl
  | succ fuel ih =>
    have hline : readline buffer idx = readline buffer' idx := by
      unfold readline
      rw [h]
    simp only [handsharkLoop, ← hline]
    cases hnext : (readline buffer idx).1 with
    | none => rfl
    | some j =>
      have hj := (readline_le hnext).2
      have hfirst : buffer.getD j 0 = buffer'.getD j 0 := getD_congr h hj
      -- the second byte matters only when the first is not the zero behind the text
      have hsecond (hcr : buffer.getD j 0 = 13) : buffer.getD (j+1) 0 = buffer'.getD (j+1) 0 := by
        have hne : j ≠ (text buffer).length := by
          rintro rfl
          rw [getD_length_text] at hcr
          cases hcr
        exact getD_congr h (by omega)
      have htest : (buffer.getD j 0 ≠ 13 ∨ buffer.getD (j+1) 0 ≠ 10) ↔
          (buffer'.getD j 0 ≠ 13 ∨ buffer'.getD (j+1) 0 ≠ 10) := by
        rw [← hfirst]
        by_cases hcr : buffer.getD j 0 = 13
        · rw [hsecond hcr]
        · exact ⟨fun _ => .inl hcr,fun _ => .inl hcr⟩
      exact if_congr htest (ih j _) rfl

theorem wsAccept_congr {buffer buffer' : List UInt8} (h : text buffer = text buffer')
    (secAccept : List UInt8) :
    wsAccept sha1 base64 buffer secAccept = wsAccept sha1 base64 buffer' secAccept := by
  unfold wsAccept
  rw [handsharkLoop_congr sha1 base64 h, h]

/-- The loop has stopped when the fuel runs out. -/
theorem handsharkLoop_fuel {buffer : List UInt8} {fuel idx : ℕ} (k : Keys)
    (hfuel : (text buffer).length < fuel+idx) :
    handsharkLoop sha1 base64 buffer (fuel+1) idx k = handsharkLoop sha1 base64 buffer fuel idx k := by
  induction fuel generalizing idx k with
  | zero =>
    have hdrop : (text buffer).drop idx = [] := List.drop_eq_nil_of_le (by omega)
    have hline : readline buffer idx = (none,[]) := by
      rw [readline, hdrop]
      rfl
    simp only [handsharkLoop, hline]
    rfl
  | succ fuel ih =>
    conv_lhs => rw [handsharkLoop]
    conv_rhs => rw [handsharkLoop]
    cases hnext : (readline buffer idx).1 with
    | none => rfl
    | some j =>
      have hj := (readline_le hnext).1
      dsimp only
      rw [ih _ (by omega)]

theorem length_umask (buffer : List UInt8) (payload length maskKey : ℕ) :
    (umask buffer payload length maskKey).length = buffer.length := by
  unfold umask
  generalize 0 = lo
  induction length generalizing buffer lo with
  | zero => rfl
  | succ n ih => rw [forUp, ih, List.length_set]

theorem wsRequest_status (ev : NtyEvent Fields) : (wsRequest sha1 base64 ev).status = ev.status := by
  unfold wsRequest
  split
  · rfl
  · unfold wsTranmission
    dsimp only
    split <;> rfl
  · rfl

theorem wsRequest_size (ev : NtyEvent Fields) :
    (wsRequest sha1 base64 ev).buffer.length = ev.buffer.length := by
  unfold wsRequest
  split
  · rfl
  · unfold wsTranmission
    dsimp only
    split
    · exact length_umask ..
    · rfl
  · rfl

theorem app_lawful : (app sha1 base64).Lawful where
  pastBuffer_status := fun _ => rfl
  pastBuffer_buffer := fun _ => rfl
  request_status := wsRequest_status sha1 base64
  request_size := wsRequest_size sha1 base64
  response_status := fun _ => rfl
  response_fd := fun _ => rfl
  response_size := fun _ => rfl

end Openssl
end ServerKit.Reactor.Websocket
