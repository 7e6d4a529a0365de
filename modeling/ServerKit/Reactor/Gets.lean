import ServerKit.Reactor.Http
import ServerKit.Reactor.Single

/-! What a message leaves in the slot of an HTTP connection, and what GET requests are answered with, over
all runs. -/
namespace ServerKit.Reactor.Http
open Function ServerKit.Lib

variable {files : List UInt8 → Option (List UInt8)}

/-- What is sent first for a path. -/
def pageFor (files : List UInt8 → Option (List UInt8)) (path : List UInt8) : List UInt8 :=
  match files path with
  | none => PAGE
  | some content => header content.length

/-- What the calls that send are given for a GET request. -/
def getAnswer (files : List UInt8 → Option (List UInt8)) (send : Option ℕ) : List (List UInt8) :=
  pageFor files HTTP_WEB_ROOT ::
    if 0 < (send.map fun n => min n (pageFor files HTTP_WEB_ROOT).length).getD 0 then
      [(files HTTP_WEB_ROOT).getD [],bytes "\r\n"]
    else []

def IsGet (m : List UInt8) : Prop := strstr (firstLine m) (bytes "GET") = true

instance (m : List UInt8) : Decidable (IsGet m) := inferInstanceAs (Decidable (_ = _))

def IsPost (m : List UInt8) : Prop := strstr (firstLine m) (bytes "POST") = true

instance (m : List UInt8) : Decidable (IsPost m) := inferInstanceAs (Decidable (_ = _))

def sampleGet : List UInt8 := bytes "GET / HTTP/1.1\r\n\r\n"

/-- The method that a message leaves. -/
def methodAfter (m : List UInt8) (method : ℕ) : ℕ :=
  if IsGet m then HTTP_METHOD_GET else if IsPost m then HTTP_METHOD_POST else method

section Events
variable {ev : NtyEvent Fields} {m : List UInt8}

theorem pageFor_ne_nil (path : List UInt8) : pageFor files path ≠ [] := by
  unfold pageFor
  split
  · exact List.append_ne_nil_of_left_ne_nil (List.append_ne_nil_of_left_ne_nil (by decide) _) _
  · exact List.append_ne_nil_of_left_ne_nil (List.append_ne_nil_of_left_ne_nil (by decide) _) _

theorem firstLine_congr {buffer buffer' : List UInt8} (h : text buffer = text buffer') :
    firstLine buffer = firstLine buffer' := by
  unfold firstLine readline
  rw [h]

theorem isGet_congr {m' : List UInt8} (h : text m = text m') : IsGet m ↔ IsGet m' := by
  unfold IsGet
  rw [firstLine_congr h]

theorem isPost_congr {m' : List UInt8} (h : text m = text m') : IsPost m ↔ IsPost m' := by
  unfold IsPost
  rw [firstLine_congr h]

theorem methodAfter_congr {m' : List UInt8} (h : text m = text m') (method : ℕ) :
    methodAfter m method = methodAfter m' method :=
  if_congr (isGet_congr h) rfl (if_congr (isPost_congr h) rfl rfl)

theorem ntyHttpRequest_get (h : IsGet ev.buffer) : (ntyHttpRequest ev).ext =
    ⟨HTTP_METHOD_GET,putText ev.ext.resource HTTP_WEB_ROOT⟩ := by
  unfold IsGet at h
  simp only [ntyHttpRequest, h, if_true]

theorem ntyHttpRequest_method (ev : NtyEvent Fields) :
    (ntyHttpRequest ev).ext.method = methodAfter ev.buffer ev.ext.method := by
  unfold methodAfter ntyHttpRequest
  dsimp only
  split
  · next hget => exact (if_pos hget).symm
  · next hget =>
    rw [if_neg (show ¬ IsGet ev.buffer from hget)]
    split
    · next hpost => exact (if_pos hpost).symm
    · next hpost => exact (if_neg hpost).symm

theorem ntyHttpResponse_get (h : ev.ext.method = HTTP_METHOD_GET) :
    ntyHttpResponse files ev = sprintf ev (pageFor files (text ev.ext.resource)) := by
  unfold ntyHttpResponse ntyHttpResponseGetMethod pageFor
  rw [if_pos h]
  cases files (text ev.ext.resource) <;> rfl

theorem ntyHttpResponse_other (h : ev.ext.method ≠ HTTP_METHOD_GET) : ntyHttpResponse files ev = ev :=
  if_neg h

theorem text_web_root (resource : List UInt8) : text (putText resource HTTP_WEB_ROOT) = HTTP_WEB_ROOT :=
  text_putText (by decide) resource

end Events

/-- In a log every reply to a GET request is the same. -/
def GetsAnswered (files : List UInt8 → Option (List UInt8)) (log : List (Event Fields)) : Prop :=
  ∀ out send rest offered m ext hist, log = out ++ .reply send rest offered :: .message m ext :: hist →
    IsGet m → offered = getAnswer files send

/-- A message that is not answered yet has left its method and resource if it is a GET request. -/
structure GetKept (files : List UInt8 → Option (List UInt8)) (fd : ℕ) (c : Conn Fields) : Prop where
  size : c.slot.buffer.length = BUFFER_LENGTH
  waiting : c.At fd .sendCb EPOLLOUT → ∃ m ext hist, c.log = .message m ext :: hist ∧
    (IsGet m → c.slot.ext.method = HTTP_METHOD_GET ∧ text c.slot.ext.resource = HTTP_WEB_ROOT)
  answered : GetsAnswered files c.log

section Gets
variable {fd : ℕ} {c c' : Conn Fields} {act : Conn.Act} {log : List (Event Fields)}

/-- An entry that is no reply. -/
theorem GetsAnswered.cons (h : GetsAnswered files log) {e : Event Fields}
    (he : ∀ send rest offered, e ≠ .reply send rest offered) : GetsAnswered files (e :: log) := by
  intro out send rest offered m ext hist heq
  obtain ⟨rfl,hhead⟩ | ⟨out',rfl,htail⟩ := List.cons_eq_append_iff.mp heq
  · exact absurd (List.cons.inj hhead).1.symm (he send rest offered)
  · exact h out' send rest offered m ext hist htail

theorem GetsAnswered.reply {m : List UInt8} {ext : Fields} {hist : List (Event Fields)}
    (h : GetsAnswered files (.message m ext :: hist)) {send : Option ℕ} {rest : List ℕ}
    {offered : List (List UInt8)} (hoffered : IsGet m → offered = getAnswer files send) :
    GetsAnswered files (.reply send rest offered :: .message m ext :: hist) := by
  intro out send' rest' offered' m' ext' hist' heq
  obtain ⟨rfl,hhead⟩ | ⟨out',rfl,htail⟩ := List.cons_eq_append_iff.mp heq
  · cases hhead
    exact hoffered
  · exact h out' send' rest' offered' m' ext' hist' htail

/-- What is sent to a connection whose last message is a GET request. -/
theorem offered_get (hmethod : c.slot.ext.method = HTTP_METHOD_GET)
    (hresource : text c.slot.ext.resource = HTTP_WEB_ROOT) {send : Option ℕ} :
    let ev := (app files).response c.slot
    (0 < c.sends (app files) send →
      ev.wbuffer.take ev.wlength :: (app files).rest ev = getAnswer files send) ∧
    (¬ 0 < c.sends (app files) send → [ev.wbuffer.take ev.wlength] = getAnswer files send) := by
  have hev : (app files).response c.slot = sprintf c.slot (pageFor files HTTP_WEB_ROOT) := by
    rw [← hresource]
    exact ntyHttpResponse_get hmethod
  have hfirst : (sprintf c.slot (pageFor files HTTP_WEB_ROOT)).wbuffer.take
      (pageFor files HTTP_WEB_ROOT).length = pageFor files HTTP_WEB_ROOT := take_putText ..
  have hrest : (app files).rest (sprintf c.slot (pageFor files HTTP_WEB_ROOT)) =
      [(files HTTP_WEB_ROOT).getD [],bytes "\r\n"] := by
    change [(files (text c.slot.ext.resource)).getD [],_] = _
    rw [hresource]
  have hlength : (sprintf c.slot (pageFor files HTTP_WEB_ROOT)).wlength =
      (pageFor files HTTP_WEB_ROOT).length := rfl
  unfold Conn.sends getAnswer
  simp only [hev, hlength, hfirst, hrest]
  constructor
  · intro hpos
    rw [if_pos hpos]
  · intro hnot
    rw [if_neg hnot]

theorem GetKept.step (h : GetKept files fd c) (hc : c.Mirrored fd)
    (hstep : Conn.Step (app files) fd c act c') : GetKept files fd c' := by
  have hlaw := app_lawful files
  have hsize := hstep.size hlaw h.size
  cases hstep with
  | leak hnew =>
    refine ⟨hsize,fun hat => ?_,h.answered.cons nofun⟩
    cases (hc.of_closed hnew).1.symm.trans hat.interest
  | accept hnew => exact ⟨hsize,fun hat => (by cases hat.callback),h.answered.cons nofun⟩
  | @hear m hat hne hle =>
    refine ⟨hsize,fun _ => ⟨m,_,_,rfl,fun hget => ?_⟩,h.answered.cons nofun⟩
    have htext := text_received hlaw hle h.size
    have hext := ntyHttpRequest_get ((isGet_congr htext).mpr hget)
    change (ntyHttpRequest _).ext.method = _ ∧ text (ntyHttpRequest _).ext.resource = _
    rw [hext]
    exact ⟨rfl,text_web_root _⟩
  | fin hat => exact ⟨hsize,fun hat => (by cases hat.interest),h.answered.cons nofun⟩
  | reset hat => exact ⟨hsize,fun hat => (by cases hat.interest),h.answered.cons nofun⟩
  | stall hat hne => exact ⟨hsize,fun hat => (by cases hat.interest),h.answered⟩
  | answer hat hpos =>
    refine ⟨hsize,fun hat' => (by cases hat'.callback),?_⟩
    obtain ⟨m,ext,hist,hlog,hget⟩ := h.waiting hat
    have hkept := h.answered
    rw [hlog] at hkept
    change GetsAnswered files (_ :: c.log)
    rw [hlog]
    exact hkept.reply fun hm => (offered_get (hget hm).1 (hget hm).2).1 hpos
  | drop hat hnot =>
    refine ⟨hsize,fun hat' => (by cases hat'.interest),?_⟩
    obtain ⟨m,ext,hist,hlog,hget⟩ := h.waiting hat
    have hkept := h.answered
    rw [hlog] at hkept
    change GetsAnswered files (_ :: _ :: c.log)
    rw [hlog]
    exact (hkept.reply fun hm => (offered_get (hget hm).1 (hget hm).2).2 hnot).cons nofun

theorem run_getKept {opened : ℕ → Bool} {listenfd : ℕ} (hopen : opened listenfd = true)
    {actions : List Action} {s : State Fields}
    (h : Run (Step (app files)) (start opened listenfd) actions s) (fd : ℕ) :
    GetKept files fd (s.server.conn fd) := by
  have hstart : GetKept files fd ((start opened listenfd : State Fields).server.conn fd) := by
    rw [start_conn hopen]
    split
    · exact ⟨List.length_replicate ..,fun hat => (by cases hat.callback),by simp [GetsAnswered]⟩
    · exact ⟨List.length_replicate ..,fun hat => (by cases hat.interest),by simp [GetsAnswered]⟩
  exact run_conn_invariant (app_lawful files) hopen h hstart
    fun _ _ _ hmirrored hc hstep => hc.step hmirrored hstep

end Gets

end ServerKit.Reactor.Http
