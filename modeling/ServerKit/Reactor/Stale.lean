import ServerKit.Reactor.RequestBounds

/-! What an HTTP connection is answered with on its first message, and what earlier connections on its
descriptor have to do with it. -/
namespace ServerKit.Reactor.Http
open Function ServerKit.Lib

variable {files : List UInt8 → Option (List UInt8)}

section Methods
variable {r : List UInt8}

theorem methodAfter_get (h : IsGet r) (method : ℕ) : methodAfter r method = HTTP_METHOD_GET := if_pos h

theorem methodAfter_post (h : ¬ IsGet r) (hpost : IsPost r) (method : ℕ) :
    methodAfter r method = HTTP_METHOD_POST := by
  rw [methodAfter, if_neg h, if_pos hpost]

theorem methodAfter_other (h : ¬ IsGet r) (hpost : ¬ IsPost r) (method : ℕ) :
    methodAfter r method = method := by
  rw [methodAfter, if_neg h, if_neg hpost]

end Methods

/-- Whatever is in the arrays, the message is received with all accesses in bounds. -/
def Handled (m : List UInt8) : Prop :=
  ∀ before old linebuf ext, Safe m.length ⟨before,m ++ old,linebuf,ext⟩

/-- For every other message the server leaves one of its arrays, and what it does then is not determined. -/
theorem handled_iff {m : List UInt8} :
    Handled m ↔ m.length < BUFFER_LENGTH ∧ (IsGet m → 32 ∈ (firstLine m).drop 5) := by
  constructor
  · intro h
    have hsafe : Safe m.length ⟨0,m ++ [],[],0⟩ := h 0 [] [] 0
    exact ⟨hsafe.lt,hsafe.blank⟩
  · rintro ⟨hlt,hblank⟩ before old linebuf ext
    obtain ⟨f',es,hreturns,hes,-⟩ := recvCb_returns hlt hblank
    exact ⟨f',es,hreturns,hes⟩

theorem Handled.le {m : List UInt8} (h : Handled m) : m.length ≤ BUFFER_LENGTH := (handled_iff.mp h).1.le

section Visits
variable {fd : ℕ} {c₀ c : Conn Fields} {acts : List Conn.Act} {method : ℕ} {silent : Prop}

/-- What a closed connection has left in its slot: a method, and a reply unless it is `silent`. -/
structure Rests (method : ℕ) (silent : Prop) (c : Conn Fields) : Prop where
  opened : c.opened = false
  size : c.slot.buffer.length = BUFFER_LENGTH
  wbuffer : 0 < c.slot.wbuffer.length
  method : c.slot.ext.method = method
  wlength : c.slot.wlength = 0 ↔ silent
  handled : ∀ m ext, .message m ext ∈ c.log → Handled m

/-- Only a GET request, or what is taken for one, writes a reply. -/
theorem ntyHttpResponse_wlength (files : List UInt8 → Option (List UInt8)) (ev : NtyEvent Fields)
    (hev : 0 < ev.wbuffer.length) :
    0 < (ntyHttpResponse files ev).wbuffer.length ∧ ((ntyHttpResponse files ev).wlength = 0 ↔
      ev.ext.method ≠ HTTP_METHOD_GET ∧ ev.wlength = 0) := by
  by_cases hget : ev.ext.method = HTTP_METHOD_GET
  · rw [ntyHttpResponse_get hget]
    have hpage : (pageFor files (text ev.ext.resource)).length ≠ 0 :=
      fun h => pageFor_ne_nil _ (List.length_eq_zero_iff.mp h)
    refine ⟨?_,fun h => absurd h hpage,fun h => absurd hget h.1⟩
    change 0 < (putText _ _).length
    simp only [putText, List.length_append, List.length_cons]
    omega
  · rw [ntyHttpResponse_other hget]
    exact ⟨hev,fun h => ⟨hget,h⟩,fun h => h.2⟩

theorem received_eq (files : List UInt8 → Option (List UInt8)) (m : List UInt8) (ev : NtyEvent Fields) :
    (Conn.received (app files) m ev).ext = ev.ext ∧
      (Conn.received (app files) m ev).wlength = ev.wlength ∧
      (Conn.received (app files) m ev).wbuffer.length = ev.wbuffer.length := by
  unfold Conn.received terminate
  dsimp only
  split
  · exact ⟨rfl,rfl,rfl⟩
  · exact ⟨rfl,rfl,List.length_set ..⟩

/-- The reply is sent, and the connection is closed, by its peer unless the server closes it. -/
theorem exists_finish (hrun : Run (Conn.Step (app files) fd) c₀ acts c)
    (hat : c.At fd .sendCb EPOLLOUT) : ∃ acts' c' tail,
      Run (Conn.Step (app files) fd) c₀ acts' c' ∧
      c'.log = .closed :: .reply (some 1024) []
        ((ntyHttpResponse files c.slot).wbuffer.take (ntyHttpResponse files c.slot).wlength :: tail) ::
          c.log ∧
      c'.opened = false ∧ c'.slot.buffer = (ntyHttpResponse files c.slot).buffer ∧
      c'.slot.wbuffer = (ntyHttpResponse files c.slot).wbuffer ∧
      c'.slot.wlength = (ntyHttpResponse files c.slot).wlength ∧
      c'.slot.ext = (ntyHttpResponse files c.slot).ext := by
  by_cases hpos : 0 < c.sends (app files) (some 1024)
  · have hanswered : Run (Conn.Step (app files) fd) c₀ (acts ++ [.send (some 1024) []]) _ :=
      hrun.snoc (.answer hat hpos)
    exact ⟨_,_,_,hanswered.snoc (.fin (hat.answered ..)),rfl,rfl,rfl,rfl,rfl,rfl⟩
  · have hdropped : Run (Conn.Step (app files) fd) c₀ (acts ++ [.send (some 1024) []]) _ :=
      hrun.snoc (.drop hat hpos)
    exact ⟨_,_,_,hdropped,rfl,rfl,rfl,rfl,rfl,rfl⟩

/-- A connection sends one message, is answered and closed. -/
theorem Rests.visit (h : Rests method silent c) (hrun : Run (Conn.Step (app files) fd) c₀ acts c)
    {m : List UInt8} (hne : m ≠ []) (hm : Handled m) : ∃ acts' c' ext first tail,
      Run (Conn.Step (app files) fd) c₀ acts' c' ∧
      c'.log = .closed :: .reply (some 1024) [] (first :: tail) :: .message m ext :: .accepted :: c.log ∧
      (first = [] ↔ methodAfter m method ≠ HTTP_METHOD_GET ∧ silent) ∧
      Rests (methodAfter m method) (methodAfter m method ≠ HTTP_METHOD_GET ∧ silent) c' := by
  have hlaw := app_lawful files
  have hle := hm.le
  have hat := (Conn.accepted_at fd c).heard (app files) m
  have hheard : Run (Conn.Step (app files) fd) c₀ _ _ :=
    (hrun.snoc (.accept h.opened)).snoc (.hear (Conn.accepted_at ..) hne hle)
  obtain ⟨acts',c',tail,hrun',hlog,hopened,hbuffer,hwbuffer,hwlength,hext⟩ :=
    exists_finish hheard hat
  obtain ⟨hext₀,hwlength₀,hwbuffer₀⟩ := received_eq files m (Conn.accepted fd c).slot
  have htext : text (Conn.received (app files) m (Conn.accepted fd c).slot).buffer = text m :=
    Reactor.text_received hlaw hle h.size
  -- what the message has left is what the reply is made of
  have hmethod : ((c.accepted fd).heard (app files) fd m).slot.ext.method = methodAfter m method := by
    change (ntyHttpRequest _).ext.method = _
    rw [ntyHttpRequest_method, methodAfter_congr htext, hext₀, ← h.method]
    rfl
  have hsilent : ((c.accepted fd).heard (app files) fd m).slot.wlength = 0 ↔ silent := by
    change (ntyHttpRequest _).wlength = 0 ↔ silent
    rw [ntyHttpRequest_eq, ← h.wlength]
    change (Conn.received _ _ _).wlength = 0 ↔ _
    rw [hwlength₀]
    rfl
  have hw : 0 < ((c.accepted fd).heard (app files) fd m).slot.wbuffer.length := by
    change 0 < (ntyHttpRequest _).wbuffer.length
    rw [ntyHttpRequest_eq]
    exact lt_of_lt_of_eq h.wbuffer hwbuffer₀.symm
  obtain ⟨hpos,hzero⟩ := ntyHttpResponse_wlength files _ hw
  rw [hmethod, hsilent] at hzero
  refine ⟨acts',c',_,_,tail,hrun',hlog,?_,hopened,?_,?_,?_,?_,?_⟩
  · rw [List.take_eq_nil_iff, ← hzero]
    exact or_iff_left (List.ne_nil_of_length_pos hpos)
  · rw [hbuffer]
    exact (hlaw.response_size _).trans ((hlaw.request_size _).trans (size_received hlaw hle h.size))
  · rwa [hwbuffer]
  · rw [hext, ntyHttpResponse_eq, ← hmethod]
  · rw [hwlength, hzero]
  · intro m' ext' hmem
    have hheard : .message m' ext' ∈ ((c.accepted fd).heard (app files) fd m).log := by
      rw [hlog] at hmem
      simpa only [List.mem_cons, reduceCtorEq, false_or] using hmem
    obtain hmessage | hbefore := List.mem_cons.mp hheard
    · cases hmessage
      exact hm
    · have hold : .message m' ext' ∈ c.log := (List.mem_cons.mp hbefore).resolve_left nofun
      exact h.handled m' ext' hold

end Visits

/-- All messages on all descriptors have been received in this way. -/
def AllHandled (s : State Fields) : Prop :=
  ∀ fd m ext, .message m ext ∈ (s.server.conn fd).log → Handled m

/-- In some run a new connection on `fd` sends `r`, and this is what the calls that answer it are given.
Here `send` is what the first of them returns. -/
def Answered (files : List UInt8 → Option (List UInt8)) (opened : ℕ → Bool) (listenfd fd : ℕ)
    (r : List UInt8) (send : Option ℕ) (offered : List (List UInt8)) : Prop :=
  ∃ actions s out rest ext hist, Run (Step (app files)) (start opened listenfd) actions s ∧ AllHandled s ∧
    (s.server.conn fd).log = out ++ .reply send rest offered :: .message r ext :: .accepted :: hist

/-- The server stays inside its arrays, and whatever earlier connections on the descriptor have done, the
answer is the same. -/
structure SameAnswer (files : List UInt8 → Option (List UInt8)) (r : List UInt8) : Prop where
  handled : Handled r
  same : ∀ opened listenfd fd send offered₁ offered₂, opened listenfd = true →
    Answered files opened listenfd fd r send offered₁ →
    Answered files opened listenfd fd r send offered₂ → offered₁ = offered₂

section Requests
variable {r : List UInt8}

theorem sameAnswer_get (hr : Handled r) (h : IsGet r) : SameAnswer files r := by
  have hkept {opened : ℕ → Bool} {listenfd fd : ℕ} {send : Option ℕ} {offered : List (List UInt8)}
      (hopen : opened listenfd = true) (ha : Answered files opened listenfd fd r send offered) :
      offered = getAnswer files send := by
    obtain ⟨actions,s,out,rest,ext,hist,hrun,-,hlog⟩ := ha
    exact (run_getKept hopen hrun fd).answered out send rest offered r ext _ hlog h
  refine ⟨hr,fun opened listenfd fd send offered₁ offered₂ hopen h₁ h₂ => ?_⟩
  rw [hkept hopen h₁, hkept hopen h₂]

def samplePost : List UInt8 := bytes "POST / HTTP/1.1\r\n\r\n"

theorem handled_samples : Handled sampleGet ∧ Handled samplePost :=
  ⟨handled_iff.mpr (by decide),handled_iff.mpr (by decide)⟩

/-- A fresh slot. -/
theorem rests_fresh : Rests HTTP_METHOD_GET True ⟨zeroEvent,false,none,[]⟩ := by
  have hlength : (zeroEvent : NtyEvent Fields).wbuffer.length = BUFFER_LENGTH := List.length_replicate ..
  refine ⟨rfl,List.length_replicate ..,?_,rfl,iff_true_intro rfl,nofun⟩
  rw [hlength]
  decide

/-- On a slot that a closed connection has left, `r` can be answered. -/
theorem Rests.answered {method : ℕ} {silent : Prop} {acts : List Conn.Act} {c : Conn Fields}
    (h : Rests method silent c) (hrun : Run (Conn.Step (app files) 5) ⟨zeroEvent,false,none,[]⟩ acts c)
    (hne : r ≠ []) (hr : Handled r) : ∃ first tail,
      Answered files (fun fd => fd == 3) 3 5 r (some 1024) (first :: tail) ∧
        (first = [] ↔ methodAfter r method ≠ HTTP_METHOD_GET ∧ silent) := by
  obtain ⟨acts',c',ext,first,tail,hrun',hlog,hfirst,hrests⟩ := h.visit hrun hne hr
  have hall : ∃ actions s, Run (Step (app files)) (start (fun fd => fd == 3) 3) actions s ∧
      s.server.conn 5 = c' ∧ ∀ fd' ≠ 5, (s.server.conn fd').log = [] :=
    exists_run_log (app_lawful files) rfl (by decide) hrun'
  obtain ⟨actions,s,hs,rfl,hothers⟩ := hall
  refine ⟨first,tail,⟨actions,s,[.closed],[],ext,_,hs,fun fd m ext' hmem => ?_,hlog⟩,hfirst⟩
  by_cases hfd : fd = 5
  · subst hfd
    exact hrests.handled m ext' hmem
  · rw [hothers fd hfd] at hmem
    cases hmem

/-- Another request finds a slot of which it is answered, and one of which it is not. -/
theorem not_sameAnswer (hne : r ≠ []) (hget : ¬ IsGet r) : ¬ SameAnswer files r := by
  rintro ⟨hr,hsame⟩
  have hfresh := rests_fresh
  have hnil : Run (Conn.Step (app files) 5) ⟨zeroEvent,false,none,[]⟩ [] _ := .nil
  obtain ⟨first₁,tail₁,hanswered₁,hfirst₁⟩ := hfresh.answered hnil hne hr
  have hother {m : List UInt8} (hm : m ≠ []) (hhandled : Handled m) : ∃ first tail,
      Answered files (fun fd => fd == 3) 3 5 r (some 1024) (first :: tail) ∧
        (first = [] ↔ methodAfter r (methodAfter m HTTP_METHOD_GET) ≠ HTTP_METHOD_GET ∧
          methodAfter m HTTP_METHOD_GET ≠ HTTP_METHOD_GET ∧ True) := by
    obtain ⟨acts,c,-,-,-,hrun,-,-,hrests⟩ := hfresh.visit hnil hm hhandled
    exact hrests.answered hrun hne hr
  by_cases hpost : IsPost r
  · obtain ⟨first₂,tail₂,hanswered₂,hfirst₂⟩ := hother (by decide) handled_samples.1
    have heq := hsame _ 3 5 _ _ _ rfl hanswered₁ hanswered₂
    obtain ⟨hhead,-⟩ := List.cons.inj heq
    rw [methodAfter_post hget hpost] at hfirst₁
    rw [methodAfter_get (by decide : IsGet sampleGet), ← hhead] at hfirst₂
    exact (hfirst₂.mp (hfirst₁.mpr ⟨by decide,trivial⟩)).2.1 rfl
  · obtain ⟨first₂,tail₂,hanswered₂,hfirst₂⟩ := hother (by decide) handled_samples.2
    have heq := hsame _ 3 5 _ _ _ rfl hanswered₁ hanswered₂
    obtain ⟨hhead,-⟩ := List.cons.inj heq
    rw [methodAfter_other hget hpost] at hfirst₁ hfirst₂
    rw [methodAfter_post (by decide : ¬ IsGet samplePost) (by decide), ← hhead] at hfirst₂
    exact (hfirst₁.mp (hfirst₂.mpr ⟨by decide,by decide,trivial⟩)).1 rfl

/-- Earlier connections have no influence exactly on the answers to GET requests. Those that fill the
buffer, and those without a blank at the sixth byte or behind it, have no determined answer. -/
theorem sameAnswer_iff (files : List UInt8 → Option (List UInt8)) {r : List UInt8} (hne : r ≠ []) :
    SameAnswer files r ↔ IsGet r ∧ r.length < BUFFER_LENGTH ∧ 32 ∈ (firstLine r).drop 5 := by
  constructor
  · intro hsame
    have hget : IsGet r := by
      by_contra hget
      exact not_sameAnswer hne hget hsame
    obtain ⟨hlt,hblank⟩ := handled_iff.mp hsame.handled
    exact ⟨hget,hlt,hblank hget⟩
  · rintro ⟨hget,hlt,hblank⟩
    exact sameAnswer_get (handled_iff.mpr ⟨hlt,fun _ => hblank⟩) hget

theorem sameAnswer_iff_get : SameAnswer (fun _ => none) sampleGet ↔
    IsGet sampleGet ∧ sampleGet.length < BUFFER_LENGTH ∧ 32 ∈ (firstLine sampleGet).drop 5 :=
  sameAnswer_iff _ (by decide)

/-- A POST request is not answered, unless its slot holds the reply to an earlier GET request. -/
theorem post_answered_stale : Handled samplePost ∧ ¬ SameAnswer (fun _ => none) samplePost :=
  ⟨handled_samples.2,not_sameAnswer (by decide) (by decide)⟩

end Requests
end ServerKit.Reactor.Http
