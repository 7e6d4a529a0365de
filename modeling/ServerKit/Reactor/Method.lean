import ServerKit.Reactor.Gets
import ServerKit.Reactor.Readline

/-! Which method `nty_http_request` takes from a request line: it looks for the names of the methods in
the whole line. -/
namespace ServerKit.Reactor.Http
open ServerKit.Lib

inductive Method
  | get
  | post
  deriving DecidableEq

namespace Method

def text : Method → List UInt8
  | .get => bytes "GET"
  | .post => bytes "POST"

/-- What `ev->method` should be. -/
def number : Method → ℕ
  | .get => HTTP_METHOD_GET
  | .post => HTTP_METHOD_POST

end Method

/-- A request line that is shorter than the buffer. -/
structure RequestLine where
  method : Method
  target : List UInt8
  starts : target.head? = some 47
  noSpace : 32 ∉ target
  isString : 0 ∉ target
  noEnd : ¬ [13,10] <:+: target
  fits : (method.text ++ 32 :: (target ++ 32 :: bytes "HTTP/1.1")).length < BUFFER_LENGTH

namespace RequestLine
variable (r : RequestLine)

def line : List UInt8 := r.method.text ++ 32 :: (r.target ++ 32 :: bytes "HTTP/1.1")

theorem zero_notMem_line : 0 ∉ r.line := by
  have hmethod : 0 ∉ r.method.text := by cases r.method <;> decide
  have hversion : 0 ∉ 32 :: bytes "HTTP/1.1" := by decide
  simp only [line, List.mem_append, List.mem_cons, not_or]
  refine ⟨hmethod,by decide,r.isString,by decide,?_⟩
  exact fun h => hversion (List.mem_cons_of_mem _ h)

theorem noEnd_line : ¬ [13,10] <:+: r.line := by
  have hmethod : ¬ [13,10] <:+: r.method.text := by cases r.method <;> decide
  have htarget : ¬ [13,10] <:+: r.target ++ 32 :: bytes "HTTP/1.1" :=
    not_pair_infix_append r.noEnd (by decide) (by decide)
  have hspace : ¬ [13,10] <:+: 32 :: (r.target ++ 32 :: bytes "HTTP/1.1") :=
    not_pair_infix_cons (fun h => absurd h.1 (by decide)) htarget
  exact not_pair_infix_append hmethod hspace (by decide : some (32 : UInt8) ≠ some 10)

/-- The line is read as a whole. -/
theorem firstLine_eq {buffer rest : List UInt8}
    (hbuffer : Lib.text buffer = Lib.text (r.line ++ [13,10] ++ rest)) : firstLine buffer = r.line := by
  have htext : Lib.text (r.line ++ [13,10] ++ rest) = r.line ++ 13 :: 10 :: Lib.text rest := by
    rw [text_append, List.append_assoc]
    · rfl
    · exact fun h => (List.mem_append.mp h).elim r.zero_notMem_line (by decide)
  have hsplit := splitPair_append (by decide) r.noEnd_line (Lib.text rest)
  rw [← htext, ← hbuffer] at hsplit
  unfold firstLine
  obtain ⟨l,hl,hread⟩ | ⟨l,hl,hread⟩ := readline_cases buffer 0
  · rw [List.drop_zero, hsplit, List.cons.injEq] at hl
    rw [hread, ← hl.1]
  · rw [List.drop_zero, hsplit, List.cons.injEq] at hl
    rw [hread, ← hl.1]

theorem infix_line_iff {needle : List UInt8} (hneedle : 32 ∉ needle) : needle <:+: r.line ↔
    needle <:+: r.method.text ∨ needle <:+: r.target ∨ needle <:+: bytes "HTTP/1.1" := by
  rw [line, infix_append_cons_iff hneedle, infix_append_cons_iff hneedle]

theorem isGet_iff {buffer rest : List UInt8}
    (hbuffer : Lib.text buffer = Lib.text (r.line ++ [13,10] ++ rest)) :
    IsGet buffer ↔ r.method = .get ∨ bytes "GET" <:+: r.target := by
  have hversion : ¬ bytes "GET" <:+: bytes "HTTP/1.1" := by decide
  have hmethod : bytes "GET" <:+: r.method.text ↔ r.method = .get := by cases r.method <;> decide
  rw [IsGet, r.firstLine_eq hbuffer, strstr, decide_eq_true_iff, r.infix_line_iff (by decide), hmethod,
    or_iff_left hversion]

theorem isPost_of_post {buffer rest : List UInt8}
    (hbuffer : Lib.text buffer = Lib.text (r.line ++ [13,10] ++ rest)) (hpost : r.method = .post) :
    IsPost buffer := by
  rw [IsPost, r.firstLine_eq hbuffer, strstr, decide_eq_true_iff, r.infix_line_iff (by decide), hpost]
  exact .inl List.infix_rfl

end RequestLine

/-- The method is the one of the request line if and only if that is GET, or the target has no `GET` in
it. -/
theorem method_iff (r : RequestLine) (rest : List UInt8) (ev : NtyEvent Fields)
    (hbuffer : text ev.buffer = text (r.line ++ [13,10] ++ rest)) :
    (ntyHttpRequest ev).ext.method = r.method.number ↔
      r.method = .get ∨ ¬ bytes "GET" <:+: r.target := by
  have hget := r.isGet_iff hbuffer
  rw [ntyHttpRequest_method]
  cases hmethod : r.method with
  | get => exact iff_of_true (if_pos (hget.mpr (.inl hmethod))) (.inl rfl)
  | post =>
    have hpost := r.isPost_of_post hbuffer hmethod
    have hneither : ¬ Method.post = .get := by decide
    rw [hmethod, or_iff_right hneither] at hget
    rw [or_iff_right hneither, ← hget, methodAfter, if_pos hpost]
    split
    · next h => exact iff_of_false (by decide) (not_not.mpr h)
    · next h => exact iff_of_true rfl h

/-- A POST request for a page. -/
def postPage : RequestLine where
  method := .post
  target := bytes "/index.html"
  starts := rfl
  noSpace := by decide
  isString := by decide
  noEnd := by decide
  fits := by decide

/-- A slot that has served a GET request before. -/
theorem method_iff_page : (ntyHttpRequest { (zeroEvent : NtyEvent Fields) with
    buffer := postPage.line ++ [13,10] }).ext.method = HTTP_METHOD_POST :=
  (method_iff postPage [] _ rfl).mpr (.inr (by decide))

/-- A POST request whose target has `GET` in it. -/
def postWidgets : RequestLine where
  method := .post
  target := bytes "/WIDGETS"
  starts := rfl
  noSpace := by decide
  isString := by decide
  noEnd := by decide
  fits := by decide

theorem method_mistaken : (ntyHttpRequest { (zeroEvent : NtyEvent Fields) with
    buffer := postWidgets.line ++ [13,10] }).ext.method = HTTP_METHOD_GET ∧
      postWidgets.method.number ≠ HTTP_METHOD_GET := by
  decide

end ServerKit.Reactor.Http
