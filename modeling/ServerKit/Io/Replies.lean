import ServerKit.Io.Select
import ServerKit.Lib.Overlay

/-! What `server_selete.c` writes for a chunk: the text in a buffer that nobody clears, so that a client may
get what another one has sent. -/
namespace ServerKit.Io.Select
open Function ServerKit.Lib

/-- The buffer has the chunks one over the other, and each reply is the text that is in it then. -/
structure Written (buf : List UInt8) (s : State) : Prop where
  now : s.place ≠ .overrun → s.buf = overlay buf (s.answers.map Answer.chunk)
  replies : ∀ before a after, s.answers = before ++ a :: after →
    a.reply = text (overlay buf ((before ++ [a]).map Answer.chunk)) ++ [0]

section Steps
variable {lfd : ℕ} {buf : List UInt8} {s s' : State} {temp : ℕ → Bool} {i : ℕ}

theorem Written.congr (h : Written buf s) (hbuf : s'.buf = s.buf) (hanswers : s'.answers = s.answers)
    (hplace : s'.place ≠ .overrun → s.place ≠ .overrun) : Written buf s' := by
  refine ⟨fun hne => ?_,?_⟩
  · rw [hbuf, hanswers]
    exact h.now (hplace hne)
  · rw [hanswers]
    exact h.replies

/-- One more chunk is written over the others, and answered. -/
theorem Written.received (h : Written buf s) (hplace : s.place = .loop temp i) (count : ℕ) (took : Option ℕ) :
    Written buf (received s temp i count took) := by
  have hrunning : s.place ≠ .overrun := by
    rw [hplace]
    nofun
  have hbuf := h.now hrunning
  unfold Select.received
  split
  · exact h.congr rfl rfl fun _ => hrunning
  · have hreceives := (s.streams i).receives count
    generalize (s.streams i).recv count = result at hreceives
    cases hreceives with
    | again => exact h.congr rfl rfl fun _ => hrunning
    | closed => exact h.congr rfl rfl fun _ => hrunning
    | failed => exact h.congr rfl rfl fun _ => hrunning
    | data =>
      generalize (s.streams i).unread.take count = chunk
      have hover : chunk ++ s.buf.drop chunk.length = overlay buf ((s.answers.map Answer.chunk) ++ [chunk]) := by
        rw [overlay_snoc, hbuf]
      dsimp only
      unfold wrote
      split
      · refine ⟨fun _ => ?_,fun before a after heq => ?_⟩
        · dsimp only
          rw [List.map_append, hover]
          rfl
        · cases after using List.reverseRecOn with
          | nil =>
            obtain ⟨rfl,ha⟩ := List.append_inj' heq rfl
            obtain rfl := (List.cons.inj ha).1
            rw [List.map_append, List.map_singleton]
            exact congrArg (fun array => text array ++ [0]) hover
          | append_singleton after last =>
            rw [← List.cons_append, ← List.append_assoc] at heq
            exact h.replies before a after (List.append_inj' heq rfl).1
      · exact ⟨fun hne => absurd rfl hne,h.replies⟩

theorem Written.step (h : Written buf s) {a : Action} (hstep : Step lfd s a s') : Written buf s' := by
  have hloop {place : Place} (hplace : s.place = place) (hne : place ≠ .overrun) : s.place ≠ .overrun :=
    hplace.trans_ne hne
  cases hstep with
  | connect => exact h.congr rfl rfl id
  | queued => exact h.congr rfl rfl id
  | arrive => exact h.congr rfl rfl id
  | select hplace => exact h.congr rfl rfl fun _ => hloop hplace nofun
  | unready hplace => exact h.congr rfl rfl fun _ => hloop hplace nofun
  | skip hplace => exact h.congr rfl rfl fun _ => hloop hplace nofun
  | again hplace => exact h.congr rfl rfl fun _ => hloop hplace nofun
  | recv hplace => exact h.received hplace _ _
  | @accept temp cfd hplace =>
    have hne := hloop hplace nofun
    unfold accepted
    cases cfd with
    | none => exact h.congr rfl rfl fun _ => hne
    | some cfd =>
      dsimp only
      split
      · exact h.congr rfl rfl fun _ => hne
      · exact h.congr rfl rfl fun _ => hne

end Steps

section Runs
variable {opened : ℕ → Bool} {lfd : ℕ} {buf : List UInt8} {as : List Action} {s : State}

theorem start_written : Written buf (start opened lfd buf) := by
  refine ⟨fun _ => rfl,fun before a after heq => ?_⟩
  cases before <;> cases heq

/-- The reply to a chunk is the text that is left when the chunks of all clients so far, this one last, are
written one over the other into the buffer. -/
theorem replies_overlay (h : Run (Step lfd) (start opened lfd buf) as s) {before after : List Answer}
    {a : Answer} (heq : s.answers = before ++ a :: after) :
    a.reply = text (overlay buf ((before ++ [a]).map Answer.chunk)) ++ [0] :=
  (h.invariant start_written fun _ _ _ hs hstep => hs.step hstep).replies before a after heq

/-- All clients get back just what they have sent, with a zero behind it, exactly if no chunk has a zero, none is
shorter than a chunk of any client before it, and the stack had zeros where the chunks end. -/
theorem replies_iff (h : Run (Step lfd) (start opened lfd buf) as s) :
    (∀ a ∈ s.answers, a.reply = a.chunk ++ [0]) ↔
      (∀ a ∈ s.answers, 0 ∉ a.chunk) ∧
      s.answers.Pairwise (fun a a' => a.chunk.length ≤ a'.chunk.length) ∧
      ∀ a ∈ s.answers, buf.getD a.chunk.length 0 = 0 := by
  have hoverlay := overlay_texts_iff buf (s.answers.map Answer.chunk)
  rw [List.forall_mem_map, List.forall_mem_map, List.pairwise_map] at hoverlay
  rw [← hoverlay]
  constructor
  · intro hall before chunk after heq
    obtain ⟨before,rest,hanswers,rfl,hrest⟩ := List.map_eq_append_iff.mp heq
    obtain ⟨a,after,rfl,rfl,rfl⟩ := List.map_eq_cons_iff.mp hrest
    have hreply := hall a (hanswers ▸ List.mem_append_right _ List.mem_cons_self)
    rw [replies_overlay h hanswers, List.map_append, List.map_singleton] at hreply
    exact List.append_cancel_right hreply
  · intro htexts a ha
    obtain ⟨before,after,hanswers⟩ := List.append_of_mem ha
    rw [replies_overlay h hanswers, List.map_append, List.map_singleton]
    rw [htexts (before.map Answer.chunk) a.chunk (after.map Answer.chunk)]
    rw [hanswers, List.map_append, List.map_cons]

/-- A client sends two bytes, and one byte after the reply. -/
theorem two_chunks : ∃ as s,
    Run (Step 3) (start (fun fd => decide (fd ≤ 3)) 3 (List.replicate BUF_SIZE 0)) as s ∧
      s.answers.map Answer.chunk = [[1,2],[3]] := by
  obtain ⟨as,hrun⟩ := reached_oneClient (List.replicate BUF_SIZE 0)
  have hfirst := hrun.snoc (show Step _ _ (.arrive 4 (.bytes [1,2])) _ from .arrive (by decide) rfl)
  have hselect := (hfirst.snoc (.select rfl (show State.selected _ 3 4 = true from rfl))).snoc (.unready rfl rfl)
  have hrecv := hselect.snoc (show Step _ _ (.recv 1024 (some 3)) _ from
    .recv rfl (show 4 < 5 by decide) rfl (by decide) (by decide) (.inr (.inl (List.cons_ne_nil _ _))) nofun)
  have hagain := hrecv.snoc (.again rfl (show ¬5 < 5 by decide))
  have hsecond := hagain.snoc (show Step _ _ (.arrive 4 (.bytes [3])) _ from .arrive (by decide) rfl)
  have hselect' := (hsecond.snoc (.select rfl (show State.selected _ 3 4 = true from rfl))).snoc (.unready rfl rfl)
  have hrecv' := hselect'.snoc (show Step _ _ (.recv 1024 (some 3)) _ from
    .recv rfl (show 4 < 5 by decide) rfl (by decide) (by decide) (.inr (.inl (List.cons_ne_nil _ _))) nofun)
  exact ⟨_,_,hrecv',rfl⟩

/-- The second reply is wrong. -/
theorem replies_iff_two : ∃ as s,
    Run (Step 3) (start (fun fd => decide (fd ≤ 3)) 3 (List.replicate BUF_SIZE 0)) as s ∧
      ¬∀ a ∈ s.answers, a.reply = a.chunk ++ [0] := by
  obtain ⟨as,s,hrun,hchunks⟩ := two_chunks
  refine ⟨as,s,hrun,fun hall => ?_⟩
  have hsorted := ((replies_iff hrun).mp hall).2.1
  rw [← List.pairwise_map (f := Answer.chunk) (R := fun c c' => c.length ≤ c'.length), hchunks] at hsorted
  exact absurd hsorted (by decide)

end Runs
end ServerKit.Io.Select
