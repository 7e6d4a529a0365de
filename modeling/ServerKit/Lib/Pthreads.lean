import Mathlib.Logic.Function.Basic
import ServerKit.Lib.Logged
import ServerKit.Lib.Monitor
import ServerKit.Lib.Transition

/-! Threads that run the code of their places one statement at a time, with mutexes and condition
variables. Which mutexes a thread is inside of, that is between its lock and its unlock, is kept beside
the mutexes themselves. If the code says for every place what a thread has locked there, then no two
threads are ever inside of one mutex. -/
namespace ServerKit.Lib.Pthreads
open Function

/-- The statement at a place, with the place behind it. -/
inductive Instr (σ ε M C L : Type)
  /-- it reads and writes the memory, and its value is where the thread goes on -/
  | act (p : Logged σ ε L)
  /-- it goes on at one of several places -/
  | choose (next : L → Prop)
  | lock (m : M) (next : L)
  | unlock (m : M) (next : L)
  | wait (c : C) (m : M) (next : L)
  | signal (c : C) (next : L)
  | broadcast (c : C) (next : L)
  /-- `pthread_create`, which stores the number of the new thread -/
  | spawn (start : L) (store : ℕ → Logged σ ε L)
  | exit

inductive Status (M C L : Type)
  | running (l : L)
  | waiting (c : C) (m : M) (next : L)
  /-- woken up, before it has the mutex again -/
  | woken (m : M) (next : L)
  | exited

structure Thread (M C L : Type) where
  status : Status M C L
  inside : M → Bool

structure Config (σ M C L : Type) where
  mem : σ
  locked : M → Bool
  threads : List (Thread M C L)

inductive Label
  | run (i : ℕ)
  /-- a thread is woken up without a signal -/
  | wake (i : ℕ)

variable {σ ε M C L : Type}

/-- The place at which a thread is, or at which it goes on. -/
def Status.place : Status M C L → Option L
  | .running l => some l
  | .waiting _ _ next => some next
  | .woken _ next => some next
  | .exited => none

/-- What a signal for `c` does to a thread. -/
def Thread.wake [DecidableEq C] (c : C) : Thread M C L → Option (Thread M C L)
  | ⟨.waiting c' m next,h⟩ => if c' = c then some ⟨.woken m next,h⟩ else none
  | _ => none

/-- What a broadcast for `c` does to a thread. -/
def Thread.rouse [DecidableEq C] (c : C) (t : Thread M C L) : Thread M C L := (t.wake c).getD t

/-- A step of one thread. A signal comes after the thread has gone on. -/
inductive Step [DecidableEq M] [DecidableEq C] (code : ℕ → L → Instr σ ε M C L) (s : Config σ M C L) :
    Label → Config σ M C L → Prop
  | act {i l h p} (hi : s.threads[i]? = some ⟨.running l,h⟩) (hcode : code i l = .act p) :
      Step code s (.run i) ⟨p.state s.mem,s.locked,s.threads.set i ⟨.running (p.val s.mem),h⟩⟩
  | choose {i l h next l'} (hi : s.threads[i]? = some ⟨.running l,h⟩) (hcode : code i l = .choose next)
      (hl' : next l') : Step code s (.run i) ⟨s.mem,s.locked,s.threads.set i ⟨.running l',h⟩⟩
  | lock {i l h m next} (hi : s.threads[i]? = some ⟨.running l,h⟩) (hcode : code i l = .lock m next)
      (hfree : s.locked m = false) : Step code s (.run i)
        ⟨s.mem,update s.locked m true,s.threads.set i ⟨.running next,update h m true⟩⟩
  | unlock {i l h m next} (hi : s.threads[i]? = some ⟨.running l,h⟩) (hcode : code i l = .unlock m next) :
      Step code s (.run i)
        ⟨s.mem,update s.locked m false,s.threads.set i ⟨.running next,update h m false⟩⟩
  | wait {i l h c m next} (hi : s.threads[i]? = some ⟨.running l,h⟩) (hcode : code i l = .wait c m next) :
      Step code s (.run i)
        ⟨s.mem,update s.locked m false,s.threads.set i ⟨.waiting c m next,update h m false⟩⟩
  | signal {i l h c next threads} (hi : s.threads[i]? = some ⟨.running l,h⟩)
      (hcode : code i l = .signal c next)
      (hsignal : Signal (Thread.wake c) (s.threads.set i ⟨.running next,h⟩) threads) :
      Step code s (.run i) ⟨s.mem,s.locked,threads⟩
  | broadcast {i l h c next} (hi : s.threads[i]? = some ⟨.running l,h⟩)
      (hcode : code i l = .broadcast c next) : Step code s (.run i)
        ⟨s.mem,s.locked,(s.threads.set i ⟨.running next,h⟩).map (Thread.rouse c)⟩
  | spawn {i l h start store} (hi : s.threads[i]? = some ⟨.running l,h⟩)
      (hcode : code i l = .spawn start store) : Step code s (.run i)
        ⟨(store s.threads.length).state s.mem,s.locked,
          s.threads.set i ⟨.running ((store s.threads.length).val s.mem),h⟩ ++
            [⟨.running start,fun _ => false⟩]⟩
  | exit {i l h} (hi : s.threads[i]? = some ⟨.running l,h⟩) (hcode : code i l = .exit) :
      Step code s (.run i) ⟨s.mem,s.locked,s.threads.set i ⟨.exited,h⟩⟩
  | wake {i c m next h} (hi : s.threads[i]? = some ⟨.waiting c m next,h⟩) :
      Step code s (.wake i) ⟨s.mem,s.locked,s.threads.set i ⟨.woken m next,h⟩⟩
  | relock {i m next h} (hi : s.threads[i]? = some ⟨.woken m next,h⟩) (hfree : s.locked m = false) :
      Step code s (.run i)
        ⟨s.mem,update s.locked m true,s.threads.set i ⟨.running next,update h m true⟩⟩

/-- The place at which the thread `i` is, unless it has exited. -/
def Config.place (s : Config σ M C L) (i : ℕ) : Option L := s.threads[i]?.bind (·.status.place)

/-- Where a statement leads to, and to which memory, when the next thread has the number `n`. -/
inductive Instr.Leads (n : ℕ) (mem : σ) : Instr σ ε M C L → L → σ → Prop
  | act {p} : Leads n mem (.act p) (p.val mem) (p.state mem)
  | choose {next l} (hl : next l) : Leads n mem (.choose next) l mem
  | lock {m next} : Leads n mem (.lock m next) next mem
  | unlock {m next} : Leads n mem (.unlock m next) next mem
  | wait {c m next} : Leads n mem (.wait c m next) next mem
  | signal {c next} : Leads n mem (.signal c next) next mem
  | broadcast {c next} : Leads n mem (.broadcast c next) next mem
  | spawn {start store} : Leads n mem (.spawn start store) ((store n).val mem) ((store n).state mem)

/-- Where a thread starts that the statement creates. -/
def Instr.starts : Instr σ ε M C L → Option L
  | .spawn start _ => some start
  | _ => none

/-- At most one thread is inside of the mutex. -/
def Config.Exclusive (s : Config σ M C L) (m : M) : Prop := s.threads.countP (·.inside m) ≤ 1

/-- If the step is an unlock of the mutex, then it is made by a thread that is inside of it. -/
def UnlocksOwn (code : ℕ → L → Instr σ ε M C L) (m : M) (s : Config σ M C L) : Label → Prop
  | .run i => ∀ l h next, s.threads[i]? = some ⟨.running l,h⟩ → code i l = .unlock m next → h m = true
  | .wake _ => True

/-- The thread is at one of the places `bad`, and runs. -/
def RunsAt (bad : L → Prop) (s : Config σ M C L) : Label → Prop
  | .run i => ∃ l h, s.threads[i]? = some ⟨.running l,h⟩ ∧ bad l
  | .wake _ => False

/-- What a step does to the places of the threads: none changes, or a thread goes on, which may start another
one, or it exits. -/
inductive Moves (code : ℕ → L → Instr σ ε M C L) (s : Config σ M C L) : Label → Config σ M C L → Prop
  | silent {label s'} (hmem : s'.mem = s.mem) (hplace : ∀ j, s'.place j = s.place j) : Moves code s label s'
  | goes {i l g l' s'} (hi : s.threads[i]? = some ⟨.running l,g⟩)
      (hleads : (code i l).Leads s.threads.length s.mem l' s'.mem) (hplace : s'.place i = some l')
      (hothers : ∀ j, j ≠ i → s'.place j = s.place j ∨
        j = s.threads.length ∧ s'.place j = (code i l).starts) : Moves code s (.run i) s'
  | exits {i l g s'} (hi : s.threads[i]? = some ⟨.running l,g⟩) (hcode : code i l = .exit)
      (hmem : s'.mem = s.mem) (hplace : s'.place i = none) (hothers : ∀ j, j ≠ i → s'.place j = s.place j) :
      Moves code s (.run i) s'

section Places
variable {code : ℕ → L → Instr σ ε M C L} {s s' : Config σ M C L} {i j : ℕ} {label : Label}

theorem place_eq {t : Thread M C L} (hi : s.threads[i]? = some t) : s.place i = t.status.place := by
  rw [Config.place, hi]
  rfl

theorem place_set (mem : σ) (locked : M → Bool) {t : Thread M C L} (hi : s.threads[i]? = some t)
    (t' : Thread M C L) (j : ℕ) : (⟨mem,locked,s.threads.set i t'⟩ : Config σ M C L).place j =
      if j = i then t'.status.place else s.place j := by
  have hlt := (List.getElem?_eq_some_iff.mp hi).1
  unfold Config.place
  dsimp only
  split
  · next heq =>
    rw [heq, List.getElem?_set_self hlt]
    rfl
  · next hne => rw [List.getElem?_set_ne (Ne.symm hne)]

/-- A thread that goes on, while no other one moves. -/
theorem Moves.going {l l' : L} {g : M → Bool} {t' : Thread M C L} {mem : σ} {locked : M → Bool}
    (hi : s.threads[i]? = some ⟨.running l,g⟩) (hleads : (code i l).Leads s.threads.length s.mem l' mem)
    (hplace : t'.status.place = some l') :
    Moves code s (.run i) ⟨mem,locked,s.threads.set i t'⟩ := by
  refine .goes hi hleads ?_ fun j hj => .inl ?_
  · rw [place_set mem locked hi, if_pos rfl, hplace]
  · rw [place_set mem locked hi, if_neg hj]

/-- A thread that stays where it is. -/
theorem Moves.staying {t t' : Thread M C L} {locked : M → Bool} (hi : s.threads[i]? = some t)
    (hplace : t'.status.place = t.status.place) :
    Moves code s label ⟨s.mem,locked,s.threads.set i t'⟩ := by
  refine .silent rfl fun j => ?_
  rw [place_set s.mem locked hi]
  split
  · next heq => rw [heq, hplace, place_eq hi]
  · rfl

/-- A thread that a signal wakes waits for it. -/
theorem wake_eq [DecidableEq C] {c : C} {t t' : Thread M C L} (h : t.wake c = some t') :
    ∃ m next g, t = ⟨.waiting c m next,g⟩ ∧ t' = ⟨.woken m next,g⟩ := by
  obtain ⟨status,g⟩ := t
  cases status with
  | waiting c' m next =>
    rw [Thread.wake] at h
    split at h
    · next hc =>
      cases h
      exact ⟨m,next,g,by rw [hc],rfl⟩
    · cases h
  | running | woken | exited => cases h

theorem wake_place [DecidableEq C] {c : C} {t t' : Thread M C L} (h : t.wake c = some t') :
    t'.status.place = t.status.place := by
  obtain ⟨m,next,g,rfl,rfl⟩ := wake_eq h
  rfl

theorem rouse_place [DecidableEq C] (c : C) (t : Thread M C L) :
    (t.rouse c).status.place = t.status.place := by
  unfold Thread.rouse
  cases hwake : t.wake c with
  | none => rfl
  | some t' => exact wake_place hwake

theorem roused_place [DecidableEq C] (c : C) (mem : σ) (locked : M → Bool) (threads : List (Thread M C L))
    (j : ℕ) : (⟨mem,locked,threads.map (Thread.rouse c)⟩ : Config σ M C L).place j =
      (⟨mem,locked,threads⟩ : Config σ M C L).place j := by
  unfold Config.place
  dsimp only
  rw [List.getElem?_map]
  cases threads[j]? with
  | none => rfl
  | some t => exact rouse_place c t

theorem signalled_place [DecidableEq C] {c : C} {t t' : Thread M C L} {mem : σ} {locked : M → Bool}
    {threads : List (Thread M C L)} (hi : threads[i]? = some t) (h : t.wake c = some t') (j : ℕ) :
    (⟨mem,locked,threads.set i t'⟩ : Config σ M C L).place j =
      (⟨mem,locked,threads⟩ : Config σ M C L).place j := by
  have hset := place_set (s := ⟨mem,locked,threads⟩) mem locked hi t' j
  rw [hset]
  split
  · next heq => rw [heq, wake_place h, place_eq (s := ⟨mem,locked,threads⟩) hi]
  · rfl

theorem place_append (mem : σ) (locked : M → Bool) (threads : List (Thread M C L)) (t : Thread M C L)
    (j : ℕ) : (⟨mem,locked,threads ++ [t]⟩ : Config σ M C L).place j =
      if j = threads.length then t.status.place else (⟨mem,locked,threads⟩ : Config σ M C L).place j := by
  unfold Config.place
  dsimp only
  split
  · next heq =>
    rw [heq, List.getElem?_append_right le_rfl, Nat.sub_self]
    rfl
  · next hne =>
    obtain hlt | hge := Nat.lt_or_ge j threads.length
    · rw [List.getElem?_append_left hlt]
    · have hle : (threads ++ [t]).length ≤ j := by
        rw [List.length_append, List.length_singleton]
        omega
      rw [List.getElem?_eq_none hge, List.getElem?_eq_none hle]

theorem Step.moves [DecidableEq M] [DecidableEq C] (h : Step code s label s') : Moves code s label s' := by
  cases h with
  | act hi hcode => exact .going hi (hcode ▸ .act) rfl
  | choose hi hcode hl' => exact .going hi (hcode ▸ .choose hl') rfl
  | lock hi hcode => exact .going hi (hcode ▸ .lock) rfl
  | unlock hi hcode => exact .going hi (hcode ▸ .unlock) rfl
  | wait hi hcode => exact .going hi (hcode ▸ .wait) rfl
  | @signal i l g c next threads hi hcode hsignal =>
    have hgone := place_set s.mem s.locked hi ⟨.running next,g⟩
    have hplace (j : ℕ) : (⟨s.mem,s.locked,threads⟩ : Config σ M C L).place j =
        if j = i then some next else s.place j := by
      cases hsignal with
      | woken hk hwake => exact (signalled_place hk hwake j).trans (hgone j)
      | lost => exact hgone j
    have hleads : (code i l).Leads s.threads.length s.mem next s.mem := hcode ▸ .signal
    refine .goes hi hleads ?_ fun j hj => .inl ?_
    · rw [hplace, if_pos rfl]
    · rw [hplace, if_neg hj]
  | @broadcast i l g c next hi hcode =>
    have hgone := place_set s.mem s.locked hi ⟨.running next,g⟩
    have hplace (j : ℕ) := (roused_place c s.mem s.locked _ j).trans (hgone j)
    have hleads : (code i l).Leads s.threads.length s.mem next s.mem := hcode ▸ .broadcast
    refine .goes hi hleads ?_ fun j hj => .inl ?_
    · rw [hplace, if_pos rfl]
      rfl
    · rw [hplace, if_neg hj]
  | @spawn i l g start store hi hcode =>
    have hlt := (List.getElem?_eq_some_iff.mp hi).1
    have hleads : (code i l).Leads s.threads.length s.mem ((store s.threads.length).val s.mem)
        ((store s.threads.length).state s.mem) := hcode ▸ .spawn
    refine .goes hi hleads ?_ fun j hj => ?_
    · rw [place_append, List.length_set, if_neg hlt.ne, place_set _ _ hi, if_pos rfl]
      rfl
    · rw [place_append, List.length_set, place_set _ _ hi, if_neg hj, hcode]
      split
      · next hnew => exact .inr ⟨hnew,rfl⟩
      · exact .inl rfl
  | exit hi hcode =>
    refine .exits hi hcode rfl ?_ fun j hj => ?_
    · rw [place_set _ _ hi, if_pos rfl]
      rfl
    · rw [place_set _ _ hi, if_neg hj]
  | wake hi => exact .staying hi rfl
  | relock hi => exact .staying hi rfl

/-- A thread that does not run goes on behind a wait. -/
def Thread.Resumes (code : ℕ → L → Instr σ ε M C L) : Thread M C L → Prop
  | ⟨.waiting _ _ next,_⟩ => ∃ i l c m, code i l = .wait c m next
  | ⟨.woken _ next,_⟩ => ∃ i l c m, code i l = .wait c m next
  | _ => True

theorem wake_resumes [DecidableEq C] {c : C} {t t' : Thread M C L} (h : t.wake c = some t')
    (ht : t.Resumes code) : t'.Resumes code := by
  obtain ⟨m,next,g,rfl,rfl⟩ := wake_eq h
  exact ht

theorem Step.resumes [DecidableEq M] [DecidableEq C] (h : ∀ t ∈ s.threads, t.Resumes code)
    (hstep : Step code s label s') : ∀ t ∈ s'.threads, t.Resumes code := by
  have hset {threads : List (Thread M C L)} (hall : ∀ t ∈ threads, t.Resumes code) (i : ℕ)
      {u : Thread M C L} (hu : u.Resumes code) : ∀ t ∈ threads.set i u, t.Resumes code := by
    intro t ht
    obtain ht | rfl := List.mem_or_eq_of_mem_set ht
    · exact hall t ht
    · exact hu
  cases hstep with
  | act | choose | lock | unlock | exit | relock => exact hset h _ trivial
  | wait hi hcode => exact hset h _ ⟨_,_,_,_,hcode⟩
  | @signal i l g c next threads hi hcode hsignal =>
    have hgone := hset h i (u := ⟨.running next,g⟩) trivial
    cases hsignal with
    | woken hk hwake => exact hset hgone _ (wake_resumes hwake (hgone _ (List.mem_of_getElem? hk)))
    | lost => exact hgone
  | @broadcast i l g c next hi hcode =>
    have hgone := hset h i (u := ⟨.running next,g⟩) trivial
    intro t ht
    obtain ⟨u,hu,rfl⟩ := List.mem_map.mp ht
    unfold Thread.rouse
    cases hwake : u.wake c with
    | none => exact hgone u hu
    | some t' => exact wake_resumes hwake (hgone u hu)
  | @spawn i l g start store hi hcode =>
    intro t ht
    obtain ht | ht := List.mem_append.mp ht
    · exact hset h i (u := ⟨.running ((store s.threads.length).val s.mem),g⟩) trivial t ht
    · rw [List.mem_singleton.mp ht]
      trivial
  | wake hi =>
    have hwaits := h _ (List.mem_of_getElem? hi)
    exact hset h _ hwaits

theorem rouse_status [DecidableEq C] (c : C) (m : M) (next : L) (t : Thread M C L) :
    (t.rouse c).status ≠ .waiting c m next := by
  unfold Thread.rouse
  cases hwake : t.wake c with
  | some t' =>
    obtain ⟨m',next',g,-,rfl⟩ := wake_eq hwake
    exact nofun
  | none =>
    intro hstatus
    obtain ⟨status,g⟩ := t
    obtain rfl : status = _ := hstatus
    rw [Thread.wake, if_pos rfl] at hwake
    cases hwake

/-- The step broadcasts `c`. -/
def Broadcasts (code : ℕ → L → Instr σ ε M C L) (c : C) (s : Config σ M C L) (label : Label) : Prop :=
  ∃ i l g next, label = .run i ∧ s.threads[i]? = some ⟨.running l,g⟩ ∧ code i l = .broadcast c next

/-- A thread that waits has waited before, without a broadcast, or it has come to a wait. -/
theorem Step.waits [DecidableEq M] [DecidableEq C] (h : Step code s label s') {c : C} {m : M} {next : L}
    {t' : Thread M C L} (ht' : t' ∈ s'.threads) (hwaits : t'.status = .waiting c m next) :
    (∃ t ∈ s.threads, t.status = .waiting c m next) ∧ ¬ Broadcasts code c s label ∨
      ∃ i l, s.place i = some l ∧ code i l = .wait c m next := by
  have hother {i : ℕ} {l : L} {g : M → Bool} {instr : Instr σ ε M C L}
      (hi : s.threads[i]? = some ⟨.running l,g⟩) (hcode : code i l = instr)
      (hne : ∀ next, instr ≠ .broadcast c next) : ¬ Broadcasts code c s (.run i) := by
    rintro ⟨_,_,_,next',⟨⟩,hi',hcode'⟩
    cases hi.symm.trans hi'
    exact hne next' (hcode.symm.trans hcode')
  have hset {threads : List (Thread M C L)} {i : ℕ} {u : Thread M C L}
      (hmem : t' ∈ threads.set i u) (hu : u.status ≠ .waiting c m next) : t' ∈ threads := by
    obtain hmem | rfl := List.mem_or_eq_of_mem_set hmem
    · exact hmem
    · exact absurd hwaits hu
  cases h with
  | act hi hcode | choose hi hcode | lock hi hcode | unlock hi hcode | exit hi hcode =>
    exact .inl ⟨⟨t',hset ht' nofun,hwaits⟩,hother hi hcode nofun⟩
  | wait hi hcode =>
    obtain hmem | rfl := List.mem_or_eq_of_mem_set ht'
    · exact .inl ⟨⟨t',hmem,hwaits⟩,hother hi hcode nofun⟩
    · cases hwaits
      exact .inr ⟨_,_,place_eq hi,hcode⟩
  | signal hi hcode hsignal =>
    refine .inl ⟨⟨t',?_,hwaits⟩,hother hi hcode nofun⟩
    cases hsignal with
    | woken hk hwake =>
      obtain ⟨_,_,_,-,rfl⟩ := wake_eq hwake
      exact hset (hset ht' nofun) nofun
    | lost => exact hset ht' nofun
  | @broadcast i l g c' next' hi hcode =>
    obtain ⟨u,hu,rfl⟩ := List.mem_map.mp ht'
    have hne : c' ≠ c := by
      rintro rfl
      exact rouse_status c' m next u hwaits
    -- it is not woken by this broadcast
    have hsame : u.rouse c' = u := by
      unfold Thread.rouse at hwaits ⊢
      cases hwake : u.wake c' with
      | none => rfl
      | some u' =>
        obtain ⟨_,_,_,-,rfl⟩ := wake_eq hwake
        rw [hwake] at hwaits
        cases hwaits
    rw [hsame] at hwaits
    have hmem : u ∈ s.threads := by
      obtain hmem | rfl := List.mem_or_eq_of_mem_set hu
      · exact hmem
      · cases hwaits
    refine .inl ⟨⟨u,hmem,hwaits⟩,hother hi hcode fun next'' heq => ?_⟩
    cases heq
    exact hne rfl
  | spawn hi hcode =>
    refine .inl ⟨⟨t',?_,hwaits⟩,hother hi hcode nofun⟩
    obtain hmem | hnew := List.mem_append.mp ht'
    · exact hset hmem nofun
    · rw [List.mem_singleton.mp hnew] at hwaits
      cases hwaits
  | wake hi | relock hi =>
    refine .inl ⟨⟨t',hset ht' nofun,hwaits⟩,?_⟩
    rintro ⟨_,_,_,_,heq,hi',-⟩
    cases heq <;> cases hi.symm.trans hi'

theorem Step.length_le [DecidableEq M] [DecidableEq C] (h : Step code s label s') :
    s.threads.length ≤ s'.threads.length := by
  cases h with
  | act | choose | lock | unlock | wait | exit | wake | relock => exact (List.length_set ..).ge
  | signal hi hcode hsignal =>
    cases hsignal with
    | woken => simp only [List.length_set, le_refl]
    | lost => exact (List.length_set ..).ge
  | broadcast => simp only [List.length_map, List.length_set, le_refl]
  | spawn => simp only [List.length_append, List.length_set, List.length_singleton, Nat.le_succ]

/-- Two threads inside of one mutex are one thread. -/
theorem Config.Exclusive.unique {m : M} {t t' : Thread M C L} (h : s.Exclusive m)
    (hi : s.threads[i]? = some t) (hj : s.threads[j]? = some t') (ht : t.inside m = true)
    (ht' : t'.inside m = true) : i = j := by
  by_contra hne
  -- without the first one there is none
  have hset := countP_set_getElem? (p := fun t => t.inside m) (b := ⟨.exited,fun _ => false⟩) hi
  have hj' : (s.threads.set i ⟨.exited,fun _ => false⟩)[j]? = some t' := by
    rw [List.getElem?_set_ne hne, hj]
  have hpos : 0 < (s.threads.set i ⟨.exited,fun _ => false⟩).countP (·.inside m) :=
    List.countP_pos_iff.mpr ⟨t',List.mem_of_getElem? hj',ht'⟩
  have hle : s.threads.countP (·.inside m) ≤ 1 := h
  rw [ht] at hset
  simp only [Bool.toNat_true, Bool.toNat_false] at hset
  omega

end Places

variable [DecidableEq M]

/-- The statement at a place where the mutexes in `here` are locked leads to places where as many are locked
as it leaves. A `bad` one may unlock what is not locked. -/
def Instr.Disciplined (owned : L → M → Bool) (bad : Prop) (here : M → Bool) : Instr σ ε M C L → Prop
  | .act p => ∀ s, owned (p.val s) = here
  | .choose next => ∀ l, next l → owned l = here
  | .lock m next => owned next = update here m true
  | .unlock m next => ¬ bad → here m = true ∧ owned next = update here m false
  | .wait _ m next => here m = true ∧ owned next = here
  | .signal _ next => owned next = here
  | .broadcast _ next => owned next = here
  | .spawn start store => (owned start = fun _ => false) ∧ ∀ n s, owned ((store n).val s) = here
  | .exit => here = fun _ => false

/-- At the place `l` a thread has locked the mutexes in `owned l`. -/
def Disciplined (code : ℕ → L → Instr σ ε M C L) (owned : L → M → Bool) (bad : L → Prop) : Prop :=
  ∀ i l, (code i l).Disciplined owned (bad l) (owned l)

/-- The thread is inside of the mutexes that its place says; while it waits it is not inside of that which
it has given up. -/
def Thread.Fits (owned : L → M → Bool) : Thread M C L → Prop
  | ⟨.running l,h⟩ => h = owned l
  | ⟨.waiting _ m next,h⟩ => h m = false ∧ owned next = update h m true
  | ⟨.woken m next,h⟩ => h m = false ∧ owned next = update h m true
  | ⟨.exited,h⟩ => h = fun _ => false

/-- A mutex is locked by one thread that is inside of it. -/
structure Owns (owned : L → M → Bool) (s : Config σ M C L) : Prop where
  fits : ∀ t ∈ s.threads, t.Fits owned
  single : ∀ m, s.threads.countP (·.inside m) = (s.locked m).toNat

section Owns
variable {code : ℕ → L → Instr σ ε M C L} {owned : L → M → Bool} {bad : L → Prop} {s s' : Config σ M C L}
  {i : ℕ} {t t' : Thread M C L} {label : Label} {m : M}

theorem Owns.exclusive (h : Owns owned s) (m : M) : s.Exclusive m :=
  (h.single m).trans_le (Bool.toNat_le _)

theorem Owns.running (h : Owns owned s) {l : L} {g : M → Bool}
    (hi : s.threads[i]? = some ⟨.running l,g⟩) : g = owned l :=
  h.fits ⟨.running l,g⟩ (List.mem_of_getElem? hi)

/-- One thread changes what it is inside of as the mutexes change. -/
theorem Owns.set (h : Owns owned s) (hi : s.threads[i]? = some t) {mem : σ} {locked : M → Bool}
    (ht' : t'.Fits owned)
    (hcount : ∀ m, (locked m).toNat+(t.inside m).toNat = (s.locked m).toNat+(t'.inside m).toNat) :
    Owns owned ⟨mem,locked,s.threads.set i t'⟩ where
  fits u hu := by
    obtain hu | rfl := List.mem_or_eq_of_mem_set hu
    · exact h.fits u hu
    · exact ht'
  single m := by
    have hset := countP_set_getElem? (p := fun t => t.inside m) (b := t') hi
    have hsingle := h.single m
    have hm := hcount m
    dsimp only at hset ⊢
    omega

theorem Owns.go (h : Owns owned s) {l l' : L} {g : M → Bool} (hi : s.threads[i]? = some ⟨.running l,g⟩)
    {mem : σ} (hl' : owned l' = owned l) : Owns owned ⟨mem,s.locked,s.threads.set i ⟨.running l',g⟩⟩ := by
  exact h.set hi ((h.running hi).trans hl'.symm) fun _ => rfl

/-- A mutex that is free is taken by a thread that is not inside of it. -/
theorem Owns.take (h : Owns owned s) (hi : s.threads[i]? = some t) (hfree : s.locked m = false) {next : L}
    (hnext : owned next = update t.inside m true) : Owns owned ⟨s.mem,update s.locked m true,
      s.threads.set i ⟨.running next,update t.inside m true⟩⟩ := by
  have hout : t.inside m = false := by
    have hnone : s.threads.countP (·.inside m) = 0 := by rw [h.single, hfree]; rfl
    exact Bool.eq_false_iff.mpr (List.countP_eq_zero.mp hnone t (List.mem_of_getElem? hi))
  refine h.set hi hnext.symm fun m' => ?_
  dsimp only
  obtain rfl | hne := eq_or_ne m' m
  · rw [update_self, update_self, hout, hfree, Nat.add_comm]
  · rw [update_of_ne hne, update_of_ne hne]

/-- A thread gives up a mutex that it is inside of. -/
theorem Owns.give (h : Owns owned s) (hi : s.threads[i]? = some t) (hin : t.inside m = true)
    (status : Status M C L) (hfits : Thread.Fits owned ⟨status,update t.inside m false⟩) :
    Owns owned ⟨s.mem,update s.locked m false,s.threads.set i ⟨status,update t.inside m false⟩⟩ := by
  have hlocked : (s.locked m).toNat = 1 := by
    have hpos : 0 < s.threads.countP (·.inside m) :=
      List.countP_pos_iff.mpr ⟨t,List.mem_of_getElem? hi,hin⟩
    have hle := Bool.toNat_le (s.locked m)
    rw [h.single] at hpos
    omega
  refine h.set hi hfits fun m' => ?_
  dsimp only
  obtain rfl | hne := eq_or_ne m' m
  · rw [update_self, update_self, hin, hlocked]
    rfl
  · rw [update_of_ne hne, update_of_ne hne]

/-- Being woken changes nothing of what a thread is inside of. -/
theorem wake_fits [DecidableEq C] {c : C} (hwake : t.wake c = some t') (ht : t.Fits owned) :
    t'.Fits owned ∧ t'.inside = t.inside := by
  obtain ⟨m,next,g,rfl,rfl⟩ := wake_eq hwake
  exact ⟨ht,rfl⟩

theorem rouse_fits [DecidableEq C] (c : C) (t : Thread M C L) (ht : t.Fits owned) :
    (t.rouse c).Fits owned ∧ (t.rouse c).inside = t.inside := by
  unfold Thread.rouse
  cases hwake : t.wake c with
  | none => exact ⟨ht,rfl⟩
  | some t' => exact wake_fits hwake ht

theorem Owns.wake [DecidableEq C] (h : Owns owned s) (hi : s.threads[i]? = some t) {c : C}
    (hwake : t.wake c = some t') : Owns owned ⟨s.mem,s.locked,s.threads.set i t'⟩ := by
  obtain ⟨hfits,hinside⟩ := wake_fits hwake (h.fits t (List.mem_of_getElem? hi))
  exact h.set hi hfits fun m => by rw [hinside]

/-- So no thread changes what it is inside of by a broadcast. -/
theorem Owns.rouse [DecidableEq C] (h : Owns owned s) (c : C) :
    Owns owned ⟨s.mem,s.locked,s.threads.map (Thread.rouse c)⟩ where
  fits t ht := by
    obtain ⟨u,hu,rfl⟩ := List.mem_map.mp ht
    exact (rouse_fits c u (h.fits u hu)).1
  single m := by
    rw [← h.single m, List.countP_map]
    refine List.countP_congr fun u hu => ?_
    have hinside : (u.rouse c).inside = u.inside := (rouse_fits c u (h.fits u hu)).2
    rw [Function.comp_apply, hinside]

theorem Owns.spawn (h : Owns owned s) {start : L} (hstart : owned start = fun _ => false) :
    Owns owned ⟨s.mem,s.locked,s.threads ++ [⟨.running start,fun _ => false⟩]⟩ where
  fits t ht := by
    obtain ht | ht := List.mem_append.mp ht
    · exact h.fits t ht
    · rw [List.mem_singleton.mp ht]
      exact hstart.symm
  single m := by
    rw [List.countP_append, h.single]
    exact Nat.add_zero _

/-- What a step does that does not start at a bad place. -/
theorem Owns.step [DecidableEq C] (hcode : Disciplined code owned bad) (h : Owns owned s)
    (hbad : ¬ RunsAt bad s label) (hstep : Step code s label s') : Owns owned s' := by
  have hat {i l instr} (hl : code i l = instr) : instr.Disciplined owned (bad l) (owned l) := hl ▸ hcode i l
  cases hstep with
  | act hi hl => exact h.go hi (hat hl _)
  | choose hi hl hl' => exact h.go hi (hat hl _ hl')
  | lock hi hl hfree =>
    refine h.take hi hfree ((hat hl).trans ?_)
    rw [← h.running hi]
  | @unlock i l g m next hi hl =>
    have hnot : ¬ bad l := fun hl' => hbad ⟨l,g,hi,hl'⟩
    obtain ⟨hm,hnext⟩ := hat hl hnot
    rw [← h.running hi] at hm hnext
    exact h.give hi hm (.running next) hnext.symm
  | @wait i l g c m next hi hl =>
    obtain ⟨hm,hnext⟩ := hat hl
    rw [← h.running hi] at hm hnext
    have hback : owned next = update (update g m false) m true := by
      rw [hnext, update_idem, ← hm, update_eq_self]
    have hfits : Thread.Fits owned (⟨.waiting c m next,update g m false⟩ : Thread M C L) :=
      ⟨update_self ..,hback⟩
    exact h.give hi hm (.waiting c m next) hfits
  | @signal i l g c next _ hi hl hsignal =>
    have hgone : Owns owned ⟨s.mem,s.locked,s.threads.set i ⟨.running next,g⟩⟩ := h.go hi (hat hl)
    cases hsignal with
    | woken hj hwake => exact hgone.wake hj hwake
    | lost => exact hgone
  | broadcast hi hl => exact (h.go hi (hat hl)).rouse _
  | spawn hi hl =>
    obtain ⟨hstart,hnext⟩ := hat hl
    exact (h.go hi (hnext _ _)).spawn hstart
  | @exit i l g hi hl => exact h.set hi ((h.running hi).trans (hat hl)) fun _ => rfl
  | wake hi =>
    have hfits := h.fits _ (List.mem_of_getElem? hi)
    exact h.set hi hfits fun _ => rfl
  | relock hi hfree =>
    have hfits := h.fits _ (List.mem_of_getElem? hi)
    exact h.take hi hfree hfits.2

/-- Along a run all unlocks are made by threads that are inside of their mutex, and no two threads are
inside of one, exactly if no thread runs a bad statement. -/
theorem Disciplined.steps_iff [DecidableEq C] (hcode : Disciplined code owned bad) (h : Owns owned s)
    {m : M} (hbad : ∀ i l, bad l → ∃ next, code i l = .unlock m next ∧ owned l m = false)
    {steps : List (Config σ M C L × Label)} (htrace : Trace (Step code) s steps s') :
    (∀ x ∈ steps, UnlocksOwn code m x.1 x.2 ∧ x.1.Exclusive m) ∧ s'.Exclusive m ↔
      ∀ x ∈ steps, ¬ RunsAt bad x.1 x.2 := by
  have hgood (s : Config σ M C L) (label : Label) (h : Owns owned s) :
      UnlocksOwn code m s label ↔ ¬ RunsAt bad s label := by
    cases label with
    | wake i => exact iff_of_true trivial not_false
    | run i =>
      constructor
      · rintro hown ⟨l,g,hi,hl⟩
        obtain ⟨next,hcall,hnot⟩ := hbad i l hl
        have hin := hown l g next hi hcall
        rw [h.running hi, hnot] at hin
        exact Bool.false_ne_true hin
      · intro hnot l g next hi hcall
        have hat := hcode i l
        rw [hcall] at hat
        rw [h.running hi]
        exact (hat fun hl => hnot ⟨l,g,hi,hl⟩).1
  obtain ⟨hiff,hkept⟩ := Trace.steps_iff (G := UnlocksOwn code m) (B := RunsAt bad) htrace h
    (fun s label _ h _ => hgood s label h) fun _ _ _ h hnot hstep => h.step hcode hnot hstep
  constructor
  · rintro ⟨hall,-⟩
    exact hiff.mp fun x hx => (hall x hx).1
  · intro hnone
    obtain ⟨howns,hend⟩ := hkept hnone
    exact ⟨fun x hx => ⟨hiff.mpr hnone x hx,(howns x hx).exclusive m⟩,hend.exclusive m⟩

end Owns
end ServerKit.Lib.Pthreads
