import ServerKit.ItemReactor.Registered

/-! The bytes of a connection: what `recv` has filled in and what `send` has taken, when no request to
the kernel is refused. -/
namespace ServerKit.ItemReactor
open Function ServerKit.Lib

/-- The bytes of a connection since it was accepted. -/
structure Wire where
  received : List UInt8
  sent : List UInt8

/-- Before anything is received. -/
def silent : ℕ → Wire := fun _ => ⟨[],[]⟩

/-- What one call through a pointer adds to the bytes of the connections. -/
def wireCall (cb : Option Callback) (s : Server) (fd : ℕ) (res : Results) (t : ℕ → Wire) : ℕ → Wire :=
  match cb with
  | none => t
  | some .readCallback =>
    update t fd { t fd with received := (t fd).received ++ res.recv.getD [] }
  | some .writeCallback =>
    let offered := (s.items fd).sbuffer.take (s.items fd).slength
    update t fd { t fd with sent := (t fd).sent ++ offered.take res.send.toNat }
  | some .acceptCallback =>
    match res.accept with
    | none => t
    | some connfd => update t connfd ⟨[],[]⟩

def wireIn (listenfd : ℕ) (s : Server) (e : Ready ℕ) (res : Results) (t : ℕ → Wire) : ℕ → Wire :=
  let item := s.items e.data
  if item.fd = listenfd then wireCall item.acceptcb s listenfd res t
  else if hasBit e.events EPOLLIN then wireCall item.readcb s item.fd res t
  else t

def wireOut (listenfd connfd : ℕ) (s : Server) (e : Ready ℕ) (res : Results) (t : ℕ → Wire) : ℕ → Wire :=
  if connfd = listenfd then t
  else if hasBit e.events EPOLLOUT then wireCall (s.items e.data).writecb s connfd res t
  else t

/-- A step of the loop together with the bytes of the connections. -/
inductive WireStep (listenfd : ℕ) : State × (ℕ → Wire) → Action → State × (ℕ → Wire) → Prop
  | wait {s t batch} (hpending : s.pending = []) (h : s.server.kernel.Reports batch) :
      WireStep listenfd (s,t) (.wait batch) ({ s with pending := batch },t)
  | event {s t e pending first second s₁ s₂} (hpending : s.pending = e :: pending)
      (hfirst : first.Fits s.server.kernel) (hin : callIn listenfd s.server e first = some s₁)
      (hsecond : second.Fits s₁.kernel)
      (hout : callOut listenfd (s.server.items e.data).fd s₁ e second = some s₂)
      (hgranted : first.granted = true ∧ second.granted = true) :
      WireStep listenfd (s,t) (.event first second) (⟨s₂,pending⟩,
        wireOut listenfd (s.server.items e.data).fd s₁ e second (wireIn listenfd s.server e first t))

/-- The next event runs `write_callback`, and `send` takes some of the bytes but not all. -/
def SendsPart (listenfd : ℕ) (s : State × (ℕ → Wire)) : Action → Prop
  | .wait _ => False
  | .event _ second => ∃ e pending, s.1.pending = e :: pending ∧ hasBit e.events EPOLLOUT ∧
      (s.1.server.items e.data).fd ≠ listenfd ∧ 0 < second.send ∧
      second.send < (s.1.server.items (s.1.server.items e.data).fd).slength

/-- What was received and not yet sent is in the buffer of an item that waits to write. -/
def Echo (item : Nitem) (w : Wire) : Prop :=
  w.received = w.sent ++ if item.events = WRITE_CB then item.sbuffer.take item.slength else []

section Local
variable {s s' : Server} {fd event event' : ℕ} {c : Conn} {item : Nitem} {w : Wire} {t : ℕ → Wire}

theorem WireStep.step {listenfd : ℕ} {x x' : State × (ℕ → Wire)} {a : Action}
    (h : WireStep listenfd x a x') : Step listenfd x.1 a x'.1 := by
  cases h with
  | wait hpending h => exact .wait hpending h
  | event hpending hfirst hin hsecond hout hgranted => exact .event hpending hfirst hin hsecond hout

theorem Echo.isPrefix (h : Echo item w) : w.sent <+: w.received := ⟨_,h.symm⟩

theorem echo_idle (hevents : item.events ≠ WRITE_CB) : Echo item w ↔ w.received = w.sent := by
  unfold Echo
  rw [if_neg hevents, List.append_nil]

theorem echo_writes (hevents : item.events = WRITE_CB) :
    Echo item w ↔ w.received = w.sent ++ item.sbuffer.take item.slength := by
  unfold Echo
  rw [if_pos hevents]

theorem Echo.congr {item' : Nitem} (h : Echo item w) (hevents : item'.events = item.events)
    (hsbuffer : item'.sbuffer = item.sbuffer) (hslength : item'.slength = item.slength) :
    Echo item' w := by
  unfold Echo
  rw [hevents, hsbuffer, hslength]
  exact h

/-- A change at one descriptor and in its bytes. -/
theorem echo_update (h : ∀ fd', Echo (s.items fd') (t fd')) (hchanged : Changed s s' fd c)
    (hfd : Echo c.item w) (fd' : ℕ) : Echo (s'.items fd') (update t fd w fd') := by
  have hitem : s'.items fd' = (update s.conn fd c fd').item := by
    rw [← hchanged.conn]
    rfl
  rw [hitem]
  by_cases hne : fd' = fd
  · subst hne
    rwa [update_self, update_self]
  · rw [update_of_ne hne, update_of_ne hne]
    exact h fd'

theorem prepare_buffer (item : Nitem) (fd : ℕ) (cb : Option Callback) (event : ℕ) (arg : Option ℕ) :
    (item.prepare fd cb event arg).sbuffer = item.sbuffer ∧
      (item.prepare fd cb event arg).slength = item.slength := by
  unfold Nitem.prepare
  split
  · exact ⟨rfl,rfl⟩
  · split
    · exact ⟨rfl,rfl⟩
    · split <;> exact ⟨rfl,rfl⟩

theorem registered_buffer (c : Conn) (fd event : ℕ) :
    (c.registered fd event).item.sbuffer = c.item.sbuffer ∧
      (c.registered fd event).item.slength = c.item.slength := prepare_buffer ..

theorem fill_offered (item : Nitem) (bytes : List UInt8) :
    (item.fill bytes).sbuffer.take (item.fill bytes).slength = bytes := by
  simp [Nitem.fill]

theorem fill_size {n : ℕ} {bytes : List UInt8} (hsize : item.sbuffer.length = n) (hle : bytes.length ≤ n) :
    (item.fill bytes).sbuffer.length = n := by
  simp only [Nitem.fill, List.take_left, List.length_append, List.length_drop, hsize]
  omega

/-- A request that the kernel grants. -/
theorem setEvent_granted (hopen : (s.conn fd).opened = true)
    (hreg : (s.conn fd).interest = none ↔ (s.conn fd).item.events = NOSET_CB)
    (hne : (s.conn fd).item.events ≠ event) :
    Changed s (nreactorSetEvent s true fd (some (callbackOf event)) event none).1 fd
      ((s.conn fd).registered fd event) := by
  have hevents : ((s.items fd).prepare fd (some (callbackOf event)) event none).events =
      (s.items fd).events := prepare_events ..
  have hgranted := registered_changed s fd event
  unfold nreactorSetEvent
  dsimp only [Server.setItem]
  rw [hevents]
  by_cases hnoset : (s.items fd).events = NOSET_CB
  · rw [if_pos hnoset, Epoll.ctl_add hopen (hreg.mpr hnoset), if_neg (Int.lt_irrefl 0), update_idem]
    exact hgranted
  · have hsome : s.kernel.interest fd ≠ none := fun h => hnoset (hreg.mp h)
    have hother : (s.items fd).events ≠ event := hne
    rw [if_neg hnoset, if_pos hother, Epoll.ctl_mod hsome, if_neg (Int.lt_irrefl 0), update_idem]
    exact hgranted

/-- The event is the present one, and the kernel is not asked. -/
theorem setEvent_same (granted : Bool) (hnoset : event ≠ NOSET_CB)
    (hsame : (s.conn fd).item.events = event) :
    Changed s (nreactorSetEvent s granted fd (some (callbackOf event)) event none).1 fd
      ((s.conn fd).prepared fd event) := by
  have hevents : ((s.items fd).prepare fd (some (callbackOf event)) event none).events = event :=
    (prepare_events ..).trans hsame
  unfold nreactorSetEvent
  dsimp only
  rw [hevents, if_neg hnoset, if_neg (not_not.mpr rfl)]
  exact Changed.intro rfl (update_eq_self ..).symm (update_eq_self ..).symm (update_eq_self ..).symm
    (List.Subset.refl _)

theorem writeCallback_echo (hat : (s.conn fd).At fd WRITE_CB) (h : Echo (s.items fd) w) {send : ℤ}
    (hwhole : send ≤ 0 ∨ (s.items fd).slength ≤ send) :
    ∃ c, Changed s (writeCallback s true fd send) fd c ∧
      Echo c.item { w with
        sent := w.sent ++ ((s.items fd).sbuffer.take (s.items fd).slength).take send.toNat } := by
  unfold writeCallback
  split
  · next hshort =>
    -- nothing was taken, and the item goes on waiting
    have hnone : send.toNat = 0 := by omega
    obtain ⟨hsbuffer,hslength⟩ := prepare_buffer (s.items fd) fd (some .writeCallback) WRITE_CB none
    refine ⟨_,setEvent_same true (by decide) hat.events,?_⟩
    rw [hnone, List.take_zero, List.append_nil]
    exact h.congr (prepare_events ..) hsbuffer hslength
  · next hall =>
    have hne : (s.conn fd).item.events ≠ READ_CB := hat.events.trans_ne (by decide)
    have hidle : READ_CB ≠ WRITE_CB := by decide
    refine ⟨_,setEvent_granted hat.opened (hat.unset (by decide)) hne,(echo_idle hidle).mpr ?_⟩
    rw [List.take_of_length_le]
    · exact (echo_writes hat.events).mp h
    · have hle := List.length_take_le (s.items fd).slength (s.items fd).sbuffer
      omega

theorem readCallback_echo (hat : (s.conn fd).At fd READ_CB) (h : Echo (s.items fd) w)
    (recv : Option (List UInt8)) :
    ∃ c, Changed s (readCallback s true fd recv) fd c ∧
      Echo c.item { w with received := w.received ++ recv.getD [] } := by
  have hread : (s.items fd).events = READ_CB := hat.events
  have hall : w.received = w.sent := (echo_idle (by rw [hread]; decide)).mp h
  unfold readCallback
  split
  · refine ⟨_,Changed.refl s fd,(echo_idle ?_).mpr ?_⟩
    · exact hat.events.trans_ne (by decide)
    · rw [Option.getD_none, List.append_nil, hall]
  · refine ⟨_,(nreactorDelEvent_changed hat.isSome).trans (close_changed _ fd),(echo_idle ?_).mpr ?_⟩
    · rw [(nreactorDelEvent_changed hat.isSome).self]
      exact Nat.zero_ne_add_one 1
    · rw [Option.getD_some, List.append_nil, hall]
  · next b bytes =>
    set s₁ := s.setItem fd ((s.items fd).fill (b :: bytes))
    have hfill : Changed s s₁ fd _ := setItem_changed s fd _
    have hconn := hfill.self
    have hset : Changed s₁ (nreactorSetEvent s₁ true fd (some (callbackOf WRITE_CB)) WRITE_CB none).1 fd
        ((s₁.conn fd).registered fd WRITE_CB) := by
      apply setEvent_granted
      · rw [hconn]
        exact hat.opened
      · rw [hconn]
        exact hat.unset (by decide)
      · rw [hconn]
        exact hat.events.trans_ne (by decide)
    refine ⟨_,hfill.trans hset,(echo_writes rfl).mpr ?_⟩
    rw [hconn, (registered_buffer ..).1, (registered_buffer ..).2, fill_offered, ← hall]
    rfl

theorem acceptCallback_echo {connfd : ℕ} (hnone : (s.conn connfd).interest = none)
    (hnoset : (s.conn connfd).item.events = NOSET_CB) :
    ∃ c, Changed s (acceptCallback s true (some connfd)) connfd c ∧ Echo c.item ⟨[],[]⟩ := by
  set s₁ : Server := { s with kernel := s.kernel.accept connfd, accepted := update s.accepted connfd true }
  have haccept : Changed s s₁ connfd _ := accept_changed s connfd
  have hconn := haccept.self
  have hset : Changed s₁ (nreactorSetEvent s₁ true connfd (some (callbackOf READ_CB)) READ_CB none).1 connfd
      ((s₁.conn connfd).registered connfd READ_CB) := by
    apply setEvent_granted
    · rw [hconn]
    · rw [hconn]
      exact ⟨fun _ => hnoset,fun _ => hnone⟩
    · rw [hconn]
      exact hnoset.trans_ne (by decide)
  have hidle : READ_CB ≠ WRITE_CB := by decide
  exact ⟨_,haccept.trans hset,(echo_idle hidle).mpr rfl⟩

end Local

section Runs
variable {listenfd : ℕ} {opened : ℕ → Bool} {s s' : State} {t t' : ℕ → Wire} {a : Action}

/-- What holds between two events. -/
structure Echoes (listenfd : ℕ) (x : State × (ℕ → Wire)) : Prop where
  kept : Kept listenfd x.1
  echo : ∀ fd, Echo (x.1.server.items fd) (x.2 fd)

/-- An event is handled at one descriptor, in the item and in the bytes. -/
theorem event_echo {s : Server} {t : ℕ → Wire} {e : Ready ℕ} {first second : Results} {s₁ s₂ : Server}
    (hs : Steady listenfd s) (he : s.kernel.Reported e) (h : ∀ fd, Echo (s.items fd) (t fd))
    (hfirst : first.Fits s.kernel) (hin : callIn listenfd s e first = some s₁)
    (hout : callOut listenfd (s.items e.data).fd s₁ e second = some s₂)
    (hgranted : first.granted = true ∧ second.granted = true)
    (hwhole : hasBit e.events EPOLLOUT → (s.items e.data).fd ≠ listenfd → 0 < second.send →
      (s.items (s.items e.data).fd).slength ≤ second.send) :
    ∀ fd, Echo (s₂.items fd)
      (wireOut listenfd (s.items e.data).fd s₁ e second (wireIn listenfd s e first t) fd) := by
  cases (hs e.fd).mirrored with
  | out hinterest hevents =>
    obtain ⟨i,hi,-⟩ := he
    cases (show s.kernel.interest e.fd = none from hinterest).symm.trans hi
  | listens hfd hat =>
    obtain ⟨hitem,hcalled,-⟩ := hat.reported he
    have hlisten : (s.items e.data).fd = listenfd := hitem.trans hfd
    have hpointer : (s.items e.data).acceptcb = some .acceptCallback := hcalled
    simp only [callIn, if_pos hlisten, hpointer, call, hgranted.1, Option.some.injEq] at hin
    simp only [callOut, if_pos hlisten, Option.some.injEq] at hout
    subst hin hout
    simp only [wireOut, wireIn, if_pos hlisten, hpointer, wireCall]
    cases haccept : first.accept with
    | none => exact h
    | some connfd =>
      obtain ⟨hnone,hnoset⟩ := (hs connfd).mirrored.of_closed (hfirst.fresh connfd haccept)
      obtain ⟨c,hchanged,hecho⟩ := acceptCallback_echo hnone hnoset
      exact echo_update h hchanged hecho
  | reads hne hat =>
    obtain ⟨hfd,hcalled,-,hbit⟩ := hat.reported he
    have hlisten : ¬ (s.items e.data).fd = listenfd := hfd.trans_ne hne
    have hnot : ¬ hasBit e.events EPOLLOUT := fun hout => absurd (hbit hout) (by decide)
    have hpointer : (s.items e.data).readcb = some .readCallback := hcalled
    simp only [callOut, if_neg hlisten, if_neg hnot, Option.some.injEq] at hout
    subst hout
    simp only [wireOut, wireIn, hfd, if_neg hne, if_neg hnot, hpointer, wireCall]
    simp only [callIn, hfd, if_neg hne, hpointer, call, hgranted.1] at hin
    split at hin
    · next hread =>
      obtain rfl := Option.some.inj hin
      rw [if_pos hread]
      obtain ⟨c,hchanged,hecho⟩ := readCallback_echo hat (h e.fd) first.recv
      exact echo_update h hchanged hecho
    · next hidle =>
      obtain rfl := Option.some.inj hin
      rw [if_neg hidle]
      exact h
  | writes hne hat =>
    obtain ⟨hfd,hcalled,hbit,-⟩ := hat.reported he
    have hlisten : ¬ (s.items e.data).fd = listenfd := hfd.trans_ne hne
    have hnot : ¬ hasBit e.events EPOLLIN := fun hin => absurd (hbit hin) (by decide)
    have hpointer : (s.items e.data).writecb = some .writeCallback := hcalled
    simp only [callIn, if_neg hlisten, if_neg hnot, Option.some.injEq] at hin
    subst hin
    simp only [wireOut, wireIn, hfd, if_neg hne, if_neg hnot, hpointer, wireCall]
    simp only [callOut, hfd, if_neg hne, hpointer, call, hgranted.2] at hout
    split at hout
    · next hwrite =>
      obtain rfl := Option.some.inj hout
      rw [if_pos hwrite]
      have hall : second.send ≤ 0 ∨ (s.items e.fd).slength ≤ second.send := by
        have hsend := hwhole hwrite hlisten
        rw [hfd] at hsend
        exact or_iff_not_imp_left.mpr fun hpos => hsend (Int.not_le.mp hpos)
      obtain ⟨c,hchanged,hecho⟩ := writeCallback_echo hat (h e.fd) hall
      exact echo_update h hchanged hecho
    · next hidle =>
      obtain rfl := Option.some.inj hout
      rw [if_neg hidle]
      exact h

theorem Echoes.step {x x' : State × (ℕ → Wire)} (hx : Echoes listenfd x)
    (h : WireStep listenfd x a x') (hwhole : ¬ SendsPart listenfd x a) : Echoes listenfd x' := by
  refine ⟨hx.kept.step h.step,?_⟩
  have hecho := hx.echo
  cases h with
  | wait hpending h => exact hecho
  | @event s t e pending first second s₁ s₂ hpending hfirst hin hsecond hout hgranted =>
    have he : s.server.kernel.Reported e := hx.kept.pending e (by simp [hpending])
    refine event_echo hx.kept.steady he hecho hfirst hin hout hgranted fun hbit hne hpos => ?_
    by_contra hpart
    exact hwhole ⟨e,pending,hpending,hbit,hne,hpos,Int.not_le.mp hpart⟩

/-- The steps whose sends are whole. -/
abbrev WholeStep (listenfd : ℕ) (x : State × (ℕ → Wire)) (a : Action) (x' : State × (ℕ → Wire)) : Prop :=
  WireStep listenfd x a x' ∧ ¬ SendsPart listenfd x a

theorem run_echoes {actions : List Action} {x : State × (ℕ → Wire)}
    (h : Run (WholeStep listenfd) (start opened listenfd true,silent) actions x) : Echoes listenfd x := by
  have hstart : Echoes listenfd (start opened listenfd true,silent) := by
    have hboot : ∀ fd, Echo ((boot opened).items fd) (silent fd) := fun fd => rfl
    have hnone : ((boot opened).conn listenfd).interest = none := rfl
    have hnoset : ((boot opened).conn listenfd).item.events = NOSET_CB := rfl
    obtain ⟨c,hc,hchanged,-⟩ := nreactorSetEvent_changed ACCEPT_CB true (absurd hnone)
      ⟨fun _ => hnoset,fun _ => hnone⟩
    have hecho : Echo c.item (silent listenfd) := by
      refine (echo_idle ?_).mpr rfl
      obtain rfl | ⟨-,rfl⟩ := hc
      · exact Nat.zero_ne_add_one 1
      · exact (by decide : ACCEPT_CB ≠ WRITE_CB)
    refine ⟨start_kept ..,fun fd => ?_⟩
    have hall := echo_update hboot hchanged hecho fd
    rwa [update_eq_self] at hall
  exact h.invariant (P := Echoes listenfd) hstart fun _ _ _ hx hstep => hx.step hstep.1 hstep.2

/-- As long as no `send` takes a part of what it is given, what is sent on a connection is the beginning of
what was received on it, and all of it when the connection waits to read. -/
theorem run_echo {actions : List Action} {x : State × (ℕ → Wire)}
    (h : Run (WholeStep listenfd) (start opened listenfd true,silent) actions x) (fd : ℕ) :
    (x.2 fd).sent <+: (x.2 fd).received ∧
      ((x.1.server.items fd).events = READ_CB → (x.2 fd).sent = (x.2 fd).received) := by
  have hecho := (run_echoes h).echo fd
  refine ⟨hecho.isPrefix,fun hread => ?_⟩
  exact ((echo_idle (hread.trans_ne (by decide))).mp hecho).symm

/-- The results of an event that accepts, reads or writes. -/
def accepts (connfd : ℕ) : Results := ⟨true,some connfd,none,0⟩
def reads (bytes : List UInt8) : Results := ⟨true,none,some bytes,0⟩
def writes (send : ℤ) : Results := ⟨true,none,none,send⟩

theorem accepts_fits {k : Epoll ℕ} {connfd : ℕ} (hnew : k.opened connfd = false)
    (hlt : connfd < MAX_EPOLL_EVENT) : (accepts connfd).Fits k :=
  ⟨by rintro _ ⟨⟩; exact hnew,by rintro _ ⟨⟩; exact hlt,by rintro _ ⟨⟩⟩

theorem reads_fits {bytes : List UInt8} (hle : bytes.length ≤ BUFFER_LENGTH) (k : Epoll ℕ) :
    (reads bytes).Fits k :=
  ⟨by rintro _ ⟨⟩,by rintro _ ⟨⟩,by rintro _ ⟨⟩; exact hle⟩

theorem writes_fits (send : ℤ) (k : Epoll ℕ) : (writes send).Fits k :=
  ⟨by rintro _ ⟨⟩,by rintro _ ⟨⟩,by rintro _ ⟨⟩⟩

/-- One round of the loop that writes to a connection. -/
theorem write_round {x : State × (ℕ → Wire)} {fd : ℕ} (hpending : x.1.pending = [])
    (hat : (x.1.server.conn fd).At fd WRITE_CB) (hne : fd ≠ listenfd) (send : ℤ) :
    ∃ x', Run (WireStep listenfd) x [.wait [⟨fd,EPOLLOUT,fd⟩],.event (writes 0) (writes send)] x' ∧
      x'.1 = ⟨writeCallback x.1.server true fd send,[]⟩ ∧
      x'.2 = update x.2 fd { x.2 fd with
        sent := (x.2 fd).sent ++ ((x.1.server.items fd).sbuffer.take
          (x.1.server.items fd).slength).take send.toNat } := by
  obtain ⟨⟨server,pending⟩,t⟩ := x
  obtain rfl : pending = [] := hpending
  have hfd : (server.items fd).fd = fd := hat.fd
  have hpointer : (server.items fd).writecb = some .writeCallback := hat.pointer
  have hin : ¬ hasBit EPOLLOUT EPOLLIN := by decide
  have hout : hasBit EPOLLOUT EPOLLOUT := by decide
  have hwait : WireStep listenfd (⟨server,[]⟩,t) (.wait [⟨fd,EPOLLOUT,fd⟩]) _ :=
    .wait rfl (Epoll.reports_one hat.interest rfl)
  have hcallIn : callIn listenfd server ⟨fd,EPOLLOUT,fd⟩ (writes 0) = some server := by
    simp only [callIn, hfd, if_neg hne, if_neg hin]
  have hcallOut : callOut listenfd (server.items fd).fd server ⟨fd,EPOLLOUT,fd⟩ (writes send) =
      some (writeCallback server true fd send) := by
    simp only [callOut, hfd, if_neg hne, if_pos hout, hpointer]
    rfl
  have hevent : WireStep listenfd (⟨server,[⟨fd,EPOLLOUT,fd⟩]⟩,t) (.event (writes 0) (writes send)) _ :=
    .event rfl (writes_fits ..) hcallIn (writes_fits ..) hcallOut ⟨rfl,rfl⟩
  refine ⟨_,(Run.nil.snoc hwait).snoc hevent,rfl,?_⟩
  simp only [wireOut, wireIn, hfd, if_neg hne, if_neg hin, if_pos hout, hpointer, wireCall]
  rfl

/-- After a `send` that takes a part, the next one that takes all repeats that part. -/
theorem part_repeated {x : State × (ℕ → Wire)} {fd : ℕ} (hx : Echoes listenfd x)
    (hpending : x.1.pending = []) (hat : (x.1.server.conn fd).At fd WRITE_CB) (hne : fd ≠ listenfd)
    (hle : (x.1.server.items fd).slength ≤ (x.1.server.items fd).sbuffer.length) {send : ℕ}
    (hpos : 0 < send) (hpart : send < (x.1.server.items fd).slength) :
    ∃ actions x' bytes, Run (WireStep listenfd) x actions x' ∧
      (x.2 fd).received = (x.2 fd).sent ++ bytes ∧ (x'.2 fd).received = (x.2 fd).received ∧
      (x'.2 fd).sent = (x.2 fd).sent ++ bytes.take send ++ bytes ∧
      ¬ (x'.2 fd).sent <+: (x'.2 fd).received := by
  set item := x.1.server.items fd with hitem
  set bytes := item.sbuffer.take item.slength with hbytes
  have hlength : bytes.length = item.slength := by
    rw [hbytes, List.length_take]
    omega
  obtain ⟨x₁,hrun₁,hserver₁,hwire₁⟩ := write_round hpending hat hne send
  rw [← hitem, ← hbytes] at hwire₁
  have hshort : (send : ℤ) < item.slength := by omega
  have hset : x₁.1.server =
      (nreactorSetEvent x.1.server true fd (some (callbackOf WRITE_CB)) WRITE_CB none).1 := by
    rw [hserver₁]
    exact if_pos hshort
  have hsame := setEvent_same (s := x.1.server) true (by decide) hat.events
  rw [← hset] at hsame
  have hat₁ : (x₁.1.server.conn fd).At fd WRITE_CB := by
    rw [hsame.self]
    exact hat.prepared (.inr (.inl rfl)) (.inr (.inl rfl))
  obtain ⟨hsbuffer,hslength⟩ :=
    prepare_buffer item fd (some (callbackOf WRITE_CB)) WRITE_CB none
  have hitem₁ : x₁.1.server.items fd = item.prepare fd (some (callbackOf WRITE_CB)) WRITE_CB none :=
    congrArg Conn.item hsame.self
  have hpending₁ : x₁.1.pending = [] := by rw [hserver₁]
  obtain ⟨x₂,hrun₂,-,hwire₂⟩ := write_round hpending₁ hat₁ hne (item.slength : ℤ)
  rw [hitem₁, hsbuffer, hslength, ← hbytes] at hwire₂
  have hreceived : (x.2 fd).received = (x.2 fd).sent ++ bytes := (echo_writes hat.events).mp (hx.echo fd)
  have hall : bytes.take item.slength = bytes := List.take_of_length_le (Nat.le_of_eq hlength)
  have hsent : (x₂.2 fd).sent = (x.2 fd).sent ++ bytes.take send ++ bytes := by
    rw [hwire₂, hwire₁]
    simp [hall]
  have hreceived₂ : (x₂.2 fd).received = (x.2 fd).received := by
    rw [hwire₂, hwire₁]
    simp
  refine ⟨_,x₂,bytes,hrun₁.append hrun₂,hreceived,hreceived₂,hsent,fun hprefix => ?_⟩
  have hlong := hprefix.length_le
  rw [hsent, hreceived₂, hreceived] at hlong
  simp only [List.length_append, List.length_take] at hlong
  omega

section Sample

theorem not_sendsPart {x : State × (ℕ → Wire)} {first second : Results} (h : second.send ≤ 0) :
    ¬ SendsPart listenfd x (.event first second) := by
  rintro ⟨e,pending,-,-,-,hpos,-⟩
  omega

/-- The descriptor `5` is accepted, and two bytes are received on it. Then both are sent. -/
theorem sample_received :
    (∃ actions x, Run (WholeStep 3) (start (fun fd => fd == 3) 3 true,silent) actions x ∧
      x.1.pending = [] ∧ (x.1.server.conn 5).At 5 WRITE_CB ∧ (x.1.server.items 5).slength = 2 ∧
        (x.1.server.items 5).sbuffer.length = 1024 ∧ x.2 5 = ⟨[1,2],[]⟩) ∧
    ∃ actions x, Run (WholeStep 3) (start (fun fd => fd == 3) 3 true,silent) actions x ∧
      (x.1.server.conn 5).At 5 READ_CB ∧ x.2 5 = ⟨[1,2],[1,2]⟩ := by
  have hquiet {x : State × (ℕ → Wire)} {first : Results} : ¬ SendsPart 3 x (.event first (writes 0)) :=
    not_sendsPart (Int.le_refl 0)
  have hwait : WholeStep 3 (start (fun fd => fd == 3) 3 true,silent) (.wait [⟨3,EPOLLIN,3⟩]) _ :=
    ⟨.wait rfl (Epoll.reports_one rfl rfl),id⟩
  have haccepted := (Run.nil.snoc hwait).snoc (l := .event (accepts 5) (writes 0))
    ⟨.event rfl (accepts_fits rfl (by decide)) rfl (writes_fits ..) rfl ⟨rfl,rfl⟩,hquiet⟩
  have hreported := haccepted.snoc (l := .wait [⟨5,EPOLLIN,5⟩]) ⟨.wait rfl (Epoll.reports_one rfl rfl),id⟩
  have hreceived := hreported.snoc (l := .event (reads [1,2]) (writes 0))
    ⟨.event rfl (reads_fits (by decide) _) rfl (writes_fits ..) rfl ⟨rfl,rfl⟩,hquiet⟩
  have hsbuffer : (zeroItem.fill [1,2]).sbuffer.length = 1024 :=
    fill_size (List.length_replicate ..) (by decide)
  have hwritable := hreceived.snoc (l := .wait [⟨5,EPOLLOUT,5⟩]) ⟨.wait rfl (Epoll.reports_one rfl rfl),id⟩
  have hsent := hwritable.snoc (l := .event (writes 0) (writes 2))
    ⟨.event rfl (writes_fits ..) rfl (writes_fits ..) rfl ⟨rfl,rfl⟩,?_⟩
  · exact ⟨⟨_,_,hreceived,rfl,⟨rfl,rfl,rfl,rfl,rfl⟩,rfl,hsbuffer,rfl⟩,_,_,hsent,⟨rfl,rfl,rfl,rfl,rfl⟩,rfl⟩
  · rintro ⟨e,pending,heq,-,-,-,hlt⟩
    cases heq
    exact absurd hlt (by decide)

theorem run_echo_sent : ∃ actions x,
    Run (WholeStep 3) (start (fun fd => fd == 3) 3 true,silent) actions x ∧
      (x.1.server.conn 5).At 5 READ_CB ∧ (x.2 5).sent = [1,2] ∧ (x.2 5).sent <+: (x.2 5).received := by
  obtain ⟨-,actions,x,hrun,hat,hwire⟩ := sample_received
  exact ⟨actions,x,hrun,hat,congrArg Wire.sent hwire,(run_echo hrun 5).1⟩

/-- Of two bytes `send` takes one, then both. -/
theorem echo_repeats : ∃ actions x,
    Run (WireStep 3) (start (fun fd => fd == 3) 3 true,silent) actions x ∧ (x.2 5).received = [1,2] ∧
      (x.2 5).sent = [1,1,2] ∧ ¬ (x.2 5).sent <+: (x.2 5).received := by
  obtain ⟨⟨actions,x,hrun,hpending,hat,hslength,hsbuffer,hwire⟩,-⟩ := sample_received
  have hx : Echoes 3 x := run_echoes hrun
  have hwireRun : Run (WireStep 3) (start (fun fd => fd == 3) 3 true,silent) actions x :=
    hrun.mono fun _ _ _ h => h.1
  obtain ⟨actions',x',bytes,hrun',hbytes,hreceived,hsent,hnot⟩ :=
    part_repeated hx hpending hat (by decide) (by rw [hslength, hsbuffer]; decide) Nat.one_pos
      (by rw [hslength]; decide)
  rw [hwire] at hbytes hreceived hsent
  obtain rfl : [1,2] = bytes := hbytes
  exact ⟨_,x',hwireRun.append hrun',hreceived,hsent,hnot⟩

end Sample
end Runs
end ServerKit.ItemReactor
