import ServerKit.ItemReactor.Code

/-! What belongs to one descriptor, and how the callbacks change it when the kernel may refuse a request. -/
namespace ServerKit.ItemReactor
open Function ServerKit.Lib

def IsPhase (event : ℕ) : Prop := event = READ_CB ∨ event = WRITE_CB ∨ event = ACCEPT_CB

/-- The callback that the source registers for an event. -/
def callbackOf (event : ℕ) : Callback :=
  if event = READ_CB then .readCallback
  else if event = WRITE_CB then .writeCallback
  else .acceptCallback

/-- The pointer of an item that belongs to an event. -/
def Nitem.pointer (item : Nitem) (event : ℕ) : Option Callback :=
  if event = READ_CB then item.readcb
  else if event = WRITE_CB then item.writecb
  else item.acceptcb

section Items
variable {item : Nitem} {fd event event' : ℕ} {cb : Option Callback} {arg : Option ℕ}

theorem prepare_events (item : Nitem) (fd : ℕ) (cb : Option Callback) (event : ℕ) (arg : Option ℕ) :
    (item.prepare fd cb event arg).events = item.events := by
  unfold Nitem.prepare
  split
  · rfl
  · split
    · rfl
    · split <;> rfl

theorem prepare_fd (h : IsPhase event) : (item.prepare fd cb event arg).fd = fd := by
  obtain rfl | rfl | rfl := h <;> rfl

/-- Only the pointer of the event is written. -/
theorem prepare_pointer (h : IsPhase event) (h' : IsPhase event') :
    (item.prepare fd cb event arg).pointer event' = if event' = event then cb else item.pointer event' := by
  obtain rfl | rfl | rfl := h <;> obtain rfl | rfl | rfl := h' <;> rfl

end Items

/-- What belongs to one descriptor. -/
structure Conn where
  item : Nitem
  opened : Bool
  interest : Option (Interest ℕ)
  accepted : Bool

def Server.conn (s : Server) (fd : ℕ) : Conn :=
  ⟨s.items fd,s.kernel.opened fd,s.kernel.interest fd,s.accepted fd⟩

namespace Conn

/-- The descriptor is registered for `event`, and its item agrees. -/
structure At (fd event : ℕ) (c : Conn) : Prop where
  opened : c.opened = true
  interest : c.interest = some ⟨maskOf event,fd⟩
  events : c.item.events = event
  fd : c.item.fd = fd
  pointer : c.item.pointer event = some (callbackOf event)

inductive Mirrored (listenfd fd : ℕ) (c : Conn) : Prop
  | out (interest : c.interest = none) (events : c.item.events = NOSET_CB)
  | listens (h : fd = listenfd) (hat : c.At fd ACCEPT_CB)
  | reads (h : fd ≠ listenfd) (hat : c.At fd READ_CB)
  | writes (h : fd ≠ listenfd) (hat : c.At fd WRITE_CB)

/-- What setting an event leaves when the kernel refuses it, or is not asked. -/
def prepared (fd event : ℕ) (c : Conn) : Conn :=
  { c with item := c.item.prepare fd (some (callbackOf event)) event none }

def registered (fd event : ℕ) (c : Conn) : Conn :=
  { c with
    item := { (c.prepared fd event).item with events := event }
    interest := some ⟨maskOf event,fd⟩ }

section Local
variable {listenfd fd event event' : ℕ} {c c' : Conn}

theorem At.isSome (h : c.At fd event) : c.interest ≠ none := by
  rw [h.interest]
  exact Option.some_ne_none _

theorem registered_at (h : IsPhase event) (hopen : c.opened = true) : (c.registered fd event).At fd event :=
  ⟨hopen,rfl,rfl,prepare_fd h,(prepare_pointer h h).trans (if_pos rfl)⟩

theorem At.prepared (hat : c.At fd event') (h' : IsPhase event') (h : IsPhase event) :
    (c.prepared fd event).At fd event' := by
  refine ⟨hat.opened,hat.interest,(prepare_events ..).trans hat.events,prepare_fd h,?_⟩
  refine (prepare_pointer h h').trans ?_
  -- if the new event is the present one, its pointer is written again
  by_cases heq : event' = event
  · rw [if_pos heq, heq]
  · rw [if_neg heq]
    exact hat.pointer

theorem At.unset (hat : c.At fd event) (hne : event ≠ NOSET_CB) :
    c.interest = none ↔ c.item.events = NOSET_CB := by
  rw [hat.events]
  exact ⟨fun h => absurd h hat.isSome,fun h => absurd h hne⟩

theorem Mirrored.unset (h : c.Mirrored listenfd fd) :
    c.interest = none ↔ c.item.events = NOSET_CB := by
  cases h with
  | out hinterest hevents => exact ⟨fun _ => hevents,fun _ => hinterest⟩
  | listens _ hat => exact hat.unset (by decide)
  | reads _ hat => exact hat.unset (by decide)
  | writes _ hat => exact hat.unset (by decide)

theorem Mirrored.opened (h : c.Mirrored listenfd fd) (hreg : c.interest ≠ none) : c.opened = true := by
  cases h with
  | out hinterest => exact absurd hinterest hreg
  | listens _ hat => exact hat.opened
  | reads _ hat => exact hat.opened
  | writes _ hat => exact hat.opened

theorem Mirrored.of_closed (h : c.Mirrored listenfd fd) (hnew : c.opened = false) :
    c.interest = none ∧ c.item.events = NOSET_CB := by
  have hnone : c.interest = none := by
    by_contra hreg
    rw [h.opened hreg] at hnew
    cases hnew
  exact ⟨hnone,h.unset.mp hnone⟩

end Local
end Conn

/-- The server differs in what belongs to `fd` only, and what was refused is not forgotten. -/
structure Changed (s s' : Server) (fd : ℕ) (c : Conn) : Prop where
  conn : s'.conn = update s.conn fd c
  failed : s.kernel.failed ⊆ s'.kernel.failed

section Changes
variable {s s₁ s' : Server} {fd : ℕ} {c c₁ : Conn}

theorem Changed.trans (h : Changed s s₁ fd c₁) (h' : Changed s₁ s' fd c) : Changed s s' fd c := by
  refine ⟨?_,List.Subset.trans h.failed h'.failed⟩
  rw [h'.conn, h.conn, update_idem]

theorem Changed.self (h : Changed s s' fd c) : s'.conn fd = c := by
  rw [h.conn, update_self]

theorem Changed.refl (s : Server) (fd : ℕ) : Changed s s fd (s.conn fd) :=
  ⟨(update_eq_self ..).symm,List.Subset.refl _⟩

/-- Everything is written at `fd`. -/
theorem Changed.intro (hitems : s'.items = update s.items fd c.item)
    (hopened : s'.kernel.opened = update s.kernel.opened fd c.opened)
    (hinterest : s'.kernel.interest = update s.kernel.interest fd c.interest)
    (haccepted : s'.accepted = update s.accepted fd c.accepted)
    (hfailed : s.kernel.failed ⊆ s'.kernel.failed) : Changed s s' fd c := by
  refine ⟨?_,hfailed⟩
  funext fd'
  rw [Server.conn, hitems, hopened, hinterest, haccepted]
  by_cases hfd : fd' = fd
  · subst hfd
    simp
  · simp [hfd, Server.conn]

theorem setItem_changed (s : Server) (fd : ℕ) (item : Nitem) :
    Changed s (s.setItem fd item) fd { s.conn fd with item := item } :=
  Changed.intro rfl (update_eq_self ..).symm (update_eq_self ..).symm (update_eq_self ..).symm
    (List.Subset.refl _)

/-- A request for `event` that the kernel has granted. -/
theorem registered_changed (s : Server) (fd event : ℕ) :
    Changed s ⟨update s.items fd ((s.conn fd).registered fd event).item,
      s.kernel.set fd (some ⟨maskOf event,fd⟩),s.accepted⟩ fd ((s.conn fd).registered fd event) :=
  Changed.intro rfl (update_eq_self ..).symm rfl (update_eq_self ..).symm (List.Subset.refl _)

theorem nreactorSetEvent_changed (event : ℕ) (granted : Bool)
    (hopen : (s.conn fd).interest ≠ none → (s.conn fd).opened = true)
    (hreg : (s.conn fd).interest = none ↔ (s.conn fd).item.events = NOSET_CB) :
    ∃ c, (c = (s.conn fd).prepared fd event ∨
        (s.conn fd).opened = true ∧ c = (s.conn fd).registered fd event) ∧
      Changed s (nreactorSetEvent s granted fd (some (callbackOf event)) event none).1 fd c ∧
      (c.interest = none → (.add,fd) ∈
        (nreactorSetEvent s granted fd (some (callbackOf event)) event none).1.kernel.failed) := by
  have hevents : ((s.items fd).prepare fd (some (callbackOf event)) event none).events =
      (s.items fd).events := prepare_events ..
  have hgranted := registered_changed s fd event
  have hkept (failed : List (EpollOp × ℕ)) (hfailed : s.kernel.failed ⊆ failed) :
      Changed s ⟨update s.items fd ((s.conn fd).prepared fd event).item,
        { s.kernel with failed := failed },s.accepted⟩ fd ((s.conn fd).prepared fd event) :=
    Changed.intro rfl (update_eq_self ..).symm (update_eq_self ..).symm (update_eq_self ..).symm hfailed
  have hfail : (-1 : ℤ) < 0 := by decide
  unfold nreactorSetEvent
  dsimp only [Server.setItem]
  rw [hevents]
  by_cases hnoset : (s.items fd).events = NOSET_CB
  · rw [if_pos hnoset]
    obtain ⟨hlegal,hctl⟩ | hctl := s.kernel.ctl_cases granted .add fd ⟨maskOf event,fd⟩
    · have hopened : (s.conn fd).opened = true := Epoll.legal_add hlegal
      rw [hctl, Epoll.ctl_add hopened (hreg.mpr hnoset), if_neg (Int.lt_irrefl 0), update_idem]
      exact ⟨_,.inr ⟨hopened,rfl⟩,hgranted,nofun⟩
    · rw [hctl, if_pos hfail]
      exact ⟨_,.inl rfl,hkept _ (List.subset_cons_self ..),fun _ => List.mem_cons_self⟩
  · have hsome : s.kernel.interest fd ≠ none := fun h => hnoset (hreg.mp h)
    rw [if_neg hnoset]
    by_cases hsame : (s.items fd).events = event
    · rw [if_neg (not_not.mpr hsame)]
      exact ⟨_,.inl rfl,hkept _ (List.Subset.refl _),fun h => absurd h hsome⟩
    · rw [if_pos hsame]
      obtain ⟨-,hctl⟩ | hctl := s.kernel.ctl_cases granted .mod fd ⟨maskOf event,fd⟩
      · rw [hctl, Epoll.ctl_mod hsome, if_neg (Int.lt_irrefl 0), update_idem]
        exact ⟨_,.inr ⟨hopen hsome,rfl⟩,hgranted,nofun⟩
      · rw [hctl, if_pos hfail]
        exact ⟨_,.inl rfl,hkept _ (List.subset_cons_self ..),fun h => absurd h hsome⟩

theorem nreactorDelEvent_changed (hreg : (s.conn fd).interest ≠ none) :
    Changed s (nreactorDelEvent s fd) fd { s.conn fd with
      item := { (s.conn fd).item with events := 0 }
      interest := none } := by
  have hdel : s.kernel.ctl true .del fd ⟨0,fd⟩ = _ := Epoll.ctl_del hreg
  unfold nreactorDelEvent
  rw [hdel]
  exact Changed.intro rfl (update_eq_self ..).symm rfl (update_eq_self ..).symm (List.Subset.refl _)

theorem close_changed (s : Server) (fd : ℕ) :
    Changed s (s.close fd) fd ⟨(s.conn fd).item,false,none,false⟩ :=
  Changed.intro (update_eq_self ..).symm rfl rfl rfl (List.Subset.refl _)

theorem accept_changed (s : Server) (fd : ℕ) :
    Changed s { s with kernel := s.kernel.accept fd, accepted := update s.accepted fd true } fd
      ⟨(s.conn fd).item,true,(s.conn fd).interest,true⟩ :=
  Changed.intro (update_eq_self ..).symm rfl (update_eq_self ..).symm rfl (List.Subset.refl _)

end Changes

/-- What belongs to `fd` after a callback: an accepted connection has left the set only if a request to
add it was refused. -/
structure Settled (listenfd fd : ℕ) (failed : List (EpollOp × ℕ)) (c : Conn) : Prop where
  mirrored : c.Mirrored listenfd fd
  live : c.accepted = true → c.interest = none → (.add,fd) ∈ failed

/-- One callback, which changes what belongs to `fd`. -/
structure Moved (listenfd : ℕ) (s s' : Server) (fd : ℕ) : Prop where
  changed : ∃ c, Changed s s' fd c
  settled : Settled listenfd fd s'.kernel.failed (s'.conn fd)

def Steady (listenfd : ℕ) (s : Server) : Prop :=
  ∀ fd, Settled listenfd fd s.kernel.failed (s.conn fd)

section Callbacks
variable {listenfd fd event event' : ℕ} {s s₁ s' : Server} {c : Conn}

theorem Conn.At.settled (hat : c.At fd event) (hevent : event = READ_CB ∨ event = WRITE_CB)
    (hne : fd ≠ listenfd) (failed : List (EpollOp × ℕ)) : Settled listenfd fd failed c := by
  refine ⟨?_,fun _ hnone => absurd hnone hat.isSome⟩
  obtain rfl | rfl := hevent
  · exact .reads hne hat
  · exact .writes hne hat

theorem isPhase (hevent : event = READ_CB ∨ event = WRITE_CB) : IsPhase event :=
  hevent.imp_right Or.inl

/-- A connection that is registered sets its event. -/
theorem Conn.At.setEvent (hat : (s.conn fd).At fd event') (h' : event' = READ_CB ∨ event' = WRITE_CB)
    (hevent : event = READ_CB ∨ event = WRITE_CB) (hne : fd ≠ listenfd) (granted : Bool) :
    Moved listenfd s (nreactorSetEvent s granted fd (some (callbackOf event)) event none).1 fd := by
  have hunset : (s.conn fd).interest = none ↔ (s.conn fd).item.events = NOSET_CB :=
    hat.unset (by obtain rfl | rfl := h' <;> decide)
  obtain ⟨c,hc,hchanged,-⟩ := nreactorSetEvent_changed event granted (fun _ => hat.opened) hunset
  refine ⟨⟨c,hchanged⟩,?_⟩
  rw [hchanged.self]
  obtain rfl | ⟨-,rfl⟩ := hc
  · exact (hat.prepared (isPhase h') (isPhase hevent)).settled h' hne _
  · exact (Conn.registered_at (isPhase hevent) hat.opened).settled hevent hne _

/-- A new connection asks to be added. -/
theorem setEvent_new (hopen : (s.conn fd).opened = true) (hnone : (s.conn fd).interest = none)
    (hnoset : (s.conn fd).item.events = NOSET_CB) (hne : fd ≠ listenfd) (granted : Bool) :
    Moved listenfd s (nreactorSetEvent s granted fd (some (callbackOf READ_CB)) READ_CB none).1 fd := by
  obtain ⟨c,hc,hchanged,hfailed⟩ := nreactorSetEvent_changed READ_CB granted
    (fun _ => hopen) ⟨fun _ => hnoset,fun _ => hnone⟩
  refine ⟨⟨c,hchanged⟩,?_⟩
  rw [hchanged.self]
  refine ⟨?_,fun _ => hfailed⟩
  obtain rfl | ⟨-,rfl⟩ := hc
  · exact .out hnone ((prepare_events ..).trans hnoset)
  · exact .reads hne (Conn.registered_at (.inl rfl) hopen)

theorem Moved.of_changed (h : Changed s s₁ fd c) (h' : Moved listenfd s₁ s' fd) :
    Moved listenfd s s' fd := by
  obtain ⟨c',hchanged⟩ := h'.changed
  exact ⟨⟨c',h.trans hchanged⟩,h'.settled⟩

theorem Moved.refl (hs : Steady listenfd s) (fd : ℕ) : Moved listenfd s s fd :=
  ⟨⟨_,Changed.refl s fd⟩,hs fd⟩

theorem writeCallback_moved (hat : (s.conn fd).At fd WRITE_CB) (hne : fd ≠ listenfd) (granted : Bool)
    (send : ℤ) : Moved listenfd s (writeCallback s granted fd send) fd := by
  unfold writeCallback
  split
  · exact hat.setEvent (.inr rfl) (.inr rfl) hne granted
  · exact hat.setEvent (.inr rfl) (.inl rfl) hne granted

theorem readCallback_moved (hs : Steady listenfd s) (hat : (s.conn fd).At fd READ_CB)
    (hne : fd ≠ listenfd) (granted : Bool) (recv : Option (List UInt8)) :
    Moved listenfd s (readCallback s granted fd recv) fd := by
  unfold readCallback
  split
  · exact Moved.refl hs fd
  · have hdel := nreactorDelEvent_changed hat.isSome
    have hclose := close_changed (nreactorDelEvent s fd) fd
    refine ⟨⟨_,hdel.trans hclose⟩,?_⟩
    rw [hclose.self, hdel.self]
    exact ⟨.out rfl rfl,nofun⟩
  · next b bytes =>
    have hfill := setItem_changed s fd ((s.items fd).fill (b :: bytes))
    refine Moved.of_changed hfill (Conn.At.setEvent ?_ (.inl rfl) (.inr rfl) hne granted)
    rw [hfill.self]
    exact ⟨hat.opened,hat.interest,hat.events,hat.fd,hat.pointer⟩

theorem acceptCallback_moved (hs : Steady listenfd s) {connfd : ℕ}
    (hnew : s.kernel.opened connfd = false) (hne : connfd ≠ listenfd) (granted : Bool) :
    Moved listenfd s (acceptCallback s granted (some connfd)) connfd := by
  have haccept := accept_changed s connfd
  obtain ⟨hnone,hnoset⟩ := (hs connfd).mirrored.of_closed hnew
  refine Moved.of_changed haccept (setEvent_new ?_ ?_ ?_ hne granted)
  · rw [haccept.self]
  · rw [haccept.self]
    exact hnone
  · rw [haccept.self]
    exact hnoset

end Callbacks
end ServerKit.ItemReactor
