import Gylo.Worker.Moves

/-! # Backpressure without a deadlock

The comment beside `ACK_CAPACITY` says why a full channel of acknowledgements
cannot stop a session: the child's read loop never blocks on writing, so the
dispatcher always gets back to the channel. Here the session has buffers of
bounded size: the two directions of the socket, and the channel. The child is an
event loop that takes whatever bytes there are and keeps what it cannot send; it
may write anything at any time, so what it makes of the bytes is left open. -/
namespace Gylo.Worker.Backpressure

open Gylo.Store Gylo.Wire Gylo.Worker.Session

/-! ## A session with bounded buffers -/

/-- How many bytes the socket holds in each direction. -/
structure Capacity where
  down : Nat
  up : Nat
  down_pos : 0 < down
  up_pos : 0 < up

/-- `sup.fromChild` is the socket towards the supervisor. `unsent` is what
`write_all` still has to hand over, `down` the socket towards the child, and `out`
what the child's transport keeps. -/
structure Flow where
  sup : Supervisor
  unsent : Bytes := []
  down : Bytes := []
  out : Bytes := []

/-- The next `n` bytes go on, if there are as many and they fit. -/
def pour (capacity n : Nat) (source target : Bytes) : Bytes × Bytes :=
  if n ≤ source.length ∧ target.length + n ≤ capacity then (source.drop n, target ++ source.take n)
  else (source, target)

/-- `dispatch` is in `write_all`. -/
def writes : Dispatch → Bool
  | .forwarding .. | .writing _ => true
  | _ => false

/-- The buffer `write_all` is called with. -/
def output : Dispatch → Bytes
  | .forwarding ack _ =>
    if Accepted (.stored ack.1 ack.2) then frame (.stored ack.1 ack.2) else []
  | .writing buf => (buf.map frame).flatten
  | _ => []

inductive Act where
  | dispatch (a : DispatchAct)
  | /-- the socket takes bytes of the buffer being written -/
    write (n : Nat)
  | collect (a : CollectAct)
  | childRead (n : Nat)
  | childWrite (bytes : Bytes)
  | childFlush (n : Nat)
  | outside (stmt : Stmt)
  | tick (d : Nat)

section
variable (cfg : Settings) (serde : Serde) (cap : Capacity)

/-- `write_all` returns when everything is handed over. The child is there, so no
write fails and no read comes to an end. -/
def step (f : Flow) : Act → Flow
  | .dispatch (.wrote ok) =>
    if ok = true ∧ f.unsent = [] then { f with sup := dispatchStep cfg f.sup (.wrote true) } else f
  | .dispatch a =>
    if writes f.sup.dispatch then f
    else
      { f with
        sup := dispatchStep cfg f.sup a
        unsent := output (dispatchStep cfg f.sup a).dispatch }
  | .write n =>
    { f with
      unsent := (pour cap.down n f.unsent f.down).1
      down := (pour cap.down n f.unsent f.down).2 }
  | .collect .eof => f
  | .collect a => { f with sup := collectStep cfg serde f.sup a }
  | .childRead n => { f with down := f.down.drop n }
  | .childWrite bytes => { f with out := f.out ++ bytes }
  | .childFlush n =>
    { f with
      sup := { f.sup with fromChild := (pour cap.up n f.out f.sup.fromChild).2 }
      out := (pour cap.up n f.out f.sup.fromChild).1 }
  | .outside stmt => { f with sup := Session.step cfg serde f.sup (.outside stmt) }
  | .tick d => { f with sup := Session.step cfg serde f.sup (.tick d) }

/-- A session that begins, after whatever came before it. -/
def opened (s : Supervisor) : Flow where
  sup := sessionStep cfg (sessionStep cfg { s with phase := .starting, shutdown := false } .start) .accept

def after (s : Supervisor) (as : List Act) : Flow := Runs.run (step cfg serde cap) (opened cfg s) as

/-! ## Who can move -/

inductive Party where
  | child | collector | dispatcher
deriving DecidableEq

/-- What a party does to get on: no frame of its own accord, no failure, and no
wait for jobs or slots coming to its end. Calls of the database return, and so
does the pause after a failed one. -/
def Own (f : Flow) : Party → Act → Prop
  | .child, .childRead _ | .child, .childFlush _ => True
  | .collector, .collect (.read _) | .collector, .collect .decode | .collector, .collect (.recorded _)
  | .collector, .collect .sent | .collector, .collect (.flush ..) => True
  | .dispatcher, .write _ => True
  | .dispatcher, .dispatch .wake => f.sup.dispatch = .retrying
  | .dispatcher, .dispatch .freed | .dispatcher, .dispatch .stop => False
  | .dispatcher, .dispatch _ => True
  | _, _ => False

def Blocked (f : Flow) (p : Party) : Prop := ∀ a, Own f p a → step cfg serde cap f a = f
end

/-- `dispatch` has jobs that are not with the child. -/
def unwritten : Dispatch → Bool
  | .admitting _ jobs => jobs ≠ []
  | .packing .. | .discarding .. | .writing _ => true
  | _ => false

def Unread (serde : Serde) (f : Flow) : Prop :=
  f.down ≠ [] ∨ f.out ≠ [] ∨ f.sup.fromChild ≠ [] ∨
    ∃ m d, f.sup.decoder.nextMessage serde = (.ok (some m), d)

def UnsentAck (f : Flow) : Prop :=
  f.sup.acks ≠ [] ∨ (∃ ack, f.sup.collector = .sending ack) ∨
    ∃ ack polling, f.sup.dispatch = .forwarding ack polling

section
variable {cfg : Settings} {serde : Serde} {cap : Capacity} {f : Flow} {s s' : Supervisor} {stmt : Option Stmt}

/-! ## The dispatcher stays in its loop -/

theorem fetched_ne_done (jobs : List FetchCall.LeasedJob) (ok : Bool) : fetched jobs ≠ .done ok := by
  unfold fetched
  split <;> (intro h; cases h)

theorem afterUnkeyed_ne_done (limit : Int) (jobs : List FetchCall.LeasedJob) (ok : Bool) :
    afterUnkeyed cfg s limit jobs ≠ .done ok := by
  unfold afterUnkeyed
  repeat' split
  all_goals (intro h; cases h)

/-- It returns on the token or when a write fails, and neither happens here. -/
theorem dispatch_ne_done {a : DispatchAct} (hmove : DispatchMove cfg s a stmt s') (hshutdown : s.shutdown = false)
    (hfails : a ≠ .wrote false) (h : ∀ ok, s.dispatch ≠ .done ok) : ∀ ok, s'.dispatch ≠ .done ok := by
  intro ok
  cases hmove with
  | stays => exact h ok
  | ends hend =>
    cases hend with
    | finds hat hdown => cases hshutdown.symm.trans hdown
    | told hat hdown => cases hshutdown.symm.trans hdown
    | unforwarded => exact absurd rfl hfails
    | unwritten => exact absurd rfl hfails
  | turns hturn => cases hturn <;> (intro h; cases h)
  | @forwards ack polling => cases polling <;> (intro h; cases h)
  | unkeyed => exact afterUnkeyed_ne_done _ _ ok
  | keyed => exact fetched_ne_done _ ok
  | _ => intro h; cases h

/-! ## The invariant -/

/-- The collector waits for bytes only when no frame is left in its decoder. -/
def Drained (serde : Serde) (s : Supervisor) : Prop :=
  (s.collector = .reading ∨ ∃ stage, s.collector = .flushing stage false) →
    s.decoder.nextMessage serde = (.ok none, s.decoder)

theorem Drained.busy (hreading : s.collector ≠ .reading)
    (hflushing : ∀ stage, s.collector ≠ .flushing stage false) : Drained serde s := by
  intro hwaits
  rcases hwaits with hwaits | ⟨stage, hwaits⟩
  · exact absurd hwaits hreading
  · exact absurd hwaits (hflushing stage)

/-- A frame is looked for until there is none, and only then does the collector go back
to reading, or flush and go on. -/
theorem drained_of_pause {a : CollectAct} (h : Pauses cfg serde s a false) (hs : Drained serde s) :
    s.decoder.nextMessage serde = (.ok none, s.decoder) := by
  cases h with
  | timer hat => exact hs (.inl hat)
  | full hat hnext => exact hnext

theorem Drained.collect {a : CollectAct} (h : Drained serde s) (hmove : CollectMove cfg serde s a stmt s') :
    Drained serde s' := by
  have hdecoding : ∀ {s' : Supervisor}, s'.collector = .decoding → Drained serde s' := fun hat =>
    .busy (fun h => by cases hat.symm.trans h) fun stage h => by cases hat.symm.trans h
  cases hmove with
  | stays => exact h
  | drains hat hnext => exact fun _ => hnext
  | @nothing a final hpause =>
    cases final with
    | false =>
      have hnext := drained_of_pause hpause h
      exact fun _ => hnext
    | true => exact .busy (fun h => by cases h) fun stage h => by cases h
  | @flushes a final hpause =>
    cases final with
    | false =>
      have hnext := drained_of_pause hpause h
      exact fun _ => hnext
    | true => exact .busy (fun h => by cases h) fun stage h => by cases h
  | @calls random fails stage final stmt hat =>
    cases final with
    | false => exact fun _ => h (.inr ⟨stage, hat⟩)
    | true => exact .busy (fun h => by cases h) fun stage h => by cases h
  | @releases random fails final hat =>
    cases final with
    | false => exact fun _ => h (.inr ⟨_, hat⟩)
    | true => exact .busy (fun h => by cases h) fun stage h => by cases h
  | hears hat => exact hdecoding hat
  | skips hat => exact hdecoding hat
  | reads | recordFails | recordRefused | unheard | sends => exact hdecoding rfl
  | records | recorded => exact .busy (fun h => by cases h) fun stage h => by cases h

structure Inv (serde : Serde) (s : Supervisor) : Prop where
  phase : s.phase = .serving
  shutdown : s.shutdown = false
  alive : s.alive = true
  closed : s.closed = false
  running : ∀ ok, s.dispatch ≠ .done ok
  drained : Drained serde s

theorem inv_opened (s : Supervisor) : Inv serde (opened cfg s).sup :=
  ⟨rfl, rfl, rfl, rfl, (fun _ h => by cases h), fun _ => rfl⟩

theorem Inv.dispatch (h : Inv serde s) {a : DispatchAct} (hfails : a ≠ .wrote false) :
    Inv serde (dispatchStep cfg s a) := by
  have hmove := dispatchStep_move cfg s a
  have hframe := hmove.frame
  refine ⟨hframe.phase.trans h.phase, hframe.shutdown.trans h.shutdown, hframe.alive.trans h.alive,
    hframe.closed.trans h.closed, dispatch_ne_done hmove h.shutdown hfails h.running, ?_⟩
  unfold Drained
  rw [hframe.collector, hframe.decoder]
  exact h.drained

theorem Inv.collect (h : Inv serde s) (a : CollectAct) : Inv serde (collectStep cfg serde s a) := by
  have hmove := collectStep_move cfg serde s a
  have hframe := hmove.frame
  exact ⟨hframe.phase.trans h.phase, hframe.shutdown.trans h.shutdown, hframe.alive.trans h.alive,
    hframe.closed.trans h.closed, fun ok => hframe.dispatch ▸ h.running ok, h.drained.collect hmove⟩

theorem inv_step (f : Flow) (a : Act) (h : Inv serde f.sup) :
    Inv serde (step cfg serde cap f a).sup := by
  cases a with
  | dispatch a =>
    cases a with
    | wrote ok =>
      simp only [step]
      split
      · dsimp only
        refine h.dispatch ?_
        intro hfails; cases hfails
      · exact h
    | _ =>
      simp only [step]
      split
      · exact h
      · dsimp only
        refine h.dispatch ?_
        intro hfails; cases hfails
  | collect a =>
    cases a with
    | eof => exact h
    | _ =>
      simp only [step]
      exact h.collect _
  | outside stmt =>
    simp only [step, Session.step]
    split
    · exact h
    · exact { h with }
  | tick d =>
    simp only [step, Session.step]
    split
    · exact h
    · exact { h with }
  | write n | childRead n | childWrite bytes => exact h
  | childFlush n => exact { h with }

theorem inv_after (s : Supervisor) (as : List Act) : Inv serde (after cfg serde cap s as).sup :=
  Runs.run_inv (I := fun f : Flow => Inv serde f.sup) inv_step as (inv_opened s)

/-! ## Progress -/

theorem pour_one {capacity : Nat} {source target : Bytes} (hsource : source ≠ [])
    (hroom : target.length < capacity) : (pour capacity 1 source target).1 ≠ source := by
  have hlength : 0 < source.length := List.length_pos_iff.mpr hsource
  rw [pour, if_pos ⟨hlength, hroom⟩]
  intro h
  have hdrop := congrArg List.length h
  rw [List.length_drop] at hdrop
  omega

theorem childRead_moves (h : f.down ≠ []) : ¬ Blocked cfg serde cap f .child := by
  intro hblocked
  have hdown := congrArg (fun f : Flow => f.down.length) (hblocked (.childRead 1) trivial)
  have hlength : 0 < f.down.length := List.length_pos_iff.mpr h
  simp only [step, List.length_drop] at hdown
  omega

theorem childFlush_moves (h : f.out ≠ []) (hroom : f.sup.fromChild.length < cap.up) :
    ¬ Blocked cfg serde cap f .child := by
  intro hblocked
  exact pour_one h hroom (congrArg Flow.out (hblocked (.childFlush 1) trivial))

/-- `write_all` waits for the child, which reads. -/
theorem write_moves (hwrites : writes f.sup.dispatch = true) :
    ∃ p, ¬ Blocked cfg serde cap f p := by
  by_cases hunsent : f.unsent = []
  · refine ⟨.dispatcher, fun hblocked => ?_⟩
    have hwrote := congrArg (fun f : Flow => writes f.sup.dispatch)
      (hblocked (.dispatch (.wrote true)) trivial)
    simp only [step, hunsent, and_self, if_true, dispatchStep, hwrites] at hwrote
    cases hdispatch : f.sup.dispatch with
    | forwarding ack polling =>
      rw [hdispatch] at hwrote
      cases polling <;> cases hwrote
    | writing buf => rw [hdispatch] at hwrote; cases hwrote
    | _ => rw [hdispatch] at hwrites; cases hwrites
  · by_cases hroom : f.down.length < cap.down
    · refine ⟨.dispatcher, fun hblocked => ?_⟩
      exact pour_one hunsent hroom (congrArg Flow.unsent (hblocked (.write 1) trivial))
    · have hpos := cap.down_pos
      exact ⟨.child, childRead_moves (List.length_pos_iff.mp (by omega))⟩

/-- The dispatcher moves if one of its actions takes it elsewhere. -/
theorem dispatch_moves {a : DispatchAct} (hown : Own f .dispatcher (.dispatch a))
    (hwrote : ∀ ok, a ≠ .wrote ok) (hwrites : writes f.sup.dispatch = false)
    (hmoves : (dispatchStep cfg f.sup a).dispatch ≠ f.sup.dispatch) :
    ¬ Blocked cfg serde cap f .dispatcher := by
  intro hblocked
  have hstep := congrArg (fun f : Flow => f.sup.dispatch) (hblocked (.dispatch a) hown)
  cases a with
  | wrote ok => exact hwrote ok rfl
  | _ =>
    simp only [step, hwrites, Bool.false_eq_true, if_false] at hstep
    exact hmoves hstep

theorem collect_moves {a : CollectAct} (hown : Own f .collector (.collect a))
    (hmoves : collectStep cfg serde f.sup a ≠ f.sup) : ¬ Blocked cfg serde cap f .collector := by
  intro hblocked
  have hstep := congrArg Flow.sup (hblocked (.collect a) hown)
  cases a with
  | eof => cases hown
  | _ => exact hmoves hstep

theorem fetchUnkeyed_moves (limit : Int) (skip : List JobId) (commit : FetchCall.Commit) :
    (fetchUnkeyed cfg s limit skip commit).dispatch ≠ .fetching limit := by
  unfold fetchUnkeyed
  split
  · dsimp only
    repeat' split
    all_goals (intro h; cases h)
  · intro h; cases h
  · intro h; cases h

theorem fetchKeyed_moves (limit : Int) (jobs : List FetchCall.LeasedJob) (skip : List JobId)
    (commit : FetchCall.Commit) :
    (fetchKeyed cfg s limit jobs skip commit).dispatch ≠ .admitting limit jobs := by
  simp only [fetchKeyed]
  split
  · unfold fetched
    split <;> (intro h; cases h)
  · intro h; cases h
  · intro h; cases h

theorem pack_moves (fails : Bool) (buf : List Message) (reserved : List JobId)
    (todo : List FetchCall.LeasedJob) :
    (pack s fails buf reserved todo).dispatch ≠ .packing todo buf reserved := by
  cases todo with
  | nil =>
    simp only [pack]
    split <;> (intro h; cases h)
  | cons job todo =>
    simp only [pack]
    split
    · intro h
      injection h with htodo
      exact List.cons_ne_self job todo htodo.symm
    · intro h; cases h

/-- At the channel `recv` returns when there is something, and when nobody is left
to send. -/
theorem recv_moves (hwaits : s.dispatch = .full ∨ s.dispatch = .idle)
    (h : s.acks ≠ [] ∨ s.collector = .returned) :
    (dispatchStep cfg s .recv).dispatch ≠ s.dispatch := by
  cases hacks : s.acks with
  | nil =>
    have hreturned := h.resolve_left fun hne => hne hacks
    rcases hwaits with hd | hd <;> simp [dispatchStep, hd, hacks, hreturned]
  | cons ack acks => rcases hwaits with hd | hd <;> simp [dispatchStep, hd, hacks]

variable (cfg) in
/-- Wherever else it is, one of its own actions takes the dispatcher on. -/
theorem dispatcher_moves (hinv : Inv serde s) (hwrites : writes s.dispatch = false)
    (hfull : s.dispatch ≠ .full) (hidle : s.dispatch ≠ .idle) :
    ∃ a : DispatchAct, (∀ ok, a ≠ .wrote ok) ∧ a ≠ .freed ∧ a ≠ .stop ∧
      (a = .wake → s.dispatch = .retrying) ∧ (dispatchStep cfg s a).dispatch ≠ s.dispatch := by
  cases hd : s.dispatch with
  | full => exact absurd hd hfull
  | idle => exact absurd hd hidle
  | forwarding ack polling => rw [hd] at hwrites; cases hwrites
  | writing buf => rw [hd] at hwrites; cases hwrites
  | done ok => exact absurd hd (hinv.running ok)
  | checking => exact ⟨.check, by simp [dispatchStep, hd, hinv.shutdown]⟩
  | acking =>
    refine ⟨.tryRecv, by simp, by simp, by simp, by simp, ?_⟩
    cases hacks : s.acks with
    | cons ack acks => simp [dispatchStep, hd, hacks]
    | nil =>
      simp only [dispatchStep, hd, hacks]
      split <;> (intro h; cases h)
  | fetching limit =>
    refine ⟨.fetchUnkeyed [] .ok, by simp, by simp, by simp, by simp, ?_⟩
    simp only [dispatchStep, hd]
    exact fetchUnkeyed_moves limit [] .ok
  | asking limit =>
    refine ⟨.ask false, by simp, by simp, by simp, by simp, ?_⟩
    simp only [dispatchStep, hd, Bool.false_eq_true, if_false]
    split <;> (intro h; cases h)
  | admitting limit jobs =>
    refine ⟨.fetchKeyed [] .ok, by simp, by simp, by simp, by simp, ?_⟩
    simp only [dispatchStep, hd]
    exact fetchKeyed_moves limit jobs [] .ok
  | retrying => exact ⟨.wake, by simp [dispatchStep, hd]⟩
  | packing todo buf reserved =>
    refine ⟨.pack false, by simp, by simp, by simp, by simp, ?_⟩
    simp only [dispatchStep, hd]
    exact pack_moves false buf reserved todo
  | discarding id error todo buf reserved => exact ⟨.discard false, by simp [dispatchStep, hd]⟩

/-- If nobody can move, the dispatcher waits at the channel, and that is empty. -/
theorem dispatcher_waits (hinv : Inv serde f.sup) (h : ∀ p, Blocked cfg serde cap f p) :
    (f.sup.dispatch = .full ∨ f.sup.dispatch = .idle) ∧ f.sup.acks = [] ∧
      f.sup.collector ≠ .returned := by
  have hwrites : writes f.sup.dispatch = false := by
    by_contra hwrites
    have hmoves : ∃ p, ¬ Blocked cfg serde cap f p := write_moves (by simpa using hwrites)
    obtain ⟨p, hp⟩ := hmoves
    exact hp (h p)
  have hwaits : f.sup.dispatch = .full ∨ f.sup.dispatch = .idle := by
    by_contra hbusy
    obtain ⟨hfull, hidle⟩ := not_or.mp hbusy
    obtain ⟨a, hwrote, hfreed, hstop, hwake, hmoves⟩ :=
      dispatcher_moves cfg hinv hwrites hfull hidle
    refine dispatch_moves ?_ hwrote hwrites hmoves (h .dispatcher)
    cases a with
    | wake => exact hwake rfl
    | freed => exact absurd rfl hfreed
    | stop => exact absurd rfl hstop
    | _ => trivial
  have hempty : ¬ (f.sup.acks ≠ [] ∨ f.sup.collector = .returned) := fun hsome =>
    dispatch_moves (a := .recv) trivial (fun _ h => by cases h) hwrites (recv_moves hwaits hsome)
      (h .dispatcher)
  obtain ⟨hacks, hreturned⟩ := not_or.mp hempty
  exact ⟨hwaits, not_not.mp hacks, hreturned⟩

/-- A message taken out of the decoder is gone from it. -/
theorem decode_moves (hdecoding : s.collector = .decoding)
    (hmove : CollectMove cfg serde s .decode stmt s') : s' ≠ s := by
  have hleaves : ∀ {s' : Supervisor}, s'.collector ≠ .decoding → s' ≠ s := fun hne heq =>
    hne ((congrArg Supervisor.collector heq).trans hdecoding)
  have hshorter : ∀ {m : Message} {d : Decoder}, s.decoder.nextMessage serde = (.ok (some m), d) →
      d ≠ s.decoder := by
    intro m d hnext heq
    rcases s.decoder.nextMessage_cases serde with ⟨hnone, -⟩ | ⟨e, herror, -⟩ | ⟨m', d', hsome, hcut⟩
    · cases hnone.symm.trans hnext
    · cases herror.symm.trans hnext
    · cases hsome.symm.trans hnext
      have hlt : d.view.length < s.decoder.view.length := (Decoder.format serde).cutter.item_shorter hcut
      rw [heq] at hlt
      exact Nat.lt_irrefl _ hlt
  cases hmove with
  | stays helse => exact absurd hdecoding helse
  | @nothing a final => exact hleaves (by cases final <;> (intro h; cases h))
  | flushes | drains | records => exact hleaves fun h => by cases h
  | hears hat hnext => exact fun heq => hshorter hnext (congrArg Supervisor.decoder heq)
  | skips hat hnext => exact fun heq => hshorter hnext (congrArg Supervisor.decoder heq)

theorem flushStep_moves (random : JobId → Nat) (stage : FlushStage) (final : Bool) :
    (flushStep cfg s random false stage final).collector ≠ .flushing stage final := by
  cases stage <;> cases final <;> (intro h; cases h)

/-- With room in the channel, the collector can only be waiting for bytes. -/
theorem collector_waits (h : Blocked cfg serde cap f .collector)
    (hacks : f.sup.acks = []) (hreturned : f.sup.collector ≠ .returned) :
    f.sup.collector = .reading ∧ f.sup.fromChild = [] := by
  have stays : ∀ a : CollectAct, Own f .collector (.collect a) →
      collectStep cfg serde f.sup a = f.sup := by
    intro a hown
    by_contra hmoves
    exact collect_moves hown hmoves h
  cases hc : f.sup.collector with
  | reading =>
    refine ⟨rfl, ?_⟩
    by_contra hbytes
    have hread := congrArg Supervisor.collector (stays (.read 1) trivial)
    have hlength : 0 < f.sup.fromChild.length := List.length_pos_iff.mpr hbytes
    simp only [collectStep, hc] at hread
    rw [if_pos ⟨Nat.one_pos, hlength⟩] at hread
    cases hread
  | decoding =>
    exact absurd (stays .decode trivial) (decode_moves hc (collectStep_move cfg serde f.sup .decode))
  | recording id name result =>
    have hrecorded := congrArg Supervisor.collector (stays (.recorded false) trivial)
    simp only [collectStep, hc, Bool.false_eq_true, if_false] at hrecorded
    split at hrecorded <;> cases hrecorded
  | sending ack =>
    have hsent := congrArg Supervisor.collector (stays .sent trivial)
    have hroom : f.sup.acks.length < ackCapacity := by rw [hacks]; decide
    simp only [collectStep, hc] at hsent
    split at hsent
    · cases hsent
    · rw [if_pos hroom] at hsent
      cases hsent
    · next hother _ => exact (hother ack rfl).elim
  | flushing stage final =>
    have hflush := congrArg Supervisor.collector (stays (.flush (fun _ => 0) false) trivial)
    simp only [collectStep, hc] at hflush
    exact absurd hflush (flushStep_moves _ stage final)
  | returned => exact absurd hc hreturned

/-! ## The buffers and the session -/

/-- The session with these bytes in its socket. -/
@[simps]
def fed (s : Supervisor) (bytes : Bytes) : Supervisor := { s with fromChild := bytes }

/-- Without the bounds, what the child has sent is on its way in one place. -/
def Flow.unbounded (f : Flow) : Supervisor := fed f.sup (f.sup.fromChild ++ f.out)

theorem pour_append (capacity n : Nat) (source target : Bytes) :
    (pour capacity n source target).2 ++ (pour capacity n source target).1 = target ++ source := by
  unfold pour
  split
  · simp [List.append_assoc, List.take_append_drop]
  · rfl

theorem fetchUnkeyed_fed (bytes : Bytes) (limit : Int) (skip : List JobId)
    (commit : FetchCall.Commit) :
    fetchUnkeyed cfg (fed s bytes) limit skip commit =
      fed (fetchUnkeyed cfg s limit skip commit) bytes := by
  have hmeets : meets (fed s bytes) skip = meets s skip := rfl
  simp only [fetchUnkeyed, hmeets, fed_db]
  cases s.db.run (.fetchUnkeyed (FetchCall.unkeyedArgs (Session.call cfg limit) (meets s skip))) <;>
    cases commit <;> rfl

theorem fetchKeyed_fed (bytes : Bytes) (limit : Int) (jobs : List FetchCall.LeasedJob)
    (skip : List JobId) (commit : FetchCall.Commit) :
    fetchKeyed cfg (fed s bytes) limit jobs skip commit =
      fed (fetchKeyed cfg s limit jobs skip commit) bytes := by
  have hmeets : meets (fed s bytes) skip = meets s skip := rfl
  simp only [fetchKeyed, hmeets, fed_db]
  cases s.db.run (.fetchKeyed
    (FetchCall.keyedArgs (Session.call cfg limit) (meets s skip) jobs.length)) <;>
    cases commit <;> rfl

theorem pack_fed (bytes : Bytes) (fails : Bool) (buf : List Message) (reserved : List JobId)
    (todo : List FetchCall.LeasedJob) :
    pack (fed s bytes) fails buf reserved todo = fed (pack s fails buf reserved todo) bytes := by
  cases todo with
  | nil => simp only [pack]; split <;> rfl
  | cons job todo =>
    have hprior : priorSteps (fed s bytes) fails job = priorSteps s fails job := rfl
    simp only [pack, hprior]
    cases (encode (dispatchOf job) []).2 <;> rfl

/-- The dispatcher does not look at what the child sends. -/
theorem dispatchStep_fed (bytes : Bytes) (a : DispatchAct) :
    dispatchStep cfg (fed s bytes) a = fed (dispatchStep cfg s a) bytes := by
  cases a with
  | fetchUnkeyed skip commit =>
    simp only [dispatchStep, fed_dispatch]
    split
    · exact fetchUnkeyed_fed bytes _ skip commit
    · rfl
  | fetchKeyed skip commit =>
    simp only [dispatchStep, fed_dispatch]
    split
    · exact fetchKeyed_fed bytes _ _ skip commit
    · rfl
  | pack fails =>
    simp only [dispatchStep, fed_dispatch]
    split
    · exact pack_fed bytes fails _ _ _
    · rfl
  | _ =>
    simp only [dispatchStep, endDispatch, fed_dispatch, fed_acks, fed_shutdown, fed_collector,
      fed_inflight, fed_db, fed_now]
    repeat' split
    all_goals rfl

theorem startFlush_fed (bytes : Bytes) (final : Bool) :
    startFlush (fed s bytes) final = fed (startFlush s final) bytes := by
  simp only [startFlush, fed_pending]
  split <;> rfl

theorem decode_fed (bytes : Bytes) :
    decode cfg serde (fed s bytes) = fed (decode cfg serde s) bytes := by
  unfold decode
  rw [fed_decoder]
  rcases s.decoder.nextMessage_cases serde with ⟨hnext, -⟩ | ⟨e, hnext, -⟩ | ⟨m, d, hnext, -⟩
  · rw [hnext]
    dsimp only
    rw [fed_pending]
    split
    · exact startFlush_fed (s := s) bytes false
    · rfl
  · rw [hnext]
    exact startFlush_fed (s := s) bytes true
  · rw [hnext]
    cases m <;> rfl

/-- Nor does the collector, outside of its reads. -/
theorem collectStep_fed (bytes : Bytes) {a : CollectAct} (heof : a ≠ .eof)
    (hread : ∀ n, a ≠ .read n) :
    collectStep cfg serde (fed s bytes) a = fed (collectStep cfg serde s a) bytes := by
  cases a with
  | eof => exact absurd rfl heof
  | read n => exact absurd rfl (hread n)
  | decode =>
    simp only [collectStep, fed_collector]
    split
    · exact decode_fed bytes
    · rfl
  | flush random fails =>
    simp only [collectStep, fed_collector]
    split
    · next stage final _ => cases stage <;> rfl
    · rfl
  | recorded fails =>
    simp only [collectStep, fed_collector]
    split
    · next id name result _ =>
      split
      · rfl
      · rw [fed_db, fed_now]
        cases s.db.run (.recordStep id name result s.now) <;> rfl
    · rfl
  | readError =>
    simp only [collectStep, fed_collector]
    split
    · exact startFlush_fed bytes true
    · rfl
  | timer =>
    simp only [collectStep, fed_collector, fed_deadline, fed_now]
    split
    · split
      · exact startFlush_fed bytes false
      · rfl
    · rfl
  | sent =>
    simp only [collectStep, fed_collector, fed_dispatch, fed_acks]
    split
    · rfl
    · split <;> rfl
    · rfl

/-- A read from the socket is a read of what the child has sent. -/
theorem read_append (out : Bytes) {n : Nat} (hn : n ≤ s.fromChild.length) :
    collectStep cfg serde (fed s (s.fromChild ++ out)) (.read n) =
      fed (collectStep cfg serde s (.read n))
        ((collectStep cfg serde s (.read n)).fromChild ++ out) := by
  have hiff : (0 < n ∧ n ≤ (s.fromChild ++ out).length) ↔ 0 < n ∧ n ≤ s.fromChild.length := by
    rw [List.length_append]
    omega
  simp only [collectStep, fed_collector, fed_fromChild, hiff, List.take_append_of_le_length hn,
    List.drop_append_of_le_length hn]
  split
  · split <;> rfl
  · rfl

theorem unbounded_dispatch (hinv : Inv serde f.sup) (a : DispatchAct) (unsent : Bytes) :
    ({ f with sup := dispatchStep cfg f.sup a, unsent := unsent } : Flow).unbounded =
      Session.step cfg serde f.unbounded (.dispatch a) := by
  have hserving : f.unbounded.phase = .serving := hinv.phase
  have hdispatch : Session.step cfg serde f.unbounded (.dispatch a) =
      dispatchStep cfg f.unbounded a := if_pos hserving
  rw [hdispatch]
  unfold Flow.unbounded
  rw [dispatchStep_fed, (dispatchStep_move cfg f.sup a).frame.fromChild]

theorem unbounded_collect {a : CollectAct} (heof : a ≠ .eof)
    (hread : ∀ n, a = .read n → n ≤ f.sup.fromChild.length) :
    ({ f with sup := collectStep cfg serde f.sup a } : Flow).unbounded =
      Session.step cfg serde f.unbounded (.collect a) := by
  have hcollect : Session.step cfg serde f.unbounded (.collect a) =
      collectStep cfg serde f.unbounded a := rfl
  rw [hcollect]
  unfold Flow.unbounded
  by_cases hn : ∃ n, a = .read n
  · obtain ⟨n, rfl⟩ := hn
    rw [read_append f.out (hread n rfl)]
  · have hother : ∀ n, a ≠ .read n := fun n h => hn ⟨n, h⟩
    have hfed : collectStep cfg serde f.sup a =
        fed (collectStep cfg serde f.sup a) f.sup.fromChild := collectStep_fed _ heof hother
    have hbytes : (collectStep cfg serde f.sup a).fromChild = f.sup.fromChild := by
      rw [hfed]
      rfl
    rw [collectStep_fed _ heof hother, hbytes]

/-- Every step of the bounded session is a step of `Session`, or none. -/
theorem unbounded_step (hinv : Inv serde f.sup) (a : Act) : ∃ as,
    (step cfg serde cap f a).unbounded = Runs.run (Session.step cfg serde) f.unbounded as := by
  cases a with
  | dispatch a =>
    cases a with
    | wrote ok =>
      simp only [step]
      split
      · exact ⟨[.dispatch (.wrote true)], unbounded_dispatch hinv _ f.unsent⟩
      · exact ⟨[], rfl⟩
    | _ =>
      simp only [step]
      split
      · exact ⟨[], rfl⟩
      · exact ⟨[.dispatch _], unbounded_dispatch hinv _ _⟩
  | collect a =>
    have hcollect : ∀ a : CollectAct, a ≠ .eof → (∀ n, a ≠ .read n) →
        ({ f with sup := collectStep cfg serde f.sup a } : Flow).unbounded =
          Runs.run (Session.step cfg serde) f.unbounded [.collect a] :=
      fun a heof hread => unbounded_collect heof fun n h => absurd h (hread n)
    cases a with
    | eof => exact ⟨[], rfl⟩
    | read n =>
      by_cases hn : n ≤ f.sup.fromChild.length
      · exact ⟨[.collect (.read n)],
          unbounded_collect (fun h => by cases h) fun m h => by cases h; exact hn⟩
      · refine ⟨[], ?_⟩
        simp only [step, collectStep]
        split
        · rw [if_neg fun h => hn h.2]; rfl
        · rfl
    | _ =>
      simp only [step]
      refine ⟨_, hcollect _ ?_ ?_⟩
      · intro h; cases h
      · intro n h; cases h
  | write n => exact ⟨[], rfl⟩
  | childRead n => exact ⟨[], rfl⟩
  | childWrite bytes =>
    refine ⟨[.child (.send bytes)], ?_⟩
    simp [step, Flow.unbounded, fed, Session.step, childStep, hinv.alive, hinv.closed]
  | childFlush n =>
    refine ⟨[], ?_⟩
    simp [step, Flow.unbounded, fed, pour_append]
  | outside stmt =>
    refine ⟨[.outside stmt], ?_⟩
    simp only [step, Runs.run_cons, Runs.run_nil, Session.step, Flow.unbounded, fed]
    split <;> rfl
  | tick d =>
    refine ⟨[.tick d], ?_⟩
    simp only [step, Runs.run_cons, Runs.run_nil, Session.step, Flow.unbounded, fed]
    split <;> rfl

/-- The bounds take runs away and add none: what holds of every run of `Session`
holds here. -/
theorem unbounded_after (s : Supervisor) (as : List Act) : ∃ bs,
    (after cfg serde cap s as).unbounded =
      Runs.run (Session.step cfg serde) (opened cfg s).unbounded bs := by
  have keep : ∀ (f : Flow) (a : Act),
      (Inv serde f.sup ∧ ∃ bs, f.unbounded =
        Runs.run (Session.step cfg serde) (opened cfg s).unbounded bs) →
      Inv serde (step cfg serde cap f a).sup ∧ ∃ bs, (step cfg serde cap f a).unbounded =
        Runs.run (Session.step cfg serde) (opened cfg s).unbounded bs := by
    intro f a hf
    obtain ⟨hinv, bs, hbs⟩ := hf
    have hstep : ∃ cs, (step cfg serde cap f a).unbounded =
        Runs.run (Session.step cfg serde) f.unbounded cs := unbounded_step hinv a
    obtain ⟨cs, hcs⟩ := hstep
    refine ⟨inv_step f a hinv, bs ++ cs, ?_⟩
    rw [hcs, hbs, Runs.run_append]
  exact (Runs.run_inv keep as ⟨inv_opened s, [], rfl⟩).2

end

/-- **Backpressure cannot deadlock.** In every state a session reaches before
shutdown, whatever the sizes of the buffers and in any interleaving, somebody can
move if a frame is unread, an acknowledgement unsent or a dispatch unwritten. -/
theorem backpressure_no_deadlock (cfg : Settings) (serde : Serde) (cap : Capacity)
    (s : Supervisor) (as : List Act)
    (h : Unread serde (after cfg serde cap s as) ∨ UnsentAck (after cfg serde cap s as) ∨
      unwritten (after cfg serde cap s as).sup.dispatch = true) :
    ∃ p, ¬ Blocked cfg serde cap (after cfg serde cap s as) p := by
  have hinv : Inv serde (after cfg serde cap s as).sup := inv_after s as
  generalize after cfg serde cap s as = f at h hinv ⊢
  by_contra hnobody
  have hblocked : ∀ p, Blocked cfg serde cap f p := fun p => by
    by_contra hp
    exact hnobody ⟨p, hp⟩
  obtain ⟨hdispatch, hacks, hreturned⟩ := dispatcher_waits hinv hblocked
  obtain ⟨hreading, hread⟩ := collector_waits (hblocked .collector) hacks hreturned
  have hdown : f.down = [] := by
    by_contra hdown
    exact childRead_moves hdown (hblocked .child)
  have hout : f.out = [] := by
    by_contra hout
    refine childFlush_moves hout ?_ (hblocked .child)
    rw [hread]
    exact cap.up_pos
  rcases h with (h | h | h | ⟨m, d, hnext⟩) | (h | ⟨ack, h⟩ | ⟨ack, polling, h⟩) | h
  · exact h hdown
  · exact h hout
  · exact h hread
  · cases (hinv.drained (.inl hreading)).symm.trans hnext
  · exact h hacks
  · cases hreading.symm.trans h
  · rcases hdispatch with hd | hd <;> cases hd.symm.trans h
  · rcases hdispatch with hd | hd <;> rw [hd] at h <;> cases h

/-- Room for one byte each way. A job is dispatched, and the first byte of its frame
fills the socket. -/
def narrow : Flow :=
  after { worker := 7 } Serde.messagePack ⟨1, 1, Nat.one_pos, Nat.one_pos⟩ (initial oneWaiting)
    [.dispatch .check, .dispatch .tryRecv, .dispatch (.fetchUnkeyed [] .ok), .dispatch (.pack false),
      .dispatch (.pack false), .write 1, .write 1]

theorem backpressure_no_deadlock_narrow :
    narrow.down.length = 1 ∧ narrow.unsent.length = 19 ∧
    ∃ p, ¬ Blocked { worker := 7 } Serde.messagePack ⟨1, 1, Nat.one_pos, Nat.one_pos⟩ narrow p :=
  ⟨by decide, by decide, backpressure_no_deadlock _ _ _ _ _ (.inr (.inr (by decide)))⟩

end Gylo.Worker.Backpressure
