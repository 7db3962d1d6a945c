import Gylo.Worker.Reader

/-! # The acknowledgement of a step

A `StepContext.step` waits until its `Record` has gone through the collector and the
database and its `Stored` has come back through the channel and `dispatch`, the only
writer of the socket. `dispatch` returns as soon as shutdown is requested, and takes
the receiver of the channel with it; the session then drains for jobs that may have
steps left to record. -/
namespace Gylo.Worker.Session

open Gylo.Store Gylo.Wire Framing Runs

/-- What the child has sent and the decoder has not cut yet. -/
def stream (s : Supervisor) : Bytes := s.decoder.view ++ s.fromChild

def unread (serde : Serde) (s : Supervisor) : List Message :=
  ((Decoder.format serde).cutter.frames (stream s)).items

/-- The acknowledgement `dispatch` is writing. -/
def Dispatch.inHand : Dispatch → Option Ack
  | .forwarding ack _ => some ack
  | _ => none

/-- The acknowledgement is in the channel, in the hands of `dispatch`, or on the
socket. -/
def Queued (s : Supervisor) (ack : Ack) : Prop :=
  ack ∈ s.acks ∨ (∃ polling, s.dispatch = .forwarding ack polling) ∨ .stored ack.1 ack.2 ∈ s.toChild

/-- The collector is between the `Record` and the channel. -/
def Collector.carries : Collector → Bool
  | .recording _ _ _ | .sending _ => true
  | _ => false

/-- The `Record` is unread, or being persisted, or on its way into the channel, or the
acknowledgement is queued. -/
def Undelivered (serde : Serde) (s : Supervisor) (ack : Ack) : Prop :=
  (∃ result, .record ack.1 ack.2 result ∈ unread serde s) ∨
  (∃ result, s.collector = .recording ack.1 ack.2 result) ∨ s.collector = .sending ack ∨ Queued s ack

/-- No acknowledgement is lost that a live child waits for. -/
def AcksKept (serde : Serde) (s : Supervisor) : Prop :=
  s.alive = true → ∀ ack ∈ s.waiting, Undelivered serde s ack

/-! ## Whole frames -/

/-- The bytes are frames the decoder can read, and nothing besides. -/
def Whole (serde : Serde) (bytes : Bytes) : Prop :=
  ((Decoder.format serde).cutter.frames bytes).rest = [] ∧
    ((Decoder.format serde).cutter.frames bytes).error.isNone

instance (serde : Serde) (bytes : Bytes) : Decidable (Whole serde bytes) :=
  inferInstanceAs (Decidable (_ ∧ _))

section
variable {serde : Serde}

theorem frames_append_of_whole {xs : Bytes} (h : Whole serde xs) (ys : Bytes) :
    (Decoder.format serde).cutter.frames (xs ++ ys) =
      ((Decoder.format serde).cutter.frames ys).before ((Decoder.format serde).cutter.frames xs).items := by
  obtain ⟨hrest, herror⟩ := h
  rw [Cutter.frames_append, Option.isNone_iff_eq_none.mp herror, hrest]
  rfl

theorem whole_append {xs ys : Bytes} (hx : Whole serde xs) (hy : Whole serde ys) :
    Whole serde (xs ++ ys) := by
  unfold Whole
  rw [frames_append_of_whole hx]
  exact hy

theorem frames_frame {m : Message} (htyped : m.Typed) (h : Accepted m) :
    (Decoder.format serde).cutter.frames (frame m) = ⟨[m], [], none⟩ := by
  have hcut := cut_frame_of_accepted serde htyped h []
  rw [List.append_nil] at hcut
  rw [Cutter.frames_item hcut, Cutter.frames_more (Prefixed.cutter_nil _)]
  rfl

/-- A `Stored` is smaller than the `Record` it answers. -/
theorem accepted_stored {id : Int} {name : String} {result : Bytes}
    (h : Accepted (.record id name result)) : Accepted (.stored id name) := by
  obtain ⟨n, hn, hle⟩ := accepted_iff.mp h
  refine accepted_iff.mpr ⟨_, rfl, ?_⟩
  simp only [bodyLen, Except.ok.injEq] at hn
  simp [packed, Packing.MessagePack.array] at hn ⊢
  omega
end

/-! ## When nothing is lost -/

/-- The child sends whole frames, its records within the limit and while `dispatch` is
there to answer them; steps are recorded; and `dispatch` returns when nobody waits. -/
def Answers (serde : Serde) (s : Supervisor) : Act → Prop
  | .child (.send bytes) => Whole serde bytes
  | .child (.record id name result) => (Message.record id name result).Typed ∧
      Accepted (.record id name result) ∧ (s.phase = .opening ∨ s.dispatch.looping = true)
  | .collect (.recorded fails) => match s.collector with
    | .recording id name result => fails = false ∧ (s.db.run (.recordStep id name result s.now)).isOk
    | _ => True
  | .dispatch .check => s.dispatch = .checking → s.shutdown = true → s.waiting = []
  | .dispatch .stop => s.shutdown = true → s.waiting = []
  | .dispatch (.wrote ok) => ok = false → s.waiting = []
  | _ => True

/-- As long as the child is alive. -/
def AnswersAlive (serde : Serde) (s : Supervisor) (a : Act) : Prop := s.alive = true → Answers serde s a

section
variable {cfg : Settings} {serde : Serde} {s s' : Supervisor} {ack : Ack}

theorem inHand_of_not_looping {d : Dispatch} (h : d.looping = false) : d.inHand = none := by
  cases d <;> first | rfl | cases h

/-- `dispatch`, with no acknowledgement in hand, goes on to anything else. -/
theorem Queued.of_free {d : Dispatch} (h : Queued s ack) (hdispatch : s.dispatch = d)
    (hfree : d.inHand = none) (hacks : s'.acks = s.acks) (hsocket : s'.toChild = s.toChild) : Queued s' ack := by
  rcases h with hchannel | ⟨polling, hforwarding⟩ | hwritten
  · exact .inl (hacks ▸ hchannel)
  · cases hdispatch.symm.trans hforwarding
    cases hfree
  · exact .inr (.inr (hsocket ▸ hwritten))

/-- The head of the channel moves into the hands of `dispatch`. -/
theorem Queued.of_recv {d : Dispatch} {head : Ack} {acks : List Ack} {polling : Bool} (h : Queued s ack)
    (hdispatch : s.dispatch = d) (hfree : d.inHand = none) (hacks : s.acks = head :: acks) :
    Queued { s with acks := acks, dispatch := .forwarding head polling } ack := by
  rcases h with hchannel | ⟨polling, hforwarding⟩ | hwritten
  · rw [hacks] at hchannel
    rcases List.mem_cons.mp hchannel with rfl | htail
    · exact .inr (.inl ⟨_, rfl⟩)
    · exact .inl htail
  · cases hdispatch.symm.trans hforwarding
    cases hfree
  · exact .inr (.inr hwritten)

/-- Where it goes from, `dispatch` has no acknowledgement in hand. -/
theorem Turns.free {a : DispatchAct} {d : Dispatch} (h : Turns cfg s a d) :
    s.dispatch.inHand = none ∧ d.looping = true := by
  have hfree : ∀ {d : Dispatch}, s.dispatch = d → d.inHand = none → s.dispatch.inHand = none :=
    fun hd hn => hd ▸ hn
  cases h with
  | closed hat | wakes hat => rcases hat with hat | hat <;> exact ⟨hfree hat rfl, rfl⟩
  | _ => exact ⟨hfree ‹s.dispatch = _› rfl, rfl⟩

theorem FetchFails.free {a : DispatchAct} {stmt : Option Stmt} (h : FetchFails cfg s a stmt) :
    s.dispatch.inHand = none := by
  cases h <;> (rw [‹s.dispatch = _›]; rfl)

theorem Receives.free {a : DispatchAct} {polling : Bool} (h : Receives s a polling) :
    s.dispatch.inHand = none := by
  rcases h with ⟨hat, -⟩ | ⟨hat | hat, -⟩ <;> (rw [hat]; rfl)

theorem looping_afterUnkeyed (limit : Int) (jobs : List FetchCall.LeasedJob) :
    (afterUnkeyed cfg s limit jobs).looping = true := by
  unfold afterUnkeyed
  repeat' split
  all_goals rfl

theorem looping_fetched (jobs : List FetchCall.LeasedJob) : (fetched jobs).looping = true := by
  unfold fetched
  split <;> rfl

/-- While somebody waits, `dispatch` answers what it has in hand and goes on. -/
theorem DispatchMove.queued {a : DispatchAct} {stmt : Option Stmt} (h : DispatchMove cfg s a stmt s')
    (ha : Answers serde s (.dispatch a)) (hsome : s.waiting ≠ []) (hfits : Accepted (.stored ack.1 ack.2)) :
    (Queued s ack → Queued s' ack) ∧ (s.dispatch.looping = true → s'.dispatch.looping = true) := by
  have hfree : ∀ {d : Dispatch}, s.dispatch = d → d.inHand = none → s.dispatch.inHand = none :=
    fun hd hn => hd ▸ hn
  cases h with
  | stays => exact ⟨id, id⟩
  | ends h =>
    cases h with
    | finds hat hdown => exact absurd (ha hat hdown) hsome
    | told hat hdown => exact absurd (ha hdown) hsome
    | unforwarded | unwritten => exact absurd (ha rfl) hsome
  | turns h => exact ⟨fun hq => hq.of_free rfl h.free.1 rfl rfl, fun _ => h.free.2⟩
  | fetchFails h => exact ⟨fun hq => hq.of_free rfl h.free rfl rfl, fun _ => rfl⟩
  | receives hat hacks => exact ⟨fun hq => hq.of_recv rfl hat.free hacks, fun _ => rfl⟩
  | @forwards sent polling hat =>
    refine ⟨fun hq => ?_, fun _ => by cases polling <;> rfl⟩
    rcases hq with hchannel | ⟨p, hp⟩ | hwritten
    · exact .inl hchannel
    · cases hat.symm.trans hp
      exact .inr (.inr (List.mem_append_right _ (by rw [if_pos hfits]; exact List.mem_singleton_self _)))
    · exact .inr (.inr (List.mem_append_left _ hwritten))
  | writes hat =>
    refine ⟨fun hq => ?_, fun _ => rfl⟩
    rcases hq with hchannel | ⟨p, hp⟩ | hwritten
    · exact .inl hchannel
    · cases hat.symm.trans hp
    · exact .inr (.inr (List.mem_append_left _ hwritten))
  | unkeyed hat => exact ⟨fun hq => hq.of_free hat rfl rfl rfl, fun _ => looping_afterUnkeyed _ _⟩
  | keyed hat => exact ⟨fun hq => hq.of_free hat rfl rfl rfl, fun _ => looping_fetched _⟩
  | _ => exact ⟨fun hq => hq.of_free ‹s.dispatch = _› rfl rfl rfl, fun _ => rfl⟩

/-! ## The collector's part -/

/-- A collector with nothing in hand goes on to anything else. -/
theorem Undelivered.of_idle {c : Collector} (h : Undelivered serde s ack) (hcollector : s.collector = c)
    (hidle : c.carries = false) (hstream : stream s' = stream s) (hqueued : Queued s ack → Queued s' ack) :
    Undelivered serde s' ack := by
  rcases h with ⟨result, hunread⟩ | ⟨result, hrecording⟩ | hsending | hqueue
  · refine .inl ⟨result, ?_⟩
    unfold unread at hunread ⊢
    rw [hstream]
    exact hunread
  · cases hcollector.symm.trans hrecording
    cases hidle
  · cases hcollector.symm.trans hsending
    cases hidle
  · exact .inr (.inr (.inr (hqueued hqueue)))

/-- What the decoder cuts off its buffer is cut off the stream. -/
theorem cut_stream {d : Decoder} {m : Message} (h : s.decoder.nextMessage serde = (.ok (some m), d)) :
    (Decoder.format serde).cutter.cut (stream s) = .item m (stream { s with decoder := d }) := by
  rcases s.decoder.nextMessage_cases serde with ⟨hnext, -⟩ | ⟨e, hnext, -⟩ | ⟨m', d', hnext, hcut⟩
  · cases hnext.symm.trans h
  · cases hnext.symm.trans h
  · cases hnext.symm.trans h
    exact (Decoder.format serde).cutter.item_append hcut s.fromChild

/-- What is cut off is the first message unread. -/
theorem nextMessage_stream {d : Decoder} {m : Message} (h : s.decoder.nextMessage serde = (.ok (some m), d)) :
    unread serde s = m :: unread serde { s with decoder := d } ∧
      (Whole serde (stream s) → Whole serde (stream { s with decoder := d })) := by
  have hframes := Cutter.frames_item (cut_stream h)
  constructor
  · unfold unread
    rw [hframes]
    rfl
  · unfold Whole
    rw [hframes]
    exact id

/-- A message other than the awaited `Record` is taken off the stream. -/
theorem Undelivered.of_other {d : Decoder} {m : Message} (h : Undelivered serde s ack)
    (hdecoding : s.collector = .decoding) (hnext : s.decoder.nextMessage serde = (.ok (some m), d))
    (hother : ∀ result, m ≠ .record ack.1 ack.2 result) (hstream : stream s' = stream { s with decoder := d })
    (hqueued : Queued s ack → Queued s' ack) : Undelivered serde s' ack := by
  rcases h with ⟨result, hunread⟩ | ⟨result, hcollector⟩ | hcollector | hqueue
  · rw [(nextMessage_stream hnext).1] at hunread
    rcases List.mem_cons.mp hunread with hhead | htail
    · exact absurd hhead.symm (hother result)
    · refine .inl ⟨result, ?_⟩
      unfold unread at htail ⊢
      rw [hstream]
      exact htail
  · cases hdecoding.symm.trans hcollector
  · cases hdecoding.symm.trans hcollector
  · exact .inr (.inr (.inr (hqueued hqueue)))

theorem read_stream (n : Nat) :
    (s.decoder.extend (s.fromChild.take n)).view ++ s.fromChild.drop n = stream s := by
  rw [Decoder.view_extend, List.append_assoc, List.take_append_drop]
  rfl

theorem CollectMove.whole {a : CollectAct} {stmt : Option Stmt} (h : CollectMove cfg serde s a stmt s')
    (hwhole : Whole serde (stream s)) : Whole serde (stream s') := by
  cases h with
  | @reads n =>
    unfold stream
    dsimp only
    rw [read_stream]
    exact hwhole
  | hears hat hnext | records hat hnext | skips hat hnext => exact (nextMessage_stream hnext).2 hwhole
  | _ => exact hwhole

/-- What the collector has recorded it goes on to acknowledge. -/
theorem Undelivered.recorded {id : JobId} {name : String} {result : Bytes} {db : Db}
    (h : Undelivered serde s ack) (hrecording : s.collector = .recording id name result) :
    Undelivered serde { s with db := db, collector := .sending (id, name) } ack := by
  rcases h with hunread | ⟨r, hcollector⟩ | hcollector | hqueue
  · exact .inl hunread
  · cases hrecording.symm.trans hcollector
    exact .inr (.inr (.inl rfl))
  · cases hrecording.symm.trans hcollector
  · exact .inr (.inr (.inr hqueue))

theorem Undelivered.sent {mine : Ack} (h : Undelivered serde s ack)
    (hsending : s.collector = .sending mine) :
    Undelivered serde { s with acks := s.acks ++ [mine], collector := .decoding } ack := by
  rcases h with hunread | ⟨r, hcollector⟩ | hcollector | hqueue
  · exact .inl hunread
  · cases hsending.symm.trans hcollector
  · cases hsending.symm.trans hcollector
    exact .inr (.inr (.inr (.inl (List.mem_append_right _ (List.mem_singleton_self _)))))
  · refine .inr (.inr (.inr ?_))
    rcases hqueue with hchannel | hrest
    · exact .inl (List.mem_append_left _ hchannel)
    · exact .inr hrest

theorem Pauses.idle {a : CollectAct} {final : Bool} (h : Pauses cfg serde s a final) :
    s.collector.carries = false := by
  cases h <;> (rw [‹s.collector = _›]; rfl)

/-- The collector passes on what it has read, to a `dispatch` that is there. -/
theorem CollectMove.undelivered {a : CollectAct} {stmt : Option Stmt} (h : CollectMove cfg serde s a stmt s')
    (hack : Undelivered serde s ack) (ha : Answers serde s (.collect a)) (hlooping : s.dispatch.looping = true) :
    Undelivered serde s' ack := by
  cases h with
  | stays => exact hack
  | @reads n hat => exact hack.of_idle hat rfl (read_stream n) id
  | nothing h | flushes h => exact hack.of_idle rfl h.idle rfl id
  | drains hat => exact hack.of_idle hat rfl rfl id
  | hears hat hnext => exact hack.of_other hat hnext (fun _ hr => by cases hr) rfl id
  | @records id name result d hat hnext =>
    by_cases hmine : ack = (id, name)
    · subst hmine
      exact .inr (.inl ⟨result, rfl⟩)
    · refine hack.of_other hat hnext (fun r hr => hmine ?_) rfl fun hq => hq
      cases hr
      rfl
  | skips hat hnext hcomplete hrecord =>
    exact hack.of_other hat hnext (fun r hr => hrecord _ _ _ hr) rfl fun hq => hq
  | recordFails hat =>
    simp only [Answers, hat] at ha
    cases ha.1
  | recordRefused hat hrun =>
    simp only [Answers, hat, hrun] at ha
    cases ha.2
  | recorded hat => exact hack.recorded hat
  | unheard hat hdone =>
    rw [hdone] at hlooping
    cases hlooping
  | sends hat => exact hack.sent hat
  | calls hat | releases hat => exact hack.of_idle hat rfl rfl fun hq => hq

/-! ## Over a run -/

/-- Before the child is accepted nobody reads or writes. While it is alive, its bytes
are whole frames, every answer it waits for fits a frame and is on its way, and once
`dispatch` has returned it waits for none. -/
structure Tracked (serde : Serde) (s : Supervisor) : Prop where
  opening : s.phase = .opening → s.collector = .returned ∧ s.dispatch.looping = false
  whole : s.alive = true → Whole serde (stream s)
  fits : s.alive = true → ∀ ack ∈ s.waiting, Accepted (.stored ack.1 ack.2)
  answering : s.alive = true → s.waiting ≠ [] → s.phase = .opening ∨ s.dispatch.looping = true
  kept : AcksKept serde s

/-- Without a child nobody waits. -/
theorem Tracked.dead (hdead : s.alive = false)
    (hopening : s.phase = .opening → s.collector = .returned ∧ s.dispatch.looping = false) :
    Tracked serde s := by
  have hnot : s.alive ≠ true := Bool.eq_false_iff.mp hdead
  exact ⟨hopening, fun h => absurd h hnot, fun h => absurd h hnot, fun h => absurd h hnot,
    fun h => absurd h hnot⟩

theorem CollectMove.returned {a : CollectAct} {stmt : Option Stmt} (h : CollectMove cfg serde s a stmt s')
    (hreturned : s.collector = .returned) : s' = s := by
  cases h with
  | stays => rfl
  | nothing h | flushes h => cases h <;> cases hreturned.symm.trans ‹s.collector = _›
  | _ => cases hreturned.symm.trans ‹s.collector = _›

theorem DispatchMove.tracked {a : DispatchAct} {stmt : Option Stmt} (hmove : DispatchMove cfg s a stmt s')
    (h : Tracked serde s) (hserving : s.phase = .serving) (ha : AnswersAlive serde s (.dispatch a)) :
    Tracked serde s' := by
  have hframe := hmove.frame
  have hstream : stream s' = stream s := by
    rw [stream, stream, hframe.decoder, hframe.fromChild]
  refine ⟨?_, ?_, ?_, ?_, ?_⟩
  · rw [hframe.phase, hserving]
    exact fun hopening => by cases hopening
  · rw [hframe.alive, hstream]
    exact h.whole
  · rw [hframe.alive, hframe.waiting]
    exact h.fits
  · rw [hframe.alive, hframe.waiting]
    intro halive hsome
    obtain ⟨ack, hack⟩ := List.exists_mem_of_ne_nil _ hsome
    rcases h.answering halive hsome with hopening | hlooping
    · cases hserving.symm.trans hopening
    · exact .inr ((hmove.queued (ha halive) hsome (h.fits halive ack hack)).2 hlooping)
  · unfold AcksKept
    rw [hframe.alive, hframe.waiting]
    intro halive ack hack
    have hqueued : Queued s ack → Queued s' ack :=
      (hmove.queued (ha halive) (List.ne_nil_of_mem hack) (h.fits halive ack hack)).1
    unfold Undelivered unread
    rw [hframe.collector, hstream]
    rcases h.kept halive ack hack with hunread | hrecording | hsending | hqueue
    · exact .inl hunread
    · exact .inr (.inl hrecording)
    · exact .inr (.inr (.inl hsending))
    · exact .inr (.inr (.inr (hqueued hqueue)))

theorem CollectMove.tracked {a : CollectAct} {stmt : Option Stmt} (hmove : CollectMove cfg serde s a stmt s')
    (h : Tracked serde s) (ha : AnswersAlive serde s (.collect a)) : Tracked serde s' := by
  by_cases hopening : s.phase = .opening
  · rw [hmove.returned (h.opening hopening).1]
    exact h
  · have hframe := hmove.frame
    refine ⟨?_, ?_, ?_, ?_, ?_⟩
    · rw [hframe.phase]
      exact fun hphase => absurd hphase hopening
    · rw [hframe.alive]
      exact fun halive => hmove.whole (h.whole halive)
    · rw [hframe.alive, hframe.waiting]
      exact h.fits
    · rw [hframe.alive, hframe.waiting, hframe.phase, hframe.dispatch]
      exact h.answering
    · unfold AcksKept
      rw [hframe.alive, hframe.waiting]
      intro halive ack hack
      rcases h.answering halive (List.ne_nil_of_mem hack) with hphase | hlooping
      · exact absurd hphase hopening
      · exact hmove.undelivered (h.kept halive ack hack) (ha halive) hlooping

theorem Tracked.looping (h : Tracked serde s) {phase : Phase} (hphase : s.phase = phase)
    (hopened : phase ≠ .opening) (halive : s.alive = true) (hsome : s.waiting ≠ []) :
    s.dispatch.looping = true :=
  (h.answering halive hsome).resolve_left fun hopening => hopened (hphase.symm.trans hopening)

/-- From one phase to another, with the tasks and the child as they were. -/
theorem Tracked.into (h : Tracked serde s) {phase : Phase} (hphase : s.phase = phase)
    (hopened : phase ≠ .opening) (hnext : s'.phase ≠ .opening) (hlive : s'.alive = s.alive)
    (hstream : stream s' = stream s) (hwaiting : s'.waiting = s.waiting) (hdispatch : s'.dispatch = s.dispatch)
    (hkept : ∀ ack, Undelivered serde s ack → Undelivered serde s' ack) : Tracked serde s' := by
  refine ⟨fun ho => absurd ho hnext, ?_, ?_, ?_, ?_⟩
  · rw [hlive, hstream]
    exact h.whole
  · rw [hlive, hwaiting]
    exact h.fits
  · rw [hlive, hwaiting, hdispatch]
    exact fun halive hsome => .inr (h.looping hphase hopened halive hsome)
  · unfold AcksKept
    rw [hlive, hwaiting]
    exact fun halive ack hack => hkept ack (h.kept halive ack hack)

theorem Finishes.not_opening {a : SessionAct} (h : Finishes cfg s a) : s.phase ≠ .opening := by
  cases h <;> (rw [‹s.phase = _›]; exact fun ho => by cases ho)

theorem SessionMove.tracked {a : SessionAct} {stmt : Option Stmt} (hmove : SessionMove cfg s a stmt s')
    (h : Tracked serde s) : Tracked serde s' := by
  cases hmove with
  | stays => exact h
  | finishes hf =>
    exact h.into rfl hf.not_opening (fun ho => by cases ho) rfl rfl rfl rfl fun _ hack => hack
  | opens =>
    exact ⟨fun _ => ⟨rfl, rfl⟩, fun _ => ⟨rfl, rfl⟩, (fun _ _ hack => by cases hack), fun _ _ => .inl rfl,
      fun _ _ hack => by cases hack⟩
  | accepts hat =>
    obtain ⟨hreturned, hdone⟩ := h.opening hat
    refine ⟨(fun ho => by cases ho), h.whole, h.fits, fun _ _ => .inr rfl, fun halive ack hack => ?_⟩
    exact (h.kept halive ack hack).of_idle hreturned rfl rfl
      fun hq => hq.of_free rfl (inHand_of_not_looping hdone) rfl rfl
  | refuses => exact .dead rfl fun ho => by cases ho
  | exits hat hdead hphase =>
    refine .dead hdead fun ho => ?_
    rcases hphase with ⟨-, rfl⟩ | ⟨-, rfl⟩ <;> cases ho
  | leaves hat hdone hphase =>
    refine h.into hat (fun ho => by cases ho) ?_ rfl rfl rfl rfl fun _ hack => hack
    rcases hphase with ⟨-, rfl⟩ | ⟨-, rfl⟩ <;> exact fun ho => by cases ho
  | kills hat => exact .dead rfl fun ho => by cases hat.symm.trans ho
  | shutdown => exact ⟨h.opening, h.whole, h.fits, h.answering, h.kept⟩
  | _ =>
    exact h.into ‹s.phase = _› (fun ho => by cases ho) (fun ho => by cases ho) rfl rfl rfl rfl fun _ hack => hack

theorem unread_append {bytes : Bytes} (h : Whole serde (stream s)) (hs : stream s' = stream s ++ bytes) :
    unread serde s' = unread serde s ++ ((Decoder.format serde).cutter.frames bytes).items := by
  rw [unread, hs, frames_append_of_whole h]
  rfl

/-- The child adds to the stream. -/
theorem Undelivered.of_append {bytes : Bytes} (h : Undelivered serde s ack) (hwhole : Whole serde (stream s))
    (hs : stream s' = stream s ++ bytes) (hcollector : s'.collector = s.collector)
    (hqueued : Queued s ack → Queued s' ack) : Undelivered serde s' ack := by
  unfold Undelivered
  rw [hcollector, unread_append hwhole hs]
  rcases h with ⟨result, hunread⟩ | hrecording | hsending | hqueue
  · exact .inl ⟨result, List.mem_append_left _ hunread⟩
  · exact .inr (.inl hrecording)
  · exact .inr (.inr (.inl hsending))
  · exact .inr (.inr (.inr (hqueued hqueue)))

/-- A message ends the wait for what it acknowledges, and no other. -/
theorem mem_resolve {waiting : List Ack} {m : Message} (h : ack ∈ resolve waiting m) :
    ack ∈ waiting ∧ .stored ack.1 ack.2 ≠ m := by
  unfold resolve at h
  split at h
  · next id name =>
    obtain ⟨hmem, hne⟩ := List.mem_filter.mp h
    refine ⟨hmem, fun hsame => ?_⟩
    cases hsame
    simp at hne
  · next hother => exact ⟨h, fun hsame => hother _ _ hsame.symm⟩

/-- The child reads a message that is not this acknowledgement. -/
theorem Undelivered.of_receive {m : Message} {rest : List Message} {waiting : List Ack}
    (h : Undelivered serde s ack) (hto : s.toChild = m :: rest) (hne : .stored ack.1 ack.2 ≠ m) :
    Undelivered serde { s with toChild := rest, waiting := waiting } ack := by
  rcases h with hunread | hrecording | hsending | hchannel | hforwarding | hwritten
  · exact .inl hunread
  · exact .inr (.inl hrecording)
  · exact .inr (.inr (.inl hsending))
  · exact .inr (.inr (.inr (.inl hchannel)))
  · exact .inr (.inr (.inr (.inr (.inl hforwarding))))
  · rw [hto] at hwritten
    exact .inr (.inr (.inr (.inr (.inr ((List.mem_cons.mp hwritten).resolve_left hne)))))

theorem ChildMove.tracked {a : ChildAct} (hmove : ChildMove s a s') (h : Tracked serde s)
    (ha : AnswersAlive serde s (.child a)) : Tracked serde s' := by
  cases hmove with
  | stays => exact h
  | @sends bytes hlive hopen =>
    have hbytes : Whole serde bytes := ha hlive
    have hstream : stream { s with fromChild := s.fromChild ++ bytes } = stream s ++ bytes :=
      (List.append_assoc _ _ _).symm
    refine ⟨h.opening, fun halive => ?_, h.fits, h.answering, fun halive ack hack => ?_⟩
    · rw [hstream]
      exact whole_append (h.whole halive) hbytes
    · exact (h.kept halive ack hack).of_append (h.whole halive) hstream rfl id
  | @records id name result hlive hopen =>
    obtain ⟨htyped, haccepted, hanswering⟩ := ha hlive
    have hframes : (Decoder.format serde).cutter.frames (frame (.record id name result)) =
        ⟨[.record id name result], [], none⟩ := frames_frame htyped haccepted
    have hwhole := h.whole hlive
    have hstream : ∀ waiting,
        stream { s with fromChild := s.fromChild ++ frame (.record id name result), waiting := waiting } =
          stream s ++ frame (.record id name result) := fun _ => (List.append_assoc _ _ _).symm
    refine ⟨h.opening, fun halive => ?_, fun halive ack hack => ?_, fun _ _ => hanswering,
      fun halive ack hack => ?_⟩
    · rw [hstream]
      refine whole_append hwhole ?_
      unfold Whole
      rw [hframes]
      exact ⟨rfl, rfl⟩
    · rcases List.mem_append.mp hack with hold | hnew
      · exact h.fits halive ack (List.mem_filter.mp hold).1
      · cases List.mem_singleton.mp hnew
        exact accepted_stored haccepted
    · rcases List.mem_append.mp hack with hold | hnew
      · exact (h.kept halive ack (List.mem_filter.mp hold).1).of_append hwhole (hstream _) rfl fun hq => hq
      · cases List.mem_singleton.mp hnew
        refine .inl ⟨result, ?_⟩
        rw [unread_append hwhole (hstream _), hframes]
        exact List.mem_append_right _ (List.mem_singleton_self _)
  | receives hlive hsocket =>
    refine ⟨h.opening, h.whole, fun halive ack hack => h.fits halive ack (mem_resolve hack).1,
      fun halive hsome => h.answering halive ?_, fun halive ack hack => ?_⟩
    · obtain ⟨ack, hack⟩ := List.exists_mem_of_ne_nil _ hsome
      exact List.ne_nil_of_mem (mem_resolve hack).1
    · exact (h.kept halive ack (mem_resolve hack).1).of_receive hsocket (mem_resolve hack).2
  | closes => exact ⟨h.opening, h.whole, h.fits, h.answering, h.kept⟩
  | exits => exact .dead rfl h.opening

theorem Move.tracked {a : Act} {stmt : Option Stmt} (hmove : Move cfg serde s a stmt s') (h : Tracked serde s)
    (ha : AnswersAlive serde s a) : Tracked serde s' := by
  cases hmove with
  | dispatch hserving hmove => exact hmove.tracked h hserving ha
  | collect hmove => exact hmove.tracked h ha
  | session hmove => exact hmove.tracked h
  | child hmove => exact hmove.tracked h ha
  | renew hmove => cases hmove <;> exact ⟨h.opening, h.whole, h.fits, h.answering, h.kept⟩
  | stays | outside | tick => exact ⟨h.opening, h.whole, h.fits, h.answering, h.kept⟩
end

/-- **No step acknowledgement is lost** in a run in which, while its child is alive,
the child sends whole frames and records no step that does not fit one, nor after
`dispatch` has returned; every step is recorded; and `dispatch` returns only when no
step waits. -/
theorem step_acks_kept (cfg : Settings) (serde : Serde) (db : Db) (as : List Act)
    (h : Along (step cfg serde) (AnswersAlive serde) (initial db) as) :
    AcksKept serde (run (step cfg serde) (initial db) as) := by
  have hkeep : ∀ s a, Tracked serde s → AnswersAlive serde s a → Tracked serde (step cfg serde s a) :=
    fun s a hs ha => (step_move cfg serde s a).tracked hs ha
  have hinitial : Tracked serde (initial db) := .dead rfl fun hopening => by cases hopening
  exact (Along.inv hkeep as hinitial h).kept

/-- A step is recorded while `dispatch` is looping, as far as the channel. -/
def oneRecord : List Act :=
  [.child (.record 1 "pay" [7]), .collect (.read 14), .collect .decode, .collect (.recorded false),
    .collect .sent]

def afterRecord : Supervisor :=
  run (step { worker := 7 } Serde.messagePack) (initial oneWaiting) (firstDispatch ++ oneRecord)

theorem step_acks_kept_channel :
    afterRecord.alive = true ∧ afterRecord.waiting = [(1, "pay")] ∧ afterRecord.acks = [(1, "pay")] ∧
    AcksKept Serde.messagePack afterRecord := by
  refine ⟨by decide, by decide, by decide, step_acks_kept _ _ _ _ ?_⟩
  refine ⟨fun _ => trivial, fun _ => trivial, fun _ _ hdown => Bool.noConfusion hdown, fun _ => trivial,
    fun _ => trivial, fun _ => trivial, fun _ => trivial, fun _ hbroken => Bool.noConfusion hbroken,
    fun _ => ⟨by decide, by decide, .inr rfl⟩, fun _ => trivial, fun _ => trivial, fun _ => ⟨rfl, rfl⟩,
    fun _ => trivial, trivial⟩

/-- Shutdown is requested with a durable job in flight; `dispatch` returns and the
session drains. The job comes to its first step. -/
def afterShutdown : Supervisor :=
  run (step { worker := 7 } Serde.messagePack) (initial oneWaiting)
    (firstDispatch ++ [.session .shutdown, .dispatch .check, .session .dispatchEnded] ++ oneRecord)

/-- The step is in the database, the child waits for the answer, and there is none. -/
theorem step_ack_lost :
    afterShutdown.alive = true ∧ afterShutdown.phase = .draining true 30000000 ∧
    afterShutdown.waiting = [(1, "pay")] ∧ afterShutdown.db.stepsFor 1 = [("pay", [7])] ∧
    ¬ AcksKept Serde.messagePack afterShutdown := by
  refine ⟨by decide, by decide, by decide, by decide, fun hkept => ?_⟩
  have hunread : unread Serde.messagePack afterShutdown = [] := by decide
  have hcollector : afterShutdown.collector = .decoding := by decide
  have hdispatch : afterShutdown.dispatch = .done true := rfl
  rcases hkept (by decide) (1, "pay") (by decide) with ⟨r, hr⟩ | ⟨r, hr⟩ | hr | hr | ⟨p, hr⟩ | hr
  · rw [hunread] at hr
    cases hr
  · cases hcollector.symm.trans hr
  · cases hcollector.symm.trans hr
  · exact absurd hr (by decide)
  · cases hdispatch.symm.trans hr
  · exact absurd hr (by decide)

end Gylo.Worker.Session
