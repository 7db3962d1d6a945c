import Gylo.Lib.Outputs
import Gylo.Worker.Moves

/-! # From the socket to the statements

`collect_completions` gathers the outcomes the child sends and writes them to the
database in batches: when a batch is full, when its first outcome has lingered long
enough, or when the stream ends. Sessions end and begin, and a batch is sent in four
statements with awaits in between. Whatever the interleaving, every outcome that is
read goes into exactly one statement, as it was read. -/
namespace Gylo.Worker.Delivery

open Gylo.Store Gylo.Wire Gylo.Worker.Session Runs

/-! ## What is heard and what is sent -/

/-- An outcome is decoded, or a statement of a flush is issued. -/
inductive Event where
  | heard (time : Time) (id : JobId) (outcome : Outcome)
  | sent (stmt : Stmt)

/-- What a step of the collector hears or sends. -/
def events (cfg : Settings) (serde : Serde) (s : Supervisor) : Act → List Event
  | .collect .decode => match s.collector, (s.decoder.nextMessage serde).1 with
    | .decoding, .ok (some (.complete id outcome)) => [.heard s.now id outcome]
    | _, _ => []
  | .collect (.flush random _) => match s.collector with
    | .flushing stage _ => (flushStmt cfg s random stage).toList.map Event.sent
    | _ => []
  | _ => []

/-- The outcomes decoded, each with its time. -/
def heard (es : List Event) : List (Time × JobId × Outcome) :=
  es.filterMap fun e => match e with
    | .heard time id outcome => some (time, id, outcome)
    | .sent _ => none

/-- The outcomes a statement records. -/
def carried : Stmt → List (JobId × Outcome)
  | .complete batch _ _ => batch.map fun v => (v.1, .success (v.2.getD []))
  | .retryMany a => a.batch.map fun v => (v.1, .failure v.2 true)
  | .discardMany batch _ _ => batch.map fun v => (v.1, .failure v.2 false)
  | _ => []

/-- The outcomes sent to the database. -/
def sent (es : List Event) : List (JobId × Outcome) :=
  es.flatMap fun e => match e with
    | .heard _ _ _ => []
    | .sent stmt => carried stmt

/-- The outcomes in a batch. -/
def outcomes (p : Pending) : List (JobId × Outcome) :=
  p.completed.map (fun id => (id, .success [])) ++ p.withResult.map (fun v => (v.1, .success v.2)) ++
    p.retry.map (fun v => (v.1, .failure v.2 true)) ++ p.terminal.map fun v => (v.1, .failure v.2 false)

/-- What is left of a batch at a stage of its flush. -/
def left (p : Pending) : FlushStage → Pending
  | .completed => p
  | .withResult => { p with completed := [] }
  | .retry => { p with completed := [], withResult := [] }
  | .terminal => { terminal := p.terminal }
  | .releasing => {}

/-- The outcomes heard and not sent. -/
def unsent (s : Supervisor) : List (JobId × Outcome) :=
  match s.collector with
  | .flushing stage _ => outcomes (left s.pending stage)
  | _ => outcomes s.pending

/-- The batch outcomes make. -/
def gathered (recent : List (Time × JobId × Outcome)) : Pending :=
  recent.foldl (fun p h => p.push h.2.1 h.2.2) {}

/-! ## Batches -/

theorem outcomes_push (p : Pending) (id : JobId) (outcome : Outcome) :
    (outcomes (p.push id outcome)).Perm (outcomes p ++ [(id, outcome)]) := by
  refine List.perm_iff_count.mpr fun x => ?_
  cases outcome with
  | success result =>
    simp only [Pending.push]
    split
    · next hempty =>
      rw [List.isEmpty_iff.mp hempty]
      simp only [outcomes, List.map_append, List.map_singleton, List.count_append]
      omega
    · simp only [outcomes, List.map_append, List.map_singleton, List.count_append]
      omega
  | failure error retry =>
    cases retry <;>
    · simp only [Pending.push, outcomes, List.map_append, List.map_singleton, List.count_append]
      omega

theorem outcomes_eq_nil {p : Pending} (h : p.settled = []) : p = {} := by
  obtain ⟨completed, withResult, retry, terminal⟩ := p
  simp only [Pending.settled, List.append_eq_nil_iff, List.map_eq_nil_iff] at h
  obtain ⟨⟨⟨rfl, rfl⟩, rfl⟩, rfl⟩ := h
  rfl

theorem gathered_concat (recent : List (Time × JobId × Outcome)) (time : Time) (id : JobId)
    (outcome : Outcome) : gathered (recent ++ [(time, id, outcome)]) = (gathered recent).push id outcome :=
  List.foldl_concat ..

/-- Only an empty list makes an empty batch. -/
theorem gathered_eq_nil {recent : List (Time × JobId × Outcome)} (h : gathered recent = {}) :
    recent = [] := by
  induction recent using List.reverseRecOn with
  | nil => rfl
  | append_singleton recent last _ =>
    obtain ⟨time, id, outcome⟩ := last
    rw [gathered_concat] at h
    have hmem := ((gathered recent).mem_settled_push id outcome id).mpr (.inl rfl)
    rw [h] at hmem
    cases hmem

/-- A stage sends what it takes out of the batch. -/
theorem left_next {cfg : Settings} {s : Supervisor} {random : JobId → Nat} {stage : FlushStage} {stmt : Stmt}
    (h : flushStmt cfg s random stage = some stmt) :
    outcomes (left s.pending stage) = carried stmt ++ outcomes (left s.pending stage.next) := by
  cases stage with
  | releasing => cases h
  | _ =>
    cases h
    simp [outcomes, left, carried, FlushStage.next, completeMany, completeManyWithResults, retryMany,
      discardMany, Function.comp_def]

/-! ## The account -/

/-- The phases in which there is no collector. -/
def quiet : Phase → Bool
  | .serving | .draining _ _ | .closing _ => false
  | _ => true

/-- Every outcome heard has been sent or is still to be sent. The batch is what was heard
last, and the timer is that of its first outcome; there is none without a collector,
and no full one while it reads. -/
structure Told (cfg : Settings) (s : Supervisor) (es : List Event) : Prop where
  account : ((heard es).map Prod.snd).Perm (sent es ++ unsent s)
  recent : ∃ older recent, heard es = older ++ recent ∧ s.pending = gathered recent ∧
    s.deadline = recent.head?.map fun h => h.1 + cfg.completionLinger
  returned : s.collector = .returned → s.pending = {}
  quiet : quiet s.phase = true → s.collector = .returned
  full : s.collector = .reading → s.pending.settled.length < cfg.completionBatch ∨ s.pending = {}

section
variable {cfg : Settings} {serde : Serde} {s s' : Supervisor} {es : List Event}

theorem unsent_of_not_flushing (h : ∀ stage final, s.collector ≠ .flushing stage final) :
    unsent s = outcomes s.pending := by
  unfold unsent
  split
  · next stage final hf => exact absurd hf (h stage final)
  · rfl

theorem Told.not_quiet (h : Told cfg s es) (hne : s.collector ≠ .returned) : Delivery.quiet s.phase = false := by
  cases hq : Delivery.quiet s.phase with
  | false => rfl
  | true => exact absurd (h.quiet hq) hne

/-- An empty batch is made of nothing, and has no timer. -/
theorem Told.recent_nil (h : Told cfg s es) (hnone : s.pending = {}) : s.deadline = none := by
  obtain ⟨older, recent, -, hpending, hdeadline⟩ := h.recent
  rw [gathered_eq_nil (hpending.symm.trans hnone)] at hdeadline
  exact hdeadline

/-- A step that neither hears nor sends, and leaves the batch and its timer. -/
theorem Told.of_same (h : Told cfg s es) (hunsent : unsent s' = unsent s) (hpending : s'.pending = s.pending)
    (hdeadline : s'.deadline = s.deadline) (hreturned : s'.collector = .returned → s.pending = {})
    (hquiet : Delivery.quiet s'.phase = true → s'.collector = .returned)
    (hfull : s'.collector = .reading → s.pending.settled.length < cfg.completionBatch ∨ s.pending = {}) :
    Told cfg s' es := by
  refine ⟨?_, ?_, ?_, hquiet, ?_⟩
  · rw [hunsent]
    exact h.account
  · rw [hpending, hdeadline]
    exact h.recent
  · rw [hpending]
    exact hreturned
  · rw [hpending]
    exact hfull

/-- A batch that is gone, or never was. -/
theorem Told.of_empty (h : Told cfg s es) (hnone : unsent s = []) (hpending : s'.pending = {})
    (hdeadline : s'.deadline = none) (hcollector : ∀ stage final, s'.collector ≠ .flushing stage final)
    (hquiet : Delivery.quiet s'.phase = true → s'.collector = .returned) : Told cfg s' es := by
  refine ⟨?_, ⟨heard es, [], (List.append_nil _).symm, hpending, hdeadline⟩, fun _ => hpending, hquiet,
    fun _ => .inr hpending⟩
  rw [unsent_of_not_flushing hcollector, hpending]
  have haccount := h.account
  rw [hnone] at haccount
  exact haccount

theorem afterFlush_not_flushing (final : Bool) : ∀ stage final', afterFlush final ≠ .flushing stage final' := by
  intro stage final' h
  cases final <;> cases h

/-! ## The collector's steps -/

/-- A pause is a flush, or there is nothing to flush. -/
theorem Told.paused {a : CollectAct} {final : Bool} (h : Told cfg s es) (hp : Pauses cfg serde s a final) :
    unsent s = outcomes s.pending ∧ Delivery.quiet s.phase = false := by
  cases hp with
  | eof hat | readError hat | timer hat | full hat | unreadable hat =>
    exact ⟨unsent_of_not_flushing fun _ _ hf => (by cases hat.symm.trans hf),
      h.not_quiet fun hr => by cases hat.symm.trans hr⟩

theorem events_pause {a : CollectAct} {final : Bool} (hp : Pauses cfg serde s a final) :
    events cfg serde s (.collect a) = [] := by
  cases hp with
  | full hat hnext | unreadable hat hnext => simp only [events, hat, hnext]
  | _ => rfl

theorem events_elsewhere {a : CollectAct} (h : Elsewhere s a) : events cfg serde s (.collect a) = [] := by
  cases a with
  | decode =>
    unfold events
    dsimp only
    split
    · next hat _ => exact absurd hat h
    · rfl
  | flush random fails =>
    unfold events
    dsimp only
    split
    · next hat => exact absurd hat (h _ _)
    · rfl
  | _ => rfl

/-- A call of a flush sends what it takes out of the batch. -/
theorem Told.called {random : JobId → Nat} (fails : Bool) {stage : FlushStage} {final : Bool} {stmt : Stmt}
    (h : Told cfg s es) (hat : s.collector = .flushing stage final)
    (hstmt : flushStmt cfg s random stage = some stmt) :
    Told cfg { s with db := issue fails stmt s.db, collector := .flushing stage.next final }
      (es ++ [.sent stmt]) := by
  have hsession := h.not_quiet fun hr => by cases hat.symm.trans hr
  have hunsent : unsent s = outcomes (left s.pending stage) := by
    unfold unsent
    rw [hat]
  have hheard : heard (es ++ [Event.sent stmt]) = heard es := by simp [heard]
  have hsent : sent (es ++ [Event.sent stmt]) = sent es ++ carried stmt := by simp [sent]
  refine ⟨?_, ?_, (fun hr => by cases hr), (fun hq => by cases hsession.symm.trans hq), fun hr => by cases hr⟩
  · have haccount := h.account
    rw [hunsent, left_next hstmt, ← List.append_assoc] at haccount
    rw [hheard, hsent]
    exact haccount
  · rw [hheard]
    exact h.recent

/-- An outcome joins the batch, and starts its timer if it is the first. -/
theorem hear_told (h : Told cfg s es) (hdecoding : s.collector = .decoding) (id : JobId) (outcome : Outcome)
    (d : Decoder) : Told cfg
      { s with
        decoder := d
        pending := s.pending.push id outcome
        deadline := some (s.deadline.getD (s.now + cfg.completionLinger)) }
      (es ++ [.heard s.now id outcome]) := by
  have hsession := h.not_quiet fun hr => by cases hdecoding.symm.trans hr
  have hunsent : unsent s = outcomes s.pending := by
    unfold unsent
    rw [hdecoding]
  have hheard : heard (es ++ [.heard s.now id outcome]) = heard es ++ [(s.now, id, outcome)] := by simp [heard]
  have hsent : sent (es ++ [.heard s.now id outcome]) = sent es := by simp [sent]
  refine ⟨?_, ?_, (fun hr => by cases hdecoding.symm.trans hr), (fun hq => by cases hsession.symm.trans hq),
    fun hr => by cases hdecoding.symm.trans hr⟩
  · have hpushed : unsent { s with
        decoder := d
        pending := s.pending.push id outcome
        deadline := some (s.deadline.getD (s.now + cfg.completionLinger)) } =
        outcomes (s.pending.push id outcome) := by
      unfold unsent
      dsimp only
      rw [hdecoding]
    rw [hpushed, hheard, hsent, List.map_append]
    refine List.Perm.trans ?_ (List.Perm.append_left _ (outcomes_push s.pending id outcome).symm)
    rw [← List.append_assoc, ← hunsent]
    exact h.account.append_right _
  · obtain ⟨older, recent, hlist, hpending, hdeadline⟩ := h.recent
    refine ⟨older, recent ++ [(s.now, id, outcome)], ?_, ?_, ?_⟩
    · rw [hheard, hlist, List.append_assoc]
    · rw [gathered_concat, ← hpending]
    · dsimp only
      rw [hdeadline]
      cases recent <;> rfl

/-- Outside a flush the collector goes from await to await with the batch as it is. -/
theorem Told.awaits (h : Told cfg s es) {collector : Collector} (hcollector : s.collector = collector)
    (hnot : ∀ stage final, collector ≠ .flushing stage final) (hne : collector ≠ .returned)
    (hunsent : unsent s' = outcomes s'.pending) (hpending : s'.pending = s.pending)
    (hdeadline : s'.deadline = s.deadline) (hphase : s'.phase = s.phase) (hnext : s'.collector ≠ .returned)
    (hread : s'.collector ≠ .reading) : Told cfg s' es := by
  subst hcollector
  refine h.of_same ?_ hpending hdeadline (fun hr => absurd hr hnext) (fun hq => ?_) fun hr => absurd hr hread
  · rw [hunsent, hpending, unsent_of_not_flushing hnot]
  · rw [hphase] at hq
    exact absurd (h.quiet hq) hne

theorem Told.collect {a : CollectAct} {stmt : Option Stmt} (h : Told cfg s es)
    (hmove : CollectMove cfg serde s a stmt s') : Told cfg s' (es ++ events cfg serde s (.collect a)) := by
  have hsilent : ∀ {s' : Supervisor}, events cfg serde s (.collect a) = [] → Told cfg s' es →
      Told cfg s' (es ++ events cfg serde s (.collect a)) := by
    intro s' hnone h'
    rw [hnone, List.append_nil]
    exact h'
  cases hmove with
  | stays hstays => exact hsilent (events_elsewhere hstays) h
  | reads hat =>
    refine hsilent rfl (h.awaits hat (fun _ _ hf => by cases hf) (fun hr => by cases hr) rfl rfl rfl rfl
      (fun hr => by cases hr) fun hr => by cases hr)
  | @nothing _ final hp hnil =>
    obtain ⟨hunsent, hsession⟩ := h.paused hp
    have hnone := outcomes_eq_nil hnil
    refine hsilent (events_pause hp) (h.of_empty (by rw [hunsent, hnone]; rfl) hnone rfl (afterFlush_not_flushing final)
      fun hq => ?_)
    cases hsession.symm.trans hq
  | flushes hp =>
    obtain ⟨hunsent, hsession⟩ := h.paused hp
    exact hsilent (events_pause hp) (h.of_same hunsent.symm rfl rfl (fun hr => by cases hr)
      (fun hq => by cases hsession.symm.trans hq) fun hr => by cases hr)
  | drains hat hnext hroom =>
    have hsession := h.not_quiet fun hr => by cases hat.symm.trans hr
    have hunsent : unsent s = outcomes s.pending := unsent_of_not_flushing fun _ _ hf => by cases hat.symm.trans hf
    exact hsilent (by simp only [events, hat, hnext]) (h.of_same hunsent.symm rfl rfl (fun hr => by cases hr)
      (fun hq => by cases hsession.symm.trans hq) fun _ => .inl hroom)
  | @hears id outcome d hat hnext =>
    have hevents : events cfg serde s (.collect .decode) = [.heard s.now id outcome] := by
      simp only [events, hat, hnext]
    rw [hevents]
    exact hear_told h hat id outcome d
  | records hat hnext =>
    refine hsilent (by simp only [events, hat, hnext]) (h.awaits hat (fun _ _ hf => by cases hf)
      (fun hr => by cases hr) rfl rfl rfl rfl (fun hr => by cases hr) fun hr => by cases hr)
  | @skips m d hat hnext hcomplete =>
    refine hsilent ?_ ⟨h.account, h.recent, h.returned, h.quiet, h.full⟩
    simp only [events, hat, hnext]
    split
    · next hm => exact absurd (Option.some.inj (Except.ok.inj hm)) (hcomplete _ _)
    · rfl
  | recordFails hat | recordRefused hat | recorded hat | unheard hat | sends hat =>
    exact hsilent rfl (h.awaits hat (fun _ _ hf => by cases hf) (fun hr => by cases hr) rfl rfl rfl rfl
      (fun hr => by cases hr) fun hr => by cases hr)
  | @calls random fails stage final stmt hat hstmt =>
    have hevents : events cfg serde s (.collect (.flush random fails)) = [.sent stmt] := by
      simp only [events, hat, hstmt, Option.toList_some, List.map_singleton]
    rw [hevents]
    exact h.called fails hat hstmt
  | @releases random fails final hat =>
    have hsession := h.not_quiet fun hr => by cases hat.symm.trans hr
    have hunsent : unsent s = [] := by
      unfold unsent
      rw [hat]
      rfl
    refine hsilent ?_ (h.of_empty hunsent rfl rfl (afterFlush_not_flushing final)
      fun hq => by cases hsession.symm.trans hq)
    simp only [events, hat]
    rfl

/-! ## The others' steps -/

/-- A session begins and ends without a collector. -/
theorem Told.session {a : SessionAct} {stmt : Option Stmt} (h : Told cfg s es)
    (hmove : SessionMove cfg s a stmt s') : Told cfg s' es := by
  have hsame : ∀ {s' : Supervisor}, s'.collector = s.collector → s'.pending = s.pending →
      s'.deadline = s.deadline → (Delivery.quiet s'.phase = true → s.collector = .returned) → Told cfg s' es := by
    intro s' hcollector hpending hdeadline hquiet
    refine h.of_same ?_ hpending hdeadline (fun hr => h.returned (hcollector ▸ hr))
      (fun hq => hcollector.trans (hquiet hq)) fun hr => h.full (hcollector ▸ hr)
    unfold unsent
    rw [hcollector, hpending]
  have hidle : ∀ {phase : Phase}, s.phase = phase → Delivery.quiet phase = true → s.collector = .returned :=
    fun hphase hq => h.quiet (hphase ▸ hq)
  have hfresh : ∀ {s' : Supervisor}, s.collector = .returned → s'.pending = s.pending → s'.deadline = none →
      (∀ stage final, s'.collector ≠ .flushing stage final) →
      (Delivery.quiet s'.phase = true → s'.collector = .returned) → Told cfg s' es := by
    intro s' hreturned hpending hdeadline hnot hquiet
    have hnone := h.returned hreturned
    refine h.of_empty ?_ (hpending.trans hnone) hdeadline hnot hquiet
    rw [unsent_of_not_flushing fun _ _ hf => (by cases hreturned.symm.trans hf), hnone]
    rfl
  cases hmove with
  | stays => exact h
  | shutdown | kills => exact hsame rfl rfl rfl h.quiet
  | finishes hf =>
    refine hsame rfl rfl rfl fun _ => ?_
    cases hf with
    | finished hat hdead hreturned => exact hreturned
    | start hat | startFails hat | restart hat => exact hidle hat rfl
  | opens hat =>
    have hreturned := hidle hat rfl
    exact hfresh hreturned (h.returned hreturned).symm rfl (fun _ _ hf => by cases hf) fun _ => rfl
  | accepts hat =>
    have hreturned := hidle hat rfl
    exact hfresh hreturned rfl (h.recent_nil (h.returned hreturned)) (fun _ _ hf => by cases hf)
      fun hq => by cases hq
  | exits hat hdead hphase | leaves hat hdone hphase =>
    refine hsame rfl rfl rfl fun hq => ?_
    rcases hphase with ⟨-, rfl⟩ | ⟨-, rfl⟩ <;> cases hq
  | drains => exact hsame rfl rfl rfl fun hq => by cases hq
  | breaks hat hdead hreturned => exact hsame rfl rfl rfl fun _ => hreturned
  | _ => exact hsame rfl rfl rfl fun _ => hidle ‹s.phase = _› rfl

theorem Told.move {a : Act} {stmt : Option Stmt} (h : Told cfg s es) (hmove : Move cfg serde s a stmt s') :
    Told cfg s' (es ++ events cfg serde s a) := by
  have hsame : ∀ {s' : Supervisor}, s'.collector = s.collector → s'.pending = s.pending →
      s'.deadline = s.deadline → s'.phase = s.phase → Told cfg s' (es ++ []) := by
    intro s' hcollector hpending hdeadline hphase
    rw [List.append_nil]
    refine h.of_same ?_ hpending hdeadline (fun hr => h.returned (hcollector ▸ hr)) ?_
      fun hr => h.full (hcollector ▸ hr)
    · unfold unsent
      rw [hcollector, hpending]
    · rw [hcollector, hphase]
      exact h.quiet
  cases hmove with
  | stays hnot =>
    cases a with
    | collect b => exact absurd rfl (hnot b)
    | _ => exact hsame rfl rfl rfl rfl
  | dispatch hserving hmove =>
    have hframe := hmove.frame
    exact hsame hframe.collector hframe.pending hframe.deadline hframe.phase
  | collect hmove => exact h.collect hmove
  | session hmove =>
    have htold := h.session hmove
    rw [← List.append_nil es] at htold
    exact htold
  | renew hmove => cases hmove <;> exact hsame rfl rfl rfl rfl
  | child hmove => cases hmove <;> exact hsame rfl rfl rfl rfl
  | outside | tick => exact hsame rfl rfl rfl rfl
end

/-! ## Whole runs -/

/-- A supervisor's state after a run. -/
def reached (cfg : Settings) (serde : Serde) (db : Db) (as : List Act) : Supervisor :=
  run (step cfg serde) (initial db) as

/-- What its collectors heard and sent on the way. -/
def log (cfg : Settings) (serde : Serde) (db : Db) (as : List Act) : List Event :=
  outputs (step cfg serde) (events cfg serde) (initial db) as

theorem told_run (cfg : Settings) (serde : Serde) (db : Db) (as : List Act) :
    Told cfg (reached cfg serde db as) (log cfg serde db as) := by
  refine outputs_inv (fun s a es h => h.move (step_move cfg serde s a)) as ?_
  exact ⟨.refl _, ⟨[], [], rfl, rfl, rfl⟩, fun _ => rfl, fun _ => rfl, fun _ => .inr rfl⟩

/-- **No outcome is dropped or sent twice.** In every run of a supervisor, whatever its
other tasks, its child and the database do meanwhile, the outcomes its collectors
decoded are those of the statements they issued together with those still in the batch,
as a multiset and with the value or the error they came with. A collector that has
returned leaves none behind. One that waits for the socket holds fewer than a batch,
and its timer is set for the linger after the first outcome it holds, or not at all. -/
theorem outcomes_reported_once (cfg : Settings) (serde : Serde) (db : Db) (as : List Act) :
    ((heard (log cfg serde db as)).map Prod.snd).Perm
        (sent (log cfg serde db as) ++ unsent (reached cfg serde db as)) ∧
      ((reached cfg serde db as).collector = .returned → unsent (reached cfg serde db as) = []) ∧
      ((reached cfg serde db as).collector = .reading →
        ((reached cfg serde db as).pending.settled.length < cfg.completionBatch ∨
          (reached cfg serde db as).pending = {}) ∧
        ∃ older recent, heard (log cfg serde db as) = older ++ recent ∧
          unsent (reached cfg serde db as) = outcomes (gathered recent) ∧
          (reached cfg serde db as).deadline = recent.head?.map fun first => first.1 + cfg.completionLinger) := by
  have htold := told_run cfg serde db as
  refine ⟨htold.account, fun hreturned => ?_, fun hreading => ⟨htold.full hreading, ?_⟩⟩
  · rw [unsent_of_not_flushing fun _ _ hf => (by cases hreturned.symm.trans hf), htold.returned hreturned]
    rfl
  · obtain ⟨older, recent, hheard, hpending, hdeadline⟩ := htold.recent
    refine ⟨older, recent, hheard, ?_, hdeadline⟩
    rw [unsent_of_not_flushing fun _ _ hf => (by cases hreading.symm.trans hf), hpending]

end Gylo.Worker.Delivery
