import Gylo.Store.Holding
import Gylo.Worker.Session

/-! # What a step can do

A step function of the session model says what becomes of an action in a state; a
proof about runs asks the other way round, what a step may have done. The relations
below answer once for each task: where it was, which statement it executed, if any,
and what it left. Everything proved of runs is proved by cases on them. -/
namespace Gylo.Worker.Session

open Gylo.Store Gylo.Store.FetchCall Gylo.Wire

/-! ## The statement of a step -/

section
variable (cfg : Settings) (s : Supervisor)

/-- `fetch` and `discard_many`; only a commit that is rolled back leaves no trace. -/
def dispatchStmt : DispatchAct → Option Stmt
  | .fetchUnkeyed skip commit => match s.dispatch with
    | .fetching limit =>
      if commit = .rolledBack then none
      else some (.fetchUnkeyed (unkeyedArgs (call cfg limit) (meets s skip)))
    | _ => none
  | .fetchKeyed skip commit => match s.dispatch with
    | .admitting limit jobs =>
      if commit = .rolledBack then none
      else some (.fetchKeyed (keyedArgs (call cfg limit) (meets s skip) jobs.length))
    | _ => none
  | .discard fails => match s.dispatch with
    | .discarding id error _ _ _ =>
      if fails then none else some (.discardMany [(id, error)] cfg.worker s.now)
    | _ => none
  | _ => none

/-- `record_step` and the calls of a flush, which are not made for an empty batch. -/
def collectStmt : CollectAct → Option Stmt
  | .recorded fails => match s.collector with
    | .recording id name result => if fails then none else some (.recordStep id name result s.now)
    | _ => none
  | .flush random fails => match s.collector with
    | .flushing stage _ =>
      (flushStmt cfg s random stage).filter fun stmt => !(decide (stmt.reported = []) || fails)
    | _ => none
  | _ => none

/-- The two statements of `hand_back`. -/
def sessionStmt : SessionAct → Option Stmt
  | .abandon fails => match s.phase with
    | .abandoning ids => if fails then none else some (.abandon ids cfg.worker s.now)
    | _ => none
  | .reclaim visit fails => match s.phase with
    | .reclaiming => if fails then none else some (.reclaim cfg.reclaimLimit visit s.now)
    | _ => none
  | _ => none

/-- `renew_leases`. -/
def renewStmt : RenewAct → Option Stmt
  | .execute => match s.renewal with
    | .issued ids => some (.renew ids cfg.worker cfg.lease s.now)
    | _ => none
  | _ => none

/-- The statement a step executes, if any. -/
def executed : Act → Option Stmt
  | .dispatch a => if s.phase = .serving then dispatchStmt cfg s a else none
  | .collect a => collectStmt cfg s a
  | .session a => sessionStmt cfg s a
  | .renew a => renewStmt cfg s a
  | .outside stmt => if actsFor stmt = some cfg.worker then none else some stmt
  | .child _ | .tick _ => none
end

/-! ## `dispatch` -/

/-- `dispatch` returns: it finds the token at the top of its loop or in a wait, or a
write fails. -/
inductive Ends (s : Supervisor) : DispatchAct → Bool → Prop
  | finds (hat : s.dispatch = .checking) (hdown : s.shutdown = true) : Ends s .check true
  | told (hat : s.dispatch = .full ∨ s.dispatch = .idle ∨ s.dispatch = .retrying)
      (hdown : s.shutdown = true) : Ends s .stop true
  | unforwarded {ack : Ack} {polling : Bool} (hat : s.dispatch = .forwarding ack polling) :
      Ends s (.wrote false) false
  | unwritten {buf : List Message} (hat : s.dispatch = .writing buf) : Ends s (.wrote false) false

/-- It goes on to somewhere else, with what it has in hand. -/
inductive Turns (cfg : Settings) (s : Supervisor) : DispatchAct → Dispatch → Prop
  | looks (hat : s.dispatch = .checking) (hup : s.shutdown = false) : Turns cfg s .check .acking
  | fills (hat : s.dispatch = .acking) (hacks : s.acks = []) (hnone : available cfg s.inflight = 0) :
      Turns cfg s .tryRecv .full
  | calls (hat : s.dispatch = .acking) (hacks : s.acks = []) (hroom : available cfg s.inflight ≠ 0) :
      Turns cfg s .tryRecv (.fetching (min cfg.batch (available cfg s.inflight)))
  | closed (hat : s.dispatch = .full ∨ s.dispatch = .idle) (hacks : s.acks = [])
      (hreturned : s.collector = .returned) : Turns cfg s .recv .checking
  | freed (hat : s.dispatch = .full) : Turns cfg s .freed .checking
  | wakes (hat : s.dispatch = .idle ∨ s.dispatch = .retrying) : Turns cfg s .wake .checking
  | admits {limit : Int} (hat : s.dispatch = .asking limit)
      (hkeyed : s.db.keyedWaiting cfg.queues s.now = true) : Turns cfg s (.ask false) (.admitting limit [])
  | idles {limit : Int} (hat : s.dispatch = .asking limit)
      (hkeyed : s.db.keyedWaiting cfg.queues s.now = false) : Turns cfg s (.ask false) .idle
  | packs {fails : Bool} {job : LeasedJob} {todo : List LeasedJob} {buf : List Message}
      {reserved : List JobId} (hat : s.dispatch = .packing (job :: todo) buf reserved)
      (hencode : (encode (dispatchOf job) []).2 = .ok ()) :
      Turns cfg s (.pack fails)
        (.packing todo (buf ++ priorSteps s fails job ++ [dispatchOf job]) (reserved ++ [job.id]))
  | refuses {fails : Bool} {job : LeasedJob} {todo : List LeasedJob} {buf : List Message}
      {reserved : List JobId} {e : ProtocolError}
      (hat : s.dispatch = .packing (job :: todo) buf reserved)
      (hencode : (encode (dispatchOf job) []).2 = .error e) :
      Turns cfg s (.pack fails) (.discarding job.id e.text todo (buf ++ priorSteps s fails job) reserved)
  | empties {fails : Bool} {buf : List Message} (hat : s.dispatch = .packing [] buf []) :
      Turns cfg s (.pack fails) .checking

/-- A statement of `fetch` fails, or its transaction is rolled back. -/
inductive FetchFails (cfg : Settings) (s : Supervisor) : DispatchAct → Option Stmt → Prop
  | unkeyed {limit : Int} {skip : List JobId} (hat : s.dispatch = .fetching limit) :
      FetchFails cfg s (.fetchUnkeyed skip .rolledBack) none
  | unkeyedRefused {limit : Int} {skip : List JobId} {commit : Commit} {e : DbError}
      (hat : s.dispatch = .fetching limit) (hcommit : commit ≠ .rolledBack)
      (hrun : s.db.run (.fetchUnkeyed (unkeyedArgs (call cfg limit) (meets s skip))) = .error e) :
      FetchFails cfg s (.fetchUnkeyed skip commit)
        (some (.fetchUnkeyed (unkeyedArgs (call cfg limit) (meets s skip))))
  | ask {limit : Int} (hat : s.dispatch = .asking limit) : FetchFails cfg s (.ask true) none
  | keyed {limit : Int} {jobs : List LeasedJob} {skip : List JobId}
      (hat : s.dispatch = .admitting limit jobs) : FetchFails cfg s (.fetchKeyed skip .rolledBack) none
  | keyedRefused {limit : Int} {jobs : List LeasedJob} {skip : List JobId} {commit : Commit} {e : DbError}
      (hat : s.dispatch = .admitting limit jobs) (hcommit : commit ≠ .rolledBack)
      (hrun : s.db.run (.fetchKeyed (keyedArgs (call cfg limit) (meets s skip) jobs.length)) = .error e) :
      FetchFails cfg s (.fetchKeyed skip commit)
        (some (.fetchKeyed (keyedArgs (call cfg limit) (meets s skip) jobs.length)))

/-- The head of the channel is taken by `try_recv`, or by `recv` in a wait. -/
def Receives (s : Supervisor) (a : DispatchAct) (polling : Bool) : Prop :=
  s.dispatch = .acking ∧ a = .tryRecv ∧ polling = true ∨
    (s.dispatch = .full ∨ s.dispatch = .idle) ∧ a = .recv ∧ polling = false

/-- Where the jobs of a first pass lead. -/
def afterUnkeyed (cfg : Settings) (s : Supervisor) (limit : Int) (jobs : List LeasedJob) : Dispatch :=
  if jobs = [] then .asking limit
  else if s.db.keyedWaiting cfg.queues s.now then .admitting limit jobs
  else .packing jobs [] []

inductive DispatchMove (cfg : Settings) (s : Supervisor) : DispatchAct → Option Stmt → Supervisor → Prop
  | stays {a : DispatchAct} : DispatchMove cfg s a none s
  | ends {a : DispatchAct} {ok : Bool} (h : Ends s a ok) : DispatchMove cfg s a none (endDispatch s ok)
  | turns {a : DispatchAct} {d : Dispatch} (h : Turns cfg s a d) :
      DispatchMove cfg s a none { s with dispatch := d }
  | fetchFails {a : DispatchAct} {stmt : Option Stmt} (h : FetchFails cfg s a stmt) :
      DispatchMove cfg s a stmt { s with dispatch := .retrying }
  | receives {a : DispatchAct} {ack : Ack} {acks : List Ack} {polling : Bool}
      (hat : Receives s a polling) (hacks : s.acks = ack :: acks) :
      DispatchMove cfg s a none { s with acks := acks, dispatch := .forwarding ack polling }
  | forwards {ack : Ack} {polling : Bool} (hat : s.dispatch = .forwarding ack polling) :
      DispatchMove cfg s (.wrote true) none
        { s with
          toChild := s.toChild ++ if Accepted (.stored ack.1 ack.2) then [.stored ack.1 ack.2] else []
          dispatch := if polling then .acking else .checking }
  | writes {buf : List Message} (hat : s.dispatch = .writing buf) :
      DispatchMove cfg s (.wrote true) none
        { s with toChild := s.toChild ++ buf, dispatch := .checking }
  | unkeyed {limit : Int} {skip : List JobId} {db' : Db} (hat : s.dispatch = .fetching limit)
      (hrun : s.db.run (.fetchUnkeyed (unkeyedArgs (call cfg limit) (meets s skip))) = .ok db') :
      DispatchMove cfg s (.fetchUnkeyed skip .ok)
        (some (.fetchUnkeyed (unkeyedArgs (call cfg limit) (meets s skip))))
        { s with
          db := db'
          dispatch := afterUnkeyed cfg s limit (returning db'.toTables
            (s.db.lockedUnkeyed (unkeyedArgs (call cfg limit) (meets s skip)))) }
  | unkeyedLost {limit : Int} {skip : List JobId} {db' : Db} (hat : s.dispatch = .fetching limit)
      (hrun : s.db.run (.fetchUnkeyed (unkeyedArgs (call cfg limit) (meets s skip))) = .ok db') :
      DispatchMove cfg s (.fetchUnkeyed skip .lost)
        (some (.fetchUnkeyed (unkeyedArgs (call cfg limit) (meets s skip))))
        { s with db := db', dispatch := .retrying }
  | keyed {limit : Int} {jobs : List LeasedJob} {skip : List JobId} {db' : Db}
      (hat : s.dispatch = .admitting limit jobs)
      (hrun : s.db.run (.fetchKeyed (keyedArgs (call cfg limit) (meets s skip) jobs.length)) = .ok db') :
      DispatchMove cfg s (.fetchKeyed skip .ok)
        (some (.fetchKeyed (keyedArgs (call cfg limit) (meets s skip) jobs.length)))
        { s with
          db := db'
          dispatch := fetched (jobs ++ returning db'.toTables
            (s.db.admitted (keyedArgs (call cfg limit) (meets s skip) jobs.length) s.db.toTables)) }
  | keyedLost {limit : Int} {jobs : List LeasedJob} {skip : List JobId} {db' : Db}
      (hat : s.dispatch = .admitting limit jobs)
      (hrun : s.db.run (.fetchKeyed (keyedArgs (call cfg limit) (meets s skip) jobs.length)) = .ok db') :
      DispatchMove cfg s (.fetchKeyed skip .lost)
        (some (.fetchKeyed (keyedArgs (call cfg limit) (meets s skip) jobs.length)))
        { s with db := db', dispatch := .retrying }
  | reserves {fails : Bool} {buf : List Message} {reserved : List JobId}
      (hat : s.dispatch = .packing [] buf reserved) (hsome : reserved ≠ []) :
      DispatchMove cfg s (.pack fails) none
        { s with
          inflight := Session.reserve s.inflight reserved
          since := fun id => if id ∈ reserved then s.now else s.since id
          dispatch := .writing buf }
  | discards {id : JobId} {error : String} {todo : List LeasedJob} {buf : List Message}
      {reserved : List JobId} (hat : s.dispatch = .discarding id error todo buf reserved) :
      DispatchMove cfg s (.discard false) (some (.discardMany [(id, error)] cfg.worker s.now))
        { s with
          db := s.db.exec (.discardMany [(id, error)] cfg.worker s.now)
          dispatch := .packing todo buf reserved }
  | discardFails {id : JobId} {error : String} {todo : List LeasedJob} {buf : List Message}
      {reserved : List JobId} (hat : s.dispatch = .discarding id error todo buf reserved) :
      DispatchMove cfg s (.discard true) none { s with dispatch := .packing todo buf reserved }

section
variable (cfg : Settings) (s : Supervisor)

theorem fetchUnkeyed_move {limit : Int} (hat : s.dispatch = .fetching limit) (skip : List JobId)
    (commit : Commit) : DispatchMove cfg s (.fetchUnkeyed skip commit)
      (dispatchStmt cfg s (.fetchUnkeyed skip commit)) (fetchUnkeyed cfg s limit skip commit) := by
  unfold fetchUnkeyed
  simp only [dispatchStmt, hat]
  cases hrun : s.db.run (.fetchUnkeyed (unkeyedArgs (call cfg limit) (meets s skip))) with
  | ok db' =>
    cases commit with
    | ok => exact .unkeyed hat hrun
    | lost => exact .unkeyedLost hat hrun
    | rolledBack => exact .fetchFails (.unkeyed hat)
  | error e =>
    cases commit with
    | ok => exact .fetchFails (.unkeyedRefused hat (fun h => by cases h) hrun)
    | lost => exact .fetchFails (.unkeyedRefused hat (fun h => by cases h) hrun)
    | rolledBack => exact .fetchFails (.unkeyed hat)

theorem fetchKeyed_move {limit : Int} {jobs : List LeasedJob} (hat : s.dispatch = .admitting limit jobs)
    (skip : List JobId) (commit : Commit) : DispatchMove cfg s (.fetchKeyed skip commit)
      (dispatchStmt cfg s (.fetchKeyed skip commit)) (fetchKeyed cfg s limit jobs skip commit) := by
  simp only [fetchKeyed, dispatchStmt, hat]
  cases hrun : s.db.run (.fetchKeyed (keyedArgs (call cfg limit) (meets s skip) jobs.length)) with
  | ok db' =>
    cases commit with
    | ok => exact .keyed hat hrun
    | lost => exact .keyedLost hat hrun
    | rolledBack => exact .fetchFails (.keyed hat)
  | error e =>
    cases commit with
    | ok => exact .fetchFails (.keyedRefused hat (fun h => by cases h) hrun)
    | lost => exact .fetchFails (.keyedRefused hat (fun h => by cases h) hrun)
    | rolledBack => exact .fetchFails (.keyed hat)

theorem pack_move {todo : List LeasedJob} {buf : List Message} {reserved : List JobId}
    (hat : s.dispatch = .packing todo buf reserved) (fails : Bool) :
    DispatchMove cfg s (.pack fails) none (pack s fails buf reserved todo) := by
  cases todo with
  | cons job todo =>
    simp only [pack]
    split
    · next hencode => exact .turns (.packs hat hencode)
    · next e hencode => exact .turns (.refuses hat hencode)
  | nil =>
    simp only [pack]
    split
    · next hnone =>
      subst hnone
      exact .turns (.empties hat)
    · next hsome => exact .reserves hat hsome

/-- **A step of `dispatch`.** -/
theorem dispatchStep_move (a : DispatchAct) :
    DispatchMove cfg s a (dispatchStmt cfg s a) (dispatchStep cfg s a) := by
  cases a with
  | check =>
    simp only [dispatchStep]
    split
    · next hat =>
      split
      · next hdown => exact .ends (.finds hat hdown)
      · next hup => exact .turns (.looks hat (Bool.eq_false_iff.mpr hup))
    · exact .stays
  | tryRecv =>
    simp only [dispatchStep]
    split
    · next hat hacks => exact .receives (.inl ⟨hat, rfl, rfl⟩) hacks
    · next hat hacks =>
      split
      · next hnone => exact .turns (.fills hat hacks hnone)
      · next hroom => exact .turns (.calls hat hacks hroom)
    · exact .stays
  | recv =>
    simp only [dispatchStep]
    split
    · next hat hacks => exact .receives (.inr ⟨.inl hat, rfl, rfl⟩) hacks
    · next hat hacks => exact .receives (.inr ⟨.inr hat, rfl, rfl⟩) hacks
    · next hat hacks =>
      split
      · next hreturned => exact .turns (.closed (.inl hat) hacks hreturned)
      · exact .stays
    · next hat hacks =>
      split
      · next hreturned => exact .turns (.closed (.inr hat) hacks hreturned)
      · exact .stays
    · exact .stays
  | freed =>
    simp only [dispatchStep]
    split
    · next hat => exact .turns (.freed hat)
    · exact .stays
  | wake =>
    simp only [dispatchStep]
    split
    · next hat => exact .turns (.wakes (.inl hat))
    · next hat => exact .turns (.wakes (.inr hat))
    · exact .stays
  | stop =>
    simp only [dispatchStep]
    repeat' split
    · next hat hdown => exact .ends (.told (.inl hat) hdown)
    · exact .stays
    · next hat hdown => exact .ends (.told (.inr (.inl hat)) hdown)
    · exact .stays
    · next hat hdown => exact .ends (.told (.inr (.inr hat)) hdown)
    · exact .stays
    · exact .stays
  | wrote ok =>
    simp only [dispatchStep]
    split
    · next hat =>
      cases ok with
      | true => exact .forwards hat
      | false => exact .ends (.unforwarded hat)
    · next hat =>
      cases ok with
      | true => exact .writes hat
      | false => exact .ends (.unwritten hat)
    · exact .stays
  | fetchUnkeyed skip commit =>
    cases hat : s.dispatch with
    | fetching limit =>
      have hstep : dispatchStep cfg s (.fetchUnkeyed skip commit) = fetchUnkeyed cfg s limit skip commit := by
        simp only [dispatchStep, hat]
      rw [hstep]
      exact fetchUnkeyed_move cfg s hat skip commit
    | _ =>
      simp only [dispatchStep, dispatchStmt, hat]
      exact .stays
  | ask fails =>
    simp only [dispatchStep]
    split
    · next limit hat =>
      cases fails with
      | true => exact .fetchFails (.ask hat)
      | false =>
        cases hkeyed : s.db.keyedWaiting cfg.queues s.now with
        | true => exact .turns (.admits hat hkeyed)
        | false => exact .turns (.idles hat hkeyed)
    · exact .stays
  | fetchKeyed skip commit =>
    cases hat : s.dispatch with
    | admitting limit jobs =>
      have hstep : dispatchStep cfg s (.fetchKeyed skip commit) = fetchKeyed cfg s limit jobs skip commit := by
        simp only [dispatchStep, hat]
      rw [hstep]
      exact fetchKeyed_move cfg s hat skip commit
    | _ =>
      simp only [dispatchStep, dispatchStmt, hat]
      exact .stays
  | pack fails =>
    simp only [dispatchStep]
    split
    · next hat => exact pack_move cfg s hat fails
    · exact .stays
  | discard fails =>
    cases hat : s.dispatch with
    | discarding id error todo buf reserved =>
      simp only [dispatchStep, dispatchStmt, hat]
      cases fails with
      | true => exact .discardFails hat
      | false => exact .discards hat
    | _ =>
      simp only [dispatchStep, dispatchStmt, hat]
      exact .stays
end

/-! ## `collect_completions` -/

/-- It comes to the end of its loop, with the stream or for a flush: `final` if it
returns afterwards. -/
inductive Pauses (cfg : Settings) (serde : Serde) (s : Supervisor) : CollectAct → Bool → Prop
  | eof (hat : s.collector = .reading) (hend : s.fromChild = []) (hgone : s.closed = true ∨ s.alive = false) :
      Pauses cfg serde s .eof true
  | readError (hat : s.collector = .reading) : Pauses cfg serde s .readError true
  | timer {time : Time} (hat : s.collector = .reading) (hset : s.deadline = some time) (hdue : time ≤ s.now) :
      Pauses cfg serde s .timer false
  | full (hat : s.collector = .decoding) (hnext : s.decoder.nextMessage serde = (.ok none, s.decoder))
      (hfull : cfg.completionBatch ≤ s.pending.settled.length) : Pauses cfg serde s .decode false
  | unreadable {e : ProtocolError} (hat : s.collector = .decoding)
      (hnext : s.decoder.nextMessage serde = (.error e, s.decoder)) : Pauses cfg serde s .decode true

/-- Nothing comes of an action: it waits, or the collector is elsewhere. Only a decode
and a call of a flush always come to something, where they belong. -/
def Elsewhere (s : Supervisor) : CollectAct → Prop
  | .decode => s.collector ≠ .decoding
  | .flush _ _ => ∀ stage final, s.collector ≠ .flushing stage final
  | _ => True

inductive CollectMove (cfg : Settings) (serde : Serde) (s : Supervisor) :
    CollectAct → Option Stmt → Supervisor → Prop
  | stays {a : CollectAct} (h : Elsewhere s a) : CollectMove cfg serde s a none s
  | reads {n : Nat} (hat : s.collector = .reading) (hpos : 0 < n) (hn : n ≤ s.fromChild.length) :
      CollectMove cfg serde s (.read n) none
        { s with
          decoder := s.decoder.extend (s.fromChild.take n)
          fromChild := s.fromChild.drop n
          collector := .decoding }
  | nothing {a : CollectAct} {final : Bool} (h : Pauses cfg serde s a final) (hnone : s.pending.settled = []) :
      CollectMove cfg serde s a none { s with collector := afterFlush final, deadline := none }
  | flushes {a : CollectAct} {final : Bool} (h : Pauses cfg serde s a final) (hsome : s.pending.settled ≠ []) :
      CollectMove cfg serde s a none { s with collector := .flushing .completed final }
  | drains (hat : s.collector = .decoding) (hnext : s.decoder.nextMessage serde = (.ok none, s.decoder))
      (hroom : s.pending.settled.length < cfg.completionBatch) :
      CollectMove cfg serde s .decode none { s with collector := .reading }
  | hears {id : JobId} {outcome : Outcome} {d : Decoder} (hat : s.collector = .decoding)
      (hnext : s.decoder.nextMessage serde = (.ok (some (.complete id outcome)), d)) :
      CollectMove cfg serde s .decode none
        { s with
          decoder := d
          pending := s.pending.push id outcome
          deadline := some (s.deadline.getD (s.now + cfg.completionLinger)) }
  | records {id : JobId} {name : String} {result : Bytes} {d : Decoder} (hat : s.collector = .decoding)
      (hnext : s.decoder.nextMessage serde = (.ok (some (.record id name result)), d)) :
      CollectMove cfg serde s .decode none { s with decoder := d, collector := .recording id name result }
  | skips {m : Message} {d : Decoder} (hat : s.collector = .decoding)
      (hnext : s.decoder.nextMessage serde = (.ok (some m), d))
      (hcomplete : ∀ id outcome, m ≠ .complete id outcome)
      (hrecord : ∀ id name result, m ≠ .record id name result) :
      CollectMove cfg serde s .decode none { s with decoder := d }
  | recordFails {id : JobId} {name : String} {result : Bytes} (hat : s.collector = .recording id name result) :
      CollectMove cfg serde s (.recorded true) none { s with collector := .decoding }
  | recordRefused {id : JobId} {name : String} {result : Bytes} {e : DbError}
      (hat : s.collector = .recording id name result)
      (hrun : s.db.run (.recordStep id name result s.now) = .error e) :
      CollectMove cfg serde s (.recorded false) (some (.recordStep id name result s.now))
        { s with collector := .decoding }
  | recorded {id : JobId} {name : String} {result : Bytes} {db' : Db}
      (hat : s.collector = .recording id name result)
      (hrun : s.db.run (.recordStep id name result s.now) = .ok db') :
      CollectMove cfg serde s (.recorded false) (some (.recordStep id name result s.now))
        { s with db := db', collector := .sending (id, name) }
  | unheard {ack : Ack} {ok : Bool} (hat : s.collector = .sending ack) (hdone : s.dispatch = .done ok) :
      CollectMove cfg serde s .sent none { s with collector := .decoding }
  | sends {ack : Ack} (hat : s.collector = .sending ack) (hroom : s.acks.length < ackCapacity) :
      CollectMove cfg serde s .sent none { s with acks := s.acks ++ [ack], collector := .decoding }
  | calls {random : JobId → Nat} {fails : Bool} {stage : FlushStage} {final : Bool} {stmt : Stmt}
      (hat : s.collector = .flushing stage final) (hstmt : flushStmt cfg s random stage = some stmt) :
      CollectMove cfg serde s (.flush random fails)
        (if stmt.reported = [] ∨ fails = true then none else some stmt)
        { s with db := issue fails stmt s.db, collector := .flushing stage.next final }
  | releases {random : JobId → Nat} {fails : Bool} {final : Bool}
      (hat : s.collector = .flushing .releasing final) :
      CollectMove cfg serde s (.flush random fails) none
        { s with
          inflight := s.inflight.release s.pending.settled
          pending := {}
          deadline := none
          collector := afterFlush final }

section
variable (cfg : Settings) (serde : Serde) (s : Supervisor)

theorem startFlush_move {a : CollectAct} {final : Bool} (h : Pauses cfg serde s a final) :
    CollectMove cfg serde s a none (startFlush s final) := by
  unfold startFlush
  split
  · next hnone => exact .nothing h hnone
  · next hsome => exact .flushes h hsome

theorem decode_move (hat : s.collector = .decoding) :
    CollectMove cfg serde s .decode none (decode cfg serde s) := by
  unfold decode
  rcases s.decoder.nextMessage_cases serde with ⟨hnext, -⟩ | ⟨e, hnext, -⟩ | ⟨m, d, hnext, -⟩
  · rw [hnext]
    dsimp only
    split
    · next hfull => exact startFlush_move cfg serde s (.full hat hnext hfull)
    · next hroom => exact .drains hat hnext (Nat.lt_of_not_le hroom)
  · rw [hnext]
    exact startFlush_move cfg serde s (.unreadable hat hnext)
  · rw [hnext]
    cases m with
    | complete id outcome => exact .hears hat hnext
    | record id name result => exact .records hat hnext
    | _ => exact .skips hat hnext (fun _ _ h => by cases h) fun _ _ _ h => by cases h

theorem flushStep_move (random : JobId → Nat) (fails : Bool) {stage : FlushStage} {final : Bool}
    (hat : s.collector = .flushing stage final) :
    CollectMove cfg serde s (.flush random fails) (collectStmt cfg s (.flush random fails))
      (flushStep cfg s random fails stage final) := by
  unfold flushStep
  simp only [collectStmt, hat]
  cases hstmt : flushStmt cfg s random stage with
  | some stmt =>
    have hexecuted : (some stmt).filter (fun stmt => !(decide (stmt.reported = []) || fails)) =
        if stmt.reported = [] ∨ fails = true then none else some stmt := by
      by_cases hnone : stmt.reported = [] <;> cases fails <;> simp [Option.filter, hnone]
    rw [hexecuted]
    exact .calls hat hstmt
  | none =>
    have hstage : stage = .releasing := by
      cases stage <;> first | rfl | cases hstmt
    subst hstage
    exact .releases hat

/-- **A step of the collector.** -/
theorem collectStep_move (a : CollectAct) :
    CollectMove cfg serde s a (collectStmt cfg s a) (collectStep cfg serde s a) := by
  cases a with
  | read n =>
    simp only [collectStep]
    split
    · next hat =>
      split
      · next hn => exact .reads hat hn.1 hn.2
      · exact .stays trivial
    · exact .stays trivial
  | eof =>
    simp only [collectStep]
    split
    · next hat =>
      split
      · next hend => exact startFlush_move cfg serde s (.eof hat hend.1 hend.2)
      · exact .stays trivial
    · exact .stays trivial
  | readError =>
    simp only [collectStep]
    split
    · next hat => exact startFlush_move cfg serde s (.readError hat)
    · exact .stays trivial
  | decode =>
    simp only [collectStep]
    split
    · next hat => exact decode_move cfg serde s hat
    · next hnot => exact .stays hnot
  | timer =>
    simp only [collectStep]
    split
    · next hat hset =>
      split
      · next hdue => exact startFlush_move cfg serde s (.timer hat hset hdue)
      · exact .stays trivial
    · exact .stays trivial
  | recorded fails =>
    cases hat : s.collector with
    | recording id name result =>
      simp only [collectStep, collectStmt, hat]
      cases fails with
      | true => exact .recordFails hat
      | false =>
        cases hrun : s.db.run (.recordStep id name result s.now) with
        | ok db' => exact .recorded hat hrun
        | error e => exact .recordRefused hat hrun
    | _ =>
      simp only [collectStep, collectStmt, hat]
      exact .stays trivial
  | sent =>
    simp only [collectStep]
    split
    · next hat hdone => exact .unheard hat hdone
    · next hat _ =>
      split
      · next hroom => exact .sends hat hroom
      · exact .stays trivial
    · exact .stays trivial
  | flush random fails =>
    cases hat : s.collector with
    | flushing stage final =>
      have hstep : collectStep cfg serde s (.flush random fails) =
          flushStep cfg s random fails stage final := by simp only [collectStep, hat]
      rw [hstep]
      exact flushStep_move cfg serde s random fails hat
    | _ =>
      simp only [collectStep, collectStmt, hat]
      exact .stays fun _ _ hf => by cases hat.symm.trans hf
end

/-! ## `session` and `supervise` -/

/-- Where a session goes that ends with `ok`. -/
def Leaves (s : Supervisor) (ok : Bool) (phase : Phase) : Prop :=
  s.shutdown = true ∧ phase = .draining ok (s.now + drainTimeout) ∨ s.shutdown = false ∧ phase = .closing ok

/-- `supervise` returns: on the token, after a session without an error, or when it has
restarted too often. -/
inductive Finishes (cfg : Settings) (s : Supervisor) : SessionAct → Prop
  | start (hat : s.phase = .starting) (hdown : s.shutdown = true) : Finishes cfg s .start
  | startFails (hat : s.phase = .starting) (hdown : s.shutdown = true) : Finishes cfg s .startFails
  | finished (hat : s.phase = .closing true) (hdead : s.alive = false) (hreturned : s.collector = .returned) :
      Finishes cfg s .finished
  | restart (hat : s.phase = .restarting) (hend : cfg.maxRestarts < s.consecutive ∨ s.shutdown = true) :
      Finishes cfg s .restart

inductive SessionMove (cfg : Settings) (s : Supervisor) : SessionAct → Option Stmt → Supervisor → Prop
  | stays {a : SessionAct} : SessionMove cfg s a none s
  | finishes {a : SessionAct} (h : Finishes cfg s a) : SessionMove cfg s a none (finish s)
  | opens (hat : s.phase = .starting) (hup : s.shutdown = false) :
      SessionMove cfg s .start none
        { s with
          phase := .opening
          startedAt := s.now
          alive := true
          closed := false
          waiting := []
          toChild := []
          fromChild := []
          dispatch := .done false
          acks := []
          collector := .returned
          decoder := .new
          pending := {}
          deadline := none }
  | spawnFails (hat : s.phase = .starting) (hup : s.shutdown = false) :
      SessionMove cfg s .startFails none (fail { s with startedAt := s.now })
  | accepts (hat : s.phase = .opening) :
      SessionMove cfg s .accept none
        { s with phase := .serving, dispatch := .checking, collector := .reading }
  | refuses (hat : s.phase = .opening) :
      SessionMove cfg s .handshakeFails none (fail { s with alive := false })
  | exits {phase : Phase} (hat : s.phase = .serving) (hdead : s.alive = false)
      (hphase : Leaves s false phase) :
      SessionMove cfg s .exited none { s with dispatch := .done false, acks := [], phase := phase }
  | leaves {ok : Bool} {phase : Phase} (hat : s.phase = .serving) (hdone : s.dispatch = .done ok)
      (hphase : Leaves s ok phase) : SessionMove cfg s .dispatchEnded none { s with phase := phase }
  | drains {ok : Bool} {deadline : Time} (hat : s.phase = .draining ok deadline)
      (hend : s.inflight.ids = ∅ ∨ deadline ≤ s.now) :
      SessionMove cfg s .drained none { s with phase := .closing ok }
  | kills {ok : Bool} (hat : s.phase = .closing ok) : SessionMove cfg s .kill none { s with alive := false }
  | breaks (hat : s.phase = .closing false) (hdead : s.alive = false) (hreturned : s.collector = .returned) :
      SessionMove cfg s .finished none (fail s)
  | spares (hat : s.phase = .failed) (hnone : s.inflight.ids = ∅) :
      SessionMove cfg s .handBack none { s with phase := .restarting }
  | takes (hat : s.phase = .failed) (hsome : s.inflight.ids ≠ ∅) :
      SessionMove cfg s .handBack none
        { s with phase := .abandoning (snapshot s.inflight), inflight := ⟨∅⟩ }
  | abandonFails {ids : List JobId} (hat : s.phase = .abandoning ids) :
      SessionMove cfg s (.abandon true) none { s with phase := .restarting }
  | abandons {ids : List JobId} (hat : s.phase = .abandoning ids) :
      SessionMove cfg s (.abandon false) (some (.abandon ids cfg.worker s.now))
        { s with db := s.db.exec (.abandon ids cfg.worker s.now), phase := .reclaiming }
  | reclaimFails {visit : List JobId} (hat : s.phase = .reclaiming) :
      SessionMove cfg s (.reclaim visit true) none { s with phase := .restarting }
  | reclaims {visit : List JobId} (hat : s.phase = .reclaiming) :
      SessionMove cfg s (.reclaim visit false) (some (.reclaim cfg.reclaimLimit visit s.now))
        { s with db := s.db.exec (.reclaim cfg.reclaimLimit visit s.now), phase := .restarting }
  | restarts (hat : s.phase = .restarting) (hrestarts : s.consecutive ≤ cfg.maxRestarts)
      (hup : s.shutdown = false) : SessionMove cfg s .restart none { s with phase := .starting }
  | shutdown : SessionMove cfg s .shutdown none { s with shutdown := true }

section
variable (cfg : Settings) (s : Supervisor)

theorem leave_eq (ok : Bool) : ∃ phase, leave s ok = { s with phase := phase } ∧ Leaves s ok phase := by
  unfold leave
  split
  · next hdown => exact ⟨_, rfl, .inl ⟨hdown, rfl⟩⟩
  · next hup => exact ⟨_, rfl, .inr ⟨Bool.eq_false_iff.mpr hup, rfl⟩⟩

/-- **A step of `supervise` or its session.** -/
theorem sessionStep_move (a : SessionAct) :
    SessionMove cfg s a (sessionStmt cfg s a) (sessionStep cfg s a) := by
  cases a with
  | start =>
    simp only [sessionStep]
    repeat' split
    · next hat hdown => exact .finishes (.start hat hdown)
    · next hat hup => exact .opens hat (Bool.eq_false_iff.mpr hup)
    · exact .stays
  | startFails =>
    simp only [sessionStep]
    repeat' split
    · next hat hdown => exact .finishes (.startFails hat hdown)
    · next hat hup => exact .spawnFails hat (Bool.eq_false_iff.mpr hup)
    · exact .stays
  | accept =>
    simp only [sessionStep]
    split
    · next hat => exact .accepts hat
    · exact .stays
  | handshakeFails =>
    simp only [sessionStep]
    split
    · next hat => exact .refuses hat
    · exact .stays
  | exited =>
    simp only [sessionStep]
    repeat' split
    · exact .stays
    · next hat hdead =>
      obtain ⟨phase, hleave, hphase⟩ := leave_eq (endDispatch s false) false
      rw [hleave]
      exact .exits hat (Bool.eq_false_iff.mpr hdead) hphase
    · exact .stays
  | dispatchEnded =>
    simp only [sessionStep]
    split
    · next ok hat hdone =>
      obtain ⟨phase, hleave, hphase⟩ := leave_eq s ok
      rw [hleave]
      exact .leaves hat hdone hphase
    · exact .stays
  | drained =>
    simp only [sessionStep]
    repeat' split
    · next hat hend => exact .drains hat hend
    · exact .stays
    · exact .stays
  | kill =>
    simp only [sessionStep]
    split
    · next hat => exact .kills hat
    · exact .stays
  | finished =>
    simp only [sessionStep]
    split
    · next ok hat =>
      split
      · next hend =>
        cases ok with
        | true => exact .finishes (.finished hat hend.1 hend.2)
        | false => exact .breaks hat hend.1 hend.2
      · exact .stays
    · exact .stays
  | handBack =>
    simp only [sessionStep]
    repeat' split
    · next hat hnone => exact .spares hat hnone
    · next hat hsome => exact .takes hat hsome
    · exact .stays
  | abandon fails =>
    cases hat : s.phase with
    | abandoning ids =>
      simp only [sessionStep, sessionStmt, hat]
      cases fails with
      | true => exact .abandonFails hat
      | false => exact .abandons hat
    | _ =>
      simp only [sessionStep, sessionStmt, hat]
      exact .stays
  | reclaim visit fails =>
    cases hat : s.phase with
    | reclaiming =>
      simp only [sessionStep, sessionStmt, hat]
      cases fails with
      | true => exact .reclaimFails hat
      | false => exact .reclaims hat
    | _ =>
      simp only [sessionStep, sessionStmt, hat]
      exact .stays
  | restart =>
    simp only [sessionStep]
    repeat' split
    · next hat hend => exact .finishes (.restart hat hend)
    · next hat hgo =>
      obtain ⟨hrestarts, hup⟩ := not_or.mp hgo
      exact .restarts hat (Nat.le_of_not_lt hrestarts) (Bool.eq_false_iff.mpr hup)
    · exact .stays
  | shutdown => exact .shutdown
end

/-! ## `renew` and the child -/

inductive RenewMove (cfg : Settings) (s : Supervisor) : RenewAct → Option Stmt → Supervisor → Prop
  | stays {a : RenewAct} : RenewMove cfg s a none s
  | skips (hrenewing : s.renewing = true) (hat : s.renewal = .asleep)
      (hdue : s.wokenAt + cfg.maintenanceInterval ≤ s.now) (hnone : s.inflight.ids = ∅) :
      RenewMove cfg s .wake none { s with wokenAt := s.now }
  | issues (hrenewing : s.renewing = true) (hat : s.renewal = .asleep)
      (hdue : s.wokenAt + cfg.maintenanceInterval ≤ s.now) (hsome : s.inflight.ids ≠ ∅) :
      RenewMove cfg s .wake none { s with renewal := .issued (snapshot s.inflight) }
  | executes {ids : List JobId} (hat : s.renewal = .issued ids) :
      RenewMove cfg s .execute (some (.renew ids cfg.worker cfg.lease s.now))
        { s with db := s.db.exec (.renew ids cfg.worker cfg.lease s.now), renewal := .executed }
  | answered (hat : s.renewal ≠ .asleep) :
      RenewMove cfg s .answered none { s with renewal := .asleep, wokenAt := s.now }
  | stops (hdown : s.shutdown = true) (hat : s.renewal = .asleep) :
      RenewMove cfg s .stop none { s with renewing := false }

/-- **A step of `renew`.** -/
theorem renewStep_move (cfg : Settings) (s : Supervisor) (a : RenewAct) :
    RenewMove cfg s a (renewStmt cfg s a) (renewStep cfg s a) := by
  cases a with
  | wake =>
    simp only [renewStep]
    split
    · next hwake =>
      obtain ⟨hrenewing, hat, hdue⟩ := hwake
      split
      · next hnone => exact .skips hrenewing hat hdue hnone
      · next hsome => exact .issues hrenewing hat hdue hsome
    · exact .stays
  | execute =>
    cases hat : s.renewal with
    | issued ids =>
      simp only [renewStep, renewStmt, hat]
      exact .executes hat
    | _ =>
      simp only [renewStep, renewStmt, hat]
      exact .stays
  | answered =>
    simp only [renewStep]
    split
    · exact .stays
    · next hat => exact .answered hat
  | stop =>
    simp only [renewStep]
    split
    · next hstop => exact .stops hstop.1 hstop.2
    · exact .stays

inductive ChildMove (s : Supervisor) : ChildAct → Supervisor → Prop
  | stays {a : ChildAct} : ChildMove s a s
  | sends {bytes : Bytes} (hlive : s.alive = true) (hopen : s.closed = false) :
      ChildMove s (.send bytes) { s with fromChild := s.fromChild ++ bytes }
  | records {id : JobId} {name : String} {result : Bytes} (hlive : s.alive = true) (hopen : s.closed = false) :
      ChildMove s (.record id name result)
        { s with
          fromChild := s.fromChild ++ frame (.record id name result)
          waiting := s.waiting.filter (fun ack => ack ≠ (id, name)) ++ [(id, name)] }
  | receives {m : Message} {rest : List Message} (hlive : s.alive = true) (hsocket : s.toChild = m :: rest) :
      ChildMove s .receive { s with toChild := rest, waiting := resolve s.waiting m }
  | closes : ChildMove s .close { s with closed := true }
  | exits : ChildMove s .exit { s with alive := false }

/-- **A step of the child.** -/
theorem childStep_move (s : Supervisor) (a : ChildAct) : ChildMove s a (childStep s a) := by
  cases a with
  | send bytes =>
    simp only [childStep]
    split
    · next hopen => exact .sends hopen.1 hopen.2
    · exact .stays
  | record id name result =>
    simp only [childStep]
    split
    · next hopen => exact .records hopen.1 hopen.2
    · exact .stays
  | receive =>
    simp only [childStep]
    repeat' split
    · next hsocket hlive => exact .receives hlive hsocket
    · exact .stays
    · exact .stays
  | close => exact .closes
  | exit => exact .exits

/-! ## A step of any of them -/

inductive Move (cfg : Settings) (serde : Serde) (s : Supervisor) : Act → Option Stmt → Supervisor → Prop
  | stays {a : Act} (hnot : ∀ b, a ≠ .collect b) : Move cfg serde s a none s
  | dispatch {a : DispatchAct} {stmt : Option Stmt} {s' : Supervisor} (hserving : s.phase = .serving)
      (h : DispatchMove cfg s a stmt s') : Move cfg serde s (.dispatch a) stmt s'
  | collect {a : CollectAct} {stmt : Option Stmt} {s' : Supervisor} (h : CollectMove cfg serde s a stmt s') :
      Move cfg serde s (.collect a) stmt s'
  | session {a : SessionAct} {stmt : Option Stmt} {s' : Supervisor} (h : SessionMove cfg s a stmt s') :
      Move cfg serde s (.session a) stmt s'
  | renew {a : RenewAct} {stmt : Option Stmt} {s' : Supervisor} (h : RenewMove cfg s a stmt s') :
      Move cfg serde s (.renew a) stmt s'
  | child {a : ChildAct} {s' : Supervisor} (h : ChildMove s a s') : Move cfg serde s (.child a) none s'
  | outside {stmt : Stmt} (hother : actsFor stmt ≠ some cfg.worker) :
      Move cfg serde s (.outside stmt) (some stmt) { s with db := s.db.exec stmt }
  | tick {d : Nat} (hdue : s.renewing = true → s.renewal = .asleep →
        s.now + d ≤ s.wokenAt + cfg.maintenanceInterval) :
      Move cfg serde s (.tick d) none { s with now := s.now + d }

/-- **What a step can do.** -/
theorem step_move (cfg : Settings) (serde : Serde) (s : Supervisor) (a : Act) :
    Move cfg serde s a (executed cfg s a) (step cfg serde s a) := by
  cases a with
  | dispatch a =>
    simp only [step, executed]
    split
    · next hserving => exact .dispatch hserving (dispatchStep_move cfg s a)
    · exact .stays fun _ h => by cases h
  | collect a => exact .collect (collectStep_move cfg serde s a)
  | session a => exact .session (sessionStep_move cfg s a)
  | renew a => exact .renew (renewStep_move cfg s a)
  | child a => exact .child (childStep_move s a)
  | outside stmt =>
    simp only [step, executed]
    split
    · exact .stays fun _ h => by cases h
    · next hother => exact .outside hother
  | tick d =>
    simp only [step]
    split
    · exact .stays fun _ h => by cases h
    · next hnot =>
      exact .tick fun hrenewing hasleep => not_lt.mp fun hlate => hnot ⟨hrenewing, hasleep, hlate⟩

/-! ## What each party leaves alone -/

/-- `dispatch` touches the database, `InFlight`, its end of the channel and the socket
to the child. -/
structure DispatchFrame (s s' : Supervisor) : Prop where
  now : s'.now = s.now
  shutdown : s'.shutdown = s.shutdown
  phase : s'.phase = s.phase
  alive : s'.alive = s.alive
  closed : s'.closed = s.closed
  waiting : s'.waiting = s.waiting
  fromChild : s'.fromChild = s.fromChild
  collector : s'.collector = s.collector
  decoder : s'.decoder = s.decoder
  pending : s'.pending = s.pending
  deadline : s'.deadline = s.deadline
  renewing : s'.renewing = s.renewing
  renewal : s'.renewal = s.renewal
  wokenAt : s'.wokenAt = s.wokenAt

/-- The collector touches the database, `InFlight`, its end of the channel and what
the child has sent. -/
structure CollectFrame (s s' : Supervisor) : Prop where
  now : s'.now = s.now
  shutdown : s'.shutdown = s.shutdown
  phase : s'.phase = s.phase
  alive : s'.alive = s.alive
  closed : s'.closed = s.closed
  waiting : s'.waiting = s.waiting
  toChild : s'.toChild = s.toChild
  dispatch : s'.dispatch = s.dispatch
  renewing : s'.renewing = s.renewing
  renewal : s'.renewal = s.renewal
  wokenAt : s'.wokenAt = s.wokenAt
  since : s'.since = s.since
  inflight : s'.inflight.ids ⊆ s.inflight.ids

/-- `supervise` moves no clock and puts nothing in flight; `renew` it can only stop. -/
structure SessionFrame (s s' : Supervisor) : Prop where
  now : s'.now = s.now
  shutdown : s.shutdown = true → s'.shutdown = true
  renewing : s'.renewing = true → s.renewing = true
  renewal : s'.renewal = s.renewal
  wokenAt : s'.wokenAt = s.wokenAt
  since : s'.since = s.since
  inflight : s'.inflight.ids ⊆ s.inflight.ids

section
variable {cfg : Settings} {serde : Serde} {s s' : Supervisor} {stmt : Option Stmt}

theorem DispatchMove.frame {a : DispatchAct} (h : DispatchMove cfg s a stmt s') : DispatchFrame s s' := by
  cases h <;> constructor <;> rfl

theorem CollectMove.frame {a : CollectAct} (h : CollectMove cfg serde s a stmt s') : CollectFrame s s' := by
  cases h with
  | releases => exact ⟨rfl, rfl, rfl, rfl, rfl, rfl, rfl, rfl, rfl, rfl, rfl, rfl, Finset.sdiff_subset⟩
  | _ => constructor <;> rfl

theorem SessionMove.frame {a : SessionAct} (h : SessionMove cfg s a stmt s') : SessionFrame s s' := by
  cases h with
  | finishes => exact ⟨rfl, id, fun hr => Bool.noConfusion hr, rfl, rfl, rfl, Finset.Subset.refl _⟩
  | takes => exact ⟨rfl, id, id, rfl, rfl, rfl, Finset.empty_subset _⟩
  | shutdown => exact ⟨rfl, fun _ => rfl, id, rfl, rfl, rfl, Finset.Subset.refl _⟩
  | _ => exact ⟨rfl, id, id, rfl, rfl, rfl, Finset.Subset.refl _⟩

/-- Only the clock moves the clock. -/
theorem Move.now {a : Act} (h : Move cfg serde s a stmt s') : s'.now = s.now ∨ ∃ d, a = .tick d := by
  cases h with
  | dispatch hserving h => exact .inl h.frame.now
  | collect h => exact .inl h.frame.now
  | session h => exact .inl h.frame.now
  | renew h => cases h <;> exact .inl rfl
  | child h => cases h <;> exact .inl rfl
  | tick => exact .inr ⟨_, rfl⟩
  | _ => exact .inl rfl

/-- The token stays cancelled. -/
theorem Move.shutdown {a : Act} (h : Move cfg serde s a stmt s') (hdown : s.shutdown = true) :
    s'.shutdown = true := by
  cases h with
  | dispatch hserving h => exact h.frame.shutdown.trans hdown
  | collect h => exact h.frame.shutdown.trans hdown
  | session h => exact h.frame.shutdown hdown
  | renew h => cases h <;> exact hdown
  | child h => cases h <;> exact hdown
  | _ => exact hdown

/-- `renew` is never restarted. -/
theorem Move.renewing {a : Act} (h : Move cfg serde s a stmt s') (hr : s'.renewing = true) :
    s.renewing = true := by
  cases h with
  | dispatch hserving h => exact h.frame.renewing.symm.trans hr
  | collect h => exact h.frame.renewing.symm.trans hr
  | session h => exact h.frame.renewing hr
  | renew h =>
    cases h with
    | stops => cases hr
    | _ => exact hr
  | child h => cases h <;> exact hr
  | _ => exact hr
end

end Gylo.Worker.Session
