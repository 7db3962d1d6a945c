import Mathlib.Data.Finset.Sort
import Gylo.Lib.Runs
import Gylo.Store.FetchCall
import Gylo.Wire.Decoder
import Gylo.Worker.Flush

/-! # One supervisor

`supervise` runs one Python child after the other. In a session three tasks work
side by side: `dispatch` leases jobs and writes to the child, `collect_completions`
reads from it and records what it reports, and `renew`, which outlives the
session, extends the leases of the jobs in flight. They share `InFlight`, a
channel of acknowledgements and the shutdown token, and each gives way to the
others only where it awaits something. The state below is the state of all three
at such points; an action is the stretch one of them runs to its next await, or
something the child, the clock or another party does. -/
namespace Gylo.Worker.Session

open Gylo.Store Gylo.Store.FetchCall Gylo.Wire

/-! ## State -/

/-- The settings that are read here, with their defaults, and the worker id
`supervise` draws. -/
structure Settings extends Config where
  retryBase := 1000000
  retryCap := 3600000000
  worker : Uuid
  queues : List String := ["default"]
  batch : Int := 128
  lease : Time := 30000000
  concurrency : Nat := 256
  completionBatch : Nat := 100
  completionLinger : Time := 5000
  maintenanceInterval : Nat := 10000000
  reclaimLimit : Int := 1000
  maxRestarts : Nat := 8

/-- `ACK_CAPACITY`. -/
def ackCapacity : Nat := 256

/-- `DRAIN_TIMEOUT`, in microseconds. -/
def drainTimeout : Time := 30000000

/-- `HEALTHY_SESSION`, in microseconds. -/
def healthySession : Time := 30000000

/-- A step the child waits for, and what `Message::Stored` carries. -/
abbrev Ack := JobId × String

/-- Where `dispatch` is: at the condition of its loop, at `try_recv`, writing an
acknowledgement (`polling` if it came from `try_recv`), waiting for a free slot,
in one of the statements of `fetch`, waiting after a failed one, waiting for jobs,
in the loop over the jobs it leased, discarding one of them, writing the batch, or
through. -/
inductive Dispatch where
  | checking
  | acking
  | forwarding (ack : Ack) (polling : Bool)
  | full
  | fetching (limit : Int)
  | asking (limit : Int)
  | admitting (limit : Int) (jobs : List LeasedJob)
  | retrying
  | idle
  | packing (todo : List LeasedJob) (buf : List Message) (reserved : List JobId)
  | discarding (id : JobId) (error : String) (todo : List LeasedJob) (buf : List Message)
      (reserved : List JobId)
  | writing (buf : List Message)
  | done (ok : Bool)

/-- The four calls of `flush`, and the release after them. -/
inductive FlushStage where
  | completed | withResult | retry | terminal | releasing
deriving DecidableEq

/-- Where `collect_completions` is: at `read`, in the loop over the messages, in
`record_step`, in `send`, in a flush (`final` if it returns afterwards), or
through. -/
inductive Collector where
  | reading
  | decoding
  | recording (id : JobId) (name : String) (result : Bytes)
  | sending (ack : Ack)
  | flushing (stage : FlushStage) (final : Bool)
  | returned
deriving DecidableEq

/-- Where `supervise` is: at the condition of its loop; in `session`, waiting for the
child to connect, for `dispatch` or the child to end, for the drain, or for the
killed child and the collector; with the session's error in hand; in the two
statements of `hand_back`; before the next round; or through. -/
inductive Phase where
  | starting
  | opening
  | serving
  | draining (ok : Bool) (deadline : Time)
  | closing (ok : Bool)
  | failed
  | abandoning (ids : List JobId)
  | reclaiming
  | restarting
  | over
deriving DecidableEq

/-- Where `renew` is: asleep, or in `renew_leases` with the jobs it names, before or
after the server has executed the statement. -/
inductive Renewal where
  | asleep
  | issued (ids : List JobId)
  | executed
deriving DecidableEq

/-- The supervisor, its child and the database. `wokenAt` is when the sleep of `renew`
began, this one or the last. `since` is not in the code: when a job went in flight. -/
structure Supervisor where
  db : Db
  now : Time := 0
  shutdown : Bool := false
  phase : Phase := .starting
  consecutive : Nat := 0
  startedAt : Time := 0
  inflight : InFlight := ⟨∅⟩
  alive : Bool := false
  closed : Bool := false
  waiting : List Ack := []
  toChild : List Message := []
  fromChild : Bytes := []
  dispatch : Dispatch := .done false
  acks : List Ack := []
  collector : Collector := .returned
  decoder : Decoder := .new
  pending : Pending := {}
  deadline : Option Time := none
  renewing : Bool := true
  renewal : Renewal := .asleep
  wokenAt : Time := 0
  since : JobId → Time := fun _ => 0

/-! ## `InFlight` -/

def available (cfg : Settings) (f : InFlight) : Nat := cfg.concurrency - f.ids.card

/-- `snapshot`, in one of the orders a `HashSet` may give. -/
def snapshot (f : InFlight) : List JobId := f.ids.sort

def reserve (f : InFlight) (ids : List JobId) : InFlight := ⟨f.ids ∪ ids.toFinset⟩

/-! ## `dispatch` -/

inductive DispatchAct where
  | check
  | tryRecv
  | recv
  | freed
  | wake
  | stop
  | wrote (ok : Bool)
  | fetchUnkeyed (skip : List JobId) (commit : Commit)
  | ask (fails : Bool)
  | fetchKeyed (skip : List JobId) (commit : Commit)
  | pack (fails : Bool)
  | discard (fails : Bool)

section
variable (cfg : Settings) (s : Supervisor)

/-- `dispatch` returns, or is dropped: the receiver of the channel goes with it. -/
def endDispatch (ok : Bool) : Supervisor := { s with dispatch := .done ok, acks := [] }

def call (limit : Int) : Call := ⟨cfg.queues, limit, cfg.lease, cfg.worker⟩

/-- What a fetch statement meets at this moment. -/
def meets (skip : List JobId) : FetchCall.World :=
  { now := s.now, nowWaiting := s.now, nowKeyed := s.now, skip := skip, skipKeyed := skip }

/-- `jobs` in hand: nothing to do without any. -/
def fetched (jobs : List LeasedJob) : Dispatch :=
  if jobs = [] then .idle else .packing jobs [] []

/-- `FETCH_UNKEYED`; a lost commit is one the server made without the client
hearing of it. -/
def fetchUnkeyed (limit : Int) (skip : List JobId) (commit : Commit) : Supervisor :=
  match s.db.run (.fetchUnkeyed (unkeyedArgs (call cfg limit) (meets s skip))), commit with
  | .ok db', .ok =>
    let jobs := returning db'.toTables (s.db.lockedUnkeyed (unkeyedArgs (call cfg limit) (meets s skip)))
    { s with
      db := db'
      dispatch :=
        if jobs = [] then .asking limit
        else if s.db.keyedWaiting cfg.queues s.now then .admitting limit jobs
        else .packing jobs [] [] }
  | .ok db', .lost => { s with db := db', dispatch := .retrying }
  | _, _ => { s with dispatch := .retrying }

/-- `FETCH_KEYED`, in its transaction. -/
def fetchKeyed (limit : Int) (jobs : List LeasedJob) (skip : List JobId) (commit : Commit) :
    Supervisor :=
  let a := keyedArgs (call cfg limit) (meets s skip) jobs.length
  match s.db.run (.fetchKeyed a), commit with
  | .ok db', .ok =>
    { s with
      db := db'
      dispatch := fetched (jobs ++ returning db'.toTables (s.db.admitted a s.db.toTables)) }
  | .ok db', .lost => { s with db := db', dispatch := .retrying }
  | _, _ => { s with dispatch := .retrying }

/-- The `Steps` frame of a durable job on a later attempt, if there is one to send. -/
def priorSteps (fails : Bool) (job : LeasedJob) : List Message :=
  if job.durable ∧ 1 < job.attempt ∧ fails = false ∧ s.db.stepsFor job.id ≠ [] ∧
      Accepted (.steps job.id (s.db.stepsFor job.id)) then
    [.steps job.id (s.db.stepsFor job.id)]
  else []

def dispatchOf (job : LeasedJob) : Message :=
  .dispatch job.id job.attempt job.maxAttempts job.task job.payload

/-- One round of the loop over the leased jobs, or its end. -/
def pack (fails : Bool) (buf : List Message) (reserved : List JobId) : List LeasedJob → Supervisor
  | job :: todo =>
    match (encode (dispatchOf job) []).2 with
    | .ok () =>
      let buf := buf ++ priorSteps s fails job ++ [dispatchOf job]
      { s with dispatch := .packing todo buf (reserved ++ [job.id]) }
    | .error e =>
      { s with dispatch := .discarding job.id e.text todo (buf ++ priorSteps s fails job) reserved }
  | [] =>
    if reserved = [] then { s with dispatch := .checking }
    else
      { s with
        inflight := Session.reserve s.inflight reserved
        since := fun id => if id ∈ reserved then s.now else s.since id
        dispatch := .writing buf }

def dispatchStep : DispatchAct → Supervisor
  | .check => match s.dispatch with
    | .checking => if s.shutdown then endDispatch s true else { s with dispatch := .acking }
    | _ => s
  | .tryRecv => match s.dispatch, s.acks with
    | .acking, ack :: acks => { s with acks := acks, dispatch := .forwarding ack true }
    | .acking, [] =>
      if available cfg s.inflight = 0 then { s with dispatch := .full }
      else { s with dispatch := .fetching (min cfg.batch (available cfg s.inflight)) }
    | _, _ => s
  | .recv => match s.dispatch, s.acks with
    | .full, ack :: acks => { s with acks := acks, dispatch := .forwarding ack false }
    | .idle, ack :: acks => { s with acks := acks, dispatch := .forwarding ack false }
    -- once the collector has dropped the sender, `recv` returns `None` at once
    | .full, [] => if s.collector = .returned then { s with dispatch := .checking } else s
    | .idle, [] => if s.collector = .returned then { s with dispatch := .checking } else s
    | _, _ => s
  | .freed => match s.dispatch with
    | .full => { s with dispatch := .checking }
    | _ => s
  | .wake => match s.dispatch with
    | .idle => { s with dispatch := .checking }
    | .retrying => { s with dispatch := .checking }
    | _ => s
  | .stop => match s.dispatch with
    | .full => if s.shutdown then endDispatch s true else s
    | .idle => if s.shutdown then endDispatch s true else s
    | .retrying => if s.shutdown then endDispatch s true else s
    | _ => s
  | .wrote ok => match s.dispatch with
    | .forwarding ack polling =>
      if ok then
        { s with
          toChild := s.toChild ++ if Accepted (.stored ack.1 ack.2) then [.stored ack.1 ack.2] else []
          dispatch := if polling then .acking else .checking }
      else endDispatch s false
    | .writing buf =>
      if ok then { s with toChild := s.toChild ++ buf, dispatch := .checking } else endDispatch s false
    | _ => s
  | .fetchUnkeyed skip commit => match s.dispatch with
    | .fetching limit => fetchUnkeyed cfg s limit skip commit
    | _ => s
  | .ask fails => match s.dispatch with
    | .asking limit =>
      if fails then { s with dispatch := .retrying }
      else if s.db.keyedWaiting cfg.queues s.now then { s with dispatch := .admitting limit [] }
      else { s with dispatch := .idle }
    | _ => s
  | .fetchKeyed skip commit => match s.dispatch with
    | .admitting limit jobs => fetchKeyed cfg s limit jobs skip commit
    | _ => s
  | .pack fails => match s.dispatch with
    | .packing todo buf reserved => pack s fails buf reserved todo
    | _ => s
  | .discard fails => match s.dispatch with
    | .discarding id error todo buf reserved =>
      { s with
        db := if fails then s.db else s.db.exec (.discardMany [(id, error)] cfg.worker s.now)
        dispatch := .packing todo buf reserved }
    | _ => s
end

/-! ## `collect_completions` -/

inductive CollectAct where
  | read (bytes : Nat)
  | eof
  | readError
  | decode
  | timer
  | recorded (fails : Bool)
  | sent
  | flush (random : JobId → Nat) (fails : Bool)

section
variable (cfg : Settings) (serde : Serde) (s : Supervisor)

/-- Where a flush leads to. -/
def afterFlush (final : Bool) : Collector := if final then .returned else .reading

/-- `flush` returns at once if there is nothing to record. -/
def startFlush (final : Bool) : Supervisor :=
  if s.pending.settled = [] then { s with collector := afterFlush final, deadline := none }
  else { s with collector := .flushing .completed final }

/-- What the calls of a flush meet at this moment. -/
def world (random : JobId → Nat) : Worker.World :=
  { nowCompleted := s.now, nowWithResult := s.now, nowRetry := s.now, nowTerminal := s.now,
    random := random }

/-- The statement of a stage. -/
def flushStmt (random : JobId → Nat) : FlushStage → Option Stmt
  | .completed => some (completeMany s.pending cfg.worker (world s random))
  | .withResult => some (completeManyWithResults s.pending cfg.worker (world s random))
  | .retry => some (retryMany s.pending cfg.toConfig cfg.worker (world s random))
  | .terminal => some (discardMany s.pending cfg.worker (world s random))
  | .releasing => none

def FlushStage.next : FlushStage → FlushStage
  | .completed => .withResult
  | .withResult => .retry
  | .retry => .terminal
  | .terminal => .releasing
  | .releasing => .releasing

def flushStep (random : JobId → Nat) (fails : Bool) (stage : FlushStage) (final : Bool) : Supervisor :=
  match flushStmt cfg s random stage with
  | some stmt => { s with db := issue fails stmt s.db, collector := .flushing stage.next final }
  | none =>
    { s with
      inflight := s.inflight.release s.pending.settled
      pending := {}
      deadline := none
      collector := afterFlush final }

/-- One `next_message`. The schedules of a `Register` are upserted by statements that
the other parties' stand for; the remaining kinds are only logged. -/
def decode : Supervisor :=
  match s.decoder.nextMessage serde with
  | (.ok none, d) =>
    if cfg.completionBatch ≤ s.pending.settled.length then startFlush { s with decoder := d } false
    else { s with decoder := d, collector := .reading }
  | (.ok (some (.complete id outcome)), d) =>
    { s with
      decoder := d
      pending := s.pending.push id outcome
      deadline := some (s.deadline.getD (s.now + cfg.completionLinger)) }
  | (.ok (some (.record id name result)), d) =>
    { s with decoder := d, collector := .recording id name result }
  | (.ok (some _), d) => { s with decoder := d }
  | (.error _, d) => startFlush { s with decoder := d } true

def collectStep : CollectAct → Supervisor
  | .read n => match s.collector with
    | .reading =>
      if 0 < n ∧ n ≤ s.fromChild.length then
        { s with
          decoder := s.decoder.extend (s.fromChild.take n)
          fromChild := s.fromChild.drop n
          collector := .decoding }
      else s
    | _ => s
  | .eof => match s.collector with
    | .reading =>
      if s.fromChild = [] ∧ (s.closed = true ∨ s.alive = false) then startFlush s true else s
    | _ => s
  | .readError => match s.collector with
    | .reading => startFlush s true
    | _ => s
  | .decode => match s.collector with
    | .decoding => decode cfg serde s
    | _ => s
  | .timer => match s.collector, s.deadline with
    | .reading, some at_ => if at_ ≤ s.now then startFlush s false else s
    | _, _ => s
  | .recorded fails => match s.collector with
    | .recording id name result =>
      if fails then { s with collector := .decoding }
      else match s.db.run (.recordStep id name result s.now) with
        | .ok db' => { s with db := db', collector := .sending (id, name) }
        | .error _ => { s with collector := .decoding }
    | _ => s
  | .sent => match s.collector, s.dispatch with
    -- the receiver is gone: `send` fails, and nobody looks
    | .sending _, .done _ => { s with collector := .decoding }
    | .sending ack, _ =>
      if s.acks.length < ackCapacity then { s with acks := s.acks ++ [ack], collector := .decoding }
      else s
    | _, _ => s
  | .flush random fails => match s.collector with
    | .flushing stage final => flushStep cfg s random fails stage final
    | _ => s
end

/-! ## `session` and `supervise` -/

inductive SessionAct where
  | start
  | startFails
  | accept
  | handshakeFails
  | exited
  | dispatchEnded
  | drained
  | kill
  | finished
  | handBack
  | abandon (fails : Bool)
  | reclaim (visit : List JobId) (fails : Bool)
  | restart
  | shutdown

section
variable (cfg : Settings) (s : Supervisor)

/-- `session` returns an error. -/
def fail : Supervisor :=
  { s with
    phase := .failed
    consecutive := (if healthySession ≤ s.now - s.startedAt then 0 else s.consecutive) + 1 }

/-- `supervise` returns, and aborts `renew`. -/
def finish : Supervisor := { s with phase := .over, renewing := false }

/-- After the `select!`: drain if shutting down, then kill the child. -/
def leave (ok : Bool) : Supervisor :=
  if s.shutdown then { s with phase := .draining ok (s.now + drainTimeout) }
  else { s with phase := .closing ok }

def sessionStep : SessionAct → Supervisor
  | .start => match s.phase with
    | .starting =>
      if s.shutdown then finish s
      else
        { s with
          phase := .opening
          startedAt := s.now
          alive := true
          closed := false
          waiting := []
          toChild := []
          fromChild := []
          dispatch := .done false
          acks := []
          collector := .returned
          decoder := .new
          pending := {}
          deadline := none }
    | _ => s
  | .startFails => match s.phase with
    | .starting => if s.shutdown then finish s else fail { s with startedAt := s.now }
    | _ => s
  | .accept => match s.phase with
    | .opening => { s with phase := .serving, dispatch := .checking, collector := .reading }
    | _ => s
  -- the child is killed when it is dropped
  | .handshakeFails => match s.phase with
    | .opening => fail { s with alive := false }
    | _ => s
  | .exited => match s.phase with
    | .serving => if s.alive then s else leave (endDispatch s false) false
    | _ => s
  | .dispatchEnded => match s.phase, s.dispatch with
    | .serving, .done ok => leave s ok
    | _, _ => s
  | .drained => match s.phase with
    | .draining ok deadline =>
      if s.inflight.ids = ∅ ∨ deadline ≤ s.now then { s with phase := .closing ok } else s
    | _ => s
  | .kill => match s.phase with
    | .closing _ => { s with alive := false }
    | _ => s
  | .finished => match s.phase with
    | .closing ok =>
      if s.alive = false ∧ s.collector = .returned then (if ok then finish s else fail s) else s
    | _ => s
  | .handBack => match s.phase with
    | .failed =>
      if s.inflight.ids = ∅ then { s with phase := .restarting }
      else { s with phase := .abandoning (snapshot s.inflight), inflight := ⟨∅⟩ }
    | _ => s
  | .abandon fails => match s.phase with
    | .abandoning ids =>
      if fails then { s with phase := .restarting }
      else { s with db := s.db.exec (.abandon ids cfg.worker s.now), phase := .reclaiming }
    | _ => s
  | .reclaim visit fails => match s.phase with
    | .reclaiming =>
      { s with
        db := if fails then s.db else s.db.exec (.reclaim cfg.reclaimLimit visit s.now)
        phase := .restarting }
    | _ => s
  | .restart => match s.phase with
    | .restarting =>
      if cfg.maxRestarts < s.consecutive ∨ s.shutdown = true then finish s
      else { s with phase := .starting }
    | _ => s
  | .shutdown => { s with shutdown := true }
end

/-! ## `renew`, the child, and everybody else -/

inductive RenewAct where
  | wake
  | execute
  | answered
  | stop

/-- The sleep ends, the server executes the statement, `renew_leases` returns (with an
error, if the server has not), or the sleep notices the token. Whatever it returned, a
whole interval of sleep follows. -/
def renewStep (cfg : Settings) (s : Supervisor) : RenewAct → Supervisor
  | .wake =>
    if s.renewing = true ∧ s.renewal = .asleep ∧ s.wokenAt + cfg.maintenanceInterval ≤ s.now then
      if s.inflight.ids = ∅ then { s with wokenAt := s.now }
      else { s with renewal := .issued (snapshot s.inflight) }
    else s
  -- an aborted `renew` does not take back what it has sent
  | .execute => match s.renewal with
    | .issued ids =>
      { s with db := s.db.exec (.renew ids cfg.worker cfg.lease s.now), renewal := .executed }
    | _ => s
  | .answered => match s.renewal with
    | .asleep => s
    | _ => { s with renewal := .asleep, wokenAt := s.now }
  | .stop => if s.shutdown = true ∧ s.renewal = .asleep then { s with renewing := false } else s

/-- What the child does: write any bytes, write a `Record` and wait for its
acknowledgement, read a message, close its side of the socket, or exit. -/
inductive ChildAct where
  | send (bytes : Bytes)
  | record (id : JobId) (name : String) (result : Bytes)
  | receive
  | close
  | exit

/-- `StepAcks.resolve`. -/
def resolve (waiting : List Ack) : Message → List Ack
  | .stored id name => waiting.filter fun ack => ack ≠ (id, name)
  | _ => waiting

def childStep (s : Supervisor) : ChildAct → Supervisor
  | .send bytes =>
    if s.alive = true ∧ s.closed = false then { s with fromChild := s.fromChild ++ bytes } else s
  | .record id name result =>
    if s.alive = true ∧ s.closed = false then
      { s with
        fromChild := s.fromChild ++ frame (.record id name result)
        waiting := s.waiting.filter (fun ack => ack ≠ (id, name)) ++ [(id, name)] }
    else s
  | .receive => match s.toChild with
    | m :: rest => if s.alive then { s with toChild := rest, waiting := resolve s.waiting m } else s
    | [] => s
  | .close => { s with closed := true }
  | .exit => { s with alive := false }

/-- The worker a statement acts for. -/
def actsFor : Stmt → Option Uuid
  | .fetchUnkeyed a | .fetchKeyed a => some a.worker
  | .renew _ worker _ _ | .abandon _ worker _ => some worker
  | s => s.reporter

inductive Act where
  | dispatch (a : DispatchAct)
  | collect (a : CollectAct)
  | session (a : SessionAct)
  | renew (a : RenewAct)
  | child (a : ChildAct)
  | outside (stmt : Stmt)
  | tick (d : Nat)

/-- Nobody else acts for this worker, whose id is fresh. The timer of `renew` fires
before the clock goes on, once it is due. -/
def step (cfg : Settings) (serde : Serde) (s : Supervisor) : Act → Supervisor
  | .dispatch a => if s.phase = .serving then dispatchStep cfg s a else s
  | .collect a => collectStep cfg serde s a
  | .session a => sessionStep cfg s a
  | .renew a => renewStep cfg s a
  | .child a => childStep s a
  | .outside stmt =>
    if actsFor stmt = some cfg.worker then s else { s with db := s.db.exec stmt }
  | .tick d =>
    if s.renewing = true ∧ s.renewal = .asleep ∧
        s.wokenAt + cfg.maintenanceInterval < s.now + d then s
    else { s with now := s.now + d }

/-- `supervise` when it is called. -/
def initial (db : Db) : Supervisor := { db := db }

/-- A session is opened, and dispatches what a first fetch returns: one job. -/
def firstDispatch : List Act :=
  [.session .start, .session .accept, .dispatch .check, .dispatch .tryRecv,
    .dispatch (.fetchUnkeyed [] .ok), .dispatch (.pack false), .dispatch (.pack false),
    .dispatch (.wrote true)]

/-- One job is due. -/
def oneWaiting : Db := Db.after [.enqueue { task := "t" } 0]

end Gylo.Worker.Session
