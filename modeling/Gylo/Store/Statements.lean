import Mathlib.Data.List.Sort
import Mathlib.Data.Prod.Lex
import Gylo.Lib.Reach
import Gylo.Lib.Runs
import Gylo.Store.Schema

/-! # The SQL statements, as functions on the tables

One definition for each statement, under its name in the source. Every `now()`
is an argument, as are the choices Postgres makes: the rows other
transactions hold locked (`skip`), the order in which a scan without
`ORDER BY` meets the rows (`visit`), and `random()`. Common table expressions
of one statement all read the tables as they were before it; where two of
them update the same row, the one the other waits for wins.

Statements that decide on one version of the tables and write to a later one
(`reclaim`, `fetchKeyed`) take both, so that the atomic statement is the case
in which nothing was committed in between. -/
namespace Gylo.Store

/-! ## Row updates -/

/-- `SET` of both fetch statements. -/
def Job.lease (j : Job) (worker : Uuid) (lease now : Time) : Job :=
  { j with
    state := .running
    lockedBy := some worker
    leaseExpiresAt := some (now + lease)
    startedAt := some now
    attempt := j.attempt + 1 }

/-- `SET` of `done` in `COMPLETE`. -/
def Job.complete (j : Job) (result : Option Bytes) (now : Time) : Job :=
  { j with
    state := .completed
    finalizedAt := some now
    lockedBy := none
    leaseExpiresAt := none
    result := result }

/-- `SET` of `released` in `COMPLETE`: `n` parents of the job are done. -/
def Job.unblock (j : Job) (n : Nat) (now : Time) : Job :=
  { j with
    pendingDeps := j.pendingDeps - n
    scheduledAt := if j.pendingDeps - n = 0 then (now : WithTop Time) else j.scheduledAt }

/-- `SET` of `CANCEL`. -/
def Job.cancel (j : Job) (now : Time) : Job :=
  { j with state := .cancelled, finalizedAt := some now, lockedBy := none, leaseExpiresAt := none }

/-- `SET` of `cancelled` in `DISCARD_MANY`, which leaves the lease columns. -/
def Job.cascade (j : Job) (now : Time) : Job :=
  { j with state := .cancelled, finalizedAt := some now }

/-- `SET` of `dead` in `DISCARD_MANY` and of both `exhausted`. -/
def Job.discard (j : Job) (error : String) (now : Time) : Job :=
  { j with
    state := .discarded
    finalizedAt := some now
    lockedBy := none
    leaseExpiresAt := none
    errors := j.errors ++ [⟨j.attempt, now, error⟩] }

/-- `SET` of `released` in `RECLAIM`. -/
def Job.release (j : Job) : Job :=
  { j with state := .available, lockedBy := none, leaseExpiresAt := none }

/-- `SET` of `scheduled` in `RETRY_MANY`. -/
def Job.reschedule (j : Job) (delay : Nat) (error : String) (now : Time) : Job :=
  { j with
    state := .available
    lockedBy := none
    leaseExpiresAt := none
    scheduledAt := ((now + delay : Time) : WithTop Time)
    errors := j.errors ++ [⟨j.attempt, now, error⟩] }

/-- `SET` of `RENEW` and `ABANDON`. -/
def Job.expireAt (j : Job) (time : Time) : Job := { j with leaseExpiresAt := some time }

/-- `SET` of `RETRY_DISCARDED`. -/
def Job.requeue (j : Job) (now : Time) : Job :=
  { j with
    state := .available
    attempt := 0
    scheduledAt := (now : WithTop Time)
    lockedBy := none
    leaseExpiresAt := none
    finalizedAt := none }

/-- `locked_by = $w AND state = 'running'`. -/
def Job.HeldBy (j : Job) (worker : Uuid) : Prop := j.lockedBy = some worker ∧ j.state = .running

instance (j : Job) (worker : Uuid) : Decidable (j.HeldBy worker) :=
  inferInstanceAs (Decidable (_ ∧ _))

/-! ## Tables -/

/-- Rewrite every job row. -/
def Tables.mapJobs (t : Tables) (f : Job → Job) : Tables := { t with jobs := t.jobs.map f }

/-- Append rows whose ids the identity sequence has just handed out. -/
def Tables.insertJobs (t : Tables) (rows : List Job) : Tables :=
  { t with jobs := t.jobs ++ rows, jobSeq := t.jobSeq + rows.length }

/-- `DELETE FROM gylo_job`, with `ON DELETE CASCADE` of edges and steps. -/
def Tables.deleteJobs (t : Tables) (victims : List JobId) : Tables :=
  { t with
    jobs := t.jobs.filter fun j => j.id ∉ victims
    edges := t.edges.filter fun e => e.parent ∉ victims ∧ e.child ∉ victims
    steps := t.steps.filter fun s => s.jobId ∉ victims }

/-- The rows in the order a scan meets them. -/
def Tables.scan (t : Tables) (visit : List JobId) : List Job := visit.dedup.filterMap t.job?

/-- A text Postgres refuses to store. -/
def hasNul (text : String) : Bool := '\x00' ∈ text.toList

/-! ## Inserts -/

/-- What an enqueue path binds: the fields of `NewJob`, the columns of
`_COLUMNS`. -/
structure NewJob where
  queue : String := "default"
  task : String
  payload : Bytes := []
  priority : Int := 0
  maxAttempts : Int := 20
  delay : Time := 0
  concurrencyKey : Option String := none
  maxConcurrency : Option Int := none
  durable : Bool := false
deriving DecidableEq

/-- The texts among them. -/
def NewJob.texts (new : NewJob) : List String := new.queue :: new.task :: new.concurrencyKey.toList

def NewJob.row (new : NewJob) (id : JobId) (now : Time) : Job where
  id := id
  queue := new.queue
  task := new.task
  payload := new.payload
  priority := new.priority
  maxAttempts := new.maxAttempts
  scheduledAt := ((now + new.delay : Time) : WithTop Time)
  concurrencyKey := new.concurrencyKey
  maxConcurrency := new.maxConcurrency
  durable := new.durable

/-- `ENQUEUE`, and `INSERT` of the Python adapters. -/
def Tables.enqueue (new : NewJob) (now : Time) (t : Tables) : Tables :=
  t.insertJobs [new.row (t.jobSeq + 1) now]

/-- `INSERT_UNIQUE`: `ON CONFLICT (unique_key) WHERE .. DO NOTHING`. -/
def Tables.insertUnique (new : NewJob) (key : Bytes) (now : Time) (t : Tables) : Tables :=
  if key ∈ t.liveKeys then t
  else t.insertJobs [{ new.row (t.jobSeq + 1) now with uniqueKey := some key }]

/-- `INSERT_NODE`: a node with unmet dependencies is parked at infinity. -/
def NewJob.node (new : NewJob) (id : JobId) (workflow : Int) (pending : Nat) (now : Time) : Job :=
  { new.row id now with
    workflowId := some workflow
    pendingDeps := pending
    scheduledAt := if pending > 0 then ⊤ else ((now + new.delay : Time) : WithTop Time) }

/-- The rows of `insert_workflow`: a workflow, its nodes and the edges between them. -/
def Tables.addWorkflow (nodes : List (NewJob × Nat)) (edges : List (Nat × Nat)) (now : Time) (t : Tables) : Tables :=
  let workflow := t.workflowSeq + 1
  { t.insertJobs (nodes.mapIdx fun i n => n.1.node (t.jobSeq + 1 + i) workflow n.2 now) with
    workflows := t.workflows ++ [workflow]
    workflowSeq := workflow
    edges := t.edges ++ edges.map fun e => ⟨workflow, t.jobSeq + 1 + e.1, t.jobSeq + 1 + e.2⟩ }

/-- `insert_workflow`: one transaction, so that a text that is refused, or an edge index
outside the node list, leaves nothing behind. -/
def Tables.insertWorkflow (nodes : List (NewJob × Nat)) (edges : List (Nat × Nat)) (now : Time)
    (t : Tables) : Except DbError Tables :=
  if nodes.any fun n => n.1.texts.any hasNul then .error .invalidText
  else if ∀ e ∈ edges, e.1 < nodes.length ∧ e.2 < nodes.length then .ok (t.addWorkflow nodes edges now)
  else .error .indexError

/-- A graph of jobs; its edges are a Python `set`. -/
structure Workflow where
  nodes : List NewJob
  edges : List (Nat × Nat)
  distinct : edges.Nodup

/-- `Workflow.dependencies`: `counts[child] += 1` over the edges. -/
def Workflow.dependencies (flow : Workflow) : List Nat :=
  flow.edges.foldl (fun counts e => counts.modify e.2 (· + 1))
    (List.replicate flow.nodes.length 0)

/-- `Workflow.enqueue`; an empty graph inserts nothing. -/
def Tables.enqueueWorkflow (flow : Workflow) (now : Time) (t : Tables) : Except DbError Tables :=
  if flow.nodes = [] then .ok t
  else t.insertWorkflow (flow.nodes.zip flow.dependencies) flow.edges now

/-! ## Leasing -/

/-- The arguments of a fetch statement. -/
structure Fetch where
  queues : List String
  limit : Int
  worker : Uuid
  lease : Time
  now : Time
  skip : List JobId := []

/-- `state = 'available' AND queue = ANY($1) AND scheduled_at <= now()`. -/
def Job.Due (j : Job) (queues : List String) (now : Time) : Prop :=
  j.state = .available ∧ j.queue ∈ queues ∧ j.scheduledAt ≤ (now : WithTop Time)

instance (j : Job) (queues : List String) (now : Time) : Decidable (j.Due queues now) :=
  inferInstanceAs (Decidable (_ ∧ _ ∧ _))

/-- `ORDER BY priority, scheduled_at, id`. -/
def Job.fetchKey (j : Job) : Int ×ₗ WithTop Time ×ₗ JobId :=
  toLex (j.priority, toLex (j.scheduledAt, j.id))

def Job.FetchLE (j k : Job) : Prop := j.fetchKey ≤ k.fetchKey

instance : DecidableRel Job.FetchLE := fun j k => inferInstanceAs (Decidable (j.fetchKey ≤ k.fetchKey))

/-- `locked` in `FETCH_UNKEYED`. -/
def Tables.lockedUnkeyed (a : Fetch) (t : Tables) : List Job :=
  ((t.jobs.filter fun j => j.Due a.queues a.now ∧ j.concurrencyKey = none ∧ j.id ∉ a.skip).insertionSort
    Job.FetchLE).take a.limit.toNat

/-- The final `UPDATE` of both fetch statements. -/
def leaseRow (a : Fetch) (chosen : List JobId) (j : Job) : Job :=
  if j.id ∈ chosen then j.lease a.worker a.lease a.now else j

def Tables.fetchUnkeyed (a : Fetch) (t : Tables) : Tables :=
  t.mapJobs (leaseRow a ((t.lockedUnkeyed a).map Job.id))

/-- `KEYED_WAITING`, and the `keyed_waiting` column of `FETCH_UNKEYED`. -/
def Tables.keyedWaiting (queues : List String) (now : Time) (t : Tables) : Bool :=
  t.jobs.any fun j => j.Due queues now ∧ j.concurrencyKey ≠ none

/-- `active`: the running jobs that carry key `k`, counted. -/
def Tables.active (t : Tables) (k : String) : Nat :=
  (t.jobs.filter fun j => j.state = .running ∧ j.concurrencyKey = some k).length

/-- `already` of a row: `COALESCE(a.running, 0)`. -/
def Tables.already (snapshot : Tables) (j : Job) : Nat :=
  match j.concurrencyKey with
  | some k => snapshot.active k
  | none => 0

/-- The `WHERE` clause of `locked` in `FETCH_KEYED`; the count comes from the
statement's snapshot. -/
def Job.Admissible (a : Fetch) (snapshot : Tables) (j : Job) : Prop :=
  j.Due a.queues a.now ∧ j.concurrencyKey ≠ none ∧
    ∃ m ∈ j.maxConcurrency, (snapshot.already j : Int) < m

instance (a : Fetch) (snapshot : Tables) (j : Job) : Decidable (j.Admissible a snapshot) :=
  inferInstanceAs (Decidable (_ ∧ _ ∧ _))

/-- `locked` in `FETCH_KEYED`: candidates of the snapshot in fetch order, each
re-checked on its latest version when its lock is taken. -/
def Tables.lockedKeyed (t : Tables) (a : Fetch) (snapshot : Tables) : List Job :=
  ((((snapshot.jobs.filter fun j => j.Admissible a snapshot ∧ j.id ∉ a.skip).insertionSort
    Job.FetchLE).filterMap fun j => t.job? j.id).filter fun j => j.Admissible a snapshot).take
      a.limit.toNat

/-- `row_number() OVER (PARTITION BY concurrency_key ORDER BY ..)`. -/
def rowNumber (locked : List Job) (j : Job) : Nat :=
  (locked.filter fun k => k.concurrencyKey = j.concurrencyKey ∧ k.FetchLE j).length

/-- `admitted`: `already + n <= max_concurrency`. -/
def Tables.admitted (t : Tables) (a : Fetch) (snapshot : Tables) : List Job :=
  (t.lockedKeyed a snapshot).filter fun j =>
    ∃ m ∈ j.maxConcurrency, ((snapshot.already j + rowNumber (t.lockedKeyed a snapshot) j : Nat) : Int) ≤ m

/-- `FETCH_KEYED` that counted on `snapshot` and updates `t`. -/
def Tables.fetchKeyedFrom (t : Tables) (a : Fetch) (snapshot : Tables) : Tables :=
  t.mapJobs (leaseRow a ((t.admitted a snapshot).map Job.id))

def Tables.fetchKeyed (a : Fetch) (t : Tables) : Tables := t.fetchKeyedFrom a t

/-! ## Settling -/

/-- `FROM unnest(..) AS v(id, ..) WHERE j.id = v.id AND j.locked_by = $w AND
j.state = 'running'`: what the batch says about a row it settles. -/
def batchEntry {β : Type} (batch : List (JobId × β)) (worker : Uuid) (j : Job) : Option β :=
  if j.HeldBy worker then batch.lookup j.id else none

/-- The ids a batch settles. -/
def Tables.settledBy {β : Type} (t : Tables) (batch : List (JobId × β)) (worker : Uuid) :
    List JobId :=
  (t.jobs.filter fun j => (batchEntry batch worker j).isSome).map Job.id

/-- `counted`: how many parents of `child` are among `done`. -/
def Tables.counted (t : Tables) (done : List JobId) (child : JobId) : Nat :=
  (t.edges.filter fun e => e.child = child ∧ e.parent ∈ done).length

/-- `done`, then `released`: `counted` reads all of `done` first. -/
def Tables.completeRow (batch : List (JobId × Option Bytes)) (worker : Uuid) (now : Time)
    (t : Tables) (j : Job) : Job :=
  match batchEntry batch worker j with
  | some result => j.complete result now
  | none =>
    let n := t.counted (t.settledBy batch worker) j.id
    if n = 0 then j else j.unblock n now

def Tables.complete (batch : List (JobId × Option Bytes)) (worker : Uuid) (now : Time)
    (t : Tables) : Tables := t.mapJobs (t.completeRow batch worker now)

def cancelRow (ids : List JobId) (now : Time) (j : Job) : Job :=
  if j.id ∈ ids ∧ j.state = .available then j.cancel now else j

def Tables.cancel (ids : List JobId) (now : Time) (t : Tables) : Tables :=
  t.mapJobs (cancelRow ids now)

/-- `walk` in `DISCARD_MANY`: everything downstream of the dead jobs. -/
def Tables.walk (t : Tables) (dead : List JobId) : List JobId :=
  Reach.walk (t.edges.map fun e => (e.parent, e.child)) dead

def Tables.discardRow (batch : List (JobId × String)) (worker : Uuid) (now : Time) (t : Tables)
    (j : Job) : Job :=
  match batchEntry batch worker j with
  | some error => j.discard error now
  | none =>
    if j.id ∈ t.walk (t.settledBy batch worker) ∧ j.state = .available then j.cascade now else j

def Tables.discardMany (batch : List (JobId × String)) (worker : Uuid) (now : Time) (t : Tables) :
    Except DbError Tables :=
  if batch.any fun v => hasNul v.2 then .error .invalidText
  else .ok (t.mapJobs (t.discardRow batch worker now))

/-- `least(base * power(2, attempt - 1), cap)`. -/
def backoff (base cap : Nat) (attempt : Int) : Nat :=
  min (if 1 ≤ attempt then base * Nat.pow 2 (attempt - 1).toNat
    else base / Nat.pow 2 (1 - attempt).toNat) cap

/-- The jitter factor `0.5 + random() * 0.5`; `random` in millionths. -/
def jitter (delay random : Nat) : Nat := delay * (1000000 + random) / 2000000

structure Retry where
  batch : List (JobId × String)
  worker : Uuid
  base : Nat
  cap : Nat
  random : JobId → Nat
  now : Time

def retryRow (a : Retry) (j : Job) : Job :=
  match batchEntry a.batch a.worker j with
  | some error =>
    if j.attempt < j.maxAttempts then
      j.reschedule (jitter (backoff a.base a.cap j.attempt) (a.random j.id)) error a.now
    else j.discard error a.now
  | none => j

/-- `base * power(2, attempt - 1)` is out of the range of `float8`: the power comes to 2¹⁰²⁴,
or does so together with the binary exponent of the base, which is in seconds and rounded
to 53 bits. -/
def Unbounded (base : Nat) (attempt : Int) : Prop :=
  1024 ≤ attempt - 1 + Nat.log2 (base * Nat.pow 2 54 / ((Nat.pow 2 54 - 1) * 1000000))

instance (base : Nat) (attempt : Int) : Decidable (Unbounded base attempt) :=
  inferInstanceAs (Decidable (_ ≤ _))

/-- `RETRY_MANY`. A cap that is itself beyond the range of `timestamptz` is left out, as are
such times everywhere. -/
def Tables.retryMany (a : Retry) (t : Tables) : Except DbError Tables :=
  if a.batch.any fun v => hasNul v.2 then .error .invalidText
  else if t.jobs.any fun j => (batchEntry a.batch a.worker j).isSome ∧ j.attempt < j.maxAttempts ∧
      Unbounded a.base j.attempt then .error .outOfRange
  else .ok (t.mapJobs (retryRow a))

/-! ## Leases -/

/-- A row of the `expired` CTE of `RECLAIM`. -/
structure Expired where
  id : JobId
  queue : String
  exhausted : Bool
deriving DecidableEq

/-- `state = 'running' AND lease_expires_at < now()`. -/
def Job.LeaseExpired (j : Job) (now : Time) : Prop :=
  j.state = .running ∧ ∃ l ∈ j.leaseExpiresAt, l < now

instance (j : Job) (now : Time) : Decidable (j.LeaseExpired now) :=
  inferInstanceAs (Decidable (_ ∧ _))

def Tables.expired (limit : Int) (visit : List JobId) (now : Time) (t : Tables) : List Expired :=
  (((t.scan visit).filter fun j => j.LeaseExpired now).take limit.toNat).map fun j =>
    ⟨j.id, j.queue, j.maxAttempts ≤ j.attempt⟩

def reclaimRow (expired : List Expired) (now : Time) (j : Job) : Job :=
  match expired.find? fun e => e.id = j.id with
  | some e =>
    if j.state = .running then
      if e.exhausted then j.discard "lease expired before the worker reported an outcome" now
      else j.release
    else j
  | none => j

/-- The two `UPDATE`s of `RECLAIM`, on whatever version the rows have by then. -/
def Tables.reclaimFrom (expired : List Expired) (now : Time) (t : Tables) : Tables :=
  t.mapJobs (reclaimRow expired now)

def Tables.reclaim (limit : Int) (visit : List JobId) (now : Time) (t : Tables) : Tables :=
  t.reclaimFrom (t.expired limit visit now) now

def expireRow (ids : List JobId) (worker : Uuid) (time : Time) (j : Job) : Job :=
  if j.id ∈ ids ∧ j.HeldBy worker then j.expireAt time else j

/-- `RENEW`. -/
def Tables.renew (ids : List JobId) (worker : Uuid) (lease now : Time) (t : Tables) : Tables :=
  t.mapJobs (expireRow ids worker (now + lease))

/-- `ABANDON`: the lease ends one microsecond ago. -/
def Tables.abandon (ids : List JobId) (worker : Uuid) (now : Time) (t : Tables) : Tables :=
  t.mapJobs (expireRow ids worker (now - 1))

/-! ## Operators and retention -/

/-- `$1 IS NULL OR column = $1`. -/
def Matches {α : Type} (filter : Option α) (p : α → Prop) : Prop := ∀ a ∈ filter, p a

instance {α : Type} (filter : Option α) (p : α → Prop) [DecidablePred p] :
    Decidable (Matches filter p) := inferInstanceAs (Decidable (∀ a ∈ filter, p a))

def requeueRow (ids : Option (List JobId)) (queue : Option String) (now : Time) (j : Job) : Job :=
  if j.state = .discarded ∧ Matches ids (fun l => j.id ∈ l) ∧ Matches queue (fun q => j.queue = q) then
    j.requeue now
  else j

def Tables.retryDiscarded (ids : Option (List JobId)) (queue : Option String) (now : Time)
    (t : Tables) : Tables := t.mapJobs (requeueRow ids queue now)

def Tables.purgeDiscarded (queue : Option String) (t : Tables) : Tables :=
  t.deleteJobs ((t.jobs.filter fun j =>
    j.state = .discarded ∧ Matches queue (fun q => j.queue = q)).map Job.id)

structure Prune where
  states : List JobState
  olderThan : Time
  queue : Option String
  limit : Int
  visit : List JobId
  now : Time

/-- The `WHERE` clause of `victims`: finished long enough ago, and no member of
its workflow is still waiting or running. -/
def Tables.Prunable (a : Prune) (t : Tables) (j : Job) : Prop :=
  j.state ∈ a.states ∧ (∃ f ∈ j.finalizedAt, f < a.now - a.olderThan) ∧
    Matches a.queue (fun q => j.queue = q) ∧
    (j.workflowId = none ∨ ¬ ∃ u ∈ t.jobs, u.workflowId = j.workflowId ∧ u.Live)

instance (a : Prune) (t : Tables) (j : Job) : Decidable (t.Prunable a j) :=
  inferInstanceAs (Decidable (_ ∧ _ ∧ _ ∧ _))

/-- `ORDER BY finalized_at LIMIT $4`. -/
def Tables.victims (a : Prune) (t : Tables) : List JobId :=
  ((((t.scan a.visit).filter fun j => t.Prunable a j).insertionSort fun j k =>
    j.finalizedAt.getD 0 ≤ k.finalizedAt.getD 0).take a.limit.toNat).map Job.id

def Tables.prune (a : Prune) (t : Tables) : Tables := t.deleteJobs (t.victims a)

/-- `prune_workflows`: a workflow none of whose jobs is left; its edges go
with it. -/
def Tables.pruneWorkflows (t : Tables) : Tables :=
  { t with
    workflows := t.workflows.filter fun w => ∃ j ∈ t.jobs, j.workflowId = some w
    edges := t.edges.filter fun e => ∃ j ∈ t.jobs, j.workflowId = some e.workflowId }

/-! ## Steps and schedules -/

/-- `RECORD_STEP`: `ON CONFLICT (job_id, name) DO NOTHING`. -/
def Tables.recordStep (job : JobId) (name : String) (result : Bytes) (now : Time) (t : Tables) :
    Except DbError Tables :=
  if hasNul name then .error .invalidText
  else if ∃ s ∈ t.steps, s.jobId = job ∧ s.name = name then .ok t
  else .ok { t with steps := t.steps ++ [⟨job, name, result, now⟩] }

/-- `STEPS_FOR`, in `ORDER BY created_at, name`. -/
def Tables.stepsFor (job : JobId) (t : Tables) : List (String × Bytes) :=
  ((t.steps.filter fun s => s.jobId = job).insertionSort fun s r =>
    s.createdAt < r.createdAt ∨ s.createdAt = r.createdAt ∧ s.name ≤ r.name).map
      fun s => (s.name, s.result)

/-- The texts that `UPSERT_CRON` binds. -/
def Cron.texts (entry : Cron) : List String :=
  [entry.name, entry.queue, entry.task, entry.expression, entry.timezone]

/-- `UPSERT_CRON`: the clock moves only if the expression or zone changed, and
`paused` never does. -/
def Tables.upsertCron (entry : Cron) (t : Tables) : Tables :=
  if entry.name ∈ t.crons.map Cron.name then
    { t with crons := t.crons.map fun c =>
        if c.name = entry.name then
          { c with
            queue := entry.queue
            task := entry.task
            payload := entry.payload
            expression := entry.expression
            timezone := entry.timezone
            nextRunAt :=
              if c.expression ≠ entry.expression ∨ c.timezone ≠ entry.timezone then entry.nextRunAt
              else c.nextRunAt }
        else c }
  else { t with crons := t.crons ++ [{ entry with paused := false, lastRunAt := none }] }

/-- `NOT paused AND next_run_at <= now()`. -/
def Cron.Due (c : Cron) (now : Time) : Prop := c.paused = false ∧ c.nextRunAt ≤ now

instance (c : Cron) (now : Time) : Decidable (c.Due now) := inferInstanceAs (Decidable (_ ∧ _))

/-- `DUE_CRON`, in `ORDER BY next_run_at`. -/
def Tables.dueCron (limit : Int) (now : Time) (t : Tables) : List Cron :=
  ((t.crons.filter fun c => c.Due now).insertionSort fun c d => c.nextRunAt ≤ d.nextRunAt).take
    limit.toNat

/-- The row `FIRE_CRON` wins, if any. -/
def Tables.wonCron (name : String) (now : Time) (t : Tables) : Option Cron :=
  t.crons.find? fun c => c.name = name ∧ c.Due now

/-- `SET` of `won` in `FIRE_CRON`. -/
def fireRow (name : String) (next now : Time) (c : Cron) : Cron :=
  if c.name = name ∧ c.Due now then { c with nextRunAt := next, lastRunAt := some now } else c

/-- `FIRE_CRON`: advance the schedule and insert its job. -/
def Tables.fireCron (name : String) (next now : Time) (t : Tables) : Tables :=
  match t.wonCron name now with
  | some won =>
    Tables.insertJobs { t with crons := t.crons.map (fireRow name next now) }
      [{ id := t.jobSeq + 1
         queue := won.queue
         task := won.task
         payload := won.payload
         scheduledAt := (now : WithTop Time) }]
  | none => t

/-! ## Statements in a run -/

/-- A statement with its arguments. -/
inductive Stmt where
  | enqueue (new : NewJob) (now : Time)
  | insertUnique (new : NewJob) (key : Bytes) (now : Time)
  | insertWorkflow (flow : Workflow) (now : Time)
  | fireCron (name : String) (next now : Time)
  | upsertCron (entry : Cron)
  | fetchUnkeyed (a : Fetch)
  | fetchKeyed (a : Fetch)
  | complete (batch : List (JobId × Option Bytes)) (worker : Uuid) (now : Time)
  | retryMany (a : Retry)
  | discardMany (batch : List (JobId × String)) (worker : Uuid) (now : Time)
  | cancel (ids : List JobId) (now : Time)
  | reclaim (limit : Int) (visit : List JobId) (now : Time)
  | renew (ids : List JobId) (worker : Uuid) (lease now : Time)
  | abandon (ids : List JobId) (worker : Uuid) (now : Time)
  | retryDiscarded (ids : Option (List JobId)) (queue : Option String) (now : Time)
  | purgeDiscarded (queue : Option String)
  | prune (a : Prune)
  | pruneWorkflows
  | recordStep (job : JobId) (name : String) (result : Bytes) (now : Time)

/-- Postgres refuses a statement that binds a text it cannot store. -/
def storable (texts : List String) (t : Tables) : Except DbError Tables :=
  if texts.any hasNul then .error .invalidText else .ok t

/-- A `LIMIT` must not be negative. -/
def limited (limit : Int) (t : Tables) : Except DbError Tables :=
  if limit < 0 then .error .negativeLimit else .ok t

def Stmt.effect : Stmt → Tables → Except DbError Tables
  | .enqueue new now, t => storable new.texts (t.enqueue new now)
  | .insertUnique new key now, t => storable new.texts (t.insertUnique new key now)
  | .insertWorkflow flow now, t => t.enqueueWorkflow flow now
  | .fireCron name next now, t => .ok (t.fireCron name next now)
  | .upsertCron entry, t => storable entry.texts (t.upsertCron entry)
  | .fetchUnkeyed a, t => limited a.limit (t.fetchUnkeyed a)
  | .fetchKeyed a, t => limited a.limit (t.fetchKeyed a)
  | .complete batch worker now, t => .ok (t.complete batch worker now)
  | .retryMany a, t => t.retryMany a
  | .discardMany batch worker now, t => t.discardMany batch worker now
  | .cancel ids now, t => .ok (t.cancel ids now)
  | .reclaim limit visit now, t => limited limit (t.reclaim limit visit now)
  | .renew ids worker lease now, t => .ok (t.renew ids worker lease now)
  | .abandon ids worker now, t => .ok (t.abandon ids worker now)
  | .retryDiscarded ids queue now, t => .ok (t.retryDiscarded ids queue now)
  | .purgeDiscarded queue, t => .ok (t.purgeDiscarded queue)
  | .prune a, t => limited a.limit (t.prune a)
  | .pruneWorkflows, t => .ok t.pruneWorkflows
  | .recordStep job name result now, t => t.recordStep job name result now

/-- Run one statement: its effect, if every constraint still holds. -/
def Db.run (db : Db) (s : Stmt) : Except DbError Db := s.effect db.toTables >>= commit

/-- The database after a statement; one that fails changes nothing. -/
def Db.exec (db : Db) (s : Stmt) : Db :=
  match db.run s with
  | .ok db' => db'
  | .error _ => db

/-- The database after a run from an empty one. -/
def Db.after (ss : List Stmt) : Db := Runs.run Db.exec Db.empty ss

theorem Db.run_ok {db db' : Db} {s : Stmt} (h : db.run s = .ok db') :
    s.effect db.toTables = .ok db'.toTables := by
  unfold Db.run at h
  cases ht : s.effect db.toTables with
  | error e => rw [ht] at h; cases h
  | ok t =>
    rw [ht] at h
    exact congrArg Except.ok (commit_ok h).symm

theorem Db.run_of_effect {db : Db} {s : Stmt} {t : Tables} (h : s.effect db.toTables = .ok t)
    (hv : ∀ c, t.Satisfies c) : db.run s = .ok ⟨t, hv⟩ := by
  unfold Db.run
  rw [h]
  exact commit_eq_ok hv

theorem Db.exec_of_run {db db' : Db} {s : Stmt} (h : db.run s = .ok db') : db.exec s = db' := by
  rw [Db.exec, h]

theorem Db.exec_of_error {db : Db} {s : Stmt} {e : DbError} (h : db.run s = .error e) : db.exec s = db := by
  rw [Db.exec, h]

/-- A statement either leaves the database alone or has its effect. -/
theorem Db.exec_cases (db : Db) (s : Stmt) :
    db.exec s = db ∨ s.effect db.toTables = .ok (db.exec s).toTables := by
  unfold Db.exec
  cases h : db.run s with
  | error e => exact .inl rfl
  | ok db' => exact .inr (Db.run_ok h)

end Gylo.Store
