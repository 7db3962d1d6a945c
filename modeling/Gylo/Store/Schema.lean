import Mathlib.Data.List.Nodup
import Mathlib.Order.WithBot

/-! # The tables the queue lives in

The columns of `gylo_job`, `gylo_edge`, `gylo_step` and `gylo_cron` that a
statement reads or writes, with the constraints the migrations put on them.
`created_at`, `updated_at` and `metadata` are written by defaults only and
left out. A `Db` is a set of tables that meets every constraint; `commit` is
the check Postgres makes before a statement's effect becomes visible. -/
namespace Gylo.Store

/-- `bigint` identities. -/
abbrev JobId := Int
abbrev Uuid := Nat
abbrev Bytes := List UInt8
/-- `timestamptz`, in microseconds. -/
abbrev Time := Int

-- `'infinity'` is above every timestamp; the order is named here so that it is
-- the computable one wherever the module is imported
instance (priority := high) : LE (WithTop Time) := @WithTop.instLE Time Int.instLEInt
instance (priority := high) : LT (WithTop Time) := @WithTop.instLT Time Int.instLTInt

inductive JobState where
  | available | running | completed | discarded | cancelled
deriving DecidableEq

/-- One entry of the `errors` array. -/
structure AttemptError where
  attempt : Int
  time : Time
  error : String
deriving DecidableEq

/-- A row of `gylo_job`. `scheduledAt = ⊤` is the timestamp `'infinity'`. -/
structure Job where
  id : JobId
  queue : String
  task : String
  state : JobState := .available
  priority : Int := 0
  payload : Bytes
  attempt : Int := 0
  maxAttempts : Int := 20
  errors : List AttemptError := []
  scheduledAt : WithTop Time
  startedAt : Option Time := none
  finalizedAt : Option Time := none
  lockedBy : Option Uuid := none
  leaseExpiresAt : Option Time := none
  uniqueKey : Option Bytes := none
  result : Option Bytes := none
  concurrencyKey : Option String := none
  maxConcurrency : Option Int := none
  durable : Bool := false
  workflowId : Option Int := none
  pendingDeps : Int := 0
deriving DecidableEq

/-- Waiting or running: what `gylo_job_unique` and retention count as live. -/
def Job.Live (j : Job) : Prop := j.state = .available ∨ j.state = .running

instance (j : Job) : Decidable j.Live := inferInstanceAs (Decidable (_ ∨ _))

/-- A row of `gylo_edge`: `child` waits for `parent`. -/
structure Edge where
  workflowId : Int
  parent : JobId
  child : JobId
deriving DecidableEq

/-- A row of `gylo_step`. -/
structure Step where
  jobId : JobId
  name : String
  result : Bytes
  createdAt : Time
deriving DecidableEq

/-- A row of `gylo_cron`. -/
structure Cron where
  name : String
  queue : String
  task : String
  payload : Bytes
  expression : String
  timezone : String
  paused : Bool := false
  nextRunAt : Time
  lastRunAt : Option Time := none
deriving DecidableEq

/-- The tables and the two identity sequences. -/
structure Tables where
  jobs : List Job := []
  edges : List Edge := []
  steps : List Step := []
  workflows : List Int := []
  crons : List Cron := []
  jobSeq : Int := 0
  workflowSeq : Int := 0
deriving DecidableEq

def Tables.ids (t : Tables) : List JobId := t.jobs.map Job.id

def Tables.job? (t : Tables) (id : JobId) : Option Job := t.jobs.find? fun j => j.id = id

/-- The constraints of the migrations, the ranges of the integer columns, and
what `GENERATED ALWAYS AS IDENTITY` gives: no id is ahead of its sequence. -/
inductive Constraint where
  | jobPkey | attemptBounds | leasePaired | concurrencyPaired | concurrencyPositive
  | pendingDepsPositive | smallintRange | intRange | jobUnique | jobWorkflowFkey
  | edgePkey | edgeFkey | stepPkey | stepFkey | cronPkey | identity
deriving DecidableEq

def Constraint.all : List Constraint :=
  [.jobPkey, .attemptBounds, .leasePaired, .concurrencyPaired, .concurrencyPositive,
    .pendingDepsPositive, .smallintRange, .intRange, .jobUnique, .jobWorkflowFkey,
    .edgePkey, .edgeFkey, .stepPkey, .stepFkey, .cronPkey, .identity]

theorem Constraint.mem_all (c : Constraint) : c ∈ Constraint.all := by
  cases c <;> decide

def InSmallint (n : Int) : Prop := -32768 ≤ n ∧ n ≤ 32767

def InInt (n : Int) : Prop := -2147483648 ≤ n ∧ n ≤ 2147483647

instance (n : Int) : Decidable (InSmallint n) := inferInstanceAs (Decidable (_ ∧ _))

instance (n : Int) : Decidable (InInt n) := inferInstanceAs (Decidable (_ ∧ _))

/-- The unique keys of live jobs, which the partial index keeps distinct. -/
def Tables.liveKeys (t : Tables) : List Bytes :=
  (t.jobs.filter fun j => j.Live).filterMap Job.uniqueKey

def Tables.Satisfies (t : Tables) : Constraint → Prop
  | .jobPkey => t.ids.Nodup
  | .attemptBounds => ∀ j ∈ t.jobs, j.attempt ≤ j.maxAttempts
  | .leasePaired => ∀ j ∈ t.jobs, j.lockedBy.isNone = j.leaseExpiresAt.isNone
  | .concurrencyPaired => ∀ j ∈ t.jobs, j.concurrencyKey.isNone = j.maxConcurrency.isNone
  | .concurrencyPositive => ∀ j ∈ t.jobs, ∀ m ∈ j.maxConcurrency, 0 < m
  | .pendingDepsPositive => ∀ j ∈ t.jobs, 0 ≤ j.pendingDeps
  | .smallintRange => ∀ j ∈ t.jobs,
      InSmallint j.priority ∧ InSmallint j.attempt ∧ InSmallint j.maxAttempts
  | .intRange => ∀ j ∈ t.jobs, InInt j.pendingDeps ∧ ∀ m ∈ j.maxConcurrency, InInt m
  | .jobUnique => t.liveKeys.Nodup
  | .jobWorkflowFkey => ∀ j ∈ t.jobs, ∀ w ∈ j.workflowId, w ∈ t.workflows
  | .edgePkey => (t.edges.map fun e => (e.parent, e.child)).Nodup
  | .edgeFkey => ∀ e ∈ t.edges, e.workflowId ∈ t.workflows ∧ e.parent ∈ t.ids ∧ e.child ∈ t.ids
  | .stepPkey => (t.steps.map fun s => (s.jobId, s.name)).Nodup
  | .stepFkey => ∀ s ∈ t.steps, s.jobId ∈ t.ids
  | .cronPkey => (t.crons.map Cron.name).Nodup
  | .identity => (∀ id ∈ t.ids, id ≤ t.jobSeq) ∧ ∀ w ∈ t.workflows, w ≤ t.workflowSeq

instance (t : Tables) : (c : Constraint) → Decidable (t.Satisfies c)
  | .jobPkey => inferInstanceAs (Decidable (List.Nodup _))
  | .attemptBounds => inferInstanceAs (Decidable (∀ j ∈ t.jobs, j.attempt ≤ j.maxAttempts))
  | .leasePaired =>
    inferInstanceAs (Decidable (∀ j ∈ t.jobs, j.lockedBy.isNone = j.leaseExpiresAt.isNone))
  | .concurrencyPaired =>
    inferInstanceAs (Decidable (∀ j ∈ t.jobs, j.concurrencyKey.isNone = j.maxConcurrency.isNone))
  | .concurrencyPositive =>
    inferInstanceAs (Decidable (∀ j ∈ t.jobs, ∀ m ∈ j.maxConcurrency, 0 < m))
  | .pendingDepsPositive => inferInstanceAs (Decidable (∀ j ∈ t.jobs, 0 ≤ j.pendingDeps))
  | .smallintRange => inferInstanceAs (Decidable (∀ j ∈ t.jobs,
      InSmallint j.priority ∧ InSmallint j.attempt ∧ InSmallint j.maxAttempts))
  | .intRange => inferInstanceAs (Decidable (∀ j ∈ t.jobs,
      InInt j.pendingDeps ∧ ∀ m ∈ j.maxConcurrency, InInt m))
  | .jobUnique => inferInstanceAs (Decidable (List.Nodup _))
  | .jobWorkflowFkey =>
    inferInstanceAs (Decidable (∀ j ∈ t.jobs, ∀ w ∈ j.workflowId, w ∈ t.workflows))
  | .edgePkey => inferInstanceAs (Decidable (List.Nodup _))
  | .edgeFkey => inferInstanceAs (Decidable (∀ e ∈ t.edges,
      e.workflowId ∈ t.workflows ∧ e.parent ∈ t.ids ∧ e.child ∈ t.ids))
  | .stepPkey => inferInstanceAs (Decidable (List.Nodup _))
  | .stepFkey => inferInstanceAs (Decidable (∀ s ∈ t.steps, s.jobId ∈ t.ids))
  | .cronPkey => inferInstanceAs (Decidable (List.Nodup _))
  | .identity => inferInstanceAs
      (Decidable ((∀ id ∈ t.ids, id ≤ t.jobSeq) ∧ ∀ w ∈ t.workflows, w ≤ t.workflowSeq))

/-- Tables that meet every constraint. -/
structure Db extends Tables where
  valid : ∀ c, toTables.Satisfies c

/-- Why a call comes back with an error: a constraint, a text Postgres refuses
(it holds U+0000), `power` out of range, a negative `LIMIT`, or an index the
client looks up in vain. -/
inductive DbError where
  | violates (c : Constraint)
  | invalidText
  | outOfRange
  | negativeLimit
  | indexError
deriving DecidableEq

/-- A statement's effect is visible only if no constraint is violated; the
first one that is aborts the statement. -/
def commit (t : Tables) : Except DbError Db :=
  if h : ∀ c ∈ Constraint.all, t.Satisfies c then
    .ok { toTables := t, valid := fun c => h c c.mem_all }
  else .error (.violates ((Constraint.all.find? fun c => ¬ t.Satisfies c).getD .jobPkey))

theorem commit_ok {t : Tables} {db : Db} (h : commit t = .ok db) : db.toTables = t := by
  unfold commit at h
  split at h
  · cases h; rfl
  · cases h

theorem commit_eq_ok {t : Tables} (h : ∀ c, t.Satisfies c) : commit t = .ok ⟨t, h⟩ :=
  dif_pos fun c _ => h c

theorem commit_isOk_iff {t : Tables} : (∃ db, commit t = .ok db) ↔ ∀ c, t.Satisfies c := by
  constructor
  · intro h
    obtain ⟨db, hdb⟩ := h
    exact commit_ok hdb ▸ db.valid
  · exact fun h => ⟨_, commit_eq_ok h⟩

/-- The database after an attempt to commit `t`. -/
def Db.attempt (db : Db) (t : Tables) : Db :=
  match commit t with
  | .ok db' => db'
  | .error _ => db

theorem Db.attempt_cases (db : Db) (t : Tables) :
    db.attempt t = db ∨ (db.attempt t).toTables = t := by
  unfold Db.attempt
  cases h : commit t with
  | error e => exact .inl rfl
  | ok db' => exact .inr (commit_ok h)

def Db.empty : Db where
  toTables := {}
  valid := fun c => by cases c <;> decide

theorem Db.not_mem_empty (j : Job) : j ∉ Db.empty.jobs := List.not_mem_nil

section
variable (db : Db)

theorem Db.ids_nodup : (db.jobs.map Job.id).Nodup := db.valid .jobPkey

/-- The primary key, used as a row identity. -/
theorem Db.eq_of_id {j k : Job} (hj : j ∈ db.jobs) (hk : k ∈ db.jobs) (h : j.id = k.id) :
    j = k := List.inj_on_of_nodup_map db.ids_nodup hj hk h

theorem Db.job?_eq_some {id : JobId} {j : Job} :
    db.job? id = some j ↔ j ∈ db.jobs ∧ j.id = id := by
  constructor
  · intro h
    exact ⟨List.mem_of_find?_eq_some h, by simpa using List.find?_some h⟩
  · rintro ⟨hj, rfl⟩
    cases h : db.job? j.id with
    | none =>
      have := List.find?_eq_none.mp h j hj
      simp at this
    | some k =>
      have hk := List.find?_some h
      rw [db.eq_of_id (List.mem_of_find?_eq_some h) hj (by simpa using hk)]
end

end Gylo.Store
