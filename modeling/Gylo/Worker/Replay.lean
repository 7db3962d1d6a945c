import Gylo.Lib.Runs
import Gylo.Store.FetchCall
import Gylo.Wire.Protocol

/-! # Replaying the steps of a durable job

A durable task wraps its side effects in `step(name, work)`. A finished step is
recorded in `gylo_step`, and a later attempt of the job is handed the records in
a `Steps` frame just before its `Dispatch`, so that its `StepContext` starts out
knowing them. Any number of workers take part; each has one child. Frames of
one socket arrive in the order they were sent, and `Steps` and `Dispatch` of one
job stand next to each other in the stream, so the child meets both when the
supervisor writes them. -/
namespace Gylo.Worker.Replay

open Gylo.Store Gylo.Store.FetchCall Gylo.Wire

abbrev Steps := List (String × Bytes)

def names (steps : Steps) : List String := steps.map Prod.fst

/-- `gylo_step` has a record of the step. -/
def Durable (db : Db) (job : JobId) (name : String) : Prop :=
  ∃ r ∈ db.steps, r.jobId = job ∧ r.name = name

instance (db : Db) (job : JobId) (name : String) : Decidable (Durable db job name) :=
  inferInstanceAs (Decidable (∃ r ∈ db.steps, _))

/-! ## Supervisors, children and the database -/

/-- A job a worker has leased and not yet handed to its child. The code carries
neither `no`, which numbers the leases in the order they are granted, nor `held`,
what `gylo_step` held for the job at the lease. -/
structure Lease where
  no : Nat
  worker : Uuid
  job : LeasedJob
  held : Steps

/-- A `StepContext` and the coroutines inside its `step`: in `running` while
`work` is at it, in `pending` while the record is unacknowledged. -/
structure Context where
  no : Nat
  worker : Uuid
  jobId : JobId
  completed : Steps
  running : List String := []
  pending : Steps := []

/-- A `Record` frame its collector has not handled. `live` is lost with the
child that sent it. -/
structure Record where
  no : Nat
  worker : Uuid
  jobId : JobId
  name : String
  result : Bytes
  live : Bool := true

/-- A `Stored` frame on its way to the child. -/
structure Ack where
  worker : Uuid
  jobId : JobId
  name : String

/-- A `StepContext` as it was built, beside what its job's lease found. -/
structure Built where
  started : Steps
  held : Steps
deriving DecidableEq

/-- A call of `work`, and whether the step was already on record. -/
structure WorkCall where
  jobId : JobId
  name : String
  durable : Bool
deriving DecidableEq

/-- `replays` and `waiting` are the dictionaries of each worker's child. -/
structure System where
  db : Db
  issued : Nat := 0
  newest : JobId → Nat := fun _ => 0
  leased : List Lease := []
  replays : Uuid → JobId → Option Steps := fun _ _ => none
  contexts : List Context := []
  waiting : Uuid → JobId → String → Option (Nat × Bytes) := fun _ _ _ => none
  records : List Record := []
  acks : List Ack := []
  built : List Built := []
  calls : List WorkCall := []

def System.init : System := { db := Db.empty }

/-! ## Leasing -/

/-- One row of a fetch statement's result. -/
def grant (worker : Uuid) (s : System) (job : LeasedJob) : System :=
  { s with
    issued := s.issued + 1
    newest := fun id => if id = job.id then s.issued else s.newest id
    leased := s.leased ++ [⟨s.issued, worker, job, s.db.stepsFor job.id⟩] }

/-- The rows a statement leases, and for whom. -/
def leases (db : Db) : Stmt → Uuid × List Job
  | .fetchUnkeyed a => (a.worker, db.lockedUnkeyed a)
  | .fetchKeyed a => (a.worker, db.admitted a db.toTables)
  | _ => (0, [])

def execute (q : Stmt) (s : System) : System :=
  Runs.run (grant (leases s.db q).1) { s with db := s.db.exec q }
    (match s.db.run q with
      | .ok db' => returning db'.toTables (leases s.db q).2
      | .error _ => [])

/-! ## Dispatching -/

/-- What one round of the dispatch loop meets: whether `steps_for` and
`discard_many` fail, and whether the buffer is written although this job is not
in it, for the sake of the other jobs of the batch. -/
structure World where
  now : Time
  failSteps : Bool := false
  failDiscard : Bool := false
  written : Bool := false

/-- The content of the `Steps` frame, if one goes out. -/
def priorSteps (w : World) (job : LeasedJob) (db : Db) : Option Steps :=
  if job.durable = true ∧ 1 < job.attempt then
    if w.failSteps then none
    else if db.stepsFor job.id = [] then none
    else if Accepted (.steps job.id (db.stepsFor job.id)) then some (db.stepsFor job.id)
    else none
  else none

/-- The child on a `Steps` frame. -/
def onSteps (worker : Uuid) (id : JobId) (frame : Option Steps) (s : System) : System :=
  match frame with
  | some steps =>
    { s with replays := fun v i => if v = worker ∧ i = id then some steps else s.replays v i }
  | none => s

/-- The child on a `Dispatch` frame; `app` tells which tasks are registered as
durable. -/
def onDispatch (app : String → Bool) (l : Lease) (s : System) : System :=
  if app l.job.task then
    { s with
      replays := fun v i => if v = l.worker ∧ i = l.job.id then none else s.replays v i
      contexts := s.contexts ++
        [{ no := l.no, worker := l.worker, jobId := l.job.id,
           completed := (s.replays l.worker l.job.id).getD [] }]
      built := s.built ++ [⟨(s.replays l.worker l.job.id).getD [], l.held⟩] }
  else s

def dispatchFrame (job : LeasedJob) : Message :=
  .dispatch job.id job.attempt job.maxAttempts job.task job.payload

/-- The next job of a worker's batch. -/
def System.next? (s : System) (worker : Uuid) : Option Lease :=
  s.leased.find? fun l => l.worker = worker

def System.without (s : System) (l : Lease) : System :=
  { s with leased := s.leased.filter fun k => k.no ≠ l.no }

/-- One round of the loop in `dispatch`. -/
def dispatch (app : String → Bool) (worker : Uuid) (w : World) (s : System) : System :=
  match s.next? worker with
  | none => s
  | some l =>
    let frame := priorSteps w l.job s.db
    match (encode (dispatchFrame l.job) []).2 with
    | .ok () => onDispatch app l (onSteps l.worker l.job.id frame (s.without l))
    | .error e =>
      let s' := onSteps l.worker l.job.id (if w.written then frame else none) (s.without l)
      if w.failDiscard then s'
      else { s' with db := s'.db.exec (.discardMany [(l.job.id, e.text)] worker w.now) }

/-! ## Steps -/

def System.context? (s : System) (no : Nat) : Option Context :=
  s.contexts.find? fun c => c.no = no

def System.update (s : System) (no : Nat) (f : Context → Context) : List Context :=
  s.contexts.map fun c => if c.no = no then f c else c

/-- `step` up to the call of `work`. -/
def call (no : Nat) (name : String) (s : System) : System :=
  match s.context? no with
  | none => s
  | some c =>
    if name ∈ names c.completed then s
    else
      { s with
        contexts := s.update no fun c => { c with running := c.running ++ [name] }
        calls := s.calls ++ [⟨c.jobId, name, decide (Durable s.db c.jobId name)⟩] }

/-- The end of `work`, with the encoded result or an exception: the result goes
out in a `Record` frame, and the coroutine waits. -/
def finishWork (no : Nat) (name : String) (result : Option Bytes) (s : System) : System :=
  match s.context? no with
  | none => s
  | some c =>
    if name ∈ c.running then
      match result with
      | none => { s with contexts := s.update no fun c => { c with running := c.running.erase name } }
      | some encoded =>
        { s with
          contexts := s.update no fun c =>
            { c with running := c.running.erase name, pending := c.pending ++ [(name, encoded)] }
          records := s.records ++ [⟨no, c.worker, c.jobId, name, encoded, true⟩]
          waiting := fun v i n =>
            if v = c.worker ∧ i = c.jobId ∧ n = name then some (no, encoded)
            else s.waiting v i n }
    else s

/-- The next `Record` frame a worker's collector reads. -/
def System.record? (s : System) (worker : Uuid) : Option Record :=
  s.records.find? fun r => r.worker = worker

/-- The collector on a `Record` frame: recorded steps are acknowledged, and a
failure leaves the child waiting. -/
def collect (worker : Uuid) (fails : Bool) (now : Time) (s : System) : System :=
  match s.record? worker with
  | none => s
  | some r =>
    let s' := { s with records := s.records.eraseP fun r => r.worker = worker }
    if fails then s'
    else match s.db.run (.recordStep r.jobId r.name r.result now) with
      | .error _ => s'
      | .ok db' =>
        { s' with
          db := db'
          acks := if r.live then s.acks ++ [⟨worker, r.jobId, r.name⟩] else s.acks }

/-- `_completed[name] = encoded`, once the acknowledgement is there. -/
def Context.store (c : Context) (name : String) (encoded : Bytes) : Context :=
  { c with
    completed := (c.completed.filter fun v => v.1 ≠ name) ++ [(name, encoded)]
    pending := c.pending.erase (name, encoded) }

/-- The child on a `Stored` frame: `resolve` wakes whoever waits under the
job's id and the name, which is the last that began to. -/
def onStored (worker : Uuid) (s : System) : System :=
  match s.acks.find? fun a => a.worker = worker with
  | none => s
  | some a =>
    let s' := { s with acks := s.acks.eraseP fun a => a.worker = worker }
    match s.waiting worker a.jobId a.name with
    | none => s'
    | some (no, encoded) =>
      { s' with
        contexts := s.update no fun c => c.store a.name encoded
        waiting := fun v i n =>
          if v = worker ∧ i = a.jobId ∧ n = a.name then none else s.waiting v i n }

/-! ## Runs -/

/-- A worker's session is over and its child gone with everything it knew. -/
def restart (worker : Uuid) (s : System) : System :=
  { s with
    leased := s.leased.filter fun l => l.worker ≠ worker
    replays := fun v i => if v = worker then none else s.replays v i
    contexts := s.contexts.filter fun c => c.worker ≠ worker
    waiting := fun v i n => if v = worker then none else s.waiting v i n
    records := s.records.map fun r => if r.worker = worker then { r with live := false } else r
    acks := s.acks.filter fun a => a.worker ≠ worker }

inductive Event where
  | /-- any statement of any party, a deletion or a step record apart -/
    stmt (q : Stmt) (deletes : q.deletes = false := by rfl)
      (records : q.recordsStep = false := by rfl)
  | /-- a `fetch` that failed half way drops what it had leased -/
    drop (worker : Uuid)
  | dispatch (worker : Uuid) (w : World)
  | call (no : Nat) (name : String)
  | finishWork (no : Nat) (name : String) (result : Option Bytes)
  | collect (worker : Uuid) (fails : Bool) (now : Time)
  | stored (worker : Uuid)
  | /-- the task is over -/
    settle (no : Nat)
  | restart (worker : Uuid)

def step (app : String → Bool) (s : System) : Event → System
  | .stmt q _ _ => execute q s
  | .drop worker => { s with leased := s.leased.filter fun l => l.worker ≠ worker }
  | .dispatch worker w => dispatch app worker w s
  | .call no name => call no name s
  | .finishWork no name result => finishWork no name result s
  | .collect worker fails now => collect worker fails now s
  | .stored worker => onStored worker s
  | .settle no => { s with contexts := s.contexts.filter fun c => c.no ≠ no }
  | .restart worker => restart worker s

def after (app : String → Bool) (es : List Event) : System := Runs.run (step app) System.init es

/-! ## What a run may do -/

/-- A dispatch of the job leads to a `StepContext`. -/
def Starts (app : String → Bool) (task : String) (payload : Bytes) : Prop :=
  app task = true ∧ Accepted (.dispatch 0 0 0 task payload)

instance (app : String → Bool) (task : String) (payload : Bytes) :
    Decidable (Starts app task payload) := inferInstanceAs (Decidable (_ ∧ _))

/-- Only the newest lease of a job acts: it is dispatched, starts steps and has
them recorded. A job with recorded steps is dispatched after its first attempt,
with the steps loaded and fit for a frame, and no step is started over while its
own record is unacknowledged. -/
def Orderly (app : String → Bool) (s : System) : Event → Prop
  | .dispatch worker w => ∀ l ∈ s.next? worker, Starts app l.job.task l.job.payload →
      l.no = s.newest l.job.id ∧
      (s.db.stepsFor l.job.id ≠ [] → l.job.durable = true ∧ 1 < l.job.attempt ∧
        w.failSteps = false ∧ Accepted (.steps l.job.id (s.db.stepsFor l.job.id)))
  | .call no name => ∀ c ∈ s.context? no, c.no = s.newest c.jobId ∧ name ∉ names c.pending
  | .collect worker fails _ => fails = false →
      ∀ r ∈ s.record? worker, r.no = s.newest r.jobId
  | _ => True

instance (app : String → Bool) (s : System) : (e : Event) → Decidable (Orderly app s e)
  | .dispatch worker _ => inferInstanceAs (Decidable (∀ l ∈ s.next? worker, _))
  | .call no _ => inferInstanceAs (Decidable (∀ c ∈ s.context? no, _))
  | .collect _ fails _ => inferInstanceAs (Decidable (fails = false → _))
  | .stmt .. | .drop _ | .finishWork .. | .stored _ | .settle _ | .restart _ =>
    inferInstanceAs (Decidable True)

/-! ## The invariant -/

/-- The name has been through the context's `step`. -/
def Context.Covers (c : Context) (name : String) : Prop :=
  name ∈ names c.completed ∨ name ∈ names c.pending

structure Inv (app : String → Bool) (s : System) : Prop where
  leaseNo : ∀ l ∈ s.leased, l.no < s.issued
  contextNo : ∀ c ∈ s.contexts, c.no < s.issued
  recordNo : ∀ r ∈ s.records, r.no < s.issued
  contextApart : ∀ c ∈ s.contexts, ∀ l ∈ s.leased, c.no ≠ l.no
  recordApart : ∀ r ∈ s.records, ∀ l ∈ s.leased, r.no ≠ l.no
  row : ∀ l ∈ s.leased, ∃ j ∈ s.db.jobs,
    j.id = l.job.id ∧ j.task = l.job.task ∧ j.payload = l.job.payload
  -- what the newest lease found is what is there until its context records more
  held : ∀ l ∈ s.leased, l.no = s.newest l.job.id → s.db.stepsFor l.job.id = l.held
  -- the newest context knows every record, or waits to hear of it
  covered : ∀ c ∈ s.contexts, c.no = s.newest c.jobId →
    ∀ name, Durable s.db c.jobId name → c.Covers name
  sent : ∀ r ∈ s.records, ∀ c ∈ s.contexts, c.no = r.no → c.Covers r.name
  -- what a child holds back from a `Steps` frame no dispatch will ever use
  inert : ∀ v i, s.replays v i ≠ none →
    ∃ j ∈ s.db.jobs, j.id = i ∧ ¬ Starts app j.task j.payload
  built : ∀ b ∈ s.built, b.started = b.held
  calls : ∀ c ∈ s.calls, c.durable = false

theorem forall_mem_concat {α : Type} {p : α → Prop} {l : List α} {a : α} (h : ∀ x ∈ l, p x)
    (ha : p a) : ∀ x ∈ l ++ [a], p x :=
  List.forall_mem_append.mpr ⟨h, List.forall_mem_singleton.mpr ha⟩

section
variable {app : String → Bool} {s s' : System}

theorem inv_init : Inv app System.init := by
  constructor <;> simp [System.init]

/-! ### The database moves -/

theorem stepsFor_congr {t t' : Tables} (h : t'.steps = t.steps) (job : JobId) :
    t'.stepsFor job = t.stepsFor job := by
  unfold Tables.stepsFor
  rw [h]

theorem durable_iff {db : Db} {job : JobId} {name : String} :
    Durable db job name ↔ name ∈ names (db.stepsFor job) := by
  simp only [Durable, names, Tables.stepsFor, List.map_map, List.mem_map, List.mem_insertionSort,
    List.mem_filter, decide_eq_true_eq, Function.comp_apply, and_assoc]

theorem Inv.of_db (h : Inv app s) {db' : Db} (hsteps : db'.steps = s.db.steps)
    (hrows : ∀ j ∈ s.db.jobs, ∃ k ∈ db'.jobs, SameJob j k) : Inv app { s with db := db' } where
  leaseNo := h.leaseNo
  contextNo := h.contextNo
  recordNo := h.recordNo
  contextApart := h.contextApart
  recordApart := h.recordApart
  row := by
    intro l hl
    obtain ⟨j, hj, hid, htask, hpayload⟩ := h.row l hl
    obtain ⟨k, hk, same⟩ := hrows j hj
    exact ⟨k, hk, same.id.trans hid, same.task.trans htask, same.payload.trans hpayload⟩
  held := by
    intro l hl hnewest
    exact (stepsFor_congr hsteps _).trans (h.held l hl hnewest)
  covered := by
    intro c hc hnewest name hdurable
    unfold Durable at hdurable
    rw [hsteps] at hdurable
    exact h.covered c hc hnewest name hdurable
  sent := h.sent
  inert := by
    intro v i hsome
    obtain ⟨j, hj, hid, hnot⟩ := h.inert v i hsome
    obtain ⟨k, hk, same⟩ := hrows j hj
    exact ⟨k, hk, same.id.trans hid, by rwa [same.task, same.payload]⟩
  built := h.built
  calls := h.calls

theorem Inv.exec (h : Inv app s) {q : Stmt} (hdel : q.deletes = false)
    (hrec : q.recordsStep = false) : Inv app { s with db := s.db.exec q } :=
  h.of_db (s.db.exec_steps hdel hrec) (s.db.exec_keeps hdel)

/-- A step is recorded, or was on record before. -/
theorem run_recordStep {db db' : Db} {job : JobId} {name : String} {result : Bytes} {now : Time}
    (h : db.run (.recordStep job name result now) = .ok db') :
    (db'.toTables = db.toTables ∧ ∃ st ∈ db.steps, st.jobId = job ∧ st.name = name) ∨
      db'.toTables = { db.toTables with steps := db.steps ++ [⟨job, name, result, now⟩] } := by
  have heffect := Db.run_ok h
  simp only [Stmt.effect, Tables.recordStep] at heffect
  split at heffect
  · cases heffect
  · split at heffect
    · next hold => exact .inl ⟨(Except.ok.inj heffect).symm, hold⟩
    · exact .inr (Except.ok.inj heffect).symm

/-- A step recorded for the newest lease of its job. -/
theorem Inv.record (h : Inv app s) {r : Record} (hr : r ∈ s.records)
    (hnewest : r.no = s.newest r.jobId) {now : Time} {db' : Db}
    (hrun : s.db.run (.recordStep r.jobId r.name r.result now) = .ok db') :
    Inv app { s with db := db' } := by
  rcases run_recordStep hrun with ⟨ht, -⟩ | ht
  · exact h.of_db (congrArg Tables.steps ht) fun j hj =>
      ⟨j, (congrArg Tables.jobs ht).symm ▸ hj, .refl j⟩
  · have hjobs : db'.jobs = s.db.jobs := by rw [ht]
    have hsteps : db'.steps = s.db.steps ++ [⟨r.jobId, r.name, r.result, now⟩] := by rw [ht]
    refine { h with row := ?_, held := ?_, covered := ?_, inert := ?_ }
    · dsimp only
      rw [hjobs]
      exact h.row
    · -- the newest lease has a context already, so it is not waiting to be dispatched
      intro l hl hlease
      have hother : r.jobId ≠ l.job.id := fun hid =>
        h.recordApart r hr l hl (hnewest.trans ((congrArg s.newest hid).trans hlease.symm))
      refine Eq.trans ?_ (h.held l hl hlease)
      simp [Tables.stepsFor, hsteps, List.filter_append, hother]
    · intro c hc hcontext name hdurable
      obtain ⟨d, hd, hid, hname⟩ := hdurable
      rw [hsteps] at hd
      rcases List.mem_append.mp hd with hd | hd
      · exact h.covered c hc hcontext name ⟨d, hd, hid, hname⟩
      · cases List.mem_singleton.mp hd
        cases hname
        have hno : c.no = r.no := hcontext.trans ((congrArg s.newest hid.symm).trans hnewest.symm)
        exact h.sent r hr c hc hno
    · dsimp only
      rw [hjobs]
      exact h.inert

/-! ### Parts of the system go away -/

/-- Leases, contexts, frames and entries go; contexts learn. -/
structure Settles (s s' : System) : Prop where
  db : s'.db = s.db
  issued : s'.issued = s.issued
  newest : s'.newest = s.newest
  leased : ∀ l ∈ s'.leased, l ∈ s.leased
  contexts : ∀ c ∈ s'.contexts, ∃ c₀ ∈ s.contexts, c.no = c₀.no ∧ c.jobId = c₀.jobId ∧
    ∀ name, c₀.Covers name → c.Covers name
  records : ∀ r ∈ s'.records, ∃ r₀ ∈ s.records, r.no = r₀.no ∧ r.name = r₀.name
  replays : ∀ v i, s'.replays v i ≠ none → s.replays v i ≠ none
  built : s'.built = s.built
  calls : s'.calls = s.calls

theorem Settles.refl (s : System) : Settles s s :=
  ⟨rfl, rfl, rfl, fun _ h => h, fun c h => ⟨c, h, rfl, rfl, fun _ h => h⟩,
    fun r h => ⟨r, h, rfl, rfl⟩, fun _ _ h => h, rfl, rfl⟩

theorem contexts_same {cs : List Context} (hsub : ∀ c ∈ cs, c ∈ s.contexts) :
    ∀ c ∈ cs, ∃ c₀ ∈ s.contexts, c.no = c₀.no ∧ c.jobId = c₀.jobId ∧
      ∀ name, c₀.Covers name → c.Covers name :=
  fun c hc => ⟨c, hsub c hc, rfl, rfl, fun _ h => h⟩

theorem contexts_update (no : Nat) {f : Context → Context} (hno : ∀ c, (f c).no = c.no)
    (hid : ∀ c, (f c).jobId = c.jobId) (hcovers : ∀ c name, c.Covers name → (f c).Covers name) :
    ∀ c ∈ s.update no f, ∃ c₀ ∈ s.contexts, c.no = c₀.no ∧ c.jobId = c₀.jobId ∧
      ∀ name, c₀.Covers name → c.Covers name := by
  intro c hc
  obtain ⟨c₀, hc₀, rfl⟩ := List.mem_map.mp hc
  refine ⟨c₀, hc₀, ?_⟩
  split
  · exact ⟨hno c₀, hid c₀, hcovers c₀⟩
  · exact ⟨rfl, rfl, fun _ h => h⟩

theorem records_same {rs : List Record} (hsub : ∀ r ∈ rs, r ∈ s.records) :
    ∀ r ∈ rs, ∃ r₀ ∈ s.records, r.no = r₀.no ∧ r.name = r₀.name :=
  fun r hr => ⟨r, hsub r hr, rfl, rfl⟩

theorem Inv.of_settles (h : Inv app s) (hs : Settles s s') : Inv app s' where
  leaseNo l hl := hs.issued ▸ h.leaseNo l (hs.leased l hl)
  contextNo := by
    intro c hc
    obtain ⟨c₀, hc₀, hno, -, -⟩ := hs.contexts c hc
    rw [hno, hs.issued]
    exact h.contextNo c₀ hc₀
  recordNo := by
    intro r hr
    obtain ⟨r₀, hr₀, hno, -⟩ := hs.records r hr
    rw [hno, hs.issued]
    exact h.recordNo r₀ hr₀
  contextApart := by
    intro c hc l hl
    obtain ⟨c₀, hc₀, hno, -, -⟩ := hs.contexts c hc
    exact hno ▸ h.contextApart c₀ hc₀ l (hs.leased l hl)
  recordApart := by
    intro r hr l hl
    obtain ⟨r₀, hr₀, hno, -⟩ := hs.records r hr
    exact hno ▸ h.recordApart r₀ hr₀ l (hs.leased l hl)
  row l hl := hs.db ▸ h.row l (hs.leased l hl)
  held := by
    intro l hl hnewest
    rw [hs.newest] at hnewest
    rw [hs.db]
    exact h.held l (hs.leased l hl) hnewest
  covered := by
    intro c hc hnewest name hdurable
    obtain ⟨c₀, hc₀, hno, hid, hcovers⟩ := hs.contexts c hc
    rw [hno, hid, hs.newest] at hnewest
    rw [hs.db, hid] at hdurable
    exact hcovers name (h.covered c₀ hc₀ hnewest name hdurable)
  sent := by
    intro r hr c hc hsame
    obtain ⟨r₀, hr₀, hrno, hname⟩ := hs.records r hr
    obtain ⟨c₀, hc₀, hcno, -, hcovers⟩ := hs.contexts c hc
    rw [hname]
    exact hcovers _ (h.sent r₀ hr₀ c₀ hc₀ (hcno.symm.trans (hsame.trans hrno)))
  inert v i hsome := hs.db ▸ h.inert v i (hs.replays v i hsome)
  built := hs.built ▸ h.built
  calls := hs.calls ▸ h.calls

/-! ### Leases -/

theorem Inv.grant (h : Inv app s) (worker : Uuid) {job : LeasedJob}
    (hjob : ∃ j ∈ s.db.jobs, jobFrom j = job) : Inv app (Replay.grant worker s job) := by
  -- the numbers given out before are below the new one, so no older lease or
  -- context of this job is its newest any more
  have older : ∀ {no : Nat} {id : JobId}, no < s.issued →
      no = (if id = job.id then s.issued else s.newest id) → no = s.newest id := by
    intro no id hlt hno
    split at hno
    · exact absurd hno (Nat.ne_of_lt hlt)
    · exact hno
  obtain ⟨j, hj, hfrom⟩ := hjob
  exact
    { h with
      leaseNo := forall_mem_concat (fun l hl => Nat.lt_succ_of_lt (h.leaseNo l hl))
        (Nat.lt_succ_self _)
      contextNo := fun c hc => Nat.lt_succ_of_lt (h.contextNo c hc)
      recordNo := fun r hr => Nat.lt_succ_of_lt (h.recordNo r hr)
      contextApart := fun c hc =>
        forall_mem_concat (h.contextApart c hc) (Nat.ne_of_lt (h.contextNo c hc))
      recordApart := fun r hr =>
        forall_mem_concat (h.recordApart r hr) (Nat.ne_of_lt (h.recordNo r hr))
      row := forall_mem_concat h.row ⟨j, hj, by simp [← hfrom, jobFrom]⟩
      held := forall_mem_concat (fun l hl hnewest => h.held l hl (older (h.leaseNo l hl) hnewest))
        fun _ => rfl
      covered := fun c hc hnewest => h.covered c hc (older (h.contextNo c hc) hnewest) }

theorem mem_returning {db : Db} {chosen : List Job} {job : LeasedJob}
    (h : job ∈ returning db.toTables chosen) : ∃ j ∈ db.jobs, jobFrom j = job := by
  obtain ⟨j, hj, rfl⟩ := List.mem_map.mp h
  obtain ⟨k, -, hk⟩ := List.mem_filterMap.mp hj
  exact ⟨j, (db.job?_eq_some.mp hk).1, rfl⟩

theorem Inv.execute (h : Inv app s) {q : Stmt} (hdel : q.deletes = false)
    (hrec : q.recordsStep = false) : Inv app (Replay.execute q s) := by
  unfold Replay.execute
  -- the database does not move while the rows are taken over
  have keep : ∀ (t : System) (job : LeasedJob), (t.db = s.db.exec q ∧ Inv app t) →
      (∃ j ∈ (s.db.exec q).jobs, jobFrom j = job) →
      (Replay.grant (leases s.db q).1 t job).db = s.db.exec q ∧
        Inv app (Replay.grant (leases s.db q).1 t job) := by
    intro t job ht hjob
    exact ⟨ht.1, ht.2.grant _ (ht.1 ▸ hjob)⟩
  refine (Runs.Along.inv keep _ ⟨rfl, h.exec hdel hrec⟩ (Runs.along_of_forall _ _ ?_)).2
  intro job hjob
  unfold Db.exec
  cases hrun : s.db.run q with
  | error e => rw [hrun] at hjob; cases hjob
  | ok db' => rw [hrun] at hjob; exact mem_returning hjob

/-! ### Dispatch -/

theorem System.next?_mem {worker : Uuid} {l : Lease} (h : s.next? worker = some l) :
    l ∈ s.leased :=
  List.mem_of_find?_eq_some h

theorem settles_without (l : Lease) : Settles s (s.without l) :=
  { Settles.refl s with leased := fun _ hk => (List.mem_filter.mp hk).1 }

/-- A child holds nothing for a job that can start. -/
theorem Inv.replays_none (h : Inv app s) {l : Lease} (hl : l ∈ s.leased)
    (hstarts : Starts app l.job.task l.job.payload) (v : Uuid) : s.replays v l.job.id = none := by
  by_contra hsome
  obtain ⟨j, hj, hid, hnot⟩ := h.inert v l.job.id hsome
  obtain ⟨k, hk, hkid, htask, hpayload⟩ := h.row l hl
  cases s.db.eq_of_id hj hk (hid.trans hkid.symm)
  rw [htask, hpayload] at hnot
  exact hnot hstarts

/-- A `Steps` frame whose dispatch does not build a context. -/
theorem Inv.onSteps (h : Inv app s) {job : LeasedJob} (worker : Uuid)
    (hrow : ∃ j ∈ s.db.jobs, j.id = job.id ∧ j.task = job.task ∧ j.payload = job.payload)
    (hnot : ¬ Starts app job.task job.payload) (frame : Option Steps) :
    Inv app (Replay.onSteps worker job.id frame s) := by
  cases frame with
  | none => exact h
  | some steps =>
    refine { h with inert := ?_ }
    intro v i hsome
    by_cases hkey : v = worker ∧ i = job.id
    · obtain ⟨j, hj, hid, htask, hpayload⟩ := hrow
      exact ⟨j, hj, hid.trans hkey.2.symm, by rwa [htask, hpayload]⟩
    · simp only [Replay.onSteps, if_neg hkey] at hsome
      exact h.inert v i hsome

theorem priorSteps_getD {w : World} {job : LeasedJob} {db : Db}
    (h : db.stepsFor job.id ≠ [] → job.durable = true ∧ 1 < job.attempt ∧ w.failSteps = false ∧
      Accepted (.steps job.id (db.stepsFor job.id))) :
    (priorSteps w job db).getD [] = db.stepsFor job.id := by
  by_cases hnil : db.stepsFor job.id = []
  · simp [priorSteps, hnil]
  · obtain ⟨hdurable, hattempt, hload, haccepted⟩ := h hnil
    simp [priorSteps, hdurable, hattempt, hload, hnil, haccepted]

/-- The frames of a job that can start build a context that knows what was
loaded. -/
theorem onDispatch_onSteps {l : Lease} (happ : app l.job.task = true)
    (hnone : s.replays l.worker l.job.id = none) (frame : Option Steps) :
    onDispatch app l (onSteps l.worker l.job.id frame s) =
      { s with
        replays := fun v i => if v = l.worker ∧ i = l.job.id then none else s.replays v i
        contexts := s.contexts ++
          [{ no := l.no, worker := l.worker, jobId := l.job.id, completed := frame.getD [] }]
        built := s.built ++ [⟨frame.getD [], l.held⟩] } := by
  cases frame with
  | none => simp [onDispatch, onSteps, happ, hnone]
  | some steps =>
    simp only [onDispatch, onSteps, happ, if_true]
    congr 1
    funext v i
    split <;> rfl

/-- A context built from everything on record for the newest lease. -/
theorem Inv.build (h : Inv app s) {l : Lease} (hl : l ∈ s.leased)
    (hnewest : l.no = s.newest l.job.id) :
    Inv app { s.without l with
      replays := fun v i => if v = l.worker ∧ i = l.job.id then none else s.replays v i
      contexts := s.contexts ++ [{ no := l.no, worker := l.worker, jobId := l.job.id,
                                   completed := s.db.stepsFor l.job.id }]
      built := s.built ++ [⟨s.db.stepsFor l.job.id, l.held⟩] } := by
  have hrest := h.of_settles (settles_without l)
  refine
    { hrest with
      contextNo := forall_mem_concat h.contextNo (h.leaseNo l hl)
      contextApart := forall_mem_concat hrest.contextApart fun k hk =>
        Ne.symm (of_decide_eq_true (List.mem_filter.mp hk).2)
      covered := forall_mem_concat h.covered fun _ name hdurable =>
        .inl (durable_iff.mp hdurable)
      sent := fun r hr => forall_mem_concat (h.sent r hr) fun hsame =>
        absurd hsame.symm (h.recordApart r hr l hl)
      inert := ?_
      built := forall_mem_concat h.built (h.held l hl hnewest) }
  intro v i hsome
  refine h.inert v i fun hnone => hsome ?_
  dsimp only
  split
  · rfl
  · exact hnone

theorem Inv.dispatch (h : Inv app s) {worker : Uuid} {w : World}
    (hok : Orderly app s (.dispatch worker w)) : Inv app (Replay.dispatch app worker w s) := by
  unfold Replay.dispatch
  cases hnext : s.next? worker with
  | none => exact h
  | some l =>
    have hl := System.next?_mem hnext
    have hrest := h.of_settles (settles_without l)
    have hrow := h.row l hl
    dsimp only
    cases henc : (encode (dispatchFrame l.job) []).2 with
    | ok _ =>
      dsimp only
      have haccepted : Accepted (.dispatch 0 0 0 l.job.task l.job.payload) :=
        accepted_dispatch_iff.mp henc
      by_cases happ : app l.job.task = true
      · have hstarts : Starts app l.job.task l.job.payload := ⟨happ, haccepted⟩
        obtain ⟨hnewest, hsteps⟩ := hok l hnext hstarts
        have hnone : (s.without l).replays l.worker l.job.id = none :=
          h.replays_none hl hstarts l.worker
        rw [onDispatch_onSteps happ hnone, priorSteps_getD hsteps]
        exact h.build hl hnewest
      · simp only [onDispatch, if_neg happ]
        exact hrest.onSteps l.worker hrow (fun hstarts => happ hstarts.1) _
    | error e =>
      have hnot : ¬ Starts app l.job.task l.job.payload := by
        intro hstarts
        have hok : (encode (dispatchFrame l.job) []).2 = .ok () := accepted_dispatch_iff.mp hstarts.2
        rw [henc] at hok
        cases hok
      have hsent := hrest.onSteps l.worker hrow hnot
        (if w.written then priorSteps w l.job s.db else none)
      dsimp only
      split
      · exact hsent
      · exact hsent.exec rfl rfl

/-! ### Steps -/

theorem System.context?_mem {no : Nat} {c : Context} (h : s.context? no = some c) :
    c ∈ s.contexts ∧ c.no = no :=
  ⟨List.mem_of_find?_eq_some h, by simpa using List.find?_some h⟩

theorem settles_update (no : Nat) {f : Context → Context} (hno : ∀ c, (f c).no = c.no)
    (hid : ∀ c, (f c).jobId = c.jobId) (hcovers : ∀ c name, c.Covers name → (f c).Covers name) :
    Settles s { s with contexts := s.update no f } :=
  { Settles.refl s with contexts := contexts_update no hno hid hcovers }

theorem Inv.call (h : Inv app s) {no : Nat} {name : String}
    (hok : Orderly app s (.call no name)) : Inv app (Replay.call no name s) := by
  unfold Replay.call
  cases hfind : s.context? no with
  | none => exact h
  | some c =>
    obtain ⟨hc, -⟩ := System.context?_mem hfind
    obtain ⟨hnewest, hidle⟩ := hok c hfind
    dsimp only
    split
    · exact h
    · next hnew =>
      have hfresh : ¬ Durable s.db c.jobId name := fun hdurable =>
        (h.covered c hc hnewest name hdurable).elim hnew hidle
      have hupdate := h.of_settles (settles_update (s := s) no
        (f := fun c => { c with running := c.running ++ [name] }) (fun _ => rfl) (fun _ => rfl)
        fun _ _ hcovers => hcovers)
      exact { hupdate with calls := forall_mem_concat h.calls (decide_eq_false hfresh) }

theorem Inv.finishWork (h : Inv app s) (no : Nat) (name : String) (result : Option Bytes) :
    Inv app (Replay.finishWork no name result s) := by
  unfold Replay.finishWork
  cases hfind : s.context? no with
  | none => exact h
  | some c =>
    obtain ⟨hc, rfl⟩ := System.context?_mem hfind
    dsimp only
    split
    · cases result with
      | none =>
        exact h.of_settles (settles_update c.no (fun _ => rfl) (fun _ => rfl)
          fun _ _ hcovers => hcovers)
      | some encoded =>
        have hupdate := h.of_settles (settles_update (s := s) c.no
          (f := fun c => { c with running := c.running.erase name,
                                  pending := c.pending ++ [(name, encoded)] })
          (fun _ => rfl) (fun _ => rfl) fun c n hcovers =>
            hcovers.imp_right fun hn => by simp only [names, List.map_append, List.mem_append]; exact .inl hn)
        refine
          { hupdate with
            recordNo := forall_mem_concat h.recordNo (h.contextNo c hc)
            recordApart := forall_mem_concat h.recordApart (h.contextApart c hc)
            sent := forall_mem_concat hupdate.sent ?_ }
        -- every context under this number waits for the new record
        intro d hd hsame
        obtain ⟨d₀, -, rfl⟩ := List.mem_map.mp hd
        split at hsame
        · next hno => rw [if_pos hno]; exact .inr (by simp [names])
        · next hno => exact absurd hsame hno
    · exact h

theorem settles_collect (worker : Uuid) :
    Settles s { s with records := s.records.eraseP fun r => r.worker = worker } :=
  { Settles.refl s with records := records_same fun _ hr => List.mem_of_mem_eraseP hr }

theorem Inv.collect (h : Inv app s) {worker : Uuid} {fails : Bool} {now : Time}
    (hok : Orderly app s (.collect worker fails now)) :
    Inv app (Replay.collect worker fails now s) := by
  unfold Replay.collect
  cases hfind : s.record? worker with
  | none => exact h
  | some r =>
    have hr : r ∈ s.records := List.mem_of_find?_eq_some hfind
    dsimp only
    split
    · exact h.of_settles (settles_collect worker)
    · next hfails =>
      cases hrun : s.db.run (.recordStep r.jobId r.name r.result now) with
      | error e => exact h.of_settles (settles_collect worker)
      | ok db' =>
        have hnewest := hok (by simpa using hfails) r hfind
        have hrecord := (h.record hr hnewest hrun).of_settles (settles_collect worker)
        exact { hrecord with }

theorem Context.Covers.store {c : Context} {n : String} (h : c.Covers n) (name : String)
    (encoded : Bytes) : (c.store name encoded).Covers n := by
  by_cases hn : n = name
  · exact .inl (by simp [Context.store, names, hn])
  · rcases h with h | h
    · obtain ⟨v, hv, rfl⟩ := List.mem_map.mp h
      refine .inl (List.mem_map_of_mem ?_)
      exact List.mem_append_left _ (List.mem_filter.mpr ⟨hv, by simpa using hn⟩)
    · obtain ⟨v, hv, rfl⟩ := List.mem_map.mp h
      refine .inr (List.mem_map_of_mem ?_)
      exact (List.mem_erase_of_ne fun hv => hn (by rw [hv])).mpr hv

theorem Inv.onStored (h : Inv app s) (worker : Uuid) : Inv app (Replay.onStored worker s) := by
  unfold Replay.onStored
  split
  · exact h
  · next a _ =>
    dsimp only
    split
    · exact { h with }
    · next no encoded _ =>
      have hupdate := h.of_settles (settles_update (s := s) no
        (f := fun c => c.store a.name encoded) (fun _ => rfl) (fun _ => rfl)
        fun _ _ hcovers => hcovers.store a.name encoded)
      exact { hupdate with }

theorem settles_restart (worker : Uuid) : Settles s (restart worker s) := by
  refine
    { Settles.refl s with
      leased := fun _ hl => (List.mem_filter.mp hl).1
      contexts := contexts_same fun _ hc => (List.mem_filter.mp hc).1
      records := ?_
      replays := ?_ }
  · intro r hr
    obtain ⟨r₀, hr₀, rfl⟩ := List.mem_map.mp hr
    refine ⟨r₀, hr₀, ?_⟩
    split <;> exact ⟨rfl, rfl⟩
  · intro v i hsome hnone
    apply hsome
    simp only [restart]
    split
    · rfl
    · exact hnone

/-! ## The theorem -/

theorem inv_step (h : Inv app s) (e : Event) (hok : Orderly app s e) : Inv app (step app s e) := by
  cases e with
  | stmt q deletes records => exact h.execute deletes records
  | drop worker =>
    exact h.of_settles { Settles.refl s with leased := fun _ hl => (List.mem_filter.mp hl).1 }
  | dispatch worker w => exact h.dispatch hok
  | call no name => exact h.call hok
  | finishWork no name result => exact h.finishWork no name result
  | collect worker fails now => exact h.collect hok
  | stored worker => exact h.onStored worker
  | settle no =>
    exact h.of_settles
      { Settles.refl s with contexts := contexts_same fun _ hc => (List.mem_filter.mp hc).1 }
  | restart worker => exact h.of_settles (settles_restart worker)

theorem inv_run (es : List Event) (h : Runs.Along (step app) (Orderly app) System.init es) :
    Inv app (after app es) :=
  Runs.Along.inv (I := Inv app) (fun _ e hs hok => inv_step hs e hok) es inv_init h

end

/-- A job of a durable task that charges a card in its first attempt and fails
after that; `last` is the world at its next dispatch. -/
def charged (inserted settled : List Event) (last : World) : List Event :=
  inserted ++
  [.stmt (.fetchUnkeyed { queues := ["default"], limit := 1, worker := 7, lease := 30, now := 1 }),
    .dispatch 7 { now := 2 }, .call 0 "charge", .finishWork 0 "charge" (some [1]),
    .collect 7 false 3, .stored 7, .settle 0] ++ settled ++
  [.stmt (.fetchUnkeyed { queues := ["default"], limit := 1, worker := 7, lease := 30, now := 90 }),
    .dispatch 7 last, .call 1 "charge"]

def enqueued : List Event := [.stmt (.enqueue { task := "order", durable := true } 0)]

def retry : List Event := [.stmt (.retryMany ⟨[(1, "no receipt")], 7, 1, 60, fun _ => 0, 4⟩)]

/-- It is retried. -/
def retried : List Event := charged enqueued retry { now := 91 }

/-- It is retried, and the steps cannot be loaded. -/
def unloaded : List Event := charged enqueued retry { now := 91, failSteps := true }

/-- It fails for good, and an operator sends it back. -/
def sentBack : List Event :=
  charged enqueued [.stmt (.discardMany [(1, "no receipt")] 7 4), .stmt (.retryDiscarded none none 5)]
    { now := 91 }

/-- A schedule fires it, and it is retried. -/
def scheduled : List Event :=
  charged
    [.stmt (.upsertCron { name := "daily", queue := "default", task := "order", payload := [],
                          expression := "0 3 * * *", timezone := "UTC", nextRunAt := 0 }),
      .stmt (.fireCron "daily" 86400 0)]
    retry { now := 91 }

end Gylo.Worker.Replay
