import Gylo.Store.Reports
import Gylo.Worker.Flush

/-! # Jobs that share a flush

Up to a batch of outcomes goes to Postgres in four statements, so that one job's
error text or attempt count is an operand of the statement that settles the
others. What a flush makes of one job is computed here from the database and the
batch alone; two batches that carry the same outcome of a job treat it alike
exactly if these computations agree. -/
namespace Gylo.Worker.Isolation

open Gylo.Store Gylo.Wire Gylo.Worker

/-! ## Batches -/

/-- The batch after these outcomes have come in, in order. -/
def gather (es : List (JobId × Outcome)) : Pending := es.foldl (fun p e => p.push e.1 e.2) {}

/-- The outcomes name the job once, with outcome `o`. -/
def Carries (es : List (JobId × Outcome)) (id : JobId) (o : Outcome) : Prop :=
  es.filter (fun e => e.1 = id) = [(id, o)]

instance (es : List (JobId × Outcome)) (id : JobId) (o : Outcome) : Decidable (Carries es id o) :=
  inferInstanceAs (Decidable (_ = _))

def asCompleted : Outcome → Option Unit
  | .success result => if result.isEmpty then some () else none
  | .failure .. => none

def asResult : Outcome → Option Bytes
  | .success result => if result.isEmpty then none else some result
  | .failure .. => none

def asRetry : Outcome → Option String
  | .failure error true => some error
  | _ => none

def asTerminal : Outcome → Option String
  | .failure error false => some error
  | _ => none

section
variable {β : Type}

/-- The entries that go into one of the four vectors. -/
def sorted (g : Outcome → Option β) (es : List (JobId × Outcome)) : List (JobId × β) :=
  es.filterMap fun e => (g e.2).map fun b => (e.1, b)

theorem sorted_cons (g : Outcome → Option β) (e : JobId × Outcome) (es : List (JobId × Outcome)) :
    sorted g (e :: es) = ((g e.2).map fun b => (e.1, b)).toList ++ sorted g es := by
  unfold sorted
  cases hg : g e.2 <;> simp [hg]

theorem lookup_sorted_cons_ne (g : Outcome → Option β) {id : JobId} {e : JobId × Outcome}
    (hne : ¬ e.1 = id) (es : List (JobId × Outcome)) :
    (sorted g (e :: es)).lookup id = (sorted g es).lookup id := by
  rw [sorted_cons]
  cases g e.2 with
  | none => rfl
  | some b =>
    show List.lookup id ((e.1, b) :: sorted g es) = _
    rw [List.lookup_cons, beq_false_of_ne (Ne.symm hne)]

theorem lookup_sorted_none (g : Outcome → Option β) {id : JobId} :
    ∀ {es : List (JobId × Outcome)}, es.filter (fun e => e.1 = id) = [] →
      (sorted g es).lookup id = none
  | [], _ => rfl
  | e :: es, h => by
    have hne : ¬ e.1 = id := fun heq => by simp [heq] at h
    rw [lookup_sorted_cons_ne g hne]
    exact lookup_sorted_none g (by simpa [hne] using h)

/-- A job named once is found in the vector its outcome goes into, and in no
other. -/
theorem lookup_sorted (g : Outcome → Option β) {id : JobId} {o : Outcome} :
    ∀ {es : List (JobId × Outcome)}, Carries es id o → (sorted g es).lookup id = g o
  | [], h => by cases h
  | e :: es, h => by
    unfold Carries at h
    by_cases heq : e.1 = id
    · rw [List.filter_cons_of_pos (by simpa using heq)] at h
      obtain ⟨rfl, hrest⟩ := List.cons.inj h
      rw [sorted_cons]
      cases hg : g o with
      | none => exact lookup_sorted_none g hrest
      | some b => exact List.lookup_cons_self
    · rw [List.filter_cons_of_neg (by simpa using heq)] at h
      rw [lookup_sorted_cons_ne g heq]
      exact lookup_sorted g h

theorem lookup_map {γ : Type} (f : β → γ) (id : JobId) :
    ∀ l : List (JobId × β), (l.map fun v => (v.1, f v.2)).lookup id = (l.lookup id).map f
  | [] => rfl
  | (i, b) :: l => by
    rw [List.map_cons, List.lookup_cons, List.lookup_cons, lookup_map f id l]
    cases id == i <;> rfl
end

theorem foldl_push (es : List (JobId × Outcome)) (p : Pending) :
    es.foldl (fun p e => p.push e.1 e.2) p =
      { completed := p.completed ++ (sorted asCompleted es).map Prod.fst
        withResult := p.withResult ++ sorted asResult es
        retry := p.retry ++ sorted asRetry es
        terminal := p.terminal ++ sorted asTerminal es } := by
  induction es generalizing p with
  | nil => simp [sorted]
  | cons e es ih =>
    obtain ⟨id, o⟩ := e
    simp only [List.foldl_cons, ih, sorted_cons]
    cases o with
    | success result =>
      cases hr : result.isEmpty <;>
        simp only [Pending.push, asCompleted, asResult, asRetry, asTerminal, hr] <;> simp
    | failure error retry =>
      cases retry <;> simp [Pending.push, asCompleted, asResult, asRetry, asTerminal]

theorem gather_eq (es : List (JobId × Outcome)) : gather es =
    { completed := (sorted asCompleted es).map Prod.fst, withResult := sorted asResult es,
      retry := sorted asRetry es, terminal := sorted asTerminal es } :=
  foldl_push es {}

/-! ## The books of a flush -/

/-- What the calls so far have done: the jobs they settled, and how many pending
parents they counted off each row. -/
structure Account where
  settled : List JobId := []
  paid : JobId → Nat := fun _ => 0

section
variable (db : Tables) (worker : Uuid) (base : Nat)

/-- What a call that lists `ids` settles: the rows still held. -/
def Account.takes (a : Account) (ids : List JobId) : List JobId :=
  (db.jobs.filter fun j => (j.HeldBy worker ∧ j.id ∉ a.settled) ∧ j.id ∈ ids).map Job.id

/-- A completion would count more parents off some row than are pending. -/
def Account.Overdraws (a : Account) (ids : List JobId) : Prop :=
  ∃ j ∈ db.jobs, j.id ∉ a.takes db worker ids ∧
    j.pendingDeps < a.paid j.id + db.counted (a.takes db worker ids) j.id

/-- A retry carries U+0000, or a row so old that the backoff from this base overflows. -/
def Account.Chokes (a : Account) (batch : List (JobId × String)) : Prop :=
  HasNul batch ∨ ∃ j ∈ db.jobs, j.id ∈ a.takes db worker (batch.map Prod.fst) ∧
    j.attempt < j.maxAttempts ∧ Unbounded base j.attempt

instance (a : Account) (ids : List JobId) : Decidable (a.Overdraws db worker ids) :=
  inferInstanceAs (Decidable (∃ j ∈ db.jobs, _))

instance (a : Account) (batch : List (JobId × String)) : Decidable (a.Chokes db worker base batch) :=
  inferInstanceAs (Decidable (_ ∨ _))

def Account.complete (a : Account) (ids : List JobId) : Account :=
  if a.Overdraws db worker ids then a
  else
    { settled := a.settled ++ a.takes db worker ids
      paid := fun id => if id ∈ a.takes db worker ids then a.paid id
        else a.paid id + db.counted (a.takes db worker ids) id }

def Account.retry (a : Account) (batch : List (JobId × String)) : Account :=
  if a.Chokes db worker base batch then a
  else { a with settled := a.settled ++ a.takes db worker (batch.map Prod.fst) }

variable (p : Pending)

/-- The books when the call with results is made, then the retries, then the
discards. -/
def beforeResults : Account := Account.complete db worker {} p.completed

def beforeRetry : Account := (beforeResults db worker p).complete db worker (p.withResult.map Prod.fst)

def beforeTerminal : Account := (beforeRetry db worker p).retry db worker base p.retry

/-- The statement that carries the outcome is refused. -/
def Refused : Outcome → Prop
  | .success result =>
    if result.isEmpty then Account.Overdraws db worker {} p.completed
    else (beforeResults db worker p).Overdraws db worker (p.withResult.map Prod.fst)
  | .failure _ true => (beforeRetry db worker p).Chokes db worker base p.retry
  | .failure _ false => HasNul p.terminal

/-- The job goes back to the queue, and is cancelled there with the descendants of
a job that the same batch discards. -/
def Swept (j : Job) : Outcome → Prop
  | .failure _ true => ¬ (beforeRetry db worker p).Chokes db worker base p.retry ∧
      j.attempt < j.maxAttempts ∧ ¬ HasNul p.terminal ∧
      j.id ∈ db.walk ((beforeTerminal db worker base p).takes db worker (p.terminal.map Prod.fst))
  | _ => False

instance : (o : Outcome) → Decidable (Refused db worker base p o)
  | .success _ => inferInstanceAs (Decidable (ite _ _ _))
  | .failure _ true => inferInstanceAs (Decidable (Account.Chokes ..))
  | .failure _ false => inferInstanceAs (Decidable (HasNul p.terminal))

instance (j : Job) : (o : Outcome) → Decidable (Swept db worker base p j o)
  | .success _ => isFalse id
  | .failure _ true => inferInstanceAs (Decidable (¬ _ ∧ _))
  | .failure _ false => isFalse id
end

/-! ## The columns of an outcome -/

/-- The columns of a row that say how its attempt ended, without the timestamps. -/
structure Columns where
  state : JobState
  errors : List (Int × String)
  result : Option Bytes
  lockedBy : Option Uuid
  leaseExpiresAt : Option Time
deriving DecidableEq

def columns (j : Job) : Columns where
  state := j.state
  errors := j.errors.map fun e => (e.attempt, e.error)
  result := j.result
  lockedBy := j.lockedBy
  leaseExpiresAt := j.leaseExpiresAt

/-- The lease is given up, and the attempt has ended in `state`. -/
def Columns.settle (c : Columns) (state : JobState) : Columns :=
  { c with state := state, lockedBy := none, leaseExpiresAt := none }

def Columns.blame (c : Columns) (attempt : Int) (error : String) : Columns :=
  { c with errors := c.errors ++ [(attempt, error)] }

section
variable {t : Tables} {worker : Uuid} {now : Time} {j : Job}

theorem columns_completeRow_some {batch : List (JobId × Option Bytes)} {result : Option Bytes}
    (h : batchEntry batch worker j = some result) :
    columns (t.completeRow batch worker now j) =
      { (columns j).settle .completed with result := result } := by
  rw [Tables.completeRow, h]
  rfl

theorem columns_completeRow_none {batch : List (JobId × Option Bytes)}
    (h : batchEntry batch worker j = none) : columns (t.completeRow batch worker now j) = columns j := by
  rw [Tables.completeRow, h]
  dsimp only
  split <;> rfl

theorem columns_retryRow_some {a : Retry} {error : String}
    (h : batchEntry a.batch a.worker j = some error) :
    columns (retryRow a j) =
      ((columns j).settle (if j.attempt < j.maxAttempts then .available else .discarded)).blame
        j.attempt error := by
  rw [retryRow, h]
  dsimp only
  split <;> simp [columns, Columns.settle, Columns.blame, Job.reschedule, Job.discard]

theorem columns_retryRow_none {a : Retry} (h : batchEntry a.batch a.worker j = none) :
    columns (retryRow a j) = columns j := by
  rw [retryRow, h]

theorem columns_discardRow_some {batch : List (JobId × String)} {error : String}
    (h : batchEntry batch worker j = some error) :
    columns (t.discardRow batch worker now j) =
      ((columns j).settle .discarded).blame j.attempt error := by
  rw [Tables.discardRow, h]
  simp [columns, Columns.settle, Columns.blame, Job.discard]

theorem columns_discardRow_none {batch : List (JobId × String)}
    (h : batchEntry batch worker j = none) :
    columns (t.discardRow batch worker now j) =
      if j.id ∈ t.walk (t.settledBy batch worker) ∧ (columns j).state = .available then
        { columns j with state := .cancelled }
      else columns j := by
  rw [Tables.discardRow, h]
  by_cases hswept : j.id ∈ t.walk (t.settledBy batch worker) ∧ j.state = .available
  · rw [if_pos (show _ ∧ (columns j).state = .available from hswept)]
    simp only [if_pos hswept]
    rfl
  · rw [if_neg (show ¬ (_ ∧ (columns j).state = .available) from hswept)]
    simp only [if_neg hswept]
end

/-! ## The books agree with the database -/

/-- A row `k` in the course of the flush, and the row `j` it was. -/
structure Row (worker : Uuid) (a : Account) (j k : Job) : Prop where
  id : k.id = j.id
  attempt : k.attempt = j.attempt
  maxAttempts : k.maxAttempts = j.maxAttempts
  held : k.HeldBy worker ↔ j.HeldBy worker ∧ j.id ∉ a.settled
  pending : k.pendingDeps = j.pendingDeps - a.paid j.id

structure Tracks (db : Db) (worker : Uuid) (a : Account) (f : Job → Job) (db' : Db) : Prop where
  edges : db'.edges = db.edges
  jobs : db'.jobs = db.jobs.map f
  rows : ∀ j ∈ db.jobs, Row worker a j (f j)

theorem tracks_refl (db : Db) (worker : Uuid) : Tracks db worker {} id db where
  edges := rfl
  jobs := (List.map_id _).symm
  rows := fun j _ => ⟨rfl, rfl, rfl, by simp, by simp⟩

theorem batchEntry_isSome {β : Type} {batch : List (JobId × β)} {worker : Uuid} {j : Job} :
    (batchEntry batch worker j).isSome ↔ j.HeldBy worker ∧ j.id ∈ batch.map Prod.fst := by
  cases h : batchEntry batch worker j with
  | none => exact ⟨nofun, fun hin => absurd hin.2 (not_listed_of_batchEntry h hin.1)⟩
  | some b => exact ⟨fun _ => ⟨heldBy_of_batchEntry h, listed_of_batchEntry h⟩, fun _ => rfl⟩

theorem mem_takes {db : Db} {worker : Uuid} {a : Account} {ids : List JobId} {j : Job}
    (hj : j ∈ db.jobs) : j.id ∈ a.takes db.toTables worker ids ↔
      (j.HeldBy worker ∧ j.id ∉ a.settled) ∧ j.id ∈ ids := by
  refine ⟨fun h => ?_, fun h => List.mem_map_of_mem (List.mem_filter.mpr ⟨hj, by simpa using h⟩)⟩
  obtain ⟨k, hk, hid⟩ := List.mem_map.mp h
  obtain ⟨hk, htaken⟩ := List.mem_filter.mp hk
  rw [← db.eq_of_id hk hj hid]
  simpa using htaken

section
variable {db db' : Db} {worker : Uuid} {a : Account} {f : Job → Job} (h : Tracks db worker a f db')
include h

theorem Tracks.batchEntry_isSome {β : Type} (batch : List (JobId × β)) {j : Job} (hj : j ∈ db.jobs) :
    (batchEntry batch worker (f j)).isSome ↔ j.id ∈ a.takes db.toTables worker (batch.map Prod.fst) := by
  rw [Isolation.batchEntry_isSome, mem_takes hj, (h.rows j hj).held, (h.rows j hj).id]

theorem Tracks.settledBy_eq {β : Type} (batch : List (JobId × β)) :
    db'.settledBy batch worker = a.takes db.toTables worker (batch.map Prod.fst) := by
  unfold Tables.settledBy Account.takes
  rw [h.jobs, List.filter_map, List.map_map]
  have hfilter : db.jobs.filter ((fun j => (batchEntry batch worker j).isSome) ∘ f) =
      db.jobs.filter fun j => (j.HeldBy worker ∧ j.id ∉ a.settled) ∧ j.id ∈ batch.map Prod.fst := by
    refine List.filter_congr fun j hj => ?_
    rw [Function.comp_apply, Bool.eq_iff_iff, h.batchEntry_isSome batch hj, mem_takes hj,
      decide_eq_true_iff]
  rw [hfilter]
  exact List.map_congr_left fun j hj => (h.rows j (List.mem_of_mem_filter hj)).id

theorem Tracks.counted_eq (done : List JobId) (id : JobId) : db'.counted done id = db.counted done id := by
  rw [Tables.counted, Tables.counted, h.edges]

theorem Tracks.walk_eq (dead : List JobId) : db'.walk dead = db.walk dead := by
  rw [Tables.walk, Tables.walk, h.edges]

theorem Tracks.mem {j : Job} (hj : j ∈ db.jobs) : f j ∈ db'.jobs := by
  rw [h.jobs]
  exact List.mem_map_of_mem hj

theorem Tracks.forall_rows {P : Job → Prop} : (∀ k ∈ db'.jobs, P k) ↔ ∀ j ∈ db.jobs, P (f j) := by
  rw [h.jobs]
  exact List.forall_mem_map
end

/-! ## One call after the other -/

theorem exec_of_refused {db : Db} {s : Stmt} (h : ¬ ∃ db', db.run s = .ok db') : db.exec s = db := by
  unfold Db.exec
  split
  · next db' hrun => exact absurd ⟨db', hrun⟩ h
  · rfl

section
variable {db db' : Db} {worker : Uuid} {a : Account} {f : Job → Job} (h : Tracks db worker a f db')
include h

theorem Tracks.overdraws_iff (batch : List (JobId × Option Bytes)) (now : Time) :
    (∃ db'', db'.run (.complete batch worker now) = .ok db'') ↔
      ¬ a.Overdraws db.toTables worker (batch.map Prod.fst) := by
  rw [Db.run_complete_iff, h.settledBy_eq, h.forall_rows]
  simp only [Account.Overdraws, not_exists, not_and, not_lt]
  refine forall₂_congr fun j hj => ?_
  rw [(h.rows j hj).id, (h.rows j hj).pending, h.counted_eq]
  refine imp_congr_right fun _ => ?_
  omega

/-- A completion brings the database to where the books say it does. -/
theorem Tracks.complete (batch : List (JobId × Option Bytes)) (now : Time) :
    ∃ f', Tracks db worker (a.complete db.toTables worker (batch.map Prod.fst)) f'
        (db'.exec (.complete batch worker now)) ∧
      ∀ j ∈ db.jobs, f' j = if a.Overdraws db.toTables worker (batch.map Prod.fst) then f j
        else db'.completeRow batch worker now (f j) := by
  by_cases hover : a.Overdraws db.toTables worker (batch.map Prod.fst)
  · rw [exec_of_refused (mt (h.overdraws_iff batch now).mp (not_not_intro hover)), Account.complete,
      if_pos hover]
    exact ⟨f, h, fun j _ => (if_pos hover).symm⟩
  · obtain ⟨db'', hrun⟩ := (h.overdraws_iff batch now).mpr hover
    have htables : db'.complete batch worker now = db''.toTables := Except.ok.inj (Db.run_ok hrun)
    rw [Db.exec_of_run hrun, Account.complete, if_neg hover]
    refine ⟨fun j => db'.completeRow batch worker now (f j), ⟨?_, ?_, fun j hj => ?_⟩,
      fun j _ => (if_neg hover).symm⟩
    · rw [← htables]; exact h.edges
    · rw [← htables]
      show db'.jobs.map _ = _
      rw [h.jobs, List.map_map]
      rfl
    · have hrow := h.rows j hj
      have hstep := completeRow_step batch worker now db'.toTables (f j)
      refine ⟨hstep.same.id.trans hrow.id, hstep.attempt.trans hrow.attempt,
        hstep.same.maxAttempts.trans hrow.maxAttempts, ?_, ?_⟩
      · rw [heldBy_completeRow, hrow.held, hrow.id, List.mem_append, mem_takes hj]
        tauto
      · rw [pendingDeps_completeRow, h.settledBy_eq, h.counted_eq, hrow.id, hrow.pending]
        simp only [h.batchEntry_isSome batch hj]
        split
        · rfl
        · push_cast
          omega

theorem Tracks.chokes_iff (r : Retry) (hr : r.worker = worker) :
    (∃ db'', db'.run (.retryMany r) = .ok db'') ↔ ¬ a.Chokes db.toTables worker r.base r.batch := by
  have hover : Overflows db'.toTables r ↔ ∃ j ∈ db.jobs,
      j.id ∈ a.takes db.toTables worker (r.batch.map Prod.fst) ∧ j.attempt < j.maxAttempts ∧
        Unbounded r.base j.attempt := by
    rw [Overflows, h.jobs, hr]
    constructor
    · intro hex
      obtain ⟨k, hk, hsome, hleft, hold⟩ := hex
      obtain ⟨j, hj, rfl⟩ := List.mem_map.mp hk
      rw [(h.rows j hj).attempt] at hleft hold
      rw [(h.rows j hj).maxAttempts] at hleft
      exact ⟨j, hj, (h.batchEntry_isSome r.batch hj).mp hsome, hleft, hold⟩
    · intro hex
      obtain ⟨j, hj, htaken, hleft, hold⟩ := hex
      refine ⟨f j, List.mem_map_of_mem hj, (h.batchEntry_isSome r.batch hj).mpr htaken, ?_, ?_⟩
      · rw [(h.rows j hj).attempt, (h.rows j hj).maxAttempts]; exact hleft
      · rw [(h.rows j hj).attempt]; exact hold
  rw [Db.run_retryMany_iff, hover, Account.Chokes, not_or]

theorem Tracks.retry (r : Retry) (hr : r.worker = worker) :
    ∃ f', Tracks db worker (a.retry db.toTables worker r.base r.batch) f' (db'.exec (.retryMany r)) ∧
      ∀ j ∈ db.jobs, f' j = if a.Chokes db.toTables worker r.base r.batch then f j else retryRow r (f j) := by
  by_cases hchokes : a.Chokes db.toTables worker r.base r.batch
  · rw [exec_of_refused (mt (h.chokes_iff r hr).mp (not_not_intro hchokes)), Account.retry,
      if_pos hchokes]
    exact ⟨f, h, fun j _ => (if_pos hchokes).symm⟩
  · obtain ⟨db'', hrun⟩ := (h.chokes_iff r hr).mpr hchokes
    have htables := Stmt.effect_eq_mapJobs rfl (Db.run_ok hrun)
    rw [Db.exec_of_run hrun, Account.retry, if_neg hchokes]
    refine ⟨fun j => retryRow r (f j), ⟨?_, ?_, fun j hj => ?_⟩, fun j _ => (if_neg hchokes).symm⟩
    · rw [htables]; exact h.edges
    · rw [htables]
      show db'.jobs.map _ = _
      rw [h.jobs, List.map_map]
      rfl
    · have hrow := h.rows j hj
      have hstep := retryRow_step (P := fun _ => False) r (f j)
      refine ⟨hstep.same.id.trans hrow.id, (attempt_retryRow r (f j)).trans hrow.attempt,
        hstep.same.maxAttempts.trans hrow.maxAttempts, ?_, hstep.pendingDeps.trans hrow.pending⟩
      have hheld := heldBy_retryRow (a := r) (j := f j)
      rw [hr] at hheld
      rw [hheld, hrow.held, hrow.id, List.mem_append, mem_takes hj]
      tauto

/-- The last call; nothing is read after it but the rows themselves. -/
theorem Tracks.discard (batch : List (JobId × String)) (now : Time) :
    ∃ f', (db'.exec (.discardMany batch worker now)).jobs = db.jobs.map f' ∧
      ∀ j ∈ db.jobs, f' j = if HasNul batch then f j else db'.discardRow batch worker now (f j) := by
  by_cases hnul : HasNul batch
  · rw [exec_of_refused (mt (db'.run_discardMany_iff batch worker now).mp (not_not_intro hnul))]
    exact ⟨f, h.jobs, fun j _ => (if_pos hnul).symm⟩
  · obtain ⟨db'', hrun⟩ := (db'.run_discardMany_iff batch worker now).mpr hnul
    rw [Db.exec_of_run hrun, Stmt.effect_eq_mapJobs rfl (Db.run_ok hrun)]
    refine ⟨fun j => db'.discardRow batch worker now (f j), ?_, fun j _ => (if_neg hnul).symm⟩
    show db'.jobs.map _ = _
    rw [h.jobs, List.map_map]
    rfl
end

/-! ## A call with nothing to say -/

theorem exec_of_fixed {db : Db} {s : Stmt} (h : s.effect db.toTables = .ok db.toTables) :
    db.exec s = db := Db.exec_of_run (Db.run_of_effect h db.valid)

theorem mapJobs_fixed {t : Tables} {g : Job → Job} (h : ∀ j, g j = j) : t.mapJobs g = t := by
  rw [Tables.mapJobs, show g = id from funext h, List.map_id]

theorem batchEntry_nil {β : Type} (worker : Uuid) (j : Job) :
    batchEntry ([] : List (JobId × β)) worker j = none := by
  unfold batchEntry
  split <;> rfl

theorem settledBy_nil {β : Type} (t : Tables) (worker : Uuid) :
    t.settledBy ([] : List (JobId × β)) worker = [] := by
  simp [Tables.settledBy, batchEntry_nil]

/-- Leaving a call out when its vector is empty makes no difference. -/
theorem issue_eq_exec {db : Db} {s : Stmt} {worker : Uuid} (hs : s.reporter = some worker) :
    issue false s db = db.exec s := by
  unfold issue
  split
  · next hskip =>
    have hnil : s.reported = [] := by simpa using hskip
    refine (exec_of_fixed ?_).symm
    cases s with
    | complete batch w now =>
      cases List.map_eq_nil_iff.mp hnil
      refine congrArg Except.ok (mapJobs_fixed fun j => ?_)
      rw [Tables.completeRow, batchEntry_nil, settledBy_nil]
      simp [Tables.counted]
    | retryMany a =>
      obtain ⟨batch, w, base, cap, random, now⟩ := a
      cases List.map_eq_nil_iff.mp hnil
      simp only [Stmt.effect, Tables.retryMany, batchEntry_nil]
      rw [mapJobs_fixed fun j => by rw [retryRow, batchEntry_nil]]
      simp
    | discardMany batch w now =>
      cases List.map_eq_nil_iff.mp hnil
      refine congrArg Except.ok (mapJobs_fixed fun j => ?_)
      rw [Tables.discardRow, batchEntry_nil, settledBy_nil]
      refine if_neg fun hwalk => ?_
      obtain ⟨dead, hdead, -⟩ := Reach.mem_walk.mp hwalk.1
      cases hdead
    | _ => cases hs
  · rfl

/-! ## What a flush makes of one job -/

/-- The columns once the outcome is recorded. -/
def recorded (j : Job) : Outcome → Columns
  | .success result =>
    { (columns j).settle .completed with result := if result.isEmpty then none else some result }
  | .failure error true =>
    ((columns j).settle (if j.attempt < j.maxAttempts then .available else .discarded)).blame
      j.attempt error
  | .failure error false => ((columns j).settle .discarded).blame j.attempt error

/-- The columns after a flush of the batch. -/
def ended (db : Tables) (worker : Uuid) (base : Nat) (p : Pending) (j : Job) (o : Outcome) : Columns :=
  if Refused db worker base p o then columns j
  else if Swept db worker base p j o then { recorded j o with state := .cancelled }
  else recorded j o

section
variable {db : Tables} {worker : Uuid} {base : Nat} {p : Pending} {j : Job} {o : Outcome}

theorem ended_refused (h : Refused db worker base p o) : ended db worker base p j o = columns j := if_pos h

theorem ended_swept (h : ¬ Refused db worker base p o) (hs : Swept db worker base p j o) :
    ended db worker base p j o = { recorded j o with state := .cancelled } := by
  rw [ended, if_neg h, if_pos hs]

theorem ended_recorded (h : ¬ Refused db worker base p o) (hs : ¬ Swept db worker base p j o) :
    ended db worker base p j o = recorded j o := by
  rw [ended, if_neg h, if_neg hs]
end

section
variable {es : List (JobId × Outcome)} {id : JobId} {o : Outcome} (h : Carries es id o)
include h

theorem lookup_completed :
    ((gather es).completed.map fun i => (i, (none : Option Bytes))).lookup id =
      (asCompleted o).map fun _ => none := by
  rw [gather_eq, List.map_map, ← lookup_sorted asCompleted h]
  exact lookup_map (fun _ => none) id _

theorem lookup_results :
    ((gather es).withResult.map fun v => (v.1, some v.2)).lookup id = (asResult o).map some := by
  rw [gather_eq, ← lookup_sorted asResult h]
  exact lookup_map some id _

theorem lookup_retry : (gather es).retry.lookup id = asRetry o := by
  rw [gather_eq]
  exact lookup_sorted asRetry h

theorem lookup_terminal : (gather es).terminal.lookup id = asTerminal o := by
  rw [gather_eq]
  exact lookup_sorted asTerminal h
end

theorem batchEntry_of_lookup {β : Type} {batch : List (JobId × β)} {worker : Uuid} {j k : Job}
    (hid : k.id = j.id) (hcols : columns k = columns j) (hheld : j.HeldBy worker) :
    batchEntry batch worker k = batch.lookup j.id := by
  have hk : k.HeldBy worker := by
    refine ⟨?_, ?_⟩
    · rw [show k.lockedBy = j.lockedBy from congrArg Columns.lockedBy hcols]; exact hheld.1
    · rw [show k.state = j.state from congrArg Columns.state hcols]; exact hheld.2
  rw [batchEntry, if_pos hk, hid]

theorem batchEntry_of_lookup_none {β : Type} {batch : List (JobId × β)} (worker : Uuid) {k : Job}
    (h : batch.lookup k.id = none) : batchEntry batch worker k = none := by
  unfold batchEntry
  split
  · exact h
  · rfl

theorem flush_eq (p : Pending) (config : Config) (worker : Uuid) (w : World) (f : InFlight) (db : Db) :
    (flush p config worker w f db).1 = afterTerminal p config worker w db := by
  unfold flush
  split
  · next hnil =>
    simp only [Pending.settled, List.append_eq_nil_iff, List.map_eq_nil_iff] at hnil
    obtain ⟨⟨⟨hc, hr⟩, hretry⟩, hterminal⟩ := hnil
    simp [afterTerminal, afterRetry, afterWithResult, afterCompleted, issue, completeMany,
      completeManyWithResults, retryMany, discardMany, Stmt.reported, hc, hr, hretry, hterminal]
  · rfl

/-- Every call reaches Postgres and is answered. -/
def Connected (w : World) : Prop :=
  w.failCompleted = false ∧ w.failWithResult = false ∧ w.failRetry = false ∧ w.failTerminal = false

instance (w : World) : Decidable (Connected w) := inferInstanceAs (Decidable (_ ∧ _))

/-- The row of one job through the four calls. -/
structure Course (db : Db) (worker : Uuid) (base : Nat) (p : Pending) (j : Job) (k₁ k₂ k₃ k₄ : Job) : Prop where
  completed : ∃ t now, k₁ = if Account.Overdraws db.toTables worker {} p.completed then j
    else Tables.completeRow (p.completed.map fun i => (i, none)) worker now t j
  results : ∃ t now, k₂ =
    if (beforeResults db.toTables worker p).Overdraws db.toTables worker (p.withResult.map Prod.fst)
      then k₁
    else Tables.completeRow (p.withResult.map fun v => (v.1, some v.2)) worker now t k₁
  retry : ∃ r : Retry, r.batch = p.retry ∧ r.worker = worker ∧ k₃ =
    if (beforeRetry db.toTables worker p).Chokes db.toTables worker base p.retry then k₂ else retryRow r k₂
  terminal : ∃ (t : Tables) (now : Time), t.walk (t.settledBy p.terminal worker) =
      db.walk ((beforeTerminal db.toTables worker base p).takes db.toTables worker (p.terminal.map Prod.fst)) ∧
    k₄ = if HasNul p.terminal then k₃ else t.discardRow p.terminal worker now k₃
  ids : k₁.id = j.id ∧ k₂.id = j.id ∧ k₃.id = j.id ∧ k₄.id = j.id
  attempts : k₂.attempt = j.attempt ∧ k₃.attempt = j.attempt ∧ k₂.maxAttempts = j.maxAttempts

theorem flush_course {w : World} (hw : Connected w) (p : Pending) (config : Config) (worker : Uuid)
    (f : InFlight) {db : Db} {j : Job} (hj : j ∈ db.jobs) :
    ∃ k₁ k₂ k₃ k₄, Course db worker config.retryBase p j k₁ k₂ k₃ k₄ ∧
      (flush p config worker w f db).1.job? j.id = some k₄ := by
  have hcompleted : (p.completed.map fun i => (i, (none : Option Bytes))).map Prod.fst = p.completed := by
    simp [Function.comp_def]
  have hresults : (p.withResult.map fun v => (v.1, some v.2)).map Prod.fst = p.withResult.map Prod.fst := by
    simp [Function.comp_def]
  obtain ⟨f₁, h₁, hf₁⟩ := (tracks_refl db worker).complete (p.completed.map fun i => (i, none)) w.nowCompleted
  rw [hcompleted] at h₁ hf₁
  obtain ⟨f₂, h₂, hf₂⟩ := h₁.complete (p.withResult.map fun v => (v.1, some v.2)) w.nowWithResult
  rw [hresults] at h₂ hf₂
  obtain ⟨f₃, h₃, hf₃⟩ :=
    h₂.retry ⟨p.retry, worker, config.retryBase, config.retryCap, w.random, w.nowRetry⟩ rfl
  obtain ⟨f₄, hjobs, hf₄⟩ := h₃.discard p.terminal w.nowTerminal
  have hid₃ := (h₃.rows j hj).id
  have hid₄ : (f₄ j).id = j.id := by
    rw [hf₄ j hj]
    split
    · exact hid₃
    · exact (discardRow_step (P := fun _ => False) p.terminal worker w.nowTerminal _ (f₃ j)).same.id.trans hid₃
  have hflush : (flush p config worker w f db).1.jobs = db.jobs.map f₄ := by
    rw [flush_eq, afterTerminal, afterRetry, afterWithResult, afterCompleted, hw.1, hw.2.1, hw.2.2.1,
      hw.2.2.2, issue_eq_exec rfl, issue_eq_exec rfl, issue_eq_exec rfl, issue_eq_exec rfl]
    exact hjobs
  refine ⟨f₁ j, f₂ j, f₃ j, f₄ j, ⟨⟨_, _, hf₁ j hj⟩, ⟨_, _, hf₂ j hj⟩, ⟨_, rfl, rfl, hf₃ j hj⟩,
    ⟨_, _, ?_, hf₄ j hj⟩, ⟨(h₁.rows j hj).id, (h₂.rows j hj).id, hid₃, hid₄⟩,
    ⟨(h₂.rows j hj).attempt, (h₃.rows j hj).attempt, (h₂.rows j hj).maxAttempts⟩⟩, ?_⟩
  · rw [h₃.walk_eq, h₃.settledBy_eq]
    rfl
  · rw [Db.job?_eq_some, hflush]
    exact ⟨List.mem_map_of_mem hj, hid₄⟩

section
variable {db : Db} {worker : Uuid} {base : Nat} {es : List (JobId × Outcome)} {j k₁ k₂ k₃ k₄ : Job} {o : Outcome}

theorem Course.completed_other (h : Course db worker base (gather es) j k₁ k₂ k₃ k₄)
    (hes : Carries es j.id o) (ho : asCompleted o = none) : columns k₁ = columns j := by
  obtain ⟨t, now, hk⟩ := h.completed
  rw [hk]
  split
  · rfl
  · refine columns_completeRow_none (batchEntry_of_lookup_none worker ?_)
    rw [lookup_completed hes, ho]
    rfl

theorem Course.results_other (h : Course db worker base (gather es) j k₁ k₂ k₃ k₄)
    (hes : Carries es j.id o) (ho : asResult o = none) : columns k₂ = columns k₁ := by
  obtain ⟨t, now, hk⟩ := h.results
  rw [hk]
  split
  · rfl
  · refine columns_completeRow_none (batchEntry_of_lookup_none worker ?_)
    rw [h.ids.1, lookup_results hes, ho]
    rfl

theorem Course.retry_other (h : Course db worker base (gather es) j k₁ k₂ k₃ k₄)
    (hes : Carries es j.id o) (ho : asRetry o = none) : columns k₃ = columns k₂ := by
  obtain ⟨r, hbatch, hworker, hk⟩ := h.retry
  rw [hk]
  split
  · rfl
  · refine columns_retryRow_none (batchEntry_of_lookup_none _ ?_)
    rw [hbatch, h.ids.2.1, lookup_retry hes, ho]

theorem Course.terminal_other (h : Course db worker base (gather es) j k₁ k₂ k₃ k₄)
    (hes : Carries es j.id o) (ho : asTerminal o = none) :
    columns k₄ = if ¬ HasNul (gather es).terminal ∧
        j.id ∈ db.walk ((beforeTerminal db.toTables worker base (gather es)).takes db.toTables worker
          ((gather es).terminal.map Prod.fst)) ∧ (columns k₃).state = .available then
      { columns k₃ with state := .cancelled } else columns k₃ := by
  obtain ⟨t, now, hwalk, hk⟩ := h.terminal
  have hnone : batchEntry (gather es).terminal worker k₃ = none := by
    refine batchEntry_of_lookup_none worker ?_
    rw [h.ids.2.2.1, lookup_terminal hes, ho]
  rw [hk]
  by_cases hnul : HasNul (gather es).terminal
  · rw [if_pos hnul, if_neg fun hbad => hbad.1 hnul]
  · rw [if_neg hnul, columns_discardRow_none hnone, h.ids.2.2.1, hwalk]
    refine if_congr ?_ rfl rfl
    rw [and_iff_right hnul]

/-- A row that is not waiting stays out of the cascade. -/
theorem Course.terminal_kept (h : Course db worker base (gather es) j k₁ k₂ k₃ k₄)
    (hes : Carries es j.id o) (ho : asTerminal o = none) (hstate : (columns k₃).state ≠ .available) :
    columns k₄ = columns k₃ := by
  rw [h.terminal_other hes ho, if_neg fun hbad => hstate hbad.2.2]

/-- A completion without a result, by the first call. -/
theorem Course.completed_own (h : Course db worker base (gather es) j k₁ k₂ k₃ k₄) {result : Bytes}
    (hes : Carries es j.id (.success result)) (hheld : j.HeldBy worker) (hempty : result.isEmpty = true) :
    columns k₁ = ended db.toTables worker base (gather es) j (.success result) := by
  have hrefused : Refused db.toTables worker base (gather es) (.success result) =
      Account.Overdraws db.toTables worker {} (gather es).completed := if_pos hempty
  obtain ⟨t, now, hk⟩ := h.completed
  by_cases hover : Account.Overdraws db.toTables worker {} (gather es).completed
  · rw [ended_refused (hrefused ▸ hover), hk, if_pos hover]
  · have hlookup := lookup_completed hes
    rw [show asCompleted (.success result) = some () from if_pos hempty] at hlookup
    rw [ended_recorded (hrefused ▸ hover) id, hk, if_neg hover,
      columns_completeRow_some ((batchEntry_of_lookup rfl rfl hheld).trans hlookup), recorded, if_pos hempty]

/-- A completion with a result, by the second. -/
theorem Course.results_own (h : Course db worker base (gather es) j k₁ k₂ k₃ k₄) {result : Bytes}
    (hes : Carries es j.id (.success result)) (hheld : j.HeldBy worker) (hfull : ¬ result.isEmpty = true) :
    columns k₂ = ended db.toTables worker base (gather es) j (.success result) := by
  have hrefused : Refused db.toTables worker base (gather es) (.success result) =
      (beforeResults db.toTables worker (gather es)).Overdraws db.toTables worker
        ((gather es).withResult.map Prod.fst) := if_neg hfull
  have hfirst := h.completed_other hes (if_neg hfull)
  obtain ⟨t, now, hk⟩ := h.results
  by_cases hover : (beforeResults db.toTables worker (gather es)).Overdraws db.toTables worker
      ((gather es).withResult.map Prod.fst)
  · rw [ended_refused (hrefused ▸ hover), hk, if_pos hover, hfirst]
  · have hlookup := lookup_results hes
    rw [show asResult (.success result) = some result from if_neg hfull] at hlookup
    rw [ended_recorded (hrefused ▸ hover) id, hk, if_neg hover,
      columns_completeRow_some ((batchEntry_of_lookup h.ids.1 hfirst hheld).trans hlookup), hfirst,
      recorded, if_neg hfull]

/-- A retryable failure, by the third call and the cascade of the fourth. -/
theorem Course.retry_own (h : Course db worker base (gather es) j k₁ k₂ k₃ k₄) {error : String}
    (hes : Carries es j.id (.failure error true)) (hheld : j.HeldBy worker) :
    columns k₄ = ended db.toTables worker base (gather es) j (.failure error true) := by
  have hsecond := (h.results_other hes rfl).trans (h.completed_other hes rfl)
  obtain ⟨r, hbatch, hworker, hk⟩ := h.retry
  have hrefused : Refused db.toTables worker base (gather es) (.failure error true) ↔
    (beforeRetry db.toTables worker (gather es)).Chokes db.toTables worker base (gather es).retry := Iff.rfl
  by_cases hchokes : (beforeRetry db.toTables worker (gather es)).Chokes db.toTables worker base (gather es).retry
  · rw [if_pos hchokes] at hk
    rw [ended_refused (hrefused.mpr hchokes), h.terminal_kept hes rfl, hk, hsecond]
    rw [hk, hsecond, show (columns j).state = .running from hheld.2]
    decide
  · have hentry : batchEntry r.batch r.worker k₂ = some error :=
      (batchEntry_of_lookup h.ids.2.1 hsecond (hworker ▸ hheld)).trans (hbatch ▸ lookup_retry hes)
    have hthird : columns k₃ = recorded j (.failure error true) := by
      rw [hk, if_neg hchokes, columns_retryRow_some hentry, h.attempts.1, h.attempts.2.2, hsecond]
      rfl
    have hstate : (recorded j (.failure error true)).state = .available ↔ j.attempt < j.maxAttempts := by
      simp only [recorded, Columns.blame, Columns.settle]
      split <;> simp_all
    rw [h.terminal_other hes rfl, hthird]
    split
    · next hswept =>
      refine (ended_swept (mt hrefused.mp hchokes) ?_).symm
      exact ⟨hchokes, hstate.mp hswept.2.2, hswept.1, hswept.2.1⟩
    · next hkept =>
      refine (ended_recorded (mt hrefused.mp hchokes) fun hswept => hkept ?_).symm
      exact ⟨hswept.2.2.1, hswept.2.2.2, hstate.mpr hswept.2.1⟩

/-- A final failure, by the fourth. -/
theorem Course.terminal_own (h : Course db worker base (gather es) j k₁ k₂ k₃ k₄) {error : String}
    (hes : Carries es j.id (.failure error false)) (hheld : j.HeldBy worker) :
    columns k₄ = ended db.toTables worker base (gather es) j (.failure error false) := by
  have hthird := (h.retry_other hes rfl).trans
    ((h.results_other hes rfl).trans (h.completed_other hes rfl))
  obtain ⟨t, now, -, hk⟩ := h.terminal
  have hrefused : Refused db.toTables worker base (gather es) (.failure error false) ↔
    HasNul (gather es).terminal := Iff.rfl
  by_cases hnul : HasNul (gather es).terminal
  · rw [ended_refused (hrefused.mpr hnul), hk, if_pos hnul, hthird]
  · have hentry : batchEntry (gather es).terminal worker k₃ = some error :=
      (batchEntry_of_lookup h.ids.2.2.1 hthird hheld).trans (lookup_terminal hes)
    rw [ended_recorded (mt hrefused.mp hnul) id, hk, if_neg hnul, columns_discardRow_some hentry, h.attempts.2.1,
      hthird]
    rfl

theorem recorded_state (j : Job) (o : Outcome) :
    (recorded j o).state ≠ .running ∧ (recorded j o).state ≠ .cancelled := by
  cases o with
  | success result => exact ⟨JobState.noConfusion, JobState.noConfusion⟩
  | failure error retry =>
    cases retry with
    | false => exact ⟨JobState.noConfusion, JobState.noConfusion⟩
    | true =>
      simp only [recorded, Columns.blame, Columns.settle]
      split <;> exact ⟨JobState.noConfusion, JobState.noConfusion⟩

theorem ended_success_state {db : Tables} {p : Pending} {result : Bytes} (hheld : j.HeldBy worker) :
    (ended db worker base p j (.success result)).state ≠ .available := by
  by_cases hrefused : Refused db worker base p (.success result)
  · rw [ended_refused hrefused, show (columns j).state = .running from hheld.2]
    decide
  · rw [ended_recorded hrefused id]
    exact JobState.noConfusion

theorem refused_of_swept {db : Tables} {p : Pending} (h : Swept db worker base p j o) :
    ¬ Refused db worker base p o := by
  cases o with
  | success result => exact h.elim
  | failure error retry =>
    cases retry with
    | false => exact h.elim
    | true => exact h.1

/-- Only a refused outcome leaves the row running. -/
theorem ended_running {db : Tables} {p : Pending} (hheld : j.HeldBy worker) :
    (ended db worker base p j o).state = .running ↔ Refused db worker base p o := by
  by_cases hrefused : Refused db worker base p o
  · rw [ended_refused hrefused]
    exact ⟨fun _ => hrefused, fun _ => hheld.2⟩
  · refine ⟨fun h => ?_, fun h => absurd h hrefused⟩
    by_cases hswept : Swept db worker base p j o
    · rw [ended_swept hrefused hswept] at h; cases h
    · rw [ended_recorded hrefused hswept] at h
      exact absurd h (recorded_state j o).1

/-- Only the cascade leaves it cancelled. -/
theorem ended_cancelled {db : Tables} {p : Pending} (hheld : j.HeldBy worker) :
    (ended db worker base p j o).state = .cancelled ↔ Swept db worker base p j o := by
  by_cases hswept : Swept db worker base p j o
  · rw [ended_swept (refused_of_swept hswept) hswept]
    exact ⟨fun _ => hswept, fun _ => rfl⟩
  · refine ⟨fun h => ?_, fun h => absurd h hswept⟩
    by_cases hrefused : Refused db worker base p o
    · rw [ended_refused hrefused, show (columns j).state = .running from hheld.2] at h; cases h
    · rw [ended_recorded hrefused hswept] at h
      exact absurd h (recorded_state j o).2

/-- The row ends as the books say, whichever of the four calls carries it. -/
theorem Course.columns_eq (h : Course db worker base (gather es) j k₁ k₂ k₃ k₄)
    (hes : Carries es j.id o) (hheld : j.HeldBy worker) :
    columns k₄ = ended db.toTables worker base (gather es) j o := by
  cases o with
  | success result =>
    have hthird : columns k₃ = ended db.toTables worker base (gather es) j (.success result) := by
      rw [h.retry_other hes rfl]
      by_cases hempty : result.isEmpty = true
      · rw [h.results_other hes (if_pos hempty)]
        exact h.completed_own hes hheld hempty
      · exact h.results_own hes hheld hempty
    rw [h.terminal_kept hes rfl (hthird ▸ ended_success_state hheld), hthird]
  | failure error retry =>
    cases retry with
    | true => exact h.retry_own hes hheld
    | false => exact h.terminal_own hes hheld
end

theorem flush_columns {db : Db} {worker : Uuid} {j : Job} (hj : j ∈ db.jobs) (hheld : j.HeldBy worker)
    {o : Outcome} {es : List (JobId × Outcome)} (hes : Carries es j.id o) {w : World}
    (hw : Connected w) (config : Config) (f : InFlight) :
    ((flush (gather es) config worker w f db).1.job? j.id).map columns =
      some (ended db.toTables worker config.retryBase (gather es) j o) := by
  obtain ⟨k₁, k₂, k₃, k₄, hcourse, hrow⟩ := flush_course hw (gather es) config worker f hj
  rw [hrow, Option.map_some, hcourse.columns_eq hes hheld]

/-- Two jobs, leased by worker 7. -/
def twoRunning : Db :=
  Db.after [.enqueue { task := "t" } 0, .enqueue { task := "t" } 0,
    .fetchUnkeyed { queues := ["default"], limit := 2, worker := 7, lease := 30, now := 1 }]

/-- Row 1 of `twoRunning`. -/
def firstRow : Job :=
  { id := 1, queue := "default", task := "t", state := .running, payload := [], attempt := 1,
    scheduledAt := ((0 : Int) : WithTop Int), startedAt := some 1, lockedBy := some 7,
    leaseExpiresAt := some 31 }

/-- Calls at time 2, all of them answered. -/
def quiet : World := { nowCompleted := 2, nowWithResult := 2, nowRetry := 2, nowTerminal := 2 }

/-- The first job on its first attempt, the second on one whose backoff overflows. -/
def veteran : Db where
  jobs := [firstRow, { firstRow with id := 2, attempt := 1025, maxAttempts := 2000 }]
  jobSeq := 2
  valid := fun c => by cases c <;> decide

end Gylo.Worker.Isolation
