import Mathlib.Data.Finset.Basic
import Gylo.Store.Effects
import Gylo.Wire.Protocol

/-! # Recording outcomes and letting go of the jobs

The supervisor keeps the ids of the jobs its child works on in `InFlight` and
renews their leases. Outcomes gather in a `Pending` batch; `flush` records the
batch with up to four statements, logs the ones that fail, and then releases
every id of the batch. -/
namespace Gylo.Worker

open Gylo.Store Gylo.Wire

/-! ## The batch -/

/-- The parallel vectors of `Pending`, zipped. -/
structure Pending where
  completed : List JobId := []
  withResult : List (JobId × Bytes) := []
  retry : List (JobId × String) := []
  terminal : List (JobId × String) := []
deriving DecidableEq

def Pending.push (p : Pending) (id : JobId) : Outcome → Pending
  | .success result =>
    if result.isEmpty then { p with completed := p.completed ++ [id] }
    else { p with withResult := p.withResult ++ [(id, result)] }
  | .failure error true => { p with retry := p.retry ++ [(id, error)] }
  | .failure error false => { p with terminal := p.terminal ++ [(id, error)] }

/-- `settled`: every id of the batch. -/
def Pending.settled (p : Pending) : List JobId :=
  p.completed ++ p.withResult.map Prod.fst ++ p.retry.map Prod.fst ++ p.terminal.map Prod.fst

/-- Whatever is pushed is among the ids `flush` releases. -/
theorem Pending.mem_settled_push (p : Pending) (id : JobId) (o : Outcome) (i : JobId) :
    i ∈ (p.push id o).settled ↔ i = id ∨ i ∈ p.settled := by
  cases o with
  | success result =>
    simp only [Pending.push]
    split
    · simp only [Pending.settled, List.mem_append, List.mem_singleton]
      tauto
    · simp only [Pending.settled, List.map_append, List.map_singleton, List.mem_append,
        List.mem_singleton]
      tauto
  | failure error retry =>
    cases retry <;>
    · simp only [Pending.push, Pending.settled, List.map_append, List.map_singleton,
        List.mem_append, List.mem_singleton]
      tauto

/-- The ids handed to the child and not yet finalised. -/
structure InFlight where
  ids : Finset JobId

def InFlight.release (f : InFlight) (ids : List JobId) : InFlight := ⟨f.ids \ ids.toFinset⟩

/-! ## Flushing -/

structure Config where
  retryBase : Nat
  retryCap : Nat

/-- What `flush` meets: the clock at each statement, `random()`, and which of
the four calls fail. -/
structure World where
  nowCompleted : Time
  nowWithResult : Time
  nowRetry : Time
  nowTerminal : Time
  random : JobId → Nat := fun _ => 0
  failCompleted : Bool := false
  failWithResult : Bool := false
  failRetry : Bool := false
  failTerminal : Bool := false

/-- One database call: not made for an empty batch, and without effect if it
fails. -/
def issue (fails : Bool) (s : Stmt) (db : Db) : Db :=
  if s.reported = [] ∨ fails then db else db.exec s

section
variable (p : Pending) (config : Config) (worker : Uuid) (w : World)

/-- `complete_many`. -/
def completeMany : Stmt :=
  .complete (p.completed.map fun id => (id, none)) worker w.nowCompleted

/-- `complete_many_with_results`. -/
def completeManyWithResults : Stmt :=
  .complete (p.withResult.map fun v => (v.1, some v.2)) worker w.nowWithResult

def retryMany : Stmt :=
  .retryMany ⟨p.retry, worker, config.retryBase, config.retryCap, w.random, w.nowRetry⟩

def discardMany : Stmt := .discardMany p.terminal worker w.nowTerminal

def afterCompleted (db : Db) : Db := issue w.failCompleted (completeMany p worker w) db

def afterWithResult (db : Db) : Db :=
  issue w.failWithResult (completeManyWithResults p worker w) (afterCompleted p worker w db)

def afterRetry (db : Db) : Db :=
  issue w.failRetry (retryMany p config worker w) (afterWithResult p worker w db)

def afterTerminal (db : Db) : Db :=
  issue w.failTerminal (discardMany p worker w) (afterRetry p config worker w db)

/-- `Pending::flush`: the database and the ids in flight afterwards. -/
def flush (f : InFlight) (db : Db) : Db × InFlight :=
  if p.settled = [] then (db, f)
  else (afterTerminal p config worker w db, f.release p.settled)
end

/-! ## What a call settles -/

/-- The row of `id` is running under the worker. -/
def Held (db : Db) (worker : Uuid) (id : JobId) : Prop :=
  ∃ j ∈ db.jobs, j.id = id ∧ j.HeldBy worker

instance (db : Db) (worker : Uuid) (id : JobId) : Decidable (Held db worker id) :=
  inferInstanceAs (Decidable (∃ j ∈ db.jobs, _))

/-- The call succeeds: it does not fail, and Postgres accepts it. -/
def Lands (fails : Bool) (s : Stmt) (db : Db) : Prop := fails = false ∧ ∃ db', db.run s = .ok db'

section
variable {worker : Uuid} {now : Time} {t : Tables} {j : Job}

theorem heldBy_completeRow {batch : List (JobId × Option Bytes)} :
    (t.completeRow batch worker now j).HeldBy worker ↔
      j.HeldBy worker ∧ j.id ∉ batch.map Prod.fst := by
  unfold Tables.completeRow
  cases hb : batchEntry batch worker j with
  | some result =>
    refine ⟨fun h => ?_, fun h => absurd (listed_of_batchEntry hb) h.2⟩
    cases h.2
  | none =>
    dsimp only
    split <;> exact ⟨fun h => ⟨h, not_listed_of_batchEntry hb h⟩, fun h => h.1⟩

theorem heldBy_retryRow {a : Retry} :
    (retryRow a j).HeldBy a.worker ↔ j.HeldBy a.worker ∧ j.id ∉ a.batch.map Prod.fst := by
  unfold retryRow
  cases hb : batchEntry a.batch a.worker j with
  | some error =>
    refine ⟨fun h => ?_, fun h => absurd (listed_of_batchEntry hb) h.2⟩
    dsimp only at h
    split at h <;> cases h.2
  | none => exact ⟨fun h => ⟨h, not_listed_of_batchEntry hb h⟩, fun h => h.1⟩

theorem heldBy_discardRow {batch : List (JobId × String)} :
    (t.discardRow batch worker now j).HeldBy worker ↔
      j.HeldBy worker ∧ j.id ∉ batch.map Prod.fst := by
  unfold Tables.discardRow
  cases hb : batchEntry batch worker j with
  | some error =>
    refine ⟨fun h => ?_, fun h => absurd (listed_of_batchEntry hb) h.2⟩
    cases h.2
  | none =>
    dsimp only
    split
    · next hwalk =>
      -- the cascade takes waiting rows only, which nobody holds
      refine ⟨fun h => ?_, fun h => ?_⟩
      · cases h.2
      · cases hwalk.2.symm.trans h.1.2
    · exact ⟨fun h => ⟨h, not_listed_of_batchEntry hb h⟩, fun h => h.1⟩
end

/-- What a report does to the rows, if it is accepted. -/
theorem effect_held {db : Db} {s : Stmt} {worker : Uuid} (hs : s.reporter = some worker)
    {t' : Tables} (h : s.effect db.toTables = .ok t') :
    ∃ f : Job → Job, t'.jobs = db.jobs.map f ∧ ∀ j, (f j).id = j.id ∧
      ((f j).HeldBy worker ↔ j.HeldBy worker ∧ j.id ∉ s.reported) := by
  cases s with
  | complete batch w now =>
    cases hs
    cases h
    exact ⟨_, rfl, fun j => ⟨(completeRow_step batch worker now _ j).same.id, heldBy_completeRow⟩⟩
  | retryMany a =>
    cases hs
    refine ⟨_, congrArg Tables.jobs (Stmt.effect_eq_mapJobs rfl h), fun j => ⟨?_, heldBy_retryRow⟩⟩
    exact (retryRow_step (P := fun _ => False) a j).same.id
  | discardMany batch w now =>
    cases hs
    refine ⟨_, congrArg Tables.jobs (Stmt.effect_eq_mapJobs rfl h), fun j => ⟨?_, heldBy_discardRow⟩⟩
    exact (discardRow_step (P := fun _ => False) batch worker now _ j).same.id
  | _ => cases hs

/-- A job is still held after a call exactly if it was before and the call did
not both list it and succeed. -/
theorem held_issue {db : Db} {s : Stmt} {worker : Uuid} (hs : s.reporter = some worker)
    (fails : Bool) (id : JobId) :
    Held (issue fails s db) worker id ↔
      Held db worker id ∧ ¬ (Lands fails s db ∧ id ∈ s.reported) := by
  unfold issue
  by_cases hskip : s.reported = [] ∨ fails = true
  · rw [if_pos hskip]
    refine ⟨fun h => ⟨h, fun hbad => ?_⟩, fun h => h.1⟩
    rcases hskip with hnil | hfail
    · rw [hnil] at hbad; cases hbad.2
    · rw [hfail] at hbad; cases hbad.1.1
  · rw [if_neg hskip]
    have hfails : fails = false := by simpa using (not_or.mp hskip).2
    unfold Db.exec Lands
    cases hrun : db.run s with
    | error e =>
      refine ⟨fun h => ⟨h, fun hbad => ?_⟩, fun h => h.1⟩
      obtain ⟨db', hdb'⟩ := hbad.1.2
      cases hdb'
    | ok db' =>
      obtain ⟨f, hjobs, hf⟩ := effect_held hs (Db.run_ok hrun)
      dsimp only
      constructor
      · intro h
        obtain ⟨k, hk, hid, hheld⟩ := h
        rw [hjobs] at hk
        obtain ⟨j, hj, rfl⟩ := List.mem_map.mp hk
        obtain ⟨hjid, hiff⟩ := hf j
        obtain ⟨hjheld, hnot⟩ := hiff.mp hheld
        rw [hjid] at hid
        exact ⟨⟨j, hj, hid, hjheld⟩, fun hbad => hnot (hid ▸ hbad.2)⟩
      · intro h
        obtain ⟨⟨j, hj, hid, hheld⟩, hnot⟩ := h
        refine ⟨f j, hjobs ▸ List.mem_map_of_mem hj, (hf j).1.trans hid, (hf j).2.mpr ⟨hheld, ?_⟩⟩
        exact fun hmem => hnot ⟨⟨hfails, db', rfl⟩, hid ▸ hmem⟩

/-- Some call that lists the job succeeds. -/
def Recorded (p : Pending) (config : Config) (worker : Uuid) (w : World) (db : Db) (id : JobId) :
    Prop :=
  id ∈ p.completed ∧ Lands w.failCompleted (completeMany p worker w) db ∨
  id ∈ p.withResult.map Prod.fst ∧
    Lands w.failWithResult (completeManyWithResults p worker w) (afterCompleted p worker w db) ∨
  id ∈ p.retry.map Prod.fst ∧
    Lands w.failRetry (retryMany p config worker w) (afterWithResult p worker w db) ∨
  id ∈ p.terminal.map Prod.fst ∧
    Lands w.failTerminal (discardMany p worker w) (afterRetry p config worker w db)

theorem reported_completeMany (p : Pending) (worker : Uuid) (w : World) :
    (completeMany p worker w).reported = p.completed := by
  simp [completeMany, Stmt.reported, Function.comp_def]

theorem reported_completeManyWithResults (p : Pending) (worker : Uuid) (w : World) :
    (completeManyWithResults p worker w).reported = p.withResult.map Prod.fst := by
  simp [completeManyWithResults, Stmt.reported, Function.comp_def]

theorem held_afterTerminal (p : Pending) (config : Config) (worker : Uuid) (w : World) (db : Db)
    (id : JobId) : Held (afterTerminal p config worker w db) worker id ↔
      Held db worker id ∧ ¬ Recorded p config worker w db id := by
  rw [afterTerminal, held_issue rfl, afterRetry, held_issue rfl, afterWithResult, held_issue rfl,
    afterCompleted, held_issue rfl, reported_completeMany, reported_completeManyWithResults]
  unfold Recorded
  simp only [afterRetry, afterWithResult, afterCompleted]
  show ((((Held db worker id ∧ _) ∧ _) ∧ ¬ (_ ∧ id ∈ p.retry.map Prod.fst)) ∧
    ¬ (_ ∧ id ∈ p.terminal.map Prod.fst)) ↔ _
  tauto

/-- **An id leaves `InFlight` only once its outcome is durable** exactly if
every held id of the batch whose row is running under this worker is listed in
a call that succeeds. -/
theorem flush_releases_durable_iff (p : Pending) (config : Config) (worker : Uuid) (w : World)
    (f : InFlight) (db : Db) :
    (∀ id ∈ f.ids, id ∉ (flush p config worker w f db).2.ids →
      ¬ Held (flush p config worker w f db).1 worker id) ↔
    ∀ id ∈ f.ids, id ∈ p.settled → Held db worker id → Recorded p config worker w db id := by
  unfold flush
  by_cases hnil : p.settled = []
  · rw [if_pos hnil, hnil]
    exact ⟨fun _ _ _ hmem => absurd hmem List.not_mem_nil, fun _ _ hid hnot => absurd hid hnot⟩
  · rw [if_neg hnil]
    dsimp only
    constructor
    · intro h id hid hmem hheld
      have hgone : id ∉ (f.release p.settled).ids := by simp [InFlight.release, hmem]
      by_contra hnot
      exact h id hid hgone ((held_afterTerminal p config worker w db id).mpr ⟨hheld, hnot⟩)
    · intro h id hid hgone hheld
      have hmem : id ∈ p.settled := by simpa [InFlight.release, hid] using hgone
      obtain ⟨hbefore, hnot⟩ := (held_afterTerminal p config worker w db id).mp hheld
      exact hnot (h id hid hmem hbefore)

/-- One job, leased by worker 7 and done. -/
def oneRunning : Db :=
  Db.after [.enqueue { task := "t" } 0,
    .fetchUnkeyed { queues := ["default"], limit := 1, worker := 7, lease := 30, now := 1 }]

/-- The only call fails; the job is released and still running under worker 7. -/
theorem flush_releases_unrecorded :
    (1 : JobId) ∈ ({1} : Finset JobId) ∧
    1 ∉ (flush { completed := [1] } ⟨1, 60⟩ 7
      { nowCompleted := 2, nowWithResult := 2, nowRetry := 2, nowTerminal := 2,
        failCompleted := true } ⟨{1}⟩ oneRunning).2.ids ∧
    Held (flush { completed := [1] } ⟨1, 60⟩ 7
      { nowCompleted := 2, nowWithResult := 2, nowRetry := 2, nowTerminal := 2,
        failCompleted := true } ⟨{1}⟩ oneRunning).1 7 1 := by
  decide

end Gylo.Worker
