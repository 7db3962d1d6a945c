import Mathlib.Data.List.Pairwise
import Gylo.Store.Statements

/-! # What a statement can do

Nineteen statements, four forms of effect: some rows change by a `RowStep`, a
batch completes and releases its children, new rows arrive with the edges
between them, or rows and edges go away. `Stmt.effect_form` says it once for
every statement, and the invariants of the modules above are proved over the
four forms. -/
namespace Gylo.Store

/-! ## Rows -/

/-- What a statement other than `COMPLETE` does to one row, by the state it
finds the row in. `P` is what a row must be for the statement to lease it. -/
inductive RowStep (P : Job → Prop) (j : Job) : Job → Prop
  | refl : RowStep P j j
  | lease {queues : List String} (worker : Uuid) (lease now : Time) (due : j.Due queues now)
      (pick : P j) : RowStep P j (j.lease worker lease now)
  | reschedule (delay : Nat) (error : String) (now : Time) (running : j.state = .running)
      (left : j.attempt < j.maxAttempts) : RowStep P j (j.reschedule delay error now)
  | release (running : j.state = .running) (left : j.attempt < j.maxAttempts) :
      RowStep P j j.release
  | discard (error : String) (now : Time) (running : j.state = .running) :
      RowStep P j (j.discard error now)
  | cancel (now : Time) (waiting : j.state = .available) : RowStep P j (j.cancel now)
  | cascade (now : Time) (waiting : j.state = .available) : RowStep P j (j.cascade now)
  | expireAt (time : Time) (running : j.state = .running) : RowStep P j (j.expireAt time)
  | requeue (now : Time) (dead : j.state = .discarded) : RowStep P j (j.requeue now)

theorem Job.Due.later {j : Job} {queues : List String} {now later : Time} (h : j.Due queues now)
    (hle : now ≤ later) : j.Due queues later :=
  ⟨h.1, h.2.1, h.2.2.trans (WithTop.coe_le_coe.mpr hle)⟩

/-- The columns no statement writes after the insert. -/
structure SameJob (j k : Job) : Prop where
  id : k.id = j.id
  task : k.task = j.task
  payload : k.payload = j.payload
  priority : k.priority = j.priority
  maxAttempts : k.maxAttempts = j.maxAttempts
  uniqueKey : k.uniqueKey = j.uniqueKey
  concurrencyKey : k.concurrencyKey = j.concurrencyKey
  maxConcurrency : k.maxConcurrency = j.maxConcurrency
  workflowId : k.workflowId = j.workflowId

theorem SameJob.refl (j : Job) : SameJob j j := by
  constructor <;> rfl

theorem SameJob.trans {j k l : Job} (h : SameJob j k) (h' : SameJob k l) : SameJob j l :=
  ⟨h'.id.trans h.id, h'.task.trans h.task, h'.payload.trans h.payload,
    h'.priority.trans h.priority, h'.maxAttempts.trans h.maxAttempts,
    h'.uniqueKey.trans h.uniqueKey, h'.concurrencyKey.trans h.concurrencyKey,
    h'.maxConcurrency.trans h.maxConcurrency, h'.workflowId.trans h.workflowId⟩

theorem RowStep.same {P : Job → Prop} {j k : Job} (h : RowStep P j k) : SameJob j k := by
  cases h <;> constructor <;> rfl

theorem RowStep.result {P : Job → Prop} {j k : Job} (h : RowStep P j k) : k.result = j.result := by
  cases h <;> rfl

/-- Only `COMPLETE` moves a row into or out of `completed`, or moves its count
of pending parents. -/
theorem RowStep.completed_iff {P : Job → Prop} {j k : Job} (h : RowStep P j k) :
    k.state = .completed ↔ j.state = .completed := by
  cases h <;> simp_all [Job.lease, Job.reschedule, Job.release, Job.discard, Job.cancel,
    Job.cascade, Job.expireAt, Job.requeue, Job.Due]

theorem RowStep.eq_of_completed {P : Job → Prop} {j k : Job} (h : RowStep P j k)
    (hdone : j.state = .completed) : k = j := by
  cases h with
  | refl => rfl
  | lease worker lease now due pick => exact absurd (hdone.symm.trans due.1) (by decide)
  | reschedule delay error now running left => exact absurd (hdone.symm.trans running) (by decide)
  | release running left => exact absurd (hdone.symm.trans running) (by decide)
  | discard error now running => exact absurd (hdone.symm.trans running) (by decide)
  | expireAt time running => exact absurd (hdone.symm.trans running) (by decide)
  | cancel now waiting => exact absurd (hdone.symm.trans waiting) (by decide)
  | cascade now waiting => exact absurd (hdone.symm.trans waiting) (by decide)
  | requeue now dead => exact absurd (hdone.symm.trans dead) (by decide)

theorem RowStep.pendingDeps {P : Job → Prop} {j k : Job} (h : RowStep P j k) :
    k.pendingDeps = j.pendingDeps := by
  cases h <;> rfl

/-- The two ways `COMPLETE` changes a row. -/
inductive CompleteStep (j : Job) : Job → Prop
  | refl : CompleteStep j j
  | complete (result : Option Bytes) (now : Time) (running : j.state = .running) :
      CompleteStep j (j.complete result now)
  | unblock (n : Nat) (now : Time) : CompleteStep j (j.unblock n now)

section
variable {j k : Job} (h : CompleteStep j k)
include h

theorem CompleteStep.same : SameJob j k := by
  cases h <;> constructor <;> rfl

theorem CompleteStep.attempt : k.attempt = j.attempt := by
  cases h <;> rfl

theorem CompleteStep.leasePaired (hj : j.lockedBy.isNone = j.leaseExpiresAt.isNone) :
    k.lockedBy.isNone = k.leaseExpiresAt.isNone := by
  cases h with
  | refl => exact hj
  | complete result now running => rfl
  | unblock n now => exact hj

theorem CompleteStep.pendingDeps_le : k.pendingDeps ≤ j.pendingDeps := by
  cases h with
  | refl => exact le_refl _
  | complete result now running => exact le_refl _
  | unblock n now => show j.pendingDeps - n ≤ j.pendingDeps; omega

theorem CompleteStep.live (hk : k.Live) : j.Live := by
  cases h with
  | refl => exact hk
  | complete result now running => exact .inr running
  | unblock n now => exact hk
end

/-- In a batch without duplicates a lookup finds what is listed. -/
theorem lookup_eq_some_iff_mem {β : Type} {batch : List (JobId × β)} (hnd : (batch.map Prod.fst).Nodup)
    {id : JobId} {b : β} : batch.lookup id = some b ↔ (id, b) ∈ batch := by
  induction batch with
  | nil => simp
  | cons v batch ih =>
    obtain ⟨i, c⟩ := v
    obtain ⟨hnew, hnd⟩ := List.nodup_cons.mp hnd
    by_cases hid : id = i
    · subst hid
      have hout : (id, b) ∉ batch := fun h => hnew (List.mem_map.mpr ⟨_, h, rfl⟩)
      simp [hout, eq_comm]
    · rw [List.lookup_cons, show (id == i) = false by simpa using hid]
      simp [ih hnd, hid]

section
variable {β : Type} {batch : List (JobId × β)} {worker : Uuid} {j : Job} {b : β}

theorem heldBy_of_batchEntry (h : batchEntry batch worker j = some b) : j.HeldBy worker := by
  unfold batchEntry at h
  split at h
  · assumption
  · cases h

theorem listed_of_batchEntry (h : batchEntry batch worker j = some b) :
    j.id ∈ batch.map Prod.fst := by
  rw [batchEntry, if_pos (heldBy_of_batchEntry h)] at h
  obtain ⟨v, hv, hid⟩ := List.lookup_isSome_iff.mp (Option.isSome_of_eq_some h)
  exact List.mem_map.mpr ⟨v, hv, (eq_of_beq hid).symm⟩

theorem not_listed_of_batchEntry (h : batchEntry batch worker j = none) (hheld : j.HeldBy worker) :
    j.id ∉ batch.map Prod.fst := by
  rw [batchEntry, if_pos hheld, List.lookup_eq_none_iff] at h
  intro hmem
  obtain ⟨v, hv, hid⟩ := List.mem_map.mp hmem
  exact absurd (beq_iff_eq.mpr hid.symm) (by simpa using h v hv)

theorem mem_settledBy {t : Tables} {id : JobId} :
    id ∈ t.settledBy batch worker ↔
      ∃ j ∈ t.jobs, (batchEntry batch worker j).isSome ∧ j.id = id := by
  simp [Tables.settledBy, and_assoc]
end

theorem completeRow_step (batch : List (JobId × Option Bytes)) (worker : Uuid) (now : Time)
    (t : Tables) (j : Job) : CompleteStep j (t.completeRow batch worker now j) := by
  unfold Tables.completeRow
  split
  · next result h => exact .complete result now (heldBy_of_batchEntry h).2
  · dsimp only
    split
    · exact .refl
    · exact .unblock _ now

/-- Rows that keep their unique key and do not come back to life bring no new
live key. -/
theorem liveKeys_mapJobs_sublist {t : Tables} {f : Job → Job} (same : ∀ j, SameJob j (f j))
    (live : ∀ j ∈ t.jobs, (f j).Live → j.Live) : (t.mapJobs f).liveKeys.Sublist t.liveKeys := by
  simp only [Tables.liveKeys, Tables.mapJobs]
  generalize t.jobs = rows at live
  induction rows with
  | nil => exact List.Sublist.refl _
  | cons j rows ih =>
    have ih := ih fun k hk => live k (List.mem_cons_of_mem _ hk)
    have hlive := live j List.mem_cons_self
    by_cases hf : (f j).Live
    · simp only [List.map_cons, List.filter_cons, hf, hlive hf, decide_true, if_true,
        List.filterMap_cons, (same j).uniqueKey]
      cases j.uniqueKey with
      | none => exact ih
      | some key => exact ih.cons_cons key
    · simp only [List.map_cons, List.filter_cons, hf, decide_false]
      refine ih.trans (List.Sublist.filterMap _ ?_)
      split
      · exact List.sublist_cons_self _ _
      · exact List.Sublist.refl _

/-- The index holds on some of the rows exactly if no two of them share a key. -/
theorem keys_nodup_iff (db : Db) (p : Job → Prop) [DecidablePred p] :
    ((db.jobs.filter fun j => p j).filterMap Job.uniqueKey).Nodup ↔
      ∀ j ∈ db.jobs, p j → ∀ k ∈ db.jobs, p k → j ≠ k → ∀ key ∈ j.uniqueKey, k.uniqueKey ≠ some key := by
  have hrows : (db.jobs.filter fun j => p j).Nodup := (List.Nodup.of_map _ db.ids_nodup).filter _
  have hsymm : Std.Symm fun j k : Job => ∀ a ∈ j.uniqueKey, ∀ b ∈ k.uniqueKey, a ≠ b :=
    ⟨fun j k h a ha b hb => (h b hb a ha).symm⟩
  rw [List.Nodup, List.pairwise_filterMap]
  constructor
  · intro h j hj hp k hk hq hne key hkey hsame
    exact h.forall (List.mem_filter.mpr ⟨hj, decide_eq_true hp⟩)
      (List.mem_filter.mpr ⟨hk, decide_eq_true hq⟩) hne key hkey key hsame rfl
  · intro h
    refine hrows.pairwise_of_forall_ne fun j hj k hk hne a ha b hb hab => ?_
    obtain ⟨hj, hp⟩ := List.mem_filter.mp hj
    obtain ⟨hk, hq⟩ := List.mem_filter.mp hk
    exact h j hj (of_decide_eq_true hp) k hk (of_decide_eq_true hq) hne a ha (hab ▸ hb)

/-- An update of the rows that keeps the identifying columns can only run into
the constraints on the columns it writes. -/
theorem Db.satisfies_update (db : Db) {f : Job → Job} (same : ∀ j, SameJob j (f j))
    (attempt : ∀ j ∈ db.jobs, (f j).attempt ≤ (f j).maxAttempts ∧ InSmallint (f j).attempt)
    (lease : ∀ j ∈ db.jobs, (f j).lockedBy.isNone = (f j).leaseExpiresAt.isNone)
    (pending : ∀ j ∈ db.jobs, 0 ≤ (f j).pendingDeps ∧ InInt (f j).pendingDeps)
    (unique : (db.toTables.mapJobs f).liveKeys.Nodup) (c : Constraint) :
    (db.toTables.mapJobs f).Satisfies c := by
  have hids : (db.toTables.mapJobs f).ids = db.ids := by
    simp only [Tables.ids, Tables.mapJobs, List.map_map]
    exact List.map_congr_left fun j _ => (same j).id
  have hrow : ∀ {p : Job → Prop}, (∀ j ∈ db.jobs, p (f j)) → ∀ j ∈ (db.toTables.mapJobs f).jobs, p j := by
    intro p h j hj
    obtain ⟨k, hk, rfl⟩ := List.mem_map.mp hj
    exact h k hk
  have hv := db.valid c
  cases c with
  | jobPkey => rw [Tables.Satisfies, hids]; exact hv
  | attemptBounds => exact hrow fun j hj => (attempt j hj).1
  | leasePaired => exact hrow lease
  | concurrencyPaired =>
    refine hrow fun j hj => ?_
    rw [(same j).concurrencyKey, (same j).maxConcurrency]
    exact hv j hj
  | concurrencyPositive =>
    refine hrow fun j hj => ?_
    rw [(same j).maxConcurrency]
    exact hv j hj
  | pendingDepsPositive => exact hrow fun j hj => (pending j hj).1
  | smallintRange =>
    refine hrow fun j hj => ?_
    rw [(same j).priority, (same j).maxAttempts]
    exact ⟨(hv j hj).1, (attempt j hj).2, (hv j hj).2.2⟩
  | intRange =>
    refine hrow fun j hj => ?_
    rw [(same j).maxConcurrency]
    exact ⟨(pending j hj).2, (hv j hj).2⟩
  | jobUnique => exact unique
  | jobWorkflowFkey =>
    refine hrow fun j hj => ?_
    rw [(same j).workflowId]
    exact hv j hj
  | edgePkey => exact hv
  | edgeFkey => rw [Tables.Satisfies, hids]; exact hv
  | stepPkey => exact hv
  | stepFkey => rw [Tables.Satisfies, hids]; exact hv
  | cronPkey => exact hv
  | identity => rw [Tables.Satisfies, hids]; exact hv

/-- The index on live keys is no obstacle to an update that revives no row. -/
theorem Db.satisfies_mapJobs (db : Db) {f : Job → Job} (same : ∀ j, SameJob j (f j))
    (attempt : ∀ j ∈ db.jobs, (f j).attempt ≤ (f j).maxAttempts ∧ InSmallint (f j).attempt)
    (lease : ∀ j ∈ db.jobs, (f j).lockedBy.isNone = (f j).leaseExpiresAt.isNone)
    (pending : ∀ j ∈ db.jobs, 0 ≤ (f j).pendingDeps ∧ InInt (f j).pendingDeps)
    (live : ∀ j ∈ db.jobs, (f j).Live → j.Live) (c : Constraint) :
    (db.toTables.mapJobs f).Satisfies c :=
  db.satisfies_update same attempt lease pending
    (List.Sublist.nodup (liveKeys_mapJobs_sublist same live) (db.valid .jobUnique)) c

theorem leaseRow_same (a : Fetch) (chosen : List JobId) (j : Job) :
    SameJob j (leaseRow a chosen j) := by
  unfold leaseRow
  split <;> constructor <;> rfl

/-- A lease is accepted exactly if every row it takes has an attempt left. -/
theorem Db.satisfies_leaseRow (db : Db) (a : Fetch) (chosen : List Job)
    (hsub : ∀ j ∈ chosen, j ∈ db.jobs ∧ j.state = .available) :
    (∀ c, (db.toTables.mapJobs (leaseRow a (chosen.map Job.id))).Satisfies c) ↔
      ∀ j ∈ chosen, j.attempt < j.maxAttempts := by
  have htaken : ∀ j ∈ db.jobs, j.id ∈ chosen.map Job.id → j ∈ chosen := by
    intro j hj hmem
    obtain ⟨k, hk, hid⟩ := List.mem_map.mp hmem
    exact db.eq_of_id (hsub k hk).1 hj hid ▸ hk
  constructor
  · intro h j hj
    have hmem : j.id ∈ chosen.map Job.id := List.mem_map_of_mem hj
    have hrow := h .attemptBounds _ (List.mem_map_of_mem (hsub j hj).1)
    rw [leaseRow, if_pos hmem] at hrow
    exact Int.lt_iff_add_one_le.mpr hrow
  · intro h
    refine db.satisfies_mapJobs (leaseRow_same a _) ?_ ?_ ?_ ?_
    all_goals
      intro j hj
      unfold leaseRow
      split
    · next hmem =>
      have hleft := h j (htaken j hj hmem)
      have hrange := db.valid .smallintRange j hj
      simp only [Job.lease, InSmallint] at hrange ⊢
      omega
    · exact ⟨db.valid .attemptBounds j hj, (db.valid .smallintRange j hj).2.1⟩
    · rfl
    · exact db.valid .leasePaired j hj
    · exact ⟨db.valid .pendingDepsPositive j hj, (db.valid .intRange j hj).1⟩
    · exact ⟨db.valid .pendingDepsPositive j hj, (db.valid .intRange j hj).1⟩
    · next hmem => exact fun _ => .inl (hsub j (htaken j hj hmem)).2
    · exact id

/-! ## Reports -/

/-- The worker whose outcomes a statement reports. -/
def Stmt.reporter : Stmt → Option Uuid
  | .complete _ worker _ => some worker
  | .retryMany a => some a.worker
  | .discardMany _ worker _ => some worker
  | _ => none

/-- The jobs a statement reports an outcome of. -/
def Stmt.reported : Stmt → List JobId
  | .complete batch _ _ => batch.map Prod.fst
  | .retryMany a => a.batch.map Prod.fst
  | .discardMany batch _ _ => batch.map Prod.fst
  | _ => []

/-! ## New rows -/

/-- Rows and edges as an insert adds them: ids past the sequence, every row
untouched, edges within the batch, and each row's count of pending parents the
number of edges into it. -/
structure NewRows (t : Tables) (rows : List Job) (es : List Edge) : Prop where
  ids : ∀ j ∈ rows, t.jobSeq < j.id
  state : ∀ j ∈ rows, j.state = .available
  attempt : ∀ j ∈ rows, j.attempt = 0
  unlocked : ∀ j ∈ rows, j.lockedBy = none ∧ j.leaseExpiresAt = none
  open_ : ∀ j ∈ rows, j.finalizedAt = none ∧ j.result = none
  errors : ∀ j ∈ rows, j.errors = []
  ends : ∀ e ∈ es, e.parent ∈ rows.map Job.id ∧ e.child ∈ rows.map Job.id
  pending : ∀ j ∈ rows, j.pendingDeps = (es.filter fun e => e.child = j.id).length
  parked : ∀ j ∈ rows, j.scheduledAt = ⊤ ↔ 0 < j.pendingDeps

theorem NewRows.nil (t : Tables) : NewRows t [] [] := by
  constructor <;> simp

theorem NewRows.singleton {t : Tables} {j : Job} (id : j.id = t.jobSeq + 1)
    (state : j.state = .available) (attempt : j.attempt = 0)
    (unlocked : j.lockedBy = none ∧ j.leaseExpiresAt = none)
    (open_ : j.finalizedAt = none ∧ j.result = none) (errors : j.errors = [])
    (pending : j.pendingDeps = 0) (soon : j.scheduledAt ≠ ⊤) : NewRows t [j] [] := by
  have hseq : t.jobSeq < j.id := id ▸ Int.lt_succ t.jobSeq
  constructor <;> simp_all

/-- `Workflow.dependencies` counts the edges into each node. -/
theorem Workflow.dependencies_get (flow : Workflow) {i : Nat} (hi : i < flow.nodes.length) :
    flow.dependencies[i]? = some (flow.edges.filter fun e => e.2 = i).length := by
  have count : ∀ (edges : List (Nat × Nat)) (counts : List Nat),
      (edges.foldl (fun counts e => counts.modify e.2 (· + 1)) counts)[i]? =
        counts[i]?.map (· + (edges.filter fun e => e.2 = i).length) := by
    intro edges
    induction edges with
    | nil => intro counts; simp
    | cons e edges ih =>
      intro counts
      rw [List.foldl_cons, ih, List.getElem?_modify]
      by_cases h : e.2 = i
      · cases counts[i]? <;> simp [h, Nat.add_assoc, Nat.add_comm]
      · cases counts[i]? <;> simp [h]
  rw [Workflow.dependencies, count]
  simp [hi]

theorem Workflow.length_dependencies (flow : Workflow) :
    flow.dependencies.length = flow.nodes.length := by
  have keep : ∀ (edges : List (Nat × Nat)) (counts : List Nat),
      (edges.foldl (fun counts e => counts.modify e.2 (· + 1)) counts).length = counts.length := by
    intro edges
    induction edges with
    | nil => intro counts; rfl
    | cons e edges ih => intro counts; rw [List.foldl_cons, ih, List.length_modify]
  rw [Workflow.dependencies, keep, List.length_replicate]

/-- A node is parked at infinity exactly while it has parents to wait for. -/
theorem NewJob.node_parked (new : NewJob) (id : JobId) (workflow : Int) (pending : Nat)
    (now : Time) : (new.node id workflow pending now).scheduledAt = ⊤ ↔ 0 < pending := by
  unfold NewJob.node
  dsimp only
  split
  · simpa using ‹pending > 0›
  · simpa using ‹¬ pending > 0›

/-- The rows of `insert_workflow`. -/
def Tables.workflowRows (t : Tables) (flow : Workflow) (now : Time) : List Job :=
  (flow.nodes.zip flow.dependencies).mapIdx fun i n =>
    n.1.node (t.jobSeq + 1 + i) (t.workflowSeq + 1) n.2 now

def Tables.workflowEdges (t : Tables) (flow : Workflow) : List Edge :=
  flow.edges.map fun e => ⟨t.workflowSeq + 1, t.jobSeq + 1 + e.1, t.jobSeq + 1 + e.2⟩

theorem mem_workflowRows {t : Tables} {flow : Workflow} {now : Time} {j : Job} :
    j ∈ t.workflowRows flow now ↔ ∃ i, ∃ h : i < flow.nodes.length,
      j = (flow.nodes.get ⟨i, h⟩).node (t.jobSeq + 1 + i) (t.workflowSeq + 1)
        (flow.edges.filter fun e => e.2 = i).length now := by
  have hlen : (flow.nodes.zip flow.dependencies).length = flow.nodes.length := by
    simp [flow.length_dependencies]
  have hget : ∀ i (h : i < flow.nodes.length), (flow.nodes.zip flow.dependencies)[i]? =
      some (flow.nodes.get ⟨i, h⟩, (flow.edges.filter fun e => e.2 = i).length) := by
    intro i h
    rw [List.getElem?_zip_eq_some]
    exact ⟨by simp [h], flow.dependencies_get h⟩
  unfold Tables.workflowRows
  rw [List.mem_mapIdx]
  constructor
  · rintro ⟨i, hi, rfl⟩
    have h := hget i (hlen ▸ hi)
    rw [List.getElem?_eq_getElem hi, Option.some.injEq] at h
    exact ⟨i, hlen ▸ hi, by rw [h]⟩
  · rintro ⟨i, hi, rfl⟩
    have h := hget i hi
    rw [List.getElem?_eq_getElem (hlen.symm ▸ hi), Option.some.injEq] at h
    exact ⟨i, hlen.symm ▸ hi, by rw [h]⟩

theorem count_workflowEdges (t : Tables) (flow : Workflow) (i : Nat) :
    ((t.workflowEdges flow).filter fun e => e.child = t.jobSeq + 1 + i).length =
      (flow.edges.filter fun e => e.2 = i).length := by
  rw [Tables.workflowEdges, List.filter_map, List.length_map]
  congr 2
  funext e
  have hiff : t.jobSeq + 1 + (e.2 : Int) = t.jobSeq + 1 + i ↔ e.2 = i := by omega
  simp [Function.comp, hiff]

theorem workflow_newRows (t : Tables) (flow : Workflow) (now : Time)
    (hin : ∀ e ∈ flow.edges, e.1 < flow.nodes.length ∧ e.2 < flow.nodes.length) :
    NewRows t (t.workflowRows flow now) (t.workflowEdges flow) := by
  have hid : ∀ i, i < flow.nodes.length →
      t.jobSeq + 1 + (i : Int) ∈ (t.workflowRows flow now).map Job.id := by
    intro i hi
    exact List.mem_map.mpr ⟨_, mem_workflowRows.mpr ⟨i, hi, rfl⟩, rfl⟩
  constructor
  case ends =>
    intro e' he'
    obtain ⟨e, he, rfl⟩ := List.mem_map.mp he'
    exact ⟨hid _ (hin e he).1, hid _ (hin e he).2⟩
  all_goals
    intro j hj
    obtain ⟨i, hi, rfl⟩ := mem_workflowRows.mp hj
  case ids => show t.jobSeq < t.jobSeq + 1 + i; omega
  case state => rfl
  case attempt => rfl
  case unlocked => exact ⟨rfl, rfl⟩
  case open_ => exact ⟨rfl, rfl⟩
  case errors => rfl
  case pending => exact congrArg Nat.cast (count_workflowEdges t flow i).symm
  case parked => rw [NewJob.node_parked]; exact Int.natCast_pos.symm

/-! ## The four forms -/

/-- The rows a statement may lease. -/
def Stmt.Leases : Stmt → Job → Prop
  | .fetchUnkeyed _, j => j.concurrencyKey = none
  | .fetchKeyed _, j => j.concurrencyKey ≠ none
  | _, _ => False

/-- The row update of a statement that inserts and deletes nothing; `COMPLETE`
apart, which has its own form. -/
def Stmt.rowMap : Stmt → Tables → Job → Job
  | .fetchUnkeyed a, t => leaseRow a ((t.lockedUnkeyed a).map Job.id)
  | .fetchKeyed a, t => leaseRow a ((t.admitted a t).map Job.id)
  | .retryMany a, _ => retryRow a
  | .discardMany batch worker now, t => t.discardRow batch worker now
  | .cancel ids now, _ => cancelRow ids now
  | .reclaim limit visit now, t => reclaimRow (t.expired limit visit now) now
  | .renew ids worker lease now, _ => expireRow ids worker (now + lease)
  | .abandon ids worker now, _ => expireRow ids worker (now - 1)
  | .retryDiscarded ids queue now, _ => requeueRow ids queue now
  | _, _ => id

/-- The statements whose effect is their row update. -/
def Stmt.updatesRows : Stmt → Bool
  | .fetchUnkeyed _ | .fetchKeyed _ | .retryMany _ | .discardMany .. | .cancel .. | .reclaim ..
  | .renew .. | .abandon .. | .retryDiscarded .. => true
  | _ => false

/-- The statements that delete rows. -/
def Stmt.deletes : Stmt → Bool
  | .purgeDiscarded _ | .prune _ | .pruneWorkflows => true
  | _ => false

/-- What a statement may turn the tables into. -/
inductive Form (s : Stmt) (t : Tables) : Tables → Prop
  | rows (step : ∀ j ∈ t.jobs, RowStep s.Leases j (s.rowMap t j)) : Form s t (t.mapJobs (s.rowMap t))
  | complete (batch : List (JobId × Option Bytes)) (worker : Uuid) (now : Time)
      (stmt : s = .complete batch worker now) : Form s t (t.complete batch worker now)
  | insert {t' : Tables} (rows : List Job) (es : List Edge) (new : NewRows t rows es)
      (jobs : t'.jobs = t.jobs ++ rows) (edges : t'.edges = t.edges ++ es) : Form s t t'
  | delete {t' : Tables} (deletes : s.deletes = true) (jobs : t'.jobs.Sublist t.jobs)
      (edges : t'.edges.Sublist t.edges) : Form s t t'

theorem Form.same_jobs {s : Stmt} {t t' : Tables} (jobs : t'.jobs = t.jobs)
    (edges : t'.edges = t.edges) : Form s t t' :=
  .insert [] [] (.nil t) (by simpa using jobs) (by simpa using edges)

theorem limited_ok {t t' : Tables} {limit : Int} (h : limited limit t = .ok t') : t' = t := by
  unfold limited at h
  split at h
  · cases h
  · cases h; rfl

theorem storable_ok {t t' : Tables} {texts : List String} (h : storable texts t = .ok t') : t' = t := by
  unfold storable at h
  split at h
  · cases h
  · cases h; rfl

theorem leaseRow_step {P : Job → Prop} {t : Tables} {a : Fetch} {chosen : List Job}
    (hnd : (t.jobs.map Job.id).Nodup) (hsub : ∀ j ∈ chosen, j ∈ t.jobs ∧ j.Due a.queues a.now ∧ P j) :
    ∀ j ∈ t.jobs, RowStep P j (leaseRow a (chosen.map Job.id) j) := by
  intro j hj
  unfold leaseRow
  split
  · next h =>
    obtain ⟨k, hk, hid⟩ := List.mem_map.mp h
    obtain ⟨hkt, hdue, hP⟩ := hsub k hk
    cases List.inj_on_of_nodup_map hnd hkt hj hid
    exact .lease a.worker a.lease a.now hdue hP
  · exact .refl

theorem mem_lockedUnkeyed {t : Tables} {a : Fetch} {j : Job} (h : j ∈ t.lockedUnkeyed a) :
    j ∈ t.jobs ∧ j.Due a.queues a.now ∧ j.concurrencyKey = none ∧ j.id ∉ a.skip := by
  have h := (List.perm_insertionSort _ _).mem_iff.mp (List.mem_of_mem_take h)
  simpa [and_assoc] using h

theorem mem_lockedKeyed {snapshot t : Tables} {a : Fetch} {j : Job}
    (h : j ∈ t.lockedKeyed a snapshot) : j ∈ t.jobs ∧ j.Admissible a snapshot := by
  obtain ⟨h, hadm⟩ := List.mem_filter.mp (List.mem_of_mem_take h)
  obtain ⟨k, -, hk⟩ := List.mem_filterMap.mp h
  exact ⟨List.mem_of_find?_eq_some hk, of_decide_eq_true hadm⟩

theorem mem_jobs_of_admitted {snapshot t : Tables} {a : Fetch} {j : Job} (h : j ∈ t.admitted a snapshot) :
    j ∈ t.jobs ∧ j.Admissible a snapshot :=
  mem_lockedKeyed (List.mem_filter.mp h).1

theorem retryRow_step {P : Job → Prop} (a : Retry) (j : Job) : RowStep P j (retryRow a j) := by
  unfold retryRow
  split
  · next error h =>
    split
    · exact .reschedule _ error a.now (heldBy_of_batchEntry h).2 ‹_›
    · exact .discard error a.now (heldBy_of_batchEntry h).2
  · exact .refl

theorem discardRow_step {P : Job → Prop} (batch : List (JobId × String)) (worker : Uuid)
    (now : Time) (t : Tables) (j : Job) : RowStep P j (t.discardRow batch worker now j) := by
  unfold Tables.discardRow
  split
  · next error h => exact .discard error now (heldBy_of_batchEntry h).2
  · split
    · next h => exact .cascade now h.2
    · exact .refl

theorem cancelRow_step {P : Job → Prop} (ids : List JobId) (now : Time) (j : Job) :
    RowStep P j (cancelRow ids now j) := by
  unfold cancelRow
  split
  · next h => exact .cancel now h.2
  · exact .refl

theorem expireRow_step {P : Job → Prop} (ids : List JobId) (worker : Uuid) (time : Time) (j : Job) :
    RowStep P j (expireRow ids worker time j) := by
  unfold expireRow
  split
  · next h => exact .expireAt time h.2.2
  · exact .refl

theorem requeueRow_step {P : Job → Prop} (ids : Option (List JobId)) (queue : Option String)
    (now : Time) (j : Job) : RowStep P j (requeueRow ids queue now j) := by
  unfold requeueRow
  split
  · next h => exact .requeue now h.1
  · exact .refl

theorem mem_scan {t : Tables} {visit : List JobId} {j : Job} (h : j ∈ t.scan visit) :
    j ∈ t.jobs := by
  obtain ⟨id, -, hj⟩ := List.mem_filterMap.mp h
  exact List.mem_of_find?_eq_some hj

/-- Each row of `expired` describes a row of the snapshot whose lease is over. -/
theorem mem_expired {t : Tables} {limit : Int} {visit : List JobId} {now : Time} {e : Expired}
    (h : e ∈ t.expired limit visit now) : ∃ j ∈ t.jobs, j.LeaseExpired now ∧
      e = ⟨j.id, j.queue, j.maxAttempts ≤ j.attempt⟩ := by
  obtain ⟨j, hj, rfl⟩ := List.mem_map.mp h
  obtain ⟨hj, hexp⟩ := List.mem_filter.mp (List.mem_of_mem_take hj)
  exact ⟨j, mem_scan hj, of_decide_eq_true hexp, rfl⟩

theorem reclaimRow_step {P : Job → Prop} {t : Tables} (hnd : (t.jobs.map Job.id).Nodup)
    (limit : Int) (visit : List JobId) (now : Time) :
    ∀ j ∈ t.jobs, RowStep P j (reclaimRow (t.expired limit visit now) now j) := by
  intro j hj
  unfold reclaimRow
  split
  · next e he =>
    -- the CTE row and the row it is applied to are one version
    obtain ⟨k, hk, -, rfl⟩ := mem_expired (List.mem_of_find?_eq_some he)
    cases List.inj_on_of_nodup_map hnd hk hj (by simpa using List.find?_some he)
    split
    · next hrun =>
      split
      · exact .discard _ now hrun
      · next hleft => exact .release hrun (by simpa using hleft)
    · exact .refl
  · exact .refl

/-- Each row update is a `RowStep` on every row. -/
theorem Stmt.rowMap_step {t : Tables} (hnd : (t.jobs.map Job.id).Nodup) (s : Stmt) :
    ∀ j ∈ t.jobs, RowStep s.Leases j (s.rowMap t j) := by
  cases s with
  | fetchUnkeyed a =>
    refine leaseRow_step hnd fun j hj => ?_
    obtain ⟨hjt, hdue, hkey, -⟩ := mem_lockedUnkeyed hj
    exact ⟨hjt, hdue, hkey⟩
  | fetchKeyed a =>
    refine leaseRow_step hnd fun j hj => ?_
    obtain ⟨hjt, hdue, hkey, -⟩ := mem_jobs_of_admitted hj
    exact ⟨hjt, hdue, hkey⟩
  | retryMany a => exact fun j _ => retryRow_step a j
  | discardMany batch worker now => exact fun j _ => discardRow_step batch worker now t j
  | cancel ids now => exact fun j _ => cancelRow_step ids now j
  | reclaim limit visit now => exact reclaimRow_step hnd limit visit now
  | renew ids worker lease now => exact fun j _ => expireRow_step ids worker _ j
  | abandon ids worker now => exact fun j _ => expireRow_step ids worker _ j
  | retryDiscarded ids queue now => exact fun j _ => requeueRow_step ids queue now j
  | _ => exact fun _ _ => .refl

theorem Stmt.effect_eq_mapJobs {s : Stmt} {t t' : Tables} (hs : s.updatesRows = true)
    (h : s.effect t = .ok t') : t' = t.mapJobs (s.rowMap t) := by
  cases s with
  | fetchUnkeyed a => exact limited_ok h
  | fetchKeyed a => exact limited_ok h
  | reclaim limit visit now => exact limited_ok h
  | retryMany a =>
    simp only [Stmt.effect, Tables.retryMany] at h
    split at h
    · cases h
    · split at h
      · cases h
      · cases h; rfl
  | discardMany batch worker now =>
    simp only [Stmt.effect, Tables.discardMany] at h
    split at h
    · cases h
    · cases h; rfl
  | cancel ids now => cases h; rfl
  | renew ids worker lease now => cases h; rfl
  | abandon ids worker now => cases h; rfl
  | retryDiscarded ids queue now => cases h; rfl
  | _ => cases hs

theorem enqueue_form {s : Stmt} (t : Tables) (new : NewJob) (now : Time) :
    Form s t (t.enqueue new now) :=
  .insert [new.row (t.jobSeq + 1) now] [] (.singleton rfl rfl rfl ⟨rfl, rfl⟩ ⟨rfl, rfl⟩ rfl rfl WithTop.coe_ne_top)
    rfl (by simp [Tables.enqueue, Tables.insertJobs])

theorem insertUnique_form {s : Stmt} (t : Tables) (new : NewJob) (key : Bytes) (now : Time) :
    Form s t (t.insertUnique new key now) := by
  unfold Tables.insertUnique
  split
  · exact .same_jobs rfl rfl
  · exact .insert _ [] (.singleton rfl rfl rfl ⟨rfl, rfl⟩ ⟨rfl, rfl⟩ rfl rfl WithTop.coe_ne_top) rfl
      (by simp [Tables.insertJobs])

theorem insertWorkflow_ok {t t' : Tables} {nodes : List (NewJob × Nat)} {edges : List (Nat × Nat)} {now : Time}
    (h : t.insertWorkflow nodes edges now = .ok t') :
    (∀ e ∈ edges, e.1 < nodes.length ∧ e.2 < nodes.length) ∧ t' = t.addWorkflow nodes edges now := by
  unfold Tables.insertWorkflow at h
  split at h
  · cases h
  · split at h
    · next hin => exact ⟨hin, (Except.ok.inj h).symm⟩
    · cases h

/-- What `Workflow.enqueue` adds, if the graph has nodes and its edges are between them. -/
theorem enqueueWorkflow_ok {t t' : Tables} {flow : Workflow} {now : Time} (hne : flow.nodes ≠ [])
    (h : t.enqueueWorkflow flow now = .ok t') :
    (∀ e ∈ flow.edges, e.1 < flow.nodes.length ∧ e.2 < flow.nodes.length) ∧
      t'.jobs = t.jobs ++ t.workflowRows flow now ∧ t'.edges = t.edges ++ t.workflowEdges flow ∧
      t'.jobSeq = t.jobSeq + flow.nodes.length := by
  have hlen : (flow.nodes.zip flow.dependencies).length = flow.nodes.length := by
    simp [flow.length_dependencies]
  rw [Tables.enqueueWorkflow, if_neg hne] at h
  obtain ⟨hin, rfl⟩ := insertWorkflow_ok h
  rw [hlen] at hin
  refine ⟨hin, rfl, rfl, ?_⟩
  simp [Tables.addWorkflow, Tables.insertJobs, flow.length_dependencies]

theorem enqueueWorkflow_form {s : Stmt} {t t' : Tables} {flow : Workflow} {now : Time}
    (h : t.enqueueWorkflow flow now = .ok t') : Form s t t' := by
  by_cases hne : flow.nodes = []
  · rw [Tables.enqueueWorkflow, if_pos hne] at h
    cases h
    exact .same_jobs rfl rfl
  · obtain ⟨hin, hjobs, hedges, -⟩ := enqueueWorkflow_ok hne h
    exact .insert _ _ (workflow_newRows t flow now hin) hjobs hedges

/-- The jobs an enqueue path inserts. -/
def Stmt.inserts : Stmt → List NewJob
  | .enqueue new _ | .insertUnique new _ _ => [new]
  | .insertWorkflow flow _ => flow.nodes
  | _ => []

/-- A row just inserted for a job. -/
def NewJob.Became (new : NewJob) (j : Job) : Prop :=
  j.task = new.task ∧ j.payload = new.payload ∧ j.maxAttempts = new.maxAttempts ∧ j.attempt = 0

/-- The rows an enqueue path adds. -/
theorem Stmt.effect_inserts {s : Stmt} (hs : s.inserts ≠ []) {t t' : Tables}
    (h : s.effect t = .ok t') {j : Job} (hj : j ∈ t'.jobs) :
    j ∈ t.jobs ∨ ∃ new ∈ s.inserts, new.Became j := by
  cases s with
  | enqueue new now =>
    rw [storable_ok h] at hj
    rcases List.mem_append.mp hj with hold | hnew
    · exact .inl hold
    · cases List.mem_singleton.mp hnew
      exact .inr ⟨new, List.mem_singleton.mpr rfl, rfl, rfl, rfl, rfl⟩
  | insertUnique new key now =>
    rw [storable_ok h] at hj
    unfold Tables.insertUnique at hj
    split at hj
    · exact .inl hj
    · rcases List.mem_append.mp hj with hold | hnew
      · exact .inl hold
      · cases List.mem_singleton.mp hnew
        exact .inr ⟨new, List.mem_singleton.mpr rfl, rfl, rfl, rfl, rfl⟩
  | insertWorkflow flow now =>
    obtain ⟨-, hjobs, -, -⟩ := enqueueWorkflow_ok hs h
    rw [hjobs] at hj
    rcases List.mem_append.mp hj with hold | hnew
    · exact .inl hold
    · obtain ⟨i, hi, rfl⟩ := mem_workflowRows.mp hnew
      exact .inr ⟨_, List.get_mem flow.nodes ⟨i, hi⟩, rfl, rfl, rfl, rfl⟩
  | _ => exact absurd rfl hs

theorem fireCron_form {s : Stmt} (t : Tables) (name : String) (next now : Time) :
    Form s t (t.fireCron name next now) := by
  unfold Tables.fireCron
  split
  · exact .insert _ [] (.singleton rfl rfl rfl ⟨rfl, rfl⟩ ⟨rfl, rfl⟩ rfl rfl WithTop.coe_ne_top) rfl
      (by simp [Tables.insertJobs])
  · exact .same_jobs rfl rfl

theorem upsertCron_form {s : Stmt} (t : Tables) (entry : Cron) : Form s t (t.upsertCron entry) := by
  unfold Tables.upsertCron
  split <;> exact .same_jobs rfl rfl

theorem recordStep_form {s : Stmt} {t t' : Tables} {job : JobId} {name : String} {result : Bytes}
    {now : Time} (h : t.recordStep job name result now = .ok t') : Form s t t' := by
  unfold Tables.recordStep at h
  split at h
  · cases h
  · split at h <;> cases h <;> exact .same_jobs rfl rfl

theorem deleteJobs_form {s : Stmt} (hs : s.deletes = true) (t : Tables) (victims : List JobId) :
    Form s t (t.deleteJobs victims) :=
  .delete hs List.filter_sublist List.filter_sublist

/-- Every statement has one of the four forms. -/
theorem Stmt.effect_form {s : Stmt} {t t' : Tables} (hnd : (t.jobs.map Job.id).Nodup)
    (h : s.effect t = .ok t') : Form s t t' := by
  cases hs : s.updatesRows with
  | true => rw [Stmt.effect_eq_mapJobs hs h]; exact .rows (s.rowMap_step hnd)
  | false =>
    cases s with
    | enqueue new now => rw [storable_ok h]; exact enqueue_form t new now
    | insertUnique new key now => rw [storable_ok h]; exact insertUnique_form t new key now
    | insertWorkflow flow now => exact enqueueWorkflow_form h
    | fireCron name next now => cases h; exact fireCron_form t name next now
    | upsertCron entry => rw [storable_ok h]; exact upsertCron_form t entry
    | complete batch worker now => cases h; exact .complete batch worker now rfl
    | purgeDiscarded queue => cases h; exact deleteJobs_form (s := .purgeDiscarded queue) rfl t _
    | prune a => rw [limited_ok h]; exact deleteJobs_form (s := .prune a) rfl t _
    | pruneWorkflows => cases h; exact .delete rfl (List.Sublist.refl _) List.filter_sublist
    | recordStep job name result now => exact recordStep_form h
    | _ => cases hs

/-- Where a row comes from: it was there, an enqueue path inserted it, or a
schedule did, with the default number of attempts. -/
theorem Stmt.effect_origin {s : Stmt} {t t' : Tables} (hnd : (t.jobs.map Job.id).Nodup)
    (h : s.effect t = .ok t') {j : Job} (hj : j ∈ t'.jobs) :
    (∃ k ∈ t.jobs, SameJob k j) ∨ (∃ new ∈ s.inserts, new.Became j) ∨ j.maxAttempts = 20 := by
  have hold : j ∈ t.jobs → ∃ k ∈ t.jobs, SameJob k j := fun hj => ⟨j, hj, .refl j⟩
  cases hs : s.updatesRows with
  | true =>
    rw [Stmt.effect_eq_mapJobs hs h] at hj
    obtain ⟨k, hk, rfl⟩ := List.mem_map.mp hj
    exact .inl ⟨k, hk, (s.rowMap_step hnd k hk).same⟩
  | false =>
    by_cases hins : s.inserts = []
    · cases s with
      | insertWorkflow flow now =>
        rw [show t' = t by simpa [Stmt.effect, Tables.enqueueWorkflow, show flow.nodes = [] from hins]
          using h.symm] at hj
        exact .inl (hold hj)
      | fireCron name next now =>
        cases h
        unfold Tables.fireCron at hj
        split at hj
        · rcases List.mem_append.mp hj with hj | hj
          · exact .inl (hold hj)
          · cases List.mem_singleton.mp hj
            exact .inr (.inr rfl)
        · exact .inl (hold hj)
      | upsertCron entry =>
        rw [storable_ok h] at hj
        unfold Tables.upsertCron at hj
        split at hj <;> exact .inl (hold hj)
      | complete batch worker now =>
        cases h
        obtain ⟨k, hk, rfl⟩ := List.mem_map.mp hj
        exact .inl ⟨k, hk, (completeRow_step batch worker now t k).same⟩
      | purgeDiscarded queue => cases h; exact .inl (hold (List.mem_filter.mp hj).1)
      | prune a => rw [limited_ok h] at hj; exact .inl (hold (List.mem_filter.mp hj).1)
      | pruneWorkflows => cases h; exact .inl (hold hj)
      | recordStep job name result now =>
        simp only [Stmt.effect, Tables.recordStep] at h
        split at h
        · cases h
        · split at h <;> cases h <;> exact .inl (hold hj)
      | enqueue new now => cases hins
      | insertUnique new key now => cases hins
      | _ => cases hs
    · rcases Stmt.effect_inserts hins h hj with hj | hnew
      · exact .inl (hold hj)
      · exact .inr (.inl hnew)

/-- A statement leaves the database as it was, or has one of the four forms. -/
theorem Db.exec_form (db : Db) (s : Stmt) :
    db.exec s = db ∨ Form s db.toTables (db.exec s).toTables :=
  (db.exec_cases s).imp_right (Stmt.effect_form db.ids_nodup)

theorem Db.exec_rows (db : Db) {s : Stmt} (hs : s.updatesRows = true) :
    db.exec s = db ∨ (db.exec s).toTables = db.toTables.mapJobs (s.rowMap db.toTables) :=
  (db.exec_cases s).imp_right (Stmt.effect_eq_mapJobs hs)

/-! ## What most statements leave alone -/

def Stmt.recordsStep : Stmt → Bool
  | .recordStep .. => true
  | _ => false

/-- The sequence of ids only grows, and `gylo_step` is touched by `RECORD_STEP` and by
deletions alone. -/
theorem Stmt.effect_frame {s : Stmt} {t t' : Tables} (h : s.effect t = .ok t') :
    t.jobSeq ≤ t'.jobSeq ∧ (s.deletes = false → s.recordsStep = false → t'.steps = t.steps) := by
  have hinsert : ∀ rows : List Job, t.jobSeq ≤ (t.insertJobs rows).jobSeq := fun rows =>
    Int.le_add_of_nonneg_right (Int.natCast_nonneg _)
  cases hrows : s.updatesRows with
  | true =>
    rw [Stmt.effect_eq_mapJobs hrows h]
    exact ⟨le_refl _, fun _ _ => rfl⟩
  | false =>
    cases s with
    | enqueue new now =>
      rw [storable_ok h]
      exact ⟨hinsert _, fun _ _ => rfl⟩
    | insertUnique new key now =>
      rw [storable_ok h]
      unfold Tables.insertUnique
      split
      · exact ⟨le_refl _, fun _ _ => rfl⟩
      · exact ⟨hinsert _, fun _ _ => rfl⟩
    | insertWorkflow flow now =>
      simp only [Stmt.effect, Tables.enqueueWorkflow] at h
      split at h
      · cases h
        exact ⟨le_refl _, fun _ _ => rfl⟩
      · rw [(insertWorkflow_ok h).2]
        exact ⟨hinsert _, fun _ _ => rfl⟩
    | fireCron name next now =>
      cases h
      unfold Tables.fireCron
      split
      · exact ⟨hinsert _, fun _ _ => rfl⟩
      · exact ⟨le_refl _, fun _ _ => rfl⟩
    | upsertCron entry =>
      rw [storable_ok h]
      unfold Tables.upsertCron
      split <;> exact ⟨le_refl _, fun _ _ => rfl⟩
    | recordStep job name result now =>
      simp only [Stmt.effect, Tables.recordStep] at h
      split at h
      · cases h
      · split at h <;> cases h <;> exact ⟨le_refl _, fun _ hrec => by cases hrec⟩
    | complete batch worker now =>
      cases h
      exact ⟨le_refl _, fun _ _ => rfl⟩
    | prune a =>
      rw [limited_ok h]
      exact ⟨le_refl _, fun hdel => by cases hdel⟩
    | purgeDiscarded queue =>
      cases h
      exact ⟨le_refl _, fun hdel => by cases hdel⟩
    | pruneWorkflows =>
      cases h
      exact ⟨le_refl _, fun hdel => by cases hdel⟩
    | _ => cases hrows

theorem Db.exec_steps (db : Db) {s : Stmt} (hdel : s.deletes = false) (hrec : s.recordsStep = false) :
    (db.exec s).steps = db.steps := by
  rcases db.exec_cases s with hsame | h
  · rw [hsame]
  · exact (Stmt.effect_frame h).2 hdel hrec

theorem Db.jobSeq_le_exec (db : Db) (s : Stmt) : db.jobSeq ≤ (db.exec s).jobSeq := by
  rcases db.exec_cases s with hsame | h
  · rw [hsame]
  · exact (Stmt.effect_frame h).1

/-- A row outlives every statement that is not a deletion. -/
theorem Db.exec_keeps (db : Db) {s : Stmt} (hdel : s.deletes = false) :
    ∀ j ∈ db.jobs, ∃ k ∈ (db.exec s).jobs, SameJob j k := by
  intro j hj
  rcases db.exec_form s with h | hform
  · rw [h]; exact ⟨j, hj, .refl j⟩
  · generalize (db.exec s).toTables = t' at hform ⊢
    cases hform with
    | rows step => exact ⟨_, List.mem_map_of_mem hj, (step j hj).same⟩
    | complete batch worker now stmt =>
      exact ⟨_, List.mem_map_of_mem hj, (completeRow_step batch worker now _ j).same⟩
    | insert rows es new jobs edges =>
      exact ⟨j, jobs ▸ List.mem_append_left _ hj, .refl j⟩
    | delete deletes jobs edges => rw [hdel] at deletes; cases deletes

end Gylo.Store
