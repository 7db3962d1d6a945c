import Gylo.Store.Dependencies
import Gylo.Store.Reclaim

/-! # Who may settle an attempt

`COMPLETE`, `RETRY_MANY` and `DISCARD_MANY` match a row by its id, by
`locked_by` and by `state = 'running'`; the attempt an outcome comes from is
not among the arguments. So an outcome is fenced against every other worker,
and against later attempts as long as its own worker has not leased the job
again. A history of the leases, newest first, says which attempt a running row
is on.

`RENEW` and `ABANDON` carry the same guard. What a report does to other rows,
the release of children and the recursive cancel, is not guarded by
`locked_by`; that it spares the rows other workers hold follows from the
dependency invariant. -/
namespace Gylo.Store.Fencing

open Gylo.Store Runs
open Gylo.Store.Dependencies (ParentOf Sound Unfinished mem_walk settledBy_running parents_completed sound_after)
open Gylo.Store.Reclaim (leasedRow oneLease)

/-! ## Leases, as history -/

/-- An attempt a worker was given to execute. -/
structure Lease where
  job : JobId
  worker : Uuid
  attempt : Int
deriving DecidableEq

structure History where
  db : Db
  leases : List Lease := []

/-- The leases a fetch statement grants. -/
def granted (t : Tables) : Stmt → List Lease
  | .fetchUnkeyed a => (t.lockedUnkeyed a).map fun j => ⟨j.id, a.worker, j.attempt + 1⟩
  | .fetchKeyed a => (t.admitted a t).map fun j => ⟨j.id, a.worker, j.attempt + 1⟩
  | _ => []

/-- Run a statement, recording what it leases if it is accepted. -/
def step (h : History) (s : Stmt) : History :=
  match h.db.run s with
  | .ok db => ⟨db, granted h.db.toTables s ++ h.leases⟩
  | .error _ => h

theorem step_db (h : History) (s : Stmt) : (step h s).db = h.db.exec s := by
  unfold step Db.exec
  cases h.db.run s <;> rfl

/-- `j` is on the attempt that was leased last. -/
def OnLease (leases : List Lease) (j : Job) (worker : Uuid) : Prop :=
  ∃ newer older, leases = newer ++ ⟨j.id, worker, j.attempt⟩ :: older ∧ ∀ l ∈ newer, l.job ≠ j.id

/-- Every running row is on the newest lease of its job, and locked by it. -/
def Tracked (h : History) : Prop :=
  ∀ j ∈ h.db.jobs, j.state = .running → ∃ w, j.lockedBy = some w ∧ OnLease h.leases j w

theorem OnLease.append {leases : List Lease} {j : Job} {w : Uuid} (h : OnLease leases j w)
    (more : List Lease) (hmore : ∀ l ∈ more, l.job ≠ j.id) : OnLease (more ++ leases) j w := by
  obtain ⟨newer, older, rfl, hnew⟩ := h
  refine ⟨more ++ newer, older, by rw [List.append_assoc], fun l hl => ?_⟩
  rcases List.mem_append.mp hl with hl | hl
  · exact hmore l hl
  · exact hnew l hl

/-- What a fetch leases is on its lease: of the rows it takes, only one has the
job's id. -/
theorem onLease_granted {db : Db} {a : Fetch} {chosen : List Job} (hsub : ∀ j ∈ chosen, j ∈ db.jobs)
    {j : Job} (hj : j ∈ chosen) (leases : List Lease) :
    OnLease (chosen.map (fun j => ⟨j.id, a.worker, j.attempt + 1⟩) ++ leases)
      (j.lease a.worker a.lease a.now) a.worker := by
  induction chosen with
  | nil => cases hj
  | cons x chosen ih =>
    by_cases hx : x.id = j.id
    · have hxj := db.eq_of_id (hsub x List.mem_cons_self) (hsub j hj) hx
      exact ⟨[], chosen.map (fun j => ⟨j.id, a.worker, j.attempt + 1⟩) ++ leases,
        by rw [hxj]; rfl, nofun⟩
    · have hj : j ∈ chosen := by
        rcases List.mem_cons.mp hj with rfl | hj
        · exact absurd rfl hx
        · exact hj
      have ih := ih (fun y hy => hsub y (List.mem_cons_of_mem _ hy)) hj
      exact ih.append [⟨x.id, a.worker, x.attempt + 1⟩] fun l hl => by
        rw [List.mem_singleton.mp hl]; exact hx

/-- A fetch keeps the history true. -/
theorem tracked_lease {h : History} (ht : Tracked h) {a : Fetch} {chosen : List Job}
    (hsub : ∀ j ∈ chosen, j ∈ h.db.jobs) {db' : Db}
    (hdb : db'.jobs = h.db.jobs.map (leaseRow a (chosen.map Job.id))) :
    Tracked ⟨db', chosen.map (fun j => ⟨j.id, a.worker, j.attempt + 1⟩) ++ h.leases⟩ := by
  intro k hk hrun
  simp only at hk
  rw [hdb] at hk
  obtain ⟨j, hj, rfl⟩ := List.mem_map.mp hk
  by_cases hin : j.id ∈ chosen.map Job.id
  · obtain ⟨x, hx, hid⟩ := List.mem_map.mp hin
    have hjc : j ∈ chosen := h.db.eq_of_id (hsub x hx) hj hid ▸ hx
    rw [leaseRow, if_pos hin]
    exact ⟨a.worker, rfl, onLease_granted hsub hjc h.leases⟩
  · rw [leaseRow, if_neg hin] at hrun ⊢
    obtain ⟨w, hw, hlease⟩ := ht j hj hrun
    refine ⟨w, hw, hlease.append _ fun l hl => ?_⟩
    obtain ⟨x, hx, rfl⟩ := List.mem_map.mp hl
    exact fun hid => hin (List.mem_map.mpr ⟨x, hx, hid⟩)

/-- A row that stays running through any other statement stays on its lease. -/
theorem running_of_rowStep {P : Job → Prop} {j k : Job} (hP : ¬ P j) (h : RowStep P j k)
    (hk : k.state = .running) :
    j.state = .running ∧ k.lockedBy = j.lockedBy ∧ k.attempt = j.attempt := by
  cases h with
  | refl => exact ⟨hk, rfl, rfl⟩
  | expireAt time running => exact ⟨running, rfl, rfl⟩
  | lease worker lease now due pick => exact absurd pick hP
  | reschedule delay error now running left => cases hk
  | release running left => cases hk
  | discard error now running => cases hk
  | cancel now waiting => cases hk
  | cascade now waiting => cases hk
  | requeue now dead => cases hk

theorem running_of_completeStep {j k : Job} (h : CompleteStep j k) (hk : k.state = .running) :
    j.state = .running ∧ k.lockedBy = j.lockedBy ∧ k.attempt = j.attempt := by
  cases h with
  | refl => exact ⟨hk, rfl, rfl⟩
  | complete result now running => cases hk
  | unblock n now => exact ⟨hk, rfl, rfl⟩

theorem tracked_of_rows {h : History} (ht : Tracked h) {db' : Db}
    (hrows : ∀ k ∈ db'.jobs, k.state = .running → ∃ j ∈ h.db.jobs, k.id = j.id ∧
      j.state = .running ∧ k.lockedBy = j.lockedBy ∧ k.attempt = j.attempt) :
    Tracked ⟨db', h.leases⟩ := by
  intro k hk hrun
  obtain ⟨j, hj, hid, hjrun, hlock, hatt⟩ := hrows k hk hrun
  obtain ⟨w, hw, hlease⟩ := ht j hj hjrun
  refine ⟨w, hlock.trans hw, ?_⟩
  unfold OnLease at hlease ⊢
  rw [hid, hatt]
  exact hlease

/-- Statements that lease nothing: what runs afterwards ran before, on the same lease. -/
theorem running_of_form {s : Stmt} (hs : ∀ j, ¬ s.Leases j) {t t' : Tables} (hform : Form s t t') {k : Job}
    (hk : k ∈ t'.jobs) (hrun : k.state = .running) : ∃ j ∈ t.jobs, k.id = j.id ∧
      j.state = .running ∧ k.lockedBy = j.lockedBy ∧ k.attempt = j.attempt := by
  cases hform with
  | rows step =>
    obtain ⟨j, hj, rfl⟩ := List.mem_map.mp hk
    exact ⟨j, hj, (step j hj).same.id, running_of_rowStep (hs j) (step j hj) hrun⟩
  | complete batch worker now stmt =>
    obtain ⟨j, hj, rfl⟩ := List.mem_map.mp hk
    have hstep := completeRow_step batch worker now t j
    exact ⟨j, hj, hstep.same.id, running_of_completeStep hstep hrun⟩
  | insert rows es new jobs edges =>
    rw [jobs] at hk
    rcases List.mem_append.mp hk with hk | hk
    · exact ⟨k, hk, rfl, hrun, rfl, rfl⟩
    · rw [new.state k hk] at hrun
      cases hrun
  | delete deletes jobs edges => exact ⟨k, jobs.mem hk, rfl, hrun, rfl, rfl⟩

theorem tracked_other {h : History} (ht : Tracked h) {s : Stmt} (hs : ∀ j, ¬ s.Leases j) {db' : Db}
    (hform : Form s h.db.toTables db'.toTables) : Tracked ⟨db', h.leases⟩ :=
  tracked_of_rows ht fun _ hk hrun => running_of_form hs hform hk hrun

theorem tracked_step (h : History) (s : Stmt) (ht : Tracked h) : Tracked (step h s) := by
  unfold step
  cases hrun : h.db.run s with
  | error e => exact ht
  | ok db' =>
    have hok := Db.run_ok hrun
    have hform := Stmt.effect_form h.db.ids_nodup hok
    cases s with
    | fetchUnkeyed a =>
      exact tracked_lease ht (fun j hj => (mem_lockedUnkeyed hj).1)
        (congrArg Tables.jobs (Stmt.effect_eq_mapJobs rfl hok))
    | fetchKeyed a =>
      exact tracked_lease ht (fun j hj => (mem_jobs_of_admitted hj).1)
        (congrArg Tables.jobs (Stmt.effect_eq_mapJobs rfl hok))
    | _ => exact tracked_other ht (fun _ => id) hform

theorem tracked_run (ss : List Stmt) : Tracked (run step ⟨Db.empty, []⟩ ss) :=
  run_inv tracked_step ss fun j hj => absurd hj (Db.not_mem_empty j)

/-! ## What an outcome settles -/

/-- A change that is due to another job of the batch, one the statement settles: `j` is
released as a child of a job that completes, or cancelled while it waits downstream of
one that is dead-lettered. -/
inductive Collateral (t : Tables) (j k : Job) : Stmt → Prop
  | released {batch : List (JobId × Option Bytes)} {worker : Uuid} {now : Time} {parent : JobId} {n : Nat}
      (settled : parent ∈ t.settledBy batch worker) (another : parent ≠ j.id) (edge : ParentOf t parent j.id)
      (row : k = j.unblock n now) : Collateral t j k (.complete batch worker now)
  | cancelled {batch : List (JobId × String)} {worker : Uuid} {now : Time} {dead : JobId}
      (settled : dead ∈ t.settledBy batch worker) (another : dead ≠ j.id)
      (path : Relation.TransGen (ParentOf t) dead j.id) (waits : j.state = .available)
      (row : k = j.cascade now) : Collateral t j k (.discardMany batch worker now)

section
variable {db : Db} {worker : Uuid} {now : Time} {j : Job}

/-- A row without an entry of its own is not among those the batch settles. -/
theorem ne_of_settledBy {β : Type} {batch : List (JobId × β)} (hj : j ∈ db.jobs)
    (hnone : batchEntry batch worker j = none) {id : JobId} (hid : id ∈ db.settledBy batch worker) : id ≠ j.id := by
  rintro rfl
  obtain ⟨i, hi, hsome, hij⟩ := mem_settledBy.mp hid
  rw [db.eq_of_id hi hj hij, hnone] at hsome
  cases hsome

theorem completeRow_held (batch : List (JobId × Option Bytes)) (hj : j ∈ db.jobs) :
    db.completeRow batch worker now j = j ∨
      Collateral db.toTables j (db.completeRow batch worker now j) (.complete batch worker now) ∨
      j.HeldBy worker := by
  unfold Tables.completeRow
  split
  · next result hb => exact .inr (.inr (heldBy_of_batchEntry hb))
  · next hnone =>
    dsimp only
    split
    · exact .inl rfl
    · next hcounted =>
      obtain ⟨e, he⟩ := List.exists_mem_of_ne_nil _ (List.ne_nil_of_length_pos (Nat.pos_of_ne_zero hcounted))
      obtain ⟨hedge, hboth⟩ := List.mem_filter.mp he
      obtain ⟨hchild, hparent⟩ := of_decide_eq_true hboth
      exact .inr (.inl (.released hparent (ne_of_settledBy hj hnone hparent) ⟨e, hedge, rfl, hchild⟩ rfl))

theorem retryRow_held (a : Retry) (j : Job) : retryRow a j = j ∨ j.HeldBy a.worker := by
  unfold retryRow
  split
  · next error hb => exact .inr (heldBy_of_batchEntry hb)
  · exact .inl rfl

theorem discardRow_held (batch : List (JobId × String)) (hj : j ∈ db.jobs) :
    db.discardRow batch worker now j = j ∨
      Collateral db.toTables j (db.discardRow batch worker now j) (.discardMany batch worker now) ∨
      j.HeldBy worker := by
  unfold Tables.discardRow
  split
  · next error hb => exact .inr (.inr (heldBy_of_batchEntry hb))
  · next hnone =>
    split
    · next hwalk =>
      obtain ⟨dead, hdead, hpath⟩ := mem_walk.mp hwalk.1
      exact .inr (.inl (.cancelled hdead (ne_of_settledBy hj hnone hdead) hpath hwalk.2 rfl))
    · exact .inl rfl
end

/-- The row a report changes is held by the worker that reports. -/
theorem report_held {db : Db} {s : Stmt} {w : Uuid} (hs : s.reporter = some w) {j k : Job}
    (hj : j ∈ db.jobs) (hk : k ∈ (db.exec s).jobs) (hid : k.id = j.id) :
    k = j ∨ Collateral db.toTables j k s ∨ j.HeldBy w := by
  have hmap : ∀ {f : Job → Job}, (∀ i, (f i).id = i.id) → k ∈ db.jobs.map f → k = f j := by
    intro f hf hk
    obtain ⟨i, hi, rfl⟩ := List.mem_map.mp hk
    rw [db.eq_of_id hi hj ((hf i).symm.trans hid)]
  rcases db.exec_cases s with hsame | heff
  · exact .inl (db.eq_of_id (hsame ▸ hk) hj hid)
  · cases s with
    | complete batch worker now =>
      cases hs
      rw [← Except.ok.inj heff] at hk
      rw [hmap (fun i => (completeRow_step batch w now _ i).same.id) hk]
      exact completeRow_held batch hj
    | retryMany a =>
      cases hs
      rw [Stmt.effect_eq_mapJobs rfl heff] at hk
      rw [hmap (fun i => (retryRow_step (P := fun _ => False) a i).same.id) hk]
      exact (retryRow_held a j).imp_right .inr
    | discardMany batch worker now =>
      cases hs
      rw [Stmt.effect_eq_mapJobs rfl heff] at hk
      rw [hmap (fun i => (discardRow_step (P := fun _ => False) batch w now _ i).same.id) hk]
      exact discardRow_held batch hj
    | _ => cases hs

/-- **Outcomes are fenced by worker.** Whenever a worker's report changes a job
other than through the other jobs of its batch, the job is running, locked by
that worker, on the attempt that was leased last; so no report settles an
attempt another worker was given, and the attempt it settles is the one whose
outcome it carries unless the worker has leased the job again since. -/
theorem outcome_fenced_by_worker (ss : List Stmt) (s : Stmt) (w : Uuid)
    (hs : s.reporter = some w) :
    ∀ j ∈ (run step ⟨Db.empty, []⟩ ss).db.jobs,
      ∀ k ∈ (step (run step ⟨Db.empty, []⟩ ss) s).db.jobs, k.id = j.id →
        k = j ∨ Collateral (run step ⟨Db.empty, []⟩ ss).db.toTables j k s ∨
        j.state = .running ∧ j.lockedBy = some w ∧
          ∃ newer older, (run step ⟨Db.empty, []⟩ ss).leases =
              newer ++ ⟨j.id, w, j.attempt⟩ :: older ∧
            (∀ l ∈ newer, l.job ≠ j.id) ∧
            ∀ a, ⟨j.id, w, a⟩ ∈ (run step ⟨Db.empty, []⟩ ss).leases →
              a = j.attempt ∨ ⟨j.id, w, a⟩ ∈ older := by
  have htracked := tracked_run ss
  generalize run step ⟨Db.empty, []⟩ ss = h at htracked
  intro j hj k hk hid
  rw [step_db] at hk
  rcases report_held hs hj hk hid with hsame | hother | hheld
  · exact .inl hsame
  · exact .inr (.inl hother)
  · obtain ⟨w', hw', newer, older, hleases, hnew⟩ := htracked j hj hheld.2
    cases hheld.1.symm.trans hw'
    refine .inr (.inr ⟨hheld.2, hheld.1, newer, older, hleases, hnew, fun a ha => ?_⟩)
    rw [hleases] at ha
    rcases List.mem_append.mp ha with ha | ha
    · exact absurd rfl (hnew _ ha)
    · rcases List.mem_cons.mp ha with ha | ha
      · cases ha; exact .inl rfl
      · exact .inr ha

/-- The outcome of a leased job, reported in time, settles the attempt it comes from. -/
theorem outcome_fenced_by_worker_once :
    leasedRow.state = .running ∧ leasedRow.lockedBy = some 7 ∧
      ∃ newer older, (run step ⟨Db.empty, []⟩ oneLease).leases = newer ++ ⟨1, 7, 1⟩ :: older ∧
        (∀ l ∈ newer, l.job ≠ 1) ∧
        ∀ a, ⟨1, 7, a⟩ ∈ (run step ⟨Db.empty, []⟩ oneLease).leases → a = 1 ∨ ⟨1, 7, a⟩ ∈ older := by
  have h := outcome_fenced_by_worker oneLease (.complete [(1, some [42])] 7 2) 7 rfl leasedRow
    (by decide) (leasedRow.complete (some [42]) 2) (by decide) rfl
  rcases h with h | h | h
  · exact absurd h (by decide)
  · cases h with
    | released settled another edge row =>
      have hstate : JobState.completed = JobState.running := congrArg Job.state row
      cases hstate
  · exact h

/-- Worker 7 loses the lease to a reclaim and takes the job again. -/
def leasedAgain : List Stmt :=
  oneLease ++ [.reclaim 100 [1] 40,
    .fetchUnkeyed { queues := ["default"], limit := 1, worker := 7, lease := 30, now := 41 }]

/-- The outcome of attempt 1, reported late, completes attempt 2. -/
theorem stale_outcome_settles :
    ⟨1, 7, 1⟩ ∈ (run step ⟨Db.empty, []⟩ leasedAgain).leases ∧
    (∃ j ∈ (run step ⟨Db.empty, []⟩ leasedAgain).db.jobs,
      j.id = 1 ∧ j.state = .running ∧ j.attempt = 2) ∧
    ∃ k ∈ (step (run step ⟨Db.empty, []⟩ leasedAgain) (.complete [(1, some [42])] 7 42)).db.jobs,
      k.id = 1 ∧ k.state = .completed ∧ k.result = some [42] ∧ k.attempt = 2 := by
  decide

/-! ## Leases of other workers -/

/-- The worker a statement compares `locked_by` with. -/
def holder : Stmt → Option Uuid
  | .renew _ worker _ _ => some worker
  | .abandon _ worker _ => some worker
  | s => s.reporter

/-- A running job has no parent among the rows a batch settles: those are
running, and its parents have completed. -/
theorem counted_running {db : Db} (h : Sound db.toTables) (batch : List (JobId × Option Bytes))
    (worker : Uuid) {j : Job} (hj : j ∈ db.jobs) (hrun : j.state = .running) :
    db.counted (db.settledBy batch worker) j.id = 0 := by
  refine List.length_eq_zero_iff.mpr (List.filter_eq_nil_iff.mpr fun e he hcount => ?_)
  obtain ⟨hchild, hdone⟩ := of_decide_eq_true hcount
  obtain ⟨p, hp, hid, hcompleted⟩ := parents_completed h hj (.inl hrun) he hchild
  obtain ⟨q, hq, hqid, hopen⟩ := settledBy_running hdone
  rw [db.eq_of_id hq hp (hqid.trans hid.symm)] at hopen
  exact hopen hcompleted

section
variable {db : Db} {worker : Uuid} {j : Job}

theorem batchEntry_other {β : Type} (batch : List (JobId × β)) (hother : ¬ j.HeldBy worker) :
    batchEntry batch worker j = none := if_neg hother

theorem completeRow_other (h : Sound db.toTables) (batch : List (JobId × Option Bytes)) (now : Time)
    (hj : j ∈ db.jobs) (hrun : j.state = .running) (hother : ¬ j.HeldBy worker) :
    db.completeRow batch worker now j = j := by
  simp only [Tables.completeRow, batchEntry_other batch hother,
    counted_running h batch worker hj hrun, if_true]

theorem retryRow_other {a : Retry} (hother : ¬ j.HeldBy a.worker) : retryRow a j = j :=
  (retryRow_held a j).resolve_right hother

/-- The recursive cancel takes waiting rows only. -/
theorem discardRow_other (t : Tables) (batch : List (JobId × String)) (now : Time)
    (hrun : j.state = .running) (hother : ¬ j.HeldBy worker) :
    t.discardRow batch worker now j = j := by
  simp [Tables.discardRow, batchEntry_other batch hother, hrun]

theorem expireRow_other (ids : List JobId) (time : Time) (hother : ¬ j.HeldBy worker) :
    expireRow ids worker time j = j := if_neg fun h => hother h.2

/-- A statement issued for `worker` keeps every running row it does not hold. -/
theorem exec_other {s : Stmt} (h : Sound db.toTables) (hs : holder s = some worker)
    (hj : j ∈ db.jobs) (hrun : j.state = .running) (hother : ¬ j.HeldBy worker) :
    j ∈ (db.exec s).jobs := by
  have hmap : ∀ {f : Job → Job}, (db.exec s).toTables = db.toTables.mapJobs f → f j = j →
      j ∈ (db.exec s).jobs := by
    intro f heq hf
    rw [heq]
    exact List.mem_map.mpr ⟨j, hj, hf⟩
  rcases db.exec_cases s with hsame | heff
  · rwa [hsame]
  · cases s with
    | complete batch w now =>
      cases hs
      exact hmap (Except.ok.inj heff).symm (completeRow_other h batch now hj hrun hother)
    | retryMany a =>
      cases hs
      exact hmap (Stmt.effect_eq_mapJobs rfl heff) (retryRow_other hother)
    | discardMany batch w now =>
      cases hs
      exact hmap (Stmt.effect_eq_mapJobs rfl heff) (discardRow_other _ batch now hrun hother)
    | renew ids w lease now =>
      cases hs
      exact hmap (Stmt.effect_eq_mapJobs rfl heff) (expireRow_other ids _ hother)
    | abandon ids w now =>
      cases hs
      exact hmap (Stmt.effect_eq_mapJobs rfl heff) (expireRow_other ids _ hother)
    | _ => cases hs
end

/-- **Leases of other workers are out of reach.** After any run, a `COMPLETE`,
`RETRY_MANY`, `DISCARD_MANY`, `RENEW` or `ABANDON` of one worker leaves the
whole row of every job another worker is running as it was, whatever ids,
errors and results it carries and whatever it releases or cancels besides. -/
theorem other_leases_undisturbed (ss : List Stmt) (s : Stmt) (w₁ w₂ : Uuid)
    (hs : holder s = some w₁) (hne : w₁ ≠ w₂) :
    ∀ j ∈ (Db.after ss).jobs, j.state = .running → j.lockedBy = some w₂ →
      ((Db.after ss).exec s).job? j.id = some j := by
  intro j hj hrun hlock
  have hother : ¬ j.HeldBy w₁ := by
    intro hheld
    exact hne (Option.some.inj (hheld.1.symm.trans hlock))
  exact (Db.job?_eq_some _).mpr ⟨exec_other (sound_after ss) hs hj hrun hother, rfl⟩

/-- Two jobs in a row, and two workers that lease what they can: worker 7 the
first job, worker 8 the second once the first is done. -/
def twoWorkers : List Stmt :=
  [.insertWorkflow
      { nodes := [{ task := "a" }, { task := "b" }, { task := "c" }], edges := [(0, 1), (0, 2)],
        distinct := by decide } 0,
    .fetchUnkeyed { queues := ["default"], limit := 1, worker := 7, lease := 30, now := 1 },
    .complete [(1, none)] 7 2,
    .fetchUnkeyed { queues := ["default"], limit := 1, worker := 8, lease := 30, now := 3 }]

/-- The second job as worker 8 holds it. -/
def secondRow : Job :=
  { id := 2, queue := "default", task := "b", state := .running, payload := [], attempt := 1,
    scheduledAt := ((2 : Int) : WithTop Int), startedAt := some 3, lockedBy := some 8,
    leaseExpiresAt := some 33, workflowId := some 1 }

/-- Worker 7 names the job worker 8 holds in a report, in vain. -/
theorem other_leases_undisturbed_discard :
    secondRow ∈ (Db.after twoWorkers).jobs ∧
      ((Db.after twoWorkers).exec (.discardMany [(1, "late"), (2, "late")] 7 4)).job? 2 =
        some secondRow :=
  ⟨by decide, other_leases_undisturbed twoWorkers (.discardMany [(1, "late"), (2, "late")] 7 4) 7 8
    rfl (by decide) secondRow (by decide) rfl rfl⟩

end Gylo.Store.Fencing
