import Gylo.Store.Stranding

/-! # Who is told when a job falls due

Workers listen on the channel `gylo_available`. Three statements speak on it: the
trigger of an insert names the queues of the rows that are due at once, `COMPLETE`
those of the children it released, and `RECLAIM` those of the jobs it took back. A
notification is sent when its transaction commits. Every other way to fall due is
silent: a delay that runs out, a dead letter that is requeued, and a retry without
a delay. -/
namespace Gylo.Store.Notifications

open Gylo.Store Gylo.Store.Dependencies Runs

/-! ## What a statement says -/

/-- `SELECT DISTINCT queue`. -/
def queuesOf (rows : List Job) : List String := (rows.map Job.queue).dedup

/-- `gylo_notify_available`, on the rows a statement inserted. -/
def insertedQueues (now : Time) (t t' : Tables) : List String :=
  queuesOf ((t'.jobs.drop t.jobs.length).filter fun j => j.scheduledAt ≤ (now : WithTop Time))

/-- `released` in `COMPLETE`, as it returns them. -/
def released (batch : List (JobId × Option Bytes)) (worker : Uuid) (now : Time) (t : Tables) : List Job :=
  (t.jobs.filter fun j => batchEntry batch worker j = none ∧
    t.counted (t.settledBy batch worker) j.id ≠ 0).map fun j =>
      j.unblock (t.counted (t.settledBy batch worker) j.id) now

/-- The statement is a `COMPLETE` and takes the last of the row's parents off it. -/
def Released (t : Tables) (s : Stmt) (j : Job) : Prop :=
  ∃ batch worker now, s = .complete batch worker now ∧ j ∈ released batch worker now t ∧ j.pendingDeps = 0

/-- `released` in `RECLAIM`. -/
def reclaimed (limit : Int) (visit : List JobId) (now : Time) (t : Tables) : List Job :=
  t.jobs.filter fun j => j.state = .running ∧
    ∃ e ∈ t.expired limit visit now, e.id = j.id ∧ e.exhausted = false

/-- The statements that insert into `gylo_job`. -/
def triggers : Stmt → Bool
  | .enqueue .. | .insertUnique .. | .insertWorkflow .. | .fireCron .. => true
  | _ => false

/-- The queues a statement that turns `t` into `t'` names on the channel. -/
def notifies (t t' : Tables) : Stmt → List String
  | .enqueue _ now | .insertUnique _ _ now | .insertWorkflow _ now | .fireCron _ _ now =>
    insertedQueues now t t'
  | .complete batch worker now =>
    queuesOf ((released batch worker now t).filter fun j => j.pendingDeps = 0)
  | .reclaim limit visit now => queuesOf (reclaimed limit visit now t)
  | _ => []

/-- What is heard of a statement: nothing, if it fails. -/
def announces (db : Db) (s : Stmt) : List String :=
  match db.run s with
  | .ok db' => notifies db.toTables db'.toTables s
  | .error _ => []

/-- The time a statement reads. -/
def time? : Stmt → Option Time
  | .enqueue _ now | .insertUnique _ _ now | .insertWorkflow _ now | .fireCron _ _ now
  | .complete _ _ now | .discardMany _ _ now | .cancel _ now | .reclaim _ _ now | .renew _ _ _ now
  | .abandon _ _ now | .retryDiscarded _ _ now | .recordStep _ _ _ now => some now
  | .fetchUnkeyed a | .fetchKeyed a => some a.now
  | .retryMany a => some a.now
  | .prune a => some a.now
  | .upsertCron _ | .purgeDiscarded _ | .pruneWorkflows => none

/-- The statement makes this row due without a word: an operator's retry, or a retry with
no delay. -/
def Silent (j : Job) : Stmt → Prop
  | .retryDiscarded ids queue _ =>
    j.state = .discarded ∧ Matches ids (fun l => j.id ∈ l) ∧ Matches queue (fun q => j.queue = q)
  | .retryMany a => (batchEntry a.batch a.worker j).isSome = true ∧ j.attempt < j.maxAttempts ∧
    jitter (backoff a.base a.cap j.attempt) (a.random j.id) = 0
  | _ => False

/-! ## Falling due -/

section
variable {db : Db} {s : Stmt} {queues : List String} {now : Time} {j : Job}

theorem mem_queuesOf {rows : List Job} (h : j ∈ rows) : j.queue ∈ queuesOf rows :=
  List.mem_dedup.mpr (List.mem_map_of_mem h)

theorem mem_insertedQueues {t t' : Tables} {rows : List Job} (hjobs : t'.jobs = t.jobs ++ rows)
    (hj : j ∈ rows) (hdue : j.Due queues now) : j.queue ∈ insertedQueues now t t' := by
  refine mem_queuesOf (List.mem_filter.mpr ⟨?_, decide_eq_true hdue.2.2⟩)
  rw [hjobs, List.drop_left]
  exact hj

/-- The statements with the trigger append rows that wait. -/
theorem triggers_append {t t' : Tables} (hform : Form s t t') (hs : triggers s = true) :
    ∃ rows, (∀ j ∈ rows, j.state = .available) ∧ t'.jobs = t.jobs ++ rows := by
  cases hform with
  | rows =>
    refine ⟨[], (fun j hj => by cases hj), ?_⟩
    cases s <;> first | (cases hs; done) | simp [Tables.mapJobs, Stmt.rowMap]
  | complete batch worker now stmt =>
    subst stmt
    cases hs
  | insert rows es new jobs => exact ⟨rows, new.state, jobs⟩
  | delete deletes => cases s <;> first | (cases hs; done) | cases deletes

theorem complete_due {batch : List (JobId × Option Bytes)} {worker : Uuid} {t : Tables} (hj : j ∈ t.jobs)
    (hdue : (t.completeRow batch worker now j).Due queues now) :
    j.Due queues now ∨ (t.completeRow batch worker now j).queue ∈
      queuesOf ((released batch worker now t).filter fun j => j.pendingDeps = 0) := by
  unfold Tables.completeRow at hdue ⊢
  split at hdue
  · cases hdue.1
  · next hentry =>
    dsimp only at hdue ⊢
    split at hdue
    · exact .inl hdue
    · next hn =>
      rw [if_neg hn]
      by_cases hzero : (j.unblock (t.counted (t.settledBy batch worker) j.id) now).pendingDeps = 0
      · refine .inr (mem_queuesOf (List.mem_filter.mpr ⟨?_, decide_eq_true hzero⟩))
        exact List.mem_map_of_mem (List.mem_filter.mpr ⟨hj, decide_eq_true ⟨hentry, hn⟩⟩)
      · -- a parent is still to come, so the row is scheduled as it was
        have hsame : (j.unblock (t.counted (t.settledBy batch worker) j.id) now).scheduledAt = j.scheduledAt :=
          if_neg hzero
        rw [Job.Due, hsame] at hdue
        exact .inl hdue

theorem reclaim_due {limit : Int} {visit : List JobId} {t : Tables} (hj : j ∈ t.jobs)
    (hdue : (reclaimRow (t.expired limit visit now) now j).Due queues now) :
    j.Due queues now ∨
      (reclaimRow (t.expired limit visit now) now j).queue ∈ queuesOf (reclaimed limit visit now t) := by
  unfold reclaimRow at hdue ⊢
  split at hdue
  · next e he =>
    split at hdue
    · next hrun =>
      split at hdue
      · cases hdue.1
      · next hleft =>
        rw [if_pos hrun, if_neg hleft]
        refine .inr (mem_queuesOf (j := j) (List.mem_filter.mpr ⟨hj, decide_eq_true ⟨hrun, e, ?_⟩⟩))
        exact ⟨List.mem_of_find?_eq_some he, by simpa using List.find?_some he, by simpa using hleft⟩
    · exact .inl hdue
  · exact .inl hdue

/-- The other row updates make nothing due, or do so silently. -/
theorem rowMap_due {t : Tables} (hnow : ∀ time ∈ time? s, time = now) (hj : j ∈ t.jobs)
    (hdue : (s.rowMap t j).Due queues now) :
    j.Due queues now ∨ Silent j s ∨ (s.rowMap t j).queue ∈ notifies t (t.mapJobs (s.rowMap t)) s := by
  cases s with
  | fetchUnkeyed a | fetchKeyed a =>
    simp only [Stmt.rowMap, leaseRow] at hdue
    split at hdue
    · cases hdue.1
    · exact .inl hdue
  | retryMany a =>
    cases hnow a.now rfl
    simp only [Stmt.rowMap, retryRow] at hdue
    split at hdue
    · next error hentry =>
      split at hdue
      · next hleft =>
        -- a delay of at least a microsecond is not over yet
        have hdelay := Int.le_of_add_le_add_left (Int.le_trans (WithTop.coe_le_coe.mp hdue.2.2)
          (Int.le_of_eq (Int.add_zero a.now).symm))
        exact .inr (.inl ⟨by rw [hentry]; rfl, hleft,
          Int.ofNat_eq_zero.mp (Int.le_antisymm hdelay (Int.natCast_nonneg _))⟩)
      · cases hdue.1
    · exact .inl hdue
  | discardMany batch worker time =>
    simp only [Stmt.rowMap, Tables.discardRow] at hdue
    repeat' split at hdue
    · cases hdue.1
    · cases hdue.1
    · exact .inl hdue
  | cancel ids time =>
    simp only [Stmt.rowMap, cancelRow] at hdue
    split at hdue
    · cases hdue.1
    · exact .inl hdue
  | reclaim limit visit time =>
    cases hnow time rfl
    exact (reclaim_due hj hdue).imp_right .inr
  | renew ids worker lease time | abandon ids worker time =>
    simp only [Stmt.rowMap, expireRow] at hdue
    split at hdue
    · exact .inl hdue
    · exact .inl hdue
  | retryDiscarded ids queue time =>
    simp only [Stmt.rowMap, requeueRow] at hdue
    split at hdue
    · next hselected => exact .inr (.inl hselected)
    · exact .inl hdue
  | _ => exact .inl hdue

/-- The row was due before the statement, or becomes due silently. -/
def DueBefore (t : Tables) (s : Stmt) (queues : List String) (now : Time) (j : Job) : Prop :=
  ∃ k ∈ t.jobs, k.id = j.id ∧ k.concurrencyKey = j.concurrencyKey ∧ (k.Due queues now ∨ Silent k s)

theorem DueBefore.of_mem {t : Tables} (hj : j ∈ t.jobs) (hdue : j.Due queues now) : DueBefore t s queues now j :=
  ⟨j, hj, rfl, rfl, .inl hdue⟩

theorem effect_due {t t' : Tables} (hnd : (t.jobs.map Job.id).Nodup) (heff : s.effect t = .ok t')
    (hnow : ∀ time ∈ time? s, time = now) (hj : j ∈ t'.jobs) (hdue : j.Due queues now) :
    DueBefore t s queues now j ∨ j.queue ∈ notifies t t' s := by
  by_cases hrows : s.updatesRows = true
  · have ht := Stmt.effect_eq_mapJobs hrows heff
    subst ht
    obtain ⟨k, hk, rfl⟩ := List.mem_map.mp hj
    have hsame := (s.rowMap_step hnd k hk).same
    rcases rowMap_due hnow hk hdue with hbefore | hsilent | hsaid
    · exact .inl ⟨k, hk, hsame.id.symm, hsame.concurrencyKey.symm, .inl hbefore⟩
    · exact .inl ⟨k, hk, hsame.id.symm, hsame.concurrencyKey.symm, .inr hsilent⟩
    · exact .inr hsaid
  by_cases htrigger : triggers s = true
  · obtain ⟨rows, -, hjobs⟩ := triggers_append (Stmt.effect_form hnd heff) htrigger
    rw [hjobs] at hj
    rcases List.mem_append.mp hj with hold | hnew
    · exact .inl (.of_mem hold hdue)
    · have hsaid : j.queue ∈ insertedQueues now t t' := mem_insertedQueues hjobs hnew hdue
      refine .inr ?_
      cases s <;> first | (cases htrigger; done) | (cases hnow _ rfl; exact hsaid)
  cases s with
  | upsertCron entry =>
    cases storable_ok heff
    unfold Tables.upsertCron at hj
    split at hj <;> exact .inl (.of_mem hj hdue)
  | complete batch worker time =>
    cases hnow time rfl
    cases heff
    obtain ⟨k, hk, rfl⟩ := List.mem_map.mp hj
    have hsame := (completeRow_step batch worker now t k).same
    exact (complete_due hk hdue).imp_left
      fun hbefore => ⟨k, hk, hsame.id.symm, hsame.concurrencyKey.symm, .inl hbefore⟩
  | purgeDiscarded queue =>
    cases heff
    exact .inl (.of_mem (List.mem_filter.mp hj).1 hdue)
  | prune a =>
    rw [limited_ok heff] at hj
    exact .inl (.of_mem (List.mem_filter.mp hj).1 hdue)
  | pruneWorkflows =>
    cases heff
    exact .inl (.of_mem hj hdue)
  | recordStep id name result time =>
    simp only [Stmt.effect, Tables.recordStep] at heff
    repeat' split at heff
    all_goals cases heff
    all_goals exact .inl (.of_mem hj hdue)
  | enqueue | insertUnique | insertWorkflow | fireCron => exact absurd rfl htrigger
  | _ => exact absurd rfl hrows

theorem exec_due (hnow : ∀ time ∈ time? s, time = now) (hj : j ∈ (db.exec s).jobs) (hdue : j.Due queues now) :
    DueBefore db.toTables s queues now j ∨ j.queue ∈ announces db s := by
  unfold Db.exec at hj
  unfold announces
  cases hrun : db.run s with
  | error e =>
    rw [hrun] at hj
    exact .inl (.of_mem hj hdue)
  | ok db' =>
    rw [hrun] at hj
    exact effect_due db.ids_nodup (Db.run_ok hrun) hnow hj hdue

/-! ## Being told for a reason -/

theorem of_mem_queuesOf {rows : List Job} {q : String} (h : q ∈ queuesOf rows) : ∃ j ∈ rows, j.queue = q :=
  List.mem_map.mp (List.mem_dedup.mp h)

/-- A row whose last parents complete waits, unless it was cancelled while it waited. -/
theorem released_waits {batch : List (JobId × Option Bytes)} {worker : Uuid} (hsound : Sound db.toTables)
    (hj : j ∈ released batch worker now db.toTables) (hzero : j.pendingDeps = 0) :
    j ∈ (db.complete batch worker now).jobs ∧ (j.state = .available ∨ j.state = .cancelled) := by
  obtain ⟨k, hk, rfl⟩ := List.mem_map.mp hj
  obtain ⟨hk, hcond⟩ := List.mem_filter.mp hk
  obtain ⟨hentry, hn⟩ := of_decide_eq_true hcond
  constructor
  · refine List.mem_map.mpr ⟨k, hk, ?_⟩
    simp only [Tables.completeRow, hentry, if_neg hn]
  · -- a job that was leased has no parent left to wait for
    have hstarted : ¬ Started k.state := by
      intro hs
      have hnone := (hsound k hk).started hs
      have hzero : k.pendingDeps - (db.counted (db.settledBy batch worker) k.id : Int) = 0 := hzero
      omega
    show k.state = .available ∨ k.state = .cancelled
    cases hstate : k.state with
    | available => exact .inl rfl
    | cancelled => exact .inr rfl
    | running => exact absurd (.inl hstate) hstarted
    | completed => exact absurd (.inr (.inl hstate)) hstarted
    | discarded => exact absurd (.inr (.inr hstate)) hstarted

theorem reclaimed_waits {limit : Int} {visit : List JobId} (hj : j ∈ reclaimed limit visit now db.toTables) :
    j.release ∈ (db.reclaim limit visit now).jobs := by
  obtain ⟨hj, hcond⟩ := List.mem_filter.mp hj
  obtain ⟨hrun, e, he, hid, hleft⟩ := of_decide_eq_true hcond
  -- every entry with its id was made from the row itself
  have hmade : ∀ e ∈ db.expired limit visit now, e.id = j.id →
      e = ⟨j.id, j.queue, j.maxAttempts ≤ j.attempt⟩ := by
    intro e he hid
    obtain ⟨k, hk, -, rfl⟩ := mem_expired he
    cases db.eq_of_id hk hj hid
    rfl
  refine List.mem_map.mpr ⟨j, hj, ?_⟩
  unfold reclaimRow
  split
  · next e' he' =>
    have hsame : e' = e := (hmade e' (List.mem_of_find?_eq_some he') (by simpa using List.find?_some he')).trans
      (hmade e he hid).symm
    rw [if_pos hrun, hsame, hleft]
    rfl
  · next hnone => exact absurd hid (by simpa using List.find?_eq_none.mp hnone e he)

theorem inserted_waits {t t' : Tables} {q : String} {rows : List Job}
    (hstate : ∀ j ∈ rows, j.state = .available) (hjobs : t'.jobs = t.jobs ++ rows)
    (hq : q ∈ insertedQueues now t t') : ∃ j ∈ t'.jobs, j.queue = q ∧ j.state = .available := by
  obtain ⟨j, hj, hqueue⟩ := of_mem_queuesOf hq
  have hnew := (List.mem_filter.mp hj).1
  rw [hjobs, List.drop_left] at hnew
  refine ⟨j, ?_, hqueue, hstate j hnew⟩
  rw [hjobs]
  exact List.mem_append_right _ hnew

theorem notifies_waits {t' : Tables} {q : String} (hsound : Sound db.toTables)
    (heff : s.effect db.toTables = .ok t') (hq : q ∈ notifies db.toTables t' s) :
    ∃ j ∈ t'.jobs, j.queue = q ∧
      (j.state = .available ∨ j.state = .cancelled ∧ Released db.toTables s j) := by
  cases s with
  | enqueue | insertUnique | insertWorkflow | fireCron =>
    obtain ⟨rows, hstate, hjobs⟩ := triggers_append (Stmt.effect_form db.ids_nodup heff) rfl
    obtain ⟨j, hj, hqueue, hwaits⟩ := inserted_waits hstate hjobs hq
    exact ⟨j, hj, hqueue, .inl hwaits⟩
  | complete batch worker now =>
    cases heff
    obtain ⟨j, hj, hqueue⟩ := of_mem_queuesOf hq
    obtain ⟨hreleased, hzero⟩ := List.mem_filter.mp hj
    replace hzero := of_decide_eq_true hzero
    obtain ⟨hthere, hstate⟩ := released_waits hsound hreleased hzero
    exact ⟨j, hthere, hqueue,
      hstate.imp_right fun hcancelled => ⟨hcancelled, batch, worker, now, rfl, hreleased, hzero⟩⟩
  | reclaim limit visit now =>
    rw [limited_ok heff]
    obtain ⟨j, hj, hqueue⟩ := of_mem_queuesOf hq
    exact ⟨j.release, reclaimed_waits hj, hqueue, .inl rfl⟩
  | _ => cases hq

theorem notifies_nodup (t t' : Tables) (s : Stmt) : (notifies t t' s).Nodup := by
  cases s <;> first | exact List.nodup_dedup _ | exact List.nodup_nil
end

/-- **A job that falls due is announced.** Whatever the database holds and whatever
statement is executed on it: a job that is due afterwards was due before, or its
queue is named on the channel, or it is one of the two the statement made due
silently. Each queue is named once, and only if it has a job that waits now, or one
that was cancelled before the statement completed the last of its parents. -/
theorem due_jobs_announced (ss : List Stmt) (s : Stmt) (now : Time) (hnow : ∀ time ∈ time? s, time = now) :
    (∀ j ∈ ((Db.after ss).exec s).jobs, ∀ queues, j.Due queues now →
      DueBefore (Db.after ss).toTables s queues now j ∨ j.queue ∈ announces (Db.after ss) s) ∧
    (announces (Db.after ss) s).Nodup ∧
    ∀ q ∈ announces (Db.after ss) s, ∃ j ∈ ((Db.after ss).exec s).jobs, j.queue = q ∧
      (j.state = .available ∨ j.state = .cancelled ∧ Released (Db.after ss).toTables s j) := by
  refine ⟨fun j hj queues hdue => exec_due hnow hj hdue, ?_⟩
  unfold announces Db.exec
  cases hrun : (Db.after ss).run s with
  | error e => exact ⟨List.nodup_nil, fun q hq => by cases hq⟩
  | ok db' =>
    exact ⟨notifies_nodup _ _ s, fun q hq => notifies_waits (sound_after ss) (Db.run_ok hrun) hq⟩

/-- The first of two jobs in a chain is leased. -/
def parentLeased : List Stmt :=
  [.insertWorkflow Stranding.chain 0,
    .fetchUnkeyed { queues := ["default"], limit := 1, worker := 7, lease := 30, now := 1 }]

theorem due_jobs_announced_chain : "default" ∈ announces (Db.after parentLeased) (.complete [(1, none)] 7 2) ∧
    ∃ j ∈ ((Db.after parentLeased).exec (.complete [(1, none)] 7 2)).jobs, j.queue = "default" ∧
      (j.state = .available ∨ j.state = .cancelled ∧
        Released (Db.after parentLeased).toTables (.complete [(1, none)] 7 2) j) := by
  have hsaid : "default" ∈ announces (Db.after parentLeased) (.complete [(1, none)] 7 2) := by decide
  have hnow : ∀ time ∈ time? (.complete [(1, none)] 7 2), time = 2 :=
    fun time htime => (Option.mem_some.mp htime).symm
  exact ⟨hsaid, (due_jobs_announced parentLeased _ 2 hnow).2.2 "default" hsaid⟩

end Gylo.Store.Notifications
