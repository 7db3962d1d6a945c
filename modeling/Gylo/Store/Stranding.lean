import Gylo.Store.Dependencies

/-! # Jobs left waiting for a parent that will never finish

`DISCARD_MANY` cancels everything downstream of the jobs it dead-letters. The
three other statements that end a job short of completion do not: a retry that
finds no attempts left, a reclaim that finds none, and an explicit cancel all
leave the children where they are. A run in which those three never hit a job
that another one waits for keeps the promise of the cascade. The cascade itself
takes exactly what is downstream, cycles included. -/
namespace Gylo.Store.Stranding

open Gylo.Store Gylo.Store.Dependencies Runs

/-! ## Stranded jobs -/

/-- Ended without completing. -/
def Dead (j : Job) : Prop := j.state = .discarded ∨ j.state = .cancelled

/-- Parked behind a parent. -/
def Waiting (j : Job) : Prop := j.state = .available ∧ 0 < j.pendingDeps

/-- Waiting for a parent that is dead. -/
def Stranded (t : Tables) (j : Job) : Prop :=
  Waiting j ∧ ∃ e ∈ t.edges, e.child = j.id ∧ ∃ p ∈ t.jobs, p.id = e.parent ∧ Dead p

/-- Some job waits for `p`. -/
def Awaited (t : Tables) (p : JobId) : Prop :=
  ∃ e ∈ t.edges, e.parent = p ∧ ∃ c ∈ t.jobs, c.id = e.child ∧ Waiting c

instance (j : Job) : Decidable (Dead j) := inferInstanceAs (Decidable (_ ∨ _))

instance (j : Job) : Decidable (Waiting j) := inferInstanceAs (Decidable (_ ∧ _))

instance (t : Tables) (j : Job) : Decidable (Stranded t j) :=
  inferInstanceAs (Decidable (_ ∧ ∃ e ∈ t.edges, _ ∧ ∃ p ∈ t.jobs, _))

instance (t : Tables) (p : JobId) : Decidable (Awaited t p) :=
  inferInstanceAs (Decidable (∃ e ∈ t.edges, _ ∧ ∃ c ∈ t.jobs, _))

def NoneStranded (t : Tables) : Prop := ∀ j ∈ t.jobs, ¬ Stranded t j

/-- What keeps a statement from stranding anything: a retry or a reclaim
exhausts no awaited job, and a cancel names every job that waits for one it
names. -/
def Spares (t : Tables) : Stmt → Prop
  | .retryMany a => ∀ j ∈ t.jobs, (batchEntry a.batch a.worker j).isSome →
      j.maxAttempts ≤ j.attempt → ¬ Awaited t j.id
  | .reclaim limit visit now => ∀ e ∈ t.expired limit visit now, e.exhausted = true → ¬ Awaited t e.id
  | .cancel ids _ => ∀ j ∈ t.jobs, j.id ∈ ids → j.state = .available →
      ∀ e ∈ t.edges, e.parent = j.id → ∀ c ∈ t.jobs, c.id = e.child → Waiting c → c.id ∈ ids
  | _ => True

instance (t : Tables) : (s : Stmt) → Decidable (Spares t s)
  | .retryMany a => inferInstanceAs (Decidable (∀ j ∈ t.jobs,
      (batchEntry a.batch a.worker j).isSome → j.maxAttempts ≤ j.attempt → ¬ Awaited t j.id))
  | .reclaim limit visit now => inferInstanceAs (Decidable (∀ e ∈ t.expired limit visit now,
      e.exhausted = true → ¬ Awaited t e.id))
  | .cancel ids _ => inferInstanceAs (Decidable (∀ j ∈ t.jobs, j.id ∈ ids → j.state = .available →
      ∀ e ∈ t.edges, e.parent = j.id → ∀ c ∈ t.jobs, c.id = e.child → Waiting c → c.id ∈ ids))
  | .enqueue .. | .insertUnique .. | .insertWorkflow .. | .fireCron .. | .upsertCron .. => isTrue trivial
  | .fetchUnkeyed .. | .fetchKeyed .. | .complete .. | .discardMany .. => isTrue trivial
  | .renew .. | .abandon .. | .retryDiscarded .. | .purgeDiscarded .. => isTrue trivial
  | .prune .. | .pruneWorkflows | .recordStep .. => isTrue trivial

/-! ## Which rows a statement kills -/

theorem dead_leaseRow {a : Fetch} {chosen : List JobId} {j : Job} (h : Dead (leaseRow a chosen j)) :
    Dead j := by
  unfold leaseRow at h
  split at h
  · simp [Dead, Job.lease] at h
  · exact h

theorem dead_expireRow {ids : List JobId} {worker : Uuid} {time : Time} {j : Job}
    (h : Dead (expireRow ids worker time j)) : Dead j := by
  unfold expireRow at h
  split at h <;> exact h

theorem dead_requeueRow {ids : Option (List JobId)} {queue : Option String} {now : Time} {j : Job}
    (h : Dead (requeueRow ids queue now j)) : Dead j := by
  unfold requeueRow at h
  split at h
  · simp [Dead, Job.requeue] at h
  · exact h

theorem dead_retryRow {a : Retry} {j : Job} (h : Dead (retryRow a j)) (hnew : ¬ Dead j) :
    (batchEntry a.batch a.worker j).isSome ∧ j.maxAttempts ≤ j.attempt := by
  unfold retryRow at h
  cases hb : batchEntry a.batch a.worker j with
  | none => rw [hb] at h; exact absurd h hnew
  | some error =>
    rw [hb] at h
    dsimp only at h
    split at h
    · simp [Dead, Job.reschedule] at h
    · exact ⟨rfl, by omega⟩

theorem dead_cancelRow {ids : List JobId} {now : Time} {j : Job} (h : Dead (cancelRow ids now j))
    (hnew : ¬ Dead j) : j.id ∈ ids ∧ j.state = .available := by
  unfold cancelRow at h
  split at h
  · assumption
  · exact absurd h hnew

theorem dead_reclaimRow {expired : List Expired} {now : Time} {j : Job}
    (h : Dead (reclaimRow expired now j)) (hnew : ¬ Dead j) :
    ∃ e ∈ expired, e.id = j.id ∧ e.exhausted = true := by
  unfold reclaimRow at h
  split at h
  · next e he =>
    split at h
    · split at h
      · next hout => exact ⟨e, List.mem_of_find?_eq_some he, by simpa using List.find?_some he, hout⟩
      · simp [Dead, Job.release] at h
    · exact absurd h hnew
  · exact absurd h hnew

/-- What `DISCARD_MANY` kills is a root of its walk or on it. -/
theorem dead_discardRow {t : Tables} {batch : List (JobId × String)} {worker : Uuid} {now : Time}
    {j : Job} (hj : j ∈ t.jobs) (h : Dead (t.discardRow batch worker now j)) (hnew : ¬ Dead j) :
    j.id ∈ t.settledBy batch worker ∨ j.id ∈ t.walk (t.settledBy batch worker) := by
  unfold Tables.discardRow at h
  cases hb : batchEntry batch worker j with
  | some error => exact .inl (mem_settledBy.mpr ⟨j, hj, by rw [hb]; rfl, rfl⟩)
  | none =>
    rw [hb] at h
    dsimp only at h
    split at h
    · next hwalk => exact .inr hwalk.1
    · exact absurd h hnew

/-- The children of a job on the walk are on the walk. -/
theorem walk_child {t : Tables} {roots : List JobId} {e : Edge} (he : e ∈ t.edges)
    (h : e.parent ∈ roots ∨ e.parent ∈ t.walk roots) : e.child ∈ t.walk roots := by
  have hedge : ParentOf t e.parent e.child := ⟨e, he, rfl, rfl⟩
  rcases h with h | h
  · exact mem_walk.mpr ⟨_, h, .single hedge⟩
  · obtain ⟨a, ha, hpath⟩ := mem_walk.mp h
    exact mem_walk.mpr ⟨a, ha, hpath.tail hedge⟩

theorem discardRow_walk {t : Tables} {batch : List (JobId × String)} {worker : Uuid} {now : Time}
    {c : Job} (hc : c.state = .available) (h : c.id ∈ t.walk (t.settledBy batch worker)) :
    (t.discardRow batch worker now c).state = .cancelled := by
  have hb : batchEntry batch worker c = none := by
    unfold batchEntry
    rw [if_neg]
    intro hheld
    rw [hheld.2] at hc
    cases hc
  unfold Tables.discardRow
  rw [hb]
  dsimp only
  rw [if_pos ⟨h, hc⟩]
  rfl

/-- A statement that spares the awaited jobs leaves no job waiting for one it
kills. -/
theorem kills_unawaited {t : Tables} {s : Stmt}
    (hs : Spares t s) {p : Job} (hp : p ∈ t.jobs) (hnew : ¬ Dead p) (hdead : Dead (s.rowMap t p))
    {e : Edge} (he : e ∈ t.edges) (hpe : e.parent = p.id) {c : Job} (hc : c ∈ t.jobs)
    (hce : c.id = e.child) (hw : Waiting c) : ¬ Waiting (s.rowMap t c) := by
  have hawait : Awaited t p.id := ⟨e, he, hpe, c, hc, hce, hw⟩
  cases s with
  | fetchUnkeyed a => exact absurd (dead_leaseRow hdead) hnew
  | fetchKeyed a => exact absurd (dead_leaseRow hdead) hnew
  | renew ids worker lease now => exact absurd (dead_expireRow hdead) hnew
  | abandon ids worker now => exact absurd (dead_expireRow hdead) hnew
  | retryDiscarded ids queue now => exact absurd (dead_requeueRow hdead) hnew
  | retryMany a =>
    obtain ⟨hsome, hout⟩ := dead_retryRow hdead hnew
    exact absurd hawait (hs p hp hsome hout)
  | reclaim limit visit now =>
    obtain ⟨e, he, hid, hout⟩ := dead_reclaimRow hdead hnew
    exact absurd (hid ▸ hawait) (hs e he hout)
  | cancel ids now =>
    obtain ⟨hmem, havail⟩ := dead_cancelRow hdead hnew
    have hcid := hs p hp hmem havail e he hpe c hc hce hw
    intro hw'
    have hst : (cancelRow ids now c).state = .cancelled := by
      unfold cancelRow
      rw [if_pos ⟨hcid, hw.1⟩]
      rfl
    exact absurd (hst.symm.trans hw'.1) (by decide)
  | discardMany batch worker now =>
    have hwalk : c.id ∈ t.walk (t.settledBy batch worker) := by
      rw [hce]
      exact walk_child he (hpe ▸ dead_discardRow hp hdead hnew)
    intro hw'
    exact absurd ((discardRow_walk hw.1 hwalk).symm.trans hw'.1) (by decide)
  | _ => exact absurd hdead hnew

/-! ## Steps and runs -/

/-- Only a row that was waiting before is waiting afterwards: whatever else
comes back to `available` has nothing pending. -/
theorem waiting_of_rowStep {P : Job → Prop} {t : Tables} {j k : Job} (hj : RowDeps t j)
    (h : RowStep P j k) (hk : Waiting k) : Waiting j := by
  have hpend : 0 < j.pendingDeps := h.pendingDeps ▸ hk.2
  cases h with
  | refl => exact hk
  | lease worker lease now due pick => exact ⟨due.1, hpend⟩
  | reschedule delay error now running left => have := hj.started (.inl running); omega
  | release running left => have := hj.started (.inl running); omega
  | discard error now running => have := hj.started (.inl running); omega
  | cancel now waiting => exact ⟨waiting, hpend⟩
  | cascade now waiting => exact ⟨waiting, hpend⟩
  | expireAt time running => have := hj.started (.inl running); omega
  | requeue now dead => have := hj.started (.inr (.inr dead)); omega

theorem noneStranded_rows {t : Tables} (hsound : Sound t)
    (h : NoneStranded t) {s : Stmt} (hs : Spares t s)
    (step : ∀ j ∈ t.jobs, RowStep s.Leases j (s.rowMap t j)) :
    NoneStranded (t.mapJobs (s.rowMap t)) := by
  intro k hk hstranded
  obtain ⟨c, hc, rfl⟩ := List.mem_map.mp hk
  obtain ⟨hw', e, he, hce, q, hq, hpe, hdead⟩ := hstranded
  obtain ⟨p, hp, rfl⟩ := List.mem_map.mp hq
  rw [(step c hc).same.id] at hce
  rw [(step p hp).same.id] at hpe
  have hw := waiting_of_rowStep (hsound c hc) (step c hc) hw'
  by_cases hold : Dead p
  · exact h c hc ⟨hw, e, he, hce, p, hp, hpe, hold⟩
  · exact kills_unawaited hs hp hold hdead he hpe.symm hc hce.symm hw hw'

theorem noneStranded_complete {t : Tables} (h : NoneStranded t)
    (batch : List (JobId × Option Bytes)) (worker : Uuid) (now : Time) :
    NoneStranded (t.complete batch worker now) := by
  intro k hk hstranded
  obtain ⟨c, hc, rfl⟩ := List.mem_map.mp hk
  obtain ⟨hw', e, he, hce, q, hq, hpe, hdead⟩ := hstranded
  obtain ⟨p, hp, rfl⟩ := List.mem_map.mp hq
  have hcstep := completeRow_step batch worker now t c
  have hpstep := completeRow_step batch worker now t p
  rw [hcstep.same.id] at hce
  rw [hpstep.same.id] at hpe
  refine h c hc ⟨?_, e, he, hce, p, hp, hpe, ?_⟩
  · have hle := hcstep.pendingDeps_le
    refine ⟨?_, lt_of_lt_of_le hw'.2 hle⟩
    generalize t.completeRow batch worker now c = k at hcstep hw'
    cases hcstep with
    | refl => exact hw'.1
    | complete result now running => cases hw'.1
    | unblock n now => exact hw'.1
  · generalize t.completeRow batch worker now p = k at hpstep hdead
    cases hpstep with
    | refl => exact hdead
    | complete result now running => simp [Dead, Job.complete] at hdead
    | unblock n now => exact hdead

theorem noneStranded_insert {db : Db} (h : NoneStranded db.toTables) {t' : Tables}
    {rows : List Job} {es : List Edge} (new : NewRows db.toTables rows es)
    (jobs : t'.jobs = db.jobs ++ rows) (edges : t'.edges = db.edges ++ es) : NoneStranded t' := by
  intro j hj hstranded
  obtain ⟨hw, e, he, hce, p, hp, hpe, hdead⟩ := hstranded
  rw [jobs] at hj hp
  rw [edges] at he
  -- a dead parent is not a new row, so its edges are not new either
  have hp : p ∈ db.jobs := by
    rcases List.mem_append.mp hp with hp | hp
    · exact hp
    · have hst := new.state p hp
      simp [Dead, hst] at hdead
  have hle : p.id ≤ db.jobSeq := (db.valid .identity).1 p.id (List.mem_map_of_mem hp)
  have he : e ∈ db.edges := by
    rcases List.mem_append.mp he with he | he
    · exact he
    · obtain ⟨q, hq, hid⟩ := List.mem_map.mp (new.ends e he).1
      have hlt := new.ids q hq
      rw [hid, ← hpe] at hlt
      exact absurd hle (not_le.mpr hlt)
  have hj : j ∈ db.jobs := by
    rcases List.mem_append.mp hj with hj | hj
    · exact hj
    · have hchild := (db.valid .identity).1 e.child (db.valid .edgeFkey e he).2.2
      rw [hce] at hchild
      exact absurd hchild (not_le.mpr (new.ids j hj))
  exact h j hj ⟨hw, e, he, hce, p, hp, hpe, hdead⟩

theorem noneStranded_delete {t t' : Tables} (h : NoneStranded t) (jobs : t'.jobs.Sublist t.jobs)
    (edges : t'.edges.Sublist t.edges) : NoneStranded t' := by
  intro j hj hstranded
  obtain ⟨hw, e, he, hce, p, hp, hpe, hdead⟩ := hstranded
  exact h j (jobs.mem hj) ⟨hw, e, edges.mem he, hce, p, jobs.mem hp, hpe, hdead⟩

theorem noneStranded_exec (db : Db) (s : Stmt) (hsound : Sound db.toTables)
    (h : NoneStranded db.toTables) (hs : Spares db.toTables s) :
    NoneStranded (db.exec s).toTables := by
  rcases db.exec_form s with hsame | hform
  · rwa [hsame]
  · generalize (db.exec s).toTables = t' at hform
    cases hform with
    | rows step => exact noneStranded_rows hsound h hs step
    | complete batch worker now stmt => exact noneStranded_complete h batch worker now
    | insert rows es new jobs edges => exact noneStranded_insert h new jobs edges
    | delete deletes jobs edges => exact noneStranded_delete h jobs edges

/-- With no stranded job, a child of a dead job is cancelled. -/
theorem child_cancelled {db : Db} (hsound : Sound db.toTables) (h : NoneStranded db.toTables)
    {p : Job} (hp : p ∈ db.jobs) (hdead : Dead p) {e : Edge} (he : e ∈ db.edges)
    (hpe : e.parent = p.id) : ∃ c ∈ db.jobs, c.id = e.child ∧ c.state = .cancelled := by
  obtain ⟨c, hc, hce⟩ := List.mem_map.mp (db.valid .edgeFkey e he).2.2
  have hne : p.state ≠ .completed := by
    intro hst
    simp [Dead, hst] at hdead
  have hnot : ¬ Started c.state := by
    intro hs
    obtain ⟨q, hq, hid, hst⟩ := parents_completed hsound hc hs he hce.symm
    cases db.eq_of_id hq hp (hid.trans hpe)
    exact hne hst
  have hopen : 0 < openEdges db.toTables c.id :=
    List.countP_pos_iff.mpr ⟨e, he, decide_eq_true ⟨hce.symm, p, hp, hpe.symm, hne⟩⟩
  have hpend := (hsound c hc).count
  refine ⟨c, hc, hce, ?_⟩
  cases hst : c.state with
  | available =>
    exact absurd ⟨⟨hst, by omega⟩, e, he, hce.symm, p, hp, hpe.symm, hdead⟩ (h c hc)
  | running => exact absurd (.inl hst) hnot
  | completed => exact absurd (.inr (.inl hst)) hnot
  | discarded => exact absurd (.inr (.inr hst)) hnot
  | cancelled => rfl

theorem descendant_cancelled {db : Db} (hsound : Sound db.toTables)
    (h : NoneStranded db.toTables) {p : Job} (hp : p ∈ db.jobs) (hdead : Dead p) {d : JobId}
    (hd : Relation.TransGen (ParentOf db.toTables) p.id d) :
    ∃ j ∈ db.jobs, j.id = d ∧ j.state = .cancelled := by
  induction hd with
  | single hedge =>
    obtain ⟨e, he, hpe, rfl⟩ := hedge
    exact child_cancelled hsound h hp hdead he hpe
  | tail _ hedge ih =>
    obtain ⟨q, hq, rfl, hst⟩ := ih
    obtain ⟨e, he, hqe, rfl⟩ := hedge
    exact child_cancelled hsound h hq (.inr hst) he hqe

/-- **No job is stranded** in a run whose retries, reclaims and cancels spare
the awaited jobs: no waiting job has a dead parent, and everything downstream
of a dead job is cancelled. -/
theorem no_stranded_job (ss : List Stmt)
    (h : Along Db.exec (fun db s => Spares db.toTables s) Db.empty ss) :
    (∀ j ∈ (Db.after ss).jobs, ¬ Stranded (Db.after ss).toTables j) ∧
    ∀ p ∈ (Db.after ss).jobs, Dead p →
      ∀ d, Relation.TransGen (ParentOf (Db.after ss).toTables) p.id d →
        ∃ j ∈ (Db.after ss).jobs, j.id = d ∧ j.state = .cancelled := by
  have hinv : Sound (Db.after ss).toTables ∧ NoneStranded (Db.after ss).toTables :=
    Along.inv (I := fun db : Db => Sound db.toTables ∧ NoneStranded db.toTables)
      (fun db s hi hs => ⟨sound_exec db s hi.1, noneStranded_exec db s hi.1 hi.2 hs⟩) ss
      ⟨fun j hj => absurd hj (Db.not_mem_empty j), fun j hj => absurd hj (Db.not_mem_empty j)⟩ h
  exact ⟨hinv.2, fun p hp hdead d hd => descendant_cancelled hinv.1 hinv.2 hp hdead hd⟩

/-- Two jobs in a chain; the first gets one attempt. -/
def chain : Workflow where
  nodes := [{ task := "extract", maxAttempts := 1 }, { task := "load" }]
  edges := [(0, 1)]
  distinct := by decide

def leaseFirst : Fetch :=
  { queues := ["default"], limit := 1, worker := 7, lease := 30, now := 1 }

/-- A dead-lettered head takes the rest of the chain with it. -/
theorem no_stranded_job_discard :
    Along Db.exec (fun db s => Spares db.toTables s) Db.empty
      [.insertWorkflow chain 0, .fetchUnkeyed leaseFirst, .discardMany [(1, "boom")] 7 2] ∧
    ∀ j ∈ (Db.after [.insertWorkflow chain 0, .fetchUnkeyed leaseFirst,
      .discardMany [(1, "boom")] 7 2]).jobs, ¬ Stranded (Db.after [.insertWorkflow chain 0,
        .fetchUnkeyed leaseFirst, .discardMany [(1, "boom")] 7 2]).toTables j :=
  ⟨by decide, (no_stranded_job _ (by decide)).1⟩

/-- The other three ends of the head strand the second job: its only attempt
fails, its lease expires, or it is cancelled. -/
theorem chain_stranded :
    (∃ j ∈ (Db.after [.insertWorkflow chain 0, .fetchUnkeyed leaseFirst,
        .retryMany ⟨[(1, "boom")], 7, 1, 60, fun _ => 0, 2⟩]).jobs,
      Stranded (Db.after [.insertWorkflow chain 0, .fetchUnkeyed leaseFirst,
        .retryMany ⟨[(1, "boom")], 7, 1, 60, fun _ => 0, 2⟩]).toTables j) ∧
    (∃ j ∈ (Db.after [.insertWorkflow chain 0, .fetchUnkeyed leaseFirst,
        .reclaim 100 [1, 2] 60]).jobs,
      Stranded (Db.after [.insertWorkflow chain 0, .fetchUnkeyed leaseFirst,
        .reclaim 100 [1, 2] 60]).toTables j) ∧
    (∃ j ∈ (Db.after [.insertWorkflow chain 0, .cancel [1] 1]).jobs,
      Stranded (Db.after [.insertWorkflow chain 0, .cancel [1] 1]).toTables j) := by
  decide

/-! ## What the cascade does -/

section
variable (batch : List (JobId × String)) (worker : Uuid)

/-- The job is listed with this error and runs under the worker. -/
def Discards (j : Job) (error : String) : Prop := (j.id, error) ∈ batch ∧ j.HeldBy worker

/-- One or more edges away from a job that is discarded. -/
def Downstream (t : Tables) (j : Job) : Prop :=
  ∃ r ∈ t.jobs, (∃ error, Discards batch worker r error) ∧ Relation.TransGen (ParentOf t) r.id j.id

/-- What the cascade is to make of a row. -/
structure Cascaded (t : Tables) (now : Time) (j k : Job) : Prop where
  discarded : ∀ error, Discards batch worker j error → k = j.discard error now
  cancelled : j.state = .available → Downstream batch worker t j → k = j.cascade now
  untouched : (∀ error, ¬ Discards batch worker j error) →
    ¬ (j.state = .available ∧ Downstream batch worker t j) → k = j

/-- `DISCARD_MANY` returns, and leaves every row as the cascade is to leave it and the
other tables alone. -/
def CascadeExact (db : Db) (now : Time) : Prop :=
  ∃ db' f, db.run (.discardMany batch worker now) = .ok db' ∧
    db'.toTables = db.toTables.mapJobs f ∧ ∀ j ∈ db.jobs, Cascaded batch worker db.toTables now j (f j)
end

section
variable {batch : List (JobId × String)} {worker : Uuid} {t : Tables} {j : Job}

theorem discards_iff (hnd : (batch.map Prod.fst).Nodup) {error : String} :
    Discards batch worker j error ↔ batchEntry batch worker j = some error := by
  rw [Discards, batchEntry, ← lookup_eq_some_iff_mem hnd]
  split
  · next hheld => exact ⟨fun h => h.1, fun h => ⟨h, hheld⟩⟩
  · next hfree => exact ⟨fun h => absurd h.2 hfree, fun h => by cases h⟩

theorem downstream_iff (hnd : (batch.map Prod.fst).Nodup) :
    Downstream batch worker t j ↔ j.id ∈ t.walk (t.settledBy batch worker) := by
  rw [mem_walk]
  simp only [mem_settledBy, Option.isSome_iff_exists, ← discards_iff hnd, Downstream]
  constructor
  · intro h
    obtain ⟨r, hr, hdead, hpath⟩ := h
    exact ⟨r.id, ⟨r, hr, hdead, rfl⟩, hpath⟩
  · intro h
    obtain ⟨id, ⟨r, hr, hdead, rfl⟩, hpath⟩ := h
    exact ⟨r, hr, hdead, hpath⟩

theorem cascaded_discardRow (hnd : (batch.map Prod.fst).Nodup) (now : Time) (j : Job) :
    Cascaded batch worker t now j (t.discardRow batch worker now j) := by
  unfold Tables.discardRow
  constructor
  · intro error h
    rw [(discards_iff hnd).mp h]
  · intro hwaiting hdown
    have hfree : batchEntry batch worker j = none := by
      rw [batchEntry, if_neg]
      intro hheld
      rw [hheld.2] at hwaiting
      cases hwaiting
    rw [hfree]
    exact if_pos ⟨(downstream_iff hnd).mp hdown, hwaiting⟩
  · intro hnone hnot
    have hfree : batchEntry batch worker j = none := by
      rw [Option.eq_none_iff_forall_ne_some]
      exact fun error h => hnone error ((discards_iff hnd).mpr h)
    rw [hfree]
    exact if_neg fun h => hnot ⟨h.2, (downstream_iff hnd).mpr h.1⟩
end

/-- **The cascade is exact** unless an error carries a character the database refuses,
which refuses the whole batch. -/
theorem cascade_exact_iff (db : Db) {batch : List (JobId × String)} (hdistinct : (batch.map Prod.fst).Nodup)
    (worker : Uuid) (now : Time) : CascadeExact batch worker db now ↔ ¬ HasNul batch := by
  rw [← db.run_discardMany_iff batch worker now]
  constructor
  · intro h
    obtain ⟨db', f, hrun, -⟩ := h
    exact ⟨db', hrun⟩
  · intro h
    obtain ⟨db', hrun⟩ := h
    exact ⟨db', _, hrun, Stmt.effect_eq_mapJobs (s := .discardMany batch worker now) rfl (Db.run_ok hrun),
      fun j _ => cascaded_discardRow hdistinct now j⟩

/-- Two jobs that wait for each other behind a third. -/
def cycle : Workflow where
  nodes := [{ task := "extract" }, { task := "load" }, { task := "check" }]
  edges := [(0, 1), (1, 2), (2, 1)]
  distinct := by decide

theorem cascade_exact_iff_cycle :
    CascadeExact [(1, "boom")] 7 (Db.after [.insertWorkflow cycle 0, .fetchUnkeyed leaseFirst]) 2 :=
  (cascade_exact_iff _ (by decide) 7 2).mpr (by decide)

/-- An error with U+0000 in it: nothing is discarded and nothing cancelled. -/
theorem cascade_refused :
    (Db.after [.insertWorkflow chain 0, .fetchUnkeyed leaseFirst]).run
        (.discardMany [(1, "bad input \x00")] 7 2) = .error .invalidText ∧
      ¬ CascadeExact [(1, "bad input \x00")] 7
        (Db.after [.insertWorkflow chain 0, .fetchUnkeyed leaseFirst]) 2 := by
  have hrefused : (Db.after [.insertWorkflow chain 0, .fetchUnkeyed leaseFirst]).run
      (.discardMany [(1, "bad input \x00")] 7 2) = .error .invalidText := rfl
  refine ⟨hrefused, fun h => ?_⟩
  obtain ⟨db', f, hrun, -⟩ := h
  rw [hrefused] at hrun
  cases hrun

end Gylo.Store.Stranding
