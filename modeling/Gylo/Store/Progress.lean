import Gylo.Store.Holding
import Gylo.Store.Ordering
import Gylo.Store.Retention
import Gylo.Store.Stranding

/-! # Workflows come to an end

A parked job is released by the completion of its last parent and by nothing else,
so a workflow goes on only as long as some parked job has a parent that can still
complete. In every state that workflows with ascending edges reach, a parked job has
an ancestor that is running, that can be leased as soon as its time comes, or that is
dead: nothing waits for nothing. From there, the loop of `drain`, which leases and
completes until a fetch comes back empty, ends with every job completed. -/
namespace Gylo.Store.Progress

open Gylo.Store Gylo.Store.Dependencies Gylo.Store.Stranding Gylo.Store.FetchCall Gylo.Store.Passes
open Gylo.Store.Retention Runs Relation
open Gylo.Store.Holding (kept_by_lease returning_ids)

/-! ## A counter that is not ahead of its edges -/

/-- A parked job has an open edge for each parent it still counts. -/
def Counted (t : Tables) : Prop := ∀ j ∈ t.jobs, Waiting j → j.pendingDeps ≤ openEdges t j.id

/-- Workflow edges lead from a lower id to a higher one. -/
def Ascending (t : Tables) : Prop := ∀ e ∈ t.edges, e.parent < e.child

theorem counted_rows {P : Job → Prop} {t : Tables} (hsound : Sound t) (h : Counted t) {f : Job → Job}
    (step : ∀ j ∈ t.jobs, RowStep P j (f j)) : Counted (t.mapJobs f) := by
  intro k hk hw
  obtain ⟨j, hj, rfl⟩ := List.mem_map.mp hk
  have hunf := unfinished_mapJobs (fun j hj => (step j hj).same.id)
    (fun j hj => (step j hj).completed_iff)
  have hsame : openEdges (t.mapJobs f) (f j).id = openEdges t j.id := by
    rw [(step j hj).same.id]
    simp only [openEdges, hunf]
    rfl
  rw [hsame, (step j hj).pendingDeps]
  exact h j hj (waiting_of_rowStep (hsound j hj) (step j hj) hw)

theorem counted_complete {t : Tables} (hnd : (t.jobs.map Job.id).Nodup) (h : Counted t)
    (batch : List (JobId × Option Bytes)) (worker : Uuid) (now : Time) :
    Counted (t.complete batch worker now) := by
  intro k hk hw
  obtain ⟨j, hj, rfl⟩ := List.mem_map.mp hk
  have hsum := openEdges_complete batch worker now hnd j.id
  have hpend := pendingDeps_completeRow t batch worker now j
  rw [(completeRow_step batch worker now t j).same.id]
  cases hb : batchEntry batch worker j with
  | some result =>
    unfold Tables.completeRow at hw
    rw [hb] at hw
    cases hw.1
  | none =>
    rw [hb] at hpend
    have hpend : (t.completeRow batch worker now j).pendingDeps =
        j.pendingDeps - t.counted (t.settledBy batch worker) j.id := hpend
    have hwait : Waiting j := by
      refine ⟨?_, by have := hw.2; omega⟩
      have hstate := hw.1
      unfold Tables.completeRow at hstate
      rw [hb] at hstate
      dsimp only at hstate
      split at hstate <;> exact hstate
    have := h j hj hwait
    omega

section
variable {db : Db} {t' : Tables} {rows : List Job} {es : List Edge}

theorem counted_insert (h : Counted db.toTables) (new : NewRows db.toTables rows es)
    (jobs : t'.jobs = db.jobs ++ rows) (edges : t'.edges = db.edges ++ es) : Counted t' := by
  intro j hj hw
  rw [openEdges_insert edges]
  rw [jobs] at hj
  rcases List.mem_append.mp hj with hj | hj
  · -- an open edge of an old row stays open
    have hkept : openEdges db.toTables j.id ≤
        db.edges.countP fun e => e.child = j.id ∧ Unfinished t' e.parent := by
      refine List.countP_mono_left fun e _ hopen => ?_
      obtain ⟨hchild, p, hp, hid, hne⟩ := of_decide_eq_true hopen
      exact decide_eq_true ⟨hchild, p, jobs ▸ List.mem_append_left _ hp, hid, hne⟩
    have := h j hj hw
    omega
  · -- the parents of a new row are new, and not completed
    have hall : (es.filter fun e => e.child = j.id).length ≤
        es.countP fun e => e.child = j.id ∧ Unfinished t' e.parent := by
      rw [← List.countP_eq_length_filter]
      refine List.countP_mono_left fun e he hchild => ?_
      obtain ⟨p, hp, hid⟩ := List.mem_map.mp (new.ends e he).1
      refine decide_eq_true ⟨of_decide_eq_true hchild, p, jobs ▸ List.mem_append_right _ hp, hid, ?_⟩
      rw [new.state p hp]
      decide
    have := new.pending j hj
    omega
end

/-- An edge into a row that keeps its workflow's jobs and edges stays open. -/
theorem openEdges_intact {db : Db} {t' : Tables} (hwithin : EdgesWithin db.toTables) {j : Job}
    (hj : j ∈ db.jobs) (hintact : ∀ w ∈ j.workflowId, Intact db.toTables t' w)
    {q : Edge → Bool} (hedges : t'.edges = db.edges.filter q) :
    openEdges db.toTables j.id ≤ openEdges t' j.id := by
  unfold openEdges
  rw [hedges, List.countP_filter]
  refine List.countP_mono_left fun e he hopen => ?_
  obtain ⟨hchild, p, hp, hid, hne⟩ := of_decide_eq_true hopen
  have hintact := hintact e.workflowId (hwithin e he j hj (.inr hchild.symm))
  have hkept : e ∈ db.edges.filter q := hedges ▸ hintact.edges e he rfl
  have hparent := hintact.jobs p hp (hwithin e he p hp (.inl hid))
  rw [Bool.and_eq_true]
  exact ⟨decide_eq_true ⟨hchild, p, hparent, hid, hne⟩, (List.mem_filter.mp hkept).2⟩

/-- What an operator does when deleting dead letters takes edges away from under
the counters. -/
def Purges : Stmt → Prop
  | .purgeDiscarded _ => True
  | _ => False

theorem counted_exec (db : Db) (s : Stmt) (hs : ¬ Purges s) (hsound : Sound db.toTables)
    (hwithin : EdgesWithin db.toTables) (h : Counted db.toTables) : Counted (db.exec s).toTables := by
  rcases db.exec_cases s with hsame | heff
  · rwa [hsame]
  · have hform := Stmt.effect_form db.ids_nodup heff
    generalize (db.exec s).toTables = t' at heff hform
    cases hform with
    | rows step => exact counted_rows hsound h step
    | complete batch worker now stmt => exact counted_complete db.ids_nodup h batch worker now
    | insert rows es new jobs edges => exact counted_insert h new jobs edges
    | delete deletes jobs edges =>
      intro j hkept hw
      have hj := jobs.mem hkept
      refine (h j hj hw).trans (Int.ofNat_le.mpr ?_)
      have hlive : ∀ w ∈ j.workflowId, LiveWorkflow db.toTables w :=
        fun w hw' => ⟨j, hj, hw', .inl hw.1⟩
      cases s with
      | prune a =>
        cases limited_ok heff
        exact openEdges_intact hwithin hj (fun w hw' => intact_prune hwithin (hlive w hw') a) rfl
      | pruneWorkflows =>
        cases heff
        exact openEdges_intact hwithin hj (fun w hw' => intact_pruneWorkflows (hlive w hw')) rfl
      | purgeDiscarded queue => exact absurd trivial hs
      | _ => cases deletes

/-! ## Edges that go up -/

/-- The workflow a statement inserts, if any, has edges from earlier to later nodes. -/
def Ascends : Stmt → Prop
  | .insertWorkflow flow _ => ∀ e ∈ flow.edges, e.1 < e.2
  | _ => True

theorem ascending_exec (db : Db) (s : Stmt) (hs : Ascends s) (h : Ascending db.toTables) :
    Ascending (db.exec s).toTables := by
  rcases db.exec_cases s with hsame | heff
  · rwa [hsame]
  · rcases effect_edges heff with hsub | ⟨flow, now, rfl, -, hedges⟩
    · exact fun e he => h e (hsub.mem he)
    · intro e he
      rw [hedges] at he
      rcases List.mem_append.mp he with he | he
      · exact h e he
      · obtain ⟨ends, hends, rfl⟩ := List.mem_map.mp he
        exact Int.add_lt_add_left (Int.ofNat_lt.mpr (hs ends hends)) _

/-! ## Nothing waits for nothing -/

/-- What the statements keep of the counters and the edges. -/
structure Linked (t : Tables) : Prop where
  sound : Sound t
  within : EdgesWithin t
  counted : Counted t
  ascending : Ascending t

theorem linked_exec (db : Db) (s : Stmt) (h : Linked db.toTables) (hs : Ascends s ∧ ¬ Purges s) :
    Linked (db.exec s).toTables :=
  ⟨sound_exec db s h.sound, edgesWithin_exec db s h.within,
    counted_exec db s hs.2 h.sound h.within h.counted, ascending_exec db s hs.1 h.ascending⟩

theorem linked_run (db : Db) (h : Linked db.toTables) (ss : List Stmt)
    (hss : ∀ s ∈ ss, Ascends s ∧ ¬ Purges s) : Linked (run Db.exec db ss).toTables :=
  Along.inv (I := fun db : Db => Linked db.toTables) (fun db s h hs => linked_exec db s h hs) ss h
    (along_of_forall db ss hss)

theorem linked_empty : Linked Db.empty.toTables :=
  ⟨fun j hj => absurd hj (Db.not_mem_empty j), fun _ _ j hj => absurd hj (Db.not_mem_empty j),
    fun j hj => absurd hj (Db.not_mem_empty j), fun _ he => absurd he List.not_mem_nil⟩

/-- A parked job has a parent that has not completed. -/
theorem exists_open_parent {db : Db} (h : Linked db.toTables) {j : Job} (hj : j ∈ db.jobs)
    (hw : Waiting j) : ∃ e ∈ db.edges, e.child = j.id ∧ e.parent < j.id ∧
      ∃ p ∈ db.jobs, p.id = e.parent ∧ p.state ≠ .completed := by
  have hopen : 0 < openEdges db.toTables j.id := by
    have := h.counted j hj hw
    have := hw.2
    omega
  obtain ⟨e, he, hedge⟩ := List.countP_pos_iff.mp hopen
  obtain ⟨hchild, p, hp, hid, hne⟩ := of_decide_eq_true hedge
  exact ⟨e, he, hchild, hchild ▸ h.ascending e he, p, hp, hid, hne⟩

/-- Why an ancestor that has not completed may hold its descendants up. -/
inductive Holdup (j : Job) : Prop
  | running (h : j.state = .running)
  | leasable (h : j.state = .available) (pending : j.pendingDeps = 0) (time : j.scheduledAt ≠ ⊤)
  | dead (h : Dead j)

theorem holdup_or_waiting {t : Tables} {p : Job} (h : RowDeps t p) (hne : p.state ≠ .completed) :
    Holdup p ∨ Waiting p := by
  cases hstate : p.state with
  | running => exact .inl (.running hstate)
  | completed => exact absurd hstate hne
  | discarded => exact .inl (.dead (.inl hstate))
  | cancelled => exact .inl (.dead (.inr hstate))
  | available =>
    have hcount := h.count
    by_cases hpos : 0 < p.pendingDeps
    · exact .inr ⟨hstate, hpos⟩
    · refine .inl (.leasable hstate (by omega) fun htop => hpos ((h.parked hstate).mp htop))

/-- Up the edges from a parked job, some ancestor is not parked. -/
theorem exists_holdup {db : Db} (h : Linked db.toTables) {j : Job} (hj : j ∈ db.jobs)
    (hw : Waiting j) :
    ∃ p ∈ db.jobs, TransGen (ParentOf db.toTables) p.id j.id ∧ Holdup p := by
  -- ids go down along the way: ever fewer jobs are below
  induction hn : db.jobs.countP (fun k => decide (k.id < j.id)) using Nat.strong_induction_on
    generalizing j with
  | _ n ih =>
    obtain ⟨e, he, hchild, hlt, p, hp, hid, hne⟩ := exists_open_parent h hj hw
    have hstep : ParentOf db.toTables p.id j.id := ⟨e, he, hid.symm, hchild⟩
    have hlt : p.id < j.id := hid ▸ hlt
    rcases holdup_or_waiting (h.sound p hp) hne with hold | hwait
    · exact ⟨p, hp, .single hstep, hold⟩
    · have hfewer : db.jobs.countP (fun k => decide (k.id < p.id)) < n := by
        rw [← hn]
        refine Taking.countP_lt_countP (fun k _ hk => ?_) hp (by simp) (decide_eq_true hlt)
        exact decide_eq_true ((of_decide_eq_true hk).trans hlt)
      obtain ⟨q, hq, hpath, hold⟩ := ih _ hfewer hp hwait rfl
      exact ⟨q, hq, hpath.tail hstep, hold⟩

/-- A fetch statement of the worker. -/
def FetchOf (worker : Uuid) (s : Stmt) : Prop :=
  ∃ a : Fetch, a.worker = worker ∧ (s = .fetchUnkeyed a ∨ s = .fetchKeyed a)

theorem keyedPass_stmts (c : Call) (w : World) (jobs : List LeasedJob) (db : Db) :
    ∃ ss : List Stmt, (∀ s ∈ ss, FetchOf c.worker s) ∧ (keyedPass c w jobs db).2 = run Db.exec db ss := by
  have hnone : ∃ ss : List Stmt, (∀ s ∈ ss, FetchOf c.worker s) ∧ db = run Db.exec db ss :=
    ⟨[], fun _ h => absurd h List.not_mem_nil, rfl⟩
  unfold keyedPass
  split
  · exact hnone
  · split
    · exact hnone
    · split
      · exact hnone
      · split
        · exact hnone
        next db' hrun =>
          have hone : ∃ ss : List Stmt, (∀ s ∈ ss, FetchOf c.worker s) ∧ db' = run Db.exec db ss :=
            ⟨[.fetchKeyed (keyedArgs c w jobs.length)], List.forall_mem_singleton.mpr ⟨_, rfl, .inr rfl⟩,
              (Db.exec_of_run hrun).symm⟩
          split
          · exact hone
          · exact hnone
          · exact hone

/-- Whatever happens to a call, the database it leaves is the one some of its
statements lead to. -/
theorem fetch_stmts (c : Call) (w : World) (db : Db) :
    ∃ ss : List Stmt, (∀ s ∈ ss, FetchOf c.worker s) ∧ (fetch c w db).2 = run Db.exec db ss := by
  unfold fetch
  split
  · exact ⟨[], fun _ h => absurd h List.not_mem_nil, rfl⟩
  · split
    · exact ⟨[], fun _ h => absurd h List.not_mem_nil, rfl⟩
    next db' hrun =>
      have hfirst : FetchOf c.worker (.fetchUnkeyed (unkeyedArgs c w)) := ⟨_, rfl, .inl rfl⟩
      have hone : ∃ ss : List Stmt, (∀ s ∈ ss, FetchOf c.worker s) ∧ db' = run Db.exec db ss :=
        ⟨[.fetchUnkeyed (unkeyedArgs c w)], List.forall_mem_singleton.mpr hfirst,
          (Db.exec_of_run hrun).symm⟩
      have htwo : ∀ jobs, ∃ ss : List Stmt, (∀ s ∈ ss, FetchOf c.worker s) ∧
          (keyedPass c w jobs db').2 = run Db.exec db ss := by
        intro jobs
        obtain ⟨ss, hss, hpass⟩ := keyedPass_stmts c w jobs db'
        refine ⟨.fetchUnkeyed (unkeyedArgs c w) :: ss, List.forall_mem_cons.mpr ⟨hfirst, hss⟩, ?_⟩
        rw [hpass, run_cons, Db.exec_of_run hrun]
      dsimp only
      split
      · split
        · exact hone
        · split
          · exact htwo _
          · exact hone
      · split
        · exact htwo _
        · exact hone

section
variable (c : Call) {w : World} (hw : Alone w) {db : Db}
include hw

/-- After a first pass that comes through, an undisturbed call is its second pass,
if one is due. -/
theorem fetch_eq_second {db' : Db} (hrun : db.run (.fetchUnkeyed (unkeyedArgs c w)) = .ok db') :
    fetch c w db =
      if asksKeyed c w db = true then
        keyedPass c w (returning db'.toTables (unkeyedBatch c w.now db)) db'
      else (.ok (returning db'.toTables (unkeyedBatch c w.now db)), db') := by
  obtain ⟨ht, -, hlen⟩ := first_pass hrun
  rw [lockedUnkeyed_eq c hw] at ht hlen
  unfold fetch
  simp only [hw.failUnkeyed, hw.failWaiting, Bool.false_eq_true, if_false, hrun, lockedUnkeyed_eq c hw]
  by_cases hnil : unkeyedBatch c w.now db = []
  · have hsame : db'.toTables = db.toTables := by
      rw [hnil, List.map_nil, mapJobs_leaseRow_nil] at ht
      exact ht
    have hasks : asksKeyed c w db = db'.keyedWaiting c.queues w.nowWaiting := by
      rw [hsame]
      exact if_pos hnil
    rw [if_pos (List.length_eq_zero_iff.mp (by rw [hlen, hnil]; rfl)), hasks]
  · have hne : returning db'.toTables (unkeyedBatch c w.now db) ≠ [] := by
      rw [← List.length_pos_iff, hlen]
      exact List.length_pos_iff.mpr hnil
    have hasks : asksKeyed c w db = db.keyedWaiting c.queues w.now := if_neg hnil
    rw [if_neg hne, hasks]

theorem keyedPass_returns (jobs : List LeasedJob) {chosen : List Job}
    (hc : db.admitted (keyedArgs c w jobs.length) db.toTables = chosen) (hspare : Spare chosen) :
    ∃ more, (keyedPass c w jobs db).1 = .ok (jobs ++ more) ∧
      more.map LeasedJob.id = chosen.map Job.id := by
  have hlim : 0 ≤ (keyedArgs c w jobs.length).limit := by
    show 0 ≤ max (c.limit - jobs.length) 1
    omega
  have hok := run_fetchKeyed db (keyedArgs c w jobs.length) hlim
  rw [hc] at hok
  obtain ⟨db', hrun⟩ := hok.mpr hspare
  simp only [keyedPass, hw.failBegin, hw.failLock, hw.failKeyed, Bool.false_eq_true, if_false, hrun,
    hw.commit, hc]
  refine ⟨_, rfl, returning_ids fun j hj => ?_⟩
  have ht := Stmt.effect_eq_mapJobs (s := .fetchKeyed (keyedArgs c w jobs.length)) rfl (Db.run_ok hrun)
  rw [← hc] at hj
  exact kept_by_lease (congrArg Tables.jobs ht) (mem_jobs_of_admitted hj).1

/-- A call that is alone and finds attempts left on every row returns the rows it
takes. -/
theorem fetch_returns_taken (hlim : 1 ≤ c.limit)
    (hspare : ∀ j ∈ db.jobs, j.state = .available → j.attempt < j.maxAttempts) :
    ∃ jobs, (fetch c w db).1 = .ok jobs ∧
      jobs.map LeasedJob.id = (taken c w db).map Job.id := by
  have hfirstSpare : Spare (unkeyedBatch c w.now db) := fun j hj =>
    have hmem := mem_unkeyedBatch c w.now db hj
    hspare j hmem.1 hmem.2.1.1
  have hsecondSpare : Spare (keyedAdmitted c w.now db w.nowKeyed) := fun j hj =>
    have hmem := mem_keyedAdmitted c w.now db w.nowKeyed hj
    hspare j hmem.1 hmem.2.1.1
  have hunkeyed := run_fetchUnkeyed db (unkeyedArgs c w)
  rw [lockedUnkeyed_eq c hw] at hunkeyed
  obtain ⟨db', hrun⟩ := hunkeyed.mpr ⟨by show 0 ≤ c.limit; omega, hfirstSpare⟩
  obtain ⟨ht, hmem, hlen⟩ := first_pass hrun
  have hsecond := admitted_after c hw hrun
  rw [lockedUnkeyed_eq c hw] at ht hmem hlen
  have hids : (returning db'.toTables (unkeyedBatch c w.now db)).map LeasedJob.id =
      (unkeyedBatch c w.now db).map Job.id :=
    returning_ids fun j hj => kept_by_lease (congrArg Tables.jobs ht) (hmem j hj).1
  rw [fetch_eq_second c hw hrun]
  unfold taken
  rw [if_pos hfirstSpare]
  by_cases hasks : asksKeyed c w db = true
  · rw [← hlen] at hsecond
    obtain ⟨more, hpass, hmore⟩ := keyedPass_returns c hw _ hsecond hsecondSpare
    refine ⟨_, by rw [if_pos hasks]; exact hpass, ?_⟩
    rw [if_pos ⟨hasks, hsecondSpare⟩, List.map_append, List.map_append, hids, hmore]
  · refine ⟨_, by rw [if_neg hasks], ?_⟩
    rw [if_neg fun h => hasks h.1, List.append_nil, hids]
end

/-! ## Draining -/

/-- What one turn of the loop meets: the clocks of `fetch`, and that of
`complete_many`. -/
structure Round where
  world : World
  done : Time

/-- What `complete_many` binds: the ids, and no results. -/
def completions (leased : List LeasedJob) : List (JobId × Option Bytes) :=
  leased.map fun job => (job.id, none)

/-- The loop of a leaser: fetch, complete what came back, and return when nothing
did; both calls are `expect`ed to succeed. No result if the rounds end before the
loop does, no count if a call failed. -/
def drain (c : Call) : List Round → Nat → Db → Option (Option Nat × Db)
  | [], _, _ => none
  | round :: rounds, drained, db =>
    match fetch c round.world db with
    | (.error _, db) => some (none, db)
    | (.ok leased, db) =>
      if leased = [] then some (some drained, db)
      else
        match db.run (.complete (completions leased) c.worker round.done) with
        | .error _ => some (none, db)
        | .ok db => drain c rounds (drained + leased.length) db

/-- How many jobs are still to be leased. -/
def waitingCount (db : Db) : Nat := db.jobs.countP fun j => j.state = .available

/-- Nobody else is leasing, every job that waits is on one of the queues, has an
attempt left and is not held back by its time or by a dead parent. -/
structure Drainable (c : Call) (now : Time) (db : Db) : Prop where
  linked : Linked db.toTables
  calm : NoneStranded db.toTables
  idle : ∀ j ∈ db.jobs, j.state ≠ .running
  queue : ∀ j ∈ db.jobs, j.state = .available → j.queue ∈ c.queues
  spare : ∀ j ∈ db.jobs, j.state = .available → j.attempt < j.maxAttempts
  time : ∀ j ∈ db.jobs, j.state = .available → j.pendingDeps = 0 → j.scheduledAt ≤ (now : WithTop Time)

/-- The clock does not go back, and every call of `fetch` is undisturbed. -/
def Orderly : Time → List Round → Prop
  | _, [] => True
  | now, round :: rounds =>
    Alone round.world ∧ now ≤ round.world.now ∧ round.world.now ≤ round.done ∧
      Orderly round.done rounds

/-! ### Some job can be leased -/

section
variable {c : Call} {now : Time} {db : Db} (h : Drainable c now db)
include h

/-- If anything is left, something is due. -/
theorem Drainable.exists_due {j : Job} (hj : j ∈ db.jobs) (havail : j.state = .available) {later : Time}
    (hclock : now ≤ later) : ∃ p ∈ db.jobs, p.Due c.queues later := by
  have hdue : ∀ p ∈ db.jobs, p.state = .available → p.pendingDeps = 0 → p.Due c.queues later :=
    fun p hp hstate hpend => ⟨hstate, h.queue p hp hstate,
      (h.time p hp hstate hpend).trans (WithTop.coe_le_coe.mpr hclock)⟩
  have hcount := (h.linked.sound j hj).count
  by_cases hpos : 0 < j.pendingDeps
  · obtain ⟨p, hp, hpath, hold⟩ := exists_holdup h.linked hj ⟨havail, hpos⟩
    cases hold with
    | running hrun => exact absurd hrun (h.idle p hp)
    | leasable hstate hpend _ => exact ⟨p, hp, hdue p hp hstate hpend⟩
    | dead hdead =>
      -- what comes after a dead job has been cancelled
      obtain ⟨k, hk, hid, hcancelled⟩ := descendant_cancelled h.linked.sound h.calm hp hdead hpath
      cases db.eq_of_id hk hj hid
      cases havail.symm.trans hcancelled
  · exact ⟨j, hj, hdue j hj havail (by omega)⟩

/-- With nothing running, every key has room. -/
theorem Drainable.room {j : Job} (hj : j ∈ db.jobs) (hkey : j.concurrencyKey ≠ none) : Room db j := by
  have hpaired := db.valid .concurrencyPaired j hj
  obtain ⟨k, hk⟩ := Option.ne_none_iff_exists'.mp hkey
  have hnone : db.already j = 0 := by
    unfold Tables.already
    rw [hk]
    refine List.length_eq_zero_iff.mpr (List.filter_eq_nil_iff.mpr fun i hi hrun => ?_)
    exact h.idle i hi (of_decide_eq_true hrun).1
  cases hm : j.maxConcurrency with
  | none =>
    rw [hk, hm] at hpaired
    cases hpaired
  | some m =>
    refine ⟨m, hm, ?_⟩
    rw [hnone]
    exact db.valid .concurrencyPositive j hj m hm

theorem Drainable.exists_taken (hlim : 1 ≤ c.limit) {w : World} (hw : Alone w) (hclock : now ≤ w.now)
    {j : Job} (hj : j ∈ db.jobs) (havail : j.state = .available) : taken c w db ≠ [] := by
  obtain ⟨p, hp, hdue⟩ := h.exists_due hj havail hclock
  have hfirst : Spare (unkeyedBatch c w.now db) := fun j hj =>
    have hmem := mem_unkeyedBatch c w.now db hj
    h.spare j hmem.1 hmem.2.1.1
  have hsecond : Spare (keyedAdmitted c w.now db w.nowKeyed) := fun j hj =>
    have hmem := mem_keyedAdmitted c w.now db w.nowKeyed hj
    h.spare j hmem.1 hmem.2.1.1
  unfold taken
  rw [if_pos hfirst]
  by_cases hkey : p.concurrencyKey = none
  · have hmem : p ∈ unkeyed c.queues w.now db := mem_unkeyed.mpr ⟨hp, hdue, hkey⟩
    have hne : unkeyedBatch c w.now db ≠ [] := by
      unfold unkeyedBatch
      rw [← List.length_pos_iff, List.length_take]
      exact Nat.lt_min.mpr ⟨by omega, List.length_pos_of_mem hmem⟩
    exact List.append_ne_nil_of_left_ne_nil hne _
  · rw [if_pos ⟨Ordering.asksKeyed_of c hw hp hdue hkey, hsecond⟩]
    obtain ⟨k, hk⟩ := Ordering.keyedAdmitted_ne_nil c w.now
      (mem_keyed.mpr ⟨hp, hdue.later hw.clock.2, hkey, h.room hp hkey⟩)
    exact List.append_ne_nil_of_right_ne_nil _ (List.ne_nil_of_mem hk)
end

/-! ### One round -/

/-- Whatever runs is held by the worker. -/
def Held (worker : Uuid) (db : Db) : Prop := ∀ j ∈ db.jobs, j.state = .running → j.HeldBy worker

/-- A fetch statement leases some rows, or fails. -/
theorem FetchOf.exec {worker : Uuid} (db : Db) {s : Stmt} (hs : FetchOf worker s) :
    db.exec s = db ∨ ∃ a chosen, a.worker = worker ∧
      (db.exec s).jobs = db.jobs.map (leaseRow a chosen) := by
  obtain ⟨a, ha, rfl | rfl⟩ := hs
  · exact (db.exec_rows (s := .fetchUnkeyed a) rfl).imp_right
      fun h => ⟨a, _, ha, congrArg Tables.jobs h⟩
  · exact (db.exec_rows (s := .fetchKeyed a) rfl).imp_right
      fun h => ⟨a, _, ha, congrArg Tables.jobs h⟩

theorem held_exec {worker : Uuid} (db : Db) {s : Stmt} (hs : FetchOf worker s) (h : Held worker db) :
    Held worker (db.exec s) := by
  rcases hs.exec db with hsame | ⟨a, chosen, ha, hjobs⟩
  · rwa [hsame]
  · intro k hk hrun
    rw [hjobs] at hk
    obtain ⟨j, hj, rfl⟩ := List.mem_map.mp hk
    unfold leaseRow at hrun ⊢
    split
    · exact ⟨congrArg some ha, rfl⟩
    next hout =>
      rw [if_neg hout] at hrun
      exact h j hj hrun

/-- What the statements of a fetch keep. -/
theorem fetched {c : Call} {now : Time} {db : Db} (h : Drainable c now db) (w : World) :
    Linked (fetch c w db).2.toTables ∧ NoneStranded (fetch c w db).2.toTables ∧
      Held c.worker (fetch c w db).2 := by
  obtain ⟨ss, hss, hdb⟩ := fetch_stmts c w db
  rw [hdb]
  have hall : Along Db.exec (fun _ s => FetchOf c.worker s) db ss := along_of_forall db ss hss
  refine Along.inv (I := fun db : Db => Linked db.toTables ∧ NoneStranded db.toTables ∧ Held c.worker db)
    (fun db s hi hs => ?_) ss ⟨h.linked, h.calm, fun j hj hrun => absurd hrun (h.idle j hj)⟩ hall
  obtain ⟨hlinked, hcalm, hheld⟩ := hi
  have hheld' := held_exec db hs hheld
  obtain ⟨a, -, rfl | rfl⟩ := hs
  all_goals
    exact ⟨linked_exec db _ hlinked ⟨trivial, fun h => h.elim⟩,
      noneStranded_exec db _ hlinked.sound hcalm trivial, hheld'⟩

/-- What a round does to a row: it is left alone, or a job that waits is completed;
what waits on has its columns but for the counter and the time. -/
structure RoundStep (c : Call) (done : Time) (taken : List Job) (j k : Job) : Prop where
  id : k.id = j.id
  completed : j ∈ taken → k.state = .completed
  state : j ∉ taken → k.state = j.state
  kept : j ∉ taken → k.queue = j.queue ∧ k.attempt = j.attempt ∧ k.maxAttempts = j.maxAttempts
  time : j ∉ taken → k.scheduledAt = j.scheduledAt ∧ k.pendingDeps = j.pendingDeps ∨
    (k.pendingDeps = 0 → k.scheduledAt = (done : WithTop Time))

/-- What waits after a round waited before it, and was not taken. -/
theorem RoundStep.available {c : Call} {done : Time} {taken : List Job} {j k : Job}
    (hstep : RoundStep c done taken j k) (havail : k.state = .available) :
    j ∉ taken ∧ j.state = .available := by
  have hout : j ∉ taken := by
    intro htaken
    cases havail.symm.trans (hstep.completed htaken)
  exact ⟨hout, (hstep.state hout).symm.trans havail⟩

/-- Completing what is not held changes the counter and the time only. -/
theorem completeRow_idle (t : Tables) (batch : List (JobId × Option Bytes)) (worker : Uuid) (now : Time)
    {j : Job} (hidle : j.state ≠ .running) :
    t.completeRow batch worker now j = j ∨ ∃ n, t.completeRow batch worker now j = j.unblock n now := by
  have hnone : batchEntry batch worker j = none := if_neg fun hheld => hidle hheld.2
  unfold Tables.completeRow
  rw [hnone]
  dsimp only
  split
  · exact .inl rfl
  · exact .inr ⟨_, rfl⟩

section
variable {c : Call} {now : Time} {db : Db} (h : Drainable c now db) (hlim : 1 ≤ c.limit) {w : World}
  (hw : Alone w)
include h hlim hw

/-- **One round.** The rows that were taken come back completed, and nothing runs. -/
theorem round_rows {jobs : List LeasedJob} (hids : jobs.map LeasedJob.id = (taken c w db).map Job.id)
    (done : Time) : ∃ g : Job → Job, ((fetch c w db).2.complete
        (completions jobs) c.worker done).jobs = db.jobs.map g ∧
      ∀ j ∈ db.jobs, RoundStep c done (taken c w db) j (g j) := by
  obtain ⟨-, -, hheld⟩ := fetched h w
  obtain ⟨f, hf, hrow⟩ := fetch_rewrites c (by omega) hw db
  generalize (fetch c w db).2 = db' at hheld hf
  refine ⟨db'.completeRow (completions jobs) c.worker done ∘ f, ?_, ?_⟩
  · show db'.jobs.map _ = _
    rw [hf, List.map_map]
  · intro j hj
    obtain ⟨hid, -, hin, hout⟩ := hrow j hj
    rw [Function.comp]
    by_cases htaken : j ∈ taken c w db
    · -- it runs for the worker, and is in the batch
      have hmem : f j ∈ db'.jobs := hf ▸ List.mem_map_of_mem hj
      have hlisted : (f j).id ∈ jobs.map LeasedJob.id := by
        rw [hid, hids]
        exact List.mem_map_of_mem htaken
      obtain ⟨result, hentry⟩ : ∃ result,
          batchEntry (completions jobs) c.worker (f j) = some result := by
        rw [batchEntry, if_pos (hheld _ hmem (hin htaken))]
        obtain ⟨job, hjob, hjid⟩ := List.mem_map.mp hlisted
        exact Option.isSome_iff_exists.mp (List.lookup_isSome_iff.mpr
          ⟨(job.id, none), List.mem_map_of_mem hjob, beq_iff_eq.mpr hjid.symm⟩)
      have hrow : db'.completeRow (completions jobs) c.worker done (f j) =
          (f j).complete result done := by
        unfold Tables.completeRow
        rw [hentry]
      rw [hrow]
      exact ⟨hid, fun _ => rfl, fun h => absurd htaken h, fun h => absurd htaken h,
        fun h => absurd htaken h⟩
    · rw [hout htaken]
      rcases completeRow_idle db'.toTables (completions jobs) c.worker done
        (h.idle j hj) with hsame | ⟨n, hunblock⟩
      · rw [hsame]
        exact ⟨rfl, fun h => absurd h htaken, fun _ => rfl, fun _ => ⟨rfl, rfl, rfl⟩,
          fun _ => .inl ⟨rfl, rfl⟩⟩
      · rw [hunblock]
        exact ⟨rfl, fun h => absurd h htaken, fun _ => rfl, fun _ => ⟨rfl, rfl, rfl⟩,
          fun _ => .inr fun hzero => if_pos hzero⟩

theorem round_drainable {jobs : List LeasedJob}
    (hids : jobs.map LeasedJob.id = (taken c w db).map Job.id) (hclock : now ≤ w.now) {done : Time}
    (hdone : w.now ≤ done) {db' : Db}
    (hrun : (fetch c w db).2.run (.complete (completions jobs) c.worker done) = .ok db') :
    Drainable c done db' := by
  obtain ⟨hlinked, hcalm, -⟩ := fetched h w
  obtain ⟨g, hg, hrow⟩ := round_rows h hlim hw hids done
  have htables := Except.ok.inj (Db.run_ok hrun)
  rw [show _ = db'.jobs from congrArg Tables.jobs htables] at hg
  have hexec := Db.exec_of_run hrun
  refine ⟨?_, ?_, ?_, ?_, ?_, ?_⟩
  · rw [← hexec]
    exact linked_exec _ _ hlinked ⟨trivial, fun h => h.elim⟩
  · rw [← hexec]
    exact noneStranded_exec _ _ hlinked.sound hcalm trivial
  all_goals
    intro k hk
    rw [hg] at hk
    obtain ⟨j, hj, rfl⟩ := List.mem_map.mp hk
    have hstep := hrow j hj
  · intro hrunning
    by_cases htaken : j ∈ taken c w db
    · cases hrunning.symm.trans (hstep.completed htaken)
    · exact h.idle j hj ((hstep.state htaken).symm.trans hrunning)
  · intro havail
    obtain ⟨hout, havail⟩ := hstep.available havail
    rw [(hstep.kept hout).1]
    exact h.queue j hj havail
  · intro havail
    obtain ⟨hout, havail⟩ := hstep.available havail
    rw [(hstep.kept hout).2.1, (hstep.kept hout).2.2]
    exact h.spare j hj havail
  · intro havail hpend
    obtain ⟨hout, havail⟩ := hstep.available havail
    rcases hstep.time hout with ⟨htime, hsame⟩ | hset
    · rw [htime]
      exact (h.time j hj havail (hsame ▸ hpend)).trans (WithTop.coe_le_coe.mpr (hclock.trans hdone))
    · exact le_of_eq (hset hpend)
end

/-! ### The whole loop -/

/-- The state a job that is drained ends in. -/
def drainedState (s : JobState) : JobState := if s = .available then .completed else s

theorem waitingCount_map {db db' : Db} {g : Job → Job} {taken : List Job} (hg : db'.jobs = db.jobs.map g)
    (hnd : taken.Nodup) (hsub : ∀ j ∈ taken, j ∈ db.jobs ∧ j.state = .available)
    (hrow : ∀ j ∈ db.jobs, (g j).state = .available ↔ j ∉ taken ∧ j.state = .available) :
    waitingCount db' + taken.length = waitingCount db := by
  have htaken : (db.jobs.filter fun j => decide (j.state = .available)).filter (fun j => decide (j ∈ taken))
      |>.Perm taken := by
    refine (List.perm_ext_iff_of_nodup (((db_nodup db).filter _).filter _) hnd).mpr fun j => ?_
    simp only [List.mem_filter, decide_eq_true_iff]
    exact ⟨fun hj => hj.2, fun hj => ⟨hsub j hj, hj⟩⟩
  have hsplit := List.length_eq_length_filter_add
    (l := db.jobs.filter fun j => decide (j.state = .available)) fun j => decide (j ∈ taken)
  have hrest : waitingCount db' =
      ((db.jobs.filter fun j => decide (j.state = .available)).filter fun j => !decide (j ∈ taken)).length := by
    unfold waitingCount
    rw [hg, List.countP_map, List.filter_filter, ← List.countP_eq_length_filter]
    refine List.countP_congr fun j hj => ?_
    simpa using hrow j hj
  have hall : waitingCount db = (db.jobs.filter fun j => decide (j.state = .available)).length :=
    List.countP_eq_length_filter
  have := htaken.length_eq
  omega

/-- **The loop of `drain` finishes the queue.** With nobody else leasing, and rounds
to spare, it returns: every job that was waiting, in whatever workflow, has been
leased and completed, the count says how many they were, and no other job has
changed its state. -/
theorem drain_completes (c : Call) (hlim : 1 ≤ c.limit) :
    ∀ (rounds : List Round) (now : Time) (drained : Nat) (db : Db), Drainable c now db →
      Orderly now rounds → waitingCount db < rounds.length →
      ∃ db', drain c rounds drained db = some (some (drained + waitingCount db), db') ∧
        db'.jobs.map (fun k => (k.id, k.state)) = db.jobs.map fun j => (j.id, drainedState j.state)
  | [], _, _, _, _, _, hlen => by simp at hlen
  | round :: rounds, now, drained, db, h, horder, hlen => by
    obtain ⟨hw, hclock, hdone, hrest⟩ := horder
    obtain ⟨jobs, hfetch, hids⟩ := fetch_returns_taken c hw hlim h.spare
    have hlength : jobs.length = (taken c round.world db).length := by
      simpa using congrArg List.length hids
    have hpair : fetch c round.world db = (.ok jobs, (fetch c round.world db).2) := by
      rw [← hfetch]
    unfold drain
    rw [hpair]
    dsimp only
    split
    next hnil =>
      -- nothing came back, so nothing was left
      have htaken : taken c round.world db = [] := List.length_eq_zero_iff.mp (by rw [← hlength, hnil]; rfl)
      have hnone : ∀ j ∈ db.jobs, j.state ≠ .available := fun j hj havail =>
        h.exists_taken hlim hw hclock hj havail htaken
      have hzero : waitingCount db = 0 :=
        List.countP_eq_zero.mpr fun j hj => by simpa using hnone j hj
      obtain ⟨f, hf, hrow⟩ := fetch_rewrites c (by omega) hw db
      refine ⟨_, by rw [hzero, Nat.add_zero], ?_⟩
      rw [hf, List.map_map]
      refine List.map_congr_left fun j hj => ?_
      rw [Function.comp, (hrow j hj).2.2.2 (by rw [htaken]; exact List.not_mem_nil), drainedState,
        if_neg (hnone j hj)]
    next hsome =>
      obtain ⟨hlinked, -, -⟩ := fetched h round.world
      obtain ⟨db', hrun⟩ := complete_accepted hlinked.sound (completions jobs) c.worker
        round.done
      rw [hrun]
      dsimp only
      obtain ⟨g, hg, hrow⟩ := round_rows h hlim hw hids round.done
      rw [show _ = db'.jobs from congrArg Tables.jobs (Except.ok.inj (Db.run_ok hrun))] at hg
      have hcount := waitingCount_map hg (taken_nodup c round.world db)
        (fun j hj => mem_taken j hj) fun j hj => by
          refine ⟨fun havail => (hrow j hj).available havail, fun hout => ?_⟩
          exact ((hrow j hj).state hout.1).trans hout.2
      have hpos : 0 < jobs.length := List.length_pos_iff.mpr hsome
      rw [List.length_cons] at hlen
      obtain ⟨db'', hdrain, hstates⟩ := drain_completes c hlim rounds round.done (drained + jobs.length) db'
        (round_drainable h hlim hw hids hclock hdone hrun) hrest (by omega)
      refine ⟨db'', ?_, ?_⟩
      · rw [hdrain]
        congr 3
        omega
      · rw [hstates, hg, List.map_map]
        refine List.map_congr_left fun j hj => ?_
        have hstep := hrow j hj
        rw [Function.comp, hstep.id]
        by_cases htaken : j ∈ taken c round.world db
        · rw [hstep.completed htaken, drainedState, drainedState, if_pos (mem_taken j htaken).2]
          rfl
        · rw [hstep.state htaken]

/-- **Workflows come to an end.** After any run that inserts workflows with
ascending edges and deletes no dead letters by hand: if nothing is running, no job
waits for a dead one, and what waits is on the queues, has attempts to make and is
due unless it is parked, then the loop of `drain` returns with every waiting job
completed, parked ones included, and their number. -/
theorem workflows_complete (ss : List Stmt) (hss : ∀ s ∈ ss, Ascends s ∧ ¬ Purges s) (c : Call)
    (hlim : 1 ≤ c.limit) (now : Time) (rounds : List Round) (horder : Orderly now rounds)
    (henough : waitingCount (Db.after ss) < rounds.length)
    (hidle : ∀ j ∈ (Db.after ss).jobs, j.state ≠ .running)
    (hcalm : ∀ j ∈ (Db.after ss).jobs, ¬ Stranded (Db.after ss).toTables j)
    (hwaiting : ∀ j ∈ (Db.after ss).jobs, j.state = .available → j.queue ∈ c.queues ∧
      1 ≤ j.maxAttempts ∧ (j.pendingDeps = 0 → j.scheduledAt ≤ (now : WithTop Time))) :
    ∃ db', drain c rounds 0 (Db.after ss) = some (some (waitingCount (Db.after ss)), db') ∧
      db'.jobs.map (fun k => (k.id, k.state)) =
        (Db.after ss).jobs.map fun j => (j.id, drainedState j.state) := by
  have hdrainable : Drainable c now (Db.after ss) :=
    ⟨linked_run Db.empty linked_empty ss hss, hcalm, hidle, fun j hj h => (hwaiting j hj h).1,
      fun j hj h => (Lifecycle.coherent_after ss j hj).spare h (hwaiting j hj h).2.1,
      fun j hj h => (hwaiting j hj h).2.2⟩
  obtain ⟨db', hdrain, hstates⟩ := drain_completes c hlim rounds now 0 (Db.after ss) hdrainable horder
    henough
  exact ⟨db', by rw [hdrain, Nat.zero_add], hstates⟩

/-- A chain of two jobs, and a leaser that takes one job at a time. -/
def pair : List Stmt := [.insertWorkflow Stranding.chain 0]

theorem pair_ascends : ∀ s ∈ pair, Ascends s ∧ ¬ Purges s := by
  refine List.forall_mem_singleton.mpr ⟨?_, fun h => h.elim⟩
  show ∀ e ∈ Stranding.chain.edges, e.1 < e.2
  decide

theorem workflows_complete_pair : ∃ db', drain { queues := ["default"], limit := 1, lease := 30, worker := 7 }
    [⟨Ordering.instant 1, 2⟩, ⟨Ordering.instant 3, 4⟩, ⟨Ordering.instant 5, 6⟩] 0 (Db.after pair) =
      some (some 2, db') ∧ db'.jobs.map (fun k => (k.id, k.state)) = [(1, .completed), (2, .completed)] := by
  have hidle : ∀ j ∈ (Db.after pair).jobs, j.state ≠ .running := by decide
  have hcalm : ∀ j ∈ (Db.after pair).jobs, ¬ Stranded (Db.after pair).toTables j := by decide
  have hwaiting : ∀ j ∈ (Db.after pair).jobs, j.state = .available → j.queue ∈ ["default"] ∧
      1 ≤ j.maxAttempts ∧ (j.pendingDeps = 0 → j.scheduledAt ≤ ((0 : Time) : WithTop Time)) := by
    decide
  exact workflows_complete pair pair_ascends { queues := ["default"], limit := 1, lease := 30, worker := 7 }
    (by decide) 0 [⟨Ordering.instant 1, 2⟩, ⟨Ordering.instant 3, 4⟩, ⟨Ordering.instant 5, 6⟩]
    ⟨Ordering.alone_instant 1, by decide, by decide, Ordering.alone_instant 3, by decide, by decide,
      Ordering.alone_instant 5, by decide, by decide, trivial⟩ (by decide) hidle hcalm hwaiting

end Gylo.Store.Progress
