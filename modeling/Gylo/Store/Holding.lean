import Gylo.Store.Fencing
import Gylo.Store.FetchCall
import Gylo.Store.Retention

/-! # What can end a lease

A running row is out of reach of most statements: they take available rows,
finished ones, or rows whose lease has run out. What is left is what its holder
says about it, and a reclaim after the lease. -/
namespace Gylo.Store.Holding

open Gylo.Store Gylo.Store.Dependencies Gylo.Store.FetchCall Runs
open Gylo.Store.Lifecycle (Coherent)

/-- The statement is about this running row: a report or a change of lease by its
holder that lists it, or a reclaim that finds its lease expired. -/
def Reaches (j : Job) : Stmt → Prop
  | .complete batch worker _ => j.HeldBy worker ∧ j.id ∈ batch.map Prod.fst
  | .retryMany a => j.HeldBy a.worker ∧ j.id ∈ a.batch.map Prod.fst
  | .discardMany batch worker _ => j.HeldBy worker ∧ j.id ∈ batch.map Prod.fst
  | .renew ids worker _ _ | .abandon ids worker _ => j.HeldBy worker ∧ j.id ∈ ids
  | .reclaim _ _ now => j.LeaseExpired now
  | _ => False

section
variable {db : Db} {j : Job}

/-! ## One statement after the other -/

theorem batchEntry_unlisted {β : Type} {batch : List (JobId × β)} {worker : Uuid}
    (h : ¬ (j.HeldBy worker ∧ j.id ∈ batch.map Prod.fst)) : batchEntry batch worker j = none := by
  cases hentry : batchEntry batch worker j with
  | none => rfl
  | some b => exact absurd ⟨heldBy_of_batchEntry hentry, listed_of_batchEntry hentry⟩ h

/-- A fetch takes available rows. -/
theorem leaseRow_running {a : Fetch} {chosen : List Job} (hj : j ∈ db.jobs) (hrun : j.state = .running)
    (hchosen : ∀ k ∈ chosen, k ∈ db.jobs ∧ k.state = .available) :
    leaseRow a (chosen.map Job.id) j = j := by
  refine if_neg fun hmem => ?_
  obtain ⟨k, hk, hid⟩ := List.mem_map.mp hmem
  obtain ⟨hk, hwaiting⟩ := hchosen k hk
  cases db.eq_of_id hk hj hid
  cases hrun.symm.trans hwaiting

theorem lockedUnkeyed_available {t : Tables} {a : Fetch} {k : Job} (h : k ∈ t.lockedUnkeyed a) :
    k ∈ t.jobs ∧ k.state = .available :=
  ⟨(mem_lockedUnkeyed h).1, (mem_lockedUnkeyed h).2.1.1⟩

theorem admitted_available {snapshot t : Tables} {a : Fetch} {k : Job} (h : k ∈ t.admitted a snapshot) :
    k ∈ t.jobs ∧ k.state = .available :=
  ⟨(mem_jobs_of_admitted h).1, (mem_jobs_of_admitted h).2.1.1⟩

/-- A reclaim lists expired leases. -/
theorem reclaimRow_unexpired (limit : Int) (visit : List JobId) (now : Time) (hj : j ∈ db.jobs)
    (h : ¬ j.LeaseExpired now) : reclaimRow (db.expired limit visit now) now j = j := by
  unfold reclaimRow
  split
  · next e he =>
    obtain ⟨k, hk, hexpired, rfl⟩ := mem_expired (List.mem_of_find?_eq_some he)
    have hid : k.id = j.id := by simpa using List.find?_some he
    cases db.eq_of_id hk hj hid
    exact absurd hexpired h
  · rfl

theorem rowMap_kept {s : Stmt} (hj : j ∈ db.jobs) (hrun : j.state = .running) (h : ¬ Reaches j s) :
    s.rowMap db.toTables j = j := by
  cases s with
  | fetchUnkeyed a => exact leaseRow_running hj hrun fun k hk => lockedUnkeyed_available hk
  | fetchKeyed a => exact leaseRow_running hj hrun fun k hk => admitted_available hk
  | retryMany a => simp only [Stmt.rowMap, retryRow, batchEntry_unlisted h]
  | discardMany batch worker now =>
    simp [Stmt.rowMap, Tables.discardRow, batchEntry_unlisted h, hrun]
  | cancel ids now => exact if_neg fun hc => by cases hrun.symm.trans hc.2
  | reclaim limit visit now => exact reclaimRow_unexpired limit visit now hj h
  | renew ids worker lease now => exact if_neg fun hr => h ⟨hr.2, hr.1⟩
  | abandon ids worker now => exact if_neg fun hr => h ⟨hr.2, hr.1⟩
  | retryDiscarded ids queue now => exact if_neg fun hr => by cases hrun.symm.trans hr.1
  | _ => rfl

/-- **A running row keeps its place and all its columns** through every statement
that is not about it. -/
theorem running_kept {s : Stmt} (hsound : Sound db.toTables) (hrows : ∀ j ∈ db.jobs, Coherent j)
    (hj : j ∈ db.jobs) (hrun : j.state = .running) (h : ¬ Reaches j s) : j ∈ (db.exec s).jobs := by
  have hlive : j.Live := .inr hrun
  rcases db.exec_cases s with hsame | heff
  · rwa [hsame]
  · have hform := Stmt.effect_form db.ids_nodup heff
    generalize (db.exec s).toTables = t' at heff hform ⊢
    cases hform with
    | rows => exact List.mem_map.mpr ⟨j, hj, rowMap_kept hj hrun h⟩
    | complete batch worker now hs =>
      subst hs
      -- its parents have completed, so no batch counts one of them
      have hcounted := Fencing.counted_running hsound batch worker hj hrun
      refine List.mem_map.mpr ⟨j, hj, ?_⟩
      simp only [Tables.completeRow, batchEntry_unlisted h, hcounted, if_true]
    | insert rows es new jobs edges =>
      rw [jobs]
      exact List.mem_append_left _ hj
    | delete hdeletes =>
      cases s with
      | purgeDiscarded queue =>
        cases heff
        exact Retention.mem_deleteJobs.mpr ⟨hj, Retention.discarded_not_live hj hlive⟩
      | prune a =>
        rw [limited_ok heff]
        exact Retention.mem_deleteJobs.mpr ⟨hj, Retention.live_not_victim hrows a hj hlive⟩
      | pruneWorkflows =>
        cases heff
        exact hj
      | _ => cases hdeletes
end

/-! ## What sets a lease -/

/-- The statement writes this lease to rows of the worker: a fetch, `RENEW` or `ABANDON`
for it. -/
def SetsLease (w : Uuid) (e : Option Time) : Stmt → Prop
  | .fetchUnkeyed a | .fetchKeyed a => a.worker = w ∧ e = some (a.now + a.lease)
  | .renew _ worker lease now => worker = w ∧ e = some (now + lease)
  | .abandon _ worker now => worker = w ∧ e = some (now - 1)
  | _ => False

section
variable {db : Db} {w : Uuid} {j k : Job}

theorem leaseRow_sets {a : Fetch} {chosen : List JobId} (h : (leaseRow a chosen j).HeldBy w) :
    leaseRow a chosen j = j ∨ a.worker = w ∧ (leaseRow a chosen j).leaseExpiresAt = some (a.now + a.lease) := by
  unfold leaseRow at h ⊢
  split
  · next hchosen =>
    rw [if_pos hchosen] at h
    exact .inr ⟨Option.some.inj h.1, rfl⟩
  · exact .inl rfl

theorem expireRow_sets {ids : List JobId} {worker : Uuid} {time : Time} (h : (expireRow ids worker time j).HeldBy w) :
    expireRow ids worker time j = j ∨ worker = w ∧ (expireRow ids worker time j).leaseExpiresAt = some time := by
  unfold expireRow at h ⊢
  split
  · next hlisted =>
    rw [if_pos hlisted] at h
    exact .inr ⟨Option.some.inj (hlisted.2.1.symm.trans h.1), rfl⟩
  · exact .inl rfl

/-- The other updates leave no row running that they touch. -/
theorem rowMap_sets {s : Stmt} {t : Tables} (h : (s.rowMap t j).HeldBy w) :
    s.rowMap t j = j ∨ SetsLease w (s.rowMap t j).leaseExpiresAt s := by
  revert h
  cases s with
  | fetchUnkeyed a => exact leaseRow_sets
  | fetchKeyed a => exact leaseRow_sets
  | renew ids worker lease now => exact expireRow_sets
  | abandon ids worker now => exact expireRow_sets
  | retryMany | discardMany | cancel | reclaim | retryDiscarded =>
    simp only [Stmt.rowMap, retryRow, Tables.discardRow, cancelRow, reclaimRow, requeueRow]
    repeat' split
    all_goals
      intro h
      first
      | exact .inl rfl
      | cases h.2
  | _ => exact fun _ => .inl rfl

/-- **A row that is held was held before, on the same lease, or the statement has set
its lease.** -/
theorem lease_of_exec {s : Stmt} (hk : k ∈ (db.exec s).jobs) (hheld : k.HeldBy w) :
    (∃ j ∈ db.jobs, j.id = k.id ∧ j.HeldBy w ∧ j.leaseExpiresAt = k.leaseExpiresAt) ∨
      SetsLease w k.leaseExpiresAt s := by
  rcases db.exec_form s with hsame | hform
  · rw [hsame] at hk
    exact .inl ⟨k, hk, rfl, hheld, rfl⟩
  · generalize (db.exec s).toTables = t' at hform hk
    cases hform with
    | rows =>
      obtain ⟨j, hj, rfl⟩ := List.mem_map.mp hk
      refine (rowMap_sets hheld).imp_left fun hrow => ?_
      rw [hrow] at hheld ⊢
      exact ⟨j, hj, rfl, hheld, rfl⟩
    | complete batch worker now =>
      obtain ⟨j, hj, rfl⟩ := List.mem_map.mp hk
      revert hheld
      unfold Tables.completeRow
      split
      · exact fun hheld => by cases hheld.2
      · dsimp only
        split <;> exact fun hheld => .inl ⟨j, hj, rfl, hheld, rfl⟩
    | insert rows es new jobs edges =>
      rw [jobs] at hk
      rcases List.mem_append.mp hk with hold | hnew
      · exact .inl ⟨k, hold, rfl, hheld, rfl⟩
      · cases hheld.2.symm.trans (new.state k hnew)
    | delete deletes jobs edges => exact .inl ⟨k, jobs.mem hk, rfl, hheld, rfl⟩
end

/-! ## What a fetch returns -/

theorem kept_by_lease {db db' : Db} {a : Fetch} {chosen : List JobId}
    (h : db'.jobs = db.jobs.map (leaseRow a chosen)) {j : Job} (hj : j ∈ db.jobs) :
    ∃ k ∈ db'.jobs, k.id = j.id :=
  ⟨leaseRow a chosen j, h ▸ List.mem_map_of_mem hj, (leaseRow_same a chosen j).id⟩

theorem returning_ids {db : Db} {chosen : List Job} (h : ∀ j ∈ chosen, ∃ k ∈ db.jobs, k.id = j.id) :
    (returning db.toTables chosen).map LeasedJob.id = chosen.map Job.id := by
  induction chosen with
  | nil => rfl
  | cons j chosen ih =>
    obtain ⟨⟨k, hk, hid⟩, hrest⟩ := List.forall_mem_cons.mp h
    have hfind : db.job? j.id = some k := db.job?_eq_some.mpr ⟨hk, hid⟩
    unfold returning at ih ⊢
    rw [List.filterMap_cons, hfind, List.map_cons, List.map_cons, List.map_cons, ih hrest]
    exact congrArg (· :: _) hid

theorem returning_lease {db db' : Db} {a : Fetch} {chosen : List Job}
    (hjobs : db'.jobs = db.jobs.map (leaseRow a (chosen.map Job.id))) (hsub : ∀ j ∈ chosen, j ∈ db.jobs) :
    (returning db'.toTables chosen).map LeasedJob.id = chosen.map Job.id :=
  returning_ids fun j hj => kept_by_lease hjobs (hsub j hj)

/-- Each row is chosen once. -/
theorem lockedUnkeyed_nodup (db : Db) (a : Fetch) : ((db.lockedUnkeyed a).map Job.id).Nodup := by
  refine List.Nodup.sublist ((List.take_sublist _ _).map Job.id) ?_
  exact ((List.perm_insertionSort _ _).map Job.id).nodup_iff.mpr
    (db.ids_nodup.sublist (List.filter_sublist.map Job.id))

theorem admitted_nodup (db : Db) (a : Fetch) : ((db.admitted a db.toTables).map Job.id).Nodup := by
  have hself : ∀ {rows : List Job}, (∀ j ∈ rows, j ∈ db.jobs) →
      rows.filterMap (fun j => db.job? j.id) = rows := by
    intro rows hrows
    rw [List.filterMap_congr fun j hj => db.job?_eq_some.mpr ⟨hrows j hj, rfl⟩]
    exact List.filterMap_some
  refine List.Nodup.sublist (List.filter_sublist.map Job.id) ?_
  unfold Tables.lockedKeyed
  rw [hself fun j hj => (List.mem_filter.mp ((List.mem_insertionSort _).mp hj)).1]
  refine List.Nodup.sublist (((List.take_sublist _ _).trans List.filter_sublist).map Job.id) ?_
  exact ((List.perm_insertionSort _ _).map Job.id).nodup_iff.mpr
    (db.ids_nodup.sublist (List.filter_sublist.map Job.id))

/-! ## Leases that last -/

/-- The worker holds the job, on a lease that lasts at least until `time`. -/
def LeasedUntil (db : Db) (worker : Uuid) (id : JobId) (time : Time) : Prop :=
  ∃ j ∈ db.jobs, j.id = id ∧ j.HeldBy worker ∧ ∃ e ∈ j.leaseExpiresAt, time ≤ e

instance (db : Db) (worker : Uuid) (id : JobId) (time : Time) :
    Decidable (LeasedUntil db worker id time) :=
  inferInstanceAs (Decidable (∃ j ∈ db.jobs, _))

/-- What every reachable database has, for a row to be safe in it. -/
structure Orderly (db : Db) : Prop where
  sound : Sound db.toTables
  rows : ∀ j ∈ db.jobs, Coherent j

theorem orderly_after (ss : List Stmt) : Orderly (Db.after ss) :=
  ⟨sound_after ss, Lifecycle.coherent_after ss⟩

theorem Orderly.exec {db : Db} (h : Orderly db) (s : Stmt) : Orderly (db.exec s) :=
  ⟨sound_exec db s h.sound, Lifecycle.coherent_exec db s h.rows⟩

section
variable {db : Db} {worker : Uuid} {id : JobId} {time : Time}

theorem LeasedUntil.mono {earlier : Time} (h : LeasedUntil db worker id time) (hle : earlier ≤ time) :
    LeasedUntil db worker id earlier := by
  obtain ⟨j, hj, hid, hheld, e, he, hlasts⟩ := h
  exact ⟨j, hj, hid, hheld, e, he, Int.le_trans hle hlasts⟩

/-- Two workers do not hold one job. -/
theorem LeasedUntil.same_worker {other : Uuid} {time' : Time} (h : LeasedUntil db worker id time)
    (h' : LeasedUntil db other id time') : worker = other := by
  obtain ⟨j, hj, hid, hheld, -⟩ := h
  obtain ⟨k, hk, hkid, hkheld, -⟩ := h'
  cases db.eq_of_id hk hj (hkid.trans hid.symm)
  exact Option.some.inj (hheld.1.symm.trans hkheld.1)

theorem LeasedUntil.not_available (h : LeasedUntil db worker id time) {j : Job} (hj : j ∈ db.jobs)
    (hid : j.id = id) : j.state ≠ .available := by
  obtain ⟨k, hk, hkid, hheld, -⟩ := h
  cases db.eq_of_id hk hj (hkid.trans hid.symm)
  exact fun hwaiting => by cases hheld.2.symm.trans hwaiting

/-- A statement that is not about the row leaves the lease. -/
theorem LeasedUntil.exec {s : Stmt} (h : LeasedUntil db worker id time) (hdb : Orderly db)
    (hs : ∀ j, j.id = id → j.HeldBy worker → (∃ e ∈ j.leaseExpiresAt, time ≤ e) → ¬ Reaches j s) :
    LeasedUntil (db.exec s) worker id time := by
  obtain ⟨j, hj, hid, hheld, hlease⟩ := h
  have hkept := running_kept hdb.sound hdb.rows hj hheld.2 (hs j hid hheld hlease)
  exact ⟨j, hkept, hid, hheld, hlease⟩

theorem run_renew (db : Db) (ids : List JobId) (worker : Uuid) (lease now : Time) :
    (db.exec (.renew ids worker lease now)).jobs = db.jobs.map (expireRow ids worker (now + lease)) := by
  have hsame : ∀ j, SameJob j (expireRow ids worker (now + lease) j) :=
    fun j => (expireRow_step (P := fun _ => True) ids worker _ j).same
  have hvalid : ∀ c, (db.toTables.mapJobs (expireRow ids worker (now + lease))).Satisfies c := by
    refine db.satisfies_mapJobs hsame (fun j hj => ?_) (fun j hj => ?_) (fun j hj => ?_) (fun j hj => ?_)
    all_goals
      unfold expireRow
      split
    · exact ⟨db.valid .attemptBounds j hj, (db.valid .smallintRange j hj).2.1⟩
    · exact ⟨db.valid .attemptBounds j hj, (db.valid .smallintRange j hj).2.1⟩
    · next hmine => simp [Job.expireAt, hmine.2.1]
    · exact db.valid .leasePaired j hj
    · exact ⟨db.valid .pendingDepsPositive j hj, (db.valid .intRange j hj).1⟩
    · exact ⟨db.valid .pendingDepsPositive j hj, (db.valid .intRange j hj).1⟩
    · exact fun hlive => hlive
    · exact fun hlive => hlive
  have hrun : db.run (.renew ids worker lease now) = .ok ⟨_, hvalid⟩ := Db.run_of_effect rfl hvalid
  rw [Db.exec_of_run hrun]
  rfl

/-- `RENEW` extends what it lists. -/
theorem LeasedUntil.renewed (h : LeasedUntil db worker id time) {ids : List JobId} (hid : id ∈ ids)
    (lease now : Time) : LeasedUntil (db.exec (.renew ids worker lease now)) worker id (now + lease) := by
  obtain ⟨j, hj, rfl, hheld, -⟩ := h
  have hrow : expireRow ids worker (now + lease) j = j.expireAt (now + lease) := if_pos ⟨hid, hheld⟩
  refine ⟨j.expireAt (now + lease), ?_, rfl, hheld, now + lease, rfl, le_refl _⟩
  rw [run_renew]
  exact List.mem_map.mpr ⟨j, hj, hrow⟩

/-- It shortens no lease that ends before the new one. -/
theorem LeasedUntil.renew (h : LeasedUntil db worker id time) (ids : List JobId) {lease now : Time}
    (hle : time ≤ now + lease) :
    LeasedUntil (db.exec (.renew ids worker lease now)) worker id time := by
  by_cases hlisted : id ∈ ids
  · exact (h.renewed hlisted lease now).mono hle
  · obtain ⟨j, hj, rfl, hheld, hlease⟩ := h
    have hrow : expireRow ids worker (now + lease) j = j := if_neg fun hr => hlisted hr.1
    refine ⟨j, ?_, rfl, hheld, hlease⟩
    rw [run_renew]
    exact List.mem_map.mpr ⟨j, hj, hrow⟩

/-- A fetch leases what it chose. -/
theorem leasedUntil_fetch {db' : Db} {a : Fetch} {chosen : List Job} (hsub : ∀ j ∈ chosen, j ∈ db.jobs)
    (hjobs : db'.jobs = db.jobs.map (leaseRow a (chosen.map Job.id))) (h : id ∈ chosen.map Job.id) :
    LeasedUntil db' a.worker id (a.now + a.lease) := by
  obtain ⟨j, hj, rfl⟩ := List.mem_map.mp h
  have hrow : leaseRow a (chosen.map Job.id) j = j.lease a.worker a.lease a.now := if_pos h
  refine ⟨j.lease a.worker a.lease a.now, ?_, rfl, ⟨rfl, rfl⟩, a.now + a.lease, rfl, le_refl _⟩
  rw [hjobs]
  exact List.mem_map.mpr ⟨j, hsub j hj, hrow⟩
end

end Gylo.Store.Holding
