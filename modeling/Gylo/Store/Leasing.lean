import Gylo.Store.FetchCall
import Gylo.Store.Lifecycle
import Gylo.Store.Reclaim

/-! # A lease that is not refused

A fetch raises `attempt` on a whole batch in one statement, so a single row
without an attempt left makes Postgres refuse the batch. Rows come to be
available by an insert, a retry, a reclaim or an operator's retry. The two
halves of `RECLAIM` are steps of their own here, as in `Reclaim`, and a
`FETCH_KEYED` may have counted on any earlier version of the tables. -/
namespace Gylo.Store.Leasing

open Gylo.Store Gylo.Store.Reclaim Gylo.Store.Lifecycle Runs

inductive Act where
  | stmt (s : Stmt)
  | keyed (a : Fetch) (snapshot : Tables)
  | snapshot (limit : Int) (visit : List JobId) (now : Time)
  | update (i : Nat)

def step (r : Race) : Act → Race
  | .stmt s => { r with db := r.db.exec s }
  | .keyed a snapshot =>
    if a.limit < 0 then r else { r with db := r.db.attempt (r.db.fetchKeyedFrom a snapshot) }
  | .snapshot limit visit now => Reclaim.step r (.snapshot limit visit now)
  | .update i => Reclaim.step r (.update i)

/-- The queues a statement leases from, and when. -/
def leasesFrom : Stmt → Option (List String × Time)
  | .fetchUnkeyed a | .fetchKeyed a => some (a.queues, a.now)
  | _ => none

/-- Nothing due is listed by a reclaim in flight. -/
def Clear (r : Race) (queues : List String) (now : Time) : Prop :=
  ∀ j ∈ r.db.jobs, j.Due queues now → ¬ Listed r j

instance (r : Race) (queues : List String) (now : Time) : Decidable (Clear r queues now) :=
  inferInstanceAs (Decidable (∀ j ∈ r.db.jobs, j.Due queues now → ¬ Listed r j))

/-- Jobs are inserted with an attempt to spend, and no fetch runs into a row that
a reclaim in flight lists. -/
def Orderly (r : Race) : Act → Prop
  | .stmt s => (∀ new ∈ s.inserts, new.maxAttempts ≠ 0) ∧
      ∀ f ∈ leasesFrom s, Clear r f.1 f.2
  | .keyed a _ => Clear r a.queues a.now
  | .snapshot .. | .update _ => True

instance (r : Race) : (a : Act) → Decidable (Orderly r a)
  | .stmt s => inferInstanceAs (Decidable ((∀ new ∈ s.inserts, new.maxAttempts ≠ 0) ∧
      ∀ f ∈ leasesFrom s, Clear r f.1 f.2))
  | .keyed a _ => inferInstanceAs (Decidable (Clear r a.queues a.now))
  | .snapshot .. | .update _ => isTrue trivial

/-! ## Rows that can be leased -/

/-- A pass in flight takes no row for one with attempts left that is not. -/
def Accurate (db : Db) (p : Pass) : Prop :=
  ∀ e ∈ p.expired, e.exhausted = false → ∀ j ∈ db.jobs, j.id = e.id → j.state = .running →
    j.attempt < j.maxAttempts

structure Inv (r : Race) : Prop where
  coherent : ∀ j ∈ r.db.jobs, Coherent j
  positive : ∀ j ∈ r.db.jobs, 1 ≤ j.maxAttempts
  accurate : ∀ p ∈ r.passes, Accurate r.db p

/-- What waits has an attempt left. -/
theorem Inv.spare {r : Race} (h : Inv r) {j : Job} (hj : j ∈ r.db.jobs) (havail : j.state = .available) :
    j.attempt < j.maxAttempts :=
  (h.coherent j hj).spare havail (h.positive j hj)

theorem positive_exec {db : Db} {s : Stmt} (hpos : ∀ j ∈ db.jobs, 1 ≤ j.maxAttempts)
    (hnew : ∀ new ∈ s.inserts, new.maxAttempts ≠ 0) : ∀ j ∈ (db.exec s).jobs, 1 ≤ j.maxAttempts := by
  rcases db.exec_cases s with hsame | heffect
  · rw [hsame]; exact hpos
  intro j hj
  rcases Stmt.effect_origin db.ids_nodup heffect hj with hold | hins | hcron
  · obtain ⟨k, hk, hsame⟩ := hold
    rw [hsame.maxAttempts]
    exact hpos k hk
  · obtain ⟨new, hmem, -, -, hmax, hattempt⟩ := hins
    have hle : j.attempt ≤ j.maxAttempts := (db.exec s).valid .attemptBounds j hj
    have hne := hnew new hmem
    omega
  · omega

/-- Running rows that a pass lists were running before, with the same attempts. -/
def Quiet (r : Race) (db' : Db) : Prop :=
  ∀ k ∈ db'.jobs, k.state = .running → Listed r k →
    ∃ j ∈ r.db.jobs, j.id = k.id ∧ j.state = .running ∧ k.attempt = j.attempt ∧
      k.maxAttempts = j.maxAttempts

theorem Quiet.accurate {r : Race} {db' : Db} (hq : Quiet r db')
    (h : ∀ p ∈ r.passes, Accurate r.db p) : ∀ p ∈ r.passes, Accurate db' p := by
  intro p hp e he hleft k hk hid hrun
  obtain ⟨j, hj, hjk, hjrun, hattempt, hmax⟩ := hq k hk hrun ⟨p, hp, e, he, hid.symm⟩
  rw [hattempt, hmax]
  exact h p hp e he hleft j hj (hjk.trans hid) hjrun

/-- An update that leases none of the listed rows. -/
theorem quiet_rows {r : Race} {db' : Db} {f : Job → Job} {P : Job → Prop}
    (hjobs : db'.jobs = r.db.jobs.map f) (hstep : ∀ j ∈ r.db.jobs, RowStep P j (f j))
    (hP : ∀ j ∈ r.db.jobs, Listed r j → P j → f j = j) : Quiet r db' := by
  intro k hk hrun hlist
  rw [hjobs] at hk
  obtain ⟨j, hj, rfl⟩ := List.mem_map.mp hk
  have hid := (hstep j hj).same.id
  have hlist' : Listed r j := by
    obtain ⟨p, hp, e, he, heq⟩ := hlist
    exact ⟨p, hp, e, he, heq.trans hid⟩
  have hs := hstep j hj
  generalize hk' : f j = k at *
  cases hs with
  | refl => exact ⟨j, hj, rfl, hrun, rfl, rfl⟩
  | lease worker lease now due pick =>
    -- the listed row is left alone, so it was running and not due
    have hfix := congrArg Job.state (hP j hj hlist' pick)
    rw [hk', due.1] at hfix
    cases hfix
  | expireAt time running => exact ⟨j, hj, rfl, running, rfl, rfl⟩
  | _ => cases hrun

theorem quiet_refl (r : Race) : Quiet r r.db :=
  fun k hk hrun _ => ⟨k, hk, rfl, hrun, rfl, rfl⟩

/-- A fetch that stays clear leaves the listed rows alone. -/
theorem rowMap_listed {r : Race} {s : Stmt} (hclear : ∀ f ∈ leasesFrom s, Clear r f.1 f.2) {j : Job}
    (hj : j ∈ r.db.jobs) (hlist : Listed r j) (hP : s.Leases j) : s.rowMap r.db.toTables j = j := by
  cases s with
  | fetchUnkeyed a =>
    refine leaseRow_clear (hclear (a.queues, a.now) rfl) (fun k hk => ?_) hj hlist
    obtain ⟨hkdb, hdue, -⟩ := mem_lockedUnkeyed hk
    exact ⟨hkdb, hdue⟩
  | fetchKeyed a =>
    refine leaseRow_clear (hclear (a.queues, a.now) rfl) (fun k hk => ?_) hj hlist
    obtain ⟨hkdb, hdue, -⟩ := mem_jobs_of_admitted hk
    exact ⟨hkdb, hdue⟩
  | _ => cases hP

theorem quiet_exec {r : Race} {s : Stmt} (hclear : ∀ f ∈ leasesFrom s, Clear r f.1 f.2) :
    Quiet r (r.db.exec s) := by
  rcases r.db.exec_form s with hsame | hform
  · rw [hsame]; exact quiet_refl r
  generalize hdb : r.db.exec s = db' at hform ⊢
  generalize ht : db'.toTables = t' at hform
  cases hform with
  | rows hstep =>
    exact quiet_rows (congrArg Tables.jobs ht) hstep fun j hj hlist hP => rowMap_listed hclear hj hlist hP
  | complete batch worker now hs =>
    intro k hk hrun _
    rw [ht] at hk
    obtain ⟨j, hj, rfl⟩ := List.mem_map.mp hk
    have hstep := completeRow_step batch worker now r.db.toTables j
    refine ⟨j, hj, hstep.same.id.symm, ?_, hstep.attempt, hstep.same.maxAttempts⟩
    generalize r.db.completeRow batch worker now j = k at hstep hrun
    cases hstep with
    | refl => exact hrun
    | complete result now running => exact running
    | unblock n now => exact hrun
  | insert rows es new jobs edges =>
    intro k hk hrun _
    rw [ht, jobs] at hk
    rcases List.mem_append.mp hk with hold | hrow
    · exact ⟨k, hold, rfl, hrun, rfl, rfl⟩
    · rw [new.state k hrow] at hrun; cases hrun
  | delete deletes jobs edges =>
    intro k hk hrun _
    rw [ht] at hk
    exact ⟨k, jobs.mem hk, rfl, hrun, rfl, rfl⟩

/-- An update of each row by a `RowStep` keeps the invariant, as long as it
leaves the listed rows alone where it leases. -/
theorem Inv.rows {r : Race} (h : Inv r) {db' : Db} {f : Job → Job} {P : Job → Prop}
    (hjobs : db'.jobs = r.db.jobs.map f) (hstep : ∀ j ∈ r.db.jobs, RowStep P j (f j))
    (hP : ∀ j ∈ r.db.jobs, Listed r j → P j → f j = j) : Inv { r with db := db' } where
  coherent := by
    intro k hk
    rw [show ({ r with db := db' } : Race).db.jobs = r.db.jobs.map f from hjobs] at hk
    obtain ⟨j, hj, rfl⟩ := List.mem_map.mp hk
    exact (h.coherent j hj).of_rowStep (hstep j hj)
  positive := by
    intro k hk
    rw [show ({ r with db := db' } : Race).db.jobs = r.db.jobs.map f from hjobs] at hk
    obtain ⟨j, hj, rfl⟩ := List.mem_map.mp hk
    rw [(hstep j hj).same.maxAttempts]
    exact h.positive j hj
  accurate := (quiet_rows hjobs hstep hP).accurate h.accurate

/-- An accurate pass returns only rows with attempts left. -/
theorem reclaimRow_accurate {db : Db} {p : Pass} (h : Accurate db p) {j : Job} (hj : j ∈ db.jobs) :
    RowStep (fun _ => False) j (reclaimRow p.expired p.now j) := by
  unfold reclaimRow
  split
  · next e he =>
    have hid : e.id = j.id := by simpa using List.find?_some he
    split
    · next hrun =>
      split
      · exact .discard _ _ hrun
      · next hleft =>
        exact .release hrun (h e (List.mem_of_find?_eq_some he) (by simpa using hleft) j hj hid.symm hrun)
    · exact .refl
  · exact .refl

theorem accurate_snapshot (db : Db) (limit : Int) (visit : List JobId) (now : Time) :
    Accurate db ⟨now, db.expired limit visit now⟩ := by
  intro e he hleft j hj hid hrun
  have hiff := (current_snapshot db limit visit now e he j hj hid hrun).2
  rw [hleft] at hiff
  by_contra hle
  exact absurd (hiff.mpr (not_lt.mp hle)) (by decide)

theorem inv_step (r : Race) (a : Act) (h : Inv r) (ho : Orderly r a) : Inv (step r a) := by
  cases a with
  | stmt s =>
    exact ⟨coherent_exec r.db s h.coherent, positive_exec h.positive ho.1,
      (quiet_exec ho.2).accurate h.accurate⟩
  | keyed a snapshot =>
    simp only [step]
    split
    · exact h
    have hsub : ∀ k ∈ r.db.admitted a snapshot, k ∈ r.db.jobs ∧ k.Due a.queues a.now := by
      intro k hk
      obtain ⟨hkdb, hdue, -⟩ := mem_jobs_of_admitted hk
      exact ⟨hkdb, hdue⟩
    rcases r.db.attempt_cases (r.db.fetchKeyedFrom a snapshot) with hsame | hrows
    · rw [hsame]; exact h
    · refine h.rows (congrArg Tables.jobs hrows)
        (leaseRow_step (P := fun _ => True) r.db.ids_nodup fun j hj => ?_)
        fun j hj hlist _ => leaseRow_clear ho hsub hj hlist
      exact ⟨(hsub j hj).1, (hsub j hj).2, trivial⟩
  | snapshot limit visit now =>
    simp only [step, Reclaim.step]
    split
    · exact h
    · refine ⟨h.coherent, h.positive, fun p hp => ?_⟩
      rcases List.mem_append.mp hp with hp | hp
      · exact h.accurate p hp
      · cases List.mem_singleton.mp hp
        exact accurate_snapshot r.db limit visit now
  | update i =>
    simp only [step, Reclaim.step]
    split
    · next p hp =>
      have hacc := h.accurate p (List.mem_of_getElem? hp)
      have herase : ∀ db', Inv { r with db := db' } → Inv ⟨db', r.passes.eraseIdx i⟩ := fun db' h' =>
        ⟨h'.coherent, h'.positive, fun q hq => h'.accurate q (List.mem_of_mem_eraseIdx hq)⟩
      refine herase _ ?_
      rcases r.db.attempt_cases (r.db.reclaimFrom p.expired p.now) with hsame | hrows
      · rw [hsame]; exact h
      · exact h.rows (congrArg Tables.jobs hrows) (fun j hj => reclaimRow_accurate hacc hj)
          fun _ _ _ hf => hf.elim
    · exact h

/-! ## What a fetch finds -/

theorem limited_violates {limit : Int} {t : Tables} {c : Constraint}
    (h : (limited limit t >>= commit) = .error (.violates c)) : commit t = .error (.violates c) := by
  unfold limited at h
  split at h
  · cases h
  · exact h

theorem commit_leaseRow {r : Race} (h : Inv r) (a : Fetch) {chosen : List Job}
    (hsub : ∀ j ∈ chosen, j ∈ r.db.jobs ∧ j.Due a.queues a.now) :
    ∃ db', commit (r.db.toTables.mapJobs (leaseRow a (chosen.map Job.id))) = .ok db' := by
  refine ⟨_, commit_eq_ok ((r.db.satisfies_leaseRow a chosen fun j hj => ?_).mpr fun j hj => ?_)⟩
  · exact ⟨(hsub j hj).1, (hsub j hj).2.1⟩
  · exact h.spare (hsub j hj).1 (hsub j hj).2.1

theorem commit_fetchUnkeyed {r : Race} (h : Inv r) (a : Fetch) :
    ∃ db', commit (r.db.fetchUnkeyed a) = .ok db' := by
  refine commit_leaseRow h a fun j hj => ?_
  obtain ⟨hjdb, hdue, -⟩ := mem_lockedUnkeyed hj
  exact ⟨hjdb, hdue⟩

theorem commit_fetchKeyedFrom {r : Race} (h : Inv r) (a : Fetch) (snapshot : Tables) :
    ∃ db', commit (r.db.fetchKeyedFrom a snapshot) = .ok db' := by
  refine commit_leaseRow h a fun j hj => ?_
  obtain ⟨hjdb, hdue, -⟩ := mem_jobs_of_admitted hj
  exact ⟨hjdb, hdue⟩

end Gylo.Store.Leasing
