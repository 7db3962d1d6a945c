import Gylo.Store.Effects

/-! # A reclaim that races with renewals and leases

At READ COMMITTED the `expired` rows of `RECLAIM` come from the statement's
snapshot, while its updates act on the latest version of each row and look at
`state` only. Between the two another worker may renew a lease, or a second
reclaim may free the job and a fetch lease it again. The state of the model is
therefore the database together with the passes that have read their snapshot
and not yet written. -/
namespace Gylo.Store.Reclaim

open Gylo.Store Runs

/-! ## The race -/

/-- A `RECLAIM` between its snapshot and its updates. -/
structure Pass where
  now : Time
  expired : List Expired
deriving DecidableEq

structure Race where
  db : Db
  passes : List Pass := []

inductive Act where
  | snapshot (limit : Int) (visit : List JobId) (now : Time)
  | update (i : Nat)
  | renew (ids : List JobId) (worker : Uuid) (lease now : Time)
  | fetchUnkeyed (a : Fetch)
  | fetchKeyed (a : Fetch)

def step (r : Race) : Act → Race
  | .snapshot limit visit now =>
    if limit < 0 then r else { r with passes := r.passes ++ [⟨now, r.db.expired limit visit now⟩] }
  | .update i =>
    match r.passes[i]? with
    | some p => ⟨r.db.attempt (r.db.reclaimFrom p.expired p.now), r.passes.eraseIdx i⟩
    | none => r
  | .renew ids worker lease now => { r with db := r.db.exec (.renew ids worker lease now) }
  | .fetchUnkeyed a => { r with db := r.db.exec (.fetchUnkeyed a) }
  | .fetchKeyed a => { r with db := r.db.exec (.fetchKeyed a) }

/-- With nothing in between, the two halves are the atomic statement. -/
theorem snapshot_update (db : Db) {limit : Int} (h : 0 ≤ limit) (visit : List JobId) (now : Time) :
    step (step ⟨db, []⟩ (.snapshot limit visit now)) (.update 0) =
      ⟨db.exec (.reclaim limit visit now), []⟩ := by
  have hlim : ¬ limit < 0 := by omega
  have hrun : db.run (.reclaim limit visit now) =
      commit (db.reclaimFrom (db.expired limit visit now) now) := by
    simp only [Db.run, Stmt.effect, limited, if_neg hlim]
    rfl
  simp only [step, if_neg hlim, Db.exec, hrun]
  rfl

/-- Row `j` is listed by a pass in flight. -/
def Listed (r : Race) (j : Job) : Prop := ∃ p ∈ r.passes, ∃ e ∈ p.expired, e.id = j.id

instance (r : Race) (j : Job) : Decidable (Listed r j) :=
  inferInstanceAs (Decidable (∃ p ∈ r.passes, ∃ e ∈ p.expired, _))

/-- No renewal and no fetch can touch a row that a pass in flight lists. -/
def Clear (r : Race) : Act → Prop
  | .renew ids worker _ _ => ∀ j ∈ r.db.jobs, j.id ∈ ids → j.HeldBy worker → ¬ Listed r j
  | .fetchUnkeyed a => ∀ j ∈ r.db.jobs, j.Due a.queues a.now → ¬ Listed r j
  | .fetchKeyed a => ∀ j ∈ r.db.jobs, j.Due a.queues a.now → ¬ Listed r j
  | _ => True

instance (r : Race) : (a : Act) → Decidable (Clear r a)
  | .renew ids worker _ _ => inferInstanceAs (Decidable (∀ j ∈ r.db.jobs, j.id ∈ ids →
      j.HeldBy worker → ¬ Listed r j))
  | .fetchUnkeyed a => inferInstanceAs (Decidable (∀ j ∈ r.db.jobs, j.Due a.queues a.now →
      ¬ Listed r j))
  | .fetchKeyed a => inferInstanceAs (Decidable (∀ j ∈ r.db.jobs, j.Due a.queues a.now →
      ¬ Listed r j))
  | .snapshot .. => isTrue trivial
  | .update _ => isTrue trivial

/-! ## What a pass in flight knows -/

/-- The CTE row still describes the latest version, if that is running at all. -/
def Current (db : Db) (p : Pass) : Prop :=
  ∀ e ∈ p.expired, ∀ j ∈ db.jobs, j.id = e.id → j.state = .running →
    j.LeaseExpired p.now ∧ (e.exhausted = true ↔ j.maxAttempts ≤ j.attempt)

def AllCurrent (r : Race) : Prop := ∀ p ∈ r.passes, Current r.db p

theorem current_snapshot (db : Db) (limit : Int) (visit : List JobId) (now : Time) :
    Current db ⟨now, db.expired limit visit now⟩ := by
  intro e he j hj hid _
  obtain ⟨k, hk, hexp, rfl⟩ := mem_expired he
  cases db.eq_of_id hj hk hid
  exact ⟨hexp, decide_eq_true_iff⟩

/-- An update that puts no listed row into `running` and leaves the running
ones as they are keeps the passes current. -/
theorem current_mapJobs {db db' : Db} {p : Pass} (h : Current db p) {f : Job → Job}
    (hdb : db'.toTables = db.toTables.mapJobs f) (hid : ∀ j ∈ db.jobs, (f j).id = j.id)
    (hf : ∀ j ∈ db.jobs, (∃ e ∈ p.expired, e.id = j.id) → (f j).state = .running → f j = j) :
    Current db' p := by
  intro e he k hk hke hrun
  rw [show db'.jobs = db.jobs.map f from congrArg Tables.jobs hdb] at hk
  obtain ⟨j, hj, rfl⟩ := List.mem_map.mp hk
  rw [hid j hj] at hke
  have hsame := hf j hj ⟨e, he, hke.symm⟩ hrun
  rw [hsame] at hrun ⊢
  exact h e he j hj hke hrun

theorem reclaimRow_running {expired : List Expired} {now : Time} {j : Job}
    (h : (reclaimRow expired now j).state = .running) : reclaimRow expired now j = j := by
  unfold reclaimRow at h ⊢
  split
  · next e he =>
    rw [he] at h
    dsimp only at h
    split
    · next hrun =>
      rw [if_pos hrun] at h
      split at h <;> cases h
    · rfl
  · rfl

theorem reclaimRow_id (expired : List Expired) (now : Time) (j : Job) :
    (reclaimRow expired now j).id = j.id := by
  unfold reclaimRow
  split
  · split
    · split <;> rfl
    · rfl
  · rfl

/-- A fetch or a renewal that stays clear of the listed rows leaves them. -/
theorem current_exec {r : Race} (h : AllCurrent r) {s : Stmt} (hs : s.updatesRows = true)
    (hf : ∀ j ∈ r.db.jobs, Listed r j → s.rowMap r.db.toTables j = j) :
    AllCurrent { r with db := r.db.exec s } := by
  intro p hp
  rcases r.db.exec_rows hs with hsame | hrows
  · rw [show ({ r with db := r.db.exec s } : Race).db = r.db from hsame]
    exact h p hp
  · refine current_mapJobs (h p hp) hrows (fun j hj => ?_) fun j hj hlist _ => ?_
    · exact (s.rowMap_step r.db.ids_nodup j hj).same.id
    · obtain ⟨e, he, hej⟩ := hlist
      exact hf j hj ⟨p, hp, e, he, hej⟩

theorem leaseRow_clear {r : Race} {a : Fetch} {chosen : List Job}
    (hclear : ∀ j ∈ r.db.jobs, j.Due a.queues a.now → ¬ Listed r j)
    (hsub : ∀ j ∈ chosen, j ∈ r.db.jobs ∧ j.Due a.queues a.now) {j : Job} (hj : j ∈ r.db.jobs)
    (hlist : Listed r j) : leaseRow a (chosen.map Job.id) j = j := by
  unfold leaseRow
  rw [if_neg]
  intro hmem
  obtain ⟨k, hk, hid⟩ := List.mem_map.mp hmem
  obtain ⟨hkdb, hdue⟩ := hsub k hk
  cases r.db.eq_of_id hkdb hj hid
  exact hclear _ hkdb hdue hlist

/-- Every step that stays clear keeps the passes in flight current. -/
theorem allCurrent_step (r : Race) (a : Act) (h : AllCurrent r) (hc : Clear r a) :
    AllCurrent (step r a) := by
  cases a with
  | snapshot limit visit now =>
    simp only [step]
    split
    · exact h
    · intro p hp
      rcases List.mem_append.mp hp with hp | hp
      · exact h p hp
      · cases List.mem_singleton.mp hp
        exact current_snapshot r.db limit visit now
  | update i =>
    simp only [step]
    split
    · next q hq =>
      intro p hp
      have hp := h p (List.mem_of_mem_eraseIdx hp)
      rcases r.db.attempt_cases (r.db.reclaimFrom q.expired q.now) with hsame | hrows
      · dsimp only
        rw [hsame]
        exact hp
      · exact current_mapJobs hp hrows (fun j _ => reclaimRow_id _ _ j)
          fun j _ _ hrun => reclaimRow_running hrun
    · exact h
  | renew ids worker lease now =>
    refine current_exec h rfl fun j hj hlist => ?_
    simp only [Stmt.rowMap, expireRow]
    rw [if_neg]
    exact fun hheld => hc j hj hheld.1 hheld.2 hlist
  | fetchUnkeyed a =>
    refine current_exec h rfl fun j hj hlist => leaseRow_clear hc (fun k hk => ?_) hj hlist
    obtain ⟨hkdb, hdue, -⟩ := mem_lockedUnkeyed hk
    exact ⟨hkdb, hdue⟩
  | fetchKeyed a =>
    refine current_exec h rfl fun j hj hlist => leaseRow_clear hc (fun k hk => ?_) hj hlist
    obtain ⟨hkdb, hdue, -⟩ := mem_jobs_of_admitted hk
    exact ⟨hkdb, hdue⟩

/-! ## What a reclaim takes -/

/-- The update of pass `p` takes the running version `j` of a row rightly: its
lease is over if it leaves `running`, and it has attempts left if it becomes
available. -/
def TakesRightly (p : Pass) (j k : Job) : Prop :=
  (k.state ≠ .running → ∃ l ∈ j.leaseExpiresAt, l < p.now) ∧
  (k.state = .available → j.attempt < j.maxAttempts)

instance (p : Pass) (j k : Job) : Decidable (TakesRightly p j k) :=
  inferInstanceAs (Decidable (_ ∧ _))

theorem reclaimRow_rightly {db : Db} {p : Pass} (h : Current db p) {j : Job} (hj : j ∈ db.jobs)
    (hrun : j.state = .running) : TakesRightly p j (reclaimRow p.expired p.now j) := by
  unfold reclaimRow
  split
  · next e he =>
    have hid : e.id = j.id := by simpa using List.find?_some he
    obtain ⟨hexp, hout⟩ := h e (List.mem_of_find?_eq_some he) j hj hid.symm hrun
    rw [if_pos hrun]
    split
    · exact ⟨fun _ => hexp.2, nofun⟩
    · next hleft =>
      rw [hout, not_le] at hleft
      exact ⟨fun _ => hexp.2, fun _ => hleft⟩
  · exact ⟨fun hne => absurd hrun hne, fun havail => by rw [hrun] at havail; cases havail⟩

/-- **Reclaim takes only what has expired**, in every race in which renewals
and fetches stay clear of the rows a pass in flight lists: whenever such a
pass writes, each running version it moves has an expired lease, and each
version it makes available has attempts left. -/
theorem reclaim_takes_expired (db : Db) (as : List Act) (h : Along step Clear ⟨db, []⟩ as)
    (i : Nat) : ∀ p, (run step ⟨db, []⟩ as).passes[i]? = some p →
      ∀ j ∈ (run step ⟨db, []⟩ as).db.jobs, j.state = .running →
        ∀ k ∈ (run step ⟨db, []⟩ (as ++ [.update i])).db.jobs, k.id = j.id → TakesRightly p j k := by
  have hcur : AllCurrent (run step ⟨db, []⟩ as) :=
    Along.inv allCurrent_step as (fun p hp => absurd hp List.not_mem_nil) h
  rw [run_concat]
  generalize run step ⟨db, []⟩ as = r at hcur ⊢
  intro p hp j hj hrun k hk hid
  simp only [step, hp] at hk
  rcases r.db.attempt_cases (r.db.reclaimFrom p.expired p.now) with hsame | hrows
  · rw [hsame] at hk
    cases r.db.eq_of_id hk hj hid
    exact ⟨fun hne => absurd hrun hne, fun havail => by rw [hrun] at havail; cases havail⟩
  · rw [hrows] at hk
    obtain ⟨i, hi, rfl⟩ := List.mem_map.mp hk
    rw [reclaimRow_id] at hid
    cases r.db.eq_of_id hi hj hid
    exact reclaimRow_rightly (hcur p (List.mem_of_getElem? hp)) hi hrun

/-- One job with two attempts, leased by worker 7 until 31. -/
def oneLease : List Stmt :=
  [.enqueue { task := "t", maxAttempts := 2 } 0,
    .fetchUnkeyed { queues := ["default"], limit := 1, worker := 7, lease := 30, now := 1 }]

def leasedOnce : Db := Db.after oneLease

/-- Its row while the lease lasts. -/
def leasedRow : Job :=
  { id := 1, queue := "default", task := "t", state := .running, payload := [], attempt := 1,
    maxAttempts := 2, scheduledAt := ((0 : Int) : WithTop Int), startedAt := some 1,
    lockedBy := some 7, leaseExpiresAt := some 31 }

/-- Two passes list the expired row; the second to have looked writes first. -/
theorem reclaim_takes_expired_twice :
    TakesRightly ⟨40, [⟨1, "default", false⟩]⟩ leasedRow leasedRow.release :=
  reclaim_takes_expired leasedOnce [.snapshot 100 [1] 39, .snapshot 100 [1] 40] (by decide) 1
    ⟨40, [⟨1, "default", false⟩]⟩ (by decide) leasedRow (by decide) rfl leasedRow.release
    (by decide) rfl

/-- A renewal between snapshot and update loses its lease all the same; and a
job that was reclaimed and leased again in between becomes available with no
attempt left. -/
theorem reclaim_takes_live :
    (∃ j ∈ (run step ⟨leasedOnce, []⟩ [.snapshot 100 [1] 40, .renew [1] 7 30 41]).db.jobs,
      ∃ k ∈ (run step ⟨leasedOnce, []⟩ [.snapshot 100 [1] 40, .renew [1] 7 30 41,
          .update 0]).db.jobs,
        k.id = j.id ∧ j.state = .running ∧ j.leaseExpiresAt = some 71 ∧ k.state ≠ .running) ∧
    (∃ j ∈ (run step ⟨leasedOnce, []⟩ [.snapshot 100 [1] 40, .snapshot 100 [1] 40, .update 0,
          .fetchUnkeyed { queues := ["default"], limit := 1, worker := 8, lease := 30, now := 41 }]).db.jobs,
      ∃ k ∈ (run step ⟨leasedOnce, []⟩ [.snapshot 100 [1] 40, .snapshot 100 [1] 40, .update 0,
          .fetchUnkeyed { queues := ["default"], limit := 1, worker := 8, lease := 30, now := 41 },
          .update 0]).db.jobs,
        k.id = j.id ∧ j.state = .running ∧ k.state = .available ∧ j.attempt = j.maxAttempts) := by
  decide

end Gylo.Store.Reclaim
