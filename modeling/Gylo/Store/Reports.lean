import Gylo.Store.Effects

/-! # What a report of outcomes needs

`COMPLETE`, `RETRY_MANY` and `DISCARD_MANY` carry the outcomes of many jobs in
one statement. Each is accepted or refused as a whole: `COMPLETE` by the check on
the counter of pending parents, the other two by a text or a power that Postgres
cannot represent. -/
namespace Gylo.Store

variable (db : Db)

/-! ## When a report is accepted -/

/-- An update of running and waiting rows that leaves `attempt` and the counter
alone, and clears or keeps both lease columns, breaks no constraint. -/
theorem Db.satisfies_settle {f : Job → Job} (same : ∀ j, SameJob j (f j))
    (attempt : ∀ j, (f j).attempt = j.attempt) (pending : ∀ j, (f j).pendingDeps = j.pendingDeps)
    (lease : ∀ j ∈ db.jobs, (f j).lockedBy.isNone = (f j).leaseExpiresAt.isNone)
    (live : ∀ j ∈ db.jobs, (f j).Live → j.Live) (c : Constraint) :
    (db.toTables.mapJobs f).Satisfies c := by
  refine db.satisfies_mapJobs same (fun j hj => ?_) lease (fun j hj => ?_) live c
  · rw [attempt, (same j).maxAttempts]
    exact ⟨db.valid .attemptBounds j hj, (db.valid .smallintRange j hj).2.1⟩
  · rw [pending]
    exact ⟨db.valid .pendingDepsPositive j hj, (db.valid .intRange j hj).1⟩

theorem pendingDeps_completeRow (t : Tables) (batch : List (JobId × Option Bytes)) (worker : Uuid)
    (now : Time) (j : Job) : (t.completeRow batch worker now j).pendingDeps =
      if (batchEntry batch worker j).isSome then j.pendingDeps
      else j.pendingDeps - t.counted (t.settledBy batch worker) j.id := by
  rw [Tables.completeRow]
  cases batchEntry batch worker j with
  | some result => rfl
  | none =>
    dsimp only
    split
    · next hzero => simp [hzero]
    · rfl

/-- The check on the counter is the only one `COMPLETE` can fail. -/
theorem Db.run_complete_iff_pending (batch : List (JobId × Option Bytes)) (worker : Uuid) (now : Time) :
    (∃ db', db.run (.complete batch worker now) = .ok db') ↔
      ∀ j ∈ db.jobs, 0 ≤ (db.completeRow batch worker now j).pendingDeps := by
  have hstep := completeRow_step batch worker now db.toTables
  refine Iff.trans commit_isOk_iff ⟨fun h j hj => ?_, fun h => ?_⟩
  · exact h .pendingDepsPositive _ (List.mem_map_of_mem hj)
  · refine db.satisfies_mapJobs (fun j => (hstep j).same) (fun j hj => ?_)
      (fun j hj => (hstep j).leasePaired (db.valid .leasePaired j hj)) (fun j hj => ?_)
      (fun j _ => (hstep j).live)
    · rw [(hstep j).attempt, (hstep j).same.maxAttempts]
      exact ⟨db.valid .attemptBounds j hj, (db.valid .smallintRange j hj).2.1⟩
    · have hle := (hstep j).pendingDeps_le
      have hrange := (db.valid .intRange j hj).1
      have hnonneg := h j hj
      unfold InInt at hrange ⊢
      omega

/-- `COMPLETE` is refused exactly if it would count more parents off a row than
are pending there. -/
theorem Db.run_complete_iff (batch : List (JobId × Option Bytes)) (worker : Uuid) (now : Time) :
    (∃ db', db.run (.complete batch worker now) = .ok db') ↔
      ∀ j ∈ db.jobs, j.id ∉ db.settledBy batch worker →
        (db.counted (db.settledBy batch worker) j.id : Int) ≤ j.pendingDeps := by
  have hsettled : ∀ j ∈ db.jobs, j.id ∈ db.settledBy batch worker ↔ (batchEntry batch worker j).isSome := by
    intro j hj
    rw [mem_settledBy]
    refine ⟨fun h => ?_, fun h => ⟨j, hj, h, rfl⟩⟩
    obtain ⟨k, hk, hsome, hid⟩ := h
    exact db.eq_of_id hk hj hid ▸ hsome
  rw [db.run_complete_iff_pending]
  refine forall₂_congr fun j hj => ?_
  have hnonneg : 0 ≤ j.pendingDeps := db.valid .pendingDepsPositive j hj
  rw [hsettled j hj, pendingDeps_completeRow]
  split
  · next hsome => exact ⟨fun _ hnot => absurd hsome hnot, fun _ => hnonneg⟩
  · next hnone => exact ⟨fun h _ => Int.sub_nonneg.mp h, fun h => Int.sub_nonneg.mpr (h hnone)⟩

theorem not_commits {e : DbError} : ¬ ∃ db', (Except.error e >>= commit) = .ok db' := by
  intro h
  obtain ⟨db', h⟩ := h
  cases h

/-- The batch carries a text with U+0000. -/
def HasNul (batch : List (JobId × String)) : Prop := ∃ v ∈ batch, hasNul v.2 = true

instance (batch : List (JobId × String)) : Decidable (HasNul batch) :=
  inferInstanceAs (Decidable (∃ v ∈ batch, _))

/-- A row the batch reschedules whose backoff overflows before it is capped. -/
def Overflows (t : Tables) (a : Retry) : Prop :=
  ∃ j ∈ t.jobs, (batchEntry a.batch a.worker j).isSome ∧ j.attempt < j.maxAttempts ∧
    Unbounded a.base j.attempt

instance (t : Tables) (a : Retry) : Decidable (Overflows t a) :=
  inferInstanceAs (Decidable (∃ j ∈ t.jobs, _))

theorem attempt_retryRow (a : Retry) (j : Job) : (retryRow a j).attempt = j.attempt := by
  unfold retryRow
  split
  · split <;> rfl
  · rfl

theorem Db.run_retryMany_iff (a : Retry) :
    (∃ db', db.run (.retryMany a) = .ok db') ↔ ¬ HasNul a.batch ∧ ¬ Overflows db.toTables a := by
  have hnul : (a.batch.any fun v => hasNul v.2) = true ↔ HasNul a.batch := List.any_eq_true
  have hpower : (db.jobs.any fun j => (batchEntry a.batch a.worker j).isSome ∧
      j.attempt < j.maxAttempts ∧ Unbounded a.base j.attempt) = true ↔ Overflows db.toTables a := by
    simp [Overflows]
  have hstep := retryRow_step (P := fun _ => False) a
  simp only [Db.run, Stmt.effect, Tables.retryMany, hnul]
  rw [if_congr hpower rfl rfl]
  split
  · next h => exact ⟨fun hrun => absurd hrun not_commits, fun hnot => absurd h hnot.1⟩
  · next h =>
    split
    · next hover => exact ⟨fun hrun => absurd hrun not_commits, fun hnot => absurd hover hnot.2⟩
    · next hover =>
      refine ⟨fun _ => ⟨h, hover⟩, fun _ => ⟨_, commit_eq_ok ?_⟩⟩
      refine db.satisfies_settle (fun j => (hstep j).same) (attempt_retryRow a)
        (fun j => (hstep j).pendingDeps) (fun j hj => ?_) fun j hj hlive => ?_
      · unfold retryRow
        split
        · split <;> rfl
        · exact db.valid .leasePaired j hj
      · revert hlive
        unfold retryRow
        split
        · next hentry => exact fun _ => .inr (heldBy_of_batchEntry hentry).2
        · exact id

theorem Db.run_discardMany_iff (batch : List (JobId × String)) (worker : Uuid) (now : Time) :
    (∃ db', db.run (.discardMany batch worker now) = .ok db') ↔ ¬ HasNul batch := by
  have hnul : (batch.any fun v => hasNul v.2) = true ↔ HasNul batch := List.any_eq_true
  have hstep := discardRow_step (P := fun _ => False) batch worker now db.toTables
  simp only [Db.run, Stmt.effect, Tables.discardMany, hnul]
  split
  · next h => exact ⟨fun hrun => absurd hrun not_commits, fun hnot => absurd h hnot⟩
  · next h =>
    refine ⟨fun _ => h, fun _ => ⟨_, commit_eq_ok ?_⟩⟩
    refine db.satisfies_settle (fun j => (hstep j).same) (fun j => ?_) (fun j => (hstep j).pendingDeps)
      (fun j hj => ?_) fun j hj hlive => ?_
    · unfold Tables.discardRow
      split
      · rfl
      · split <;> rfl
    · unfold Tables.discardRow
      split
      · rfl
      · split <;> exact db.valid .leasePaired j hj
    · revert hlive
      unfold Tables.discardRow
      split
      · next hentry => exact fun _ => .inr (heldBy_of_batchEntry hentry).2
      · split
        · next hwalk => exact fun _ => .inl hwalk.2
        · exact id

end Gylo.Store
