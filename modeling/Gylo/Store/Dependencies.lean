import Gylo.Store.Reports

/-! # Dependencies between the jobs of a workflow

A job with parents starts with the number of its parents in `pending_deps`
and `scheduled_at` at infinity; each parent that completes takes one off. The
invariant ties the counter to the graph: it never falls below the number of
edges whose parent has not completed, so a job that is no longer waiting has
only completed parents, whatever mix of retries, requeues and deletions came
before. -/
namespace Gylo.Store.Dependencies

open Gylo.Store Runs

/-! ## The graph -/

/-- `c` waits for `p`. -/
def ParentOf (t : Tables) (p c : JobId) : Prop := ∃ e ∈ t.edges, e.parent = p ∧ e.child = c

/-- The recursive query of `DISCARD_MANY` finds what is downstream of its roots. -/
theorem mem_walk {t : Tables} {roots : List JobId} {id : JobId} :
    id ∈ t.walk roots ↔ ∃ r ∈ roots, Relation.TransGen (ParentOf t) r id := by
  have hedge : Reach.Edge (t.edges.map fun e => (e.parent, e.child)) = ParentOf t := by
    funext p c
    simp [Reach.Edge, ParentOf]
  rw [Tables.walk, Reach.mem_walk, hedge]

/-! ## The invariant -/

/-- A parent that has not completed. -/
def Unfinished (t : Tables) (p : JobId) : Prop := ∃ j ∈ t.jobs, j.id = p ∧ j.state ≠ .completed

instance (t : Tables) (p : JobId) : Decidable (Unfinished t p) :=
  inferInstanceAs (Decidable (∃ j ∈ t.jobs, _))

/-- The number of edges into `c` whose parent has not completed. -/
def openEdges (t : Tables) (c : JobId) : Nat :=
  t.edges.countP fun e => e.child = c ∧ Unfinished t e.parent

/-- `running`, `completed` or `discarded`: the job has been leased at least once. -/
def Started (s : JobState) : Prop := s = .running ∨ s = .completed ∨ s = .discarded

/-- What the columns of a row say about the edges into it. -/
structure RowDeps (t : Tables) (j : Job) : Prop where
  count : (openEdges t j.id : Int) ≤ j.pendingDeps
  parked : j.state = .available → (j.scheduledAt = ⊤ ↔ 0 < j.pendingDeps)
  started : Started j.state → j.pendingDeps = 0
  scheduled : j.state = .running → j.scheduledAt ≠ ⊤

def Sound (t : Tables) : Prop := ∀ j ∈ t.jobs, RowDeps t j

/-- A job that waits for nobody has only completed parents. -/
theorem parents_completed_of_pending {db : Db} (h : Sound db.toTables) {j : Job} (hj : j ∈ db.jobs)
    (hzero : j.pendingDeps = 0) {e : Edge} (he : e ∈ db.edges) (hc : e.child = j.id) :
    ∃ p ∈ db.jobs, p.id = e.parent ∧ p.state = .completed := by
  obtain ⟨-, hparent, -⟩ := db.valid .edgeFkey e he
  obtain ⟨p, hp, hid⟩ := List.mem_map.mp hparent
  have hopen : openEdges db.toTables j.id = 0 := by
    have := (h j hj).count
    rw [hzero] at this
    omega
  refine ⟨p, hp, hid, ?_⟩
  by_contra hne
  exact List.countP_eq_zero.mp hopen e he (by simpa using ⟨hc, p, hp, hid, hne⟩)

/-- A job that was leased has only completed parents. -/
theorem parents_completed {db : Db} (h : Sound db.toTables) {j : Job} (hj : j ∈ db.jobs)
    (hs : Started j.state) {e : Edge} (he : e ∈ db.edges) (hc : e.child = j.id) :
    ∃ p ∈ db.jobs, p.id = e.parent ∧ p.state = .completed :=
  parents_completed_of_pending h hj ((h j hj).started hs) he hc

/-! ## Rows that change without completing -/

theorem unfinished_mapJobs {t : Tables} {f : Job → Job} (hid : ∀ j ∈ t.jobs, (f j).id = j.id)
    (hst : ∀ j ∈ t.jobs, (f j).state = .completed ↔ j.state = .completed) (p : JobId) :
    Unfinished (t.mapJobs f) p ↔ Unfinished t p := by
  constructor
  · rintro ⟨k, hk, rfl, hne⟩
    obtain ⟨j, hj, rfl⟩ := List.mem_map.mp hk
    exact ⟨j, hj, (hid j hj).symm, fun h => hne ((hst j hj).mpr h)⟩
  · rintro ⟨j, hj, rfl, hne⟩
    exact ⟨_, List.mem_map_of_mem hj, hid j hj, fun h => hne ((hst j hj).mp h)⟩

theorem not_started_available : ¬ Started .available := by
  unfold Started; decide

theorem not_started_cancelled : ¬ Started .cancelled := by
  unfold Started; decide

theorem RowDeps.of_rowStep {P : Job → Prop} {t t' : Tables} {j k : Job} (hj : RowDeps t j)
    (hopen : openEdges t' j.id ≤ openEdges t j.id) (h : RowStep P j k) : RowDeps t' k := by
  obtain ⟨hc, hp, hs, hr⟩ := hj
  have hcount : (openEdges t' k.id : Int) ≤ k.pendingDeps := by
    rw [h.same.id, h.pendingDeps]; omega
  suffices hrest : (k.state = .available → (k.scheduledAt = ⊤ ↔ 0 < k.pendingDeps)) ∧
      (Started k.state → k.pendingDeps = 0) ∧ (k.state = .running → k.scheduledAt ≠ ⊤) from
    ⟨hcount, hrest.1, hrest.2.1, hrest.2.2⟩
  cases h with
  | refl => exact ⟨hp, hs, hr⟩
  | lease worker lease now due pick =>
    -- a due row is not parked, so nothing is pending
    have hfin : j.scheduledAt ≠ ⊤ := fun h => by simpa [h] using due.2.2
    have hzero : j.pendingDeps = 0 := by
      have hnot : ¬ 0 < j.pendingDeps := fun h => hfin ((hp due.1).mpr h)
      omega
    exact ⟨(fun h => by cases h), fun _ => hzero, fun _ => hfin⟩
  | reschedule delay error now running left =>
    have hzero := hs (.inl running)
    refine ⟨fun _ => ?_, fun h => absurd h not_started_available, fun h => by cases h⟩
    simp [Job.reschedule, hzero, WithTop.coe_ne_top]
  | release running left =>
    have hzero := hs (.inl running)
    refine ⟨fun _ => ?_, fun h => absurd h not_started_available, fun h => by cases h⟩
    simp [Job.release, hzero, hr running]
  | discard error now running =>
    exact ⟨(fun h => by cases h), fun _ => hs (.inl running), fun h => by cases h⟩
  | cancel now waiting =>
    exact ⟨(fun h => by cases h), fun h => absurd h not_started_cancelled, fun h => by cases h⟩
  | cascade now waiting =>
    exact ⟨(fun h => by cases h), fun h => absurd h not_started_cancelled, fun h => by cases h⟩
  | expireAt time running => exact ⟨hp, hs, hr⟩
  | requeue now dead =>
    have hzero := hs (.inr (.inr dead))
    refine ⟨fun _ => ?_, fun h => absurd h not_started_available, fun h => by cases h⟩
    simp [Job.requeue, hzero, WithTop.coe_ne_top]

theorem sound_rows {P : Job → Prop} {t : Tables} (h : Sound t) {f : Job → Job}
    (step : ∀ j ∈ t.jobs, RowStep P j (f j)) : Sound (t.mapJobs f) := by
  intro k hk
  obtain ⟨j, hj, rfl⟩ := List.mem_map.mp hk
  have hunf := unfinished_mapJobs (fun j hj => (step j hj).same.id)
    (fun j hj => (step j hj).completed_iff)
  refine (h j hj).of_rowStep (le_of_eq ?_) (step j hj)
  simp only [openEdges, hunf]
  rfl

/-! ## Completing a batch -/

section
variable {t : Tables} {batch : List (JobId × Option Bytes)} {worker : Uuid} {now : Time}

theorem settledBy_running {p : JobId} (hp : p ∈ t.settledBy batch worker) : Unfinished t p := by
  obtain ⟨j, hj, hsome, hid⟩ := mem_settledBy.mp hp
  obtain ⟨result, hres⟩ := Option.isSome_iff_exists.mp hsome
  refine ⟨j, hj, hid, ?_⟩
  rw [(heldBy_of_batchEntry hres).2]
  decide

theorem completed_completeRow (j : Job) : (t.completeRow batch worker now j).state = .completed ↔
    j.state = .completed ∨ (batchEntry batch worker j).isSome := by
  unfold Tables.completeRow
  cases batchEntry batch worker j with
  | some result => simp [Job.complete]
  | none => dsimp only; split <;> simp [Job.unblock]

/-- A parent is open after the statement if it was open and the batch did not
settle it. -/
theorem unfinished_complete (hnd : (t.jobs.map Job.id).Nodup) (p : JobId) :
    Unfinished (t.complete batch worker now) p ↔
      Unfinished t p ∧ p ∉ t.settledBy batch worker := by
  have hid := fun j => (completeRow_step batch worker now t j).same.id
  constructor
  · rintro ⟨k, hk, rfl, hne⟩
    obtain ⟨j, hj, rfl⟩ := List.mem_map.mp hk
    rw [ne_eq, completed_completeRow, not_or] at hne
    refine ⟨⟨j, hj, (hid j).symm, hne.1⟩, fun hmem => ?_⟩
    obtain ⟨i, hi, hsome, hij⟩ := mem_settledBy.mp hmem
    cases List.inj_on_of_nodup_map hnd hi hj (hij.trans (hid j))
    exact hne.2 hsome
  · rintro ⟨⟨j, hj, rfl, hne⟩, hnot⟩
    refine ⟨_, List.mem_map_of_mem hj, hid j, ?_⟩
    rw [ne_eq, completed_completeRow, not_or]
    exact ⟨hne, fun hsome => hnot (mem_settledBy.mpr ⟨j, hj, hsome, rfl⟩)⟩

/-- The batch closes exactly the edges it counts. -/
theorem openEdges_complete (batch : List (JobId × Option Bytes)) (worker : Uuid) (now : Time)
    (hnd : (t.jobs.map Job.id).Nodup) (c : JobId) :
    openEdges (t.complete batch worker now) c + t.counted (t.settledBy batch worker) c =
      openEdges t c := by
  have hopen : ∀ p ∈ t.settledBy batch worker, Unfinished t p := fun _ => settledBy_running
  simp only [openEdges, Tables.counted, unfinished_complete hnd, ← List.countP_eq_length_filter]
  show List.countP _ t.edges + List.countP _ t.edges = List.countP _ t.edges
  generalize t.settledBy batch worker = done at hopen
  induction t.edges with
  | nil => rfl
  | cons e es ih =>
    have hopen := hopen e.parent
    simp only [List.countP_cons, decide_eq_true_eq]
    split_ifs <;> first | omega | tauto

theorem RowDeps.of_complete (batch : List (JobId × Option Bytes)) (worker : Uuid) (now : Time)
    (hnd : (t.jobs.map Job.id).Nodup) {j : Job} (hj : RowDeps t j) :
    RowDeps (t.complete batch worker now) (t.completeRow batch worker now j) := by
  have hsum := openEdges_complete batch worker now hnd j.id
  obtain ⟨hc, hp, hs, hr⟩ := hj
  unfold Tables.completeRow
  cases hb : batchEntry batch worker j with
  | some result =>
    have hzero := hs (.inl (heldBy_of_batchEntry hb).2)
    refine ⟨?_, nofun, fun _ => hzero, nofun⟩
    show (openEdges _ j.id : Int) ≤ j.pendingDeps
    omega
  | none =>
    dsimp only
    split
    · next hn => exact ⟨by omega, hp, hs, hr⟩
    · next hn =>
      -- an edge closed, so the counter was positive and the job had not started
      have hpos : 0 < j.pendingDeps := by omega
      have hcount : (openEdges (t.complete batch worker now) j.id : Int) ≤
          j.pendingDeps - t.counted (t.settledBy batch worker) j.id := by omega
      refine ⟨hcount, fun ha => ?_, fun h => ?_, fun h => ?_⟩
      · have htop := (hp ha).mpr hpos
        simp only [Job.unblock]
        split
        · next hzero => simp [hzero, WithTop.coe_ne_top]
        · next hne =>
          simp only [htop, true_iff]
          omega
      · have := hs h; omega
      · have := hs (.inl h); omega

theorem sound_complete (hnd : (t.jobs.map Job.id).Nodup) (h : Sound t) :
    Sound (t.complete batch worker now) := by
  intro k hk
  obtain ⟨j, hj, rfl⟩ := List.mem_map.mp hk
  exact (h j hj).of_complete batch worker now hnd
end

/-- The counter never goes negative, and no other constraint is in the way:
`COMPLETE` is always accepted. -/
theorem complete_accepted {db : Db} (h : Sound db.toTables) (batch : List (JobId × Option Bytes))
    (worker : Uuid) (now : Time) : ∃ db', db.run (.complete batch worker now) = .ok db' := by
  refine (db.run_complete_iff_pending batch worker now).mpr fun j hj => ?_
  have := ((h j hj).of_complete batch worker now db.ids_nodup).count
  omega

/-! ## Inserts and deletions -/

section
variable {db : Db} {t' : Tables} {rows : List Job} {es : List Edge} {j : Job}

/-- The identity sequence gives a new row an id no old row has. -/
theorem not_mem_new (new : NewRows db.toTables rows es) {id : JobId} (hid : id ∈ db.ids) :
    id ∉ rows.map Job.id := by
  intro hmem
  obtain ⟨j, hj, rfl⟩ := List.mem_map.mp hmem
  exact absurd ((db.valid .identity).1 j.id hid) (not_le.mpr (new.ids j hj))

theorem openEdges_insert (edges : t'.edges = db.edges ++ es) (c : JobId) : openEdges t' c =
    db.edges.countP (fun e => e.child = c ∧ Unfinished t' e.parent) +
      es.countP (fun e => e.child = c ∧ Unfinished t' e.parent) := by
  rw [openEdges, edges, List.countP_append]

/-- An old row gets no edge, and its parents are as they were. -/
theorem openEdges_insert_old (new : NewRows db.toTables rows es)
    (jobs : t'.jobs = db.jobs ++ rows) (edges : t'.edges = db.edges ++ es) (hj : j ∈ db.jobs) :
    openEdges t' j.id ≤ openEdges db.toTables j.id := by
  have hnone : es.countP (fun e => e.child = j.id ∧ Unfinished t' e.parent) = 0 := by
    refine List.countP_eq_zero.mpr fun e he => ?_
    have hne : e.child ≠ j.id := fun hid =>
      not_mem_new new (List.mem_map_of_mem hj) (hid ▸ (new.ends e he).2)
    simp [hne]
  rw [openEdges_insert edges, hnone]
  refine List.countP_mono_left fun e he hopen => ?_
  obtain ⟨hchild, p, hp, hid, hne⟩ := of_decide_eq_true hopen
  rw [jobs] at hp
  rcases List.mem_append.mp hp with hp | hp
  · exact decide_eq_true ⟨hchild, p, hp, hid, hne⟩
  · have hparent : e.parent ∈ rows.map Job.id := hid ▸ List.mem_map_of_mem hp
    exact absurd hparent (not_mem_new new (db.valid .edgeFkey e he).2.1)

/-- A new row waits for as many parents as it has new edges. -/
theorem openEdges_insert_new (new : NewRows db.toTables rows es)
    (edges : t'.edges = db.edges ++ es) (hj : j ∈ rows) :
    (openEdges t' j.id : Int) ≤ j.pendingDeps := by
  have hnone : db.edges.countP (fun e => e.child = j.id ∧ Unfinished t' e.parent) = 0 := by
    refine List.countP_eq_zero.mpr fun e he => ?_
    have hne : e.child ≠ j.id := fun hid =>
      not_mem_new new (db.valid .edgeFkey e he).2.2 (hid ▸ List.mem_map_of_mem hj)
    simp [hne]
  have hmono : es.countP (fun e => e.child = j.id ∧ Unfinished t' e.parent) ≤
      es.countP fun e => e.child = j.id :=
    List.countP_mono_left fun e _ hopen => decide_eq_true (of_decide_eq_true hopen).1
  have hpend := new.pending j hj
  rw [← List.countP_eq_length_filter] at hpend
  rw [openEdges_insert edges, hnone, hpend]
  omega

theorem sound_insert (h : Sound db.toTables) (new : NewRows db.toTables rows es)
    (jobs : t'.jobs = db.jobs ++ rows) (edges : t'.edges = db.edges ++ es) : Sound t' := by
  intro j hj
  rw [jobs] at hj
  rcases List.mem_append.mp hj with hj | hj
  · obtain ⟨hc, hp, hs, hr⟩ := h j hj
    have hopen := openEdges_insert_old new jobs edges hj
    exact ⟨by omega, hp, hs, hr⟩
  · refine ⟨openEdges_insert_new new edges hj, fun _ => new.parked j hj, ?_, ?_⟩
    · intro hs
      rw [new.state j hj] at hs
      exact absurd hs not_started_available
    · intro hs
      rw [new.state j hj] at hs
      cases hs
end

theorem sound_delete {t t' : Tables} (h : Sound t) (jobs : t'.jobs.Sublist t.jobs)
    (edges : t'.edges.Sublist t.edges) : Sound t' := by
  intro j hj
  obtain ⟨hc, hp, hs, hr⟩ := h j (jobs.mem hj)
  refine ⟨?_, hp, hs, hr⟩
  have hle : openEdges t' j.id ≤ openEdges t j.id := by
    refine edges.countP_le.trans (List.countP_mono_left fun e _ hopen => ?_)
    obtain ⟨hchild, p, hp, hid⟩ := of_decide_eq_true hopen
    exact decide_eq_true ⟨hchild, p, jobs.mem hp, hid⟩
  omega

/-! ## Runs -/

theorem sound_exec (db : Db) (s : Stmt) (h : Sound db.toTables) : Sound (db.exec s).toTables := by
  rcases db.exec_form s with hsame | hform
  · rwa [hsame]
  · generalize (db.exec s).toTables = t' at hform
    cases hform with
    | rows step => exact sound_rows h step
    | complete batch worker now stmt => exact sound_complete db.ids_nodup h
    | insert rows es new jobs edges => exact sound_insert h new jobs edges
    | delete deletes jobs edges => exact sound_delete h jobs edges

theorem sound_after (ss : List Stmt) : Sound (Db.after ss).toTables :=
  run_inv (I := fun db : Db => Sound db.toTables) sound_exec ss
    fun j hj => absurd hj (Db.not_mem_empty j)

/-- **Dependency safety.** After any run from an empty database, a job's
counter covers every edge whose parent has not completed; a waiting job is
parked at infinity exactly while the counter is positive; a job that was leased
has only completed parents; and no `COMPLETE` can be rejected, so its decrement
never runs into the check on the counter. -/
theorem dependency_safety (ss : List Stmt) :
    (∀ j ∈ (Db.after ss).jobs,
      (openEdges (Db.after ss).toTables j.id : Int) ≤ j.pendingDeps ∧
      (j.state = .available → (j.scheduledAt = ⊤ ↔ 0 < j.pendingDeps)) ∧
      (j.state = .running ∨ j.state = .completed ∨ j.state = .discarded →
        ∀ e ∈ (Db.after ss).edges, e.child = j.id →
          ∃ p ∈ (Db.after ss).jobs, p.id = e.parent ∧ p.state = .completed)) ∧
    ∀ batch worker now, ∃ db', (Db.after ss).run (.complete batch worker now) = .ok db' := by
  have hsound := sound_after ss
  refine ⟨fun j hj => ?_, complete_accepted hsound⟩
  have hrow := hsound j hj
  exact ⟨hrow.count, hrow.parked, fun hs e he hc => parents_completed hsound hj hs he hc⟩

end Gylo.Store.Dependencies
