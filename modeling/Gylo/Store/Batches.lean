import Gylo.Store.Ledgers

/-! # Completion in batches

A worker reports the jobs it has finished in batches of whatever size, and other
workers report theirs in between. `COMPLETE` counts, for each child, the parents
that the statement settles, and frees the child when the count reaches zero. What a
sequence of reports does to a row depends only on which rows the reports
settle in all, so cutting a batch into pieces and mixing them with other reports
changes nothing. -/
namespace Gylo.Store.Batches

open Gylo.Store Gylo.Store.Dependencies Gylo.Store.Ledgers Runs

/-! ## Sequences of reports -/

/-- A call of `complete_many`. -/
structure Report where
  batch : List (JobId × Option Bytes)
  worker : Uuid
  now : Time

def complete (db : Db) (r : Report) : Db := db.exec (.complete r.batch r.worker r.now)

/-- What the reports, in order, say about a row. -/
def settle (rs : List Report) (j : Job) : Option (Option Bytes) :=
  rs.findSome? fun r => batchEntry r.batch r.worker j

/-- The rows the reports settle. -/
def settledIds (rs : List Report) (t : Tables) : List JobId :=
  (t.jobs.filter fun j => (settle rs j).isSome).map Job.id

theorem mem_settledIds {rs : List Report} {t : Tables} {id : JobId} :
    id ∈ settledIds rs t ↔ ∃ j ∈ t.jobs, (settle rs j).isSome ∧ j.id = id := by
  simp [settledIds, and_assoc]

/-- The columns the reports are about; of `scheduled_at`, whether it is infinity. -/
def view (j : Job) : JobId × JobState × Option Bytes × Int × Bool :=
  (j.id, j.state, j.result, j.pendingDeps, j.scheduledAt = ⊤)

/-- What a row comes to if `n` of its parents are settled. -/
def outcome (rs : List Report) (n : Nat) (j : Job) : JobId × JobState × Option Bytes × Int × Bool :=
  match settle rs j with
  | some result => (j.id, .completed, result, j.pendingDeps, j.scheduledAt = ⊤)
  | none => (j.id, j.state, j.result, j.pendingDeps - n,
      j.scheduledAt = ⊤ ∧ (n = 0 ∨ j.pendingDeps - n ≠ 0))

/-- What the rows come to, from the rows the reports settle. -/
def outcomes (rs : List Report) (t : Tables) : List (JobId × JobState × Option Bytes × Int × Bool) :=
  t.jobs.map fun j => outcome rs (t.counted (settledIds rs t) j.id) j

section
variable {rs : List Report} {j k : Job}

theorem settle_cons (r : Report) : settle (r :: rs) j =
    (batchEntry r.batch r.worker j).or (settle rs j) := by
  unfold settle
  rw [List.findSome?_cons]
  cases batchEntry r.batch r.worker j <;> rfl

theorem settle_congr (hid : k.id = j.id) (hheld : ∀ w, k.HeldBy w ↔ j.HeldBy w) :
    settle rs k = settle rs j := by
  unfold settle
  congr 1
  funext r
  simp only [batchEntry, hid, hheld]

theorem settle_of_not_running (h : j.state ≠ .running) : settle rs j = none := by
  refine List.findSome?_eq_none_iff.mpr fun r _ => ?_
  exact if_neg fun hheld => h hheld.2

theorem running_of_settle (h : (settle rs j).isSome) : j.state = .running := by
  by_contra hne
  rw [settle_of_not_running hne] at h
  cases h
end

/-! ## One report after another -/

section
variable {t : Tables} (hsound : Sound t) (hnd : (t.jobs.map Job.id).Nodup) {rs : List Report}

/-- Settled rows were running, so their edges were open. -/
theorem counted_le_openEdges (rs : List Report) (t : Tables) (c : JobId) :
    t.counted (settledIds rs t) c ≤ openEdges t c := by
  rw [Tables.counted, ← List.countP_eq_length_filter]
  refine List.countP_mono_left fun e _ h => ?_
  obtain ⟨hchild, hparent⟩ := of_decide_eq_true h
  obtain ⟨p, hp, hsome, hid⟩ := mem_settledIds.mp hparent
  have hrun := running_of_settle hsome
  refine decide_eq_true ⟨hchild, p, hp, hid, ?_⟩
  rw [hrun]
  decide

theorem completeRow_settle (r : Report) (j : Job) :
    settle rs (t.completeRow r.batch r.worker r.now j) =
      if (batchEntry r.batch r.worker j).isSome then none else settle rs j := by
  unfold Tables.completeRow
  cases batchEntry r.batch r.worker j with
  | some result => exact settle_of_not_running (by simp [Job.complete])
  | none =>
    dsimp only
    split
    · rfl
    · exact settle_congr rfl fun w => Iff.rfl

theorem mem_settledIds_cons (r : Report) (id : JobId) :
    id ∈ settledIds (r :: rs) t ↔ id ∈ t.settledBy r.batch r.worker ∨
      id ∈ settledIds rs (t.complete r.batch r.worker r.now) := by
  rw [mem_settledIds, mem_settledBy, mem_settledIds]
  have hid := fun j => (completeRow_step r.batch r.worker r.now t j).same.id
  constructor
  · intro h
    obtain ⟨j, hj, hsome, rfl⟩ := h
    rw [settle_cons] at hsome
    cases hentry : batchEntry r.batch r.worker j with
    | some result => exact .inl ⟨j, hj, by rw [hentry]; rfl, rfl⟩
    | none =>
      refine .inr ⟨_, List.mem_map_of_mem hj, ?_, hid j⟩
      rw [completeRow_settle, hentry]
      simpa [hentry] using hsome
  · intro h
    rcases h with ⟨j, hj, hsome, rfl⟩ | ⟨k, hk, hsome, rfl⟩
    · refine ⟨j, hj, ?_, rfl⟩
      rw [settle_cons]
      exact Option.isSome_or.trans (by rw [hsome]; rfl)
    · obtain ⟨j, hj, rfl⟩ := List.mem_map.mp hk
      rw [completeRow_settle] at hsome
      refine ⟨j, hj, ?_, (hid j).symm⟩
      rw [settle_cons]
      cases hentry : batchEntry r.batch r.worker j with
      | some result => rfl
      | none => simpa [hentry] using hsome

include hnd in
/-- A parent is counted by the report that settles it, and by no other. -/
theorem counted_cons (r : Report) (c : JobId) : t.counted (settledIds (r :: rs) t) c =
    t.counted (t.settledBy r.batch r.worker) c +
      (t.complete r.batch r.worker r.now).counted
        (settledIds rs (t.complete r.batch r.worker r.now)) c := by
  have hdisjoint : ∀ id ∈ t.settledBy r.batch r.worker,
      id ∉ settledIds rs (t.complete r.batch r.worker r.now) := by
    intro id hmem hlater
    obtain ⟨k, hk, hsome, hid⟩ := mem_settledIds.mp hlater
    obtain ⟨j, hj, rfl⟩ := List.mem_map.mp hk
    obtain ⟨i, hi, hentry, rfl⟩ := mem_settledBy.mp hmem
    rw [(completeRow_step r.batch r.worker r.now t j).same.id] at hid
    cases List.inj_on_of_nodup_map hnd hj hi hid
    rw [completeRow_settle, if_pos hentry] at hsome
    cases hsome
  have hmem : ∀ id, id ∈ settledIds (r :: rs) t ↔ id ∈ t.settledBy r.batch r.worker ∨
      id ∈ settledIds rs (t.complete r.batch r.worker r.now) := mem_settledIds_cons r
  simp only [Tables.counted, ← List.countP_eq_length_filter]
  show List.countP _ t.edges = List.countP _ t.edges + List.countP _ t.edges
  generalize settledIds rs (t.complete r.batch r.worker r.now) = later at hmem hdisjoint
  generalize t.settledBy r.batch r.worker = now at hmem hdisjoint
  induction t.edges with
  | nil => rfl
  | cons e es ih =>
    have hmem := hmem e.parent
    have hdisjoint := hdisjoint e.parent
    simp only [List.countP_cons, decide_eq_true_eq]
    split_ifs <;> first | omega | tauto

/-- The state, result and lease of a row that a report does not settle. -/
theorem completeRow_other {r : Report} {j : Job} (h : batchEntry r.batch r.worker j = none) :
    t.completeRow r.batch r.worker r.now j =
      if t.counted (t.settledBy r.batch r.worker) j.id = 0 then j
      else j.unblock (t.counted (t.settledBy r.batch r.worker) j.id) r.now := by
  unfold Tables.completeRow
  rw [h]

include hsound hnd in
/-- The first report and then the rest, or all of them together. -/
theorem outcome_cons (r : Report) {j : Job} (hj : j ∈ t.jobs) :
    outcome rs ((t.complete r.batch r.worker r.now).counted
        (settledIds rs (t.complete r.batch r.worker r.now)) j.id)
      (t.completeRow r.batch r.worker r.now j) =
    outcome (r :: rs) (t.counted (settledIds (r :: rs) t) j.id) j := by
  have hrow := hsound j hj
  have hcons : t.counted (settledIds (r :: rs) t) j.id = _ := counted_cons hnd r j.id
  have hle := counted_le_openEdges (r :: rs) t j.id
  have hcount := hrow.count
  unfold outcome
  rw [completeRow_settle, settle_cons]
  cases hentry : batchEntry r.batch r.worker j with
  | some result =>
    -- a running row has no open edge, so none of its parents is still to be settled
    have hzero := hrow.started (.inl (heldBy_of_batchEntry hentry).2)
    have hnone : (t.complete r.batch r.worker r.now).counted
        (settledIds rs (t.complete r.batch r.worker r.now)) j.id = 0 := by omega
    rw [hnone]
    simp [Tables.completeRow, hentry, Job.complete]
  | none =>
    rw [completeRow_other hentry]
    simp only [Option.isSome_none, Bool.false_eq_true, if_false, Option.none_or]
    generalize t.counted (t.settledBy r.batch r.worker) j.id = first at hcons
    generalize t.counted (settledIds (r :: rs) t) j.id = all at hcons hle
    generalize (t.complete r.batch r.worker r.now).counted
      (settledIds rs (t.complete r.batch r.worker r.now)) j.id = rest at hcons
    subst hcons
    by_cases hfirst : first = 0
    · simp [hfirst]
    rw [if_neg hfirst]
    cases hsettle : settle rs j with
    | some result =>
      have hzero := hrow.started (.inl (running_of_settle (by rw [hsettle]; rfl)))
      omega
    | none =>
      simp only [Job.unblock, Prod.mk.injEq, true_and]
      refine ⟨by omega, decide_eq_decide.mpr ?_⟩
      by_cases hreached : j.pendingDeps - first = 0
      · have hrest : rest = 0 := by omega
        simp [hreached, hrest, hfirst]
      · rw [if_neg hreached]
        refine and_congr_right fun _ => ?_
        constructor
        · intro h
          exact .inr (by omega)
        · intro h
          omega
end

theorem complete_tables {db : Db} (h : Sound db.toTables) (r : Report) :
    (complete db r).toTables = db.toTables.complete r.batch r.worker r.now := by
  obtain ⟨db', hrun⟩ := complete_accepted h r.batch r.worker r.now
  have heffect : Except.ok (db.toTables.complete r.batch r.worker r.now) = .ok db'.toTables := Db.run_ok hrun
  rw [complete, Db.exec, hrun]
  exact (Except.ok.inj heffect).symm

/-- **What reports come to depends on what they settle.** -/
theorem view_reports (rs : List Report) {db : Db} (h : Sound db.toTables) :
    (run complete db rs).jobs.map view = outcomes rs db.toTables := by
  induction rs generalizing db with
  | nil =>
    refine List.map_congr_left fun j hj => ?_
    have hnone : db.counted (settledIds [] db.toTables) j.id = 0 := by
      simp [Tables.counted, settledIds, settle]
    simp [outcome, settle, hnone, view]
  | cons r rs ih =>
    have htables := complete_tables h r
    have hsound : Sound (complete db r).toTables := htables ▸ sound_complete db.ids_nodup h
    rw [run_cons, ih hsound, outcomes, htables, outcomes]
    show ((db.jobs.map _).map _) = _
    rw [List.map_map]
    refine List.map_congr_left fun j hj => ?_
    have hid := (completeRow_step r.batch r.worker r.now db.toTables j).same.id
    show outcome rs (Tables.counted _ _ (db.completeRow r.batch r.worker r.now j).id) _ = _
    rw [hid]
    exact outcome_cons h db.ids_nodup r hj

/-! ## One batch in pieces -/

theorem outcomes_congr {rs rs' : List Report} {t : Tables} (h : ∀ j ∈ t.jobs, settle rs j = settle rs' j) :
    outcomes rs t = outcomes rs' t := by
  have hids : settledIds rs t = settledIds rs' t := by
    unfold settledIds
    rw [List.filter_congr fun j hj => by rw [h j hj]]
  refine List.map_congr_left fun j hj => ?_
  unfold outcome
  rw [h j hj, hids]

/-- Only its holder's reports settle a row. -/
theorem settle_heldBy (rs : List Report) {w : Uuid} {j : Job} (h : j.HeldBy w) :
    settle rs j = ((rs.filter fun r => r.worker = w).flatMap Report.batch).lookup j.id := by
  induction rs with
  | nil => rfl
  | cons r rs ih =>
    rw [settle_cons, ih, batchEntry]
    by_cases hw : r.worker = w
    · rw [if_pos (hw ▸ h), List.filter_cons_of_pos (by simpa using hw), List.flatMap_cons, List.lookup_append]
    · have hnot : ¬ j.HeldBy r.worker := fun hheld => hw (Option.some.inj (hheld.1.symm.trans h.1))
      rw [if_neg hnot, List.filter_cons_of_neg (by simpa using hw), Option.none_or]

theorem lookup_perm {batch batch' : List (JobId × Option Bytes)} (hnd : (batch.map Prod.fst).Nodup)
    (hperm : batch'.Perm batch) (id : JobId) : batch'.lookup id = batch.lookup id := by
  have hnd' : (batch'.map Prod.fst).Nodup := (hperm.map _).nodup_iff.mpr hnd
  refine Option.ext fun b => ?_
  rw [lookup_eq_some_iff_mem hnd', lookup_eq_some_iff_mem hnd, hperm.mem_iff]

/-- The pieces of a batch, among the reports of other workers, settle what the
batch does. -/
theorem settle_pieces {w : Uuid} {batch : List (JobId × Option Bytes)} (hnd : (batch.map Prod.fst).Nodup)
    {pieces before after : List Report}
    (hpieces : ((pieces.filter fun r => r.worker = w).flatMap Report.batch).Perm batch)
    (hothers : (pieces.filter fun r => r.worker ≠ w) = before ++ after) (now : Time) (j : Job) :
    settle pieces j = settle (before ++ ⟨batch, w, now⟩ :: after) j := by
  have hother : ∀ r ∈ before ++ after, r.worker ≠ w := by
    intro r hr
    rw [← hothers] at hr
    exact of_decide_eq_true (List.mem_filter.mp hr).2
  by_cases hheld : ∃ v, j.HeldBy v
  · obtain ⟨v, hv⟩ := hheld
    rw [settle_heldBy pieces hv, settle_heldBy _ hv]
    by_cases hvw : v = w
    · subst hvw
      have hnone : ∀ l : List Report, (∀ r ∈ l, r ∈ before ++ after) → (l.filter fun r : Report => r.worker = v) = [] :=
        fun l hl => List.filter_eq_nil_iff.mpr fun r hr => by simpa using hother r (hl r hr)
      rw [List.filter_append, List.filter_cons_of_pos (by simp),
        hnone before fun r => List.mem_append_left _, hnone after fun r => List.mem_append_right _,
        lookup_perm hnd hpieces]
      simp
    · have hsame : (pieces.filter fun r => r.worker = v) = (before ++ after).filter fun r => r.worker = v := by
        rw [← hothers, List.filter_filter]
        refine List.filter_congr fun r _ => ?_
        by_cases hr : r.worker = v
        · simp [hr, hvw]
        · simp [hr]
      rw [hsame, List.filter_append, List.filter_append,
        List.filter_cons_of_neg (by simpa using fun h => hvw h.symm)]
  · have hnone : ∀ rs, settle rs j = none := fun rs =>
      List.findSome?_eq_none_iff.mpr fun r _ => if_neg fun h => hheld ⟨r.worker, h⟩
    rw [hnone, hnone]

/-! ## Batches and the ledger -/

/-- Two jobs and a third that waits for both. -/
def fanIn : Workflow where
  nodes := [{ task := "left" }, { task := "right" }, { task := "join" }]
  edges := [(0, 2), (1, 2)]
  distinct := by decide

/-- Both parents run under worker 7. -/
def parentsLeased : List Stmt := [.insertWorkflow fanIn 0, .fetchUnkeyed ⟨["default"], 2, 7, 30, 1, []⟩]

end Gylo.Store.Batches
