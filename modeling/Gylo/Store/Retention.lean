import Gylo.Store.Lifecycle

/-! # What deletions take with them

Four calls delete rows: `prune_completed` and `prune_discarded`, which are
`PRUNE` for different states, `purge_discarded` and `prune_workflows`. Every
foreign key is `ON DELETE CASCADE`: a job takes its edges and its steps with it,
a workflow its jobs and edges. A waiting or running row is never among the
victims, because `finalized_at` is set in final states only; and no call of
`prune_*` takes anything from a workflow that has such a row, because the edges
of a workflow are edges between its own jobs. -/
namespace Gylo.Store.Retention

open Gylo.Store Runs
open Gylo.Store.Lifecycle (Coherent coherent_after)

/-! ## The calls -/

def pruneCompleted (olderThan : Time) (queue : Option String) (limit : Int) (visit : List JobId)
    (now : Time) : Stmt :=
  .prune { states := [.completed, .cancelled], olderThan, queue, limit, visit, now }

def pruneDiscarded (olderThan : Time) (queue : Option String) (limit : Int) (visit : List JobId)
    (now : Time) : Stmt :=
  .prune { states := [.discarded], olderThan, queue, limit, visit, now }

/-- The calls named `prune_*`. -/
def Prunes : Stmt → Prop
  | .prune _ | .pruneWorkflows => True
  | _ => False

/-- `DELETE FROM gylo_workflow`, with its cascade: the jobs of the workflow with
all that hangs on them, and its edges. -/
def deleteWorkflows (gone : List Int) (t : Tables) : Tables :=
  let t' := t.deleteJobs ((t.jobs.filter fun j => ∃ w ∈ gone, j.workflowId = some w).map Job.id)
  { t' with
    workflows := t'.workflows.filter fun w => w ∉ gone
    edges := t'.edges.filter fun e => e.workflowId ∉ gone }

/-- The `WHERE` clause of `prune_workflows`. -/
def emptyWorkflows (t : Tables) : List Int :=
  t.workflows.filter fun w => ¬ ∃ j ∈ t.jobs, j.workflowId = some w

/-! ## Victims -/

theorem mem_deleteJobs {t : Tables} {victims : List JobId} {j : Job} :
    j ∈ (t.deleteJobs victims).jobs ↔ j ∈ t.jobs ∧ j.id ∉ victims := by
  simp [Tables.deleteJobs]

theorem mem_victims {a : Prune} {t : Tables} {id : JobId} (h : id ∈ t.victims a) :
    ∃ j ∈ t.jobs, t.Prunable a j ∧ j.id = id := by
  obtain ⟨j, hj, rfl⟩ := List.mem_map.mp h
  obtain ⟨hscan, hprunable⟩ := List.mem_filter.mp
    ((List.mem_insertionSort _).mp (List.mem_of_mem_take hj))
  exact ⟨j, mem_scan hscan, of_decide_eq_true hprunable, rfl⟩

/-- A row with a `finalized_at` is neither waiting nor running. -/
theorem not_live_of_finalized {j : Job} (h : Coherent j) {f : Time} (hf : j.finalizedAt = some f) :
    ¬ j.Live := by
  have hterminal := h.finalized.mp (Option.isSome_of_eq_some hf)
  intro hlive
  rcases hterminal with hs | hs | hs <;> rcases hlive with hl | hl <;> cases hs.symm.trans hl

section
variable {db : Db} {j : Job}

theorem live_not_victim (hrows : ∀ j ∈ db.jobs, Coherent j) (a : Prune) (hj : j ∈ db.jobs)
    (hlive : j.Live) : j.id ∉ db.victims a := by
  intro hmem
  obtain ⟨k, hk, ⟨-, ⟨f, hf, -⟩, -⟩, hid⟩ := mem_victims hmem
  cases db.eq_of_id hk hj hid
  exact not_live_of_finalized (hrows j hj) hf hlive

/-- `w` has a member that is waiting or running. -/
def LiveWorkflow (t : Tables) (w : Int) : Prop := ∃ u ∈ t.jobs, u.workflowId = some w ∧ u.Live

theorem member_not_victim {w : Int} (hw : LiveWorkflow db.toTables w) (a : Prune) (hj : j ∈ db.jobs)
    (hmember : j.workflowId = some w) : j.id ∉ db.victims a := by
  intro hmem
  obtain ⟨k, hk, ⟨-, -, -, hwhole⟩, hid⟩ := mem_victims hmem
  cases db.eq_of_id hk hj hid
  obtain ⟨u, hu, huw, hlive⟩ := hw
  rcases hwhole with hnone | hsettled
  · cases hmember.symm.trans hnone
  · exact hsettled ⟨u, hu, huw.trans hmember.symm, hlive⟩

theorem discarded_not_live {queue : Option String} (hj : j ∈ db.jobs) (hlive : j.Live) :
    j.id ∉ (db.jobs.filter fun j => j.state = .discarded ∧ Matches queue fun q => j.queue = q).map
      Job.id := by
  intro hmem
  obtain ⟨k, hk, hid⟩ := List.mem_map.mp hmem
  obtain ⟨hk, hdead⟩ := List.mem_filter.mp hk
  cases db.eq_of_id hk hj hid
  have hstate := (of_decide_eq_true hdead).1
  rcases hlive with hl | hl <;> cases hstate.symm.trans hl
end

/-- **No deletion takes a live row.** -/
theorem live_kept {db : Db} (hrows : ∀ j ∈ db.jobs, Coherent j) (s : Stmt) {j : Job}
    (hj : j ∈ db.jobs) (hlive : j.Live) : ∃ k ∈ (db.exec s).jobs, SameJob j k := by
  cases hdel : s.deletes with
  | false => exact db.exec_keeps hdel j hj
  | true =>
    refine ⟨j, ?_, .refl j⟩
    rcases db.exec_cases s with hsame | heff
    · rwa [hsame]
    · cases s with
      | purgeDiscarded queue =>
        rw [← Except.ok.inj heff]
        exact mem_deleteJobs.mpr ⟨hj, discarded_not_live hj hlive⟩
      | prune a =>
        rw [limited_ok heff]
        exact mem_deleteJobs.mpr ⟨hj, live_not_victim hrows a hj hlive⟩
      | pruneWorkflows =>
        rw [← Except.ok.inj heff]
        exact hj
      | _ => cases hdel

/-! ## Edges stay within their workflow -/

/-- Both ends of an edge are jobs of the workflow it belongs to. -/
def EdgesWithin (t : Tables) : Prop :=
  ∀ e ∈ t.edges, ∀ j ∈ t.jobs, j.id = e.parent ∨ j.id = e.child → j.workflowId = some e.workflowId

/-- Only `insert_workflow` adds edges, with the jobs they join. -/
theorem effect_edges {s : Stmt} {t t' : Tables} (h : s.effect t = .ok t') :
    t'.edges.Sublist t.edges ∨ ∃ flow now, s = .insertWorkflow flow now ∧
      t'.jobs = t.jobs ++ t.workflowRows flow now ∧ t'.edges = t.edges ++ t.workflowEdges flow := by
  cases hrows : s.updatesRows with
  | true => rw [Stmt.effect_eq_mapJobs hrows h]; exact .inl (List.Sublist.refl _)
  | false =>
    cases s with
    | insertWorkflow flow now =>
      simp only [Stmt.effect, Tables.enqueueWorkflow] at h
      split at h
      · cases h; exact .inl (List.Sublist.refl _)
      · rw [(insertWorkflow_ok h).2]
        exact .inr ⟨flow, now, rfl, rfl, rfl⟩
    | insertUnique new key now =>
      rw [storable_ok h]
      unfold Tables.insertUnique
      split <;> exact .inl (List.Sublist.refl _)
    | fireCron name next now =>
      cases h
      unfold Tables.fireCron
      split <;> exact .inl (List.Sublist.refl _)
    | upsertCron entry =>
      rw [storable_ok h]
      unfold Tables.upsertCron
      split <;> exact .inl (List.Sublist.refl _)
    | recordStep job name result now =>
      simp only [Stmt.effect, Tables.recordStep] at h
      split at h
      · cases h
      · split at h <;> cases h <;> exact .inl (List.Sublist.refl _)
    | enqueue new now => rw [storable_ok h]; exact .inl (List.Sublist.refl _)
    | complete batch worker now => cases h; exact .inl (List.Sublist.refl _)
    | purgeDiscarded queue => cases h; exact .inl List.filter_sublist
    | prune a => rw [limited_ok h]; exact .inl List.filter_sublist
    | pruneWorkflows => cases h; exact .inl List.filter_sublist
    | _ => cases hrows

/-- A row is an old one or has a new id. -/
theorem same_or_new {s : Stmt} {t t' : Tables} (hform : Form s t t') {k : Job} (hk : k ∈ t'.jobs) :
    (∃ j ∈ t.jobs, SameJob j k) ∨ t.jobSeq < k.id := by
  cases hform with
  | rows step =>
    obtain ⟨j, hj, rfl⟩ := List.mem_map.mp hk
    exact .inl ⟨j, hj, (step j hj).same⟩
  | complete batch worker now stmt =>
    obtain ⟨j, hj, rfl⟩ := List.mem_map.mp hk
    exact .inl ⟨j, hj, (completeRow_step batch worker now t j).same⟩
  | insert rows es new jobs edges =>
    rw [jobs] at hk
    rcases List.mem_append.mp hk with hk | hk
    · exact .inl ⟨k, hk, .refl k⟩
    · exact .inr (new.ids k hk)
  | delete deletes jobs edges => exact .inl ⟨k, jobs.mem hk, .refl k⟩

/-- The ends of an edge are ids handed out already. -/
theorem ends_le_seq {db : Db} {e : Edge} (he : e ∈ db.edges) {id : JobId}
    (hid : id = e.parent ∨ id = e.child) : id ≤ db.jobSeq := by
  obtain ⟨-, hparent, hchild⟩ := db.valid .edgeFkey e he
  rcases hid with rfl | rfl
  · exact (db.valid .identity).1 _ hparent
  · exact (db.valid .identity).1 _ hchild

theorem edgesWithin_exec (db : Db) (s : Stmt) (h : EdgesWithin db.toTables) :
    EdgesWithin (db.exec s).toTables := by
  rcases db.exec_cases s with hsame | heff
  · rwa [hsame]
  · have hform := Stmt.effect_form db.ids_nodup heff
    have hedges := effect_edges heff
    generalize (db.exec s).toTables = t' at hform hedges
    -- an old edge: its ends are not new ids, so they are old rows
    have hold : ∀ e ∈ db.edges, ∀ k ∈ t'.jobs, k.id = e.parent ∨ k.id = e.child →
        k.workflowId = some e.workflowId := by
      intro e he k hk hend
      rcases same_or_new hform hk with ⟨j, hj, hjk⟩ | hnew
      · rw [hjk.workflowId]
        exact h e he j hj (hjk.id ▸ hend)
      · exact absurd (ends_le_seq he hend) (not_le.mpr hnew)
    intro e he k hk hend
    rcases hedges with hsub | ⟨flow, now, -, hjobs, hedges⟩
    · exact hold e (hsub.mem he) k hk hend
    · rw [hedges] at he
      rcases List.mem_append.mp he with he | he
      · exact hold e he k hk hend
      · obtain ⟨ends, -, rfl⟩ := List.mem_map.mp he
        rw [hjobs] at hk
        rcases List.mem_append.mp hk with hk | hk
        · have hle : k.id ≤ db.jobSeq := (db.valid .identity).1 _ (List.mem_map_of_mem hk)
          have hnew : ∀ i : Nat, k.id ≠ db.jobSeq + 1 + i := by
            intro i hid
            have hle : db.jobSeq + 1 + i ≤ db.jobSeq := hid ▸ hle
            omega
          exact absurd hend (not_or.mpr ⟨hnew _, hnew _⟩)
        · obtain ⟨i, hi, rfl⟩ := mem_workflowRows.mp hk
          rfl

theorem edgesWithin_after (ss : List Stmt) : EdgesWithin (Db.after ss).toTables :=
  run_inv (I := fun db : Db => EdgesWithin db.toTables) edgesWithin_exec ss
    fun _ _ j hj => absurd hj (Db.not_mem_empty j)

/-! ## Workflows -/

/-- The cascade of `prune_workflows` has no job to reach: the statement is the
deletion of the workflows it selects. -/
theorem pruneWorkflows_eq (db : Db) :
    db.pruneWorkflows = deleteWorkflows (emptyWorkflows db.toTables) db.toTables := by
  have hempty : ∀ w, w ∈ emptyWorkflows db.toTables ↔
      w ∈ db.workflows ∧ ¬ ∃ j ∈ db.jobs, j.workflowId = some w := by
    intro w
    simp [emptyWorkflows]
  have hnone : (db.jobs.filter fun j => ∃ w ∈ emptyWorkflows db.toTables, j.workflowId = some w) = [] := by
    refine List.filter_eq_nil_iff.mpr fun j hj hgone => ?_
    obtain ⟨w, hw, hjw⟩ := of_decide_eq_true hgone
    exact ((hempty w).mp hw).2 ⟨j, hj, hjw⟩
  have hkept : ∀ w ∈ db.workflows, w ∉ emptyWorkflows db.toTables ↔ ∃ j ∈ db.jobs, j.workflowId = some w := by
    intro w hw
    rw [hempty, not_and, not_not]
    exact ⟨fun h => h hw, fun h _ => h⟩
  have hdelete : db.deleteJobs [] = db.toTables := by simp [Tables.deleteJobs]
  unfold deleteWorkflows
  rw [hnone, List.map_nil, hdelete]
  unfold Tables.pruneWorkflows
  congr 1
  · exact List.filter_congr fun e he => decide_eq_decide.mpr (hkept e.workflowId (db.valid .edgeFkey e he).1).symm
  · exact List.filter_congr fun w hw => decide_eq_decide.mpr (hkept w hw).symm

/-- What a workflow consists of survives a statement. -/
structure Intact (t t' : Tables) (w : Int) : Prop where
  jobs : ∀ j ∈ t.jobs, j.workflowId = some w → j ∈ t'.jobs
  edges : ∀ e ∈ t.edges, e.workflowId = w → e ∈ t'.edges
  steps : ∀ st ∈ t.steps, (∃ j ∈ t.jobs, j.id = st.jobId ∧ j.workflowId = some w) → st ∈ t'.steps

section
variable {db : Db} {w : Int}

theorem Intact.refl (t : Tables) (w : Int) : Intact t t w :=
  ⟨fun _ hj _ => hj, fun _ he _ => he, fun _ hst _ => hst⟩

/-- `PRUNE` takes no job of a live workflow, so its cascade takes no edge and no
step of one. -/
theorem intact_prune (hwithin : EdgesWithin db.toTables) (hw : LiveWorkflow db.toTables w) (a : Prune) :
    Intact db.toTables (db.prune a) w := by
  have hspared : ∀ id, (∀ j ∈ db.jobs, j.id = id → j.workflowId = some w) → id ∉ db.victims a := by
    intro id hmember hmem
    obtain ⟨j, hj, -, hid⟩ := mem_victims hmem
    exact member_not_victim hw a hj (hmember j hj hid) (hid ▸ hmem)
  refine ⟨fun j hj hjw => ?_, fun e he hew => ?_, fun st hst hstep => ?_⟩
  · exact mem_deleteJobs.mpr ⟨hj, member_not_victim hw a hj hjw⟩
  · refine List.mem_filter.mpr ⟨he, decide_eq_true ⟨hspared _ ?_, hspared _ ?_⟩⟩
    · exact fun j hj hid => hew ▸ hwithin e he j hj (.inl hid)
    · exact fun j hj hid => hew ▸ hwithin e he j hj (.inr hid)
  · obtain ⟨j, hj, hid, hjw⟩ := hstep
    refine List.mem_filter.mpr ⟨hst, decide_eq_true (hspared _ fun k hk hkid => ?_)⟩
    rw [db.eq_of_id hk hj (hkid.trans hid.symm)]
    exact hjw

theorem intact_pruneWorkflows (hw : LiveWorkflow db.toTables w) :
    Intact db.toTables db.pruneWorkflows w := by
  obtain ⟨u, hu, huw, -⟩ := hw
  refine ⟨fun j hj _ => hj, fun e he hew => ?_, fun st hst _ => hst⟩
  exact List.mem_filter.mpr ⟨he, decide_eq_true ⟨u, hu, hew ▸ huw⟩⟩

theorem intact_exec (hwithin : EdgesWithin db.toTables) {s : Stmt} (hs : Prunes s)
    (hw : LiveWorkflow db.toTables w) : Intact db.toTables (db.exec s).toTables w := by
  rcases db.exec_cases s with hsame | heff
  · rw [hsame]
    exact .refl _ w
  · cases s with
    | prune a =>
      rw [limited_ok heff]
      exact intact_prune hwithin hw a
    | pruneWorkflows =>
      rw [← Except.ok.inj heff]
      exact intact_pruneWorkflows hw
    | _ => exact hs.elim

theorem workflow_kept (hw : w ∈ db.workflows) (hjob : ∃ j ∈ db.jobs, j.workflowId = some w) :
    w ∈ (db.exec .pruneWorkflows).workflows := by
  rcases db.exec_cases .pruneWorkflows with hsame | heff
  · rwa [hsame]
  · rw [← Except.ok.inj heff]
    exact List.mem_filter.mpr ⟨hw, decide_eq_true hjob⟩
end

/-- **No job is deleted while it is live.** After any run, whatever statement
comes next: a waiting or running row outlives it; if it is a call of `prune_*`,
every job, edge and step of a workflow with such a row stays as it is; and
`prune_workflows` keeps every workflow that has a job, so the cascade from
workflows to jobs, which is applied on the right of the last equation, has
nothing to delete. -/
theorem no_live_job_deleted (ss : List Stmt) (s : Stmt) :
    (∀ j ∈ (Db.after ss).jobs, j.Live → ∃ k ∈ ((Db.after ss).exec s).jobs, SameJob j k) ∧
    (Prunes s → ∀ w, LiveWorkflow (Db.after ss).toTables w →
      Intact (Db.after ss).toTables ((Db.after ss).exec s).toTables w) ∧
    (∀ w ∈ (Db.after ss).workflows, (∃ j ∈ (Db.after ss).jobs, j.workflowId = some w) →
      w ∈ ((Db.after ss).exec .pruneWorkflows).workflows) ∧
    (Db.after ss).pruneWorkflows =
      deleteWorkflows (emptyWorkflows (Db.after ss).toTables) (Db.after ss).toTables :=
  ⟨fun _ hj hlive => live_kept (coherent_after ss) s hj hlive,
    fun hs _ hw => intact_exec (edgesWithin_after ss) hs hw,
    fun _ hw hjob => workflow_kept hw hjob,
    pruneWorkflows_eq _⟩

/-- A workflow of three jobs whose first one is done. -/
def halfDone : List Stmt :=
  [.insertWorkflow
      { nodes := [{ task := "a" }, { task := "b" }, { task := "c" }], edges := [(0, 1), (1, 2)],
        distinct := by decide } 0,
    .fetchUnkeyed { queues := ["default"], limit := 1, worker := 7, lease := 30, now := 1 },
    .complete [(1, none)] 7 2]

/-- However old the first job is, the edge from it is kept. -/
theorem no_live_job_deleted_half_done :
    ⟨1, 1, 2⟩ ∈ ((Db.after halfDone).exec (pruneCompleted 10 none 100 [1, 2] 1000)).edges := by
  have hlive : LiveWorkflow (Db.after halfDone).toTables 1 := by
    have h : ∃ u ∈ (Db.after halfDone).jobs, u.workflowId = some 1 ∧ u.Live := by decide
    exact h
  have hintact := (no_live_job_deleted halfDone (pruneCompleted 10 none 100 [1, 2] 1000)).2.1 trivial 1
    hlive
  exact hintact.edges ⟨1, 1, 2⟩ (by decide) rfl

end Gylo.Store.Retention
