import Gylo.Store.Dependencies
import Gylo.Store.Retention

/-! # All edges and completions so far

Deletions take edges with them, so the tables alone do not say which parents a job
has had. The ledger of a run keeps every edge that was inserted and every job
that was seen completed. An edge is in the tables as long as both its ends are, and
the counter of a job is the number of its parents that never completed; so a child
leaves infinity by the `COMPLETE` that settles its last parents, and by no other
statement. -/
namespace Gylo.Store.Ledgers

open Gylo.Store Gylo.Store.Dependencies Runs

/-! ## The ledger of a run -/

/-- A run of statements with every edge it has inserted and every job it has seen
completed, deleted or not. -/
structure Ledger where
  db : Db
  edges : List Edge
  done : List JobId

namespace Ledger

def step (l : Ledger) (s : Stmt) : Ledger where
  db := l.db.exec s
  edges := l.edges ++ (l.db.exec s).edges.filter fun e => e ∉ l.db.edges
  done := l.done ++ ((l.db.exec s).jobs.filter fun j => j.state = .completed).map Job.id

/-- The edges into a job whose parent has never completed. -/
def unfinished (l : Ledger) (c : JobId) : List Edge :=
  l.edges.filter fun e => e.child = c ∧ e.parent ∉ l.done

end Ledger

def ledger (ss : List Stmt) : Ledger := run Ledger.step ⟨Db.empty, [], []⟩ ss

theorem run_ledger_db (ss : List Stmt) : ∀ l : Ledger, (run Ledger.step l ss).db = run Db.exec l.db ss := by
  induction ss with
  | nil => exact fun _ => rfl
  | cons s ss ih => exact fun l => ih (l.step s)

theorem ledger_db (ss : List Stmt) : (ledger ss).db = Db.after ss := run_ledger_db ss _

/-! ## Where rows and edges come from -/

section
variable {db : Db} {s : Stmt} {t' : Tables} (hform : Form s db.toTables t')
include hform

/-- A row is an old one, still completed if it was, or has a new id. -/
theorem row_origin {k : Job} (hk : k ∈ t'.jobs) :
    (∃ j ∈ db.jobs, j.id = k.id ∧ (j.state = .completed → k.state = .completed)) ∨ db.jobSeq < k.id := by
  cases hform with
  | rows step =>
    obtain ⟨j, hj, rfl⟩ := List.mem_map.mp hk
    exact .inl ⟨j, hj, (step j hj).same.id.symm, (step j hj).completed_iff.mpr⟩
  | complete batch worker now stmt =>
    obtain ⟨j, hj, rfl⟩ := List.mem_map.mp hk
    have hstep := completeRow_step batch worker now db.toTables j
    refine .inl ⟨j, hj, hstep.same.id.symm, ?_⟩
    generalize db.completeRow batch worker now j = k at hstep
    cases hstep with
    | refl => exact id
    | complete result now running => exact fun _ => rfl
    | unblock n now => exact id
  | insert rows es new jobs edges =>
    rw [jobs] at hk
    rcases List.mem_append.mp hk with hk | hk
    · exact .inl ⟨k, hk, rfl, id⟩
    · exact .inr (new.ids k hk)
  | delete deletes jobs edges => exact .inl ⟨k, jobs.mem hk, rfl, id⟩

/-- An edge is an old one, or joins new rows. -/
theorem edge_origin {e : Edge} (he : e ∈ t'.edges) :
    e ∈ db.edges ∨ db.jobSeq < e.parent ∧ db.jobSeq < e.child := by
  cases hform with
  | rows step => exact .inl he
  | complete batch worker now stmt => exact .inl he
  | insert rows es new jobs edges =>
    rw [edges] at he
    rcases List.mem_append.mp he with he | he
    · exact .inl he
    · obtain ⟨hparent, hchild⟩ := new.ends e he
      obtain ⟨p, hp, hpid⟩ := List.mem_map.mp hparent
      obtain ⟨c, hc, hcid⟩ := List.mem_map.mp hchild
      exact .inr ⟨hpid ▸ new.ids p hp, hcid ▸ new.ids c hc⟩
  | delete deletes jobs edges => exact .inl (edges.mem he)
end

/-- An edge outlives every statement that leaves both its ends. -/
theorem edge_kept {db : Db} (hwithin : Retention.EdgesWithin db.toTables) (s : Stmt) {e : Edge}
    (he : e ∈ db.edges) (hparent : e.parent ∈ (db.exec s).ids) (hchild : e.child ∈ (db.exec s).ids) :
    e ∈ (db.exec s).edges := by
  rcases db.exec_cases s with hsame | heffect
  · rwa [hsame]
  have hform := Stmt.effect_form db.ids_nodup heffect
  generalize (db.exec s).toTables = t' at hform heffect hparent hchild
  have hdelete : ∀ victims, e.parent ∈ (db.deleteJobs victims).ids →
      e.child ∈ (db.deleteJobs victims).ids → e ∈ (db.deleteJobs victims).edges := by
    intro victims hp hc
    obtain ⟨p, hp, hpid⟩ := List.mem_map.mp hp
    obtain ⟨c, hc, hcid⟩ := List.mem_map.mp hc
    refine List.mem_filter.mpr ⟨he, decide_eq_true ⟨?_, ?_⟩⟩
    · exact hpid ▸ (Retention.mem_deleteJobs.mp hp).2
    · exact hcid ▸ (Retention.mem_deleteJobs.mp hc).2
  cases hform with
  | rows step => exact he
  | complete batch worker now stmt => exact he
  | insert rows es new jobs edges => exact edges ▸ List.mem_append_left _ he
  | delete deletes jobs edges =>
    cases s with
    | purgeDiscarded queue =>
      rw [← Except.ok.inj heffect] at hparent hchild ⊢
      exact hdelete _ hparent hchild
    | prune a =>
      rw [limited_ok heffect] at hparent hchild ⊢
      exact hdelete _ hparent hchild
    | pruneWorkflows =>
      rw [← Except.ok.inj heffect]
      obtain ⟨-, -, hc⟩ := db.valid .edgeFkey e he
      obtain ⟨c, hc, hcid⟩ := List.mem_map.mp hc
      exact List.mem_filter.mpr ⟨he, decide_eq_true ⟨c, hc, hwithin e he c hc (.inr hcid)⟩⟩
    | _ => cases deletes

/-! ## The counter and the ledger -/

/-- Infinity is for rows that wait for a parent. -/
def Parked (t : Tables) : Prop := ∀ j ∈ t.jobs, j.scheduledAt = ⊤ ↔ 0 < j.pendingDeps

theorem parked_exec (db : Db) (s : Stmt) (hsound : Sound db.toTables) (h : Parked db.toTables) :
    Parked (db.exec s).toTables := by
  rcases db.exec_form s with hsame | hform
  · rwa [hsame]
  generalize (db.exec s).toTables = t' at hform
  intro k hk
  cases hform with
  | rows step =>
    obtain ⟨j, hj, rfl⟩ := List.mem_map.mp hk
    have hrow := step j hj
    have hpark := h j hj
    have hstarted := (hsound j hj).started
    generalize s.rowMap db.toTables j = k at hrow
    cases hrow with
    | reschedule delay error now running left =>
      simp [Job.reschedule, hstarted (.inl running), WithTop.coe_ne_top]
    | requeue now dead =>
      simp [Job.requeue, hstarted (.inr (.inr dead)), WithTop.coe_ne_top]
    | _ => exact hpark
  | complete batch worker now stmt =>
    obtain ⟨j, hj, rfl⟩ := List.mem_map.mp hk
    have hpark := h j hj
    have hafter := ((hsound j hj).of_complete batch worker now db.ids_nodup).count
    revert hafter
    unfold Tables.completeRow
    cases hentry : batchEntry batch worker j with
    | some result => exact fun _ => hpark
    | none =>
      dsimp only
      split
      · exact fun _ => hpark
      · next hne =>
        intro hafter
        simp only [Job.unblock] at hafter ⊢
        split
        · next hzero => simp [hzero, WithTop.coe_ne_top]
        · next hnonzero =>
          rw [hpark]
          omega
  | insert rows es new jobs edges =>
    rw [jobs] at hk
    rcases List.mem_append.mp hk with hk | hk
    · exact h k hk
    · exact new.parked k hk
  | delete deletes jobs edges => exact h k (jobs.mem hk)

/-- What the tables know of the ledger: an edge is there as long as both its ends
are, and the counter of a row is the number of its parents that never completed. -/
structure Faithful (l : Ledger) : Prop where
  sound : Sound l.db.toTables
  parked : Parked l.db.toTables
  within : Retention.EdgesWithin l.db.toTables
  kept : ∀ e ∈ l.edges, e.parent ∈ l.db.ids → e.child ∈ l.db.ids → e ∈ l.db.edges
  known : ∀ e ∈ l.db.edges, e ∈ l.edges
  nodup : l.edges.Nodup
  seq : ∀ e ∈ l.edges, e.parent ≤ l.db.jobSeq ∧ e.child ≤ l.db.jobSeq
  done : ∀ j ∈ l.db.jobs, j.id ∈ l.done ↔ j.state = .completed
  doneSeq : ∀ id ∈ l.done, id ≤ l.db.jobSeq
  count : ∀ j ∈ l.db.jobs, j.pendingDeps = (l.unfinished j.id).length

section
variable {l : Ledger} (h : Faithful l) {s : Stmt} (hform : Form s l.db.toTables (l.db.exec s).toTables)
include h hform

omit h in
theorem ids_of_step {id : JobId} (hid : id ∈ (l.db.exec s).ids) (hle : id ≤ l.db.jobSeq) : id ∈ l.db.ids := by
  obtain ⟨k, hk, rfl⟩ := List.mem_map.mp hid
  rcases row_origin hform hk with ⟨j, hj, hsame, -⟩ | hnew
  · exact hsame ▸ List.mem_map_of_mem hj
  · exact absurd hle (not_le.mpr hnew)

theorem kept_step : ∀ e ∈ (l.step s).edges, e.parent ∈ (l.step s).db.ids → e.child ∈ (l.step s).db.ids →
    e ∈ (l.step s).db.edges := by
  intro e he hparent hchild
  rcases List.mem_append.mp he with he | he
  · obtain ⟨hp, hc⟩ := h.seq e he
    exact edge_kept h.within s (h.kept e he (ids_of_step hform hparent hp) (ids_of_step hform hchild hc))
      hparent hchild
  · exact (List.mem_filter.mp he).1

theorem nodup_step : (l.step s).edges.Nodup := by
  have hnew : (l.db.exec s).edges.Nodup := List.Nodup.of_map _ ((l.db.exec s).valid .edgePkey)
  refine List.nodup_append.mpr ⟨h.nodup, hnew.filter _, fun e he e' he' hsame => ?_⟩
  subst hsame
  obtain ⟨hin, hout⟩ := List.mem_filter.mp he'
  rcases edge_origin hform hin with hold | hfresh
  · exact of_decide_eq_true hout hold
  · exact absurd (h.seq e he).1 (not_le.mpr hfresh.1)

theorem done_step : ∀ k ∈ (l.step s).db.jobs, k.id ∈ (l.step s).done ↔ k.state = .completed := by
  intro k hk
  constructor
  · intro hmem
    rcases List.mem_append.mp hmem with hold | hnow
    · rcases row_origin hform hk with ⟨j, hj, hsame, hstays⟩ | hnew
      · exact hstays ((h.done j hj).mp (hsame ▸ hold))
      · exact absurd (h.doneSeq k.id hold) (not_le.mpr hnew)
    · obtain ⟨i, hi, hid⟩ := List.mem_map.mp hnow
      obtain ⟨hi, hdone⟩ := List.mem_filter.mp hi
      rw [← (l.db.exec s).eq_of_id hi hk hid]
      exact of_decide_eq_true hdone
  · intro hdone
    exact List.mem_append_right _ (List.mem_map_of_mem (List.mem_filter.mpr ⟨hk, decide_eq_true hdone⟩))

omit hform in
theorem seq_step : (∀ e ∈ (l.step s).edges, e.parent ≤ (l.step s).db.jobSeq ∧ e.child ≤ (l.step s).db.jobSeq) ∧
    ∀ id ∈ (l.step s).done, id ≤ (l.step s).db.jobSeq := by
  have hmono := l.db.jobSeq_le_exec s
  refine ⟨fun e he => ?_, fun id hid => ?_⟩
  · rcases List.mem_append.mp he with he | he
    · obtain ⟨hp, hc⟩ := h.seq e he
      exact ⟨hp.trans hmono, hc.trans hmono⟩
    · have he := (List.mem_filter.mp he).1
      exact ⟨Retention.ends_le_seq he (.inl rfl), Retention.ends_le_seq he (.inr rfl)⟩
  · rcases List.mem_append.mp hid with hid | hid
    · exact (h.doneSeq id hid).trans hmono
    · obtain ⟨j, hj, rfl⟩ := List.mem_map.mp hid
      exact ((l.db.exec s).valid .identity).1 _ (List.mem_map_of_mem (List.mem_filter.mp hj).1)

omit hform in
/-- A statement that completes nothing adds nobody to `done`. -/
theorem done_same (hsame : ∀ k ∈ (l.db.exec s).jobs, k.state = .completed →
      ∃ j ∈ l.db.jobs, j.id = k.id ∧ j.state = .completed) (id : JobId) :
    id ∈ (l.step s).done ↔ id ∈ l.done := by
  refine ⟨fun hid => ?_, List.mem_append_left _⟩
  rcases List.mem_append.mp hid with hid | hid
  · exact hid
  · obtain ⟨k, hk, rfl⟩ := List.mem_map.mp hid
    obtain ⟨hk, hdone⟩ := List.mem_filter.mp hk
    obtain ⟨j, hj, hjk, hstate⟩ := hsame k hk (of_decide_eq_true hdone)
    exact hjk ▸ (h.done j hj).mpr hstate

omit h hform in
/-- A statement that completes nothing and adds no edge into a job leaves its open
edges. -/
theorem unfinished_same (hdone : ∀ id, id ∈ (l.step s).done ↔ id ∈ l.done) {c : JobId}
    (hedges : ∀ e ∈ (l.db.exec s).edges, e.child = c → e ∈ l.db.edges) :
    (l.step s).unfinished c = l.unfinished c := by
  have hnone : ((l.db.exec s).edges.filter fun e => e ∉ l.db.edges).filter
      (fun e => e.child = c ∧ e.parent ∉ l.done) = [] := by
    refine List.filter_eq_nil_iff.mpr fun e he hopen => ?_
    obtain ⟨he, hout⟩ := List.mem_filter.mp he
    exact of_decide_eq_true hout (hedges e he (of_decide_eq_true hopen).1)
  unfold Ledger.unfinished
  simp only [hdone]
  rw [Ledger.step, List.filter_append, hnone, List.append_nil]
end

section
variable {l : Ledger} (h : Faithful l) {s : Stmt} {batch : List (JobId × Option Bytes)} {worker : Uuid}
  {now : Time} (ht : (l.db.exec s).toTables = l.db.toTables.complete batch worker now)
include h ht

/-- A report adds the jobs it settles. -/
theorem done_complete (id : JobId) :
    id ∈ (l.step s).done ↔ id ∈ l.done ∨ id ∈ l.db.settledBy batch worker := by
  have hid := fun j => (completeRow_step batch worker now l.db.toTables j).same.id
  have hjobs : (l.db.exec s).jobs = l.db.jobs.map (l.db.completeRow batch worker now) :=
    congrArg Tables.jobs ht
  constructor
  · intro hmem
    rcases List.mem_append.mp hmem with hold | hnow
    · exact .inl hold
    · obtain ⟨k, hk, rfl⟩ := List.mem_map.mp hnow
      obtain ⟨hk, hdone⟩ := List.mem_filter.mp hk
      rw [hjobs] at hk
      obtain ⟨j, hj, rfl⟩ := List.mem_map.mp hk
      rw [hid]
      rcases (completed_completeRow j).mp (of_decide_eq_true hdone) with hwas | hsome
      · exact .inl ((h.done j hj).mpr hwas)
      · exact .inr (mem_settledBy.mpr ⟨j, hj, hsome, rfl⟩)
  · intro hmem
    rcases hmem with hold | hnow
    · exact List.mem_append_left _ hold
    · obtain ⟨j, hj, hsome, rfl⟩ := mem_settledBy.mp hnow
      refine List.mem_append_right _ (List.mem_map.mpr ⟨l.db.completeRow batch worker now j, ?_, hid j⟩)
      exact List.mem_filter.mpr ⟨hjobs ▸ List.mem_map_of_mem hj,
        decide_eq_true ((completed_completeRow j).mpr (.inr hsome))⟩

omit h in
theorem edges_complete : (l.step s).edges = l.edges := by
  have hnone : (l.db.exec s).edges.filter (fun e => e ∉ l.db.edges) = [] := by
    rw [ht]
    exact List.filter_eq_nil_iff.mpr fun e he hout => of_decide_eq_true hout he
  rw [Ledger.step, hnone, List.append_nil]

theorem mem_unfinished_complete {c : JobId} {e : Edge} : e ∈ (l.step s).unfinished c ↔
    e ∈ l.unfinished c ∧ e.parent ∉ l.db.settledBy batch worker := by
  simp only [Ledger.unfinished, List.mem_filter, decide_eq_true_iff, edges_complete ht,
    done_complete h ht, not_or]
  tauto

/-- The edges a report closes are those it counts. -/
theorem unfinished_split {c : JobId} (hc : c ∈ l.db.ids) : (l.unfinished c).length =
    ((l.step s).unfinished c).length + l.db.counted (l.db.settledBy batch worker) c := by
  -- both ends of a counted edge are there, so the tables have it if the ledger does
  have hperm : (l.db.edges.filter fun e => e.child = c ∧ e.parent ∈ l.db.settledBy batch worker).Perm
      (l.edges.filter fun e => e.child = c ∧ e.parent ∈ l.db.settledBy batch worker) := by
    have hdb : l.db.edges.Nodup := List.Nodup.of_map _ (l.db.valid .edgePkey)
    refine (List.perm_ext_iff_of_nodup (hdb.filter _) (h.nodup.filter _)).mpr fun e => ?_
    simp only [List.mem_filter, decide_eq_true_iff]
    refine and_congr_left fun hcounted => ⟨h.known e, fun he => ?_⟩
    obtain ⟨p, hp, -, hpid⟩ := mem_settledBy.mp hcounted.2
    exact h.kept e he (hpid ▸ List.mem_map_of_mem hp) (hcounted.1 ▸ hc)
  have hfresh : ∀ id ∈ l.db.settledBy batch worker, id ∉ l.done := by
    intro id hid hdone
    obtain ⟨j, hj, hsome, rfl⟩ := mem_settledBy.mp hid
    obtain ⟨result, hentry⟩ := Option.isSome_iff_exists.mp hsome
    have hrun := (heldBy_of_batchEntry hentry).2
    rw [(h.done j hj).mp hdone] at hrun
    cases hrun
  rw [Tables.counted, hperm.length_eq, Ledger.unfinished, Ledger.unfinished, edges_complete ht]
  simp only [← List.countP_eq_length_filter, done_complete h ht]
  generalize l.db.settledBy batch worker = settled at hfresh
  induction l.edges with
  | nil => rfl
  | cons e es ih =>
    have hfresh := hfresh e.parent
    simp only [List.countP_cons, decide_eq_true_eq]
    split_ifs <;> first | omega | tauto

theorem count_complete {j : Job} (hj : j ∈ l.db.jobs) :
    (l.db.completeRow batch worker now j).pendingDeps = ((l.step s).unfinished j.id).length := by
  have hsplit := unfinished_split h ht (List.mem_map_of_mem hj)
  have hcount := h.count j hj
  rw [pendingDeps_completeRow]
  split
  · next hsome =>
    obtain ⟨result, hentry⟩ := Option.isSome_iff_exists.mp hsome
    have hzero := (h.sound j hj).started (.inl (heldBy_of_batchEntry hentry).2)
    omega
  · omega
end

/-- The open edges of a new row are its new edges. -/
theorem length_unfinished_new {l : Ledger} (h : Faithful l) {s : Stmt} {rows : List Job} {es : List Edge}
    (new : NewRows l.db.toTables rows es) (hdone : ∀ id, id ∈ (l.step s).done ↔ id ∈ l.done)
    (hedges : (l.db.exec s).edges = l.db.edges ++ es) {k : Job} (hk : k ∈ rows) :
    ((l.step s).unfinished k.id).length = (es.filter fun e => e.child = k.id).length := by
  have hfresh := new.ids k hk
  have hold : l.edges.filter (fun e => e.child = k.id ∧ e.parent ∉ l.done) = [] := by
    refine List.filter_eq_nil_iff.mpr fun e he hopen => ?_
    have hchild := (of_decide_eq_true hopen).1
    exact absurd (hchild ▸ (h.seq e he).2) (not_le.mpr hfresh)
  have hnone : l.db.edges.filter (fun e => e ∉ l.db.edges) = [] :=
    List.filter_eq_nil_iff.mpr fun e he hout => of_decide_eq_true hout he
  have hnew : (es.filter fun e => e ∉ l.db.edges).filter (fun e => e.child = k.id ∧ e.parent ∉ l.done) =
      es.filter fun e => e.child = k.id := by
    rw [List.filter_filter]
    refine List.filter_congr fun e he => ?_
    obtain ⟨p, hp, hpid⟩ := List.mem_map.mp (new.ends e he).1
    have hparent : l.db.jobSeq < e.parent := hpid ▸ new.ids p hp
    have hout : e ∉ l.db.edges := fun hin => absurd (h.seq e (h.known e hin)).1 (not_le.mpr hparent)
    have hopen : e.parent ∉ l.done := fun hin => absurd (h.doneSeq _ hin) (not_le.mpr hparent)
    simp [hout, hopen]
  unfold Ledger.unfinished
  simp only [hdone]
  rw [Ledger.step, hedges, List.filter_append, List.filter_append, hold, hnone]
  exact congrArg List.length hnew

theorem count_step {l : Ledger} (h : Faithful l) {s : Stmt}
    (hform : Form s l.db.toTables (l.db.exec s).toTables) :
    ∀ k ∈ (l.step s).db.jobs, k.pendingDeps = ((l.step s).unfinished k.id).length := by
  have hseq : ∀ {j : Job}, j ∈ l.db.jobs → j.id ≤ l.db.jobSeq := fun hj =>
    (l.db.valid .identity).1 _ (List.mem_map_of_mem hj)
  have horigin := fun e => edge_origin hform (e := e)
  have hold : ∀ {c : JobId}, c ≤ l.db.jobSeq → ∀ e ∈ (l.db.exec s).edges, e.child = c → e ∈ l.db.edges := by
    intro c hc e he hchild
    rcases horigin e he with hold | hfresh
    · exact hold
    · exact absurd (hchild ▸ hc) (not_le.mpr hfresh.2)
  intro k hk
  generalize ht : (l.db.exec s).toTables = t' at hform
  have hjobs : (l.step s).db.jobs = t'.jobs := congrArg Tables.jobs ht
  rw [hjobs] at hk
  cases hform with
  | rows step =>
    obtain ⟨j, hj, rfl⟩ := List.mem_map.mp hk
    have hdone := done_same h (s := s) fun k hk hstate => by
      rw [show (l.db.exec s).jobs = _ from hjobs] at hk
      obtain ⟨i, hi, rfl⟩ := List.mem_map.mp hk
      exact ⟨i, hi, (step i hi).same.id.symm, (step i hi).completed_iff.mp hstate⟩
    rw [(step j hj).pendingDeps, (step j hj).same.id, unfinished_same hdone (hold (hseq hj))]
    exact h.count j hj
  | complete batch worker now stmt =>
    obtain ⟨j, hj, rfl⟩ := List.mem_map.mp hk
    rw [(completeRow_step batch worker now l.db.toTables j).same.id]
    exact count_complete h ht hj
  | insert rows es new jobs edges =>
    have hdone := done_same h (s := s) fun k hk hstate => by
      rw [show (l.db.exec s).jobs = _ from hjobs, jobs] at hk
      rcases List.mem_append.mp hk with hk | hk
      · exact ⟨k, hk, rfl, hstate⟩
      · rw [new.state k hk] at hstate
        cases hstate
    rw [jobs] at hk
    rcases List.mem_append.mp hk with hk | hk
    · rw [unfinished_same hdone (hold (hseq hk))]
      exact h.count k hk
    · rw [new.pending k hk]
      exact congrArg Nat.cast (length_unfinished_new h new hdone ((congrArg Tables.edges ht).trans edges) hk).symm
  | delete deletes jobs edges =>
    have hk' := jobs.mem hk
    have hdone := done_same h (s := s) fun k hk hstate => by
      rw [show (l.db.exec s).jobs = _ from hjobs] at hk
      exact ⟨k, jobs.mem hk, rfl, hstate⟩
    rw [unfinished_same hdone (hold (hseq hk'))]
    exact h.count k hk'

theorem exec_isForm (db : Db) (s : Stmt) : Form s db.toTables (db.exec s).toTables := by
  rcases db.exec_form s with hsame | hform
  · rw [hsame]
    exact .same_jobs rfl rfl
  · exact hform

theorem faithful_step (l : Ledger) (s : Stmt) (h : Faithful l) : Faithful (l.step s) where
  sound := sound_exec l.db s h.sound
  parked := parked_exec l.db s h.sound h.parked
  within := Retention.edgesWithin_exec l.db s h.within
  kept := kept_step h (exec_isForm l.db s)
  known := by
    intro e he
    by_cases hold : e ∈ l.db.edges
    · exact List.mem_append_left _ (h.known e hold)
    · exact List.mem_append_right _ (List.mem_filter.mpr ⟨he, decide_eq_true hold⟩)
  nodup := nodup_step h (exec_isForm l.db s)
  seq := (seq_step h).1
  done := done_step h (exec_isForm l.db s)
  doneSeq := (seq_step h).2
  count := count_step h (exec_isForm l.db s)

theorem faithful_ledger (ss : List Stmt) : Faithful (ledger ss) := by
  refine run_inv faithful_step ss ?_
  constructor
  case nodup => exact List.nodup_nil
  case seq | doneSeq | kept | known | within => exact fun _ he => absurd he List.not_mem_nil
  all_goals exact fun j hj => absurd hj (Db.not_mem_empty j)

/-! ## When a child is freed -/

/-- The `COMPLETE` that settles all the parents a job still waits for. -/
def SettlesLast (l : Ledger) (c : JobId) : Stmt → Prop
  | .complete batch worker _ =>
    l.unfinished c ≠ [] ∧ ∀ e ∈ l.unfinished c, e.parent ∈ l.db.settledBy batch worker
  | _ => False

/-- A statement that is no report leaves the counters. -/
theorem pendingDeps_exec (db : Db) {s : Stmt} (hs : ∀ batch worker now, s ≠ .complete batch worker now)
    {j k : Job} (hj : j ∈ db.jobs) (hk : k ∈ (db.exec s).jobs) (hid : k.id = j.id) :
    k.pendingDeps = j.pendingDeps := by
  have hform := exec_isForm db s
  generalize (db.exec s).toTables = t' at hform hk
  cases hform with
  | rows step =>
    obtain ⟨i, hi, rfl⟩ := List.mem_map.mp hk
    rw [(step i hi).same.id] at hid
    rw [(step i hi).pendingDeps, db.eq_of_id hi hj hid]
  | complete batch worker now stmt => exact absurd stmt (hs batch worker now)
  | insert rows es new jobs edges =>
    rw [jobs] at hk
    rcases List.mem_append.mp hk with hk | hk
    · rw [db.eq_of_id hk hj hid]
    · have hle : j.id ≤ db.jobSeq := (db.valid .identity).1 _ (List.mem_map_of_mem hj)
      exact absurd (hid ▸ hle) (not_le.mpr (new.ids k hk))
  | delete deletes jobs edges => rw [db.eq_of_id (jobs.mem hk) hj hid]

/-- A child leaves infinity by the statement that settles its last parents, and by
no other. -/
theorem freed_iff {l : Ledger} (h : Faithful l) (s : Stmt) {j k : Job} (hj : j ∈ l.db.jobs)
    (hk : k ∈ (l.db.exec s).jobs) (hid : k.id = j.id) :
    j.scheduledAt = ⊤ ∧ k.scheduledAt ≠ ⊤ ↔ SettlesLast l j.id s := by
  have h' := faithful_step l s h
  have hbefore := h.count j hj
  have hafter : k.pendingDeps = ((l.step s).unfinished j.id).length := hid ▸ h'.count k hk
  rw [ne_eq, h.parked j hj, h'.parked k hk]
  by_cases hs : ∃ batch worker now, s = .complete batch worker now
  · obtain ⟨batch, worker, now, rfl⟩ := hs
    obtain ⟨db', hrun⟩ := complete_accepted h.sound batch worker now
    have heffect : Except.ok (l.db.toTables.complete batch worker now) = .ok db'.toTables := Db.run_ok hrun
    have ht : (l.db.exec (.complete batch worker now)).toTables = l.db.toTables.complete batch worker now := by
      rw [Db.exec_of_run hrun]
      exact (Except.ok.inj heffect).symm
    have hnil : (l.step (.complete batch worker now)).unfinished j.id = [] ↔
        ∀ e ∈ l.unfinished j.id, e.parent ∈ l.db.settledBy batch worker := by
      simp only [List.eq_nil_iff_forall_not_mem, mem_unfinished_complete h ht, not_and, not_not]
    rw [SettlesLast, ← hnil, ← List.length_pos_iff, ← List.length_eq_zero_iff]
    omega
  · have hsame := pendingDeps_exec l.db (fun batch worker now he => hs ⟨batch, worker, now, he⟩) hj hk hid
    have hnot : ¬ SettlesLast l j.id s := by
      cases s with
      | complete batch worker now => exact absurd ⟨batch, worker, now, rfl⟩ hs
      | _ => exact id
    refine ⟨fun hfreed => ?_, fun hlast => absurd hlast hnot⟩
    omega

end Gylo.Store.Ledgers
