import Gylo.Store.Effects

/-! # The life of a job row

Six columns of a row say how far the job has come: `state`, the two lease
columns, `finalized_at`, `result` and `attempt`. Only the pairing of the lease
columns and the upper bound on `attempt` are constraints of the database; the
rest holds because every statement writes the right subset. -/
namespace Gylo.Store.Lifecycle

open Gylo.Store Runs

/-! ## The coupled columns -/

def Terminal (s : JobState) : Prop := s = .completed ∨ s = .discarded ∨ s = .cancelled

/-- A row whose columns agree with its state. -/
structure Coherent (j : Job) : Prop where
  leased : j.state = .running ↔ j.lockedBy.isSome ∧ j.leaseExpiresAt.isSome
  finalized : j.finalizedAt.isSome ↔ Terminal j.state
  result : j.result.isSome → j.state = .completed
  started : 0 ≤ j.attempt
  spare : j.state = .available → 1 ≤ j.maxAttempts → j.attempt < j.maxAttempts

theorem Coherent.of_rowStep {P : Job → Prop} {j k : Job} (hj : Coherent j) (h : RowStep P j k) :
    Coherent k := by
  obtain ⟨hl, hf, hr, ha, hs⟩ := hj
  cases h with
  | refl => exact ⟨hl, hf, hr, ha, hs⟩
  | lease worker lease now due pick =>
    rw [due.1] at hf hr
    refine ⟨by simp [Job.lease], by simpa [Job.lease, Terminal] using hf, ?_, ?_, fun h => by cases h⟩
    · intro h; cases hr h
    · show 0 ≤ j.attempt + 1; omega
  | reschedule delay error now running left =>
    rw [running] at hf hr
    refine ⟨by simp [Job.reschedule], by simpa [Job.reschedule, Terminal] using hf, ?_, ha, ?_⟩
    · intro h; cases hr h
    · exact fun _ _ => left
  | release running left =>
    rw [running] at hf hr
    refine ⟨by simp [Job.release], by simpa [Job.release, Terminal] using hf, ?_, ha, ?_⟩
    · intro h; cases hr h
    · exact fun _ _ => left
  | discard error now running =>
    rw [running] at hr
    refine ⟨by simp [Job.discard], by simp [Job.discard, Terminal], ?_, ha, fun h => by cases h⟩
    intro h; cases hr h
  | cancel now waiting =>
    rw [waiting] at hr
    refine ⟨by simp [Job.cancel], by simp [Job.cancel, Terminal], ?_, ha, fun h => by cases h⟩
    intro h; cases hr h
  | cascade now waiting =>
    -- the cascade leaves the lease columns: a waiting row never had them set
    rw [waiting] at hl hr
    refine ⟨by simpa [Job.cascade] using hl, by simp [Job.cascade, Terminal], ?_, ha, fun h => by cases h⟩
    intro h; cases hr h
  | expireAt time running =>
    have hlock := (hl.mp running).1
    exact ⟨by simp [Job.expireAt, running, hlock], hf, hr, ha, hs⟩
  | requeue now dead =>
    rw [dead] at hr
    refine ⟨by simp [Job.requeue], by simp [Job.requeue, Terminal], ?_, le_refl 0, ?_⟩
    · intro h; cases hr h
    · intro _ hmax; exact hmax

theorem Coherent.of_completeStep {j k : Job} (hj : Coherent j) (h : CompleteStep j k) :
    Coherent k := by
  cases h with
  | refl => exact hj
  | complete result now running =>
    exact ⟨by simp [Job.complete], by simp [Job.complete, Terminal], fun _ => rfl, hj.started, nofun⟩
  | unblock n now => exact ⟨hj.leased, hj.finalized, hj.result, hj.started, hj.spare⟩

theorem Coherent.of_new {t : Tables} {rows : List Job} {es : List Edge} (h : NewRows t rows es)
    {j : Job} (hj : j ∈ rows) : Coherent j := by
  have hs := h.state j hj
  have ha := h.attempt j hj
  have hu := h.unlocked j hj
  have ho := h.open_ j hj
  refine ⟨by simp [hs, hu], by simp [hs, ho, Terminal], by simp [ho], ha.ge, ?_⟩
  intro _ hmax
  omega

/-- Every statement keeps every row coherent. -/
theorem coherent_exec (db : Db) (s : Stmt) (h : ∀ j ∈ db.jobs, Coherent j) :
    ∀ j ∈ (db.exec s).jobs, Coherent j := by
  rcases db.exec_form s with hsame | hform
  · rwa [hsame]
  · generalize (db.exec s).toTables = t' at hform ⊢
    intro j hj
    cases hform with
    | rows step =>
      obtain ⟨k, hk, rfl⟩ := List.mem_map.mp hj
      exact (h k hk).of_rowStep (step k hk)
    | complete batch worker now stmt =>
      obtain ⟨k, hk, rfl⟩ := List.mem_map.mp hj
      exact (h k hk).of_completeStep (completeRow_step batch worker now _ k)
    | insert rows es new jobs edges =>
      rw [jobs] at hj
      rcases List.mem_append.mp hj with hj | hj
      · exact h j hj
      · exact .of_new new hj
    | delete deletes jobs edges => exact h j (jobs.mem hj)

theorem coherent_after (ss : List Stmt) : ∀ j ∈ (Db.after ss).jobs, Coherent j :=
  run_inv (I := fun db : Db => ∀ j ∈ db.jobs, Coherent j) coherent_exec ss
    fun j hj => absurd hj (Db.not_mem_empty j)

/-! ## Moves -/

/-- How the state of a row may change in one statement. -/
inductive Move : JobState → JobState → Prop
  | stay (s : JobState) : Move s s
  | lease : Move .available .running
  | complete : Move .running .completed
  | release : Move .running .available
  | discard : Move .running .discarded
  | cancel : Move .available .cancelled
  | requeue : Move .discarded .available

/-- `completed` and `cancelled`: no statement leaves these. -/
def Final (s : JobState) : Prop := s = .completed ∨ s = .cancelled

theorem Move.of_final {s s' : JobState} (h : Move s s') (hs : Final s) : s' = s := by
  cases h <;> first | rfl | simp [Final] at hs

theorem move_of_rowStep {P : Job → Prop} {j k : Job} (h : RowStep P j k) : Move j.state k.state := by
  cases h with
  | refl => exact .stay _
  | lease worker lease now due pick => rw [due.1]; exact .lease
  | reschedule delay error now running left => rw [running]; exact .release
  | release running left => rw [running]; exact .release
  | discard error now running => rw [running]; exact .discard
  | cancel now waiting => rw [waiting]; exact .cancel
  | cascade now waiting => rw [waiting]; exact .cancel
  | expireAt time running => exact .stay _
  | requeue now dead => rw [dead]; exact .requeue

theorem move_of_completeStep {j k : Job} (h : CompleteStep j k) : Move j.state k.state := by
  cases h with
  | refl => exact .stay _
  | complete result now running => rw [running]; exact .complete
  | unblock n now => exact .stay _

theorem result_of_completeStep {j k : Job} (h : CompleteStep j k) (hf : Final j.state) :
    k.result = j.result := by
  cases h with
  | refl => rfl
  | complete result now running => simp [Final, running] at hf
  | unblock n now => rfl

/-- One statement that deletes nothing moves every row by one move. -/
theorem exec_moves (db : Db) (s : Stmt) (hs : s.deletes = false) :
    ∀ j ∈ db.jobs, ∃ k ∈ (db.exec s).jobs, k.id = j.id ∧ Move j.state k.state ∧
      (Final j.state → k.result = j.result) := by
  intro j hj
  rcases db.exec_form s with hsame | hform
  · rw [hsame]
    exact ⟨j, hj, rfl, .stay _, fun _ => rfl⟩
  · generalize (db.exec s).toTables = t' at hform ⊢
    cases hform with
    | rows step =>
      have hstep := step j hj
      exact ⟨_, List.mem_map_of_mem hj, hstep.same.id, move_of_rowStep hstep,
        fun _ => hstep.result⟩
    | complete batch worker now stmt =>
      have hstep := completeRow_step batch worker now db.toTables j
      exact ⟨_, List.mem_map_of_mem hj, hstep.same.id, move_of_completeStep hstep,
        result_of_completeStep hstep⟩
    | insert rows es new jobs edges =>
      exact ⟨j, by rw [jobs]; exact List.mem_append_left _ hj, rfl, .stay _, fun _ => rfl⟩
    | delete deletes jobs edges => rw [hs] at deletes; cases deletes

/-- What a run keeps: the finished rows, with their state and result. -/
def Keeps (db db' : Db) : Prop :=
  ∀ j ∈ db.jobs, ∃ k ∈ db'.jobs, k.id = j.id ∧
    (Final j.state → k.state = j.state ∧ k.result = j.result)

theorem Keeps.trans {a b c : Db} (h : Keeps a b) (h' : Keeps b c) : Keeps a c := by
  intro j hj
  obtain ⟨k, hk, hid, hkeep⟩ := h j hj
  obtain ⟨l, hl, hid', hkeep'⟩ := h' k hk
  refine ⟨l, hl, hid'.trans hid, fun hf => ?_⟩
  obtain ⟨hst, hres⟩ := hkeep hf
  obtain ⟨hst', hres'⟩ := hkeep' (by rw [hst]; exact hf)
  exact ⟨hst'.trans hst, hres'.trans hres⟩

theorem keeps_exec (db : Db) (s : Stmt) (hs : s.deletes = false) : Keeps db (db.exec s) := by
  intro j hj
  obtain ⟨k, hk, hid, hmove, hres⟩ := exec_moves db s hs j hj
  exact ⟨k, hk, hid, fun hf => ⟨hmove.of_final hf, hres hf⟩⟩

theorem keeps_run (db : Db) (ss : List Stmt) (h : ∀ s ∈ ss, s.deletes = false) :
    Keeps db (run Db.exec db ss) :=
  Along.rel (I := fun _ => True) (R := Keeps) (fun _ _ _ _ => trivial)
    (fun _ j hj => ⟨j, hj, rfl, fun _ => ⟨rfl, rfl⟩⟩) Keeps.trans
    (fun db s _ hs => keeps_exec db s hs) ss trivial (along_of_forall db ss h)

/-- **The state machine of a row.** After any run of statements every row's
columns agree with its state and its attempts are within bounds; the next
statement moves its state along one of the listed edges; and whatever run
follows, a completed or cancelled row keeps its state and its result. -/
theorem row_state_machine (before : List Stmt) (next : Stmt) (later : List Stmt)
    (h : ∀ s ∈ before ++ next :: later, s.deletes = false) :
    ∀ j ∈ (Db.after before).jobs,
      Coherent j ∧ j.attempt ≤ j.maxAttempts ∧
      (∃ k ∈ (Db.after (before ++ [next])).jobs, k.id = j.id ∧ Move j.state k.state) ∧
      (Final j.state → ∃ k ∈ (Db.after (before ++ next :: later)).jobs,
        k.id = j.id ∧ k.state = j.state ∧ k.result = j.result) := by
  intro j hj
  have hnext : ∀ s ∈ next :: later, s.deletes = false :=
    fun s hs => h s (List.mem_append_right _ hs)
  refine ⟨coherent_after before j hj, (Db.after before).valid .attemptBounds j hj, ?_, ?_⟩
  · obtain ⟨k, hk, hid, hmove, -⟩ :=
      exec_moves (Db.after before) next (hnext next List.mem_cons_self) j hj
    exact ⟨k, by rwa [Db.after, run_concat], hid, hmove⟩
  · intro hf
    obtain ⟨k, hk, hid, hkeep⟩ := keeps_run (Db.after before) (next :: later) hnext j hj
    exact ⟨k, by rwa [Db.after, run_append], hid, hkeep hf⟩

/-- A completed job is still completed, with its result, after the operator
requeues every dead letter. -/
theorem row_state_machine_completed :
    ∃ k ∈ (Db.after [.enqueue { task := "t" } 0,
        .fetchUnkeyed { queues := ["default"], limit := 1, worker := 7, lease := 30, now := 1 },
        .complete [(1, some [42])] 7 2, .retryDiscarded none none 3]).jobs,
      k.id = 1 ∧ k.state = .completed ∧ k.result = some [42] := by
  have h := row_state_machine [.enqueue { task := "t" } 0,
    .fetchUnkeyed { queues := ["default"], limit := 1, worker := 7, lease := 30, now := 1 },
    .complete [(1, some [42])] 7 2] (.retryDiscarded none none 3) [] (by decide)
    { id := 1, queue := "default", task := "t", state := .completed, payload := [], attempt := 1,
      scheduledAt := ((0 : Int) : WithTop Int), startedAt := some 1, finalizedAt := some 2,
      result := some [42] } (by decide)
  exact h.2.2.2 (.inl rfl)

end Gylo.Store.Lifecycle
