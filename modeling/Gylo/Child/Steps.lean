import Gylo.Child.Serve

/-! # One step of the child's loop

What a stretch of the loop can do to the tasks that run in the child, and which frame
it can write. -/
namespace Gylo.Child

open Gylo.Store (Bytes)

/-- The task that a job's name was looked up to. -/
def Stage.task? : Stage → Option Task
  | .submitted task | .calling task | .hung task => some task
  | .scheduled | .draining => none

section
variable {V E : Type} {py : Python V E} {app : String → Option Task} {c : Process} {i : Nat} {t₀ t : JobTask}

variable (py app) in
/-- The task of a job that was there before, with the same task looked up or the one
`begin` has just let through. -/
def Descends (running : List JobTask) (t : JobTask) : Prop :=
  ∃ t₀ ∈ running, t.job = t₀.job ∧
    ∀ task, t.stage.task? = some task → t₀.stage.task? = some task ∨ begin py app t₀.job = .ok task

theorem descends_of_mem (h : t ∈ c.running) : Descends py app c.running t :=
  ⟨t, h, rfl, fun _ htask => .inl htask⟩

theorem descends_of_set (stage : Stage) (h₀ : c.running[i]? = some t₀)
    (hstage : ∀ task, stage.task? = some task → t₀.stage.task? = some task ∨ begin py app t₀.job = .ok task)
    (h : t ∈ c.running.set i ⟨t₀.job, stage⟩) : Descends py app c.running t := by
  rcases List.mem_or_eq_of_mem_set h with hold | rfl
  · exact descends_of_mem hold
  · exact ⟨t₀, List.mem_of_getElem? h₀, rfl, hstage⟩

theorem descends_of_close (h : t ∈ c.close.running) : Descends py app c.running t :=
  descends_of_mem (List.mem_of_mem_filter h)

theorem descends_of_report {r : Report} (h₀ : c.running[i]? = some t₀) (h : t ∈ (c.report i t₀.job r).running) :
    Descends py app c.running t := by
  cases r with
  | frame bytes => exact descends_of_set .draining h₀ (fun task htask => by cases htask) h
  | swallowed => exact descends_of_mem (List.mem_of_mem_eraseIdx h)
  | exits =>
    simp only [Process.report, Process.exit] at h
    split at h
    · cases h
    · exact descends_of_mem (List.mem_of_mem_eraseIdx (List.mem_of_mem_filter h))

theorem descends_of_cancel {fired : Bool} (h₀ : c.running[i]? = some t₀)
    (h : t ∈ (cancel py c i fired t₀).running) : Descends py app c.running t := by
  obtain ⟨job, stage⟩ := t₀
  cases stage with
  | scheduled | draining => exact descends_of_mem (List.mem_of_mem_eraseIdx h)
  | submitted task | hung task => exact descends_of_report h₀ h
  | calling task =>
    simp only [cancel] at h
    split at h
    · exact descends_of_mem h
    · exact descends_of_report (c := { c with threads := c.threads + 1 }) h₀ h

theorem settle_running (c : Process) : c.settle.running = c.running := by
  unfold Process.settle
  split <;> rfl

theorem settle_written (c : Process) : c.settle.written = c.written := by
  unfold Process.settle
  split <;> rfl

/-- A task in the child is received, or that of a job which was there before. -/
theorem mem_running_step {a : Act V E} (h : t ∈ (step py app c a).running) :
    (∃ job, a = .receive job ∧ t = ⟨job, .scheduled⟩) ∨ Descends py app c.running t := by
  unfold step at h
  split at h
  · rw [settle_running] at h
    cases a with
    | receive job =>
      simp only [act] at h
      split at h
      · rcases List.mem_append.mp h with hold | hnew
        · exact .inr (descends_of_mem hold)
        · exact .inl ⟨job, rfl, List.mem_singleton.mp hnew⟩
      · exact .inr (descends_of_mem h)
    | start i =>
      refine .inr ?_
      simp only [act] at h
      split at h
      · next job hi =>
        split at h
        · next task hbegin =>
          refine descends_of_set _ hi (fun task' htask => .inr ?_) h
          rw [hbegin]
          split at htask <;> cases htask <;> rfl
        · exact descends_of_report hi h
      · exact descends_of_mem h
    | picked i =>
      refine .inr ?_
      simp only [act] at h
      split at h
      · next task hi => exact descends_of_set (.calling task) hi (fun _ htask => .inl htask) h
      · exact descends_of_mem h
    | ends i fired e =>
      refine .inr ?_
      simp only [act] at h
      split at h
      · next task hi =>
        split at h
        · exact descends_of_set (.hung task) hi (fun _ htask => .inl htask) h
        · exact descends_of_report hi h
      · exact descends_of_mem h
    | cancel i fired =>
      refine .inr ?_
      simp only [act] at h
      split at h
      · next hi => exact descends_of_cancel hi h
      · exact descends_of_mem h
    | drained i =>
      refine .inr ?_
      simp only [act] at h
      split at h
      · exact descends_of_mem (List.mem_of_mem_eraseIdx h)
      · exact descends_of_mem h
    | unreadable | leave =>
      refine .inr ?_
      simp only [act] at h
      split at h
      all_goals first | exact descends_of_mem h | exact descends_of_close h
    | threadEnds | eof | kill => exact .inr (descends_of_mem h)
  · exact .inr (descends_of_mem h)

theorem written_report (c : Process) (i : Nat) (job : Dispatch) (r : Report) :
    (c.report i job r).written = c.written ∨
      ∃ bytes, r = .frame bytes ∧ (c.report i job r).written = c.written ++ [bytes] := by
  cases r with
  | frame bytes => exact .inr ⟨bytes, rfl, rfl⟩
  | swallowed => exact .inl rfl
  | exits =>
    refine .inl ?_
    simp only [Process.report, Process.exit]
    split <;> rfl

/-- A value comes out of the await as the body has returned it. -/
theorem awaited_returned {task : Task} {e : Ending V E} {value : V}
    (h : awaited py task e = some (.returned value)) : e = .returned value := by
  cases e with
  | raised error =>
    simp only [awaited] at h
    split at h
    · cases h
    · split at h <;> cases h
  | _ => exact Option.some.inj h

variable (py app) in
/-- The frame a job's task writes: that of one that does not begin, or of one whose
await has ended, with a value only if the body has returned it in this step. -/
def Writes (c : Process) (a : Act V E) (bytes : Bytes) : Prop :=
  ∃ k t, c.running[k]? = some t ∧ (begin py app t.job = .error (.frame bytes) ∨
    ∃ fired, ∃ e : Ending V E, ∃ task, finish py t.job task fired e = .frame bytes ∧
      ∀ value, e = .returned value → t.stage = .calling task ∧ ∃ fired, a = .ends k fired (.returned value))

theorem written_cancel (fired : Bool) (h : c.running[i]? = some t) :
    (cancel py c i fired t).written = c.written ∨
      ∃ bytes, Writes py app c (.cancel i fired) bytes ∧ (cancel py c i fired t).written = c.written ++ [bytes] := by
  have hcancelled : ∀ (task : Task) (c' : Process), c'.written = c.written →
      (c'.report i t.job (finish py t.job task fired .cancelled)).written = c.written ∨
        ∃ bytes, Writes py app c (.cancel i fired) bytes ∧
          (c'.report i t.job (finish py t.job task fired .cancelled)).written = c.written ++ [bytes] := by
    intro task c' hsame
    rw [← hsame]
    refine (written_report c' i t.job _).imp_right fun hwrites => ?_
    obtain ⟨bytes, hframe, hwritten⟩ := hwrites
    exact ⟨bytes, ⟨i, t, h, .inr ⟨fired, .cancelled, task, hframe, fun value hvalue => by cases hvalue⟩⟩, hwritten⟩
  unfold cancel
  split
  · exact .inl rfl
  · exact .inl rfl
  · exact hcancelled _ c rfl
  · exact hcancelled _ c rfl
  · split
    · exact .inl rfl
    · exact hcancelled _ { c with threads := c.threads + 1 } rfl

/-- A step writes at most one frame. -/
theorem written_step (py : Python V E) (app : String → Option Task) (c : Process) (a : Act V E) :
    (step py app c a).written = c.written ∨
      ∃ bytes, Writes py app c a bytes ∧ (step py app c a).written = c.written ++ [bytes] := by
  unfold step
  split
  · rw [settle_written]
    cases a with
    | start i =>
      simp only [act]
      split
      · next job hi =>
        split
        · exact .inl rfl
        · next r hbegin =>
          refine (written_report c i job r).imp_right fun hwrites => ?_
          obtain ⟨bytes, rfl, hwritten⟩ := hwrites
          exact ⟨bytes, ⟨i, _, hi, .inl hbegin⟩, hwritten⟩
      · exact .inl rfl
    | ends i fired e =>
      simp only [act]
      split
      · next job task hi =>
        split
        · exact .inl rfl
        · next e' hawaited =>
          refine (written_report c i job _).imp_right fun hwrites => ?_
          obtain ⟨bytes, hframe, hwritten⟩ := hwrites
          refine ⟨bytes, ⟨i, _, hi, .inr ⟨_, e', task, hframe, fun value hvalue => ⟨rfl, fired, ?_⟩⟩⟩, hwritten⟩
          rw [hvalue] at hawaited
          rw [awaited_returned hawaited]
      · exact .inl rfl
    | cancel i fired =>
      simp only [act]
      split
      · next hi => exact written_cancel fired hi
      · exact .inl rfl
    | receive job | picked i | drained i | unreadable | leave =>
      simp only [act]
      split <;> exact .inl rfl
    | threadEnds | eof | kill => exact .inl rfl
  · exact .inl rfl
end

end Gylo.Child
