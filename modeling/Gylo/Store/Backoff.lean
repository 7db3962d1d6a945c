import Mathlib.Data.List.Chain
import Gylo.Store.Notifications

/-! # Retries keep their distance

`RETRY_MANY` puts a failed job off by a delay that doubles with each attempt, up to a
cap, and jitters it between a half and the whole. Whatever happens to the job from
there on, a lost lease and a reclaim included, the next attempt does not start before
the delay is over; so the entries of `errors` are at least half their backoff apart. -/
namespace Gylo.Store.Backoff

open Gylo.Store Gylo.Store.Dependencies Gylo.Store.Notifications Runs

/-! ## The policy -/

/-- `retry_base` and `retry_cap`, in microseconds. -/
structure Policy where
  base : Nat
  cap : Nat

section
variable (p : Policy) (e : AttemptError)

/-- Half the backoff after a failure. -/
def Policy.earliest : Time := e.time + (backoff p.base p.cap e.attempt / 2 : Nat)

/-- The whole of it. -/
def Policy.latest : Time := e.time + (backoff p.base p.cap e.attempt : Nat)
end

/-- `random()` is less than one. -/
theorem jitter_window (delay : Nat) {random : Nat} (h : random ≤ 1000000) :
    delay / 2 ≤ jitter delay random ∧ jitter delay random ≤ delay := by
  have hlow : delay * 1000000 ≤ delay * (1000000 + random) := Nat.mul_le_mul_left _ (Nat.le_add_right _ _)
  have hhigh : delay * (1000000 + random) ≤ delay * 2000000 := Nat.mul_le_mul_left _ (by omega)
  unfold jitter
  omega

/-- The database, and the time its latest statement read. -/
structure Timeline where
  db : Db
  clock : Time

def Timeline.exec (l : Timeline) (s : Stmt) : Timeline := ⟨l.db.exec s, (time? s).getD l.clock⟩

/-- Failures are retried under the policy, and nobody retries dead letters by hand. -/
def Policy.Kept (p : Policy) : Stmt → Prop
  | .retryMany a => a.base = p.base ∧ a.cap = p.cap ∧ ∀ id, a.random id ≤ 1000000
  | .retryDiscarded .. => False
  | _ => True

/-- Besides, the clock does not go back. -/
def Policy.Allows (p : Policy) (l : Timeline) (s : Stmt) : Prop := (∀ t ∈ time? s, l.clock ≤ t) ∧ p.Kept s

theorem Policy.allows_at {p : Policy} {l : Timeline} {s : Stmt} {now : Time} (htime : time? s = some now)
    (hle : l.clock ≤ now) (hkept : p.Kept s) : p.Allows l s := by
  refine ⟨fun t ht => ?_, hkept⟩
  cases htime.symm.trans ht
  exact hle

/-! ## One row -/

/-- The job may still be attempted, or is. -/
def Open (j : Job) : Prop := j.state = .available ∨ j.state = .running

/-- What holds of a row at some time: its failures are apart, the next attempt is in the
window of the last one, and an attempt under way started when it was due. -/
structure Waits (p : Policy) (clock : Time) (j : Job) : Prop where
  spaced : j.errors.IsChain fun e e' => p.earliest e ≤ e'.time
  window : ∀ e ∈ j.errors.getLast?, Open j →
    (p.earliest e : WithTop Time) ≤ j.scheduledAt ∧ j.scheduledAt ≤ (p.latest e : WithTop Time)
  finite : j.errors ≠ [] → j.scheduledAt ≠ ⊤
  started : j.state = .running → ∃ t ∈ j.startedAt, j.scheduledAt ≤ (t : WithTop Time) ∧ t ≤ clock

section
variable {p : Policy} {clock now : Time} {j : Job}

theorem Waits.later (h : Waits p clock j) (hle : clock ≤ now) : Waits p now j := by
  refine ⟨h.spaced, h.window, h.finite, fun hrun => ?_⟩
  obtain ⟨t, ht, hdue, hclock⟩ := h.started hrun
  exact ⟨t, ht, hdue, Int.le_trans hclock hle⟩

/-- A row that nothing has gone wrong with. -/
theorem waits_unfailed (herrors : j.errors = []) (hstate : j.state ≠ .running) : Waits p clock j := by
  refine ⟨?_, fun e he => ?_, fun hne => absurd herrors hne, fun hrun => absurd hrun hstate⟩
  · rw [herrors]
    exact .nil
  · rw [herrors] at he
    cases he

/-- Nothing is asked of a row that is through but what its failures say. -/
theorem Waits.closed (h : Waits p clock j) {k : Job} (herrors : k.errors = j.errors)
    (hsched : k.scheduledAt = j.scheduledAt) (hstate : ¬ Open k) : Waits p clock k := by
  refine ⟨herrors ▸ h.spaced, fun e he hopen => absurd hopen hstate, fun hne => ?_,
    fun hrun => absurd (.inr hrun) hstate⟩
  rw [hsched]
  exact h.finite (herrors ▸ hne)

theorem Waits.lease (h : Waits p clock j) {queues : List String} (hdue : j.Due queues now) (worker : Uuid)
    (lease : Time) : Waits p now (j.lease worker lease now) :=
  ⟨h.spaced, fun e he _ => h.window e he (.inl hdue.1), h.finite, fun _ => ⟨now, rfl, hdue.2.2, Int.le_refl _⟩⟩

theorem Waits.release (h : Waits p clock j) (hrun : j.state = .running) : Waits p clock j.release :=
  ⟨h.spaced, fun e he _ => h.window e he (.inr hrun), h.finite, fun hstate => by cases hstate⟩

/-- **A failure comes no sooner after the last one than the policy says.** -/
theorem Waits.fails (h : Waits p clock j) (hrun : j.state = .running) (hle : clock ≤ now) (error : String) :
    (j.errors ++ [AttemptError.mk j.attempt now error]).IsChain (fun e e' => p.earliest e ≤ e'.time) ∧
      j.scheduledAt ≠ ⊤ := by
  obtain ⟨t, -, hdue, hclock⟩ := h.started hrun
  refine ⟨List.isChain_append.mpr ⟨h.spaced, .singleton _, fun e he e' he' => ?_⟩, fun htop => ?_⟩
  · cases he'
    have hlast : (p.earliest e : WithTop Time) ≤ (t : WithTop Time) := (h.window e he (.inr hrun)).1.trans hdue
    exact Int.le_trans (WithTop.coe_le_coe.mp hlast) (Int.le_trans hclock hle)
  · rw [htop] at hdue
    exact WithTop.coe_ne_top (top_le_iff.mp hdue)

theorem Waits.discard (h : Waits p clock j) (hrun : j.state = .running) (hle : clock ≤ now) (error : String) :
    Waits p now (j.discard error now) := by
  obtain ⟨hspaced, hfinite⟩ := h.fails hrun hle error
  refine ⟨hspaced, fun e he hopen => ?_, fun _ => hfinite, fun hstate => by cases hstate⟩
  rcases hopen with hstate | hstate <;> cases hstate

theorem Waits.reschedule (h : Waits p clock j) (hrun : j.state = .running) (hle : clock ≤ now) (error : String)
    {delay : Nat} (hlow : backoff p.base p.cap j.attempt / 2 ≤ delay)
    (hhigh : delay ≤ backoff p.base p.cap j.attempt) : Waits p now (j.reschedule delay error now) := by
  obtain ⟨hspaced, -⟩ := h.fails hrun hle error
  refine ⟨hspaced, fun e he _ => ?_, fun _ => WithTop.coe_ne_top, fun hstate => by cases hstate⟩
  have hlast : (j.errors ++ [AttemptError.mk j.attempt now error]).getLast? = some e := he
  rw [List.getLast?_concat] at hlast
  cases hlast
  refine ⟨WithTop.coe_le_coe.mpr ?_, WithTop.coe_le_coe.mpr ?_⟩
  · exact Int.add_le_add_left (Int.ofNat_le.mpr hlow) now
  · exact Int.add_le_add_left (Int.ofNat_le.mpr hhigh) now

/-- Parents are counted off rows that no attempt has been made at. -/
theorem Waits.unblock (h : Waits p clock j) (n : Nat) (hstate : j.state ≠ .running)
    (herrors : j.state = .available → j.errors = []) : Waits p clock (j.unblock n now) := by
  refine ⟨h.spaced, fun e he hopen => ?_, fun hne => ?_, fun hrun => absurd hrun hstate⟩
  · rcases hopen with hwaiting | hrun
    · have hnone : (j.unblock n now).errors = [] := herrors hwaiting
      rw [hnone] at he
      cases he
    · exact absurd hrun hstate
  · unfold Job.unblock
    dsimp only
    split
    · exact WithTop.coe_ne_top
    · exact h.finite hne
end

/-! ## Every statement -/

section
variable {p : Policy} {clock : Time} {db : Db} {j : Job}

theorem waits_leaseRow (h : Waits p clock j) {a : Fetch} {chosen : List Job} (hj : j ∈ db.jobs)
    (hchosen : ∀ k ∈ chosen, k ∈ db.jobs ∧ k.Due a.queues a.now) (hle : clock ≤ a.now) :
    Waits p a.now (leaseRow a (chosen.map Job.id) j) := by
  unfold leaseRow
  split
  · next hmem =>
    obtain ⟨k, hk, hid⟩ := List.mem_map.mp hmem
    obtain ⟨hk, hdue⟩ := hchosen k hk
    cases db.eq_of_id hk hj hid
    exact h.lease hdue a.worker a.lease
  · exact h.later hle

theorem waits_retryRow (h : Waits p clock j) {a : Retry} (hbase : a.base = p.base) (hcap : a.cap = p.cap)
    (hrandom : ∀ id, a.random id ≤ 1000000) (hle : clock ≤ a.now) : Waits p a.now (retryRow a j) := by
  unfold retryRow
  split
  · next error hentry =>
    have hrun := (heldBy_of_batchEntry hentry).2
    split
    · have hwindow := jitter_window (backoff a.base a.cap j.attempt) (hrandom j.id)
      rw [hbase, hcap] at hwindow ⊢
      exact h.reschedule hrun hle error hwindow.1 hwindow.2
    · exact h.discard hrun hle error
  · exact h.later hle

theorem waits_discardRow (h : Waits p clock j) (t : Tables) (batch : List (JobId × String)) (worker : Uuid)
    {now : Time} (hle : clock ≤ now) : Waits p now (t.discardRow batch worker now j) := by
  unfold Tables.discardRow
  split
  · next error hentry => exact h.discard (heldBy_of_batchEntry hentry).2 hle error
  · split
    · exact (h.later hle).closed rfl rfl fun hopen => by rcases hopen with hstate | hstate <;> cases hstate
    · exact h.later hle

theorem waits_cancelRow (h : Waits p clock j) (ids : List JobId) {now : Time} (hle : clock ≤ now) :
    Waits p now (cancelRow ids now j) := by
  unfold cancelRow
  split
  · exact (h.later hle).closed rfl rfl fun hopen => by rcases hopen with hstate | hstate <;> cases hstate
  · exact h.later hle

theorem waits_reclaimRow (h : Waits p clock j) (expired : List Expired) {now : Time} (hle : clock ≤ now) :
    Waits p now (reclaimRow expired now j) := by
  unfold reclaimRow
  split
  · split
    · next hrun =>
      split
      · exact h.discard hrun hle _
      · exact (h.later hle).release hrun
    · exact h.later hle
  · exact h.later hle

theorem waits_expireRow (h : Waits p clock j) (ids : List JobId) (worker : Uuid) (time : Time) {now : Time}
    (hle : clock ≤ now) : Waits p now (expireRow ids worker time j) := by
  have hlater := h.later hle
  unfold expireRow
  split
  · exact ⟨hlater.spaced, hlater.window, hlater.finite, hlater.started⟩
  · exact hlater

/-- A row update keeps it. -/
theorem waits_rowMap (h : Waits p clock j) {s : Stmt} (hj : j ∈ db.jobs) (hkept : p.Kept s)
    (hclock : ∀ t ∈ time? s, clock ≤ t) : Waits p ((time? s).getD clock) (s.rowMap db.toTables j) := by
  cases s with
  | fetchUnkeyed a =>
    refine waits_leaseRow h hj (fun k hk => ?_) (hclock a.now rfl)
    exact ⟨(mem_lockedUnkeyed hk).1, (mem_lockedUnkeyed hk).2.1⟩
  | fetchKeyed a =>
    refine waits_leaseRow h hj (fun k hk => ?_) (hclock a.now rfl)
    exact ⟨(mem_jobs_of_admitted hk).1, (mem_jobs_of_admitted hk).2.1⟩
  | retryMany a => exact waits_retryRow h hkept.1 hkept.2.1 hkept.2.2 (hclock a.now rfl)
  | discardMany batch worker now => exact waits_discardRow h _ batch worker (hclock now rfl)
  | cancel ids now => exact waits_cancelRow h ids (hclock now rfl)
  | reclaim limit visit now => exact waits_reclaimRow h _ (hclock now rfl)
  | renew ids worker lease now => exact waits_expireRow h ids worker _ (hclock now rfl)
  | abandon ids worker now => exact waits_expireRow h ids worker _ (hclock now rfl)
  | retryDiscarded ids queue now => exact hkept.elim
  | upsertCron a => exact h
  | purgeDiscarded queue => exact h
  | pruneWorkflows => exact h
  | _ => exact h.later (hclock _ rfl)

/-- `COMPLETE` finishes rows, and lets those start that wait for a parent. -/
theorem waits_completeRow (hsound : Sound db.toTables) {batch : List (JobId × Option Bytes)} {worker : Uuid}
    {now : Time} (hj : j ∈ db.jobs) (h : Waits p clock j)
    (hpositive : 0 ≤ (db.toTables.completeRow batch worker now j).pendingDeps) :
    Waits p clock (db.toTables.completeRow batch worker now j) := by
  have hrow := hsound j hj
  unfold Tables.completeRow at hpositive ⊢
  split
  · exact h.closed rfl rfl fun hopen => by rcases hopen with hstate | hstate <;> cases hstate
  · next hentry =>
    rw [hentry] at hpositive
    dsimp only at hpositive ⊢
    split
    · exact h
    · next hcounted =>
      rw [if_neg hcounted] at hpositive
      have hpending : 0 < j.pendingDeps := by
        simp only [Job.unblock] at hpositive
        omega
      refine h.unblock _ (fun hrun => ?_) fun hwaiting => ?_
      · rw [hrow.started (.inl hrun)] at hpending
        exact absurd hpending (Int.lt_irrefl _)
      · by_contra hne
        exact h.finite hne ((hrow.parked hwaiting).mpr hpending)

/-- **A statement keeps it.** -/
theorem waits_exec {s : Stmt} (hsound : Sound db.toTables) (h : ∀ j ∈ db.jobs, Waits p clock j)
    (hkept : p.Kept s) (hclock : ∀ t ∈ time? s, clock ≤ t) :
    ∀ k ∈ (db.exec s).jobs, Waits p ((time? s).getD clock) k := by
  have hle : clock ≤ (time? s).getD clock := by
    cases htime : time? s with
    | none => exact Int.le_refl _
    | some t => exact hclock t htime
  have hvalid := (db.exec s).valid .pendingDepsPositive
  rcases db.exec_form s with hsame | hform
  · rw [hsame]
    exact fun k hk => (h k hk).later hle
  · generalize (db.exec s).toTables = t' at hform hvalid
    intro k hk
    cases hform with
    | rows step =>
      obtain ⟨j, hj, rfl⟩ := List.mem_map.mp hk
      exact waits_rowMap (h j hj) hj hkept hclock
    | complete batch worker now hs =>
      obtain ⟨j, hj, rfl⟩ := List.mem_map.mp hk
      exact (waits_completeRow hsound hj (h j hj) (hvalid _ hk)).later hle
    | insert rows es new jobs edges =>
      rw [jobs] at hk
      rcases List.mem_append.mp hk with hold | hrow
      · exact (h k hold).later hle
      · exact waits_unfailed (new.errors k hrow) fun hrun => by cases hrun.symm.trans (new.state k hrow)
    | delete deletes jobs edges => exact (h k (jobs.mem hk)).later hle
end

/-! ## Whole runs -/

theorem db_run (l : Timeline) (ss : List Stmt) : (run Timeline.exec l ss).db = run Db.exec l.db ss := by
  induction ss generalizing l with
  | nil => rfl
  | cons s ss ih => exact ih (l.exec s)

theorem waits_run (p : Policy) (start : Time) {ss : List Stmt}
    (hss : Along Timeline.exec p.Allows ⟨.empty, start⟩ ss) :
    ∃ clock, ∀ j ∈ (Db.after ss).jobs, Waits p clock j := by
  have hrun := Along.inv (I := fun l : Timeline => Sound l.db.toTables ∧ ∀ j ∈ l.db.jobs, Waits p l.clock j)
    (fun l s hl hs => ⟨sound_exec l.db s hl.1, waits_exec hl.1 hl.2 hs.2 hs.1⟩) ss
    ⟨fun j hj => absurd hj List.not_mem_nil, fun j hj => absurd hj List.not_mem_nil⟩ hss
  refine ⟨(run Timeline.exec ⟨.empty, start⟩ ss).clock, fun j hj => hrun.2 j ?_⟩
  rw [db_run]
  exact hj

/-- **Retries keep their distance.** In every run in which the clock does not go back,
failures are retried under one policy and no dead letter is retried by hand: between
two recorded failures of a job lies at least half the backoff of the first, an attempt
under way did not start sooner than that after the last one, and a job that waits is
due between a half and the whole of it. -/
theorem retries_keep_distance (p : Policy) (start : Time) {ss : List Stmt}
    (hss : Along Timeline.exec p.Allows ⟨.empty, start⟩ ss) {j : Job} (hj : j ∈ (Db.after ss).jobs) :
    (j.errors.IsChain fun e e' => p.earliest e ≤ e'.time) ∧
    ∀ e ∈ j.errors.getLast?,
      (j.state = .available → (p.earliest e : WithTop Time) ≤ j.scheduledAt ∧
        j.scheduledAt ≤ (p.latest e : WithTop Time)) ∧
      (j.state = .running → ∃ t ∈ j.startedAt, p.earliest e ≤ t) := by
  obtain ⟨clock, hwaits⟩ := waits_run p start hss
  have hrow := hwaits j hj
  refine ⟨hrow.spaced, fun e he => ⟨fun hwaiting => hrow.window e he (.inl hwaiting), fun hrun => ?_⟩⟩
  obtain ⟨t, ht, hdue, -⟩ := hrow.started hrun
  exact ⟨t, ht, WithTop.coe_le_coe.mp ((hrow.window e he (.inr hrun)).1.trans hdue)⟩

/-- A job fails, its second attempt is lost with the lease, and its third fails. -/
def failsTwice : List Stmt :=
  [.enqueue { task := "t" } 0,
    .fetchUnkeyed { queues := ["default"], limit := 1, worker := 7, lease := 100, now := 0 },
    .retryMany { batch := [(1, "e")], worker := 7, base := 40, cap := 1000, random := fun _ => 0, now := 10 },
    .fetchUnkeyed { queues := ["default"], limit := 1, worker := 7, lease := 100, now := 30 },
    .reclaim 10 [1] 131,
    .fetchUnkeyed { queues := ["default"], limit := 1, worker := 8, lease := 100, now := 140 },
    .retryMany { batch := [(1, "f")], worker := 8, base := 40, cap := 1000, random := fun _ => 0, now := 150 }]

theorem allows_failsTwice : Along Timeline.exec (Policy.Allows ⟨40, 1000⟩) ⟨.empty, 0⟩ failsTwice :=
  ⟨Policy.allows_at rfl (by decide) trivial, Policy.allows_at rfl (by decide) trivial,
    Policy.allows_at rfl (by decide) ⟨rfl, rfl, fun _ => Nat.zero_le _⟩, Policy.allows_at rfl (by decide) trivial,
    Policy.allows_at rfl (by decide) trivial, Policy.allows_at rfl (by decide) trivial,
    Policy.allows_at rfl (by decide) ⟨rfl, rfl, fun _ => Nat.zero_le _⟩, trivial⟩

theorem retries_keep_distance_lapsed : ∃ j ∈ (Db.after failsTwice).jobs,
    j.errors = [⟨1, 10, "e"⟩, ⟨3, 150, "f"⟩] ∧
    j.errors.IsChain fun e e' => Policy.earliest ⟨40, 1000⟩ e ≤ e'.time := by
  have hfound : ∃ j ∈ (Db.after failsTwice).jobs, j.errors = [⟨1, 10, "e"⟩, ⟨3, 150, "f"⟩] := by decide
  obtain ⟨j, hj, herrors⟩ := hfound
  exact ⟨j, hj, herrors, (retries_keep_distance ⟨40, 1000⟩ 0 allows_failsTwice hj).1⟩

end Gylo.Store.Backoff
