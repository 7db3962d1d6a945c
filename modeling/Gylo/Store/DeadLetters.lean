import Mathlib.Data.List.Induction
import Mathlib.Data.List.Pairwise
import Gylo.Store.Leasing
import Gylo.Store.Reports

/-! # Dead letters

What is left of a job that failed for good, and what an operator can do with it.
Four statements end an attempt: `RETRY_MANY` and `DISCARD_MANY` append an entry
to `errors`, and so does the `exhausted` half of `RECLAIM`, but its `released`
half returns the job to the queue and notes nothing. `RETRY_DISCARDED` requeues a
whole selection in one `UPDATE`, which the index on live unique keys accepts or
refuses as a whole. -/
namespace Gylo.Store.DeadLetters

open Gylo.Store Gylo.Store.Reclaim Runs

/-! ## Histories -/

/-- The attempt numbers in the `errors` array. -/
def entries (j : Job) : List Int := j.errors.map AttemptError.attempt

/-- `1, .., n`. -/
def upTo (n : Int) : List Int := (List.range n.toNat).map fun i : Nat => (i : Int) + 1

/-- How many attempts of a job have ended without success. -/
def ended (j : Job) : Int :=
  if j.state = .running ∨ j.state = .completed then j.attempt - 1 else j.attempt

theorem mem_upTo {g n : Int} : g ∈ upTo n ↔ 1 ≤ g ∧ g ≤ n := by
  simp only [upTo, List.mem_map, List.mem_range]
  constructor
  · intro h
    obtain ⟨i, hi, rfl⟩ := h
    omega
  · intro h
    exact ⟨(g - 1).toNat, by omega, by omega⟩

theorem upTo_succ {n : Int} (h : 0 ≤ n) : upTo (n + 1) = upTo n ++ [n + 1] := by
  have hnat : (n + 1).toNat = n.toNat + 1 := by omega
  simp [upTo, hnat, List.range_succ, h]

/-- What a step does to the history of a row; `lost` says that an attempt ends
unnoted. -/
inductive Follows (lost : Prop) (j k : Job) : Prop
  | same (hnot : ¬ lost) (hended : ended k = ended j) (hentries : entries k = entries j)
  | noted (hnot : ¬ lost) (hended : ended k = ended j + 1)
      (hentries : entries k = entries j ++ [ended j + 1])
  | dropped (hlost : lost) (hended : ended k = ended j + 1) (hentries : entries k = entries j)

/-- A history as long as nothing was lost (`kept`), and after: some attempt that
ended has no entry. -/
structure Told (kept : Prop) (j : Job) : Prop where
  nonneg : 0 ≤ ended j
  whole : kept → entries j = upTo (ended j)
  gap : ¬ kept → ∃ g, 1 ≤ g ∧ g ≤ ended j ∧ g ∉ entries j

theorem Told.follows {kept lost : Prop} {j k : Job} (h : Told kept j) (hf : Follows lost j k) :
    Told (kept ∧ ¬ lost) k := by
  have hnonneg := h.nonneg
  cases hf with
  | same hnot hended hentries =>
    have hiff : (kept ∧ ¬ lost) ↔ kept := and_iff_left hnot
    rw [hiff]
    exact ⟨hended ▸ hnonneg, fun hk => hentries ▸ hended ▸ h.whole hk, fun hk => hentries ▸ hended ▸ h.gap hk⟩
  | noted hnot hended hentries =>
    have hiff : (kept ∧ ¬ lost) ↔ kept := and_iff_left hnot
    rw [hiff]
    refine ⟨by omega, fun hk => ?_, fun hk => ?_⟩
    · rw [hentries, hended, upTo_succ hnonneg, h.whole hk]
    · obtain ⟨g, hone, hle, hout⟩ := h.gap hk
      refine ⟨g, hone, by omega, ?_⟩
      rw [hentries, List.mem_append, List.mem_singleton]
      exact fun hmem => hmem.elim hout (by omega)
  | dropped hlost hended hentries =>
    refine ⟨by omega, fun hk => absurd hlost hk.2, fun _ => ?_⟩
    by_cases hk : kept
    · refine ⟨ended j + 1, by omega, by omega, ?_⟩
      rw [hentries, h.whole hk, mem_upTo]
      omega
    · obtain ⟨g, hone, hle, hout⟩ := h.gap hk
      exact ⟨g, hone, by omega, hentries ▸ hout⟩

/-! ## What each update does to a history -/

section
variable {j : Job}

theorem follows_refl : Follows False j j := .same id rfl rfl

theorem follows_lease (worker : Uuid) (lease now : Time) (h : j.state = .available) :
    Follows False j (j.lease worker lease now) :=
  .same id (by simp [ended, Job.lease, h]) rfl

theorem follows_reschedule (delay : Nat) (error : String) (now : Time) (h : j.state = .running) :
    Follows False j (j.reschedule delay error now) :=
  .noted id (by simp [ended, Job.reschedule, h]) (by simp [entries, ended, Job.reschedule, h])

theorem follows_discard (error : String) (now : Time) (h : j.state = .running) :
    Follows False j (j.discard error now) :=
  .noted id (by simp [ended, Job.discard, h]) (by simp [entries, ended, Job.discard, h])

theorem follows_release (h : j.state = .running) : Follows True j j.release :=
  .dropped trivial (by simp [ended, Job.release, h]) rfl

theorem follows_cancel (now : Time) (h : j.state = .available) : Follows False j (j.cancel now) :=
  .same id (by simp [ended, Job.cancel, h]) rfl

theorem follows_cascade (now : Time) (h : j.state = .available) : Follows False j (j.cascade now) :=
  .same id (by simp [ended, Job.cascade, h]) rfl

theorem follows_complete {k : Job} (h : CompleteStep j k) : Follows False j k := by
  cases h with
  | refl => exact follows_refl
  | complete result now running => exact .same id (by simp [ended, Job.complete, running]) rfl
  | unblock n now => exact .same id rfl rfl
end

theorem follows_leaseRow (db : Db) (a : Fetch) {chosen : List Job}
    (hsub : ∀ j ∈ chosen, j ∈ db.jobs ∧ j.Due a.queues a.now) {j : Job} (hj : j ∈ db.jobs) :
    Follows False j (leaseRow a (chosen.map Job.id) j) := by
  unfold leaseRow
  split
  · next hmem =>
    obtain ⟨k, hk, hid⟩ := List.mem_map.mp hmem
    cases db.eq_of_id (hsub k hk).1 hj hid
    exact follows_lease a.worker a.lease a.now (hsub j hk).2.1
  · exact follows_refl

theorem follows_retryRow (a : Retry) (j : Job) : Follows False j (retryRow a j) := by
  unfold retryRow
  split
  · next error h =>
    split
    · exact follows_reschedule _ error a.now (heldBy_of_batchEntry h).2
    · exact follows_discard error a.now (heldBy_of_batchEntry h).2
  · exact follows_refl

theorem follows_discardRow (t : Tables) (batch : List (JobId × String)) (worker : Uuid) (now : Time)
    (j : Job) : Follows False j (t.discardRow batch worker now j) := by
  unfold Tables.discardRow
  split
  · next error h => exact follows_discard error now (heldBy_of_batchEntry h).2
  · split
    · next h => exact follows_cascade now h.2
    · exact follows_refl

theorem follows_cancelRow (ids : List JobId) (now : Time) (j : Job) :
    Follows False j (cancelRow ids now j) := by
  unfold cancelRow
  split
  · next h => exact follows_cancel now h.2
  · exact follows_refl

theorem follows_expireRow (ids : List JobId) (worker : Uuid) (time : Time) (j : Job) :
    Follows False j (expireRow ids worker time j) := by
  unfold expireRow
  split
  · exact .same id rfl rfl
  · exact follows_refl

/-! ## What a reclaim does to a history -/

/-- The rows behind the `expired` CTE. -/
def reached (t : Tables) (limit : Int) (visit : List JobId) (now : Time) : List Job :=
  ((t.scan visit).filter fun j => j.LeaseExpired now).take limit.toNat

theorem mem_reached {t : Tables} {limit : Int} {visit : List JobId} {now : Time} {j : Job}
    (h : j ∈ reached t limit visit now) : j ∈ t.jobs ∧ j.LeaseExpired now := by
  obtain ⟨hscan, hexp⟩ := List.mem_filter.mp (List.mem_of_mem_take h)
  exact ⟨mem_scan hscan, of_decide_eq_true hexp⟩

theorem find_expired (db : Db) (limit : Int) (visit : List JobId) (now : Time) {j : Job} (hj : j ∈ db.jobs) :
    (db.expired limit visit now).find? (fun e => e.id = j.id) =
      if j ∈ reached db.toTables limit visit now then
        some ⟨j.id, j.queue, j.maxAttempts ≤ j.attempt⟩
      else none := by
  have hexp : db.expired limit visit now =
      (reached db.toTables limit visit now).map fun j => ⟨j.id, j.queue, j.maxAttempts ≤ j.attempt⟩ := rfl
  rw [hexp, List.find?_map]
  split
  · next hmem =>
    cases h : (reached db.toTables limit visit now).find? fun k => k.id = j.id with
    | none =>
      have hne := List.find?_eq_none.mp h j hmem
      simp at hne
    | some k =>
      have hk := (mem_reached (List.mem_of_find?_eq_some h)).1
      cases db.eq_of_id hk hj (by simpa using List.find?_some h)
      exact congrArg (Option.map _) h
  · next hout =>
    rw [Option.map_eq_none_iff, List.find?_eq_none]
    intro k hk hid
    exact hout (db.eq_of_id (mem_reached hk).1 hj (by simpa using hid) ▸ hk)

/-- The `released` half of a reclaim takes the row: its attempt is over and not
noted. -/
def Freed (expired : List Expired) (j : Job) : Prop :=
  j.state = .running ∧ ∃ e ∈ expired.find? fun e => e.id = j.id, e.exhausted = false

instance (expired : List Expired) (j : Job) : Decidable (Freed expired j) :=
  inferInstanceAs (Decidable (_ ∧ _))

/-- In the atomic statement it takes the rows it reaches that have an attempt left. -/
theorem freed_iff (db : Db) (limit : Int) (visit : List JobId) (now : Time) {j : Job} (hj : j ∈ db.jobs) :
    Freed (db.expired limit visit now) j ↔
      j ∈ reached db.toTables limit visit now ∧ j.attempt < j.maxAttempts := by
  unfold Freed
  rw [find_expired db limit visit now hj]
  split
  · next hmem => simp [hmem, (mem_reached hmem).2.1]
  · next hout => simp [hout]

/-- The three things a reclaim can do with a row. -/
theorem reclaimRow_cases (expired : List Expired) (now : Time) (j : Job) :
    (¬ Freed expired j ∧ reclaimRow expired now j = j) ∨
      (Freed expired j ∧ reclaimRow expired now j = j.release) ∨
      (¬ Freed expired j ∧ j.state = .running ∧
        ∃ error, reclaimRow expired now j = j.discard error now) := by
  unfold Freed reclaimRow
  cases expired.find? fun e => e.id = j.id with
  | none => exact .inl ⟨by simp, rfl⟩
  | some e =>
    dsimp only
    by_cases hrun : j.state = .running
    · cases hex : e.exhausted with
      | true => exact .inr (.inr ⟨by simp [hex], hrun, _, by rw [if_pos hrun]; rfl⟩)
      | false => exact .inr (.inl ⟨⟨hrun, e, rfl, hex⟩, by rw [if_pos hrun]; rfl⟩)
    · exact .inl ⟨fun h => hrun h.1, if_neg hrun⟩

theorem follows_reclaimRow (expired : List Expired) (now : Time) (j : Job) :
    Follows (Freed expired j) j (reclaimRow expired now j) := by
  rcases reclaimRow_cases expired now j with ⟨hnot, hrow⟩ | ⟨hfreed, hrow⟩ | ⟨hnot, hrun, error, hrow⟩
  · rw [hrow]
    exact .same hnot rfl rfl
  · rw [hrow, eq_true hfreed]
    exact follows_release hfreed.1
  · rw [hrow, eq_false hnot]
    exact follows_discard error now hrun

/-- A reclaim is never refused. -/
theorem attempt_reclaimFrom (db : Db) (expired : List Expired) (now : Time) :
    (db.attempt (db.reclaimFrom expired now)).toTables = db.reclaimFrom expired now := by
  have hcases := reclaimRow_cases expired now
  have hok : ∀ c, (db.reclaimFrom expired now).Satisfies c := by
    refine db.satisfies_settle (fun j => ?_) (fun j => ?_) (fun j => ?_) (fun j hj => ?_)
      (fun j hj => ?_)
    all_goals
      rcases hcases j with ⟨-, hrow⟩ | ⟨hfreed, hrow⟩ | ⟨-, hrun, error, hrow⟩
      all_goals rw [hrow]
    · exact .refl j
    · constructor <;> rfl
    · constructor <;> rfl
    all_goals try rfl
    · exact db.valid .leasePaired j hj
    · exact id
    · exact fun _ => .inr hfreed.1
    · exact fun _ => .inr hrun
  rw [Db.attempt, commit_eq_ok hok]

theorem exec_reclaim (db : Db) (limit : Int) (visit : List JobId) (now : Time) :
    (db.exec (.reclaim limit visit now)).toTables = db.reclaim limit visit now := by
  by_cases hlim : limit < 0
  · have hnone : db.expired limit visit now = [] := by
      have hzero : limit.toNat = 0 := by omega
      simp [Tables.expired, hzero]
    have hid : reclaimRow [] now = id := rfl
    have hexec : db.exec (.reclaim limit visit now) = db := by
      simp [Db.exec, Db.run, Stmt.effect, limited, hlim, bind, Except.bind]
    simp [hexec, Tables.reclaim, hnone, Tables.reclaimFrom, Tables.mapJobs, hid]
  · have hexec : db.exec (.reclaim limit visit now) = db.attempt (db.reclaim limit visit now) := by
      simp only [Db.exec, Db.run, Stmt.effect, limited, if_neg hlim]
      rfl
    rw [hexec, Tables.reclaim, attempt_reclaimFrom]

/-! ## Runs -/

/-- An operator's retry. -/
def OperatorRetry : Leasing.Act → Prop
  | .stmt (.retryDiscarded ..) => True
  | _ => False

/-- The act returns the job to the queue with an attempt that nothing records:
a reclaim reaches its expired lease with an attempt left, or updates it on the
word of an earlier snapshot that found one left. -/
def Forgets (id : JobId) (r : Race) : Leasing.Act → Prop
  | .stmt (.reclaim limit visit now) =>
    ∃ j ∈ reached r.db.toTables limit visit now, j.id = id ∧ j.attempt < j.maxAttempts
  | .update i => ∃ p ∈ r.passes[i]?, ∃ j ∈ r.db.jobs, j.id = id ∧ Freed p.expired j
  | _ => False

theorem Forgets.present {id : JobId} {r : Race} {a : Leasing.Act} (h : Forgets id r a) :
    id ≤ r.db.jobSeq := by
  have hle : ∀ {j : Job}, j ∈ r.db.jobs → j.id ≤ r.db.jobSeq := fun hj =>
    (r.db.valid .identity).1 _ (List.mem_map_of_mem hj)
  cases a with
  | stmt s =>
    cases s with
    | reclaim limit visit now =>
      obtain ⟨j, hj, rfl, -⟩ := h
      exact hle (mem_reached hj).1
    | _ => exact h.elim
  | update i =>
    obtain ⟨p, -, j, hj, rfl, -⟩ := h
    exact hle hj
  | keyed a snapshot => exact h.elim
  | snapshot limit visit now => exact h.elim

/-- What the rows of a database came from: each follows an old one, or is new. -/
def Continues (lost : JobId → Prop) (db db' : Db) : Prop :=
  db.jobSeq ≤ db'.jobSeq ∧ ∀ k ∈ db'.jobs,
    (∃ j ∈ db.jobs, j.id = k.id ∧ Follows (lost k.id) j k) ∨
      (¬ lost k.id ∧ db.jobSeq < k.id ∧ ended k = 0 ∧ entries k = [])

theorem Continues.refl (db : Db) : Continues (fun _ => False) db db :=
  ⟨le_refl _, fun k hk => .inl ⟨k, hk, rfl, follows_refl⟩⟩

theorem Continues.rows {db db' : Db} {f : Job → Job} {lost : JobId → Prop}
    (h : db'.toTables = db.toTables.mapJobs f)
    (hf : ∀ j ∈ db.jobs, (f j).id = j.id ∧ Follows (lost j.id) j (f j)) : Continues lost db db' := by
  refine ⟨by rw [h]; exact le_refl _, fun k hk => ?_⟩
  rw [h] at hk
  obtain ⟨j, hj, rfl⟩ := List.mem_map.mp hk
  obtain ⟨hid, hrow⟩ := hf j hj
  exact .inl ⟨j, hj, hid.symm, hid ▸ hrow⟩

/-- A reclaim and an operator's retry apart, no row update loses an attempt. -/
theorem follows_rowMap (db : Db) {s : Stmt} (hop : ¬ OperatorRetry (.stmt s))
    (hreclaim : ∀ limit visit now, s ≠ .reclaim limit visit now) {j : Job} (hj : j ∈ db.jobs) :
    Follows False j (s.rowMap db.toTables j) := by
  cases s with
  | fetchUnkeyed a =>
    refine follows_leaseRow db a (fun k hk => ?_) hj
    obtain ⟨hkdb, hdue, -⟩ := mem_lockedUnkeyed hk
    exact ⟨hkdb, hdue⟩
  | fetchKeyed a =>
    refine follows_leaseRow db a (fun k hk => ?_) hj
    obtain ⟨hkdb, hdue, -⟩ := mem_jobs_of_admitted hk
    exact ⟨hkdb, hdue⟩
  | retryMany a => exact follows_retryRow a j
  | discardMany batch worker now => exact follows_discardRow db.toTables batch worker now j
  | cancel ids now => exact follows_cancelRow ids now j
  | reclaim limit visit now => exact absurd rfl (hreclaim limit visit now)
  | renew ids worker lease now => exact follows_expireRow ids worker _ j
  | abandon ids worker now => exact follows_expireRow ids worker _ j
  | retryDiscarded ids queue now => exact absurd trivial hop
  | _ => exact follows_refl

theorem continues_exec (db : Db) {s : Stmt} (hop : ¬ OperatorRetry (.stmt s))
    (hreclaim : ∀ limit visit now, s ≠ .reclaim limit visit now) :
    Continues (fun _ => False) db (db.exec s) := by
  have hseq := db.jobSeq_le_exec s
  rcases db.exec_form s with hsame | hform
  · rw [hsame]; exact .refl db
  generalize hdb : db.exec s = db' at hform hseq ⊢
  generalize ht : db'.toTables = t' at hform
  cases hform with
  | rows hstep =>
    exact .rows ht fun j hj => ⟨(hstep j hj).same.id, follows_rowMap db hop hreclaim hj⟩
  | complete batch worker now hs =>
    refine .rows ht fun j _ => ?_
    have hstep := completeRow_step batch worker now db.toTables j
    exact ⟨hstep.same.id, follows_complete hstep⟩
  | insert rows es new jobs edges =>
    refine ⟨hseq, fun k hk => ?_⟩
    rw [ht, jobs] at hk
    rcases List.mem_append.mp hk with hold | hrow
    · exact .inl ⟨k, hold, rfl, follows_refl⟩
    · exact .inr ⟨id, new.ids k hrow, by simp [ended, new.state k hrow, new.attempt k hrow],
        by simp [entries, new.errors k hrow]⟩
  | delete deletes jobs edges =>
    refine ⟨hseq, fun k hk => .inl ⟨k, ?_, rfl, follows_refl⟩⟩
    rw [ht] at hk
    exact jobs.mem hk

theorem continues_reclaim (r : Race) (limit : Int) (visit : List JobId) (now : Time) :
    Continues (fun id => Forgets id r (.stmt (.reclaim limit visit now))) r.db
      (r.db.exec (.reclaim limit visit now)) := by
  refine .rows (exec_reclaim r.db limit visit now) fun j hj => ⟨reclaimRow_id _ _ j, ?_⟩
  have hlost : Forgets j.id r (.stmt (.reclaim limit visit now)) ↔
      Freed (r.db.expired limit visit now) j := by
    rw [freed_iff r.db limit visit now hj]
    refine ⟨fun h => ?_, fun h => ⟨j, h.1, rfl, h.2⟩⟩
    obtain ⟨k, hk, hsame, hleft⟩ := h
    cases r.db.eq_of_id (mem_reached hk).1 hj hsame
    exact ⟨hk, hleft⟩
  rw [hlost]
  exact follows_reclaimRow _ now j

theorem continues_update (r : Race) (i : Nat) :
    Continues (fun id => Forgets id r (.update i)) r.db (Leasing.step r (.update i)).db := by
  simp only [Leasing.step, Reclaim.step]
  cases hp : r.passes[i]? with
  | none =>
    have hnone : (fun id => Forgets id r (.update i)) = fun _ => False := by
      funext id
      simp [Forgets, hp]
    rw [hnone]
    exact .refl r.db
  | some p =>
    refine .rows (attempt_reclaimFrom r.db p.expired p.now) fun j hj => ⟨reclaimRow_id _ _ j, ?_⟩
    have hlost : Forgets j.id r (.update i) ↔ Freed p.expired j := by
      simp only [Forgets, hp]
      refine ⟨fun h => ?_, fun h => ⟨p, rfl, j, hj, rfl, h⟩⟩
      obtain ⟨q, hq, k, hk, hsame, hfreed⟩ := h
      cases hq
      exact r.db.eq_of_id hk hj hsame ▸ hfreed
    rw [hlost]
    exact follows_reclaimRow p.expired p.now j

/-- One act of the race, for every row. -/
theorem continues_step (r : Race) (a : Leasing.Act) (hop : ¬ OperatorRetry a) :
    Continues (fun id => Forgets id r a) r.db (Leasing.step r a).db := by
  cases a with
  | stmt s =>
    by_cases hreclaim : ∃ limit visit now, s = .reclaim limit visit now
    · obtain ⟨limit, visit, now, rfl⟩ := hreclaim
      exact continues_reclaim r limit visit now
    · have hne : ∀ limit visit now, s ≠ .reclaim limit visit now :=
        fun limit visit now h => hreclaim ⟨limit, visit, now, h⟩
      have hnone : (fun id => Forgets id r (.stmt s)) = fun _ => False := by
        funext id
        cases s with
        | reclaim limit visit now => exact absurd rfl (hne limit visit now)
        | _ => rfl
      rw [hnone]
      exact continues_exec r.db hop hne
  | keyed a snapshot =>
    show Continues (fun _ => False) _ _
    simp only [Leasing.step]
    split
    · exact .refl r.db
    rcases r.db.attempt_cases (r.db.fetchKeyedFrom a snapshot) with hsame | hrows
    · rw [hsame]; exact .refl r.db
    · refine .rows hrows fun j hj => ⟨(leaseRow_same a _ j).id, follows_leaseRow r.db a (fun k hk => ?_) hj⟩
      obtain ⟨hkdb, hdue, -⟩ := mem_jobs_of_admitted hk
      exact ⟨hkdb, hdue⟩
  | snapshot limit visit now =>
    show Continues (fun _ => False) _ _
    simp only [Leasing.step, Reclaim.step]
    split <;> exact .refl r.db
  | update i => exact continues_update r i

/-- A run tells the history of one job: whole as long as nothing of it is
forgotten. -/
theorem told_run (id : JobId) (as : List Leasing.Act) (hop : ∀ a ∈ as, ¬ OperatorRetry a) :
    let kept := Along Leasing.step (fun r a => ¬ Forgets id r a) ⟨Db.empty, []⟩ as
    let r := run Leasing.step ⟨Db.empty, []⟩ as
    (¬ kept → id ≤ r.db.jobSeq) ∧ ∀ j ∈ r.db.jobs, j.id = id → Told kept j := by
  -- from the last act back: what it does to the row decides whether the history stays whole
  induction as using List.reverseRecOn with
  | nil => exact ⟨fun h => absurd trivial h, fun j hj => absurd hj List.not_mem_nil⟩
  | append_singleton as a ih =>
    obtain ⟨hseq, htold⟩ := ih fun b hb => hop b (List.mem_append_left _ hb)
    obtain ⟨hle, hrows⟩ := continues_step (run Leasing.step ⟨Db.empty, []⟩ as) a
      (hop a (List.mem_append_right _ List.mem_cons_self))
    simp only [along_append, run_concat, Along, and_true]
    generalize run Leasing.step ⟨Db.empty, []⟩ as = r at hseq htold hle hrows ⊢
    generalize Along Leasing.step (fun r a => ¬ Forgets id r a) ⟨Db.empty, []⟩ as = kept at hseq htold ⊢
    refine ⟨fun hlost => ?_, fun k hk hid => ?_⟩
    · by_cases hkept : kept
      · have hforgets : Forgets id r a := by
          by_contra hnot
          exact hlost ⟨hkept, hnot⟩
        exact (Forgets.present hforgets).trans hle
      · exact (hseq hkept).trans hle
    · rcases hrows k hk with hold | hnew
      · obtain ⟨j, hj, hsame, hfollows⟩ := hold
        rw [hid] at hsame hfollows
        exact (htold j hj hsame).follows hfollows
      · obtain ⟨hnot, hfresh, hended, hentries⟩ := hnew
        rw [hid] at hnot hfresh
        -- an id handed out now was not there to be forgotten before
        have hkept : kept := by
          by_contra hkept
          exact absurd (hseq hkept) (not_le.mpr hfresh)
        refine ⟨le_of_eq hended.symm, fun _ => ?_, fun h => absurd ⟨hkept, hnot⟩ h⟩
        rw [hentries, hended]
        rfl

/-- **One entry for each attempt.** After any run without an operator's retry, with
reclaims that race and fetches that counted on old snapshots, the `errors` of a
discarded job number its attempts `1, .., attempt` exactly if no reclaim of the run
returned the job to the queue. -/
theorem errors_complete_iff (as : List Leasing.Act) (hop : ∀ a ∈ as, ¬ OperatorRetry a) {j : Job}
    (hj : j ∈ (run Leasing.step ⟨Db.empty, []⟩ as).db.jobs) (hdead : j.state = .discarded) :
    entries j = upTo j.attempt ↔
      Along Leasing.step (fun r a => ¬ Forgets j.id r a) ⟨Db.empty, []⟩ as := by
  have htold := (told_run j.id as hop).2 j hj rfl
  have hended : ended j = j.attempt := by simp [ended, hdead]
  constructor
  · intro hwhole
    by_contra hlost
    obtain ⟨g, hone, hle, hout⟩ := htold.gap hlost
    rw [hwhole, mem_upTo] at hout
    exact hout ⟨hone, hended ▸ hle⟩
  · intro hkept
    rw [htold.whole hkept, hended]

/-- Two attempts of one job, the first ended by a report. -/
def reported : List Leasing.Act :=
  [.stmt (.enqueue { task := "charge", maxAttempts := 2 } 0),
    .stmt (.fetchUnkeyed ⟨["default"], 1, 7, 10, 0, []⟩),
    .stmt (.retryMany ⟨[(1, "timeout")], 7, 0, 0, fun _ => 0, 5⟩),
    .stmt (.fetchUnkeyed ⟨["default"], 1, 7, 10, 11, []⟩),
    .stmt (.discardMany [(1, "refused")] 7 12)]

theorem errors_complete_iff_reported :
    ∃ j ∈ (run Leasing.step ⟨Db.empty, []⟩ reported).db.jobs, j.state = .discarded ∧
      entries j = upTo j.attempt := by
  have hop : ∀ a ∈ reported, ¬ OperatorRetry a := by simp [reported, OperatorRetry]
  have hdead : ∃ j ∈ (run Leasing.step ⟨Db.empty, []⟩ reported).db.jobs, j.state = .discarded := by
    decide
  obtain ⟨j, hj, hdead⟩ := hdead
  have hkept : Along Leasing.step (fun r a => ¬ Forgets j.id r a) ⟨Db.empty, []⟩ reported :=
    ⟨id, id, id, id, id, trivial⟩
  exact ⟨j, hj, hdead, (errors_complete_iff reported hop hj hdead).mpr hkept⟩

/-- The same, with a worker that crashes in the first attempt. -/
def crashed : List Leasing.Act :=
  [.stmt (.enqueue { task := "charge", maxAttempts := 2 } 0),
    .stmt (.fetchUnkeyed ⟨["default"], 1, 7, 10, 0, []⟩),
    .stmt (.reclaim 100 [1] 11),
    .stmt (.fetchUnkeyed ⟨["default"], 1, 7, 10, 11, []⟩),
    .stmt (.discardMany [(1, "refused")] 7 12)]

/-- The dead letter says nothing about the attempt that was lost. -/
theorem crash_unrecorded :
    ∃ j ∈ (run Leasing.step ⟨Db.empty, []⟩ crashed).db.jobs, j.state = .discarded ∧
      j.attempt = 2 ∧ entries j = [2] := by
  decide

/-! ## An operator's retry -/

section
variable (db : Db) (ids : Option (List JobId)) (queue : Option String) (now : Time)

/-- The `WHERE` clause of `RETRY_DISCARDED`. -/
def Selected (j : Job) : Prop :=
  j.state = .discarded ∧ Matches ids (fun l => j.id ∈ l) ∧ Matches queue (fun q => j.queue = q)

instance (j : Job) : Decidable (Selected ids queue j) := inferInstanceAs (Decidable (_ ∧ _ ∧ _))

/-- The job's unique key is null, or no live job and no other selected job
carries it. -/
def KeyFree (j : Job) : Prop :=
  ∀ key ∈ j.uniqueKey, ∀ k ∈ db.jobs, k.Live ∨ Selected ids queue k ∧ k.id ≠ j.id →
    k.uniqueKey ≠ some key

instance (j : Job) : Decidable (KeyFree db ids queue j) :=
  inferInstanceAs (Decidable (∀ key ∈ j.uniqueKey, ∀ k ∈ db.jobs, _))

/-- The retry goes through, and requeues every selected job whose key is free. -/
def RetriesEach : Prop :=
  ∃ db', db.run (.retryDiscarded ids queue now) = .ok db' ∧
    ∀ j ∈ db.jobs, Selected ids queue j → KeyFree db ids queue j → j.requeue now ∈ db'.jobs

variable {db ids queue now}

theorem requeueRow_selected {j : Job} (h : Selected ids queue j) :
    requeueRow ids queue now j = j.requeue now := if_pos h

theorem requeueRow_other {j : Job} (h : ¬ Selected ids queue j) :
    requeueRow ids queue now j = j := if_neg h

theorem requeueRow_live (j : Job) :
    (requeueRow ids queue now j).Live ↔ j.Live ∨ Selected ids queue j := by
  by_cases h : Selected ids queue j
  · rw [requeueRow_selected h]
    exact ⟨fun _ => .inr h, fun _ => .inl rfl⟩
  · rw [requeueRow_other h, or_iff_left h]

theorem requeueRow_same (j : Job) : SameJob j (requeueRow ids queue now j) :=
  (requeueRow_step (P := fun _ => False) ids queue now j).same

variable (db ids queue now)

/-- The keys that are live after a retry: those of the live jobs and of the selected. -/
theorem liveKeys_retryDiscarded : (db.retryDiscarded ids queue now).liveKeys =
    (db.jobs.filter fun j => j.Live ∨ Selected ids queue j).filterMap Job.uniqueKey := by
  simp only [Tables.liveKeys, Tables.retryDiscarded, Tables.mapJobs, List.filter_map,
    List.filterMap_map, Function.comp_def, requeueRow_live, (requeueRow_same _).uniqueKey]

/-- The index accepts the retry exactly if every selected key is free. -/
theorem unique_retryDiscarded_iff : (db.retryDiscarded ids queue now).liveKeys.Nodup ↔
    ∀ j ∈ db.jobs, Selected ids queue j → KeyFree db ids queue j := by
  have hlive := (keys_nodup_iff db Job.Live).mp (db.valid .jobUnique)
  rw [liveKeys_retryDiscarded, keys_nodup_iff db fun j => j.Live ∨ Selected ids queue j]
  constructor
  · intro h j hj hsel key hkey k hk hcarries
    have hne : j ≠ k := by
      intro hsame
      subst hsame
      rcases hcarries with hl | ⟨-, hid⟩
      · exact absurd hl (by simp [Job.Live, hsel.1])
      · exact hid rfl
    exact h j hj (.inr hsel) k hk (hcarries.imp_right And.left) hne key hkey
  · intro h j hj hp k hk hq hne key hkey hsame
    have hid : k.id ≠ j.id := fun hid => hne (db.eq_of_id hj hk hid.symm)
    rcases hp with hjlive | hjsel
    · rcases hq with hklive | hksel
      · exact hlive j hj hjlive k hk hklive hne key hkey hsame
      · exact h k hk hksel key hsame j hj (.inl hjlive) hkey
    · exact h j hj hjsel key hkey k hk (hq.imp_right fun hksel => ⟨hksel, hid⟩) hsame

theorem run_retryDiscarded_iff : (∃ db', db.run (.retryDiscarded ids queue now) = .ok db') ↔
    ∀ j ∈ db.jobs, Selected ids queue j → 0 ≤ j.maxAttempts ∧ KeyFree db ids queue j := by
  have hsame : ∀ j, SameJob j (requeueRow ids queue now j) := requeueRow_same
  refine Iff.trans commit_isOk_iff ⟨fun h j hj hsel => ?_, fun h => ?_⟩
  · have hrow := h .attemptBounds _ (List.mem_map_of_mem hj)
    rw [requeueRow_selected hsel] at hrow
    exact ⟨hrow, (unique_retryDiscarded_iff db ids queue now).mp (h .jobUnique) j hj hsel⟩
  · refine db.satisfies_update hsame (fun j hj => ?_) (fun j hj => ?_) (fun j hj => ?_)
      ((unique_retryDiscarded_iff db ids queue now).mpr fun j hj hsel => (h j hj hsel).2)
    all_goals by_cases hsel : Selected ids queue j
    · rw [requeueRow_selected hsel]
      exact ⟨(h j hj hsel).1, by simp [Job.requeue, InSmallint]⟩
    · rw [requeueRow_other hsel]
      exact ⟨db.valid .attemptBounds j hj, (db.valid .smallintRange j hj).2.1⟩
    · rw [requeueRow_selected hsel]; rfl
    · rw [requeueRow_other hsel]; exact db.valid .leasePaired j hj
    · rw [requeueRow_selected hsel]
      exact ⟨db.valid .pendingDepsPositive j hj, (db.valid .intRange j hj).1⟩
    · rw [requeueRow_other hsel]
      exact ⟨db.valid .pendingDepsPositive j hj, (db.valid .intRange j hj).1⟩

/-- **A retry stands or falls with its worst key.** On every database and for every
selection, `RETRY_DISCARDED` goes through and requeues each selected job whose
unique key is free exactly if every selected key is free (and every limit on
attempts admits the reset to zero). -/
theorem retries_each_iff : RetriesEach db ids queue now ↔
    ∀ j ∈ db.jobs, Selected ids queue j → 0 ≤ j.maxAttempts ∧ KeyFree db ids queue j := by
  rw [← run_retryDiscarded_iff db ids queue now]
  constructor
  · intro h
    obtain ⟨db', hrun, -⟩ := h
    exact ⟨db', hrun⟩
  · intro h
    obtain ⟨db', hrun⟩ := h
    refine ⟨db', hrun, fun j hj hsel _ => ?_⟩
    have heffect : db.retryDiscarded ids queue now = db'.toTables := Except.ok.inj (Db.run_ok hrun)
    rw [← heffect, ← requeueRow_selected hsel]
    exact List.mem_map_of_mem hj

end

/-- A job with a unique key dies, the key is used again, and a job without a key
dies too. -/
def keyTaken : Db := Db.after
  [.insertUnique { task := "report" } [7] 0,
    .enqueue { task := "mail" } 0,
    .fetchUnkeyed ⟨["default"], 2, 1, 30, 0, []⟩,
    .discardMany [(1, "refused"), (2, "refused")] 1 5,
    .insertUnique { task := "report" } [7] 6]

/-- The mail, which nothing stands in the way of, is not requeued. -/
theorem mail_not_retried :
    (∃ j ∈ keyTaken.jobs, j.id = 2 ∧ Selected none none j ∧ KeyFree keyTaken none none j) ∧
      keyTaken.run (.retryDiscarded none none 10) = .error (.violates .jobUnique) ∧
      ¬ RetriesEach keyTaken none none 10 := by
  have hrun : keyTaken.run (.retryDiscarded none none 10) = .error (.violates .jobUnique) := rfl
  refine ⟨by decide, hrun, fun h => ?_⟩
  obtain ⟨db', hok, -⟩ := h
  rw [hrun] at hok
  cases hok

end Gylo.Store.DeadLetters
