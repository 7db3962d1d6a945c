import Gylo.Lib.Listing
import Gylo.Store.Effects

/-! # Admission against a key's limit

A keyed pass is a transaction: it takes the advisory lock, `FETCH_KEYED` counts
the running jobs of each key on a snapshot taken under the lock, and its update
then acts on whatever the other statements have committed by then. The lock is
held to the commit, so one pass at a time is between those points; everything
else may commit in between. -/
namespace Gylo.Store.Admission

open Gylo.Store Runs Listing

/-! ## Passes under the lock -/

/-- A keyed pass that holds the lock, and its snapshot once it has one. -/
structure Pass where
  args : Fetch
  snapshot : Option Tables := none

structure State where
  db : Db
  holder : Option Pass := none

inductive Act where
  | lock (a : Fetch)
  | count
  | update (skip : List JobId)
  | rollback
  | stmt (s : Stmt)

/-- `FETCH_KEYED` is issued by a keyed pass and by nothing else. -/
def isKeyedFetch : Stmt → Bool
  | .fetchKeyed _ => true
  | _ => false

def step (st : State) : Act → State
  | .lock a =>
    match st.holder with
    | none => { st with holder := some ⟨a, none⟩ }
    | some _ => st
  | .count =>
    match st.holder with
    | some ⟨a, none⟩ => { st with holder := some ⟨a, some st.db.toTables⟩ }
    | _ => st
  | .update skip =>
    match st.holder with
    | some ⟨a, some snapshot⟩ =>
      ⟨st.db.attempt (st.db.fetchKeyedFrom { a with skip := skip } snapshot), none⟩
    | _ => st
  | .rollback => { st with holder := none }
  | .stmt s => if isKeyedFetch s then st else { st with db := st.db.exec s }

/-- An undisturbed pass is the atomic statement. -/
theorem pass_alone (db : Db) (a : Fetch) (h : 0 ≤ a.limit) :
    run step ⟨db, none⟩ [.lock a, .count, .update a.skip] = ⟨db.exec (.fetchKeyed a), none⟩ := by
  have hlim : ¬ a.limit < 0 := by omega
  have hrun : db.run (.fetchKeyed a) = commit (db.fetchKeyedFrom a db.toTables) := by
    simp only [Db.run, Stmt.effect, limited, if_neg hlim]
    rfl
  simp only [run_cons, run_nil, step, Db.exec, hrun]
  rfl

/-! ## Running jobs of a key -/

/-- The running jobs that carry key `k`. -/
def running (t : Tables) (k : String) : List Job :=
  t.jobs.filter fun j => j.state = .running ∧ j.concurrencyKey = some k

/-- `max_concurrency`, which a keyed job always has. -/
def limitOf (j : Job) : Int := j.maxConcurrency.getD 0

/-- Some running jobs of key `k`, told apart by their limit. -/
def Holds (k : String) (q : Int → Prop) (j : Job) : Prop :=
  j.state = .running ∧ j.concurrencyKey = some k ∧ q (limitOf j)

instance (k : String) (q : Int → Prop) [DecidablePred q] : DecidablePred (Holds k q) :=
  fun _ => inferInstanceAs (Decidable (_ ∧ _ ∧ _))

theorem countP_running (t : Tables) (k : String) (q : Int → Prop) [DecidablePred q] :
    (running t k).countP (fun j => q (limitOf j)) = t.jobs.countP (Holds k q) := by
  rw [running, List.countP_filter]
  refine List.countP_congr fun j _ => ?_
  rw [Bool.and_eq_true, decide_eq_true_iff, decide_eq_true_iff, decide_eq_true_iff]
  exact ⟨fun h => ⟨h.2.1, h.2.2, h.1⟩, fun h => ⟨h.2.2, h.1, h.2.1⟩⟩

theorem length_running (t : Tables) (k : String) :
    (running t k).length = t.jobs.countP (Holds k fun _ => True) := by
  rw [running, ← List.countP_eq_length_filter]
  exact List.countP_congr fun j _ => by simp [Holds]

/-- A statement other than `FETCH_KEYED` puts no keyed job into `running`. -/
theorem holds_of_rowStep {s : Stmt} (hs : isKeyedFetch s = false) {k : String} {q : Int → Prop}
    {j j' : Job} (h : RowStep s.Leases j j') (hj : Holds k q j') : Holds k q j := by
  obtain ⟨hrun, hkey, hq⟩ := hj
  have hkeys : j.concurrencyKey = some k := h.same.concurrencyKey ▸ hkey
  have hlim : q (limitOf j) := by
    unfold limitOf at hq ⊢
    exact h.same.maxConcurrency ▸ hq
  cases h with
  | lease worker lease now due pick =>
    cases s with
    | fetchUnkeyed a => cases hkeys.symm.trans pick
    | fetchKeyed a => cases hs
    | _ => exact pick.elim
  | refl => exact ⟨hrun, hkeys, hlim⟩
  | expireAt time running => exact ⟨running, hkeys, hlim⟩
  | reschedule delay error now running left => cases hrun
  | release running left => cases hrun
  | discard error now running => cases hrun
  | cancel now waiting => cases hrun
  | cascade now waiting => cases hrun
  | requeue now dead => cases hrun

theorem holds_of_completeStep {k : String} {q : Int → Prop} {j j' : Job} (h : CompleteStep j j')
    (hj : Holds k q j') : Holds k q j := by
  cases h with
  | refl => exact hj
  | complete result now running => cases hj.1
  | unblock n now => exact hj

theorem countP_map_le {f : Job → Job} {p : Job → Prop} [DecidablePred p] {l : List Job}
    (h : ∀ j ∈ l, p (f j) → p j) : (l.map f).countP p ≤ l.countP p := by
  rw [List.countP_map]
  exact List.countP_mono_left fun j hj hp => decide_eq_true (h j hj (of_decide_eq_true hp))

theorem holds_exec_le (db : Db) {s : Stmt} (hs : isKeyedFetch s = false) (k : String)
    (q : Int → Prop) [DecidablePred q] :
    (db.exec s).jobs.countP (Holds k q) ≤ db.jobs.countP (Holds k q) := by
  rcases db.exec_form s with hsame | hform
  · rw [hsame]
  · generalize (db.exec s).toTables = t' at hform
    cases hform with
    | rows step => exact countP_map_le fun j hj => holds_of_rowStep hs (step j hj)
    | complete batch worker now stmt =>
      exact countP_map_le fun j _ => holds_of_completeStep (completeRow_step batch worker now _ j)
    | insert rows es new jobs edges =>
      have hnone : rows.countP (Holds k q) = 0 := by
        refine List.countP_eq_zero.mpr fun j hj hh => ?_
        have hrun := (of_decide_eq_true hh).1
        rw [new.state j hj] at hrun
        cases hrun
      rw [jobs, List.countP_append, hnone, Nat.add_zero]
    | delete deletes jobs edges => exact jobs.countP_le

/-! ## What a keyed pass adds -/

section
variable {db : Db} {a : Fetch} {snapshot : Tables} {k : String}

theorem mem_admitted {j : Job} (h : j ∈ db.admitted a snapshot) :
    j ∈ db.jobs ∧ j ∈ db.lockedKeyed a snapshot ∧ 0 < limitOf j ∧
      ((snapshot.already j + rowNumber (db.lockedKeyed a snapshot) j : Nat) : Int) ≤ limitOf j := by
  obtain ⟨hlock, hadm⟩ := List.mem_filter.mp h
  obtain ⟨m, hm, hle⟩ := of_decide_eq_true hadm
  have hdb := (mem_lockedKeyed hlock).1
  have hlim : limitOf j = m := by rw [limitOf, Option.mem_def.mp hm]; rfl
  exact ⟨hdb, hlock, hlim ▸ db.valid .concurrencyPositive j hdb m hm, hlim ▸ hle⟩

/-- Of a key's admitted jobs with a limit of at most `c`, there is room for all
beside the jobs the snapshot counted. -/
theorem admitted_le {c : Nat} (hsome : ∃ j ∈ db.admitted a snapshot,
      j.concurrencyKey = some k ∧ limitOf j ≤ c) :
    snapshot.active k + (db.admitted a snapshot).countP
      (fun j => j.concurrencyKey = some k ∧ limitOf j ≤ c) ≤ c := by
  have halready : ∀ j : Job, j.concurrencyKey = some k → snapshot.already j = snapshot.active k := by
    intro j hj
    rw [Tables.already, hj]
  have hroom : ∀ j ∈ db.admitted a snapshot, j.concurrencyKey = some k ∧ limitOf j ≤ c →
      snapshot.active k + rowNumber (db.lockedKeyed a snapshot) j ≤ c := by
    intro j hj hk
    obtain ⟨-, -, -, hle⟩ := mem_admitted hj
    rw [halready j hk.1] at hle
    omega
  have hactive : snapshot.active k ≤ c := by
    obtain ⟨j, hj, hk⟩ := hsome
    exact le_trans (Nat.le_add_right _ _) (hroom j hj hk)
  -- the rank of each one counts all that come no later, so their number is at most the last rank
  have hcount : (db.admitted a snapshot).countP
      (fun j => j.concurrencyKey = some k ∧ limitOf j ≤ c) ≤ c - snapshot.active k := by
    refine countP_le_of_rank Job.fetchKey fun x hx hk => ?_
    have hrank : (db.admitted a snapshot).countP (fun y =>
        (y.concurrencyKey = some k ∧ limitOf y ≤ c) ∧ y.fetchKey ≤ x.fetchKey) ≤
        rowNumber (db.lockedKeyed a snapshot) x := by
      rw [rowNumber, ← List.countP_eq_length_filter]
      refine le_trans (List.filter_sublist (p := _)).countP_le (List.countP_mono_left fun y _ hy => ?_)
      have hy := of_decide_eq_true hy
      exact decide_eq_true ⟨hy.1.1.trans hk.1.symm, hy.2⟩
    have := hroom x hx hk
    omega
  omega

/-- The keyed rows a pass adds to the running ones are the admitted ones. -/
theorem holds_leaseRow_le (q : Int → Prop) [DecidablePred q] :
    (db.jobs.map (leaseRow a ((db.admitted a snapshot).map Job.id))).countP (Holds k q) ≤
      db.jobs.countP (Holds k q) + (db.admitted a snapshot).countP
        (fun j => j.concurrencyKey = some k ∧ q (limitOf j)) := by
  have hsplit : ∀ l : List Job, (∀ j ∈ l, j ∈ db.jobs) →
      (l.map (leaseRow a ((db.admitted a snapshot).map Job.id))).countP (Holds k q) ≤
        l.countP (Holds k q) + l.countP (fun j => j ∈ db.admitted a snapshot ∧
          j.concurrencyKey = some k ∧ q (limitOf j)) := by
    intro l hl
    induction l with
    | nil => exact le_refl _
    | cons j l ih =>
      have ih := ih fun x hx => hl x (List.mem_cons_of_mem _ hx)
      have hrow : Holds k q (leaseRow a ((db.admitted a snapshot).map Job.id) j) →
          Holds k q j ∨ j ∈ db.admitted a snapshot ∧ j.concurrencyKey = some k ∧ q (limitOf j) := by
        unfold leaseRow
        split
        · next hmem =>
          obtain ⟨x, hx, hid⟩ := List.mem_map.mp hmem
          cases db.eq_of_id (mem_admitted hx).1 (hl j List.mem_cons_self) hid
          exact fun hh => .inr ⟨hx, hh.2⟩
        · exact .inl
      simp only [List.map_cons, List.countP_cons, decide_eq_true_eq]
      split_ifs <;> first | omega | tauto
  refine (hsplit db.jobs fun _ h => h).trans (Nat.add_le_add_left ?_ _)
  rw [List.countP_eq_length_filter, List.countP_eq_length_filter]
  refine List.Subperm.length_le (List.subperm_of_subset ?_ fun j hj => ?_)
  · exact (List.Nodup.of_map _ db.ids_nodup).filter _
  · have hj := (List.mem_filter.mp hj).2
    simp only [decide_eq_true_eq] at hj
    exact List.mem_filter.mpr ⟨hj.1, decide_eq_true hj.2⟩
end

/-! ## The invariant -/

/-- Each key's running jobs are within their limits, and the pass that holds
the lock has counted no fewer than are running now. -/
structure Admits (st : State) : Prop where
  within : ∀ k, Within limitOf (running st.db.toTables k)
  counted : ∀ p ∈ st.holder, ∀ snapshot ∈ p.snapshot, ∀ k,
    (running st.db.toTables k).length ≤ snapshot.active k

theorem Admits.stmt {st : State} (h : Admits st) {s : Stmt} (hs : isKeyedFetch s = false) :
    Admits { st with db := st.db.exec s } := by
  constructor
  · intro k c
    rw [countP_running (q := fun m => m ≤ c)]
    refine (holds_exec_le st.db hs k _).trans ?_
    rw [← countP_running]
    exact h.within k c
  · intro p hp snapshot hsnap k
    rw [length_running]
    refine (holds_exec_le st.db hs k _).trans ?_
    rw [← length_running]
    exact h.counted p hp snapshot hsnap k

theorem within_update {db : Db} {a : Fetch} {snapshot : Tables}
    (h : ∀ k, Within limitOf (running db.toTables k))
    (hcount : ∀ k, (running db.toTables k).length ≤ snapshot.active k) (k : String) :
    Within limitOf (running (db.fetchKeyedFrom a snapshot) k) := by
  intro c
  rw [countP_running (q := fun m => m ≤ c)]
  refine (holds_leaseRow_le fun m => m ≤ c).trans ?_
  by_cases hsome : ∃ j ∈ db.admitted a snapshot, j.concurrencyKey = some k ∧ limitOf j ≤ c
  · have hroom := admitted_le hsome
    have hrunning : db.jobs.countP (Holds k fun m => m ≤ c) ≤ snapshot.active k := by
      rw [← countP_running]
      exact List.countP_le_length.trans (hcount k)
    omega
  · have hnone : (db.admitted a snapshot).countP
        (fun j => j.concurrencyKey = some k ∧ limitOf j ≤ c) = 0 :=
      List.countP_eq_zero.mpr fun j hj hh => hsome ⟨j, hj, of_decide_eq_true hh⟩
    rw [hnone, Nat.add_zero, ← countP_running]
    exact h k c

theorem admits_step (st : State) (act : Act) (h : Admits st) : Admits (step st act) := by
  cases act with
  | lock a =>
    simp only [step]
    split
    · exact ⟨h.within, fun p hp snapshot hsnap => by cases hp; cases hsnap⟩
    · exact h
  | count =>
    simp only [step]
    split
    · refine ⟨h.within, fun p hp snapshot hsnap k => ?_⟩
      cases hp
      cases hsnap
      exact le_refl _
    · exact h
  | update skip =>
    simp only [step]
    split
    · next a snapshot hholder =>
      refine ⟨fun k => ?_, nofun⟩
      have hcount := h.counted _ hholder snapshot rfl
      rcases st.db.attempt_cases (st.db.fetchKeyedFrom { a with skip := skip } snapshot) with
        hsame | hrows
      · dsimp only
        rw [hsame]
        exact h.within k
      · dsimp only
        rw [hrows]
        exact within_update h.within hcount k
    · exact h
  | rollback => exact ⟨h.within, nofun⟩
  | stmt s =>
    simp only [step]
    split
    · exact h
    · next hs => exact h.stmt (by simpa using hs)

/-- **The limit of a key.** Whatever commits around the keyed passes, the
running jobs of a key can be listed so that the `i`-th allows at least `i`; so
they are no more than the largest limit among them, and no more than `m` if
every job of the key allows `m`. -/
theorem keyed_admission_limit (as : List Act) (k : String) :
    (∃ l : List Job, l.Perm (running (run step ⟨Db.empty, none⟩ as).db.toTables k) ∧
      ∀ i : Fin l.length, ∃ m ∈ (l.get i).maxConcurrency, (i : Int) + 1 ≤ m) ∧
    (∀ j ∈ running (run step ⟨Db.empty, none⟩ as).db.toTables k,
      ∃ x ∈ running (run step ⟨Db.empty, none⟩ as).db.toTables k, ∃ m ∈ x.maxConcurrency,
        ((running (run step ⟨Db.empty, none⟩ as).db.toTables k).length : Int) ≤ m) ∧
    ∀ m : Nat, (∀ j ∈ (run step ⟨Db.empty, none⟩ as).db.jobs, j.concurrencyKey = some k →
        j.maxConcurrency = some (m : Int)) →
      (running (run step ⟨Db.empty, none⟩ as).db.toTables k).length ≤ m := by
  have hinv : Admits (run step ⟨Db.empty, none⟩ as) := by
    refine run_inv admits_step as ⟨fun k c => ?_, nofun⟩
    rw [show running Db.empty.toTables k = [] from rfl]
    exact Nat.zero_le c
  generalize run step ⟨Db.empty, none⟩ as = st at hinv
  have hwithin := hinv.within k
  have hget : ∀ {x : Job} {n : Int}, 0 < n → n ≤ limitOf x → ∃ m ∈ x.maxConcurrency, n ≤ m := by
    intro x n hn hle
    unfold limitOf at hle
    cases hx : x.maxConcurrency with
    | none => rw [hx] at hle; exact absurd (lt_of_lt_of_le hn hle) (lt_irrefl 0)
    | some m => rw [hx] at hle; exact ⟨m, rfl, hle⟩
  obtain ⟨l, hperm, hlist⟩ := hwithin.exists_listing
  refine ⟨⟨l, hperm, fun i => hget (by omega) (hlist i)⟩, ?_, ?_⟩
  · -- the last of the listing allows as many as there are
    intro j hj
    have hpos : 0 < l.length := List.length_pos_of_mem (hperm.mem_iff.mpr hj)
    have hlast := hlist ⟨l.length - 1, by omega⟩
    refine ⟨l.get ⟨l.length - 1, by omega⟩, hperm.mem_iff.mp (List.get_mem _ _), ?_⟩
    rw [← hperm.length_eq]
    exact hget (by omega) (by simp only at hlast; omega)
  · intro m hm
    refine hwithin.length_le fun j hj => ?_
    obtain ⟨hdb, hj⟩ := List.mem_filter.mp hj
    rw [limitOf, hm j hdb (of_decide_eq_true hj).2]
    exact le_refl _

end Gylo.Store.Admission
