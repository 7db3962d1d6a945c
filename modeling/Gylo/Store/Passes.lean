import Gylo.Lib.Taking
import Gylo.Store.FetchCall

/-! # The two passes of a fetch

`fetch` leases the unkeyed jobs first and then, if any keyed job is waiting, some
of those. The call is alone here: nothing fails, and nobody else holds a lock.
`fetch_rewrites` says which rows it leases, in terms of sorted lists of what waits,
and `singlePass` is the pass in the order of priorities it stands in for. -/
namespace Gylo.Store.Passes

open Gylo.Store Gylo.Store.FetchCall

/-! ## What waits -/

/-- The key of a job has fewer running jobs than the job tolerates. -/
def Room (db : Db) (j : Job) : Prop := ∃ m ∈ j.maxConcurrency, (db.already j : Int) < m

instance (db : Db) (j : Job) : Decidable (Room db j) := inferInstanceAs (Decidable (∃ m ∈ _, _))

section
variable (queues : List String) (now : Time) (db : Db)

/-- The due unkeyed jobs, in fetch order. -/
def unkeyed : List Job :=
  (db.jobs.filter fun j => j.Due queues now ∧ j.concurrencyKey = none).insertionSort Job.FetchLE

/-- The due keyed jobs with room on their key, in fetch order. -/
def keyed : List Job :=
  (db.jobs.filter fun j => j.Due queues now ∧ j.concurrencyKey ≠ none ∧ Room db j).insertionSort
    Job.FetchLE

/-- Both together. -/
def eligible : List Job :=
  (db.jobs.filter fun j => j.Due queues now ∧ (j.concurrencyKey = none ∨ Room db j)).insertionSort
    Job.FetchLE
end

section
variable {queues : List String} {now : Time} {db : Db} {j : Job}

theorem mem_unkeyed : j ∈ unkeyed queues now db ↔
    j ∈ db.jobs ∧ j.Due queues now ∧ j.concurrencyKey = none := by
  simp [unkeyed, List.mem_insertionSort]

theorem mem_keyed : j ∈ keyed queues now db ↔
    j ∈ db.jobs ∧ j.Due queues now ∧ j.concurrencyKey ≠ none ∧ Room db j := by
  simp [keyed, List.mem_insertionSort]

theorem mem_eligible : j ∈ eligible queues now db ↔
    j ∈ db.jobs ∧ j.Due queues now ∧ (j.concurrencyKey = none ∨ Room db j) := by
  simp [eligible, List.mem_insertionSort]
end

theorem pairwise_fetchLE (l : List Job) : (l.insertionSort Job.FetchLE).Pairwise Job.FetchLE :=
  have : Std.Total Job.FetchLE := ⟨fun j k => le_total j.fetchKey k.fetchKey⟩
  have : IsTrans Job Job.FetchLE := ⟨fun _ _ _ => le_trans⟩
  List.pairwise_insertionSort Job.FetchLE l

theorem filter_sorted (db : Db) (p q : Job → Bool) :
    ((db.jobs.filter q).insertionSort Job.FetchLE).filter p =
      (db.jobs.filter fun j => p j && q j).insertionSort Job.FetchLE := by
  have hinj : ∀ j ∈ db.jobs.filter q, ∀ k ∈ db.jobs.filter q, j.fetchKey = k.fetchKey → j = k := by
    intro j hj k hk hkey
    have hid : (ofLex (ofLex j.fetchKey).2).2 = (ofLex (ofLex k.fetchKey).2).2 := by rw [hkey]
    exact db.eq_of_id (List.mem_filter.mp hj).1 (List.mem_filter.mp hk).1 hid
  rw [← List.filter_filter]
  exact Taking.filter_insertionSort Job.fetchKey p hinj

theorem db_nodup (db : Db) : db.jobs.Nodup := List.Nodup.of_map _ db.ids_nodup

theorem sorted_nodup (db : Db) (q : Job → Bool) : ((db.jobs.filter q).insertionSort Job.FetchLE).Nodup :=
  (List.perm_insertionSort _ _).nodup_iff.mpr ((db_nodup db).filter q)

section
variable (queues : List String) (now : Time) (db : Db)

theorem unkeyed_eq : unkeyed queues now db =
    (eligible queues now db).filter fun j => j.concurrencyKey = none := by
  rw [eligible, filter_sorted, unkeyed]
  congr 2
  funext j
  rw [← Bool.decide_and, decide_eq_decide]
  tauto

theorem keyed_eq : keyed queues now db =
    (eligible queues now db).filter fun j => !decide (j.concurrencyKey = none) := by
  rw [eligible, filter_sorted, keyed]
  congr 2
  funext j
  rw [← decide_not, ← Bool.decide_and, decide_eq_decide]
  tauto
end

/-! ## What one pass would lease -/

/-- The key of a job has room for it and for those of its key before it in the
batch. -/
def Fits (db : Db) (batch : List Job) (j : Job) : Prop :=
  j.concurrencyKey = none ∨
    ∃ m ∈ j.maxConcurrency, ((db.already j + rowNumber batch j : Nat) : Int) ≤ m

instance (db : Db) (batch : List Job) (j : Job) : Decidable (Fits db batch j) :=
  inferInstanceAs (Decidable (_ ∨ _))

section
variable (c : Call) (now : Time) (db : Db)

/-- The first `limit` of all that waits. -/
def batch : List Job := (eligible c.queues now db).take c.limit.toNat

/-- `FETCH_KEYED` with the unkeyed jobs let in: one pass in the order of
priorities. -/
def singlePass : List Job := (batch c now db).filter fun j => Fits db (batch c now db) j

/-- What the pass leases; like every lease it takes all its rows or none. -/
def leasedBySingle : List Job := if Spare (singlePass c now db) then singlePass c now db else []

/-- What `FETCH_UNKEYED` takes. -/
def unkeyedBatch : List Job := (unkeyed c.queues now db).take c.limit.toNat

/-- What `FETCH_KEYED` considers `later`: the limit less what the first pass took,
and at least one. -/
def keyedBatch (later : Time) : List Job :=
  (keyed c.queues later db).take (max (c.limit - (unkeyedBatch c now db).length) 1).toNat

/-- What `FETCH_KEYED` admits. -/
def keyedAdmitted (later : Time) : List Job :=
  (keyedBatch c now db later).filter fun j => Fits db (keyedBatch c now db later) j
end

/-! ## What the two passes lease -/

/-- Nothing of the call fails, no row is locked by others, and the clock does not
go back between its statements. -/
structure Alone (w : World) : Prop where
  skip : w.skip = []
  skipKeyed : w.skipKeyed = []
  failUnkeyed : w.failUnkeyed = false
  failWaiting : w.failWaiting = false
  failBegin : w.failBegin = false
  failLock : w.failLock = false
  failKeyed : w.failKeyed = false
  commit : w.commit = .ok
  clock : w.now ≤ w.nowWaiting ∧ w.now ≤ w.nowKeyed

/-- The answer that decides whether the second pass is made. -/
def asksKeyed (c : Call) (w : World) (db : Db) : Bool :=
  if unkeyedBatch c w.now db = [] then db.keyedWaiting c.queues w.nowWaiting
  else db.keyedWaiting c.queues w.now

/-- The rows a call leases, each pass all of its rows or none. -/
def taken (c : Call) (w : World) (db : Db) : List Job :=
  if Spare (unkeyedBatch c w.now db) then
    unkeyedBatch c w.now db ++
      if asksKeyed c w db = true ∧ Spare (keyedAdmitted c w.now db w.nowKeyed) then
        keyedAdmitted c w.now db w.nowKeyed
      else []
  else []

theorem lockedUnkeyed_eq (c : Call) {w : World} (hw : Alone w) (db : Db) :
    db.lockedUnkeyed (unkeyedArgs c w) = unkeyedBatch c w.now db := by
  simp [Tables.lockedUnkeyed, unkeyedBatch, unkeyed, unkeyedArgs, hw.skip]

theorem lockedKeyed_eq (db : Db) {a : Fetch} (hskip : a.skip = []) :
    db.lockedKeyed a db.toTables = (keyed a.queues a.now db).take a.limit.toNat := by
  have hlist : ((db.jobs.filter fun j => j.Admissible a db.toTables ∧ j.id ∉ a.skip).insertionSort
      Job.FetchLE) = keyed a.queues a.now db := by
    simp [hskip, keyed, Job.Admissible, Room]
  have hsame : (keyed a.queues a.now db).filterMap (fun j => db.job? j.id) = keyed a.queues a.now db := by
    conv => rhs; rw [← List.filterMap_some (l := keyed a.queues a.now db)]
    refine List.filterMap_congr fun j hj => ?_
    exact db.job?_eq_some.mpr ⟨(mem_keyed.mp hj).1, rfl⟩
  have hall : (keyed a.queues a.now db).filter (fun j => j.Admissible a db.toTables) =
      keyed a.queues a.now db :=
    List.filter_eq_self.mpr fun j hj => decide_eq_true (mem_keyed.mp hj).2
  rw [Tables.lockedKeyed, hlist, hsame, hall]

theorem admitted_eq (c : Call) {w : World} (hw : Alone w) (db : Db) :
    db.admitted (keyedArgs c w (unkeyedBatch c w.now db).length) db.toTables =
      keyedAdmitted c w.now db w.nowKeyed := by
  have hlocked : db.lockedKeyed (keyedArgs c w (unkeyedBatch c w.now db).length) db.toTables =
      keyedBatch c w.now db w.nowKeyed := lockedKeyed_eq db hw.skipKeyed
  rw [Tables.admitted, hlocked]
  refine List.filter_congr fun j hj => ?_
  rw [decide_eq_decide, Fits, or_iff_right (mem_keyed.mp (List.mem_of_mem_take hj)).2.2.1]

/-- The rows of `chosen` are running now, and the others are as they were. -/
def Rewrites (db db' : Db) (chosen : List Job) : Prop :=
  ∃ f : Job → Job, db'.jobs = db.jobs.map f ∧ ∀ j ∈ db.jobs, (f j).id = j.id ∧
    (f j).concurrencyKey = j.concurrencyKey ∧ (j ∈ chosen → (f j).state = .running) ∧
    (j ∉ chosen → f j = j)

theorem Rewrites.refl (db : Db) : Rewrites db db [] :=
  ⟨id, (List.map_id _).symm, fun _ _ => ⟨rfl, rfl, fun h => absurd h List.not_mem_nil, fun _ => rfl⟩⟩

theorem Rewrites.trans {db db' db'' : Db} {first second : List Job} (h : Rewrites db db' first)
    (h' : Rewrites db' db'' second) : Rewrites db db'' (first ++ second) := by
  obtain ⟨f, hf, hrow⟩ := h
  obtain ⟨g, hg, hrow'⟩ := h'
  refine ⟨g ∘ f, by rw [hg, hf, List.map_map], fun j hj => ?_⟩
  obtain ⟨hid, hkey, hin, hout⟩ := hrow j hj
  obtain ⟨hid', hkey', hin', hout'⟩ := hrow' (f j) (hf ▸ List.mem_map_of_mem hj)
  refine ⟨hid'.trans hid, hkey'.trans hkey, fun hmem => ?_, fun hmem => ?_⟩
  · by_cases hsecond : f j ∈ second
    · exact hin' hsecond
    · rw [Function.comp, hout' hsecond]
      rcases List.mem_append.mp hmem with hfirst | hj'
      · exact hin hfirst
      · by_cases hfirst : j ∈ first
        · exact hin hfirst
        · exact absurd ((hout hfirst).symm ▸ hj') hsecond
  · rw [List.mem_append, not_or] at hmem
    have hsame := hout hmem.1
    rw [Function.comp, hout' (hsame.symm ▸ hmem.2), hsame]

theorem rewrites_lease {db db' : Db} {a : Fetch} {chosen : List Job} (hsub : ∀ j ∈ chosen, j ∈ db.jobs)
    (h : db'.jobs = db.jobs.map (leaseRow a (chosen.map Job.id))) : Rewrites db db' chosen := by
  refine ⟨_, h, fun j hj => ⟨(leaseRow_same a _ j).id, (leaseRow_same a _ j).concurrencyKey, ?_, ?_⟩⟩
  · intro hmem
    rw [leaseRow, if_pos (List.mem_map_of_mem hmem)]
    rfl
  · intro hout
    rw [leaseRow, if_neg]
    intro hid
    obtain ⟨k, hk, hsame⟩ := List.mem_map.mp hid
    exact hout (db.eq_of_id (hsub k hk) hj hsame ▸ hk)

/-- The second pass, when it is made. -/
theorem keyedPass_rewrites (c : Call) {w : World} (hw : Alone w) (jobs : List LeasedJob) (db : Db)
    {chosen : List Job} (hc : db.admitted (keyedArgs c w jobs.length) db.toTables = chosen) :
    Rewrites db (keyedPass c w jobs db).2 (if Spare chosen then chosen else []) := by
  have hlim : 0 ≤ (keyedArgs c w jobs.length).limit := by
    show 0 ≤ max (c.limit - jobs.length) 1
    omega
  have hok := run_fetchKeyed db (keyedArgs c w jobs.length) hlim
  rw [hc] at hok
  simp only [keyedPass, hw.failBegin, hw.failLock, hw.failKeyed, Bool.false_eq_true, if_false]
  cases hrun : db.run (.fetchKeyed (keyedArgs c w jobs.length)) with
  | error e =>
    rw [if_neg fun hspare => ?_]
    · exact .refl db
    · obtain ⟨db', h⟩ := hok.mpr hspare
      rw [hrun] at h
      cases h
  | ok db' =>
    have hspare : Spare chosen := hok.mp ⟨db', hrun⟩
    have ht := Stmt.effect_eq_mapJobs (s := .fetchKeyed (keyedArgs c w jobs.length)) rfl (Db.run_ok hrun)
    have hjobs : db'.jobs = db.jobs.map (leaseRow (keyedArgs c w jobs.length) (chosen.map Job.id)) := by
      rw [show db'.jobs = _ from congrArg Tables.jobs ht, ← hc]
      rfl
    simp only [hw.commit]
    rw [if_pos hspare]
    refine rewrites_lease (fun j hj => ?_) hjobs
    rw [← hc] at hj
    exact (mem_jobs_of_admitted hj).1

/-- A first pass leaves what is keyed as it is. -/
theorem admitted_after (c : Call) {w : World} (hw : Alone w) {db db' : Db}
    (hrun : db.run (.fetchUnkeyed (unkeyedArgs c w)) = .ok db') :
    db'.admitted (keyedArgs c w (unkeyedBatch c w.now db).length) db'.toTables =
      keyedAdmitted c w.now db w.nowKeyed := by
  obtain ⟨ht, hmem, -⟩ := first_pass hrun
  rw [← admitted_eq c hw db]
  refine admitted_same ht (fun k => (leaseRow_same _ _ k).concurrencyKey) (fun k hk hkey => ?_) _
  rw [leaseRow, if_neg]
  intro hin
  obtain ⟨i, hi, hid⟩ := List.mem_map.mp hin
  exact hkey (db.eq_of_id (hmem i hi).1 hk hid ▸ (hmem i hi).2)

/-- **What a call leaves in the database**: the rows of `taken` are leased. -/
theorem fetch_rewrites (c : Call) (hlim : 0 ≤ c.limit) {w : World} (hw : Alone w) (db : Db) :
    Rewrites db (fetch c w db).2 (taken c w db) := by
  have hunkeyed := run_fetchUnkeyed db (unkeyedArgs c w)
  rw [lockedUnkeyed_eq c hw] at hunkeyed
  simp only [fetch, taken, hw.failUnkeyed, hw.failWaiting, Bool.false_eq_true, if_false,
    lockedUnkeyed_eq c hw]
  cases hrun : db.run (.fetchUnkeyed (unkeyedArgs c w)) with
  | error e =>
    rw [if_neg fun hspare => ?_]
    · exact .refl db
    · obtain ⟨db', h⟩ := hunkeyed.mpr ⟨hlim, hspare⟩
      rw [hrun] at h
      cases h
  | ok db' =>
    obtain ⟨ht, hmem, hlen⟩ := first_pass hrun
    have hsecond := admitted_after c hw hrun
    rw [lockedUnkeyed_eq c hw] at ht hmem hlen
    rw [if_pos (hunkeyed.mp ⟨db', hrun⟩).2]
    have hfirst : Rewrites db db' (unkeyedBatch c w.now db) :=
      rewrites_lease (fun j hj => (hmem j hj).1) (congrArg Tables.jobs ht)
    refine hfirst.trans ?_
    dsimp only
    generalize hjobs : returning db'.toTables (unkeyedBatch c w.now db) = jobs at hlen ⊢
    rw [← hlen] at hsecond
    have hpass := keyedPass_rewrites c hw jobs db' hsecond
    have hboth : Rewrites db'
        (if asksKeyed c w db = true then keyedPass c w jobs db' else (.ok jobs, db')).2
        (if asksKeyed c w db = true ∧ Spare (keyedAdmitted c w.now db w.nowKeyed) then
          keyedAdmitted c w.now db w.nowKeyed else []) := by
      by_cases hasks : asksKeyed c w db = true
      · simpa [hasks] using hpass
      · simpa [hasks] using Rewrites.refl db'
    by_cases hnil : unkeyedBatch c w.now db = []
    · have hsame : db'.toTables = db.toTables := by
        rw [hnil, List.map_nil, mapJobs_leaseRow_nil] at ht
        exact ht
      have hempty : jobs = [] := List.length_eq_zero_iff.mp (by rw [hlen, hnil]; rfl)
      have hasks : asksKeyed c w db = db'.keyedWaiting c.queues w.nowWaiting := by
        rw [hsame]
        exact if_pos hnil
      rw [if_pos hempty, ← hasks]
      exact hboth
    · have hne : jobs ≠ [] := by
        rw [← List.length_pos_iff, hlen]
        exact List.length_pos_iff.mpr hnil
      have hasks : asksKeyed c w db = db.keyedWaiting c.queues w.now := if_neg hnil
      rw [if_neg hne, ← hasks]
      exact hboth

/-! ## What was leased, and what room is left -/

/-- The jobs that were available before and are running after. -/
def leased (db db' : Db) : List Job :=
  db.jobs.filter fun j => j.state = .available ∧ ∃ k ∈ db'.jobs, k.id = j.id ∧ k.state = .running

section
variable {db db' : Db} {chosen : List Job} (h : Rewrites db db' chosen)
  (hsub : ∀ j ∈ chosen, j ∈ db.jobs ∧ j.state = .available)
include h hsub

theorem mem_leased_iff {j : Job} : j ∈ leased db db' ↔ j ∈ chosen := by
  obtain ⟨f, hf, hrow⟩ := h
  rw [leased, List.mem_filter, decide_eq_true_iff, hf]
  constructor
  · intro hl
    obtain ⟨hj, havail, k, hk, hid, hrun⟩ := hl
    obtain ⟨i, hi, rfl⟩ := List.mem_map.mp hk
    obtain rfl : i = j := db.eq_of_id hi hj ((hrow i hi).1.symm.trans hid)
    by_contra hout
    rw [(hrow i hi).2.2.2 hout, havail] at hrun
    cases hrun
  · intro hmem
    obtain ⟨hj, havail⟩ := hsub j hmem
    exact ⟨hj, havail, f j, List.mem_map_of_mem hj, (hrow j hj).1, (hrow j hj).2.2.1 hmem⟩

theorem leased_perm (hnd : chosen.Nodup) : (leased db db').Perm chosen :=
  (List.perm_ext_iff_of_nodup ((db_nodup db).filter _) hnd).mpr fun _ => mem_leased_iff h hsub

/-- Each leased job of a key is one more that runs. -/
theorem active_after (hnd : chosen.Nodup) (k : String) :
    db'.active k = db.active k + (chosen.filter fun j => j.concurrencyKey = some k).length := by
  have hchosen : (db.jobs.filter fun j => j ∈ chosen).Perm chosen :=
    (List.perm_ext_iff_of_nodup ((db_nodup db).filter _) hnd).mpr fun j => by
      simpa using fun hj => (hsub j hj).1
  obtain ⟨f, hf, hrow⟩ := h
  simp only [Tables.active, ← List.countP_eq_length_filter]
  rw [hf, List.countP_map, List.countP_eq_countP_filter_add _ _ fun j => decide (j ∈ chosen),
    List.countP_eq_countP_filter_add db.jobs _ fun j => decide (j ∈ chosen),
    ← hchosen.countP_eq]
  -- nothing chosen ran before, all of it runs after, and the rest is as it was
  have hbefore : (db.jobs.filter fun j => j ∈ chosen).countP
      (fun j => j.state = .running ∧ j.concurrencyKey = some k) = 0 := by
    refine List.countP_eq_zero.mpr fun j hj => ?_
    have havail := (hsub j (of_decide_eq_true (List.mem_filter.mp hj).2)).2
    simp [havail]
  have hnow : (db.jobs.filter fun j => j ∈ chosen).countP
      ((fun j => decide (j.state = .running ∧ j.concurrencyKey = some k)) ∘ f) =
      (db.jobs.filter fun j => j ∈ chosen).countP fun j => j.concurrencyKey = some k := by
    refine List.countP_congr fun j hj => ?_
    obtain ⟨hj, hmem⟩ := List.mem_filter.mp hj
    obtain ⟨-, hkey, hin, -⟩ := hrow j hj
    simp [hkey, hin (of_decide_eq_true hmem)]
  have hrest : (db.jobs.filter fun j => !decide (j ∈ chosen)).countP
      ((fun j => decide (j.state = .running ∧ j.concurrencyKey = some k)) ∘ f) =
      (db.jobs.filter fun j => !decide (j ∈ chosen)).countP
        fun j => j.state = .running ∧ j.concurrencyKey = some k := by
    refine List.countP_congr fun j hj => ?_
    obtain ⟨hj, hmem⟩ := List.mem_filter.mp hj
    rw [Function.comp, (hrow j hj).2.2.2 (by simpa using hmem)]
  rw [hbefore, hnow, hrest]
  omega
end

theorem Rewrites.room_iff {db db' : Db} {chosen : List Job} (h : Rewrites db db' chosen)
    (hsub : ∀ j ∈ chosen, j ∈ db.jobs ∧ j.state = .available) (hnd : chosen.Nodup) {j : Job}
    (hkey : j.concurrencyKey ≠ none) :
    Room db' j ↔ ∃ m ∈ j.maxConcurrency, ((db.already j +
      (chosen.filter fun k => k.concurrencyKey = j.concurrencyKey).length : Nat) : Int) < m := by
  obtain ⟨k, hk⟩ := Option.ne_none_iff_exists'.mp hkey
  simp only [Room, Tables.already, hk, active_after h hsub hnd k]

/-- No room is made by leasing. -/
theorem Rewrites.room_of {db db' : Db} {chosen : List Job} (h : Rewrites db db' chosen)
    (hsub : ∀ j ∈ chosen, j ∈ db.jobs ∧ j.state = .available) (hnd : chosen.Nodup) {j : Job}
    (hkey : j.concurrencyKey ≠ none) (hroom : Room db' j) : Room db j := by
  obtain ⟨m, hm, hlt⟩ := (h.room_iff hsub hnd hkey).mp hroom
  exact ⟨m, hm, by omega⟩

section
variable (c : Call) (now : Time) (db : Db)

theorem mem_batch {j : Job} (h : j ∈ batch c now db) :
    j ∈ db.jobs ∧ j.Due c.queues now ∧ (j.concurrencyKey = none ∨ Room db j) :=
  mem_eligible.mp (List.mem_of_mem_take h)

theorem eligible_nodup (queues : List String) : (eligible queues now db).Nodup := sorted_nodup db _

theorem batch_nodup : (batch c now db).Nodup := (eligible_nodup now db c.queues).sublist (List.take_sublist _ _)

theorem batch_sorted : (batch c now db).Pairwise Job.FetchLE :=
  (pairwise_fetchLE _).sublist (List.take_sublist _ _)

theorem mem_unkeyedBatch {j : Job} (h : j ∈ unkeyedBatch c now db) :
    j ∈ db.jobs ∧ j.Due c.queues now ∧ j.concurrencyKey = none :=
  mem_unkeyed.mp (List.mem_of_mem_take h)

theorem unkeyedBatch_nodup : (unkeyedBatch c now db).Nodup :=
  (sorted_nodup db _).sublist (List.take_sublist _ _)

variable (later : Time)

theorem mem_keyedBatch {j : Job} (h : j ∈ keyedBatch c now db later) :
    j ∈ db.jobs ∧ j.Due c.queues later ∧ j.concurrencyKey ≠ none ∧ Room db j :=
  mem_keyed.mp (List.mem_of_mem_take h)

theorem keyedBatch_nodup : (keyedBatch c now db later).Nodup :=
  (sorted_nodup db _).sublist (List.take_sublist _ _)

theorem mem_keyedAdmitted {j : Job} (h : j ∈ keyedAdmitted c now db later) :
    j ∈ db.jobs ∧ j.Due c.queues later ∧ j.concurrencyKey ≠ none ∧ Room db j :=
  mem_keyedBatch c now db later (List.mem_filter.mp h).1

theorem passes_nodup : (unkeyedBatch c now db ++ keyedAdmitted c now db later).Nodup := by
  refine List.nodup_append.mpr ⟨unkeyedBatch_nodup c now db,
    (keyedBatch_nodup c now db later).filter _, fun j hj k hk hsame => ?_⟩
  exact (mem_keyedAdmitted c now db later hk).2.2.1 (hsame ▸ (mem_unkeyedBatch c now db hj).2.2)

theorem mem_passes {j : Job} (h : j ∈ unkeyedBatch c now db ++ keyedAdmitted c now db later) :
    j ∈ db.jobs ∧ j.state = .available := by
  rcases List.mem_append.mp h with h | h
  · exact ⟨(mem_unkeyedBatch c now db h).1, (mem_unkeyedBatch c now db h).2.1.1⟩
  · exact ⟨(mem_keyedAdmitted c now db later h).1, (mem_keyedAdmitted c now db later h).2.1.1⟩
end

theorem taken_sublist (c : Call) (w : World) (db : Db) :
    (taken c w db).Sublist (unkeyedBatch c w.now db ++ keyedAdmitted c w.now db w.nowKeyed) := by
  unfold taken
  split
  · refine (List.Sublist.refl _).append ?_
    split
    · exact List.Sublist.refl _
    · exact List.nil_sublist _
  · exact List.nil_sublist _

theorem taken_nodup (c : Call) (w : World) (db : Db) : (taken c w db).Nodup :=
  (passes_nodup c w.now db w.nowKeyed).sublist (taken_sublist c w db)

theorem mem_taken {c : Call} {w : World} {db : Db} : ∀ j ∈ taken c w db, j ∈ db.jobs ∧ j.state = .available :=
  fun _ hj => mem_passes c w.now db w.nowKeyed ((taken_sublist c w db).mem hj)

/-- The first of its key in a batch fits if there is room at all. -/
theorem fits_of_first {db : Db} {l : List Job} (hnd : l.Nodup) (hsub : ∀ j ∈ l, j ∈ db.jobs) {j : Job}
    (hj : j ∈ l) (hroom : Room db j) (hfirst : ∀ k ∈ l, k.concurrencyKey = j.concurrencyKey → j.FetchLE k) :
    Fits db l j := by
  have hrank : rowNumber l j ≤ 1 := by
    refine Nat.le_trans ?_ (List.nodup_iff_count_le_one.mp hnd j)
    rw [rowNumber, ← List.countP_eq_length_filter]
    refine List.countP_mono_left fun k hk hle => ?_
    obtain ⟨hkey, hle⟩ := of_decide_eq_true hle
    have hsame : k.fetchKey = j.fetchKey := le_antisymm hle (hfirst k hk hkey)
    have hid : (ofLex (ofLex k.fetchKey).2).2 = (ofLex (ofLex j.fetchKey).2).2 := by rw [hsame]
    exact beq_iff_eq.mpr (db.eq_of_id (hsub k hk) (hsub j hj) hid)
  obtain ⟨m, hm, hlt⟩ := hroom
  exact .inr ⟨m, hm, by omega⟩

/-- A sorted batch with a keyed job in it has one that fits. -/
theorem exists_keyed_fits {db : Db} {l : List Job} (hl : l.Pairwise Job.FetchLE) (hnd : l.Nodup)
    (hsub : ∀ j ∈ l, j ∈ db.jobs) (hroom : ∀ j ∈ l, j.concurrencyKey ≠ none → Room db j)
    (hsome : ∃ j ∈ l, j.concurrencyKey ≠ none) : ∃ j ∈ l, j.concurrencyKey ≠ none ∧ Fits db l j := by
  have hsorted := hl.filter fun j => decide (j.concurrencyKey ≠ none)
  have hmem : ∀ j, j ∈ l.filter (fun j => decide (j.concurrencyKey ≠ none)) ↔
      j ∈ l ∧ j.concurrencyKey ≠ none := by simp
  cases hfilter : l.filter fun j => decide (j.concurrencyKey ≠ none) with
  | nil =>
    obtain ⟨j, hj, hkey⟩ := hsome
    exact absurd ((hmem j).mpr ⟨hj, hkey⟩) (hfilter ▸ List.not_mem_nil)
  | cons j rest =>
    rw [hfilter] at hsorted hmem
    obtain ⟨hj, hkey⟩ := (hmem j).mp List.mem_cons_self
    refine ⟨j, hj, hkey, fits_of_first hnd hsub hj (hroom j hj hkey) fun k hk hsame => ?_⟩
    rcases List.mem_cons.mp ((hmem k).mpr ⟨hk, hsame ▸ hkey⟩) with rfl | hrest
    · exact le_refl _
    · exact List.rel_of_pairwise_cons hsorted hrest

end Gylo.Store.Passes
