import Gylo.Store.Passes

/-! # In which order a fetch leases

Two properties of a call that is alone: keyed work is not starved by unkeyed work,
and the two passes respect the order of priorities as one pass would. Either can
fail: the first when a row without an attempt left makes Postgres refuse a lease,
the second whenever both kinds of jobs compete for the limit. -/
namespace Gylo.Store.Ordering

open Gylo.Store Gylo.Store.FetchCall Gylo.Store.Passes

/-! ## Keyed work is not starved -/

/-- If a due keyed job has room, the call leases a keyed job, the first `limit` of
the unkeyed ones, and at most one job too many. -/
def NotStarved (c : Call) (w : World) (db : Db) : Prop :=
  (∃ j ∈ db.jobs, j.Due c.queues w.now ∧ j.concurrencyKey ≠ none ∧ Room db j) →
    (∃ j ∈ leased db (fetch c w db).2, j.concurrencyKey ≠ none) ∧
    ((leased db (fetch c w db).2).filter fun j => j.concurrencyKey = none).Perm
      ((unkeyed c.queues w.now db).take c.limit.toNat) ∧
    ((leased db (fetch c w db).2).length : Int) ≤ c.limit + 1

theorem asksKeyed_of (c : Call) {w : World} (hw : Alone w) {db : Db} {j : Job} (hj : j ∈ db.jobs)
    (hdue : j.Due c.queues w.now) (hkey : j.concurrencyKey ≠ none) : asksKeyed c w db = true := by
  have hwaits : ∀ t, w.now ≤ t → db.keyedWaiting c.queues t = true := fun t ht =>
    List.any_eq_true.mpr ⟨j, hj, decide_eq_true ⟨hdue.later ht, hkey⟩⟩
  unfold asksKeyed
  split
  · exact hwaits _ hw.clock.1
  · exact hwaits _ (le_refl _)

/-- A second pass that finds room admits somebody. -/
theorem keyedAdmitted_ne_nil (c : Call) (now : Time) {db : Db} {later : Time} {j : Job}
    (h : j ∈ keyed c.queues later db) : ∃ k, k ∈ keyedAdmitted c now db later := by
  have hne : keyedBatch c now db later ≠ [] := by
    have hpos : 0 < (max (c.limit - (unkeyedBatch c now db).length) 1).toNat := by omega
    rw [keyedBatch, ← List.length_pos_iff, List.length_take]
    exact Nat.lt_min.mpr ⟨hpos, List.length_pos_of_mem h⟩
  obtain ⟨i, hi⟩ := List.exists_mem_of_ne_nil _ hne
  have hmem := fun k (hk : k ∈ keyedBatch c now db later) => mem_keyedBatch c now db later hk
  obtain ⟨k, hk, -, hfits⟩ := exists_keyed_fits
    ((pairwise_fetchLE _).sublist (List.take_sublist _ _)) (keyedBatch_nodup c now db later)
    (fun k hk => (hmem k hk).1) (fun k hk _ => (hmem k hk).2.2.2) ⟨i, hi, (hmem i hi).2.2.1⟩
  exact ⟨k, List.mem_filter.mpr ⟨hk, decide_eq_true hfits⟩⟩

/-- **Keyed work is not starved** by a call that is alone, exactly if every job the
two passes take has an attempt left. -/
theorem not_starved_iff (c : Call) (hlim : 1 ≤ c.limit) {w : World} (hw : Alone w) (db : Db) :
    NotStarved c w db ↔
      ((∃ j ∈ db.jobs, j.Due c.queues w.now ∧ j.concurrencyKey ≠ none ∧ Room db j) →
        Spare (unkeyedBatch c w.now db) ∧ Spare (keyedAdmitted c w.now db w.nowKeyed)) := by
  have hrewrites := fetch_rewrites c (by omega) hw db
  have hperm := leased_perm hrewrites mem_taken (taken_nodup c w db)
  refine forall_congr' fun hroom => ?_
  obtain ⟨j, hj, hdue, hkey, hroom⟩ := hroom
  have hasks := asksKeyed_of c hw hj hdue hkey
  have hin : j ∈ keyed c.queues w.nowKeyed db := mem_keyed.mpr ⟨hj, hdue.later hw.clock.2, hkey, hroom⟩
  constructor
  · intro h
    obtain ⟨k, hk, hkeyed⟩ := h.1
    have hk := hperm.mem_iff.mp hk
    -- only a second pass that goes through leases keyed jobs
    unfold taken at hk
    split at hk
    · next hfirst =>
      rcases List.mem_append.mp hk with hk | hk
      · exact absurd (mem_unkeyedBatch c w.now db hk).2.2 hkeyed
      · split at hk
        · next hsecond => exact ⟨hfirst, hsecond.2⟩
        · exact absurd hk List.not_mem_nil
    · exact absurd hk List.not_mem_nil
  · intro h
    have htaken : taken c w db = unkeyedBatch c w.now db ++ keyedAdmitted c w.now db w.nowKeyed := by
      rw [taken, if_pos h.1, if_pos ⟨hasks, h.2⟩]
    rw [htaken] at hperm
    refine ⟨?_, ?_, ?_⟩
    · obtain ⟨k, hk⟩ := keyedAdmitted_ne_nil c w.now hin
      exact ⟨k, hperm.mem_iff.mpr (List.mem_append_right _ hk), (mem_keyedAdmitted c w.now db _ hk).2.2.1⟩
    · have hfirst : (unkeyedBatch c w.now db).filter (fun j => j.concurrencyKey = none) =
          unkeyedBatch c w.now db :=
        List.filter_eq_self.mpr fun k hk => decide_eq_true (mem_unkeyedBatch c w.now db hk).2.2
      have hsecond : (keyedAdmitted c w.now db w.nowKeyed).filter (fun j => j.concurrencyKey = none) = [] :=
        List.filter_eq_nil_iff.mpr fun k hk => by simpa using (mem_keyedAdmitted c w.now db _ hk).2.2.1
      have hfilter := hperm.filter fun j => j.concurrencyKey = none
      rw [List.filter_append, hfirst, hsecond, List.append_nil] at hfilter
      exact hfilter
    · have hfirst : (unkeyedBatch c w.now db).length ≤ c.limit.toNat := List.length_take_le _ _
      have hsecond : (keyedAdmitted c w.now db w.nowKeyed).length ≤
          (max (c.limit - (unkeyedBatch c w.now db).length) 1).toNat :=
        (List.length_filter_le _ _).trans (List.length_take_le _ _)
      rw [hperm.length_eq, List.length_append]
      omega

/-- A call whose statements all run at one instant. -/
def instant (now : Time) : World := { now := now, nowWaiting := now, nowKeyed := now }

theorem alone_instant (now : Time) : Alone (instant now) := by
  constructor <;> first | rfl | exact ⟨le_refl _, le_refl _⟩

theorem not_starved_iff_two : NotStarved fetchTwo (instant 1) twoWaiting :=
  (not_starved_iff fetchTwo (by decide) (alone_instant 1) twoWaiting).mpr fun _ => by decide

/-- A keyed job behind an unkeyed one that was enqueued without any attempts. -/
def noAttempts : Db :=
  Db.after [.enqueue { task := "report", maxAttempts := 0 } 0,
    .enqueue { task := "import", concurrencyKey := some "tenant", maxConcurrency := some 1 } 0]

/-- The lease is refused, now and on every later call, and the keyed job waits. -/
theorem keyed_starved :
    (∃ j ∈ noAttempts.jobs, j.Due ["default"] 1 ∧ j.concurrencyKey ≠ none ∧ Room noAttempts j) ∧
      (fetch fetchTwo (instant 1) noAttempts).1 = .error (.database (.violates .attemptBounds)) ∧
      leased noAttempts (fetch fetchTwo (instant 1) noAttempts).2 = [] := by
  decide

/-! ## The global order -/

/-- A job is leased before those that could have been leased in its place: due
jobs left waiting that are unkeyed, or whose key has room even after the call. -/
def InOrder (c : Call) (now : Time) (db db' : Db) : Prop :=
  ∀ a ∈ leased db db', ∀ b ∈ db.jobs, b.Due c.queues now → b ∉ leased db db' →
    b.concurrencyKey = none ∨ Room db' b → a.FetchLE b

/-- The call respects the order, and leases what one pass in that order would. -/
def GlobalOrder (c : Call) (now : Time) (db : Db) : Prop :=
  InOrder c now db (fetch c (instant now) db).2 ∧
    ∀ j, j ∈ leased db (fetch c (instant now) db).2 ↔ j ∈ leasedBySingle c now db

/-- A job of the batch that its rank keeps out although its key has room left: one
before it with a lower limit was kept out too. -/
def Overlooked (db : Db) (l : List Job) (b : Job) : Prop :=
  ¬ Fits db l b ∧ ∃ m ∈ b.maxConcurrency, ((db.already b +
    (l.filter fun j => j.concurrencyKey = b.concurrencyKey ∧ Fits db l j).length : Nat) : Int) < m

instance (db : Db) (l : List Job) (b : Job) : Decidable (Overlooked db l b) :=
  inferInstanceAs (Decidable (_ ∧ _))

/-- When two passes amount to one. If all the rows they take have an attempt left:
no keyed job has room, or the unkeyed jobs leave some of the limit over, all
of them are among the first `limit` of what waits, and no job there is
overlooked for a later one. If a pass is refused for a row without an attempt left,
one pass would have to be refused too, or have leased the same. -/
def Aligned (c : Call) (now : Time) (db : Db) : Prop :=
  if Spare (unkeyedBatch c now db) then
    keyed c.queues now db = [] ∨
      if Spare (keyedAdmitted c now db now) then
        ((unkeyed c.queues now db).length : Int) < c.limit ∧
          (∀ j ∈ unkeyed c.queues now db, j ∈ batch c now db) ∧
          ∀ b ∈ batch c now db, Overlooked db (batch c now db) b →
            ∀ a ∈ batch c now db, Fits db (batch c now db) a → a.FetchLE b
      else unkeyed c.queues now db = [] ∨ ∀ j ∈ batch c now db, j.concurrencyKey = none
  else ¬ Spare (singlePass c now db)

section
variable (c : Call) (now : Time) (db : Db)

theorem taken_instant : taken c (instant now) db =
    if Spare (unkeyedBatch c now db) then
      unkeyedBatch c now db ++ if Spare (keyedAdmitted c now db now) then keyedAdmitted c now db now else []
    else [] := by
  have hnone : ¬ asksKeyed c (instant now) db = true → keyedAdmitted c now db now = [] := by
    intro hasks
    refine List.eq_nil_iff_forall_not_mem.mpr fun j hj => hasks ?_
    obtain ⟨hjdb, hdue, hkey, -⟩ := mem_keyedAdmitted c now db now hj
    exact asksKeyed_of c (alone_instant now) hjdb hdue hkey
  show (if Spare (unkeyedBatch c now db) then unkeyedBatch c now db ++
    if asksKeyed c (instant now) db = true ∧ Spare (keyedAdmitted c now db now) then
      keyedAdmitted c now db now else [] else []) = _
  by_cases hasks : asksKeyed c (instant now) db = true
  · simp [hasks]
  · simp [hnone hasks]

/-- What is left out of the batch comes after it, so the order is a matter of the
batch alone. -/
theorem inOrder_iff {db' : Db} {chosen : List Job} (h : Rewrites db db' chosen)
    (hnd : chosen.Nodup) (hsub : ∀ j ∈ chosen, j ∈ batch c now db) :
    InOrder c now db db' ↔ ∀ a ∈ chosen, ∀ b ∈ batch c now db, b ∉ chosen →
      b.concurrencyKey = none ∨ Room db' b → a.FetchLE b := by
  have havail : ∀ j ∈ chosen, j ∈ db.jobs ∧ j.state = .available := fun j hj =>
    ⟨(mem_batch c now db (hsub j hj)).1, (mem_batch c now db (hsub j hj)).2.1.1⟩
  simp only [InOrder, mem_leased_iff h havail]
  constructor
  · intro horder a ha b hb
    exact horder a ha b (mem_batch c now db hb).1 (mem_batch c now db hb).2.1
  · intro horder a ha b hb hdue hout hopen
    by_cases hin : b ∈ batch c now db
    · exact horder a ha b hin hout hopen
    · refine Taking.rel_of_mem_take (pairwise_fetchLE _) (hsub a ha) ?_ hin
      refine mem_eligible.mpr ⟨hb, hdue, ?_⟩
      by_cases hkey : b.concurrencyKey = none
      · exact .inl hkey
      · exact .inr (h.room_of havail hnd hkey (hopen.resolve_left hkey))

theorem globalOrder_iff {chosen : List Job} (htaken : taken c (instant now) db = chosen)
    (hlim : 1 ≤ c.limit) (hsub : ∀ j ∈ chosen, j ∈ batch c now db) :
    GlobalOrder c now db ↔
      (∀ a ∈ chosen, ∀ b ∈ batch c now db, b ∉ chosen →
        b.concurrencyKey = none ∨ (∃ m ∈ b.maxConcurrency, ((db.already b +
          (chosen.filter fun k => k.concurrencyKey = b.concurrencyKey).length : Nat) : Int) < m) →
        a.FetchLE b) ∧ ∀ j, j ∈ chosen ↔ j ∈ leasedBySingle c now db := by
  have h := fetch_rewrites c (by omega) (alone_instant now) db
  have hnd := taken_nodup c (instant now) db
  have havail : ∀ j ∈ taken c (instant now) db, j ∈ db.jobs ∧ j.state = .available := mem_taken
  rw [htaken] at h hnd havail
  have hroom : ∀ b, (b.concurrencyKey = none ∨ Room (fetch c (instant now) db).2 b) ↔
      (b.concurrencyKey = none ∨ ∃ m ∈ b.maxConcurrency, ((db.already b +
          (chosen.filter fun k => k.concurrencyKey = b.concurrencyKey).length : Nat) : Int) < m) := by
    intro b
    by_cases hkey : b.concurrencyKey = none
    · simp [hkey]
    · rw [h.room_iff havail hnd hkey]
  rw [GlobalOrder, inOrder_iff c now db h hnd hsub]
  simp only [hroom, mem_leased_iff h havail]

theorem mem_singlePass {j : Job} : j ∈ singlePass c now db ↔ j ∈ batch c now db ∧ Fits db (batch c now db) j := by
  rw [singlePass, List.mem_filter, decide_eq_true_iff]

theorem mem_batch_of_leased {j : Job} (h : j ∈ leasedBySingle c now db) : j ∈ batch c now db := by
  unfold leasedBySingle at h
  split at h
  · exact ((mem_singlePass c now db).mp h).1
  · exact absurd h List.not_mem_nil

/-- One pass over a batch with anything in it leases something. -/
theorem exists_singlePass {j : Job} (hj : j ∈ batch c now db) : ∃ k, k ∈ singlePass c now db := by
  have hmem := fun k (hk : k ∈ batch c now db) => mem_batch c now db hk
  by_cases hsome : ∃ k ∈ batch c now db, k.concurrencyKey ≠ none
  · obtain ⟨k, hk, -, hfits⟩ := exists_keyed_fits (batch_sorted c now db) (batch_nodup c now db)
      (fun k hk => (hmem k hk).1) (fun k hk hkey => (hmem k hk).2.2.resolve_left hkey) hsome
    exact ⟨k, (mem_singlePass c now db).mpr ⟨hk, hfits⟩⟩
  · have hkey : j.concurrencyKey = none := by
      by_contra hkey
      exact hsome ⟨j, hj, hkey⟩
    exact ⟨j, (mem_singlePass c now db).mpr ⟨hj, .inl hkey⟩⟩

theorem leasedBySingle_nil_iff {j : Job} (hj : j ∈ batch c now db) :
    (∀ k, k ∉ leasedBySingle c now db) ↔ ¬ Spare (singlePass c now db) := by
  obtain ⟨i, hi⟩ := exists_singlePass c now db hj
  unfold leasedBySingle
  split
  · next hspare => exact ⟨fun h => absurd hi (h i), fun h => absurd hspare h⟩
  · next hnot => exact ⟨fun _ => hnot, fun _ _ => List.not_mem_nil⟩

/-- Something unkeyed waits, so something is in the batch. -/
theorem exists_batch (hlim : 1 ≤ c.limit) {j : Job} (hj : j ∈ eligible c.queues now db) :
    ∃ k, k ∈ batch c now db := by
  refine List.exists_mem_of_ne_nil _ ?_
  rw [batch, ← List.length_pos_iff, List.length_take]
  exact Nat.lt_min.mpr ⟨by omega, List.length_pos_of_mem hj⟩

/-- The first pass is refused. -/
theorem globalOrder_refused (hlim : 1 ≤ c.limit) (hfirst : ¬ Spare (unkeyedBatch c now db)) :
    GlobalOrder c now db ↔ ¬ Spare (singlePass c now db) := by
  have htaken : taken c (instant now) db = [] := by rw [taken_instant, if_neg hfirst]
  have hsome : ∃ j, j ∈ unkeyedBatch c now db := by
    by_contra hnone
    exact hfirst fun j hj => absurd ⟨j, hj⟩ hnone
  obtain ⟨j, hj⟩ := hsome
  obtain ⟨hjdb, hdue, hkey⟩ := mem_unkeyedBatch c now db hj
  obtain ⟨k, hk⟩ := exists_batch c now db hlim (mem_eligible.mpr ⟨hjdb, hdue, .inl hkey⟩)
  rw [globalOrder_iff c now db htaken hlim fun j hj => absurd hj List.not_mem_nil,
    ← leasedBySingle_nil_iff c now db hk]
  constructor
  · intro h i hi
    exact List.not_mem_nil ((h.2 i).mpr hi)
  · intro h
    exact ⟨fun a ha => absurd ha List.not_mem_nil,
      fun i => ⟨fun hi => absurd hi List.not_mem_nil, fun hi => absurd hi (h i)⟩⟩

/-- A batch without keyed jobs is what the first pass takes. -/
theorem batch_eq_unkeyedBatch (h : ∀ j ∈ batch c now db, j.concurrencyKey = none) :
    batch c now db = unkeyedBatch c now db := by
  rw [unkeyedBatch, unkeyed_eq]
  exact Taking.take_eq_of_all _ fun j hj => decide_eq_true (h j hj)

/-- The first pass takes the batch, and the second adds nothing. -/
theorem globalOrder_of_batch (hlim : 1 ≤ c.limit) (hall : ∀ j ∈ batch c now db, j.concurrencyKey = none)
    (hspare : Spare (unkeyedBatch c now db)) (htaken : taken c (instant now) db = unkeyedBatch c now db) :
    GlobalOrder c now db := by
  have hbatch := batch_eq_unkeyedBatch c now db hall
  rw [← hbatch] at htaken hspare
  have hsingle : singlePass c now db = batch c now db :=
    List.filter_eq_self.mpr fun j hj => decide_eq_true (.inl (hall j hj))
  have hleased : leasedBySingle c now db = batch c now db := by
    rw [leasedBySingle, hsingle, if_pos hspare]
  rw [globalOrder_iff c now db htaken hlim fun j hj => hj, hleased]
  exact ⟨fun a _ b hb hout => absurd hb hout, fun _ => Iff.rfl⟩

theorem rowNumber_filter {l : List Job} {j : Job} (hkey : j.concurrencyKey ≠ none) :
    rowNumber (l.filter fun k => !decide (k.concurrencyKey = none)) j = rowNumber l j := by
  rw [rowNumber, rowNumber, List.filter_filter]
  congr 1
  refine List.filter_congr fun k _ => ?_
  by_cases hsame : k.concurrencyKey = j.concurrencyKey
  · simp [hsame, hkey]
  · simp [hsame]

theorem fits_filter {l : List Job} {j : Job} (hkey : j.concurrencyKey ≠ none) :
    Fits db (l.filter fun k => !decide (k.concurrencyKey = none)) j ↔ Fits db l j := by
  rw [Fits, Fits, rowNumber_filter hkey]

/-- If the keyed jobs of the batch are those the second pass considers, it admits
those of them that one pass would. -/
theorem mem_keyedAdmitted_iff
    (h : (batch c now db).filter (fun j => !decide (j.concurrencyKey = none)) = keyedBatch c now db now)
    {j : Job} : j ∈ keyedAdmitted c now db now ↔
      j ∈ batch c now db ∧ j.concurrencyKey ≠ none ∧ Fits db (batch c now db) j := by
  rw [keyedAdmitted, ← h, List.mem_filter, List.mem_filter, and_assoc]
  refine and_congr_right fun _ => ?_
  simp only [Bool.not_eq_true', decide_eq_false_iff_not, decide_eq_true_iff]
  exact and_congr_right fun hkey => fits_filter db hkey

/-- With room left by the unkeyed jobs of the batch, the second pass fills it up. -/
theorem batch_keyed (hlt : ((unkeyed c.queues now db).length : Int) < c.limit)
    (hin : ∀ j ∈ unkeyed c.queues now db, j ∈ batch c now db) :
    (batch c now db).filter (fun j => !decide (j.concurrencyKey = none)) = keyedBatch c now db now := by
  have hall : ∀ j ∈ eligible c.queues now db, decide (j.concurrencyKey = none) = true →
      j ∈ (eligible c.queues now db).take c.limit.toNat := by
    intro j hj hkey
    obtain ⟨hjdb, hdue, -⟩ := mem_eligible.mp hj
    exact hin j (mem_unkeyed.mpr ⟨hjdb, hdue, of_decide_eq_true hkey⟩)
  have htake := Taking.filter_not_take _ (eligible_nodup now db c.queues) hall
  have hlen : (unkeyedBatch c now db).length = (unkeyed c.queues now db).length := by
    rw [unkeyedBatch, List.length_take]
    omega
  rw [keyedBatch, hlen, batch, keyed_eq]
  refine htake.trans ?_
  rw [← unkeyed_eq]
  congr 1
  omega

theorem taken_iff_leased (hlim : 1 ≤ c.limit) (h : GlobalOrder c now db) {j : Job} :
    j ∈ taken c (instant now) db ↔ j ∈ leasedBySingle c now db :=
  (mem_leased_iff (fetch_rewrites c (by omega) (alone_instant now) db) mem_taken).symm.trans (h.2 j)

/-- One pass that is not refused leases a keyed job, if there is one in the batch. -/
theorem exists_keyed_leased (hspare : Spare (singlePass c now db)) {j : Job} (hj : j ∈ batch c now db)
    (hkey : j.concurrencyKey ≠ none) : ∃ k ∈ leasedBySingle c now db, k.concurrencyKey ≠ none := by
  have hmem := fun k (hk : k ∈ batch c now db) => mem_batch c now db hk
  obtain ⟨k, hk, hkeyed, hfits⟩ := exists_keyed_fits (batch_sorted c now db) (batch_nodup c now db)
    (fun k hk => (hmem k hk).1) (fun k hk hkey => (hmem k hk).2.2.resolve_left hkey) ⟨j, hj, hkey⟩
  refine ⟨k, ?_, hkeyed⟩
  rw [leasedBySingle, if_pos hspare]
  exact (mem_singlePass c now db).mpr ⟨hk, hfits⟩

/-- The second pass is refused. -/
theorem globalOrder_half (hlim : 1 ≤ c.limit) (hfirst : Spare (unkeyedBatch c now db))
    (hsecond : ¬ Spare (keyedAdmitted c now db now)) :
    GlobalOrder c now db ↔
      unkeyed c.queues now db = [] ∨ ∀ j ∈ batch c now db, j.concurrencyKey = none := by
  have htaken : taken c (instant now) db = unkeyedBatch c now db := by
    rw [taken_instant, if_pos hfirst, if_neg hsecond, List.append_nil]
  constructor
  · intro h
    refine or_iff_not_imp_left.mpr fun hsome j hj => ?_
    have hiff : ∀ k, k ∈ unkeyedBatch c now db ↔ k ∈ leasedBySingle c now db := fun k =>
      htaken ▸ taken_iff_leased c now db hlim h
    -- what the first pass leased one pass leases too, so it is not refused, and leases keyed jobs if any
    have hne : unkeyedBatch c now db ≠ [] := by
      rw [unkeyedBatch, ← List.length_pos_iff, List.length_take]
      exact Nat.lt_min.mpr ⟨by omega, List.length_pos_iff.mpr hsome⟩
    obtain ⟨u, hu⟩ := List.exists_mem_of_ne_nil _ hne
    have hspare : Spare (singlePass c now db) := by
      by_contra hnot
      have hmem := (hiff u).mp hu
      rw [leasedBySingle, if_neg hnot] at hmem
      exact List.not_mem_nil hmem
    by_contra hkey
    obtain ⟨k, hleased, hkeyed⟩ := exists_keyed_leased c now db hspare hj hkey
    exact hkeyed (mem_unkeyedBatch c now db ((hiff k).mpr hleased)).2.2
  · intro h
    rcases h with hnone | hall
    · have hbatch := batch_keyed c now db (by rw [hnone]; exact hlim)
        fun j hj => absurd hj (hnone ▸ List.not_mem_nil)
      have hnil : unkeyedBatch c now db = [] := by rw [unkeyedBatch, hnone, List.take_nil]
      have hrefused : ¬ Spare (singlePass c now db) := fun hspare => hsecond fun j hj => by
        obtain ⟨hb, -, hfits⟩ := (mem_keyedAdmitted_iff c now db hbatch).mp hj
        exact hspare j ((mem_singlePass c now db).mpr ⟨hb, hfits⟩)
      rw [hnil] at htaken
      rw [globalOrder_iff c now db htaken hlim fun j hj => absurd hj List.not_mem_nil, leasedBySingle,
        if_neg hrefused]
      exact ⟨fun a ha => absurd ha List.not_mem_nil, fun _ => Iff.rfl⟩
    · exact globalOrder_of_batch c now db hlim hall hfirst htaken

theorem taken_both (hfirst : Spare (unkeyedBatch c now db)) (hsecond : Spare (keyedAdmitted c now db now)) :
    taken c (instant now) db = unkeyedBatch c now db ++ keyedAdmitted c now db now := by
  rw [taken_instant, if_pos hfirst, if_pos hsecond]

/-- Two passes that leave nothing unkeyed out of the batch take what one takes. -/
theorem mem_passes_iff (hlt : ((unkeyed c.queues now db).length : Int) < c.limit)
    (hin : ∀ j ∈ unkeyed c.queues now db, j ∈ batch c now db) {j : Job} :
    j ∈ unkeyedBatch c now db ++ keyedAdmitted c now db now ↔ j ∈ singlePass c now db := by
  have hwhole : unkeyedBatch c now db = unkeyed c.queues now db := List.take_of_length_le (by omega)
  rw [List.mem_append, mem_keyedAdmitted_iff c now db (batch_keyed c now db hlt hin), mem_singlePass]
  constructor
  · intro h
    rcases h with h | h
    · exact ⟨hin j (hwhole ▸ h), .inl (mem_unkeyedBatch c now db h).2.2⟩
    · exact ⟨h.1, h.2.2⟩
  · intro h
    by_cases hkey : j.concurrencyKey = none
    · obtain ⟨hjdb, hdue, -⟩ := mem_batch c now db h.1
      exact .inl (hwhole ▸ mem_unkeyed.mpr ⟨hjdb, hdue, hkey⟩)
    · exact .inr ⟨h.1, hkey, h.2⟩

/-- The unkeyed jobs of the batch leave room in it, and the second pass fills it:
then only an overlooked job can be out of order. -/
theorem globalOrder_filled (hlim : 1 ≤ c.limit) (hfirst : Spare (unkeyedBatch c now db))
    (hsecond : Spare (keyedAdmitted c now db now))
    (hlt : ((unkeyed c.queues now db).length : Int) < c.limit)
    (hin : ∀ j ∈ unkeyed c.queues now db, j ∈ batch c now db) :
    GlobalOrder c now db ↔ ∀ b ∈ batch c now db, Overlooked db (batch c now db) b →
      ∀ a ∈ batch c now db, Fits db (batch c now db) a → a.FetchLE b := by
  have htaken := taken_both c now db hfirst hsecond
  have hmem := fun j => mem_passes_iff c now db hlt hin (j := j)
  have hspare : Spare (singlePass c now db) := fun j hj =>
    (List.mem_append.mp ((hmem j).mpr hj)).elim (hfirst j) (hsecond j)
  have hperm : (unkeyedBatch c now db ++ keyedAdmitted c now db now).Perm (singlePass c now db) :=
    (List.perm_ext_iff_of_nodup (passes_nodup c now db now) ((batch_nodup c now db).filter _)).mpr hmem
  have hcount : ∀ b : Job, ((unkeyedBatch c now db ++ keyedAdmitted c now db now).filter
      fun k => k.concurrencyKey = b.concurrencyKey).length = ((batch c now db).filter fun j =>
        j.concurrencyKey = b.concurrencyKey ∧ Fits db (batch c now db) j).length := by
    intro b
    rw [(hperm.filter _).length_eq, singlePass, List.filter_filter]
    simp only [Bool.decide_and]
  rw [globalOrder_iff c now db htaken hlim fun j hj => ((mem_singlePass c now db).mp ((hmem j).mp hj)).1,
    leasedBySingle, if_pos hspare]
  simp only [hmem, hcount, mem_singlePass, iff_self, implies_true, and_true, Overlooked]
  constructor
  · intro h b hb hover a ha hfits
    exact h a ⟨ha, hfits⟩ b hb (fun hboth => hover.1 hboth.2) (.inr hover.2)
  · intro h a ha b hb hout hopen
    have hnot : ¬ Fits db (batch c now db) b := fun hfits => hout ⟨hb, hfits⟩
    exact h b hb ⟨hnot, hopen.resolve_left fun hkey => hnot (.inl hkey)⟩ a ha.1 ha.2

/-- Two passes that lease what one does leave some of the limit to the keyed jobs. -/
theorem fills_of_globalOrder (hlim : 1 ≤ c.limit) (hkeyed : keyed c.queues now db ≠ [])
    (hfirst : Spare (unkeyedBatch c now db)) (hsecond : Spare (keyedAdmitted c now db now))
    (h : GlobalOrder c now db) : ((unkeyed c.queues now db).length : Int) < c.limit ∧
      ∀ j ∈ unkeyed c.queues now db, j ∈ batch c now db := by
  have hin : ∀ j ∈ unkeyedBatch c now db ++ keyedAdmitted c now db now, j ∈ batch c now db := fun j hj =>
    mem_batch_of_leased c now db
      ((taken_iff_leased c now db hlim h).mp (taken_both c now db hfirst hsecond ▸ hj))
  have hle := (List.subperm_of_subset (passes_nodup c now db now) hin).length_le
  have hbatch : (batch c now db).length ≤ c.limit.toNat := List.length_take_le _ _
  obtain ⟨i, hi⟩ := List.exists_mem_of_ne_nil _ hkeyed
  obtain ⟨k, hk⟩ := keyedAdmitted_ne_nil c now hi
  have hpos := List.length_pos_of_mem hk
  have hshort : (unkeyed c.queues now db).length < c.limit.toNat := by
    rw [List.length_append, unkeyedBatch, List.length_take] at hle
    omega
  have hwhole : unkeyedBatch c now db = unkeyed c.queues now db :=
    List.take_of_length_le (Nat.le_of_lt hshort)
  exact ⟨by omega, fun j hj => hin j (List.mem_append_left _ (hwhole ▸ hj))⟩

/-- Both passes go through. -/
theorem globalOrder_both (hlim : 1 ≤ c.limit) (hkeyed : keyed c.queues now db ≠ [])
    (hfirst : Spare (unkeyedBatch c now db)) (hsecond : Spare (keyedAdmitted c now db now)) :
    GlobalOrder c now db ↔
      ((unkeyed c.queues now db).length : Int) < c.limit ∧
        (∀ j ∈ unkeyed c.queues now db, j ∈ batch c now db) ∧
        ∀ b ∈ batch c now db, Overlooked db (batch c now db) b →
          ∀ a ∈ batch c now db, Fits db (batch c now db) a → a.FetchLE b := by
  constructor
  · intro h
    obtain ⟨hlt, hin⟩ := fills_of_globalOrder c now db hlim hkeyed hfirst hsecond h
    exact ⟨hlt, hin, (globalOrder_filled c now db hlim hfirst hsecond hlt hin).mp h⟩
  · intro h
    obtain ⟨hlt, hin, horder⟩ := h
    exact (globalOrder_filled c now db hlim hfirst hsecond hlt hin).mpr horder

/-- Nothing keyed can be leased. -/
theorem globalOrder_unkeyed (hlim : 1 ≤ c.limit) (hkeyed : keyed c.queues now db = [])
    (hfirst : Spare (unkeyedBatch c now db)) : GlobalOrder c now db := by
  have hnone : keyedAdmitted c now db now = [] := by
    rw [keyedAdmitted, keyedBatch, hkeyed, List.take_nil]
    rfl
  have hall : ∀ j ∈ batch c now db, j.concurrencyKey = none := by
    intro j hj
    obtain ⟨hjdb, hdue, hopen⟩ := mem_batch c now db hj
    by_contra hkey
    have hmem : j ∈ keyed c.queues now db := mem_keyed.mpr ⟨hjdb, hdue, hkey, hopen.resolve_left hkey⟩
    exact List.not_mem_nil (hkeyed ▸ hmem)
  refine globalOrder_of_batch c now db hlim hall hfirst ?_
  rw [taken_instant, if_pos hfirst, hnone]
  simp

/-- **A fetch respects the global order**, and leases what one pass would, exactly
if its two passes are aligned. -/
theorem global_order_iff (hlim : 1 ≤ c.limit) : GlobalOrder c now db ↔ Aligned c now db := by
  unfold Aligned
  split
  · next hfirst =>
    by_cases hkeyed : keyed c.queues now db = []
    · exact ⟨fun _ => .inl hkeyed, fun _ => globalOrder_unkeyed c now db hlim hkeyed hfirst⟩
    rw [or_iff_right hkeyed]
    split
    · next hsecond => exact globalOrder_both c now db hlim hkeyed hfirst hsecond
    · next hsecond => exact globalOrder_half c now db hlim hfirst hsecond
  · next hfirst => exact globalOrder_refused c now db hlim hfirst
end

theorem global_order_iff_two : GlobalOrder fetchTwo 1 twoWaiting :=
  (global_order_iff fetchTwo 1 twoWaiting (by decide)).mpr (by unfold Aligned; decide)

/-- A job of low priority, and two urgent ones under two keys. -/
def urgentKeyed : Db :=
  Db.after [.enqueue { task := "report", priority := 9 } 0,
    .enqueue { task := "import", concurrencyKey := some "acme", maxConcurrency := some 1 } 0,
    .enqueue { task := "import", concurrencyKey := some "globex", maxConcurrency := some 1 } 0]

def fetchOne : Call := { queues := ["default"], limit := 1, lease := 30, worker := 7 }

/-- The report is leased, and an urgent job with room on its key is left. -/
theorem report_before_urgent :
    ∃ a ∈ leased urgentKeyed (fetch fetchOne (instant 1) urgentKeyed).2, a.priority = 9 ∧
      ∃ b ∈ urgentKeyed.jobs, b.Due ["default"] 1 ∧
        b ∉ leased urgentKeyed (fetch fetchOne (instant 1) urgentKeyed).2 ∧
        Room (fetch fetchOne (instant 1) urgentKeyed).2 b ∧ b.priority = 0 ∧ ¬ a.FetchLE b := by
  decide

end Gylo.Store.Ordering
