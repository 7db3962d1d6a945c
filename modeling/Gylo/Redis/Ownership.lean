import Gylo.Redis.Workers

/-! # Whose lease it is

The leases are a sorted set of job ids, with no word of who claimed them, and the
calls that settle a job take nothing but its id. So a call by a worker that lost
the job does to the next one's lease what it would have done to its own. -/
namespace Gylo.Redis

open SortedSets

/-- Nothing a lease rests on has changed. -/
structure Kept (id : Int) (s t : Store) : Prop where
  lease : (t.sets .leased).score id = (s.sets .leased).score id
  attempt : t.attempt id = s.attempt id
  payload : t.payload id = s.payload id

/-- What `RENEW` counts for one of the ids it is given. -/
def Op.renewed (id : Int) (s : Store) : Op → Nat
  | .renew ids expires => (Redis.renew (ids.filter (· = id)) expires s).1
  | _ => 0

/-- The call leaves a job alone: it does not name it, or there is no lease to take and,
if it deletes the job, nothing left to delete. -/
def Op.Spares (id : Int) (s : Store) (op : Op) : Prop :=
  id ∈ op.ids → id ∉ s.sets .leased ∧ (id ∈ op.finishes → s.attempt id = none ∧ s.payload id = none)

/-! ## Each call on the leases -/

section
variable {s : Store} {id : Int} {ids : List Int}

theorem score_zrem : ((s.zrem .leased ids).sets .leased).score id =
    if id ∈ ids then none else (s.sets .leased).score id := by
  simp only [Store.zrem, if_true]
  exact ZSet.score_rem_eq ids _ id

/-- Without a lease there is none to take. -/
theorem score_zrem_eq_iff : ((s.zrem .leased ids).sets .leased).score id = (s.sets .leased).score id ↔
    (id ∈ ids → id ∉ s.sets .leased) := by
  rw [score_zrem, ← ZSet.score_eq_none_iff]
  split
  next hid => exact ⟨fun h _ => h.symm, fun h => (h hid).symm⟩
  next hid => exact ⟨fun _ h => absurd h hid, fun _ => rfl⟩

theorem hdel_eq_iff {β : Type} {h : Int → Option β} : hdel ids h id = h id ↔ (id ∈ ids → h id = none) := by
  by_cases hid : id ∈ ids
  · simp [hid, eq_comm]
  · simp [hid]

theorem kept_complete_iff : Kept id s (complete ids s).2 ↔
    (id ∈ ids → id ∉ s.sets .leased ∧ (id ∈ ids → s.attempt id = none ∧ s.payload id = none)) := by
  unfold complete
  split
  next hnil => exact ⟨fun _ h => absurd (hnil ▸ h) List.not_mem_nil, fun _ => ⟨rfl, rfl, rfl⟩⟩
  next =>
    constructor
    · intro h hid
      exact ⟨score_zrem_eq_iff.mp h.lease hid,
        fun _ => ⟨hdel_eq_iff.mp h.attempt hid, hdel_eq_iff.mp h.payload hid⟩⟩
    · intro h
      exact ⟨score_zrem_eq_iff.mpr fun hid => (h hid).1,
        hdel_eq_iff.mpr fun hid => ((h hid).2 hid).1, hdel_eq_iff.mpr fun hid => ((h hid).2 hid).2⟩

theorem kept_abandon_iff : Kept id s (abandon ids s).2 ↔ (id ∈ ids → id ∉ s.sets .leased) := by
  unfold abandon
  split
  next hnil => exact ⟨fun _ h => absurd (hnil ▸ h) List.not_mem_nil, fun _ => ⟨rfl, rfl, rfl⟩⟩
  next => exact ⟨fun h => score_zrem_eq_iff.mp h.lease, fun h => ⟨score_zrem_eq_iff.mpr h, rfl, rfl⟩⟩

/-- Filling a ready set touches no lease. -/
theorem kept_zadd_ready (level : Fin 10) (due : Int) : Kept id s (s.zadd (.ready level) due ids) :=
  ⟨by simp [Store.zadd], rfl, rfl⟩

theorem kept_retry_iff {i priority due : Int} : Kept id s (retry i priority due s) ↔
    (id ∈ [i] → id ∉ s.sets .leased) := by
  have hready : Kept id (s.zrem .leased [i]) (retry i priority due s) := kept_zadd_ready _ due
  constructor
  · intro h
    exact score_zrem_eq_iff.mp (hready.lease.symm.trans h.lease)
  · intro h
    exact ⟨hready.lease.trans (score_zrem_eq_iff.mpr h), rfl, rfl⟩

/-- `RENEW` counts every id that has a lease, whoever asks. -/
theorem renew_count (expires : Int) : ∀ (ids : List Int) (r : Nat × Store),
    (ids.foldl (renewOne expires) r).1 = r.1 + (ids.filter (· ∈ r.2.sets .leased)).length
  | [], r => rfl
  | id :: ids, r => by
    rw [List.foldl_cons, renew_count expires ids]
    simp only [mem_renewOne]
    by_cases hid : id ∈ r.2.sets .leased
    · rw [renewOne, if_pos hid, List.filter_cons_of_pos (by simpa using hid), List.length_cons]
      omega
    · rw [renewOne, if_neg hid, List.filter_cons_of_neg (by simpa using hid)]

theorem renewed_eq_zero_iff {expires : Int} : (Op.renew ids expires).renewed id s = 0 ↔
    (id ∈ ids → id ∉ s.sets .leased) := by
  rw [Op.renewed, renew, renew_count, Nat.zero_add, List.length_eq_zero_iff, List.filter_eq_nil_iff]
  simp only [List.mem_filter, decide_eq_true_eq]
  exact ⟨fun h hid => h id ⟨hid, rfl⟩, fun h i hi => hi.2 ▸ h (hi.2 ▸ hi.1)⟩

theorem kept_renew {expires : Int} (h : id ∈ ids → id ∉ s.sets .leased) :
    Kept id s (renew ids expires s).2 := by
  refine (List.foldlRecOn (motive := fun r : Nat × Store =>
    Kept id s r.2 ∧ (id ∈ r.2.sets .leased ↔ id ∈ s.sets .leased)) ids _
    ⟨⟨rfl, rfl, rfl⟩, Iff.rfl⟩ ?_).1
  intro r hr i hi
  -- `RENEW` leases nothing anew, so an id without a lease is passed over in every round
  refine ⟨?_, mem_renewOne.trans hr.2⟩
  unfold renewOne
  split
  next hleased =>
    have hother : id ≠ i := fun heq => h (heq ▸ hi) (hr.2.mp (heq ▸ hleased))
    refine ⟨?_, hr.1.attempt, hr.1.payload⟩
    rw [← hr.1.lease]
    simp only [Store.zadd, if_true, ZSet.addAll, List.foldl_cons, List.foldl_nil]
    rw [ZSet.score_add, if_neg hother]
  next => exact hr.1

/-- What a call does to a job does not depend on who makes it. -/
theorem kept_apply_iff (op : Op) : (Kept id s (op.apply s) ∧ op.renewed id s = 0) ↔ op.Spares id s := by
  cases op with
  | complete ids => exact (and_iff_left rfl).trans kept_complete_iff
  | discard ids => exact (and_iff_left rfl).trans kept_complete_iff
  | retry i priority due =>
    refine (and_iff_left rfl).trans (kept_retry_iff.trans ?_)
    simp [Op.Spares, Op.ids, Op.finishes]
  | renew ids expires =>
    refine (and_iff_right_of_imp fun h => kept_renew (renewed_eq_zero_iff.mp h)).trans
      (renewed_eq_zero_iff.trans ?_)
    simp [Op.Spares, Op.ids, Op.finishes]
  | abandon ids =>
    refine (and_iff_left rfl).trans (kept_abandon_iff.trans ?_)
    simp [Op.Spares, Op.ids, Op.finishes]
end

/-! ## The next holder's lease -/

/-- `a` had the job once and has lost it; now `b` has it, and the lease is in force. -/
structure Lost (a b : Nat) (id : Int) (s : System) : Prop where
  fetched : id ∈ s.fetched a
  lost : a ∉ s.holders id
  holds : b ∈ s.holders id
  leased : id ∈ s.store.sets .leased

/-- The step leaves the job's lease, counter and payload as they are, and is not told that
it renewed anything. -/
structure Undisturbed (rmp : Rmp) (id : Int) (s : System) (act : Act) : Prop where
  kept : Kept id s.store (step rmp s act).store
  uncounted : ∀ w op, act = .settle w op → s.May w op → op.renewed id s.store = 0

/-- **A worker that lost a job leaves the next holder's lease alone exactly as long as its
calls do not name the job**; the second block of its `abandon` never reaches a
lease. -/
theorem lost_lease_undisturbed {rmp : Rmp} {as : List Act} {a b : Nat} {id : Int}
    (h : Lost a b id (after rmp as)) :
    (∀ op, Undisturbed rmp id (after rmp as) (.settle a op) ↔ ((after rmp as).May a op → id ∉ op.ids)) ∧
      ∀ due, Undisturbed rmp id (after rmp as) (.abandonReady a due) := by
  have hspares : ∀ op : Op, op.Spares id (after rmp as).store ↔ id ∉ op.ids := fun op =>
    ⟨fun hop hid => (hop hid).1 h.leased, fun hid hop => absurd hop hid⟩
  refine ⟨fun op => ?_, fun due => ⟨?_, fun w op heq => by cases heq⟩⟩
  · rw [← hspares, ← kept_apply_iff]
    constructor
    · intro hop hmay
      have hkept := hop.kept
      simp only [step, if_pos hmay] at hkept
      exact ⟨hkept, hop.uncounted a op rfl hmay⟩
    · intro hop
      refine ⟨?_, fun w op' heq hmay => ?_⟩
      · simp only [step]
        split
        next hmay => exact (hop hmay).1
        next => exact ⟨rfl, rfl, rfl⟩
      · cases heq
        exact (hop hmay).2
  · simp only [step]
    split
    next => exact kept_zadd_ready _ due
    next => exact ⟨rfl, rfl, rfl⟩

def another : Stored := { job with id := 2, id_fits := by decide }

/-- The first worker fetches a second job once it has lost the first, and renews that. -/
theorem lost_lease_undisturbed_other :
    Lost 0 1 1 (after .messagePack (lapsed ++ [.enqueue another 0 12] ++ fetches 0 12 22)) ∧
    (after .messagePack (lapsed ++ [.enqueue another 0 12] ++ fetches 0 12 22)).May 0 (.renew [2] 50) ∧
    Undisturbed .messagePack 1 (after .messagePack (lapsed ++ [.enqueue another 0 12] ++ fetches 0 12 22))
      (.settle 0 (.renew [2] 50)) := by
  have hlost : Lost 0 1 1 (after .messagePack (lapsed ++ [.enqueue another 0 12] ++ fetches 0 12 22)) :=
    ⟨by decide, by decide, by decide, by decide⟩
  exact ⟨hlost, by decide, ((lost_lease_undisturbed hlost).1 _).mpr fun _ => by decide⟩

/-- The second worker's lease until 20 is renewed, or gone, by calls of the first one. -/
theorem lost_lease_disturbed :
    Lost 0 1 1 (after .messagePack lapsed) ∧
    (((after .messagePack lapsed).store.sets .leased).score 1 = some 20 ∧
      ((after .messagePack (lapsed ++ [.settle 0 (.renew [1] 50)])).store.sets .leased).score 1 = some 50 ∧
      (renew [1] 50 (after .messagePack lapsed).store).1 = 1) ∧
    1 ∉ (after .messagePack (lapsed ++ [.settle 0 (.complete [1])])).store.sets .leased ∧
    (after .messagePack (lapsed ++ [.settle 0 (.complete [1])])).store.payload 1 = none ∧
    1 ∉ (after .messagePack (lapsed ++ [.settle 0 (.discard [1])])).store.sets .leased ∧
    1 ∉ (after .messagePack (lapsed ++ [.settle 0 (.retry 1 0 15)])).store.sets .leased ∧
    1 ∉ (after .messagePack (lapsed ++ [.settle 0 (.abandon [1])])).store.sets .leased := by
  refine ⟨⟨by decide, by decide, by decide, by decide⟩, ⟨by decide, by decide, by decide⟩, ?_⟩
  exact ⟨by decide, by decide, by decide, by decide, by decide⟩

end Gylo.Redis
