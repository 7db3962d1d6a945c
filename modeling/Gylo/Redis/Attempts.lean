import Gylo.Redis.Workers
import Mathlib.Data.Finset.Card
import Mathlib.Data.Fintype.Basic

/-! # Attempts on Redis

`CLAIM` counts the attempts of a job in one hash, its limit is part of the record in
another, and no command reads both. A claim takes a job from each ready set it is
in, so the attempts it has had and the ready sets it waits in add up to the attempts
it is bound to have had. A claim keeps that sum; a call that puts a job back into a
ready set, `enqueue` of an id that is in use among them, may add to it. -/
namespace Gylo.Redis

open Gylo.Store (Bytes)
open SortedSets

/-! ## Attempts had and attempts waited for -/

namespace Store

/-- The attempts `CLAIM` has counted. -/
def used (s : Store) (id : Int) : Int := (s.attempt id).getD 0

/-- The levels a job waits in. -/
def waiting (s : Store) (id : Int) : Finset (Fin 10) :=
  Finset.univ.filter fun level => id ∈ s.sets (.ready level)

/-- The attempts a job has had, with one for each level it waits in. -/
def committed (s : Store) (id : Int) : Int := s.used id + (s.waiting id).card

/-- What is kept of the job is a record with this content. -/
def Records (s : Store) (rmp : Rmp) (id : Int) (stored : Stored) : Prop :=
  (s.payload id).bind rmp.decode = some stored

/-- The attempts a job is bound to have had once it is put into a place. -/
def committedIn (s : Store) (p : Place) (id : Int) : Int :=
  if id ∈ s.sets p then s.committed id else s.committed id + 1

theorem mem_waiting {s : Store} {id : Int} {level : Fin 10} :
    level ∈ s.waiting id ↔ id ∈ s.sets (.ready level) := by simp [waiting]

theorem used_le_committed (s : Store) (id : Int) : s.used id ≤ s.committed id := by
  unfold committed
  omega

theorem committed_congr {s t : Store} {id : Int} (hattempt : t.attempt id = s.attempt id)
    (hready : ∀ level, id ∈ t.sets (.ready level) ↔ id ∈ s.sets (.ready level)) :
    t.committed id = s.committed id := by
  unfold committed used waiting
  simp only [hattempt, hready]
end Store

/-! ## A claim -/

section
variable {s : Store} {id : Int}

theorem takeLevel_attempt {level : Fin 10} {expires : Int} {due : List Int} (hdue : due.Nodup) :
    (takeLevel level expires due s).attempt id =
      if id ∈ due then some (s.used id + 1) else s.attempt id := by
  have hlease : ∀ (due : List Int) (s : Store), due.Nodup →
      (due.foldl (fun s i =>
        { s.zadd .leased expires [i] with attempt := hincrby i 1 s.attempt }) s).attempt id =
        if id ∈ due then some (s.used id + 1) else s.attempt id := by
    intro due
    induction due with
    | nil => intro s _; rfl
    | cons i due ih =>
      intro s hnodup
      obtain ⟨hi, hrest⟩ := List.nodup_cons.mp hnodup
      rw [List.foldl_cons, ih _ hrest]
      by_cases hid : id = i
      · rw [if_neg (hid ▸ hi), if_pos (hid ▸ List.mem_cons_self), hid]
        exact hincrby_self i 1 s.attempt
      · have hkeep : hincrby i 1 s.attempt id = s.attempt id := hincrby_of_ne hid
        simp only [Store.used, List.mem_cons, hid, false_or, hkeep]
  exact hlease due _ hdue

/-- What a claim does for the jobs it returns: each has one more attempt and waits in one
level less for each time it is returned. -/
structure Hands (ids : List Int) (s t : Store) : Prop where
  payload : t.payload = s.payload
  used : ∀ id, s.used id ≤ t.used id
  handed : ∀ id ∈ ids, s.used id < t.used id
  committed : ∀ id, t.committed id = s.committed id

theorem Hands.refl (s : Store) : Hands [] s s where
  payload := rfl
  used _ := Int.le_refl _
  handed _ h := absurd h List.not_mem_nil
  committed _ := rfl

theorem Hands.trans {ids ids' : List Int} {s t u : Store} (h : Hands ids s t)
    (h' : Hands ids' t u) : Hands (ids ++ ids') s u where
  payload := h'.payload.trans h.payload
  used id := Int.le_trans (h.used id) (h'.used id)
  handed id hid := by
    rcases List.mem_append.mp hid with hid | hid
    · exact Int.lt_of_lt_of_le (h.handed id hid) (h'.used id)
    · exact Int.lt_of_le_of_lt (h.used id) (h'.handed id hid)
  committed id := (h'.committed id).trans (h.committed id)

theorem takeLevel_committed {level : Fin 10} {expires : Int} {due : List Int} (hnodup : due.Nodup)
    (hdue : ∀ id ∈ due, id ∈ s.sets (.ready level)) (id : Int) :
    (takeLevel level expires due s).committed id = s.committed id := by
  by_cases hid : id ∈ due
  · -- the level it leaves pays for the attempt
    have hwaiting : (takeLevel level expires due s).waiting id = (s.waiting id).erase level := by
      ext l
      rw [Store.mem_waiting, mem_takeLevel, Finset.mem_erase, Store.mem_waiting]
      simp only [hid, and_true, Place.ready.injEq, reduceCtorEq, false_or]
      exact And.comm
    have hcard := Finset.card_erase_add_one (Store.mem_waiting.mpr (hdue id hid))
    unfold Store.committed
    rw [hwaiting]
    simp only [Store.used, takeLevel_attempt hnodup, if_pos hid, Option.getD_some]
    omega
  · refine Store.committed_congr ?_ fun l => ?_
    · rw [takeLevel_attempt hnodup, if_neg hid]
    · rw [mem_takeLevel]
      simp [hid]

theorem takeLevel_hands (level : Fin 10) (expires : Int) {due : List Int} (hnodup : due.Nodup)
    (hdue : ∀ id ∈ due, id ∈ s.sets (.ready level)) :
    Hands due s (takeLevel level expires due s) where
  payload := takeLevel_payload
  used id := by
    simp only [Store.used, takeLevel_attempt hnodup]
    split
    · rw [Option.getD_some]
      omega
    · exact Int.le_refl _
  handed id hid := by
    simp only [Store.used, takeLevel_attempt hnodup, if_pos hid, Option.getD_some]
    omega
  committed := takeLevel_committed hnodup hdue

theorem claimLevels_hands (now expires : Int) : ∀ (levels : List (Fin 10)) (remaining : Nat) (s : Store),
    Hands (claimLevels now expires levels remaining s).1 s (claimLevels now expires levels remaining s).2
  | [], _, s => .refl s
  | level :: levels, remaining, s => by
    unfold claimLevels
    split
    next => exact .refl s
    next =>
      have htake := takeLevel_hands level expires
        (ZSet.nodup_rangeByScore : (dueBy now remaining (.ready level) s).Nodup) fun _ => mem_of_dueBy
      exact htake.trans (claimLevels_hands now expires levels _ _)

theorem claim_hands (now : Int) (limit : Nat) (expires : Int) (s : Store) :
    Hands (claim now limit expires s).1 s (claim now limit expires s).2 :=
  claimLevels_hands now expires _ limit s
end

/-! ## What a fetch returns -/

/-- The job `fetch` makes of a record and a counter. -/
def jobOf (rmp : Rmp) (bytes : Option Bytes) (attempt : Option Int) : Option Job :=
  (bytes.bind rmp.decode).map fun stored =>
    { id := stored.id, task := stored.task, payload := stored.payload,
      attempt := attempt.getD 1, maxAttempts := stored.maxAttempts }

theorem readable_iff {rmp : Rmp} {bytes : Option Bytes} :
    Readable rmp bytes ↔ (bytes.bind rmp.decode).isSome := by
  unfold Readable
  cases bytes with
  | none => simp
  | some b => simp

instance (rmp : Rmp) (bytes : Option Bytes) : Decidable (Readable rmp bytes) :=
  decidable_of_iff' _ readable_iff

theorem map_jobOf_of_assemble {rmp : Rmp} :
    ∀ {xs : List (Int × Option Bytes × Option Int)} {jobs : List Job},
    assemble rmp xs = .ok jobs → xs.map (fun x => jobOf rmp x.2.1 x.2.2) = jobs.map some
  | [], _, h => by
    cases h
    rfl
  | (id, bytes, attempt) :: rest, jobs, h => by
    unfold assemble at h
    split at h
    next => cases h
    next stored hstored =>
      split at h
      next => cases h
      next later hlater =>
        cases h
        rw [List.map_cons, List.map_cons, map_jobOf_of_assemble hlater, jobOf, hstored]
        rfl

theorem zip_zip_map (attempt : Int → Option Int) : ∀ (ids : List Int) (raw : List (Option Bytes)),
    ids.zip (raw.zip (ids.map attempt)) = (ids.zip raw).map fun x => (x.1, x.2, attempt x.1)
  | [], _ => rfl
  | _ :: _, [] => rfl
  | id :: ids, bytes :: raw => congrArg ((id, bytes, attempt id) :: ·) (zip_zip_map attempt ids raw)

/-- A fetch that has read these records goes on to return jobs. -/
def Store.Answers (s : Store) (rmp : Rmp) (ids : List Int) (raw : List (Option Bytes)) : Prop :=
  (∀ id ∈ ids, ∀ n ∈ s.attempt id, Gylo.Store.InSmallint n) ∧ ∀ x ∈ ids.zip raw, Readable rmp x.2

instance (s : Store) (rmp : Rmp) (ids : List Int) (raw : List (Option Bytes)) :
    Decidable (s.Answers rmp ids raw) :=
  inferInstanceAs (Decidable (_ ∧ _))

section
variable {rmp : Rmp} {s : Store} {ids : List Int} {raw : List (Option Bytes)} {jobs : List Job}

theorem fetchResult_of_answers (h : s.Answers rmp ids raw) :
    ∃ jobs, fetchResult rmp ids raw (ids.map s.attempt) = .ok jobs := by
  unfold fetchResult
  rw [if_pos (List.forall_mem_map.mpr h.1), zip_zip_map]
  exact assemble_ok (List.forall_mem_map.mpr h.2)

/-- The jobs a fetch returns are the records it has read with the counters it reads. -/
theorem fetchResult_ok (h : fetchResult rmp ids raw (ids.map s.attempt) = .ok jobs) :
    (∀ id ∈ ids, ∀ n ∈ s.attempt id, Gylo.Store.InSmallint n) ∧
      (ids.zip raw).map (fun x => jobOf rmp x.2 (s.attempt x.1)) = jobs.map some := by
  unfold fetchResult at h
  split at h
  next hcounters =>
    have hjobs := map_jobOf_of_assemble h
    rw [zip_zip_map, List.map_map] at hjobs
    exact ⟨List.forall_mem_map.mp hcounters, hjobs⟩
  next => cases h

theorem exists_job_of_fetchResult (h : fetchResult rmp ids raw (ids.map s.attempt) = .ok jobs)
    {x : Int × Option Bytes} (hx : x ∈ ids.zip raw) :
    ∃ j ∈ jobs, jobOf rmp x.2 (s.attempt x.1) = some j := by
  have hmem := List.mem_map_of_mem (f := fun x => jobOf rmp x.2 (s.attempt x.1)) hx
  rw [(fetchResult_ok h).2] at hmem
  obtain ⟨j, hj, hsome⟩ := List.mem_map.mp hmem
  exact ⟨j, hj, hsome.symm⟩

theorem exists_read_of_fetchResult (h : fetchResult rmp ids raw (ids.map s.attempt) = .ok jobs)
    {j : Job} (hj : j ∈ jobs) : ∃ x ∈ ids.zip raw, jobOf rmp x.2 (s.attempt x.1) = some j := by
  have hmem := List.mem_map_of_mem (f := some) hj
  rw [← (fetchResult_ok h).2] at hmem
  exact List.mem_map.mp hmem

theorem answers_of_fetchResult (h : fetchResult rmp ids raw (ids.map s.attempt) = .ok jobs) :
    s.Answers rmp ids raw := by
  refine ⟨(fetchResult_ok h).1, fun x hx => ?_⟩
  obtain ⟨j, _, hj⟩ := exists_job_of_fetchResult h hx
  obtain ⟨stored, hstored, _⟩ := Option.map_eq_some_iff.mp hj
  rw [readable_iff, hstored]
  rfl

theorem used_le_getD (s : Store) (id : Int) : s.used id ≤ (s.attempt id).getD 1 := by
  unfold Store.used
  cases s.attempt id with
  | none => decide
  | some n => exact Int.le_refl n

theorem getD_eq_used {id : Int} (h : 1 ≤ s.used id) : (s.attempt id).getD 1 = s.used id := by
  unfold Store.used at h ⊢
  cases hcounter : s.attempt id with
  | none =>
    rw [hcounter] at h
    cases h
  | some n => rfl
end

/-! ## Putting jobs back -/

/-- `t` has the jobs of `s` that are named in a level they may not have been in. -/
structure Puts (level : Fin 10) (ids : List Int) (s t : Store) : Prop where
  payload : t.payload = s.payload
  attempt : t.attempt = s.attempt
  ready : ∀ id l, id ∈ t.sets (.ready l) ↔ l = level ∧ id ∈ ids ∨ id ∈ s.sets (.ready l)

namespace Puts

variable {s t : Store} {level : Fin 10} {ids : List Int}

theorem of_zadd (hpayload : t.payload = s.payload) (hattempt : t.attempt = s.attempt)
    (hready : ∀ id l, id ∈ t.sets (.ready l) ↔ id ∈ s.sets (.ready l)) (due : Int) :
    Puts level ids s (t.zadd (.ready level) due ids) where
  payload := hpayload
  attempt := hattempt
  ready id l := by
    rw [mem_zadd, Place.ready.injEq, hready]

/-- `enqueue` also writes the record. -/
theorem enqueue {rmp : Rmp} {stored : Stored} {priority due : Int}
    (h : Redis.enqueue rmp stored priority due s = .ok t) :
    Puts (Redis.level priority) [stored.id]
      { s with payload := hset stored.id (rmp.encode stored) s.payload } t := by
  unfold Redis.enqueue at h
  split at h
  next =>
    cases h
    exact of_zadd rfl rfl (fun _ _ => Iff.rfl) due
  next => cases h

theorem of_zrem_zadd (due : Int) :
    Puts level ids s ((s.zrem .leased ids).zadd (.ready level) due ids) :=
  of_zadd (s := s) (t := s.zrem .leased ids) rfl rfl (fun _ _ => by simp) due

theorem retry (id priority due : Int) :
    Puts (Redis.level priority) [id] s (Redis.retry id priority due s) := of_zrem_zadd due

theorem reclaimExpired (limit : Nat) (now : Int) :
    Puts 0 (dueBy now limit .leased s) s (Redis.reclaimExpired limit now s).2 := of_zrem_zadd now

theorem abandonReady (due : Int) : Puts 0 ids s (Redis.abandonReady ids due s) :=
  of_zadd rfl rfl (fun _ _ => Iff.rfl) due

theorem of_same (hpayload : t.payload = s.payload) (hattempt : t.attempt = s.attempt)
    (hready : ∀ id l, id ∈ t.sets (.ready l) ↔ id ∈ s.sets (.ready l)) : Puts level [] s t where
  payload := hpayload
  attempt := hattempt
  ready id l := by rw [hready]; simp

theorem abandon : Puts level [] s (Redis.abandon ids s).2 :=
  of_same abandon_payload (by unfold Redis.abandon; split <;> rfl) fun _ _ => by rw [mem_abandon]; simp

theorem renew (expires : Int) : Puts level [] s (Redis.renew ids expires s).2 := by
  refine of_same renew_payload ?_ fun _ _ => mem_renew
  refine List.foldlRecOn (motive := fun r : Nat × Store => r.2.attempt = s.attempt) ids _ rfl ?_
  intro r hr i _
  unfold renewOne
  split
  next => exact hr
  next => exact hr

theorem used (h : Puts level ids s t) (id : Int) : t.used id = s.used id := by
  unfold Store.used
  rw [h.attempt]

theorem records (h : Puts level ids s t) {id : Int} {stored : Stored} :
    t.Records rmp id stored ↔ s.Records rmp id stored := by
  unfold Store.Records
  rw [h.payload]

theorem committed_of_mem (h : Puts level ids s t) {id : Int} (hid : id ∈ ids) :
    t.committed id = s.committedIn (.ready level) id := by
  unfold Store.committedIn
  split
  next hold =>
    refine Store.committed_congr (congrFun h.attempt id) fun l => ?_
    rw [h.ready]
    exact or_iff_right_of_imp fun hl => hl.1 ▸ hold
  next hnew =>
    -- the level is new to it
    have hwaiting : t.waiting id = insert level (s.waiting id) := by
      ext l
      rw [Store.mem_waiting, h.ready, Finset.mem_insert, Store.mem_waiting]
      simp only [hid, and_true]
    have hcard : (insert level (s.waiting id)).card = (s.waiting id).card + 1 :=
      Finset.card_insert_of_notMem fun hmem => hnew (Store.mem_waiting.mp hmem)
    unfold Store.committed
    rw [hwaiting, hcard, h.used]
    omega

theorem committed_of_not_mem (h : Puts level ids s t) {id : Int} (hid : id ∉ ids) :
    t.committed id = s.committed id := by
  refine Store.committed_congr (congrFun h.attempt id) fun l => ?_
  rw [h.ready]
  exact or_iff_right fun hl => hid hl.2
end Puts

section
variable {rmp : Rmp} {s t : Store} {stored : Stored} {priority due id : Int}
  (h : enqueue rmp stored priority due s = .ok t)
include h

theorem fits_of_enqueue : (rmp.encode stored).length ≤ bulkLimit := by
  unfold enqueue at h
  split at h
  next hlength => exact hlength
  next => cases h

theorem records_enqueue {st : Stored} :
    t.Records rmp id st ↔ id = stored.id ∧ st = stored ∨ id ≠ stored.id ∧ s.Records rmp id st := by
  obtain ⟨_, hpayload, hdecode⟩ := enqueue_ok h
  unfold Store.Records
  rw [hpayload, hset]
  split
  next hid =>
    rw [Option.bind_some, hdecode, Option.some.injEq, eq_comm]
    simp [hid]
  next hid => simp [hid]
end

/-! ## The limit -/

/-- One server step after the other, with no regard to what was enqueued or fetched
before: an id may be enqueued again, and a worker may name any. -/
def serve (rmp : Rmp) (s : System) : Act → System
  | .enqueue stored priority due =>
    match enqueue rmp stored priority due s.store with
    | .ok store => s.enqueues stored store
    | .error _ => s
  | .settle w op => if s.workers w = .idle then s.settles w op else s
  | a => step rmp s a

/-- What fetches returned is within the limit of each job, and no job waits in more
levels than it has attempts left. -/
structure WithinLimit (rmp : Rmp) (s : System) : Prop where
  returned : ∀ jobs, .ok jobs ∈ s.returned → ∀ j ∈ jobs, 1 ≤ j.attempt ∧ j.attempt ≤ j.maxAttempts
  committed : ∀ {id stored}, s.store.Records rmp id stored → s.store.committed id ≤ stored.maxAttempts

/-- The calls that hand jobs out and put them back. -/
def Listed : Act → Prop
  | .enqueue stored .. => 1 ≤ stored.maxAttempts
  | .settle _ (.complete _) | .settle _ (.discard _) => False
  | _ => True

instance : DecidablePred Listed
  | .enqueue stored .. => inferInstanceAs (Decidable (1 ≤ stored.maxAttempts))
  | .settle _ (.complete _) | .settle _ (.discard _) => isFalse fun h => h
  | .settle _ (.retry ..) | .settle _ (.renew ..) | .settle _ (.abandon _) => isTrue trivial
  | .claim .. | .payloads _ | .counters _ | .abandonReady .. | .reclaimExpired .. | .drop _ =>
    isTrue trivial

/-- Putting a job into a place is no more than it has attempts left for. -/
def Store.Affords (s : Store) (rmp : Rmp) (p : Place) (id : Int) : Prop :=
  ∀ stored, s.Records rmp id stored → s.committedIn p id ≤ stored.maxAttempts

instance (s : Store) (rmp : Rmp) (p : Place) (id : Int) : Decidable (s.Affords rmp p id) :=
  inferInstanceAs (Decidable
    (∀ stored ∈ (s.payload id).bind rmp.decode, s.committedIn p id ≤ stored.maxAttempts))

/-- What the second block of `abandon` puts back. -/
def Stage.givesBack : Stage → List Int
  | .abandoning ids => ids
  | _ => []

def Op.Affords (rmp : Rmp) (s : Store) : Op → Prop
  | .retry id priority _ => s.Affords rmp (.ready (level priority)) id
  | _ => True

instance (rmp : Rmp) (s : Store) : (op : Op) → Decidable (op.Affords rmp s)
  | .retry id priority _ => inferInstanceAs (Decidable (s.Affords rmp (.ready (level priority)) id))
  | .complete _ | .discard _ | .renew _ _ | .abandon _ => isTrue trivial

/-- A record that a fetch has read is still the one that is kept, or its limit is not
below the counter. -/
def Store.Covers (s : Store) (rmp : Rmp) (x : Int × Option Bytes) : Prop :=
  x.2 = s.payload x.1 ∨ ∀ stored ∈ x.2.bind rmp.decode, s.used x.1 ≤ stored.maxAttempts

instance (s : Store) (rmp : Rmp) (x : Int × Option Bytes) : Decidable (s.Covers rmp x) :=
  inferInstanceAs (Decidable (_ ∨ _))

/-- A fetch that is about to return has not been overtaken by another `enqueue`. -/
def Stage.Affords (rmp : Rmp) (s : Store) : Stage → Prop
  | .loaded ids raw => s.Answers rmp ids raw → ∀ x ∈ ids.zip raw, s.Covers rmp x
  | _ => True

instance (rmp : Rmp) (s : Store) : (stage : Stage) → Decidable (stage.Affords rmp s)
  | .loaded ids raw =>
    inferInstanceAs (Decidable (s.Answers rmp ids raw → ∀ x ∈ ids.zip raw, s.Covers rmp x))
  | .idle | .claimed _ | .abandoning _ => isTrue trivial

/-- Each job a call puts into a ready set has attempts left for it, and a fetch that was
overtaken returns no record with fewer attempts than were counted since. -/
def Affords (rmp : Rmp) (s : System) : Act → Prop
  | .enqueue stored priority _ => (rmp.encode stored).length ≤ bulkLimit →
    s.store.committedIn (.ready (level priority)) stored.id ≤ stored.maxAttempts
  | .counters w => (s.workers w).Affords rmp s.store
  | .settle w op => s.workers w = .idle → op.Affords rmp s.store
  | .abandonReady w _ => ∀ id ∈ (s.workers w).givesBack, s.store.Affords rmp .front id
  | .reclaimExpired limit now => ∀ id ∈ dueBy now limit .leased s.store, s.store.Affords rmp .front id
  | _ => True

instance (rmp : Rmp) (s : System) : (a : Act) → Decidable (Affords rmp s a)
  | .enqueue stored priority _ => inferInstanceAs (Decidable ((rmp.encode stored).length ≤ bulkLimit →
    s.store.committedIn (.ready (level priority)) stored.id ≤ stored.maxAttempts))
  | .counters w => inferInstanceAs (Decidable ((s.workers w).Affords rmp s.store))
  | .settle w op => inferInstanceAs (Decidable (s.workers w = .idle → op.Affords rmp s.store))
  | .abandonReady w _ =>
    inferInstanceAs (Decidable (∀ id ∈ (s.workers w).givesBack, s.store.Affords rmp .front id))
  | .reclaimExpired limit now =>
    inferInstanceAs (Decidable (∀ id ∈ dueBy now limit .leased s.store, s.store.Affords rmp .front id))
  | .claim .. | .payloads _ | .drop _ => isTrue trivial

/-! ## What keeps it -/

/-- What a fetch has claimed. -/
def Stage.taken : Stage → List Int
  | .claimed ids | .loaded ids _ => ids
  | .idle | .abandoning _ => []

/-- The limit with what it rests on. -/
structure Counted (rmp : Rmp) (s : System) : Prop extends WithinLimit rmp s where
  used_nonneg : ∀ id, 0 ≤ s.store.used id
  taken : ∀ w, ∀ id ∈ (s.workers w).taken, 1 ≤ s.store.used id

theorem counted_opened (rmp : Rmp) : Counted rmp opened where
  returned _ h := absurd h List.not_mem_nil
  committed h := by cases h
  used_nonneg _ := Int.le_refl 0
  taken _ _ h := absurd h List.not_mem_nil

namespace Counted

variable {rmp : Rmp} {s t : System}

/-- A step that takes no attempt back. -/
theorem evolves (h : Counted rmp s) (hused : ∀ id, s.store.used id ≤ t.store.used id)
    (hcommitted : ∀ {id stored}, t.store.Records rmp id stored →
      t.store.committed id ≤ stored.maxAttempts)
    (hreturned : ∀ jobs, .ok jobs ∈ t.returned → .ok jobs ∈ s.returned ∨
      ∀ j ∈ jobs, 1 ≤ j.attempt ∧ j.attempt ≤ j.maxAttempts)
    (htaken : ∀ w, ∀ id ∈ (t.workers w).taken, id ∈ (s.workers w).taken ∨ 1 ≤ t.store.used id) :
    Counted rmp t where
  returned jobs hjobs := (hreturned jobs hjobs).elim (h.returned jobs) fun hnew => hnew
  committed := hcommitted
  used_nonneg id := Int.le_trans (h.used_nonneg id) (hused id)
  taken w id hid := by
    rcases htaken w id hid with hold | hnew
    · exact Int.le_trans (h.taken w id hold) (hused id)
    · exact hnew

theorem taken_update {store : Store} {w : Nat} {next : Stage}
    (hnext : ∀ id ∈ next.taken, 1 ≤ store.used id) (w' : Nat) :
    ∀ id ∈ (Function.update s.workers w next w').taken,
      id ∈ (s.workers w').taken ∨ 1 ≤ store.used id := by
  intro id hid
  by_cases hw : w' = w
  · rw [hw, Function.update_self] at hid
    exact .inr (hnext id hid)
  · rw [Function.update_of_ne hw] at hid
    exact .inl hid

/-- A call that returns, with nothing claimed. -/
theorem taken_none {store : Store} {w : Nat} {next : Stage} (hnext : next.taken = []) (w' : Nat) :
    ∀ id ∈ (Function.update s.workers w next w').taken, id ∈ (s.workers w').taken ∨ 1 ≤ store.used id :=
  taken_update (fun _ hid => absurd (hnext ▸ hid) List.not_mem_nil) w'

/-- A step that changes no more than where a worker is. -/
theorem moves (h : Counted rmp s) {w : Nat} {next : Stage}
    (hnext : ∀ id ∈ next.taken, 1 ≤ s.store.used id) :
    Counted rmp { s with workers := Function.update s.workers w next } :=
  h.evolves (fun _ => Int.le_refl _) h.committed (fun _ => .inl) (taken_update hnext)

theorem drops (h : Counted rmp s) (w : Nat) : Counted rmp (s.drops w) :=
  h.moves fun _ hid => absurd hid List.not_mem_nil

theorem loads (h : Counted rmp s) {w : Nat} {ids : List Int} (hw : s.workers w = .claimed ids) :
    Counted rmp (s.loads w ids) := by
  have htaken := h.taken w
  rw [hw] at htaken
  exact h.moves htaken

theorem enqueues (h : Counted rmp s) {stored : Stored} {priority due : Int} {store : Store}
    (haffords : s.store.committedIn (.ready (level priority)) stored.id ≤ stored.maxAttempts)
    (hok : enqueue rmp stored priority due s.store = .ok store) :
    Counted rmp (s.enqueues stored store) := by
  have hput := Puts.enqueue hok
  refine h.evolves (fun id => Int.le_of_eq (hput.used id).symm) ?_ (fun _ => .inl) (fun _ _ => .inl)
  intro id st hst
  rcases (records_enqueue hok).mp hst with ⟨hid, hst⟩ | ⟨hid, hst⟩
  · rw [hid, hst]
    exact Int.le_trans (Int.le_of_eq (hput.committed_of_mem List.mem_cons_self)) haffords
  · exact Int.le_trans (Int.le_of_eq (hput.committed_of_not_mem (by simpa using hid))) (h.committed hst)

theorem claims (h : Counted rmp s) (w : Nat) (limit : Nat) (now expires : Int) :
    Counted rmp (s.claims w (claim now limit expires s.store)) := by
  have hhands := claim_hands now limit expires s.store
  revert hhands
  generalize claim now limit expires s.store = r
  intro hhands
  refine h.evolves (t := s.claims w r) hhands.used ?_ ?_ (taken_update ?_)
  · intro id stored hrecord
    unfold Store.Records at hrecord
    rw [show (s.claims w r).store.payload = s.store.payload from hhands.payload] at hrecord
    exact Int.le_trans (Int.le_of_eq (hhands.committed id)) (h.committed hrecord)
  · intro jobs hjobs
    dsimp only [System.claims] at hjobs
    split at hjobs
    · rcases List.mem_cons.mp hjobs with hnew | hold
      · cases hnew
        exact .inr fun _ hj => absurd hj List.not_mem_nil
      · exact .inl hold
    · exact .inl hjobs
  · split
    · exact fun _ hid => absurd hid List.not_mem_nil
    · exact fun id hid => Int.lt_of_le_of_lt (h.used_nonneg id) (hhands.handed id hid)

/-- A job that a fetch returns is within its limit. -/
theorem job_within (h : Counted rmp s) {w : Nat} {ids : List Int} {raw : List (Option Bytes)}
    (hw : s.workers w = .loaded ids raw) (haffords : (Stage.loaded ids raw).Affords rmp s.store)
    {jobs : List Job} (hjobs : fetchResult rmp ids raw (ids.map s.store.attempt) = .ok jobs) {j : Job}
    (hj : j ∈ jobs) : 1 ≤ j.attempt ∧ j.attempt ≤ j.maxAttempts := by
  have htaken := h.taken w
  rw [hw] at htaken
  obtain ⟨x, hx, hread⟩ := exists_read_of_fetchResult hjobs hj
  obtain ⟨stored, hstored, rfl⟩ := Option.map_eq_some_iff.mp hread
  have hused : 1 ≤ s.store.used x.1 := htaken x.1 (List.of_mem_zip hx).1
  dsimp only
  rw [getD_eq_used hused]
  refine ⟨hused, ?_⟩
  rcases haffords (answers_of_fetchResult hjobs) x hx with hsame | hcovers
  · rw [hsame] at hstored
    exact Int.le_trans (s.store.used_le_committed x.1) (h.committed hstored)
  · exact hcovers stored hstored

theorem returns (h : Counted rmp s) {w : Nat} {ids : List Int} {raw : List (Option Bytes)}
    (hw : s.workers w = .loaded ids raw) (haffords : (Stage.loaded ids raw).Affords rmp s.store) :
    Counted rmp (s.returns w (fetchResult rmp ids raw (ids.map s.store.attempt))) := by
  refine h.evolves (fun _ => Int.le_refl _) h.committed ?_ (taken_none rfl)
  intro jobs hjobs
  rcases List.mem_cons.mp hjobs with hnew | hold
  · exact .inr fun j hj => h.job_within hw haffords hnew.symm hj
  · exact .inl hold

/-- A call that puts jobs back. -/
theorem puts (h : Counted rmp s) {level : Fin 10} {ids : List Int}
    (hput : Puts level ids s.store t.store)
    (haffords : ∀ id ∈ ids, s.store.Affords rmp (.ready level) id) (hreturned : t.returned = s.returned)
    (htaken : ∀ w, ∀ id ∈ (t.workers w).taken, id ∈ (s.workers w).taken ∨ 1 ≤ t.store.used id) :
    Counted rmp t := by
  refine h.evolves (fun id => Int.le_of_eq (hput.used id).symm) ?_ (fun _ => hreturned ▸ .inl) htaken
  intro id stored hrecord
  rw [hput.records] at hrecord
  by_cases hid : id ∈ ids
  · rw [hput.committed_of_mem hid]
    exact haffords id hid stored hrecord
  · rw [hput.committed_of_not_mem hid]
    exact h.committed hrecord

theorem abandons (h : Counted rmp s) (w : Nat) {ids : List Int} (due : Int)
    (haffords : ∀ id ∈ ids, s.store.Affords rmp .front id) : Counted rmp (s.abandons w ids due) :=
  h.puts (t := s.abandons w ids due) (.abandonReady due) haffords rfl (taken_none rfl)

theorem reclaims (h : Counted rmp s) {limit : Nat} {now : Int}
    (haffords : ∀ id ∈ dueBy now limit .leased s.store, s.store.Affords rmp .front id) :
    Counted rmp (s.reclaims limit now) :=
  h.puts (t := s.reclaims limit now) (.reclaimExpired limit now) haffords rfl fun _ _ => .inl

theorem settles (h : Counted rmp s) {w : Nat} {op : Op} (hlisted : Listed (.settle w op))
    (haffords : op.Affords rmp s.store) : Counted rmp (s.settles w op) := by
  have hnone : ∀ id ∈ ([] : List Int), s.store.Affords rmp .front id :=
    fun _ hid => absurd hid List.not_mem_nil
  cases op with
  | complete ids => exact hlisted.elim
  | discard ids => exact hlisted.elim
  | retry id priority due =>
    exact h.puts (t := s.settles w (.retry id priority due)) (.retry id priority due)
      (List.forall_mem_singleton.mpr haffords) rfl (taken_none rfl)
  | renew ids expires =>
    exact h.puts (t := s.settles w (.renew ids expires)) (.renew expires) hnone rfl (taken_none rfl)
  | abandon ids =>
    refine h.puts (t := s.settles w (.abandon ids)) .abandon hnone rfl (taken_none ?_)
    dsimp only [Op.next]
    split
    · rfl
    · rfl
end Counted

theorem counted_serve {rmp : Rmp} {s : System} (a : Act) (hlisted : Listed a) (h : Counted rmp s)
    (ha : Affords rmp s a) : Counted rmp (serve rmp s a) := by
  cases a with
  | enqueue stored priority due =>
    simp only [serve]
    split
    next store hok => exact h.enqueues (ha (fits_of_enqueue hok)) hok
    next => exact h
  | claim w limit now expires =>
    simp only [serve, step]
    split
    next => exact h.claims w limit now expires
    next => exact h
  | payloads w =>
    simp only [serve, step]
    split
    next ids hw => exact h.loads hw
    next => exact h
  | counters w =>
    simp only [serve, step]
    split
    next ids raw hw =>
      simp only [Affords, hw] at ha
      exact h.returns hw ha
    next => exact h
  | settle w op =>
    simp only [serve]
    split
    next hidle => exact h.settles hlisted (ha hidle)
    next => exact h
  | abandonReady w due =>
    simp only [serve, step]
    split
    next ids hw =>
      simp only [Affords, hw] at ha
      exact h.abandons w due ha
    next => exact h
  | reclaimExpired limit now => exact h.reclaims ha
  | drop w => exact h.drops w

/-! ## What breaks it -/

/-- A job put back without an attempt left is bound to have one too many. -/
theorem not_withinLimit_of_puts {rmp : Rmp} {s t : System} {level : Fin 10} {ids : List Int}
    (hput : Puts level ids s.store t.store) {id : Int} (hid : id ∈ ids)
    (hnot : ¬ s.store.Affords rmp (.ready level) id) : ¬ WithinLimit rmp t := by
  intro hwithin
  refine hnot fun stored hstored => ?_
  rw [← hput.committed_of_mem hid]
  exact hwithin.committed (hput.records.mpr hstored)

/-- So is one that is enqueued again with too low a limit. -/
theorem not_withinLimit_of_enqueue {rmp : Rmp} {s : System} {stored : Stored} {priority due : Int}
    {store : Store}
    (hok : enqueue rmp stored priority due s.store = .ok store)
    (hnot : ¬ s.store.committedIn (.ready (level priority)) stored.id ≤ stored.maxAttempts) :
    ¬ WithinLimit rmp (s.enqueues stored store) := by
  intro hwithin
  have hrecord : store.Records rmp stored.id stored := (records_enqueue hok).mpr (.inl ⟨rfl, rfl⟩)
  have hput := (Puts.enqueue hok).committed_of_mem List.mem_cons_self
  exact hnot (Int.le_trans (Int.le_of_eq hput.symm) (hwithin.committed hrecord))

/-- The record is older than the counter. -/
theorem not_withinLimit_of_returns {rmp : Rmp} {s : System} {w : Nat} {ids : List Int}
    {raw : List (Option Bytes)}
    (hnot : ¬ (Stage.loaded ids raw).Affords rmp s.store) :
    ¬ WithinLimit rmp (s.returns w (fetchResult rmp ids raw (ids.map s.store.attempt))) := by
  intro hwithin
  refine hnot fun hanswers x hx => .inr fun stored hstored => ?_
  obtain ⟨jobs, hjobs⟩ := fetchResult_of_answers hanswers
  obtain ⟨j, hj, hread⟩ := exists_job_of_fetchResult hjobs hx
  obtain ⟨stored', hstored', rfl⟩ := Option.map_eq_some_iff.mp hread
  obtain rfl : stored' = stored := Option.some.inj (hstored'.symm.trans hstored)
  have hle := (hwithin.returned jobs (hjobs ▸ List.mem_cons_self) _ hj).2
  exact Int.le_trans (used_le_getD s.store x.1) hle

theorem not_withinLimit_serve {rmp : Rmp} {s : System} (a : Act) (hnot : ¬ Affords rmp s a) :
    ¬ WithinLimit rmp (serve rmp s a) := by
  cases a with
  | claim _ _ _ _ | payloads _ | drop _ => exact absurd trivial hnot
  | enqueue stored priority due =>
    obtain ⟨hlength, hnot⟩ := Classical.not_imp.mp hnot
    simp only [serve]
    split
    next store hok => exact not_withinLimit_of_enqueue hok hnot
    next hrefused =>
      rw [enqueue, if_pos hlength] at hrefused
      cases hrefused
  | counters w =>
    cases hw : s.workers w with
    | loaded ids raw =>
      simp only [Affords, hw] at hnot
      simp only [serve, step, hw]
      exact not_withinLimit_of_returns hnot
    | idle | claimed _ | abandoning _ =>
      simp only [Affords, hw] at hnot
      exact absurd trivial hnot
  | settle w op =>
    obtain ⟨hidle, hop⟩ := Classical.not_imp.mp hnot
    rw [serve, if_pos hidle]
    cases op with
    | complete _ | discard _ | renew _ _ | abandon _ => exact absurd trivial hop
    | retry id priority due =>
      exact not_withinLimit_of_puts (t := s.settles w (.retry id priority due))
        (.retry id priority due) (List.mem_singleton.mpr rfl) hop
  | abandonReady w due =>
    simp only [Affords, not_forall] at hnot
    obtain ⟨id, hid, hnot⟩ := hnot
    cases hw : s.workers w with
    | abandoning ids =>
      rw [hw] at hid
      simp only [serve, step, hw]
      exact not_withinLimit_of_puts (t := s.abandons w ids due) (.abandonReady due) hid hnot
    | idle | claimed _ | loaded _ _ =>
      rw [hw] at hid
      exact absurd hid List.not_mem_nil
  | reclaimExpired limit now =>
    simp only [Affords, not_forall] at hnot
    obtain ⟨id, hid, hnot⟩ := hnot
    exact not_withinLimit_of_puts (t := s.reclaims limit now) (.reclaimExpired limit now) hid hnot

/-- **A run of `enqueue`, `fetch`, `retry`, `abandon` and `reclaim_expired` keeps every
job within its limit exactly if no call puts a job into a ready set for which it has no
attempt left**, and no fetch returns a record that has been replaced since it was read
and whose limit the counter has passed. -/
theorem attempts_within_limit_iff (rmp : Rmp) (as : List Act) (hlisted : ∀ a ∈ as, Listed a) :
    (∀ n, WithinLimit rmp (Runs.run (serve rmp) opened (as.take n))) ↔
      Runs.Along (serve rmp) (Affords rmp) opened as :=
  Runs.throughout_iff_of_forall (fun _ a hlisted h ha => counted_serve a hlisted h ha)
    (fun _ h => h.toWithinLimit) (fun _ a _ _ hnot => not_withinLimit_serve a hnot) as hlisted
    (counted_opened rmp)

theorem one_inSmallint : Gylo.Store.InSmallint 1 := by decide

/-- A job that has one attempt. -/
def lastTry : Stored := { job with maxAttempts := 1, maxAttempts_fits := one_inSmallint }

theorem attempts_within_limit_iff_lapsed :
    Runs.Along (serve .messagePack) (Affords .messagePack) opened lapsed ∧
      ∀ n, WithinLimit .messagePack (Runs.run (serve .messagePack) opened (lapsed.take n)) := by
  have halong : Runs.Along (serve .messagePack) (Affords .messagePack) opened lapsed := by decide
  exact ⟨halong, (attempts_within_limit_iff .messagePack lapsed (by decide)).mpr halong⟩

/-- The worker's lease on the only attempt expires, and the next worker's fetch returns
the job with its second. -/
theorem exhausted_handed_out :
    1 ≤ lastTry.maxAttempts ∧
      (Runs.run (serve .messagePack) opened ([.enqueue lastTry 0 0] ++ fetches 0 0 10 ++
        [.reclaimExpired 1 10] ++ fetches 1 10 20)).returned.head? =
          some (.ok [⟨1, "mail.send", [], 2, 1, false⟩]) := by
  decide
end Gylo.Redis
