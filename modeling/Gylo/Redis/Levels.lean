import Gylo.Redis.Claim
import Gylo.Redis.Ownership

/-! # The level of a job

A job's level is the name of the ready set it is in and is kept nowhere else, so it is
gone once the job is leased. `RECLAIM` and `abandon` return what they find to `ready:0`,
whatever the priority it was enqueued with. Beside the system stands here, for every
id, the levels it was enqueued at. -/
namespace Gylo.Redis

open SortedSets

/-! ## Where a job was enqueued -/

structure Leveled where
  system : System
  /-- The levels of the calls of `enqueue` that named the id. -/
  homes : Int → List (Fin 10)

namespace Leveled

def opened : Leveled := ⟨Redis.opened, fun _ => []⟩

def enqueues (stored : Stored) (priority : Int) (store : Store) (s : Leveled) : Leveled where
  system := s.system.enqueues stored store
  homes id := if id = stored.id then level priority :: s.homes id else s.homes id

/-- Any id may be enqueued any number of times; a worker names what it fetched. -/
def step (rmp : Rmp) (s : Leveled) : Act → Leveled
  | .enqueue stored priority due =>
    match enqueue rmp stored priority due s.system.store with
    | .ok store => s.enqueues stored priority store
    | .error _ => s
  | a => { s with system := Redis.step rmp s.system a }

def after (rmp : Rmp) (as : List Act) : Leveled := Runs.run (step rmp) opened as

/-- A job waits at levels it was enqueued at. -/
def Faithful (s : Leveled) : Prop :=
  ∀ id l, id ∈ s.system.store.sets (.ready l) → l ∈ s.homes id

/-- Whatever a claim takes while a job that is due stays behind was enqueued at a level
that is not less urgent than the one this job waits at. -/
def InOrder (s : Leveled) : Prop :=
  ∀ now limit expires, ∀ id ∈ (claim now limit expires s.system.store).1,
    ∀ e ∈ s.system.store.queue now, e.id ∉ (claim now limit expires s.system.store).1 →
      ∃ home ∈ s.homes id, home ≤ e.level

/-- Every call but `retry`, which is given a priority of its own. -/
def Recovering : Act → Prop
  | .settle _ (.retry ..) => False
  | _ => True

instance : DecidablePred Recovering
  | .settle _ (.retry ..) => isFalse fun h => h
  | .settle _ (.complete _) | .settle _ (.discard _) | .settle _ (.renew ..) | .settle _ (.abandon _) =>
    isTrue trivial
  | .enqueue .. | .claim .. | .payloads _ | .counters _ | .abandonReady .. | .reclaimExpired .. | .drop _ =>
    isTrue trivial

/-- The jobs that a step returns to the ready sets. -/
def recovers (s : System) : Act → List Int
  | .abandonReady w _ => (s.workers w).givesBack
  | .reclaimExpired limit now => dueBy now limit .leased s.store
  | _ => []

/-- Every job that is returned was enqueued at the most urgent level. -/
def FromFront (s : Leveled) (a : Act) : Prop := ∀ id ∈ recovers s.system a, level 0 ∈ s.homes id

instance (s : Leveled) (a : Act) : Decidable (FromFront s a) :=
  inferInstanceAs (Decidable (∀ id ∈ recovers s.system a, level 0 ∈ s.homes id))

/-! ## What a step puts into the ready sets -/

theorem homes_subset {rmp : Rmp} (s : Leveled) (a : Act) {id : Int} {l : Fin 10} (h : l ∈ s.homes id) :
    l ∈ (step rmp s a).homes id := by
  cases a with
  | enqueue stored priority due =>
    simp only [step]
    split
    next =>
      simp only [enqueues]
      split
      next => exact List.mem_cons_of_mem _ h
      next => exact h
    next => exact h
  | claim w limit now expires => exact h
  | payloads w => exact h
  | counters w => exact h
  | settle w op => exact h
  | abandonReady w due => exact h
  | reclaimExpired limit now => exact h
  | drop w => exact h

theorem mem_ready_of_claim {now expires id : Int} {l : Fin 10} :
    ∀ {levels : List (Fin 10)} {remaining : Nat} {s : Store},
      id ∈ (claimLevels now expires levels remaining s).2.sets (.ready l) → id ∈ s.sets (.ready l)
  | [], _, _, h => h
  | level :: levels, remaining, s, h => by
    unfold claimLevels at h
    split at h
    next => exact h
    next =>
      rcases mem_takeLevel.mp (mem_ready_of_claim h) with hleased | hkept
      · cases hleased.1
      · exact hkept.1

theorem mem_ready_of_apply {op : Op} {w : Nat} (hop : Recovering (.settle w op)) {s : Store} {id : Int}
    {l : Fin 10} (h : id ∈ (op.apply s).sets (.ready l)) : id ∈ s.sets (.ready l) := by
  cases op with
  | complete ids => exact (mem_complete.mp h).1
  | discard ids => exact (mem_complete.mp h).1
  | retry i priority due => exact hop.elim
  | renew ids expires => exact mem_renew.mp h
  | abandon ids => exact (mem_abandon.mp h).1

theorem front_eq : Place.front = .ready (level 0) := rfl

/-- A job in a ready set was there, or the step has returned it to the first one, or has
enqueued it there. -/
theorem mem_ready_step {rmp : Rmp} {s : Leveled} {a : Act} (ha : Recovering a) {id : Int} {l : Fin 10}
    (h : id ∈ (step rmp s a).system.store.sets (.ready l)) :
    id ∈ s.system.store.sets (.ready l) ∨ l = level 0 ∧ id ∈ recovers s.system a ∨
      l ∈ (step rmp s a).homes id := by
  cases a with
  | enqueue stored priority due =>
    simp only [step] at h ⊢
    split at h
    next store hok =>
      rcases ((enqueue_ok hok).1 id (.ready l)).mp h with ⟨hl, hid⟩ | hold
      · cases hl
        refine .inr (.inr ?_)
        simp only [enqueues, if_pos hid]
        exact List.mem_cons_self
      · exact .inl hold
    next => exact .inl h
  | claim w limit now expires =>
    simp only [step, Redis.step] at h
    split at h
    next => exact .inl (mem_ready_of_claim h)
    next => exact .inl h
  | payloads w | counters w =>
    simp only [step, Redis.step] at h
    split at h
    next => exact .inl h
    next => exact .inl h
  | settle w op =>
    simp only [step, Redis.step] at h
    split at h
    next => exact .inl (mem_ready_of_apply ha h)
    next => exact .inl h
  | abandonReady w due =>
    simp only [step, Redis.step] at h
    simp only [recovers]
    split at h
    next ids hw =>
      rw [hw]
      rcases mem_zadd.mp h with ⟨hl, hid⟩ | hold
      · exact .inr (.inl ⟨Place.ready.inj (hl.trans front_eq), hid⟩)
      · exact .inl hold
    next => exact .inl h
  | reclaimExpired limit now =>
    rcases mem_zadd.mp h with ⟨hl, hid⟩ | hold
    · exact .inr (.inl ⟨Place.ready.inj (hl.trans front_eq), hid⟩)
    · exact .inl (mem_zrem.mp hold).1
  | drop w => exact .inl h

theorem Stage.abandoning_of_givesBack {stage : Stage} {id : Int} (h : id ∈ stage.givesBack) :
    ∃ ids, stage = .abandoning ids ∧ id ∈ ids := by
  cases stage with
  | abandoning ids => exact ⟨ids, rfl, h⟩
  | _ => exact absurd h List.not_mem_nil

/-- What a step returns is in the first ready set, and no job was enqueued. -/
theorem recovered (rmp : Rmp) {s : Leveled} {a : Act} {id : Int} (h : id ∈ recovers s.system a) :
    id ∈ (step rmp s a).system.store.sets (.ready (level 0)) ∧ (step rmp s a).homes = s.homes := by
  cases a with
  | abandonReady w due =>
    obtain ⟨ids, hw, hid⟩ := Stage.abandoning_of_givesBack h
    have hstep : Redis.step rmp s.system (.abandonReady w due) = s.system.abandons w ids due := by
      simp only [Redis.step, hw]
    refine ⟨?_, rfl⟩
    show id ∈ (Redis.step rmp s.system (.abandonReady w due)).store.sets (.ready (level 0))
    rw [hstep]
    exact mem_zadd.mpr (.inl ⟨front_eq.symm, hid⟩)
  | reclaimExpired limit now => exact ⟨mem_zadd.mpr (.inl ⟨front_eq.symm, h⟩), rfl⟩
  | enqueue stored priority due => exact absurd h List.not_mem_nil
  | claim w limit now expires => exact absurd h List.not_mem_nil
  | payloads w => exact absurd h List.not_mem_nil
  | counters w => exact absurd h List.not_mem_nil
  | settle w op => exact absurd h List.not_mem_nil
  | drop w => exact absurd h List.not_mem_nil

/-! ## Runs -/

theorem faithful_opened : Faithful opened := fun _ _ h => absurd h (ZSet.not_mem_empty _)

theorem faithful_step (rmp : Rmp) (s : Leveled) (a : Act) (ha : Recovering a) (hs : Faithful s)
    (hfront : FromFront s a) : Faithful (step rmp s a) := by
  intro id l h
  rcases mem_ready_step ha h with hold | ⟨rfl, hid⟩ | hnew
  · exact homes_subset s a (hs id l hold)
  · exact homes_subset s a (hfront id hid)
  · exact hnew

theorem not_faithful_step (rmp : Rmp) (s : Leveled) (a : Act) (hnot : ¬ FromFront s a) :
    ¬ Faithful (step rmp s a) := by
  intro hfaithful
  refine hnot fun id hid => ?_
  obtain ⟨hready, hhomes⟩ := recovered rmp hid
  rw [← hhomes]
  exact hfaithful id _ hready

/-- Levels that are right are taken in the right order. -/
theorem Faithful.inOrder {s : Leveled} (h : Faithful s) : InOrder s := by
  intro now limit expires id hid e he hleft
  have hsplit := List.take_append_drop limit (s.system.store.queue now)
  have hpairs := s.system.store.pairwise_queue now
  rw [claim_eq] at hid hleft
  obtain ⟨first, hfirst, rfl⟩ := List.mem_map.mp hid
  -- what was left is in the part of the queue the claim did not reach
  have hdrop : e ∈ (s.system.store.queue now).drop limit := by
    rw [← hsplit] at he
    exact (List.mem_append.mp he).resolve_left fun htake => hleft (List.mem_map_of_mem htake)
  rw [← hsplit, List.pairwise_append] at hpairs
  have hready := Store.mem_ready_of_dueAt (Store.mem_queue.mp (List.mem_of_mem_take hfirst))
  exact ⟨first.level, h _ _ hready, hpairs.2.2 first hfirst e hdrop⟩

/-- **Recovered jobs keep their level exactly if they were of the most urgent one.** In a run
of any calls but `retry`, every job waits at levels it was enqueued at, throughout,
exactly if each time `reclaim_expired` or `abandon` returns jobs these were enqueued at
level 0; and then no claim takes a job while a more urgent one that is due stays
behind. -/
theorem recovered_jobs_keep_level (rmp : Rmp) {as : List Act} (hall : ∀ a ∈ as, Recovering a) :
    ((∀ n, Faithful (after rmp (as.take n))) ↔ Runs.Along (step rmp) FromFront opened as) ∧
      (Runs.Along (step rmp) FromFront opened as → ∀ n, InOrder (after rmp (as.take n))) := by
  have hiff : (∀ n, Faithful (after rmp (as.take n))) ↔ Runs.Along (step rmp) FromFront opened as :=
    Runs.throughout_iff_of_forall (faithful_step rmp) (fun _ h => h)
      (fun s a _ _ => not_faithful_step rmp s a)
      as hall faithful_opened
  exact ⟨hiff, fun hfront n => (hiff.mpr hfront n).inOrder⟩

/-- A job that was enqueued at level 0 is reclaimed. -/
theorem recovered_jobs_keep_level_front :
    Faithful (after .messagePack lapsed) ∧ InOrder (after .messagePack lapsed) := by
  have hfront : Runs.Along (step .messagePack) FromFront opened lapsed := by decide
  have hall : ∀ a ∈ lapsed, Recovering a := by decide
  have hlevels := recovered_jobs_keep_level .messagePack hall
  exact ⟨hlevels.1.mpr hfront lapsed.length, hlevels.2 hfront lapsed.length⟩

/-- The lease of a job of priority 9 expires while one of priority 5 waits. -/
def inverted : List Act :=
  [.enqueue job 9 0] ++ fetches 0 0 10 ++ [.enqueue another 5 10, .reclaimExpired 1 10]

/-- It is reclaimed at level 0, and the next claim takes it first. -/
theorem reclaimed_job_overtakes :
    (after .messagePack inverted).homes 1 = [level 9] ∧
      1 ∈ (after .messagePack inverted).system.store.sets .front ∧
      (after .messagePack inverted).homes 2 = [level 5] ∧
      (claim 10 1 20 (after .messagePack inverted).system.store).1 = [1] ∧
      ¬ Faithful (after .messagePack inverted) ∧ ¬ InOrder (after .messagePack inverted) := by
  have hready : 1 ∈ (after .messagePack inverted).system.store.sets (.ready (level 0)) := by decide
  have hhomes : (after .messagePack inverted).homes 1 = [level 9] := by decide
  have hclaim : (claim 10 1 20 (after .messagePack inverted).system.store).1 = [1] := by decide
  have hlevels : level 0 ∉ [level 9] := by decide
  refine ⟨hhomes, hready, by decide, hclaim, ?_, ?_⟩
  · intro hfaithful
    have hmem := hfaithful 1 _ hready
    rw [hhomes] at hmem
    exact hlevels hmem
  · intro horder
    have hwaits : ⟨level 5, 10, 2⟩ ∈ (after .messagePack inverted).system.store.queue 10 := by decide
    have hone : (1 : Int) ∈ (claim 10 1 20 (after .messagePack inverted).system.store).1 := by
      rw [hclaim]
      exact List.mem_cons_self
    obtain ⟨home, hhome, hle⟩ := horder 10 1 20 1 hone _ hwaits (by rw [hclaim]; decide)
    rw [hhomes, List.mem_singleton] at hhome
    rw [hhome] at hle
    exact absurd hle (by decide)

end Leveled

end Gylo.Redis
