import Gylo.Redis.Attempts

/-! # The most urgent jobs

`CLAIM` goes through the ready sets one after the other, each time with what is left
of its limit. Here the ten sets are one queue, ordered by level, then by when a job is
due, then by the text of its id, and a claim takes the first jobs of that queue. -/
namespace Gylo.Redis

open SortedSets

/-! ## The queue -/

/-- A job that waits in a ready set. -/
structure Entry where
  level : Fin 10
  due : Int
  id : Int
deriving DecidableEq

namespace Entry

def Precedes (a b : Entry) : Prop :=
  a.level < b.level ∨ a.level = b.level ∧ (a.due < b.due ∨ a.due = b.due ∧ before a.id b.id)

instance : DecidableRel Precedes := fun _ _ => instDecidableOr

end Entry

namespace Store

/-- The jobs of one level that are due. -/
def dueAt (s : Store) (now : Int) (level : Fin 10) : List Entry :=
  ((s.sets (.ready level)).entries.filter fun e => e.2 ≤ now).map fun e => ⟨level, e.2, e.1⟩

/-- The jobs of all levels that are due, the most urgent first. -/
def queue (s : Store) (now : Int) : List Entry :=
  ((List.finRange 10).flatMap (s.dueAt now)).insertionSort Entry.Precedes

theorem level_of_mem_dueAt {s : Store} {now : Int} {level : Fin 10} {e : Entry}
    (h : e ∈ s.dueAt now level) : e.level = level := by
  obtain ⟨entry, -, rfl⟩ := List.mem_map.mp h
  rfl

/-- The order of the queue has the levels as its blocks. -/
theorem queue_eq (s : Store) (now : Int) :
    s.queue now = (List.finRange 10).flatMap fun level => (s.dueAt now level).insertionSort Entry.Precedes := by
  refine insertionSort_flatMap Entry.Precedes (s.dueAt now) ?_
  refine (List.pairwise_lt_finRange 10).imp ?_
  intro level level' hlt a ha b hb
  refine .inl ?_
  rw [level_of_mem_dueAt ha, level_of_mem_dueAt hb]
  exact hlt

theorem mem_queue {s : Store} {now : Int} {e : Entry} :
    e ∈ s.queue now ↔ e ∈ s.dueAt now e.level := by
  rw [queue, List.mem_insertionSort, List.mem_flatMap]
  constructor
  · intro h
    obtain ⟨level, -, he⟩ := h
    rw [level_of_mem_dueAt he]
    exact he
  · exact fun h => ⟨e.level, List.mem_finRange _, h⟩

theorem mem_ready_of_dueAt {s : Store} {now : Int} {level : Fin 10} {e : Entry}
    (h : e ∈ s.dueAt now level) : e.id ∈ s.sets (.ready level) := by
  obtain ⟨entry, hentry, rfl⟩ := List.mem_map.mp h
  exact ZSet.mem_def.mpr ⟨entry.2, (List.mem_filter.mp hentry).1⟩

/-- Nothing in the queue is behind a job of a less urgent level. -/
theorem pairwise_queue (s : Store) (now : Int) :
    (s.queue now).Pairwise fun a b => a.level ≤ b.level := by
  have hlevel : ∀ {level e}, e ∈ (s.dueAt now level).insertionSort Entry.Precedes → e.level = level :=
    fun he => level_of_mem_dueAt ((List.mem_insertionSort _).mp he)
  rw [s.queue_eq, List.pairwise_flatMap]
  constructor
  · intro level _
    refine List.pairwise_of_forall_mem_list fun a ha b hb => ?_
    rw [hlevel ha, hlevel hb]
  · refine (List.pairwise_lt_finRange 10).imp ?_
    intro level level' hlt a ha b hb
    rw [hlevel ha, hlevel hb]
    exact Fin.le_of_lt hlt

/-- Within a level the order is the one `ZRANGEBYSCORE` has. -/
theorem dueBy_eq (s : Store) (now : Int) (count : Nat) (level : Fin 10) :
    dueBy now count (.ready level) s =
      (((s.dueAt now level).insertionSort Entry.Precedes).take count).map Entry.id := by
  have hsort : (s.dueAt now level).insertionSort Entry.Precedes =
      (((s.sets (.ready level)).entries.filter fun e => e.2 ≤ now).insertionSort fun e e' =>
        e.2 < e'.2 ∨ e.2 = e'.2 ∧ before e.1 e'.1).map fun e => ⟨level, e.2, e.1⟩ := by
    refine (List.map_insertionSort _ _ _ _ fun e _ e' _ => ?_).symm
    simp only [Entry.Precedes, lt_self_iff_false, true_and, false_or]
  rw [hsort, ← List.map_take, List.map_map]
  rfl

end Store

/-! ## What a claim changes -/

section
variable {s t u : Store} {level : Fin 10} {expires : Int} {due : List Int}

theorem takeLevel_ready (l : Fin 10) :
    (takeLevel level expires due s).sets (.ready l) =
      if l = level then (s.sets (.ready l)).rem due else s.sets (.ready l) := by
  have hlease : (takeLevel level expires due s).sets (.ready l) =
      (s.zrem (.ready level) due).sets (.ready l) := by
    refine List.foldlRecOn (motive := fun t : Store =>
      t.sets (.ready l) = (s.zrem (.ready level) due).sets (.ready l)) due _ rfl ?_
    intro t ht i _
    exact ht
  rw [hlease]
  by_cases hl : l = level
  · simp [Store.zrem, hl]
  · simp [Store.zrem, hl]

theorem takeLevel_leased (id : Int) :
    ((takeLevel level expires due s).sets .leased).score id =
      if id ∈ due then some expires else (s.sets .leased).score id := by
  have hlease : ∀ (due : List Int) (s : Store),
      ((due.foldl (fun s i =>
        { s.zadd .leased expires [i] with attempt := hincrby i 1 s.attempt }) s).sets .leased).score id =
        if id ∈ due then some expires else (s.sets .leased).score id := by
    intro due
    induction due with
    | nil => intro s; rfl
    | cons i due ih =>
      intro s
      have hhead : ((s.zadd .leased expires [i]).sets .leased).score id =
          if id = i then some expires else (s.sets .leased).score id := ZSet.score_add i id expires _
      rw [List.foldl_cons, ih]
      show (if id ∈ due then _ else ((s.zadd .leased expires [i]).sets .leased).score id) = _
      rw [hhead]
      by_cases hid : id = i
      · simp [hid]
      · simp [hid]
  exact hlease due _

/-- Nobody waits in two ready sets. -/
def Store.OneLevel (s : Store) : Prop :=
  ∀ ⦃id : Int⦄ ⦃l l' : Fin 10⦄, id ∈ s.sets (.ready l) → id ∈ s.sets (.ready l') → l = l'

/-- From `s` to `t` these jobs have left the ready sets for the leases, each with one
more attempt, and nothing else has changed. -/
structure Leases (ids : List Int) (expires : Int) (s t : Store) : Prop where
  ready : ∀ l id, (t.sets (.ready l)).score id =
    if id ∈ ids then none else (s.sets (.ready l)).score id
  leased : ∀ id, (t.sets .leased).score id =
    if id ∈ ids then some expires else (s.sets .leased).score id
  attempt : ∀ id, t.attempt id = if id ∈ ids then some (s.used id + 1) else s.attempt id
  payload : t.payload = s.payload

namespace Leases

theorem refl (expires : Int) (s : Store) : Leases [] expires s s where
  ready _ _ := rfl
  leased _ := rfl
  attempt _ := rfl
  payload := rfl

theorem mem_ready {ids : List Int} (h : Leases ids expires s t) {id : Int} {l : Fin 10} :
    id ∈ t.sets (.ready l) ↔ id ∉ ids ∧ id ∈ s.sets (.ready l) := by
  have hscore := h.ready l id
  rw [← not_iff_not, ← ZSet.score_eq_none_iff, hscore]
  by_cases hid : id ∈ ids
  · simp [hid]
  · rw [if_neg hid, ZSet.score_eq_none_iff]
    tauto

theorem oneLevel {ids : List Int} (h : Leases ids expires s t) (hs : s.OneLevel) : t.OneLevel :=
  fun _ _ _ hl hl' => hs (h.mem_ready.mp hl).2 (h.mem_ready.mp hl').2

theorem trans {ids ids' : List Int} (h : Leases ids expires s t) (h' : Leases ids' expires t u)
    (hnew : ∀ id ∈ ids', id ∉ ids) : Leases (ids ++ ids') expires s u where
  ready l id := by
    rw [h'.ready, h.ready]
    by_cases hid : id ∈ ids <;> simp [hid]
  leased id := by
    rw [h'.leased, h.leased]
    by_cases hid : id ∈ ids <;> simp [hid]
  attempt id := by
    rw [h'.attempt, Store.used, h.attempt]
    by_cases hid' : id ∈ ids'
    · simp [hid', hnew id hid', Store.used]
    · simp [hid']
  payload := h'.payload.trans h.payload
end Leases

theorem takeLevel_leases (hs : s.OneLevel) (hnodup : due.Nodup)
    (hdue : ∀ id ∈ due, id ∈ s.sets (.ready level)) :
    Leases due expires s (takeLevel level expires due s) where
  ready l id := by
    rw [takeLevel_ready]
    split
    next hl => exact ZSet.score_rem_eq due _ id
    next hl =>
      -- the job of another level is in that level alone
      split
      next hid => exact ZSet.score_eq_none_iff.mpr fun hmem => hl (hs hmem (hdue id hid))
      next => rfl
  leased := takeLevel_leased
  attempt _ := takeLevel_attempt hnodup
  payload := takeLevel_payload

theorem mem_ready_of_claimLevels {now : Int} {id : Int} : ∀ {levels : List (Fin 10)} {remaining : Nat}
    {s : Store}, id ∈ (claimLevels now expires levels remaining s).1 → ∃ l, id ∈ s.sets (.ready l)
  | [], _, _, h => absurd h List.not_mem_nil
  | level :: levels, remaining, s, h => by
    unfold claimLevels at h
    split at h
    next => exact absurd h List.not_mem_nil
    next =>
      rcases List.mem_append.mp h with h | h
      · exact ⟨level, mem_of_dueBy h⟩
      · obtain ⟨l, hl⟩ := mem_ready_of_claimLevels h
        rw [takeLevel_ready] at hl
        split at hl
        · exact ⟨l, (ZSet.mem_rem.mp hl).1⟩
        · exact ⟨l, hl⟩

theorem claimLevels_leases (now : Int) : ∀ (levels : List (Fin 10)) (remaining : Nat) {s : Store},
    s.OneLevel → Leases (claimLevels now expires levels remaining s).1 expires s
      (claimLevels now expires levels remaining s).2
  | [], _, s, _ => .refl expires s
  | level :: levels, remaining, s, hs => by
    unfold claimLevels
    split
    next => exact .refl expires s
    next =>
      have htake : Leases (dueBy now remaining (.ready level) s) expires s _ :=
        takeLevel_leases hs ZSet.nodup_rangeByScore fun _ => mem_of_dueBy
      refine htake.trans (claimLevels_leases now levels _ (htake.oneLevel hs)) ?_
      intro id hid
      obtain ⟨l, hl⟩ := mem_ready_of_claimLevels hid
      exact (htake.mem_ready.mp hl).1
end

/-! ## What a claim returns -/

/-- The rounds of a claim return a beginning of what its levels have due. -/
theorem claimLevels_takes (now expires : Int) : ∀ {levels : List (Fin 10)} (remaining : Nat) (s : Store),
    levels.Nodup → (claimLevels now expires levels remaining s).1 =
      ((levels.flatMap fun l => (s.dueAt now l).insertionSort Entry.Precedes).take remaining).map Entry.id
  | [], _, _, _ => by
    rw [List.flatMap_nil, List.take_nil]
    rfl
  | level :: levels, remaining, s, hnodup => by
    obtain ⟨hlevel, hlevels⟩ := List.nodup_cons.mp hnodup
    unfold claimLevels
    split
    next hzero =>
      rw [hzero, List.take_zero]
      rfl
    next =>
      -- the round leaves the ready sets of the levels below as they were
      have hbelow : ∀ l ∈ levels,
          ((takeLevel level expires (dueBy now remaining (.ready level) s) s).dueAt now l) =
            s.dueAt now l := by
        intro l hl
        have hne : l ≠ level := fun h => hlevel (h ▸ hl)
        unfold Store.dueAt
        rw [takeLevel_ready, if_neg hne]
      have hrest := claimLevels_takes now expires
        (remaining - (dueBy now remaining (.ready level) s).length)
        (takeLevel level expires (dueBy now remaining (.ready level) s) s) hlevels
      rw [List.flatMap_congr fun l hl => congrArg _ (hbelow l hl)] at hrest
      have hleft : remaining - (dueBy now remaining (.ready level) s).length =
          remaining - ((s.dueAt now level).insertionSort Entry.Precedes).length := by
        rw [s.dueBy_eq, List.length_map, List.length_take]
        omega
      show dueBy now remaining (.ready level) s ++ _ = _
      rw [hrest, hleft, List.flatMap_cons, List.take_append, List.map_append, ← s.dueBy_eq]

theorem claim_eq (now : Int) (limit : Nat) (expires : Int) (s : Store) :
    (claim now limit expires s).1 = ((s.queue now).take limit).map Entry.id := by
  rw [s.queue_eq]
  exact claimLevels_takes now expires limit s (List.nodup_finRange 10)

/-- **The most urgent jobs.** If no job waits at two levels, a claim returns the first
jobs of the queue and moves these from the ready sets to the leases: they leave the level
they were in, have the expiry that was given and one more attempt. Every other job, and
everything else that is stored about these, stays as it was. -/
theorem claim_takes_most_urgent {s : Store} (hs : s.OneLevel) (now : Int) (limit : Nat) (expires : Int) :
    (claim now limit expires s).1 = ((s.queue now).take limit).map Entry.id ∧
      Leases (((s.queue now).take limit).map Entry.id) expires s (claim now limit expires s).2 := by
  refine ⟨claim_eq now limit expires s, ?_⟩
  rw [← claim_eq]
  exact claimLevels_leases now _ limit hs

/-- Two jobs of one level and a job of a more urgent one. -/
def threeWait : Store :=
  ((Store.empty.zadd (.ready (level 5)) 3 [1]).zadd (.ready (level 5)) 1 [2]).zadd .front 9 [7]

theorem threeWait_oneLevel : threeWait.OneLevel := by
  intro id l l' hl hl'
  simp only [threeWait, mem_zadd, Store.empty, ZSet.not_mem_empty, or_false, List.mem_singleton,
    Place.ready.injEq, Place.front] at hl hl'
  rcases hl with ⟨rfl, rfl⟩ | ⟨rfl, rfl⟩ | ⟨rfl, rfl⟩ <;> simp_all

theorem claim_takes_most_urgent_of_three :
    (claim 10 2 50 threeWait).1 = [7, 2] ∧ Leases [7, 2] 50 threeWait (claim 10 2 50 threeWait).2 := by
  have htake : ((threeWait.queue 10).take 2).map Entry.id = [7, 2] := by decide
  have hclaim := claim_takes_most_urgent threeWait_oneLevel 10 2 50
  rw [htake] at hclaim
  exact hclaim

end Gylo.Redis
