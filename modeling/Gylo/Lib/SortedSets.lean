import Mathlib.Data.List.Sort

/-! # Sorted sets and hashes

The two data types of a key-value server a queue needs: a sorted set gives each
of its members a score and lists them in the order of the scores, and a hash maps
fields to values. Operations are named after the server's commands. -/
namespace SortedSets

variable {α β : Type}

/-! ## Lists of entries -/

section
variable [DecidableEq α] {l : List (α × β)} {as : List α} {a : α}

theorem find_filter_of_mem (h : a ∈ as) :
    ((l.filter fun e => e.1 ∉ as).find? fun e => e.1 = a) = none := by
  rw [List.find?_eq_none]
  intro e he heq
  have hout := of_decide_eq_true (List.mem_filter.mp he).2
  rw [of_decide_eq_true heq] at hout
  exact hout h

theorem find_filter_of_notMem (h : a ∉ as) :
    ((l.filter fun e => e.1 ∉ as).find? fun e => e.1 = a) = l.find? fun e => e.1 = a := by
  rw [List.find?_filter]
  congr 1
  funext e
  by_cases he : e.1 = a
  · simp [he, h]
  · simp [he]

/-- An entry put in the place of those with its key. -/
theorem find_replace (l : List (α × β)) (a b : α) (v : β) :
    (((l.filter fun e => e.1 ∉ [a]) ++ [(a, v)]).find? fun e => e.1 = b).map Prod.snd =
      if b = a then some v else (l.find? fun e => e.1 = b).map Prod.snd := by
  rw [List.find?_append]
  by_cases hb : b = a
  · rw [if_pos hb, find_filter_of_mem (List.mem_singleton.mpr hb), Option.none_or]
    simp [hb]
  · rw [if_neg hb, find_filter_of_notMem (List.mem_singleton.not.mpr hb)]
    simp [Ne.symm hb]
end

/-! ## Sorted sets -/

/-- Members with their scores; nobody is a member twice. -/
structure ZSet (α : Type) where
  entries : List (α × Int)
  nodup : (entries.map Prod.fst).Nodup

namespace ZSet

def empty : ZSet α := ⟨[], List.nodup_nil⟩

def members (z : ZSet α) : List α := z.entries.map Prod.fst

instance : Membership α (ZSet α) := ⟨fun z a => a ∈ z.members⟩

theorem mem_def {z : ZSet α} {a : α} : a ∈ z ↔ ∃ s, (a, s) ∈ z.entries := by
  show a ∈ z.members ↔ _
  simp [members]

@[simp] theorem not_mem_empty (a : α) : a ∉ (empty : ZSet α) := List.not_mem_nil

variable [DecidableEq α]

instance (a : α) (z : ZSet α) : Decidable (a ∈ z) := inferInstanceAs (Decidable (a ∈ z.members))

/-- `ZSCORE` -/
def score (z : ZSet α) (a : α) : Option Int := (z.entries.find? fun e => e.1 = a).map Prod.snd

/-- `ZREM` -/
def rem (as : List α) (z : ZSet α) : ZSet α where
  entries := z.entries.filter fun e => e.1 ∉ as
  nodup := z.nodup.sublist (List.filter_sublist.map Prod.fst)

@[simp] theorem mem_rem {as : List α} {z : ZSet α} {a : α} : a ∈ z.rem as ↔ a ∈ z ∧ a ∉ as := by
  simp only [mem_def, rem, List.mem_filter, decide_eq_true_eq]
  exact ⟨fun ⟨s, hs, ha⟩ => ⟨⟨s, hs⟩, ha⟩, fun ⟨⟨s, hs⟩, ha⟩ => ⟨s, hs, ha⟩⟩

theorem rem_nil (z : ZSet α) : z.rem [] = z := by
  have hall : (z.entries.filter fun e => e.1 ∉ ([] : List α)) = z.entries :=
    List.filter_eq_self.mpr fun _ _ => decide_eq_true List.not_mem_nil
  obtain ⟨entries, nodup⟩ := z
  unfold rem
  congr 1

/-- `ZADD`: a member has the new score, others keep theirs. -/
def add (a : α) (s : Int) (z : ZSet α) : ZSet α where
  entries := (z.rem [a]).entries ++ [(a, s)]
  nodup := by
    have hnew : a ∉ z.rem [a] := by simp
    rw [List.map_append]
    refine List.nodup_append.mpr ⟨(z.rem [a]).nodup, List.nodup_singleton a, ?_⟩
    intro b hb c hc hsame
    obtain rfl : c = a := List.mem_singleton.mp hc
    exact hnew (hsame ▸ hb)

@[simp] theorem mem_add {a b : α} {s : Int} {z : ZSet α} : b ∈ z.add a s ↔ b = a ∨ b ∈ z := by
  simp only [mem_def, add, List.mem_append, List.mem_singleton]
  by_cases hb : b = a
  · simp [hb]
  · simp [rem, hb]

theorem score_rem {as : List α} {z : ZSet α} {a : α} (h : a ∉ as) : (z.rem as).score a = z.score a :=
  congrArg (Option.map Prod.snd) (find_filter_of_notMem h)

theorem score_add (a b : α) (s : Int) (z : ZSet α) :
    (z.add a s).score b = if b = a then some s else z.score b :=
  find_replace z.entries a b s

theorem score_eq_none_iff {z : ZSet α} {a : α} : z.score a = none ↔ a ∉ z := by
  rw [mem_def]
  simp only [score, Option.map_eq_none_iff, List.find?_eq_none, decide_eq_true_eq]
  constructor
  · intro h hmem
    obtain ⟨s, hs⟩ := hmem
    exact h (a, s) hs rfl
  · intro h e he heq
    exact h ⟨e.2, heq ▸ he⟩

/-- `ZADD` of several members with one score. -/
def addAll (as : List α) (s : Int) (z : ZSet α) : ZSet α := as.foldl (fun z a => z.add a s) z

@[simp] theorem mem_addAll {as : List α} {s : Int} {z : ZSet α} {b : α} :
    b ∈ z.addAll as s ↔ b ∈ as ∨ b ∈ z := by
  unfold addAll
  induction as generalizing z with
  | nil => simp
  | cons a as ih =>
    rw [List.foldl_cons, ih, mem_add, List.mem_cons]
    tauto

/-- `ZRANGEBYSCORE key -inf max LIMIT 0 count`: by score, and among equal scores in
the order of the members. -/
def rangeByScore (before : α → α → Prop) [DecidableRel before] (max : Int) (count : Nat)
    (z : ZSet α) : List α :=
  (((z.entries.filter fun e => e.2 ≤ max).insertionSort fun e e' =>
    e.2 < e'.2 ∨ e.2 = e'.2 ∧ before e.1 e'.1).take count).map Prod.fst

theorem score_rem_eq (as : List α) (z : ZSet α) (a : α) :
    (z.rem as).score a = if a ∈ as then none else z.score a := by
  by_cases ha : a ∈ as
  · rw [if_pos ha, score_eq_none_iff, mem_rem]
    exact fun h => h.2 ha
  · rw [if_neg ha, score_rem ha]

omit [DecidableEq α] in
theorem mem_of_rangeByScore {before : α → α → Prop} [DecidableRel before] {max : Int} {count : Nat}
    {z : ZSet α} {a : α} (h : a ∈ z.rangeByScore before max count) : a ∈ z := by
  obtain ⟨e, he, rfl⟩ := List.mem_map.mp h
  have hsorted := (List.mem_insertionSort _).mp (List.mem_of_mem_take he)
  exact mem_def.mpr ⟨e.2, (List.mem_filter.mp hsorted).1⟩

omit [DecidableEq α] in
theorem nodup_rangeByScore {before : α → α → Prop} [DecidableRel before] {max : Int} {count : Nat}
    {z : ZSet α} : (z.rangeByScore before max count).Nodup := by
  unfold rangeByScore
  refine List.Nodup.sublist ((List.take_sublist _ _).map Prod.fst) ?_
  refine ((List.perm_insertionSort _ _).map Prod.fst).nodup_iff.mpr ?_
  exact z.nodup.sublist (List.filter_sublist.map Prod.fst)

end ZSet

/-! ## Sorting in blocks -/

section
variable (r : α → α → Prop) [DecidableRel r]

theorem orderedInsert_append {a : α} {bs : List α} (h : ∀ b ∈ bs, r a b) :
    ∀ as : List α, (as ++ bs).orderedInsert r a = as.orderedInsert r a ++ bs
  | [] => by
    cases bs with
    | nil => rfl
    | cons b bs => exact List.orderedInsert_cons_of_le r bs (h b List.mem_cons_self)
  | c :: as => by
    by_cases hc : r a c
    · rw [List.cons_append, List.orderedInsert_cons_of_le r _ hc, List.orderedInsert_cons_of_le r _ hc]
      rfl
    · rw [List.cons_append, List.orderedInsert_of_not_le r _ hc, List.orderedInsert_of_not_le r _ hc,
        orderedInsert_append h as]
      rfl

/-- Where every item of one list comes before those of another, each is sorted alone. -/
theorem insertionSort_append {bs : List α} : ∀ {as : List α}, (∀ a ∈ as, ∀ b ∈ bs, r a b) →
    (as ++ bs).insertionSort r = as.insertionSort r ++ bs.insertionSort r
  | [], _ => rfl
  | a :: as, h => by
    obtain ⟨ha, has⟩ := List.forall_mem_cons.mp h
    rw [List.cons_append, List.insertionSort_cons, insertionSort_append has, List.insertionSort_cons]
    exact orderedInsert_append r (fun b hb => ha b ((List.mem_insertionSort r).mp hb)) _

theorem insertionSort_flatMap {ι : Type} (block : ι → List α) : ∀ {is : List ι},
    is.Pairwise (fun i j => ∀ a ∈ block i, ∀ b ∈ block j, r a b) →
      (is.flatMap block).insertionSort r = is.flatMap fun i => (block i).insertionSort r
  | [], _ => rfl
  | i :: is, h => by
    obtain ⟨hi, his⟩ := List.pairwise_cons.mp h
    rw [List.flatMap_cons, List.flatMap_cons, insertionSort_append, insertionSort_flatMap block his]
    intro a ha b hb
    obtain ⟨j, hj, hb⟩ := List.mem_flatMap.mp hb
    exact hi j hj a ha b hb
end

/-! ## Hashes -/

section
variable [DecidableEq α]

/-- `HSET` -/
def hset (k : α) (v : β) (h : α → Option β) : α → Option β := fun i => if i = k then some v else h i

/-- `HDEL` -/
def hdel (ks : List α) (h : α → Option β) : α → Option β := fun i => if i ∈ ks then none else h i

/-- `HINCRBY` -/
def hincrby (k : α) (n : Int) (h : α → Option Int) : α → Option Int := hset k ((h k).getD 0 + n) h

@[simp] theorem hincrby_self (k : α) (n : Int) (h : α → Option Int) :
    hincrby k n h k = some ((h k).getD 0 + n) := if_pos rfl

@[simp] theorem hincrby_of_ne {k i : α} {n : Int} {h : α → Option Int} (hi : i ≠ k) :
    hincrby k n h i = h i := if_neg hi

theorem hdel_nil (h : α → Option β) : hdel [] h = h := rfl

@[simp] theorem hdel_of_not_mem {ks : List α} {h : α → Option β} {i : α} (hi : i ∉ ks) :
    hdel ks h i = h i := if_neg hi

theorem of_hdel_eq_some {ks : List α} {h : α → Option β} {i : α} {v : β} (hi : hdel ks h i = some v) :
    i ∉ ks ∧ h i = some v := by
  unfold hdel at hi
  split at hi
  next => cases hi
  next hnot => exact ⟨hnot, hi⟩

@[simp] theorem hdel_of_mem {ks : List α} {h : α → Option β} {i : α} (hi : i ∈ ks) :
    hdel ks h i = none := if_pos hi
end

/-! ## Hashes as a server keeps them -/

/-- Fields with their values; no field is there twice. -/
structure Hash (α β : Type) where
  entries : List (α × β)
  nodup : (entries.map Prod.fst).Nodup

namespace Hash

def empty : Hash α β := ⟨[], List.nodup_nil⟩

variable [DecidableEq α]

/-- `HGET` -/
def lookup (h : Hash α β) (k : α) : Option β := (h.entries.find? fun e => e.1 = k).map Prod.snd

/-- `HDEL` -/
def del (ks : List α) (h : Hash α β) : Hash α β where
  entries := h.entries.filter fun e => e.1 ∉ ks
  nodup := h.nodup.sublist (List.filter_sublist.map Prod.fst)

theorem lookup_del (ks : List α) (h : Hash α β) : (h.del ks).lookup = hdel ks h.lookup := by
  funext i
  unfold lookup del hdel
  split
  next hi => rw [find_filter_of_mem hi]; rfl
  next hi => rw [find_filter_of_notMem hi]

/-- `HSET` -/
def set (k : α) (v : β) (h : Hash α β) : Hash α β where
  entries := (h.del [k]).entries ++ [(k, v)]
  nodup := by
    rw [List.map_append]
    refine List.nodup_append.mpr ⟨(h.del [k]).nodup, List.nodup_singleton k, ?_⟩
    intro a ha b hb hsame
    obtain rfl : b = k := List.mem_singleton.mp hb
    obtain ⟨e, he, rfl⟩ := List.mem_map.mp ha
    have hout := of_decide_eq_true (List.mem_filter.mp he).2
    exact hout (List.mem_singleton.mpr hsame)

theorem lookup_set (k : α) (v : β) (h : Hash α β) : (h.set k v).lookup = hset k v h.lookup :=
  funext fun i => find_replace h.entries k i v

end Hash

end SortedSets
