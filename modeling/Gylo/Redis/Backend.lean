import Gylo.Lib.SortedSets
import Gylo.Wire.Decoder

/-! # The Redis backend

Every job is a member of one of eleven sorted sets: one for each priority level,
scored by the time the job is due, and one for the leases, scored by the time they
expire. A hash keeps what was enqueued, another counts the attempts. A server runs
one command, script or `MULTI` block at a time, so each definition here is one
such step; `fetch` and `abandon` take several. Times are in milliseconds, and
every `now_millis()` is an argument. -/
namespace Gylo.Redis

open Gylo.Store Gylo.Wire SortedSets Packing

/-! ## What is stored -/

/-- `Stored`, with the ranges of `i64` and `i16`. -/
structure Stored where
  id : Int
  task : String
  payload : Bytes
  maxAttempts : Int
  id_fits : InI64 id
  maxAttempts_fits : InSmallint maxAttempts

/-- The longest value the server takes (`proto-max-bulk-len`). -/
def bulkLimit : Nat := 536870912

/-- `rmp_serde::to_vec` and `rmp_serde::from_slice` at `Stored`, of which it is assumed that
what was written is read back. -/
structure Rmp where
  encode : Stored → Bytes
  decode : Bytes → Option Stored
  decode_encode : ∀ s, (encode s).length ≤ bulkLimit → decode (encode s) = some s

def Stored.value (s : Stored) : MessagePack.Value :=
  .array [.int s.id, .str s.task, .bin s.payload, .int s.maxAttempts]

def Stored.ofValue : MessagePack.Value → Option Stored
  | .array [.int id, .str task, .bin payload, .int maxAttempts] =>
    if h : InI64 id ∧ InSmallint maxAttempts then some ⟨id, task, payload, maxAttempts, h.1, h.2⟩
    else none
  | _ => none

/-- An array of the fields, and a reader that takes nothing else. -/
def Rmp.messagePack : Rmp where
  encode s := s.value.pack
  decode bytes := (MessagePack.unpack bytes).bind Stored.ofValue
  decode_encode := by
    intro s h
    have hid := s.id_fits
    have hmax := s.maxAttempts_fits
    have hfits : s.value.Fits := by
      unfold InI64 at hid
      unfold InSmallint at hmax
      refine ⟨⟨hid.1, ?_⟩, trivial, trivial, ⟨?_, ?_⟩, trivial⟩ <;> omega
    have hlength : s.value.pack.length < 4294967296 :=
      Nat.lt_of_le_of_lt h (by unfold bulkLimit; omega)
    rw [MessagePack.unpack_pack hfits hlength]
    exact dif_pos ⟨hid, hmax⟩

/-- Where a job can be. -/
inductive Place where
  | ready (level : Fin 10)
  | leased
deriving DecidableEq

/-- `ready:0`, where work that is given back goes. -/
def Place.front : Place := .ready 0

@[simp] theorem Place.front_ne_leased : Place.front ≠ .leased := fun h => by cases h

/-- The keys of one namespace. -/
structure Store where
  sets : Place → ZSet Int
  payload : Int → Option Bytes
  attempt : Int → Option Int

def Store.empty : Store := ⟨fun _ => .empty, fun _ => none, fun _ => none⟩

inductive Error where
  | redis
  | payload (id : Int)
deriving DecidableEq

/-! ## Commands -/

def Store.zadd (p : Place) (score : Int) (ids : List Int) (s : Store) : Store :=
  { s with sets := fun q => if q = p then (s.sets p).addAll ids score else s.sets q }

def Store.zrem (p : Place) (ids : List Int) (s : Store) : Store :=
  { s with sets := fun q => if q = p then (s.sets p).rem ids else s.sets q }

/-- Redis orders members with one score by their texts. -/
def before (a b : Int) : Prop := toString a ≤ toString b

instance : DecidableRel before := fun a b => inferInstanceAs (Decidable (toString a ≤ toString b))

def level (priority : Int) : Fin 10 := ⟨(max 0 (min priority 9)).toNat, by omega⟩

/-- The block of `enqueue`; the server refuses a value that is too long. -/
def enqueue (rmp : Rmp) (stored : Stored) (priority due : Int) (s : Store) : Except Error Store :=
  if (rmp.encode stored).length ≤ bulkLimit then
    .ok (Store.zadd (.ready (level priority)) due [stored.id]
      { s with payload := hset stored.id (rmp.encode stored) s.payload })
  else .error .redis

/-- `ZRANGEBYSCORE`: the first members of a place that are due by now. -/
def dueBy (now : Int) (count : Nat) (p : Place) (s : Store) : List Int :=
  (s.sets p).rangeByScore before now count

/-- The round of `CLAIM` for one level. -/
def takeLevel (level : Fin 10) (expires : Int) (due : List Int) (s : Store) : Store :=
  due.foldl (fun s id => { s.zadd .leased expires [id] with attempt := hincrby id 1 s.attempt })
    (s.zrem (.ready level) due)

def claimLevels (now expires : Int) : List (Fin 10) → Nat → Store → List Int × Store
  | [], _, s => ([], s)
  | level :: levels, remaining, s =>
    if remaining = 0 then ([], s)
    else
      let due := dueBy now remaining (.ready level) s
      let rest := claimLevels now expires levels (remaining - due.length) (takeLevel level expires due s)
      (due ++ rest.1, rest.2)

/-- `CLAIM`. Of Lua it is assumed that `unpack` takes a list of any length, and that the
limit, there a double, is handed on as it is: exactly so only below 2^53, also in `RECLAIM`. -/
def claim (now : Int) (limit : Nat) (expires : Int) (s : Store) : List Int × Store :=
  claimLevels now expires (List.finRange 10) limit s

/-- `RECLAIM` -/
def reclaimExpired (limit : Nat) (now : Int) (s : Store) : Nat × Store :=
  let expired := dueBy now limit .leased s
  (expired.length, (s.zrem .leased expired).zadd .front now expired)

/-- The round of `RENEW` for one id. -/
def renewOne (expires : Int) (r : Nat × Store) (id : Int) : Nat × Store :=
  if id ∈ r.2.sets .leased then (r.1 + 1, r.2.zadd .leased expires [id]) else r

/-- `RENEW` -/
def renew (ids : List Int) (expires : Int) (s : Store) : Nat × Store :=
  ids.foldl (renewOne expires) (0, s)

/-- What `ZREM` of the leases returns. -/
def removed (ids : List Int) (s : Store) : Nat :=
  ((s.sets .leased).members.filter fun id => id ∈ ids).length

/-- `complete`, one block. -/
def complete (ids : List Int) (s : Store) : Nat × Store :=
  if ids = [] then (0, s)
  else
    (removed ids s,
      { s.zrem .leased ids with payload := hdel ids s.payload, attempt := hdel ids s.attempt })

def discard (ids : List Int) (s : Store) : Nat × Store := complete ids s

/-- `retry`, one block. -/
def retry (id priority due : Int) (s : Store) : Store :=
  (s.zrem .leased [id]).zadd (.ready (level priority)) due [id]

/-- The first block of `abandon`, with what the call will return. -/
def abandon (ids : List Int) (s : Store) : Nat × Store :=
  if ids = [] then (0, s) else (removed ids s, s.zrem .leased ids)

/-- The second block of `abandon`. -/
def abandonReady (ids : List Int) (due : Int) (s : Store) : Store := s.zadd .front due ids

/-! ## The end of `fetch` -/

structure Job where
  id : Int
  task : String
  payload : Bytes
  attempt : Int
  maxAttempts : Int
  durable : Bool := false
deriving DecidableEq

section
variable (rmp : Rmp)

/-- The jobs of the three lists `fetch` has by then, or the first that has none. -/
def assemble : List (Int × Option Bytes × Option Int) → Except Error (List Job)
  | [] => .ok []
  | (id, bytes, attempt) :: rest =>
    match bytes.bind rmp.decode with
    | none => .error (.payload id)
    | some stored =>
      match assemble rest with
      | .error e => .error e
      | .ok jobs =>
        .ok ({ id := stored.id, task := stored.task, payload := stored.payload,
               attempt := attempt.getD 1, maxAttempts := stored.maxAttempts } :: jobs)

/-- What `fetch` returns: a counter that is no `i16` is refused on reading. -/
def fetchResult (claimed : List Int) (raw : List (Option Bytes)) (attempts : List (Option Int)) :
    Except Error (List Job) :=
  if ∀ a ∈ attempts, ∀ n ∈ a, InSmallint n then assemble rmp (claimed.zip (raw.zip attempts))
  else .error .redis

/-- The value has been read and is a job. -/
def Readable (bytes : Option Bytes) : Prop := ∃ b, bytes = some b ∧ (rmp.decode b).isSome
end

section
variable {rmp : Rmp}

theorem assemble_ok : ∀ {xs : List (Int × Option Bytes × Option Int)},
    (∀ x ∈ xs, Readable rmp x.2.1) → ∃ jobs, assemble rmp xs = .ok jobs
  | [], _ => ⟨[], rfl⟩
  | (id, bytes, attempt) :: rest, h => by
    obtain ⟨hhead, hrest⟩ := List.forall_mem_cons.mp h
    obtain ⟨b, hb, hdecode⟩ := hhead
    obtain ⟨stored, hstored⟩ := Option.isSome_iff_exists.mp hdecode
    obtain ⟨jobs, hjobs⟩ := assemble_ok hrest
    obtain rfl : bytes = some b := hb
    simp only [assemble, Option.bind_some, hstored, hjobs]
    exact ⟨_, rfl⟩

/-- A fetch that has read every payload does not miss one. -/
theorem fetchResult_ne_payload {claimed : List Int} {raw : List (Option Bytes)}
    {attempts : List (Option Int)} (h : ∀ b ∈ raw, Readable rmp b) (id : Int) :
    fetchResult rmp claimed raw attempts ≠ .error (.payload id) := by
  unfold fetchResult
  split
  next =>
    obtain ⟨jobs, hjobs⟩ := assemble_ok fun x (hx : x ∈ claimed.zip (raw.zip attempts)) =>
      h x.2.1 (List.of_mem_zip (List.of_mem_zip hx).2).1
    rw [hjobs]
    intro heq
    cases heq
  next =>
    intro heq
    cases heq
end

/-! ## What each step does -/

section
variable {s : Store} {p q : Place} {id score : Int} {ids : List Int}

@[simp] theorem mem_zadd : id ∈ (s.zadd p score ids).sets q ↔ q = p ∧ id ∈ ids ∨ id ∈ s.sets q := by
  by_cases hq : q = p
  · simp [Store.zadd, hq]
  · simp [Store.zadd, hq]

@[simp] theorem mem_zrem : id ∈ (s.zrem p ids).sets q ↔ id ∈ s.sets q ∧ ¬ (q = p ∧ id ∈ ids) := by
  by_cases hq : q = p
  · simp [Store.zrem, hq]
  · simp [Store.zrem, hq]

/-- What an `enqueue` the server takes has written. -/
theorem enqueue_ok {rmp : Rmp} {stored : Stored} {priority due : Int} {t : Store}
    (h : enqueue rmp stored priority due s = .ok t) :
    (∀ id p, id ∈ t.sets p ↔ p = .ready (level priority) ∧ id = stored.id ∨ id ∈ s.sets p) ∧
      t.payload = hset stored.id (rmp.encode stored) s.payload ∧
      rmp.decode (rmp.encode stored) = some stored := by
  unfold enqueue at h
  split at h
  next hlength =>
    cases h
    refine ⟨fun id p => ?_, rfl, rmp.decode_encode stored hlength⟩
    rw [mem_zadd, List.mem_singleton]
  next => cases h

theorem mem_of_dueBy {now : Int} {count : Nat} (h : id ∈ dueBy now count p s) : id ∈ s.sets p :=
  ZSet.mem_of_rangeByScore h

theorem mem_complete :
    id ∈ (complete ids s).2.sets p ↔ id ∈ s.sets p ∧ ¬ (p = .leased ∧ id ∈ ids) := by
  unfold complete
  split
  next h => simp [h]
  next => exact mem_zrem

theorem complete_payload : (complete ids s).2.payload = hdel ids s.payload := by
  unfold complete
  split
  next h => rw [h, hdel_nil]
  next => rfl

theorem mem_abandon :
    id ∈ (abandon ids s).2.sets p ↔ id ∈ s.sets p ∧ ¬ (p = .leased ∧ id ∈ ids) := by
  unfold abandon
  split
  next h => simp [h]
  next => exact mem_zrem

theorem abandon_payload : (abandon ids s).2.payload = s.payload := by
  unfold abandon
  split <;> rfl

/-- Leasing the jobs of one level, one after the other. -/
theorem mem_takeLevel {level : Fin 10} {expires : Int} {due : List Int} :
    id ∈ (takeLevel level expires due s).sets p ↔
      p = .leased ∧ id ∈ due ∨ id ∈ s.sets p ∧ ¬ (p = .ready level ∧ id ∈ due) := by
  have hlease : ∀ (due : List Int) (s : Store),
      id ∈ (due.foldl (fun s i =>
        { s.zadd .leased expires [i] with attempt := hincrby i 1 s.attempt }) s).sets p ↔
        p = .leased ∧ id ∈ due ∨ id ∈ s.sets p := by
    intro due
    induction due with
    | nil => simp
    | cons i due ih =>
      intro s
      have hhead : id ∈ (s.zadd .leased expires [i]).sets p ↔ p = .leased ∧ id = i ∨ id ∈ s.sets p := by
        rw [mem_zadd, List.mem_singleton]
      rw [List.foldl_cons, ih, List.mem_cons]
      exact (or_congr_right hhead).trans (by tauto)
  unfold takeLevel
  rw [hlease, mem_zrem]

theorem takeLevel_payload {level : Fin 10} {expires : Int} {due : List Int} :
    (takeLevel level expires due s).payload = s.payload := by
  unfold takeLevel
  refine List.foldlRecOn (motive := fun t : Store => t.payload = s.payload) due _ rfl ?_
  intro t ht i _
  exact ht

/-- `RENEW` moves nothing. -/
theorem mem_renewOne {expires i : Int} {r : Nat × Store} :
    id ∈ (renewOne expires r i).2.sets p ↔ id ∈ r.2.sets p := by
  unfold renewOne
  split
  next hi =>
    rw [mem_zadd, List.mem_singleton]
    exact or_iff_right_of_imp fun ⟨hp, hid⟩ => hp ▸ hid ▸ hi
  next => rfl

theorem mem_renew {expires : Int} : id ∈ (renew ids expires s).2.sets p ↔ id ∈ s.sets p :=
  List.foldlRecOn (motive := fun r : Nat × Store => id ∈ r.2.sets p ↔ id ∈ s.sets p)
    ids _ Iff.rfl fun _ hr _ _ => mem_renewOne.trans hr

theorem renew_payload {expires : Int} : (renew ids expires s).2.payload = s.payload := by
  unfold renew
  refine List.foldlRecOn (motive := fun r : Nat × Store => r.2.payload = s.payload) ids _ rfl ?_
  intro r hr i _
  unfold renewOne
  split
  next => exact hr
  next => exact hr
end

/-! ## Jobs that move -/

/-- Every job is in one place at most, and in one exactly if its payload is kept. -/
structure Store.Partition (s : Store) : Prop where
  apart : ∀ {id p q}, id ∈ s.sets p → id ∈ s.sets q → p = q
  placed : ∀ id, (∃ p, id ∈ s.sets p) ↔ (s.payload id).isSome

/-- `t` has the jobs of `s`, with some of them moved to one place. -/
structure Relocated (moved : List Int) (target : Place) (s t : Store) : Prop where
  payload : t.payload = s.payload
  somewhere : ∀ id ∈ moved, ∃ p, id ∈ s.sets p
  sets : ∀ id p, id ∈ t.sets p ↔ if id ∈ moved then p = target else id ∈ s.sets p

namespace Relocated

variable {s t u : Store} {moved moved' : List Int} {target : Place}

theorem of_same (hpayload : t.payload = s.payload) (hsets : ∀ id p, id ∈ t.sets p ↔ id ∈ s.sets p) :
    Relocated [] target s t :=
  ⟨hpayload, fun _ h => absurd h List.not_mem_nil, fun id p => by
    rw [if_neg List.not_mem_nil, hsets]⟩

theorem trans (h : Relocated moved target s t) (h' : Relocated moved' target t u) :
    Relocated (moved ++ moved') target s u where
  payload := h'.payload.trans h.payload
  somewhere id hid := by
    rcases List.mem_append.mp hid with hid | hid
    · exact h.somewhere id hid
    · by_cases hm : id ∈ moved
      · exact h.somewhere id hm
      · obtain ⟨p, hp⟩ := h'.somewhere id hid
        have hp := (h.sets id p).mp hp
        rw [if_neg hm] at hp
        exact ⟨p, hp⟩
  sets id p := by
    rw [h'.sets, h.sets]
    by_cases hm : id ∈ moved <;> by_cases hm' : id ∈ moved' <;> simp [hm, hm']

theorem partition (h : Relocated moved target s t) (hs : s.Partition) : t.Partition where
  apart {id p q} hp hq := by
    have hp := (h.sets id p).mp hp
    have hq := (h.sets id q).mp hq
    by_cases hm : id ∈ moved
    · rw [if_pos hm] at hp hq
      exact hp.trans hq.symm
    · rw [if_neg hm] at hp hq
      exact hs.apart hp hq
  placed id := by
    rw [h.payload, ← hs.placed]
    by_cases hm : id ∈ moved
    · exact ⟨fun _ => h.somewhere id hm, fun _ => ⟨target, (h.sets id target).mpr (by rw [if_pos hm])⟩⟩
    · simp only [h.sets, if_neg hm]
end Relocated

section
variable {s : Store}

theorem takeLevel_relocates (hs : s.Partition) (level : Fin 10) (expires : Int) {due : List Int}
    (hdue : ∀ id ∈ due, id ∈ s.sets (.ready level)) :
    Relocated due .leased s (takeLevel level expires due s) where
  payload := takeLevel_payload
  somewhere id hid := ⟨_, hdue id hid⟩
  sets id p := by
    rw [mem_takeLevel]
    by_cases hid : id ∈ due
    · have hlevel : id ∈ s.sets p → p = .ready level := fun hp => hs.apart hp (hdue id hid)
      simp only [hid, and_true, if_true]
      tauto
    · simp [hid]

/-- A claim leases what it takes, and takes only what nobody has leased. -/
theorem claimLevels_relocates (now expires : Int) :
    ∀ (levels : List (Fin 10)) (remaining : Nat) {s : Store}, s.Partition →
      Relocated (claimLevels now expires levels remaining s).1 .leased s
          (claimLevels now expires levels remaining s).2 ∧
        ∀ id ∈ (claimLevels now expires levels remaining s).1, id ∉ s.sets .leased
  | [], _, s, _ => ⟨.of_same rfl fun _ _ => Iff.rfl, fun _ h => absurd h List.not_mem_nil⟩
  | level :: levels, remaining, s, hs => by
    unfold claimLevels
    split
    next => exact ⟨.of_same rfl fun _ _ => Iff.rfl, fun _ h => absurd h List.not_mem_nil⟩
    next =>
      have hdue : ∀ id ∈ dueBy now remaining (.ready level) s, id ∈ s.sets (.ready level) :=
        fun _ => mem_of_dueBy
      have htake := takeLevel_relocates hs level expires hdue
      obtain ⟨hrest, hfree⟩ := claimLevels_relocates now expires levels
        (remaining - (dueBy now remaining (.ready level) s).length) (htake.partition hs)
      refine ⟨htake.trans hrest, ?_⟩
      intro id hid hleased
      -- what was leased before is in no ready set, and stays leased for the levels below
      rcases List.mem_append.mp hid with hid | hid
      · have hplace := hs.apart (hdue id hid) hleased
        cases hplace
      · refine hfree id hid ((htake.sets id .leased).mpr ?_)
        split
        next => rfl
        next => exact hleased

theorem claim_relocates (hs : s.Partition) (now : Int) (limit : Nat) (expires : Int) :
    Relocated (claim now limit expires s).1 .leased s (claim now limit expires s).2 :=
  (claimLevels_relocates now expires _ limit hs).1

theorem not_leased_of_claim (hs : s.Partition) {now : Int} {limit : Nat} {expires id : Int}
    (h : id ∈ (claim now limit expires s).1) : id ∉ s.sets .leased :=
  (claimLevels_relocates now expires _ limit hs).2 id h

/-- Taking jobs out of the leases and putting them into a ready set moves them, unless
one was in another ready set. -/
theorem zrem_zadd_relocates (hs : s.Partition) {level : Fin 10} {ids : List Int} (due : Int)
    (h : ∀ id ∈ ids, id ∈ s.sets .leased ∨ id ∈ s.sets (.ready level)) :
    Relocated ids (.ready level) s ((s.zrem .leased ids).zadd (.ready level) due ids) where
  payload := rfl
  somewhere id hid := (h id hid).elim (fun hp => ⟨_, hp⟩) (fun hp => ⟨_, hp⟩)
  sets id p := by
    rw [mem_zadd, mem_zrem]
    by_cases hid : id ∈ ids
    · have hplace : id ∈ s.sets p → p = .leased ∨ p = .ready level := fun hp =>
        (h id hid).imp (hs.apart hp) (hs.apart hp)
      simp only [hid, and_true, if_true]
      tauto
    · simp [hid]

theorem reclaimExpired_relocates (hs : s.Partition) (limit : Nat) (now : Int) :
    Relocated (dueBy now limit .leased s) .front s (reclaimExpired limit now s).2 :=
  zrem_zadd_relocates hs now fun _ hid => .inl (mem_of_dueBy hid)

theorem renew_relocates (ids : List Int) (expires : Int) (target : Place) :
    Relocated [] target s (renew ids expires s).2 :=
  .of_same renew_payload fun _ _ => mem_renew
end

end Gylo.Redis
