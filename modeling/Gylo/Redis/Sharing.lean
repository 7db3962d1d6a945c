import Gylo.Redis.Namespaces

/-! # A namespace as a store of its own

A namespace on a shared server stands for a `Store`: sorted sets and hashes that nobody
else writes to. Each step a backend takes does to its keys what the operation on the
store does to the store, with the same reply, and the steps of other namespaces keep what
the keys stand for. So what is proved of a store, over any run of its operations, holds
of a namespace on a server it shares. -/
namespace Gylo.Redis

open Gylo.Store Keyspace SortedSets

/-! ## What the keys of a namespace stand for -/

def Place.slot : Place → Slot
  | .ready level => .ready level.val
  | .leased => .leased

theorem Place.slot_injective : Function.Injective Place.slot := by
  intro p q h
  cases p with
  | leased =>
    cases q with
    | leased => rfl
    | ready level => cases h
  | ready level =>
    cases q with
    | leased => cases h
    | ready level' =>
      have hval : (level.val : Int) = level'.val := Slot.ready.inj h
      rw [Fin.ext (Int.ofNat_inj.mp hval)]

theorem readZSet_writeZSet (z : ZSet Int) : readZSet (writeZSet z) = .ok z := by
  unfold writeZSet
  split
  next => rfl
  next h =>
    obtain ⟨entries, nodup⟩ := z
    obtain rfl : entries = [] := not_not.mp h
    rfl

theorem writeZSet_of_read {v : Option Value} {z : ZSet Int} (h : readZSet v = .ok z) :
    writeZSet z = v := by
  unfold readZSet at h
  split at h
  next => cases h; rfl
  next z' kept => cases h; exact dif_pos kept
  next => cases h

theorem readHash_writeHash (h : Hash Int Field) : readHash (writeHash h) = .ok h := by
  unfold writeHash
  split
  next => rfl
  next hempty =>
    obtain ⟨entries, nodup⟩ := h
    obtain rfl : entries = [] := not_not.mp hempty
    rfl

theorem writeHash_of_read {v : Option Value} {h : Hash Int Field} (hread : readHash v = .ok h) :
    writeHash h = v := by
  unfold readHash at hread
  split at hread
  next => cases hread; rfl
  next h' kept => cases hread; exact dif_pos kept
  next => cases hread

/-- A hash whose fields hold the values of a map, each written in one way. -/
def Holds {β : Type} (wrap : β → Field) (v : Option Value) (f : Int → Option β) : Prop :=
  ∃ h, readHash v = .ok h ∧ ∀ id, h.lookup id = (f id).map wrap

structure Represents (n : String) (server : Server) (s : Store) : Prop where
  sets : ∀ p : Place, readZSet (server ((Keys.new n).key p.slot)) = .ok (s.sets p)
  payload : Holds .bytes (server ((Keys.new n).key .payload)) s.payload
  attempt : Holds .count (server ((Keys.new n).key .attempt)) s.attempt

section
variable {n : String} {server : Server} {s : Store}

/-- Only the keys of the namespace matter. -/
theorem Represents.congr {server' : Server} (h : Represents n server s)
    (heq : Set.EqOn server' server (Keys.under n)) : Represents n server' s where
  sets p := by rw [heq (.formatted _)]; exact h.sets p
  payload := by rw [heq (.formatted _)]; exact h.payload
  attempt := by rw [heq (.formatted _)]; exact h.attempt

theorem update_key_of_ne {a b : Slot} (h : a ≠ b) (v : Option Value) :
    Function.update server ((Keys.new n).key b) v ((Keys.new n).key a) = server ((Keys.new n).key a) :=
  Function.update_of_ne (fun heq => h (Keys.key_inj heq).2) _ _

theorem Place.slot_ne (p : Place) : p.slot ≠ .payload ∧ p.slot ≠ .attempt := by
  constructor
  · intro h
    cases p <;> cases h
  · intro h
    cases p <;> cases h

/-- A sorted set is written. -/
theorem Represents.set (h : Represents n server s) (p : Place) (z : ZSet Int) :
    Represents n (Function.update server ((Keys.new n).key p.slot) (writeZSet z))
      { s with sets := fun q => if q = p then z else s.sets q } where
  sets q := by
    show _ = Except.ok (if q = p then z else s.sets q)
    by_cases hq : q = p
    · rw [hq, Function.update_self, readZSet_writeZSet, if_pos rfl]
    · rw [update_key_of_ne (fun heq => hq (Place.slot_injective heq)), if_neg hq]
      exact h.sets q
  payload := by
    rw [update_key_of_ne p.slot_ne.1.symm]
    exact h.payload
  attempt := by
    rw [update_key_of_ne p.slot_ne.2.symm]
    exact h.attempt

/-- The hash of the payloads is written. -/
theorem Represents.setPayload (h : Represents n server s) {hash : Hash Int Field}
    {f : Int → Option Bytes} (hf : ∀ id, hash.lookup id = (f id).map .bytes) :
    Represents n (Function.update server ((Keys.new n).key .payload) (writeHash hash))
      { s with payload := f } where
  sets p := by
    rw [update_key_of_ne p.slot_ne.1]
    exact h.sets p
  payload := by
    rw [Function.update_self]
    exact ⟨hash, readHash_writeHash hash, hf⟩
  attempt := by
    rw [update_key_of_ne (fun heq => by cases heq)]
    exact h.attempt

/-- The hash of the attempts is written. -/
theorem Represents.setAttempt (h : Represents n server s) {hash : Hash Int Field}
    {f : Int → Option Int} (hf : ∀ id, hash.lookup id = (f id).map .count) :
    Represents n (Function.update server ((Keys.new n).key .attempt) (writeHash hash))
      { s with attempt := f } where
  sets p := by
    rw [update_key_of_ne p.slot_ne.2]
    exact h.sets p
  payload := by
    rw [update_key_of_ne (fun heq => by cases heq)]
    exact h.payload
  attempt := by
    rw [Function.update_self]
    exact ⟨hash, readHash_writeHash hash, hf⟩
end

/-! ## Commands -/

namespace Command

variable {n : String}

/-- A command on a sorted set of the namespace. -/
theorem refines_onZSet {α : Type} (p : Place) (f : ZSet Int → α × ZSet Int) :
    (onZSet ((Keys.new n).key p.slot) f).Refines (Represents n) fun s =>
      ((f (s.sets p)).1, { s with sets := fun q => if q = p then (f (s.sets p)).2 else s.sets q }) := by
  intro server s h
  unfold onZSet
  rw [Action.exec_edit_ok (h.sets p) rfl]
  exact ⟨rfl, h.set p _⟩

theorem refines_zadd (p : Place) (score id : Int) :
    (zadd ((Keys.new n).key p.slot) score id).Refines (Represents n) fun s =>
      ((), s.zadd p score [id]) :=
  refines_onZSet p _

theorem refines_zrem (p : Place) (ids : List Int) :
    (zrem ((Keys.new n).key p.slot) ids).Refines (Represents n) fun s =>
      (((s.sets p).members.filter fun id => id ∈ ids).length, s.zrem p ids) :=
  refines_onZSet p _

/-- A command that only reads a sorted set. -/
theorem refines_read {α : Type} (p : Place) (f : ZSet Int → α) :
    (onZSet ((Keys.new n).key p.slot) fun z => (f z, z)).Refines (Represents n) fun s =>
      (f (s.sets p), s) := by
  intro server s h
  unfold onZSet
  rw [Action.exec_edit_ok (h.sets p) rfl, writeZSet_of_read (h.sets p), Function.update_eq_self]
  exact ⟨rfl, h⟩

theorem refines_hset (id : Int) (bytes : Bytes) :
    (hset ((Keys.new n).key .payload) id bytes).Refines (Represents n) fun s =>
      ((), { s with payload := SortedSets.hset id bytes s.payload }) := by
  intro server s h
  obtain ⟨hash, hread, hlookup⟩ := h.payload
  unfold hset onHash
  rw [Action.exec_edit_ok hread rfl]
  refine ⟨rfl, h.setPayload fun i => ?_⟩
  rw [Hash.lookup_set]
  unfold SortedSets.hset
  split
  next => rfl
  next => exact hlookup i

theorem map_hdel {β : Type} {ids : List Int} {hash : Hash Int Field} {f : Int → Option β} {wrap : β → Field}
    (h : ∀ i, hash.lookup i = (f i).map wrap) (i : Int) :
    (hash.del ids).lookup i = (SortedSets.hdel ids f i).map wrap := by
  rw [Hash.lookup_del]
  unfold SortedSets.hdel
  split
  next => rfl
  next => exact h i

theorem refines_hdel_payload (ids : List Int) :
    (hdel ((Keys.new n).key .payload) ids).Refines (Represents n) fun s =>
      ((), { s with payload := SortedSets.hdel ids s.payload }) := by
  intro server s h
  obtain ⟨hash, hread, hlookup⟩ := h.payload
  unfold hdel onHash
  rw [Action.exec_edit_ok hread rfl]
  exact ⟨rfl, h.setPayload (map_hdel hlookup)⟩

theorem refines_hdel_attempt (ids : List Int) :
    (hdel ((Keys.new n).key .attempt) ids).Refines (Represents n) fun s =>
      ((), { s with attempt := SortedSets.hdel ids s.attempt }) := by
  intro server s h
  obtain ⟨hash, hread, hlookup⟩ := h.attempt
  unfold hdel onHash
  rw [Action.exec_edit_ok hread rfl]
  exact ⟨rfl, h.setAttempt (map_hdel hlookup)⟩

theorem increment_eq {id n : Int} {hash : Hash Int Field} {count : Option Int}
    (h : hash.lookup id = count.map .count) :
    increment id n hash = .ok ((), hash.set id (.count (count.getD 0 + n))) := by
  unfold increment
  rw [h]
  cases count with
  | none =>
    rw [Option.getD_none, Int.zero_add]
    rfl
  | some m => rfl

theorem refines_hincrby (id n' : Int) :
    (hincrby ((Keys.new n).key .attempt) id n').Refines (Represents n) fun s =>
      ((), { s with attempt := SortedSets.hincrby id n' s.attempt }) := by
  intro server s h
  obtain ⟨hash, hread, hlookup⟩ := h.attempt
  unfold hincrby onHash
  rw [Action.exec_edit_ok hread (increment_eq (hlookup id))]
  refine ⟨rfl, h.setAttempt fun i => ?_⟩
  rw [Hash.lookup_set]
  unfold SortedSets.hincrby SortedSets.hset
  split
  next => rfl
  next => exact hlookup i

theorem exec_hmget {key : String} {server : Server} {hash : Hash Int Field}
    (h : readHash (server key) = .ok hash) (ids : List Int) :
    (hmget key ids).exec server = (.ok (ids.map hash.lookup), server) := by
  unfold hmget onHash
  rw [Action.exec_edit_ok h rfl, writeHash_of_read h, Function.update_eq_self]

theorem refines_payloads (ids : List Int) :
    (payloads (Keys.new n) ids).Refines (Represents n) fun s => (ids.map s.payload, s) := by
  intro server s h
  obtain ⟨hash, hread, hlookup⟩ := h.payload
  have hraw : (ids.map hash.lookup).map (Option.map Field.raw) = ids.map s.payload := by
    rw [List.map_map]
    refine List.map_congr_left fun id _ => ?_
    show (hash.lookup id).map Field.raw = s.payload id
    rw [hlookup id, Option.map_map]
    exact Option.map_id_apply
  have hfields : (hmget (Keys.new n).payload ids).exec server = (.ok (ids.map hash.lookup), server) :=
    exec_hmget hread ids
  unfold payloads
  rw [Action.exec_bind, hfields]
  exact ⟨congrArg Except.ok hraw, h⟩

theorem mapM_counter {hash : Hash Int Field} {f : Int → Option Int}
    (h : ∀ id, hash.lookup id = (f id).map .count) :
    ∀ ids : List Int, (ids.map hash.lookup).mapM Field.counter = .ok (ids.map f)
  | [] => rfl
  | id :: ids => by
    have hcounter : Field.counter (hash.lookup id) = .ok (f id) := by
      rw [h id]
      cases f id <;> rfl
    rw [List.map_cons, List.mapM_cons, hcounter, mapM_counter h ids]
    rfl

theorem refines_counters (ids : List Int) :
    (counters (Keys.new n) ids).Refines (Represents n) fun s => (ids.map s.attempt, s) := by
  intro server s h
  obtain ⟨hash, hread, hlookup⟩ := h.attempt
  have hfields : (hmget (Keys.new n).attempt ids).exec server = (.ok (ids.map hash.lookup), server) :=
    exec_hmget hread ids
  unfold counters
  rw [Action.exec_bind, hfields, Action.andThen_ok, mapM_counter hlookup ids]
  exact ⟨rfl, h⟩
end Command

/-! ## Scripts -/

section
variable {s : Store} {p : Place} {score : Int} {ids : List Int}

theorem zrem_nil : s.zrem p [] = s := by
  have hsets : (fun q => if q = p then (s.sets p).rem [] else s.sets q) = s.sets := by
    funext q
    split
    next hq => rw [hq, ZSet.rem_nil]
    next => rfl
  unfold Store.zrem
  rw [hsets]

theorem zadd_nil : s.zadd p score [] = s := by
  have hsets : (fun q => if q = p then (s.sets p).addAll [] score else s.sets q) = s.sets := by
    funext q
    split
    next hq => rw [hq]; rfl
    next => rfl
  unfold Store.zadd
  rw [hsets]

theorem zadd_cons (id : Int) : s.zadd p score (id :: ids) = (s.zadd p score [id]).zadd p score ids := by
  have hsets : (s.zadd p score (id :: ids)).sets = ((s.zadd p score [id]).zadd p score ids).sets := by
    funext q
    unfold Store.zadd
    by_cases hq : q = p
    · simp only [hq, if_true]
      rfl
    · simp only [hq, if_false]
  exact congrArg (fun sets => { s with sets := sets }) hsets

/-- One `ZADD` after the other. -/
theorem foldl_zadd : ids.foldl (fun s id => s.zadd p score [id]) s = s.zadd p score ids := by
  induction ids generalizing s with
  | nil => exact zadd_nil.symm
  | cons id ids ih => rw [List.foldl_cons, ih, ← zadd_cons]

theorem takeLevel_nil {level : Fin 10} {expires : Int} : takeLevel level expires [] s = s := zrem_nil
end

namespace Command

variable {n : String}

theorem refines_lease (expires id : Int) :
    (lease (Keys.new n).leased (Keys.new n).attempt expires id).Refines (Represents n) fun s =>
      ((), { s.zadd .leased expires [id] with attempt := SortedSets.hincrby id 1 s.attempt }) :=
  (refines_zadd .leased expires id).bind fun _ => refines_hincrby id 1

/-- What is left of a claim once a level's jobs are known. -/
theorem refines_claimRest {now expires : Int} {level : Fin 10} {levels : List (Fin 10)} {remaining : Nat}
    (hlevels : ∀ remaining, (claimLevels n (Keys.new n).leased (Keys.new n).attempt now expires
      (levels.map Fin.val) remaining).Refines (Represents n)
        (Redis.claimLevels now expires levels remaining)) (due : List Int) :
    Action.Refines (Represents n)
      (if due = [] then claimLevels n (Keys.new n).leased (Keys.new n).attempt now expires
          (levels.map Fin.val) remaining
        else do
          let _ ← zrem (claimReady n level) due
          forM due (lease (Keys.new n).leased (Keys.new n).attempt expires)
          let rest ← claimLevels n (Keys.new n).leased (Keys.new n).attempt now expires
            (levels.map Fin.val) (remaining - due.length)
          pure (due ++ rest))
      fun s =>
        (due ++ (Redis.claimLevels now expires levels (remaining - due.length)
            (takeLevel level expires due s)).1,
          (Redis.claimLevels now expires levels (remaining - due.length)
            (takeLevel level expires due s)).2) := by
  split
  next hnone =>
    -- the script skips a level with nothing due; the store's round takes nothing from it
    subst hnone
    refine (hlevels remaining).congr fun s => ?_
    rw [takeLevel_nil]
    rfl
  next =>
    have htake := refines_zrem (n := n) (.ready level) due
    have hlease := Action.refines_forM (refines_lease (n := n) expires) due
    have hrest := (hlevels (remaining - due.length)).bind fun rest => Action.refines_pure (due ++ rest)
    exact htake.bind fun _ => hlease.bind fun _ => hrest

theorem refines_claimLevels (now expires : Int) : ∀ (levels : List (Fin 10)) (remaining : Nat),
    (claimLevels n (Keys.new n).leased (Keys.new n).attempt now expires (levels.map Fin.val)
      remaining).Refines (Represents n) (Redis.claimLevels now expires levels remaining)
  | [], _ => Action.refines_pure []
  | level :: levels, remaining => by
    by_cases hzero : remaining = 0
    · rw [List.map_cons, claimLevels, if_pos hzero]
      refine (Action.refines_pure []).congr fun s => ?_
      rw [Redis.claimLevels, if_pos hzero]
    · rw [List.map_cons, claimLevels, if_neg hzero]
      have hread := refines_read (n := n) (.ready level) fun z => z.rangeByScore before now remaining
      refine (hread.bind (refines_claimRest (refines_claimLevels now expires levels))).congr fun s => ?_
      rw [Redis.claimLevels, if_neg hzero]
      rfl

theorem refines_claim (now : Int) (limit : Nat) (expires : Int) :
    (claim (Keys.new n) now limit expires).Refines (Represents n) (Redis.claim now limit expires) := by
  have hlevels : List.range levels = (List.finRange 10).map Fin.val := by decide
  unfold claim
  rw [hlevels]
  exact refines_claimLevels now expires (List.finRange 10) limit

theorem refines_reclaim (now : Int) (limit : Nat) :
    (reclaim (Keys.new n).leased ((Keys.new n).ready 0) now limit).Refines (Represents n)
      (Redis.reclaimExpired limit now) := by
  have hread := refines_read (n := n) .leased fun z => z.rangeByScore before now limit
  refine hread.bind (g := fun expired s =>
    (expired.length, (s.zrem .leased expired).zadd .front now expired)) fun expired => ?_
  split
  next hnone =>
    subst hnone
    refine (Action.refines_pure 0).congr fun s => ?_
    rw [zrem_nil, zadd_nil]
    rfl
  next =>
    have htake := refines_zrem (n := n) .leased expired
    have hadd := Action.refines_forM (refines_zadd (n := n) .front now) expired
    refine (htake.bind fun _ => hadd.bind fun _ => Action.refines_pure expired.length).congr fun s => ?_
    rw [foldl_zadd]

theorem foldl_renewOne (expires : Int) : ∀ (ids : List Int) (k : Nat) (s : Store),
    ids.foldl (renewOne expires) (k, s) =
      (k + (Redis.renew ids expires s).1, (Redis.renew ids expires s).2)
  | [], _, _ => rfl
  | id :: ids, k, s => by
    unfold Redis.renew
    rw [List.foldl_cons, List.foldl_cons]
    by_cases hid : id ∈ s.sets .leased
    · have hone : ∀ k, renewOne expires (k, s) id = (k + 1, s.zadd .leased expires [id]) := fun _ => if_pos hid
      rw [hone, hone, foldl_renewOne expires ids, foldl_renewOne expires ids]
      simp only [Nat.zero_add, Nat.add_assoc]
    · have hone : ∀ k, renewOne expires (k, s) id = (k, s) := fun _ => if_neg hid
      rw [hone, hone, foldl_renewOne expires ids, foldl_renewOne expires ids]
      simp only [Nat.zero_add]

theorem renew_cons (expires id : Int) (ids : List Int) (s : Store) :
    Redis.renew (id :: ids) expires s =
      if ((s.sets .leased).score id).isSome then
        ((Redis.renew ids expires (s.zadd .leased expires [id])).1 + 1,
          (Redis.renew ids expires (s.zadd .leased expires [id])).2)
      else Redis.renew ids expires s := by
  have hmem : ((s.sets .leased).score id).isSome = true ↔ id ∈ s.sets .leased := by
    rw [Option.isSome_iff_ne_none, ne_eq, ZSet.score_eq_none_iff, not_not]
  show ids.foldl (renewOne expires) (renewOne expires (0, s) id) = _
  by_cases hid : id ∈ s.sets .leased
  · have hone : renewOne expires (0, s) id = (1, s.zadd .leased expires [id]) := if_pos hid
    rw [hone, foldl_renewOne, if_pos (hmem.mpr hid), Nat.add_comm]
  · have hone : renewOne expires (0, s) id = (0, s) := if_neg hid
    rw [hone, if_neg (hmem.not.mpr hid)]
    rfl

theorem refines_renew (expires : Int) : ∀ ids : List Int,
    (renew (Keys.new n).leased expires ids).Refines (Represents n) (Redis.renew ids expires)
  | [] => Action.refines_pure 0
  | id :: ids => by
    have hscore := refines_read (n := n) .leased fun z => z.score id
    have hrest := refines_renew expires ids
    refine (hscore.bind (g := fun score s => if score.isSome then
      ((Redis.renew ids expires (s.zadd .leased expires [id])).1 + 1,
        (Redis.renew ids expires (s.zadd .leased expires [id])).2)
      else Redis.renew ids expires s) fun score => ?_).congr fun s => ?_
    · split
      next =>
        have hadd := refines_zadd (n := n) .leased expires id
        exact hadd.bind fun _ => hrest.bind fun renewed => Action.refines_pure (renewed + 1)
      next => exact hrest
    · exact (renew_cons expires id ids s).symm

theorem refines_complete {ids : List Int} (hids : ids ≠ []) :
    (complete (Keys.new n) ids).Refines (Represents n) (Redis.complete ids) := by
  have hblock := ((refines_zrem (n := n) .leased ids).also (refines_hdel_payload ids)).also
    (refines_hdel_attempt ids)
  refine hblock.congr fun s => ?_
  unfold Redis.complete
  rw [if_neg hids]
  rfl

theorem refines_retry (id priority due : Int) :
    (retry (Keys.new n) id priority due).Refines (Represents n) fun s =>
      (removed [id] s, Redis.retry id priority due s) :=
  (refines_zrem .leased [id]).also (refines_zadd (.ready (level priority)) due id)

/-- The first block of `abandon`. -/
theorem refines_abandon {ids : List Int} (hids : ids ≠ []) :
    (zrem (Keys.new n).leased ids).Refines (Represents n) (Redis.abandon ids) := by
  refine (refines_zrem .leased ids).congr fun s => ?_
  unfold Redis.abandon
  rw [if_neg hids]
  rfl

theorem refines_abandonReady (ids : List Int) (due : Int) :
    (abandonReady (Keys.new n) ids due).Refines (Represents n) fun s =>
      ((), Redis.abandonReady ids due s) := by
  refine (Action.refines_block (refines_zadd (n := n) .front due) ids).congr fun s => ?_
  rw [foldl_zadd]
  rfl

theorem refines_zcard (level : Fin 10) :
    (zcard ((Keys.new n).ready level.val)).Refines (Represents n) fun s =>
      ((s.sets (.ready level)).members.length, s) :=
  refines_read (.ready level) fun z => z.members.length

/-- `enqueue` is the one step that may be refused, and then nothing is written. -/
theorem exec_enqueue (rmp : Rmp) {server : Server} {s : Store} (h : Represents n server s)
    (stored : Stored) (priority due : Int) :
    ((∃ t, Redis.enqueue rmp stored priority due s = .ok t ∧
        ((enqueue rmp (Keys.new n) stored priority due).exec server).1 = .ok () ∧
        Represents n ((enqueue rmp (Keys.new n) stored priority due).exec server).2 t) ∨
      ∃ e, Redis.enqueue rmp stored priority due s = .error e ∧
        (enqueue rmp (Keys.new n) stored priority due).exec server = (.error e, server)) := by
  unfold enqueue Redis.enqueue
  split
  next =>
    have hblock := (refines_hset (n := n) stored.id (rmp.encode stored)).also
      (refines_zadd (.ready (level priority)) due stored.id)
    exact .inl ⟨_, rfl, hblock server s h⟩
  next => exact .inr ⟨_, rfl, rfl⟩

theorem exec_del (keys : List String) (server : Server) :
    (del keys).exec server = (.ok (), fun key => if key ∈ keys then none else server key) := by
  induction keys generalizing server with
  | nil => rfl
  | cons key keys ih =>
    have hfirst : (Action.edit key (fun v => .ok v) id fun _ => .ok ((), none) : Command Unit).exec server =
        (.ok (), Function.update server key none) := Action.exec_edit_ok rfl rfl
    unfold del at ih ⊢
    rw [List.forM_cons, Action.exec_bind, hfirst, Action.andThen_ok, ih]
    refine Prod.ext rfl (funext fun k => ?_)
    by_cases hk : k = key
    · rw [hk]
      simp
    · simp [hk]

/-- The keys `clear` names are those the other steps use. -/
theorem clear_key (server : Server) {slot : Slot}
    (h : (∃ p : Place, slot = p.slot) ∨ slot = .payload ∨ slot = .attempt) :
    ((clear (Keys.new n)).exec server).2 ((Keys.new n).key slot) = none := by
  unfold clear
  rw [exec_del]
  refine if_pos (List.mem_append.mpr ?_)
  rcases h with ⟨p, rfl⟩ | rfl | rfl
  · cases p with
    | ready level => exact .inl (List.mem_map.mpr ⟨level.val, List.mem_range.mpr level.isLt, rfl⟩)
    | leased => exact .inr List.mem_cons_self
  · exact .inr (List.mem_cons_of_mem _ List.mem_cons_self)
  · exact .inr (List.mem_cons_of_mem _ (List.mem_cons_of_mem _ List.mem_cons_self))

/-- `clear` leaves the empty store, whatever was under the keys. -/
theorem represents_clear (server : Server) :
    Represents n ((clear (Keys.new n)).exec server).2 .empty where
  sets p := by rw [clear_key server (.inl ⟨p, rfl⟩)]; rfl
  payload := by rw [clear_key server (.inr (.inl rfl))]; exact ⟨.empty, rfl, fun _ => rfl⟩
  attempt := by rw [clear_key server (.inr (.inr rfl))]; exact ⟨.empty, rfl, fun _ => rfl⟩
end Command

/-! ## The operations of a store -/

/-- What a backend may do to the store of its namespace in one step. -/
inductive Store.Step (rmp : Rmp) : Store → Store → Prop where
  | enqueue {s t : Store} (stored : Stored) (priority due : Int)
      (h : Redis.enqueue rmp stored priority due s = .ok t) : Step rmp s t
  | claim (s : Store) (now : Int) (limit : Nat) (expires : Int) :
      Step rmp s (Redis.claim now limit expires s).2
  | complete (s : Store) (ids : List Int) : Step rmp s (Redis.complete ids s).2
  | retry (s : Store) (id priority due : Int) : Step rmp s (Redis.retry id priority due s)
  | renew (s : Store) (ids : List Int) (expires : Int) : Step rmp s (Redis.renew ids expires s).2
  | abandon (s : Store) (ids : List Int) : Step rmp s (Redis.abandon ids s).2
  | abandonReady (s : Store) (ids : List Int) (due : Int) : Step rmp s (Redis.abandonReady ids due s)
  | reclaimExpired (s : Store) (limit : Nat) (now : Int) : Step rmp s (Redis.reclaimExpired limit now s).2
  | clear (s : Store) : Step rmp s .empty

/-- What every step keeps holds of every store a run of steps reaches. -/
theorem Store.Step.inv {rmp : Rmp} {I : Store → Prop} (keep : ∀ {s t}, Store.Step rmp s t → I s → I t)
    {s t : Store}
    (h : Relation.ReflTransGen (Store.Step rmp) s t) (hs : I s) : I t := by
  induction h with
  | refl => exact hs
  | tail _ hstep ih => exact keep hstep ih

/-! ## A namespace among others -/

section
variable {rmp : Rmp} {n : String}

/-- The calls of a backend do to its keys what the operations of a store do to the store. -/
abbrev Call.OnStore {α : Type} (rmp : Rmp) (n : String) (c : Call α) : Prop :=
  Client.Follows (Represents n) (Store.Step rmp) c

theorem onStore_ask {α : Type} {m : Command α} {f : Store → α × Store} (hm : m.Refines (Represents n) f)
    (hf : ∀ s, Store.Step rmp s (f s).2) : Call.OnStore rmp n (Client.ask m) :=
  Client.follows_ask hm fun s => .single (hf s)

/-- A step that only reads. -/
theorem onStore_read {α : Type} {m : Command α} {f : Store → α}
    (hm : m.Refines (Represents n) fun s => (f s, s)) : Call.OnStore rmp n (Client.ask m) :=
  Client.follows_ask hm fun _ => .refl

theorem onStore_enqueue (stored : Stored) (priority due : Int) :
    Call.OnStore rmp n (Client.ask (Command.enqueue rmp (Keys.new n) stored priority due)) := by
  refine ⟨fun server s h => ?_, fun _ => trivial⟩
  rcases Command.exec_enqueue rmp h stored priority due with ⟨t, ht, _, hkeys⟩ | ⟨e, _, hexec⟩
  · exact ⟨t, .single (.enqueue stored priority due ht), hkeys⟩
  · refine ⟨s, .refl, ?_⟩
    show Represents n ((Command.enqueue rmp (Keys.new n) stored priority due).exec server).2 s
    rw [hexec]
    exact h

theorem onStore_fetch (limit : Nat) (now expires : Int) :
    Call.OnStore rmp n ((Backend.connectNamespaced n).fetch rmp limit now expires) := by
  refine (onStore_ask (Command.refines_claim now limit expires) fun s => .claim s now limit expires).bind
    fun claimed => ?_
  split
  next => exact Client.follows_done _
  next =>
    refine (onStore_read (Command.refines_payloads claimed)).bind fun raw => ?_
    exact (onStore_read (Command.refines_counters claimed)).bind fun attempts => Client.follows_done _

theorem onStore_complete (ids : List Int) :
    Call.OnStore rmp n ((Backend.connectNamespaced n).complete ids) := by
  unfold Backend.complete
  split
  next => exact Client.follows_done _
  next hids => exact onStore_ask (Command.refines_complete hids) fun s => .complete s ids

theorem onStore_renew (ids : List Int) (expires : Int) :
    Call.OnStore rmp n ((Backend.connectNamespaced n).renew ids expires) := by
  unfold Backend.renew
  split
  next => exact Client.follows_done _
  next => exact onStore_ask (Command.refines_renew expires ids) fun s => .renew s ids expires

theorem onStore_abandon (ids : List Int) (due : Int) :
    Call.OnStore rmp n ((Backend.connectNamespaced n).abandon ids due) := by
  unfold Backend.abandon
  split
  next => exact Client.follows_done _
  next hids =>
    refine (onStore_ask (Command.refines_abandon hids) fun s => .abandon s ids).bind fun removed => ?_
    refine (onStore_ask (Command.refines_abandonReady ids due) fun s => .abandonReady s ids due).bind ?_
    exact fun _ => Client.follows_done _

theorem onStore_depthFrom : ∀ (levels : List (Fin 10)) (total : Nat),
    Call.OnStore rmp n ((Backend.connectNamespaced n).depthFrom (levels.map Fin.val) total)
  | [], _ => Client.follows_done _
  | level :: levels, total =>
    (onStore_read (Command.refines_zcard level)).bind fun count =>
      onStore_depthFrom levels (total + count)

theorem onStore_clear : Call.OnStore rmp n (Backend.connectNamespaced n).clear :=
  ⟨fun server s _ => ⟨.empty, .single (.clear s), Command.represents_clear server⟩, fun _ => trivial⟩

theorem Operation.onStore (op : Operation) : Call.OnStore rmp n (op.on rmp (.connectNamespaced n)) := by
  cases op with
  | enqueue stored priority due =>
    exact Client.Follows.map ((onStore_enqueue stored priority due).bind fun _ => Client.follows_done _) _
  | fetch limit now expires => exact (onStore_fetch limit now expires).map _
  | complete ids => exact (onStore_complete ids).map _
  | retry id priority due =>
    have hask : Call.OnStore rmp n (Client.ask (Command.retry (Keys.new n) id priority due)) :=
      onStore_ask (Command.refines_retry id priority due) fun s => .retry s id priority due
    exact Client.Follows.map (hask.bind fun _ => Client.follows_done _) _
  | renew ids expires => exact (onStore_renew ids expires).map _
  | abandon ids due => exact (onStore_abandon ids due).map _
  | discard ids => exact (onStore_complete ids).map _
  | reclaimExpired limit now =>
    exact (onStore_ask (Command.refines_reclaim now limit) fun s => .reclaimExpired s limit now).map _
  | depth => exact (onStore_depthFrom (List.finRange 10) 0).map _
  | clear => exact onStore_clear.map _

theorem Backend.eq_connectNamespaced {b : Backend} (h : b.keys.namespaceName = n) :
    b = .connectNamespaced n := by
  obtain ⟨keys, built⟩ := b
  have hkeys : keys = Keys.new n := built.trans (congrArg Keys.new h)
  subst hkeys
  rfl

variable {ι : Type} [DecidableEq ι] (rmp) (backend : ι → Backend)

/-- **A namespace on a shared server is a store of its own**: after any run of calls, of
any backends of any namespaces, with calls dropped and replies lost, the keys of a
namespace stand for a store that the operations on a store alone can reach. -/
theorem namespace_is_store {server : Server} {s : Store} (h : Represents n server s)
    (turns : List (ι × Turn)) :
    ∃ t, Relation.ReflTransGen (Store.Step rmp) s t ∧
      Represents n (Runs.run (Deployments.serve rmp backend) (Deployments.idle server) turns).keys t := by
  have hturn : ∀ (i : ι) (turn : Turn), onNamespace backend n i = true →
      (turn.event rmp (backend i)).Follows (Represents n) (Store.Step rmp) := by
    intro i turn hi
    cases turn with
    | call op =>
      rw [Backend.eq_connectNamespaced (of_decide_eq_true hi)]
      exact op.onStore
    | step => trivial
    | lost taken => trivial
  -- a backend of the namespace follows the store, one of another does not reach its keys
  rw [Deployments.run_serve]
  refine (Shared.stands_run (fun hr heq => hr.congr heq) (fun _ => notMem_under_of_other)
    (Deployments.within_idle backend server) ⟨fun _ _ => trivial, s, .refl, h⟩ _ fun a ha => ?_).keys
  obtain ⟨turn, _, rfl⟩ := List.mem_map.mp ha
  exact ⟨turn.2.within_event rmp _, hturn turn.1 turn.2⟩
end

/-! ## Payloads stay readable -/

/-- Every payload is what some `enqueue` wrote for the id. -/
def Store.PayloadsRead (s : Store) (rmp : Rmp) : Prop :=
  ∀ id bytes, s.payload id = some bytes → ∃ stored, rmp.decode bytes = some stored ∧ stored.id = id

theorem claimLevels_payload (now expires : Int) : ∀ (levels : List (Fin 10)) (remaining : Nat) (s : Store),
    (claimLevels now expires levels remaining s).2.payload = s.payload
  | [], _, _ => rfl
  | level :: levels, remaining, s => by
    unfold claimLevels
    split
    next => rfl
    next =>
      rw [claimLevels_payload now expires levels]
      exact takeLevel_payload

theorem Store.PayloadsRead.of_eq {rmp : Rmp} {s t : Store} (h : s.PayloadsRead rmp)
    (heq : t.payload = s.payload) : t.PayloadsRead rmp := by
  intro id bytes hid
  rw [heq] at hid
  exact h id bytes hid

theorem Store.Step.payloadsRead {rmp : Rmp} {s t : Store} (h : Store.Step rmp s t)
    (hs : s.PayloadsRead rmp) : t.PayloadsRead rmp := by
  cases h with
  | enqueue stored priority due h =>
    obtain ⟨_, hpayload, hdecode⟩ := enqueue_ok h
    intro id bytes hid
    rw [hpayload, hset] at hid
    split at hid
    next heq =>
      cases hid
      exact ⟨stored, hdecode, heq.symm⟩
    next => exact hs id bytes hid
  | claim now limit expires => exact hs.of_eq (claimLevels_payload now expires _ limit s)
  | complete ids =>
    intro id bytes hid
    rw [complete_payload] at hid
    exact hs id bytes (of_hdel_eq_some hid).2
  | retry id priority due => exact hs.of_eq rfl
  | renew ids expires => exact hs.of_eq renew_payload
  | abandon ids => exact hs.of_eq abandon_payload
  | abandonReady ids due => exact hs.of_eq rfl
  | reclaimExpired limit now => exact hs.of_eq rfl
  | clear =>
    intro id bytes hid
    cases hid

/-- Nobody who shares the server makes a payload of the namespace unreadable: what a
`fetch` reads under an id, at any time, is what was enqueued under it. -/
theorem payload_reads (rmp : Rmp) {ι : Type} [DecidableEq ι] (backend : ι → Backend) {n : String}
    {server : Server} (h : Represents n server .empty) (turns : List (ι × Turn)) :
    ∃ payload : Int → Option Bytes,
      (∀ ids, ((Command.payloads (Keys.new n) ids).exec
        (Runs.run (Deployments.serve rmp backend) (Deployments.idle server) turns).keys).1 =
          .ok (ids.map payload)) ∧
      ∀ id bytes, payload id = some bytes →
        ∃ stored, rmp.decode bytes = some stored ∧ stored.id = id := by
  obtain ⟨t, hreach, hkeys⟩ := namespace_is_store rmp backend h turns
  have hread : t.PayloadsRead rmp :=
    Store.Step.inv Store.Step.payloadsRead hreach fun id bytes hid => by cases hid
  exact ⟨t.payload, fun ids => (Command.refines_payloads ids _ t hkeys).1, hread⟩

end Gylo.Redis
