import Gylo.Redis.Server

/-! # Namespaces on one server

Every command of every operation goes to a key of the backend's own namespace, and a key
tells its namespace. So no operation, finished or failed, reaches what another namespace
keeps, and however the calls on a server interleave, each namespace sees its own calls
only. -/
namespace Gylo.Redis

open Gylo.Store Keyspace SortedSets

/-! ## The keys of the steps -/

namespace Command

variable {K : Set String} {key : String}

theorem within_onZSet {α : Type} (hk : key ∈ K) (f : ZSet Int → α × ZSet Int) : (onZSet key f).Within K :=
  Action.within_edit hk _ _ _

theorem within_onHash {α : Type} (hk : key ∈ K)
    (f : Hash Int Field → Except Error (α × Hash Int Field)) : (onHash key f).Within K :=
  Action.within_edit hk _ _ _

theorem within_zadd (hk : key ∈ K) (score id : Int) : (zadd key score id).Within K := within_onZSet hk _

theorem within_zrem (hk : key ∈ K) (ids : List Int) : (zrem key ids).Within K := within_onZSet hk _

theorem within_zrangeByScore (hk : key ∈ K) (max : Int) (count : Nat) :
    (zrangeByScore key max count).Within K := within_onZSet hk _

theorem within_hset (hk : key ∈ K) (id : Int) (bytes : Bytes) : (hset key id bytes).Within K :=
  within_onHash hk _

theorem within_hdel (hk : key ∈ K) (ids : List Int) : (hdel key ids).Within K := within_onHash hk _

theorem within_del {keys : List String} (hkeys : ∀ key ∈ keys, key ∈ K) : (del keys).Within K := by
  induction keys with
  | nil => exact Action.within_pure _
  | cons key keys ih =>
    obtain ⟨hkey, hrest⟩ := List.forall_mem_cons.mp hkeys
    unfold del
    rw [List.forM_cons]
    exact (Action.within_edit hkey _ _ _).bind fun _ => ih hrest

/-- The script reaches the ready sets of its own accord, not through its keys. -/
theorem within_claimLevels {n leased attempt : String} (hready : ∀ level, claimReady n level ∈ K)
    (hleased : leased ∈ K) (hattempt : attempt ∈ K) (now expires : Int) :
    ∀ (levels : List Nat) (remaining : Nat),
      (claimLevels n leased attempt now expires levels remaining).Within K
  | [], _ => Action.within_pure _
  | level :: levels, remaining => by
    have hlease : ∀ id, (lease leased attempt expires id).Within K := fun id =>
      (within_zadd hleased expires id).bind fun _ => within_onHash hattempt _
    unfold claimLevels
    split
    next => exact Action.within_pure _
    next =>
      refine (within_zrangeByScore (hready level) now remaining).bind fun due => ?_
      split
      next => exact within_claimLevels hready hleased hattempt now expires levels remaining
      next =>
        refine (within_zrem (hready level) due).bind fun _ => ?_
        refine (Action.within_forM hlease due).bind fun _ => ?_
        refine (within_claimLevels hready hleased hattempt now expires levels _).bind fun rest => ?_
        exact Action.within_pure _

theorem within_reclaim {leased ready : String} (hleased : leased ∈ K) (hready : ready ∈ K) (now : Int)
    (limit : Nat) : (reclaim leased ready now limit).Within K := by
  refine (within_zrangeByScore hleased now limit).bind fun expired => ?_
  split
  next => exact Action.within_pure _
  next =>
    refine (within_zrem hleased expired).bind fun _ => ?_
    exact (Action.within_forM (within_zadd hready now) expired).bind fun _ => Action.within_pure _

theorem within_renew {leased : String} (hleased : leased ∈ K) (expires : Int) :
    ∀ ids : List Int, (renew leased expires ids).Within K
  | [] => Action.within_pure _
  | id :: ids => by
    have hrest := within_renew hleased expires ids
    refine (within_onZSet hleased _).bind fun score => ?_
    split
    next =>
      refine (within_zadd hleased expires id).bind fun _ => ?_
      exact hrest.bind fun _ => Action.within_pure _
    next => exact hrest
end Command

/-! ## The keys of a call -/

namespace Backend

variable (b : Backend)

/-- The keys built for the backend's namespace. -/
def home : Set String := Keys.under b.keys.namespaceName

theorem key_mem_home (slot : Slot) : b.keys.key slot ∈ b.home := by
  have hbuilt : Keys.Built b.keys.namespaceName ((Keys.new b.keys.namespaceName).key slot) := .formatted slot
  rw [← b.built] at hbuilt
  exact hbuilt

theorem leased_mem_home : b.keys.leased ∈ b.home := b.key_mem_home .leased

theorem payload_mem_home : b.keys.payload ∈ b.home := b.key_mem_home .payload

theorem attempt_mem_home : b.keys.attempt ∈ b.home := b.key_mem_home .attempt

theorem ready_mem_home (level : Int) : b.keys.ready level ∈ b.home := b.key_mem_home (.ready level)

theorem within_enqueue (rmp : Rmp) (stored : Stored) (priority due : Int) :
    (b.enqueue rmp stored priority due).Within b.home := by
  have hblock : (Command.enqueue rmp b.keys stored priority due).Within b.home := by
    unfold Command.enqueue
    split
    next =>
      have hset := Command.within_hset b.payload_mem_home stored.id (rmp.encode stored)
      exact hset.also (Command.within_zadd (b.ready_mem_home _) due stored.id)
    next => exact Action.within_throw _
  exact (Client.within_ask hblock).bind fun _ => Client.within_done _

theorem within_fetch (rmp : Rmp) (limit : Nat) (now expires : Int) :
    (b.fetch rmp limit now expires).Within b.home := by
  have hclaim : (Command.claim b.keys now limit expires).Within b.home :=
    Command.within_claimLevels (fun level => Keys.Built.concatenated level) b.leased_mem_home
      b.attempt_mem_home now expires _ limit
  have hpayloads : ∀ ids, (Command.payloads b.keys ids).Within b.home := fun ids =>
    (Command.within_onHash b.payload_mem_home _).bind fun _ => Action.within_pure _
  have hcounters : ∀ ids, (Command.counters b.keys ids).Within b.home := by
    intro ids
    refine (Command.within_onHash b.attempt_mem_home _).bind fun fields => ?_
    split
    next counts _ => exact Action.within_pure counts
    next e _ => exact Action.within_throw e
  refine (Client.within_ask hclaim).bind fun claimed => ?_
  split
  next => exact Client.within_done _
  next =>
    refine (Client.within_ask (hpayloads claimed)).bind fun raw => ?_
    exact (Client.within_ask (hcounters claimed)).bind fun attempts => Client.within_done _

theorem within_complete (ids : List Int) : (b.complete ids).Within b.home := by
  unfold complete
  split
  next => exact Client.within_done _
  next =>
    have hfirst := (Command.within_zrem b.leased_mem_home ids).also
      (Command.within_hdel b.payload_mem_home ids)
    exact Client.within_ask (hfirst.also (Command.within_hdel b.attempt_mem_home ids))

theorem within_retry (id priority due : Int) : (b.retry id priority due).Within b.home := by
  have hblock := (Command.within_zrem b.leased_mem_home [id]).also
    (Command.within_zadd (b.ready_mem_home (level priority).val) due id)
  exact (Client.within_ask hblock).bind fun _ => Client.within_done _

theorem within_renew (ids : List Int) (expires : Int) : (b.renew ids expires).Within b.home := by
  unfold renew
  split
  next => exact Client.within_done _
  next => exact Client.within_ask (Command.within_renew b.leased_mem_home expires ids)

theorem within_abandon (ids : List Int) (due : Int) : (b.abandon ids due).Within b.home := by
  have hready : (Command.abandonReady b.keys ids due).Within b.home := by
    refine Action.within_block fun m hm => ?_
    obtain ⟨id, _, rfl⟩ := List.mem_map.mp hm
    exact Command.within_zadd (b.ready_mem_home 0) due id
  unfold abandon
  split
  next => exact Client.within_done _
  next =>
    refine (Client.within_ask (Command.within_zrem b.leased_mem_home ids)).bind fun removed => ?_
    exact (Client.within_ask hready).bind fun _ => Client.within_done _

theorem within_depthFrom : ∀ (levels : List Nat) (total : Nat), (b.depthFrom levels total).Within b.home
  | [], _ => Client.within_done _
  | level :: levels, total =>
    (Client.within_ask (Command.within_onZSet (b.ready_mem_home level) _)).bind fun count =>
      within_depthFrom levels (total + count)

theorem within_clear : b.clear.Within b.home := by
  refine Client.within_ask (Command.within_del fun key hkey => ?_)
  simp only [List.mem_append, List.mem_map, List.mem_cons, List.not_mem_nil, or_false] at hkey
  rcases hkey with ⟨level, _, rfl⟩ | rfl | rfl | rfl
  · exact b.ready_mem_home level
  · exact b.leased_mem_home
  · exact b.payload_mem_home
  · exact b.attempt_mem_home
end Backend

/-- Every operation keeps to the keys built for the backend's namespace. -/
theorem Operation.within_on (rmp : Rmp) (b : Backend) (op : Operation) :
    (op.on rmp b).Within b.home := by
  cases op with
  | enqueue stored priority due => exact (b.within_enqueue rmp stored priority due).map _
  | fetch limit now expires => exact (b.within_fetch rmp limit now expires).map _
  | complete ids => exact (b.within_complete ids).map _
  | retry id priority due => exact (b.within_retry id priority due).map _
  | renew ids expires => exact (b.within_renew ids expires).map _
  | abandon ids due => exact (b.within_abandon ids due).map _
  | discard ids => exact (b.within_complete ids).map _
  | reclaimExpired limit now =>
    exact (Client.within_ask
      (Command.within_reclaim b.leased_mem_home (b.ready_mem_home 0) now limit)).map _
  | depth => exact (b.within_depthFrom _ 0).map _
  | clear => exact b.within_clear.map _

/-! ## Namespaces do not overlap -/

/-- **Namespaces do not overlap.** No key built under one namespace, in Rust or in the
script, is a key built under another one, and every operation of a backend leaves all
keys of the other namespaces as they are, whether it fails or not. -/
theorem namespaces_do_not_overlap (rmp : Rmp) {n₁ n₂ : String} (h : n₁ ≠ n₂) :
    (∀ key₁ key₂, Keys.Built n₁ key₁ → Keys.Built n₂ key₂ → key₁ ≠ key₂) ∧
      ∀ (b : Backend) (op : Operation) (server : Server) (key : String),
        b.keys.namespaceName = n₁ → Keys.Built n₂ key →
          ((op.on rmp b).alone server).2 key = server key := by
  refine ⟨fun key₁ key₂ hkey₁ hkey₂ hsame => ?_, fun b op server key hb hkey => ?_⟩
  · rw [← hsame] at hkey₂
    exact h (Keys.eq_of_built hkey₁ hkey₂)
  · have hown : key ∉ b.home := by
      unfold Backend.home
      rw [hb]
      exact Keys.notMem_under h.symm key hkey
    exact (op.within_on rmp b).alone_frame server hown

/-- A namespace that begins with a key of another one: clearing `gylo` deletes
`gylo:ready:0`, and leaves `gylo:ready:0:leased`. -/
theorem clear_beside_longer_namespace :
    "gylo" ≠ "gylo:ready:0" ∧
      ((Operation.clear.on .messagePack .connect).alone fun _ => some (.other [])).2
        (Keys.new "gylo:ready:0").leased = some (.other []) := by
  have hne : "gylo" ≠ "gylo:ready:0" := by decide
  exact ⟨hne, (namespaces_do_not_overlap .messagePack hne).2 .connect .clear _ _ rfl (.formatted .leased)⟩

/-! ## Deployments that share a server -/

/-- What happens to a backend: it is asked for an operation, which drops one it was in,
the server takes the next step of it, or the connection fails around a step. -/
inductive Turn where
  | call (op : Operation)
  | step
  | lost (taken : Bool)

def Turn.event (rmp : Rmp) (b : Backend) : Turn → Event String (Option Value) Error Answer
  | .call op => .call (op.on rmp b)
  | .step => .step
  | .lost taken => .lost taken .redis

theorem Turn.within_event (rmp : Rmp) (b : Backend) (turn : Turn) :
    (turn.event rmp b).Within b.home := by
  cases turn with
  | call op => exact op.within_on rmp b
  | step => trivial
  | lost taken => trivial

section
variable {ι : Type} (rmp : Rmp) (backend : ι → Backend)

abbrev Deployments (ι : Type) := Shared ι String (Option Value) Error Answer

/-- No backend is in a call. -/
def Deployments.idle (server : Server) : Deployments ι := ⟨server, fun _ => .done (.ok .unit)⟩

/-- The backend is one of a namespace. -/
def onNamespace (n : String) (i : ι) : Bool := (backend i).keys.namespaceName = n

variable {backend} in
theorem notMem_under_of_other {n : String} {i : ι} (hi : onNamespace backend n i = false) :
    ∀ key ∈ (backend i).home, key ∉ Keys.under n :=
  Keys.notMem_under (of_decide_eq_false hi)

theorem Deployments.within_idle (server : Server) :
    (Deployments.idle server).Within fun i => (backend i).home := fun _ => trivial

variable [DecidableEq ι]

def Deployments.serve (s : Deployments ι) (a : ι × Turn) : Deployments ι :=
  s.step (a.1, a.2.event rmp (backend a.1))

theorem Deployments.run_serve (s : Deployments ι) (turns : List (ι × Turn)) :
    Runs.run (Deployments.serve rmp backend) s turns =
      Runs.run Shared.step s (turns.map fun a => (a.1, a.2.event rmp (backend a.1))) := by
  unfold Runs.run
  rw [List.foldl_map]
  rfl

/-- **Each namespace sees its own calls only**: however the calls of all backends
interleave, whichever are dropped and whichever replies are lost, the keys of a
namespace and the calls of its backends are what they are if nobody else uses the
server. -/
theorem namespace_sees_own_calls (n : String) (server : Server) (turns : List (ι × Turn)) :
    Shared.Same (Keys.under n) (onNamespace backend n)
      (Runs.run (Deployments.serve rmp backend) (Deployments.idle server) turns)
      (Runs.run (Deployments.serve rmp backend) (Deployments.idle server)
        (turns.filter fun a => onNamespace backend n a.1)) := by
  have hmine : ∀ i, onNamespace backend n i = true → (backend i).home = Keys.under n := by
    intro i hi
    exact congrArg Keys.under (of_decide_eq_true hi)
  have hrun := Shared.same_run_filter hmine (fun _ => notMem_under_of_other)
    (Deployments.within_idle backend server)
    (turns.map fun a => (a.1, a.2.event rmp (backend a.1))) fun a ha => by
      obtain ⟨turn, _, rfl⟩ := List.mem_map.mp ha
      exact turn.2.within_event rmp _
  rw [Deployments.run_serve, Deployments.run_serve]
  rw [List.filter_map] at hrun
  exact hrun
end

end Gylo.Redis
