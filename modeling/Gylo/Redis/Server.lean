import Gylo.Lib.Keyspace
import Gylo.Redis.Backend
import Gylo.Redis.Keys

/-! # The backend on a server that others use

The server holds a value under any text. The backend reaches it through keys it builds,
with commands that refuse a value of another type, with scripts that stop at the first
command that fails and keep what they have written, and with `MULTI` blocks that run to
their end. Each operation is a call of one or more such steps, and says which key every
command is sent to. Times are in milliseconds, and every `now_millis()` is an argument.

Members and fields are job ids, as the backend writes them. -/
namespace Gylo.Redis

open Gylo.Store Keyspace SortedSets

/-! ## What the server holds -/

/-- The value of a hash field. `HINCRBY` refuses one that is not a number. -/
inductive Field where
  | bytes (bytes : Bytes)
  | count (n : Int)
deriving DecidableEq

/-- What a client reads. -/
def Field.raw : Field → Bytes
  | .bytes b => b
  | .count n => (toString n).toUTF8.toList

def Field.counter : Option Field → Except Error (Option Int)
  | none => .ok none
  | some (.count n) => .ok (some n)
  | some (.bytes _) => .error .redis

/-- A sorted set or hash that becomes empty is no key any more. -/
inductive Value where
  | zset (z : ZSet Int) (kept : z.entries ≠ [])
  | hash (h : Hash Int Field) (kept : h.entries ≠ [])
  | other (bytes : Bytes)

abbrev Server := String → Option Value

abbrev Command := Action String (Option Value) Error

abbrev Call := Client String (Option Value) Error

/-- No key is an empty sorted set; a value of another type is refused (`WRONGTYPE`). -/
def readZSet : Option Value → Except Error (ZSet Int)
  | none => .ok .empty
  | some (.zset z _) => .ok z
  | some _ => .error .redis

def writeZSet (z : ZSet Int) : Option Value := if h : z.entries ≠ [] then some (.zset z h) else none

def readHash : Option Value → Except Error (Hash Int Field)
  | none => .ok .empty
  | some (.hash h _) => .ok h
  | some _ => .error .redis

def writeHash (h : Hash Int Field) : Option Value :=
  if kept : h.entries ≠ [] then some (.hash h kept) else none

namespace Command

/-! ## Commands -/

def onZSet {α : Type} (key : String) (f : ZSet Int → α × ZSet Int) : Command α :=
  .edit key readZSet writeZSet fun z => .ok (f z)

def onHash {α : Type} (key : String) (f : Hash Int Field → Except Error (α × Hash Int Field)) :
    Command α :=
  .edit key readHash writeHash f

def zadd (key : String) (score id : Int) : Command Unit := onZSet key fun z => ((), z.add id score)

def zrem (key : String) (ids : List Int) : Command Nat :=
  onZSet key fun z => ((z.members.filter fun id => id ∈ ids).length, z.rem ids)

/-- `ZRANGEBYSCORE key -inf max LIMIT 0 count` -/
def zrangeByScore (key : String) (max : Int) (count : Nat) : Command (List Int) :=
  onZSet key fun z => (z.rangeByScore before max count, z)

def zscore (key : String) (id : Int) : Command (Option Int) := onZSet key fun z => (z.score id, z)

def zcard (key : String) : Command Nat := onZSet key fun z => (z.members.length, z)

def hset (key : String) (id : Int) (bytes : Bytes) : Command Unit :=
  onHash key fun h => .ok ((), h.set id (.bytes bytes))

def hdel (key : String) (ids : List Int) : Command Unit := onHash key fun h => .ok ((), h.del ids)

/-- The number in the field, or zero, becomes larger by `n`. -/
def increment (id n : Int) (h : Hash Int Field) : Except Error (Unit × Hash Int Field) :=
  match h.lookup id with
  | none => .ok ((), h.set id (.count n))
  | some (.count m) => .ok ((), h.set id (.count (m + n)))
  | some (.bytes _) => .error .redis

def hincrby (key : String) (id n : Int) : Command Unit := onHash key (increment id n)

def hmget (key : String) (ids : List Int) : Command (List (Option Field)) :=
  onHash key fun h => .ok (ids.map h.lookup, h)

/-- `DEL`, of values of any type. -/
def del (keys : List String) : Command Unit :=
  forM keys fun key => .edit key (fun v => .ok v) id fun _ => .ok ((), none)

/-! ## Scripts and blocks -/

/-- The round of `CLAIM` for one id. -/
def lease (leased attempt : String) (expires id : Int) : Command Unit := do
  zadd leased expires id
  hincrby attempt id 1

/-- The loop of `CLAIM`, over the levels that are left. -/
def claimLevels (namespaceName leased attempt : String) (now expires : Int) :
    List Nat → Nat → Command (List Int)
  | [], _ => pure []
  | level :: levels, remaining =>
    if remaining = 0 then pure []
    else do
      let due ← zrangeByScore (claimReady namespaceName level) now remaining
      if due = [] then claimLevels namespaceName leased attempt now expires levels remaining
      else do
        let _ ← zrem (claimReady namespaceName level) due
        forM due (lease leased attempt expires)
        let rest ← claimLevels namespaceName leased attempt now expires levels (remaining - due.length)
        pure (due ++ rest)

/-- `LEVELS` -/
def levels : Nat := 10

/-- `CLAIM`, with the keys and arguments `fetch` gives it. -/
def claim (keys : Keys) (now : Int) (limit : Nat) (expires : Int) : Command (List Int) :=
  claimLevels keys.namespaceName keys.leased keys.attempt now expires (List.range levels) limit

/-- `RECLAIM` -/
def reclaim (leased ready : String) (now : Int) (limit : Nat) : Command Nat := do
  let expired ← zrangeByScore leased now limit
  if expired = [] then pure 0
  else do
    let _ ← zrem leased expired
    forM expired (zadd ready now)
    pure expired.length

/-- The loop of `RENEW`. -/
def renew (leased : String) (expires : Int) : List Int → Command Nat
  | [] => pure 0
  | id :: ids => do
    let score ← zscore leased id
    if score.isSome then do
      zadd leased expires id
      let renewed ← renew leased expires ids
      pure (renewed + 1)
    else renew leased expires ids

/-- The block of `enqueue`; the server refuses a value that is too long. -/
def enqueue (rmp : Rmp) (keys : Keys) (stored : Stored) (priority due : Int) : Command Unit :=
  if (rmp.encode stored).length ≤ bulkLimit then
    (hset keys.payload stored.id (rmp.encode stored)).also
      (zadd (keys.ready (level priority).val) due stored.id)
  else throw .redis

/-- The block of `complete`. -/
def complete (keys : Keys) (ids : List Int) : Command Nat :=
  ((zrem keys.leased ids).also (hdel keys.payload ids)).also (hdel keys.attempt ids)

/-- The block of `retry`. -/
def retry (keys : Keys) (id priority due : Int) : Command Nat :=
  (zrem keys.leased [id]).also (zadd (keys.ready (level priority).val) due id)

/-- The second block of `abandon`. -/
def abandonReady (keys : Keys) (ids : List Int) (due : Int) : Command Unit :=
  .block (ids.map (zadd (keys.ready 0) due))

/-- The first `HMGET` of `fetch`. -/
def payloads (keys : Keys) (ids : List Int) : Command (List (Option Bytes)) := do
  let fields ← hmget keys.payload ids
  pure (fields.map (Option.map Field.raw))

/-- The second one: what is not a number is refused on reading. -/
def counters (keys : Keys) (ids : List Int) : Command (List (Option Int)) := do
  let fields ← hmget keys.attempt ids
  match fields.mapM Field.counter with
  | .ok counts => pure counts
  | .error e => throw e

/-- The `DEL` of `clear`. -/
def clear (keys : Keys) : Command Unit :=
  del ((List.range levels).map (fun level : Nat => keys.ready level) ++
    [keys.leased, keys.payload, keys.attempt])

end Command

/-! ## The backend -/

/-- `Backend`: its keys were built for a namespace. The connection is the server, and
whether it is durable is not asked by any operation. -/
structure Backend where
  keys : Keys
  built : keys = Keys.new keys.namespaceName

def Backend.connectNamespaced (namespaceName : String) : Backend := ⟨Keys.new namespaceName, rfl⟩

def Backend.connect : Backend := .connectNamespaced "gylo"

namespace Backend

variable (b : Backend)

def enqueue (rmp : Rmp) (stored : Stored) (priority due : Int) : Call Int := do
  Client.ask (Command.enqueue rmp b.keys stored priority due)
  pure stored.id

def fetch (rmp : Rmp) (limit : Nat) (now expires : Int) : Call (List Job) := do
  let claimed ← Client.ask (Command.claim b.keys now limit expires)
  if claimed = [] then pure []
  else do
    let raw ← Client.ask (Command.payloads b.keys claimed)
    let attempts ← Client.ask (Command.counters b.keys claimed)
    .done (fetchResult rmp claimed raw attempts)

def complete (ids : List Int) : Call Nat :=
  if ids = [] then pure 0 else Client.ask (Command.complete b.keys ids)

def retry (id priority due : Int) : Call Unit := do
  let _ ← Client.ask (Command.retry b.keys id priority due)
  pure ()

def renew (ids : List Int) (expires : Int) : Call Nat :=
  if ids = [] then pure 0 else Client.ask (Command.renew b.keys.leased expires ids)

def abandon (ids : List Int) (due : Int) : Call Nat :=
  if ids = [] then pure 0
  else do
    let removed ← Client.ask (Command.zrem b.keys.leased ids)
    Client.ask (Command.abandonReady b.keys ids due)
    pure removed

def discard (ids : List Int) : Call Nat := b.complete ids

def reclaimExpired (limit : Nat) (now : Int) : Call Nat :=
  Client.ask (Command.reclaim b.keys.leased (b.keys.ready 0) now limit)

/-- The loop of `depth`, a `ZCARD` at a time. -/
def depthFrom : List Nat → Nat → Call Nat
  | [], total => pure total
  | level :: levels, total => do
    let count ← Client.ask (Command.zcard (b.keys.ready level))
    depthFrom levels (total + count)

def depth : Call Nat := b.depthFrom (List.range Command.levels) 0

def clear : Call Unit := Client.ask (Command.clear b.keys)

end Backend

/-- What a backend can be asked to do. -/
inductive Operation where
  | enqueue (stored : Stored) (priority due : Int)
  | fetch (limit : Nat) (now expires : Int)
  | complete (ids : List Int)
  | retry (id priority due : Int)
  | renew (ids : List Int) (expires : Int)
  | abandon (ids : List Int) (due : Int)
  | discard (ids : List Int)
  | reclaimExpired (limit : Nat) (now : Int)
  | depth
  | clear

inductive Answer where
  | id (id : Int)
  | jobs (jobs : List Job)
  | count (n : Nat)
  | unit
deriving DecidableEq

def Operation.on (rmp : Rmp) (b : Backend) : Operation → Call Answer
  | .enqueue stored priority due => .id <$> b.enqueue rmp stored priority due
  | .fetch limit now expires => .jobs <$> b.fetch rmp limit now expires
  | .complete ids => .count <$> b.complete ids
  | .retry id priority due => (fun _ => .unit) <$> b.retry id priority due
  | .renew ids expires => .count <$> b.renew ids expires
  | .abandon ids due => .count <$> b.abandon ids due
  | .discard ids => .count <$> b.discard ids
  | .reclaimExpired limit now => .count <$> b.reclaimExpired limit now
  | .depth => .count <$> b.depth
  | .clear => (fun _ => .unit) <$> b.clear

end Gylo.Redis
