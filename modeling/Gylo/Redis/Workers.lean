import Gylo.Lib.Runs
import Gylo.Redis.Backend
import Mathlib.Logic.Function.Basic

/-! # Workers on one namespace

Any number of workers interleave their calls, one step of the server at a time. A
call borrows its backend mutably, so a worker is in one call at most; dropping the
call's future leaves it where it was. A worker settles what it fetched at some
time, and nothing tells it that a lease has since gone to another. What the store
does not record is kept beside it: who has claimed a job and not lost it, and which
jobs were finished. -/
namespace Gylo.Redis

open Gylo.Store (Bytes)
open SortedSets

/-- Where a worker is in its call. -/
inductive Stage where
  | idle
  | claimed (ids : List Int)
  | loaded (ids : List Int) (raw : List (Option Bytes))
  | abandoning (ids : List Int)
deriving DecidableEq

structure System where
  store : Store
  workers : Nat → Stage
  /-- What a worker's fetches returned to it, ever. -/
  fetched : Nat → List Int
  /-- The workers that claimed the job and have neither settled nor lost it. -/
  holders : Int → List Nat
  enqueued : List Int
  finished : List Int
  /-- What the fetches returned, the last one first. -/
  returned : List (Except Error (List Job))

def opened : System := ⟨.empty, fun _ => .idle, fun _ => [], fun _ => [], [], [], []⟩

/-- The calls that settle what was fetched; of `abandon`, its first block. -/
inductive Op where
  | complete (ids : List Int)
  | discard (ids : List Int)
  | retry (id priority due : Int)
  | renew (ids : List Int) (expires : Int)
  | abandon (ids : List Int)

def Op.ids : Op → List Int
  | .complete ids | .discard ids | .renew ids _ | .abandon ids => ids
  | .retry id _ _ => [id]

def Op.apply : Op → Store → Store
  | .complete ids, s => (Redis.complete ids s).2
  | .discard ids, s => (Redis.discard ids s).2
  | .retry id priority due, s => Redis.retry id priority due s
  | .renew ids expires, s => (Redis.renew ids expires s).2
  | .abandon ids, s => (Redis.abandon ids s).2

/-- The jobs that are over, for whoever has them. -/
def Op.finishes : Op → List Int
  | .complete ids | .discard ids => ids
  | _ => []

/-- Who still holds a job named by the call, of those that held it. -/
def Op.leaves (w : Nat) : Op → List Nat → List Nat
  | .complete _, _ | .discard _, _ => []
  | .retry .., ws | .abandon _, ws => ws.filter (· ≠ w)
  | .renew .., ws => ws

/-- `abandon` goes on to its second block. -/
def Op.next : Op → Stage
  | .abandon ids => if ids = [] then .idle else .abandoning ids
  | _ => .idle

inductive Act where
  | enqueue (stored : Stored) (priority due : Int)
  | claim (w : Nat) (limit : Nat) (now expires : Int)
  /-- The first `HMGET` of a fetch. -/
  | payloads (w : Nat)
  /-- The second one, and the fetch returns. -/
  | counters (w : Nat)
  | settle (w : Nat) (op : Op)
  | abandonReady (w : Nat) (due : Int)
  | reclaimExpired (limit : Nat) (now : Int)
  /-- The call's future is dropped. -/
  | drop (w : Nat)

namespace System

def enqueues (stored : Stored) (store : Store) (s : System) : System :=
  { s with store := store, enqueued := stored.id :: s.enqueued }

def claims (w : Nat) (r : List Int × Store) (s : System) : System :=
  { s with
    store := r.2
    holders := fun id => if id ∈ r.1 then w :: s.holders id else s.holders id
    workers := Function.update s.workers w (if r.1 = [] then .idle else .claimed r.1)
    returned := if r.1 = [] then .ok [] :: s.returned else s.returned }

def loads (w : Nat) (ids : List Int) (s : System) : System :=
  { s with workers := Function.update s.workers w (.loaded ids (ids.map s.store.payload)) }

def returns (w : Nat) (result : Except Error (List Job)) (s : System) : System :=
  { s with
    workers := Function.update s.workers w .idle
    fetched := Function.update s.fetched w
      ((result.toOption.getD []).map Job.id ++ s.fetched w)
    returned := result :: s.returned }

/-- A worker between two calls names only what it fetched. -/
def May (w : Nat) (op : Op) (s : System) : Prop :=
  s.workers w = .idle ∧ ∀ id ∈ op.ids, id ∈ s.fetched w

instance (w : Nat) (op : Op) (s : System) : Decidable (s.May w op) :=
  inferInstanceAs (Decidable (_ ∧ _))

def settles (w : Nat) (op : Op) (s : System) : System :=
  { s with
    store := op.apply s.store
    holders := fun id => if id ∈ op.ids then op.leaves w (s.holders id) else s.holders id
    finished := op.finishes ++ s.finished
    workers := Function.update s.workers w op.next }

def abandons (w : Nat) (ids : List Int) (due : Int) (s : System) : System :=
  { s with
    store := abandonReady ids due s.store
    workers := Function.update s.workers w .idle }

def reclaims (limit : Nat) (now : Int) (s : System) : System :=
  { s with
    store := (reclaimExpired limit now s.store).2
    holders := fun id => if id ∈ dueBy now limit .leased s.store then [] else s.holders id }

def drops (w : Nat) (s : System) : System := { s with workers := Function.update s.workers w .idle }
end System

def step (rmp : Rmp) (s : System) : Act → System
  | .enqueue stored priority due =>
    if stored.id ∈ s.enqueued then s
    else
      match enqueue rmp stored priority due s.store with
      | .ok store => s.enqueues stored store
      | .error _ => s
  | .claim w limit now expires =>
    if s.workers w = .idle then s.claims w (claim now limit expires s.store) else s
  | .payloads w =>
    match s.workers w with
    | .claimed ids => s.loads w ids
    | _ => s
  | .counters w =>
    match s.workers w with
    | .loaded ids raw => s.returns w (fetchResult rmp ids raw (ids.map s.store.attempt))
    | _ => s
  | .settle w op => if s.May w op then s.settles w op else s
  | .abandonReady w due =>
    match s.workers w with
    | .abandoning ids => s.abandons w ids due
    | _ => s
  | .reclaimExpired limit now => s.reclaims limit now
  | .drop w => s.drops w

def after (rmp : Rmp) (as : List Act) : System := Runs.run (step rmp) opened as

/-! ## What the queue is for -/

/-- Each job has one place while it is unfinished, one worker at most has it and has its
lease, and no fetch fails for want of a payload, or is bound to. -/
structure Sound (s : System) : Prop where
  partition : s.store.Partition
  unfinished : ∀ id ∈ s.enqueued, id ∉ s.finished → ∃ p, id ∈ s.store.sets p
  alone : ∀ {id w w'}, w ∈ s.holders id → w' ∈ s.holders id → w = w'
  leased : ∀ {id w}, w ∈ s.holders id → id ∈ s.store.sets .leased
  served : ∀ {w ids}, s.workers w = .claimed ids → ∀ id ∈ ids, (s.store.payload id).isSome
  answered : ∀ id, .error (.payload id) ∉ s.returned

/-- What the store has to look like for a call on a job not to break that. -/
def Op.Respects (w : Nat) (s : System) : Op → Prop
  | .complete ids | .discard ids => ∀ id ∈ ids,
    (∀ level, id ∉ s.store.sets (.ready level)) ∧ ∀ w' ids', s.workers w' = .claimed ids' → id ∉ ids'
  | .retry id priority _ => w ∈ s.holders id ∨ id ∈ s.store.sets (.ready (level priority))
  | .renew .. => True
  | .abandon ids => ∀ id ∈ ids, id ∉ s.store.sets .leased

def Respects (s : System) : Act → Prop
  | .settle w op => s.May w op → op.Respects w s
  | .abandonReady w _ => ∀ ids, s.workers w = .abandoning ids → ∀ id ∈ ids, id ∈ s.store.sets .front
  | _ => True

/-! ## What every step that respects the store keeps -/

/-- Soundness with what it rests on. -/
structure Inv (rmp : Rmp) (s : System) : Prop extends Sound s where
  decodes : ∀ {id bytes}, s.store.payload id = some bytes → (rmp.decode bytes).isSome
  known : ∀ {id}, (s.store.payload id).isSome → id ∈ s.enqueued
  held : ∀ {id}, id ∈ s.store.sets .leased → ∃ w, w ∈ s.holders id
  loaded : ∀ {w ids raw}, s.workers w = .loaded ids raw → ∀ b ∈ raw, Readable rmp b

theorem inv_opened (rmp : Rmp) : Inv rmp opened where
  partition := ⟨fun hp => absurd hp (ZSet.not_mem_empty _), fun id => by simp [opened, Store.empty]⟩
  unfinished _ h := absurd h List.not_mem_nil
  alone h := absurd h List.not_mem_nil
  leased h := absurd h List.not_mem_nil
  served h := by cases h
  answered _ := List.not_mem_nil
  decodes h := by cases h
  known h := by cases h
  held h := absurd h (ZSet.not_mem_empty _)
  loaded h := by cases h

section
variable {s : System} {w : Nat} {op : Op} {id : Int}

theorem settles_holders_of_mem (h : id ∈ op.ids) :
    (s.settles w op).holders id = op.leaves w (s.holders id) := if_pos h

theorem settles_holders_of_not_mem (h : id ∉ op.ids) :
    (s.settles w op).holders id = s.holders id := if_neg h

/-- Nobody holds what was completed. -/
theorem holder_of_complete {ids : List Int} {w' : Nat}
    (h : w' ∈ (s.settles w (.complete ids)).holders id) : id ∉ ids ∧ w' ∈ s.holders id := by
  by_cases hid : id ∈ ids
  · rw [settles_holders_of_mem hid] at h
    exact absurd h List.not_mem_nil
  · rw [settles_holders_of_not_mem hid] at h
    exact ⟨hid, h⟩
end

/-- Where a step that moves jobs may leave its worker. -/
def Stage.Takes (moved : List Int) : Stage → Prop
  | .claimed ids => ids = moved
  | .loaded .. => False
  | .idle | .abandoning _ => True

namespace Inv

variable {rmp : Rmp} {s t : System}

theorem no_holders (h : Inv rmp s) {id : Int} (hid : id ∉ s.store.sets .leased) (w : Nat) :
    w ∉ s.holders id := fun hw => hid (h.leased hw)

theorem not_leased_of_ready (h : Inv rmp s) {id : Int} {level : Fin 10}
    (hid : id ∈ s.store.sets (.ready level)) : id ∉ s.store.sets .leased := fun hleased => by
  have hplace := h.partition.apart hid hleased
  cases hplace

/-- A step that only moves jobs. -/
theorem relocated (h : Inv rmp s) {moved : List Int} {target : Place}
    (hmove : Relocated moved target s.store t.store) (claimer : Nat)
    (henqueued : t.enqueued = s.enqueued) (hfinished : t.finished = s.finished)
    (hreturned : ∀ r ∈ t.returned, r ∈ s.returned ∨ r = .ok [])
    (hworkers : ∀ w, t.workers w = s.workers w ∨ (t.workers w).Takes moved)
    (hholders : ∀ id w, w ∈ t.holders id ↔
      if id ∈ moved then target = .leased ∧ w = claimer else w ∈ s.holders id) :
    Inv rmp t where
  partition := hmove.partition h.partition
  unfinished id hid hnot := by
    rw [(hmove.partition h.partition).placed, hmove.payload, ← h.partition.placed]
    exact h.unfinished id (henqueued ▸ hid) (hfinished ▸ hnot)
  alone {id w w'} hw hw' := by
    rw [hholders] at hw hw'
    split at hw
    next hm =>
      rw [if_pos hm] at hw'
      exact hw.2.trans hw'.2.symm
    next hm =>
      rw [if_neg hm] at hw'
      exact h.alone hw hw'
  leased {id w} hw := by
    rw [hholders] at hw
    rw [hmove.sets]
    split at hw
    next hm => rw [if_pos hm, hw.1]
    next hm => rw [if_neg hm]; exact h.leased hw
  served {w ids} hw id hid := by
    rw [hmove.payload]
    rcases hworkers w with hsame | htakes
    · exact h.served (hsame ▸ hw) id hid
    · rw [hw] at htakes
      exact (h.partition.placed id).mp (hmove.somewhere id (htakes ▸ hid))
  answered id hid := by
    rcases hreturned _ hid with hold | hnew
    · exact h.answered id hold
    · cases hnew
  decodes hp := h.decodes (hmove.payload ▸ hp)
  known hp := henqueued ▸ h.known (hmove.payload ▸ hp)
  held {id} hid := by
    simp only [hholders]
    rw [hmove.sets] at hid
    split at hid
    next hm => exact ⟨claimer, by rw [if_pos hm]; exact ⟨hid.symm, rfl⟩⟩
    next hm =>
      obtain ⟨w, hw⟩ := h.held hid
      exact ⟨w, by rw [if_neg hm]; exact hw⟩
  loaded {w ids raw} hw := by
    rcases hworkers w with hsame | htakes
    · exact h.loaded (hsame ▸ hw)
    · rw [hw] at htakes
      exact htakes.elim

theorem stage_of_update {w w' : Nat} {next stage : Stage}
    (h : Function.update s.workers w next w' = stage) : next = stage ∨ s.workers w' = stage := by
  by_cases hw : w' = w
  · rw [hw, Function.update_self] at h
    exact .inl h
  · rw [Function.update_of_ne hw] at h
    exact .inr h

theorem update_worker {w : Nat} {next : Stage} {moved : List Int} (hnext : next.Takes moved)
    (w' : Nat) : Function.update s.workers w next w' = s.workers w' ∨
      (Function.update s.workers w next w').Takes moved := by
  by_cases hw : w' = w
  · rw [hw, Function.update_self]
    exact .inr hnext
  · exact .inl (Function.update_of_ne hw next s.workers)

theorem claims (h : Inv rmp s) (w : Nat) (limit : Nat) (now expires : Int) :
    Inv rmp (s.claims w (claim now limit expires s.store)) := by
  have hmove := claim_relocates h.partition now limit expires
  have hfree : ∀ id ∈ (claim now limit expires s.store).1, s.holders id = [] := fun id hid =>
    List.eq_nil_iff_forall_not_mem.mpr (h.no_holders (not_leased_of_claim h.partition hid))
  revert hmove hfree
  generalize claim now limit expires s.store = r
  intro hmove hfree
  refine h.relocated (t := s.claims w r) hmove w rfl rfl ?_ (update_worker ?_) ?_
  · intro result hresult
    dsimp only [System.claims] at hresult
    split at hresult
    · rcases List.mem_cons.mp hresult with hnew | hold
      · exact .inr hnew
      · exact .inl hold
    · exact .inl hresult
  · split
    · trivial
    · rfl
  · intro id w'
    dsimp only [System.claims]
    by_cases hid : id ∈ r.1
    · simp [hid, hfree id hid]
    · simp [hid]

theorem reclaims (h : Inv rmp s) (limit : Nat) (now : Int) : Inv rmp (s.reclaims limit now) := by
  have hmove := reclaimExpired_relocates h.partition limit now
  -- nobody claims, so any worker stands for the one that does
  refine h.relocated (t := s.reclaims limit now) hmove 0 rfl rfl (fun _ => .inl) (fun _ => .inl rfl) ?_
  intro id w
  dsimp only [System.reclaims]
  by_cases hid : id ∈ dueBy now limit .leased s.store
  · simp [hid]
  · simp [hid]

theorem drops (h : Inv rmp s) (w : Nat) : Inv rmp (s.drops w) := by
  have hmove : Relocated [] .leased s.store (s.drops w).store := .of_same rfl fun _ _ => Iff.rfl
  refine h.relocated hmove w rfl rfl (fun _ => .inl) (update_worker trivial) ?_
  intro id w'
  rw [if_neg List.not_mem_nil]
  rfl

theorem renews (h : Inv rmp s) (w : Nat) (ids : List Int) (expires : Int) :
    Inv rmp (s.settles w (.renew ids expires)) := by
  have hmove := renew_relocates (s := s.store) ids expires .leased
  refine h.relocated (t := s.settles w (.renew ids expires)) hmove w rfl rfl (fun _ => .inl)
    (update_worker trivial) ?_
  intro id w'
  dsimp only [System.settles, Op.leaves]
  simp

/-- A retry by the worker that holds the job, or of one that waits at that level. -/
theorem retries (h : Inv rmp s) {w : Nat} {id priority : Int} (due : Int)
    (hres : (Op.retry id priority due).Respects w s) : Inv rmp (s.settles w (.retry id priority due)) := by
  have hplace : ∀ i ∈ [id], i ∈ s.store.sets .leased ∨ i ∈ s.store.sets (.ready (level priority)) := by
    intro i hi
    rw [List.mem_singleton.mp hi]
    exact hres.imp_left h.leased
  have hgone : ∀ w', w' ∈ s.holders id → w' = w := by
    intro w' hw'
    rcases hres with hw | hready
    · exact h.alone hw' hw
    · exact absurd hw' (h.no_holders (h.not_leased_of_ready hready) w')
  refine h.relocated (t := s.settles w (.retry id priority due))
    (zrem_zadd_relocates h.partition due hplace) w rfl rfl (fun _ => .inl) (update_worker trivial) ?_
  intro i w'
  by_cases hi : i ∈ [id]
  · rw [if_pos hi, settles_holders_of_mem hi, List.mem_singleton.mp hi]
    simpa [Op.leaves] using hgone w'
  · rw [if_neg hi, settles_holders_of_not_mem hi]

/-- Giving up what is leased to nobody. -/
theorem abandons_leases (h : Inv rmp s) {w : Nat} {ids : List Int}
    (hres : (Op.abandon ids).Respects w s) : Inv rmp (s.settles w (.abandon ids)) := by
  have hsame : ∀ id p, id ∈ (abandon ids s.store).2.sets p ↔ id ∈ s.store.sets p := by
    intro id p
    rw [mem_abandon]
    exact and_iff_left_of_imp fun hp hboth => hres id hboth.2 (hboth.1 ▸ hp)
  have hmove : Relocated [] .leased s.store (s.settles w (.abandon ids)).store :=
    .of_same abandon_payload hsame
  refine h.relocated hmove w rfl rfl (fun _ => .inl) (update_worker ?_) ?_
  · by_cases hids : ids = []
    · rw [Op.next, if_pos hids]
      trivial
    · rw [Op.next, if_neg hids]
      trivial
  · intro id w'
    rw [if_neg List.not_mem_nil]
    by_cases hid : id ∈ ids
    · have hnone := h.no_holders (hres id hid) w'
      rw [settles_holders_of_mem hid]
      simp [Op.leaves, hnone]
    · rw [settles_holders_of_not_mem hid]

theorem abandons (h : Inv rmp s) {w : Nat} {ids : List Int} (due : Int)
    (hready : ∀ id ∈ ids, id ∈ s.store.sets .front) : Inv rmp (s.abandons w ids due) := by
  have hmove : Relocated ids .front s.store (abandonReady ids due s.store) :=
    ⟨rfl, fun id hid => ⟨_, hready id hid⟩, fun id p => by
      unfold abandonReady
      rw [mem_zadd]
      by_cases hid : id ∈ ids
      · have hplace : id ∈ s.store.sets p → p = .front := fun hp => h.partition.apart hp (hready id hid)
        simp only [hid, and_true, if_true]
        tauto
      · simp [hid]⟩
  refine h.relocated (t := s.abandons w ids due) hmove w rfl rfl (fun _ => .inl) (update_worker trivial) ?_
  intro id w'
  dsimp only [System.abandons]
  split
  next hid =>
    have hnone := h.no_holders (h.not_leased_of_ready (hready id hid)) w'
    simp [hnone]
  next => rfl

theorem enqueues (h : Inv rmp s) {stored : Stored} {priority due : Int} {store : Store}
    (hfresh : stored.id ∉ s.enqueued) (hok : enqueue rmp stored priority due s.store = .ok store) :
    Inv rmp (s.enqueues stored store) := by
  obtain ⟨hsets, hpayload, hdecode⟩ := enqueue_ok hok
  -- a new id has no payload, so it is in no set yet
  have hnone : ¬ (s.store.payload stored.id).isSome := fun hsome => hfresh (h.known hsome)
  have hnowhere : ∀ p, stored.id ∉ s.store.sets p := fun p hp =>
    hnone ((h.partition.placed _).mp ⟨p, hp⟩)
  refine { partition := ⟨?_, ?_⟩, unfinished := ?_, alone := h.alone, leased := ?_, served := ?_,
           answered := h.answered, decodes := ?_, known := ?_, held := ?_, loaded := h.loaded } <;>
    dsimp only [System.enqueues]
  · intro id p q hp hq
    rw [hsets] at hp hq
    rcases hp with ⟨hp, hid⟩ | hp <;> rcases hq with ⟨hq, hid'⟩ | hq
    · exact hp.trans hq.symm
    · exact absurd (hid ▸ hq) (hnowhere q)
    · exact absurd (hid' ▸ hp) (hnowhere p)
    · exact h.partition.apart hp hq
  · intro id
    simp only [hsets, hpayload, hset]
    by_cases hid : id = stored.id
    · simp [hid]
    · simpa [hid] using h.partition.placed id
  · intro id hid hnot
    simp only [hsets]
    rcases List.mem_cons.mp hid with hnew | hold
    · exact ⟨_, .inl ⟨rfl, hnew⟩⟩
    · obtain ⟨p, hp⟩ := h.unfinished id hold hnot
      exact ⟨p, .inr hp⟩
  · intro id w hw
    exact (hsets id _).mpr (.inr (h.leased hw))
  · intro w ids hw id hid
    rw [hpayload, hset]
    split
    · rfl
    · exact h.served hw id hid
  · intro id bytes hbytes
    rw [hpayload, hset] at hbytes
    split at hbytes
    · cases hbytes
      rw [hdecode]
      rfl
    · exact h.decodes hbytes
  · intro id hid
    rw [hpayload, hset] at hid
    split at hid
    next heq => exact List.mem_cons.mpr (.inl heq)
    next => exact List.mem_cons_of_mem _ (h.known hid)
  · intro id hid
    rcases (hsets id _).mp hid with ⟨hp, _⟩ | hold
    · cases hp
    · exact h.held hold

/-- A completion of jobs that wait nowhere and that no fetch is still to load. -/
theorem completes (h : Inv rmp s) {w : Nat} {ids : List Int} (hres : (Op.complete ids).Respects w s) :
    Inv rmp (s.settles w (.complete ids)) := by
  have hsets : ∀ {id p}, id ∈ (s.settles w (.complete ids)).store.sets p ↔ id ∈ s.store.sets p ∧ id ∉ ids := by
    intro id p
    -- only the leases lose members, so what is completed must wait nowhere else
    refine mem_complete.trans (and_congr_right fun hp => ?_)
    refine ⟨fun hnot hid => ?_, fun hnot hboth => hnot hboth.2⟩
    cases p with
    | leased => exact hnot ⟨rfl, hid⟩
    | ready level => exact (hres id hid).1 level hp
  have hpayload : (s.settles w (.complete ids)).store.payload = hdel ids s.store.payload :=
    complete_payload
  refine { partition := ⟨?_, ?_⟩, unfinished := ?_, alone := ?_, leased := ?_, served := ?_,
           answered := h.answered, decodes := ?_, known := ?_, held := ?_, loaded := ?_ }
  · intro id p q hp hq
    exact h.partition.apart (hsets.mp hp).1 (hsets.mp hq).1
  · intro id
    simp only [hsets, hpayload]
    by_cases hid : id ∈ ids
    · simp [hid]
    · simpa [hid] using h.partition.placed id
  · intro id hid hnot
    obtain ⟨hnew, hold⟩ := not_or.mp (mt List.mem_append.mpr hnot)
    obtain ⟨p, hp⟩ := h.unfinished id hid hold
    exact ⟨p, hsets.mpr ⟨hp, hnew⟩⟩
  · intro id w₁ w₂ h₁ h₂
    exact h.alone (holder_of_complete h₁).2 (holder_of_complete h₂).2
  · intro id w' hw'
    exact hsets.mpr ⟨h.leased (holder_of_complete hw').2, (holder_of_complete hw').1⟩
  · intro w' ids' hw' id hid
    rcases stage_of_update hw' with hidle | hold
    · cases hidle
    · rw [hpayload, hdel_of_not_mem fun hmem => (hres id hmem).2 w' ids' hold hid]
      exact h.served hold id hid
  · intro id bytes hid
    exact h.decodes (of_hdel_eq_some (hpayload ▸ hid)).2
  · intro id hid
    obtain ⟨bytes, hbytes⟩ := Option.isSome_iff_exists.mp hid
    exact h.known (Option.isSome_iff_exists.mpr ⟨bytes, (of_hdel_eq_some (hpayload ▸ hbytes)).2⟩)
  · intro id hid
    obtain ⟨hleased, hnot⟩ := hsets.mp hid
    rw [show (s.settles w (.complete ids)).holders id = s.holders id from settles_holders_of_not_mem hnot]
    exact h.held hleased
  · intro w' ids' raw hw'
    rcases stage_of_update hw' with hidle | hold
    · cases hidle
    · exact h.loaded hold

theorem loads (h : Inv rmp s) {w : Nat} {ids : List Int} (hw : s.workers w = .claimed ids) :
    Inv rmp (s.loads w ids) where
  toSound := { h.toSound with
    served := fun hw' => by
      rcases stage_of_update hw' with hnew | hold
      · cases hnew
      · exact h.served hold }
  decodes := h.decodes
  known := h.known
  held := h.held
  loaded hw' b hb := by
    rcases stage_of_update hw' with hnew | hold
    · cases hnew
      obtain ⟨id, hid, rfl⟩ := List.mem_map.mp hb
      obtain ⟨bytes, hbytes⟩ := Option.isSome_iff_exists.mp (h.served hw id hid)
      exact ⟨bytes, hbytes, h.decodes hbytes⟩
    · exact h.loaded hold b hb

theorem returns (h : Inv rmp s) (w : Nat) {result : Except Error (List Job)}
    (hresult : ∀ id, result ≠ .error (.payload id)) : Inv rmp (s.returns w result) where
  toSound := { (h.drops w).toSound with
    answered := fun id hid => by
      rcases List.mem_cons.mp hid with hnew | hold
      · exact hresult id hnew.symm
      · exact h.answered id hold }
  decodes := h.decodes
  known := h.known
  held := h.held
  loaded := (h.drops w).loaded

theorem settles (h : Inv rmp s) {w : Nat} {op : Op} (hres : op.Respects w s) : Inv rmp (s.settles w op) := by
  cases op with
  | complete ids => exact h.completes hres
  | discard ids => exact h.completes (show (Op.complete ids).Respects w s from hres)
  | retry id priority due => exact h.retries due hres
  | renew ids expires => exact h.renews w ids expires
  | abandon ids => exact h.abandons_leases hres
end Inv

theorem step_keeps (rmp : Rmp) (s : System) (a : Act) (h : Inv rmp s) (hres : Respects s a) :
    Inv rmp (step rmp s a) := by
  cases a with
  | enqueue stored priority due =>
    simp only [step]
    split
    next => exact h
    next hfresh =>
      split
      next store hok => exact h.enqueues hfresh hok
      next => exact h
  | claim w limit now expires =>
    simp only [step]
    split
    next => exact h.claims w limit now expires
    next => exact h
  | payloads w =>
    simp only [step]
    split
    next ids hw => exact h.loads hw
    next => exact h
  | counters w =>
    simp only [step]
    split
    next ids raw hw => exact h.returns w (fetchResult_ne_payload (h.loaded hw))
    next => exact h
  | settle w op =>
    simp only [step]
    split
    next hmay => exact h.settles (hres hmay)
    next => exact h
  | abandonReady w due =>
    simp only [step]
    split
    next ids hw => exact h.abandons due (hres ids hw)
    next => exact h
  | reclaimExpired limit now => exact h.reclaims limit now
  | drop w => exact h.drops w

/-! ## What every other step breaks -/

section
variable {rmp : Rmp} {s : System} {w : Nat}

/-- The completed job is still to run, or a fetch is still to load it. -/
theorem complete_breaks {ids : List Int} (hidle : s.workers w = .idle)
    (hnot : ¬ (Op.complete ids).Respects w s) : ¬ Sound (s.settles w (.complete ids)) := by
  intro hsound
  simp only [Op.Respects, not_forall] at hnot
  obtain ⟨id, hid, hbad⟩ := hnot
  have hgone : (s.settles w (.complete ids)).store.payload id = none :=
    (congrFun complete_payload id).trans (hdel_of_mem hid)
  have hlost : ¬ ((s.settles w (.complete ids)).store.payload id).isSome := by
    rw [hgone]
    exact Bool.false_ne_true
  rcases not_and_or.mp hbad with hready | hfetch
  · simp only [not_forall, not_not] at hready
    obtain ⟨level, hlevel⟩ := hready
    refine hlost ((hsound.partition.placed id).mp ⟨.ready level, mem_complete.mpr ⟨hlevel, ?_⟩⟩)
    intro hboth
    cases hboth.1
  · simp only [not_forall, not_not] at hfetch
    obtain ⟨w', ids', hw', hid'⟩ := hfetch
    have hother : w' ≠ w := fun heq => by
      rw [heq, hidle] at hw'
      cases hw'
    exact hlost (hsound.served ((Function.update_of_ne hother _ s.workers).trans hw') id hid')

/-- The retried job is leased to another, waits at another level, or is gone. -/
theorem retry_breaks (h : Inv rmp s) {id priority due : Int}
    (hnot : ¬ (Op.retry id priority due).Respects w s) :
    ¬ Sound (s.settles w (.retry id priority due)) := by
  intro hsound
  obtain ⟨hholder, hlevel⟩ := not_or.mp hnot
  have hsets : ∀ p, id ∈ (s.settles w (.retry id priority due)).store.sets p ↔
      p = .ready (level priority) ∨ id ∈ s.store.sets p ∧ p ≠ .leased := by
    intro p
    refine mem_zadd.trans ?_
    rw [mem_zrem]
    simp
  have hready := (hsets (.ready (level priority))).mpr (.inl rfl)
  have hkept : (s.store.payload id).isSome := (hsound.partition.placed id).mp ⟨_, hready⟩
  obtain ⟨p, hp⟩ := (h.partition.placed id).mpr hkept
  cases p with
  | leased =>
    -- whoever holds the job goes on holding it, without a lease
    obtain ⟨w', hw'⟩ := h.held hp
    have hstays : w' ∈ (s.settles w (.retry id priority due)).holders id := by
      rw [settles_holders_of_mem (List.mem_singleton_self id)]
      refine List.mem_filter.mpr ⟨hw', decide_eq_true ?_⟩
      exact fun heq => hholder (heq ▸ hw')
    have hplace := hsound.partition.apart hready (hsound.leased hstays)
    cases hplace
  | ready level' =>
    -- the job waits at two levels
    have hplace := hsound.partition.apart ((hsets (.ready level')).mpr (.inr ⟨hp, by simp⟩)) hready
    exact hlevel (hplace ▸ hp)

/-- Between the two blocks of `abandon` the job is nowhere. -/
theorem abandon_breaks (h : Inv rmp s) {ids : List Int} (hnot : ¬ (Op.abandon ids).Respects w s) :
    ¬ Sound (s.settles w (.abandon ids)) := by
  intro hsound
  simp only [Op.Respects, not_forall, not_not] at hnot
  obtain ⟨id, hid, hleased⟩ := hnot
  have hkept : ((s.settles w (.abandon ids)).store.payload id).isSome := by
    rw [show (s.settles w (.abandon ids)).store.payload = s.store.payload from abandon_payload]
    exact (h.partition.placed id).mp ⟨_, hleased⟩
  obtain ⟨p, hp⟩ := (hsound.partition.placed id).mpr hkept
  obtain ⟨hplace, hnot⟩ := mem_abandon.mp hp
  exact hnot ⟨h.partition.apart hplace hleased, hid⟩

theorem abandonReady_breaks (h : Inv rmp s) {ids : List Int} {id due : Int} (hid : id ∈ ids)
    (hnot : id ∉ s.store.sets .front) : ¬ Sound (s.abandons w ids due) := by
  intro hsound
  have hsets : ∀ p, id ∈ (s.abandons w ids due).store.sets p ↔ p = .front ∨ id ∈ s.store.sets p := by
    intro p
    refine mem_zadd.trans ?_
    simp [hid]
  have hready := (hsets .front).mpr (.inl rfl)
  obtain ⟨p, hp⟩ := (h.partition.placed id).mpr ((hsound.partition.placed id).mp ⟨_, hready⟩)
  have hplace := hsound.partition.apart ((hsets p).mpr (.inr hp)) hready
  exact hnot (hplace ▸ hp)

theorem settle_breaks (h : Inv rmp s) (hidle : s.workers w = .idle) {op : Op} (hnot : ¬ op.Respects w s) :
    ¬ Sound (s.settles w op) := by
  cases op with
  | complete ids => exact complete_breaks hidle hnot
  | discard ids => exact complete_breaks hidle (show ¬ (Op.complete ids).Respects w s from hnot)
  | retry id priority due => exact retry_breaks h hnot
  | renew ids expires => exact absurd trivial hnot
  | abandon ids => exact abandon_breaks h hnot
end

theorem step_breaks {rmp : Rmp} (s : System) (a : Act) (h : Inv rmp s) (hnot : ¬ Respects s a) :
    ¬ Sound (step rmp s a) := by
  cases a with
  | settle w op =>
    obtain ⟨hmay, hres⟩ := Classical.not_imp.mp hnot
    simp only [step, if_pos hmay]
    exact settle_breaks h hmay.1 hres
  | abandonReady w due =>
    simp only [Respects, not_forall] at hnot
    obtain ⟨ids, hw, id, hid, hready⟩ := hnot
    simp only [step, hw]
    exact abandonReady_breaks h hid hready
  | enqueue | claim | payloads | counters | reclaimExpired | drop => exact absurd trivial hnot

/-- **A run of any workers is sound throughout exactly if its steps respect the store**:
nothing is completed that waits or is being fetched, only a job's holder retries
it, and `abandon` finds nothing to take back. -/
theorem sound_iff_respects (rmp : Rmp) (as : List Act) :
    (∀ n, Sound (after rmp (as.take n))) ↔ Runs.Along (step rmp) Respects opened as :=
  Runs.throughout_iff (step_keeps rmp) (fun _ h => h.toSound) step_breaks as (inv_opened rmp)

/-! ## A worker that has lost its lease -/

theorem one_inI64 : Gylo.Wire.InI64 1 := by decide

def job : Stored := ⟨1, "mail.send", [], 7, one_inI64, by decide⟩

def fetches (w : Nat) (now expires : Int) : List Act :=
  [.claim w 1 now expires, .payloads w, .counters w]

/-- The first worker's lease expires, and the second one claims the job. -/
def lapsed : List Act :=
  [.enqueue job 0 0] ++ fetches 0 0 10 ++ [.reclaimExpired 1 10] ++ fetches 1 10 20

/-- The worker has run the first block of `abandon`. -/
def givenUp : List Act := [.enqueue job 0 0] ++ fetches 0 0 10 ++ [.settle 0 (.abandon [1])]

/-- A job that is given up is nowhere until the second block. One that is retried by the
worker that lost it has no payload for the next fetch if it was completed
meanwhile, and is claimed by two at once if it was not. -/
theorem stale_calls_break :
    (((after .messagePack givenUp).store.payload 1).isSome ∧
      ¬ ∃ p, 1 ∈ (after .messagePack givenUp).store.sets p) ∧
    (after .messagePack (lapsed ++ [.settle 1 (.complete [1]), .settle 0 (.retry 1 0 20)] ++
      fetches 2 20 30)).returned.head? = some (.error (.payload 1)) ∧
    (after .messagePack (lapsed ++ [.settle 0 (.retry 1 0 15)] ++ fetches 2 15 25)).holders 1 = [2, 1] := by
  refine ⟨⟨by decide, ?_⟩, by decide, by decide⟩
  intro hsome
  obtain ⟨p, hp⟩ := hsome
  cases p with
  | leased => exact absurd hp (by decide)
  | ready level =>
    revert level
    decide

end Gylo.Redis
