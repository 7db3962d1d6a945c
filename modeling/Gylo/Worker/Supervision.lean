import Mathlib.Data.List.DropRight
import Gylo.Worker.Session

/-! # Starting and restarting

`run` starts one `supervise` for each process, after the configuration and the
features it asks for have been checked. `supervise` opens one session after the
other; a session that fails is followed by another, after a pause that doubles,
until too many in a row did not stay up. -/
namespace Gylo.Worker.Supervision

open Gylo.Store
open Gylo.Worker.Session (Settings healthySession)

/-! ## What a backend can do -/

inductive Feature where
  | durableAcknowledgement
  | transactionalEnqueue
  | priorities
  | delayedJobs
  | uniqueJobs
  | keyedConcurrency
  | workflows
  | durableSteps
  | cron
  | results
deriving DecidableEq

def Feature.asStr : Feature → String
  | .durableAcknowledgement => "durable acknowledgement"
  | .transactionalEnqueue => "transactional enqueue"
  | .priorities => "priorities"
  | .delayedJobs => "delayed jobs"
  | .uniqueJobs => "unique jobs"
  | .keyedConcurrency => "keyed concurrency"
  | .workflows => "workflows"
  | .durableSteps => "durable steps"
  | .cron => "cron"
  | .results => "results"

structure Capabilities where
  backend : String
  durableAcknowledgement : Bool := true
  transactionalEnqueue : Bool := true
  priorities : Bool := true
  delayedJobs : Bool := true
  uniqueJobs : Bool := true
  keyedConcurrency : Bool := true
  workflows : Bool := true
  durableSteps : Bool := true
  cron : Bool := true
  results : Bool := true
deriving DecidableEq

/-- `gylo_pg::CAPABILITIES`. -/
def postgres : Capabilities := { backend := "postgres" }

/-- `Backend::capabilities` of the Redis backend, which asks the server whether it
syncs every write. -/
def redis (durable : Bool) : Capabilities :=
  { backend := "redis", durableAcknowledgement := durable, transactionalEnqueue := false,
    uniqueJobs := false, keyedConcurrency := false, workflows := false, durableSteps := false,
    cron := false, results := false }

def Capabilities.supports (c : Capabilities) : Feature → Bool
  | .durableAcknowledgement => c.durableAcknowledgement
  | .transactionalEnqueue => c.transactionalEnqueue
  | .priorities => c.priorities
  | .delayedJobs => c.delayedJobs
  | .uniqueJobs => c.uniqueJobs
  | .keyedConcurrency => c.keyedConcurrency
  | .workflows => c.workflows
  | .durableSteps => c.durableSteps
  | .cron => c.cron
  | .results => c.results

structure Unsupported where
  backend : String
  feature : Feature
deriving DecidableEq

def Unsupported.text (u : Unsupported) : String :=
  "the " ++ u.backend ++ " backend does not support " ++ u.feature.asStr

/-- `Capabilities::require`: the first feature that is missing. -/
def Capabilities.require (c : Capabilities) : List Feature → Except Unsupported Unit
  | [] => .ok ()
  | feature :: wanted => if c.supports feature then c.require wanted else .error ⟨c.backend, feature⟩

/-- `Capabilities::gaps`. -/
def Capabilities.gaps (c : Capabilities) : List Feature :=
  [Feature.durableAcknowledgement, .transactionalEnqueue, .priorities, .delayedJobs, .uniqueJobs,
    .keyedConcurrency, .workflows, .durableSteps, .cron, .results].filter fun feature => !c.supports feature

section
variable (c : Capabilities)

theorem mem_gaps (feature : Feature) : feature ∈ c.gaps ↔ c.supports feature = false := by
  unfold Capabilities.gaps
  rw [List.mem_filter, Bool.not_eq_true']
  refine ⟨fun h => h.2, fun h => ⟨?_, h⟩⟩
  cases feature <;> decide

/-- What is refused is the first gap among the wanted features. -/
theorem require_eq (wanted : List Feature) : c.require wanted =
    (wanted.find? fun feature => feature ∈ c.gaps).elim (.ok ()) fun feature => .error ⟨c.backend, feature⟩ := by
  induction wanted with
  | nil => rfl
  | cons feature wanted ih =>
    rw [Capabilities.require, List.find?_cons]
    cases hs : c.supports feature with
    | true =>
      have hgap : decide (feature ∈ c.gaps) = false := by
        rw [decide_eq_false_iff_not, mem_gaps, hs]
        exact Bool.noConfusion
      rw [hgap]
      exact ih
    | false =>
      have hgap : decide (feature ∈ c.gaps) = true := decide_eq_true ((mem_gaps c feature).mpr hs)
      rw [hgap]
      rfl

/-- The Postgres backend has no gap. -/
theorem require_postgres (wanted : List Feature) : postgres.require wanted = .ok () := by
  have hnone : (wanted.find? fun feature => feature ∈ postgres.gaps) = none :=
    List.find?_eq_none.mpr fun _ _ h => by simp [show postgres.gaps = [] by decide] at h
  rw [require_eq, hnone]
  rfl
end

/-! ## Checking the configuration -/

/-- The digits after the point, without trailing zeros. -/
def fraction (digits : List Char) : String :=
  String.ofList (digits.reverse.dropWhile (· = '0')).reverse

/-- `fmt_decimal` without a precision: `frac` of `width` digits after the point. -/
def decimal (whole frac width : Nat) : String :=
  if frac = 0 then toString whole
  else toString whole ++ "." ++
    fraction (List.leftpad width '0' (Nat.toDigits 10 frac))

/-- `Debug` of a `Duration`, given in microseconds. -/
def debugDuration (us : Nat) : String :=
  if 1000000 ≤ us then decimal (us / 1000000) (us % 1000000) 6 ++ "s"
  else if 1000 ≤ us then decimal (us / 1000) (us % 1000) 3 ++ "ms"
  else if 1 ≤ us then toString us ++ "µs"
  else "0ns"

/-- A worker's configuration: what `supervise` reads, and what is only checked. -/
structure Launch extends Settings where
  app : String
  processes : Nat
  requires : List Feature := []

inductive WorkerError where
  | config (reason : String)
  | unsupported (what : Unsupported)
  | session (text : String)
deriving DecidableEq

def WorkerError.text : WorkerError → String
  | .config reason => "invalid configuration: " ++ reason
  | .unsupported what => what.text
  | .session text => text

/-- `Config::validate`. -/
def validate (l : Launch) : Except WorkerError Unit :=
  if l.app = "" then .error (.config "app must be set to a module:attribute path")
  else if l.queues = [] then .error (.config "at least one queue must be given")
  else if l.processes = 0 then .error (.config "processes must be at least 1")
  else if l.concurrency = 0 then .error (.config "concurrency must be at least 1")
  else if l.batch < 1 then .error (.config ("batch must be at least 1, got " ++ toString l.batch))
  else if l.lease ≤ l.maintenanceInterval then
    .error (.config ("maintenance interval " ++ debugDuration l.maintenanceInterval ++
      " must be shorter than the lease " ++ debugDuration l.lease.toNat ++
      ", or running jobs will be reclaimed and run twice"))
  else .ok ()

theorem validate_ok {l : Launch} (h : validate l = .ok ()) : l.app ≠ "" ∧ l.queues ≠ [] ∧
    1 ≤ l.processes ∧ 1 ≤ l.concurrency ∧ 1 ≤ l.batch ∧ (l.maintenanceInterval : Time) < l.lease := by
  unfold validate at h
  repeat' split at h
  case isFalse.isFalse.isFalse.isFalse.isFalse.isFalse happ hqueues hprocesses hconcurrency hbatch hcadence =>
    exact ⟨happ, hqueues, Nat.one_le_iff_ne_zero.mpr hprocesses, Nat.one_le_iff_ne_zero.mpr hconcurrency,
      not_lt.mp hbatch, not_le.mp hcadence⟩
  all_goals cases h

/-! ## One session after the other -/

/-- `RESTART_DELAY`, in microseconds. -/
def restartDelay : Nat := 250000

/-- `RESTART_CEILING`, in microseconds. -/
def restartCeiling : Nat := 30000000

/-- The pause before the next session, after `consecutive` failed ones. -/
def backoff (consecutive : Nat) : Nat :=
  min (restartDelay * Nat.pow 2 (min (consecutive - 1) 16)) restartCeiling

/-- What one round of the loop meets: whether the token is cancelled at its condition,
how the session ends and after how long, and whether the token is cancelled during
the pause. -/
structure Round where
  cancelled : Bool := false
  error : Option WorkerError
  elapsed : Time
  interrupted : Bool := false

/-- `supervise` is still in its loop, has left it, or has given up. -/
inductive Verdict where
  | running
  | stopped
  | gaveUp (error : WorkerError)
deriving DecidableEq

/-- `consecutive` after a session that failed. -/
def failed (consecutive : Nat) (r : Round) : Nat :=
  (if healthySession ≤ r.elapsed then 0 else consecutive) + 1

/-- The loop of `supervise`, and the pauses it made. -/
def supervise (maxRestarts : Nat) : Nat → List Nat → List Round → Verdict × List Nat
  | _, slept, [] => (.running, slept)
  | consecutive, slept, r :: rounds =>
    if r.cancelled then (.stopped, slept)
    else match r.error with
      | none => (.stopped, slept)
      | some error =>
        if maxRestarts < failed consecutive r then (.gaveUp error, slept)
        else if r.interrupted then (.stopped, slept)
        else supervise maxRestarts (failed consecutive r)
          (slept ++ [backoff (failed consecutive r)]) rounds

/-- The round ends in another one. -/
def Round.Restarts (r : Round) : Prop := r.cancelled = false ∧ r.error.isSome ∧ r.interrupted = false

/-- The round ends with the session's error. -/
def Round.FailsWith (r : Round) (error : WorkerError) : Prop := r.cancelled = false ∧ r.error = some error

/-- The session did not stay up. -/
def Round.Brief (r : Round) : Prop := r.elapsed < healthySession

/-- More than `maxRestarts` sessions, none of the last `maxRestarts` of which stayed up. -/
def Hopeless (maxRestarts : Nat) (rounds : List Round) : Prop :=
  maxRestarts < rounds.length ∧ ∀ r ∈ rounds.rtake maxRestarts, r.Brief

/-- `consecutive` after failed rounds. -/
def streak (rounds : List Round) : Nat := rounds.foldl failed 0

theorem streak_concat (rounds : List Round) (r : Round) :
    streak (rounds ++ [r]) = failed (streak rounds) r := by
  unfold streak
  rw [List.foldl_concat]

/-- The count is over the limit exactly if the rounds are hopeless. -/
theorem lt_streak_iff (m : Nat) (rounds : List Round) : m < streak rounds ↔ Hopeless m rounds := by
  induction rounds using List.reverseRecOn generalizing m with
  | nil => exact ⟨fun h => absurd h (Nat.not_lt_zero m), fun h => h.1⟩
  | append_singleton rounds r ih =>
    rw [streak_concat]
    cases m with
    | zero =>
      refine ⟨fun _ => ⟨by simp, fun q hq => ?_⟩, fun _ => Nat.succ_pos _⟩
      rw [List.rtake_zero] at hq
      cases hq
    | succ m =>
      have hlast : Hopeless (m + 1) (rounds ++ [r]) ↔ r.Brief ∧ Hopeless m rounds := by
        unfold Hopeless
        rw [List.rtake_concat_succ, List.length_append, List.length_singleton, Nat.succ_lt_succ_iff]
        simp only [List.mem_append, List.mem_singleton]
        constructor
        · intro h
          exact ⟨h.2 r (.inr rfl), h.1, fun q hq => h.2 q (.inl hq)⟩
        · intro h
          refine ⟨h.2.1, fun q hq => ?_⟩
          rcases hq with hq | rfl
          · exact h.2.2 q hq
          · exact h.1
      rw [hlast, ← ih m]
      unfold failed
      split
      · next hhealthy =>
        exact ⟨fun h => absurd (Nat.lt_of_succ_lt_succ h) (Nat.not_lt_zero m),
          fun h => absurd h.1 (not_lt.mpr hhealthy)⟩
      · next hbrief => exact ⟨fun h => ⟨not_le.mp hbrief, Nat.lt_of_succ_lt_succ h⟩, fun h => Nat.succ_lt_succ h.2⟩

/-- The rounds of a loop that gives up: restarts, and one more failure, the first that
is hopeless. -/
structure GivesUp (m : Nat) (before rounds : List Round) (error : WorkerError) (pre : List Round) (r : Round)
    (post : List Round) : Prop where
  rounds : rounds = pre ++ r :: post
  restarts : ∀ q ∈ pre, q.Restarts
  fails : r.FailsWith error
  hopeless : Hopeless m (before ++ pre ++ [r])
  first : ∀ n ≤ pre.length, ¬ Hopeless m (before ++ pre.take n)

/-- Either the first round is the last, or it is followed by a restart. -/
theorem givesUp_cons {m : Nat} {before : List Round} {r : Round} {rounds : List Round} {error : WorkerError}
    (hbefore : ¬ Hopeless m before) : (∃ pre q post, GivesUp m before (r :: rounds) error pre q post) ↔
      r.FailsWith error ∧ Hopeless m (before ++ [r]) ∨
      r.Restarts ∧ ¬ Hopeless m (before ++ [r]) ∧ ∃ pre q post, GivesUp m (before ++ [r]) rounds error pre q post := by
  constructor
  · intro h
    obtain ⟨pre, q, post, hrounds, hrestarts, hfails, hhopeless, hfirst⟩ := h
    cases pre with
    | nil =>
      cases hrounds
      exact .inl ⟨hfails, by simpa using hhopeless⟩
    | cons p pre =>
      cases hrounds
      obtain ⟨hp, hpre⟩ := List.forall_mem_cons.mp hrestarts
      have hnow : ¬ Hopeless m (before ++ [r]) := hfirst 1 (Nat.succ_pos _)
      refine .inr ⟨hp, hnow, pre, q, post, rfl, hpre, hfails, by simpa using hhopeless, fun n hn => ?_⟩
      have hlater := hfirst (n + 1) (Nat.succ_le_succ hn)
      rwa [List.take_succ_cons, List.append_cons] at hlater
  · intro h
    rcases h with ⟨hfails, hhopeless⟩ | ⟨hrestarts, hnow, pre, q, post, hrounds, hpre, hfails, hhopeless, hfirst⟩
    · refine ⟨[], r, rounds, rfl, (fun q hq => by cases hq), hfails, by simpa using hhopeless, fun n _ => ?_⟩
      rw [List.take_nil, List.append_nil]
      exact hbefore
    · refine ⟨r :: pre, q, post, by rw [hrounds]; rfl, List.forall_mem_cons.mpr ⟨hrestarts, hpre⟩, hfails,
        by simpa using hhopeless, fun n hn => ?_⟩
      cases n with
      | zero =>
        rw [List.take_zero, List.append_nil]
        exact hbefore
      | succ n =>
        rw [List.take_succ_cons, List.append_cons]
        exact hfirst n (Nat.le_of_succ_le_succ hn)

theorem supervise_gaveUp_iff (m : Nat) (error : WorkerError) (rounds : List Round) :
    ∀ (before : List Round) (slept : List Nat), ¬ Hopeless m before →
      ((supervise m (streak before) slept rounds).1 = .gaveUp error ↔
        ∃ pre r post, GivesUp m before rounds error pre r post) := by
  induction rounds with
  | nil =>
    intro before slept _
    refine ⟨(fun h => by cases h), fun h => ?_⟩
    obtain ⟨pre, r, post, hrounds, -⟩ := h
    exact absurd hrounds (List.append_ne_nil_of_right_ne_nil pre (List.cons_ne_nil r post)).symm
  | cons r rounds ih =>
    intro before slept hbefore
    have hcount : m < failed (streak before) r ↔ Hopeless m (before ++ [r]) := by
      rw [← streak_concat, lt_streak_iff]
    rw [givesUp_cons hbefore, supervise]
    unfold Round.FailsWith Round.Restarts
    by_cases hcancelled : r.cancelled = true
    · simp [hcancelled]
    · cases herror : r.error with
      | none => simp [hcancelled]
      | some error' =>
        by_cases hover : m < failed (streak before) r
        · have hhopeless := hcount.mp hover
          simp [hcancelled, hover, hhopeless]
        · have hhopeless := mt hcount.mpr hover
          by_cases hinterrupted : r.interrupted = true
          · simp [hcancelled, hover, hhopeless, hinterrupted]
          · have hnext := ih (before ++ [r]) (slept ++ [backoff (failed (streak before) r)]) hhopeless
            rw [streak_concat] at hnext
            simp [hcancelled, hover, hhopeless, hinterrupted, hnext]

/-! ## The pauses -/

/-- The pauses after the first `n` failures of a streak. -/
def pauses (n : Nat) : List Nat := (List.range n).map fun k => backoff (k + 1)

theorem pauses_succ (n : Nat) : pauses (n + 1) = pauses n ++ [backoff (n + 1)] := by
  unfold pauses
  rw [List.range_succ, List.map_append]
  rfl

/-- The last pauses are those of the streak under way. -/
theorem supervise_pauses (m : Nat) (error : WorkerError) (rounds : List Round) :
    ∀ (consecutive : Nat) (older : List Nat), consecutive ≤ m →
      (supervise m consecutive (older ++ pauses consecutive) rounds).1 = .gaveUp error →
      ∃ earlier, (supervise m consecutive (older ++ pauses consecutive) rounds).2 = earlier ++ pauses m := by
  induction rounds with
  | nil => exact fun _ _ _ h => by cases h
  | cons r rounds ih =>
    intro consecutive older hle h
    rw [supervise] at h ⊢
    by_cases hcancelled : r.cancelled = true
    · rw [if_pos hcancelled] at h
      cases h
    · rw [if_neg hcancelled] at h ⊢
      cases herror : r.error with
      | none =>
        rw [herror] at h
        cases h
      | some error' =>
        rw [herror] at h
        dsimp only at h ⊢
        by_cases hover : m < failed consecutive r
        · -- the count went up by one to get past the limit, or the limit is zero
          rw [if_pos hover]
          unfold failed at hover
          split at hover
          · have hzero : m = 0 := Nat.lt_one_iff.mp hover
            exact ⟨older ++ pauses consecutive, by rw [hzero]; exact (List.append_nil _).symm⟩
          · have hlimit : consecutive = m := Nat.le_antisymm hle (Nat.lt_succ_iff.mp hover)
            exact ⟨older, by rw [hlimit]⟩
        · rw [if_neg hover] at h ⊢
          by_cases hinterrupted : r.interrupted = true
          · rw [if_pos hinterrupted] at h
            cases h
          · rw [if_neg hinterrupted] at h ⊢
            have hnext : ∃ older', older ++ pauses consecutive ++ [backoff (failed consecutive r)] =
                older' ++ pauses (failed consecutive r) := by
              unfold failed
              split
              · exact ⟨older ++ pauses consecutive, rfl⟩
              · exact ⟨older, by rw [pauses_succ, List.append_assoc]⟩
            obtain ⟨older', hslept⟩ := hnext
            rw [hslept] at h ⊢
            exact ih _ older' (not_lt.mp hover) h

/-- **A worker gives up on a child exactly when it cannot stay up.** `supervise`
returns an error at the first failed session that makes more than `max_restarts` of
them, none of the last `max_restarts` of which lasted for `HEALTHY_SESSION`, all
sessions before it having failed with the token not cancelled; the error is that
session's. By then it has made the pauses of a whole streak, one after the other. -/
theorem supervise_gives_up_iff (m : Nat) (rounds : List Round) (error : WorkerError) :
    ((supervise m 0 [] rounds).1 = .gaveUp error ↔
      ∃ pre r post, rounds = pre ++ r :: post ∧ (∀ q ∈ pre, q.Restarts) ∧ r.FailsWith error ∧
        Hopeless m (pre ++ [r]) ∧ ∀ n ≤ pre.length, ¬ Hopeless m (pre.take n)) ∧
    ((supervise m 0 [] rounds).1 = .gaveUp error →
      ∃ earlier, (supervise m 0 [] rounds).2 = earlier ++ pauses m) := by
  refine ⟨?_, supervise_pauses m error rounds 0 [] (Nat.zero_le m)⟩
  refine (supervise_gaveUp_iff m error rounds [] [] fun h => absurd h.1 (Nat.not_lt_zero m)).trans ?_
  constructor
  · intro h
    obtain ⟨pre, r, post, hgives⟩ := h
    exact ⟨pre, r, post, hgives.rounds, hgives.restarts, hgives.fails, hgives.hopeless, hgives.first⟩
  · intro h
    obtain ⟨pre, r, post, hrounds, hrestarts, hfails, hhopeless, hfirst⟩ := h
    exact ⟨pre, r, post, hrounds, hrestarts, hfails, hhopeless, hfirst⟩

/-- With the default limit, more than a minute of pauses. -/
example : pauses 8 = [250000, 500000, 1000000, 2000000, 4000000, 8000000, 16000000, 30000000] := by decide

/-! ## `run` -/

/-- How a `supervise` task is joined: with what it returned, or after a panic. -/
inductive Joined where
  | finished (error : Option WorkerError)
  | panicked

def Joined.error : Joined → Option WorkerError
  | .finished error => error
  | .panicked => none

/-- The loop over `join_next`: the outcome, and whether `run` has cancelled its own
token. -/
def join : Option WorkerError → Bool → List Joined → Option WorkerError × Bool
  | outcome, cancelled, [] => (outcome, cancelled)
  | outcome, cancelled, joined :: rest =>
    match joined.error, outcome with
    | some error, none => join (some error) true rest
    | _, _ => join outcome cancelled rest

/-- `run`, given how its tasks are joined. -/
def run (l : Launch) (joined : List Joined) : Except WorkerError Unit :=
  match validate l with
  | .error e => .error e
  | .ok () => match postgres.require l.requires with
    | .error what => .error (.unsupported what)
    | .ok () => match (join none false joined).1 with
      | some e => .error e
      | none => .ok ()

theorem join_some (error : WorkerError) (cancelled : Bool) (joined : List Joined) :
    join (some error) cancelled joined = (some error, cancelled) := by
  induction joined with
  | nil => rfl
  | cons j rest ih =>
    unfold join
    split
    · next h => cases h
    · exact ih

/-- The first error is the outcome, and cancels the others. -/
theorem join_none (joined : List Joined) :
    join none false joined = (joined.findSome? Joined.error, (joined.findSome? Joined.error).isSome) := by
  induction joined with
  | nil => rfl
  | cons j rest ih =>
    rw [List.findSome?_cons]
    unfold join
    cases herror : j.error with
    | some error =>
      dsimp only
      rw [join_some]
      rfl
    | none => exact ih

/-- `run` returns without an error exactly if the configuration is valid and no
`supervise` returned one: a panic of a task is not an error. -/
theorem run_ok_iff (l : Launch) (joined : List Joined) :
    run l joined = .ok () ↔ validate l = .ok () ∧ ∀ j ∈ joined, j.error = none := by
  unfold run
  rw [require_postgres, join_none]
  cases validate l with
  | error e => exact ⟨(fun h => by cases h), (fun h => by cases h.1)⟩
  | ok =>
    cases hfirst : joined.findSome? Joined.error with
    | none => exact ⟨fun _ => ⟨rfl, List.findSome?_eq_none_iff.mp hfirst⟩, fun _ => rfl⟩
    | some e =>
      refine ⟨(fun h => by cases h), fun h => ?_⟩
      rw [List.findSome?_eq_none_iff.mpr h.2] at hfirst
      cases hfirst

end Gylo.Worker.Supervision
