import Mathlib.Tactic.Linarith
import Gylo.Worker.Issued

/-! # Renewing what is held

`renew` wakes once in a maintenance interval and extends the lease of every job in
flight; what its statement takes comes on top of the interval, and one that fails is
not repeated before the next. It is told to stop by the token that starts the drain:
the child goes on with its jobs for up to `DRAIN_TIMEOUT`, and nobody extends their
leases. -/
namespace Gylo.Worker.Session

open Gylo.Store Gylo.Store.Holding Gylo.Wire Runs

/-- A row of this worker went in flight within the last maintenance interval, or its
lease was set within it; and twice what a `RENEW` may take. -/
def Recent (cfg : Settings) (margin : Nat) (s : Supervisor) (j : Job) : Prop :=
  s.now ≤ s.since j.id + cfg.maintenanceInterval + 2 * margin ∨
    ∃ e ∈ j.leaseExpiresAt, s.now + cfg.lease ≤ e + cfg.maintenanceInterval + 2 * margin

/-- While a live child has jobs, `renew` is running, and every one of them that is still
this worker's is on a recent lease. -/
def Renewed (cfg : Settings) (margin : Nat) (s : Supervisor) : Prop :=
  s.alive = true → s.inflight.ids ≠ ∅ →
    s.renewing = true ∧ ∀ j ∈ s.db.jobs, j.id ∈ s.inflight.ids → j.HeldBy cfg.worker → Recent cfg margin s j

/-- `RENEW` does not fail, and is answered within the margin of the end of the sleep. -/
def Prompt (cfg : Settings) (margin : Nat) (s : Supervisor) : Act → Prop
  | .tick d => s.renewing = true → s.renewal ≠ .asleep →
      s.now + d ≤ s.wokenAt + cfg.maintenanceInterval + margin
  | .renew .answered => ∀ ids, s.renewal ≠ .issued ids
  | _ => True

/-! ## The clock of `renew` -/

/-- `renew` has not overslept, and its statement is not late. -/
structure Timely (cfg : Settings) (margin : Nat) (s : Supervisor) : Prop where
  woken : s.wokenAt ≤ s.now
  asleep : s.renewing = true → s.renewal = .asleep → s.now ≤ s.wokenAt + cfg.maintenanceInterval
  due : s.renewal ≠ .asleep → s.wokenAt + cfg.maintenanceInterval ≤ s.now
  prompt : s.renewing = true → s.renewal ≠ .asleep →
    s.now ≤ s.wokenAt + cfg.maintenanceInterval + margin

section
variable {cfg : Settings} {serde : Serde} {margin : Nat} {s s' : Supervisor} {stmt : Option Stmt}

/-- Steps that leave the clocks alone. -/
theorem Timely.of_same (h : Timely cfg margin s) (hnow : s'.now = s.now) (hwoken : s'.wokenAt = s.wokenAt)
    (hrenewal : s'.renewal = s.renewal) (hrenewing : s'.renewing = true → s.renewing = true) :
    Timely cfg margin s' := by
  refine ⟨?_, ?_, ?_, ?_⟩
  · rw [hnow, hwoken]
    exact h.woken
  · rw [hnow, hwoken, hrenewal]
    exact fun hr => h.asleep (hrenewing hr)
  · rw [hnow, hwoken, hrenewal]
    exact h.due
  · rw [hnow, hwoken, hrenewal]
    exact fun hr => h.prompt (hrenewing hr)

/-- A sleep that begins now. -/
theorem timely_slept (hwoken : s.wokenAt = s.now) (hasleep : s.renewal = .asleep) : Timely cfg margin s := by
  have hinterval : s.now ≤ s.wokenAt + cfg.maintenanceInterval := by
    rw [hwoken]
    exact Int.le_add_of_nonneg_right (Int.natCast_nonneg _)
  exact ⟨le_of_eq hwoken, fun _ _ => hinterval, fun hnot => absurd hasleep hnot, fun _ hnot => absurd hasleep hnot⟩

theorem RenewMove.timely {a : RenewAct} (h : RenewMove cfg s a stmt s') (ht : Timely cfg margin s) :
    Timely cfg margin s' := by
  cases h with
  | stays => exact ht
  | skips hrenewing hat => exact timely_slept rfl hat
  | answered => exact timely_slept rfl rfl
  | issues hrenewing hat hdue =>
    have hprompt : s.now ≤ s.wokenAt + cfg.maintenanceInterval + margin :=
      Int.le_trans (ht.asleep hrenewing hat) (Int.le_add_of_nonneg_right (Int.natCast_nonneg _))
    exact ⟨ht.woken, (fun _ h => by cases h), fun _ => hdue, fun _ _ => hprompt⟩
  | executes hat =>
    have hnot : s.renewal ≠ .asleep := fun h => by cases hat.symm.trans h
    exact ⟨ht.woken, (fun _ h => by cases h), fun _ => ht.due hnot, fun hr _ => ht.prompt hr hnot⟩
  | stops => exact ⟨ht.woken, (fun h => by cases h), ht.due, fun h => by cases h⟩

theorem Move.timely {a : Act} (h : Move cfg serde s a stmt s') (ht : Timely cfg margin s)
    (ha : Prompt cfg margin s a) : Timely cfg margin s' := by
  cases h with
  | stays | outside => exact ht.of_same rfl rfl rfl id
  | dispatch hserving h =>
    have hframe := h.frame
    exact ht.of_same hframe.now hframe.wokenAt hframe.renewal fun hr => hframe.renewing ▸ hr
  | collect h =>
    have hframe := h.frame
    exact ht.of_same hframe.now hframe.wokenAt hframe.renewal fun hr => hframe.renewing ▸ hr
  | session h =>
    have hframe := h.frame
    exact ht.of_same hframe.now hframe.wokenAt hframe.renewal hframe.renewing
  | renew h => exact h.timely ht
  | child h => cases h <;> exact ht.of_same rfl rfl rfl id
  | @tick d hdue =>
    have hlater : s.now ≤ s.now + d := Int.le_add_of_nonneg_right (Int.natCast_nonneg d)
    exact ⟨Int.le_trans ht.woken hlater, hdue, fun hnot => Int.le_trans (ht.due hnot) hlater, ha⟩

/-! ## The last round -/

/-- When the last round of `renew` that named the job may have begun, at the earliest. -/
def lastRound (cfg : Settings) (margin : Nat) (s : Supervisor) (id : JobId) : Time :=
  match s.renewal with
  | .asleep => s.wokenAt - margin
  | .issued ids => if id ∈ ids then s.wokenAt - margin else s.wokenAt + cfg.maintenanceInterval
  | .executed => s.wokenAt + cfg.maintenanceInterval

theorem lastRound_eq (hwoken : s'.wokenAt = s.wokenAt) (hrenewal : s'.renewal = s.renewal) (id : JobId) :
    lastRound cfg margin s' id = lastRound cfg margin s id := by
  unfold lastRound
  rw [hwoken, hrenewal]

/-- A round begins with all there is in flight. -/
theorem lastRound_issued (hat : s.renewal = .asleep) {id : JobId} (hid : id ∈ s.inflight.ids) :
    lastRound cfg margin { s with renewal := .issued (snapshot s.inflight) } id = lastRound cfg margin s id := by
  unfold lastRound
  rw [hat]
  exact if_pos ((Finset.mem_sort _).mpr hid)

/-- An answer that is not an error comes after the execution. -/
theorem Prompt.executed (h : Prompt cfg margin s (.renew .answered)) (hat : s.renewal ≠ .asleep) :
    s.renewal = .executed := by
  cases hrenewal : s.renewal with
  | asleep => exact absurd hrenewal hat
  | issued ids => exact absurd hrenewal (h ids)
  | executed => rfl

theorem Timely.lastRound_le (h : Timely cfg margin s) (id : JobId) : lastRound cfg margin s id ≤ s.now := by
  have hwoken := h.woken
  have hdue := h.due
  have hmargin := Int.natCast_nonneg margin
  unfold lastRound
  split
  · linarith
  · next hat =>
    have hround := hdue (by rw [hat]; exact fun h => by cases h)
    split <;> linarith
  · next hat => exact hdue (by rw [hat]; exact fun h => by cases h)

/-- It is an interval and two margins ago at most. -/
theorem Timely.le_lastRound (h : Timely cfg margin s) (hr : s.renewing = true) (id : JobId) :
    s.now ≤ lastRound cfg margin s id + cfg.maintenanceInterval + 2 * margin := by
  have hmargin := Int.natCast_nonneg margin
  have hinterval := Int.natCast_nonneg cfg.maintenanceInterval
  unfold lastRound
  split
  · next hat =>
    have hasleep := h.asleep hr hat
    linarith
  · next hat =>
    have hprompt := h.prompt hr (by rw [hat]; exact fun h => by cases h)
    split <;> linarith
  · next hat =>
    have hprompt := h.prompt hr (by rw [hat]; exact fun h => by cases h)
    linarith

/-! ## What each row's lease was set to -/

/-- The row has gone in flight since the last round, or was renewed by it, or leased after. -/
def Touched (cfg : Settings) (margin : Nat) (s : Supervisor) (j : Job) : Prop :=
  lastRound cfg margin s j.id ≤ s.since j.id ∨
    ∃ e ∈ j.leaseExpiresAt, lastRound cfg margin s j.id + cfg.lease ≤ e

/-- Every row that this worker holds and has in flight. -/
def Kept (cfg : Settings) (margin : Nat) (s : Supervisor) : Prop :=
  ∀ j ∈ s.db.jobs, j.id ∈ s.inflight.ids → j.HeldBy cfg.worker → Touched cfg margin s j

/-- The phases in which nothing is in flight: `hand_back` has taken it, and the next
child has not been given anything. -/
def Phase.bare : Phase → Bool
  | .starting | .opening | .abandoning _ | .reclaiming | .restarting => true
  | _ => false

def Bare (s : Supervisor) : Prop := s.phase.bare = true → s.inflight.ids = ∅

theorem Move.bare {a : Act} (h : Move cfg serde s a stmt s') (hbare : Bare s) : Bare s' := by
  have hempty : s'.inflight.ids ⊆ s.inflight.ids → s.phase.bare = true → s'.inflight.ids = ∅ :=
    fun hsub hb => Finset.subset_empty.mp (hbare hb ▸ hsub)
  unfold Bare
  cases h with
  | dispatch hserving h =>
    rw [h.frame.phase, hserving]
    exact fun hb => by cases hb
  | collect h =>
    rw [h.frame.phase]
    exact hempty h.frame.inflight
  | session h =>
    cases h with
    | stays | shutdown | kills => exact hbare
    | opens hat | restarts hat | abandonFails hat | abandons hat | reclaimFails hat | reclaims hat =>
      exact fun _ => hbare (by rw [hat]; rfl)
    | spares hat hnone => exact fun _ => hnone
    | takes => exact fun _ => rfl
    | exits hat hdead hphase | leaves hat hdone hphase =>
      rcases hphase with ⟨-, rfl⟩ | ⟨-, rfl⟩ <;> exact fun hb => by cases hb
    | _ => exact fun hb => by cases hb
  | renew h => cases h <;> exact hbare
  | child h => cases h <;> exact hbare
  | stays | outside | tick => exact hbare

/-- Steps that leave the clocks of `renew` and the reservations, and set no lease but to
a whole one. -/
theorem Kept.of_rows (h : Kept cfg margin s) (ht : Timely cfg margin s)
    (hinflight : s'.inflight.ids ⊆ s.inflight.ids) (hsince : s'.since = s.since)
    (hwoken : s'.wokenAt = s.wokenAt) (hrenewal : s'.renewal = s.renewal)
    (hrows : ∀ k ∈ s'.db.jobs, k.id ∈ s'.inflight.ids → k.HeldBy cfg.worker →
      (∃ j ∈ s.db.jobs, j.id = k.id ∧ j.HeldBy cfg.worker ∧ j.leaseExpiresAt = k.leaseExpiresAt) ∨
        k.leaseExpiresAt = some (s.now + cfg.lease)) : Kept cfg margin s' := by
  intro k hk hid hheld
  unfold Touched
  rw [lastRound_eq hwoken hrenewal, hsince]
  rcases hrows k hk hid hheld with ⟨j, hj, hsame, hjheld, hlease⟩ | hfresh
  · have htouched := h j hj (hsame ▸ hinflight hid) hjheld
    unfold Touched at htouched
    rwa [hsame, hlease] at htouched
  · exact .inr ⟨s.now + cfg.lease, hfresh, Int.add_le_add_right (ht.lastRound_le k.id) _⟩

theorem actsFor_of_setsLease {w : Uuid} {e : Option Time} {st : Stmt} (h : SetsLease w e st) :
    actsFor st = some w := by
  cases st with
  | fetchUnkeyed | fetchKeyed | renew | abandon => exact congrArg some h.1
  | _ => exact h.elim

/-- A step sets a lease of this worker's to a whole one, or it is the `ABANDON` of a
session that has failed. -/
theorem Move.lease {a : Act} (h : Move cfg serde s a stmt s') {k : Job} (hk : k ∈ s'.db.jobs)
    (hheld : k.HeldBy cfg.worker) :
    (∃ j ∈ s.db.jobs, j.id = k.id ∧ j.HeldBy cfg.worker ∧ j.leaseExpiresAt = k.leaseExpiresAt) ∨
      k.leaseExpiresAt = some (s.now + cfg.lease) ∨ ∃ ids, s'.phase = .reclaiming ∧ s.phase = .abandoning ids := by
  rw [h.db] at hk
  cases stmt with
  | none => exact .inl ⟨k, hk, rfl, hheld, rfl⟩
  | some st =>
    refine (lease_of_exec hk hheld).imp_right fun hsets => ?_
    generalize ho : some st = o at h
    cases h with
    | dispatch hserving h =>
      cases h with
      | fetchFails h =>
        cases h <;> cases ho
        all_goals exact .inl hsets.2
      | unkeyed | unkeyedLost | keyed | keyedLost =>
        cases ho
        exact .inl hsets.2
      | discards =>
        cases ho
        exact hsets.elim
      | _ => cases ho
    | collect h =>
      cases h with
      | recordRefused | recorded =>
        cases ho
        exact hsets.elim
      | @calls _ _ stage _ _ _ hstmt =>
        split at ho <;> cases ho
        cases stage <;> cases hstmt
        all_goals exact hsets.elim
      | _ => cases ho
    | session h =>
      cases h with
      | abandons hat => exact .inr ⟨_, rfl, hat⟩
      | reclaims =>
        cases ho
        exact hsets.elim
      | _ => cases ho
    | renew h =>
      cases h with
      | executes =>
        cases ho
        exact .inl hsets.2
      | _ => cases ho
    | outside hother =>
      cases ho
      exact absurd (actsFor_of_setsLease hsets) hother
    | _ => cases ho

/-- `RENEW` renews what it lists. -/
theorem renewed_row {ids : List JobId} {k : Job}
    (hk : k ∈ (s.db.exec (.renew ids cfg.worker cfg.lease s.now)).jobs) (hheld : k.HeldBy cfg.worker)
    (hid : k.id ∈ ids) : k.leaseExpiresAt = some (s.now + cfg.lease) := by
  rw [run_renew] at hk
  obtain ⟨j, -, rfl⟩ := List.mem_map.mp hk
  revert hheld hid
  unfold expireRow
  split
  · exact fun _ _ => rfl
  · next hnot => exact fun hheld hid => absurd ⟨hid, hheld⟩ hnot

theorem RenewMove.kept {a : RenewAct} (h : RenewMove cfg s a stmt s') (hmove : Move cfg serde s (.renew a) stmt s')
    (hkept : Kept cfg margin s) (ht : Timely cfg margin s) (hr : s'.renewing = true)
    (ha : Prompt cfg margin s (.renew a)) : Kept cfg margin s' := by
  cases h with
  | stays | stops => exact hkept
  | skips hrenewing hat hdue hnone =>
    intro j hj hid
    rw [show s.inflight.ids = ∅ from hnone] at hid
    cases hid
  | issues hrenewing hat hdue hsome =>
    intro j hj hid hheld
    have htouched := hkept j hj hid hheld
    unfold Touched at htouched ⊢
    rwa [lastRound_issued hat hid]
  | @executes ids hat =>
    intro k hk hid hheld
    have hnot : s.renewal ≠ .asleep := fun h => by cases hat.symm.trans h
    have hround : s.wokenAt + cfg.maintenanceInterval ≤ s.now := ht.due hnot
    by_cases hlisted : k.id ∈ ids
    · exact .inr ⟨_, renewed_row hk hheld hlisted, Int.add_le_add_right hround _⟩
    · -- reserved since the round began
      rcases hmove.lease hk hheld with ⟨j, hj, hsame, hjheld, hlease⟩ | hfresh | ⟨_, hphase, hbefore⟩
      · have htouched := hkept j hj (hsame ▸ hid) hjheld
        unfold Touched lastRound at htouched
        rw [hat, hsame, hlease] at htouched
        simp only [hlisted, if_false] at htouched
        exact htouched
      · exact .inr ⟨_, hfresh, Int.add_le_add_right hround _⟩
      · cases hphase.symm.trans hbefore
  | answered hat =>
    intro j hj hid hheld
    have hexecuted := ha.executed hat
    have hprompt := ht.prompt hr hat
    have htouched := hkept j hj hid hheld
    have hle : s.now - margin ≤ s.wokenAt + cfg.maintenanceInterval := by linarith
    unfold Touched lastRound at htouched ⊢
    rw [hexecuted] at htouched
    refine htouched.imp (fun hsince => Int.le_trans hle hsince) fun hleased => ?_
    obtain ⟨e, he, hlasts⟩ := hleased
    exact ⟨e, he, Int.le_trans (Int.add_le_add_right hle _) hlasts⟩

/-- `dispatch` reserves at the present moment. -/
theorem DispatchMove.kept {a : DispatchAct} (h : DispatchMove cfg s a stmt s')
    (hmove : Move cfg serde s (.dispatch a) stmt s') (hserving : s.phase = .serving) (hkept : Kept cfg margin s)
    (ht : Timely cfg margin s) : Kept cfg margin s' := by
  have hframe := h.frame
  have hrows : ∀ k ∈ s'.db.jobs, k.HeldBy cfg.worker →
      (∃ j ∈ s.db.jobs, j.id = k.id ∧ j.HeldBy cfg.worker ∧ j.leaseExpiresAt = k.leaseExpiresAt) ∨
        k.leaseExpiresAt = some (s.now + cfg.lease) := by
    intro k hk hheld
    refine (hmove.lease hk hheld).imp_right fun hcases => hcases.resolve_right fun hfailed => ?_
    obtain ⟨ids, -, hphase⟩ := hfailed
    cases hserving.symm.trans hphase
  cases h with
  | @reserves fails buf reserved hat hsome =>
    intro k hk hid hheld
    by_cases hnew : k.id ∈ reserved
    · refine .inl ?_
      rw [lastRound_eq rfl rfl]
      exact Int.le_trans (ht.lastRound_le k.id) (le_of_eq (if_pos hnew).symm)
    · have hold : k.id ∈ s.inflight.ids := by
        rcases Finset.mem_union.mp hid with hin | hin
        · exact hin
        · exact absurd (List.mem_toFinset.mp hin) hnew
      have hsince : (if k.id ∈ reserved then s.now else s.since k.id) = s.since k.id := if_neg hnew
      have htouched := hkept k hk hold hheld
      unfold Touched at htouched ⊢
      rw [lastRound_eq rfl rfl]
      dsimp only
      rwa [hsince]
  | _ =>
    exact hkept.of_rows ht (Finset.Subset.refl _) rfl hframe.wokenAt hframe.renewal
      fun k hk _ hheld => hrows k hk hheld

/-- **What is in flight was renewed by the last round, or is newer.** -/
theorem Move.kept {a : Act} (h : Move cfg serde s a stmt s') (hkept : Kept cfg margin s)
    (ht : Timely cfg margin s) (hbare : Bare s) (hr : s'.renewing = true) (ha : Prompt cfg margin s a) :
    Kept cfg margin s' := by
  have hrows : s'.inflight.ids ⊆ s.inflight.ids → ∀ k ∈ s'.db.jobs, k.id ∈ s'.inflight.ids → k.HeldBy cfg.worker →
      (∃ j ∈ s.db.jobs, j.id = k.id ∧ j.HeldBy cfg.worker ∧ j.leaseExpiresAt = k.leaseExpiresAt) ∨
        k.leaseExpiresAt = some (s.now + cfg.lease) := by
    intro hsub k hk hid hheld
    refine (h.lease hk hheld).imp_right fun hcases => hcases.resolve_right fun hfailed => ?_
    -- `hand_back` has taken all there was
    obtain ⟨ids, -, hphase⟩ := hfailed
    have hnone := hbare (by rw [hphase]; rfl)
    have hmem := hsub hid
    rw [hnone] at hmem
    cases hmem
  cases h with
  | @dispatch a _ _ hserving hd =>
    have hmove : Move cfg serde s (.dispatch a) stmt s' := .dispatch hserving hd
    exact hd.kept hmove hserving hkept ht
  | collect hc =>
    have hframe := hc.frame
    exact hkept.of_rows ht hframe.inflight hframe.since hframe.wokenAt hframe.renewal (hrows hframe.inflight)
  | session hs =>
    have hframe := hs.frame
    exact hkept.of_rows ht hframe.inflight hframe.since hframe.wokenAt hframe.renewal (hrows hframe.inflight)
  | @renew a _ _ hn =>
    have hmove : Move cfg serde s (.renew a) stmt s' := .renew hn
    exact hn.kept hmove hkept ht hr ha
  | child hc => cases hc <;> exact hkept
  | outside => exact hkept.of_rows ht (Finset.Subset.refl _) rfl rfl rfl (hrows (Finset.Subset.refl _))
  | stays | tick => exact hkept

/-! ## What is held when `renew` may stop -/

/-- `dispatch` fetches no more before it looks at the token again. -/
def Dispatch.atRest : Dispatch → Bool
  | .checking | .full | .idle | .retrying | .done _ => true
  | .forwarding _ polling => !polling
  | _ => false

/-- Nothing is in flight, and nothing is about to be. -/
def Idle (s : Supervisor) : Prop :=
  s.inflight.ids = ∅ ∧ (s.phase = .serving → s.dispatch.atRest = true)

instance (s : Supervisor) : Decidable (Idle s) := inferInstanceAs (Decidable (_ ∧ _))

/-- The phases between two sessions, and after the last. -/
def Phase.between : Phase → Bool
  | .opening | .serving | .draining _ _ | .closing _ => false
  | _ => true

/-- `renew` is stopped by the token and by the end of `supervise`; there is no child
between sessions, and since the token was cancelled none that holds anything. -/
structure Lives (s : Supervisor) : Prop where
  renewing : s.shutdown = false → s.phase ≠ .over → s.renewing = true
  idle : s.shutdown = true → s.alive = true → Idle s
  between : s.phase.between = true → s.alive = false

/-- Once the token is cancelled, `dispatch` goes from rest to rest. -/
theorem DispatchMove.idle {a : DispatchAct} (h : DispatchMove cfg s a stmt s') (hdown : s.shutdown = true)
    (hserving : s.phase = .serving) (hidle : Idle s) : Idle s' := by
  obtain ⟨hnone, hrest⟩ := hidle
  have hrest := hrest hserving
  have hbusy : ∀ {d : Dispatch}, s.dispatch = d → d.atRest = true := fun hd => hd ▸ hrest
  cases h with
  | stays => exact ⟨hnone, fun _ => hrest⟩
  | turns h =>
    cases h with
    | looks hat hup => cases hdown.symm.trans hup
    | closed | freed | wakes => exact ⟨hnone, fun _ => rfl⟩
    | _ => cases hbusy ‹s.dispatch = _›
  | fetchFails h =>
    cases h with
    | _ => cases hbusy ‹s.dispatch = _›
  | receives hat =>
    rcases hat with ⟨hat, -⟩ | ⟨-, -, rfl⟩
    · cases hbusy hat
    · exact ⟨hnone, fun _ => rfl⟩
  | @forwards ack polling hat =>
    cases polling with
    | true => cases hbusy hat
    | false => exact ⟨hnone, fun _ => rfl⟩
  | ends => exact ⟨hnone, fun _ => rfl⟩
  | _ => cases hbusy ‹s.dispatch = _›

/-- The token is cancelled while no child is alive, or while nothing is in flight nor
about to be. -/
def StopsIdle (s : Supervisor) : Act → Prop
  | .session .shutdown => s.alive = true → Idle s
  | _ => True

instance (s : Supervisor) : (a : Act) → Decidable (StopsIdle s a)
  | .session .shutdown => inferInstanceAs (Decidable (_ → _))
  | .session .start | .session .startFails | .session .accept | .session .handshakeFails
  | .session .exited | .session .dispatchEnded | .session .drained | .session .kill
  | .session .finished | .session .handBack | .session (.abandon _) | .session (.reclaim _ _)
  | .session .restart | .dispatch _ | .collect _ | .renew _ | .child _ | .outside _ | .tick _ =>
    inferInstanceAs (Decidable True)

/-- Without a child there is nothing to hold. -/
theorem Lives.dead (hdead : s.alive = false)
    (hrenewing : s.shutdown = false → s.phase ≠ .over → s.renewing = true) : Lives s := by
  refine ⟨hrenewing, fun _ halive => ?_, fun _ => hdead⟩
  rw [hdead] at halive
  cases halive

theorem Finishes.dead {a : SessionAct} (h : Finishes cfg s a) (hlives : Lives s) : s.alive = false := by
  cases h with
  | finished hat hdead => exact hdead
  | start hat | startFails hat | restart hat => exact hlives.between (by rw [hat]; rfl)

theorem SessionMove.lives {a : SessionAct} (h : SessionMove cfg s a stmt s') (hlives : Lives s)
    (ha : StopsIdle s (.session a)) : Lives s' := by
  have hrenewing : ∀ {phase : Phase}, s.phase = phase → phase ≠ .over → s.shutdown = false →
      s.renewing = true :=
    fun hphase hne hrunning => hlives.renewing hrunning fun hover => hne (hphase.symm.trans hover)
  have hdead : ∀ {phase : Phase}, s.phase = phase → phase.between = true → s.alive = false :=
    fun hphase hbetween => hlives.between (hphase ▸ hbetween)
  -- a child that is left alive has nothing in flight, and no `dispatch`
  have hleft : ∀ {s' : Supervisor}, s'.shutdown = s.shutdown → s'.alive = s.alive → s'.inflight = s.inflight →
      s'.phase ≠ .serving → s'.shutdown = true → s'.alive = true → Idle s' := by
    intro s' hshutdown halive hinflight hphase hdown hlive
    refine ⟨?_, fun hserving => absurd hserving hphase⟩
    rw [hinflight]
    exact (hlives.idle (hshutdown ▸ hdown) (halive ▸ hlive)).1
  cases h with
  | stays => exact hlives
  | shutdown => exact ⟨fun hr => Bool.noConfusion hr, fun _ => ha, hlives.between⟩
  | finishes h => exact .dead (h.dead hlives) fun _ hover => absurd rfl hover
  | opens hat hup =>
    exact ⟨fun hr _ => hrenewing hat (fun hs => by cases hs) hr, (fun hdown => by cases hup.symm.trans hdown),
      fun hb => by cases hb⟩
  | accepts hat =>
    exact ⟨fun hr _ => hrenewing hat (fun hs => by cases hs) hr,
      fun hdown hlive => ⟨(hlives.idle hdown hlive).1, fun _ => rfl⟩, fun hb => by cases hb⟩
  | exits hat hgone hphase | leaves hat hdone hphase =>
    rcases hphase with ⟨-, rfl⟩ | ⟨-, rfl⟩ <;>
      exact ⟨fun hr _ => hrenewing hat (fun hs => by cases hs) hr,
        hleft rfl rfl rfl (fun hs => by cases hs), fun hb => by cases hb⟩
  | drains hat =>
    exact ⟨fun hr _ => hrenewing hat (fun hs => by cases hs) hr, hleft rfl rfl rfl (fun hs => by cases hs),
      fun hb => by cases hb⟩
  | kills hat | refuses hat => exact .dead rfl fun hr _ => hrenewing hat (fun hs => by cases hs) hr
  | breaks hat hgone => exact .dead hgone fun hr _ => hrenewing hat (fun hs => by cases hs) hr
  | spawnFails hat | spares hat | takes hat | abandonFails hat | abandons hat | reclaimFails hat | reclaims hat
  | restarts hat => exact .dead (hdead hat rfl) fun hr _ => hrenewing hat (fun hs => by cases hs) hr

theorem Move.lives {a : Act} (h : Move cfg serde s a stmt s') (hlives : Lives s) (ha : StopsIdle s a) :
    Lives s' := by
  cases h with
  | dispatch hserving h =>
    have hframe := h.frame
    refine ⟨?_, ?_, ?_⟩
    · rw [hframe.shutdown, hframe.phase, hframe.renewing]
      exact hlives.renewing
    · rw [hframe.shutdown, hframe.alive]
      exact fun hdown hlive => h.idle hdown hserving (hlives.idle hdown hlive)
    · rw [hframe.phase, hframe.alive]
      exact hlives.between
  | collect h =>
    have hframe := h.frame
    refine ⟨?_, ?_, ?_⟩
    · rw [hframe.shutdown, hframe.phase, hframe.renewing]
      exact hlives.renewing
    · rw [hframe.shutdown, hframe.alive]
      intro hdown hlive
      obtain ⟨hnone, hrest⟩ := hlives.idle hdown hlive
      refine ⟨Finset.subset_empty.mp (hnone ▸ hframe.inflight), ?_⟩
      rw [hframe.phase, hframe.dispatch]
      exact hrest
    · rw [hframe.phase, hframe.alive]
      exact hlives.between
  | session h => exact h.lives hlives ha
  | renew h =>
    cases h with
    | stops hdown => exact ⟨fun hr => absurd hdown (Bool.eq_false_iff.mp hr), hlives.idle, hlives.between⟩
    | _ => exact ⟨hlives.renewing, hlives.idle, hlives.between⟩
  | child h =>
    cases h with
    | exits => exact .dead rfl hlives.renewing
    | _ => exact ⟨hlives.renewing, hlives.idle, hlives.between⟩
  | stays | outside | tick => exact ⟨hlives.renewing, hlives.idle, hlives.between⟩

/-! ## Whole runs -/

/-- What a supervisor keeps up. -/
structure Upheld (cfg : Settings) (margin : Nat) (s : Supervisor) : Prop where
  lives : Lives s
  timely : Timely cfg margin s
  bare : Bare s
  kept : s.renewing = true → Kept cfg margin s

theorem Upheld.renewed (h : Upheld cfg margin s) : Renewed cfg margin s := by
  intro halive hheld
  have hrunning : s.shutdown = false := by
    by_contra hdown
    exact hheld (h.lives.idle (Bool.eq_true_of_not_eq_false hdown) halive).1
  have hphase : s.phase ≠ .over := by
    intro hover
    have hdead := h.lives.between (by rw [hover]; rfl)
    rw [halive] at hdead
    cases hdead
  have hrenewing := h.lives.renewing hrunning hphase
  refine ⟨hrenewing, fun j hj hid hmine => ?_⟩
  have hround := h.timely.le_lastRound hrenewing j.id
  rcases h.kept hrenewing j hj hid hmine with hsince | ⟨e, he, hlasts⟩
  · exact .inl (by linarith)
  · exact .inr ⟨e, he, by linarith⟩

theorem Move.upheld {a : Act} (h : Move cfg serde s a stmt s') (hs : Upheld cfg margin s)
    (ha : StopsIdle s a ∧ Prompt cfg margin s a) : Upheld cfg margin s' :=
  ⟨h.lives hs.lives ha.1, h.timely hs.timely ha.2, h.bare hs.bare,
    fun hr => h.kept (hs.kept (h.renewing hr)) hs.timely hs.bare hr ha.2⟩
end

/-- **Leases are renewed for as long as jobs are held.** In every run of `supervise`
in which shutdown is requested while there is no child, or while nothing is in
flight nor about to be, and in which every `RENEW` succeeds and is answered within a
margin, `renew` is running whenever a live child has jobs in flight. Each of them that
is still this worker's went in flight within the last maintenance interval, or its
`lease_expires_at` was set within it to a whole lease; two margins apart. -/
theorem held_leases_renewed (cfg : Settings) (margin : Nat) (serde : Serde) (db : Db) (as : List Act)
    (h : Along (step cfg serde) (fun s a => StopsIdle s a ∧ Prompt cfg margin s a) (initial db) as) :
    Renewed cfg margin (run (step cfg serde) (initial db) as) := by
  have hkeep : ∀ s a, Upheld cfg margin s → StopsIdle s a ∧ Prompt cfg margin s a →
      Upheld cfg margin (step cfg serde s a) := fun s a hs ha => (step_move cfg serde s a).upheld hs ha
  have hinitial : Upheld cfg margin (initial db) :=
    ⟨.dead rfl fun _ _ => rfl, timely_slept rfl rfl, fun _ => rfl, fun _ j _ hid => by simp [initial] at hid⟩
  exact (Along.inv hkeep as hinitial h).renewed

/-- A job is dispatched; `renew` wakes after ten seconds, its statement is executed after
one more and answered after a second one, and nine pass. -/
def renewedOnce : Supervisor :=
  run (step { worker := 7 } Serde.messagePack) (initial oneWaiting)
    (firstDispatch ++ [.tick 10000000, .renew .wake, .tick 1000000, .renew .execute, .tick 1000000,
      .renew .answered, .tick 9000000])

theorem held_leases_renewed_once :
    renewedOnce.alive = true ∧ renewedOnce.inflight.ids = {1} ∧ renewedOnce.now = 21000000 ∧
    LeasedUntil renewedOnce.db 7 1 41000000 ∧
    Renewed { worker := 7 } 2000000 renewedOnce := by
  refine ⟨by decide, by decide, by decide, by decide +kernel, held_leases_renewed _ _ _ _ _ ?_⟩
  refine ⟨⟨trivial, trivial⟩, ⟨trivial, trivial⟩, ⟨trivial, trivial⟩, ⟨trivial, trivial⟩, ⟨trivial, trivial⟩,
    ⟨trivial, trivial⟩, ⟨trivial, trivial⟩, ⟨trivial, trivial⟩, ⟨trivial, fun _ h => absurd rfl h⟩,
    ⟨trivial, trivial⟩, ⟨trivial, fun _ _ => by decide⟩, ⟨trivial, trivial⟩, ⟨trivial, fun _ _ => by decide⟩,
    ⟨trivial, fun _ h => by cases h⟩, ⟨trivial, fun _ h => absurd rfl h⟩, trivial⟩

/-- Nine seconds after a job was leased, shutdown is requested: `renew` and `dispatch`
return, and the session drains. The lease runs out, and another worker's reclaim
finds the row. -/
def afterDrain : Supervisor :=
  run (step { worker := 7 } Serde.messagePack) (initial oneWaiting)
    (firstDispatch ++ [.tick 9000000, .session .shutdown, .renew .stop, .dispatch .check,
      .session .dispatchEnded, .tick 25000000, .outside (.reclaim 1000 [1] 34000000)])

/-- The session is still draining, the child still has the job, and the job is
available again. -/
theorem draining_leases_unrenewed :
    afterDrain.alive = true ∧ afterDrain.inflight.ids = {1} ∧ afterDrain.renewing = false ∧
    afterDrain.phase = .draining true 39000000 ∧ afterDrain.now = 34000000 ∧ afterDrain.since 1 = 0 ∧
    (afterDrain.db.job? 1).map Job.state = some .available := by
  decide

end Gylo.Worker.Session
