import Mathlib.Data.List.Perm.Basic
import Gylo.Lib.Runs
import Gylo.Wire.Completion

/-! # The child's event loop

`serve` reads messages from the supervisor and makes an `asyncio` task out of each
`Dispatch`; the task runs `_execute`, which looks the job's task up, decodes the
arguments, awaits the body under a timeout and writes one `Complete` frame. Between
two awaits nothing else runs, so the loop is a sequence of such stretches, in any
order. An exception that leaves `_execute` ends in the `asyncio` task, where
nobody looks at it, except for `KeyboardInterrupt` and `SystemExit`, which the
event loop lets through. `asyncio.run` then cancels what is left, and waits for the
coroutines that were cancelled and for the threads of synchronous bodies. -/
namespace Gylo.Child

open Gylo.Store (Bytes)
open Gylo.Wire Runs

/-! ## Tasks and what they raise -/

/-- What an `asyncio` future makes of an exception that a thread has raised: it raises
one, the same or another, or a `CancelledError` for that of `concurrent.futures`. A
`StopIteration` is refused where the future should take it, so that the future is never
done. -/
inductive Thrown (E : Type) where
  | raised (error : E)
  | cancelled
  | never

/-- The Python values and exceptions of an application. `E` are the subclasses of
`Exception`. An `except` clause looks at the classes of the error (`caughtBy`), while
`isinstance` asks a metaclass and `format_exc` the exception itself, and either is `none`
if it raises. -/
structure Python (V E : Type) where
  caughtBy : E → String → Bool
  isinstance : E → String → Option Bool
  formatExc : E → Option PyStr
  fromThread : E → Thrown E
  unknownTask : String → E
  timeoutError : E
  decodePayload : Bytes → Except E (List V × List (String × V))
  encode : V → Except E Bytes

/-- How a task's body ends: with a value, an `Exception`, a `CancelledError`,
`KeyboardInterrupt` or `SystemExit`, or another `BaseException`. -/
inductive Ending (V E : Type) where
  | returned (value : V)
  | raised (error : E)
  | cancelled
  | exits
  | baseException

structure Task where
  isAsync : Bool := true
  retryOn : List String := ["Exception"]
  noRetryOn : List String := []
  storeResult : Bool := false
  timeout : Option Nat := some 300

/-- `struct` reads the id from eight bytes. -/
structure Dispatch where
  id : Int
  attempt : Int
  maxAttempts : Int
  task : String
  payload : Bytes
  inI64 : InI64 id

section
variable {V E : Type} (py : Python V E)

/-- `isinstance` with a tuple, which stops at the first class that answers yes or raises. -/
def Python.isinstanceAny (error : E) : List String → Option Bool
  | [] => some false
  | name :: names => do
    if ← py.isinstance error name then pure true else isinstanceAny error names

/-- `Task.should_retry`. -/
def Task.shouldRetry (task : Task) (error : E) : Option Bool := do
  if ← py.isinstance error "NoRetryError" then pure false
  else if ← py.isinstanceAny error task.noRetryOn then pure false
  else py.isinstanceAny error task.retryOn

/-- `_call`: how the await of the body ends, if it does. A synchronous body runs in a
thread, and its outcome comes through a future. -/
def awaited (task : Task) : Ending V E → Option (Ending V E)
  | .raised error =>
    if task.isAsync then some (.raised error)
    else match py.fromThread error with
      | .raised error => some (.raised error)
      | .cancelled => some .cancelled
      | .never => none
  | e => some e

/-- `async with asyncio.timeout(task.timeout)`: a cancellation of its own making, and
nobody else's, becomes a `TimeoutError`. -/
def underTimeout (task : Task) (fired : Bool) : Ending V E → Ending V E
  | .cancelled => if fired ∧ task.timeout.isSome then .raised py.timeoutError else .cancelled
  | e => e

/-! ## `_execute` -/

/-- How a stretch of `_execute` ends, if not at the await of the body: with a frame
written, with an exception that stays in the task, or with one that leaves the
loop. -/
inductive Report where
  | frame (bytes : Bytes)
  | swallowed
  | exits

/-- A frame, or the `struct.error` in its place. -/
def reportOf : Option Bytes → Report
  | some frame => .frame frame
  | none => .swallowed

/-- `_fail`, with what comes of the expression for `retry`. -/
def fail (job : Dispatch) (error : E) (retry : Option Bool) : Report :=
  match retry, py.formatExc error with
  | some retry, some text => reportOf (encodeFailure job.id text retry)
  | _, _ => .swallowed

/-- `_execute` up to the await of the body. -/
def begin (app : String → Option Task) (job : Dispatch) : Except Report Task :=
  match app job.task with
  | none => .error (fail py job (py.unknownTask job.task) (some false))
  | some task =>
    if job.payload = [] then .ok task
    else match py.decodePayload job.payload with
      | .error e => .error (fail py job e (some false))
      | .ok _ => .ok task

/-- `_execute` from the end of the await on. -/
def finish (job : Dispatch) (task : Task) (fired : Bool) (e : Ending V E) : Report :=
  match underTimeout py task fired e with
  | .raised error => fail py job error (task.shouldRetry py error)
  | .cancelled | .baseException => .swallowed
  | .exits => .exits
  | .returned value =>
    if task.storeResult then
      match py.encode value with
      | .ok stored => reportOf (encodeSuccess job.id stored)
      | .error error =>
        if py.caughtBy error "TypeError" ∨ py.caughtBy error "ValueError" then
          fail py job error (some false)
        else .swallowed
    else reportOf (encodeSuccess job.id [])
end

/-! ## The loop -/

/-- Where the task of a job is: not yet begun, waiting for a thread, at the await of its
body, at one that no outcome will end, or at the `drain` after its frame. -/
inductive Stage where
  | scheduled
  | submitted (task : Task)
  | calling (task : Task)
  | hung (task : Task)
  | draining

structure JobTask where
  job : Dispatch
  stage : Stage

/-- The child. `closing` is set once `serve` is over and `asyncio.run` waits, and
`threads` counts the synchronous bodies that nobody awaits any more. The code keeps no
list of what it `received`. -/
structure Process where
  alive : Bool := true
  reading : Bool := true
  closing : Bool := false
  running : List JobTask := []
  threads : Nat := 0
  written : List Bytes := []
  received : List Int := []

/-- A thread takes a body up (`picked`), a body ends, or the `asyncio` task of a job is
cancelled: by its timeout, which then has `fired`, or by anybody else. The rest of the
actions are a thread that comes to its end, a read that finds the stream at its end,
`serve` raising, on bytes that the decoder refuses for one, `serve` coming to its end,
and a signal. -/
inductive Act (V E : Type) where
  | receive (job : Dispatch)
  | start (i : Nat)
  | picked (i : Nat)
  | ends (i : Nat) (fired : Bool) (e : Ending V E)
  | cancel (i : Nat) (fired : Bool)
  | drained (i : Nat)
  | threadEnds
  | eof
  | unreadable
  | leave
  | kill

/-- At the await of a coroutine. A cancellation goes into it, and what comes of that is
for the coroutine to say. -/
def JobTask.awaits (t : JobTask) : Bool :=
  match t.stage with
  | .calling task => task.isAsync
  | _ => false

/-- At the await of a thread that is running. -/
def JobTask.threaded (t : JobTask) : Bool :=
  match t.stage with
  | .calling task => !task.isAsync
  | _ => false

/-- `asyncio.run` closes its loop: it cancels every task, which ends at once unless a
coroutine goes on, and leaves the threads running. -/
def Process.close (c : Process) : Process :=
  { c with
    reading := false
    closing := true
    running := c.running.filter JobTask.awaits
    threads := c.threads + c.running.countP JobTask.threaded }

/-- `KeyboardInterrupt` or `SystemExit` out of a task stops the loop; while it is closing,
for good. -/
def Process.exit (c : Process) (i : Nat) : Process :=
  if c.closing then { c with running := [] }
  else Process.close { c with running := c.running.eraseIdx i }

def Process.report (c : Process) (i : Nat) (job : Dispatch) : Report → Process
  | .frame bytes =>
    { c with written := c.written ++ [bytes], running := c.running.set i ⟨job, .draining⟩ }
  | .swallowed => { c with running := c.running.eraseIdx i }
  | .exits => c.exit i

/-- A process that closes is gone when it has nothing left to wait for. -/
def Process.settle (c : Process) : Process :=
  if c.closing ∧ c.running.isEmpty ∧ c.threads = 0 then { c with alive := false } else c

section
variable {V E : Type} (py : Python V E) (app : String → Option Task)

/-- The cancellation of a job's task. Before `_execute` has begun it is never run, and a
thread goes on without it. -/
def cancel (c : Process) (i : Nat) (fired : Bool) (t : JobTask) : Process :=
  match t.stage with
  | .scheduled | .draining => { c with running := c.running.eraseIdx i }
  | .submitted task | .hung task => c.report i t.job (finish py t.job task fired .cancelled)
  | .calling task =>
    if task.isAsync then c
    else Process.report { c with threads := c.threads + 1 } i t.job (finish py t.job task fired .cancelled)

def act (c : Process) : Act V E → Process
  | .receive job =>
    if c.reading then
      { c with running := c.running ++ [⟨job, .scheduled⟩], received := c.received ++ [job.id] }
    else c
  | .start i =>
    match c.running[i]? with
    | some ⟨job, .scheduled⟩ =>
      match begin py app job with
      | .ok task =>
        { c with running := c.running.set i ⟨job, if task.isAsync then .calling task else .submitted task⟩ }
      | .error r => c.report i job r
    | _ => c
  | .picked i =>
    match c.running[i]? with
    | some ⟨job, .submitted task⟩ => { c with running := c.running.set i ⟨job, .calling task⟩ }
    | _ => c
  | .ends i fired e =>
    match c.running[i]? with
    | some ⟨job, .calling task⟩ =>
      match awaited py task e with
      | none => { c with running := c.running.set i ⟨job, .hung task⟩ }
      -- a thread is not told of the timeout, and in a closing loop a cancellation is not its own
      | some e => c.report i job (finish py job task (fired && task.isAsync && !c.closing) e)
    | _ => c
  | .cancel i fired =>
    match c.running[i]? with
    | some t => cancel py c i fired t
    | none => c
  | .drained i =>
    match c.running[i]? with
    | some ⟨_, .draining⟩ => { c with running := c.running.eraseIdx i }
    | _ => c
  | .threadEnds => { c with threads := c.threads - 1 }
  | .eof => { c with reading := false }
  | .unreadable => if c.closing then c else c.close
  | .leave => if c.reading = false ∧ c.running.isEmpty then c.close else c
  | .kill => { c with alive := false }

/-- A process that has ended does nothing more. -/
def step (c : Process) (a : Act V E) : Process := if c.alive then (act py app c a).settle else c

/-! ## Every dispatch is answered -/

/-- The job of a task that will still write its frame. A body in a thread whose outcome
never comes is waited for until the timeout, if there is one. -/
def JobTask.open? (t : JobTask) : Option Int :=
  match t.stage with
  | .draining => none
  | .hung task => if task.timeout.isSome then some t.job.id else none
  | _ => some t.job.id

/-- The jobs answered and the jobs still open. -/
def Process.tally (c : Process) : List Int :=
  c.written.filterMap completes? ++ c.running.filterMap JobTask.open?

/-- While the process is up, the completions it has written and the jobs it is still
at are the dispatches it received, each as often as it came. -/
def Answered (c : Process) : Prop := c.alive = true → c.tally.Perm c.received

/-- An error that `_execute` gets into a frame. -/
def Reportable (task : Task) (error : E) : Prop :=
  (task.shouldRetry py error).isSome ∧ (py.formatExc error).isSome

/-- A value whose encoding succeeds and fits a frame's length field, or fails the way
`_execute` expects. -/
def Storable (value : V) : Prop :=
  match py.encode value with
  | .ok stored => 10 + stored.length < 4294967296
  | .error error =>
    (py.caughtBy error "TypeError" ∨ py.caughtBy error "ValueError") ∧ (py.formatExc error).isSome

/-- An ending of the await that `_execute` reports. -/
def Reported (task : Task) (fired : Bool) : Ending V E → Prop
  | .returned value => task.storeResult = true → Storable py value
  | .raised error => Reportable py task error
  | .cancelled => (fired = true ∧ task.timeout.isSome) ∧ Reportable py task py.timeoutError
  | .exits | .baseException => False

/-- What goes wrong before the body can be put into a frame. -/
def Presentable (job : Dispatch) : Prop :=
  match app job.task with
  | none => (py.formatExc (py.unknownTask job.task)).isSome
  | some _ => job.payload ≠ [] → ∀ e, py.decodePayload job.payload = .error e → (py.formatExc e).isSome

/-- A cancellation that the job survives, or that is reported. -/
def Outlives (fired : Bool) (t : JobTask) : Prop :=
  match t.stage with
  | .scheduled => False
  | .submitted task => Reported py task fired .cancelled
  | .calling task => task.isAsync = false → Reported py task fired .cancelled
  | .hung task => task.timeout.isSome → Reported py task fired .cancelled
  | .draining => True

/-- A step that takes no job from the loop without a frame: what begins or ends is
reported, a thread whose outcome never comes has a timeout to end the wait, and when
`serve` fails every open job is at the await of a coroutine. -/
def Spares (c : Process) : Act V E → Prop
  | .start i => ∀ t ∈ c.running[i]?, t.stage = .scheduled → Presentable py app t.job
  | .ends i fired e => ∀ t ∈ c.running[i]?, ∀ task, t.stage = .calling task →
      match awaited py task e with
      | none => task.timeout.isSome
      | some e => Reported py task (fired && task.isAsync && !c.closing) e
  | .cancel i fired => ∀ t ∈ c.running[i]?, Outlives py fired t
  | .unreadable => c.closing = false → ∀ t ∈ c.running, t.open?.isSome → t.awaits = true
  | _ => True

/-- A step that spares the jobs, or one with which the process is gone. -/
def Orderly (c : Process) (a : Act V E) : Prop :=
  c.alive = true → Spares py app c a ∨ (step py app c a).alive = false

/-! ## What a stretch reports -/

theorem fail_cases (job : Dispatch) (error : E) (retry : Option Bool) :
    ((retry.isSome ∧ (py.formatExc error).isSome) ∧
      ∃ frame, fail py job error retry = .frame frame ∧ completes? frame = some job.id) ∨
    (¬ (retry.isSome ∧ (py.formatExc error).isSome) ∧ fail py job error retry = .swallowed) := by
  unfold fail
  cases retry with
  | none => exact .inr ⟨fun h => (by cases h.1), rfl⟩
  | some retry =>
    cases py.formatExc error with
    | none => exact .inr ⟨fun h => (by cases h.2), rfl⟩
    | some text =>
      obtain ⟨frame, hframe⟩ := encodeFailure_eq_some job.inI64 text retry
      exact .inl ⟨⟨rfl, rfl⟩, frame, congrArg reportOf hframe, completes_packComplete hframe⟩

theorem reportOf_success {job : Dispatch} {stored : Bytes} (h : 10 + stored.length < 4294967296) :
    ∃ frame, reportOf (encodeSuccess job.id stored) = .frame frame ∧ completes? frame = some job.id := by
  obtain ⟨frame, hframe⟩ := packComplete_eq_some job.inI64 0x00 h
  exact ⟨frame, by rw [encodeSuccess, hframe, reportOf], completes_packComplete hframe⟩

/-- What goes wrong before the body is reported, exactly if it can be put into a frame. -/
theorem begin_error {job : Dispatch} {r : Report} (h : begin py app job = .error r) :
    (Presentable py app job ∧ ∃ frame, r = .frame frame ∧ completes? frame = some job.id) ∨
    (¬ Presentable py app job ∧ r = .swallowed) := by
  have hfail : ∀ {error : E}, fail py job error (some false) = r →
      ((py.formatExc error).isSome ∧ ∃ frame, r = .frame frame ∧ completes? frame = some job.id) ∨
      (¬ (py.formatExc error).isSome ∧ r = .swallowed) := by
    intro error hr
    rw [← hr]
    rcases fail_cases py job error (some false) with ⟨hok, hframe⟩ | ⟨hnot, hlost⟩
    · exact .inl ⟨hok.2, hframe⟩
    · exact .inr ⟨fun hsome => hnot ⟨rfl, hsome⟩, hlost⟩
  unfold begin at h
  unfold Presentable
  cases happ : app job.task with
  | none =>
    rw [happ] at h
    exact hfail (Except.error.inj h)
  | some task =>
    rw [happ] at h
    by_cases hempty : job.payload = []
    · simp only [if_pos hempty] at h
      cases h
    · simp only [if_neg hempty] at h
      cases hdecode : py.decodePayload job.payload with
      | ok args =>
        rw [hdecode] at h
        cases h
      | error e =>
        rw [hdecode] at h
        refine (hfail (Except.error.inj h)).imp (And.imp_left fun hsome _ e' he => ?_)
          (And.imp_left fun hnot hall => hnot (hall hempty e rfl))
        cases he
        exact hsome

theorem begin_ok_presentable {job : Dispatch} {task : Task} (h : begin py app job = .ok task) :
    Presentable py app job := by
  unfold begin at h
  unfold Presentable
  cases happ : app job.task with
  | none =>
    rw [happ] at h
    cases h
  | some found =>
    rw [happ] at h
    intro hsome e he
    simp only [if_neg hsome, he] at h
    cases h

/-- An ending of the await is reported with a frame of the job exactly if it is one of
those `_execute` expects. -/
theorem finish_cases (job : Dispatch) (task : Task) (fired : Bool) (e : Ending V E) :
    (Reported py task fired e ∧
      ∃ frame, finish py job task fired e = .frame frame ∧ completes? frame = some job.id) ∨
    (¬ Reported py task fired e ∧
      (finish py job task fired e = .swallowed ∨ finish py job task fired e = .exits)) := by
  cases e with
  | raised error => exact (fail_cases py job error _).imp_right fun h => ⟨h.1, .inl h.2⟩
  | exits => exact .inr ⟨id, .inr rfl⟩
  | baseException => exact .inr ⟨id, .inl rfl⟩
  | cancelled =>
    by_cases hfired : fired = true ∧ task.timeout.isSome
    · simp only [finish, underTimeout, if_pos hfired, Reported]
      exact (fail_cases py job py.timeoutError _).imp (And.imp_left fun h => ⟨hfired, h⟩)
        fun h => ⟨fun hall => h.1 hall.2, .inl h.2⟩
    · refine .inr ⟨fun h => hfired h.1, .inl ?_⟩
      simp only [finish, underTimeout, if_neg hfired]
  | returned value =>
    simp only [finish, underTimeout, Reported]
    by_cases hstore : task.storeResult = true
    · rw [if_pos hstore]
      unfold Storable
      cases py.encode value with
      | ok stored =>
        dsimp only
        by_cases hlen : 10 + stored.length < 4294967296
        · exact .inl ⟨fun _ => hlen, reportOf_success hlen⟩
        · refine .inr ⟨fun h => hlen (h hstore), .inl ?_⟩
          rw [encodeSuccess, packComplete, if_neg fun h => hlen h.1, reportOf]
      | error error =>
        dsimp only
        by_cases hexpected : py.caughtBy error "TypeError" ∨ py.caughtBy error "ValueError"
        · rw [if_pos hexpected]
          exact (fail_cases py job error (some false)).imp (And.imp_left fun h _ => ⟨hexpected, h.2⟩)
            fun h => ⟨fun hall => h.1 ⟨rfl, (hall hstore).2⟩, .inl h.2⟩
        · rw [if_neg hexpected]
          exact .inr ⟨fun h => hexpected (h hstore).1, .inl rfl⟩
    · rw [if_neg hstore]
      exact .inl ⟨fun h => absurd h hstore, reportOf_success (by decide)⟩
end

/-! ## Runs -/

section
variable {running : List JobTask} {i : Nat} {t : JobTask}

theorem open_erase (h : running[i]? = some t) : (running.filterMap JobTask.open?).Perm
    (t.open?.toList ++ (running.eraseIdx i).filterMap JobTask.open?) := by
  obtain ⟨hi, rfl⟩ := List.getElem?_eq_some_iff.mp h
  refine ((List.getElem_cons_eraseIdx_perm hi).filterMap JobTask.open?).symm.trans ?_
  rw [List.filterMap_cons]
  cases running[i].open? <;> exact .refl _

theorem open_set (h : running[i]? = some t) (t' : JobTask) :
    ((running.set i t').filterMap JobTask.open?).Perm
      (t'.open?.toList ++ (running.eraseIdx i).filterMap JobTask.open?) := by
  obtain ⟨hi, -⟩ := List.getElem?_eq_some_iff.mp h
  refine ((List.set_perm_cons_eraseIdx hi t').filterMap JobTask.open?).trans ?_
  rw [List.filterMap_cons]
  cases t'.open? <;> exact .refl _

theorem open_filter (h : ∀ t ∈ running, t.open?.isSome → t.awaits = true) :
    (running.filter JobTask.awaits).filterMap JobTask.open? = running.filterMap JobTask.open? := by
  induction running with
  | nil => rfl
  | cons t rest ih =>
    have hrest := ih fun t ht => h t (List.mem_cons_of_mem _ ht)
    by_cases hawaits : t.awaits = true
    · rw [List.filter_cons_of_pos hawaits, List.filterMap_cons, List.filterMap_cons, hrest]
    · have hclosed : t.open? = none := by
        cases hopen : t.open? with
        | none => rfl
        | some id => exact absurd (h t List.mem_cons_self (by rw [hopen]; rfl)) hawaits
      rw [List.filter_cons_of_neg hawaits, List.filterMap_cons_none hclosed, hrest]

theorem length_open_filter (running : List JobTask) :
    ((running.filter JobTask.awaits).filterMap JobTask.open?).length ≤ (running.filterMap JobTask.open?).length :=
  (List.filter_sublist.filterMap JobTask.open?).length_le

/-- An open job that is not at a coroutine is lost when the loop closes. -/
theorem length_open_filter_lt (ht : t ∈ running) (hopen : t.open?.isSome) (hnot : t.awaits ≠ true) :
    ((running.filter JobTask.awaits).filterMap JobTask.open?).length < (running.filterMap JobTask.open?).length := by
  obtain ⟨i, hi⟩ := List.getElem?_of_mem ht
  obtain ⟨hlt, hget⟩ := List.getElem?_eq_some_iff.mp hi
  have hfilter : (running.filter JobTask.awaits).Perm ((running.eraseIdx i).filter JobTask.awaits) := by
    have hperm := (List.getElem_cons_eraseIdx_perm hlt).filter JobTask.awaits
    rw [hget, List.filter_cons_of_neg hnot] at hperm
    exact hperm.symm
  have hbefore := (open_erase hi).length_eq
  have hafter := (hfilter.filterMap JobTask.open?).length_eq
  have hle := length_open_filter (running.eraseIdx i)
  obtain ⟨id, hid⟩ := Option.isSome_iff_exists.mp hopen
  rw [hid] at hbefore
  simp only [List.length_append, Option.toList_some, List.length_singleton] at hbefore
  omega
end

/-- What a step does to the tally if it loses nothing. -/
def Keeps (c c' : Process) : Prop :=
  c'.alive = true → ∃ ids, c'.received = c.received ++ ids ∧ c'.tally.Perm (c.tally ++ ids)

def Loses (c c' : Process) : Prop := c'.received = c.received ∧ c'.tally.length < c.tally.length

section
variable {c : Process} {i : Nat} {t : JobTask}

theorem Keeps.of_tally {c' : Process} (hreceived : c'.received = c.received) (htally : c'.tally.Perm c.tally) :
    Keeps c c' := fun _ => ⟨[], by rw [hreceived, List.append_nil], by rw [List.append_nil]; exact htally⟩

theorem Keeps.refl (c : Process) : Keeps c c := .of_tally rfl (.refl _)

/-- A task that moves on without a frame of its own keeps the tally. -/
theorem keeps_set (h : c.running[i]? = some t) (t' : JobTask) (hopen : t'.open? = t.open?) :
    Keeps c { c with running := c.running.set i t' } := by
  refine .of_tally rfl (List.Perm.append_left _ ((open_set h t').trans ?_))
  rw [hopen]
  exact (open_erase h).symm

theorem keeps_erase (h : c.running[i]? = some t) (hopen : t.open? = none) :
    Keeps c { c with running := c.running.eraseIdx i } := by
  have hbefore := open_erase h
  rw [hopen] at hbefore
  exact .of_tally rfl (List.Perm.append_left _ hbefore.symm)

/-- A job that nobody will answer any more. -/
theorem loses_set (h : c.running[i]? = some t) (hopen : t.open? = some t.job.id) {t' : JobTask}
    (hclosed : t'.open? = none) : Loses c { c with running := c.running.set i t' } := by
  have hbefore := (open_erase h).length_eq
  have hafter := (open_set h t').length_eq
  rw [hopen] at hbefore
  rw [hclosed] at hafter
  refine ⟨rfl, ?_⟩
  simp only [Process.tally, List.length_append, Option.toList_some, Option.toList_none,
    List.length_singleton, List.length_nil] at hbefore hafter ⊢
  omega

theorem loses_erase (h : c.running[i]? = some t) (hopen : t.open? = some t.job.id) :
    Loses c { c with running := c.running.eraseIdx i } := by
  have hbefore := (open_erase h).length_eq
  rw [hopen] at hbefore
  refine ⟨rfl, ?_⟩
  simp only [Process.tally, List.length_append, Option.toList_some, List.length_singleton] at hbefore ⊢
  omega

theorem loses_exit (h : c.running[i]? = some t) (hopen : t.open? = some t.job.id) : Loses c (c.exit i) := by
  have hlost := loses_erase h hopen
  unfold Process.exit
  split
  · refine ⟨rfl, Nat.lt_of_le_of_lt ?_ hlost.2⟩
    simp only [Process.tally, List.length_append, List.filterMap_nil, List.length_nil]
    omega
  · refine ⟨rfl, Nat.lt_of_le_of_lt ?_ hlost.2⟩
    simp only [Process.tally, Process.close, List.length_append]
    exact Nat.add_le_add_left (length_open_filter _) _

/-- A frame takes the job from the open ones to the answered ones. -/
theorem keeps_frame (h : c.running[i]? = some t) (hopen : t.open? = some t.job.id) {frame : Bytes}
    (hframe : completes? frame = some t.job.id) : Keeps c (c.report i t.job (.frame frame)) := by
  have hbefore := open_erase h
  have hafter := open_set h ⟨t.job, .draining⟩
  rw [hopen] at hbefore
  refine .of_tally rfl ?_
  simp only [Process.tally, Process.report, List.filterMap_append, List.filterMap_cons, hframe,
    List.filterMap_nil, List.append_assoc]
  exact List.Perm.append_left _ ((hafter.append_left [t.job.id]).trans hbefore.symm)

theorem loses_report (h : c.running[i]? = some t) (hopen : t.open? = some t.job.id) {r : Report}
    (hr : r = .swallowed ∨ r = .exits) : Loses c (c.report i t.job r) := by
  rcases hr with rfl | rfl
  · exact loses_erase h hopen
  · exact loses_exit h hopen

/-- Without the loss of an open job the loop closes with the tally it had. -/
theorem keeps_close (h : ∀ t ∈ c.running, t.open?.isSome → t.awaits = true) : Keeps c c.close := by
  refine .of_tally rfl ?_
  simp only [Process.tally, Process.close, open_filter h]
  exact .refl _

theorem loses_close (ht : t ∈ c.running) (hopen : t.open?.isSome) (hnot : t.awaits ≠ true) : Loses c c.close := by
  refine ⟨rfl, ?_⟩
  simp only [Process.tally, Process.close, List.length_append]
  exact Nat.add_lt_add_left (length_open_filter_lt ht hopen hnot) _
end

section
variable {V E : Type} {py : Python V E} {app : String → Option Task} {c : Process} {i : Nat} {t : JobTask}

variable (py) in
/-- The await of an open job ends, and the job is reported or lost. -/
theorem finish_tally (h : c.running[i]? = some t) (hopen : t.open? = some t.job.id) (task : Task) (fired : Bool)
    (e : Ending V E) :
    (Reported py task fired e ∧ Keeps c (c.report i t.job (finish py t.job task fired e))) ∨
    (¬ Reported py task fired e ∧ Loses c (c.report i t.job (finish py t.job task fired e))) := by
  rcases finish_cases py t.job task fired e with ⟨hgood, frame, hframe, hid⟩ | ⟨hbad, hlost⟩
  · refine .inl ⟨hgood, ?_⟩
    rw [hframe]
    exact keeps_frame h hopen hid
  · exact .inr ⟨hbad, loses_report h hopen hlost⟩

theorem cancel_tally (h : c.running[i]? = some t) (fired : Bool) :
    (Outlives py fired t ∧ Keeps c (cancel py c i fired t)) ∨
    (¬ Outlives py fired t ∧ Loses c (cancel py c i fired t)) := by
  obtain ⟨job, stage⟩ := t
  cases stage with
  | scheduled => exact .inr ⟨id, loses_erase h rfl⟩
  | draining => exact .inl ⟨trivial, keeps_erase h rfl⟩
  | submitted task => exact finish_tally py h rfl task fired .cancelled
  | calling task =>
    simp only [Outlives, cancel]
    by_cases hasync : task.isAsync = true
    · rw [if_pos hasync]
      exact .inl ⟨fun hsync => (by cases hasync.symm.trans hsync), .refl c⟩
    · rw [if_neg hasync]
      -- the thread counts for nothing in the tally
      have hcase := finish_tally py (c := { c with threads := c.threads + 1 }) h rfl task fired .cancelled
      exact hcase.imp (And.imp_left fun hr _ => hr)
        (And.imp_left fun hr hall => hr (hall (Bool.eq_false_iff.mpr hasync)))
  | hung task =>
    simp only [Outlives, cancel]
    by_cases htimeout : task.timeout.isSome = true
    · have hopen : JobTask.open? ⟨job, .hung task⟩ = some job.id := if_pos htimeout
      exact (finish_tally py h hopen task fired .cancelled).imp (And.imp_left fun hr _ => hr)
        (And.imp_left fun hr hall => hr (hall htimeout))
    · -- nobody was waiting for it any more
      have hopen : JobTask.open? ⟨job, .hung task⟩ = none := if_neg htimeout
      have hlost : finish py job task fired .cancelled = .swallowed := by
        simp only [finish, underTimeout]
        rw [if_neg fun hfired => htimeout hfired.2]
      refine .inl ⟨fun hsome => absurd hsome htimeout, ?_⟩
      rw [hlost]
      exact keeps_erase h hopen

/-- A job begins, is answered at once, or cannot be answered at all. -/
theorem start_tally (c : Process) (i : Nat) :
    (Spares py app c (.start i) ∧ Keeps c (act py app c (.start i))) ∨
    (¬ Spares py app c (.start i) ∧ Loses c (act py app c (.start i))) := by
  simp only [act, Spares]
  split
  · next job hi =>
    cases hbegin : begin py app job with
    | ok task =>
      refine .inl ⟨fun t ht _ => ?_, ?_⟩
      · cases Option.mem_unique ht hi
        exact begin_ok_presentable py app hbegin
      · refine keeps_set hi _ ?_
        by_cases hasync : task.isAsync = true
        · rw [if_pos hasync]
          rfl
        · rw [if_neg hasync]
          rfl
    | error r =>
      rcases begin_error py app hbegin with ⟨hgood, frame, rfl, hid⟩ | ⟨hbad, rfl⟩
      · refine .inl ⟨fun t ht _ => ?_, keeps_frame hi rfl hid⟩
        cases Option.mem_unique ht hi
        exact hgood
      · exact .inr ⟨fun hall => hbad (hall _ hi rfl), loses_erase hi rfl⟩
  · next hnot =>
    refine .inl ⟨fun t ht hstage => ?_, .refl c⟩
    obtain ⟨job, stage⟩ := t
    cases hstage
    exact absurd ht (hnot job)

/-- A call ends, and is reported, lost or waited for until its timeout. -/
theorem ends_tally (c : Process) (i : Nat) (fired : Bool) (e : Ending V E) :
    (Spares py app c (.ends i fired e) ∧ Keeps c (act py app c (.ends i fired e))) ∨
    (¬ Spares py app c (.ends i fired e) ∧ Loses c (act py app c (.ends i fired e))) := by
  simp only [act, Spares]
  split
  · next job task hi =>
    have hat : ∀ {P : Task → Prop}, (∀ t ∈ c.running[i]?, ∀ task', t.stage = .calling task' → P task') ↔ P task := by
      refine ⟨fun h => h _ hi task rfl, fun h t ht task' hstage => ?_⟩
      cases Option.mem_unique ht hi
      cases hstage
      exact h
    rw [hat]
    cases awaited py task e with
    | some e => exact finish_tally py hi rfl task _ e
    | none =>
      dsimp only
      by_cases htimeout : task.timeout.isSome = true
      · exact .inl ⟨htimeout, keeps_set hi _ (if_pos htimeout)⟩
      · exact .inr ⟨htimeout, loses_set hi rfl (if_neg htimeout)⟩
  · next hnot =>
    refine .inl ⟨fun t ht task hstage => ?_, .refl c⟩
    obtain ⟨job, stage⟩ := t
    cases hstage
    exact absurd ht (hnot job task)

/-- The loop leaves on bytes it cannot read, and waits only for coroutines that go on. -/
theorem unreadable_tally (c : Process) :
    (Spares py app c .unreadable ∧ Keeps c (act py app c .unreadable)) ∨
    (¬ Spares py app c .unreadable ∧ Loses c (act py app c .unreadable)) := by
  simp only [act, Spares]
  by_cases hclosing : c.closing = true
  · rw [if_pos hclosing]
    exact .inl ⟨fun hopen => (by cases hclosing.symm.trans hopen), .refl c⟩
  · rw [if_neg hclosing]
    by_cases hall : ∀ t ∈ c.running, t.open?.isSome → t.awaits = true
    · exact .inl ⟨fun _ => hall, keeps_close hall⟩
    · refine .inr ⟨fun h => hall (h (Bool.eq_false_iff.mpr hclosing)), ?_⟩
      simp only [not_forall] at hall
      obtain ⟨t, ht, hopen, hnot⟩ := hall
      exact loses_close ht hopen hnot

variable (py app) in
/-- **A step spares the jobs exactly if the tally keeps up with what is received.** -/
theorem act_tally (c : Process) (a : Act V E) :
    (Spares py app c a ∧ Keeps c (act py app c a)) ∨ (¬ Spares py app c a ∧ Loses c (act py app c a)) := by
  cases a with
  | receive job =>
    refine .inl ⟨trivial, ?_⟩
    simp only [act]
    split
    · refine fun _ => ⟨[job.id], rfl, ?_⟩
      simp only [Process.tally, List.filterMap_append, ← List.append_assoc]
      exact .refl _
    · exact .refl c
  | start i => exact start_tally c i
  | picked i =>
    refine .inl ⟨trivial, ?_⟩
    simp only [act]
    split
    · next hi => exact keeps_set hi _ rfl
    · exact .refl c
  | ends i fired e => exact ends_tally c i fired e
  | cancel i fired =>
    simp only [act, Spares]
    cases hi : c.running[i]? with
    | none => exact .inl ⟨fun t ht => (by cases ht), .refl c⟩
    | some t =>
      refine (cancel_tally hi fired).imp (And.imp_left fun h t' ht' => ?_) (And.imp_left fun h hall => h (hall t rfl))
      cases ht'
      exact h
  | drained i =>
    refine .inl ⟨trivial, ?_⟩
    simp only [act]
    split
    · next hi => exact keeps_erase hi rfl
    · exact .refl c
  | unreadable => exact unreadable_tally c
  | leave =>
    refine .inl ⟨trivial, ?_⟩
    simp only [act]
    split
    · next hdone =>
      refine keeps_close fun t ht => ?_
      rw [List.isEmpty_iff.mp hdone.2] at ht
      cases ht
    · exact .refl c
  | threadEnds | eof => exact .inl ⟨trivial, .of_tally rfl (.refl _)⟩
  | kill => exact .inl ⟨trivial, fun hup => by cases hup⟩

theorem settle_eq (c : Process) : c.settle = c ∨ c.settle.alive = false := by
  unfold Process.settle
  split
  · exact .inr rfl
  · exact .inl rfl

/-- Orderly steps keep every dispatch answered. -/
theorem answered_step (c : Process) (a : Act V E) (h : Answered c) (ho : Orderly py app c a) :
    Answered (step py app c a) := by
  intro hup
  have halive : c.alive = true := by
    by_contra hdead
    rw [step, if_neg hdead] at hup
    exact hdead hup
  rcases ho halive with hspares | hgone
  · rw [step, if_pos halive] at hup ⊢
    rcases settle_eq (act py app c a) with hsame | hgone
    · rw [hsame] at hup ⊢
      rcases act_tally py app c a with ⟨-, hkeeps⟩ | ⟨hnot, -⟩
      · obtain ⟨ids, hreceived, htally⟩ := hkeeps hup
        rw [hreceived]
        exact htally.trans ((h halive).append_right ids)
      · exact absurd hspares hnot
    · cases hgone.symm.trans hup
  · cases hgone.symm.trans hup

/-- Any other step drops a job while the process stays up. -/
theorem not_answered_step (c : Process) (a : Act V E) (h : Answered c) (ho : ¬ Orderly py app c a) :
    ¬ Answered (step py app c a) := by
  simp only [Orderly, Classical.not_imp, not_or] at ho
  obtain ⟨halive, hnot, hup⟩ := ho
  rw [step, if_pos halive] at hup ⊢
  rcases settle_eq (act py app c a) with hsame | hgone
  · rw [hsame] at hup ⊢
    rcases act_tally py app c a with ⟨hspares, -⟩ | ⟨-, hreceived, hlost⟩
    · exact absurd hspares hnot
    · intro hafter
      have hlength := (hafter (by simpa using hup)).length_eq
      have hbefore := (h halive).length_eq
      rw [hreceived] at hlength
      omega
  · exact absurd hgone hup

/-- **Every dispatch is answered**, in every state of a run, exactly if every step of the
run spares the jobs or ends the process. -/
theorem dispatch_answered_iff (py : Python V E) (app : String → Option Task) (as : List (Act V E)) :
    (∀ n, Answered (run (step py app) {} (as.take n))) ↔ Along (step py app) (Orderly py app) {} as :=
  throughout_iff answered_step (fun _ h => h) not_answered_step as fun _ => List.Perm.refl []
end

/-- Integers for values and class names for exceptions. `msgspec` encodes what fits 64
bits and raises `OverflowError` for the rest. -/
def integers : Python Int String where
  caughtBy error name := error == name || name == "Exception"
  isinstance error name := some (error == name || name == "Exception")
  formatExc _ := some []
  fromThread error := if error = "StopIteration" then .never else .raised error
  unknownTask _ := "UnknownTaskError"
  timeoutError := "TimeoutError"
  decodePayload _ := .ok ([], [])
  encode n := if -9223372036854775808 ≤ n ∧ n < 18446744073709551616 then .ok (Packing.MessagePack.int n)
    else .error "OverflowError"

def firstJob : Dispatch where
  id := 1
  attempt := 1
  maxAttempts := 20
  task := "t"
  payload := []
  inI64 := by decide

/-- The one job of a child whose body ends in the given way. -/
def afterEnding (task : Task) (e : Ending Int String) : Process :=
  run (step integers fun _ => some task) {} [.receive firstJob, .start 0, .picked 0, .ends 0 false e]

/-- A stored result of 2⁶⁴, and a `CancelledError` from the body: the process stays up,
the job is gone from it, and no frame was written. Nor is one after a `StopIteration`
from a synchronous body without a timeout. -/
theorem dispatch_dropped :
    ((afterEnding { storeResult := true } (.returned 18446744073709551616)).alive = true ∧
      (afterEnding { storeResult := true } (.returned 18446744073709551616)).received = [1] ∧
      (afterEnding { storeResult := true } (.returned 18446744073709551616)).running = [] ∧
      (afterEnding { storeResult := true } (.returned 18446744073709551616)).written = []) ∧
    ((afterEnding {} .cancelled).alive = true ∧ (afterEnding {} .cancelled).received = [1] ∧
      (afterEnding {} .cancelled).running = [] ∧ (afterEnding {} .cancelled).written = []) ∧
    (afterEnding { isAsync := false, timeout := none } (.raised "StopIteration")).alive = true ∧
    (afterEnding { isAsync := false, timeout := none } (.raised "StopIteration")).received = [1] ∧
    (afterEnding { isAsync := false, timeout := none } (.raised "StopIteration")).tally = [] :=
  ⟨⟨rfl, rfl, rfl, rfl⟩, ⟨rfl, rfl, rfl, rfl⟩, rfl, rfl, rfl⟩

end Gylo.Child
