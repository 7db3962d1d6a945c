import Gylo.Wire.Reporting
import Gylo.Worker.Acks
import Gylo.Worker.Issued

/-! # What passes through a supervisor

Two things pass through a supervisor that it never looks into: the task name and the
payload of a job, from its row to the child, and the success of a job, with a result or
without, from the child to its row. On the way they lie in the hands of `dispatch`, in buffers, on the socket,
in the decoder and in the batch of outcomes, while sessions come and go. Whatever is
true of the calls in the table is true of those in any of these places, and whatever
is true of the successes the child sends is true of those that are recorded. -/
namespace Gylo.Worker.Custody

open Gylo.Store Gylo.Store.FetchCall Gylo.Wire Gylo.Worker.Session Framing

/-! ## Where things lie -/

/-- The jobs `dispatch` holds. -/
def leased : Dispatch → List LeasedJob
  | .admitting _ jobs => jobs
  | .packing todo _ _ => todo
  | .discarding _ _ todo _ _ => todo
  | _ => []

/-- The messages it has not written yet. -/
def buffered : Dispatch → List Message
  | .packing _ buf _ => buf
  | .discarding _ _ _ buf _ => buf
  | .writing buf => buf
  | _ => []

/-- The successes a statement records. -/
def successes : Stmt → List (JobId × Option Bytes)
  | .complete batch _ _ => batch
  | _ => []

/-- The bytes end with a frame, or hold one the decoder stops at. -/
def Clean (serde : Serde) (bytes : Bytes) : Prop :=
  ((Decoder.format serde).cutter.frames bytes).rest = [] ∨
    ((Decoder.format serde).cutter.frames bytes).error.isSome

section
variable (calls : JobId → String → Bytes → Prop) (returns : JobId → Option Bytes → Prop)

/-- What is asked of the rows. -/
structure Rows (t : Tables) : Prop where
  call : ∀ k ∈ t.jobs, calls k.id k.task k.payload
  success : ∀ k ∈ t.jobs, k.state = .completed → returns k.id k.result
  unfinished : ∀ k ∈ t.jobs, k.state ≠ .completed → k.result = none

/-- The fields a `Dispatch` frame has, within their range. -/
def OfCall (job : LeasedJob) : Prop :=
  calls job.id job.task job.payload ∧ InSmallint job.attempt ∧ InSmallint job.maxAttempts

/-- A `Dispatch` names a call, and `encode` takes it. -/
def Names : Message → Prop
  | .dispatch id attempt maxAttempts task payload =>
    OfCall calls ⟨id, task, payload, attempt, maxAttempts, false⟩ ∧
      Accepted (.dispatch id attempt maxAttempts task payload)
  | _ => True

/-- A success is one of the job; no bytes are no result. -/
def Reports : Message → Prop
  | .complete id (.success b) => returns id (if b = [] then none else some b)
  | _ => True

/-- What is asked of the rest of the supervisor. -/
structure Carries (serde : Serde) (s : Supervisor) : Prop where
  jobs : ∀ job ∈ leased s.dispatch, OfCall calls job
  buffer : ∀ m ∈ buffered s.dispatch, Names calls m
  socket : ∀ m ∈ s.toChild, Names calls m
  unread : ∀ m ∈ unread serde s, Reports returns m
  clean : Clean serde (stream s)
  completed : ∀ id ∈ s.pending.completed, returns id none
  withResult : ∀ v ∈ s.pending.withResult, returns v.1 (some v.2)

/-- The bytes are one frame that reports nothing else. -/
def Vouched (serde : Serde) (bytes : Bytes) : Prop :=
  ∃ body, bytes = framed body ∧ body.length < 4294967296 ∧
    ∀ m, decodeBody serde body = .ok m → Reports returns m

/-- The child writes such frames. -/
def Honest (serde : Serde) : Session.Act → Prop
  | .child (.send bytes) => Vouched returns serde bytes
  | .child (.record id name result) => (body (.record id name result)).length < 4294967296
  | _ => True
end

/-! ## The table -/

section
variable {calls : JobId → String → Bytes → Prop} {returns : JobId → Option Bytes → Prop}

/-- A row is in the batch, completed as it says, or keeps its state and its result. -/
theorem completeRow_cases (t : Tables) (batch : List (JobId × Option Bytes)) (worker : Uuid) (now : Time) (j : Job) :
    ((j.id, (t.completeRow batch worker now j).result) ∈ batch ∧
      (t.completeRow batch worker now j).state = .completed) ∨
    (t.completeRow batch worker now j).state = j.state ∧ (t.completeRow batch worker now j).result = j.result := by
  unfold Tables.completeRow
  split
  · next entry hentry =>
    rw [batchEntry, if_pos (heldBy_of_batchEntry hentry)] at hentry
    obtain ⟨before, after, hbatch, -⟩ := List.lookup_eq_some_iff.mp hentry
    exact .inl ⟨hbatch ▸ List.mem_append_right _ List.mem_cons_self, rfl⟩
  · dsimp only
    split <;> exact .inr ⟨rfl, rfl⟩

/-- **A statement keeps what is true of calls and successes**, if it is true of the rows
it inserts and of the successes it records. -/
theorem Rows.exec {db : Db} (h : Rows calls returns db.toTables) {stmt : Stmt}
    (hnew : ∀ k ∈ (db.exec stmt).jobs, db.jobSeq < k.id → calls k.id k.task k.payload)
    (hsuccesses : ∀ v ∈ successes stmt, returns v.1 v.2) : Rows calls returns (db.exec stmt).toTables := by
  rcases db.exec_form stmt with hsame | hform
  · rw [hsame]
    exact h
  · generalize (db.exec stmt).toTables = t' at hform hnew ⊢
    cases hform with
    | rows step =>
      refine ⟨fun k hk => ?_, fun k hk hdone => ?_, fun k hk hopen => ?_⟩
      all_goals
        obtain ⟨j, hj, rfl⟩ := List.mem_map.mp hk
        have hstep := step j hj
      · rw [hstep.same.id, hstep.same.task, hstep.same.payload]
        exact h.call j hj
      · rw [hstep.same.id, hstep.result]
        exact h.success j hj (hstep.completed_iff.mp hdone)
      · rw [hstep.result]
        exact h.unfinished j hj fun hdone => hopen (hstep.completed_iff.mpr hdone)
    | complete batch worker now hstmt =>
      subst hstmt
      refine ⟨fun k hk => ?_, fun k hk hdone => ?_, fun k hk hopen => ?_⟩
      all_goals
        obtain ⟨j, hj, rfl⟩ := List.mem_map.mp hk
        have hsame := (completeRow_step batch worker now db.toTables j).same
      · rw [hsame.id, hsame.task, hsame.payload]
        exact h.call j hj
      · rw [hsame.id]
        rcases completeRow_cases db.toTables batch worker now j with ⟨hlisted, -⟩ | ⟨hstate, hresult⟩
        · exact hsuccesses _ hlisted
        · rw [hresult]
          exact h.success j hj (hstate.symm.trans hdone)
      · rcases completeRow_cases db.toTables batch worker now j with ⟨-, hdone⟩ | ⟨hstate, hresult⟩
        · exact absurd hdone hopen
        · rw [hresult]
          exact h.unfinished j hj fun hdone => hopen (hstate.trans hdone)
    | insert rows es new jobs edges =>
      refine ⟨fun k hk => ?_, fun k hk hdone => ?_, fun k hk hopen => ?_⟩
      all_goals
        rw [jobs] at hk
        rcases List.mem_append.mp hk with hold | hrow
      · exact h.call k hold
      · exact hnew k (jobs ▸ List.mem_append_right _ hrow) (new.ids k hrow)
      · exact h.success k hold hdone
      · cases hdone.symm.trans (new.state k hrow)
      · exact h.unfinished k hold hopen
      · exact (new.open_ k hrow).2
    | delete deletes jobs edges =>
      exact ⟨fun k hk => h.call k (jobs.mem hk), fun k hk => h.success k (jobs.mem hk),
        fun k hk => h.unfinished k (jobs.mem hk)⟩

/-- What a fetch returns are rows of the table. -/
theorem ofCall_returning {db : Db} (h : Rows calls returns db.toTables) {chosen : List Job} {job : LeasedJob}
    (hjob : job ∈ returning db.toTables chosen) : OfCall calls job := by
  obtain ⟨k, hk, rfl⟩ := List.mem_map.mp hjob
  obtain ⟨j, -, hfound⟩ := List.mem_filterMap.mp hk
  have hrow := (db.job?_eq_some.mp hfound).1
  have hrange := db.valid .smallintRange k hrow
  exact ⟨h.call k hrow, hrange.2.1, hrange.2.2⟩
end

/-! ## `dispatch` -/

section
variable {calls : JobId → String → Bytes → Prop} {returns : JobId → Option Bytes → Prop} {cfg : Settings}
  {serde : Serde} {s s' : Supervisor}

/-- A step that leaves the stream and the batch. -/
theorem Carries.of_stream (h : Carries calls returns serde s) (hstream : stream s' = stream s)
    (hpending : s'.pending = s.pending) (hjobs : ∀ job ∈ leased s'.dispatch, OfCall calls job)
    (hbuffer : ∀ m ∈ buffered s'.dispatch, Names calls m) (hsocket : ∀ m ∈ s'.toChild, Names calls m) :
    Carries calls returns serde s' := by
  refine ⟨hjobs, hbuffer, hsocket, ?_, ?_, ?_, ?_⟩
  · unfold Session.unread
    rw [hstream]
    exact h.unread
  · rw [hstream]
    exact h.clean
  · rw [hpending]
    exact h.completed
  · rw [hpending]
    exact h.withResult

/-- A step that leaves `dispatch` with nothing in hand. -/
theorem Carries.of_idle (h : Carries calls returns serde s) (hstream : stream s' = stream s)
    (hpending : s'.pending = s.pending) (hsocket : s'.toChild = s.toChild) (hjobs : leased s'.dispatch = [])
    (hbuffer : buffered s'.dispatch = []) : Carries calls returns serde s' := by
  refine h.of_stream hstream hpending ?_ ?_ ?_
  · rw [hjobs]
    exact fun job hjob => absurd hjob List.not_mem_nil
  · rw [hbuffer]
    exact fun m hm => absurd hm List.not_mem_nil
  · rw [hsocket]
    exact h.socket

theorem names_priorSteps (fails : Bool) (job : LeasedJob) : ∀ m ∈ priorSteps s fails job, Names calls m := by
  intro m hm
  unfold priorSteps at hm
  split at hm
  · rw [List.mem_singleton.mp hm]
    trivial
  · cases hm

/-- Messages of earlier jobs, and the steps of this one. -/
theorem names_buffer {buf : List Message} (hbuf : ∀ m ∈ buf, Names calls m) (fails : Bool) (job : LeasedJob) :
    ∀ m ∈ buf ++ priorSteps s fails job, Names calls m := by
  intro m hm
  rcases List.mem_append.mp hm with hold | hnew
  · exact hbuf m hold
  · exact names_priorSteps fails job m hnew

/-- `dispatch` goes on with jobs and messages it had, or with messages it has made of
them: a job becomes one if `encode` takes it. -/
theorem Carries.turn {a : DispatchAct} {d : Dispatch} (h : Carries calls returns serde s) (hturn : Turns cfg s a d) :
    Carries calls returns serde { s with dispatch := d } := by
  have hjobs := h.jobs
  have hbuffer := h.buffer
  cases hturn with
  | packs hat hencode =>
    rw [hat] at hjobs hbuffer
    obtain ⟨hjob, hrest⟩ := List.forall_mem_cons.mp hjobs
    refine h.of_stream rfl rfl hrest (fun m hm => ?_) h.socket
    rcases List.mem_append.mp hm with hold | hnew
    · exact names_buffer hbuffer _ _ m hold
    · rw [List.mem_singleton.mp hnew]
      exact ⟨hjob, hencode⟩
  | refuses hat =>
    rw [hat] at hjobs hbuffer
    exact h.of_stream rfl rfl (List.forall_mem_cons.mp hjobs).2 (names_buffer hbuffer _ _) h.socket
  | _ => exact h.of_idle rfl rfl rfl rfl rfl

theorem Carries.afterUnkeyed (h : Carries calls returns serde s) {db' : Db} (limit : Int) {jobs : List LeasedJob}
    (hjobs : ∀ job ∈ jobs, OfCall calls job) :
    Carries calls returns serde { s with db := db', dispatch := afterUnkeyed cfg s limit jobs } := by
  unfold Session.afterUnkeyed
  split
  · exact h.of_idle rfl rfl rfl rfl rfl
  · split <;> exact h.of_stream rfl rfl hjobs (fun m hm => absurd hm List.not_mem_nil) h.socket

theorem Carries.fetched (h : Carries calls returns serde s) {db' : Db} {jobs : List LeasedJob}
    (hjobs : ∀ job ∈ jobs, OfCall calls job) :
    Carries calls returns serde { s with db := db', dispatch := fetched jobs } := by
  unfold Session.fetched
  split
  · exact h.of_idle rfl rfl rfl rfl rfl
  · exact h.of_stream rfl rfl hjobs (fun m hm => absurd hm List.not_mem_nil) h.socket

theorem Carries.dispatch {a : DispatchAct} {stmt : Option Stmt} (h : Carries calls returns serde s)
    (hmove : DispatchMove cfg s a stmt s') (hafter : Rows calls returns s'.db.toTables) :
    Carries calls returns serde s' := by
  have hjobs := h.jobs
  have hbuffer := h.buffer
  cases hmove with
  | stays => exact h
  | turns hturn => exact h.turn hturn
  | @forwards ack polling hat =>
    refine h.of_stream rfl rfl ?_ ?_ fun m hm => ?_
    · cases polling <;> exact fun job hjob => absurd hjob List.not_mem_nil
    · cases polling <;> exact fun m hm => absurd hm List.not_mem_nil
    · rcases List.mem_append.mp hm with hold | hnew
      · exact h.socket m hold
      · -- an acknowledgement names no call
        split at hnew
        · rw [List.mem_singleton.mp hnew]
          trivial
        · cases hnew
  | writes hat =>
    rw [hat] at hbuffer
    refine h.of_stream rfl rfl (fun job hjob => absurd hjob List.not_mem_nil)
      (fun m hm => absurd hm List.not_mem_nil) fun m hm => ?_
    rcases List.mem_append.mp hm with hold | hnew
    · exact h.socket m hold
    · exact hbuffer m hnew
  | unkeyed => exact h.afterUnkeyed _ fun job hjob => ofCall_returning hafter hjob
  | keyed hat =>
    rw [hat] at hjobs
    refine h.fetched fun job hjob => ?_
    rcases List.mem_append.mp hjob with hfirst | hkeyed
    · exact hjobs job hfirst
    · exact ofCall_returning hafter hkeyed
  | reserves hat =>
    rw [hat] at hbuffer
    exact h.of_stream rfl rfl (fun job hjob => absurd hjob List.not_mem_nil) hbuffer h.socket
  | discards hat | discardFails hat =>
    rw [hat] at hjobs hbuffer
    exact h.of_stream rfl rfl hjobs hbuffer h.socket
  | ends | fetchFails | receives | unkeyedLost | keyedLost => exact h.of_idle rfl rfl rfl rfl rfl
end

/-! ## `collect_completions` -/

section
variable {calls : JobId → String → Bytes → Prop} {returns : JobId → Option Bytes → Prop} {cfg : Settings}
  {serde : Serde} {s s' : Supervisor}

/-- A step that leaves `dispatch` and the socket to the child. -/
theorem Carries.of_dispatch (h : Carries calls returns serde s) (hdispatch : s'.dispatch = s.dispatch)
    (hsocket : s'.toChild = s.toChild) (hunread : ∀ m ∈ Session.unread serde s', Reports returns m)
    (hclean : Clean serde (stream s')) (hcompleted : ∀ id ∈ s'.pending.completed, returns id none)
    (hresults : ∀ v ∈ s'.pending.withResult, returns v.1 (some v.2)) : Carries calls returns serde s' :=
  ⟨hdispatch ▸ h.jobs, hdispatch ▸ h.buffer, hsocket ▸ h.socket, hunread, hclean, hcompleted, hresults⟩

theorem pending_push {p : Pending} (hcompleted : ∀ id ∈ p.completed, returns id none)
    (hresults : ∀ v ∈ p.withResult, returns v.1 (some v.2)) {id : JobId} {outcome : Outcome}
    (hreport : Reports returns (.complete id outcome)) :
    (∀ i ∈ (p.push id outcome).completed, returns i none) ∧
      ∀ v ∈ (p.push id outcome).withResult, returns v.1 (some v.2) := by
  cases outcome with
  | success result =>
    have hsuccess : returns id (if result = [] then none else some result) := hreport
    simp only [Pending.push, List.isEmpty_iff]
    split
    · next hempty =>
      rw [if_pos hempty] at hsuccess
      refine ⟨fun i hi => ?_, hresults⟩
      rcases List.mem_append.mp hi with hold | hnew
      · exact hcompleted i hold
      · rw [List.mem_singleton.mp hnew]
        exact hsuccess
    · next hsome =>
      rw [if_neg hsome] at hsuccess
      refine ⟨hcompleted, fun v hv => ?_⟩
      rcases List.mem_append.mp hv with hold | hnew
      · exact hresults v hold
      · rw [List.mem_singleton.mp hnew]
        exact hsuccess
  | failure error retry => cases retry <;> exact ⟨hcompleted, hresults⟩

/-- What is cut off the stream leaves the rest as it was. -/
theorem next_clean {d : Decoder} {m : Message} (h : s.decoder.nextMessage serde = (.ok (some m), d))
    (hclean : Clean serde (stream s)) : Clean serde (stream { s with decoder := d }) := by
  unfold Clean at hclean ⊢
  rw [Cutter.frames_item (cut_stream h)] at hclean
  exact hclean

/-- What is cut off the stream is what the child sent. -/
theorem Carries.next {m : Message} {d : Decoder} (h : Carries calls returns serde s)
    (hnext : s.decoder.nextMessage serde = (.ok (some m), d)) :
    Reports returns m ∧ Carries calls returns serde { s with decoder := d } := by
  have hunread := h.unread
  rw [(nextMessage_stream hnext).1] at hunread
  obtain ⟨hfirst, hrest⟩ := List.forall_mem_cons.mp hunread
  exact ⟨hfirst, h.of_dispatch rfl rfl hrest (next_clean hnext h.clean) h.completed h.withResult⟩

theorem Carries.collect {a : CollectAct} {stmt : Option Stmt} (h : Carries calls returns serde s)
    (hmove : CollectMove cfg serde s a stmt s') : Carries calls returns serde s' := by
  cases hmove with
  | @reads n => exact h.of_stream (read_stream n) rfl h.jobs h.buffer h.socket
  | hears hat hnext =>
    obtain ⟨hreport, hrest⟩ := h.next hnext
    obtain ⟨hcompleted, hresults⟩ := pending_push hrest.completed hrest.withResult hreport
    exact hrest.of_dispatch rfl rfl hrest.unread hrest.clean hcompleted hresults
  | records hat hnext =>
    obtain ⟨-, hrest⟩ := h.next hnext
    exact hrest.of_dispatch rfl rfl hrest.unread hrest.clean hrest.completed hrest.withResult
  | skips hat hnext => exact (h.next hnext).2
  | releases =>
    exact ⟨h.jobs, h.buffer, h.socket, h.unread, h.clean, fun id hid => absurd hid List.not_mem_nil,
      fun v hv => absurd hv List.not_mem_nil⟩
  | _ => exact ⟨h.jobs, h.buffer, h.socket, h.unread, h.clean, h.completed, h.withResult⟩

/-- The successes a flush records are those of the batch. -/
theorem Carries.flushed {random : JobId → Nat} {stage : FlushStage} {stmt : Stmt}
    (h : Carries calls returns serde s) (hstmt : flushStmt cfg s random stage = some stmt) :
    ∀ v ∈ successes stmt, returns v.1 v.2 := by
  cases stage with
  | completed =>
    cases hstmt
    intro v hv
    obtain ⟨id, hid, rfl⟩ := List.mem_map.mp hv
    exact h.completed id hid
  | withResult =>
    cases hstmt
    intro v hv
    obtain ⟨p, hp, rfl⟩ := List.mem_map.mp hv
    exact h.withResult p hp
  | retry | terminal =>
    cases hstmt
    exact fun v hv => absurd hv List.not_mem_nil
  | releasing => cases hstmt
end

/-! ## The child and the rest -/

section
variable {calls : JobId → String → Bytes → Prop} {returns : JobId → Option Bytes → Prop} {cfg : Settings}
  {serde : Serde} {s s' : Supervisor}

/-- A frame is read as its message, or the decoder stops at it. -/
theorem frames_framed (serde : Serde) {body : Bytes} (h : body.length < 4294967296) :
    (∃ m, decodeBody serde body = .ok m ∧
      (Decoder.format serde).cutter.frames (framed body) = ⟨[m], [], none⟩) ∨
    ∃ e, (Decoder.format serde).cutter.frames (framed body) = ⟨[], framed body, some e⟩ := by
  by_cases hlimit : body.length ≤ maxFrameBytes
  · cases hdecode : decodeBody serde body with
    | ok m =>
      refine .inl ⟨m, rfl, ?_⟩
      rw [Cutter.frames_item (cut_read hlimit hdecode), Cutter.frames_more (Prefixed.cutter_nil _)]
      rfl
    | error e => exact .inr ⟨e, Cutter.frames_bad (cut_undecodable hlimit hdecode)⟩
  · exact .inr ⟨_, Cutter.frames_bad (cut_oversized h (Nat.lt_of_not_le hlimit))⟩

/-- One more frame behind a clean stream adds what it says, unless the decoder has
stopped before. -/
theorem frames_concat {bytes body : Bytes} (hclean : Clean serde bytes) (hlen : body.length < 4294967296) :
    Clean serde (bytes ++ framed body) ∧
      ∀ m ∈ ((Decoder.format serde).cutter.frames (bytes ++ framed body)).items,
        m ∈ ((Decoder.format serde).cutter.frames bytes).items ∨ decodeBody serde body = .ok m := by
  unfold Clean at hclean ⊢
  cases herror : ((Decoder.format serde).cutter.frames bytes).error with
  | some e =>
    rw [Cutter.frames_append, herror]
    exact ⟨.inr rfl, fun m hm => .inl hm⟩
  | none =>
    rw [herror] at hclean
    have hwhole : Whole serde bytes := ⟨hclean.resolve_right fun h => (by cases h), by rw [herror]; rfl⟩
    rw [frames_append_of_whole hwhole]
    rcases frames_framed serde hlen with ⟨m, hdecode, hframes⟩ | ⟨e, hframes⟩
    · rw [hframes]
      refine ⟨.inl rfl, fun m' hm' => ?_⟩
      rcases List.mem_append.mp hm' with hold | hnew
      · exact .inl hold
      · rw [List.mem_singleton.mp hnew]
        exact .inr hdecode
    · rw [hframes]
      refine ⟨.inr rfl, fun m' hm' => ?_⟩
      rcases List.mem_append.mp hm' with hold | hnew
      · exact .inl hold
      · cases hnew

theorem Carries.sent {bytes : Bytes} (h : Carries calls returns serde s) (hbytes : Vouched returns serde bytes)
    (waiting : List Ack) :
    Carries calls returns serde { s with fromChild := s.fromChild ++ bytes, waiting := waiting } := by
  obtain ⟨body, rfl, hlen, hreports⟩ := hbytes
  obtain ⟨hclean, hframes⟩ := frames_concat h.clean hlen
  have hstream : stream { s with fromChild := s.fromChild ++ framed body, waiting := waiting } =
      stream s ++ framed body := by
    unfold stream
    rw [List.append_assoc]
  refine h.of_dispatch rfl rfl (fun m hm => ?_) ?_ h.completed h.withResult
  · unfold Session.unread at hm
    rw [hstream] at hm
    rcases hframes m hm with hold | hnew
    · exact h.unread m hold
    · exact hreports m hnew
  · rw [hstream]
    exact hclean

/-- A `Record` completes nothing. -/
theorem vouched_record (serde : Serde) {id : JobId} {name : String} {result : Bytes}
    (h : (body (.record id name result)).length < 4294967296) :
    Vouched returns serde (frame (.record id name result)) := by
  refine ⟨body (.record id name result), rfl, h, fun m hm => ?_⟩
  have hkind : ∀ id' b, m ≠ .complete id' (.success b) := by
    rintro id' b rfl
    simp only [body, decodeBody, unpacked] at hm
    split at hm <;> cases hm
  unfold Reports
  split
  · next id' b => exact absurd rfl (hkind id' b)
  · trivial

theorem Carries.child {a : ChildAct} (h : Carries calls returns serde s) (hmove : ChildMove s a s')
    (ha : Honest returns serde (.child a)) : Carries calls returns serde s' := by
  cases hmove with
  | sends => exact h.sent ha s.waiting
  | records => exact h.sent (vouched_record serde ha) _
  | receives hlive hsocket =>
    refine h.of_stream rfl rfl h.jobs h.buffer fun m' hm' => h.socket m' ?_
    rw [hsocket]
    exact List.mem_cons_of_mem _ hm'
  | stays | closes | exits => exact ⟨h.jobs, h.buffer, h.socket, h.unread, h.clean, h.completed, h.withResult⟩

/-- A session begins with nothing. -/
theorem carries_fresh (h : stream s = []) (hdispatch : s.dispatch = .done false) (hsocket : s.toChild = [])
    (hpending : s.pending = {}) : Carries calls returns serde s := by
  have hframes : (Decoder.format serde).cutter.frames (stream s) = ⟨[], [], none⟩ := by
    rw [h]
    exact Cutter.frames_more (Prefixed.cutter_nil _)
  constructor
  · rw [hdispatch]
    exact fun job hjob => absurd hjob List.not_mem_nil
  · rw [hdispatch]
    exact fun m hm => absurd hm List.not_mem_nil
  · rw [hsocket]
    exact fun m hm => absurd hm List.not_mem_nil
  · unfold Session.unread
    rw [hframes]
    exact fun m hm => absurd hm List.not_mem_nil
  · unfold Clean
    rw [hframes]
    exact .inl rfl
  · rw [hpending]
    exact fun id hid => absurd hid List.not_mem_nil
  · rw [hpending]
    exact fun v hv => absurd hv List.not_mem_nil

theorem Carries.session {a : SessionAct} {stmt : Option Stmt} (h : Carries calls returns serde s)
    (hmove : SessionMove cfg s a stmt s') : Carries calls returns serde s' := by
  cases hmove with
  | opens => exact carries_fresh rfl rfl rfl rfl
  | accepts | exits => exact h.of_idle rfl rfl rfl rfl rfl
  | _ => exact ⟨h.jobs, h.buffer, h.socket, h.unread, h.clean, h.completed, h.withResult⟩

/-- **Whatever a supervisor does, what it carries stays what it was given**: calls of
rows and results of the child. -/
theorem Carries.move {a : Session.Act} {stmt : Option Stmt} (h : Carries calls returns serde s)
    (hmove : Move cfg serde s a stmt s') (ha : Honest returns serde a)
    (hafter : Rows calls returns s'.db.toTables) : Carries calls returns serde s' := by
  cases hmove with
  | dispatch hserving hmove => exact h.dispatch hmove hafter
  | collect hmove => exact h.collect hmove
  | session hmove => exact h.session hmove
  | child hmove => exact h.child hmove ha
  | renew hmove =>
    cases hmove <;> exact ⟨h.jobs, h.buffer, h.socket, h.unread, h.clean, h.completed, h.withResult⟩
  | stays | outside | tick => exact ⟨h.jobs, h.buffer, h.socket, h.unread, h.clean, h.completed, h.withResult⟩

/-- The successes its statements record are among them. -/
theorem Carries.successes {a : Session.Act} {stmt : Stmt} (h : Carries calls returns serde s)
    (hmove : Move cfg serde s a (some stmt) s') (hown : ∀ stmt, a ≠ .outside stmt) :
    ∀ v ∈ Custody.successes stmt, returns v.1 v.2 := by
  generalize ho : some stmt = o at hmove
  cases hmove with
  | collect hmove =>
    cases hmove with
    | calls hat hflush =>
      split at ho <;> cases ho
      exact h.flushed hflush
    | _ => cases ho <;> exact fun v hv => absurd hv List.not_mem_nil
  | dispatch hserving hmove =>
    cases hmove with
    | fetchFails hfails =>
      cases hfails <;> cases ho
      all_goals exact fun v hv => absurd hv List.not_mem_nil
    | _ => cases ho <;> exact fun v hv => absurd hv List.not_mem_nil
  | session hmove =>
    cases hmove <;> cases ho
    all_goals exact fun v hv => absurd hv List.not_mem_nil
  | renew hmove =>
    cases hmove <;> cases ho
    exact fun v hv => absurd hv List.not_mem_nil
  | outside => exact absurd rfl (hown _)
  | stays | child | tick => cases ho
end

end Gylo.Worker.Custody
