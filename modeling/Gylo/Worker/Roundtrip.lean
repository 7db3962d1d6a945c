import Gylo.Child.Steps
import Gylo.Client.Calls
import Gylo.Wire.Child
import Gylo.Worker.Custody
import Gylo.Worker.Fleet

/-! # From a call to its outcome

A client encodes the arguments of a call and inserts a row. Some supervisor leases it
and writes a `Dispatch` frame, its child decodes the frame and the arguments, looks
the task up and awaits its body, and what the body returns goes back as a `Complete`
frame, through a batch, into the row, where `outcome` finds it. Attempts fail, children
die, leases run out and other workers take over; whoever completes the job, the body of
the task that was called has returned on the arguments it was called with, and the
result on record is what it returned. -/
namespace Gylo.Worker.Roundtrip

open Gylo.Store Gylo.Wire Gylo.Worker.Session Gylo.Worker.Custody Runs
open Gylo.Client (CallOfRow Conn Encoder Request fresh_of_transaction jobSeq_transaction row_of_request
  run_inserts transaction_cons)
open Gylo.Child (Ending JobTask Process Python mem_running_step written_step)

/-! ## Values -/

/-- The positional and the keyword arguments of a call. -/
abbrev Args (V : Type) := List V × List (String × V)

/-- `msgspec` in the client and in the child. What is decoded is what was encoded up to
`carried`: a tuple, for one, comes out as a list. -/
structure Codec (V E : Type) where
  python : Python V E
  encoder : Encoder (Args V)
  decode : Bytes → Except E V
  carried : V → V
  reads : ∀ {call payload}, encoder.encode call = some payload → payload ≠ [] ∧
    python.decodePayload payload = .ok (call.1.map carried, call.2.map fun kv => (kv.1, carried kv.2))
  decodes : ∀ {value stored}, python.encode value = .ok stored → stored ≠ [] ∧ decode stored = .ok (carried value)

section
variable {V E : Type} (codec : Codec V E)

/-- The arguments as they arrive. -/
def Codec.arrived (call : Args V) : Args V :=
  (call.1.map codec.carried, call.2.map fun kv => (kv.1, codec.carried kv.2))

/-- `_decode_payload(message.payload) if message.payload else ([], {})`. -/
def arguments (payload : Bytes) : Except E (Args V) :=
  if payload = [] then .ok ([], []) else codec.python.decodePayload payload

theorem arguments_encoded {call : Args V} {payload : Bytes} (h : codec.encoder.encode call = some payload) :
    arguments codec payload = .ok (codec.arrived call) := by
  obtain ⟨hsome, hreads⟩ := codec.reads h
  rw [arguments, if_neg hsome, hreads, Codec.arrived]

/-- What the row says of a body that returned `value`: the encoded value if the task
stores its results, and nothing otherwise. -/
def OnRecord (task : Child.Task) (value : V) (result : Option Bytes) : Prop :=
  if task.storeResult then ∃ stored ∈ result, codec.python.encode value = .ok stored else result = none

/-- `state::text`. -/
def stateText : JobState → String
  | .available => "available"
  | .running => "running"
  | .completed => "completed"
  | .discarded => "discarded"
  | .cancelled => "cancelled"

/-- `JobOutcome`. -/
structure JobOutcome (V : Type) where
  state : String
  result : Option V
  errors : List AttemptError

/-- `RESULT` and `_outcome_from`, which raises if the result does not decode. -/
def outcome (db : Db) (id : JobId) : Except E (Option (JobOutcome V)) :=
  match db.job? id with
  | none => .ok none
  | some j =>
    match j.result with
    | none => .ok (some ⟨stateText j.state, none, j.errors⟩)
    | some stored =>
      match codec.decode stored with
      | .error e => .error e
      | .ok value => .ok (some ⟨stateText j.state, some value, j.errors⟩)
end

/-! ## The system -/

section
variable {n : Nat} {V E : Type}

/-- The workers with their database, and the child each of them has. -/
structure World (n : Nat) where
  fleet : Fleet.State n
  children : Fin n → Process := fun _ => {}

/-- A task of a worker goes on; a child reads the next message, works on its jobs,
records a step or registers its schedules; a client makes a request; anybody else
executes a statement; or time passes. -/
inductive Act (n : Nat) (V E : Type) where
  | member (i : Fin n) (a : Session.Act)
  | receive (i : Fin n)
  | child (i : Fin n) (a : Child.Act V E)
  | record (i : Fin n) (id : JobId) (name : String) (result : Bytes)
  | register (i : Fin n) (entries : List CronRegistration)
  | request (conn : Conn) (now : Time) (r : Request (Args V))
  | outside (stmt : Stmt)
  | tick (d : Nat)

/-- What a supervisor does, or what happens to its child from outside. -/
def ofWorker : Session.Act → Bool
  | .child (.send _) | .child (.record _ _ _) | .child .receive => false
  | _ => true

/-- `session` spawns a child. -/
def spawns (s : Supervisor) : Session.Act → Bool
  | .session .start => decide (s.phase = .starting) && !s.shutdown
  | _ => false

/-- What the child's loop makes of a message: a `Dispatch` becomes a task, and a frame
it cannot read ends the loop. -/
def hears (msgspec : Wire.Child.Msgspec) (m : Message) : Option (Child.Act V E) :=
  match Wire.Child.receive msgspec (body m) 0 (body m).length with
  | .ok (.dispatch id attempt maxAttempts task payload) =>
    if h : InI64 id then some (.receive ⟨id, attempt, maxAttempts, task, payload, h⟩) else none
  | .ok _ => none
  | .error _ => some .unreadable

def World.setChild (w : World n) (i : Fin n) (c : Process) : World n :=
  { w with children := fun k => if k = i then c else w.children k }

section
variable (cfg : Fin n → Settings) (serde : Serde) (msgspec : Wire.Child.Msgspec) (codec : Codec V E)
  (app : String → Option Child.Task)

/-- A child writes to its socket. -/
def World.sends (w : World n) (i : Fin n) (frames : List Bytes) : World n :=
  { w with
    fleet := frames.foldl (fun f bytes => Fleet.step cfg serde f (.member i (.child (.send bytes)))) w.fleet }

def step (w : World n) : Act n V E → World n
  | .member i a =>
    if ofWorker a then
      { fleet := Fleet.step cfg serde w.fleet (.member i a)
        children := fun k => if k = i ∧ spawns (w.fleet.members i) a then {} else w.children k }
    else w
  | .receive i =>
    if (w.fleet.members i).alive then
      match (w.fleet.members i).toChild with
      | [] => w
      | m :: _ =>
        let w' := { w with fleet := Fleet.step cfg serde w.fleet (.member i (.child .receive)) }
        match hears (V := V) (E := E) msgspec m with
        | none => w'
        | some a => w'.setChild i (Child.step codec.python app (w.children i) a)
    else w
  | .child i a =>
    if (w.fleet.members i).alive then
      match a with
      | .receive _ => w
      | a =>
        let c := Child.step codec.python app (w.children i) a
        (w.setChild i c).sends cfg serde i (c.written.drop (w.children i).written.length)
    else w
  | .record i id name result =>
    if (body (.record id name result)).length < 4294967296 then
      { w with fleet := Fleet.step cfg serde w.fleet (.member i (.child (.record id name result))) }
    else w
  | .register i entries =>
    match encodeRegister entries with
    | none => w
    | some bytes => w.sends cfg serde i [bytes]
  | .request conn now r =>
    match r.run codec.encoder conn now w.fleet.db with
    | .ok db => { w with fleet := { w.fleet with db := db } }
    | .error _ => w
  | .outside stmt => { w with fleet := Fleet.step cfg serde w.fleet (.outside stmt) }
  | .tick d => { w with fleet := Fleet.step cfg serde w.fleet (.tick d) }
end

/-- The workers come up on a database. -/
def initial (db : Db) : World n := { fleet := Fleet.initial db }

/-- The body of a task that ends returns what `bodies` says it may. -/
def Computes (codec : Codec V E) (bodies : String → Args V → V → Prop) (c : Process) : Child.Act V E → Prop
  | .ends k _ (.returned value) => ∀ t ∈ c.running[k]?, ∀ task, t.stage = .calling task →
      ∀ args, arguments codec t.job.payload = .ok args → bodies t.job.task args value
  | _ => True

/-- The bodies do so in every child, and only workers complete jobs. -/
def Honest (codec : Codec V E) (bodies : String → Args V → V → Prop) (w : World n) : Act n V E → Prop
  | .child i a => Computes codec bodies (w.children i) a
  | .outside stmt => ∀ batch worker now, stmt ≠ .complete batch worker now
  | _ => True
end

/-! ## What the child's frames say -/

section
variable {V E : Type} {codec : Codec V E} {py : Python V E} {app : String → Option Child.Task} {serde : Serde}
  {returns : JobId → Option Bytes → Prop} {job : Child.Dispatch} {bytes : Bytes}

theorem vouched_fail {error : E} {retry : Option Bool} (h : Child.fail py job error retry = .frame bytes) :
    Vouched returns serde bytes := by
  unfold Child.fail at h
  split at h
  · next retry text _ =>
    have hlen := length_renderError text
    rw [encodeFailure, packComplete_framed job.inI64 _ hlen, Child.reportOf] at h
    cases h
    refine ⟨_, rfl, ?_, fun m hm => ?_⟩
    · simp only [List.length_cons, List.length_append, Packing.length_littleEndian]
      omega
    · rw [decodeBody_failure serde job.inI64] at hm
      split at hm
      · cases hm
      · cases hm
        trivial
  · cases h

theorem vouched_success {stored : Bytes} (h : Child.reportOf (encodeSuccess job.id stored) = .frame bytes)
    (hstored : returns job.id (if stored = [] then none else some stored)) : Vouched returns serde bytes := by
  by_cases hlen : 10 + stored.length < 4294967296
  · rw [encodeSuccess, packComplete_framed job.inI64 _ hlen, Child.reportOf] at h
    cases h
    refine ⟨_, rfl, ?_, fun m hm => ?_⟩
    · simp only [List.length_cons, List.length_append, Packing.length_littleEndian]
      omega
    · have hdecode := (decodeComplete_body job.inI64 0x00 stored).symm.trans hm
      cases hdecode
      exact hstored
  · rw [encodeSuccess, packComplete, if_neg fun hfits => hlen hfits.1] at h
    cases h

theorem vouched_begin (h : Child.begin py app job = .error (.frame bytes)) : Vouched returns serde bytes := by
  unfold Child.begin at h
  split at h
  · exact vouched_fail (Except.error.inj h)
  · split at h
    · cases h
    · split at h
      · exact vouched_fail (Except.error.inj h)
      · cases h

/-- The frame of a body that has ended, given what is known of the value it returned. -/
theorem vouched_finish {task : Child.Task} {fired : Bool} {e : Ending V E}
    (h : Child.finish codec.python job task fired e = .frame bytes)
    (hreturned : ∀ value result, e = .returned value → OnRecord codec task value result → returns job.id result) :
    Vouched returns serde bytes := by
  cases e with
  | raised error => exact vouched_fail h
  | exits => cases h
  | baseException => cases h
  | cancelled =>
    by_cases hfired : fired = true ∧ task.timeout.isSome
    · simp only [Child.finish, Child.underTimeout, if_pos hfired] at h
      exact vouched_fail h
    · simp only [Child.finish, Child.underTimeout, if_neg hfired] at h
      cases h
  | returned value =>
    simp only [Child.finish, Child.underTimeout] at h
    split at h
    · next hstores =>
      split at h
      · next stored hencode =>
        refine vouched_success h (hreturned value _ rfl ?_)
        rw [OnRecord, if_pos hstores, if_neg (codec.decodes hencode).1]
        exact ⟨stored, rfl, hencode⟩
      · split at h
        · exact vouched_fail h
        · cases h
    · next hkeeps =>
      refine vouched_success h (hreturned value _ rfl ?_)
      rw [OnRecord, if_neg hkeeps]
      rfl
end

/-! ## What holds of the fleet -/

section
variable {n : Nat} {cfg : Fin n → Settings} {serde : Serde} {known : JobId → String → Bytes → Prop}
  {returns : JobId → Option Bytes → Prop} {f : Fleet.State n}

/-- The rows and what the supervisors carry. -/
structure Sound (serde : Serde) (known : JobId → String → Bytes → Prop) (returns : JobId → Option Bytes → Prop)
    (f : Fleet.State n) : Prop where
  rows : Rows known returns f.db.toTables
  members : ∀ i, Carries known returns serde (f.members i)

/-- The rows that come in from one database to the next are known. -/
def Arrive (known : JobId → String → Bytes → Prop) (db db' : Db) : Prop :=
  ∀ id task payload, db.jobSeq < id → id ≤ db'.jobSeq → known id task payload

theorem rows_exec {db : Db} (h : Rows known returns db.toTables) {stmt : Stmt}
    (hnew : Arrive known db (db.exec stmt)) (hsuccesses : ∀ v ∈ successes stmt, returns v.1 v.2) :
    Rows known returns (db.exec stmt).toTables := by
  refine h.exec (fun k hk hseq => hnew k.id k.task k.payload hseq ?_) hsuccesses
  exact ((db.exec stmt).valid .identity).1 k.id (List.mem_map_of_mem hk)

theorem carries_shared {s : Supervisor} (h : Carries known returns serde s) (db : Db) (now : Time) :
    Carries known returns serde (Fleet.shared db now s) :=
  ⟨h.jobs, h.buffer, h.socket, h.unread, h.clean, h.completed, h.withResult⟩

/-- **A member's step.** -/
theorem Sound.member (h : Sound serde known returns f) {i : Fin n} {a : Session.Act}
    (ha : Custody.Honest returns serde a)
    (hnew : Arrive known f.db (Fleet.step cfg serde f (.member i a)).db) :
    Sound serde known returns (Fleet.step cfg serde f (.member i a)) := by
  unfold Fleet.step at hnew ⊢
  dsimp only at hnew ⊢
  by_cases hown : Fleet.own a = true
  · rw [if_pos hown] at hnew ⊢
    have hview : Carries known returns serde (f.view i) := carries_shared (h.members i) f.db f.now
    have hmove := step_move (cfg i) serde (f.view i) a
    have hrows : Rows known returns (Session.step (cfg i) serde (f.view i) a).db.toTables := by
      dsimp only at hnew
      rw [step_executes] at hnew ⊢
      cases hstmt : executed (cfg i) (f.view i) a with
      | none => exact h.rows
      | some stmt =>
        rw [hstmt] at hmove hnew
        refine rows_exec h.rows hnew (hview.successes hmove fun other hother => ?_)
        rw [hother] at hown
        cases hown
    refine ⟨hrows, fun k => ?_⟩
    dsimp only
    split
    · exact hview.move hmove ha hrows
    · exact h.members k
  · rw [if_neg hown]
    exact h

/-- A statement of somebody else's. -/
theorem Sound.outside (h : Sound serde known returns f) {stmt : Stmt}
    (hstmt : ∀ v ∈ successes stmt, returns v.1 v.2)
    (hnew : Arrive known f.db (Fleet.step cfg serde f (.outside stmt)).db) :
    Sound serde known returns (Fleet.step cfg serde f (.outside stmt)) := by
  unfold Fleet.step at hnew ⊢
  dsimp only at hnew ⊢
  split at hnew
  · next hrefused =>
    rw [if_pos hrefused]
    exact h
  · next htaken =>
    rw [if_neg htaken]
    exact ⟨rows_exec h.rows hnew hstmt, h.members⟩

theorem Sound.tick (h : Sound serde known returns f) (d : Nat) :
    Sound serde known returns (Fleet.step cfg serde f (.tick d)) := by
  unfold Fleet.step
  dsimp only
  split
  · exact h
  · exact ⟨h.rows, h.members⟩

theorem jobSeq_member (i : Fin n) (a : Session.Act) :
    f.db.jobSeq ≤ (Fleet.step cfg serde f (.member i a)).db.jobSeq := by
  unfold Fleet.step
  dsimp only
  split
  · dsimp only
    rw [step_executes]
    cases executed (cfg i) (f.view i) a with
    | none => exact Int.le_refl _
    | some stmt => exact f.db.jobSeq_le_exec stmt
  · exact Int.le_refl _

/-- What the child does is not the database's business. -/
theorem db_child (i : Fin n) (a : ChildAct) : (Fleet.step cfg serde f (.member i (.child a))).db = f.db := by
  have hown : Fleet.own (.child a) = true := rfl
  unfold Fleet.step
  dsimp only
  rw [if_pos hown]
  dsimp only
  rw [step_executes]
  rfl
end

/-! ## Requests -/

section
variable {db db' : Db}

theorem successes_of_inserts {s : Stmt} (hs : s.inserts ≠ []) : successes s = [] := by
  cases s <;> first | rfl | exact absurd rfl hs

theorem rows_transaction {known : JobId → String → Bytes → Prop} {returns : JobId → Option Bytes → Prop}
    {ss : List Stmt} (hss : ∀ s ∈ ss, s.inserts ≠ []) (h : Client.transaction ss db = .ok db')
    (hrows : Rows known returns db.toTables) (hnew : Arrive known db db') : Rows known returns db'.toTables := by
  induction ss generalizing db with
  | nil => cases h; exact hrows
  | cons s ss ih =>
    obtain ⟨hs, hrest⟩ := List.forall_mem_cons.mp hss
    have htail := transaction_cons h
    refine ih hrest htail (rows_exec hrows ?_ ?_) fun id task payload hlow hhigh => ?_
    · exact fun id task payload hlow hhigh =>
        hnew id task payload hlow (Int.le_trans hhigh (jobSeq_transaction htail))
    · rw [successes_of_inserts hs]
      exact fun v hv => absurd hv List.not_mem_nil
    · exact hnew id task payload (Int.lt_of_le_of_lt (db.jobSeq_le_exec s) hlow) hhigh
end

/-! ## What holds of the whole -/

section
variable {n : Nat} {V E : Type} {cfg : Fin n → Settings} {serde : Serde} {msgspec : Wire.Child.Msgspec}
  {codec : Codec V E} {app : String → Option Child.Task} {bodies : String → Args V → V → Prop}
  {known : JobId → String → Bytes → Prop} {returns : JobId → Option Bytes → Prop} {w : World n}

/-- A task in the child is about a known call, and once its task is looked up with the
task of that name and arguments that decode. -/
def Underway (codec : Codec V E) (app : String → Option Child.Task) (known : JobId → String → Bytes → Prop)
    (t : JobTask) : Prop :=
  known t.job.id t.job.task t.job.payload ∧
    ∀ task, t.stage.task? = some task →
      app t.job.task = some task ∧ ∃ args, arguments codec t.job.payload = .ok args

structure Inv (serde : Serde) (codec : Codec V E) (app : String → Option Child.Task)
    (known : JobId → String → Bytes → Prop) (returns : JobId → Option Bytes → Prop) (w : World n) : Prop where
  fleet : Sound serde known returns w.fleet
  children : ∀ i, ∀ t ∈ (w.children i).running, Underway codec app known t

/-- Known ids fit their field, and where the body has returned for a known call the job
has succeeded so. -/
structure Fits (codec : Codec V E) (app : String → Option Child.Task) (bodies : String → Args V → V → Prop)
    (known : JobId → String → Bytes → Prop) (returns : JobId → Option Bytes → Prop) : Prop where
  inI64 : ∀ {id task payload}, known id task payload → InI64 id
  returned : ∀ {id name payload task args value result}, known id name payload → app name = some task →
    arguments codec payload = .ok args → bodies name args value → OnRecord codec task value result →
    returns id result

/-- `begin` finds the task and decodes the arguments. -/
theorem begin_ok {job : Child.Dispatch} {task : Child.Task} (h : Child.begin codec.python app job = .ok task) :
    app job.task = some task ∧ ∃ args, arguments codec job.payload = .ok args := by
  unfold Child.begin at h
  split at h
  · cases h
  · next found hfound =>
    unfold arguments
    split at h
    · next hempty =>
      cases h
      exact ⟨hfound, _, if_pos hempty⟩
    · next hsome =>
      split at h
      · cases h
      · next args hargs =>
        cases h
        exact ⟨hfound, args, by rw [if_neg hsome, hargs]⟩

theorem runs_step {c : Process} (h : ∀ t ∈ c.running, Underway codec app known t) {a : Child.Act V E}
    (ha : ∀ job, a = .receive job → known job.id job.task job.payload) :
    ∀ t ∈ (Child.step codec.python app c a).running, Underway codec app known t := by
  intro t ht
  rcases mem_running_step ht with ⟨job, hjob, rfl⟩ | ⟨t₀, ht₀, hjob, htask⟩
  · exact ⟨ha job hjob, fun task hstage => by cases hstage⟩
  · unfold Underway
    rw [hjob]
    refine ⟨(h t₀ ht₀).1, fun task hstage => ?_⟩
    exact (htask task hstage).elim ((h t₀ ht₀).2 task) begin_ok

/-- The frames the child writes say what its bodies returned. -/
theorem vouched_step (hfits : Fits codec app bodies known returns) {c : Process} {a : Child.Act V E}
    (h : ∀ t ∈ c.running, Underway codec app known t) (ha : Computes codec bodies c a) :
    ∀ bytes ∈ (Child.step codec.python app c a).written.drop c.written.length, Vouched returns serde bytes := by
  rcases written_step codec.python app c a with hsame | hwritten
  · rw [hsame, List.drop_length]
    exact fun bytes hbytes => absurd hbytes List.not_mem_nil
  · obtain ⟨bytes, ⟨k, t, ht, hfrom⟩, hwritten⟩ := hwritten
    rw [hwritten, List.drop_left' rfl]
    intro bytes' hbytes'
    rw [List.mem_singleton.mp hbytes']
    rcases hfrom with hbegin | ⟨fired, e, task, hfinish, hbody⟩
    · exact vouched_begin hbegin
    · refine vouched_finish hfinish fun value result hreturned hrecord => ?_
      obtain ⟨hstage, fired, rfl⟩ := hbody value hreturned
      obtain ⟨hknown, hcalling⟩ := h t (List.mem_of_getElem? ht)
      obtain ⟨happ, args, hargs⟩ := hcalling task (by rw [hstage]; rfl)
      exact hfits.returned hknown happ hargs (ha t ht task hstage args hargs) hrecord

/-- Only a `Dispatch` is read as one. -/
theorem receive_dispatch_kind {buf : Bytes} {len : Nat} {id attempt maxAttempts : Int} {task : String}
    {payload : Bytes} (h : Wire.Child.receive msgspec buf 0 len = .ok (.dispatch id attempt maxAttempts task payload)) :
    buf[0]? = some 0x00 := by
  unfold Wire.Child.receive at h
  split at h
  · cases h
  · next kind hkind =>
    rw [hkind]
    split at h
    · obtain ⟨unpacked, -, h⟩ := Client.bind_ok h
      split at h
      · obtain ⟨_, -, h⟩ := Client.bind_ok h
        obtain ⟨_, -, h⟩ := Client.bind_ok h
        obtain ⟨_, -, h⟩ := Client.bind_ok h
        obtain ⟨_, -, h⟩ := Client.bind_ok h
        cases h
      · obtain ⟨_, -, h⟩ := Client.bind_ok h
        obtain ⟨_, -, h⟩ := Client.bind_ok h
        cases h
    · split at h
      · cases h
      · next hzero => rw [not_not.mp hzero]

/-- The child reads a `Dispatch` as it was written. -/
theorem hears_known (hfits : Fits codec app bodies known returns) {m : Message} (h : Names known m)
    {job : Child.Dispatch} (hhears : hears (V := V) (E := E) msgspec m = some (.receive job)) :
    known job.id job.task job.payload := by
  unfold hears at hhears
  have hkind : (body m)[0]? = some 0x00 := by
    split at hhears
    · next hread => exact receive_dispatch_kind hread
    · cases hhears
    · cases hhears
  cases m with
  | dispatch id attempt maxAttempts task payload =>
    obtain ⟨⟨hknown, hattempt, hmax⟩, haccepted⟩ := h
    have hread := Wire.Child.receive_body msgspec (m := .dispatch id attempt maxAttempts task payload)
      ⟨hfits.inI64 hknown, hattempt, hmax⟩ haccepted rfl
    rw [hread] at hhears
    dsimp only at hhears
    rw [dif_pos (hfits.inI64 hknown)] at hhears
    cases hhears
    exact hknown
  | complete id outcome => cases outcome <;> cases hkind
  | register entries => cases hkind
  | steps id steps => cases hkind
  | record id name result => cases hkind
  | stored id name => cases hkind

theorem arrive_refl (db : Db) : Arrive known db db :=
  fun _ _ _ hlow hhigh => absurd (Int.lt_of_lt_of_le hlow hhigh) (Int.lt_irrefl _)

theorem Sound.child {f : Fleet.State n} (h : Sound serde known returns f) {i : Fin n} {a : ChildAct}
    (ha : Custody.Honest returns serde (.child a)) :
    Sound serde known returns (Fleet.step cfg serde f (.member i (.child a))) := by
  refine h.member ha ?_
  rw [db_child]
  exact arrive_refl f.db

theorem sends_db (w : World n) (i : Fin n) (frames : List Bytes) :
    (w.sends cfg serde i frames).fleet.db = w.fleet.db := by
  unfold World.sends
  dsimp only
  generalize w.fleet = f
  induction frames generalizing f with
  | nil => rfl
  | cons bytes frames ih =>
    exact (ih (Fleet.step cfg serde f (.member i (.child (.send bytes))))).trans (db_child i _)

theorem Sound.sends (h : Sound serde known returns w.fleet) {i : Fin n} {frames : List Bytes}
    (hframes : ∀ bytes ∈ frames, Vouched returns serde bytes) :
    Sound serde known returns (w.sends cfg serde i frames).fleet := by
  unfold World.sends
  dsimp only
  generalize w.fleet = f at h
  induction frames generalizing f with
  | nil => exact h
  | cons bytes frames ih =>
    obtain ⟨hbytes, hrest⟩ := List.forall_mem_cons.mp hframes
    exact ih hrest _ (h.child hbytes)

/-- A registration reports nothing. -/
theorem vouched_register {entries : List CronRegistration} {bytes : Bytes}
    (h : encodeRegister entries = some bytes) : Vouched returns serde bytes := by
  unfold encodeRegister packLength at h
  split at h
  · next hlen =>
    cases h
    refine ⟨_, rfl, hlen, fun m hm => ?_⟩
    have hkind : ∀ id b, m ≠ .complete id (.success b) := by
      rintro id b rfl
      simp only [decodeBody, unpacked] at hm
      split at hm <;> cases hm
    unfold Reports
    split
    · next id b => exact absurd rfl (hkind id b)
    · trivial
  · cases h

theorem jobSeq_step (a : Act n V E) :
    w.fleet.db.jobSeq ≤ (step cfg serde msgspec codec app w a).fleet.db.jobSeq := by
  cases a with
  | member i a =>
    simp only [step]
    split
    · exact jobSeq_member i a
    · exact Int.le_refl _
  | receive i =>
    simp only [step]
    repeat' split
    all_goals first | exact Int.le_refl _ | exact jobSeq_member i _
  | child i a =>
    simp only [step]
    repeat' split
    · exact Int.le_refl _
    · rw [sends_db]
      exact Int.le_refl _
    · exact Int.le_refl _
  | record i id name result =>
    simp only [step]
    split
    · exact jobSeq_member i _
    · exact Int.le_refl _
  | register i entries =>
    simp only [step]
    split
    · exact Int.le_refl _
    · rw [sends_db]
  | request conn now r =>
    simp only [step]
    split
    · next hrun =>
      obtain ⟨ss, htransaction, -⟩ := run_inserts hrun
      exact jobSeq_transaction htransaction
    · exact Int.le_refl _
  | outside stmt =>
    simp only [step, Fleet.step]
    split
    · exact Int.le_refl _
    · exact w.fleet.db.jobSeq_le_exec stmt
  | tick d =>
    simp only [step, Fleet.step]
    split <;> exact Int.le_refl _

/-- What is asked of a step: of the bodies, and of the successes that others record. -/
def Allowed (codec : Codec V E) (bodies : String → Args V → V → Prop) (returns : JobId → Option Bytes → Prop)
    (w : World n) : Act n V E → Prop
  | .child i a => Computes codec bodies (w.children i) a
  | .outside stmt => ∀ v ∈ successes stmt, returns v.1 v.2
  | _ => True

/-- **One step of the whole.** -/
theorem inv_step (hfits : Fits codec app bodies known returns) {a : Act n V E}
    (h : Inv serde codec app known returns w) (ha : Allowed codec bodies returns w a)
    (hnew : Arrive known w.fleet.db (step cfg serde msgspec codec app w a).fleet.db) :
    Inv serde codec app known returns (step cfg serde msgspec codec app w a) := by
  cases a with
  | member i a =>
    simp only [step] at hnew ⊢
    by_cases hworker : ofWorker a = true
    · rw [if_pos hworker] at hnew ⊢
      refine ⟨h.fleet.member ?_ hnew, fun k t ht => ?_⟩
      · cases a with
        | child a =>
          cases a with
          | send bytes => cases hworker
          | record id name result => cases hworker
          | _ => trivial
        | _ => trivial
      · dsimp only at ht
        split at ht
        · cases ht
        · exact h.children k t ht
    · rw [if_neg hworker]
      exact h
  | receive i =>
    simp only [step]
    split
    · split
      · exact h
      · next m rest hsocket =>
        have hfleet : Sound serde known returns (Fleet.step cfg serde w.fleet (.member i (.child .receive))) :=
          h.fleet.child trivial
        split
        · exact ⟨hfleet, h.children⟩
        · next a hhears =>
          refine ⟨hfleet, fun k t ht => ?_⟩
          unfold World.setChild at ht
          dsimp only at ht
          split at ht
          · refine runs_step (h.children i) (fun job hjob => ?_) t ht
            subst hjob
            have hnames := (h.fleet.members i).socket m (hsocket ▸ List.mem_cons_self)
            exact hears_known hfits hnames hhears
          · exact h.children k t ht
    · exact h
  | child i a =>
    simp only [step]
    split
    · split
      · exact h
      · next hother =>
        refine ⟨h.fleet.sends (vouched_step hfits (h.children i) ha), fun k t ht => ?_⟩
        unfold World.sends World.setChild at ht
        dsimp only at ht
        split at ht
        · exact runs_step (h.children i) (fun job hjob => absurd hjob (hother job)) t ht
        · exact h.children k t ht
    · exact h
  | record i id name result =>
    simp only [step]
    split
    · next hlen => exact ⟨h.fleet.child hlen, h.children⟩
    · exact h
  | register i entries =>
    simp only [step]
    split
    · exact h
    · next bytes hbytes =>
      refine ⟨h.fleet.sends fun bytes' hbytes' => ?_, h.children⟩
      rw [List.mem_singleton.mp hbytes']
      exact vouched_register hbytes
  | request conn now r =>
    simp only [step] at hnew ⊢
    split at hnew
    · next hrun =>
      obtain ⟨ss, htransaction, hss⟩ := run_inserts hrun
      exact ⟨⟨rows_transaction (fun s hs => (hss s hs).1) htransaction h.fleet.rows hnew, h.fleet.members⟩,
        h.children⟩
    · exact h
  | outside stmt => exact ⟨h.fleet.outside ha hnew, h.children⟩
  | tick d => exact ⟨h.fleet.tick d, h.children⟩

theorem jobSeq_run (as : List (Act n V E)) :
    w.fleet.db.jobSeq ≤ (run (step cfg serde msgspec codec app) w as).fleet.db.jobSeq := by
  induction as generalizing w with
  | nil => exact Int.le_refl _
  | cons a as ih => exact Int.le_trans (jobSeq_step a) ih

/-- **A run of the whole**: whatever is true of the calls that come in stays true of
what is carried around, and the successes are successes of such calls. -/
theorem inv_run (hfits : Fits codec app bodies known returns) (as : List (Act n V E))
    (h : Inv serde codec app known returns w)
    (has : Along (step cfg serde msgspec codec app) (Allowed codec bodies returns) w as)
    (hnew : Arrive known w.fleet.db (run (step cfg serde msgspec codec app) w as).fleet.db) :
    Inv serde codec app known returns (run (step cfg serde msgspec codec app) w as) := by
  induction as generalizing w with
  | nil => exact h
  | cons a as ih =>
    obtain ⟨ha, hrest⟩ := has
    refine ih (inv_step hfits h ha fun id task payload hlow hhigh => ?_) hrest fun id task payload hlow hhigh => ?_
    · exact hnew id task payload hlow (Int.le_trans hhigh (jobSeq_run as))
    · exact hnew id task payload (Int.lt_of_le_of_lt (jobSeq_step a) hlow) hhigh

/-! ## A call and its job -/

/-- An id between two ends of the sequence. -/
theorem inI64_of_seq {low high id : Int} (hzero : 0 ≤ low) (hlow : low < id) (hhigh : id ≤ high)
    (hmax : high ≤ 9223372036854775807) : InI64 id := by
  unfold InI64
  omega

/-- Ids are numbered from one. -/
theorem positive_after (ss : List Stmt) : 0 ≤ (Db.after ss).jobSeq ∧
    Rows (fun id _ _ => 0 < id) (fun _ _ => True) (Db.after ss).toTables := by
  refine run_inv (I := fun db : Db => 0 ≤ db.jobSeq ∧ Rows (fun id _ _ => 0 < id) (fun _ _ => True) db.toTables)
    (fun db s h => ?_) ss ⟨Int.le_refl 0, (fun k hk => absurd hk List.not_mem_nil),
      (fun k hk => absurd hk List.not_mem_nil), fun k hk => absurd hk List.not_mem_nil⟩
  exact ⟨Int.le_trans h.1 (db.jobSeq_le_exec s),
    rows_exec h.2 (fun id _ _ hlow _ => Int.lt_of_le_of_lt h.1 hlow) fun _ _ => trivial⟩

/-- The system after some actions, on any database that statements have led to. -/
def after (cfg : Fin n → Settings) (serde : Serde) (msgspec : Wire.Child.Msgspec) (codec : Codec V E)
    (app : String → Option Child.Task) (ss : List Stmt) (as : List (Act n V E)) : World n :=
  run (step cfg serde msgspec codec app) (initial (Db.after ss)) as

/-- The request goes through, and the row is one it inserts. -/
def Enqueues (codec : Codec V E) (w : World n) (conn : Conn) (now : Time) (r : Request (Args V)) (j : Job) : Prop :=
  ∃ db, r.run codec.encoder conn now w.fleet.db = .ok db ∧ j ∈ db.jobs ∧ j ∉ w.fleet.db.jobs

/-- The call of a job, once it has its id. -/
def CallOf (j : Job) (id : JobId) (task : String) (payload : Bytes) : Prop :=
  InI64 id ∧ (id = j.id → task = j.task ∧ payload = j.payload)

/-- Before a job has its id, nobody says anything about it. -/
theorem inv_before (ss : List Stmt) {as : List (Act n V E)} {j : Job}
    (hreturns : ∀ {id result}, id ≠ j.id → returns id result)
    (has : Along (step cfg serde msgspec codec app) (Allowed codec bodies returns) (initial (Db.after ss)) as)
    (hfits : Fits codec app bodies (CallOf j) returns)
    (hseq : (after cfg serde msgspec codec app ss as).fleet.db.jobSeq < j.id) (hj : InI64 j.id) :
    Inv serde codec app (CallOf j) returns (after cfg serde msgspec codec app ss as) := by
  obtain ⟨hzero, hpositive⟩ := positive_after ss
  -- an id up to the sequence is another one
  have hother : ∀ id task payload, 0 < id → id ≤ (after cfg serde msgspec codec app ss as).fleet.db.jobSeq →
      id ≠ j.id ∧ CallOf j id task payload := by
    intro id task payload hlow hhigh
    have hlt := Int.lt_of_le_of_lt hhigh hseq
    exact ⟨Int.ne_of_lt hlt, inI64_of_seq (Int.le_refl 0) hlow (Int.le_of_lt hlt) hj.2,
      fun h => absurd h (Int.ne_of_lt hlt)⟩
  have hrow : ∀ k ∈ (Db.after ss).jobs, k.id ≤ (after cfg serde msgspec codec app ss as).fleet.db.jobSeq :=
    fun k hk => Int.le_trans (((Db.after ss).valid .identity).1 k.id (List.mem_map_of_mem hk)) (jobSeq_run as)
  refine inv_run hfits as ⟨⟨⟨fun k hk => ?_, fun k hk _ => ?_, hpositive.unfinished⟩, fun i => ?_⟩,
    fun i t ht => absurd ht List.not_mem_nil⟩ has fun id task payload hlow hhigh => ?_
  · exact (hother k.id k.task k.payload (hpositive.call k hk) (hrow k hk)).2
  · exact hreturns (hother k.id k.task k.payload (hpositive.call k hk) (hrow k hk)).1
  · exact carries_fresh rfl rfl rfl rfl
  · exact (hother id task payload (Int.lt_of_le_of_lt hzero hlow) hhigh).2

/-- The request gives the job its id and its call. -/
theorem inv_request {db : Db} {conn : Conn} {now : Time} {r : Request (Args V)} {j : Job}
    (h : Inv serde codec app (CallOf j) returns w) (hrun : r.run codec.encoder conn now w.fleet.db = .ok db)
    (hj : j ∈ db.jobs) (hzero : 0 ≤ w.fleet.db.jobSeq) (hseq : db.jobSeq ≤ 9223372036854775807) :
    Inv serde codec app (CallOf j) returns { w with fleet := { w.fleet with db := db } } := by
  obtain ⟨ss, htransaction, hss⟩ := run_inserts hrun
  have hinserts : ∀ s ∈ ss, s.inserts ≠ [] := fun s hs => (hss s hs).1
  have hrows : Rows (fun _ _ _ => True) returns db.toTables :=
    rows_transaction hinserts htransaction ⟨fun _ _ => trivial, h.fleet.rows.success, h.fleet.rows.unfinished⟩
      fun _ _ _ _ _ => trivial
  refine ⟨⟨⟨fun k hk => ⟨?_, fun hid => ?_⟩, hrows.success, hrows.unfinished⟩, h.fleet.members⟩, h.children⟩
  · rcases fresh_of_transaction hinserts htransaction hk with hold | hnew
    · exact (h.fleet.rows.call k hold).1
    · exact inI64_of_seq hzero hnew ((db.valid .identity).1 k.id (List.mem_map_of_mem hk)) hseq
  · rw [db.eq_of_id hk hj hid]
    exact ⟨rfl, rfl⟩

/-- **From the request on, whatever is said about the job is about its call.** -/
theorem inv_call (bodies : String → Args V → V → Prop) (returns : JobId → Option Bytes → Prop) {ss : List Stmt}
    {before later : List (Act n V E)} {conn : Conn} {now : Time} {r : Request (Args V)} {j : Job}
    (hj : Enqueues codec (after cfg serde msgspec codec app ss before) conn now r j)
    (hreturns : ∀ {id result}, id ≠ j.id → returns id result)
    (has : Along (step cfg serde msgspec codec app) (Allowed codec bodies returns) (initial (Db.after ss))
      (before ++ .request conn now r :: later))
    (hfits : Fits codec app bodies (CallOf j) returns)
    (hseq : (after cfg serde msgspec codec app ss (before ++ .request conn now r :: later)).fleet.db.jobSeq ≤
      9223372036854775807) :
    Inv serde codec app (CallOf j) returns
      (after cfg serde msgspec codec app ss (before ++ .request conn now r :: later)) := by
  obtain ⟨db, hrun, hmem, hnew⟩ := hj
  obtain ⟨hbefore, -, hlater⟩ := along_append.mp has
  obtain ⟨hfresh, -⟩ := row_of_request hrun hmem hnew
  have hzero : 0 ≤ (after cfg serde msgspec codec app ss before).fleet.db.jobSeq :=
    Int.le_trans (positive_after ss).1 (jobSeq_run before)
  unfold after at hrun hfresh hzero hseq ⊢
  rw [run_append, run_cons] at hseq ⊢
  have hstep : (step cfg serde msgspec codec app (run (step cfg serde msgspec codec app) (initial (Db.after ss)) before)
      (.request conn now r)).fleet.db = db := by
    simp only [step, hrun]
  generalize hw : run (step cfg serde msgspec codec app) (initial (Db.after ss)) before = w at *
  have hdb : db.jobSeq ≤ 9223372036854775807 := by
    rw [← hstep]
    exact Int.le_trans (jobSeq_run later) hseq
  have hjid : j.id ≤ db.jobSeq := (db.valid .identity).1 j.id (List.mem_map_of_mem hmem)
  have hinv : Inv serde codec app (CallOf j) returns w := by
    rw [← hw]
    exact inv_before ss hreturns hbefore hfits (by unfold after; rw [hw]; exact hfresh)
      (inI64_of_seq hzero hfresh hjid hdb)
  refine inv_run hfits later ?_ hlater fun id task payload hlow hhigh => ⟨?_, fun hid => ?_⟩
  · simp only [step, hrun]
    exact inv_request hinv hrun hmem hzero hdb
  · rw [hstep] at hlow
    exact inI64_of_seq (Int.le_trans (Int.le_trans hzero (Int.le_of_lt hfresh)) hjid) hlow hhigh hseq
  · rw [hstep] at hlow
    rw [hid] at hlow
    exact absurd hlow (not_lt.mpr hjid)
end

/-! ## One worker and one call -/

/-- Values of one byte, and positional arguments only. -/
def byteCodec : Codec UInt8 Unit where
  python :=
    { caughtBy := fun _ _ => false
      isinstance := fun _ _ => some false
      formatExc := fun _ => some []
      fromThread := .raised
      unknownTask := fun _ => ()
      timeoutError := ()
      decodePayload := fun payload => match payload with
        | [] => .error ()
        | _ :: args => .ok (args, [])
      encode := fun value => .ok [value] }
  encoder :=
    { encode := fun call => if call.2.isEmpty then some (0x92 :: call.1) else none
      uniqueKey := fun _ _ _ => none }
  decode := fun stored => match stored with
    | [value] => .ok value
    | _ => .error ()
  carried := id
  reads := by
    intro call payload h
    obtain ⟨args, kwargs⟩ := call
    cases kwargs with
    | nil =>
      cases h
      exact ⟨List.cons_ne_nil _ _, by rw [List.map_id]; rfl⟩
    | cons kv kwargs => cases h
  decodes := by
    intro value stored h
    cases h
    exact ⟨List.cons_ne_nil _ _, rfl⟩

def storing (name : String) : Option Child.Task :=
  if name = "double" then some { storeResult := true } else none

/-- The body of `double` returns 8 on 4. -/
def doubles (name : String) (args : Args UInt8) (value : UInt8) : Prop :=
  name = "double" → args = ([4], []) → value = 8

def worker7 : Fin 1 → Settings := fun _ => { worker := 7 }

/-- `double.enqueue(conn, 4)`. -/
def double4 : Request (Args UInt8) := .enqueue true ⟨{ name := "double" }, {}⟩ ([4], [])

def doubleJob : Job := (Client.newJob "double" false {} [0x92, 4]).row 1 0

/-- The one worker. -/
def lone : Fin 1 := Fin.last 0

/-- It leases the job, and its child gets to the body. -/
def begun : List (Act 1 UInt8 Unit) :=
  firstDispatch.map (.member lone) ++ [.receive lone, .child lone (.start 0)]

/-- The frame is read and decoded. -/
def collected : List CollectAct := [.read 15, .decode, .decode]

/-- The batch is flushed as far as the results. -/
def flushed : List CollectAct := [.timer, .flush (fun _ => 0) false, .flush (fun _ => 0) false]

def finished : List (Act 1 UInt8 Unit) :=
  begun ++ .child lone (.ends 0 false (.returned 8)) :: (collected.map fun a => .member lone (.collect a)) ++
    .tick 5000 :: flushed.map fun a => .member lone (.collect a)

/-- The world after the call and what follows it. -/
def afterDouble (later : List (Act 1 UInt8 Unit)) : World 1 :=
  after worker7 Serde.messagePack Wire.Child.Msgspec.messagePack byteCodec storing []
    ([] ++ .request (.driver .asyncpg) 0 double4 :: later)

theorem enqueues_double4 : Enqueues byteCodec
    (after worker7 Serde.messagePack Wire.Child.Msgspec.messagePack byteCodec storing [] []) (.driver .asyncpg) 0
    double4 doubleJob :=
  ⟨Db.after [.enqueue (Client.newJob "double" false {} [0x92, 4]) 0], rfl, by decide, by decide⟩

theorem honest_finished : Along (step worker7 Serde.messagePack Wire.Child.Msgspec.messagePack byteCodec storing)
    (Honest byteCodec doubles) (initial (Db.after []))
    ([] ++ .request (.driver .asyncpg) 0 double4 :: finished) := by
  have hmember : ∀ (a : Session.Act) (w : World 1), Honest byteCodec doubles w (.member lone a) :=
    fun _ _ => trivial
  have hall : ∀ a ∈ [] ++ .request (.driver .asyncpg) 0 double4 :: finished,
      ∀ w : World 1, Honest byteCodec doubles w a := by
    simp only [finished, begun, List.nil_append, List.forall_mem_cons, List.forall_mem_append, List.forall_mem_map]
    exact ⟨fun _ => trivial, ⟨⟨⟨fun a _ => hmember a, fun _ => trivial, fun _ => trivial, fun a ha => by cases ha⟩,
      fun _ _ _ _ _ _ _ _ _ => rfl, fun a _ => hmember _⟩, fun _ => trivial, fun a _ => hmember _⟩⟩
  exact Along.imp (fun w a h => h w) _ (along_of_forall _ _ hall)

/-! ## The way there and back -/

section
variable {n : Nat} {V E : Type} {cfg : Fin n → Settings} {serde : Serde} {msgspec : Wire.Child.Msgspec}
  {codec : Codec V E} {app : String → Option Child.Task} {bodies : String → Args V → V → Prop}

/-- **Every attempt at a job gets the call it was enqueued with**: whichever worker
leases it, and however often, the task its child looks up is the one that was called,
and what it passes to the body are the arguments of the call. -/
theorem attempts_get_the_call {ss : List Stmt} {before later : List (Act n V E)} {conn : Conn} {now : Time}
    {r : Request (Args V)} {j : Job}
    (hj : Enqueues codec (after cfg serde msgspec codec app ss before) conn now r j)
    (hseq : (after cfg serde msgspec codec app ss (before ++ .request conn now r :: later)).fleet.db.jobSeq ≤
      9223372036854775807) :
    ∃ call, CallOfRow codec.encoder r j.task j.payload call ∧ ∀ i,
      ∀ t ∈ ((after cfg serde msgspec codec app ss (before ++ .request conn now r :: later)).children i).running,
        t.job.id = j.id → t.job.task = call.1.name ∧
          arguments codec t.job.payload = .ok (codec.arrived call.2) := by
  have hrow := hj
  obtain ⟨db, hrun, hmem, hnew⟩ := hrow
  obtain ⟨-, call, hcall⟩ := row_of_request hrun hmem hnew
  -- nothing is asked of successes here
  have hinv := inv_call (fun _ _ _ => True) (fun _ _ => True) hj (fun _ => trivial) ?_
    ⟨fun h => h.1, fun _ _ _ _ _ => trivial⟩ hseq
  · refine ⟨call, hcall, fun i t ht hid => ?_⟩
    obtain ⟨hname, hpayload⟩ := (hinv.children i t ht).1.2 hid
    rw [hname, hpayload]
    exact ⟨hcall.task, arguments_encoded codec hcall.payload⟩
  · refine Along.imp (fun w a _ => ?_) _ (along_true _ _)
    cases a with
    | child i a =>
      unfold Allowed Computes
      dsimp only
      split
      · exact fun _ _ _ _ _ _ => trivial
      · trivial
    | outside stmt => exact fun _ _ => trivial
    | _ => trivial

/-- The call of `double`, at its body. -/
theorem attempts_get_the_call_double : ((afterDouble begun).children lone).running.length = 1 ∧
    ∃ call, CallOfRow byteCodec.encoder double4 "double" [0x92, 4] call ∧
      ∀ i, ∀ t ∈ ((afterDouble begun).children i).running, t.job.id = 1 → t.job.task = call.1.name ∧
        arguments byteCodec t.job.payload = .ok (byteCodec.arrived call.2) :=
  ⟨rfl, attempts_get_the_call enqueues_double4 (by decide +kernel)⟩

theorem stateText_completed {state : JobState} : stateText state = "completed" ↔ state = .completed := by
  cases state <;> decide

/-- `outcome` reads the row: it does not raise if a result on record is an encoded value. -/
theorem outcome_of_row {db : Db} {id : JobId} {P : JobOutcome V → Prop}
    (hnone : ∀ k ∈ db.jobs, k.id = id → k.result = none → P ⟨stateText k.state, none, k.errors⟩)
    (hsome : ∀ k ∈ db.jobs, k.id = id → ∀ stored ∈ k.result, ∃ value, codec.python.encode value = .ok stored ∧
      P ⟨stateText k.state, some (codec.carried value), k.errors⟩) :
    ∃ found, outcome codec db id = .ok found ∧ ∀ o ∈ found, P o := by
  unfold outcome
  split
  · exact ⟨none, rfl, fun o ho => by cases ho⟩
  · next k hk =>
    obtain ⟨hmem, hid⟩ := db.job?_eq_some.mp hk
    split
    · next hresult =>
      refine ⟨_, rfl, fun o ho => ?_⟩
      cases ho
      exact hnone k hmem hid hresult
    · next stored hresult =>
      obtain ⟨value, hencode, hp⟩ := hsome k hmem hid stored hresult
      rw [(codec.decodes hencode).2]
      refine ⟨_, rfl, fun o ho => ?_⟩
      cases ho
      exact hp

/-- The body of the task that was called has returned `value` on the arguments of the
call. -/
def Returned (codec : Codec V E) (app : String → Option Child.Task) (bodies : String → Args V → V → Prop)
    (call : Client.Task × Args V) (task : Child.Task) (value : V) : Prop :=
  app call.1.name = some task ∧ bodies call.1.name (codec.arrived call.2) value

/-- A completed job is one whose body returned, with the value as its result if the task
stores results; any other job has no result. -/
def OutcomeOf (codec : Codec V E) (app : String → Option Child.Task) (bodies : String → Args V → V → Prop)
    (call : Client.Task × Args V) (o : JobOutcome V) : Prop :=
  if o.state = "completed" then
    ∃ task value, Returned codec app bodies call task value ∧
      o.result = if task.storeResult then some (codec.carried value) else none
  else o.result = none

/-- A completed row whose success is on record is read as one. -/
theorem outcomeOf_row {call : Client.Task × Args V} {db : Db} {id : JobId}
    (hdone : ∀ k ∈ db.jobs, k.id = id → k.state = .completed →
      ∃ task value, Returned codec app bodies call task value ∧ OnRecord codec task value k.result)
    (hopen : ∀ k ∈ db.jobs, k.id = id → k.state ≠ .completed → k.result = none) :
    ∃ found, outcome codec db id = .ok found ∧ ∀ o ∈ found, OutcomeOf codec app bodies call o := by
  refine outcome_of_row (fun k hk hid hresult => ?_) fun k hk hid stored hstored => ?_
  · unfold OutcomeOf
    split
    · next hstate =>
      obtain ⟨task, value, hreturned, hrecord⟩ := hdone k hk hid (stateText_completed.mp hstate)
      refine ⟨task, value, hreturned, ?_⟩
      unfold OnRecord at hrecord
      split at hrecord
      · obtain ⟨stored, hstored, -⟩ := hrecord
        cases hresult.symm.trans hstored
      · next hkeeps => rw [if_neg hkeeps]
    · rfl
  · have hstate : k.state = .completed := by
      by_contra hstate
      cases (hopen k hk hid hstate).symm.trans hstored
    obtain ⟨task, value, hreturned, hrecord⟩ := hdone k hk hid hstate
    unfold OnRecord at hrecord
    split at hrecord
    · next hstores =>
      obtain ⟨stored', hstored', hencode⟩ := hrecord
      cases hstored.symm.trans hstored'
      refine ⟨value, hencode, ?_⟩
      rw [OutcomeOf, if_pos (stateText_completed.mpr hstate)]
      exact ⟨task, value, hreturned, (if_pos hstores).symm⟩
    · cases hrecord.symm.trans hstored

/-- **The outcome of a job is the outcome of its call**: `outcome` does not raise; a job
it says is completed is one whose body returned, for the task that was called and on
the arguments it was called with, and the result it gives is what the body returned. -/
theorem outcome_of_call {ss : List Stmt} {before later : List (Act n V E)} {conn : Conn} {now : Time}
    {r : Request (Args V)} {j : Job}
    (hj : Enqueues codec (after cfg serde msgspec codec app ss before) conn now r j)
    (hhonest : Along (step cfg serde msgspec codec app) (Honest codec bodies) (initial (Db.after ss))
      (before ++ .request conn now r :: later))
    (hseq : (after cfg serde msgspec codec app ss (before ++ .request conn now r :: later)).fleet.db.jobSeq ≤
      9223372036854775807) :
    ∃ call, CallOfRow codec.encoder r j.task j.payload call ∧ ∃ found,
      outcome codec (after cfg serde msgspec codec app ss (before ++ .request conn now r :: later)).fleet.db j.id =
        .ok found ∧
      ∀ o ∈ found, OutcomeOf codec app bodies call o := by
  have hrow := hj
  obtain ⟨db, hrun, hmem, hnew⟩ := hrow
  obtain ⟨-, call, hcall⟩ := row_of_request hrun hmem hnew
  have hinv := inv_call bodies (fun id result => id = j.id →
    ∃ task value, Returned codec app bodies call task value ∧ OnRecord codec task value result) hj
    (fun hne h => absurd h hne) ?_ ⟨fun h => h.1, ?_⟩ hseq
  · exact ⟨call, hcall, outcomeOf_row (fun k hk hid hstate => hinv.fleet.rows.success k hk hstate hid)
      fun k hk _ => hinv.fleet.rows.unfinished k hk⟩
  · refine Along.imp (fun w a ha => ?_) _ hhonest
    cases a with
    | outside stmt =>
      have hnone : successes stmt = [] := by
        cases stmt with
        | complete batch worker now => exact absurd rfl (ha batch worker now)
        | _ => rfl
      show ∀ v ∈ successes stmt, _
      rw [hnone]
      exact fun v hv => absurd hv List.not_mem_nil
    | _ => exact ha
  · intro id name payload task args value result hknown happ hargs hbody hrecord hid
    obtain ⟨hname, hpayload⟩ := hknown.2 hid
    rw [hname, hcall.task] at happ hbody
    rw [hpayload, arguments_encoded codec hcall.payload] at hargs
    cases hargs
    exact ⟨task, value, ⟨happ, hbody⟩, hrecord⟩

/-- `double` of 4 is 8. -/
theorem outcome_of_call_double :
    outcome byteCodec (afterDouble finished).fleet.db 1 = .ok (some ⟨"completed", some 8, []⟩) ∧
    ∃ call, CallOfRow byteCodec.encoder double4 "double" [0x92, 4] call ∧ ∃ found,
      outcome byteCodec (afterDouble finished).fleet.db 1 = .ok found ∧
      ∀ o ∈ found, OutcomeOf byteCodec storing doubles call o :=
  ⟨rfl, outcome_of_call enqueues_double4 honest_finished (by decide +kernel)⟩
end

end Gylo.Worker.Roundtrip
