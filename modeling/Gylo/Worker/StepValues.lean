import Gylo.Lib.Unpacking
import Gylo.Worker.Replay

/-! # The value of a step

`StepContext.step` returns the object `work` returned when it ran `work`, and
the decoded record when it replays. The two agree as long as the object survives
encoding, stays as it is until the acknowledgement, and the record that was
stored is the one this call sent: `RECORD_STEP` keeps the first record of a step
and ignores a second one, and acknowledges both. `Replay` models who runs when;
here its contexts return values. -/
namespace Gylo.Worker.StepValues

open Gylo.Store
open Gylo.Store.FetchCall (LeasedJob)
open Gylo.Wire Gylo.Worker.Replay Packing

/-! ## Values -/

/-- `msgspec.msgpack` on the values it can encode. -/
structure Codec (V : Type) where
  encode : V → Bytes
  decode : Bytes → Option V

/-- What a call of `step` returned. -/
structure Returned (V : Type) where
  jobId : JobId
  name : String
  value : V
deriving DecidableEq

/-- `values` holds the object `result` of the coroutine that waits under a key of
a child's `_waiting`, as it is now: others may hold it as well and change it. -/
structure Attempts (V : Type) where
  system : System
  values : Uuid → JobId → String → Option V := fun _ _ _ => none
  returned : List (Returned V) := []

def Attempts.init (V : Type) : Attempts V := { system := System.init }

/-- The end of a `work` that returned. -/
def returnsValue : Replay.Event → Bool
  | .finishWork _ _ (some _) => true
  | _ => false

inductive Event (V : Type) where
  | other (e : Replay.Event) (h : returnsValue e = false := by rfl)
  | finishWork (no : Nat) (name : String) (result : V)
  /-- Something in the child changes the object that is waited with under a key. -/
  | change (worker : Uuid) (job : JobId) (name : String) (result : V)

section
variable {V : Type} (codec : Codec V) (app : String → Bool)

/-- `step` finds the name in `_completed`; what does not decode raises. -/
def replayed (s : Attempts V) (no : Nat) (name : String) : List (Returned V) :=
  match s.system.context? no with
  | none => []
  | some c =>
    match c.completed.lookup name with
    | none => []
    | some bytes => (codec.decode bytes).toList.map fun value => ⟨c.jobId, name, value⟩

/-- The acknowledgement wakes a coroutine, which returns its `result` as it is by
then. -/
def resumed (s : Attempts V) (worker : Uuid) : List (Returned V) :=
  match s.system.acks.find? fun a => a.worker = worker with
  | none => []
  | some a =>
    match s.system.waiting worker a.jobId a.name with
    | none => []
    | some (no, _) =>
      -- the task may be over by then
      if (s.system.context? no).isNone then []
      else (s.values worker a.jobId a.name).toList.map fun value => ⟨a.jobId, a.name, value⟩

def returns (s : Attempts V) : Replay.Event → List (Returned V)
  | .call no name => replayed codec s no name
  | .stored worker => resumed s worker
  | _ => []

/-- The coroutine that waits last under a key is the one an acknowledgement
wakes. -/
def remember (s : Attempts V) (no : Nat) (name : String) (result : V) :
    Uuid → JobId → String → Option V :=
  match s.system.context? no with
  | none => s.values
  | some c =>
    if name ∈ c.running then fun v i n =>
      if v = c.worker ∧ i = c.jobId ∧ n = name then some result else s.values v i n
    else s.values

/-- `step` has encoded the object already. -/
def changed (s : Attempts V) (worker : Uuid) (job : JobId) (name : String) (result : V) :
    Uuid → JobId → String → Option V :=
  fun v i n =>
    if v = worker ∧ i = job ∧ n = name then (s.values v i n).map fun _ => result
    else s.values v i n

def step (s : Attempts V) : Event V → Attempts V
  | .other e _ =>
    { s with
      system := Replay.step app s.system e
      returned := s.returned ++ returns codec s e }
  | .finishWork no name result =>
    { s with
      system := Replay.step app s.system (.finishWork no name (some (codec.encode result)))
      values := remember s no name result }
  | .change worker job name result => { s with values := changed s worker job name result }
end

/-! ## What is on record -/

/-- `gylo_step` holds this result for the step. -/
def OnRecord (db : Db) (job : JobId) (name : String) (result : Bytes) : Prop :=
  ∃ st ∈ db.steps, st.jobId = job ∧ st.name = name ∧ st.result = result

/-- A step has one record. -/
theorem OnRecord.unique {db : Db} {job : JobId} {name : String} {b b' : Bytes}
    (h : OnRecord db job name b) (h' : OnRecord db job name b') : b = b' := by
  obtain ⟨st, hst, hjob, hname, rfl⟩ := h
  obtain ⟨st', hst', hjob', hname', rfl⟩ := h'
  have hkey : (st.jobId, st.name) = (st'.jobId, st'.name) := by rw [hjob, hjob', hname, hname']
  rw [List.inj_on_of_nodup_map (db.valid .stepPkey) hst hst' hkey]

theorem OnRecord.mono {db db' : Db} (hsub : db.steps ⊆ db'.steps) {job : JobId} {name : String}
    {b : Bytes} (h : OnRecord db job name b) : OnRecord db' job name b := by
  obtain ⟨st, hst, hkey⟩ := h
  exact ⟨st, hsub hst, hkey⟩

theorem onRecord_stepsFor {db : Db} {job : JobId} {v : String × Bytes} (h : v ∈ db.stepsFor job) :
    OnRecord db job v.1 v.2 := by
  obtain ⟨st, hst, rfl⟩ := List.mem_map.mp h
  obtain ⟨hst, hjob⟩ := List.mem_filter.mp ((List.mem_insertionSort _).mp hst)
  exact ⟨st, hst, of_decide_eq_true hjob, rfl, rfl⟩

/-! ## Numbers of leases -/

/-- A lease's number passes to its context and to what the context waits for. -/
structure Numbered (s : System) : Prop where
  lease : ∀ l ∈ s.leased, l.no < s.issued
  context : ∀ c ∈ s.contexts, c.no < s.issued
  apart : ∀ c ∈ s.contexts, ∀ l ∈ s.leased, c.no ≠ l.no
  job : ∀ c ∈ s.contexts, ∀ c' ∈ s.contexts, c.no = c'.no → c.jobId = c'.jobId
  waits : ∀ v i n no e, s.waiting v i n = some (no, e) → no < s.issued ∧
    (∀ l ∈ s.leased, no ≠ l.no) ∧ ∀ c ∈ s.contexts, c.no = no → c.jobId = i

/-- What is on record, on the way there, acknowledged and waited for agrees. -/
structure Recorded {V : Type} (codec : Codec V) (s : System)
    (values : Uuid → JobId → String → Option V) : Prop where
  completed : ∀ c ∈ s.contexts, ∀ v ∈ c.completed, OnRecord s.db c.jobId v.1 v.2
  replays : ∀ v i steps, s.replays v i = some steps → ∀ p ∈ steps, OnRecord s.db i p.1 p.2
  stored : ∀ r ∈ s.records, ∀ st ∈ s.db.steps, st.jobId = r.jobId → st.name = r.name →
    st.result = r.result
  alike : ∀ r ∈ s.records, ∀ r' ∈ s.records, r.jobId = r'.jobId → r.name = r'.name →
    r.result = r'.result
  sent : ∀ v i n no e, s.waiting v i n = some (no, e) → ∀ r ∈ s.records, r.worker = v →
    r.jobId = i → r.name = n → r.result = e
  acked : ∀ a ∈ s.acks, ∃ e, OnRecord s.db a.jobId a.name e
  heard : ∀ v i n no e, s.waiting v i n = some (no, e) → ∀ a ∈ s.acks, a.worker = v →
    a.jobId = i → a.name = n → OnRecord s.db i n e
  value : ∀ v i n no e, s.waiting v i n = some (no, e) →
    ∃ value, values v i n = some value ∧ codec.decode e = some value

/-! ### Parts of the system go away -/

/-- Leases, contexts, frames and entries go, and no record is added. Contexts
learn what is on record. -/
structure Fades (s s' : System) : Prop where
  steps : s'.db.steps = s.db.steps
  issued : s'.issued = s.issued
  leased : ∀ l ∈ s'.leased, l ∈ s.leased
  contexts : ∀ c ∈ s'.contexts, ∃ c₀ ∈ s.contexts, c.no = c₀.no ∧ c.jobId = c₀.jobId ∧
    ∀ v ∈ c.completed, v ∈ c₀.completed ∨ OnRecord s.db c₀.jobId v.1 v.2
  replays : ∀ v i steps, s'.replays v i = some steps → s.replays v i = some steps
  records : ∀ r ∈ s'.records, ∃ r₀ ∈ s.records, r.worker = r₀.worker ∧ r.jobId = r₀.jobId ∧
    r.name = r₀.name ∧ r.result = r₀.result
  waiting : ∀ v i n x, s'.waiting v i n = some x → s.waiting v i n = some x
  acks : ∀ a ∈ s'.acks, a ∈ s.acks

section
variable {V : Type} {codec : Codec V} {app : String → Bool} {s s' : System}
  {values : Uuid → JobId → String → Option V}

theorem Fades.refl (s : System) : Fades s s :=
  ⟨rfl, rfl, fun _ h => h, fun c h => ⟨c, h, rfl, rfl, fun _ hv => .inl hv⟩, fun _ _ _ h => h,
    fun r h => ⟨r, h, rfl, rfl, rfl, rfl⟩, fun _ _ _ _ h => h, fun _ h => h⟩

theorem Numbered.of_fades (h : Numbered s) (hs : Fades s s') : Numbered s' where
  lease l hl := hs.issued ▸ h.lease l (hs.leased l hl)
  context := by
    intro c hc
    obtain ⟨c₀, hc₀, hno, -, -⟩ := hs.contexts c hc
    rw [hno, hs.issued]
    exact h.context c₀ hc₀
  apart := by
    intro c hc l hl
    obtain ⟨c₀, hc₀, hno, -, -⟩ := hs.contexts c hc
    exact hno ▸ h.apart c₀ hc₀ l (hs.leased l hl)
  job := by
    intro c hc c' hc' hsame
    obtain ⟨c₀, hc₀, hno, hjob, -⟩ := hs.contexts c hc
    obtain ⟨c₁, hc₁, hno', hjob', -⟩ := hs.contexts c' hc'
    rw [hjob, hjob']
    exact h.job c₀ hc₀ c₁ hc₁ (hno.symm.trans (hsame.trans hno'))
  waits := by
    intro v i n no e hwait
    obtain ⟨hlt, hapart, howner⟩ := h.waits v i n no e (hs.waiting v i n _ hwait)
    refine ⟨hs.issued ▸ hlt, fun l hl => hapart l (hs.leased l hl), fun c hc hno => ?_⟩
    obtain ⟨c₀, hc₀, hno₀, hjob, -⟩ := hs.contexts c hc
    rw [hjob]
    exact howner c₀ hc₀ (hno₀.symm.trans hno)

theorem OnRecord.congr {db db' : Db} (hsteps : db'.steps = db.steps) {job : JobId} {name : String}
    {b : Bytes} (h : OnRecord db job name b) : OnRecord db' job name b :=
  h.mono (by rw [hsteps]; exact List.Subset.refl _)

theorem Recorded.of_fades (h : Recorded codec s values) (hs : Fades s s') :
    Recorded codec s' values where
  completed := by
    intro c hc v hv
    obtain ⟨c₀, hc₀, -, hjob, hcompleted⟩ := hs.contexts c hc
    rw [hjob]
    exact ((hcompleted v hv).elim (h.completed c₀ hc₀ v) id).congr hs.steps
  replays v i steps hsome p hp := (h.replays v i steps (hs.replays v i steps hsome) p hp).congr hs.steps
  stored := by
    intro r hr st hst hjob hname
    obtain ⟨r₀, hr₀, -, hjob₀, hname₀, hresult⟩ := hs.records r hr
    rw [hs.steps] at hst
    rw [hresult]
    exact h.stored r₀ hr₀ st hst (hjob.trans hjob₀) (hname.trans hname₀)
  alike := by
    intro r hr r' hr' hjob hname
    obtain ⟨r₀, hr₀, -, hjob₀, hname₀, hresult⟩ := hs.records r hr
    obtain ⟨r₁, hr₁, -, hjob₁, hname₁, hresult'⟩ := hs.records r' hr'
    rw [hresult, hresult']
    exact h.alike r₀ hr₀ r₁ hr₁ (hjob₀.symm.trans (hjob.trans hjob₁))
      (hname₀.symm.trans (hname.trans hname₁))
  sent := by
    intro v i n no e hwait r hr hworker hjob hname
    obtain ⟨r₀, hr₀, hworker₀, hjob₀, hname₀, hresult⟩ := hs.records r hr
    rw [hresult]
    exact h.sent v i n no e (hs.waiting v i n _ hwait) r₀ hr₀ (hworker₀.symm.trans hworker)
      (hjob₀.symm.trans hjob) (hname₀.symm.trans hname)
  acked := by
    intro a ha
    obtain ⟨e, he⟩ := h.acked a (hs.acks a ha)
    exact ⟨e, he.congr hs.steps⟩
  heard v i n no e hwait a ha hworker hjob hname :=
    (h.heard v i n no e (hs.waiting v i n _ hwait) a (hs.acks a ha) hworker hjob hname).congr hs.steps
  value v i n no e hwait := h.value v i n no e (hs.waiting v i n _ hwait)

theorem contexts_kept {cs : List Context} (hsub : ∀ c ∈ cs, c ∈ s.contexts) :
    ∀ c ∈ cs, ∃ c₀ ∈ s.contexts, c.no = c₀.no ∧ c.jobId = c₀.jobId ∧
      ∀ v ∈ c.completed, v ∈ c₀.completed ∨ OnRecord s.db c₀.jobId v.1 v.2 :=
  fun c hc => ⟨c, hsub c hc, rfl, rfl, fun _ hv => .inl hv⟩

theorem fades_update (no : Nat) {f : Context → Context} (hno : ∀ c, (f c).no = c.no)
    (hid : ∀ c, (f c).jobId = c.jobId)
    (hcompleted : ∀ c ∈ s.contexts, c.no = no → ∀ v ∈ (f c).completed,
      v ∈ c.completed ∨ OnRecord s.db c.jobId v.1 v.2) :
    Fades s { s with contexts := s.update no f } := by
  refine { Fades.refl s with contexts := ?_ }
  intro c hc
  obtain ⟨c₀, hc₀, rfl⟩ := List.mem_map.mp hc
  refine ⟨c₀, hc₀, ?_⟩
  split
  · next hsame => exact ⟨hno c₀, hid c₀, hcompleted c₀ hc₀ hsame⟩
  · exact ⟨rfl, rfl, fun _ hv => .inl hv⟩

theorem records_kept {rs : List Record} (hsub : ∀ r ∈ rs, r ∈ s.records) :
    ∀ r ∈ rs, ∃ r₀ ∈ s.records, r.worker = r₀.worker ∧ r.jobId = r₀.jobId ∧
      r.name = r₀.name ∧ r.result = r₀.result :=
  fun r hr => ⟨r, hsub r hr, rfl, rfl, rfl, rfl⟩

theorem fades_exec {q : Stmt} (hdel : q.deletes = false) (hrec : q.recordsStep = false) :
    Fades s { s with db := s.db.exec q } :=
  { Fades.refl s with steps := s.db.exec_steps hdel hrec }

theorem fades_restart (worker : Uuid) : Fades s (restart worker s) := by
  refine
    { Fades.refl s with
      leased := fun _ hl => (List.mem_filter.mp hl).1
      contexts := contexts_kept fun _ hc => (List.mem_filter.mp hc).1
      replays := ?_
      records := ?_
      waiting := ?_
      acks := fun _ ha => (List.mem_filter.mp ha).1 }
  · intro v i steps hsome
    simp only [restart] at hsome
    split at hsome
    · cases hsome
    · exact hsome
  · intro r hr
    obtain ⟨r₀, hr₀, rfl⟩ := List.mem_map.mp hr
    refine ⟨r₀, hr₀, ?_⟩
    split <;> exact ⟨rfl, rfl, rfl, rfl⟩
  · intro v i n x hsome
    simp only [restart] at hsome
    split at hsome
    · cases hsome
    · exact hsome
/-! ### Leases and contexts -/

theorem Numbered.grant (h : Numbered s) (worker : Uuid) (job : LeasedJob) :
    Numbered (Replay.grant worker s job) where
  lease := forall_mem_concat (fun l hl => Nat.lt_succ_of_lt (h.lease l hl)) (Nat.lt_succ_self _)
  context c hc := Nat.lt_succ_of_lt (h.context c hc)
  apart c hc := forall_mem_concat (h.apart c hc) (Nat.ne_of_lt (h.context c hc))
  job := h.job
  waits := by
    intro v i n no e hwait
    obtain ⟨hlt, hapart, howner⟩ := h.waits v i n no e hwait
    exact ⟨Nat.lt_succ_of_lt hlt, forall_mem_concat hapart (Nat.ne_of_lt hlt), howner⟩

theorem fades_without (l : Lease) : Fades s (s.without l) :=
  { Fades.refl s with leased := fun _ hk => (List.mem_filter.mp hk).1 }

theorem Numbered.onDispatch (h : Numbered s) {l : Lease} (hl : l ∈ s.leased) :
    Numbered (Replay.onDispatch app l (s.without l)) := by
  have hrest := h.of_fades (fades_without l)
  unfold Replay.onDispatch
  split
  · refine
      { hrest with
        context := forall_mem_concat h.context (h.lease l hl)
        apart := forall_mem_concat hrest.apart fun k hk =>
          Ne.symm (of_decide_eq_true (List.mem_filter.mp hk).2)
        job := ?_
        waits := ?_ }
    · refine forall_mem_concat (fun c hc => forall_mem_concat (h.job c hc) fun hsame =>
        absurd hsame (h.apart c hc l hl)) ?_
      exact forall_mem_concat (fun c hc hsame => absurd hsame.symm (h.apart c hc l hl)) fun _ => rfl
    · intro v i n no e hwait
      obtain ⟨hlt, hapart, howner⟩ := hrest.waits v i n no e hwait
      exact ⟨hlt, hapart, forall_mem_concat howner fun hsame =>
        absurd hsame.symm ((h.waits v i n no e hwait).2.1 l hl)⟩
  · exact hrest

theorem Numbered.onSteps (h : Numbered s) (worker : Uuid) (id : JobId) (frame : Option Steps) :
    Numbered (Replay.onSteps worker id frame s) := by
  cases frame with
  | none => exact h
  | some steps => exact { h with }

/-- What a child is told of a job's steps is on record. -/
theorem Recorded.onSteps (h : Recorded codec s values) {id : JobId} (worker : Uuid)
    {frame : Option Steps} (hframe : ∀ steps ∈ frame, ∀ p ∈ steps, OnRecord s.db id p.1 p.2) :
    Recorded codec (Replay.onSteps worker id frame s) values := by
  cases frame with
  | none => exact h
  | some steps =>
    refine { h with replays := ?_ }
    intro v i held hheld
    by_cases hkey : v = worker ∧ i = id
    · simp only [Replay.onSteps, if_pos hkey] at hheld
      cases hheld
      rw [hkey.2]
      exact hframe steps rfl
    · simp only [Replay.onSteps, if_neg hkey] at hheld
      exact h.replays v i held hheld

theorem Recorded.onDispatch (h : Recorded codec s values) (l : Lease) :
    Recorded codec (Replay.onDispatch app l s) values := by
  unfold Replay.onDispatch
  split
  · refine { h with completed := forall_mem_concat h.completed ?_, replays := ?_ }
    · intro v hv
      cases hheld : s.replays l.worker l.job.id with
      | none => rw [hheld] at hv; cases hv
      | some steps =>
        rw [hheld] at hv
        exact h.replays l.worker l.job.id steps hheld v hv
    · intro v i steps hsome
      dsimp only at hsome
      split at hsome
      · cases hsome
      · exact h.replays v i steps hsome
  · exact h

theorem priorSteps_onRecord {w : Replay.World} {job : LeasedJob} {db : Db} :
    ∀ steps ∈ priorSteps w job db, ∀ p ∈ steps, OnRecord db job.id p.1 p.2 := by
  intro steps hsteps
  have hloaded : steps = db.stepsFor job.id := by
    revert hsteps
    simp only [priorSteps, Option.mem_def]
    split
    · split
      · intro hnone; cases hnone
      · split
        · intro hnone; cases hnone
        · split
          · intro hsome; exact (Option.some.inj hsome).symm
          · intro hnone; cases hnone
    · intro hnone; cases hnone
  rw [hloaded]
  exact fun p hp => onRecord_stepsFor hp

structure Sound {V : Type} (codec : Codec V) (s : System)
    (values : Uuid → JobId → String → Option V) : Prop where
  numbered : Numbered s
  recorded : Recorded codec s values

theorem Sound.of_fades (h : Sound codec s values) (hs : Fades s s') : Sound codec s' values :=
  ⟨h.numbered.of_fades hs, h.recorded.of_fades hs⟩

theorem Sound.execute (h : Sound codec s values) {q : Stmt} (hdel : q.deletes = false)
    (hrec : q.recordsStep = false) : Sound codec (Replay.execute q s) values :=
  Runs.run_inv (I := fun t : System => Sound codec t values)
    (fun _ job ht => ⟨ht.numbered.grant _ job, { ht.recorded with }⟩) _
    (h.of_fades (fades_exec hdel hrec))

theorem Sound.dispatch (h : Sound codec s values) (worker : Uuid) (w : Replay.World) :
    Sound codec (Replay.dispatch app worker w s) values := by
  unfold Replay.dispatch
  cases hnext : s.next? worker with
  | none => exact h
  | some l =>
    have hl := System.next?_mem hnext
    have hsent : ∀ frame, (∀ steps ∈ frame, ∀ p ∈ steps, OnRecord s.db l.job.id p.1 p.2) →
        Sound codec (onSteps l.worker l.job.id frame s) values := fun frame hframe =>
      ⟨h.numbered.onSteps .., h.recorded.onSteps l.worker hframe⟩
    have hwithout : ∀ frame, onSteps l.worker l.job.id frame (s.without l) =
        (onSteps l.worker l.job.id frame s).without l := by
      intro frame
      cases frame <;> rfl
    have hkept : ∀ frame, l ∈ (onSteps l.worker l.job.id frame s).leased := by
      intro frame
      cases frame <;> exact hl
    dsimp only
    cases (encode (dispatchFrame l.job) []).2 with
    | ok _ =>
      dsimp only
      rw [hwithout]
      have hframe := hsent (priorSteps w l.job s.db) priorSteps_onRecord
      exact ⟨hframe.numbered.onDispatch (hkept _),
        (hframe.of_fades (fades_without l)).recorded.onDispatch l⟩
    | error e =>
      dsimp only
      have hframe : Sound codec (onSteps l.worker l.job.id
          (if w.written then priorSteps w l.job s.db else none) s) values := by
        split
        · exact hsent _ priorSteps_onRecord
        · exact hsent none fun steps hnone => by cases hnone
      rw [hwithout]
      have hrest := hframe.of_fades (fades_without l)
      split
      · exact hrest
      · exact hrest.of_fades (fades_exec rfl rfl)

/-! ### Steps -/

theorem Sound.call (h : Sound codec s values) (no : Nat) (name : String) :
    Sound codec (Replay.call no name s) values := by
  unfold Replay.call
  cases s.context? no with
  | none => exact h
  | some c =>
    dsimp only
    split
    · exact h
    · have hupdate := h.of_fades (fades_update (s := s) no
        (f := fun c => { c with running := c.running ++ [name] }) (fun _ => rfl) (fun _ => rfl)
        fun _ _ _ _ hv => .inl hv)
      exact ⟨{ hupdate.numbered with }, { hupdate.recorded with }⟩

/-- `work` raised. -/
theorem Sound.failWork (h : Sound codec s values) (no : Nat) (name : String) :
    Sound codec (Replay.finishWork no name none s) values := by
  unfold Replay.finishWork
  cases s.context? no with
  | none => exact h
  | some c =>
    dsimp only
    split
    · exact h.of_fades (fades_update no (fun _ => rfl) (fun _ => rfl) fun _ _ _ _ hv => .inl hv)
    · exact h

/-- `work` returned, in a context that is there. -/
theorem Numbered.finishWork (h : Numbered s) {c : Context} (hc : c ∈ s.contexts) (name : String)
    (encoded : Bytes) (records : List Record) :
    Numbered { s with
      contexts := s.update c.no fun c =>
        { c with running := c.running.erase name, pending := c.pending ++ [(name, encoded)] }
      records := records
      waiting := fun v i n =>
        if v = c.worker ∧ i = c.jobId ∧ n = name then some (c.no, encoded)
        else s.waiting v i n } := by
  have hupdate := h.of_fades (fades_update (s := s) c.no
    (f := fun c => { c with running := c.running.erase name,
                            pending := c.pending ++ [(name, encoded)] })
    (fun _ => rfl) (fun _ => rfl) fun _ _ _ _ hv => .inl hv)
  refine { hupdate with waits := ?_ }
  intro v i n no e hwait
  dsimp only at hwait
  split at hwait
  · next hkey =>
    cases hwait
    refine ⟨h.context c hc, h.apart c hc, fun d hd hsame => ?_⟩
    obtain ⟨d₀, hd₀, rfl⟩ := List.mem_map.mp hd
    rw [hkey.2.1]
    split at hsame
    · next hno => rw [if_pos hno]; exact h.job d₀ hd₀ c hc hsame
    · next hno => exact absurd hsame hno
  · exact hupdate.waits v i n no e hwait

/-- The record that goes out agrees with what is on record and on the way. -/
theorem Recorded.finishWork (h : Recorded codec s values) {c : Context} {name : String} {value : V}
    (hdecode : codec.decode (codec.encode value) = some value)
    (hstored : ∀ st ∈ s.db.steps, st.jobId = c.jobId → st.name = name →
      st.result = codec.encode value)
    (hrecords : ∀ r ∈ s.records, r.jobId = c.jobId → r.name = name →
      r.result = codec.encode value) :
    Recorded codec
      { s with
        contexts := s.update c.no fun c =>
          { c with running := c.running.erase name,
                   pending := c.pending ++ [(name, codec.encode value)] }
        records := s.records ++ [⟨c.no, c.worker, c.jobId, name, codec.encode value, true⟩]
        waiting := fun v i n =>
          if v = c.worker ∧ i = c.jobId ∧ n = name then some (c.no, codec.encode value)
          else s.waiting v i n }
      (fun v i n => if v = c.worker ∧ i = c.jobId ∧ n = name then some value else values v i n) := by
  have hupdate := h.of_fades (fades_update (s := s) c.no
    (f := fun c => { c with running := c.running.erase name,
                            pending := c.pending ++ [(name, codec.encode value)] })
    (fun _ => rfl) (fun _ => rfl) fun _ _ _ _ hv => .inl hv)
  refine
    { hupdate with
      stored := forall_mem_concat h.stored hstored
      alike := ?_
      sent := ?_
      heard := ?_
      value := ?_ }
  · refine forall_mem_concat (fun r hr => forall_mem_concat (h.alike r hr) (hrecords r hr)) ?_
    exact forall_mem_concat
      (fun r hr hjob hname => (hrecords r hr hjob.symm hname.symm).symm) fun _ _ => rfl
  · intro v i n no e hwait
    dsimp only at hwait
    split at hwait
    · next hkey =>
      obtain ⟨rfl, rfl, rfl⟩ := hkey
      cases hwait
      exact forall_mem_concat (fun r hr _ => hrecords r hr) fun _ _ _ => rfl
    · next hkey =>
      exact forall_mem_concat (h.sent v i n no e hwait) fun hworker hjob hname =>
        absurd ⟨hworker.symm, hjob.symm, hname.symm⟩ hkey
  · intro v i n no e hwait a ha hworker hjob hname
    dsimp only at hwait
    split at hwait
    · next hkey =>
      -- an acknowledgement from before speaks of the record this one agrees with
      obtain ⟨rfl, rfl, rfl⟩ := hkey
      cases hwait
      obtain ⟨e', st, hst, hstjob, hstname, -⟩ := h.acked a ha
      exact ⟨st, hst, hstjob.trans hjob, hstname.trans hname,
        hstored st hst (hstjob.trans hjob) (hstname.trans hname)⟩
    · exact h.heard v i n no e hwait a ha hworker hjob hname
  · intro v i n no e hwait
    dsimp only at hwait ⊢
    split at hwait
    · next hkey =>
      cases hwait
      exact ⟨value, if_pos hkey, hdecode⟩
    · next hkey =>
      rw [if_neg hkey]
      exact h.value v i n no e hwait

/-- An object that is waited with stays as it was encoded. -/
theorem Recorded.change {a : Attempts V} (h : Recorded codec a.system a.values) {worker : Uuid}
    {job : JobId} {name : String} {value : V}
    (hsame : (a.system.waiting worker job name).isSome → a.values worker job name = some value) :
    Recorded codec a.system (changed a worker job name value) := by
  refine { h with value := ?_ }
  intro v i n no e hwait
  have hvalue := h.value v i n no e hwait
  unfold changed
  split
  · next hkey =>
    obtain ⟨rfl, rfl, rfl⟩ := hkey
    have hstays := hsame (Option.isSome_of_eq_some hwait)
    rw [hstays] at hvalue ⊢
    exact hvalue
  · exact hvalue

/-- A record that disagrees with none leaves the database with its result. -/
theorem run_recordStep_agrees {db db' : Db} {job : JobId} {name : String} {result : Bytes}
    {now : Time} (h : db.run (.recordStep job name result now) = .ok db')
    (hstored : ∀ st ∈ db.steps, st.jobId = job → st.name = name → st.result = result) :
    db.steps ⊆ db'.steps ∧ OnRecord db' job name result ∧
      ∀ st ∈ db'.steps, st ∈ db.steps ∨ st.jobId = job ∧ st.name = name ∧ st.result = result := by
  rcases run_recordStep h with ⟨ht, st, hst, hjob, hname⟩ | ht
  · unfold OnRecord
    rw [ht]
    exact ⟨List.Subset.refl _, ⟨st, hst, hjob, hname, hstored st hst hjob hname⟩,
      fun st hst => .inl hst⟩
  · unfold OnRecord
    rw [ht]
    exact ⟨List.subset_append_left .., ⟨_, List.mem_concat_self, rfl, rfl, rfl⟩,
      forall_mem_concat (fun st hst => .inl hst) (.inr ⟨rfl, rfl, rfl⟩)⟩

theorem fades_collect (worker : Uuid) :
    Fades s { s with records := s.records.eraseP fun r => r.worker = worker } :=
  { Fades.refl s with records := records_kept fun _ hr => List.mem_of_mem_eraseP hr }

/-- A record is stored and acknowledged. -/
theorem Recorded.store (h : Recorded codec s values) {r : Record} (hr : r ∈ s.records) {now : Time}
    {db' : Db} (hrun : s.db.run (.recordStep r.jobId r.name r.result now) = .ok db') :
    Recorded codec { s with db := db', acks := s.acks ++ [⟨r.worker, r.jobId, r.name⟩] } values := by
  obtain ⟨hsub, hrecord, hnew⟩ := run_recordStep_agrees hrun (h.stored r hr)
  refine
    { h with
      completed := fun c hc v hv => (h.completed c hc v hv).mono hsub
      replays := fun v i steps hsome p hp => (h.replays v i steps hsome p hp).mono hsub
      stored := ?_
      acked := forall_mem_concat ?_ ⟨_, hrecord⟩
      heard := ?_ }
  · intro r' hr' st hst hjob hname
    rcases hnew st hst with hst | ⟨hstjob, hstname, hresult⟩
    · exact h.stored r' hr' st hst hjob hname
    · rw [hresult]
      exact h.alike r hr r' hr' (hstjob.symm.trans hjob) (hstname.symm.trans hname)
  · intro a ha
    obtain ⟨e, he⟩ := h.acked a ha
    exact ⟨e, he.mono hsub⟩
  · intro v i n no e hwait
    refine forall_mem_concat (fun a ha hworker hjob hname =>
      (h.heard v i n no e hwait a ha hworker hjob hname).mono hsub) ?_
    intro hworker hjob hname
    have hresult := h.sent v i n no e hwait r hr hworker hjob hname
    obtain rfl : r.jobId = i := hjob
    obtain rfl : r.name = n := hname
    exact hresult ▸ hrecord

theorem Sound.collect (h : Sound codec s values) (worker : Uuid) (fails : Bool) (now : Time) :
    Sound codec (Replay.collect worker fails now s) values := by
  unfold Replay.collect
  cases hfind : s.record? worker with
  | none => exact h
  | some r =>
    have hr : r ∈ s.records := List.mem_of_find?_eq_some hfind
    have hworker : r.worker = worker := by simpa using List.find?_some hfind
    dsimp only
    split
    · exact h.of_fades (fades_collect worker)
    · cases hrun : s.db.run (.recordStep r.jobId r.name r.result now) with
      | error e => exact h.of_fades (fades_collect worker)
      | ok db' =>
        have hstore : Sound codec
            { s with db := db', acks := s.acks ++ [⟨r.worker, r.jobId, r.name⟩] } values :=
          ⟨{ h.numbered with }, h.recorded.store hr hrun⟩
        -- the frame is gone, and so is its acknowledgement if the child is
        refine hstore.of_fades
          { Fades.refl _ with
            records := records_kept fun _ hr => List.mem_of_mem_eraseP hr
            acks := ?_ }
        dsimp only
        rw [hworker]
        split
        · exact fun a ha => ha
        · exact fun a ha => List.mem_append_left _ ha

theorem Sound.onStored (h : Sound codec s values) (worker : Uuid) :
    Sound codec (Replay.onStored worker s) values := by
  unfold Replay.onStored
  cases hack : s.acks.find? fun a => a.worker = worker with
  | none => exact h
  | some a =>
    have ha : a ∈ s.acks := List.mem_of_find?_eq_some hack
    have hworker : a.worker = worker := by simpa using List.find?_some hack
    dsimp only
    cases hwait : s.waiting worker a.jobId a.name with
    | none =>
      exact h.of_fades { Fades.refl s with acks := fun _ ha => List.mem_of_mem_eraseP ha }
    | some x =>
      obtain ⟨no, encoded⟩ := x
      dsimp only
      have hrecord := h.recorded.heard _ _ _ no encoded hwait a ha hworker rfl rfl
      have howner := (h.numbered.waits _ _ _ no encoded hwait).2.2
      have hstore := h.of_fades (fades_update (s := s) no
        (f := fun c => c.store a.name encoded) (fun _ => rfl) (fun _ => rfl) ?learns)
      · refine hstore.of_fades
          { Fades.refl _ with acks := fun _ ha => List.mem_of_mem_eraseP ha, waiting := ?_ }
        intro v i n x hsome
        dsimp only at hsome
        split at hsome
        · cases hsome
        · exact hsome
      · intro c hc hno v hv
        rcases List.mem_append.mp hv with hv | hv
        · exact .inl (List.mem_filter.mp hv).1
        · cases List.mem_singleton.mp hv
          exact .inr (howner c hc hno ▸ hrecord)

/-! ## What is returned -/

/-- Every value returned is decoded from the record of its step. -/
def Faithful (codec : Codec V) (db : Db) (returned : List (Returned V)) : Prop :=
  ∀ r ∈ returned, ∃ e, OnRecord db r.jobId r.name e ∧ codec.decode e = some r.value

theorem Sound.replayed {a : Attempts V} (h : Sound codec a.system a.values) (no : Nat)
    (name : String) : Faithful codec a.system.db (StepValues.replayed codec a no name) := by
  intro r hr
  simp only [StepValues.replayed] at hr
  cases hfind : a.system.context? no with
  | none => rw [hfind] at hr; cases hr
  | some c =>
    rw [hfind] at hr
    dsimp only at hr
    cases hlookup : c.completed.lookup name with
    | none => rw [hlookup] at hr; cases hr
    | some bytes =>
      rw [hlookup] at hr
      obtain ⟨value, hvalue, rfl⟩ := List.mem_map.mp hr
      have hmem : (name, bytes) ∈ c.completed := by
        obtain ⟨before, after, hsplit, -⟩ := List.lookup_eq_some_iff.mp hlookup
        rw [hsplit]
        exact List.mem_append_right _ (List.mem_cons_self ..)
      exact ⟨bytes, h.recorded.completed c (System.context?_mem hfind).1 _ hmem,
        Option.mem_toList.mp hvalue⟩

theorem Sound.resumed {a : Attempts V} (h : Sound codec a.system a.values) (worker : Uuid) :
    Faithful codec a.system.db (StepValues.resumed a worker) := by
  intro r hr
  simp only [StepValues.resumed] at hr
  cases hack : a.system.acks.find? fun a => a.worker = worker with
  | none => rw [hack] at hr; cases hr
  | some k =>
    rw [hack] at hr
    dsimp only at hr
    cases hwait : a.system.waiting worker k.jobId k.name with
    | none => rw [hwait] at hr; cases hr
    | some x =>
      obtain ⟨no, encoded⟩ := x
      rw [hwait] at hr
      dsimp only at hr
      split at hr
      · cases hr
      · obtain ⟨value, hvalue, rfl⟩ := List.mem_map.mp hr
        obtain ⟨value', hvalues, hdecode⟩ := h.recorded.value _ _ _ no encoded hwait
        have hsame : value = value' :=
          Option.some.inj ((Option.mem_toList.mp hvalue).symm.trans hvalues)
        refine ⟨encoded, h.recorded.heard _ _ _ no encoded hwait k (List.mem_of_find?_eq_some hack)
          (by simpa using List.find?_some hack) rfl rfl, ?_⟩
        rw [hsame]
        exact hdecode

theorem Faithful.mono {db db' : Db} {returned : List (Returned V)} (h : Faithful codec db returned)
    (hsub : db.steps ⊆ db'.steps) : Faithful codec db' returned := by
  intro r hr
  obtain ⟨e, he, hdecode⟩ := h r hr
  exact ⟨e, he.mono hsub, hdecode⟩

theorem execute_db (q : Stmt) (s : System) : (execute q s).db = s.db.exec q := by
  unfold execute
  refine Runs.run_inv (I := fun t : System => t.db = s.db.exec q) ?_ _ rfl
  exact fun _ _ ht => ht

/-- A dispatch discards at most. -/
theorem dispatch_steps (worker : Uuid) (w : Replay.World) (s : System) :
    (Replay.dispatch app worker w s).db.steps = s.db.steps := by
  unfold Replay.dispatch
  cases s.next? worker with
  | none => rfl
  | some l =>
    have hsteps : ∀ frame, (onSteps l.worker l.job.id frame (s.without l)).db = s.db := by
      intro frame
      cases frame <;> rfl
    dsimp only
    split
    · simp only [onDispatch]
      split <;> simp only [hsteps]
    · split
      · rw [hsteps]
      · rw [hsteps, s.db.exec_steps rfl rfl]

theorem collect_steps (worker : Uuid) (fails : Bool) (now : Time) (s : System) :
    s.db.steps ⊆ (Replay.collect worker fails now s).db.steps := by
  unfold Replay.collect
  cases s.record? worker with
  | none => exact List.Subset.refl _
  | some r =>
    dsimp only
    split
    · exact List.Subset.refl _
    · cases hrun : s.db.run (.recordStep r.jobId r.name r.result now) with
      | error e => exact List.Subset.refl _
      | ok db' =>
        rcases run_recordStep hrun with ⟨ht, -⟩ | ht
        · exact (congrArg Tables.steps ht) ▸ List.Subset.refl _
        · exact (congrArg Tables.steps ht) ▸ List.subset_append_left ..

/-- A record is never changed. -/
theorem steps_kept (s : System) (e : Replay.Event) :
    s.db.steps ⊆ (Replay.step app s e).db.steps := by
  cases e with
  | stmt q deletes records =>
    intro st hst
    show st ∈ (execute q s).db.steps
    rw [execute_db, s.db.exec_steps deletes records]
    exact hst
  | dispatch worker w =>
    intro st hst
    show st ∈ (Replay.dispatch app worker w s).db.steps
    rw [dispatch_steps]
    exact hst
  | collect worker fails now => exact collect_steps worker fails now s
  | call no name =>
    simp only [Replay.step, Replay.call]
    repeat' split
    all_goals exact List.Subset.refl _
  | finishWork no name result =>
    simp only [Replay.step, Replay.finishWork]
    repeat' split
    all_goals exact List.Subset.refl _
  | stored worker =>
    simp only [Replay.step, Replay.onStored]
    repeat' split
    all_goals exact List.Subset.refl _
  | drop worker => exact List.Subset.refl _
  | settle no => exact List.Subset.refl _
  | restart worker => exact List.Subset.refl _

/-! ## Runs -/

/-- What `work` returned survives encoding, and encodes to what is on record for
the step or on its way there; and while it is waited with it stays as it is. -/
def Agreeing (codec : Codec V) (s : Attempts V) : Event V → Prop
  | .finishWork no name value => ∀ c ∈ s.system.context? no, name ∈ c.running →
      codec.decode (codec.encode value) = some value ∧
      (∀ st ∈ s.system.db.steps, st.jobId = c.jobId → st.name = name →
        st.result = codec.encode value) ∧
      ∀ r ∈ s.system.records, r.jobId = c.jobId → r.name = name → r.result = codec.encode value
  | .change worker job name value =>
      (s.system.waiting worker job name).isSome → s.values worker job name = some value
  | .other .. => True

instance [DecidableEq V] (codec : Codec V) (s : Attempts V) :
    (e : Event V) → Decidable (Agreeing codec s e)
  | .finishWork no _ _ => inferInstanceAs (Decidable (∀ c ∈ s.system.context? no, _))
  | .change .. => inferInstanceAs (Decidable (_ → _))
  | .other .. => inferInstanceAs (Decidable True)

theorem sound_replay {a : Attempts V} (h : Sound codec a.system a.values) (e : Replay.Event)
    (hvalue : returnsValue e = false) : Sound codec (Replay.step app a.system e) a.values := by
  cases e with
  | stmt q deletes records => exact h.execute deletes records
  | drop worker =>
    exact h.of_fades { Fades.refl _ with leased := fun _ hl => (List.mem_filter.mp hl).1 }
  | dispatch worker w => exact h.dispatch worker w
  | call no name => exact h.call no name
  | finishWork no name result =>
    cases result with
    | none => exact h.failWork no name
    | some encoded => cases hvalue
  | collect worker fails now => exact h.collect worker fails now
  | stored worker => exact h.onStored worker
  | settle no =>
    exact h.of_fades
      { Fades.refl _ with contexts := contexts_kept fun _ hc => (List.mem_filter.mp hc).1 }
  | restart worker => exact h.of_fades (fades_restart worker)

theorem sound_step {a : Attempts V} (h : Sound codec a.system a.values) (e : Event V)
    (hok : Agreeing codec a e) :
    Sound codec (step codec app a e).system (step codec app a e).values := by
  cases e with
  | other e hvalue => exact sound_replay h e hvalue
  | finishWork no name value =>
    simp only [step, Replay.step, Replay.finishWork, remember]
    cases hfind : a.system.context? no with
    | none => exact h
    | some c =>
      obtain ⟨hc, rfl⟩ := System.context?_mem hfind
      dsimp only
      split
      · next hrunning =>
        obtain ⟨hdecode, hstored, hrecords⟩ := hok c hfind hrunning
        exact ⟨h.numbered.finishWork hc name _ _, h.recorded.finishWork hdecode hstored hrecords⟩
      · exact h
  | change worker job name value => exact ⟨h.numbered, h.recorded.change hok⟩

theorem faithful_step {a : Attempts V} (hs : Sound codec a.system a.values)
    (h : Faithful codec a.system.db a.returned) (e : Event V) :
    Faithful codec (step codec app a e).system.db (step codec app a e).returned := by
  cases e with
  | other e hvalue =>
    have hreturns : Faithful codec a.system.db (returns codec a e) := by
      cases e with
      | call no name => exact hs.replayed no name
      | stored worker => exact hs.resumed worker
      | stmt | drop | dispatch | finishWork | collect | settle | restart =>
        intro r hr
        cases hr
    have hboth : Faithful codec a.system.db (a.returned ++ returns codec a e) :=
      List.forall_mem_append.mpr ⟨h, hreturns⟩
    exact hboth.mono (steps_kept a.system e)
  | finishWork no name value => exact h.mono (steps_kept a.system _)
  | change worker job name value => exact h

end

theorem sound_init {V : Type} (codec : Codec V) :
    Sound codec (Attempts.init V).system (Attempts.init V).values := by
  constructor <;> constructor <;> simp [Attempts.init, System.init]

/-- Integers in a list or in a tuple. -/
inductive Items where
  | list (items : List Int)
  | tuple (items : List Int)
deriving DecidableEq

def Items.ints : List MessagePack.Value → Option (List Int)
  | [] => some []
  | .int n :: rest => (Items.ints rest).map (n :: ·)
  | _ => none

/-- MessagePack has one kind of array: a tuple comes back as a list. -/
def Items.codec : Codec Items where
  encode
    | .list items => (MessagePack.Value.array (items.map .int)).pack
    | .tuple items => (MessagePack.Value.array (items.map .int)).pack
  decode bytes :=
    match MessagePack.unpack bytes with
    | some (.array items) => (Items.ints items).map .list
    | _ => none

/-- A job of a durable task, leased to worker 7, that has charged a card. -/
def charging (receipt : Items) : List (Event Items) :=
  [.other (.stmt (.enqueue { task := "checkout", durable := true } 0)),
    .other (.stmt (.fetchUnkeyed
      { queues := ["default"], limit := 1, worker := 7, lease := 40, now := 1 })),
    .other (.dispatch 7 { now := 2 }), .other (.call 0 "charge"), .finishWork 0 "charge" receipt]

/-- The first attempt records its step and fails; the second calls it again. -/
def retrying (receipt : Items) : List (Event Items) :=
  charging receipt ++
  [.other (.collect 7 false 3), .other (.stored 7), .other (.settle 0),
    .other (.stmt (.retryMany ⟨[(1, "no mail")], 7, 1, 60, fun _ => 0, 4⟩)),
    .other (.stmt (.fetchUnkeyed
      { queues := ["default"], limit := 1, worker := 7, lease := 40, now := 90 })),
    .other (.dispatch 7 { now := 91 }), .other (.call 1 "charge")]

/-- The lease of the first attempt expires before its record is handled, and a
second attempt on worker 8 charges as well. -/
def overlapping (receipt receipt' : Items) : List (Event Items) :=
  charging receipt ++
  [.other (.stmt (.reclaim 10 [1] 100)),
    .other (.stmt (.fetchUnkeyed
      { queues := ["default"], limit := 1, worker := 8, lease := 40, now := 101 })),
    .other (.dispatch 8 { now := 102 }), .other (.call 1 "charge"),
    .finishWork 1 "charge" receipt', .other (.collect 7 false 103), .other (.collect 8 false 104),
    .other (.stored 7), .other (.stored 8)]

/-- A list grows while its record is on the way. -/
def growing (receipt receipt' : Items) : List (Event Items) :=
  charging receipt ++ [.other (.collect 7 false 3), .change 7 1 "charge" receipt', .other (.stored 7)]

end Gylo.Worker.StepValues
