import Gylo.Lib.Runs
import Mathlib.Data.Set.Function
import Mathlib.Logic.Function.Basic
import Mathlib.Logic.Relation

/-! # Clients of a key-value server

A server keeps a value under each key and takes one step at a time: a command, a
script or a block of commands, written in a state monad with failure. A step that
fails keeps what it has written by then. A client makes its call in several such
steps, and between two of them the server may serve others.

What a program touches is one predicate, `Within`: it leaves the keys outside of a
set as they are, and nothing outside of the set changes what it does. There is a rule
for each way programs are put together, and clients within disjoint sets do not
notice each other, however their steps interleave. -/
namespace Keyspace

variable {κ ν ε α β τ : Type}

/-! ## Steps of the server -/

abbrev Action (κ ν ε : Type) := ExceptT ε (StateM (κ → ν))

namespace Action

/-- The reply to a step, and the keys after it. -/
def exec (m : Action κ ν ε α) (s : κ → ν) : Except ε α × (κ → ν) := m.run s

/-- What a step does after another: nothing if that has failed. -/
def andThen (r : Except ε α × (κ → ν)) (f : α → Action κ ν ε β) : Except ε β × (κ → ν) :=
  match r.1 with
  | .ok a => (f a).exec r.2
  | .error e => (.error e, r.2)

@[simp] theorem andThen_ok (a : α) (s : κ → ν) (f : α → Action κ ν ε β) :
    andThen (.ok a, s) f = (f a).exec s := rfl

theorem exec_bind (m : Action κ ν ε α) (f : α → Action κ ν ε β) (s : κ → ν) :
    (m >>= f).exec s = andThen (m.exec s) f := by
  show ExceptT.bindCont f (m.exec s).1 (m.exec s).2 = _
  unfold andThen
  cases (m.exec s).1 <;> rfl

/-- A block of two: the second one is run even if the first one fails, and the reply
is that of the first one, unless one of them fails. -/
def also (m : Action κ ν ε α) (m' : Action κ ν ε β) : Action κ ν ε α :=
  ExceptT.mk fun s => ((m.exec s).1.bind fun a => (m'.exec (m.exec s).2).1.map fun _ => a,
    (m'.exec (m.exec s).2).2)

theorem exec_also (m : Action κ ν ε α) (m' : Action κ ν ε β) (s : κ → ν) :
    (m.also m').exec s =
      ((m.exec s).1.bind fun a => (m'.exec (m.exec s).2).1.map fun _ => a,
        (m'.exec (m.exec s).2).2) := rfl

/-- A block of commands whose replies are ignored. -/
def block : List (Action κ ν ε Unit) → Action κ ν ε Unit
  | [] => pure ()
  | m :: ms => m.also (block ms)

section
variable [DecidableEq κ]

/-- A command on a value: it is read as what the command is for, and left as it is if
that fails. -/
def onValue (read : ν → Except ε τ) (write : τ → ν) (f : τ → Except ε (α × τ)) (v : ν) :
    Except ε α × ν :=
  match (read v).bind f with
  | .ok (a, x) => (.ok a, write x)
  | .error e => (.error e, v)

/-- A command on one key. -/
def edit (k : κ) (read : ν → Except ε τ) (write : τ → ν) (f : τ → Except ε (α × τ)) :
    Action κ ν ε α :=
  ExceptT.mk fun s =>
    ((onValue read write f (s k)).1, Function.update s k (onValue read write f (s k)).2)

theorem exec_edit (k : κ) (read : ν → Except ε τ) (write : τ → ν) (f : τ → Except ε (α × τ))
    (s : κ → ν) : (edit k read write f).exec s =
      ((onValue read write f (s k)).1, Function.update s k (onValue read write f (s k)).2) := rfl

theorem exec_edit_ok {k : κ} {read : ν → Except ε τ} {write : τ → ν} {f : τ → Except ε (α × τ)}
    {s : κ → ν} {x y : τ} {a : α} (hread : read (s k) = .ok x) (hf : f x = .ok (a, y)) :
    (edit k read write f).exec s = (.ok a, Function.update s k (write y)) := by
  have hvalue : onValue read write f (s k) = (.ok a, write y) := by
    unfold onValue
    rw [hread, Except.bind, hf]
  rw [exec_edit, hvalue]
end

/-! ## What a step touches -/

/-- The step works on the keys of a set only: the others are left as they are, and
neither its reply nor what it writes depends on them. -/
structure Within (K : Set κ) (m : Action κ ν ε α) : Prop where
  frame : ∀ s, Set.EqOn (m.exec s).2 s Kᶜ
  reply : ∀ {s t}, Set.EqOn s t K → (m.exec s).1 = (m.exec t).1
  effect : ∀ {s t}, Set.EqOn s t K → Set.EqOn (m.exec s).2 (m.exec t).2 K

section
variable {K : Set κ}

theorem within_pure (a : α) : Within K (pure a : Action κ ν ε α) where
  frame _ _ _ := rfl
  reply _ := rfl
  effect h := h

theorem within_throw (e : ε) : Within K (throw e : Action κ ν ε α) where
  frame _ _ _ := rfl
  reply _ := rfl
  effect h := h

theorem Within.bind {m : Action κ ν ε α} {f : α → Action κ ν ε β} (hm : m.Within K)
    (hf : ∀ a, (f a).Within K) : (m >>= f).Within K where
  frame s := by
    have hfirst := hm.frame s
    rw [exec_bind, andThen]
    split
    next a _ => exact ((hf a).frame _).trans hfirst
    next => exact hfirst
  reply {s t} h := by
    rw [exec_bind, exec_bind, andThen, andThen, hm.reply h]
    split
    next a _ => exact (hf a).reply (hm.effect h)
    next => rfl
  effect {s t} h := by
    rw [exec_bind, exec_bind, andThen, andThen, hm.reply h]
    split
    next a _ => exact (hf a).effect (hm.effect h)
    next => exact hm.effect h

theorem Within.also {m : Action κ ν ε α} {m' : Action κ ν ε β} (hm : m.Within K)
    (hm' : m'.Within K) : (m.also m').Within K where
  frame s := (hm'.frame (m.exec s).2).trans (hm.frame s)
  reply h := by rw [exec_also, exec_also, hm.reply h, hm'.reply (hm.effect h)]
  effect h := hm'.effect (hm.effect h)

theorem within_block {ms : List (Action κ ν ε Unit)} (h : ∀ m ∈ ms, m.Within K) :
    (block ms).Within K := by
  induction ms with
  | nil => exact within_pure ()
  | cons m ms ih =>
    obtain ⟨hm, hms⟩ := List.forall_mem_cons.mp h
    exact hm.also (ih hms)

theorem within_forM {f : β → Action κ ν ε PUnit} (h : ∀ b, (f b).Within K) (bs : List β) :
    (forM bs f).Within K := by
  induction bs with
  | nil => exact within_pure _
  | cons b bs ih =>
    rw [List.forM_cons]
    exact (h b).bind fun _ => ih

theorem within_edit [DecidableEq κ] {k : κ} (hk : k ∈ K) (read : ν → Except ε τ) (write : τ → ν)
    (f : τ → Except ε (α × τ)) : (edit k read write f).Within K where
  frame s k' hk' := by
    have hne : k' ≠ k := fun hsame => hk' (hsame.symm ▸ hk)
    rw [exec_edit]
    exact Function.update_of_ne hne _ _
  reply h := by rw [exec_edit, exec_edit, h hk]
  effect {s t} h k' hk' := by
    simp only [exec_edit, h hk]
    by_cases hsame : k' = k
    · rw [hsame, Function.update_self, Function.update_self]
    · rw [Function.update_of_ne hsame, Function.update_of_ne hsame, h hk']
end

/-! ## What a step does to what the keys stand for -/

/-- Where the keys stand for a state, the step does not fail: it replies what `f` says
and leaves keys that stand for the state `f` says. -/
def Refines (R : (κ → ν) → τ → Prop) (m : Action κ ν ε α) (f : τ → α × τ) : Prop :=
  ∀ s t, R s t → (m.exec s).1 = .ok (f t).1 ∧ R (m.exec s).2 (f t).2

section
variable {R : (κ → ν) → τ → Prop}

theorem refines_pure (a : α) : Refines R (pure a : Action κ ν ε α) fun t => (a, t) :=
  fun _ _ h => ⟨rfl, h⟩

theorem Refines.congr {m : Action κ ν ε α} {f g : τ → α × τ} (hm : Refines R m f)
    (h : ∀ t, f t = g t) : Refines R m g := by
  intro s t hst
  rw [← h t]
  exact hm s t hst

theorem Refines.bind {m : Action κ ν ε α} {k : α → Action κ ν ε β} {f : τ → α × τ} {g : α → τ → β × τ}
    (hm : Refines R m f) (hk : ∀ a, Refines R (k a) (g a)) :
    Refines R (m >>= k) fun t => g (f t).1 (f t).2 := by
  intro s t h
  obtain ⟨hreply, hkeys⟩ := hm s t h
  rw [exec_bind, andThen, hreply]
  exact hk (f t).1 _ _ hkeys

theorem Refines.also {m : Action κ ν ε α} {m' : Action κ ν ε β} {f : τ → α × τ} {g : τ → β × τ}
    (hm : Refines R m f) (hm' : Refines R m' g) :
    Refines R (m.also m') fun t => ((f t).1, (g (f t).2).2) := by
  intro s t h
  obtain ⟨hreply, hkeys⟩ := hm s t h
  obtain ⟨hreply', hkeys'⟩ := hm' _ _ hkeys
  rw [exec_also, hreply, hreply']
  exact ⟨rfl, hkeys'⟩

theorem refines_forM {m : β → Action κ ν ε PUnit} {f : β → τ → τ}
    (h : ∀ b, Refines R (m b) fun t => (⟨⟩, f b t)) (bs : List β) :
    Refines R (forM bs m) fun t => (⟨⟩, bs.foldl (fun t b => f b t) t) := by
  induction bs with
  | nil => exact refines_pure _
  | cons b bs ih =>
    rw [List.forM_cons]
    exact (h b).bind fun _ => ih

theorem refines_block {m : β → Action κ ν ε Unit} {f : β → τ → τ}
    (h : ∀ b, Refines R (m b) fun t => ((), f b t)) (bs : List β) :
    Refines R (block (bs.map m)) fun t => ((), bs.foldl (fun t b => f b t) t) := by
  induction bs with
  | nil => exact refines_pure _
  | cons b bs ih => exact (h b).also ih
end

end Action

/-! ## Clients -/

/-- A call as a tree of steps: it is over, or the server takes a step, and the keys the
server had then decide how the call goes on. -/
inductive Client (κ ν ε α : Type) where
  | done (result : Except ε α)
  | send (effect : (κ → ν) → κ → ν) (next : (κ → ν) → Client κ ν ε α)

namespace Client

/-- The call that waits for the reply to one step. -/
def ask (m : Action κ ν ε α) : Client κ ν ε α :=
  .send (fun s => (m.exec s).2) fun s => .done (m.exec s).1

protected def bind : Client κ ν ε α → (α → Client κ ν ε β) → Client κ ν ε β
  | .done (.ok a), f => f a
  | .done (.error e), _ => .done (.error e)
  | .send effect next, f => .send effect fun s => (next s).bind f

instance : Monad (Client κ ν ε) where
  pure a := .done (.ok a)
  bind := Client.bind

/-- The call with the server to itself. -/
def alone : Client κ ν ε α → (κ → ν) → Except ε α × (κ → ν)
  | .done result, s => (result, s)
  | .send effect next, s => (next s).alone (effect s)

/-- Every step of the call works on the keys of a set only, and so does the choice of
the next one. -/
def Within (K : Set κ) : Client κ ν ε α → Prop
  | .done _ => True
  | .send effect next =>
    (∀ s, Set.EqOn (effect s) s Kᶜ) ∧
      (∀ s t, Set.EqOn s t K → Set.EqOn (effect s) (effect t) K ∧ next s = next t) ∧
      ∀ s, (next s).Within K

section
variable {K : Set κ}

theorem within_done (result : Except ε α) : (done result : Client κ ν ε α).Within K := trivial

theorem within_ask {m : Action κ ν ε α} (h : m.Within K) : (ask m).Within K :=
  ⟨h.frame, fun _ _ hst => ⟨h.effect hst, congrArg done (h.reply hst)⟩, fun _ => trivial⟩

theorem Within.bind {c : Client κ ν ε α} {f : α → Client κ ν ε β} (hc : c.Within K)
    (hf : ∀ a, (f a).Within K) : (c >>= f).Within K := by
  induction c with
  | done result =>
    cases result with
    | ok a => exact hf a
    | error e => exact within_done _
  | send effect next ih =>
    obtain ⟨hframe, hsame, hnext⟩ := hc
    refine ⟨hframe, fun s t hst => ?_, fun s => ih s (hnext s)⟩
    obtain ⟨heffect, hchoice⟩ := hsame s t hst
    exact ⟨heffect, congrArg (Client.bind · f) hchoice⟩

theorem Within.map {c : Client κ ν ε α} (hc : c.Within K) (f : α → β) : (f <$> c).Within K :=
  hc.bind fun _ => within_done _

/-- A whole call leaves the other keys as they are, whether it fails or not. -/
theorem Within.alone_frame {c : Client κ ν ε α} (hc : c.Within K) (s : κ → ν) :
    Set.EqOn (c.alone s).2 s Kᶜ := by
  induction c generalizing s with
  | done result => exact fun _ _ => rfl
  | send effect next ih =>
    obtain ⟨hframe, _, hnext⟩ := hc
    exact (ih s (hnext s) (effect s)).trans (hframe s)
end

/-- Whatever the keys stand for when a step of the call is taken, a system with the
steps `S` can go from there to what they stand for afterwards. -/
def Follows (R : (κ → ν) → τ → Prop) (S : τ → τ → Prop) : Client κ ν ε α → Prop
  | .done _ => True
  | .send effect next =>
    (∀ s t, R s t → ∃ t', Relation.ReflTransGen S t t' ∧ R (effect s) t') ∧
      ∀ s, (next s).Follows R S

section
variable {R : (κ → ν) → τ → Prop} {S : τ → τ → Prop}

theorem follows_done (result : Except ε α) : (done result : Client κ ν ε α).Follows R S := trivial

theorem follows_ask {m : Action κ ν ε α} {f : τ → α × τ} (hm : m.Refines R f)
    (hf : ∀ t, Relation.ReflTransGen S t (f t).2) : (ask m).Follows R S :=
  ⟨fun s t h => ⟨(f t).2, hf t, (hm s t h).2⟩, fun _ => trivial⟩

theorem Follows.bind {c : Client κ ν ε α} {f : α → Client κ ν ε β} (hc : c.Follows R S)
    (hf : ∀ a, (f a).Follows R S) : (c >>= f).Follows R S := by
  induction c with
  | done result =>
    cases result with
    | ok a => exact hf a
    | error e => exact follows_done _
  | send effect next ih => exact ⟨hc.1, fun s => ih s (hc.2 s)⟩

theorem Follows.map {c : Client κ ν ε α} (hc : c.Follows R S) (f : α → β) : (f <$> c).Follows R S :=
  hc.bind fun _ => follows_done _
end

end Client

/-! ## Clients that share the server -/

/-- What can happen to a client: it makes a call and forgets one it was in, the server
takes the next step of its call, or the connection fails, before or after the server
has taken the step. -/
inductive Event (κ ν ε α : Type) where
  | call (c : Client κ ν ε α)
  | step
  | lost (taken : Bool) (e : ε)

/-- How a client's call goes on, and the keys afterwards. -/
def Event.apply : Event κ ν ε α → Client κ ν ε α → (κ → ν) → Client κ ν ε α × (κ → ν)
  | .call c, _, s => (c, s)
  | .step, .send effect next, s => (next s, effect s)
  | .lost taken e, .send effect _, s => (.done (.error e), if taken then effect s else s)
  | .step, .done result, s | .lost _ _, .done result, s => (.done result, s)

/-- A call that is made keeps to the keys of a set. -/
def Event.Within (K : Set κ) : Event κ ν ε α → Prop
  | .call c => c.Within K
  | _ => True

section
variable {K : Set κ} {e : Event κ ν ε α} {c : Client κ ν ε α}

theorem Event.within_apply (he : e.Within K) (hc : c.Within K) (s : κ → ν) :
    (e.apply c s).1.Within K ∧ Set.EqOn (e.apply c s).2 s Kᶜ := by
  cases e with
  | call c' => exact ⟨he, fun _ _ => rfl⟩
  | step =>
    cases c with
    | done result => exact ⟨trivial, fun _ _ => rfl⟩
    | send effect next => exact ⟨hc.2.2 s, hc.1 s⟩
  | lost taken e =>
    cases c with
    | done result => exact ⟨trivial, fun _ _ => rfl⟩
    | send effect next =>
      -- the call is over either way, and the step was taken or not
      refine ⟨trivial, ?_⟩
      cases taken with
      | true => exact hc.1 s
      | false => exact fun _ _ => rfl

theorem Event.apply_congr (hc : c.Within K) {s t : κ → ν} (h : Set.EqOn s t K) :
    (e.apply c s).1 = (e.apply c t).1 ∧ Set.EqOn (e.apply c s).2 (e.apply c t).2 K := by
  cases e with
  | call c' => exact ⟨rfl, h⟩
  | step =>
    cases c with
    | done result => exact ⟨rfl, h⟩
    | send effect next => exact (hc.2.1 s t h).symm
  | lost taken e =>
    cases c with
    | done result => exact ⟨rfl, h⟩
    | send effect next =>
      refine ⟨rfl, ?_⟩
      cases taken with
      | true => exact (hc.2.1 s t h).1
      | false => exact h
end

def Event.Follows (R : (κ → ν) → τ → Prop) (S : τ → τ → Prop) : Event κ ν ε α → Prop
  | .call c => c.Follows R S
  | _ => True

theorem Event.follows_apply {R : (κ → ν) → τ → Prop} {S : τ → τ → Prop} {e : Event κ ν ε α}
    {c : Client κ ν ε α} (he : e.Follows R S) (hc : c.Follows R S) {s : κ → ν} {t : τ} (h : R s t) :
    (e.apply c s).1.Follows R S ∧ ∃ t', Relation.ReflTransGen S t t' ∧ R (e.apply c s).2 t' := by
  cases e with
  | call c' => exact ⟨he, t, .refl, h⟩
  | step =>
    cases c with
    | done result => exact ⟨trivial, t, .refl, h⟩
    | send effect next => exact ⟨hc.2 s, hc.1 s t h⟩
  | lost taken e =>
    cases c with
    | done result => exact ⟨trivial, t, .refl, h⟩
    | send effect next =>
      cases taken with
      | true => exact ⟨trivial, hc.1 s t h⟩
      | false => exact ⟨trivial, t, .refl, h⟩

structure Shared (ι κ ν ε α : Type) where
  keys : κ → ν
  clients : ι → Client κ ν ε α

namespace Shared

variable {ι : Type} [DecidableEq ι]

/-- Something happens to one of the clients. -/
def step (s : Shared ι κ ν ε α) (a : ι × Event κ ν ε α) : Shared ι κ ν ε α where
  keys := (a.2.apply (s.clients a.1) s.keys).2
  clients := Function.update s.clients a.1 (a.2.apply (s.clients a.1) s.keys).1

/-- Every client is in a call that keeps to its own keys. -/
def Within (home : ι → Set κ) (s : Shared ι κ ν ε α) : Prop := ∀ i, (s.clients i).Within (home i)

/-- The keys of a set are the same, and so are the calls of some clients. -/
structure Same (K : Set κ) (mine : ι → Bool) (s t : Shared ι κ ν ε α) : Prop where
  keys : Set.EqOn s.keys t.keys K
  clients : ∀ i, mine i = true → s.clients i = t.clients i

variable {home : ι → Set κ} {s t : Shared ι κ ν ε α} {a : ι × Event κ ν ε α}

theorem step_client : (s.step a).clients a.1 = (a.2.apply (s.clients a.1) s.keys).1 :=
  Function.update_self _ _ _

theorem step_client_of_ne {i : ι} (hi : i ≠ a.1) : (s.step a).clients i = s.clients i :=
  Function.update_of_ne hi _ _

theorem Within.step (hs : s.Within home) (ha : a.2.Within (home a.1)) : (s.step a).Within home := by
  intro i
  by_cases hi : i = a.1
  · rw [hi, step_client]
    exact (Event.within_apply ha (hs a.1) s.keys).1
  · rw [step_client_of_ne hi]
    exact hs i

variable {K : Set κ} {mine : ι → Bool}

/-- A client that works on the set does in both what it does in one. -/
theorem Same.step (h : Same K mine s t) (hs : s.Within home) (hmine : mine a.1 = true)
    (hhome : home a.1 = K) : Same K mine (s.step a) (t.step a) := by
  have hclient : (s.clients a.1).Within K := hhome ▸ hs a.1
  obtain ⟨hcall, hkeys⟩ := Event.apply_congr (e := a.2) hclient h.keys
  have hsame := h.clients a.1 hmine
  refine ⟨?_, fun i hi => ?_⟩
  · show Set.EqOn (a.2.apply (s.clients a.1) s.keys).2 (a.2.apply (t.clients a.1) t.keys).2 K
    rw [← hsame]
    exact hkeys
  · by_cases hia : i = a.1
    · rw [hia, step_client, step_client, ← hsame, hcall]
    · rw [step_client_of_ne hia, step_client_of_ne hia, h.clients i hi]

/-- One that works elsewhere changes neither the set nor the calls. -/
theorem Same.step_left (h : Same K mine s t) (hs : s.Within home) (ha : a.2.Within (home a.1))
    (hmine : mine a.1 = false) (hhome : ∀ k ∈ home a.1, k ∉ K) : Same K mine (s.step a) t := by
  have hframe := (Event.within_apply ha (hs a.1) s.keys).2
  refine ⟨fun k hk => ?_, fun i hi => ?_⟩
  · exact (hframe fun hk' => hhome k hk' hk).trans (h.keys hk)
  · have hia : i ≠ a.1 := by
      intro heq
      rw [heq, hmine] at hi
      cases hi
    rw [step_client_of_ne hia, h.clients i hi]

/-- **Clients with keys of their own do not notice each other**: however the steps of all
the calls interleave, and whichever replies are lost, the keys of a set and the calls of
its clients are what they are if nobody else uses the server. -/
theorem same_run_filter (hmine : ∀ i, mine i = true → home i = K)
    (hothers : ∀ i, mine i = false → ∀ k ∈ home i, k ∉ K) (hs : s.Within home)
    (as : List (ι × Event κ ν ε α)) (has : ∀ a ∈ as, a.2.Within (home a.1)) :
    Same K mine (Runs.run step s as) (Runs.run step s (as.filter fun a => mine a.1)) := by
  have hboth : ∀ {s t : Shared ι κ ν ε α} (a : ι × Event κ ν ε α), a.2.Within (home a.1) →
      mine a.1 = true → s.Within home ∧ Same K mine s t →
        (s.step a).Within home ∧ Same K mine (s.step a) (t.step a) :=
    fun a ha hkeep h => ⟨h.1.step ha, h.2.step h.1 hkeep (hmine a.1 hkeep)⟩
  have hleft : ∀ {s t : Shared ι κ ν ε α} (a : ι × Event κ ν ε α), a.2.Within (home a.1) →
      mine a.1 = false → s.Within home ∧ Same K mine s t →
        (s.step a).Within home ∧ Same K mine (s.step a) t :=
    fun a ha hkeep h => ⟨h.1.step ha, h.2.step_left h.1 ha hkeep (hothers a.1 hkeep)⟩
  exact (Runs.run_filter_rel (R := fun s t => s.Within home ∧ Same K mine s t) hboth hleft as has
    ⟨hs, ⟨fun _ _ => rfl, fun _ _ => rfl⟩⟩).2

/-- What the keys of a set stand for, after some steps of the system `S` from `t`, while
the calls of its clients follow `S`. -/
structure Stands (R : (κ → ν) → τ → Prop) (S : τ → τ → Prop) (mine : ι → Bool) (t : τ)
    (s : Shared ι κ ν ε α) : Prop where
  calls : ∀ i, mine i = true → (s.clients i).Follows R S
  keys : ∃ t', Relation.ReflTransGen S t t' ∧ R s.keys t'

section
variable {R : (κ → ν) → τ → Prop} {S : τ → τ → Prop} {t₀ : τ}

theorem Stands.step (h : Stands R S mine t₀ s) (hmine : mine a.1 = true) (ha : a.2.Follows R S) :
    Stands R S mine t₀ (s.step a) := by
  obtain ⟨t, hreach, hkeys⟩ := h.keys
  obtain ⟨hcall, t', hstep, hkeys'⟩ := Event.follows_apply ha (h.calls a.1 hmine) hkeys
  refine ⟨fun i hi => ?_, t', hreach.trans hstep, hkeys'⟩
  by_cases hia : i = a.1
  · rw [hia, step_client]
    exact hcall
  · rw [step_client_of_ne hia]
    exact h.calls i hi

/-- What the keys of the set stand for does not depend on any other key. -/
theorem Stands.step_other (hlocal : ∀ {s s' t}, R s t → Set.EqOn s' s K → R s' t)
    (h : Stands R S mine t₀ s) (hs : s.Within home) (ha : a.2.Within (home a.1))
    (hmine : mine a.1 = false) (hhome : ∀ k ∈ home a.1, k ∉ K) : Stands R S mine t₀ (s.step a) := by
  have hsame := Same.step_left ⟨fun _ _ => rfl, fun _ _ => rfl⟩ hs ha hmine hhome
  obtain ⟨t, hreach, hkeys⟩ := h.keys
  refine ⟨fun i hi => ?_, t, hreach, hlocal hkeys hsame.keys⟩
  rw [hsame.clients i hi]
  exact h.calls i hi

/-- **Clients that follow a system keep following it on a shared server**: after any run of
all the clients, the keys of their set stand for a state the system can reach. -/
theorem stands_run (hlocal : ∀ {s s' t}, R s t → Set.EqOn s' s K → R s' t)
    (hothers : ∀ i, mine i = false → ∀ k ∈ home i, k ∉ K) (hs : s.Within home)
    (h : Stands R S mine t₀ s) (as : List (ι × Event κ ν ε α))
    (has : ∀ a ∈ as, a.2.Within (home a.1) ∧ (mine a.1 = true → a.2.Follows R S)) :
    Stands R S mine t₀ (Runs.run step s as) := by
  have hkeep : ∀ (s : Shared ι κ ν ε α) (a : ι × Event κ ν ε α),
      s.Within home ∧ Stands R S mine t₀ s →
      a.2.Within (home a.1) ∧ (mine a.1 = true → a.2.Follows R S) →
        (s.step a).Within home ∧ Stands R S mine t₀ (s.step a) := by
    intro s a hinv ha
    refine ⟨hinv.1.step ha.1, ?_⟩
    cases hmine : mine a.1 with
    | true => exact hinv.2.step hmine (ha.2 hmine)
    | false => exact hinv.2.step_other hlocal hinv.1 ha.1 hmine (hothers a.1 hmine)
  exact (Runs.Along.inv hkeep as ⟨hs, h⟩ (Runs.along_of_forall s as has)).2
end
end Shared

end Keyspace
