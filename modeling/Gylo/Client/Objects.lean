import Gylo.Client.Composition
import Gylo.Lib.Runs
import Mathlib.Algebra.Order.BigOperators.Group.List
import Mathlib.Algebra.Order.Group.Nat

/-! # Workflow objects

A `Workflow` is an object that names refer to. `chain` and `group` copy what they are given
into a new one. `chord` takes its body as it is, adds the callback to it and returns it,
so the name that was passed now refers to the chord as well. A script is a list of calls;
beside the object each name refers to stands here the graph its call was to return. -/
namespace Gylo.Client.Objects

open Gylo.Client.Composition Runs

variable {A : Type}

/-! ## Scripts -/

/-- What a call is given: a signature, or what an earlier call returned. -/
inductive Operand (A : Type) where
  | signature (s : Signature A)
  | name (k : Nat)

inductive Call (A : Type) where
  /-- `Workflow(nodes=…, edges=…)` -/
  | workflow (w : Workflow A)
  | chain (steps : List (Operand A))
  | group (branches : List (Operand A))
  | chord (body : Operand A) (callback : Signature A)
  | enqueue (flow : Operand A)

namespace Call

def operands : Call A → List (Operand A)
  | .workflow _ => []
  | .chain steps => steps
  | .group branches => branches
  | .chord body _ => [body]
  | .enqueue flow => [flow]

/-- The graph a call is about, by what its operands are. -/
def graph (read : Operand A → Item A) : Call A → Workflow A
  | .workflow w => w
  | .chain steps => Composition.chain (steps.map read)
  | .group branches => Composition.group (branches.map read)
  | .chord body callback => Composition.chord (read body) callback
  | .enqueue flow => (read flow).asWorkflow

end Call

structure Binding (A : Type) where
  object : Nat
  /-- The graph the call was to return. -/
  meant : Workflow A

structure Memory (A : Type) where
  objects : Nat → Workflow A
  next : Nat
  names : List (Binding A)
  /-- The names that were passed to `chord`. -/
  given : List Nat

namespace Memory

def empty : Memory A := ⟨fun _ => .new, 0, [], []⟩

/-- An operand by one of the two graphs of a name; a name without an object is read as
the empty one. -/
def read (view : Binding A → Workflow A) (s : Memory A) : Operand A → Item A
  | .signature sig => .signature sig
  | .name k => .workflow ((s.names[k]?).elim .new view)

/-- What an operand is. -/
def held (s : Memory A) : Operand A → Item A := s.read fun b => s.objects b.object

/-- What an operand was to be. -/
def meant (s : Memory A) : Operand A → Item A := s.read Binding.meant

/-- A new object for what a call returns. -/
def allocate (c : Call A) (s : Memory A) : Memory A :=
  { s with
    objects := Function.update s.objects s.next (c.graph s.held)
    next := s.next + 1
    names := s.names ++ [⟨s.next, c.graph s.meant⟩] }

/-- The object of a name becomes what the call returns. -/
def extend (c : Call A) (k : Nat) (b : Binding A) (s : Memory A) : Memory A :=
  { s with
    objects := Function.update s.objects b.object (c.graph s.held)
    names := s.names ++ [⟨b.object, c.graph s.meant⟩]
    given := k :: s.given }

section
variable {s : Memory A} {c : Call A} {b : Binding A} {k object : Nat}

theorem allocate_objects (h : object < s.next) : (s.allocate c).objects object = s.objects object :=
  Function.update_of_ne (Nat.ne_of_lt h) _ _

theorem allocate_next : (s.allocate c).objects s.next = c.graph s.held := Function.update_self _ _ _

theorem extend_objects (h : object ≠ b.object) : (s.extend c k b).objects object = s.objects object :=
  Function.update_of_ne h _ _

theorem extend_self : (s.extend c k b).objects b.object = c.graph s.held := Function.update_self _ _ _
end

end Memory

def Operand.Bound (s : Memory A) : Operand A → Prop
  | .signature _ => True
  | .name k => k < s.names.length

/-- The operand was not passed to `chord` before. -/
def Operand.Unspent (s : Memory A) : Operand A → Prop
  | .signature _ => True
  | .name k => k ∉ s.given

instance (s : Memory A) : DecidablePred (Operand.Bound s)
  | .signature _ => isTrue trivial
  | .name k => inferInstanceAs (Decidable (k < s.names.length))

instance (s : Memory A) : DecidablePred (Operand.Unspent s)
  | .signature _ => isTrue trivial
  | .name k => inferInstanceAs (Decidable (k ∉ s.given))

namespace Call

/-- A name that refers to nothing raises before anything is done. -/
def Bound (s : Memory A) (c : Call A) : Prop := ∀ o ∈ c.operands, o.Bound s

instance (s : Memory A) (c : Call A) : Decidable (c.Bound s) :=
  inferInstanceAs (Decidable (∀ o ∈ c.operands, o.Bound s))

/-- What a call whose names are bound does. -/
def perform (s : Memory A) : Call A → Memory A
  | .enqueue _ => s
  | .chord (.name k) callback =>
    match s.names[k]? with
    | some b => s.extend (.chord (.name k) callback) k b
    | none => s
  | c => s.allocate c

/-- The call has a workflow for the body of a chord. -/
def Extends (s : Memory A) : Call A → Prop
  | .chord (.name k) _ => k < s.names.length
  | _ => False

end Call

def step (s : Memory A) (c : Call A) : Memory A := if c.Bound s then c.perform s else s

def after (calls : List (Call A)) : Memory A := run step .empty calls

/-- Every object that was there is as it was. -/
def Leaves (s : Memory A) (c : Call A) : Prop := ∀ object < s.next, (step s c).objects object = s.objects object

/-- The call is about the graph it was to be about. -/
def Yields (s : Memory A) (c : Call A) : Prop := c.Bound s → c.graph s.held = c.graph s.meant

/-- No name of the call was passed to `chord` before. -/
def Unspent (s : Memory A) (c : Call A) : Prop := c.Bound s → ∀ o ∈ c.operands, o.Unspent s

instance (s : Memory A) (c : Call A) : Decidable (Unspent s c) :=
  inferInstanceAs (Decidable (c.Bound s → ∀ o ∈ c.operands, o.Unspent s))

/-! ## The size of a graph -/

/-- The nodes that do not come from an operand. -/
def Call.added : Call A → Nat
  | .workflow w => w.nodes.length
  | .chord .. => 1
  | _ => 0

theorem Call.size_graph (read : Operand A → Item A) (c : Call A) :
    (c.graph read).nodes.length = c.added + (c.operands.map fun o => (read o).size).sum := by
  cases c with
  | workflow w => rfl
  | chain steps =>
    rw [Call.graph, chain_nodes, List.length_flatMap, List.map_map]
    exact (Nat.zero_add _).symm
  | group branches =>
    rw [Call.graph, group_nodes, List.length_flatMap, List.map_map]
    exact (Nat.zero_add _).symm
  | chord body callback =>
    simp [Call.graph, Composition.chord, Workflow.connect, Workflow.absorb, added, operands, Item.size,
      Nat.add_comm]
  | enqueue flow => simp [Call.graph, added, operands, Item.size]

/-! ## What a script keeps -/

theorem lookup_concat {names : List (Binding A)} {b b' : Binding A} {k : Nat} :
    (names ++ [b])[k]? = some b' ↔ names[k]? = some b' ∨ k = names.length ∧ b' = b := by
  rcases Nat.lt_trichotomy k names.length with hlt | rfl | hgt
  · rw [List.getElem?_append_left hlt]
    exact (or_iff_left fun h => Nat.ne_of_lt hlt h.1).symm
  · simp [eq_comm]
  · rw [List.getElem?_eq_none (by simp; omega), List.getElem?_eq_none (by omega)]
    simp
    omega

/-- Every name refers to an object, and the names that were passed are names. -/
structure Fits (s : Memory A) : Prop where
  object : ∀ {k : Nat} {b : Binding A}, s.names[k]? = some b → b.object < s.next
  given : ∀ k ∈ s.given, k < s.names.length

/-- A name that was not passed to `chord` has an object to itself, which is what it was to
be; the object of one that was has since got more nodes. -/
structure Inv (s : Memory A) : Prop extends Fits s where
  unspent : ∀ {k : Nat} {b : Binding A}, s.names[k]? = some b → k ∉ s.given → s.objects b.object = b.meant
  spent : ∀ {k : Nat} {b : Binding A}, s.names[k]? = some b → k ∈ s.given →
    b.meant.nodes.length < (s.objects b.object).nodes.length
  apart : ∀ {i j : Nat} {b b' : Binding A}, s.names[i]? = some b → s.names[j]? = some b' →
    i ∉ s.given → j ∉ s.given → b.object = b'.object → i = j

section
variable {s : Memory A}

theorem inv_empty : Inv (.empty : Memory A) where
  object h := by cases h
  given _ h := absurd h List.not_mem_nil
  unspent h := by cases h
  spent h := by cases h
  apart h := by cases h

theorem exists_binding {k : Nat} (h : k < s.names.length) : ∃ b, s.names[k]? = some b :=
  ⟨_, List.getElem?_eq_getElem h⟩

theorem fits_allocate (h : Fits s) (c : Call A) : Fits (s.allocate c) where
  object hb := by
    rcases lookup_concat.mp hb with hold | ⟨-, rfl⟩
    · exact Nat.lt_succ_of_lt (h.object hold)
    · exact Nat.lt_succ_self _
  given k hk := by
    rw [Memory.allocate, List.length_append]
    exact Nat.lt_succ_of_lt (h.given k hk)

theorem fits_extend (h : Fits s) (c : Call A) {k : Nat} {b : Binding A} (hb : s.names[k]? = some b) :
    Fits (s.extend c k b) where
  object hb' := by
    rcases lookup_concat.mp hb' with hold | ⟨-, rfl⟩
    · exact h.object hold
    · exact (h.object hb : b.object < s.next)
  given i hi := by
    rw [Memory.extend, List.length_append]
    refine Nat.lt_succ_of_lt ?_
    rcases List.mem_cons.mp hi with rfl | hold
    · exact (List.getElem?_eq_some_iff.mp hb).1
    · exact h.given i hold

/-- What a call can do. -/
theorem step_cases (s : Memory A) (c : Call A) :
    step s c = s ∧ ¬ c.Extends s ∨ c.Bound s ∧ step s c = s.allocate c ∧ ¬ c.Extends s ∨
      ∃ k callback b, c = .chord (.name k) callback ∧ s.names[k]? = some b ∧ c.Bound s ∧
        step s c = s.extend c k b := by
  by_cases hbound : c.Bound s
  · simp only [step, if_pos hbound]
    cases c with
    | workflow w => exact .inr (.inl ⟨hbound, rfl, not_false⟩)
    | chain steps => exact .inr (.inl ⟨hbound, rfl, not_false⟩)
    | group branches => exact .inr (.inl ⟨hbound, rfl, not_false⟩)
    | enqueue flow => exact .inl ⟨rfl, not_false⟩
    | chord body callback =>
      cases body with
      | signature sig => exact .inr (.inl ⟨hbound, rfl, not_false⟩)
      | name k =>
        obtain ⟨b, hb⟩ := exists_binding (hbound (.name k) List.mem_cons_self : k < s.names.length)
        refine .inr (.inr ⟨k, callback, b, rfl, hb, hbound, ?_⟩)
        simp only [Call.perform, hb]
  · refine .inl ⟨if_neg hbound, fun hextends => hbound ?_⟩
    cases c with
    | chord body callback =>
      cases body with
      | signature sig => exact hextends.elim
      | name k => exact List.forall_mem_singleton.mpr hextends
    | workflow w => exact hextends.elim
    | chain steps => exact hextends.elim
    | group branches => exact hextends.elim
    | enqueue flow => exact hextends.elim

theorem fits_step (s : Memory A) (c : Call A) (h : Fits s) : Fits (step s c) := by
  rcases step_cases s c with ⟨hstep, -⟩ | ⟨-, hstep, -⟩ | ⟨k, callback, b, -, hb, -, hstep⟩
  · rw [hstep]
    exact h
  · rw [hstep]
    exact fits_allocate h c
  · rw [hstep]
    exact fits_extend h c hb

/-! ## What a call reads -/

theorem held_of_unspent (h : Inv s) {o : Operand A} (hun : o.Unspent s) : s.held o = s.meant o := by
  cases o with
  | signature sig => rfl
  | name k =>
    simp only [Memory.held, Memory.meant, Memory.read]
    cases hb : s.names[k]? with
    | none => rfl
    | some b => exact congrArg Item.workflow (h.unspent hb hun)

theorem size_lt_of_spent (h : Inv s) {o : Operand A} (hspent : ¬ o.Unspent s) :
    (s.meant o).size < (s.held o).size := by
  cases o with
  | signature sig => exact absurd trivial hspent
  | name k =>
    have hk : k ∈ s.given := not_not.mp hspent
    obtain ⟨b, hb⟩ := exists_binding (h.given k hk)
    simp only [Memory.held, Memory.meant, Memory.read, hb, Option.elim_some]
    exact h.spent hb hk

theorem size_le (h : Inv s) (o : Operand A) : (s.meant o).size ≤ (s.held o).size := by
  by_cases hun : o.Unspent s
  · rw [held_of_unspent h hun]
  · exact Nat.le_of_lt (size_lt_of_spent h hun)

theorem graph_of_unspent (h : Inv s) {c : Call A} (hun : ∀ o ∈ c.operands, o.Unspent s) :
    c.graph s.held = c.graph s.meant := by
  have hread : ∀ o ∈ c.operands, s.held o = s.meant o := fun o ho => held_of_unspent h (hun o ho)
  cases c with
  | workflow w => rfl
  | chain steps => exact congrArg Composition.chain (List.map_congr_left hread)
  | group branches => exact congrArg Composition.group (List.map_congr_left hread)
  | chord body callback => exact congrArg (Composition.chord · callback) (hread body List.mem_cons_self)
  | enqueue flow => exact congrArg Item.asWorkflow (hread flow List.mem_cons_self)

/-- A name that was passed to `chord` adds nodes that were not meant. -/
theorem graph_ne_of_spent (h : Inv s) {c : Call A} (hspent : ∃ o ∈ c.operands, ¬ o.Unspent s) :
    c.graph s.held ≠ c.graph s.meant := by
  obtain ⟨o, ho, hspent⟩ := hspent
  have hlt : (c.operands.map fun o => (s.meant o).size).sum < (c.operands.map fun o => (s.held o).size).sum :=
    List.sum_lt_sum _ _ (fun o _ => size_le h o) ⟨o, ho, size_lt_of_spent h hspent⟩
  intro heq
  have hsize := congrArg (fun w : Workflow A => w.nodes.length) heq
  simp only [Call.size_graph] at hsize
  omega

theorem yields_iff (h : Inv s) (c : Call A) : Yields s c ↔ Unspent s c := by
  refine imp_congr_right fun _ => ⟨fun heq => ?_, graph_of_unspent h⟩
  by_contra hspent
  push Not at hspent
  exact graph_ne_of_spent h hspent heq

/-! ## What a call writes -/

theorem inv_allocate (h : Inv s) {c : Call A} (hun : ∀ o ∈ c.operands, o.Unspent s) : Inv (s.allocate c) where
  toFits := fits_allocate h.toFits c
  unspent hb hk := by
    rcases lookup_concat.mp hb with hold | ⟨-, rfl⟩
    · rw [Memory.allocate_objects (h.object hold)]
      exact h.unspent hold hk
    · exact Memory.allocate_next.trans (graph_of_unspent h hun)
  spent hb hk := by
    rcases lookup_concat.mp hb with hold | ⟨rfl, rfl⟩
    · rw [Memory.allocate_objects (h.object hold)]
      exact h.spent hold hk
    · exact absurd (h.given _ hk) (Nat.lt_irrefl _)
  apart hi hj hki hkj hsame := by
    rcases lookup_concat.mp hi with hiold | ⟨rfl, rfl⟩ <;>
      rcases lookup_concat.mp hj with hjold | ⟨rfl, rfl⟩
    · exact h.apart hiold hjold hki hkj hsame
    · exact absurd hsame (Nat.ne_of_lt (h.object hiold))
    · exact absurd hsame (Nat.ne_of_gt (h.object hjold))
    · rfl

/-- The chord takes the object over from the name that was passed, which nobody else has. -/
theorem inv_extend (h : Inv s) {c : Call A} {k : Nat} {b : Binding A} (hb : s.names[k]? = some b)
    (hk : k ∉ s.given) (hun : ∀ o ∈ c.operands, o.Unspent s)
    (hmore : (s.objects b.object).nodes.length < (c.graph s.held).nodes.length) : Inv (s.extend c k b) where
  toFits := fits_extend h.toFits c hb
  unspent {i bi} hi hki := by
    obtain ⟨hik, hki⟩ := not_or.mp (fun hor => hki (List.mem_cons.mpr hor))
    rcases lookup_concat.mp hi with hold | ⟨-, rfl⟩
    · have hother : bi.object ≠ b.object := fun hsame => hik (h.apart hold hb hki hk hsame)
      rw [Memory.extend_objects hother]
      exact h.unspent hold hki
    · exact Memory.extend_self.trans (graph_of_unspent h hun)
  spent {i bi} hi hki := by
    rcases lookup_concat.mp hi with hold | ⟨rfl, rfl⟩
    · -- the object has got more nodes than it had, if it is this one
      have hhad : bi.meant.nodes.length ≤ (s.objects bi.object).nodes.length := by
        rcases List.mem_cons.mp hki with rfl | hgiven
        · exact Nat.le_of_eq (congrArg (fun w : Workflow A => w.nodes.length) (h.unspent hold hk).symm)
        · exact Nat.le_of_lt (h.spent hold hgiven)
      by_cases hsame : bi.object = b.object
      · rw [hsame, Memory.extend_self]
        rw [hsame] at hhad
        exact Nat.lt_of_le_of_lt hhad hmore
      · rw [Memory.extend_objects hsame]
        rcases List.mem_cons.mp hki with rfl | hgiven
        · exact absurd (Option.some.inj (hold.symm.trans hb)) fun heq => hsame (congrArg Binding.object heq)
        · exact h.spent hold hgiven
    · rcases List.mem_cons.mp hki with heq | hgiven
      · exact absurd (List.getElem?_eq_some_iff.mp hb).1 (heq ▸ Nat.lt_irrefl _)
      · exact absurd (h.given _ hgiven) (Nat.lt_irrefl _)
  apart {i j bi bj} hi hj hki hkj hsame := by
    obtain ⟨hik, hki⟩ := not_or.mp (fun hor => hki (List.mem_cons.mpr hor))
    obtain ⟨hjk, hkj⟩ := not_or.mp (fun hor => hkj (List.mem_cons.mpr hor))
    rcases lookup_concat.mp hi with hiold | ⟨rfl, rfl⟩ <;>
      rcases lookup_concat.mp hj with hjold | ⟨rfl, rfl⟩
    · exact h.apart hiold hjold hki hkj hsame
    · exact absurd (h.apart hiold hb hki hk hsame) hik
    · exact absurd (h.apart hjold hb hkj hk hsame.symm) hjk
    · rfl

/-- A chord has more nodes than its body. -/
theorem size_chord {k : Nat} {b : Binding A} (hb : s.names[k]? = some b) (callback : Signature A) :
    (s.objects b.object).nodes.length < ((Call.chord (.name k) callback).graph s.held).nodes.length := by
  rw [Call.size_graph]
  simp only [Call.added, Call.operands, List.map_cons, List.map_nil, List.sum_cons, List.sum_nil,
    Memory.held, Memory.read, hb, Option.elim_some, Item.size, Item.asWorkflow]
  omega

theorem inv_step (s : Memory A) (c : Call A) (h : Inv s) (hun : Unspent s c) : Inv (step s c) := by
  rcases step_cases s c with ⟨hstep, -⟩ | ⟨hbound, hstep, -⟩ | ⟨k, callback, b, rfl, hb, hbound, hstep⟩
  · rw [hstep]
    exact h
  · rw [hstep]
    exact inv_allocate h (hun hbound)
  · rw [hstep]
    have hk : k ∉ s.given := hun hbound (.name k) List.mem_cons_self
    exact inv_extend h hb hk (hun hbound) (size_chord hb callback)

theorem along_yields_iff : ∀ {s : Memory A} (calls : List (Call A)), Inv s →
    (Along step Yields s calls ↔ Along step Unspent s calls)
  | _, [], _ => Iff.rfl
  | s, c :: calls, h => by
    unfold Along
    rw [yields_iff h]
    exact and_congr_right fun hun => along_yields_iff calls (inv_step s c h hun)

/-- Only a chord with a workflow for its body writes to an object that was there. -/
theorem leaves_iff (h : Fits s) (c : Call A) : Leaves s c ↔ ¬ c.Extends s := by
  unfold Leaves
  rcases step_cases s c with ⟨hstep, hnot⟩ | ⟨-, hstep, hnot⟩ | ⟨k, callback, b, rfl, hb, -, hstep⟩
  · rw [hstep]
    exact iff_of_true (fun _ _ => rfl) hnot
  · rw [hstep]
    exact iff_of_true (fun _ => Memory.allocate_objects) hnot
  · rw [hstep]
    refine iff_of_false (fun hleaves => ?_) fun hnot => hnot (List.getElem?_eq_some_iff.mp hb).1
    have hsame := hleaves b.object (h.object hb)
    rw [Memory.extend_self] at hsame
    have hmore := size_chord hb callback
    rw [hsame] at hmore
    exact Nat.lt_irrefl _ hmore
end

/-- **A chord takes its body over.** A call leaves every workflow that was there as it was
exactly if it is no chord with a workflow for its body; and every call of a script,
be it a constructor or `enqueue`, is about the graph it was to be about exactly if no
call names a workflow that was passed to `chord` before. -/
theorem chord_takes_body_over (calls : List (Call A)) :
    (∀ c, Leaves (after calls) c ↔ ¬ c.Extends (after calls)) ∧
      (Along step Yields .empty calls ↔ Along step Unspent .empty calls) :=
  ⟨fun c => leaves_iff (run_inv fits_step calls inv_empty.toFits) c, along_yields_iff calls inv_empty⟩

/-- Two chords over one group. -/
def twoChords : List (Call Unit) :=
  [.group [.signature stepA, .signature stepB], .chord (.name 0) stepC]

/-- The second callback also waits for the first one, as would a step that is chained to the
group; `enqueue` of the group inserts the first callback, too. -/
theorem second_chord_awaits_first :
    ((Call.chord (.name 0) stepC).graph (after twoChords).held).edges = {(0, 2), (1, 2), (2, 3)} ∧
      ((Call.chord (.name 0) stepC).graph (after twoChords).meant).edges = {(0, 2), (1, 2)} ∧
      ((Call.chain [.name 0, .signature stepC]).graph (after twoChords).held).edges =
        {(0, 2), (1, 2), (2, 3)} ∧
      ((Call.chain [.name 0, .signature stepC]).graph (after twoChords).meant).edges = {(0, 2), (1, 2)} ∧
      ((Call.enqueue (.name 0)).graph (after twoChords).held).nodes.length = 3 ∧
      ((Call.enqueue (.name 0)).graph (after twoChords).meant).nodes.length = 2 ∧
      ¬ Leaves (after (twoChords.take 1)) (.chord (.name 0) stepC) := by
  refine ⟨by decide, by decide, by decide, by decide, rfl, rfl, fun hleaves => ?_⟩
  have hsame := hleaves 0 (by decide)
  exact absurd (congrArg Workflow.edges hsame) (by decide)

end Gylo.Client.Objects
