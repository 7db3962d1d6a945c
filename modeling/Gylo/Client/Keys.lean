import Gylo.Client.Enqueue
import Gylo.Lib.Values
import Mathlib.Data.List.Sort
import Mathlib.Data.String.Basic

/-! # The key of a call

With `unique=True` a job is told from others by a digest of its task, queue and arguments.
The encoder writes a dictionary in the order it was filled, so `_unique_key` sorts the
keyword arguments; a dictionary inside an argument is encoded as it is. -/
namespace Gylo.Client.Keys

open Gylo.Store Values

/-! ## The key -/

/-- The arguments of a call, as values. No keyword is given twice and no dictionary has a
key twice. -/
structure Arguments where
  args : List Value
  kwargs : List (String × Value)
  names : (kwargs.map Prod.fst).Nodup
  args_proper : AllProper args
  kwargs_proper : ∀ item ∈ kwargs, item.2.Proper

/-- `_encode` and `hashlib.blake2b`: values are told apart by their bytes, and there are no
collisions. -/
structure Digest where
  encode : Value → Bytes
  encode_injective : Function.Injective encode
  blake2b : Bytes → Bytes
  blake2b_injective : Function.Injective blake2b

/-- Tuples are ordered by what stands first, and no two names are equal. -/
def Before (a b : String × Value) : Prop := a.1 ≤ b.1

instance : DecidableRel Before := fun a b => inferInstanceAs (Decidable (a.1 ≤ b.1))

instance : Std.Total Before := ⟨fun a b => le_total a.1 b.1⟩

instance : IsTrans (String × Value) Before := ⟨fun _ _ _ => le_trans⟩

/-- `sorted(kwargs.items())` -/
def sortedItems (kwargs : List (String × Value)) : List (String × Value) := kwargs.insertionSort Before

def item (item : String × Value) : Value := .array [.str item.1, item.2]

/-- What identifies a call among those of its task and queue. -/
def identity (options : Options) (call : Arguments) : Value :=
  match options.unique with
  | .key text => .str text
  | _ => .array [.array call.args, .array ((sortedItems call.kwargs).map item)]

/-- `_unique_key` -/
def uniqueKey (digest : Digest) (task : String) (options : Options) (call : Arguments) : Bytes :=
  digest.blake2b (digest.encode (.array [.str task, .str options.queue, identity options call]))

/-- The encoder of the calls: `_row` encodes the arguments with their keywords as they are. -/
def encoder (digest : Digest) : Encoder Arguments where
  encode call := some (digest.encode
    (.array [.array call.args, .map (call.kwargs.map fun item => (.str item.1, item.2))]))
  uniqueKey task options call := some (uniqueKey digest task options call)

/-! ## The same call -/

/-- The same keywords with the same values, in any order. -/
def SameKwargs (kwargs kwargs' : List (String × Value)) : Prop :=
  ∃ reordered, List.Forall₂ (fun a b => a.1 = b.1 ∧ Same a.2 b.2) kwargs reordered ∧ reordered.Perm kwargs'

namespace Arguments

structure Same (a b : Arguments) : Prop where
  args : SameAll a.args b.args
  kwargs : SameKwargs a.kwargs b.kwargs

/-- No dictionary inside an argument has more than one entry. -/
structure Flat (a : Arguments) : Prop where
  args : AllFlat a.args
  kwargs : ∀ item ∈ a.kwargs, item.2.Flat

end Arguments

section
variable {digest : Digest} {task task' : String} {options options' : Options} {a b : Arguments}

theorem uniqueKey_eq_iff : uniqueKey digest task options a = uniqueKey digest task' options' b ↔
    task = task' ∧ options.queue = options'.queue ∧ identity options a = identity options' b := by
  unfold uniqueKey
  rw [digest.blake2b_injective.eq_iff, digest.encode_injective.eq_iff]
  simp

theorem item_injective : Function.Injective item := by
  intro x y h
  simp only [item, Value.array.injEq, List.cons.injEq, Value.str.injEq, and_true] at h
  exact Prod.ext h.1 h.2

theorem perm_sortedItems (kwargs : List (String × Value)) : (sortedItems kwargs).Perm kwargs :=
  List.perm_insertionSort Before kwargs

theorem eq_of_name {kwargs : List (String × Value)} (h : (kwargs.map Prod.fst).Nodup) {x y : String × Value}
    (hx : x ∈ kwargs) (hy : y ∈ kwargs) (hname : x.1 = y.1) : x = y :=
  List.inj_on_of_nodup_map h hx hy hname

/-- Sorting takes away the order and nothing else. -/
theorem sortedItems_eq_iff {kwargs kwargs' : List (String × Value)} (h : (kwargs.map Prod.fst).Nodup) :
    sortedItems kwargs = sortedItems kwargs' ↔ kwargs.Perm kwargs' := by
  constructor
  · intro heq
    exact (perm_sortedItems kwargs).symm.trans (heq ▸ perm_sortedItems kwargs')
  · intro hperm
    have hsorted := ((perm_sortedItems kwargs).trans hperm).trans (perm_sortedItems kwargs').symm
    refine List.Perm.eq_of_pairwise ?_ (List.pairwise_insertionSort Before _)
      (List.pairwise_insertionSort Before _) hsorted
    intro x y hx hy hxy hyx
    refine eq_of_name h ((perm_sortedItems kwargs).mem_iff.mp hx) ?_ (le_antisymm hxy hyx)
    exact hperm.mem_iff.mpr ((perm_sortedItems kwargs').mem_iff.mp hy)

theorem identity_eq_iff (ha : options.unique = .arguments) (hb : options'.unique = .arguments) :
    identity options a = identity options' b ↔ a.args = b.args ∧ a.kwargs.Perm b.kwargs := by
  unfold identity
  rw [ha, hb]
  simp only [Value.array.injEq, List.cons.injEq, and_true]
  rw [(List.map_injective_iff.mpr item_injective).eq_iff, sortedItems_eq_iff a.names]

theorem eq_of_flat_items {kwargs kwargs' : List (String × Value)}
    (h : List.Forall₂ (fun x y => x.1 = y.1 ∧ Same x.2 y.2) kwargs kwargs') :
    (∀ item ∈ kwargs, item.2.Flat) → kwargs = kwargs' := by
  induction h with
  | nil => exact fun _ => rfl
  | cons hitem _ ih =>
    intro hflat
    obtain ⟨hfirst, hrest⟩ := List.forall_mem_cons.mp hflat
    rw [ih hrest, Prod.ext hitem.1 (hitem.2.eq_of_flat hfirst)]

/-- What is flat can be the same in the order of the keywords only. -/
theorem same_iff_of_flat (h : a.Flat) : a.Same b ↔ a.args = b.args ∧ a.kwargs.Perm b.kwargs := by
  constructor
  · intro hsame
    obtain ⟨reordered, hitems, hperm⟩ := hsame.kwargs
    rw [eq_of_flat_items hitems h.kwargs]
    exact ⟨hsame.args.eq_of_flat h.args, hperm⟩
  · intro ⟨hargs, hperm⟩
    exact ⟨hargs ▸ SameAll.refl _, a.kwargs, List.forall₂_same.mpr fun _ _ => ⟨rfl, .refl _⟩, hperm⟩

/-- The value of one keyword in another order. -/
def Arguments.replace (a : Arguments) (name : String) (v : Value) (hv : v.Proper) : Arguments where
  args := a.args
  kwargs := a.kwargs.map fun item => if item.1 = name then (name, v) else item
  names := by
    have hnames : ∀ item : String × Value, (if item.1 = name then (name, v) else item).1 = item.1 := by
      intro item
      split
      next h => exact h.symm
      next => rfl
    have hfst : (Prod.fst ∘ fun item : String × Value => if item.1 = name then (name, v) else item) = Prod.fst :=
      funext hnames
    rw [List.map_map, hfst]
    exact a.names
  args_proper := a.args_proper
  kwargs_proper := by
    intro item hitem
    obtain ⟨source, hsource, rfl⟩ := List.mem_map.mp hitem
    split
    next => exact hv
    next => exact a.kwargs_proper source hsource

/-- What is not flat is the same as another call that is encoded otherwise. -/
theorem exists_other (h : ¬ a.Flat) :
    ∃ b : Arguments, a.Same b ∧ ¬ (a.args = b.args ∧ a.kwargs.Perm b.kwargs) := by
  by_cases hargs : AllFlat a.args
  · have hitem : ∃ item ∈ a.kwargs, ¬ item.2.Flat := by
      by_contra hall
      push Not at hall
      exact h ⟨hargs, hall⟩
    obtain ⟨item, hitem, hflat⟩ := hitem
    obtain ⟨v, hv, hsame, hne⟩ := exists_reordered (a.kwargs_proper item hitem) hflat
    refine ⟨a.replace item.1 v hv, ⟨SameAll.refl _, _, ?_, List.Perm.refl _⟩, fun hequal => ?_⟩
    · refine List.forall₂_map_right_iff.mpr (List.forall₂_same.mpr fun x hx => ?_)
      split
      next hname =>
        obtain rfl := eq_of_name a.names hx hitem hname
        exact ⟨rfl, hsame⟩
      next => exact ⟨rfl, .refl _⟩
    · have hnew : (item.1, v) ∈ (a.replace item.1 v hv).kwargs :=
        List.mem_map.mpr ⟨item, hitem, if_pos rfl⟩
      have hold := eq_of_name a.names hitem (hequal.2.mem_iff.mpr hnew) rfl
      exact hne (congrArg Prod.snd hold)
  · obtain ⟨args, hproper, hsame, hne⟩ := exists_reordered_all a.args_proper hargs
    refine ⟨{ a with args := args, args_proper := hproper }, ⟨hsame, ?_⟩, fun hequal => hne hequal.1⟩
    exact ⟨a.kwargs, List.forall₂_same.mpr fun _ _ => ⟨rfl, .refl _⟩, List.Perm.refl _⟩
end

/-- **The key identifies the call exactly if no dictionary inside an argument has more than
one entry.** Otherwise there is a call that is the same and has another key. A text that
is given as the key is told from every other by itself, the task and the queue, and from
every key made of arguments. -/
theorem unique_key_identifies (digest : Digest) :
    (∀ (task : String) (options : Options) (a : Arguments), options.unique = .arguments →
      ((∀ (task' : String) (options' : Options) (b : Arguments), options'.unique = .arguments →
        (uniqueKey digest task options a = uniqueKey digest task' options' b ↔
          task = task' ∧ options.queue = options'.queue ∧ a.Same b)) ↔ a.Flat)) ∧
      (∀ (task task' : String) (options options' : Options) (a b : Arguments) (text text' : String),
        options.unique = .key text → options'.unique = .key text' →
        (uniqueKey digest task options a = uniqueKey digest task' options' b ↔
          task = task' ∧ options.queue = options'.queue ∧ text = text')) ∧
      ∀ (task task' : String) (options options' : Options) (a b : Arguments) (text : String),
        options.unique = .key text → options'.unique = .arguments →
        uniqueKey digest task options a ≠ uniqueKey digest task' options' b := by
  refine ⟨fun task options a ha => ⟨fun hall => ?_, fun hflat => ?_⟩, ?_, ?_⟩
  · by_contra hflat
    obtain ⟨b, hsame, hother⟩ := exists_other hflat
    have hkey := (hall task options b ha).mpr ⟨rfl, rfl, hsame⟩
    rw [uniqueKey_eq_iff, identity_eq_iff ha ha] at hkey
    exact hother hkey.2.2
  · intro task' options' b hb
    rw [uniqueKey_eq_iff, identity_eq_iff ha hb, same_iff_of_flat hflat]
  · intro task task' options options' a b text text' ha hb
    rw [uniqueKey_eq_iff]
    simp only [identity, ha, hb, Value.str.injEq]
  · intro task task' options options' a b text ha hb hkey
    have hidentity := (uniqueKey_eq_iff.mp hkey).2.2
    simp only [identity, ha, hb] at hidentity
    cases hidentity

/-- A digest without collisions, if a long one. -/
def spelled : Digest := ⟨Value.unary, unary_injective, id, Function.injective_id⟩

/-- One positional argument. -/
def given (v : Value) (hv : v.Proper) : Arguments := ⟨[v], [], List.nodup_nil, ⟨hv, trivial⟩, by simp⟩

/-- `{"host": "a", "port": 1}` -/
def address : Value := .map [(.str "host", .str "a"), (.str "port", .int 1)]

/-- `{"port": 1, "host": "a"}` -/
def addressBack : Value := .map [(.str "port", .int 1), (.str "host", .str "a")]

theorem address_proper : address.Proper := by simp [address, Value.Proper, EntriesProper]

theorem addressBack_proper : addressBack.Proper := by simp [addressBack, Value.Proper, EntriesProper]

/-- The same dictionary, filled in another order, makes another key. -/
theorem reordered_dictionary_other_key :
    (given address address_proper).Same (given addressBack addressBack_proper) ∧
      uniqueKey spelled "index.rebuild" { unique := .arguments } (given address address_proper) ≠
        uniqueKey spelled "index.rebuild" { unique := .arguments } (given addressBack addressBack_proper) := by
  have hswap : Same address addressBack := .map (.refl _) (.swap _ _ _)
  refine ⟨⟨.cons hswap .nil, [], .nil, List.Perm.refl _⟩, fun hkey => ?_⟩
  rw [uniqueKey_eq_iff, identity_eq_iff rfl rfl] at hkey
  simp [given, address, addressBack] at hkey

end Gylo.Client.Keys
