import Gylo.Lib.Lines
import Mathlib

/-! # The keys of a namespace

Two deployments share a server under two namespaces, and a namespace is any text: it
may have colons in it, and one may be the beginning of another. Every key is the
namespace, a colon and a name, or the namespace, `:ready:` and a number. The name and
the number have no colon, so what stands after the last one tells the kind of a key,
and what stands before it the namespace. -/
namespace Gylo.Redis

/-- `Keys` -/
structure Keys where
  namespaceName : String
  leased : String
  payload : String
  attempt : String
deriving DecidableEq

def Keys.new (namespaceName : String) : Keys where
  namespaceName := namespaceName
  leased := namespaceName ++ ":leased"
  payload := namespaceName ++ ":payload"
  attempt := namespaceName ++ ":attempt"

def Keys.ready (keys : Keys) (level : Int) : String :=
  keys.namespaceName ++ ":ready:" ++ toString level

/-- The key `CLAIM` puts together from the namespace it is given; Lua writes its loop
counter as a decimal number. -/
def claimReady (namespaceName : String) (level : Nat) : String :=
  namespaceName ++ ":ready:" ++ toString level

theorem claimReady_eq (n : String) (level : Nat) : claimReady n level = (Keys.new n).ready level := rfl

/-- What a key is for. -/
inductive Slot where
  | leased
  | payload
  | attempt
  | ready (level : Int)
deriving DecidableEq

def Keys.key (keys : Keys) : Slot → String
  | .leased => keys.leased
  | .payload => keys.payload
  | .attempt => keys.attempt
  | .ready level => keys.ready level

/-! ## The last field of a key -/

/-- What stands before the last colon, after the namespace. -/
def Slot.middle : Slot → String
  | .leased | .payload | .attempt => ""
  | .ready _ => ":ready"

def Slot.field : Slot → String
  | .leased => "leased"
  | .payload => "payload"
  | .attempt => "attempt"
  | .ready level => toString level

theorem Keys.toList_key (n : String) (slot : Slot) :
    ((Keys.new n).key slot).toList = (n.toList ++ slot.middle.toList) ++ ':' :: slot.field.toList := by
  cases slot with
  | leased => simp [Keys.key, Keys.new, Slot.middle, Slot.field]
  | payload => simp [Keys.key, Keys.new, Slot.middle, Slot.field]
  | attempt => simp [Keys.key, Keys.new, Slot.middle, Slot.field]
  | ready level => simp [Keys.key, Keys.ready, Keys.new, Slot.middle, Slot.field]

/-- A level is written with digits and a sign. -/
theorem mem_level {level : Int} {c : Char} (h : c ∈ (toString level).toList) :
    c.isDigit = true ∨ c = '-' := by
  have hdigit : ∀ {m : Nat}, c ∈ m.repr.toList → c.isDigit = true := by
    intro m hm
    rw [Nat.toList_repr] at hm
    exact Nat.isDigit_of_mem_toDigits (by decide) (by decide) hm
  cases level with
  | ofNat m => exact .inl (hdigit h)
  | negSucc m =>
    replace h : c ∈ ("-" ++ m.succ.repr).toList := h
    rw [String.toList_append, List.mem_append] at h
    rcases h with h | h
    · exact .inr (List.mem_singleton.mp h)
    · exact .inl (hdigit h)

theorem Slot.colon_notMem_field (slot : Slot) : ':' ∉ slot.field.toList := by
  cases slot with
  | leased => decide
  | payload => decide
  | attempt => decide
  | ready level =>
    intro h
    rcases mem_level h with hdigit | hsign
    · exact absurd hdigit (by decide)
    · exact absurd hsign (by decide)

/-- No number is written as a name. -/
theorem Slot.level_ne {level : Int} {name : String} (h : 'a' ∈ name.toList) : toString level ≠ name := by
  intro heq
  rw [← heq] at h
  rcases mem_level h with hdigit | hsign
  · exact absurd hdigit (by decide)
  · exact absurd hsign (by decide)

theorem Slot.field_injective : Function.Injective Slot.field := by
  intro a b h
  cases a with
  | ready level =>
    cases b with
    | ready level' => rw [Int.repr_injective h]
    | leased | payload | attempt => exact absurd h (Slot.level_ne (by decide))
  | leased | payload | attempt =>
    cases b with
    | ready level => exact absurd h.symm (Slot.level_ne (by decide))
    | leased | payload | attempt =>
      revert h
      decide

/-- **A key tells its namespace and what it is for.** -/
theorem Keys.key_inj {n n' : String} {a b : Slot} (h : (Keys.new n).key a = (Keys.new n').key b) :
    n = n' ∧ a = b := by
  have hlists := congrArg String.toList h
  rw [Keys.toList_key, Keys.toList_key] at hlists
  -- the field is read first: it does not depend on the namespace, which may have colons
  obtain ⟨hstem, hfield⟩ := Lines.append_sep_inj a.colon_notMem_field b.colon_notMem_field hlists
  have hslot : a = b := Slot.field_injective (String.toList_inj.mp hfield)
  rw [hslot] at hstem
  exact ⟨String.toList_inj.mp (List.append_cancel_right hstem), hslot⟩

/-! ## Namespaces do not overlap -/

/-- A key made under a namespace: formatted in Rust, or concatenated by the script. -/
inductive Keys.Built (n : String) : String → Prop where
  | formatted (slot : Slot) : Built n ((Keys.new n).key slot)
  | concatenated (level : Nat) : Built n (claimReady n level)

/-- All of them. -/
def Keys.under (n : String) : Set String := {key | Keys.Built n key}

theorem Keys.Built.exists_slot {n key : String} (h : Keys.Built n key) :
    ∃ slot, key = (Keys.new n).key slot := by
  cases h with
  | formatted slot => exact ⟨slot, rfl⟩
  | concatenated level => exact ⟨.ready level, claimReady_eq n level⟩

theorem Keys.eq_of_built {n n' key : String} (h : Keys.Built n key) (h' : Keys.Built n' key) : n = n' := by
  obtain ⟨slot, hkey⟩ := h.exists_slot
  obtain ⟨slot', hkey'⟩ := h'.exists_slot
  exact (Keys.key_inj (hkey.symm.trans hkey')).1

theorem Keys.notMem_under {n n' : String} (h : n ≠ n') : ∀ key ∈ Keys.under n, key ∉ Keys.under n' :=
  fun _ hkey hkey' => h (Keys.eq_of_built hkey hkey')

end Gylo.Redis
