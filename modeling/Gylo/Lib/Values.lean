import Mathlib.Data.List.Perm.Basic
import Mathlib.Logic.Equiv.List

/-! # Values with maps in them

The values of a self-describing format, as an encoder sees them: the entries of a map stand
in some order. Two values are the same if they differ in the order of such entries only,
at any depth. A value whose maps have one entry at most is the same as no other; one that
has a longer map can be written in another order. -/
namespace Values

inductive Value where
  | nil
  | bool (b : Bool)
  | int (x : Int)
  | float (bits : UInt64)
  | str (text : String)
  | bin (bytes : List UInt8)
  | array (items : List Value)
  | map (entries : List (Value × Value))

mutual
/-- Equal up to the order of the entries of maps. -/
inductive Same : Value → Value → Prop
  | refl (v : Value) : Same v v
  | array {items items' : List Value} (h : SameAll items items') : Same (.array items) (.array items')
  | map {entries entries' reordered : List (Value × Value)} (h : SameEntries entries reordered)
    (hperm : reordered.Perm entries') : Same (.map entries) (.map entries')

inductive SameAll : List Value → List Value → Prop
  | nil : SameAll [] []
  | cons {v v' : Value} {vs vs' : List Value} (h : Same v v') (hs : SameAll vs vs') :
    SameAll (v :: vs) (v' :: vs')

inductive SameEntries : List (Value × Value) → List (Value × Value) → Prop
  | nil : SameEntries [] []
  | cons {k k' v v' : Value} {es es' : List (Value × Value)} (hk : Same k k') (hv : Same v v')
    (hs : SameEntries es es') : SameEntries ((k, v) :: es) ((k', v') :: es')
end

mutual
/-- No map has a key twice. -/
def Value.Proper : Value → Prop
  | .array items => AllProper items
  | .map entries => (entries.map Prod.fst).Nodup ∧ EntriesProper entries
  | _ => True

def AllProper : List Value → Prop
  | [] => True
  | v :: vs => v.Proper ∧ AllProper vs

def EntriesProper : List (Value × Value) → Prop
  | [] => True
  | (k, v) :: es => k.Proper ∧ v.Proper ∧ EntriesProper es
end

mutual
/-- No map has more than one entry. -/
def Value.Flat : Value → Prop
  | .array items => AllFlat items
  | .map entries => entries.length ≤ 1 ∧ EntriesFlat entries
  | _ => True

def AllFlat : List Value → Prop
  | [] => True
  | v :: vs => v.Flat ∧ AllFlat vs

def EntriesFlat : List (Value × Value) → Prop
  | [] => True
  | (k, v) :: es => k.Flat ∧ v.Flat ∧ EntriesFlat es
end

/-! ## Values that are the same -/

theorem SameAll.refl : ∀ vs : List Value, SameAll vs vs
  | [] => .nil
  | v :: vs => .cons (.refl v) (SameAll.refl vs)

theorem SameEntries.refl : ∀ es : List (Value × Value), SameEntries es es
  | [] => .nil
  | (k, v) :: es => .cons (.refl k) (.refl v) (SameEntries.refl es)

theorem eq_of_perm_of_length {α : Type} {as bs : List α} (h : as.Perm bs) (hlength : as.length ≤ 1) :
    as = bs := by
  match as, hlength with
  | [], _ => exact h.nil_eq
  | [a], _ => exact h.singleton_eq

mutual
theorem Same.eq_of_flat : ∀ {v w : Value}, Same v w → v.Flat → v = w
  | _, _, .refl _, _ => rfl
  | _, _, .array h, hflat => by
    unfold Value.Flat at hflat
    exact congrArg Value.array (SameAll.eq_of_flat h hflat)
  | _, _, .map h hperm, hflat => by
    unfold Value.Flat at hflat
    obtain ⟨hlength, hflat⟩ := hflat
    obtain rfl := SameEntries.eq_of_flat h hflat
    exact congrArg Value.map (eq_of_perm_of_length hperm hlength)

theorem SameAll.eq_of_flat : ∀ {vs ws : List Value}, SameAll vs ws → AllFlat vs → vs = ws
  | _, _, .nil, _ => rfl
  | _, _, .cons h hs, hflat => by
    obtain ⟨hv, hvs⟩ := hflat
    rw [Same.eq_of_flat h hv, SameAll.eq_of_flat hs hvs]

theorem SameEntries.eq_of_flat : ∀ {es fs : List (Value × Value)}, SameEntries es fs → EntriesFlat es → es = fs
  | _, _, .nil, _ => rfl
  | _, _, .cons hk hv hs, hflat => by
    obtain ⟨hfk, hfv, hfs⟩ := hflat
    rw [Same.eq_of_flat hk hfk, Same.eq_of_flat hv hfv, SameEntries.eq_of_flat hs hfs]
end

mutual
/-- A value that is not flat can be written in another order. -/
theorem exists_reordered : ∀ {v : Value}, v.Proper → ¬ v.Flat → ∃ w : Value, w.Proper ∧ Same v w ∧ v ≠ w
  | .nil, _, h => absurd trivial h
  | .bool _, _, h => absurd trivial h
  | .int _, _, h => absurd trivial h
  | .float _, _, h => absurd trivial h
  | .str _, _, h => absurd trivial h
  | .bin _, _, h => absurd trivial h
  | .array items, hproper, h => by
    unfold Value.Proper at hproper
    unfold Value.Flat at h
    obtain ⟨items', hproper', hsame, hne⟩ := exists_reordered_all hproper h
    refine ⟨.array items', ?_, .array hsame, fun heq => hne (Value.array.inj heq)⟩
    unfold Value.Proper
    exact hproper'
  | .map [], _, h => by
    unfold Value.Flat EntriesFlat at h
    exact absurd ⟨Nat.zero_le _, trivial⟩ h
  | .map [(k, v)], hproper, h => by
    unfold Value.Proper EntriesProper at hproper
    obtain ⟨-, hk, hv, -⟩ := hproper
    -- the key or its value is not flat
    have hentry : ∃ k' v' : Value, k'.Proper ∧ v'.Proper ∧ Same k k' ∧ Same v v' ∧ (k, v) ≠ (k', v') := by
      by_cases hfk : k.Flat
      · have hfv : ¬ v.Flat := by
          intro hfv
          refine h ?_
          unfold Value.Flat EntriesFlat EntriesFlat
          exact ⟨Nat.le_refl _, hfk, hfv, trivial⟩
        obtain ⟨v', hv', hsame, hne⟩ := exists_reordered hv hfv
        exact ⟨k, v', hk, hv', .refl k, hsame, fun heq => hne (congrArg Prod.snd heq)⟩
      · obtain ⟨k', hk', hsame, hne⟩ := exists_reordered hk hfk
        exact ⟨k', v, hk', hv, hsame, .refl v, fun heq => hne (congrArg Prod.fst heq)⟩
    obtain ⟨k', v', hk', hv', hkey, hvalue, hne⟩ := hentry
    refine ⟨.map [(k', v')], ?_, .map (.cons hkey hvalue .nil) (List.Perm.refl _), fun heq => ?_⟩
    · unfold Value.Proper EntriesProper EntriesProper
      exact ⟨List.nodup_singleton _, hk', hv', trivial⟩
    · cases heq
      exact hne rfl
  | .map ((k, v) :: (k', v') :: es), hproper, _ => by
    -- the first two entries change places
    unfold Value.Proper EntriesProper EntriesProper at hproper
    obtain ⟨hnodup, hk, hv, hk', hv', hes⟩ := hproper
    have hswap : ((k, v) :: (k', v') :: es).Perm ((k', v') :: (k, v) :: es) := .swap _ _ _
    refine ⟨.map ((k', v') :: (k, v) :: es), ?_, .map (.refl _) hswap, ?_⟩
    · unfold Value.Proper EntriesProper EntriesProper
      exact ⟨(hswap.map Prod.fst).nodup_iff.mp hnodup, hk', hv', hk, hv, hes⟩
    · intro heq
      cases heq
      exact absurd List.mem_cons_self (List.nodup_cons.mp hnodup).1

theorem exists_reordered_all : ∀ {vs : List Value}, AllProper vs → ¬ AllFlat vs →
    ∃ ws, AllProper ws ∧ SameAll vs ws ∧ vs ≠ ws
  | [], _, h => absurd trivial h
  | v :: vs, hproper, h => by
    obtain ⟨hv, hvs⟩ := hproper
    by_cases hflat : v.Flat
    · have hrest : ¬ AllFlat vs := fun hrest => h ⟨hflat, hrest⟩
      obtain ⟨ws, hws, hsame, hne⟩ := exists_reordered_all hvs hrest
      exact ⟨v :: ws, ⟨hv, hws⟩, .cons (.refl v) hsame, fun heq => hne (List.cons.inj heq).2⟩
    · obtain ⟨w, hw, hsame, hne⟩ := exists_reordered hv hflat
      exact ⟨w :: vs, ⟨hw, hvs⟩, .cons hsame (.refl vs), fun heq => hne (List.cons.inj heq).1⟩
end

/-! ## An encoding -/

mutual
/-- A value as numbers: a tag, and then a scalar or the length of what follows. -/
def Value.tokens : Value → List Nat
  | .nil => [0]
  | .bool b => [1, Encodable.encode b]
  | .int x => [2, Encodable.encode x]
  | .float bits => [3, bits.toNat]
  | .str text => [4, Encodable.encode (text.toList.map Char.toNat)]
  | .bin bytes => [5, Encodable.encode (bytes.map UInt8.toNat)]
  | .array items => 6 :: items.length :: allTokens items
  | .map entries => 7 :: entries.length :: entryTokens entries

def allTokens : List Value → List Nat
  | [] => []
  | v :: vs => v.tokens ++ allTokens vs

def entryTokens : List (Value × Value) → List Nat
  | [] => []
  | (k, v) :: es => k.tokens ++ (v.tokens ++ entryTokens es)
end

mutual
/-- No value's numbers begin another's. -/
theorem tokens_inj : ∀ {v w : Value} {r r' : List Nat}, v.tokens ++ r = w.tokens ++ r' → v = w ∧ r = r'
  | .nil, w, r, r', h => by
    cases w <;> simp [Value.tokens] at h ⊢
    exact h
  | .bool b, w, r, r', h => by
    cases w <;> simp [Value.tokens] at h ⊢
    exact h
  | .int x, w, r, r', h => by
    cases w <;> simp [Value.tokens] at h ⊢
    exact h
  | .float bits, w, r, r', h => by
    cases w <;> simp [Value.tokens] at h ⊢
    exact ⟨UInt64.toNat_inj.mp h.1, h.2⟩
  | .str text, w, r, r', h => by
    cases w <;> simp [Value.tokens] at h ⊢
    exact ⟨String.toList_injective (List.map_injective_iff.mpr (fun _ _ => Char.toNat_inj.mp) h.1), h.2⟩
  | .bin bytes, w, r, r', h => by
    cases w <;> simp [Value.tokens] at h ⊢
    exact ⟨List.map_injective_iff.mpr (fun _ _ => UInt8.toNat_inj.mp) h.1, h.2⟩
  | .array items, w, r, r', h => by
    cases w <;> simp [Value.tokens] at h ⊢
    exact allTokens_inj h.1 h.2
  | .map entries, w, r, r', h => by
    cases w <;> simp [Value.tokens] at h ⊢
    exact entryTokens_inj h.1 h.2

theorem allTokens_inj : ∀ {vs ws : List Value} {r r' : List Nat}, vs.length = ws.length →
    allTokens vs ++ r = allTokens ws ++ r' → vs = ws ∧ r = r'
  | [], [], _, _, _, h => ⟨rfl, h⟩
  | v :: vs, w :: ws, r, r', hlength, h => by
    simp only [allTokens, List.append_assoc] at h
    obtain ⟨hv, hrest⟩ := tokens_inj h
    obtain ⟨hvs, hr⟩ := allTokens_inj (Nat.succ.inj hlength) hrest
    exact ⟨congrArg₂ List.cons hv hvs, hr⟩

theorem entryTokens_inj : ∀ {es fs : List (Value × Value)} {r r' : List Nat}, es.length = fs.length →
    entryTokens es ++ r = entryTokens fs ++ r' → es = fs ∧ r = r'
  | [], [], _, _, _, h => ⟨rfl, h⟩
  | (k, v) :: es, (k', v') :: fs, r, r', hlength, h => by
    simp only [entryTokens, List.append_assoc] at h
    obtain ⟨hk, hvalue⟩ := tokens_inj h
    obtain ⟨hv, hrest⟩ := tokens_inj hvalue
    obtain ⟨hes, hr⟩ := entryTokens_inj (Nat.succ.inj hlength) hrest
    exact ⟨congrArg₂ List.cons (congrArg₂ Prod.mk hk hv) hes, hr⟩
end

/-- As many bytes as the numbers are in one number. -/
def Value.unary (v : Value) : List UInt8 := List.replicate (Encodable.encode v.tokens) 0

theorem unary_injective : Function.Injective Value.unary := by
  intro v w h
  have hlength := congrArg List.length h
  rw [Value.unary, Value.unary, List.length_replicate, List.length_replicate] at hlength
  have htokens := Encodable.encode_injective hlength
  have happend : v.tokens ++ [] = w.tokens ++ [] := congrArg (· ++ []) htokens
  exact (tokens_inj happend).1

end Values
