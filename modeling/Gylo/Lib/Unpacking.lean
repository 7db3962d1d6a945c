import Gylo.Lib.Packing

/-! # Reading numbers and values back from bytes

The inverse of each layout in `Packing`. A reader takes what it reads off the
front of its input and leaves the rest; the lemmas say that it finds what was
packed whatever follows. -/
namespace Packing

/-! ## Numbers and texts -/

/-- The number these bytes stand for, least significant first. -/
def ofLittleEndian : List UInt8 → Nat
  | [] => 0
  | b :: bs => b.toNat + 256 * ofLittleEndian bs

theorem ofLittleEndian_littleEndian : ∀ (n x : Nat), x < Nat.pow 256 n →
    ofLittleEndian (littleEndian n x) = x
  | 0, x, h => by
    have : x = 0 := Nat.lt_one_iff.mp h
    simp [littleEndian, ofLittleEndian, this]
  | n + 1, x, h => by
    have hdiv : x / 256 < Nat.pow 256 n := by
      rw [Nat.div_lt_iff_lt_mul (by decide)]
      exact h
    rw [littleEndian, ofLittleEndian, ofLittleEndian_littleEndian n (x / 256) hdiv]
    simp
    omega

theorem ofLittleEndian_lt : ∀ bytes : List UInt8, ofLittleEndian bytes < Nat.pow 256 bytes.length
  | [] => Nat.one_pos
  | b :: bs => by
    have hb := b.toNat_lt
    have hbs := ofLittleEndian_lt bs
    have hpow : Nat.pow 256 (b :: bs).length = Nat.pow 256 bs.length * 256 := rfl
    rw [hpow, ofLittleEndian]
    omega

/-- Any bytes are the layout of the number they stand for. -/
theorem littleEndian_ofLittleEndian : ∀ bytes : List UInt8,
    littleEndian bytes.length (ofLittleEndian bytes) = bytes
  | [] => rfl
  | b :: bs => by
    have hb := b.toNat_lt
    have hlow : (b.toNat + 256 * ofLittleEndian bs) % 256 = b.toNat := by omega
    have hhigh : (b.toNat + 256 * ofLittleEndian bs) / 256 = ofLittleEndian bs := by omega
    rw [List.length_cons, ofLittleEndian, littleEndian, hlow, hhigh, UInt8.ofNat_toNat,
      littleEndian_ofLittleEndian bs]

def ofBigEndian (bytes : List UInt8) : Nat := ofLittleEndian bytes.reverse

theorem ofBigEndian_bigEndian {n x : Nat} (h : x < Nat.pow 256 n) :
    ofBigEndian (bigEndian n x) = x := by
  rw [ofBigEndian, bigEndian, List.reverse_reverse, ofLittleEndian_littleEndian n x h]

@[simp] theorem length_bigEndian (n x : Nat) : (bigEndian n x).length = n := by
  simp [bigEndian]

/-- The signed number whose two's complement in `n` bytes is `x`. -/
def unwrap (n x : Nat) : Int := (BitVec.ofNat (8 * n) x).toInt

theorem wrap_lt (n : Nat) (x : Int) : wrap n x < Nat.pow 256 n := by
  have h : Nat.pow 256 n = Nat.pow 2 (8 * n) := (Nat.pow_mul 2 8 n).symm
  rw [h]
  exact (BitVec.ofInt (8 * n) x).isLt

theorem unwrap_wrap {n : Nat} {x : Int} (hlow : -(Nat.pow 2 (8 * n) : Int) ≤ x * 2)
    (hhigh : x * 2 < (Nat.pow 2 (8 * n) : Int)) : unwrap n (wrap n x) = x := by
  rw [unwrap, wrap, BitVec.ofNat_toNat, BitVec.setWidth_eq, BitVec.toInt_ofInt]
  exact Int.bmod_eq_of_le_mul_two (by simpa using hlow) (by simpa using hhigh)

/-- Any `n` bytes are the two's complement of the signed number they stand for. -/
theorem wrap_unwrap {n x : Nat} (h : x < Nat.pow 256 n) : wrap n (unwrap n x) = x := by
  have hpow : Nat.pow 256 n = Nat.pow 2 (8 * n) := (Nat.pow_mul 2 8 n).symm
  have hlt : x < Nat.pow 2 (8 * n) := hpow ▸ h
  rw [wrap, unwrap, BitVec.ofInt_toInt, BitVec.toNat_ofNat]
  exact Nat.mod_eq_of_lt hlt

/-- The text these bytes encode, if they are UTF-8. -/
def ofUtf8 (bytes : List UInt8) : Option String := String.fromUTF8? ⟨⟨bytes⟩⟩

@[simp] theorem ofUtf8_utf8 (text : String) : ofUtf8 (utf8 text) = some text :=
  dif_pos text.isValidUTF8

/-! ## MessagePack -/

abbrev Reader (α : Type) := List UInt8 → Option (α × List UInt8)

def takeBytes (n : Nat) : Reader (List UInt8) := fun input =>
  if n ≤ input.length then some (input.take n, input.drop n) else none

theorem takeBytes_append (bytes rest : List UInt8) :
    takeBytes bytes.length (bytes ++ rest) = some (bytes, rest) := by
  simp [takeBytes]

def readBigEndian (n : Nat) : Reader Nat := fun input =>
  (takeBytes n input).map fun r => (ofBigEndian r.1, r.2)

theorem readBigEndian_append {n x : Nat} (h : x < Nat.pow 256 n) (rest : List UInt8) :
    readBigEndian n (bigEndian n x ++ rest) = some (x, rest) := by
  have htake := takeBytes_append (bigEndian n x) rest
  rw [length_bigEndian] at htake
  rw [readBigEndian, htake, Option.map_some, ofBigEndian_bigEndian h]

namespace MessagePack

inductive Value where
  | int (x : Int)
  | str (text : String)
  | bin (bytes : List UInt8)
  | array (items : List Value)

mutual
def Value.pack : Value → List UInt8
  | .int x => MessagePack.int x
  | .str text => MessagePack.str text
  | .bin bytes => MessagePack.bin bytes
  | .array items => MessagePack.array (packAll items)

def packAll : List Value → List (List UInt8)
  | [] => []
  | v :: vs => v.pack :: packAll vs
end

mutual
/-- Every integer has at most 64 bits. -/
def Value.Fits : Value → Prop
  | .int x => -9223372036854775808 ≤ x ∧ x < 18446744073709551616
  | .str _ | .bin _ => True
  | .array items => AllFit items

def AllFit : List Value → Prop
  | [] => True
  | v :: vs => v.Fits ∧ AllFit vs
end

theorem packAll_eq_map : ∀ vs : List Value, packAll vs = vs.map Value.pack
  | [] => rfl
  | v :: vs => congrArg (v.pack :: ·) (packAll_eq_map vs)

theorem allFit_map {α : Type} {f : α → Value} : ∀ as : List α, (∀ a ∈ as, (f a).Fits) →
    AllFit (as.map f)
  | [], _ => trivial
  | a :: as, h =>
    ⟨h a List.mem_cons_self, allFit_map as fun b hb => h b (List.mem_cons_of_mem a hb)⟩

@[simp] theorem length_packAll : ∀ vs : List Value, (packAll vs).length = vs.length
  | [] => rfl
  | _ :: vs => congrArg (· + 1) (length_packAll vs)

/-- The first bytes of a value: its kind, with the integer itself or the number
of bytes or items that follow. -/
inductive Head where
  | int (x : Int)
  | str (n : Nat)
  | bin (n : Nat)
  | array (n : Nat)

/-- The tags that a number follows, with its width and meaning. -/
def sized : UInt8 → Option (Nat × (Nat → Head))
  | 0xc4 => some (1, .bin)
  | 0xc5 => some (2, .bin)
  | 0xc6 => some (4, .bin)
  | 0xcc => some (1, fun x => .int x)
  | 0xcd => some (2, fun x => .int x)
  | 0xce => some (4, fun x => .int x)
  | 0xcf => some (8, fun x => .int x)
  | 0xd0 => some (1, fun x => .int (unwrap 1 x))
  | 0xd1 => some (2, fun x => .int (unwrap 2 x))
  | 0xd2 => some (4, fun x => .int (unwrap 4 x))
  | 0xd3 => some (8, fun x => .int (unwrap 8 x))
  | 0xd9 => some (1, .str)
  | 0xda => some (2, .str)
  | 0xdb => some (4, .str)
  | 0xdc => some (2, .array)
  | 0xdd => some (4, .array)
  | _ => none

def readHead : Reader Head
  | [] => none
  | tag :: input =>
    let t := tag.toNat
    if t < 0x80 then some (.int t, input)
    else if t < 0x90 then none
    else if t < 0xa0 then some (.array (t - 0x90), input)
    else if t < 0xc0 then some (.str (t - 0xa0), input)
    else if 0xe0 ≤ t then some (.int (t - 256), input)
    else match sized tag with
      | some (n, f) => (readBigEndian n input).map fun r => (f r.1, r.2)
      | none => none

def readItems {α : Type} (read : Reader α) : Nat → Reader (List α)
  | 0, input => some ([], input)
  | n + 1, input => do
    let (v, rest) ← read input
    let (vs, rest) ← readItems read n rest
    some (v :: vs, rest)

/-- A value nested at most `depth` deep. -/
def Value.read : Nat → Reader Value
  | 0, _ => none
  | depth + 1, input => do
    match ← readHead input with
    | (.int x, rest) => some (.int x, rest)
    | (.str n, rest) =>
      let (bytes, rest) ← takeBytes n rest
      let text ← ofUtf8 bytes
      some (.str text, rest)
    | (.bin n, rest) =>
      let (bytes, rest) ← takeBytes n rest
      some (.bin bytes, rest)
    | (.array n, rest) =>
      let (items, rest) ← readItems (read depth) n rest
      some (.array items, rest)

/-- One value and nothing after it. -/
def unpack (input : List UInt8) : Option Value :=
  match Value.read (input.length + 1) input with
  | some (v, []) => some v
  | _ => none

/-! ### Reading what was packed -/

theorem bigEndian_one {x : Nat} : bigEndian 1 x = [UInt8.ofNat (x % 256)] := rfl

section
variable (rest : List UInt8)

/-- A one-byte head, read by the range its tag is in. -/
theorem readHead_positive {x : Nat} (h : x < 128) :
    readHead (UInt8.ofNat x :: rest) = some (.int x, rest) := by
  have ht : (UInt8.ofNat x).toNat = x := by simp; omega
  simp only [readHead, ht, if_pos h]

theorem readHead_array {n : Nat} (h : n < 16) :
    readHead (UInt8.ofNat (0x90 + n) :: rest) = some (.array n, rest) := by
  have ht : (UInt8.ofNat (0x90 + n)).toNat = 0x90 + n := by simp; omega
  simp only [readHead, ht]
  rw [if_neg (by omega), if_neg (by omega), if_pos (by omega), Nat.add_sub_cancel_left]

theorem readHead_str {n : Nat} (h : n < 32) :
    readHead (UInt8.ofNat (0xa0 + n) :: rest) = some (.str n, rest) := by
  have ht : (UInt8.ofNat (0xa0 + n)).toNat = 0xa0 + n := by simp; omega
  simp only [readHead, ht]
  rw [if_neg (by omega), if_neg (by omega), if_neg (by omega), if_pos (by omega),
    Nat.add_sub_cancel_left]

theorem readHead_negative {x : Nat} (hlow : 0xe0 ≤ x) (hhigh : x < 256) :
    readHead (UInt8.ofNat x :: rest) = some (.int (x - 256), rest) := by
  have ht : (UInt8.ofNat x).toNat = x := by simp; omega
  simp only [readHead, ht]
  rw [if_neg (by omega), if_neg (by omega), if_neg (by omega), if_neg (by omega), if_pos hlow]
end

/-- A head with a number after its tag. -/
theorem readHead_sized {tag : UInt8} {n : Nat} {f : Nat → Head} (h : sized tag = some (n, f))
    {x : Nat} (hx : x < Nat.pow 256 n) (rest : List UInt8) :
    readHead (tag :: (bigEndian n x ++ rest)) = some (f x, rest) := by
  have ht : 0xc0 ≤ tag.toNat ∧ tag.toNat < 0xe0 := by
    unfold sized at h
    split at h <;> first | decide | cases h
  simp only [readHead, h, readBigEndian_append hx, Option.map_some]
  rw [if_neg (by omega), if_neg (by omega), if_neg (by omega), if_neg (by omega), if_neg (by omega)]

/-- A negative number that is laid out in `n` bytes. -/
theorem readHead_signed {tag : UInt8} {n : Nat} (h : sized tag = some (n, fun x => .int (unwrap n x)))
    {x : Int} (hlow : -(Nat.pow 2 (8 * n) : Int) ≤ x * 2) (hneg : x < 0) (rest : List UInt8) :
    readHead (tag :: (bigEndian n (wrap n x) ++ rest)) = some (.int x, rest) := by
  have hhigh : x * 2 < (Nat.pow 2 (8 * n) : Int) := by
    have : (0 : Int) ≤ (Nat.pow 2 (8 * n) : Int) := Int.natCast_nonneg _
    omega
  rw [readHead_sized h (wrap_lt n x), unwrap_wrap hlow hhigh]

theorem wrap_one {x : Int} (hlow : -32 ≤ x) (hneg : x < 0) : (wrap 1 x : Int) = x + 256 := by
  rw [wrap, BitVec.toNat_ofInt]
  omega

theorem readHead_int {x : Int} (h : (Value.int x).Fits) (rest : List UInt8) :
    readHead (MessagePack.int x ++ rest) = some (.int x, rest) := by
  obtain ⟨hlow, hhigh⟩ := h
  unfold MessagePack.int
  by_cases hx : 0 ≤ x
  · obtain ⟨n, rfl⟩ := Int.eq_ofNat_of_zero_le hx
    rw [if_pos hx, Int.toNat_natCast]
    by_cases h₀ : (n : Int) < 128
    · rw [if_pos h₀, bigEndian_one, Nat.mod_eq_of_lt (by omega)]
      exact readHead_positive rest (by omega)
    rw [if_neg h₀]
    by_cases h₁ : (n : Int) < 256
    · rw [if_pos h₁]
      exact readHead_sized (f := fun x => .int x) rfl (show n < 256 by omega) rest
    rw [if_neg h₁]
    by_cases h₂ : (n : Int) < 65536
    · rw [if_pos h₂]
      exact readHead_sized (f := fun x => .int x) rfl (show n < 65536 by omega) rest
    rw [if_neg h₂]
    by_cases h₄ : (n : Int) < 4294967296
    · rw [if_pos h₄]
      exact readHead_sized (f := fun x => .int x) rfl (show n < 4294967296 by omega) rest
    rw [if_neg h₄]
    exact readHead_sized (f := fun x => .int x) rfl (show n < 18446744073709551616 by omega) rest
  · have hneg : x < 0 := by omega
    rw [if_neg hx]
    by_cases h₀ : -32 ≤ x
    · have hwrap := wrap_one h₀ hneg
      rw [if_pos h₀, bigEndian_one, Nat.mod_eq_of_lt (by omega)]
      have hread := readHead_negative rest (x := wrap 1 x) (by omega) (by omega)
      rw [hwrap, Int.add_sub_cancel] at hread
      exact hread
    rw [if_neg h₀]
    by_cases h₁ : -128 ≤ x
    · rw [if_pos h₁]
      exact readHead_signed (n := 1) rfl (show -256 ≤ x * 2 by omega) hneg rest
    rw [if_neg h₁]
    by_cases h₂ : -32768 ≤ x
    · rw [if_pos h₂]
      exact readHead_signed (n := 2) rfl (show -65536 ≤ x * 2 by omega) hneg rest
    rw [if_neg h₂]
    by_cases h₄ : -2147483648 ≤ x
    · rw [if_pos h₄]
      exact readHead_signed (n := 4) rfl (show -4294967296 ≤ x * 2 by omega) hneg rest
    rw [if_neg h₄]
    exact readHead_signed (n := 8) rfl (show -18446744073709551616 ≤ x * 2 by omega) hneg rest

theorem readHead_of_str {text : String} (h : (utf8 text).length < 4294967296) (rest : List UInt8) :
    readHead (MessagePack.str text ++ rest) =
      some (.str (utf8 text).length, utf8 text ++ rest) := by
  simp only [MessagePack.str, List.append_assoc]
  generalize (utf8 text).length = n at h ⊢
  by_cases h₀ : n < 32
  · rw [if_pos h₀]
    exact readHead_str _ h₀
  rw [if_neg h₀]
  by_cases h₁ : n < 256
  · rw [if_pos h₁]
    exact readHead_sized (f := .str) rfl (show n < 256 from h₁) _
  rw [if_neg h₁]
  by_cases h₂ : n < 65536
  · rw [if_pos h₂]
    exact readHead_sized (f := .str) rfl (show n < 65536 from h₂) _
  rw [if_neg h₂]
  exact readHead_sized (f := .str) rfl (show n < 4294967296 from h) _

theorem readHead_of_bin {bytes : List UInt8} (h : bytes.length < 4294967296) (rest : List UInt8) :
    readHead (MessagePack.bin bytes ++ rest) = some (.bin bytes.length, bytes ++ rest) := by
  simp only [MessagePack.bin, List.append_assoc]
  generalize bytes.length = n at h ⊢
  by_cases h₁ : n < 256
  · rw [if_pos h₁]
    exact readHead_sized (f := .bin) rfl (show n < 256 from h₁) _
  rw [if_neg h₁]
  by_cases h₂ : n < 65536
  · rw [if_pos h₂]
    exact readHead_sized (f := .bin) rfl (show n < 65536 from h₂) _
  rw [if_neg h₂]
  exact readHead_sized (f := .bin) rfl (show n < 4294967296 from h) _

theorem readHead_of_array {items : List (List UInt8)} (h : items.length < 4294967296)
    (rest : List UInt8) : readHead (MessagePack.array items ++ rest) =
      some (.array items.length, items.flatten ++ rest) := by
  simp only [MessagePack.array, List.append_assoc]
  generalize items.length = n at h ⊢
  by_cases h₀ : n < 16
  · rw [if_pos h₀]
    exact readHead_array _ h₀
  rw [if_neg h₀]
  by_cases h₂ : n < 65536
  · rw [if_pos h₂]
    exact readHead_sized (f := .array) rfl (show n < 65536 from h₂) _
  rw [if_neg h₂]
  exact readHead_sized (f := .array) rfl (show n < 4294967296 from h) _

/-- An array takes more bytes than its items together. -/
theorem length_array (items : List (List UInt8)) :
    items.flatten.length < (MessagePack.array items).length := by
  simp only [MessagePack.array, List.length_append]
  split
  · simp
  · split <;> simp

theorem array_ne_nil (items : List (List UInt8)) : MessagePack.array items ≠ [] :=
  List.ne_nil_of_length_pos (Nat.zero_lt_of_lt (length_array items))

theorem readItems_packAll {read : Reader Value} : ∀ (vs : List Value) (rest : List UInt8),
    (∀ v ∈ vs, ∀ rest, read (v.pack ++ rest) = some (v, rest)) →
    readItems read vs.length ((packAll vs).flatten ++ rest) = some (vs, rest)
  | [], _, _ => rfl
  | v :: vs, rest, h => by
    have hv := h v List.mem_cons_self ((packAll vs).flatten ++ rest)
    have hvs := readItems_packAll vs rest fun u hu => h u (List.mem_cons_of_mem v hu)
    simp only [packAll, List.flatten_cons, List.append_assoc, List.length_cons, readItems, hv, hvs,
      Option.bind_eq_bind, Option.bind_some]

theorem fits_of_mem : ∀ {vs : List Value} {v : Value}, AllFit vs → v ∈ vs → v.Fits
  | _ :: _, _, h, hv => by
    rcases List.mem_cons.mp hv with hhead | htail
    · exact hhead ▸ h.1
    · exact fits_of_mem h.2 htail

theorem length_pack_le : ∀ {vs : List Value} {v : Value}, v ∈ vs →
    v.pack.length ≤ (packAll vs).flatten.length
  | u :: vs, v, hv => by
    rw [packAll, List.flatten_cons, List.length_append]
    rcases List.mem_cons.mp hv with hhead | htail
    · rw [hhead]; omega
    · have := length_pack_le htail; omega

theorem length_int_pos (x : Int) : 0 < (MessagePack.int x).length := by
  simp only [MessagePack.int]
  repeat' split
  all_goals simp

/-- Every value takes at least one byte. -/
theorem Value.length_pack_pos (v : Value) : 0 < v.pack.length := by
  cases v with
  | int x => exact length_int_pos x
  | str text =>
    simp only [Value.pack, MessagePack.str, List.length_append]
    repeat' split
    all_goals simp only [List.length_cons]; omega
  | bin bytes =>
    simp only [Value.pack, MessagePack.bin, List.length_append]
    repeat' split
    all_goals simp only [List.length_cons]; omega
  | array items => exact Nat.zero_lt_of_lt (length_array (packAll items))

theorem length_le_flatten : ∀ vs : List Value, vs.length ≤ (packAll vs).flatten.length
  | [] => Nat.zero_le _
  | v :: vs => by
    have hv := v.length_pack_pos
    have hvs := length_le_flatten vs
    rw [packAll, List.flatten_cons, List.length_append, List.length_cons]
    omega

/-- **A packed value is read back whatever follows it**; its own length is depth
enough. -/
theorem Value.read_pack (depth : Nat) (v : Value) (h : v.Fits) (hlen : v.pack.length < 4294967296)
    (hdepth : v.pack.length < depth) (rest : List UInt8) :
    Value.read depth (v.pack ++ rest) = some (v, rest) := by
  induction depth generalizing v rest with
  | zero => omega
  | succ depth ih =>
    cases v with
    | int x => simp [Value.read, Value.pack, readHead_int h]
    | str text =>
      have htake := takeBytes_append (utf8 text) rest
      have hsize : (utf8 text).length < 4294967296 := by
        simp only [Value.pack, MessagePack.str, List.length_append] at hlen
        omega
      simp [Value.read, Value.pack, readHead_of_str hsize, htake]
    | bin bytes =>
      have htake := takeBytes_append bytes rest
      have hsize : bytes.length < 4294967296 := by
        simp only [Value.pack, MessagePack.bin, List.length_append] at hlen
        omega
      simp [Value.read, Value.pack, readHead_of_bin hsize, htake]
    | array items =>
      have hshort := length_array (packAll items)
      have hcount := length_le_flatten items
      simp only [Value.pack] at hlen hdepth
      have hitems : readItems (Value.read depth) items.length
          ((packAll items).flatten ++ rest) = some (items, rest) := by
        refine readItems_packAll items rest fun v hv rest => ?_
        have hle := length_pack_le hv
        exact ih v (fits_of_mem h hv) (by omega) (by omega) rest
      have hsize : (packAll items).length < 4294967296 := by rw [length_packAll]; omega
      simp [Value.read, Value.pack, readHead_of_array hsize, hitems]

theorem unpack_pack {v : Value} (h : v.Fits) (hlen : v.pack.length < 4294967296) :
    unpack v.pack = some v := by
  have hread := Value.read_pack (v.pack.length + 1) v h hlen (Nat.lt_succ_self _) []
  rw [List.append_nil] at hread
  rw [unpack, hread]

end MessagePack

end Packing
