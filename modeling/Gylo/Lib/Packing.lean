import Mathlib.Data.List.Basic

/-! # Laying out numbers and values as bytes

Fixed-width integers in either byte order, and the part of MessagePack that
tuples of integers, texts and byte strings need. Every integer and length
takes the shortest form that holds it. -/
namespace Packing

/-- The low `n` bytes of `x`, least significant first. -/
def littleEndian : Nat → Nat → List UInt8
  | 0, _ => []
  | n + 1, x => UInt8.ofNat (x % 256) :: littleEndian n (x / 256)

@[simp] theorem length_littleEndian : ∀ n x : Nat, (littleEndian n x).length = n
  | 0, _ => rfl
  | n + 1, x => congrArg (· + 1) (length_littleEndian n (x / 256))

def bigEndian (n x : Nat) : List UInt8 := (littleEndian n x).reverse

/-- The two's complement of `x` in `n` bytes. -/
def wrap (n : Nat) (x : Int) : Nat := (BitVec.ofInt (8 * n) x).toNat

def utf8 (text : String) : List UInt8 := text.toUTF8.data.toList

namespace MessagePack

def int (x : Int) : List UInt8 :=
  if 0 ≤ x then
    if x < 128 then bigEndian 1 x.toNat
    else if x < 256 then 0xcc :: bigEndian 1 x.toNat
    else if x < 65536 then 0xcd :: bigEndian 2 x.toNat
    else if x < 4294967296 then 0xce :: bigEndian 4 x.toNat
    else 0xcf :: bigEndian 8 x.toNat
  else
    if -32 ≤ x then bigEndian 1 (wrap 1 x)
    else if -128 ≤ x then 0xd0 :: bigEndian 1 (wrap 1 x)
    else if -32768 ≤ x then 0xd1 :: bigEndian 2 (wrap 2 x)
    else if -2147483648 ≤ x then 0xd2 :: bigEndian 4 (wrap 4 x)
    else 0xd3 :: bigEndian 8 (wrap 8 x)

/-- A text, as its UTF-8 bytes. -/
def str (text : String) : List UInt8 :=
  let n := (utf8 text).length
  (if n < 32 then [UInt8.ofNat (0xa0 + n)]
    else if n < 256 then 0xd9 :: bigEndian 1 n
    else if n < 65536 then 0xda :: bigEndian 2 n
    else 0xdb :: bigEndian 4 n) ++ utf8 text

def bin (bytes : List UInt8) : List UInt8 :=
  let n := bytes.length
  (if n < 256 then 0xc4 :: bigEndian 1 n
    else if n < 65536 then 0xc5 :: bigEndian 2 n
    else 0xc6 :: bigEndian 4 n) ++ bytes

/-- An array of values already packed. -/
def array (items : List (List UInt8)) : List UInt8 :=
  let n := items.length
  (if n < 16 then [UInt8.ofNat (0x90 + n)]
    else if n < 65536 then 0xdc :: bigEndian 2 n
    else 0xdd :: bigEndian 4 n) ++ items.flatten

end MessagePack

end Packing
