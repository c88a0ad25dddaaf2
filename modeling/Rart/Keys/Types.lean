import Rart.Keys.Storage
import Rart.Utils.U8Keys

open LexOrder
open rart.partials
open rart.debug (slice slice_eq_ok)

namespace rart.keys

/-- `KeyTrait`, with `PartialEq`, `Ord` and `AsRef`. -/
class KeyTrait (K : Type) (PartialType : outParam Type) where
  MAXIMUM_SIZE : Option Nat
  eq : K → K → Result Bool
  cmp : K → K → Result Ordering
  as_ref : K → Result Bytes
  new_from_slice : Bytes → Result K
  new_from_partial : PartialType → Result K
  extend_from_partial : K → PartialType → Result K
  truncate : K → Nat → Result K
  byte_at : K → Nat → Result UInt8
  length_at : K → Nat → Result Nat
  to_partial : K → Nat → Result PartialType
  matches_slice : K → Bytes → Result Bool

/-- A key that holds `bytes`: these are what `as_ref` returns, and what `length_at` counts. -/
structure Spells {K PartialType : Type} [KeyTrait K PartialType] (key : K) (bytes : Bytes) : Prop where
  as_ref : KeyTrait.as_ref key = .ok bytes
  length_at at_depth : KeyTrait.length_at key at_depth = usize_sub bytes.length at_depth

/-- `ArrayKey<N>`. The derived equality compares the whole array. -/
structure ArrayKey (N : Nat) where
  data : U8Array N
  len : Nat
deriving DecidableEq

/-- `VectorKey`, with the derived equality and order of its bytes. -/
structure VectorKey where
  data : Bytes
deriving DecidableEq

/-- `OverflowKey<N, P>` -/
structure OverflowKey (N P : Nat) where
  inline : U8Array N
  len : Nat
  overflow : Option Bytes

namespace ArrayKey

variable {N : Nat}

/-- `as_ref`: the bytes in use. -/
def as_slice (self : ArrayKey N) : Result Bytes := slice_to self.data.bytes self.len

/-- Keys are compared as the bytes in use. -/
def cmp (self other : ArrayKey N) : Result Ordering := do
  return lexCompare (← self.as_slice) (← other.as_slice)

/-- Checked against the array, not against the length in use. -/
def byte_at (self : ArrayKey N) (pos : Nat) : Result UInt8 := index self.data.bytes pos

/-- What is in use behind a depth. -/
def length_at (self : ArrayKey N) (at_depth : Nat) : Result Nat := usize_sub self.len at_depth

/-- Equality with the bytes in use. -/
def matches_slice (self : ArrayKey N) (slice : Bytes) : Result Bool := do
  return decide ((← slice_to self.data.bytes self.len) = slice)

/-- The bytes in use on the right of eight, most significant first. Nine and more underflow. -/
def to_be_u64 (self : ArrayKey N) : Result Nat := do
  let start ← usize_sub 8 self.len
  let arr ← (U8Array.zero : U8Array 8).copy_from_slice start (← slice_to self.data.bytes self.len)
  return from_ne_bytes .big arr.bytes

section Building

variable [Profile]

/-- `new_from_str` and `new_from_string`, from the bytes of the string. -/
def new_from_str (s : Bytes) : Result (ArrayKey N) := do
  debug_assert (s.length + 1 < N) "data length is greater than array length"
  let arr ← U8Array.zero.copy_from_slice 0 s
  return ⟨arr, s.length + 1⟩

/-- The copy panics where the slice is longer than the array. -/
def new_from_slice (data : Bytes) : Result (ArrayKey N) := do
  debug_assert (data.length ≤ N) "data length is greater than array length"
  let arr ← U8Array.zero.copy_from_slice 0 data
  return ⟨arr, data.length⟩

omit [Profile] in
/-- The bytes of the prefix, in an array of the same size. -/
def new_from_partial (part : ArrPartial N) : Result (ArrayKey N) := do
  let data := U8Array.zero
  let len := part.len
  let data ← data.copy_from_slice 0 (← slice_to (← part.to_slice) len)
  return ⟨data, len⟩

/-- Room for both is asserted in debug builds and needed by the copy in all. -/
def extend_from_partial (self : ArrayKey N) (part : ArrPartial N) : Result (ArrayKey N) := do
  let cur_len := self.len
  let partial_len := part.len
  debug_assert (cur_len + partial_len ≤ N) "data length is greater than max key length"
  let data ← U8Array.zero.copy_from_slice 0 (← slice_to self.data.bytes cur_len)
  let partial_slice ← part.to_slice
  let data ← data.copy_from_slice cur_len (← slice_to partial_slice partial_len)
  return ⟨data, cur_len + partial_len⟩

/-- The length is set and the bytes behind it are left. -/
def truncate (self : ArrayKey N) (at_depth : Nat) : Result (ArrayKey N) := do
  debug_assert (at_depth ≤ self.len) "truncating beyond key length"
  return ⟨self.data, at_depth⟩

/-- The bytes in use behind a depth. -/
def to_partial (self : ArrayKey N) (at_depth : Nat) : Result (ArrPartial N) := do
  ArrPartial.from_slice (← slice self.data.bytes at_depth self.len)

instance : KeyTrait (ArrayKey N) (ArrPartial N) where
  MAXIMUM_SIZE := some N
  eq x y := .ok (decide (x = y))
  cmp := cmp
  as_ref := as_slice
  new_from_slice := new_from_slice
  new_from_partial := new_from_partial
  extend_from_partial := extend_from_partial
  truncate := truncate
  byte_at := byte_at
  length_at := length_at
  to_partial := to_partial
  matches_slice := matches_slice

end Building

end ArrayKey

namespace VectorKey

/-- The whole box. -/
def as_ref (self : VectorKey) : Result Bytes := .ok self.data

/-- Boxes are compared as their bytes. -/
def cmp (self other : VectorKey) : Result Ordering := .ok (lexCompare self.data other.data)

/-- `new_from_str` and `new_from_string`, from the bytes of the string. -/
def new_from_str (s : Bytes) : VectorKey := ⟨s ++ [0]⟩

/-- The vector becomes the box. -/
def new_from_vec (data : Bytes) : VectorKey := ⟨data⟩

/-- A boxed copy of the slice, of any length. -/
def new_from_slice (data : Bytes) : Result VectorKey := .ok ⟨data⟩

/-- A copy of the bytes of the prefix. -/
def new_from_partial (part : VectorPartial) : Result VectorKey := do return ⟨← part.to_slice⟩

/-- A new box takes both. -/
def extend_from_partial (self : VectorKey) (part : VectorPartial) : Result VectorKey := do
  return ⟨self.data ++ (← part.to_slice)⟩

/-- `Vec::truncate`, which keeps a shorter vector as it is. -/
def truncate (self : VectorKey) (at_depth : Nat) : Result VectorKey := .ok ⟨self.data.take at_depth⟩

/-- Checked against the box. -/
def byte_at (self : VectorKey) (pos : Nat) : Result UInt8 := index self.data pos

/-- What the box has behind a depth. -/
def length_at (self : VectorKey) (at_depth : Nat) : Result Nat := usize_sub self.data.length at_depth

/-- A copy of what the box has behind a depth. -/
def to_partial (self : VectorKey) (at_depth : Nat) : Result VectorPartial := do
  return VectorPartial.from_slice (← slice_from self.data at_depth)

/-- Equality of length, then of bytes. -/
def matches_slice (self : VectorKey) (slice : Bytes) : Result Bool :=
  .ok (decide (self.data.length = slice.length ∧ self.data = slice))

/-- Asserts eight bytes at least, while its code pads fewer on the left and underflows on more. -/
def to_be_u64 [Profile] (self : VectorKey) : Result Nat := do
  debug_assert (self.data.length ≥ 8) "data length is less than 8 bytes"
  let start ← usize_sub 8 self.data.length
  let arr ← (U8Array.zero : U8Array 8).copy_from_slice start (← slice_to self.data self.data.length)
  return from_ne_bytes .big arr.bytes

instance : KeyTrait VectorKey VectorPartial where
  MAXIMUM_SIZE := none
  eq x y := .ok (decide (x = y))
  cmp := cmp
  as_ref := as_ref
  new_from_slice := new_from_slice
  new_from_partial := new_from_partial
  extend_from_partial := extend_from_partial
  truncate := truncate
  byte_at := byte_at
  length_at := length_at
  to_partial := to_partial
  matches_slice := matches_slice

end VectorKey

namespace OverflowKey

variable {N P : Nat}

/-- The box of a key that has one. -/
def heap_data (self : OverflowKey N P) : Result Bytes := expect self.overflow missing_overflow

/-- The bytes of the key, wherever they are. -/
def data (self : OverflowKey N P) : Result Bytes :=
  if self.len ≤ N then slice_to self.inline.bytes self.len else self.heap_data

/-- Whether the bytes are in the array of the key. -/
def is_inline (self : OverflowKey N P) : Bool := self.len ≤ N

/-- Equality of the bytes, however they are stored. -/
def eq (self other : OverflowKey N P) : Result Bool := do return decide ((← self.data) = (← other.data))

/-- The order of the bytes, however they are stored. -/
def cmp (self other : OverflowKey N P) : Result Ordering := do
  return lexCompare (← self.data) (← other.data)

/-- A slice that fits is copied into the array, and any other into a box. -/
def new_from_slice (data : Bytes) : Result (OverflowKey N P) :=
  if data.length ≤ N then do
    let inline ← U8Array.zero.copy_from_slice 0 data
    return ⟨inline, data.length, none⟩
  else return ⟨.zero, data.length, some data⟩

/-- `new_from_str` and `new_from_string`, from the bytes of the string. -/
def new_from_str (s : Bytes) : Result (OverflowKey N P) := new_from_slice (s ++ [0])

/-- The bytes of the prefix, stored anew. -/
def new_from_partial (part : OverflowPartial P) : Result (OverflowKey N P) := do
  new_from_slice (← part.data)

/-- A key that outgrows its array moves into a box. -/
def extend_from_partial (self : OverflowKey N P) (part : OverflowPartial P) : Result (OverflowKey N P) := do
  new_from_slice ((← self.data) ++ (← part.data))

/-- In the array or in the box, by the length. -/
def byte_at (self : OverflowKey N P) (pos : Nat) : Result UInt8 :=
  if self.len ≤ N then index self.inline.bytes pos else do index (← self.heap_data) pos

/-- What the key has behind a depth. -/
def length_at (self : OverflowKey N P) (at_depth : Nat) : Result Nat := usize_sub self.len at_depth

/-- The bytes behind a depth, stored as a prefix. -/
def to_partial (self : OverflowKey N P) (at_depth : Nat) : Result (OverflowPartial P) := do
  OverflowPartial.from_slice (← slice_from (← self.data) at_depth)

/-- Equality of the bytes, however they are stored. -/
def matches_slice (self : OverflowKey N P) (slice : Bytes) : Result Bool := do
  return decide ((← self.data) = slice)

section Building

variable [Profile]

/-- Cut and stored anew: back in the array where it fits. -/
def truncate (self : OverflowKey N P) (at_depth : Nat) : Result (OverflowKey N P) := do
  debug_assert (at_depth ≤ self.len) "truncating beyond key length"
  new_from_slice (← slice_to (← self.data) at_depth)

/-- Asserts eight bytes at most, which stand on the right of eight. -/
def to_be_u64 (self : OverflowKey N P) : Result Nat := do
  debug_assert (self.len ≤ 8) "data length is greater than 8 bytes"
  let start ← usize_sub 8 self.len
  let arr ← (U8Array.zero : U8Array 8).copy_from_slice start (← self.data)
  return from_ne_bytes .big arr.bytes

instance : KeyTrait (OverflowKey N P) (OverflowPartial P) where
  MAXIMUM_SIZE := none
  eq := eq
  cmp := cmp
  as_ref := data
  new_from_slice := new_from_slice
  new_from_partial := new_from_partial
  extend_from_partial := extend_from_partial
  truncate := truncate
  byte_at := byte_at
  length_at := length_at
  to_partial := to_partial
  matches_slice := matches_slice

end Building

end OverflowKey

end rart.keys
