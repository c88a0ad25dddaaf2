import Rart.Lib.Checked
import Rart.Partials

open Checked LexOrder
open rart.partials

namespace rart.debug

/-- `debug_assert!` -/
def debug_assert (condition : Prop) [Decidable condition] (message : String) : Result Unit :=
  if condition then .ok () else .error (.panic message)

/-- An assertion that holds returns. -/
theorem debug_assert_of {condition : Prop} [Decidable condition] (h : condition) (message : String) :
    debug_assert condition message = .ok () := if_pos h

/-- `&xs[start..stop]` -/
def slice {α : Type} (xs : List α) (start stop : Nat) : Result (List α) :=
  if start ≤ stop ∧ stop ≤ xs.length then .ok ((xs.take stop).drop start) else .error .index_out_of_bounds

/-- The array behind a key or a prefix: zero past the bytes that it holds. A key or a prefix of a
debug build is modelled by these bytes, the ones that `as_ref` returns. -/
def data (N : Nat) (bytes : Bytes) : Bytes := bytes ++ List.replicate (N - bytes.length) 0

section Scan

/-- The byte loop that closes `prefix_length_bytes`. -/
def prefix_length_bytes.byte_loop (lhs rhs : Bytes) (len idx : Nat) : Result Nat :=
  if idx < len then do
    if (← index lhs idx) ≠ (← index rhs idx) then return idx else byte_loop lhs rhs len (idx + 1)
  else return idx
termination_by len - idx

/-- The loop over eight-byte words. -/
def prefix_length_bytes.word_loop (endian : Endian) (lhs rhs : Bytes) (len idx : Nat) : Result Nat :=
  if idx + 8 ≤ len then do
    let lhs_word := from_ne_bytes endian (← slice lhs idx (idx + 8))
    let rhs_word := from_ne_bytes endian (← slice rhs idx (idx + 8))
    let diff := lhs_word ^^^ rhs_word
    if diff ≠ 0 then return idx + trailing_zeros diff / 8 else word_loop endian lhs rhs len (idx + 8)
  else byte_loop lhs rhs len idx
termination_by len - idx

/-- The shorter side bounds both loops. -/
def prefix_length_bytes (endian : Endian) (lhs rhs : Bytes) : Result Nat :=
  prefix_length_bytes.word_loop endian lhs rhs (min lhs.length rhs.length) 0

end Scan

namespace ArrPartial

/-- `ArrPartial::from_slice` -/
def from_slice (SIZE : Nat) (src : Bytes) : Result Bytes := do
  debug_assert (src.length ≤ SIZE)
    s!"data length {src.length} is greater than maximum partial length {SIZE}"
  return src

/-- Asserts that the cut is within the bytes in use. -/
def partial_before (SIZE : Nat) (self : Bytes) (length : Nat) : Result Bytes := do
  debug_assert (length ≤ self.length) "assertion failed: length <= self.len"
  from_slice SIZE (← slice_to (data SIZE self) length)

/-- Asserts that the cut is within the bytes in use. -/
def partial_after (SIZE : Nat) (self : Bytes) (start : Nat) : Result Bytes := do
  debug_assert (start ≤ self.length) "assertion failed: start <= self.len"
  from_slice SIZE (← slice (data SIZE self) start self.length)

/-- The two copies stay in the array once the assertion holds. -/
def partial_extended_with (SIZE : Nat) (self other : Bytes) : Result Bytes := do
  debug_assert (self.length + other.length < SIZE) "assertion failed: self.len + other.len < SIZE"
  return self ++ other

/-- `Partial::at` -/
def byte_at (SIZE : Nat) (self : Bytes) (pos : Nat) : Result UInt8 := do
  debug_assert (pos < self.length) "assertion failed: pos < self.len"
  index (data SIZE self) pos

/-- At most as many bytes as the prefix holds, the key has left and the array is long. -/
def prefix_length_key (SIZE : Nat) (self key : Bytes) (at_depth : Nat) : Result Nat := do
  let len := min self.length (← length_at key at_depth)
  let len := min len SIZE
  prefix_length_bytes .little (← slice_to (data SIZE self) len) (← slice key at_depth (at_depth + len))

/-- At most as many bytes as the two have and the array is long. -/
def prefix_length_slice (SIZE : Nat) (self slice : Bytes) : Result Nat := do
  let len := min self.length slice.length
  let len := min len SIZE
  prefix_length_bytes .little (← slice_to (data SIZE self) len) (← slice_to slice len)

end ArrPartial

namespace ArrayKey

/-- Asserts that the slice fits the array. -/
def new_from_slice (N : Nat) (data : Bytes) : Result Bytes := do
  debug_assert (data.length ≤ N) "data length is greater than array length"
  return data

/-- `new_from_str` and `new_from_string`, from the bytes of the string. The byte after them
stays zero. -/
def new_from_str (N : Nat) (s : Bytes) : Result Bytes := do
  debug_assert (s.length + 1 < N) "data length is greater than array length"
  return s ++ [0]

/-- `KeyTrait::at` -/
def byte_at (N : Nat) (self : Bytes) (pos : Nat) : Result UInt8 := index (data N self) pos

/-- What is left of the key has to fit the array of the prefix. -/
def to_partial (N : Nat) (self : Bytes) (at_depth : Nat) : Result Bytes := do
  ArrPartial.from_slice N (← slice (data N self) at_depth self.length)

end ArrayKey

section Specs

variable {N : Nat} {bytes key : Bytes}

/-- A range within the list is read. -/
theorem slice_eq_ok {α : Type} {xs : List α} {start stop : Nat} (hle : start ≤ stop) (hstop : stop ≤ xs.length) :
    slice xs start stop = .ok ((xs.take stop).drop start) := if_pos ⟨hle, hstop⟩

/-- The bytes in use come first. -/
theorem take_data {length : Nat} (h : length ≤ bytes.length) : (data N bytes).take length = bytes.take length :=
  List.take_append_of_le_length h

/-- The array is at least as long as the bytes in use. -/
theorem length_le_data (N : Nat) (bytes : Bytes) : bytes.length ≤ (data N bytes).length := by
  unfold data
  rw [List.length_append]
  omega

/-- A byte in use is where it was. -/
theorem index_data {pos : Nat} {b : UInt8} (h : index bytes pos = .ok b) : index (data N bytes) pos = .ok b := by
  unfold index at h
  split at h
  · rename_i a ha
    cases h
    apply index_eq_ok
    rw [data, List.getElem?_append_left (List.getElem?_eq_some_iff.1 ha).1]
    exact ha
  · cases h

/-- A range of the bytes in use does not see the padding. -/
theorem slice_to_data {length : Nat} (h : length ≤ bytes.length) :
    slice_to (data N bytes) length = .ok (bytes.take length) := by
  rw [slice_to_eq_ok (le_trans h (length_le_data N bytes)), take_data h]

/-- The bytes in use from a place on. -/
theorem slice_data {start : Nat} (h : start ≤ bytes.length) :
    slice (data N bytes) start bytes.length = .ok (bytes.drop start) := by
  rw [slice_eq_ok h (length_le_data N bytes), take_data (le_refl _), List.take_length]

/-- Within both sides every access of the loop returns. -/
theorem byte_loop_eq (lhs rhs : Bytes) {len : Nat} (hlhs : len ≤ lhs.length) (hrhs : len ≤ rhs.length) (idx : Nat) :
    prefix_length_bytes.byte_loop lhs rhs len idx =
      .ok (partials.prefix_length_bytes.byte_loop lhs rhs len idx) := by
  induction hn : len - idx generalizing idx with
  | zero =>
    rw [prefix_length_bytes.byte_loop, partials.prefix_length_bytes.byte_loop, if_neg (by omega),
      if_neg (by omega)]
    rfl
  | succ n ih =>
    have hidx : idx < len := by omega
    have hleft : lhs[idx]? = some lhs[idx] := List.getElem?_eq_getElem (by omega)
    have hright : rhs[idx]? = some rhs[idx] := List.getElem?_eq_getElem (by omega)
    rw [prefix_length_bytes.byte_loop, partials.prefix_length_bytes.byte_loop, if_pos hidx, if_pos hidx,
      index_eq_ok hleft, index_eq_ok hright, hleft, hright]
    simp only [ok_bind, Option.some.injEq, ne_eq]
    split
    · rfl
    · exact ih (idx + 1) (by omega)

/-- Within both sides every word of the loop is read. -/
theorem word_loop_eq (endian : Endian) (lhs rhs : Bytes) {len : Nat} (hlhs : len ≤ lhs.length)
    (hrhs : len ≤ rhs.length) (idx : Nat) :
    prefix_length_bytes.word_loop endian lhs rhs len idx =
      .ok (partials.prefix_length_bytes.word_loop endian lhs rhs len idx) := by
  induction hn : len - idx using Nat.strongRecOn generalizing idx with
  | ind n ih =>
    subst hn
    rw [prefix_length_bytes.word_loop, partials.prefix_length_bytes.word_loop]
    by_cases hword : idx + 8 ≤ len
    · rw [if_pos hword, if_pos hword, slice_eq_ok (by omega) (by omega), slice_eq_ok (by omega) (by omega)]
      simp only [ok_bind, ne_eq, List.drop_take, Nat.add_sub_cancel_left]
      split
      · rfl
      · exact ih (len - (idx + 8)) (by omega) (idx + 8) rfl
    · rw [if_neg hword, if_neg hword]
      exact byte_loop_eq lhs rhs hlhs hrhs idx

/-- The loops stay within both sides. -/
theorem prefix_length_bytes_eq (endian : Endian) (lhs rhs : Bytes) :
    prefix_length_bytes endian lhs rhs = .ok (partials.prefix_length_bytes endian lhs rhs) :=
  word_loop_eq endian lhs rhs (Nat.min_le_left _ _) (Nat.min_le_right _ _) 0

namespace ArrPartial

/-- Bytes that fit the array pass the assertion. -/
theorem from_slice_eq (h : bytes.length ≤ N) : from_slice N bytes = .ok bytes := by
  unfold from_slice
  rw [debug_assert_of h]
  rfl

/-- A cut that the slice allows is within the bytes in use. -/
theorem partial_before_follows (h : bytes.length ≤ N) (length : Nat) :
    Follows (partials.partial_before bytes length) (partial_before N bytes length) := by
  intro p hp
  unfold partials.partial_before slice_to at hp
  split at hp
  · rename_i hle
    cases hp
    unfold partial_before
    rw [debug_assert_of hle, ok_bind, slice_to_data hle, ok_bind]
    exact from_slice_eq (by rw [List.length_take]; omega)
  · cases hp

/-- As for `partial_before`. -/
theorem partial_after_follows (h : bytes.length ≤ N) (start : Nat) :
    Follows (partials.partial_after bytes start) (partial_after N bytes start) := by
  intro p hp
  unfold partials.partial_after slice_from at hp
  split at hp
  · rename_i hle
    cases hp
    unfold partial_after
    rw [debug_assert_of hle, ok_bind, slice_data hle, ok_bind]
    exact from_slice_eq (by rw [List.length_drop]; omega)
  · cases hp

/-- A byte that is there is in use. -/
theorem byte_at_follows (pos : Nat) : Follows (partials.byte_at bytes pos) (byte_at N bytes pos) := by
  intro b hb
  have hlt : pos < bytes.length := by
    by_contra hnot
    unfold partials.byte_at index at hb
    rw [List.getElem?_eq_none (not_lt.1 hnot)] at hb
    cases hb
  unfold byte_at
  rw [debug_assert_of hlt, ok_bind]
  exact index_data hb

/-- The assertion leaves no room for a prefix that fills the array. -/
theorem partial_extended_with_guards (N : Nat) (bytes other : Bytes) :
    Guards (N ≤ bytes.length + other.length) (.ok (partials.partial_extended_with bytes other))
      (partial_extended_with N bytes other) := by
  intro p hp
  cases hp
  unfold partial_extended_with debug_assert
  constructor
  · intro hfull
    rw [if_neg (not_lt.2 hfull)]
    exact ⟨_, rfl⟩
  · intro hroom
    rw [if_pos (not_le.1 hroom)]
    rfl

/-- The length of the array is no bound for a prefix that fits it. -/
theorem prefix_length_key_follows (h : bytes.length ≤ N) (key : Bytes) (at_depth : Nat) :
    Follows (partials.prefix_length_key bytes key at_depth) (prefix_length_key N bytes key at_depth) := by
  unfold partials.prefix_length_key prefix_length_key
  refine (Follows.refl _).bind fun remaining hremaining => ?_
  unfold length_at usize_sub at hremaining
  split at hremaining
  · rename_i hdepth
    cases hremaining
    have hsize : min (min bytes.length (key.length - at_depth)) N = min bytes.length (key.length - at_depth) := by
      omega
    dsimp only
    rw [hsize, slice_to_data (Nat.min_le_left _ _), ok_bind, slice_eq_ok (by omega) (by omega), ok_bind,
      prefix_length_bytes_eq, List.drop_take, Nat.add_sub_cancel_left]
    exact Follows.refl _
  · cases hremaining

/-- As for `prefix_length_key`. -/
theorem prefix_length_slice_eq (h : bytes.length ≤ N) (slice : Bytes) :
    prefix_length_slice N bytes slice = .ok (partials.prefix_length_slice bytes slice) := by
  have hsize : min (min bytes.length slice.length) N = min bytes.length slice.length := by omega
  unfold prefix_length_slice partials.prefix_length_slice
  dsimp only
  rw [hsize, slice_to_data (Nat.min_le_left _ _), ok_bind, slice_to_eq_ok (Nat.min_le_right _ _), ok_bind,
    prefix_length_bytes_eq]

end ArrPartial

namespace ArrayKey

/-- A byte in use is where it was. -/
theorem byte_at_follows (N : Nat) (key : Bytes) (pos : Nat) :
    Follows (partials.byte_at key pos) (byte_at N key pos) := fun _ hb => index_data hb

/-- What is left of a key is no longer than the key. -/
theorem to_partial_follows (h : key.length ≤ N) (at_depth : Nat) :
    Follows (at_depth |> partials.to_partial key) (at_depth |> to_partial N key) := by
  intro p hp
  unfold partials.to_partial slice_from at hp
  split at hp
  · rename_i hle
    cases hp
    unfold to_partial
    rw [slice_data hle, ok_bind]
    exact ArrPartial.from_slice_eq (by rw [List.length_drop]; omega)
  · cases hp

end ArrayKey

end Specs

end rart.debug
