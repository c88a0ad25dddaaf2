import Rart.Debug.Bytes

open rart.debug (slice slice_eq_ok)

namespace rart

/-- The profile the crate is built with. -/
class Profile where
  debug_assertions : Bool

/-- `debug_assert!` -/
def debug_assert [Profile] (condition : Prop) [Decidable condition] (message : String) : Result Unit :=
  if Profile.debug_assertions = true ∧ ¬ condition then .error (.panic message) else .ok ()

/-- An assertion that holds returns. -/
theorem debug_assert_of [Profile] {condition : Prop} [Decidable condition] (h : condition) (message : String) :
    debug_assert condition message = .ok () := if_neg fun hnot => hnot.2 h

/-- `[u8; N]` -/
structure U8Array (N : Nat) where
  bytes : Bytes
  length_eq : bytes.length = N
deriving DecidableEq

namespace U8Array

variable {N : Nat}

/-- `[0; N]` -/
def zero : U8Array N := ⟨List.replicate N 0, List.length_replicate⟩

/-- `self[start..start + src.len()].copy_from_slice(src)` -/
def copy_from_slice (self : U8Array N) (start : Nat) (src : Bytes) : Result (U8Array N) :=
  if h : start + src.length ≤ N then
    .ok {
      bytes := self.bytes.take start ++ src ++ self.bytes.drop (start + src.length)
      length_eq := by
        have hlen := self.length_eq
        simp only [List.length_append, List.length_take, List.length_drop]
        omega }
  else .error .index_out_of_bounds

/-- `self[pos] = byte` -/
def write (self : U8Array N) (pos : Nat) (byte : UInt8) : Result (U8Array N) :=
  if pos < N then .ok ⟨self.bytes.set pos byte, by rw [List.length_set, self.length_eq]⟩
  else .error .index_out_of_bounds

/-- Arrays with the same bytes are the same. -/
theorem eq_of_bytes {a b : U8Array N} (h : a.bytes = b.bytes) : a = b := by
  cases a
  cases b
  cases h
  rfl

/-- Writing one byte is copying a slice of one byte. -/
theorem write_eq_copy (self : U8Array N) {pos : Nat} (h : pos < N) (byte : UInt8) :
    self.write pos byte = self.copy_from_slice pos [byte] := by
  have hset : self.bytes.set pos byte = self.bytes.take pos ++ [byte] ++ self.bytes.drop (pos + [byte].length) := by
    rw [List.set_eq_take_append_cons_drop, if_pos (by rwa [self.length_eq]), List.append_assoc]
    rfl
  rw [write, if_pos h, copy_from_slice, dif_pos (show pos + [byte].length ≤ N from h)]
  exact congrArg _ (eq_of_bytes hset)

/-- Bytes that are copied behind those that are held take the place of the next ones. -/
theorem copy_behind {self : U8Array N} {held src rest : Bytes} {old : Bytes}
    (hself : self.bytes = held ++ (old ++ rest))
    (hold : old.length = src.length) :
    ∃ arr, self.copy_from_slice held.length src = .ok arr ∧ arr.bytes = held ++ src ++ rest := by
  have hlen := self.length_eq
  rw [hself, List.length_append, List.length_append] at hlen
  have hroom : held.length + src.length ≤ N := by omega
  refine ⟨_, dif_pos hroom, ?_⟩
  change self.bytes.take held.length ++ src ++ self.bytes.drop (held.length + src.length) = _
  rw [hself, List.take_left, ← hold, ← List.drop_drop, List.drop_left, List.drop_left]

/-- A fresh array, with `src` at its front. -/
theorem copy_to_zero {src : Bytes} (h : src.length ≤ N) :
    ∃ arr, (zero : U8Array N).copy_from_slice 0 src = .ok arr ∧
      arr.bytes = src ++ List.replicate (N - src.length) 0 := by
  have hzero : (zero : U8Array N).bytes =
      [] ++ (List.replicate src.length 0 ++ List.replicate (N - src.length) 0) := by
    rw [List.nil_append, List.replicate_append_replicate, Nat.add_sub_cancel' h]
    rfl
  exact copy_behind hzero List.length_replicate

end U8Array

namespace partials

/-- `ArrPartial<SIZE>` -/
structure ArrPartial (SIZE : Nat) where
  data : U8Array SIZE
  len : Nat

/-- `VectorPartial` -/
structure VectorPartial where
  data : Bytes
deriving DecidableEq

/-- `OverflowPartial<N>` -/
structure OverflowPartial (N : Nat) where
  inline : U8Array N
  len : Nat
  overflow : Option Bytes

/-- The operations of `Partial` that the key types call. A value is `Wf` when one of the
constructors of its type builds it, and stands for its `bytes`. -/
class Partial (P : Type) where
  to_slice : P → Result Bytes
  len : P → Nat
  Wf : P → Prop
  bytes : P → Bytes
  to_slice_eq : ∀ {p}, Wf p → to_slice p = .ok (bytes p)
  len_eq : ∀ {p}, Wf p → len p = (bytes p).length

namespace ArrPartial

variable {SIZE : Nat}

def to_slice (self : ArrPartial SIZE) : Result Bytes := slice_to self.data.bytes self.len

def from_slice [Profile] (src : Bytes) : Result (ArrPartial SIZE) := do
  debug_assert (src.length ≤ SIZE)
    s!"data length {src.length} is greater than maximum partial length {SIZE}"
  let data ← U8Array.zero.copy_from_slice 0 src
  return ⟨data, src.length⟩

instance : Partial (ArrPartial SIZE) where
  to_slice := to_slice
  len := len
  Wf self := self.len ≤ SIZE
  bytes self := self.data.bytes.take self.len
  to_slice_eq {self} h := slice_to_eq_ok (by rwa [self.data.length_eq])
  len_eq {self} h := by rw [List.length_take, self.data.length_eq, Nat.min_eq_left h]

/-- The bytes in use fit the array. -/
theorem length_bytes_le (p : ArrPartial SIZE) : (Partial.bytes p).length ≤ SIZE := by
  change (p.data.bytes.take p.len).length ≤ SIZE
  rw [List.length_take, p.data.length_eq]
  exact Nat.min_le_right _ _

theorem from_slice_spec [Profile] {src : Bytes} (h : src.length ≤ SIZE) :
    ∃ p : ArrPartial SIZE, from_slice src = .ok p ∧ Partial.Wf p ∧ Partial.bytes p = src := by
  obtain ⟨arr, hcopy, harr⟩ := U8Array.copy_to_zero h
  refine ⟨⟨arr, src.length⟩, ?_, h, ?_⟩
  · unfold from_slice
    rw [debug_assert_of h, ok_bind, hcopy]
    rfl
  · change arr.bytes.take src.length = src
    rw [harr, List.take_left]

end ArrPartial

namespace VectorPartial

def from_slice (src : Bytes) : VectorPartial := ⟨src⟩

/-- `&self.data[..self.data.len()]` -/
def to_slice (self : VectorPartial) : Result Bytes := slice_to self.data self.data.length

/-- The slice of a vector is the vector. -/
theorem to_slice_eq_data (self : VectorPartial) : self.to_slice = .ok self.data := by
  unfold to_slice
  rw [slice_to_eq_ok (Nat.le_refl _), List.take_length]

instance : Partial VectorPartial where
  to_slice := to_slice
  len self := self.data.length
  Wf _ := True
  bytes self := self.data
  to_slice_eq _ := to_slice_eq_data _
  len_eq _ := rfl

end VectorPartial

/-- The message of `heap_data`, in `OverflowPartial` and `OverflowKey`. -/
def missing_overflow : String := "overflow storage must exist when len exceeds inline capacity"

namespace OverflowPartial

variable {N : Nat}

/-- The box of a prefix that has one. -/
def heap_data (self : OverflowPartial N) : Result Bytes := expect self.overflow missing_overflow

/-- The bytes, however they are stored. -/
def data (self : OverflowPartial N) : Result Bytes :=
  if self.len ≤ N then slice_to self.inline.bytes self.len else self.heap_data

def from_slice (src : Bytes) : Result (OverflowPartial N) :=
  if src.length ≤ N then do
    let inline ← U8Array.zero.copy_from_slice 0 src
    return ⟨inline, src.length, none⟩
  else return ⟨.zero, src.length, some src⟩

instance : Partial (OverflowPartial N) where
  to_slice := data
  len := len
  Wf self := N < self.len → ∃ data, self.overflow = some data ∧ data.length = self.len
  bytes self := if self.len ≤ N then self.inline.bytes.take self.len else self.overflow.getD []
  to_slice_eq {self} h := by
    unfold data heap_data
    split
    · rename_i hle
      exact slice_to_eq_ok (by rwa [self.inline.length_eq])
    · rename_i hgt
      obtain ⟨data, hdata, _⟩ := h (not_le.1 hgt)
      rw [hdata]
      rfl
  len_eq {self} h := by
    split
    · rename_i hle
      rw [List.length_take, self.inline.length_eq, Nat.min_eq_left hle]
    · rename_i hgt
      obtain ⟨data, hdata, hlen⟩ := h (not_le.1 hgt)
      rw [hdata]
      exact hlen.symm

theorem from_slice_spec (src : Bytes) :
    ∃ p : OverflowPartial N, from_slice src = .ok p ∧ Partial.Wf p ∧ Partial.bytes p = src := by
  unfold from_slice
  by_cases h : src.length ≤ N
  · obtain ⟨arr, hcopy, harr⟩ := U8Array.copy_to_zero h
    refine ⟨⟨arr, src.length, none⟩, ?_, fun hgt => absurd h (not_le.2 hgt), ?_⟩
    · rw [if_pos h, hcopy]
      rfl
    · change (if src.length ≤ N then arr.bytes.take src.length else _) = src
      rw [if_pos h, harr, List.take_left]
  · refine ⟨⟨.zero, src.length, some src⟩, if_neg h, fun _ => ⟨src, rfl, rfl⟩, ?_⟩
    change (if src.length ≤ N then _ else src) = src
    rw [if_neg h]

end OverflowPartial

end partials

end rart
