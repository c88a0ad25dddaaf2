import Mathlib.Data.Nat.Bitwise
import Rart.Keys.Chains
import Rart.Lib.Digits

open LexOrder Digits
open rart.partials

namespace rart.keys

/-- The width of a pointer on the target. -/
inductive PointerWidth where
  | w16
  | w32
  | w64
deriving DecidableEq, Repr

/-- The target that a build is for. -/
class Target where
  pointer_width : PointerWidth

/-- The size of `usize` and `isize`. -/
def PointerWidth.bytes : PointerWidth → Nat
  | w16 => 2
  | w32 => 4
  | w64 => 8

/-- The unsigned integers that keys are made of. -/
inductive UnsignedType where
  | u8
  | u16
  | u32
  | u64
  | usize
  | u128
deriving DecidableEq, Repr

/-- The signed integers that keys are made of. -/
inductive SignedType where
  | i8
  | i16
  | i32
  | i64
  | i128
  | isize
deriving DecidableEq, Repr

section Sizes

variable [Target]

/-- `std::mem::size_of` -/
def UnsignedType.size_of : UnsignedType → Nat
  | u8 => 1
  | u16 => 2
  | u32 => 4
  | u64 => 8
  | usize => Target.pointer_width.bytes
  | u128 => 16

/-- `std::mem::size_of` -/
def SignedType.size_of : SignedType → Nat
  | i8 => 1
  | i16 => 2
  | i32 => 4
  | i64 => 8
  | i128 => 16
  | isize => Target.pointer_width.bytes

/-- No integer is without bytes. -/
theorem SignedType.size_of_pos (T : SignedType) : 0 < T.size_of := by
  cases T with
  | isize => cases h : Target.pointer_width <;> simp [size_of, h, PointerWidth.bytes]
  | _ => exact Nat.succ_pos _

end Sizes

/-- An integer of `size` bytes. -/
abbrev Word (size : Nat) := BitVec (8 * size)

variable {size : Nat}

/-- `to_be_bytes` -/
def to_be_bytes (data : Word size) : Bytes := (digits 256 size data.toNat).map UInt8.ofNat

section Bytes

/-- A word is below the power of its size. -/
theorem Word.lt (data : Word size) : data.toNat < 256 ^ size := by
  have hlt := data.isLt
  rwa [Nat.pow_mul] at hlt

/-- A digit is a byte. -/
theorem digit_lt {data : Word size} {d : Nat} (hd : d ∈ digits 256 size data.toNat) : d < 256 :=
  lt_base_of_mem_digits (by decide) data.lt hd

/-- As many bytes as the word has. -/
@[simp] theorem length_to_be_bytes (data : Word size) : (to_be_bytes data).length = size := by
  rw [to_be_bytes, List.length_map, length_digits]

/-- The bytes of a word are its digits. -/
theorem map_toNat_to_be_bytes (data : Word size) : (to_be_bytes data).map UInt8.toNat = digits 256 size data.toNat := by
  rw [to_be_bytes, List.map_map]
  refine (List.map_congr_left fun d hd => ?_).trans (List.map_id _)
  exact UInt8.toNat_ofNat_of_lt' (digit_lt hd)

/-- Bytes are ordered as numbers. -/
theorem lexCompare_toNat (s t : Bytes) : lexCompare (s.map UInt8.toNat) (t.map UInt8.toNat) = lexCompare s t :=
  lexCompare_map fun _ _ _ _ => ⟨UInt8.lt_iff_toNat_lt.symm, UInt8.lt_iff_toNat_lt.symm⟩

/-- Big-endian bytes compare as the numbers do. -/
theorem lexCompare_to_be_bytes (x y : Word size) :
    lexCompare (to_be_bytes x) (to_be_bytes y) = compare x.toNat y.toNat := by
  rw [← lexCompare_toNat, map_toNat_to_be_bytes, map_toNat_to_be_bytes, lexCompare_digits (by decide) x.lt y.lt]

/-- Bytes read big-endian are the digits of a number. -/
theorem from_be_bytes_eq_value (bs : Bytes) : from_ne_bytes .big bs = value 256 (bs.map UInt8.toNat) := by
  change bs.foldl _ 0 = (bs.map UInt8.toNat).foldl _ 0
  rw [List.foldl_map]

/-- Big-endian bytes, with zeros on their left, stand for the number that they were made of. -/
theorem from_be_bytes_to_be_bytes (n : Nat) (data : Word size) :
    from_ne_bytes .big (List.replicate n 0 ++ to_be_bytes data) = data.toNat := by
  rw [from_be_bytes_eq_value, List.map_append, List.map_replicate, map_toNat_to_be_bytes]
  change value 256 (List.replicate n 0 ++ _) = _
  rw [value_replicate_append, value_digits data.lt]

end Bytes

section Sign

/-- `1 << (std::mem::size_of::<$tu>() * 8 - 1)` -/
def sign_bit (size : Nat) : Word size := 1#(8 * size) <<< (size * 8 - 1)

/-- Flipping the top bit adds its half or takes it away. -/
theorem xor_two_pow {k v : Nat} (hv : v < 2 ^ (k + 1)) : v ^^^ 2 ^ k = if v < 2 ^ k then v + 2 ^ k else v - 2 ^ k := by
  have hpos := Nat.two_pow_pos k
  rw [Nat.pow_succ] at hv
  have hmod : (v ^^^ 2 ^ k) % 2 ^ k = v % 2 ^ k := by
    rw [Nat.xor_mod_two_pow, Nat.mod_self, Nat.xor_zero]
  have hdiv : (v ^^^ 2 ^ k) / 2 ^ k = v / 2 ^ k ^^^ 1 := by
    rw [Nat.xor_div_two_pow, Nat.div_self hpos]
  have hsplit := Nat.div_add_mod (v ^^^ 2 ^ k) (2 ^ k)
  rw [hmod, hdiv] at hsplit
  split
  · rename_i hlt
    rw [Nat.div_eq_of_lt hlt, Nat.mod_eq_of_lt hlt, Nat.zero_xor] at hsplit
    omega
  · rename_i hge
    have hone : v / 2 ^ k = 1 := Nat.div_eq_of_lt_le (by omega) (by omega)
    have hrest := Nat.div_add_mod v (2 ^ k)
    rw [hone] at hsplit hrest
    rw [Nat.xor_self] at hsplit
    omega

/-- With its sign bit flipped, a signed number is as far from zero as it was from the least
number of its type. -/
theorem toNat_xor_sign_bit (hsize : 0 < size) (val : Word size) :
    ((val ^^^ sign_bit size).toNat : Int) = val.toInt + (2 ^ (8 * size - 1) : Nat) := by
  obtain ⟨k, hk⟩ : ∃ k, 8 * size = k + 1 := ⟨8 * size - 1, by omega⟩
  have hlt := val.isLt
  have hbit : (sign_bit size).toNat = 2 ^ k := by
    rw [sign_bit, Nat.mul_comm size 8]
    change (BitVec.twoPow _ _).toNat = _
    rw [BitVec.toNat_twoPow, hk, Nat.add_sub_cancel, Nat.mod_eq_of_lt (Nat.pow_lt_pow_succ (by decide))]
  have hpow : (2 : Nat) ^ (8 * size) = 2 ^ k * 2 := by rw [hk, Nat.pow_succ]
  have hhalf : 8 * size - 1 = k := by omega
  rw [BitVec.toNat_xor, hbit, BitVec.toInt_eq_toNat_cond, hhalf, xor_two_pow (by rwa [Nat.pow_succ, ← hpow])]
  rw [hpow] at hlt ⊢
  split <;> split <;> omega

/-- Flipping the sign bit turns the signed order into the unsigned one. -/
theorem compare_xor_sign_bit (hsize : 0 < size) (x y : Word size) :
    compare (x ^^^ sign_bit size).toNat (y ^^^ sign_bit size).toNat = compare x.toInt y.toInt := by
  have hx := toNat_xor_sign_bit hsize x
  have hy := toNat_xor_sign_bit hsize y
  rcases lt_trichotomy x.toInt y.toInt with hlt | heq | hgt
  · rw [compare_lt_iff_lt.2 hlt, compare_lt_iff_lt]
    omega
  · rw [compare_eq_iff_eq.2 heq, compare_eq_iff_eq]
    omega
  · rw [compare_gt_iff_gt.2 hgt, compare_gt_iff_gt]
    omega

end Sign

section Conversions

variable {K PartialType : Type} [KeyTrait K PartialType]

/-- `impl_from_unsigned` -/
def impl_from_unsigned (data : Word size) : Result K := KeyTrait.new_from_slice (to_be_bytes data)

/-- `impl_from_signed` -/
def impl_from_signed (val : Word size) : Result K :=
  let v := val
  let j := v ^^^ sign_bit size
  KeyTrait.new_from_slice (to_be_bytes j)

variable [Profile] [Target] {N P : Nat}

/-- `From` for every unsigned type. -/
def ArrayKey.from_unsigned (T : UnsignedType) (data : Word T.size_of) : Result (ArrayKey N) :=
  impl_from_unsigned data

/-- `From<i8>` -/
def ArrayKey.from_i8 (val : Word 1) : Result (ArrayKey N) := do
  let v := val
  let j := v ^^^ 0x80#8
  let data ← U8Array.zero.write 0 (UInt8.ofBitVec j)
  return ⟨data, 1⟩

/-- `From` for every signed type, `i8` by itself. -/
def ArrayKey.from_signed : (T : SignedType) → Word T.size_of → Result (ArrayKey N)
  | .i8, val => from_i8 val
  | _, val => impl_from_signed val

/-- `From` for every unsigned type. -/
def VectorKey.from_unsigned (T : UnsignedType) (data : Word T.size_of) : Result VectorKey := impl_from_unsigned data

/-- `From<i8>` -/
def VectorKey.from_i8 (val : Word 1) : VectorKey :=
  let v := val
  let j := v ^^^ 0x80#8
  new_from_vec [UInt8.ofBitVec j]

/-- `From` for every signed type, `i8` by itself. -/
def VectorKey.from_signed : (T : SignedType) → Word T.size_of → Result VectorKey
  | .i8, val => .ok (from_i8 val)
  | _, val => impl_from_signed val

/-- `From` for every unsigned type. -/
def OverflowKey.from_unsigned (T : UnsignedType) (data : Word T.size_of) : Result (OverflowKey N P) :=
  impl_from_unsigned data

/-- `From<i8>` -/
def OverflowKey.from_i8 (val : Word 1) : Result (OverflowKey N P) :=
  let v := val
  let j := v ^^^ 0x80#8
  new_from_slice [UInt8.ofBitVec j]

/-- `From` for every signed type, `i8` by itself. -/
def OverflowKey.from_signed : (T : SignedType) → Word T.size_of → Result (OverflowKey N P)
  | .i8, val => from_i8 val
  | _, val => impl_from_signed val

end Conversions

section Byte

/-- A byte is its own big-endian form. -/
theorem to_be_bytes_byte (v : Word 1) : to_be_bytes v = [UInt8.ofBitVec v] := by
  have hbyte : UInt8.ofNat v.toNat = UInt8.ofBitVec v := UInt8.toNat_inj.1 (UInt8.toNat_ofNat_of_lt' v.isLt)
  unfold to_be_bytes
  rw [digits, digits, Nat.pow_zero, Nat.div_one, List.map_cons, List.map_nil, hbyte]

variable [Profile] {N P : Nat} (val : Word 1)

/-- The separate code for `i8` builds the key that the macro for the wider types would. -/
theorem ArrayKey.from_i8_eq (hN : 1 ≤ N) : (from_i8 val : Result (ArrayKey N)) = impl_from_signed val := by
  change _ = new_from_slice (to_be_bytes (val ^^^ sign_bit 1))
  have hlen : [UInt8.ofBitVec (val ^^^ sign_bit 1)].length ≤ N := hN
  rw [to_be_bytes_byte, new_from_slice, debug_assert_of hlen, ← U8Array.write_eq_copy _ hN]
  rfl

omit [Profile] in
/-- The conversion of `i8` does what that of the wider types does. -/
theorem VectorKey.from_i8_eq : Except.ok (from_i8 val) = (impl_from_signed val : Result VectorKey) := by
  change _ = new_from_slice (to_be_bytes (val ^^^ sign_bit 1))
  rw [to_be_bytes_byte]
  rfl

/-- The conversion of `i8` does what that of the wider types does. -/
theorem OverflowKey.from_i8_eq : (from_i8 val : Result (OverflowKey N P)) = impl_from_signed val := by
  change _ = new_from_slice (to_be_bytes (val ^^^ sign_bit 1))
  rw [to_be_bytes_byte]
  rfl

end Byte

section Decoding

/-- Bytes that are copied to the end of eight zeros. -/
theorem copy_right (data : Word size) (hsize : size ≤ 8) : ∃ arr : U8Array 8,
    U8Array.zero.copy_from_slice (8 - size) (to_be_bytes data) = .ok arr ∧
      from_ne_bytes .big arr.bytes = data.toNat := by
  have hzero : (U8Array.zero : U8Array 8).bytes = List.replicate (8 - size) 0 ++ (List.replicate size 0 ++ []) := by
    rw [List.append_nil, List.replicate_append_replicate, Nat.sub_add_cancel hsize]
    rfl
  have hold : (List.replicate size (0 : UInt8)).length = (to_be_bytes data).length := by simp
  obtain ⟨arr, hcopy, harr⟩ := U8Array.copy_behind hzero hold
  rw [List.length_replicate] at hcopy
  refine ⟨arr, hcopy, ?_⟩
  rw [harr, List.append_nil, from_be_bytes_to_be_bytes]

variable {N P : Nat} {data : Word size}

/-- The bytes of a word of eight bytes at most spell the word. -/
theorem ArrayKey.to_be_u64_eq {key : ArrayKey N} {rest : Bytes} (h : key.Holds (to_be_bytes data) rest)
    (hsize : size ≤ 8) : key.to_be_u64 = .ok data.toNat := by
  obtain ⟨arr, hcopy, harr⟩ := copy_right data hsize
  unfold to_be_u64
  rw [h.as_slice, h.1, length_to_be_bytes, usize_sub_eq_ok hsize]
  simp only [ok_bind, hcopy, pure_eq_ok, harr]

variable [Profile]

/-- The length check of `VectorKey` turns shorter keys away when assertions are on. -/
theorem VectorKey.to_be_u64_eq (hsize : size ≤ 8) : VectorKey.to_be_u64 ⟨to_be_bytes data⟩ =
    if Profile.debug_assertions = true ∧ size ≠ 8 then .error (.panic "data length is less than 8 bytes")
    else .ok data.toNat := by
  obtain ⟨arr, hcopy, harr⟩ := copy_right data hsize
  have hfail : Profile.debug_assertions = true ∧ ¬ (to_be_bytes data).length ≥ 8 ↔
      Profile.debug_assertions = true ∧ size ≠ 8 := by
    rw [length_to_be_bytes]
    exact and_congr_right fun _ => by omega
  unfold to_be_u64 debug_assert
  by_cases h : Profile.debug_assertions = true ∧ size ≠ 8
  · rw [if_pos (hfail.2 h), if_pos h]
    rfl
  · rw [if_neg (mt hfail.1 h), if_neg h]
    simp only [ok_bind, length_to_be_bytes, usize_sub_eq_ok hsize,
      slice_to_eq_ok (Nat.le_of_eq (length_to_be_bytes data).symm), List.take_of_length_le
      (Nat.le_of_eq (length_to_be_bytes data)), hcopy, pure_eq_ok, harr]

/-- The bytes of a word of eight bytes at most spell the word. -/
theorem OverflowKey.to_be_u64_eq {key : OverflowKey N P} {rest : Bytes} (h : key.Holds (to_be_bytes data) rest)
    (hsize : size ≤ 8) : key.to_be_u64 = .ok data.toNat := by
  obtain ⟨arr, hcopy, harr⟩ := copy_right data hsize
  obtain ⟨hlen, hdata⟩ := h.data
  rw [length_to_be_bytes] at hlen
  unfold to_be_u64
  rw [hlen, hdata, debug_assert_of hsize, usize_sub_eq_ok hsize]
  simp only [ok_bind, hcopy, pure_eq_ok, harr]

variable [Target]

/-- The keys of unsigned integers decode to the integers, those of `VectorKey` if and only if
they have all eight bytes or the assertions are off. -/
theorem to_be_u64_round_trip (T : UnsignedType) (hT : T.size_of ≤ 8) (x : Word T.size_of) :
    (∀ N, 8 ≤ N → (do (← (ArrayKey.from_unsigned T x : Result (ArrayKey N))).to_be_u64) = .ok x.toNat) ∧
    ((do (← VectorKey.from_unsigned T x).to_be_u64) = .ok x.toNat ↔
      Profile.debug_assertions = false ∨ T.size_of = 8) ∧
    (∀ N P, (do (← (OverflowKey.from_unsigned T x : Result (OverflowKey N P))).to_be_u64) = .ok x.toNat) := by
  refine ⟨fun N hN => ?_, ?_, fun N P => ?_⟩
  · have hroom : Room (ArrayKey N) (to_be_bytes x).length := by
      rintro cap ⟨⟩
      rw [length_to_be_bytes]
      exact Nat.le_trans hT hN
    obtain ⟨key, hkey, hheld⟩ := ArrayKey.stores.new_from_slice hroom
    change (KeyTrait.new_from_slice (to_be_bytes x) : Result (ArrayKey N)) >>= _ = _
    rw [hkey, ok_bind, ArrayKey.to_be_u64_eq hheld hT]
  · change VectorKey.to_be_u64 ⟨to_be_bytes x⟩ = _ ↔ _
    rw [VectorKey.to_be_u64_eq hT]
    split
    · rename_i hfail
      refine iff_of_false (fun h => nomatch h) ?_
      rw [hfail.1]
      simpa using hfail.2
    · rename_i hpass
      refine iff_of_true rfl ?_
      by_cases hsize : T.size_of = 8
      · exact Or.inr hsize
      · exact Or.inl (Bool.eq_false_iff.2 fun hdebug => hpass ⟨hdebug, hsize⟩)
  · have hroom : Room (OverflowKey N P) (to_be_bytes x).length := by rintro cap ⟨⟩
    obtain ⟨key, hkey, hheld⟩ := OverflowKey.stores.new_from_slice hroom
    change (KeyTrait.new_from_slice (to_be_bytes x) : Result (OverflowKey N P)) >>= _ = _
    rw [hkey, ok_bind, OverflowKey.to_be_u64_eq hheld hT]

omit [Profile] [Target] in
/-- A `u32` in a release build, out of keys of all three types. -/
theorem to_be_u64_round_trip_u32 :
    letI : Profile := ⟨false⟩
    letI : Target := ⟨.w64⟩
    (∀ N, 8 ≤ N → (do (← (ArrayKey.from_unsigned .u32 5#32 : Result (ArrayKey N))).to_be_u64) = .ok 5) ∧
    (do (← VectorKey.from_unsigned .u32 5#32).to_be_u64) = .ok 5 ∧
    (∀ N P, (do (← (OverflowKey.from_unsigned .u32 5#32 : Result (OverflowKey N P))).to_be_u64) = .ok 5) := by
  let : Profile := ⟨false⟩
  let : Target := ⟨.w64⟩
  obtain ⟨harray, hvector, hoverflow⟩ := to_be_u64_round_trip .u32 (by decide) 5#32
  exact ⟨harray, hvector.2 (Or.inl rfl), hoverflow⟩

omit [Profile] [Target] in
/-- With debug assertions, the key of a `u32` is rejected as too short. -/
theorem vector_key_rejects_u32 :
    letI : Profile := ⟨true⟩
    letI : Target := ⟨.w64⟩
    (do (← VectorKey.from_unsigned .u32 5#32).to_be_u64) = .error (.panic "data length is less than 8 bytes") := by
  decide

end Decoding

end rart.keys
