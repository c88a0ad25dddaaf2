import Mathlib.Order.Defs.LinearOrder
import Mathlib.Order.Basic
import Rart.Utils.Bitset

/-- Bytes are ordered as numbers. -/
instance u8_linear_order : LinearOrder UInt8 where
  le_refl := UInt8.le_refl
  le_trans _ _ _ := UInt8.le_trans
  le_antisymm _ _ := UInt8.le_antisymm
  le_total := UInt8.le_total
  lt_iff_le_not_ge a b := by
    rw [UInt8.lt_iff_toNat_lt, UInt8.le_iff_toNat_le, UInt8.le_iff_toNat_le]
    omega
  toDecidableLE := inferInstance
  toDecidableEq := inferInstance

namespace rart.utils

/-- The signed byte vectors of the `simdeez` crate, with its documented meaning
for the first sixteen lanes. -/
structure Simdeez where
  Vi8 : Type
  set1 : BitVec 8 → Vi8
  load_from_slice : List (BitVec 8) → Vi8
  bitxor : Vi8 → Vi8 → Vi8
  cmp_lt : Vi8 → Vi8 → Vi8
  cmp_eq : Vi8 → Vi8 → Vi8
  get_mask : Vi8 → BitVec 32
  lane : Vi8 → Nat → BitVec 8
  lane_set1 : ∀ b i, i < 16 → lane (set1 b) i = b
  lane_load_from_slice : ∀ bytes i b, i < 16 → bytes[i]? = some b → lane (load_from_slice bytes) i = b
  lane_bitxor : ∀ v w i, i < 16 → lane (bitxor v w) i = lane v i ^^^ lane w i
  mask_cmp_lt : ∀ v w i, i < 16 → (get_mask (cmp_lt v w)).getLsbD i = (lane v i).slt (lane w i)
  mask_cmp_eq : ∀ v w i, i < 16 → (get_mask (cmp_eq v w)).getLsbD i = decide (lane v i = lane w i)

/-- The lanes of a mask that a predicate gave. -/
theorem getLsbD_mask (p : Nat → Bool) {i : Nat} (hi : i < 16) :
    ((BitVec.ofBoolListLE ((List.range 16).map p)).setWidth 32).getLsbD i = p i := by
  have h32 : i < 32 := by omega
  rw [BitVec.getLsbD_setWidth, BitVec.getLsbD_ofBoolListLE, List.getD_eq_getElem?_getD, List.getElem?_map,
    List.getElem?_range hi, decide_eq_true h32]
  rfl

/-- Vectors of sixteen bytes, lane by lane. A comparison sets all bits of a lane or none,
and the mask collects the sign bits. -/
def Simdeez.lanes : Simdeez where
  Vi8 := Nat → BitVec 8
  set1 b _ := b
  load_from_slice bytes i := bytes.getD i 0#8
  bitxor v w i := v i ^^^ w i
  cmp_lt v w i := if (v i).slt (w i) then BitVec.allOnes 8 else 0#8
  cmp_eq v w i := if v i = w i then BitVec.allOnes 8 else 0#8
  get_mask v := (BitVec.ofBoolListLE ((List.range 16).map fun i => (v i).msb)).setWidth 32
  lane v i := v i
  lane_set1 _ _ _ := rfl
  lane_load_from_slice bytes i b _ hb := by
    change bytes.getD i 0#8 = b
    rw [List.getD_eq_getElem?_getD, hb, Option.getD_some]
  lane_bitxor _ _ _ _ := rfl
  mask_cmp_lt v w i hi := by
    rw [getLsbD_mask _ hi]
    dsimp only
    split
    · rename_i hlt
      rw [hlt]
      rfl
    · rename_i hge
      rw [Bool.eq_false_of_not_eq_true hge]
      rfl
  mask_cmp_eq v w i hi := by
    rw [getLsbD_mask _ hi]
    dsimp only
    split
    · rename_i heq
      rw [decide_eq_true heq]
      rfl
    · rename_i hne
      rw [decide_eq_false hne]
      rfl

/-- The features the crate is built with. -/
class Features where
  simd_keys : Option Simdeez

/-- `simdeez_find_insert_pos` -/
def simdeez_find_insert_pos (S : Simdeez) (key : UInt8) (keys : Bytes) (ff_mask_out : BitVec 32) :
    Option Nat :=
  -- the sign bit is flipped so that the signed comparison orders unsigned bytes
  let key_cmp_vec := S.set1 (key ^^^ 0x80).toBitVec
  let key_vec := S.load_from_slice (keys.map UInt8.toBitVec)
  let key_vec_unsigned := S.bitxor key_vec (S.set1 0x80#8)
  let bitfield := S.get_mask (S.cmp_lt key_cmp_vec key_vec_unsigned) &&& ff_mask_out
  if bitfield ≠ 0#32 then some bitfield.ctz.toNat else none

/-- `simdeez_find_key` -/
def simdeez_find_key (S : Simdeez) (key : UInt8) (keys : Bytes) (ff_mask_out : BitVec 32) :
    Option Nat :=
  let key_cmp_vec := S.set1 key.toBitVec
  let key_vec := S.load_from_slice (keys.map UInt8.toBitVec)
  let bitfield := S.get_mask (S.cmp_eq key_cmp_vec key_vec) &&& ff_mask_out
  if bitfield ≠ 0#32 then some bitfield.ctz.toNat else none

/-- The loop of `binary_find_key`. -/
def binary_find_key.loop (key : UInt8) (keys : Bytes) (left right : Nat) : Option Nat :=
  if left < right then
    let mid := (left + right) / 2
    match keys[mid]? with
    | none => none
    | some b =>
      if b < key then loop key keys (mid + 1) right
      else if b = key then some mid
      else loop key keys left mid
  else none
termination_by right - left

/-- Half the keys that are left are dropped in each round. -/
def binary_find_key (key : UInt8) (keys : Bytes) (num_children : Nat) : Option Nat :=
  binary_find_key.loop key keys 0 num_children

section Search

variable [Features]

/-- Narrow nodes are searched key by key, and wide ones in one vector where there is one. -/
def u8_keys_find_key_position_sorted (WIDTH : Nat) (key : UInt8) (keys : Bytes)
    (num_children : Nat) : Option Nat :=
  if WIDTH ≤ 4 then (List.range num_children).find? (fun i => decide (keys[i]? = some key))
  else
    match Features.simd_keys with
    | some S => simdeez_find_key S key keys ((1#32 <<< num_children) - 1#32)
    | none => binary_find_key key keys num_children

/-- The first key that is greater, or the end. -/
def u8_keys_find_insert_position_sorted (WIDTH : Nat) (key : UInt8) (keys : Bytes)
    (num_children : Nat) : Option Nat :=
  let linear := ((List.range num_children).find? (fun i => (keys[i]?).any (key < ·))).or
    (some num_children)
  match Features.simd_keys with
  | some S =>
    if 16 ≤ WIDTH then
      (simdeez_find_insert_pos S key keys ((1#32 <<< num_children) - 1#32)).or (some num_children)
    else linear
  | none => linear

end Search

section Masks

/-- The mask keeps the lanes of the keys in use. -/
theorem getLsbD_live_mask {num_children i : Nat} (hnum : num_children ≤ 16) :
    ((1#32 <<< num_children) - 1#32).getLsbD i = decide (i < num_children) := by
  have hpow : 2 ^ num_children < 2 ^ 32 := Nat.pow_lt_pow_right (by omega) (by omega)
  have hpos := Nat.two_pow_pos num_children
  have hshift : (1#32 <<< num_children).toNat = 2 ^ num_children := by
    rw [BitVec.toNat_shiftLeft, Nat.shiftLeft_eq]
    simpa using Nat.mod_eq_of_lt hpow
  have hsub : ((1#32 <<< num_children) - 1#32).toNat = 2 ^ num_children - 1 := by
    rw [BitVec.toNat_sub_of_le (by rw [BitVec.le_def, hshift]; exact hpos), hshift]
    rfl
  rw [← BitVec.testBit_toNat, hsub, Nat.testBit_two_pow_sub_one]

/-- The lowest bit of a mask restricted to the live lanes is the first live lane
that satisfies the comparison. -/
theorem first_masked_lane {mask : BitVec 32} {p : Nat → Bool} {num_children : Nat}
    (hnum : num_children ≤ 16) (hmask : ∀ i < num_children, mask.getLsbD i = p i) :
    (if mask &&& ((1#32 <<< num_children) - 1#32) ≠ 0#32 then
      some (mask &&& ((1#32 <<< num_children) - 1#32)).ctz.toNat else none) =
    (List.range num_children).find? p := by
  generalize hfield : mask &&& ((1#32 <<< num_children) - 1#32) = bitfield
  have hbit : ∀ i, bitfield.getLsbD i = (decide (i < num_children) && p i) := fun i => by
    rw [← hfield, BitVec.getLsbD_and, getLsbD_live_mask hnum]
    by_cases hi : i < num_children
    · simp [hi, hmask i hi]
    · simp [hi]
  split
  · rename_i hne
    have hlive := BitVec.getLsbD_true_ctz_of_ne_zero hne
    rw [hbit, Bool.and_eq_true, decide_eq_true_eq] at hlive
    symm
    rw [List.find?_range_eq_some]
    refine ⟨hlive.2, by simpa using hlive.1, ?_⟩
    intro i hi
    have hlow := BitVec.getLsbD_false_of_lt_ctz hi
    rw [hbit, Bool.and_eq_false_iff, decide_eq_false_iff_not] at hlow
    cases hlow with
    | inl hge => omega
    | inr hfalse => simpa using hfalse
  · rename_i hzero
    symm
    rw [List.find?_eq_none]
    intro i hi hp
    have hset := hbit i
    rw [not_not.1 hzero, BitVec.getLsbD_zero] at hset
    have hlt := List.mem_range.1 hi
    simp [hlt, hp] at hset

/-- Flipping the sign bit turns the unsigned order into the signed one. -/
theorem toInt_sign_flip : ∀ a : BitVec 8, (a ^^^ 0x80#8).toInt = (a.toNat : Int) - 128 := by decide

/-- With the sign bits flipped, the signed comparison is the unsigned one. -/
theorem sign_flip_slt (a b : UInt8) :
    ((a ^^^ 0x80).toBitVec).slt (b.toBitVec ^^^ 0x80#8) = decide (a < b) := by
  rw [BitVec.slt, UInt8.toBitVec_xor, Bool.eq_iff_iff, decide_eq_true_eq, decide_eq_true_eq,
    UInt8.lt_iff_toNat_lt]
  have ha : (a.toBitVec ^^^ UInt8.toBitVec 0x80).toInt = (a.toNat : Int) - 128 :=
    toInt_sign_flip a.toBitVec
  have hb : (b.toBitVec ^^^ 0x80#8).toInt = (b.toNat : Int) - 128 := toInt_sign_flip b.toBitVec
  rw [ha, hb]
  omega

end Masks

section Specs

/-- The first `n` keys strictly ascend. -/
def SortedUpto (keys : Bytes) (n : Nat) : Prop :=
  ∀ i j a b, i < j → j < n → keys[i]? = some a → keys[j]? = some b → a < b

/-- A key occurs once among sorted keys. -/
theorem SortedUpto.eq_of_getElem? {keys : Bytes} {n i j : Nat} {b : UInt8} (hsorted : SortedUpto keys n)
    (hi : i < n) (hj : j < n) (hib : keys[i]? = some b) (hjb : keys[j]? = some b) : i = j := by
  rcases lt_trichotomy i j with hlt | heq | hlt
  · exact absurd (hsorted i j b b hlt hj hib hjb) (lt_irrefl b)
  · exact heq
  · exact absurd (hsorted j i b b hlt hi hjb hib) (lt_irrefl b)

/-- The loop invariant: everything before `left` is smaller than the key,
everything from `right` on is larger. -/
theorem binary_find_key_loop_spec {key : UInt8} {keys : Bytes} {n : Nat} (hsorted : SortedUpto keys n)
    (hlen : n ≤ keys.length) {left right : Nat} (hright : right ≤ n)
    (hbelow : ∀ i < left, keys[i]? ≠ some key) (habove : ∀ i, right ≤ i → i < n → keys[i]? ≠ some key) :
    binary_find_key.loop key keys left right =
      (List.range n).find? (fun i => decide (keys[i]? = some key)) := by
  induction hk : right - left using Nat.strongRecOn generalizing left right with
  | ind k ih =>
    subst hk
    rw [binary_find_key.loop]
    split
    · rename_i hlt
      have hmid : (left + right) / 2 < keys.length := by omega
      obtain ⟨b, hb⟩ : ∃ b, keys[(left + right) / 2]? = some b :=
        ⟨_, List.getElem?_eq_getElem hmid⟩
      dsimp only
      rw [hb]
      dsimp only
      split
      · rename_i hbkey
        refine ih _ (by omega) hright ?_ habove rfl
        intro i hi hkey
        by_cases hmi : i = (left + right) / 2
        · subst hmi
          rw [hb] at hkey
          cases hkey
          exact lt_irrefl _ hbkey
        · exact absurd (hsorted i _ _ _ (by omega) (by omega) hkey hb) hbkey.not_gt
      · rename_i hnlt
        split
        · rename_i heq
          subst heq
          symm
          rw [List.find?_range_eq_some]
          refine ⟨by simpa using hb, by simpa using by omega, ?_⟩
          intro i hi
          have hne : keys[i]? ≠ some b := fun hkey => by
            have := hsorted.eq_of_getElem? (by omega) (by omega) hkey hb
            omega
          simpa using hne
        · rename_i hne
          have hgt : key < b := lt_of_le_of_ne (not_lt.1 hnlt) (Ne.symm hne)
          refine ih _ (by omega) (by omega) hbelow ?_ rfl
          intro i hi hin hkey
          by_cases hmi : i = (left + right) / 2
          · subst hmi
            rw [hb] at hkey
            cases hkey
            exact lt_irrefl _ hgt
          · exact absurd (hsorted _ i _ _ (by omega) hin hb hkey) hgt.not_gt
    · rename_i hge
      symm
      rw [List.find?_eq_none]
      intro i hi hp
      have hlt := List.mem_range.1 hi
      rw [decide_eq_true_eq] at hp
      by_cases hil : i < left
      · exact hbelow i hil hp
      · exact habove i (by omega) hlt hp

/-- The first lane in use that holds the key. -/
theorem simdeez_find_key_spec (S : Simdeez) (key : UInt8) {keys : Bytes} {n : Nat} (hn : n ≤ 16)
    (hlen : n ≤ keys.length) :
    simdeez_find_key S key keys ((1#32 <<< n) - 1#32) =
      (List.range n).find? (fun i => decide (keys[i]? = some key)) := by
  refine first_masked_lane hn fun i hi => ?_
  obtain ⟨b, hb⟩ : ∃ b, keys[i]? = some b := ⟨_, List.getElem?_eq_getElem (by omega)⟩
  have hload := S.lane_load_from_slice (keys.map UInt8.toBitVec) i b.toBitVec (by omega)
    (by rw [List.getElem?_map, hb]; rfl)
  rw [S.mask_cmp_eq _ _ i (by omega), S.lane_set1 _ i (by omega), hload, hb, Bool.eq_iff_iff,
    decide_eq_true_eq, decide_eq_true_eq, UInt8.toBitVec_inj, Option.some.injEq]
  exact eq_comm

/-- The first lane in use that holds a greater key. -/
theorem simdeez_find_insert_pos_spec (S : Simdeez) (key : UInt8) {keys : Bytes} {n : Nat}
    (hn : n ≤ 16) (hlen : n ≤ keys.length) :
    simdeez_find_insert_pos S key keys ((1#32 <<< n) - 1#32) =
      (List.range n).find? (fun i => (keys[i]?).any (key < ·)) := by
  refine first_masked_lane hn fun i hi => ?_
  obtain ⟨b, hb⟩ : ∃ b, keys[i]? = some b := ⟨_, List.getElem?_eq_getElem (by omega)⟩
  have hload := S.lane_load_from_slice (keys.map UInt8.toBitVec) i b.toBitVec (by omega)
    (by rw [List.getElem?_map, hb]; rfl)
  rw [S.mask_cmp_lt _ _ i (by omega), S.lane_set1 _ i (by omega), S.lane_bitxor _ _ i (by omega),
    S.lane_set1 _ i (by omega), hload, hb, sign_flip_slt]
  rfl

variable [Features]

/-- Whatever the build, the search is the scan for the first equal key. -/
theorem u8_keys_find_key_position_sorted_eq {WIDTH : Nat} {key : UInt8} {keys : Bytes} {n : Nat}
    (hsorted : SortedUpto keys n) (hn : n ≤ 16) (hlen : n ≤ keys.length) :
    u8_keys_find_key_position_sorted WIDTH key keys n =
      (List.range n).find? (fun i => decide (keys[i]? = some key)) := by
  unfold u8_keys_find_key_position_sorted
  split
  · rfl
  · cases Features.simd_keys with
    | some S => exact simdeez_find_key_spec S key hn hlen
    | none =>
      exact binary_find_key_loop_spec hsorted hlen (le_refl n) (by omega) (by omega)

/-- The vector and the loop find the same place. -/
theorem u8_keys_find_insert_position_sorted_eq {WIDTH : Nat} {key : UInt8} {keys : Bytes} {n : Nat}
    (hn : n ≤ 16) (hlen : n ≤ keys.length) :
    u8_keys_find_insert_position_sorted WIDTH key keys n =
      ((List.range n).find? (fun i => (keys[i]?).any (key < ·))).or (some n) := by
  unfold u8_keys_find_insert_position_sorted
  cases Features.simd_keys with
  | none => rfl
  | some S =>
    dsimp only
    split
    · rw [simdeez_find_insert_pos_spec S key hn hlen]
    · rfl

end Specs

section Agreement

variable {key : UInt8} {keys : Bytes} {n : Nat}

/-- A key occurs once, so that any place of it is the first. -/
theorem find_key_eq_some_iff (hsorted : SortedUpto keys n) {i : Nat} :
    (List.range n).find? (fun i => decide (keys[i]? = some key)) = some i ↔ i < n ∧ keys[i]? = some key := by
  rw [List.find?_range_eq_some]
  constructor
  · rintro ⟨hkey, hi, _⟩
    exact ⟨List.mem_range.1 hi, of_decide_eq_true hkey⟩
  · rintro ⟨hi, hkey⟩
    refine ⟨decide_eq_true hkey, List.mem_range.2 hi, fun j hj => ?_⟩
    rw [Bool.not_eq_true', decide_eq_false_iff_not]
    intro hother
    exact absurd (hsorted.eq_of_getElem? (by omega) hi hother hkey) (by omega)

/-- Among sorted keys, the first larger one stands between the smaller and the larger ones. -/
theorem exists_insert_position (hsorted : SortedUpto keys n) (hlen : n ≤ keys.length)
    (habsent : ∀ i < n, keys[i]? ≠ some key) :
    ∃ i ≤ n, ((List.range n).find? (fun i => (keys[i]?).any (key < ·))).or (some n) = some i ∧
      (∀ j < i, ∃ b, keys[j]? = some b ∧ b < key) ∧ ∀ j, i ≤ j → j < n → ∃ b, keys[j]? = some b ∧ key < b := by
  have hsmaller : ∀ j < n, (keys[j]?).any (key < ·) = false → ∃ b, keys[j]? = some b ∧ b < key := by
    intro j hj hnot
    have hget : keys[j]? = some keys[j] := List.getElem?_eq_getElem (by omega)
    rw [hget, Option.any_some, decide_eq_false_iff_not] at hnot
    exact ⟨_, hget, lt_of_le_of_ne (not_lt.1 hnot) fun heq => habsent j hj (by rw [hget, heq])⟩
  cases hfind : (List.range n).find? (fun i => (keys[i]?).any (key < ·)) with
  | none =>
    rw [List.find?_eq_none] at hfind
    refine ⟨n, Nat.le_refl n, rfl, fun j hj => hsmaller j hj ?_, fun j hij hj => by omega⟩
    simpa using hfind j (List.mem_range.2 hj)
  | some i =>
    rw [List.find?_range_eq_some] at hfind
    obtain ⟨hlarger, hi, hfirst⟩ := hfind
    have hi := List.mem_range.1 hi
    rw [Option.any_eq_true] at hlarger
    obtain ⟨b, hb, hkey⟩ := hlarger
    refine ⟨i, Nat.le_of_lt hi, rfl, fun j hj => hsmaller j (by omega) ?_, fun j hij hj => ?_⟩
    · simpa using hfirst j hj
    · have hget : keys[j]? = some keys[j] := List.getElem?_eq_getElem (by omega)
      refine ⟨_, hget, ?_⟩
      rcases Nat.eq_or_lt_of_le hij with rfl | hlt
      · rw [hget] at hb
        cases hb
        exact of_decide_eq_true hkey
      · exact lt_trans (of_decide_eq_true hkey) (hsorted i j _ _ hlt hj hb hget)

/-- The first larger key stands where the smaller ones end. -/
theorem find_insert_eq_countP (hsorted : SortedUpto keys n) (hlen : n ≤ keys.length)
    (habsent : ∀ i < n, keys[i]? ≠ some key) :
    ((List.range n).find? (fun i => (keys[i]?).any (key < ·))).or (some n) =
      some ((keys.take n).countP (· < key)) := by
  obtain ⟨i, hi, hfound, hbelow, habove⟩ := exists_insert_position hsorted hlen habsent
  have hsplit : keys.take n = keys.take i ++ (keys.take n).drop i := by
    rw [← List.take_append_drop i (keys.take n), List.take_take, Nat.min_eq_left hi, List.drop_append_of_le_length
      (by rw [List.length_take]; omega), List.drop_take_self, List.nil_append]
  rw [hfound, hsplit, List.countP_append]
  have hleft : (keys.take i).countP (· < key) = i := by
    rw [List.countP_eq_length.2 ?_, List.length_take]
    · omega
    · intro b hb
      obtain ⟨j, hj⟩ := List.mem_iff_getElem?.1 hb
      rw [List.getElem?_take] at hj
      split at hj
      · rename_i hji
        obtain ⟨b', hb', hlt⟩ := hbelow j hji
        rw [hb'] at hj
        cases hj
        exact decide_eq_true hlt
      · cases hj
  have hright : ((keys.take n).drop i).countP (· < key) = 0 := by
    rw [List.countP_eq_zero]
    intro b hb
    obtain ⟨j, hj⟩ := List.mem_iff_getElem?.1 hb
    rw [List.getElem?_drop, List.getElem?_take] at hj
    split at hj
    · rename_i hjn
      obtain ⟨b', hb', hgt⟩ := habove (i + j) (by omega) hjn
      rw [hb'] at hj
      cases hj
      simpa using le_of_lt hgt
    · cases hj
  rw [hleft, hright, Nat.add_zero]

/-- With the vector instructions and without them, the searches of a node of width sixteen
find the slot of the key, and the slot for a new one. -/
theorem sorted_searches_agree (S : Simdeez) (key : UInt8) {keys : Bytes} {n : Nat} (hwidth : keys.length = 16)
    (hn : n ≤ 16) (hsorted : SortedUpto keys n) :
    letI simd : Features := ⟨some S⟩
    letI scalar : Features := ⟨none⟩
    @u8_keys_find_key_position_sorted simd 16 key keys n = @u8_keys_find_key_position_sorted scalar 16 key keys n ∧
    @u8_keys_find_insert_position_sorted simd 16 key keys n =
      @u8_keys_find_insert_position_sorted scalar 16 key keys n ∧
    (∀ i, @u8_keys_find_key_position_sorted simd 16 key keys n = some i ↔ i < n ∧ keys[i]? = some key) ∧
    (∀ i j, i < n → j < n → keys[i]? = some key → keys[j]? = some key → i = j) ∧
    (@u8_keys_find_key_position_sorted simd 16 key keys n = none ↔ ∀ i < n, keys[i]? ≠ some key) ∧
    ((∀ i < n, keys[i]? ≠ some key) →
      @u8_keys_find_insert_position_sorted simd 16 key keys n = some ((keys.take n).countP (· < key))) := by
  have hlen : n ≤ keys.length := by omega
  have hfind := fun F : Features => @u8_keys_find_key_position_sorted_eq F 16 key keys n hsorted hn hlen
  have hinsert := fun F : Features => @u8_keys_find_insert_position_sorted_eq F 16 key keys n hn hlen
  refine ⟨(hfind _).trans (hfind _).symm, (hinsert _).trans (hinsert _).symm, fun i => ?_,
    fun i j hi hj => hsorted.eq_of_getElem? hi hj, ?_, fun habsent => ?_⟩
  · rw [hfind, find_key_eq_some_iff hsorted]
  · rw [hfind, List.find?_eq_none]
    constructor
    · intro hnone i hi hkey
      exact hnone i (List.mem_range.2 hi) (decide_eq_true hkey)
    · intro habsent i hi hkey
      exact habsent i (List.mem_range.1 hi) (of_decide_eq_true hkey)
  · rw [hinsert, find_insert_eq_countP hsorted hlen habsent]

/-- Two bytes above 127 and a stale tail. -/
theorem sorted_searches_agree_high_bytes :
    letI simd : Features := ⟨some Simdeez.lanes⟩
    @u8_keys_find_insert_position_sorted simd 16 0x90 ([1, 0x80, 0xff] ++ List.replicate 13 7) 3 = some 2 := by
  have hsorted : SortedUpto ([1, 0x80, 0xff] ++ List.replicate 13 7) 3 := by
    intro i j a b hij hj ha hb
    obtain ⟨rfl, rfl⟩ | ⟨rfl, rfl⟩ | ⟨rfl, rfl⟩ : (i = 0 ∧ j = 1) ∨ (i = 0 ∧ j = 2) ∨ (i = 1 ∧ j = 2) := by
      omega
    all_goals
      cases ha
      cases hb
      decide
  have hagree := sorted_searches_agree Simdeez.lanes 0x90 rfl (by decide) hsorted
  exact hagree.2.2.2.2.2 (by decide)

end Agreement

end rart.utils
