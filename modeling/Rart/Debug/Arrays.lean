import Rart.Debug.Bytes
import Rart.Utils.BitArray
import Rart.Utils.U8Keys

open Checked
open rart.utils

namespace rart.debug

namespace Bitset

variable {BIT_SHIFT : Nat}

/-- `Bitset::set` with its assertion, that the position is below the capacity. -/
def set (self : Bitset BIT_SHIFT) (pos : Nat) : Result (Bitset BIT_SHIFT) := do
  debug_assert (pos < self.capacity) "assertion failed: pos < Self::BITSET_WIDTH"
  let v ← index self.bitset (pos >>> BIT_SHIFT)
  let shift := 1#(2 ^ BIT_SHIFT) <<< (pos % 2 ^ BIT_SHIFT)
  return ⟨← index_set self.bitset (pos >>> BIT_SHIFT) (v ||| shift)⟩

/-- Asserts that the position is below the capacity. -/
def unset (self : Bitset BIT_SHIFT) (pos : Nat) : Result (Bitset BIT_SHIFT) := do
  debug_assert (pos < self.capacity) "assertion failed: pos < Self::BITSET_WIDTH"
  let v ← index self.bitset (pos >>> BIT_SHIFT)
  let shift := 1#(2 ^ BIT_SHIFT) <<< (pos % 2 ^ BIT_SHIFT)
  return ⟨← index_set self.bitset (pos >>> BIT_SHIFT) (v &&& ~~~shift)⟩

/-- Asserts that the position is below the capacity. -/
def check (self : Bitset BIT_SHIFT) (pos : Nat) : Result Bool := do
  debug_assert (pos < self.capacity) "assertion failed: pos < Self::BITSET_WIDTH"
  let v ← index self.bitset (pos >>> BIT_SHIFT)
  return v &&& (1#(2 ^ BIT_SHIFT) <<< (pos % 2 ^ BIT_SHIFT)) ≠ 0#_

end Bitset

namespace BitArray

variable {X : Type}

/-- The assertion is that of the bitset. -/
def check (self : BitArray X) (pos : Nat) : Result Bool := Bitset.check self.bitset pos

/-- Asserts that the slot is in the array and in use. An unused slot holds no value to read. -/
def get_known_present (self : BitArray X) (pos : Nat) : Result X := do
  debug_assert (pos < self.storage.length) "assertion failed: pos < RANGE_WIDTH"
  let present ← Bitset.check self.bitset pos
  debug_assert (present = true) "assertion failed: self.bitset.check(pos)"
  match ← index self.storage pos with
  | none => throw .uninit
  | some x => return x

/-- Asserts that the position is in the array, so that a miss past its end panics as well. -/
def get (self : BitArray X) (pos : Nat) : Result (Option X) := do
  debug_assert (pos < self.storage.length) "assertion failed: pos < RANGE_WIDTH"
  if ← Bitset.check self.bitset pos then return some (← get_known_present self pos) else return none

/-- Asserts that the position is in the array. -/
def set (self : BitArray X) (pos : Nat) (x : X) : Result (BitArray X) := do
  debug_assert (pos < self.storage.length) "assertion failed: pos < RANGE_WIDTH"
  let storage ← index_set self.storage pos (some x)
  return ⟨← Bitset.set self.bitset pos, storage⟩

/-- Asserts what `get_known_present` does, and leaves the bit as it was. -/
def take_known_present (self : BitArray X) (pos : Nat) : Result (X × BitArray X) := do
  debug_assert (pos < self.storage.length) "assertion failed: pos < RANGE_WIDTH"
  let present ← Bitset.check self.bitset pos
  debug_assert (present = true) "assertion failed: self.bitset.check(pos)"
  match ← index self.storage pos with
  | none => throw .uninit
  | some old => return (old, { self with storage := ← index_set self.storage pos none })

/-- Asserts what `take_known_present` asserts a second time. -/
def erase_known_present (self : BitArray X) (pos : Nat) : Result (X × BitArray X) := do
  debug_assert (pos < self.storage.length) "assertion failed: pos < RANGE_WIDTH"
  let present ← Bitset.check self.bitset pos
  debug_assert (present = true) "assertion failed: self.bitset.check(pos)"
  let (old, self) ← take_known_present self pos
  return (old, { self with bitset := ← Bitset.unset self.bitset pos })

/-- What `erase` takes out before it clears the bit. -/
def take_internal (self : BitArray X) (pos : Nat) : Result (Option X × BitArray X) := do
  debug_assert (pos < self.storage.length) "assertion failed: pos < RANGE_WIDTH"
  if ← Bitset.check self.bitset pos then
    let (old, self) ← take_known_present self pos
    return (some old, self)
  else return (none, self)

/-- Without an assertion of its own. -/
def erase (self : BitArray X) (pos : Nat) : Result (Option X × BitArray X) := do
  match ← take_internal self pos with
  | (none, self) => return (none, self)
  | (some old, self) => return (some old, { self with bitset := ← Bitset.unset self.bitset pos })

end BitArray

section Search

/-- `(0..n).find(|&i| ..)`, over the places that are left. -/
def find_place (keys : Bytes) (test : UInt8 → Bool) : List Nat → Result (Option Nat)
  | [] => return none
  | i :: rest => do if test (← index keys i) then return some i else find_place keys test rest

/-- The loop of `binary_find_key`. -/
def binary_find_key.loop (key : UInt8) (keys : Bytes) (left right : Nat) : Result (Option Nat) :=
  if left < right then do
    let mid := (left + right) / 2
    let b ← index keys mid
    if b < key then loop key keys (mid + 1) right
    else if b = key then return some mid
    else loop key keys left mid
  else return none
termination_by right - left

/-- The search of wide nodes, each probe of which is checked. -/
def binary_find_key (key : UInt8) (keys : Bytes) (num_children : Nat) : Result (Option Nat) :=
  binary_find_key.loop key keys 0 num_children

variable [Features]

/-- Narrow nodes are searched slot by slot and wide ones in one vector where there is one. -/
def u8_keys_find_key_position_sorted (WIDTH : Nat) (key : UInt8) (keys : Bytes)
    (num_children : Nat) : Result (Option Nat) :=
  if WIDTH ≤ 4 then find_place keys (· == key) (List.range num_children)
  else
    match Features.simd_keys with
    | some S => return simdeez_find_key S key keys ((1#32 <<< num_children) - 1#32)
    | none => binary_find_key key keys num_children

/-- Where the key belongs: before the first greater one, or at the end. -/
def u8_keys_find_insert_position_sorted (WIDTH : Nat) (key : UInt8) (keys : Bytes)
    (num_children : Nat) : Result (Option Nat) :=
  let linear := do return (← find_place keys (key < ·) (List.range num_children)).or (some num_children)
  match Features.simd_keys with
  | some S =>
    if 16 ≤ WIDTH then
      return (simdeez_find_insert_pos S key keys ((1#32 <<< num_children) - 1#32)).or (some num_children)
    else linear
  | none => linear

end Search

section Specs

namespace Bitset

variable {BIT_SHIFT : Nat} {self : Bitset BIT_SHIFT} {pos : Nat}

/-- A position whose word is there is below the capacity. -/
theorem lt_capacity_of_index {v : BitVec (2 ^ BIT_SHIFT)} (h : index self.bitset (pos >>> BIT_SHIFT) = .ok v) :
    pos < self.capacity := by
  unfold index at h
  split at h
  · rename_i w hw
    have hword := (List.getElem?_eq_some_iff.1 hw).1
    rw [utils.Bitset.shift_eq_div, Nat.div_lt_iff_lt_mul (Nat.two_pow_pos BIT_SHIFT), Nat.mul_comm] at hword
    exact hword
  · cases h

/-- The word that is written is in the array, and so the position is below the capacity. -/
theorem set_follows : Follows (self.set pos) (set self pos) := by
  intro b hb
  obtain ⟨v, hv, _⟩ := bind_eq_ok_iff.1 hb
  unfold set
  rw [debug_assert_of (lt_capacity_of_index hv)]
  exact hb

/-- As for `set`. -/
theorem unset_follows : Follows (self.unset pos) (unset self pos) := by
  intro b hb
  obtain ⟨v, hv, _⟩ := bind_eq_ok_iff.1 hb
  unfold unset
  rw [debug_assert_of (lt_capacity_of_index hv)]
  exact hb

/-- Below the capacity the assertion holds and the word is there. -/
theorem check_eq (h : pos < self.capacity) : check self pos = .ok (self.check pos) := by
  obtain ⟨v, hword⟩ : ∃ v, self.bitset[pos >>> BIT_SHIFT]? = some v := by
    rw [utils.Bitset.shift_eq_div]
    exact ⟨_, List.getElem?_eq_getElem (utils.Bitset.word_idx_lt h)⟩
  unfold check utils.Bitset.check
  rw [debug_assert_of h, ok_bind, index_eq_ok hword, hword]
  rfl

end Bitset

namespace BitArray

variable {X : Type} {self : BitArray X} {pos : Nat} {x : X}

/-- The slot that is written is in the array. -/
theorem set_follows (pos : Nat) (x : X) : Follows (self.set pos x) (set self pos x) := by
  intro array harray
  obtain ⟨storage, hstorage, hrest⟩ := bind_eq_ok_iff.1 harray
  have hlt : pos < self.storage.length := by
    unfold index_set at hstorage
    split at hstorage
    · assumption
    · cases hstorage
  unfold set
  rw [debug_assert_of hlt, ok_bind, hstorage, ok_bind]
  exact (Bitset.set_follows.bind fun _ _ => Follows.refl _) array hrest

/-- The bitset of a sound array covers its slots. -/
theorem check_eq (h : self.Valid) (hpos : pos < self.storage.length) : check self pos = .ok (self.check pos) :=
  Bitset.check_eq (lt_of_lt_of_le hpos h.covered)

/-- The assertions hold at a slot that is in use. -/
theorem asserted (h : self.Valid) (hx : self.get_known_present pos = some x) :
    pos < self.storage.length ∧ Bitset.check self.bitset pos = .ok true := by
  have hlt := BitArray.lt_of_get_known_present hx
  have hcheck : self.bitset.check pos = true := h.check_iff.2 ⟨x, hx⟩
  exact ⟨hlt, (Bitset.check_eq (lt_of_lt_of_le hlt h.covered)).trans (congrArg _ hcheck)⟩

/-- A slot in use is read as without assertions. -/
theorem get_known_present_eq (h : self.Valid) (hx : self.get_known_present pos = some x) :
    get_known_present self pos = .ok x := by
  obtain ⟨hlt, hcheck⟩ := asserted h hx
  unfold get_known_present
  rw [debug_assert_of hlt, ok_bind, hcheck, ok_bind, debug_assert_of rfl, ok_bind,
    index_eq_ok (utils.BitArray.get_known_present_eq_some.1 hx)]
  rfl

/-- Within the array a slot is read as without assertions. -/
theorem get_eq (h : self.Valid) (hpos : pos < self.storage.length) : get self pos = .ok (self.get pos) := by
  unfold get
  rw [debug_assert_of hpos, ok_bind, Bitset.check_eq (lt_of_lt_of_le hpos h.covered), ok_bind, h.get_eq,
    h.marked]
  cases hx : self.get_known_present pos with
  | none => rfl
  | some x =>
    rw [get_known_present_eq h hx]
    rfl

/-- What was taken had been in use. -/
theorem present_of_take {taken : X × BitArray X} (h : self.take_known_present pos = .ok taken) :
    self.get_known_present pos = some taken.1 := by
  obtain ⟨slot, hslot, hrest⟩ := bind_eq_ok_iff.1 h
  rw [utils.BitArray.get_known_present_eq_some]
  unfold index at hslot
  split at hslot
  · rename_i a ha
    cases hslot
    cases slot with
    | none => cases hrest
    | some x =>
      obtain ⟨storage, _, hpair⟩ := bind_eq_ok_iff.1 hrest
      cases hpair
      exact ha
  · cases hslot

/-- Taking from a sound array fails on no assertion where it returned without them. -/
theorem take_known_present_follows (h : self.Valid) :
    Follows (self.take_known_present pos) (take_known_present self pos) := by
  intro taken htaken
  obtain ⟨hlt, hcheck⟩ := asserted h (present_of_take htaken)
  unfold take_known_present
  rw [debug_assert_of hlt, ok_bind, hcheck, ok_bind, debug_assert_of rfl, ok_bind]
  exact htaken

/-- So does erasing. -/
theorem erase_known_present_follows (h : self.Valid) :
    Follows (self.erase_known_present pos) (erase_known_present self pos) := by
  intro erased herased
  obtain ⟨taken, htaken, hrest⟩ := bind_eq_ok_iff.1 herased
  obtain ⟨hlt, hcheck⟩ := asserted h (present_of_take htaken)
  unfold erase_known_present
  rw [debug_assert_of hlt, ok_bind, hcheck, ok_bind, debug_assert_of rfl, ok_bind,
    take_known_present_follows h taken htaken, ok_bind]
  exact (Bitset.unset_follows.bind fun _ _ => Follows.refl _) erased hrest

/-- An array stays valid when a slot is erased. -/
theorem valid_erased (h : self.Valid) {erased : X × BitArray X} (herased : self.erase_known_present pos = .ok erased) :
    erased.2.Valid ∧ erased.2.storage.length = self.storage.length := by
  obtain ⟨taken, htaken, hrest⟩ := bind_eq_ok_iff.1 herased
  obtain ⟨after, hafter, hvalid, hlen, _⟩ := h.erase_known_present (present_of_take htaken)
  cases herased.symm.trans hafter
  exact ⟨hvalid, hlen⟩

/-- `erase` asserts the position, and a sound array the rest. -/
theorem erase_follows (h : self.Valid) (hpos : pos < self.storage.length) :
    Follows (self.erase pos) (erase self pos) := by
  intro erased herased
  unfold erase take_internal
  unfold utils.BitArray.erase at herased
  rw [debug_assert_of hpos, ok_bind, Bitset.check_eq (lt_of_lt_of_le hpos h.covered), ok_bind]
  cases hcheck : self.bitset.check pos with
  | false =>
    rw [hcheck] at herased
    exact herased
  | true =>
    rw [hcheck, if_pos rfl] at herased
    obtain ⟨taken, htaken, hrest⟩ := bind_eq_ok_iff.1 herased
    rw [if_pos rfl, take_known_present_follows h taken htaken]
    exact (Bitset.unset_follows.bind fun _ _ => Follows.refl _) erased hrest

end BitArray

section Search

variable {keys : Bytes} {n : Nat}

/-- A search through places that are all there is the search without bounds. -/
theorem find_place_eq (test : UInt8 → Bool) {places : List Nat} (h : ∀ i ∈ places, i < keys.length) :
    find_place keys test places = .ok (places.find? fun i => (keys[i]?).any test) := by
  induction places with
  | nil => rfl
  | cons i places ih =>
    have hlt := h i List.mem_cons_self
    have hi : keys[i]? = some keys[i] := List.getElem?_eq_getElem hlt
    rw [find_place, index_eq_ok hi, ok_bind, ih fun j hj => h j (List.mem_cons_of_mem i hj), List.find?_cons, hi,
      Option.any_some]
    cases test keys[i] <;> rfl

/-- By induction on the length of the interval, whose middle is always there. -/
theorem binary_find_key_loop_eq (key : UInt8) {left right : Nat} (h : right ≤ keys.length) :
    binary_find_key.loop key keys left right = .ok (utils.binary_find_key.loop key keys left right) := by
  induction hn : right - left using Nat.strongRecOn generalizing left right with
  | ind n ih =>
    subst hn
    rw [binary_find_key.loop, utils.binary_find_key.loop]
    by_cases hlt : left < right
    · have hbound : (left + right) / 2 < keys.length := by omega
      have hmid : keys[(left + right) / 2]? = some keys[(left + right) / 2] :=
        List.getElem?_eq_getElem hbound
      rw [if_pos hlt, if_pos hlt]
      dsimp only
      rw [index_eq_ok hmid, ok_bind, hmid]
      dsimp only
      split
      · exact ih (right - ((left + right) / 2 + 1)) (by omega) h rfl
      · split
        · rfl
        · exact ih ((left + right) / 2 - left) (by omega) (by omega) rfl
    · rw [if_neg hlt, if_neg hlt]
      rfl

variable [Features]

/-- While the keys in use are all there the position is found as without bounds. -/
theorem find_key_position_eq (WIDTH : Nat) (key : UInt8) (h : n ≤ keys.length) :
    u8_keys_find_key_position_sorted WIDTH key keys n =
      .ok (utils.u8_keys_find_key_position_sorted WIDTH key keys n) := by
  unfold u8_keys_find_key_position_sorted utils.u8_keys_find_key_position_sorted
  split
  · rw [find_place_eq _ fun i hi => lt_of_lt_of_le (List.mem_range.1 hi) h]
    congr 3
    funext i
    cases keys[i]? with
    | none => rfl
    | some b => simp [Bool.beq_eq_decide_eq]
  · cases Features.simd_keys with
    | some S => rfl
    | none => exact binary_find_key_loop_eq key h

/-- As for `find_key_position_eq`. -/
theorem find_insert_position_eq (WIDTH : Nat) (key : UInt8) (h : n ≤ keys.length) :
    u8_keys_find_insert_position_sorted WIDTH key keys n =
      .ok (utils.u8_keys_find_insert_position_sorted WIDTH key keys n) := by
  unfold u8_keys_find_insert_position_sorted utils.u8_keys_find_insert_position_sorted
  rw [find_place_eq _ fun i hi => lt_of_lt_of_le (List.mem_range.1 hi) h]
  cases Features.simd_keys with
  | some S =>
    dsimp only
    split <;> rfl
  | none => rfl

end Search

end Specs

end rart.debug
