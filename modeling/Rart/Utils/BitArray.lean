import Rart.Utils.Bitset

namespace rart.utils

/-- `BitArray<X, RANGE_WIDTH, Bitset64<_>>`: slots, and the bitset that says which of them are
initialised. An uninitialised slot is `none`. -/
structure BitArray (X : Type) where
  bitset : Bitset64
  storage : List (Option X)

namespace BitArray

variable {X : Type}

/-- All slots uninitialised, and no bit set. -/
def new (RANGE_WIDTH STORAGE_WIDTH : Nat) : BitArray X :=
  ⟨.new STORAGE_WIDTH, List.replicate RANGE_WIDTH none⟩

/-- The first position that is in use. -/
def first_used (self : BitArray X) : Option Nat := self.bitset.first_set

/-- The first position that is free. The bitset may have room past the slots. -/
def first_empty (self : BitArray X) : Option Nat := do
  let first_empty ← self.bitset.first_empty
  if first_empty ≥ self.storage.length then none else some first_empty

/-- Whether the bit of a position is set. -/
def check (self : BitArray X) (pos : Nat) : Bool := self.bitset.check pos

/-- Reading an uninitialised slot gives `none`; no valid array asks for one. -/
def get_known_present (self : BitArray X) (pos : Nat) : Option X := (self.storage[pos]?).join

/-- The slot, where its bit is set. -/
def get (self : BitArray X) (pos : Nat) : Option X :=
  if self.bitset.check pos then self.get_known_present pos else none

/-- Writes the slot, then sets its bit. -/
def set (self : BitArray X) (pos : Nat) (x : X) : Result (BitArray X) := do
  let storage ← index_set self.storage pos (some x)
  return ⟨← self.bitset.set pos, storage⟩

/-- Reads the slot and leaves it uninitialised, with its bit as it was. -/
def take_known_present (self : BitArray X) (pos : Nat) : Result (X × BitArray X) := do
  match ← index self.storage pos with
  | none => throw .uninit
  | some old => return (old, { self with storage := ← index_set self.storage pos none })

/-- Reads the slot, then clears its bit. -/
def erase_known_present (self : BitArray X) (pos : Nat) : Result (X × BitArray X) := do
  let (old, self) ← self.take_known_present pos
  return (old, { self with bitset := ← self.bitset.unset pos })

/-- `erase_known_present` where the bit is set. -/
def erase (self : BitArray X) (pos : Nat) : Result (Option X × BitArray X) := do
  if self.bitset.check pos then
    let (old, self) ← self.take_known_present pos
    return (some old, { self with bitset := ← self.bitset.unset pos })
  else return (none, self)

/-- One round of `clone_live_slots`. The slot's own `clone` is left to the caller. -/
def clone_slot (self cloned : BitArray X) (pos : Nat) : Result (BitArray X) :=
  if self.bitset.check pos then
    match self.get_known_present pos with
    | some value => cloned.set pos value
    | none => throw .uninit
  else return cloned

/-- The slots in use are copied one by one, and the bitset as a whole. -/
def clone_live_slots (self : BitArray X) : Result (BitArray X) := do
  let cloned ← (List.range self.storage.length).foldlM self.clone_slot
    (new self.storage.length self.bitset.bitset.length)
  return { cloned with bitset := self.bitset }

/-- The bitset marks exactly the initialised slots. -/
structure Valid (array : BitArray X) : Prop where
  covered : array.storage.length ≤ array.bitset.capacity
  marked : ∀ pos, array.bitset.check pos = (array.get_known_present pos).isSome

/-- Reading a slot that is there and initialised. -/
theorem get_known_present_eq_some {self : BitArray X} {pos : Nat} {x : X} :
    self.get_known_present pos = some x ↔ self.storage[pos]? = some (some x) := by
  unfold get_known_present
  rw [Option.join_eq_some_iff]

/-- A slot that can be read is in the array. -/
theorem lt_of_get_known_present {self : BitArray X} {pos : Nat} {x : X}
    (h : self.get_known_present pos = some x) : pos < self.storage.length :=
  (List.getElem?_eq_some_iff.1 (get_known_present_eq_some.1 h)).1

/-- Writing one slot leaves the others. -/
theorem get_known_present_set (self : BitArray X) (b : Bitset64) {pos : Nat} (o : Option X)
    (h : pos < self.storage.length) (q : Nat) :
    BitArray.get_known_present ⟨b, self.storage.set pos o⟩ q =
      if q = pos then o else self.get_known_present q := by
  unfold get_known_present
  split
  · rename_i heq
    rw [heq, List.getElem?_set_self h]
    rfl
  · rename_i hne
    rw [List.getElem?_set_ne (Ne.symm hne)]

/-- No slot of a new array can be read. -/
@[simp] theorem get_known_present_new (RANGE_WIDTH STORAGE_WIDTH pos : Nat) :
    (new RANGE_WIDTH STORAGE_WIDTH : BitArray X).get_known_present pos = none := by
  unfold get_known_present new
  rw [List.getElem?_replicate]
  split <;> rfl

/-- A new array whose bitset is wide enough is sound. -/
theorem new_valid {RANGE_WIDTH STORAGE_WIDTH : Nat} (h : RANGE_WIDTH ≤ 64 * STORAGE_WIDTH) :
    (new RANGE_WIDTH STORAGE_WIDTH : BitArray X).Valid where
  covered := by simpa [new, Bitset.new, Bitset.capacity] using h
  marked pos := by
    rw [get_known_present_new]
    exact Bitset.check_new STORAGE_WIDTH pos

namespace Valid

variable {self : BitArray X} (hvalid : self.Valid)
include hvalid

/-- In a sound array the bit tells whether the slot is initialised. -/
theorem get_eq (pos : Nat) : self.get pos = self.get_known_present pos := by
  unfold get
  rw [hvalid.marked pos]
  cases self.get_known_present pos <;> rfl

/-- A bit is set when its slot is initialised. -/
theorem check_iff {pos : Nat} : self.bitset.check pos = true ↔ ∃ x, self.get_known_present pos = some x := by
  rw [hvalid.marked pos, Option.isSome_iff_exists]

/-- Writing a slot of a sound array keeps it sound. -/
theorem set {pos : Nat} (hpos : pos < self.storage.length) (x : X) :
    ∃ a, self.set pos x = .ok a ∧ a.Valid ∧ a.storage.length = self.storage.length ∧
      ∀ q, a.get_known_present q = if q = pos then some x else self.get_known_present q := by
  obtain ⟨b, hb, hlen, hcheck⟩ := Bitset.set_spec (lt_of_lt_of_le hpos hvalid.covered)
  have hget := get_known_present_set self b (some x) hpos
  refine ⟨⟨b, self.storage.set pos (some x)⟩, ?_, ⟨?_, ?_⟩, by simp, hget⟩
  · unfold BitArray.set
    rw [index_set_eq_ok hpos, ok_bind, hb]
    rfl
  · simpa [Bitset.capacity, hlen] using hvalid.covered
  · intro q
    rw [Bool.eq_iff_iff, hcheck, hget, hvalid.marked]
    split
    · rename_i heq
      simp [heq]
    · rename_i hne
      simp [hne]

/-- Erasing a slot in use gives its value and keeps the array sound. -/
theorem erase_known_present {pos : Nat} {x : X} (hx : self.get_known_present pos = some x) :
    ∃ a, self.erase_known_present pos = .ok (x, a) ∧ a.Valid ∧
      a.storage.length = self.storage.length ∧
      ∀ q, a.get_known_present q = if q = pos then none else self.get_known_present q := by
  have hpos := lt_of_get_known_present hx
  obtain ⟨b, hb, hlen, hcheck⟩ := Bitset.unset_spec (lt_of_lt_of_le hpos hvalid.covered)
  have hget := get_known_present_set self b none hpos
  refine ⟨⟨b, self.storage.set pos none⟩, ?_, ⟨?_, ?_⟩, by simp, hget⟩
  · unfold BitArray.erase_known_present take_known_present
    rw [index_eq_ok (get_known_present_eq_some.1 hx), ok_bind]
    dsimp only
    rw [index_set_eq_ok hpos]
    simp only [ok_bind, pure_eq_ok, hb]
  · simpa [Bitset.capacity, hlen] using hvalid.covered
  · intro q
    rw [Bool.eq_iff_iff, hcheck, hget, hvalid.marked]
    split
    · rename_i heq
      simp [heq]
    · rename_i hne
      simp [hne]

/-- On an initialised slot the checked `erase` is the unchecked one. -/
theorem erase_some {pos : Nat} {x : X} {a : BitArray X}
    (h : self.erase_known_present pos = .ok (x, a)) (hx : self.get_known_present pos = some x) :
    self.erase pos = .ok (some x, a) := by
  have hcheck := hvalid.check_iff.2 ⟨x, hx⟩
  unfold BitArray.erase_known_present at h
  obtain ⟨⟨old, taken⟩, htake, hunset⟩ := bind_eq_ok_iff.1 h
  obtain ⟨b, hb, hpair⟩ := bind_eq_ok_iff.1 hunset
  cases hpair
  unfold BitArray.erase
  simp only [hcheck, if_true, htake, ok_bind, hb, pure_eq_ok]

/-- Erasing a slot that is not in use changes nothing. -/
theorem erase_none {pos : Nat} (hx : self.get_known_present pos = none) :
    self.erase pos = .ok (none, self) := by
  unfold BitArray.erase
  rw [hvalid.marked pos, hx]
  rfl

/-- `iter` lists the initialised slots in ascending order. -/
theorem mem_iter {pos : Nat} : pos ∈ self.bitset.iter ↔ ∃ x, self.get_known_present pos = some x := by
  rw [Bitset.iter_eq_positions (le_refl 6), Bitset.mem_positions, hvalid.check_iff]

/-- The first slot in use, and none before it. -/
theorem first_used_eq_some {pos : Nat} (h : self.first_used = some pos) :
    (∃ x, self.get_known_present pos = some x) ∧
      ∀ q < pos, self.get_known_present q = none := by
  unfold first_used at h
  rw [Bitset.first_set_eq_head?] at h
  obtain ⟨rest, hrest⟩ := List.head?_eq_some_iff.1 h
  have hsorted := self.bitset.positions_ascending
  rw [hrest, List.pairwise_cons] at hsorted
  refine ⟨hvalid.check_iff.1 (Bitset.mem_positions.1 (by rw [hrest]; simp)), ?_⟩
  intro q hq
  rw [Option.eq_none_iff_forall_ne_some]
  intro x hx
  have hmem := Bitset.mem_positions.2 (hvalid.check_iff.2 ⟨x, hx⟩)
  rw [hrest, List.mem_cons] at hmem
  cases hmem with
  | inl heq => omega
  | inr hmem =>
    have := hsorted.1 q hmem
    omega

/-- No slot is in use. -/
theorem first_used_eq_none (h : self.first_used = none) (pos : Nat) :
    self.get_known_present pos = none := by
  unfold first_used at h
  rw [Bitset.first_set_eq_head?, List.head?_eq_none_iff] at h
  rw [Option.eq_none_iff_forall_ne_some]
  intro x hx
  have hmem := Bitset.mem_positions.2 (hvalid.check_iff.2 ⟨x, hx⟩)
  rw [h] at hmem
  cases hmem

/-- As long as a slot is free, `first_empty` finds one, and none beyond it. -/
theorem first_empty {pos : Nat} (hpos : pos < self.storage.length)
    (hfree : self.get_known_present pos = none) :
    ∃ free, self.first_empty = some free ∧ free ≤ pos ∧ self.get_known_present free = none := by
  have hcheck : self.bitset.check pos = false := by
    rw [hvalid.marked pos, hfree]
    rfl
  have hmem : pos ∈ self.bitset.vacant.positions :=
    Bitset.mem_positions.2 (Bitset.check_vacant.2 ⟨lt_of_lt_of_le hpos hvalid.covered, hcheck⟩)
  obtain ⟨free, rest, hrest⟩ := List.exists_cons_of_ne_nil (List.ne_nil_of_mem hmem)
  have hle : free ≤ pos := by
    have hsorted := self.bitset.vacant.positions_ascending
    rw [hrest] at hmem hsorted
    cases List.mem_cons.1 hmem with
    | inl heq => omega
    | inr hin =>
      have := (List.pairwise_cons.1 hsorted).1 pos hin
      omega
  have hvacant := Bitset.check_vacant.1
    (Bitset.mem_positions.1 (show free ∈ self.bitset.vacant.positions by rw [hrest]; simp))
  refine ⟨free, ?_, hle, ?_⟩
  · unfold BitArray.first_empty
    rw [Bitset.first_empty_eq_head?, hrest]
    have hlt : ¬ self.storage.length ≤ free := by omega
    simp [hlt]
  · rw [hvalid.marked free] at hvacant
    simpa using hvacant.2

end Valid

end BitArray

end rart.utils
