import Rart.Lib.SortedAssoc
import Rart.Utils.BitArray
import Rart.Utils.U8Keys

open SortedAssoc
open rart.utils

namespace rart.mapping

/-- The pairs that an iterator over the bits of a key set hands out, given the
child it finds under a key. It ends at a key without a child. -/
def iter_keys {N : Type} (child : UInt8 → Option N) : List Nat → List (UInt8 × N)
  | [] => []
  | key :: keys =>
    match child (UInt8.ofNat key) with
    | none => []
    | some node => (UInt8.ofNat key, node) :: iter_keys child keys

/-- `DirectMapping<N>`: one slot for every edge byte. -/
structure DirectMapping (N : Type) where
  children : BitArray N
  num_children : Nat

namespace DirectMapping

variable {N : Type}

/-- 256 slots in four words, one for each byte. -/
def new : DirectMapping N := ⟨.new 256 4, 0⟩

/-- The slots in use, in the order of their edges. -/
def iter (self : DirectMapping N) : List (UInt8 × N) :=
  iter_keys (fun key => self.children.get key.toNat) self.children.bitset.iter

/-- The slot of the edge takes the child. -/
def add_child (self : DirectMapping N) (key : UInt8) (node : N) : Result (DirectMapping N) := do
  return { children := ← self.children.set key.toNat node, num_children := self.num_children + 1 }

/-- The slot of the edge. -/
def seek_child (self : DirectMapping N) (key : UInt8) : Option N :=
  if self.children.check key.toNat then self.children.get_known_present key.toNat else none

/-- Write through the reference that `seek_child_mut` returns. -/
def write_child (self : DirectMapping N) (key : UInt8) (node : N) : DirectMapping N :=
  if self.children.check key.toNat then
    { self with children := { self.children with
        storage := self.children.storage.set key.toNat (some node) } }
  else self

/-- Writing back what was read changes nothing. -/
theorem write_child_self {self : DirectMapping N} {key : UInt8} {node : N}
    (h : self.seek_child key = some node) : self.write_child key node = self := by
  unfold seek_child at h
  unfold write_child
  split at h
  · rw [set_of_getElem? (BitArray.get_known_present_eq_some.1 h), ite_self]
  · cases h

/-- The slot of the edge is erased, where it is in use. -/
def delete_child (self : DirectMapping N) (key : UInt8) :
    Result (Option N × DirectMapping N) := do
  if self.children.check key.toNat then
    let num_children ← usize_sub self.num_children 1
    let (node, children) ← self.children.erase_known_present key.toNat
    return (some node, { children, num_children })
  else return (none, self)

end DirectMapping

section Maps

variable {X : Type}

/-- There are 256 edge bytes. -/
theorem length_le_of_ascending {items : List (UInt8 × X)} (h : Ascending items) :
    items.length ≤ 256 := by
  have hnodup : (items.map fun p => p.1.toNat).Nodup := by
    have hmap := List.Nodup.map (f := UInt8.toNat) (fun a b hab => UInt8.toNat_inj.1 hab) h.nodup_keys
    rwa [List.map_map] at hmap
  have hsub : (items.map fun p => p.1.toNat) ⊆ List.range 256 := by
    intro n hn
    obtain ⟨p, _, rfl⟩ := List.mem_map.1 hn
    exact List.mem_range.2 p.1.toNat_lt
  have hle := (List.subperm_of_subset hnodup hsub).length_le
  rwa [List.length_map, List.length_range] at hle

/-- A bit array of 256 slots that holds an ascending list of keyed values. -/
structure Maps (array : BitArray X) (items : List (UInt8 × X)) : Prop where
  valid : array.Valid
  width : array.storage.length = 256
  ascending : Ascending items
  lookup_eq : ∀ key : UInt8, items.lookup key = array.get_known_present key.toNat

namespace Maps

variable {array : BitArray X} {items : List (UInt8 × X)}

/-- A new array maps nothing. -/
theorem new : Maps (BitArray.new 256 4 : BitArray X) [] where
  valid := BitArray.new_valid (by omega)
  width := List.length_replicate
  ascending := ascending_nil
  lookup_eq key := by simp

/-- Every byte has a slot. -/
theorem key_lt (h : Maps array items) (key : UInt8) : key.toNat < array.storage.length := by
  have := key.toNat_lt
  rw [h.width]
  omega

/-- Reading the slot of an edge is a lookup in the list. -/
theorem get_eq (h : Maps array items) (key : UInt8) : array.get key.toNat = items.lookup key := by
  rw [h.valid.get_eq, h.lookup_eq]

/-- The bit of an edge is set when the list has it. -/
theorem check_iff (h : Maps array items) (key : UInt8) :
    array.check key.toNat = true ↔ ∃ x, items.lookup key = some x := by
  rw [h.lookup_eq]
  exact h.valid.check_iff

/-- It is not set when the list has not. -/
theorem check_eq_false (h : Maps array items) {key : UInt8} (hkey : items.lookup key = none) :
    array.check key.toNat = false := by
  rw [← Bool.not_eq_true, h.check_iff]
  rintro ⟨x, hx⟩
  rw [hkey] at hx
  cases hx

/-- Writing a free slot inserts the pair. -/
theorem set (h : Maps array items) {key : UInt8} (hkey : items.lookup key = none) (x : X) :
    ∃ a, array.set key.toNat x = .ok a ∧ Maps a (insertSorted key x items) := by
  obtain ⟨a, ha, hvalid, hwidth, hget⟩ := h.valid.set (h.key_lt key) x
  refine ⟨a, ha, hvalid, hwidth.trans h.width,
    h.ascending.insertSorted (lookup_eq_none_iff.1 hkey) x, fun q => ?_⟩
  rw [lookup_insertSorted, hget, h.lookup_eq]
  simp only [UInt8.toNat_inj]

/-- Storing under a key above all others appends. -/
theorem set_last (h : Maps array items) {key : UInt8} (hlarge : ∀ p ∈ items, p.1 < key) (x : X) :
    ∃ a, array.set key.toNat x = .ok a ∧ Maps a (items ++ [(key, x)]) := by
  rw [← insertSorted_of_forall_lt hlarge]
  exact h.set (lookup_eq_none_of_forall_lt hlarge) x

/-- Erasing a slot in use erases the pair. -/
theorem erase_known_present (h : Maps array items) {key : UInt8} {x : X}
    (hkey : items.lookup key = some x) :
    ∃ a, array.erase_known_present key.toNat = .ok (x, a) ∧ Maps a (eraseKey key items) := by
  obtain ⟨a, ha, hvalid, hwidth, hget⟩ :=
    h.valid.erase_known_present (by rw [← h.lookup_eq]; exact hkey)
  refine ⟨a, ha, hvalid, hwidth.trans h.width, h.ascending.eraseKey key, fun q => ?_⟩
  rw [lookup_eraseKey, hget, h.lookup_eq]
  simp only [UInt8.toNat_inj]

/-- Writing a slot in use replaces the value. -/
theorem overwrite (h : Maps array items) {key : UInt8} {old : X} (hkey : items.lookup key = some old)
    (x : X) : Maps ⟨array.bitset, array.storage.set key.toNat (some x)⟩ (setKey key x items) := by
  have hget := BitArray.get_known_present_set array array.bitset (some x) (h.key_lt key)
  refine ⟨⟨?_, ?_⟩, by simpa using h.width, h.ascending.setKey key x, fun q => ?_⟩
  · simpa using h.valid.covered
  · intro pos
    rw [hget]
    split
    · rename_i heq
      rw [heq]
      exact h.valid.check_iff.2 ⟨old, by rw [← h.lookup_eq]; exact hkey⟩
    · exact h.valid.marked pos
  · rw [lookup_setKey, hget, hkey, h.lookup_eq]
    simp only [UInt8.toNat_inj]
    rfl

/-- The first marked slot is the head of the list. -/
theorem first_used_cons {key : UInt8} {x : X} (h : Maps array ((key, x) :: items)) :
    array.first_used = some key.toNat := by
  have hkey : array.get_known_present key.toNat = some x := by
    rw [← h.lookup_eq]
    simp
  cases hused : array.first_used with
  | none =>
    rw [h.valid.first_used_eq_none hused] at hkey
    cases hkey
  | some pos =>
    obtain ⟨⟨y, hy⟩, hfirst⟩ := h.valid.first_used_eq_some hused
    have hlt := BitArray.lt_of_get_known_present hy
    rw [h.width] at hlt
    have hpos : (UInt8.ofNat pos).toNat = pos := UInt8.toNat_ofNat_of_lt' hlt
    have hlookup := h.lookup_eq (UInt8.ofNat pos)
    rw [hpos, hy] at hlookup
    have hle : key ≤ UInt8.ofNat pos := by
      have hmem := h.ascending.lookup_eq_some_iff.1 hlookup
      cases List.mem_cons.1 hmem with
      | inl heq => rw [(Prod.mk.inj heq).1]
      | inr hmem => exact ((ascending_cons.1 h.ascending).1 _ hmem).le
    rw [UInt8.le_iff_toNat_le, hpos] at hle
    by_cases heq : key.toNat = pos
    · rw [heq]
    · rw [hfirst key.toNat (by omega)] at hkey
      cases hkey

/-- An empty list has no first slot. -/
theorem first_used_nil (h : Maps array []) : array.first_used = none := by
  cases hused : array.first_used with
  | none => rfl
  | some pos =>
    obtain ⟨⟨y, hy⟩, _⟩ := h.valid.first_used_eq_some hused
    have hlt := BitArray.lt_of_get_known_present hy
    rw [h.width] at hlt
    have hlookup := h.lookup_eq (UInt8.ofNat pos)
    rw [UInt8.toNat_ofNat_of_lt' hlt, hy] at hlookup
    cases hlookup

/-- Erasing the first pair leaves the rest. -/
theorem eraseKey_cons {key : UInt8} {x : X} (h : Maps array ((key, x) :: items)) :
    eraseKey key ((key, x) :: items) = items :=
  eraseKey_append_cons [] h.ascending

/-- Reading the children of listed edges gives the pairs back. -/
theorem iter_keys_map {N : Type} {child : UInt8 → Option N} {pairs : List (UInt8 × N)}
    (hchild : ∀ p ∈ pairs, child p.1 = some p.2) :
    iter_keys child (pairs.map fun p => p.1.toNat) = pairs := by
  induction pairs with
  | nil => rfl
  | cons p pairs ih =>
    rw [List.map_cons, iter_keys, UInt8.ofNat_toNat, hchild p (by simp),
      ih fun q hq => hchild q (by simp [hq])]

/-- The marked keys, in order. -/
theorem bitset_iter_eq (h : Maps array items) {N : Type} {pairs : List (UInt8 × N)} (hasc : Ascending pairs)
    (hsome : ∀ key, (∃ x, items.lookup key = some x) ↔ ∃ node, pairs.lookup key = some node) :
    array.bitset.iter = pairs.map fun p => p.1.toNat := by
  have hsorted : array.bitset.iter.Pairwise (· < ·) := by
    rw [Bitset.iter_eq_positions (le_refl 6)]
    exact array.bitset.positions_ascending
  refine List.Pairwise.eq_of_mem_iff (r := (· < ·)) hsorted ?_ ?_
  · rw [List.pairwise_map]
    exact List.Pairwise.imp (fun hlt => UInt8.lt_iff_toNat_lt.1 hlt) hasc
  · intro pos
    rw [h.valid.mem_iter, List.mem_map]
    constructor
    · rintro ⟨x, hx⟩
      have hlt := BitArray.lt_of_get_known_present hx
      rw [h.width] at hlt
      have hpos : (UInt8.ofNat pos).toNat = pos := UInt8.toNat_ofNat_of_lt' hlt
      obtain ⟨node, hnode⟩ := (hsome (UInt8.ofNat pos)).1 ⟨x, by rw [h.lookup_eq, hpos]; exact hx⟩
      exact ⟨_, hasc.lookup_eq_some_iff.1 hnode, hpos⟩
    · rintro ⟨p, hp, rfl⟩
      obtain ⟨x, hx⟩ := (hsome p.1).2 ⟨p.2, hasc.lookup_eq_some_iff.2 hp⟩
      exact ⟨x, by rw [← h.lookup_eq]; exact hx⟩

/-- Walking the marked keys finds the values in order. -/
theorem iter_keys_eq (h : Maps array items) {N : Type} {pairs : List (UInt8 × N)}
    {child : UInt8 → Option N} (hasc : Ascending pairs)
    (hsome : ∀ key, (∃ x, items.lookup key = some x) ↔ ∃ node, pairs.lookup key = some node)
    (hchild : ∀ key node, pairs.lookup key = some node → child key = some node) :
    iter_keys child array.bitset.iter = pairs := by
  rw [h.bitset_iter_eq hasc hsome]
  exact iter_keys_map fun p hp => hchild p.1 p.2 (hasc.lookup_eq_some_iff.2 hp)

end Maps

end Maps

namespace DirectMapping

variable {N : Type}

/-- The table holds exactly the pairs of an ascending list. -/
structure Repr (m : DirectMapping N) (items : List (UInt8 × N)) : Prop where
  maps : Maps m.children items
  num_children_eq : m.num_children = items.length

namespace Repr

variable {m : DirectMapping N} {items : List (UInt8 × N)}

/-- A new table stands for the empty list. -/
theorem new : (DirectMapping.new : DirectMapping N).Repr [] := ⟨.new, rfl⟩

/-- The iterator hands out the list. -/
theorem iter_eq (h : m.Repr items) : m.iter = items :=
  h.maps.iter_keys_eq h.maps.ascending (fun _ => Iff.rfl) fun key node hnode => by
    rw [h.maps.get_eq, hnode]

/-- A search for a child is a lookup in the list. -/
theorem seek_child (h : m.Repr items) (key : UInt8) : m.seek_child key = items.lookup key := by
  unfold DirectMapping.seek_child
  rw [← h.maps.get_eq]
  rfl

/-- Adding a child inserts its pair into the list. -/
theorem add_child (h : m.Repr items) {key : UInt8} (node : N) (hkey : items.lookup key = none) :
    ∃ m', m.add_child key node = .ok m' ∧ m'.Repr (insertSorted key node items) := by
  obtain ⟨a, ha, hmaps⟩ := h.maps.set hkey node
  refine ⟨⟨a, m.num_children + 1⟩, ?_, hmaps, ?_⟩
  · unfold DirectMapping.add_child
    rw [ha]
    rfl
  · rw [length_insertSorted, h.num_children_eq]

/-- Writing a child replaces it in the list. -/
theorem write_child (h : m.Repr items) (key : UInt8) (node : N) :
    (m.write_child key node).Repr (setKey key node items) := by
  have hlen : (setKey key node items).length = items.length := by simp [setKey]
  unfold DirectMapping.write_child
  cases hkey : items.lookup key with
  | none =>
    rw [h.maps.check_eq_false hkey, setKey_eq_self hkey]
    exact h
  | some old =>
    rw [(h.maps.check_iff key).2 ⟨old, hkey⟩, if_pos rfl]
    exact ⟨h.maps.overwrite hkey node, h.num_children_eq.trans hlen.symm⟩

/-- Deleting a child erases its pair from the list. -/
theorem delete_child (h : m.Repr items) {key : UInt8} {node : N} (hkey : items.lookup key = some node) :
    ∃ m', m.delete_child key = .ok (some node, m') ∧ m'.Repr (eraseKey key items) := by
  obtain ⟨a, ha, hmaps⟩ := h.maps.erase_known_present hkey
  have hlen := h.maps.ascending.length_eraseKey hkey
  have hnum := h.num_children_eq
  refine ⟨⟨a, m.num_children - 1⟩, ?_, hmaps, by dsimp only; omega⟩
  unfold DirectMapping.delete_child
  rw [(h.maps.check_iff key).2 ⟨node, hkey⟩, if_pos rfl, usize_sub_eq_ok (by omega), ok_bind, ha]
  rfl

/-- Deleting an edge that is not there changes nothing. -/
theorem delete_child_none (h : m.Repr items) {key : UInt8} (hkey : items.lookup key = none) :
    m.delete_child key = .ok (none, m) := by
  unfold DirectMapping.delete_child
  rw [h.maps.check_eq_false hkey]
  rfl

end Repr

end DirectMapping

end rart.mapping
