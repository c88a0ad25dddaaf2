import Rart.Debug.Arrays
import Rart.Mapping.Indexed

open Checked SortedAssoc
open rart.mapping rart.utils

namespace rart.debug

variable {N : Type} {WIDTH : Nat}

namespace SortedKeyedMapping

/-- Asserts that the child is the only one. What a table does on arrays whose accesses are checked
in every build is taken from there as it is. -/
def take_value_for_leaf (self : SortedKeyedMapping N WIDTH) :
    Result ((UInt8 × N) × SortedKeyedMapping N WIDTH) := do
  debug_assert (self.num_children = 1) "assertion failed: self.num_children == 1"
  self.take_value_for_leaf

/-- The loop of `from_indexed`, for destinations `dst..child_count`. -/
def from_indexed.loop : Nat → BitArray UInt8 → BitArray N → SortedKeyedMapping N WIDTH → Nat →
    Result (SortedKeyedMapping N WIDTH)
  | 0, _, _, new_mapping, _ => return new_mapping
  | remaining + 1, child_ptr_indexes, children, new_mapping, dst => do
    let key ← expect child_ptr_indexes.first_used
      "indexed mapping had fewer live keys than num_children"
    let (pos, child_ptr_indexes) ← BitArray.erase_known_present child_ptr_indexes key
    let keys ← index_set new_mapping.keys dst (UInt8.ofNat key)
    let (child, children) ← BitArray.erase_known_present children pos.toNat
    let slots ← index_set new_mapping.children dst (some child)
    loop remaining child_ptr_indexes children { new_mapping with keys := keys, children := slots } (dst + 1)

/-- Every erasure of the two arrays is asserted. -/
def from_indexed {IDX_WIDTH : Nat} (im : IndexedMapping N IDX_WIDTH) : Result (SortedKeyedMapping N WIDTH) := do
  let new_mapping ← from_indexed.loop im.num_children im.child_ptr_indexes im.children
    (mapping.SortedKeyedMapping.new : SortedKeyedMapping N WIDTH) 0
  return { new_mapping with num_children := im.num_children }

variable [Features]

/-- The slots above the place move up by one. -/
def add_child (self : SortedKeyedMapping N WIDTH) (key : UInt8) (node : N) :
    Result (SortedKeyedMapping N WIDTH) := do
  let idx ← unwrap (← u8_keys_find_insert_position_sorted WIDTH key self.keys self.num_children)
  let self ← (List.range' idx (self.num_children - idx)).reverse.foldlM
    (fun (self : SortedKeyedMapping N WIDTH) i => self.move_slot i (i + 1)) self
  let keys ← index_set self.keys idx key
  let children ← index_set self.children idx (some node)
  return { keys, children, num_children := self.num_children + 1 }

/-- `seek_child` and `seek_child_mut` -/
def seek_child (self : SortedKeyedMapping N WIDTH) (key : UInt8) : Result (Option N) := do
  match ← u8_keys_find_key_position_sorted WIDTH key self.keys self.num_children with
  | none => return none
  | some idx =>
    match ← index self.children idx with
    | none => throw .uninit
    | some node => return some node

/-- The slots above the place move down by one, and the last is cleared. -/
def delete_child (self : SortedKeyedMapping N WIDTH) (key : UInt8) :
    Result (Option N × SortedKeyedMapping N WIDTH) := do
  match ← u8_keys_find_key_position_sorted WIDTH key self.keys self.num_children with
  | none => return (none, self)
  | some idx =>
    let (node, self) ← self.take_child idx
    let self ← (List.range' idx (WIDTH - 1 - idx)).foldlM
      (fun (self : SortedKeyedMapping N WIDTH) i => self.move_slot (i + 1) i) self
    let keys ← index_set self.keys (WIDTH - 1) 255
    let children ← index_set self.children (WIDTH - 1) none
    return (some node, { keys, children, num_children := ← usize_sub self.num_children 1 })

end SortedKeyedMapping

namespace IndexedMapping

/-- The loop of `from_direct`. -/
def from_direct.loop : Nat → BitArray N → IndexedMapping N WIDTH → Nat → Result (IndexedMapping N WIDTH)
  | 0, _, _, _ => throw .out_of_fuel
  | fuel + 1, dm_children, indexed, next_slot => do
    match dm_children.first_used with
    | none => return indexed
    | some key =>
      let (child, dm_children) ← BitArray.erase_known_present dm_children key
      let child_ptr_indexes ← BitArray.set indexed.child_ptr_indexes key (UInt8.ofNat next_slot)
      let children ← BitArray.set indexed.children next_slot child
      loop fuel dm_children { indexed with child_ptr_indexes, children } (next_slot + 1)

/-- A fuel of 257 is enough for the 256 edges and the round that finds none. -/
def from_direct (dm : DirectMapping N) : Result (IndexedMapping N WIDTH) := do
  let indexed ← from_direct.loop 257 dm.children (mapping.IndexedMapping.new : IndexedMapping N WIDTH) 0
  return { indexed with num_children := dm.num_children }

/-- The body of the loop of `from_sorted_keyed`. -/
def from_sorted_keyed.steal {KM_WIDTH : Nat} (km : SortedKeyedMapping N KM_WIDTH)
    (im : IndexedMapping N WIDTH) (i : Nat) : Result (IndexedMapping N WIDTH) := do
  match ← index km.children i with
  | none => throw .uninit
  | some stolen =>
    let child_ptr_indexes ← BitArray.set im.child_ptr_indexes (← index km.keys i).toNat (UInt8.ofNat i)
    let children ← BitArray.set im.children i stolen
    return { im with child_ptr_indexes, children }

/-- The slots in use are copied in order, keeping their positions. -/
def from_sorted_keyed {KM_WIDTH : Nat} (km : SortedKeyedMapping N KM_WIDTH) :
    Result (IndexedMapping N WIDTH) := do
  let im ← (List.range km.num_children).foldlM (from_sorted_keyed.steal km)
    (mapping.IndexedMapping.new : IndexedMapping N WIDTH)
  return { im with num_children := km.num_children }

/-- The first empty slot takes the child, and the edge points to it. -/
def add_child (self : IndexedMapping N WIDTH) (key : UInt8) (node : N) :
    Result (IndexedMapping N WIDTH) := do
  let pos ← unwrap self.children.first_empty
  let child_ptr_indexes ← BitArray.set self.child_ptr_indexes key.toNat (UInt8.ofNat pos)
  let children ← BitArray.set self.children pos node
  return { child_ptr_indexes, children, num_children := self.num_children + 1 }

/-- `seek_child` and `seek_child_mut` -/
def seek_child (self : IndexedMapping N WIDTH) (key : UInt8) : Result (Option N) := do
  match ← BitArray.get self.child_ptr_indexes key.toNat with
  | none => return none
  | some pos => return some (← BitArray.get_known_present self.children pos.toNat)

/-- The edge is erased first, and names the slot to erase. -/
def delete_child (self : IndexedMapping N WIDTH) (key : UInt8) :
    Result (Option N × IndexedMapping N WIDTH) := do
  match ← BitArray.erase self.child_ptr_indexes key.toNat with
  | (none, child_ptr_indexes) => return (none, { self with child_ptr_indexes })
  | (some pos, child_ptr_indexes) =>
    let (old, children) ← BitArray.erase_known_present self.children pos.toNat
    let num_children ← usize_sub self.num_children 1
    return (some old, { child_ptr_indexes, children, num_children })

end IndexedMapping

namespace DirectMapping

/-- The loop of `from_indexed`. -/
def from_indexed.loop : Nat → BitArray UInt8 → BitArray N → BitArray N → Result (BitArray N)
  | 0, _, _, _ => throw .out_of_fuel
  | fuel + 1, child_ptr_indexes, im_children, children => do
    match child_ptr_indexes.first_used with
    | none => return children
    | some key =>
      let (pos, child_ptr_indexes) ← BitArray.erase_known_present child_ptr_indexes key
      let (child, im_children) ← BitArray.erase_known_present im_children pos.toNat
      loop fuel child_ptr_indexes im_children (← BitArray.set children key child)

/-- Each edge moves its child to its own slot. -/
def from_indexed (im : IndexedMapping N WIDTH) : Result (DirectMapping N) := do
  let children ← from_indexed.loop 257 im.child_ptr_indexes im.children mapping.DirectMapping.new.children
  return { children, num_children := im.num_children }

/-- The slot of the edge takes the child. -/
def add_child (self : DirectMapping N) (key : UInt8) (node : N) : Result (DirectMapping N) := do
  return { children := ← BitArray.set self.children key.toNat node, num_children := self.num_children + 1 }

/-- `seek_child` and `seek_child_mut` -/
def seek_child (self : DirectMapping N) (key : UInt8) : Result (Option N) := do
  if ← BitArray.check self.children key.toNat then
    return some (← BitArray.get_known_present self.children key.toNat)
  else return none

/-- The count goes down before the child is taken out. -/
def delete_child (self : DirectMapping N) (key : UInt8) : Result (Option N × DirectMapping N) := do
  if ← BitArray.check self.children key.toNat then
    let num_children ← usize_sub self.num_children 1
    let (node, children) ← BitArray.erase_known_present self.children key.toNat
    return (some node, { children, num_children })
  else return (none, self)

end DirectMapping

section Specs

/-- What holds before a checked erasure follows it. -/
theorem erase_then {X Y : Type} {array : BitArray X} (h : array.Valid) (pos : Nat)
    {f g : X × BitArray X → Result Y}
    (hrest : ∀ x (after : BitArray X), after.Valid → Follows (f (x, after)) (g (x, after))) :
    Follows (array.erase_known_present pos >>= f) (BitArray.erase_known_present array pos >>= g) :=
  (BitArray.erase_known_present_follows h).bind fun erased herased =>
    hrest erased.1 erased.2 (BitArray.valid_erased h herased).1

namespace SortedKeyedMapping

variable {m : SortedKeyedMapping N WIDTH} {items : List (UInt8 × N)}

/-- A table has room for the keys that it counts. -/
theorem num_children_le (h : m.Repr items) : m.num_children ≤ m.keys.length := by
  rw [h.num_children_eq, h.keys_length]
  exact h.length_le

/-- With one child the assertion holds. -/
theorem take_value_for_leaf_eq (h : m.num_children = 1) : take_value_for_leaf m = m.take_value_for_leaf := by
  unfold take_value_for_leaf
  rw [debug_assert_of h]
  rfl

/-- By induction on the children that are left. Each round erases from two sound arrays. -/
theorem from_indexed_loop_follows {remaining : Nat} {child_ptr_indexes : BitArray UInt8}
    {children : BitArray N} (hidx : child_ptr_indexes.Valid) (hchildren : children.Valid) (dst : Nat) :
    Follows (mapping.SortedKeyedMapping.from_indexed.loop remaining child_ptr_indexes children m dst)
      (from_indexed.loop remaining child_ptr_indexes children m dst) := by
  induction remaining generalizing child_ptr_indexes children m dst with
  | zero => exact Follows.refl _
  | succ remaining ih =>
    refine (Follows.refl _).bind fun key _ => ?_
    refine erase_then hidx key fun pos idx' hidx' => ?_
    refine (Follows.refl _).bind fun keys _ => ?_
    refine erase_then hchildren pos.toNat fun child children' hchildren' => ?_
    exact (Follows.refl _).bind fun slots _ => ih hidx' hchildren' (dst + 1)

/-- Shrinking a sound indexed table fails on no assertion. -/
theorem from_indexed_follows {IDX_WIDTH : Nat} {im : IndexedMapping N IDX_WIDTH} (h : im.Repr items) :
    Follows (mapping.SortedKeyedMapping.from_indexed im : Result (SortedKeyedMapping N WIDTH))
      (from_indexed im) := by
  obtain ⟨ptrs, hptrs⟩ := h.slots.ptrs
  exact (from_indexed_loop_follows hptrs.valid h.slots.valid 0).bind fun _ _ => Follows.refl _

variable [Features]

/-- Adding to a sorted table shifts through checked accesses only. -/
theorem add_child_follows (h : m.Repr items) (key : UInt8) (node : N) :
    Follows (m.add_child key node) (add_child m key node) := by
  unfold add_child
  rw [find_insert_position_eq WIDTH key (num_children_le h)]
  exact Follows.refl _

/-- In a sorted table the child is found as without assertions. -/
theorem seek_child_eq (h : m.Repr items) (hwidth : WIDTH ≤ 16) (key : UInt8) :
    seek_child m key = .ok (m.seek_child key) := by
  unfold seek_child
  rw [h.seek_child hwidth, find_key_position_eq WIDTH key (num_children_le h), ok_bind]
  cases hkey : items.lookup key with
  | none =>
    rw [h.find_key_position_none hwidth hkey]
    rfl
  | some node =>
    obtain ⟨l₁, l₂, rfl, _⟩ := List.lookup_eq_some_iff.1 hkey
    have hget : (l₁ ++ (key, node) :: l₂)[l₁.length]? = some (key, node) := by simp
    rw [h.find_key_position_split hwidth]
    dsimp only
    rw [index_eq_ok (h.getElem?_children hget)]
    rfl

/-- What a search returns stands in a slot. -/
theorem mem_of_seek {key : UInt8} {node : N} (h : seek_child m key = .ok (some node)) :
    some node ∈ m.children := by
  obtain ⟨found, _, hrest⟩ := bind_eq_ok_iff.1 h
  cases found with
  | none => cases hrest
  | some idx =>
    obtain ⟨slot, hslot, hnode⟩ := bind_eq_ok_iff.1 hrest
    unfold index at hslot
    split at hslot
    · rename_i a ha
      cases hslot
      cases slot with
      | none => cases hnode
      | some x =>
        cases hnode
        exact List.mem_of_getElem? ha
    · cases hslot

/-- Deleting from a sorted table fails on no assertion. -/
theorem delete_child_follows (h : m.Repr items) (key : UInt8) :
    Follows (m.delete_child key) (delete_child m key) := by
  unfold delete_child
  rw [find_key_position_eq WIDTH key (num_children_le h)]
  exact Follows.refl _

end SortedKeyedMapping

/-- What is read stands in a slot. -/
theorem mem_of_get_known_present {array : BitArray N} {pos : Nat} {node : N}
    (h : BitArray.get_known_present array pos = .ok node) : some node ∈ array.storage := by
  obtain ⟨_, _, hrest⟩ := bind_eq_ok_iff.1 h
  obtain ⟨_, _, hrest⟩ := bind_eq_ok_iff.1 hrest
  obtain ⟨_, _, hrest⟩ := bind_eq_ok_iff.1 hrest
  obtain ⟨slot, hslot, hnode⟩ := bind_eq_ok_iff.1 hrest
  unfold index at hslot
  split at hslot
  · rename_i a ha
    cases hslot
    cases slot with
    | none => cases hnode
    | some x =>
      cases hnode
      exact List.mem_of_getElem? ha
  · cases hslot

namespace IndexedMapping

variable {m : IndexedMapping N WIDTH} {items : List (UInt8 × N)}

/-- By induction on the fuel. Each round erases one edge. -/
theorem from_direct_loop_follows {fuel : Nat} {dm_children : BitArray N} (hvalid : dm_children.Valid)
    (next_slot : Nat) :
    Follows (mapping.IndexedMapping.from_direct.loop fuel dm_children m next_slot)
      (from_direct.loop fuel dm_children m next_slot) := by
  induction fuel generalizing dm_children m next_slot with
  | zero => exact Follows.refl _
  | succ fuel ih =>
    rw [from_direct.loop, mapping.IndexedMapping.from_direct.loop]
    cases dm_children.first_used with
    | none => exact Follows.refl _
    | some key =>
      refine erase_then hvalid key fun child dm' hvalid' => ?_
      refine (BitArray.set_follows _ _).bind fun idx' _ => ?_
      exact (BitArray.set_follows _ _).bind fun children' _ => ih hvalid' (next_slot + 1)

/-- Shrinking a sound direct table fails on no assertion. -/
theorem from_direct_follows {dm : DirectMapping N} (h : dm.Repr items) :
    Follows (mapping.IndexedMapping.from_direct dm : Result (IndexedMapping N WIDTH)) (from_direct dm) :=
  (from_direct_loop_follows h.maps.valid 0).bind fun _ _ => Follows.refl _

/-- Growing a sorted table copies through checked accesses only. -/
theorem from_sorted_keyed_follows {KM_WIDTH : Nat} (km : SortedKeyedMapping N KM_WIDTH) :
    Follows (mapping.IndexedMapping.from_sorted_keyed km : Result (IndexedMapping N WIDTH))
      (from_sorted_keyed km) := by
  refine (Follows.foldl (fun im i => ?_) _ _).bind fun _ _ => Follows.refl _
  refine (Follows.refl _).bind fun slot _ => ?_
  cases slot with
  | none => exact Follows.refl _
  | some stolen =>
    refine (Follows.refl _).bind fun key _ => ?_
    refine (BitArray.set_follows _ _).bind fun idx' _ => ?_
    exact (BitArray.set_follows _ _).bind fun children' _ => Follows.refl _

/-- An indexed table writes to slots that are there. -/
theorem add_child_follows (m : IndexedMapping N WIDTH) (key : UInt8) (node : N) :
    Follows (m.add_child key node) (add_child m key node) := by
  refine (Follows.refl _).bind fun pos _ => ?_
  refine (BitArray.set_follows _ _).bind fun idx' _ => ?_
  exact (BitArray.set_follows _ _).bind fun children' _ => Follows.refl _

/-- Edges index 256 slots, and the slot that an edge names is in use. -/
theorem seek_child_eq (h : m.Repr items) (key : UInt8) : seek_child m key = .ok (m.seek_child key) := by
  obtain ⟨ptrs, hptrs⟩ := h.slots.ptrs
  unfold seek_child
  rw [BitArray.get_eq hptrs.valid (hptrs.key_lt key), ok_bind, h.seek_child]
  rw [hptrs.get_eq, hptrs.lookup_eq]
  cases hpos : m.child_ptr_indexes.get_known_present key.toNat with
  | none =>
    rw [h.slots.lookup_eq, hpos]
    rfl
  | some pos =>
    obtain ⟨node, hnode⟩ := h.slots.live key pos hpos
    dsimp only
    rw [BitArray.get_known_present_eq h.slots.valid hnode, h.slots.lookup_eq, hpos, Option.bind_some, hnode]
    rfl

/-- What a search returns stands in a slot. -/
theorem mem_of_seek {key : UInt8} {node : N} (h : seek_child m key = .ok (some node)) :
    some node ∈ m.children.storage := by
  obtain ⟨found, _, hrest⟩ := bind_eq_ok_iff.1 h
  cases found with
  | none => cases hrest
  | some pos =>
    obtain ⟨child, hchild, hnode⟩ := bind_eq_ok_iff.1 hrest
    cases hnode
    exact mem_of_get_known_present hchild

/-- An edge that is in use names a slot that is in use. -/
theorem delete_child_follows (h : m.Repr items) (key : UInt8) :
    Follows (m.delete_child key) (delete_child m key) := by
  obtain ⟨ptrs, hptrs⟩ := h.slots.ptrs
  refine (BitArray.erase_follows hptrs.valid (hptrs.key_lt key)).bind fun erased _ => ?_
  obtain ⟨found, idx'⟩ := erased
  cases found with
  | none => exact Follows.refl _
  | some pos => exact (BitArray.erase_known_present_follows h.slots.valid).bind fun _ _ => Follows.refl _

end IndexedMapping

namespace DirectMapping

variable {m : DirectMapping N} {items : List (UInt8 × N)}

/-- By induction on the fuel. Each round erases an edge and its slot. -/
theorem from_indexed_loop_follows {fuel : Nat} {child_ptr_indexes : BitArray UInt8} {im_children : BitArray N}
    (hidx : child_ptr_indexes.Valid) (hchildren : im_children.Valid) (children : BitArray N) :
    Follows (mapping.DirectMapping.from_indexed.loop fuel child_ptr_indexes im_children children)
      (from_indexed.loop fuel child_ptr_indexes im_children children) := by
  induction fuel generalizing child_ptr_indexes im_children children with
  | zero => exact Follows.refl _
  | succ fuel ih =>
    rw [from_indexed.loop, mapping.DirectMapping.from_indexed.loop]
    cases child_ptr_indexes.first_used with
    | none => exact Follows.refl _
    | some key =>
      refine erase_then hidx key fun pos idx' hidx' => ?_
      refine erase_then hchildren pos.toNat fun child im' hvalid' => ?_
      exact (BitArray.set_follows _ _).bind fun children' _ => ih hidx' hvalid' children'

/-- Growing a sound indexed table fails on no assertion. -/
theorem from_indexed_follows {im : IndexedMapping N WIDTH} (h : im.Repr items) :
    Follows (mapping.DirectMapping.from_indexed im) (from_indexed im) := by
  obtain ⟨ptrs, hptrs⟩ := h.slots.ptrs
  exact (from_indexed_loop_follows hptrs.valid h.slots.valid _).bind fun _ _ => Follows.refl _

/-- A direct table writes to a slot that is there. -/
theorem add_child_follows (m : DirectMapping N) (key : UInt8) (node : N) :
    Follows (m.add_child key node) (add_child m key node) :=
  (BitArray.set_follows _ _).bind fun _ _ => Follows.refl _

/-- Edges index 256 slots. -/
theorem seek_child_eq (h : m.Repr items) (key : UInt8) : seek_child m key = .ok (m.seek_child key) := by
  unfold seek_child
  rw [BitArray.check_eq h.maps.valid (h.maps.key_lt key), ok_bind, h.seek_child]
  cases hkey : items.lookup key with
  | none =>
    rw [h.maps.check_eq_false hkey]
    rfl
  | some node =>
    have hpresent := (h.maps.lookup_eq key).symm.trans hkey
    rw [(h.maps.check_iff key).2 ⟨node, hkey⟩, if_pos rfl, BitArray.get_known_present_eq h.maps.valid hpresent]
    rfl

/-- What a search returns stands in a slot. -/
theorem mem_of_seek {key : UInt8} {node : N} (h : seek_child m key = .ok (some node)) :
    some node ∈ m.children.storage := by
  obtain ⟨present, _, hrest⟩ := bind_eq_ok_iff.1 h
  split at hrest
  · obtain ⟨child, hchild, hnode⟩ := bind_eq_ok_iff.1 hrest
    cases hnode
    exact mem_of_get_known_present hchild
  · cases hrest

/-- Deleting from a sound direct table fails on no assertion. -/
theorem delete_child_follows (h : m.Repr items) (key : UInt8) :
    Follows (m.delete_child key) (delete_child m key) := by
  unfold delete_child mapping.DirectMapping.delete_child
  rw [BitArray.check_eq h.maps.valid (h.maps.key_lt key), ok_bind]
  split
  · refine (Follows.refl _).bind fun num_children _ => ?_
    exact (BitArray.erase_known_present_follows h.maps.valid).bind fun _ _ => Follows.refl _
  · exact Follows.refl _

end DirectMapping

end Specs

end rart.debug
