import Rart.Mapping.Direct
import Rart.Mapping.SortedKeyed

open SortedAssoc
open rart.utils

namespace rart.mapping

/-- `IndexedMapping<N, WIDTH, Bitset64<1>>`: the number of a slot for every edge byte in use. -/
structure IndexedMapping (N : Type) (WIDTH : Nat) where
  child_ptr_indexes : BitArray UInt8
  children : BitArray N
  num_children : Nat

namespace IndexedMapping

variable {N : Type} {WIDTH : Nat}

/-- No edge has a slot. -/
def new : IndexedMapping N WIDTH := ⟨.new 256 4, .new WIDTH 1, 0⟩

/-- The edges in ascending order, each with the child of its slot. -/
def iter (self : IndexedMapping N WIDTH) : List (UInt8 × N) :=
  iter_keys (fun key => do
    let pos ← self.child_ptr_indexes.get key.toNat
    self.children.get pos.toNat) self.child_ptr_indexes.bitset.iter

/-- The child goes to the slot behind the last one. -/
def add_child_sorted (self : IndexedMapping N WIDTH) (key : UInt8) (node : N) :
    Result (IndexedMapping N WIDTH) := do
  let pos := self.num_children
  let child_ptr_indexes ← self.child_ptr_indexes.set key.toNat (UInt8.ofNat pos)
  let children ← self.children.set pos node
  return { child_ptr_indexes, children, num_children := self.num_children + 1 }

/-- The child goes to the first slot that is free. -/
def add_child (self : IndexedMapping N WIDTH) (key : UInt8) (node : N) :
    Result (IndexedMapping N WIDTH) := do
  let pos ← unwrap self.children.first_empty
  let child_ptr_indexes ← self.child_ptr_indexes.set key.toNat (UInt8.ofNat pos)
  let children ← self.children.set pos node
  return { child_ptr_indexes, children, num_children := self.num_children + 1 }

/-- The slot number of the edge, and the child in that slot. -/
def seek_child (self : IndexedMapping N WIDTH) (key : UInt8) : Option N := do
  let pos ← self.child_ptr_indexes.get key.toNat
  self.children.get_known_present pos.toNat

/-- Write through the reference that `seek_child_mut` returns. -/
def write_child (self : IndexedMapping N WIDTH) (key : UInt8) (node : N) : IndexedMapping N WIDTH :=
  match self.child_ptr_indexes.get key.toNat with
  | some pos =>
    { self with children := { self.children with
        storage := self.children.storage.set pos.toNat (some node) } }
  | none => self

theorem write_child_self {self : IndexedMapping N WIDTH} {key : UInt8} {node : N}
    (h : self.seek_child key = some node) : self.write_child key node = self := by
  obtain ⟨pos, hpos, hchild⟩ := Option.bind_eq_some_iff.1 h
  unfold write_child
  rw [hpos]
  dsimp only
  rw [set_of_getElem? (BitArray.get_known_present_eq_some.1 hchild)]

/-- The slot and its number are freed. -/
def delete_child (self : IndexedMapping N WIDTH) (key : UInt8) :
    Result (Option N × IndexedMapping N WIDTH) := do
  match ← self.child_ptr_indexes.erase key.toNat with
  | (none, child_ptr_indexes) => return (none, { self with child_ptr_indexes })
  | (some pos, child_ptr_indexes) =>
    let (old, children) ← self.children.erase_known_present pos.toNat
    let num_children ← usize_sub self.num_children 1
    return (some old, { child_ptr_indexes, children, num_children })

/-- The loop of `from_direct`; it runs once for each child and once more. -/
def from_direct.loop : Nat → BitArray N → IndexedMapping N WIDTH → Nat →
    Result (IndexedMapping N WIDTH)
  | 0, _, _, _ => throw .out_of_fuel
  | fuel + 1, dm_children, indexed, next_slot => do
    match dm_children.first_used with
    | none => return indexed
    | some key =>
      let (child, dm_children) ← dm_children.erase_known_present key
      let child_ptr_indexes ← indexed.child_ptr_indexes.set key (UInt8.ofNat next_slot)
      let children ← indexed.children.set next_slot child
      loop fuel dm_children { indexed with child_ptr_indexes, children } (next_slot + 1)

/-- Children move over one by one, into slots in the order of their edges. -/
def from_direct (dm : DirectMapping N) : Result (IndexedMapping N WIDTH) := do
  let indexed ← from_direct.loop 257 dm.children (IndexedMapping.new : IndexedMapping N WIDTH) 0
  return { indexed with num_children := dm.num_children }

/-- The body of the loop of `from_sorted_keyed`. -/
def from_sorted_keyed.steal {KM_WIDTH : Nat} (km : SortedKeyedMapping N KM_WIDTH)
    (im : IndexedMapping N WIDTH) (i : Nat) : Result (IndexedMapping N WIDTH) := do
  match ← index km.children i with
  | none => throw .uninit
  | some stolen =>
    let child_ptr_indexes ← im.child_ptr_indexes.set (← index km.keys i).toNat (UInt8.ofNat i)
    let children ← im.children.set i stolen
    return { im with child_ptr_indexes, children }

/-- The children of a narrow table, each in the slot of its place. -/
def from_sorted_keyed {KM_WIDTH : Nat} (km : SortedKeyedMapping N KM_WIDTH) :
    Result (IndexedMapping N WIDTH) := do
  let im ← (List.range km.num_children).foldlM (from_sorted_keyed.steal km)
    (IndexedMapping.new : IndexedMapping N WIDTH)
  return { im with num_children := km.num_children }

end IndexedMapping

/-- The loop of `from_indexed`, for destinations `dst..child_count`. -/
def SortedKeyedMapping.from_indexed.loop {N : Type} {WIDTH : Nat} : Nat → BitArray UInt8 →
    BitArray N → SortedKeyedMapping N WIDTH → Nat → Result (SortedKeyedMapping N WIDTH)
  | 0, _, _, new_mapping, _ => return new_mapping
  | remaining + 1, child_ptr_indexes, children, new_mapping, dst => do
    let key ← expect child_ptr_indexes.first_used
      "indexed mapping had fewer live keys than num_children"
    let (pos, child_ptr_indexes) ← child_ptr_indexes.erase_known_present key
    let keys ← index_set new_mapping.keys dst (UInt8.ofNat key)
    let (child, children) ← children.erase_known_present pos.toNat
    let slots ← index_set new_mapping.children dst (some child)
    loop remaining child_ptr_indexes children { new_mapping with keys := keys, children := slots } (dst + 1)

/-- The children of a middle table, packed in the order of their edges. -/
def SortedKeyedMapping.from_indexed {N : Type} {WIDTH IDX_WIDTH : Nat}
    (im : IndexedMapping N IDX_WIDTH) : Result (SortedKeyedMapping N WIDTH) := do
  let new_mapping ← SortedKeyedMapping.from_indexed.loop im.num_children im.child_ptr_indexes
    im.children (SortedKeyedMapping.new : SortedKeyedMapping N WIDTH) 0
  return { new_mapping with num_children := im.num_children }

/-- The loop of `DirectMapping::from_indexed`; it runs once for each child and
once more. -/
def DirectMapping.from_indexed.loop {N : Type} : Nat → BitArray UInt8 → BitArray N → BitArray N →
    Result (BitArray N)
  | 0, _, _, _ => throw .out_of_fuel
  | fuel + 1, child_ptr_indexes, im_children, children => do
    match child_ptr_indexes.first_used with
    | none => return children
    | some key =>
      let (pos, child_ptr_indexes) ← child_ptr_indexes.erase_known_present key
      let (child, im_children) ← im_children.erase_known_present pos.toNat
      loop fuel child_ptr_indexes im_children (← children.set key child)

/-- The children of a middle table, each in the slot of its edge. -/
def DirectMapping.from_indexed {N : Type} {WIDTH : Nat} (im : IndexedMapping N WIDTH) :
    Result (DirectMapping N) := do
  let children ← DirectMapping.from_indexed.loop 257 im.child_ptr_indexes im.children
    DirectMapping.new.children
  return { children, num_children := im.num_children }

/-- The slot numbers of an ascending list of keys lead to distinct slots that
hold the list's children, and no other slot is in use. -/
structure Slots {N : Type} (WIDTH : Nat) (child_ptr_indexes : BitArray UInt8) (children : BitArray N)
    (items : List (UInt8 × N)) : Prop where
  ptrs : ∃ ptrs, Maps child_ptr_indexes ptrs
  valid : children.Valid
  width : children.storage.length = WIDTH
  narrow : WIDTH ≤ 64
  ascending : Ascending items
  lookup_eq : ∀ key : UInt8, items.lookup key =
    (child_ptr_indexes.get_known_present key.toNat).bind fun pos => children.get_known_present pos.toNat
  live : ∀ (key pos : UInt8), child_ptr_indexes.get_known_present key.toNat = some pos →
    ∃ node, children.get_known_present pos.toNat = some node
  distinct : ∀ key key' pos : UInt8, child_ptr_indexes.get_known_present key.toNat = some pos →
    child_ptr_indexes.get_known_present key'.toNat = some pos → key = key'
  used : ∀ (pos : Nat) (node : N), children.get_known_present pos = some node →
    ∃ key slot : UInt8, child_ptr_indexes.get_known_present key.toNat = some slot ∧ slot.toNat = pos

namespace Slots

variable {N : Type} {WIDTH : Nat} {idx : BitArray UInt8} {children : BitArray N}
  {items : List (UInt8 × N)}

theorem new (hnarrow : WIDTH ≤ 64) :
    Slots WIDTH (BitArray.new 256 4) (BitArray.new WIDTH 1 : BitArray N) [] where
  ptrs := ⟨[], .new⟩
  valid := BitArray.new_valid (by omega)
  width := List.length_replicate
  narrow := hnarrow
  ascending := ascending_nil
  lookup_eq key := by simp
  live key pos h := by simp at h
  distinct key key' pos h := by simp at h
  used pos node h := by simp at h

/-- A child is in the slot whose number its edge has. -/
theorem ptr_of_lookup (h : Slots WIDTH idx children items) {key : UInt8} {node : N}
    (hkey : items.lookup key = some node) : ∃ pos, idx.get_known_present key.toNat = some pos ∧
      children.get_known_present pos.toNat = some node := by
  rw [h.lookup_eq, Option.bind_eq_some_iff] at hkey
  exact hkey

/-- An edge without a child has no slot number. -/
theorem ptr_eq_none (h : Slots WIDTH idx children items) {key : UInt8}
    (hkey : items.lookup key = none) : idx.get_known_present key.toNat = none := by
  cases hpos : idx.get_known_present key.toNat with
  | none => rfl
  | some pos =>
    obtain ⟨node, hnode⟩ := h.live key pos hpos
    rw [h.lookup_eq, hpos, Option.bind_some, hnode] at hkey
    cases hkey

theorem pos_lt (h : Slots WIDTH idx children items) {pos : Nat} {node : N}
    (hpos : children.get_known_present pos = some node) : pos < WIDTH := by
  have := BitArray.lt_of_get_known_present hpos
  rw [h.width] at this
  exact this

/-- Putting a new key into a free slot. -/
theorem insert (h : Slots WIDTH idx children items) {key : UInt8} {pos : Nat} (node : N)
    (hkey : items.lookup key = none) (hpos : pos < WIDTH)
    (hfree : children.get_known_present pos = none) :
    ∃ idx' children', idx.set key.toNat (UInt8.ofNat pos) = .ok idx' ∧
      children.set pos node = .ok children' ∧
      (∀ p, children'.get_known_present p = if p = pos then some node else children.get_known_present p) ∧
      Slots WIDTH idx' children' (insertSorted key node items) := by
  have hnarrow := h.narrow
  obtain ⟨ptrs, hptrs⟩ := h.ptrs
  have hptr : ptrs.lookup key = none := by
    rw [hptrs.lookup_eq]
    exact h.ptr_eq_none hkey
  obtain ⟨idx', hidx', hptrs'⟩ := hptrs.set hptr (UInt8.ofNat pos)
  have hget : ∀ q : UInt8, idx'.get_known_present q.toNat =
      if q = key then some (UInt8.ofNat pos) else idx.get_known_present q.toNat := fun q => by
    rw [← hptrs'.lookup_eq, lookup_insertSorted, hptrs.lookup_eq]
  obtain ⟨children', hchildren', hvalid', hwidth', hslot⟩ := h.valid.set (by rw [h.width]; exact hpos) node
  have hofNat : (UInt8.ofNat pos).toNat = pos := UInt8.toNat_ofNat_of_lt' (by
    change pos < 256
    omega)
  -- slots of other keys are other slots
  have hother : ∀ (q slot : UInt8), idx.get_known_present q.toNat = some slot → slot.toNat ≠ pos := by
    intro q slot hq heq
    obtain ⟨n, hn⟩ := h.live q slot hq
    rw [heq, hfree] at hn
    cases hn
  refine ⟨idx', children', hidx', hchildren', hslot, {
    ptrs := ⟨_, hptrs'⟩
    valid := hvalid'
    width := hwidth'.trans h.width
    narrow := hnarrow
    ascending := h.ascending.insertSorted (lookup_eq_none_iff.1 hkey) node
    lookup_eq := ?_
    live := ?_
    distinct := ?_
    used := ?_ }⟩
  · intro q
    rw [lookup_insertSorted, hget]
    split
    · rw [Option.bind_some, hofNat, hslot, if_pos rfl]
    · rw [h.lookup_eq]
      cases hq : idx.get_known_present q.toNat with
      | none => rfl
      | some slot => rw [Option.bind_some, Option.bind_some, hslot, if_neg (hother q slot hq)]
  · intro q slot hq
    rw [hget] at hq
    rw [hslot]
    split at hq
    · cases hq
      exact ⟨node, by rw [hofNat, if_pos rfl]⟩
    · obtain ⟨n, hn⟩ := h.live q slot hq
      exact ⟨n, by rw [if_neg (hother q slot hq), hn]⟩
  · intro q q' slot hq hq'
    rw [hget] at hq hq'
    split at hq <;> split at hq'
    · rename_i heq heq'
      rw [heq, heq']
    · cases hq
      exact absurd hofNat (hother q' _ hq')
    · cases hq'
      exact absurd hofNat (hother q _ hq)
    · exact h.distinct q q' slot hq hq'
  · intro p n hp
    rw [hslot] at hp
    split at hp
    · rename_i heq
      exact ⟨key, UInt8.ofNat pos, by rw [hget, if_pos rfl], by rw [hofNat, heq]⟩
    · obtain ⟨q, slot, hq, hslotp⟩ := h.used p n hp
      refine ⟨q, slot, ?_, hslotp⟩
      have hne : q ≠ key := fun heq => by
        rw [heq, h.ptr_eq_none hkey] at hq
        cases hq
      rw [hget, if_neg hne]
      exact hq

/-- Where the slots are used from the bottom up, the next slot takes a key above
all others. -/
theorem insert_last (h : Slots WIDTH idx children items)
    (hdense : ∀ p, items.length ≤ p → children.get_known_present p = none) {key : UInt8} (node : N)
    (hlarge : ∀ p ∈ items, p.1 < key) (hroom : items.length < WIDTH) :
    ∃ idx' children', idx.set key.toNat (UInt8.ofNat items.length) = .ok idx' ∧
      children.set items.length node = .ok children' ∧
      Slots WIDTH idx' children' (items ++ [(key, node)]) ∧
      ∀ p, items.length + 1 ≤ p → children'.get_known_present p = none := by
  obtain ⟨idx', children', hidx', hchildren', hslot, hslots⟩ :=
    h.insert node (lookup_eq_none_of_forall_lt hlarge) hroom (hdense _ (le_refl _))
  rw [insertSorted_of_forall_lt hlarge] at hslots
  refine ⟨idx', children', hidx', hchildren', hslots, ?_⟩
  intro p hp
  rw [hslot, if_neg (by omega)]
  exact hdense p (by omega)

/-- Dropping a key frees its slot. -/
theorem remove (h : Slots WIDTH idx children items) {key pos : UInt8} {node : N}
    (hpos : idx.get_known_present key.toNat = some pos)
    (hnode : children.get_known_present pos.toNat = some node) :
    ∃ idx' children', idx.erase_known_present key.toNat = .ok (pos, idx') ∧
      children.erase_known_present pos.toNat = .ok (node, children') ∧
      Slots WIDTH idx' children' (eraseKey key items) := by
  obtain ⟨ptrs, hptrs⟩ := h.ptrs
  obtain ⟨idx', hidx', hptrs'⟩ := hptrs.erase_known_present (by rw [hptrs.lookup_eq]; exact hpos)
  have hget : ∀ q : UInt8, idx'.get_known_present q.toNat =
      if q = key then none else idx.get_known_present q.toNat := fun q => by
    rw [← hptrs'.lookup_eq, lookup_eraseKey, hptrs.lookup_eq]
  obtain ⟨children', hchildren', hvalid', hwidth', hslot⟩ := h.valid.erase_known_present hnode
  have hother : ∀ (q slot : UInt8), q ≠ key → idx.get_known_present q.toNat = some slot →
      slot.toNat ≠ pos.toNat := by
    intro q slot hne hq heq
    rw [UInt8.toNat_inj.1 heq] at hq
    exact hne (h.distinct q key pos hq hpos)
  refine ⟨idx', children', hidx', hchildren', {
    ptrs := ⟨_, hptrs'⟩
    valid := hvalid'
    width := hwidth'.trans h.width
    narrow := h.narrow
    ascending := h.ascending.eraseKey key
    lookup_eq := ?_
    live := ?_
    distinct := ?_
    used := ?_ }⟩
  · intro q
    rw [lookup_eraseKey, hget]
    split
    · rfl
    · rename_i hne
      rw [h.lookup_eq]
      cases hq : idx.get_known_present q.toNat with
      | none => rfl
      | some slot => rw [Option.bind_some, Option.bind_some, hslot, if_neg (hother q slot hne hq)]
  · intro q slot hq
    rw [hget] at hq
    split at hq
    · cases hq
    · rename_i hne
      obtain ⟨n, hn⟩ := h.live q slot hq
      exact ⟨n, by rw [hslot, if_neg (hother q slot hne hq), hn]⟩
  · intro q q' slot hq hq'
    rw [hget] at hq hq'
    split at hq
    · cases hq
    · split at hq'
      · cases hq'
      · exact h.distinct q q' slot hq hq'
  · intro p n hp
    rw [hslot] at hp
    split at hp
    · cases hp
    · rename_i hne
      obtain ⟨q, slot, hq, hslotp⟩ := h.used p n hp
      refine ⟨q, slot, ?_, hslotp⟩
      have hqne : q ≠ key := fun heq => by
        rw [heq, hpos] at hq
        cases hq
        exact hne hslotp.symm
      rw [hget, if_neg hqne]
      exact hq

/-- Fewer keys than slots leave a slot free. -/
theorem exists_free (h : Slots WIDTH idx children items) (hroom : items.length < WIDTH) :
    ∃ pos < WIDTH, children.get_known_present pos = none := by
  by_contra hfull
  push Not at hfull
  -- otherwise every slot has a key of its own
  have hkey : ∀ pos, pos < WIDTH → ∃ key slot : UInt8,
      idx.get_known_present key.toNat = some slot ∧ slot.toNat = pos := fun pos hpos => by
    obtain ⟨node, hnode⟩ := Option.ne_none_iff_exists'.1 (hfull pos hpos)
    exact h.used pos node hnode
  choose! key slot hslot hpos using hkey
  have hinj : ((List.range WIDTH).map key).Nodup := by
    refine List.Nodup.map_on ?_ List.nodup_range
    intro p hp q hq heq
    rw [List.mem_range] at hp hq
    have hsp := hslot p hp
    rw [heq, hslot q hq] at hsp
    rw [← hpos p hp, ← hpos q hq, Option.some.inj hsp]
  have hsub : (List.range WIDTH).map key ⊆ items.map Prod.fst := by
    intro k hk
    obtain ⟨p, hp, rfl⟩ := List.mem_map.1 hk
    rw [List.mem_range] at hp
    obtain ⟨node, hnode⟩ := h.live (key p) (slot p) (hslot p hp)
    refine mem_keys_of_lookup (v := node) ?_
    rw [h.lookup_eq, hslot p hp, Option.bind_some, hnode]
  have hle := (List.subperm_of_subset hinj hsub).length_le
  rw [List.length_map, List.length_map, List.length_range] at hle
  omega

/-- There are no more children than slots. -/
theorem length_le (h : Slots WIDTH idx children items) : items.length ≤ WIDTH := by
  have hslots : ∀ key ∈ items.map Prod.fst, ∃ slot : UInt8,
      idx.get_known_present key.toNat = some slot ∧ slot.toNat < WIDTH := by
    intro key hkey
    obtain ⟨⟨_, node⟩, hmem, rfl⟩ := List.mem_map.1 hkey
    obtain ⟨slot, hslot, hnode⟩ := h.ptr_of_lookup (h.ascending.lookup_eq_some_iff.2 hmem)
    exact ⟨slot, hslot, h.pos_lt hnode⟩
  choose! slot hslot hlt using hslots
  have hinj : ((items.map Prod.fst).map fun key => (slot key).toNat).Nodup := by
    refine List.Nodup.map_on ?_ h.ascending.nodup_keys
    intro key hkey key' hkey' heq
    have hsame := hslot key hkey
    rw [UInt8.toNat_inj.1 heq] at hsame
    exact h.distinct key key' _ hsame (hslot key' hkey')
  have hsub : ((items.map Prod.fst).map fun key => (slot key).toNat) ⊆ List.range WIDTH := by
    intro pos hpos
    obtain ⟨key, hkey, rfl⟩ := List.mem_map.1 hpos
    exact List.mem_range.2 (hlt key hkey)
  have hle := (List.subperm_of_subset hinj hsub).length_le
  rwa [List.length_map, List.length_map, List.length_range] at hle

/-- The head of the list is the first key in use, and taking it out leaves the
tail. -/
theorem take_first {key : UInt8} {node : N} (h : Slots WIDTH idx children ((key, node) :: items)) :
    ∃ pos idx' children', idx.first_used = some key.toNat ∧
      idx.erase_known_present key.toNat = .ok (pos, idx') ∧
      children.erase_known_present pos.toNat = .ok (node, children') ∧
      Slots WIDTH idx' children' items := by
  obtain ⟨ptrs, hptrs⟩ := h.ptrs
  have hkey : ((key, node) :: items).lookup key = some node := List.lookup_cons_self
  obtain ⟨pos, hpos, hnode⟩ := h.ptr_of_lookup hkey
  obtain ⟨idx', children', hidx', hchildren', hslots⟩ := h.remove hpos hnode
  have herase : eraseKey key ((key, node) :: items) = items :=
    eraseKey_append_cons [] h.ascending
  rw [herase] at hslots
  refine ⟨pos, idx', children', ?_, hidx', hchildren', hslots⟩
  -- the first pointer belongs to a key of the list, and no key is below the head
  have hin : ∀ q slot, ptrs.lookup q = some slot → key ≤ q := by
    intro q slot hq
    rw [hptrs.lookup_eq] at hq
    obtain ⟨n, hn⟩ := h.live q slot hq
    have hmem := h.ascending.lookup_eq_some_iff.1
      (show ((key, node) :: items).lookup q = some n by rw [h.lookup_eq, hq, Option.bind_some, hn])
    cases List.mem_cons.1 hmem with
    | inl heq => rw [(Prod.mk.inj heq).1]
    | inr hmem => exact ((ascending_cons.1 h.ascending).1 _ hmem).le
  have hkey : ptrs.lookup key = some pos := by
    rw [hptrs.lookup_eq]
    exact hpos
  cases ptrs with
  | nil => cases hkey
  | cons p ptrs =>
    obtain ⟨e, slot⟩ := p
    have hle := hin e slot (by simp)
    have heq : e = key := by
      refine le_antisymm ?_ hle
      have hmem := hptrs.ascending.lookup_eq_some_iff.1 hkey
      cases List.mem_cons.1 hmem with
      | inl heq => rw [(Prod.mk.inj heq).1]
      | inr hmem => exact ((ascending_cons.1 hptrs.ascending).1 _ hmem).le
    rw [hptrs.first_used_cons, heq]

theorem first_used_nil (h : Slots WIDTH idx children []) : idx.first_used = none := by
  obtain ⟨ptrs, hptrs⟩ := h.ptrs
  cases ptrs with
  | nil => exact hptrs.first_used_nil
  | cons p ptrs =>
    have hp := hptrs.lookup_eq p.1
    rw [h.ptr_eq_none rfl] at hp
    simp at hp

end Slots

namespace IndexedMapping

variable {N : Type} {WIDTH : Nat}

/-- The table holds exactly the pairs of an ascending list. -/
structure Repr (m : IndexedMapping N WIDTH) (items : List (UInt8 × N)) : Prop where
  slots : Slots WIDTH m.child_ptr_indexes m.children items
  num_children_eq : m.num_children = items.length

namespace Repr

variable {m : IndexedMapping N WIDTH} {items : List (UInt8 × N)}

theorem new (hnarrow : WIDTH ≤ 64) : (IndexedMapping.new : IndexedMapping N WIDTH).Repr [] :=
  ⟨.new hnarrow, rfl⟩

/-- A search is a lookup in the list that the table stands for. -/
theorem seek_child (h : m.Repr items) (key : UInt8) : m.seek_child key = items.lookup key := by
  obtain ⟨ptrs, hptrs⟩ := h.slots.ptrs
  unfold IndexedMapping.seek_child
  rw [h.slots.lookup_eq, hptrs.get_eq, hptrs.lookup_eq]
  rfl

/-- The keys with a place are those with a child. -/
theorem ptr_iff {ptrs : List (UInt8 × UInt8)} (h : m.Repr items) (hptrs : Maps m.child_ptr_indexes ptrs)
    (key : UInt8) : (∃ pos, ptrs.lookup key = some pos) ↔ ∃ node, items.lookup key = some node := by
  rw [hptrs.lookup_eq]
  constructor
  · rintro ⟨pos, hpos⟩
    obtain ⟨node, hnode⟩ := h.slots.live key pos hpos
    exact ⟨node, by rw [h.slots.lookup_eq, hpos, Option.bind_some, hnode]⟩
  · rintro ⟨node, hnode⟩
    obtain ⟨pos, hpos, _⟩ := h.slots.ptr_of_lookup hnode
    exact ⟨pos, hpos⟩

/-- The iterator hands out that list. -/
theorem iter_eq (h : m.Repr items) : m.iter = items := by
  obtain ⟨ptrs, hptrs⟩ := h.slots.ptrs
  refine hptrs.iter_keys_eq h.slots.ascending (h.ptr_iff hptrs) fun key node hnode => ?_
  · obtain ⟨pos, hpos, hget⟩ := h.slots.ptr_of_lookup hnode
    rw [hptrs.get_eq, hptrs.lookup_eq, hpos]
    change m.children.get pos.toNat = some node
    rw [h.slots.valid.get_eq, hget]

/-- A free edge gets a slot while there are any left. -/
theorem add_child (h : m.Repr items) {key : UInt8} (node : N) (hkey : items.lookup key = none)
    (hroom : items.length < WIDTH) :
    ∃ m', m.add_child key node = .ok m' ∧ m'.Repr (insertSorted key node items) := by
  obtain ⟨pos, hpos, hfree⟩ := h.slots.exists_free hroom
  obtain ⟨free, hfirst, hle, hnone⟩ := h.slots.valid.first_empty (by rw [h.slots.width]; exact hpos) hfree
  obtain ⟨idx', children', hidx', hchildren', _, hslots⟩ :=
    h.slots.insert node hkey (Nat.lt_of_le_of_lt hle hpos) hnone
  refine ⟨⟨idx', children', m.num_children + 1⟩, ?_, hslots, ?_⟩
  · unfold IndexedMapping.add_child
    rw [hfirst, unwrap_some, ok_bind, hidx', ok_bind, hchildren']
    rfl
  · rw [length_insertSorted, h.num_children_eq]

/-- A write changes the child and leaves its slot. -/
theorem write_child (h : m.Repr items) (key : UInt8) (node : N) :
    (m.write_child key node).Repr (setKey key node items) := by
  have hlen : (setKey key node items).length = items.length := by simp [setKey]
  obtain ⟨ptrs, hptrs⟩ := h.slots.ptrs
  have hptr : m.child_ptr_indexes.get key.toNat = m.child_ptr_indexes.get_known_present key.toNat := by
    rw [hptrs.get_eq, hptrs.lookup_eq]
  unfold IndexedMapping.write_child
  rw [hptr]
  cases hkey : items.lookup key with
  | none =>
    rw [h.slots.ptr_eq_none hkey, setKey_eq_self hkey]
    exact h
  | some old =>
    obtain ⟨pos, hpos, hold⟩ := h.slots.ptr_of_lookup hkey
    rw [hpos]
    dsimp only
    have hlt := BitArray.lt_of_get_known_present hold
    have hslot := BitArray.get_known_present_set m.children m.children.bitset (some node) hlt
    refine ⟨{
      ptrs := ⟨ptrs, hptrs⟩
      valid := ⟨?_, ?_⟩
      width := by simpa using h.slots.width
      narrow := h.slots.narrow
      ascending := h.slots.ascending.setKey key node
      lookup_eq := ?_
      live := ?_
      distinct := h.slots.distinct
      used := ?_ }, h.num_children_eq.trans hlen.symm⟩
    · simpa using h.slots.valid.covered
    · intro p
      rw [hslot]
      split
      · rename_i heq
        rw [heq]
        exact h.slots.valid.check_iff.2 ⟨old, hold⟩
      · exact h.slots.valid.marked p
    · intro q
      rw [lookup_setKey, hkey]
      split
      · rename_i heq
        rw [heq, hpos, Option.bind_some, hslot, if_pos rfl]
        rfl
      · rename_i hne
        rw [h.slots.lookup_eq]
        cases hq : m.child_ptr_indexes.get_known_present q.toNat with
        | none => rfl
        | some slot =>
          have hother : slot.toNat ≠ pos.toNat := fun heq => by
            rw [UInt8.toNat_inj.1 heq] at hq
            exact hne (h.slots.distinct q key pos hq hpos)
          rw [Option.bind_some, Option.bind_some, hslot, if_neg hother]
    · intro q slot hq
      obtain ⟨n, hn⟩ := h.slots.live q slot hq
      rw [hslot]
      split
      · exact ⟨node, rfl⟩
      · exact ⟨n, hn⟩
    · intro p n hp
      rw [hslot] at hp
      split at hp
      · rename_i heq
        exact ⟨key, pos, hpos, heq.symm⟩
      · exact h.slots.used p n hp

/-- Deleting an edge that is not there does nothing. -/
theorem delete_child_none (h : m.Repr items) {key : UInt8} (hkey : items.lookup key = none) :
    m.delete_child key = .ok (none, m) := by
  obtain ⟨ptrs, hptrs⟩ := h.slots.ptrs
  unfold IndexedMapping.delete_child
  rw [hptrs.valid.erase_none (h.slots.ptr_eq_none hkey)]
  rfl

/-- Deleting an edge hands its child back and frees its slot. -/
theorem delete_child (h : m.Repr items) {key : UInt8} {node : N}
    (hkey : items.lookup key = some node) :
    ∃ m', m.delete_child key = .ok (some node, m') ∧ m'.Repr (eraseKey key items) := by
  obtain ⟨ptrs, hptrs⟩ := h.slots.ptrs
  obtain ⟨pos, hpos, hnode⟩ := h.slots.ptr_of_lookup hkey
  obtain ⟨idx', children', hidx', hchildren', hslots⟩ := h.slots.remove hpos hnode
  have hlen := h.slots.ascending.length_eraseKey hkey
  have hnum := h.num_children_eq
  refine ⟨⟨idx', children', m.num_children - 1⟩, ?_, hslots, by dsimp only; omega⟩
  unfold IndexedMapping.delete_child
  rw [hptrs.valid.erase_some hidx' hpos, ok_bind]
  dsimp only
  rw [hchildren', ok_bind, usize_sub_eq_ok (by omega)]
  rfl

end Repr

/-- The table's slots are used from the bottom up, as bulk loading needs them. -/
def Dense (m : IndexedMapping N WIDTH) : Prop :=
  ∀ p, m.num_children ≤ p → m.children.get_known_present p = none

theorem Dense.new : (IndexedMapping.new : IndexedMapping N WIDTH).Dense := fun p _ =>
  BitArray.get_known_present_new WIDTH 1 p

/-- Where the slots are filled from the front, the next one is free. -/
theorem Repr.add_child_sorted {m : IndexedMapping N WIDTH} {items : List (UInt8 × N)}
    (h : m.Repr items) (hdense : m.Dense) {key : UInt8} (node : N)
    (hlarge : ∀ p ∈ items, p.1 < key) (hroom : items.length < WIDTH) :
    ∃ m', m.add_child_sorted key node = .ok m' ∧ m'.Repr (items ++ [(key, node)]) ∧ m'.Dense := by
  have hnum := h.num_children_eq
  unfold Dense at hdense
  rw [hnum] at hdense
  obtain ⟨idx', children', hidx', hchildren', hslots, hdense'⟩ :=
    h.slots.insert_last hdense node hlarge hroom
  refine ⟨⟨idx', children', items.length + 1⟩, ?_, ⟨hslots, by simp⟩, hdense'⟩
  unfold IndexedMapping.add_child_sorted
  dsimp only
  rw [hnum, hidx', ok_bind, hchildren']
  rfl

/-- The first free slot of a table that is used from the bottom up is the next one. -/
theorem Repr.add_child_dense {m m' : IndexedMapping N WIDTH} {items : List (UInt8 × N)} (h : m.Repr items)
    (hdense : m.Dense) {key : UInt8} {node : N} (hkey : items.lookup key = none) (hroom : items.length < WIDTH)
    (hadd : m.add_child key node = .ok m') : m'.Dense := by
  have hnum := h.num_children_eq
  have hnext : m.children.get_known_present items.length = none := hdense _ (Nat.le_of_eq hnum)
  obtain ⟨free, hfirst, hle, hnone⟩ := h.slots.valid.first_empty (by rw [h.slots.width]; exact hroom) hnext
  obtain ⟨idx', children', hidx', hchildren', hslot, _⟩ :=
    h.slots.insert node hkey (Nat.lt_of_le_of_lt hle hroom) hnone
  unfold IndexedMapping.add_child at hadd
  rw [hfirst, unwrap_some, ok_bind, hidx', ok_bind, hchildren', ok_bind] at hadd
  cases hadd
  intro p hp
  dsimp only at hp ⊢
  rw [hslot, if_neg (by omega)]
  exact hdense p (by omega)

end IndexedMapping

section Conversions

variable {N : Type}

/-- The loop of `from_direct` moves the first child until none is left. -/
theorem from_direct_loop_spec {WIDTH : Nat} {rest : List (UInt8 × N)} {dm_children : BitArray N}
    (hdm : Maps dm_children rest) {fuel : Nat} (hfuel : rest.length < fuel)
    {indexed : IndexedMapping N WIDTH} {items : List (UInt8 × N)}
    (hslots : Slots WIDTH indexed.child_ptr_indexes indexed.children items)
    (hdense : ∀ p, items.length ≤ p → indexed.children.get_known_present p = none)
    (horder : ∀ p ∈ items, ∀ q ∈ rest, p.1 < q.1) (hroom : (items ++ rest).length ≤ WIDTH) :
    ∃ m, IndexedMapping.from_direct.loop fuel dm_children indexed items.length = .ok m ∧
      Slots WIDTH m.child_ptr_indexes m.children (items ++ rest) ∧
      ∀ p, (items ++ rest).length ≤ p → m.children.get_known_present p = none := by
  induction rest generalizing dm_children fuel indexed items with
  | nil =>
    obtain ⟨fuel, rfl⟩ : ∃ k, fuel = k + 1 := ⟨fuel - 1, by simp at hfuel; omega⟩
    refine ⟨indexed, ?_, by simpa using hslots, by simpa using hdense⟩
    rw [IndexedMapping.from_direct.loop, hdm.first_used_nil]
    rfl
  | cons p rest ih =>
    obtain ⟨key, child⟩ := p
    obtain ⟨fuel, rfl⟩ : ∃ k, fuel = k + 1 := ⟨fuel - 1, by simp at hfuel; omega⟩
    have hkey : ((key, child) :: rest).lookup key = some child := List.lookup_cons_self
    obtain ⟨dm', hdm', hmaps'⟩ := hdm.erase_known_present hkey
    rw [hdm.eraseKey_cons] at hmaps'
    obtain ⟨idx', children', hidx', hchildren', hslots', hdense'⟩ := hslots.insert_last hdense child
      (fun p hp => horder p hp (key, child) (by simp)) (by simp at hroom; omega)
    have hrest : ∀ p ∈ items ++ [(key, child)], ∀ q ∈ rest, p.1 < q.1 := by
      intro p hp q hq
      cases List.mem_append.1 hp with
      | inl hp => exact horder p hp q (by simp [hq])
      | inr hp =>
        rw [List.mem_singleton.1 hp]
        exact (ascending_cons.1 hdm.ascending).1 q hq
    obtain ⟨m, hm, hfinal, hlast⟩ := @ih dm' hmaps' fuel (by simpa using hfuel)
      { indexed with child_ptr_indexes := idx', children := children' } (items ++ [(key, child)])
      hslots' (by simpa using hdense') hrest (by simpa using hroom)
    refine ⟨m, ?_, by simpa using hfinal, by simpa using hlast⟩
    rw [IndexedMapping.from_direct.loop, hdm.first_used_cons]
    dsimp only
    rw [hdm', ok_bind]
    dsimp only
    rw [hidx', ok_bind, hchildren', ok_bind]
    simpa using hm

/-- No child is lost on the way from the widest table. -/
theorem IndexedMapping.from_direct_spec (WIDTH : Nat) {dm : DirectMapping N}
    {items : List (UInt8 × N)} (h : dm.Repr items) (hnarrow : WIDTH ≤ 64) (hroom : items.length ≤ WIDTH) :
    ∃ m : IndexedMapping N WIDTH, IndexedMapping.from_direct dm = .ok m ∧ m.Repr items ∧ m.Dense := by
  have hnew : Slots WIDTH (IndexedMapping.new : IndexedMapping N WIDTH).child_ptr_indexes
      (IndexedMapping.new : IndexedMapping N WIDTH).children [] := Slots.new hnarrow
  have hfuel : items.length < 257 := by omega
  obtain ⟨m, hm, hslots, hdense⟩ := from_direct_loop_spec h.maps hfuel hnew
    (fun p _ => BitArray.get_known_present_new WIDTH 1 p) (by simp) (by simpa using hroom)
  refine ⟨{ m with num_children := dm.num_children }, ?_, ⟨hslots, h.num_children_eq⟩, fun p hp => ?_⟩
  · unfold IndexedMapping.from_direct
    rw [show ([] : List (UInt8 × N)).length = 0 from rfl] at hm
    rw [hm]
    rfl
  · rw [h.num_children_eq] at hp
    exact hdense p hp

/-- Nor on the way from a narrow one. -/
theorem IndexedMapping.from_sorted_keyed_spec (WIDTH : Nat) {KM_WIDTH : Nat} {km : SortedKeyedMapping N KM_WIDTH}
    {items : List (UInt8 × N)} (h : km.Repr items) (hnarrow : WIDTH ≤ 64) (hroom : items.length ≤ WIDTH) :
    ∃ m : IndexedMapping N WIDTH, IndexedMapping.from_sorted_keyed km = .ok m ∧ m.Repr items ∧ m.Dense := by
  have hloop : ∀ k ≤ items.length, ∃ m : IndexedMapping N WIDTH,
      (List.range k).foldlM (IndexedMapping.from_sorted_keyed.steal km) IndexedMapping.new = .ok m ∧
        Slots WIDTH m.child_ptr_indexes m.children (items.take k) ∧
        ∀ p, k ≤ p → m.children.get_known_present p = none := by
    intro k
    induction k with
    | zero =>
      intro _
      exact ⟨IndexedMapping.new, rfl, Slots.new hnarrow, fun p _ => BitArray.get_known_present_new WIDTH 1 p⟩
    | succ k ih =>
      intro hk
      have hlt : k < items.length := by omega
      have hget := List.getElem?_eq_getElem hlt
      have hlen : (items.take k).length = k := by simp; omega
      obtain ⟨m, hm, hslots, hdense⟩ := ih (by omega)
      have hlarge : ∀ p ∈ items.take k, p.1 < items[k].1 := by
        have hpair := h.ascending
        rw [← List.take_append_drop k items, List.drop_eq_getElem_cons hlt] at hpair
        exact fun p hp => (List.pairwise_append.1 hpair).2.2 p hp items[k] List.mem_cons_self
      obtain ⟨idx', children', hidx', hchildren', hslots', hdense'⟩ := hslots.insert_last
        (by rw [hlen]; exact hdense) items[k].2 hlarge (by omega)
      rw [hlen] at hidx' hchildren' hdense'
      refine ⟨{ m with child_ptr_indexes := idx', children := children' }, ?_, ?_, hdense'⟩
      · rw [List.range_succ, List.foldlM_append, hm, ok_bind]
        simp only [List.foldlM_cons, List.foldlM_nil, IndexedMapping.from_sorted_keyed.steal]
        rw [index_eq_ok (h.getElem?_children hget), ok_bind]
        dsimp only
        rw [index_eq_ok (h.getElem?_keys hget), ok_bind, hidx', ok_bind, hchildren']
        rfl
      · rw [List.take_succ_eq_append_getElem hlt]
        exact hslots'
  obtain ⟨m, hm, hslots, hdense⟩ := hloop items.length (le_refl _)
  rw [List.take_length] at hslots
  refine ⟨{ m with num_children := km.num_children }, ?_, ⟨hslots, h.num_children_eq⟩, fun p hp => ?_⟩
  · unfold IndexedMapping.from_sorted_keyed
    rw [h.num_children_eq, hm]
    rfl
  · rw [h.num_children_eq] at hp
    exact hdense p hp

/-- The loop goes through the edges from the front: what it packed comes before what is left. -/
theorem SortedKeyedMapping.from_indexed_loop_spec {WIDTH IDX_WIDTH : Nat} {rest : List (UInt8 × N)}
    {idx : BitArray UInt8} {children : BitArray N} (hslots : Slots IDX_WIDTH idx children rest)
    {m : SortedKeyedMapping N WIDTH} {items : List (UInt8 × N)} (tail : List UInt8)
    (hm : m.keys = items.map Prod.fst ++ tail ∧
      m.children = items.map (fun p => some p.2) ++ List.replicate tail.length none)
    (hroom : rest.length ≤ tail.length) :
    ∃ m', SortedKeyedMapping.from_indexed.loop rest.length idx children m items.length = .ok m' ∧
      m'.keys = (items ++ rest).map Prod.fst ++ tail.drop rest.length ∧
      m'.children = (items ++ rest).map (fun p => some p.2) ++
        List.replicate (tail.length - rest.length) none := by
  induction rest generalizing idx children m items tail with
  | nil =>
    refine ⟨m, rfl, ?_, ?_⟩
    · simpa using hm.1
    · simpa using hm.2
  | cons p rest ih =>
    obtain ⟨key, child⟩ := p
    obtain ⟨pos, idx', children', hfirst, hidx', hchildren', hslots'⟩ := hslots.take_first
    obtain ⟨y, tail, rfl⟩ := List.exists_cons_of_length_eq_add_one
      (show tail.length = (tail.length - 1) + 1 by simp at hroom; omega)
    have hkeys := index_set_append_cons (items.map Prod.fst) y key tail
    have hset := index_set_append_cons (items.map fun p => some p.2) none (some child)
      (List.replicate tail.length none)
    rw [List.length_map] at hkeys hset
    obtain ⟨m', hm', hkeys', hchildren''⟩ := @ih idx' children' hslots'
      { m with
        keys := items.map Prod.fst ++ key :: tail
        children := items.map (fun p => some p.2) ++ some child :: List.replicate tail.length none }
      (items ++ [(key, child)]) tail ⟨by simp, by simp⟩ (by simpa using hroom)
    refine ⟨m', ?_, by simpa using hkeys', by simpa using hchildren''⟩
    rw [List.length_cons, SortedKeyedMapping.from_indexed.loop, hfirst, expect_some, ok_bind, hidx',
      ok_bind]
    dsimp only
    rw [UInt8.ofNat_toNat, hm.1, hkeys, ok_bind, hchildren', ok_bind]
    dsimp only
    rw [hm.2, List.length_cons, List.replicate_succ, hset, ok_bind]
    simpa using hm'

/-- No child is lost on the way to a narrow table that has room. -/
theorem SortedKeyedMapping.from_indexed_spec (WIDTH : Nat) {IDX_WIDTH : Nat} {im : IndexedMapping N IDX_WIDTH}
    {items : List (UInt8 × N)} (h : im.Repr items) (hroom : items.length ≤ WIDTH) :
    ∃ m : SortedKeyedMapping N WIDTH, SortedKeyedMapping.from_indexed im = .ok m ∧ m.Repr items := by
  obtain ⟨m, hm, hkeys, hchildren⟩ := @SortedKeyedMapping.from_indexed_loop_spec N WIDTH _ _ _ _
    h.slots SortedKeyedMapping.new [] (List.replicate WIDTH 255)
    ⟨rfl, by simp [SortedKeyedMapping.new]⟩ (by simpa using hroom)
  refine ⟨{ m with num_children := im.num_children }, ?_, ?_⟩
  · unfold SortedKeyedMapping.from_indexed
    rw [h.num_children_eq]
    rw [show ([] : List (UInt8 × N)).length = 0 from rfl] at hm
    rw [hm]
    rfl
  · exact {
      ascending := h.slots.ascending
      num_children_eq := h.num_children_eq
      keys_length := by rw [hkeys]; simp; omega
      children_length := by rw [hchildren]; simp; omega
      keys_eq := ⟨_, by simpa using hkeys⟩
      children_eq := ⟨_, by simpa using hchildren⟩ }

/-- The loop moves one child in each round. -/
theorem DirectMapping.from_indexed_loop_spec {WIDTH : Nat} {rest : List (UInt8 × N)}
    {idx : BitArray UInt8} {im_children : BitArray N} (hslots : Slots WIDTH idx im_children rest)
    {fuel : Nat} (hfuel : rest.length < fuel) {children : BitArray N} {items : List (UInt8 × N)}
    (hmaps : Maps children items) (horder : ∀ p ∈ items, ∀ q ∈ rest, p.1 < q.1) :
    ∃ a, DirectMapping.from_indexed.loop fuel idx im_children children = .ok a ∧
      Maps a (items ++ rest) := by
  induction rest generalizing idx im_children fuel children items with
  | nil =>
    obtain ⟨fuel, rfl⟩ : ∃ k, fuel = k + 1 := ⟨fuel - 1, by simp at hfuel; omega⟩
    refine ⟨children, ?_, by simpa using hmaps⟩
    rw [DirectMapping.from_indexed.loop, hslots.first_used_nil]
    rfl
  | cons p rest ih =>
    obtain ⟨key, child⟩ := p
    obtain ⟨fuel, rfl⟩ : ∃ k, fuel = k + 1 := ⟨fuel - 1, by simp at hfuel; omega⟩
    have hfirst := (ascending_cons.1 hslots.ascending).1
    obtain ⟨pos, idx', children', hused, hidx', hchildren', hslots'⟩ := hslots.take_first
    have hlarge : ∀ p ∈ items, p.1 < key := fun p hp => horder p hp (key, child) (by simp)
    obtain ⟨a, ha, hmaps'⟩ := hmaps.set_last hlarge child
    have hrest : ∀ p ∈ items ++ [(key, child)], ∀ q ∈ rest, p.1 < q.1 := by
      intro p hp q hq
      cases List.mem_append.1 hp with
      | inl hp => exact horder p hp q (by simp [hq])
      | inr hp =>
        rw [List.mem_singleton.1 hp]
        exact hfirst q hq
    have hfuel' : rest.length < fuel := by simpa using hfuel
    obtain ⟨final, hfinal, hall⟩ := ih hslots' hfuel' hmaps' hrest
    refine ⟨final, ?_, by simpa using hall⟩
    rw [DirectMapping.from_indexed.loop, hused]
    dsimp only
    rw [hidx', ok_bind]
    dsimp only
    rw [hchildren', ok_bind]
    dsimp only
    rw [ha, ok_bind]
    exact hfinal

/-- No child is lost on the way to the widest table. -/
theorem DirectMapping.from_indexed_spec {WIDTH : Nat} {im : IndexedMapping N WIDTH}
    {items : List (UInt8 × N)} (h : im.Repr items) :
    ∃ m : DirectMapping N, DirectMapping.from_indexed im = .ok m ∧ m.Repr items := by
  have hlen := length_le_of_ascending h.slots.ascending
  have hfuel : items.length < 257 := by omega
  have hnew : Maps (BitArray.new 256 4 : BitArray N) [] := Maps.new
  obtain ⟨a, ha, hmaps⟩ := DirectMapping.from_indexed_loop_spec h.slots hfuel hnew (by simp)
  refine ⟨⟨a, im.num_children⟩, ?_, hmaps, h.num_children_eq⟩
  unfold DirectMapping.from_indexed
  have hnew : (DirectMapping.new : DirectMapping N).children = BitArray.new 256 4 := rfl
  rw [hnew, ha]
  rfl

end Conversions

end rart.mapping
