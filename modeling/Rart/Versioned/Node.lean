import Rart.Lib.RcHeap.Valid
import Rart.Mapping.Copies
import Rart.Node

open SortedAssoc RcHeap
open rart.mapping rart.node rart.utils

namespace rart.versioned_tree

/-- `VersionedNode<P, V>`. The version is a `u64`, which counts the mutations and snapshots of one
tree and its ancestors, and is taken to stay below `2 ^ 64`. An `Arc` is the position of a cell on
a heap of reference-counted cells. -/
structure VersionedNode (V : Type) where
  pfx : Bytes
  value : Option V
  content : Content Nat
  version : Nat

variable {V : Type}

/-- The `Arc`s in a node are those of its children. -/
instance : Holds (VersionedNode V) where
  handles node := node.content.iter.map Prod.snd

/-- The references of a node are its children. -/
theorem handles_eq (node : VersionedNode V) : handles node = node.content.iter.map Prod.snd := rfl

/-- A listed child is a reference. -/
theorem mem_handles {node : VersionedNode V} {p : UInt8 × Nat} (hp : p ∈ node.content.iter) :
    p.2 ∈ handles node := List.mem_map_of_mem hp

/-- An `Arc` goes out of scope. -/
def drop_arc (h : Heap (VersionedNode V)) (node : Nat) : Result (Heap (VersionedNode V)) :=
  arc (h.dropAll [node])

/-- A node that was moved out of its cell goes out of scope. -/
def drop_node (h : Heap (VersionedNode V)) (node : VersionedNode V) : Result (Heap (VersionedNode V)) :=
  arc (h.dropAll (handles node))

namespace VersionedNode

/-- A node without a table. -/
def new_leaf (pfx : Bytes) (value : V) (version : Nat) : VersionedNode V := ⟨pfx, some value, .Empty, version⟩

/-- A node with an empty `Node4`. -/
def new_inner (pfx : Bytes) (version : Nat) : VersionedNode V := ⟨pfx, none, .Node4 .new, version⟩

/-- A node without a table. -/
def is_leaf (self : VersionedNode V) : Bool := self.content.is_empty

/-- A node with a table. -/
def is_inner (self : VersionedNode V) : Bool := !self.is_leaf

/-- The number of children in the table. -/
def num_children (self : VersionedNode V) : Nat := self.content.num_children

/-- Whether one more child needs a wider table. A `Node256` never does. -/
def is_full (self : VersionedNode V) : Bool :=
  match self.content with
  | .Node4 km => km.num_children ≥ 4
  | .Node16 km => km.num_children ≥ 16
  | .Node48 km => km.num_children ≥ 48
  | .Node256 _ => false
  | .Empty => false

section Layouts

variable [Features]

/-- The reference behind an edge. -/
def seek_child (self : VersionedNode V) (key : UInt8) : Option Nat := self.content.seek_child key

/-- The content of a grown node. -/
def grow_content (self : Content Nat) : Result (Content Nat) :=
  match self with
  | .Node4 km => .Node16 <$> add_children SortedKeyedMapping.add_child .new km.iter
  | .Node16 km => .Node48 <$> add_children IndexedMapping.add_child .new km.iter
  | .Node48 km => .Node256 <$> add_children DirectMapping.add_child .new km.iter
  | .Node256 _ => .error (.panic "Node256 cannot grow further")
  | .Empty => .error (.panic "Leaf nodes cannot grow")

/-- The children are cloned into the next wider table. -/
def grow (self : VersionedNode V) (h : Heap (VersionedNode V)) (new_version : Nat) :
    Result (VersionedNode V × Heap (VersionedNode V)) := do
  let content ← grow_content self.content
  -- `Arc::clone(child)` for every child; of what `grow` copies, the value alone is counted
  let h ← arc (h.cloneAll (handles self))
  return (⟨self.pfx, self.value, content, new_version⟩, h.copies self.value.toList.length)

/-- The content of a copied node. -/
def clone_content (self : Content Nat) : Result (Content Nat) :=
  match self with
  | .Empty => .ok .Empty
  | .Node4 km => .Node4 <$> add_children SortedKeyedMapping.add_child .new km.iter
  | .Node16 km => .Node16 <$> add_children SortedKeyedMapping.add_child .new km.iter
  | .Node48 km => .Node48 <$> km.clone_mapping
  | .Node256 km => .Node256 <$> km.clone_mapping

/-- One copy is counted, of the node with its value. -/
def cow_clone_inner (self : VersionedNode V) (h : Heap (VersionedNode V)) (new_version : Nat) :
    Result (VersionedNode V × Heap (VersionedNode V)) := do
  let content ← clone_content self.content
  let h ← arc (h.cloneAll (handles self))
  return (⟨self.pfx, self.value, content, new_version⟩, h.copies 1)

/-- `if self.is_full() { *self = self.grow(self.version); }` -/
def grow_if_full (self : VersionedNode V) (h : Heap (VersionedNode V)) :
    Result (VersionedNode V × Heap (VersionedNode V)) := do
  if self.is_full then
    let (grown, h) ← self.grow h self.version
    return (grown, ← drop_node h self)
  else return (self, h)

/-- A full table grows before the child is added. -/
def add_child (self : VersionedNode V) (h : Heap (VersionedNode V)) (key : UInt8) (child : Nat) :
    Result (VersionedNode V × Heap (VersionedNode V)) := do
  let self := if self.content.is_empty then { self with content := .Node4 .new } else self
  let (self, h) ← self.grow_if_full h
  return ({ self with content := ← self.content.add_child key child }, h)

/-- The child is taken out, and the table keeps its layout. -/
def delete_child (self : VersionedNode V) (key : UInt8) : Result (Option Nat × VersionedNode V) :=
  match self.content with
  | .Node4 km => do
    let (child, km) ← km.delete_child key
    return (child, { self with content := .Node4 km })
  | .Node16 km => do
    let (child, km) ← km.delete_child key
    return (child, { self with content := .Node16 km })
  | .Node48 km => do
    let (child, km) ← km.delete_child key
    return (child, { self with content := .Node48 km })
  | .Node256 km => do
    let (child, km) ← km.delete_child key
    return (child, { self with content := .Node256 km })
  | .Empty => return (none, self)

end Layouts

section Specs

variable {self : VersionedNode V} {items : List (UInt8 × Nat)}

/-- A table that is not full has room. -/
theorem is_full_eq_false (h : self.content.Repr items) (hroom : items.length < 256)
    (hfull : self.is_full = false) (hne : self.content.is_empty = false) :
    items.length < self.content.capacity := by
  have hnum := h.num_children_eq
  obtain ⟨pfx, value, content, version⟩ := self
  unfold is_full at hfull
  cases content with
  | Empty => cases hne
  | Node4 km => simpa [Content.capacity, ← hnum, Content.num_children] using hfull
  | Node16 km => simpa [Content.capacity, ← hnum, Content.num_children] using hfull
  | Node48 km => simpa [Content.capacity, ← hnum, Content.num_children] using hfull
  | Node256 km => exact hroom

/-- A node with room is not full. -/
theorem is_full_of_lt (h : self.content.Repr items) (hlt : items.length < self.content.capacity) :
    self.is_full = false := by
  have hnum := h.num_children_eq
  obtain ⟨pfx, value, content, version⟩ := self
  unfold is_full
  cases content with
  | Empty => rfl
  | Node4 km => simpa [Content.capacity, ← hnum, Content.num_children] using hlt
  | Node16 km => simpa [Content.capacity, ← hnum, Content.num_children] using hlt
  | Node48 km => simpa [Content.capacity, ← hnum, Content.num_children] using hlt
  | Node256 km => rfl

variable [Features]

/-- A full table is copied into one with room. -/
theorem grow_content_spec (h : self.content.Repr items) (hfull : self.is_full = true)
    (hroom : items.length < 256) :
    ∃ content, grow_content self.content = .ok content ∧ content.Repr items ∧
      items.length < content.capacity ∧ content.is_empty = false := by
  have hasc := h.ascending
  have hiter := h.iter_eq
  obtain ⟨pfx, value, content, version⟩ := self
  unfold is_full at hfull
  cases content with
  | Empty => cases hfull
  | Node4 km =>
    have hle := SortedKeyedMapping.Repr.length_le h
    have hiter : km.iter = items := hiter
    obtain ⟨km', hcopy, hrepr⟩ := SortedKeyedMapping.copied_spec 16 (by omega) hasc (by omega)
    refine ⟨.Node16 km', ?_, hrepr, show items.length < 16 by omega, rfl⟩
    simp only [grow_content, hiter, hcopy, map_ok]
  | Node16 km =>
    have hle := SortedKeyedMapping.Repr.length_le h
    have hiter : km.iter = items := hiter
    obtain ⟨im, hcopy, hrepr⟩ := IndexedMapping.copied_spec 48 (by omega) hasc (by omega)
    refine ⟨.Node48 im, ?_, hrepr, show items.length < 48 by omega, rfl⟩
    simp only [grow_content, hiter, hcopy, map_ok]
  | Node48 im =>
    have hiter : im.iter = items := hiter
    obtain ⟨dm, hcopy, hrepr⟩ := DirectMapping.copied_spec hasc
    refine ⟨.Node256 dm, ?_, hrepr, hroom, rfl⟩
    simp only [grow_content, hiter, hcopy, map_ok]
  | Node256 dm => cases hfull

/-- A cloned table lists the same children. -/
theorem clone_content_spec {content : Content Nat} (h : content.Repr items) :
    ∃ cloned, clone_content content = .ok cloned ∧ cloned.Repr items ∧
      cloned.is_empty = content.is_empty := by
  have hasc := h.ascending
  have hiter := h.iter_eq
  cases content with
  | Empty => exact ⟨.Empty, rfl, h, rfl⟩
  | Node4 km =>
    have hiter : km.iter = items := hiter
    obtain ⟨km', hcopy, hrepr⟩ := SortedKeyedMapping.copied_spec 4 (by omega) hasc
      (SortedKeyedMapping.Repr.length_le h)
    refine ⟨.Node4 km', ?_, hrepr, rfl⟩
    simp only [clone_content, hiter, hcopy, map_ok]
  | Node16 km =>
    have hiter : km.iter = items := hiter
    obtain ⟨km', hcopy, hrepr⟩ := SortedKeyedMapping.copied_spec 16 (by omega) hasc
      (SortedKeyedMapping.Repr.length_le h)
    refine ⟨.Node16 km', ?_, hrepr, rfl⟩
    simp only [clone_content, hiter, hcopy, map_ok]
  | Node48 im =>
    refine ⟨.Node48 im, ?_, h, rfl⟩
    simp only [clone_content, IndexedMapping.clone_mapping_eq h, map_ok]
  | Node256 dm =>
    refine ⟨.Node256 dm, ?_, h, rfl⟩
    simp only [clone_content, DirectMapping.clone_mapping_eq h, map_ok]

/-- Deleting a child that is there. -/
theorem delete_child_some (h : self.content.Repr items) {key : UInt8} {child : Nat}
    (hkey : items.lookup key = some child) :
    ∃ content, self.delete_child key = .ok (some child, { self with content }) ∧
      content.Repr (eraseKey key items) ∧ content.is_empty = self.content.is_empty ∧
      content.capacity = self.content.capacity := by
  obtain ⟨pfx, value, content, version⟩ := self
  cases content with
  | Empty =>
    have hnil : items = [] := h
    rw [hnil] at hkey
    cases hkey
  | Node4 km =>
    obtain ⟨km', hdelete, hrepr⟩ := SortedKeyedMapping.Repr.delete_child h (by omega) hkey
    refine ⟨.Node4 km', ?_, hrepr, rfl, rfl⟩
    simp only [delete_child, hdelete, ok_bind, pure_eq_ok]
  | Node16 km =>
    obtain ⟨km', hdelete, hrepr⟩ := SortedKeyedMapping.Repr.delete_child h (by omega) hkey
    refine ⟨.Node16 km', ?_, hrepr, rfl, rfl⟩
    simp only [delete_child, hdelete, ok_bind, pure_eq_ok]
  | Node48 im =>
    obtain ⟨im', hdelete, hrepr⟩ := IndexedMapping.Repr.delete_child h hkey
    refine ⟨.Node48 im', ?_, hrepr, rfl, rfl⟩
    simp only [delete_child, hdelete, ok_bind, pure_eq_ok]
  | Node256 dm =>
    obtain ⟨dm', hdelete, hrepr⟩ := DirectMapping.Repr.delete_child h hkey
    refine ⟨.Node256 dm', ?_, hrepr, rfl, rfl⟩
    simp only [delete_child, hdelete, ok_bind, pure_eq_ok]

/-- Deleting an edge that is not there changes nothing. -/
theorem delete_child_none (h : self.content.Repr items) {key : UInt8} (hkey : items.lookup key = none) :
    self.delete_child key = .ok (none, self) := by
  obtain ⟨pfx, value, content, version⟩ := self
  cases content with
  | Empty => rfl
  | Node4 km =>
    have hdelete := SortedKeyedMapping.Repr.delete_child_none h (by omega) hkey
    simp only [delete_child, hdelete, ok_bind, pure_eq_ok]
  | Node16 km =>
    have hdelete := SortedKeyedMapping.Repr.delete_child_none h (by omega) hkey
    simp only [delete_child, hdelete, ok_bind, pure_eq_ok]
  | Node48 im =>
    have hdelete := IndexedMapping.Repr.delete_child_none h hkey
    simp only [delete_child, hdelete, ok_bind, pure_eq_ok]
  | Node256 dm =>
    have hdelete := DirectMapping.Repr.delete_child_none h hkey
    simp only [delete_child, hdelete, ok_bind, pure_eq_ok]

end Specs

end VersionedNode

end rart.versioned_tree
