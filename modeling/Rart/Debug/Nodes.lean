import Rart.Debug.Mappings
import Rart.Tree.Nodes

open Checked SortedAssoc
open rart.mapping rart.node rart.utils

namespace rart.debug

namespace Content

variable {N : Type}

/-- The `match` that closes `seek_child` and `seek_child_mut`. -/
def seek_child [Features] (self : Content N) (key : UInt8) : Result (Option N) :=
  match self with
  | .Node4 km => SortedKeyedMapping.seek_child km key
  | .Node16 km => SortedKeyedMapping.seek_child km key
  | .Node48 im => IndexedMapping.seek_child im key
  | .Node256 dm => DirectMapping.seek_child dm key
  | .Empty => return none

/-- The child is added to a table that is not full. -/
def add_child [Features] (self : Content N) (key : UInt8) (node : N) : Result (Content N) :=
  match self with
  | .Node4 km => .Node4 <$> SortedKeyedMapping.add_child km key node
  | .Node16 km => .Node16 <$> SortedKeyedMapping.add_child km key node
  | .Node48 im => .Node48 <$> IndexedMapping.add_child im key node
  | .Node256 dm => .Node256 <$> DirectMapping.add_child dm key node
  | .Empty => .error (.unreachable "empty nodes are promoted before adding children")

/-- Each table moves to the next wider one. -/
def grow (self : Content N) : Result (Content N) :=
  match self with
  | .Node4 km => .Node16 <$> mapping.SortedKeyedMapping.from_resized km
  | .Node16 km => .Node48 <$> IndexedMapping.from_sorted_keyed km
  | .Node48 im => .Node256 <$> DirectMapping.from_indexed im
  | .Node256 _ => .error (.unreachable "Should never grow a node256")
  | .Empty => .error (.unreachable "Should not be possible.")

end Content

namespace DefaultNode

variable {V : Type}

/-- A `Node4` without a value joins its last child, and every wider table moves to the next
narrower one. Prefixes are held in arrays of `N` bytes, and joining two of them needs room for one
byte more than they have. -/
def shrink (N : Nat) (self : DefaultNode V) : Result (DefaultNode V) :=
  match self.content with
  | .Node4 km => do
    if self.value.isSome then return self
    let ((_, child), _) ← SortedKeyedMapping.take_value_for_leaf km
    return .mk (← ArrPartial.partial_extended_with N self.pfx child.pfx) child.value child.content
  | .Node16 km => do
    return .mk self.pfx self.value (.Node4 (← mapping.SortedKeyedMapping.from_resized km))
  | .Node48 im => do
    return .mk self.pfx self.value (.Node16 (← SortedKeyedMapping.from_indexed im))
  | .Node256 dm => do
    return .mk self.pfx self.value (.Node48 (← IndexedMapping.from_direct dm))
  | .Empty => .error (.unreachable "Should not be possible.")

variable [Features]

/-- A childless node is not searched. -/
def seek_child (self : DefaultNode V) (key : UInt8) : Result (Option (DefaultNode V)) :=
  if self.num_children = 0 then return none else Content.seek_child self.content key

/-- Without the test for no children that `seek_child` makes. -/
def seek_child_mut (self : DefaultNode V) (key : UInt8) : Result (Option (DefaultNode V)) :=
  Content.seek_child self.content key

/-- A full table grows before the child is added. -/
def add_child (self : DefaultNode V) (key : UInt8) (node : DefaultNode V) :
    Result (DefaultNode V) := do
  let content := if self.content.is_empty then .Node4 .new else self.content
  let content ← if ← content.is_full then Content.grow content else pure content
  return .mk self.pfx self.value (← Content.add_child content key node)

/-- Shrinks where the children that are left fit the next narrower table. -/
def delete_child (N : Nat) (self : DefaultNode V) (key : UInt8) :
    Result (Option (DefaultNode V) × DefaultNode V) :=
  match self.content with
  | .Node4 dm => do
    let (node, dm) ← SortedKeyedMapping.delete_child dm key
    let self := DefaultNode.mk self.pfx self.value (.Node4 dm)
    return (node, ← if self.num_children = 1 then shrink N self else pure self)
  | .Node16 dm => do
    let (node, dm) ← SortedKeyedMapping.delete_child dm key
    let self := DefaultNode.mk self.pfx self.value (.Node16 dm)
    return (node, ← if self.num_children < 5 then shrink N self else pure self)
  | .Node48 im => do
    let (node, im) ← IndexedMapping.delete_child im key
    let self := DefaultNode.mk self.pfx self.value (.Node48 im)
    return (node, ← if self.num_children < 17 then shrink N self else pure self)
  | .Node256 pm => do
    let (node, pm) ← DirectMapping.delete_child pm key
    let self := DefaultNode.mk self.pfx self.value (.Node256 pm)
    return (node, ← if self.num_children < 49 then shrink N self else pure self)
  | .Empty => .error (.unreachable "Should not be possible.")

end DefaultNode

section Specs

variable [Features]

namespace Content

variable {N : Type} {c : Content N} {items : List (UInt8 × N)}

/-- In a sound table the child is found as without assertions. -/
theorem seek_child_eq (h : c.Repr items) (key : UInt8) : seek_child c key = .ok (c.seek_child key) := by
  cases c with
  | Empty => rfl
  | Node4 km => exact SortedKeyedMapping.seek_child_eq h (by omega) key
  | Node16 km => exact SortedKeyedMapping.seek_child_eq h (by omega) key
  | Node48 im => exact IndexedMapping.seek_child_eq h key
  | Node256 dm => exact DirectMapping.seek_child_eq h key

/-- What a search returns stands in a slot. -/
theorem mem_slots_of_seek {key : UInt8} {node : N} (h : seek_child c key = .ok (some node)) :
    some node ∈ c.slots := by
  cases c with
  | Empty => cases h
  | Node4 km => exact SortedKeyedMapping.mem_of_seek h
  | Node16 km => exact SortedKeyedMapping.mem_of_seek h
  | Node48 im => exact IndexedMapping.mem_of_seek h
  | Node256 dm => exact DirectMapping.mem_of_seek h

/-- One case per table. -/
theorem add_child_follows (h : c.Repr items) (key : UInt8) (node : N) :
    Follows (c.add_child key node) (add_child c key node) := by
  cases c with
  | Empty => exact Follows.refl _
  | Node4 km => exact (SortedKeyedMapping.add_child_follows h key node).map _
  | Node16 km => exact (SortedKeyedMapping.add_child_follows h key node).map _
  | Node48 im => exact (IndexedMapping.add_child_follows im key node).map _
  | Node256 dm => exact (DirectMapping.add_child_follows dm key node).map _

omit [Features] in
/-- One case per table. -/
theorem grow_follows (h : c.Repr items) : Follows c.grow (grow c) := by
  cases c with
  | Empty => exact Follows.refl _
  | Node4 km => exact Follows.refl _
  | Node16 km => exact (IndexedMapping.from_sorted_keyed_follows km).map _
  | Node48 im => exact (DirectMapping.from_indexed_follows h).map _
  | Node256 dm => exact Follows.refl _

end Content

namespace DefaultNode

variable {V : Type} {self : DefaultNode V} {items : List (UInt8 × DefaultNode V)}

/-- On a sound node the search is the one without assertions. -/
theorem seek_child_mut_eq (h : self.content.Repr items) (key : UInt8) :
    seek_child_mut self key = .ok (self.seek_child_mut key) := Content.seek_child_eq h key

/-- On a sound node the search is the one without assertions. -/
theorem seek_child_eq (h : self.content.Repr items) (key : UInt8) :
    seek_child self key = .ok (self.seek_child key) := by
  unfold seek_child node.DefaultNode.seek_child
  split
  · rfl
  · exact Content.seek_child_eq h key

/-- The descent of the debug build ends: a child is smaller than its node. -/
theorem node_count_lt_of_seek_mut {child : DefaultNode V} {key : UInt8}
    (h : seek_child_mut self key = .ok (some child)) : child.node_count < self.node_count := by
  rw [self.node_count_eq, content_count_eq]
  exact Nat.lt_succ_of_le (node_count_le_slots_count (Content.mem_slots_of_seek h))

/-- As for `node_count_lt_of_seek_mut`. -/
theorem node_count_lt_of_seek {child : DefaultNode V} {key : UInt8}
    (h : seek_child self key = .ok (some child)) : child.node_count < self.node_count := by
  unfold seek_child at h
  split at h
  · cases h
  · exact node_count_lt_of_seek_mut h

/-- With fewer than 256 children there is a table to grow to. -/
theorem add_child_follows (h : self.content.Repr items) (key : UInt8) (child : DefaultNode V)
    (hroom : items.length < 256) : Follows (self.add_child key child) (add_child self key child) := by
  unfold add_child node.DefaultNode.add_child
  -- an empty node is first given a table
  generalize hstart : (if self.content.is_empty then .Node4 .new else self.content) = start
  have hrepr : start.Repr items ∧ start.is_empty = false := by
    cases hempty : self.content.is_empty with
    | true =>
      rw [hempty, if_pos rfl] at hstart
      rw [h.eq_nil_of_is_empty hempty, ← hstart]
      exact ⟨SortedKeyedMapping.Repr.new, rfl⟩
    | false =>
      rw [hempty] at hstart
      rw [← hstart]
      exact ⟨h, hempty⟩
  obtain ⟨hrepr, hne⟩ := hrepr
  dsimp only
  rw [hrepr.is_full hne, ok_bind, ok_bind]
  by_cases hfull : start.capacity ≤ items.length
  · obtain ⟨grown, hgrow, hgrown, _⟩ := hrepr.grow hne hfull hroom
    rw [decide_eq_true hfull, if_pos rfl, if_pos rfl]
    refine (Content.grow_follows hrepr).bind fun c hc => ?_
    cases hgrow.symm.trans hc
    exact (Content.add_child_follows hgrown key child).bind fun _ _ => Follows.refl _
  · rw [decide_eq_false hfull]
    refine (Follows.refl _).bind fun c hc => ?_
    cases hc
    exact (Content.add_child_follows hrepr key child).bind fun _ _ => Follows.refl _

section Delete

variable {N : Nat}

/-- A valueless node is left with one child, and there is no room for the two prefixes
and one byte more. -/
def JoinFills (N : Nat) (node : DefaultNode V) (items : List (UInt8 × DefaultNode V)) : Prop :=
  node.value = none ∧ ∃ key last, items = [(key, last)] ∧ N ≤ node.pfx.length + last.pfx.length

omit [Features] in
/-- A join leaves one child behind. -/
theorem length_of_joinFills (h : JoinFills N self items) : items.length = 1 := by
  obtain ⟨_, key, last, rfl, _⟩ := h
  rfl

omit [Features] in
/-- Where a `Node4` shrinks, the room for the joined prefix decides. -/
theorem shrink4_guards {pfx : Bytes} {value : Option V} {km : SortedKeyedMapping (DefaultNode V) 4}
    (h : km.Repr items) (hone : items.length = 1) :
    Guards (JoinFills N (.mk pfx value (.Node4 km)) items) (DefaultNode.mk pfx value (.Node4 km)).shrink
      (shrink N (.mk pfx value (.Node4 km))) := by
  obtain ⟨⟨key, last⟩, rfl⟩ := List.length_eq_one_iff.1 hone
  cases value with
  | some v =>
    refine .of_follows (Follows.refl _) fun hfills => ?_
    cases hfills.1
  | none =>
    obtain ⟨rest, htake⟩ := h.take_value_for_leaf
    have hjoin : JoinFills N (.mk pfx none (.Node4 km)) [(key, last)] ↔ N ≤ pfx.length + last.pfx.length := by
      constructor
      · rintro ⟨_, key', last', heq, hfull⟩
        cases heq
        exact hfull
      · exact fun hfull => ⟨rfl, key, last, rfl, hfull⟩
    refine Guards.congr ?_ hjoin
    unfold shrink node.DefaultNode.shrink
    simp only [DefaultNode.content_mk, DefaultNode.value_mk, DefaultNode.pfx_mk, Option.isSome_none,
      Bool.false_eq_true, if_false]
    rw [SortedKeyedMapping.take_value_for_leaf_eq h.num_children_eq, htake, ok_bind, ok_bind]
    exact (ArrPartial.partial_extended_with_guards N pfx last.pfx).bind_follows
      (f := fun joined => .ok (DefaultNode.mk joined last.value last.content)) fun _ _ => Follows.refl _

omit [Features] in
/-- The tail of `delete_child` in a `Node4`. -/
theorem shrink4_if_guards {deleted : Option (DefaultNode V)} {pfx : Bytes} {value : Option V}
    {km : SortedKeyedMapping (DefaultNode V) 4} (h : km.Repr items) :
    Guards (JoinFills N (.mk pfx value (.Node4 km)) items)
      (do
        let self := DefaultNode.mk pfx value (.Node4 km)
        return (deleted, ← if self.num_children = 1 then self.shrink else pure self))
      (do
        let self := DefaultNode.mk pfx value (.Node4 km)
        return (deleted, ← if self.num_children = 1 then shrink N self else pure self)) := by
  have hnum : (DefaultNode.mk pfx value (.Node4 km)).num_children = items.length := h.num_children_eq
  dsimp only
  split
  · rename_i hone
    exact (shrink4_guards h (hnum.symm.trans hone)).bind_follows fun _ _ => Follows.refl _
  · rename_i hmore
    exact .of_follows (Follows.refl _) fun hfills => hmore (hnum.trans (length_of_joinFills hfills))

omit [Features] in
/-- No wider table joins prefixes. -/
theorem shrink_follows (h : self.content.Repr items) (hwide : 4 < self.content.capacity) :
    Follows self.shrink (shrink N self) := by
  obtain ⟨pfx, value, content⟩ := self
  cases content with
  | Empty => exact Follows.refl _
  | Node4 km => exact absurd hwide (Nat.lt_irrefl 4)
  | Node16 km => exact Follows.refl _
  | Node48 im => exact (SortedKeyedMapping.from_indexed_follows h).bind fun _ _ => Follows.refl _
  | Node256 dm => exact (IndexedMapping.from_direct_follows h).bind fun _ _ => Follows.refl _

omit [Features] in
/-- The tail of `delete_child` in a layout wider than a `Node4`. -/
theorem shrink_if_follows {deleted : Option (DefaultNode V)} (h : self.content.Repr items)
    (hwide : 4 < self.content.capacity) (few : Prop) [Decidable few] :
    Follows (do return (deleted, ← if few then self.shrink else pure self))
      (do return (deleted, ← if few then shrink N self else pure self)) := by
  dsimp only
  split
  · exact (shrink_follows h hwide).bind fun _ _ => Follows.refl _
  · exact Follows.refl _

/-- Deleting a present edge goes as in a release build, unless the joined prefix has no
room. -/
theorem delete_child_guards (h : self.content.Repr items) {key : UInt8} {child : DefaultNode V}
    (hkey : items.lookup key = some child) (hfits : self.content.Fits items.length) :
    Guards (JoinFills N self (eraseKey key items)) (self.delete_child key) (delete_child N self key) := by
  have hlen := h.ascending.length_eraseKey hkey
  obtain ⟨pfx, value, content⟩ := self
  simp only [DefaultNode.content_mk] at h hfits
  have hnot : 3 ≤ items.length → ¬ JoinFills N (.mk pfx value content) (eraseKey key items) := by
    intro hmany hfills
    have hone := length_of_joinFills hfills
    omega
  cases content with
  | Empty =>
    have hnil : items = [] := h
    rw [hnil] at hkey
    cases hkey
  | Node4 dm =>
    obtain ⟨dm', hdelete, hrepr⟩ := SortedKeyedMapping.Repr.delete_child h (by omega) hkey
    refine (SortedKeyedMapping.delete_child_follows h key).bind_guards fun deleted hdeleted => ?_
    cases hdelete.symm.trans hdeleted
    exact shrink4_if_guards hrepr
  | Node16 dm =>
    obtain ⟨dm', hdelete, hrepr⟩ := SortedKeyedMapping.Repr.delete_child h (by omega) hkey
    refine .of_follows ?_ (hnot (le_trans (by omega) hfits.1))
    refine (SortedKeyedMapping.delete_child_follows h key).bind fun deleted hdeleted => ?_
    cases hdelete.symm.trans hdeleted
    have hrepr : (DefaultNode.mk pfx value (.Node16 dm')).content.Repr (eraseKey key items) := hrepr
    exact shrink_if_follows hrepr (by decide : 4 < 16) _
  | Node48 im =>
    obtain ⟨im', hdelete, hrepr⟩ := IndexedMapping.Repr.delete_child h hkey
    refine .of_follows ?_ (hnot (le_trans (by omega) hfits.1))
    refine (IndexedMapping.delete_child_follows h key).bind fun deleted hdeleted => ?_
    cases hdelete.symm.trans hdeleted
    have hrepr : (DefaultNode.mk pfx value (.Node48 im')).content.Repr (eraseKey key items) := hrepr
    exact shrink_if_follows hrepr (by decide : 4 < 48) _
  | Node256 dm =>
    obtain ⟨dm', hdelete, hrepr⟩ := DirectMapping.Repr.delete_child h hkey
    refine .of_follows ?_ (hnot (le_trans (by omega) hfits.1))
    refine (DirectMapping.delete_child_follows h key).bind fun deleted hdeleted => ?_
    cases hdelete.symm.trans hdeleted
    have hrepr : (DefaultNode.mk pfx value (.Node256 dm')).content.Repr (eraseKey key items) := hrepr
    exact shrink_if_follows hrepr (by decide : 4 < 256) _

end Delete

end DefaultNode

end Specs

end rart.debug
