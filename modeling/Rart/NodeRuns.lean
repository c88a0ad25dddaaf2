import Mathlib.Data.List.FinRange
import Mathlib.Logic.Function.Basic
import Rart.Keys.Joins
import Rart.Node

open SortedAssoc
open rart.mapping rart.partials rart.utils

namespace rart.node

/-- The pairs of a finite map, in the order of the edges. -/
def listing {N : Type} (children : UInt8 → Option N) : List (UInt8 × N) :=
  (List.finRange UInt8.size).filterMap fun i => (children (UInt8.ofFin i)).map (Prod.mk (UInt8.ofFin i))

section Listing

variable {N : Type} {children : UInt8 → Option N}

/-- A pair is listed when the map holds it. -/
theorem mem_listing {key : UInt8} {node : N} : (key, node) ∈ listing children ↔ children key = some node := by
  unfold listing
  rw [List.mem_filterMap]
  constructor
  · rintro ⟨i, _, hi⟩
    obtain ⟨node', hnode', heq⟩ := Option.map_eq_some_iff.1 hi
    cases heq
    exact hnode'
  · intro h
    exact ⟨key.toFin, List.mem_finRange _, by rw [UInt8.ofFin_toFin, h]; rfl⟩

/-- The edges are listed upwards. -/
theorem ascending_listing : Ascending (listing children) := by
  unfold listing
  refine List.Pairwise.filterMap _ (fun i j hlt p hp q hq => ?_) (List.pairwise_lt_finRange UInt8.size)
  obtain ⟨_, _, rfl⟩ := Option.map_eq_some_iff.1 hp
  obtain ⟨_, _, rfl⟩ := Option.map_eq_some_iff.1 hq
  exact hlt

/-- An ascending list is the listing of the map that it looks up. -/
theorem listing_eq {items : List (UInt8 × N)} (h : Ascending items) (hlookup : ∀ key, children key = items.lookup key) :
    listing children = items := by
  refine ascending_listing.ext h fun key node => ?_
  rw [mem_listing, hlookup, h.lookup_eq_some_iff]

end Listing

/-- What a node is to those who read it, and the layout that it is kept in. -/
structure Table (V : Type) where
  pfx : Bytes
  value : Option V
  children : UInt8 → Option (DefaultNode V)
  layout : Layout

variable {V : Type}

namespace Table

/-- The number of children. -/
def count (self : Table V) : Nat := (listing self.children).length

/-- The edge gets a child, and the layout room for it. -/
def add_child (self : Table V) (key : UInt8) (node : DefaultNode V) : Table V :=
  { self with children := Function.update self.children key (some node), layout := self.layout.add self.count }

/-- The edge gets a child, and the layout stays as it is. -/
def add_child_sorted_unchecked (self : Table V) (key : UInt8) (node : DefaultNode V) : Table V :=
  { self with children := Function.update self.children key (some node) }

/-- The children without one. -/
def without (self : Table V) (key : UInt8) : UInt8 → Option (DefaultNode V) := Function.update self.children key none

/-- The last child of a `Node4` without a value, after the deletion of another one. -/
def lone (self : Table V) (key : UInt8) : Option (DefaultNode V) :=
  match listing (self.without key) with
  | [(_, child)] => if self.layout = .Node4 ∧ self.value.isNone then some child else none
  | _ => none

variable [Features]

/-- The table that a node stands for. -/
def of (node : DefaultNode V) : Table V := ⟨node.pfx, node.value, node.seek_child, node.content.layout⟩

/-- A lone child takes the place of its parent; its prefix comes behind that of the parent. -/
def delete_child (self : Table V) (key : UInt8) : Table V :=
  match self.lone key with
  | some child => { of child with pfx := self.pfx ++ child.pfx }
  | none =>
    let children := self.without key
    { self with children, layout := self.layout.delete (listing children).length }

end Table

section Joins

variable [Profile] (P : PartialType)

/-- `shrink`, with prefixes of a type. Only a `Node4` joins two of them. -/
def DefaultNode.shrink_joining (self : DefaultNode V) : Result (DefaultNode V) :=
  match self.content with
  | .Node4 km => do
    if self.value.isSome then return self
    let ((_, child), _) ← km.take_value_for_leaf
    return .mk (← P.partial_extended_with self.pfx child.pfx) child.value child.content
  | _ => self.shrink

/-- `delete_child`, likewise. -/
def DefaultNode.delete_child_joining [Features] (self : DefaultNode V) (key : UInt8) :
    Result (Option (DefaultNode V) × DefaultNode V) :=
  match self.content with
  | .Node4 dm => do
    let (node, dm) ← dm.delete_child key
    let self := DefaultNode.mk self.pfx self.value (.Node4 dm)
    return (node, ← if self.num_children = 1 then self.shrink_joining P else pure self)
  | _ => self.delete_child key

/-- The prefix of a lone child has room behind that of its parent. -/
def Table.Joins [Features] (self : Table V) (key : UInt8) : Prop :=
  ∀ child, self.lone key = some child → P.Room (self.pfx.length + child.pfx.length)

end Joins

/-- An operation on the children of a node. -/
inductive ChildOp (V : Type) where
  | add_child (key : UInt8) (node : DefaultNode V)
  | delete_child (key : UInt8)
  | add_child_sorted_unchecked (key : UInt8) (node : DefaultNode V)

section Runs

variable [Features]

section Operations

variable [Profile] (P : PartialType)

/-- What the operation returns, and the node after it. -/
def ChildOp.onNode (self : DefaultNode V) : ChildOp V → Result (Option (DefaultNode V) × DefaultNode V)
  | add_child key node => do return (none, ← self.add_child key node)
  | delete_child key => self.delete_child_joining P key
  | add_child_sorted_unchecked key node => do return (none, ← self.add_child_sorted_unchecked key node)

/-- The operation on the table. -/
def ChildOp.onTable (self : Table V) : ChildOp V → Option (DefaultNode V) × Table V
  | add_child key node => (none, self.add_child key node)
  | delete_child key => (self.children key, self.delete_child key)
  | add_child_sorted_unchecked key node => (none, self.add_child_sorted_unchecked key node)

/-- The operations on a node, with what each returned. -/
def runNode (self : DefaultNode V) : List (ChildOp V) → Result (List (Option (DefaultNode V)) × DefaultNode V)
  | [] => return ([], self)
  | op :: ops => do
    let (reply, next) ← op.onNode P self
    let (replies, last) ← runNode next ops
    return (reply :: replies, last)

/-- The operations on its table, with what each returned. -/
def runTable (self : Table V) : List (ChildOp V) → List (Option (DefaultNode V)) × Table V
  | [] => ([], self)
  | op :: ops =>
    let (reply, next) := op.onTable self
    let (replies, last) := runTable next ops
    (reply :: replies, last)

end Operations

/-- The edge is above all present ones, and its child finds the next slot of the table free. -/
def AddsSorted (node : DefaultNode V) (key : UInt8) : Prop :=
  (∀ b, key ≤ b → node.seek_child b = none) ∧ node.num_children < node.content.capacity ∧ node.content.Dense

/-- The nodes that start in any layout, without a child, and are made by any of the
operations. On the way the prefix and the value of a node may change, and a child may be
changed in its place. -/
inductive Built : DefaultNode V → Prop where
  | new_leaf (pfx : Bytes) (value : V) : Built (.new_leaf pfx value)
  | new_inner (pfx : Bytes) : Built (.new_inner pfx)
  | new_4 (pfx : Bytes) : Built (.new_4 pfx)
  | new_16 (pfx : Bytes) : Built (.new_16 pfx)
  | new_48 (pfx : Bytes) : Built (.new_48 pfx)
  | new_256 (pfx : Bytes) : Built (.new_256 pfx)
  | renamed {node : DefaultNode V} (h : Built node) (pfx : Bytes) (value : Option V) :
      Built (.mk pfx value node.content)
  | written {node child : DefaultNode V} (h : Built node) (hchild : Built child) (key : UInt8) :
      Built (node.write_child key child)
  | add_child {node child after : DefaultNode V} {key : UInt8} (h : Built node) (hchild : Built child)
      (habsent : node.seek_child key = none) (hadd : node.add_child key child = .ok after) : Built after
  | delete_child {node child after : DefaultNode V} {key : UInt8} {reply : Option (DefaultNode V)} (h : Built node)
      (hpresent : node.seek_child key = some child) (hdelete : node.delete_child key = .ok (reply, after)) : Built after
  | add_child_sorted_unchecked {node child after : DefaultNode V} {key : UInt8} (h : Built node)
      (hchild : Built child) (hsorted : AddsSorted node key)
      (hadd : node.add_child_sorted_unchecked key child = .ok after) : Built after

section Allowed

variable [Profile] (P : PartialType)

/-- A child is added where there is none, and deleted where there is one and a join that follows
has room. -/
def ChildOp.Allowed (node : DefaultNode V) : ChildOp V → Prop
  | add_child key child => Built child ∧ node.seek_child key = none
  | delete_child key => (∃ child, node.seek_child key = some child) ∧ (Table.of node).Joins P key
  | add_child_sorted_unchecked key child => Built child ∧ AddsSorted node key

/-- Every operation of the run is allowed on the node that it finds. -/
def AllowedRun (node : DefaultNode V) : List (ChildOp V) → Prop
  | [] => True
  | op :: ops => op.Allowed P node ∧ ∀ reply next, op.onNode P node = .ok (reply, next) → AllowedRun next ops

end Allowed

/-- Whether the operation takes a child out. -/
def ChildOp.deletes : ChildOp V → Bool
  | delete_child _ => true
  | _ => false

/-- The three ways to read the children of a node agree. -/
structure Reads (node : DefaultNode V) : Prop where
  iter : node.iter = listing node.seek_child
  ascending : (node.iter.map Prod.fst).Pairwise (· < ·)
  num_children : node.num_children = (listing node.seek_child).length

/-- The table of a node, and those of all nodes below it, hold the pairs of ascending lists. -/
inductive Sound : DefaultNode V → Prop where
  | intro {node : DefaultNode V} {items : List (UInt8 × DefaultNode V)} (hrepr : node.content.Repr items)
      (hchildren : ∀ p ∈ items, Sound p.2) : Sound node

section Steps

variable {node child : DefaultNode V} {items : List (UInt8 × DefaultNode V)} {key : UInt8}

/-- The children that a node finds are those that it lists. -/
theorem listing_seek_child (h : node.content.Repr items) : listing node.seek_child = items :=
  listing_eq h.ascending fun key => node.seek_child_eq h key

/-- On a sound node every reader agrees with the table. -/
theorem Sound.reads (h : Sound node) : Reads node := by
  obtain ⟨hrepr, _⟩ := h
  have hlisting := listing_seek_child hrepr
  refine ⟨hrepr.iter_eq.trans hlisting.symm, ?_, ?_⟩
  · rw [show node.iter = _ from hrepr.iter_eq]
    exact List.pairwise_map.2 hrepr.ascending
  · rw [hlisting]
    exact hrepr.num_children_eq

/-- The table of a node, from the list that its content stands for. -/
theorem table_eq (h : node.content.Repr items) {children : UInt8 → Option (DefaultNode V)}
    (hlookup : ∀ key, children key = items.lookup key) :
    Table.of node = ⟨node.pfx, node.value, children, node.content.layout⟩ := by
  have hchildren : node.seek_child = children := by
    funext key
    rw [hlookup]
    exact node.seek_child_eq h key
  unfold Table.of
  rw [hchildren]

/-- Inserting a pair is an update of the map. -/
theorem update_insert (h : node.content.Repr items) (key b : UInt8) :
    Function.update node.seek_child key (some child) b = (insertSorted key child items).lookup b := by
  rw [lookup_insertSorted, Function.update_apply, node.seek_child_eq h]

/-- So is erasing one. -/
theorem update_erase (h : node.content.Repr items) (key b : UInt8) :
    Function.update node.seek_child key none b = (eraseKey key items).lookup b := by
  rw [lookup_eraseKey, Function.update_apply, node.seek_child_eq h]

/-- Adding a child is the same on the node and on its table. -/
theorem Sound.add_child (h : Sound node) (hchild : Sound child) (habsent : node.seek_child key = none) :
    ∃ after, node.add_child key child = .ok after ∧ Table.of after = (Table.of node).add_child key child ∧
      Sound after ∧ (node.content.Dense → after.content.Dense) := by
  obtain ⟨hrepr, hchildren⟩ := h
  rw [node.seek_child_eq hrepr] at habsent
  obtain ⟨content, hadd, hrepr', hlayout, hdense⟩ := node.add_child_exact hrepr key child habsent
  have htable := @table_eq V _ (.mk node.pfx node.value content) _ hrepr' _ (update_insert hrepr key)
  refine ⟨_, hadd, ?_, ⟨hrepr', fun p hp => ?_⟩, hdense⟩
  · rw [htable, DefaultNode.content_mk, hlayout, ← listing_seek_child hrepr]
    rfl
  · rcases mem_insertSorted.1 hp with rfl | hp
    · exact hchild
    · exact hchildren p hp

/-- So is deleting one. -/
theorem Sound.delete_child (h : Sound node) (hpresent : node.seek_child key = some child) :
    ∃ after, node.delete_child key = .ok (some child, after) ∧
      Table.of after = (Table.of node).delete_child key ∧ Sound after := by
  obtain @⟨_, items, hrepr, hchildren⟩ := h
  rw [node.seek_child_eq hrepr] at hpresent
  obtain ⟨after, hdelete, hcollapsed, hkept⟩ := DefaultNode.delete_child_exact hrepr hpresent
  have hrest : listing ((Table.of node).without key) = eraseKey key items :=
    listing_eq (hrepr.ascending.eraseKey key) (update_erase hrepr key)
  have hmem : ∀ p ∈ eraseKey key items, Sound p.2 := fun p hp => hchildren p (mem_eraseKey.1 hp).1
  refine ⟨after, hdelete, ?_⟩
  unfold Table.delete_child
  by_cases hcollapse : node.Collapses (eraseKey key items)
  · obtain ⟨key', child', hone, rfl⟩ := hcollapsed hcollapse
    obtain ⟨hlayout, _, hvalue⟩ := hcollapse
    have hlone : (Table.of node).lone key = some child' := by
      unfold Table.lone
      rw [hrest, hone]
      exact if_pos ⟨hlayout, Option.isNone_iff_eq_none.2 hvalue⟩
    obtain ⟨hrepr', hchildren'⟩ := hmem (key', child') (by rw [hone]; exact List.mem_singleton_self _)
    rw [hlone]
    exact ⟨rfl, ⟨hrepr', hchildren'⟩⟩
  · obtain ⟨hpfx, hvalue, hrepr', hlayout⟩ := hkept hcollapse
    have hlone : (Table.of node).lone key = none := by
      unfold Table.lone
      rw [hrest]
      split
      · rename_i hone
        exact if_neg fun hif => hcollapse ⟨hif.1, by rw [hone]; rfl, Option.isNone_iff_eq_none.1 hif.2⟩
      · rfl
    rw [hlone, table_eq hrepr' (update_erase hrepr key), hpfx, hvalue, hlayout]
    dsimp only
    rw [hrest]
    exact ⟨rfl, ⟨hrepr', hmem⟩⟩

/-- So is appending one in order. -/
theorem Sound.add_child_sorted_unchecked (h : Sound node) (hchild : Sound child) (hsorted : AddsSorted node key) :
    ∃ after, node.add_child_sorted_unchecked key child = .ok after ∧
      Table.of after = (Table.of node).add_child_sorted_unchecked key child ∧ Sound after ∧ after.content.Dense := by
  obtain @⟨_, items, hrepr, hchildren⟩ := h
  obtain ⟨habove, hroom, hdense⟩ := hsorted
  have hlarge : ∀ p ∈ items, p.1 < key := by
    intro p hp
    by_contra hle
    have hnone := habove p.1 (not_lt.1 hle)
    rw [node.seek_child_eq hrepr, hrepr.ascending.lookup_eq_some_iff.2 hp] at hnone
    cases hnone
  have hlen : items.length < node.content.capacity := by
    rw [← hrepr.num_children_eq]
    exact hroom
  have hloaded : node.content.Loaded items := ⟨hrepr, hdense⟩
  obtain ⟨content, hadd, ⟨hrepr', hdense'⟩, hsame⟩ := hloaded.add_child_sorted_unchecked child hlarge hlen
  rw [← insertSorted_of_forall_lt hlarge] at hrepr'
  have htable := @table_eq V _ (.mk node.pfx node.value content) _ hrepr' _ (update_insert hrepr key)
  refine ⟨.mk node.pfx node.value content, ?_, ?_, ⟨hrepr', fun p hp => ?_⟩, hdense'⟩
  · unfold DefaultNode.add_child_sorted_unchecked
    rw [hadd]
    rfl
  · rw [htable, DefaultNode.content_mk, Content.layout_eq hsame]
    rfl
  · rcases mem_insertSorted.1 hp with rfl | hp
    · exact hchild
    · exact hchildren p hp

/-- Replacing a child keeps the node sound. -/
theorem Sound.write_child (h : Sound node) (hchild : Sound child) (key : UInt8) :
    Sound (node.write_child key child) := by
  obtain ⟨hrepr, hchildren⟩ := h
  refine ⟨hrepr.write_child key child, fun p hp => ?_⟩
  rcases mem_setKey hp with rfl | hp
  · exact hchild
  · exact hchildren p hp.1

omit [Features] in
/-- A node without children is sound. -/
theorem sound_empty {content : Content (DefaultNode V)} (pfx : Bytes) (value : Option V) (h : content.Repr []) :
    Sound (.mk pfx value content) := ⟨h, fun _ hp => nomatch hp⟩

/-- The nodes that calls build are sound. -/
theorem Built.sound (h : Built node) : Sound node := by
  induction h with
  | new_leaf pfx value => exact sound_empty pfx (some value) rfl
  | new_inner pfx => exact sound_empty pfx none SortedKeyedMapping.Repr.new
  | new_4 pfx => exact sound_empty pfx none SortedKeyedMapping.Repr.new
  | new_16 pfx => exact sound_empty pfx none SortedKeyedMapping.Repr.new
  | new_48 pfx => exact sound_empty pfx none (IndexedMapping.Repr.new (by decide))
  | new_256 pfx => exact sound_empty pfx none DirectMapping.Repr.new
  | renamed _ _ _ ih =>
    obtain ⟨hrepr, hchildren⟩ := ih
    exact ⟨hrepr, hchildren⟩
  | written _ _ key ih ihchild => exact ih.write_child ihchild key
  | add_child _ _ habsent hadd ih ihchild =>
    obtain ⟨after, hadd', _, hsound, _⟩ := ih.add_child ihchild habsent
    cases hadd.symm.trans hadd'
    exact hsound
  | delete_child _ hpresent hdelete ih =>
    obtain ⟨after, hdelete', _, hsound⟩ := ih.delete_child hpresent
    cases hdelete.symm.trans hdelete'
    exact hsound
  | add_child_sorted_unchecked _ _ hsorted hadd ih ihchild =>
    obtain ⟨after, hadd', _, hsound, _⟩ := ih.add_child_sorted_unchecked ihchild hsorted
    cases hadd.symm.trans hadd'
    exact hsound

section Joining

variable [Profile] {P : PartialType}

/-- The child that is left alone is the one whose prefix is joined. -/
theorem joins_iff (h : node.content.Repr items) (key : UInt8) : (Table.of node).Joins P key ↔
    ∀ edge lone, node.content.layout = .Node4 → node.value = none → eraseKey key items = [(edge, lone)] →
      P.Room (node.pfx.length + lone.pfx.length) := by
  have hrest : listing ((Table.of node).without key) = eraseKey key items :=
    listing_eq (h.ascending.eraseKey key) (update_erase h key)
  unfold Table.Joins Table.lone
  rw [hrest]
  constructor
  · intro hjoins edge lone hlayout hvalue hone
    rw [hone] at hjoins
    exact hjoins lone (if_pos ⟨hlayout, Option.isNone_iff_eq_none.2 hvalue⟩)
  · intro hroom lone hlone
    split at hlone
    · rename_i edge child hone
      split at hlone
      · rename_i hcollapses
        cases hlone
        exact hroom edge lone hcollapses.1 (Option.isNone_iff_eq_none.1 hcollapses.2) hone
      · cases hlone
    · cases hlone

/-- Where a joined prefix has room, its type plays no part. -/
theorem delete_child_joining_eq (h : node.content.Repr items) (hpresent : items.lookup key = some child)
    (hjoins : (Table.of node).Joins P key) : node.delete_child_joining P key = node.delete_child key := by
  have hroom := (joins_iff h key).1 hjoins
  obtain ⟨pfx, value, content⟩ := node
  cases content with
  | Node4 dm =>
    obtain ⟨dm', hdelete, hrepr⟩ := SortedKeyedMapping.Repr.delete_child h (by omega) hpresent
    have hshrink : (DefaultNode.mk pfx value (.Node4 dm')).num_children = 1 →
        (DefaultNode.mk pfx value (.Node4 dm')).shrink_joining P = (DefaultNode.mk pfx value (.Node4 dm')).shrink := by
      intro hone
      cases value with
      | some v => rfl
      | none =>
        obtain ⟨⟨edge, lone⟩, hlone⟩ := List.length_eq_one_iff.1 (hrepr.num_children_eq.symm.trans hone)
        rw [hlone] at hrepr
        obtain ⟨left, htake⟩ := hrepr.take_value_for_leaf
        have hjoin := PartialType.join_of_room (hroom edge lone rfl rfl hlone)
        simp only [DefaultNode.pfx_mk] at hjoin
        simp [DefaultNode.shrink_joining, DefaultNode.shrink, htake, hjoin, partial_extended_with]
    unfold DefaultNode.delete_child_joining DefaultNode.delete_child
    dsimp only [DefaultNode.content_mk, DefaultNode.pfx_mk, DefaultNode.value_mk]
    rw [hdelete, ok_bind, ok_bind]
    dsimp only
    split
    · rename_i hone
      rw [hshrink hone]
    · rfl
  | _ => rfl

/-- Where it has none, the deletion panics. -/
theorem delete_child_joining_full (h : node.content.Repr items) (hpresent : items.lookup key = some child)
    (hfull : ¬ (Table.of node).Joins P key) : ∃ panic, node.delete_child_joining P key = .error panic := by
  rw [joins_iff h key] at hfull
  simp only [not_forall, exists_prop] at hfull
  obtain ⟨edge, lone, hlayout, hvalue, hlone, hroom⟩ := hfull
  obtain ⟨pfx, value, content⟩ := node
  cases content with
  | Node4 dm =>
    obtain ⟨dm', hdelete, hrepr⟩ := SortedKeyedMapping.Repr.delete_child h (by omega) hpresent
    rw [hlone] at hrepr
    obtain ⟨left, htake⟩ := hrepr.take_value_for_leaf
    obtain ⟨panic, hjoin⟩ := PartialType.join_of_full hroom
    have hone : (DefaultNode.mk pfx value (.Node4 dm')).num_children = 1 := hrepr.num_children_eq
    cases hvalue
    refine ⟨panic, ?_⟩
    simp only [DefaultNode.pfx_mk] at hjoin
    unfold DefaultNode.delete_child_joining
    dsimp only [DefaultNode.content_mk, DefaultNode.pfx_mk, DefaultNode.value_mk]
    rw [hdelete, ok_bind]
    dsimp only
    rw [if_pos hone]
    simp [DefaultNode.shrink_joining, htake, hjoin]
  | _ => cases hlayout

/-- An allowed operation returns, and does to the table of the node what it does to the
finite map. -/
theorem ChildOp.step (h : Sound node) {op : ChildOp V} (hallowed : op.Allowed P node) :
    ∃ reply after, op.onNode P node = .ok (reply, after) ∧ op.onTable (Table.of node) = (reply, Table.of after) ∧
      Sound after ∧ (op.deletes = false → node.content.Dense → after.content.Dense) := by
  cases op with
  | add_child key child =>
    obtain ⟨hchild, habsent⟩ := hallowed
    obtain ⟨after, hadd, htable, hsound, hdense⟩ := h.add_child hchild.sound habsent
    refine ⟨none, after, ?_, congrArg _ htable.symm, hsound, fun _ => hdense⟩
    rw [onNode, hadd]
    rfl
  | delete_child key =>
    obtain ⟨⟨child, hpresent⟩, hjoins⟩ := hallowed
    obtain ⟨after, hdelete, htable, hsound⟩ := h.delete_child hpresent
    obtain ⟨hrepr, _⟩ := h
    have hlookup := (node.seek_child_eq hrepr key).symm.trans hpresent
    refine ⟨some child, after, (delete_child_joining_eq hrepr hlookup hjoins).trans hdelete, ?_, hsound, nofun⟩
    rw [onTable, ← htable]
    exact congrArg (·, _) hpresent
  | add_child_sorted_unchecked key child =>
    obtain ⟨hchild, hsorted⟩ := hallowed
    obtain ⟨after, hadd, htable, hsound, hdense⟩ := h.add_child_sorted_unchecked hchild.sound hsorted
    refine ⟨none, after, ?_, congrArg _ htable.symm, hsound, fun _ _ => hdense⟩
    rw [onNode, hadd]
    rfl

end Joining

end Steps

/-- The child storage of a node refines a finite map, over every allowed run on a node of any
layout: the run returns, its replies and the node after it are those of the map, and the
three ways to read the children agree. As long as no child is deleted, the slots of the node
stay in use from the first one on. -/
theorem child_storage_refines [Profile] {P : PartialType} {start : DefaultNode V} (hstart : Built start)
    {ops : List (ChildOp V)}
    (hallowed : AllowedRun P start ops) :
    ∃ replies after, runNode P start ops = .ok (replies, after) ∧
      runTable (Table.of start) ops = (replies, Table.of after) ∧ Reads after ∧
      ((∀ op ∈ ops, op.deletes = false) → start.content.Dense → after.content.Dense) := by
  have hsound := hstart.sound
  clear hstart
  induction ops generalizing start with
  | nil => exact ⟨[], start, rfl, rfl, hsound.reads, fun _ => id⟩
  | cons op ops ih =>
    obtain ⟨hop, hrest⟩ := hallowed
    obtain ⟨reply, next, hstep, htable, hnext, hdense⟩ := ChildOp.step hsound hop
    obtain ⟨replies, after, hrun, htables, hreads, hdense'⟩ := ih (hrest reply next hstep) hnext
    refine ⟨reply :: replies, after, ?_, ?_, hreads, fun hkeeps hstart => ?_⟩
    · rw [runNode, hstep, ok_bind]
      dsimp only
      rw [hrun]
      rfl
    · rw [runTable, htable]
      dsimp only
      rw [htables]
    · refine hdense' (fun op hop => hkeeps op (List.mem_cons_of_mem _ hop)) ?_
      exact hdense (hkeeps op List.mem_cons_self) hstart

end Runs

/-- Two children below one edge each, one of which is deleted: the other takes the place of
the node. The joined prefix has three bytes, for which there is room with one byte to spare. -/
theorem child_storage_refines_collapse :
    letI : Features := ⟨none⟩
    letI : Profile := ⟨true⟩
    let ops : List (ChildOp Nat) :=
      [.add_child 2 (.new_leaf [2, 7] 10), .add_child 3 (.new_leaf [3] 20), .delete_child 3]
    ∃ replies after, runNode (.ArrPartial 4) (.new_4 [1]) ops = .ok (replies, after) ∧
      runTable (Table.of (.new_4 [1])) ops = (replies, Table.of after) ∧ Reads after := by
  let : Features := ⟨none⟩
  let : Profile := ⟨true⟩
  intro ops
  have hallowed : AllowedRun (.ArrPartial 4) (.new_4 [1]) ops := by
    refine ⟨⟨.new_leaf _ _, rfl⟩, ?_⟩
    rintro _ next ⟨⟩
    refine ⟨⟨.new_leaf _ _, rfl⟩, ?_⟩
    rintro _ next ⟨⟩
    refine ⟨⟨⟨_, rfl⟩, fun child hlone => ?_⟩, fun _ _ _ => trivial⟩
    have hchild : some child = some (.new_leaf [2, 7] 10) := hlone.symm.trans rfl
    cases hchild
    exact ⟨by decide, fun _ => by decide⟩
  obtain ⟨replies, after, hrun, htable, hreads, _⟩ := child_storage_refines (.new_4 [1]) hallowed
  exact ⟨replies, after, hrun, htable, hreads⟩

/-- The unchecked operation on a node without a table, and on a `Node48` with a free slot
among those in use. There the new child is written over one that is still present. And a
lone child whose prefix has no room behind that of its parent. -/
theorem sorted_add_overwrites :
    letI : Features := ⟨none⟩
    letI : Profile := ⟨false⟩
    let leaf : Nat → DefaultNode Nat := DefaultNode.new_leaf []
    let adds : List (ChildOp Nat) := (List.range 18).map fun i => .add_child (UInt8.ofNat i) (leaf i)
    (leaf 7).add_child_sorted_unchecked 1 (leaf 8) =
        .error (.unreachable "bulk-loaded inner nodes have child storage") ∧
      (runNode .VectorPartial (.new_48 []) (adds ++ [.delete_child 0, .add_child_sorted_unchecked 20 (leaf 20)])).map
        (fun last => (last.2.seek_child 17).bind DefaultNode.value) = .ok (some 20) ∧
      (runNode (.ArrPartial 1) (.new_4 [1])
        [.add_child 2 (.new_leaf [2] 7), .add_child 3 (.new_leaf [3] 8), .delete_child 3]).map
        (fun _ => ()) = .error .index_out_of_bounds := by
  refine ⟨rfl, ?_, ?_⟩
  · decide +kernel
  · decide +kernel

end rart.node
