import Rart.Mapping.Indexed
import Rart.Partials

open SortedAssoc
open rart.mapping rart.partials rart.utils

namespace rart.node

/-- The variants of `Content`. -/
inductive Layout where
  | Empty
  | Node4
  | Node16
  | Node48
  | Node256
deriving DecidableEq, Repr

namespace Layout

/-- How many children a table of this layout has room for. -/
def capacity : Layout → Nat
  | Empty => 0
  | Node4 => 4
  | Node16 => 16
  | Node48 => 48
  | Node256 => 256

/-- The layout after one child was added to `count` others: a full one grows. -/
def add (count : Nat) : Layout → Layout
  | Empty => Node4
  | Node4 => if count < 4 then Node4 else Node16
  | Node16 => if count < 16 then Node16 else Node48
  | Node48 => if count < 48 then Node48 else Node256
  | Node256 => Node256

/-- The layout after a child was deleted and `count` others are left: a wide one shrinks. -/
def delete (count : Nat) : Layout → Layout
  | Empty => Empty
  | Node4 => Node4
  | Node16 => if count < 5 then Node4 else Node16
  | Node48 => if count < 17 then Node16 else Node48
  | Node256 => if count < 49 then Node48 else Node256

theorem add_ne_empty (self : Layout) (count : Nat) : self.add count ≠ Empty := by
  cases self with
  | Empty => exact nofun
  | Node256 => exact nofun
  | _ =>
    simp only [Layout.add]
    split_ifs <;> exact nofun

theorem delete_ne_empty {self : Layout} (h : self ≠ Empty) (count : Nat) : self.delete count ≠ Empty := by
  cases self with
  | Empty => exact absurd rfl h
  | Node4 => exact nofun
  | _ =>
    simp only [Layout.delete]
    split_ifs <;> exact nofun

/-- `Content.Fits`, which asks for the variant only. -/
def Fits (self : Layout) (count : Nat) : Prop :=
  match self with
  | Node4 => count ≤ 4
  | Node16 => 5 ≤ count ∧ count ≤ 16
  | Node48 => 17 ≤ count ∧ count ≤ 48
  | Node256 => 49 ≤ count ∧ count ≤ 256
  | Empty => count = 0

/-- Adding a child to a table of an adequate layout leads to an adequate layout. -/
theorem Fits.add {self : Layout} {count : Nat} (h : self.Fits count) (hle : count < 256) :
    (self.add count).Fits (count + 1) := by
  cases self with
  | Empty => simp only [Fits, Layout.add] at h ⊢; omega
  | Node256 => simp only [Fits, Layout.add] at h ⊢; omega
  | _ =>
    simp only [Fits, Layout.add] at h ⊢
    split_ifs <;> dsimp only <;> omega

/-- Two children are kept in a `Node4`, and in nothing wider. -/
theorem Fits.eq_node4 {self : Layout} (h : self.Fits 2) : self = Node4 := by
  cases self <;> simp [Fits] at h ⊢

/-- Deleting a child from a table of an adequate layout leads to an adequate layout. -/
theorem Fits.delete {self : Layout} {count : Nat} (h : self.Fits (count + 1)) : (self.delete count).Fits count := by
  cases self with
  | Empty => simp only [Fits] at h; omega
  | Node4 => simp only [Fits, Layout.delete] at h ⊢; omega
  | _ =>
    simp only [Fits, Layout.delete] at h ⊢
    split_ifs <;> dsimp only <;> omega

end Layout

/-- `Content` and `VersionedContent`, over the type a child is held by. -/
inductive Content (N : Type) where
  | Empty
  | Node4 (km : SortedKeyedMapping N 4)
  | Node16 (km : SortedKeyedMapping N 16)
  | Node48 (im : IndexedMapping N 48)
  | Node256 (dm : DirectMapping N)

namespace Content

variable {N : Type}

/-- The number of children that the table says it has. -/
def num_children : Content N → Nat
  | Node4 km => km.num_children
  | Node16 km => km.num_children
  | Node48 im => im.num_children
  | Node256 dm => dm.num_children
  | Empty => 0

/-- The pairs that `NodeIter` hands out. -/
def iter : Content N → List (UInt8 × N)
  | Node4 km => km.iter
  | Node16 km => km.iter
  | Node48 im => im.iter
  | Node256 dm => dm.iter
  | Empty => []

/-- `matches!(content, Content::Empty)` -/
def is_empty : Content N → Bool
  | Empty => true
  | _ => false

/-- How many children the table has room for. -/
def capacity : Content N → Nat
  | Node4 _ => 4
  | Node16 _ => 16
  | Node48 _ => 48
  | Node256 _ => 256
  | Empty => 0

section Layouts

variable [Features]

/-- The child behind an edge, found the way the layout asks for. -/
def seek_child (self : Content N) (key : UInt8) : Option N :=
  match self with
  | Node4 km => km.seek_child key
  | Node16 km => km.seek_child key
  | Node48 im => im.seek_child key
  | Node256 dm => dm.seek_child key
  | Empty => none

/-- Write through the reference that `seek_child_mut` returns. -/
def write_child (self : Content N) (key : UInt8) (node : N) : Content N :=
  match self with
  | Node4 km => Node4 (km.write_child key node)
  | Node16 km => Node16 (km.write_child key node)
  | Node48 im => Node48 (im.write_child key node)
  | Node256 dm => Node256 (dm.write_child key node)
  | Empty => Empty

/-- Putting back the child that is there changes nothing. -/
theorem write_child_self {self : Content N} {key : UInt8} {node : N}
    (h : self.seek_child key = some node) : self.write_child key node = self := by
  cases self with
  | Empty => rfl
  | Node4 km => exact congrArg Node4 (SortedKeyedMapping.write_child_self h)
  | Node16 km => exact congrArg Node16 (SortedKeyedMapping.write_child_self h)
  | Node48 im => exact congrArg Node48 (IndexedMapping.write_child_self h)
  | Node256 dm => exact congrArg Node256 (DirectMapping.write_child_self h)

/-- The `match` that closes both `add_child`s. -/
def add_child (self : Content N) (key : UInt8) (node : N) : Result (Content N) :=
  match self with
  | Node4 km => Node4 <$> km.add_child key node
  | Node16 km => Node16 <$> km.add_child key node
  | Node48 im => Node48 <$> im.add_child key node
  | Node256 dm => Node256 <$> dm.add_child key node
  | Empty => .error (.unreachable "empty nodes are promoted before adding children")

end Layouts

/-- `DefaultNode::add_child_sorted_unchecked` -/
def add_child_sorted_unchecked (self : Content N) (key : UInt8) (node : N) : Result (Content N) :=
  match self with
  | Node4 km => Node4 <$> km.add_child_sorted key node
  | Node16 km => Node16 <$> km.add_child_sorted key node
  | Node48 im => Node48 <$> im.add_child_sorted key node
  | Node256 dm => Node256 <$> dm.add_child key node
  | Empty => .error (.unreachable "bulk-loaded inner nodes have child storage")

/-- `DefaultNode::is_full` -/
def is_full (self : Content N) : Result Bool :=
  match self with
  | Node4 km => .ok (km.num_children ≥ 4)
  | Node16 km => .ok (km.num_children ≥ 16)
  | Node48 im => .ok (im.num_children ≥ 48)
  | Node256 dm => .ok (dm.num_children ≥ 256)
  | Empty => .error (.unreachable "Should not be possible.")

/-- `DefaultNode::grow` -/
def grow (self : Content N) : Result (Content N) :=
  match self with
  | Node4 km => Node16 <$> SortedKeyedMapping.from_resized km
  | Node16 km => Node48 <$> IndexedMapping.from_sorted_keyed km
  | Node48 im => Node256 <$> DirectMapping.from_indexed im
  | Node256 _ => .error (.unreachable "Should never grow a node256")
  | Empty => .error (.unreachable "Should not be possible.")

/-- The variant of the content, without its table. -/
def layout : Content N → Layout
  | Empty => .Empty
  | Node4 _ => .Node4
  | Node16 _ => .Node16
  | Node48 _ => .Node48
  | Node256 _ => .Node256

/-- The slots of a `Node48` are in use from the first one on, as `add_child_sorted` needs them. -/
def Dense (self : Content N) : Prop :=
  match self with
  | Node48 im => im.Dense
  | _ => True

theorem layout_eq {c c' : Content N} (h : c'.capacity = c.capacity) : c'.layout = c.layout := by
  cases c <;> cases c' <;> first | rfl | cases h

theorem is_empty_iff (self : Content N) : self.is_empty = true ↔ self.layout = .Empty := by
  cases self with
  | Empty => exact iff_of_true rfl rfl
  | _ => exact iff_of_false nofun nofun

theorem is_empty_eq_false {self : Content N} (h : self.layout ≠ .Empty) : self.is_empty = false :=
  Bool.eq_false_iff.2 (mt self.is_empty_iff.1 h)

/-- The layout is neither wider nor narrower than a number of children needs. -/
def Fits (self : Content N) (count : Nat) : Prop :=
  match self with
  | Node4 _ => count ≤ 4
  | Node16 _ => 5 ≤ count ∧ count ≤ 16
  | Node48 _ => 17 ≤ count ∧ count ≤ 48
  | Node256 _ => 49 ≤ count ∧ count ≤ 256
  | Empty => count = 0

/-- Whether a table fits its children is up to its layout. -/
theorem fits_layout (self : Content N) (count : Nat) : self.Fits count ↔ self.layout.Fits count := by
  cases self <;> rfl

theorem fits_of_capacity_eq {c c' : Content N} (h : c'.capacity = c.capacity) {count : Nat} :
    c'.Fits count ↔ c.Fits count := by rw [fits_layout, fits_layout, layout_eq h]

/-- The children are exactly the pairs of an ascending list. -/
def Repr (self : Content N) (items : List (UInt8 × N)) : Prop :=
  match self with
  | Node4 km => km.Repr items
  | Node16 km => km.Repr items
  | Node48 im => im.Repr items
  | Node256 dm => dm.Repr items
  | Empty => items = []

namespace Repr

variable {c : Content N} {items : List (UInt8 × N)}

/-- A table hands out the children that it stands for. -/
theorem iter_eq (h : c.Repr items) : c.iter = items := by
  cases c with
  | Empty => exact Eq.symm h
  | Node4 km => exact SortedKeyedMapping.Repr.iter_eq h
  | Node16 km => exact SortedKeyedMapping.Repr.iter_eq h
  | Node48 im => exact IndexedMapping.Repr.iter_eq h
  | Node256 dm => exact DirectMapping.Repr.iter_eq h

theorem ascending (h : c.Repr items) : Ascending items := by
  cases c with
  | Empty =>
    have hnil : items = [] := h
    rw [hnil]
    exact ascending_nil
  | Node4 km => exact SortedKeyedMapping.Repr.ascending h
  | Node16 km => exact SortedKeyedMapping.Repr.ascending h
  | Node48 im => exact (IndexedMapping.Repr.slots h).ascending
  | Node256 dm => exact (DirectMapping.Repr.maps h).ascending

/-- The count of a table is the number of its children. -/
theorem num_children_eq (h : c.Repr items) : c.num_children = items.length := by
  cases c with
  | Empty =>
    have hnil : items = [] := h
    rw [hnil]
    rfl
  | Node4 km => exact SortedKeyedMapping.Repr.num_children_eq h
  | Node16 km => exact SortedKeyedMapping.Repr.num_children_eq h
  | Node48 im => exact IndexedMapping.Repr.num_children_eq h
  | Node256 dm => exact DirectMapping.Repr.num_children_eq h

/-- No table has more children than it has room for. -/
theorem length_le (h : c.Repr items) : items.length ≤ c.capacity := by
  cases c with
  | Empty =>
    have hnil : items = [] := h
    exact Nat.le_of_eq (congrArg List.length hnil)
  | Node4 km => exact SortedKeyedMapping.Repr.length_le h
  | Node16 km => exact SortedKeyedMapping.Repr.length_le h
  | Node48 im => exact (IndexedMapping.Repr.slots h).length_le
  | Node256 dm => exact length_le_of_ascending (DirectMapping.Repr.maps h).ascending

/-- A table without a layout has no children. -/
theorem eq_nil_of_is_empty (h : c.Repr items) (hempty : c.is_empty = true) : items = [] := by
  cases c with
  | Empty => exact h
  | Node4 km => cases hempty
  | Node16 km => cases hempty
  | Node48 im => cases hempty
  | Node256 dm => cases hempty

section Layouts

variable [Features]

/-- A search in a table is a lookup in the list that it stands for. -/
theorem seek_child (h : c.Repr items) (key : UInt8) : c.seek_child key = items.lookup key := by
  cases c with
  | Empty =>
    have hnil : items = [] := h
    rw [hnil]
    rfl
  | Node4 km => exact SortedKeyedMapping.Repr.seek_child h (by omega) key
  | Node16 km => exact SortedKeyedMapping.Repr.seek_child h (by omega) key
  | Node48 im => exact IndexedMapping.Repr.seek_child h key
  | Node256 dm => exact DirectMapping.Repr.seek_child h key

/-- A write through the reference to a child replaces that child. -/
theorem write_child (h : c.Repr items) (key : UInt8) (node : N) :
    (c.write_child key node).Repr (setKey key node items) := by
  cases c with
  | Empty =>
    have hnil : items = [] := h
    rw [hnil]
    rfl
  | Node4 km => exact SortedKeyedMapping.Repr.write_child h (by omega) key node
  | Node16 km => exact SortedKeyedMapping.Repr.write_child h (by omega) key node
  | Node48 im => exact IndexedMapping.Repr.write_child h key node
  | Node256 dm => exact DirectMapping.Repr.write_child h key node

theorem add_child (h : c.Repr items) {key : UInt8} (node : N) (hkey : items.lookup key = none)
    (hroom : items.length < c.capacity) :
    ∃ c', c.add_child key node = .ok c' ∧ c'.Repr (insertSorted key node items) ∧ c'.layout = c.layout ∧
      (c.Dense → c'.Dense) := by
  cases c with
  | Empty => exact absurd hroom (Nat.not_lt_zero _)
  | Node4 km =>
    obtain ⟨km', hadd, hrepr⟩ := SortedKeyedMapping.Repr.add_child h (by omega) node hkey hroom
    exact ⟨.Node4 km', by simp [Content.add_child, hadd], hrepr, rfl, id⟩
  | Node16 km =>
    obtain ⟨km', hadd, hrepr⟩ := SortedKeyedMapping.Repr.add_child h (by omega) node hkey hroom
    exact ⟨.Node16 km', by simp [Content.add_child, hadd], hrepr, rfl, id⟩
  | Node48 im =>
    obtain ⟨im', hadd, hrepr⟩ := IndexedMapping.Repr.add_child h node hkey hroom
    exact ⟨.Node48 im', by simp [Content.add_child, hadd], hrepr, rfl,
      fun hdense => IndexedMapping.Repr.add_child_dense h hdense hkey hroom hadd⟩
  | Node256 dm =>
    obtain ⟨dm', hadd, hrepr⟩ := DirectMapping.Repr.add_child h node hkey
    exact ⟨.Node256 dm', by simp [Content.add_child, hadd], hrepr, rfl, id⟩

end Layouts

/-- A node that is not full has room in its layout. -/
theorem is_full (h : c.Repr items) (hne : c.is_empty = false) :
    c.is_full = .ok (decide (c.capacity ≤ items.length)) := by
  have hnum := h.num_children_eq
  cases c with
  | Empty => cases hne
  | Node4 km => rw [← hnum]; rfl
  | Node16 km => rw [← hnum]; rfl
  | Node48 im => rw [← hnum]; rfl
  | Node256 dm => rw [← hnum]; rfl

/-- A full table grows into one with room, which holds the same children. -/
theorem grow (h : c.Repr items) (hne : c.is_empty = false) (hfull : c.capacity ≤ items.length)
    (hroom : items.length < 256) :
    ∃ c', c.grow = .ok c' ∧ c'.Repr items ∧ items.length < c'.capacity ∧ c'.Dense ∧
      c'.layout = c.layout.add items.length := by
  cases c with
  | Empty => cases hne
  | Node4 km =>
    have hle := SortedKeyedMapping.Repr.length_le h
    obtain ⟨km', hgrow, hrepr⟩ := SortedKeyedMapping.Repr.from_resized 16 h (by omega)
    exact ⟨.Node16 km', by simp [Content.grow, hgrow], hrepr, show items.length < 16 by omega, trivial,
      (if_neg (not_lt.2 hfull)).symm⟩
  | Node16 km =>
    have hle := SortedKeyedMapping.Repr.length_le h
    obtain ⟨im, hgrow, hrepr, hdense⟩ := IndexedMapping.from_sorted_keyed_spec 48 h (by omega) (by omega)
    exact ⟨.Node48 im, by simp [Content.grow, hgrow], hrepr, show items.length < 48 by omega, hdense,
      (if_neg (not_lt.2 hfull)).symm⟩
  | Node48 im =>
    obtain ⟨dm, hgrow, hrepr⟩ := DirectMapping.from_indexed_spec h
    exact ⟨.Node256 dm, by simp [Content.grow, hgrow], hrepr, hroom, trivial, (if_neg (not_lt.2 hfull)).symm⟩
  | Node256 dm => exact absurd hfull (not_le.2 hroom)

end Repr

/-- Children added in ascending order, which fill a `Node48` from its first slot on. -/
def Loaded (self : Content N) (items : List (UInt8 × N)) : Prop :=
  self.Repr items ∧
    match self with
    | Node48 im => im.Dense
    | _ => True

/-- The loader's way to add a child does the same when its edge is larger than all others. -/
theorem Loaded.add_child_sorted_unchecked {c : Content N} {items : List (UInt8 × N)}
    (h : c.Loaded items) {key : UInt8} (node : N)
    (hlarge : ∀ p ∈ items, p.1 < key) (hroom : items.length < c.capacity) :
    ∃ c', c.add_child_sorted_unchecked key node = .ok c' ∧ c'.Loaded (items ++ [(key, node)]) ∧
      c'.capacity = c.capacity := by
  obtain ⟨h, hdense⟩ := h
  cases c with
  | Empty => exact absurd hroom (Nat.not_lt_zero _)
  | Node4 km =>
    obtain ⟨km', hadd, hrepr⟩ := SortedKeyedMapping.Repr.add_child_sorted h node hlarge hroom
    exact ⟨.Node4 km', by simp [Content.add_child_sorted_unchecked, hadd], ⟨hrepr, trivial⟩, rfl⟩
  | Node16 km =>
    obtain ⟨km', hadd, hrepr⟩ := SortedKeyedMapping.Repr.add_child_sorted h node hlarge hroom
    exact ⟨.Node16 km', by simp [Content.add_child_sorted_unchecked, hadd], ⟨hrepr, trivial⟩, rfl⟩
  | Node48 im =>
    obtain ⟨im', hadd, hrepr, hdense'⟩ := IndexedMapping.Repr.add_child_sorted h hdense node hlarge hroom
    exact ⟨.Node48 im', by simp [Content.add_child_sorted_unchecked, hadd], ⟨hrepr, hdense'⟩, rfl⟩
  | Node256 dm =>
    obtain ⟨dm', hadd, hrepr⟩ := DirectMapping.Repr.add_child h node (lookup_eq_none_of_forall_lt hlarge)
    rw [insertSorted_of_forall_lt hlarge] at hrepr
    exact ⟨.Node256 dm', by simp [Content.add_child_sorted_unchecked, hadd], ⟨hrepr, trivial⟩, rfl⟩

end Content

/-- `DefaultNode<P, V>` -/
inductive DefaultNode (V : Type) where
  | mk (pfx : Bytes) (value : Option V) (content : Content (DefaultNode V))

namespace DefaultNode

variable {V : Type}

/-- The field `prefix`. -/
def pfx : DefaultNode V → Bytes
  | mk pfx _ _ => pfx

def value : DefaultNode V → Option V
  | mk _ value _ => value

def content : DefaultNode V → Content (DefaultNode V)
  | mk _ _ content => content

@[simp] theorem pfx_mk (pfx : Bytes) (value : Option V) (content : Content (DefaultNode V)) :
    (mk pfx value content).pfx = pfx := rfl

@[simp] theorem value_mk (pfx : Bytes) (value : Option V) (content : Content (DefaultNode V)) :
    (mk pfx value content).value = value := rfl

@[simp] theorem content_mk (pfx : Bytes) (value : Option V) (content : Content (DefaultNode V)) :
    (mk pfx value content).content = content := rfl

/-- A node that holds a value and has no table. -/
def new_leaf (pfx : Bytes) (value : V) : DefaultNode V := mk pfx (some value) .Empty

/-- A node that is to get children, with an empty `Node4`. -/
def new_inner (pfx : Bytes) : DefaultNode V := mk pfx none (.Node4 .new)

def new_4 (pfx : Bytes) : DefaultNode V := mk pfx none (.Node4 .new)

def new_16 (pfx : Bytes) : DefaultNode V := mk pfx none (.Node16 .new)

def new_48 (pfx : Bytes) : DefaultNode V := mk pfx none (.Node48 .new)

def new_256 (pfx : Bytes) : DefaultNode V := mk pfx none (.Node256 .new)

/-- Whether a node has a table at all. -/
def is_leaf (self : DefaultNode V) : Bool := self.content.is_empty

/-- How many children the node's table says it has. -/
def num_children (self : DefaultNode V) : Nat := self.content.num_children

/-- The children of a node, in ascending order of their edges. -/
def iter (self : DefaultNode V) : List (UInt8 × DefaultNode V) := self.content.iter

def add_child_sorted_unchecked (self : DefaultNode V) (key : UInt8) (node : DefaultNode V) :
    Result (DefaultNode V) := do
  return mk self.pfx self.value (← self.content.add_child_sorted_unchecked key node)

/-- `shrink`, called when the layout is wider than its children need. -/
def shrink (self : DefaultNode V) : Result (DefaultNode V) :=
  match self.content with
  | .Node4 km => do
    if self.value.isSome then return self
    -- a lone child is collapsed into its valueless parent
    let ((_, child), _) ← km.take_value_for_leaf
    return mk (partial_extended_with self.pfx child.pfx) child.value child.content
  | .Node16 km => do
    return mk self.pfx self.value (.Node4 (← SortedKeyedMapping.from_resized km))
  | .Node48 im => do
    return mk self.pfx self.value (.Node16 (← SortedKeyedMapping.from_indexed im))
  | .Node256 dm => do
    return mk self.pfx self.value (.Node48 (← IndexedMapping.from_direct dm))
  | .Empty => .error (.unreachable "Should not be possible.")

section Layouts

variable [Features]

/-- The child behind an edge. -/
def seek_child (self : DefaultNode V) (key : UInt8) : Option (DefaultNode V) :=
  if self.num_children = 0 then none else self.content.seek_child key

/-- `seek_child_mut`, which does not ask for the number of children first. -/
def seek_child_mut (self : DefaultNode V) (key : UInt8) : Option (DefaultNode V) :=
  self.content.seek_child key

/-- The node after the child under a key was changed through `seek_child_mut`. -/
def write_child (self : DefaultNode V) (key : UInt8) (node : DefaultNode V) : DefaultNode V :=
  mk self.pfx self.value (self.content.write_child key node)

/-- A full table grows before the child is added. -/
def add_child (self : DefaultNode V) (key : UInt8) (node : DefaultNode V) :
    Result (DefaultNode V) := do
  let content := if self.content.is_empty then .Node4 .new else self.content
  let content ← if ← content.is_full then content.grow else pure content
  return mk self.pfx self.value (← content.add_child key node)

/-- The child behind an edge is taken out, and a table that got too wide for what is left
shrinks. -/
def delete_child (self : DefaultNode V) (key : UInt8) :
    Result (Option (DefaultNode V) × DefaultNode V) :=
  match self.content with
  | .Node4 dm => do
    let (node, dm) ← dm.delete_child key
    let self := mk self.pfx self.value (.Node4 dm)
    return (node, ← if self.num_children = 1 then self.shrink else pure self)
  | .Node16 dm => do
    let (node, dm) ← dm.delete_child key
    let self := mk self.pfx self.value (.Node16 dm)
    return (node, ← if self.num_children < 5 then self.shrink else pure self)
  | .Node48 im => do
    let (node, im) ← im.delete_child key
    let self := mk self.pfx self.value (.Node48 im)
    return (node, ← if self.num_children < 17 then self.shrink else pure self)
  | .Node256 pm => do
    let (node, pm) ← pm.delete_child key
    let self := mk self.pfx self.value (.Node256 pm)
    return (node, ← if self.num_children < 49 then self.shrink else pure self)
  | .Empty => .error (.unreachable "Should not be possible.")

section Specs

variable {self : DefaultNode V} {items : List (UInt8 × DefaultNode V)}

/-- A search for a child is a lookup in the list that the table stands for. -/
theorem seek_child_eq (h : self.content.Repr items) (key : UInt8) :
    self.seek_child key = items.lookup key := by
  unfold DefaultNode.seek_child
  split
  · rename_i hzero
    have hlen := h.num_children_eq.symm.trans hzero
    rw [List.eq_nil_of_length_eq_zero hlen]
    rfl
  · exact h.seek_child key

/-- A new edge is added to the children, in the layout that has room for it. -/
theorem add_child_exact (self : DefaultNode V) {items : List (UInt8 × DefaultNode V)}
    (h : self.content.Repr items) (key : UInt8) (node : DefaultNode V) (hkey : items.lookup key = none) :
    ∃ content, self.add_child key node = .ok (mk self.pfx self.value content) ∧
      content.Repr (insertSorted key node items) ∧ content.layout = self.content.layout.add items.length ∧
      (self.content.Dense → content.Dense) := by
  have hlen := length_le_of_ascending (h.ascending.insertSorted (lookup_eq_none_iff.1 hkey) node)
  rw [length_insertSorted] at hlen
  -- an empty node is first given a table
  obtain ⟨start, hstart, hrepr, hne, hlayout, hdense⟩ : ∃ start : Content (DefaultNode V),
      (if self.content.is_empty then .Node4 .new else self.content) = start ∧
        start.Repr items ∧ start.is_empty = false ∧
        start.layout.add items.length = self.content.layout.add items.length ∧
        (self.content.Dense → start.Dense) := by
    cases hempty : self.content.is_empty with
    | true =>
      rw [h.eq_nil_of_is_empty hempty, self.content.is_empty_iff.1 hempty]
      exact ⟨.Node4 .new, rfl, SortedKeyedMapping.Repr.new, rfl, rfl, fun _ => trivial⟩
    | false => exact ⟨self.content, rfl, h, hempty, rfl, id⟩
  unfold DefaultNode.add_child
  dsimp only
  rw [hstart, hrepr.is_full hne, ok_bind]
  by_cases hfull : start.capacity ≤ items.length
  · obtain ⟨grown, hgrow, hgrown, hroom, hdense', hlayout'⟩ := hrepr.grow hne hfull (by omega)
    obtain ⟨content, hadd, hcontent, hsame, hkeeps⟩ := hgrown.add_child node hkey hroom
    refine ⟨content, ?_, hcontent, ?_, fun _ => hkeeps hdense'⟩
    · simp [hfull, hgrow, hadd]
    · rw [hsame, hlayout', hlayout]
  · have hroom := not_le.1 hfull
    obtain ⟨content, hadd, hcontent, hsame, hkeeps⟩ := hrepr.add_child node hkey hroom
    refine ⟨content, ?_, hcontent, ?_, fun hself => hkeeps (hdense hself)⟩
    · simp [hfull, hadd]
    · rw [hsame, ← hlayout]
      cases start with
      | Empty => cases hne
      | Node256 dm => rfl
      | _ => exact (if_pos hroom).symm

/-- A new edge is added to the children, in a layout with room for it that is no
wider than needed. -/
theorem add_child_fits (self : DefaultNode V) {items : List (UInt8 × DefaultNode V)}
    (h : self.content.Repr items) (key : UInt8) (node : DefaultNode V) (hkey : items.lookup key = none) :
    ∃ content, self.add_child key node = .ok (mk self.pfx self.value content) ∧
      content.Repr (insertSorted key node items) ∧ content.is_empty = false ∧
      (self.content.Fits items.length → content.Fits (items.length + 1)) := by
  obtain ⟨content, hadd, hrepr, hlayout, _⟩ := self.add_child_exact h key node hkey
  have hlen := length_le_of_ascending hrepr.ascending
  rw [length_insertSorted] at hlen
  refine ⟨content, hadd, hrepr, Content.is_empty_eq_false ?_, fun hfits => ?_⟩
  · rw [hlayout]
    exact Layout.add_ne_empty _ _
  · rw [Content.fits_layout] at hfits ⊢
    rw [hlayout]
    exact hfits.add hlen

/-- A free edge gets its child, whether or not the table has to grow for it. -/
theorem add_child_spec (self : DefaultNode V) {items : List (UInt8 × DefaultNode V)}
    (h : self.content.Repr items) (key : UInt8) (node : DefaultNode V) (hkey : items.lookup key = none) :
    ∃ content, self.add_child key node = .ok (mk self.pfx self.value content) ∧
      content.Repr (insertSorted key node items) := by
  obtain ⟨content, hadd, hrepr, _⟩ := self.add_child_fits h key node hkey
  exact ⟨content, hadd, hrepr⟩

/-- What deleting a present edge leaves: the node without it, or, where a
valueless node is left with one child, that child with the prefixes joined. -/
def AfterDelete (self : DefaultNode V) (items : List (UInt8 × DefaultNode V))
    (after : DefaultNode V) : Prop :=
  (after.pfx = self.pfx ∧ after.value = self.value ∧ after.is_leaf = false ∧
      after.content.Repr items) ∨
    ∃ key child, items = [(key, child)] ∧ self.value = none ∧
      after = mk (self.pfx ++ child.pfx) child.value child.content

/-- A node without a deleted edge, in a layout that fits the children that are left,
where the one before did. -/
structure Shrunk (before : DefaultNode V) (items : List (UInt8 × DefaultNode V))
    (after : DefaultNode V) : Prop where
  pfx : after.pfx = before.pfx
  value : after.value = before.value
  inner : after.is_leaf = false
  repr : after.content.Repr items
  fits : before.content.Fits (items.length + 1) → after.content.Fits items.length
  branches : before.content.Fits (items.length + 1) → before.value = none → items.length ≠ 1

/-- A valueless `Node4` is left with one child. -/
def Collapses (self : DefaultNode V) (items : List (UInt8 × DefaultNode V)) : Prop :=
  self.content.layout = .Node4 ∧ items.length = 1 ∧ self.value = none

/-- Deleting a present edge leaves the other children, in the layout that fits their number;
a valueless `Node4` that is left with one child becomes that child, with the prefixes
joined. -/
theorem delete_child_exact (h : self.content.Repr items) {key : UInt8} {child : DefaultNode V}
    (hkey : items.lookup key = some child) :
    ∃ after, self.delete_child key = .ok (some child, after) ∧
      (self.Collapses (eraseKey key items) → ∃ key' child', eraseKey key items = [(key', child')] ∧
        after = mk (self.pfx ++ child'.pfx) child'.value child'.content) ∧
      (¬ self.Collapses (eraseKey key items) → after.pfx = self.pfx ∧ after.value = self.value ∧
        after.content.Repr (eraseKey key items) ∧
        after.content.layout = self.content.layout.delete (eraseKey key items).length) := by
  obtain ⟨pfx, value, content⟩ := self
  simp only [content_mk] at h
  cases content with
  | Empty =>
    have hnil : items = [] := h
    rw [hnil] at hkey
    cases hkey
  | Node4 dm =>
    obtain ⟨dm', hdelete, hrepr⟩ := SortedKeyedMapping.Repr.delete_child h (by omega) hkey
    have hnum := hrepr.num_children_eq
    unfold DefaultNode.delete_child
    simp only [content_mk, hdelete, ok_bind, num_children, Content.num_children]
    by_cases hcollapse : dm'.num_children = 1 ∧ value = none
    · obtain ⟨hone, rfl⟩ := hcollapse
      obtain ⟨⟨k, c⟩, hp⟩ := List.length_eq_one_iff.1 (hnum.symm.trans hone)
      rw [hp] at hrepr ⊢
      obtain ⟨rest, htake⟩ := hrepr.take_value_for_leaf
      refine ⟨mk (pfx ++ c.pfx) c.value c.content, ?_, fun _ => ⟨k, c, rfl, rfl⟩, fun hnot => ?_⟩
      · simp [hone, shrink, htake, partial_extended_with]
      · exact absurd ⟨rfl, rfl, rfl⟩ hnot
    · refine ⟨mk pfx value (.Node4 dm'), ?_, fun h => ?_, fun _ => ⟨rfl, rfl, hrepr, rfl⟩⟩
      · by_cases hone : dm'.num_children = 1
        · obtain ⟨v, rfl⟩ := Option.ne_none_iff_exists'.1 fun hvalue => hcollapse ⟨hone, hvalue⟩
          simp [hone, shrink]
        · simp [hone]
      · exact absurd ⟨hnum.trans h.2.1, h.2.2⟩ hcollapse
  | Node16 dm =>
    obtain ⟨dm', hdelete, hrepr⟩ := SortedKeyedMapping.Repr.delete_child h (by omega) hkey
    have hnum := hrepr.num_children_eq
    unfold DefaultNode.delete_child
    simp only [content_mk, hdelete, ok_bind, num_children, Content.num_children]
    by_cases hfew : dm'.num_children < 5
    · obtain ⟨km, hshrink, hkm⟩ := hrepr.from_resized 4 (by omega)
      refine ⟨mk pfx value (.Node4 km), by simp [hfew, shrink, hshrink], nofun, fun _ => ⟨rfl, rfl, hkm, ?_⟩⟩
      exact (if_pos (hnum ▸ hfew)).symm
    · refine ⟨mk pfx value (.Node16 dm'), by simp [hfew], nofun, fun _ => ⟨rfl, rfl, hrepr, ?_⟩⟩
      exact (if_neg (hnum ▸ hfew)).symm
  | Node48 im =>
    obtain ⟨im', hdelete, hrepr⟩ := IndexedMapping.Repr.delete_child h hkey
    have hnum := hrepr.num_children_eq
    unfold DefaultNode.delete_child
    simp only [content_mk, hdelete, ok_bind, num_children, Content.num_children]
    by_cases hfew : im'.num_children < 17
    · obtain ⟨km, hshrink, hkm⟩ := SortedKeyedMapping.from_indexed_spec 16 hrepr (by omega)
      refine ⟨mk pfx value (.Node16 km), by simp [hfew, shrink, hshrink], nofun, fun _ => ⟨rfl, rfl, hkm, ?_⟩⟩
      exact (if_pos (hnum ▸ hfew)).symm
    · refine ⟨mk pfx value (.Node48 im'), by simp [hfew], nofun, fun _ => ⟨rfl, rfl, hrepr, ?_⟩⟩
      exact (if_neg (hnum ▸ hfew)).symm
  | Node256 dm =>
    obtain ⟨dm', hdelete, hrepr⟩ := DirectMapping.Repr.delete_child h hkey
    have hnum := hrepr.num_children_eq
    unfold DefaultNode.delete_child
    simp only [content_mk, hdelete, ok_bind, num_children, Content.num_children]
    by_cases hfew : dm'.num_children < 49
    · obtain ⟨im, hshrink, him, _⟩ := IndexedMapping.from_direct_spec 48 hrepr (by omega) (by omega)
      refine ⟨mk pfx value (.Node48 im), by simp [hfew, shrink, hshrink], nofun, fun _ => ⟨rfl, rfl, him, ?_⟩⟩
      exact (if_pos (hnum ▸ hfew)).symm
    · refine ⟨mk pfx value (.Node256 dm'), by simp [hfew], nofun, fun _ => ⟨rfl, rfl, hrepr, ?_⟩⟩
      exact (if_neg (hnum ▸ hfew)).symm

/-- Deleting a child leaves its siblings, in a table that may have shrunk, or merges the last of
them into the node. -/
theorem delete_child_shrinks (h : self.content.Repr items) {key : UInt8} {child : DefaultNode V}
    (hkey : items.lookup key = some child) :
    ∃ after, self.delete_child key = .ok (some child, after) ∧
      (self.Shrunk (eraseKey key items) after ∨
        ∃ key' child', eraseKey key items = [(key', child')] ∧ self.value = none ∧
          after = mk (self.pfx ++ child'.pfx) child'.value child'.content) := by
  obtain ⟨after, hdelete, hcollapsed, hkept⟩ := delete_child_exact h hkey
  refine ⟨after, hdelete, ?_⟩
  by_cases hcollapse : self.Collapses (eraseKey key items)
  · obtain ⟨key', child', hone, hjoined⟩ := hcollapsed hcollapse
    exact Or.inr ⟨key', child', hone, hcollapse.2.2, hjoined⟩
  · obtain ⟨hpfx, hvalue, hrepr, hlayout⟩ := hkept hcollapse
    have hinner : self.content.layout ≠ .Empty := by
      intro hempty
      rw [h.eq_nil_of_is_empty (self.content.is_empty_iff.2 hempty)] at hkey
      cases hkey
    refine Or.inl ⟨hpfx, hvalue, ?_, hrepr, fun hfits => ?_, fun hfits hnone hone => ?_⟩
    · exact Content.is_empty_eq_false (hlayout ▸ Layout.delete_ne_empty hinner _)
    · rw [Content.fits_layout] at hfits ⊢
      rw [hlayout]
      exact hfits.delete
    · rw [Content.fits_layout, hone] at hfits
      exact hcollapse ⟨hfits.eq_node4, hone, hnone⟩

/-- The two outcomes of a deletion, in the terms in which the tree looks at them. -/
theorem delete_child_spec (h : self.content.Repr items) {key : UInt8} {child : DefaultNode V}
    (hkey : items.lookup key = some child) :
    ∃ after, self.delete_child key = .ok (some child, after) ∧
      self.AfterDelete (eraseKey key items) after := by
  obtain ⟨after, hdelete, hshrunk | hcollapsed⟩ := delete_child_shrinks h hkey
  · exact ⟨after, hdelete, Or.inl ⟨hshrunk.pfx, hshrunk.value, hshrunk.inner, hshrunk.repr⟩⟩
  · exact ⟨after, hdelete, Or.inr hcollapsed⟩

end Specs

end Layouts

end DefaultNode

end rart.node
