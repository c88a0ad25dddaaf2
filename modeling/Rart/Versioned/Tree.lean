import Rart.Versioned.GetMut
import Rart.Versioned.Update

open SortedAssoc RcHeap Words LexOrder
open RcHeap.Heap (Valid Keeps Agree Below)
open rart.node rart.partials rart.utils

namespace rart.versioned_tree

variable {V E : Type}

/-- `VersionedAdaptiveRadixTree<KeyType, ValueType>`. As for the nodes, the version is taken to stay
below `2 ^ 64`. -/
structure VersionedAdaptiveRadixTree (V : Type) where
  root : Option Nat
  version : Nat

namespace VersionedAdaptiveRadixTree

def new : VersionedAdaptiveRadixTree V := ⟨none, 0⟩

def is_empty (self : VersionedAdaptiveRadixTree V) : Bool := self.root.isNone

/-- `self.root.clone()` -/
def clone_root (self : VersionedAdaptiveRadixTree V) (h : Heap (VersionedNode V)) :
    Result (Heap (VersionedNode V)) := arc (h.cloneAll self.root.toList)

def snapshot (self : VersionedAdaptiveRadixTree V) (h : Heap (VersionedNode V)) :
    Result (VersionedAdaptiveRadixTree V × Heap (VersionedNode V)) := do
  let h ← self.clone_root h
  return (⟨self.root, self.version + 1⟩, h)

/-- `Clone::clone` -/
def clone_tree (self : VersionedAdaptiveRadixTree V) (h : Heap (VersionedNode V)) :
    Result (VersionedAdaptiveRadixTree V × Heap (VersionedNode V)) := do
  let h ← self.clone_root h
  return (⟨self.root, self.version⟩, h)

/-- The tree goes out of scope. -/
def drop_tree (self : VersionedAdaptiveRadixTree V) (h : Heap (VersionedNode V)) :
    Result (Heap (VersionedNode V)) := drop_opt h self.root

section Operations

variable [Features]

def get_k (self : VersionedAdaptiveRadixTree V) (h : Heap (VersionedNode V)) (key : Bytes) :
    Result (Option V) :=
  match self.root with
  | none => return none
  | some root => do
    let node ← arc (borrow h root)
    probe.get_iterate node key 0

/-- `get_mut_k`: the value seen through the reference, after a write through it. -/
def get_mut_k (self : VersionedAdaptiveRadixTree V) (h : Heap (VersionedNode V)) (key : Bytes)
    (write : V → V) : Result (Option V × VersionedAdaptiveRadixTree V × Heap (VersionedNode V)) := do
  let found ← self.get_k h key
  if found.isNone then return (none, self, h)
  else
    let version := self.version + 1
    let root ← expect self.root "prechecked key should imply non-empty tree"
    let (path, h) ← cow_path_to_key h root key 0 version
    let root ← expect path "prechecked key should have a CoW path"
    let (value, h) ← get_iterate_mut_cow_ready write h root key 0
    return (value, ⟨some root, version⟩, h)

def insert_k (self : VersionedAdaptiveRadixTree V) (h : Heap (VersionedNode V)) (key : Bytes) (value : V) :
    Result (Bool × VersionedAdaptiveRadixTree V × Heap (VersionedNode V)) :=
  let version := self.version + 1
  match self.root with
  | none => do
    let (root, h) := h.alloc (.new_leaf (← to_partial key 0) value version)
    return (false, ⟨some root, version⟩, h)
  | some root => do
    let (new_root, was_replaced, _, h) ← insert_recurse h root key value 0 version none
    return (was_replaced, ⟨some new_root, version⟩, h)

def insert_and_replace_k (self : VersionedAdaptiveRadixTree V) (h : Heap (VersionedNode V)) (key : Bytes)
    (value : V) : Result (Option V × VersionedAdaptiveRadixTree V × Heap (VersionedNode V)) :=
  let version := self.version + 1
  match self.root with
  | none => do
    let (root, h) := h.alloc (.new_leaf (← to_partial key 0) value version)
    return (none, ⟨some root, version⟩, h)
  | some root => do
    let (new_root, _, old_value, h) ← insert_recurse h root key value 0 version (some none)
    return (old_value.join, ⟨some new_root, version⟩, h)

/-- The emptiness test of the new root. -/
def nonempty_root (h : Heap (VersionedNode V)) (new_root : Option Nat) :
    Result (Option Nat × Heap (VersionedNode V)) :=
  match new_root with
  | none => return (none, h)
  | some root => do
    let node ← arc (h.node? root)
    if node.is_inner ∧ node.num_children = 0 ∧ node.value.isNone then return (none, ← drop_arc h root)
    else return (some root, h)

def remove_k (self : VersionedAdaptiveRadixTree V) (h : Heap (VersionedNode V)) (key : Bytes) :
    Result (Option V × VersionedAdaptiveRadixTree V × Heap (VersionedNode V)) := do
  let found ← self.get_k h key
  if found.isNone then return (none, self, h)
  else
    let version := self.version + 1
    let root ← expect self.root "non-empty tree checked before remove mutation"
    let node ← arc (h.node? root)
    let remaining ← length_at key 0
    if node.is_leaf then
      if node.pfx.length ≠ remaining then return (none, ⟨some root, version⟩, h)
      else
        match ← try_unwrap h root with
        | some (owned_root, h) => return (owned_root.value, ⟨none, version⟩, ← drop_node h owned_root)
        | none =>
          -- the root is shared, so its value is cloned
          let h := h.copies node.value.toList.length
          return (node.value, ⟨none, version⟩, ← drop_arc h root)
    else if node.pfx.length = remaining then
      let (new_root, h) ← exclusive h root version
      let removed := new_root.value
      let (new_root, h) ← settle h { new_root with value := none }
      return (removed, ⟨new_root, version⟩, h)
    else
      let (result, h) ← remove_recurse h root key 0 version
      let (new_root, removed_value) ← expect result "prechecked key should be removable"
      let (new_root, h) ← nonempty_root h new_root
      return (some removed_value, ⟨new_root, version⟩, h)

def delete_k (self : VersionedAdaptiveRadixTree V) (h : Heap (VersionedNode V)) (key : Bytes) :
    Result (Bool × VersionedAdaptiveRadixTree V × Heap (VersionedNode V)) := do
  let found ← self.get_k h key
  if found.isNone then return (false, self, h)
  else
    let version := self.version + 1
    let root ← expect self.root "non-empty tree checked before delete mutation"
    let node ← arc (h.node? root)
    let remaining ← length_at key 0
    if node.is_leaf then return (true, ⟨none, version⟩, ← drop_arc h root)
    else if node.pfx.length = remaining then
      let (new_root, h) ← exclusive h root version
      let (new_root, h) ← settle h { new_root with value := none }
      return (true, ⟨new_root, version⟩, h)
    else
      let (result, h) ← delete_recurse h root key 0 version
      let (new_root, _) ← expect result "prechecked key should be deletable"
      let (new_root, h) ← nonempty_root h new_root
      return (true, ⟨new_root, version⟩, h)

/-- `update_k`, with the calls that the callback got. -/
def update_k (self : VersionedAdaptiveRadixTree V) (h : Heap (VersionedNode V)) (key : Bytes)
    (update : Callback V Empty) :
    Result (Bool × VersionedAdaptiveRadixTree V × List (Slot V) × Heap (VersionedNode V)) :=
  let next_version := self.version + 1
  match self.root with
  | none => do
    let (value, cell) ← versioned_vacant_update ⟨some update, []⟩
    match value with
    | some value =>
      let (root, h) := h.alloc (.new_leaf (← to_partial key 0) value next_version)
      return (true, ⟨some root, next_version⟩, cell.calls, h)
    | none => return (false, self, cell.calls, h)
  | some root => do
    let (new_root, changed, cell, h) ← update_recurse h root key 0 next_version ⟨some update, []⟩
    return (changed, ⟨new_root, if changed then next_version else self.version⟩, cell.calls, h)

/-- `try_update_k`, with the calls that the callback got. -/
def try_update_k (self : VersionedAdaptiveRadixTree V) (h : Heap (VersionedNode V)) (key : Bytes)
    (update : Callback V E) :
    Result (Except E Bool × VersionedAdaptiveRadixTree V × List (Slot V) × Heap (VersionedNode V)) := do
  match ← self.get_k h key with
  | none =>
    match update.vacant with
    | .error err => return (.error err, self, [.Vacant], h)
    | .ok (.Insert value) =>
      let (_, self, h) ← self.insert_k h key value
      return (.ok true, self, [.Vacant], h)
    | .ok .Keep => return (.ok false, self, [.Vacant], h)
    | .ok .Remove => return (.ok false, self, [.Vacant], h)
  | some old_value =>
    let h := h.copies 1
    let (seen, self, h) ← self.get_mut_k h key fun value => (update.occupied value).1
    let value ← expect seen "prechecked key should remain occupied"
    match (update.occupied value).2 with
    | .error err =>
      let (seen, self, h) ← self.get_mut_k h key fun _ => old_value
      let _ ← expect seen "prechecked key should remain occupied"
      return (.error err, self, [.Occupied value], h)
    | .ok .Keep => return (.ok true, self, [.Occupied value], h)
    | .ok .Remove =>
      let (existed, self, h) ← self.delete_k h key
      return (.ok existed, self, [.Occupied value], h)
    | .ok (.Insert value') =>
      let (seen, self, h) ← self.get_mut_k h key fun _ => value'
      let _ ← expect seen "prechecked key should remain occupied"
      return (.ok true, self, [.Occupied value], h)

end Operations

end VersionedAdaptiveRadixTree

end rart.versioned_tree
