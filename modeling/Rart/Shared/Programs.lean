import Rart.Lib.Program
import Rart.Versioned.Forest

open RcHeap RcHeap.Program
open rart.mapping rart.node rart.partials rart.utils

namespace rart.versioned_tree.shared

/-- Code that uses `Arc`s. Each use is an access of its own, and others may come in between. -/
abbrev Access (V α : Type) := Program (VersionedNode V) Panic α

variable {V E R : Type}

section Nodes

/-- A reference goes out of scope. -/
def drop_arc (node : Nat) : Access V Unit := releaseAll [node]

/-- A reference goes out of scope, if there is one. -/
def drop_opt (node : Option Nat) : Access V Unit := releaseAll node.toList

/-- A node goes out of scope, with its references. -/
def drop_node (node : VersionedNode V) : Access V Unit := releaseAll (handles node)

/-- `Arc::try_unwrap` -/
def try_unwrap (node : Nat) : Access V (Option (VersionedNode V)) := takeCell node

variable [Features]

/-- The children are cloned one by one into the wider table. -/
def grow (self : VersionedNode V) (new_version : Nat) : Access V (VersionedNode V) := do
  let content ← VersionedNode.grow_content self.content
  cloneAll (handles self)
  copies self.value.toList.length
  return ⟨self.pfx, self.value, content, new_version⟩

/-- The children are cloned one by one, and the value with the node. -/
def cow_clone_inner (self : VersionedNode V) (new_version : Nat) : Access V (VersionedNode V) := do
  let content ← VersionedNode.clone_content self.content
  cloneAll (handles self)
  copies 1
  return ⟨self.pfx, self.value, content, new_version⟩

/-- The full node goes out of scope behind its copy. -/
def grow_if_full (self : VersionedNode V) : Access V (VersionedNode V) := do
  if self.is_full then
    let grown ← grow self self.version
    drop_node self
    return grown
  else return self

/-- The node is the caller's own; only growing it touches the heap. -/
def add_child (self : VersionedNode V) (key : UInt8) (child : Nat) : Access V (VersionedNode V) := do
  let self := if self.content.is_empty then { self with content := .Node4 .new } else self
  let self ← grow_if_full self
  return { self with content := ← self.content.add_child key child }

/-- A child that a removal left, if any. -/
def add_child_opt (new_node_mut : VersionedNode V) (k : UInt8) (new_child_opt : Option Nat) :
    Access V (VersionedNode V) :=
  match new_child_opt with
  | some new_child => add_child new_node_mut k new_child
  | none => return new_node_mut

/-- Between the read, the `try_unwrap` and the copy others may come in. -/
def ensure_cow_node (node target_version : Nat) : Access V Nat := do
  let borrowed ← readCell node
  if borrowed.version = target_version then return node
  else
    match ← try_unwrap node with
    | some owned_node => allocCell { owned_node with version := target_version }
    | none =>
      let cloned ← cow_clone_inner borrowed target_version
      let new_node ← allocCell cloned
      drop_arc node
      return new_node

/-- `ensure_cow_node`, and the `try_unwrap` that all its callers go on with. -/
def exclusive (node version : Nat) : Access V (VersionedNode V) := do
  let new_node ← ensure_cow_node node version
  match ← try_unwrap new_node with
  | some owned => return owned
  | none => fail (.panic "ensure_cow_node should have given us exclusive ownership")

/-- The end of a removal: a node that is left without children and value goes out of scope. -/
def settle (new_node : VersionedNode V) : Access V (Option Nat) := do
  if new_node.num_children = 0 ∧ new_node.value.isNone then
    drop_node new_node
    return none
  else return some (← allocCell new_node)

end Nodes

section Descents

variable [Features]

/-- One read for each node of the descent. -/
def get_iterate (cur_node : Nat) (key : Bytes) (depth : Nat) : Access V (Option V) := do
  let node ← readCell cur_node
  let prefix_common_match ← prefix_length_key node.pfx key depth
  if prefix_common_match ≠ node.pfx.length then return none
  else if node.pfx.length = (← length_at key depth) then return node.value
  else
    let k ← byte_at key (depth + node.pfx.length)
    match node.seek_child k with
    | none => return none
    | some child =>
      -- the cell of a child is older than its parent's
      if child < cur_node then get_iterate child key (depth + node.pfx.length)
      else fail .out_of_fuel
termination_by cur_node

/-- The nodes down to the key, each made exclusive. -/
def cow_path_to_key (cur_node : Nat) (key : Bytes) (depth version : Nat) : Access V (Option Nat) := do
  let node ← readCell cur_node
  let prefix_common_match ← prefix_length_key node.pfx key depth
  if prefix_common_match ≠ node.pfx.length then
    drop_arc cur_node
    return none
  else
    let new_node ← exclusive cur_node version
    let remaining ← length_at key depth
    if new_node.pfx.length = remaining then
      if new_node.value.isNone then
        drop_node new_node
        return none
      else return some (← allocCell new_node)
    else if new_node.is_leaf then
      drop_node new_node
      return none
    else
      let key_byte ← byte_at key (depth + new_node.pfx.length)
      let prefix_len := new_node.pfx.length
      let (child, new_node) ← new_node.delete_child key_byte
      match child with
      | none =>
        drop_node new_node
        return none
      | some child =>
        if child < cur_node then
          match ← cow_path_to_key child key (depth + prefix_len) version with
          | none =>
            drop_node new_node
            return none
          | some new_child =>
            let new_node ← add_child new_node key_byte new_child
            return some (← allocCell new_node)
        else fail .out_of_fuel
termination_by cur_node

/-- The reference that `get_iterate_mut_cow_ready` returns is written through with
`write`. A node that is borrowed by `Arc::get_mut` is out of its cell meanwhile. -/
def get_iterate_mut_cow_ready (write : V → V) (cur_node : Nat) (key : Bytes) (depth : Nat) :
    Access V (Option V) := do
  match ← takeCell cur_node with
  | none => fail (.expect "CoW path should be uniquely owned")
  | some node =>
    let prefix_common_match ← prefix_length_key node.pfx key depth
    if prefix_common_match ≠ node.pfx.length then
      restoreCell cur_node node
      return none
    else
      let remaining ← length_at key depth
      if node.pfx.length = remaining then
        restoreCell cur_node { node with value := node.value.map write }
        return node.value
      else
        let k ← byte_at key (depth + node.pfx.length)
        let prefix_len := node.pfx.length
        match node.seek_child k with
        | none =>
          restoreCell cur_node node
          return none
        | some child =>
          if child < cur_node then
            let value ← get_iterate_mut_cow_ready write child key (depth + prefix_len)
            restoreCell cur_node node
            return value
          else fail .out_of_fuel
termination_by cur_node

/-- A copy of a node behind a shorter prefix. -/
def shortened_copy (node : VersionedNode V) (new_pfx : Bytes) (version : Nat) : Access V Nat := do
  let existing_node ← cow_clone_inner node version
  allocCell { existing_node with pfx := new_pfx }

/-- The key ends inside the node's prefix: the value goes to a new parent. -/
def insert_above (cur_node longest_common_prefix : Nat) (value : V) (version : Nat) : Access V Nat := do
  let node ← readCell cur_node
  let new_prefix ← partial_after node.pfx longest_common_prefix
  let new_parent : VersionedNode V :=
    .new_inner (← partial_before node.pfx longest_common_prefix) version
  let new_parent := { new_parent with value := some value }
  let edge ← byte_at node.pfx longest_common_prefix
  let existing ← shortened_copy node new_prefix version
  let new_parent ← add_child new_parent edge existing
  let new_node ← allocCell new_parent
  drop_arc cur_node
  return new_node

/-- Key and prefix part: both become children of a new node. -/
def insert_split (cur_node : Nat) (key : Bytes) (value : V) (depth longest_common_prefix version : Nat) :
    Access V Nat := do
  let node ← readCell cur_node
  let new_inner : VersionedNode V :=
    .new_inner (← partial_before node.pfx longest_common_prefix) version
  let k1 ← byte_at node.pfx longest_common_prefix
  let k2 ← byte_at key (depth + longest_common_prefix)
  let new_prefix ← partial_after node.pfx longest_common_prefix
  let existing_arc ← shortened_copy node new_prefix version
  let new_leaf ← allocCell
    (.new_leaf (← to_partial key (depth + longest_common_prefix)) value version)
  match new_inner.content with
  | .Node4 km =>
    let km ← km.add_child k1 existing_arc
    let km ← km.add_child k2 new_leaf
    let new_node ← allocCell { new_inner with content := .Node4 km }
    drop_arc cur_node
    return new_node
  | _ => fail (.unreachable "internal error: entered unreachable code")

/-- The key continues under an edge that the node does not have. -/
def insert_leaf (cur_node : Nat) (key : Bytes) (value : V) (depth version : Nat) : Access V Nat := do
  let edge ← byte_at key depth
  let new_leaf ← allocCell (.new_leaf (← to_partial key depth) value version)
  let new_node ← exclusive cur_node version
  let new_node ← add_child new_node edge new_leaf
  allocCell new_node

/-- The nodes of the descent are made exclusive one at a time. -/
def insert_recurse (cur_node : Nat) (key : Bytes) (value : V) (depth version : Nat)
    (old_value_out : Option (Option V)) : Access V (Nat × Bool × Option (Option V)) := do
  let node ← readCell cur_node
  let longest_common_prefix ← prefix_length_key node.pfx key depth
  let remaining ← length_at key depth
  let is_prefix_match := min node.pfx.length remaining = longest_common_prefix
  if is_prefix_match ∧ node.pfx.length = remaining then
    let new_node ← exclusive cur_node version
    let old_value := new_node.value
    let new_node ← allocCell { new_node with value := some value }
    return (new_node, old_value.isSome, write_old_value old_value_out old_value)
  else if is_prefix_match ∧ node.pfx.length > remaining then
    let new_node ← insert_above cur_node longest_common_prefix value version
    return (new_node, false, old_value_out)
  else if ¬ is_prefix_match then
    let new_node ← insert_split cur_node key value depth longest_common_prefix version
    return (new_node, false, old_value_out)
  else if node.is_leaf then
    let new_node ← insert_leaf cur_node key value (depth + longest_common_prefix) version
    return (new_node, false, old_value_out)
  else
    let k ← byte_at key (depth + node.pfx.length)
    let prefix_len := node.pfx.length
    let new_node_mut ← exclusive cur_node version
    let (child, new_node_mut) ← new_node_mut.delete_child k
    match child with
    | some child =>
      if child < cur_node then
        let (new_child, was_replaced, old_value_out) ←
          insert_recurse child key value (depth + prefix_len) version old_value_out
        let new_node_mut ← add_child new_node_mut k new_child
        let new_node ← allocCell new_node_mut
        return (new_node, was_replaced, old_value_out)
      else fail .out_of_fuel
    | none =>
      let new_leaf ← allocCell (.new_leaf (← to_partial key (depth + prefix_len)) value version)
      let new_node_mut ← add_child new_node_mut k new_leaf
      let new_node ← allocCell new_node_mut
      return (new_node, false, old_value_out)
termination_by cur_node

/-- `remove_recurse` and `delete_recurse`, over what is taken of the removed value, how often a
leaf's value is cloned for that, and the message of the failed pre-check. -/
def remove_loop (taken : V → R) (clones : Nat) (message : String) (cur_node : Nat) (key : Bytes)
    (depth version : Nat) : Access V (Option (Option Nat × R)) := do
  let node ← readCell cur_node
  let prefix_common_match ← prefix_length_key node.pfx key depth
  if prefix_common_match ≠ node.pfx.length then
    drop_arc cur_node
    return none
  else
    let remaining ← length_at key depth
    if node.pfx.length = remaining then
      if node.is_leaf then
        match node.value with
        | none =>
          drop_arc cur_node
          return none
        | some removed_value =>
          copies clones
          drop_arc cur_node
          return some (none, taken removed_value)
      else
        let new_node ← exclusive cur_node version
        match new_node.value with
        | none =>
          drop_node new_node
          return none
        | some removed_value =>
          let new_node ← settle { new_node with value := none }
          return some (new_node, taken removed_value)
    else if node.is_leaf then
      drop_arc cur_node
      return none
    else
      let k ← byte_at key (depth + node.pfx.length)
      let prefix_len := node.pfx.length
      let new_node_mut ← exclusive cur_node version
      let (child, new_node_mut) ← new_node_mut.delete_child k
      match child with
      | none =>
        drop_node new_node_mut
        return none
      | some child =>
        if child < cur_node then
          let result ← remove_loop taken clones message child key (depth + prefix_len) version
          let (new_child_opt, removed_value) ← expect result message
          let new_node_mut ← add_child_opt new_node_mut k new_child_opt
          let new_node ← settle new_node_mut
          return some (new_node, removed_value)
        else fail .out_of_fuel
termination_by cur_node

/-- The value is returned. Out of a leaf it is a clone. -/
def remove_recurse (cur_node : Nat) (key : Bytes) (depth version : Nat) :
    Access V (Option (Option Nat × V)) :=
  remove_loop (fun value => value) 1 "prechecked key should be removable" cur_node key depth version

/-- No value is returned, and none is cloned out of a leaf. -/
def delete_recurse (cur_node : Nat) (key : Bytes) (depth version : Nat) :
    Access V (Option (Option Nat × Unit)) :=
  remove_loop (fun _ => ()) 0 "prechecked key should be deletable" cur_node key depth version

/-- `let Some(value) = versioned_vacant_update(update) else { return (Some(cur_node), false); };` -/
def fill_vacant (cur_node : Nat) (update : UpdateCell V Empty) (fill : V → Access V Nat) :
    Access V (Option Nat × Bool × UpdateCell V Empty) := do
  let (value, update) ← versioned_vacant_update update
  match value with
  | none => return (some cur_node, false, update)
  | some value =>
    let new_node ← fill value
    return (some new_node, true, update)

/-- The value of a node that has none. -/
def update_vacant (cur_node version : Nat) (value : V) : Access V Nat := do
  let new_node ← exclusive cur_node version
  allocCell { new_node with value := some value }

/-- The callback on the value of a node. -/
def update_occupied (cur_node version : Nat) (update : UpdateCell V Empty) :
    Access V (Option Nat × Bool × UpdateCell V Empty) := do
  let new_node ← exclusive cur_node version
  let value ← expect new_node.value "occupied update requires an occupied slot"
  let (value, action, update) ← update.call_occupied value
  match action with
  | .ok .Keep =>
    let new_node ← allocCell { new_node with value := some value }
    return (some new_node, true, update)
  | .ok (.Insert value) =>
    let new_node ← allocCell { new_node with value := some value }
    return (some new_node, true, update)
  | .ok .Remove =>
    let new_node ← settle { new_node with value := none }
    return (new_node, true, update)

/-- The node after the child behind an edge was updated. -/
def swap_child (cur_node version : Nat) (k : UInt8) (new_child_opt : Option Nat) : Access V (Option Nat) := do
  let new_node_mut ← exclusive cur_node version
  let (_old_child, new_node_mut) ← new_node_mut.delete_child k
  let new_node_mut ← add_child_opt new_node_mut k new_child_opt
  let new_node ← settle new_node_mut
  drop_opt _old_child
  return new_node

def update_recurse (cur_node : Nat) (key : Bytes) (depth version : Nat) (update : UpdateCell V Empty) :
    Access V (Option Nat × Bool × UpdateCell V Empty) := do
  let node ← readCell cur_node
  let longest_common_prefix ← prefix_length_key node.pfx key depth
  let remaining ← length_at key depth
  let is_prefix_match := min node.pfx.length remaining = longest_common_prefix
  if is_prefix_match ∧ node.pfx.length = remaining then
    if node.value.isNone then fill_vacant cur_node update fun value => update_vacant cur_node version value
    else update_occupied cur_node version update
  else if is_prefix_match ∧ node.pfx.length > remaining then
    fill_vacant cur_node update fun value => insert_above cur_node longest_common_prefix value version
  else if ¬ is_prefix_match then
    fill_vacant cur_node update fun value =>
      insert_split cur_node key value depth longest_common_prefix version
  else if node.is_leaf then
    fill_vacant cur_node update fun value =>
      insert_leaf cur_node key value (depth + longest_common_prefix) version
  else
    let k ← byte_at key (depth + node.pfx.length)
    let prefix_len := node.pfx.length
    match node.seek_child k with
    | none =>
      fill_vacant cur_node update fun value => insert_leaf cur_node key value (depth + prefix_len) version
    | some child =>
      cloneAll [child]
      if child < cur_node then
        let (new_child_opt, changed, update) ← update_recurse child key (depth + prefix_len) version update
        if ¬ changed then
          drop_opt new_child_opt
          return (some cur_node, false, update)
        else
          let new_node ← swap_child cur_node version k new_child_opt
          return (new_node, true, update)
      else fail .out_of_fuel
termination_by cur_node

end Descents

section Trees

variable [Features]

/-- A lookup makes reads only. -/
def get_k (self : VersionedAdaptiveRadixTree V) (key : Bytes) : Access V (Option V) :=
  match self.root with
  | none => return none
  | some root => get_iterate root key 0

/-- A lookup first: a key that is missing changes nothing. -/
def get_mut_k (self : VersionedAdaptiveRadixTree V) (key : Bytes) (write : V → V) :
    Access V (Option V × VersionedAdaptiveRadixTree V) := do
  let found ← get_k self key
  if found.isNone then return (none, self)
  else
    let version := self.version + 1
    let root ← expect self.root "prechecked key should imply non-empty tree"
    let path ← cow_path_to_key root key 0 version
    let root ← expect path "prechecked key should have a CoW path"
    let value ← get_iterate_mut_cow_ready write root key 0
    return (value, ⟨some root, version⟩)

/-- The version goes up with the insertion. -/
def insert_k (self : VersionedAdaptiveRadixTree V) (key : Bytes) (value : V) :
    Access V (Bool × VersionedAdaptiveRadixTree V) :=
  let version := self.version + 1
  match self.root with
  | none => do
    let root ← allocCell (.new_leaf (← to_partial key 0) value version)
    return (false, ⟨some root, version⟩)
  | some root => do
    let (new_root, was_replaced, _) ← insert_recurse root key value 0 version none
    return (was_replaced, ⟨some new_root, version⟩)

/-- As `insert_k`, with the old value for an answer. -/
def insert_and_replace_k (self : VersionedAdaptiveRadixTree V) (key : Bytes) (value : V) :
    Access V (Option V × VersionedAdaptiveRadixTree V) :=
  let version := self.version + 1
  match self.root with
  | none => do
    let root ← allocCell (.new_leaf (← to_partial key 0) value version)
    return (none, ⟨some root, version⟩)
  | some root => do
    let (new_root, _, old_value) ← insert_recurse root key value 0 version (some none)
    return (old_value.join, ⟨some new_root, version⟩)

/-- The emptiness test of the new root. -/
def nonempty_root (new_root : Option Nat) : Access V (Option Nat) :=
  match new_root with
  | none => return none
  | some root => do
    let node ← readCell root
    if node.is_inner ∧ node.num_children = 0 ∧ node.value.isNone then
      drop_arc root
      return none
    else return some root

/-- A lookup first: a key that is missing changes nothing. -/
def remove_k (self : VersionedAdaptiveRadixTree V) (key : Bytes) :
    Access V (Option V × VersionedAdaptiveRadixTree V) := do
  let found ← get_k self key
  if found.isNone then return (none, self)
  else
    let version := self.version + 1
    let root ← expect self.root "non-empty tree checked before remove mutation"
    let node ← readCell root
    let remaining ← length_at key 0
    if node.is_leaf then
      if node.pfx.length ≠ remaining then return (none, ⟨some root, version⟩)
      else
        match ← try_unwrap root with
        | some owned_root =>
          drop_node owned_root
          return (owned_root.value, ⟨none, version⟩)
        | none =>
          copies node.value.toList.length
          drop_arc root
          return (node.value, ⟨none, version⟩)
    else if node.pfx.length = remaining then
      let new_root ← exclusive root version
      let removed := new_root.value
      let new_root ← settle { new_root with value := none }
      return (removed, ⟨new_root, version⟩)
    else
      let result ← remove_recurse root key 0 version
      let (new_root, removed_value) ← expect result "prechecked key should be removable"
      let new_root ← nonempty_root new_root
      return (some removed_value, ⟨new_root, version⟩)

/-- As `remove_k`. -/
def delete_k (self : VersionedAdaptiveRadixTree V) (key : Bytes) :
    Access V (Bool × VersionedAdaptiveRadixTree V) := do
  let found ← get_k self key
  if found.isNone then return (false, self)
  else
    let version := self.version + 1
    let root ← expect self.root "non-empty tree checked before delete mutation"
    let node ← readCell root
    let remaining ← length_at key 0
    if node.is_leaf then
      drop_arc root
      return (true, ⟨none, version⟩)
    else if node.pfx.length = remaining then
      let new_root ← exclusive root version
      let new_root ← settle { new_root with value := none }
      return (true, ⟨new_root, version⟩)
    else
      let result ← delete_recurse root key 0 version
      let (new_root, _) ← expect result "prechecked key should be deletable"
      let new_root ← nonempty_root new_root
      return (true, ⟨new_root, version⟩)

/-- `update_k`, with the calls that the callback got. -/
def update_k (self : VersionedAdaptiveRadixTree V) (key : Bytes) (update : Callback V Empty) :
    Access V (Bool × VersionedAdaptiveRadixTree V × List (Slot V)) :=
  let next_version := self.version + 1
  match self.root with
  | none => do
    let (value, cell) ← versioned_vacant_update ⟨some update, []⟩
    match value with
    | some value =>
      let root ← allocCell (.new_leaf (← to_partial key 0) value next_version)
      return (true, ⟨some root, next_version⟩, cell.calls)
    | none => return (false, self, cell.calls)
  | some root => do
    let (new_root, changed, cell) ← update_recurse root key 0 next_version ⟨some update, []⟩
    return (changed, ⟨new_root, if changed then next_version else self.version⟩, cell.calls)

/-- `try_update_k`, with the calls that the callback got. -/
def try_update_k (self : VersionedAdaptiveRadixTree V) (key : Bytes) (update : Callback V E) :
    Access V (Except E Bool × VersionedAdaptiveRadixTree V × List (Slot V)) := do
  match ← get_k self key with
  | none =>
    match update.vacant with
    | .error err => return (.error err, self, [.Vacant])
    | .ok (.Insert value) =>
      let (_, self) ← insert_k self key value
      return (.ok true, self, [.Vacant])
    | .ok .Keep => return (.ok false, self, [.Vacant])
    | .ok .Remove => return (.ok false, self, [.Vacant])
  | some old_value =>
    copies 1
    let (seen, self) ← get_mut_k self key fun value => (update.occupied value).1
    let value ← expect seen "prechecked key should remain occupied"
    match (update.occupied value).2 with
    | .error err =>
      let (seen, self) ← get_mut_k self key fun _ => old_value
      let _ ← expect seen "prechecked key should remain occupied"
      return (.error err, self, [.Occupied value])
    | .ok .Keep => return (.ok true, self, [.Occupied value])
    | .ok .Remove =>
      let (existed, self) ← delete_k self key
      return (.ok existed, self, [.Occupied value])
    | .ok (.Insert value') =>
      let (seen, self) ← get_mut_k self key fun _ => value'
      let _ ← expect seen "prechecked key should remain occupied"
      return (.ok true, self, [.Occupied value])

end Trees

end rart.versioned_tree.shared
