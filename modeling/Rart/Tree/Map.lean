import Rart.Probe
import Rart.Reference
import Rart.Tree.Update

open SortedAssoc LexOrder
open rart.node rart.partials rart.utils rart.Trie

namespace rart.tree

variable {V E : Type}

/-- `AdaptiveRadixTree<KeyType, ValueType>` -/
structure AdaptiveRadixTree (V : Type) where
  root : Option (DefaultNode V)
  len : Nat

section GetMut

variable [Features]

/-- `get_iterate_mut`, and the node after a write through the reference. -/
def get_iterate_mut (cur_node : DefaultNode V) (key_bytes : Bytes) (depth : Nat) (write : V → V) :
    Result (Option V × DefaultNode V) := do
  let prefix_len := cur_node.pfx.length
  let remaining_len ← usize_sub key_bytes.length depth
  let prefix_common_match := prefix_length_slice cur_node.pfx (← slice_from key_bytes depth)
  if prefix_common_match ≠ prefix_len then return (none, cur_node)
  else if prefix_len = remaining_len then
    return (cur_node.value, .mk cur_node.pfx (cur_node.value.map write) cur_node.content)
  else
    let k ← index key_bytes (depth + prefix_len)
    match _hchild : cur_node.seek_child_mut k with
    | none => return (none, cur_node)
    | some child =>
      let (value, child) ← get_iterate_mut child key_bytes (depth + prefix_len) write
      return (value, cur_node.write_child k child)
termination_by cur_node.node_count
decreasing_by exact DefaultNode.node_count_lt_of_seek_mut _hchild

/-- The write goes to the slot under what is left of the key, and to no other. -/
theorem get_iterate_mut_edits {cur_node : DefaultNode V} (hwf : Wf cur_node) {key : Bytes} {depth : Nat}
    (hdepth : depth ≤ key.length) (write : V → V) :
    ∃ after, get_iterate_mut cur_node key depth write = .ok (find cur_node (key.drop depth), after) ∧
      Edited cur_node (key.drop depth) ((find cur_node (key.drop depth)).map write) after := by
  induction hn : cur_node.node_count using Nat.strongRecOn generalizing cur_node depth with
  | ind n ih =>
    subst hn
    rw [get_iterate_mut, usize_sub_eq_ok hdepth, ok_bind, slice_from_eq_ok hdepth, ok_bind,
      prefix_length_slice_eq_lcp]
    dsimp only
    cases probe.meets cur_node.pfx hdepth with
    | diverges hne hpfx =>
      have hnone := find_eq_none_of_not_pfx (n := cur_node) hpfx
      rw [if_pos hne, hnone]
      exact ⟨cur_node, rfl, .same hnone⟩
    | ends hpfx hlcp hlen =>
      have hends : find cur_node (key.drop depth) = cur_node.value := probe.find_ends hpfx
      rw [if_neg (not_not.2 hlcp), if_pos hlen, hends, hpfx]
      rw [hpfx] at hends
      obtain ⟨pfx, held, content⟩ := cur_node
      cases held with
      | none => exact ⟨_, rfl, .same hends⟩
      | some current => exact ⟨_, rfl, .put (.here (.mk pfx (some current) content))⟩
    | goes_on k rest hpfx hlcp hlen hk hrest hdepth' =>
      have hfind := probe.find_goes_on hwf hpfx
      have hseek : cur_node.seek_child_mut k = cur_node.iter.lookup k :=
        Content.Repr.seek_child hwf.layout k
      have hseek' : Node.seek_child cur_node k = cur_node.iter.lookup k := hwf.seek_eq k
      rw [if_neg (not_not.2 hlcp), if_neg hlen]
      rw [hk, ok_bind]
      split
      · rename_i hnone
        rw [hseek', ← hseek, hnone] at hfind
        rw [hfind]
        exact ⟨cur_node, rfl, .same hfind⟩
      · rename_i child hsome
        have hlookup := hseek.symm.trans hsome
        have hmem : (k, child) ∈ cur_node.iter := hwf.ascending.lookup_eq_some_iff.1 hlookup
        obtain ⟨child', hrec, hedited⟩ := ih child.node_count
          (DefaultNode.node_count_lt_of_iter hmem) (hwf.child hmem) hdepth' rfl
        rw [hrest] at hrec hedited
        rw [hseek', hlookup, Option.bind_some] at hfind
        have hrec : get_iterate_mut child key (depth + cur_node.pfx.length) write =
            .ok (find child (k :: rest), child') := hrec
        refine ⟨cur_node.write_child k child', by rw [hrec, hfind]; rfl, ?_⟩
        rw [hfind]
        cases hfound : find child (k :: rest) with
        | none =>
          rw [hfound] at hfind hedited
          rw [hedited.eq_self (hwf.child hmem) hfound.symm, write_child_self hwf hlookup]
          exact .same hfind
        | some current =>
          rw [hfound] at hedited
          cases hedited with
          | put hput =>
            rw [hpfx]
            exact .put (.deeper hlookup hput)

end GetMut

namespace AdaptiveRadixTree

def new : AdaptiveRadixTree V := ⟨none, 0⟩

def is_empty (self : AdaptiveRadixTree V) : Bool := self.len == 0

/-- `if removed.is_some() { self.len -= 1 }` -/
def len_without (len : Nat) (removed : Option V) : Result Nat :=
  if removed.isSome then usize_sub len 1 else return len

section Operations

variable [Features]

def get_bytes (self : AdaptiveRadixTree V) (key : Bytes) : Result (Option V) :=
  match self.root with
  | none => return none
  | some root => probe.get_bytes_iterate root key 0

def get_k (self : AdaptiveRadixTree V) (key : Bytes) : Result (Option V) := self.get_bytes key

/-- `get_mut_k`: the value seen through the reference, and the tree after a write
through it. -/
def get_mut_k (self : AdaptiveRadixTree V) (key : Bytes) (write : V → V) :
    Result (Option V × AdaptiveRadixTree V) :=
  match self.root with
  | none => return (none, self)
  | some root => do
    let (value, root) ← get_iterate_mut root key 0 write
    return (value, ⟨some root, self.len⟩)

def insert_k (self : AdaptiveRadixTree V) (key : Bytes) (value : V) :
    Result (Option V × AdaptiveRadixTree V) :=
  match self.root with
  | none => do return (none, ⟨some (.new_leaf (← to_partial key 0) value), 1⟩)
  | some root => do
    let (result, root) ← insert_recurse root key value 0 true
    match result with
    | .Inserted => return (none, ⟨some root, self.len + 1⟩)
    | .Replaced old_value => return (some old_value, ⟨some root, self.len⟩)
    | .Occupied _ _ => throw (.unreachable "replacing insertion cannot report an occupied key")

def try_insert_k (self : AdaptiveRadixTree V) (key : Bytes) (value : V) :
    Result (Except (V × V) Unit × AdaptiveRadixTree V) :=
  match self.root with
  | none => do return (.ok (), ⟨some (.new_leaf (← to_partial key 0) value), 1⟩)
  | some root => do
    let (result, root) ← insert_recurse root key value 0 false
    match result with
    | .Inserted => return (.ok (), ⟨some root, self.len + 1⟩)
    | .Occupied value current => return (.error (value, current), ⟨some root, self.len⟩)
    | .Replaced _ => throw (.unreachable "non-replacing insertion cannot replace a value")

def remove_k (self : AdaptiveRadixTree V) (key : Bytes) : Result (Option V × AdaptiveRadixTree V) :=
  match self.root with
  | none => return (none, self)
  | some root => do
    let prefix_common_match ← prefix_length_key root.pfx key 0
    if prefix_common_match ≠ root.pfx.length then return (none, self)
    else if root.pfx.length = (← length_at key 0) then
      if root.is_leaf then
        let leaf ← expect root.value "corruption: missing value at leaf root"
        return (some leaf, ⟨none, ← usize_sub self.len 1⟩)
      else
        let removed := root.value
        let root := DefaultNode.mk root.pfx none root.content
        let len ← len_without self.len removed
        if root.num_children = 0 then return (removed, ⟨none, len⟩)
        else return (removed, ⟨some root, len⟩)
    else
      let (result, root) ← remove_recurse root key prefix_common_match
      let new_root :=
        if root.is_leaf = false ∧ root.num_children = 0 ∧ root.value.isNone then none else some root
      return (result, ⟨new_root, ← len_without self.len result⟩)

def delete_k (self : AdaptiveRadixTree V) (key : Bytes) : Result (Bool × AdaptiveRadixTree V) := do
  let (removed, self) ← self.remove_k key
  return (removed.isSome, self)

/-- The two functions below, over the recursion that they call. -/
def update_with (recurse : DefaultNode V → Bytes → Nat → UpdateCell V E → Result (Updated V E))
    (self : AdaptiveRadixTree V) (key : Bytes) (update : UpdateCell V E) :
    Result (Except E Bool × AdaptiveRadixTree V × UpdateCell V E) :=
  match self.root with
  | none => do
    let (action, update) ← update.call_vacant
    match action with
    | .error e => return (.error e, self, update)
    | .ok (.Insert value) =>
      return (.ok true, ⟨some (.new_leaf (← to_partial key 0) value), 1⟩, update)
    | .ok .Keep => return (.ok false, self, update)
    | .ok .Remove => return (.ok false, self, update)
  | some root => do
    let (result, root, update) ← recurse root key 0 update
    match result with
    | .error e => return (.error e, ⟨some root, self.len⟩, update)
    | .ok .Unchanged => return (.ok false, ⟨some root, self.len⟩, update)
    | .ok .Changed => return (.ok true, ⟨some root, self.len⟩, update)
    | .ok .Inserted => return (.ok true, ⟨some root, self.len + 1⟩, update)
    | .ok .Removed => return (.ok true, ⟨some root, ← usize_sub self.len 1⟩, update)
    | .ok .RemoveCurrent => return (.ok true, ⟨none, ← usize_sub self.len 1⟩, update)

def try_update_k_inner (self : AdaptiveRadixTree V) (key : Bytes) (update : Callback V E) :
    Result (Except E Bool × AdaptiveRadixTree V × UpdateCell V E) :=
  update_with try_update_recurse_with self key ⟨some update, []⟩

def try_update_k_rollback (self : AdaptiveRadixTree V) (key : Bytes) (update : Callback V E) :
    Result (Except E Bool × AdaptiveRadixTree V × UpdateCell V E) :=
  update_with try_update_recurse_with_rollback self key ⟨some update, []⟩

/-- `update_k`, with the calls that the callback got. -/
def update_k (self : AdaptiveRadixTree V) (key : Bytes) (update : Callback V Empty) :
    Result (Bool × AdaptiveRadixTree V × List (Slot V)) := do
  let (result, self, cell) ← self.try_update_k_inner key update
  match result with
  | .ok changed => return (changed, self, cell.calls)

/-- `try_update_k`, with the calls that the callback got. -/
def try_update_k (self : AdaptiveRadixTree V) (key : Bytes) (update : Callback V E) :
    Result (Except E Bool × AdaptiveRadixTree V × List (Slot V)) := do
  let (result, self, cell) ← self.try_update_k_rollback key update
  return (result, self, cell.calls)

end Operations

end AdaptiveRadixTree

end rart.tree
