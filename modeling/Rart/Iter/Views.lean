import Mathlib.Data.List.TakeWhile
import Rart.Iter.Lending

open SortedAssoc LexOrder
open rart.partials rart.Trie rart.Node

namespace rart.iter

variable {N V : Type} [Node N V]

/-- The segments of the root's own key. -/
def root_segments (root_node : N) : List Bytes :=
  if pfx root_node = [] then [] else [pfx root_node]

/-- Whether the root's view lies above a start bound. -/
def view_above_start (start_bound : Bound) (root_view : LendingKeyView) : Bool :=
  match start_bound with
  | .Included start_key => root_view.cmp_slice start_key != .lt
  | .Excluded start_key => root_view.cmp_slice start_key == .gt
  | .Unbounded => true

/-- `end_bound_vec` -/
def end_bound_vec : Bound → Option (Bytes × Bool)
  | .Included key => some (key, true)
  | .Excluded key => some (key, false)
  | .Unbounded => none

namespace LendingIterInner

/-- The walk below a node that stands at some segments. -/
def below (node : N) (segments : List Bytes) (len : Nat) (end_bound : Option (Bytes × Bool)) :
    LendingIterInner N :=
  ⟨[((segments.length, len), .Plain (Node.iter node))], segments, len, end_bound⟩

/-- Both `for_each_with_prefix` and, at the root's own prefix, `for_each`: the calls
that they make. -/
def for_each_with_prefix (node : Option N) (root_segments : List Bytes) (root_len : Nat) :
    List (LendingKeyView × V) :=
  match node with
  | none => []
  | some root_node =>
    let first := (value root_node).map fun value => (⟨root_segments, root_len⟩, value)
    if is_leaf root_node = false then
      first.toList ++ (below root_node root_segments root_len none).visit_each
    else first.toList

def for_each (node : Option N) : List (LendingKeyView × V) :=
  match node with
  | none => []
  | some root_node =>
    for_each_with_prefix (some root_node) (root_segments root_node) (pfx root_node).length

/-- The stack of a walk that was positioned at a start bound. -/
def build_positioned_stack (node : N) (seek_key : Bytes) (depth : Nat) :
    Result (List ((Nat × Nat) × IterFrameIter N)) := do
  let root_segment_depth := if pfx node = [] then 0 else 1
  let it ← positioned_iter node seek_key depth
  return (it.map fun it => ((root_segment_depth, (pfx node).length), it)).toList

/-- The walk that `for_each_with_bounds` visits its keys with. -/
def positioned (root_node : N) (start_bound end_bound : Bound) : Result (LendingIterInner N) :=
  match seek_key start_bound with
  | some seek_key => do
    let stack ← build_positioned_stack root_node seek_key 0
    return ⟨stack, root_segments root_node, (pfx root_node).length, end_bound_vec end_bound⟩
  | none =>
    return below root_node (root_segments root_node) (pfx root_node).length (end_bound_vec end_bound)

def for_each_with_bounds (node : Option N) (start_bound end_bound : Bound) :
    Result (List (LendingKeyView × V)) :=
  match node with
  | none => return []
  | some root_node => do
    let root_view := ⟨root_segments root_node, (pfx root_node).length⟩
    if !view_within_end (end_bound_vec end_bound) root_view then return []
    let first := if view_above_start start_bound root_view then
      (value root_node).map fun value => (root_view, value) else none
    if is_leaf root_node then return first.toList
    return first.toList ++ (← positioned root_node start_bound end_bound).visit_each

end LendingIterInner

section Specs

theorem flatten_root_segments (root_node : N) : (root_segments root_node).flatten = pfx root_node := by
  unfold root_segments
  split
  · rename_i hnil
    rw [hnil]
    rfl
  · simp

/-- A walk below a node, once it has been put in place. -/
theorem pending_below {node : N} (hwf : Wf node) {kept : List (UInt8 × N)} {it : IterFrameIter N}
    (hit : it.remaining = kept) (hkept : ∀ p ∈ kept, p ∈ Node.iter node) (segments : List Bytes)
    (end_bound : Option (Bytes × Bool)) :
    LendingIterInner.Pending ⟨[((segments.length, segments.flatten.length), it)], segments,
        segments.flatten.length, end_bound⟩
      (((underSegments segments (childPaths kept)).map LendingIterInner.viewOf).takeWhile fun e =>
        view_within_end end_bound e.1) where
  nested := ⟨Nat.le_refl _, by rw [List.take_length], trivial⟩
  wf := by
    intro frame hframe p hp
    rw [List.mem_singleton.1 hframe, hit] at hp
    have hmem := hkept p hp
    refine ⟨hwf.child hmem, fun hnil => ?_⟩
    have hedge := hwf.edges hmem
    rw [hnil] at hedge
    cases hedge
  eq := by
    simp only [LendingIterInner.pending, List.append_nil, List.take_length, hit]

theorem takeWhile_unbounded (l : List (LendingKeyView × V)) :
    (l.takeWhile fun e => view_within_end none e.1) = l := by
  exact List.takeWhile_eq_self_iff.2 fun _ _ => rfl

/-- The lending walk over a subtree visits its paths, under the segments it is given. -/
theorem for_each_with_prefix_eq {node : N} (hwf : Wf node) (segments : List Bytes) :
    LendingIterInner.for_each_with_prefix (some node) segments segments.flatten.length =
      (pathsFrom segments node).map LendingIterInner.viewOf := by
  have hfirst : ((value node).map fun value =>
      ((⟨segments, segments.flatten.length⟩ : LendingKeyView), value)).toList =
        (((value node).map fun v => (segments, v)).toList).map LendingIterInner.viewOf := by
    cases value node <;> rfl
  unfold LendingIterInner.for_each_with_prefix pathsFrom
  dsimp only
  rw [List.map_append, ← hfirst]
  cases hleaf : is_leaf node with
  | true =>
    rw [iter_leaf hwf.layout hleaf]
    exact (List.append_nil _).symm
  | false =>
    have hremaining : (IterFrameIter.Plain (Node.iter node)).remaining = Node.iter node := rfl
    have hpending := pending_below hwf hremaining (fun p hp => hp) segments none
    rw [takeWhile_unbounded] at hpending
    exact congrArg _ hpending.visit_each_eq

theorem for_each_eq {node : N} (hwf : Wf node) :
    LendingIterInner.for_each (some node) =
      (pathsFrom (root_segments node) node).map LendingIterInner.viewOf := by
  rw [← for_each_with_prefix_eq hwf, flatten_root_segments]
  rfl

/-- What a view shows of an entry: the bytes of its key, and their number. -/
def viewed (e : LendingKeyView × V) : Bytes × Nat × V := (e.1.to_vec, e.1.len, e.2)

/-- An entry as a view of it shows it. -/
def shown (e : Bytes × V) : Bytes × Nat × V := (e.1, e.1.length, e.2)

theorem viewed_viewOf (e : List Bytes × V) :
    viewed (LendingIterInner.viewOf e) = shown (joined e) := by
  unfold viewed LendingIterInner.viewOf shown joined
  rw [LendingKeyView.to_vec_eq]

theorem map_viewed_viewOf (l : List (List Bytes × V)) :
    (l.map LendingIterInner.viewOf).map viewed = (l.map joined).map shown := by
  rw [List.map_map, List.map_map]
  exact List.map_congr_left fun e _ => viewed_viewOf e

/-- The lending walk shows the keys of a subtree's entries. -/
theorem for_each_with_prefix_viewed {node : N} (hwf : Wf node) (segments : List Bytes) :
    (LendingIterInner.for_each_with_prefix (some node) segments segments.flatten.length).map viewed =
      (entriesFrom segments.flatten node).map shown := by
  rw [for_each_with_prefix_eq hwf, map_viewed_viewOf, map_joined_pathsFrom]

theorem for_each_viewed {root : Option N} (hwf : ∀ r, root = some r → Wf r) :
    (LendingIterInner.for_each root).map viewed = (root.elim [] entries).map shown := by
  cases root with
  | none => rfl
  | some root =>
    rw [for_each_eq (hwf root rfl), map_viewed_viewOf, map_joined_pathsFrom, flatten_root_segments,
      entriesFrom_pfx]
    rfl

end Specs

end rart.iter
