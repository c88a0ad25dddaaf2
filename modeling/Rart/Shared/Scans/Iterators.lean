import Rart.Iter.Range
import Rart.Query.Scans
import Rart.Shared.Interleavings
import Rart.Versioned.Convert

open SortedAssoc RcHeap RcHeap.Program Words LexOrder
open RcHeap.Heap (Valid Keeps)
open rart.node rart.partials rart.utils
open rart.iter (satisfies_start satisfies_end seek_key first_from within)

namespace rart.versioned_tree

namespace shared

variable {V : Type}

section Model

/-- `VersionedNodeIter`: the pairs of a node's table, so many of them on. -/
structure NodeIter where
  node : Nat
  taken : Nat

/-- `VersionedIterFrameIter` -/
inductive IterFrameIter where
  | Plain (iter : NodeIter)
  | Leading (first : Option (UInt8 × Nat)) (rest : NodeIter)

/-- `VersionedIterInner`, the top of its stack first. -/
structure IterInner where
  node_iter_stack : List (Nat × IterFrameIter)
  cur_key : Bytes
  start_bound : Option Bound

/-- `VersionedIter`: `once(first).chain(children)`, where either part may be empty. -/
structure Iter (V : Type) where
  first : Option (Bytes × V)
  children : IterInner

/-- `VersionedRange` -/
structure Range (V : Type) where
  iter : Iter V
  end_bound : Bound

/-- The node is read, and its next child named. -/
def NodeIter.next (self : NodeIter) : Access V (Option ((UInt8 × Nat) × NodeIter)) := do
  let node ← readCell self.node
  return node.content.iter[self.taken]?.map fun p => (p, { self with taken := self.taken + 1 })

/-- A leading child comes before the others. -/
def IterFrameIter.next : IterFrameIter → Access V (Option ((UInt8 × Nat) × IterFrameIter))
  | Plain iter => do return (← iter.next).map fun p => (p.1, Plain p.2)
  | Leading (some p) rest => return some (p, Leading none rest)
  | Leading none rest => do return (← rest.next).map fun p => (p.1, Leading none p.2)

namespace IterInner

/-- All children of a node. -/
def from_node_and_key (node : Nat) (cur_key : Bytes) : IterInner :=
  ⟨[(cur_key.length, .Plain ⟨node, 0⟩)], cur_key, none⟩

/-- The key of the frame that a walk goes back to. -/
def back_to (cur_key : Bytes) (stack : List (Nat × IterFrameIter)) : Bytes :=
  match stack with
  | [] => cur_key
  | (parent_depth, _) :: _ => cur_key.take parent_depth

/-- What a turn of the loop does with the child that comes next. -/
def enter (child : Nat) (node : VersionedNode V) (tree_depth : Nat) (stack : List (Nat × IterFrameIter))
    (cur_key : Bytes) (start_bound : Option Bound) : Option (Bytes × V) × IterInner :=
  let cur_key := cur_key ++ node.pfx
  let is_inner := !node.is_leaf
  let stack := if is_inner then (tree_depth + node.pfx.length, .Plain ⟨child, 0⟩) :: stack else stack
  match node.value with
  | some v =>
    match start_bound with
    | some start_bound =>
      if satisfies_start start_bound cur_key then (some (cur_key, v), ⟨stack, cur_key, none⟩)
      else (none, ⟨stack, cur_key, some start_bound⟩)
    | none => (some (cur_key, v), ⟨stack, cur_key, none⟩)
  | none =>
    let cur_key := if is_inner then cur_key else cur_key.take tree_depth
    (none, ⟨stack, cur_key, start_bound⟩)

/-- One turn of the loop of `next`. -/
def turn (self : IterInner) : Access V (Option (Option (Bytes × V) × IterInner)) :=
  match self.node_iter_stack with
  | [] => return none
  | (tree_depth, last_iter) :: stack => do
    let cur_key := self.cur_key.take tree_depth
    match ← last_iter.next with
    | none => return some (none, { self with node_iter_stack := stack, cur_key := back_to cur_key stack })
    | some ((_, child), last_iter) =>
      let node ← readCell child
      return some (enter child node tree_depth ((tree_depth, last_iter) :: stack) cur_key self.start_bound)

end IterInner

/-- The value of the root, then its children. -/
def Iter.turn (self : Iter V) : Access V (Option (Option (Bytes × V) × Iter V)) :=
  match self.first with
  | some entry => return some (some entry, { self with first := none })
  | none => do return (← self.children.turn).map fun p => (p.1, { self with children := p.2 })

/-- One turn of the iterator that `VersionedRange::next` asks, with the test of the end bound. -/
def Range.turn (self : Range V) : Access V (Option (Option (Bytes × V) × Range V)) := do
  match ← self.iter.turn with
  | none => return none
  | some (none, iter) => return some (none, { self with iter })
  | some (some entry, iter) =>
    if satisfies_end self.end_bound entry.1 then return some (some entry, { self with iter })
    else return none

/-- The one frame that `build_positioned_stack` makes, if any. -/
def positioned_iter (a : Nat) (node : VersionedNode V) (seek_key : Bytes) (depth : Nat) :
    Result (Option IterFrameIter) := do
  let whole := some (IterFrameIter.Plain ⟨a, 0⟩)
  let prefix_common ← prefix_length_key node.pfx seek_key depth
  if prefix_common ≠ node.pfx.length then
    let seek_remaining ← length_at seek_key depth
    if prefix_common ≥ seek_remaining then return whole
    else
      let node_byte ← byte_at node.pfx prefix_common
      let seek_byte ← byte_at seek_key (depth + prefix_common)
      if node_byte < seek_byte then return none else return whole
  else if (← length_at seek_key depth) = node.pfx.length then return whole
  else
    let target_byte ← byte_at seek_key (depth + node.pfx.length)
    return (first_from target_byte node.content.iter).map fun found =>
      .Leading (some found.1) ⟨a, node.content.iter.length - found.2.length⟩

/-- The frame that the start bound leaves of a node, if any. -/
def IterInner.new_with_start_bound (a : Nat) (node : VersionedNode V) (start_bound : Bound) : Result IterInner :=
  match seek_key start_bound with
  | some key => do
    let it ← positioned_iter a node key 0
    return ⟨(it.map fun it => (node.pfx.length, it)).toList, node.pfx, some start_bound⟩
  | none => return .from_node_and_key a node.pfx

namespace Iter

/-- No entry. -/
def empty : Iter V := ⟨none, ⟨[], [], none⟩⟩

/-- One entry. -/
def once (entry : Bytes × V) : Iter V := ⟨some entry, ⟨[], [], none⟩⟩

/-- The value of the root before those of its children. -/
def from_root_and_children (root_key : Bytes) (root_value : Option V) (children : IterInner) : Iter V :=
  ⟨root_value.map fun value => (root_key, value), children⟩

/-- An iterator over a whole tree. -/
def new (root : Option Nat) : Access V (Iter V) :=
  match root with
  | none => return empty
  | some a => do
    let root_node ← readCell a
    if root_node.is_leaf then
      return once (root_node.pfx, ← expect root_node.value rart.iter.Iter.missing_data)
    else return from_root_and_children root_node.pfx root_node.value (.from_node_and_key a root_node.pfx)

/-- An iterator from a bound on. -/
def new_with_start_bound (root : Option Nat) (start_bound : Bound) : Access V (Iter V) :=
  match root with
  | none => return empty
  | some a => do
    let root_node ← readCell a
    let root_key := root_node.pfx
    let satisfies_start := satisfies_start start_bound root_key
    if root_node.is_leaf then
      if satisfies_start then return once (root_key, ← expect root_node.value rart.iter.Iter.missing_data)
      else return empty
    else
      let children ← IterInner.new_with_start_bound a root_node start_bound
      if satisfies_start then return from_root_and_children root_key root_node.value children
      else return ⟨none, children⟩

end Iter

/-- `VersionedAdaptiveRadixTree::range` -/
def range (tree : VersionedAdaptiveRadixTree V) (start_bound end_bound : Bound) : Access V (Range V) := do
  let iter ← match start_bound with
    | .Unbounded => Iter.new tree.root
    | .Included key => Iter.new_with_start_bound tree.root (.Included key)
    | .Excluded key => Iter.new_with_start_bound tree.root (.Excluded key)
  return ⟨iter, end_bound⟩

end Model

section Borrowed

variable [Features] {h : Heap (VersionedNode V)} {roots : List Nat}

/-- The pairs that an iterator over a table is still to hand out, as they are in a heap. -/
def NodeIter.on (h : Heap (VersionedNode V)) (self : NodeIter) : List (UInt8 × NodeRef V) :=
  ((borrow h self.node).elim [] NodeRef.iter).drop self.taken

/-- The frame on a heap that does not change. -/
def IterFrameIter.on (h : Heap (VersionedNode V)) : IterFrameIter → iter.IterFrameIter (NodeRef V)
  | Plain iter => .Plain (iter.on h)
  | Leading first rest =>
    .Leading (first.bind fun p => (borrow h p.2).map fun child => (p.1, child)) (rest.on h)

/-- The walk that holds what it would read. -/
def IterInner.on (h : Heap (VersionedNode V)) (self : IterInner) : iter.IterInner (NodeRef V) :=
  ⟨self.node_iter_stack.map fun frame => (frame.1, frame.2.on h), self.cur_key, self.start_bound⟩

/-- The nodes that an iterator refers to are there. -/
def NodeIter.Live (h : Heap (VersionedNode V)) (self : NodeIter) : Prop :=
  ∃ node, h.node? self.node = some node

/-- The cell that the frame reads is allocated. -/
def IterFrameIter.Live (h : Heap (VersionedNode V)) : IterFrameIter → Prop
  | Plain iter => iter.Live h
  | Leading first rest => (∀ p, first = some p → ∃ node, h.node? p.2 = some node) ∧ rest.Live h

/-- All cells that the frames read are allocated. -/
def IterInner.Live (h : Heap (VersionedNode V)) (self : IterInner) : Prop :=
  ∀ frame ∈ self.node_iter_stack, frame.2.Live h

/-- A new frame has all children to hand out. -/
theorem NodeIter.on_new {a : Nat} {node : VersionedNode V} (hnode : h.node? a = some node) :
    NodeIter.on h ⟨a, 0⟩ = Node.iter (⟨h, a, node⟩ : NodeRef V) := by
  unfold NodeIter.on borrow
  rw [hnode]
  rfl

omit [Features] in
/-- An iterator over a table hands out its pairs one after the other, and reads one node for it. -/
theorem NodeIter.next_spec (hv : Valid h roots) {it : NodeIter} (hl : it.Live h) :
    ∃ r, (it.next : Access V _).ReturnsWithin h r 1 ∧
      ((r = none ∧ it.on h = []) ∨ ∃ k c node it', r = some ((k, c), it') ∧ h.node? c = some node ∧
        it.on h = (k, ⟨h, c, node⟩) :: it'.on h ∧ it'.Live h) := by
  obtain ⟨a, n⟩ := it
  obtain ⟨node, hnode⟩ := hl
  have hnode : h.node? a = some node := hnode
  refine ⟨_, returnsWithin_read hnode (returnsWithin_done _ 0), ?_⟩
  have htable := (hv.sound a node hnode).linked.table (hv.counted.older a node hnode)
  have hon : ∀ n, NodeIter.on h ⟨a, n⟩ = resolve (NodeRef.follow ⟨h, a, node⟩) (node.content.iter.drop n) := fun n => by
    rw [drop_resolve htable.present]
    unfold NodeIter.on borrow
    rw [hnode]
    rfl
  rw [hon]
  dsimp only
  cases hget : node.content.iter[n]? with
  | none =>
    rw [List.drop_eq_nil_of_le (List.getElem?_eq_none_iff.1 hget)]
    exact .inl ⟨rfl, rfl⟩
  | some p =>
    obtain ⟨k, c⟩ := p
    obtain ⟨child, hfollow⟩ := htable.present (k, c) (List.mem_of_getElem? hget)
    have hborrow := hfollow
    unfold NodeRef.follow at hborrow
    split at hborrow
    · obtain ⟨stored, hstored, rfl⟩ := Option.map_eq_some_iff.1 hborrow
      refine .inr ⟨k, c, stored, ⟨a, n + 1⟩, rfl, hstored, ?_, node, hnode⟩
      rw [hon, List.drop_eq_getElem?_toList_append, hget]
      unfold resolve
      rw [Option.toList_some, List.singleton_append, List.filterMap_cons_some (b := (k, ⟨h, c, stored⟩))]
      rw [hfollow]
      rfl
    · cases hborrow

omit [Features] in
/-- The same of the iterator of a frame. -/
theorem IterFrameIter.next_spec (hv : Valid h roots) {it : IterFrameIter} (hl : it.Live h) :
    ∃ r, (it.next : Access V _).ReturnsWithin h r 1 ∧
      ((r = none ∧ (it.on h).next = none) ∨ ∃ k c node it', r = some ((k, c), it') ∧ h.node? c = some node ∧
        (it.on h).next = some ((k, ⟨h, c, node⟩), it'.on h) ∧ it'.Live h) := by
  cases it with
  | Plain it =>
    obtain ⟨r, hreturns, hcases⟩ := NodeIter.next_spec hv hl
    refine ⟨_, hreturns.map fun r => r.map fun p => (p.1, Plain p.2), ?_⟩
    obtain ⟨rfl, hnil⟩ | ⟨k, c, node, it', rfl, hnode, hcons, hl'⟩ := hcases
    · refine .inl ⟨rfl, ?_⟩
      change (iter.IterFrameIter.Plain (NodeIter.on h it)).next = _
      rw [hnil]
      rfl
    · refine .inr ⟨k, c, node, .Plain it', rfl, hnode, ?_, hl'⟩
      change (iter.IterFrameIter.Plain (NodeIter.on h it)).next = _
      rw [hcons]
      rfl
  | Leading first rest =>
    obtain ⟨hfirst, hl⟩ := hl
    cases first with
    | some p =>
      obtain ⟨k, c⟩ := p
      obtain ⟨node, hnode⟩ := hfirst _ rfl
      have hnode : h.node? c = some node := hnode
      refine ⟨_, returnsWithin_done _ 1, .inr ⟨k, c, node, .Leading none rest, rfl, hnode, ?_, ?_, hl⟩⟩
      · simp only [IterFrameIter.on, borrow, Option.bind_some, hnode]
        rfl
      · intro p hp
        cases hp
    | none =>
      obtain ⟨r, hreturns, hcases⟩ := NodeIter.next_spec hv hl
      refine ⟨_, hreturns.map fun r => r.map fun p => (p.1, Leading none p.2), ?_⟩
      obtain ⟨rfl, hnil⟩ | ⟨k, c, node, it', rfl, hnode, hcons, hl'⟩ := hcases
      · refine .inl ⟨rfl, ?_⟩
        change (iter.IterFrameIter.Leading none (NodeIter.on h rest)).next = _
        rw [hnil]
        rfl
      · refine .inr ⟨k, c, node, .Leading none it', rfl, hnode, ?_, ⟨fun p hp => (by cases hp), hl'⟩⟩
        change (iter.IterFrameIter.Leading none (NodeIter.on h rest)).next = _
        rw [hcons]
        rfl

omit [Features] in
/-- Going back to the frame above is the same on both sides. -/
theorem IterInner.back_to_on (h : Heap (VersionedNode V)) (cur_key : Bytes) (stack : List (Nat × IterFrameIter)) :
    iter.IterInner.back_to cur_key (stack.map fun frame => (frame.1, frame.2.on h)) = back_to cur_key stack := by
  cases stack <;> rfl

omit [Features] in
/-- A child that is there, with what is on the stack, stays there. -/
theorem IterInner.live_enter {c : Nat} {node : VersionedNode V} (hnode : h.node? c = some node) {tree_depth : Nat}
    {stack : List (Nat × IterFrameIter)} (hstack : ∀ frame ∈ stack, frame.2.Live h) (cur_key : Bytes)
    (start_bound : Option Bound) : (enter c node tree_depth stack cur_key start_bound).2.Live h := by
  have hpush : ∀ frame ∈ if (!node.is_leaf) = true then (tree_depth + node.pfx.length, .Plain ⟨c, 0⟩) :: stack
      else stack, frame.2.Live h := fun frame hframe => by
    split at hframe
    · cases List.mem_cons.1 hframe with
      | inl heq =>
        rw [heq]
        exact ⟨node, hnode⟩
      | inr hmem => exact hstack frame hmem
    · exact hstack frame hframe
  unfold enter
  dsimp only
  split
  · split
    · split <;> exact hpush
    · exact hpush
  · exact hpush

/-- The frame of a child is over what the child leads to. -/
theorem IterInner.push_on {c : Nat} {node : VersionedNode V} (hnode : h.node? c = some node) {b : Bool}
    {depth tree_depth : Nat} {it : IterFrameIter} {stack : List (Nat × IterFrameIter)} :
    (if b = true then (depth, iter.IterFrameIter.Plain (Node.iter (⟨h, c, node⟩ : NodeRef V))) ::
        (tree_depth, it.on h) :: stack.map fun frame => (frame.1, frame.2.on h)
      else (tree_depth, it.on h) :: stack.map fun frame => (frame.1, frame.2.on h)) =
      (if b = true then (depth, .Plain ⟨c, 0⟩) :: (tree_depth, it) :: stack else (tree_depth, it) :: stack).map
        fun frame => (frame.1, frame.2.on h) := by
  split
  · rw [List.map_cons, List.map_cons, IterFrameIter.on, NodeIter.on_new hnode]
  · rfl

/-- A turn of a walk reads two nodes at most. It is the turn of the walk that holds what it
reads. -/
theorem IterInner.turn_spec (hv : Valid h roots) {self : IterInner} (hl : self.Live h) :
    ∃ r, (self.turn : Access V _).ReturnsWithin h r 2 ∧ (self.on h).turn = r.map (fun p => (p.1, p.2.on h)) ∧
      ∀ p, r = some p → p.2.Live h := by
  obtain ⟨stack, cur_key, start_bound⟩ := self
  cases stack with
  | nil => exact ⟨none, returnsWithin_done _ 2, rfl, fun p hp => by cases hp⟩
  | cons frame stack =>
    obtain ⟨tree_depth, last_iter⟩ := frame
    have hbelow : ∀ frame ∈ stack, frame.2.Live h := fun frame hframe => hl frame (List.mem_cons_of_mem _ hframe)
    obtain ⟨r, hreturns, hcases⟩ := IterFrameIter.next_spec hv (hl _ List.mem_cons_self)
    obtain ⟨rfl, hnext⟩ | ⟨k, c, node, it', rfl, hnode, hnext, hl'⟩ := hcases
    · refine ⟨some (none, ⟨stack, back_to (cur_key.take tree_depth) stack, start_bound⟩), ?_, ?_, fun p hp => ?_⟩
      · refine ReturnsWithin.bind (n := 1) (m := 1) hreturns ?_
        exact returnsWithin_done _ 1
      · simp only [IterInner.on, List.map_cons, iter.IterInner.turn, hnext, Option.map_some, back_to_on]
      · cases hp
        exact hbelow
    · refine ⟨some (enter c node tree_depth ((tree_depth, it') :: stack) (cur_key.take tree_depth) start_bound),
        ?_, ?_, fun p hp => ?_⟩
      · refine ReturnsWithin.bind (n := 1) (m := 1) hreturns ?_
        exact returnsWithin_read hnode (returnsWithin_done _ 0)
      · have hpfx : Node.pfx (⟨h, c, node⟩ : NodeRef V) = node.pfx := rfl
        have hleaf : Node.is_leaf (⟨h, c, node⟩ : NodeRef V) = node.is_leaf := rfl
        have hvalue : Node.value (⟨h, c, node⟩ : NodeRef V) = node.value := rfl
        simp only [IterInner.on, List.map_cons, iter.IterInner.turn, hnext, Option.map_some, hpfx, hleaf, hvalue]
        rw [push_on hnode]
        unfold enter
        cases node.value with
        | none => rfl
        | some v =>
          cases start_bound with
          | none => rfl
          | some start_bound =>
            dsimp only
            split <;> rfl
      · cases hp
        refine live_enter hnode (fun frame hframe => ?_) _ _
        cases List.mem_cons.1 hframe with
        | inl heq =>
          rw [heq]
          exact hl'
        | inr hmem => exact hbelow frame hmem

end Borrowed

end shared

end rart.versioned_tree
