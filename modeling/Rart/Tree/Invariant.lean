import Rart.Tree.Load

open SortedAssoc
open rart.node rart.utils rart.Trie

namespace rart.tree

variable {V E : Type}

section Counting

variable {N : Type} [Node N V]

/-- The number of nodes that hold a value, at and below a node. -/
def valued_nodes (n : N) : Nat :=
  (Node.value n).toList.length + ((Node.iter n).attach.map fun ⟨p, _hp⟩ => valued_nodes p.2).sum
termination_by Node.rank n
decreasing_by exact Node.rank_iter _hp

/-- Every entry is the value of one node. -/
theorem valued_nodes_eq (n : N) : valued_nodes n = (entries n).length := by
  induction hn : Node.rank n using Nat.strongRecOn generalizing n with
  | ind r ih =>
    subst hn
    rw [valued_nodes, entries_eq, List.length_append, List.length_flatMap]
    congr 1
    · cases Node.value n <;> rfl
    · have hall : ((Node.iter n).attach.map fun ⟨p, _hp⟩ => valued_nodes p.2) =
          (Node.iter n).map fun p => valued_nodes p.2 :=
        (List.map_subtype fun _ _ => rfl).trans (by rw [List.unattach_attach])
      rw [hall]
      congr 1
      refine List.map_congr_left fun p hp => ?_
      rw [ih _ (Node.rank_iter hp) p.2 rfl, List.length_map]

end Counting

variable [Features]

/-- A new tree, or one that a loader makes of keys in the order that it asks for. -/
inductive Fresh : AdaptiveRadixTree V → Prop where
  | new : Fresh .new
  | sorted {items : List (Bytes × V)} {tree : AdaptiveRadixTree V}
      (hsorted : items.Pairwise fun p q => p.1 ≤ q.1)
      (hload : AdaptiveRadixTree.bulk_load_sorted items = .ok tree) : Fresh tree
  | unique {items : List (Bytes × V)} {tree : AdaptiveRadixTree V}
      (hasc : items.Pairwise fun p q => p.1 < q.1)
      (hload : AdaptiveRadixTree.bulk_load_sorted_unique items = .ok tree) : Fresh tree
  | by_index {σ : Type} {len : Nat} {key_at : Nat → Bytes} {take_value_at : Nat → σ → V × σ}
      {s s' : σ} {calls : List Nat} {tree : AdaptiveRadixTree V}
      (hasc : ∀ i j, i < j → j < len → key_at i < key_at j)
      (hload : AdaptiveRadixTree.bulk_load_sorted_unique_by_index len key_at take_value_at s =
        .ok (tree, s', calls)) : Fresh tree

variable {start tree before after : AdaptiveRadixTree V} {m : RefMap V}

theorem Fresh.loads (h : Fresh start) : ∃ m, Loads start m := by
  cases h with
  | new => exact ⟨∅, loads_new⟩
  | sorted hsorted hload =>
    obtain ⟨tree, htree, hloads⟩ := bulk_load_sorted_loads hsorted
    cases hload.symm.trans htree
    exact ⟨_, hloads⟩
  | unique hasc hload =>
    obtain ⟨tree, htree, hloads⟩ := bulk_load_sorted_unique_loads hasc
    cases hload.symm.trans htree
    exact ⟨_, hloads⟩
  | by_index hasc hload =>
    obtain ⟨tree, htree, hloads⟩ := bulk_load_sorted_unique_by_index_loads hasc _ _
    cases hload.symm.trans htree
    exact ⟨_, hloads⟩

section Soundness

/-- What every node of a tree looks like. -/
structure NodeSound (node : DefaultNode V) : Prop where
  edges : ∀ p ∈ node.iter, ∃ rest, p.2.pfx = p.1 :: rest
  distinct : (node.iter.map Prod.fst).Nodup
  counted : node.num_children = node.iter.length
  occupied : node.iter = [] → node.value.isSome = true
  layout : LayoutFits node

/-- The representation invariant of a tree. -/
structure Sound (tree : AdaptiveRadixTree V) : Prop where
  nodes : EveryNode NodeSound tree
  root : tree.root = none ↔ tree.len = 0
  len : tree.len = tree.root.elim 0 valued_nodes
  /-- A lookup visits at most one node more than its key has bytes. -/
  lookup : ∀ root, tree.root = some root → ∀ key, ∃ rounds,
    probe.get_bytes_rounds root key 0 = .ok (find root key, rounds) ∧ rounds ≤ key.length + 1

theorem nodeSound_of_wf {node : DefaultNode V} (hwf : Wf node) (hfits : LayoutFits node) :
    NodeSound node where
  edges p hp := List.head?_eq_some_iff.1 (hwf.edges hp)
  distinct := Ascending.nodup_keys hwf.ascending
  counted := (children_of_wf hwf).repr.num_children_eq
  occupied hempty := by
    obtain ⟨v, hv⟩ := hwf.occupied hempty
    exact Option.isSome_iff_exists.2 ⟨v, hv⟩
  layout := hfits

/-- A tree that stands for a map, with layouts that fit, is sound. -/
theorem Represents.sound (h : Represents tree m) (hfits : EveryNode LayoutFits tree) : Sound tree where
  nodes root hroot := by
    have hwf := h.wf root hroot
    have hboth := (Every.of_wf (fun _ hnode => hnode) hwf).and (hfits root hroot)
    exact hboth.imp fun node hnode => nodeSound_of_wf hnode.1 hnode.2
  root := by
    rw [h.len, h.lists.size, List.length_eq_zero_iff]
    cases hroot : tree.root with
    | none => exact iff_of_true rfl rfl
    | some root => exact iff_of_false (by simp) (h.wf root hroot).entries_ne_nil
  len := by
    rw [h.len, h.lists.size]
    cases hroot : tree.root with
    | none => rfl
    | some root => exact (valued_nodes_eq root).symm
  lookup root hroot key := by
    have hwf := h.wf root hroot
    have hrounds := probe.get_bytes_rounds_eq hwf (Nat.zero_le key.length)
    rw [List.drop_zero] at hrounds
    exact ⟨_, hrounds, probe.descent_length_le hwf key⟩

/-- Mutations keep the layouts fitting. -/
theorem runTree_layoutFits (h : Represents tree m) (hfits : EveryNode LayoutFits tree)
    (ops : List (Op V E)) :
    ∃ replies after, runTree tree ops = .ok (replies, after) ∧ Represents after (runMap m ops).2 ∧
      EveryNode LayoutFits after := by
  induction ops generalizing tree m with
  | nil => exact ⟨[], tree, rfl, h, hfits⟩
  | cons op ops ih =>
    obtain ⟨next, hstep, hsets⟩ := op.step_sets h
    obtain ⟨replies, after, hrun, hafter, hfits'⟩ :=
      ih (hsets.represents h) (hsets.changed.layoutFits h hfits)
    refine ⟨(op.onMap m).1 :: replies, after, ?_, hafter, hfits'⟩
    rw [runTree, hstep, ok_bind]
    dsimp only
    rw [hrun]
    rfl

/-- After any sequence of mutations of a new or loaded tree, none of which panics, the
representation invariant holds. -/
theorem AdaptiveRadixTree.representation_invariant (hstart : Fresh start) (ops : List (Op V E)) :
    ∃ replies tree, runTree start ops = .ok (replies, tree) ∧ Sound tree := by
  obtain ⟨m, hloads⟩ := hstart.loads
  have hfits : EveryNode LayoutFits start := fun root hroot =>
    (hloads.canonical root hroot).imp fun _ hnode => hnode.1
  obtain ⟨replies, tree, hrun, hafter, hfits'⟩ := runTree_layoutFits hloads.represents hfits ops
  exact ⟨replies, tree, hrun, hafter.sound hfits'⟩

omit [Features] in
/-- From a loaded tree, the removals take the value of an inner node and collapse the root, and
the insert splits a leaf. -/
theorem AdaptiveRadixTree.representation_invariant_loaded :
    letI : Features := ⟨none⟩
    ∃ start replies tree,
      bulk_load_sorted_unique [([1], 10), ([1, 2], 20), ([1, 3, 4], 30), ([5], 40)] = .ok start ∧
      runTree start ([.remove_k [1], .delete_k [5], .insert_k [1, 3, 5] 50] : List (Op Nat Empty)) =
        .ok (replies, tree) ∧ Sound tree := by
  let : Features := ⟨none⟩
  have hasc : [([1], 10), ([1, 2], 20), ([1, 3, 4], 30), ([5], 40)].Pairwise
      fun p q : Bytes × Nat => p.1 < q.1 := by decide
  obtain ⟨start, hload, _⟩ := bulk_load_sorted_unique_loads hasc
  obtain ⟨replies, tree, hrun, hsound⟩ := AdaptiveRadixTree.representation_invariant (.unique hasc hload)
    ([.remove_k [1], .delete_k [5], .insert_k [1, 3, 5] 50] : List (Op Nat Empty))
  exact ⟨start, replies, tree, hload, hrun, hsound⟩

end Soundness

section Compression

/-- A mutation takes the value out of a node with exactly one child. -/
def Op.Strands (op : Op V E) (tree : AdaptiveRadixTree V) : Prop :=
  ∃ root node value, tree.root = some root ∧ node_at root op.key = some node ∧ node.value = some value ∧
    node.num_children = 1 ∧ op.left (some value) = none

/-- In every tree of a run, the last one included, the nodes without a value have at least
two children. -/
def BranchesThroughout (tree : AdaptiveRadixTree V) : List (Op V E) → Prop
  | [] => EveryNode Branches tree
  | op :: ops => EveryNode Branches tree ∧
    ∀ reply next, op.onTree tree = .ok (reply, next) → BranchesThroughout next ops

/-- No mutation of a run takes the value out of a node with exactly one child. -/
def SparesThroughout (tree : AdaptiveRadixTree V) : List (Op V E) → Prop
  | [] => True
  | op :: ops => ¬ op.Strands tree ∧
    ∀ reply next, op.onTree tree = .ok (reply, next) → SparesThroughout next ops

theorem Op.strands_iff (h : Represents tree m) (op : Op V E) :
    op.Strands tree ↔ rart.tree.Strands tree op.key (op.left (m.lookup op.key)) := by
  have hfound : ∀ {root node value}, tree.root = some root → node_at root op.key = some node →
      node.value = some value → m.lookup op.key = some value := by
    intro root node value hroot hnode hvalue
    rw [← h.find, hroot, Option.bind_some, find_eq_node_at, hnode]
    exact hvalue
  constructor
  · rintro ⟨root, node, value, hroot, hnode, hvalue, hone, hleft⟩
    rw [hfound hroot hnode hvalue]
    exact ⟨hleft, root, node, hroot, hnode, by rw [hvalue]; rfl, hone⟩
  · rintro ⟨hleft, root, node, hroot, hnode, hvalue, hone⟩
    obtain ⟨value, hvalue⟩ := Option.isSome_iff_exists.1 hvalue
    rw [hfound hroot hnode hvalue] at hleft
    exact ⟨root, node, value, hroot, hnode, hvalue, hone, hleft⟩

/-- From a tree whose nodes branch, all trees of a run do if and only if no mutation
strands a child. -/
theorem branchesThroughout_iff (h : Represents tree m) (hfits : EveryNode LayoutFits tree)
    (hbranches : EveryNode Branches tree) (ops : List (Op V E)) :
    BranchesThroughout tree ops ↔ SparesThroughout tree ops := by
  induction ops generalizing tree m with
  | nil => exact iff_of_true hbranches trivial
  | cons op ops ih =>
    obtain ⟨next, hstep, hsets⟩ := op.step_sets h
    have hnext : ∀ {P : AdaptiveRadixTree V → Prop},
        (∀ reply next, op.onTree tree = .ok (reply, next) → P next) ↔ P next := by
      intro P
      constructor
      · exact fun hall => hall _ _ hstep
      · intro hP reply next' hstep'
        cases hstep.symm.trans hstep'
        exact hP
    unfold BranchesThroughout SparesThroughout
    rw [hnext, hnext, op.strands_iff h, ← hsets.changed.branches_iff h hfits hbranches]
    have hrest := ih (hsets.represents h) (hsets.changed.layoutFits h hfits)
    constructor
    · rintro ⟨_, hthroughout⟩
      have hfirst : EveryNode Branches next := by
        cases ops with
        | nil => exact hthroughout
        | cons _ _ => exact hthroughout.1
      exact ⟨hfirst, (hrest hfirst).1 hthroughout⟩
    · rintro ⟨hfirst, hspares⟩
      exact ⟨hbranches, (hrest hfirst).2 hspares⟩

/-- In a run from a new or loaded tree, the nodes without a value keep at least two children
throughout, if and only if no mutation takes the value out of a node with exactly one. -/
theorem AdaptiveRadixTree.compressed_iff (hstart : Fresh start) (ops : List (Op V E)) :
    BranchesThroughout start ops ↔ SparesThroughout start ops := by
  obtain ⟨m, hloads⟩ := hstart.loads
  exact branchesThroughout_iff hloads.represents
    (fun root hroot => (hloads.canonical root hroot).imp fun _ hnode => hnode.1)
    (fun root hroot => (hloads.canonical root hroot).imp fun _ hnode => hnode.2.1) ops

omit [Features] in
/-- From a loaded tree, the first removal collapses the root into the child that is left. The
second takes the value out of that node, which has a single child itself. -/
theorem AdaptiveRadixTree.compressed_iff_loaded :
    letI : Features := ⟨none⟩
    ∃ start, bulk_load_sorted_unique [([1], 10), ([1, 2], 20), ([5], 30)] = .ok start ∧
      (BranchesThroughout start ([.remove_k [5], .remove_k [1]] : List (Op Nat Empty)) ↔
        SparesThroughout start ([.remove_k [5], .remove_k [1]] : List (Op Nat Empty))) := by
  let : Features := ⟨none⟩
  have hasc : [([1], 10), ([1, 2], 20), ([5], 30)].Pairwise fun p q : Bytes × Nat => p.1 < q.1 := by decide
  obtain ⟨start, hload, _⟩ := bulk_load_sorted_unique_loads hasc
  exact ⟨start, hload, AdaptiveRadixTree.compressed_iff (.unique hasc hload) _⟩

omit [Features] in
/-- The value of a node with one child is removed: the child stays a node of its own. -/
theorem AdaptiveRadixTree.removal_strands :
    letI : Features := ⟨none⟩
    ¬ ∀ start : AdaptiveRadixTree Nat, Fresh start →
      ∀ (ops : List (Op Nat Empty)) (replies : List (Reply Nat Empty)) (tree : AdaptiveRadixTree Nat),
        runTree start ops = .ok (replies, tree) → EveryNode Branches tree := by
  let : Features := ⟨none⟩
  intro hall
  have hend : ((runTree (.new : AdaptiveRadixTree Nat)
      [(.insert_k [1] 1 : Op Nat Empty), .insert_k [1, 2] 2, .remove_k [1]]).toOption.bind
      fun r => r.2.root.map fun root => (root.value, root.iter.length)) = some (none, 1) := by
    decide +kernel
  obtain ⟨⟨replies, tree⟩, hsome, hmap⟩ := Option.bind_eq_some_iff.1 hend
  obtain ⟨root, hroot, heq⟩ := Option.map_eq_some_iff.1 hmap
  obtain ⟨hvalue, hone⟩ := Prod.mk.inj heq
  cases hrun : runTree (.new : AdaptiveRadixTree Nat)
      [(.insert_k [1] 1 : Op Nat Empty), .insert_k [1, 2] 2, .remove_k [1]] with
  | error e =>
    rw [hrun] at hsome
    cases hsome
  | ok r =>
    rw [hrun] at hsome
    cases hsome
    have htwo := (hall .new .new _ _ _ hrun root hroot).here hvalue
    omega

end Compression

end rart.tree
