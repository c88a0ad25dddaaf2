import Mathlib.Algebra.Order.BigOperators.Group.Finset
import Rart.Versioned.Sharing

open RcHeap
open RcHeap.Heap (Below Valid)
open rart.utils

namespace rart.versioned_tree

open VersionedAdaptiveRadixTree

variable {V E : Type} [Features]

omit [Features] in
theorem mem_rootsOf_iff {trees : List (Option (VersionedAdaptiveRadixTree V))} {a : Nat} :
    a ∈ rootsOf trees ↔ ∃ i tree, member trees i = some tree ∧ tree.root = some a := by
  constructor
  · intro ha
    obtain ⟨tree, htree, hroot⟩ := List.mem_flatMap.1 ha
    cases tree with
    | none => cases hroot
    | some tree =>
      obtain ⟨i, hi, hget⟩ := List.mem_iff_getElem.1 htree
      refine ⟨i, tree, Option.join_eq_some_iff.2 (List.getElem?_eq_some_iff.2 ⟨hi, hget⟩), ?_⟩
      exact Option.mem_toList.1 hroot
  · rintro ⟨i, tree, hmember, hroot⟩
    obtain ⟨hi, hget⟩ := member_eq_some hmember
    exact mem_rootsOf (List.mem_of_getElem hget) hroot

/-- The nodes that are allocated are those that some tree reaches. -/
theorem Represents.live_iff {forest : Forest V} {maps : RefForest V} (hr : Represents forest maps) {a : Nat} :
    (∃ node, forest.heap.node? a = some node) ↔
      ∃ i tree, member forest.trees i = some tree ∧ tree.Reaches forest.heap a := by
  constructor
  · rintro ⟨node, hnode⟩
    obtain ⟨r, hroot, hbelow⟩ := hr.valid.counted.below_root hnode
    obtain ⟨i, tree, hmember, hr'⟩ := mem_rootsOf_iff.1 hroot
    exact ⟨i, tree, hmember, r, hr', hbelow⟩
  · rintro ⟨i, tree, _, r, _, hbelow⟩
    exact hbelow.live

/-- After any sequence of commands, the allocated nodes are those that some tree reaches, and
the count of each is the number of trees and of nodes, by their edges, that refer to it. Where
all trees were dropped, nothing is left. -/
theorem Forest.allocated_iff_reached (cs : List (Command V E)) :
    ∃ (replies : List (Option (Reply V E))) (forest : Forest V),
      runForest .empty cs = .ok (replies, forest) ∧
      (∀ a, (∃ node, forest.heap.node? a = some node) ↔
        ∃ i tree, member forest.trees i = some tree ∧ tree.Reaches forest.heap a) ∧
      (∀ a, forest.heap.count a = (rootsOf forest.trees).count a + forest.heap.inner.count a) ∧
      ((∀ i, member forest.trees i = none) → ∀ a, forest.heap.node? a = none) := by
  obtain ⟨forest, hrun, hr⟩ := runForest_spec represents_empty cs
  refine ⟨_, forest, hrun, fun a => hr.live_iff, hr.valid.counted.count_eq, fun hdropped a => ?_⟩
  by_contra hlive
  obtain ⟨i, tree, hmember, _⟩ := hr.live_iff.1 (Option.ne_none_iff_exists'.1 hlive)
  rw [hdropped i] at hmember
  cases hmember

section Space

variable {h : Heap (VersionedNode V)} {roots : List Nat} {a b : Nat}

/-- Every node is on the way to a key that is stored below it. -/
theorem visited_of_below (hv : Valid h roots) (hbelow : Below h a b) :
    ∃ key value, find h a key = some value ∧ b ∈ visited h a key := by
  induction hbelow with
  | here hnode =>
    have hwf := wf_borrow hv hnode
    obtain ⟨e, he⟩ := List.exists_mem_of_ne_nil _ hwf.entries_ne_nil
    refine ⟨e.1, e.2, ?_, mem_visited_self hnode⟩
    unfold find borrow
    rw [hnode]
    exact hwf.mem_entries_iff.1 he
  | @there a b c node hnode hc _ ih =>
    obtain ⟨key, value, hfind, hvisited⟩ := ih
    obtain ⟨⟨k, c⟩, hmem, rfl⟩ := List.mem_map.1 hc
    have hlinked := (hv.sound a node hnode).linked
    obtain ⟨child, hchild, hhead, _⟩ := hlinked.edges (k, c) hmem
    have hkey : key.head? = some k := by
      unfold find borrow at hfind
      rw [hchild] at hfind
      exact Trie.head?_of_find (c := (⟨h, c, child⟩ : NodeRef V)) hhead hfind
    obtain ⟨rest, rfl⟩ := List.head?_eq_some_iff.1 hkey
    have hlookup := hlinked.repr.ascending.lookup_eq_some_iff.2 hmem
    refine ⟨node.pfx ++ k :: rest, value, ?_, ?_⟩
    · rw [find_edge hv hnode, hlookup]
      exact hfind
    · rw [visited_goes_on hv hnode hlookup]
      exact List.mem_cons_of_mem _ hvisited

theorem length_visited_le (hv : Valid h roots) (key : Bytes) : (visited h a key).length ≤ key.length + 1 := by
  unfold visited borrow
  cases hnode : h.node? a with
  | none => exact Nat.zero_le _
  | some node =>
    rw [Option.map_some, Option.elim_some, List.length_map]
    exact probe.descent_length_le (wf_borrow hv hnode) key

/-- The room that the entries of a map may take: a node for every byte of a key, and one more. -/
def room (m : RefMap V) : Nat := ∑ key ∈ m.keys, (key.length + 1)

omit [Features] in
theorem live_le_card {cells : Finset Nat} (hcells : ∀ a node, h.node? a = some node → a ∈ cells) :
    h.live ≤ cells.card := by
  have hcell : h.cells = (List.range h.cells.length).map h.cell? := by
    refine List.ext_getElem (by simp) fun a ha _ => ?_
    rw [List.getElem_map, List.getElem_range]
    exact ((congrArg Option.join (List.getElem?_eq_getElem ha)).trans rfl).symm
  have hnodup := (List.nodup_range (n := h.cells.length)).filter fun a => (h.cell? a).isSome
  have hlive : h.live = ((List.range h.cells.length).filter fun a => (h.cell? a).isSome).toFinset.card := by
    rw [List.toFinset_card_of_nodup hnodup, ← List.countP_eq_length_filter]
    conv_lhs => rw [Heap.live, hcell, List.countP_map]
    rfl
  rw [hlive]
  refine Finset.card_le_card fun a ha => ?_
  obtain ⟨_, hsome⟩ := List.mem_filter.1 (List.mem_toFinset.1 ha)
  obtain ⟨cell, hcell⟩ := Option.isSome_iff_exists.1 hsome
  exact hcells a cell.node (Heap.node?_of_cell? hcell)

/-- The cells on the ways to the keys of a map. -/
noncomputable def ways (h : Heap (VersionedNode V)) (tree : VersionedAdaptiveRadixTree V) (m : RefMap V) : Finset Nat :=
  m.keys.biUnion fun key => (tree.visited h key).toFinset

theorem card_ways_le {tree : VersionedAdaptiveRadixTree V} (hv : Valid h (tree.root.toList ++ roots))
    (m : RefMap V) : (ways h tree m).card ≤ room m := by
  refine Finset.card_biUnion_le.trans (Finset.sum_le_sum fun key _ => ?_)
  refine (List.toFinset_card_le _).trans ?_
  unfold VersionedAdaptiveRadixTree.visited
  cases tree.root with
  | none => exact Nat.zero_le _
  | some root => exact length_visited_le hv key

variable {forest : Forest V} {maps : RefForest V}

theorem Represents.mem_ways (hr : Represents forest maps) {node : VersionedNode V}
    (hnode : forest.heap.node? a = some node) :
    ∃ i tree m, member forest.trees i = some tree ∧ member maps i = some m ∧ a ∈ ways forest.heap tree m := by
  obtain ⟨i, tree, hmember, r, hroot, hbelow⟩ := hr.live_iff.1 ⟨node, hnode⟩
  obtain ⟨m, hm, hs⟩ := hr.pair hmember
  have hroot : tree.root = some r := hroot
  obtain ⟨key, value, hfind, hvisited⟩ := visited_of_below hr.valid hbelow
  refine ⟨i, tree, m, hmember, hm, Finset.mem_biUnion.2 ⟨key, ?_, ?_⟩⟩
  · rw [RefMap.mem_keys_iff, ← hs.lookup_eq]
    unfold VersionedAdaptiveRadixTree.lookup
    rw [hroot, Option.bind_some, hfind]
    rfl
  · unfold VersionedAdaptiveRadixTree.visited
    rw [hroot]
    exact List.mem_toFinset.2 hvisited

/-- What a forest keeps allocated is bounded by what its trees hold now, whatever they held
before: every node lies on the way to a key of some tree. -/
theorem Forest.live_le (cs : List (Command V E)) :
    ∃ (replies : List (Option (Reply V E))) (forest : Forest V),
      runForest .empty cs = .ok (replies, forest) ∧
      forest.heap.live ≤ ∑ i ∈ Finset.range forest.trees.length, (member (runMaps [] cs).2 i).elim 0 room := by
  obtain ⟨forest, hrun, hr⟩ := runForest_spec represents_empty cs
  refine ⟨_, forest, hrun, ?_⟩
  let used (i : Nat) : Finset Nat := (member forest.trees i).elim ∅ fun tree =>
    (member (runMaps [] cs).2 i).elim ∅ (ways forest.heap tree)
  have hused : forest.heap.live ≤ ((Finset.range forest.trees.length).biUnion used).card := by
    refine live_le_card fun a node hnode => ?_
    obtain ⟨i, tree, m, hmember, hm, hways⟩ := hr.mem_ways hnode
    refine Finset.mem_biUnion.2 ⟨i, Finset.mem_range.2 (member_eq_some hmember).1, ?_⟩
    simp only [used, hmember, hm, Option.elim_some]
    exact hways
  refine hused.trans (Finset.card_biUnion_le.trans (Finset.sum_le_sum fun i _ => ?_))
  cases hmember : member forest.trees i with
  | none => simp [used, hmember]
  | some tree =>
    obtain ⟨m, hm, _⟩ := hr.pair hmember
    simp only [used, hmember, hm, Option.elim_some]
    exact card_ways_le (hr.live hmember).valid m

end Space

end rart.versioned_tree
