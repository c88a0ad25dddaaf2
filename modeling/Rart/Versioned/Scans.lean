import Rart.Tree.Scans

open SortedAssoc RcHeap LexOrder
open RcHeap.Heap (Valid Keeps)
open rart.iter rart.node rart.query rart.utils rart.Trie

namespace rart.versioned_tree

open VersionedAdaptiveRadixTree

variable {V E : Type} [Features]

/-- The forests that commands and conversions lead to. -/
inductive Forest.Reachable : Forest V → Prop where
  | empty : Reachable .empty
  | command {E : Type} {forest next : Forest V} (hforest : Reachable forest) (c : Command V E)
      {reply : Option (Reply V E)} (hstep : c.onForest forest = .ok (reply, next)) : Reachable next
  | convert {forest : Forest V} (hforest : Reachable forest) {i : Nat}
      {source : VersionedAdaptiveRadixTree V} (hmember : member forest.trees i = some source)
      {plain : rart.tree.AdaptiveRadixTree V} {heap : Heap (VersionedNode V)}
      (hconvert : source.into_unversioned forest.heap = .ok (plain, heap)) :
      Reachable ⟨heap, forest.trees.set i none⟩

theorem Forest.Reachable.represents {forest : Forest V} (h : forest.Reachable) :
    ∃ maps, Represents forest maps := by
  induction h with
  | empty => exact ⟨[], represents_empty⟩
  | command _ c hstep ih =>
    obtain ⟨maps, hr⟩ := ih
    obtain ⟨after, hafter, hnext⟩ := c.step hr
    cases hstep.symm.trans hafter
    exact ⟨_, hnext⟩
  | convert _ hmember hconvert ih =>
    obtain ⟨maps, hr⟩ := ih
    obtain ⟨m, _, hs⟩ := hr.pair hmember
    obtain ⟨plain, heap, hplain, _, hv, hk⟩ := into_unversioned_spec (hr.live hmember) hs
    cases hconvert.symm.trans hplain
    exact ⟨_, hr.set hmember hv hk .none⟩

section Members

variable {forest : Forest V} {i : Nat} {tree : VersionedAdaptiveRadixTree V}

/-- The root node of a tree, read from the heap. -/
def VersionedAdaptiveRadixTree.root_node (tree : VersionedAdaptiveRadixTree V) (h : Heap (VersionedNode V)) :
    Option (NodeRef V) := tree.root.bind (borrow h)

/-- Every tree of a forest holds the entries that its `get_k` finds. -/
theorem Forest.Reachable.holds (h : forest.Reachable) (hmember : member forest.trees i = some tree) :
    ∃ m, Holds (tree.root_node forest.heap) m ∧ ∀ key, tree.get_k forest.heap key = .ok (m.lookup key) := by
  obtain ⟨maps, hr⟩ := h.represents
  obtain ⟨m, _, hs⟩ := hr.pair hmember
  have hl := hr.live hmember
  refine ⟨m, ⟨wf_root hl, fun key => ?_⟩, fun key => ?_⟩
  · unfold root_node
    rw [Option.bind_assoc]
    exact hs.lookup_eq key
  · rw [hl.get_k_eq, hs.lookup_eq]

/-- A versioned and an unversioned tree in which the same keys are found hold the same
entries. -/
theorem Forest.Reachable.holds_both (h : forest.Reachable) (hmember : member forest.trees i = some tree)
    {plain : rart.tree.AdaptiveRadixTree V} (hplain : rart.tree.Reachable plain)
    (hsame : ∀ key, tree.get_k forest.heap key = plain.get_k key) :
    ∃ m, Holds (tree.root_node forest.heap) m ∧ Holds plain.root m := by
  obtain ⟨m, hm, hget⟩ := h.holds hmember
  obtain ⟨m', hm'⟩ := hplain.represents
  have heq : m = m' := by
    apply Finmap.ext_lookup
    intro key
    have hkey := hsame key
    rw [hget, hm'.get_k_eq] at hkey
    exact Except.ok.inj hkey
  subst heq
  exact ⟨m, hm, hm'.holds⟩

/-- A versioned and an unversioned tree of the same entries hand out the same, and so do
the intersections of two such pairs. -/
theorem Forest.reads_agree (h : forest.Reachable) (hmember : member forest.trees i = some tree)
    {plain : rart.tree.AdaptiveRadixTree V} (hplain : rart.tree.Reachable plain)
    (hsame : ∀ key, tree.get_k forest.heap key = plain.get_k key) :
    SameScans (tree.root_node forest.heap) plain.root ∧
      ∀ (j : Nat) (other : VersionedAdaptiveRadixTree V) (plain' : rart.tree.AdaptiveRadixTree V),
        member forest.trees j = some other → rart.tree.Reachable plain' →
        (∀ key, other.get_k forest.heap key = plain'.get_k key) →
        SameIntersections (tree.root_node forest.heap) (other.root_node forest.heap)
          plain.root plain'.root := by
  obtain ⟨m, hm, hm'⟩ := h.holds_both hmember hplain hsame
  refine ⟨hm.sameScans hm', fun j other plain' hother hplain' hsame' => ?_⟩
  obtain ⟨n, hn, hn'⟩ := h.holds_both hother hplain' hsame'
  exact hm.sameIntersections hn hm' hn'

end Members

theorem Forest.Reachable.run {forest after : Forest V} (h : forest.Reachable) {cs : List (Command V E)}
    {replies : List (Option (Reply V E))} (hrun : runForest forest cs = .ok (replies, after)) :
    after.Reachable := by
  induction cs generalizing forest replies with
  | nil =>
    cases hrun
    exact h
  | cons c cs ih =>
    obtain ⟨⟨reply, next⟩, hstep, hrest⟩ := bind_eq_ok_iff.1 hrun
    obtain ⟨⟨rest, last⟩, hrun', hpair⟩ := bind_eq_ok_iff.1 hrest
    cases hpair
    exact ih (h.command c hstep) hrun'

/-- Where two trees stand for the same map, the same keys are found in them. -/
theorem Represents.get_k_eq {forest : Forest V} {maps : RefForest V} (hr : Represents forest maps) {i : Nat}
    {m : RefMap V} (hmap : member maps i = some m) {plain : rart.tree.AdaptiveRadixTree V} {m' : RefMap V}
    (hplain : rart.tree.Represents plain m') (heq : m = m') :
    ∃ tree, member forest.trees i = some tree ∧ ∀ key, tree.get_k forest.heap key = plain.get_k key := by
  have hrel := hr.stands i
  rw [hmap] at hrel
  cases hmember : member forest.trees i with
  | none =>
    rw [hmember] at hrel
    cases hrel
  | some tree =>
    rw [hmember] at hrel
    cases hrel with
    | some hstands =>
      refine ⟨tree, rfl, fun key => ?_⟩
      rw [(hr.live hmember).get_k_eq, hstands.lookup_eq, hplain.get_k_eq, heq]

omit [Features] in
/-- A removal leaves the first versioned tree a table with one child, where its counterpart is
a leaf. The other pair is the snapshot from before it, and a tree that was never shared. -/
theorem Forest.reads_agree_uncollapsed :
    letI : Features := ⟨none⟩
    ∃ (replies : List (Option (Reply Nat Unit))) (forest : Forest Nat)
      (tree snapshot : VersionedAdaptiveRadixTree Nat) (leaf plain : rart.tree.AdaptiveRadixTree Nat),
      runForest .empty [.new, .mutate 0 (.insert_k [1, 2] 20), .mutate 0 (.insert_k [1, 3] 30), .snapshot 0,
        .mutate 0 (.remove_k [1, 3])] = .ok (replies, forest) ∧
      member forest.trees 0 = some tree ∧ member forest.trees 1 = some snapshot ∧
      (∃ replies, rart.tree.runTree .new [(.insert_k [1, 2] 20 : rart.tree.Op Nat Unit)] = .ok (replies, leaf)) ∧
      (∃ replies, rart.tree.runTree .new [(.insert_k [1, 3] 30 : rart.tree.Op Nat Unit), .insert_k [1, 2] 20] =
        .ok (replies, plain)) ∧
      SameScans (tree.root_node forest.heap) leaf.root ∧
      SameIntersections (tree.root_node forest.heap) (snapshot.root_node forest.heap) leaf.root plain.root := by
  let : Features := ⟨none⟩
  obtain ⟨forest, hrun, hr⟩ := runForest_spec represents_empty
    ([.new, .mutate 0 (.insert_k [1, 2] 20), .mutate 0 (.insert_k [1, 3] 30), .snapshot 0,
      .mutate 0 (.remove_k [1, 3])] : List (Command Nat Unit))
  obtain ⟨leaf, hleaf, hm⟩ := rart.tree.runTree_spec rart.tree.represents_new
    [(.insert_k [1, 2] 20 : rart.tree.Op Nat Unit)]
  obtain ⟨plain, hplain, hm'⟩ := rart.tree.runTree_spec rart.tree.represents_new
    [(.insert_k [1, 3] 30 : rart.tree.Op Nat Unit), .insert_k [1, 2] 20]
  obtain ⟨tree, htree, hsame⟩ := hr.get_k_eq (i := 0) rfl hm (by decide +kernel)
  obtain ⟨snapshot, hsnapshot, hsame'⟩ := hr.get_k_eq (i := 1) rfl hm' (by decide +kernel)
  obtain ⟨hscans, hboth⟩ := Forest.reads_agree (Forest.Reachable.empty.run hrun) htree
    (.run (.fresh .new) hleaf) hsame
  exact ⟨_, forest, tree, snapshot, leaf, plain, hrun, htree, hsnapshot, ⟨_, hleaf⟩, ⟨_, hplain⟩, hscans,
    hboth 1 snapshot plain hsnapshot (.run (.fresh .new) hplain) hsame'⟩

end rart.versioned_tree
