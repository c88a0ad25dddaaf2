import Rart.Versioned.Forest

open SortedAssoc RcHeap Words LexOrder
open RcHeap.Heap (Valid Keeps Agree Below)
open rart.node rart.partials rart.utils

namespace rart.versioned_tree

open VersionedAdaptiveRadixTree

variable {V E : Type}

/-- The cell holds a node of the tree. -/
def VersionedAdaptiveRadixTree.Reaches (tree : VersionedAdaptiveRadixTree V) (h : Heap (VersionedNode V))
    (b : Nat) : Prop := ∃ a ∈ tree.root, Below h a b

section Sharing

variable {h h' : Heap (VersionedNode V)} {tree other after : VersionedAdaptiveRadixTree V} {others : List Nat}
  {key : Bytes} {slot : Option V} {version b : Nat}

/-- Nodes that others reach are the nodes they reached before, and unchanged. -/
theorem Reaches.keeps (hk : Keeps h h' others) (hroot : ∀ a, other.root = some a → a ∈ others)
    (hreaches : other.Reaches h b) : other.Reaches h' b ∧ h'.node? b = h.node? b := by
  obtain ⟨a, ha, hbelow⟩ := hreaches
  obtain ⟨hbelow', hagree⟩ := (hk.agree a (hroot a ha)).carries hbelow
  exact ⟨⟨a, ha, hbelow'⟩, hagree.node?_eq⟩

variable [Features]

/-- Off the way to the key, a mutated tree has the nodes it had. -/
theorem Mutated.shared (hm : Mutated h tree others key slot version after h') (hreaches : tree.Reaches h b)
    (hunvisited : b ∉ tree.visited h key) : after.Reaches h' b ∧ h'.node? b = h.node? b := by
  obtain ⟨a, ha, hbelow⟩ := hreaches
  have hroot : tree.root = some a := ha
  have hoff : b ∉ visited h a key := by
    unfold VersionedAdaptiveRadixTree.visited at hunvisited
    rwa [hroot] at hunvisited
  obtain ⟨c, hc, hbelow', hagree⟩ := hm.shares a hroot b ⟨hbelow, hoff⟩
  exact ⟨⟨c, Option.mem_toList.1 hc, hbelow'⟩, hagree.node?_eq⟩

/-- A mutation of a tree that any sequence of commands has led to leaves every node that
the descent for its key does not visit in the tree, in its cell, and every node of every
other tree as it is. -/
theorem Forest.off_path_shared (cs : List (Command V E)) :
    ∃ (replies : List (Option (Reply V E))) (forest : Forest V),
      runForest .empty cs = .ok (replies, forest) ∧
      ∀ i tree, member forest.trees i = some tree → ∀ op : Mutation V E,
        ∃ reply after h', op.onTree forest.heap tree = .ok (reply, after, h') ∧
          (∀ b, tree.Reaches forest.heap b → b ∉ tree.visited forest.heap op.key →
            after.Reaches h' b ∧ h'.node? b = forest.heap.node? b) ∧
          ∀ j other, j ≠ i → member forest.trees j = some other → ∀ b, other.Reaches forest.heap b →
            other.Reaches h' b ∧ h'.node? b = forest.heap.node? b := by
  obtain ⟨forest, hrun, hr⟩ := runForest_spec represents_empty cs
  refine ⟨_, forest, hrun, fun i tree hmember op => ?_⟩
  obtain ⟨m, after, h', _, hmutate, hmutated, _⟩ := hr.mutate hmember op
  exact ⟨_, after, h', hmutate, fun b => hmutated.shared, fun j other hne hother b =>
    Reaches.keeps hmutated.keeps fun a ha => mem_others hother hne ha⟩

end Sharing

end rart.versioned_tree
