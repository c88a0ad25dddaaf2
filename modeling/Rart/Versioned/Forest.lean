import Rart.Reference
import Rart.Versioned.Steps

open SortedAssoc RcHeap Words LexOrder
open RcHeap.Heap (Valid Keeps Agree Below)
open rart.node rart.partials rart.utils

namespace rart.versioned_tree

open VersionedAdaptiveRadixTree

variable {V E : Type}

section Mutations

/-- A mutation of a tree, through one of its keys. -/
inductive Mutation (V E : Type) where
  | insert_k (key : Bytes) (value : V)
  | insert_and_replace_k (key : Bytes) (value : V)
  | remove_k (key : Bytes)
  | delete_k (key : Bytes)
  | get_mut_k (key : Bytes) (write : V → V)
  | update_k (key : Bytes) (update : Callback V Empty)
  | try_update_k (key : Bytes) (update : Callback V E)

/-- What a mutation returns, and the calls that its callback got. -/
inductive Reply (V E : Type) where
  | replaced (was_replaced : Bool)
  | previous (old_value : Option V)
  | removed (value : Option V)
  | deleted (existed : Bool)
  | seen (value : Option V)
  | updated (changed : Except E Bool) (calls : List (Slot V))

namespace Mutation

def key : Mutation V E → Bytes
  | insert_k key _ => key
  | insert_and_replace_k key _ => key
  | remove_k key => key
  | delete_k key => key
  | get_mut_k key _ => key
  | update_k key _ => key
  | try_update_k key _ => key

/-- What a map answers to a mutation whose slot holds `found`. -/
def answer (found : Option V) : Mutation V E → Reply V E
  | insert_k _ _ => .replaced found.isSome
  | insert_and_replace_k _ _ => .previous found
  | remove_k _ => .removed found
  | delete_k _ => .deleted found.isSome
  | get_mut_k _ _ => .seen found
  | update_k _ update =>
    .updated ((update.apply false found).1.mapError Empty.elim) [Callback.slot found]
  | try_update_k _ update => .updated (update.apply true found).1 [Callback.slot found]

/-- What the slot holds afterwards. -/
def left (found : Option V) : Mutation V E → Option V
  | insert_k _ value => some value
  | insert_and_replace_k _ value => some value
  | remove_k _ => none
  | delete_k _ => none
  | get_mut_k _ write => found.map write
  | update_k _ update => (update.apply false found).2
  | try_update_k _ update => (update.apply true found).2

/-- How often a mutation advances the version of its tree. -/
def advance (found : Option V) : Mutation V E → Nat
  | insert_k _ _ => 1
  | insert_and_replace_k _ _ => 1
  | remove_k _ => if found.isSome then 1 else 0
  | delete_k _ => if found.isSome then 1 else 0
  | get_mut_k _ _ => if found.isSome then 1 else 0
  | update_k _ update =>
    match (update.apply false found).1 with
    | .ok true => 1
    | _ => 0
  | try_update_k _ update => advances update found

/-- A mutation of the reference map. -/
def onMap (op : Mutation V E) (m : RefMap V) : Reply V E × RefMap V :=
  (op.answer (m.lookup op.key), m.setSlot op.key (op.left (m.lookup op.key)))

variable [Features]

/-- A mutation of a tree. -/
def onTree (op : Mutation V E) (h : Heap (VersionedNode V)) (tree : VersionedAdaptiveRadixTree V) :
    Result (Reply V E × VersionedAdaptiveRadixTree V × Heap (VersionedNode V)) :=
  match op with
  | insert_k key value => do
    let (was_replaced, tree, h) ← tree.insert_k h key value
    return (.replaced was_replaced, tree, h)
  | insert_and_replace_k key value => do
    let (old_value, tree, h) ← tree.insert_and_replace_k h key value
    return (.previous old_value, tree, h)
  | remove_k key => do
    let (value, tree, h) ← tree.remove_k h key
    return (.removed value, tree, h)
  | delete_k key => do
    let (existed, tree, h) ← tree.delete_k h key
    return (.deleted existed, tree, h)
  | get_mut_k key write => do
    let (value, tree, h) ← tree.get_mut_k h key write
    return (.seen value, tree, h)
  | update_k key update => do
    let (changed, tree, calls, h) ← tree.update_k h key update
    return (.updated (.ok changed) calls, tree, h)
  | try_update_k key update => do
    let (result, tree, calls, h) ← tree.try_update_k h key update
    return (.updated result calls, tree, h)

theorem step {h : Heap (VersionedNode V)} {tree : VersionedAdaptiveRadixTree V} {others : List Nat}
    (hl : Live h tree others) (op : Mutation V E) :
    ∃ after h', op.onTree h tree = .ok (op.answer (tree.lookup h op.key), after, h') ∧
      Mutated h tree others op.key (op.left (tree.lookup h op.key))
        (tree.version + op.advance (tree.lookup h op.key)) after h' := by
  cases op with
  | insert_k key value =>
    obtain ⟨after, h', hrun, hmutated⟩ := hl.insert_k_spec key value
    exact ⟨after, h', by rw [onTree, hrun]; rfl, hmutated⟩
  | insert_and_replace_k key value =>
    obtain ⟨after, h', hrun, hmutated⟩ := hl.insert_and_replace_k_spec key value
    exact ⟨after, h', by rw [onTree, hrun]; rfl, hmutated⟩
  | remove_k key =>
    obtain ⟨after, h', hrun, hmutated⟩ := hl.remove_k_spec key
    exact ⟨after, h', by rw [onTree, hrun]; rfl, hmutated.when_present⟩
  | delete_k key =>
    obtain ⟨after, h', hrun, hmutated⟩ := hl.delete_k_spec key
    exact ⟨after, h', by rw [onTree, hrun]; rfl, hmutated.when_present⟩
  | get_mut_k key write =>
    obtain ⟨after, h', hrun, hmutated⟩ := hl.get_mut_k_spec key write
    exact ⟨after, h', by rw [onTree, hrun]; rfl, hmutated.when_present⟩
  | update_k key update =>
    obtain ⟨changed, after, h', hrun, hanswer, hmutated⟩ := hl.update_k_spec key update
    refine ⟨after, h', ?_, ?_⟩
    · rw [onTree, hrun]
      change _ = Except.ok (Reply.updated ((update.apply false (tree.lookup h key)).1.mapError _) _, after, h')
      rw [hanswer]
      rfl
    · simp only [advance, Mutation.key, left, hanswer]
      cases changed with
      | true => exact hmutated
      | false => exact hmutated
  | try_update_k key update =>
    obtain ⟨after, h', hrun, hmutated⟩ := hl.try_update_k_spec key update
    exact ⟨after, h', by rw [onTree, hrun]; rfl, hmutated⟩

end Mutation

end Mutations

section Forests

/-- The heap, and the trees that were made so far. A tree that was dropped leaves a gap. -/
structure Forest (V : Type) where
  heap : Heap (VersionedNode V)
  trees : List (Option (VersionedAdaptiveRadixTree V))

/-- What happens to the member of a forest. -/
inductive Command (V E : Type) where
  | new
  | snapshot (member : Nat)
  | clone (member : Nat)
  | drop (member : Nat)
  | mutate (member : Nat) (op : Mutation V E)

/-- The maps that the trees of a forest stand for. -/
abbrev RefForest (V : Type) := List (Option (RefMap V))

/-- The member of a forest that a command is about. -/
def member {α : Type} (trees : List (Option α)) (i : Nat) : Option α := (trees[i]?).join

namespace Command

/-- A command on the reference maps. A snapshot or clone starts as a copy. -/
def onMaps (maps : RefForest V) : Command V E → Option (Reply V E) × RefForest V
  | new => (none, maps ++ [some ∅])
  | snapshot i =>
    match member maps i with
    | none => (none, maps)
    | some m => (none, maps ++ [some m])
  | clone i =>
    match member maps i with
    | none => (none, maps)
    | some m => (none, maps ++ [some m])
  | drop i =>
    match member maps i with
    | none => (none, maps)
    | some _ => (none, maps.set i none)
  | mutate i op =>
    match member maps i with
    | none => (none, maps)
    | some m => (some (op.onMap m).1, maps.set i (some (op.onMap m).2))

variable [Features]

/-- A command on the trees. One on a tree that is not there does nothing. -/
def onForest (forest : Forest V) : Command V E → Result (Option (Reply V E) × Forest V)
  | new => return (none, ⟨forest.heap, forest.trees ++ [some .new]⟩)
  | snapshot i =>
    match member forest.trees i with
    | none => return (none, forest)
    | some tree => do
      let (copy, heap) ← tree.snapshot forest.heap
      return (none, ⟨heap, forest.trees ++ [some copy]⟩)
  | clone i =>
    match member forest.trees i with
    | none => return (none, forest)
    | some tree => do
      let (copy, heap) ← tree.clone_tree forest.heap
      return (none, ⟨heap, forest.trees ++ [some copy]⟩)
  | drop i =>
    match member forest.trees i with
    | none => return (none, forest)
    | some tree => do
      let heap ← tree.drop_tree forest.heap
      return (none, ⟨heap, forest.trees.set i none⟩)
  | mutate i op =>
    match member forest.trees i with
    | none => return (none, forest)
    | some tree => do
      let (reply, tree, heap) ← op.onTree forest.heap tree
      return (some reply, ⟨heap, forest.trees.set i (some tree)⟩)

end Command

/-- The references that the trees of a forest hold. -/
def rootsOf (trees : List (Option (VersionedAdaptiveRadixTree V))) : List Nat :=
  trees.flatMap fun tree => tree.elim [] fun tree => tree.root.toList

variable [Features]

/-- A tree stands for a map. -/
structure Stands (h : Heap (VersionedNode V)) (tree : VersionedAdaptiveRadixTree V) (m : RefMap V) : Prop where
  newest : ∀ a node, tree.root = some a → h.node? a = some node → node.version ≤ tree.version
  lookup_eq : ∀ key, tree.lookup h key = m.lookup key

/-- Every tree of a forest stands for its own map. -/
structure Represents (forest : Forest V) (maps : RefForest V) : Prop where
  valid : Valid forest.heap (rootsOf forest.trees)
  length_eq : forest.trees.length = maps.length
  stands : ∀ i, Option.Rel (Stands forest.heap) (member forest.trees i) (member maps i)
  noted : forest.heap.noted = []

end Forests

section Members

variable {α : Type}

theorem member_eq_some {l : List (Option α)} {i : Nat} {x : α} (hmember : member l i = some x) :
    ∃ hi : i < l.length, l[i] = some x :=
  List.getElem?_eq_some_iff.1 (Option.join_eq_some_iff.1 hmember)

theorem member_set (l : List (Option α)) (i : Nat) (x : Option α) (j : Nat) :
    member (l.set i x) j = if j = i then (if i < l.length then x else none) else member l j := by
  unfold member
  by_cases hj : j = i
  · rw [if_pos hj, hj]
    by_cases hi : i < l.length
    · rw [if_pos hi, List.getElem?_set_self hi]
      rfl
    · rw [if_neg hi, List.getElem?_eq_none (by simpa using hi)]
      rfl
  · rw [if_neg hj, List.getElem?_set_ne (Ne.symm hj)]

theorem member_append (l : List (Option α)) (x : Option α) (j : Nat) :
    member (l ++ [x]) j = if j = l.length then x else member l j := by
  unfold member
  by_cases hj : j = l.length
  · rw [if_pos hj, hj, List.getElem?_concat_length]
    rfl
  · rw [if_neg hj]
    by_cases hlt : j < l.length
    · rw [List.getElem?_append_left hlt]
    · rw [List.getElem?_eq_none (by rw [List.length_append, List.length_singleton]; omega),
        List.getElem?_eq_none (by omega)]

theorem perm_eraseIdx {l : List α} {i : Nat} (hi : i < l.length) : l.Perm (l[i] :: l.eraseIdx i) :=
  (List.getElem_cons_eraseIdx_perm hi).symm

theorem rootsOf_set {trees : List (Option (VersionedAdaptiveRadixTree V))} {i : Nat} (hi : i < trees.length)
    (tree : Option (VersionedAdaptiveRadixTree V)) :
    (rootsOf (trees.set i tree)).Perm
      ((tree.elim [] fun tree => tree.root.toList) ++ rootsOf (trees.eraseIdx i)) := by
  have hlen : i < (trees.set i tree).length := by rwa [List.length_set]
  have hperm := (perm_eraseIdx hlen).flatMap_right
    fun tree : Option (VersionedAdaptiveRadixTree V) => tree.elim [] fun tree => tree.root.toList
  rw [List.getElem_set_self, List.eraseIdx_set_eq] at hperm
  exact hperm

theorem rootsOf_append (trees : List (Option (VersionedAdaptiveRadixTree V)))
    (tree : VersionedAdaptiveRadixTree V) :
    rootsOf (trees ++ [some tree]) = rootsOf trees ++ tree.root.toList := by
  unfold rootsOf
  simp

theorem mem_rootsOf {trees : List (Option (VersionedAdaptiveRadixTree V))}
    {tree : VersionedAdaptiveRadixTree V} {a : Nat} (htree : some tree ∈ trees) (hroot : tree.root = some a) :
    a ∈ rootsOf trees := by
  refine List.mem_flatMap.2 ⟨some tree, htree, ?_⟩
  change a ∈ tree.root.toList
  rw [hroot]
  simp

theorem mem_others {trees : List (Option (VersionedAdaptiveRadixTree V))} {i j : Nat}
    {tree : VersionedAdaptiveRadixTree V} {a : Nat} (hmember : member trees j = some tree) (hne : j ≠ i)
    (hroot : tree.root = some a) : a ∈ rootsOf (trees.eraseIdx i) :=
  mem_rootsOf (List.mem_eraseIdx_iff_getElem?.2 ⟨j, hne, Option.join_eq_some_iff.1 hmember⟩) hroot

end Members

section Steps

variable [Features] {forest : Forest V} {maps : RefForest V} {i : Nat}
  {tree after : VersionedAdaptiveRadixTree V} {m : RefMap V} {h h' : Heap (VersionedNode V)}

/-- A tree whose root is kept stands for the same map. -/
theorem Stands.keeps {roots roots' kept : List Nat} (hs : Stands h tree m) (hv : Valid h roots)
    (hv' : Valid h' roots') (hk : Keeps h h' kept) (hroot : ∀ a, tree.root = some a → a ∈ kept) :
    Stands h' tree m where
  newest a node ha hnode := by
    rw [(hk.agree a (hroot a ha)).node?_eq] at hnode
    exact hs.newest a node ha hnode
  lookup_eq key := by
    rw [← hs.lookup_eq key]
    unfold VersionedAdaptiveRadixTree.lookup
    cases ha : tree.root with
    | none => rfl
    | some a => exact find_agree hv hv' (hk.agree a (hroot a ha)) key

/-- A mutated tree stands for the mutated map. -/
theorem Stands.mutated {others : List Nat} {version : Nat} {op : Mutation V E} (hs : Stands h tree m)
    (hm : Mutated h tree others op.key (op.left (m.lookup op.key)) version after h') :
    Stands h' after (op.onMap m).2 where
  newest := hm.live.newest
  lookup_eq key := by
    change _ = (m.setSlot op.key (op.left (m.lookup op.key))).lookup key
    rw [RefMap.lookup_setSlot]
    split
    · rename_i heq
      rw [heq]
      exact hm.updated.here
    · rename_i hne
      rw [hm.updated.elsewhere key hne, hs.lookup_eq]

namespace Represents

/-- The tree of a member and its map. -/
theorem pair (hr : Represents forest maps) (hmember : member forest.trees i = some tree) :
    ∃ m, member maps i = some m ∧ Stands forest.heap tree m := by
  have hrel := hr.stands i
  rw [hmember] at hrel
  cases hmap : member maps i with
  | none =>
    rw [hmap] at hrel
    cases hrel
  | some m =>
    rw [hmap] at hrel
    cases hrel with
    | some hs => exact ⟨m, rfl, hs⟩

theorem absent (hr : Represents forest maps) (hmember : member forest.trees i = none) :
    member maps i = none := by
  have hrel := hr.stands i
  rw [hmember] at hrel
  cases hmap : member maps i with
  | none => rfl
  | some m =>
    rw [hmap] at hrel
    cases hrel

/-- A member is a live tree among the others. -/
theorem live (hr : Represents forest maps) (hmember : member forest.trees i = some tree) :
    Live forest.heap tree (rootsOf (forest.trees.eraseIdx i)) := by
  obtain ⟨m, _, hs⟩ := hr.pair hmember
  obtain ⟨hi, hget⟩ := member_eq_some hmember
  refine ⟨hr.valid.perm ?_, hs.newest⟩
  have hperm := rootsOf_set hi (some tree)
  rw [← hget, List.set_getElem_self, hget] at hperm
  exact hperm.symm

/-- Exchanging a member for another tree, or for a gap. -/
theorem set {tree' : Option (VersionedAdaptiveRadixTree V)} {m' : Option (RefMap V)}
    (hr : Represents forest maps) (hmember : member forest.trees i = some tree)
    (hv : Valid h' ((tree'.elim [] fun tree => tree.root.toList) ++ rootsOf (forest.trees.eraseIdx i)))
    (hk : Keeps forest.heap h' (rootsOf (forest.trees.eraseIdx i)))
    (hnew : Option.Rel (Stands h') tree' m') :
    Represents ⟨h', forest.trees.set i tree'⟩ (maps.set i m') := by
  obtain ⟨hi, hget⟩ := member_eq_some hmember
  have hvalid := hv.perm (rootsOf_set hi tree')
  refine ⟨hvalid, by rw [List.length_set, List.length_set, hr.length_eq], fun j => ?_,
    hk.continues.noted.trans hr.noted⟩
  change Option.Rel (Stands h') (member (forest.trees.set i tree') j) (member (maps.set i m') j)
  rw [member_set, member_set, ← hr.length_eq]
  by_cases hj : j = i
  · rw [if_pos hj, if_pos hi, if_pos hj, if_pos hi]
    exact hnew
  · rw [if_neg hj, if_neg hj]
    cases hother : member forest.trees j with
    | none =>
      rw [hr.absent hother]
      exact .none
    | some other =>
      obtain ⟨m, hm, hs⟩ := hr.pair hother
      rw [hm]
      exact .some (hs.keeps hr.valid hvalid hk fun a ha => mem_others hother hj ha)

/-- Another tree. -/
theorem push (hr : Represents forest maps) (hv : Valid h' (rootsOf forest.trees ++ tree.root.toList))
    (hk : Keeps forest.heap h' (rootsOf forest.trees)) (hnew : Stands h' tree m) :
    Represents ⟨h', forest.trees ++ [some tree]⟩ (maps ++ [some m]) := by
  refine ⟨?_, by rw [List.length_append, List.length_append, hr.length_eq]; rfl, fun j => ?_,
    hk.continues.noted.trans hr.noted⟩
  · change Valid h' (rootsOf (forest.trees ++ [some tree]))
    rw [rootsOf_append]
    exact hv
  · change Option.Rel (Stands h') (member (forest.trees ++ [some tree]) j) (member (maps ++ [some m]) j)
    rw [member_append, member_append, ← hr.length_eq]
    by_cases hj : j = forest.trees.length
    · rw [if_pos hj, if_pos hj]
      exact .some hnew
    · rw [if_neg hj, if_neg hj]
      cases hother : member forest.trees j with
      | none =>
        rw [hr.absent hother]
        exact .none
      | some other =>
        obtain ⟨m, hm, hs⟩ := hr.pair hother
        rw [hm]
        exact .some (hs.keeps hr.valid hv hk fun a ha =>
          mem_rootsOf (List.mem_of_getElem? (Option.join_eq_some_iff.1 hother)) ha)

/-- Another tree over the root of a member. -/
theorem share (hr : Represents forest maps) (hmember : member forest.trees i = some tree) {version : Nat}
    (hversion : tree.version ≤ version) :
    ∃ h', tree.clone_root forest.heap = .ok h' ∧ ∃ m, member maps i = some m ∧
      Represents ⟨h', forest.trees ++ [some ⟨tree.root, version⟩]⟩ (maps ++ [some m]) := by
  obtain ⟨m, hm, hs⟩ := hr.pair hmember
  have hmem : ∀ a ∈ tree.root.toList, a ∈ rootsOf forest.trees := fun a ha =>
    mem_rootsOf (List.mem_of_getElem? (Option.join_eq_some_iff.1 hmember)) (Option.mem_toList.1 ha)
  obtain ⟨h', hclone, hv', hk', _⟩ := hr.valid.cloneAll fun a ha => hr.valid.counted.live_of_root (hmem a ha)
  have hs' := hs.keeps hr.valid hv' hk' fun a ha => hmem a (by rw [ha]; simp)
  refine ⟨h', ?_, m, hm, hr.push (hv'.perm List.perm_append_comm) hk' ⟨fun a node ha hnode => ?_, hs'.lookup_eq⟩⟩
  · unfold clone_root
    rw [hclone]
    rfl
  · exact Nat.le_trans (hs'.newest a node ha hnode) hversion

/-- A mutation of a member, with what it leads to. -/
theorem mutate (hr : Represents forest maps) (hmember : member forest.trees i = some tree)
    (op : Mutation V E) :
    ∃ m after h', member maps i = some m ∧ op.onTree forest.heap tree = .ok ((op.onMap m).1, after, h') ∧
      Mutated forest.heap tree (rootsOf (forest.trees.eraseIdx i)) op.key (op.left (m.lookup op.key))
        (tree.version + op.advance (m.lookup op.key)) after h' ∧
      Represents ⟨h', forest.trees.set i (some after)⟩ (maps.set i (some (op.onMap m).2)) := by
  obtain ⟨m, hm, hs⟩ := hr.pair hmember
  obtain ⟨after, h', hrun, hmutated⟩ := op.step (hr.live hmember)
  rw [hs.lookup_eq] at hrun hmutated
  exact ⟨m, after, h', hm, hrun, hmutated, hr.set hmember hmutated.live.valid hmutated.keeps
    (.some (hs.mutated hmutated))⟩

end Represents

/-- One command keeps every tree standing for its own map, and answers as that map does. -/
theorem Command.step (hr : Represents forest maps) (c : Command V E) :
    ∃ forest', c.onForest forest = .ok ((c.onMaps maps).1, forest') ∧
      Represents forest' (c.onMaps maps).2 := by
  cases c with
  | new =>
    have hstands : Stands forest.heap (.new : VersionedAdaptiveRadixTree V) ∅ :=
      ⟨fun a node ha => (by cases ha), fun key => rfl⟩
    refine ⟨_, rfl, hr.push (hr.valid.perm ?_) hr.valid.keeps_refl hstands⟩
    simp [VersionedAdaptiveRadixTree.new]
  | snapshot i =>
    cases hmember : member forest.trees i with
    | none =>
      refine ⟨forest, ?_, ?_⟩ <;> simp only [onForest, onMaps, hmember, hr.absent hmember, pure_eq_ok]
      exact hr
    | some tree =>
      obtain ⟨h', hclone, m, hm, hr'⟩ := hr.share hmember (Nat.le_succ tree.version)
      refine ⟨⟨h', forest.trees ++ [some ⟨tree.root, tree.version + 1⟩]⟩, ?_, ?_⟩
      · simp only [onForest, onMaps, hmember, hm, VersionedAdaptiveRadixTree.snapshot, hclone, ok_bind, pure_eq_ok]
      · simp only [onMaps, hm]
        exact hr'
  | clone i =>
    cases hmember : member forest.trees i with
    | none =>
      refine ⟨forest, ?_, ?_⟩ <;> simp only [onForest, onMaps, hmember, hr.absent hmember, pure_eq_ok]
      exact hr
    | some tree =>
      obtain ⟨h', hclone, m, hm, hr'⟩ := hr.share hmember (Nat.le_refl tree.version)
      refine ⟨⟨h', forest.trees ++ [some ⟨tree.root, tree.version⟩]⟩, ?_, ?_⟩
      · simp only [onForest, onMaps, hmember, hm, clone_tree, hclone, ok_bind, pure_eq_ok]
      · simp only [onMaps, hm]
        exact hr'
  | drop i =>
    cases hmember : member forest.trees i with
    | none =>
      refine ⟨forest, ?_, ?_⟩ <;> simp only [onForest, onMaps, hmember, hr.absent hmember, pure_eq_ok]
      exact hr
    | some tree =>
      obtain ⟨m, hm, _⟩ := hr.pair hmember
      obtain ⟨h', hdrop, hv', hk'⟩ := drop_opt_spec (hr.live hmember).valid
      refine ⟨⟨h', forest.trees.set i none⟩, ?_, ?_⟩
      · simp only [onForest, onMaps, hmember, hm, drop_tree, hdrop, ok_bind, pure_eq_ok]
      · simp only [onMaps, hm]
        exact hr.set hmember hv' hk' .none
  | mutate i op =>
    cases hmember : member forest.trees i with
    | none =>
      refine ⟨forest, ?_, ?_⟩ <;> simp only [onForest, onMaps, hmember, hr.absent hmember, pure_eq_ok]
      exact hr
    | some tree =>
      obtain ⟨m, after, h', hm, hrun, _, hr'⟩ := hr.mutate hmember op
      refine ⟨⟨h', forest.trees.set i (some after)⟩, ?_, ?_⟩
      · simp only [onForest, onMaps, hmember, hm, hrun, ok_bind, pure_eq_ok]
      · simp only [onMaps, hm]
        exact hr'

end Steps

section Runs

/-- A sequence of commands on the reference maps. -/
def runMaps (maps : RefForest V) : List (Command V E) → List (Option (Reply V E)) × RefForest V
  | [] => ([], maps)
  | c :: cs =>
    let (reply, maps) := c.onMaps maps
    let (replies, maps) := runMaps maps cs
    (reply :: replies, maps)

variable [Features]

/-- A sequence of commands on the trees of a forest. -/
def runForest (forest : Forest V) :
    List (Command V E) → Result (List (Option (Reply V E)) × Forest V)
  | [] => return ([], forest)
  | c :: cs => do
    let (reply, forest) ← c.onForest forest
    let (replies, forest) ← runForest forest cs
    return (reply :: replies, forest)

def Forest.empty : Forest V := ⟨Heap.empty, []⟩

theorem represents_empty : Represents (Forest.empty : Forest V) [] where
  valid := Valid.empty
  length_eq := rfl
  stands i := by
    have hnone : ∀ {α : Type}, member ([] : List (Option α)) i = none := fun {α} => rfl
    change Option.Rel _ (member [] i) (member [] i)
    rw [hnone, hnone]
    exact .none
  noted := rfl

theorem runForest_spec {forest : Forest V} {maps : RefForest V} (hr : Represents forest maps)
    (cs : List (Command V E)) :
    ∃ forest', runForest forest cs = .ok ((runMaps maps cs).1, forest') ∧
      Represents forest' (runMaps maps cs).2 := by
  induction cs generalizing forest maps with
  | nil => exact ⟨forest, rfl, hr⟩
  | cons c cs ih =>
    obtain ⟨next, hstep, hnext⟩ := c.step hr
    obtain ⟨forest', hrun, hr'⟩ := ih hnext
    refine ⟨forest', ?_, hr'⟩
    rw [runForest, hstep, ok_bind]
    dsimp only
    rw [hrun]
    rfl

/-- A tree is empty where its map is. -/
theorem Represents.is_empty_iff {forest : Forest V} {maps : RefForest V} (hr : Represents forest maps)
    {i : Nat} {tree : VersionedAdaptiveRadixTree V} (hmember : member forest.trees i = some tree)
    {m : RefMap V} (hm : member maps i = some m) : tree.is_empty = true ↔ m = ∅ := by
  obtain ⟨m', hm', hs⟩ := hr.pair hmember
  rw [hm] at hm'
  cases hm'
  have hlookup := hs.lookup_eq
  unfold is_empty VersionedAdaptiveRadixTree.lookup at *
  cases hroot : tree.root with
  | none =>
    rw [hroot] at hlookup
    refine iff_of_true rfl (Finmap.ext_lookup fun key => ?_)
    rw [← hlookup key]
    rfl
  | some a =>
    refine iff_of_false (by simp) fun hempty => ?_
    obtain ⟨node, hnode⟩ := (hr.live hmember).root_live hroot
    have hwf := wf_borrow hr.valid hnode
    obtain ⟨e, he⟩ := List.exists_mem_of_ne_nil _ hwf.entries_ne_nil
    have hfound : find forest.heap a e.1 = some e.2 := by
      unfold find borrow
      rw [hnode]
      exact hwf.mem_entries_iff.1 he
    have hnone := hlookup e.1
    rw [hroot, Option.bind_some, hfound, hempty] at hnone
    cases hnone

/-- After any sequence of commands, none of which panics, every mutation has answered
as the map of its own tree does, and so does every read of every tree. -/
theorem Forest.snapshots_isolated (cs : List (Command V E)) :
    ∃ forest : Forest V, runForest .empty cs = .ok ((runMaps [] cs).1, forest) ∧
      ∀ i, match member forest.trees i with
        | none => member (runMaps [] cs).2 i = none
        | some tree => ∃ m, member (runMaps [] cs).2 i = some m ∧
            (∀ key, tree.get_k forest.heap key = .ok (m.lookup key)) ∧ (tree.is_empty = true ↔ m = ∅) := by
  obtain ⟨forest, hrun, hr⟩ := runForest_spec represents_empty cs
  refine ⟨forest, hrun, fun i => ?_⟩
  cases hmember : member forest.trees i with
  | none => exact hr.absent hmember
  | some tree =>
    obtain ⟨m, hm, hs⟩ := hr.pair hmember
    refine ⟨m, hm, fun key => ?_, hr.is_empty_iff hmember hm⟩
    rw [(hr.live hmember).get_k_eq, hs.lookup_eq]

/-- No sequence of commands panics, and whenever the shortcut of `ensure_cow_node` was taken, the
node was its tree's own: every mutation works for a version above those of all nodes, so none
ever takes the shortcut. -/
theorem Forest.shortcut_exclusive (cs : List (Command V E)) :
    ∃ (replies : List (Option (Reply V E))) (forest : Forest V),
      runForest .empty cs = .ok (replies, forest) ∧ forest.heap.noted = [] ∧
        ∀ count ∈ forest.heap.noted, count = 1 := by
  obtain ⟨forest, hrun, hr⟩ := runForest_spec represents_empty cs
  refine ⟨_, forest, hrun, hr.noted, fun count hcount => ?_⟩
  rw [hr.noted] at hcount
  cases hcount

end Runs

end rart.versioned_tree
