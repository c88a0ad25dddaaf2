import Rart.Tree.History

open SortedAssoc
open rart.node rart.utils rart.Trie

namespace rart.tree

variable {V E : Type}

section Model

/-- `NodeStats`, without the density that is computed of them in floating point. -/
structure NodeStats where
  width : Nat
  total_nodes : Nat
  total_children : Nat

/-- `TreeStats`, likewise, with the rows of its hash map in the order in which they were made. -/
structure TreeStats where
  node_stats : List (Nat × NodeStats)
  num_leaves : Nat
  num_values : Nat
  num_inner_nodes : Nat
  max_height : Nat

/-- `TreeStats::default` -/
def TreeStats.default : TreeStats := ⟨[], 0, 0, 0, 0⟩

/-- `HashMap::entry`, with `and_modify` and `or_insert`. -/
def entry {α : Type} (key : Nat) (modify : α → α) (value : α) : List (Nat × α) → List (Nat × α)
  | [] => [(key, value)]
  | (k, e) :: rest => if k = key then (k, modify e) :: rest else (k, e) :: entry key modify value rest

/-- An inner node counts in the row of its width. -/
def update_tree_stats (tree_stats : TreeStats) (node : DefaultNode V) : TreeStats :=
  { tree_stats with
    node_stats := entry node.content.capacity
      (fun e => { e with
        total_nodes := e.total_nodes + 1
        total_children := e.total_children + node.num_children })
      ⟨node.content.capacity, 1, node.num_children⟩ tree_stats.node_stats }

/-- What `get_tree_stats_recurse` does at one node. -/
def TreeStats.visit (tree_stats : TreeStats) (node : DefaultNode V) (height : Nat) : TreeStats :=
  let tree_stats :=
    if height > tree_stats.max_height then { tree_stats with max_height := height } else tree_stats
  let tree_stats :=
    if node.value.isSome then { tree_stats with num_values := tree_stats.num_values + 1 } else tree_stats
  if node.is_leaf then { tree_stats with num_leaves := tree_stats.num_leaves + 1 }
  else update_tree_stats tree_stats node

/-- The statistics of a node come before those of its children. -/
def get_tree_stats_recurse (node : DefaultNode V) (tree_stats : TreeStats) (height : Nat) : TreeStats :=
  node.iter.attach.foldl (fun tree_stats p => get_tree_stats_recurse p.1.2 tree_stats (height + 1))
    (tree_stats.visit node height)
termination_by node.node_count
decreasing_by exact DefaultNode.node_count_lt_of_iter p.2

/-- The inner nodes are counted at the end, from the rows. -/
def AdaptiveRadixTree.get_tree_stats (self : AdaptiveRadixTree V) : TreeStats :=
  match self.root with
  | none => .default
  | some root =>
    let stats := get_tree_stats_recurse root .default 1
    { stats with num_inner_nodes := (stats.node_stats.map fun ns => ns.2.total_nodes).sum }

end Model

section Entries

variable {α : Type} {key : Nat} {modify : α → α} {value : α}

/-- The sum over the rows grows by what one entry adds. -/
theorem sum_entry (f : α → Nat) {n : Nat} (hmodify : ∀ e, f (modify e) = f e + n) (hvalue : f value = n)
    (rows : List (Nat × α)) :
    ((entry key modify value rows).map fun r => f r.2).sum = (rows.map fun r => f r.2).sum + n := by
  induction rows with
  | nil => simp [entry, hvalue]
  | cons r rows ih =>
    obtain ⟨k, e⟩ := r
    unfold entry
    split
    · simp only [List.map_cons, List.sum_cons, hmodify]
      omega
    · simp only [List.map_cons, List.sum_cons, ih]
      omega

/-- A row that was there, changed or not, or the new one. -/
theorem mem_entry {rows : List (Nat × α)} {r : Nat × α} (h : r ∈ entry key modify value rows) :
    r ∈ rows ∨ (∃ e, (key, e) ∈ rows ∧ r = (key, modify e)) ∨ r = (key, value) := by
  induction rows with
  | nil => exact .inr (.inr (List.mem_singleton.1 h))
  | cons row rows ih =>
    obtain ⟨k, e⟩ := row
    unfold entry at h
    split at h
    · rename_i heq
      subst heq
      cases List.mem_cons.1 h with
      | inl hr => exact .inr (.inl ⟨e, List.mem_cons_self, hr⟩)
      | inr hmem => exact .inl (List.mem_cons_of_mem _ hmem)
    · cases List.mem_cons.1 h with
      | inl hr =>
        rw [hr]
        exact .inl List.mem_cons_self
      | inr hmem =>
        obtain hold | ⟨e', he', hr⟩ | hnew := ih hmem
        · exact .inl (List.mem_cons_of_mem _ hold)
        · exact .inr (.inl ⟨e', List.mem_cons_of_mem _ he', hr⟩)
        · exact .inr (.inr hnew)

/-- Each width keeps one row. -/
theorem keys_entry {rows : List (Nat × α)} (h : (rows.map Prod.fst).Nodup) :
    ((entry key modify value rows).map Prod.fst).Nodup := by
  induction rows with
  | nil => exact List.nodup_singleton key
  | cons row rows ih =>
    obtain ⟨k, e⟩ := row
    rw [List.map_cons, List.nodup_cons] at h
    unfold entry
    split
    · rw [List.map_cons, List.nodup_cons]
      exact h
    · rename_i hne
      rw [List.map_cons, List.nodup_cons]
      refine ⟨fun hmem => ?_, ih h.2⟩
      obtain ⟨r, hr, hk⟩ := List.mem_map.1 hmem
      obtain hold | ⟨_, _, rfl⟩ | rfl := mem_entry hr
      · exact h.1 (List.mem_map.2 ⟨r, hold, hk⟩)
      · exact hne hk.symm
      · exact hne hk.symm

end Entries

section Levels

/-- The nodes at and below a node, each with its height, as the recursion meets them. -/
def DefaultNode.levels (node : DefaultNode V) (height : Nat) : List (DefaultNode V × Nat) :=
  (node, height) :: node.iter.attach.flatMap fun p => DefaultNode.levels p.1.2 (height + 1)
termination_by node.node_count
decreasing_by exact DefaultNode.node_count_lt_of_iter p.2

/-- A node, then its children one level below. -/
theorem levels_eq (node : DefaultNode V) (height : Nat) :
    DefaultNode.levels node height =
      (node, height) :: node.iter.flatMap fun p => DefaultNode.levels p.2 (height + 1) := by
  rw [DefaultNode.levels]
  congr 1
  exact flatMap_attach fun _ => rfl

/-- The recursion is a fold over the nodes in pre-order. -/
theorem get_tree_stats_recurse_eq (node : DefaultNode V) (tree_stats : TreeStats) (height : Nat) :
    get_tree_stats_recurse node tree_stats height =
      (DefaultNode.levels node height).foldl (fun stats p => stats.visit p.1 p.2) tree_stats := by
  induction hn : node.node_count using Nat.strongRecOn generalizing node tree_stats height with
  | ind n ih =>
    subst hn
    rw [get_tree_stats_recurse, levels_eq, List.foldl_cons, List.foldl_attach (f := fun
      (tree_stats : TreeStats) (p : UInt8 × DefaultNode V) => get_tree_stats_recurse p.2 tree_stats (height + 1)),
      List.foldl_flatMap]
    generalize tree_stats.visit node height = stats
    have hchildren : ∀ children : List (UInt8 × DefaultNode V), (∀ p ∈ children, p ∈ node.iter) →
        ∀ stats : TreeStats,
        children.foldl (fun stats p => get_tree_stats_recurse p.2 stats (height + 1)) stats =
          children.foldl (fun stats p =>
            (DefaultNode.levels p.2 (height + 1)).foldl (fun stats q => stats.visit q.1 q.2) stats) stats := by
      intro children
      induction children with
      | nil => exact fun _ _ => rfl
      | cons p children ihc =>
        intro hmem stats
        rw [List.foldl_cons, List.foldl_cons,
          ih _ (DefaultNode.node_count_lt_of_iter (hmem p List.mem_cons_self)) p.2 stats (height + 1) rfl]
        exact ihc (fun q hq => hmem q (List.mem_cons_of_mem _ hq)) _
    exact hchildren node.iter (fun _ hp => hp) stats

end Levels

section Tallies

variable {stats : TreeStats} {node : DefaultNode V} {height : Nat}

/-- Each node with a value is counted. -/
theorem visit_num_values : (stats.visit node height).num_values =
    stats.num_values + if node.value.isSome then 1 else 0 := by
  unfold TreeStats.visit update_tree_stats
  split <;> split <;> split <;> rfl

/-- Each leaf is counted. -/
theorem visit_num_leaves : (stats.visit node height).num_leaves =
    stats.num_leaves + if node.is_leaf then 1 else 0 := by
  unfold TreeStats.visit update_tree_stats
  split <;> split <;> split <;> rfl

/-- The height grows to that of the deepest node. -/
theorem visit_max_height : (stats.visit node height).max_height = max stats.max_height height := by
  unfold TreeStats.visit update_tree_stats
  split <;> split <;> split <;> dsimp only <;> omega

/-- A leaf has no row. -/
theorem visit_node_stats_leaf (hleaf : node.is_leaf = true) :
    (stats.visit node height).node_stats = stats.node_stats := by
  unfold TreeStats.visit
  rw [if_pos hleaf]
  split <;> split <;> rfl

/-- An inner node counts in the row of its width. -/
theorem visit_node_stats_inner (hinner : ¬ node.is_leaf = true) :
    (stats.visit node height).node_stats = entry node.content.capacity
      (fun e => { e with
        total_nodes := e.total_nodes + 1
        total_children := e.total_children + node.num_children })
      ⟨node.content.capacity, 1, node.num_children⟩ stats.node_stats := by
  unfold TreeStats.visit update_tree_stats
  rw [if_neg hinner]
  split <;> split <;> rfl

/-- The children of the nodes in a list, of those that are no leaves. -/
def inner_children (l : List (DefaultNode V × Nat)) : Nat :=
  (l.map fun p => if p.1.is_leaf then 0 else p.1.num_children).sum

/-- What the statistics say when the nodes of a list were visited. -/
structure Tallied (l : List (DefaultNode V × Nat)) (stats : TreeStats) : Prop where
  values : stats.num_values = l.countP fun p => p.1.value.isSome
  leaves : stats.num_leaves = l.countP fun p => p.1.is_leaf
  inner : (stats.node_stats.map fun r => r.2.total_nodes).sum = l.countP fun p => !p.1.is_leaf
  children : (stats.node_stats.map fun r => r.2.total_children).sum = inner_children l
  distinct : (stats.node_stats.map Prod.fst).Nodup
  height_le : ∀ p ∈ l, p.2 ≤ stats.max_height
  height_eq : stats.max_height = 0 ∨ ∃ p ∈ l, p.2 = stats.max_height

/-- One node more on both sides. -/
theorem Tallied.visit {l : List (DefaultNode V × Nat)} (h : Tallied l stats) (node : DefaultNode V)
    (height : Nat) : Tallied (l ++ [(node, height)]) (stats.visit node height) where
  values := by rw [List.countP_append, ← h.values, List.countP_singleton, visit_num_values]
  leaves := by rw [List.countP_append, ← h.leaves, List.countP_singleton, visit_num_leaves]
  inner := by
    rw [List.countP_append, ← h.inner, List.countP_singleton]
    by_cases hleaf : node.is_leaf = true
    · rw [visit_node_stats_leaf hleaf, hleaf]
      rfl
    · rw [visit_node_stats_inner hleaf, sum_entry NodeStats.total_nodes (fun _ => rfl) rfl,
        Bool.eq_false_of_not_eq_true hleaf]
      rfl
  children := by
    unfold inner_children
    rw [List.map_append, List.sum_append, List.map_singleton, List.sum_singleton]
    by_cases hleaf : node.is_leaf = true
    · rw [visit_node_stats_leaf hleaf, if_pos hleaf]
      exact h.children
    · rw [visit_node_stats_inner hleaf, if_neg hleaf,
        sum_entry NodeStats.total_children (fun _ => rfl) rfl, h.children]
      rfl
  distinct := by
    by_cases hleaf : node.is_leaf = true
    · rw [visit_node_stats_leaf hleaf]
      exact h.distinct
    · rw [visit_node_stats_inner hleaf]
      exact keys_entry h.distinct
  height_le p hp := by
    rw [visit_max_height]
    cases List.mem_append.1 hp with
    | inl hold => exact Nat.le_trans (h.height_le p hold) (Nat.le_max_left _ _)
    | inr hnew =>
      cases List.mem_singleton.1 hnew
      exact Nat.le_max_right _ _
  height_eq := by
    rw [visit_max_height]
    by_cases hless : stats.max_height < height
    · exact .inr ⟨(node, height), List.mem_append_right _ List.mem_cons_self, by dsimp only; omega⟩
    · rw [Nat.max_eq_left (by omega)]
      exact h.height_eq.imp_right fun ⟨p, hp, heq⟩ => ⟨p, List.mem_append_left _ hp, heq⟩

/-- By induction on the nodes that are left. -/
theorem Tallied.foldl {l : List (DefaultNode V × Nat)} (h : Tallied l stats) (l' : List (DefaultNode V × Nat)) :
    Tallied (l ++ l') (l'.foldl (fun stats p => stats.visit p.1 p.2) stats) := by
  induction l' generalizing l stats with
  | nil =>
    rw [List.append_nil]
    exact h
  | cons p l' ih =>
    have hnext := ih (h.visit p.1 p.2)
    rwa [List.append_assoc] at hnext

/-- Of no nodes there are no statistics. -/
theorem tallied_default : Tallied ([] : List (DefaultNode V × Nat)) .default where
  values := rfl
  leaves := rfl
  inner := rfl
  children := rfl
  distinct := List.nodup_nil
  height_le _ hp := by cases hp
  height_eq := .inl rfl

end Tallies

section Counts

variable [Features] {root : DefaultNode V} {height : Nat}

omit [Features] in
/-- A property of every node holds of the nodes that are met. -/
theorem Every.levels {P : DefaultNode V → Prop} (h : Every P root) :
    ∀ p ∈ DefaultNode.levels root height, P p.1 := by
  induction h generalizing height with
  | intro node here below ih =>
    intro p hp
    rw [levels_eq] at hp
    cases List.mem_cons.1 hp with
    | inl heq =>
      rw [heq]
      exact here
    | inr hmem =>
      obtain ⟨q, hq, hp⟩ := List.mem_flatMap.1 hmem
      exact ih q hq p hp

omit [Features] in
/-- One node more. -/
theorem inner_children_cons (p : DefaultNode V × Nat) (l : List (DefaultNode V × Nat)) :
    inner_children (p :: l) = p.1.num_children + inner_children l := by
  unfold inner_children
  rw [List.map_cons, List.sum_cons]
  congr 1
  split
  · rename_i hleaf
    obtain ⟨⟨pfx, value, content⟩, _⟩ := p
    cases content <;> first | rfl | cases hleaf
  · rfl

omit [Features] in
/-- Two lists of nodes. -/
theorem inner_children_append (l l' : List (DefaultNode V × Nat)) :
    inner_children (l ++ l') = inner_children l + inner_children l' := by
  unfold inner_children
  rw [List.map_append, List.sum_append]

omit [Features] in
/-- Every node but the first is the child of one. -/
theorem children_levels (hcounts : Every (fun node => node.num_children = node.iter.length) root) (height : Nat) :
    inner_children (DefaultNode.levels root height) + 1 = (DefaultNode.levels root height).length := by
  induction hcounts generalizing height with
  | intro node here below ih =>
    have hchildren : ∀ children : List (UInt8 × DefaultNode V), (∀ p ∈ children, p ∈ node.iter) →
        inner_children (children.flatMap fun p => DefaultNode.levels p.2 (height + 1)) + children.length =
          (children.flatMap fun p => DefaultNode.levels p.2 (height + 1)).length := by
      intro children
      induction children with
      | nil => exact fun _ => rfl
      | cons p children ihc =>
        intro hmem
        have hp := ih p (hmem p List.mem_cons_self) (height + 1)
        have hrest := ihc fun q hq => hmem q (List.mem_cons_of_mem _ hq)
        rw [List.flatMap_cons, inner_children_append, List.length_append, List.length_cons]
        omega
    have hall := hchildren node.iter fun _ hp => hp
    rw [levels_eq, inner_children_cons, List.length_cons, here]
    omega

end Counts

section Trees

variable [Features] {tree start : AdaptiveRadixTree V} {m : RefMap V}

omit [Features] in
/-- Each node is a leaf or not. -/
theorem leaves_add_inner (l : List (DefaultNode V × Nat)) :
    (l.countP fun p => p.1.is_leaf) + (l.countP fun p => !p.1.is_leaf) = l.length := by
  rw [List.length_eq_countP_add_countP fun p : DefaultNode V × Nat => p.1.is_leaf]
  congr 2
  funext p
  cases p.1.is_leaf <;> rfl

/-- The levels list each node with a value once. -/
theorem values_levels (root : DefaultNode V) (height : Nat) :
    ((DefaultNode.levels root height).countP fun p => p.1.value.isSome) = valued_nodes root := by
  induction hn : root.node_count using Nat.strongRecOn generalizing root height with
  | ind n ih =>
    subst hn
    have hall : ((Node.iter root).attach.map fun ⟨p, _hp⟩ => valued_nodes p.2) =
        (Node.iter root).map fun p => valued_nodes p.2 :=
      (List.map_subtype fun _ _ => rfl).trans (by rw [List.unattach_attach])
    rw [valued_nodes, hall, levels_eq, List.countP_cons, List.countP_flatMap, Nat.add_comm]
    congr 1
    · change (if root.value.isSome = true then 1 else 0) = root.value.toList.length
      cases root.value <;> rfl
    · congr 1
      exact List.map_congr_left fun p hp => ih _ (DefaultNode.node_count_lt_of_iter hp) p.2 (height + 1) rfl

/-- In a well-formed tree each node knows how many children it has. -/
theorem counts_of_wf {root : DefaultNode V} (hwf : Wf root) :
    Every (fun node => node.num_children = node.iter.length) root :=
  .of_wf (fun _ h => (children_of_wf h).repr.num_children_eq) hwf

omit [Features] in
/-- The statistics of a root are those of all of its nodes. -/
theorem tallied_recurse (root : DefaultNode V) :
    Tallied (DefaultNode.levels root 1) (get_tree_stats_recurse root .default 1) := by
  rw [get_tree_stats_recurse_eq]
  exact tallied_default.foldl (DefaultNode.levels root 1)

omit [Features] in
/-- A node without a value has two children at least. -/
theorem two_mul_length_le {l : List (DefaultNode V × Nat)}
    (h : ∀ p ∈ l, p.1.num_children = p.1.iter.length ∧ Branches p.1) :
    2 * l.length ≤ inner_children l + 2 * l.countP fun p => p.1.value.isSome := by
  induction l with
  | nil => exact Nat.le_refl _
  | cons p l ih =>
    obtain ⟨hcount, hbranches⟩ := h p List.mem_cons_self
    have hrest := ih fun q hq => h q (List.mem_cons_of_mem _ hq)
    rw [List.length_cons, inner_children_cons, List.countP_cons]
    cases hvalue : p.1.value with
    | none =>
      have htwo := hbranches hvalue
      simp only [Option.isSome_none, Bool.false_eq_true, if_false]
      omega
    | some v =>
      simp only [Option.isSome_some, if_true]
      omega

/-- A tree whose nodes branch has fewer nodes than twice its entries, unless it has none of either. -/
theorem Represents.count_le (h : Represents tree m) (hbranches : EveryNode Branches tree) :
    tree.get_tree_stats.num_leaves + tree.get_tree_stats.num_inner_nodes ≤ 2 * tree.len - 1 := by
  obtain ⟨root, len⟩ := tree
  cases root with
  | none => exact Nat.zero_le _
  | some root =>
    have hwf := h.wf root rfl
    have htally := tallied_recurse root
    have hvalues : len = (DefaultNode.levels root 1).countP fun p => p.1.value.isSome := by
      rw [values_levels, valued_nodes_eq]
      have hlen := h.len
      rwa [h.lists.size] at hlen
    have hchildren := children_levels (counts_of_wf hwf) 1
    have htwo := two_mul_length_le ((counts_of_wf hwf).and (hbranches root rfl)).levels (l := DefaultNode.levels root 1)
    have hsplit := leaves_add_inner (DefaultNode.levels root 1)
    rw [← htally.leaves, ← htally.inner] at hsplit
    change (get_tree_stats_recurse root .default 1).num_leaves +
      ((get_tree_stats_recurse root .default 1).node_stats.map fun ns => ns.2.total_nodes).sum ≤ 2 * len - 1
    omega

/-- Where no mutation of a run strands a child, a tree with entries has fewer nodes than twice as
many, and an empty tree (where the subtraction stops at zero) has none: it is entries alone that a
tree needs room for, however long their keys are. -/
theorem AdaptiveRadixTree.nodes_le (hstart : Fresh start) (ops : List (Op V E)) (hspares : SparesThroughout start ops) :
    ∃ replies tree, runTree start ops = .ok (replies, tree) ∧
      tree.get_tree_stats.num_leaves + tree.get_tree_stats.num_inner_nodes ≤ 2 * tree.len - 1 := by
  obtain ⟨m, replies, tree, hrun, hrep, _, hbranches⟩ := hstart.run_spares ops hspares
  exact ⟨replies, tree, hrun, hrep.count_le hbranches⟩

omit [Features] in
/-- The same three keys: the root, the node of the shorter key and two leaves. -/
theorem AdaptiveRadixTree.nodes_le_three :
    letI : Features := ⟨none⟩
    ∃ replies tree, runTree (.new : AdaptiveRadixTree Nat)
        [(.insert_k [1] 1 : Op Nat Empty), .insert_k [1, 2] 2, .insert_k [3] 3] = .ok (replies, tree) ∧
      tree.get_tree_stats.num_leaves + tree.get_tree_stats.num_inner_nodes ≤ 2 * tree.len - 1 := by
  let : Features := ⟨none⟩
  exact AdaptiveRadixTree.nodes_le .new _ (sparesThroughout_inserts [([1], 1), ([1, 2], 2), ([3], 3)] _)

end Trees

end rart.tree
