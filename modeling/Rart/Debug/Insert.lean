import Rart.Debug.Nodes
import Rart.Probe
import Rart.Tree.Insert

open Checked SortedAssoc
open rart.node rart.partials rart.tree rart.utils rart.Trie

namespace rart.debug

variable {V : Type} [Features]

section Steps

/-- `AdaptiveRadixTree::get_bytes_iterate` -/
def get_bytes_iterate (N : Nat) (cur_node : DefaultNode V) (key : Bytes) (depth : Nat) : Result (Option V) := do
  let prefix_len := cur_node.pfx.length
  let remaining_len ← usize_sub key.length depth
  let prefix_common_match ← ArrPartial.prefix_length_slice N cur_node.pfx (← slice_from key depth)
  if prefix_common_match ≠ prefix_len then return none
  else if prefix_len = remaining_len then return cur_node.value
  else
    let k ← index key (depth + prefix_len)
    match _hchild : DefaultNode.seek_child cur_node k with
    | .error e => throw e
    | .ok none => return none
    | .ok (some child) => get_bytes_iterate N child key (depth + prefix_len)
termination_by cur_node.node_count
decreasing_by exact DefaultNode.node_count_lt_of_seek _hchild

/-- The key ends inside the node's prefix: the value goes to a new parent. -/
def insert_above (N : Nat) (cur_node : DefaultNode V) (common_len : Nat) (value : V) :
    Result (DefaultNode V) := do
  let new_prefix ← ArrPartial.partial_after N cur_node.pfx common_len
  let new_parent := DefaultNode.new_inner (← ArrPartial.partial_before N cur_node.pfx common_len)
  let new_parent := DefaultNode.mk new_parent.pfx (some value) new_parent.content
  let edge ← ArrPartial.byte_at N cur_node.pfx common_len
  DefaultNode.add_child new_parent edge (.mk new_prefix cur_node.value cur_node.content)

/-- Key and prefix part: both become children of a new node. -/
def insert_split (N : Nat) (cur_node : DefaultNode V) (key : Bytes) (value : V)
    (depth longest_common_prefix : Nat) : Result (DefaultNode V) := do
  let new_prefix ← ArrPartial.partial_after N cur_node.pfx longest_common_prefix
  let n4 := DefaultNode.new_inner (← ArrPartial.partial_before N cur_node.pfx longest_common_prefix)
  let k1 ← ArrPartial.byte_at N cur_node.pfx longest_common_prefix
  let k2 ← ArrayKey.byte_at N key (depth + longest_common_prefix)
  let new_leaf := DefaultNode.new_leaf (← ArrayKey.to_partial N key (depth + longest_common_prefix)) value
  let cur_node ← DefaultNode.add_child n4 k1 (.mk new_prefix cur_node.value cur_node.content)
  DefaultNode.add_child cur_node k2 new_leaf

/-- The key continues under an edge that the node does not have. -/
def insert_leaf (N : Nat) (cur_node : DefaultNode V) (key : Bytes) (value : V)
    (depth longest_common_prefix : Nat) : Result (DefaultNode V) := do
  let edge ← ArrayKey.byte_at N key (depth + longest_common_prefix)
  let new_leaf := DefaultNode.new_leaf (← ArrayKey.to_partial N key (depth + longest_common_prefix)) value
  DefaultNode.add_child cur_node edge new_leaf

/-- The checked descent, for `insert_k` and `try_insert_k`. -/
def insert_recurse (N : Nat) (cur_node : DefaultNode V) (key : Bytes) (value : V) (depth : Nat)
    (replace : Bool) : Result (InsertRecurseResult V × DefaultNode V) := do
  let longest_common_prefix ← ArrPartial.prefix_length_key N cur_node.pfx key depth
  let remaining ← length_at key depth
  let is_prefix_match := min cur_node.pfx.length remaining = longest_common_prefix
  if is_prefix_match ∧ cur_node.pfx.length = remaining then
    let occupied := DefaultNode.mk cur_node.pfx (some value) cur_node.content
    if replace then
      match cur_node.value with
      | some current => return (.Replaced current, occupied)
      | none => return (.Inserted, occupied)
    else
      match cur_node.value with
      | none => return (.Inserted, occupied)
      | some current => return (.Occupied value current, cur_node)
  else if is_prefix_match ∧ cur_node.pfx.length > remaining then
    return (.Inserted, ← insert_above N cur_node longest_common_prefix value)
  else if ¬ is_prefix_match then
    return (.Inserted, ← insert_split N cur_node key value depth longest_common_prefix)
  else if cur_node.is_leaf then
    return (.Inserted, ← insert_leaf N cur_node key value depth longest_common_prefix)
  else
    let k ← ArrayKey.byte_at N key (depth + longest_common_prefix)
    if (← DefaultNode.seek_child cur_node k).isNone then
      debug_assert (cur_node.is_leaf = false) "assertion failed: cur_node.is_inner()"
      return (.Inserted, ← insert_leaf N cur_node key value depth longest_common_prefix)
    else
      match _hchild : DefaultNode.seek_child_mut cur_node k with
      | .error e => throw e
      | .ok none => throw (.expect "child existence was checked above")
      | .ok (some child) =>
        let (result, child) ← insert_recurse N child key value (depth + longest_common_prefix) replace
        return (result, cur_node.write_child k child)
termination_by cur_node.node_count
decreasing_by exact DefaultNode.node_count_lt_of_seek_mut _hchild

end Steps

section Specs

variable {N : Nat} {cur_node : DefaultNode V}

/-- No key at or below a node is longer than the arrays. -/
def KeysFit (N : Nat) (node : DefaultNode V) : Prop := ∀ key v, find node key = some v → key.length ≤ N

namespace KeysFit

/-- A node holds some key, which has the node's prefix. -/
theorem pfx (h : KeysFit N cur_node) (hwf : Wf cur_node) : cur_node.pfx.length ≤ N := by
  obtain ⟨⟨key, v⟩, hentry⟩ := List.exists_mem_of_ne_nil _ hwf.entries_ne_nil
  have hfind := hwf.mem_entries_iff.1 hentry
  exact le_trans (prefix_of_find hfind).length_le (h key v hfind)

/-- The keys below a child are keys below its node. -/
theorem child (h : KeysFit N cur_node) {k : UInt8} {child : DefaultNode V} (hwf : Wf cur_node)
    (hchild : cur_node.iter.lookup k = some child) : KeysFit N child := by
  intro t v ht
  have hedge := hwf.edges (hwf.ascending.lookup_eq_some_iff.1 hchild)
  have hhead : t.head? = some k := head?_of_find hedge ht
  obtain ⟨rest, rfl⟩ := List.head?_eq_some_iff.1 hhead
  have hlen := h _ v ((DefaultNode.find_below hchild rest).trans ht)
  rw [List.length_append] at hlen
  omega

end KeysFit

/-- A table with a free edge has room for a child. -/
theorem length_lt_of_absent (hwf : Wf cur_node) {k : UInt8} (habsent : cur_node.iter.lookup k = none) :
    cur_node.iter.length < 256 := by
  have hasc : Ascending cur_node.iter := hwf.ascending
  have hlen := mapping.length_le_of_ascending (hasc.insertSorted (lookup_eq_none_iff.1 habsent) cur_node)
  rw [length_insertSorted] at hlen
  omega

/-- A lookup on keys that fit fails on no assertion. -/
theorem get_bytes_iterate_follows (hwf : Wf cur_node) (hfit : KeysFit N cur_node) (key : Bytes) (depth : Nat) :
    Follows (probe.get_bytes_iterate cur_node key depth) (get_bytes_iterate N cur_node key depth) := by
  induction hn : cur_node.node_count using Nat.strongRecOn generalizing cur_node depth with
  | ind n ih =>
    subst hn
    rw [get_bytes_iterate, probe.get_bytes_iterate]
    refine (Follows.refl _).bind fun remaining_len _ => ?_
    refine (Follows.refl _).bind fun rest _ => ?_
    rw [ArrPartial.prefix_length_slice_eq (hfit.pfx hwf), ok_bind]
    dsimp only [Node.pfx, Node.value, Node.seek_child]
    split
    · exact Follows.refl _
    · split
      · exact Follows.refl _
      · refine (Follows.refl _).bind fun k _ => ?_
        have hseek := DefaultNode.seek_child_eq hwf.layout k
        split
        · rename_i hnone
          rw [hnone] at hseek
          split
          · rename_i hstop
            cases hseek.symm.trans hstop
          · exact Follows.refl _
          · rename_i hfound
            cases hseek.symm.trans hfound
        · rename_i child hsome
          have hmem := hwf.child_of_seek hsome
          rw [hsome] at hseek
          split
          · rename_i hstop
            cases hseek.symm.trans hstop
          · rename_i hnone
            cases hseek.symm.trans hnone
          · rename_i found hfound
            cases hseek.symm.trans hfound
            have hlookup : cur_node.iter.lookup k = some child := hwf.ascending.lookup_eq_some_iff.2 hmem
            exact ih child.node_count (DefaultNode.node_count_lt_of_iter hmem) (hwf.child hmem)
              (hfit.child hwf hlookup) _ rfl

variable {key : Bytes} {depth : Nat}

/-- A prefix that fits can be cut anywhere. -/
theorem insert_above_follows (hpfx : cur_node.pfx.length ≤ N) (common_len : Nat) (value : V) :
    Follows (tree.insert_above cur_node common_len value)
      (insert_above N cur_node common_len value) := by
  refine (ArrPartial.partial_after_follows hpfx _).bind fun after _ => ?_
  refine (ArrPartial.partial_before_follows hpfx _).bind fun before _ => ?_
  refine (ArrPartial.byte_at_follows _).bind fun edge _ => ?_
  have hempty : (DefaultNode.mk before (some value) (.Node4 .new)).content.Repr [] := children_empty4.repr
  exact DefaultNode.add_child_follows hempty edge _ (by decide : 0 < 256)

/-- What is cut from a prefix and a key that fit fits as well. -/
theorem insert_split_follows (hpfx : cur_node.pfx.length ≤ N) (hkey : key.length ≤ N) (value : V)
    (depth longest_common_prefix : Nat) :
    Follows (tree.insert_split cur_node key value depth longest_common_prefix)
      (insert_split N cur_node key value depth longest_common_prefix) := by
  refine (ArrPartial.partial_after_follows hpfx _).bind fun after _ => ?_
  refine (ArrPartial.partial_before_follows hpfx _).bind fun before _ => ?_
  refine (ArrPartial.byte_at_follows _).bind fun k1 _ => ?_
  refine (ArrayKey.byte_at_follows N key _).bind fun k2 _ => ?_
  refine (ArrayKey.to_partial_follows hkey _).bind fun rest _ => ?_
  have hempty : (DefaultNode.new_inner before : DefaultNode V).content.Repr [] := children_empty4.repr
  refine (DefaultNode.add_child_follows hempty k1 _ (by decide : 0 < 256)).bind fun split hsplit => ?_
  obtain ⟨content, hadd, hrepr⟩ := DefaultNode.add_child_spec (.new_inner before) children_empty4.repr k1
    (.mk after cur_node.value cur_node.content) rfl
  cases hsplit.symm.trans hadd
  have hone : (DefaultNode.mk before none content : DefaultNode V).content.Repr _ := hrepr
  exact DefaultNode.add_child_follows hone k2 _ (by decide : 1 < 256)

/-- A leaf for the rest of a key that fits. -/
theorem insert_leaf_follows (hwf : Wf cur_node) (hroom : cur_node.iter.length < 256) (hkey : key.length ≤ N)
    (value : V) (depth longest_common_prefix : Nat) :
    Follows (tree.insert_leaf cur_node key value depth longest_common_prefix)
      (insert_leaf N cur_node key value depth longest_common_prefix) := by
  refine (ArrayKey.byte_at_follows N key _).bind fun edge _ => ?_
  refine (ArrayKey.to_partial_follows hkey _).bind fun rest _ => ?_
  exact DefaultNode.add_child_follows hwf.layout edge _ hroom

/-- An insertion joins no prefixes, and so fits where its key does. -/
theorem insert_recurse_follows (hwf : Wf cur_node) (hfit : KeysFit N cur_node) (hkey : key.length ≤ N)
    (value : V) (depth : Nat) (replace : Bool) :
    Follows (tree.insert_recurse cur_node key value depth replace)
      (insert_recurse N cur_node key value depth replace) := by
  induction hn : cur_node.node_count using Nat.strongRecOn generalizing cur_node depth with
  | ind n ih =>
    subst hn
    have hpfx := hfit.pfx hwf
    rw [insert_recurse, tree.insert_recurse]
    refine (ArrPartial.prefix_length_key_follows hpfx key depth).bind fun lcp _ => ?_
    refine (Follows.refl _).bind fun remaining _ => ?_
    dsimp only
    split
    · exact Follows.refl _
    · split
      · exact (insert_above_follows hpfx _ value).bind fun _ _ => Follows.refl _
      · split
        · exact (insert_split_follows hpfx hkey value depth _).bind fun _ _ => Follows.refl _
        · split
          · rename_i hleaf
            have hiter : cur_node.iter = [] := Node.iter_leaf hwf.layout hleaf
            have hroom : cur_node.iter.length < 256 := by
              rw [hiter]
              exact Nat.succ_pos 255
            exact (insert_leaf_follows hwf hroom hkey value depth _).bind fun _ _ => Follows.refl _
          · rename_i hinner
            refine (ArrayKey.byte_at_follows N key _).bind fun k _ => ?_
            rw [DefaultNode.seek_child_eq hwf.layout k, ok_bind]
            have hseek : cur_node.seek_child k = cur_node.iter.lookup k := hwf.seek_eq k
            have hseekmut : cur_node.seek_child_mut k = cur_node.iter.lookup k :=
              Content.Repr.seek_child hwf.layout k
            have hdebug := DefaultNode.seek_child_mut_eq hwf.layout k
            split
            · rename_i hnone
              rw [hseek, Option.isNone_iff_eq_none] at hnone
              rw [debug_assert_of (Bool.eq_false_of_not_eq_true hinner), ok_bind]
              exact (insert_leaf_follows hwf (length_lt_of_absent hwf hnone) hkey value depth _).bind
                fun _ _ => Follows.refl _
            · split
              · intro _ hstop
                cases hstop
              · rename_i child hsome
                rw [hsome] at hdebug
                have hlookup := hseekmut.symm.trans hsome
                have hmem : (k, child) ∈ cur_node.iter := hwf.ascending.lookup_eq_some_iff.1 hlookup
                split
                · rename_i hstop
                  cases hdebug.symm.trans hstop
                · rename_i hnone
                  cases hdebug.symm.trans hnone
                · rename_i found hfound
                  cases hdebug.symm.trans hfound
                  exact (ih child.node_count (DefaultNode.node_count_lt_of_iter hmem) (hwf.child hmem)
                    (hfit.child hwf hlookup) _ rfl).bind fun _ _ => Follows.refl _

end Specs

end rart.debug
