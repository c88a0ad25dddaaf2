import Rart.Debug.Insert
import Rart.Tree.Shape

open Checked SortedAssoc LexOrder
open rart.node rart.partials rart.tree rart.utils rart.Trie

namespace rart.debug

variable {V : Type} [Features]

section Steps

/-- A leaf is deleted together with its edge. -/
def remove_leaf (N : Nat) (parent_node : DefaultNode V) (c : UInt8) : Result (Option V × DefaultNode V) := do
  let (node, parent_node) ← DefaultNode.delete_child N parent_node c
  let v ← expect (← unwrap node).value "corruption: missing value at deleted leaf"
  return (some v, parent_node)

/-- A child that is left without children and value is deleted. -/
def prune_child (N : Nat) (parent_node : DefaultNode V) (c : UInt8) (child_pfx : Bytes) :
    Result (DefaultNode V) := do
  let (deleted, parent_node) ← DefaultNode.delete_child N parent_node c
  let deleted ← unwrap deleted
  debug_assert (child_pfx = deleted.pfx) "assertion `left == right` failed"
  return parent_node

/-- The checked descent of `remove_k`. -/
def remove_recurse (N : Nat) (parent_node : DefaultNode V) (key : Bytes) (depth : Nat) :
    Result (Option V × DefaultNode V) := do
  let c ← ArrayKey.byte_at N key depth
  match _hchild : DefaultNode.seek_child_mut parent_node c with
  | .error e => throw e
  | .ok none => return (none, parent_node)
  | .ok (some child_node) =>
    let prefix_common_match ← ArrPartial.prefix_length_key N child_node.pfx key depth
    if prefix_common_match ≠ child_node.pfx.length then return (none, parent_node)
    else
      let remaining ← length_at key depth
      if child_node.pfx.length = remaining then
        if child_node.is_leaf then remove_leaf N parent_node c
        else
          let removed := child_node.value
          let child_node := DefaultNode.mk child_node.pfx none child_node.content
          let parent_node := parent_node.write_child c child_node
          if removed.isSome ∧ child_node.num_children = 0 then
            return (removed, ← prune_child N parent_node c child_node.pfx)
          else return (removed, parent_node)
      else if child_node.is_leaf then
        if child_node.pfx.length ≠ remaining then return (none, parent_node)
        else remove_leaf N parent_node c
      else
        let (result, child_node) ← remove_recurse N child_node key (depth + child_node.pfx.length)
        let parent_node := parent_node.write_child c child_node
        if result.isSome ∧ child_node.is_leaf = false ∧ child_node.num_children = 0 ∧
            child_node.value.isNone then
          return (result, ← prune_child N parent_node c child_node.pfx)
        else return (result, parent_node)
termination_by parent_node.node_count
decreasing_by exact DefaultNode.node_count_lt_of_seek_mut _hchild

end Steps

section Full

variable {N : Nat} {node child after : DefaultNode V} {k : UInt8} {s key : Bytes}

/-- A node holds one key and no other. -/
def HoldsOnly (node : DefaultNode V) (key : Bytes) : Prop := ∀ t, (find node t).isSome ↔ t = key

/-- Taking a key out of a node deletes the edge of a child that holds nothing else, and
what is left is one child of a valueless node with no room to join the prefixes. -/
inductive Fills (N : Nat) : DefaultNode V → Bytes → Prop where
  | here {node child : DefaultNode V} {k : UInt8} {s : Bytes} (hchild : node.iter.lookup k = some child)
      (honly : HoldsOnly child (k :: s)) (hjoin : DefaultNode.JoinFills N node (eraseKey k node.iter)) :
      Fills N node (node.pfx ++ k :: s)
  | deeper {node child : DefaultNode V} {k : UInt8} {s : Bytes} (hchild : node.iter.lookup k = some child)
      (hbelow : Fills N child (k :: s)) : Fills N node (node.pfx ++ k :: s)

/-- Below a node there are two places where a prefix can be filled. -/
theorem fills_iff (hchild : node.iter.lookup k = some child) :
    Fills N node (node.pfx ++ k :: s) ↔ Fills N child (k :: s) ∨
      (HoldsOnly child (k :: s) ∧ DefaultNode.JoinFills N node (eraseKey k node.iter)) := by
  constructor
  · intro hfills
    generalize hkey : node.pfx ++ k :: s = key at hfills
    cases hfills with
    | here hchild' honly hjoin =>
      cases List.append_cancel_left hkey
      cases hchild.symm.trans hchild'
      exact Or.inr ⟨honly, hjoin⟩
    | deeper hchild' hbelow =>
      cases List.append_cancel_left hkey
      cases hchild.symm.trans hchild'
      exact Or.inl hbelow
  · rintro (hbelow | ⟨honly, hjoin⟩)
    · exact .deeper hchild hbelow
    · exact .here hchild honly hjoin

/-- Only a stored key can be taken out. -/
theorem Fills.found (h : Fills N node key) : (find node key).isSome := by
  induction h with
  | here hchild honly hjoin =>
    rw [DefaultNode.find_below hchild]
    exact (honly _).2 rfl
  | deeper hchild hbelow ih =>
    rw [DefaultNode.find_below hchild]
    exact ih

/-- A removal that misses joins nothing. -/
theorem not_fills_of_absent (h : find node key = none) : ¬ Fills N node key := by
  intro hfills
  have hfound := hfills.found
  rw [h] at hfound
  cases hfound

/-- The joined prefix is the start of a stored key. -/
theorem Fills.exists_full (hwf : Wf node) (h : Fills N node key) : ∃ t v, find node t = some v ∧ N ≤ t.length := by
  induction h with
  | @here node child k s hchild honly hjoin =>
    obtain ⟨_, k', last, hlast, hfull⟩ := hjoin
    have hmem : (k', last) ∈ node.iter := (mem_eraseKey.1 (hlast ▸ List.mem_singleton_self _)).1
    have hlookup : node.iter.lookup k' = some last := hwf.ascending.lookup_eq_some_iff.2 hmem
    have hwflast := hwf.child hmem
    obtain ⟨⟨t, v⟩, hentry⟩ := List.exists_mem_of_ne_nil _ hwflast.entries_ne_nil
    have hfind := hwflast.mem_entries_iff.1 hentry
    have hhead : t.head? = some k' := head?_of_find (hwf.edges hmem) hfind
    obtain ⟨rest, rfl⟩ := List.head?_eq_some_iff.1 hhead
    refine ⟨node.pfx ++ k' :: rest, v, (DefaultNode.find_below hlookup rest).trans hfind, le_trans hfull ?_⟩
    rw [List.length_append]
    exact Nat.add_le_add_left (prefix_of_find hfind).length_le _
  | @deeper node child k s hchild hbelow ih =>
    have hmem := hwf.ascending.lookup_eq_some_iff.1 hchild
    obtain ⟨t, v, hfind, hlen⟩ := ih (hwf.child hmem)
    have hhead : t.head? = some k := head?_of_find (hwf.edges hmem) hfind
    obtain ⟨rest, rfl⟩ := List.head?_eq_some_iff.1 hhead
    refine ⟨node.pfx ++ k :: rest, v, (DefaultNode.find_below hchild rest).trans hfind, le_trans hlen ?_⟩
    rw [List.length_append]
    exact Nat.le_add_left _ _

/-- A node's own value is taken out of its slot. -/
theorem not_fills_self : ¬ Fills N node node.pfx := by
  intro hfills
  have hlen : ∀ {key}, Fills N node key → node.pfx.length < key.length := by
    intro key hfills
    cases hfills <;> simp
  exact Nat.lt_irrefl _ (hlen hfills)

/-- A node is left bare if its last key is taken out. -/
theorem holdsOnly_iff_bare (hwf : Wf node) (hfound : (find node key).isSome) (htake : Take node key after) :
    HoldsOnly node key ↔ Bare after := by
  have hspec := htake.takenAt hwf
  constructor
  · intro honly
    refine hspec.wf.resolve_left fun hwf' => ?_
    obtain ⟨⟨t, v⟩, hentry⟩ := List.exists_mem_of_ne_nil _ hwf'.entries_ne_nil
    have hfind := hwf'.mem_entries_iff.1 hentry
    rw [hspec.updated t] at hfind
    split at hfind
    · cases hfind
    · rename_i hne
      exact hne ((honly t).1 (by rw [hfind]; rfl))
  · intro hbare t
    constructor
    · intro ht
      by_contra hne
      have hupdated := hspec.updated t
      rw [if_neg hne, find_of_bare hbare] at hupdated
      rw [← hupdated] at ht
      cases ht
    · rintro rfl
      exact hfound

/-- A node that holds one key only is left bare where its slot is emptied. -/
theorem holdsOnly_iff_bare_edited (hwf : Wf node) (hedited : Edited node key none after) :
    HoldsOnly node key ↔ Bare after := by
  cases hedited with
  | take hfound htake => exact holdsOnly_iff_bare hwf hfound htake
  | same hnone =>
    refine iff_of_false (fun honly => ?_) (not_bare_of_wf hwf)
    have hfound := (honly key).2 rfl
    rw [hnone] at hfound
    cases hfound

/-- A node without children holds its own key only. -/
theorem holdsOnly_pfx_iff (hwf : Wf node) (hvalue : node.value.isSome) :
    HoldsOnly node node.pfx ↔ node.iter = [] := by
  have hfound : (find node node.pfx).isSome := by
    rw [DefaultNode.find_value]
    exact hvalue
  rw [holdsOnly_iff_bare hwf hfound (.here node)]
  have hrepr : node.content.Repr node.iter := hwf.layout
  constructor
  · rintro ⟨_, hempty⟩
    exact Content.Repr.iter_eq hempty
  · intro hnil
    rw [hnil] at hrepr
    exact ⟨rfl, hrepr⟩

end Full

section Specs

variable {N : Nat} {parent_node child child' : DefaultNode V} {key : Bytes} {c : UInt8} {s : Bytes}

/-- Deleting a child that is there: the room for a join decides. -/
theorem delete_edge_guards (hwf : Wf parent_node) (hfits : LayoutFits parent_node)
    (hchild : parent_node.iter.lookup c = some child) :
    Guards (DefaultNode.JoinFills N parent_node (eraseKey c parent_node.iter)) (parent_node.delete_child c)
      (DefaultNode.delete_child N parent_node c) :=
  DefaultNode.delete_child_guards hwf.layout hchild hfits

/-- The leaf is taken out of its parent. -/
theorem remove_leaf_guards (hwf : Wf parent_node) (hfits : LayoutFits parent_node)
    (hchild : parent_node.iter.lookup c = some child) :
    Guards (DefaultNode.JoinFills N parent_node (eraseKey c parent_node.iter)) (tree.remove_leaf parent_node c)
      (remove_leaf N parent_node c) :=
  (delete_edge_guards hwf hfits hchild).bind_follows fun _ _ => Follows.refl _

/-- Deleting the edge of a child that was written just before. -/
theorem delete_written_guards (hwf : Wf parent_node) (hfits : LayoutFits parent_node)
    (hchild : parent_node.iter.lookup c = some child) (child' : DefaultNode V) :
    Guards (DefaultNode.JoinFills N parent_node (eraseKey c parent_node.iter))
      ((parent_node.write_child c child').delete_child c)
      (DefaultNode.delete_child N (parent_node.write_child c child') c) := by
  have hwritten := rewritten hwf.layout c child'
  have hrepr : (parent_node.write_child c child').content.Repr (setKey c child' parent_node.iter) :=
    (children_of_wf hwf).repr.write_child c child'
  have hfits' : (parent_node.write_child c child').content.Fits (setKey c child' parent_node.iter).length := by
    rw [← hwritten.iter, hwritten.length]
    exact (Content.fits_of_capacity_eq hwritten.layout).2 hfits
  have hguards := DefaultNode.delete_child_guards (N := N) hrepr (written_lookup hchild) hfits'
  rw [eraseKey_setKey] at hguards
  exact hguards

/-- So is a child that its own removal left empty. -/
theorem prune_child_guards (hwf : Wf parent_node) (hfits : LayoutFits parent_node)
    (hchild : parent_node.iter.lookup c = some child) (child' : DefaultNode V) :
    Guards (DefaultNode.JoinFills N parent_node (eraseKey c parent_node.iter))
      (tree.prune_child (parent_node.write_child c child') c)
      (prune_child N (parent_node.write_child c child') c child'.pfx) := by
  refine (delete_written_guards hwf hfits hchild child').bind_follows fun deleted hdelete => ?_
  obtain ⟨hdeleted, _⟩ := written_edge_deleted hwf hchild hdelete
  obtain ⟨found, after⟩ := deleted
  obtain rfl : found = some child' := hdeleted
  dsimp only
  rw [unwrap_some, ok_bind, ok_bind, debug_assert_of rfl]
  exact Follows.refl _

/-- A child whose slot was emptied is pruned if it held no other key. -/
theorem keep_or_prune_guards (hwf : Wf parent_node) (hfits : LayoutFits parent_node)
    (hchild : parent_node.iter.lookup c = some child) (hedited : Edited child (c :: s) none child')
    (hinner : Bare child' → child'.is_leaf = false) :
    Guards (HoldsOnly child (c :: s) ∧ DefaultNode.JoinFills N parent_node (eraseKey c parent_node.iter))
      (if (find child (c :: s)).isSome ∧ child'.is_leaf = false ∧ child'.num_children = 0 ∧
          child'.value.isNone = true then do
        return (find child (c :: s), ← tree.prune_child (parent_node.write_child c child') c)
      else return (find child (c :: s), parent_node.write_child c child'))
      (if (find child (c :: s)).isSome ∧ child'.is_leaf = false ∧ child'.num_children = 0 ∧
          child'.value.isNone = true then do
        return (find child (c :: s), ← prune_child N (parent_node.write_child c child') c child'.pfx)
      else return (find child (c :: s), parent_node.write_child c child')) := by
  have hwfchild := hwf.child (hwf.ascending.lookup_eq_some_iff.1 hchild)
  have honly := holdsOnly_iff_bare_edited hwfchild hedited
  have hpruned := pruned_iff_bare hwfchild hedited hinner
  by_cases hbare : Bare child'
  · rw [if_pos (hpruned.2 hbare), if_pos (hpruned.2 hbare)]
    refine Guards.congr ((prune_child_guards hwf hfits hchild child').bind_follows fun _ _ => Follows.refl _) ?_
    exact and_iff_right (honly.2 hbare)
  · rw [if_neg fun h => hbare (hpruned.1 h), if_neg fun h => hbare (hpruned.1 h)]
    exact .of_follows (Follows.refl _) fun hfills => hbare (honly.1 hfills.1)

/-- Taking out the value of a child deletes the child's edge if it has no children. -/
theorem fills_child_iff (hwf : Wf child) (hvalue : child.value.isSome)
    (hchild : parent_node.iter.lookup c = some child) (hpfx : child.pfx = c :: s) :
    Fills N parent_node (parent_node.pfx ++ c :: s) ↔
      child.iter = [] ∧ DefaultNode.JoinFills N parent_node (eraseKey c parent_node.iter) := by
  rw [fills_iff hchild, ← hpfx, holdsOnly_pfx_iff hwf hvalue]
  exact or_iff_right not_fills_self

/-- A key that is not there is not taken out. -/
theorem absent_guards {α : Type} {plain checked : Result α} (hnone : find parent_node key = none)
    (h : Follows plain checked) : Guards (Fills N parent_node key) plain checked :=
  .of_follows h (not_fills_of_absent hnone)

/-- Removal goes as in a release build, unless it fills a prefix. -/
theorem remove_recurse_guards (hwf : Wf parent_node) (hfits : Every LayoutFits parent_node)
    (hfit : KeysFit N parent_node) {depth : Nat} (hdepth : depth < key.length) :
    Guards (Fills N parent_node (parent_node.pfx ++ key.drop depth)) (tree.remove_recurse parent_node key depth)
      (remove_recurse N parent_node key depth) := by
  induction hn : parent_node.node_count using Nat.strongRecOn generalizing parent_node depth with
  | ind n ih =>
    subst hn
    obtain ⟨k, rest, hkey⟩ : ∃ k rest, key.drop depth = k :: rest := by
      cases hdrop : key.drop depth with
      | nil =>
        have hlen := List.drop_eq_nil_iff.1 hdrop
        omega
      | cons k rest => exact ⟨k, rest, rfl⟩
    have hbyte : byte_at key depth = .ok k := index_eq_ok (by rw [← List.head?_drop, hkey]; rfl)
    have hseek : parent_node.seek_child_mut k = parent_node.iter.lookup k :=
      Content.Repr.seek_child hwf.layout k
    have hdebug := DefaultNode.seek_child_mut_eq hwf.layout k
    rw [remove_recurse, ArrayKey.byte_at_follows N key depth k hbyte, ok_bind, hkey]
    split
    · rename_i hstop
      cases hdebug.symm.trans hstop
    · rename_i hnone
      rw [hnone] at hdebug
      have hnone : parent_node.seek_child_mut k = none := (Except.ok.inj hdebug).symm
      refine absent_guards (DefaultNode.find_absent (hseek.symm.trans hnone) rest) ?_
      rw [tree.remove_recurse, hbyte, ok_bind]
      split
      · exact Follows.refl _
      · rename_i hsome
        cases hnone.symm.trans hsome
    · rename_i child hfound
      rw [hfound] at hdebug
      have hsome : parent_node.seek_child_mut k = some child := (Except.ok.inj hdebug).symm
      have hlookup : parent_node.iter.lookup k = some child := hseek.symm.trans hsome
      have hmem := hwf.ascending.lookup_eq_some_iff.1 hlookup
      have hchild := hwf.child hmem
      have hfind := DefaultNode.find_below hlookup rest
      have hchildfit := hfit.child hwf hlookup
      have hlcp : prefix_length_key child.pfx key depth = .ok (lcp child.pfx (key.drop depth)) :=
        prefix_length_key_eq_ok (Nat.le_of_lt hdepth)
      rw [tree.remove_recurse, hbyte, ok_bind]
      split
      · rename_i hnone
        cases hnone.symm.trans hsome
      · rename_i found hfound'
        cases hsome.symm.trans hfound'
        rw [ArrPartial.prefix_length_key_follows (hchildfit.pfx hchild) key depth _ hlcp, hlcp, ok_bind, ok_bind]
        split
        · -- the child's prefix diverges from the key
          rename_i hne
          have hnone : find child (k :: rest) = none := by
            refine find_eq_none_of_not_pfx fun hpfx => hne ?_
            rw [lcp_eq_length_iff, hkey]
            exact hpfx
          exact absent_guards (hfind.trans hnone) (Follows.refl _)
        · rename_i heq
          obtain ⟨s, hs⟩ := lcp_eq_length_iff.1 (not_not.1 heq)
          have hlen := congrArg List.length hs
          simp only [List.length_append, List.length_drop] at hlen
          rw [length_at, usize_sub_eq_ok (Nat.le_of_lt hdepth), ok_bind, ok_bind]
          split
          · -- the key ends at the child
            rename_i hend
            have hnil : s = [] := List.eq_nil_of_length_eq_zero (by omega)
            rw [hnil, List.append_nil, hkey] at hs
            split
            · rename_i hleaf
              have hiter : child.iter = [] := Node.iter_leaf hchild.layout hleaf
              obtain ⟨v, hv⟩ := hchild.occupied hiter
              have hvalue : child.value.isSome := Option.isSome_iff_exists.2 ⟨v, hv⟩
              refine (remove_leaf_guards hwf hfits.here hlookup).congr ?_
              rw [fills_child_iff hchild hvalue hlookup hs]
              exact and_iff_right hiter
            · rename_i hinner
              have hvalue : find child (k :: rest) = child.value := by
                rw [← hs, DefaultNode.find_value]
              have hleaf : (DefaultNode.mk child.pfx (none : Option V) child.content).is_leaf = false :=
                Bool.not_eq_true _ ▸ hinner
              have hcleared : Edited child (k :: rest) none (.mk child.pfx none child.content) := by
                rw [← hs]
                exact edited_cleared child
              have hguards := keep_or_prune_guards (N := N) hwf hfits.here hlookup hcleared fun _ => hleaf
              rw [hvalue] at hguards
              have hnot : ¬ Fills N child (k :: rest) := by
                rw [← hs]
                exact not_fills_self
              refine Guards.congr ?_ ((fills_iff hlookup).trans (or_iff_right hnot))
              simpa [hleaf] using hguards
          · rename_i hlonger
            split
            · -- a leaf holds no longer key
              rename_i hleaf
              have hiter : child.iter = [] := Node.iter_leaf hchild.layout hleaf
              have hnone : find child (k :: rest) = none := by
                refine find_of_leaf hiter _ fun heq => hlonger ?_
                rw [← hkey] at heq
                rw [← heq, List.length_drop]
              exact absent_guards (hfind.trans hnone) (Follows.refl _)
            · have hspos : s.length ≠ 0 := by omega
              have hdrop : key.drop (depth + child.pfx.length) = s := by
                rw [← List.drop_drop, ← hs, List.drop_left]
              have hdepth' : depth + child.pfx.length < key.length := by omega
              have hrec := ih child.node_count (DefaultNode.node_count_lt_of_iter hmem) hchild (hfits.child hmem)
                hchildfit hdepth' rfl
              obtain ⟨child', hrun, hedited, hinner⟩ := remove_recurse_edits hchild hdepth'
              rw [hdrop, hs, hkey] at hrec hrun hedited
              refine Guards.congr (hrec.bind fun left hleft => ?_) (fills_iff hlookup)
              cases hrun.symm.trans hleft
              exact keep_or_prune_guards hwf hfits.here hlookup hedited hinner

end Specs

end rart.debug
