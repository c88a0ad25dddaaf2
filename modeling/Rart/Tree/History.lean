import Rart.Tree.Invariant

open SortedAssoc
open rart.node rart.utils rart.Trie

namespace rart.tree

variable {V E E' : Type}

/-- Two nodes of one structure, down to the leaves. A node without children may have an empty
table or none at all. -/
inductive Alike : DefaultNode V → DefaultNode V → Prop where
  | intro (a b : DefaultNode V) (pfx : a.pfx = b.pfx) (value : a.value = b.value)
      (layout : a.iter ≠ [] → a.content.capacity = b.content.capacity)
      (edges : a.iter.map Prod.fst = b.iter.map Prod.fst)
      (children : ∀ k c d, (k, c) ∈ a.iter → (k, d) ∈ b.iter → Alike c d) : Alike a b

/-- The same for whole trees. -/
structure AlikeTree (a b : AdaptiveRadixTree V) : Prop where
  len : a.len = b.len
  root : Option.Rel Alike a.root b.root

section Nodes

variable [Features] {a b n : DefaultNode V}

omit [Features] in
theorem canonical_of_inner (hfits : LayoutFits n) (hbranches : Branches n) (hinner : n.iter ≠ []) : Canonical n :=
  ⟨hfits, hbranches, fun hnil => absurd hnil hinner⟩

/-- The prefix of a node that branches is the longest that its keys share. -/
theorem longest_of_branches (hwf : Wf n) (hfits : LayoutFits n) (hbranches : Branches n) {p : Bytes}
    (hp : ∀ key v, find n key = some v → p <+: key) : p <+: n.pfx := by
  by_cases hnil : n.iter = []
  · obtain ⟨v, hv⟩ := hwf.occupied hnil
    exact hp n.pfx v ((DefaultNode.find_value n).trans hv)
  · exact longest_of_canonical hwf (canonical_of_inner hfits hbranches hnil) hp

/-- Nodes that branch and find the same values are alike. -/
theorem alike_of_find (ha : Wf a) (hb : Wf b) (hfita : Every LayoutFits a) (hfitb : Every LayoutFits b)
    (hbra : Every Branches a) (hbrb : Every Branches b) (hfind : ∀ key, find a key = find b key) :
    Alike a b := by
  induction hn : a.node_count using Nat.strongRecOn generalizing a b with
  | ind n ih =>
    subst hn
    have hshares : ∀ {x y : DefaultNode V}, Wf y → LayoutFits y → Branches y →
        (∀ key, find x key = find y key) → x.pfx <+: y.pfx := fun hy hfits hbranches heq =>
      longest_of_branches hy hfits hbranches fun key v hfound => prefix_of_find (heq key ▸ hfound)
    have hpfx : a.pfx = b.pfx := (hshares hb hfitb.here hbrb.here hfind).eq_of_length_le
      (hshares ha hfita.here hbra.here fun key => (hfind key).symm).length_le
    have hvalue : a.value = b.value := by
      rw [← a.find_value, ← b.find_value, hpfx]
      exact hfind _
    have hedges : a.iter.map Prod.fst = b.iter.map Prod.fst :=
      keys_ext ha.ascending hb.ascending fun k =>
        ⟨edges_subset ha hpfx hfind, edges_subset hb hpfx.symm fun key => (hfind key).symm⟩
    have hlen := congrArg List.length hedges
    rw [List.length_map, List.length_map] at hlen
    refine .intro a b hpfx hvalue (fun hinner => ?_) hedges fun k c d hc hd => ?_
    · have hinner' : b.iter ≠ [] := by
        rw [← List.length_pos_iff, ← hlen, List.length_pos_iff]
        exact hinner
      exact capacity_eq_of_canonical (canonical_of_inner hfita.here hbra.here hinner)
        (canonical_of_inner hfitb.here hbrb.here hinner') hlen
    · refine ih c.node_count (DefaultNode.node_count_lt_of_iter hc) (ha.child hc) (hb.child hd)
        (hfita.child hc) (hfitb.child hd) (hbra.child hc) (hbrb.child hd) (fun key => ?_) rfl
      rw [find_child ha hc, find_child hb hd, hpfx, hfind]

/-- Alike nodes find the same values. -/
theorem Alike.find_eq (h : Alike a b) (ha : Wf a) (hb : Wf b) (key : Bytes) : find a key = find b key := by
  induction h generalizing key with
  | intro a b hpfx hvalue _ hedges _ ih =>
    cases hstrip : a.pfx.isPrefixOf? key with
    | none =>
      have hnot : ∀ {n : DefaultNode V}, n.pfx = a.pfx → ¬ n.pfx <+: key := by
        rintro n hn ⟨rest, rfl⟩
        rw [hn, isPrefixOf?_append_self] at hstrip
        cases hstrip
      rw [find_eq_none_of_not_pfx (hnot rfl), find_eq_none_of_not_pfx (hnot hpfx.symm)]
    | some rest =>
      obtain rfl := List.isPrefixOf?_eq_some_iff_append_eq.1 hstrip
      cases rest with
      | nil =>
        rw [List.append_nil]
        have hself := b.find_value
        rw [← hpfx] at hself
        rw [a.find_value, hself, hvalue]
      | cons k rest =>
        have hsame : k ∈ a.iter.map Prod.fst ↔ k ∈ b.iter.map Prod.fst := by rw [hedges]
        cases hlookup : a.iter.lookup k with
        | none =>
          have habsent : b.iter.lookup k = none := by
            rw [lookup_eq_none_iff, ← hsame, ← lookup_eq_none_iff]
            exact hlookup
          have hnone := DefaultNode.find_absent habsent rest
          rw [← hpfx] at hnone
          rw [DefaultNode.find_absent hlookup rest, hnone]
        | some c =>
          have hc := mem_of_lookup hlookup
          obtain ⟨⟨k', d⟩, hd, rfl⟩ := List.mem_map.1 (hsame.1 (List.mem_map_of_mem hc))
          have hbelow := DefaultNode.find_below (hb.ascending.lookup_eq_some_iff.2 hd) rest
          rw [← hpfx] at hbelow
          rw [DefaultNode.find_below hlookup rest, hbelow]
          exact ih k' c d hc hd (ha.child hc) (hb.child hd) (k' :: rest)

end Nodes

section Runs

variable [Features] {tree a b start start' : AdaptiveRadixTree V} {m m' : RefMap V}

/-- Trees whose layouts fit and whose nodes branch are alike where they stand for one map. -/
theorem Represents.alike (ha : Represents a m) (hb : Represents b m) (hfita : EveryNode LayoutFits a)
    (hfitb : EveryNode LayoutFits b) (hbra : EveryNode Branches a) (hbrb : EveryNode Branches b) :
    AlikeTree a b := by
  refine ⟨ha.len.trans hb.len.symm, ?_⟩
  have hfind : ∀ key, (a.root.bind fun root => Trie.find root key) = b.root.bind fun root => Trie.find root key :=
    fun key => (ha.find key).trans (hb.find key).symm
  have hfinds : ∀ {root : DefaultNode V}, Wf root → ∃ key v, Trie.find root key = some v := by
    intro root hwf
    obtain ⟨e, he⟩ := List.exists_mem_of_ne_nil _ hwf.entries_ne_nil
    exact ⟨e.1, e.2, hwf.mem_entries_iff.1 he⟩
  cases hroota : a.root with
  | none =>
    cases hrootb : b.root with
    | none => exact .none
    | some rootb =>
      obtain ⟨key, v, hfound⟩ := hfinds (hb.wf rootb hrootb)
      have hkey := hfind key
      rw [hroota, hrootb, Option.bind_some, hfound] at hkey
      cases hkey
  | some roota =>
    cases hrootb : b.root with
    | none =>
      obtain ⟨key, v, hfound⟩ := hfinds (ha.wf roota hroota)
      have hkey := hfind key
      rw [hroota, hrootb, Option.bind_some, hfound] at hkey
      cases hkey
    | some rootb =>
      refine .some (alike_of_find (ha.wf _ hroota) (hb.wf _ hrootb) (hfita _ hroota) (hfitb _ hrootb)
        (hbra _ hroota) (hbrb _ hrootb) fun key => ?_)
      have hkey := hfind key
      rwa [hroota, hrootb] at hkey

/-- Alike trees stand for the same map. -/
theorem AlikeTree.find_eq (h : AlikeTree a b) (ha : Represents a m) (hb : Represents b m') (key : Bytes) :
    m.lookup key = m'.lookup key := by
  rw [← ha.find, ← hb.find]
  have hroot := h.root
  cases hroota : a.root with
  | none =>
    rw [hroota] at hroot
    cases hrootb : b.root with
    | none => rfl
    | some rootb =>
      rw [hrootb] at hroot
      cases hroot
  | some roota =>
    rw [hroota] at hroot
    cases hrootb : b.root with
    | none =>
      rw [hrootb] at hroot
      cases hroot
    | some rootb =>
      rw [hrootb] at hroot
      cases hroot with
      | some halike => exact halike.find_eq (ha.wf _ hroota) (hb.wf _ hrootb) key

/-- A run that strands no child keeps the layouts fitting and the nodes branching. -/
theorem runTree_spares (h : Represents tree m) (hfits : EveryNode LayoutFits tree)
    (hbranches : EveryNode Branches tree) (ops : List (Op V E)) (hspares : SparesThroughout tree ops) :
    ∃ replies after, runTree tree ops = .ok (replies, after) ∧ Represents after (runMap m ops).2 ∧
      EveryNode LayoutFits after ∧ EveryNode Branches after := by
  induction ops generalizing tree m with
  | nil => exact ⟨[], tree, rfl, h, hfits, hbranches⟩
  | cons op ops ih =>
    obtain ⟨hspare, hrest⟩ := hspares
    obtain ⟨next, hstep, hsets⟩ := op.step_sets h
    have hbranches' := (hsets.changed.branches_iff h hfits hbranches).2 (by rwa [← op.strands_iff h])
    obtain ⟨replies, after, hrun, hafter⟩ := ih (hsets.represents h) (hsets.changed.layoutFits h hfits)
      hbranches' (hrest _ next hstep)
    refine ⟨(op.onMap m).1 :: replies, after, ?_, hafter⟩
    rw [runTree, hstep, ok_bind]
    dsimp only
    rw [hrun]
    rfl

theorem Fresh.run_spares (hstart : Fresh start) (ops : List (Op V E)) (hspares : SparesThroughout start ops) :
    ∃ m replies tree, runTree start ops = .ok (replies, tree) ∧ Represents tree m ∧
      EveryNode LayoutFits tree ∧ EveryNode Branches tree := by
  obtain ⟨m, hloads⟩ := hstart.loads
  obtain ⟨replies, tree, hrun, hafter⟩ := runTree_spares hloads.represents
    (fun root hroot => (hloads.canonical root hroot).imp fun _ hnode => hnode.1)
    (fun root hroot => (hloads.canonical root hroot).imp fun _ hnode => hnode.2.1) ops hspares
  exact ⟨_, replies, tree, hrun, hafter⟩

/-- Insertions strand nothing. -/
theorem sparesThroughout_inserts (items : List (Bytes × V)) (tree : AdaptiveRadixTree V) :
    SparesThroughout tree (inserts items) := by
  induction items generalizing tree with
  | nil => exact trivial
  | cons e items ih =>
    refine ⟨?_, fun _ next _ => ih next⟩
    rintro ⟨_, _, _, _, _, _, _, hleft⟩
    cases hleft

/-- Two runs from new or loaded trees, of any mutations, none of which strands a child, end with
the same entries exactly if they end with alike trees. -/
theorem AdaptiveRadixTree.history_independent (hstart : Fresh start) (hstart' : Fresh start')
    (ops : List (Op V E)) (ops' : List (Op V E')) (hspares : SparesThroughout start ops)
    (hspares' : SparesThroughout start' ops') :
    ∃ replies tree replies' tree', runTree start ops = .ok (replies, tree) ∧
      runTree start' ops' = .ok (replies', tree') ∧
      ((∀ key, tree.get_k key = tree'.get_k key) ↔ AlikeTree tree tree') := by
  obtain ⟨m, replies, tree, hrun, hrep, hfits, hbranches⟩ := hstart.run_spares ops hspares
  obtain ⟨m', replies', tree', hrun', hrep', hfits', hbranches'⟩ := hstart'.run_spares ops' hspares'
  refine ⟨replies, tree, replies', tree', hrun, hrun', fun hsame => ?_, fun halike key => ?_⟩
  · have hmap : m = m' := Finmap.ext_lookup fun key => by
      have hkey := hsame key
      rw [hrep.get_k_eq, hrep'.get_k_eq] at hkey
      exact Except.ok.inj hkey
    subst hmap
    exact hrep.alike hrep' hfits hfits' hbranches hbranches'
  · rw [hrep.get_k_eq, hrep'.get_k_eq, halike.find_eq hrep hrep' key]

omit [Features] in
/-- Two keys in either order. -/
theorem AdaptiveRadixTree.history_independent_two :
    letI : Features := ⟨none⟩
    ∃ replies tree replies' tree',
      runTree (.new : AdaptiveRadixTree Nat) [(.insert_k [1] 1 : Op Nat Empty), .insert_k [2] 2] =
        .ok (replies, tree) ∧
      runTree (.new : AdaptiveRadixTree Nat) [(.insert_k [2] 2 : Op Nat Empty), .insert_k [1] 1] =
        .ok (replies', tree') ∧
      ((∀ key, tree.get_k key = tree'.get_k key) ↔ AlikeTree tree tree') := by
  let : Features := ⟨none⟩
  exact AdaptiveRadixTree.history_independent .new .new _ _
    (sparesThroughout_inserts [([1], 1), ([2], 2)] _) (sparesThroughout_inserts [([2], 2), ([1], 1)] _)

end Runs

end rart.tree
