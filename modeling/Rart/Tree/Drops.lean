import Rart.NodeDrops
import Rart.Tree.Scans

open SortedAssoc
open rart.node rart.utils rart.Trie
open rart.iter (ValuesIter pfx_ne_nil)
open scoped List

namespace rart.tree

variable {V : Type}

/-- The value of a node is dropped before its table, and a child at its place in the table.
The recursion goes down as many levels as there is fuel. -/
def drop_node : Nat → DefaultNode V → Result (List V)
  | 0, _ => throw .out_of_fuel
  | fuel + 1, node => do
    let below ← (← node.content.drop).mapM (drop_node fuel)
    return node.value.toList ++ below.flatten

def AdaptiveRadixTree.drop (fuel : Nat) (self : AdaptiveRadixTree V) : Result (List V) :=
  match self.root with
  | none => return []
  | some root => drop_node fuel root

/-- Each child drops what it has, in whatever order the table drops the children. -/
theorem mapM_perm {α β : Type} {f : α → Result (List β)} {values : α → List β} {l l' : List α}
    (hf : ∀ a ∈ l, ∃ dropped, f a = .ok dropped ∧ dropped ~ values a) (hperm : l' ~ l) :
    ∃ below, l'.mapM f = .ok below ∧ below.flatten ~ l.flatMap values := by
  have hall : ∀ l : List α, (∀ a ∈ l, ∃ dropped, f a = .ok dropped ∧ dropped ~ values a) →
      ∃ below, l.mapM f = .ok below ∧ below.flatten ~ l.flatMap values := by
    intro l
    induction l with
    | nil => exact fun _ => ⟨[], rfl, List.Perm.refl _⟩
    | cons a l ih =>
      intro hmem
      obtain ⟨dropped, ha, hvalues⟩ := hmem a List.mem_cons_self
      obtain ⟨below, hl, hbelow⟩ := ih fun b hb => hmem b (List.mem_cons_of_mem _ hb)
      refine ⟨dropped :: below, ?_, ?_⟩
      · rw [List.mapM_cons, ha, ok_bind, hl]
        rfl
      · rw [List.flatten_cons, List.flatMap_cons]
        exact hvalues.append hbelow
  obtain ⟨below, hok, hflat⟩ := hall l' fun a ha => hf a (hperm.mem_iff.1 ha)
  exact ⟨below, hok, hflat.trans (hperm.flatMap_right values)⟩

section Depth

variable [Features] {node : DefaultNode V} {fuel : Nat}

/-- One level: the children need one level less. -/
theorem drop_node_level (hwf : Wf node)
    (hbelow : ∀ p ∈ node.iter, ∃ dropped, drop_node fuel p.2 = .ok dropped ∧ dropped ~ (entries p.2).map Prod.snd) :
    ∃ dropped, drop_node (fuel + 1) node = .ok dropped ∧ dropped ~ (entries node).map Prod.snd := by
  cases hwf with
  | intro _ layout edges children occupied =>
    have layout : node.content.Repr node.iter := layout
    have hchildren : ∀ c ∈ node.iter.map Prod.snd, ∃ dropped, drop_node fuel c = .ok dropped ∧
        dropped ~ (entries c).map Prod.snd := by
      intro c hc
      obtain ⟨p, hp, rfl⟩ := List.mem_map.1 hc
      exact hbelow p hp
    obtain ⟨dropped, hdrop, hperm⟩ := layout.drop
    obtain ⟨below, hok, hflat⟩ := mapM_perm hchildren hperm
    refine ⟨node.value.toList ++ below.flatten, ?_, ?_⟩
    · rw [drop_node, hdrop, ok_bind, hok]
      rfl
    · have hvalues : (entries node).map Prod.snd =
          node.value.toList ++ (node.iter.map Prod.snd).flatMap fun c => (entries c).map Prod.snd := by
        rw [entries_eq_append, List.map_append, List.flatMap_map]
        congr 1
        · change ((node.value.map fun v => (node.pfx, v)).toList).map Prod.snd = _
          cases node.value <;> rfl
        · rw [← under, map_snd_under, childEntries, List.map_flatMap]
          rfl
      rw [hvalues]
      exact hflat.append_left _

theorem entries_below {p : UInt8 × DefaultNode V} (hp : p ∈ node.iter) {e : Bytes × V} (he : e ∈ entries p.2) :
    (node.pfx ++ e.1, e.2) ∈ entries node :=
  mem_entries.2 (.inr ⟨e, mem_childEntries.2 ⟨p, hp, he⟩, rfl, rfl⟩)

/-- Below an edge each level takes at least one byte of the keys. -/
theorem drop_node_below (hwf : Wf node) (hedge : node.pfx ≠ []) (hfuel : ∀ e ∈ entries node, e.1.length ≤ fuel) :
    ∃ dropped, drop_node fuel node = .ok dropped ∧ dropped ~ (entries node).map Prod.snd := by
  have hpos := List.length_pos_iff.2 hedge
  induction fuel generalizing node with
  | zero =>
    obtain ⟨e, he⟩ := List.exists_mem_of_ne_nil _ hwf.entries_ne_nil
    have hpfx : node.pfx <+: e.1 := prefix_of_find (hwf.mem_entries_iff.1 he)
    have hle := hpfx.length_le
    have hshort := hfuel e he
    omega
  | succ fuel ih =>
    refine drop_node_level hwf fun p hp => ?_
    have hbyte := pfx_ne_nil hwf hp
    refine ih (hwf.child hp) hbyte (fun e he => ?_) (List.length_pos_iff.2 hbyte)
    have hlong := hfuel _ (entries_below hp he)
    rw [List.length_append] at hlong
    omega

end Depth

variable [Features] {tree : AdaptiveRadixTree V}

/-- A tree that is dropped drops every value that it holds, each once, whatever came before,
and no other. The recursion goes down no further than the longest key is long, and one node. -/
theorem AdaptiveRadixTree.drops_values (h : Reachable tree) {longest : Nat}
    (hlongest : ∀ key value, tree.get_k key = .ok (some value) → key.length ≤ longest) :
    ∃ dropped, tree.drop (longest + 1) = .ok dropped ∧ dropped ~ (ValuesIter.new tree.root).collect ∧
      dropped.length = tree.len := by
  obtain ⟨m, hm⟩ := h.represents
  have hlong : ∀ e ∈ rootEntries tree.root, e.1.length ≤ longest := fun e he =>
    hlongest e.1 e.2 ((hm.get_k_eq e.1).trans (congrArg Except.ok ((hm.lists.mem e.1 e.2).1 he)))
  rw [ValuesIter.collect_new_root hm.wf]
  have hcount : ((rootEntries tree.root).map Prod.snd).length = tree.len := by
    rw [List.length_map, hm.len, hm.lists.size]
  obtain ⟨root, len⟩ := tree
  cases root with
  | none => exact ⟨[], rfl, List.Perm.refl _, hcount⟩
  | some root =>
    have hwf := hm.wf root rfl
    have hbelow : ∀ p ∈ root.iter, ∀ e ∈ entries p.2, e.1.length ≤ longest := by
      intro p hp e he
      have hle := hlong _ (entries_below hp he)
      rw [List.length_append] at hle
      omega
    obtain ⟨dropped, hdrop, hperm⟩ := drop_node_level hwf fun p hp =>
      drop_node_below (hwf.child hp) (pfx_ne_nil hwf hp) (hbelow p hp)
    exact ⟨dropped, hdrop, hperm, hperm.length_eq.trans hcount⟩

omit [Features] in
/-- A table below another, over keys of three bytes. -/
theorem AdaptiveRadixTree.drops_values_nesting :
    letI : Features := ⟨none⟩
    ∃ replies tree, runTree .new nesting = .ok (replies, tree) ∧
      ∃ dropped, tree.drop 4 = .ok dropped ∧ dropped ~ (ValuesIter.new tree.root).collect ∧
        dropped.length = tree.len := by
  let : Features := ⟨none⟩
  obtain ⟨tree, hrun, hm⟩ := runTree_spec represents_new nesting
  refine ⟨_, tree, hrun, AdaptiveRadixTree.drops_values (Reachable.run (.fresh .new) hrun) fun key value hkey => ?_⟩
  rw [hm.get_k_eq] at hkey
  have hfound : (runMap ∅ nesting).2.lookup key = some value := Except.ok.inj hkey
  simp only [nesting, runMap, Op.onMap, Op.key, Op.left, RefMap.lookup_setSlot, Finmap.lookup_empty] at hfound
  grind

end rart.tree
