import Rart.Versioned.InPlace.Update

open SortedAssoc RcHeap Words LexOrder
open RcHeap.Heap (Valid Keeps Agree Below)
open rart.mapping rart.node rart.partials rart.utils

namespace rart.versioned_tree

open VersionedAdaptiveRadixTree

variable {V E R : Type}

section Trees

variable [Features] {h h' : Heap (VersionedNode V)} {others : List Nat} {tree after : VersionedAdaptiveRadixTree V}
  {key : Bytes} {a : Nat} {node : VersionedNode V}

omit [Features] in
theorem Live.of_root (hl : Live h tree others) (hroot : tree.root = some a) : Valid h (a :: others) := by
  have hv := hl.valid
  rwa [hroot] at hv

/-- On a descent that is not shared the root is not either. -/
theorem unshared_root (hroot : tree.root = some a) (hu : ∀ b ∈ tree.visited h key, h.count b = 1) :
    Unshared h a key := by
  unfold VersionedAdaptiveRadixTree.visited at hu
  rwa [hroot] at hu

/-- An insertion that meets no shared cell copies what its place asks for. -/
theorem insert_k_copied {value : V} {replaced : Bool} (hl : Live h tree others)
    (hu : ∀ b ∈ tree.visited h key, h.count b = 1)
    (hrun : tree.insert_k h key value = .ok (replaced, after, h')) :
    h'.copied = h.copied + tree.insertion_copies h key := by
  unfold insert_k at hrun
  unfold VersionedAdaptiveRadixTree.insertion_copies
  cases hroot : tree.root with
  | none =>
    rw [hroot] at hrun
    cases hrun
    rfl
  | some a =>
    obtain ⟨node, hnode⟩ := hl.root_live hroot
    have hlt := Nat.lt_succ_of_le (hl.newest a node hroot hnode)
    rw [hroot] at hrun
    obtain ⟨⟨a', replaced', out, h₁⟩, hrec, hend⟩ := bind_eq_ok_iff.1 hrun
    cases hend
    exact insert_recurse_copied (hl.of_root hroot) hnode hlt (Nat.zero_le key.length)
      (unshared_root hroot hu) hrec

/-- As for `insert_k`. -/
theorem insert_and_replace_k_copied {value : V} {old_value : Option V} (hl : Live h tree others)
    (hu : ∀ b ∈ tree.visited h key, h.count b = 1)
    (hrun : tree.insert_and_replace_k h key value = .ok (old_value, after, h')) :
    h'.copied = h.copied + tree.insertion_copies h key := by
  unfold insert_and_replace_k at hrun
  unfold VersionedAdaptiveRadixTree.insertion_copies
  cases hroot : tree.root with
  | none =>
    rw [hroot] at hrun
    cases hrun
    rfl
  | some a =>
    obtain ⟨node, hnode⟩ := hl.root_live hroot
    have hlt := Nat.lt_succ_of_le (hl.newest a node hroot hnode)
    rw [hroot] at hrun
    obtain ⟨⟨a', replaced', out, h₁⟩, hrec, hend⟩ := bind_eq_ok_iff.1 hrun
    cases hend
    exact insert_recurse_copied (hl.of_root hroot) hnode hlt (Nat.zero_le key.length)
      (unshared_root hroot hu) hrec

/-- A reference on unshared cells copies nothing. -/
theorem get_mut_k_copied {write : V → V} {seen : Option V} (hl : Live h tree others)
    (hu : ∀ b ∈ tree.visited h key, h.count b = 1)
    (hrun : tree.get_mut_k h key write = .ok (seen, after, h')) : h'.copied = h.copied := by
  unfold get_mut_k at hrun
  rw [hl.get_k_eq, ok_bind] at hrun
  cases hfound : tree.lookup h key with
  | none =>
    rw [hfound] at hrun
    cases hrun
    rfl
  | some value =>
    obtain ⟨a, node, hroot, hnode, hlt, hfind⟩ := hl.root_of_lookup hfound
    simp only [hfound, Option.isNone_some, Bool.false_eq_true, if_false, hroot, expect_some, ok_bind] at hrun
    obtain ⟨⟨path, h₁⟩, hpath, hrun⟩ := bind_eq_ok_iff.1 hrun
    cases path with
    | none =>
      obtain ⟨_, hexpect, _⟩ := bind_eq_ok_iff.1 hrun
      cases hexpect
    | some a' =>
      rw [expect_some, ok_bind] at hrun
      obtain ⟨⟨seen', h₂⟩, hwrite, hend⟩ := bind_eq_ok_iff.1 hrun
      cases hend
      have hready := cow_path_to_key_copied (hl.of_root hroot) hnode hlt (Nat.zero_le key.length)
        (unshared_root hroot hu) hfind hpath
      exact (get_iterate_mut_cow_ready_copied hwrite).trans hready

omit [Features] in
theorem nonempty_root_copied {opt opt' : Option Nat} (hrun : nonempty_root h opt = .ok (opt', h')) :
    h'.copied = h.copied := by
  unfold nonempty_root at hrun
  cases opt with
  | none =>
    cases hrun
    rfl
  | some root =>
    obtain ⟨node, _, hrun⟩ := bind_eq_ok_iff.1 hrun
    split at hrun
    · obtain ⟨h₁, hdrop, hend⟩ := bind_eq_ok_iff.1 hrun
      cases hend
      exact copied_drop_arc hdrop
    · cases hrun
      rfl

/-- A key that is present, does not end at the root, and so is found behind an edge. -/
theorem visited_below {value : V} (hv : Valid h (a :: others)) (hnode : h.node? a = some node)
    (hfind : find h a key = some value) (hlen : node.pfx.length ≠ key.length) :
    1 < (visited h a key).length := by
  obtain ⟨rest, rfl⟩ := prefix_of_behind ((find_eq_read hv hnode key).symm.trans hfind)
  cases rest with
  | nil => exact absurd (by rw [List.append_nil]) hlen
  | cons k rest =>
    obtain ⟨c, hc, hbelow⟩ := lookup_of_find hv hnode hfind
    have hchild : ∃ child, h.node? c = some child := by
      obtain ⟨p, hp, _⟩ := Option.bind_eq_some_iff.1 hbelow
      obtain ⟨child, hchild, _⟩ := Option.map_eq_some_iff.1 hp
      exact ⟨child, hchild⟩
    obtain ⟨child, hchild⟩ := hchild
    have hself : c ∈ visited h c (k :: rest) := mem_visited_self hchild
    have hpos := List.length_pos_of_mem hself
    rw [visited_goes_on hv hnode hc, List.length_cons]
    omega

theorem visited_at_root (hv : Valid h (a :: others)) (hnode : h.node? a = some node) :
    visited h a node.pfx = [a] := visited_stops hv hnode stops_at_end

/-- A root whose key is removed from it. -/
theorem settle_root_copied {owned : VersionedNode V} {h₁ : Heap (VersionedNode V)} {opt : Option Nat}
    {version : Nat} (hu : Unshared h a key) (hnode : h.node? a = some node) (hlt : node.version < version)
    (howned : exclusive h a version = .ok (owned, h₁))
    (hsettle : settle h₁ { owned with value := none } = .ok (opt, h')) : h'.copied = h.copied := by
  obtain ⟨h₂, howned', hcopied, _⟩ := exclusive_unique (hu.cell hnode) hlt
  rw [howned, Except.ok.injEq, Prod.mk.injEq] at howned'
  rw [copied_settle hsettle, howned'.2]
  exact hcopied

/-- A removal copies the value of a leaf below the root. -/
theorem remove_k_copied {removed : Option V} (hl : Live h tree others)
    (hu : ∀ b ∈ tree.visited h key, h.count b = 1)
    (hrun : tree.remove_k h key = .ok (removed, after, h')) :
    h'.copied = h.copied + if tree.in_lower_leaf h key then 1 else 0 := by
  unfold remove_k at hrun
  rw [hl.get_k_eq, ok_bind] at hrun
  unfold in_lower_leaf
  cases hfound : tree.lookup h key with
  | none =>
    rw [hfound] at hrun
    cases hrun
    rfl
  | some value =>
    obtain ⟨a, node, hroot, hnode, hlt, hfind⟩ := hl.root_of_lookup hfound
    have hv := hl.of_root hroot
    have hu := unshared_root hroot hu
    obtain ⟨hatleaf, hatlen, _⟩ := find_at_root hv hnode hfind
    have hroot_only : key = node.pfx → ¬ 1 < (tree.visited h key).length := fun hkey => by
      unfold VersionedAdaptiveRadixTree.visited
      rw [hroot, Option.elim_some, hkey, visited_at_root hv hnode, List.length_singleton]
      omega
    simp only [hfound, Option.isNone_some, Bool.false_eq_true, if_false, hroot, expect_some, ok_bind, hnode,
      arc_some, length_at, usize_sub_eq_ok (Nat.zero_le _), Nat.sub_zero] at hrun
    by_cases hleaf : node.is_leaf = true
    · have hkey := hatleaf hleaf
      rw [if_pos hleaf, if_neg (by rw [hkey]; simp), try_unwrap_unique (hu.cell hnode), ok_bind] at hrun
      obtain ⟨h₁, hdrop, hend⟩ := bind_eq_ok_iff.1 hrun
      cases hend
      simp only [hroot_only hkey, decide_false, Bool.and_false, Bool.false_and, Bool.false_eq_true, if_false]
      have hcopied := copied_drop_node hdrop
      exact hcopied
    · rw [if_neg hleaf] at hrun
      by_cases hlen : node.pfx.length = key.length
      · rw [if_pos hlen] at hrun
        obtain ⟨⟨owned, h₁⟩, howned, hrun⟩ := bind_eq_ok_iff.1 hrun
        obtain ⟨⟨opt, h₂⟩, hsettle, hend⟩ := bind_eq_ok_iff.1 hrun
        cases hend
        simp only [hroot_only (hatlen hlen), decide_false, Bool.and_false, Bool.false_and, Bool.false_eq_true,
          if_false]
        exact settle_root_copied hu hnode hlt howned hsettle
      · rw [if_neg hlen] at hrun
        obtain ⟨⟨result, h₁⟩, hrec, hrun⟩ := bind_eq_ok_iff.1 hrun
        cases result with
        | none =>
          obtain ⟨_, hexpect, _⟩ := bind_eq_ok_iff.1 hrun
          cases hexpect
        | some result =>
          obtain ⟨opt, removed'⟩ := result
          rw [expect_some, ok_bind] at hrun
          obtain ⟨⟨opt', h₂⟩, hnonempty, hend⟩ := bind_eq_ok_iff.1 hrun
          cases hend
          have hbelow : 1 < (tree.visited h key).length := by
            unfold VersionedAdaptiveRadixTree.visited
            rw [hroot]
            exact visited_below hv hnode hfind hlen
          have hcopied := remove_loop_copied hv hnode hlt (Nat.zero_le key.length) hu hfind hrec
          simp only [hbelow, hroot, decide_true, Option.isSome_some, Bool.true_and, Option.any_some]
          exact (nonempty_root_copied hnonempty).trans hcopied

/-- A deletion on unshared cells copies nothing. -/
theorem delete_k_copied {existed : Bool} (hl : Live h tree others)
    (hu : ∀ b ∈ tree.visited h key, h.count b = 1)
    (hrun : tree.delete_k h key = .ok (existed, after, h')) : h'.copied = h.copied := by
  unfold delete_k at hrun
  rw [hl.get_k_eq, ok_bind] at hrun
  cases hfound : tree.lookup h key with
  | none =>
    rw [hfound] at hrun
    cases hrun
    rfl
  | some value =>
    obtain ⟨a, node, hroot, hnode, hlt, hfind⟩ := hl.root_of_lookup hfound
    have hv := hl.of_root hroot
    have hu := unshared_root hroot hu
    simp only [hfound, Option.isNone_some, Bool.false_eq_true, if_false, hroot, expect_some, ok_bind, hnode,
      arc_some, length_at, usize_sub_eq_ok (Nat.zero_le _), Nat.sub_zero] at hrun
    split at hrun
    · obtain ⟨h₁, hdrop, hend⟩ := bind_eq_ok_iff.1 hrun
      cases hend
      exact copied_drop_arc hdrop
    · split at hrun
      · obtain ⟨⟨owned, h₁⟩, howned, hrun⟩ := bind_eq_ok_iff.1 hrun
        obtain ⟨⟨opt, h₂⟩, hsettle, hend⟩ := bind_eq_ok_iff.1 hrun
        cases hend
        exact settle_root_copied hu hnode hlt howned hsettle
      · obtain ⟨⟨result, h₁⟩, hrec, hrun⟩ := bind_eq_ok_iff.1 hrun
        cases result with
        | none =>
          obtain ⟨_, hexpect, _⟩ := bind_eq_ok_iff.1 hrun
          cases hexpect
        | some result =>
          obtain ⟨opt, removed'⟩ := result
          rw [expect_some, ok_bind] at hrun
          obtain ⟨⟨opt', h₂⟩, hnonempty, hend⟩ := bind_eq_ok_iff.1 hrun
          cases hend
          have hcopied := remove_loop_copied hv hnode hlt (Nat.zero_le key.length) hu hfind hrec
          rw [ite_self, Nat.add_zero] at hcopied
          exact (nonempty_root_copied hnonempty).trans hcopied

theorem update_k_copied {update : Callback V Empty} {changed : Bool} {calls : List (Slot V)}
    (hl : Live h tree others) (hu : ∀ b ∈ tree.visited h key, h.count b = 1)
    (hrun : tree.update_k h key update = .ok (changed, after, calls, h')) :
    h'.copied = h.copied ↔
      ¬ (changed = true ∧ (1 < (tree.visited h key).length ∨ 0 < tree.insertion_copies h key)) := by
  unfold update_k at hrun
  unfold VersionedAdaptiveRadixTree.visited at hu ⊢
  unfold VersionedAdaptiveRadixTree.insertion_copies
  cases hroot : tree.root with
  | none =>
    rw [hroot] at hrun
    obtain ⟨⟨value, cell⟩, _, hrun⟩ := bind_eq_ok_iff.1 hrun
    have hsame : h'.copied = h.copied := by
      cases value with
      | none =>
        cases hrun
        rfl
      | some value =>
        cases hrun
        rfl
    refine iff_of_true hsame ?_
    rintro ⟨_, hvisited | hcopies⟩
    · cases hvisited
    · cases hcopies
  | some a =>
    obtain ⟨node, hnode⟩ := hl.root_live hroot
    have hv := hl.of_root hroot
    have hlt := Nat.lt_succ_of_le (hl.newest a node hroot hnode)
    rw [hroot] at hrun hu
    have hone : h.count a = 1 := hu a (mem_visited_self hnode)
    obtain ⟨⟨opt, changed', cell, h₁⟩, hrec, hend⟩ := bind_eq_ok_iff.1 hrun
    cases hend
    have hcopies := update_recurse_copies hv hnode hlt (Nat.zero_le key.length) hrec
    rw [List.drop_zero] at hcopies
    rw [Option.elim_some, Option.elim_some]
    cases hcopies with
    | declined hsame => exact iff_of_true hsame fun h => by cases h.1
    | stopped hstops htaken =>
      unfold Taken at htaken
      rw [if_pos hone] at htaken
      rw [visited_stops hv hnode hstops, copies_below_stops hv hnode hstops, List.length_singleton]
      simp only [true_and]
      omega
    | below k s c hrest hc hless =>
      refine iff_of_false (by omega) fun hnot => hnot ⟨rfl, .inl ?_⟩
      obtain ⟨child, hchild⟩ : ∃ child, h.node? c = some child := by
        obtain ⟨child, hchild, _⟩ := seek_child_borrow hv hnode hc
        exact ⟨child, hchild⟩
      have hself : c ∈ visited h c (k :: s) := mem_visited_self hchild
      have hpos := List.length_pos_of_mem hself
      rw [hrest, visited_goes_on hv hnode hc, List.length_cons]
      omega

/-- Where nothing on the way to the key is shared, `copies` says when something is copied
after all. -/
theorem Live.copied_iff {op : Mutation V E} {reply : Reply V E} (hl : Live h tree others)
    (hu : ∀ b ∈ tree.visited h op.key, h.count b = 1) (hop : ∀ key update, op ≠ .try_update_k key update)
    (hrun : op.onTree h tree = .ok (reply, after, h')) :
    h'.copied = h.copied ↔ ¬ op.copies h tree := by
  cases op with
  | insert_k key value =>
    obtain ⟨⟨replaced, tree', h₁⟩, hinsert, hend⟩ := bind_eq_ok_iff.1 hrun
    cases hend
    have hcopied : h'.copied = h.copied + tree.insertion_copies h key := insert_k_copied hl hu hinsert
    simp only [Mutation.copies]
    omega
  | insert_and_replace_k key value =>
    obtain ⟨⟨old_value, tree', h₁⟩, hinsert, hend⟩ := bind_eq_ok_iff.1 hrun
    cases hend
    have hcopied : h'.copied = h.copied + tree.insertion_copies h key :=
      insert_and_replace_k_copied hl hu hinsert
    simp only [Mutation.copies]
    omega
  | remove_k key =>
    obtain ⟨⟨removed, tree', h₁⟩, hremove, hend⟩ := bind_eq_ok_iff.1 hrun
    cases hend
    have hcopied := remove_k_copied hl hu hremove
    simp only [Mutation.copies]
    split at hcopied
    · rename_i hleaf
      exact iff_of_false (by omega) fun hnot => hnot hleaf
    · rename_i hleaf
      exact iff_of_true hcopied hleaf
  | delete_k key =>
    obtain ⟨⟨existed, tree', h₁⟩, hdelete, hend⟩ := bind_eq_ok_iff.1 hrun
    cases hend
    exact iff_of_true (delete_k_copied hl hu hdelete) not_false
  | get_mut_k key write =>
    obtain ⟨⟨seen, tree', h₁⟩, hget, hend⟩ := bind_eq_ok_iff.1 hrun
    cases hend
    exact iff_of_true (get_mut_k_copied hl hu hget) not_false
  | update_k key update =>
    obtain ⟨⟨changed, tree', calls, h₁⟩, hupdate, hend⟩ := bind_eq_ok_iff.1 hrun
    cases hend
    obtain ⟨changed', _, _, hspec, hanswer, _⟩ := hl.update_k_spec key update
    rw [hupdate, Except.ok.injEq, Prod.mk.injEq] at hspec
    rw [update_k_copied hl hu hupdate, hspec.1]
    simp only [Mutation.copies, update.apply_eq_true_iff hanswer]
    exact Iff.rfl
  | try_update_k key update => exact absurd rfl (hop key update)

end Trees

section Forests

/-- In every forest that a sequence of commands leads to, a mutation of a tree whose
nodes on the way to the key have one reference each copies no node and clones no value,
unless it is one of those that `copies` names. -/
theorem Forest.copies_iff [Features] (cs : List (Command V E)) :
    ∃ (replies : List (Option (Reply V E))) (forest : Forest V),
      runForest .empty cs = .ok (replies, forest) ∧
      ∀ i tree, member forest.trees i = some tree → ∀ op : Mutation V E,
        (∀ key update, op ≠ .try_update_k key update) →
        (∀ b ∈ tree.visited forest.heap op.key, forest.heap.count b = 1) →
        ∃ reply after h', op.onTree forest.heap tree = .ok (reply, after, h') ∧
          (h'.copied = forest.heap.copied ↔ ¬ op.copies forest.heap tree) := by
  obtain ⟨forest, hrun, hr⟩ := runForest_spec represents_empty cs
  refine ⟨_, forest, hrun, fun i tree hmember op hop hu => ?_⟩
  obtain ⟨m, after, h', _, hmutate, _⟩ := hr.mutate hmember op
  exact ⟨_, after, h', hmutate, (hr.live hmember).copied_iff hu hop hmutate⟩

/-- The second of two keys that share their first byte copies the node of the first. -/
theorem Forest.split_copies :
    letI : Features := ⟨none⟩
    ∃ (replies : List (Option (Reply Nat Unit))) (forest : Forest Nat)
      (tree after : VersionedAdaptiveRadixTree Nat) (reply : Reply Nat Unit) (h' : Heap (VersionedNode Nat)),
      runForest .empty [.new, .mutate 0 (.insert_k [1, 2] 7)] = .ok (replies, forest) ∧
      member forest.trees 0 = some tree ∧ tree.visited forest.heap [1, 3] = [0] ∧ forest.heap.count 0 = 1 ∧
      (Mutation.insert_k [1, 3] 8).onTree forest.heap tree = .ok (reply, after, h') ∧
      forest.heap.copied = 0 ∧ h'.copied = 1 := by
  let : Features := ⟨none⟩
  obtain ⟨forest, hrun, hr⟩ := runForest_spec (V := Nat) (E := Unit) represents_empty
    [.new, .mutate 0 (.insert_k [1, 2] 7)]
  have hforest : forest = ⟨(Heap.empty.alloc (.new_leaf [1, 2] 7 1)).2, [some ⟨some 0, 1⟩]⟩ := by
    have hruns : runForest .empty [.new, .mutate 0 (Mutation.insert_k [1, 2] 7 : Mutation Nat Unit)] =
      .ok ([none, some (.replaced false)],
        ⟨(Heap.empty.alloc (.new_leaf [1, 2] 7 1)).2, [some ⟨some 0, 1⟩]⟩) := rfl
    rw [hrun] at hruns
    exact (Prod.mk.inj (Except.ok.inj hruns)).2
  have hmember : member forest.trees 0 = some ⟨some 0, 1⟩ := by
    rw [hforest]
    rfl
  have hnode : forest.heap.node? 0 = some (.new_leaf [1, 2] 7 1) := by
    rw [hforest]
    rfl
  have hstops : ∀ k rest, [1, 3] = (VersionedNode.new_leaf [1, 2] 7 1).pfx ++ k :: rest →
      (VersionedNode.new_leaf [1, 2] 7 1).content.iter.lookup k = none := fun _ _ _ => rfl
  have hvisited := visited_stops hr.valid hnode hstops
  have hcount : forest.heap.count 0 = 1 := by
    rw [hforest]
    rfl
  have hcopied : forest.heap.copied = 0 := by
    rw [hforest]
    rfl
  obtain ⟨m, after, h', _, hmutate, _⟩ := hr.mutate hmember (.insert_k [1, 3] 8)
  obtain ⟨⟨replaced, tree', h₁⟩, hinsert, hend⟩ := bind_eq_ok_iff.1 hmutate
  have hone := insert_k_copied (hr.live hmember) (fun b hb => ?_) hinsert
  · refine ⟨_, forest, ⟨some 0, 1⟩, after, _, h', hrun, hmember, hvisited, hcount, hmutate, hcopied, ?_⟩
    cases hend
    rw [hone, hcopied, Nat.zero_add]
    exact (copies_below_stops hr.valid hnode hstops).trans rfl
  · have hb : b ∈ visited forest.heap 0 [1, 3] := hb
    rw [hvisited, List.mem_singleton] at hb
    rw [hb, hcount]

end Forests

end rart.versioned_tree
