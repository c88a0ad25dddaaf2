import Rart.Versioned.Cost.Descent

open SortedAssoc RcHeap Words LexOrder
open RcHeap.Heap (Valid Keeps Agree Spends)
open rart.mapping rart.node rart.partials rart.utils

namespace rart.versioned_tree

open VersionedAdaptiveRadixTree

variable {V E R : Type}

section Trees

variable [Features] {h h' : Heap (VersionedNode V)} {others : List Nat} {tree after : VersionedAdaptiveRadixTree V}
  {key : Bytes} {a : Nat} {node : VersionedNode V}

omit [Features] in
theorem spends_nonempty_root {opt opt' : Option Nat} (hrun : nonempty_root h opt = .ok (opt', h')) :
    Spends h h' 0 := by
  unfold nonempty_root at hrun
  cases opt with
  | none =>
    cases hrun
    exact .refl h
  | some root =>
    obtain ⟨node, _, hrun⟩ := bind_eq_ok_iff.1 hrun
    split at hrun
    · obtain ⟨h₁, hdrop, hend⟩ := bind_eq_ok_iff.1 hrun
      cases hend
      exact spends_drop_arc hdrop
    · cases hrun
      exact .refl h

omit [Features] in
/-- What a descent from a root spends, in terms of the key alone. -/
theorem spends_from_root (hs : Spends h h' (4 * node.reach (key.length - 0))) :
    Spends h h' (4 * key.length + 8) := by
  have hle := reach_le node key.length
  exact hs.mono (by rw [Nat.sub_zero]; omega)

/-- Four for each byte of the key, and eight. -/
theorem spends_insert_k {value : V} {replaced : Bool} (hl : Live h tree others)
    (hrun : tree.insert_k h key value = .ok (replaced, after, h')) : Spends h h' (4 * key.length + 8) := by
  unfold insert_k at hrun
  cases hroot : tree.root with
  | none =>
    rw [hroot] at hrun
    obtain ⟨leaf, _, hend⟩ := bind_eq_ok_iff.1 hrun
    cases hend
    exact (Heap.spends_alloc h _).mono (by omega)
  | some a =>
    obtain ⟨node, hnode⟩ := hl.root_live hroot
    have hlt := Nat.lt_succ_of_le (hl.newest a node hroot hnode)
    rw [hroot] at hrun
    obtain ⟨⟨a', replaced', out, h₁⟩, hrec, hend⟩ := bind_eq_ok_iff.1 hrun
    cases hend
    exact spends_from_root (spends_insert_recurse (hl.of_root hroot) hnode hlt (Nat.zero_le key.length) hrec)

theorem spends_insert_and_replace_k {value : V} {old_value : Option V} (hl : Live h tree others)
    (hrun : tree.insert_and_replace_k h key value = .ok (old_value, after, h')) :
    Spends h h' (4 * key.length + 8) := by
  unfold insert_and_replace_k at hrun
  cases hroot : tree.root with
  | none =>
    rw [hroot] at hrun
    obtain ⟨leaf, _, hend⟩ := bind_eq_ok_iff.1 hrun
    cases hend
    exact (Heap.spends_alloc h _).mono (by omega)
  | some a =>
    obtain ⟨node, hnode⟩ := hl.root_live hroot
    have hlt := Nat.lt_succ_of_le (hl.newest a node hroot hnode)
    rw [hroot] at hrun
    obtain ⟨⟨a', replaced', out, h₁⟩, hrec, hend⟩ := bind_eq_ok_iff.1 hrun
    cases hend
    exact spends_from_root (spends_insert_recurse (hl.of_root hroot) hnode hlt (Nat.zero_le key.length) hrec)

theorem spends_get_mut_k {write : V → V} {seen : Option V} (hl : Live h tree others)
    (hrun : tree.get_mut_k h key write = .ok (seen, after, h')) : Spends h h' (4 * key.length + 8) := by
  unfold get_mut_k at hrun
  rw [hl.get_k_eq, ok_bind] at hrun
  cases hfound : tree.lookup h key with
  | none =>
    rw [hfound] at hrun
    cases hrun
    exact (Spends.refl h).mono (Nat.zero_le _)
  | some value =>
    obtain ⟨a, node, hroot, hnode, hlt, hfind⟩ := hl.root_of_lookup hfound
    simp only [hfound, Option.isNone_some, Bool.false_eq_true, if_false, hroot, expect_some, ok_bind] at hrun
    obtain ⟨⟨path, h₁⟩, hpath, hrun⟩ := bind_eq_ok_iff.1 hrun
    obtain ⟨a', _, hrun⟩ := bind_eq_ok_iff.1 hrun
    obtain ⟨⟨seen', h₂⟩, hwrite, hend⟩ := bind_eq_ok_iff.1 hrun
    cases hend
    have hpath := spends_cow_path_to_key (hl.of_root hroot) hnode hlt (Nat.zero_le key.length) hpath
    exact (spends_from_root hpath).trans (spends_get_iterate_mut_cow_ready hwrite)

theorem spends_remove_k {removed : Option V} (hl : Live h tree others)
    (hrun : tree.remove_k h key = .ok (removed, after, h')) : Spends h h' (4 * key.length + 8) := by
  unfold remove_k at hrun
  rw [hl.get_k_eq, ok_bind] at hrun
  cases hfound : tree.lookup h key with
  | none =>
    rw [hfound] at hrun
    cases hrun
    exact (Spends.refl h).mono (Nat.zero_le _)
  | some value =>
    obtain ⟨a, node, hroot, hnode, hlt, hfind⟩ := hl.root_of_lookup hfound
    have hv := hl.of_root hroot
    simp only [hfound, Option.isNone_some, Bool.false_eq_true, if_false, hroot, expect_some, ok_bind, hnode,
      arc_some, length_at, usize_sub_eq_ok (Nat.zero_le _), Nat.sub_zero] at hrun
    split at hrun
    · split at hrun
      · cases hrun
        exact (Spends.refl h).mono (Nat.zero_le _)
      · obtain ⟨unwrapped, hunwrap, hrun⟩ := bind_eq_ok_iff.1 hrun
        cases unwrapped with
        | some owned =>
          obtain ⟨h₁, hdrop, hend⟩ := bind_eq_ok_iff.1 hrun
          cases hend
          exact ((spends_try_unwrap hunwrap).trans (spends_drop_node hdrop)).mono (Nat.zero_le _)
        | none =>
          obtain ⟨h₁, hdrop, hend⟩ := bind_eq_ok_iff.1 hrun
          cases hend
          have hone : node.value.toList.length ≤ 1 := by cases node.value <;> simp
          exact ((Heap.spends_copies h _).trans (spends_drop_arc hdrop)).mono (by omega)
    · split at hrun
      · obtain ⟨⟨owned, h₁⟩, howned, hrun⟩ := bind_eq_ok_iff.1 hrun
        obtain ⟨⟨opt, h₂⟩, hsettle, hend⟩ := bind_eq_ok_iff.1 hrun
        cases hend
        exact ((spends_exclusive howned).trans (spends_settle hsettle)).mono (by omega)
      · obtain ⟨⟨result, h₁⟩, hrec, hrun⟩ := bind_eq_ok_iff.1 hrun
        obtain ⟨⟨opt, removed'⟩, _, hrun⟩ := bind_eq_ok_iff.1 hrun
        obtain ⟨⟨opt', h₂⟩, hnonempty, hend⟩ := bind_eq_ok_iff.1 hrun
        cases hend
        have hpath := spends_remove_loop hv hnode hlt (Nat.zero_le key.length) (Nat.le_refl 1) hrec
        exact (spends_from_root hpath).trans (spends_nonempty_root hnonempty)

theorem spends_delete_k {existed : Bool} (hl : Live h tree others)
    (hrun : tree.delete_k h key = .ok (existed, after, h')) : Spends h h' (4 * key.length + 8) := by
  unfold delete_k at hrun
  rw [hl.get_k_eq, ok_bind] at hrun
  cases hfound : tree.lookup h key with
  | none =>
    rw [hfound] at hrun
    cases hrun
    exact (Spends.refl h).mono (Nat.zero_le _)
  | some value =>
    obtain ⟨a, node, hroot, hnode, hlt, hfind⟩ := hl.root_of_lookup hfound
    have hv := hl.of_root hroot
    simp only [hfound, Option.isNone_some, Bool.false_eq_true, if_false, hroot, expect_some, ok_bind, hnode,
      arc_some, length_at, usize_sub_eq_ok (Nat.zero_le _), Nat.sub_zero] at hrun
    split at hrun
    · obtain ⟨h₁, hdrop, hend⟩ := bind_eq_ok_iff.1 hrun
      cases hend
      exact (spends_drop_arc hdrop).mono (Nat.zero_le _)
    · split at hrun
      · obtain ⟨⟨owned, h₁⟩, howned, hrun⟩ := bind_eq_ok_iff.1 hrun
        obtain ⟨⟨opt, h₂⟩, hsettle, hend⟩ := bind_eq_ok_iff.1 hrun
        cases hend
        exact ((spends_exclusive howned).trans (spends_settle hsettle)).mono (by omega)
      · obtain ⟨⟨result, h₁⟩, hrec, hrun⟩ := bind_eq_ok_iff.1 hrun
        obtain ⟨⟨opt, removed⟩, _, hrun⟩ := bind_eq_ok_iff.1 hrun
        obtain ⟨⟨opt', h₂⟩, hnonempty, hend⟩ := bind_eq_ok_iff.1 hrun
        cases hend
        have hpath := spends_remove_loop hv hnode hlt (Nat.zero_le key.length) (Nat.zero_le 1) hrec
        exact (spends_from_root hpath).trans (spends_nonempty_root hnonempty)

theorem spends_update_k {update : Callback V Empty} {changed : Bool} {calls : List (Slot V)}
    (hl : Live h tree others) (hrun : tree.update_k h key update = .ok (changed, after, calls, h')) :
    Spends h h' (4 * key.length + 8) := by
  unfold update_k at hrun
  cases hroot : tree.root with
  | none =>
    rw [hroot] at hrun
    obtain ⟨⟨value, cell⟩, _, hrun⟩ := bind_eq_ok_iff.1 hrun
    cases value with
    | none =>
      cases hrun
      exact (Spends.refl h).mono (Nat.zero_le _)
    | some value =>
      obtain ⟨leaf, _, hend⟩ := bind_eq_ok_iff.1 hrun
      cases hend
      exact (Heap.spends_alloc h _).mono (by omega)
  | some a =>
    obtain ⟨node, hnode⟩ := hl.root_live hroot
    have hlt := Nat.lt_succ_of_le (hl.newest a node hroot hnode)
    rw [hroot] at hrun
    obtain ⟨⟨opt, changed', cell, h₁⟩, hrec, hend⟩ := bind_eq_ok_iff.1 hrun
    cases hend
    exact spends_from_root (spends_update_recurse (hl.of_root hroot) hnode hlt (Nat.zero_le key.length) hrec)

/-- A write, and after it another write or a removal: the way to the key is gone twice. -/
theorem spends_try_update_k {update : Callback V E} {result : Except E Bool} {calls : List (Slot V)}
    (hl : Live h tree others) (hrun : tree.try_update_k h key update = .ok (result, after, calls, h')) :
    Spends h h' (8 * key.length + 17) := by
  unfold try_update_k at hrun
  rw [hl.get_k_eq, ok_bind] at hrun
  split at hrun
  · split at hrun
    · cases hrun
      exact (Spends.refl h).mono (Nat.zero_le _)
    · obtain ⟨⟨_, after', h₁⟩, hinsert, hend⟩ := bind_eq_ok_iff.1 hrun
      cases hend
      exact (spends_insert_k hl hinsert).mono (by omega)
    · cases hrun
      exact (Spends.refl h).mono (Nat.zero_le _)
    · cases hrun
      exact (Spends.refl h).mono (Nat.zero_le _)
  · rename_i old_value _
    obtain ⟨hl₀, _⟩ := hl.copies 1
    obtain ⟨⟨seen, written, h₁⟩, hget, hrun⟩ := bind_eq_ok_iff.1 hrun
    obtain ⟨value, _, hrun⟩ := bind_eq_ok_iff.1 hrun
    obtain ⟨written', h₁', hget', hmutated⟩ := hl₀.get_mut_k_spec key fun value => (update.occupied value).1
    rw [hget, Except.ok.injEq, Prod.mk.injEq, Prod.mk.injEq] at hget'
    obtain ⟨_, rfl, rfl⟩ := hget'
    have hwritten := (Heap.spends_copies h 1).trans (spends_get_mut_k hl₀ hget)
    have hagain : ∀ h₂, Spends h₁ h₂ (4 * key.length + 8) → Spends h h₂ (8 * key.length + 17) :=
      fun h₂ hs => (hwritten.trans hs).mono (by omega)
    split at hrun
    · obtain ⟨⟨seen', after', h₂⟩, hback, hrun⟩ := bind_eq_ok_iff.1 hrun
      obtain ⟨_, _, hend⟩ := bind_eq_ok_iff.1 hrun
      cases hend
      exact hagain _ (spends_get_mut_k hmutated.live hback)
    · cases hrun
      exact hwritten.mono (by omega)
    · obtain ⟨⟨existed, after', h₂⟩, hdelete, hend⟩ := bind_eq_ok_iff.1 hrun
      cases hend
      exact hagain _ (spends_delete_k hmutated.live hdelete)
    · obtain ⟨⟨seen', after', h₂⟩, hover, hrun⟩ := bind_eq_ok_iff.1 hrun
      obtain ⟨_, _, hend⟩ := bind_eq_ok_iff.1 hrun
      cases hend
      exact hagain _ (spends_get_mut_k hmutated.live hover)

end Trees

section Forests

/-- What a mutation may spend: so much for every byte of its key. -/
def Mutation.budget : Mutation V E → Nat
  | .try_update_k key _ => 8 * key.length + 17
  | op => 4 * op.key.length + 8

/-- Sharing and dropping a tree is free. -/
def Command.budget : Command V E → Nat
  | .mutate _ op => op.budget
  | _ => 0

variable [Features] {forest forest' : Forest V} {maps : RefForest V}

/-- Every mutation stays within its budget. -/
theorem Live.spends {h h' : Heap (VersionedNode V)} {others : List Nat} {tree after : VersionedAdaptiveRadixTree V}
    {op : Mutation V E} {reply : Reply V E} (hl : Live h tree others)
    (hrun : op.onTree h tree = .ok (reply, after, h')) : Spends h h' op.budget := by
  cases op with
  | insert_k key value =>
    obtain ⟨⟨replaced, tree', h₁⟩, hinsert, hend⟩ := bind_eq_ok_iff.1 hrun
    cases hend
    exact spends_insert_k hl hinsert
  | insert_and_replace_k key value =>
    obtain ⟨⟨old_value, tree', h₁⟩, hinsert, hend⟩ := bind_eq_ok_iff.1 hrun
    cases hend
    exact spends_insert_and_replace_k hl hinsert
  | remove_k key =>
    obtain ⟨⟨removed, tree', h₁⟩, hremove, hend⟩ := bind_eq_ok_iff.1 hrun
    cases hend
    exact spends_remove_k hl hremove
  | delete_k key =>
    obtain ⟨⟨existed, tree', h₁⟩, hdelete, hend⟩ := bind_eq_ok_iff.1 hrun
    cases hend
    exact spends_delete_k hl hdelete
  | get_mut_k key write =>
    obtain ⟨⟨seen, tree', h₁⟩, hget, hend⟩ := bind_eq_ok_iff.1 hrun
    cases hend
    exact spends_get_mut_k hl hget
  | update_k key update =>
    obtain ⟨⟨changed, tree', calls, h₁⟩, hupdate, hend⟩ := bind_eq_ok_iff.1 hrun
    cases hend
    exact spends_update_k hl hupdate
  | try_update_k key update =>
    obtain ⟨⟨result, tree', calls, h₁⟩, hupdate, hend⟩ := bind_eq_ok_iff.1 hrun
    cases hend
    exact spends_try_update_k hl hupdate

omit [Features] in
theorem spends_clone_root {h h' : Heap (VersionedNode V)} {tree : VersionedAdaptiveRadixTree V}
    (hclone : tree.clone_root h = .ok h') : Spends h h' 0 := Heap.spends_cloneAll (arc_eq_ok hclone)

/-- Every command stays within its budget. -/
theorem Represents.spends (hr : Represents forest maps) {c : Command V E} {reply : Option (Reply V E)}
    (hrun : c.onForest forest = .ok (reply, forest')) : Spends forest.heap forest'.heap c.budget := by
  cases c with
  | new =>
    cases hrun
    exact .refl forest.heap
  | snapshot i =>
    simp only [Command.onForest] at hrun
    split at hrun
    · cases hrun
      exact .refl forest.heap
    · obtain ⟨⟨copy, h'⟩, hcopy, hend⟩ := bind_eq_ok_iff.1 hrun
      obtain ⟨h₁, hclone, hcopied⟩ := bind_eq_ok_iff.1 hcopy
      cases hcopied
      cases hend
      exact spends_clone_root hclone
  | clone i =>
    simp only [Command.onForest] at hrun
    split at hrun
    · cases hrun
      exact .refl forest.heap
    · obtain ⟨⟨copy, h'⟩, hcopy, hend⟩ := bind_eq_ok_iff.1 hrun
      obtain ⟨h₁, hclone, hcopied⟩ := bind_eq_ok_iff.1 hcopy
      cases hcopied
      cases hend
      exact spends_clone_root hclone
  | drop i =>
    simp only [Command.onForest] at hrun
    split at hrun
    · cases hrun
      exact .refl forest.heap
    · obtain ⟨h', hdrop, hend⟩ := bind_eq_ok_iff.1 hrun
      cases hend
      exact spends_drop_opt hdrop
  | mutate i op =>
    simp only [Command.onForest] at hrun
    split at hrun
    · cases hrun
      exact (Spends.refl forest.heap).mono (Nat.zero_le _)
    · rename_i tree hmember
      obtain ⟨⟨answer, after, h'⟩, hmutate, hend⟩ := bind_eq_ok_iff.1 hrun
      cases hend
      exact (hr.live hmember).spends hmutate

/-- A run stays within the sum of its budgets. -/
theorem spends_run {cs : List (Command V E)} {replies : List (Option (Reply V E))} (hr : Represents forest maps)
    (hrun : runForest forest cs = .ok (replies, forest')) :
    Spends forest.heap forest'.heap (cs.map Command.budget).sum := by
  induction cs generalizing forest maps replies with
  | nil =>
    cases hrun
    exact .refl forest'.heap
  | cons c cs ih =>
    obtain ⟨⟨reply, next⟩, hstep, hrun⟩ := bind_eq_ok_iff.1 hrun
    obtain ⟨⟨replies', last⟩, hrest, hend⟩ := bind_eq_ok_iff.1 hrun
    cases hend
    obtain ⟨next', hstep', hr'⟩ := c.step hr
    rw [hstep, Except.ok.injEq, Prod.mk.injEq] at hstep'
    obtain ⟨_, rfl⟩ := hstep'
    exact (hr.spends hstep).trans (ih hr' hrest)

/-- However large the trees grow and however many of them share nodes: how often all commands
together copy a node with its value, or a value by itself, and how many nodes they allocate is
bounded by the lengths of the keys that they mutate. -/
theorem Forest.cost_le (cs : List (Command V E)) :
    ∃ (replies : List (Option (Reply V E))) (forest : Forest V),
      runForest .empty cs = .ok (replies, forest) ∧
      forest.heap.copied ≤ (cs.map Command.budget).sum ∧
      forest.heap.cells.length ≤ (cs.map Command.budget).sum := by
  obtain ⟨forest, hrun, _⟩ := runForest_spec represents_empty cs
  have hspent := spends_run represents_empty hrun
  exact ⟨_, forest, hrun, by simpa [Forest.empty, Heap.empty] using hspent.copied_le,
    by simpa [Forest.empty, Heap.empty] using hspent.length_le⟩

end Forests

end rart.versioned_tree
