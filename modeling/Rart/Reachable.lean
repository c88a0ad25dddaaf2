import Rart.Tree.Invariant
import Rart.Versioned.Convert

open rart.node rart.utils rart.Trie

namespace rart.tree

variable {V E : Type} [Features]

/-- A new or loaded tree, a tree that was converted from a versioned one, and whatever
mutations make of these. -/
inductive Reachable : AdaptiveRadixTree V → Prop where
  | fresh {tree : AdaptiveRadixTree V} (hfresh : Fresh tree) : Reachable tree
  | converted {E : Type} {cs : List (versioned_tree.Command V E)}
      {replies : List (Option (versioned_tree.Reply V E))} {forest : versioned_tree.Forest V}
      (hrun : versioned_tree.runForest .empty cs = .ok (replies, forest)) {i : Nat}
      {source : versioned_tree.VersionedAdaptiveRadixTree V}
      (hmember : versioned_tree.member forest.trees i = some source) {tree : AdaptiveRadixTree V}
      {heap : RcHeap.Heap (versioned_tree.VersionedNode V)}
      (hconvert : source.into_unversioned forest.heap = .ok (tree, heap)) : Reachable tree
  | step {E : Type} {tree next : AdaptiveRadixTree V} (htree : Reachable tree) (op : Op V E)
      {reply : Reply V E} (hstep : op.onTree tree = .ok (reply, next)) : Reachable next

theorem Reachable.represents {tree : AdaptiveRadixTree V} (h : Reachable tree) : ∃ m, Represents tree m := by
  induction h with
  | fresh hfresh =>
    obtain ⟨m, hloads⟩ := hfresh.loads
    exact ⟨m, hloads.represents⟩
  | @converted E cs replies forest hrun i source hmember tree heap hconvert =>
    obtain ⟨forest', hrun', hr⟩ := versioned_tree.runForest_spec versioned_tree.represents_empty cs
    cases hrun.symm.trans hrun'
    obtain ⟨m, _, hs⟩ := hr.pair hmember
    obtain ⟨plain, heap', hconvert', hplain, _⟩ := versioned_tree.into_unversioned_spec (hr.live hmember) hs
    cases hconvert.symm.trans hconvert'
    exact ⟨m, hplain⟩
  | step _ op hstep ih =>
    obtain ⟨m, hm⟩ := ih
    obtain ⟨after, hafter, hspec⟩ := op.step hm
    cases hstep.symm.trans hafter
    exact ⟨_, hspec⟩

theorem Reachable.run {tree after : AdaptiveRadixTree V} (h : Reachable tree) {ops : List (Op V E)}
    {replies : List (Reply V E)} (hrun : runTree tree ops = .ok (replies, after)) : Reachable after := by
  induction ops generalizing tree replies with
  | nil =>
    cases hrun
    exact h
  | cons op ops ih =>
    obtain ⟨⟨reply, next⟩, hstep, hrest⟩ := bind_eq_ok_iff.1 hrun
    obtain ⟨⟨rest, last⟩, hrun', hpair⟩ := bind_eq_ok_iff.1 hrest
    cases hpair
    exact ih (h.step op hstep) hrun'

/-- A program that starts from a new or loaded tree returns, and with a tree that is reachable. -/
theorem Fresh.run_reachable {start : AdaptiveRadixTree V} (hstart : Fresh start) (ops : List (Op V E)) :
    ∃ replies tree, runTree start ops = .ok (replies, tree) ∧ Reachable tree := by
  obtain ⟨m, hloads⟩ := hstart.loads
  obtain ⟨tree, hrun, _⟩ := runTree_spec hloads.represents ops
  exact ⟨_, tree, hrun, Reachable.run (.fresh hstart) hrun⟩

section Declining

variable {tree after : AdaptiveRadixTree V} {m : RefMap V} {key : Bytes} {found left : Option V}

/-- A slot that is left as it was leaves the tree as it was, down to its tables. -/
theorem SetsSlot.eq_self (h : SetsSlot tree m key left after) (hr : Represents tree m)
    (hleft : m.lookup key = left) : after = tree := by
  obtain ⟨root, len⟩ := tree
  cases h.changed with
  | first hroot =>
    cases hroot
    cases (hr.find key).trans hleft
  | vacant _ => rfl
  | @edited root after left len' hroot hedited hkept =>
    cases hroot
    have hsame := hedited.eq_self (hr.wf root rfl) ((hr.find_root key).trans hleft).symm
    have hlen : len' = len := by
      have hafter := h.len
      rw [RefMap.setSlot_eq_self hleft] at hafter
      exact hafter.trans hr.len.symm
    rw [hsame, hlen]
  | emptied hroot hedited hbare =>
    cases hroot
    have hwf := hr.wf _ rfl
    rw [hedited.eq_self hwf ((hr.find_root key).trans hleft).symm] at hbare
    exact absurd hbare (not_bare_of_wf hwf)

/-- What a callback answers on a slot that holds `found`. -/
def answers (update : Callback V E) (found : Option V) : Except E (SlotUpdate V) :=
  found.elim update.vacant fun current => (update.occupied current).2

/-- The mutations that fail or decline on a slot that holds `found`. -/
def Op.Declines (found : Option V) : Op V E → Prop
  | insert_k _ _ => False
  | try_insert_k _ _ => found.isSome = true
  | remove_k _ => found = none
  | delete_k _ => found = none
  | get_mut_k _ _ => False
  | update_k _ update => found = none ∧ (answers update found = .ok .Keep ∨ answers update found = .ok .Remove)
  | try_update_k _ update =>
    (found = none ∧ (answers update found = .ok .Keep ∨ answers update found = .ok .Remove)) ∨
      ∃ e, answers update found = .error e

omit [Features] in
theorem apply_vacant_declines {update : Callback V E} {rollback : Bool}
    (h : answers update none = .ok .Keep ∨ answers update none = .ok .Remove) :
    (update.apply rollback none).2 = none := by
  have h : update.vacant = .ok .Keep ∨ update.vacant = .ok .Remove := h
  unfold Callback.apply
  obtain h | h := h <;> rw [h]

omit [Features] in
theorem Op.left_of_declines {op : Op V E} (h : op.Declines found) : op.left found = found := by
  cases op with
  | insert_k key value => cases h
  | try_insert_k key value =>
    obtain ⟨current, rfl⟩ := Option.isSome_iff_exists.1 h
    rfl
  | remove_k key => exact Eq.symm h
  | delete_k key => exact Eq.symm h
  | get_mut_k key write => cases h
  | update_k key update =>
    obtain ⟨rfl, hanswer⟩ := h
    exact apply_vacant_declines hanswer
  | try_update_k key update =>
    obtain ⟨rfl, hanswer⟩ | ⟨e, hanswer⟩ := h
    · exact apply_vacant_declines hanswer
    · -- the value from before the call is put back
      change (update.apply true found).2 = found
      unfold Callback.apply
      unfold answers at hanswer
      cases found with
      | none =>
        rw [Option.elim_none] at hanswer
        rw [hanswer]
      | some current =>
        rw [Option.elim_some] at hanswer
        cases hoccupied : update.occupied current with
        | mk value answer =>
          rw [hoccupied] at hanswer
          obtain rfl : answer = .error e := hanswer
          simp only [hoccupied, if_true]

/-- A mutation that fails or declines answers as the map does, and leaves the tree as it
was, down to its tables. -/
theorem AdaptiveRadixTree.declined_unchanged (h : Reachable tree) {op : Op V E}
    (hfound : tree.get_k op.key = .ok found) (hdeclines : op.Declines found) :
    op.onTree tree = .ok (op.answer found, tree) := by
  obtain ⟨m, hm⟩ := h.represents
  obtain rfl : m.lookup op.key = found := Except.ok.inj ((hm.get_k_eq op.key).symm.trans hfound)
  obtain ⟨after, hstep, hsets⟩ := op.step_sets hm
  rw [hsets.eq_self hm (Op.left_of_declines hdeclines).symm] at hstep
  exact hstep

omit [Features] in
/-- A callback overwrites the value and then fails. -/
theorem AdaptiveRadixTree.declined_unchanged_overwritten :
    letI : Features := ⟨none⟩
    let tree : AdaptiveRadixTree Nat := ⟨some (.new_leaf [1] 7), 1⟩
    (Op.try_update_k [1] ⟨.error (), fun value => (value + 1, .error ())⟩ : Op Nat Unit).onTree tree =
      .ok (.updated (.error ()) [.Occupied 7], tree) := by
  let : Features := ⟨none⟩
  have hreach : Reachable (⟨some (.new_leaf [1] 7), 1⟩ : AdaptiveRadixTree Nat) :=
    .step (.fresh .new) (.insert_k [1] 7 : Op Nat Unit) rfl
  have hget : (⟨some (.new_leaf [1] 7), 1⟩ : AdaptiveRadixTree Nat).get_k [1] = .ok (some 7) := by
    decide +kernel
  have hdeclines : (Op.try_update_k [1] ⟨.error (), fun value => (value + 1, .error ())⟩ :
      Op Nat Unit).Declines (some 7) := Or.inr ⟨(), rfl⟩
  exact AdaptiveRadixTree.declined_unchanged hreach (by exact hget) hdeclines

end Declining

end rart.tree
