import Rart.Versioned.Forest

open SortedAssoc RcHeap Words LexOrder
open rart.node rart.partials rart.utils

namespace rart.versioned_tree

open VersionedAdaptiveRadixTree

variable {V E : Type}

/-- A reply that reports a change: not a failure, nor a key that was absent. -/
def Reply.changed : Reply V E → Bool
  | replaced _ => true
  | previous _ => true
  | removed value => value.isSome
  | deleted existed => existed
  | seen value => value.isSome
  | updated (.ok changed) _ => changed
  | updated (.error _) _ => false

/-- `try_update_k` on a present key, with a callback that asks for more than it has
written through its reference. -/
def Mutation.rewrites (found : Option V) : Mutation V E → Bool
  | .try_update_k _ update =>
    match found with
    | none => false
    | some value =>
      match (update.occupied value).2 with
      | .ok .Keep => false
      | _ => true
  | _ => false

section Advances

variable {found : Option V}

theorem advance_of_not_rewrites {op : Mutation V E} (h : op.rewrites found = false) :
    op.advance found = if (op.answer found).changed then 1 else 0 := by
  cases op with
  | insert_k key value => rfl
  | insert_and_replace_k key value => rfl
  | remove_k key => rfl
  | delete_k key => rfl
  | get_mut_k key write => rfl
  | update_k key update =>
    obtain ⟨answer, hanswer⟩ : ∃ answer, (update.apply false found).1 = answer := ⟨_, rfl⟩
    simp only [Mutation.advance, Mutation.answer, hanswer]
    cases answer with
    | error e => exact e.elim
    | ok changed => cases changed <;> rfl
  | try_update_k key update =>
    obtain ⟨vacant, occupied⟩ := update
    cases found with
    | none =>
      cases vacant with
      | error e => rfl
      | ok action => cases action <;> rfl
    | some current =>
      simp only [Mutation.rewrites] at h
      simp only [Mutation.advance, Mutation.answer, advances, Callback.apply]
      generalize occupied current = left at *
      obtain ⟨value, answer⟩ := left
      cases answer with
      | error e => cases h
      | ok action =>
        cases action with
        | Keep => rfl
        | Remove => cases h
        | Insert value' => cases h

theorem advance_of_rewrites {op : Mutation V E} (h : op.rewrites found = true) : op.advance found = 2 := by
  cases op with
  | try_update_k key update =>
    cases found with
    | none => cases h
    | some current =>
      simp only [Mutation.rewrites] at h
      simp only [Mutation.advance, advances]
      generalize (update.occupied current).2 = answer at *
      cases answer with
      | error e => rfl
      | ok action =>
        cases action with
        | Keep => cases h
        | Remove => rfl
        | Insert value' => rfl
  | _ => cases h

/-- A slot that no change is reported for holds what it held. -/
theorem left_of_not_changed {op : Mutation V E} (h : (op.answer found).changed = false) :
    op.left found = found := by
  cases op with
  | insert_k key value => cases h
  | insert_and_replace_k key value => cases h
  | remove_k key => exact (Option.isSome_eq_false_iff.1 h |> Option.isNone_iff_eq_none.1).symm
  | delete_k key => exact (Option.isSome_eq_false_iff.1 h |> Option.isNone_iff_eq_none.1).symm
  | get_mut_k key write =>
    rw [Option.isNone_iff_eq_none.1 (Option.isSome_eq_false_iff.1 h)]
    rfl
  | update_k key update =>
    simp only [Mutation.answer] at h
    simp only [Mutation.left]
    cases found with
    | none =>
      obtain ⟨e, _⟩ | heq | ⟨left, heq⟩ := update.apply_none_cases false
      · exact e.elim
      · rw [heq]
      · rw [heq] at h
        cases h
    | some current =>
      obtain ⟨e, _⟩ | ⟨left, heq⟩ | heq := update.apply_some_cases false current
      · exact e.elim
      · rw [heq] at h
        cases h
      · rw [heq] at h
        cases h
  | try_update_k key update =>
    simp only [Mutation.answer] at h
    simp only [Mutation.left]
    cases found with
    | none =>
      obtain ⟨e, heq⟩ | heq | ⟨left, heq⟩ := update.apply_none_cases true
      · rw [heq]
      · rw [heq]
      · rw [heq] at h
        cases h
    | some current =>
      unfold Callback.apply at h ⊢
      dsimp only at h ⊢
      generalize update.occupied current = left at *
      obtain ⟨value, answer⟩ := left
      cases answer with
      | error e => rfl
      | ok action => cases action <;> cases h

end Advances

variable [Features]

/-- A mutation that reports a change advances the version once. Any other leaves the
entries and the version as they were. -/
def Disciplined (h : Heap (VersionedNode V)) (tree : VersionedAdaptiveRadixTree V) (reply : Reply V E)
    (after : VersionedAdaptiveRadixTree V) (h' : Heap (VersionedNode V)) : Prop :=
  if reply.changed then after.version = tree.version + 1
  else after.version = tree.version ∧ ∀ key, after.lookup h' key = tree.lookup h key

theorem Mutated.discipline {h h' : Heap (VersionedNode V)} {tree after : VersionedAdaptiveRadixTree V}
    {others : List Nat} {op : Mutation V E} {found : Option V} (hfound : tree.lookup h op.key = found)
    (hm : Mutated h tree others op.key (op.left found) (tree.version + op.advance found) after h') :
    Disciplined h tree (op.answer found) after h' ↔ op.rewrites found = false := by
  unfold Disciplined
  rw [hm.version_eq]
  cases hrewrites : op.rewrites found with
  | true =>
    rw [advance_of_rewrites hrewrites]
    refine iff_of_false (fun hdisciplined => ?_) (by simp)
    split at hdisciplined
    · omega
    · have := hdisciplined.1
      omega
  | false =>
    rw [advance_of_not_rewrites hrewrites]
    refine iff_of_true ?_ rfl
    cases hchanged : (op.answer found).changed with
    | true => rfl
    | false =>
      refine ⟨rfl, fun key => ?_⟩
      by_cases hkey : key = op.key
      · rw [hkey, hfound, hm.updated.here, left_of_not_changed hchanged]
      · exact hm.updated.elsewhere key hkey

/-- A mutation of any tree that a sequence of commands has led to is disciplined, unless
`try_update_k` writes to a key that is present more than once. -/
theorem Forest.disciplined_iff (cs : List (Command V E)) :
    ∃ (replies : List (Option (Reply V E))) (forest : Forest V),
      runForest .empty cs = .ok (replies, forest) ∧
      ∀ i tree, member forest.trees i = some tree → ∀ op : Mutation V E,
        ∃ reply after h', op.onTree forest.heap tree = .ok (reply, after, h') ∧
          (Disciplined forest.heap tree reply after h' ↔
            op.rewrites (tree.lookup forest.heap op.key) = false) := by
  obtain ⟨forest, hrun, hr⟩ := runForest_spec represents_empty cs
  refine ⟨_, forest, hrun, fun i tree hmember op => ?_⟩
  obtain ⟨after, h', hmutate, hmutated⟩ := op.step (hr.live hmember)
  exact ⟨_, after, h', hmutate, hmutated.discipline rfl⟩

omit [Features] in
/-- A callback that refuses, and leaves the value as it is, has the version advanced
by two. -/
theorem Forest.refusal_advances :
    letI : Features := ⟨none⟩
    ∃ (replies : List (Option (Reply Nat Unit))) (forest : Forest Nat)
      (tree after : VersionedAdaptiveRadixTree Nat) (h' : Heap (VersionedNode Nat)),
      runForest .empty [.new, .mutate 0 (.insert_k [1] 7)] = .ok (replies, forest) ∧
      member forest.trees 0 = some tree ∧ tree.version = 1 ∧
      (Mutation.try_update_k [1] ⟨.error (), fun value => (value, .error ())⟩).onTree forest.heap tree =
        .ok (Reply.updated (.error ()) [.Occupied 7], after, h') ∧
      after.version = 3 ∧
      ¬ Disciplined forest.heap tree (Reply.updated (.error ()) [.Occupied 7] : Reply Nat Unit) after h' := by
  let : Features := ⟨none⟩
  obtain ⟨forest, hrun, hr⟩ := runForest_spec (V := Nat) (E := Unit) represents_empty
    [.new, .mutate 0 (.insert_k [1] 7)]
  have hforest : forest = ⟨(Heap.empty.alloc (.new_leaf [1] 7 1)).2, [some ⟨some 0, 1⟩]⟩ := by
    have hruns : runForest .empty [.new, .mutate 0 (Mutation.insert_k [1] 7 : Mutation Nat Unit)] =
      .ok ([none, some (.replaced false)], ⟨(Heap.empty.alloc (.new_leaf [1] 7 1)).2, [some ⟨some 0, 1⟩]⟩) := rfl
    rw [hrun] at hruns
    exact (Prod.mk.inj (Except.ok.inj hruns)).2
  have hmember : member forest.trees 0 = some ⟨some 0, 1⟩ := by
    rw [hforest]
    rfl
  obtain ⟨m, after, h', hm, hmutate, hmutated, _⟩ :=
    hr.mutate hmember (.try_update_k [1] ⟨.error (), fun value => (value, .error ())⟩)
  have hlookup : m.lookup [1] = some 7 := by
    cases hm
    rfl
  rw [Mutation.key, hlookup] at hmutated
  have hversion : after.version = 3 := hmutated.version_eq
  refine ⟨_, forest, ⟨some 0, 1⟩, after, h', hrun, hmember, rfl, ?_, hversion, fun hdisciplined => ?_⟩
  · rw [hmutate, Mutation.onMap, Mutation.key, hlookup]
    rfl
  · have hsame : after.version = 1 := hdisciplined.1
    omega

end rart.versioned_tree
