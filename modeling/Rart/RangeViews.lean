import Rart.Versioned.Scans

open SortedAssoc LexOrder
open rart.iter rart.node rart.query rart.utils rart.Trie rart.Node

namespace rart

variable {N V : Type} [Node N V]

/-- The calls of a lending scan are the entries of an owned one. -/
def LendsAsOwned (lent : Result (List (LendingKeyView × V))) (owned : Result (Range N V)) : Prop :=
  ∃ calls r, lent = .ok calls ∧ owned = .ok r ∧ calls.map viewed = r.collect.map shown

/-- A key below the start bound that shares more bytes with the start key than the root's
prefix is long. -/
def SlipsStart (root : N) (start_bound : Bound) (key : Bytes) : Prop :=
  ¬ StartOk start_bound key ∧
    ∃ start_key, seek_key start_bound = some start_key ∧ (pfx root).length < lcp key start_key

/-- A key beyond the end bound whose first segment is a proper prefix of the end key. -/
def SlipsEnd (root : N) (end_bound : Bound) (key : Bytes) : Prop :=
  ¬ EndOk end_bound key ∧
    ∃ end_key, seek_key end_bound = some end_key ∧ first_segment root key <+: end_key ∧
      first_segment root key ≠ end_key

/-- A key slips past a bound, and the other bound does not stop it. -/
def Slips (root : N) (start_bound end_bound : Bound) (key : Bytes) : Prop :=
  (SlipsStart root start_bound key ∧ (EndOk end_bound key ∨ SlipsEnd root end_bound key)) ∨
    (SlipsEnd root end_bound key ∧ (StartOk start_bound key ∨ SlipsStart root start_bound key))

section Slipping

variable {root : N} {start_bound end_bound : Bound} {key : Bytes}

theorem visits_iff : visits root start_bound end_bound key = true ↔
    (StartOk start_bound key ∧ EndOk end_bound key) ∨ Slips root start_bound end_bound key := by
  have hstart : slips_start root start_bound key = true ↔ SlipsStart root start_bound key := slips_start_iff
  have hend : slips_end root end_bound key = true ↔ SlipsEnd root end_bound key := slips_end_iff
  unfold visits Slips
  rw [Bool.and_eq_true, Bool.or_eq_true, Bool.or_eq_true, satisfies_start_iff, satisfies_end_iff, hstart, hend]
  generalize SlipsStart root start_bound key = below
  generalize SlipsEnd root end_bound key = beyond
  tauto

theorem not_within_of_slips (h : Slips root start_bound end_bound key) :
    ¬ (StartOk start_bound key ∧ EndOk end_bound key) := by
  rintro ⟨hstart, hend⟩
  cases h with
  | inl hslips => exact hslips.1.1 hstart
  | inr hslips => exact hslips.1.1 hend

/-- Two filters of a list keep the same if and only if they agree on its members. -/
theorem filter_eq_filter_iff {α : Type} {p q : α → Bool} {l : List α} (hle : ∀ a, q a = true → p a = true) :
    l.filter p = l.filter q ↔ ∀ a ∈ l, p a = true → q a = true := by
  constructor
  · intro heq a ha hp
    have hmem : a ∈ l.filter p := List.mem_filter.2 ⟨ha, hp⟩
    rw [heq] at hmem
    exact (List.mem_filter.1 hmem).2
  · intro hall
    apply List.filter_congr
    intro a ha
    rw [Bool.eq_iff_iff]
    exact ⟨hall a ha, hle a⟩

end Slipping

theorem shown_injective : Function.Injective (shown : Bytes × V → Bytes × Nat × V) := by
  intro e f heq
  obtain ⟨hkey, hrest⟩ := Prod.mk.inj heq
  exact Prod.ext hkey (Prod.mk.inj hrest).2

/-- A lending scan agrees with an owned one if and only if no stored key slips past the
bounds. -/
theorem lendsAsOwned_iff {root : Option N} {m : RefMap V} (h : Holds root m) (start_bound end_bound : Bound)
    {owned : Result (Range N V)}
    (howned : ∃ r, owned = .ok r ∧ r.collect = within start_bound end_bound (rootEntries root)) :
    LendsAsOwned (LendingIterInner.for_each_with_bounds root start_bound end_bound) owned ↔
      ∀ r, root = some r → ∀ key value, m.lookup key = some value → ¬ Slips r start_bound end_bound key := by
  obtain ⟨r, hr, hcollect⟩ := howned
  cases root with
  | none =>
    refine iff_of_true ⟨[], r, rfl, hr, ?_⟩ fun _ heq => by cases heq
    rw [hcollect]
    rfl
  | some n =>
    obtain ⟨calls, hcalls, hviewed⟩ := for_each_with_bounds_viewed (h.wf n rfl) start_bound end_bound
    have hlends : LendsAsOwned (LendingIterInner.for_each_with_bounds (some n) start_bound end_bound) owned ↔
        ((entries n).filter fun e => visits n start_bound end_bound e.1) =
          within start_bound end_bound (entries n) := by
      constructor
      · rintro ⟨calls', r', hcalls', hr', heq⟩
        cases hcalls.symm.trans hcalls'
        cases hr.symm.trans hr'
        rw [hviewed, hcollect] at heq
        exact List.map_injective_iff.2 shown_injective heq
      · intro heq
        refine ⟨calls, r, hcalls, hr, ?_⟩
        rw [hviewed, hcollect]
        exact congrArg _ heq
    have hwithin : ∀ e : Bytes × V, (satisfies_start start_bound e.1 && satisfies_end end_bound e.1) = true ↔
        StartOk start_bound e.1 ∧ EndOk end_bound e.1 := by
      intro e
      rw [Bool.and_eq_true, satisfies_start_iff, satisfies_end_iff]
    unfold within at hlends
    rw [hlends, filter_eq_filter_iff fun e he => visits_iff.2 (Or.inl ((hwithin e).1 he))]
    constructor
    · intro hall n' hn' key value hvalue hslips
      cases hn'
      have hmem := (h.lists.mem key value).2 hvalue
      exact not_within_of_slips hslips ((hwithin _).1 (hall _ hmem (visits_iff.2 (Or.inr hslips))))
    · intro hnone e he hvisits
      rw [hwithin]
      cases visits_iff.1 hvisits with
      | inl hok => exact hok
      | inr hslips => exact absurd hslips (hnone n rfl e.1 e.2 ((h.lists.mem _ _).1 he))

/-- On every tree of either kind, the lending range scan visits what the owned one hands
out if and only if no stored key slips past the bounds. -/
theorem for_each_range_view_iff [Features] :
    (∀ tree : rart.tree.AdaptiveRadixTree V, rart.tree.Reachable tree → ∀ start_bound end_bound,
      LendsAsOwned (LendingIterInner.for_each_with_bounds tree.root start_bound end_bound)
          (range tree.root start_bound end_bound) ↔
        ∀ root, tree.root = some root → ∀ key value, tree.get_k key = .ok (some value) →
          ¬ Slips root start_bound end_bound key) ∧
    ∀ forest : versioned_tree.Forest V, forest.Reachable →
      ∀ i (tree : versioned_tree.VersionedAdaptiveRadixTree V),
        versioned_tree.member forest.trees i = some tree → ∀ start_bound end_bound,
      LendsAsOwned (LendingIterInner.for_each_with_bounds (tree.root_node forest.heap) start_bound end_bound)
          (versioned_range (tree.root_node forest.heap) start_bound end_bound) ↔
        ∀ root, tree.root_node forest.heap = some root → ∀ key value,
          tree.get_k forest.heap key = .ok (some value) → ¬ Slips root start_bound end_bound key := by
  constructor
  · intro tree htree start_bound end_bound
    obtain ⟨m, hm⟩ := htree.represents
    rw [lendsAsOwned_iff hm.holds start_bound end_bound (range_spec hm.wf start_bound end_bound)]
    simp only [get_eq_ok_some hm.get_k_eq]
  · intro forest hforest i tree hmember start_bound end_bound
    obtain ⟨m, hm, hget⟩ := hforest.holds hmember
    rw [lendsAsOwned_iff hm start_bound end_bound (versioned_range_spec hm.wf start_bound end_bound)]
    simp only [get_eq_ok_some hget]

/-- Below an empty root prefix, the scan from `[1, 2]` on visits `[1, 1]` first. -/
theorem for_each_range_view_below_start :
    letI : Features := ⟨none⟩
    ¬ ∀ tree : rart.tree.AdaptiveRadixTree Nat, rart.tree.Reachable tree → ∀ start_bound end_bound,
      LendsAsOwned (LendingIterInner.for_each_with_bounds tree.root start_bound end_bound)
        (range tree.root start_bound end_bound) := by
  let : Features := ⟨none⟩
  intro hall
  obtain ⟨tree, hrun, _⟩ := rart.tree.runTree_spec rart.tree.represents_new
    [(.insert_k [1, 1] 11 : rart.tree.Op Nat Empty), .insert_k [1, 2] 12, .insert_k [2] 2]
  obtain ⟨calls, r, hcalls, hr, heq⟩ := hall tree (rart.tree.Reachable.run (.fresh .new) hrun)
    (.Included [1, 2]) .Unbounded
  have hlent : ((rart.tree.runTree (.new : rart.tree.AdaptiveRadixTree Nat)
      [(.insert_k [1, 1] 11 : rart.tree.Op Nat Empty), .insert_k [1, 2] 12, .insert_k [2] 2]).toOption.bind
      fun run => (LendingIterInner.for_each_with_bounds run.2.root (.Included [1, 2]) .Unbounded).toOption.map
        (List.map viewed)) = some [([1, 1], 2, 11), ([1, 2], 2, 12), ([2], 1, 2)] := by
    decide +kernel
  have howned : ((rart.tree.runTree (.new : rart.tree.AdaptiveRadixTree Nat)
      [(.insert_k [1, 1] 11 : rart.tree.Op Nat Empty), .insert_k [1, 2] 12, .insert_k [2] 2]).toOption.bind
      fun run => (range run.2.root (.Included [1, 2]) .Unbounded).toOption.map Range.collect) =
        some [([1, 2], 12), ([2], 2)] := by
    decide +kernel
  have hcalls' : some (calls.map viewed) = some [([1, 1], 2, 11), ([1, 2], 2, 12), ([2], 1, 2)] := by
    rw [← hlent, hrun]
    change _ = ((LendingIterInner.for_each_with_bounds tree.root _ _).toOption.map _)
    rw [hcalls]
    rfl
  have hr' : some r.collect = some [([1, 2], 12), ([2], 2)] := by
    rw [← howned, hrun]
    change _ = ((range tree.root _ _).toOption.map _)
    rw [hr]
    rfl
  rw [Option.some.inj hcalls', Option.some.inj hr'] at heq
  cases heq

end rart
