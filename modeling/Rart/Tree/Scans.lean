import Rart.Query.Scans
import Rart.Reachable

open SortedAssoc LexOrder
open rart.iter rart.node rart.query rart.utils rart.Trie

namespace rart.tree

variable {V : Type} [Features] {tree left right : AdaptiveRadixTree V} {m : RefMap V}

theorem Represents.holds (h : Represents tree m) : Holds tree.root m := ⟨h.wf, h.find⟩

/-- A program that leaves an inner node under the root. That node keeps the value of a key
which the keys below it start with, and a table that lost a child was there before. -/
def nesting : List (Op Nat Empty) :=
  [.insert_k [1] 10, .insert_k [1, 2] 20, .insert_k [1, 3, 4] 30, .insert_k [5] 40, .insert_k [6] 50, .remove_k [6]]

namespace AdaptiveRadixTree

/-- `range` hands out the entries whose keys satisfy both bounds. -/
theorem range_scans (h : Reachable tree) (start_bound end_bound : Bound) :
    ∃ r, range tree.root start_bound end_bound = .ok r ∧
      Scans tree.get_k (fun key => StartOk start_bound key ∧ EndOk end_bound key) r.collect := by
  obtain ⟨m, hm⟩ := h.represents
  obtain ⟨r, hr, hcollect⟩ := range_spec hm.wf start_bound end_bound
  refine ⟨r, hr, ?_⟩
  rw [hcollect]
  refine scans_filter hm.lists hm.get_k_eq fun e => ?_
  rw [Bool.and_eq_true, satisfies_start_iff, satisfies_end_iff]

omit [Features] in
/-- The range starts inside the inner node, behind its own value. -/
theorem range_scans_nesting :
    letI : Features := ⟨none⟩
    ∃ replies tree, runTree .new nesting = .ok (replies, tree) ∧
      ∃ r, range tree.root (.Excluded [1]) (.Included [5]) = .ok r ∧
        Scans tree.get_k (fun key => StartOk (.Excluded [1]) key ∧ EndOk (.Included [5]) key) r.collect := by
  let : Features := ⟨none⟩
  obtain ⟨replies, tree, hrun, hreach⟩ := Fresh.new.run_reachable nesting
  exact ⟨replies, tree, hrun, range_scans hreach (.Excluded [1]) (.Included [5])⟩

/-- The three walks over a whole tree hand out all of its entries. -/
theorem iter_scans (h : Reachable tree) :
    ∃ it, Iter.new tree.root = .ok it ∧ Scans tree.get_k (fun _ => True) it.collect ∧
      (LendingIterInner.for_each tree.root).map viewed = it.collect.map shown ∧
      (ValuesIter.new tree.root).collect = it.collect.map Prod.snd := by
  obtain ⟨m, hm⟩ := h.represents
  obtain ⟨it, hit, hcollect⟩ := Iter.new_root_spec hm.wf
  refine ⟨it, hit, ?_, ?_, ?_⟩
  · rw [hcollect]
    exact scans_all hm.lists hm.get_k_eq
  · rw [hcollect]
    exact for_each_viewed hm.wf
  · rw [hcollect]
    exact ValuesIter.collect_new_root hm.wf

omit [Features] in
/-- The walks go down into an inner node and come back to its neighbours. -/
theorem iter_scans_nesting :
    letI : Features := ⟨none⟩
    ∃ replies tree, runTree .new nesting = .ok (replies, tree) ∧
      ∃ it, Iter.new tree.root = .ok it ∧ Scans tree.get_k (fun _ => True) it.collect ∧
        (LendingIterInner.for_each tree.root).map viewed = it.collect.map shown ∧
        (ValuesIter.new tree.root).collect = it.collect.map Prod.snd := by
  let : Features := ⟨none⟩
  obtain ⟨replies, tree, hrun, hreach⟩ := Fresh.new.run_reachable nesting
  exact ⟨replies, tree, hrun, iter_scans hreach⟩

/-- The intersections of two trees report the keys that both of them hold. -/
theorem intersect_scans (hleft : Reachable left) (hright : Reachable right) :
    ScansBoth left.get_k right.get_k (intersect_with left.root right.root) ∧
      (intersect_lending_with left.root right.root).map (readCall LendingKeyView.bytes) =
        (intersect_with left.root right.root).map (fun e => ((e.1, e.1.length), e.2)) ∧
      intersect_values_with left.root right.root = (intersect_with left.root right.root).map Prod.snd ∧
      intersect_count left.root right.root = (intersect_with left.root right.root).length := by
  obtain ⟨m, hm⟩ := hleft.represents
  obtain ⟨m', hm'⟩ := hright.represents
  rw [intersect_with_spec hm.wf hm'.wf]
  refine ⟨?_, intersect_lending_with_spec hm.wf hm'.wf, intersect_values_with_spec hm.wf hm'.wf,
    intersect_count_spec hm.wf hm'.wf⟩
  rw [hm'.holds.lookup_eq]
  exact scans_common hm.lists hm.get_k_eq hm'.get_k_eq

omit [Features] in
/-- The two trees share a key in an inner node, and one that ends in a leaf of either. -/
theorem intersect_scans_nesting :
    letI : Features := ⟨none⟩
    ∃ replies replies' left right, runTree .new nesting = .ok (replies, left) ∧
      runTree .new ([.insert_k [1] 1, .insert_k [1, 3, 4] 2, .insert_k [1, 3, 5] 3] : List (Op Nat Empty)) =
        .ok (replies', right) ∧
      ScansBoth left.get_k right.get_k (intersect_with left.root right.root) ∧
      (intersect_lending_with left.root right.root).map (readCall LendingKeyView.bytes) =
        (intersect_with left.root right.root).map (fun e => ((e.1, e.1.length), e.2)) ∧
      intersect_values_with left.root right.root = (intersect_with left.root right.root).map Prod.snd ∧
      intersect_count left.root right.root = (intersect_with left.root right.root).length := by
  let : Features := ⟨none⟩
  obtain ⟨replies, left, hleft, hreach⟩ := Fresh.new.run_reachable nesting
  obtain ⟨replies', right, hright, hreach'⟩ := Fresh.new.run_reachable
    ([.insert_k [1] 1, .insert_k [1, 3, 4] 2, .insert_k [1, 3, 5] 3] : List (Op Nat Empty))
  exact ⟨replies, replies', left, right, hleft, hright, intersect_scans hreach hreach'⟩

/-- The prefix scans hand out the entries whose keys start with the prefix, and the
fallible one stops where its callback says so. -/
theorem prefix_scans (h : Reachable tree) (prefix_key : Bytes) :
    ∃ it, prefix_iter_k tree.root prefix_key = .ok it ∧
      Scans tree.get_k (fun key => prefix_key <+: key) it.collect ∧
      (∃ calls, prefix_for_each_view_k tree.root prefix_key = .ok calls ∧
        calls.map viewed = it.collect.map shown) ∧
      prefix_values_for_each_k tree.root prefix_key = .ok (it.collect.map Prod.snd) ∧
      ∀ {S E : Type} (on_each : S → V → Except E VisitControl × S) (s : S), ∃ visit,
        try_prefix_values_for_each_k on_each tree.root prefix_key s = .ok visit ∧
        StopsAt on_each (it.collect.map Prod.snd) s visit := by
  obtain ⟨m, hm⟩ := h.represents
  obtain ⟨it, hit, hcollect⟩ := prefix_iter_k_spec hm.wf prefix_key
  refine ⟨it, hit, ?_, ?_, ?_, fun on_each s => ?_⟩
  · rw [hcollect]
    exact scans_filter hm.lists hm.get_k_eq fun e => decide_eq_true_iff
  · rw [hcollect]
    exact prefix_for_each_view_k_spec hm.wf prefix_key
  · rw [hcollect]
    exact prefix_values_for_each_k_spec hm.wf prefix_key
  · rw [hcollect]
    exact ⟨_, try_prefix_values_for_each_k_spec hm.wf prefix_key on_each s,
      visit_values_stops on_each _ s⟩

omit [Features] in
/-- The prefix ends where an inner node does. -/
theorem prefix_scans_nesting :
    letI : Features := ⟨none⟩
    ∃ replies tree, runTree .new nesting = .ok (replies, tree) ∧
      ∃ it, prefix_iter_k tree.root [1] = .ok it ∧
        Scans tree.get_k (fun key => [1] <+: key) it.collect ∧
        (∃ calls, prefix_for_each_view_k tree.root [1] = .ok calls ∧
          calls.map viewed = it.collect.map shown) ∧
        prefix_values_for_each_k tree.root [1] = .ok (it.collect.map Prod.snd) ∧
        ∀ {S E : Type} (on_each : S → Nat → Except E VisitControl × S) (s : S), ∃ visit,
          try_prefix_values_for_each_k on_each tree.root [1] s = .ok visit ∧
          StopsAt on_each (it.collect.map Prod.snd) s visit := by
  let : Features := ⟨none⟩
  obtain ⟨replies, tree, hrun, hreach⟩ := Fresh.new.run_reachable nesting
  exact ⟨replies, tree, hrun, prefix_scans hreach [1]⟩

/-- The scans on the way to a probe hand out the entries whose keys it starts with, from
the shortest to the longest; the searches for the longest one return the last of them. -/
theorem prefix_match_scans (h : Reachable tree) (key : Bytes) :
    ∃ l, (prefix_match_iter_k tree.root key).collect = .ok l ∧
      Scans tree.get_k (fun k => k <+: key) l ∧
      (l.Pairwise fun e f => e.1.length < f.1.length) ∧
      prefix_match_for_each_k tree.root key = .ok l ∧
      longest_prefix_match_k tree.root key = .ok l.getLast? ∧
      longest_prefix_value_k tree.root key = .ok (l.getLast?.map Prod.snd) ∧
      longest_prefix_value_bytes tree.root key = .ok (l.getLast?.map Prod.snd) ∧
      (∃ call, with_longest_prefix_match_view_k tree.root key = .ok (call, call.isSome) ∧
        call.map viewed = l.getLast?.map shown) ∧
      ∃ found, tree.get_bytes key = .ok found ∧ ∀ value, found = some value ↔ (key, value) ∈ l := by
  obtain ⟨m, hm⟩ := h.represents
  have hscans : Scans tree.get_k (fun k => k <+: key) (prefixes_of key (rootEntries tree.root)) :=
    scans_filter hm.lists hm.get_k_eq fun e => decide_eq_true_iff
  refine ⟨_, prefix_match_iter_k_spec hm.wf key, hscans, prefixes_of_lengths hm.lists.ascending key,
    prefix_match_for_each_k_spec hm.wf key, longest_prefix_match_k_spec hm.wf key,
    longest_prefix_value_bytes_spec hm.wf key, longest_prefix_value_bytes_spec hm.wf key,
    with_longest_prefix_match_view_k_spec hm.wf key, _, hm.get_bytes_eq key, fun value => ?_⟩
  have hmem := hscans.mem key value
  rw [get_eq_ok_some hm.get_k_eq] at hmem
  exact ⟨fun hfound => hmem.2 ⟨List.prefix_refl _, hfound⟩, fun hin => (hmem.1 hin).2⟩

omit [Features] in
/-- The probe goes on below a leaf, and two of the keys are its prefixes. -/
theorem prefix_match_scans_nesting :
    letI : Features := ⟨none⟩
    ∃ replies tree, runTree .new nesting = .ok (replies, tree) ∧
      ∃ l, (prefix_match_iter_k tree.root [1, 2, 7]).collect = .ok l ∧
        Scans tree.get_k (fun k => k <+: [1, 2, 7]) l ∧
        (l.Pairwise fun e f => e.1.length < f.1.length) ∧
        prefix_match_for_each_k tree.root [1, 2, 7] = .ok l ∧
        longest_prefix_match_k tree.root [1, 2, 7] = .ok l.getLast? ∧
        longest_prefix_value_k tree.root [1, 2, 7] = .ok (l.getLast?.map Prod.snd) ∧
        longest_prefix_value_bytes tree.root [1, 2, 7] = .ok (l.getLast?.map Prod.snd) ∧
        (∃ call, with_longest_prefix_match_view_k tree.root [1, 2, 7] = .ok (call, call.isSome) ∧
          call.map viewed = l.getLast?.map shown) ∧
        ∃ found, tree.get_bytes [1, 2, 7] = .ok found ∧ ∀ value, found = some value ↔ ([1, 2, 7], value) ∈ l := by
  let : Features := ⟨none⟩
  obtain ⟨replies, tree, hrun, hreach⟩ := Fresh.new.run_reachable nesting
  exact ⟨replies, tree, hrun, prefix_match_scans hreach [1, 2, 7]⟩

end AdaptiveRadixTree

end rart.tree
