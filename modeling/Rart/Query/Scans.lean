import Rart.Iter.Bounded
import Rart.Iter.Range
import Rart.Query.Intersect
import Rart.Query.Prefix
import Rart.Query.PrefixMatch
import Rart.Tree.Reads

open SortedAssoc LexOrder
open rart.iter rart.node rart.utils rart.Trie

namespace rart.query

variable {N N' V : Type} [Node N V] [Node N' V]

/-- A root holds the entries of a map. -/
structure Holds (root : Option N) (m : RefMap V) : Prop where
  wf : ∀ r, root = some r → Wf r
  find : ∀ key, (root.bind fun r => find r key) = m.lookup key

/-- The entries that `get` finds under the keys that `keep` accepts, each once, in
ascending order of their keys. -/
structure Scans (get : Bytes → Result (Option V)) (keep : Bytes → Prop) (l : List (Bytes × V)) : Prop where
  ascending : Ascending l
  mem : ∀ key value, (key, value) ∈ l ↔ keep key ∧ get key = .ok (some value)

/-- The keys that two reads both find, each once, with both values, in ascending order of
the keys. -/
structure ScansBoth (get get' : Bytes → Result (Option V)) (l : List (Bytes × V × V)) : Prop where
  ascending : l.Pairwise fun e f => e.1 < f.1
  mem : ∀ key left right,
    (key, left, right) ∈ l ↔ get key = .ok (some left) ∧ get' key = .ok (some right)

section Lists

variable {m m' : RefMap V} {l : List (Bytes × V)} {get get' : Bytes → Result (Option V)}

/-- A value is read when the map has it. -/
theorem get_eq_ok_some (hget : ∀ key, get key = .ok (m.lookup key)) {key : Bytes} {value : V} :
    get key = .ok (some value) ↔ m.lookup key = some value := by
  rw [hget]
  exact ⟨Except.ok.inj, congrArg _⟩

/-- A listing scans all keys. -/
theorem scans_all (h : m.Lists l) (hget : ∀ key, get key = .ok (m.lookup key)) :
    Scans get (fun _ => True) l where
  ascending := h.ascending
  mem key value := by
    rw [get_eq_ok_some hget, ← h.mem, true_and]

/-- A filtered listing scans the keys that pass. -/
theorem scans_filter (h : m.Lists l) (hget : ∀ key, get key = .ok (m.lookup key)) {keep : Bytes → Prop}
    {p : Bytes × V → Bool} (hp : ∀ e, p e = true ↔ keep e.1) : Scans get keep (l.filter p) where
  ascending := h.ascending.filter _
  mem key value := by
    rw [get_eq_ok_some hget, List.mem_filter, h.mem, hp]
    exact and_comm

/-- A common entry has a value on both sides. -/
theorem mem_common {key : Bytes} {left right : V} {lookup : Bytes → Option V} :
    (key, left, right) ∈ common l lookup ↔ (key, left) ∈ l ∧ lookup key = some right := by
  unfold common
  simp only [List.mem_filterMap, Option.map_eq_some_iff, Prod.mk.injEq]
  constructor
  · rintro ⟨⟨k, v⟩, hmem, w, hw, rfl, rfl, rfl⟩
    exact ⟨hmem, hw⟩
  · rintro ⟨hmem, hright⟩
    exact ⟨(key, left), hmem, right, hright, rfl, rfl, rfl⟩

/-- Common entries scan the keys of both maps. -/
theorem scans_common (h : m.Lists l) (hget : ∀ key, get key = .ok (m.lookup key))
    (hget' : ∀ key, get' key = .ok (m'.lookup key)) : ScansBoth get get' (common l m'.lookup) where
  ascending := by
    unfold common
    rw [List.pairwise_filterMap]
    refine h.ascending.imp fun {e f} hlt p hp q hq => ?_
    obtain ⟨_, _, rfl⟩ := Option.map_eq_some_iff.1 hp
    obtain ⟨_, _, rfl⟩ := Option.map_eq_some_iff.1 hq
    exact hlt
  mem key left right := by
    rw [get_eq_ok_some hget, get_eq_ok_some hget', mem_common, h.mem]

end Lists

section Visiting

omit [Node N V] in
/-- A callback that never stops sees all values. -/
theorem visit_values_all (values : List V) :
    (visit_values (fun (s : Unit) (_ : V) => ((.ok .Continue : Except Empty VisitControl), s)) values ()).1 =
      values := by
  induction values with
  | nil => rfl
  | cons value values ih =>
    rw [visit_values]
    exact congrArg _ ih

/-- The values of the keys that start with the prefix. -/
theorem prefix_values_for_each_k_spec {root : Option N} (hwf : ∀ r, root = some r → Wf r)
    (prefix_key : Bytes) : prefix_values_for_each_k root prefix_key =
      .ok ((starting_with prefix_key (rootEntries root)).map Prod.snd) := by
  unfold prefix_values_for_each_k
  rw [try_prefix_values_for_each_k_spec hwf, ok_bind]
  exact congrArg Except.ok (visit_values_all _)

end Visiting

/-- Two results that both arrive and that show the same to their reader. -/
def Same {α β γ : Type} (read : α → γ) (read' : β → γ) (x : Result α) (y : Result β) : Prop :=
  ∃ a b, x = .ok a ∧ y = .ok b ∧ read a = read' b

/-- The in-order reads of two roots, the left one versioned, hand out the same. -/
structure SameScans (root : Option N) (root' : Option N') : Prop where
  iter : Same Iter.collect Iter.collect (Iter.new root) (Iter.new root')
  for_each_view : (LendingIterInner.for_each root).map viewed = (LendingIterInner.for_each root').map viewed
  values_iter : (ValuesIter.new root).collect = (ValuesIter.new root').collect
  range : ∀ start_bound end_bound, Same Range.collect Range.collect
    (versioned_range root start_bound end_bound) (range root' start_bound end_bound)
  prefix_iter_k : ∀ key, Same Iter.collect Iter.collect (prefix_iter_k root key) (prefix_iter_k root' key)
  prefix_for_each_view_k : ∀ key, Same (List.map viewed) (List.map viewed)
    (prefix_for_each_view_k root key) (prefix_for_each_view_k root' key)
  prefix_values_for_each_k : ∀ key, Same id id
    (prefix_values_for_each_k root key) (prefix_values_for_each_k root' key)
  prefix_match_iter_k : ∀ key, Same id id
    (prefix_match_iter_k root key).collect (prefix_match_iter_k root' key).collect
  prefix_match_for_each_k : ∀ key, Same id id
    (prefix_match_for_each_k root key) (prefix_match_for_each_k root' key)

/-- The intersections of two pairs of roots report the same. -/
structure SameIntersections (root other : Option N) (root' other' : Option N') : Prop where
  intersect_with : intersect_with root other = intersect_with root' other'
  intersect_lending_with : (intersect_lending_with root other).map (readCall LendingKeyView.bytes) =
    (intersect_lending_with root' other').map (readCall LendingKeyView.bytes)
  intersect_values_with : intersect_values_with root other = intersect_values_with root' other'
  intersect_count : intersect_count root other = intersect_count root' other'

namespace Holds

variable {root other : Option N} {root' other' : Option N'} {m m' : RefMap V}

/-- The entries of a root list its map. -/
theorem lists (h : Holds root m) : m.Lists (rootEntries root) := lists_rootEntries h.wf h.find

/-- A lookup in a root is a lookup in its map. -/
theorem lookup_eq (h : Holds root m) : query.lookup root = m.lookup := funext h.find

/-- Roots that hold the same entries hand out the same. -/
theorem sameScans (h : Holds root m) (h' : Holds root' m) : SameScans root root' := by
  have hsame : root.elim [] entries = root'.elim [] entries := h.lists.unique h'.lists
  constructor
  · obtain ⟨it, hit, hcollect⟩ := Iter.new_root_spec h.wf
    obtain ⟨it', hit', hcollect'⟩ := Iter.new_root_spec h'.wf
    exact ⟨it, it', hit, hit', hcollect.trans (hsame.trans hcollect'.symm)⟩
  · rw [for_each_viewed h.wf, for_each_viewed h'.wf, hsame]
  · rw [ValuesIter.collect_new_root h.wf, ValuesIter.collect_new_root h'.wf]
    exact congrArg _ hsame
  · intro start_bound end_bound
    obtain ⟨r, hr, hcollect⟩ := versioned_range_spec h.wf start_bound end_bound
    obtain ⟨r', hr', hcollect'⟩ := range_spec h'.wf start_bound end_bound
    rw [← hsame] at hcollect'
    exact ⟨r, r', hr, hr', hcollect.trans hcollect'.symm⟩
  · intro key
    obtain ⟨it, hit, hcollect⟩ := prefix_iter_k_spec h.wf key
    obtain ⟨it', hit', hcollect'⟩ := prefix_iter_k_spec h'.wf key
    rw [← hsame] at hcollect'
    exact ⟨it, it', hit, hit', hcollect.trans hcollect'.symm⟩
  · intro key
    obtain ⟨calls, hcalls, hviewed⟩ := prefix_for_each_view_k_spec h.wf key
    obtain ⟨calls', hcalls', hviewed'⟩ := prefix_for_each_view_k_spec h'.wf key
    rw [← hsame] at hviewed'
    exact ⟨calls, calls', hcalls, hcalls', hviewed.trans hviewed'.symm⟩
  · intro key
    refine ⟨_, _, prefix_values_for_each_k_spec h.wf key, prefix_values_for_each_k_spec h'.wf key, ?_⟩
    exact congrArg (fun l => (starting_with key l).map Prod.snd) hsame
  · intro key
    refine ⟨_, _, prefix_match_iter_k_spec h.wf key, prefix_match_iter_k_spec h'.wf key, ?_⟩
    rw [hsame]
  · intro key
    refine ⟨_, _, prefix_match_for_each_k_spec h.wf key, prefix_match_for_each_k_spec h'.wf key, ?_⟩
    rw [hsame]

/-- Roots that stand for the same maps intersect alike. -/
theorem sameIntersections (h : Holds root m) (hother : Holds other m') (h' : Holds root' m)
    (hother' : Holds other' m') : SameIntersections root other root' other' := by
  have hsame : root.elim [] entries = root'.elim [] entries := h.lists.unique h'.lists
  have hcommon : common (root.elim [] entries) (query.lookup other) =
      common (root'.elim [] entries) (query.lookup other') := by
    rw [hsame, hother.lookup_eq, hother'.lookup_eq]
  constructor
  · rw [intersect_with_spec h.wf hother.wf, intersect_with_spec h'.wf hother'.wf, hcommon]
  · rw [intersect_lending_with_spec h.wf hother.wf, intersect_lending_with_spec h'.wf hother'.wf, hcommon]
  · rw [intersect_values_with_spec h.wf hother.wf, intersect_values_with_spec h'.wf hother'.wf, hcommon]
  · rw [intersect_count_spec h.wf hother.wf, intersect_count_spec h'.wf hother'.wf, hcommon]

end Holds

end rart.query
