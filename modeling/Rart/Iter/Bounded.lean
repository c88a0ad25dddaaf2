import Rart.Iter.KeyView
import Rart.Iter.Views

open SortedAssoc LexOrder
open rart.partials rart.Trie rart.Node

namespace rart.iter

variable {N V : Type} [Node N V]

/-- The first segment of a stored key: the root's prefix or, where that is empty,
the prefix of the child that holds the key. -/
def first_segment (root : N) (key : Bytes) : Bytes :=
  if pfx root ≠ [] then pfx root
  else match key with
    | [] => []
    | k :: _ => ((Node.iter root).lookup k).elim [] pfx

/-- A key below the start bound that the seek does not skip: it shares more of the start key than
the root's prefix. The seek looks no further than the root. -/
def slips_start (root : N) (start_bound : Bound) (key : Bytes) : Bool :=
  !satisfies_start start_bound key &&
    (seek_key start_bound).any fun start_key => decide ((pfx root).length < lcp key start_key)

/-- A key beyond the end bound that passes for less: its first segment is a proper prefix of the
end key. The end bound is tested at the first segment alone. -/
def slips_end (root : N) (end_bound : Bound) (key : Bytes) : Bool :=
  !satisfies_end end_bound key && (seek_key end_bound).any fun end_key =>
    decide (first_segment root key <+: end_key ∧ first_segment root key ≠ end_key)

/-- The keys that a bounded lending walk visits. -/
def visits (root : N) (start_bound end_bound : Bound) (key : Bytes) : Bool :=
  (satisfies_start start_bound key || slips_start root start_bound key) &&
    (satisfies_end end_bound key || slips_end root end_bound key)

section Segments

theorem lt_of_proper_pfx {p s : Bytes} (h : p <+: s) (hne : p ≠ s) : p < s := by
  obtain ⟨t, rfl⟩ := h
  apply lt_append_of_ne_nil
  intro hnil
  apply hne
  rw [hnil, List.append_nil]

theorem pfx_ne_nil {node : N} (hwf : Wf node) {p : UInt8 × N} (hp : p ∈ Node.iter node) :
    pfx p.2 ≠ [] := by
  intro hnil
  have hedge := hwf.edges hp
  rw [hnil] at hedge
  cases hedge

/-- The segments of a path are not empty, and the first one is the node's prefix. -/
theorem paths_segments {node : N} (hwf : Wf node) (hne : pfx node ≠ []) {e : List Bytes × V}
    (he : e ∈ paths node) : (∃ rest, e.1 = pfx node :: rest) ∧ ∀ segment ∈ e.1, segment ≠ [] := by
  induction hn : rank node using Nat.strongRecOn generalizing node e with
  | ind m ih =>
    subst hn
    rw [paths_eq] at he
    cases List.mem_append.1 he with
    | inl hown =>
      rw [Option.mem_toList, Option.map_eq_some_iff] at hown
      obtain ⟨v, _, rfl⟩ := hown
      exact ⟨⟨[], rfl⟩, by simpa using hne⟩
    | inr hchild =>
      obtain ⟨f, hf, rfl⟩ := List.mem_map.1 hchild
      obtain ⟨p, hp, hf⟩ := List.mem_flatMap.1 hf
      have hrest := (ih _ (rank_iter (k := p.1) hp) (hwf.child hp) (pfx_ne_nil hwf hp) hf rfl).2
      refine ⟨⟨f.1, rfl⟩, ?_⟩
      intro segment hsegment
      cases List.mem_cons.1 hsegment with
      | inl heq => rwa [heq]
      | inr hmem => exact hrest segment hmem

/-- A path below the root starts with the first segment of its key. -/
theorem first_segment_path {root : N} (hwf : Wf root) {e : List Bytes × V}
    (he : e ∈ underSegments (root_segments root) (childPaths (Node.iter root))) :
    (∃ rest, e.1 = first_segment root e.1.flatten :: rest) ∧ ∀ segment ∈ e.1, segment ≠ [] := by
  obtain ⟨f, hf, rfl⟩ := List.mem_map.1 he
  obtain ⟨p, hp, hf⟩ := List.mem_flatMap.1 hf
  obtain ⟨⟨rest, hrest⟩, hall⟩ := paths_segments (hwf.child hp) (pfx_ne_nil hwf hp) hf
  unfold root_segments first_segment
  by_cases hnil : pfx root = []
  · have hkey : joined f ∈ entries p.2 := by
      rw [← map_joined_paths]
      exact List.mem_map_of_mem hf
    obtain ⟨tail, htail⟩ := hwf.key_of_child hp hkey
    have hflat : f.1.flatten = p.1 :: tail := htail
    have hlookup : (Node.iter root).lookup p.1 = some p.2 := hwf.ascending.lookup_eq_some_iff.2 hp
    rw [if_pos hnil, if_neg (not_not.2 hnil), List.nil_append, hflat]
    dsimp only
    rw [hlookup]
    exact ⟨⟨rest, hrest⟩, hall⟩
  · rw [if_neg hnil, if_pos hnil]
    refine ⟨⟨f.1, rfl⟩, ?_⟩
    intro segment hsegment
    cases List.mem_cons.1 hsegment with
    | inl heq => rwa [heq]
    | inr hmem => exact hall segment hmem

/-- The first segment of a key is the one of every key that it is a prefix of. -/
theorem first_segment_eq {root : N} {key key' : Bytes} (hne : first_segment root key' ≠ [])
    (hedge : first_segment root key' <+: key') (hpfx : first_segment root key' <+: key) :
    first_segment root key = first_segment root key' := by
  unfold first_segment at *
  by_cases hnil : pfx root = []
  · simp only [hnil, ne_eq, not_true, if_false] at *
    cases key' with
    | nil => exact absurd rfl hne
    | cons k' rest' =>
      obtain ⟨a, segment, hsegment⟩ := List.exists_cons_of_ne_nil hne
      dsimp only at hsegment hedge hpfx
      rw [hsegment] at hedge hpfx
      obtain ⟨t, ht⟩ := hedge
      obtain ⟨u, rfl⟩ := hpfx
      rw [(List.cons.inj ht).1]
      rfl
  · simp only [hnil, ne_eq, not_false_eq_true, if_true]

/-- The view of a path lies within the end bound, or slips past it. -/
theorem within_path {root : N} (hwf : Wf root) (end_bound : Bound) {e : List Bytes × V}
    (he : e ∈ underSegments (root_segments root) (childPaths (Node.iter root))) :
    view_within_end (end_bound_vec end_bound) (LendingIterInner.viewOf e).1 =
      (satisfies_end end_bound (joined e).1 || slips_end root end_bound (joined e).1) := by
  obtain ⟨⟨rest, hrest⟩, hall⟩ := first_segment_path hwf he
  have hcmp : ∀ end_key, (⟨e.1, e.1.flatten.length⟩ : LendingKeyView).cmp_slice end_key =
      if first_segment root e.1.flatten <+: end_key ∧ first_segment root e.1.flatten ≠ end_key then .lt
      else lexCompare e.1.flatten end_key := by
    intro end_key
    have hcmp := cmp_slice_cons (first_segment root e.1.flatten) rest end_key
    unfold LendingKeyView.ofSegments at hcmp
    rwa [← hrest] at hcmp
  unfold slips_end joined LendingIterInner.viewOf view_within_end satisfies_end
  cases end_bound with
  | Unbounded => rfl
  | Included end_key =>
    simp only [end_bound_vec, seek_key, hcmp, Option.any_some]
    by_cases hslip : first_segment root e.1.flatten <+: end_key ∧ first_segment root e.1.flatten ≠ end_key
    · cases lexCompare e.1.flatten end_key <;> simp [hslip]
    · cases lexCompare e.1.flatten end_key <;> simp [hslip]
  | Excluded end_key =>
    simp only [end_bound_vec, seek_key, hcmp, Option.any_some]
    by_cases hslip : first_segment root e.1.flatten <+: end_key ∧ first_segment root e.1.flatten ≠ end_key
    · cases lexCompare e.1.flatten end_key <;> simp [hslip]
    · cases lexCompare e.1.flatten end_key <;> simp [hslip]

end Segments

section Walk

variable {root : N}

theorem slips_start_iff {start_bound : Bound} {key : Bytes} :
    slips_start root start_bound key = true ↔ ¬ StartOk start_bound key ∧
      ∃ start_key, seek_key start_bound = some start_key ∧ (pfx root).length < lcp key start_key := by
  unfold slips_start
  rw [Bool.and_eq_true, Option.any_eq_true, ← satisfies_start_iff]
  simp

theorem slips_end_iff {end_bound : Bound} {key : Bytes} :
    slips_end root end_bound key = true ↔ ¬ EndOk end_bound key ∧
      ∃ end_key, seek_key end_bound = some end_key ∧ first_segment root key <+: end_key ∧
        first_segment root key ≠ end_key := by
  unfold slips_end
  rw [Bool.and_eq_true, Option.any_eq_true, ← satisfies_end_iff]
  simp

theorem endOk_of_lt {end_bound : Bound} {end_key key : Bytes} (hseek : seek_key end_bound = some end_key)
    (hlt : key < end_key) : EndOk end_bound key := by
  cases end_bound with
  | Unbounded => trivial
  | Included k =>
    cases hseek
    exact le_of_lt hlt
  | Excluded k =>
    cases hseek
    exact hlt

/-- The keys that pass the end bound, or slip past it, come first. -/
theorem passes_end_mono {end_bound : Bound} {key key' : Bytes} (hlt : key < key')
    (hedge : first_segment root key' <+: key') (hne : first_segment root key' ≠ [])
    (h : (satisfies_end end_bound key' || slips_end root end_bound key') = true) :
    (satisfies_end end_bound key || slips_end root end_bound key) = true := by
  rw [Bool.or_eq_true, satisfies_end_iff, slips_end_iff] at h ⊢
  cases h with
  | inl hok => exact Or.inl (hok.mono (le_of_lt hlt))
  | inr hslip =>
    obtain ⟨_, end_key, hseek, hpfx, hproper⟩ := hslip
    by_cases hbelow : key < first_segment root key'
    · exact Or.inl (endOk_of_lt hseek (lt_trans hbelow (lt_of_proper_pfx hpfx hproper)))
    · -- the key starts with the same first segment
      have hstarts : first_segment root key' <+: key :=
        prefix_of_le_of_le (List.prefix_refl _) hedge (not_lt.1 hbelow) (le_of_lt hlt)
      have hsame := first_segment_eq hne hedge hstarts
      rw [hsame]
      by_cases hok : EndOk end_bound key
      · exact Or.inl hok
      · exact Or.inr ⟨hok, end_key, hseek, hpfx, hproper⟩

theorem first_segment_root : first_segment root (pfx root) = pfx root := by
  unfold first_segment
  split
  · rfl
  · rename_i hnil
    rw [not_not.1 hnil]

/-- The first segment of a stored key lies between the root's prefix and the key. -/
theorem first_segment_between (hwf : Wf root) {e : Bytes × V} (he : e ∈ entries root) :
    pfx root <+: first_segment root e.1 ∧ first_segment root e.1 <+: e.1 := by
  obtain ⟨key, v⟩ := e
  obtain ⟨rfl, _⟩ | ⟨f, hf, rfl, _⟩ := mem_entries.1 he
  · rw [first_segment_root]
    exact ⟨List.prefix_refl _, List.prefix_refl _⟩
  · unfold first_segment
    by_cases hnil : pfx root = []
    · obtain ⟨p, hp, hf⟩ := mem_childEntries.1 hf
      obtain ⟨rest, hrest⟩ := hwf.key_of_child hp hf
      have hlookup : (Node.iter root).lookup p.1 = some p.2 := hwf.ascending.lookup_eq_some_iff.2 hp
      have hpfx : pfx p.2 <+: f.1 := prefix_of_find ((hwf.child hp).mem_entries_iff.1 hf)
      rw [hrest] at hpfx
      simp only [hnil, hrest, List.nil_append, ne_eq, not_true, if_false, hlookup, Option.elim_some]
      exact ⟨List.nil_prefix, hpfx⟩
    · simp only [hnil, ne_eq, not_false_eq_true, if_true]
      exact ⟨List.prefix_refl _, List.prefix_append _ _⟩

/-- The root's own key slips past neither bound. -/
theorem not_slips_root (start_bound end_bound : Bound) :
    slips_start root start_bound (pfx root) = false ∧ slips_end root end_bound (pfx root) = false := by
  rw [← Bool.not_eq_true, ← Bool.not_eq_true, slips_start_iff, slips_end_iff, first_segment_root]
  constructor
  · rintro ⟨_, start_key, _, hlt⟩
    have := lcp_le_left (pfx root) start_key
    omega
  · rintro ⟨hnot, end_key, hseek, hpfx, hproper⟩
    exact hnot (endOk_of_lt hseek (lt_of_proper_pfx hpfx hproper))

/-- Nothing passes the end bound, or slips past it, where the root's key does not. -/
theorem not_passes_end {end_bound : Bound} {key : Bytes} (hroot : ¬ EndOk end_bound (pfx root))
    (hpfx : pfx root <+: first_segment root key) (hedge : first_segment root key <+: key) :
    (satisfies_end end_bound key || slips_end root end_bound key) = false := by
  rw [← Bool.not_eq_true, Bool.or_eq_true, satisfies_end_iff, slips_end_iff]
  have hle : ∀ {s t : Bytes}, s <+: t → s ≤ t := by
    rintro s t ⟨u, rfl⟩
    exact le_append s u
  rintro (hok | ⟨_, end_key, hseek, hstarts, hproper⟩)
  · exact hroot (hok.mono (le_trans (hle hpfx) (hle hedge)))
  · exact hroot (endOk_of_lt hseek (lt_of_le_of_lt (hle hpfx) (lt_of_proper_pfx hstarts hproper)))

/-- The seek keeps the keys that pass the start bound or slip past it, and drops the
others. -/
theorem passes_start_of_positioned {start_bound : Bound} {start_key : Bytes}
    (hseek : seek_key start_bound = some start_key) {dropped kept : List (UInt8 × N)}
    (h : Positioned root start_key dropped kept) (hwf : Wf root) :
    (∀ e ∈ childEntries dropped, (satisfies_start start_bound (pfx root ++ e.1) ||
      slips_start root start_bound (pfx root ++ e.1)) = false) ∧
    ∀ e ∈ childEntries kept, (satisfies_start start_bound (pfx root ++ e.1) ||
      slips_start root start_bound (pfx root ++ e.1)) = true := by
  constructor
  · intro e he
    obtain ⟨hlt, hlcp⟩ := h.dropped e he
    rw [← Bool.not_eq_true, Bool.or_eq_true, satisfies_start_iff, slips_start_iff]
    rintro (hok | ⟨_, k, hk, hshared⟩)
    · exact not_startOk_of_lt hseek hlt hok
    · rw [hseek] at hk
      cases hk
      omega
  · intro e he
    rw [Bool.or_eq_true, satisfies_start_iff, slips_start_iff]
    by_cases hok : StartOk start_bound (pfx root ++ e.1)
    · exact Or.inl hok
    · right
      refine ⟨hok, start_key, hseek, ?_⟩
      cases h.kept e he with
      | inr hshared => exact hshared
      | inl hle =>
        cases start_bound with
        | Unbounded => cases hseek
        | Included k =>
          cases hseek
          exact absurd hle hok
        | Excluded k =>
          cases hseek
          -- an excluded start is met by the key itself
          have heq : start_key = pfx root ++ e.1 := le_antisymm hle (not_lt.1 hok)
          obtain ⟨p, hp, he⟩ := mem_childEntries.1 he
          obtain ⟨rest, hrest⟩ := hwf.key_of_child (by rw [h.split]; exact List.mem_append_right _ hp) he
          rw [heq, lcp_eq_length_iff.2 (List.prefix_refl _), hrest]
          simp

/-- What a positioned walk visits below the root. -/
theorem visit_kept (hwf : Wf root) (end_bound : Bound) {kept : List (UInt8 × N)} {it : IterFrameIter N}
    (hit : it.remaining = kept) (hkept : ∀ p ∈ kept, p ∈ Node.iter root)
    (hasc : Ascending (under (pfx root) (childEntries kept))) :
    (LendingIterInner.visit_each ⟨[(((root_segments root).length, (pfx root).length), it)],
        root_segments root, (pfx root).length, end_bound_vec end_bound⟩).map viewed =
      ((under (pfx root) (childEntries kept)).filter fun e =>
        satisfies_end end_bound e.1 || slips_end root end_bound e.1).map shown := by
  have hpending := pending_below hwf hit hkept (root_segments root) (end_bound_vec end_bound)
  rw [flatten_root_segments] at hpending
  have hpaths : ∀ e ∈ underSegments (root_segments root) (childPaths kept),
      e ∈ underSegments (root_segments root) (childPaths (Node.iter root)) := by
    intro e he
    obtain ⟨f, hf, rfl⟩ := List.mem_map.1 he
    obtain ⟨p, hp, hf⟩ := List.mem_flatMap.1 hf
    exact List.mem_map_of_mem (List.mem_flatMap.2 ⟨p, hkept p hp, hf⟩)
  have hentries : (underSegments (root_segments root) (childPaths kept)).map joined =
      under (pfx root) (childEntries kept) := by
    rw [map_joined_underSegments, map_joined_childPaths, flatten_root_segments]
  have hsorted : (underSegments (root_segments root) (childPaths kept)).Pairwise fun e f =>
      (joined e).1 < (joined f).1 := by
    rw [← hentries, Ascending, List.pairwise_map] at hasc
    exact hasc
  have hfilter : ((underSegments (root_segments root) (childPaths kept)).takeWhile fun e =>
      view_within_end (end_bound_vec end_bound) (LendingIterInner.viewOf e).1) =
        (underSegments (root_segments root) (childPaths kept)).filter fun e =>
          satisfies_end end_bound (joined e).1 || slips_end root end_bound (joined e).1 := by
    rw [takeWhile_eq_filter]
    · exact List.filter_congr fun e he => within_path hwf end_bound (hpaths e he)
    · refine hsorted.imp_of_mem ?_
      intro e f he hf hlt hpass
      rw [within_path hwf end_bound (hpaths f hf)] at hpass
      rw [within_path hwf end_bound (hpaths e he)]
      obtain ⟨⟨rest, hrest⟩, hall⟩ := first_segment_path hwf (hpaths f hf)
      have hedge : first_segment root f.1.flatten <+: f.1.flatten := by
        conv_rhs => rw [hrest, List.flatten_cons]
        exact List.prefix_append _ _
      exact passes_end_mono hlt hedge (hall _ (by rw [hrest]; exact List.mem_cons_self)) hpass
  rw [hpending.visit_each_eq, List.takeWhile_map, map_viewed_viewOf, ← hentries, List.filter_map]
  exact congrArg (fun l => (l.map joined).map shown) hfilter

theorem cmp_slice_root (slice : Bytes) :
    (⟨root_segments root, (pfx root).length⟩ : LendingKeyView).cmp_slice slice =
      lexCompare (pfx root) slice := by
  unfold root_segments
  by_cases hnil : pfx root = []
  · simp only [hnil, if_true, List.length_nil]
    exact cmp_slice_nil slice
  · have hcmp := cmp_slice_cons (pfx root) [] slice
    unfold LendingKeyView.ofSegments at hcmp
    rw [List.flatten_singleton] at hcmp
    rw [if_neg hnil, hcmp]
    split
    · rename_i hproper
      exact (lexCompare_eq_lt_iff.2 (lt_of_proper_pfx hproper.1 hproper.2)).symm
    · rfl

theorem within_root (end_bound : Bound) :
    view_within_end (end_bound_vec end_bound) ⟨root_segments root, (pfx root).length⟩ =
      satisfies_end end_bound (pfx root) := by
  unfold view_within_end satisfies_end end_bound_vec
  cases end_bound with
  | Unbounded => rfl
  | Included end_key =>
    dsimp only
    rw [cmp_slice_root]
    cases lexCompare (pfx root) end_key <;> rfl
  | Excluded end_key =>
    dsimp only
    rw [cmp_slice_root]
    cases lexCompare (pfx root) end_key <;> rfl

theorem above_root (start_bound : Bound) :
    view_above_start start_bound ⟨root_segments root, (pfx root).length⟩ =
      satisfies_start start_bound (pfx root) := by
  unfold view_above_start satisfies_start
  cases start_bound with
  | Unbounded => rfl
  | Included start_key => simp only [cmp_slice_root, key_order_eq]
  | Excluded start_key => simp only [cmp_slice_root, key_order_eq]

/-- What the walk of `for_each_with_bounds` visits below the root. -/
theorem positioned_viewed (hwf : Wf root) (start_bound end_bound : Bound) :
    ∃ walk : LendingIterInner N,
      LendingIterInner.positioned root start_bound end_bound = .ok walk ∧
      walk.visit_each.map viewed = ((under (pfx root) (childEntries (Node.iter root))).filter fun e =>
        visits root start_bound end_bound e.1).map shown := by
  have hasc : Ascending (under (pfx root) (childEntries (Node.iter root))) := by
    have hall := hwf.entries_ascending
    rw [entries_eq_append, Ascending, List.pairwise_append] at hall
    exact hall.2.1
  unfold LendingIterInner.positioned visits
  cases hseek : seek_key start_bound with
  | none =>
    refine ⟨_, rfl, ?_⟩
    have hremaining : (IterFrameIter.Plain (Node.iter root)).remaining = Node.iter root := rfl
    have hvisit := visit_kept hwf end_bound hremaining (fun p hp => hp) hasc
    unfold LendingIterInner.below
    rw [hvisit]
    congr 1
    apply List.filter_congr
    intro e _
    cases start_bound with
    | Unbounded => rfl
    | Included k => cases hseek
    | Excluded k => cases hseek
  | some start_key =>
    obtain ⟨it, dropped, hit, hpositioned⟩ := positioned_iter_spec hwf start_key
    generalize hkept : it.elim [] IterFrameIter.remaining = kept at hpositioned
    obtain ⟨hdropped, hpass⟩ := passes_start_of_positioned hseek hpositioned hwf
    have hnone : (under (pfx root) (childEntries dropped)).filter (fun e =>
        (satisfies_start start_bound e.1 || slips_start root start_bound e.1) &&
          (satisfies_end end_bound e.1 || slips_end root end_bound e.1)) = [] := by
      rw [List.filter_eq_nil_iff]
      intro e he
      obtain ⟨f, hf, rfl⟩ := List.mem_map.1 he
      rw [hdropped f hf]
      simp
    rw [hpositioned.split, childEntries_append, under_append] at hasc ⊢
    rw [List.filter_append, hnone, List.nil_append]
    have hmem : ∀ p ∈ kept, p ∈ Node.iter root := fun p hp => by
      rw [hpositioned.split]
      exact List.mem_append_right _ hp
    have hpassing : (under (pfx root) (childEntries kept)).filter (fun e =>
        (satisfies_start start_bound e.1 || slips_start root start_bound e.1) &&
          (satisfies_end end_bound e.1 || slips_end root end_bound e.1)) =
        (under (pfx root) (childEntries kept)).filter fun e =>
          satisfies_end end_bound e.1 || slips_end root end_bound e.1 := by
      apply List.filter_congr
      intro e he
      obtain ⟨f, hf, rfl⟩ := List.mem_map.1 he
      rw [hpass f hf]
      rfl
    rw [hpassing]
    have hdepth : (if pfx root = [] then 0 else 1) = (root_segments root).length := by
      unfold root_segments
      split <;> rfl
    unfold LendingIterInner.build_positioned_stack
    dsimp only
    rw [hit, hdepth]
    refine ⟨_, rfl, ?_⟩
    cases it with
    | none =>
      obtain rfl : [] = kept := hkept
      exact congrArg (List.map viewed) (Cursor.collect_of_none rfl)
    | some it => exact visit_kept hwf end_bound hkept hmem (List.pairwise_append.1 hasc).2.1

/-- What `for_each_with_bounds` visits: the keys that pass both bounds or slip past
them. -/
theorem for_each_with_bounds_viewed (hwf : Wf root) (start_bound end_bound : Bound) :
    ∃ calls : List (LendingKeyView × V),
      LendingIterInner.for_each_with_bounds (some root) start_bound end_bound = .ok calls ∧
      calls.map viewed =
        ((entries root).filter fun e => visits root start_bound end_bound e.1).map shown := by
  unfold LendingIterInner.for_each_with_bounds
  dsimp only
  rw [within_root, above_root]
  cases hend : satisfies_end end_bound (pfx root) with
  | false =>
    refine ⟨[], rfl, ?_⟩
    have hnone : ((entries root).filter fun e => visits root start_bound end_bound e.1) = [] := by
      rw [List.filter_eq_nil_iff]
      intro e he
      obtain ⟨hpfx, hedge⟩ := first_segment_between hwf he
      have hroot : ¬ EndOk end_bound (pfx root) := by
        rw [← satisfies_end_iff, hend]
        exact Bool.false_ne_true
      unfold visits
      rw [not_passes_end hroot hpfx hedge, Bool.and_false]
      exact Bool.false_ne_true
    rw [hnone]
    rfl
  | true =>
    have hfirst : visits root start_bound end_bound (pfx root) = satisfies_start start_bound (pfx root) := by
      unfold visits
      rw [(not_slips_root start_bound end_bound).1, hend]
      simp
    have hown : ((if satisfies_start start_bound (pfx root) = true then
        (value root).map fun value =>
          ((⟨root_segments root, (pfx root).length⟩ : LendingKeyView), value) else none).toList).map viewed =
        (((value root).map fun v => (pfx root, v)).toList.filter fun e =>
          visits root start_bound end_bound e.1).map shown := by
      cases value root with
      | none => simp
      | some v =>
        simp only [Option.map_some, Option.toList_some, List.filter_singleton, hfirst]
        cases satisfies_start start_bound (pfx root) with
        | false => rfl
        | true =>
          simp [viewed, shown, LendingKeyView.to_vec_eq, flatten_root_segments]
    rw [entries_eq_append, List.filter_append, List.map_append, ← hown]
    cases hleaf : is_leaf root with
    | true =>
      rw [iter_leaf hwf.layout hleaf]
      exact ⟨_, rfl, by simp⟩
    | false =>
      obtain ⟨walk, hwalk, hvisit⟩ := positioned_viewed hwf start_bound end_bound
      rw [hwalk]
      refine ⟨_, rfl, ?_⟩
      rw [List.map_append, hvisit]
      rfl

end Walk

end rart.iter
