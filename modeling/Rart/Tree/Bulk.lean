import Rart.Tree.Canonical

open SortedAssoc LexOrder
open rart.mapping rart.node rart.partials rart.utils rart.Trie

namespace rart.tree

variable {V σ : Type}

/-- The entries that a bulk loader reads: `key_at`, and `take_value_at`, which
changes what is left to take. -/
structure BulkItems (σ V : Type) where
  key_at : Nat → Result Bytes
  take_value_at : Nat → σ → Result (V × σ)

section Loader

/-- The loop of `common_prefix_len`. -/
def common_prefix_len.go (left right : Bytes) (depth common_len matched : Nat) : Result Nat :=
  if matched < common_len then do
    if (← byte_at left (depth + matched)) = (← byte_at right (depth + matched)) then
      go left right depth common_len (matched + 1)
    else return matched
  else return matched
termination_by common_len - matched

/-- Of what both keys have left. -/
def common_prefix_len (left right : Bytes) (depth : Nat) : Result Nat := do
  let common_len := min (← length_at left depth) (← length_at right depth)
  common_prefix_len.go left right depth common_len 0

variable (items : BulkItems σ V)

/-- The loop of both `child_group_count`s. -/
def child_group_count.go (stop depth index count : Nat) (previous : Option UInt8) : Result Nat :=
  if index < stop then do
    let edge ← byte_at (← items.key_at index) depth
    if previous ≠ some edge then go stop depth (index + 1) (count + 1) (some edge)
    else go stop depth (index + 1) count previous
  else return count
termination_by stop - index

/-- The number of children that a node will have. -/
def child_group_count (start stop depth : Nat) : Result Nat :=
  child_group_count.go items stop depth start 0 none

/-- The end of the run of keys that go on with one edge. -/
def child_group_end (stop node_depth : Nat) (edge : UInt8) (child_end : Nat) : Result Nat :=
  if child_end < stop then do
    if (← byte_at (← items.key_at child_end) node_depth) = edge then
      child_group_end stop node_depth edge (child_end + 1)
    else return child_end
  else return child_end
termination_by stop - child_end

/-- The layout for a number of children. -/
def new_bulk_inner (child_count : Nat) (pfx : Bytes) : DefaultNode V :=
  if child_count ≤ 4 then .new_4 pfx
  else if child_count ≤ 16 then .new_16 pfx
  else if child_count ≤ 48 then .new_48 pfx
  else .new_256 pfx

/-- The loop that builds one child for every group. -/
def build_bulk_children (build : Nat → Nat → Nat → σ → Result (DefaultNode V × σ))
    (stop node_depth child_start : Nat) (node : DefaultNode V) (s : σ) : Result (DefaultNode V × σ) :=
  if _hstart : child_start < stop then do
    let edge ← byte_at (← items.key_at child_start) node_depth
    let child_end ← child_group_end items stop node_depth edge (child_start + 1)
    let (child, s) ← build child_start child_end node_depth s
    let node ← node.add_child_sorted_unchecked edge child
    if _hend : child_start < child_end then
      build_bulk_children build stop node_depth child_end node s
    else throw .out_of_fuel
  else return (node, s)
termination_by stop - child_start

/-- `build_bulk_node` and `build_bulk_node_by_index`, over how they read the entries.
A slice of the entries is given by its bounds. -/
def build_bulk_node_with : Nat → Nat → Nat → Nat → σ → Result (DefaultNode V × σ)
  | 0, _, _, _, _ => throw .out_of_fuel
  | fuel + 1, start, stop, depth, s => do
    let first_key ← items.key_at start
    if stop - start = 1 then
      let pfx ← to_partial first_key depth
      let (value, s) ← items.take_value_at start s
      return (.new_leaf pfx value, s)
    let prefix_len ← common_prefix_len first_key (← items.key_at (stop - 1)) depth
    let node_depth := depth + prefix_len
    let pfx ← partial_before (← to_partial first_key depth) prefix_len
    let has_value := (← length_at first_key depth) = prefix_len
    let first_child := if has_value then start + 1 else start
    let child_count ← child_group_count items first_child stop node_depth
    if child_count = 0 then
      let (value, s) ← items.take_value_at start s
      return (.new_leaf pfx value, s)
    let node := new_bulk_inner child_count pfx
    if has_value then
      let (value, s) ← items.take_value_at start s
      build_bulk_children items (build_bulk_node_with fuel) stop node_depth first_child
        (.mk node.pfx (some value) node.content) s
    else
      build_bulk_children items (build_bulk_node_with fuel) stop node_depth first_child node s

end Loader

namespace AdaptiveRadixTree

/-- A tree from its root and the number of its entries. -/
def from_root (root : DefaultNode V) (len : Nat) : AdaptiveRadixTree V := ⟨some root, len⟩

/-- The entries of a vector, each of whose values can be taken once. -/
def vecItems (items : List (Bytes × Option V)) : BulkItems (List (Bytes × Option V)) V where
  key_at i := Prod.fst <$> index items i
  take_value_at i left := do
    let (key, slot) ← index left i
    let value ← expect slot "bulk-load value already consumed"
    return (value, ← index_set left i (key, none))

/-- `build_bulk_node` -/
def build_bulk_node (items : List (Bytes × Option V)) (depth : Nat) :
    Result (DefaultNode V × List (Bytes × Option V)) :=
  build_bulk_node_with (vecItems items) items.length 0 items.length depth items

/-- Without entries there is no root. -/
def from_unique_sorted_items (items : List (Bytes × Option V)) : Result (AdaptiveRadixTree V) :=
  if items.isEmpty then return .new
  else do
    let (root, _) ← build_bulk_node items 0
    return from_root root items.length

/-- The loop of `bulk_load_sorted`. -/
def bulk_load_sorted.go (unique : List (Bytes × Option V)) :
    List (Bytes × V) → Result (List (Bytes × Option V))
  | [] => return unique
  | (key, value) :: items =>
    match unique.getLast? with
    | some (last_key, _) =>
      match lexCompare last_key key with
      | .gt => throw (.panic "bulk_load_sorted input is not sorted")
      | .eq => go (unique.dropLast ++ [(last_key, some value)]) items
      | .lt => go (unique ++ [(key, some value)]) items
    | none => go (unique ++ [(key, some value)]) items

/-- Of entries with one key the last value stays. -/
def bulk_load_sorted (items : List (Bytes × V)) : Result (AdaptiveRadixTree V) := do
  from_unique_sorted_items (← bulk_load_sorted.go [] items)

/-- The order of the entries is asserted in debug builds only. -/
def bulk_load_sorted_unique (items : List (Bytes × V)) : Result (AdaptiveRadixTree V) :=
  from_unique_sorted_items (items.map fun e => (e.1, some e.2))

/-- Keys and a callback for the values, with the indexes it was called with. -/
def indexItems (key_at : Nat → Bytes) (take_value_at : Nat → σ → V × σ) :
    BulkItems (σ × List Nat) V where
  key_at i := return key_at i
  take_value_at i s := return ((take_value_at i s.1).1, (take_value_at i s.1).2, s.2 ++ [i])

/-- `bulk_load_sorted_unique_by_index`, with the state of the callback afterwards and
the indexes it was called with. -/
def bulk_load_sorted_unique_by_index (len : Nat) (key_at : Nat → Bytes)
    (take_value_at : Nat → σ → V × σ) (s : σ) : Result (AdaptiveRadixTree V × σ × List Nat) :=
  if len = 0 then return (.new, s, [])
  else do
    let (root, s) ← build_bulk_node_with (indexItems key_at take_value_at) len 0 len 0 (s, [])
    return (from_root root len, s)

end AdaptiveRadixTree

section Reading

/-- By induction on what the keys share behind the bytes already matched. -/
theorem common_prefix_len_go_eq (p s t : Bytes) (base base' : Bytes) (hbase : base.length = base'.length) :
    common_prefix_len.go (base ++ p ++ s) (base' ++ p ++ t) base.length
      (p.length + min s.length t.length) p.length = .ok (p.length + lcp s t) := by
  induction s generalizing p t with
  | nil =>
    rw [common_prefix_len.go, if_neg (by simp)]
    simp
  | cons a s ih =>
    cases t with
    | nil =>
      rw [common_prefix_len.go, if_neg (by simp)]
      simp
    | cons b t =>
      have ha : byte_at (base ++ p ++ a :: s) (base.length + p.length) = .ok a := by
        rw [byte_at, ← List.length_append]
        exact index_append_length (base ++ p) a s
      have hb : byte_at (base' ++ p ++ b :: t) (base.length + p.length) = .ok b := by
        rw [byte_at, hbase, ← List.length_append]
        exact index_append_length (base' ++ p) b t
      rw [common_prefix_len.go, if_pos (by simp), ha, ok_bind, hb, ok_bind]
      by_cases hab : a = b
      · subst hab
        have hrest := ih (p ++ [a]) t
        simp only [List.length_append, List.length_singleton, List.append_assoc, List.singleton_append] at hrest
        rw [if_pos rfl, List.append_assoc, List.append_assoc]
        rw [show p.length + min (a :: s).length (a :: t).length = p.length + 1 + min s.length t.length by
          simp only [List.length_cons]; omega, hrest]
        simp only [lcp, if_true]
        congr 1
        omega
      · rw [if_neg hab]
        simp [lcp, hab]

/-- The longest common prefix of what is left. -/
theorem common_prefix_len_eq {base s t : Bytes} :
    common_prefix_len (base ++ s) (base ++ t) base.length = .ok (lcp s t) := by
  have hgo := common_prefix_len_go_eq [] s t base base rfl
  simp only [List.append_nil, List.length_nil, Nat.zero_add] at hgo
  unfold common_prefix_len length_at
  rw [usize_sub_eq_ok (by simp), ok_bind, usize_sub_eq_ok (by simp), ok_bind]
  simp only [List.length_append, Nat.add_sub_cancel_left]
  exact hgo

/-- The number of times a byte differs from the one before it. -/
def changes (edge : Nat → UInt8) : Nat → Nat → Option UInt8 → Nat
  | 0, _, _ => 0
  | n + 1, i, previous => (if previous = some (edge i) then 0 else 1) + changes edge n (i + 1) (some (edge i))

variable {items : BulkItems σ V} {edge : Nat → UInt8} {stop depth : Nat}

/-- The edge under which the keys from a place on continue. -/
def Edges (items : BulkItems σ V) (edge : Nat → UInt8) (start stop depth : Nat) : Prop :=
  ∀ i, start ≤ i → i < stop → ∃ key, items.key_at i = .ok key ∧ byte_at key depth = .ok (edge i)

/-- By induction on the keys that are left. -/
theorem child_group_count_go_eq {index : Nat} (h : Edges items edge index stop depth) (count : Nat)
    (previous : Option UInt8) :
    child_group_count.go items stop depth index count previous =
      .ok (count + changes edge (stop - index) index previous) := by
  induction hn : stop - index generalizing index count previous with
  | zero =>
    rw [child_group_count.go, if_neg (by omega)]
    rfl
  | succ n ih =>
    obtain ⟨key, hkey, hbyte⟩ := h index (Nat.le_refl _) (by omega)
    have hrest : Edges items edge (index + 1) stop depth := fun i hi hstop => h i (by omega) hstop
    rw [child_group_count.go, if_pos (by omega), hkey, ok_bind, hbyte, ok_bind, changes]
    by_cases hsame : previous = some (edge index)
    · rw [if_neg (not_not.2 hsame), if_pos hsame, ih hrest _ _ (by omega), ← hsame, Nat.zero_add]
    · rw [if_pos hsame, if_neg hsame, ih hrest _ _ (by omega)]
      congr 1
      omega

/-- A run of keys that go on with one edge. -/
structure Group (edge : Nat → UInt8) (stop start next : Nat) : Prop where
  lt : start < next
  le : next ≤ stop
  same : ∀ i, start ≤ i → i < next → edge i = edge start
  ends : next < stop → edge next ≠ edge start

/-- The group ends with the keys or before the first other edge. -/
theorem child_group_end_spec {start : Nat} (h : Edges items edge start stop depth) {from_ : Nat}
    (hstart : start < from_) (hstop : from_ ≤ stop)
    (hsame : ∀ i, start ≤ i → i < from_ → edge i = edge start) :
    ∃ next, child_group_end items stop depth (edge start) from_ = .ok next ∧
      Group edge stop start next := by
  induction hn : stop - from_ generalizing from_ with
  | zero =>
    refine ⟨from_, ?_, hstart, hstop, hsame, fun hlt => by omega⟩
    rw [child_group_end, if_neg (by omega)]
    rfl
  | succ n ih =>
    obtain ⟨key, hkey, hbyte⟩ := h from_ (by omega) (by omega)
    rw [child_group_end, if_pos (by omega), hkey, ok_bind, hbyte, ok_bind]
    by_cases heq : edge from_ = edge start
    · rw [if_pos heq]
      refine ih (by omega) (by omega) (fun i hi hlt => ?_) (by omega)
      by_cases hlast : i = from_
      · rw [hlast, heq]
      · exact hsame i hi (by omega)
    · rw [if_neg heq]
      exact ⟨from_, rfl, hstart, hstop, hsame, fun _ => heq⟩

/-- Going on with the same edge is no change. -/
theorem changes_same {e : UInt8} {i j : Nat} (hij : i ≤ j) (hstop : j ≤ stop)
    (hsame : ∀ m, i ≤ m → m < j → edge m = e) :
    changes edge (stop - i) i (some e) = changes edge (stop - j) j (some e) := by
  induction hn : j - i generalizing i with
  | zero =>
    obtain rfl : i = j := by omega
    rfl
  | succ n ih =>
    have hstep := hsame i (Nat.le_refl _) (by omega)
    rw [show stop - i = stop - (i + 1) + 1 by omega, changes, hstep, if_pos rfl, Nat.zero_add]
    exact ih (by omega) (fun m hm hlt => hsame m (by omega) hlt) (by omega)

/-- Every group is counted once. -/
theorem changes_group {i next : Nat} (h : Group edge stop i next) {previous : Option UInt8}
    (hnew : previous ≠ some (edge i)) :
    changes edge (stop - i) i previous = 1 + changes edge (stop - next) next (some (edge i)) := by
  have hlt := h.lt
  have hle := h.le
  rw [show stop - i = stop - (i + 1) + 1 by omega, changes, if_neg hnew,
    changes_same hlt hle fun m hm hlt => h.same m (by omega) hlt]

end Reading

section Build

variable [Features] {items : BulkItems σ V} {key : Nat → Bytes} {val : Nat → V} {st : Nat → σ}

/-- The entries at a run of places, in ascending order of their keys, as a loader that
takes the values one after the other reads them. -/
structure Serves (items : BulkItems σ V) (key : Nat → Bytes) (val : Nat → V) (st : Nat → σ)
    (start stop : Nat) : Prop where
  key_at : ∀ i, start ≤ i → i < stop → items.key_at i = .ok (key i)
  take : ∀ i, start ≤ i → i < stop → items.take_value_at i (st i) = .ok (val i, st (i + 1))
  ascending : ∀ i j, start ≤ i → i < j → j < stop → key i < key j

/-- The entries of a run, without the first bytes of the keys. -/
def run (key : Nat → Bytes) (val : Nat → V) (depth start stop : Nat) : List (Bytes × V) :=
  (List.range' start (stop - start)).map fun i => ((key i).drop depth, val i)

/-- What a loader makes of a run. -/
structure Built (key : Nat → Bytes) (val : Nat → V) (start stop depth : Nat) (node : DefaultNode V) :
    Prop where
  wf : Wf node
  canonical : Every Canonical node
  entries : entries node = run key val depth start stop

omit [Features] in
/-- A shorter run is served as well. -/
theorem Serves.mono {start stop start' stop' : Nat} (h : Serves items key val st start stop)
    (hstart : start ≤ start') (hstop : stop' ≤ stop) : Serves items key val st start' stop' where
  key_at i hi hlt := h.key_at i (by omega) (by omega)
  take i hi hlt := h.take i (by omega) (by omega)
  ascending i j hi hij hj := h.ascending i j (by omega) hij (by omega)

omit [Features] in
/-- The keys of a run are sorted. -/
theorem Serves.le {start stop : Nat} (h : Serves items key val st start stop) {i j : Nat}
    (hi : start ≤ i) (hij : i ≤ j) (hj : j < stop) : key i ≤ key j := by
  rcases Nat.eq_or_lt_of_le hij with rfl | hlt
  · exact le_refl _
  · exact le_of_lt (h.ascending i j hi hlt hj)

omit [Features] in
/-- A run in two parts. -/
theorem run_append {depth start mid stop : Nat} (hstart : start ≤ mid) (hstop : mid ≤ stop) :
    run key val depth start stop = run key val depth start mid ++ run key val depth mid stop := by
  have hrange : List.range' start (stop - start) =
      List.range' start (mid - start) ++ List.range' mid (stop - mid) := by
    have happ := List.range'_append_1 (s := start) (m := mid - start) (n := stop - mid)
    rw [show start + (mid - start) = mid by omega,
      show (mid - start) + (stop - mid) = stop - start by omega] at happ
    exact happ.symm
  unfold run
  rw [hrange, List.map_append]

omit [Features] in
/-- A run of one entry. -/
theorem run_one (depth start : Nat) : run key val depth start (start + 1) = [((key start).drop depth, val start)] := by
  unfold run
  rw [Nat.add_sub_cancel_left]
  rfl

omit [Features] in
/-- A run of no entries. -/
theorem run_self (depth start : Nat) : run key val depth start start = [] := by
  unfold run
  rw [Nat.sub_self]
  rfl

omit [Features] in
/-- The entries of a run come from its places. -/
theorem mem_run {depth start stop : Nat} {e : Bytes × V} (h : e ∈ run key val depth start stop) :
    ∃ i, start ≤ i ∧ i < stop ∧ e = ((key i).drop depth, val i) := by
  obtain ⟨i, hi, rfl⟩ := List.mem_map.1 h
  have hrange := List.mem_range'_1.1 hi
  exact ⟨i, hrange.1, by omega, rfl⟩

/-- A child of a group hangs under the group's edge. -/
theorem Built.edge {start stop depth : Nat} {node : DefaultNode V} {k : UInt8}
    (h : Built key val start stop depth node)
    (hedge : ∀ i, start ≤ i → i < stop → ∃ rest, (key i).drop depth = k :: rest) :
    node.pfx.head? = some k := by
  have hlongest := longest_of_canonical h.wf h.canonical.here (p := [k]) fun t v hfind => by
    have hmem := h.wf.mem_entries_iff.2 hfind
    rw [h.entries] at hmem
    obtain ⟨i, hi, hlt, heq⟩ := mem_run hmem
    obtain ⟨rest, hrest⟩ := hedge i hi hlt
    rw [(Prod.mk.inj heq).1, hrest]
    exact ⟨rest, rfl⟩
  obtain ⟨t, ht⟩ := hlongest
  rw [← ht]
  rfl

/-- The children loaded so far. -/
structure Partway (key : Nat → Bytes) (val : Nat → V) (first i node_depth : Nat)
    (content : Content (DefaultNode V)) (children : List (UInt8 × DefaultNode V)) : Prop where
  loaded : content.Loaded children
  edges : ∀ p ∈ children, p.2.pfx.head? = some p.1
  wf : ∀ p ∈ children, Wf p.2
  canonical : ∀ p ∈ children, Every Canonical p.2
  entries : childEntries children = run key val node_depth first i

variable {edge : Nat → UInt8} {first stop node_depth count : Nat} {value : Option V}
  {build : Nat → Nat → Nat → σ → Result (DefaultNode V × σ)}

/-- The loop builds one child for every group. -/
theorem build_bulk_children_spec (hedges : Edges items edge first stop node_depth)
    (hmono : ∀ i j, first ≤ i → i ≤ j → j < stop → edge i ≤ edge j)
    (hdrop : ∀ i, first ≤ i → i < stop → ∃ rest, (key i).drop node_depth = edge i :: rest)
    (hbuild : ∀ i next, first ≤ i → Group edge stop i next →
      ∃ child, build i next node_depth (st i) = .ok (child, st next) ∧ Built key val i next node_depth child)
    (pfx : Bytes) (value : Option V) {i : Nat} (hfirst : first ≤ i) (hstop : i ≤ stop)
    {content : Content (DefaultNode V)} {children : List (UInt8 × DefaultNode V)}
    (h : Partway key val first i node_depth content children)
    (hsmall : ∀ p ∈ children, i < stop → p.1 < edge i) {previous : Option UInt8}
    (hnew : i < stop → previous ≠ some (edge i))
    (hcount : children.length + changes edge (stop - i) i previous = count)
    (hroom : count ≤ content.capacity ∨ content.capacity = 256) :
    ∃ content' children', build_bulk_children items build stop node_depth i (.mk pfx value content) (st i) =
        .ok (.mk pfx value content', st stop) ∧
      Partway key val first stop node_depth content' children' ∧
      content'.capacity = content.capacity ∧ children'.length = count := by
  induction hn : stop - i using Nat.strongRecOn generalizing i content children previous with
  | ind n ih =>
    subst hn
    rw [build_bulk_children]
    by_cases hlt : i < stop
    · obtain ⟨k, hk, hbyte⟩ := hedges i hfirst hlt
      have hrest : Edges items edge i stop node_depth := fun m hm hstop => hedges m (by omega) hstop
      obtain ⟨next, hnext, hgroup⟩ := child_group_end_spec hrest (Nat.lt_succ_self i) hlt
        fun m hm hlt => by rw [show m = i by omega]
      obtain ⟨child, hchild, hbuilt⟩ := hbuild i next hfirst hgroup
      have hgrow := hgroup.lt
      have hnextle := hgroup.le
      have hedge : child.pfx.head? = some (edge i) := hbuilt.edge fun m hm hlt => by
        rw [← hgroup.same m hm hlt]
        exact hdrop m (by omega) (by omega)
      rw [changes_group hgroup (hnew hlt)] at hcount
      have hasc : Ascending (children ++ [(edge i, child)]) := by
        refine List.pairwise_append.2 ⟨h.loaded.1.ascending, List.pairwise_singleton _ _, ?_⟩
        intro p hp q hq
        rw [List.mem_singleton.1 hq]
        exact hsmall p hp hlt
      have hfew := length_le_of_ascending hasc
      rw [List.length_append, List.length_singleton] at hfew
      obtain ⟨content', hadd, hloaded, hsame⟩ := h.loaded.add_child_sorted_unchecked child
        (fun p hp => hsmall p hp hlt) (by omega)
      have hpart : Partway key val first next node_depth content' (children ++ [(edge i, child)]) := {
        loaded := hloaded
        edges := fun p hp => by
          cases List.mem_append.1 hp with
          | inl hold => exact h.edges p hold
          | inr hlast => rw [List.mem_singleton.1 hlast]; exact hedge
        wf := fun p hp => by
          cases List.mem_append.1 hp with
          | inl hold => exact h.wf p hold
          | inr hlast => rw [List.mem_singleton.1 hlast]; exact hbuilt.wf
        canonical := fun p hp => by
          cases List.mem_append.1 hp with
          | inl hold => exact h.canonical p hold
          | inr hlast => rw [List.mem_singleton.1 hlast]; exact hbuilt.canonical
        entries := by
          rw [childEntries_append, h.entries, run_append hfirst (by omega : i ≤ next), childEntries_cons,
            childEntries_nil, List.append_nil, hbuilt.entries] }
      have hlarger : next < stop → edge i < edge next := fun hmore =>
        lt_of_le_of_ne (hmono i next hfirst (by omega) hmore) (Ne.symm (hgroup.ends hmore))
      have hnew' : next < stop → some (edge i) ≠ some (edge next) := fun hmore heq =>
        hgroup.ends hmore (Option.some.inj heq).symm
      obtain ⟨content'', children', hrun, hpart', hsame', hlen⟩ := ih (stop - next) (by omega)
        (by omega : first ≤ next) hnextle hpart (fun p hp hmore => by
          cases List.mem_append.1 hp with
          | inl hold => exact lt_trans (hsmall p hold hlt) (hlarger hmore)
          | inr hlast => rw [List.mem_singleton.1 hlast]; exact hlarger hmore)
        hnew' (by rw [List.length_append, List.length_singleton]; omega) (by rw [hsame]; exact hroom) rfl
      refine ⟨content'', children', ?_, hpart', hsame'.trans hsame, hlen⟩
      rw [dif_pos hlt, hk, ok_bind, hbyte, ok_bind, hnext, ok_bind, hchild, ok_bind]
      unfold DefaultNode.add_child_sorted_unchecked
      dsimp only [DefaultNode.content_mk, DefaultNode.pfx_mk, DefaultNode.value_mk]
      rw [hadd, ok_bind, pure_eq_ok, ok_bind, dif_pos hgrow]
      exact hrun
    · obtain rfl : i = stop := by omega
      refine ⟨content, children, ?_, h, rfl, ?_⟩
      · rw [dif_neg hlt]
        rfl
      · rw [Nat.sub_self] at hcount
        exact hcount

omit [Features] in
/-- A new edge is a change. -/
theorem changes_pos {i : Nat} (hlt : i < stop) {previous : Option UInt8} (hnew : previous ≠ some (edge i)) :
    0 < changes edge (stop - i) i previous := by
  rw [show stop - i = stop - (i + 1) + 1 by omega, changes, if_neg hnew]
  omega

omit [Features] in
/-- A new node is empty, and wide enough for its children. -/
theorem new_bulk_inner_eq (count : Nat) (pfx : Bytes) :
    ∃ content : Content (DefaultNode V), new_bulk_inner count pfx = .mk pfx none content ∧
      content.Loaded [] ∧ (count ≤ content.capacity ∨ content.capacity = 256) ∧
      ∀ content' : Content (DefaultNode V), content'.capacity = content.capacity →
        1 ≤ count → count ≤ 256 → content'.Fits count := by
  unfold new_bulk_inner
  split
  · refine ⟨.Node4 .new, rfl, ⟨SortedKeyedMapping.Repr.new, trivial⟩, Or.inl ‹_›, fun content' hsame _ _ => ?_⟩
    exact (Content.fits_of_capacity_eq hsame).2 ‹_›
  · split
    · refine ⟨.Node16 .new, rfl, ⟨SortedKeyedMapping.Repr.new, trivial⟩, Or.inl ‹_›, fun content' hsame _ _ => ?_⟩
      exact (Content.fits_of_capacity_eq hsame).2 ⟨by omega, ‹_›⟩
    · split
      · refine ⟨.Node48 .new, rfl, ⟨IndexedMapping.Repr.new (by omega), IndexedMapping.Dense.new⟩, Or.inl ‹_›,
          fun content' hsame _ _ => ?_⟩
        exact (Content.fits_of_capacity_eq hsame).2 ⟨by omega, ‹_›⟩
      · refine ⟨.Node256 .new, rfl, ⟨DirectMapping.Repr.new, trivial⟩, Or.inr rfl, fun content' hsame _ hle => ?_⟩
        exact (Content.fits_of_capacity_eq hsame).2 ⟨by omega, hle⟩

/-- A leaf holds one entry. -/
theorem entries_leaf (pfx : Bytes) (value : V) : entries (DefaultNode.new_leaf pfx value) = [(pfx, value)] := by
  rw [entries_eq_append]
  rfl

/-- A run of one entry makes a leaf. -/
theorem built_leaf {start depth : Nat} :
    Built key val start (start + 1) depth (.new_leaf ((key start).drop depth) (val start)) where
  wf := wf_leaf _ _
  canonical := .leaf (putClosed_canonical.leaf _ _)
  entries := by rw [entries_leaf, run_one]

omit [Features] in
/-- Keys that share a prefix are listed under it. -/
theorem run_under {depth : Nat} {c : Bytes} (h : ∀ i, first ≤ i → i < stop →
    (key i).drop depth = c ++ (key i).drop (depth + c.length)) :
    run key val depth first stop = (run key val (depth + c.length) first stop).map fun e => (c ++ e.1, e.2) := by
  unfold run
  rw [List.map_map]
  refine List.map_congr_left fun i hi => ?_
  have hrange := List.mem_range'_1.1 hi
  simp only [Function.comp_apply]
  rw [h i hrange.1 (by omega)]

/-- A node whose children were all loaded. -/
theorem built_inner {start depth : Nat} {c : Bytes} {content : Content (DefaultNode V)}
    {children : List (UInt8 × DefaultNode V)} (hfirst : start ≤ first) (hstop : first ≤ stop)
    (h : Partway key val first stop (depth + c.length) content children)
    (hfits : content.Fits children.length) (hne : children ≠ [])
    (hbranches : value = none → 2 ≤ children.length)
    (hvalue : run key val depth start first = (value.map fun v => (c, v)).toList)
    (hunder : ∀ i, first ≤ i → i < stop → (key i).drop depth = c ++ (key i).drop (depth + c.length)) :
    Built key val start stop depth (.mk c value content) := by
  have hiter : (DefaultNode.mk c value content).iter = children := h.loaded.1.iter_eq
  refine ⟨wf_mk ⟨h.loaded.1, h.edges, h.wf⟩ fun hnil => absurd hnil hne, ?_, ?_⟩
  · refine .mk h.loaded.1 ⟨?_, ?_, ?_⟩ h.canonical
    · unfold LayoutFits
      rw [hiter]
      exact hfits
    · intro hnone
      rw [hiter]
      exact hbranches hnone
    · intro hnil
      exact absurd (hiter.symm.trans hnil) hne
  · have hentries := entries_eq_append (DefaultNode.mk c value content)
    rw [show Node.iter (DefaultNode.mk c value content) = children from hiter, h.entries] at hentries
    rw [run_append hfirst hstop, hvalue, run_under hunder]
    exact hentries

/-- What the keys of a run share: the place where the first and the last one part. -/
structure Parting (key : Nat → Bytes) (base c : Bytes) (start first stop : Nat) (edge : Nat → UInt8) : Prop where
  starts : first = start ∨ (first = start + 1 ∧ key start = base ++ c)
  goes_on : ∀ i, first ≤ i → i < stop → ∃ rest, key i = base ++ c ++ edge i :: rest
  parts : first = start → edge start ≠ edge (stop - 1)

omit [Features] in
/-- The first and the last key of a run part where all of its keys do. -/
theorem parting {start : Nat} (hserves : Serves items key val st start stop)
    (htwo : start + 1 < stop) {base c s' t' : Bytes}
    (hstart : key start = base ++ c ++ s') (hlast : key (stop - 1) = base ++ c ++ t')
    (hne : ∀ a ∈ s'.head?, ∀ b ∈ t'.head?, a ≠ b) :
    Parting key base c start (if s' = [] then start + 1 else start) stop
      fun i => ((key i)[(base ++ c).length]?).getD 0 := by
  have hshare : ∀ i, start ≤ i → i < stop → base ++ c <+: key i := fun i hi hlt =>
    prefix_of_le_of_le (s := key start) (u := key (stop - 1)) ⟨s', hstart.symm⟩ ⟨t', hlast.symm⟩
      (hserves.le (Nat.le_refl _) hi hlt) (hserves.le hi (by omega) (by omega))
  have hedge : ∀ i, base ++ c <+: key i → base ++ c ≠ key i →
      ∃ rest, key i = base ++ c ++ ((key i)[(base ++ c).length]?).getD 0 :: rest := by
    rintro i ⟨t, ht⟩ hne
    cases t with
    | nil => exact absurd (by rw [← ht, List.append_nil]) hne
    | cons b t =>
      refine ⟨t, ?_⟩
      rw [← ht]
      simp
  have hon : ∀ i, (if s' = [] then start + 1 else start) ≤ i → i < stop →
      ∃ rest, key i = base ++ c ++ ((key i)[(base ++ c).length]?).getD 0 :: rest := by
    intro i hi hlt
    refine hedge i (hshare i (by split at hi <;> omega) hlt) fun heq => ?_
    by_cases hnil : s' = []
    · rw [if_pos hnil] at hi
      rw [hnil, List.append_nil] at hstart
      have hless := hserves.ascending start i (Nat.le_refl _) (by omega) hlt
      rw [hstart, ← heq] at hless
      exact lt_irrefl _ hless
    · rw [if_neg hnil] at hi
      have hless := lt_append_of_ne_nil (base ++ c) hnil
      rw [← hstart, heq] at hless
      exact absurd (hserves.le (Nat.le_refl _) hi hlt) (not_le.2 hless)
  refine ⟨?_, hon, fun hfirst heq => ?_⟩
  · split
    · rename_i hnil
      exact Or.inr ⟨rfl, by rw [hstart, hnil, List.append_nil]⟩
    · exact Or.inl rfl
  · obtain ⟨r₁, h₁⟩ := hon start (by omega) (by omega)
    obtain ⟨r₂, h₂⟩ := hon (stop - 1) (by omega) (by omega)
    have hs := List.append_cancel_left (hstart.symm.trans h₁)
    have ht := List.append_cancel_left (hlast.symm.trans h₂)
    exact hne _ (by rw [hs]; rfl) _ (by rw [ht]; rfl) heq

/-- Building a run of at least two keys, from the loop over its groups. -/
theorem build_groups {start depth : Nat} (hserves : Serves items key val st start stop) {base c : Bytes}
    (hlen : base.length = depth) (h : Parting key base c start first stop edge) (htwo : start + 1 < stop)
    (hbuild : ∀ i next, first ≤ i → Group edge stop i next →
      ∃ child, build i next (depth + c.length) (st i) = .ok (child, st next) ∧
        Built key val i next (depth + c.length) child)
    {value : Option V} (hvalue : run key val depth start first = (value.map fun v => (c, v)).toList)
    (hvalued : value = none → first = start) :
    ∃ count node, child_group_count items first stop (depth + c.length) = .ok count ∧ count ≠ 0 ∧
      build_bulk_children items build stop (depth + c.length) first
        (.mk c value (new_bulk_inner count c : DefaultNode V).content) (st first) = .ok (node, st stop) ∧
      Built key val start stop depth node := by
  have hfirst : start ≤ first ∧ first < stop := by
    rcases h.starts with heq | heq <;> omega
  have hdepth : (base ++ c).length = depth + c.length := by rw [List.length_append, hlen]
  have hdrop : ∀ i, first ≤ i → i < stop → ∃ rest, (key i).drop (depth + c.length) = edge i :: rest := by
    intro i hi hlt
    obtain ⟨rest, hrest⟩ := h.goes_on i hi hlt
    exact ⟨rest, by rw [hrest, ← hdepth, List.drop_left]⟩
  have hedges : Edges items edge first stop (depth + c.length) := by
    intro i hi hlt
    obtain ⟨rest, hrest⟩ := h.goes_on i hi hlt
    refine ⟨key i, hserves.key_at i (by omega) hlt, ?_⟩
    rw [hrest, ← hdepth]
    exact index_append_length _ _ _
  have hmono : ∀ i j, first ≤ i → i ≤ j → j < stop → edge i ≤ edge j := by
    intro i j hi hij hj
    obtain ⟨r₁, h₁⟩ := h.goes_on i hi (by omega)
    obtain ⟨r₂, h₂⟩ := h.goes_on j (by omega) hj
    have hle := hserves.le (by omega : start ≤ i) hij hj
    rw [h₁, h₂] at hle
    by_contra hgt
    exact absurd hle (not_le.2 (append_cons_lt_append_cons (base ++ c) r₂ r₁ (not_le.1 hgt)))
  have hunder : ∀ i, first ≤ i → i < stop →
      (key i).drop depth = c ++ (key i).drop (depth + c.length) := by
    intro i hi hlt
    obtain ⟨rest, hrest⟩ := h.goes_on i hi hlt
    rw [hrest, ← hdepth, List.drop_left, List.append_assoc, ← hlen, List.drop_left]
  have hpos : 0 < changes edge (stop - first) first none := changes_pos hfirst.2 (by simp)
  -- two keys that part make two groups
  have hbranches : value = none → 2 ≤ changes edge (stop - first) first none := by
    intro hnone
    have hstart := hvalued hnone
    obtain ⟨next, _, hgroup⟩ := child_group_end_spec hedges (Nat.lt_succ_self first) hfirst.2
      fun m hm hlt => by rw [show m = first by omega]
    rw [changes_group hgroup (by simp)]
    have hmore : next < stop := by
      by_contra hall
      have hsame := hgroup.same (stop - 1) (by omega) (by have := hgroup.le; omega)
      rw [hstart] at hsame
      exact h.parts hstart hsame.symm
    have hnext : 0 < changes edge (stop - next) next (some (edge first)) :=
      changes_pos hmore fun heq => hgroup.ends hmore (Option.some.inj heq).symm
    omega
  obtain ⟨content, hinner, hloaded, hroom, hfits⟩ :=
    new_bulk_inner_eq (V := V) (changes edge (stop - first) first none) c
  have hnone : Partway key val first first (depth + c.length) content [] :=
    ⟨hloaded, by simp, by simp, by simp, by rw [run_self]; rfl⟩
  have hnew : first < stop → (none : Option UInt8) ≠ some (edge first) := by simp
  obtain ⟨content', children, hrun, hpart, hsame, hcount⟩ := build_bulk_children_spec hedges hmono hdrop
    hbuild c value (Nat.le_refl first) (Nat.le_of_lt hfirst.2) hnone (by simp) hnew
    (by rw [List.length_nil, Nat.zero_add]) hroom
  refine ⟨_, _, ?_, Nat.ne_of_gt hpos, ?_, built_inner hfirst.1 (Nat.le_of_lt hfirst.2) hpart ?_ ?_ ?_
    hvalue hunder⟩
  · unfold child_group_count
    rw [child_group_count_go_eq hedges, Nat.zero_add]
  · rw [hinner]
    exact hrun
  · rw [hcount]
    exact hfits content' hsame hpos (hcount ▸ length_le_of_ascending hpart.loaded.1.ascending)
  · intro hnil
    rw [hnil] at hcount
    rw [← hcount] at hpos
    exact absurd hpos (Nat.lt_irrefl 0)
  · intro hnone
    rw [hcount]
    exact hbranches hnone

/-- The loader builds the canonical node of a run, and takes every value once, in order. -/
theorem build_bulk_node_spec {fuel start stop depth : Nat} (hserves : Serves items key val st start stop)
    (hlt : start < stop) (hfuel : stop - start ≤ fuel) {base : Bytes} (hlen : base.length = depth)
    (hbase : ∀ i, start ≤ i → i < stop → base <+: key i) :
    ∃ node, build_bulk_node_with items fuel start stop depth (st start) = .ok (node, st stop) ∧
      Built key val start stop depth node := by
  induction fuel generalizing start stop depth base with
  | zero => omega
  | succ fuel ih =>
    obtain ⟨s, hs⟩ := hbase start (Nat.le_refl _) hlt
    have hdepth : depth ≤ (key start).length := by
      rw [← hs, ← hlen, List.length_append]
      omega
    have hpfx : (key start).drop depth = s := by rw [← hs, ← hlen, List.drop_left]
    rw [build_bulk_node_with, hserves.key_at start (Nat.le_refl _) hlt, ok_bind]
    by_cases hone : stop - start = 1
    · obtain rfl : stop = start + 1 := by omega
      refine ⟨_, ?_, built_leaf⟩
      rw [if_pos hone, to_partial, slice_from_eq_ok hdepth, ok_bind, hserves.take start (Nat.le_refl _) hlt]
      rfl
    · obtain ⟨t, ht⟩ := hbase (stop - 1) (by omega) (by omega)
      obtain ⟨c, s', t', hs', ht', hlcp, hne⟩ := lcp_split s t
      have hstart : key start = base ++ c ++ s' := by rw [← hs, hs', List.append_assoc]
      have hlast : key (stop - 1) = base ++ c ++ t' := by rw [← ht, ht', List.append_assoc]
      have hpart := parting hserves (by omega) hstart hlast hne
      have hchildren : ∀ i next, (if s' = [] then start + 1 else start) ≤ i →
          Group (fun i => ((key i)[(base ++ c).length]?).getD 0) stop i next →
          ∃ child, build_bulk_node_with items fuel i next (depth + c.length) (st i) = .ok (child, st next) ∧
            Built key val i next (depth + c.length) child := by
        intro i next hi hgroup
        have hgrow := hgroup.lt
        have hle := hgroup.le
        have hfrom : start ≤ i := by split at hi <;> omega
        have hlonger : (base ++ c).length = depth + c.length := by rw [List.length_append, hlen]
        refine ih (hserves.mono hfrom hle) hgrow ?_ hlonger fun m hm hlt => ?_
        · by_contra hlarge
          -- a group of all keys would not part
          obtain rfl : i = start := by omega
          obtain rfl : next = stop := by omega
          have hfirst : (if s' = [] then i + 1 else i) = i := by
            split at hi
            · omega
            · rw [if_neg ‹_›]
          have hsame := hgroup.same (next - 1) (by omega) (by omega)
          rw [hfirst] at hpart
          exact hpart.parts rfl hsame.symm
        · obtain ⟨rest, hrest⟩ := hpart.goes_on m (le_trans hi hm) (by omega)
          exact ⟨_, hrest.symm⟩
      rw [if_neg hone, hserves.key_at (stop - 1) (by omega) (by omega), ok_bind]
      have hshared : common_prefix_len (key start) (key (stop - 1)) depth = .ok c.length := by
        rw [← hs, ← ht, ← hlen, common_prefix_len_eq, hlcp]
      rw [hshared, ok_bind, to_partial, slice_from_eq_ok hdepth, ok_bind, hpfx, partial_before,
        slice_to_eq_ok (by rw [hs', List.length_append]; omega), ok_bind, length_at,
        usize_sub_eq_ok hdepth, ok_bind]
      have htake : s.take c.length = c := by rw [hs', List.take_left]
      have hvalued : (key start).length - depth = c.length ↔ s' = [] := by
        rw [← List.length_drop, hpfx, hs', List.length_append]
        constructor
        · intro heq
          exact List.eq_nil_of_length_eq_zero (by omega)
        · rintro rfl
          rfl
      simp only [hvalued, htake]
      by_cases hnil : s' = []
      · rw [if_pos hnil] at hpart hchildren
        have hown : run key val depth start (start + 1) = ((some (val start)).map fun v => (c, v)).toList := by
          rw [run_one, hpfx, hs', hnil, List.append_nil]
          rfl
        obtain ⟨count, node, hcount, hpos, hrun, hbuilt⟩ := build_groups hserves hlen hpart (by omega)
          hchildren hown (fun hnone => by cases hnone)
        refine ⟨node, ?_, hbuilt⟩
        rw [if_pos hnil, hcount, ok_bind, if_neg hpos, if_pos hnil,
          hserves.take start (Nat.le_refl _) hlt, ok_bind]
        obtain ⟨content, hinner, _⟩ := new_bulk_inner_eq (V := V) count c
        rw [hinner] at hrun ⊢
        exact hrun
      · rw [if_neg hnil] at hpart hchildren
        have hown : run key val depth start start = ((none : Option V).map fun v => (c, v)).toList := by
          rw [run_self]
          rfl
        obtain ⟨count, node, hcount, hpos, hrun, hbuilt⟩ := build_groups hserves hlen hpart (by omega)
          hchildren hown (fun _ => rfl)
        refine ⟨node, ?_, hbuilt⟩
        rw [if_neg hnil, hcount, ok_bind, if_neg hpos, if_neg hnil]
        obtain ⟨content, hinner, _⟩ := new_bulk_inner_eq (V := V) count c
        rw [hinner] at hrun ⊢
        exact hrun

end Build

end rart.tree
