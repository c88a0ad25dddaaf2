import Rart.Iter.Values
import Rart.Iter.Views
import Rart.Probe

open SortedAssoc LexOrder
open rart.partials rart.Trie rart.Node rart.iter

namespace rart

/-- `VisitControl` -/
inductive VisitControl where
  | Continue
  | Stop
deriving DecidableEq, Repr

namespace query

variable {N V A : Type} [Node N V]

/-- The loop of the three `find_prefix_subtree`s. They differ in what they remember of
the nodes on the way. -/
def find_prefix_subtree_loop (remember : A → Bytes → A) (cur_node : N) (seen : A) (prefix_key : Bytes)
    (depth : Nat) : Result (Option (N × A)) := do
  let prefix_common_match ← prefix_length_key (pfx cur_node) prefix_key depth
  if prefix_common_match ≠ (pfx cur_node).length then
    if prefix_common_match = (← length_at prefix_key depth) then return some (cur_node, seen)
    else return none
  else if (pfx cur_node).length = (← length_at prefix_key depth) then return some (cur_node, seen)
  else
    let k ← byte_at prefix_key (depth + (pfx cur_node).length)
    match _hchild : seek_child cur_node k with
    | none => return none
    | some child =>
      find_prefix_subtree_loop remember child (remember seen (pfx child)) prefix_key
        (depth + (pfx cur_node).length)
termination_by rank cur_node
decreasing_by exact rank_seek _hchild

/-- The subtree, with its key. -/
def find_prefix_subtree (cur_node : N) (prefix_key : Bytes) : Result (Option (N × Bytes)) :=
  find_prefix_subtree_loop (fun cur_key segment => cur_key ++ segment) cur_node (pfx cur_node) prefix_key 0

/-- The subtree alone. -/
def find_prefix_subtree_node (cur_node : N) (prefix_key : Bytes) : Result (Option N) := do
  let found ← find_prefix_subtree_loop (fun _ _ => ()) cur_node () prefix_key 0
  return found.map Prod.fst

/-- `cur_segments.push(segment); cur_len += segment.len()` -/
def push_segment (view : LendingKeyView) (segment : Bytes) : LendingKeyView :=
  if segment ≠ [] then ⟨view.segments ++ [segment], view.len + segment.length⟩ else view

/-- The subtree, with a view of its key. -/
def find_prefix_subtree_view (cur_node : N) (prefix_key : Bytes) : Result (Option (N × LendingKeyView)) :=
  find_prefix_subtree_loop push_segment cur_node ⟨root_segments cur_node, (pfx cur_node).length⟩ prefix_key 0

/-- The entries of the subtree. -/
def prefix_iter_k (root : Option N) (prefix_key : Bytes) : Result (Iter N V) :=
  match root with
  | none => Iter.new (none : Option N)
  | some root => do
    match ← find_prefix_subtree root prefix_key with
    | none => Iter.new (none : Option N)
    | some (subtree_root, subtree_root_key) => Iter.new_with_prefix (some subtree_root) subtree_root_key

/-- The calls that `prefix_for_each_view_k` makes. -/
def prefix_for_each_view_k (root : Option N) (prefix_key : Bytes) : Result (List (LendingKeyView × V)) :=
  match root with
  | none => return []
  | some root => do
    match ← find_prefix_subtree_view root prefix_key with
    | none => return []
    | some (subtree_root, view) =>
      return LendingIterInner.for_each_with_prefix (some subtree_root) view.segments view.len

section Visit

variable {S E : Type}

/-- The loop over the values. The callback's state runs along, and the values that it
was called on are recorded. -/
def visit_values (on_each : S → V → Except E VisitControl × S) :
    List V → S → List V × Except E Unit × S
  | [], s => ([], .ok (), s)
  | value :: values, s =>
    match on_each s value with
    | (.error e, s) => ([value], .error e, s)
    | (.ok .Stop, s) => ([value], .ok (), s)
    | (.ok .Continue, s) =>
      let (visited, result) := visit_values on_each values s
      (value :: visited, result)

/-- The values of the subtree, until the callback stops or fails. -/
def try_prefix_values_for_each_k (on_each : S → V → Except E VisitControl × S) (root : Option N)
    (prefix_key : Bytes) (s : S) : Result (List V × Except E Unit × S) :=
  match root with
  | none => return ([], .ok (), s)
  | some root => do
    match ← find_prefix_subtree_node root prefix_key with
    | none => return ([], .ok (), s)
    | some subtree_root => return visit_values on_each (ValuesIter.new (some subtree_root)).collect s

end Visit

/-- The calls that `prefix_values_for_each_k` makes. -/
def prefix_values_for_each_k (root : Option N) (prefix_key : Bytes) : Result (List V) := do
  let (visited, _) ← try_prefix_values_for_each_k
    (fun (s : Unit) (_ : V) => ((.ok .Continue : Except Empty VisitControl), s)) root prefix_key ()
  return visited

section Specs

/-- The entries whose key starts with a prefix. -/
def starting_with (prefix_key : Bytes) (l : List (Bytes × V)) : List (Bytes × V) :=
  l.filter fun e => decide (prefix_key <+: e.1)

omit [Node N V] in
/-- A shared base is left out of the comparison. -/
theorem starting_with_under (base key : Bytes) (l : List (Bytes × V)) :
    starting_with (base ++ key) (under base l) = under base (starting_with key l) := by
  unfold starting_with under
  rw [List.filter_map]
  congr 1
  apply List.filter_congr
  intro e _
  simp only [Function.comp, List.prefix_append_right_inj]

/-- The keys below a node start with its own. -/
theorem key_of_entriesFrom {base : Bytes} {n : N} {e : Bytes × V} (he : e ∈ entriesFrom base n) :
    base <+: e.1 := by
  cases List.mem_append.1 he with
  | inl hown =>
    rw [Option.mem_toList, Option.map_eq_some_iff] at hown
    obtain ⟨v, _, rfl⟩ := hown
    exact List.prefix_refl _
  | inr hbelow =>
    obtain ⟨f, _, rfl⟩ := List.mem_map.1 hbelow
    exact List.prefix_append _ _

/-- Below a node whose own key starts with the prefix, every key does. -/
theorem starting_with_self {base key : Bytes} (h : key <+: base) (n : N) :
    starting_with key (entriesFrom base n) = entriesFrom base n := by
  unfold starting_with
  rw [List.filter_eq_self]
  exact fun e he => decide_eq_true (h.trans (key_of_entriesFrom he))

/-- Below a node that the prefix leads through, only one child holds its keys. -/
theorem starting_with_child {n : N} (hwf : Wf n) (base : Bytes) (k : UInt8) (rest : Bytes) :
    starting_with (base ++ k :: rest) (entriesFrom base n) =
      ((Node.iter n).lookup k).elim [] fun c =>
        starting_with (base ++ k :: rest) (entriesFrom (base ++ pfx c) c) := by
  have hown : (((value n).map fun v => (base, v)).toList.filter fun e =>
      decide (base ++ k :: rest <+: e.1)) = [] := by
    rw [List.filter_eq_nil_iff]
    intro e he hpass
    rw [Option.mem_toList, Option.map_eq_some_iff] at he
    obtain ⟨v, _, rfl⟩ := he
    have hlen := (of_decide_eq_true hpass).length_le
    simp only [List.length_append, List.length_cons] at hlen
    omega
  have hbelow := hwf.filter_childEntries (k := k) (P := fun key => decide (k :: rest <+: key)) (by
    intro e _ hkey
    obtain ⟨t, ht⟩ := of_decide_eq_true hkey
    rw [← ht]
    rfl)
  have hsplit : starting_with (base ++ k :: rest) (entriesFrom base n) =
      starting_with (base ++ k :: rest) (under base (childEntries (Node.iter n))) := by
    unfold starting_with entriesFrom
    rw [List.filter_append, hown, List.nil_append]
  rw [hsplit, starting_with_under]
  unfold starting_with at hbelow ⊢
  rw [hbelow]
  cases (Node.iter n).lookup k with
  | none => rfl
  | some c =>
    have hchild := starting_with_under base (k :: rest) (entries c)
    rw [under_entries] at hchild
    exact hchild.symm

/-- What the descent finds: nothing, where no key starts with the prefix, or the node
that holds all of those keys, with what `seen` says of its own key. -/
def FindsSubtree (Seen : A → Bytes → Prop) (l : List (Bytes × V)) (prefix_key : Bytes) :
    Option (N × A) → Prop
  | none => starting_with prefix_key l = []
  | some (subtree_root, seen) =>
    ∃ base, Wf subtree_root ∧ Seen seen base ∧ starting_with prefix_key l = entriesFrom base subtree_root

/-- The three searches at once, over what they remember of the key. -/
theorem find_prefix_subtree_loop_spec (remember : A → Bytes → A) (Seen : A → Bytes → Prop)
    (hremember : ∀ seen base segment, Seen seen base → Seen (remember seen segment) (base ++ segment))
    {cur_node : N} (hwf : Wf cur_node) {prefix_key : Bytes} {depth : Nat} (hdepth : depth ≤ prefix_key.length)
    (seen : A) (hseen : Seen seen (prefix_key.take depth ++ pfx cur_node)) :
    ∃ found, find_prefix_subtree_loop remember cur_node seen prefix_key depth = .ok found ∧
      FindsSubtree Seen (entriesFrom (prefix_key.take depth ++ pfx cur_node) cur_node) prefix_key found := by
  induction hn : rank cur_node using Nat.strongRecOn generalizing cur_node depth seen with
  | ind n ih =>
    subst hn
    have hkey : prefix_key.take depth ++ prefix_key.drop depth = prefix_key := List.take_append_drop _ _
    rw [find_prefix_subtree_loop, prefix_length_key_eq_ok hdepth, ok_bind, length_at,
      usize_sub_eq_ok hdepth]
    cases probe.meets (pfx cur_node) hdepth with
    | diverges hne hpfx =>
      rw [if_pos hne, ok_bind]
      by_cases hwhole : lcp (pfx cur_node) (prefix_key.drop depth) = prefix_key.length - depth
      · -- the prefix ends within the node's
        rw [if_pos hwhole]
        refine ⟨_, rfl, _, hwf, hseen, starting_with_self ?_ _⟩
        rw [lcp_comm, ← List.length_drop, lcp_eq_length_iff] at hwhole
        conv_lhs => rw [← hkey]
        exact (List.prefix_append_right_inj _).2 hwhole
      · rw [if_neg hwhole]
        refine ⟨none, rfl, ?_⟩
        change starting_with _ _ = []
        unfold starting_with
        rw [List.filter_eq_nil_iff]
        intro e he hpass
        obtain ⟨t, ht⟩ := key_of_entriesFrom he
        have hstarts : prefix_key.take depth ++ prefix_key.drop depth <+:
            prefix_key.take depth ++ (pfx cur_node ++ t) := by
          rw [hkey, ← List.append_assoc, ht]
          exact of_decide_eq_true hpass
        rw [List.prefix_append_right_inj] at hstarts
        rcases List.prefix_or_prefix_of_prefix hstarts (List.prefix_append _ t) with hleft | hright
        · rw [← lcp_eq_length_iff, lcp_comm, List.length_drop] at hleft
          exact hwhole hleft
        · exact hpfx hright
    | ends hpfx hlcp hlen =>
      rw [if_neg (not_not.2 hlcp), ok_bind, if_pos hlen]
      have hall : prefix_key.take depth ++ pfx cur_node = prefix_key := by rw [← hpfx, hkey]
      refine ⟨_, rfl, _, hwf, hseen, starting_with_self ?_ _⟩
      exact hall.symm ▸ List.prefix_refl _
    | goes_on k rest hpfx hlcp hlen hk hrest hdepth' =>
      rw [if_neg (not_not.2 hlcp), ok_bind, if_neg hlen, byte_at, hk, ok_bind]
      have htake : prefix_key.take (depth + (pfx cur_node).length) =
          prefix_key.take depth ++ pfx cur_node := by
        rw [List.take_add, hpfx, List.take_left]
      have hchild := starting_with_child hwf (prefix_key.take depth ++ pfx cur_node) k rest
      rw [List.append_assoc, ← hpfx, hkey] at hchild
      split
      · rename_i hnone
        rw [hwf.seek_eq] at hnone
        refine ⟨none, rfl, ?_⟩
        change starting_with _ _ = []
        rw [hchild, hnone]
        rfl
      · rename_i child hsome
        have hlookup := hsome
        rw [hwf.seek_eq] at hlookup
        have hseen' : Seen (remember seen (pfx child))
            (prefix_key.take (depth + (pfx cur_node).length) ++ pfx child) := by
          rw [htake]
          exact hremember _ _ _ hseen
        obtain ⟨found, hrun, hfinds⟩ :=
          ih _ (rank_seek hsome) (hwf.child (hwf.child_of_seek hsome)) hdepth' _ hseen' rfl
        rw [htake] at hfinds
        rw [hlookup, Option.elim_some] at hchild
        refine ⟨found, hrun, ?_⟩
        cases found with
        | none => exact hchild.trans hfinds
        | some p =>
          obtain ⟨base, hwf', hseen'', hentries⟩ := hfinds
          exact ⟨base, hwf', hseen'', hchild.trans hentries⟩

/-- The three descents, each with what it returns of the key. -/
theorem find_prefix_subtree_spec {root : N} (hwf : Wf root) (prefix_key : Bytes) :
    ∃ found, find_prefix_subtree root prefix_key = .ok found ∧
      FindsSubtree (fun key base => key = base) (entries root) prefix_key found := by
  have hspec := find_prefix_subtree_loop_spec (fun key segment => key ++ segment)
    (fun key base => key = base) (fun key base segment h => by rw [h]) hwf
    (Nat.zero_le prefix_key.length) _ (List.nil_append (pfx root)).symm
  rw [List.take_zero, List.nil_append, entriesFrom_pfx] at hspec
  exact hspec

/-- The search that remembers nothing. -/
theorem find_prefix_subtree_node_spec {root : N} (hwf : Wf root) (prefix_key : Bytes) :
    ∃ found, find_prefix_subtree_node root prefix_key = .ok found ∧
      FindsSubtree (fun (_ : Unit) _ => True) (entries root) prefix_key (found.map fun n => (n, ())) := by
  obtain ⟨found, hfound, hspec⟩ := find_prefix_subtree_loop_spec (fun _ _ => ())
    (fun (_ : Unit) _ => True) (fun _ _ _ _ => trivial) hwf (Nat.zero_le prefix_key.length) () trivial
  rw [List.take_zero, List.nil_append, entriesFrom_pfx] at hspec
  refine ⟨found.map Prod.fst, ?_, ?_⟩
  · unfold find_prefix_subtree_node
    rw [hfound]
    rfl
  · cases found with
    | none => exact hspec
    | some p => exact hspec

/-- A view that stands for a key. -/
def ViewsKey (view : LendingKeyView) (key : Bytes) : Prop :=
  view.segments.flatten = key ∧ view.len = key.length

/-- A view of a longer key. -/
theorem viewsKey_push_segment (view : LendingKeyView) (base segment : Bytes) (h : ViewsKey view base) :
    ViewsKey (push_segment view segment) (base ++ segment) := by
  obtain ⟨hflat, hlen⟩ := h
  unfold push_segment
  split
  · exact ⟨by simp [hflat], by simp [hlen]⟩
  · rename_i hnil
    rw [not_not.1 hnil, List.append_nil]
    exact ⟨hflat, hlen⟩

/-- The search that remembers a view. -/
theorem find_prefix_subtree_view_spec {root : N} (hwf : Wf root) (prefix_key : Bytes) :
    ∃ found, find_prefix_subtree_view root prefix_key = .ok found ∧
      FindsSubtree ViewsKey (entries root) prefix_key found := by
  have hroot : ViewsKey ⟨root_segments root, (pfx root).length⟩ (prefix_key.take 0 ++ pfx root) :=
    ⟨flatten_root_segments root, rfl⟩
  have hspec := find_prefix_subtree_loop_spec _ _ viewsKey_push_segment hwf (Nat.zero_le prefix_key.length) _ hroot
  rw [List.take_zero, List.nil_append, entriesFrom_pfx] at hspec
  exact hspec

end Specs

section Results

variable {root : Option N} (hwf : ∀ r, root = some r → Wf r) (prefix_key : Bytes)
include hwf

/-- `prefix_iter_k` hands out the entries whose key starts with the prefix. -/
theorem prefix_iter_k_spec :
    ∃ it : Iter N V, prefix_iter_k root prefix_key = .ok it ∧
      it.collect = starting_with prefix_key (root.elim [] entries) := by
  have hempty : ∃ it : Iter N V, Iter.new (none : Option N) = .ok it ∧ it.collect = [] :=
    ⟨.empty, rfl, Iter.collect_done none [] none⟩
  cases root with
  | none => exact hempty
  | some root =>
    obtain ⟨found, hfound, hspec⟩ := find_prefix_subtree_spec (hwf root rfl) prefix_key
    unfold prefix_iter_k
    dsimp only
    rw [hfound, ok_bind, Option.elim_some]
    cases found with
    | none =>
      rw [show starting_with prefix_key (entries root) = [] from hspec]
      exact hempty
    | some p =>
      obtain ⟨subtree_root, key⟩ := p
      obtain ⟨base, hwf', rfl, hentries⟩ := hspec
      rw [hentries]
      exact Iter.new_with_prefix_spec hwf' key

/-- `prefix_for_each_view_k` shows the keys of the same entries. -/
theorem prefix_for_each_view_k_spec :
    ∃ calls : List (LendingKeyView × V), prefix_for_each_view_k root prefix_key = .ok calls ∧
      calls.map viewed = (starting_with prefix_key (root.elim [] entries)).map shown := by
  cases root with
  | none => exact ⟨[], rfl, rfl⟩
  | some root =>
    obtain ⟨found, hfound, hspec⟩ := find_prefix_subtree_view_spec (hwf root rfl) prefix_key
    unfold prefix_for_each_view_k
    dsimp only
    rw [hfound, ok_bind, Option.elim_some]
    cases found with
    | none =>
      rw [show starting_with prefix_key (entries root) = [] from hspec]
      exact ⟨[], rfl, rfl⟩
    | some p =>
      obtain ⟨subtree_root, view⟩ := p
      obtain ⟨base, hwf', ⟨hflat, hlen⟩, hentries⟩ := hspec
      refine ⟨_, rfl, ?_⟩
      rw [hentries, hlen, ← hflat]
      exact for_each_with_prefix_viewed hwf' view.segments

/-- `try_prefix_values_for_each_k` runs its callback over the values of the same
entries. -/
theorem try_prefix_values_for_each_k_spec {S E : Type} (on_each : S → V → Except E VisitControl × S)
    (s : S) : try_prefix_values_for_each_k on_each root prefix_key s =
      .ok (visit_values on_each ((starting_with prefix_key (root.elim [] entries)).map Prod.snd) s) := by
  cases root with
  | none => rfl
  | some root =>
    obtain ⟨found, hfound, hspec⟩ := find_prefix_subtree_node_spec (hwf root rfl) prefix_key
    unfold try_prefix_values_for_each_k
    dsimp only
    rw [hfound, ok_bind, Option.elim_some]
    cases found with
    | none =>
      rw [show starting_with prefix_key (entries root) = [] from hspec]
      rfl
    | some subtree_root =>
      obtain ⟨base, hwf', _, hentries⟩ := hspec
      rw [hentries, map_snd_entriesFrom, ← ValuesIter.collect_new hwf']
      rfl

end Results

section Visits

variable {S E : Type} (on_each : S → V → Except E VisitControl × S)

/-- The callback's state after it was called on some values. -/
def state_after (values : List V) (s : S) : S := values.foldl (fun s value => (on_each s value).2) s

/-- The callback answers `Continue` on all of some values. -/
def continues (values : List V) (s : S) : Prop :=
  ∀ before value after, values = before ++ value :: after →
    (on_each (state_after on_each before s) value).1 = .ok .Continue

/-- A visit of some values that stops where the callback says so. -/
inductive StopsAt (values : List V) (s : S) : List V × Except E Unit × S → Prop where
  | finished (h : continues on_each values s) :
      StopsAt values s (values, .ok (), state_after on_each values s)
  | stopped (before after : List V) (value : V) (hvalues : values = before ++ value :: after)
      (h : continues on_each before s)
      (hstop : (on_each (state_after on_each before s) value).1 = .ok .Stop) :
      StopsAt values s (before ++ [value], .ok (), state_after on_each (before ++ [value]) s)
  | failed (before after : List V) (value : V) (e : E) (hvalues : values = before ++ value :: after)
      (h : continues on_each before s)
      (hfail : (on_each (state_after on_each before s) value).1 = .error e) :
      StopsAt values s (before ++ [value], .error e, state_after on_each (before ++ [value]) s)

/-- No values, no stop. -/
theorem continues_nil (s : S) : continues on_each [] s := by
  intro before value after h
  cases before <;> cases h

variable {on_each} in
/-- A callback that goes on after the first value. -/
theorem continues_cons {value : V} {values : List V} {s : S}
    (hfirst : (on_each s value).1 = .ok .Continue) (h : continues on_each values (on_each s value).2) :
    continues on_each (value :: values) s := by
  intro before v after hvalues
  cases before with
  | nil =>
    cases hvalues
    exact hfirst
  | cons w before =>
    cases hvalues
    exact h before v after rfl

/-- The loop over the values stops where the callback says so. -/
theorem visit_values_stops (values : List V) (s : S) :
    StopsAt on_each values s (visit_values on_each values s) := by
  induction values generalizing s with
  | nil => exact .finished (continues_nil on_each s)
  | cons value values ih =>
    have hafter : ∀ l, state_after on_each (value :: l) s = state_after on_each l (on_each s value).2 :=
      fun _ => rfl
    rw [visit_values]
    cases hcall : on_each s value with
    | mk answer s' =>
      rw [hcall] at hafter
      have hanswer := congrArg Prod.fst hcall
      have hstate := congrArg Prod.snd hcall
      dsimp only at hanswer hstate hafter
      cases answer with
      | error e =>
        have hstops : StopsAt on_each (value :: values) s
            ([value], .error e, state_after on_each [value] s) :=
          .failed [] values value e rfl (continues_nil on_each s) hanswer
        rwa [hafter] at hstops
      | ok control =>
        cases control with
        | Stop =>
          have hstops : StopsAt on_each (value :: values) s
              ([value], .ok (), state_after on_each [value] s) :=
            .stopped [] values value rfl (continues_nil on_each s) hanswer
          rwa [hafter] at hstops
        | Continue =>
          have hcons : ∀ {l : List V}, continues on_each l s' → continues on_each (value :: l) s :=
            fun h => continues_cons hanswer (by rwa [hstate])
          have hrest := ih s'
          dsimp only
          generalize visit_values on_each values s' = result at hrest ⊢
          cases hrest with
          | finished h =>
            rw [← hafter]
            exact .finished (hcons h)
          | stopped before after v hvalues h hstop =>
            rw [← hafter] at hstop ⊢
            exact .stopped (value :: before) after v (by rw [hvalues]; rfl) (hcons h) hstop
          | failed before after v e hvalues h hfail =>
            rw [← hafter] at hfail ⊢
            exact .failed (value :: before) after v e (by rw [hvalues]; rfl) (hcons h) hfail

end Visits

end query

end rart
