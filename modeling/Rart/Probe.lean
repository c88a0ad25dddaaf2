import Rart.Trie

open LexOrder
open rart.partials rart.Trie rart.Node

namespace rart.probe

variable {N V : Type} [Node N V]

section Get

/-- `AdaptiveRadixTree::get_bytes_iterate` -/
def get_bytes_iterate (cur_node : N) (key : Bytes) (depth : Nat) : Result (Option V) := do
  let prefix_len := (pfx cur_node).length
  let remaining_len ← usize_sub key.length depth
  let prefix_common_match := prefix_length_slice (pfx cur_node) (← slice_from key depth)
  if prefix_common_match ≠ prefix_len then return none
  else if prefix_len = remaining_len then return value cur_node
  else
    let k ← index key (depth + prefix_len)
    match _hchild : seek_child cur_node k with
    | none => return none
    | some child => get_bytes_iterate child key (depth + prefix_len)
termination_by rank cur_node
decreasing_by exact rank_seek _hchild

/-- `get_bytes_iterate`, with the number of rounds of its loop: the nodes it visits. -/
def get_bytes_rounds (cur_node : N) (key : Bytes) (depth : Nat) : Result (Option V × Nat) := do
  let prefix_len := (pfx cur_node).length
  let remaining_len ← usize_sub key.length depth
  let prefix_common_match := prefix_length_slice (pfx cur_node) (← slice_from key depth)
  if prefix_common_match ≠ prefix_len then return (none, 1)
  else if prefix_len = remaining_len then return (value cur_node, 1)
  else
    let k ← index key (depth + prefix_len)
    match _hchild : seek_child cur_node k with
    | none => return (none, 1)
    | some child =>
      let (found, rounds) ← get_bytes_rounds child key (depth + prefix_len)
      return (found, rounds + 1)
termination_by rank cur_node
decreasing_by exact rank_seek _hchild

/-- `VersionedAdaptiveRadixTree::get_iterate` -/
def get_iterate (cur_node : N) (key : Bytes) (depth : Nat) : Result (Option V) := do
  let prefix_common_match ← prefix_length_key (pfx cur_node) key depth
  if prefix_common_match ≠ (pfx cur_node).length then return none
  else if (pfx cur_node).length = (← length_at key depth) then return value cur_node
  else
    let k ← byte_at key (depth + (pfx cur_node).length)
    match _hchild : seek_child cur_node k with
    | none => return none
    | some child => get_iterate child key (depth + (pfx cur_node).length)
termination_by rank cur_node
decreasing_by exact rank_seek _hchild

/-- The nodes that a lookup passes, the one where it stops included. -/
def descent (cur_node : N) (key : Bytes) : List N :=
  match (pfx cur_node).isPrefixOf? key with
  | some (k :: rest) =>
    match _hchild : seek_child cur_node k with
    | some child => cur_node :: descent child (k :: rest)
    | none => [cur_node]
  | _ => [cur_node]
termination_by rank cur_node
decreasing_by exact rank_seek _hchild

/-- The node where a lookup stops, with what is left of the key there. -/
def stop (cur_node : N) (key : Bytes) : N × Bytes :=
  match (pfx cur_node).isPrefixOf? key with
  | some (k :: rest) =>
    match _hchild : seek_child cur_node k with
    | some child => stop child (k :: rest)
    | none => (cur_node, key)
  | _ => (cur_node, key)
termination_by rank cur_node
decreasing_by exact rank_seek _hchild

end Get

section Descent

variable {cur_node : N}

/-- A descent ends where no child goes on with the key. -/
theorem descent_stops {key : Bytes}
    (hstop : ∀ k rest, key = pfx cur_node ++ k :: rest → seek_child cur_node k = none) :
    descent cur_node key = [cur_node] := by
  rw [descent]
  split
  · rename_i k rest hstrip
    have hnone := hstop k rest (List.isPrefixOf?_eq_some_iff_append_eq.1 hstrip).symm
    split
    · rename_i child hchild
      rw [hnone] at hchild
      cases hchild
    · rfl
  · rfl

/-- A descent goes on with the child behind the next byte. -/
theorem descent_goes_on {k : UInt8} {child : N} (hchild : seek_child cur_node k = some child)
    (rest : Bytes) :
    descent cur_node (pfx cur_node ++ k :: rest) = cur_node :: descent child (k :: rest) := by
  have hstrip : (pfx cur_node).isPrefixOf? (pfx cur_node ++ k :: rest) = some (k :: rest) :=
    List.isPrefixOf?_eq_some_iff_append_eq.2 rfl
  rw [descent, hstrip]
  simp only
  split
  · rename_i child' hchild'
    rw [hchild] at hchild'
    cases hchild'
    rfl
  · rename_i hnone
    rw [hchild] at hnone
    cases hnone

/-- One or the other. -/
theorem descent_cases (cur_node : N) (key : Bytes) :
    descent cur_node key = [cur_node] ∨
      ∃ k rest child, key = pfx cur_node ++ k :: rest ∧ seek_child cur_node k = some child ∧
        descent cur_node key = cur_node :: descent child (k :: rest) := by
  by_cases hon : ∃ k rest child, key = pfx cur_node ++ k :: rest ∧ seek_child cur_node k = some child
  · obtain ⟨k, rest, child, rfl, hseek⟩ := hon
    exact Or.inr ⟨k, rest, child, rfl, hseek, descent_goes_on hseek rest⟩
  · refine Or.inl (descent_stops fun k rest heq => ?_)
    cases hseek : seek_child cur_node k with
    | none => rfl
    | some child => exact absurd ⟨k, rest, child, heq, hseek⟩ hon

/-- Where the descent ends, with what is left of the key. -/
theorem stop_stops {key : Bytes}
    (hstop : ∀ k rest, key = pfx cur_node ++ k :: rest → seek_child cur_node k = none) :
    stop cur_node key = (cur_node, key) := by
  rw [stop]
  split
  · rename_i k rest hstrip
    have hnone := hstop k rest (List.isPrefixOf?_eq_some_iff_append_eq.1 hstrip).symm
    split
    · rename_i child hchild
      rw [hnone] at hchild
      cases hchild
    · rfl
  · rfl

/-- As for `descent_goes_on`. -/
theorem stop_goes_on {k : UInt8} {child : N} (hchild : seek_child cur_node k = some child) (rest : Bytes) :
    stop cur_node (pfx cur_node ++ k :: rest) = stop child (k :: rest) := by
  have hstrip : (pfx cur_node).isPrefixOf? (pfx cur_node ++ k :: rest) = some (k :: rest) :=
    List.isPrefixOf?_eq_some_iff_append_eq.2 rfl
  rw [stop, hstrip]
  simp only
  split
  · rename_i child' hchild'
    rw [hchild] at hchild'
    cases hchild'
    rfl
  · rename_i hnone
    rw [hchild] at hnone
    cases hnone

/-- A descent starts at its node. -/
theorem head?_descent (cur_node : N) (key : Bytes) : (descent cur_node key).head? = some cur_node := by
  rw [descent]
  split
  · split <;> rfl
  · rfl

end Descent

section Specs

variable {cur_node : N} {key : Bytes} {depth : Nat}

/-- One round of every loop: how a node's prefix meets what is left of the key. -/
inductive Meets (p key : Bytes) (depth : Nat) : Prop where
  | diverges (hne : lcp p (key.drop depth) ≠ p.length) (hpfx : ¬ p <+: key.drop depth)
  | ends (hpfx : key.drop depth = p) (hlcp : lcp p (key.drop depth) = p.length)
      (hlen : p.length = key.length - depth)
  | goes_on (k : UInt8) (rest : Bytes) (hpfx : key.drop depth = p ++ k :: rest)
      (hlcp : lcp p (key.drop depth) = p.length) (hlen : p.length ≠ key.length - depth)
      (hk : index key (depth + p.length) = .ok k) (hrest : key.drop (depth + p.length) = k :: rest)
      (hdepth : depth + p.length ≤ key.length)

/-- What is left of the key ends with the prefix, goes on behind it, or does not start with it. -/
theorem meets (p : Bytes) (hdepth : depth ≤ key.length) : Meets p key depth := by
  by_cases hpfx : p <+: key.drop depth
  · obtain ⟨s, hs⟩ := hpfx
    have hlcp := lcp_eq_length_iff.2 ⟨s, hs⟩
    have hlen := congrArg List.length hs
    simp only [List.length_append, List.length_drop] at hlen
    cases s with
    | nil =>
      rw [List.append_nil] at hs
      exact .ends hs.symm hlcp (by simpa using hlen)
    | cons k rest =>
      simp only [List.length_cons] at hlen
      have hrest : key.drop (depth + p.length) = k :: rest := by
        rw [← List.drop_drop, ← hs, List.drop_left]
      refine .goes_on k rest hs.symm hlcp (by omega) (index_eq_ok ?_) hrest (by omega)
      rw [← List.head?_drop, hrest]
      rfl
  · exact .diverges (fun heq => hpfx (lcp_eq_length_iff.1 heq)) hpfx

/-- A key that ends with the prefix is that of the node. -/
theorem find_ends (h : key.drop depth = pfx cur_node) : find cur_node (key.drop depth) = value cur_node := by
  rw [h, find_pfx]

/-- A key that goes on is searched below. -/
theorem find_goes_on (hwf : Wf cur_node) {k : UInt8} {rest : Bytes}
    (h : key.drop depth = pfx cur_node ++ k :: rest) :
    find cur_node (key.drop depth) = (seek_child cur_node k).bind fun c => find c (k :: rest) := by
  rw [h, find_append, hwf.seek_eq]
  rfl

/-- The lookup by bytes finds what is stored, without a panic. -/
theorem get_bytes_iterate_eq (hwf : Wf cur_node) (hdepth : depth ≤ key.length) :
    get_bytes_iterate cur_node key depth = .ok (find cur_node (key.drop depth)) := by
  induction hn : rank cur_node using Nat.strongRecOn generalizing cur_node depth with
  | ind n ih =>
    subst hn
    rw [get_bytes_iterate, usize_sub_eq_ok hdepth, ok_bind, slice_from_eq_ok hdepth, ok_bind,
      prefix_length_slice_eq_lcp]
    cases meets (pfx cur_node) hdepth with
    | diverges hne hpfx =>
      rw [if_pos hne, find_eq_none_of_not_pfx hpfx]
      rfl
    | ends hpfx hlcp hlen =>
      rw [if_neg (not_not.2 hlcp), if_pos hlen, find_ends hpfx]
      rfl
    | goes_on k rest hpfx hlcp hlen hk hrest hdepth' =>
      rw [if_neg (not_not.2 hlcp), if_neg hlen, hk, ok_bind, find_goes_on hwf hpfx]
      split
      · rename_i hnone
        rw [hnone]
        rfl
      · rename_i child hsome
        rw [ih _ (rank_seek hsome) (hwf.child (hwf.child_of_seek hsome)) hdepth' rfl, hsome, hrest]
        rfl

/-- A lookup visits the nodes of the descent. -/
theorem get_bytes_rounds_eq (hwf : Wf cur_node) (hdepth : depth ≤ key.length) :
    get_bytes_rounds cur_node key depth =
      .ok (find cur_node (key.drop depth), (descent cur_node (key.drop depth)).length) := by
  induction hn : rank cur_node using Nat.strongRecOn generalizing cur_node depth with
  | ind n ih =>
    subst hn
    rw [get_bytes_rounds, usize_sub_eq_ok hdepth, ok_bind, slice_from_eq_ok hdepth, ok_bind,
      prefix_length_slice_eq_lcp]
    cases meets (pfx cur_node) hdepth with
    | diverges hne hpfx =>
      have hstops : descent cur_node (key.drop depth) = [cur_node] :=
        descent_stops fun k rest heq => absurd ⟨k :: rest, heq.symm⟩ hpfx
      rw [if_pos hne, find_eq_none_of_not_pfx hpfx, hstops]
      rfl
    | ends hpfx hlcp hlen =>
      have hstops : descent cur_node (key.drop depth) = [cur_node] := descent_stops fun k rest heq => by
        have hcut := congrArg List.length (hpfx.symm.trans heq)
        simp at hcut
      rw [if_neg (not_not.2 hlcp), if_pos hlen, find_ends hpfx, hstops]
      rfl
    | goes_on k rest hpfx hlcp hlen hk hrest hdepth' =>
      rw [if_neg (not_not.2 hlcp), if_neg hlen, hk, ok_bind, find_goes_on hwf hpfx]
      split
      · rename_i hnone
        have hstops : descent cur_node (key.drop depth) = [cur_node] := descent_stops fun k' rest' heq => by
          have hsame := List.append_cancel_left (hpfx.symm.trans heq)
          rw [← (List.cons.inj hsame).1]
          exact hnone
        rw [hnone, hstops]
        rfl
      · rename_i child hsome
        rw [ih _ (rank_seek hsome) (hwf.child (hwf.child_of_seek hsome)) hdepth' rfl, hsome, hrest, hpfx,
          descent_goes_on hsome]
        rfl

/-- Below an edge every node takes at least one byte of the key. -/
theorem descent_length_le_of_edge (hwf : Wf cur_node) {k : UInt8} {rest : Bytes}
    (hedge : (pfx cur_node).head? = some k) :
    (descent cur_node (k :: rest)).length ≤ rest.length + 1 := by
  induction hn : rank cur_node using Nat.strongRecOn generalizing cur_node k rest with
  | ind n ih =>
    subst hn
    obtain hstops | ⟨k', rest', child, hkey, hseek, hdescent⟩ := descent_cases cur_node (k :: rest)
    · rw [hstops]
      simp
    · obtain ⟨p, hp⟩ := List.head?_eq_some_iff.1 hedge
      have hmem := hwf.child_of_seek hseek
      have hchild : (descent child (k' :: rest')).length ≤ rest'.length + 1 :=
        ih (rank child) (rank_seek hseek) (hwf.child hmem) (hwf.edges hmem) rfl
      have hlen := congrArg List.length hkey
      rw [hp] at hlen
      simp only [List.length_append, List.length_cons] at hlen
      rw [hdescent, List.length_cons]
      omega

/-- A lookup of a key visits at most one node more than the key has bytes. -/
theorem descent_length_le (hwf : Wf cur_node) (key : Bytes) :
    (descent cur_node key).length ≤ key.length + 1 := by
  obtain hstops | ⟨k, rest, child, hkey, hseek, hdescent⟩ := descent_cases cur_node key
  · rw [hstops]
    simp
  · have hmem := hwf.child_of_seek hseek
    have hchild : (descent child (k :: rest)).length ≤ rest.length + 1 :=
      descent_length_le_of_edge (hwf.child hmem) (hwf.edges hmem)
    rw [hdescent, hkey, List.length_cons, List.length_append, List.length_cons]
    omega

/-- The descent of a lookup finds what is below. -/
theorem get_iterate_eq (hwf : Wf cur_node) (hdepth : depth ≤ key.length) :
    get_iterate cur_node key depth = .ok (find cur_node (key.drop depth)) := by
  induction hn : rank cur_node using Nat.strongRecOn generalizing cur_node depth with
  | ind n ih =>
    subst hn
    rw [get_iterate, prefix_length_key_eq_ok hdepth, ok_bind, length_at, usize_sub_eq_ok hdepth]
    cases meets (pfx cur_node) hdepth with
    | diverges hne hpfx =>
      rw [if_pos hne, find_eq_none_of_not_pfx hpfx]
      rfl
    | ends hpfx hlcp hlen =>
      rw [if_neg (not_not.2 hlcp), ok_bind, if_pos hlen, find_ends hpfx]
      rfl
    | goes_on k rest hpfx hlcp hlen hk hrest hdepth' =>
      rw [if_neg (not_not.2 hlcp), ok_bind, if_neg hlen, byte_at, hk, ok_bind, find_goes_on hwf hpfx]
      split
      · rename_i hnone
        rw [hnone]
        rfl
      · rename_i child hsome
        rw [ih _ (rank_seek hsome) (hwf.child (hwf.child_of_seek hsome)) hdepth' rfl, hsome, hrest]
        rfl

end Specs

end rart.probe
