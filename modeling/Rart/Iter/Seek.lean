import Rart.Iter.Frames

open SortedAssoc LexOrder
open rart.partials rart.Trie rart.Node

namespace rart.iter

variable {N V : Type} [Node N V]

/-- `while let Some((k, child)) = iter.next()`, up to a key byte that is not below
the target. -/
def first_from (target_byte : UInt8) :
    List (UInt8 × N) → Option ((UInt8 × N) × List (UInt8 × N))
  | [] => none
  | p :: rest => if p.1 < target_byte then first_from target_byte rest else some (p, rest)

/-- The one frame that both `build_positioned_stack`s put on their stack, if any. -/
def positioned_iter (node : N) (seek_key : Bytes) (depth : Nat) : Result (Option (IterFrameIter N)) := do
  let whole := some (IterFrameIter.Plain (Node.iter node))
  let prefix_common ← prefix_length_key (pfx node) seek_key depth
  if prefix_common ≠ (pfx node).length then
    let seek_remaining ← length_at seek_key depth
    if prefix_common ≥ seek_remaining then return whole
    else
      let node_byte ← byte_at (pfx node) prefix_common
      let seek_byte ← byte_at seek_key (depth + prefix_common)
      if node_byte < seek_byte then return none else return whole
  else if (← length_at seek_key depth) = (pfx node).length then return whole
  else
    let target_byte ← byte_at seek_key (depth + (pfx node).length)
    return (first_from target_byte (Node.iter node)).map fun found => .Leading (some found.1) found.2

/-- How a start seek parts the entries below a node. -/
structure Positioned (node : N) (seek_key : Bytes) (dropped kept : List (UInt8 × N)) : Prop where
  split : Node.iter node = dropped ++ kept
  dropped : ∀ e ∈ childEntries dropped,
    pfx node ++ e.1 < seek_key ∧ lcp (pfx node ++ e.1) seek_key ≤ (pfx node).length
  kept : ∀ e ∈ childEntries kept,
    seek_key ≤ pfx node ++ e.1 ∨ (pfx node).length < lcp (pfx node ++ e.1) seek_key

theorem first_from_spec (target_byte : UInt8) {l : List (UInt8 × N)} (h : Ascending l) :
    ∃ dropped kept, l = dropped ++ kept ∧
      (((first_from target_byte l).map fun found => IterFrameIter.Leading (some found.1) found.2).elim []
        IterFrameIter.remaining = kept) ∧
      (∀ p ∈ dropped, p.1 < target_byte) ∧ ∀ p ∈ kept, target_byte ≤ p.1 := by
  induction l with
  | nil => exact ⟨[], [], rfl, rfl, by simp, by simp⟩
  | cons p rest ih =>
    obtain ⟨hhead, htail⟩ := ascending_cons.1 h
    rw [first_from]
    split
    · rename_i hlt
      obtain ⟨dropped, kept, rfl, hkept, hbelow, habove⟩ := ih htail
      refine ⟨p :: dropped, kept, rfl, hkept, ?_, habove⟩
      intro q hq
      cases List.mem_cons.1 hq with
      | inl heq => rwa [heq]
      | inr hmem => exact hbelow q hmem
    · rename_i hnot
      have hle := not_lt.1 hnot
      refine ⟨[], p :: rest, rfl, rfl, by simp, ?_⟩
      intro q hq
      cases List.mem_cons.1 hq with
      | inl heq => rwa [heq]
      | inr hmem => exact le_of_lt (lt_of_le_of_lt hle (hhead q hmem))

theorem positioned_whole {node : N} {seek_key : Bytes}
    (h : ∀ e ∈ childEntries (Node.iter node), seek_key ≤ pfx node ++ e.1) :
    Positioned node seek_key [] (Node.iter node) :=
  ⟨rfl, by simp, fun e he => Or.inl (h e he)⟩

theorem positioned_iter_spec {node : N} (hwf : Wf node) (seek_key : Bytes) :
    ∃ it dropped, positioned_iter node seek_key 0 = .ok it ∧
      Positioned node seek_key dropped (it.elim [] IterFrameIter.remaining) := by
  obtain ⟨c, p, s, hpfx, hkey, hlcp, hdiff⟩ := lcp_split (pfx node) seek_key
  have hpfxlen := congrArg List.length hpfx
  have hkeylen := congrArg List.length hkey
  simp only [List.length_append] at hpfxlen hkeylen
  unfold positioned_iter
  rw [prefix_length_key_eq_ok (Nat.zero_le _), List.drop_zero, ok_bind, hlcp, length_at,
    usize_sub_eq_ok (Nat.zero_le _)]
  cases p with
  | cons a p =>
    simp only [List.length_cons] at hpfxlen
    rw [if_pos (by omega), ok_bind]
    cases s with
    | nil =>
      simp only [List.length_nil] at hkeylen
      rw [if_pos (by omega)]
      refine ⟨_, [], rfl, positioned_whole fun e he => ?_⟩
      rw [hkey, hpfx, List.append_nil, List.append_assoc]
      exact le_of_lt (lt_append_of_ne_nil c (by simp))
    | cons b s =>
      simp only [List.length_cons] at hkeylen
      have hne := hdiff a rfl b rfl
      have ha : byte_at (pfx node) c.length = .ok a := by rw [hpfx]; exact index_append_length c a p
      have hb : byte_at seek_key (0 + c.length) = .ok b := by
        rw [Nat.zero_add, hkey]
        exact index_append_length c b s
      rw [if_neg (by omega), ha, ok_bind, hb, ok_bind]
      by_cases hlt : a < b
      · rw [if_pos hlt]
        refine ⟨none, Node.iter node, rfl, by simp, fun e he => ?_, by simp⟩
        rw [hkey, hpfx, List.append_assoc, List.cons_append, lcp_append]
        refine ⟨append_cons_lt_append_cons c _ s hlt, ?_⟩
        simp [lcp, hne]
      · rw [if_neg hlt]
        have hgt : b < a := lt_of_le_of_ne (not_lt.1 hlt) (Ne.symm hne)
        refine ⟨_, [], rfl, positioned_whole fun e he => ?_⟩
        rw [hkey, hpfx, List.append_assoc, List.cons_append]
        exact le_of_lt (append_cons_lt_append_cons c s _ hgt)
  | nil =>
    rw [List.append_nil] at hpfx
    simp only [List.length_nil] at hpfxlen
    rw [if_neg (by omega), ok_bind]
    cases s with
    | nil =>
      simp only [List.length_nil] at hkeylen
      rw [if_pos (by omega)]
      refine ⟨_, [], rfl, positioned_whole fun e he => ?_⟩
      rw [hkey, hpfx, List.append_nil]
      exact le_append c e.1
    | cons t s =>
      simp only [List.length_cons] at hkeylen
      have ht : byte_at seek_key (0 + (pfx node).length) = .ok t := by
        rw [Nat.zero_add, hkey, hpfx]
        exact index_append_length c t s
      rw [if_neg (by omega), ht, ok_bind]
      obtain ⟨dropped, kept, hsplit, hkept, hbelow, habove⟩ := first_from_spec t hwf.ascending
      have hseek : seek_key = pfx node ++ t :: s := by rw [hkey, hpfx]
      refine ⟨_, dropped, rfl, ?_, ?_, ?_⟩
      · rw [hkept]
        exact hsplit
      · intro e he
        obtain ⟨q, hq, he⟩ := mem_childEntries.1 he
        obtain ⟨rest, hrest⟩ := hwf.key_of_child (by rw [hsplit]; exact List.mem_append_left _ hq) he
        rw [hrest, hseek, lcp_append]
        refine ⟨append_cons_lt_append_cons _ rest s (hbelow q hq), ?_⟩
        simp [lcp, (hbelow q hq).ne]
      · rw [hkept]
        intro e he
        obtain ⟨q, hq, he⟩ := mem_childEntries.1 he
        obtain ⟨rest, hrest⟩ := hwf.key_of_child (by rw [hsplit]; exact List.mem_append_right _ hq) he
        rw [hrest, hseek, lcp_append]
        cases (habove q hq).lt_or_eq with
        | inl hlt => exact Or.inl (le_of_lt (append_cons_lt_append_cons _ s rest hlt))
        | inr heq =>
          right
          rw [heq, lcp, if_pos rfl]
          omega

end rart.iter
