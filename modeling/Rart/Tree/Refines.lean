import Rart.Tree.Map

open SortedAssoc LexOrder
open rart.node rart.partials rart.utils rart.Trie

namespace rart.tree

variable {V E : Type}

/-- What a non-replacing insertion returns. -/
def triedInsert (value : V) : Option V → Except (V × V) Unit
  | none => .ok ()
  | some current => .error (value, current)

section Operations

variable [Features]

/-- The tree stands for a map. -/
structure Represents (tree : AdaptiveRadixTree V) (m : RefMap V) : Prop where
  wf : ∀ root, tree.root = some root → Wf root
  find : ∀ key, (tree.root.bind fun root => find root key) = m.lookup key
  len : tree.len = m.size

section Slots

variable {m : RefMap V} {len : Nat}

/-- A new tree stands for the empty map. -/
theorem represents_new : Represents (AdaptiveRadixTree.new : AdaptiveRadixTree V) ∅ where
  wf := fun _ h => by cases h
  find := fun _ => rfl
  len := rfl

/-- A tree without nodes stands for nothing else. -/
theorem Represents.map_eq_empty (h : Represents ⟨none, len⟩ m) : m = ∅ := by
  apply Finmap.ext_lookup
  intro key
  rw [← h.find key]
  rfl

/-- The first entry of a tree. -/
theorem Represents.leaf (h : Represents ⟨none, len⟩ m) (key : Bytes) (value : V) :
    Represents ⟨some (.new_leaf key value), 1⟩ (m.setSlot key (some value)) where
  wf := fun root heq => by
    cases heq
    exact wf_leaf key value
  find := fun k => by
    rw [RefMap.lookup_setSlot, ← h.find k, Option.bind_some, find_leaf]
    rfl
  len := by
    have hnone : m.lookup key = none := (h.find key).symm
    have hzero : m.size = 0 := by
      rw [h.map_eq_empty]
      rfl
    rw [RefMap.size_insert_of_none hnone, hzero]

variable {root after : DefaultNode V}

/-- A key is found below the root with the value that the map gives. -/
theorem Represents.find_root (h : Represents ⟨some root, len⟩ m) (key : Bytes) :
    Trie.find root key = m.lookup key := h.find key

/-- One slot of a tree is changed. -/
theorem Represents.updated (h : Represents ⟨some root, len⟩ m) {key : Bytes} {slot : Option V}
    (hwf : Wf after) (hupdated : UpdatedAt root after key slot) {len' : Nat}
    (hlen : len' = (m.setSlot key slot).size) : Represents ⟨some after, len'⟩ (m.setSlot key slot) where
  wf := fun _ heq => by
    cases heq
    exact hwf
  find := fun k => by
    rw [RefMap.lookup_setSlot, ← h.find_root k]
    exact hupdated k
  len := hlen

/-- The last entry of a tree is removed. -/
theorem Represents.emptied (h : Represents ⟨some root, len⟩ m) {key : Bytes} (hbare : Bare after)
    (hupdated : UpdatedAt root after key none) {len' : Nat} (hlen : len' = (m.setSlot key none).size) :
    Represents ⟨none, len'⟩ (m.setSlot key none) where
  wf := fun _ heq => by cases heq
  find := fun k => by
    rw [RefMap.lookup_setSlot, ← h.find_root k, ← hupdated k, find_of_bare hbare]
    rfl
  len := hlen

/-- Setting a slot to what it holds changes nothing. -/
theorem Represents.unchanged {tree : AdaptiveRadixTree V} (h : Represents tree m) {key : Bytes}
    {slot : Option V} (hslot : m.lookup key = slot) : Represents tree (m.setSlot key slot) := by
  rw [RefMap.setSlot_eq_self hslot]
  exact h

/-- The length after a removal. -/
theorem Represents.len_removed {tree : AdaptiveRadixTree V} (h : Represents tree m) {key : Bytes}
    {value : V} (hsome : m.lookup key = some value) :
    usize_sub tree.len 1 = .ok (m.setSlot key none).size := by
  have hsize := RefMap.size_erase_of_some hsome
  have hlen := h.len
  rw [usize_sub_eq_ok (by omega)]
  congr 1
  omega

/-- The count after a removal is the size of the smaller map. -/
theorem Represents.len_without {tree : AdaptiveRadixTree V} (h : Represents tree m) (key : Bytes) :
    AdaptiveRadixTree.len_without tree.len (m.lookup key) = .ok (m.setSlot key none).size := by
  unfold AdaptiveRadixTree.len_without
  cases hfound : m.lookup key with
  | none =>
    rw [RefMap.setSlot_eq_self hfound, ← h.len]
    rfl
  | some value => exact h.len_removed hfound

/-- What changing the slot under a key makes of a tree. -/
inductive Changed (before : AdaptiveRadixTree V) (key : Bytes) :
    Option V → AdaptiveRadixTree V → Prop where
  | first {value : V} (hroot : before.root = none) :
      Changed before key (some value) ⟨some (.new_leaf key value), 1⟩
  | vacant (hroot : before.root = none) : Changed before key none before
  | edited {root after : DefaultNode V} {left : Option V} {len : Nat} (hroot : before.root = some root)
      (hedited : Edited root key left after) (hkept : ¬ Bare after) :
      Changed before key left ⟨some after, len⟩
  /-- The last entry is taken out. -/
  | emptied {root after : DefaultNode V} {len : Nat} (hroot : before.root = some root)
      (hedited : Edited root key none after) (hbare : Bare after) :
      Changed before key none ⟨none, len⟩

/-- A change of one slot of a tree that stands for a map, with the length after it. -/
structure SetsSlot (before : AdaptiveRadixTree V) (m : RefMap V) (key : Bytes) (left : Option V)
    (after : AdaptiveRadixTree V) : Prop where
  changed : Changed before key left after
  len : after.len = (m.setSlot key left).size

/-- A tree whose slot was set stands for the map with that slot set. -/
theorem SetsSlot.represents {before after : AdaptiveRadixTree V} {key : Bytes} {left : Option V}
    (h : SetsSlot before m key left after) (hbefore : Represents before m) :
    Represents after (m.setSlot key left) := by
  obtain ⟨root, len⟩ := before
  cases h.changed with
  | first hroot =>
    cases hroot
    exact hbefore.leaf key _
  | vacant hroot =>
    cases hroot
    exact hbefore.unchanged (hbefore.find key).symm
  | edited hroot hedited hkept =>
    cases hroot
    have hwf := hbefore.wf _ rfl
    exact hbefore.updated ((hedited.wf hwf).resolve_right hkept) (hedited.updated hwf) h.len
  | emptied hroot hedited hbare =>
    cases hroot
    exact hbefore.emptied hbare (hedited.updated (hbefore.wf _ rfl)) h.len

section Setting

variable {self : AdaptiveRadixTree V} {key : Bytes}

/-- The first key makes a leaf. -/
theorem Represents.sets_first (h : Represents ⟨none, len⟩ m) (key : Bytes) (value : V) :
    SetsSlot ⟨none, len⟩ m key (some value) ⟨some (.new_leaf key value), 1⟩ :=
  ⟨.first rfl, (h.leaf key value).len⟩

/-- A tree without nodes has nothing to remove. -/
theorem Represents.sets_vacant (h : Represents ⟨none, len⟩ m) (key : Bytes) :
    SetsSlot ⟨none, len⟩ m key none ⟨none, len⟩ :=
  ⟨.vacant rfl, (h.unchanged (h.find key).symm).len⟩

/-- Leaving an empty slot of the root's tree empty. -/
theorem Represents.sets_same (h : Represents ⟨some root, len⟩ m) (hnone : m.lookup key = none) :
    SetsSlot ⟨some root, len⟩ m key none ⟨some root, len⟩ :=
  ⟨.edited rfl (.same ((h.find_root key).trans hnone)) (not_bare_of_wf (h.wf root rfl)),
    (h.unchanged hnone).len⟩

/-- Leaving a value in a slot of the root's tree. -/
theorem Represents.sets_value (h : Represents ⟨some root, len⟩ m) {value : V} {len' : Nat}
    (hedited : Edited root key (some value) after)
    (hlen : len' = (m.setSlot key (some value)).size) :
    SetsSlot ⟨some root, len⟩ m key (some value) ⟨some after, len'⟩ := by
  refine ⟨.edited rfl hedited fun hbare => ?_, hlen⟩
  cases (hedited.bare (h.wf root rfl) hbare).2

end Setting

end Slots

namespace Represents

open AdaptiveRadixTree

variable {self : AdaptiveRadixTree V} {m : RefMap V}

/-- A lookup in the tree is a lookup in the map. -/
theorem get_bytes_eq (h : Represents self m) (key : Bytes) : self.get_bytes key = .ok (m.lookup key) := by
  obtain ⟨root, len⟩ := self
  cases root with
  | none => rw [← h.find key]; rfl
  | some root =>
    rw [← h.find_root key]
    exact probe.get_bytes_iterate_eq (h.wf root rfl) (Nat.zero_le _)

/-- As for `get_bytes`. -/
theorem get_k_eq (h : Represents self m) (key : Bytes) : self.get_k key = .ok (m.lookup key) :=
  get_bytes_eq h key

/-- A tree is empty when its map is. -/
theorem is_empty_iff (h : Represents self m) : self.is_empty = true ↔ m.size = 0 := by
  unfold is_empty
  rw [h.len, beq_iff_eq]

/-- A write through the reference that `get_mut_k` returns. -/
theorem get_mut_k_spec (h : Represents self m) (key : Bytes) (write : V → V) :
    ∃ after, self.get_mut_k key write = .ok (m.lookup key, after) ∧
      SetsSlot self m key ((m.lookup key).map write) after := by
  obtain ⟨root, len⟩ := self
  cases root with
  | none =>
    have hnone : m.lookup key = none := (h.find key).symm
    rw [hnone]
    exact ⟨_, rfl, h.sets_vacant key⟩
  | some root =>
    have hwf := h.wf root rfl
    obtain ⟨after, hafter, hedited⟩ := get_iterate_mut_edits hwf (Nat.zero_le key.length) write
    rw [List.drop_zero, h.find_root] at hafter hedited
    unfold get_mut_k
    dsimp only
    rw [hafter, ok_bind]
    have hlen : len = m.size := h.len
    cases hfound : m.lookup key with
    | none =>
      rw [hfound] at hedited
      rw [hedited.eq_self hwf ((h.find_root key).trans hfound).symm]
      exact ⟨_, rfl, h.sets_same hfound⟩
    | some current =>
      rw [hfound] at hedited
      exact ⟨_, rfl, h.sets_value hedited (by rw [RefMap.size_insert_of_some hfound, hlen])⟩

/-- The old value is returned and the new one set. -/
theorem insert_k_spec (h : Represents self m) (key : Bytes) (value : V) :
    ∃ after, self.insert_k key value = .ok (m.lookup key, after) ∧
      SetsSlot self m key (some value) after := by
  obtain ⟨root, len⟩ := self
  cases root with
  | none =>
    have hnone : m.lookup key = none := (h.find key).symm
    rw [hnone]
    exact ⟨_, rfl, h.sets_first key value⟩
  | some root =>
    obtain ⟨after, hafter, hput⟩ :=
      insert_recurse_puts (h.wf root rfl) (Nat.zero_le key.length) value true
    rw [List.drop_zero, h.find_root] at hafter hput
    unfold insert_k
    dsimp only
    rw [hafter, ok_bind]
    have hlen : len = m.size := h.len
    cases hfound : m.lookup key with
    | none =>
      rw [hfound] at hput
      refine ⟨⟨some after, len + 1⟩, rfl, h.sets_value (.put hput) ?_⟩
      rw [RefMap.size_insert_of_none hfound, hlen]
    | some current =>
      rw [hfound] at hput
      refine ⟨⟨some after, len⟩, rfl, h.sets_value (.put hput) ?_⟩
      rw [RefMap.size_insert_of_some hfound, hlen]

/-- A value that is there stays. -/
theorem try_insert_k_spec (h : Represents self m) (key : Bytes) (value : V) :
    ∃ after, self.try_insert_k key value = .ok (triedInsert value (m.lookup key), after) ∧
      SetsSlot self m key (some ((m.lookup key).getD value)) after := by
  obtain ⟨root, len⟩ := self
  cases root with
  | none =>
    have hnone : m.lookup key = none := (h.find key).symm
    rw [hnone]
    exact ⟨_, rfl, h.sets_first key value⟩
  | some root =>
    obtain ⟨after, hafter, hput⟩ :=
      insert_recurse_puts (h.wf root rfl) (Nat.zero_le key.length) value false
    rw [List.drop_zero, h.find_root] at hafter hput
    unfold try_insert_k
    dsimp only
    rw [hafter, ok_bind]
    have hlen : len = m.size := h.len
    cases hfound : m.lookup key with
    | none =>
      rw [hfound] at hput
      refine ⟨⟨some after, len + 1⟩, rfl, h.sets_value (.put hput) ?_⟩
      rw [Option.getD_none, RefMap.size_insert_of_none hfound, hlen]
    | some current =>
      rw [hfound] at hput
      refine ⟨⟨some after, len⟩, rfl, h.sets_value (.put hput) ?_⟩
      rw [RefMap.size_insert_of_some hfound, hlen]

/-- The root's own slot. -/
theorem lookup_root {root : DefaultNode V} {len : Nat} (h : Represents ⟨some root, len⟩ m) :
    m.lookup root.pfx = root.value := by
  rw [← h.find_root, DefaultNode.find_value]

/-- Whether a node without its value is bare shows in its number of children. -/
theorem bare_iff_of_wf {node : DefaultNode V} (hwf : Wf node) :
    Bare (DefaultNode.mk node.pfx none node.content) ↔ node.content.num_children = 0 := by
  have hrepr := (children_of_wf hwf).repr
  rw [hrepr.num_children_eq]
  constructor
  · rintro ⟨_, hempty⟩
    exact congrArg List.length (Content.Repr.iter_eq hempty)
  · intro hzero
    rw [List.eq_nil_of_length_eq_zero hzero] at hrepr
    exact ⟨rfl, hrepr⟩

/-- The value is returned and its slot cleared. -/
theorem remove_k_spec (h : Represents self m) (key : Bytes) :
    ∃ after, self.remove_k key = .ok (m.lookup key, after) ∧ SetsSlot self m key none after := by
  obtain ⟨root, len⟩ := self
  cases root with
  | none =>
    have hnone : m.lookup key = none := (h.find key).symm
    rw [hnone]
    exact ⟨_, rfl, h.sets_vacant key⟩
  | some root =>
    have hwf := h.wf root rfl
    unfold remove_k
    dsimp only
    rw [prefix_length_key_eq_ok (Nat.zero_le _), ok_bind, length_at, usize_sub_eq_ok (Nat.zero_le _)]
    rcases probe.meets root.pfx (Nat.zero_le key.length) with
      ⟨hne, hpfx⟩ | ⟨hpfx, hlcp, hlen⟩ | ⟨k, rest, hpfx, hlcp, hlen, hk, hrest, hdepth⟩
    · have hnone := find_eq_none_of_not_pfx (n := root) hpfx
      rw [List.drop_zero, h.find_root] at hnone
      rw [if_pos hne, hnone]
      exact ⟨_, rfl, h.sets_same hnone⟩
    · rw [if_neg (not_not.2 hlcp), ok_bind, if_pos hlen]
      rw [List.drop_zero] at hpfx
      subst hpfx
      have hlookup : m.lookup root.pfx = root.value := lookup_root h
      have hbare := bare_iff_of_wf hwf
      rw [hlookup]
      cases hvalue : root.value with
      | none =>
        -- a valueless root is not a leaf
        have hself : DefaultNode.mk root.pfx none root.content = root := by
          rw [← hvalue]
          cases root
          rfl
        rw [hself] at hbare
        have hchildren := mt hbare.2 (not_bare_of_wf hwf)
        have hleaf : ¬ root.is_leaf = true := fun hleaf => hchildren <| by
          rw [(children_of_wf hwf).repr.num_children_eq]
          exact congrArg List.length (Node.iter_leaf hwf.layout hleaf)
        rw [if_neg hleaf, hself]
        rw [hvalue] at hlookup
        exact ⟨⟨some root, len⟩, if_neg hchildren, h.sets_same hlookup⟩
      | some leaf =>
        have hfound : (Trie.find root root.pfx).isSome := by
          rw [h.find_root, hlookup, hvalue]
          rfl
        have hedited : Edited root root.pfx none (.mk root.pfx none root.content) :=
          .take hfound (.here root)
        rw [hvalue] at hlookup
        have hremoved := h.len_removed hlookup
        split
        · rename_i hleaf
          have hzero : root.content.num_children = 0 := by
            rw [(children_of_wf hwf).repr.num_children_eq]
            exact congrArg List.length (Node.iter_leaf hwf.layout hleaf)
          rw [expect_some, ok_bind, hremoved, ok_bind]
          exact ⟨_, rfl, .emptied rfl hedited (hbare.2 hzero), rfl⟩
        · have hlen' : AdaptiveRadixTree.len_without len (some leaf) =
              .ok (m.setSlot root.pfx none).size := hremoved
          rw [hlen', ok_bind]
          by_cases hzero : root.content.num_children = 0
          · exact ⟨_, if_pos hzero, .emptied rfl hedited (hbare.2 hzero), rfl⟩
          · exact ⟨_, if_neg hzero, .edited rfl hedited (mt hbare.1 hzero), rfl⟩
    · rw [if_neg (not_not.2 hlcp), ok_bind, if_neg hlen, hlcp]
      rw [Nat.zero_add] at hrest hdepth
      rw [List.drop_zero] at hpfx
      have hlt : root.pfx.length < key.length := by
        have hkeylen := congrArg List.length hpfx
        simp only [List.length_append, List.length_cons] at hkeylen
        omega
      obtain ⟨after, hafter, hedited, hinner⟩ := remove_recurse_edits hwf hlt
      rw [hrest, ← hpfx, h.find_root] at hafter
      rw [hrest, ← hpfx] at hedited
      rw [hafter, ok_bind]
      dsimp only
      rw [h.len_without, ok_bind]
      have hcounts := bare_iff (hedited.wf hwf)
      by_cases hbare : Bare after
      · rw [if_pos ⟨hinner hbare, hcounts.2 hbare⟩]
        exact ⟨_, rfl, .emptied rfl hedited hbare, rfl⟩
      · rw [if_neg fun h => hbare (hcounts.1 h.2)]
        exact ⟨_, rfl, .edited rfl hedited hbare, rfl⟩

/-- As for `remove_k`, with the answer whether there was a value. -/
theorem delete_k_spec (h : Represents self m) (key : Bytes) :
    ∃ after, self.delete_k key = .ok ((m.lookup key).isSome, after) ∧ SetsSlot self m key none after := by
  obtain ⟨after, hafter, hspec⟩ := remove_k_spec h key
  refine ⟨after, ?_, hspec⟩
  unfold delete_k
  rw [hafter]
  rfl

/-- Both updates, over the recursion that they call. -/
theorem update_with_spec (h : Represents self m) (key : Bytes) (f : Callback V E) {rollback : Bool}
    {apply : DefaultNode V → UpdateCell V E → Result (Updated V E)}
    (happly : AppliesOccupied apply rollback) :
    ∃ after, update_with (update_recurse apply) self key ⟨some f, []⟩ =
        .ok ((f.apply rollback (m.lookup key)).1, after, ⟨none, [Callback.slot (m.lookup key)]⟩) ∧
      SetsSlot self m key (f.apply rollback (m.lookup key)).2 after := by
  obtain ⟨root, len⟩ := self
  cases root with
  | none =>
    have hnone : m.lookup key = none := (h.find key).symm
    have hsame := h.sets_vacant key
    unfold update_with UpdateCell.call_vacant
    rw [hnone]
    unfold Callback.apply
    dsimp only
    rw [expect_some, ok_bind, pure_eq_ok, ok_bind]
    dsimp only
    cases f.vacant with
    | error e => exact ⟨_, rfl, hsame⟩
    | ok action =>
      cases action with
      | Keep => exact ⟨_, rfl, hsame⟩
      | Remove => exact ⟨_, rfl, hsame⟩
      | Insert value => exact ⟨_, rfl, h.sets_first key value⟩
  | some root =>
    have hwf := h.wf root rfl
    obtain ⟨after, pruned, hafter, hedited, hpruned⟩ :=
      update_recurse_edits happly hwf (Nat.zero_le key.length) f []
    rw [List.drop_zero, h.find_root] at hafter hedited
    unfold update_with
    dsimp only
    rw [hafter, ok_bind]
    have hlen : len = m.size := h.len
    cases hfound : m.lookup key with
    | none =>
      rw [hfound] at hedited
      have hsame : Edited root key none after → SetsSlot ⟨some root, len⟩ m key none ⟨some after, len⟩ := by
        intro hedited
        rw [hedited.eq_self hwf ((h.find_root key).trans hfound).symm]
        exact h.sets_same hfound
      obtain ⟨e, heq⟩ | heq | ⟨left, heq⟩ := f.apply_none_cases rollback
      · rw [heq] at hedited ⊢
        exact ⟨⟨some after, len⟩, rfl, hsame hedited⟩
      · rw [heq] at hedited ⊢
        exact ⟨⟨some after, len⟩, rfl, hsame hedited⟩
      · rw [heq] at hedited ⊢
        refine ⟨⟨some after, len + 1⟩, rfl, h.sets_value hedited ?_⟩
        rw [RefMap.size_insert_of_none hfound, hlen]
    | some current =>
      rw [hfound] at hedited
      obtain ⟨e, left, heq⟩ | ⟨left, heq⟩ | heq := f.apply_some_cases rollback current
      · rw [heq] at hedited ⊢
        refine ⟨⟨some after, len⟩, rfl, h.sets_value hedited ?_⟩
        rw [RefMap.size_insert_of_some hfound, hlen]
      · rw [heq] at hedited ⊢
        refine ⟨⟨some after, len⟩, rfl, h.sets_value hedited ?_⟩
        rw [RefMap.size_insert_of_some hfound, hlen]
      · have hremoved := h.len_removed hfound
        rw [heq] at hedited ⊢
        cases pruned with
        | false =>
          have hkept : ¬ Bare after := fun hbare => by cases hpruned.2 hbare
          refine ⟨⟨some after, (m.setSlot key none).size⟩, ?_, .edited rfl hedited hkept, rfl⟩
          simp only [updateResult, Bool.false_eq_true, if_false]
          rw [hremoved]
          rfl
        | true =>
          refine ⟨⟨none, (m.setSlot key none).size⟩, ?_, .emptied rfl hedited (hpruned.1 rfl), rfl⟩
          simp only [updateResult, if_true]
          rw [hremoved]
          rfl

/-- The callback runs once, on what the map holds. -/
theorem update_k_spec (h : Represents self m) (key : Bytes) (f : Callback V Empty) :
    ∃ changed after, self.update_k key f = .ok (changed, after, [Callback.slot (m.lookup key)]) ∧
      (f.apply false (m.lookup key)).1 = .ok changed ∧
      SetsSlot self m key (f.apply false (m.lookup key)).2 after := by
  obtain ⟨after, hafter, hspec⟩ := update_with_spec h key f apply_occupied_update_eq
  cases hanswer : (f.apply false (m.lookup key)).1 with
  | error e => exact e.elim
  | ok changed =>
    refine ⟨changed, after, ?_, rfl, hspec⟩
    have hinner : self.try_update_k_inner key f = _ := hafter
    unfold update_k
    rw [hinner, hanswer]
    rfl

/-- The callback runs once, and its failure restores the slot. -/
theorem try_update_k_spec (h : Represents self m) (key : Bytes) (f : Callback V E) :
    ∃ after, self.try_update_k key f =
        .ok ((f.apply true (m.lookup key)).1, after, [Callback.slot (m.lookup key)]) ∧
      SetsSlot self m key (f.apply true (m.lookup key)).2 after := by
  obtain ⟨after, hafter, hspec⟩ := update_with_spec h key f apply_occupied_update_rollback_eq
  refine ⟨after, ?_, hspec⟩
  have hinner : self.try_update_k_rollback key f = _ := hafter
  unfold try_update_k
  rw [hinner]
  rfl

end Represents

end Operations

section Runs

/-- A mutation of a tree, through one of its keys. -/
inductive Op (V E : Type) where
  | insert_k (key : Bytes) (value : V)
  | try_insert_k (key : Bytes) (value : V)
  | remove_k (key : Bytes)
  | delete_k (key : Bytes)
  | get_mut_k (key : Bytes) (write : V → V)
  | update_k (key : Bytes) (update : Callback V Empty)
  | try_update_k (key : Bytes) (update : Callback V E)

/-- What a mutation returns, and the calls that its callback got. -/
inductive Reply (V E : Type) where
  | inserted (previous : Option V)
  | tried (result : Except (V × V) Unit)
  | removed (value : Option V)
  | deleted (existed : Bool)
  | seen (value : Option V)
  | updated (changed : Except E Bool) (calls : List (Slot V))

namespace Op

/-- The key of an operation. -/
def key : Op V E → Bytes
  | insert_k key _ => key
  | try_insert_k key _ => key
  | remove_k key => key
  | delete_k key => key
  | get_mut_k key _ => key
  | update_k key _ => key
  | try_update_k key _ => key

/-- What a map answers to a mutation whose slot holds `found`. -/
def answer (found : Option V) : Op V E → Reply V E
  | insert_k _ _ => .inserted found
  | try_insert_k _ value => .tried (triedInsert value found)
  | remove_k _ => .removed found
  | delete_k _ => .deleted found.isSome
  | get_mut_k _ _ => .seen found
  | update_k _ update =>
    .updated ((update.apply false found).1.mapError Empty.elim) [Callback.slot found]
  | try_update_k _ update => .updated (update.apply true found).1 [Callback.slot found]

/-- What the slot holds afterwards. -/
def left (found : Option V) : Op V E → Option V
  | insert_k _ value => some value
  | try_insert_k _ value => some (found.getD value)
  | remove_k _ => none
  | delete_k _ => none
  | get_mut_k _ write => found.map write
  | update_k _ update => (update.apply false found).2
  | try_update_k _ update => (update.apply true found).2

/-- A mutation of the reference map. -/
def onMap (op : Op V E) (m : RefMap V) : Reply V E × RefMap V :=
  (op.answer (m.lookup op.key), m.setSlot op.key (op.left (m.lookup op.key)))

end Op

/-- A sequence of mutations of the reference map. -/
def runMap (m : RefMap V) : List (Op V E) → List (Reply V E) × RefMap V
  | [] => ([], m)
  | op :: ops =>
    let (reply, m) := op.onMap m
    let (replies, m) := runMap m ops
    (reply :: replies, m)

variable [Features]

namespace Op

/-- A mutation of a tree. -/
def onTree (op : Op V E) (tree : AdaptiveRadixTree V) : Result (Reply V E × AdaptiveRadixTree V) :=
  match op with
  | insert_k key value => do
    let (previous, tree) ← tree.insert_k key value
    return (.inserted previous, tree)
  | try_insert_k key value => do
    let (result, tree) ← tree.try_insert_k key value
    return (.tried result, tree)
  | remove_k key => do
    let (value, tree) ← tree.remove_k key
    return (.removed value, tree)
  | delete_k key => do
    let (existed, tree) ← tree.delete_k key
    return (.deleted existed, tree)
  | get_mut_k key write => do
    let (value, tree) ← tree.get_mut_k key write
    return (.seen value, tree)
  | update_k key update => do
    let (changed, tree, calls) ← tree.update_k key update
    return (.updated (.ok changed) calls, tree)
  | try_update_k key update => do
    let (result, tree, calls) ← tree.try_update_k key update
    return (.updated result calls, tree)

/-- One mutation answers as the map does, and sets the slot that the map sets. -/
theorem step_sets {tree : AdaptiveRadixTree V} {m : RefMap V} (h : Represents tree m) (op : Op V E) :
    ∃ after, op.onTree tree = .ok ((op.onMap m).1, after) ∧
      SetsSlot tree m op.key (op.left (m.lookup op.key)) after := by
  cases op with
  | insert_k key value =>
    obtain ⟨after, hafter, hspec⟩ := h.insert_k_spec key value
    exact ⟨after, by rw [onTree, hafter]; rfl, hspec⟩
  | try_insert_k key value =>
    obtain ⟨after, hafter, hspec⟩ := h.try_insert_k_spec key value
    exact ⟨after, by rw [onTree, hafter]; rfl, hspec⟩
  | remove_k key =>
    obtain ⟨after, hafter, hspec⟩ := h.remove_k_spec key
    exact ⟨after, by rw [onTree, hafter]; rfl, hspec⟩
  | delete_k key =>
    obtain ⟨after, hafter, hspec⟩ := h.delete_k_spec key
    exact ⟨after, by rw [onTree, hafter]; rfl, hspec⟩
  | get_mut_k key write =>
    obtain ⟨after, hafter, hspec⟩ := h.get_mut_k_spec key write
    exact ⟨after, by rw [onTree, hafter]; rfl, hspec⟩
  | update_k key update =>
    obtain ⟨changed, after, hafter, hanswer, hspec⟩ := h.update_k_spec key update
    refine ⟨after, ?_, hspec⟩
    rw [onTree, hafter]
    change _ = Except.ok (Reply.updated ((update.apply false (m.lookup key)).1.mapError _) _, after)
    rw [hanswer]
    rfl
  | try_update_k key update =>
    obtain ⟨after, hafter, hspec⟩ := h.try_update_k_spec key update
    exact ⟨after, by rw [onTree, hafter]; rfl, hspec⟩

/-- One mutation keeps the tree standing for the map, and answers as the map does. -/
theorem step {tree : AdaptiveRadixTree V} {m : RefMap V} (h : Represents tree m) (op : Op V E) :
    ∃ after, op.onTree tree = .ok ((op.onMap m).1, after) ∧ Represents after (op.onMap m).2 := by
  obtain ⟨after, hafter, hspec⟩ := op.step_sets h
  exact ⟨after, hafter, hspec.represents h⟩

end Op

/-- A sequence of mutations of a tree. -/
def runTree (tree : AdaptiveRadixTree V) :
    List (Op V E) → Result (List (Reply V E) × AdaptiveRadixTree V)
  | [] => return ([], tree)
  | op :: ops => do
    let (reply, tree) ← op.onTree tree
    let (replies, tree) ← runTree tree ops
    return (reply :: replies, tree)

/-- By induction on the operations, each of which sets one slot. -/
theorem runTree_spec {tree : AdaptiveRadixTree V} {m : RefMap V} (h : Represents tree m)
    (ops : List (Op V E)) :
    ∃ after, runTree tree ops = .ok ((runMap m ops).1, after) ∧ Represents after (runMap m ops).2 := by
  induction ops generalizing tree m with
  | nil => exact ⟨tree, rfl, h⟩
  | cons op ops ih =>
    obtain ⟨next, hstep, hnext⟩ := op.step h
    obtain ⟨after, hrun, hafter⟩ := ih hnext
    refine ⟨after, ?_, hafter⟩
    rw [runTree, hstep, ok_bind]
    dsimp only
    rw [hrun]
    rfl

/-- After any sequence of mutations of a new tree, none of which panics, every
mutation has answered as the map does, and so does every read. -/
theorem AdaptiveRadixTree.refines_map (ops : List (Op V E)) :
    ∃ tree : AdaptiveRadixTree V, runTree .new ops = .ok ((runMap ∅ ops).1, tree) ∧
      (∀ key, tree.get_k key = .ok ((runMap ∅ ops).2.lookup key)) ∧
      (∀ key, tree.get_bytes key = .ok ((runMap ∅ ops).2.lookup key)) ∧
      tree.len = (runMap ∅ ops).2.size ∧ (tree.is_empty = true ↔ (runMap ∅ ops).2.size = 0) := by
  obtain ⟨tree, hrun, hspec⟩ := runTree_spec represents_new ops
  exact ⟨tree, hrun, hspec.get_k_eq, hspec.get_bytes_eq, hspec.len, hspec.is_empty_iff⟩

end Runs

end rart.tree
