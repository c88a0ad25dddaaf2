import Rart.Shared.GetMut
import Rart.Shared.Insert
import Rart.Shared.Remove
import Rart.Shared.Update

open SortedAssoc RcHeap RcHeap.Program Words LexOrder
open RcHeap.Heap (Valid Keeps Agree Below)
open rart.node rart.partials rart.utils

namespace rart.versioned_tree

variable {V E : Type} [Features]

/-- A mutation of a tree, one access at a time. -/
def Mutation.onShared (op : Mutation V E) (tree : VersionedAdaptiveRadixTree V) :
    shared.Access V (Reply V E × VersionedAdaptiveRadixTree V) :=
  match op with
  | insert_k key value => do
    let (was_replaced, tree) ← shared.insert_k tree key value
    return (.replaced was_replaced, tree)
  | insert_and_replace_k key value => do
    let (old_value, tree) ← shared.insert_and_replace_k tree key value
    return (.previous old_value, tree)
  | remove_k key => do
    let (value, tree) ← shared.remove_k tree key
    return (.removed value, tree)
  | delete_k key => do
    let (existed, tree) ← shared.delete_k tree key
    return (.deleted existed, tree)
  | get_mut_k key write => do
    let (value, tree) ← shared.get_mut_k tree key write
    return (.seen value, tree)
  | update_k key update => do
    let (changed, tree, calls) ← shared.update_k tree key update
    return (.updated (.ok changed) calls, tree)
  | try_update_k key update => do
    let (result, tree, calls) ← shared.try_update_k tree key update
    return (.updated result calls, tree)

namespace shared

variable {h : Heap (VersionedNode V)} {fresh others roots : List Nat} {a : Nat} {node : VersionedNode V}
  {self : VersionedAdaptiveRadixTree V} {key : Bytes}

section Reads

theorem get_iterate_returns (hv : Valid h roots) (hnode : h.node? a = some node) {depth : Nat}
    (hdepth : depth ≤ key.length) :
    (get_iterate a key depth : Access V _).Returns h (find h a (key.drop depth)) := by
  induction a using Nat.strongRecOn generalizing node depth with
  | ind a ih =>
    rw [get_iterate]
    refine ⟨node, hnode, ?_⟩
    change Returns h _ (liftM _ >>= _)
    rw [prefix_length_key_eq_ok hdepth, lift_ok_bind, length_at, usize_sub_eq_ok hdepth]
    cases probe.meets node.pfx hdepth with
    | diverges hne hpfx =>
      rw [if_pos hne, find_diverges hv hnode hpfx]
      rfl
    | ends hpfx hlcp hlen =>
      rw [if_neg (not_not.2 hlcp), lift_ok_bind, if_pos hlen, hpfx, find_self hv hnode]
      rfl
    | goes_on k rest hpfx hlcp hlen hk hrest hdepth' =>
      rw [if_neg (not_not.2 hlcp), lift_ok_bind, if_neg hlen, byte_at, hk, lift_ok_bind, hpfx, find_edge hv hnode]
      have hlinked := (hv.sound a node hnode).linked
      have hseek : node.seek_child k = node.content.iter.lookup k := hlinked.repr.seek_child k
      rw [hseek]
      cases hlookup : node.content.iter.lookup k with
      | none => rfl
      | some child =>
        have hmem : (k, child) ∈ node.content.iter := mem_of_lookup hlookup
        obtain ⟨stored, hstored, _⟩ := hlinked.edges (k, child) hmem
        have hless := hv.counted.older a node hnode child (mem_handles hmem)
        have hbelow := ih child hless hstored hdepth'
        rw [hrest] at hbelow
        dsimp only
        rwa [if_pos hless]

theorem get_k_returns (hl : Live h self others) (key : Bytes) :
    (get_k self key : Access V _).Returns h (self.lookup h key) := by
  unfold get_k VersionedAdaptiveRadixTree.lookup
  cases hroot : self.root with
  | none => rfl
  | some root =>
    obtain ⟨node, hnode⟩ := hl.root_live hroot
    exact get_iterate_returns hl.valid hnode (Nat.zero_le key.length)

end Reads

section Insertion

/-- The first entry of an empty tree. -/
theorem leaf_leads {α : Type} {f : Nat → Access V α} {post : α → Heap (VersionedNode V) → List Nat → Prop}
    (hl : Live h self others) (hroot : self.root = none) (key : Bytes) (value : V)
    (hf : ∀ n h', Mutated h self others key (some value) (self.version + 1) ⟨some n, self.version + 1⟩ h' →
      (f n).Leads h' (n :: fresh) post) :
    (do
      let root ← allocCell (.new_leaf (← to_partial key 0) value (self.version + 1))
      f root : Access V α).Leads h fresh post := by
  unfold to_partial
  rw [slice_from_eq_ok (Nat.zero_le _), lift_ok_bind, List.drop_zero]
  have hv : Valid h others := by
    have hv := hl.valid
    rwa [hroot] at hv
  have hh := held_leaf hv key value (self.version + 1)
  refine Program.leads_alloc hh.valid ⟨hh.linked, fun _ => ⟨value, rfl⟩⟩ fun n hn => hf n _ ?_
  obtain ⟨hpad, hk⟩ := hv.pad n
  have hlpad : Live (h.pad n) self others := by
    refine ⟨by rwa [hroot], fun b _ hb => ?_⟩
    rw [hroot] at hb
    cases hb
  have hmutated := Mutated.leaf hlpad hroot key value (self.version + 1)
  rw [Heap.alloc_pad hn] at hmutated
  refine ⟨hmutated.live, hk.trans hmutated.keeps, hmutated.updated.congr (fun w => ?_) fun _ => rfl, fun b hb => ?_,
    rfl⟩
  · unfold VersionedAdaptiveRadixTree.lookup
    rw [hroot]
    rfl
  · rw [hroot] at hb
    cases hb

theorem insert_k_leads (hl : Live h self others) (key : Bytes) (value : V) :
    (insert_k self key value : Access V _).Leads h fresh fun r h' _ =>
      ∃ after, r = ((self.lookup h key).isSome, after) ∧
        Mutated h self others key (some value) (self.version + 1) after h' := by
  obtain ⟨root, version⟩ := self
  cases root with
  | none => exact leaf_leads hl rfl key value fun n h' hmutated => leads_done ⟨_, rfl, hmutated⟩
  | some a =>
    obtain ⟨node, hnode⟩ := hl.root_live rfl
    have hlt : node.version < version + 1 := Nat.lt_succ_of_le (hl.newest a node rfl hnode)
    refine (insert_recurse_leads hl.valid hnode hlt (Nat.zero_le key.length) value none).bind ?_
    rintro _ h' fresh' _ ⟨a', rfl, hchanged⟩
    exact leads_done ⟨_, rfl, .of_changed rfl hchanged⟩

theorem insert_and_replace_k_leads (hl : Live h self others) (key : Bytes) (value : V) :
    (insert_and_replace_k self key value : Access V _).Leads h fresh fun r h' _ =>
      ∃ after, r = (self.lookup h key, after) ∧
        Mutated h self others key (some value) (self.version + 1) after h' := by
  obtain ⟨root, version⟩ := self
  cases root with
  | none => exact leaf_leads hl rfl key value fun n h' hmutated => leads_done ⟨_, rfl, hmutated⟩
  | some a =>
    obtain ⟨node, hnode⟩ := hl.root_live rfl
    have hlt : node.version < version + 1 := Nat.lt_succ_of_le (hl.newest a node rfl hnode)
    refine (insert_recurse_leads hl.valid hnode hlt (Nat.zero_le key.length) value (some none)).bind ?_
    rintro _ h' fresh' _ ⟨a', rfl, hchanged⟩
    refine leads_done ⟨_, ?_, .of_changed rfl hchanged⟩
    have hout : (write_old_value (some none) (find h a key)).join = find h a key := by
      cases find h a key <;> rfl
    dsimp only
    rw [List.drop_zero, hout]
    rfl

end Insertion

section Writes

/-- A write through `get_mut_k` to a key that is present. -/
theorem get_mut_k_leads_some {value : V} (hl : Live h self others) (hfound : self.lookup h key = some value)
    (write : V → V) :
    (get_mut_k self key write : Access V _).Leads h fresh fun r h' _ =>
      ∃ after, r = (some value, after) ∧
        Mutated h self others key (some (write value)) (self.version + 1) after h' ∧
        ∀ b ∈ after.visited h' key, h.cells.length ≤ b := by
  obtain ⟨a, node, hroot, hnode, hlt, hfind⟩ := hl.root_of_lookup hfound
  have hv : Valid h (a :: others) := by
    have hv := hl.valid
    rwa [hroot] at hv
  unfold get_mut_k
  refine (get_k_returns hl key).leads ?_
  simp only [hfound, Option.isNone_some, Bool.false_eq_true, if_false, hroot, expect_some, lift_ok_bind]
  refine (cow_path_to_key_leads hv hnode hlt (Nat.zero_le key.length)
    (by rw [List.drop_zero]; exact hfind)).bind ?_
  rintro _ h₁ fresh₁ _ ⟨a', rfl, hchanged, hown⟩
  rw [List.drop_zero] at hchanged hown
  obtain ⟨stored, hstored, _⟩ := hchanged.stored
  rw [expect_some, lift_ok_bind]
  refine (get_iterate_mut_cow_ready_leads write hchanged.valid hstored (Nat.zero_le key.length) (fun b hb => ?_)
    (by rw [List.drop_zero]; exact hchanged.updated.here)).bind ?_
  · rw [List.drop_zero] at hb
    exact ⟨(hown.1 b hb).1, hown.2 b hb⟩
  · rintro _ h₂ fresh₂ _ ⟨rfl, hwritten⟩
    rw [List.drop_zero] at hwritten
    exact leads_done ⟨_, rfl, Mutated.of_written hroot hchanged hown.1 hstored hwritten⟩

theorem get_mut_k_leads (hl : Live h self others) (key : Bytes) (write : V → V) :
    (get_mut_k self key write : Access V _).Leads h fresh fun r h' _ =>
      ∃ after, r = (self.lookup h key, after) ∧ Mutated h self others key ((self.lookup h key).map write)
        (if (self.lookup h key).isSome then self.version + 1 else self.version) after h' := by
  cases hfound : self.lookup h key with
  | none =>
    unfold get_mut_k
    refine (get_k_returns hl key).leads ?_
    rw [hfound]
    exact leads_done ⟨self, rfl, .same hl hfound⟩
  | some value =>
    exact (get_mut_k_leads_some hl hfound write).mono fun r h' fresh' _ ⟨after, hr, hmutated, _⟩ =>
      ⟨after, hr, hmutated⟩

end Writes

section Removal

/-- A settled root passes the emptiness test. -/
theorem nonempty_root_returns {h' : Heap (VersionedNode V)} {opt : Option Nat} {slot : Option V} {version : Nat}
    (hs : Settled h a node others version key slot opt h') :
    (nonempty_root opt : Access V _).Returns h' opt := by
  cases hs with
  | left a' h' hchanged =>
    obtain ⟨after, hafter, _⟩ := hchanged.stored
    have hstored := hchanged.valid.sound a' after hafter
    have hnum : after.num_children = after.content.iter.length := hstored.linked.repr.num_children_eq
    refine ⟨after, hafter, ?_⟩
    have hnot : ¬ (after.is_inner = true ∧ after.num_children = 0 ∧ after.value.isNone = true) := by
      rintro ⟨_, hzero, hnone⟩
      obtain ⟨v, hvalue⟩ := hstored.occupied (List.eq_nil_of_length_eq_zero (hnum.symm.trans hzero))
      rw [hvalue] at hnone
      cases hnone
    change Returns h' _ (if _ then _ else _)
    rw [if_neg hnot]
    rfl
  | emptied h' hv hk hvacant honly hshares => rfl

theorem remove_k_leads (hl : Live h self others) (key : Bytes) :
    (remove_k self key : Access V _).Leads h fresh fun r h' _ =>
      ∃ after, r = (self.lookup h key, after) ∧ Mutated h self others key none
        (if (self.lookup h key).isSome then self.version + 1 else self.version) after h' := by
  unfold remove_k
  refine (get_k_returns hl key).leads ?_
  cases hfound : self.lookup h key with
  | none => exact leads_done ⟨self, rfl, .same hl hfound⟩
  | some value =>
    obtain ⟨a, node, hroot, hnode, hlt, hfind⟩ := hl.root_of_lookup hfound
    have hv : Valid h (a :: others) := by
      have hv := hl.valid
      rwa [hroot] at hv
    obtain ⟨hatleaf, hatlen, hvalue⟩ := find_at_root hv hnode hfind
    simp only [Option.isNone_some, Bool.false_eq_true, if_false, hroot, expect_some, lift_ok_bind,
      Option.isSome_some, if_true]
    refine leads_read hnode ?_
    simp only [length_at, usize_sub_eq_ok (Nat.zero_le _), Nat.sub_zero, lift_ok_bind]
    by_cases hleaf : node.is_leaf = true
    · have hkey := hatleaf hleaf
      have hvalue := hvalue hkey
      rw [if_pos hleaf, if_neg (by rw [hkey]; simp)]
      refine leads_take hv hnode (fun hcell => ?_) fun _ => ?_
      · obtain ⟨hv₁, _, hk₁, _⟩ := hv.free hcell
        obtain ⟨h', hdrop, hv', hk'⟩ := drop_node_spec hv₁
        refine leads_drop_node hv₁ hdrop (leads_done ⟨⟨none, self.version + 1⟩, by rw [hvalue], ?_⟩)
        exact .leaf_removed hv hroot hnode hleaf hkey hv'
          ((hk₁.subset fun b hb => List.mem_append_right _ hb).trans hk')
      · obtain ⟨hv₁, hk₁⟩ := hv.copies node.value.toList.length
        obtain ⟨h', hdrop, hv', hk', _⟩ := drop_arc_spec hv₁
        refine leads_copies _ (leads_drop_arc hv₁ hdrop (leads_done ⟨⟨none, self.version + 1⟩, by rw [hvalue], ?_⟩))
        exact .leaf_removed hv hroot hnode hleaf hkey hv'
          ((hk₁.subset fun b hb => List.mem_cons_of_mem _ hb).trans hk')
    · rw [if_neg hleaf]
      by_cases hlen : node.pfx.length = key.length
      · have hkey := hatlen hlen
        rw [if_pos hlen]
        refine (exclusive_leads hv hnode hlt).bind fun owned h₁ fresh₁ _ hex => ?_
        refine (settle_leads (hex.set_value none)).bind fun opt h' fresh' _ hsettled =>
          leads_done ⟨⟨opt, self.version + 1⟩, ?_, hkey ▸ .of_settled hroot hsettled⟩
        rw [hex.copy.value_eq, hvalue hkey]
      · rw [if_neg hlen]
        refine (remove_loop_leads (fun value => value) 1 "prechecked key should be removable" hv hnode hlt
          (Nat.zero_le key.length) (by rw [List.drop_zero]; exact hfind)).bind ?_
        rintro _ h' fresh' _ ⟨opt, rfl, hsettled⟩
        rw [List.drop_zero] at hsettled
        rw [expect_some, lift_ok_bind]
        exact (nonempty_root_returns hsettled).leads (leads_done ⟨_, rfl, .of_settled hroot hsettled⟩)

theorem delete_k_leads (hl : Live h self others) (key : Bytes) :
    (delete_k self key : Access V _).Leads h fresh fun r h' _ =>
      ∃ after, r = ((self.lookup h key).isSome, after) ∧ Mutated h self others key none
        (if (self.lookup h key).isSome then self.version + 1 else self.version) after h' := by
  unfold delete_k
  refine (get_k_returns hl key).leads ?_
  cases hfound : self.lookup h key with
  | none => exact leads_done ⟨self, rfl, .same hl hfound⟩
  | some value =>
    obtain ⟨a, node, hroot, hnode, hlt, hfind⟩ := hl.root_of_lookup hfound
    have hv : Valid h (a :: others) := by
      have hv := hl.valid
      rwa [hroot] at hv
    obtain ⟨hatleaf, hatlen, hvalue⟩ := find_at_root hv hnode hfind
    simp only [Option.isNone_some, Bool.false_eq_true, if_false, hroot, expect_some, lift_ok_bind,
      Option.isSome_some, if_true]
    refine leads_read hnode ?_
    simp only [length_at, usize_sub_eq_ok (Nat.zero_le _), Nat.sub_zero, lift_ok_bind]
    by_cases hleaf : node.is_leaf = true
    · obtain ⟨h', hdrop, hv', hk', _⟩ := drop_arc_spec hv
      rw [if_pos hleaf]
      exact leads_drop_arc hv hdrop (leads_done ⟨⟨none, self.version + 1⟩, rfl,
        .leaf_removed hv hroot hnode hleaf (hatleaf hleaf) hv' hk'⟩)
    · rw [if_neg hleaf]
      by_cases hlen : node.pfx.length = key.length
      · have hkey := hatlen hlen
        rw [if_pos hlen]
        refine (exclusive_leads hv hnode hlt).bind fun owned h₁ fresh₁ _ hex => ?_
        exact (settle_leads (hex.set_value none)).bind fun opt h' fresh' _ hsettled =>
          leads_done ⟨⟨opt, self.version + 1⟩, rfl, hkey ▸ .of_settled hroot hsettled⟩
      · rw [if_neg hlen]
        refine (remove_loop_leads (fun _ => ()) 0 "prechecked key should be deletable" hv hnode hlt
          (Nat.zero_le key.length) (by rw [List.drop_zero]; exact hfind)).bind ?_
        rintro _ h' fresh' _ ⟨opt, rfl, hsettled⟩
        rw [List.drop_zero] at hsettled
        rw [expect_some, lift_ok_bind]
        exact (nonempty_root_returns hsettled).leads (leads_done ⟨_, rfl, .of_settled hroot hsettled⟩)

end Removal

section Updates

theorem update_k_leads (hl : Live h self others) (key : Bytes) (f : Callback V Empty) :
    (update_k self key f : Access V _).Leads h fresh fun r h' _ =>
      ∃ changed after, r = (changed, after, [Callback.slot (self.lookup h key)]) ∧
        (f.apply false (self.lookup h key)).1 = .ok changed ∧
        Mutated h self others key (f.apply false (self.lookup h key)).2
          (if changed then self.version + 1 else self.version) after h' := by
  obtain ⟨root, version⟩ := self
  cases root with
  | none =>
    have hsame : Mutated h ⟨none, version⟩ others key none version ⟨none, version⟩ h := .same hl rfl
    obtain ⟨vacant, occupied⟩ := f
    cases vacant with
    | error e => exact e.elim
    | ok action =>
      cases action with
      | Keep => exact leads_done ⟨false, _, rfl, rfl, hsame⟩
      | Remove => exact leads_done ⟨false, _, rfl, rfl, hsame⟩
      | Insert value =>
        exact leaf_leads hl rfl key value fun n h' hmutated => leads_done ⟨true, _, rfl, rfl, hmutated⟩
  | some a =>
    obtain ⟨node, hnode⟩ := hl.root_live rfl
    have hlt : node.version < version + 1 := Nat.lt_succ_of_le (hl.newest a node rfl hnode)
    refine (update_recurse_leads hl.valid hnode hlt (Nat.zero_le key.length) f []).bind ?_
    rintro _ h' fresh' _ ⟨opt, changed, rfl, hanswer, hupdates⟩
    rw [List.drop_zero] at hanswer hupdates ⊢
    refine leads_done ⟨changed, ⟨opt, if changed then version + 1 else version⟩, rfl, hanswer, ?_⟩
    have hslot : (f.apply false (VersionedAdaptiveRadixTree.lookup ⟨some a, version⟩ h key)).2 =
        (f.apply false (find h a key)).2 := rfl
    rw [hslot]
    cases hupdates with
    | changed opt h' hsettled => exact .of_settled rfl hsettled
    | kept h' hv' hk' hsame => exact .kept hl rfl hv' hk' hsame

theorem try_update_k_leads (hl : Live h self others) (key : Bytes) (f : Callback V E) :
    (try_update_k self key f : Access V _).Leads h fresh fun r h' _ =>
      ∃ after, r = ((f.apply true (self.lookup h key)).1, after, [Callback.slot (self.lookup h key)]) ∧
        Mutated h self others key (f.apply true (self.lookup h key)).2
          (self.version + advances f (self.lookup h key)) after h' := by
  unfold try_update_k
  refine (get_k_returns hl key).leads ?_
  cases hfound : self.lookup h key with
  | none =>
    have hsame : Mutated h self others key none self.version self h := .same hl hfound
    obtain ⟨vacant, occupied⟩ := f
    cases vacant with
    | error e => exact leads_done ⟨self, rfl, hsame⟩
    | ok action =>
      cases action with
      | Keep => exact leads_done ⟨self, rfl, hsame⟩
      | Remove => exact leads_done ⟨self, rfl, hsame⟩
      | Insert value =>
        refine (insert_k_leads hl key value).bind ?_
        rintro _ h' fresh' _ ⟨after, rfl, hmutated⟩
        exact leads_done ⟨after, rfl, hmutated⟩
  | some current =>
    obtain ⟨hcopied, hlookup, _⟩ := hl.copies 1
    refine leads_copies 1 ?_
    refine (get_mut_k_leads_some hcopied ((hlookup key).trans hfound) fun value => (f.occupied value).1).bind ?_
    rintro _ h₁ fresh₁ _ ⟨seen, rfl, hmutated, hfresh⟩
    have hagain : seen.lookup h₁ key = some (f.occupied current).1 := hmutated.updated.here
    have hversion := hmutated.version_eq
    -- a second mutation of the key, after the write of the callback
    have hsecond : ∀ {slot : Option V} {after : VersionedAdaptiveRadixTree V} {h' : Heap (VersionedNode V)},
        Mutated h₁ seen others key slot (seen.version + 1) after h' →
        Mutated h self others key slot (self.version + 2) after h' := fun hm => by
      rw [hversion] at hm
      exact (hmutated.trans hm hfresh).after_copies hl
    have hwrites : ∀ value, (_ : Access V _).Leads h₁ fresh₁ _ := fun value =>
      get_mut_k_leads_some hmutated.live hagain fun _ => value
    simp only [expect_some, lift_ok_bind, Callback.apply, advances]
    generalize hleft : f.occupied current = left at *
    obtain ⟨left, answer⟩ := left
    cases answer with
    | error e =>
      refine (hwrites current).bind ?_
      rintro _ h' fresh' _ ⟨after, rfl, hmutated', _⟩
      exact leads_done ⟨after, rfl, hsecond hmutated'⟩
    | ok action =>
      cases action with
      | Keep => exact leads_done ⟨seen, rfl, hmutated.after_copies hl⟩
      | Remove =>
        refine (delete_k_leads hmutated.live key).bind ?_
        rintro _ h' fresh' _ ⟨after, rfl, hmutated'⟩
        rw [hagain] at hmutated' ⊢
        exact leads_done ⟨after, rfl, hsecond hmutated'⟩
      | Insert value =>
        refine (hwrites value).bind ?_
        rintro _ h' fresh' _ ⟨after, rfl, hmutated', _⟩
        exact leads_done ⟨after, rfl, hsecond hmutated'⟩

end Updates

end shared

open shared in
/-- A mutation answers as the map of its tree does, and changes its own slot. -/
theorem Mutation.leads {h : Heap (VersionedNode V)} {tree : VersionedAdaptiveRadixTree V} {fresh others : List Nat}
    (hl : Live h tree others) (op : Mutation V E) :
    (op.onShared tree).Leads h fresh fun r h' _ =>
      ∃ after, r = (op.answer (tree.lookup h op.key), after) ∧
        Mutated h tree others op.key (op.left (tree.lookup h op.key))
          (tree.version + op.advance (tree.lookup h op.key)) after h' := by
  cases op with
  | insert_k key value =>
    refine (insert_k_leads hl key value).bind ?_
    rintro _ h' fresh' _ ⟨after, rfl, hmutated⟩
    exact leads_done ⟨after, rfl, hmutated⟩
  | insert_and_replace_k key value =>
    refine (insert_and_replace_k_leads hl key value).bind ?_
    rintro _ h' fresh' _ ⟨after, rfl, hmutated⟩
    exact leads_done ⟨after, rfl, hmutated⟩
  | remove_k key =>
    refine (remove_k_leads hl key).bind ?_
    rintro _ h' fresh' _ ⟨after, rfl, hmutated⟩
    exact leads_done ⟨after, rfl, hmutated.when_present⟩
  | delete_k key =>
    refine (delete_k_leads hl key).bind ?_
    rintro _ h' fresh' _ ⟨after, rfl, hmutated⟩
    exact leads_done ⟨after, rfl, hmutated.when_present⟩
  | get_mut_k key write =>
    refine (get_mut_k_leads hl key write).bind ?_
    rintro _ h' fresh' _ ⟨after, rfl, hmutated⟩
    exact leads_done ⟨after, rfl, hmutated.when_present⟩
  | update_k key update =>
    refine (update_k_leads hl key update).bind ?_
    rintro _ h' fresh' _ ⟨changed, after, rfl, hanswer, hmutated⟩
    refine leads_done ⟨after, ?_, ?_⟩
    · change _ = (Reply.updated ((update.apply false (tree.lookup h key)).1.mapError _) _, after)
      rw [hanswer]
      rfl
    · simp only [advance, Mutation.key, left, hanswer]
      cases changed with
      | true => exact hmutated
      | false => exact hmutated
  | try_update_k key update =>
    refine (try_update_k_leads hl key update).bind ?_
    rintro _ h' fresh' _ ⟨after, rfl, hmutated⟩
    exact leads_done ⟨after, rfl, hmutated⟩

end rart.versioned_tree
