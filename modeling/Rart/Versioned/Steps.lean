import Rart.Versioned.Tree

open SortedAssoc RcHeap Words LexOrder
open RcHeap.Heap (Valid Keeps Agree Below)
open rart.node rart.partials rart.utils

namespace rart.versioned_tree

open VersionedAdaptiveRadixTree

variable {V E : Type}

/-- A tree on a valid heap, with references in other hands. No node is newer than the tree. -/
structure Live (h : Heap (VersionedNode V)) (tree : VersionedAdaptiveRadixTree V) (others : List Nat) :
    Prop where
  valid : Valid h (tree.root.toList ++ others)
  newest : ∀ a node, tree.root = some a → h.node? a = some node → node.version ≤ tree.version

variable [Features]

/-- The value under a key of the tree. -/
def VersionedAdaptiveRadixTree.lookup (self : VersionedAdaptiveRadixTree V) (h : Heap (VersionedNode V))
    (key : Bytes) : Option V := self.root.bind fun root => find h root key

/-- What a mutation leads to. -/
structure Mutated (h : Heap (VersionedNode V)) (tree : VersionedAdaptiveRadixTree V) (others : List Nat)
    (key : Bytes) (slot : Option V) (version : Nat) (after : VersionedAdaptiveRadixTree V)
    (h' : Heap (VersionedNode V)) : Prop where
  live : Live h' after others
  keeps : Keeps h h' others
  updated : Updated (tree.lookup h) (after.lookup h') key slot
  shares : ∀ a, tree.root = some a → Shares h a key h' after.root.toList
  version_eq : after.version = version

variable {h h' : Heap (VersionedNode V)} {self after : VersionedAdaptiveRadixTree V} {others : List Nat}
  {a : Nat} {node : VersionedNode V} {key : Bytes} {slot : Option V} {version : Nat}

/-- A version that moves on where a value was found moves on by one there, and by nothing elsewhere. -/
theorem Mutated.when_present {found : Option V}
    (hmutated : Mutated h self others key slot (if found.isSome then version + 1 else version) after h') :
    Mutated h self others key slot (version + if found.isSome then 1 else 0) after h' := by
  rwa [add_ite, Nat.add_zero]

namespace Live

omit [Features] in
theorem root_live (hl : Live h self others) (hroot : self.root = some a) : ∃ node, h.node? a = some node :=
  hl.valid.counted.live_of_root (by rw [hroot]; simp)

theorem get_k_eq (hl : Live h self others) (key : Bytes) : self.get_k h key = .ok (self.lookup h key) := by
  obtain ⟨root, version⟩ := self
  cases root with
  | none => rfl
  | some a =>
    obtain ⟨node, hnode⟩ := hl.root_live rfl
    have hwf := wf_borrow hl.valid hnode
    have hget := probe.get_iterate_eq hwf (Nat.zero_le key.length)
    unfold get_k lookup find borrow
    simp only [hnode, Option.map_some, arc_some, ok_bind, Option.bind_some]
    exact hget

/-- Copies that are made leave a tree as it is. -/
theorem copies (hl : Live h self others) (n : Nat) : Live (h.copies n) self others ∧
    (∀ key, self.lookup (h.copies n) key = self.lookup h key) ∧ Keeps h (h.copies n) others ∧
    ∀ a, self.root = some a → Agree h (h.copies n) a := by
  obtain ⟨hv, hk⟩ := hl.valid.copies n
  have hagree : ∀ a, self.root = some a → Agree h (h.copies n) a := fun a hroot =>
    hk.agree a (List.mem_append_left _ (by rw [hroot]; simp))
  refine ⟨⟨hv, hl.newest⟩, fun key => ?_, hk.subset fun b hb => List.mem_append_right _ hb, hagree⟩
  unfold VersionedAdaptiveRadixTree.lookup
  cases hroot : self.root with
  | none => rfl
  | some a => exact find_agree hl.valid hv (hagree a hroot) key

end Live

namespace Mutated

theorem of_changed {a' : Nat} (hroot : self.root = some a)
    (hc : Changed h a node others version key slot a' h') :
    Mutated h self others key slot version ⟨some a', version⟩ h' where
  live := ⟨hc.valid, fun b stored hb hstored => by
    cases hb
    obtain ⟨after, hafter, hversion, _⟩ := hc.stored
    rw [hafter] at hstored
    cases hstored
    exact Nat.le_of_eq hversion⟩
  keeps := hc.keeps
  updated := by
    unfold lookup
    rw [hroot]
    exact hc.updated
  shares b hb := by
    rw [hroot] at hb
    cases hb
    exact hc.shares
  version_eq := rfl

theorem of_settled {opt : Option Nat} (hroot : self.root = some a)
    (hs : Settled h a node others version key slot opt h') :
    Mutated h self others key slot version ⟨opt, version⟩ h' := by
  cases hs with
  | left a' h' hchanged => exact .of_changed hroot hchanged
  | emptied h' hv hk hvacant honly hshares =>
    refine ⟨⟨hv, fun b stored hb _ => by cases hb⟩, hk, ?_, fun b hb => ?_, rfl⟩
    · unfold lookup
      rw [hroot]
      exact ⟨hvacant.symm, fun w hw => (honly w hw).symm⟩
    · rw [hroot] at hb
      cases hb
      exact hshares

/-- An operation that does nothing. -/
theorem same (hl : Live h self others) (hslot : self.lookup h key = slot) :
    Mutated h self others key slot self.version self h where
  live := hl
  keeps := hl.valid.keeps_refl.subset fun b hb => List.mem_append_right _ hb
  updated := .refl hslot
  shares a hroot b ho := by
    have hmem : a ∈ self.root.toList := by rw [hroot]; simp
    exact ⟨a, hmem, ho.below, ((hl.valid.keeps_refl.agree a (List.mem_append_left _ hmem)).carries ho.below).2⟩
  version_eq := rfl

/-- Copies that are made first leave the heap as it is. -/
theorem after_copies {n : Nat} (hl : Live h self others)
    (hm : Mutated (h.copies n) self others key slot version after h') :
    Mutated h self others key slot version after h' := by
  obtain ⟨hcopied, hlookup, hk, hroot⟩ := hl.copies n
  exact ⟨hm.live, hk.trans hm.keeps, hm.updated.congr (fun w => (hlookup w).symm) fun _ => rfl,
    fun a ha => (hm.shares a ha).after hl.valid hcopied.valid (hroot a ha), hm.version_eq⟩

end Mutated


section Insertion

/-- The first entry of an empty tree. -/
theorem Mutated.leaf (hl : Live h self others) (hroot : self.root = none) (key : Bytes) (value : V)
    (version : Nat) :
    Mutated h self others key (some value) version
      ⟨some (h.alloc (.new_leaf key value version)).1, version⟩ (h.alloc (.new_leaf key value version)).2 := by
  have hv : Valid h others := by
    have hv := hl.valid
    rwa [hroot] at hv
  have hleaf := alloc_leaf_spec hv key value version
  refine ⟨⟨hleaf.valid, fun b stored hb hstored => ?_⟩, hleaf.keeps, ?_, fun b hb => ?_, rfl⟩
  · cases hb
    rw [hleaf.stored] at hstored
    cases hstored
    exact Nat.le_refl version
  · unfold VersionedAdaptiveRadixTree.lookup
    rw [hroot]
    exact hleaf.updated
  · rw [hroot] at hb
    cases hb

theorem Live.insert_k_spec (hl : Live h self others) (key : Bytes) (value : V) :
    ∃ after h', self.insert_k h key value = .ok ((self.lookup h key).isSome, after, h') ∧
      Mutated h self others key (some value) (self.version + 1) after h' := by
  obtain ⟨root, version⟩ := self
  cases root with
  | none => exact ⟨_, _, rfl, .leaf hl rfl key value (version + 1)⟩
  | some a =>
    obtain ⟨node, hnode⟩ := hl.root_live rfl
    have hlt : node.version < version + 1 := Nat.lt_succ_of_le (hl.newest a node rfl hnode)
    obtain ⟨a', h', hrun, hchanged⟩ := insert_recurse_spec hl.valid hnode hlt (Nat.zero_le key.length) value none
    refine ⟨_, h', ?_, .of_changed rfl hchanged⟩
    unfold insert_k
    simp only [hrun, ok_bind, pure_eq_ok]
    rfl

theorem Live.insert_and_replace_k_spec (hl : Live h self others) (key : Bytes) (value : V) :
    ∃ after h', self.insert_and_replace_k h key value = .ok (self.lookup h key, after, h') ∧
      Mutated h self others key (some value) (self.version + 1) after h' := by
  obtain ⟨root, version⟩ := self
  cases root with
  | none => exact ⟨_, _, rfl, .leaf hl rfl key value (version + 1)⟩
  | some a =>
    obtain ⟨node, hnode⟩ := hl.root_live rfl
    have hlt : node.version < version + 1 := Nat.lt_succ_of_le (hl.newest a node rfl hnode)
    obtain ⟨a', h', hrun, hchanged⟩ :=
      insert_recurse_spec hl.valid hnode hlt (Nat.zero_le key.length) value (some none)
    refine ⟨_, h', ?_, .of_changed rfl hchanged⟩
    have hout : (write_old_value (some none) (find h a key)).join = find h a key := by
      cases find h a key <;> rfl
    unfold insert_and_replace_k
    rw [List.drop_zero] at hrun
    simp only [hrun, ok_bind, pure_eq_ok, hout]
    rfl

end Insertion

section Writes

/-- A tree with an entry has a root. -/
theorem Live.root_of_lookup {value : V} (hl : Live h self others) (hfound : self.lookup h key = some value) :
    ∃ a node, self.root = some a ∧ h.node? a = some node ∧ node.version < self.version + 1 ∧
      find h a key = some value := by
  obtain ⟨a, hroot, hfind⟩ := Option.bind_eq_some_iff.1 hfound
  obtain ⟨node, hnode⟩ := hl.root_live hroot
  exact ⟨a, node, hroot, hnode, Nat.lt_succ_of_le (hl.newest a node hroot hnode), hfind⟩

/-- The cells on the way to a key, as seen from the tree. -/
def VersionedAdaptiveRadixTree.visited (self : VersionedAdaptiveRadixTree V) (h : Heap (VersionedNode V))
    (key : Bytes) : List Nat := self.root.elim [] fun root => versioned_tree.visited h root key

/-- What a write on a copied path leads to. -/
theorem Mutated.of_written {a' : Nat} {stored : VersionedNode V} {slot' : Option V} {h₁ h₂ : Heap (VersionedNode V)}
    (hroot : self.root = some a) (hchanged : Changed h a node others version key slot' a' h₁)
    (hready : Ready h h₁ a' key) (hstored : h₁.node? a' = some stored)
    (hwritten : Written h₁ a' stored others key slot h₂) :
    Mutated h self others key slot version ⟨some a', version⟩ h₂ ∧
      ∀ b ∈ (⟨some a', version⟩ : VersionedAdaptiveRadixTree V).visited h₂ key, h.cells.length ≤ b := by
  have hversion : stored.version = version := by
    obtain ⟨stored', hstored', hversion, _⟩ := hchanged.stored
    rw [hstored] at hstored'
    cases hstored'
    exact hversion
  refine ⟨⟨⟨hwritten.valid, fun b after hb hafter => ?_⟩, hchanged.keeps.trans hwritten.keeps, ?_, fun b hb => ?_,
    rfl⟩, fun b hb => ?_⟩
  · cases hb
    obtain ⟨stored', hstored', hversion', _⟩ := hwritten.stored
    rw [hstored'] at hafter
    cases hafter
    exact Nat.le_of_eq (hversion'.trans hversion)
  · unfold VersionedAdaptiveRadixTree.lookup
    rw [hroot]
    exact ⟨hwritten.updated.here, fun w hw =>
      (hwritten.updated.elsewhere w hw).trans (hchanged.updated.elsewhere w hw)⟩
  · -- what is off the path stays off the copied path, which is made of new cells
    rw [hroot] at hb
    cases hb
    intro b ho
    obtain ⟨c, hc, hbelow, hagree⟩ := hchanged.shares b ho
    rw [List.mem_singleton.1 hc] at hbelow
    have hold : b < h.cells.length := by
      obtain ⟨stored', hstored'⟩ := ho.below.live
      exact Heap.lt_of_node? hstored'
    have hoff : OffPath h₁ a' key b := ⟨hbelow, fun hin => by
      have hle := (hready b hin).2
      omega⟩
    obtain ⟨hbelow', hagree'⟩ := hwritten.shares b hoff
    exact ⟨a', List.mem_singleton_self a', hbelow', hagree.trans hagree'⟩
  · have hb : b ∈ versioned_tree.visited h₂ a' key := hb
    rw [hwritten.visited_eq] at hb
    exact (hready b hb).2

/-- A write through `get_mut_k` to a key that is present. -/
theorem Live.get_mut_k_some {value : V} (hl : Live h self others) (hfound : self.lookup h key = some value)
    (write : V → V) :
    ∃ after h', self.get_mut_k h key write = .ok (some value, after, h') ∧
      Mutated h self others key (some (write value)) (self.version + 1) after h' ∧
      ∀ b ∈ after.visited h' key, h.cells.length ≤ b := by
  obtain ⟨a, node, hroot, hnode, hlt, hfind⟩ := hl.root_of_lookup hfound
  have hv : Valid h (a :: others) := by
    have hv := hl.valid
    rwa [hroot] at hv
  obtain ⟨a', h₁, hpath, hchanged, hready⟩ := cow_path_to_key_spec hv hnode hlt (Nat.zero_le key.length)
    (by rw [List.drop_zero]; exact hfind)
  rw [List.drop_zero] at hchanged hready
  obtain ⟨stored, hstored, _⟩ := hchanged.stored
  obtain ⟨h₂, hget, hwritten⟩ := get_iterate_mut_cow_ready_spec write hchanged.valid hstored
    (Nat.zero_le key.length) (fun b hb => (hready b (by rwa [List.drop_zero] at hb)).1)
    (by rw [List.drop_zero]; exact hchanged.updated.here)
  rw [List.drop_zero] at hwritten
  refine ⟨⟨some a', self.version + 1⟩, h₂, ?_,
    Mutated.of_written hroot hchanged hready hstored hwritten⟩
  unfold get_mut_k
  rw [hl.get_k_eq, ok_bind, hfound]
  simp only [Option.isNone_some, Bool.false_eq_true, if_false, hroot, expect_some, ok_bind, hpath, hget,
    pure_eq_ok]

theorem Live.get_mut_k_spec (hl : Live h self others) (key : Bytes) (write : V → V) :
    ∃ after h', self.get_mut_k h key write = .ok (self.lookup h key, after, h') ∧
      Mutated h self others key ((self.lookup h key).map write)
        (if (self.lookup h key).isSome then self.version + 1 else self.version) after h' := by
  cases hfound : self.lookup h key with
  | none =>
    refine ⟨self, h, ?_, .same hl hfound⟩
    unfold get_mut_k
    rw [hl.get_k_eq, ok_bind, hfound]
    rfl
  | some value =>
    obtain ⟨after, h', hrun, hmutated, _⟩ := hl.get_mut_k_some hfound write
    exact ⟨after, h', hrun, hmutated⟩

end Writes

section Removal

/-- The node under a key that is present, where the key ends at the root. -/
theorem find_at_root {value : V} (hv : Valid h (a :: others)) (hnode : h.node? a = some node)
    (hfind : find h a key = some value) :
    (node.is_leaf = true → key = node.pfx) ∧ (node.pfx.length = key.length → key = node.pfx) ∧
      (key = node.pfx → node.value = some value) := by
  obtain ⟨rest, rfl⟩ := prefix_of_behind ((find_eq_read hv hnode key).symm.trans hfind)
  refine ⟨fun hleaf => ?_, fun hlen => ?_, fun heq => ?_⟩
  · cases rest with
    | nil => exact List.append_nil _
    | cons k rest =>
      obtain ⟨c, hc, _⟩ := lookup_of_find hv hnode hfind
      exact absurd hleaf (inner_of_lookup hv hnode hc)
  · rw [List.length_append] at hlen
    rw [List.eq_nil_of_length_eq_zero (by omega : rest.length = 0), List.append_nil]
  · rw [heq, find_self hv hnode] at hfind
    exact hfind

/-- A settled root passes the emptiness test. -/
theorem nonempty_root_eq {opt : Option Nat} (hs : Settled h a node others version key slot opt h') :
    nonempty_root h' opt = .ok (opt, h') := by
  cases hs with
  | left a' h' hchanged =>
    obtain ⟨after, hafter, _⟩ := hchanged.stored
    have hstored := hchanged.valid.sound a' after hafter
    have hnum : after.num_children = after.content.iter.length := hstored.linked.repr.num_children_eq
    unfold nonempty_root
    simp only [hafter, arc_some, ok_bind]
    rw [if_neg]
    · rfl
    · rintro ⟨_, hzero, hnone⟩
      obtain ⟨v, hvalue⟩ := hstored.occupied (List.eq_nil_of_length_eq_zero (hnum.symm.trans hzero))
      rw [hvalue] at hnone
      cases hnone
  | emptied h' hv hk hvacant honly hshares => rfl

/-- The removal of a key that is present, below a root that is no leaf. -/
theorem Live.settle_root {value : V} (hl : Live h self others) (hroot : self.root = some a)
    (hnode : h.node? a = some node) (hlt : node.version < self.version + 1)
    (hvalue : node.value = some value) :
    ∃ owned h₁ opt h', exclusive h a (self.version + 1) = .ok (owned, h₁) ∧ owned.value = some value ∧
      settle h₁ { owned with value := none } = .ok (opt, h') ∧
      Mutated h self others node.pfx none (self.version + 1) ⟨opt, self.version + 1⟩ h' := by
  have hv : Valid h (a :: others) := by
    have hv := hl.valid
    rwa [hroot] at hv
  obtain ⟨owned, h₁, howned, hex⟩ := exclusive_spec hv hnode hlt
  obtain ⟨opt, h', hsettle, hsettled⟩ := settle_spec (hex.set_value none)
  exact ⟨owned, h₁, opt, h', howned, hex.copy.value_eq.trans hvalue, hsettle, .of_settled hroot hsettled⟩

/-- The removal of the only key. -/
theorem Mutated.leaf_removed (hv : Valid h (a :: others)) (hroot : self.root = some a)
    (hnode : h.node? a = some node) (hleaf : node.is_leaf = true) (hkey : key = node.pfx)
    (hv' : Valid h' others) (hk : Keeps h h' others) :
    Mutated h self others key none version ⟨none, version⟩ h' := by
  rw [hkey]
  exact .of_settled hroot (Settled.leaf hv hnode hleaf hv' hk)

theorem Live.remove_k_spec (hl : Live h self others) (key : Bytes) :
    ∃ after h', self.remove_k h key = .ok (self.lookup h key, after, h') ∧
      Mutated h self others key none
        (if (self.lookup h key).isSome then self.version + 1 else self.version) after h' := by
  cases hfound : self.lookup h key with
  | none =>
    refine ⟨self, h, ?_, .same hl hfound⟩
    unfold remove_k
    rw [hl.get_k_eq, ok_bind, hfound]
    rfl
  | some value =>
    obtain ⟨a, node, hroot, hnode, hlt, hfind⟩ := hl.root_of_lookup hfound
    have hv : Valid h (a :: others) := by
      have hv := hl.valid
      rwa [hroot] at hv
    obtain ⟨hatleaf, hatlen, hvalue⟩ := find_at_root hv hnode hfind
    unfold remove_k
    rw [hl.get_k_eq, ok_bind, hfound]
    simp only [Option.isNone_some, Bool.false_eq_true, if_false, hroot, expect_some, ok_bind, hnode, arc_some,
      length_at, usize_sub_eq_ok (Nat.zero_le _), Nat.sub_zero, Option.isSome_some, if_true]
    by_cases hleaf : node.is_leaf = true
    · have hkey := hatleaf hleaf
      have hvalue := hvalue hkey
      rw [if_pos hleaf, if_neg (by rw [hkey]; simp)]
      obtain ⟨count, hcell⟩ := Heap.node?_eq_some.1 hnode
      by_cases hone : count = 1
      · subst hone
        obtain ⟨hv₁, _, hk₁, _⟩ := hv.free hcell
        obtain ⟨h', hdrop, hv', hk'⟩ := drop_node_spec hv₁
        refine ⟨⟨none, self.version + 1⟩, h', ?_, .leaf_removed hv hroot hnode hleaf hkey hv'
          ((hk₁.subset fun b hb => List.mem_append_right _ hb).trans hk')⟩
        rw [try_unwrap_unique hcell]
        simp only [ok_bind, hdrop, pure_eq_ok, hvalue]
      · obtain ⟨hv₁, hk₁⟩ := hv.copies node.value.toList.length
        obtain ⟨h', hdrop, hv', hk', _⟩ := drop_arc_spec hv₁
        refine ⟨⟨none, self.version + 1⟩, h', ?_, .leaf_removed hv hroot hnode hleaf hkey hv'
          ((hk₁.subset fun b hb => List.mem_cons_of_mem _ hb).trans hk')⟩
        rw [try_unwrap_shared hcell hone]
        simp only [ok_bind, hdrop, pure_eq_ok]
        rw [hvalue]
    · rw [if_neg hleaf]
      by_cases hlen : node.pfx.length = key.length
      · have hkey := hatlen hlen
        obtain ⟨owned, h₁, opt, h', howned, hownedvalue, hsettle, hmutated⟩ :=
          hl.settle_root hroot hnode hlt (hvalue hkey)
        refine ⟨⟨opt, self.version + 1⟩, h', ?_, hkey ▸ hmutated⟩
        rw [if_pos hlen, howned]
        simp only [ok_bind, hsettle, pure_eq_ok, hownedvalue]
      · obtain ⟨opt, h', hrun, hsettled⟩ := remove_loop_spec (fun value => value) 1
          "prechecked key should be removable" hv hnode hlt (Nat.zero_le key.length)
          (by rw [List.drop_zero]; exact hfind)
        rw [List.drop_zero] at hsettled
        refine ⟨⟨opt, self.version + 1⟩, h', ?_, .of_settled hroot hsettled⟩
        have hrun : remove_recurse h a key 0 (self.version + 1) = _ := hrun
        rw [if_neg hlen, hrun]
        simp only [ok_bind, expect_some, nonempty_root_eq hsettled, pure_eq_ok]

theorem Live.delete_k_spec (hl : Live h self others) (key : Bytes) :
    ∃ after h', self.delete_k h key = .ok ((self.lookup h key).isSome, after, h') ∧
      Mutated h self others key none
        (if (self.lookup h key).isSome then self.version + 1 else self.version) after h' := by
  cases hfound : self.lookup h key with
  | none =>
    refine ⟨self, h, ?_, .same hl hfound⟩
    unfold delete_k
    rw [hl.get_k_eq, ok_bind, hfound]
    rfl
  | some value =>
    obtain ⟨a, node, hroot, hnode, hlt, hfind⟩ := hl.root_of_lookup hfound
    have hv : Valid h (a :: others) := by
      have hv := hl.valid
      rwa [hroot] at hv
    obtain ⟨hatleaf, hatlen, hvalue⟩ := find_at_root hv hnode hfind
    unfold delete_k
    rw [hl.get_k_eq, ok_bind, hfound]
    simp only [Option.isNone_some, Bool.false_eq_true, if_false, hroot, expect_some, ok_bind, hnode, arc_some,
      length_at, usize_sub_eq_ok (Nat.zero_le _), Nat.sub_zero, Option.isSome_some, if_true]
    by_cases hleaf : node.is_leaf = true
    · obtain ⟨h', hdrop, hv', hk', _⟩ := drop_arc_spec hv
      refine ⟨⟨none, self.version + 1⟩, h', ?_,
        .leaf_removed hv hroot hnode hleaf (hatleaf hleaf) hv' hk'⟩
      rw [if_pos hleaf, hdrop]
      simp only [ok_bind, pure_eq_ok]
    · rw [if_neg hleaf]
      by_cases hlen : node.pfx.length = key.length
      · have hkey := hatlen hlen
        obtain ⟨owned, h₁, opt, h', howned, _, hsettle, hmutated⟩ :=
          hl.settle_root hroot hnode hlt (hvalue hkey)
        refine ⟨⟨opt, self.version + 1⟩, h', ?_, hkey ▸ hmutated⟩
        rw [if_pos hlen, howned]
        simp only [ok_bind, hsettle, pure_eq_ok]
      · obtain ⟨opt, h', hrun, hsettled⟩ := remove_loop_spec (fun _ => ()) 0
          "prechecked key should be deletable" hv hnode hlt (Nat.zero_le key.length)
          (by rw [List.drop_zero]; exact hfind)
        rw [List.drop_zero] at hsettled
        refine ⟨⟨opt, self.version + 1⟩, h', ?_, .of_settled hroot hsettled⟩
        have hrun : delete_recurse h a key 0 (self.version + 1) = _ := hrun
        rw [if_neg hlen, hrun]
        simp only [ok_bind, expect_some, nonempty_root_eq hsettled, pure_eq_ok]

end Removal

section Updates

/-- A tree that is kept, on a heap that others have seen no change of. -/
theorem Mutated.kept (hl : Live h self others) (hroot : self.root = some a) (hv' : Valid h' (a :: others))
    (hk : Keeps h h' (a :: others)) (hsame : find h a key = slot) :
    Mutated h self others key slot self.version self h' := by
  have hv : Valid h (a :: others) := by
    have hv := hl.valid
    rwa [hroot] at hv
  have hagree := hk.agree a (List.mem_cons_self)
  refine ⟨⟨by rwa [hroot], fun b stored hb hstored => ?_⟩, hk.subset fun b hb => List.mem_cons_of_mem _ hb, ?_,
    fun b hb => ?_, rfl⟩
  · rw [hroot] at hb
    cases hb
    rw [hagree.node?_eq] at hstored
    exact hl.newest a stored hroot hstored
  · unfold VersionedAdaptiveRadixTree.lookup
    rw [hroot]
    refine (Updated.refl hsame).congr (fun _ => rfl) fun w => find_agree hv hv' hagree w
  · rw [hroot] at hb ⊢
    cases hb
    exact fun b ho => ⟨a, List.mem_singleton_self a, hagree.carries ho.below⟩

theorem Live.update_k_spec (hl : Live h self others) (key : Bytes) (f : Callback V Empty) :
    ∃ changed after h', self.update_k h key f =
        .ok (changed, after, [Callback.slot (self.lookup h key)], h') ∧
      (f.apply false (self.lookup h key)).1 = .ok changed ∧
      Mutated h self others key (f.apply false (self.lookup h key)).2
        (if changed then self.version + 1 else self.version) after h' := by
  obtain ⟨root, version⟩ := self
  cases root with
  | none =>
    have hsame : Mutated h ⟨none, version⟩ others key none version ⟨none, version⟩ h := .same hl rfl
    obtain ⟨vacant, occupied⟩ := f
    cases vacant with
    | error e => exact e.elim
    | ok action =>
      cases action with
      | Keep => exact ⟨false, _, _, rfl, rfl, hsame⟩
      | Remove => exact ⟨false, _, _, rfl, rfl, hsame⟩
      | Insert value => exact ⟨true, _, _, rfl, rfl, .leaf hl rfl key value (version + 1)⟩
  | some a =>
    obtain ⟨node, hnode⟩ := hl.root_live rfl
    have hlt : node.version < version + 1 := Nat.lt_succ_of_le (hl.newest a node rfl hnode)
    obtain ⟨opt, changed, h', hrun, hanswer, hupdates⟩ :=
      update_recurse_spec hl.valid hnode hlt (Nat.zero_le key.length) f []
    rw [List.drop_zero] at hrun hanswer hupdates
    refine ⟨changed, ⟨opt, if changed then version + 1 else version⟩, h', ?_, hanswer, ?_⟩
    · unfold update_k
      simp only [hrun, ok_bind, pure_eq_ok]
      rfl
    · have hslot : (f.apply false (VersionedAdaptiveRadixTree.lookup ⟨some a, version⟩ h key)).2 =
          (f.apply false (find h a key)).2 := rfl
      rw [hslot]
      cases hupdates with
      | changed opt h' hsettled => exact .of_settled rfl hsettled
      | kept h' hv' hk' hsame => exact .kept hl rfl hv' hk' hsame

/-- Two mutations of one key, where the first one has made the way to the key new. -/
theorem Mutated.trans {between : VersionedAdaptiveRadixTree V} {h₁ : Heap (VersionedNode V)}
    {slot₁ : Option V} {version₁ : Nat} (hm : Mutated h self others key slot₁ version₁ between h₁)
    (hm' : Mutated h₁ between others key slot version after h')
    (hfresh : ∀ b ∈ between.visited h₁ key, h.cells.length ≤ b) :
    Mutated h self others key slot version after h' where
  live := hm'.live
  keeps := hm.keeps.trans hm'.keeps
  updated := ⟨hm'.updated.here, fun w hw =>
    (hm'.updated.elsewhere w hw).trans (hm.updated.elsewhere w hw)⟩
  shares a hroot b ho := by
    obtain ⟨a', ha', hbelow, hagree⟩ := hm.shares a hroot b ho
    have hroot' : between.root = some a' := Option.mem_toList.1 ha'
    have hold : b < h.cells.length := by
      obtain ⟨stored, hstored⟩ := ho.below.live
      exact Heap.lt_of_node? hstored
    have hoff : OffPath h₁ a' key b := ⟨hbelow, fun hin => by
      have hle := hfresh b (by
        unfold VersionedAdaptiveRadixTree.visited
        rw [hroot']
        exact hin)
      omega⟩
    obtain ⟨c, hc, hbelow', hagree'⟩ := hm'.shares a' hroot' b hoff
    exact ⟨c, hc, hbelow', hagree.trans hagree'⟩
  version_eq := hm'.version_eq

/-- How often `try_update_k` advances the version: every step that it is made of
does so on its own. -/
def advances (update : Callback V E) : Option V → Nat
  | none =>
    match update.vacant with
    | .ok (.Insert _) => 1
    | _ => 0
  | some value =>
    match (update.occupied value).2 with
    | .ok .Keep => 1
    | _ => 2

theorem Live.try_update_k_spec (hl : Live h self others) (key : Bytes) (f : Callback V E) :
    ∃ after h', self.try_update_k h key f =
        .ok ((f.apply true (self.lookup h key)).1, after, [Callback.slot (self.lookup h key)], h') ∧
      Mutated h self others key (f.apply true (self.lookup h key)).2
        (self.version + advances f (self.lookup h key)) after h' := by
  unfold try_update_k
  rw [hl.get_k_eq, ok_bind]
  cases hfound : self.lookup h key with
  | none =>
    have hsame : Mutated h self others key none self.version self h := .same hl hfound
    obtain ⟨vacant, occupied⟩ := f
    cases vacant with
    | error e => exact ⟨self, h, rfl, hsame⟩
    | ok action =>
      cases action with
      | Keep => exact ⟨self, h, rfl, hsame⟩
      | Remove => exact ⟨self, h, rfl, hsame⟩
      | Insert value =>
        obtain ⟨after, h', hrun, hmutated⟩ := hl.insert_k_spec key value
        refine ⟨after, h', ?_, hmutated⟩
        simp only [hrun, ok_bind, pure_eq_ok]
        rfl
  | some current =>
    obtain ⟨hcopied, hlookup, _⟩ := hl.copies 1
    obtain ⟨seen, h₁, hwrite, hmutated, hfresh⟩ :=
      hcopied.get_mut_k_some ((hlookup key).trans hfound) fun value => (f.occupied value).1
    have hagain : seen.lookup h₁ key = some (f.occupied current).1 := hmutated.updated.here
    have hversion := hmutated.version_eq
    -- a second mutation of the key, after the write of the callback
    have hsecond : ∀ {slot : Option V} {after : VersionedAdaptiveRadixTree V} {h' : Heap (VersionedNode V)},
        Mutated h₁ seen others key slot (seen.version + 1) after h' →
        Mutated h self others key slot (self.version + 2) after h' := fun hm => by
      rw [hversion] at hm
      exact (hmutated.trans hm hfresh).after_copies hl
    have hwrites : ∀ value, ∃ after h', seen.get_mut_k h₁ key (fun _ => value) =
        .ok (some (f.occupied current).1, after, h') ∧
        Mutated h self others key (some value) (self.version + 2) after h' := fun value => by
      obtain ⟨after, h', hrun, hmutated', _⟩ := hmutated.live.get_mut_k_some hagain fun _ => value
      exact ⟨after, h', hrun, hsecond hmutated'⟩
    dsimp only
    rw [hwrite, ok_bind]
    simp only [expect_some, ok_bind, Callback.apply, advances]
    generalize hleft : f.occupied current = left at *
    obtain ⟨left, answer⟩ := left
    cases answer with
    | error e =>
      obtain ⟨after, h', hrun, hmutated'⟩ := hwrites current
      refine ⟨after, h', ?_, hmutated'⟩
      simp only [hrun, ok_bind, expect_some, pure_eq_ok]
      rfl
    | ok action =>
      cases action with
      | Keep => exact ⟨seen, h₁, rfl, hmutated.after_copies hl⟩
      | Remove =>
        obtain ⟨after, h', hrun, hmutated'⟩ := hmutated.live.delete_k_spec key
        rw [hagain] at hrun hmutated'
        refine ⟨after, h', ?_, hsecond hmutated'⟩
        simp only [hrun, ok_bind, pure_eq_ok]
        rfl
      | Insert value =>
        obtain ⟨after, h', hrun, hmutated'⟩ := hwrites value
        refine ⟨after, h', ?_, hmutated'⟩
        simp only [hrun, ok_bind, expect_some, pure_eq_ok]
        rfl

end Updates

end rart.versioned_tree
