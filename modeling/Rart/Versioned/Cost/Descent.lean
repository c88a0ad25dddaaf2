import Rart.Versioned.InPlace.Trees

open SortedAssoc RcHeap Words LexOrder
open RcHeap.Heap (Valid Keeps Agree Spends)
open rart.mapping rart.node rart.partials rart.utils

namespace rart.versioned_tree

open VersionedAdaptiveRadixTree

variable {V E R : Type}

section Primitives

variable {h h' : Heap (VersionedNode V)} {a : Nat} {node after : VersionedNode V} {version : Nat}

/-- Dropping costs nothing. -/
theorem spends_drop_arc (hdrop : drop_arc h a = .ok h') : Spends h h' 0 := Heap.spends_dropAll (arc_eq_ok hdrop)

theorem spends_drop_node (hdrop : drop_node h node = .ok h') : Spends h h' 0 :=
  Heap.spends_dropAll (arc_eq_ok hdrop)

theorem spends_drop_opt {opt : Option Nat} (hdrop : drop_opt h opt = .ok h') : Spends h h' 0 :=
  Heap.spends_dropAll (arc_eq_ok hdrop)

theorem spends_try_unwrap (hunwrap : try_unwrap h a = .ok (some (node, h'))) : Spends h h' 0 :=
  Heap.spends_take (arc_eq_ok hunwrap)

/-- A node that is left is stored. -/
theorem spends_settle {opt : Option Nat} (hsettle : settle h node = .ok (opt, h')) : Spends h h' 1 := by
  unfold settle at hsettle
  split at hsettle
  · obtain ⟨h₁, hdrop, hend⟩ := bind_eq_ok_iff.1 hsettle
    cases hend
    exact (spends_drop_node hdrop).mono (Nat.zero_le 1)
  · cases hsettle
    exact Heap.spends_alloc h node

variable [Features]

/-- The node is copied. -/
theorem spends_cow_clone_inner (hclone : node.cow_clone_inner h version = .ok (after, h')) : Spends h h' 1 := by
  unfold VersionedNode.cow_clone_inner at hclone
  obtain ⟨content, _, hclone⟩ := bind_eq_ok_iff.1 hclone
  obtain ⟨h₁, hclones, hend⟩ := bind_eq_ok_iff.1 hclone
  cases hend
  exact (Heap.spends_cloneAll (arc_eq_ok hclones)).trans (Heap.spends_copies h₁ 1)

theorem length_cow_clone_inner (hclone : node.cow_clone_inner h version = .ok (after, h')) :
    h'.cells.length ≤ h.cells.length := by
  unfold VersionedNode.cow_clone_inner at hclone
  obtain ⟨content, _, hclone⟩ := bind_eq_ok_iff.1 hclone
  obtain ⟨h₁, hclones, hend⟩ := bind_eq_ok_iff.1 hclone
  cases hend
  exact (Heap.spends_cloneAll (arc_eq_ok hclones)).length_le

/-- A node that grows clones its value, if it has one. -/
theorem spends_grow_if_full (hgrow : node.grow_if_full h = .ok (after, h')) : Spends h h' 1 := by
  unfold VersionedNode.grow_if_full at hgrow
  split at hgrow
  · obtain ⟨⟨grown, h₁⟩, hgrown, hgrow⟩ := bind_eq_ok_iff.1 hgrow
    obtain ⟨h₂, hdrop, hend⟩ := bind_eq_ok_iff.1 hgrow
    cases hend
    unfold VersionedNode.grow at hgrown
    obtain ⟨content, _, hgrown⟩ := bind_eq_ok_iff.1 hgrown
    obtain ⟨h₃, hclones, hend⟩ := bind_eq_ok_iff.1 hgrown
    cases hend
    have hone : node.value.toList.length ≤ 1 := by cases node.value <;> simp
    exact (((Heap.spends_cloneAll (arc_eq_ok hclones)).trans (Heap.spends_copies h₃ _)).trans
      (spends_drop_node hdrop)).mono (by omega)
  · cases hgrow
    exact (Spends.refl h).mono (Nat.zero_le 1)

/-- The node may grow. -/
theorem spends_add_child {k : UInt8} {c : Nat} (hadd : node.add_child h k c = .ok (after, h')) :
    Spends h h' 1 := by
  unfold VersionedNode.add_child at hadd
  obtain ⟨⟨grown, h₁⟩, hgrow, hadd⟩ := bind_eq_ok_iff.1 hadd
  obtain ⟨content, _, hend⟩ := bind_eq_ok_iff.1 hadd
  cases hend
  exact spends_grow_if_full hgrow

theorem spends_add_child_opt {k : UInt8} {opt : Option Nat} (hadd : add_child_opt node h k opt = .ok (after, h')) :
    Spends h h' 1 := by
  cases opt with
  | none =>
    cases hadd
    exact (Spends.refl h).mono (Nat.zero_le 1)
  | some c => exact spends_add_child hadd

/-- A node that is taken over is copied once at most, and put into one new cell at most. -/
theorem spends_ensure_cow_node {b : Nat} (hensure : ensure_cow_node h a version = .ok (b, h')) :
    Spends h h' 1 := by
  unfold ensure_cow_node at hensure
  obtain ⟨borrowed, _, hensure⟩ := bind_eq_ok_iff.1 hensure
  split at hensure
  · cases hensure
    exact (Heap.spends_note h a).mono (Nat.zero_le 1)
  · obtain ⟨unwrapped, hmoved, hensure⟩ := bind_eq_ok_iff.1 hensure
    cases unwrapped with
    | some owned =>
      cases hensure
      exact (spends_try_unwrap hmoved).trans (Heap.spends_alloc _ _)
    | none =>
      obtain ⟨⟨cloned, h₁⟩, hclone, hensure⟩ := bind_eq_ok_iff.1 hensure
      obtain ⟨h₂, hdrop, hend⟩ := bind_eq_ok_iff.1 hensure
      cases hend
      have hdropped : Spends (h₁.alloc cloned).2 h' 0 := spends_drop_arc hdrop
      have hcells := length_cow_clone_inner hclone
      have hcopies := (spends_cow_clone_inner hclone).copied_le
      have hnew := (Heap.spends_alloc h₁ cloned).length_le
      exact ⟨Nat.le_trans hdropped.copied_le hcopies, by have := hdropped.length_le; omega⟩

/-- The node is copied or moved, to a new cell either way. -/
theorem spends_exclusive (hexclusive : exclusive h a version = .ok (after, h')) : Spends h h' 1 := by
  unfold exclusive at hexclusive
  obtain ⟨⟨new_node, h₁⟩, hensure, hexclusive⟩ := bind_eq_ok_iff.1 hexclusive
  obtain ⟨unwrapped, hunwrap, hend⟩ := bind_eq_ok_iff.1 hexclusive
  cases unwrapped with
  | none => cases hend
  | some owned =>
    cases hend
    exact (spends_ensure_cow_node hensure).trans (spends_try_unwrap hunwrap)

/-- A copy that is given a cell. -/
theorem spends_shortened_copy {pfx : Bytes} {b : Nat} (hcopy : shortened_copy h node pfx version = .ok (b, h')) :
    Spends h h' 2 := by
  unfold shortened_copy at hcopy
  obtain ⟨⟨existing, h₁⟩, hclone, hend⟩ := bind_eq_ok_iff.1 hcopy
  cases hend
  exact (spends_cow_clone_inner hclone).trans (Heap.spends_alloc h₁ _)

/-- The shortened copy, and its new parent. -/
theorem spends_insert_above {n b : Nat} {value : V} (hinsert : insert_above h a n value version = .ok (b, h')) :
    Spends h h' 4 := by
  unfold insert_above at hinsert
  obtain ⟨node, _, hinsert⟩ := bind_eq_ok_iff.1 hinsert
  obtain ⟨_, _, hinsert⟩ := bind_eq_ok_iff.1 hinsert
  obtain ⟨_, _, hinsert⟩ := bind_eq_ok_iff.1 hinsert
  obtain ⟨_, _, hinsert⟩ := bind_eq_ok_iff.1 hinsert
  obtain ⟨⟨existing, h₁⟩, hcopy, hinsert⟩ := bind_eq_ok_iff.1 hinsert
  obtain ⟨⟨parent, h₂⟩, hadd, hinsert⟩ := bind_eq_ok_iff.1 hinsert
  obtain ⟨h₃, hdrop, hend⟩ := bind_eq_ok_iff.1 hinsert
  cases hend
  exact (((spends_shortened_copy hcopy).trans (spends_add_child hadd)).trans (Heap.spends_alloc h₂ parent)).trans
    (spends_drop_arc hdrop)

/-- The shortened copy, the new leaf, and their parent. -/
theorem spends_insert_split {n b depth : Nat} {key : Bytes} {value : V}
    (hinsert : insert_split h a key value depth n version = .ok (b, h')) : Spends h h' 4 := by
  unfold insert_split at hinsert
  obtain ⟨node, _, hinsert⟩ := bind_eq_ok_iff.1 hinsert
  obtain ⟨_, _, hinsert⟩ := bind_eq_ok_iff.1 hinsert
  obtain ⟨_, _, hinsert⟩ := bind_eq_ok_iff.1 hinsert
  obtain ⟨_, _, hinsert⟩ := bind_eq_ok_iff.1 hinsert
  obtain ⟨_, _, hinsert⟩ := bind_eq_ok_iff.1 hinsert
  obtain ⟨⟨existing, h₁⟩, hcopy, hinsert⟩ := bind_eq_ok_iff.1 hinsert
  obtain ⟨leaf, _, hinsert⟩ := bind_eq_ok_iff.1 hinsert
  obtain ⟨_, _, hinsert⟩ := bind_eq_ok_iff.1 hinsert
  obtain ⟨_, _, hinsert⟩ := bind_eq_ok_iff.1 hinsert
  obtain ⟨h₃, hdrop, hend⟩ := bind_eq_ok_iff.1 hinsert
  cases hend
  exact (((spends_shortened_copy hcopy).trans (Heap.spends_alloc h₁ _)).trans (Heap.spends_alloc _ _)).trans
    (spends_drop_arc hdrop)

/-- The leaf, and the node that is made exclusive, may grow and is stored. -/
theorem spends_insert_leaf {b depth : Nat} {key : Bytes} {value : V}
    (hinsert : insert_leaf h a key value depth version = .ok (b, h')) : Spends h h' 4 := by
  unfold insert_leaf at hinsert
  obtain ⟨edge, _, hinsert⟩ := bind_eq_ok_iff.1 hinsert
  obtain ⟨leaf, _, hinsert⟩ := bind_eq_ok_iff.1 hinsert
  obtain ⟨⟨owned, h₁⟩, howned, hinsert⟩ := bind_eq_ok_iff.1 hinsert
  obtain ⟨⟨parent, h₂⟩, hadd, hend⟩ := bind_eq_ok_iff.1 hinsert
  cases hend
  exact (((Heap.spends_alloc h _).trans (spends_exclusive howned)).trans (spends_add_child hadd)).trans
    (Heap.spends_alloc h₂ parent)

/-- The node is made exclusive, gets its child back and is stored. -/
theorem spends_swap_child {k : UInt8} {new_child opt : Option Nat}
    (hswap : swap_child h a version k new_child = .ok (opt, h')) : Spends h h' 3 := by
  unfold swap_child at hswap
  obtain ⟨⟨owned, h₁⟩, howned, hswap⟩ := bind_eq_ok_iff.1 hswap
  obtain ⟨⟨old, left⟩, _, hswap⟩ := bind_eq_ok_iff.1 hswap
  obtain ⟨⟨parent, h₂⟩, hadd, hswap⟩ := bind_eq_ok_iff.1 hswap
  obtain ⟨⟨_, h₃⟩, hsettle, hswap⟩ := bind_eq_ok_iff.1 hswap
  obtain ⟨h₄, hdrop, hend⟩ := bind_eq_ok_iff.1 hswap
  cases hend
  exact (((spends_exclusive howned).trans (spends_add_child_opt hadd)).trans (spends_settle hsettle)).trans
    (spends_drop_opt hdrop)

end Primitives

section Descent

variable {h h' : Heap (VersionedNode V)} {roots : List Nat} {a : Nat} {node : VersionedNode V} {version : Nat}
  {key : Bytes} {depth : Nat}

/-- How many nodes a descent meets at most, from a node on, with so many bytes of the key left. -/
def VersionedNode.reach (node : VersionedNode V) (left : Nat) : Nat := left + if node.pfx = [] then 2 else 1

/-- A descent meets one node at least. -/
theorem reach_pos (node : VersionedNode V) (left : Nat) : 0 < node.reach left := by
  unfold VersionedNode.reach
  split <;> omega

/-- A descent meets no more nodes than the key has bytes left, and two. -/
theorem reach_le (node : VersionedNode V) (left : Nat) : node.reach left ≤ left + 2 := by
  unfold VersionedNode.reach
  split <;> omega

/-- Only the root may have an empty prefix: every other node takes a byte of the key at least. -/
theorem reach_child {child : VersionedNode V} {left : Nat} (hchild : child.pfx ≠ [])
    (hle : depth + node.pfx.length ≤ left) :
    child.reach (left - (depth + node.pfx.length)) < node.reach (left - depth) := by
  unfold VersionedNode.reach
  rw [if_neg hchild]
  split
  · rename_i hempty
    rw [hempty, List.length_nil]
    omega
  · rename_i hpfx
    have hpos := List.length_pos_of_ne_nil hpfx
    omega

variable [Features]

/-- One step down: the node is taken over, its child is taken out. -/
structure Enters (h : Heap (VersionedNode V)) (a : Nat) (node : VersionedNode V) (roots : List Nat)
    (version : Nat) (k : UInt8) (c : Nat) (owned left : VersionedNode V) (h₁ : Heap (VersionedNode V))
    (child : VersionedNode V) : Prop where
  exclusive_eq : exclusive h a version = .ok (owned, h₁)
  delete_eq : owned.delete_child k = .ok (some c, left)
  copy : Copy node owned version
  older : c < a
  child_eq : h₁.node? c = some child
  child_pfx : child.pfx ≠ []
  child_version : child.version < version
  valid : Valid h₁ (c :: (handles left ++ roots))
  find_eq : ∀ key, find h₁ c key = find h c key

/-- A descent that goes on makes its node exclusive. -/
theorem enters {k : UInt8} {c : Nat} (hv : Valid h (a :: roots)) (hnode : h.node? a = some node)
    (hlt : node.version < version) (hc : node.content.iter.lookup k = some c) :
    ∃ owned left h₁ child, Enters h a node roots version k c owned left h₁ child := by
  obtain ⟨owned, h₁, howned, hex⟩ := exclusive_spec hv hnode hlt
  have hc' : owned.content.iter.lookup k = some c := by rw [hex.copy.iter_eq, hc]
  obtain ⟨left, hdelete, hdetached⟩ := delete_child_spec hex.held hc'
  obtain ⟨hless, child, hchild, hhead, hversion⟩ := hex.older (k, c) (mem_of_lookup hc')
  have hpfx : child.pfx ≠ [] := fun hempty => by
    rw [hempty] at hhead
    cases hhead
  exact ⟨owned, left, h₁, child, howned, hdelete, hex.copy, hless, hchild, hpfx, hversion,
    hdetached.held.valid.perm List.perm_middle.symm,
    find_agree hv hex.held.valid (hex.agree_of_lookup hc')⟩

/-- An insertion: four nodes for every node that it meets. -/
theorem spends_insert_recurse {a' : Nat} {value : V} {replaced : Bool} {out out' : Option (Option V)}
    (hv : Valid h (a :: roots)) (hnode : h.node? a = some node) (hlt : node.version < version)
    (hdepth : depth ≤ key.length)
    (hrun : insert_recurse h a key value depth version out = .ok (a', replaced, out', h')) :
    Spends h h' (4 * node.reach (key.length - depth)) := by
  induction a using Nat.strongRecOn generalizing h h' roots node depth a' replaced out' with
  | ind a ih =>
    have hpos := reach_pos node (key.length - depth)
    rw [insert_recurse, hnode, arc_some, ok_bind, prefix_length_key_eq_ok hdepth, ok_bind, length_at,
      usize_sub_eq_ok hdepth, ok_bind] at hrun
    dsimp only at hrun
    cases arrival node.pfx key depth with
    | ends hkey hends =>
      rw [if_pos hends] at hrun
      obtain ⟨⟨owned, h₁⟩, howned, hend⟩ := bind_eq_ok_iff.1 hrun
      cases hend
      exact ((spends_exclusive howned).trans (Heap.spends_alloc h₁ _)).mono (by omega)
    | goes_on k s hkey hlcp hmore hbelow hmatch hk hrest hdepth' =>
      rw [if_neg hmore, if_neg hbelow, if_neg hmatch] at hrun
      split at hrun
      · obtain ⟨⟨b, h₁⟩, hinsert, hend⟩ := bind_eq_ok_iff.1 hrun
        cases hend
        exact (spends_insert_leaf hinsert).mono (by omega)
      · rw [hk, ok_bind] at hrun
        cases hlookup : node.content.iter.lookup k with
        | none =>
          obtain ⟨⟨owned, h₁⟩, howned, hrun⟩ := bind_eq_ok_iff.1 hrun
          obtain ⟨owned', h₁', howned', hex⟩ := exclusive_spec hv hnode hlt
          rw [howned, Except.ok.injEq, Prod.mk.injEq] at howned'
          obtain ⟨rfl, rfl⟩ := howned'
          have hnone : owned.content.iter.lookup k = none := by rw [hex.copy.iter_eq, hlookup]
          dsimp only at hrun
          rw [VersionedNode.delete_child_none hex.held.linked.repr hnone, ok_bind] at hrun
          obtain ⟨leaf, _, hrun⟩ := bind_eq_ok_iff.1 hrun
          obtain ⟨⟨parent, h₂⟩, hadd, hend⟩ := bind_eq_ok_iff.1 hrun
          cases hend
          exact ((((spends_exclusive howned).trans (Heap.spends_alloc h₁ _)).trans
            (spends_add_child hadd)).trans (Heap.spends_alloc h₂ parent)).mono (by omega)
        | some b =>
          obtain ⟨owned, left, h₁, child, he⟩ := enters hv hnode hlt hlookup
          rw [he.exclusive_eq, ok_bind] at hrun
          dsimp only at hrun
          rw [he.delete_eq, ok_bind] at hrun
          dsimp only at hrun
          rw [if_pos he.older] at hrun
          obtain ⟨⟨child', replaced', out₁, h₂⟩, hrec, hrun⟩ := bind_eq_ok_iff.1 hrun
          obtain ⟨⟨parent, h₃⟩, hadd, hend⟩ := bind_eq_ok_iff.1 hrun
          cases hend
          have hspent := ih b he.older he.valid he.child_eq he.child_version hdepth' hrec
          have hless := reach_child he.child_pfx hdepth'
          exact ((((spends_exclusive he.exclusive_eq).trans hspent).trans (spends_add_child hadd)).trans
            (Heap.spends_alloc h₃ parent)).mono (by omega)
    | above k p hpfx hnot hlcp hmore habove =>
      rw [if_neg hmore, if_pos habove] at hrun
      obtain ⟨⟨b, h₁⟩, hinsert, hend⟩ := bind_eq_ok_iff.1 hrun
      cases hend
      exact (spends_insert_above hinsert).mono (by omega)
    | splits c p s k₁ k₂ hne hpfx hkey hnot hlcp hmore hbelow hsplit =>
      rw [if_neg hmore, if_neg hbelow, if_pos hsplit] at hrun
      obtain ⟨⟨b, h₁⟩, hinsert, hend⟩ := bind_eq_ok_iff.1 hrun
      cases hend
      exact (spends_insert_split hinsert).mono (by omega)

/-- A removal: four nodes for every node that it meets, be the value in a leaf or not. -/
theorem spends_remove_loop {taken : V → R} {clones : Nat} {message : String} {r : Option (Option Nat × R)}
    (hv : Valid h (a :: roots)) (hnode : h.node? a = some node) (hlt : node.version < version)
    (hdepth : depth ≤ key.length) (hclones : clones ≤ 1)
    (hrun : remove_loop taken clones message h a key depth version = .ok (r, h')) :
    Spends h h' (4 * node.reach (key.length - depth)) := by
  induction a using Nat.strongRecOn generalizing h h' roots node depth r with
  | ind a ih =>
    have hpos := reach_pos node (key.length - depth)
    rw [remove_loop, hnode, arc_some, ok_bind, prefix_length_key_eq_ok hdepth, ok_bind, length_at,
      usize_sub_eq_ok hdepth] at hrun
    cases probe.meets node.pfx hdepth with
    | diverges hne hpfx =>
      rw [if_pos hne] at hrun
      obtain ⟨h₁, hdrop, hend⟩ := bind_eq_ok_iff.1 hrun
      cases hend
      exact (spends_drop_arc hdrop).mono (Nat.zero_le _)
    | ends hpfx hlcp hlen =>
      rw [if_neg (not_not.2 hlcp), ok_bind, if_pos hlen] at hrun
      split at hrun
      · split at hrun
        · obtain ⟨h₁, hdrop, hend⟩ := bind_eq_ok_iff.1 hrun
          cases hend
          exact (spends_drop_arc hdrop).mono (Nat.zero_le _)
        · obtain ⟨h₁, hdrop, hend⟩ := bind_eq_ok_iff.1 hrun
          cases hend
          exact ((Heap.spends_copies h clones).trans (spends_drop_arc hdrop)).mono (by omega)
      · obtain ⟨⟨owned, h₁⟩, howned, hrun⟩ := bind_eq_ok_iff.1 hrun
        dsimp only at hrun
        split at hrun
        · obtain ⟨h₂, hdrop, hend⟩ := bind_eq_ok_iff.1 hrun
          cases hend
          exact ((spends_exclusive howned).trans (spends_drop_node hdrop)).mono (by omega)
        · obtain ⟨⟨opt, h₂⟩, hsettle, hend⟩ := bind_eq_ok_iff.1 hrun
          cases hend
          exact ((spends_exclusive howned).trans (spends_settle hsettle)).mono (by omega)
    | goes_on k rest hpfx hlcp hlen hk hrest hdepth' =>
      rw [if_neg (not_not.2 hlcp), ok_bind, if_neg hlen] at hrun
      split at hrun
      · obtain ⟨h₁, hdrop, hend⟩ := bind_eq_ok_iff.1 hrun
        cases hend
        exact (spends_drop_arc hdrop).mono (Nat.zero_le _)
      · rw [byte_at, hk, ok_bind] at hrun
        cases hlookup : node.content.iter.lookup k with
        | none =>
          obtain ⟨⟨owned, h₁⟩, howned, hrun⟩ := bind_eq_ok_iff.1 hrun
          obtain ⟨owned', h₁', howned', hex⟩ := exclusive_spec hv hnode hlt
          rw [howned, Except.ok.injEq, Prod.mk.injEq] at howned'
          obtain ⟨rfl, rfl⟩ := howned'
          have hnone : owned.content.iter.lookup k = none := by rw [hex.copy.iter_eq, hlookup]
          dsimp only at hrun
          rw [VersionedNode.delete_child_none hex.held.linked.repr hnone, ok_bind] at hrun
          obtain ⟨h₂, hdrop, hend⟩ := bind_eq_ok_iff.1 hrun
          cases hend
          exact ((spends_exclusive howned).trans (spends_drop_node hdrop)).mono (by omega)
        | some b =>
          obtain ⟨owned, left, h₁, child, he⟩ := enters hv hnode hlt hlookup
          dsimp only at hrun
          rw [he.exclusive_eq, ok_bind] at hrun
          dsimp only at hrun
          rw [he.delete_eq, ok_bind] at hrun
          dsimp only at hrun
          rw [if_pos he.older] at hrun
          obtain ⟨⟨result, h₂⟩, hrec, hrun⟩ := bind_eq_ok_iff.1 hrun
          obtain ⟨⟨opt, r'⟩, hexpect, hrun⟩ := bind_eq_ok_iff.1 hrun
          obtain ⟨⟨parent, h₃⟩, hadd, hrun⟩ := bind_eq_ok_iff.1 hrun
          obtain ⟨⟨_, h₄⟩, hsettle, hend⟩ := bind_eq_ok_iff.1 hrun
          cases hend
          have hbelow := ih b he.older he.valid he.child_eq he.child_version hdepth' hrec
          have hless := reach_child he.child_pfx hdepth'
          exact ((((spends_exclusive he.exclusive_eq).trans hbelow).trans (spends_add_child_opt hadd)).trans
            (spends_settle hsettle)).mono (by omega)

theorem spends_cow_path_to_key {opt : Option Nat} (hv : Valid h (a :: roots)) (hnode : h.node? a = some node)
    (hlt : node.version < version) (hdepth : depth ≤ key.length)
    (hrun : cow_path_to_key h a key depth version = .ok (opt, h')) :
    Spends h h' (4 * node.reach (key.length - depth)) := by
  induction a using Nat.strongRecOn generalizing h h' roots node depth opt with
  | ind a ih =>
    have hpos := reach_pos node (key.length - depth)
    rw [cow_path_to_key, hnode, arc_some, ok_bind, prefix_length_key_eq_ok hdepth, ok_bind, length_at,
      usize_sub_eq_ok hdepth] at hrun
    obtain ⟨owned, h₁, howned, hex⟩ := exclusive_spec hv hnode hlt
    have hspent := spends_exclusive howned
    cases probe.meets node.pfx hdepth with
    | diverges hne hpfx =>
      rw [if_pos hne] at hrun
      obtain ⟨h₂, hdrop, hend⟩ := bind_eq_ok_iff.1 hrun
      cases hend
      exact (spends_drop_arc hdrop).mono (Nat.zero_le _)
    | ends hpfx hlcp hlen =>
      rw [if_neg (not_not.2 hlcp), howned, ok_bind] at hrun
      dsimp only at hrun
      rw [ok_bind, hex.copy.pfx_eq, if_pos hlen] at hrun
      split at hrun
      · obtain ⟨h₂, hdrop, hend⟩ := bind_eq_ok_iff.1 hrun
        cases hend
        exact (hspent.trans (spends_drop_node hdrop)).mono (by omega)
      · cases hrun
        exact (hspent.trans (Heap.spends_alloc h₁ owned)).mono (by omega)
    | goes_on k rest hpfx hlcp hlen hk hrest hdepth' =>
      rw [if_neg (not_not.2 hlcp), howned, ok_bind] at hrun
      dsimp only at hrun
      rw [ok_bind, hex.copy.pfx_eq, if_neg hlen] at hrun
      split at hrun
      · obtain ⟨h₂, hdrop, hend⟩ := bind_eq_ok_iff.1 hrun
        cases hend
        exact (hspent.trans (spends_drop_node hdrop)).mono (by omega)
      · rw [byte_at, hk, ok_bind] at hrun
        cases hlookup : node.content.iter.lookup k with
        | none =>
          have hnone : owned.content.iter.lookup k = none := by rw [hex.copy.iter_eq, hlookup]
          rw [VersionedNode.delete_child_none hex.held.linked.repr hnone, ok_bind] at hrun
          obtain ⟨h₂, hdrop, hend⟩ := bind_eq_ok_iff.1 hrun
          cases hend
          exact (hspent.trans (spends_drop_node hdrop)).mono (by omega)
        | some b =>
          obtain ⟨owned', left, h₁', child, he⟩ := enters hv hnode hlt hlookup
          have hsame := he.exclusive_eq
          rw [howned, Except.ok.injEq, Prod.mk.injEq] at hsame
          obtain ⟨rfl, rfl⟩ := hsame
          rw [he.delete_eq, ok_bind] at hrun
          dsimp only at hrun
          rw [if_pos he.older] at hrun
          obtain ⟨⟨path, h₂⟩, hrec, hrun⟩ := bind_eq_ok_iff.1 hrun
          have hbelow := ih b he.older he.valid he.child_eq he.child_version hdepth' hrec
          have hless := reach_child he.child_pfx hdepth'
          cases path with
          | none =>
            obtain ⟨h₃, hdrop, hend⟩ := bind_eq_ok_iff.1 hrun
            cases hend
            exact ((hspent.trans hbelow).trans (spends_drop_node hdrop)).mono (by omega)
          | some b' =>
            obtain ⟨⟨parent, h₃⟩, hadd, hend⟩ := bind_eq_ok_iff.1 hrun
            cases hend
            exact (((hspent.trans hbelow).trans (spends_add_child hadd)).trans
              (Heap.spends_alloc h₃ parent)).mono (by omega)

/-- The write itself needs no node. -/
theorem spends_get_iterate_mut_cow_ready {write : V → V} {seen : Option V}
    (hrun : get_iterate_mut_cow_ready write h a key depth = .ok (seen, h')) : Spends h h' 0 := by
  induction a using Nat.strongRecOn generalizing h h' depth seen with
  | ind a ih =>
    rw [get_iterate_mut_cow_ready] at hrun
    obtain ⟨taken, htake, hrun⟩ := bind_eq_ok_iff.1 hrun
    cases taken with
    | none =>
      obtain ⟨_, hexpect, _⟩ := bind_eq_ok_iff.1 hrun
      cases hexpect
    | some taken =>
      obtain ⟨node, borrowed⟩ := taken
      have hborrowed : Spends h borrowed 0 := Heap.spends_take (arc_eq_ok htake)
      rw [expect_some, ok_bind] at hrun
      obtain ⟨common, _, hrun⟩ := bind_eq_ok_iff.1 hrun
      split at hrun
      · cases hrun
        exact .refl h
      · obtain ⟨remaining, _, hrun⟩ := bind_eq_ok_iff.1 hrun
        split at hrun
        · split at hrun
          · cases hrun
            exact .refl h
          · cases hrun
            exact hborrowed.trans (Heap.spends_setCell borrowed a _)
        · obtain ⟨k, _, hrun⟩ := bind_eq_ok_iff.1 hrun
          split at hrun
          · cases hrun
            exact .refl h
          · split at hrun
            · rename_i hless
              obtain ⟨⟨value, h₁⟩, hrec, hend⟩ := bind_eq_ok_iff.1 hrun
              cases hend
              exact (hborrowed.trans (ih _ hless hrec)).trans (Heap.spends_setCell h₁ a _)
            · cases hrun

end Descent

section Updates

variable {h h' : Heap (VersionedNode V)} {roots : List Nat} {a : Nat} {node : VersionedNode V}
  {version : Nat} {key : Bytes} {depth : Nat} {cell cell' : UpdateCell V Empty} {opt : Option Nat}
  {changed : Bool}

/-- The callback costs nothing, and what it fills what filling costs. -/
theorem spends_fill_vacant {fill : V → Result (Nat × Heap (VersionedNode V))} {n : Nat}
    (hspends : ∀ value b h', fill value = .ok (b, h') → Spends h h' n)
    (hfill : fill_vacant h a cell fill = .ok (opt, changed, cell', h')) : Spends h h' n := by
  obtain ⟨_, rfl⟩ | ⟨_, value, b, hrun⟩ := fill_vacant_cases hfill
  · exact (Spends.refl h').mono (Nat.zero_le n)
  · exact hspends value b h' hrun

variable [Features]

theorem spends_update_occupied (hupdate : update_occupied h a version cell = .ok (opt, changed, cell', h')) :
    Spends h h' 2 := by
  unfold update_occupied at hupdate
  obtain ⟨⟨owned, h₁⟩, howned, hupdate⟩ := bind_eq_ok_iff.1 hupdate
  obtain ⟨value, _, hupdate⟩ := bind_eq_ok_iff.1 hupdate
  obtain ⟨⟨left, action, cell₁⟩, _, hupdate⟩ := bind_eq_ok_iff.1 hupdate
  have hspent := spends_exclusive howned
  cases action with
  | error e => exact e.elim
  | ok action =>
    cases action with
    | Keep =>
      cases hupdate
      exact hspent.trans (Heap.spends_alloc h₁ _)
    | Insert value' =>
      cases hupdate
      exact hspent.trans (Heap.spends_alloc h₁ _)
    | Remove =>
      obtain ⟨⟨_, h₂⟩, hsettle, hend⟩ := bind_eq_ok_iff.1 hupdate
      cases hend
      exact hspent.trans (spends_settle hsettle)

/-- An update, which takes a second reference to every child on the way. -/
theorem spends_update_recurse (hv : Valid h (a :: roots)) (hnode : h.node? a = some node)
    (hlt : node.version < version) (hdepth : depth ≤ key.length)
    (hrun : update_recurse h a key depth version cell = .ok (opt, changed, cell', h')) :
    Spends h h' (4 * node.reach (key.length - depth)) := by
  induction a using Nat.strongRecOn generalizing h h' roots node depth opt changed cell' with
  | ind a ih =>
    have hpos := reach_pos node (key.length - depth)
    have hstop : 4 ≤ 4 * node.reach (key.length - depth) := by omega
    rw [update_recurse, hnode, arc_some, ok_bind, prefix_length_key_eq_ok hdepth, ok_bind, length_at,
      usize_sub_eq_ok hdepth, ok_bind] at hrun
    dsimp only at hrun
    cases arrival node.pfx key depth with
    | ends hkey hends =>
      rw [if_pos hends] at hrun
      split at hrun
      · refine spends_fill_vacant (fun value b h₂ hfill => ?_) hrun
        obtain ⟨⟨owned, h₁⟩, howned, hend⟩ := bind_eq_ok_iff.1 hfill
        cases hend
        exact ((spends_exclusive howned).trans (Heap.spends_alloc h₁ _)).mono (by omega)
      · exact (spends_update_occupied hrun).mono (by omega)
    | goes_on k s hkey hlcp hmore hbelow hmatch hk hrest hdepth' =>
      rw [if_neg hmore, if_neg hbelow, if_neg hmatch] at hrun
      split at hrun
      · exact spends_fill_vacant (fun value b h₂ hfill => (spends_insert_leaf hfill).mono hstop) hrun
      · rw [hk, ok_bind] at hrun
        have hrepr := (hv.sound a node hnode).linked.repr
        split at hrun
        · exact spends_fill_vacant (fun value b h₂ hfill => (spends_insert_leaf hfill).mono hstop) hrun
        · rename_i child hseek
          have hmem : (k, child) ∈ node.content.iter :=
            hrepr.ascending.lookup_eq_some_iff.1 ((hrepr.seek_child k).symm.trans hseek)
          have hless := hv.counted.older a node hnode child (mem_handles hmem)
          obtain ⟨stored, hstored, hhead, hversion⟩ := (hv.sound a node hnode).linked.edges (k, child) hmem
          have hstored : h.node? child = some stored := hstored
          have hchild : stored.pfx ≠ [] := fun hempty => by
            rw [hempty] at hhead
            cases hhead
          obtain ⟨h₀, hclone, hv₀, hk₀, hsame₀⟩ := hv.clone ⟨stored, hstored⟩
          rw [hclone, arc_some, ok_bind, if_pos hless] at hrun
          obtain ⟨⟨opt₁, changed₁, cell₁, h₁⟩, hrec, hrun⟩ := bind_eq_ok_iff.1 hrun
          have hspent := (Heap.spends_clone hclone).trans
            (ih child hless hv₀ ((hsame₀ child).trans hstored) (by omega) hdepth' hrec)
          have hfewer := reach_child hchild hdepth'
          cases changed₁ with
          | false =>
            obtain ⟨h₂, hdrop, hend⟩ := bind_eq_ok_iff.1 hrun
            cases hend
            exact (hspent.trans (spends_drop_opt hdrop)).mono (by omega)
          | true =>
            obtain ⟨⟨opt₂, h₂⟩, hswap, hend⟩ := bind_eq_ok_iff.1 hrun
            cases hend
            exact (hspent.trans (spends_swap_child hswap)).mono (by omega)
    | above k p hpfx hnot hlcp hmore habove =>
      rw [if_neg hmore, if_pos habove] at hrun
      exact spends_fill_vacant (fun value b h₂ hfill => (spends_insert_above hfill).mono hstop) hrun
    | splits c p s k₁ k₂ hne hpfx hkey hnot hlcp hmore hbelow hsplit =>
      rw [if_neg hmore, if_neg hbelow, if_pos hsplit] at hrun
      exact spends_fill_vacant (fun value b h₂ hfill => (spends_insert_split hfill).mono hstop) hrun

end Updates

end rart.versioned_tree
