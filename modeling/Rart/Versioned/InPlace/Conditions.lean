import Rart.Versioned.Forest

open SortedAssoc RcHeap Words LexOrder
open RcHeap.Heap (Valid Keeps Agree Below)
open rart.mapping rart.node rart.partials rart.utils

namespace rart.versioned_tree

open VersionedAdaptiveRadixTree

variable {V E R : Type}

section Conditions

/-- The value of a full node is cloned when the node grows. -/
def VersionedNode.growth (node : VersionedNode V) : Nat :=
  if node.is_full then node.value.toList.length else 0

/-- What is copied at the node where the descent for a new entry stops: the whole node
where its prefix is split, the value of a node that has to grow. -/
def VersionedNode.insertion_copies (node : VersionedNode V) (rest : Bytes) : Nat :=
  if node.pfx.isPrefixOf rest then if node.pfx = rest then 0 else node.growth
  else 1

variable [Features]

/-- What an insertion copies below a node. -/
def copies_below (h : Heap (VersionedNode V)) (a : Nat) (key : Bytes) : Nat :=
  ((stopping h a key).map fun stop => stop.1.insertion_copies stop.2).getD 0

/-- What an insertion copies. -/
def VersionedAdaptiveRadixTree.insertion_copies (tree : VersionedAdaptiveRadixTree V)
    (h : Heap (VersionedNode V)) (key : Bytes) : Nat := tree.root.elim 0 fun root => copies_below h root key

/-- The key ends in a leaf. -/
def ends_in_leaf (h : Heap (VersionedNode V)) (a : Nat) (key : Bytes) : Bool :=
  (stopping h a key).any fun stop => stop.1.is_leaf

/-- The key is stored in a leaf below the root. -/
def VersionedAdaptiveRadixTree.in_lower_leaf (tree : VersionedAdaptiveRadixTree V)
    (h : Heap (VersionedNode V)) (key : Bytes) : Bool :=
  (tree.lookup h key).isSome && decide (1 < (tree.visited h key).length) &&
    tree.root.any fun root => ends_in_leaf h root key

/-- When a mutation copies something, though nothing on the way to its key is shared. -/
def Mutation.copies (h : Heap (VersionedNode V)) (tree : VersionedAdaptiveRadixTree V) :
    Mutation V E → Prop
  | .insert_k key _ => 0 < tree.insertion_copies h key
  | .insert_and_replace_k key _ => 0 < tree.insertion_copies h key
  | .remove_k key => tree.in_lower_leaf h key = true
  | .delete_k _ => False
  | .get_mut_k _ _ => False
  | .update_k key update =>
    ((tree.lookup h key).isSome ∨ ∃ value, update.vacant = .ok (.Insert value)) ∧
      (1 < (tree.visited h key).length ∨ 0 < tree.insertion_copies h key)
  -- the old value is always cloned
  | .try_update_k _ _ => True

end Conditions

section Primitives

variable {h h' : Heap (VersionedNode V)} {a : Nat} {node after : VersionedNode V} {version : Nat}

/-- Dropping copies nothing. -/
theorem copied_drop_arc (hdrop : drop_arc h a = .ok h') : h'.copied = h.copied :=
  Heap.copied_dropAll (arc_eq_ok hdrop)

/-- Dropping copies nothing. -/
theorem copied_drop_node (hdrop : drop_node h node = .ok h') : h'.copied = h.copied :=
  Heap.copied_dropAll (arc_eq_ok hdrop)

/-- Dropping copies nothing. -/
theorem copied_drop_opt {opt : Option Nat} (hdrop : drop_opt h opt = .ok h') : h'.copied = h.copied :=
  Heap.copied_dropAll (arc_eq_ok hdrop)

/-- A node that is moved is not copied. -/
theorem copied_try_unwrap (hunwrap : try_unwrap h a = .ok (some (node, h'))) : h'.copied = h.copied := by
  obtain ⟨cell, _, htake⟩ := Option.map_eq_some_iff.1 (arc_eq_ok hunwrap)
  split at htake
  · cases htake
    rfl
  · cases htake

/-- A node that is stored is not copied. -/
theorem copied_settle {opt : Option Nat} (hsettle : settle h node = .ok (opt, h')) :
    h'.copied = h.copied := by
  unfold settle at hsettle
  split at hsettle
  · obtain ⟨h₁, hdrop, hend⟩ := bind_eq_ok_iff.1 hsettle
    cases hend
    exact copied_drop_node hdrop
  · cases hsettle
    rfl

variable [Features]

/-- A node is copied together with its value, which counts once. -/
theorem copied_cow_clone_inner (hclone : node.cow_clone_inner h version = .ok (after, h')) :
    h'.copied = h.copied + 1 := by
  unfold VersionedNode.cow_clone_inner at hclone
  obtain ⟨content, _, hclone⟩ := bind_eq_ok_iff.1 hclone
  obtain ⟨h₁, hclones, hend⟩ := bind_eq_ok_iff.1 hclone
  cases hend
  exact congrArg (fun n => n + 1) (Heap.copied_cloneAll (arc_eq_ok hclones))

/-- Adding an edge copies the value of a node that grows. -/
theorem copied_add_child {k : UInt8} {c : Nat} (hadd : node.add_child h k c = .ok (after, h')) :
    h'.copied = h.copied + node.growth := by
  unfold VersionedNode.add_child at hadd
  obtain ⟨⟨grown, h₁⟩, hgrow, hadd⟩ := bind_eq_ok_iff.1 hadd
  obtain ⟨content, _, hend⟩ := bind_eq_ok_iff.1 hadd
  cases hend
  unfold VersionedNode.growth
  unfold VersionedNode.grow_if_full at hgrow
  by_cases hempty : node.content.is_empty = true
  · have hfull : node.is_full = false := by
      obtain ⟨pfx, value, content, version⟩ := node
      cases content <;> first | rfl | cases hempty
    rw [if_pos hempty] at hgrow
    rw [hfull]
    cases hgrow
    rfl
  · rw [if_neg hempty] at hgrow
    split at hgrow
    · rename_i hfull
      obtain ⟨⟨_, h₂⟩, hgrown, hgrow⟩ := bind_eq_ok_iff.1 hgrow
      obtain ⟨h₃, hdrop, hend⟩ := bind_eq_ok_iff.1 hgrow
      cases hend
      unfold VersionedNode.grow at hgrown
      obtain ⟨_, _, hgrown⟩ := bind_eq_ok_iff.1 hgrown
      obtain ⟨h₄, hclones, hend⟩ := bind_eq_ok_iff.1 hgrown
      cases hend
      rw [if_pos hfull, copied_drop_node hdrop]
      exact congrArg (fun n => n + node.value.toList.length) (Heap.copied_cloneAll (arc_eq_ok hclones))
    · rename_i hroom
      cases hgrow
      rw [if_neg hroom, Nat.add_zero]

/-- Growing a node may clone its value. -/
theorem copied_add_child_opt {k : UInt8} {opt : Option Nat}
    (hadd : add_child_opt node h k opt = .ok (after, h')) : h.copied ≤ h'.copied := by
  cases opt with
  | none =>
    cases hadd
    exact Nat.le_refl _
  | some c =>
    have hcopied := copied_add_child hadd
    omega

/-- A node is copied once, or not at all. -/
theorem copied_exclusive_le (hexclusive : exclusive h a version = .ok (after, h')) :
    h.copied ≤ h'.copied := by
  unfold exclusive ensure_cow_node at hexclusive
  obtain ⟨⟨new_node, h₁⟩, hensure, hexclusive⟩ := bind_eq_ok_iff.1 hexclusive
  obtain ⟨unwrapped, hunwrap, hend⟩ := bind_eq_ok_iff.1 hexclusive
  cases unwrapped with
  | none => cases hend
  | some owned =>
    cases hend
    rw [copied_try_unwrap hunwrap]
    obtain ⟨borrowed, _, hensure⟩ := bind_eq_ok_iff.1 hensure
    split at hensure
    · cases hensure
      exact Nat.le_refl _
    · obtain ⟨unwrapped, hmoved, hensure⟩ := bind_eq_ok_iff.1 hensure
      cases unwrapped with
      | some owned =>
        cases hensure
        exact Nat.le_of_eq (copied_try_unwrap hmoved).symm
      | none =>
        obtain ⟨⟨cloned, h₂⟩, hclone, hensure⟩ := bind_eq_ok_iff.1 hensure
        obtain ⟨h₃, hdrop, hend⟩ := bind_eq_ok_iff.1 hensure
        cases hend
        have hcopied := copied_cow_clone_inner hclone
        rw [copied_drop_arc hdrop]
        change h.copied ≤ h₂.copied
        omega

/-- A node that others share is copied. -/
theorem copied_exclusive_shared (hnode : h.node? a = some node) (hlt : node.version < version)
    (hmany : h.count a ≠ 1) (hexclusive : exclusive h a version = .ok (after, h')) :
    h.copied < h'.copied := by
  obtain ⟨count, hcell⟩ := Heap.node?_eq_some.1 hnode
  rw [Heap.count_of_cell? hcell] at hmany
  unfold exclusive ensure_cow_node at hexclusive
  rw [hnode] at hexclusive
  simp only [arc_some, ok_bind] at hexclusive
  rw [if_neg (by omega), try_unwrap_shared hcell hmany, ok_bind] at hexclusive
  obtain ⟨⟨new_node, h₁⟩, hensure, hexclusive⟩ := bind_eq_ok_iff.1 hexclusive
  obtain ⟨unwrapped, hunwrap, hend⟩ := bind_eq_ok_iff.1 hexclusive
  cases unwrapped with
  | none => cases hend
  | some owned =>
    cases hend
    rw [copied_try_unwrap hunwrap]
    obtain ⟨⟨cloned, h₂⟩, hclone, hensure⟩ := bind_eq_ok_iff.1 hensure
    obtain ⟨h₃, hdrop, hend⟩ := bind_eq_ok_iff.1 hensure
    cases hend
    have hcopied := copied_cow_clone_inner hclone
    rw [copied_drop_arc hdrop]
    change h.copied < h₂.copied
    omega

/-- A node with one reference is moved, and nothing else happens to the heap. -/
theorem exclusive_unique (hcell : h.cell? a = some ⟨1, node⟩) (hlt : node.version < version) :
    ∃ h', exclusive h a version = .ok ({ node with version }, h') ∧ h'.copied = h.copied ∧
      ∀ b, b ≠ a → b < h.cells.length → h'.cell? b = h.cell? b := by
  have hlength := Heap.lt_of_cell? hcell
  have hmoved := cell?_alloc_self (h.setCell a none) { node with version }
  refine ⟨((h.setCell a none).alloc { node with version }).2.setCell
    ((h.setCell a none).alloc { node with version }).1 none, ?_, rfl, fun b hne hb => ?_⟩
  · unfold exclusive ensure_cow_node
    rw [Heap.node?_of_cell? hcell]
    simp only [arc_some, ok_bind]
    rw [if_neg (by omega), try_unwrap_unique hcell]
    simp only [ok_bind, pure_eq_ok]
    rw [try_unwrap_unique hmoved]
    rfl
  · have hlen : (h.setCell a none).cells.length = h.cells.length := List.length_set
    have hnew : ((h.setCell a none).alloc { node with version }).1 = h.cells.length := hlen
    rw [Heap.cell?_setCell (Heap.lt_of_cell? hmoved), if_neg (by omega), Heap.cell?_alloc, if_neg (by omega),
      Heap.cell?_setCell hlength, if_neg hne]

/-- The node below a split is a copy. -/
theorem copied_shortened_copy {pfx : Bytes} {b : Nat}
    (hcopy : shortened_copy h node pfx version = .ok (b, h')) : h'.copied = h.copied + 1 := by
  unfold shortened_copy at hcopy
  obtain ⟨⟨existing, h₁⟩, hclone, hend⟩ := bind_eq_ok_iff.1 hcopy
  cases hend
  have hcopied := copied_cow_clone_inner hclone
  exact hcopied

/-- The node below the new one is a copy. -/
theorem copied_insert_above {n b : Nat} {value : V} (hinsert : insert_above h a n value version = .ok (b, h')) :
    h'.copied = h.copied + 1 := by
  unfold insert_above at hinsert
  obtain ⟨node, _, hinsert⟩ := bind_eq_ok_iff.1 hinsert
  obtain ⟨_, _, hinsert⟩ := bind_eq_ok_iff.1 hinsert
  obtain ⟨_, _, hinsert⟩ := bind_eq_ok_iff.1 hinsert
  obtain ⟨_, _, hinsert⟩ := bind_eq_ok_iff.1 hinsert
  obtain ⟨⟨existing, h₁⟩, hcopy, hinsert⟩ := bind_eq_ok_iff.1 hinsert
  obtain ⟨⟨parent, h₂⟩, hadd, hinsert⟩ := bind_eq_ok_iff.1 hinsert
  obtain ⟨h₃, hdrop, hend⟩ := bind_eq_ok_iff.1 hinsert
  cases hend
  rw [copied_drop_arc hdrop]
  exact (copied_add_child hadd).trans (copied_shortened_copy hcopy)

/-- The node below the new one is a copy. -/
theorem copied_insert_split {n b depth : Nat} {key : Bytes} {value : V}
    (hinsert : insert_split h a key value depth n version = .ok (b, h')) : h'.copied = h.copied + 1 := by
  unfold insert_split at hinsert
  obtain ⟨node, _, hinsert⟩ := bind_eq_ok_iff.1 hinsert
  obtain ⟨_, _, hinsert⟩ := bind_eq_ok_iff.1 hinsert
  obtain ⟨_, _, hinsert⟩ := bind_eq_ok_iff.1 hinsert
  obtain ⟨_, _, hinsert⟩ := bind_eq_ok_iff.1 hinsert
  obtain ⟨_, _, hinsert⟩ := bind_eq_ok_iff.1 hinsert
  obtain ⟨⟨existing, h₁⟩, hcopy, hinsert⟩ := bind_eq_ok_iff.1 hinsert
  obtain ⟨_, _, hinsert⟩ := bind_eq_ok_iff.1 hinsert
  obtain ⟨_, _, hinsert⟩ := bind_eq_ok_iff.1 hinsert
  obtain ⟨_, _, hinsert⟩ := bind_eq_ok_iff.1 hinsert
  obtain ⟨h₃, hdrop, hend⟩ := bind_eq_ok_iff.1 hinsert
  cases hend
  have hcopied := copied_shortened_copy hcopy
  rw [copied_drop_arc hdrop]
  exact hcopied

end Primitives

section Descent

variable [Features] {h h' : Heap (VersionedNode V)} {roots : List Nat} {a : Nat} {node : VersionedNode V}
  {version : Nat} {key : Bytes} {depth : Nat}

/-- The nodes on the way to a key have one reference each. -/
def Unshared (h : Heap (VersionedNode V)) (a : Nat) (key : Bytes) : Prop := ∀ b ∈ visited h a key, h.count b = 1

/-- The first cell of an unshared descent has one reference. -/
theorem Unshared.cell (hu : Unshared h a key) (hnode : h.node? a = some node) :
    h.cell? a = some ⟨1, node⟩ := by
  obtain ⟨count, hcell⟩ := Heap.node?_eq_some.1 hnode
  have hone := hu a (mem_visited_self hnode)
  rw [Heap.count_of_cell? hcell] at hone
  rw [hcell, hone]

/-- Where a node is moved out, the references to what is below it stay as they are. -/
theorem count_visited_unique {owned : VersionedNode V} {b c : Nat} (hv : Valid h roots)
    (hcell : h.cell? a = some ⟨1, node⟩) (hlt : node.version < version)
    (hrun : exclusive h a version = .ok (owned, h')) (hless : c < a) (hb : b ∈ visited h c key) :
    h'.count b = h.count b := by
  obtain ⟨h₁, howned, _, hcells⟩ := exclusive_unique hcell hlt
  rw [hrun, Except.ok.injEq, Prod.mk.injEq] at howned
  obtain ⟨hle, stored, hstored⟩ := visited_le hv hb
  unfold Heap.count
  rw [howned.2, hcells b (by omega) (Heap.lt_of_node? hstored)]

/-- One step down a way that nobody shares: the node is moved, its child is taken out. -/
structure Descends (h : Heap (VersionedNode V)) (a : Nat) (node : VersionedNode V) (roots : List Nat)
    (version : Nat) (k : UInt8) (rest : Bytes) (c : Nat) (owned left : VersionedNode V)
    (h₁ : Heap (VersionedNode V)) : Prop where
  exclusive_eq : exclusive h a version = .ok (owned, h₁)
  delete_eq : owned.delete_child k = .ok (some c, left)
  owned_eq : owned = { node with version }
  copied_eq : h₁.copied = h.copied
  older : c < a
  child : ∃ child, h₁.node? c = some child ∧ child.version < version
  valid : Valid h₁ (c :: (handles left ++ roots))
  unshared : Unshared h₁ c (k :: rest)
  stopping_eq : stopping h₁ c (k :: rest) = stopping h a (node.pfx ++ k :: rest)
  growth_eq : left.growth = 0

/-- An unshared descent goes on unshared. -/
theorem Unshared.descends {k : UInt8} {rest : Bytes} {c : Nat} (hu : Unshared h a (node.pfx ++ k :: rest))
    (hv : Valid h (a :: roots)) (hnode : h.node? a = some node) (hlt : node.version < version)
    (hc : node.content.iter.lookup k = some c) :
    ∃ owned left h₁, Descends h a node roots version k rest c owned left h₁ := by
  obtain ⟨owned, h₁, howned, hex⟩ := exclusive_spec hv hnode hlt
  obtain ⟨h₁', howned', hcopied, _⟩ := exclusive_unique (hu.cell hnode) hlt
  rw [howned, Except.ok.injEq, Prod.mk.injEq] at howned'
  obtain ⟨rfl, rfl⟩ := howned'
  have hc' : ({ node with version } : VersionedNode V).content.iter.lookup k = some c := hc
  obtain ⟨left, hdelete, hdetached⟩ := delete_child_spec hex.held hc'
  obtain ⟨hless, child, hchild, _, hversion⟩ := hex.older (k, c) (mem_of_lookup hc')
  have hagree : Agree h h₁ c := hex.agree_of_lookup hc'
  refine ⟨_, left, h₁, howned, hdelete, rfl, hcopied, hless, ⟨child, hchild, hversion⟩,
    hdetached.held.valid.perm List.perm_middle.symm, fun b hb => ?_, ?_, ?_⟩
  · rw [visited_agree hv hex.held.valid hagree] at hb
    rw [count_visited_unique hv (hu.cell hnode) hlt howned hless hb]
    refine hu b ?_
    rw [visited_goes_on hv hnode hc]
    exact List.mem_cons_of_mem _ hb
  · rw [stopping_goes_on hv hnode hc, stopping_agree hv hex.held.valid hagree]
  · unfold VersionedNode.growth
    rw [hdetached.room]
    rfl

end Descent

end rart.versioned_tree
