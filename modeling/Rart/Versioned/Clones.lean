import Rart.Versioned.InPlace.Trees

open SortedAssoc RcHeap Words LexOrder
open RcHeap.Heap (Valid Keeps Agree Below)
open rart.mapping rart.node rart.partials rart.utils

namespace rart.versioned_tree

open VersionedAdaptiveRadixTree

variable {V E : Type}

/-- The values that a deletion cloned on its way, each with the key it is stored under. -/
abbrev Clones (V : Type) := List (Bytes × V)

section Traces

/-- `self.value.clone()`, in the node that the key `path` ends in. -/
def VersionedNode.value_clone (self : VersionedNode V) (path : Bytes) : Clones V :=
  self.value.toList.map fun value => (path, value)

variable [Features]

/-- The value is cloned with the node. -/
def VersionedNode.cow_clone_inner_traced (self : VersionedNode V) (h : Heap (VersionedNode V))
    (new_version : Nat) (path : Bytes) : Result (Clones V × VersionedNode V × Heap (VersionedNode V)) := do
  let (copy, h) ← self.cow_clone_inner h new_version
  return (self.value_clone path, copy, h)

/-- A value is cloned where the node is shared. -/
def ensure_cow_node_traced (h : Heap (VersionedNode V)) (node target_version : Nat) (path : Bytes) :
    Result (Clones V × Nat × Heap (VersionedNode V)) := do
  let borrowed ← arc (h.node? node)
  if borrowed.version = target_version then return ([], node, h.note node)
  else
    match ← try_unwrap h node with
    | some (owned_node, h) => return ([], h.alloc { owned_node with version := target_version })
    | none =>
      let (clones, cloned, h) ← borrowed.cow_clone_inner_traced h target_version path
      let (new_node, h) := h.alloc cloned
      return (clones, new_node, ← drop_arc h node)

/-- `exclusive`, with what `ensure_cow_node` clones. -/
def exclusive_traced (h : Heap (VersionedNode V)) (node version : Nat) (path : Bytes) :
    Result (Clones V × VersionedNode V × Heap (VersionedNode V)) := do
  let (clones, new_node, h) ← ensure_cow_node_traced h node version path
  match ← try_unwrap h new_node with
  | some owned => return (clones, owned)
  | none => throw (.panic "ensure_cow_node should have given us exclusive ownership")

/-- A value is cloned where the node grows. -/
def VersionedNode.add_child_traced (self : VersionedNode V) (h : Heap (VersionedNode V)) (key : UInt8)
    (child : Nat) (path : Bytes) : Result (Clones V × VersionedNode V × Heap (VersionedNode V)) := do
  let self := if self.content.is_empty then { self with content := .Node4 .new } else self
  -- a node that is full is copied into a larger one, its value is cloned
  let clones := if self.is_full then self.value_clone path else []
  let (self, h) ← self.grow_if_full h
  return (clones, { self with content := ← self.content.add_child key child }, h)

/-- A child that a removal left, if any. -/
def add_child_opt_traced (new_node_mut : VersionedNode V) (h : Heap (VersionedNode V)) (k : UInt8)
    (new_child_opt : Option Nat) (path : Bytes) :
    Result (Clones V × VersionedNode V × Heap (VersionedNode V)) :=
  match new_child_opt with
  | some new_child => new_node_mut.add_child_traced h k new_child path
  | none => return ([], new_node_mut, h)

/-- The clones of the node, then those below, then those of growing it back. -/
def delete_recurse_traced (h : Heap (VersionedNode V)) (cur_node : Nat) (key : Bytes) (depth version : Nat) :
    Result (Clones V × Option (Option Nat × Unit) × Heap (VersionedNode V)) := do
  let node ← arc (h.node? cur_node)
  let prefix_common_match ← prefix_length_key node.pfx key depth
  if prefix_common_match ≠ node.pfx.length then return ([], none, ← drop_arc h cur_node)
  else
    let remaining ← length_at key depth
    let path := key.take depth ++ node.pfx
    if node.pfx.length = remaining then
      if node.is_leaf then
        match node.value with
        | none => return ([], none, ← drop_arc h cur_node)
        | some _ => return ([], some (none, ()), ← drop_arc h cur_node)
      else
        let (clones, new_node, h) ← exclusive_traced h cur_node version path
        match new_node.value with
        | none => return (clones, none, ← drop_node h new_node)
        | some _ =>
          let (new_node, h) ← settle h { new_node with value := none }
          return (clones, some (new_node, ()), h)
    else if node.is_leaf then return ([], none, ← drop_arc h cur_node)
    else
      let k ← byte_at key (depth + node.pfx.length)
      let prefix_len := node.pfx.length
      let (clones, new_node_mut, h) ← exclusive_traced h cur_node version path
      let (child, new_node_mut) ← new_node_mut.delete_child k
      match child with
      | none => return (clones, none, ← drop_node h new_node_mut)
      | some child =>
        if child < cur_node then
          let (below, result, h) ← delete_recurse_traced h child key (depth + prefix_len) version
          let (new_child_opt, _) ← expect result "prechecked key should be deletable"
          let (grown, new_node_mut, h) ← add_child_opt_traced new_node_mut h k new_child_opt path
          let (new_node, h) ← settle h new_node_mut
          return (clones ++ below ++ grown, some (new_node, ()), h)
        else throw .out_of_fuel
termination_by cur_node

/-- `delete_k`, with the values that are cloned on the way. -/
def VersionedAdaptiveRadixTree.delete_k_traced (self : VersionedAdaptiveRadixTree V)
    (h : Heap (VersionedNode V)) (key : Bytes) :
    Result (Clones V × Bool × VersionedAdaptiveRadixTree V × Heap (VersionedNode V)) := do
  let found ← self.get_k h key
  if found.isNone then return ([], false, self, h)
  else
    let version := self.version + 1
    let root ← expect self.root "non-empty tree checked before delete mutation"
    let node ← arc (h.node? root)
    let remaining ← length_at key 0
    if node.is_leaf then return ([], true, ⟨none, version⟩, ← drop_arc h root)
    else if node.pfx.length = remaining then
      let (clones, new_root, h) ← exclusive_traced h root version node.pfx
      let (new_root, h) ← settle h { new_root with value := none }
      return (clones, true, ⟨new_root, version⟩, h)
    else
      let (clones, result, h) ← delete_recurse_traced h root key 0 version
      let (new_root, _) ← expect result "prechecked key should be deletable"
      let (new_root, h) ← nonempty_root h new_root
      return (clones, true, ⟨new_root, version⟩, h)

end Traces

section Untraced

variable {α β γ : Type} [Features]

omit [Features] in
/-- A sequence without its trace is the sequence without traces. -/
theorem untraced_bind {x : Result (Clones V × α)} {y : Result α} {f : Clones V × α → Result (Clones V × β)}
    {g : α → Result β} (hx : Prod.snd <$> x = y) (hf : ∀ clones a, Prod.snd <$> f (clones, a) = g a) :
    Prod.snd <$> (x >>= f) = y >>= g := by
  subst hx
  cases x with
  | error p => rfl
  | ok r => exact hf r.1 r.2

omit [Features] in
/-- As for `untraced_bind`, behind a step that has no trace. -/
theorem untraced_step {x : Result γ} {f : γ → Result (Clones V × β)} {g : γ → Result β}
    (hf : ∀ c, Prod.snd <$> f c = g c) : Prod.snd <$> (x >>= f) = x >>= g := by
  cases x with
  | error p => rfl
  | ok c => exact hf c

/-- Without its trace it is `cow_clone_inner`. -/
theorem cow_clone_inner_traced_eq (node : VersionedNode V) (h : Heap (VersionedNode V)) (version : Nat)
    (path : Bytes) : Prod.snd <$> node.cow_clone_inner_traced h version path = node.cow_clone_inner h version := by
  unfold VersionedNode.cow_clone_inner_traced
  cases node.cow_clone_inner h version with
  | error p => rfl
  | ok r => rfl

/-- Without its trace it is `exclusive`. -/
theorem exclusive_traced_eq (h : Heap (VersionedNode V)) (a version : Nat) (path : Bytes) :
    Prod.snd <$> exclusive_traced h a version path = exclusive h a version := by
  unfold exclusive_traced exclusive
  refine untraced_bind ?_ fun clones r => ?_
  · unfold ensure_cow_node_traced ensure_cow_node
    refine untraced_step fun borrowed => ?_
    split
    · rfl
    · refine untraced_step fun unwrapped => ?_
      cases unwrapped with
      | some owned => rfl
      | none =>
        exact untraced_bind (cow_clone_inner_traced_eq borrowed h version path) fun clones copy =>
          untraced_step fun h' => rfl
  · refine untraced_step fun unwrapped => ?_
    cases unwrapped with
    | some owned => rfl
    | none => rfl

/-- Without its trace it is `add_child_opt`. -/
theorem add_child_opt_traced_eq (node : VersionedNode V) (h : Heap (VersionedNode V)) (k : UInt8)
    (opt : Option Nat) (path : Bytes) :
    Prod.snd <$> add_child_opt_traced node h k opt path = add_child_opt node h k opt := by
  cases opt with
  | none => rfl
  | some c =>
    refine untraced_step fun grown => ?_
    exact untraced_step fun content => rfl

/-- Without its trace it is `delete_recurse`. -/
theorem delete_recurse_traced_eq (h : Heap (VersionedNode V)) (a : Nat) (key : Bytes) (depth version : Nat) :
    Prod.snd <$> delete_recurse_traced h a key depth version = delete_recurse h a key depth version := by
  induction a using Nat.strongRecOn generalizing h depth with
  | ind a ih =>
    rw [delete_recurse, remove_loop, delete_recurse_traced]
    refine untraced_step fun node => untraced_step fun common => ?_
    split
    · exact untraced_step fun h' => rfl
    · refine untraced_step fun remaining => ?_
      dsimp only
      split
      · split
        · cases node.value with
          | none => exact untraced_step fun h' => rfl
          | some value => exact untraced_step fun h' => rfl
        · refine untraced_bind (exclusive_traced_eq h a version _) fun clones owned => ?_
          obtain ⟨⟨pfx, value, content, version⟩, h₁⟩ := owned
          cases value with
          | none => exact untraced_step fun h' => rfl
          | some value => exact untraced_step fun settled => rfl
      · split
        · exact untraced_step fun h' => rfl
        · refine untraced_step fun k => ?_
          refine untraced_bind (exclusive_traced_eq h a version _) fun clones owned => ?_
          refine untraced_step fun deleted => ?_
          obtain ⟨child, left⟩ := deleted
          cases child with
          | none => exact untraced_step fun h' => rfl
          | some c =>
            dsimp only
            split
            · rename_i hless
              refine untraced_bind (ih c hless _ _) fun below result => ?_
              refine untraced_step fun new_child => ?_
              refine untraced_bind (add_child_opt_traced_eq left _ k _ _) fun grown after => ?_
              exact untraced_step fun settled => rfl
            · rfl

/-- The trace aside, the functions above are those of the tree. -/
theorem delete_k_traced_eq (tree : VersionedAdaptiveRadixTree V) (h : Heap (VersionedNode V)) (key : Bytes) :
    Prod.snd <$> tree.delete_k_traced h key = tree.delete_k h key := by
  unfold delete_k_traced delete_k
  refine untraced_step fun found => ?_
  split
  · rfl
  · refine untraced_step fun root => untraced_step fun node => untraced_step fun remaining => ?_
    split
    · exact untraced_step fun h' => rfl
    · split
      · refine untraced_bind (exclusive_traced_eq h root _ _) fun clones owned => ?_
        exact untraced_step fun settled => rfl
      · refine untraced_bind (delete_recurse_traced_eq h root key 0 _) fun clones result => ?_
        refine untraced_step fun new_root => ?_
        exact untraced_step fun settled => rfl

end Untraced

section Sharing

variable [Features] {h h' : Heap (VersionedNode V)} {roots : List Nat} {a : Nat} {node owned : VersionedNode V}
  {version : Nat}

/-- What a run of `exclusive` leaves. -/
theorem Exclusive.of_run (hv : Valid h (a :: roots)) (hnode : h.node? a = some node) (hlt : node.version < version)
    (hrun : exclusive h a version = .ok (owned, h')) : Exclusive h a node version roots owned h' := by
  obtain ⟨owned', h₁, howned, hex⟩ := exclusive_spec hv hnode hlt
  rw [hrun, Except.ok.injEq, Prod.mk.injEq] at howned
  obtain ⟨rfl, rfl⟩ := howned
  exact hex

/-- The node that is copied takes no part in it. -/
theorem cow_clone_inner_leaves {copy : VersionedNode V} {count : Nat} (hv : Valid h roots)
    (hcell : h.cell? a = some ⟨count, node⟩) (hclone : node.cow_clone_inner h version = .ok (copy, h')) :
    ∃ count', count ≤ count' ∧ h'.cell? a = some ⟨count', node⟩ := by
  have hnode := Heap.node?_of_cell? hcell
  obtain ⟨h₁, hclones, _, _, hsame⟩ := hv.cloneAll fun c hc => hv.counted.live_of_handle hnode hc
  unfold VersionedNode.cow_clone_inner at hclone
  obtain ⟨content, _, hclone⟩ := bind_eq_ok_iff.1 hclone
  rw [hclones, arc_some, ok_bind] at hclone
  cases hclone
  obtain ⟨count', hcell'⟩ := Heap.node?_eq_some.1 ((hsame a).trans hnode)
  have hle := Heap.count_le_cloneAll hclones a
  rw [Heap.count_of_cell? hcell, Heap.count_of_cell? hcell'] at hle
  exact ⟨count', hle, hcell'⟩

omit [Features] in
/-- Taking one cell leaves the others. -/
theorem try_unwrap_leaves {b : Nat} (hne : a ≠ b) (hunwrap : try_unwrap h b = .ok (some (owned, h'))) :
    h'.node? a = h.node? a := by
  obtain ⟨cell, hcell, htake⟩ := Option.map_eq_some_iff.1 (arc_eq_ok hunwrap)
  split at htake
  · cases htake
    unfold Heap.node?
    rw [Heap.cell?_setCell (Heap.lt_of_cell? hcell), if_neg hne]
  · cases htake

/-- The original of a copied node stays with those who share it. -/
theorem exclusive_leaves_shared (hv : Valid h roots) (hnode : h.node? a = some node)
    (hlt : node.version < version) (hmany : h.count a ≠ 1) (hrun : exclusive h a version = .ok (owned, h')) :
    h'.node? a = some node := by
  obtain ⟨count, hcell⟩ := Heap.node?_eq_some.1 hnode
  have hpos : 0 < count := hv.counted.positive a _ hcell
  rw [Heap.count_of_cell? hcell] at hmany
  unfold exclusive ensure_cow_node at hrun
  rw [hnode] at hrun
  simp only [arc_some, ok_bind] at hrun
  rw [if_neg (by omega), try_unwrap_shared hcell hmany, ok_bind] at hrun
  obtain ⟨⟨new_node, h₃⟩, hensure, hrun⟩ := bind_eq_ok_iff.1 hrun
  obtain ⟨⟨copy, h₁⟩, hclone, hensure⟩ := bind_eq_ok_iff.1 hensure
  obtain ⟨h₂, hdrop, hend⟩ := bind_eq_ok_iff.1 hensure
  cases hend
  obtain ⟨count', hle, hcell₁⟩ := cow_clone_inner_leaves hv hcell hclone
  have hne : a ≠ h₁.cells.length := Nat.ne_of_lt (Heap.lt_of_cell? hcell₁)
  have hcell₂ : (h₁.alloc copy).2.cell? a = some ⟨count', node⟩ := by
    rw [Heap.cell?_alloc, if_neg hne, hcell₁]
  -- the reference that was given for the copy was not the last
  have hdropped := arc_eq_ok hdrop
  rw [Heap.dropAll_shared hcell₂ (by omega), Option.some.injEq] at hdropped
  obtain ⟨unwrapped, hunwrap, hend⟩ := bind_eq_ok_iff.1 hrun
  cases unwrapped with
  | none => cases hend
  | some moved =>
    cases hend
    rw [try_unwrap_leaves hne hunwrap, ← hdropped, Heap.node?_setCell_count hcell₂, Heap.node?_of_cell? hcell₂]

/-- The children of a copied node are shared by the copy and the original. -/
theorem exclusive_shares_children (hv : Valid h (a :: roots)) (hnode : h.node? a = some node)
    (hlt : node.version < version) (hmany : h.count a ≠ 1) (hrun : exclusive h a version = .ok (owned, h'))
    {c : Nat} (hc : c ∈ handles node) : h'.count c ≠ 1 := by
  have hex := Exclusive.of_run hv hnode hlt hrun
  have hcounted := hex.held.valid.counted.count_eq c
  have hcopied : 0 < (handles owned).count c := by
    rw [hex.copy.handles_eq]
    exact List.count_pos_iff.2 hc
  have horiginal : 0 < h'.inner.count c :=
    List.count_pos_iff.2 (Heap.mem_inner (exclusive_leaves_shared hv hnode hlt hmany hrun) hc)
  rw [List.count_append] at hcounted
  omega

/-- Whether anybody shares the way to a key shows below the node that was taken from it, too. -/
theorem unshared_below_iff (hv : Valid h (a :: roots)) (hnode : h.node? a = some node)
    (hlt : node.version < version) (hrun : exclusive h a version = .ok (owned, h')) {k : UInt8} {rest : Bytes}
    {c : Nat} (hc : node.content.iter.lookup k = some c) :
    Unshared h' c (k :: rest) ↔ Unshared h a (node.pfx ++ k :: rest) := by
  have hex := Exclusive.of_run hv hnode hlt hrun
  have hc' : owned.content.iter.lookup k = some c := by rw [hex.copy.iter_eq, hc]
  have hmem : (k, c) ∈ owned.content.iter := mem_of_lookup hc'
  obtain ⟨hless, child, hchild, _⟩ := hex.older (k, c) hmem
  unfold Unshared
  rw [visited_goes_on hv hnode hc, List.forall_mem_cons]
  by_cases hone : h.count a = 1
  · obtain ⟨count, hcell⟩ := Heap.node?_eq_some.1 hnode
    rw [Heap.count_of_cell? hcell] at hone
    subst hone
    have hcount : ∀ b ∈ visited h c (k :: rest), h'.count b = h.count b :=
      fun b => count_visited_unique hv hcell hlt hrun hless
    rw [visited_agree hv hex.held.valid (hex.agree_of_lookup hc')]
    refine ⟨fun hu => ⟨Heap.count_of_cell? hcell, fun b hb => ?_⟩, fun hu b hb => ?_⟩
    · rw [← hcount b hb]
      exact hu b hb
    · rw [hcount b hb]
      exact hu.2 b hb
  · refine iff_of_false (fun hu => ?_) fun hu => hone hu.1
    have hshared := exclusive_shares_children hv hnode hlt hone hrun (c := c) (by
      rw [← hex.copy.handles_eq]
      exact mem_handles hmem)
    exact hshared (hu c (mem_visited_self hchild))

end Sharing

section Deletions

variable [Features] {h h' : Heap (VersionedNode V)} {roots : List Nat} {a : Nat} {node owned : VersionedNode V}
  {version depth : Nat} {key path : Bytes} {clones : Clones V}

omit [Features] in
/-- A node has at most its own value to clone. -/
theorem mem_value_clone {p : Bytes × V} : p ∈ node.value_clone path ↔ p.1 = path ∧ node.value = some p.2 := by
  unfold VersionedNode.value_clone
  obtain ⟨w, v⟩ := p
  simp only [List.mem_map, Option.mem_toList, Prod.mk.injEq]
  constructor
  · rintro ⟨value, hvalue, rfl, rfl⟩
    exact ⟨rfl, hvalue⟩
  · rintro ⟨rfl, hvalue⟩
    exact ⟨v, hvalue, rfl, rfl⟩

omit [Features] in
/-- A traced run is a run. -/
theorem of_traced {α : Type} {x : Result (Clones V × α)} {y : Result α} {r : α} (heq : Prod.snd <$> x = y)
    (hrun : x = .ok (clones, r)) : y = .ok r := by
  rw [← heq, hrun]
  rfl

omit [Features] in
/-- A run can be traced. -/
theorem traced_of {α : Type} {x : Result (Clones V × α)} {y : Result α} {r : α} (heq : Prod.snd <$> x = y)
    (hrun : y = .ok r) : ∃ clones, x = .ok (clones, r) := by
  subst heq
  cases x with
  | error p => cases hrun
  | ok result =>
    cases hrun
    exact ⟨result.1, rfl⟩

/-- The value of a node is cloned where the node is shared. -/
theorem exclusive_clones {count : Nat} (hcell : h.cell? a = some ⟨count, node⟩) (hlt : node.version < version)
    (hrun : exclusive_traced h a version path = .ok (clones, owned, h')) :
    clones = if count = 1 then [] else node.value_clone path := by
  unfold exclusive_traced ensure_cow_node_traced at hrun
  rw [Heap.node?_of_cell? hcell] at hrun
  simp only [arc_some, ok_bind] at hrun
  rw [if_neg (by omega)] at hrun
  obtain ⟨⟨clones', new_node, h₁⟩, hensure, hrun⟩ := bind_eq_ok_iff.1 hrun
  obtain ⟨unwrapped, _, hend⟩ := bind_eq_ok_iff.1 hrun
  have hclones : clones' = clones := by
    cases unwrapped with
    | none => cases hend
    | some moved =>
      cases hend
      rfl
  rw [← hclones]
  by_cases hone : count = 1
  · subst hone
    rw [try_unwrap_unique hcell] at hensure
    cases hensure
    rw [if_pos rfl]
  · rw [try_unwrap_shared hcell hone, ok_bind] at hensure
    obtain ⟨⟨clones'', copy, h₂⟩, htraced, hensure⟩ := bind_eq_ok_iff.1 hensure
    obtain ⟨h₃, _, hend⟩ := bind_eq_ok_iff.1 hensure
    obtain ⟨r, _, hcopy⟩ := bind_eq_ok_iff.1 htraced
    cases hend
    cases hcopy
    rw [if_neg hone]

/-- Nothing is cloned where a child is put back. -/
theorem add_child_opt_clones {k : UInt8} {opt : Option Nat} (hroom : node.is_full = false)
    (hrun : add_child_opt_traced node h k opt path = .ok (clones, owned, h')) : clones = [] := by
  cases opt with
  | none =>
    cases hrun
    rfl
  | some c =>
    obtain ⟨grown, _, hrun⟩ := bind_eq_ok_iff.1 hrun
    obtain ⟨content, _, hend⟩ := bind_eq_ok_iff.1 hrun
    cases hend
    refine if_neg fun hfull => ?_
    by_cases hempty : node.content.is_empty = true
    · rw [if_pos hempty] at hfull
      cases hfull
    · rw [if_neg hempty, hroom] at hfull
      cases hfull

/-- What a deletion clones below a node: values that are stored there, and the one that is
deleted where its node is copied. -/
structure Cloned (h : Heap (VersionedNode V)) (a : Nat) (path rest : Bytes) (clones : Clones V) : Prop where
  stored : ∀ p ∈ clones, ∃ s, p.1 = path ++ s ∧ find h a s = some p.2
  deleted_iff : (∃ value, (path ++ rest, value) ∈ clones) ↔ ¬ (ends_in_leaf h a rest = true ∨ Unshared h a rest)

/-- What is cloned of a node is what is stored in it. -/
theorem stored_here {p : Bytes × V} (hv : Valid h roots) (hnode : h.node? a = some node)
    (hp : p ∈ node.value_clone (path ++ node.pfx)) : ∃ s, p.1 = path ++ s ∧ find h a s = some p.2 := by
  obtain ⟨hkey, hvalue⟩ := mem_value_clone.1 hp
  refine ⟨node.pfx, hkey, ?_⟩
  rw [find_self hv hnode]
  exact hvalue

/-- What is stored in a child that was taken out is stored behind its edge. -/
theorem stored_below {k : UInt8} {c : Nat} {s : Bytes} {value : V}
    (hex : Exclusive h a node version roots owned h')
    (hc : node.content.iter.lookup k = some c) (hfind : find h' c s = some value) :
    find h a (node.pfx ++ s) = some value := by
  have hc' : owned.content.iter.lookup k = some c := by rw [hex.copy.iter_eq, hc]
  obtain ⟨_, child, hchild, hedge, _⟩ := hex.older (k, c) (mem_of_lookup hc')
  -- the edge is the first byte of everything in the child
  obtain ⟨t, rfl⟩ : ∃ t, s = k :: t := by
    obtain ⟨w, hw⟩ := prefix_of_behind ((find_eq_read hex.held.valid hchild s).symm.trans hfind)
    obtain ⟨p, hp⟩ := List.head?_eq_some_iff.1 hedge
    exact ⟨p ++ w, by rw [← hw, hp, List.cons_append]⟩
  rw [← hex.read_eq, ← hex.copy.pfx_eq, read_edge, hc']
  exact hfind

/-- A key that ends in a leaf. -/
theorem Cloned.leaf (hv : Valid h roots) (hnode : h.node? a = some node) (hleaf : node.is_leaf = true) :
    Cloned h a path node.pfx [] where
  stored p hp := by cases hp
  deleted_iff := by
    rw [ends_in_leaf_stops hv hnode]
    exact iff_of_false (fun ⟨_, hp⟩ => by cases hp) fun hnot => hnot (.inl hleaf)

/-- A key that ends in an inner node. -/
theorem Cloned.inner {count : Nat} {value : V} (hv : Valid h (a :: roots)) (hcell : h.cell? a = some ⟨count, node⟩)
    (hleaf : ¬ node.is_leaf = true) (hvalue : node.value = some value) :
    Cloned h a path node.pfx (if count = 1 then [] else node.value_clone (path ++ node.pfx)) := by
  have hnode := Heap.node?_of_cell? hcell
  have hshared : Unshared h a node.pfx ↔ count = 1 := by
    unfold Unshared
    rw [visited_at_root hv hnode, List.forall_mem_singleton, Heap.count_of_cell? hcell]
  refine ⟨fun p hp => ?_, ?_⟩
  · split at hp
    · cases hp
    · exact stored_here hv hnode hp
  · rw [ends_in_leaf_stops hv hnode, hshared]
    by_cases hone : count = 1
    · rw [if_pos hone]
      exact iff_of_false (fun ⟨_, hp⟩ => by cases hp) fun hnot => hnot (.inr hone)
    · rw [if_neg hone]
      exact iff_of_true ⟨value, mem_value_clone.2 ⟨rfl, hvalue⟩⟩ (not_or.2 ⟨hleaf, hone⟩)

/-- One step down: what is cloned of a node on the way, and what is cloned below it. -/
theorem Cloned.step {k : UInt8} {rest : Bytes} {c count : Nat} {below : Clones V} (hv : Valid h (a :: roots))
    (hcell : h.cell? a = some ⟨count, node⟩) (hlt : node.version < version)
    (hrun : exclusive h a version = .ok (owned, h')) (hc : node.content.iter.lookup k = some c)
    (hbelow : Cloned h' c (path ++ node.pfx) (k :: rest) below) :
    Cloned h a path (node.pfx ++ k :: rest)
      ((if count = 1 then [] else node.value_clone (path ++ node.pfx)) ++ below) := by
  have hnode := Heap.node?_of_cell? hcell
  have hex := Exclusive.of_run hv hnode hlt hrun
  have hc' : owned.content.iter.lookup k = some c := by rw [hex.copy.iter_eq, hc]
  have hends : ends_in_leaf h a (node.pfx ++ k :: rest) = ends_in_leaf h' c (k :: rest) := by
    unfold ends_in_leaf
    rw [stopping_goes_on hv hnode hc, stopping_agree hv hex.held.valid (hex.agree_of_lookup hc')]
  refine ⟨fun p hp => ?_, ?_⟩
  · cases List.mem_append.1 hp with
    | inl hown =>
      split at hown
      · cases hown
      · exact stored_here hv hnode hown
    | inr hin =>
      obtain ⟨s, hkey, hfind⟩ := hbelow.stored p hin
      exact ⟨node.pfx ++ s, by rw [hkey, List.append_assoc], stored_below hex hc hfind⟩
  · rw [hends, ← unshared_below_iff hv hnode hlt hrun hc, ← hbelow.deleted_iff]
    refine exists_congr fun value => ?_
    rw [List.mem_append, ← List.append_assoc]
    refine or_iff_right fun hown => ?_
    split at hown
    · cases hown
    · have hkey := (mem_value_clone.1 hown).1
      exact absurd (List.append_right_eq_self.1 hkey) (List.cons_ne_nil k rest)

/-- The deletion below a node clones the value that it deletes exactly where its node is
inner, and some node on the way to it is shared. -/
theorem delete_recurse_clones {value : V} {opt : Option Nat} (hv : Valid h (a :: roots))
    (hnode : h.node? a = some node) (hlt : node.version < version) (hdepth : depth ≤ key.length)
    (hfind : find h a (key.drop depth) = some value)
    (hrun : delete_recurse_traced h a key depth version = .ok (clones, some (opt, ()), h')) :
    Cloned h a (key.take depth) (key.drop depth) clones := by
  induction a using Nat.strongRecOn generalizing h h' roots node depth opt clones with
  | ind a ih =>
    obtain ⟨count, hcell⟩ := Heap.node?_eq_some.1 hnode
    rw [delete_recurse_traced, hnode, arc_some, ok_bind, prefix_length_key_eq_ok hdepth, ok_bind, length_at,
      usize_sub_eq_ok hdepth] at hrun
    cases probe.meets node.pfx hdepth with
    | diverges hne hpfx =>
      rw [find_diverges hv hnode hpfx] at hfind
      cases hfind
    | ends hpfx hlcp hlen =>
      rw [if_neg (not_not.2 hlcp), ok_bind] at hrun
      dsimp only at hrun
      rw [if_pos hlen] at hrun
      rw [hpfx]
      by_cases hleaf : node.is_leaf = true
      · rw [if_pos hleaf] at hrun
        have hnone : clones = [] := by
          split at hrun
          · obtain ⟨h₁, _, hend⟩ := bind_eq_ok_iff.1 hrun
            cases hend
          · obtain ⟨h₁, _, hend⟩ := bind_eq_ok_iff.1 hrun
            cases hend
            rfl
        rw [hnone]
        exact .leaf hv hnode hleaf
      · rw [hpfx, find_self hv hnode] at hfind
        rw [if_neg hleaf] at hrun
        obtain ⟨⟨own, owned, h₁⟩, htraced, hrun⟩ := bind_eq_ok_iff.1 hrun
        have hown : own = clones := by
          dsimp only at hrun
          split at hrun
          · obtain ⟨h₂, _, hend⟩ := bind_eq_ok_iff.1 hrun
            cases hend
          · obtain ⟨settled, _, hend⟩ := bind_eq_ok_iff.1 hrun
            cases hend
            rfl
        rw [← hown, exclusive_clones hcell hlt htraced]
        exact .inner hv hcell hleaf hfind
    | goes_on k rest hpfx hlcp hlen hk hrest hdepth' =>
      rw [hpfx] at hfind ⊢
      obtain ⟨c, hc, hbelow⟩ := lookup_of_find hv hnode hfind
      have hleaf := inner_of_lookup hv hnode hc
      rw [if_neg (not_not.2 hlcp), ok_bind] at hrun
      dsimp only at hrun
      rw [if_neg hlen, if_neg hleaf, byte_at, hk, ok_bind] at hrun
      obtain ⟨⟨own, owned, h₁⟩, htraced, hrun⟩ := bind_eq_ok_iff.1 hrun
      have howned := of_traced (exclusive_traced_eq h a version _) htraced
      have hex := Exclusive.of_run hv hnode hlt howned
      have hc' : owned.content.iter.lookup k = some c := by rw [hex.copy.iter_eq, hc]
      obtain ⟨left, hdelete, hdetached⟩ := delete_child_spec hex.held hc'
      obtain ⟨hless, child, hchild, _, hversion⟩ := hex.older (k, c) (mem_of_lookup hc')
      dsimp only at hrun
      rw [hdelete, ok_bind] at hrun
      dsimp only at hrun
      rw [if_pos hless] at hrun
      obtain ⟨⟨below, result, h₂⟩, hrec, hrun⟩ := bind_eq_ok_iff.1 hrun
      cases result with
      | none =>
        obtain ⟨_, hexpect, _⟩ := bind_eq_ok_iff.1 hrun
        cases hexpect
      | some result =>
        obtain ⟨opt', _⟩ := result
        rw [expect_some, ok_bind] at hrun
        obtain ⟨⟨grown, after, h₃⟩, hadd, hrun⟩ := bind_eq_ok_iff.1 hrun
        obtain ⟨settled, _, hend⟩ := bind_eq_ok_iff.1 hrun
        cases hend
        have hcloned := ih c hless (hdetached.held.valid.perm List.perm_middle.symm) hchild hversion hdepth'
          (by
            rw [hrest, find_agree hv hex.held.valid (hex.agree_of_lookup hc')]
            exact hbelow) hrec
        have hpath : key.take (depth + node.pfx.length) = key.take depth ++ node.pfx := by
          rw [List.take_add, hpfx, List.take_left]
        rw [hrest, hpath] at hcloned
        rw [add_child_opt_clones hdetached.room hadd, List.append_nil, exclusive_clones hcell hlt htraced]
        exact .step hv hcell hlt howned hc hcloned

end Deletions

section Trees

variable [Features] {h h' : Heap (VersionedNode V)} {others : List Nat}
  {tree after : VersionedAdaptiveRadixTree V} {key : Bytes} {clones : Clones V} {existed : Bool}

/-- The key is stored in a leaf. -/
def VersionedAdaptiveRadixTree.in_leaf (tree : VersionedAdaptiveRadixTree V) (h : Heap (VersionedNode V))
    (key : Bytes) : Bool :=
  (tree.lookup h key).isSome && tree.root.any fun root => ends_in_leaf h root key

/-- What a deletion that finds its key clones. -/
theorem delete_k_cloned {value : V} {a : Nat} (hl : Live h tree others) (hroot : tree.root = some a)
    (hfound : tree.lookup h key = some value)
    (hrun : tree.delete_k_traced h key = .ok (clones, existed, after, h')) : Cloned h a [] key clones := by
  have hv := hl.of_root hroot
  obtain ⟨a', node, hroot', hnode, hlt, hfind⟩ := hl.root_of_lookup hfound
  rw [hroot, Option.some.injEq] at hroot'
  subst hroot'
  obtain ⟨count, hcell⟩ := Heap.node?_eq_some.1 hnode
  obtain ⟨hatleaf, hatlen, hatroot⟩ := find_at_root hv hnode hfind
  unfold delete_k_traced at hrun
  rw [hl.get_k_eq, ok_bind] at hrun
  simp only [hfound, Option.isNone_some, Bool.false_eq_true, if_false, hroot, expect_some, ok_bind, hnode,
    arc_some, length_at, usize_sub_eq_ok (Nat.zero_le _), Nat.sub_zero] at hrun
  by_cases hleaf : node.is_leaf = true
  · rw [if_pos hleaf] at hrun
    obtain ⟨h₁, _, hend⟩ := bind_eq_ok_iff.1 hrun
    cases hend
    rw [hatleaf hleaf]
    exact .leaf hv hnode hleaf
  · rw [if_neg hleaf] at hrun
    by_cases hlen : node.pfx.length = key.length
    · rw [if_pos hlen] at hrun
      obtain ⟨⟨own, owned, h₁⟩, htraced, hrun⟩ := bind_eq_ok_iff.1 hrun
      obtain ⟨settled, _, hend⟩ := bind_eq_ok_iff.1 hrun
      cases hend
      have hkey := hatlen hlen
      rw [exclusive_clones hcell hlt htraced, hkey]
      have hinner : Cloned h a [] node.pfx _ := .inner hv hcell hleaf (hatroot hkey)
      exact hinner
    · rw [if_neg hlen] at hrun
      obtain ⟨⟨below, result, h₁⟩, hrec, hrun⟩ := bind_eq_ok_iff.1 hrun
      cases result with
      | none =>
        obtain ⟨_, hexpect, _⟩ := bind_eq_ok_iff.1 hrun
        cases hexpect
      | some result =>
        obtain ⟨opt, _⟩ := result
        rw [expect_some, ok_bind] at hrun
        obtain ⟨new_root, _, hend⟩ := bind_eq_ok_iff.1 hrun
        cases hend
        exact delete_recurse_clones hv hnode hlt (Nat.zero_le key.length) hfind hrec

/-- Which values a deletion clones: some that are stored on the way to its key, and the one
that it deletes unless that is in a leaf, or nobody shares the way to it. -/
theorem delete_k_clones (hl : Live h tree others)
    (hrun : tree.delete_k_traced h key = .ok (clones, existed, after, h')) :
    (∀ p ∈ clones, tree.lookup h p.1 = some p.2) ∧
      ((∀ value, (key, value) ∉ clones) ↔
        tree.lookup h key = none ∨ tree.in_leaf h key = true ∨ ∀ b ∈ tree.visited h key, h.count b = 1) := by
  cases hfound : tree.lookup h key with
  | none =>
    unfold delete_k_traced at hrun
    rw [hl.get_k_eq, ok_bind, hfound] at hrun
    cases hrun
    exact ⟨fun p hp => (by cases hp), iff_of_true (fun value hp => by cases hp) (.inl rfl)⟩
  | some value =>
    obtain ⟨a, node, hroot, hnode, hlt, hfind⟩ := hl.root_of_lookup hfound
    have hcloned := delete_k_cloned hl hroot hfound hrun
    refine ⟨fun p hp => ?_, ?_⟩
    · obtain ⟨s, hkey, hstored⟩ := hcloned.stored p hp
      unfold VersionedAdaptiveRadixTree.lookup
      rw [hroot, hkey]
      exact hstored
    · have hdeleted : (∃ value, (key, value) ∈ clones) ↔ ¬ (ends_in_leaf h a key = true ∨ Unshared h a key) :=
        hcloned.deleted_iff
      have hin : tree.in_leaf h key = ends_in_leaf h a key := by
        unfold in_leaf
        rw [hfound, hroot]
        rfl
      have hway : (∀ b ∈ tree.visited h key, h.count b = 1) ↔ Unshared h a key := by
        unfold VersionedAdaptiveRadixTree.visited
        rw [hroot]
        exact Iff.rfl
      rw [hin, hway, ← not_exists, hdeleted, not_not]
      simp only [reduceCtorEq, false_or]

end Trees

section Forests

/-- The other trees of a forest read as before. -/
theorem Represents.others_read [Features] {forest : Forest V} {maps : RefForest V} {i j : Nat}
    {after other : VersionedAdaptiveRadixTree V} {m' : RefMap V} {h' : Heap (VersionedNode V)}
    (hr : Represents forest maps) (hr' : Represents ⟨h', forest.trees.set i (some after)⟩ (maps.set i (some m')))
    (hne : j ≠ i) (hother : member forest.trees j = some other) (key : Bytes) :
    other.get_k h' key = other.get_k forest.heap key := by
  have hother' : member (forest.trees.set i (some after)) j = some other := by
    rw [member_set, if_neg hne, hother]
  obtain ⟨m, hm, hs⟩ := hr.pair hother
  obtain ⟨m₁, hm₁, hs₁⟩ := hr'.pair hother'
  rw [member_set, if_neg hne, hm, Option.some.injEq] at hm₁
  have hread : other.get_k h' key = _ := (hr'.live hother').get_k_eq key
  rw [hread, (hr.live hother).get_k_eq, hs.lookup_eq, hs₁.lookup_eq, hm₁]

/-- In every forest that a sequence of commands leads to, a deletion leaves the other trees
as they are. It clones the value that it deletes unless that is in a leaf, or nobody
shares the way to it. -/
theorem Forest.delete_clones_iff [Features] (cs : List (Command V E)) :
    ∃ (replies : List (Option (Reply V E))) (forest : Forest V),
      runForest .empty cs = .ok (replies, forest) ∧
      ∀ i tree, member forest.trees i = some tree → ∀ key, ∃ clones existed after h',
        tree.delete_k_traced forest.heap key = .ok (clones, existed, after, h') ∧
        tree.delete_k forest.heap key = .ok (existed, after, h') ∧
        (∀ p ∈ clones, tree.lookup forest.heap p.1 = some p.2) ∧
        (∀ j other, j ≠ i → member forest.trees j = some other →
          ∀ w, other.get_k h' w = other.get_k forest.heap w) ∧
        ((∀ value, (key, value) ∉ clones) ↔
          tree.lookup forest.heap key = none ∨ tree.in_leaf forest.heap key = true ∨
            ∀ b ∈ tree.visited forest.heap key, forest.heap.count b = 1) := by
  obtain ⟨forest, hrun, hr⟩ := runForest_spec represents_empty cs
  refine ⟨_, forest, hrun, fun i tree hmember key => ?_⟩
  have hl := hr.live hmember
  obtain ⟨after, h', hdelete, _⟩ := hl.delete_k_spec key
  obtain ⟨clones, htraced⟩ := traced_of (delete_k_traced_eq tree forest.heap key) hdelete
  obtain ⟨hstored, hiff⟩ := delete_k_clones hl htraced
  refine ⟨clones, _, after, h', htraced, hdelete, hstored, fun j other hne hother => ?_, hiff⟩
  obtain ⟨m, after', h'', _, hmutate, _, hr'⟩ := hr.mutate hmember (.delete_k key : Mutation V E)
  simp only [Mutation.onTree, hdelete, ok_bind, pure_eq_ok, Except.ok.injEq, Prod.mk.injEq] at hmutate
  obtain ⟨_, rfl, rfl⟩ := hmutate
  exact hr.others_read hr' hne hother

/-- A key at the root of a tree of which there is a snapshot. Its value is cloned with the
root, and then dropped. -/
theorem Forest.shared_root_clones :
    letI : Features := ⟨none⟩
    ∃ (replies : List (Option (Reply Nat Unit))) (forest : Forest Nat)
      (tree after : VersionedAdaptiveRadixTree Nat) (clones : Clones Nat) (h' : Heap (VersionedNode Nat)),
      runForest .empty [.new, .mutate 0 (.insert_k [1] 7), .mutate 0 (.insert_k [1, 2] 8), .snapshot 0] =
        .ok (replies, forest) ∧
      member forest.trees 0 = some tree ∧ tree.delete_k_traced forest.heap [1] = .ok (clones, true, after, h') ∧
      tree.delete_k forest.heap [1] = .ok (true, after, h') ∧ ([1], 7) ∈ clones := by
  let : Features := ⟨none⟩
  let cs : List (Command Nat Unit) :=
    [.new, .mutate 0 (.insert_k [1] 7), .mutate 0 (.insert_k [1, 2] 8), .snapshot 0]
  obtain ⟨forest, hrun, hr⟩ := runForest_spec (V := Nat) (E := Unit) represents_empty cs
  have hseen : (runForest .empty cs).toOption.bind (fun r => (member r.2.trees 0).map fun tree =>
      (tree.lookup r.2.heap [1], tree.in_leaf r.2.heap [1], (tree.visited r.2.heap [1]).map r.2.heap.count)) =
        some (some 7, false, [2]) := by
    decide +kernel
  rw [hrun] at hseen
  obtain ⟨tree, hmember, hseen⟩ := Option.map_eq_some_iff.1 hseen
  simp only [Prod.mk.injEq] at hseen
  obtain ⟨hfound, hleaf, hcounts⟩ := hseen
  have hl := hr.live hmember
  obtain ⟨after, h', hdelete, _⟩ := hl.delete_k_spec [1]
  obtain ⟨clones, htraced⟩ := traced_of (delete_k_traced_eq tree forest.heap [1]) hdelete
  obtain ⟨hstored, hiff⟩ := delete_k_clones hl htraced
  rw [hfound] at hdelete htraced
  refine ⟨_, forest, tree, after, clones, h', hrun, hmember, htraced, hdelete, ?_⟩
  by_contra hnot
  have hnone : ∀ value, ([1], value) ∉ clones := fun value hp => by
    have hvalue := hstored _ hp
    rw [hfound, Option.some.injEq] at hvalue
    exact hnot (by rwa [hvalue])
  rcases hiff.1 hnone with habsent | hin | hway
  · rw [hfound] at habsent
    cases habsent
  · rw [hleaf] at hin
    cases hin
  · have htwo : 2 ∈ (tree.visited forest.heap [1]).map forest.heap.count := by
      rw [hcounts]
      exact List.mem_singleton_self 2
    obtain ⟨b, hb, htwo⟩ := List.mem_map.1 htwo
    rw [hway b hb] at htwo
    cases htwo

end Forests

end rart.versioned_tree
