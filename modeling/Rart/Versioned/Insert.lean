import Rart.Versioned.Branches

open SortedAssoc RcHeap Words LexOrder
open RcHeap.Heap (Valid Keeps Agree Below)
open rart.node rart.partials rart.utils

namespace rart.versioned_tree

variable {V : Type} [Features]

section Steps

/-- `if let (Some(old_value_out), Some(old_value)) = .. { *old_value_out = Some(old_value); }` -/
def write_old_value (old_value_out : Option (Option V)) (old_value : Option V) : Option (Option V) :=
  match old_value_out, old_value with
  | some _, some old_value => some (some old_value)
  | old_value_out, _ => old_value_out

def insert_recurse (h : Heap (VersionedNode V)) (cur_node : Nat) (key : Bytes) (value : V)
    (depth version : Nat) (old_value_out : Option (Option V)) :
    Result (Nat × Bool × Option (Option V) × Heap (VersionedNode V)) := do
  let node ← arc (h.node? cur_node)
  let longest_common_prefix ← prefix_length_key node.pfx key depth
  let remaining ← length_at key depth
  let is_prefix_match := min node.pfx.length remaining = longest_common_prefix
  if is_prefix_match ∧ node.pfx.length = remaining then
    let (new_node, h) ← exclusive h cur_node version
    let old_value := new_node.value
    let (new_node, h) := h.alloc { new_node with value := some value }
    return (new_node, old_value.isSome, write_old_value old_value_out old_value, h)
  else if is_prefix_match ∧ node.pfx.length > remaining then
    let (new_node, h) ← insert_above h cur_node longest_common_prefix value version
    return (new_node, false, old_value_out, h)
  else if ¬ is_prefix_match then
    let (new_node, h) ← insert_split h cur_node key value depth longest_common_prefix version
    return (new_node, false, old_value_out, h)
  else if node.is_leaf then
    let (new_node, h) ← insert_leaf h cur_node key value (depth + longest_common_prefix) version
    return (new_node, false, old_value_out, h)
  else
    let k ← byte_at key (depth + node.pfx.length)
    let prefix_len := node.pfx.length
    let (new_node_mut, h) ← exclusive h cur_node version
    let (child, new_node_mut) ← new_node_mut.delete_child k
    match child with
    | some child =>
      -- the cell of a child is older than its parent's
      if child < cur_node then
        let (new_child, was_replaced, old_value_out, h) ←
          insert_recurse h child key value (depth + prefix_len) version old_value_out
        let (new_node_mut, h) ← new_node_mut.add_child h k new_child
        let (new_node, h) := h.alloc new_node_mut
        return (new_node, was_replaced, old_value_out, h)
      else throw .out_of_fuel
    | none =>
      let (new_leaf, h) := h.alloc (.new_leaf (← to_partial key (depth + prefix_len)) value version)
      let (new_node_mut, h) ← new_node_mut.add_child h k new_leaf
      let (new_node, h) := h.alloc new_node_mut
      return (new_node, false, old_value_out, h)
termination_by cur_node

end Steps

variable {h h' : Heap (VersionedNode V)} {roots : List Nat} {a : Nat} {node : VersionedNode V}
  {version : Nat}

section Children

/-- A node in hand whose child was changed and put back. -/
theorem Exclusive.put_back {owned rest : VersionedNode V} {h₁ h₂ : Heap (VersionedNode V)} {k : UInt8}
    {c c' : Nat} {child : VersionedNode V} {s : Bytes} {slot : Option V} (hv : Valid h (a :: roots))
    (hnode : h.node? a = some node) (hex : Exclusive h a node version roots owned h₁)
    (hkey : owned.content.iter.lookup k = some c)
    (hdetached : Detached h₁ owned k c roots rest)
    (hchild : h₁.node? c = some child ∧ child.pfx.head? = some k)
    (hchanged : Changed h₁ c child (handles rest ++ roots) version (k :: s) slot c' h₂) :
    ∃ after h₃, rest.add_child h₂ k c' = .ok (after, h₃) ∧ after.content.iter.lookup k = some c' ∧
      Reworked h a node roots version (node.pfx ++ k :: s) slot after h₃ := by
  obtain ⟨stored, hstored, hversion, hhead⟩ := hchanged.stored
  have hedge : stored.pfx.head? = some k := hhead k hchild.2 rfl
  have hheld : Held h₂ rest (c' :: roots) := {
    valid := hchanged.valid.perm List.perm_middle
    linked := hdetached.held.linked.keeps hchanged.keeps fun b hb => List.mem_append_left _ hb }
  have habsent : rest.content.iter.lookup k = none := by
    rw [hdetached.iter_eq, lookup_eraseKey, if_pos rfl]
  have hrestversion : rest.version = version := hdetached.version_eq.trans hex.copy.version_eq
  obtain ⟨after, h₃, hadd, hattached⟩ := add_child_spec hheld habsent hstored hedge
    (Nat.le_of_eq (hversion.trans hrestversion.symm))
  refine ⟨after, h₃, hadd, ?_, hattached.held, ?_, ?_, ?_, ?_, ?_⟩
  · rw [hattached.iter_eq, lookup_insertSorted, if_pos rfl]
  · exact ((hex.keeps.subset fun b hb => List.mem_append_right _ hb).trans
      (hchanged.keeps.subset fun b hb => List.mem_append_right _ hb)).trans
      (hattached.keeps.subset fun b hb => List.mem_append_right _ (List.mem_cons_of_mem _ hb))
  · have hbelow : Updated (readBelow h₁ owned.value owned.content.iter)
        (readBelow h₂ owned.value (insertSorted k c' rest.content.iter)) (k :: s) slot := by
      refine updated_edge (fun b hb => ?_) (fun p hp hne w => ?_) ?_
      · rw [lookup_insertSorted, if_neg hb, hdetached.iter_eq, lookup_eraseKey, if_neg hb]
      · have hmem : p ∈ rest.content.iter := by
          rw [hdetached.iter_eq]
          exact mem_eraseKey.2 ⟨hp, hne⟩
        exact find_agree hex.held.valid hchanged.valid
          (hchanged.keeps.agree p.2 (List.mem_append_left _ (mem_handles hmem))) w
      · rw [lookup_insertSorted, if_pos rfl, hkey]
        exact hchanged.updated
    refine (hbelow.behind node.pfx).congr (fun w => ?_) (fun w => ?_)
    · rw [← hex.read_eq]
      unfold read
      rw [hex.copy.pfx_eq]
    · rw [hattached.read_eq, hdetached.pfx_eq, hdetached.value_eq, hex.copy.pfx_eq]
  · rw [hattached.pfx_eq, hdetached.pfx_eq, hex.copy.pfx_eq]
  · rw [hattached.version_eq, hrestversion]
  · have hin : ∀ p, p = (k, c') ∨ p ∈ rest.content.iter → p.2 ∈ handles after := fun p hp => by
      refine mem_handles ?_
      rw [hattached.iter_eq, mem_insertSorted]
      exact hp
    have hmem : ∀ p ∈ node.content.iter, p.1 ≠ k → p ∈ rest.content.iter := fun p hp hne => by
      rw [hdetached.iter_eq, hex.copy.iter_eq]
      exact mem_eraseKey.2 ⟨hp, hne⟩
    have hagree := hex.agree_of_lookup hkey
    rw [hex.copy.iter_eq] at hkey
    refine .step hv hnode hkey hex.held.valid hagree
      (hchanged.shares.keeps hattached.keeps fun b hb => ?_) (fun b hb => ?_) fun p hp hne => ?_
    · rw [List.mem_singleton.1 hb]
      exact List.mem_append_right _ (List.mem_cons_self)
    · rw [List.mem_singleton.1 hb]
      exact hin (k, c') (.inl rfl)
    · have hp' := mem_handles (hmem p hp hne)
      refine ⟨hin p (.inr (hmem p hp hne)), ?_⟩
      exact ((hex.agree_of_mem hp).trans
        (hchanged.keeps.agree p.2 (List.mem_append_left _ hp'))).trans
        (hattached.keeps.agree p.2 (List.mem_append_left _ hp'))

/-- A node in hand with a new leaf behind a new edge. -/
theorem Exclusive.add_leaf {owned : VersionedNode V} {h₁ h₂ : Heap (VersionedNode V)} {k : UInt8}
    {l : Nat} {s : Bytes} {value : V} (hex : Exclusive h a node version roots owned h₁)
    (hkey : owned.content.iter.lookup k = none)
    (hleaf : NewLeaf h₁ (handles owned ++ roots) (k :: s) value version l h₂) :
    ∃ after h₃, owned.add_child h₂ k l = .ok (after, h₃) ∧ after.content.iter ≠ [] ∧
      Reworked h a node roots version (node.pfx ++ k :: s) (some value) after h₃ := by
  have hheld : Held h₂ owned (l :: roots) := {
    valid := hleaf.valid.perm List.perm_middle
    linked := hex.held.linked.keeps hleaf.keeps fun b hb => List.mem_append_left _ hb }
  obtain ⟨after, h₃, hadd, hattached⟩ := add_child_spec hheld hkey hleaf.stored rfl
    (Nat.le_of_eq hex.copy.version_eq.symm)
  refine ⟨after, h₃, hadd, fun hempty => ?_, hattached.held, ?_, ?_, ?_, ?_, ?_⟩
  · have hlen := length_insertSorted k l owned.content.iter
    rw [← hattached.iter_eq, hempty] at hlen
    cases hlen
  · exact ((hex.keeps.trans hleaf.keeps).subset fun b hb => List.mem_append_right _ hb).trans
      (hattached.keeps.subset fun b hb => List.mem_append_right _ (List.mem_cons_of_mem _ hb))
  · have hbelow : Updated (readBelow h₁ owned.value owned.content.iter)
        (readBelow h₂ owned.value (insertSorted k l owned.content.iter)) (k :: s) (some value) := by
      refine updated_edge (fun b hb => ?_) (fun p hp _ w => ?_) ?_
      · rw [lookup_insertSorted, if_neg hb]
      · exact find_agree hex.held.valid hleaf.valid
          (hleaf.keeps.agree p.2 (List.mem_append_left _ (mem_handles hp))) w
      · rw [lookup_insertSorted, if_pos rfl, hkey]
        exact hleaf.updated
    refine (hbelow.behind node.pfx).congr (fun w => ?_) (fun w => ?_)
    · rw [← hex.read_eq]
      unfold read
      rw [hex.copy.pfx_eq]
    · rw [hattached.read_eq, hex.copy.pfx_eq]
  · rw [hattached.pfx_eq, hex.copy.pfx_eq]
  · rw [hattached.version_eq, hex.copy.version_eq]
  · exact hattached.shares ((hex.shares _).keeps hleaf.keeps fun c hc => List.mem_append_left _ hc)

/-- A node in hand with another value. -/
theorem Exclusive.set_value {owned : VersionedNode V} {h₁ : Heap (VersionedNode V)}
    (hex : Exclusive h a node version roots owned h₁) (slot : Option V) :
    Reworked h a node roots version node.pfx slot { owned with value := slot } h₁ where
  held := ⟨hex.held.valid, ⟨hex.held.linked.repr, hex.held.linked.edges⟩⟩
  keeps := hex.keeps.subset fun b hb => List.mem_append_right _ hb
  updated := by
    have hbelow := (updated_value h₁ owned.value slot owned.content.iter).behind node.pfx
    rw [List.append_nil] at hbelow
    refine hbelow.congr (fun w => ?_) (fun w => ?_)
    · rw [← hex.read_eq]
      unfold read
      rw [hex.copy.pfx_eq]
    · change behind owned.pfx (readBelow h₁ slot owned.content.iter) w = _
      rw [hex.copy.pfx_eq]
  pfx_eq := hex.copy.pfx_eq
  version_eq := hex.copy.version_eq
  shares := hex.shares node.pfx

end Children

/-- Insertion puts the value under what is left of the key, in a tree of its own. -/
theorem insert_recurse_spec (hv : Valid h (a :: roots)) (hnode : h.node? a = some node)
    (hlt : node.version < version) {key : Bytes} {depth : Nat} (hdepth : depth ≤ key.length) (value : V)
    (old_value_out : Option (Option V)) :
    ∃ a' h', insert_recurse h a key value depth version old_value_out =
        .ok (a', (find h a (key.drop depth)).isSome,
          write_old_value old_value_out (find h a (key.drop depth)), h') ∧
      Changed h a node roots version (key.drop depth) (some value) a' h' := by
  induction a using Nat.strongRecOn generalizing h roots node depth with
  | ind a ih =>
    rw [insert_recurse, hnode, arc_some, ok_bind, prefix_length_key_eq_ok hdepth, ok_bind, length_at,
      usize_sub_eq_ok hdepth, ok_bind]
    dsimp only
    have hout : write_old_value old_value_out none = old_value_out := by
      cases old_value_out <;> rfl
    cases arrival node.pfx key depth with
    | ends hkey hends =>
      have hfind : find h a (key.drop depth) = node.value := hkey ▸ find_self hv hnode
      obtain ⟨owned, h₁, howned, hex⟩ := exclusive_spec hv hnode hlt
      rw [if_pos hends, howned, ok_bind]
      have hvalue : owned.value = find h a (key.drop depth) := hex.copy.value_eq.trans hfind.symm
      have hchanged := (hex.set_value (some value)).alloc fun _ => ⟨value, rfl⟩
      refine ⟨_, _, ?_, hkey ▸ hchanged⟩
      rw [hvalue]
      rfl
    | goes_on k s hkey hlcp hmore hbelow hmatch hk hrest hdepth' =>
      rw [if_neg hmore, if_neg hbelow, if_neg hmatch, hlcp]
      by_cases hleaf : node.is_leaf = true
      · have hiter : node.content.iter = [] :=
          (hv.sound a node hnode).linked.repr.eq_nil_of_is_empty hleaf
        obtain ⟨a', h', hinsert, hchanged⟩ := insert_leaf_spec hv hnode hlt hrest
          (by rw [hiter]; rfl) value
        have hnone : find h a (key.drop depth) = none := by
          rw [hkey, find_edge hv hnode, hiter]
          rfl
        rw [if_pos hleaf, hnone, hinsert, hout]
        rw [← hkey] at hchanged
        exact ⟨a', h', rfl, hchanged⟩
      · rw [if_neg hleaf, hk, ok_bind]
        obtain ⟨owned, h₁, howned, hex⟩ := exclusive_spec hv hnode hlt
        have hfind : find h a (key.drop depth) =
            (owned.content.iter.lookup k).bind fun c => find h₁ c (k :: s) := by
          rw [← hex.read_eq, hkey, ← hex.copy.pfx_eq]
          exact read_edge h₁ owned k s
        rw [howned, ok_bind, hfind]
        dsimp only
        cases hlookup : owned.content.iter.lookup k with
        | none =>
          have hleaf := alloc_leaf_spec hex.held.valid (k :: s) value version
          generalize hnew : h₁.alloc (VersionedNode.new_leaf (k :: s) value version) = new at hleaf
          obtain ⟨l, h₂⟩ := new
          obtain ⟨after, h₃, hadd, hne, hreworked⟩ := hex.add_leaf hlookup hleaf
          have hchanged := hreworked.alloc fun hempty => absurd hempty hne
          rw [← hkey] at hchanged
          refine ⟨_, _, ?_, hchanged⟩
          rw [VersionedNode.delete_child_none hex.held.linked.repr hlookup, ok_bind]
          simp only [slice_from_eq_ok hdepth', to_partial, ok_bind, hrest, hnew, hadd, pure_eq_ok]
          cases old_value_out <;> rfl
        | some child =>
          obtain ⟨rest, hdelete, hdetached⟩ := delete_child_spec hex.held hlookup
          obtain ⟨hless, stored, hstored, hedge, hchildversion⟩ := hex.older (k, child) (mem_of_lookup hlookup)
          have hvalid := hdetached.held.valid.perm List.perm_middle.symm
          obtain ⟨child', h₂, hrec, hchanged⟩ := ih child hless hvalid hstored hchildversion hdepth'
          rw [hrest] at hrec hchanged
          obtain ⟨after, h₃, hadd, hlookup', hreworked⟩ :=
            hex.put_back hv hnode hlookup hdetached ⟨hstored, hedge⟩ hchanged
          have hchanged' := hreworked.alloc fun hempty => by
            rw [hempty] at hlookup'
            cases hlookup'
          rw [← hkey] at hchanged'
          refine ⟨_, _, ?_, hchanged'⟩
          rw [hdelete, ok_bind]
          dsimp only
          rw [if_pos hless, hrec]
          simp only [ok_bind, hadd, pure_eq_ok, Option.bind_some]
    | above k p hpfx hnot hlcp hmore habove =>
      obtain ⟨a', h', hinsert, hchanged⟩ := insert_above_spec hv hnode (Nat.le_of_lt hlt) hpfx value
      rw [if_neg hmore, if_pos habove, hlcp, hinsert, find_diverges hv hnode hnot, hout]
      exact ⟨a', h', rfl, hchanged⟩
    | splits c p s k₁ k₂ hne hpfx hkey hnot hlcp hmore hbelow hsplit =>
      obtain ⟨a', h', hinsert, hchanged⟩ := insert_split_spec hv hnode (Nat.le_of_lt hlt) hne hpfx hkey value
      rw [if_neg hmore, if_neg hbelow, if_pos hsplit, hlcp, hinsert, find_diverges hv hnode hnot, hout]
      exact ⟨a', h', rfl, hchanged⟩

end rart.versioned_tree
