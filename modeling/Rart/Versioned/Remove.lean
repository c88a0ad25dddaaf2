import Rart.Versioned.Insert

open SortedAssoc RcHeap Words LexOrder
open RcHeap.Heap (Valid Keeps Agree)
open rart.node rart.partials rart.utils

namespace rart.versioned_tree

variable {V R : Type} [Features]

section Steps

/-- The end of a removal: a node that is left without children and value goes out of scope. -/
def settle (h : Heap (VersionedNode V)) (new_node : VersionedNode V) :
    Result (Option Nat × Heap (VersionedNode V)) := do
  if new_node.num_children = 0 ∧ new_node.value.isNone then
    return (none, ← drop_node h new_node)
  else
    let (new_node, h) := h.alloc new_node
    return (some new_node, h)

/-- `if let Some(new_child) = new_child_opt { new_node_mut.add_child(k, new_child); }` -/
def add_child_opt (new_node_mut : VersionedNode V) (h : Heap (VersionedNode V)) (k : UInt8)
    (new_child_opt : Option Nat) : Result (VersionedNode V × Heap (VersionedNode V)) :=
  match new_child_opt with
  | some new_child => new_node_mut.add_child h k new_child
  | none => return (new_node_mut, h)

/-- The two functions below, over what is taken of the removed value, how often a leaf's
value is cloned for that, and the message of the failed pre-check. -/
def remove_loop (taken : V → R) (clones : Nat) (message : String) (h : Heap (VersionedNode V)) (cur_node : Nat)
    (key : Bytes) (depth version : Nat) :
    Result (Option (Option Nat × R) × Heap (VersionedNode V)) := do
  let node ← arc (h.node? cur_node)
  let prefix_common_match ← prefix_length_key node.pfx key depth
  if prefix_common_match ≠ node.pfx.length then return (none, ← drop_arc h cur_node)
  else
    let remaining ← length_at key depth
    if node.pfx.length = remaining then
      if node.is_leaf then
        match node.value with
        | none => return (none, ← drop_arc h cur_node)
        | some removed_value =>
          return (some (none, taken removed_value), ← drop_arc (h.copies clones) cur_node)
      else
        let (new_node, h) ← exclusive h cur_node version
        match new_node.value with
        | none => return (none, ← drop_node h new_node)
        | some removed_value =>
          let (new_node, h) ← settle h { new_node with value := none }
          return (some (new_node, taken removed_value), h)
    else if node.is_leaf then return (none, ← drop_arc h cur_node)
    else
      let k ← byte_at key (depth + node.pfx.length)
      let prefix_len := node.pfx.length
      let (new_node_mut, h) ← exclusive h cur_node version
      let (child, new_node_mut) ← new_node_mut.delete_child k
      match child with
      | none => return (none, ← drop_node h new_node_mut)
      | some child =>
        -- the cell of a child is older than its parent's
        if child < cur_node then
          let (result, h) ← remove_loop taken clones message h child key (depth + prefix_len) version
          let (new_child_opt, removed_value) ← expect result message
          let (new_node_mut, h) ← add_child_opt new_node_mut h k new_child_opt
          let (new_node, h) ← settle h new_node_mut
          return (some (new_node, removed_value), h)
        else throw .out_of_fuel
termination_by cur_node

def remove_recurse (h : Heap (VersionedNode V)) (cur_node : Nat) (key : Bytes) (depth version : Nat) :
    Result (Option (Option Nat × V) × Heap (VersionedNode V)) :=
  remove_loop (fun value => value) 1 "prechecked key should be removable" h cur_node key depth version

def delete_recurse (h : Heap (VersionedNode V)) (cur_node : Nat) (key : Bytes) (depth version : Nat) :
    Result (Option (Option Nat × Unit) × Heap (VersionedNode V)) :=
  remove_loop (fun _ => ()) 0 "prechecked key should be deletable" h cur_node key depth version

end Steps

variable {h h' : Heap (VersionedNode V)} {roots : List Nat} {a : Nat} {node : VersionedNode V}
  {version : Nat}

section Settling

/-- What is left of a tree after one of its slots was changed: a changed tree, or nothing. -/
inductive Settled (h : Heap (VersionedNode V)) (a : Nat) (node : VersionedNode V) (roots : List Nat)
    (version : Nat) (key : Bytes) (slot : Option V) : Option Nat → Heap (VersionedNode V) → Prop where
  | left (a' : Nat) (h' : Heap (VersionedNode V))
      (changed : Changed h a node roots version key slot a' h') :
      Settled h a node roots version key slot (some a') h'
  | emptied (h' : Heap (VersionedNode V)) (valid : Valid h' roots) (keeps : Keeps h h' roots)
      (vacant : slot = none) (only : ∀ w, w ≠ key → find h a w = none) (shares : Shares h a key h' []) :
      Settled h a node roots version key slot none h'

theorem read_bare {node : VersionedNode V} (hiter : node.content.iter = []) (hvalue : node.value = none)
    (h : Heap (VersionedNode V)) (w : Bytes) : read h node w = none := by
  unfold read behind
  rw [hiter, hvalue]
  cases node.pfx.isPrefixOf? w with
  | none => rfl
  | some rest => cases rest <;> rfl

theorem Reworked.emptied {key : Bytes} {slot : Option V} {after : VersionedNode V}
    (hr : Reworked h a node roots version key slot after h')
    (hbare : after.num_children = 0 ∧ after.value.isNone) :
    ∃ h'', drop_node h' after = .ok h'' ∧ Settled h a node roots version key slot none h'' := by
  have hnum : after.num_children = after.content.iter.length := hr.held.linked.repr.num_children_eq
  have hiter : after.content.iter = [] := List.eq_nil_of_length_eq_zero (hnum.symm.trans hbare.1)
  have hread := read_bare hiter (Option.isNone_iff_eq_none.1 hbare.2) h'
  obtain ⟨h'', hdrop, hv, hk⟩ := drop_node_spec hr.held.valid
  refine ⟨h'', hdrop, .emptied h'' hv (hr.keeps.trans hk) ?_ (fun w hw => ?_) fun b ho => ?_⟩
  · rw [← hr.updated.here, hread]
  · rw [← hr.updated.elsewhere w hw, hread]
  · obtain ⟨c, hc, _⟩ := hr.shares b ho
    rw [handles_eq, hiter] at hc
    cases hc

theorem Reworked.occupied {key : Bytes} {slot : Option V} {after : VersionedNode V}
    (hr : Reworked h a node roots version key slot after h')
    (hbare : ¬ (after.num_children = 0 ∧ after.value.isNone)) :
    after.content.iter = [] → ∃ v, after.value = some v := fun hempty => by
  have hnum : after.num_children = after.content.iter.length := hr.held.linked.repr.num_children_eq
  rw [hnum, hempty, Option.isNone_iff_eq_none] at hbare
  exact Option.ne_none_iff_exists'.1 fun hnone => hbare ⟨rfl, hnone⟩

theorem settle_spec {key : Bytes} {slot : Option V} {after : VersionedNode V}
    (hr : Reworked h a node roots version key slot after h') :
    ∃ opt h'', settle h' after = .ok (opt, h'') ∧ Settled h a node roots version key slot opt h'' := by
  unfold settle
  by_cases hbare : after.num_children = 0 ∧ after.value.isNone
  · obtain ⟨h'', hdrop, hsettled⟩ := hr.emptied hbare
    refine ⟨none, h'', ?_, hsettled⟩
    rw [if_pos hbare, hdrop]
    rfl
  · refine ⟨some (h'.alloc after).1, (h'.alloc after).2, ?_, .left _ _ (hr.alloc (hr.occupied hbare))⟩
    rw [if_neg hbare]
    rfl

/-- A leaf is all that is in its tree. -/
theorem Settled.leaf (hv : Valid h (a :: roots)) (hnode : h.node? a = some node)
    (hleaf : node.is_leaf = true) (hv' : Valid h' roots) (hk : Keeps h h' roots) :
    Settled h a node roots version node.pfx none none h' := by
  have hiter : node.content.iter = [] := (hv.sound a node hnode).linked.repr.eq_nil_of_is_empty hleaf
  obtain ⟨v, hvalue⟩ := (hv.sound a node hnode).occupied hiter
  refine .emptied h' hv' hk rfl (fun w hw => ?_) fun b ho => ?_
  · rw [find_eq_read hv hnode]
    unfold read
    rw [hiter, hvalue]
    exact (updated_leaf h node.pfx v 0).elsewhere w hw
  · obtain ⟨p, hp, _⟩ := ho.child hnode
    rw [hiter] at hp
    cases hp

/-- A node in hand whose child is gone, with the last key in it. -/
theorem Exclusive.without_child {owned rest : VersionedNode V} {h₁ h₂ : Heap (VersionedNode V)} {k : UInt8}
    {c : Nat} {s : Bytes} (hv : Valid h (a :: roots)) (hnode : h.node? a = some node)
    (hex : Exclusive h a node version roots owned h₁)
    (hkey : owned.content.iter.lookup k = some c) (hdetached : Detached h₁ owned k c roots rest)
    (hv₂ : Valid h₂ (handles rest ++ roots)) (hk₂ : Keeps h₁ h₂ (handles rest ++ roots))
    (honly : ∀ w, w ≠ k :: s → find h₁ c w = none) (hshares : Shares h₁ c (k :: s) h₂ []) :
    Reworked h a node roots version (node.pfx ++ k :: s) none rest h₂ where
  held := ⟨hv₂, hdetached.held.linked.keeps hk₂ fun b hb => List.mem_append_left _ hb⟩
  keeps := (hex.keeps.subset fun b hb => List.mem_append_right _ hb).trans
    (hk₂.subset fun b hb => List.mem_append_right _ hb)
  updated := by
    have hbelow : Updated (readBelow h₁ owned.value owned.content.iter)
        (readBelow h₂ owned.value rest.content.iter) (k :: s) none := by
      refine updated_edge (fun b hb => ?_) (fun p hp hne w => ?_) ⟨?_, fun w hw => ?_⟩
      · rw [hdetached.iter_eq, lookup_eraseKey, if_neg hb]
      · have hmem : p ∈ rest.content.iter := by
          rw [hdetached.iter_eq]
          exact mem_eraseKey.2 ⟨hp, hne⟩
        exact find_agree hex.held.valid hv₂ (hk₂.agree p.2 (List.mem_append_left _ (mem_handles hmem))) w
      · rw [hdetached.iter_eq, lookup_eraseKey, if_pos rfl]
        rfl
      · rw [hdetached.iter_eq, lookup_eraseKey, if_pos rfl, hkey]
        exact (honly w hw).symm
    refine (hbelow.behind node.pfx).congr (fun w => ?_) (fun w => ?_)
    · rw [← hex.read_eq]
      unfold read
      rw [hex.copy.pfx_eq]
    · unfold read
      rw [hdetached.pfx_eq, hdetached.value_eq, hex.copy.pfx_eq]
  pfx_eq := hdetached.pfx_eq.trans hex.copy.pfx_eq
  version_eq := hdetached.version_eq.trans hex.copy.version_eq
  shares := by
    have hagree := hex.agree_of_lookup hkey
    rw [hex.copy.iter_eq] at hkey
    refine .step hv hnode hkey hex.held.valid hagree hshares (fun c' hc' => by cases hc') fun p hp hne => ?_
    have hleft : p.2 ∈ handles rest := by
      refine mem_handles ?_
      rw [hdetached.iter_eq, hex.copy.iter_eq]
      exact mem_eraseKey.2 ⟨hp, hne⟩
    exact ⟨hleft, (hex.agree_of_mem hp).trans (hk₂.agree p.2 (List.mem_append_left _ hleft))⟩

/-- A node in hand after one of its children was changed or removed. -/
theorem Exclusive.resume {owned rest : VersionedNode V} {h₁ h₂ : Heap (VersionedNode V)} {k : UInt8}
    {c : Nat} {child : VersionedNode V} {s : Bytes} {slot : Option V} {opt : Option Nat}
    (hv : Valid h (a :: roots)) (hnode : h.node? a = some node)
    (hex : Exclusive h a node version roots owned h₁) (hkey : owned.content.iter.lookup k = some c)
    (hdetached : Detached h₁ owned k c roots rest)
    (hchild : h₁.node? c = some child ∧ child.pfx.head? = some k)
    (hsettled : Settled h₁ c child (handles rest ++ roots) version (k :: s) slot opt h₂) :
    ∃ after h₃, add_child_opt rest h₂ k opt = .ok (after, h₃) ∧
      Reworked h a node roots version (node.pfx ++ k :: s) slot after h₃ := by
  cases hsettled with
  | left c' _ hchanged =>
    obtain ⟨after, h₃, hadd, _, hreworked⟩ := hex.put_back hv hnode hkey hdetached hchild hchanged
    exact ⟨after, h₃, hadd, hreworked⟩
  | emptied _ hv₂ hk₂ hvacant honly hshares =>
    subst hvacant
    exact ⟨rest, h₂, rfl, hex.without_child hv hnode hkey hdetached hv₂ hk₂ honly hshares⟩

end Settling

/-- A key that is present is removed, without a failure of the pre-check further down. -/
theorem remove_loop_spec (taken : V → R) (clones : Nat) (message : String) (hv : Valid h (a :: roots))
    (hnode : h.node? a = some node) (hlt : node.version < version) {key : Bytes} {depth : Nat}
    (hdepth : depth ≤ key.length) {value : V} (hfind : find h a (key.drop depth) = some value) :
    ∃ opt h', remove_loop taken clones message h a key depth version = .ok (some (opt, taken value), h') ∧
      Settled h a node roots version (key.drop depth) none opt h' := by
  induction a using Nat.strongRecOn generalizing h roots node depth with
  | ind a ih =>
    rw [remove_loop, hnode, arc_some, ok_bind, prefix_length_key_eq_ok hdepth, ok_bind, length_at,
      usize_sub_eq_ok hdepth]
    cases probe.meets node.pfx hdepth with
    | diverges hne hpfx =>
      rw [find_diverges hv hnode hpfx] at hfind
      cases hfind
    | ends hpfx hlcp hlen =>
      have hvalue : node.value = some value := by rw [← find_self hv hnode, ← hpfx, hfind]
      rw [if_neg (not_not.2 hlcp), ok_bind, if_pos hlen]
      by_cases hleaf : node.is_leaf = true
      · obtain ⟨hv₁, hk₁⟩ := hv.copies clones
        obtain ⟨h', hdrop, hv', hk', _⟩ := drop_arc_spec hv₁
        have hk : Keeps h h' roots := (hk₁.subset fun b hb => List.mem_cons_of_mem _ hb).trans hk'
        refine ⟨none, h', ?_, hpfx ▸ .leaf hv hnode hleaf hv' hk⟩
        rw [if_pos hleaf, hvalue]
        simp only [hdrop, ok_bind, pure_eq_ok]
      · obtain ⟨owned, h₁, howned, hex⟩ := exclusive_spec hv hnode hlt
        have hownedvalue : owned.value = some value := hex.copy.value_eq.trans hvalue
        obtain ⟨opt, h₂, hsettle, hsettled⟩ := settle_spec (hex.set_value none)
        refine ⟨opt, h₂, ?_, hpfx ▸ hsettled⟩
        rw [if_neg hleaf, howned, ok_bind]
        simp only [hownedvalue]
        rw [hsettle]
        rfl
    | goes_on k rest hpfx hlcp hlen hk hrest hdepth' =>
      rw [hpfx] at hfind
      obtain ⟨c, hc, hbelow⟩ := lookup_of_find hv hnode hfind
      have hleaf := inner_of_lookup hv hnode hc
      obtain ⟨owned, h₁, howned, hex⟩ := exclusive_spec hv hnode hlt
      have hlookup : owned.content.iter.lookup k = some c := by
        rw [hex.copy.iter_eq, hc]
      obtain ⟨left, hdelete, hdetached⟩ := delete_child_spec hex.held hlookup
      obtain ⟨hless, stored, hstored, hedge, hchildversion⟩ := hex.older (k, c) (mem_of_lookup hlookup)
      have hchildfind : find h₁ c (k :: rest) = some value := by
        rw [find_agree hv hex.held.valid (hex.agree_of_lookup hlookup), hbelow]
      obtain ⟨opt, h₂, hrec, hsettled⟩ := ih c hless (hdetached.held.valid.perm List.perm_middle.symm) hstored
        hchildversion hdepth' (by rw [hrest]; exact hchildfind)
      rw [hrest] at hsettled
      obtain ⟨after, h₃, hadd, hreworked⟩ := hex.resume hv hnode hlookup hdetached ⟨hstored, hedge⟩ hsettled
      obtain ⟨opt', h₄, hsettle, hsettled'⟩ := settle_spec hreworked
      refine ⟨opt', h₄, ?_, hpfx ▸ hsettled'⟩
      rw [if_neg (not_not.2 hlcp), ok_bind, if_neg hlen, if_neg hleaf, byte_at, hk, ok_bind]
      dsimp only
      rw [howned, ok_bind]
      dsimp only
      rw [hdelete, ok_bind]
      dsimp only
      rw [if_pos hless, hrec]
      simp only [ok_bind, expect_some, hadd, hsettle, pure_eq_ok]

end rart.versioned_tree
