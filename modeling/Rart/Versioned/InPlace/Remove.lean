import Rart.Versioned.InPlace.Insert

open SortedAssoc RcHeap Words LexOrder
open RcHeap.Heap (Valid Keeps Agree Below)
open rart.mapping rart.node rart.partials rart.utils

namespace rart.versioned_tree

open VersionedAdaptiveRadixTree

variable {V E R : Type}

section Removal

variable [Features] {h h' : Heap (VersionedNode V)} {roots : List Nat} {a : Nat} {node : VersionedNode V}
  {version : Nat} {key : Bytes} {depth : Nat} {value : V}

theorem ends_in_leaf_stops (hv : Valid h roots) (hnode : h.node? a = some node) :
    ends_in_leaf h a node.pfx = node.is_leaf := by
  unfold ends_in_leaf
  rw [stopping_stops hv hnode stops_at_end]
  rfl

theorem Descends.find_eq {k : UInt8} {rest : Bytes} {c : Nat} {owned left : VersionedNode V}
    {h₁ : Heap (VersionedNode V)} (hd : Descends h a node roots version k rest c owned left h₁)
    (hv : Valid h (a :: roots)) (hnode : h.node? a = some node) (hlt : node.version < version)
    (hc : node.content.iter.lookup k = some c) (key : Bytes) : find h₁ c key = find h c key := by
  obtain ⟨owned', h₁', howned, hex⟩ := exclusive_spec hv hnode hlt
  rw [hd.exclusive_eq, Except.ok.injEq, Prod.mk.injEq] at howned
  obtain ⟨rfl, rfl⟩ := howned
  have hc' : owned.content.iter.lookup k = some c := by rw [hex.copy.iter_eq, hc]
  exact find_agree hv hex.held.valid (hex.agree_of_lookup hc') key

/-- Where nothing is shared, a removal clones the value of a leaf and nothing else. -/
theorem remove_loop_copied {taken : V → R} {clones : Nat} {message : String} {r : R} {opt : Option Nat}
    (hv : Valid h (a :: roots)) (hnode : h.node? a = some node) (hlt : node.version < version)
    (hdepth : depth ≤ key.length) (hu : Unshared h a (key.drop depth))
    (hfind : find h a (key.drop depth) = some value)
    (hrun : remove_loop taken clones message h a key depth version = .ok (some (opt, r), h')) :
    h'.copied = h.copied + if ends_in_leaf h a (key.drop depth) then clones else 0 := by
  induction a using Nat.strongRecOn generalizing h h' roots node depth opt r with
  | ind a ih =>
    rw [remove_loop, hnode, arc_some, ok_bind, prefix_length_key_eq_ok hdepth, ok_bind, length_at,
      usize_sub_eq_ok hdepth] at hrun
    cases probe.meets node.pfx hdepth with
    | diverges hne hpfx =>
      rw [find_diverges hv hnode hpfx] at hfind
      cases hfind
    | ends hpfx hlcp hlen =>
      rw [if_neg (not_not.2 hlcp), ok_bind, if_pos hlen] at hrun
      rw [hpfx, ends_in_leaf_stops hv hnode]
      by_cases hleaf : node.is_leaf = true
      · rw [if_pos hleaf] at hrun
        rw [if_pos hleaf]
        split at hrun
        · obtain ⟨h₁, _, hend⟩ := bind_eq_ok_iff.1 hrun
          cases hend
        · obtain ⟨h₁, hdrop, hend⟩ := bind_eq_ok_iff.1 hrun
          cases hend
          exact copied_drop_arc hdrop
      · obtain ⟨h₁, howned, hcopied, _⟩ := exclusive_unique (hu.cell hnode) hlt
        rw [if_neg hleaf, howned, ok_bind] at hrun
        rw [if_neg hleaf, Nat.add_zero, ← hcopied]
        dsimp only at hrun
        split at hrun
        · obtain ⟨h₂, _, hend⟩ := bind_eq_ok_iff.1 hrun
          cases hend
        · obtain ⟨⟨_, h₂⟩, hsettle, hend⟩ := bind_eq_ok_iff.1 hrun
          cases hend
          exact copied_settle hsettle
    | goes_on k rest hpfx hlcp hlen hk hrest hdepth' =>
      rw [hpfx] at hfind hu ⊢
      obtain ⟨c, hc, hbelow⟩ := lookup_of_find hv hnode hfind
      have hleaf := inner_of_lookup hv hnode hc
      obtain ⟨owned, left, h₁, hd⟩ := hu.descends hv hnode hlt hc
      obtain ⟨stored, hstored, hversion⟩ := hd.child
      rw [if_neg (not_not.2 hlcp), ok_bind, if_neg hlen, if_neg hleaf, byte_at, hk, ok_bind] at hrun
      dsimp only at hrun
      rw [hd.exclusive_eq, ok_bind] at hrun
      dsimp only at hrun
      rw [hd.delete_eq, ok_bind] at hrun
      dsimp only at hrun
      rw [if_pos hd.older] at hrun
      obtain ⟨⟨result, h₂⟩, hrec, hrun⟩ := bind_eq_ok_iff.1 hrun
      cases result with
      | none =>
        obtain ⟨_, hexpect, _⟩ := bind_eq_ok_iff.1 hrun
        cases hexpect
      | some result =>
        obtain ⟨opt', r'⟩ := result
        rw [expect_some, ok_bind] at hrun
        obtain ⟨⟨after, h₃⟩, hadd, hrun⟩ := bind_eq_ok_iff.1 hrun
        obtain ⟨⟨_, h₄⟩, hsettle, hend⟩ := bind_eq_ok_iff.1 hrun
        cases hend
        have hcopied := ih c hd.older hd.valid hstored hversion hdepth' (by rw [hrest]; exact hd.unshared)
          (by rw [hrest, hd.find_eq hv hnode hlt hc]; exact hbelow) hrec
        have hadded : h₃.copied = h₂.copied := by
          cases opt' with
          | none =>
            cases hadd
            rfl
          | some c' =>
            have hadded := copied_add_child hadd
            rwa [hd.growth_eq, Nat.add_zero] at hadded
        rw [copied_settle hsettle, hadded, hcopied, hd.copied_eq, hrest]
        unfold ends_in_leaf
        rw [hd.stopping_eq]

end Removal

section Writes

variable [Features] {h h' : Heap (VersionedNode V)} {roots : List Nat} {a : Nat} {node : VersionedNode V}
  {version : Nat} {key : Bytes} {depth : Nat} {value : V}

/-- Where nothing is shared, the way to a value is taken as it is. -/
theorem cow_path_to_key_copied {a' : Nat} (hv : Valid h (a :: roots)) (hnode : h.node? a = some node)
    (hlt : node.version < version) (hdepth : depth ≤ key.length) (hu : Unshared h a (key.drop depth))
    (hfind : find h a (key.drop depth) = some value)
    (hrun : cow_path_to_key h a key depth version = .ok (some a', h')) : h'.copied = h.copied := by
  induction a using Nat.strongRecOn generalizing h h' roots node depth a' with
  | ind a ih =>
    obtain ⟨h₀, howned, hcopied, _⟩ := exclusive_unique (hu.cell hnode) hlt
    rw [cow_path_to_key, hnode, arc_some, ok_bind, prefix_length_key_eq_ok hdepth, ok_bind, length_at,
      usize_sub_eq_ok hdepth] at hrun
    cases probe.meets node.pfx hdepth with
    | diverges hne hpfx =>
      rw [find_diverges hv hnode hpfx] at hfind
      cases hfind
    | ends hpfx hlcp hlen =>
      rw [if_neg (not_not.2 hlcp), howned, ok_bind] at hrun
      dsimp only at hrun
      rw [ok_bind, if_pos hlen] at hrun
      split at hrun
      · obtain ⟨h₁, _, hend⟩ := bind_eq_ok_iff.1 hrun
        cases hend
      · cases hrun
        exact hcopied
    | goes_on k rest hpfx hlcp hlen hk hrest hdepth' =>
      rw [hpfx] at hfind hu
      obtain ⟨c, hc, hbelow⟩ := lookup_of_find hv hnode hfind
      obtain ⟨owned, left, h₁, hd⟩ := hu.descends hv hnode hlt hc
      obtain ⟨stored, hstored, hversion⟩ := hd.child
      have hpfx_eq : owned.pfx = node.pfx := by rw [hd.owned_eq]
      have hleaf : ¬ owned.is_leaf = true := by
        rw [hd.owned_eq]
        have hinner := inner_of_lookup hv hnode hc
        exact hinner
      rw [if_neg (not_not.2 hlcp), hd.exclusive_eq, ok_bind] at hrun
      dsimp only at hrun
      rw [ok_bind, hpfx_eq, if_neg hlen, if_neg hleaf, byte_at, hk, ok_bind] at hrun
      rw [hd.delete_eq, ok_bind] at hrun
      dsimp only at hrun
      rw [if_pos hd.older] at hrun
      obtain ⟨⟨result, h₂⟩, hrec, hrun⟩ := bind_eq_ok_iff.1 hrun
      cases result with
      | none =>
        obtain ⟨_, _, hend⟩ := bind_eq_ok_iff.1 hrun
        cases hend
      | some c' =>
        obtain ⟨⟨after, h₃⟩, hadd, hend⟩ := bind_eq_ok_iff.1 hrun
        cases hend
        have hbelow' := ih c hd.older hd.valid hstored hversion hdepth' (by rw [hrest]; exact hd.unshared)
          (by rw [hrest, hd.find_eq hv hnode hlt hc]; exact hbelow) hrec
        have hadded := copied_add_child hadd
        rw [hd.growth_eq, Nat.add_zero, hbelow', hd.copied_eq] at hadded
        exact hadded

/-- The write itself copies nothing. -/
theorem get_iterate_mut_cow_ready_copied {write : V → V} {seen : Option V}
    (hrun : get_iterate_mut_cow_ready write h a key depth = .ok (seen, h')) : h'.copied = h.copied := by
  induction a using Nat.strongRecOn generalizing h h' depth seen with
  | ind a ih =>
    rw [get_iterate_mut_cow_ready] at hrun
    obtain ⟨taken, htake, hrun⟩ := bind_eq_ok_iff.1 hrun
    cases taken with
    | none =>
      obtain ⟨_, hexpect, _⟩ := bind_eq_ok_iff.1 hrun
      cases hexpect
    | some taken =>
      obtain ⟨node, borrowed⟩ := taken
      have hborrowed : borrowed.copied = h.copied := copied_try_unwrap htake
      rw [expect_some, ok_bind] at hrun
      obtain ⟨common, _, hrun⟩ := bind_eq_ok_iff.1 hrun
      split at hrun
      · cases hrun
        rfl
      · obtain ⟨remaining, _, hrun⟩ := bind_eq_ok_iff.1 hrun
        split at hrun
        · split at hrun
          · cases hrun
            rfl
          · cases hrun
            exact hborrowed
        · obtain ⟨k, _, hrun⟩ := bind_eq_ok_iff.1 hrun
          split at hrun
          · cases hrun
            rfl
          · split at hrun
            · rename_i hless
              obtain ⟨⟨value, h₁⟩, hrec, hend⟩ := bind_eq_ok_iff.1 hrun
              cases hend
              exact (ih _ hless hrec).trans hborrowed
            · cases hrun

end Writes

end rart.versioned_tree
