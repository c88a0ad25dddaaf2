import Rart.Shared.Branches

open SortedAssoc RcHeap RcHeap.Program Words LexOrder
open RcHeap.Heap (Valid Keeps Agree)
open rart.node rart.partials rart.utils

namespace rart.versioned_tree.shared

variable {V R : Type} [Features] {h : Heap (VersionedNode V)} {fresh roots : List Nat} {a version : Nat}
  {node : VersionedNode V} {key : Bytes}

/-- A key that is present is removed, without a failure of the pre-check further down. -/
theorem remove_loop_leads (taken : V → R) (clones : Nat) (message : String) (hv : Valid h (a :: roots))
    (hnode : h.node? a = some node) (hlt : node.version < version) {depth : Nat}
    (hdepth : depth ≤ key.length) {value : V} (hfind : find h a (key.drop depth) = some value) :
    (remove_loop taken clones message a key depth version : Access V _).Leads h fresh fun r h' _ =>
      ∃ opt, r = some (opt, taken value) ∧
        Settled h a node roots version (key.drop depth) none opt h' := by
  induction a using Nat.strongRecOn generalizing h fresh roots node depth with
  | ind a ih =>
    rw [remove_loop]
    refine leads_read hnode ?_
    rw [prefix_length_key_eq_ok hdepth, lift_ok_bind, length_at, usize_sub_eq_ok hdepth]
    cases probe.meets node.pfx hdepth with
    | diverges hne hpfx =>
      rw [find_diverges hv hnode hpfx] at hfind
      cases hfind
    | ends hpfx hlcp hlen =>
      have hvalue : node.value = some value := by rw [← find_self hv hnode, ← hpfx, hfind]
      rw [if_neg (not_not.2 hlcp), lift_ok_bind, if_pos hlen]
      by_cases hleaf : node.is_leaf = true
      · obtain ⟨hv₁, hk₁⟩ := hv.copies clones
        obtain ⟨h', hdrop, hv', hk', _⟩ := drop_arc_spec hv₁
        have hk : Keeps h h' roots := (hk₁.subset fun b hb => List.mem_cons_of_mem _ hb).trans hk'
        rw [if_pos hleaf, hvalue]
        exact leads_copies clones (leads_drop_arc hv₁ hdrop
          (leads_done ⟨none, rfl, hpfx ▸ .leaf hv hnode hleaf hv' hk⟩))
      · rw [if_neg hleaf]
        refine (exclusive_leads hv hnode hlt).bind fun owned h₁ fresh₁ _ hex => ?_
        have hownedvalue : owned.value = some value := hex.copy.value_eq.trans hvalue
        simp only [hownedvalue]
        exact (settle_leads (hex.set_value none)).bind fun opt h₂ fresh₂ _ hsettled =>
          leads_done ⟨opt, rfl, hpfx ▸ hsettled⟩
    | goes_on k rest hpfx hlcp hlen hk hrest hdepth' =>
      rw [hpfx] at hfind
      obtain ⟨c, hc, hbelow⟩ := lookup_of_find hv hnode hfind
      have hleaf := inner_of_lookup hv hnode hc
      rw [if_neg (not_not.2 hlcp), lift_ok_bind, if_neg hlen, if_neg hleaf, byte_at, hk, lift_ok_bind]
      dsimp only
      refine (exclusive_leads hv hnode hlt).bind fun owned h₁ fresh₁ _ hex => ?_
      have hlookup : owned.content.iter.lookup k = some c := by
        rw [hex.copy.iter_eq, hc]
      obtain ⟨left, hdelete, hdetached⟩ := delete_child_spec hex.held hlookup
      obtain ⟨hless, stored, hstored, hedge, hchildversion⟩ := hex.older (k, c) (mem_of_lookup hlookup)
      have hchildfind : find h₁ c (k :: rest) = some value := by
        rw [find_agree hv hex.held.valid (hex.agree_of_lookup hlookup), hbelow]
      rw [hdelete, lift_ok_bind]
      dsimp only
      rw [if_pos hless]
      refine (ih c hless (hdetached.held.valid.perm List.perm_middle.symm) hstored hchildversion hdepth'
        (by rw [hrest]; exact hchildfind)).bind ?_
      rintro _ h₂ fresh₂ _ ⟨opt, rfl, hsettled⟩
      rw [hrest] at hsettled
      rw [expect_some, lift_ok_bind]
      obtain ⟨after, h₃, hadd, hreworked⟩ := hex.resume hv hnode hlookup hdetached ⟨hstored, hedge⟩ hsettled
      have hv₂ : Valid h₂ (handles left ++ (opt.toList ++ roots)) := by
        refine hsettled.valid.perm ?_
        rw [← List.append_assoc, ← List.append_assoc]
        exact List.perm_append_comm.append_right roots
      refine leads_add_child_opt hv₂ hadd ?_
      exact (settle_leads hreworked).bind fun opt' h₄ fresh₄ _ hsettled' =>
        leads_done ⟨opt', rfl, hpfx ▸ hsettled'⟩

end rart.versioned_tree.shared
