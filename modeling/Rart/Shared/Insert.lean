import Rart.Shared.Branches

open SortedAssoc RcHeap RcHeap.Program Words LexOrder
open RcHeap.Heap (Valid Keeps Agree Below)
open rart.node rart.partials rart.utils

namespace rart.versioned_tree.shared

variable {V : Type} [Features] {h : Heap (VersionedNode V)} {fresh roots : List Nat} {a version : Nat}
  {node : VersionedNode V} {key : Bytes}

/-- Insertion puts the value under what is left of the key, in a tree of its own. -/
theorem insert_recurse_leads (hv : Valid h (a :: roots)) (hnode : h.node? a = some node)
    (hlt : node.version < version) {depth : Nat} (hdepth : depth ≤ key.length) (value : V)
    (old_value_out : Option (Option V)) :
    (insert_recurse a key value depth version old_value_out : Access V _).Leads h fresh fun r h' _ =>
      ∃ a', r = (a', (find h a (key.drop depth)).isSome,
          write_old_value old_value_out (find h a (key.drop depth))) ∧
        Changed h a node roots version (key.drop depth) (some value) a' h' := by
  induction a using Nat.strongRecOn generalizing h fresh roots node depth with
  | ind a ih =>
    have hout : write_old_value old_value_out none = old_value_out := by
      cases old_value_out <;> rfl
    rw [insert_recurse]
    refine leads_read hnode ?_
    rw [prefix_length_key_eq_ok hdepth, lift_ok_bind, length_at, usize_sub_eq_ok hdepth, lift_ok_bind]
    dsimp only
    cases arrival node.pfx key depth with
    | ends hkey hends =>
      have hfind : find h a (key.drop depth) = node.value := hkey ▸ find_self hv hnode
      rw [if_pos hends]
      refine (exclusive_leads hv hnode hlt).bind fun owned h₁ fresh₁ _ hex => ?_
      have hvalue : owned.value = find h a (key.drop depth) := hex.copy.value_eq.trans hfind.symm
      refine leads_alloc_reworked (hex.set_value (some value)) (fun _ => ⟨value, rfl⟩) fun a' h' hchanged => ?_
      exact leads_done ⟨a', by rw [hvalue], hkey ▸ hchanged⟩
    | goes_on k s hkey hlcp hmore hbelow hmatch hk hrest hdepth' =>
      rw [if_neg hmore, if_neg hbelow, if_neg hmatch, hlcp]
      by_cases hleaf : node.is_leaf = true
      · have hiter : node.content.iter = [] :=
          (hv.sound a node hnode).linked.repr.eq_nil_of_is_empty hleaf
        have hnone : find h a (key.drop depth) = none := by
          rw [hkey, find_edge hv hnode, hiter]
          rfl
        rw [if_pos hleaf, hnone, hout]
        refine (insert_leaf_leads hv hnode hlt hrest (by rw [hiter]; rfl) value).bind
          fun a' h' fresh' _ hchanged => leads_done ⟨a', rfl, ?_⟩
        rwa [← hkey] at hchanged
      · rw [if_neg hleaf, hk, lift_ok_bind]
        refine (exclusive_leads hv hnode hlt).bind fun owned h₁ fresh₁ _ hex => ?_
        have hfind : find h a (key.drop depth) =
            (owned.content.iter.lookup k).bind fun c => find h₁ c (k :: s) := by
          rw [← hex.read_eq, hkey, ← hex.copy.pfx_eq]
          exact read_edge h₁ owned k s
        rw [hfind]
        cases hlookup : owned.content.iter.lookup k with
        | none =>
          rw [VersionedNode.delete_child_none hex.held.linked.repr hlookup, lift_ok_bind]
          simp only [slice_from_eq_ok hdepth', to_partial, lift_ok_bind, hrest]
          refine (alloc_leaf_leads hex.held.valid (k :: s) value version).bind fun l h₂ fresh₂ _ hleaf => ?_
          obtain ⟨after, h₃, hadd, hne, hreworked⟩ := hex.add_leaf hlookup hleaf
          have hroots : Valid h₂ (_ ++ l :: roots) := hleaf.valid.perm List.perm_middle
          refine leads_add_child hroots hadd ?_
          refine leads_alloc_reworked hreworked (fun hempty => absurd hempty hne) fun a' h' hchanged =>
            leads_done ⟨a', ?_, ?_⟩
          · cases old_value_out <;> rfl
          · rwa [← hkey] at hchanged
        | some child =>
          obtain ⟨rest, hdelete, hdetached⟩ := delete_child_spec hex.held hlookup
          obtain ⟨hless, stored, hstored, hedge, hchildversion⟩ := hex.older (k, child) (mem_of_lookup hlookup)
          have hvalid := hdetached.held.valid.perm List.perm_middle.symm
          rw [hdelete, lift_ok_bind]
          dsimp only
          rw [if_pos hless]
          refine (ih child hless hvalid hstored hchildversion hdepth').bind ?_
          rintro _ h₂ fresh₂ _ ⟨child', rfl, hchanged⟩
          rw [hrest] at hchanged ⊢
          obtain ⟨after, h₃, hadd, hlookup', hreworked⟩ :=
            hex.put_back hv hnode hlookup hdetached ⟨hstored, hedge⟩ hchanged
          have hroots : Valid h₂ (_ ++ child' :: roots) := hchanged.valid.perm List.perm_middle
          refine leads_add_child hroots hadd ?_
          refine leads_alloc_reworked hreworked (fun hempty => ?_) fun a' h' hchanged' =>
            leads_done ⟨a', rfl, ?_⟩
          · rw [hempty] at hlookup'
            cases hlookup'
          · rwa [← hkey] at hchanged'
    | above k p hpfx hnot hlcp hmore habove =>
      rw [if_neg hmore, if_pos habove, hlcp, find_diverges hv hnode hnot, hout]
      exact (insert_above_leads hv hnode (Nat.le_of_lt hlt) hpfx value).bind
        fun a' h' fresh' _ hchanged => leads_done ⟨a', rfl, hchanged⟩
    | splits c p s k₁ k₂ hne hpfx hkey hnot hlcp hmore hbelow hsplit =>
      rw [if_neg hmore, if_neg hbelow, if_pos hsplit, hlcp, find_diverges hv hnode hnot, hout]
      exact (insert_split_leads hv hnode (Nat.le_of_lt hlt) hne hpfx hkey value).bind
        fun a' h' fresh' _ hchanged => leads_done ⟨a', rfl, hchanged⟩

end rart.versioned_tree.shared
