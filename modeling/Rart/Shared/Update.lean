import Rart.Shared.Branches

open SortedAssoc RcHeap RcHeap.Program Words LexOrder
open RcHeap.Heap (Valid Keeps Agree Below)
open rart.node rart.partials rart.utils

namespace rart.versioned_tree.shared

variable {V : Type} [Features] {h : Heap (VersionedNode V)} {fresh roots : List Nat} {a version : Nat}
  {node : VersionedNode V} {key : Bytes}

section Swap

/-- Going back up from a child that was updated in a tree of its own. The child was cloned out of
its parent, which made it shared, so that the update went on in a copy. -/
theorem swap_child_leads {h₁ h₂ : Heap (VersionedNode V)} {k : UInt8} {c : Nat} {child : VersionedNode V}
    {s : Bytes} {slot : Option V} {opt : Option Nat} (hv : Valid h (a :: roots))
    (hnode : h.node? a = some node) (hlt : node.version < version)
    (hkey : node.content.iter.lookup k = some c) (hedge : child.pfx.head? = some k)
    (hv₁ : Valid h₁ (c :: a :: roots)) (hk₁ : Keeps h h₁ (a :: roots))
    (hsettled : Settled h₁ c child (a :: roots) version (k :: s) slot opt h₂) :
    (swap_child a version k opt : Access V _).Leads h₂ fresh fun opt' h' _ =>
      Settled h a node roots version (node.pfx ++ k :: s) slot opt' h' := by
  have hv₂ : Valid h₂ (a :: (opt.toList ++ roots)) := hsettled.valid.perm List.perm_middle.symm
  have hnode₂ : h₂.node? a = some node :=
    ((hk₁.trans hsettled.keeps).agree a List.mem_cons_self).node?_eq.trans hnode
  unfold swap_child
  refine (exclusive_leads hv₂ hnode₂ hlt).bind fun owned h₃ fresh₃ _ hex => ?_
  obtain ⟨rest, after, h₄, hdelete, hv₃, hadd, hreworked⟩ := hex.swapped hv hnode hkey hedge hv₁ hk₁ hsettled
  rw [hdelete, lift_ok_bind]
  refine leads_add_child_opt hv₃ hadd ?_
  refine (settle_leads hreworked).bind fun opt' h₅ fresh₅ _ hsettled' => ?_
  obtain ⟨h₆, hdrop, hdone⟩ := hsettled'.drop_other
  have hperm : (c :: (opt'.toList ++ roots)).Perm (opt'.toList ++ c :: roots) := List.perm_middle.symm
  have hboth : Valid h₅ ((some c).toList ++ (opt'.toList ++ roots)) := hsettled'.valid.perm hperm
  exact leads_drop_opt hboth hdrop (leads_done hdone)

end Swap

section Slots

/-- A run that calls the callback once, on the slot under a key, and changes no
other slot. -/
def UpdatedSlot (f : Callback V Empty) (calls : List (Slot V)) (h : Heap (VersionedNode V)) (a : Nat)
    (node : VersionedNode V) (roots : List Nat) (version : Nat) (key : Bytes)
    (r : Option Nat × Bool × UpdateCell V Empty) (h' : Heap (VersionedNode V)) : Prop :=
  ∃ opt changed, r = (opt, changed, ⟨none, calls ++ [Callback.slot (find h a key)]⟩) ∧
    (f.apply false (find h a key)).1 = .ok changed ∧
    Updates h a node roots version key (f.apply false (find h a key)).2 opt changed h'

theorem fill_vacant_leads (hv : Valid h (a :: roots)) (hnone : find h a key = none)
    (f : Callback V Empty) (calls : List (Slot V)) {fill : V → Access V Nat}
    (hfill : ∀ value, (fill value).Leads h fresh fun a' h' _ =>
      Changed h a node roots version key (some value) a' h') :
    (fill_vacant a ⟨some f, calls⟩ fill).Leads h fresh fun r h' _ =>
      UpdatedSlot f calls h a node roots version key r h' := by
  obtain ⟨vacant, occupied⟩ := f
  unfold UpdatedSlot fill_vacant versioned_vacant_update UpdateCell.call_vacant
  rw [hnone]
  cases vacant with
  | error e => exact e.elim
  | ok action =>
    cases action with
    | Keep => exact leads_done ⟨some a, false, rfl, rfl, .kept h hv hv.keeps_refl hnone⟩
    | Remove => exact leads_done ⟨some a, false, rfl, rfl, .kept h hv hv.keeps_refl hnone⟩
    | Insert value =>
      exact (hfill value).bind fun a' h' fresh' _ hchanged =>
        leads_done ⟨some a', true, rfl, rfl, .changed _ _ (.left a' h' hchanged)⟩

theorem update_vacant_leads (hv : Valid h (a :: roots)) (hnode : h.node? a = some node)
    (hlt : node.version < version) (value : V) :
    (update_vacant a version value : Access V _).Leads h fresh fun a' h' _ =>
      Changed h a node roots version node.pfx (some value) a' h' :=
  (exclusive_leads hv hnode hlt).bind fun _ _ _ _ hex =>
    leads_alloc_reworked (f := done) (hex.set_value (some value)) (fun _ => ⟨value, rfl⟩)
      fun _ _ hchanged => leads_done hchanged

theorem update_occupied_leads (hv : Valid h (a :: roots)) (hnode : h.node? a = some node)
    (hlt : node.version < version) {current : V} (hvalue : node.value = some current)
    (f : Callback V Empty) (calls : List (Slot V)) :
    (update_occupied a version ⟨some f, calls⟩ : Access V _).Leads h fresh fun r h' _ =>
      UpdatedSlot f calls h a node roots version node.pfx r h' := by
  have hfind : find h a node.pfx = some current := by
    rw [find_self hv hnode, hvalue]
  obtain ⟨vacant, occupied⟩ := f
  unfold UpdatedSlot update_occupied
  rw [hfind]
  refine (exclusive_leads hv hnode hlt).bind fun owned h₁ fresh₁ _ hex => ?_
  have hownedvalue : owned.value = some current := hex.copy.value_eq.trans hvalue
  rw [hownedvalue, expect_some, lift_ok_bind]
  simp only [UpdateCell.call_occupied, expect_some, ok_bind, pure_eq_ok, lift_ok_bind, Callback.apply, Callback.slot]
  generalize occupied current = left
  obtain ⟨value, answer⟩ := left
  cases answer with
  | error e => exact e.elim
  | ok action =>
    cases action with
    | Keep =>
      exact leads_alloc_reworked (hex.set_value (some value)) (fun _ => ⟨value, rfl⟩)
        fun _ _ hchanged => leads_done ⟨_, true, rfl, rfl, .changed _ _ (.left _ _ hchanged)⟩
    | Insert value =>
      exact leads_alloc_reworked (hex.set_value (some value)) (fun _ => ⟨value, rfl⟩)
        fun _ _ hchanged => leads_done ⟨_, true, rfl, rfl, .changed _ _ (.left _ _ hchanged)⟩
    | Remove =>
      exact (settle_leads (hex.set_value none)).bind fun opt h₂ fresh₂ _ hsettled =>
        leads_done ⟨opt, true, rfl, rfl, .changed _ _ hsettled⟩

/-- The callback is called once, on the slot under what is left of the key, and
only that slot changes, in a tree of its own. -/
theorem update_recurse_leads (hv : Valid h (a :: roots)) (hnode : h.node? a = some node)
    (hlt : node.version < version) {depth : Nat} (hdepth : depth ≤ key.length)
    (f : Callback V Empty) (calls : List (Slot V)) :
    (update_recurse a key depth version ⟨some f, calls⟩ : Access V _).Leads h fresh fun r h' _ =>
      UpdatedSlot f calls h a node roots version (key.drop depth) r h' := by
  induction a using Nat.strongRecOn generalizing h fresh roots node depth with
  | ind a ih =>
    have hlinked := (hv.sound a node hnode).linked
    rw [update_recurse]
    refine leads_read hnode ?_
    rw [prefix_length_key_eq_ok hdepth, lift_ok_bind, length_at, usize_sub_eq_ok hdepth, lift_ok_bind]
    dsimp only
    cases arrival node.pfx key depth with
    | ends hkey hends =>
      have hfind : find h a (key.drop depth) = node.value := hkey ▸ find_self hv hnode
      rw [if_pos hends]
      cases hvalue : node.value with
      | none =>
        rw [Option.isNone_none, if_pos rfl]
        refine fill_vacant_leads hv (hfind.trans hvalue) f calls fun value => ?_
        rw [hkey]
        exact update_vacant_leads hv hnode hlt value
      | some current =>
        rw [Option.isNone_some, if_neg (by simp), hkey]
        exact update_occupied_leads hv hnode hlt hvalue f calls
    | goes_on k s hkey hlcp hmore hbelow hmatch hk hrest hdepth' =>
      have hfind : find h a (key.drop depth) = (node.content.iter.lookup k).bind fun c => find h c (k :: s) :=
        hkey ▸ find_edge hv hnode k s
      rw [if_neg hmore, if_neg hbelow, if_neg hmatch, hlcp]
      -- without a child under the next byte, a leaf is added
      have hadd : node.content.iter.lookup k = none →
          (fill_vacant a ⟨some f, calls⟩ fun value =>
            insert_leaf a key value (depth + node.pfx.length) version : Access V _).Leads h fresh fun r h' _ =>
              UpdatedSlot f calls h a node roots version (key.drop depth) r h' := fun habsent => by
        refine fill_vacant_leads hv ?_ f calls fun value => ?_
        · rw [hfind, habsent, Option.bind_none]
        · rw [hkey]
          exact insert_leaf_leads hv hnode hlt hrest habsent value
      by_cases hleaf : node.is_leaf = true
      · rw [if_pos hleaf]
        refine hadd ?_
        rw [hlinked.repr.eq_nil_of_is_empty hleaf]
        rfl
      · have hseek : node.seek_child k = node.content.iter.lookup k := hlinked.repr.seek_child k
        rw [if_neg hleaf, hk, lift_ok_bind, hseek]
        cases hlookup : node.content.iter.lookup k with
        | none => exact hadd hlookup
        | some child =>
          have hmem : (k, child) ∈ node.content.iter := mem_of_lookup hlookup
          obtain ⟨stored, hstored, hedge, hchildversion⟩ := hlinked.edges (k, child) hmem
          have hless := hv.counted.older a node hnode child (mem_handles hmem)
          obtain ⟨h₁, hclone, hv₁, hk₁, hsame₁⟩ := hv.clone ⟨stored, hstored⟩
          have hstored₁ : h₁.node? child = some stored := (hsame₁ child).trans hstored
          have hchild : find h₁ child (key.drop (depth + node.pfx.length)) = find h a (key.drop depth) := by
            rw [hfind, hrest, hlookup, Option.bind_some]
            exact find_agree hv hv₁ ((hk₁.agree a (List.mem_cons_self)).handle hnode
              (mem_handles hmem)) (k :: s)
          have hclones : h.cloneAll [child] = some h₁ := by
            rw [Heap.cloneAll, hclone]
            rfl
          refine leads_cloneAll hclones ?_
          simp only [hless, if_true]
          refine (ih child hless hv₁ hstored₁ (Nat.lt_of_le_of_lt hchildversion hlt) hdepth').bind ?_
          rintro _ h₂ fresh₂ _ ⟨opt, changed, rfl, hanswer, hupdates⟩
          rw [hchild] at hanswer hupdates ⊢
          cases hupdates with
          | kept h₂ hv₂ hk₂ hsame =>
            have hv₂ : Valid h₂ ((some child).toList ++ a :: roots) := hv₂
            obtain ⟨h₃, hdrop, hv₃, hk₃⟩ := drop_opt_spec hv₂
            simp only [Bool.false_eq_true, not_false_eq_true, if_true]
            refine leads_drop_opt hv₂ hdrop (leads_done ⟨some a, false, rfl, hanswer, .kept h₃ hv₃ ?_ ?_⟩)
            · exact (hk₁.trans (hk₂.subset fun b hb => List.mem_cons_of_mem _ hb)).trans hk₃
            · rw [← hsame, hchild]
          | changed opt h₂ hsettled =>
            rw [hrest] at hsettled
            simp only [not_true_eq_false, if_false]
            refine (swap_child_leads hv hnode hlt hlookup hedge hv₁ hk₁ hsettled).bind
              fun opt' h₃ fresh₃ _ hdone => leads_done ⟨opt', true, rfl, hanswer, .changed opt' h₃ ?_⟩
            rwa [← hkey] at hdone
    | above k p hpfx hnot hlcp hmore habove =>
      rw [if_neg hmore, if_pos habove, hlcp]
      exact fill_vacant_leads hv (find_diverges hv hnode hnot) f calls fun value =>
        insert_above_leads hv hnode (Nat.le_of_lt hlt) hpfx value
    | splits c p s k₁ k₂ hne hpfx hkey hnot hlcp hmore hbelow hsplit =>
      rw [if_neg hmore, if_neg hbelow, if_pos hsplit, hlcp]
      exact fill_vacant_leads hv (find_diverges hv hnode hnot) f calls fun value =>
        insert_split_leads hv hnode (Nat.le_of_lt hlt) hne hpfx hkey value

end Slots

end rart.versioned_tree.shared
