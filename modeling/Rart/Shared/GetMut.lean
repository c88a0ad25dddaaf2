import Rart.Shared.Branches

open SortedAssoc RcHeap RcHeap.Program Words LexOrder
open RcHeap.Heap (Valid Keeps Agree Below)
open rart.node rart.partials rart.utils

namespace rart.versioned_tree.shared

variable {V : Type} [Features] {h h' : Heap (VersionedNode V)} {fresh roots : List Nat} {a version : Nat}
  {node after : VersionedNode V} {key : Bytes} {slot : Option V}

section Path

/-- The way to a key leads through new cells only, with one reference each. -/
def Own (fresh : List Nat) (h h' : Heap (VersionedNode V)) (a' : Nat) (key : Bytes) : Prop :=
  Ready h h' a' key ∧ ∀ b ∈ visited h' a' key, b ∈ fresh

/-- A new cell above a way that is the tree's own. -/
theorem Own.above {fresh' : List Nat} {k : UInt8} {c' n : Nat} {rest : Bytes} {h₁ : Heap (VersionedNode V)}
    (hr : Reworked h a node roots version key slot after h') (hlookup : after.content.iter.lookup k = some c')
    (hle : h.cells.length ≤ h₁.cells.length) (hown : Own fresh' h₁ h' c' (k :: rest))
    (hn : h'.cells.length ≤ n) :
    Own (n :: fresh') h (h'.allocAt n after) n (after.pfx ++ k :: rest) := by
  have hoccupied : after.content.iter = [] → ∃ v, after.value = some v := fun hempty => by
    rw [hempty] at hlookup
    cases hlookup
  obtain ⟨hv, hk⟩ := hr.held.valid.allocAt ⟨hr.held.linked, hoccupied⟩ hn
  have hin : c' ∈ handles after := mem_handles (p := (k, c')) (mem_of_lookup hlookup)
  have hvisited : visited (h'.allocAt n after) n (after.pfx ++ k :: rest) = n :: visited h' c' (k :: rest) := by
    rw [visited_goes_on hv (Heap.node?_allocAt hn after) hlookup,
      visited_agree hr.held.valid hv (hk.agree c' (List.mem_append_left _ hin))]
  have hlength := hr.keeps.continues.length_le
  refine ⟨fun b hb => ?_, fun b hb => ?_⟩
  · rw [hvisited, List.mem_cons] at hb
    cases hb with
    | inl heq =>
      rw [heq]
      refine ⟨?_, by omega⟩
      unfold Heap.count
      rw [Heap.cell?_allocAt hn, if_pos rfl]
      rfl
    | inr hbelow =>
      obtain ⟨hcount, hold⟩ := hown.1 b hbelow
      obtain ⟨_, stored, hstored⟩ := visited_le hr.held.valid hbelow
      have hlt := Heap.lt_of_node? hstored
      refine ⟨?_, Nat.le_trans hle hold⟩
      unfold Heap.count at hcount ⊢
      rwa [Heap.cell?_allocAt hn, if_neg (by omega)]
  · rw [hvisited, List.mem_cons] at hb
    cases hb with
    | inl heq =>
      rw [heq]
      exact List.mem_cons_self
    | inr hbelow => exact List.mem_cons_of_mem n (hown.2 b hbelow)

/-- The copied way to a key that is present holds the same entries. -/
theorem cow_path_to_key_leads (hv : Valid h (a :: roots)) (hnode : h.node? a = some node)
    (hlt : node.version < version) {depth : Nat} (hdepth : depth ≤ key.length) {value : V}
    (hfind : find h a (key.drop depth) = some value) :
    (cow_path_to_key a key depth version : Access V _).Leads h fresh fun r h' fresh' =>
      ∃ a', r = some a' ∧ Changed h a node roots version (key.drop depth) (some value) a' h' ∧
        Own fresh' h h' a' (key.drop depth) := by
  induction a using Nat.strongRecOn generalizing h fresh roots node depth with
  | ind a ih =>
    rw [cow_path_to_key]
    refine leads_read hnode ?_
    rw [prefix_length_key_eq_ok hdepth, lift_ok_bind, length_at, usize_sub_eq_ok hdepth]
    cases probe.meets node.pfx hdepth with
    | diverges hne hpfx =>
      rw [find_diverges hv hnode hpfx] at hfind
      cases hfind
    | ends hpfx hlcp hlen =>
      rw [hpfx, find_self hv hnode] at hfind
      rw [if_neg (not_not.2 hlcp)]
      refine (exclusive_leads hv hnode hlt).bind fun owned h₁ fresh₁ _ hex => ?_
      have hpfx_eq : owned.pfx = node.pfx := hex.copy.pfx_eq
      have hvalue : owned.value = some value := hex.copy.value_eq.trans hfind
      have hreworked : Reworked h a node roots version node.pfx owned.value owned h₁ :=
        hex.set_value owned.value
      rw [hvalue] at hreworked
      rw [lift_ok_bind]
      simp only [hpfx_eq, hlen, if_true, hvalue, Option.isNone_some, Bool.false_eq_true, if_false]
      refine Program.leads_alloc hreworked.held.valid ⟨hreworked.held.linked, fun _ => ⟨value, hvalue⟩⟩
        fun n hn => leads_done ⟨n, rfl, hpfx ▸ changed_allocAt hreworked (fun _ => ⟨value, hvalue⟩) hn, ?_⟩
      obtain ⟨hv₂, _⟩ := hreworked.held.valid.allocAt ⟨hreworked.held.linked, fun _ => ⟨value, hvalue⟩⟩ hn
      have hstops : visited (h₁.allocAt n owned) n (key.drop depth) = [n] := by
        refine visited_stops hv₂ (Heap.node?_allocAt hn owned) fun k rest hkey => ?_
        have hlens := congrArg List.length hkey
        rw [hpfx, hpfx_eq] at hlens
        simp only [List.length_append, List.length_cons] at hlens
        omega
      refine ⟨fun b hb => ?_, fun b hb => ?_⟩
      · rw [hstops, List.mem_singleton] at hb
        rw [hb]
        refine ⟨?_, Nat.le_trans hex.keeps.continues.length_le hn⟩
        unfold Heap.count
        rw [Heap.cell?_allocAt hn, if_pos rfl]
        rfl
      · rw [hstops, List.mem_singleton] at hb
        rw [hb]
        exact List.mem_cons_self
    | goes_on k rest hpfx hlcp hlen hk hrest hdepth' =>
      rw [hpfx] at hfind
      obtain ⟨c, hc, hbelow⟩ := lookup_of_find hv hnode hfind
      rw [if_neg (not_not.2 hlcp)]
      refine (exclusive_leads hv hnode hlt).bind fun owned h₁ fresh₁ _ hex => ?_
      have hpfx_eq : owned.pfx = node.pfx := hex.copy.pfx_eq
      have hleaf : owned.is_leaf = false := by
        rw [hex.copy.is_leaf_eq, ← Bool.not_eq_true]
        exact inner_of_lookup hv hnode hc
      have hlookup : owned.content.iter.lookup k = some c := by
        rw [hex.copy.iter_eq, hc]
      obtain ⟨left, hdelete, hdetached⟩ := delete_child_spec hex.held hlookup
      obtain ⟨hless, stored, hstored, hedge, hchildversion⟩ := hex.older (k, c) (mem_of_lookup hlookup)
      have hchildfind : find h₁ c (k :: rest) = some value := by
        rw [find_agree hv hex.held.valid (hex.agree_of_lookup hlookup), hbelow]
      rw [lift_ok_bind, if_neg (by rw [hpfx_eq]; exact hlen), if_neg (by rw [hleaf]; simp), byte_at, hpfx_eq, hk,
        lift_ok_bind, hdelete, lift_ok_bind]
      dsimp only
      rw [if_pos hless]
      refine (ih c hless (hdetached.held.valid.perm List.perm_middle.symm) hstored hchildversion hdepth'
        (by rw [hrest]; exact hchildfind)).bind ?_
      rintro _ h₂ fresh₂ _ ⟨c', rfl, hchanged, hown⟩
      rw [hrest] at hchanged hown
      obtain ⟨after, h₃, hadd, hlookup', hreworked⟩ :=
        hex.put_back hv hnode hlookup hdetached ⟨hstored, hedge⟩ hchanged
      -- the table has room again, so the heap stays
      obtain rfl := add_child_heap (hdetached.is_leaf_eq.trans hleaf) hdetached.room hadd
      have hoccupied : after.content.iter = [] → ∃ v, after.value = some v := fun hempty => by
        rw [hempty] at hlookup'
        cases hlookup'
      have hroots : Valid _ (_ ++ c' :: roots) := hchanged.valid.perm List.perm_middle
      refine leads_add_child hroots hadd ?_
      refine Program.leads_alloc hreworked.held.valid ⟨hreworked.held.linked, hoccupied⟩ fun n hn =>
        leads_done ⟨n, rfl, hpfx ▸ changed_allocAt hreworked hoccupied hn, ?_⟩
      have habove := Own.above hreworked hlookup' hex.keeps.continues.length_le hown hn
      rwa [hreworked.pfx_eq, ← hpfx] at habove

end Path

section Write

/-- A mutable reference leads to the value that is stored, and a write through it
changes nothing else. -/
theorem get_iterate_mut_cow_ready_leads (write : V → V) (hv : Valid h (a :: roots))
    (hnode : h.node? a = some node) {depth : Nat} (hdepth : depth ≤ key.length)
    (hsole : ∀ b ∈ visited h a (key.drop depth), h.count b = 1 ∧ b ∈ fresh) {value : V}
    (hfind : find h a (key.drop depth) = some value) :
    (get_iterate_mut_cow_ready write a key depth : Access V _).Leads h fresh fun r h' _ =>
      r = some value ∧ Written h a node roots (key.drop depth) (some (write value)) h' := by
  induction a using Nat.strongRecOn generalizing h fresh roots node depth with
  | ind a ih =>
    obtain ⟨hone, hfresh⟩ := hsole a (mem_visited_self hnode)
    obtain ⟨hcell, _⟩ := take_sole hnode hone
    obtain ⟨hv₁, hsound₁, _, holder⟩ := hv.free hcell
    have ha := Heap.lt_of_cell? hcell
    have hdead : (h.setCell a none).node? a = none := by
      unfold Heap.node?
      rw [Heap.cell?_setCell ha, if_pos rfl]
      rfl
    rw [get_iterate_mut_cow_ready]
    refine leads_take_own hv hcell hfresh ?_
    dsimp only
    rw [prefix_length_key_eq_ok hdepth, lift_ok_bind, length_at, usize_sub_eq_ok hdepth]
    cases probe.meets node.pfx hdepth with
    | diverges hne hpfx =>
      rw [find_diverges hv hnode hpfx] at hfind
      cases hfind
    | ends hpfx hlcp hlen =>
      have hvalue : node.value = some value := by rw [← find_self hv hnode, ← hpfx, hfind]
      rw [if_neg (not_not.2 hlcp), lift_ok_bind, if_pos hlen, hvalue]
      refine leads_restore hv₁ ⟨⟨hsound₁.linked.repr, hsound₁.linked.edges⟩, fun _ => ⟨write value, rfl⟩⟩
        ?_ hdead hfresh holder (leads_done ⟨rfl, hpfx ▸ .of_value hv hcell⟩)
      unfold Heap.setCell
      rwa [List.length_set]
    | goes_on k rest hpfx hlcp hlen hk hrest hdepth' =>
      rw [hpfx] at hfind hsole
      obtain ⟨c, hc, hchildfind⟩ := lookup_of_find hv hnode hfind
      obtain ⟨child, hborrowed⟩ := Borrowed.of_lookup hv hcell hc rest
      rw [if_neg (not_not.2 hlcp), lift_ok_bind, if_neg hlen, byte_at, hk, lift_ok_bind, hborrowed.seek_eq]
      dsimp only
      rw [if_pos hborrowed.less]
      refine (ih c hborrowed.less hborrowed.valid hborrowed.stored hdepth' (fun b hb => ?_)
        (by rw [hrest, hborrowed.find_eq]; exact hchildfind)).bind ?_
      · rw [hrest] at hb
        obtain ⟨hin, hcount⟩ := hborrowed.visited b hb
        rw [hcount]
        exact hsole b hin
      · rintro _ h₂ fresh₂ hsub ⟨rfl, hwritten⟩
        rw [hrest] at hwritten
        obtain ⟨hv₂, hstored, hback⟩ := hborrowed.written hv hcell hc hwritten
        refine leads_restore hv₂ hstored ?_ (hwritten.dead a hdead) (hsub a hfresh) holder
          (leads_done ⟨rfl, hpfx ▸ hback⟩)
        have hle := hwritten.keeps.continues.length_le
        unfold Heap.setCell at hle
        rw [List.length_set] at hle
        omega

end Write

end rart.versioned_tree.shared
