import Rart.Slot
import Rart.Versioned.Remove

open SortedAssoc RcHeap Words LexOrder
open RcHeap.Heap (Valid Keeps Agree Below)
open rart.node rart.partials rart.utils

namespace rart.versioned_tree

variable {V : Type}

section Steps

def versioned_vacant_update (update : UpdateCell V Empty) :
    Result (Option V × UpdateCell V Empty) := do
  let (action, update) ← update.call_vacant
  match action with
  | .ok (.Insert value) => return (some value, update)
  | .ok .Keep => return (none, update)
  | .ok .Remove => return (none, update)

/-- `let Some(value) = versioned_vacant_update(update) else { return (Some(cur_node), false); };` -/
def fill_vacant (h : Heap (VersionedNode V)) (cur_node : Nat) (update : UpdateCell V Empty)
    (fill : V → Result (Nat × Heap (VersionedNode V))) :
    Result (Option Nat × Bool × UpdateCell V Empty × Heap (VersionedNode V)) := do
  let (value, update) ← versioned_vacant_update update
  match value with
  | none => return (some cur_node, false, update, h)
  | some value =>
    let (new_node, h) ← fill value
    return (some new_node, true, update, h)

/-- An `Option` of an `Arc` goes out of scope. -/
def drop_opt (h : Heap (VersionedNode V)) (node : Option Nat) : Result (Heap (VersionedNode V)) :=
  arc (h.dropAll node.toList)

variable [Features]

/-- The value of a node that has none. -/
def update_vacant (h : Heap (VersionedNode V)) (cur_node version : Nat) (value : V) :
    Result (Nat × Heap (VersionedNode V)) := do
  let (new_node, h) ← exclusive h cur_node version
  return h.alloc { new_node with value := some value }

/-- The callback on the value of a node. -/
def update_occupied (h : Heap (VersionedNode V)) (cur_node version : Nat) (update : UpdateCell V Empty) :
    Result (Option Nat × Bool × UpdateCell V Empty × Heap (VersionedNode V)) := do
  let (new_node, h) ← exclusive h cur_node version
  let value ← expect new_node.value "occupied update requires an occupied slot"
  let (value, action, update) ← update.call_occupied value
  match action with
  | .ok .Keep =>
    let (new_node, h) := h.alloc { new_node with value := some value }
    return (some new_node, true, update, h)
  | .ok (.Insert value) =>
    let (new_node, h) := h.alloc { new_node with value := some value }
    return (some new_node, true, update, h)
  | .ok .Remove =>
    let (new_node, h) ← settle h { new_node with value := none }
    return (new_node, true, update, h)

/-- The node after the child behind an edge was updated. -/
def swap_child (h : Heap (VersionedNode V)) (cur_node version : Nat) (k : UInt8)
    (new_child_opt : Option Nat) : Result (Option Nat × Heap (VersionedNode V)) := do
  let (new_node_mut, h) ← exclusive h cur_node version
  let (_old_child, new_node_mut) ← new_node_mut.delete_child k
  let (new_node_mut, h) ← add_child_opt new_node_mut h k new_child_opt
  let (new_node, h) ← settle h new_node_mut
  return (new_node, ← drop_opt h _old_child)

def update_recurse (h : Heap (VersionedNode V)) (cur_node : Nat) (key : Bytes) (depth version : Nat)
    (update : UpdateCell V Empty) :
    Result (Option Nat × Bool × UpdateCell V Empty × Heap (VersionedNode V)) := do
  let node ← arc (h.node? cur_node)
  let longest_common_prefix ← prefix_length_key node.pfx key depth
  let remaining ← length_at key depth
  let is_prefix_match := min node.pfx.length remaining = longest_common_prefix
  if is_prefix_match ∧ node.pfx.length = remaining then
    if node.value.isNone then
      fill_vacant h cur_node update fun value => update_vacant h cur_node version value
    else update_occupied h cur_node version update
  else if is_prefix_match ∧ node.pfx.length > remaining then
    fill_vacant h cur_node update fun value =>
      insert_above h cur_node longest_common_prefix value version
  else if ¬ is_prefix_match then
    fill_vacant h cur_node update fun value =>
      insert_split h cur_node key value depth longest_common_prefix version
  else if node.is_leaf then
    fill_vacant h cur_node update fun value =>
      insert_leaf h cur_node key value (depth + longest_common_prefix) version
  else
    let k ← byte_at key (depth + node.pfx.length)
    let prefix_len := node.pfx.length
    match node.seek_child k with
    | none =>
      fill_vacant h cur_node update fun value =>
        insert_leaf h cur_node key value (depth + prefix_len) version
    | some child =>
      let h ← arc (h.clone child)
      -- the cell of a child is older than its parent's
      if child < cur_node then
        let (new_child_opt, changed, update, h) ←
          update_recurse h child key (depth + prefix_len) version update
        if ¬ changed then
          return (some cur_node, false, update, ← drop_opt h new_child_opt)
        else
          let (new_node, h) ← swap_child h cur_node version k new_child_opt
          return (new_node, true, update, h)
      else throw .out_of_fuel
termination_by cur_node

end Steps

variable [Features] {h h' : Heap (VersionedNode V)} {roots : List Nat} {a : Nat} {node : VersionedNode V}
  {version : Nat}

section Settling

omit [Features] in
theorem drop_opt_spec {opt : Option Nat} (hv : Valid h (opt.toList ++ roots)) :
    ∃ h', drop_opt h opt = .ok h' ∧ Valid h' roots ∧ Keeps h h' roots := by
  obtain ⟨h', hdrop, hv', hk, _⟩ := Valid.dropAll opt.toList hv
  refine ⟨h', ?_, hv', hk⟩
  unfold drop_opt
  rw [hdrop]
  rfl

theorem Settled.valid {key : Bytes} {slot : Option V} {opt : Option Nat}
    (hs : Settled h a node roots version key slot opt h') : Valid h' (opt.toList ++ roots) := by
  cases hs with
  | left a' h' hchanged => exact hchanged.valid
  | emptied h' hv hk hvacant honly hshares => exact hv

theorem Settled.keeps {key : Bytes} {slot : Option V} {opt : Option Nat}
    (hs : Settled h a node roots version key slot opt h') : Keeps h h' roots := by
  cases hs with
  | left a' h' hchanged => exact hchanged.keeps
  | emptied h' hv hk hvacant honly hshares => exact hk

theorem Settled.shares {key : Bytes} {slot : Option V} {opt : Option Nat}
    (hs : Settled h a node roots version key slot opt h') : Shares h a key h' opt.toList := by
  cases hs with
  | left a' h' hchanged => exact hchanged.shares
  | emptied h' hv hk hvacant honly hshares => exact hshares

/-- What is found in the settled tree. -/
theorem Settled.updated {key : Bytes} {slot : Option V} {opt : Option Nat}
    (hs : Settled h a node roots version key slot opt h') :
    Updated (find h a) (fun w => opt.bind fun a' => find h' a' w) key slot := by
  cases hs with
  | left a' h' hchanged => exact hchanged.updated
  | emptied h' hv hk hvacant honly hshares => exact ⟨hvacant.symm, fun w hw => (honly w hw).symm⟩

/-- Another `Arc` goes out of scope. -/
theorem Settled.drop_other {key : Bytes} {slot : Option V} {opt : Option Nat} {c : Nat}
    (hs : Settled h a node (c :: roots) version key slot opt h') :
    ∃ h'', drop_opt h' (some c) = .ok h'' ∧ Settled h a node roots version key slot opt h'' := by
  have hperm : (c :: (opt.toList ++ roots)).Perm (opt.toList ++ c :: roots) := List.perm_middle.symm
  have hboth : Valid h' ((some c).toList ++ (opt.toList ++ roots)) := hs.valid.perm hperm
  obtain ⟨h'', hdrop, hv, hk⟩ := drop_opt_spec hboth
  refine ⟨h'', hdrop, ?_⟩
  cases hs with
  | left a' h' hchanged =>
    obtain ⟨after, hafter, hversion, hedge⟩ := hchanged.stored
    have hagree := hk.agree a' (List.mem_cons_self)
    refine .left a' h'' ⟨hv, ?_, ?_, ⟨after, hagree.node?_eq.trans hafter, hversion, hedge⟩, ?_⟩
    · exact (hchanged.keeps.subset fun b hb => List.mem_cons_of_mem _ hb).trans
        (hk.subset fun b hb => List.mem_cons_of_mem _ hb)
    · exact hchanged.updated.congr (fun _ => rfl) fun w => find_agree hchanged.valid hv hagree w
    · exact hchanged.shares.keeps hk fun b hb => by
        rw [List.mem_singleton.1 hb]
        exact List.mem_cons_self
  | emptied h' hv' hk' hvacant honly hshares =>
    exact .emptied h'' hv ((hk'.subset fun b hb => List.mem_cons_of_mem _ hb).trans hk) hvacant honly
      (hshares.keeps hk fun b hb => by cases hb)

end Settling

section Swap

/-- A node in hand after its child, which it still refers to, was updated in a tree of its own. -/
theorem Exclusive.swapped {h₁ h₂ h₃ : Heap (VersionedNode V)} {k : UInt8} {c : Nat} {child owned : VersionedNode V}
    {s : Bytes} {slot : Option V} {opt : Option Nat} (hv : Valid h (a :: roots))
    (hnode : h.node? a = some node) (hkey : node.content.iter.lookup k = some c)
    (hedge : child.pfx.head? = some k) (hv₁ : Valid h₁ (c :: a :: roots)) (hk₁ : Keeps h h₁ (a :: roots))
    (hsettled : Settled h₁ c child (a :: roots) version (k :: s) slot opt h₂)
    (hex : Exclusive h₂ a node version (opt.toList ++ roots) owned h₃) :
    ∃ rest after h₄, owned.delete_child k = .ok (some c, rest) ∧
      Valid h₃ (handles rest ++ c :: (opt.toList ++ roots)) ∧
      add_child_opt rest h₃ k opt = .ok (after, h₄) ∧
      Reworked h a node (c :: roots) version (node.pfx ++ k :: s) slot after h₄ := by
  have hk₂ := hk₁.trans hsettled.keeps
  have hroot := hk₂.agree a (List.mem_cons_self)
  have hv₂ : Valid h₂ (a :: (opt.toList ++ roots)) := hsettled.valid.perm List.perm_middle.symm
  have hlookup : owned.content.iter.lookup k = some c := by
    rw [hex.copy.iter_eq, hkey]
  obtain ⟨rest, hdelete, hdetached⟩ := delete_child_spec hex.held hlookup
  have hmem : c ∈ handles owned := mem_handles (p := (k, c)) (mem_of_lookup hlookup)
  have hmem' : c ∈ handles node := by
    rw [← hex.copy.handles_eq]
    exact hmem
  have hc : Agree h h₃ c :=
    (hroot.handle hnode hmem').trans (hex.keeps.agree c (List.mem_append_left _ hmem))
  have hc₁ : ∀ w, find h₃ c w = find h₁ c w := fun w => by
    rw [find_agree hv hex.held.valid hc]
    exact (find_agree hv hv₁ ((hk₁.agree a (List.mem_cons_self)).handle hnode hmem') w).symm
  have hopt : ∀ c' ∈ opt, Agree h₂ h₃ c' := fun c' hc' =>
    hex.keeps.agree c' (List.mem_append_right _ (List.mem_append_left _ (Option.mem_toList.2 hc')))
  have hchild : Updated (find h₃ c) (fun w => opt.bind fun c' => find h₃ c' w) (k :: s) slot := by
    refine hsettled.updated.congr hc₁ fun w => ?_
    cases opt with
    | none => rfl
    | some c' => exact find_agree hv₂ hex.held.valid (hopt c' rfl) w
  have hread : ∀ w, find h a w = behind node.pfx (readBelow h₃ owned.value owned.content.iter) w := by
    intro w
    rw [← find_agree hv hv₂ hroot, ← hex.read_eq]
    unfold read
    rw [hex.copy.pfx_eq]
  have hkeeps : Keeps h h₃ (c :: roots) := {
    agree := fun b hb => by
      cases List.mem_cons.1 hb with
      | inl heq =>
        rw [heq]
        exact hc
      | inr hin =>
        exact (hk₂.agree b (List.mem_cons_of_mem _ hin)).trans
          (hex.keeps.agree b (List.mem_append_right _ (List.mem_append_right _ hin)))
    continues := hk₂.continues.trans hex.keeps.continues }
  have hpfx : rest.pfx = node.pfx := hdetached.pfx_eq.trans hex.copy.pfx_eq
  have hversion : rest.version = version := hdetached.version_eq.trans hex.copy.version_eq
  have habsent : rest.content.iter.lookup k = none := by
    rw [hdetached.iter_eq, lookup_eraseKey, if_pos rfl]
  have hshares := hsettled.shares.keeps hex.keeps fun c' hc' =>
    List.mem_append_right _ (List.mem_append_left _ hc')
  have hothers : ∀ p ∈ node.content.iter, p.1 ≠ k → p ∈ rest.content.iter ∧ Agree h h₃ p.2 := by
    intro p hp hne
    refine ⟨?_, (hroot.handle hnode (mem_handles hp)).trans (hex.agree_of_mem hp)⟩
    rw [hdetached.iter_eq, hex.copy.iter_eq]
    exact mem_eraseKey.2 ⟨hp, hne⟩
  have hagree₁ := (hk₁.agree a (List.mem_cons_self)).handle hnode hmem'
  -- the node with the new child, or without one
  cases opt with
  | none =>
    refine ⟨rest, rest, h₃, hdelete, hdetached.held.valid, rfl, hdetached.held, hkeeps, ?_, hpfx, hversion,
      .step hv hnode hkey hv₁ hagree₁ hshares (fun c' hc' => by cases hc') fun p hp hne => ?_⟩
    case refine_2 =>
      obtain ⟨hin, hkept⟩ := hothers p hp hne
      exact ⟨mem_handles hin, hkept⟩
    have hbelow : Updated (readBelow h₃ owned.value owned.content.iter)
        (readBelow h₃ owned.value rest.content.iter) (k :: s) slot := by
      refine updated_edge (fun b hb => ?_) (fun _ _ _ _ => rfl) ?_
      · rw [hdetached.iter_eq, lookup_eraseKey, if_neg hb]
      · rw [habsent, hlookup]
        exact hchild
    refine (hbelow.behind node.pfx).congr hread fun w => ?_
    unfold read
    rw [hpfx, hdetached.value_eq]
  | some c' =>
    have hchanged : Changed h₁ c child (a :: roots) version (k :: s) slot c' h₂ := by
      cases hsettled with
      | left _ _ hchanged => exact hchanged
    obtain ⟨stored, hstored, hstoredversion, hhead⟩ := hchanged.stored
    have hheld : Held h₃ rest (c' :: c :: roots) :=
      ⟨hdetached.held.valid.perm (List.Perm.append_left _ (List.Perm.swap c c' roots)),
        hdetached.held.linked⟩
    obtain ⟨after, h₄, hadd, hattached⟩ := add_child_spec hheld habsent
      ((hopt c' rfl).node?_eq.trans hstored) (hhead k hedge rfl)
      (Nat.le_of_eq (hstoredversion.trans hversion.symm))
    refine ⟨rest, after, h₄, hdelete, hdetached.held.valid, hadd, hattached.held,
      hkeeps.trans (hattached.keeps.subset fun b hb => List.mem_append_right _ (List.mem_cons_of_mem _ hb)),
      ?_, hattached.pfx_eq.trans hpfx, hattached.version_eq.trans hversion, .step hv hnode hkey hv₁ hagree₁
        (hshares.keeps hattached.keeps fun d hd => ?_) (fun d hd => ?_) fun p hp hne => ?_⟩
    case refine_2 =>
      rw [List.mem_singleton.1 hd]
      exact List.mem_append_right _ (List.mem_cons_self)
    case refine_3 =>
      rw [List.mem_singleton.1 hd]
      refine mem_handles (p := (k, c')) ?_
      rw [hattached.iter_eq, mem_insertSorted]
      exact .inl rfl
    case refine_4 =>
      obtain ⟨hin, hkept⟩ := hothers p hp hne
      refine ⟨mem_handles ?_, hkept.trans (hattached.keeps.agree p.2 (List.mem_append_left _ (mem_handles hin)))⟩
      rw [hattached.iter_eq, mem_insertSorted]
      exact .inr hin
    have hbelow : Updated (readBelow h₃ owned.value owned.content.iter)
        (readBelow h₃ owned.value (insertSorted k c' rest.content.iter)) (k :: s) slot := by
      refine updated_edge (fun b hb => ?_) (fun _ _ _ _ => rfl) ?_
      · rw [lookup_insertSorted, if_neg hb, hdetached.iter_eq, lookup_eraseKey, if_neg hb]
      · rw [lookup_insertSorted, if_pos rfl, hlookup]
        exact hchild
    refine (hbelow.behind node.pfx).congr hread fun w => ?_
    rw [hattached.read_eq, hpfx, hdetached.value_eq]

/-- Going back up from a child that was updated in a tree of its own. -/
theorem swap_child_spec {h₁ h₂ : Heap (VersionedNode V)} {k : UInt8} {c : Nat} {child : VersionedNode V}
    {s : Bytes} {slot : Option V} {opt : Option Nat} (hv : Valid h (a :: roots))
    (hnode : h.node? a = some node) (hlt : node.version < version)
    (hkey : node.content.iter.lookup k = some c) (hedge : child.pfx.head? = some k)
    (hv₁ : Valid h₁ (c :: a :: roots)) (hk₁ : Keeps h h₁ (a :: roots))
    (hsettled : Settled h₁ c child (a :: roots) version (k :: s) slot opt h₂) :
    ∃ opt' h', swap_child h₂ a version k opt = .ok (opt', h') ∧
      Settled h a node roots version (node.pfx ++ k :: s) slot opt' h' := by
  have hv₂ : Valid h₂ (a :: (opt.toList ++ roots)) := hsettled.valid.perm List.perm_middle.symm
  have hnode₂ : h₂.node? a = some node :=
    ((hk₁.trans hsettled.keeps).agree a List.mem_cons_self).node?_eq.trans hnode
  obtain ⟨owned, h₃, howned, hex⟩ := exclusive_spec hv₂ hnode₂ hlt
  obtain ⟨rest, after, h₄, hdelete, _, hadd, hreworked⟩ := hex.swapped hv hnode hkey hedge hv₁ hk₁ hsettled
  obtain ⟨opt', h₅, hsettle, hsettled'⟩ := settle_spec hreworked
  obtain ⟨h₆, hdrop, hdone⟩ := hsettled'.drop_other
  refine ⟨opt', h₆, ?_, hdone⟩
  unfold swap_child
  rw [howned]
  simp only [ok_bind, hdelete, hadd, hsettle, hdrop, pure_eq_ok]

end Swap

section Slots

/-- What an update leads to, given what the callback leaves in the slot. -/
inductive Updates (h : Heap (VersionedNode V)) (a : Nat) (node : VersionedNode V) (roots : List Nat)
    (version : Nat) (key : Bytes) (slot : Option V) :
    Option Nat → Bool → Heap (VersionedNode V) → Prop where
  | changed (opt : Option Nat) (h' : Heap (VersionedNode V))
      (settled : Settled h a node roots version key slot opt h') :
      Updates h a node roots version key slot opt true h'
  | kept (h' : Heap (VersionedNode V)) (valid : Valid h' (a :: roots)) (keeps : Keeps h h' (a :: roots))
      (same : find h a key = slot) : Updates h a node roots version key slot (some a) false h'

/-- A run that calls the callback once, on the slot under a key, and changes no
other slot. -/
def UpdatesSlot (f : Callback V Empty) (calls : List (Slot V)) (h : Heap (VersionedNode V)) (a : Nat)
    (node : VersionedNode V) (roots : List Nat) (version : Nat) (key : Bytes)
    (run : Result (Option Nat × Bool × UpdateCell V Empty × Heap (VersionedNode V))) : Prop :=
  ∃ opt changed h', run = .ok (opt, changed, ⟨none, calls ++ [Callback.slot (find h a key)]⟩, h') ∧
    (f.apply false (find h a key)).1 = .ok changed ∧
    Updates h a node roots version key (f.apply false (find h a key)).2 opt changed h'

theorem fill_vacant_spec {key : Bytes} (hv : Valid h (a :: roots)) (hnone : find h a key = none)
    (f : Callback V Empty) (calls : List (Slot V)) {fill : V → Result (Nat × Heap (VersionedNode V))}
    (hfill : ∀ value, ∃ a' h', fill value = .ok (a', h') ∧
      Changed h a node roots version key (some value) a' h') :
    UpdatesSlot f calls h a node roots version key (fill_vacant h a ⟨some f, calls⟩ fill) := by
  obtain ⟨vacant, occupied⟩ := f
  unfold UpdatesSlot fill_vacant versioned_vacant_update UpdateCell.call_vacant
  rw [hnone]
  cases vacant with
  | error e => exact e.elim
  | ok action =>
    cases action with
    | Keep => exact ⟨some a, false, h, rfl, rfl, .kept h hv hv.keeps_refl hnone⟩
    | Remove => exact ⟨some a, false, h, rfl, rfl, .kept h hv hv.keeps_refl hnone⟩
    | Insert value =>
      obtain ⟨a', h', hrun, hchanged⟩ := hfill value
      refine ⟨some a', true, h', ?_, rfl, .changed _ _ (.left a' h' hchanged)⟩
      simp only [expect_some, ok_bind, pure_eq_ok, hrun]
      rfl

theorem update_vacant_spec (hv : Valid h (a :: roots)) (hnode : h.node? a = some node)
    (hlt : node.version < version) (value : V) :
    ∃ a' h', update_vacant h a version value = .ok (a', h') ∧
      Changed h a node roots version node.pfx (some value) a' h' := by
  obtain ⟨owned, h₁, howned, hex⟩ := exclusive_spec hv hnode hlt
  refine ⟨_, _, ?_, (hex.set_value (some value)).alloc fun _ => ⟨value, rfl⟩⟩
  unfold update_vacant
  rw [howned]
  rfl

theorem update_occupied_spec (hv : Valid h (a :: roots)) (hnode : h.node? a = some node)
    (hlt : node.version < version) {current : V} (hvalue : node.value = some current)
    (f : Callback V Empty) (calls : List (Slot V)) :
    UpdatesSlot f calls h a node roots version node.pfx (update_occupied h a version ⟨some f, calls⟩) := by
  have hfind : find h a node.pfx = some current := by
    rw [find_self hv hnode, hvalue]
  obtain ⟨owned, h₁, howned, hex⟩ := exclusive_spec hv hnode hlt
  have hownedvalue : owned.value = some current := hex.copy.value_eq.trans hvalue
  obtain ⟨vacant, occupied⟩ := f
  unfold UpdatesSlot update_occupied
  rw [hfind, howned, ok_bind]
  simp only [hownedvalue, expect_some, ok_bind, UpdateCell.call_occupied, Callback.apply, Callback.slot]
  generalize occupied current = left
  obtain ⟨value, answer⟩ := left
  cases answer with
  | error e => exact e.elim
  | ok action =>
    cases action with
    | Keep =>
      have hchanged := (hex.set_value (some value)).alloc fun _ => ⟨value, rfl⟩
      exact ⟨_, true, _, rfl, rfl, .changed _ _ (.left _ _ hchanged)⟩
    | Insert value =>
      have hchanged := (hex.set_value (some value)).alloc fun _ => ⟨value, rfl⟩
      exact ⟨_, true, _, rfl, rfl, .changed _ _ (.left _ _ hchanged)⟩
    | Remove =>
      obtain ⟨opt, h₂, hsettle, hsettled⟩ := settle_spec (hex.set_value none)
      refine ⟨opt, true, h₂, ?_, rfl, .changed _ _ hsettled⟩
      simp only [ok_bind, pure_eq_ok, hsettle]

/-- The callback is called once, on the slot under what is left of the key, and
only that slot changes, in a tree of its own. -/
theorem update_recurse_spec (hv : Valid h (a :: roots)) (hnode : h.node? a = some node)
    (hlt : node.version < version) {key : Bytes} {depth : Nat} (hdepth : depth ≤ key.length)
    (f : Callback V Empty) (calls : List (Slot V)) :
    UpdatesSlot f calls h a node roots version (key.drop depth)
      (update_recurse h a key depth version ⟨some f, calls⟩) := by
  induction a using Nat.strongRecOn generalizing h roots node depth with
  | ind a ih =>
    have hlinked := (hv.sound a node hnode).linked
    rw [update_recurse, hnode, arc_some, ok_bind, prefix_length_key_eq_ok hdepth, ok_bind, length_at,
      usize_sub_eq_ok hdepth, ok_bind]
    dsimp only
    cases arrival node.pfx key depth with
    | ends hkey hends =>
      have hfind : find h a (key.drop depth) = node.value := hkey ▸ find_self hv hnode
      rw [if_pos hends]
      cases hvalue : node.value with
      | none =>
        rw [Option.isNone_none, if_pos rfl]
        refine fill_vacant_spec hv (hfind.trans hvalue) f calls fun value => ?_
        rw [hkey]
        exact update_vacant_spec hv hnode hlt value
      | some current =>
        rw [Option.isNone_some, if_neg (by simp), hkey]
        exact update_occupied_spec hv hnode hlt hvalue f calls
    | goes_on k s hkey hlcp hmore hbelow hmatch hk hrest hdepth' =>
      have hfind : find h a (key.drop depth) = (node.content.iter.lookup k).bind fun c => find h c (k :: s) :=
        hkey ▸ find_edge hv hnode k s
      rw [if_neg hmore, if_neg hbelow, if_neg hmatch, hlcp]
      -- without a child under the next byte, a leaf is added
      have hadd : node.content.iter.lookup k = none →
          UpdatesSlot f calls h a node roots version (key.drop depth)
            (fill_vacant h a ⟨some f, calls⟩ fun value =>
              insert_leaf h a key value (depth + node.pfx.length) version) := fun habsent => by
        refine fill_vacant_spec hv ?_ f calls fun value => ?_
        · rw [hfind, habsent, Option.bind_none]
        · rw [hkey]
          exact insert_leaf_spec hv hnode hlt hrest habsent value
      by_cases hleaf : node.is_leaf = true
      · rw [if_pos hleaf]
        refine hadd ?_
        rw [hlinked.repr.eq_nil_of_is_empty hleaf]
        rfl
      · have hseek : node.seek_child k = node.content.iter.lookup k := hlinked.repr.seek_child k
        rw [if_neg hleaf, hk, ok_bind, hseek]
        cases hlookup : node.content.iter.lookup k with
        | none => exact hadd hlookup
        | some child =>
          have hmem : (k, child) ∈ node.content.iter := mem_of_lookup hlookup
          obtain ⟨stored, hstored, hedge, hchildversion⟩ := hlinked.edges (k, child) hmem
          have hless := hv.counted.older a node hnode child (mem_handles hmem)
          have hlive : ∃ node, h.node? child = some node := ⟨stored, hstored⟩
          obtain ⟨h₁, hclone, hv₁, hk₁, hsame₁⟩ := hv.clone hlive
          have hstored₁ : h₁.node? child = some stored := (hsame₁ child).trans hstored
          obtain ⟨opt, changed, h₂, hrec, hanswer, hupdates⟩ :=
            ih child hless hv₁ hstored₁ (Nat.lt_of_le_of_lt hchildversion hlt) hdepth'
          have hchild : find h₁ child (key.drop (depth + node.pfx.length)) = find h a (key.drop depth) := by
            rw [hfind, hrest, hlookup, Option.bind_some]
            exact find_agree hv hv₁ ((hk₁.agree a (List.mem_cons_self)).handle hnode
              (mem_handles hmem)) (k :: s)
          rw [hchild] at hrec hanswer hupdates
          unfold UpdatesSlot
          dsimp only
          rw [hclone, arc_some, ok_bind]
          simp only [hless, if_true, hrec, ok_bind]
          cases hupdates with
          | kept h₂ hv₂ hk₂ hsame =>
            obtain ⟨h₃, hdrop, hv₃, hk₃⟩ := drop_opt_spec (show Valid h₂ ((some child).toList ++ a :: roots) from hv₂)
            refine ⟨some a, false, h₃, ?_, hanswer, .kept h₃ hv₃ ?_ ?_⟩
            · simp only [Bool.false_eq_true, not_false_eq_true, if_true, hdrop, ok_bind, pure_eq_ok]
            · exact (hk₁.trans (hk₂.subset fun b hb => List.mem_cons_of_mem _ hb)).trans hk₃
            · rw [← hsame, hchild]
          | changed opt h₂ hsettled =>
            rw [hrest] at hsettled
            obtain ⟨opt', h₃, hswap, hdone⟩ := swap_child_spec hv hnode hlt hlookup hedge hv₁ hk₁ hsettled
            refine ⟨opt', true, h₃, ?_, hanswer, .changed opt' h₃ ?_⟩
            · simp only [not_true_eq_false, if_false, hswap, ok_bind, pure_eq_ok]
            · rw [← hkey] at hdone
              exact hdone
    | above k p hpfx hnot hlcp hmore habove =>
      rw [if_neg hmore, if_pos habove, hlcp]
      exact fill_vacant_spec hv (find_diverges hv hnode hnot) f calls fun value =>
        insert_above_spec hv hnode (Nat.le_of_lt hlt) hpfx value
    | splits c p s k₁ k₂ hne hpfx hkey hnot hlcp hmore hbelow hsplit =>
      rw [if_neg hmore, if_neg hbelow, if_pos hsplit, hlcp]
      exact fill_vacant_spec hv (find_diverges hv hnode hnot) f calls fun value =>
        insert_split_spec hv hnode (Nat.le_of_lt hlt) hne hpfx hkey value

end Slots

end rart.versioned_tree
