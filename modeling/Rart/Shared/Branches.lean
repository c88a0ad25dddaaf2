import Rart.Shared.Nodes

open SortedAssoc RcHeap RcHeap.Program Words LexOrder
open RcHeap.Heap (Valid Keeps Agree Below)
open rart.mapping rart.node rart.partials rart.utils

namespace rart.versioned_tree.shared

variable {V α : Type} [Features] {h h' : Heap (VersionedNode V)} {fresh roots : List Nat} {a version : Nat}
  {node after : VersionedNode V} {key : Bytes} {slot : Option V}
  {post : α → Heap (VersionedNode V) → List Nat → Prop}

section Exclusive

/-- A node that seems to be shared may be the tree's own by the time it is copied. The copy is as
good. -/
theorem exclusive_leads (hv : Valid h (a :: roots)) (hnode : h.node? a = some node)
    (hlt : node.version < version) :
    (exclusive a version : Access V _).Leads h fresh fun owned h' _ =>
      Exclusive h a node version roots owned h' := by
  have hs := hv.sound a node hnode
  unfold exclusive ensure_cow_node try_unwrap
  simp only [Program.bind_assoc]
  refine leads_read hnode ?_
  rw [if_neg (by omega)]
  simp only [Program.bind_assoc]
  refine leads_take hv hnode (fun hcell => ?_) fun _ => ?_
  · -- the node is moved
    obtain ⟨hv₁, hsound₁, hk₁, _⟩ := hv.free hcell
    have hcopy : Copy node { node with version } version := ⟨rfl, rfl, rfl, rfl, rfl⟩
    have hstored := hcopy.stored hsound₁ hsound₁.linked.repr (Nat.le_of_lt hlt)
    have hv₁ : Valid (h.setCell a none) (handles { node with version } ++ roots) := hv₁
    refine leads_alloc hv₁ hstored fun n hn => ?_
    obtain ⟨hv₂, hk₂⟩ := hv₁.allocAt hstored hn
    have hcell₂ : (Heap.allocAt (h.setCell a none) n { node with version }).cell? n =
        some ⟨1, { node with version }⟩ := by
      rw [Heap.cell?_allocAt hn, if_pos rfl]
    exact leads_take_own hv₂ hcell₂ List.mem_cons_self
      (leads_done (.of_cell hv hnode hlt hcopy hv₂ hcell₂ (hk₁.trans hk₂)))
  · -- the node is copied
    obtain ⟨copy, h₁, hclone, hh₁, hcopy, hk₁⟩ := cow_clone_inner_spec hv hnode (Nat.le_of_lt hlt)
    have hoccupied : copy.content.iter = [] → ∃ v, copy.value = some v := by
      rw [hcopy.iter_eq, hcopy.value_eq]
      exact hs.occupied
    simp only [Program.bind_assoc]
    refine leads_cow_clone_inner hclone (leads_alloc hh₁.valid ⟨hh₁.linked, hoccupied⟩ fun n hn => ?_)
    obtain ⟨hv₂, hk₂⟩ := hh₁.valid.allocAt ⟨hh₁.linked, hoccupied⟩ hn
    have hcell₂ : (h₁.allocAt n copy).cell? n = some ⟨1, copy⟩ := by
      rw [Heap.cell?_allocAt hn, if_pos rfl]
    obtain ⟨h₃, hdrop, hv₃, hcell₃, hk₃⟩ := drop_original hk₁ hv₂ hcell₂ hk₂
    refine leads_drop_arc (hv₂.perm (List.Perm.swap n a roots)) hdrop ?_
    exact leads_take_own hv₃ hcell₃ List.mem_cons_self
      (leads_done (.of_cell hv hnode hlt hcopy hv₃ hcell₃ hk₃))

end Exclusive

section Cells

/-- A node in hand goes to a cell of its own. -/
theorem changed_allocAt {n : Nat} (hr : Reworked h a node roots version key slot after h')
    (hoccupied : after.content.iter = [] → ∃ v, after.value = some v) (hn : h'.cells.length ≤ n) :
    Changed h a node roots version key slot n (h'.allocAt n after) := by
  obtain ⟨hpad, hk⟩ := hr.held.valid.pad n
  have hchanged := (hr.kept hpad hk).alloc hoccupied
  rwa [Heap.alloc_pad hn] at hchanged

/-- A reworked node is stored. -/
theorem leads_alloc_reworked {f : Nat → Access V α} (hr : Reworked h a node roots version key slot after h')
    (hoccupied : after.content.iter = [] → ∃ v, after.value = some v)
    (hf : ∀ n h'', Changed h a node roots version key slot n h'' → (f n).Leads h'' (n :: fresh) post) :
    (allocCell after >>= f).Leads h' fresh post :=
  Program.leads_alloc hr.held.valid ⟨hr.held.linked, hoccupied⟩ fun n hn =>
    hf n _ (changed_allocAt hr hoccupied hn)

/-- A reworked node is stored, or goes out of scope with nothing left of it. -/
theorem settle_leads (hr : Reworked h a node roots version key slot after h') :
    (settle after : Access V _).Leads h' fresh fun opt h'' _ =>
      Settled h a node roots version key slot opt h'' := by
  unfold settle
  by_cases hbare : after.num_children = 0 ∧ after.value.isNone
  · obtain ⟨h'', hdrop, hsettled⟩ := hr.emptied hbare
    rw [if_pos hbare]
    exact leads_drop_node hr.held.valid hdrop (leads_done hsettled)
  · rw [if_neg hbare]
    exact leads_alloc_reworked hr (hr.occupied hbare) fun n h'' hchanged => leads_done (.left n h'' hchanged)

/-- A new leaf. -/
theorem alloc_leaf_leads (hv : Valid h roots) (pfx : Bytes) (value : V) (version : Nat) :
    (allocCell (.new_leaf pfx value version) : Access V _).Leads h fresh fun leaf h' _ =>
      NewLeaf h roots pfx value version leaf h' := by
  have hh := held_leaf hv pfx value version
  refine Program.leads_alloc (f := done) hh.valid ⟨hh.linked, fun _ => ⟨value, rfl⟩⟩ fun n hn => leads_done ?_
  obtain ⟨hpad, hk⟩ := hv.pad n
  have hleaf := alloc_leaf_spec hpad pfx value version
  rw [Heap.alloc_pad hn] at hleaf
  exact ⟨hleaf.valid, hk.trans hleaf.keeps, hleaf.stored, hleaf.updated⟩

/-- The copy below a new node. -/
theorem shortened_copy_leads (hv : Valid h roots) (hnode : h.node? a = some node)
    (hle : node.version ≤ version) (new_pfx : Bytes) :
    (shortened_copy node new_pfx version : Access V _).Leads h fresh fun copy h' _ =>
      Shortened h node roots new_pfx version copy h' := by
  obtain ⟨copy, h₁, hclone, hh₁, hcopy, hk₁⟩ := cow_clone_inner_spec hv hnode hle
  have hstored : Stored h₁ { copy with pfx := new_pfx } := {
    linked := ⟨hh₁.linked.repr, hh₁.linked.edges⟩
    occupied := fun hempty => by
      rw [hcopy.iter_eq] at hempty
      rw [hcopy.value_eq]
      exact (hv.sound a node hnode).occupied hempty }
  unfold shortened_copy
  refine leads_cow_clone_inner hclone (Program.leads_alloc (f := done) hh₁.valid hstored fun n hn => leads_done ?_)
  obtain ⟨hpad, hk⟩ := hh₁.valid.pad n
  have hshort := Shortened.of_copy hv hnode
    ⟨hpad, hh₁.linked.keeps hk fun c hc => List.mem_append_left _ hc⟩ hcopy (hk₁.trans hk) new_pfx
  rwa [Heap.alloc_pad hn] at hshort

/-- The new node goes to a cell, and the `Arc` to the old one out of scope. -/
theorem leads_finish (hp : Placed h a node roots version key slot after h') :
    (do
      let new_node ← allocCell after
      drop_arc a
      return new_node : Access V Nat).Leads h' fresh fun a' h'' _ =>
        Changed h a node roots version key slot a' h'' := by
  refine Program.leads_alloc hp.held.valid ⟨hp.held.linked, hp.occupied⟩ fun n hn => ?_
  obtain ⟨hpad, hk⟩ := hp.held.valid.pad n
  obtain ⟨hv, _⟩ := hp.held.valid.allocAt ⟨hp.held.linked, hp.occupied⟩ hn
  have hfinish := (hp.kept hpad hk).finish
  rw [Heap.alloc_pad hn] at hfinish
  obtain ⟨h'', hdrop, hchanged⟩ := hfinish
  exact leads_drop_arc (hv.perm (List.Perm.swap n a roots)) hdrop (leads_done hchanged)

end Cells

section Insertions

/-- The key ends inside the node's prefix. -/
theorem insert_above_leads (hv : Valid h (a :: roots)) (hnode : h.node? a = some node)
    (hle : node.version ≤ version) {s p : Bytes} {k : UInt8} (hpfx : node.pfx = s ++ k :: p) (value : V) :
    (insert_above a s.length value version : Access V _).Leads h fresh fun a' h' _ =>
      Changed h a node roots version s (some value) a' h' := by
  unfold insert_above partial_after partial_before byte_at
  refine leads_read hnode ?_
  rw [hpfx, slice_from_eq_ok (by simp), lift_ok_bind, slice_to_eq_ok (by simp), lift_ok_bind,
    index_append_length, lift_ok_bind, List.drop_left, List.take_left]
  refine (shortened_copy_leads hv hnode hle (k :: p)).bind fun e h₁ fresh₁ _ hshort => ?_
  obtain ⟨hv₁, after, h₂, hadd, hplaced⟩ := hshort.above hv hnode hpfx value
  exact leads_add_child hv₁ hadd (leads_finish hplaced)

/-- The key parts from the node's prefix. -/
theorem insert_split_leads (hv : Valid h (a :: roots)) (hnode : h.node? a = some node)
    (hle : node.version ≤ version) {c p s : Bytes} {depth : Nat} {k1 k2 : UInt8} (hne : k1 ≠ k2)
    (hpfx : node.pfx = c ++ k1 :: p) (hkey : key.drop depth = c ++ k2 :: s) (value : V) :
    (insert_split a key value depth c.length version : Access V _).Leads h fresh fun a' h' _ =>
      Changed h a node roots version (key.drop depth) (some value) a' h' := by
  obtain ⟨hlen, hrest, hk2⟩ := next_byte hkey
  unfold insert_split partial_after partial_before byte_at to_partial
  refine leads_read hnode ?_
  rw [hpfx, slice_to_eq_ok (by simp), lift_ok_bind, index_append_length, lift_ok_bind, hk2, lift_ok_bind,
    slice_from_eq_ok (by simp), lift_ok_bind, List.drop_left, List.take_left]
  refine (shortened_copy_leads hv hnode hle (k1 :: p)).bind fun e h₁ fresh₁ _ hshort => ?_
  rw [slice_from_eq_ok (by omega), lift_ok_bind, hrest]
  refine (alloc_leaf_leads hshort.valid (k2 :: s) value version).bind fun l h₂ fresh₂ _ hleaf => ?_
  obtain ⟨km₁, km₂, hadd₁, hadd₂, hplaced⟩ := hshort.split hv hnode hne hpfx hleaf
  simp only [VersionedNode.new_inner, hadd₁, hadd₂, lift_ok_bind]
  rw [hkey]
  exact leads_finish hplaced

/-- The key goes on behind an edge that is free. -/
theorem insert_leaf_leads (hv : Valid h (a :: roots)) (hnode : h.node? a = some node)
    (hlt : node.version < version) {s : Bytes} {depth : Nat} {k : UInt8}
    (hkey : key.drop depth = k :: s) (habsent : node.content.iter.lookup k = none) (value : V) :
    (insert_leaf a key value depth version : Access V _).Leads h fresh fun a' h' _ =>
      Changed h a node roots version (node.pfx ++ k :: s) (some value) a' h' := by
  obtain ⟨hlen, _, hk⟩ := next_byte (c := []) hkey
  rw [List.length_nil, Nat.add_zero] at hlen hk
  unfold insert_leaf byte_at to_partial
  rw [hk, lift_ok_bind, slice_from_eq_ok (Nat.le_of_lt hlen), lift_ok_bind, hkey]
  refine (alloc_leaf_leads hv (k :: s) value version).bind fun l h₁ fresh₁ _ hleaf => ?_
  have hnode₁ : h₁.node? a = some node := (hleaf.keeps.agree a List.mem_cons_self).node?_eq.trans hnode
  refine (exclusive_leads (hleaf.valid.perm (List.Perm.swap l a roots)) hnode₁ hlt).bind
    fun owned h₂ fresh₂ _ hex => ?_
  obtain ⟨after, h₃, hadd, hoccupied, hreworked⟩ := hleaf.join hv habsent hex
  refine leads_add_child hex.held.valid hadd ?_
  exact leads_alloc_reworked (f := done) hreworked hoccupied fun n h' hchanged => leads_done hchanged

end Insertions

end rart.versioned_tree.shared
