import Rart.Versioned.Cow

open SortedAssoc RcHeap Words
open RcHeap.Heap (Valid Keeps Agree)
open rart.mapping rart.node rart.utils

namespace rart.versioned_tree

variable {V : Type} [Features] {h : Heap (VersionedNode V)} {roots : List Nat} {node : VersionedNode V}

section Spec

/-- Growing a node exchanges its child table for a wider one. -/
theorem grow_if_full_spec (hh : Held h node roots) (hleaf : node.is_leaf = false)
    (hroom : node.content.iter.length < 256) :
    ∃ grown h', node.grow_if_full h = .ok (grown, h') ∧ Held h' grown roots ∧
      Copy node grown node.version ∧ Keeps h h' (handles node ++ roots) ∧
      grown.content.iter.length < grown.content.capacity := by
  have hrepr := hh.linked.repr
  unfold VersionedNode.grow_if_full
  by_cases hfull : node.is_full = true
  · obtain ⟨content, hgrow, hcontent, hlt, hempty⟩ := VersionedNode.grow_content_spec hrepr hfull hroom
    have hiter : content.iter = node.content.iter := hcontent.iter_eq
    have hcopy : Copy node ⟨node.pfx, node.value, content, node.version⟩ node.version :=
      ⟨rfl, rfl, hiter, hempty.trans hleaf.symm, rfl⟩
    obtain ⟨h₁, hclones, hv₁, hk₁, hsame₁⟩ := hh.valid.cloneAll fun c hc =>
      hh.valid.counted.live_of_root (List.mem_append_left _ hc)
    obtain ⟨hv₁', hk₁'⟩ := hv₁.copies node.value.toList.length
    obtain ⟨h₂, hdrop, hv₂, hk₂⟩ := drop_node_spec hv₁'
    have hk := hk₁.trans ((hk₁'.subset fun b hb => List.mem_append_right _ hb).trans hk₂)
    refine ⟨⟨node.pfx, node.value, content, node.version⟩, h₂, ?_, ⟨?_, ?_⟩, hcopy, hk, ?_⟩
    · unfold VersionedNode.grow
      rw [if_pos hfull, hgrow]
      simp only [ok_bind, hclones, arc_some, pure_eq_ok, hdrop]
    · rw [hcopy.handles_eq]
      exact hv₂
    · refine hcopy.linked (hh.linked.keeps hk fun c hc => List.mem_append_left _ hc) ?_ (Nat.le_refl _)
      change content.Repr content.iter
      rw [hiter]
      exact hcontent
    · change content.iter.length < content.capacity
      rw [hiter]
      exact hlt
  · rw [Bool.not_eq_true] at hfull
    refine ⟨node, h, ?_, hh, ⟨rfl, rfl, rfl, rfl, rfl⟩, hh.valid.keeps_refl, ?_⟩
    · simp only [hfull, Bool.false_eq_true, if_false, pure_eq_ok]
    · exact VersionedNode.is_full_eq_false hrepr hroom hfull hleaf

/-- What adding an edge leads to. -/
structure Attached (h : Heap (VersionedNode V)) (node : VersionedNode V) (k : UInt8) (c : Nat)
    (roots : List Nat) (after : VersionedNode V) (h' : Heap (VersionedNode V)) : Prop where
  held : Held h' after roots
  keeps : Keeps h h' (handles node ++ c :: roots)
  pfx_eq : after.pfx = node.pfx
  value_eq : after.value = node.value
  version_eq : after.version = node.version
  iter_eq : after.content.iter = insertSorted k c node.content.iter
  read_eq : ∀ key, read h' after key =
    behind node.pfx (readBelow h node.value (insertSorted k c node.content.iter)) key

/-- Whatever is shared below the node stays shared. -/
theorem Attached.shares {h₀ : Heap (VersionedNode V)} {a c : Nat} {key : Bytes} {k : UInt8}
    {after : VersionedNode V} {h' : Heap (VersionedNode V)} (hat : Attached h node k c roots after h')
    (hs : Shares h₀ a key h (handles node)) : Shares h₀ a key h' (handles after) := by
  intro b ho
  obtain ⟨c', hc', hbelow, hagree⟩ := hs.keeps hat.keeps (fun _ hin => List.mem_append_left _ hin) b ho
  obtain ⟨p, hp, rfl⟩ := List.mem_map.1 hc'
  refine ⟨p.2, mem_handles ?_, hbelow, hagree⟩
  rw [hat.iter_eq, mem_insertSorted]
  exact .inr hp

theorem add_child_spec {c : Nat} {child : VersionedNode V} (hh : Held h node (c :: roots)) {k : UInt8}
    (hkey : node.content.iter.lookup k = none) (hchild : h.node? c = some child)
    (hedge : child.pfx.head? = some k) (hversion : child.version ≤ node.version) :
    ∃ after h', node.add_child h k c = .ok (after, h') ∧ Attached h node k c roots after h' := by
  have hasc := hh.linked.repr.ascending
  have hlen := length_le_of_ascending (hasc.insertSorted (lookup_eq_none_iff.1 hkey) c)
  rw [length_insertSorted] at hlen
  -- an empty node is first given a table
  obtain ⟨start, hstart, hcopy, hh₀, hleaf⟩ : ∃ start : VersionedNode V,
      (if node.content.is_empty then { node with content := .Node4 .new } else node) = start ∧
        (start.pfx = node.pfx ∧ start.value = node.value ∧ start.version = node.version ∧
          start.content.iter = node.content.iter) ∧
        Held h start (c :: roots) ∧ start.is_leaf = false := by
    cases hempty : node.content.is_empty with
    | true =>
      have hnil := hh.linked.repr.eq_nil_of_is_empty hempty
      have hnew : (Content.Node4 .new : Content Nat).iter = [] := SortedKeyedMapping.Repr.new.iter_eq
      refine ⟨{ node with content := .Node4 .new }, if_pos rfl, ⟨rfl, rfl, rfl, ?_⟩, ⟨?_, ?_, ?_⟩, rfl⟩
      · rw [hnil]
        exact hnew
      · have hvalid := hh.valid
        rw [handles_eq, hnil] at hvalid
        rw [handles_eq, hnew]
        exact hvalid
      · rw [hnew]
        exact SortedKeyedMapping.Repr.new
      · intro p hp
        rw [hnew] at hp
        cases hp
    | false => exact ⟨node, if_neg (by simp), ⟨rfl, rfl, rfl, rfl⟩, hh, hempty⟩
  obtain ⟨hpfx₀, hvalue₀, hversion₀, hiter₀⟩ := hcopy
  have hroom₀ : start.content.iter.length < 256 := by
    rw [hiter₀]
    omega
  obtain ⟨grown, h₁, hgrow, hh₁, hcopy₁, hk₁, hroom₁⟩ := grow_if_full_spec hh₀ hleaf hroom₀
  have hiter₁ : grown.content.iter = node.content.iter := hcopy₁.iter_eq.trans hiter₀
  have hkey₁ : grown.content.iter.lookup k = none := by
    rw [hiter₁]
    exact hkey
  obtain ⟨content, hadd, hcontent, _⟩ := hh₁.linked.repr.add_child c hkey₁ hroom₁
  have hiter : content.iter = insertSorted k c node.content.iter := by
    rw [hcontent.iter_eq, hiter₁]
  have hkeeps : Keeps h h₁ (handles node ++ c :: roots) := by
    rwa [handles_eq start, hiter₀] at hk₁
  have hpfx : grown.pfx = node.pfx := hcopy₁.pfx_eq.trans hpfx₀
  have hvalue : grown.value = node.value := hcopy₁.value_eq.trans hvalue₀
  have hversion' : grown.version = node.version := hcopy₁.version_eq.trans hversion₀
  have hmem : ∀ p ∈ insertSorted k c node.content.iter, p.2 ∈ handles node ++ c :: roots := by
    intro p hp
    cases mem_insertSorted.1 hp with
    | inl heq =>
      rw [heq]
      simp
    | inr hin => exact List.mem_append_left _ (mem_handles hin)
  have hheld : Held h₁ { grown with content } roots := {
    valid := by
      refine hh₁.valid.perm ?_
      have hperm := ((insertSorted_perm k c node.content.iter).map Prod.snd).append_right roots
      change (content.iter.map Prod.snd ++ roots).Perm (grown.content.iter.map Prod.snd ++ c :: roots)
      rw [hiter, hiter₁]
      exact hperm.trans List.perm_middle.symm
    linked := {
      repr := by
        change content.Repr content.iter
        rw [hcontent.iter_eq]
        exact hcontent
      edges := fun p hp => by
        have hp : p ∈ content.iter := hp
        rw [hiter] at hp
        change ∃ stored, h₁.node? p.2 = some stored ∧ stored.pfx.head? = some p.1 ∧
          stored.version ≤ grown.version
        rw [(hkeeps.agree p.2 (hmem p hp)).node?_eq, hversion']
        cases mem_insertSorted.1 hp with
        | inl heq =>
          rw [heq]
          exact ⟨child, hchild, hedge, hversion⟩
        | inr hin => exact hh.linked.edges p hin } }
  refine ⟨{ grown with content }, h₁, ?_, hheld, hkeeps, hpfx, hvalue, hversion', hiter, fun key => ?_⟩
  · unfold VersionedNode.add_child
    dsimp only
    rw [hstart, hgrow, ok_bind]
    dsimp only
    rw [hadd]
    rfl
  · change behind grown.pfx (readBelow h₁ grown.value content.iter) key = _
    rw [hpfx, hvalue, hiter]
    refine congrFun (congrArg (behind node.pfx) ?_) key
    funext rest
    cases rest with
    | nil => rfl
    | cons b rest =>
      simp only [readBelow]
      cases hlookup : (insertSorted k c node.content.iter).lookup b with
      | none => rfl
      | some d =>
        have hd : d ∈ handles node ++ c :: roots := hmem (b, d) (mem_of_lookup hlookup)
        exact find_agree hh.valid hh₁.valid (hkeeps.agree d hd) (b :: rest)

/-- A node with a table and room takes an edge without touching the heap. -/
theorem add_child_heap {k : UInt8} {c : Nat} {after : VersionedNode V} {h' : Heap (VersionedNode V)}
    (hleaf : node.is_leaf = false) (hroom : node.is_full = false)
    (hadd : node.add_child h k c = .ok (after, h')) : h' = h := by
  have hempty : node.content.is_empty = false := hleaf
  unfold VersionedNode.add_child VersionedNode.grow_if_full at hadd
  simp only [hempty, hroom, Bool.false_eq_true, if_false, pure_eq_ok, ok_bind] at hadd
  obtain ⟨content, _, hend⟩ := bind_eq_ok_iff.1 hadd
  cases hend
  rfl

/-- What deleting an edge leads to: its child is in hand besides the node. -/
structure Detached (h : Heap (VersionedNode V)) (node : VersionedNode V) (k : UInt8) (c : Nat)
    (roots : List Nat) (after : VersionedNode V) : Prop where
  held : Held h after (c :: roots)
  pfx_eq : after.pfx = node.pfx
  value_eq : after.value = node.value
  version_eq : after.version = node.version
  is_leaf_eq : after.is_leaf = node.is_leaf
  room : after.is_full = false
  iter_eq : after.content.iter = eraseKey k node.content.iter

theorem delete_child_spec (hh : Held h node roots) {k : UInt8} {c : Nat}
    (hkey : node.content.iter.lookup k = some c) :
    ∃ after, node.delete_child k = .ok (some c, after) ∧ Detached h node k c roots after := by
  have hasc := hh.linked.repr.ascending
  obtain ⟨content, hdelete, hcontent, hempty, hcapacity⟩ := VersionedNode.delete_child_some hh.linked.repr hkey
  have hiter : content.iter = eraseKey k node.content.iter := hcontent.iter_eq
  have hless := hasc.length_eraseKey hkey
  have hle := hh.linked.repr.length_le
  have hroom : VersionedNode.is_full { node with content } = false :=
    VersionedNode.is_full_of_lt hcontent (by rw [hcapacity]; omega)
  refine ⟨{ node with content }, hdelete, ⟨?_, ?_, ?_⟩, rfl, rfl, rfl, hempty, hroom, hiter⟩
  · refine hh.valid.perm ?_
    have hperm := ((hasc.eraseKey_perm hkey).map Prod.snd).append_right roots
    change (content.iter.map Prod.snd ++ c :: roots).Perm (node.content.iter.map Prod.snd ++ roots)
    rw [hiter]
    exact List.perm_middle.trans hperm.symm
  · change content.Repr content.iter
    rw [hiter]
    exact hcontent
  · intro p hp
    have hp : p ∈ content.iter := hp
    rw [hiter] at hp
    exact hh.linked.edges p (mem_eraseKey.1 hp).1

end Spec

section Below

variable {h' : Heap (VersionedNode V)} {value : Option V} {items items' : List (UInt8 × Nat)}

theorem updated_value (h : Heap (VersionedNode V)) (value slot : Option V) (items : List (UInt8 × Nat)) :
    Updated (readBelow h value items) (readBelow h slot items) [] slot where
  here := rfl
  elsewhere w hw := by
    cases w with
    | nil => exact absurd rfl hw
    | cons k rest => rfl

/-- Only what is behind one edge has changed. -/
theorem updated_edge {k : UInt8} {rest : Bytes} {slot : Option V}
    (hothers : ∀ b, b ≠ k → items'.lookup b = items.lookup b)
    (hkept : ∀ p ∈ items, p.1 ≠ k → ∀ w, find h' p.2 w = find h p.2 w)
    (hchild : Updated (fun w => (items.lookup k).bind fun c => find h c w)
      (fun w => (items'.lookup k).bind fun c => find h' c w) (k :: rest) slot) :
    Updated (readBelow h value items) (readBelow h' value items') (k :: rest) slot where
  here := hchild.here
  elsewhere w hw := by
    cases w with
    | nil => rfl
    | cons b w =>
      by_cases hb : b = k
      · subst hb
        exact hchild.elsewhere (b :: w) hw
      · simp only [readBelow]
        rw [hothers b hb]
        cases hlookup : items.lookup b with
        | none => rfl
        | some c =>
          exact hkept (b, c) (mem_of_lookup hlookup) hb (b :: w)

end Below

end rart.versioned_tree
