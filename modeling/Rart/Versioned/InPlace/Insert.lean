import Rart.Versioned.InPlace.Conditions

open SortedAssoc RcHeap Words LexOrder
open RcHeap.Heap (Valid Keeps Agree Below)
open rart.mapping rart.node rart.partials rart.utils

namespace rart.versioned_tree

open VersionedAdaptiveRadixTree

variable {V E R : Type}

section Insertion

variable [Features] {h h' : Heap (VersionedNode V)} {roots : List Nat} {a : Nat} {node : VersionedNode V}
  {version : Nat} {key : Bytes} {depth : Nat}

theorem copies_below_stops (hv : Valid h roots) (hnode : h.node? a = some node)
    (hstop : ∀ k rest, key = node.pfx ++ k :: rest → node.content.iter.lookup k = none) :
    copies_below h a key = node.insertion_copies key := by
  unfold copies_below
  rw [stopping_stops hv hnode hstop]
  rfl

omit [Features] in
theorem insertion_copies_self (node : VersionedNode V) : node.insertion_copies node.pfx = 0 := by
  unfold VersionedNode.insertion_copies
  rw [if_pos (List.isPrefixOf_iff_prefix.2 (List.prefix_refl _)), if_pos rfl]

omit [Features] in
theorem insertion_copies_edge (node : VersionedNode V) (k : UInt8) (rest : Bytes) :
    node.insertion_copies (node.pfx ++ k :: rest) = node.growth := by
  unfold VersionedNode.insertion_copies
  rw [if_pos (List.isPrefixOf_iff_prefix.2 (List.prefix_append _ _)), if_neg (by simp)]

omit [Features] in
theorem insertion_copies_split (hnot : ¬ node.pfx <+: key) : node.insertion_copies key = 1 := by
  unfold VersionedNode.insertion_copies
  rw [if_neg fun hpfx => hnot (List.isPrefixOf_iff_prefix.1 hpfx)]

omit [Features] in
/-- A key that ends at a node goes on behind none of its edges. -/
theorem stops_at_end (k : UInt8) (rest : Bytes) (heq : node.pfx = node.pfx ++ k :: rest) :
    node.content.iter.lookup k = none := by simp at heq

omit [Features] in
/-- Nor does a key behind an edge that is missing. -/
theorem stops_at_edge {b : UInt8} {s : Bytes} (hlookup : node.content.iter.lookup b = none) (k : UInt8)
    (rest : Bytes) (heq : node.pfx ++ b :: s = node.pfx ++ k :: rest) :
    node.content.iter.lookup k = none := by
  obtain ⟨rfl, _⟩ := List.cons.inj (List.append_cancel_left heq)
  exact hlookup

/-- A key that does not get past the prefix copies the node that it splits. -/
theorem copies_below_split (hv : Valid h roots) (hnode : h.node? a = some node) (hnot : ¬ node.pfx <+: key) :
    copies_below h a key = 1 := by
  rw [copies_below_stops hv hnode fun k rest heq => absurd ⟨k :: rest, heq.symm⟩ hnot]
  exact insertion_copies_split hnot

/-- A new leaf below a node that is moved. -/
theorem copied_insert_leaf {value : V} {b : Nat} (hcell : h.cell? a = some ⟨1, node⟩)
    (hlt : node.version < version) (hinsert : insert_leaf h a key value depth version = .ok (b, h')) :
    h'.copied = h.copied + node.growth := by
  unfold insert_leaf at hinsert
  obtain ⟨edge, _, hinsert⟩ := bind_eq_ok_iff.1 hinsert
  obtain ⟨leaf, _, hinsert⟩ := bind_eq_ok_iff.1 hinsert
  have hcell' : (h.alloc (VersionedNode.new_leaf leaf value version)).2.cell? a = some ⟨1, node⟩ := by
    have hlen := Heap.lt_of_cell? hcell
    rw [Heap.cell?_alloc, if_neg (by omega), hcell]
  obtain ⟨h₁, howned, hcopied, _⟩ := exclusive_unique hcell' hlt
  dsimp only at hinsert
  rw [howned, ok_bind] at hinsert
  obtain ⟨⟨after, h₂⟩, hadd, hend⟩ := bind_eq_ok_iff.1 hinsert
  cases hend
  have hadded := copied_add_child hadd
  rw [hcopied] at hadded
  exact hadded

/-- Where nothing is shared, an insertion copies what its last node makes it copy. -/
theorem insert_recurse_copied {a' : Nat} {value : V} {replaced : Bool} {out out' : Option (Option V)}
    (hv : Valid h (a :: roots)) (hnode : h.node? a = some node) (hlt : node.version < version)
    (hdepth : depth ≤ key.length) (hu : Unshared h a (key.drop depth))
    (hrun : insert_recurse h a key value depth version out = .ok (a', replaced, out', h')) :
    h'.copied = h.copied + copies_below h a (key.drop depth) := by
  induction a using Nat.strongRecOn generalizing h h' roots node depth a' replaced out' with
  | ind a ih =>
    rw [insert_recurse, hnode, arc_some, ok_bind, prefix_length_key_eq_ok hdepth, ok_bind, length_at,
      usize_sub_eq_ok hdepth, ok_bind] at hrun
    dsimp only at hrun
    cases arrival node.pfx key depth with
    | ends hkey hends =>
      obtain ⟨h₁, howned, hcopied, _⟩ := exclusive_unique (hu.cell hnode) hlt
      rw [if_pos hends, howned] at hrun
      cases hrun
      rw [hkey, copies_below_stops hv hnode stops_at_end, insertion_copies_self]
      exact hcopied
    | goes_on k s hkey hlcp hmore hbelow hmatch hk hrest hdepth' =>
      rw [if_neg hmore, if_neg hbelow, if_neg hmatch, hlcp] at hrun
      cases hlookup : node.content.iter.lookup k with
      | none =>
        have hcopies : copies_below h a (key.drop depth) = node.growth := by
          rw [hkey, copies_below_stops hv hnode (stops_at_edge hlookup), insertion_copies_edge]
        rw [hcopies]
        by_cases hleaf : node.is_leaf = true
        · rw [if_pos hleaf] at hrun
          obtain ⟨⟨b, h₁⟩, hinsert, hend⟩ := bind_eq_ok_iff.1 hrun
          cases hend
          exact copied_insert_leaf (hu.cell hnode) hlt hinsert
        · obtain ⟨h₁, howned, hcopied, _⟩ := exclusive_unique (hu.cell hnode) hlt
          rw [if_neg hleaf, hk, ok_bind, howned, ok_bind] at hrun
          dsimp only at hrun
          have hrepr : ({ node with version } : VersionedNode V).content.Repr node.content.iter :=
            (hv.sound a node hnode).linked.repr
          rw [VersionedNode.delete_child_none hrepr hlookup, ok_bind] at hrun
          dsimp only at hrun
          obtain ⟨leaf, _, hrun⟩ := bind_eq_ok_iff.1 hrun
          obtain ⟨⟨after, h₂⟩, hadd, hend⟩ := bind_eq_ok_iff.1 hrun
          cases hend
          have hadded := copied_add_child hadd
          rw [← hcopied]
          exact hadded
      | some child =>
        have hleaf := inner_of_lookup hv hnode hlookup
        rw [hkey] at hu ⊢
        obtain ⟨owned, left, h₁, hd⟩ := hu.descends hv hnode hlt hlookup
        obtain ⟨stored, hstored, hversion⟩ := hd.child
        rw [if_neg hleaf, hk, ok_bind, hd.exclusive_eq, ok_bind] at hrun
        dsimp only at hrun
        rw [hd.delete_eq, ok_bind] at hrun
        dsimp only at hrun
        rw [if_pos hd.older] at hrun
        obtain ⟨⟨child', replaced', out₁, h₂⟩, hrec, hrun⟩ := bind_eq_ok_iff.1 hrun
        obtain ⟨⟨after, h₃⟩, hadd, hend⟩ := bind_eq_ok_iff.1 hrun
        cases hend
        have hcopied := ih child hd.older hd.valid hstored hversion hdepth'
          (by rw [hrest]; exact hd.unshared) hrec
        have hadded := copied_add_child hadd
        rw [hrest, hd.copied_eq] at hcopied
        rw [hd.growth_eq, Nat.add_zero] at hadded
        rw [copies_below, ← hd.stopping_eq, ← copies_below, ← hcopied]
        exact hadded
    | above k p hpfx hnot hlcp hmore habove =>
      rw [if_neg hmore, if_pos habove] at hrun
      obtain ⟨⟨b, h₁⟩, hinsert, hend⟩ := bind_eq_ok_iff.1 hrun
      cases hend
      rw [copies_below_split hv hnode hnot]
      exact copied_insert_above hinsert
    | splits c p s k₁ k₂ hne hpfx hkey hnot hlcp hmore hbelow hsplit =>
      rw [if_neg hmore, if_neg hbelow, if_pos hsplit] at hrun
      obtain ⟨⟨b, h₁⟩, hinsert, hend⟩ := bind_eq_ok_iff.1 hrun
      cases hend
      rw [copies_below_split hv hnode hnot]
      exact copied_insert_split hinsert

end Insertion

end rart.versioned_tree
