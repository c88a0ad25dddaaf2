import Rart.Lib.Words
import Rart.Probe
import Rart.Versioned.Node

open SortedAssoc RcHeap Words
open RcHeap.Heap (Valid Keeps Agree Below)
open rart.mapping rart.node rart.utils rart.Trie

namespace rart.versioned_tree

variable {V : Type}

/-- A borrowed node. The cells of its children were allocated before its own. -/
structure NodeRef (V : Type) where
  heap : Heap (VersionedNode V)
  bound : Nat
  node : VersionedNode V

/-- A reference to the node that an `Arc` leads to. -/
def borrow (h : Heap (VersionedNode V)) (a : Nat) : Option (NodeRef V) :=
  (h.node? a).map fun node => ⟨h, a, node⟩

namespace NodeRef

/-- The node behind a reference. A reference leads to an older cell. -/
def follow (self : NodeRef V) (child : Nat) : Option (NodeRef V) :=
  if child < self.bound then borrow self.heap child else none

/-- The children, each behind its reference. -/
def iter (self : NodeRef V) : List (UInt8 × NodeRef V) := resolve self.follow self.node.content.iter

/-- A child is bounded below its parent. -/
theorem follow_bound {self child : NodeRef V} {a : Nat} (h : self.follow a = some child) :
    child.bound < self.bound := by
  unfold follow at h
  split at h
  · rename_i hlt
    obtain ⟨node, _, rfl⟩ := Option.map_eq_some_iff.1 h
    exact hlt
  · cases h

variable [Features]

/-- The child behind an edge. -/
def seek_child (self : NodeRef V) (key : UInt8) : Option (NodeRef V) :=
  (self.node.seek_child key).bind self.follow

/-- The child table is a list of pairs, and all children are there. -/
structure Table (n : NodeRef V) : Prop where
  repr : n.node.content.Repr n.node.content.iter
  present : ∀ p ∈ n.node.content.iter, ∃ child, n.follow p.2 = some child

instance : Node (NodeRef V) V where
  pfx self := self.node.pfx
  value self := self.node.value
  is_leaf self := self.node.is_leaf
  seek_child := seek_child
  num_children self := self.node.num_children
  iter := iter
  rank := bound
  rank_iter h := by
    obtain ⟨a, _, hfollow⟩ := mem_resolve.1 h
    exact follow_bound hfollow
  rank_seek h := by
    obtain ⟨a, _, hfollow⟩ := Option.bind_eq_some_iff.1 h
    exact follow_bound hfollow
  Layout := Table
  ascending h := h.repr.ascending.resolve _
  seek_eq h k := by
    have hseek := h.repr.seek_child k
    unfold NodeRef.seek_child VersionedNode.seek_child iter
    rw [hseek, lookup_resolve h.present]
  iter_leaf h hleaf := by
    unfold iter
    rw [h.repr.eq_nil_of_is_empty hleaf]
    rfl

end NodeRef

/-- The children of a node are there, behind their edges and not newer than it. -/
structure Linked (h : Heap (VersionedNode V)) (node : VersionedNode V) : Prop where
  repr : node.content.Repr node.content.iter
  edges : ∀ p ∈ node.content.iter, ∃ child, h.node? p.2 = some child ∧ child.pfx.head? = some p.1 ∧
    child.version ≤ node.version

/-- The invariant of a stored node. -/
structure Stored (h : Heap (VersionedNode V)) (node : VersionedNode V) : Prop where
  linked : Linked h node
  occupied : node.content.iter = [] → ∃ v, node.value = some v

/-- The links of a node depend on its children only. -/
theorem Linked.local_of {h h' : Heap (VersionedNode V)} {node : VersionedNode V} (hl : Linked h node)
    (hsame : ∀ c ∈ handles node, h'.node? c = h.node? c) : Linked h' node where
  repr := hl.repr
  edges p hp := by
    obtain ⟨child, hchild, hedge⟩ := hl.edges p hp
    refine ⟨child, ?_, hedge⟩
    rw [hsame p.2 (mem_handles hp), hchild]

instance : Invariant (VersionedNode V) where
  Sound := Stored
  sound_local hs hsame := ⟨hs.linked.local_of hsame, hs.occupied⟩

section Find

variable [Features]

/-- The value under a key in the tree below an `Arc`. -/
def find (h : Heap (VersionedNode V)) (a : Nat) (key : Bytes) : Option V :=
  (borrow h a).bind fun node => Trie.find node key

/-- The value under what is left of a key behind a node's prefix. -/
def readBelow (h : Heap (VersionedNode V)) (value : Option V) (items : List (UInt8 × Nat)) :
    Bytes → Option V
  | [] => value
  | k :: rest => (items.lookup k).bind fun c => find h c (k :: rest)

/-- The value under a key in the tree below a node. -/
def read (h : Heap (VersionedNode V)) (node : VersionedNode V) (key : Bytes) : Option V :=
  behind node.pfx (readBelow h node.value node.content.iter) key

variable {h h' : Heap (VersionedNode V)} {roots roots' : List Nat} {a : Nat} {node : VersionedNode V}

omit [Features] in
/-- A linked node is a table for the traversals. -/
theorem Linked.table {bound : Nat} (hl : Linked h node) (hbound : ∀ c ∈ handles node, c < bound) :
    NodeRef.Table ⟨h, bound, node⟩ where
  repr := hl.repr
  present p hp := by
    obtain ⟨child, hchild, _⟩ := hl.edges p hp
    refine ⟨⟨h, p.2, child⟩, ?_⟩
    unfold NodeRef.follow borrow
    rw [if_pos (hbound p.2 (mem_handles hp)), hchild]
    rfl

/-- Reading through a node is finding below it. -/
theorem read_eq {bound : Nat} (hl : Linked h node) (hbound : ∀ c ∈ handles node, c < bound) (key : Bytes) :
    Trie.find (⟨h, bound, node⟩ : NodeRef V) key = read h node key := by
  have htable := hl.table hbound
  have hbelow : lookupBelow (N := NodeRef V) node.value (NodeRef.iter ⟨h, bound, node⟩) =
      readBelow h node.value node.content.iter := by
    funext rest
    cases rest with
    | nil => rfl
    | cons k rest =>
      have hlookup : (NodeRef.iter ⟨h, bound, node⟩).lookup k = _ := lookup_resolve htable.present k
      simp only [lookupBelow, readBelow]
      rw [hlookup, Option.bind_assoc]
      cases hc : node.content.iter.lookup k with
      | none => rfl
      | some c =>
        have hmem := mem_handles (hl.repr.ascending.lookup_eq_some_iff.1 hc)
        change (NodeRef.follow _ c).bind _ = find h c (k :: rest)
        unfold NodeRef.follow find
        rw [if_pos (hbound c hmem)]
  rw [find_eq]
  exact congrArg (Option.bind _) hbelow

/-- What is found below an `Arc` is what its node holds. -/
theorem find_eq_read (hv : Valid h roots) (hnode : h.node? a = some node) (key : Bytes) :
    find h a key = read h node key := by
  have hread := read_eq (hv.sound a node hnode).linked (hv.counted.older a node hnode) key
  unfold find borrow
  rw [hnode]
  exact hread

/-- The prefix of a node is the key of its value. -/
theorem read_self (h : Heap (VersionedNode V)) (node : VersionedNode V) : read h node node.pfx = node.value :=
  behind_self node.pfx _

/-- A longer key is read through a child. -/
theorem read_edge (h : Heap (VersionedNode V)) (node : VersionedNode V) (k : UInt8) (rest : Bytes) :
    read h node (node.pfx ++ k :: rest) =
      (node.content.iter.lookup k).bind fun c => find h c (k :: rest) :=
  behind_of_append node.pfx (k :: rest) _

/-- The three ways in which a key meets the node of a cell. -/
theorem find_self (hv : Valid h roots) (hnode : h.node? a = some node) : find h a node.pfx = node.value :=
  (find_eq_read hv hnode node.pfx).trans (read_self h node)

/-- A longer key is found below a child. -/
theorem find_edge (hv : Valid h roots) (hnode : h.node? a = some node) (k : UInt8) (rest : Bytes) :
    find h a (node.pfx ++ k :: rest) = (node.content.iter.lookup k).bind fun c => find h c (k :: rest) :=
  (find_eq_read hv hnode _).trans (read_edge h node k rest)

/-- A key that leaves the prefix is not found. -/
theorem find_diverges {key : Bytes} (hv : Valid h roots) (hnode : h.node? a = some node)
    (hpfx : ¬ node.pfx <+: key) : find h a key = none :=
  (find_eq_read hv hnode key).trans (behind_eq_none hpfx _)

/-- The child that holds the rest of a key that is present. -/
theorem lookup_of_find {k : UInt8} {rest : Bytes} {value : V} (hv : Valid h roots) (hnode : h.node? a = some node)
    (hfind : find h a (node.pfx ++ k :: rest) = some value) :
    ∃ c, node.content.iter.lookup k = some c ∧ find h c (k :: rest) = some value := by
  rw [find_edge hv hnode] at hfind
  exact Option.bind_eq_some_iff.1 hfind

omit [Features] in
/-- A node with an edge is no leaf. -/
theorem inner_of_lookup {k : UInt8} {c : Nat} (hv : Valid h roots) (hnode : h.node? a = some node)
    (hc : node.content.iter.lookup k = some c) : ¬ node.is_leaf = true := by
  intro hleaf
  rw [(hv.sound a node hnode).linked.repr.eq_nil_of_is_empty hleaf] at hc
  cases hc

/-- What is read below depends on the children only. -/
theorem readBelow_agree (hagree : ∀ c ∈ handles node, ∀ key, find h' c key = find h c key) :
    readBelow h' node.value node.content.iter = readBelow h node.value node.content.iter := by
  funext rest
  cases rest with
  | nil => rfl
  | cons k rest =>
    simp only [readBelow]
    cases hc : node.content.iter.lookup k with
    | none => rfl
    | some c =>
      have hmem : (k, c) ∈ node.content.iter := mem_of_lookup hc
      exact hagree c (mem_handles hmem) (k :: rest)

/-- Where two heaps agree, the same is found. -/
theorem find_agree (hv : Valid h roots) (hv' : Valid h' roots') (hagree : Agree h h' a) (key : Bytes) :
    find h' a key = find h a key := by
  induction hagree generalizing key with
  | intro a node before after below ih =>
    rw [find_eq_read hv before, find_eq_read hv' after]
    unfold read
    rw [readBelow_agree ih]

/-- Where the children stay, so does what is read. -/
theorem read_keeps {kept : List Nat} (hv : Valid h roots) (hv' : Valid h' roots') (hk : Keeps h h' kept)
    (hsub : ∀ c ∈ handles node, c ∈ kept) (key : Bytes) : read h' node key = read h node key := by
  unfold read
  rw [readBelow_agree fun c hc key => find_agree hv hv' (hk.agree c (hsub c hc)) key]

/-- The nodes of a valid heap are well formed for their readers. -/
theorem wf_borrow (hv : Valid h roots) (hnode : h.node? a = some node) :
    Wf (⟨h, a, node⟩ : NodeRef V) := by
  induction a using Nat.strongRecOn generalizing node with
  | ind a ih =>
    have hs := hv.sound a node hnode
    have holder := hv.counted.older a node hnode
    have htable := hs.linked.table holder
    have hchild : ∀ {k : UInt8} {c : NodeRef V}, (k, c) ∈ NodeRef.iter ⟨h, a, node⟩ →
        ∃ b child, (k, b) ∈ node.content.iter ∧ b < a ∧ h.node? b = some child ∧ c = ⟨h, b, child⟩ := by
      intro k c hmem
      obtain ⟨b, hb, hfollow⟩ := mem_resolve.1 hmem
      have hlt := holder b (mem_handles hb)
      unfold NodeRef.follow borrow at hfollow
      rw [if_pos hlt] at hfollow
      obtain ⟨child, hstored, rfl⟩ := Option.map_eq_some_iff.1 hfollow
      exact ⟨b, child, hb, hlt, hstored, rfl⟩
    refine Wf.intro _ htable ?_ ?_ ?_
    · rintro ⟨k, c⟩ hmem
      obtain ⟨b, child, hb, _, hstored, rfl⟩ := hchild hmem
      obtain ⟨child', hstored', hedge, _⟩ := hs.linked.edges _ hb
      rw [hstored] at hstored'
      cases hstored'
      exact hedge
    · rintro ⟨k, c⟩ hmem
      obtain ⟨b, child, _, hlt, hstored, rfl⟩ := hchild hmem
      exact ih b hlt hstored
    · intro hempty
      obtain ⟨v, hv⟩ := hs.occupied (resolve_eq_nil htable.present hempty)
      exact Option.isSome_iff_exists.2 ⟨v, hv⟩

end Find

section Descent

variable [Features] {h h' : Heap (VersionedNode V)} {roots roots' : List Nat} {a b : Nat}
  {node : VersionedNode V} {key : Bytes}

/-- The cells that a lookup passes. -/
def visited (h : Heap (VersionedNode V)) (a : Nat) (key : Bytes) : List Nat :=
  (borrow h a).elim [] fun node => (probe.descent node key).map NodeRef.bound

/-- A cell off the way to a key. -/
structure OffPath (h : Heap (VersionedNode V)) (a : Nat) (key : Bytes) (b : Nat) : Prop where
  below : Below h a b
  unvisited : b ∉ visited h a key

/-- A descent that ends at its first cell. -/
theorem visited_stops (hv : Valid h roots) (hnode : h.node? a = some node)
    (hstop : ∀ k rest, key = node.pfx ++ k :: rest → node.content.iter.lookup k = none) :
    visited h a key = [a] := by
  have hseek : ∀ k, node.seek_child k = node.content.iter.lookup k :=
    (hv.sound a node hnode).linked.repr.seek_child
  have hstays : probe.descent (⟨h, a, node⟩ : NodeRef V) key = [⟨h, a, node⟩] := by
    refine probe.descent_stops fun k rest hkey => ?_
    change (node.seek_child k).bind _ = none
    rw [hseek, hstop k rest hkey]
    rfl
  unfold visited borrow
  rw [hnode]
  simp only [Option.map_some, Option.elim_some, hstays, List.map_cons, List.map_nil]

/-- A child that is listed can be borrowed. -/
theorem seek_child_borrow (hv : Valid h roots) (hnode : h.node? a = some node) {k : UInt8} {c : Nat}
    (hc : node.content.iter.lookup k = some c) :
    ∃ child, h.node? c = some child ∧
      Node.seek_child (⟨h, a, node⟩ : NodeRef V) k = some ⟨h, c, child⟩ := by
  have hmem : (k, c) ∈ node.content.iter := mem_of_lookup hc
  have hless := hv.counted.older a node hnode c (mem_handles hmem)
  obtain ⟨child, hchild, _⟩ := (hv.sound a node hnode).linked.edges (k, c) hmem
  have hchild : h.node? c = some child := hchild
  refine ⟨child, hchild, ?_⟩
  change (node.seek_child k).bind (NodeRef.follow ⟨h, a, node⟩) = _
  have hseek : node.seek_child k = node.content.iter.lookup k :=
    (hv.sound a node hnode).linked.repr.seek_child k
  rw [hseek, hc, Option.bind_some]
  unfold NodeRef.follow borrow
  rw [if_pos hless, hchild]
  rfl

/-- A descent that goes on with a child. -/
theorem visited_goes_on (hv : Valid h roots) (hnode : h.node? a = some node) {k : UInt8} {c : Nat}
    (hc : node.content.iter.lookup k = some c) (rest : Bytes) :
    visited h a (node.pfx ++ k :: rest) = a :: visited h c (k :: rest) := by
  obtain ⟨child, hchild, hfollow⟩ := seek_child_borrow hv hnode hc
  have hdescent := probe.descent_goes_on hfollow rest
  have hdescent : probe.descent (⟨h, a, node⟩ : NodeRef V) (node.pfx ++ k :: rest) = _ := hdescent
  unfold visited borrow
  rw [hnode, hchild]
  simp only [Option.map_some, Option.elim_some, hdescent, List.map_cons]

/-- The node where a lookup stops, with what is left of the key there. -/
def stopping (h : Heap (VersionedNode V)) (a : Nat) (key : Bytes) : Option (VersionedNode V × Bytes) :=
  (borrow h a).map fun node => ((probe.stop node key).1.node, (probe.stop node key).2)

/-- As for `visited_stops`. -/
theorem stopping_stops (hv : Valid h roots) (hnode : h.node? a = some node)
    (hstop : ∀ k rest, key = node.pfx ++ k :: rest → node.content.iter.lookup k = none) :
    stopping h a key = some (node, key) := by
  have hseek : ∀ k, node.seek_child k = node.content.iter.lookup k :=
    (hv.sound a node hnode).linked.repr.seek_child
  have hstays : probe.stop (⟨h, a, node⟩ : NodeRef V) key = (⟨h, a, node⟩, key) := by
    refine probe.stop_stops fun k rest hkey => ?_
    change (node.seek_child k).bind _ = none
    rw [hseek, hstop k rest hkey]
    rfl
  unfold stopping borrow
  rw [hnode]
  simp only [Option.map_some, hstays]

/-- As for `visited_goes_on`. -/
theorem stopping_goes_on (hv : Valid h roots) (hnode : h.node? a = some node) {k : UInt8} {c : Nat}
    (hc : node.content.iter.lookup k = some c) (rest : Bytes) :
    stopping h a (node.pfx ++ k :: rest) = stopping h c (k :: rest) := by
  obtain ⟨child, hchild, hfollow⟩ := seek_child_borrow hv hnode hc
  have hstop := probe.stop_goes_on hfollow rest
  have hstop : probe.stop (⟨h, a, node⟩ : NodeRef V) (node.pfx ++ k :: rest) = _ := hstop
  unfold stopping borrow
  rw [hnode, hchild]
  simp only [Option.map_some, hstop]

/-- A descent starts at its cell. -/
theorem mem_visited_self (hnode : h.node? a = some node) : a ∈ visited h a key := by
  have hhead := probe.head?_descent (⟨h, a, node⟩ : NodeRef V) key
  unfold visited borrow
  rw [hnode]
  exact List.mem_map.2 ⟨_, List.mem_of_head? hhead, rfl⟩

/-- A lookup passes cells that are allocated, and no newer than the first. -/
theorem visited_le (hv : Valid h roots) (hmem : b ∈ visited h a key) :
    b ≤ a ∧ ∃ node, h.node? b = some node := by
  induction a using Nat.strongRecOn generalizing key with
  | ind a ih =>
    cases hnode : h.node? a with
    | none =>
      unfold visited borrow at hmem
      rw [hnode] at hmem
      cases hmem
    | some node =>
      by_cases hstop : ∀ k rest, key = node.pfx ++ k :: rest → node.content.iter.lookup k = none
      · rw [visited_stops hv hnode hstop, List.mem_singleton] at hmem
        rw [hmem]
        exact ⟨Nat.le_refl a, node, hnode⟩
      · push Not at hstop
        obtain ⟨k, rest, rfl, hne⟩ := hstop
        obtain ⟨c, hc⟩ := Option.ne_none_iff_exists'.1 hne
        have hin : (k, c) ∈ node.content.iter := mem_of_lookup hc
        have hless := hv.counted.older a node hnode c (mem_handles hin)
        rw [visited_goes_on hv hnode hc, List.mem_cons] at hmem
        cases hmem with
        | inl heq =>
          rw [heq]
          exact ⟨Nat.le_refl a, node, hnode⟩
        | inr hbelow =>
          obtain ⟨hle, hlive⟩ := ih c hless hbelow
          exact ⟨by omega, hlive⟩

/-- Off the path is what is below a child. -/
theorem OffPath.child (ho : OffPath h a key b) (hnode : h.node? a = some node) :
    ∃ p ∈ node.content.iter, Below h p.2 b := by
  obtain ⟨hbelow, hunvisited⟩ := ho
  cases hbelow with
  | here _ => exact absurd (mem_visited_self hnode) hunvisited
  | there hnode' hc hbelow =>
    rw [hnode] at hnode'
    cases hnode'
    obtain ⟨p, hp, rfl⟩ := List.mem_map.1 hc
    exact ⟨p, hp, hbelow⟩

/-- Off the path is what is below another edge, or off the rest of the path. -/
theorem OffPath.cases_below {k : UInt8} {c : Nat} {rest : Bytes} (hv : Valid h roots)
    (hnode : h.node? a = some node) (hc : node.content.iter.lookup k = some c)
    (ho : OffPath h a (node.pfx ++ k :: rest) b) :
    (∃ p ∈ node.content.iter, p.1 ≠ k ∧ Below h p.2 b) ∨ OffPath h c (k :: rest) b := by
  obtain ⟨p, hp, hbelow⟩ := ho.child hnode
  by_cases hk : p.1 = k
  · have hasc := (hv.sound a node hnode).linked.repr.ascending
    have hlookup : node.content.iter.lookup p.1 = some p.2 := hasc.lookup_eq_some_iff.2 hp
    rw [hk, hc, Option.some.injEq] at hlookup
    rw [← hlookup] at hbelow
    refine .inr ⟨hbelow, fun hin => ho.unvisited ?_⟩
    rw [visited_goes_on hv hnode hc]
    exact List.mem_cons_of_mem _ hin
  · exact .inl ⟨p, hp, hk, hbelow⟩

/-- Where two heaps agree, a lookup passes the same cells. -/
theorem visited_agree (hv : Valid h roots) (hv' : Valid h' roots') (hagree : Agree h h' a) (key : Bytes) :
    visited h' a key = visited h a key := by
  induction hagree generalizing key with
  | intro a node before after below ih =>
    by_cases hstop : ∀ k rest, key = node.pfx ++ k :: rest → node.content.iter.lookup k = none
    · rw [visited_stops hv before hstop, visited_stops hv' after hstop]
    · push Not at hstop
      obtain ⟨k, rest, rfl, hne⟩ := hstop
      obtain ⟨c, hc⟩ := Option.ne_none_iff_exists'.1 hne
      have hmem : (k, c) ∈ node.content.iter := mem_of_lookup hc
      rw [visited_goes_on hv before hc, visited_goes_on hv' after hc, ih c (mem_handles hmem)]

/-- Heaps that agree below a cell stop at the same node. -/
theorem stopping_agree (hv : Valid h roots) (hv' : Valid h' roots') (hagree : Agree h h' a) (key : Bytes) :
    stopping h' a key = stopping h a key := by
  induction hagree generalizing key with
  | intro a node before after below ih =>
    by_cases hstop : ∀ k rest, key = node.pfx ++ k :: rest → node.content.iter.lookup k = none
    · rw [stopping_stops hv before hstop, stopping_stops hv' after hstop]
    · push Not at hstop
      obtain ⟨k, rest, rfl, hne⟩ := hstop
      obtain ⟨c, hc⟩ := Option.ne_none_iff_exists'.1 hne
      have hmem : (k, c) ∈ node.content.iter := mem_of_lookup hc
      rw [stopping_goes_on hv before hc, stopping_goes_on hv' after hc, ih c (mem_handles hmem)]

/-- Cells off the path are off it in both heaps, where these agree. -/
theorem OffPath.agree (hv : Valid h roots) (hv' : Valid h' roots') (hagree : Agree h h' a)
    (ho : OffPath h a key b) : OffPath h' a key b where
  below := (hagree.carries ho.below).1
  unvisited := by
    rw [visited_agree hv hv' hagree]
    exact ho.unvisited

end Descent

end rart.versioned_tree
