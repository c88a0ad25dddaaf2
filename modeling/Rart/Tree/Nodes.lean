import Rart.Trie

open SortedAssoc
open rart.mapping rart.utils

namespace rart.mapping

section Members

variable {N : Type}

/-- What an iterator over keys hands out is a child. -/
theorem iter_keys_mem {child : UInt8 → Option N} {keys : List Nat} {k : UInt8} {node : N}
    (h : (k, node) ∈ iter_keys child keys) : child k = some node := by
  induction keys with
  | nil => cases h
  | cons key keys ih =>
    rw [iter_keys] at h
    split at h
    · cases h
    · rename_i found hfound
      cases List.mem_cons.1 h with
      | inl heq =>
        cases heq
        exact hfound
      | inr hmem => exact ih hmem

/-- What a bit array finds is in its storage. -/
theorem mem_storage_of_known_present {array : BitArray N} {pos : Nat} {node : N}
    (h : array.get_known_present pos = some node) : some node ∈ array.storage :=
  List.mem_of_getElem? (BitArray.get_known_present_eq_some.1 h)

/-- What is read stands in a slot. -/
theorem mem_storage_of_get {array : BitArray N} {pos : Nat} {node : N}
    (h : array.get pos = some node) : some node ∈ array.storage := by
  unfold BitArray.get at h
  split at h
  · exact mem_storage_of_known_present h
  · cases h

/-- What the iterator hands out stands in a slot. -/
theorem SortedKeyedMapping.mem_of_iter_from {WIDTH : Nat} {m : SortedKeyedMapping N WIDTH} {idx : Nat}
    {k : UInt8} {node : N} (h : (k, node) ∈ m.iter_from idx) : some node ∈ m.children := by
  induction hn : m.num_children - idx using Nat.strongRecOn generalizing idx with
  | ind n ih =>
    subst hn
    rw [iter_from] at h
    split at h
    · cases h
    · split at h
      · rename_i key child hkey hchild
        cases List.mem_cons.1 h with
        | inl heq =>
          cases heq
          exact List.mem_of_getElem? (Option.join_eq_some_iff.1 hchild)
        | inr hmem => exact ih _ (by omega) hmem rfl
      · cases h

/-- As for `SortedKeyedMapping`. -/
theorem IndexedMapping.mem_of_iter {WIDTH : Nat} {m : IndexedMapping N WIDTH} {k : UInt8} {node : N}
    (h : (k, node) ∈ m.iter) : some node ∈ m.children.storage := by
  have hchild := iter_keys_mem h
  obtain ⟨pos, _, hget⟩ := Option.bind_eq_some_iff.1 hchild
  exact mem_storage_of_get hget

/-- As for `SortedKeyedMapping`. -/
theorem DirectMapping.mem_of_iter {m : DirectMapping N} {k : UInt8} {node : N}
    (h : (k, node) ∈ m.iter) : some node ∈ m.children.storage :=
  mem_storage_of_get (iter_keys_mem h)

end Members

end rart.mapping

namespace rart.node

variable {V : Type}

mutual

/-- The number of nodes stored at and below a node. -/
def DefaultNode.node_count : DefaultNode V → Nat
  | .mk _ _ content => content_count content + 1

/-- The nodes below a table. -/
def content_count : Content (DefaultNode V) → Nat
  | .Empty => 0
  | .Node4 km => node4_count km
  | .Node16 km => node16_count km
  | .Node48 im => node48_count im
  | .Node256 dm => node256_count dm

/-- The nodes below a `Node4`. -/
def node4_count : SortedKeyedMapping (DefaultNode V) 4 → Nat
  | ⟨_, children, _⟩ => slots_count children

/-- The nodes below a `Node16`. -/
def node16_count : SortedKeyedMapping (DefaultNode V) 16 → Nat
  | ⟨_, children, _⟩ => slots_count children

/-- The nodes below a `Node48`. -/
def node48_count : IndexedMapping (DefaultNode V) 48 → Nat
  | ⟨_, children, _⟩ => storage_count children

/-- The nodes below a `Node256`. -/
def node256_count : DirectMapping (DefaultNode V) → Nat
  | ⟨children, _⟩ => storage_count children

/-- The nodes in the slots of an array. -/
def storage_count : BitArray (DefaultNode V) → Nat
  | ⟨_, storage⟩ => slots_count storage

/-- The nodes in a list of slots. -/
def slots_count : List (Option (DefaultNode V)) → Nat
  | [] => 0
  | slot :: slots => slot_count slot + slots_count slots

/-- The nodes in a slot. -/
def slot_count : Option (DefaultNode V) → Nat
  | none => 0
  | some node => node.node_count

end

/-- A node in a slot is counted with the slots. -/
theorem node_count_le_slots_count {slots : List (Option (DefaultNode V))} {node : DefaultNode V}
    (h : some node ∈ slots) : node.node_count ≤ slots_count slots := by
  induction slots with
  | nil => cases h
  | cons slot slots ih =>
    rw [slots_count]
    cases List.mem_cons.1 h with
    | inl heq =>
      rw [← heq, slot_count]
      omega
    | inr hmem =>
      have := ih hmem
      omega

/-- All the places where a layout keeps children. -/
def Content.slots {N : Type} : Content N → List (Option N)
  | Empty => []
  | Node4 km => km.children
  | Node16 km => km.children
  | Node48 im => im.children.storage
  | Node256 dm => dm.children.storage

/-- All layouts count the nodes of their slots. -/
theorem content_count_eq (c : Content (DefaultNode V)) : content_count c = slots_count c.slots := by
  cases c with
  | Empty => rfl
  | Node4 km => cases km; rfl
  | Node16 km => cases km; rfl
  | Node48 im => obtain ⟨idx, ⟨bits, storage⟩, num⟩ := im; rfl
  | Node256 dm => obtain ⟨⟨bits, storage⟩, num⟩ := dm; rfl

/-- The children that a table hands out are in its slots. -/
theorem Content.mem_slots_of_iter {N : Type} {c : Content N} {k : UInt8} {node : N}
    (h : (k, node) ∈ c.iter) : some node ∈ c.slots := by
  cases c with
  | Empty => cases h
  | Node4 km => exact SortedKeyedMapping.mem_of_iter_from h
  | Node16 km => exact SortedKeyedMapping.mem_of_iter_from h
  | Node48 im => exact IndexedMapping.mem_of_iter h
  | Node256 dm => exact DirectMapping.mem_of_iter h

/-- The child that a search finds is in a slot. -/
theorem Content.mem_slots_of_seek [Features] {N : Type} {c : Content N} {k : UInt8} {node : N}
    (h : c.seek_child k = some node) : some node ∈ c.slots := by
  cases c with
  | Empty => cases h
  | Node4 km =>
    obtain ⟨idx, _, hget⟩ := Option.bind_eq_some_iff.1 h
    exact List.mem_of_getElem? (Option.join_eq_some_iff.1 hget)
  | Node16 km =>
    obtain ⟨idx, _, hget⟩ := Option.bind_eq_some_iff.1 h
    exact List.mem_of_getElem? (Option.join_eq_some_iff.1 hget)
  | Node48 im =>
    obtain ⟨pos, _, hget⟩ := Option.bind_eq_some_iff.1 h
    exact mem_storage_of_known_present hget
  | Node256 dm => exact mem_storage_of_get h

namespace DefaultNode

/-- A node counts itself and what is below it. -/
theorem node_count_eq (self : DefaultNode V) : self.node_count = content_count self.content + 1 := by
  obtain ⟨pfx, value, content⟩ := self
  rw [node_count]
  rfl

/-- The recursions over all children go down. -/
theorem node_count_lt_of_iter {self child : DefaultNode V} {key : UInt8}
    (h : (key, child) ∈ self.iter) : child.node_count < self.node_count := by
  have hle := node_count_le_slots_count (Content.mem_slots_of_iter h)
  rw [self.node_count_eq, content_count_eq]
  omega

variable [Features]

/-- So do those that follow one edge and write. -/
theorem node_count_lt_of_seek_mut {self child : DefaultNode V} {key : UInt8}
    (h : self.seek_child_mut key = some child) : child.node_count < self.node_count := by
  have hle := node_count_le_slots_count (Content.mem_slots_of_seek h)
  rw [self.node_count_eq, content_count_eq]
  omega

/-- And those that follow one edge and read. -/
theorem node_count_lt_of_seek {self child : DefaultNode V} {key : UInt8}
    (h : self.seek_child key = some child) : child.node_count < self.node_count := by
  unfold DefaultNode.seek_child at h
  split at h
  · cases h
  · exact node_count_lt_of_seek_mut h

instance : Node (DefaultNode V) V where
  pfx := pfx
  value := value
  is_leaf := is_leaf
  seek_child := seek_child
  num_children := num_children
  iter := iter
  rank := node_count
  rank_iter := node_count_lt_of_iter
  rank_seek := node_count_lt_of_seek
  Layout self := self.content.Repr self.iter
  ascending h := h.ascending
  seek_eq h := seek_child_eq h
  iter_leaf h hleaf := h.eq_nil_of_is_empty hleaf

section Lookup

variable {node child : DefaultNode V} {k : UInt8}

/-- The prefix of a node is the key of its value. -/
theorem find_value (node : DefaultNode V) : Trie.find node node.pfx = node.value := Trie.find_pfx node

/-- A key that goes on behind an edge is found by the child there. -/
theorem find_below (hchild : node.iter.lookup k = some child) (s : Bytes) :
    Trie.find node (node.pfx ++ k :: s) = Trie.find child (k :: s) := Trie.find_edge hchild s

/-- A key that goes on behind an edge that is missing is not found. -/
theorem find_absent (habsent : node.iter.lookup k = none) (s : Bytes) :
    Trie.find node (node.pfx ++ k :: s) = none := Trie.find_no_edge habsent s

end Lookup

end DefaultNode

end rart.node

namespace rart.tree

open rart.node Trie

variable {V : Type} [Features]

/-- The children of a node are the pairs of an ascending list, each of them the
root of a well-formed subtree behind its edge. -/
structure Children (content : Content (DefaultNode V)) (items : List (UInt8 × DefaultNode V)) :
    Prop where
  repr : content.Repr items
  edges : ∀ p ∈ items, p.2.pfx.head? = some p.1
  wf : ∀ p ∈ items, Wf p.2

/-- A node with well-formed children, and a value where it has none. -/
theorem wf_mk {pfx : Bytes} {value : Option V} {content : Content (DefaultNode V)}
    {items : List (UInt8 × DefaultNode V)} (h : Children content items)
    (hvalue : items = [] → ∃ v, value = some v) : Wf (DefaultNode.mk pfx value content) := by
  have hiter : content.iter = items := h.repr.iter_eq
  refine Wf.intro _ ?_ ?_ ?_ ?_
  · change content.Repr content.iter
    rw [hiter]
    exact h.repr
  · intro p hp
    exact h.edges p (hiter ▸ hp)
  · intro p hp
    exact h.wf p (hiter ▸ hp)
  · intro hempty
    obtain ⟨v, hv⟩ := hvalue (hiter.symm.trans hempty)
    change value.isSome = true
    rw [hv]
    rfl

/-- A node is well-formed if its children are, and if it has a value or a child. -/
theorem wf_mk_iff {pfx : Bytes} {value : Option V} {content : Content (DefaultNode V)} :
    Wf (DefaultNode.mk pfx value content) ↔
      ∃ items, Children content items ∧ (items = [] → ∃ v, value = some v) := by
  constructor
  · intro h
    exact ⟨content.iter, ⟨h.layout, fun _ hp => h.edges hp, fun _ hp => h.child hp⟩, h.occupied⟩
  · rintro ⟨items, hchildren, hvalue⟩
    exact wf_mk hchildren hvalue

/-- What a node finds, in terms of the children that its table stands for. -/
theorem find_mk {pfx : Bytes} {value : Option V} {content : Content (DefaultNode V)}
    {items : List (UInt8 × DefaultNode V)} (h : content.Repr items) (key : Bytes) :
    find (DefaultNode.mk pfx value content) key =
      (pfx.isPrefixOf? key).bind (lookupBelow value items) := by
  have hiter : content.iter = items := h.iter_eq
  rw [find_eq, ← hiter]
  rfl

/-- No children. -/
theorem children_nil : Children (Content.Empty : Content (DefaultNode V)) [] where
  repr := rfl
  edges := by simp
  wf := by simp

/-- A table without children. -/
theorem children_empty4 : Children (Content.Node4 .new : Content (DefaultNode V)) [] where
  repr := SortedKeyedMapping.Repr.new
  edges := by simp
  wf := by simp

/-- A leaf is well-formed. -/
theorem wf_leaf (pfx : Bytes) (value : V) : Wf (DefaultNode.new_leaf pfx value) :=
  wf_mk children_nil fun _ => ⟨value, rfl⟩

/-- A leaf finds its own key. -/
theorem find_leaf (pfx : Bytes) (value : V) (key : Bytes) :
    find (DefaultNode.new_leaf pfx value) key = if key = pfx then some value else none := by
  unfold DefaultNode.new_leaf
  rw [find_mk children_nil.repr]
  cases hstrip : pfx.isPrefixOf? key with
  | none =>
    have hne : key ≠ pfx := fun heq => by
      have hself := isPrefixOf?_append_self pfx []
      rw [List.append_nil] at hself
      rw [heq, hself] at hstrip
      cases hstrip
    rw [if_neg hne]
    rfl
  | some rest =>
    have hkey := List.isPrefixOf?_eq_some_iff_append_eq.1 hstrip
    rw [← hkey]
    cases rest with
    | nil => simp [lookupBelow]
    | cons k rest => simp [lookupBelow]

end rart.tree
