import Rart.Tree.Insert

open SortedAssoc LexOrder
open rart.node rart.partials rart.utils rart.Trie

namespace rart.tree

variable {V : Type} [Features]

section Steps

/-- A leaf is deleted together with its edge. -/
def remove_leaf (parent_node : DefaultNode V) (c : UInt8) : Result (Option V × DefaultNode V) := do
  let (node, parent_node) ← parent_node.delete_child c
  let v ← expect (← unwrap node).value "corruption: missing value at deleted leaf"
  return (some v, parent_node)

/-- A child that is left without children and value is deleted. -/
def prune_child (parent_node : DefaultNode V) (c : UInt8) : Result (DefaultNode V) := do
  let (deleted, parent_node) ← parent_node.delete_child c
  let _ ← unwrap deleted
  return parent_node

/-- Each round looks at the child of a node, and takes it out of the node where nothing is left of
it. -/
def remove_recurse (parent_node : DefaultNode V) (key : Bytes) (depth : Nat) :
    Result (Option V × DefaultNode V) := do
  let c ← byte_at key depth
  match _hchild : parent_node.seek_child_mut c with
  | none => return (none, parent_node)
  | some child_node =>
    let prefix_common_match ← prefix_length_key child_node.pfx key depth
    if prefix_common_match ≠ child_node.pfx.length then return (none, parent_node)
    else
      let remaining ← length_at key depth
      if child_node.pfx.length = remaining then
        if child_node.is_leaf then remove_leaf parent_node c
        else
          let removed := child_node.value
          let child_node := DefaultNode.mk child_node.pfx none child_node.content
          let parent_node := parent_node.write_child c child_node
          if removed.isSome ∧ child_node.num_children = 0 then
            return (removed, ← prune_child parent_node c)
          else return (removed, parent_node)
      else if child_node.is_leaf then
        if child_node.pfx.length ≠ remaining then return (none, parent_node)
        else remove_leaf parent_node c
      else
        let (result, child_node) ← remove_recurse child_node key (depth + child_node.pfx.length)
        let parent_node := parent_node.write_child c child_node
        if result.isSome ∧ child_node.is_leaf = false ∧ child_node.num_children = 0 ∧
            child_node.value.isNone then
          return (result, ← prune_child parent_node c)
        else return (result, parent_node)
termination_by parent_node.node_count
decreasing_by exact DefaultNode.node_count_lt_of_seek_mut _hchild

end Steps

section Pruning

/-- Left with neither children nor a value. -/
def Bare (node : DefaultNode V) : Prop := node.value = none ∧ node.content.Repr []

/-- A node without children and without a value holds no key. -/
theorem find_of_bare {node : DefaultNode V} (h : Bare node) (key : Bytes) : find node key = none := by
  obtain ⟨pfx, value, content⟩ := node
  obtain ⟨hvalue, hrepr⟩ := h
  obtain rfl : value = none := hvalue
  have hrepr : content.Repr [] := hrepr
  rw [find_mk hrepr]
  cases pfx.isPrefixOf? key with
  | none => rfl
  | some rest => cases rest <;> rfl

/-- A node is well formed when its children are, and when it has a value or a child. -/
theorem wf_of_children {node : DefaultNode V} {items : List (UInt8 × DefaultNode V)}
    (h : Children node.content items) (hvalue : items = [] → ∃ v, node.value = some v) : Wf node := by
  obtain ⟨pfx, value, content⟩ := node
  exact wf_mk h hvalue

/-- The children of a well-formed node. -/
theorem children_of_wf {node : DefaultNode V} (h : Wf node) : Children node.content node.iter :=
  ⟨h.layout, fun _ hp => h.edges hp, fun _ hp => h.child hp⟩

/-- Clearing the slot of a key that is not there changes nothing. -/
theorem updatedAt_self {node : DefaultNode V} {key : Bytes} (h : find node key = none) :
    UpdatedAt node node key none := by
  intro k
  split
  · rename_i heq
    rw [heq, h]
  · rfl

/-- What deleting an edge leaves of a node. -/
structure EdgeDeleted (before after : DefaultNode V) (items : List (UInt8 × DefaultNode V)) :
    Prop where
  wf : Wf after ∨ (Bare after ∧ after.is_leaf = false)
  find : ∀ key, find after key = (before.pfx.isPrefixOf? key).bind (lookupBelow before.value items)
  head : ∀ a, before.pfx.head? = some a → after.pfx.head? = some a

/-- Collapsing a valueless node into its only child keeps what is found. -/
theorem find_collapsed {pfx : Bytes} {child : DefaultNode V} {k : UInt8}
    (hedge : child.pfx.head? = some k) (hwf : Wf child) (key : Bytes) :
    find (DefaultNode.mk (pfx ++ child.pfx) child.value child.content) key =
      (pfx.isPrefixOf? key).bind (lookupBelow none [(k, child)]) := by
  obtain ⟨child_pfx, value, content⟩ := child
  have hrepr : content.Repr _ := (children_of_wf hwf).repr
  have happ := find_mk_append hrepr pfx child_pfx value key
  rw [DefaultNode.pfx_mk, DefaultNode.value_mk, DefaultNode.content_mk]
  refine happ.trans ?_
  cases pfx.isPrefixOf? key with
  | none => rfl
  | some rest =>
    rw [Option.bind_some, Option.bind_some]
    cases rest with
    | nil =>
      refine find_eq_none_of_not_pfx fun hpfx => ?_
      have hnil : child_pfx = [] := List.prefix_nil.1 hpfx
      rw [DefaultNode.pfx_mk, hnil] at hedge
      cases hedge
    | cons b rest =>
      rw [lookupBelow, lookup_cons_if]
      split
      · rfl
      · rename_i hne
        cases hfind : find (DefaultNode.mk child_pfx value content) (b :: rest) with
        | none => rfl
        | some v =>
          have hhead := head?_of_find hedge hfind
          exact absurd (Option.some.inj hhead) hne

/-- What `delete_child` does to a node, its join included. -/
theorem delete_edge_spec (node : DefaultNode V) {items : List (UInt8 × DefaultNode V)} {k : UInt8}
    {child : DefaultNode V} (h : node.content.Repr items) (hchild : items.lookup k = some child)
    (hothers : ∀ p ∈ eraseKey k items, p.2.pfx.head? = some p.1 ∧ Wf p.2) :
    ∃ after, node.delete_child k = .ok (some child, after) ∧
      EdgeDeleted node after (eraseKey k items) := by
  obtain ⟨after, hdelete, hafter⟩ := DefaultNode.delete_child_spec h hchild
  refine ⟨after, hdelete, ?_⟩
  obtain ⟨hpfx, hvalue, hinner, hrepr⟩ | ⟨key, last, hitems, hvalue, rfl⟩ := hafter
  · have hchildren : Children after.content (eraseKey k items) :=
      ⟨hrepr, fun p hp => (hothers p hp).1, fun p hp => (hothers p hp).2⟩
    have hfind : ∀ t, find after t =
        (node.pfx.isPrefixOf? t).bind (lookupBelow node.value (eraseKey k items)) := by
      intro t
      rw [← hpfx, ← hvalue]
      obtain ⟨pfx, value, content⟩ := after
      exact find_mk hrepr t
    refine ⟨?_, hfind, fun a ha => by rwa [hpfx]⟩
    cases hleft : eraseKey k items with
    | cons p rest =>
      rw [hleft] at hchildren
      exact Or.inl (wf_of_children hchildren fun hnil => by cases hnil)
    | nil =>
      cases hheld : node.value with
      | none =>
        rw [hleft] at hrepr
        exact Or.inr ⟨⟨hvalue.trans hheld, hrepr⟩, hinner⟩
      | some v => exact Or.inl (wf_of_children hchildren fun _ => ⟨v, hvalue.trans hheld⟩)
  · have hlast := hothers (key, last) (by rw [hitems]; simp)
    refine ⟨Or.inl ?_, ?_, ?_⟩
    · have hchildren := children_of_wf hlast.2
      exact wf_mk hchildren fun hnil => hlast.2.occupied hnil
    · intro t
      rw [hitems, hvalue]
      exact find_collapsed hlast.1 hlast.2 t
    · intro a ha
      rw [DefaultNode.pfx_mk, List.head?_append, ha]
      rfl

/-- Deleting the edge to a subtree that is left without entries. -/
theorem updatedAt_of_edge_deleted {node after : DefaultNode V} {items : List (UInt8 × DefaultNode V)}
    {k : UInt8} {s : Bytes} {child : DefaultNode V} (h : node.content.Repr items)
    (hchild : items.lookup k = some child) (honly : ∀ t, t ≠ k :: s → find child t = none)
    (hfind : ∀ t, find after t =
      (node.pfx.isPrefixOf? t).bind (lookupBelow node.value (eraseKey k items))) :
    UpdatedAt node after (node.pfx ++ k :: s) none := by
  obtain ⟨pfx, value, content⟩ := node
  refine updatedAt_of_strip (find_mk h) hfind ?_
  intro rest
  cases rest with
  | nil => rfl
  | cons b rest =>
    rw [DefaultNode.value_mk, lookupBelow, lookupBelow, lookup_eraseKey]
    by_cases hb : b = k
    · subst hb
      rw [if_pos rfl, hchild, Option.bind_none, Option.bind_some]
      split
      · rfl
      · rename_i hne
        rw [honly _ hne]
    · have hne : b :: rest ≠ k :: s := fun heq => hb (List.cons.inj heq).1
      rw [if_neg hb, if_neg hne]

end Pruning

section Remove

/-- The value under a key at or below a node is taken out: the forms this can take.
What is left may be bare. -/
inductive Take : DefaultNode V → Bytes → DefaultNode V → Prop where
  | here (node : DefaultNode V) : Take node node.pfx (.mk node.pfx none node.content)
  /-- A leaf is deleted with its edge. -/
  | leaf {node child after : DefaultNode V} {k : UInt8} {s : Bytes} {deleted : Option (DefaultNode V)}
      (hchild : node.iter.lookup k = some child) (hleaf : child.iter = []) (hpfx : child.pfx = k :: s)
      (hdelete : node.delete_child k = .ok (deleted, after)) : Take node (node.pfx ++ k :: s) after
  | deeper {node child child' : DefaultNode V} {k : UInt8} {s : Bytes}
      (hchild : node.iter.lookup k = some child) (htake : Take child (k :: s) child')
      (hkept : ¬ Bare child') : Take node (node.pfx ++ k :: s) (node.write_child k child')
  /-- A child that is left bare is deleted as well. -/
  | pruned {node child child' after : DefaultNode V} {k : UInt8} {s : Bytes}
      {deleted : Option (DefaultNode V)} (hchild : node.iter.lookup k = some child)
      (htake : Take child (k :: s) child') (hbare : Bare child')
      (hdelete : (node.write_child k child').delete_child k = .ok (deleted, after)) :
      Take node (node.pfx ++ k :: s) after

/-- The slot under a key is left with a value, or without one. -/
inductive Edited (before : DefaultNode V) (key : Bytes) : Option V → DefaultNode V → Prop where
  | put {value : V} {after : DefaultNode V} (hput : Put value before key after) :
      Edited before key (some value) after
  | take {after : DefaultNode V} (hfound : (find before key).isSome) (htake : Take before key after) :
      Edited before key none after
  | same (hnone : find before key = none) : Edited before key none before

/-- The outcome of taking a value out. -/
structure TakenAt (before after : DefaultNode V) (key : Bytes) : Prop where
  wf : Wf after ∨ Bare after
  updated : UpdatedAt before after key none
  head : ∀ a, before.pfx.head? = some a → after.pfx.head? = some a

/-- A well-formed node is not bare. -/
theorem not_bare_of_wf {node : DefaultNode V} (h : Wf node) : ¬ Bare node := by
  rintro ⟨hvalue, hrepr⟩
  obtain ⟨v, hv⟩ := h.occupied hrepr.iter_eq
  cases hvalue.symm.trans hv

/-- Whether what is left of a node is bare shows in its counts. -/
theorem bare_iff {node : DefaultNode V} (h : Wf node ∨ Bare node) :
    (node.num_children = 0 ∧ node.value.isNone = true) ↔ Bare node := by
  refine ⟨fun hcounts => h.elim (fun hwf => ?_) id, fun hbare => ⟨hbare.2.num_children_eq, ?_⟩⟩
  · have hrepr := (children_of_wf hwf).repr
    rw [List.eq_nil_of_length_eq_zero (hrepr.num_children_eq.symm.trans hcounts.1)] at hrepr
    exact ⟨Option.isNone_iff_eq_none.1 hcounts.2, hrepr⟩
  · rw [hbare.1]
    rfl

section Deletions

variable {node child child' after : DefaultNode V} {k : UInt8} {s : Bytes}
  {deleted : Option (DefaultNode V)}

/-- Deleting an edge of a well-formed node. -/
theorem edge_deleted (hwf : Wf node) (hchild : node.iter.lookup k = some child)
    (hdelete : node.delete_child k = .ok (deleted, after)) :
    deleted = some child ∧ EdgeDeleted node after (eraseKey k node.iter) := by
  have hchildren := children_of_wf hwf
  obtain ⟨after', hdelete', hafter⟩ := delete_edge_spec _ hchildren.repr hchild fun p hp => by
    have hp' := (mem_eraseKey.1 hp).1
    exact ⟨hchildren.edges p hp', hchildren.wf p hp'⟩
  cases hdelete.symm.trans hdelete'
  exact ⟨rfl, hafter⟩

/-- Deleting the edge of a child that was written just before. -/
theorem written_edge_deleted (hwf : Wf node) (hchild : node.iter.lookup k = some child)
    (hdelete : (node.write_child k child').delete_child k = .ok (deleted, after)) :
    deleted = some child' ∧ EdgeDeleted node after (eraseKey k node.iter) := by
  have hchildren := children_of_wf hwf
  have hrepr := hchildren.repr.write_child k child'
  have hchild' : (setKey k child' node.iter).lookup k = some child' := by
    rw [lookup_setKey, if_pos rfl, hchild]
    rfl
  have herase := eraseKey_setKey k child' node.iter
  obtain ⟨after', hdelete', hafter⟩ := delete_edge_spec (node.write_child k child') hrepr hchild'
    fun p hp => by
      rw [herase] at hp
      have hp' := (mem_eraseKey.1 hp).1
      exact ⟨hchildren.edges p hp', hchildren.wf p hp'⟩
  cases hdelete.symm.trans hdelete'
  rw [herase] at hafter
  exact ⟨rfl, hafter.wf, hafter.find, hafter.head⟩

/-- The edge of a child can be deleted after writing it. -/
theorem delete_written_eq_ok (hwf : Wf node) (hchild : node.iter.lookup k = some child)
    (child' : DefaultNode V) :
    ∃ after, (node.write_child k child').delete_child k = .ok (some child', after) := by
  have hrepr := (children_of_wf hwf).repr.write_child k child'
  have hchild' : (setKey k child' node.iter).lookup k = some child' := by
    rw [lookup_setKey, if_pos rfl, hchild]
    rfl
  have hrepr' : (node.write_child k child').content.Repr (setKey k child' node.iter) := hrepr
  obtain ⟨after, hdelete, _⟩ := DefaultNode.delete_child_spec hrepr' hchild'
  exact ⟨after, hdelete⟩

/-- A node that lost its last child keeps its empty table. -/
theorem EdgeDeleted.is_leaf_of_bare {items : List (UInt8 × DefaultNode V)}
    (h : EdgeDeleted node after items) (hbare : Bare after) : after.is_leaf = false := by
  cases h.wf with
  | inl hwf => exact absurd hbare (not_bare_of_wf hwf)
  | inr hleft => exact hleft.2

/-- A leaf holds its own key only. -/
theorem find_of_leaf (hleaf : child.iter = []) (t : Bytes) (hne : t ≠ child.pfx) :
    find child t = none := by
  rw [find_eq]
  change (child.pfx.isPrefixOf? t).bind (lookupBelow child.value child.iter) = none
  rw [hleaf]
  cases hstrip : child.pfx.isPrefixOf? t with
  | none => rfl
  | some rest =>
    cases rest with
    | cons b rest => rfl
    | nil =>
      have heq := List.isPrefixOf?_eq_some_iff_append_eq.1 hstrip
      rw [List.append_nil] at heq
      exact absurd heq.symm hne

/-- Taking out the child that holds one key takes out that key. -/
theorem EdgeDeleted.takenAt (h : EdgeDeleted node after (eraseKey k node.iter)) (hwf : Wf node)
    (hchild : node.iter.lookup k = some child) (honly : ∀ t, t ≠ k :: s → Trie.find child t = none) :
    TakenAt node after (node.pfx ++ k :: s) where
  wf := h.wf.imp_right And.left
  updated := updatedAt_of_edge_deleted (children_of_wf hwf).repr hchild honly h.find
  head := h.head

end Deletions

/-- Taking a value out leaves a node well-formed or bare, and changes no other key. -/
theorem Take.takenAt {node after : DefaultNode V} {key : Bytes} (hwf : Wf node)
    (h : Take node key after) : TakenAt node after key := by
  induction h with
  | here node =>
    obtain ⟨pfx, value, content⟩ := node
    obtain ⟨items, hchildren, hheld⟩ := wf_mk_iff.1 hwf
    refine ⟨?_, updatedAt_value _ _ hchildren.repr none, fun _ ha => ha⟩
    cases items with
    | nil => exact Or.inr ⟨rfl, hchildren.repr⟩
    | cons p items => exact Or.inl (wf_mk hchildren fun hnil => by cases hnil)
  | @leaf node child after k s deleted hchild hleaf hpfx hdelete =>
    obtain ⟨_, hedge⟩ := edge_deleted hwf hchild hdelete
    refine hedge.takenAt hwf hchild fun t hne => find_of_leaf hleaf t ?_
    rwa [hpfx]
  | @deeper node child child' k s hchild htake hkept ih =>
    have hmem := hwf.ascending.lookup_eq_some_iff.1 hchild
    have hspec := ih (hwf.child hmem)
    have hwf' := hspec.wf.resolve_right hkept
    obtain ⟨hwritten, hupdated⟩ := write_child_spec hwf hchild hwf'
      (hspec.head k (hwf.edges hmem)) hspec.updated
    exact ⟨Or.inl hwritten, hupdated, fun _ ha => ha⟩
  | @pruned node child child' after k s deleted hchild htake hbare hdelete ih =>
    have hmem := hwf.ascending.lookup_eq_some_iff.1 hchild
    have hspec := ih (hwf.child hmem)
    obtain ⟨_, hedge⟩ := written_edge_deleted hwf hchild hdelete
    refine hedge.takenAt hwf hchild fun t hne => ?_
    have ht := hspec.updated t
    rw [if_neg hne, find_of_bare hbare] at ht
    exact ht.symm

namespace Edited

variable {before after : DefaultNode V} {key : Bytes}

/-- What an edit does to the keys below. -/
theorem updated (hwf : Wf before) {left : Option V} (h : Edited before key left after) :
    UpdatedAt before after key left := by
  cases h with
  | put hput => exact (hput.insertedAt hwf).updated
  | take hfound htake => exact (htake.takenAt hwf).updated
  | same hnone => exact updatedAt_self hnone

/-- A slot left as it was leaves the node as it was. -/
theorem eq_self (hwf : Wf before) {left : Option V} (h : Edited before key left after)
    (hleft : left = find before key) : after = before := by
  cases h with
  | put hput => exact hput.eq_self hwf hleft.symm
  | take hfound htake =>
    rw [← hleft] at hfound
    cases hfound
  | same hnone => rfl

/-- An edit leaves a node that is well formed, or bare. -/
theorem wf (hwf : Wf before) {left : Option V} (h : Edited before key left after) :
    Wf after ∨ Bare after := by
  cases h with
  | put hput => exact Or.inl (hput.insertedAt hwf).wf
  | take hfound htake => exact (htake.takenAt hwf).wf
  | same hnone => exact Or.inl hwf

/-- Only taking the value out of an occupied slot leaves a node bare. -/
theorem bare (hwf : Wf before) {left : Option V} (h : Edited before key left after)
    (hbare : Bare after) : (find before key).isSome ∧ left = none := by
  cases h with
  | put hput => exact absurd hbare (not_bare_of_wf (hput.insertedAt hwf).wf)
  | take hfound htake => exact ⟨hfound, rfl⟩
  | same hnone => exact absurd hbare (not_bare_of_wf hwf)

/-- An edit keeps the node behind its edge. -/
theorem sameEdge (hwf : Wf before) {left : Option V} (h : Edited before key left after) :
    SameEdge before after key := by
  cases h with
  | put hput => exact (hput.insertedAt hwf).edge
  | take hfound htake => exact fun a ha _ => (htake.takenAt hwf).head a ha
  | same hnone => exact fun a ha _ => ha

end Edited

variable {parent_node : DefaultNode V} {key : Bytes}

/-- Taking out a leaf takes out its key. -/
theorem remove_leaf_takes (hwf : Wf parent_node) {k : UInt8} {s : Bytes} {child : DefaultNode V}
    (hchild : parent_node.iter.lookup k = some child) (hleaf : child.is_leaf = true)
    (hpfx : child.pfx = k :: s) :
    ∃ after, remove_leaf parent_node k = .ok (find child (k :: s), after) ∧
      Edited parent_node (parent_node.pfx ++ k :: s) none after ∧
      (Bare after → after.is_leaf = false) := by
  have hmem := hwf.ascending.lookup_eq_some_iff.1 hchild
  have hiter : child.iter = [] := Node.iter_leaf (hwf.child hmem).layout hleaf
  obtain ⟨v, hv⟩ := (hwf.child hmem).occupied hiter
  have hsome : find child (k :: s) = some v := by
    rw [← hpfx, DefaultNode.find_value]
    exact hv
  obtain ⟨after, hdelete, _⟩ := DefaultNode.delete_child_spec (children_of_wf hwf).repr hchild
  have hfound : find parent_node (parent_node.pfx ++ k :: s) = some v := by
    rw [DefaultNode.find_below hchild, hsome]
  refine ⟨after, ?_, .take (by rw [hfound]; rfl) (.leaf hchild hiter hpfx hdelete),
    (edge_deleted hwf hchild hdelete).2.is_leaf_of_bare⟩
  unfold remove_leaf
  have hvalue : child.value = some v := hv
  rw [hdelete, ok_bind, hsome]
  simp only [unwrap_some, ok_bind, hvalue, expect_some, pure_eq_ok]

/-- Pruning a child that was left bare by taking its last key. -/
theorem prune_child_takes (hwf : Wf parent_node) {k : UInt8} {s : Bytes} {child child' : DefaultNode V}
    (hchild : parent_node.iter.lookup k = some child) (htake : Take child (k :: s) child')
    (hbare : Bare child') :
    ∃ after, prune_child (parent_node.write_child k child') k = .ok after ∧
      Take parent_node (parent_node.pfx ++ k :: s) after ∧ (Bare after → after.is_leaf = false) := by
  obtain ⟨after, hdelete⟩ := delete_written_eq_ok hwf hchild child'
  refine ⟨after, ?_, .pruned hchild htake hbare hdelete,
    (written_edge_deleted hwf hchild hdelete).2.is_leaf_of_bare⟩
  unfold prune_child
  rw [hdelete]
  rfl

/-- Writing a child through its reference does not make a leaf of the parent. -/
theorem bare_write_child (hwf : Wf parent_node) {k : UInt8} {child child' : DefaultNode V}
    (hchild : parent_node.iter.lookup k = some child) : ¬ Bare (parent_node.write_child k child') := by
  rintro ⟨_, hrepr⟩
  have hwritten := (children_of_wf hwf).repr.write_child k child'
  have hitems := hrepr.iter_eq.symm.trans (Content.Repr.iter_eq hwritten)
  have hmem := hwf.ascending.lookup_eq_some_iff.1 hchild
  have hkeys := map_fst_setKey k child' parent_node.iter
  rw [← hitems] at hkeys
  have hnil := List.map_eq_nil_iff.1 hkeys.symm
  rw [show (Node.iter parent_node) = [] from hnil] at hmem
  cases hmem

/-- A child is pruned after a removal if it is left bare. -/
theorem pruned_iff_bare {node after : DefaultNode V} (hwf : Wf node) (hedited : Edited node key none after)
    (hinner : Bare after → after.is_leaf = false) :
    ((find node key).isSome ∧ after.is_leaf = false ∧ after.num_children = 0 ∧ after.value.isNone = true) ↔
      Bare after := by
  rw [bare_iff (hedited.wf hwf)]
  exact ⟨fun h => h.2.2, fun hbare => ⟨(hedited.bare hwf hbare).1, hinner hbare, hbare⟩⟩

/-- A value is taken out of its slot, or there is none. -/
theorem edited_cleared (node : DefaultNode V) :
    Edited node node.pfx none (.mk node.pfx none node.content) := by
  obtain ⟨pfx, value, content⟩ := node
  cases value with
  | none => exact .same (DefaultNode.find_value _)
  | some v =>
    refine .take ?_ (.here _)
    rw [DefaultNode.find_value]
    rfl

/-- A child whose slot was emptied is written back, or pruned if that leaves it bare. -/
theorem keep_or_prune (hwf : Wf parent_node) {k : UInt8} {s : Bytes} {child child' : DefaultNode V}
    (hchild : parent_node.iter.lookup k = some child) (hedited : Edited child (k :: s) none child')
    (hinner : Bare child' → child'.is_leaf = false) :
    ∃ after, (if (find child (k :: s)).isSome ∧ child'.is_leaf = false ∧ child'.num_children = 0 ∧
          child'.value.isNone = true then do
        return (find child (k :: s), ← prune_child (parent_node.write_child k child') k)
      else return (find child (k :: s), parent_node.write_child k child')) =
        .ok (find parent_node (parent_node.pfx ++ k :: s), after) ∧
      Edited parent_node (parent_node.pfx ++ k :: s) none after ∧ (Bare after → after.is_leaf = false) := by
  have hwfchild := hwf.child (hwf.ascending.lookup_eq_some_iff.1 hchild)
  have hbelow := DefaultNode.find_below hchild s
  have hpruned := pruned_iff_bare hwfchild hedited hinner
  rw [hbelow]
  cases hedited with
  | same hnone =>
    rw [if_neg fun hbare => not_bare_of_wf hwfchild (hpruned.1 hbare), write_child_self hwf hchild]
    exact ⟨parent_node, rfl, .same (hbelow.trans hnone), fun hbare => absurd hbare (not_bare_of_wf hwf)⟩
  | take hfound htake =>
    have hfound' : (find parent_node (parent_node.pfx ++ k :: s)).isSome := by
      rw [hbelow]
      exact hfound
    by_cases hbare : Bare child'
    · obtain ⟨after, hprune, htake', hinner'⟩ := prune_child_takes hwf hchild htake hbare
      rw [if_pos (hpruned.2 hbare), hprune]
      exact ⟨after, rfl, .take hfound' htake', hinner'⟩
    · rw [if_neg fun h => hbare (hpruned.1 h)]
      exact ⟨_, rfl, .take hfound' (.deeper hchild htake hbare),
        fun hbare => absurd hbare (bare_write_child hwf hchild)⟩

/-- Removal empties the slot under what is left of the key. -/
theorem remove_recurse_edits (hwf : Wf parent_node) {depth : Nat} (hdepth : depth < key.length) :
    ∃ after, remove_recurse parent_node key depth =
        .ok (find parent_node (parent_node.pfx ++ key.drop depth), after) ∧
      Edited parent_node (parent_node.pfx ++ key.drop depth) none after ∧
      (Bare after → after.is_leaf = false) := by
  induction hn : parent_node.node_count using Nat.strongRecOn generalizing parent_node depth with
  | ind n ih =>
    subst hn
    obtain ⟨k, rest, hkey⟩ : ∃ k rest, key.drop depth = k :: rest := by
      cases hdrop : key.drop depth with
      | nil =>
        have hlen := List.drop_eq_nil_iff.1 hdrop
        omega
      | cons k rest => exact ⟨k, rest, rfl⟩
    have hbyte : byte_at key depth = .ok k := index_eq_ok (by rw [← List.head?_drop, hkey]; rfl)
    have hfind : find parent_node (parent_node.pfx ++ key.drop depth) =
        (parent_node.iter.lookup k).bind fun c => find c (k :: rest) := by
      rw [hkey]
      exact find_append parent_node (k :: rest)
    have habsent : find parent_node (parent_node.pfx ++ key.drop depth) = none →
        ∃ after, (.ok (none, parent_node) : Result (Option V × DefaultNode V)) = .ok (none, after) ∧
          Edited parent_node (parent_node.pfx ++ key.drop depth) none after ∧
          (Bare after → after.is_leaf = false) :=
      fun hnone => ⟨parent_node, rfl, .same hnone, fun hbare => absurd hbare (not_bare_of_wf hwf)⟩
    have hseek : parent_node.seek_child_mut k = parent_node.iter.lookup k :=
      Content.Repr.seek_child hwf.layout k
    rw [remove_recurse, hbyte, ok_bind]
    split
    · rename_i hnone
      rw [hseek] at hnone
      rw [hnone] at hfind
      rw [hfind] at habsent ⊢
      exact habsent rfl
    · rename_i child hsome
      rw [hseek] at hsome
      rw [hsome, Option.bind_some] at hfind
      have hmem := hwf.ascending.lookup_eq_some_iff.1 hsome
      have hchild := hwf.child hmem
      rw [prefix_length_key_eq_ok (Nat.le_of_lt hdepth), ok_bind]
      split
      · -- the child's prefix diverges from the key
        rename_i hne
        have hnone : find child (k :: rest) = none := by
          refine find_eq_none_of_not_pfx fun hpfx => hne ?_
          rw [lcp_eq_length_iff, hkey]
          exact hpfx
        rw [hnone] at hfind
        rw [hfind] at habsent ⊢
        exact habsent rfl
      · rename_i heq
        have hstarts := lcp_eq_length_iff.1 (not_not.1 heq)
        obtain ⟨s, hs⟩ := hstarts
        rw [length_at, usize_sub_eq_ok (Nat.le_of_lt hdepth), ok_bind]
        have hlen := congrArg List.length hs
        simp only [List.length_append, List.length_drop] at hlen
        split
        · -- the key ends at the child
          rename_i hend
          have hnil : s = [] := List.eq_nil_of_length_eq_zero (by omega)
          rw [hnil, List.append_nil, hkey] at hs
          split
          · rename_i hleaf
            rw [hkey] at hfind ⊢
            rw [hfind]
            exact remove_leaf_takes hwf hsome hleaf hs
          · rename_i hinner
            have hvalue : find child (k :: rest) = child.value := by
              rw [← hs, DefaultNode.find_value]
            have hleaf : (DefaultNode.mk child.pfx (none : Option V) child.content).is_leaf = false :=
              Bool.not_eq_true _ ▸ hinner
            have hcleared : Edited child (k :: rest) none (.mk child.pfx none child.content) := by
              rw [← hs]
              exact edited_cleared child
            obtain ⟨after, hrun, hedited, hafter⟩ := keep_or_prune hwf hsome hcleared fun _ => hleaf
            refine ⟨after, ?_, by rwa [hkey], hafter⟩
            rw [hkey, ← hrun, hvalue]
            refine if_congr ?_ rfl rfl
            simp [hleaf]
        · rename_i hlonger
          split
          · -- a leaf holds no longer key
            rename_i hleaf
            have hiter : child.iter = [] := Node.iter_leaf hchild.layout hleaf
            have hnone : find child (k :: rest) = none := by
              refine find_of_leaf hiter _ fun heq => hlonger ?_
              rw [← hkey] at heq
              rw [← heq, List.length_drop]
            rw [hnone] at hfind
            rw [hfind] at habsent ⊢
            exact habsent rfl
          · have hspos : s.length ≠ 0 := by omega
            have hdrop : key.drop (depth + child.pfx.length) = s := by
              rw [← List.drop_drop, ← hs, List.drop_left]
            have hdepth' : depth + child.pfx.length < key.length := by omega
            obtain ⟨child', hrec, hedited, hinner⟩ := ih child.node_count
              (DefaultNode.node_count_lt_of_iter hmem) hchild hdepth' rfl
            rw [hdrop, hs, hkey] at hrec hedited
            rw [hrec, ok_bind, hkey]
            exact keep_or_prune hwf hsome hedited hinner

end Remove

end rart.tree
