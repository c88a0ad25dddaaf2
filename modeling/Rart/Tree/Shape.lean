import Rart.Tree.Refines

open SortedAssoc
open rart.node rart.utils rart.Trie

namespace rart.tree

variable {V E : Type}

/-- A property of a node and of every node below it. -/
inductive Every (P : DefaultNode V → Prop) : DefaultNode V → Prop where
  | intro (node : DefaultNode V) (here : P node) (below : ∀ p ∈ node.iter, Every P p.2) : Every P node

/-- The layout of a node is the one that its number of children asks for. -/
def LayoutFits (node : DefaultNode V) : Prop := node.content.Fits node.iter.length

/-- A node without a value has at least two children. -/
def Branches (node : DefaultNode V) : Prop := node.value = none → 2 ≤ node.iter.length

/-- A node without children has no child table. -/
def BareLeaf (node : DefaultNode V) : Prop := node.iter = [] → node.is_leaf = true

namespace Every

variable {P Q : DefaultNode V → Prop} {node : DefaultNode V}

/-- The node itself has the property. -/
theorem here (h : Every P node) : P node := by
  cases h with
  | intro _ here _ => exact here

/-- So has each of its children. -/
theorem child (h : Every P node) {p : UInt8 × DefaultNode V} (hp : p ∈ node.iter) : Every P p.2 := by
  cases h with
  | intro _ _ below => exact below p hp

/-- A weaker property holds as well. -/
theorem imp (himp : ∀ node, P node → Q node) (h : Every P node) : Every Q node := by
  induction h with
  | intro node here below ih => exact .intro node (himp node here) ih

/-- Two properties hold together. -/
theorem and (hP : Every P node) (hQ : Every Q node) : Every (fun node => P node ∧ Q node) node := by
  induction hP with
  | intro node here below ih => exact .intro node ⟨here, hQ.here⟩ fun p hp => ih p hp (hQ.child hp)

/-- A property of well-formed nodes holds of all nodes of a well-formed one. -/
theorem of_wf [Features] (himp : ∀ node, Wf node → P node) (h : Wf node) : Every P node := by
  induction h with
  | intro node layout edges children occupied ih =>
    exact .intro node (himp node (.intro node layout edges children occupied)) ih

/-- A node, from the list that its content stands for. -/
theorem mk {pfx : Bytes} {value : Option V} {content : Content (DefaultNode V)}
    {items : List (UInt8 × DefaultNode V)} (hrepr : content.Repr items) (here : P (.mk pfx value content))
    (below : ∀ p ∈ items, Every P p.2) : Every P (.mk pfx value content) := by
  have hiter : (DefaultNode.mk pfx value content).iter = items := hrepr.iter_eq
  exact .intro _ here fun p hp => below p (hiter ▸ hp)

/-- The same children under another prefix and value. -/
theorem dressed (h : Every P node) {pfx : Bytes} {value : Option V}
    (here : P (.mk pfx value node.content)) : Every P (.mk pfx value node.content) :=
  .intro _ here fun _ hp => h.child hp

/-- A leaf has no further nodes. -/
theorem leaf {pfx : Bytes} {value : V} (here : P (.new_leaf pfx value)) :
    Every P (.new_leaf pfx value) :=
  .intro _ here fun _ hp => by cases hp

end Every

section Tables

variable {node child after : DefaultNode V} {k : UInt8}

/-- What adding an edge does to the children of a node. -/
structure Widened (node : DefaultNode V) (k : UInt8) (child after : DefaultNode V) : Prop where
  value : after.value = node.value
  iter : after.iter = insertSorted k child node.iter
  inner : after.is_leaf = false
  fits : LayoutFits node → LayoutFits after

/-- `add_child` inserts a pair. -/
theorem widened [Features] (hrepr : node.content.Repr node.iter) (habsent : node.iter.lookup k = none)
    (hadd : node.add_child k child = .ok after) : Widened node k child after := by
  obtain ⟨content, hadd', hcontent, hinner, hfits⟩ := node.add_child_fits hrepr k child habsent
  cases hadd.symm.trans hadd'
  have hiter : (DefaultNode.mk node.pfx node.value content).iter = insertSorted k child node.iter :=
    hcontent.iter_eq
  refine ⟨rfl, hiter, hinner, fun h => ?_⟩
  change content.Fits (DefaultNode.mk node.pfx node.value content).iter.length
  rw [hiter, length_insertSorted]
  exact hfits h

/-- One child more. -/
theorem Widened.length (h : Widened node k child after) : after.iter.length = node.iter.length + 1 := by
  rw [h.iter, length_insertSorted]

/-- The new child, the old ones and the node itself have the property. -/
theorem Widened.every {P : DefaultNode V → Prop} (h : Widened node k child after) (here : P after)
    (hchild : Every P child) (hbelow : ∀ p ∈ node.iter, Every P p.2) : Every P after := by
  refine .intro after here fun p hp => ?_
  rw [h.iter] at hp
  cases mem_insertSorted.1 hp with
  | inl heq =>
    rw [heq]
    exact hchild
  | inr hmem => exact hbelow p hmem

/-- What a write through a child reference does to the children of a node. -/
structure Rewritten (node : DefaultNode V) (k : UInt8) (child after : DefaultNode V) : Prop where
  value : after.value = node.value
  iter : after.iter = setKey k child node.iter
  layout : after.content.capacity = node.content.capacity

/-- `write_child` replaces a child. -/
theorem rewritten [Features] (hrepr : node.content.Repr node.iter) (k : UInt8) (child : DefaultNode V) :
    Rewritten node k child (node.write_child k child) := by
  refine ⟨rfl, (hrepr.write_child k child).iter_eq, ?_⟩
  change (node.content.write_child k child).capacity = node.content.capacity
  cases node.content <;> rfl

/-- As many children as before. -/
theorem Rewritten.length (h : Rewritten node k child after) :
    after.iter.length = node.iter.length := by
  have hkeys := congrArg List.length (map_fst_setKey k child node.iter)
  rw [List.length_map, List.length_map] at hkeys
  rw [h.iter, hkeys]

/-- The written child, the others and the node itself have the property. -/
theorem Rewritten.every {P : DefaultNode V → Prop} (h : Rewritten node k child after) (here : P after)
    (hchild : Every P child) (hbelow : ∀ p ∈ node.iter, Every P p.2) : Every P after := by
  refine .intro after here fun p hp => ?_
  rw [h.iter] at hp
  cases mem_setKey hp with
  | inl heq =>
    rw [heq]
    exact hchild
  | inr hmem => exact hbelow p hmem.1

end Tables

section Puts

variable [Features]

/-- A property of nodes that no way of putting a value can break. -/
structure PutClosed (P : DefaultNode V → Prop) : Prop where
  leaf : ∀ pfx value, P (.new_leaf pfx value)
  valued : ∀ {node} pfx value, P node → P (.mk pfx (some value) node.content)
  cut : ∀ {node} pfx, P node → P (.mk pfx node.value node.content)
  /-- A new inner node, with a value or with two children. -/
  inner : ∀ {after}, after.iter ≠ [] → LayoutFits after → Branches after → P after
  widened : ∀ {node k child after}, Widened node k child after → P node → P after
  rewritten : ∀ {node k child after}, Rewritten node k child after → P node → P after

/-- By induction on how the value was put in. -/
theorem Put.every {P : DefaultNode V → Prop} (hP : PutClosed P) {value : V} {node after : DefaultNode V}
    {key : Bytes} (hwf : Wf node) (h : Every P node) (hput : Put value node key after) :
    Every P after := by
  induction hput with
  | here node => exact h.dressed (hP.valued _ _ h.here)
  | @above node after s p k hpfx hadd =>
    have hlower := h.dressed (hP.cut (k :: p) h.here)
    obtain ⟨content, hadd', hcontent, hinner, hfits⟩ :=
      DefaultNode.add_child_fits (.mk s (some value) (.Node4 .new)) children_empty4.repr k
        (.mk (k :: p) node.value node.content) rfl
    cases hadd.symm.trans hadd'
    have hiter : (DefaultNode.mk s (some value) content).iter = _ := hcontent.iter_eq
    have hshape : LayoutFits (DefaultNode.mk s (some value) content) := by
      unfold LayoutFits
      rw [hiter]
      exact hfits (Nat.zero_le 4)
    change Every P (DefaultNode.mk s (some value) content)
    refine .mk hcontent (hP.inner (by rw [hiter]; simp [insertSorted]) hshape
      fun hnone => by cases hnone) fun q hq => ?_
    rw [show q = (k, DefaultNode.mk (k :: p) node.value node.content) by simpa [insertSorted] using hq]
    exact hlower
  | @split node inner after c p s k1 k2 hne hpfx hadd₁ hadd₂ =>
    have hlower := h.dressed (hP.cut (k1 :: p) h.here)
    have hleaf : Every P (.new_leaf (k2 :: s) value) := .leaf (hP.leaf _ _)
    obtain ⟨content₁, hadd₁', hcontent₁, hinner₁, hfits₁⟩ :=
      DefaultNode.add_child_fits (.new_inner c) children_empty4.repr k1
        (.mk (k1 :: p) node.value node.content) rfl
    cases hadd₁.symm.trans hadd₁'
    obtain ⟨content₂, hadd₂', hcontent₂, hinner₂, hfits₂⟩ :=
      DefaultNode.add_child_fits (.mk c none content₁) hcontent₁ k2 (.new_leaf (k2 :: s) value)
        (by simp [Ne.symm hne])
    cases hadd₂.symm.trans hadd₂'
    have hlen : (insertSorted k2 (DefaultNode.new_leaf (k2 :: s) value)
        (insertSorted k1 (.mk (k1 :: p) node.value node.content) [])).length = 2 := by
      rw [length_insertSorted, length_insertSorted]
      rfl
    have hiter : (DefaultNode.mk c none content₂).iter = _ := hcontent₂.iter_eq
    rw [← hiter] at hlen
    have hshape : LayoutFits (DefaultNode.mk c none content₂) := by
      unfold LayoutFits
      rw [hlen]
      exact hfits₂ (hfits₁ (Nat.zero_le 4))
    change Every P (DefaultNode.mk c none content₂)
    refine .mk hcontent₂ (hP.inner (fun hnil => ?_) hshape fun _ => Nat.le_of_eq hlen.symm) fun q hq => ?_
    · rw [hnil] at hlen
      cases hlen
    · cases mem_insertSorted.1 hq with
      | inl heq =>
        rw [heq]
        exact hleaf
      | inr hmem =>
        rw [show q = (k1, DefaultNode.mk (k1 :: p) node.value node.content) by
          simpa [insertSorted] using hmem]
        exact hlower
  | @edge node after k s habsent hadd =>
    have hwide := widened hwf.layout habsent hadd
    exact hwide.every (hP.widened hwide h.here) (.leaf (hP.leaf _ _)) fun p hp => h.child hp
  | @deeper node child child' k s hchild hput ih =>
    have hmem : (k, child) ∈ node.iter := hwf.ascending.lookup_eq_some_iff.1 hchild
    have hnode := rewritten hwf.layout k child'
    exact hnode.every (hP.rewritten hnode h.here) (ih (hwf.child hmem) (h.child hmem))
      fun p hp => h.child hp

omit [Features] in
/-- A table grows when it is full, and never before. -/
theorem putClosed_layoutFits : PutClosed (LayoutFits (V := V)) where
  leaf _ _ := rfl
  valued _ _ h := h
  cut _ h := h
  inner _ hfits _ := hfits
  widened h hnode := h.fits hnode
  rewritten h hnode := by
    unfold LayoutFits
    rw [Content.fits_of_capacity_eq h.layout, h.length]
    exact hnode

omit [Features] in
/-- Putting a value takes no child away. -/
theorem putClosed_branches : PutClosed (Branches (V := V)) where
  leaf _ _ := fun hnone => by cases hnone
  valued _ _ _ := fun hnone => by cases hnone
  cut _ h := h
  inner _ _ hbranches := hbranches
  widened h hnode := fun hnone => by
    have hbefore := hnode (h.value.symm.trans hnone)
    rw [h.length]
    omega
  rewritten h hnode := fun hnone => by
    rw [h.length]
    exact hnode (h.value.symm.trans hnone)

omit [Features] in
/-- A node gets a table with its first child. -/
theorem putClosed_bareLeaf : PutClosed (BareLeaf (V := V)) where
  leaf _ _ := fun _ => rfl
  valued _ _ h := h
  cut _ h := h
  inner hne _ _ := fun hnil => absurd hnil hne
  widened h _ := fun hnil => by
    have hlen := h.length
    rw [hnil] at hlen
    cases hlen
  rewritten h hnode := fun hnil => by
    have hlen := h.length
    rw [hnil] at hlen
    have hleaf := hnode (List.eq_nil_of_length_eq_zero hlen.symm)
    have hlayout := h.layout
    unfold DefaultNode.is_leaf at hleaf ⊢
    revert hleaf hlayout
    cases DefaultNode.content _ <;> cases DefaultNode.content _ <;> simp [Content.is_empty, Content.capacity]

end Puts

section Takes

variable [Features] {node child child' after : DefaultNode V} {k : UInt8} {key : Bytes}
  {deleted : Option (DefaultNode V)}

/-- Deleting an edge keeps a property of all nodes that does not depend on prefixes,
if it holds of what is left of the node itself. -/
theorem every_of_deleted {P : DefaultNode V → Prop} (hcut : ∀ {n} pfx, P n → P (.mk pfx n.value n.content))
    {items : List (UInt8 × DefaultNode V)} (hrepr : node.content.Repr items)
    (hchild : items.lookup k = some child) (hdelete : node.delete_child k = .ok (deleted, after))
    (hbelow : ∀ p ∈ eraseKey k items, Every P p.2)
    (hshrunk : node.Shrunk (eraseKey k items) after → P after) : Every P after := by
  obtain ⟨after', hdelete', hcases⟩ := DefaultNode.delete_child_shrinks hrepr hchild
  cases hdelete.symm.trans hdelete'
  obtain hkept | ⟨key', last, hitems, _, rfl⟩ := hcases
  · refine .intro after (hshrunk hkept) fun p hp => hbelow p ?_
    have hiter : after.iter = eraseKey k items := hkept.repr.iter_eq
    rwa [hiter] at hp
  · have hlast : Every P last := hbelow (key', last) (by rw [hitems]; simp)
    exact hlast.dressed (hcut _ hlast.here)

omit [Features] in
/-- What deleting an edge leaves of a layout that fits. -/
theorem layoutFits_of_shrunk {items : List (UInt8 × DefaultNode V)} (hasc : Ascending items)
    (hchild : items.lookup k = some child) (hfits : node.content.Fits items.length)
    (h : node.Shrunk (eraseKey k items) after) : LayoutFits after := by
  have hiter : after.iter = eraseKey k items := h.repr.iter_eq
  unfold LayoutFits
  rw [hiter]
  refine h.fits ?_
  rwa [hasc.length_eraseKey hchild]

omit [Features] in
/-- Deleting an edge leaves at least two children below a node without a value: a
lone child would have been merged into it. -/
theorem branches_of_shrunk {items : List (UInt8 × DefaultNode V)} (hasc : Ascending items)
    (hchild : items.lookup k = some child) (hfits : node.content.Fits items.length)
    (hbranches : node.value = none → 2 ≤ items.length) (h : node.Shrunk (eraseKey k items) after) :
    Branches after := by
  have hiter : after.iter = eraseKey k items := h.repr.iter_eq
  have hlen := hasc.length_eraseKey hchild
  intro hnone
  have hvalue : node.value = none := h.value.symm.trans hnone
  have htwo := hbranches hvalue
  have hone := h.branches (by rwa [hlen]) hvalue
  rw [hiter]
  omega

omit [Features] in
/-- The child that was written is found. -/
theorem written_lookup (hchild : node.iter.lookup k = some child) :
    (setKey k child' node.iter).lookup k = some child' := by
  rw [lookup_setKey, if_pos rfl, hchild]
  rfl

/-- The same, for a child that was written just before its edge is deleted. -/
theorem every_of_pruned (hwf : Wf node) (hchild : node.iter.lookup k = some child)
    {P : DefaultNode V → Prop} (hcut : ∀ {n} pfx, P n → P (.mk pfx n.value n.content))
    (h : Every P node) (hdelete : (node.write_child k child').delete_child k = .ok (deleted, after))
    (hshrunk : (node.write_child k child').Shrunk (eraseKey k (setKey k child' node.iter)) after →
      P after) : Every P after := by
  have hrepr : (node.write_child k child').content.Repr (setKey k child' node.iter) :=
    Content.Repr.write_child hwf.layout k child'
  refine every_of_deleted hcut hrepr (written_lookup hchild) hdelete (fun p hp => ?_) hshrunk
  rw [eraseKey_setKey] at hp
  exact h.child (mem_eraseKey.1 hp).1

/-- A table shrinks when its children fit the next narrower one. -/
theorem Take.layoutFits (hwf : Wf node) (h : Every LayoutFits node) (htake : Take node key after) :
    Every LayoutFits after := by
  induction htake with
  | here node => exact h.dressed h.here
  | @leaf node child after k s deleted hchild hleaf hpfx hdelete =>
    refine every_of_deleted (fun _ h => h) hwf.layout hchild hdelete
      (fun p hp => h.child (mem_eraseKey.1 hp).1) ?_
    exact layoutFits_of_shrunk hwf.ascending hchild h.here
  | @deeper node child child' k s hchild htake hkept ih =>
    have hmem : (k, child) ∈ node.iter := hwf.ascending.lookup_eq_some_iff.1 hchild
    have hnode := rewritten hwf.layout k child'
    exact hnode.every (putClosed_layoutFits.rewritten hnode h.here) (ih (hwf.child hmem) (h.child hmem))
      fun p hp => h.child hp
  | @pruned node child child' after k s deleted hchild htake hbare hdelete ih =>
    have hnode := rewritten hwf.layout k child'
    refine every_of_pruned hwf hchild (fun _ h => h) h hdelete ?_
    refine layoutFits_of_shrunk (hwf.ascending.setKey k child') (written_lookup hchild) ?_
    have hwritten := putClosed_layoutFits.rewritten hnode h.here
    unfold LayoutFits at hwritten
    rwa [hnode.iter] at hwritten

/-- Taking a value out of a node that has not exactly one child keeps every node
without a value branching. -/
theorem Take.branches (hwf : Wf node) (hfits : Every LayoutFits node) (h : Every Branches node)
    (htake : Take node key after) (hlone : ∀ m, node_at node key = some m → m.iter.length ≠ 1) :
    Bare after ∨ Every Branches after := by
  induction htake with
  | here node =>
    have hne := hlone node (node_at_self node)
    have hrepr := (children_of_wf hwf).repr
    by_cases hzero : node.iter = []
    · rw [hzero] at hrepr
      exact Or.inl ⟨rfl, hrepr⟩
    · have hpos := List.length_pos_iff.2 hzero
      exact Or.inr (h.dressed fun _ => show 2 ≤ node.iter.length by omega)
  | @leaf node child after k s deleted hchild hleaf hpfx hdelete =>
    refine Or.inr (every_of_deleted (fun _ h => h) hwf.layout hchild hdelete
      (fun p hp => h.child (mem_eraseKey.1 hp).1) ?_)
    exact branches_of_shrunk hwf.ascending hchild hfits.here h.here
  | @deeper node child child' k s hchild htake hkept ih =>
    have hmem : (k, child) ∈ node.iter := hwf.ascending.lookup_eq_some_iff.1 hchild
    have hnode := rewritten hwf.layout k child'
    have hbelow := (ih (hwf.child hmem) (hfits.child hmem) (h.child hmem) fun m hm => hlone m ?_).resolve_left hkept
    · exact Or.inr (hnode.every (putClosed_branches.rewritten hnode h.here) hbelow fun p hp => h.child hp)
    · have hlookup : (Node.iter node).lookup k = some child := hchild
      refine (node_at_below node k s).trans ?_
      rw [hlookup]
      exact hm
  | @pruned node child child' after k s deleted hchild htake hbare hdelete ih =>
    have hnode := rewritten hwf.layout k child'
    refine Or.inr (every_of_pruned hwf hchild (fun _ h => h) h hdelete ?_)
    have hfits' := putClosed_layoutFits.rewritten hnode hfits.here
    have hbranches := putClosed_branches.rewritten hnode h.here
    unfold LayoutFits at hfits'
    unfold Branches at hbranches
    rw [hnode.iter] at hfits' hbranches
    exact branches_of_shrunk (hwf.ascending.setKey k child') (written_lookup hchild) hfits' hbranches

/-- Taking the value out of a node with one child leaves a node without a value and
with one child. -/
theorem Take.not_branches (hwf : Wf node) (htake : Take node key after) {m : DefaultNode V}
    (hm : node_at node key = some m) (hone : m.iter.length = 1) :
    ¬ Bare after ∧ ¬ Every Branches after := by
  have hstep : ∀ {node child : DefaultNode V} {k : UInt8} {s : Bytes}, node.iter.lookup k = some child →
      node_at node (node.pfx ++ k :: s) = node_at child (k :: s) := by
    intro node child k s hchild
    have hlookup : (Node.iter node).lookup k = some child := hchild
    refine (node_at_below node k s).trans ?_
    rw [hlookup]
    rfl
  induction htake with
  | here node =>
    obtain rfl : node = m := Option.some.inj ((node_at_self node).symm.trans hm)
    constructor
    · rintro ⟨_, hrepr⟩
      have hlen := congrArg List.length (Content.Repr.iter_eq hrepr)
      cases hone.symm.trans hlen
    · intro h
      have htwo : 2 ≤ node.iter.length := h.here rfl
      omega
  | @leaf node child after k s deleted hchild hleaf hpfx hdelete =>
    rw [hstep hchild] at hm
    have hself : node_at child (k :: s) = some child := hpfx ▸ node_at_self child
    cases hself.symm.trans hm
    rw [hleaf] at hone
    cases hone
  | @deeper node child child' k s hchild htake hkept ih =>
    have hmem : (k, child) ∈ node.iter := hwf.ascending.lookup_eq_some_iff.1 hchild
    rw [hstep hchild] at hm
    have hnode := rewritten hwf.layout k child'
    have hwritten : (k, child') ∈ (node.write_child k child').iter := by
      rw [hnode.iter]
      exact (hwf.ascending.setKey k child').lookup_eq_some_iff.1 (written_lookup hchild)
    exact ⟨bare_write_child hwf hchild, fun h => (ih (hwf.child hmem) hm).2 (h.child hwritten)⟩
  | @pruned node child child' after k s deleted hchild htake hbare hdelete ih =>
    have hmem : (k, child) ∈ node.iter := hwf.ascending.lookup_eq_some_iff.1 hchild
    rw [hstep hchild] at hm
    exact absurd hbare (ih (hwf.child hmem) hm).1

end Takes

section Trees

variable [Features]

/-- A property of every node of a tree. -/
def EveryNode (P : DefaultNode V → Prop) (tree : AdaptiveRadixTree V) : Prop :=
  ∀ root, tree.root = some root → Every P root

variable {before after : AdaptiveRadixTree V} {m : RefMap V} {key : Bytes} {left : Option V}

omit [Features] in
/-- A tree without nodes. -/
theorem everyNode_new (P : DefaultNode V → Prop) : EveryNode P (AdaptiveRadixTree.new : AdaptiveRadixTree V) :=
  fun _ h => by cases h

/-- Whatever changes the tree, its layouts keep fitting. -/
theorem Changed.layoutFits (hbefore : Represents before m) (h : EveryNode LayoutFits before)
    (hchanged : Changed before key left after) : EveryNode LayoutFits after := by
  intro root hroot
  cases hchanged with
  | first _ =>
    cases hroot
    exact .leaf (putClosed_layoutFits.leaf _ _)
  | vacant _ => exact h root hroot
  | edited hbase hedited _ =>
    cases hroot
    have hwf := hbefore.wf _ hbase
    cases hedited with
    | put hput => exact hput.every putClosed_layoutFits hwf (h _ hbase)
    | take _ htake => exact htake.layoutFits hwf (h _ hbase)
    | same _ => exact h _ hbase
  | emptied _ _ _ => cases hroot

/-- Leaving the slot under a key like this takes the value out of a node with one child. -/
def Strands (tree : AdaptiveRadixTree V) (key : Bytes) (left : Option V) : Prop :=
  left = none ∧ ∃ root node, tree.root = some root ∧ node_at root key = some node ∧
    node.value.isSome = true ∧ node.num_children = 1

/-- A node below a well-formed root knows how many children it has. -/
theorem num_children_of_node_at {root node : DefaultNode V} (hwf : Wf root)
    (h : node_at root key = some node) : node.num_children = node.iter.length :=
  (children_of_wf (hwf.of_node_at h)).repr.num_children_eq

/-- Nodes without a value keep branching exactly where no change strands a child. -/
theorem Changed.branches_iff (hbefore : Represents before m) (hfits : EveryNode LayoutFits before)
    (h : EveryNode Branches before) (hchanged : Changed before key left after) :
    EveryNode Branches after ↔ ¬ Strands before key left := by
  have hroot_none : before.root = none → ¬ Strands before key left := by
    rintro hnone ⟨_, root, _, hroot, _⟩
    cases hnone.symm.trans hroot
  cases hchanged with
  | first hroot =>
    refine iff_of_true (fun root heq => ?_) (hroot_none hroot)
    cases heq
    exact .leaf (putClosed_branches.leaf _ _)
  | vacant hroot => exact iff_of_true h (hroot_none hroot)
  | @edited root after left len hroot hedited hkept =>
    have hwf := hbefore.wf root hroot
    have heach : EveryNode Branches ⟨some after, len⟩ ↔ Every Branches after := by
      refine ⟨fun hevery => hevery after rfl, fun hevery root heq => ?_⟩
      cases heq
      exact hevery
    rw [heach]
    cases hedited with
    | put hput =>
      refine iff_of_true (hput.every putClosed_branches hwf (h root hroot)) ?_
      rintro ⟨hleft, _⟩
      cases hleft
    | take hfound htake =>
      constructor
      · rintro hevery ⟨_, root', node, hroot', hnode, _, hone⟩
        cases hroot.symm.trans hroot'
        rw [num_children_of_node_at hwf hnode] at hone
        exact (htake.not_branches hwf hnode hone).2 hevery
      · intro hnot
        refine (htake.branches hwf (hfits root hroot) (h root hroot) fun node hnode hone => ?_).resolve_left hkept
        refine hnot ⟨rfl, root, node, hroot, hnode, ?_, ?_⟩
        · rw [find_eq_node_at, hnode] at hfound
          exact hfound
        · rw [num_children_of_node_at hwf hnode, hone]
    | same hnone =>
      refine iff_of_true (h root hroot) ?_
      rintro ⟨_, root', node, hroot', hnode, hvalue, _⟩
      cases hroot.symm.trans hroot'
      rw [find_eq_node_at, hnode] at hnone
      have hnone : node.value = none := hnone
      rw [hnone] at hvalue
      cases hvalue
  | @emptied root after len hroot hedited hbare =>
    have hwf := hbefore.wf root hroot
    refine iff_of_true (fun root heq => by cases heq) ?_
    rintro ⟨_, root', node, hroot', hnode, _, hone⟩
    cases hroot.symm.trans hroot'
    rw [num_children_of_node_at hwf hnode] at hone
    cases hedited with
    | take hfound htake => exact (htake.not_branches hwf hnode hone).1 hbare
    | same hnone => exact not_bare_of_wf hwf hbare

end Trees

end rart.tree
