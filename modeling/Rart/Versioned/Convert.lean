import Rart.Iter.Values
import Rart.Mapping.Copies
import Rart.Tree.Load
import Rart.Versioned.Forest

open SortedAssoc RcHeap Words
open RcHeap.Heap (Valid Keeps Agree)
open rart.mapping rart.node rart.partials rart.utils rart.Trie

namespace rart.versioned_tree

variable {V E : Type} [Features]

section Conversion

/-- `km.into_iter()`, on each of the tables. -/
def content_into_iter (content : Content Nat) : Result (List (UInt8 × Nat)) :=
  match content with
  | .Empty => return []
  | .Node4 km => return km.iter
  | .Node16 km => return km.iter
  | .Node48 km => km.into_iter
  | .Node256 km => km.into_iter

section Children

variable (convert : Heap (VersionedNode V) → Nat → Result (DefaultNode V × Heap (VersionedNode V)))

/-- `for (key, child) in .. { new_km.add_child(key, convert(child)); }` -/
def convert_children {M : Type} (add_child : M → UInt8 → DefaultNode V → Result M)
    (h : Heap (VersionedNode V)) (new_km : M) :
    List (UInt8 × Nat) → Result (M × Heap (VersionedNode V))
  | [] => return (new_km, h)
  | (key, child) :: rest => do
    let (converted_child, h) ← convert h child
    convert_children add_child h (← add_child new_km key converted_child) rest

/-- The table of a converted node, of the same layout. -/
def convert_content (h : Heap (VersionedNode V)) (content : Content Nat) (items : List (UInt8 × Nat)) :
    Result (Content (DefaultNode V) × Heap (VersionedNode V)) :=
  match content with
  | .Empty => return (.Empty, h)
  | .Node4 _ => do
    let (new_km, h) ← convert_children convert SortedKeyedMapping.add_child h .new items
    return (.Node4 new_km, h)
  | .Node16 _ => do
    let (new_km, h) ← convert_children convert SortedKeyedMapping.add_child h .new items
    return (.Node16 new_km, h)
  | .Node48 _ => do
    let (new_km, h) ← convert_children convert IndexedMapping.add_child h .new items
    return (.Node48 new_km, h)
  | .Node256 _ => do
    let (new_km, h) ← convert_children convert DirectMapping.add_child h .new items
    return (.Node256 new_km, h)

end Children

def convert_to_unversioned_node (h : Heap (VersionedNode V)) (node : Nat) :
    Result (DefaultNode V × Heap (VersionedNode V)) := do
  match ← try_unwrap h node with
  | some (owned_node, h) =>
    let items ← content_into_iter owned_node.content
    let (unversioned_content, h) ← convert_content (fun h child =>
      -- the cell of a child is older than its parent's
      if _hlt : child < node then convert_to_unversioned_node h child else throw .out_of_fuel)
      h owned_node.content items
    return (.mk owned_node.pfx owned_node.value unversioned_content, h)
  | none =>
    let shared_node ← arc (h.node? node)
    let (unversioned_content, h) ← convert_content (fun h child =>
      if _hlt : child < node then do
        let h ← arc (h.clone child)
        convert_to_unversioned_node h child
      else throw .out_of_fuel)
      h shared_node.content shared_node.content.iter
    let h := h.copies 1
    return (.mk shared_node.pfx shared_node.value unversioned_content, ← drop_arc h node)
termination_by node

namespace VersionedAdaptiveRadixTree

def values_iter (self : VersionedAdaptiveRadixTree V) (h : Heap (VersionedNode V)) :
    iter.ValuesIter (NodeRef V) V := .new (self.root.bind (borrow h))

def into_unversioned (self : VersionedAdaptiveRadixTree V) (h : Heap (VersionedNode V)) :
    Result (tree.AdaptiveRadixTree V × Heap (VersionedNode V)) := do
  let len := (self.values_iter h).collect.length
  match self.root with
  | none => return (.new, h)
  | some root =>
    let (converted_root, h) ← convert_to_unversioned_node h root
    return (.from_root converted_root len, h)

end VersionedAdaptiveRadixTree

end Conversion

section Tables

variable {convert : Heap (VersionedNode V) → Nat → Result (DefaultNode V × Heap (VersionedNode V))}
  {h h' : Heap (VersionedNode V)} {items : List (UInt8 × Nat)} {outs : List (UInt8 × DefaultNode V)}

/-- One child after the other is converted. -/
inductive Converts (convert : Heap (VersionedNode V) → Nat → Result (DefaultNode V × Heap (VersionedNode V)))
    (P : Nat → DefaultNode V → Prop) : Heap (VersionedNode V) → List (UInt8 × Nat) →
    List (UInt8 × DefaultNode V) → Heap (VersionedNode V) → Prop where
  | nil (h : Heap (VersionedNode V)) : Converts convert P h [] [] h
  | cons {h h₁ h' : Heap (VersionedNode V)} {k : UInt8} {c : Nat} {out : DefaultNode V}
      {rest : List (UInt8 × Nat)} {outs : List (UInt8 × DefaultNode V)}
      (hout : convert h c = .ok (out, h₁)) (hprop : P c out) (hrest : Converts convert P h₁ rest outs h') :
      Converts convert P h ((k, c) :: rest) ((k, out) :: outs) h'

variable {P : Nat → DefaultNode V → Prop}

omit [Features] in
theorem Converts.map_fst (hc : Converts convert P h items outs h') :
    outs.map Prod.fst = items.map Prod.fst := by
  induction hc with
  | nil => rfl
  | cons _ _ _ ih => rw [List.map_cons, List.map_cons, ih]

omit [Features] in
/-- The entries under a key in both lists. -/
theorem Converts.lookup (hc : Converts convert P h items outs h') (k : UInt8) :
    Option.Rel P (items.lookup k) (outs.lookup k) := by
  induction hc with
  | nil => exact .none
  | cons _ hprop _ ih =>
    rw [lookup_cons_if, lookup_cons_if]
    split
    · exact .some hprop
    · exact ih

omit [Features] in
theorem Converts.mem (hc : Converts convert P h items outs h') {p : UInt8 × DefaultNode V} (hp : p ∈ outs) :
    ∃ c, (p.1, c) ∈ items ∧ P c p.2 := by
  induction hc with
  | nil => cases hp
  | cons _ hprop _ ih =>
    cases List.mem_cons.1 hp with
    | inl heq =>
      rw [heq]
      exact ⟨_, List.mem_cons_self, hprop⟩
    | inr hmem =>
      obtain ⟨c, hc, hprop⟩ := ih hmem
      exact ⟨c, List.mem_cons_of_mem _ hc, hprop⟩

omit [Features] in
theorem convert_children_eq {M : Type} {add_child : M → UInt8 → DefaultNode V → Result M} {new_km km : M}
    (hc : Converts convert P h items outs h') (hadd : add_children add_child new_km outs = .ok km) :
    convert_children convert add_child h new_km items = .ok (km, h') := by
  induction hc generalizing new_km with
  | nil h =>
    cases hadd
    rfl
  | @cons h h₁ h' k c out rest outs hout hprop hrest ih =>
    rw [add_children] at hadd
    rw [convert_children, hout, ok_bind]
    dsimp only
    cases hstep : add_child new_km k out with
    | error e =>
      rw [hstep] at hadd
      cases hadd
    | ok next =>
      rw [hstep] at hadd
      exact ih hadd

omit [Features] in
theorem content_into_iter_eq {content : Content Nat} (hrepr : content.Repr items) :
    content_into_iter content = .ok items := by
  have hiter := hrepr.iter_eq
  cases content with
  | Empty =>
    rw [← hiter]
    rfl
  | Node4 km =>
    rw [← hiter]
    rfl
  | Node16 km =>
    rw [← hiter]
    rfl
  | Node48 km => exact IndexedMapping.into_iter_eq hrepr
  | Node256 km => exact DirectMapping.into_iter_eq hrepr

/-- The converted children fill a table of the same layout. -/
theorem convert_content_spec {content : Content Nat} (hrepr : content.Repr items)
    (hc : Converts convert P h items outs h') :
    ∃ content', convert_content convert h content items = .ok (content', h') ∧ content'.Repr outs := by
  have hlen : outs.length = items.length := by
    rw [← List.length_map Prod.fst, hc.map_fst, List.length_map]
  have hasc : Ascending outs := by
    have hkeys : (outs.map Prod.fst).Pairwise (· < ·) := by
      rw [hc.map_fst]
      exact List.pairwise_map.2 hrepr.ascending
    exact List.pairwise_map.1 hkeys
  cases content with
  | Empty =>
    have hnil : items = [] := hrepr
    subst hnil
    cases hc
    exact ⟨.Empty, rfl, rfl⟩
  | Node4 km =>
    have hle := SortedKeyedMapping.Repr.length_le hrepr
    obtain ⟨km', hadd, hrepr'⟩ := SortedKeyedMapping.copied_spec 4 (by omega) hasc (by omega)
    refine ⟨.Node4 km', ?_, hrepr'⟩
    rw [convert_content, convert_children_eq hc hadd]
    rfl
  | Node16 km =>
    have hle := SortedKeyedMapping.Repr.length_le hrepr
    obtain ⟨km', hadd, hrepr'⟩ := SortedKeyedMapping.copied_spec 16 (by omega) hasc (by omega)
    refine ⟨.Node16 km', ?_, hrepr'⟩
    rw [convert_content, convert_children_eq hc hadd]
    rfl
  | Node48 im =>
    have hle := (IndexedMapping.Repr.slots hrepr).length_le
    obtain ⟨im', hadd, hrepr'⟩ := IndexedMapping.copied_spec 48 (by omega) hasc (by omega)
    refine ⟨.Node48 im', ?_, hrepr'⟩
    rw [convert_content, convert_children_eq hc hadd]
    rfl
  | Node256 dm =>
    obtain ⟨dm', hadd, hrepr'⟩ := DirectMapping.copied_spec hasc
    refine ⟨.Node256 dm', ?_, hrepr'⟩
    rw [convert_content, convert_children_eq hc hadd]
    rfl

end Tables

section Nodes

variable {h h' : Heap (VersionedNode V)} {roots : List Nat} {a : Nat} {node : VersionedNode V}

/-- The converted node finds what the cell's tree finds. -/
structure Converted (h : Heap (VersionedNode V)) (a : Nat) (out : DefaultNode V) : Prop where
  wf : Wf out
  pfx : ∀ node, h.node? a = some node → out.pfx = node.pfx
  find : ∀ key, Trie.find out key = find h a key

/-- Where two heaps agree on a cell, so does what it is converted to. -/
theorem Converted.agree {h₁ : Heap (VersionedNode V)} {roots₁ : List Nat} {out : DefaultNode V}
    (hout : Converted h₁ a out) (hv : Valid h roots) (hv₁ : Valid h₁ roots₁) (hagree : Agree h h₁ a) :
    Converted h a out where
  wf := hout.wf
  pfx node hnode := hout.pfx node (hagree.node?_eq.trans hnode)
  find key := (hout.find key).trans (find_agree hv hv₁ hagree key)

/-- A node of converted children. -/
theorem converted_mk (hv : Valid h roots) (hnode : h.node? a = some node)
    {convert : Heap (VersionedNode V) → Nat → Result (DefaultNode V × Heap (VersionedNode V))}
    {h₁ : Heap (VersionedNode V)} {outs : List (UInt8 × DefaultNode V)} {content : Content (DefaultNode V)}
    (hc : Converts convert (Converted h) h₁ node.content.iter outs h') (hrepr : content.Repr outs) :
    Converted h a (.mk node.pfx node.value content) := by
  have hs := hv.sound a node hnode
  refine ⟨tree.wf_mk ⟨hrepr, fun p hp => ?_, fun p hp => ?_⟩ fun hnil => ?_, fun node' hnode' => ?_, fun key => ?_⟩
  · obtain ⟨c, hmem, hout⟩ := hc.mem hp
    obtain ⟨child, hchild, hedge, _⟩ := hs.linked.edges (p.1, c) hmem
    rw [hout.pfx child hchild]
    exact hedge
  · obtain ⟨c, _, hout⟩ := hc.mem hp
    exact hout.wf
  · refine hs.occupied (List.eq_nil_of_length_eq_zero ?_)
    rw [← List.length_map Prod.fst, ← hc.map_fst, hnil]
    rfl
  · cases hnode.symm.trans hnode'
    rfl
  · rw [find_eq_read hv hnode, tree.find_mk hrepr]
    unfold read
    congr 1
    funext rest
    cases rest with
    | nil => rfl
    | cons k rest =>
      simp only [lookupBelow, readBelow]
      have hlookup := hc.lookup k
      cases hout : outs.lookup k with
      | none =>
        rw [hout] at hlookup
        cases hitem : node.content.iter.lookup k with
        | none => rfl
        | some c =>
          rw [hitem] at hlookup
          cases hlookup
      | some out =>
        rw [hout] at hlookup
        cases hitem : node.content.iter.lookup k with
        | none =>
          rw [hitem] at hlookup
          cases hlookup
        | some c =>
          rw [hitem] at hlookup
          cases hlookup with
          | some hconverted => exact hconverted.find (k :: rest)

omit [Features] in
/-- Converting the children one after the other, with what is kept in between. -/
theorem converts_of_step {convert : Heap (VersionedNode V) → Nat → Result (DefaultNode V × Heap (VersionedNode V))}
    {P : Nat → DefaultNode V → Prop} {I : Heap (VersionedNode V) → List (UInt8 × Nat) → Prop}
    (hstep : ∀ h k c rest, I h ((k, c) :: rest) → ∃ out h', convert h c = .ok (out, h') ∧ P c out ∧ I h' rest)
    {items : List (UInt8 × Nat)} (hinv : I h items) :
    ∃ outs h', Converts convert P h items outs h' ∧ I h' [] := by
  induction items generalizing h with
  | nil => exact ⟨[], h, .nil h, hinv⟩
  | cons p rest ih =>
    obtain ⟨k, c⟩ := p
    obtain ⟨out, h₁, hout, hprop, hinv₁⟩ := hstep h k c rest hinv
    obtain ⟨outs, h', hc, hinv'⟩ := ih hinv₁
    exact ⟨_, h', .cons hout hprop hc, hinv'⟩

/-- A reference is traded for a node of a regular tree, whether the cells below it are
moved or copied. -/
theorem convert_to_unversioned_node_spec (hv : Valid h (a :: roots)) :
    ∃ out h', convert_to_unversioned_node h a = .ok (out, h') ∧ Converted h a out ∧ Valid h' roots ∧
      Keeps h h' roots := by
  induction a using Nat.strongRecOn generalizing h roots with
  | ind a ih =>
    obtain ⟨node, hnode⟩ := hv.counted.live_of_root (List.mem_cons_self (a := a))
    obtain ⟨count, hcell⟩ := Heap.node?_eq_some.1 hnode
    have holder := hv.counted.older a node hnode
    have hrepr := (hv.sound a node hnode).linked.repr
    rw [convert_to_unversioned_node]
    by_cases hone : count = 1
    · -- the node is moved, and its references are used up one after the other
      subst hone
      obtain ⟨hv₁, _, hk₁, _⟩ := hv.free hcell
      obtain ⟨outs, h₂, hc, hv₂, hk₂, _⟩ : ∃ outs h₂, Converts (fun h child =>
          if _hlt : child < a then convert_to_unversioned_node h child else throw .out_of_fuel)
          (Converted h) (h.setCell a none) node.content.iter outs h₂ ∧
          Valid h₂ (([] : List (UInt8 × Nat)).map Prod.snd ++ roots) ∧
          Keeps h h₂ (([] : List (UInt8 × Nat)).map Prod.snd ++ roots) ∧
          ∀ p ∈ ([] : List (UInt8 × Nat)), p.2 < a := by
        refine converts_of_step (I := fun h₂ rest => Valid h₂ (rest.map Prod.snd ++ roots) ∧
          Keeps h h₂ (rest.map Prod.snd ++ roots) ∧ ∀ p ∈ rest, p.2 < a) ?_
          ⟨hv₁, hk₁, fun p hp => holder p.2 (mem_handles hp)⟩
        rintro h₂ k c rest ⟨hv₂, hk₂, hless⟩
        have hlt : c < a := hless (k, c) List.mem_cons_self
        obtain ⟨out, h₃, hout, hconverted, hv₃, hk₃⟩ := ih c hlt hv₂
        have hagree := hk₂.agree c (by simp)
        refine ⟨out, h₃, ?_, hconverted.agree hv hv₂ hagree, hv₃,
          (hk₂.subset fun b hb => List.mem_cons_of_mem _ hb).trans hk₃,
          fun p hp => hless p (List.mem_cons_of_mem _ hp)⟩
        rw [dif_pos hlt]
        exact hout
      obtain ⟨content, hcontent, hrepr'⟩ := convert_content_spec hrepr hc
      refine ⟨.mk node.pfx node.value content, h₂, ?_, converted_mk hv hnode hc hrepr', hv₂, hk₂⟩
      rw [try_unwrap_unique hcell, ok_bind]
      dsimp only
      rw [content_into_iter_eq hrepr, ok_bind, hcontent]
      rfl
    · -- the node is shared, and each child gets a further reference
      obtain ⟨outs, h₂, hc, hv₂, hk₂, _⟩ : ∃ outs h₂, Converts (fun h child =>
          if _hlt : child < a then do
            let h ← arc (h.clone child)
            convert_to_unversioned_node h child
          else throw .out_of_fuel) (Converted h) h node.content.iter outs h₂ ∧
          Valid h₂ (a :: roots) ∧ Keeps h h₂ (a :: roots) ∧ ∀ p ∈ [], p ∈ node.content.iter := by
        refine converts_of_step (I := fun h₂ rest => Valid h₂ (a :: roots) ∧ Keeps h h₂ (a :: roots) ∧
          ∀ p ∈ rest, p ∈ node.content.iter) ?_ ⟨hv, hv.keeps_refl, fun p hp => hp⟩
        rintro h₂ k c rest ⟨hv₂, hk₂, hless⟩
        have hmem := mem_handles (hless (k, c) List.mem_cons_self)
        have hlt : c < a := holder c hmem
        have hagree := hk₂.agree a List.mem_cons_self
        have hnode₂ : h₂.node? a = some node := hagree.node?_eq.trans hnode
        obtain ⟨h₃, hclone, hv₃, hk₃, hsame⟩ := hv₂.clone (hv₂.counted.live_of_handle hnode₂ hmem)
        obtain ⟨out, h₄, hout, hconverted, hv₄, hk₄⟩ := ih c hlt hv₃
        have hchild : Agree h h₃ c := (hagree.trans (hk₃.agree a List.mem_cons_self)).handle hnode hmem
        refine ⟨out, h₄, ?_, hconverted.agree hv hv₃ hchild, hv₄, (hk₂.trans hk₃).trans hk₄,
          fun p hp => hless p (List.mem_cons_of_mem _ hp)⟩
        rw [dif_pos hlt, hclone]
        exact hout
      obtain ⟨content, hcontent, hrepr'⟩ := convert_content_spec hrepr hc
      obtain ⟨hv₃, hk₃⟩ := hv₂.copies 1
      obtain ⟨h₄, hdrop, hv₄, hk₄, _⟩ := drop_arc_spec hv₃
      refine ⟨.mk node.pfx node.value content, h₄, ?_, converted_mk hv hnode hc hrepr', hv₄,
        ((hk₂.trans hk₃).subset fun b hb => List.mem_cons_of_mem _ hb).trans hk₄⟩
      rw [try_unwrap_shared hcell hone, ok_bind]
      dsimp only
      rw [hnode, arc_some, ok_bind, hcontent, ok_bind, hdrop]
      rfl

end Nodes

section Trees

open VersionedAdaptiveRadixTree

variable {h h' : Heap (VersionedNode V)} {tree : VersionedAdaptiveRadixTree V} {others : List Nat}
  {m : RefMap V}

theorem Stands.lists (hs : Stands h tree m) (hl : Live h tree others) :
    m.Lists (rootEntries (tree.root.bind (borrow h))) := by
  refine lists_rootEntries (fun r hr => ?_) fun key => ?_
  · obtain ⟨a, _, hborrow⟩ := Option.bind_eq_some_iff.1 hr
    obtain ⟨node, hnode, rfl⟩ := Option.map_eq_some_iff.1 hborrow
    exact wf_borrow hl.valid hnode
  · rw [Option.bind_assoc]
    exact hs.lookup_eq key

theorem wf_root (hl : Live h tree others) :
    ∀ r, tree.root.bind (borrow h) = some r → Wf r := by
  intro r hr
  obtain ⟨a, _, hborrow⟩ := Option.bind_eq_some_iff.1 hr
  obtain ⟨node, hnode, rfl⟩ := Option.map_eq_some_iff.1 hborrow
  exact wf_borrow hl.valid hnode

/-- The conversion gives a regular tree of the same map, and gives up only references
of its own. -/
theorem into_unversioned_spec (hl : Live h tree others) (hs : Stands h tree m) :
    ∃ plain h', tree.into_unversioned h = .ok (plain, h') ∧ rart.tree.Represents plain m ∧
      Valid h' others ∧ Keeps h h' others := by
  have hlists := hs.lists hl
  have hlen : (tree.values_iter h).collect.length = m.size := by
    unfold values_iter
    rw [ValuesIter.collect_new_root (wf_root hl), List.length_map, hlists.size]
  obtain ⟨root, version⟩ := tree
  unfold into_unversioned
  cases root with
  | none =>
    have hzero : 0 = m.size := by
      rw [hlists.size]
      rfl
    exact ⟨.new, h, rfl, ⟨fun _ heq => (by cases heq), hs.lookup_eq, hzero⟩, hl.valid, hl.valid.keeps_refl⟩
  | some a =>
    obtain ⟨out, h', hout, hconverted, hv', hk⟩ := convert_to_unversioned_node_spec hl.valid
    refine ⟨.from_root out m.size, h', ?_, ⟨fun root heq => ?_, fun key => ?_, rfl⟩, hv', hk⟩
    · dsimp only
      rw [hout, ok_bind, hlen]
      rfl
    · cases heq
      exact hconverted.wf
    · rw [← hs.lookup_eq]
      exact hconverted.find key

/-- A tree of any forest, its nodes shared or not, is converted without a panic into a
regular tree of the same entries. The other trees keep their nodes and go on as before,
and the regular tree stands for the map of its entries from then on. -/
theorem Forest.into_unversioned_refines (cs : List (Command V E)) :
    ∃ forest : Forest V, runForest .empty cs = .ok ((runMaps [] cs).1, forest) ∧
      ∀ i tree, member forest.trees i = some tree →
        ∃ m plain heap, member (runMaps [] cs).2 i = some m ∧
          tree.into_unversioned forest.heap = .ok (plain, heap) ∧
          (∃ it, iter.Iter.new (tree.root.bind (borrow forest.heap)) = .ok it ∧
            rootEntries plain.root = it.collect ∧ plain.len = it.collect.length) ∧
          (∀ j other a, j ≠ i → member forest.trees j = some other → other.root = some a →
            Agree forest.heap heap a) ∧
          (∀ more : List (Command V E), ∃ forest',
            runForest ⟨heap, forest.trees.set i none⟩ more =
              .ok ((runMaps ((runMaps [] cs).2.set i none) more).1, forest')) ∧
          ∀ ops : List (rart.tree.Op V E), ∃ after,
            rart.tree.runTree plain ops = .ok ((rart.tree.runMap m ops).1, after) ∧
            rart.tree.Reads after (rart.tree.runMap m ops).2 := by
  obtain ⟨forest, hrun, hr⟩ := runForest_spec represents_empty cs
  refine ⟨forest, hrun, fun i tree hmember => ?_⟩
  obtain ⟨m, hm, hs⟩ := hr.pair hmember
  have hl := hr.live hmember
  obtain ⟨plain, heap, hconvert, hplain, hv', hk⟩ := into_unversioned_spec hl hs
  have hlists := hs.lists hl
  refine ⟨m, plain, heap, hm, hconvert, ?_, fun j other a hj hother hroot => ?_, fun more => ?_, fun ops => ?_⟩
  · obtain ⟨it, hit, hcollect⟩ := Iter.new_root_spec (wf_root hl)
    refine ⟨it, hit, ?_, ?_⟩
    · rw [hcollect]
      exact hplain.lists.unique hlists
    · rw [hcollect, ← hlists.size]
      exact hplain.len
  · exact hk.agree a (mem_others hother hj hroot)
  · obtain ⟨forest', hmore, _⟩ := runForest_spec (hr.set hmember hv' hk .none) more
    exact ⟨forest', hmore⟩
  · obtain ⟨after, hafter, hspec⟩ := rart.tree.runTree_spec hplain ops
    exact ⟨after, hafter, hspec.reads⟩

end Trees

end rart.versioned_tree
