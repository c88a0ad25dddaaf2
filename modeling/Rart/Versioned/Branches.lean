import Rart.Partials
import Rart.Versioned.Edges

open SortedAssoc RcHeap Words LexOrder
open RcHeap.Heap (Valid Keeps Agree Below)
open rart.mapping rart.node rart.partials rart.utils

namespace rart.versioned_tree

variable {V : Type} [Features]

section Steps

/-- A copy of a node behind a shorter prefix. -/
def shortened_copy (h : Heap (VersionedNode V)) (node : VersionedNode V) (new_pfx : Bytes)
    (version : Nat) : Result (Nat × Heap (VersionedNode V)) := do
  let (existing_node, h) ← node.cow_clone_inner h version
  return h.alloc { existing_node with pfx := new_pfx }

/-- The key ends inside the node's prefix: the value goes to a new parent. -/
def insert_above (h : Heap (VersionedNode V)) (cur_node longest_common_prefix : Nat) (value : V)
    (version : Nat) : Result (Nat × Heap (VersionedNode V)) := do
  let node ← arc (h.node? cur_node)
  let new_prefix ← partial_after node.pfx longest_common_prefix
  let new_parent : VersionedNode V :=
    .new_inner (← partial_before node.pfx longest_common_prefix) version
  let new_parent := { new_parent with value := some value }
  let edge ← byte_at node.pfx longest_common_prefix
  let (existing, h) ← shortened_copy h node new_prefix version
  let (new_parent, h) ← new_parent.add_child h edge existing
  let (new_node, h) := h.alloc new_parent
  return (new_node, ← drop_arc h cur_node)

/-- Key and prefix part: both become children of a new node. -/
def insert_split (h : Heap (VersionedNode V)) (cur_node : Nat) (key : Bytes) (value : V)
    (depth longest_common_prefix version : Nat) : Result (Nat × Heap (VersionedNode V)) := do
  let node ← arc (h.node? cur_node)
  let new_inner : VersionedNode V :=
    .new_inner (← partial_before node.pfx longest_common_prefix) version
  let k1 ← byte_at node.pfx longest_common_prefix
  let k2 ← byte_at key (depth + longest_common_prefix)
  let new_prefix ← partial_after node.pfx longest_common_prefix
  let (existing_arc, h) ← shortened_copy h node new_prefix version
  let (new_leaf, h) := h.alloc
    (.new_leaf (← to_partial key (depth + longest_common_prefix)) value version)
  match new_inner.content with
  | .Node4 km =>
    let km ← km.add_child k1 existing_arc
    let km ← km.add_child k2 new_leaf
    let (new_node, h) := h.alloc { new_inner with content := .Node4 km }
    return (new_node, ← drop_arc h cur_node)
  | _ => throw (.unreachable "internal error: entered unreachable code")

/-- The key continues under an edge that the node does not have. -/
def insert_leaf (h : Heap (VersionedNode V)) (cur_node : Nat) (key : Bytes) (value : V)
    (depth version : Nat) : Result (Nat × Heap (VersionedNode V)) := do
  let edge ← byte_at key depth
  let (new_leaf, h) := h.alloc (.new_leaf (← to_partial key depth) value version)
  let (new_node, h) ← exclusive h cur_node version
  let (new_node, h) ← new_node.add_child h edge new_leaf
  return h.alloc new_node

end Steps

variable {h h' : Heap (VersionedNode V)} {roots : List Nat} {a : Nat} {node : VersionedNode V}
  {version : Nat}

/-- What a mutation of the tree below an `Arc` leads to: an `Arc` to a tree that
differs in one slot, while all other trees read as before. -/
structure Changed (h : Heap (VersionedNode V)) (a : Nat) (node : VersionedNode V) (roots : List Nat)
    (version : Nat) (key : Bytes) (slot : Option V) (a' : Nat) (h' : Heap (VersionedNode V)) : Prop where
  valid : Valid h' (a' :: roots)
  keeps : Keeps h h' roots
  updated : Updated (find h a) (find h' a') key slot
  stored : ∃ after, h'.node? a' = some after ∧ after.version = version ∧
    ∀ k, node.pfx.head? = some k → key.head? = some k → after.pfx.head? = some k
  shares : Shares h a key h' [a']

/-- The same for a node that is not back in a cell yet. -/
structure Reworked (h : Heap (VersionedNode V)) (a : Nat) (node : VersionedNode V) (roots : List Nat)
    (version : Nat) (key : Bytes) (slot : Option V) (after : VersionedNode V)
    (h' : Heap (VersionedNode V)) : Prop where
  held : Held h' after roots
  keeps : Keeps h h' roots
  updated : Updated (find h a) (read h' after) key slot
  pfx_eq : after.pfx = node.pfx
  version_eq : after.version = version
  shares : Shares h a key h' (handles after)

theorem Reworked.alloc {key : Bytes} {slot : Option V} {after : VersionedNode V}
    (hr : Reworked h a node roots version key slot after h')
    (hoccupied : after.content.iter = [] → ∃ v, after.value = some v) :
    Changed h a node roots version key slot (h'.alloc after).1 (h'.alloc after).2 := by
  obtain ⟨hv, hnode, hk⟩ := hr.held.alloc hoccupied
  refine ⟨hv, hr.keeps.trans (hk.subset fun b hb => List.mem_append_right _ hb), ?_, ⟨after, hnode,
    hr.version_eq, fun k hhead _ => ?_⟩, ?_⟩
  · exact hr.updated.congr (fun _ => rfl) fun w => find_alloc hr.held hoccupied w
  · rw [hr.pfx_eq]
    exact hhead
  · exact hr.shares.alloc hk (fun c hc => List.mem_append_left _ hc) hnode

/-- A node in hand, while others change the heap. -/
theorem Reworked.kept {h'' : Heap (VersionedNode V)} {key : Bytes} {slot : Option V} {after : VersionedNode V}
    (hr : Reworked h a node roots version key slot after h') (hv : Valid h'' (handles after ++ roots))
    (hk : Keeps h' h'' (handles after ++ roots)) : Reworked h a node roots version key slot after h'' where
  held := ⟨hv, hr.held.linked.keeps hk fun _ hc => List.mem_append_left _ hc⟩
  keeps := hr.keeps.trans (hk.subset fun _ hb => List.mem_append_right _ hb)
  updated := hr.updated.congr (fun _ => rfl) fun w =>
    read_keeps hr.held.valid hv hk (fun _ hc => List.mem_append_left _ hc) w
  pfx_eq := hr.pfx_eq
  version_eq := hr.version_eq
  shares := hr.shares.keeps hk fun _ hc => List.mem_append_left _ hc

section Leaves

omit [Features] in
theorem held_leaf (hv : Valid h roots) (pfx : Bytes) (value : V) (version : Nat) :
    Held h (VersionedNode.new_leaf pfx value version) roots where
  valid := hv
  linked := {
    repr := rfl
    edges := fun _ hp => by cases hp }

theorem updated_leaf (h : Heap (VersionedNode V)) (pfx : Bytes) (value : V) (version : Nat) :
    Updated (fun _ => none) (read h (VersionedNode.new_leaf pfx value version)) pfx (some value) where
  here := behind_self pfx _
  elsewhere w hw := by
    by_cases hpfx : pfx <+: w
    · obtain ⟨rest, rfl⟩ := hpfx
      refine (behind_of_append pfx rest _).trans ?_
      cases rest with
      | nil => exact absurd (List.append_nil pfx) hw
      | cons k rest => rfl
    · exact behind_eq_none hpfx _

/-- A new leaf in a cell of its own. -/
structure NewLeaf (h : Heap (VersionedNode V)) (roots : List Nat) (pfx : Bytes) (value : V)
    (version leaf : Nat) (h' : Heap (VersionedNode V)) : Prop where
  valid : Valid h' (leaf :: roots)
  keeps : Keeps h h' roots
  stored : h'.node? leaf = some (.new_leaf pfx value version)
  updated : Updated (fun _ => none) (find h' leaf) pfx (some value)

theorem alloc_leaf_spec (hv : Valid h roots) (pfx : Bytes) (value : V) (version : Nat) :
    NewLeaf h roots pfx value version (h.alloc (.new_leaf pfx value version)).1
      (h.alloc (.new_leaf pfx value version)).2 := by
  have hh := held_leaf hv pfx value version
  have hoccupied : (VersionedNode.new_leaf pfx value version).content.iter = [] →
      ∃ v, (VersionedNode.new_leaf pfx value version).value = some v := fun _ => ⟨value, rfl⟩
  obtain ⟨hv', hnode, hk⟩ := hh.alloc hoccupied
  exact ⟨hv', hk, hnode, (updated_leaf h pfx value version).congr (fun _ => rfl)
    fun w => find_alloc hh hoccupied w⟩

end Leaves

section Copies

/-- A shortened copy in a cell of its own. -/
structure Shortened (h : Heap (VersionedNode V)) (node : VersionedNode V) (roots : List Nat)
    (new_pfx : Bytes) (version copy : Nat) (h' : Heap (VersionedNode V)) : Prop where
  valid : Valid h' (copy :: roots)
  keeps : Keeps h h' roots
  stored : ∃ stored, h'.node? copy = some stored ∧ stored.pfx = new_pfx ∧ stored.version = version
  find_eq : ∀ key, find h' copy key = behind new_pfx (readBelow h node.value node.content.iter) key
  carries : ∀ p ∈ node.content.iter, ∀ b, Below h p.2 b → Below h' copy b ∧ Agree h h' b

theorem Shortened.of_copy {copy : VersionedNode V} {h₁ : Heap (VersionedNode V)} (hv : Valid h roots)
    (hnode : h.node? a = some node) (hh₁ : Held h₁ copy roots) (hcopy : Copy node copy version)
    (hk₁ : Keeps h h₁ (handles copy ++ roots)) (new_pfx : Bytes) :
    Shortened h node roots new_pfx version (h₁.alloc { copy with pfx := new_pfx }).1
      (h₁.alloc { copy with pfx := new_pfx }).2 := by
  have hheld : Held h₁ { copy with pfx := new_pfx } roots :=
    ⟨hh₁.valid, ⟨hh₁.linked.repr, hh₁.linked.edges⟩⟩
  have hoccupied : copy.content.iter = [] → ∃ v, copy.value = some v := by
    rw [hcopy.iter_eq, hcopy.value_eq]
    exact (hv.sound a node hnode).occupied
  obtain ⟨hv₂, hnode₂, hk₂⟩ := hheld.alloc hoccupied
  have hsub : ∀ b ∈ roots, b ∈ handles copy ++ roots := fun b hb => List.mem_append_right _ hb
  refine ⟨hv₂, (hk₁.subset hsub).trans (hk₂.subset hsub), ⟨_, hnode₂, rfl, hcopy.version_eq⟩,
    fun key => ?_, fun p hp b hbelow => ?_⟩
  · rw [find_alloc hheld hoccupied]
    change behind new_pfx (readBelow h₁ copy.value copy.content.iter) key = _
    rw [hcopy.value_eq, hcopy.iter_eq, readBelow_agree fun c hc key => ?_]
    refine find_agree hv hh₁.valid (hk₁.agree c (List.mem_append_left _ ?_)) key
    rw [hcopy.handles_eq]
    exact hc
  · have hin : p.2 ∈ handles copy := by
      rw [hcopy.handles_eq]
      exact mem_handles hp
    have hagree := (hk₁.trans hk₂).agree p.2 (List.mem_append_left _ hin)
    obtain ⟨hbelow', hagree'⟩ := hagree.carries hbelow
    exact ⟨.there hnode₂ hin hbelow', hagree'⟩

theorem shortened_copy_spec (hv : Valid h roots) (hnode : h.node? a = some node)
    (hle : node.version ≤ version) (new_pfx : Bytes) :
    ∃ copy h', shortened_copy h node new_pfx version = .ok (copy, h') ∧
      Shortened h node roots new_pfx version copy h' := by
  obtain ⟨copy, h₁, hclone, hh₁, hcopy, hk₁⟩ := cow_clone_inner_spec hv hnode hle
  refine ⟨_, _, ?_, .of_copy hv hnode hh₁ hcopy hk₁ new_pfx⟩
  unfold shortened_copy
  rw [hclone]
  rfl

end Copies

section Specs

omit [Features] in
theorem empty4_iter : (Content.Node4 .new : Content Nat).iter = [] := SortedKeyedMapping.Repr.new.iter_eq

theorem readBelow_single {k : UInt8} {e : Nat} {p : Bytes} {f : Bytes → Option V}
    (hfind : ∀ key, find h e key = behind (k :: p) f key) (w : Bytes) :
    readBelow h none [(k, e)] w = behind (k :: p) f w := by
  cases w with
  | nil => exact (behind_cons_nil k p f).symm
  | cons b w =>
    simp only [readBelow]
    rw [lookup_cons_if]
    split
    · exact hfind (b :: w)
    · rename_i hne
      exact (behind_cons_of_ne hne p w f).symm

/-- A new node that is to take the place of the one behind an `Arc`. -/
structure Placed (h : Heap (VersionedNode V)) (a : Nat) (node : VersionedNode V) (roots : List Nat)
    (version : Nat) (key : Bytes) (slot : Option V) (after : VersionedNode V)
    (h' : Heap (VersionedNode V)) : Prop where
  held : Held h' after (a :: roots)
  keeps : Keeps h h' (a :: roots)
  occupied : after.content.iter = [] → ∃ v, after.value = some v
  updated : Updated (find h a) (read h' after) key slot
  version_eq : after.version = version
  edge : ∀ k, node.pfx.head? = some k → key.head? = some k → after.pfx.head? = some k
  shares : Shares h a key h' (handles after)

/-- The same, while others change the heap. -/
theorem Placed.kept {h'' : Heap (VersionedNode V)} {key : Bytes} {slot : Option V} {after : VersionedNode V}
    (hp : Placed h a node roots version key slot after h') (hv : Valid h'' (handles after ++ a :: roots))
    (hk : Keeps h' h'' (handles after ++ a :: roots)) : Placed h a node roots version key slot after h'' where
  held := ⟨hv, hp.held.linked.keeps hk fun _ hc => List.mem_append_left _ hc⟩
  keeps := hp.keeps.trans (hk.subset fun _ hb => List.mem_append_right _ hb)
  occupied := hp.occupied
  updated := hp.updated.congr (fun _ => rfl) fun w =>
    read_keeps hp.held.valid hv hk (fun _ hc => List.mem_append_left _ hc) w
  version_eq := hp.version_eq
  edge := hp.edge
  shares := hp.shares.keeps hk fun _ hc => List.mem_append_left _ hc

/-- The new node goes to a cell, and the `Arc` to the old one out of scope. -/
theorem Placed.finish {key : Bytes} {slot : Option V} {after : VersionedNode V}
    (hp : Placed h a node roots version key slot after h') :
    ∃ h'', drop_arc (h'.alloc after).2 a = .ok h'' ∧
      Changed h a node roots version key slot (h'.alloc after).1 h'' := by
  obtain ⟨hv₁, hnode₁, hk₁⟩ := hp.held.alloc hp.occupied
  obtain ⟨h'', hdrop, hv₂, hk₂, _⟩ := drop_arc_spec (hv₁.perm (List.Perm.swap _ a roots))
  have hagree := hk₂.agree (h'.alloc after).1 (List.mem_cons_self)
  refine ⟨h'', hdrop, hv₂, ?_, ?_, ⟨after, ?_, hp.version_eq, hp.edge⟩, ?_⟩
  · have hk₁ := hp.keeps.trans (hk₁.subset fun b hb => List.mem_append_right _ hb)
    exact (hk₁.subset fun b hb => List.mem_cons_of_mem _ hb).trans
      (hk₂.subset fun b hb => List.mem_cons_of_mem _ hb)
  · refine hp.updated.congr (fun _ => rfl) fun w => ?_
    rw [find_agree hv₁ hv₂ hagree, find_alloc hp.held hp.occupied]
  · rw [hagree.node?_eq, hnode₁]
  · exact (hp.shares.alloc hk₁ (fun c hc => List.mem_append_left _ hc) hnode₁).keeps hk₂ fun c hc => by
      rw [List.mem_singleton.1 hc]
      exact List.mem_cons_self

/-- A new parent above a copy of the node. -/
theorem Shortened.above {e : Nat} {h₁ : Heap (VersionedNode V)} (hv : Valid h (a :: roots))
    (hnode : h.node? a = some node) {s p : Bytes} {k : UInt8} (hpfx : node.pfx = s ++ k :: p)
    (hshort : Shortened h node (a :: roots) (k :: p) version e h₁) (value : V) :
    Valid h₁ (handles (⟨s, some value, .Node4 .new, version⟩ : VersionedNode V) ++ e :: a :: roots) ∧
      ∃ after h₂, VersionedNode.add_child ⟨s, some value, .Node4 .new, version⟩ h₁ k e = .ok (after, h₂) ∧
        Placed h a node roots version s (some value) after h₂ := by
  obtain ⟨stored, hstored, hedge, hversion⟩ := hshort.stored
  have hnil : (⟨s, some value, .Node4 .new, version⟩ : VersionedNode V).content.iter = [] := empty4_iter
  have hh₁ : Held h₁ ⟨s, some value, .Node4 .new, version⟩ (e :: a :: roots) := {
    valid := by
      rw [handles_eq, hnil]
      exact hshort.valid
    linked := {
      repr := by
        rw [hnil]
        exact SortedKeyedMapping.Repr.new
      edges := fun p hp => by
        rw [hnil] at hp
        cases hp } }
  obtain ⟨after, h₂, hadd, hattached⟩ := add_child_spec hh₁ (k := k) (by rw [hnil]; rfl) hstored
    (by rw [hedge]; rfl) (Nat.le_of_eq hversion)
  have hk : Keeps h h₂ (a :: roots) := hshort.keeps.trans (hattached.keeps.subset fun b hb =>
    List.mem_append_right _ (List.mem_cons_of_mem _ hb))
  have hupdated : Updated (find h a) (read h₂ after) (s ++ []) (some value) := by
    have hbelow : Updated (behind (k :: p) (readBelow h node.value node.content.iter))
        (readBelow h₁ (some value) [(k, e)]) [] (some value) :=
      (updated_value h₁ none (some value) [(k, e)]).congr
        (fun w => (readBelow_single hshort.find_eq w).symm) (fun _ => rfl)
    refine (hbelow.behind s).congr (fun w => ?_) (fun w => ?_)
    · rw [find_eq_read hv hnode]
      unfold read
      rw [hpfx, behind_append]
    · rw [hattached.read_eq, hnil]
      rfl
  rw [List.append_nil] at hupdated
  refine ⟨hh₁.valid, after, h₂, hadd, hattached.held, hk, fun _ => ⟨value, hattached.value_eq⟩, hupdated,
    hattached.version_eq, fun b _ hb => ?_, fun b ho => ?_⟩
  · rw [hattached.pfx_eq]
    exact hb
  · obtain ⟨q, hq, hbelow⟩ := ho.child hnode
    obtain ⟨hbelow₁, hagree₁⟩ := hshort.carries q hq b hbelow
    obtain ⟨hbelow₂, hagree₂⟩ := (hattached.keeps.agree e
      (List.mem_append_right _ (List.mem_cons_self))).carries hbelow₁
    refine ⟨e, mem_handles (p := (k, e)) ?_, hbelow₂, hagree₁.trans hagree₂⟩
    rw [hattached.iter_eq, mem_insertSorted]
    exact .inl rfl

theorem insert_above_spec (hv : Valid h (a :: roots)) (hnode : h.node? a = some node)
    (hle : node.version ≤ version) {s p : Bytes} {k : UInt8} (hpfx : node.pfx = s ++ k :: p) (value : V) :
    ∃ a' h', insert_above h a s.length value version = .ok (a', h') ∧
      Changed h a node roots version s (some value) a' h' := by
  obtain ⟨e, h₁, hcopy, hshort⟩ := shortened_copy_spec hv hnode hle (k :: p)
  obtain ⟨_, after, h₂, hadd, hplaced⟩ := hshort.above hv hnode hpfx value
  obtain ⟨h₃, hdrop, hchanged⟩ := hplaced.finish
  refine ⟨_, h₃, ?_, hchanged⟩
  unfold insert_above partial_after partial_before byte_at
  rw [hnode, arc_some, ok_bind, hpfx, slice_from_eq_ok (by simp), ok_bind, slice_to_eq_ok (by simp),
    ok_bind, index_append_length]
  simp only [ok_bind, List.drop_left, List.take_left, hcopy]
  have hadd' : VersionedNode.add_child { (VersionedNode.new_inner s version : VersionedNode V) with
      value := some value } h₁ k e = .ok (after, h₂) := hadd
  rw [hadd']
  simp only [ok_bind, hdrop, pure_eq_ok]

/-- A new parent above a copy of the node and a new leaf. -/
theorem Shortened.split {e l : Nat} {h₁ h₂ : Heap (VersionedNode V)} (hv : Valid h (a :: roots))
    (hnode : h.node? a = some node) {c p s : Bytes} {k1 k2 : UInt8} (hne : k1 ≠ k2)
    (hpfx : node.pfx = c ++ k1 :: p) {value : V}
    (hshort : Shortened h node (a :: roots) (k1 :: p) version e h₁)
    (hleaf : NewLeaf h₁ (e :: a :: roots) (k2 :: s) value version l h₂) :
    ∃ km₁ km₂ : SortedKeyedMapping Nat 4, SortedKeyedMapping.new.add_child k1 e = .ok km₁ ∧
      km₁.add_child k2 l = .ok km₂ ∧
      Placed h a node roots version (c ++ k2 :: s) (some value) ⟨c, none, .Node4 km₂, version⟩ h₂ := by
  obtain ⟨stored, hstored, hedge, hversion⟩ := hshort.stored
  have hagree := hleaf.keeps.agree e (List.mem_cons_self)
  -- both children go to the table of a new node
  have habsent : ([(k1, e)] : List (UInt8 × Nat)).lookup k2 = none := by
    simp [Ne.symm hne]
  obtain ⟨km₁, hadd₁, hrepr₁⟩ := SortedKeyedMapping.Repr.add_child
    (SortedKeyedMapping.Repr.new : (SortedKeyedMapping.new : SortedKeyedMapping Nat 4).Repr []) (by omega)
    e (show List.lookup k1 [] = none from rfl) (by simp)
  obtain ⟨km₂, hadd₂, hrepr₂⟩ := hrepr₁.add_child (by omega) l habsent (by simp [insertSorted])
  have hiter : (Content.Node4 km₂).iter = insertSorted k2 l [(k1, e)] := Content.Repr.iter_eq
    (show (Content.Node4 km₂).Repr (insertSorted k2 l [(k1, e)]) from hrepr₂)
  have hh₂ : Held h₂ ⟨c, none, .Node4 km₂, version⟩ (a :: roots) := {
    valid := by
      refine hleaf.valid.perm ?_
      have hperm := ((insertSorted_perm k2 l [(k1, e)]).map Prod.snd).append_right (a :: roots)
      change (((Content.Node4 km₂).iter.map Prod.snd) ++ a :: roots).Perm _
      rw [hiter]
      exact hperm
    linked := {
      repr := by
        rw [hiter]
        exact hrepr₂
      edges := fun q hq => by
        have hq : q ∈ (Content.Node4 km₂).iter := hq
        rw [hiter] at hq
        cases mem_insertSorted.1 hq with
        | inl heq =>
          rw [heq]
          exact ⟨_, hleaf.stored, rfl, Nat.le_refl _⟩
        | inr hin =>
          rw [List.mem_singleton.1 hin]
          refine ⟨stored, ?_, ?_, Nat.le_of_eq hversion⟩
          · rw [hagree.node?_eq, hstored]
          · rw [hedge]
            rfl } }
  have hfind : ∀ w, find h₂ e w = behind (k1 :: p) (readBelow h node.value node.content.iter) w := by
    intro w
    rw [find_agree hshort.valid hleaf.valid hagree, hshort.find_eq]
  have hupdated : Updated (find h a) (read h₂ ⟨c, none, .Node4 km₂, version⟩) (c ++ k2 :: s)
      (some value) := by
    have hbelow : Updated (readBelow h₂ none [(k1, e)])
        (readBelow h₂ none (insertSorted k2 l [(k1, e)])) (k2 :: s) (some value) := by
      refine updated_edge (fun b hb => ?_) (fun _ _ _ _ => rfl) ?_
      · rw [lookup_insertSorted, if_neg hb]
      · rw [lookup_insertSorted, if_pos rfl, habsent]
        exact hleaf.updated
    refine (hbelow.behind c).congr (fun w => ?_) (fun w => ?_)
    · rw [find_eq_read hv hnode]
      unfold read
      rw [hpfx, behind_append]
      exact congrFun (congrArg (behind c) (funext fun w => (readBelow_single hfind w).symm)) w
    · change behind c (readBelow h₂ none (Content.Node4 km₂).iter) w = _
      rw [hiter]
  refine ⟨km₁, km₂, hadd₁, hadd₂, hh₂,
    hshort.keeps.trans (hleaf.keeps.subset fun b hb => List.mem_cons_of_mem _ hb), fun hempty => ?_, hupdated, rfl,
    fun b hb hs => ?_, fun b ho => ?_⟩
  · have hlen₂ := length_insertSorted k2 l [(k1, e)]
    have hempty : (Content.Node4 km₂).iter = [] := hempty
    rw [← hiter, hempty] at hlen₂
    cases hlen₂
  · rw [hpfx] at hb
    cases c with
    | nil =>
      simp only [List.nil_append, List.head?_cons, Option.some.injEq] at hb hs
      exact absurd (hb.trans hs.symm) hne
    | cons d c => exact hs
  · obtain ⟨q, hq, hbelow⟩ := ho.child hnode
    obtain ⟨hbelow₁, hagree₁⟩ := hshort.carries q hq b hbelow
    obtain ⟨hbelow₂, hagree₂⟩ := hagree.carries hbelow₁
    have hin : (k1, e) ∈ (Content.Node4 km₂).iter := by
      rw [hiter, mem_insertSorted]
      exact .inr (List.mem_singleton_self _)
    exact ⟨e, List.mem_map_of_mem hin, hbelow₂, hagree₁.trans hagree₂⟩

theorem insert_split_spec (hv : Valid h (a :: roots)) (hnode : h.node? a = some node)
    (hle : node.version ≤ version) {c p s key : Bytes} {depth : Nat} {k1 k2 : UInt8} (hne : k1 ≠ k2)
    (hpfx : node.pfx = c ++ k1 :: p) (hkey : key.drop depth = c ++ k2 :: s) (value : V) :
    ∃ a' h', insert_split h a key value depth c.length version = .ok (a', h') ∧
      Changed h a node roots version (key.drop depth) (some value) a' h' := by
  obtain ⟨hlen, hrest, hk2⟩ := next_byte hkey
  obtain ⟨e, h₁, hcopy, hshort⟩ := shortened_copy_spec hv hnode hle (k1 :: p)
  have hleaf := alloc_leaf_spec hshort.valid (k2 :: s) value version
  generalize hnew : h₁.alloc (VersionedNode.new_leaf (k2 :: s) value version) = new at hleaf
  obtain ⟨l, h₂⟩ := new
  obtain ⟨km₁, km₂, hadd₁, hadd₂, hplaced⟩ := hshort.split hv hnode hne hpfx hleaf
  obtain ⟨h₃, hdrop, hchanged⟩ := hplaced.finish
  refine ⟨_, h₃, ?_, hkey ▸ hchanged⟩
  unfold insert_split partial_after partial_before byte_at to_partial
  rw [hnode, arc_some, ok_bind, hpfx, slice_to_eq_ok (by simp), ok_bind, index_append_length, ok_bind, hk2,
    ok_bind, slice_from_eq_ok (by simp), ok_bind]
  simp only [List.drop_left, List.take_left, hcopy, ok_bind]
  rw [slice_from_eq_ok (by omega), ok_bind, hrest, hnew]
  have hadd₂ : km₁.add_child k2 l = .ok km₂ := hadd₂
  simp only [VersionedNode.new_inner, hadd₁, hadd₂, ok_bind, hdrop, pure_eq_ok]

/-- A node in hand with a new leaf, which was made before the node was in hand. -/
theorem NewLeaf.join {l : Nat} {h₁ h₂ : Heap (VersionedNode V)} {owned : VersionedNode V} {k : UInt8}
    {s : Bytes} {value : V} (hv : Valid h (a :: roots)) (habsent : node.content.iter.lookup k = none)
    (hleaf : NewLeaf h (a :: roots) (k :: s) value version l h₁)
    (hex : Exclusive h₁ a node version (l :: roots) owned h₂) :
    ∃ after h₃, owned.add_child h₂ k l = .ok (after, h₃) ∧
      (after.content.iter = [] → ∃ v, after.value = some v) ∧
      Reworked h a node roots version (node.pfx ++ k :: s) (some value) after h₃ := by
  have hagree := hleaf.keeps.agree a (List.mem_cons_self)
  have hl := hex.keeps.agree l (List.mem_append_right _ (List.mem_cons_self))
  obtain ⟨after, h₃, hadd, hattached⟩ := add_child_spec hex.held
    (show owned.content.iter.lookup k = none by rw [hex.copy.iter_eq, habsent])
    (hl.node?_eq.trans hleaf.stored) rfl (Nat.le_of_eq hex.copy.version_eq.symm)
  refine ⟨after, h₃, hadd, fun hempty => ?_, {
    held := hattached.held
    keeps := ((hleaf.keeps.subset fun b hb => List.mem_cons_of_mem _ hb).trans
      (hex.keeps.subset fun b hb => List.mem_append_right _ (List.mem_cons_of_mem _ hb))).trans
      (hattached.keeps.subset fun b hb => List.mem_append_right _ (List.mem_cons_of_mem _ hb))
    updated := ?_
    pfx_eq := hattached.pfx_eq.trans hex.copy.pfx_eq
    version_eq := hattached.version_eq.trans hex.copy.version_eq
    shares := (hattached.shares (hex.shares _)).after hv hleaf.valid hagree }⟩
  · have hlen' := length_insertSorted k l owned.content.iter
    rw [← hattached.iter_eq, hempty] at hlen'
    cases hlen'
  · have hbelow : Updated (readBelow h₂ owned.value owned.content.iter)
        (readBelow h₂ owned.value (insertSorted k l owned.content.iter)) (k :: s) (some value) := by
      refine updated_edge (fun b hb => ?_) (fun _ _ _ _ => rfl) ?_
      · rw [lookup_insertSorted, if_neg hb]
      · rw [lookup_insertSorted, if_pos rfl, hex.copy.iter_eq, habsent]
        exact hleaf.updated.congr (fun _ => rfl) fun w => find_agree hleaf.valid hex.held.valid hl w
    refine (hbelow.behind node.pfx).congr (fun w => ?_) (fun w => ?_)
    · rw [← find_agree hv hleaf.valid hagree, ← hex.read_eq]
      unfold read
      rw [hex.copy.pfx_eq]
    · rw [hattached.read_eq, hex.copy.pfx_eq]

theorem insert_leaf_spec (hv : Valid h (a :: roots)) (hnode : h.node? a = some node)
    (hlt : node.version < version) {s key : Bytes} {depth : Nat} {k : UInt8}
    (hkey : key.drop depth = k :: s) (habsent : node.content.iter.lookup k = none) (value : V) :
    ∃ a' h', insert_leaf h a key value depth version = .ok (a', h') ∧
      Changed h a node roots version (node.pfx ++ k :: s) (some value) a' h' := by
  obtain ⟨hlen, _, hk⟩ := next_byte (c := []) hkey
  rw [List.length_nil, Nat.add_zero] at hlen hk
  have hleaf := alloc_leaf_spec hv (k :: s) value version
  generalize hnew : h.alloc (VersionedNode.new_leaf (k :: s) value version) = new at hleaf
  obtain ⟨l, h₁⟩ := new
  have hleaf : NewLeaf h (a :: roots) (k :: s) value version l h₁ := hleaf
  have hnode₁ : h₁.node? a = some node := (hleaf.keeps.agree a (List.mem_cons_self)).node?_eq.trans hnode
  obtain ⟨owned, h₂, howned, hex⟩ := exclusive_spec (hleaf.valid.perm (List.Perm.swap l a roots)) hnode₁ hlt
  obtain ⟨after, h₃, hadd, hoccupied, hreworked⟩ := hleaf.join hv habsent hex
  refine ⟨_, _, ?_, hreworked.alloc hoccupied⟩
  unfold insert_leaf byte_at to_partial
  rw [hk, ok_bind, slice_from_eq_ok (Nat.le_of_lt hlen), ok_bind, hkey, hnew]
  simp only [howned, hadd, ok_bind, pure_eq_ok]

end Specs

end rart.versioned_tree
