import Rart.Versioned.View

open SortedAssoc RcHeap Words
open RcHeap.Heap (Valid Keeps Agree Below)
open rart.mapping rart.node rart.utils

namespace rart.versioned_tree

variable {V : Type}

/-- `Arc::try_unwrap`, which gives the `Arc` back where others are left. -/
def try_unwrap (h : Heap (VersionedNode V)) (node : Nat) :
    Result (Option (VersionedNode V × Heap (VersionedNode V))) := arc (h.take node)

section Steps

variable [Features]

/-- The node of this version, moved over or copied. -/
def ensure_cow_node (h : Heap (VersionedNode V)) (node target_version : Nat) :
    Result (Nat × Heap (VersionedNode V)) := do
  let borrowed ← arc (h.node? node)
  if borrowed.version = target_version then
    -- the shortcut: nobody asks for the count, which is noted here
    return (node, h.note node)
  else
    match ← try_unwrap h node with
    | some (owned_node, h) => return h.alloc { owned_node with version := target_version }
    | none =>
      let (cloned, h) ← borrowed.cow_clone_inner h target_version
      let (new_node, h) := h.alloc cloned
      return (new_node, ← drop_arc h node)

/-- `ensure_cow_node`, and the `try_unwrap` that all its callers go on with. -/
def exclusive (h : Heap (VersionedNode V)) (node version : Nat) :
    Result (VersionedNode V × Heap (VersionedNode V)) := do
  let (new_node, h) ← ensure_cow_node h node version
  match ← try_unwrap h new_node with
  | some owned => return owned
  | none => throw (.panic "ensure_cow_node should have given us exclusive ownership")

end Steps

variable {h : Heap (VersionedNode V)} {roots : List Nat} {a : Nat} {node : VersionedNode V}

/-- A node that was moved out of its cell, in the hands of someone who also holds `roots`. -/
structure Held (h : Heap (VersionedNode V)) (node : VersionedNode V) (roots : List Nat) : Prop where
  valid : Valid h (handles node ++ roots)
  linked : Linked h node

/-- The same node, of another version. -/
structure Copy (node copy : VersionedNode V) (version : Nat) : Prop where
  pfx_eq : copy.pfx = node.pfx
  value_eq : copy.value = node.value
  iter_eq : copy.content.iter = node.content.iter
  is_leaf_eq : copy.is_leaf = node.is_leaf
  version_eq : copy.version = version

namespace Copy

variable {copy : VersionedNode V} {version : Nat}

/-- A copy has the same children. -/
theorem handles_eq (hc : Copy node copy version) : handles copy = handles node :=
  congrArg (List.map Prod.snd) hc.iter_eq

/-- A copy reads the same. -/
theorem read_eq [Features] (hc : Copy node copy version) (h : Heap (VersionedNode V)) (key : Bytes) :
    read h copy key = read h node key := by
  unfold read
  rw [hc.pfx_eq, hc.value_eq, hc.iter_eq]

/-- A copy is linked as the node was. -/
theorem linked (hc : Copy node copy version) (hl : Linked h node)
    (hrepr : copy.content.Repr copy.content.iter) (hle : node.version ≤ version) : Linked h copy where
  repr := hrepr
  edges p hp := by
    rw [hc.iter_eq] at hp
    obtain ⟨child, hchild, hedge, hversion⟩ := hl.edges p hp
    refine ⟨child, hchild, hedge, ?_⟩
    rw [hc.version_eq]
    omega

/-- A copy can be stored where the node could. -/
theorem stored (hc : Copy node copy version) (hs : Stored h node)
    (hrepr : copy.content.Repr copy.content.iter) (hle : node.version ≤ version) : Stored h copy where
  linked := hc.linked hs.linked hrepr hle
  occupied hempty := by
    rw [hc.iter_eq] at hempty
    rw [hc.value_eq]
    exact hs.occupied hempty

end Copy

/-- The links stay where the children do. -/
theorem Linked.keeps {h' : Heap (VersionedNode V)} {kept : List Nat} (hl : Linked h node)
    (hk : Keeps h h' kept) (hsub : ∀ c ∈ handles node, c ∈ kept) : Linked h' node :=
  hl.local_of fun c hc => (hk.agree c (hsub c hc)).node?_eq

/-- `Arc::new` on a node in hand. -/
theorem Held.alloc (hh : Held h node roots) (hoccupied : node.content.iter = [] → ∃ v, node.value = some v) :
    Valid (h.alloc node).2 ((h.alloc node).1 :: roots) ∧
      (h.alloc node).2.node? (h.alloc node).1 = some node ∧
      Keeps h (h.alloc node).2 (handles node ++ roots) :=
  hh.valid.alloc ⟨hh.linked, hoccupied⟩

/-- The only reference gives the node away. -/
theorem try_unwrap_unique (hcell : h.cell? a = some ⟨1, node⟩) :
    try_unwrap h a = .ok (some (node, h.setCell a none)) := by
  unfold try_unwrap Heap.take
  rw [hcell]
  rfl

/-- A shared cell keeps its node. -/
theorem try_unwrap_shared {count : Nat} (hcell : h.cell? a = some ⟨count, node⟩) (hmany : count ≠ 1) :
    try_unwrap h a = .ok none := by
  unfold try_unwrap Heap.take
  rw [hcell, Option.map_some, if_neg hmany]
  rfl

theorem cell?_alloc_self (h : Heap (VersionedNode V)) (node : VersionedNode V) :
    (h.alloc node).2.cell? (h.alloc node).1 = some ⟨1, node⟩ := by
  rw [Heap.cell?_alloc, if_pos (by rfl)]

/-- Dropping a reference keeps all others. -/
theorem drop_arc_spec (hv : Valid h (a :: roots)) :
    ∃ h', drop_arc h a = .ok h' ∧ Valid h' roots ∧ Keeps h h' roots ∧ ∀ b, h'.count b ≤ h.count b := by
  obtain ⟨h', hdrop, hv', hk, hle⟩ := Valid.dropAll [a] hv
  refine ⟨h', ?_, hv', hk, hle⟩
  unfold drop_arc
  rw [hdrop]
  rfl

/-- Dropping a node gives up its references. -/
theorem drop_node_spec (hv : Valid h (handles node ++ roots)) :
    ∃ h', drop_node h node = .ok h' ∧ Valid h' roots ∧ Keeps h h' roots := by
  obtain ⟨h', hdrop, hv', hk, _⟩ := Valid.dropAll (handles node) hv
  refine ⟨h', ?_, hv', hk⟩
  unfold drop_node
  rw [hdrop]
  rfl

section Specs

variable [Features]

/-- Everything off the path to a key is below one of the given cells, as it was. -/
def Shares (h : Heap (VersionedNode V)) (a : Nat) (key : Bytes) (h' : Heap (VersionedNode V))
    (cells : List Nat) : Prop :=
  ∀ b, OffPath h a key b → ∃ c ∈ cells, Below h' c b ∧ Agree h h' b

namespace Shares

variable {h' h'' : Heap (VersionedNode V)} {key : Bytes} {cells : List Nat}

theorem of_children (hnode : h.node? a = some node)
    (hkept : ∀ p ∈ node.content.iter, p.2 ∈ cells ∧ Agree h h' p.2) : Shares h a key h' cells := by
  intro b ho
  obtain ⟨p, hp, hbelow⟩ := ho.child hnode
  obtain ⟨hin, hagree⟩ := hkept p hp
  exact ⟨p.2, hin, hagree.carries hbelow⟩

theorem keeps {kept : List Nat} (hs : Shares h a key h' cells) (hk : Keeps h' h'' kept)
    (hsub : ∀ c ∈ cells, c ∈ kept) : Shares h a key h'' cells := by
  intro b ho
  obtain ⟨c, hc, hbelow, hagree⟩ := hs b ho
  obtain ⟨hbelow', hagree'⟩ := (hk.agree c (hsub c hc)).carries hbelow
  exact ⟨c, hc, hbelow', hagree.trans hagree'⟩

theorem alloc {after : VersionedNode V} {a' : Nat} {kept : List Nat}
    (hs : Shares h a key h' (handles after)) (hk : Keeps h' h'' kept)
    (hsub : ∀ c ∈ handles after, c ∈ kept) (hafter : h''.node? a' = some after) :
    Shares h a key h'' [a'] := by
  intro b ho
  obtain ⟨c, hc, hbelow, hagree⟩ := hs.keeps hk hsub b ho
  exact ⟨a', List.mem_singleton_self a', .there hafter hc hbelow, hagree⟩

theorem after {h₁ : Heap (VersionedNode V)} {roots₁ : List Nat} (hv : Valid h roots) (hv₁ : Valid h₁ roots₁)
    (hagree : Agree h h₁ a) (hs : Shares h₁ a key h' cells) : Shares h a key h' cells := by
  intro b ho
  obtain ⟨c, hc, hbelow, hagree'⟩ := hs b (ho.agree hv hv₁ hagree)
  exact ⟨c, hc, hbelow, (hagree.carries ho.below).2.trans hagree'⟩

/-- What is shared behind the next edge is shared, where the other edges stay. -/
theorem step {h₁ h₂ : Heap (VersionedNode V)} {roots₁ : List Nat} {k : UInt8} {c : Nat} {rest : Bytes}
    {below : List Nat} (hv : Valid h roots) (hnode : h.node? a = some node)
    (hc : node.content.iter.lookup k = some c) (hv₁ : Valid h₁ roots₁) (hagree : Agree h h₁ c)
    (hs : Shares h₁ c (k :: rest) h₂ below) (hsub : ∀ c' ∈ below, c' ∈ cells)
    (hothers : ∀ p ∈ node.content.iter, p.1 ≠ k → p.2 ∈ cells ∧ Agree h h₂ p.2) :
    Shares h a (node.pfx ++ k :: rest) h₂ cells := by
  intro b ho
  cases ho.cases_below hv hnode hc with
  | inl hother =>
    obtain ⟨p, hp, hne, hbelow⟩ := hother
    obtain ⟨hin, hkept⟩ := hothers p hp hne
    exact ⟨p.2, hin, hkept.carries hbelow⟩
  | inr hoff =>
    obtain ⟨c', hin, hbelow, hkept⟩ := hs.after hv hv₁ hagree b hoff
    exact ⟨c', hsub c' hin, hbelow, hkept⟩

end Shares

/-- A node that is stored is found as it was read. -/
theorem find_alloc (hh : Held h node roots) (hoccupied : node.content.iter = [] → ∃ v, node.value = some v)
    (key : Bytes) : find (h.alloc node).2 (h.alloc node).1 key = read h node key := by
  obtain ⟨hv, hnode, hk⟩ := hh.alloc hoccupied
  rw [find_eq_read hv hnode]
  exact read_keeps hh.valid hv hk (fun c hc => List.mem_append_left _ hc) key

/-- A copy of a stored node holds further references to the same children. -/
theorem cow_clone_inner_spec (hv : Valid h roots) (hnode : h.node? a = some node) {version : Nat}
    (hle : node.version ≤ version) :
    ∃ copy h', node.cow_clone_inner h version = .ok (copy, h') ∧ Held h' copy roots ∧
      Copy node copy version ∧ Keeps h h' (handles copy ++ roots) := by
  have hs := hv.sound a node hnode
  obtain ⟨content, hclone, hrepr, hempty⟩ := VersionedNode.clone_content_spec hs.linked.repr
  obtain ⟨h₁, hclones, hv₁, hk₁, hsame⟩ := hv.cloneAll fun c hc => hv.counted.live_of_handle hnode hc
  obtain ⟨hv', hk'⟩ := hv₁.copies 1
  have hiter : content.iter = node.content.iter := hrepr.iter_eq
  have hcopy : Copy node ⟨node.pfx, node.value, content, version⟩ version :=
    ⟨rfl, rfl, hiter, hempty, rfl⟩
  refine ⟨⟨node.pfx, node.value, content, version⟩, h₁.copies 1, ?_, ⟨?_, ?_⟩, hcopy, ?_⟩
  · unfold VersionedNode.cow_clone_inner
    rw [hclone, ok_bind, hclones]
    rfl
  · rw [hcopy.handles_eq]
    exact hv'
  · refine hcopy.linked (hs.linked.local_of fun c _ => hsame c) ?_ hle
    change content.Repr content.iter
    rw [hiter]
    exact hrepr
  · refine hv.keeps_of_same hv' hsame (hk₁.continues.trans hk'.continues) fun b hb => ?_
    cases List.mem_append.1 hb with
    | inl hheld =>
      rw [hcopy.handles_eq] at hheld
      exact hv.counted.live_of_handle hnode hheld
    | inr hroot => exact hv.counted.live_of_root hroot

/-- What `exclusive` leads to: the node is in hand, and what it reads as is unchanged. -/
structure Exclusive (h : Heap (VersionedNode V)) (a : Nat) (node : VersionedNode V) (version : Nat)
    (roots : List Nat) (owned : VersionedNode V) (h' : Heap (VersionedNode V)) : Prop where
  held : Held h' owned roots
  copy : Copy node owned version
  keeps : Keeps h h' (handles owned ++ roots)
  read_eq : ∀ key, read h' owned key = find h a key
  shares : ∀ key, Shares h a key h' (handles owned)
  older : ∀ p ∈ owned.content.iter, p.2 < a ∧ ∃ child, h'.node? p.2 = some child ∧
    child.pfx.head? = some p.1 ∧ child.version < version

theorem Exclusive.agree_of_mem {version : Nat} {owned : VersionedNode V} {h' : Heap (VersionedNode V)}
    (hex : Exclusive h a node version roots owned h') {p : UInt8 × Nat} (hp : p ∈ node.content.iter) :
    Agree h h' p.2 := by
  refine hex.keeps.agree p.2 (List.mem_append_left _ ?_)
  rw [hex.copy.handles_eq]
  exact mem_handles hp

theorem Exclusive.agree_of_lookup {version : Nat} {owned : VersionedNode V} {h' : Heap (VersionedNode V)}
    (hex : Exclusive h a node version roots owned h') {k : UInt8} {c : Nat}
    (hkey : owned.content.iter.lookup k = some c) : Agree h h' c := by
  rw [hex.copy.iter_eq] at hkey
  exact hex.agree_of_mem (p := (k, c)) (mem_of_lookup hkey)

/-- The node was allocated anew, and is moved out again. -/
theorem Exclusive.of_cell {new_node version : Nat} {copy : VersionedNode V} {h₂ : Heap (VersionedNode V)}
    (hv : Valid h (a :: roots)) (hnode : h.node? a = some node) (hlt : node.version < version)
    (hcopy : Copy node copy version) (hv₂ : Valid h₂ (new_node :: roots))
    (hcell₂ : h₂.cell? new_node = some ⟨1, copy⟩) (hk₂ : Keeps h h₂ (handles copy ++ roots)) :
    Exclusive h a node version roots copy (h₂.setCell new_node none) := by
  have hs := hv.sound a node hnode
  obtain ⟨hv₃, hsound₃, hk₃, _⟩ := hv₂.free hcell₂
  have hk := hk₂.trans hk₃
  refine ⟨⟨hv₃, hsound₃.linked⟩, hcopy, hk, fun key => ?_, fun key => .of_children hnode fun p hp => ?_,
    fun p hp => ?_⟩
  · rw [hcopy.read_eq, find_eq_read hv hnode]
    refine read_keeps hv hv₃ hk (fun c hc => ?_) key
    rw [hcopy.handles_eq]
    exact List.mem_append_left _ hc
  · have hmem : p.2 ∈ handles copy := by
      rw [hcopy.handles_eq]
      exact mem_handles hp
    exact ⟨hmem, hk.agree p.2 (List.mem_append_left _ hmem)⟩
  · have hmem := hp
    rw [hcopy.iter_eq] at hmem
    obtain ⟨child, hchild, hedge, hversion⟩ := hs.linked.edges p hmem
    refine ⟨hv.counted.older a node hnode p.2 (mem_handles hmem), child, ?_, hedge, by omega⟩
    rw [(hk.agree p.2 (List.mem_append_left _ (mem_handles hp))).node?_eq, hchild]

omit [Features] in
/-- The original goes out of scope, and the copy is the tree's own. -/
theorem drop_original {new_node : Nat} {copy : VersionedNode V} {h₁ h₂ : Heap (VersionedNode V)}
    (hk₁ : Keeps h h₁ (handles copy ++ a :: roots)) (hv₂ : Valid h₂ (new_node :: a :: roots))
    (hcell₂ : h₂.cell? new_node = some ⟨1, copy⟩) (hk₂ : Keeps h₁ h₂ (handles copy ++ a :: roots)) :
    ∃ h₃, drop_arc h₂ a = .ok h₃ ∧ Valid h₃ (new_node :: roots) ∧ h₃.cell? new_node = some ⟨1, copy⟩ ∧
      Keeps h h₃ (handles copy ++ roots) := by
  have hnode₂ := Heap.node?_of_cell? hcell₂
  obtain ⟨h₃, hdrop, hv₃, hk₃, hle₃⟩ := drop_arc_spec (hv₂.perm (List.Perm.swap _ a roots))
  have hnode₃ : h₃.node? new_node = some copy := by
    rw [(hk₃.agree _ (List.mem_cons_self)).node?_eq, hnode₂]
  refine ⟨h₃, hdrop, hv₃, ?_, fun b hb => ?_, (hk₁.continues.trans hk₂.continues).trans hk₃.continues⟩
  · obtain ⟨count₃, hcell₃⟩ := Heap.node?_eq_some.1 hnode₃
    have hpos : 0 < count₃ := hv₃.counted.positive _ _ hcell₃
    have hle := hle₃ new_node
    rw [Heap.count_of_cell? hcell₃, Heap.count_of_cell? hcell₂] at hle
    obtain rfl : count₃ = 1 := Nat.le_antisymm hle hpos
    exact hcell₃
  · have hb₁ : b ∈ handles copy ++ a :: roots := by
      rw [List.mem_append, List.mem_cons]
      exact (List.mem_append.1 hb).imp_right Or.inr
    refine ((hk₁.agree b hb₁).trans (hk₂.agree b hb₁)).trans ?_
    cases List.mem_append.1 hb with
    | inl hheld => exact (hk₃.agree _ (List.mem_cons_self)).handle hnode₂ hheld
    | inr hroot => exact hk₃.agree b (List.mem_cons_of_mem _ hroot)

/-- A node is always moved or copied, since no node has the version of a mutation
before it starts. -/
theorem exclusive_spec (hv : Valid h (a :: roots)) (hnode : h.node? a = some node) {version : Nat}
    (hlt : node.version < version) :
    ∃ owned h', exclusive h a version = .ok (owned, h') ∧ Exclusive h a node version roots owned h' := by
  have hs := hv.sound a node hnode
  obtain ⟨count, hcell⟩ := Heap.node?_eq_some.1 hnode
  unfold exclusive ensure_cow_node
  rw [hnode]
  simp only [arc_some, ok_bind]
  rw [if_neg (by omega)]
  by_cases hone : count = 1
  · -- the node is moved
    subst hone
    obtain ⟨hv₁, hsound₁, hk₁, _⟩ := hv.free hcell
    have hcopy : Copy node { node with version } version := ⟨rfl, rfl, rfl, rfl, rfl⟩
    have hstored := hcopy.stored hsound₁ hsound₁.linked.repr (Nat.le_of_lt hlt)
    have hh₁ : Held (h.setCell a none) { node with version } roots := ⟨hv₁, hstored.linked⟩
    obtain ⟨hv₂, _, hk₂⟩ := hh₁.alloc hstored.occupied
    have hcell₂ := cell?_alloc_self (h.setCell a none) { node with version }
    rw [try_unwrap_unique hcell]
    simp only [ok_bind, pure_eq_ok]
    rw [try_unwrap_unique hcell₂]
    exact ⟨_, _, rfl, .of_cell hv hnode hlt hcopy hv₂ hcell₂ (hk₁.trans hk₂)⟩
  · -- the node is copied
    obtain ⟨copy, h₁, hclone, hh₁, hcopy, hk₁⟩ := cow_clone_inner_spec hv hnode (Nat.le_of_lt hlt)
    have hoccupied : copy.content.iter = [] → ∃ v, copy.value = some v := by
      rw [hcopy.iter_eq, hcopy.value_eq]
      exact hs.occupied
    obtain ⟨hv₂, _, hk₂⟩ := hh₁.alloc hoccupied
    obtain ⟨h₃, hdrop, hv₃, hcell₃, hk₃⟩ := drop_original hk₁ hv₂ (cell?_alloc_self h₁ copy) hk₂
    rw [try_unwrap_shared hcell hone]
    simp only [ok_bind, hclone, hdrop, pure_eq_ok]
    rw [try_unwrap_unique hcell₃]
    exact ⟨_, _, rfl, .of_cell hv hnode hlt hcopy hv₃ hcell₃ hk₃⟩

end Specs

end rart.versioned_tree
