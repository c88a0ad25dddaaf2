import Rart.Lib.RcHeap.Drops

namespace RcHeap

namespace Heap

variable {N : Type} [Holds N]

/-- The references that a cell holds. -/
def held (cell : Option (Cell N)) : List Nat := cell.elim [] fun cell => handles cell.node

/-- The references that stored nodes hold. -/
def inner (h : Heap N) : List Nat := h.cells.flatMap held

/-- Replacing one part of a list, counted on both sides. -/
theorem count_flatMap_set {α : Type} (f : α → List Nat) (l : List α) {i : Nat} {old : α}
    (hold : l[i]? = some old) (new : α) (x : Nat) :
    ((l.set i new).flatMap f).count x + (f old).count x = (l.flatMap f).count x + (f new).count x := by
  induction l generalizing i with
  | nil => cases hold
  | cons b l ih =>
    cases i with
    | zero =>
      cases hold
      simp only [List.set_cons_zero, List.flatMap_cons, List.count_append]
      omega
    | succ i =>
      have := ih hold
      simp only [List.set_cons_succ, List.flatMap_cons, List.count_append]
      omega

/-- Writing a cell replaces the references that it held. -/
theorem count_inner_setCell {h : Heap N} {a : Nat} {old : Option (Cell N)} (hold : h.cells[a]? = some old)
    (new : Option (Cell N)) (x : Nat) :
    (h.setCell a new).inner.count x + (held old).count x = h.inner.count x + (held new).count x :=
  count_flatMap_set held h.cells hold new x

/-- A new cell adds the references of its node. -/
theorem count_inner_alloc (h : Heap N) (node : N) (x : Nat) :
    (h.alloc node).2.inner.count x = h.inner.count x + (handles node).count x := by
  unfold inner alloc
  rw [List.flatMap_append, List.count_append]
  simp [held]

/-- The references of a node are among those of all nodes. -/
theorem mem_inner {h : Heap N} {a c : Nat} {node : N} (hnode : h.node? a = some node)
    (hc : c ∈ handles node) : c ∈ h.inner := by
  obtain ⟨count, hcell⟩ := node?_eq_some.1 hnode
  exact List.mem_flatMap.2 ⟨_, List.mem_of_getElem? (cell?_eq_some.1 hcell), hc⟩

/-- Every reference is counted, and leads to an older cell. -/
structure Counted (h : Heap N) (roots : List Nat) : Prop where
  count_eq : ∀ a, h.count a = roots.count a + h.inner.count a
  positive : ∀ a cell, h.cell? a = some cell → 0 < cell.count
  older : ∀ a node, h.node? a = some node → ∀ c ∈ handles node, c < a

namespace Counted

variable {h : Heap N} {roots : List Nat}

/-- The roots count, in whatever order. -/
theorem of_count {roots' : List Nat} (hc : Counted h roots)
    (hcount : ∀ a, roots'.count a = roots.count a) : Counted h roots' where
  count_eq a := by rw [hcount a]; exact hc.count_eq a
  positive := hc.positive
  older := hc.older

/-- What is referred to is allocated. -/
theorem live_of_count (hc : Counted h roots) {a : Nat} (hpos : 0 < roots.count a + h.inner.count a) :
    ∃ node, h.node? a = some node := by
  rw [← hc.count_eq a] at hpos
  unfold Heap.count at hpos
  cases hcell : h.cell? a with
  | none =>
    rw [hcell] at hpos
    cases hpos
  | some cell => exact ⟨cell.node, node?_of_cell? hcell⟩

/-- As for `live_of_count`. -/
theorem live_of_root (hc : Counted h roots) {a : Nat} (ha : a ∈ roots) : ∃ node, h.node? a = some node := by
  have hpos := List.count_pos_iff.2 ha
  exact hc.live_of_count (by omega)

/-- As for `live_of_count`. -/
theorem live_of_handle (hc : Counted h roots) {a c : Nat} {node : N} (hnode : h.node? a = some node)
    (hmem : c ∈ handles node) : ∃ child, h.node? c = some child := by
  have hpos := List.count_pos_iff.2 (mem_inner hnode hmem)
  exact hc.live_of_count (by omega)

/-- Nothing refers to anything. -/
theorem empty : Counted (Heap.empty : Heap N) [] where
  count_eq _ := rfl
  positive a cell hcell := by
    have hlt := lt_of_cell? hcell
    cases hlt
  older a node hnode := by
    have hlt := lt_of_node? hnode
    cases hlt

end Counted

/-- What is below a cell is the same in both heaps. -/
inductive Agree (h h' : Heap N) : Nat → Prop where
  | intro (a : Nat) (node : N) (before : h.node? a = some node) (after : h'.node? a = some node)
      (below : ∀ c ∈ handles node, Agree h h' c) : Agree h h' a

namespace Agree

variable {h h' h'' : Heap N} {a : Nat}

/-- Agreement goes down along references. -/
theorem handle (hagree : Agree h h' a) {node : N} (hnode : h.node? a = some node) {c : Nat}
    (hc : c ∈ handles node) : Agree h h' c := by
  cases hagree with
  | intro _ node' before _ below =>
    obtain rfl : node' = node := Option.some.inj (before.symm.trans hnode)
    exact below c hc

/-- Where two heaps agree they hold the same node. -/
theorem node?_eq (hagree : Agree h h' a) : h'.node? a = h.node? a := by
  cases hagree with
  | intro _ node before after _ => rw [before, after]

/-- Agreement over two stretches. -/
theorem trans (hagree : Agree h h' a) (hagree' : Agree h' h'' a) : Agree h h'' a := by
  induction hagree with
  | intro a node before after _ ih =>
    cases hagree' with
    | intro _ node' before' after' below' =>
      obtain rfl : node = node' := Option.some.inj (after.symm.trans before')
      exact .intro a node before after' fun c hc => ih c hc (below' c hc)

end Agree

/-- What is found on the way down from a cell. -/
inductive Below (h : Heap N) : Nat → Nat → Prop where
  | here {a : Nat} {node : N} (hnode : h.node? a = some node) : Below h a a
  | there {a b c : Nat} {node : N} (hnode : h.node? a = some node) (hc : c ∈ handles node)
      (hbelow : Below h c b) : Below h a b

/-- What is below a cell is allocated. -/
theorem Below.live {h : Heap N} {a b : Nat} (hbelow : Below h a b) : ∃ node, h.node? b = some node := by
  induction hbelow with
  | here hnode => exact ⟨_, hnode⟩
  | there _ _ _ ih => exact ih

/-- Agreement holds of all that is below. -/
theorem Agree.carries {h h' : Heap N} {a b : Nat} (hagree : Agree h h' a) (hbelow : Below h a b) :
    Below h' a b ∧ Agree h h' b := by
  induction hbelow with
  | here hnode => exact ⟨.here (hagree.node?_eq.trans hnode), hagree⟩
  | there hnode hc _ ih =>
    obtain ⟨hbelow', hagree'⟩ := ih (hagree.handle hnode hc)
    exact ⟨.there (hagree.node?_eq.trans hnode) hc hbelow', hagree'⟩

/-- One reference further down. -/
theorem Below.step {h : Heap N} {a b c : Nat} {node : N} (hbelow : Below h a b)
    (hnode : h.node? b = some node) (hc : c ∈ handles node) (hlive : ∃ child, h.node? c = some child) :
    Below h a c := by
  induction hbelow with
  | here _ =>
    obtain ⟨child, hchild⟩ := hlive
    exact .there hnode hc (.here hchild)
  | there hnode' hc' _ ih => exact .there hnode' hc' (ih hnode)

/-- A reference of some node. -/
theorem exists_of_mem_inner {h : Heap N} {c : Nat} (hc : c ∈ h.inner) :
    ∃ a node, h.node? a = some node ∧ c ∈ handles node := by
  obtain ⟨cell, hcell, hheld⟩ := List.mem_flatMap.1 hc
  obtain ⟨a, ha, hget⟩ := List.mem_iff_getElem.1 hcell
  cases cell with
  | none => cases hheld
  | some cell =>
    refine ⟨a, cell.node, node?_eq_some.2 ⟨cell.count, cell?_eq_some.2 ?_⟩, hheld⟩
    rw [List.getElem?_eq_getElem ha, hget]

/-- Nothing is allocated that no root leads to. -/
theorem Counted.below_root {h : Heap N} {roots : List Nat} (hc : Counted h roots) {a : Nat} {node : N}
    (hnode : h.node? a = some node) : ∃ r ∈ roots, Below h r a := by
  -- whoever refers to a cell is in a newer one
  induction hn : h.cells.length - a using Nat.strongRecOn generalizing a node with
  | ind n ih =>
    obtain ⟨count, hcell⟩ := node?_eq_some.1 hnode
    have hpos := hc.positive a _ hcell
    have hcount := hc.count_eq a
    rw [count_of_cell? hcell] at hcount
    by_cases hroot : a ∈ roots
    · exact ⟨a, hroot, .here hnode⟩
    · have hinner : a ∈ h.inner := by
        rw [List.count_eq_zero_of_not_mem hroot] at hcount
        exact List.count_pos_iff.1 (by simp only at hpos; omega)
      obtain ⟨b, parent, hparent, hmem⟩ := exists_of_mem_inner hinner
      have hless := hc.older b parent hparent a hmem
      have hlt := lt_of_node? hparent
      obtain ⟨r, hr, hbelow⟩ := ih _ (by omega) hparent rfl
      exact ⟨r, hr, hbelow.step hparent hmem ⟨node, hnode⟩⟩

/-- Whoever holds the roots sees no difference. -/
structure Keeps (h h' : Heap N) (roots : List Nat) : Prop where
  agree : ∀ a ∈ roots, Agree h h' a
  continues : Continues h h'

namespace Keeps

variable {h h' h'' : Heap N} {roots roots' : List Nat}

/-- The roots keep what they see over two stretches. -/
theorem trans (hk : Keeps h h' roots) (hk' : Keeps h' h'' roots) : Keeps h h'' roots where
  agree a ha := (hk.agree a ha).trans (hk'.agree a ha)
  continues := hk.continues.trans hk'.continues

/-- So do some of them. -/
theorem subset (hk : Keeps h h' roots) (hsub : ∀ a ∈ roots', a ∈ roots) : Keeps h h' roots' where
  agree a ha := hk.agree a (hsub a ha)
  continues := hk.continues

end Keeps

/-- A cell that is allocated in both heaps holds the same node. -/
def Stays (h h' : Heap N) : Prop :=
  ∀ a node node', h.node? a = some node → h'.node? a = some node' → node' = node

/-- By induction on the position: references lead to older cells. -/
theorem Counted.agree {h h' : Heap N} {roots roots' : List Nat} (hc : Counted h roots)
    (hc' : Counted h' roots') (hstays : Stays h h') {a : Nat} (hlive : ∃ node, h.node? a = some node)
    (hlive' : ∃ node, h'.node? a = some node) : Agree h h' a := by
  induction a using Nat.strongRecOn with
  | ind a ih =>
    obtain ⟨node, hnode⟩ := hlive
    obtain ⟨node', hnode'⟩ := hlive'
    obtain rfl := hstays a node node' hnode hnode'
    exact .intro a node' hnode hnode' fun c hmem =>
      ih c (hc.older a node' hnode c hmem) (hc.live_of_handle hnode hmem) (hc'.live_of_handle hnode' hmem)

/-- Heaps that count the same roots agree below them, where no node changed. -/
theorem Counted.keeps {h h' : Heap N} {roots roots' kept : List Nat} (hc : Counted h roots)
    (hc' : Counted h' roots') (hstays : Stays h h') (hcontinues : Continues h h')
    (hsub : ∀ a ∈ kept, a ∈ roots) (hsub' : ∀ a ∈ kept, a ∈ roots') : Keeps h h' kept where
  agree a ha := hc.agree hc' hstays (hc.live_of_root (hsub a ha)) (hc'.live_of_root (hsub' a ha))
  continues := hcontinues

omit [Holds N] in
/-- A new cell changes no other. -/
theorem stays_alloc (h : Heap N) (node : N) : Stays h (h.alloc node).2 := by
  intro a before after hbefore hafter
  have hlt := lt_of_node? hbefore
  unfold node? at hbefore hafter
  rw [cell?_alloc, if_neg (by omega), hbefore] at hafter
  exact (Option.some.inj hafter).symm

omit [Holds N] in
/-- Nor does freeing one. -/
theorem stays_setCell_none {h : Heap N} {a : Nat} (ha : a < h.cells.length) : Stays h (h.setCell a none) := by
  intro b before after hbefore hafter
  unfold node? at hbefore hafter
  rw [cell?_setCell ha] at hafter
  split at hafter
  · cases hafter
  · rw [hbefore] at hafter
    exact (Option.some.inj hafter).symm

omit [Holds N] in
/-- A count is no part of the node. -/
theorem node?_setCell_count {h : Heap N} {a : Nat} {count : Nat} {node : N}
    (hcell : h.cell? a = some ⟨count, node⟩) (count' : Nat) (b : Nat) :
    (h.setCell a (some ⟨count', node⟩)).node? b = h.node? b := by
  unfold node?
  rw [cell?_setCell (lt_of_cell? hcell)]
  split
  · rename_i heq
    rw [heq, hcell]
    rfl
  · rfl

omit [Holds N] in
/-- Heaps that hold the same nodes. -/
theorem stays_of_node?_eq {h h' : Heap N} (hnode : ∀ a, h'.node? a = h.node? a) : Stays h h' := by
  intro a before after hbefore hafter
  rw [hnode, hbefore] at hafter
  exact (Option.some.inj hafter).symm

end Heap

end RcHeap
