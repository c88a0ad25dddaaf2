import Mathlib.Data.List.Perm.Basic

namespace RcHeap

/-- Nodes that hold references. -/
class Holds (N : Type) where
  handles : N → List Nat

export Holds (handles)

/-- A node and the number of references to it. -/
structure Cell (N : Type) where
  count : Nat
  node : N

/-- The cells, freed ones included, and what was noted on the way. A reference to a cell is its
position. Whoever runs on the heap holds references of its own, its roots; the others are those
that stored nodes hold. -/
structure Heap (N : Type) where
  cells : List (Option (Cell N))
  /-- Counts that were noted on the way. -/
  noted : List Nat
  /-- How often something was copied on the way: a node together with what it holds, or a part
  of one by itself. -/
  copied : Nat

namespace Heap

variable {N : Type}

/-- Nothing is allocated. -/
def empty : Heap N := ⟨[], [], 0⟩

/-- The cell at a position, if it is allocated. -/
def cell? (h : Heap N) (a : Nat) : Option (Cell N) := (h.cells[a]?).join

/-- The node at a position, if its cell is allocated. -/
def node? (h : Heap N) (a : Nat) : Option N := (h.cell? a).map Cell.node

/-- The number of references to a position, zero where nothing is allocated. -/
def count (h : Heap N) (a : Nat) : Nat := (h.cell? a).elim 0 Cell.count

/-- Overwrite or free a cell. -/
def setCell (h : Heap N) (a : Nat) (cell : Option (Cell N)) : Heap N :=
  { h with cells := h.cells.set a cell }

/-- A new cell, and the one reference to it. -/
def alloc (h : Heap N) (node : N) : Nat × Heap N :=
  (h.cells.length, { h with cells := h.cells ++ [some ⟨1, node⟩] })

/-- One more reference to a cell. -/
def clone (h : Heap N) (a : Nat) : Option (Heap N) :=
  (h.cell? a).map fun cell => h.setCell a (some { cell with count := cell.count + 1 })

/-- One more reference to each of the cells. -/
def cloneAll (h : Heap N) : List Nat → Option (Heap N)
  | [] => some h
  | a :: as => (h.clone a).bind fun h => h.cloneAll as

/-- The node of a cell with a single reference, moved out of the cell; `none`
inside where there are more references. -/
def take (h : Heap N) (a : Nat) : Option (Option (N × Heap N)) :=
  (h.cell? a).map fun cell => if cell.count = 1 then some (cell.node, h.setCell a none) else none

/-- A node is moved back into the cell it was taken from. -/
def restore (h : Heap N) (a : Nat) (node : N) : Heap N := h.setCell a (some ⟨1, node⟩)

/-- The count of a cell is noted. -/
def note (h : Heap N) (a : Nat) : Heap N := { h with noted := h.noted ++ [h.count a] }

/-- `n` copies were made. -/
def copies (h : Heap N) (n : Nat) : Heap N := { h with copied := h.copied + n }

/-- The number of cells that are allocated. -/
def live (h : Heap N) : Nat := h.cells.countP Option.isSome

section Cells

/-- An allocated cell stands in the list. -/
theorem cell?_eq_some {h : Heap N} {a : Nat} {cell : Cell N} :
    h.cell? a = some cell ↔ h.cells[a]? = some (some cell) := Option.join_eq_some_iff

/-- A position past the list is not allocated. -/
theorem lt_of_cell? {h : Heap N} {a : Nat} {cell : Cell N} (hcell : h.cell? a = some cell) :
    a < h.cells.length := (List.getElem?_eq_some_iff.1 (cell?_eq_some.1 hcell)).1

/-- A node has a cell around it. -/
theorem node?_eq_some {h : Heap N} {a : Nat} {node : N} :
    h.node? a = some node ↔ ∃ count, h.cell? a = some ⟨count, node⟩ := by
  unfold node?
  rw [Option.map_eq_some_iff]
  constructor
  · rintro ⟨⟨count, _⟩, hcell, rfl⟩
    exact ⟨count, hcell⟩
  · rintro ⟨count, hcell⟩
    exact ⟨_, hcell, rfl⟩

/-- A position past the list holds no node. -/
theorem lt_of_node? {h : Heap N} {a : Nat} {node : N} (hnode : h.node? a = some node) :
    a < h.cells.length := by
  obtain ⟨_, hcell⟩ := node?_eq_some.1 hnode
  exact lt_of_cell? hcell

/-- The node of a cell. -/
theorem node?_of_cell? {h : Heap N} {a : Nat} {count : Nat} {node : N}
    (hcell : h.cell? a = some ⟨count, node⟩) : h.node? a = some node := node?_eq_some.2 ⟨count, hcell⟩

/-- The count of a cell. -/
theorem count_of_cell? {h : Heap N} {a : Nat} {count : Nat} {node : N}
    (hcell : h.cell? a = some ⟨count, node⟩) : h.count a = count := by
  unfold Heap.count
  rw [hcell]
  rfl

/-- Writing one cell leaves the others. -/
theorem cell?_setCell {h : Heap N} {a : Nat} (ha : a < h.cells.length) (cell : Option (Cell N)) (b : Nat) :
    (h.setCell a cell).cell? b = if b = a then cell else h.cell? b := by
  unfold cell? setCell
  split
  · rename_i heq
    rw [heq, List.getElem?_set_self ha]
    rfl
  · rename_i hne
    rw [List.getElem?_set_ne (Ne.symm hne)]

/-- The new cell is the last one. -/
theorem cell?_alloc (h : Heap N) (node : N) (b : Nat) :
    (h.alloc node).2.cell? b = if b = h.cells.length then some ⟨1, node⟩ else h.cell? b := by
  unfold cell? alloc
  split
  · rename_i heq
    rw [heq, List.getElem?_concat_length]
    rfl
  · rename_i hne
    by_cases hlt : b < h.cells.length
    · rw [List.getElem?_append_left hlt]
    · rw [List.getElem?_eq_none (by rw [List.length_append, List.length_singleton]; omega),
        List.getElem?_eq_none (by omega)]

/-- A new cell changes no count. -/
theorem count_alloc_of_lt (h : Heap N) (node : N) {b : Nat} (hlt : b < h.cells.length) :
    (h.alloc node).2.count b = h.count b := by
  unfold Heap.count
  rw [cell?_alloc, if_neg (by omega)]

/-- A clone is counted. -/
theorem count_clone {h h' : Heap N} {a : Nat} (hclone : h.clone a = some h') :
    h'.count a = h.count a + 1 := by
  obtain ⟨cell, hcell, rfl⟩ := Option.map_eq_some_iff.1 hclone
  unfold count
  rw [cell?_setCell (lt_of_cell? hcell), if_pos rfl, hcell]
  rfl

/-- A further reference takes none away. -/
theorem count_le_clone {h h' : Heap N} {a : Nat} (hclone : h.clone a = some h') (b : Nat) :
    h.count b ≤ h'.count b := by
  obtain ⟨cell, hcell, rfl⟩ := Option.map_eq_some_iff.1 hclone
  unfold count
  rw [cell?_setCell (lt_of_cell? hcell)]
  split
  · rename_i heq
    rw [heq, hcell]
    exact Nat.le_succ cell.count
  · exact Nat.le_refl _

/-- Clones only add to the counts. -/
theorem count_le_cloneAll {h h' : Heap N} {as : List Nat} (hclone : h.cloneAll as = some h') (b : Nat) :
    h.count b ≤ h'.count b := by
  induction as generalizing h with
  | nil =>
    cases hclone
    exact Nat.le_refl _
  | cons a as ih =>
    obtain ⟨h₁, hone, hrest⟩ := Option.bind_eq_some_iff.1 hclone
    exact Nat.le_trans (count_le_clone hone b) (ih hrest)

/-- Writing a cell with no greater count, or none, raises no count. -/
theorem count_setCell_le {h : Heap N} {a : Nat} (ha : a < h.cells.length) {cell : Option (Cell N)}
    (hle : cell.elim 0 Cell.count ≤ h.count a) (b : Nat) : (h.setCell a cell).count b ≤ h.count b := by
  unfold count at hle ⊢
  rw [cell?_setCell ha]
  split
  · rename_i heq
    rw [heq]
    exact hle
  · exact Nat.le_refl _

/-- Freeing a cell leaves fewer of them. -/
theorem live_setCell_none {h : Heap N} {a : Nat} {cell : Cell N} (hcell : h.cell? a = some cell) :
    (h.setCell a none).live < h.live := by
  obtain ⟨ha, hget⟩ := List.getElem?_eq_some_iff.1 (cell?_eq_some.1 hcell)
  have hsplit := List.take_append_drop a h.cells
  unfold live setCell
  rw [List.set_eq_take_append_cons_drop, if_pos ha]
  conv => rhs; rw [← hsplit, List.drop_eq_getElem_cons ha, hget]
  simp [List.countP_append]

/-- Overwriting a cell leaves as many of them. -/
theorem live_setCell_some {h : Heap N} {a : Nat} {cell : Cell N} (hcell : h.cell? a = some cell)
    (cell' : Cell N) : (h.setCell a (some cell')).live = h.live := by
  obtain ⟨ha, hget⟩ := List.getElem?_eq_some_iff.1 (cell?_eq_some.1 hcell)
  have hsplit := List.take_append_drop a h.cells
  unfold live setCell
  rw [List.set_eq_take_append_cons_drop, if_pos ha]
  conv => rhs; rw [← hsplit, List.drop_eq_getElem_cons ha, hget]
  simp [List.countP_append]

end Cells

section Log

/-- No count was noted from one heap to the other. -/
structure Continues (h h' : Heap N) : Prop where
  noted : h'.noted = h.noted
  length_le : h.cells.length ≤ h'.cells.length
  copied_le : h.copied ≤ h'.copied

/-- Nothing happened. -/
theorem Continues.refl (h : Heap N) : Continues h h := ⟨by rfl, Nat.le_refl _, Nat.le_refl _⟩

/-- One stretch after the other. -/
theorem Continues.trans {h h' h'' : Heap N} (hc : Continues h h') (hc' : Continues h' h'') :
    Continues h h'' where
  noted := hc'.noted.trans hc.noted
  length_le := Nat.le_trans hc.length_le hc'.length_le
  copied_le := Nat.le_trans hc.copied_le hc'.copied_le

/-- Writing a cell notes no count. -/
theorem continues_setCell (h : Heap N) (a : Nat) (cell : Option (Cell N)) :
    Continues h (h.setCell a cell) where
  noted := by rfl
  length_le := Nat.le_of_eq List.length_set.symm
  copied_le := Nat.le_refl _

end Log

end Heap

end RcHeap
