import Rart.Lib.RcHeap.Cells

namespace RcHeap

namespace Heap

variable {N : Type} [Holds N]

/-- References are given up one after the other. A cell without references is
freed, and gives up those that its node holds. -/
def dropAll (h : Heap N) : List Nat → Option (Heap N)
  | [] => some h
  | a :: as =>
    match _hcell : h.cell? a with
    | none => none
    | some ⟨count, node⟩ =>
      if count ≤ 1 then dropAll (h.setCell a none) (handles node ++ as)
      else dropAll (h.setCell a (some ⟨count - 1, node⟩)) as
termination_by as => (h.live, as.length)
decreasing_by
  · exact Prod.Lex.left _ _ (live_setCell_none _hcell)
  · rw [live_setCell_some _hcell]
    exact Prod.Lex.right _ (Nat.lt_succ_self _)

/-- The last reference frees the cell, and then its node gives up its own. -/
theorem dropAll_last {h : Heap N} {a count : Nat} {node : N} (hcell : h.cell? a = some ⟨count, node⟩)
    (hle : count ≤ 1) (as : List Nat) :
    h.dropAll (a :: as) = (h.setCell a none).dropAll (handles node ++ as) := by
  rw [dropAll]
  split
  · rename_i hnone
    rw [hcell] at hnone
    cases hnone
  · rename_i count' node' hcell'
    rw [hcell] at hcell'
    cases hcell'
    rw [if_pos hle]

/-- A further reference is only counted off. -/
theorem dropAll_further {h : Heap N} {a count : Nat} {node : N} (hcell : h.cell? a = some ⟨count, node⟩)
    (hmany : 1 < count) (as : List Nat) :
    h.dropAll (a :: as) = (h.setCell a (some ⟨count - 1, node⟩)).dropAll as := by
  rw [dropAll]
  split
  · rename_i hnone
    rw [hcell] at hnone
    cases hnone
  · rename_i count' node' hcell'
    rw [hcell] at hcell'
    cases hcell'
    rw [if_neg (by omega)]

/-- A cell with further references outlives the loss of one. -/
theorem dropAll_shared {h : Heap N} {a count : Nat} {node : N} (hcell : h.cell? a = some ⟨count, node⟩)
    (hmany : 1 < count) : h.dropAll [a] = some (h.setCell a (some ⟨count - 1, node⟩)) := by
  rw [dropAll_further hcell hmany, dropAll]

/-- A reference to a freed cell cannot be given up. -/
theorem dropAll_none {h : Heap N} {a : Nat} (hcell : h.cell? a = none) (as : List Nat) :
    h.dropAll (a :: as) = none := by
  rw [dropAll]
  split
  · rfl
  · rename_i hcell'
    rw [hcell] at hcell'
    cases hcell'

/-- One list after the other. -/
theorem dropAll_append (h : Heap N) (as bs : List Nat) :
    h.dropAll (as ++ bs) = (h.dropAll as).bind fun h => h.dropAll bs := by
  induction h, as using Heap.dropAll.induct with
  | case1 h => rw [dropAll, Option.bind_some, List.nil_append]
  | case2 h a as hnone => rw [List.cons_append, dropAll_none hnone, dropAll_none hnone, Option.bind_none]
  | case3 h a as count node hcell hle ih =>
    rw [List.cons_append, dropAll_last hcell hle, dropAll_last hcell hle, ← List.append_assoc, ih]
  | case4 h a as count node hcell hmany ih =>
    rw [List.cons_append, dropAll_further hcell (by omega), dropAll_further hcell (by omega), ih]

/-- Giving up references makes no cells, and changes no node. -/
theorem node?_of_dropAll {h h' : Heap N} {as : List Nat} (hdrop : h.dropAll as = some h') :
    h'.cells.length = h.cells.length ∧ ∀ b node, h'.node? b = some node → h.node? b = some node := by
  induction h, as using Heap.dropAll.induct with
  | case1 h =>
    rw [dropAll] at hdrop
    cases hdrop
    exact ⟨rfl, fun _ _ hnode => hnode⟩
  | case2 h a as hnone =>
    rw [dropAll_none hnone] at hdrop
    cases hdrop
  | case3 h a as count node hcell hle ih =>
    rw [dropAll_last hcell hle] at hdrop
    obtain ⟨hlen, hback⟩ := ih hdrop
    refine ⟨hlen.trans List.length_set, fun b stored hstored => ?_⟩
    have hnode := hback b stored hstored
    unfold node? at hnode ⊢
    rw [cell?_setCell (lt_of_cell? hcell)] at hnode
    split at hnode
    · cases hnode
    · exact hnode
  | case4 h a as count node hcell hmany ih =>
    rw [dropAll_further hcell (by omega)] at hdrop
    obtain ⟨hlen, hback⟩ := ih hdrop
    refine ⟨hlen.trans List.length_set, fun b stored hstored => ?_⟩
    have hnode := hback b stored hstored
    unfold node? at hnode ⊢
    rw [cell?_setCell (lt_of_cell? hcell)] at hnode
    split at hnode
    · rename_i heq
      rw [heq, hcell]
      exact hnode
    · exact hnode

/-- Giving up references copies nothing. -/
theorem copied_dropAll {h h' : Heap N} {as : List Nat} (hdrop : h.dropAll as = some h') :
    h'.copied = h.copied := by
  induction h, as using Heap.dropAll.induct with
  | case1 h =>
    rw [dropAll, Option.some.injEq] at hdrop
    rw [hdrop]
  | case2 h a as hnone =>
    rw [dropAll_none hnone] at hdrop
    cases hdrop
  | case3 h a as count node hcell hle ih =>
    rw [dropAll_last hcell hle] at hdrop
    exact ih hdrop
  | case4 h a as count node hcell hmany ih =>
    rw [dropAll_further hcell (by omega)] at hdrop
    exact ih hdrop

/-- Giving up references makes no cell live. -/
theorem live_dropAll_le {h h' : Heap N} {as : List Nat} (hdrop : h.dropAll as = some h') : h'.live ≤ h.live := by
  induction h, as using Heap.dropAll.induct with
  | case1 h =>
    rw [dropAll, Option.some.injEq] at hdrop
    exact Nat.le_of_eq (congrArg live hdrop.symm)
  | case2 h a as hnone =>
    rw [dropAll_none hnone] at hdrop
    cases hdrop
  | case3 h a as count node hcell hle ih =>
    rw [dropAll_last hcell hle] at hdrop
    exact Nat.le_trans (ih hdrop) (Nat.le_of_lt (live_setCell_none hcell))
  | case4 h a as count node hcell hmany ih =>
    rw [dropAll_further hcell (by omega)] at hdrop
    exact Nat.le_trans (ih hdrop) (Nat.le_of_eq (live_setCell_some hcell _))

omit [Holds N] in
/-- Further references copy nothing. -/
theorem copied_clone {h h' : Heap N} {a : Nat} (hclone : h.clone a = some h') : h'.copied = h.copied := by
  obtain ⟨cell, _, rfl⟩ := Option.map_eq_some_iff.1 hclone
  rfl

omit [Holds N] in
/-- Further references copy nothing. -/
theorem copied_cloneAll {h h' : Heap N} {as : List Nat} (hclone : h.cloneAll as = some h') :
    h'.copied = h.copied := by
  induction as generalizing h with
  | nil =>
    cases hclone
    rfl
  | cons a as ih =>
    obtain ⟨h₁, hone, hrest⟩ := Option.bind_eq_some_iff.1 hclone
    exact (ih hrest).trans (copied_clone hone)

section Spending

/-- A heap later on, after at most so many copies and at most so many new cells. -/
structure Spends (h h' : Heap N) (n : Nat) : Prop where
  copied_le : h'.copied ≤ h.copied + n
  length_le : h'.cells.length ≤ h.cells.length + n

omit [Holds N]

/-- Nothing is spent on nothing. -/
theorem Spends.refl (h : Heap N) : Spends h h 0 := ⟨Nat.le_refl _, Nat.le_refl _⟩

/-- One stretch after the other. -/
theorem Spends.trans {h h' h'' : Heap N} {n m : Nat} (hs : Spends h h' n) (hs' : Spends h' h'' m) :
    Spends h h'' (n + m) where
  copied_le := by
    have := hs.copied_le
    have := hs'.copied_le
    omega
  length_le := by
    have := hs.length_le
    have := hs'.length_le
    omega

/-- A wider bound. -/
theorem Spends.mono {h h' : Heap N} {n m : Nat} (hs : Spends h h' n) (hle : n ≤ m) : Spends h h' m where
  copied_le := Nat.le_trans hs.copied_le (Nat.add_le_add_left hle _)
  length_le := Nat.le_trans hs.length_le (Nat.add_le_add_left hle _)

/-- A new cell. -/
theorem spends_alloc (h : Heap N) (node : N) : Spends h (h.alloc node).2 1 where
  copied_le := Nat.le_succ _
  length_le := Nat.le_of_eq List.length_append

/-- A note costs nothing. -/
theorem spends_note (h : Heap N) (a : Nat) : Spends h (h.note a) 0 := ⟨Nat.le_refl _, Nat.le_refl _⟩

/-- Copies are spent as they are counted. -/
theorem spends_copies (h : Heap N) (n : Nat) : Spends h (h.copies n) n where
  copied_le := Nat.le_refl _
  length_le := Nat.le_add_right _ n

/-- Writing a cell costs nothing. -/
theorem spends_setCell (h : Heap N) (a : Nat) (cell : Option (Cell N)) : Spends h (h.setCell a cell) 0 where
  copied_le := Nat.le_refl _
  length_le := Nat.le_of_eq List.length_set

/-- A further reference costs nothing. -/
theorem spends_clone {h h' : Heap N} {a : Nat} (hclone : h.clone a = some h') : Spends h h' 0 := by
  obtain ⟨cell, _, rfl⟩ := Option.map_eq_some_iff.1 hclone
  exact spends_setCell h a _

/-- As for `clone`. -/
theorem spends_cloneAll {h h' : Heap N} {as : List Nat} (hclone : h.cloneAll as = some h') : Spends h h' 0 := by
  induction as generalizing h with
  | nil =>
    cases hclone
    exact .refl _
  | cons a as ih =>
    obtain ⟨h₁, hone, hrest⟩ := Option.bind_eq_some_iff.1 hclone
    exact (spends_clone hone).trans (ih hrest)

/-- Moving a node out of its cell costs nothing. -/
theorem spends_take {h h' : Heap N} {a : Nat} {node : N} (htake : h.take a = some (some (node, h'))) :
    Spends h h' 0 := by
  obtain ⟨cell, _, hcell⟩ := Option.map_eq_some_iff.1 htake
  split at hcell
  · cases hcell
    exact spends_setCell h a none
  · cases hcell

end Spending

/-- Giving up references costs nothing. -/
theorem spends_dropAll {h h' : Heap N} {as : List Nat} (hdrop : h.dropAll as = some h') : Spends h h' 0 where
  copied_le := Nat.le_of_eq (copied_dropAll hdrop)
  length_le := Nat.le_of_eq (node?_of_dropAll hdrop).1

end Heap

end RcHeap
