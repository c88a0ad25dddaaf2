import Rart.Lib.RcHeap.Counted

namespace RcHeap

/-- An invariant of stored nodes that looks no further than the nodes they refer to. -/
class Invariant (N : Type) [Holds N] where
  Sound : Heap N → N → Prop
  sound_local : ∀ {h h' : Heap N} {node : N}, Sound h node →
    (∀ c ∈ handles node, h'.node? c = h.node? c) → Sound h' node

export Invariant (Sound)

namespace Heap

variable {N : Type} [Holds N] [Invariant N]

/-- A heap that is accounted for, with the invariant at every node. -/
structure Valid (h : Heap N) (roots : List Nat) : Prop where
  counted : Counted h roots
  sound : ∀ a node, h.node? a = some node → Sound h node

namespace Valid

variable {h : Heap N} {roots : List Nat}

/-- The empty heap without roots. -/
theorem empty : Valid (Heap.empty : Heap N) [] where
  counted := Counted.empty
  sound a node hnode := by
    have hlt := lt_of_node? hnode
    cases hlt

/-- The roots count, in whatever order. -/
theorem of_count {roots' : List Nat} (hv : Valid h roots)
    (hcount : ∀ a, roots'.count a = roots.count a) : Valid h roots' :=
  ⟨hv.counted.of_count hcount, hv.sound⟩

/-- As for `of_count`. -/
theorem perm {roots' : List Nat} (hv : Valid h roots) (hperm : roots'.Perm roots) : Valid h roots' :=
  hv.of_count fun a => hperm.count_eq a

/-- The invariant of a node that is not stored, but whose references are held. -/
theorem sound_keeps {h' : Heap N} {kept : List Nat} {node : N} (hsound : Sound h node)
    (hk : Keeps h h' kept) (hsub : ∀ c ∈ handles node, c ∈ kept) : Sound h' node :=
  Invariant.sound_local hsound fun c hc => (hk.agree c (hsub c hc)).node?_eq

/-- Changing the heap without changing any node that is left. -/
theorem of_stays {h' : Heap N} {roots' : List Nat} (hv : Valid h roots) (hc' : Counted h' roots')
    (hback : ∀ a node, h'.node? a = some node → h.node? a = some node) : Valid h' roots' where
  counted := hc'
  sound a node hnode := by
    have hbefore := hback a node hnode
    refine Invariant.sound_local (hv.sound a node hbefore) fun c hmem => ?_
    obtain ⟨child, hchild⟩ := hc'.live_of_handle hnode hmem
    rw [hchild, hback c child hchild]

/-- A node moves into a new cell, and its references with it. -/
theorem alloc {node : N} (hv : Valid h (handles node ++ roots)) (hsound : Sound h node) :
    Valid (h.alloc node).2 ((h.alloc node).1 :: roots) ∧
      (h.alloc node).2.node? (h.alloc node).1 = some node ∧
      Keeps h (h.alloc node).2 (handles node ++ roots) := by
  have hfresh : h.cell? h.cells.length = none := by
    unfold cell?
    rw [List.getElem?_eq_none (Nat.le_refl _)]
    rfl
  have hnew : (h.alloc node).2.node? (h.alloc node).1 = some node := by
    unfold node?
    rw [cell?_alloc, if_pos (by rfl)]
    rfl
  have hsame : ∀ a, (∃ before, h.node? a = some before) → (h.alloc node).2.node? a = h.node? a := by
    rintro a ⟨before, hbefore⟩
    have hlt := lt_of_node? hbefore
    unfold node?
    rw [cell?_alloc, if_neg (by omega)]
  have hheld : ∀ c ∈ handles node, c < h.cells.length := fun c hc => by
    obtain ⟨child, hchild⟩ := hv.counted.live_of_root (List.mem_append_left _ hc)
    exact lt_of_node? hchild
  have hc' : Counted (h.alloc node).2 ((h.alloc node).1 :: roots) := {
    count_eq := fun a => by
      have hcount := hv.counted.count_eq a
      rw [List.count_append] at hcount
      rw [List.count_cons, count_inner_alloc]
      unfold Heap.count at hcount ⊢
      rw [cell?_alloc]
      by_cases heq : a = h.cells.length
      · rw [heq, hfresh] at hcount
        simp only [heq, if_true, Option.elim_none, Option.elim_some, Heap.alloc, beq_self_eq_true] at hcount ⊢
        omega
      · have hne : ¬ h.cells.length = a := fun h => heq h.symm
        simp only [heq, if_false, Heap.alloc, beq_iff_eq, hne] at hcount ⊢
        omega
    positive := fun a cell hcell => by
      rw [cell?_alloc] at hcell
      split at hcell
      · cases hcell
        exact Nat.one_pos
      · exact hv.counted.positive a cell hcell
    older := fun a stored hstored c hc => by
      by_cases heq : a = h.cells.length
      · rw [heq] at hstored ⊢
        obtain rfl := Option.some.inj (hnew.symm.trans hstored)
        exact hheld c hc
      · have hold : h.node? a = some stored := by
          unfold node? at hstored ⊢
          rwa [cell?_alloc, if_neg heq] at hstored
        exact hv.counted.older a stored hold c hc }
  have hkeeps : Keeps h (h.alloc node).2 (handles node ++ roots) := {
    agree := fun a ha => by
      have hlive := hv.counted.live_of_root ha
      refine hv.counted.agree hc' (stays_alloc h node) hlive ?_
      rw [hsame a hlive]
      exact hlive
    continues := ⟨rfl, by simp [Heap.alloc], Nat.le_refl _⟩ }
  refine ⟨⟨hc', fun a stored hstored => ?_⟩, hnew, hkeeps⟩
  by_cases heq : a = h.cells.length
  · rw [heq] at hstored
    obtain rfl := Option.some.inj (hnew.symm.trans hstored)
    exact sound_keeps hsound hkeeps fun c hc => List.mem_append_left _ hc
  · have hold : h.node? a = some stored := by
      unfold node? at hstored ⊢
      rwa [cell?_alloc, if_neg heq] at hstored
    exact Invariant.sound_local (hv.sound a stored hold) fun c hc =>
      hsame c (hv.counted.live_of_handle hold hc)

/-- Freeing a cell leaves the references of its node to whoever freed it. -/
theorem free {a : Nat} {node : N} (hv : Valid h (a :: roots)) (hcell : h.cell? a = some ⟨1, node⟩) :
    Valid (h.setCell a none) (handles node ++ roots) ∧ Sound (h.setCell a none) node ∧
      Keeps h (h.setCell a none) (handles node ++ roots) ∧ (∀ c ∈ handles node, c < a) := by
  have ha := lt_of_cell? hcell
  have hnode := node?_of_cell? hcell
  have hone := count_of_cell? hcell
  have hback : ∀ b stored, (h.setCell a none).node? b = some stored → h.node? b = some stored := by
    intro b stored hstored
    unfold node? at hstored ⊢
    rw [cell?_setCell ha] at hstored
    split at hstored
    · cases hstored
    · exact hstored
  have hc' : Counted (h.setCell a none) (handles node ++ roots) := {
    count_eq := fun b => by
      have hcount := hv.counted.count_eq b
      have hinner := count_inner_setCell (cell?_eq_some.1 hcell) none b
      rw [List.count_cons] at hcount
      simp only [held, Option.elim_some, Option.elim_none, List.count_nil, Nat.add_zero] at hinner
      rw [List.count_append]
      unfold Heap.count at hcount ⊢
      rw [cell?_setCell ha]
      by_cases heq : b = a
      · rw [heq, hcell] at hcount
        rw [heq] at hinner ⊢
        simp only [beq_self_eq_true, if_true, Option.elim_some, Option.elim_none] at hcount ⊢
        omega
      · have hne : ¬ a = b := fun h => heq h.symm
        simp only [beq_iff_eq, hne, heq, if_false] at hcount ⊢
        omega
    positive := fun b cell hcell' => by
      rw [cell?_setCell ha] at hcell'
      split at hcell'
      · cases hcell'
      · exact hv.counted.positive b cell hcell'
    older := fun b stored hstored => hv.counted.older b stored (hback b stored hstored) }
  have hkeeps : Keeps h (h.setCell a none) (handles node ++ roots) := {
    agree := fun b hb => by
      refine hv.counted.agree hc' (stays_setCell_none ha) ?_ (hc'.live_of_root hb)
      obtain ⟨stored, hstored⟩ := hc'.live_of_root hb
      exact ⟨stored, hback b stored hstored⟩
    continues := continues_setCell h a none }
  exact ⟨hv.of_stays hc' hback, sound_keeps (hv.sound a node hnode) hkeeps fun c hc =>
    List.mem_append_left _ hc, hkeeps, hv.counted.older a node hnode⟩

/-- Another count, and references that account for the difference. -/
theorem recount {a count : Nat} (count' : Nat) {node : N} (roots' : List Nat) (hv : Valid h roots)
    (hcell : h.cell? a = some ⟨count, node⟩) (hpos : 0 < count')
    (hself : roots'.count a + count = roots.count a + count')
    (hothers : ∀ b ≠ a, roots'.count b = roots.count b) :
    Valid (h.setCell a (some ⟨count', node⟩)) roots' ∧
      ∀ kept : List Nat, (∀ b ∈ kept, b ∈ roots) → (∀ b ∈ kept, b ∈ roots') →
        Keeps h (h.setCell a (some ⟨count', node⟩)) kept := by
  have ha := lt_of_cell? hcell
  have hnode := node?_setCell_count hcell count'
  have hc' : Counted (h.setCell a (some ⟨count', node⟩)) roots' := {
    count_eq := fun b => by
      have hcount := hv.counted.count_eq b
      have hinner := count_inner_setCell (cell?_eq_some.1 hcell) (some ⟨count', node⟩) b
      simp only [held, Option.elim_some] at hinner
      unfold Heap.count at hcount ⊢
      rw [cell?_setCell ha]
      by_cases heq : b = a
      · rw [heq, hcell] at hcount
        rw [heq] at hinner ⊢
        simp only [if_true, Option.elim_some] at hcount ⊢
        omega
      · have := hothers b heq
        rw [if_neg heq]
        omega
    positive := fun b cell hcell' => by
      rw [cell?_setCell ha] at hcell'
      split at hcell'
      · cases hcell'
        exact hpos
      · exact hv.counted.positive b cell hcell'
    older := fun b stored hstored => by
      rw [hnode] at hstored
      exact hv.counted.older b stored hstored }
  exact ⟨hv.of_stays hc' fun b stored hstored => by rwa [hnode] at hstored,
    fun kept hsub hsub' => hv.counted.keeps hc' (stays_of_node?_eq hnode)
      (continues_setCell h a _) hsub hsub'⟩

/-- Where no node changes, everything allocated is kept. -/
theorem keeps_of_same {h' : Heap N} {roots' kept : List Nat} (hv : Valid h roots) (hv' : Valid h' roots')
    (hsame : ∀ b, h'.node? b = h.node? b) (hcontinues : Continues h h')
    (hlive : ∀ b ∈ kept, ∃ node, h.node? b = some node) : Keeps h h' kept where
  agree b hb := hv.counted.agree hv'.counted (stays_of_node?_eq hsame) (hlive b hb) (by
    rw [hsame]
    exact hlive b hb)
  continues := hcontinues

/-- Nothing happened. -/
theorem keeps_refl (hv : Valid h roots) : Keeps h h roots :=
  hv.keeps_of_same hv (fun _ => rfl) (.refl h) fun _ hb => hv.counted.live_of_root hb

/-- Copies leave the cells alone. -/
theorem copies (hv : Valid h roots) (n : Nat) : Valid (h.copies n) roots ∧ Keeps h (h.copies n) roots := by
  have hv' : Valid (h.copies n) roots := {
    counted := ⟨hv.counted.count_eq, hv.counted.positive, hv.counted.older⟩
    sound := fun a node hnode => Invariant.sound_local (hv.sound a node hnode) fun _ _ => rfl }
  exact ⟨hv', hv.keeps_of_same hv' (fun _ => rfl) ⟨rfl, Nat.le_refl _, Nat.le_add_right _ _⟩
    fun _ hb => hv.counted.live_of_root hb⟩

/-- One more root. -/
theorem clone {a : Nat} (hv : Valid h roots) (hlive : ∃ node, h.node? a = some node) :
    ∃ h', h.clone a = some h' ∧ Valid h' (a :: roots) ∧ Keeps h h' roots ∧
      ∀ b, h'.node? b = h.node? b := by
  obtain ⟨node, hnode⟩ := hlive
  obtain ⟨count, hcell⟩ := node?_eq_some.1 hnode
  obtain ⟨hv', hkeeps⟩ := hv.recount (count + 1) (a :: roots) hcell (Nat.succ_pos count)
    (by rw [List.count_cons_self]; omega)
    (fun b hb => List.count_cons_of_ne (Ne.symm hb))
  refine ⟨_, ?_, hv', hkeeps roots (fun b hb => hb) (fun b hb => List.mem_cons_of_mem _ hb),
    node?_setCell_count hcell (count + 1)⟩
  unfold Heap.clone
  rw [hcell]
  rfl

/-- More roots. -/
theorem cloneAll {as : List Nat} (hv : Valid h roots) (hlive : ∀ a ∈ as, ∃ node, h.node? a = some node) :
    ∃ h', h.cloneAll as = some h' ∧ Valid h' (as ++ roots) ∧ Keeps h h' roots ∧
      ∀ b, h'.node? b = h.node? b := by
  induction as generalizing h roots with
  | nil => exact ⟨h, rfl, hv, hv.keeps_refl, fun _ => rfl⟩
  | cons a as ih =>
    obtain ⟨h₁, hclone, hv₁, hk₁, hnode₁⟩ := hv.clone (hlive a (by simp))
    obtain ⟨h₂, hclones, hv₂, hk₂, hnode₂⟩ := ih hv₁ fun b hb => by
      rw [hnode₁]
      exact hlive b (List.mem_cons_of_mem _ hb)
    refine ⟨h₂, ?_, hv₂.perm ?_, hk₁.trans (hk₂.subset fun b hb => List.mem_cons_of_mem _ hb),
      fun b => (hnode₂ b).trans (hnode₁ b)⟩
    · rw [Heap.cloneAll, hclone]
      exact hclones
    · exact List.perm_middle.symm

/-- Giving up references never fails, and what is left is accounted for. -/
theorem dropAll (as : List Nat) (hv : Valid h (as ++ roots)) :
    ∃ h', h.dropAll as = some h' ∧ Valid h' roots ∧ Keeps h h' roots ∧ ∀ b, h'.count b ≤ h.count b := by
  induction h, as using Heap.dropAll.induct with
  | case1 h =>
    refine ⟨h, ?_, hv, hv.keeps_refl, fun b => Nat.le_refl _⟩
    rw [Heap.dropAll]
  | case2 h a as hnone =>
    obtain ⟨node, hnode⟩ := hv.counted.live_of_root (a := a) (by simp)
    obtain ⟨count, hcell⟩ := node?_eq_some.1 hnode
    rw [hnone] at hcell
    cases hcell
  | case3 h a as count node hcell hle ih =>
    obtain rfl : count = 1 := Nat.le_antisymm hle (hv.counted.positive a _ hcell)
    obtain ⟨hv₁, _, hk₁, _⟩ := hv.free hcell
    obtain ⟨h', hdrop, hv', hk', hle'⟩ := ih (by rwa [List.append_assoc])
    refine ⟨h', ?_, hv', (hk₁.subset fun b hb => ?_).trans hk', fun b => Nat.le_trans (hle' b) ?_⟩
    · rw [dropAll_last hcell hle]
      exact hdrop
    · exact List.mem_append_right _ (List.mem_append_right _ hb)
    · exact count_setCell_le (lt_of_cell? hcell) (Nat.zero_le _) b
  | case4 h a as count node hcell hmany ih =>
    obtain ⟨hv₁, hk₁⟩ := hv.recount (count - 1) (as ++ roots) hcell (by omega)
      (by rw [List.cons_append, List.count_cons_self]; omega)
      (fun b hb => by rw [List.cons_append, List.count_cons_of_ne (Ne.symm hb)])
    obtain ⟨h', hdrop, hv', hk', hle'⟩ := ih hv₁
    refine ⟨h', ?_, hv', (hk₁ roots ?_ ?_).trans hk', fun b => Nat.le_trans (hle' b) ?_⟩
    · rw [dropAll_further hcell (by omega)]
      exact hdrop
    · exact fun b hb => List.mem_cons_of_mem _ (List.mem_append_right _ hb)
    · exact fun b hb => List.mem_append_right _ hb
    · refine count_setCell_le (lt_of_cell? hcell) ?_ b
      rw [count_of_cell? hcell]
      exact Nat.sub_le count 1

/-- A node is moved back into the empty cell that it was taken from. -/
theorem restore {a : Nat} {node : N} (hv : Valid h (handles node ++ roots)) (ha : a < h.cells.length)
    (hdead : h.node? a = none) (hsound : Sound h node) (holder : ∀ c ∈ handles node, c < a) :
    Valid (h.restore a node) (a :: roots) ∧ (h.restore a node).node? a = some node ∧
      Keeps h (h.restore a node) (handles node ++ roots) := by
  have hcell : h.cell? a = none := Option.map_eq_none_iff.1 hdead
  have hget : h.cells[a]? = some none := by
    unfold cell? at hcell
    rw [List.getElem?_eq_getElem ha] at hcell ⊢
    exact congrArg some hcell
  have hnew : (h.restore a node).node? a = some node := by
    unfold Heap.restore node?
    rw [cell?_setCell ha, if_pos (by rfl)]
    rfl
  have hsame : ∀ b, b ≠ a → (h.restore a node).node? b = h.node? b := by
    intro b hb
    unfold Heap.restore node?
    rw [cell?_setCell ha, if_neg hb]
  have hstays : Stays h (h.restore a node) := by
    intro b before after hbefore hafter
    have hb : b ≠ a := fun heq => by
      rw [heq, hdead] at hbefore
      cases hbefore
    rw [hsame b hb, hbefore] at hafter
    exact (Option.some.inj hafter).symm
  have hc' : Counted (h.restore a node) (a :: roots) := {
    count_eq := fun b => by
      have hcount := hv.counted.count_eq b
      have hinner := count_inner_setCell hget (some ⟨1, node⟩) b
      rw [List.count_append] at hcount
      simp only [held, Option.elim_some, Option.elim_none, List.count_nil, Nat.add_zero] at hinner
      rw [List.count_cons]
      unfold Heap.restore
      unfold Heap.count at hcount ⊢
      rw [cell?_setCell ha]
      by_cases heq : b = a
      · rw [heq, hcell] at hcount
        rw [heq] at hinner ⊢
        simp only [beq_self_eq_true, if_true, Option.elim_some, Option.elim_none] at hcount ⊢
        omega
      · have hne : ¬ a = b := fun h => heq h.symm
        simp only [beq_iff_eq, hne, heq, if_false] at hcount ⊢
        omega
    positive := fun b cell hcell' => by
      unfold Heap.restore at hcell'
      rw [cell?_setCell ha] at hcell'
      split at hcell'
      · cases hcell'
        exact Nat.one_pos
      · exact hv.counted.positive b cell hcell'
    older := fun b stored hstored => by
      by_cases heq : b = a
      · rw [heq, hnew] at hstored
        cases hstored
        rw [heq]
        exact holder
      · rw [hsame b heq] at hstored
        exact hv.counted.older b stored hstored }
  have hlive : ∀ b, (∃ stored, h.node? b = some stored) → (h.restore a node).node? b = h.node? b := by
    rintro b ⟨stored, hstored⟩
    refine hsame b fun heq => ?_
    rw [heq, hdead] at hstored
    cases hstored
  have hkeeps : Keeps h (h.restore a node) (handles node ++ roots) := {
    agree := fun b hb => by
      have hbefore := hv.counted.live_of_root hb
      refine hv.counted.agree hc' hstays hbefore ?_
      rw [hlive b hbefore]
      exact hbefore
    continues := continues_setCell h a _ }
  refine ⟨⟨hc', fun b stored hstored => ?_⟩, hnew, hkeeps⟩
  by_cases heq : b = a
  · rw [heq, hnew] at hstored
    cases hstored
    exact sound_keeps hsound hkeeps fun c hc => List.mem_append_left _ hc
  · rw [hsame b heq] at hstored
    exact Invariant.sound_local (hv.sound b stored hstored) fun c hc =>
      hlive c (hv.counted.live_of_handle hstored hc)

end Valid

end Heap

end RcHeap
