import Rart.Lib.Rules

namespace RcHeap

open Heap

variable {N ε α : Type} [Holds N] [Invariant N]

/-- A view of a heap. -/
structure Part (h : Heap N) (v : View N) : Prop where
  valid : Valid v.heap v.own
  within : ∀ a node, v.heap.node? a = some node → h.node? a = some node
  length_le : v.heap.cells.length ≤ h.cells.length
  fresh_lt : ∀ a ∈ v.fresh, a < h.cells.length

/-- Cells that one program made are in its own view only. -/
structure Apart (v w : View N) : Prop where
  left : ∀ a ∈ v.fresh, w.heap.node? a = none ∧ a ∉ w.fresh
  right : ∀ a ∈ w.fresh, v.heap.node? a = none ∧ a ∉ v.fresh

omit [Holds N] [Invariant N] in
/-- Being apart goes both ways. -/
theorem Apart.symm {v w : View N} (hapart : Apart v w) : Apart w v := ⟨hapart.right, hapart.left⟩

/-- A heap that several programs run on, put together from the views that they have of it. -/
structure Union (h : Heap N) (views : List (View N)) : Prop where
  valid : Valid h (views.flatMap View.own)
  parts : ∀ v ∈ views, Part h v
  apart : views.Pairwise Apart

section Counting

omit [Invariant N] in
/-- A cell that no other cells refer to is referred to no more often. -/
theorem count_held_le {cells cells' : List (Option (Cell N))} {a : Nat}
    (hsame : ∀ (i : Nat) (cell : Option (Cell N)), cells[i]? = some cell → a ∈ held cell →
      ∃ cell', cells'[i]? = some cell' ∧ held cell' = held cell) :
    (cells.flatMap held).count a ≤ (cells'.flatMap held).count a := by
  induction cells generalizing cells' with
  | nil => exact Nat.zero_le _
  | cons cell cells ih =>
    rw [List.flatMap_cons, List.count_append]
    cases cells' with
    | nil =>
      have hfirst : a ∉ held cell := fun hmem => by
        obtain ⟨cell', hget, _⟩ := hsame 0 cell rfl hmem
        cases hget
      have hrest : _ ≤ (([] : List (Option (Cell N))).flatMap held).count a := ih fun i cell hget hmem => by
        obtain ⟨cell', hget', _⟩ := hsame (i + 1) cell hget hmem
        cases hget'
      rw [List.count_eq_zero_of_not_mem hfirst]
      omega
    | cons cell' cells' =>
      have hrest : _ ≤ (cells'.flatMap held).count a := ih fun i cell hget hmem => hsame (i + 1) cell hget hmem
      have hfirst : (held cell).count a ≤ (held cell').count a := by
        by_cases hmem : a ∈ held cell
        · obtain ⟨_, hget, heq⟩ := hsame 0 cell rfl hmem
          cases hget
          exact Nat.le_of_eq (congrArg (List.count a) heq.symm)
        · rw [List.count_eq_zero_of_not_mem hmem]
          exact Nat.zero_le _
      rw [List.flatMap_cons, List.count_append]
      omega

omit [Invariant N] in
/-- More nodes refer at least as often. -/
theorem inner_count_le {h h' : Heap N} {a : Nat}
    (hsame : ∀ b node, h.node? b = some node → a ∈ handles node → h'.node? b = some node) :
    h.inner.count a ≤ h'.inner.count a := by
  refine count_held_le fun i cell hget hmem => ?_
  cases cell with
  | none => cases hmem
  | some cell =>
    obtain ⟨count, node⟩ := cell
    obtain ⟨count', hcell'⟩ := node?_eq_some.1 (hsame i node (node?_of_cell? (cell?_eq_some.2 hget)) hmem)
    exact ⟨_, cell?_eq_some.1 hcell', rfl⟩

end Counting

namespace Part

variable {h h' : Heap N} {v : View N}

/-- What is below a cell of the view is in the view. -/
theorem live_of_below (hp : Part h v) {a b : Nat} (hlive : ∃ node, v.heap.node? a = some node)
    (hbelow : Below h a b) : ∃ node, v.heap.node? b = some node := by
  induction hbelow with
  | here _ => exact hlive
  | there hnode hc _ ih =>
    obtain ⟨node', hnode'⟩ := hlive
    obtain rfl := Option.some.inj (hnode.symm.trans (hp.within _ _ hnode'))
    exact ih (hp.valid.counted.live_of_handle hnode' hc)

/-- A view loses nothing while the cells that it refers to are kept. -/
theorem keeps (hp : Part h v) (hk : Keeps h h' v.own) : Part h' v where
  valid := hp.valid
  within a node hnode := by
    obtain ⟨r, hr, hbelow⟩ := hp.valid.counted.below_root hnode
    have hbelow' : Below h r a := by
      clear hr hnode
      induction hbelow with
      | here hnode => exact .here (hp.within _ _ hnode)
      | there hnode hc _ ih => exact .there (hp.within _ _ hnode) hc ih
    rw [((hk.agree r hr).carries hbelow').2.node?_eq]
    exact hp.within a node hnode
  length_le := Nat.le_trans hp.length_le hk.continues.length_le
  fresh_lt a ha := Nat.lt_of_lt_of_le (hp.fresh_lt a ha) hk.continues.length_le

/-- What a view owns it holds as the heap does. -/
theorem node?_of_own (hp : Part h v) {a : Nat} (ha : a ∈ v.own) : h.node? a = v.heap.node? a := by
  obtain ⟨node, hnode⟩ := hp.valid.counted.live_of_root ha
  rw [hnode, hp.within a node hnode]

/-- Below what a view owns the heap is as the view has it. -/
theorem agree (hp : Part h v) (hc : ∃ roots, Counted h roots) {a : Nat} (ha : a ∈ v.own) :
    Agree v.heap h a := by
  obtain ⟨roots, hc⟩ := hc
  obtain ⟨node, hnode⟩ := hp.valid.counted.live_of_root ha
  refine hp.valid.counted.agree hc (fun b before after hbefore hafter => ?_) ⟨node, hnode⟩
    ⟨node, hp.within a node hnode⟩
  exact Option.some.inj (hafter.symm.trans (hp.within b before hbefore))

end Part

namespace Union

variable {h h' : Heap N} {v : View N} {rest views views' : List (View N)}

/-- The parties in another order. -/
theorem perm (hu : Union h views) (hperm : views'.Perm views) : Union h views' where
  valid := hu.valid.perm (hperm.flatMap_right _)
  parts w hw := hu.parts w (hperm.mem_iff.1 hw)
  apart := (hperm.pairwise_iff Apart.symm).2 hu.apart

/-- Each view is a part of the heap. -/
theorem part (hu : Union h (v :: rest)) : Part h v := hu.parts v List.mem_cons_self

/-- Everything that is allocated is in some view. -/
theorem live_of (hu : Union h views) {a : Nat} {node : N} (hnode : h.node? a = some node) :
    ∃ w ∈ views, w.heap.node? a = some node := by
  obtain ⟨r, hr, hbelow⟩ := hu.valid.counted.below_root hnode
  obtain ⟨w, hw, hown⟩ := List.mem_flatMap.1 hr
  have hp := hu.parts w hw
  obtain ⟨node', hnode'⟩ := hp.live_of_below (hp.valid.counted.live_of_root hown) hbelow
  obtain rfl := Option.some.inj (hnode.symm.trans (hp.within a node' hnode'))
  exact ⟨w, hw, hnode'⟩

/-- The counts of a view are no higher than those of the heap. -/
theorem count_le (hu : Union h (v :: rest)) (a : Nat) : v.heap.count a ≤ h.count a := by
  rw [hu.part.valid.counted.count_eq, hu.valid.counted.count_eq, List.flatMap_cons, List.count_append]
  have hinner : v.heap.inner.count a ≤ h.inner.count a :=
    inner_count_le fun b node hnode _ => hu.part.within b node hnode
  omega

/-- Nobody else refers to a cell that a program made. -/
theorem count_of_fresh (hu : Union h (v :: rest)) {a : Nat} (ha : a ∈ v.fresh) : h.count a = v.heap.count a := by
  have hothers : ∀ w ∈ rest, w.heap.node? a = none := fun w hw =>
    ((List.pairwise_cons.1 hu.apart).1 w hw).left a ha |>.1
  have hroots : (rest.flatMap View.own).count a = 0 := by
    refine List.count_eq_zero_of_not_mem fun hmem => ?_
    obtain ⟨w, hw, hown⟩ := List.mem_flatMap.1 hmem
    obtain ⟨node, hnode⟩ := (hu.parts w (List.mem_cons_of_mem v hw)).valid.counted.live_of_root hown
    rw [hothers w hw] at hnode
    cases hnode
  have hinner : h.inner.count a ≤ v.heap.inner.count a := by
    refine inner_count_le fun b node hnode hmem => ?_
    obtain ⟨w, hw, hnode'⟩ := hu.live_of hnode
    obtain rfl | hw := List.mem_cons.1 hw
    · exact hnode'
    · obtain ⟨child, hchild⟩ :=
        (hu.parts w (List.mem_cons_of_mem v hw)).valid.counted.live_of_handle hnode' hmem
      rw [hothers w hw] at hchild
      cases hchild
  have hle := hu.count_le a
  rw [hu.part.valid.counted.count_eq, hu.valid.counted.count_eq, List.flatMap_cons, List.count_append] at hle ⊢
  omega

/-- A cell that a program made and that its view no longer has is free in the heap. -/
theorem dead_of_fresh (hu : Union h (v :: rest)) {a : Nat} (ha : a ∈ v.fresh) (hdead : v.heap.node? a = none) :
    h.node? a = none := by
  by_contra hlive
  obtain ⟨node, hnode⟩ := Option.ne_none_iff_exists'.1 hlive
  obtain ⟨w, hw, hnode'⟩ := hu.live_of hnode
  obtain rfl | hw := List.mem_cons.1 hw
  · rw [hdead] at hnode'
    cases hnode'
  · rw [(((List.pairwise_cons.1 hu.apart).1 w hw).left a ha).1] at hnode'
    cases hnode'

/-- After a step of one program, the views of the others are as they were. -/
theorem stepped {v' : View N} (hu : Union h (v :: rest)) (hv : Valid h' (v'.own ++ rest.flatMap View.own))
    (hk : Keeps h h' (rest.flatMap View.own)) (hp : Part h' v')
    (hfresh : ∀ a ∈ v'.fresh, a ∈ v.fresh ∨ h.cells.length ≤ a)
    (hlive : ∀ a, v.heap.node? a = none → v'.heap.node? a = none ∨ a ∈ v'.fresh) :
    Union h' (v' :: rest) where
  valid := hv
  parts w hw := by
    obtain rfl | hw := List.mem_cons.1 hw
    · exact hp
    · exact (hu.parts w (List.mem_cons_of_mem v hw)).keeps
        (hk.subset fun a ha => List.mem_flatMap.2 ⟨w, hw, ha⟩)
  apart := by
    obtain ⟨hfirst, hothers⟩ := List.pairwise_cons.1 hu.apart
    refine List.pairwise_cons.2 ⟨fun w hw => ?_, hothers⟩
    have hpw := hu.parts w (List.mem_cons_of_mem v hw)
    have hnew : ∀ a ∈ v'.fresh, w.heap.node? a = none ∧ a ∉ w.fresh := fun a ha => by
      cases hfresh a ha with
      | inl hold => exact (hfirst w hw).left a hold
      | inr hlen =>
        refine ⟨?_, fun hmem => ?_⟩
        · by_contra hlive
          obtain ⟨node, hnode⟩ := Option.ne_none_iff_exists'.1 hlive
          have := lt_of_node? (hpw.within a node hnode)
          omega
        · have := hpw.fresh_lt a hmem
          omega
    refine ⟨hnew, fun a ha => ?_⟩
    obtain ⟨hdead, _⟩ := (hfirst w hw).right a ha
    refine ⟨?_, fun hmem => (hnew a hmem).2 ha⟩
    cases hlive a hdead with
    | inl hnone => exact hnone
    | inr hmem => exact absurd ha (hnew a hmem).2

/-- A step that changes no node and leaves the view its cells. -/
theorem recounted {g : Heap N} {own : List Nat} (hu : Union h (v :: rest))
    (hv : Valid h' (own ++ rest.flatMap View.own)) (hk : Keeps h h' (rest.flatMap View.own))
    (hsame : ∀ a, h'.node? a = h.node? a) (hg : Valid g own) (hlen : g.cells.length = v.heap.cells.length)
    (hback : ∀ a node, g.node? a = some node → v.heap.node? a = some node) :
    Union h' (⟨g, own, v.fresh⟩ :: rest) := by
  refine hu.stepped hv hk ⟨hg, fun a node hnode => ?_, ?_, fun a ha => ?_⟩ (fun a ha => .inl ha)
    fun a hdead => .inl ?_
  · rw [hsame]
    exact hu.part.within a node (hback a node hnode)
  · exact Nat.le_trans (Nat.le_of_eq hlen) (Nat.le_trans hu.part.length_le hk.continues.length_le)
  · exact Nat.lt_of_lt_of_le (hu.part.fresh_lt a ha) hk.continues.length_le
  · by_contra hlive
    obtain ⟨node, hnode⟩ := Option.ne_none_iff_exists'.1 hlive
    rw [hback a node hnode] at hdead
    cases hdead

/-- The heap is valid for what all views own. -/
theorem valid_cons (hu : Union h (v :: rest)) : Valid h (v.own ++ rest.flatMap View.own) := hu.valid

/-- A view of nothing. -/
theorem empty_view (hu : Union h views) : Union h (⟨Heap.empty, [], []⟩ :: views) where
  valid := hu.valid
  parts w hw := by
    obtain rfl | hw := List.mem_cons.1 hw
    · exact ⟨Valid.empty, fun a node hnode => (nomatch hnode), Nat.zero_le _, fun a ha => (nomatch ha)⟩
    · exact hu.parts w hw
  apart := List.pairwise_cons.2
    ⟨fun w _ => ⟨fun a ha => (nomatch ha), fun a _ => ⟨rfl, List.not_mem_nil⟩⟩, hu.apart⟩

/-- A program that has ended holds nothing. -/
theorem tail (hu : Union h (v :: rest)) (hown : v.own = []) : Union h rest where
  valid := by
    have hv := hu.valid_cons
    rwa [hown] at hv
  parts w hw := hu.parts w (List.mem_cons_of_mem v hw)
  apart := (List.pairwise_cons.1 hu.apart).2

/-- Cells that a program made need not be its own forever. -/
theorem published (hu : Union h (v :: rest)) : Union h (⟨v.heap, v.own, []⟩ :: rest) where
  valid := hu.valid
  parts w hw := by
    obtain rfl | hw := List.mem_cons.1 hw
    · exact ⟨hu.part.valid, hu.part.within, hu.part.length_le, fun a ha => (nomatch ha)⟩
    · exact hu.parts w (List.mem_cons_of_mem v hw)
  apart := by
    obtain ⟨hfirst, hothers⟩ := List.pairwise_cons.1 hu.apart
    exact List.pairwise_cons.2 ⟨fun w hw => ⟨fun a ha => (nomatch ha), fun a ha =>
      ⟨((hfirst w hw).right a ha).1, List.not_mem_nil⟩⟩, hothers⟩

/-- Further references to all that a view refers to make a second view of the same cells. -/
theorem twin (hu : Union h (v :: rest)) (hfresh : v.fresh = []) :
    ∃ h', h.cloneAll v.own = some h' ∧ Union h' (v :: v :: rest) := by
  obtain ⟨h', hclones, hv, hk, _⟩ := hu.valid_cons.cloneAll fun a (ha : a ∈ v.own) =>
    hu.valid_cons.counted.live_of_root (List.mem_append_left _ ha)
  have hpart : ∀ w ∈ v :: rest, Part h' w := fun w hw =>
    (hu.parts w hw).keeps (hk.subset fun a ha => List.mem_flatMap.2 ⟨w, hw, ha⟩)
  obtain ⟨hfirst, hothers⟩ := List.pairwise_cons.1 hu.apart
  refine ⟨h', hclones, hv, fun w hw => ?_, List.pairwise_cons.2 ⟨fun w hw => ?_, hu.apart⟩⟩
  · obtain rfl | hw := List.mem_cons.1 hw
    · exact hpart w List.mem_cons_self
    · exact hpart w hw
  · obtain rfl | hw := List.mem_cons.1 hw
    · have hnone : ∀ a, a ∉ w.fresh := fun a ha => by
        rw [hfresh] at ha
        cases ha
      exact ⟨fun a ha => (hnone a ha).elim, fun a ha => (hnone a ha).elim⟩
    · exact hfirst w hw

/-- The one reference to a cell is given up in the heap and in the view. -/
theorem freed {a : Nat} {node : N} {own : List Nat} (hu : Union h (v :: rest)) (hperm : v.own.Perm (a :: own))
    (hcell : h.cell? a = some ⟨1, node⟩) (hone : v.heap.cell? a = some ⟨1, node⟩) :
    Union (h.setCell a none) (⟨v.heap.setCell a none, handles node ++ own, v.fresh⟩ :: rest) := by
  have hv : Valid h (a :: (own ++ rest.flatMap View.own)) := hu.valid_cons.perm (hperm.symm.append_right _)
  obtain ⟨hv', _, hk, _⟩ := hv.free hcell
  obtain ⟨hg, _, _, _⟩ := (hu.part.valid.perm hperm.symm).free hone
  have ha := lt_of_cell? hcell
  have ha' := lt_of_cell? hone
  have hback : ∀ b stored, (v.heap.setCell a none).node? b = some stored → b ≠ a ∧ v.heap.node? b = some stored := by
    intro b stored hstored
    unfold node? at hstored ⊢
    rw [cell?_setCell ha'] at hstored
    split at hstored
    · cases hstored
    · rename_i hne
      exact ⟨hne, hstored⟩
  refine hu.stepped ?_ (hk.subset fun b hb => ?_) ⟨hg, fun b stored hstored => ?_, ?_, fun b hb => ?_⟩
    (fun b hb => .inl hb) fun b hdead => .inl ?_
  · rw [List.append_assoc]
    exact hv'
  · exact List.mem_append_right _ (List.mem_append_right _ hb)
  · obtain ⟨hne, hbefore⟩ := hback b stored hstored
    unfold node?
    rw [cell?_setCell ha, if_neg hne]
    exact hu.part.within b stored hbefore
  · exact Nat.le_trans (Nat.le_of_eq List.length_set)
      (Nat.le_trans hu.part.length_le (Nat.le_of_eq List.length_set.symm))
  · exact Nat.lt_of_lt_of_le (hu.part.fresh_lt b hb) (Nat.le_of_eq List.length_set.symm)
  · by_contra hlive
    obtain ⟨stored, hstored⟩ := Option.ne_none_iff_exists'.1 hlive
    rw [(hback b stored hstored).2] at hdead
    cases hdead

/-- A cell with one reference in the heap has one in the view. -/
theorem cell?_one {a : Nat} {node : N} (hu : Union h (v :: rest)) (hown : a ∈ v.own)
    (hcell : h.cell? a = some ⟨1, node⟩) : v.heap.cell? a = some ⟨1, node⟩ := by
  obtain ⟨node', hnode'⟩ := hu.part.valid.counted.live_of_root hown
  obtain rfl := Option.some.inj ((node?_of_cell? hcell).symm.trans (hu.part.within a node' hnode'))
  obtain ⟨count, hone⟩ := node?_eq_some.1 hnode'
  have hle := hu.count_le a
  rw [count_of_cell? hcell, count_of_cell? hone] at hle
  have hpos : 0 < count := hu.part.valid.counted.positive a _ hone
  obtain rfl : count = 1 := by omega
  exact hone

end Union

namespace Program

variable {post : α → View N → Prop} {h : Heap N} {v : View N} {rest : List (View N)}

section Progress

/-- How a program may go on after its next access. -/
inductive Follows : Program N ε α → Program N ε α → Prop where
  | read (a : Nat) (k : N → Program N ε α) (node : N) : Follows (k node) (read a k)
  | clone (a : Nat) (k : Program N ε α) : Follows k (clone a k)
  | take (a : Nat) (k : Option N → Program N ε α) (taken : Option N) : Follows (k taken) (take a k)
  | alloc (node : N) (k : Nat → Program N ε α) (a : Nat) : Follows (k a) (alloc node k)
  | release (as : List Nat) (k : Program N ε α) : Follows k (release as k)
  | restore (a : Nat) (node : N) (k : Program N ε α) : Follows k (restore a node k)
  | copied (n : Nat) (k : Program N ε α) : Follows k (copied n k)

/-- A step brings a program closer to its end, with the heap that it sees. The references that
a node held are given up after it, but the node is gone. -/
inductive Later : Program N ε α × View N → Program N ε α × View N → Prop where
  | follows {p k : Program N ε α} (hfollows : Follows k p) (v v' : View N) : Later (k, v') (p, v)
  | release {as as' : List Nat} {v v' : View N} (k : Program N ε α)
      (hlt : Prod.Lex (· < ·) (· < ·) (v'.heap.live, as'.length) (v.heap.live, as.length)) :
      Later (release as' k, v') (release as k, v)

omit [Holds N] [Invariant N] in
/-- A program that is not at a release ends when each of its continuations does. -/
theorem acc_of_follows {p : Program N ε α} (hp : ∀ as k, p ≠ release as k)
    (hacc : ∀ k v, Follows k p → Acc Later (k, v)) (v : View N) : Acc Later (p, v) :=
  Acc.intro _ fun y hlater => by
    cases hlater with
    | follows hfollows _ v' => exact hacc _ v' hfollows
    | release k hlt => exact (hp _ _ rfl).elim

omit [Holds N] [Invariant N] in
/-- No program makes steps without end. -/
theorem acc_later (p : Program N ε α) (v : View N) : Acc Later (p, v) := by
  induction p generalizing v with
  | done a => exact acc_of_follows (by rintro _ _ ⟨⟩) (by rintro _ _ ⟨⟩) v
  | fail e => exact acc_of_follows (by rintro _ _ ⟨⟩) (by rintro _ _ ⟨⟩) v
  | read a k ih => exact acc_of_follows (by rintro _ _ ⟨⟩) (by rintro _ v ⟨⟩; exact ih _ v) v
  | clone a k ih => exact acc_of_follows (by rintro _ _ ⟨⟩) (by rintro _ v ⟨⟩; exact ih v) v
  | take a k ih => exact acc_of_follows (by rintro _ _ ⟨⟩) (by rintro _ v ⟨⟩; exact ih _ v) v
  | alloc node k ih => exact acc_of_follows (by rintro _ _ ⟨⟩) (by rintro _ v ⟨⟩; exact ih _ v) v
  | release as k ih =>
    -- the references that are left, once the program after them is known to end
    generalize hrank : (v.heap.live, as.length) = rank
    induction rank using (Prod.lex Nat.lt_wfRel Nat.lt_wfRel).wf.induction generalizing as v with
    | _ rank inner =>
      refine Acc.intro _ fun y hlater => ?_
      cases hlater with
      | follows hfollows _ v' =>
        cases hfollows
        exact ih v'
      | release _ hlt => exact inner _ (hrank ▸ hlt) _ _ rfl
  | restore a node k ih => exact acc_of_follows (by rintro _ _ ⟨⟩) (by rintro _ v ⟨⟩; exact ih v) v
  | copied n k ih => exact acc_of_follows (by rintro _ _ ⟨⟩) (by rintro _ v ⟨⟩; exact ih v) v

end Progress

/-- What is left of a safe program after a step. -/
def Goes (post : α → View N → Prop) (h : Heap N) (p : Program N ε α) (v : View N) (rest : List (View N)) : Prop :=
  ∃ p' h' v', p.step h = some (p', h') ∧ p'.Safe post v' ∧ Later (p', v') (p, v) ∧ Union h' (v' :: rest)

/-- The step at a `clone`. -/
theorem goes_clone {a : Nat} {k : Program N ε α} (hu : Union h (v :: rest)) (hs : (clone a k).Safe post v) :
    Goes post h (clone a k) v rest := by
  obtain ⟨g, hclone, hk⟩ := hs
  obtain ⟨cell, hcell, rfl⟩ := Option.map_eq_some_iff.1 hclone
  have hlive : ∃ node, v.heap.node? a = some node := ⟨cell.node, node?_eq_some.2 ⟨cell.count, hcell⟩⟩
  obtain ⟨g', hclone', hg, _, hsame'⟩ := hu.part.valid.clone hlive
  obtain rfl := Option.some.inj (hclone.symm.trans hclone')
  obtain ⟨node, hnode⟩ := hlive
  obtain ⟨h', hclone'', hv, hkeeps, hsame⟩ := hu.valid_cons.clone ⟨node, hu.part.within a node hnode⟩
  refine ⟨k, h', _, ?_, hk, .follows (.clone a k) _ _,
    hu.recounted hv (hkeeps.subset fun b hb => List.mem_append_right _ hb) hsame hg List.length_set
      fun b stored hstored => (hsame' b).symm.trans hstored⟩
  simp only [step, hclone'', Option.map_some]

/-- The step at a `take`: a cell that seems shared may not be so. -/
theorem goes_take {a : Nat} {k : Option N → Program N ε α} (hu : Union h (v :: rest))
    (hs : (take a k).Safe post v) : Goes post h (take a k) v rest := by
  obtain ⟨own, node, hperm, hnode, hsome, hnone⟩ := hs
  obtain ⟨count, hcell⟩ := node?_eq_some.1 (hu.part.within a node hnode)
  have hown : a ∈ v.own := hperm.mem_iff.2 List.mem_cons_self
  by_cases hone : count = 1
  · subst hone
    have hone := hu.cell?_one hown hcell
    refine ⟨k (some node), h.setCell a none, _, ?_, hsome (count_of_cell? hone), .follows (.take a k _) _ _,
      hu.freed hperm hcell hone⟩
    simp only [step, Heap.take, hcell, Option.map_some, if_true]
  · refine ⟨k none, h, v, ?_, hnone fun ⟨hfresh, hcount⟩ => hone ?_, .follows (.take a k none) _ _, hu⟩
    · simp only [step, Heap.take, hcell, Option.map_some, if_neg hone]
    · rw [← hu.count_of_fresh hfresh, count_of_cell? hcell] at hcount
      exact hcount

/-- The step at an `alloc`. -/
theorem goes_alloc {node : N} {k : Nat → Program N ε α} (hu : Union h (v :: rest))
    (hs : (alloc node k).Safe post v) : Goes post h (alloc node k) v rest := by
  obtain ⟨own, hperm, hsound, hk⟩ := hs
  have hg : Valid v.heap (handles node ++ own) := hu.part.valid.perm hperm.symm
  have hv : Valid h (handles node ++ (own ++ rest.flatMap View.own)) := by
    rw [← List.append_assoc]
    exact hu.valid_cons.perm (hperm.symm.append_right _)
  have hsound' : Sound h node := Invariant.sound_local hsound fun c hc =>
    hu.part.node?_of_own (hperm.mem_iff.2 (List.mem_append_left _ hc))
  obtain ⟨hv', hnode, hkeeps⟩ := hv.alloc hsound'
  obtain ⟨hg', _⟩ := hg.allocAt hsound hu.part.length_le
  have hnode' : ∀ b, (v.heap.allocAt h.cells.length node).node? b =
      if b = h.cells.length then some node else v.heap.node? b := fun b => by
    unfold node?
    rw [cell?_allocAt hu.part.length_le]
    split <;> rfl
  refine ⟨k h.cells.length, (h.alloc node).2, _, rfl, hk _ hu.part.length_le, .follows (.alloc node k _) _ _,
    hu.stepped hv' (hkeeps.subset fun b hb => List.mem_append_right _ (List.mem_append_right _ hb))
      ⟨hg', fun b stored hstored => ?_, ?_, fun b hb => ?_⟩ (fun b hb => ?_) fun b hdead => ?_⟩
  · rw [hnode'] at hstored
    split at hstored
    · rename_i heq
      rw [heq, ← hstored]
      exact hnode
    · rename_i hne
      have hbefore := hu.part.within b stored hstored
      unfold node? at hbefore ⊢
      rw [cell?_alloc, if_neg hne]
      exact hbefore
  · simp only [allocAt, Heap.alloc, List.length_append, length_pad hu.part.length_le]
    exact Nat.le_refl _
  · simp only [Heap.alloc, List.length_append, List.length_singleton]
    obtain rfl | hb := List.mem_cons.1 hb
    · omega
    · have := hu.part.fresh_lt b hb
      omega
  · obtain rfl | hb := List.mem_cons.1 hb
    · exact .inr (Nat.le_refl _)
    · exact .inl hb
  · by_cases heq : b = h.cells.length
    · exact .inr (heq ▸ List.mem_cons_self)
    · refine .inl ?_
      rw [hnode', if_neg heq]
      exact hdead

/-- The step at a `release`, one reference of which is given up. -/
theorem goes_release {as : List Nat} {k : Program N ε α} (hu : Union h (v :: rest))
    (hs : (release as k).Safe post v) : Goes post h (release as k) v rest := by
  obtain ⟨own, g, hperm, hdrop, hk⟩ := hs
  cases as with
  | nil =>
    rw [dropAll, Option.some.injEq] at hdrop
    subst hdrop
    exact ⟨k, h, _, rfl, hk, .follows (.release [] k) _ _, hu.recounted (hu.valid_cons.perm (hperm.symm.append_right _))
      (hu.valid.keeps_refl.subset fun b hb => List.mem_append_right _ hb) (fun _ => rfl)
      (hu.part.valid.perm hperm.symm) rfl fun _ _ hnode => hnode⟩
  | cons a as =>
    have hown : a ∈ v.own := hperm.mem_iff.2 List.mem_cons_self
    obtain ⟨node, hnode⟩ := hu.part.valid.counted.live_of_root hown
    obtain ⟨count, hcell⟩ := node?_eq_some.1 (hu.part.within a node hnode)
    by_cases hle : count ≤ 1
    · -- the view gives up its last reference as well
      obtain rfl : count = 1 := Nat.le_antisymm hle (hu.valid.counted.positive a _ hcell)
      have hone := hu.cell?_one hown hcell
      rw [dropAll_last hone (Nat.le_refl 1)] at hdrop
      have hperm : v.own.Perm (a :: (as ++ own)) := hperm
      refine ⟨release (handles node ++ as) k, h.setCell a none,
        ⟨v.heap.setCell a none, handles node ++ (as ++ own), v.fresh⟩, ?_, ⟨own, g, ?_, hdrop, hk⟩,
        .release k (.left _ _ (live_setCell_none hone)), hu.freed hperm hcell hone⟩
      · simp only [step, hcell, Option.map_some, if_pos hle]
      · rw [List.append_assoc]
    · -- the cell stays in the heap, and may still go from the view
      have hv : Valid h (a :: (as ++ own) ++ rest.flatMap View.own) :=
        hu.valid_cons.perm (hperm.symm.append_right _)
      obtain ⟨hv', hkeeps⟩ := hv.recount (count - 1) (as ++ own ++ rest.flatMap View.own) hcell (by omega)
        (by rw [List.cons_append, List.count_cons_self]; omega)
        (fun b hb => by rw [List.cons_append, List.count_cons_of_ne (Ne.symm hb)])
      have hg : Valid v.heap ([a] ++ (as ++ own)) := hu.part.valid.perm hperm.symm
      obtain ⟨g₁, hfirst, hg₁, _, _⟩ := hg.dropAll [a]
      rw [show a :: as = [a] ++ as from rfl, dropAll_append, hfirst, Option.bind_some] at hdrop
      obtain ⟨hlen, hback⟩ := node?_of_dropAll hfirst
      have hlt : Prod.Lex (· < ·) (· < ·) (g₁.live, as.length) (v.heap.live, (a :: as).length) :=
        Prod.Lex.right' _ (live_dropAll_le hfirst) (Nat.lt_succ_self as.length)
      refine ⟨release as k, h.setCell a (some ⟨count - 1, node⟩), ⟨g₁, as ++ own, v.fresh⟩, ?_,
        ⟨own, g, List.Perm.refl _, hdrop, hk⟩, .release k hlt,
        hu.recounted hv'
          (hkeeps _ (fun b hb => List.mem_append_right _ hb) fun b hb => List.mem_append_right _ hb)
          (node?_setCell_count hcell _) hg₁ hlen hback⟩
      simp only [step, hcell, Option.map_some, if_neg hle]

/-- The step at a `restore`. -/
theorem goes_restore {a : Nat} {node : N} {k : Program N ε α} (hu : Union h (v :: rest))
    (hs : (restore a node k).Safe post v) : Goes post h (restore a node k) v rest := by
  obtain ⟨own, hperm, hsound, ⟨ha, hdead, hfresh, holder⟩, hk⟩ := hs
  have hg : Valid v.heap (handles node ++ own) := hu.part.valid.perm hperm.symm
  have hv : Valid h (handles node ++ (own ++ rest.flatMap View.own)) := by
    rw [← List.append_assoc]
    exact hu.valid_cons.perm (hperm.symm.append_right _)
  have hsound' : Sound h node := Invariant.sound_local hsound fun c hc =>
    hu.part.node?_of_own (hperm.mem_iff.2 (List.mem_append_left _ hc))
  have hdead' := hu.dead_of_fresh hfresh hdead
  have ha' : a < h.cells.length := Nat.lt_of_lt_of_le ha hu.part.length_le
  obtain ⟨hv', hnode, hkeeps⟩ := hv.restore ha' hdead' hsound' holder
  obtain ⟨hg', _, _⟩ := hg.restore ha hdead hsound holder
  have hnode' : ∀ b, (v.heap.restore a node).node? b = if b = a then some node else v.heap.node? b :=
    fun b => by
      unfold Heap.restore node?
      rw [cell?_setCell ha]
      split <;> rfl
  refine ⟨k, h.restore a node, _, ?_, hk, .follows (.restore a node k) _ _,
    hu.stepped hv' (hkeeps.subset fun b hb => List.mem_append_right _ (List.mem_append_right _ hb))
      ⟨hg', fun b stored hstored => ?_, ?_, fun b hb => ?_⟩ (fun b hb => .inl hb) fun b hnone => ?_⟩
  · simp only [step, hdead', Option.isNone_none, ha', and_self, if_true]
  · rw [hnode'] at hstored
    split at hstored
    · rename_i heq
      rw [heq, ← hstored]
      exact hnode
    · rename_i hne
      have hbefore := hu.part.within b stored hstored
      unfold Heap.restore node? at *
      rw [cell?_setCell ha', if_neg hne]
      exact hbefore
  · exact Nat.le_trans (Nat.le_of_eq List.length_set)
      (Nat.le_trans hu.part.length_le (Nat.le_of_eq List.length_set.symm))
  · exact Nat.lt_of_lt_of_le (hu.part.fresh_lt b hb) (Nat.le_of_eq List.length_set.symm)
  · by_cases heq : b = a
    · exact .inr (heq ▸ hfresh)
    · refine .inl ?_
      rw [hnode', if_neg heq]
      exact hnone

/-- A safe program has ended as it should, or makes a step after which it is safe; and the
views of the others stay as they are. -/
theorem Safe.goes {p : Program N ε α} (hs : p.Safe post v) (hu : Union h (v :: rest)) :
    (∃ a, p = done a ∧ post a v) ∨ Goes post h p v rest := by
  cases p with
  | done a => exact .inl ⟨a, rfl, hs⟩
  | fail e => exact hs.elim
  | read a k =>
    obtain ⟨node, hnode, hk⟩ := hs
    refine .inr ⟨k node, h, v, ?_, hk, .follows (.read a k node) _ _, hu⟩
    simp only [step, hu.part.within a node hnode, Option.map_some]
  | clone a k => exact .inr (goes_clone hu hs)
  | take a k => exact .inr (goes_take hu hs)
  | alloc node k => exact .inr (goes_alloc hu hs)
  | release as k => exact .inr (goes_release hu hs)
  | restore a node k => exact .inr (goes_restore hu hs)
  | copied n k =>
    obtain ⟨hv, hkeeps⟩ := hu.valid_cons.copies n
    obtain ⟨hg, _⟩ := hu.part.valid.copies n
    exact .inr ⟨k, h.copies n, _, rfl, hs, .follows (.copied n k) _ _, hu.recounted hv
      (hkeeps.subset fun b hb => List.mem_append_right _ hb) (fun _ => rfl) hg rfl fun _ _ hnode => hnode⟩

/-- A program that only reads leaves the heap alone, and others do not change what it reads. -/
theorem Returns.goes {p : Program N ε α} {x : α} (hp : p.Returns v.heap x) (hpart : Part h v) :
    p = done x ∨ ∃ p', p.step h = some (p', h) ∧ p'.Returns v.heap x := by
  cases p with
  | done a =>
    obtain rfl : a = x := hp
    exact .inl rfl
  | read a k =>
    obtain ⟨node, hnode, hk⟩ := hp
    refine .inr ⟨k node, ?_, hk⟩
    simp only [step, hpart.within a node hnode, Option.map_some]
  | fail _ => exact hp.elim
  | clone _ _ => exact hp.elim
  | take _ _ => exact hp.elim
  | alloc _ _ => exact hp.elim
  | release _ _ => exact hp.elim
  | restore _ _ _ => exact hp.elim
  | copied _ _ => exact hp.elim

/-- A program that only reads gets on whatever the others do. -/
theorem ReturnsWithin.goes {p : Program N ε α} {x : α} {n : Nat} (hp : p.ReturnsWithin v.heap x n)
    (hpart : Part h v) :
    p = done x ∨ ∃ p' m, n = m + 1 ∧ p.step h = some (p', h) ∧ p'.ReturnsWithin v.heap x m := by
  cases p with
  | done a =>
    obtain rfl : a = x := by cases n <;> exact hp
    exact .inl rfl
  | read a k =>
    cases n with
    | zero => exact hp.elim
    | succ m =>
      obtain ⟨node, hnode, hk⟩ := hp
      refine .inr ⟨k node, m, rfl, ?_, hk⟩
      simp only [step, hpart.within a node hnode, Option.map_some]
  | _ => cases n <;> exact hp.elim

end Program

end RcHeap
