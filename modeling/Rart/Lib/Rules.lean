import Rart.Lib.Program

namespace RcHeap

open Heap

variable {N ε α β : Type} [Holds N]

/-- The counts of a heap leave no choice of its roots. -/
theorem Heap.Counted.perm {h : Heap N} {roots roots' : List Nat} (hc : Counted h roots)
    (hc' : Counted h roots') : roots.Perm roots' := by
  refine List.perm_iff_count.2 fun a => ?_
  have hcount := hc.count_eq a
  have hcount' := hc'.count_eq a
  omega

variable [Invariant N]

namespace Program

/-- A program that is safe on a heap, with all the references that are not stored there. What it
made before, it made. A valid heap determines which references a program holds, so they are not
spelt out. -/
def Leads (p : Program N ε α) (h : Heap N) (fresh : List Nat)
    (post : α → Heap N → List Nat → Prop) : Prop :=
  ∀ own, Valid h own → p.Safe
    (fun a v => Valid v.heap v.own ∧ (∀ b ∈ fresh, b ∈ v.fresh) ∧ post a v.heap v.fresh) ⟨h, own, fresh⟩

variable {p : Program N ε α} {f : α → Program N ε β} {h h' : Heap N} {fresh roots : List Nat} {a : Nat}
  {node : N} {post : β → Heap N → List Nat → Prop} {mid : α → Heap N → List Nat → Prop}

/-- The rule of a result. -/
theorem leads_done {x : β} (hpost : post x h fresh) : (done x : Program N ε β).Leads h fresh post :=
  fun _ hv => ⟨hv, fun _ hb => hb, hpost⟩

/-- The rule of consequence. -/
theorem Leads.mono {post' : α → Heap N → List Nat → Prop} (hp : p.Leads h fresh mid)
    (himp : ∀ x h' fresh', (∀ b ∈ fresh, b ∈ fresh') → mid x h' fresh' → post' x h' fresh') :
    p.Leads h fresh post' := fun own hv =>
  (hp own hv).mono fun _ _ ⟨hvalid, hsub, hmid⟩ => ⟨hvalid, hsub, himp _ _ _ hsub hmid⟩

/-- The rule of sequence. -/
theorem Leads.bind (hp : p.Leads h fresh mid)
    (hf : ∀ x h' fresh', (∀ b ∈ fresh, b ∈ fresh') → mid x h' fresh' → (f x).Leads h' fresh' post) :
    (p >>= f).Leads h fresh post := fun own hv =>
  (hp own hv).bind fun _ _ ⟨hvalid, hsub, hmid⟩ => (hf _ _ _ hsub hmid _ hvalid).mono
    fun _ _ ⟨hvalid', hsub', hpost⟩ => ⟨hvalid', fun b hb => hsub' b (hsub b hb), hpost⟩

/-- The rule of a read. -/
theorem leads_read {f : N → Program N ε β} (hnode : h.node? a = some node) (hf : (f node).Leads h fresh post) :
    (readCell a >>= f).Leads h fresh post := fun own hv => ⟨node, hnode, hf own hv⟩

/-- A node is taken out of its cell, or the cell seems to be shared. -/
theorem leads_take {f : Option N → Program N ε β} (hv : Valid h (a :: roots)) (hnode : h.node? a = some node)
    (hmoved : h.cell? a = some ⟨1, node⟩ → (f (some node)).Leads (h.setCell a none) fresh post)
    (hshared : ¬ (a ∈ fresh ∧ h.count a = 1) → (f none).Leads h fresh post) :
    (takeCell a >>= f).Leads h fresh post := by
  intro own hown
  refine ⟨roots, node, hown.counted.perm hv.counted, hnode, fun hone => ?_, fun hseems => hshared hseems own hown⟩
  obtain ⟨count, hcell⟩ := node?_eq_some.1 hnode
  obtain rfl : count = 1 := (count_of_cell? hcell).symm.trans hone
  obtain ⟨hv', _, _, _⟩ := hv.free hcell
  exact hmoved hcell _ hv'

/-- Where a program has made a cell, and holds the one reference to it, nobody else does. -/
theorem leads_take_own {f : Option N → Program N ε β} (hv : Valid h (a :: roots)) (hcell : h.cell? a = some ⟨1, node⟩)
    (hfresh : a ∈ fresh) (hf : (f (some node)).Leads (h.setCell a none) fresh post) :
    (takeCell a >>= f).Leads h fresh post :=
  leads_take hv (node?_of_cell? hcell) (fun _ => hf) fun hseems => (hseems ⟨hfresh, count_of_cell? hcell⟩).elim

/-- The rule of a new cell. -/
theorem leads_alloc {f : Nat → Program N ε β} (hv : Valid h (handles node ++ roots)) (hsound : Sound h node)
    (hf : ∀ n, h.cells.length ≤ n → (f n).Leads (h.allocAt n node) (n :: fresh) post) :
    (allocCell node >>= f).Leads h fresh post := fun _ hown =>
  ⟨roots, hown.counted.perm hv.counted, hsound, fun n hn =>
    (hf n hn _ (hv.allocAt hsound hn).1).mono fun _ _ ⟨hvalid, hsub, hpost⟩ =>
      ⟨hvalid, fun b hb => hsub b (List.mem_cons_of_mem n hb), hpost⟩⟩

/-- The rule of references that are given up. -/
theorem leads_release {f : Unit → Program N ε β} {as : List Nat} (hv : Valid h (as ++ roots))
    (hdrop : h.dropAll as = some h') (hf : (f ()).Leads h' fresh post) :
    (releaseAll as >>= f).Leads h fresh post := by
  intro own hown
  obtain ⟨h'', hdrop', hv', _, _⟩ := hv.dropAll as
  obtain rfl := Option.some.inj (hdrop.symm.trans hdrop')
  exact ⟨roots, h', hown.counted.perm hv.counted, hdrop, hf roots hv'⟩

/-- The rule of a node that is moved back. -/
theorem leads_restore {f : Unit → Program N ε β} (hv : Valid h (handles node ++ roots)) (hsound : Sound h node)
    (ha : a < h.cells.length) (hdead : h.node? a = none) (hfresh : a ∈ fresh)
    (holder : ∀ c ∈ handles node, c < a) (hf : (f ()).Leads (h.restore a node) fresh post) :
    (restoreCell a node >>= f).Leads h fresh post := fun _ hown =>
  ⟨roots, hown.counted.perm hv.counted, hsound, ⟨ha, hdead, hfresh, holder⟩,
    hf (a :: roots) (hv.restore ha hdead hsound holder).1⟩

/-- The rule of copies that are counted. -/
theorem leads_copies {f : Unit → Program N ε β} (n : Nat) (hf : (f ()).Leads (h.copies n) fresh post) :
    (copies n >>= f).Leads h fresh post := fun own hown => hf own (hown.copies n).1

/-- The rule of further references. -/
theorem leads_cloneAll {f : Unit → Program N ε β} {as : List Nat} (hclone : h.cloneAll as = some h')
    (hf : (f ()).Leads h' fresh post) : (cloneAll as >>= f).Leads h fresh post := by
  induction as generalizing h with
  | nil =>
    cases hclone
    exact hf
  | cons a as ih =>
    obtain ⟨h₁, hone, hrest⟩ := Option.bind_eq_some_iff.1 hclone
    intro own hown
    obtain ⟨cell, hcell, _⟩ := Option.map_eq_some_iff.1 hone
    obtain ⟨h₁', hone', hv₁, _⟩ := hown.clone ⟨cell.node, node?_eq_some.2 ⟨cell.count, hcell⟩⟩
    obtain rfl := Option.some.inj (hone.symm.trans hone')
    exact ⟨h₁, hone, ih hrest _ hv₁⟩

section Reads

/-- A program that only reads, and what it returns. -/
def Returns (h : Heap N) (x : α) : Program N ε α → Prop
  | done a => a = x
  | read a k => ∃ node, h.node? a = some node ∧ (k node).Returns h x
  | _ => False

/-- A program that only reads, before another one. -/
theorem Returns.leads {x : α} (hp : p.Returns h x) (hf : (f x).Leads h fresh post) :
    (p >>= f).Leads h fresh post := by
  induction p with
  | done a =>
    obtain rfl : a = x := hp
    exact hf
  | read a k ih =>
    obtain ⟨node, hnode, hk⟩ := hp
    exact fun own hv => ⟨node, hnode, ih node hk own hv⟩
  | fail _ => exact hp.elim
  | clone _ _ => exact hp.elim
  | take _ _ => exact hp.elim
  | alloc _ _ => exact hp.elim
  | release _ _ => exact hp.elim
  | restore _ _ _ => exact hp.elim
  | copied _ _ => exact hp.elim

/-- The same, where it reads so many cells at most. -/
def ReturnsWithin (h : Heap N) (x : α) : Nat → Program N ε α → Prop
  | _, done a => a = x
  | n + 1, read a k => ∃ node, h.node? a = some node ∧ (k node).ReturnsWithin h x n
  | _, _ => False

variable {β : Type} {x : α} {y : β} {n m : Nat}

omit [Holds N] [Invariant N] in
/-- A result needs no access. -/
theorem returnsWithin_done (x : α) (n : Nat) : (done x : Program N ε α).ReturnsWithin h x n := by
  cases n <;> exact (rfl : x = x)

omit [Holds N] [Invariant N] in
/-- More accesses than needed. -/
theorem ReturnsWithin.mono (hp : p.ReturnsWithin h x n) (hle : n ≤ m) : p.ReturnsWithin h x m := by
  induction n generalizing p m with
  | zero =>
    cases p with
    | done a =>
      obtain rfl : a = x := hp
      exact returnsWithin_done a m
    | _ => exact hp.elim
  | succ n ih =>
    cases p with
    | done a =>
      obtain rfl : a = x := hp
      exact returnsWithin_done a m
    | read a k =>
      obtain ⟨node, hnode, hk⟩ := hp
      obtain ⟨m, rfl⟩ := Nat.exists_eq_add_of_le' (Nat.le_trans (Nat.le_add_left 1 n) hle)
      exact ⟨node, hnode, ih hk (Nat.le_of_succ_le_succ hle)⟩
    | _ => exact hp.elim

omit [Holds N] [Invariant N] in
/-- The accesses of two programs add up. -/
theorem ReturnsWithin.bind {f : α → Program N ε β} (hp : p.ReturnsWithin h x n)
    (hf : (f x).ReturnsWithin h y m) : (p >>= f).ReturnsWithin h y (n + m) := by
  induction n generalizing p with
  | zero =>
    cases p with
    | done a =>
      obtain rfl : a = x := hp
      exact hf.mono (Nat.le_add_left m 0)
    | _ => exact hp.elim
  | succ n ih =>
    cases p with
    | done a =>
      obtain rfl : a = x := hp
      exact hf.mono (Nat.le_add_left m (n + 1))
    | read a k =>
      obtain ⟨node, hnode, hk⟩ := hp
      rw [Nat.add_right_comm]
      exact ⟨node, hnode, ih hk⟩
    | _ => exact hp.elim

omit [Holds N] [Invariant N] in
/-- A result that is only converted. -/
theorem ReturnsWithin.map (hp : p.ReturnsWithin h x n) (g : α → β) :
    (p >>= fun a => pure (g a)).ReturnsWithin h (g x) n :=
  hp.bind (f := fun a => pure (g a)) (returnsWithin_done (g x) 0)

omit [Holds N] [Invariant N] in
/-- The one cell that is read first. -/
theorem returnsWithin_read {node : N} {a : Nat} {f : N → Program N ε β} (hnode : h.node? a = some node)
    (hf : (f node).ReturnsWithin h y n) : (readCell a >>= f).ReturnsWithin h y (n + 1) :=
  ⟨node, hnode, hf⟩

end Reads

end Program

end RcHeap
