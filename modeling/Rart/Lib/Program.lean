import Rart.Lib.RcHeap.Valid

namespace RcHeap

/-- What a program on a shared heap does next: one access to the heap, and how it goes on from
there. Between its accesses others may change the heap. -/
inductive Program (N ε α : Type) where
  | done (a : α)
  | fail (e : ε)
  | read (a : Nat) (k : N → Program N ε α)
  /-- One more reference to a cell. -/
  | clone (a : Nat) (k : Program N ε α)
  /-- The node is moved out of the cell, if the reference is the only one. -/
  | take (a : Nat) (k : Option N → Program N ε α)
  | alloc (node : N) (k : Nat → Program N ε α)
  /-- References are given up, one at a time. -/
  | release (as : List Nat) (k : Program N ε α)
  /-- A node is moved back into the cell that it was taken from. -/
  | restore (a : Nat) (node : N) (k : Program N ε α)
  /-- So many copies were made of nodes, or of parts of them. -/
  | copied (n : Nat) (k : Program N ε α)

namespace Program

variable {N ε α β : Type}

/-- The second program goes on with what the first one returned. -/
protected def bind (p : Program N ε α) (f : α → Program N ε β) : Program N ε β :=
  match p with
  | done a => f a
  | fail e => fail e
  | read a k => read a fun node => (k node).bind f
  | clone a k => clone a (k.bind f)
  | take a k => take a fun taken => (k taken).bind f
  | alloc node k => alloc node fun a => (k a).bind f
  | release as k => release as (k.bind f)
  | restore a node k => restore a node (k.bind f)
  | copied n k => copied n (k.bind f)

instance : Monad (Program N ε) where
  pure := done
  bind := Program.bind

/-- Code that does not touch the heap. -/
def ofExcept : Except ε α → Program N ε α
  | .ok a => done a
  | .error e => fail e

instance : MonadLift (Except ε) (Program N ε) where
  monadLift := ofExcept

/-- A program that has ended hands on its result. -/
@[simp] theorem done_bind (a : α) (f : α → Program N ε β) : ((done a : Program N ε α) >>= f) = f a := rfl

/-- As for `done`. -/
@[simp] theorem pure_bind (a : α) (f : α → Program N ε β) : ((pure a : Program N ε α) >>= f) = f a := rfl

/-- Code that returns goes on without an access. -/
@[simp] theorem lift_ok_bind (a : α) (f : α → Program N ε β) :
    ((liftM (Except.ok a : Except ε α) : Program N ε α) >>= f) = f a := rfl

/-- By induction on the first program. -/
theorem bind_assoc {γ : Type} (p : Program N ε α) (f : α → Program N ε β) (g : β → Program N ε γ) :
    ((p >>= f) >>= g) = (p >>= fun a => f a >>= g) := by
  change (p.bind f).bind g = p.bind fun a => (f a).bind g
  induction p with
  | done a => rfl
  | fail e => rfl
  | read a k ih => simp only [Program.bind, ih]
  | clone a k ih => simp only [Program.bind, ih]
  | take a k ih => simp only [Program.bind, ih]
  | alloc node k ih => simp only [Program.bind, ih]
  | release as k ih => simp only [Program.bind, ih]
  | restore a node k ih => simp only [Program.bind, ih]
  | copied n k ih => simp only [Program.bind, ih]

section Accesses

/-- One read. -/
def readCell (a : Nat) : Program N ε N := read a done

/-- One attempt to move a node out. -/
def takeCell (a : Nat) : Program N ε (Option N) := take a done

/-- One new cell. -/
def allocCell (node : N) : Program N ε Nat := alloc node done

/-- References that go out of scope. -/
def releaseAll (as : List Nat) : Program N ε Unit := release as (done ())

/-- One node moved back. -/
def restoreCell (a : Nat) (node : N) : Program N ε Unit := restore a node (done ())

/-- Copies are only counted. -/
def copies (n : Nat) : Program N ε Unit := copied n (done ())

/-- References to all of the cells, one after the other. -/
def cloneAll : List Nat → Program N ε Unit
  | [] => done ()
  | a :: as => clone a (cloneAll as)

end Accesses

section Steps

variable [Holds N]

/-- One access to the heap. A program that has ended, or whose cell is gone, makes none. -/
def step (h : Heap N) : Program N ε α → Option (Program N ε α × Heap N)
  | done _ => none
  | fail _ => none
  | read a k => (h.node? a).map fun node => (k node, h)
  | clone a k => (h.clone a).map fun h => (k, h)
  | take a k =>
    (h.take a).map fun taken =>
      match taken with
      | some (node, h) => (k (some node), h)
      | none => (k none, h)
  | alloc node k => some (k (h.alloc node).1, (h.alloc node).2)
  | release [] k => some (k, h)
  | release (a :: as) k =>
    (h.cell? a).map fun cell =>
      -- whoever gives up the last reference goes on with those of the node
      if cell.count ≤ 1 then (release (handles cell.node ++ as) k, h.setCell a none)
      else (release as k, h.setCell a (some { cell with count := cell.count - 1 }))
  | restore a node k =>
    if a < h.cells.length ∧ (h.node? a).isNone then some (k, h.restore a node) else none
  | copied n k => some (k, h.copies n)

/-- What a program has ended with. -/
def returned : Program N ε α → Option α
  | done a => some a
  | _ => none

end Steps

end Program

namespace Heap

variable {N : Type}

/-- Cells that others have allocated meanwhile. -/
def pad (h : Heap N) (n : Nat) : Heap N :=
  { h with cells := h.cells ++ List.replicate (n - h.cells.length) none }

/-- A new cell at a position that nothing was stored at. -/
def allocAt (h : Heap N) (n : Nat) (node : N) : Heap N := ((h.pad n).alloc node).2

/-- Freed cells at the end make a heap longer. -/
theorem length_pad {h : Heap N} {n : Nat} (hle : h.cells.length ≤ n) : (h.pad n).cells.length = n := by
  simp only [pad, List.length_append, List.length_replicate]
  omega

/-- Padding allocates nothing. -/
theorem cell?_pad (h : Heap N) (n a : Nat) : (h.pad n).cell? a = h.cell? a := by
  unfold cell? pad
  by_cases hlt : a < h.cells.length
  · rw [List.getElem?_append_left hlt]
  · rw [List.getElem?_append_right (by omega), List.getElem?_eq_none (l := h.cells) (by omega),
      List.getElem?_replicate]
    split <;> rfl

/-- As for `cell?_pad`. -/
theorem node?_pad (h : Heap N) (n a : Nat) : (h.pad n).node? a = h.node? a := by
  unfold node?
  rw [cell?_pad]

/-- As for `cell?_pad`. -/
theorem count_pad (h : Heap N) (n a : Nat) : (h.pad n).count a = h.count a := by
  unfold count
  rw [cell?_pad]

/-- Padding notes no count. -/
theorem continues_pad (h : Heap N) (n : Nat) : Continues h (h.pad n) where
  noted := rfl
  length_le := by
    simp only [pad, List.length_append]
    omega
  copied_le := Nat.le_refl _

/-- After padding a new cell stands where it is wanted. -/
theorem alloc_pad {h : Heap N} {n : Nat} (hle : h.cells.length ≤ n) (node : N) :
    (h.pad n).alloc node = (n, h.allocAt n node) := Prod.ext (length_pad hle) rfl

/-- The new cell, and the others as they were. -/
theorem cell?_allocAt {h : Heap N} {n : Nat} (hle : h.cells.length ≤ n) (node : N) (b : Nat) :
    (h.allocAt n node).cell? b = if b = n then some ⟨1, node⟩ else h.cell? b := by
  unfold allocAt
  rw [cell?_alloc, length_pad hle, cell?_pad]

/-- The node of the new cell. -/
theorem node?_allocAt {h : Heap N} {n : Nat} (hle : h.cells.length ≤ n) (node : N) :
    (h.allocAt n node).node? n = some node := by
  unfold node?
  rw [cell?_allocAt hle, if_pos rfl]
  rfl

variable [Holds N]

/-- Freed cells hold no references. -/
theorem inner_pad (h : Heap N) (n : Nat) : (h.pad n).inner = h.inner := by
  unfold inner pad
  rw [List.flatMap_append]
  have hnone : (List.replicate (n - h.cells.length) (none : Option (Cell N))).flatMap held = [] :=
    List.flatMap_eq_nil_iff.2 fun cell hcell => by
      rw [List.eq_of_mem_replicate hcell]
      rfl
  rw [hnone, List.append_nil]

variable [Invariant N]

/-- Padding keeps a heap valid. -/
theorem Valid.pad {h : Heap N} {roots : List Nat} (hv : Valid h roots) (n : Nat) :
    Valid (h.pad n) roots ∧ Keeps h (h.pad n) roots := by
  have hv' : Valid (h.pad n) roots := {
    counted := {
      count_eq := fun a => by
        rw [count_pad, inner_pad]
        exact hv.counted.count_eq a
      positive := fun a cell hcell => by
        rw [cell?_pad] at hcell
        exact hv.counted.positive a cell hcell
      older := fun a node hnode => by
        rw [node?_pad] at hnode
        exact hv.counted.older a node hnode }
    sound := fun a node hnode => by
      rw [node?_pad] at hnode
      exact Invariant.sound_local (hv.sound a node hnode) fun c _ => node?_pad h n c }
  exact ⟨hv', hv.keeps_of_same hv' (node?_pad h n) (continues_pad h n) fun b hb =>
    hv.counted.live_of_root hb⟩

/-- A new cell, wherever others have left room. -/
theorem Valid.allocAt {h : Heap N} {roots : List Nat} {node : N} {n : Nat}
    (hv : Valid h (handles node ++ roots)) (hsound : Sound h node) (hle : h.cells.length ≤ n) :
    Valid (h.allocAt n node) (n :: roots) ∧ Keeps h (h.allocAt n node) (handles node ++ roots) := by
  obtain ⟨hpad, hkpad⟩ := hv.pad n
  obtain ⟨hv', _, hk'⟩ := hpad.alloc (Valid.sound_keeps hsound hkpad fun c hc => List.mem_append_left _ hc)
  have haddr : ((h.pad n).alloc node).1 = n := length_pad hle
  rw [haddr] at hv'
  exact ⟨hv', hkpad.trans hk'⟩

end Heap

/-- What a program holds: a heap of its own, references into it, and the cells that it made. -/
structure View (N : Type) where
  heap : Heap N
  own : List Nat
  fresh : List Nat

namespace Program

variable {N ε α β : Type} [Holds N] [Invariant N]

/-- A program goes well on the heap of its view, whatever positions new cells get, and
whichever cells seem to be shared. A cell of its own making does not seem so. -/
def Safe (post : α → View N → Prop) : Program N ε α → View N → Prop
  | done a, v => post a v
  | fail _, _ => False
  | read a k, v => ∃ node, v.heap.node? a = some node ∧ (k node).Safe post v
  | clone a k, v => ∃ h, v.heap.clone a = some h ∧ k.Safe post ⟨h, a :: v.own, v.fresh⟩
  | take a k, v => ∃ own node, v.own.Perm (a :: own) ∧ v.heap.node? a = some node ∧
      (v.heap.count a = 1 → (k (some node)).Safe post ⟨v.heap.setCell a none, handles node ++ own, v.fresh⟩) ∧
      (¬ (a ∈ v.fresh ∧ v.heap.count a = 1) → (k none).Safe post v)
  | alloc node k, v => ∃ own, v.own.Perm (handles node ++ own) ∧ Sound v.heap node ∧
      ∀ a, v.heap.cells.length ≤ a → (k a).Safe post ⟨v.heap.allocAt a node, a :: own, a :: v.fresh⟩
  | release as k, v => ∃ own h, v.own.Perm (as ++ own) ∧ v.heap.dropAll as = some h ∧
      k.Safe post ⟨h, own, v.fresh⟩
  | restore a node k, v => ∃ own, v.own.Perm (handles node ++ own) ∧ Sound v.heap node ∧
      (a < v.heap.cells.length ∧ v.heap.node? a = none ∧ a ∈ v.fresh ∧ ∀ c ∈ handles node, c < a) ∧
      k.Safe post ⟨v.heap.restore a node, a :: own, v.fresh⟩
  | copied n k, v => k.Safe post ⟨v.heap.copies n, v.own, v.fresh⟩

/-- A weaker postcondition. -/
theorem Safe.mono {post post' : α → View N → Prop} (himp : ∀ a v, post a v → post' a v)
    {p : Program N ε α} {v : View N} (hs : p.Safe post v) : p.Safe post' v := by
  induction p generalizing v with
  | done a => exact himp a v hs
  | fail e => exact hs
  | read a k ih =>
    obtain ⟨node, hnode, hk⟩ := hs
    exact ⟨node, hnode, ih node hk⟩
  | clone a k ih =>
    obtain ⟨h, hclone, hk⟩ := hs
    exact ⟨h, hclone, ih hk⟩
  | take a k ih =>
    obtain ⟨own, node, hperm, hnode, hsome, hnone⟩ := hs
    exact ⟨own, node, hperm, hnode, fun hone => ih _ (hsome hone), fun hseems => ih _ (hnone hseems)⟩
  | alloc node k ih =>
    obtain ⟨own, hperm, hsound, hk⟩ := hs
    exact ⟨own, hperm, hsound, fun a ha => ih a (hk a ha)⟩
  | release as k ih =>
    obtain ⟨own, h, hperm, hdrop, hk⟩ := hs
    exact ⟨own, h, hperm, hdrop, ih hk⟩
  | restore a node k ih =>
    obtain ⟨own, hperm, hsound, hcell, hk⟩ := hs
    exact ⟨own, hperm, hsound, hcell, ih hk⟩
  | copied n k ih => exact ih hs

/-- Programs one after the other. -/
theorem safe_bind {post : β → View N → Prop} {p : Program N ε α} {f : α → Program N ε β} {v : View N} :
    (p >>= f).Safe post v ↔ p.Safe (fun a v' => (f a).Safe post v') v := by
  change (p.bind f).Safe post v ↔ _
  induction p generalizing v with
  | done a => exact Iff.rfl
  | fail e => exact Iff.rfl
  | read a k ih => simp only [Program.bind, Safe, ih]
  | clone a k ih => simp only [Program.bind, Safe, ih]
  | take a k ih => simp only [Program.bind, Safe, ih]
  | alloc node k ih => simp only [Program.bind, Safe, ih]
  | release as k ih => simp only [Program.bind, Safe, ih]
  | restore a node k ih => simp only [Program.bind, Safe, ih]
  | copied n k ih => simp only [Program.bind, Safe, ih]

/-- By induction on the first program. -/
theorem Safe.bind {post : β → View N → Prop} {mid : α → View N → Prop} {p : Program N ε α}
    {f : α → Program N ε β} {v : View N} (hp : p.Safe mid v)
    (hf : ∀ a v', mid a v' → (f a).Safe post v') : (p >>= f).Safe post v :=
  safe_bind.2 (hp.mono hf)

end Program

end RcHeap
