import Rart.Trie

open SortedAssoc LexOrder
open rart.partials rart.Trie rart.Node

namespace rart

/-- `std::ops::Bound<K>` -/
inductive Bound where
  | Included (key : Bytes)
  | Excluded (key : Bytes)
  | Unbounded

namespace iter

/-- `key_order`: the first differing byte decides, then the lengths. -/
def key_order (lhs rhs : Bytes) : Ordering :=
  match (lhs.zip rhs).findSome? fun p =>
    if p.1 < p.2 then some .lt else if p.2 < p.1 then some .gt else none with
  | some ord => ord
  | none => if lhs.length < rhs.length then .lt else if rhs.length < lhs.length then .gt else .eq

/-- Whether a key lies above a start bound. -/
def satisfies_start (start_bound : Bound) (key : Bytes) : Bool :=
  match start_bound with
  | .Included start_key => key_order key start_key != .lt
  | .Excluded start_key => key_order key start_key == .gt
  | .Unbounded => true

/-- `Bound::Included(key) | Bound::Excluded(key) => Some(key)` -/
def seek_key : Bound → Option Bytes
  | .Included key => some key
  | .Excluded key => some key
  | .Unbounded => none

section Bounds

theorem key_order_eq (lhs rhs : Bytes) : key_order lhs rhs = lexCompare lhs rhs := by
  unfold key_order
  induction lhs generalizing rhs with
  | nil => cases rhs <;> rfl
  | cons a lhs ih =>
    cases rhs with
    | nil => rfl
    | cons b rhs =>
      rw [List.zip_cons_cons, List.findSome?_cons, lexCompare]
      by_cases hlt : a < b
      · simp [hlt]
      · by_cases hgt : b < a
        · simp [hlt, hgt]
        · simp only [hlt, hgt, if_false, List.length_cons, Nat.add_lt_add_iff_right]
          exact ih rhs

/-- A key lies above a start bound. -/
def StartOk (start_bound : Bound) (key : Bytes) : Prop :=
  match start_bound with
  | .Included start_key => start_key ≤ key
  | .Excluded start_key => start_key < key
  | .Unbounded => True

theorem satisfies_start_iff (start_bound : Bound) (key : Bytes) :
    satisfies_start start_bound key = true ↔ StartOk start_bound key := by
  cases start_bound with
  | Unbounded => simp [satisfies_start, StartOk]
  | Included start_key =>
    simp only [satisfies_start, StartOk, key_order_eq, bne_iff_ne, ne_eq, lexCompare_eq_lt_iff, not_lt]
  | Excluded start_key =>
    simp only [satisfies_start, StartOk, key_order_eq, beq_iff_eq, lexCompare_eq_gt_iff]

theorem StartOk.mono {start_bound : Bound} {key key' : Bytes} (h : StartOk start_bound key)
    (hle : key ≤ key') : StartOk start_bound key' := by
  cases start_bound with
  | Unbounded => trivial
  | Included start_key => exact le_trans h hle
  | Excluded start_key => exact lt_of_lt_of_le h hle

theorem not_startOk_of_lt {start_bound : Bound} {start_key key : Bytes}
    (hseek : seek_key start_bound = some start_key) (hlt : key < start_key) :
    ¬ StartOk start_bound key := by
  cases start_bound with
  | Unbounded => cases hseek
  | Included k =>
    cases hseek
    exact not_le.2 hlt
  | Excluded k =>
    cases hseek
    exact hlt.not_gt

end Bounds

inductive IterFrameIter (N : Type) where
  | Plain (iter : List (UInt8 × N))
  | Leading (first : Option (UInt8 × N)) (rest : List (UInt8 × N))

namespace IterFrameIter

variable {N : Type}

/-- The pairs that are still to come. -/
def remaining : IterFrameIter N → List (UInt8 × N)
  | Plain iter => iter
  | Leading first rest => first.toList ++ rest

def next : IterFrameIter N → Option ((UInt8 × N) × IterFrameIter N)
  | Plain [] => none
  | Plain (p :: iter) => some (p, Plain iter)
  | Leading (some p) rest => some (p, Leading none rest)
  | Leading none [] => none
  | Leading none (p :: rest) => some (p, Leading none rest)

theorem remaining_of_next_none {self : IterFrameIter N} (h : self.next = none) : self.remaining = [] := by
  cases self with
  | Plain iter =>
    cases iter with
    | nil => rfl
    | cons p iter => cases h
  | Leading first rest =>
    cases first with
    | some p => cases h
    | none =>
      cases rest with
      | nil => rfl
      | cons p rest => cases h

theorem remaining_of_next_some {self self' : IterFrameIter N} {p : UInt8 × N}
    (h : self.next = some (p, self')) : self.remaining = p :: self'.remaining := by
  cases self with
  | Plain iter =>
    cases iter with
    | nil => cases h
    | cons q iter =>
      cases h
      rfl
  | Leading first rest =>
    cases first with
    | some q =>
      cases h
      rfl
    | none =>
      cases rest with
      | nil => cases h
      | cons q rest =>
        cases h
        rfl

end IterFrameIter

variable {N V : Type} [Node N V]

section Weights

/-- What a node still costs a walk that has to enter it. -/
def weight (n : N) : Nat :=
  2 + ((Node.iter n).attach.map fun ⟨p, _hp⟩ => weight p.2).sum
termination_by rank n
decreasing_by exact rank_iter _hp

def listWeight (l : List (UInt8 × N)) : Nat := (l.map fun p => weight p.2).sum

theorem weight_eq (n : N) : weight n = 2 + listWeight (Node.iter n) := by
  rw [weight, listWeight]
  congr 2
  exact (List.map_subtype fun _ _ => rfl).trans (by rw [List.unattach_attach])

theorem listWeight_cons (p : UInt8 × N) (l : List (UInt8 × N)) :
    listWeight (p :: l) = 2 + listWeight (Node.iter p.2) + listWeight l := by
  rw [listWeight, List.map_cons, List.sum_cons, weight_eq]
  rfl

/-- What the frames of a walk still cost. -/
def stackWeight {D : Type} (stack : List (D × IterFrameIter N)) : Nat :=
  (stack.map fun frame => 1 + listWeight frame.2.remaining).sum

theorem stackWeight_cons {D : Type} (depth : D) (it : IterFrameIter N) (stack : List (D × IterFrameIter N)) :
    stackWeight ((depth, it) :: stack) = 1 + listWeight it.remaining + stackWeight stack := by
  simp [stackWeight]

end Weights

end iter

end rart
