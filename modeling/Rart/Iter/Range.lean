import Rart.Iter.Owned

open SortedAssoc LexOrder
open rart.Trie rart.Node

namespace rart.iter

variable {N V : Type} [Node N V]

/-- Whether a key lies below an end bound, as `RangeInner::next` asks. -/
def satisfies_end (end_bound : Bound) (key : Bytes) : Bool :=
  match end_bound with
  | .Included end_key => lexCompare key end_key != .gt
  | .Excluded end_key => lexCompare key end_key == .lt
  | .Unbounded => true

/-- A key lies below an end bound. -/
def EndOk (end_bound : Bound) (key : Bytes) : Prop :=
  match end_bound with
  | .Included end_key => key ≤ end_key
  | .Excluded end_key => key < end_key
  | .Unbounded => True

theorem satisfies_end_iff (end_bound : Bound) (key : Bytes) :
    satisfies_end end_bound key = true ↔ EndOk end_bound key := by
  cases end_bound with
  | Unbounded => simp [satisfies_end, EndOk]
  | Included end_key =>
    simp only [satisfies_end, EndOk, bne_iff_ne, ne_eq, lexCompare_eq_gt_iff, not_lt]
  | Excluded end_key => simp only [satisfies_end, EndOk, beq_iff_eq, lexCompare_eq_lt_iff]

theorem EndOk.mono {end_bound : Bound} {key key' : Bytes} (h : EndOk end_bound key')
    (hle : key ≤ key') : EndOk end_bound key := by
  cases end_bound with
  | Unbounded => trivial
  | Included end_key => exact le_trans hle h
  | Excluded end_key => exact lt_of_le_of_lt hle h

omit [Node N V] in
/-- In an ascending list, taking while the end bound holds is filtering. -/
theorem takeWhile_satisfies_end {l : List (Bytes × V)} (h : Ascending l) (end_bound : Bound) :
    (l.takeWhile fun e => satisfies_end end_bound e.1) =
      l.filter fun e => satisfies_end end_bound e.1 := by
  apply takeWhile_eq_filter
  refine h.imp fun hlt hok => ?_
  rw [satisfies_end_iff] at hok ⊢
  exact hok.mono (le_of_lt hlt)

/-- `Range`, with `RangeInnerNone` as `None`. -/
inductive Range (N V : Type) where
  | None
  | Inner (iter : Iter N V) (end_bound : Bound)

namespace Range

/-- Everything that `next` returns until it returns `None`. -/
def collect : Range N V → List (Bytes × V)
  | None => []
  | Inner iter end_bound =>
    (IterInner.cursor.onceThen.takeWhile fun e => satisfies_end end_bound e.1).collect
      (iter.first, iter.children)

theorem collect_inner (iter : Iter N V) (end_bound : Bound) :
    (Inner iter end_bound).collect = iter.collect.takeWhile fun e => satisfies_end end_bound e.1 :=
  Cursor.collect_takeWhile _ _ _

end Range

/-- The iterator that both `range` functions start from. -/
def start_iter (root : Option N) (start_bound : Bound) : Result (Iter N V) :=
  match start_bound with
  | .Unbounded => Iter.new root
  | .Included key => Iter.new_with_start_bound root (.Included key)
  | .Excluded key => Iter.new_with_start_bound root (.Excluded key)

/-- `AdaptiveRadixTree::range` -/
def range (root : Option N) (start_bound end_bound : Bound) : Result (Range N V) :=
  match root with
  | none => return .None
  | some root => do return .Inner (← start_iter (some root) start_bound) end_bound

/-- `VersionedAdaptiveRadixTree::range` -/
def versioned_range (root : Option N) (start_bound end_bound : Bound) : Result (Range N V) := do
  return .Inner (← start_iter root start_bound) end_bound

/-- The entries that both bounds accept. -/
def within (start_bound end_bound : Bound) (l : List (Bytes × V)) : List (Bytes × V) :=
  l.filter fun e => satisfies_start start_bound e.1 && satisfies_end end_bound e.1

theorem start_iter_spec {root : N} (hwf : Wf root) (start_bound end_bound : Bound) :
    ∃ it : Iter N V, start_iter (some root) start_bound = .ok it ∧
      (Range.Inner it end_bound).collect = within start_bound end_bound (entries root) := by
  have hfilter : ∀ it : Iter N V,
      (it.collect = (entries root).filter fun e => satisfies_start start_bound e.1) →
      (Range.Inner it end_bound).collect = within start_bound end_bound (entries root) := by
    intro it hit
    rw [Range.collect_inner, hit, takeWhile_satisfies_end (hwf.entries_ascending.filter _), within,
      List.filter_filter]
    congr 1
    funext e
    exact Bool.and_comm _ _
  cases start_bound with
  | Unbounded =>
    obtain ⟨it, hit, hcollect⟩ := Iter.new_spec hwf
    refine ⟨it, hit, hfilter it ?_⟩
    rw [hcollect]
    exact (List.filter_eq_self.2 fun _ _ => rfl).symm
  | Included key =>
    obtain ⟨it, hit, hcollect⟩ := Iter.new_with_start_bound_spec hwf (.Included key)
    exact ⟨it, hit, hfilter it hcollect⟩
  | Excluded key =>
    obtain ⟨it, hit, hcollect⟩ := Iter.new_with_start_bound_spec hwf (.Excluded key)
    exact ⟨it, hit, hfilter it hcollect⟩

theorem range_spec {root : Option N} (hwf : ∀ r, root = some r → Wf r) (start_bound end_bound : Bound) :
    ∃ r : Range N V, range root start_bound end_bound = .ok r ∧
      r.collect = within start_bound end_bound (root.elim [] entries) := by
  cases root with
  | none => exact ⟨_, rfl, rfl⟩
  | some root =>
    obtain ⟨it, hit, hcollect⟩ := start_iter_spec (hwf root rfl) start_bound end_bound
    refine ⟨.Inner it end_bound, ?_, hcollect⟩
    unfold range
    dsimp only
    rw [hit]
    rfl

theorem versioned_range_spec {root : Option N} (hwf : ∀ r, root = some r → Wf r)
    (start_bound end_bound : Bound) :
    ∃ r : Range N V, versioned_range root start_bound end_bound = .ok r ∧
      r.collect = within start_bound end_bound (root.elim [] entries) := by
  cases root with
  | none =>
    refine ⟨.Inner .empty end_bound, ?_, ?_⟩
    · cases start_bound <;> rfl
    · rw [Range.collect_inner, Iter.empty, Iter.collect_done]
      rfl
  | some root =>
    obtain ⟨it, hit, hcollect⟩ := start_iter_spec (hwf root rfl) start_bound end_bound
    refine ⟨.Inner it end_bound, ?_, hcollect⟩
    unfold versioned_range
    rw [hit]
    rfl

end rart.iter
