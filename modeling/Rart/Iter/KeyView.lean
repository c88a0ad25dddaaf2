import Rart.Iter.Lending

open LexOrder

namespace rart

/-- `&xs[start..stop]` -/
def slice_range {α : Type} (xs : List α) (start stop : Nat) : Result (List α) := do
  slice_from (← slice_to xs stop) start

namespace iter

section Definitions

/-- The loop of `eq_slice`. -/
def eq_segments (slice : Bytes) : List Bytes → Nat → Result Bool
  | [], _ => return true
  | segment :: segments, offset => do
    let stop := offset + segment.length
    if (← slice_range slice offset stop) ≠ segment then return false
    else eq_segments slice segments stop

namespace LendingKeyView

def eq_slice (self : LendingKeyView) (slice : Bytes) : Result Bool :=
  if self.len ≠ slice.length then return false
  else eq_segments slice self.segments 0

/-- The view of a key that is cut into segments. -/
def ofSegments (segments : List Bytes) : LendingKeyView := ⟨segments, segments.flatten.length⟩

end LendingKeyView

end Definitions

section Equality

theorem slice_range_append (xs ys : Bytes) {n : Nat} (h : n ≤ ys.length) :
    slice_range (xs ++ ys) xs.length (xs.length + n) = .ok (ys.take n) := by
  unfold slice_range
  rw [slice_to_eq_ok (by rw [List.length_append]; omega), ok_bind, List.take_length_add_append,
    slice_from_eq_ok (by rw [List.length_append]; omega), List.drop_left]

/-- What was compared so far is the beginning of the slice, so no index is out of range. -/
theorem eq_segments_eq (segments : List Bytes) (seen rest : Bytes) (hlen : segments.flatten.length = rest.length) :
    eq_segments (seen ++ rest) segments seen.length = .ok (decide (segments.flatten = rest)) := by
  induction segments generalizing seen rest with
  | nil =>
    obtain rfl := List.eq_nil_of_length_eq_zero hlen.symm
    rfl
  | cons segment segments ih =>
    rw [List.flatten_cons, List.length_append] at hlen
    rw [eq_segments, slice_range_append seen rest (by omega), ok_bind]
    by_cases htake : rest.take segment.length = segment
    · rw [if_neg (not_not.2 htake)]
      have hrest : rest = segment ++ rest.drop segment.length := by
        conv_lhs => rw [← List.take_append_drop segment.length rest, htake]
      have hnext := ih (seen ++ segment) (rest.drop segment.length) (by rw [List.length_drop]; omega)
      rw [List.append_assoc, ← hrest, List.length_append] at hnext
      rw [hnext]
      refine congrArg Except.ok (decide_eq_decide.2 ?_)
      rw [List.flatten_cons]
      conv_rhs => rw [hrest]
      exact List.append_right_inj segment |>.symm
    · rw [if_pos htake, pure_eq_ok]
      refine congrArg Except.ok (decide_eq_false fun heq => htake ?_).symm
      rw [← heq, List.flatten_cons, List.take_left]

/-- Equality does not depend on how the key is cut. -/
theorem eq_slice_eq (segments : List Bytes) (slice : Bytes) :
    (LendingKeyView.ofSegments segments).eq_slice slice = .ok (decide (segments.flatten = slice)) := by
  unfold LendingKeyView.eq_slice LendingKeyView.ofSegments
  by_cases hlen : segments.flatten.length = slice.length
  · rw [if_neg (not_not.2 hlen)]
    exact eq_segments_eq segments [] slice hlen
  · rw [if_pos hlen, pure_eq_ok]
    exact congrArg Except.ok (decide_eq_false fun heq => hlen (congrArg List.length heq)).symm

end Equality

section Comparison

/-- The part that two lists share does not decide how they compare. -/
theorem lexCompare_take (c s t : Bytes) :
    lexCompare ((c ++ s).take (c.length + min s.length t.length))
        ((c ++ t).take (c.length + min s.length t.length)) =
      lexCompare (s.take (min s.length t.length)) (t.take (min s.length t.length)) := by
  rw [List.take_length_add_append, List.take_length_add_append, lexCompare_append]

/-- The first segment decides, unless it is a proper prefix of the slice. -/
theorem cmp_segments_cons (slice_len len : Nat) (segment : Bytes) (segments : List Bytes) (slice : Bytes) :
    cmp_segments slice_len len (segment :: segments) slice =
      if segment = slice then cmp_segments slice_len len segments []
      else if segment <+: slice then .lt
      else lexCompare (segment ++ segments.flatten) slice := by
  obtain ⟨c, s, t, rfl, rfl, _, hdiff⟩ := lcp_split segment slice
  have hmin : min (c ++ s).length (c ++ t).length = c.length + min s.length t.length := by
    simp only [List.length_append]
    omega
  have hpfx : c ++ s <+: c ++ t ↔ s <+: t := List.prefix_append_right_inj c
  rw [cmp_segments, hmin, lexCompare_take]
  simp only [hpfx, List.append_cancel_left_eq, List.append_assoc, lexCompare_append]
  cases s with
  | nil =>
    simp only [List.length_nil, Nat.zero_min, List.take_zero, Nat.add_zero, List.append_nil]
    cases t with
    | nil => simp [lexCompare]
    | cons b t => simp [lexCompare]
  | cons a s =>
    cases t with
    | nil => simp [lexCompare]
    | cons b t =>
      have hab : a ≠ b := hdiff a rfl b rfl
      have hne : a :: s ≠ b :: t := fun heq => hab (List.cons.inj heq).1
      have hnot : ¬ a :: s <+: b :: t := by
        rintro ⟨u, hu⟩
        exact hab (List.cons.inj hu).1
      rw [if_neg hne, if_neg hnot]
      have hmin' : min (a :: s).length (b :: t).length = min s.length t.length + 1 := by
        simp only [List.length_cons]
        omega
      rw [hmin', List.take_succ_cons, List.take_succ_cons, List.cons_append]
      rcases lt_or_gt_of_ne hab with hlt | hgt
      · simp [lexCompare, hlt]
      · simp [lexCompare, hgt, hgt.not_gt]

theorem cmp_slice_nil (slice : Bytes) :
    (⟨[], 0⟩ : LendingKeyView).cmp_slice slice = lexCompare [] slice := by
  change compare 0 slice.length = _
  cases slice with
  | nil => rfl
  | cons a slice => exact Nat.compare_eq_lt.2 (by simp)

/-- Once the slice has run out, any byte that is left decides. -/
theorem cmp_segments_nil {slice_len len : Nat} (segments : List Bytes)
    (hlen : len = slice_len + segments.flatten.length) :
    cmp_segments slice_len len segments [] = lexCompare segments.flatten [] := by
  induction segments with
  | nil => exact Nat.compare_eq_eq.2 hlen
  | cons segment segments ih =>
    rw [cmp_segments_cons]
    cases segment with
    | nil => exact ih hlen
    | cons a segment => rfl

/-- How a view compares with a slice. -/
theorem cmp_slice_cons (segment : Bytes) (segments : List Bytes) (slice : Bytes) :
    (LendingKeyView.ofSegments (segment :: segments)).cmp_slice slice =
      if segment <+: slice ∧ segment ≠ slice then .lt
      else lexCompare (segment :: segments).flatten slice := by
  unfold LendingKeyView.cmp_slice LendingKeyView.ofSegments
  rw [cmp_segments_cons]
  by_cases heq : segment = slice
  · subst heq
    rw [if_pos rfl, if_neg (fun h => h.2 rfl), cmp_segments_nil segments (by simp), List.flatten_cons]
    conv_rhs => rw [← List.append_nil segment, List.append_assoc, List.nil_append, lexCompare_append]
  · rw [if_neg heq]
    by_cases hpfx : segment <+: slice
    · rw [if_pos hpfx, if_pos ⟨hpfx, heq⟩]
    · rw [if_neg hpfx, if_neg (fun h => hpfx h.1)]
      rfl

end Comparison

section Agreement

namespace LendingKeyView

/-- Both comparisons are those of the whole key. -/
def Compares (view : LendingKeyView) (slice : Bytes) : Prop :=
  view.cmp_slice slice = lexCompare view.segments.flatten slice ∧
    view.eq_slice slice = .ok (decide (view.segments.flatten = slice)) ∧
    (view.cmp_slice slice = .eq ↔ view.eq_slice slice = .ok true)

/-- The first segment runs out before the slice does, and the key is no less than the
slice. -/
def CutShort (segments : List Bytes) (slice : Bytes) : Prop :=
  ∃ segment ∈ segments.head?, segment <+: slice ∧ segment ≠ slice ∧ slice ≤ segments.flatten

/-- A view compares as its key does, unless its first segment is cut short. -/
theorem compares_iff (segments : List Bytes) (slice : Bytes) :
    (ofSegments segments).Compares slice ↔ ¬ CutShort segments slice := by
  have hcompares : (ofSegments segments).cmp_slice slice = lexCompare segments.flatten slice →
      (ofSegments segments).Compares slice := fun hcmp => by
    refine ⟨hcmp, eq_slice_eq segments slice, ?_⟩
    rw [hcmp, eq_slice_eq, lexCompare_eq_eq_iff, Except.ok.injEq, decide_eq_true_iff]
  cases segments with
  | nil =>
    refine iff_of_true (hcompares (cmp_slice_nil slice)) ?_
    rintro ⟨segment, hsegment, _⟩
    cases hsegment
  | cons segment segments =>
    have hcmp := cmp_slice_cons segment segments slice
    constructor
    · rintro ⟨hall, -⟩ ⟨first, hfirst, hpfx, hne, hle⟩
      cases hfirst
      rw [hcmp, if_pos ⟨hpfx, hne⟩] at hall
      exact not_lt.2 hle (lexCompare_eq_lt_iff.1 hall.symm)
    · intro hshort
      refine hcompares (hcmp.trans ?_)
      split
      · rename_i hproper
        refine (lexCompare_eq_lt_iff.2 (not_le.1 fun hle => hshort ?_)).symm
        exact ⟨segment, rfl, hproper.1, hproper.2, hle⟩
      · rfl

/-- The key `[1, 2]` as two segments is less than itself. -/
theorem cmp_slice_cut : (ofSegments [[1], [2]]).cmp_slice [1, 2] = .lt ∧
    lexCompare (ofSegments [[1], [2]]).segments.flatten [1, 2] = .eq ∧
    (ofSegments [[1], [2]]).eq_slice [1, 2] = .ok true ∧ ¬ (ofSegments [[1], [2]]).Compares [1, 2] := by
  refine ⟨by decide, by decide, by rfl, fun hall => ?_⟩
  have hlt : Ordering.lt = .eq := hall.2.2.2 rfl
  cases hlt

end LendingKeyView

end Agreement

end iter

end rart
