import Rart.Keys.Types

open LexOrder
open rart.debug (slice slice_eq_ok)
open rart.keys (KeyTrait Spells)

namespace rart.partials

section WordScan

/-- The bytes at which two words agree, up to the first difference from the end that
`trailing_zeros` starts at. -/
def Endian.agreeing : Endian → Bytes → Bytes → Nat
  | .little, xs, ys => lcp xs ys
  | .big, xs, ys => lcp xs.reverse ys.reverse

/-- The eight-byte word of the scan that position `i` belongs to. -/
def word_at (bytes : Bytes) (i : Nat) : Bytes := (bytes.drop (8 * (i / 8))).take 8

/-- Both strings have a full word where they first differ. -/
def InWord (lhs rhs : Bytes) : Prop := 8 * (lcp lhs rhs / 8) + 8 ≤ min lhs.length rhs.length

instance (lhs rhs : Bytes) : Decidable (InWord lhs rhs) := inferInstanceAs (Decidable (_ ≤ _))

/-- On a big-endian target, the words with the first difference agree in as many bytes at
their ends as at their fronts. -/
def Mirrored (endian : Endian) (lhs rhs : Bytes) : Prop :=
  endian = .big → InWord lhs rhs →
    lcp (word_at lhs (lcp lhs rhs)).reverse (word_at rhs (lcp lhs rhs)).reverse = lcp lhs rhs % 8

/-- Big-endian is little-endian from the other side. -/
theorem from_ne_bytes_big (bs : Bytes) : from_ne_bytes .big bs = from_ne_bytes .little bs.reverse := by
  change bs.foldl _ 0 = bs.reverse.foldr _ 0
  rw [List.foldr_reverse]
  simp only [Nat.add_comm]

/-- The lowest set bit of the difference of two words lies in the first byte at which they
differ on a little-endian target, and in the last one on a big-endian target. -/
theorem word_diff_agreeing (endian : Endian) {xs ys : Bytes} (hlen : xs.length = ys.length) :
    let diff := from_ne_bytes endian xs ^^^ from_ne_bytes endian ys
    (diff = 0 ↔ xs = ys) ∧ (diff ≠ 0 → trailing_zeros diff / 8 = endian.agreeing xs ys) := by
  cases endian with
  | little => exact word_diff hlen
  | big =>
    simp only [from_ne_bytes_big]
    have hreverse : xs.reverse.length = ys.reverse.length := by simpa using hlen
    obtain ⟨hzero, hdiff⟩ := word_diff hreverse
    exact ⟨hzero.trans List.reverse_inj, hdiff⟩

/-- Different words of one length differ before their end. -/
theorem lcp_lt_of_ne {xs ys : Bytes} (hlen : xs.length = ys.length) (hne : xs ≠ ys) : lcp xs ys < xs.length := by
  refine Nat.lt_of_le_of_ne (lcp_le_left xs ys) fun heq => hne ?_
  exact (lcp_eq_length_iff.1 heq).eq_of_length hlen

/-- What the scan returns: the first difference where it falls to the byte loop, and
otherwise the start of its word and the bytes at which the words agree. -/
def scanned (endian : Endian) (lhs rhs : Bytes) : Nat :=
  if InWord lhs rhs then
    8 * (lcp lhs rhs / 8) + endian.agreeing (word_at lhs (lcp lhs rhs)) (word_at rhs (lcp lhs rhs))
  else lcp lhs rhs

/-- The first words that differ end the scan. -/
theorem scanned_of_word_ne {endian : Endian} {v w : Bytes} (hv : v.length = 8) (hw : w.length = 8) (hne : v ≠ w)
    (s t : Bytes) : scanned endian (v ++ s) (w ++ t) = endian.agreeing v w := by
  have hlen : v.length = w.length := hv.trans hw.symm
  have hlt := lcp_lt_of_ne hlen hne
  rw [hv] at hlt
  have hzero : lcp (v ++ s) (w ++ t) / 8 = 0 := by
    rw [lcp_append_of_length_eq hlen hne]
    omega
  have hin : InWord (v ++ s) (w ++ t) := by
    unfold InWord
    rw [hzero, List.length_append, List.length_append]
    omega
  unfold scanned
  rw [if_pos hin]
  unfold word_at
  rw [hzero, Nat.mul_zero, Nat.zero_add, List.drop_zero, List.drop_zero, List.take_left' hv, List.take_left' hw]

/-- A word that is shared is scanned as a whole. -/
theorem scanned_word_append {endian : Endian} {w : Bytes} (hw : w.length = 8) (s t : Bytes) :
    scanned endian (w ++ s) (w ++ t) = 8 + scanned endian s t := by
  have hdiv : lcp (w ++ s) (w ++ t) / 8 = lcp s t / 8 + 1 := by
    rw [lcp_append, hw]
    omega
  have hword : ∀ u, word_at (w ++ u) (lcp (w ++ s) (w ++ t)) = word_at u (lcp s t) := by
    intro u
    unfold word_at
    rw [hdiv, Nat.mul_add, Nat.add_comm, Nat.mul_one, ← List.drop_drop, List.drop_left' hw]
  have hin : InWord (w ++ s) (w ++ t) ↔ InWord s t := by
    unfold InWord
    rw [hdiv, List.length_append, List.length_append, hw]
    omega
  unfold scanned
  rw [hword, hword, hdiv, lcp_append, hw]
  by_cases h : InWord s t
  · rw [if_pos (hin.2 h), if_pos h]
    omega
  · rw [if_neg (mt hin.1 h), if_neg h]

/-- The loop goes on from what has been scanned. -/
theorem word_loop_eq_scanned (endian : Endian) (p s t : Bytes) :
    prefix_length_bytes.word_loop endian (p ++ s) (p ++ t) (p.length + min s.length t.length) p.length =
      p.length + scanned endian s t := by
  induction hn : s.length using Nat.strongRecOn generalizing p s t with
  | ind n ih =>
    subst hn
    rw [prefix_length_bytes.word_loop]
    split
    · rename_i hword
      have hs : (s.take 8).length = 8 := List.length_take_of_le (by omega)
      have ht : (t.take 8).length = 8 := List.length_take_of_le (by omega)
      obtain ⟨hzero, hdiff⟩ := word_diff_agreeing endian (hs.trans ht.symm)
      simp only [List.drop_left]
      split
      · rename_i hne
        rw [hdiff hne, ← scanned_of_word_ne hs ht (fun heq => hne (hzero.2 heq)) (s.drop 8) (t.drop 8),
          List.take_append_drop, List.take_append_drop]
      · rename_i heq
        have heq := hzero.1 (not_not.1 heq)
        have hrest := ih (s.drop 8).length (by rw [List.length_drop]; omega) (p ++ s.take 8) (s.drop 8) (t.drop 8) rfl
        have hsplit : t = s.take 8 ++ t.drop 8 := by rw [heq, List.take_append_drop]
        have hmin : (p ++ s.take 8).length + min (s.drop 8).length (t.drop 8).length =
            p.length + min s.length t.length := by
          rw [List.length_append, hs, List.length_drop, List.length_drop]
          omega
        rw [hmin, List.append_assoc, List.append_assoc, List.take_append_drop, ← hsplit, List.length_append,
          hs] at hrest
        have hscan : scanned endian _ _ = _ := scanned_word_append hs (s.drop 8) (t.drop 8)
        rw [List.take_append_drop, ← hsplit] at hscan
        rw [hrest, hscan, Nat.add_assoc]
    · rename_i hword
      have hle := lcp_le_left s t
      have hin : ¬ InWord s t := by
        unfold InWord
        omega
      rw [byte_loop_eq_lcp, scanned, if_neg hin]

/-- The loop computes the scan. -/
theorem prefix_length_bytes_eq_scanned (endian : Endian) (lhs rhs : Bytes) :
    prefix_length_bytes endian lhs rhs = scanned endian lhs rhs := by
  simpa [prefix_length_bytes] using word_loop_eq_scanned endian [] lhs rhs

/-- Within the word that differs, the common prefix is what is left of it. -/
theorem lcp_word_at {lhs rhs : Bytes} (hin : InWord lhs rhs) :
    lcp (word_at lhs (lcp lhs rhs)) (word_at rhs (lcp lhs rhs)) = lcp lhs rhs % 8 := by
  have hscan := prefix_length_bytes_eq_scanned .little lhs rhs
  rw [prefix_length_bytes_eq_lcp, scanned, if_pos hin] at hscan
  have hagree : Endian.little.agreeing (word_at lhs (lcp lhs rhs)) (word_at rhs (lcp lhs rhs)) =
      lcp (word_at lhs (lcp lhs rhs)) (word_at rhs (lcp lhs rhs)) := rfl
  omega

/-- The scan finds the common prefix on every little-endian target, and on a big-endian one
exactly of the strings whose words mirror each other. -/
theorem scanned_eq_lcp_iff (endian : Endian) (lhs rhs : Bytes) :
    scanned endian lhs rhs = lcp lhs rhs ↔ Mirrored endian lhs rhs := by
  unfold scanned Mirrored
  by_cases hin : InWord lhs rhs
  · rw [if_pos hin]
    cases endian with
    | little =>
      have hword := lcp_word_at hin
      refine iff_of_true ?_ fun h => nomatch h
      change 8 * _ + lcp _ _ = _
      omega
    | big =>
      change 8 * _ + lcp _ _ = _ ↔ _
      constructor
      · intro h _ _
        omega
      · intro h
        have := h rfl hin
        omega
  · rw [if_neg hin]
    exact iff_of_true rfl fun _ h => absurd h hin

/-- Cutting both strings to the length of the shorter one changes nothing in the scan. -/
theorem scanned_take_min (endian : Endian) (lhs rhs : Bytes) :
    scanned endian (lhs.take (min lhs.length rhs.length)) (rhs.take (min lhs.length rhs.length)) =
      scanned endian lhs rhs := by
  have hin : InWord (lhs.take (min lhs.length rhs.length)) (rhs.take (min lhs.length rhs.length)) ↔ InWord lhs rhs := by
    unfold InWord
    rw [lcp_take_min, List.length_take, List.length_take]
    omega
  unfold scanned
  rw [lcp_take_min]
  by_cases h : InWord lhs rhs
  · have hword : ∀ u : Bytes, word_at (u.take (min lhs.length rhs.length)) (lcp lhs rhs) = word_at u (lcp lhs rhs) := by
      intro u
      unfold InWord at h
      unfold word_at
      rw [List.drop_take, List.take_take, Nat.min_eq_left (by omega)]
    rw [if_pos (hin.2 h), if_pos h, hword, hword]
  · rw [if_neg (mt hin.1 h), if_neg h]

end WordScan

section Methods

namespace ArrPartial

variable {SIZE : Nat} {K : Type} [KeyTrait K (ArrPartial SIZE)]

def prefix_length_key (endian : Endian) (self : ArrPartial SIZE) (key : K) (at_depth : Nat) : Result Nat := do
  let len := min self.len (← KeyTrait.length_at key at_depth)
  let len := min len SIZE
  return prefix_length_bytes endian (← slice_to self.data.bytes len)
    (← slice (← KeyTrait.as_ref key) at_depth (at_depth + len))

omit [KeyTrait K (ArrPartial SIZE)] in
def prefix_length_slice (endian : Endian) (self : ArrPartial SIZE) (slice : Bytes) : Result Nat := do
  let len := min self.len slice.length
  let len := min len SIZE
  return prefix_length_bytes endian (← slice_to self.data.bytes len) (← slice_to slice len)

end ArrPartial

namespace VectorPartial

variable {K : Type} [KeyTrait K VectorPartial]

def prefix_length_key (endian : Endian) (self : VectorPartial) (key : K) (at_depth : Nat) : Result Nat := do
  let len := min self.data.length (← KeyTrait.length_at key at_depth)
  return prefix_length_bytes endian (← slice_to self.data len)
    (← slice (← KeyTrait.as_ref key) at_depth (at_depth + len))

omit [KeyTrait K VectorPartial] in
def prefix_length_slice (endian : Endian) (self : VectorPartial) (slice : Bytes) : Result Nat := do
  let len := min self.data.length slice.length
  return prefix_length_bytes endian (← slice_to self.data len) (← slice_to slice len)

end VectorPartial

namespace OverflowPartial

variable {N : Nat} {K : Type} [KeyTrait K (OverflowPartial N)]

def prefix_length_key (endian : Endian) (self : OverflowPartial N) (key : K) (at_depth : Nat) : Result Nat := do
  let len := min self.len (← KeyTrait.length_at key at_depth)
  return prefix_length_bytes endian (← slice_to (← self.data) len)
    (← slice (← KeyTrait.as_ref key) at_depth (at_depth + len))

omit [KeyTrait K (OverflowPartial N)] in
def prefix_length_slice (endian : Endian) (self : OverflowPartial N) (slice : Bytes) : Result Nat := do
  let len := min self.len slice.length
  return prefix_length_bytes endian (← slice_to (← self.data) len) (← slice_to slice len)

end OverflowPartial

/-- What the methods of a partial type compute, for every key type that has this type as its
`PartialType`. -/
structure Measures (endian : Endian) (P : Type) [Partial P]
    (prefix_length_key : ∀ {K : Type} [KeyTrait K P], P → K → Nat → Result Nat)
    (prefix_length_slice : P → Bytes → Result Nat) : Prop where
  key : ∀ {K : Type} [KeyTrait K P] (p : P) (key : K) (bytes : Bytes) (at_depth : Nat), Partial.Wf p →
    Spells key bytes → at_depth ≤ bytes.length → ∃ n, prefix_length_key p key at_depth = .ok n ∧
      (n = lcp (Partial.bytes p) (bytes.drop at_depth) ↔
        Mirrored endian (Partial.bytes p) (bytes.drop at_depth))
  slice : ∀ (p : P) (slice : Bytes), Partial.Wf p → ∃ n, prefix_length_slice p slice = .ok n ∧
    (n = lcp (Partial.bytes p) slice ↔ Mirrored endian (Partial.bytes p) slice)

variable (endian : Endian)

/-- A method scans as much of the partial and of the other string as the shorter one has. -/
theorem scan_of_slices {pfx rest : Bytes} {len : Nat} (hlen : len = min pfx.length rest.length)
    {lhs rhs : Result Bytes} (hlhs : lhs = .ok (pfx.take len)) (hrhs : rhs = .ok (rest.take len)) :
    ∃ n, (do return prefix_length_bytes endian (← lhs) (← rhs)) = Except.ok n ∧
      (n = lcp pfx rest ↔ Mirrored endian pfx rest) := by
  refine ⟨prefix_length_bytes endian (pfx.take len) (rest.take len), by rw [hlhs, hrhs]; rfl, ?_⟩
  rw [hlen, prefix_length_bytes_eq_scanned, scanned_take_min]
  exact scanned_eq_lcp_iff endian pfx rest

/-- The slice of a key that the prefix is compared with. -/
theorem slice_of_key {bytes : Bytes} {at_depth len : Nat} (hdepth : at_depth ≤ bytes.length)
    (hlen : len ≤ (bytes.drop at_depth).length) :
    slice bytes at_depth (at_depth + len) = .ok ((bytes.drop at_depth).take len) := by
  rw [List.length_drop] at hlen
  rw [slice_eq_ok (Nat.le_add_right _ _) (by omega), List.drop_take, Nat.add_sub_cancel_left]

/-- `ArrPartial` measures by the scan. -/
theorem ArrPartial.measures (SIZE : Nat) : Measures endian (ArrPartial SIZE)
    (ArrPartial.prefix_length_key endian) (ArrPartial.prefix_length_slice endian) := by
  have hcut : ∀ {p : ArrPartial SIZE} (n : Nat), Partial.Wf p → min (min p.len n) SIZE =
      min (Partial.bytes p).length n ∧ slice_to p.data.bytes (min (min p.len n) SIZE) =
        .ok ((Partial.bytes p).take (min (min p.len n) SIZE)) := by
    intro p n hp
    have hle : p.len ≤ SIZE := hp
    have hlen : p.len = (Partial.bytes p).length := Partial.len_eq hp
    refine ⟨by omega, ?_⟩
    rw [slice_to_eq_ok (by rw [p.data.length_eq]; omega)]
    change _ = Except.ok ((p.data.bytes.take p.len).take _)
    rw [List.take_take, Nat.min_eq_left (by omega : min (min p.len n) SIZE ≤ p.len)]
  constructor
  · intro K _ p key bytes at_depth hp hkey hdepth
    obtain ⟨hmin, hslice⟩ := hcut (bytes.drop at_depth).length hp
    unfold ArrPartial.prefix_length_key
    simp only [hkey.length_at, usize_sub_eq_ok hdepth, hkey.as_ref, ok_bind, ← List.length_drop]
    exact scan_of_slices endian hmin hslice (slice_of_key hdepth (by omega))
  · intro p slice hp
    obtain ⟨hmin, hslice⟩ := hcut slice.length hp
    exact scan_of_slices endian hmin hslice (slice_to_eq_ok (by omega))

/-- `VectorPartial` measures by the scan. -/
theorem VectorPartial.measures : Measures endian VectorPartial
    (VectorPartial.prefix_length_key endian) (VectorPartial.prefix_length_slice endian) := by
  constructor
  · intro K _ p key bytes at_depth _ hkey hdepth
    unfold VectorPartial.prefix_length_key
    simp only [hkey.length_at, usize_sub_eq_ok hdepth, hkey.as_ref, ok_bind, ← List.length_drop]
    exact scan_of_slices endian rfl (slice_to_eq_ok (Nat.min_le_left _ _))
      (slice_of_key hdepth (Nat.min_le_right _ _))
  · intro p slice _
    exact scan_of_slices endian rfl (slice_to_eq_ok (Nat.min_le_left _ _)) (slice_to_eq_ok (Nat.min_le_right _ _))

/-- `OverflowPartial` measures by the scan. -/
theorem OverflowPartial.measures (N : Nat) : Measures endian (OverflowPartial N)
    (OverflowPartial.prefix_length_key endian) (OverflowPartial.prefix_length_slice endian) := by
  constructor
  · intro K _ p key bytes at_depth hp hkey hdepth
    have hdata : p.data = .ok (Partial.bytes p) := Partial.to_slice_eq hp
    have hlen : p.len = (Partial.bytes p).length := Partial.len_eq hp
    unfold OverflowPartial.prefix_length_key
    simp only [hkey.length_at, usize_sub_eq_ok hdepth, hkey.as_ref, ok_bind, ← List.length_drop, hdata, hlen]
    exact scan_of_slices endian rfl (slice_to_eq_ok (Nat.min_le_left _ _))
      (slice_of_key hdepth (Nat.min_le_right _ _))
  · intro p slice hp
    have hdata : p.data = .ok (Partial.bytes p) := Partial.to_slice_eq hp
    have hlen : p.len = (Partial.bytes p).length := Partial.len_eq hp
    unfold OverflowPartial.prefix_length_slice
    rw [hlen, hdata, ok_bind]
    exact scan_of_slices endian rfl (slice_to_eq_ok (Nat.min_le_left _ _)) (slice_to_eq_ok (Nat.min_le_right _ _))

/-- The word-wise scan is the length of the common prefix, and so are the prefix lengths of
every partial type, if and only if the target is little-endian, the first difference falls to
the byte loop, or its words mirror each other. -/
theorem prefix_lengths_eq_lcp_iff :
    (∀ lhs rhs, prefix_length_bytes endian lhs rhs = lcp lhs rhs ↔ Mirrored endian lhs rhs) ∧
    (∀ SIZE, Measures endian (ArrPartial SIZE)
      (ArrPartial.prefix_length_key endian) (ArrPartial.prefix_length_slice endian)) ∧
    Measures endian VectorPartial
      (VectorPartial.prefix_length_key endian) (VectorPartial.prefix_length_slice endian) ∧
    ∀ N, Measures endian (OverflowPartial N)
      (OverflowPartial.prefix_length_key endian) (OverflowPartial.prefix_length_slice endian) := by
  refine ⟨fun lhs rhs => ?_, ArrPartial.measures endian, VectorPartial.measures endian,
    OverflowPartial.measures endian⟩
  rw [prefix_length_bytes_eq_scanned]
  exact scanned_eq_lcp_iff endian lhs rhs

/-- On a big-endian target, two words that first differ in their last byte are taken to
share nothing. -/
theorem prefix_length_bytes_big :
    ¬ ∀ (endian : Endian) (lhs rhs : Bytes), prefix_length_bytes endian lhs rhs = lcp lhs rhs := by
  intro h
  have hword := h .big [0, 0, 0, 0, 0, 0, 0, 1] [0, 0, 0, 0, 0, 0, 0, 0]
  rw [prefix_length_bytes_eq_scanned] at hword
  revert hword
  decide

end Methods

end rart.partials
