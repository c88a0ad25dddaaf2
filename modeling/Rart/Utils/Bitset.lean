import Mathlib.Algebra.Group.Nat.Defs
import Mathlib.Data.List.Sort
import Rart.Lib.Cursor
import Rart.Panic

namespace rart.utils

/-- `Bitset<StorageType, STORAGE_WIDTH>`: a set of small numbers, one bit for each, in words of `2
^ BIT_SHIFT` bits. -/
structure Bitset (BIT_SHIFT : Nat) where
  bitset : List (BitVec (2 ^ BIT_SHIFT))

/-- `Bitset64<STORAGE_WIDTH>` -/
abbrev Bitset64 := Bitset 6

namespace Bitset

variable {BIT_SHIFT : Nat}

/-- All words zero. -/
def new (STORAGE_WIDTH : Nat) : Bitset BIT_SHIFT := ⟨List.replicate STORAGE_WIDTH 0#_⟩

/-- `BITSET_WIDTH`: the number of positions. -/
def capacity (self : Bitset BIT_SHIFT) : Nat := 2 ^ BIT_SHIFT * self.bitset.length

/-- The word of the position gets the bit, or panics where there is no such word. -/
def set (self : Bitset BIT_SHIFT) (pos : Nat) : Result (Bitset BIT_SHIFT) := do
  let v ← index self.bitset (pos >>> BIT_SHIFT)
  let shift := 1#(2 ^ BIT_SHIFT) <<< (pos % 2 ^ BIT_SHIFT)
  return ⟨← index_set self.bitset (pos >>> BIT_SHIFT) (v ||| shift)⟩

/-- The word of the position loses the bit, or panics where there is no such word. -/
def unset (self : Bitset BIT_SHIFT) (pos : Nat) : Result (Bitset BIT_SHIFT) := do
  let v ← index self.bitset (pos >>> BIT_SHIFT)
  let shift := 1#(2 ^ BIT_SHIFT) <<< (pos % 2 ^ BIT_SHIFT)
  return ⟨← index_set self.bitset (pos >>> BIT_SHIFT) (v &&& ~~~shift)⟩

/-- A position past the last word is not in the set; the source panics there. -/
def check (self : Bitset BIT_SHIFT) (pos : Nat) : Bool :=
  match self.bitset[pos >>> BIT_SHIFT]? with
  | some v => v &&& (1#(2 ^ BIT_SHIFT) <<< (pos % 2 ^ BIT_SHIFT)) ≠ 0#_
  | none => false

/-- Every word is zeroed. -/
def clear (self : Bitset BIT_SHIFT) : Bitset BIT_SHIFT := ⟨self.bitset.map (fun _ => 0#_)⟩

/-- `trailing_ones` of a word. -/
def trailing_ones {w : Nat} (word : BitVec w) : Nat := (~~~word).ctz.toNat

/-- The loop of `first_empty_specialized` over the words from `i` on. -/
def first_empty.scan (i : Nat) : List (BitVec (2 ^ BIT_SHIFT)) → Option Nat
  | [] => none
  | b :: words =>
    if b = 0#_ then some (i <<< BIT_SHIFT)
    else if b ≠ BitVec.allOnes _ then some ((i <<< BIT_SHIFT) + trailing_ones b)
    else scan (i + 1) words

/-- The four-word loop, without the test for zero. -/
def first_empty.scan_four (i : Nat) : List (BitVec (2 ^ BIT_SHIFT)) → Option Nat
  | [] => none
  | word :: words =>
    if word ≠ BitVec.allOnes _ then some ((i <<< 6) + trailing_ones word)
    else scan_four (i + 1) words

/-- The specialised scans of one and of four words of 64 bits, and the plain one. -/
def first_empty (self : Bitset BIT_SHIFT) : Option Nat :=
  if BIT_SHIFT = 6 ∧ self.bitset.length = 1 then
    self.bitset.head?.bind fun word =>
      if word ≠ BitVec.allOnes _ then some (trailing_ones word) else none
  else if BIT_SHIFT = 6 ∧ self.bitset.length = 4 then first_empty.scan_four 0 self.bitset
  else first_empty.scan 0 self.bitset

/-- The loop over the words from `i` on. -/
def first_set.scan (i : Nat) : List (BitVec (2 ^ BIT_SHIFT)) → Option Nat
  | [] => none
  | b :: words =>
    if b ≠ 0#_ then some ((i <<< BIT_SHIFT) + b.ctz.toNat) else scan (i + 1) words

/-- The four-word loop. -/
def first_set.scan_four (i : Nat) : List (BitVec (2 ^ BIT_SHIFT)) → Option Nat
  | [] => none
  | word :: words =>
    if word ≠ 0#_ then some ((i <<< 6) + word.ctz.toNat) else scan_four (i + 1) words

/-- Specialised like `first_empty`. -/
def first_set (self : Bitset BIT_SHIFT) : Option Nat :=
  if BIT_SHIFT = 6 ∧ self.bitset.length = 1 then
    self.bitset.head?.bind fun word => if word ≠ 0#_ then some word.ctz.toNat else none
  else if BIT_SHIFT = 6 ∧ self.bitset.length = 4 then first_set.scan_four 0 self.bitset
  else first_set.scan 0 self.bitset

end Bitset

/-- `BitsetOnesIter` -/
structure BitsetOnesIter (BIT_SHIFT : Nat) where
  bitset : List (BitVec (2 ^ BIT_SHIFT))
  word_idx : Nat
  current_word : BitVec 64

namespace BitsetOnesIter

variable {BIT_SHIFT : Nat}

/-- One turn of `BitsetOnesIter::next`: load the next word, or emit the lowest
position of the current one and clear its bit. -/
def step (self : BitsetOnesIter BIT_SHIFT) : Option (Option Nat × BitsetOnesIter BIT_SHIFT) :=
  if self.current_word = 0#64 then
    match self.bitset[self.word_idx]? with
    | none => none
    | some word =>
      some (none, { self with current_word := word.setWidth 64, word_idx := self.word_idx + 1 })
  else
    let bit_idx := self.current_word.ctz.toNat
    some (some (((self.word_idx - 1) <<< BIT_SHIFT) + bit_idx),
      { self with current_word := self.current_word &&& (self.current_word - 1#64) })

/-- Clearing the lowest bit makes a word smaller, so the iterator ends. -/
theorem and_pred_lt {word : BitVec 64} (h : word ≠ 0#64) :
    (word &&& (word - 1#64)).toNat < word.toNat := by
  have hpos : 0 < word.toNat := by
    rw [Nat.pos_iff_ne_zero]
    exact fun h0 => h (BitVec.eq_of_toNat_eq h0)
  have hsub : (word - 1#64).toNat = word.toNat - 1 := by
    rw [BitVec.toNat_sub_of_le (by rw [BitVec.le_def]; exact hpos)]
    rfl
  rw [BitVec.toNat_and]
  have hle := @Nat.and_le_right word.toNat (word - 1#64).toNat
  omega

/-- The words still to be loaded weigh more than any word that is loaded. -/
def cursor : Cursor (BitsetOnesIter BIT_SHIFT) Nat where
  step := step
  size self := (self.bitset.length - self.word_idx) * 2 ^ 64 + self.current_word.toNat
  step_lt := by
    intro s o s' h
    unfold step at h
    split at h
    · rename_i hzero
      split at h
      · cases h
      · rename_i word hword
        cases h
        have hidx := (List.getElem?_eq_some_iff.1 hword).1
        have hlt := (word.setWidth 64).isLt
        have hsplit : s.bitset.length - s.word_idx = s.bitset.length - (s.word_idx + 1) + 1 := by
          omega
        rw [hsplit, Nat.add_mul]
        dsimp only
        omega
    · rename_i hword
      cases h
      have := and_pred_lt hword
      dsimp only
      omega

end BitsetOnesIter

namespace Bitset

variable {BIT_SHIFT : Nat}

/-- `Bitset::iter`, run to its end. -/
def iter (self : Bitset BIT_SHIFT) : List Nat :=
  BitsetOnesIter.cursor.collect ⟨self.bitset, 0, 0#64⟩

end Bitset

/-- The positions of the ones of a word, in ascending order. -/
def ones {w : Nat} (word : BitVec w) : List Nat := (List.range w).filter (fun i => word.getLsbD i)

section Word

variable {w : Nat}

/-- The positions listed are those of the ones. -/
theorem mem_ones {word : BitVec w} {i : Nat} : i ∈ ones word ↔ word.getLsbD i = true := by
  unfold ones
  rw [List.mem_filter, List.mem_range]
  constructor
  · exact fun h => h.2
  · exact fun h => ⟨BitVec.lt_of_getLsbD h, h⟩

/-- The positions are listed upwards. -/
theorem ones_ascending (word : BitVec w) : (ones word).Pairwise (· < ·) :=
  List.Pairwise.filter _ List.pairwise_lt_range

/-- No bit of zero is one. -/
@[simp] theorem ones_zero : ones (0#w) = [] := by
  unfold ones
  simp

/-- Clearing the lowest one keeps all others. -/
theorem getLsbD_and_pred {word : BitVec w} (h : word ≠ 0#w) (i : Nat) :
    (word &&& (word - 1#w)).getLsbD i = (word.getLsbD i && decide (i ≠ word.ctz.toNat)) := by
  have hw : 0 < w := by
    rw [Nat.pos_iff_ne_zero]
    rintro rfl
    exact h (Subsingleton.elim _ _)
  have hbit := BitVec.getLsbD_true_ctz_of_ne_zero h
  have hlow : ∀ j < word.ctz.toNat, word.toNat.testBit j = false := fun j hj =>
    BitVec.getLsbD_false_of_lt_ctz hj
  have hctz : word.ctz.toNat < w := BitVec.lt_of_getLsbD hbit
  generalize word.ctz.toNat = t at *
  -- above `t` the word is an odd number `q`, below `t` it is zero
  obtain ⟨q, hq⟩ : ∃ q, q = word.toNat / 2 ^ t := ⟨_, rfl⟩
  have htest : ∀ k, word.getLsbD (t + k) = q.testBit k := fun k => by
    rw [hq, Nat.testBit_div_two_pow, BitVec.testBit_toNat, Nat.add_comm]
  have hsplit : word.toNat = 2 ^ t * q := by
    have hzero : word.toNat % 2 ^ t = 0 := by
      refine Nat.eq_of_testBit_eq fun j => ?_
      rw [Nat.testBit_mod_two_pow]
      by_cases hj : j < t
      · simp [hlow j hj]
      · simp [hj]
    rw [hq, Nat.mul_div_cancel' (Nat.dvd_of_mod_eq_zero hzero)]
  have hodd : q % 2 = 1 := by
    have h0 := htest 0
    rw [Nat.add_zero, hbit, Nat.testBit_zero] at h0
    simpa using h0.symm
  obtain ⟨m, rfl⟩ : ∃ m, q = m + 1 := ⟨q - 1, by omega⟩
  have hpow := Nat.two_pow_pos t
  have hsub : (word - 1#w).toNat = 2 ^ t * m + (2 ^ t - 1) := by
    have hone : (1#w).toNat = 1 := by
      simpa using Nat.mod_eq_of_lt (Nat.one_lt_two_pow hw.ne')
    rw [Nat.mul_add] at hsplit
    have hle : 1#w ≤ word := by
      rw [BitVec.le_def, hone]
      omega
    rw [BitVec.toNat_sub_of_le hle, hone]
    omega
  have hpred : (word - 1#w).getLsbD i = if i < t then true else m.testBit (i - t) := by
    rw [← BitVec.testBit_toNat, hsub, Nat.testBit_two_pow_mul_add _ (by omega)]
    split
    · rename_i hi
      simp [hi]
    · rfl
  rw [BitVec.getLsbD_and, hpred]
  rcases lt_trichotomy i t with hi | rfl | hi
  · have hzero : word.getLsbD i = false := hlow i hi
    simp [hzero]
  · have heven : m % 2 = 0 := by omega
    simp [Nat.testBit_zero, heven]
  · obtain ⟨k, rfl⟩ : ∃ k, i = t + (k + 1) := ⟨i - t - 1, by omega⟩
    have hdiff : t + (k + 1) - t = k + 1 := by omega
    have hnot : ¬ t + (k + 1) < t := by omega
    have hhalf : m / 2 = (m + 1) / 2 := by omega
    rw [htest, hdiff, if_neg hnot, Nat.testBit_add_one, Nat.testBit_add_one, hhalf]
    simp

/-- The lowest one, then the ones that are left when it is cleared. -/
theorem ones_cons {word : BitVec w} (h : word ≠ 0#w) :
    ones word = word.ctz.toNat :: ones (word &&& (word - 1#w)) := by
  refine List.Pairwise.eq_of_mem_iff (r := (· < ·)) (ones_ascending word) ?_ ?_
  · refine List.pairwise_cons.2 ⟨?_, ones_ascending _⟩
    intro i hi
    rw [mem_ones, getLsbD_and_pred h, Bool.and_eq_true, decide_eq_true_eq] at hi
    have hle : ¬ i < word.ctz.toNat := fun hlt => by
      rw [BitVec.getLsbD_false_of_lt_ctz hlt] at hi
      exact Bool.false_ne_true hi.1
    omega
  · intro i
    rw [List.mem_cons, mem_ones, mem_ones, getLsbD_and_pred h, Bool.and_eq_true, decide_eq_true_eq]
    constructor
    · intro hi
      by_cases heq : i = word.ctz.toNat
      · exact Or.inl heq
      · exact Or.inr ⟨hi, heq⟩
    · rintro (rfl | hi)
      · exact BitVec.getLsbD_true_ctz_of_ne_zero h
      · exact hi.1

/-- The lowest zero of a word that has one is behind its trailing ones. -/
theorem ones_not_cons {word : BitVec w} (h : word ≠ BitVec.allOnes w) :
    ones (~~~word) = Bitset.trailing_ones word :: ones (~~~word &&& (~~~word - 1#w)) := by
  refine ones_cons fun hzero => h ?_
  have hnot := congrArg (~~~ ·) hzero
  simpa using hnot

/-- Zero ends in a zero. -/
theorem trailing_ones_zero (h : 0 < w) : Bitset.trailing_ones (0#w) = 0 := by
  unfold Bitset.trailing_ones
  by_contra hne
  have hlow := BitVec.getLsbD_false_of_lt_ctz (x := ~~~(0#w)) (i := 0) (by omega)
  simp [h] at hlow

/-- A wider word has no other ones. -/
theorem ones_setWidth {n : Nat} (word : BitVec w) (h : w ≤ n) : ones (word.setWidth n) = ones word := by
  refine List.Pairwise.eq_of_mem_iff (r := (· < ·)) (ones_ascending _) (ones_ascending _) ?_
  intro i
  rw [mem_ones, mem_ones, BitVec.getLsbD_setWidth, Bool.and_eq_true, decide_eq_true_eq]
  constructor
  · exact fun hi => hi.2
  · exact fun hi => ⟨lt_of_lt_of_le (BitVec.lt_of_getLsbD hi) h, hi⟩

end Word

namespace Bitset

variable {BIT_SHIFT : Nat}

/-- The word of a position. -/
theorem shift_eq_div (pos : Nat) : pos >>> BIT_SHIFT = pos / 2 ^ BIT_SHIFT :=
  Nat.shiftRight_eq_div_pow pos BIT_SHIFT

/-- A position is in the set when its bit in its word is one. -/
theorem check_iff {self : Bitset BIT_SHIFT} {pos : Nat} :
    self.check pos = true ↔
      ∃ v, self.bitset[pos / 2 ^ BIT_SHIFT]? = some v ∧ v.getLsbD (pos % 2 ^ BIT_SHIFT) = true := by
  unfold check
  rw [shift_eq_div]
  cases self.bitset[pos / 2 ^ BIT_SHIFT]? with
  | none => simp
  | some v =>
    have hlt : pos % 2 ^ BIT_SHIFT < 2 ^ BIT_SHIFT := Nat.mod_lt _ (Nat.two_pow_pos _)
    have hmask : v &&& (1#(2 ^ BIT_SHIFT) <<< (pos % 2 ^ BIT_SHIFT)) ≠ 0#_ ↔
        v.getLsbD (pos % 2 ^ BIT_SHIFT) = true := by
      rw [← BitVec.twoPow_eq, BitVec.and_twoPow]
      split
      · rename_i hbit
        simp only [hbit, iff_true]
        intro hzero
        have hbits := congrArg (fun x => x.getLsbD (pos % 2 ^ BIT_SHIFT)) hzero
        simp [hlt] at hbits
      · rename_i hbit
        simp [hbit]
    simpa using hmask

/-- Every position of the set has a word. -/
theorem lt_capacity_of_check {self : Bitset BIT_SHIFT} {pos : Nat} (h : self.check pos = true) :
    pos < self.capacity := by
  obtain ⟨v, hv, _⟩ := check_iff.1 h
  have hlt := (List.getElem?_eq_some_iff.1 hv).1
  unfold capacity
  have hmul := Nat.mul_lt_mul_of_pos_left hlt (Nat.two_pow_pos BIT_SHIFT)
  have hdiv := Nat.div_add_mod pos (2 ^ BIT_SHIFT)
  have hmod := Nat.mod_lt pos (Nat.two_pow_pos BIT_SHIFT)
  have hsucc : 2 ^ BIT_SHIFT * (pos / 2 ^ BIT_SHIFT + 1) ≤ 2 ^ BIT_SHIFT * self.bitset.length :=
    Nat.mul_le_mul_left _ hlt
  rw [Nat.mul_add] at hsucc
  omega

/-- Below the capacity there is a word. -/
theorem word_idx_lt {self : Bitset BIT_SHIFT} {pos : Nat} (h : pos < self.capacity) :
    pos / 2 ^ BIT_SHIFT < self.bitset.length := Nat.div_lt_of_lt_mul h

/-- A position is its word and its bit. -/
theorem eq_of_div_mod_eq {a b n : Nat} (hdiv : a / n = b / n) (hmod : a % n = b % n) : a = b := by
  rw [← Nat.div_add_mod a n, ← Nat.div_add_mod b n, hdiv, hmod]

/-- Writing one word changes the set at that word's positions only. -/
theorem check_set_word {self : Bitset BIT_SHIFT} {pos q : Nat} (word : BitVec (2 ^ BIT_SHIFT))
    (h : pos < self.capacity) :
    Bitset.check ⟨self.bitset.set (pos / 2 ^ BIT_SHIFT) word⟩ q = true ↔
      if q / 2 ^ BIT_SHIFT = pos / 2 ^ BIT_SHIFT then word.getLsbD (q % 2 ^ BIT_SHIFT) = true
      else self.check q = true := by
  rw [check_iff]
  split
  · rename_i heq
    rw [heq, List.getElem?_set_self (word_idx_lt h)]
    simp
  · rename_i hne
    rw [List.getElem?_set_ne (Ne.symm hne), check_iff]

/-- `set` adds a position of the capacity. -/
theorem set_spec {self : Bitset BIT_SHIFT} {pos : Nat} (h : pos < self.capacity) :
    ∃ b, self.set pos = .ok b ∧ b.bitset.length = self.bitset.length ∧
      ∀ q, b.check q = true ↔ q = pos ∨ self.check q = true := by
  have hidx := word_idx_lt h
  obtain ⟨v, hv⟩ : ∃ v, self.bitset[pos / 2 ^ BIT_SHIFT]? = some v :=
    ⟨_, List.getElem?_eq_getElem hidx⟩
  unfold Bitset.set
  dsimp only
  rw [shift_eq_div, index_eq_ok hv, ok_bind, index_set_eq_ok hidx, ok_bind]
  refine ⟨_, rfl, by simp, ?_⟩
  intro q
  rw [check_set_word _ h]
  split
  · rename_i heq
    have hq : self.check q = true ↔ v.getLsbD (q % 2 ^ BIT_SHIFT) = true := by
      rw [check_iff, heq, hv]
      simp
    have hlt : pos % 2 ^ BIT_SHIFT < 2 ^ BIT_SHIFT := Nat.mod_lt _ (Nat.two_pow_pos _)
    have hpos : pos % 2 ^ BIT_SHIFT = q % 2 ^ BIT_SHIFT ↔ q = pos :=
      ⟨fun hmod => eq_of_div_mod_eq heq hmod.symm, fun hqp => by rw [hqp]⟩
    rw [hq, ← BitVec.twoPow_eq, BitVec.getLsbD_or, BitVec.getLsbD_twoPow]
    simp only [hlt, decide_true, Bool.true_and, Bool.or_eq_true, decide_eq_true_eq, hpos]
    exact or_comm
  · rename_i hne
    have hqp : q ≠ pos := fun heq => hne (by rw [heq])
    simp [hqp]

/-- `unset` removes a position of the capacity. -/
theorem unset_spec {self : Bitset BIT_SHIFT} {pos : Nat} (h : pos < self.capacity) :
    ∃ b, self.unset pos = .ok b ∧ b.bitset.length = self.bitset.length ∧
      ∀ q, b.check q = true ↔ q ≠ pos ∧ self.check q = true := by
  have hidx := word_idx_lt h
  obtain ⟨v, hv⟩ : ∃ v, self.bitset[pos / 2 ^ BIT_SHIFT]? = some v :=
    ⟨_, List.getElem?_eq_getElem hidx⟩
  unfold Bitset.unset
  dsimp only
  rw [shift_eq_div, index_eq_ok hv, ok_bind, index_set_eq_ok hidx, ok_bind]
  refine ⟨_, rfl, by simp, ?_⟩
  intro q
  rw [check_set_word _ h]
  split
  · rename_i heq
    have hq : self.check q = true ↔ v.getLsbD (q % 2 ^ BIT_SHIFT) = true := by
      rw [check_iff, heq, hv]
      simp
    have hlt : pos % 2 ^ BIT_SHIFT < 2 ^ BIT_SHIFT := Nat.mod_lt _ (Nat.two_pow_pos _)
    have hltq : q % 2 ^ BIT_SHIFT < 2 ^ BIT_SHIFT := Nat.mod_lt _ (Nat.two_pow_pos _)
    have hpos : pos % 2 ^ BIT_SHIFT = q % 2 ^ BIT_SHIFT ↔ q = pos :=
      ⟨fun hmod => eq_of_div_mod_eq heq hmod.symm, fun hqp => by rw [hqp]⟩
    rw [hq, ← BitVec.twoPow_eq, BitVec.getLsbD_and, BitVec.getLsbD_not, BitVec.getLsbD_twoPow]
    simp only [hlt, hltq, decide_true, Bool.true_and, Bool.and_eq_true, Bool.not_eq_true',
      decide_eq_false_iff_not, hpos]
    exact and_comm
  · rename_i hne
    have hqp : q ≠ pos := fun heq => hne (by rw [heq])
    simp [hqp]

/-- No position is in a new set. -/
theorem check_new (STORAGE_WIDTH pos : Nat) :
    (Bitset.new STORAGE_WIDTH : Bitset BIT_SHIFT).check pos = false := by
  rw [← Bool.not_eq_true, check_iff]
  rintro ⟨v, hv, hbit⟩
  simp only [Bitset.new, List.getElem?_replicate] at hv
  split at hv <;> cases hv
  simp at hbit

/-- The positions held by words that start at word index `i`. -/
def positions_from (i : Nat) : List (BitVec (2 ^ BIT_SHIFT)) → List Nat
  | [] => []
  | word :: words => (ones word).map (fun bit => (i <<< BIT_SHIFT) + bit) ++ positions_from (i + 1) words

/-- The set in ascending order. -/
def positions (self : Bitset BIT_SHIFT) : List Nat := positions_from 0 self.bitset

/-- What the words from `i` on contribute. -/
theorem mem_positions_from {i p : Nat} {words : List (BitVec (2 ^ BIT_SHIFT))} :
    p ∈ positions_from i words ↔ 2 ^ BIT_SHIFT * i ≤ p ∧
      ∃ v, words[p / 2 ^ BIT_SHIFT - i]? = some v ∧ v.getLsbD (p % 2 ^ BIT_SHIFT) = true := by
  have hpow := Nat.two_pow_pos BIT_SHIFT
  induction words generalizing i with
  | nil => simp [positions_from]
  | cons word words ih =>
    simp only [positions_from, List.mem_append, List.mem_map, mem_ones, ih, Nat.shiftLeft_eq]
    constructor
    · rintro (⟨bit, hbit, rfl⟩ | ⟨hle, v, hv, hbit⟩)
      · have hlt := BitVec.lt_of_getLsbD hbit
        have hdiv : (i * 2 ^ BIT_SHIFT + bit) / 2 ^ BIT_SHIFT = i := by
          rw [Nat.mul_comm, Nat.mul_add_div hpow, Nat.div_eq_of_lt hlt]
          rfl
        have hmod : (i * 2 ^ BIT_SHIFT + bit) % 2 ^ BIT_SHIFT = bit := by
          rw [Nat.mul_comm, Nat.mul_add_mod, Nat.mod_eq_of_lt hlt]
        refine ⟨by rw [Nat.mul_comm]; omega, word, ?_, ?_⟩
        · rw [hdiv]
          simp
        · rw [hmod]
          exact hbit
      · have hi : i + 1 ≤ p / 2 ^ BIT_SHIFT := (Nat.le_div_iff_mul_le hpow).2 (by rwa [Nat.mul_comm])
        refine ⟨?_, v, ?_, hbit⟩
        · rw [Nat.mul_add] at hle
          omega
        · have hsub : p / 2 ^ BIT_SHIFT - i = p / 2 ^ BIT_SHIFT - (i + 1) + 1 := by omega
          rw [hsub, List.getElem?_cons_succ]
          exact hv
    · rintro ⟨hle, v, hv, hbit⟩
      have hi : i ≤ p / 2 ^ BIT_SHIFT := (Nat.le_div_iff_mul_le hpow).2 (by rwa [Nat.mul_comm])
      have hdivmod := Nat.div_add_mod p (2 ^ BIT_SHIFT)
      by_cases heq : p / 2 ^ BIT_SHIFT = i
      · left
        rw [heq] at hv hdivmod
        simp only [Nat.sub_self, List.getElem?_cons_zero, Option.some.injEq] at hv
        subst hv
        exact ⟨_, hbit, by rw [Nat.mul_comm]; exact hdivmod⟩
      · right
        have hi' : i + 1 ≤ p / 2 ^ BIT_SHIFT := by omega
        refine ⟨?_, v, ?_, hbit⟩
        · rw [Nat.mul_comm]
          exact (Nat.le_div_iff_mul_le hpow).1 hi'
        · have hsub : p / 2 ^ BIT_SHIFT - i = p / 2 ^ BIT_SHIFT - (i + 1) + 1 := by omega
          rw [hsub, List.getElem?_cons_succ] at hv
          exact hv

/-- Word by word, the positions go up. -/
theorem positions_from_ascending (i : Nat) (words : List (BitVec (2 ^ BIT_SHIFT))) :
    (positions_from i words).Pairwise (· < ·) := by
  induction words generalizing i with
  | nil => exact List.Pairwise.nil
  | cons word words ih =>
    refine List.pairwise_append.2 ⟨?_, ih (i + 1), ?_⟩
    · rw [List.pairwise_map]
      exact List.Pairwise.imp (fun hlt => by omega) (ones_ascending word)
    · intro a ha b hb
      obtain ⟨bit, hbit, rfl⟩ := List.mem_map.1 ha
      have hlt := BitVec.lt_of_getLsbD (mem_ones.1 hbit)
      have hle := (mem_positions_from.1 hb).1
      rw [Nat.mul_add] at hle
      rw [Nat.shiftLeft_eq, Nat.mul_comm]
      omega

/-- The positions of a set are those that `check` finds. -/
theorem mem_positions {self : Bitset BIT_SHIFT} {pos : Nat} :
    pos ∈ self.positions ↔ self.check pos = true := by
  rw [positions, mem_positions_from, check_iff]
  simp

/-- They are listed upwards. -/
theorem positions_ascending (self : Bitset BIT_SHIFT) : self.positions.Pairwise (· < ·) :=
  positions_from_ascending 0 self.bitset

/-- What is pending in the iterator: the rest of the loaded word, then the words
not loaded yet. -/
theorem iter_eq_positions (hshift : BIT_SHIFT ≤ 6) (self : Bitset BIT_SHIFT) :
    self.iter = self.positions := by
  have hwidth : 2 ^ BIT_SHIFT ≤ 64 := Nat.pow_le_pow_right (by omega) hshift
  refine Cursor.collect_eq_of_pending _ (fun it l => l =
    (ones it.current_word).map (fun bit => ((it.word_idx - 1) <<< BIT_SHIFT) + bit) ++
      positions_from it.word_idx (it.bitset.drop it.word_idx)) ?_ ?_ ?_
  · rintro it l rfl hstep
    simp only [BitsetOnesIter.cursor, BitsetOnesIter.step] at hstep
    split at hstep
    · rename_i hzero
      split at hstep
      · rename_i hnone
        have hlen := List.getElem?_eq_none_iff.1 hnone
        rw [hzero, ones_zero, List.drop_eq_nil_of_le hlen]
        rfl
      · cases hstep
    · cases hstep
  · rintro it l o it' rfl hstep
    simp only [BitsetOnesIter.cursor, BitsetOnesIter.step] at hstep
    split at hstep
    · rename_i hzero
      split at hstep
      · cases hstep
      · rename_i word hword
        obtain ⟨hlt, hget⟩ := List.getElem?_eq_some_iff.1 hword
        cases hstep
        refine ⟨_, rfl, ?_⟩
        rw [hzero, ones_zero, List.drop_eq_getElem_cons hlt, hget]
        simp only [ones_setWidth word hwidth, positions_from, Nat.add_sub_cancel, List.map_nil]
        rfl
    · rename_i hword
      cases hstep
      rw [ones_cons hword]
      exact ⟨_, rfl, rfl⟩
  · simp [positions]

/-- The loop finds the first position of the words that are left. -/
theorem first_set_scan (i : Nat) (words : List (BitVec (2 ^ BIT_SHIFT))) :
    first_set.scan i words = (positions_from i words).head? := by
  induction words generalizing i with
  | nil => rfl
  | cons word words ih =>
    unfold first_set.scan positions_from
    by_cases hzero : word = 0#_
    · simp [hzero, ih]
    · simp [hzero, ones_cons hzero]

/-- Whichever scan runs, it finds the first position of the set. -/
theorem first_set_eq_head? (self : Bitset BIT_SHIFT) : self.first_set = self.positions.head? := by
  obtain ⟨words⟩ := self
  unfold first_set positions
  split
  · rename_i hone
    obtain ⟨rfl, hlen⟩ := hone
    obtain ⟨word, rfl⟩ := List.length_eq_one_iff.1 hlen
    by_cases hzero : word = 0#_
    · simp [hzero, positions_from]
    · rw [List.head?_cons, Option.bind_some, if_pos hzero]
      simp [positions_from, ones_cons hzero]
  · split
    · rename_i hfour
      obtain ⟨rfl, _⟩ := hfour
      have hscan : ∀ (i : Nat) (words : List (BitVec (2 ^ 6))),
          first_set.scan_four i words = first_set.scan i words := by
        intro i words
        induction words generalizing i with
        | nil => rfl
        | cons word words ih => simp only [first_set.scan_four, first_set.scan, ih]
      rw [hscan, first_set_scan]
    · rw [first_set_scan]

/-- The positions that are not in the set. -/
def vacant (self : Bitset BIT_SHIFT) : Bitset BIT_SHIFT := ⟨self.bitset.map (~~~ ·)⟩

/-- The complement holds what is below the capacity and not in the set. -/
theorem check_vacant {self : Bitset BIT_SHIFT} {pos : Nat} :
    self.vacant.check pos = true ↔ pos < self.capacity ∧ self.check pos = false := by
  have hlt : pos % 2 ^ BIT_SHIFT < 2 ^ BIT_SHIFT := Nat.mod_lt _ (Nat.two_pow_pos _)
  constructor
  · intro h
    have hcap := lt_capacity_of_check h
    refine ⟨by simpa [capacity, vacant] using hcap, ?_⟩
    obtain ⟨v, hv, hbit⟩ := check_iff.1 h
    simp only [vacant, List.getElem?_map, Option.map_eq_some_iff] at hv
    obtain ⟨word, hword, rfl⟩ := hv
    rw [← Bool.not_eq_true, check_iff, hword]
    simpa [hlt] using hbit
  · rintro ⟨hcap, hcheck⟩
    obtain ⟨v, hv⟩ : ∃ v, self.bitset[pos / 2 ^ BIT_SHIFT]? = some v :=
      ⟨_, List.getElem?_eq_getElem (word_idx_lt hcap)⟩
    rw [← Bool.not_eq_true, check_iff, hv] at hcheck
    rw [check_iff]
    refine ⟨~~~v, by simp [vacant, hv], ?_⟩
    simpa [hlt] using hcheck

/-- The loop finds the first position of the complement. -/
theorem first_empty_scan (i : Nat) (words : List (BitVec (2 ^ BIT_SHIFT))) :
    first_empty.scan i words = (positions_from i (words.map (~~~ ·))).head? := by
  induction words generalizing i with
  | nil => rfl
  | cons word words ih =>
    unfold first_empty.scan
    rw [List.map_cons, positions_from]
    by_cases hfull : word = BitVec.allOnes _
    · have hne : BitVec.allOnes (2 ^ BIT_SHIFT) ≠ 0#_ := fun hzero => by
        have hbit := congrArg (fun b => b.getLsbD 0) hzero
        simp at hbit
      rw [hfull, if_neg hne, if_neg (not_not.2 rfl), ih, BitVec.not_allOnes, ones_zero]
      rfl
    · rw [ones_not_cons hfull]
      split
      · rename_i hzero
        rw [hzero, trailing_ones_zero (Nat.two_pow_pos _)]
        rfl
      · rfl

/-- Whichever scan runs, it finds the first position of the complement. -/
theorem first_empty_eq_head? (self : Bitset BIT_SHIFT) :
    self.first_empty = self.vacant.positions.head? := by
  obtain ⟨words⟩ := self
  unfold first_empty positions vacant
  split
  · rename_i hone
    obtain ⟨rfl, hlen⟩ := hone
    obtain ⟨word, rfl⟩ := List.length_eq_one_iff.1 hlen
    by_cases hfull : word = BitVec.allOnes _
    · simp [hfull, positions_from]
    · rw [List.map_cons, positions_from, ones_not_cons hfull, List.head?_cons, Option.bind_some,
        if_pos hfull]
      simp
  · split
    · rename_i hfour
      obtain ⟨rfl, _⟩ := hfour
      have hscan : ∀ (i : Nat) (words : List (BitVec (2 ^ 6))),
          first_empty.scan_four i words = first_empty.scan i words := by
        intro i words
        induction words generalizing i with
        | nil => rfl
        | cons word words ih =>
          unfold first_empty.scan_four first_empty.scan
          by_cases hzero : word = 0#_
          · have hne : 0#(2 ^ 6) ≠ BitVec.allOnes (2 ^ 6) := by decide
            rw [hzero, if_pos rfl, if_pos hne, trailing_ones_zero (by omega)]
            rfl
          · rw [if_neg hzero, ih]
      rw [hscan, first_empty_scan]
    · rw [first_empty_scan]

end Bitset

end rart.utils
