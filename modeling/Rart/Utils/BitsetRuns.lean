import Mathlib.Algebra.GroupWithZero.Nat
import Mathlib.Data.Finset.Card
import Mathlib.Order.Bounds.Defs
import Rart.Utils.Bitset

namespace rart.utils

section Ascending

variable {l : List Nat} {p : Nat}

/-- The first of an ascending list is its least element. -/
theorem head?_eq_some_iff_isLeast (h : l.Pairwise (· < ·)) : l.head? = some p ↔ IsLeast {q | q ∈ l} p := by
  cases l with
  | nil => exact ⟨fun hp => (by cases hp), fun hp => (by cases hp.1)⟩
  | cons q l =>
    have hq := (List.pairwise_cons.1 h).1
    rw [List.head?_cons, Option.some.injEq]
    constructor
    · rintro rfl
      refine ⟨List.mem_cons_self, fun r hr => ?_⟩
      cases List.mem_cons.1 hr with
      | inl heq => exact Nat.le_of_eq heq.symm
      | inr hmem => exact Nat.le_of_lt (hq r hmem)
    · intro hp
      cases List.mem_cons.1 hp.1 with
      | inl heq => exact heq.symm
      | inr hmem =>
        have hle := hp.2 List.mem_cons_self
        have hlt := hq p hmem
        omega

/-- The last of an ascending list is its greatest element. -/
theorem getLast?_eq_some_iff_isGreatest (h : l.Pairwise (· < ·)) :
    l.getLast? = some p ↔ IsGreatest {q | q ∈ l} p := by
  rcases List.eq_nil_or_concat l with rfl | ⟨l, q, rfl⟩
  · exact ⟨fun hp => (by cases hp), fun hp => (by cases hp.1)⟩
  · rw [List.concat_eq_append] at h ⊢
    have hq : ∀ r ∈ l, r < q := fun r hr => (List.pairwise_append.1 h).2.2 r hr q (List.mem_singleton_self q)
    rw [List.getLast?_concat, Option.some.injEq]
    constructor
    · rintro rfl
      refine ⟨List.mem_append_right _ (List.mem_singleton_self _), fun r hr => ?_⟩
      cases List.mem_append.1 hr with
      | inl hmem => exact Nat.le_of_lt (hq r hmem)
      | inr heq => exact Nat.le_of_eq (List.mem_singleton.1 heq)
    · intro hp
      cases List.mem_append.1 hp.1 with
      | inl hmem =>
        have hle := hp.2 (List.mem_append_right _ (List.mem_singleton_self q))
        have hlt := hq p hmem
        omega
      | inr heq => exact (List.mem_singleton.1 heq).symm

end Ascending

section Counts

variable {w : Nat}

/-- `count_ones` of a word. -/
def count_ones (word : BitVec w) : Nat := word.cpop.toNat

/-- `leading_zeros` of a word. -/
def leading_zeros (word : BitVec w) : Nat := word.clz.toNat

/-- By induction on the bits that are counted. -/
theorem cpopNatRec_eq_length (word : BitVec w) (n : Nat) :
    word.cpopNatRec n 0 = ((List.range n).filter fun i => word.getLsbD i).length := by
  induction n with
  | zero => rfl
  | succ n ih =>
    rw [BitVec.cpopNatRec_succ, BitVec.cpopNatRec_eq, ih, List.range_succ, List.filter_append, List.length_append]
    cases hbit : word.getLsbD n <;> simp [hbit]

/-- The ones are counted as often as they are listed. -/
theorem count_ones_eq_length (word : BitVec w) : count_ones word = (ones word).length := by
  unfold count_ones ones
  rw [BitVec.toNat_cpop, cpopNatRec_eq_length]

/-- The highest one is behind the leading zeros. -/
theorem ones_getLast? {word : BitVec w} (h : word ≠ 0#w) :
    (ones word).getLast? = some (w - 1 - leading_zeros word) := by
  have hw : 0 < w := by
    rw [Nat.pos_iff_ne_zero]
    rintro rfl
    exact h (Subsingleton.elim _ _)
  rw [getLast?_eq_some_iff_isGreatest (ones_ascending word)]
  refine ⟨mem_ones.2 (BitVec.getLsbD_true_clz_of_ne_zero hw h), fun i hi => ?_⟩
  have hbit : word.getLsbD i = true := mem_ones.1 hi
  have hge : 2 ^ i ≤ word.toNat := Nat.ge_two_pow_of_testBit hbit
  have hlt : i < w - word.clz.toNat :=
    (Nat.pow_lt_pow_iff_right (by omega)).1 (Nat.lt_of_le_of_lt hge BitVec.toNat_lt_two_pow_sub_clz)
  unfold leading_zeros
  omega

/-- A word that is not zero has a one behind its leading zeros. -/
theorem leading_zeros_lt {word : BitVec w} (h : word ≠ 0#w) : leading_zeros word < w := by
  have hlt := BitVec.toNat_lt_two_pow_sub_clz (x := word)
  by_contra hge
  unfold leading_zeros at hge
  rw [Nat.sub_eq_zero_of_le (by omega), Nat.pow_zero] at hlt
  exact h (BitVec.eq_of_toNat_eq (by rw [BitVec.toNat_ofNat, Nat.zero_mod]; omega))

end Counts

namespace Bitset

variable {BIT_SHIFT : Nat}

/-- The words are scanned from the last one down. -/
def last (self : Bitset BIT_SHIFT) : Option Nat :=
  self.bitset.zipIdx.reverse.findSome? fun (b, i) =>
    if b ≠ 0#_ then some ((i <<< BIT_SHIFT) + (2 ^ BIT_SHIFT - 1) - leading_zeros b) else none

/-- All words are zero. -/
def is_empty (self : Bitset BIT_SHIFT) : Bool := self.bitset.all fun x => x = 0#_

/-- The ones of all words. -/
def size (self : Bitset BIT_SHIFT) : Nat := (self.bitset.map count_ones).sum

section Reads

/-- By induction on the words: a later word that is not zero decides. -/
theorem last_scan (i : Nat) (words : List (BitVec (2 ^ BIT_SHIFT))) :
    ((words.zipIdx i).reverse.findSome? fun (b, i) =>
      if b ≠ 0#_ then some ((i <<< BIT_SHIFT) + (2 ^ BIT_SHIFT - 1) - leading_zeros b) else none) =
    (positions_from i words).getLast? := by
  induction words generalizing i with
  | nil => rfl
  | cons word words ih =>
    rw [List.zipIdx_cons, List.reverse_cons, List.findSome?_append, ih, positions_from, List.getLast?_append]
    refine congrArg _ ?_
    by_cases hzero : word = 0#_
    · simp [hzero]
    · have hlt := leading_zeros_lt hzero
      rw [List.getLast?_map, ones_getLast? hzero]
      simp only [List.findSome?_cons, ne_eq, hzero, not_false_eq_true, if_true, Option.map_some,
        Option.some.injEq]
      exact Nat.add_sub_assoc (Nat.le_sub_one_of_lt hlt) _

/-- The scan finds the last position of the set. -/
theorem last_eq_getLast? (self : Bitset BIT_SHIFT) : self.last = self.positions.getLast? :=
  last_scan 0 self.bitset

/-- Each word contributes its ones. -/
theorem length_positions_from (i : Nat) (words : List (BitVec (2 ^ BIT_SHIFT))) :
    (positions_from i words).length = (words.map count_ones).sum := by
  induction words generalizing i with
  | nil => rfl
  | cons word words ih =>
    rw [positions_from, List.length_append, List.length_map, ih, List.map_cons, List.sum_cons,
      count_ones_eq_length]

/-- The size counts the positions. -/
theorem size_eq_length (self : Bitset BIT_SHIFT) : self.size = self.positions.length :=
  (length_positions_from 0 self.bitset).symm

/-- Zero words contribute no position. -/
theorem positions_from_eq_nil_iff (i : Nat) (words : List (BitVec (2 ^ BIT_SHIFT))) :
    positions_from i words = [] ↔ ∀ word ∈ words, word = 0#_ := by
  induction words generalizing i with
  | nil => simp [positions_from]
  | cons word words ih =>
    rw [positions_from, List.append_eq_nil_iff, List.map_eq_nil_iff, ih, List.forall_mem_cons]
    refine and_congr_left' ⟨fun hones => ?_, fun hzero => by rw [hzero, ones_zero]⟩
    by_contra hne
    rw [ones_cons hne] at hones
    cases hones

/-- An empty set has no position. -/
theorem is_empty_iff (self : Bitset BIT_SHIFT) : self.is_empty = true ↔ self.positions = [] := by
  unfold is_empty positions
  rw [positions_from_eq_nil_iff, List.all_eq_true]
  simp only [decide_eq_true_eq]

/-- The specialised scans agree with the plain one. -/
theorem first_set_eq_scan (self : Bitset BIT_SHIFT) : self.first_set = first_set.scan 0 self.bitset := by
  rw [first_set_eq_head?, first_set_scan]
  rfl

/-- The specialised scans agree with the plain one. -/
theorem first_empty_eq_scan (self : Bitset BIT_SHIFT) : self.first_empty = first_empty.scan 0 self.bitset := by
  rw [first_empty_eq_head?, first_empty_scan]
  rfl

end Reads

section Runs

/-- The storage types of the source's bit sets. -/
inductive StorageType where
  | u8
  | u16
  | u32
  | u64
deriving DecidableEq, Repr

/-- `BIT_SHIFT`, the logarithm of the width. -/
def StorageType.bit_shift : StorageType → Nat
  | u8 => 3
  | u16 => 4
  | u32 => 5
  | u64 => 6

/-- A write to a bit set. -/
inductive Write where
  | set (pos : Nat)
  | unset (pos : Nat)
  | clear

namespace Write

/-- The write on the words. -/
def perform (self : Bitset BIT_SHIFT) : Write → Result (Bitset BIT_SHIFT)
  | set pos => self.set pos
  | unset pos => self.unset pos
  | clear => .ok self.clear

/-- What a write does to a set of positions. -/
def onSet (S : Finset Nat) : Write → Finset Nat
  | set pos => insert pos S
  | unset pos => S.erase pos
  | clear => ∅

/-- The positions that a write names are below the capacity. -/
def InRange (capacity : Nat) : Write → Prop
  | set pos => pos < capacity
  | unset pos => pos < capacity
  | clear => True

end Write

/-- The writes of a sequence, one after the other. -/
def run (self : Bitset BIT_SHIFT) (writes : List Write) : Result (Bitset BIT_SHIFT) :=
  writes.foldlM Write.perform self

/-- The words hold a set of positions. -/
structure Holds (b : Bitset BIT_SHIFT) (S : Finset Nat) : Prop where
  check : ∀ pos, b.check pos = true ↔ pos ∈ S
  below : ∀ pos ∈ S, pos < b.capacity

/-- Nothing is left after `clear`. -/
theorem check_clear (self : Bitset BIT_SHIFT) (pos : Nat) : self.clear.check pos = false := by
  rw [← Bool.not_eq_true, check_iff]
  rintro ⟨v, hv, hbit⟩
  simp only [Bitset.clear, List.getElem?_map, Option.map_eq_some_iff] at hv
  obtain ⟨_, _, rfl⟩ := hv
  simp at hbit

/-- A new set is empty. -/
theorem holds_new (STORAGE_WIDTH : Nat) : (new STORAGE_WIDTH : Bitset BIT_SHIFT).Holds ∅ where
  check pos := by simp [check_new]
  below pos hpos := absurd hpos (Finset.notMem_empty pos)

/-- A write in range keeps the words and the set together. -/
theorem Holds.perform {self : Bitset BIT_SHIFT} {S : Finset Nat} (h : self.Holds S) {write : Write}
    (hrange : write.InRange self.capacity) :
    ∃ b, write.perform self = .ok b ∧ b.Holds (write.onSet S) ∧ b.bitset.length = self.bitset.length := by
  cases write with
  | set pos =>
    obtain ⟨b, hset, hlen, hcheck⟩ := set_spec hrange
    refine ⟨b, hset, ⟨fun q => ?_, fun q hq => ?_⟩, hlen⟩
    · rw [hcheck, h.check]
      exact Finset.mem_insert.symm
    · rw [capacity, hlen]
      cases Finset.mem_insert.1 hq with
      | inl heq => exact heq ▸ hrange
      | inr hmem => exact h.below q hmem
  | unset pos =>
    obtain ⟨b, hunset, hlen, hcheck⟩ := unset_spec hrange
    refine ⟨b, hunset, ⟨fun q => ?_, fun q hq => ?_⟩, hlen⟩
    · rw [hcheck, h.check]
      exact Finset.mem_erase.symm
    · rw [capacity, hlen]
      exact h.below q (Finset.mem_of_mem_erase hq)
  | clear =>
    refine ⟨self.clear, rfl, ⟨fun q => ?_, fun q hq => absurd hq (Finset.notMem_empty q)⟩, ?_⟩
    · rw [check_clear]
      exact iff_of_false Bool.false_ne_true (Finset.notMem_empty q)
    · exact List.length_map _

/-- A write out of range panics. -/
theorem perform_out_of_range {self : Bitset BIT_SHIFT} {write : Write} (h : ¬ write.InRange self.capacity) :
    write.perform self = .error .index_out_of_bounds := by
  have hindex : ∀ {pos}, ¬ pos < self.capacity →
      index self.bitset (pos >>> BIT_SHIFT) = .error .index_out_of_bounds := by
    intro pos hpos
    have hge : self.bitset.length ≤ pos / 2 ^ BIT_SHIFT := by
      rw [Nat.le_div_iff_mul_le (Nat.two_pow_pos _), Nat.mul_comm]
      exact not_lt.1 hpos
    unfold index
    rw [shift_eq_div, List.getElem?_eq_none hge]
  cases write with
  | set pos =>
    change Bitset.set self pos = _
    unfold Bitset.set
    rw [hindex h, error_bind]
  | unset pos =>
    change Bitset.unset self pos = _
    unfold Bitset.unset
    rw [hindex h, error_bind]
  | clear => exact absurd trivial h

/-- By induction on the writes: a run returns exactly when all of them are in range. -/
theorem Holds.run {self : Bitset BIT_SHIFT} {S : Finset Nat} (h : self.Holds S) (writes : List Write) :
    ((∃ b, self.run writes = .ok b) ↔ ∀ write ∈ writes, write.InRange self.capacity) ∧
    ∀ b, self.run writes = .ok b →
      b.Holds (writes.foldl Write.onSet S) ∧ b.bitset.length = self.bitset.length := by
  induction writes generalizing self S with
  | nil =>
    refine ⟨⟨fun _ write hmem => (by cases hmem), fun _ => ⟨self, rfl⟩⟩, fun b hb => ?_⟩
    cases hb
    exact ⟨h, rfl⟩
  | cons write writes ih =>
    unfold Bitset.run
    rw [List.foldlM_cons, List.forall_mem_cons]
    by_cases hrange : write.InRange self.capacity
    · obtain ⟨b, hperform, hholds, hlen⟩ := h.perform hrange
      have hcapacity : b.capacity = self.capacity := by rw [capacity, capacity, hlen]
      obtain ⟨hreturns, hlast⟩ := ih hholds
      rw [hperform, ok_bind]
      refine ⟨?_, fun b' hb' => ?_⟩
      · rw [hcapacity] at hreturns
        exact hreturns.trans (iff_and_self.2 fun _ => hrange)
      · obtain ⟨hholds', hlen'⟩ := hlast b' hb'
        exact ⟨hholds', hlen'.trans hlen⟩
    · rw [perform_out_of_range hrange, error_bind]
      refine ⟨iff_of_false ?_ fun hall => hrange hall.1, fun b hb => ?_⟩
      · rintro ⟨b, hb⟩
        cases hb
      · cases hb

/-- What can be read of the words is what holds of the set. -/
structure Reads (b : Bitset BIT_SHIFT) (S : Finset Nat) : Prop where
  check : ∀ pos < b.capacity, b.check pos = true ↔ pos ∈ S
  first_set : ∀ pos, b.first_set = some pos ↔ IsLeast (↑S) pos
  first_set_none : b.first_set = none ↔ S = ∅
  last : ∀ pos, b.last = some pos ↔ IsGreatest (↑S) pos
  last_none : b.last = none ↔ S = ∅
  first_empty : ∀ pos, b.first_empty = some pos ↔ IsLeast {q | q < b.capacity ∧ q ∉ S} pos
  first_empty_none : b.first_empty = none ↔ ∀ pos < b.capacity, pos ∈ S
  size : b.size = S.card
  is_empty : b.is_empty = true ↔ S = ∅
  ascending : b.iter.Pairwise (· < ·)
  mem_iter : ∀ pos, pos ∈ b.iter ↔ pos ∈ S
  first_set_scan : b.first_set = Bitset.first_set.scan 0 b.bitset
  first_empty_scan : b.first_empty = Bitset.first_empty.scan 0 b.bitset

/-- The readers are read off the positions, which are the set in ascending order. -/
theorem Holds.reads {self : Bitset BIT_SHIFT} {S : Finset Nat} (h : self.Holds S) (hshift : BIT_SHIFT ≤ 6) :
    self.Reads S := by
  have hmem : ∀ pos, pos ∈ self.positions ↔ pos ∈ S := fun pos => mem_positions.trans (h.check pos)
  have hset : {q | q ∈ self.positions} = (↑S : Set Nat) := Set.ext hmem
  have hvacant : ∀ pos, pos ∈ self.vacant.positions ↔ pos < self.capacity ∧ pos ∉ S := fun pos => by
    rw [mem_positions, check_vacant, ← h.check, Bool.not_eq_true]
  have hnil : self.positions = [] ↔ S = ∅ := by
    rw [List.eq_nil_iff_forall_not_mem, Finset.eq_empty_iff_forall_notMem]
    exact forall_congr' fun pos => not_congr (hmem pos)
  have hasc := positions_ascending self
  have hiter := iter_eq_positions hshift self
  refine {
    check := fun pos _ => h.check pos
    first_set := fun pos => ?_
    first_set_none := ?_
    last := fun pos => ?_
    last_none := ?_
    first_empty := fun pos => ?_
    first_empty_none := ?_
    size := ?_
    is_empty := (is_empty_iff self).trans hnil
    ascending := hiter ▸ hasc
    mem_iter := fun pos => hiter ▸ hmem pos
    first_set_scan := first_set_eq_scan self
    first_empty_scan := first_empty_eq_scan self }
  · rw [first_set_eq_head?, head?_eq_some_iff_isLeast hasc, hset]
  · rw [first_set_eq_head?, List.head?_eq_none_iff, hnil]
  · rw [last_eq_getLast?, getLast?_eq_some_iff_isGreatest hasc, hset]
  · rw [last_eq_getLast?, List.getLast?_eq_none_iff, hnil]
  · have hset : {q | q ∈ self.vacant.positions} = {q | q < self.capacity ∧ q ∉ S} := Set.ext hvacant
    rw [first_empty_eq_head?, head?_eq_some_iff_isLeast (positions_ascending _), hset]
  · rw [first_empty_eq_head?, List.head?_eq_none_iff, List.eq_nil_iff_forall_not_mem]
    refine forall_congr' fun pos => ?_
    rw [hvacant, not_and, not_not]
  · have hnodup : self.positions.Nodup := hasc.imp Nat.ne_of_lt
    have heq : self.positions.toFinset = S := Finset.ext fun pos => List.mem_toFinset.trans (hmem pos)
    rw [size_eq_length, ← List.toFinset_card_of_nodup hnodup, heq]

end Runs

/-- Whatever the width of a word and the number of words, a sequence of writes to an empty
bit set returns if and only if its positions are below the capacity, and then all that is
read of the words is right for the set of the positions that are set. -/
theorem run_reads (T : StorageType) (STORAGE_WIDTH : Nat) (writes : List Write) :
    ((∃ b, (new STORAGE_WIDTH : Bitset T.bit_shift).run writes = .ok b) ↔
      ∀ write ∈ writes, write.InRange (2 ^ T.bit_shift * STORAGE_WIDTH)) ∧
    ∀ b, (new STORAGE_WIDTH : Bitset T.bit_shift).run writes = .ok b →
      b.capacity = 2 ^ T.bit_shift * STORAGE_WIDTH ∧ b.Reads (writes.foldl Write.onSet ∅) := by
  have hlength : (new STORAGE_WIDTH : Bitset T.bit_shift).bitset.length = STORAGE_WIDTH :=
    List.length_replicate
  have hnew : (new STORAGE_WIDTH : Bitset T.bit_shift).Holds ∅ := holds_new STORAGE_WIDTH
  obtain ⟨hreturns, hholds⟩ := hnew.run writes
  refine ⟨?_, fun b hb => ?_⟩
  · rw [capacity, hlength] at hreturns
    exact hreturns
  · obtain ⟨hb', hlen⟩ := hholds b hb
    refine ⟨?_, hb'.reads (by cases T <;> decide)⟩
    rw [capacity, hlen, hlength]

end Bitset

end rart.utils
