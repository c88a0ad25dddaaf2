import Mathlib.Data.Nat.Bitwise
import Rart.Lib.LexOrder
import Rart.Panic

open LexOrder

namespace rart.partials

/-- The order in which `u64::from_ne_bytes` reads the bytes of a word. -/
inductive Endian where
  | little
  | big
deriving DecidableEq, Repr

/-- `u64::from_ne_bytes` -/
def from_ne_bytes : Endian → Bytes → Nat
  | .little, bs => bs.foldr (fun b word => b.toNat + 256 * word) 0
  | .big, bs => bs.foldl (fun word b => 256 * word + b.toNat) 0

/-- `u64::trailing_zeros` -/
def trailing_zeros (word : Nat) : Nat :=
  if word = 0 then 64 else if word % 2 = 1 then 0 else trailing_zeros (word / 2) + 1

/-- The byte loop that closes `prefix_length_bytes`. -/
def prefix_length_bytes.byte_loop (lhs rhs : Bytes) (len idx : Nat) : Nat :=
  if idx < len then
    if lhs[idx]? ≠ rhs[idx]? then idx else byte_loop lhs rhs len (idx + 1)
  else idx
termination_by len - idx

/-- The loop over eight-byte words. -/
def prefix_length_bytes.word_loop (endian : Endian) (lhs rhs : Bytes) (len idx : Nat) : Nat :=
  if idx + 8 ≤ len then
    let lhs_word := from_ne_bytes endian ((lhs.drop idx).take 8)
    let rhs_word := from_ne_bytes endian ((rhs.drop idx).take 8)
    let diff := lhs_word ^^^ rhs_word
    if diff ≠ 0 then idx + trailing_zeros diff / 8 else word_loop endian lhs rhs len (idx + 8)
  else byte_loop lhs rhs len idx
termination_by len - idx

/-- The scan for the first difference, by words and then by bytes. Keys and prefixes are the bytes
that `as_ref` returns. -/
def prefix_length_bytes (endian : Endian) (lhs rhs : Bytes) : Nat :=
  prefix_length_bytes.word_loop endian lhs rhs (min lhs.length rhs.length) 0

section WordScan

/-- The byte loop, started after a shared prefix, stops at the first difference. -/
theorem byte_loop_eq_lcp (p s t : Bytes) :
    prefix_length_bytes.byte_loop (p ++ s) (p ++ t) (p.length + min s.length t.length) p.length =
      p.length + lcp s t := by
  induction s generalizing p t with
  | nil =>
    rw [prefix_length_bytes.byte_loop]
    simp
  | cons a s ih =>
    cases t with
    | nil =>
      rw [prefix_length_bytes.byte_loop]
      simp
    | cons b t =>
      rw [prefix_length_bytes.byte_loop]
      have hlt : p.length < p.length + min (a :: s).length (b :: t).length := by simp
      by_cases hab : a = b
      · subst b
        have hrest := ih (p ++ [a]) t
        simp only [List.append_assoc, List.singleton_append, List.length_append,
          List.length_singleton] at hrest
        have hlen : p.length + 1 + min s.length t.length =
            p.length + min (a :: s).length (a :: t).length := by
          simp only [List.length_cons]
          omega
        rw [hlen] at hrest
        simp only [hlt, if_true, List.getElem?_append_right, le_refl, Nat.sub_self,
          List.getElem?_cons_zero, ne_eq, not_true, if_false, hrest, lcp]
        omega
      · simp [hab, lcp]

/-- Reading a byte below the rest of a word commutes with exclusive or. -/
theorem xor_byte_word {a b w v : Nat} (ha : a < 256) (hb : b < 256) :
    (a + 256 * w) ^^^ (b + 256 * v) = (a ^^^ b) + 256 * (w ^^^ v) := by
  have hab : a ^^^ b < 2 ^ 8 := Nat.xor_lt_two_pow ha hb
  have hmod : ((a + 256 * w) ^^^ (b + 256 * v)) % 2 ^ 8 = ((a ^^^ b) + 256 * (w ^^^ v)) % 2 ^ 8 := by
    rw [Nat.xor_mod_two_pow]
    have h₁ : (a + 256 * w) % 2 ^ 8 = a := by omega
    have h₂ : (b + 256 * v) % 2 ^ 8 = b := by omega
    rw [h₁, h₂]
    omega
  have hdiv : ((a + 256 * w) ^^^ (b + 256 * v)) / 2 ^ 8 = ((a ^^^ b) + 256 * (w ^^^ v)) / 2 ^ 8 := by
    rw [Nat.xor_div_two_pow]
    have h₁ : (a + 256 * w) / 2 ^ 8 = w := by omega
    have h₂ : (b + 256 * v) / 2 ^ 8 = v := by omega
    rw [h₁, h₂]
    omega
  rw [← Nat.div_add_mod ((a + 256 * w) ^^^ (b + 256 * v)) (2 ^ 8), hmod, hdiv, Nat.div_add_mod]

/-- A word that is not zero in its lowest bits has few trailing zeros. -/
theorem trailing_zeros_lt {word k : Nat} (h : word % 2 ^ k ≠ 0) : trailing_zeros word < k := by
  induction k generalizing word with
  | zero => exact absurd (Nat.mod_one word) h
  | succ k ih =>
    have hpos : word ≠ 0 := fun h0 => h (by simp [h0])
    rw [trailing_zeros]
    simp only [hpos, if_false]
    split
    · omega
    · rename_i hodd
      have hhalf : (word / 2) % 2 ^ k ≠ 0 := by
        intro h0
        apply h
        obtain ⟨m, hm⟩ := Nat.dvd_of_mod_eq_zero h0
        have hword : word = 2 ^ (k + 1) * m := by
          rw [Nat.pow_succ', Nat.mul_assoc, ← hm]
          omega
        rw [hword]
        exact Nat.mul_mod_right _ _
      have := ih hhalf
      omega

/-- Shifting a word adds zeros. -/
theorem trailing_zeros_shift {word : Nat} (h : word ≠ 0) (k : Nat) :
    trailing_zeros (2 ^ k * word) = k + trailing_zeros word := by
  induction k with
  | zero => simp
  | succ k ih =>
    have heq : 2 ^ (k + 1) * word = 2 * (2 ^ k * word) := by
      rw [Nat.pow_succ', Nat.mul_assoc]
    have hpos : 2 ^ k * word ≠ 0 := Nat.mul_ne_zero (Nat.two_pow_pos k).ne' h
    rw [heq, trailing_zeros]
    have h2 : 2 * (2 ^ k * word) ≠ 0 := by omega
    have hodd : ¬ 2 * (2 ^ k * word) % 2 = 1 := by omega
    have hdiv : 2 * (2 ^ k * word) / 2 = 2 ^ k * word := by omega
    simp only [h2, if_false, hodd, hdiv, ih]
    omega

/-- The first byte is the lowest on a little-endian target. -/
theorem from_ne_bytes_cons (b : UInt8) (bs : Bytes) :
    from_ne_bytes .little (b :: bs) = b.toNat + 256 * from_ne_bytes .little bs := rfl

/-- On a little-endian target the lowest set bit of the difference of two words
lies in the first byte at which they differ. -/
theorem word_diff {xs ys : Bytes} (hlen : xs.length = ys.length) :
    let diff := from_ne_bytes .little xs ^^^ from_ne_bytes .little ys
    (diff = 0 ↔ xs = ys) ∧ (diff ≠ 0 → trailing_zeros diff / 8 = lcp xs ys) := by
  induction xs generalizing ys with
  | nil =>
    have hnil : ys = [] := List.eq_nil_of_length_eq_zero (by simpa using hlen.symm)
    subst hnil
    simp
  | cons x xs ih =>
    obtain ⟨y, ys, rfl⟩ := List.exists_cons_of_length_eq_add_one hlen.symm
    obtain ⟨ihzero, ihlcp⟩ := ih (by simpa using hlen)
    simp only [from_ne_bytes_cons, xor_byte_word x.toNat_lt y.toNat_lt]
    by_cases hxy : x = y
    · subst y
      simp only [Nat.xor_self, Nat.zero_add]
      refine ⟨?_, ?_⟩
      · rw [Nat.mul_eq_zero]
        simp [ihzero]
      · intro hne
        have hrest : from_ne_bytes .little xs ^^^ from_ne_bytes .little ys ≠ 0 :=
          fun h0 => hne (by rw [h0])
        rw [show (256 : Nat) = 2 ^ 8 from rfl, trailing_zeros_shift hrest]
        have hih := ihlcp hrest
        simp only [lcp, if_true]
        omega
    · have hbyte : x.toNat ^^^ y.toNat ≠ 0 := by
        rw [Ne, Nat.xor_eq_zero_iff]
        exact fun heq => hxy (UInt8.toNat_inj.1 heq)
      have hlt : x.toNat ^^^ y.toNat < 2 ^ 8 := Nat.xor_lt_two_pow x.toNat_lt y.toNat_lt
      refine ⟨?_, ?_⟩
      · constructor
        · intro h0
          omega
        · intro heq
          exact absurd (List.cons.inj heq).1 hxy
      · intro _
        have htz := @trailing_zeros_lt ((x.toNat ^^^ y.toNat) +
          256 * (from_ne_bytes .little xs ^^^ from_ne_bytes .little ys)) 8 (by omega)
        simp only [lcp, hxy, if_false]
        omega

/-- By induction on what is left of both sides, word by word. -/
theorem word_loop_eq_lcp (p s t : Bytes) :
    prefix_length_bytes.word_loop .little (p ++ s) (p ++ t)
      (p.length + min s.length t.length) p.length = p.length + lcp s t := by
  induction hn : s.length using Nat.strongRecOn generalizing p s t with
  | ind n ih =>
    subst hn
    rw [prefix_length_bytes.word_loop]
    split
    · rename_i hword
      have hs : 8 ≤ s.length := by omega
      have ht : 8 ≤ t.length := by omega
      have hlen : (s.take 8).length = (t.take 8).length := by
        simp only [List.length_take]
        omega
      obtain ⟨hzero, hdiff⟩ := word_diff hlen
      simp only [List.drop_left]
      split
      · rename_i hne
        rw [hdiff hne, ← lcp_append_of_length_eq hlen (fun heq => hne (hzero.2 heq))
          (s.drop 8) (t.drop 8), List.take_append_drop, List.take_append_drop]
      · rename_i heq
        have heq := hzero.1 (not_not.1 heq)
        have hrest := ih (s.drop 8).length (by simp; omega) (p ++ s.take 8) (s.drop 8) (t.drop 8) rfl
        have hs' : p ++ s.take 8 ++ s.drop 8 = p ++ s := by
          rw [List.append_assoc, List.take_append_drop]
        have ht' : p ++ s.take 8 ++ t.drop 8 = p ++ t := by
          rw [heq, List.append_assoc, List.take_append_drop]
        have hp : (p ++ s.take 8).length = p.length + 8 := by
          simp only [List.length_append, List.length_take]
          omega
        have hmin : p.length + 8 + min (s.drop 8).length (t.drop 8).length =
            p.length + min s.length t.length := by
          simp only [List.length_drop]
          omega
        rw [hs', ht', hp, hmin] at hrest
        have hlcp : lcp s t = 8 + lcp (s.drop 8) (t.drop 8) := by
          have happ := lcp_append (s.take 8) (s.drop 8) (t.drop 8)
          rw [List.take_append_drop, heq, List.take_append_drop, List.length_take] at happ
          omega
        rw [hrest, hlcp]
        omega
    · exact byte_loop_eq_lcp p s t

/-- On a little-endian target the word-wise scan is the bytewise common prefix. -/
theorem prefix_length_bytes_eq_lcp (lhs rhs : Bytes) :
    prefix_length_bytes .little lhs rhs = lcp lhs rhs := by
  simpa [prefix_length_bytes] using word_loop_eq_lcp [] lhs rhs

end WordScan

section Partial

/-- `Partial::partial_before` -/
def partial_before (pfx : Bytes) (length : Nat) : Result Bytes := slice_to pfx length

/-- `Partial::partial_after` -/
def partial_after (pfx : Bytes) (start : Nat) : Result Bytes := slice_from pfx start

/-- `Partial::partial_extended_with`, of a type that has room for both. In a tree the two are
segments of one key, so that they fit wherever the key did; `PartialType` has the bounds. -/
def partial_extended_with (pfx other : Bytes) : Bytes := pfx ++ other

/-- `Partial::at` and `KeyTrait::at` -/
def byte_at (bytes : Bytes) (pos : Nat) : Result UInt8 := index bytes pos

/-- `KeyTrait::length_at` -/
def length_at (key : Bytes) (at_depth : Nat) : Result Nat := usize_sub key.length at_depth

/-- `KeyTrait::to_partial` -/
def to_partial (key : Bytes) (at_depth : Nat) : Result Bytes := slice_from key at_depth

/-- `Partial::prefix_length_key`. The partials of the tree are those of a little-endian target. -/
def prefix_length_key (pfx key : Bytes) (at_depth : Nat) : Result Nat := do
  let len := min pfx.length (← length_at key at_depth)
  return prefix_length_bytes .little (pfx.take len) ((key.drop at_depth).take len)

/-- `Partial::prefix_length_slice` -/
def prefix_length_slice (pfx slice : Bytes) : Nat :=
  let len := min pfx.length slice.length
  prefix_length_bytes .little (pfx.take len) (slice.take len)

/-- The scan of a prefix and a slice. -/
@[simp] theorem prefix_length_slice_eq_lcp (pfx slice : Bytes) :
    prefix_length_slice pfx slice = lcp pfx slice := by
  unfold prefix_length_slice
  rw [prefix_length_bytes_eq_lcp, lcp_take_min]

/-- The scan of a prefix and what is left of a key. -/
theorem prefix_length_key_eq_ok {pfx key : Bytes} {at_depth : Nat} (hdepth : at_depth ≤ key.length) :
    prefix_length_key pfx key at_depth = .ok (lcp pfx (key.drop at_depth)) := by
  unfold prefix_length_key length_at
  rw [usize_sub_eq_ok hdepth, ok_bind, pure_eq_ok, prefix_length_bytes_eq_lcp,
    ← List.length_drop, lcp_take_min]

end Partial

section Arrival

/-- The byte behind a part of the key that was read. -/
theorem next_byte {key c s : Bytes} {depth : Nat} {k : UInt8} (hkey : key.drop depth = c ++ k :: s) :
    depth + c.length < key.length ∧ key.drop (depth + c.length) = k :: s ∧
      index key (depth + c.length) = .ok k := by
  have hrest : key.drop (depth + c.length) = k :: s := by
    rw [← List.drop_drop, hkey, List.drop_left]
  refine ⟨?_, hrest, index_eq_ok ?_⟩
  · have := congrArg List.length hrest
    simp only [List.length_drop, List.length_cons] at this
    omega
  · rw [← List.head?_drop, hrest]
    rfl

/-- How what is left of a key meets the prefix of the node where a mutation arrives, with the
conditions that send the mutation down the branch for it. -/
inductive Arrival (pfx key : Bytes) (depth : Nat) : Prop where
  | ends (hkey : key.drop depth = pfx)
      (hends : min pfx.length (key.length - depth) = lcp pfx (key.drop depth) ∧ pfx.length = key.length - depth)
  | goes_on (k : UInt8) (s : Bytes) (hkey : key.drop depth = pfx ++ k :: s)
      (hlcp : lcp pfx (key.drop depth) = pfx.length)
      (hmore : ¬ (min pfx.length (key.length - depth) = lcp pfx (key.drop depth) ∧ pfx.length = key.length - depth))
      (hbelow : ¬ (min pfx.length (key.length - depth) = lcp pfx (key.drop depth) ∧ pfx.length > key.length - depth))
      (hmatch : ¬ ¬ min pfx.length (key.length - depth) = lcp pfx (key.drop depth))
      (hk : byte_at key (depth + pfx.length) = .ok k) (hrest : key.drop (depth + pfx.length) = k :: s)
      (hdepth : depth + pfx.length ≤ key.length)
  | above (k : UInt8) (p : Bytes) (hpfx : pfx = key.drop depth ++ k :: p) (hnot : ¬ pfx <+: key.drop depth)
      (hlcp : lcp pfx (key.drop depth) = (key.drop depth).length)
      (hmore : ¬ (min pfx.length (key.length - depth) = lcp pfx (key.drop depth) ∧ pfx.length = key.length - depth))
      (habove : min pfx.length (key.length - depth) = lcp pfx (key.drop depth) ∧ pfx.length > key.length - depth)
  | splits (c p s : Bytes) (k₁ k₂ : UInt8) (hne : k₁ ≠ k₂) (hpfx : pfx = c ++ k₁ :: p)
      (hkey : key.drop depth = c ++ k₂ :: s) (hnot : ¬ pfx <+: key.drop depth)
      (hlcp : lcp pfx (key.drop depth) = c.length)
      (hmore : ¬ (min pfx.length (key.length - depth) = lcp pfx (key.drop depth) ∧ pfx.length = key.length - depth))
      (hbelow : ¬ (min pfx.length (key.length - depth) = lcp pfx (key.drop depth) ∧ pfx.length > key.length - depth))
      (hsplit : ¬ min pfx.length (key.length - depth) = lcp pfx (key.drop depth))

/-- Every key arrives in one of these ways. -/
theorem arrival (pfx key : Bytes) (depth : Nat) : Arrival pfx key depth := by
  obtain ⟨c, p, s, hpfx, hkey, hlcp, hdiff⟩ := lcp_split pfx (key.drop depth)
  have hpfxlen := congrArg List.length hpfx
  have hkeylen := congrArg List.length hkey
  simp only [List.length_append, List.length_drop] at hpfxlen hkeylen
  -- only a whole prefix is as long as what it has in common with the key
  have hnot : c.length < pfx.length → ¬ pfx <+: key.drop depth := fun hlt hstarts => by
    have hwhole := lcp_eq_length_iff.2 hstarts
    omega
  cases p with
  | nil =>
    rw [List.append_nil] at hpfx
    subst hpfx
    cases s with
    | nil =>
      rw [List.length_nil] at hkeylen
      exact .ends (hkey.trans (List.append_nil _)) ⟨by omega, by omega⟩
    | cons k s =>
      rw [List.length_cons] at hkeylen
      obtain ⟨_, hrest, hk⟩ := next_byte hkey
      exact .goes_on k s hkey hlcp (by omega) (by omega) (by omega) hk hrest (by omega)
  | cons k₁ p =>
    rw [List.length_cons] at hpfxlen
    cases s with
    | nil =>
      rw [List.length_nil] at hkeylen
      rw [List.append_nil] at hkey
      have hlen : (key.drop depth).length = key.length - depth := List.length_drop
      rw [← hkey] at hpfx hlcp
      exact .above k₁ p hpfx (hnot (by omega)) hlcp (by omega) (by omega)
    | cons k₂ s =>
      rw [List.length_cons] at hkeylen
      exact .splits c p s k₁ k₂ (hdiff k₁ rfl k₂ rfl) hpfx hkey (hnot (by omega)) hlcp (by omega) (by omega) (by omega)

end Arrival

end rart.partials
