import Mathlib.Algebra.Group.Nat.Defs
import Rart.Lib.LexOrder

open LexOrder

namespace Digits

variable {base : Nat}

/-- The numeral of `n` digits, the most significant one first. -/
def digits (base : Nat) : Nat → Nat → List Nat
  | 0, _ => []
  | n + 1, v => v / base ^ n :: digits base n (v % base ^ n)

/-- The number that a list of digits stands for. -/
def value (base : Nat) (ds : List Nat) : Nat := ds.foldl (fun v d => base * v + d) 0

@[simp] theorem length_digits (n v : Nat) : (digits base n v).length = n := by
  induction n generalizing v with
  | zero => rfl
  | succ n ih => rw [digits, List.length_cons, ih]

theorem lt_base_of_mem_digits {n v d : Nat} (hbase : 0 < base) (hv : v < base ^ n) (hd : d ∈ digits base n v) :
    d < base := by
  induction n generalizing v with
  | zero => cases hd
  | succ n ih =>
    rw [digits] at hd
    cases List.mem_cons.1 hd with
    | inl heq =>
      rw [heq]
      exact Nat.div_lt_of_lt_mul (by rwa [Nat.pow_succ] at hv)
    | inr hmem => exact ih (Nat.mod_lt _ (Nat.pow_pos hbase)) hmem

theorem foldl_digits {n v : Nat} (hv : v < base ^ n) (seen : Nat) :
    (digits base n v).foldl (fun v d => base * v + d) seen = base ^ n * seen + v := by
  induction n generalizing v seen with
  | zero =>
    rw [Nat.pow_zero] at hv
    simp only [digits, List.foldl_nil, Nat.pow_zero]
    omega
  | succ n ih =>
    have hbase : 0 < base := by
      rw [Nat.pos_iff_ne_zero]
      rintro rfl
      rw [Nat.zero_pow (Nat.succ_pos n)] at hv
      exact Nat.not_lt_zero v hv
    rw [digits, List.foldl_cons, ih (Nat.mod_lt _ (Nat.pow_pos hbase)), Nat.mul_add, Nat.add_assoc,
      Nat.div_add_mod, Nat.pow_succ, Nat.mul_assoc]

/-- Reading a numeral gives back the number. -/
theorem value_digits {n v : Nat} (hv : v < base ^ n) : value base (digits base n v) = v := by
  unfold value
  rw [foldl_digits hv, Nat.mul_zero, Nat.zero_add]

/-- Leading zeros do not change the number. -/
theorem value_replicate_append (n : Nat) (ds : List Nat) : value base (List.replicate n 0 ++ ds) = value base ds := by
  induction n with
  | zero => rfl
  | succ n ih =>
    rw [List.replicate_succ, List.cons_append]
    exact ih

theorem digits_lt_digits {n x y : Nat} (hbase : 0 < base) (hlt : x < y) : digits base n x < digits base n y ∨
    base ^ n ≤ y := by
  induction n generalizing x y with
  | zero => exact Or.inr (by rw [Nat.pow_zero]; omega)
  | succ n ih =>
    have hpow : 0 < base ^ n := Nat.pow_pos hbase
    have hx := Nat.div_add_mod x (base ^ n)
    have hy := Nat.div_add_mod y (base ^ n)
    left
    rw [digits, digits, List.cons_lt_cons_iff]
    rcases Nat.lt_trichotomy (x / base ^ n) (y / base ^ n) with hdiv | hdiv | hdiv
    · exact Or.inl hdiv
    · refine Or.inr ⟨hdiv, (ih ?_).resolve_right (not_le.2 (Nat.mod_lt _ hpow))⟩
      rw [hdiv] at hx
      omega
    · exact absurd (Nat.div_le_div_right (Nat.le_of_lt hlt)) (not_le.2 hdiv)

/-- Numerals of one width compare as the numbers do. -/
theorem lexCompare_digits {n x y : Nat} (hbase : 0 < base) (hx : x < base ^ n) (hy : y < base ^ n) :
    lexCompare (digits base n x) (digits base n y) = compare x y := by
  rcases Nat.lt_trichotomy x y with hlt | rfl | hgt
  · rw [lexCompare_eq_lt_iff.2 ((digits_lt_digits hbase hlt).resolve_right (not_le.2 hy)),
      Nat.compare_eq_lt.2 hlt]
  · rw [lexCompare_eq_eq_iff.2 rfl, Nat.compare_eq_eq.2 rfl]
  · rw [lexCompare_eq_gt_iff.2 ((digits_lt_digits hbase hgt).resolve_right (not_le.2 hx)),
      Nat.compare_eq_gt.2 hgt]

end Digits
