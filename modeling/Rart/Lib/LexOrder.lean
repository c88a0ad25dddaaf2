import Mathlib.Data.List.Lex
import Mathlib.Order.Compare
import Mathlib.Order.Lattice

namespace LexOrder

section Lcp

variable {α : Type} [DecidableEq α]

/-- Length of the longest common prefix of two lists. -/
def lcp : List α → List α → Nat
  | a :: as, b :: bs => if a = b then lcp as bs + 1 else 0
  | _, _ => 0

/-- Nothing is shared with nothing. -/
@[simp] theorem lcp_nil_left (t : List α) : lcp [] t = 0 := by simp [lcp]

/-- Nothing is shared with nothing. -/
@[simp] theorem lcp_nil_right (s : List α) : lcp s [] = 0 := by cases s <;> simp [lcp]

/-- A shared prefix counts as a whole. -/
@[simp] theorem lcp_append (p s t : List α) : lcp (p ++ s) (p ++ t) = p.length + lcp s t := by
  induction p with
  | nil => simp
  | cons a p ih =>
    simp only [List.cons_append, lcp, if_true, ih, List.length_cons]
    omega

/-- Both sides share the same. -/
theorem lcp_comm (s t : List α) : lcp s t = lcp t s := by
  induction s generalizing t with
  | nil => simp
  | cons a s ih =>
    cases t with
    | nil => simp
    | cons b t =>
      by_cases hab : a = b
      · simp [lcp, hab, ih t]
      · simp [lcp, hab, Ne.symm hab]

/-- Two lists are their common prefix followed by remainders that do not start
with the same letter. -/
theorem lcp_split (s t : List α) :
    ∃ c s' t', s = c ++ s' ∧ t = c ++ t' ∧ lcp s t = c.length ∧
      ∀ a ∈ s'.head?, ∀ b ∈ t'.head?, a ≠ b := by
  induction s generalizing t with
  | nil => exact ⟨[], [], t, rfl, rfl, by simp, by simp⟩
  | cons a s ih =>
    cases t with
    | nil => exact ⟨[], a :: s, [], rfl, rfl, by simp, by simp⟩
    | cons b t =>
      by_cases hab : a = b
      · subst b
        obtain ⟨c, s', t', hs, ht, hlen, hne⟩ := ih t
        exact ⟨a :: c, s', t', by simp [hs], by simp [ht], by simp [lcp, hlen], hne⟩
      · exact ⟨[], a :: s, b :: t, rfl, rfl, by simp [lcp, hab], by simpa using hab⟩

/-- No more is shared than there is. -/
theorem lcp_le_left (s t : List α) : lcp s t ≤ s.length := by
  obtain ⟨c, s', t', rfl, rfl, hlen, _⟩ := lcp_split s t
  simp [hlen]

/-- The common prefix covers the whole first list exactly when it is a prefix of
the second. -/
theorem lcp_eq_length_iff {s t : List α} : lcp s t = s.length ↔ s <+: t := by
  constructor
  · intro h
    obtain ⟨c, s', t', hs, ht, hlen, _⟩ := lcp_split s t
    have hnil : s' = [] := by
      have hs' := congrArg List.length hs
      simp only [List.length_append] at hs'
      exact List.eq_nil_of_length_eq_zero (by omega)
    subst s'
    simp only [List.append_nil] at hs
    exact ⟨t', by rw [hs, ht]⟩
  · rintro ⟨r, rfl⟩
    simpa using lcp_append s [] r

/-- Cutting both lists to the length of the shorter one keeps the common prefix. -/
theorem lcp_take_min (s t : List α) :
    lcp (s.take (min s.length t.length)) (t.take (min s.length t.length)) = lcp s t := by
  induction s generalizing t with
  | nil => simp
  | cons a s ih =>
    cases t with
    | nil => simp
    | cons b t =>
      simp only [List.length_cons, ← Nat.succ_eq_add_one, Nat.succ_min_succ, List.take_succ_cons]
      simp only [lcp, ih t]

/-- Two different blocks of one length decide the common prefix of everything that
starts with them. -/
theorem lcp_append_of_length_eq {xs ys : List α} (hlen : xs.length = ys.length)
    (hne : xs ≠ ys) (s t : List α) : lcp (xs ++ s) (ys ++ t) = lcp xs ys := by
  induction xs generalizing ys with
  | nil =>
    have hnil : ys = [] := List.eq_nil_of_length_eq_zero (by simpa using hlen.symm)
    exact absurd hnil.symm hne
  | cons x xs ih =>
    obtain ⟨y, ys, rfl⟩ := List.exists_cons_of_length_eq_add_one hlen.symm
    by_cases hxy : x = y
    · subst hxy
      have hrest : xs ≠ ys := fun heq => hne (by rw [heq])
      simp [lcp, ih (by simpa using hlen) hrest]
    · simp [lcp, hxy]

end Lcp

section Order

variable {α : Type} [LinearOrder α]

/-- A shared prefix does not decide. -/
theorem append_lt_append_left_iff (p : List α) {s t : List α} : p ++ s < p ++ t ↔ s < t := by
  induction p with
  | nil => rfl
  | cons a p ih => simpa using ih

/-- A proper prefix comes first. -/
theorem lt_append_of_ne_nil (p : List α) {s : List α} (hs : s ≠ []) : p < p ++ s := by
  obtain ⟨a, s, rfl⟩ := List.exists_cons_of_ne_nil hs
  have h := (append_lt_append_left_iff p (s := []) (t := a :: s)).2 (List.nil_lt_cons a s)
  simpa using h

/-- A prefix does not come later. -/
theorem le_append (p s : List α) : p ≤ p ++ s := by
  cases s with
  | nil => rw [List.append_nil]
  | cons a s => exact le_of_lt (lt_append_of_ne_nil p (by simp))

/-- A difference at the first letter after a shared prefix decides the order. -/
theorem append_cons_lt_append_cons (p : List α) {a b : α} (s t : List α) (hab : a < b) :
    p ++ a :: s < p ++ b :: t :=
  (append_lt_append_left_iff p).2 (List.cons_lt_cons_iff.2 (Or.inl hab))

/-- Lexicographic three-way comparison of lists. -/
def lexCompare : List α → List α → Ordering
  | [], [] => .eq
  | [], _ :: _ => .lt
  | _ :: _, [] => .gt
  | a :: as, b :: bs => if a < b then .lt else if b < a then .gt else lexCompare as bs

/-- A shared prefix does not decide. -/
theorem lexCompare_append (p s t : List α) :
    lexCompare (p ++ s) (p ++ t) = lexCompare s t := by
  induction p with
  | nil => rfl
  | cons a p ih => simp [lexCompare, ih]

/-- `lt` is the lexicographic order. -/
theorem lexCompare_eq_lt_iff {s t : List α} : lexCompare s t = .lt ↔ s < t := by
  induction s generalizing t with
  | nil => cases t <;> simp [lexCompare]
  | cons a s ih =>
    cases t with
    | nil => simp [lexCompare]
    | cons b t =>
      rcases lt_trichotomy a b with hab | rfl | hab
      · simp [lexCompare, hab, List.cons_lt_cons_iff]
      · simp [lexCompare, ih]
      · simp [lexCompare, hab, hab.not_gt, List.cons_lt_cons_iff, hab.ne']

/-- `eq` is equality. -/
theorem lexCompare_eq_eq_iff {s t : List α} : lexCompare s t = .eq ↔ s = t := by
  induction s generalizing t with
  | nil => cases t <;> simp [lexCompare]
  | cons a s ih =>
    cases t with
    | nil => simp [lexCompare]
    | cons b t =>
      rcases lt_trichotomy a b with hab | rfl | hab
      · simp [lexCompare, hab, hab.ne]
      · simp [lexCompare, ih]
      · simp [lexCompare, hab, hab.not_gt, hab.ne']

/-- `gt` is the lexicographic order, the other way. -/
theorem lexCompare_eq_gt_iff {s t : List α} : lexCompare s t = .gt ↔ t < s := by
  constructor
  · intro h
    rcases lt_trichotomy s t with hst | hst | hst
    · rw [lexCompare_eq_lt_iff.2 hst] at h
      cases h
    · rw [lexCompare_eq_eq_iff.2 hst] at h
      cases h
    · exact hst
  · intro h
    cases hc : lexCompare s t with
    | lt => exact absurd (lexCompare_eq_lt_iff.1 hc) h.not_gt
    | eq => exact absurd (lexCompare_eq_eq_iff.1 hc) h.ne'
    | gt => rfl

/-- Renaming the letters in their order keeps the comparison. -/
theorem lexCompare_map {β : Type} [LinearOrder β] {f : α → β} {s t : List α}
    (hf : ∀ a ∈ s, ∀ b ∈ t, (f a < f b ↔ a < b) ∧ (f b < f a ↔ b < a)) :
    lexCompare (s.map f) (t.map f) = lexCompare s t := by
  induction s generalizing t with
  | nil => cases t <;> rfl
  | cons a s ih =>
    cases t with
    | nil => rfl
    | cons b t =>
      obtain ⟨hab, hba⟩ := hf a List.mem_cons_self b List.mem_cons_self
      rw [List.map_cons, List.map_cons, lexCompare, lexCompare,
        ih fun a' ha b' hb => hf a' (List.mem_cons_of_mem _ ha) b' (List.mem_cons_of_mem _ hb)]
      simp only [hab, hba]

/-- A least letter at the end of both lists keeps the comparison. -/
theorem lexCompare_concat_least {z : α} (hz : ∀ a, z ≤ a) (s t : List α) :
    lexCompare (s ++ [z]) (t ++ [z]) = lexCompare s t := by
  induction s generalizing t with
  | nil =>
    cases t with
    | nil => simp [lexCompare]
    | cons b t =>
      rcases (hz b).eq_or_lt with rfl | hlt
      · cases t <;> simp [lexCompare]
      · simp [lexCompare, hlt]
  | cons a s ih =>
    cases t with
    | nil =>
      rcases (hz a).eq_or_lt with rfl | hlt
      · cases s <;> simp [lexCompare]
      · simp [lexCompare, hlt, hlt.not_gt]
    | cons b t =>
      rw [List.cons_append, List.cons_append, lexCompare, lexCompare, ih]

/-- Between two lists that share a prefix, every list shares it too. -/
theorem prefix_of_le_of_le {p s t u : List α} (hs : p <+: s) (hu : p <+: u)
    (hst : s ≤ t) (htu : t ≤ u) : p <+: t := by
  obtain ⟨s', rfl⟩ := hs
  obtain ⟨u', rfl⟩ := hu
  obtain ⟨c, p', t', hp, ht, hlen, hne⟩ := lcp_split p t
  cases p' with
  | nil =>
    rw [List.append_nil] at hp
    exact ⟨t', by rw [hp, ht]⟩
  | cons a p' =>
    subst hp ht
    cases t' with
    | nil =>
      have hlt : c < c ++ a :: p' ++ s' := by simpa using lt_append_of_ne_nil c (s := a :: (p' ++ s')) (by simp)
      exact absurd (by simpa using hst) hlt.not_ge
    | cons b t' =>
      rcases lt_or_gt_of_ne (hne a rfl b rfl) with hab | hab
      · have hlt : c ++ a :: p' ++ u' < c ++ b :: t' := by
          simpa using append_cons_lt_append_cons c (p' ++ u') t' hab
        exact absurd htu hlt.not_ge
      · have hlt : c ++ b :: t' < c ++ a :: p' ++ s' := by
          simpa using append_cons_lt_append_cons c t' (p' ++ s') hab
        exact absurd hst hlt.not_ge

end Order

end LexOrder
