namespace Checked

variable {ε α β : Type}

/-- Where `plain` returns, `checked` stops if `fails` holds, and returns the same if not. -/
def Guards (fails : Prop) (plain checked : Except ε α) : Prop :=
  ∀ a, plain = .ok a → (fails → ∃ e, checked = .error e) ∧ (¬ fails → checked = .ok a)

/-- `checked` returns whatever `plain` returns. -/
def Follows (plain checked : Except ε α) : Prop := ∀ a, plain = .ok a → checked = .ok a

variable {fails fails' : Prop} {plain checked : Except ε α}

theorem Follows.refl (plain : Except ε α) : Follows plain plain := fun _ h => h

/-- A step that returns what the unchecked one returns, before checked ones. -/
theorem Follows.bind {f g : α → Except ε β} (h : Follows plain checked)
    (hrest : ∀ a, plain = .ok a → Follows (f a) (g a)) : Follows (plain >>= f) (checked >>= g) := by
  intro b hb
  cases hplain : plain with
  | error e =>
    rw [hplain] at hb
    cases hb
  | ok a =>
    rw [hplain] at hb
    rw [h a hplain]
    exact hrest a hplain b hb

theorem Follows.map (h : Follows plain checked) (f : α → β) : Follows (f <$> plain) (f <$> checked) := by
  intro b hb
  cases hplain : plain with
  | error e =>
    rw [hplain] at hb
    cases hb
  | ok a =>
    rw [hplain] at hb
    rw [h a hplain]
    exact hb

theorem Follows.foldl {σ ι : Type} {f g : σ → ι → Except ε σ}
    (h : ∀ s i, Follows (f s i) (g s i)) (l : List ι) (s : σ) : Follows (l.foldlM f s) (l.foldlM g s) := by
  induction l generalizing s with
  | nil => exact Follows.refl _
  | cons i l ih =>
    rw [List.foldlM_cons, List.foldlM_cons]
    exact (h s i).bind fun a _ => ih a

namespace Guards

theorem of_follows (h : Follows plain checked) (hnot : ¬ fails) : Guards fails plain checked :=
  fun a ha => ⟨fun hfails => absurd hfails hnot, fun _ => h a ha⟩

theorem congr (h : Guards fails plain checked) (hiff : fails' ↔ fails) : Guards fails' plain checked :=
  fun a ha => ⟨fun hfails => (h a ha).1 (hiff.1 hfails), fun hnot => (h a ha).2 fun hfails => hnot (hiff.2 hfails)⟩

/-- A step that may stop, before one that may. -/
theorem bind {f g : α → Except ε β} (h : Guards fails plain checked)
    (hrest : ∀ a, plain = .ok a → Guards fails' (f a) (g a)) :
    Guards (fails ∨ fails') (plain >>= f) (checked >>= g) := by
  intro b hb
  cases hplain : plain with
  | error e =>
    rw [hplain] at hb
    cases hb
  | ok a =>
    rw [hplain] at hb
    have hstops : fails → ∃ e, (checked >>= g) = .error e := by
      intro hfails
      obtain ⟨e, he⟩ := (h a hplain).1 hfails
      exact ⟨e, by rw [he]; rfl⟩
    refine ⟨fun hor => ?_, fun hnot => ?_⟩
    · by_cases hfails : fails
      · exact hstops hfails
      · rw [(h a hplain).2 hfails]
        exact (hrest a hplain b hb).1 (hor.resolve_left hfails)
    · rw [(h a hplain).2 fun hfails => hnot (Or.inl hfails)]
      exact (hrest a hplain b hb).2 fun hfails => hnot (Or.inr hfails)

/-- A step that may stop, before ones that do not. -/
theorem bind_follows {f g : α → Except ε β} (h : Guards fails plain checked)
    (hrest : ∀ a, plain = .ok a → Follows (f a) (g a)) :
    Guards fails (plain >>= f) (checked >>= g) :=
  (h.bind fun a ha => of_follows (hrest a ha) not_false).congr (Iff.of_eq (or_false fails).symm)

end Guards

/-- A step that does not stop, before one that may. -/
theorem Follows.bind_guards {f g : α → Except ε β} (h : Follows plain checked)
    (hrest : ∀ a, plain = .ok a → Guards fails (f a) (g a)) :
    Guards fails (plain >>= f) (checked >>= g) :=
  ((Guards.of_follows h not_false).bind hrest).congr (Iff.of_eq (false_or fails).symm)

end Checked
