import Mathlib.Data.List.Basic

namespace Words

variable {α V : Type}

/-- One slot of a function was set or emptied. -/
structure Updated (f g : List α → Option V) (word : List α) (slot : Option V) : Prop where
  here : g word = slot
  elsewhere : ∀ w, w ≠ word → g w = f w

namespace Updated

variable {f g : List α → Option V} {word : List α} {slot : Option V}

theorem refl {f : List α → Option V} {word : List α} {slot : Option V} (h : f word = slot) :
    Updated f f word slot := ⟨h, fun _ _ => rfl⟩

theorem congr {f' g' : List α → Option V} (h : Updated f g word slot) (hf : ∀ w, f' w = f w)
    (hg : ∀ w, g' w = g w) : Updated f' g' word slot where
  here := (hg word).trans h.here
  elsewhere w hw := by rw [hg, hf, h.elsewhere w hw]

end Updated

variable [BEq α] [LawfulBEq α]

/-- The function on the words that start with `p`. -/
def behind (p : List α) (f : List α → Option V) (w : List α) : Option V := (p.isPrefixOf? w).bind f

theorem behind_of_append (p rest : List α) (f : List α → Option V) : behind p f (p ++ rest) = f rest := by
  have hstrip : p.isPrefixOf? (p ++ rest) = some rest := List.isPrefixOf?_eq_some_iff_append_eq.2 rfl
  unfold behind
  rw [hstrip]
  rfl

theorem behind_self (p : List α) (f : List α → Option V) : behind p f p = f [] := by
  have happ := behind_of_append p [] f
  rwa [List.append_nil] at happ

theorem behind_eq_none {p w : List α} (h : ¬ p <+: w) (f : List α → Option V) : behind p f w = none := by
  unfold behind
  cases hstrip : p.isPrefixOf? w with
  | none => rfl
  | some rest => exact absurd ⟨rest, List.isPrefixOf?_eq_some_iff_append_eq.1 hstrip⟩ h

theorem prefix_of_behind {p w : List α} {f : List α → Option V} {v : V} (h : behind p f w = some v) :
    p <+: w := by
  by_contra hnot
  rw [behind_eq_none hnot] at h
  cases h

/-- A shared beginning in two parts. -/
theorem behind_append (c p : List α) (f : List α → Option V) (w : List α) :
    behind (c ++ p) f w = behind c (behind p f) w := by
  by_cases hc : c <+: w
  · obtain ⟨rest, rfl⟩ := hc
    rw [behind_of_append]
    by_cases hp : p <+: rest
    · obtain ⟨rest', rfl⟩ := hp
      rw [← List.append_assoc, behind_of_append, behind_of_append]
    · rw [behind_eq_none hp, behind_eq_none fun h => hp ((List.prefix_append_right_inj c).1 h)]
  · rw [behind_eq_none hc, behind_eq_none fun h => hc ((List.prefix_append c p).trans h)]

theorem behind_cons_of_ne {a b : α} (h : b ≠ a) (p rest : List α) (f : List α → Option V) :
    behind (a :: p) f (b :: rest) = none := by
  refine behind_eq_none (fun hpfx => ?_) f
  obtain ⟨t, ht⟩ := hpfx
  exact h (List.cons.inj ht).1.symm

theorem behind_cons_nil (a : α) (p : List α) (f : List α → Option V) : behind (a :: p) f [] = none := by
  refine behind_eq_none (fun hpfx => ?_) f
  obtain ⟨t, ht⟩ := hpfx
  cases ht

/-- Functions behind a shared beginning differ as the functions do. -/
theorem Updated.behind {f g : List α → Option V} {u : List α} {slot : Option V} (h : Updated f g u slot)
    (c : List α) : Updated (behind c f) (behind c g) (c ++ u) slot where
  here := (behind_of_append c u g).trans h.here
  elsewhere w hw := by
    by_cases hc : c <+: w
    · obtain ⟨rest, rfl⟩ := hc
      rw [behind_of_append, behind_of_append]
      exact h.elsewhere rest fun heq => hw (congrArg (c ++ ·) heq)
    · rw [behind_eq_none hc, behind_eq_none hc]

end Words
