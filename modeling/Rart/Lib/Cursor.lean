/-- A loop that walks a structure and now and then hands out an element: one turn of the loop, and
a size that every turn lowers. `none` ends the walk, `some (none, s)` goes on in state `s`, and
`some (some a, s)` hands out `a` first. -/
structure Cursor (σ α : Type) where
  step : σ → Option (Option α × σ)
  size : σ → Nat
  step_lt : ∀ {s : σ} {o : Option α} {s' : σ}, step s = some (o, s') → size s' < size s

namespace Cursor

variable {σ α : Type}

/-- Turn until an element is handed out. -/
def next (c : Cursor σ α) (s : σ) : Option (α × σ) :=
  match _hstep : c.step s with
  | none => none
  | some (some a, s') => some (a, s')
  | some (none, s') => c.next s'
termination_by c.size s
decreasing_by exact c.step_lt _hstep

/-- Everything that is handed out from a state on. -/
def collect (c : Cursor σ α) (s : σ) : List α :=
  match _hstep : c.step s with
  | none => []
  | some (o, s') => o.toList ++ c.collect s'
termination_by c.size s
decreasing_by exact c.step_lt _hstep

section Equations

variable {c : Cursor σ α} {s s' : σ} {a : α}

theorem collect_of_none (h : c.step s = none) : c.collect s = [] := by
  unfold collect
  split
  · rfl
  · rename_i hstep
    rw [h] at hstep
    cases hstep

theorem collect_of_some {o : Option α} (h : c.step s = some (o, s')) :
    c.collect s = o.toList ++ c.collect s' := by
  rw [collect]
  split
  · rename_i hstep
    rw [h] at hstep
    cases hstep
  · rename_i hstep
    rw [h] at hstep
    cases hstep
    rfl

theorem next_of_none (h : c.step s = none) : c.next s = none := by
  unfold next
  split <;> rename_i hstep <;> rw [h] at hstep <;> first | rfl | cases hstep

theorem next_of_emit (h : c.step s = some (some a, s')) : c.next s = some (a, s') := by
  unfold next
  split <;> rename_i hstep <;> rw [h] at hstep <;> cases hstep
  rfl

theorem next_of_skip (h : c.step s = some (none, s')) : c.next s = c.next s' := by
  rw [next]
  split <;> rename_i hstep <;> rw [h] at hstep <;> cases hstep
  rfl

/-- Collecting is asking for the next element until there is none. -/
theorem collect_eq_next (c : Cursor σ α) (s : σ) :
    c.collect s = match c.next s with
      | none => []
      | some (a, s') => a :: c.collect s' := by
  induction hn : c.size s using Nat.strongRecOn generalizing s with
  | ind n ih =>
    subst hn
    cases hstep : c.step s with
    | none => rw [collect_of_none hstep, next_of_none hstep]
    | some turn =>
      obtain ⟨o, s'⟩ := turn
      cases o with
      | none =>
        rw [collect_of_some hstep, next_of_skip hstep]
        exact ih (c.size s') (c.step_lt hstep) s' rfl
      | some a =>
        rw [collect_of_some hstep, next_of_emit hstep]
        rfl

theorem next_of_collect_nil (h : c.collect s = []) : c.next s = none := by
  rw [collect_eq_next] at h
  cases hnext : c.next s with
  | none => rfl
  | some turn =>
    rw [hnext] at h
    cases h

theorem next_of_collect_cons {l : List α} (h : c.collect s = a :: l) :
    ∃ s', c.next s = some (a, s') ∧ c.collect s' = l := by
  rw [collect_eq_next] at h
  cases hnext : c.next s with
  | none =>
    rw [hnext] at h
    cases h
  | some turn =>
    obtain ⟨b, s'⟩ := turn
    rw [hnext] at h
    obtain ⟨rfl, hrest⟩ := List.cons.inj h
    exact ⟨s', rfl, hrest⟩

theorem next_lt (h : c.next s = some (a, s')) : c.size s' < c.size s := by
  induction hn : c.size s using Nat.strongRecOn generalizing s with
  | ind n ih =>
    subst hn
    cases hstep : c.step s with
    | none =>
      rw [next_of_none hstep] at h
      cases h
    | some turn =>
      obtain ⟨o, s''⟩ := turn
      have hlt := c.step_lt hstep
      cases o with
      | none =>
        rw [next_of_skip hstep] at h
        exact Nat.lt_trans (ih (c.size s'') hlt h rfl) hlt
      | some b =>
        rw [next_of_emit hstep] at h
        cases h
        exact hlt

end Equations

section Rules

/-- The invariant rule: where an invariant describes the elements still pending,
a state that satisfies it collects exactly those. -/
theorem collect_eq_of_pending (c : Cursor σ α) (Pending : σ → List α → Prop)
    (hdone : ∀ {s l}, Pending s l → c.step s = none → l = [])
    (hturn : ∀ {s l o s'}, Pending s l → c.step s = some (o, s') →
      ∃ l', l = o.toList ++ l' ∧ Pending s' l')
    {s : σ} {l : List α} (h : Pending s l) : c.collect s = l := by
  induction hn : c.size s using Nat.strongRecOn generalizing s l with
  | ind n ih =>
    subst hn
    cases hstep : c.step s with
    | none => rw [collect_of_none hstep, hdone h hstep]
    | some turn =>
      obtain ⟨o, s'⟩ := turn
      obtain ⟨l', rfl, h'⟩ := hturn h hstep
      rw [collect_of_some hstep, ih (c.size s') (c.step_lt hstep) h' rfl]

end Rules

section Combinators

/-- Hand out at most one element before the walk. -/
def onceThen (c : Cursor σ α) : Cursor (Option α × σ) α where
  step s :=
    match s.1 with
    | some a => some (some a, (none, s.2))
    | none => (c.step s.2).map fun turn => (turn.1, (none, turn.2))
  size s := (if s.1.isSome then 1 else 0) + c.size s.2
  step_lt := by
    intro s o s' h
    obtain ⟨first, s⟩ := s
    cases first with
    | some a =>
      cases h
      simp
    | none =>
      obtain ⟨turn, hturn, heq⟩ := Option.map_eq_some_iff.1 h
      cases heq
      simpa using c.step_lt hturn

theorem collect_onceThen (c : Cursor σ α) (first : Option α) (s : σ) :
    c.onceThen.collect (first, s) = first.toList ++ c.collect s := by
  have hrest : ∀ s, c.onceThen.collect (none, s) = c.collect s := by
    intro s
    refine c.onceThen.collect_eq_of_pending (fun t l => t.1 = none ∧ l = c.collect t.2) ?_ ?_
      ⟨rfl, rfl⟩
    · rintro ⟨first, s⟩ l ⟨hnone, rfl⟩ hstep
      obtain rfl : first = none := hnone
      exact collect_of_none (Option.map_eq_none_iff.1 hstep)
    · rintro ⟨first, s⟩ l o s' ⟨hnone, rfl⟩ hstep
      obtain rfl : first = none := hnone
      obtain ⟨turn, hturn, heq⟩ := Option.map_eq_some_iff.1 hstep
      cases heq
      exact ⟨_, collect_of_some hturn, rfl, rfl⟩
  cases first with
  | none => exact hrest s
  | some a => rw [collect_of_some (c := c.onceThen) (s := (some a, s)) rfl, hrest]

/-- Ask for the next element for as long as the elements satisfy a test. -/
def takeWhile (c : Cursor σ α) (p : α → Bool) : Cursor σ α where
  step s :=
    match c.next s with
    | none => none
    | some (a, s') => if p a then some (some a, s') else none
  size := c.size
  step_lt := by
    intro s o s' h
    split at h
    · cases h
    · rename_i a s'' hnext
      split at h
      · cases h
        exact next_lt hnext
      · cases h

theorem collect_takeWhile (c : Cursor σ α) (p : α → Bool) (s : σ) :
    (c.takeWhile p).collect s = (c.collect s).takeWhile p := by
  refine (c.takeWhile p).collect_eq_of_pending (fun t l => l = (c.collect t).takeWhile p) ?_ ?_ rfl
  · rintro s l rfl hstep
    have hcollect := c.collect_eq_next s
    unfold takeWhile at hstep
    dsimp only at hstep
    split at hstep
    · rename_i hnext
      rw [hcollect, hnext]
      rfl
    · rename_i a s' hnext
      split at hstep
      · cases hstep
      · rename_i hfails
        rw [hcollect, hnext]
        exact List.takeWhile_cons_of_neg hfails
  · rintro s l o s' rfl hstep
    have hcollect := c.collect_eq_next s
    unfold takeWhile at hstep
    dsimp only at hstep
    split at hstep
    · cases hstep
    · rename_i a s'' hnext
      split at hstep
      · rename_i hholds
        cases hstep
        refine ⟨_, ?_, rfl⟩
        rw [hcollect, hnext]
        exact List.takeWhile_cons_of_pos hholds
      · cases hstep

end Combinators

end Cursor
