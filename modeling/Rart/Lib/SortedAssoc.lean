import Mathlib.Order.Basic
import Mathlib.Order.Lattice
import Mathlib.Data.List.Basic

namespace SortedAssoc

variable {κ β γ : Type} [LinearOrder κ]

/-- Keys strictly ascend, so every key occurs at most once. Such a list is a finite map, read by
`List.lookup`. -/
def Ascending (l : List (κ × β)) : Prop := l.Pairwise (fun p q => p.1 < q.1)

/-- Put a binding before the first key that is not smaller. -/
def insertSorted (k : κ) (v : β) : List (κ × β) → List (κ × β)
  | [] => [(k, v)]
  | p :: l => if p.1 < k then p :: insertSorted k v l else (k, v) :: p :: l

/-- Drop the binding of a key. -/
def eraseKey (k : κ) (l : List (κ × β)) : List (κ × β) := l.filter (fun p => p.1 ≠ k)

/-- Overwrite the value bound to a key, if there is one. -/
def setKey (k : κ) (v : β) (l : List (κ × β)) : List (κ × β) :=
  l.map (fun p => if p.1 = k then (k, v) else p)

/-- A lookup tests the first key and goes on behind it. -/
theorem lookup_cons_if (k e : κ) (v : β) (l : List (κ × β)) :
    ((e, v) :: l).lookup k = if k = e then some v else l.lookup k := by
  by_cases hk : k = e
  · simp [hk]
  · have hbeq : (k == e) = false := by simpa using hk
    simp [List.lookup_cons, hbeq, hk]

theorem ascending_nil : Ascending ([] : List (κ × β)) := List.Pairwise.nil

theorem ascending_cons {p : κ × β} {l : List (κ × β)} :
    Ascending (p :: l) ↔ (∀ q ∈ l, p.1 < q.1) ∧ Ascending l := List.pairwise_cons

theorem Ascending.nodup_keys {l : List (κ × β)} (h : Ascending l) : (l.map Prod.fst).Nodup := by
  rw [List.Nodup, List.pairwise_map]
  exact List.Pairwise.imp (fun hlt => hlt.ne) h

/-- In ascending order a lookup finds what is in the list. -/
theorem Ascending.lookup_eq_some_iff {l : List (κ × β)} (h : Ascending l) {k : κ} {v : β} :
    l.lookup k = some v ↔ (k, v) ∈ l := by
  induction l with
  | nil => simp
  | cons p l ih =>
    obtain ⟨hlt, hl⟩ := ascending_cons.1 h
    obtain ⟨e, w⟩ := p
    rw [lookup_cons_if]
    by_cases hke : k = e
    · subst hke
      have hnot : (k, v) ∉ l := fun hmem => lt_irrefl k (hlt _ hmem)
      simp [hnot, eq_comm]
    · simp [hke, ih hl]

/-- A lookup fails where the key is not among the keys. -/
theorem lookup_eq_none_iff {l : List (κ × β)} {k : κ} :
    l.lookup k = none ↔ k ∉ l.map Prod.fst := by
  rw [List.lookup_eq_none_iff]
  constructor
  · intro h hmem
    obtain ⟨p, hp, rfl⟩ := List.mem_map.1 hmem
    simpa using h p hp
  · intro h p hp
    have hne : k ≠ p.1 := fun heq => h (List.mem_map.2 ⟨p, hp, heq.symm⟩)
    simpa using hne

/-- What a lookup finds is in the list. -/
theorem mem_of_lookup {α : Type} [BEq α] [LawfulBEq α] {l : List (α × β)} {k : α} {v : β}
    (h : l.lookup k = some v) : (k, v) ∈ l := by
  obtain ⟨l₁, l₂, rfl, _⟩ := List.lookup_eq_some_iff.1 h
  exact List.mem_append_right l₁ List.mem_cons_self

theorem mem_keys_of_lookup {l : List (κ × β)} {k : κ} {v : β} (h : l.lookup k = some v) :
    k ∈ l.map Prod.fst := by
  by_contra hnot
  rw [lookup_eq_none_iff.2 hnot] at h
  cases h

/-- Lists in ascending order are equal if they have the same members. -/
theorem Ascending.ext {l m : List (κ × β)} (hl : Ascending l) (hm : Ascending m)
    (h : ∀ k v, (k, v) ∈ l ↔ (k, v) ∈ m) : l = m := by
  have hasymm : ∀ p q : κ × β, p.1 < q.1 → q.1 < p.1 → p = q := fun p q hpq hqp =>
    absurd hpq hqp.not_gt
  have hdl : l.Nodup := List.Pairwise.imp (fun hlt heq => hlt.ne (congrArg Prod.fst heq)) hl
  have hdm : m.Nodup := List.Pairwise.imp (fun hlt heq => hlt.ne (congrArg Prod.fst heq)) hm
  have hperm : l.Perm m := (List.perm_ext_iff_of_nodup hdl hdm).2 (fun p => h p.1 p.2)
  exact hperm.eq_of_pairwise (fun p q _ _ => hasymm p q) hl hm

section Insert

/-- A new key cuts the list into the smaller and the larger ones. -/
theorem Ascending.insertSorted_split {k : κ} {l : List (κ × β)} (h : Ascending l)
    (hk : l.lookup k = none) (v : β) :
    ∃ l₁ l₂, l = l₁ ++ l₂ ∧ insertSorted k v l = l₁ ++ (k, v) :: l₂ ∧
      (∀ p ∈ l₁, p.1 < k) ∧ ∀ p ∈ l₂, k < p.1 := by
  induction l with
  | nil => exact ⟨[], [], rfl, rfl, by simp, by simp⟩
  | cons p l ih =>
    obtain ⟨hlt, hl⟩ := ascending_cons.1 h
    obtain ⟨e, w⟩ := p
    have hne : k ≠ e := fun heq => by simp [heq] at hk
    by_cases hp : e < k
    · rw [lookup_cons_if, if_neg hne] at hk
      obtain ⟨l₁, l₂, rfl, hins, hsmall, hlarge⟩ := ih hl hk
      refine ⟨(e, w) :: l₁, l₂, rfl, ?_, ?_, hlarge⟩
      · simp [insertSorted, hp, hins]
      · intro q hq
        cases List.mem_cons.1 hq with
        | inl heq => rw [heq]; exact hp
        | inr hq => exact hsmall q hq
    · have hke : k < e := lt_of_le_of_ne (not_lt.1 hp) hne
      refine ⟨[], (e, w) :: l, rfl, by simp [insertSorted, hp], by simp, ?_⟩
      intro q hq
      cases List.mem_cons.1 hq with
      | inl heq => rw [heq]; exact hke
      | inr hq => exact hke.trans (hlt q hq)

/-- A key above all others goes to the end. -/
theorem insertSorted_of_forall_lt {k : κ} {l : List (κ × β)} (h : ∀ p ∈ l, p.1 < k) (v : β) :
    insertSorted k v l = l ++ [(k, v)] := by
  induction l with
  | nil => rfl
  | cons p l ih =>
    have hp := h p (by simp)
    simp [insertSorted, hp, ih fun q hq => h q (by simp [hq])]

theorem lookup_eq_none_of_forall_lt {k : κ} {l : List (κ × β)} (h : ∀ p ∈ l, p.1 < k) :
    l.lookup k = none := by
  rw [lookup_eq_none_iff]
  intro hmem
  obtain ⟨p, hp, heq⟩ := List.mem_map.1 hmem
  exact (h p hp).ne heq

/-- Insertion adds its entry and no other. -/
theorem mem_insertSorted {k : κ} {v : β} {l : List (κ × β)} {p : κ × β} :
    p ∈ insertSorted k v l ↔ p = (k, v) ∨ p ∈ l := by
  induction l with
  | nil => simp [insertSorted]
  | cons q l ih =>
    by_cases hq : q.1 < k
    · simp only [insertSorted, hq, if_true, List.mem_cons, ih]
      exact or_left_comm
    · simp [insertSorted, hq]

theorem length_insertSorted (k : κ) (v : β) (l : List (κ × β)) :
    (insertSorted k v l).length = l.length + 1 := by
  induction l with
  | nil => rfl
  | cons p l ih => by_cases hp : p.1 < k <;> simp [insertSorted, hp, ih]

/-- Where an entry is inserted matters to the order alone. -/
theorem insertSorted_perm (k : κ) (v : β) (l : List (κ × β)) : (insertSorted k v l).Perm ((k, v) :: l) := by
  induction l with
  | nil => exact List.Perm.refl _
  | cons p l ih =>
    unfold insertSorted
    split
    · exact (ih.cons p).trans (List.Perm.swap (k, v) p l)
    · exact List.Perm.refl _

/-- A new key is inserted where the order asks for it. -/
theorem Ascending.insertSorted {k : κ} {l : List (κ × β)} (h : Ascending l)
    (hk : k ∉ l.map Prod.fst) (v : β) : Ascending (insertSorted k v l) := by
  induction l with
  | nil => exact ascending_cons.2 ⟨by simp, ascending_nil⟩
  | cons p l ih =>
    obtain ⟨hlt, hl⟩ := ascending_cons.1 h
    simp only [List.map_cons, List.mem_cons, not_or] at hk
    by_cases hp : p.1 < k
    · simp only [SortedAssoc.insertSorted, hp, if_true]
      refine ascending_cons.2 ⟨?_, ih hl hk.2⟩
      intro q hq
      rcases mem_insertSorted.1 hq with rfl | hq
      · exact hp
      · exact hlt q hq
    · have hkp : k < p.1 := lt_of_le_of_ne (not_lt.1 hp) hk.1
      simp only [SortedAssoc.insertSorted, hp, if_false]
      refine ascending_cons.2 ⟨?_, h⟩
      intro q hq
      rcases List.mem_cons.1 hq with rfl | hq
      · exact hkp
      · exact hkp.trans (hlt q hq)

/-- An insertion is seen under its key, and nowhere else. -/
@[simp] theorem lookup_insertSorted (k k' : κ) (v : β) (l : List (κ × β)) :
    (insertSorted k v l).lookup k' = if k' = k then some v else l.lookup k' := by
  induction l with
  | nil => simp [insertSorted, lookup_cons_if]
  | cons p l ih =>
    obtain ⟨e, w⟩ := p
    by_cases hp : e < k
    · simp only [insertSorted, hp, if_true, lookup_cons_if, ih]
      by_cases hk : k' = k
      · subst hk
        simp [hp.ne']
      · simp [hk]
    · simp [insertSorted, hp, lookup_cons_if]

end Insert

section Erase

/-- Erasing keeps the order. -/
theorem Ascending.eraseKey {l : List (κ × β)} (h : Ascending l) (k : κ) :
    Ascending (eraseKey k l) := List.Pairwise.filter _ h

/-- Erasing removes the entries of one key. -/
theorem mem_eraseKey {k : κ} {l : List (κ × β)} {p : κ × β} :
    p ∈ eraseKey k l ↔ p ∈ l ∧ p.1 ≠ k := by simp [eraseKey]

/-- An erased key is gone, and all others are found as before. -/
@[simp] theorem lookup_eraseKey (k k' : κ) (l : List (κ × β)) :
    (eraseKey k l).lookup k' = if k' = k then none else l.lookup k' := by
  induction l with
  | nil => simp [eraseKey]
  | cons p l ih =>
    obtain ⟨e, w⟩ := p
    simp only [eraseKey] at ih ⊢
    by_cases he : e = k
    · subst he
      simp only [List.filter_cons, ne_eq, not_true, decide_false, Bool.false_eq_true, if_false,
        ih, lookup_cons_if]
      by_cases hk : k' = e <;> simp [hk]
    · simp only [List.filter_cons, he, ne_eq, not_false_eq_true, decide_true, if_true,
        lookup_cons_if, ih]
      by_cases hk : k' = k
      · subst hk
        simp [Ne.symm he]
      · simp [hk]

theorem eraseKey_append_cons {k : κ} {v : β} (l₁ : List (κ × β)) {l₂ : List (κ × β)}
    (h : Ascending (l₁ ++ (k, v) :: l₂)) : eraseKey k (l₁ ++ (k, v) :: l₂) = l₁ ++ l₂ := by
  have hd := h.nodup_keys
  simp only [List.map_append, List.map_cons, List.nodup_append, List.nodup_cons] at hd
  obtain ⟨_, ⟨hk₂, _⟩, hdisj⟩ := hd
  have h₁ : l₁.filter (fun p => decide (p.1 ≠ k)) = l₁ := by
    refine List.filter_eq_self.2 fun p hp => ?_
    have hne : p.1 ≠ k := hdisj p.1 (List.mem_map.2 ⟨p, hp, rfl⟩) k (by simp)
    simpa using hne
  have h₂ : l₂.filter (fun p => decide (p.1 ≠ k)) = l₂ := by
    refine List.filter_eq_self.2 fun p hp => ?_
    have hne : p.1 ≠ k := fun heq => hk₂ (List.mem_map.2 ⟨p, hp, heq⟩)
    simpa using hne
  simp only [eraseKey, List.filter_append, List.filter_cons, h₁, h₂]
  simp

/-- What is erased is the one entry of its key. -/
theorem Ascending.eraseKey_perm {l : List (κ × β)} (h : Ascending l) {k : κ} {v : β}
    (hk : l.lookup k = some v) : l.Perm ((k, v) :: SortedAssoc.eraseKey k l) := by
  obtain ⟨l₁, l₂, rfl, _⟩ := List.lookup_eq_some_iff.1 hk
  rw [eraseKey_append_cons _ h]
  exact List.perm_middle

/-- Erasing a key that is there removes one entry. -/
theorem Ascending.length_eraseKey {l : List (κ × β)} (h : Ascending l) {k : κ} {v : β}
    (hk : l.lookup k = some v) : (SortedAssoc.eraseKey k l).length + 1 = l.length := by
  obtain ⟨l₁, l₂, rfl, _⟩ := List.lookup_eq_some_iff.1 hk
  rw [eraseKey_append_cons _ h]
  simp
  omega

end Erase

section Set

/-- Setting a value leaves the keys as they are. -/
theorem map_fst_setKey (k : κ) (v : β) (l : List (κ × β)) :
    (setKey k v l).map Prod.fst = l.map Prod.fst := by
  simp only [setKey, List.map_map]
  refine List.map_congr_left fun p _ => ?_
  by_cases hp : p.1 = k <;> simp [hp]

theorem Ascending.setKey {l : List (κ × β)} (h : Ascending l) (k : κ) (v : β) :
    Ascending (setKey k v l) := by
  have hfst : (l.map Prod.fst).Pairwise (· < ·) := List.pairwise_map.2 h
  rw [← map_fst_setKey k v l] at hfst
  exact List.pairwise_map.1 hfst

theorem mem_setKey {k : κ} {v : β} {l : List (κ × β)} {p : κ × β} (hp : p ∈ setKey k v l) :
    p = (k, v) ∨ (p ∈ l ∧ p.1 ≠ k) := by
  obtain ⟨q, hq, rfl⟩ := List.mem_map.1 hp
  by_cases hqk : q.1 = k
  · simp [hqk]
  · simp [hqk, hq]

/-- A value that is set is found where there was one before. -/
@[simp] theorem lookup_setKey (k k' : κ) (v : β) (l : List (κ × β)) :
    (setKey k v l).lookup k' = if k' = k then (l.lookup k).map (fun _ => v) else l.lookup k' := by
  induction l with
  | nil => simp [setKey]
  | cons p l ih =>
    obtain ⟨e, w⟩ := p
    simp only [setKey] at ih ⊢
    by_cases he : e = k
    · subst he
      by_cases hk : k' = e <;> simp [lookup_cons_if, hk, ih]
    · by_cases hk : k' = k
      · subst hk
        simp [lookup_cons_if, he, Ne.symm he, ih]
      · simp [lookup_cons_if, he, ih, hk]

/-- Nothing is set under a key that is not there. -/
theorem setKey_eq_self {k : κ} {l : List (κ × β)} (h : l.lookup k = none) (v : β) :
    setKey k v l = l := by
  refine (List.map_congr_left fun p hp => ?_).trans (List.map_id l)
  have hne : p.1 ≠ k := fun heq => lookup_eq_none_iff.1 h (List.mem_map.2 ⟨p, hp, heq⟩)
  simp [hne]

/-- A value that is erased need not be set. -/
@[simp] theorem eraseKey_setKey (k : κ) (v : β) (l : List (κ × β)) :
    eraseKey k (setKey k v l) = eraseKey k l := by
  induction l with
  | nil => rfl
  | cons p l ih =>
    simp only [eraseKey, setKey, ne_eq, decide_not] at ih ⊢
    by_cases hp : p.1 = k
    · simp [hp, ih]
    · simp [hp, ih]

theorem setKey_append_cons {k : κ} {w : β} {l₁ l₂ : List (κ × β)}
    (h : Ascending (l₁ ++ (k, w) :: l₂)) (v : β) :
    setKey k v (l₁ ++ (k, w) :: l₂) = l₁ ++ (k, v) :: l₂ := by
  have hd := h.nodup_keys
  simp only [List.map_append, List.map_cons, List.nodup_append, List.nodup_cons] at hd
  obtain ⟨_, ⟨hk₂, _⟩, hdisj⟩ := hd
  have h₁ : setKey k v l₁ = l₁ := setKey_eq_self (lookup_eq_none_iff.2 fun hk =>
    hdisj k hk k (by simp) rfl) v
  have h₂ : setKey k v l₂ = l₂ := setKey_eq_self (lookup_eq_none_iff.2 hk₂) v
  simp only [setKey, List.map_append, List.map_cons, if_true] at h₁ h₂ ⊢
  rw [h₁, h₂]

end Set

section Resolve

/-- The values looked up one by one, without those that are not there. -/
def resolve (g : β → Option γ) (l : List (κ × β)) : List (κ × γ) :=
  l.filterMap fun p => (g p.2).map fun c => (p.1, c)

omit [LinearOrder κ] in
/-- What is resolved comes from the entries that resolve. -/
theorem mem_resolve {g : β → Option γ} {l : List (κ × β)} {k : κ} {c : γ} :
    (k, c) ∈ resolve g l ↔ ∃ b, (k, b) ∈ l ∧ g b = some c := by
  unfold resolve
  rw [List.mem_filterMap]
  constructor
  · rintro ⟨⟨k', b⟩, hp, hc⟩
    obtain ⟨c', hc', heq⟩ := Option.map_eq_some_iff.1 hc
    cases heq
    exact ⟨b, hp, hc'⟩
  · rintro ⟨b, hp, hc⟩
    exact ⟨(k, b), hp, by rw [hc]; rfl⟩

/-- Resolving values keeps the order of the keys. -/
theorem Ascending.resolve {l : List (κ × β)} (h : Ascending l) (g : β → Option γ) :
    Ascending (resolve g l) := by
  refine List.Pairwise.filterMap _ ?_ h
  intro p q hlt c hc d hd
  obtain ⟨_, _, rfl⟩ := Option.map_eq_some_iff.1 hc
  obtain ⟨_, _, rfl⟩ := Option.map_eq_some_iff.1 hd
  exact hlt

/-- Where all values resolve, lookups may go before or after. -/
theorem lookup_resolve {g : β → Option γ} {l : List (κ × β)} (hall : ∀ p ∈ l, ∃ c, g p.2 = some c) (k : κ) :
    (resolve g l).lookup k = (l.lookup k).bind g := by
  induction l with
  | nil => rfl
  | cons p l ih =>
    obtain ⟨e, b⟩ := p
    obtain ⟨c, hc⟩ := hall (e, b) (by simp)
    have hc : g b = some c := hc
    have hrest := ih fun q hq => hall q (List.mem_cons_of_mem _ hq)
    have hcons : resolve g ((e, b) :: l) = (e, c) :: resolve g l := by
      unfold resolve
      rw [List.filterMap_cons, hc]
      rfl
    rw [hcons, lookup_cons_if, lookup_cons_if, hrest]
    split
    · exact hc.symm
    · rfl

omit [LinearOrder κ] in
theorem resolve_eq_nil {g : β → Option γ} {l : List (κ × β)} (hall : ∀ p ∈ l, ∃ c, g p.2 = some c)
    (h : resolve g l = []) : l = [] := by
  cases l with
  | nil => rfl
  | cons p l =>
    obtain ⟨c, hc⟩ := hall p (by simp)
    have hmem : (p.1, c) ∈ resolve g (p :: l) := mem_resolve.2 ⟨p.2, by simp, hc⟩
    rw [h] at hmem
    cases hmem

omit [LinearOrder κ] in
theorem drop_resolve {g : β → Option γ} {l : List (κ × β)} (hall : ∀ p ∈ l, ∃ c, g p.2 = some c) (n : Nat) :
    resolve g (l.drop n) = (resolve g l).drop n := by
  induction l generalizing n with
  | nil => simp [resolve]
  | cons p l ih =>
    cases n with
    | zero => rfl
    | succ n =>
      obtain ⟨c, hc⟩ := hall p (by simp)
      have hrest := ih (fun q hq => hall q (List.mem_cons_of_mem _ hq)) n
      rw [List.drop_succ_cons, hrest, resolve, resolve, List.filterMap_cons_some (b := (p.1, c))]
      · rfl
      · rw [hc]
        rfl

end Resolve

section Join

variable {δ : Type}

/-- The bindings that two lists have under the same keys. -/
def shared (l : List (κ × β)) (m : List (κ × γ)) : List (κ × β × γ) :=
  l.filterMap fun p => (m.lookup p.1).map fun y => (p.1, p.2, y)

/-- The shared keys are those of both lists, with the values of both. -/
theorem mem_shared {l : List (κ × β)} {m : List (κ × γ)} (hm : Ascending m) {e : κ × β × γ} :
    e ∈ shared l m ↔ (e.1, e.2.1) ∈ l ∧ (e.1, e.2.2) ∈ m := by
  obtain ⟨k, x, y⟩ := e
  unfold shared
  rw [List.mem_filterMap]
  constructor
  · rintro ⟨p, hp, hmap⟩
    obtain ⟨z, hz, heq⟩ := Option.map_eq_some_iff.1 hmap
    cases heq
    exact ⟨hp, hm.lookup_eq_some_iff.1 hz⟩
  · rintro ⟨hx, hy⟩
    exact ⟨(k, x), hx, Option.map_eq_some_iff.2 ⟨y, hm.lookup_eq_some_iff.2 hy, rfl⟩⟩

/-- The shared keys come in the order of the first list. -/
theorem Ascending.shared {l : List (κ × β)} (hl : Ascending l) (m : List (κ × γ)) :
    Ascending (shared l m) := by
  unfold Ascending SortedAssoc.shared
  rw [List.pairwise_filterMap]
  refine hl.imp ?_
  intro p q hlt e he f hf
  obtain ⟨_, _, rfl⟩ := Option.map_eq_some_iff.1 he
  obtain ⟨_, _, rfl⟩ := Option.map_eq_some_iff.1 hf
  exact hlt

omit [LinearOrder κ] in
theorem flatMap_filterMap {α : Type} (l : List α) (f : α → Option β) (g : β → List δ) :
    (l.filterMap f).flatMap g = l.flatMap fun a => (f a).elim [] g := by
  induction l with
  | nil => rfl
  | cons a l ih => cases hf : f a <;> simp [hf, ih]

omit [LinearOrder κ] in
/-- A `flatMap` that ignores the proofs of membership. -/
theorem flatMap_attach {α : Type} {l : List α} {f : {a // a ∈ l} → List β} {g : α → List β}
    (h : ∀ a, f a = g a.1) : l.attach.flatMap f = l.flatMap g := by
  rw [List.flatMap_congr fun a _ => h a]
  exact (List.flatMap_subtype fun _ _ => rfl).trans (by rw [List.unattach_attach])

/-- A join of two ascending lists does not depend on which of them is walked. -/
theorem join_comm {l : List (κ × β)} {m : List (κ × γ)} (hl : Ascending l) (hm : Ascending m)
    (f : κ → β → γ → List δ) :
    (l.flatMap fun p => (m.lookup p.1).elim [] fun y => f p.1 p.2 y) =
      m.flatMap fun q => (l.lookup q.1).elim [] fun x => f q.1 x q.2 := by
  have hleft : (l.flatMap fun p => (m.lookup p.1).elim [] fun y => f p.1 p.2 y) =
      (shared l m).flatMap fun e => f e.1 e.2.1 e.2.2 := by
    unfold SortedAssoc.shared
    rw [flatMap_filterMap]
    refine List.flatMap_congr fun p _ => ?_
    cases m.lookup p.1 <;> rfl
  have hright : (m.flatMap fun q => (l.lookup q.1).elim [] fun x => f q.1 x q.2) =
      ((shared m l).map fun e => (e.1, e.2.2, e.2.1)).flatMap fun e => f e.1 e.2.1 e.2.2 := by
    unfold SortedAssoc.shared
    rw [List.flatMap_map, flatMap_filterMap]
    refine List.flatMap_congr fun q _ => ?_
    cases l.lookup q.1 <;> rfl
  have hsame : shared l m = (shared m l).map fun e => (e.1, e.2.2, e.2.1) := by
    have hswap : Ascending ((shared m l).map fun e => (e.1, e.2.2, e.2.1)) :=
      List.pairwise_map.2 (hm.shared l)
    apply Ascending.ext (hl.shared m) hswap
    rintro k ⟨x, y⟩
    rw [mem_shared hm, List.mem_map]
    constructor
    · rintro ⟨hx, hy⟩
      exact ⟨(k, y, x), (mem_shared hl).2 ⟨hy, hx⟩, rfl⟩
    · rintro ⟨e, he, heq⟩
      cases heq
      obtain ⟨hy, hx⟩ := (mem_shared hl).1 he
      exact ⟨hx, hy⟩
  rw [hleft, hright, hsame]

end Join

section Scan

variable {α : Type} {p : α → Bool} {l : List α}

/-- Where everything that passes stands before everything that does not, taking while
it passes is filtering. -/
theorem takeWhile_eq_filter (h : l.Pairwise fun x y => p y = true → p x = true) :
    l.takeWhile p = l.filter p := by
  induction l with
  | nil => rfl
  | cons x l ih =>
    obtain ⟨hhead, htail⟩ := List.pairwise_cons.1 h
    by_cases hx : p x = true
    · rw [List.takeWhile_cons_of_pos hx, List.filter_cons_of_pos hx, ih htail]
    · rw [List.takeWhile_cons_of_neg hx, List.filter_cons_of_neg hx, eq_comm, List.filter_eq_nil_iff]
      exact fun y hy hpass => hx (hhead y hy hpass)

/-- Where everything that passes stands behind everything that does not, dropping
until something passes is filtering. -/
theorem dropWhile_eq_filter (h : l.Pairwise fun x y => p x = true → p y = true) :
    (l.dropWhile fun x => !p x) = l.filter p := by
  induction l with
  | nil => rfl
  | cons x l ih =>
    obtain ⟨hhead, htail⟩ := List.pairwise_cons.1 h
    by_cases hx : p x = true
    · rw [List.dropWhile_cons_of_neg (by simp [hx]), eq_comm, List.filter_eq_self]
      intro y hy
      cases List.mem_cons.1 hy with
      | inl heq => rwa [heq]
      | inr hmem => exact hhead y hmem hx
    · rw [List.dropWhile_cons_of_pos (by simp [hx]), List.filter_cons_of_neg hx, ih htail]

end Scan

end SortedAssoc
