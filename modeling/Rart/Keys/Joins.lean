import Rart.Keys.Storage

namespace rart.partials

section Storage

variable {SIZE N : Nat}

/-- The assertion asks for one byte more than the array needs for the two. -/
def ArrPartial.partial_extended_with [Profile] (self other : ArrPartial SIZE) : Result (ArrPartial SIZE) := do
  debug_assert (self.len + other.len < SIZE) "assertion failed: self.len + other.len < SIZE"
  let data := U8Array.zero
  let data ← data.copy_from_slice 0 (← slice_to self.data.bytes self.len)
  let data ← data.copy_from_slice self.len (← slice_to other.data.bytes other.len)
  return ⟨data, self.len + other.len⟩

/-- Vectors grow as needed. -/
def VectorPartial.partial_extended_with (self other : VectorPartial) : VectorPartial := ⟨self.data ++ other.data⟩

/-- The bytes of both are stored anew, in the array or in a box. -/
def OverflowPartial.partial_extended_with (self other : OverflowPartial N) : Result (OverflowPartial N) := do
  from_slice ((← self.data) ++ (← other.data))

end Storage

/-- The type `P` of the prefixes in a tree. -/
inductive PartialType where
  | ArrPartial (SIZE : Nat)
  | VectorPartial
  | OverflowPartial (N : Nat)

namespace PartialType

variable [Profile]

/-- The bytes of two joined prefixes. An array has to have room for them, and with debug
assertions for one more. -/
def partial_extended_with (self : PartialType) (pfx other : Bytes) : Result Bytes :=
  match self with
  | ArrPartial SIZE => do
    debug_assert (pfx.length + other.length < SIZE) "assertion failed: self.len + other.len < SIZE"
    if pfx.length + other.length ≤ SIZE then return pfx ++ other else throw .index_out_of_bounds
  | VectorPartial => return pfx ++ other
  | OverflowPartial _ => return pfx ++ other

/-- Two prefixes of this length together can be joined. -/
def Room (self : PartialType) (len : Nat) : Prop :=
  match self with
  | ArrPartial SIZE => len ≤ SIZE ∧ (Profile.debug_assertions = true → len < SIZE)
  | VectorPartial => True
  | OverflowPartial _ => True

variable {self : PartialType} {pfx other : Bytes}

/-- Prefixes that have room together are joined. -/
theorem join_of_room (h : self.Room (pfx.length + other.length)) :
    self.partial_extended_with pfx other = .ok (pfx ++ other) := by
  cases self with
  | ArrPartial SIZE =>
    obtain ⟨hle, hlt⟩ := h
    have hassert : debug_assert (pfx.length + other.length < SIZE)
        "assertion failed: self.len + other.len < SIZE" = .ok () :=
      if_neg fun hfails => hfails.2 (hlt hfails.1)
    rw [partial_extended_with, hassert, ok_bind, if_pos hle]
    rfl
  | VectorPartial => rfl
  | OverflowPartial N => rfl

/-- Prefixes that have none panic, at the assertion or at the slice. -/
theorem join_of_full (h : ¬ self.Room (pfx.length + other.length)) :
    ∃ panic, self.partial_extended_with pfx other = .error panic := by
  cases self with
  | ArrPartial SIZE =>
    rw [partial_extended_with, debug_assert]
    split
    · exact ⟨_, rfl⟩
    · rename_i hpasses
      have hwide : ¬ pfx.length + other.length ≤ SIZE := fun hle => h ⟨hle, fun hdebug => by
        by_contra hfull
        exact hpasses ⟨hdebug, hfull⟩⟩
      rw [ok_bind, if_neg hwide]
      exact ⟨_, rfl⟩
  | VectorPartial => exact absurd trivial h
  | OverflowPartial N => exact absurd trivial h

end PartialType

section Refines

variable {SIZE N : Nat}

/-- What the array of a join holds, or where the join stops. -/
theorem ArrPartial.partial_extended_with_eq [Profile] {p q : ArrPartial SIZE} (hp : Partial.Wf p) (hq : Partial.Wf q) :
    (do (← p.partial_extended_with q).to_slice) =
      (PartialType.ArrPartial SIZE).partial_extended_with (Partial.bytes p) (Partial.bytes q) := by
  have hleft : slice_to p.data.bytes p.len = .ok (Partial.bytes p) := Partial.to_slice_eq hp
  have hright : slice_to q.data.bytes q.len = .ok (Partial.bytes q) := Partial.to_slice_eq hq
  have hplen : p.len = (Partial.bytes p).length := Partial.len_eq hp
  have hqlen : q.len = (Partial.bytes q).length := Partial.len_eq hq
  obtain ⟨arr, hcopy, harr⟩ := U8Array.copy_to_zero p.length_bytes_le
  unfold ArrPartial.partial_extended_with PartialType.partial_extended_with
  dsimp only
  rw [hleft, hright, hplen, hqlen]
  cases hassert : debug_assert ((Partial.bytes p).length + (Partial.bytes q).length < SIZE)
      "assertion failed: self.len + other.len < SIZE" with
  | error panic => rfl
  | ok _ =>
    rw [ok_bind, ok_bind, ok_bind, hcopy, ok_bind, ok_bind]
    by_cases hroom : (Partial.bytes p).length + (Partial.bytes q).length ≤ SIZE
    · have hsplit : arr.bytes = Partial.bytes p ++ (List.replicate (Partial.bytes q).length 0 ++
          List.replicate (SIZE - ((Partial.bytes p).length + (Partial.bytes q).length)) 0) := by
        rw [harr, List.replicate_append_replicate]
        congr 2
        omega
      obtain ⟨joined, hjoin, hjoined⟩ := U8Array.copy_behind hsplit List.length_replicate
      rw [hjoin, ok_bind, if_pos hroom]
      change slice_to joined.bytes ((Partial.bytes p).length + (Partial.bytes q).length) = _
      rw [slice_to_eq_ok (by rwa [joined.length_eq]), hjoined, ← List.length_append, List.take_left]
      rfl
    · rw [U8Array.copy_from_slice, dif_neg hroom, if_neg hroom]
      rfl

theorem VectorPartial.partial_extended_with_eq [Profile] (p q : VectorPartial) :
    (p.partial_extended_with q).to_slice =
      PartialType.VectorPartial.partial_extended_with (Partial.bytes p) (Partial.bytes q) :=
  VectorPartial.to_slice_eq_data _

theorem OverflowPartial.partial_extended_with_eq [Profile] {p q : OverflowPartial N} (hp : Partial.Wf p)
    (hq : Partial.Wf q) :
    (do (← p.partial_extended_with q).data) =
      (PartialType.OverflowPartial N).partial_extended_with (Partial.bytes p) (Partial.bytes q) := by
  have hleft : p.data = .ok (Partial.bytes p) := Partial.to_slice_eq hp
  have hright : q.data = .ok (Partial.bytes q) := Partial.to_slice_eq hq
  obtain ⟨joined, hjoined, hwf, hbytes⟩ := from_slice_spec (N := N) (Partial.bytes p ++ Partial.bytes q)
  rw [OverflowPartial.partial_extended_with, hleft, ok_bind, hright, ok_bind, hjoined, ok_bind]
  exact (Partial.to_slice_eq hwf).trans (congrArg Except.ok hbytes)

end Refines

end rart.partials
