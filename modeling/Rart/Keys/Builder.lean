import Rart.Keys.Chains

open LexOrder
open rart.partials

namespace rart.keys

/-- `OverflowKeyBuilder<N, P>`, which appends bytes to the array of a key until they no longer
fit. -/
structure OverflowKeyBuilder (N P : Nat) where
  inline : U8Array N
  len : Nat
  overflow : Option Bytes

namespace OverflowKeyBuilder

variable {N P : Nat}

/-- No bytes yet. -/
def new : OverflowKeyBuilder N P := ⟨.zero, 0, none⟩

/-- One byte more, in the array while there is room. -/
def push (self : OverflowKeyBuilder N P) (byte : UInt8) : Result (OverflowKeyBuilder N P) :=
  match self.overflow with
  | some overflow => return { self with overflow := some (overflow ++ [byte]), len := self.len + 1 }
  | none =>
    if self.len < N then do
      let inline ← self.inline.write self.len byte
      return { self with inline, len := self.len + 1 }
    else do
      let overflow ← slice_to self.inline.bytes self.len
      return { self with len := self.len + 1, overflow := some (overflow ++ [byte]) }

/-- More bytes, in the array while there is room for all of them. -/
def extend_from_slice (self : OverflowKeyBuilder N P) (bytes : Bytes) : Result (OverflowKeyBuilder N P) :=
  if bytes.isEmpty then return self
  else match self.overflow with
  | some overflow => return { self with overflow := some (overflow ++ bytes), len := self.len + bytes.length }
  | none =>
    let new_len := self.len + bytes.length
    if new_len ≤ N then do
      let inline ← self.inline.copy_from_slice self.len bytes
      return { self with inline, len := new_len }
    else do
      let overflow ← slice_to self.inline.bytes self.len
      return { self with len := new_len, overflow := some (overflow ++ bytes) }

/-- Whether there are no bytes yet. -/
def is_empty (self : OverflowKeyBuilder N P) : Bool := self.len = 0

/-- The key of the bytes so far. -/
def finish (self : OverflowKeyBuilder N P) : OverflowKey N P :=
  match self.overflow with
  | some overflow => ⟨.zero, overflow.length, some overflow⟩
  | none => ⟨self.inline, self.len, none⟩

/-- A call that appends to a builder. -/
inductive Call where
  | push (byte : UInt8)
  | extend_from_slice (bytes : Bytes)

/-- The bytes that a call appends. -/
def Call.bytes : Call → Bytes
  | push byte => [byte]
  | extend_from_slice bytes => bytes

/-- The call on a builder. -/
def Call.perform (self : OverflowKeyBuilder N P) : Call → Result (OverflowKeyBuilder N P)
  | push byte => self.push byte
  | extend_from_slice bytes => self.extend_from_slice bytes

/-- The calls one after the other. -/
def run (self : OverflowKeyBuilder N P) (calls : List Call) : Result (OverflowKeyBuilder N P) :=
  calls.foldlM Call.perform self

/-- The bytes of a builder: in the array, with zeros behind them, until they take more room
than it has. -/
structure Holds (builder : OverflowKeyBuilder N P) (bytes : Bytes) : Prop where
  len : builder.len = bytes.length
  inline : builder.overflow = none → builder.inline.bytes = bytes ++ List.replicate (N - bytes.length) 0
  overflow : ∀ data, builder.overflow = some data → data = bytes
  overflow_iff : builder.overflow = none ↔ bytes.length ≤ N

variable {self : OverflowKeyBuilder N P} {held : Bytes}

/-- A new builder holds no bytes. -/
theorem holds_new : (new : OverflowKeyBuilder N P).Holds [] where
  len := rfl
  inline _ := rfl
  overflow _ h := nomatch h
  overflow_iff := iff_of_true rfl (Nat.zero_le _)

/-- One byte is appended as a slice of one byte is. -/
theorem push_eq (self : OverflowKeyBuilder N P) (byte : UInt8) : self.push byte = self.extend_from_slice [byte] := by
  unfold push extend_from_slice
  rw [if_neg (show ¬ [byte].isEmpty = true from Bool.false_ne_true)]
  cases self.overflow with
  | some overflow => rfl
  | none =>
    by_cases hlt : self.len < N
    · simp only [if_pos hlt, List.length_singleton, if_pos (Nat.succ_le_of_lt hlt),
        U8Array.write_eq_copy self.inline hlt]
    · simp only [if_neg hlt, List.length_singleton, if_neg (mt Nat.lt_of_succ_le hlt)]

/-- The bytes move to the box once the array is too small. -/
theorem Holds.extend_from_slice (h : self.Holds held) (bytes : Bytes) :
    ∃ next, self.extend_from_slice bytes = .ok next ∧ next.Holds (held ++ bytes) := by
  unfold OverflowKeyBuilder.extend_from_slice
  cases hempty : bytes.isEmpty with
  | true =>
    rw [List.isEmpty_iff.1 hempty, List.append_nil]
    exact ⟨self, rfl, h⟩
  | false =>
    rw [if_neg Bool.false_ne_true]
    have hlen : self.len + bytes.length = (held ++ bytes).length := by rw [h.len, List.length_append]
    cases hover : self.overflow with
    | some data =>
      have hdata := h.overflow data hover
      have hlong : ¬ held.length ≤ N := by
        rw [← h.overflow_iff, hover]
        exact nofun
      refine ⟨_, rfl, hlen, nofun, ?_, iff_of_false nofun fun hle => hlong ?_⟩
      · rintro _ ⟨⟩
        rw [hdata]
      · rw [List.length_append] at hle
        omega
    | none =>
      have hfit := h.overflow_iff.1 hover
      have hinline := h.inline hover
      by_cases hroom : self.len + bytes.length ≤ N
      · -- the bytes take the place of zeros
        have hsplit : self.inline.bytes = held ++ (List.replicate bytes.length 0 ++
            List.replicate (N - (held ++ bytes).length) 0) := by
          rw [hinline, List.replicate_append_replicate, ← hlen, h.len]
          congr 2
          rw [h.len] at hroom
          omega
        obtain ⟨arr, hcopy, harr⟩ := U8Array.copy_behind hsplit List.length_replicate
        rw [← h.len] at hcopy
        simp only [if_pos hroom, hcopy, ok_bind]
        refine ⟨_, rfl, hlen, fun _ => harr, nofun, iff_of_true rfl ?_⟩
        rwa [← hlen]
      · -- the bytes of the array move out
        have hslice : slice_to self.inline.bytes self.len = .ok held := by
          rw [slice_to_eq_ok (by rw [self.inline.length_eq, h.len]; exact hfit), hinline, h.len, List.take_left]
        simp only [if_neg hroom, hslice, ok_bind]
        refine ⟨_, rfl, hlen, nofun, ?_, iff_of_false nofun ?_⟩
        · rintro _ ⟨⟩
          rfl
        · rwa [← hlen]

/-- A call appends its bytes. -/
theorem Holds.perform (h : self.Holds held) (call : Call) :
    ∃ next, call.perform self = .ok next ∧ next.Holds (held ++ call.bytes) := by
  cases call with
  | push byte =>
    change ∃ next, self.push byte = .ok next ∧ _
    rw [push_eq]
    exact h.extend_from_slice [byte]
  | extend_from_slice bytes => exact h.extend_from_slice bytes

/-- By induction on the calls. -/
theorem Holds.run (h : self.Holds held) (calls : List Call) :
    ∃ last, self.run calls = .ok last ∧ last.Holds (held ++ calls.flatMap Call.bytes) := by
  induction calls generalizing self held with
  | nil =>
    rw [List.flatMap_nil, List.append_nil]
    exact ⟨self, rfl, h⟩
  | cons call calls ih =>
    obtain ⟨next, hnext, hheld⟩ := h.perform call
    obtain ⟨last, hlast, hall⟩ := ih hheld
    refine ⟨last, ?_, ?_⟩
    · rw [OverflowKeyBuilder.run, List.foldlM_cons, hnext]
      exact hlast
    · rw [List.flatMap_cons, ← List.append_assoc]
      exact hall

/-- The finished key is the one that `new_from_slice` makes of the bytes, down to its
storage. -/
theorem Holds.finish_eq (h : self.Holds held) : OverflowKey.new_from_slice held = .ok self.finish := by
  unfold OverflowKey.new_from_slice finish
  cases hover : self.overflow with
  | some data =>
    have hlong : ¬ held.length ≤ N := by
      rw [← h.overflow_iff, hover]
      exact nofun
    rw [if_neg hlong, h.overflow data hover]
    rfl
  | none =>
    have hfit := h.overflow_iff.1 hover
    obtain ⟨arr, hcopy, harr⟩ := U8Array.copy_to_zero hfit
    have hinline : arr = self.inline := U8Array.eq_of_bytes (harr.trans (h.inline hover).symm)
    rw [if_pos hfit, hcopy, hinline, ← h.len]
    rfl

end OverflowKeyBuilder

/-- What is asked of the key that a builder made of `bytes`. -/
structure BuiltFrom {N P : Nat} (key : OverflowKey N P) (bytes : Bytes) : Prop where
  as_ref : key.data = .ok bytes
  is_inline_iff : key.is_inline = true ↔ bytes.length ≤ N
  overflow_iff : key.overflow.isSome = true ↔ key.is_inline = false
  byte_at pos : key.byte_at pos ≠ .error (.expect missing_overflow)
  to_partial at_depth : key.to_partial at_depth ≠ .error (.expect missing_overflow)
  equal : ∃ other, OverflowKey.new_from_slice bytes = .ok other ∧ key.eq other = .ok true ∧ key.cmp other = .ok .eq

/-- A failed read is no failed expectation. -/
theorem index_ne_expect {α : Type} (xs : List α) (pos : Nat) (message : String) :
    index xs pos ≠ .error (.expect message) := by
  unfold index
  cases xs[pos]? <;> exact nofun

/-- A key made of a slice is built from it. -/
theorem builtFrom_of {N P : Nat} {key : OverflowKey N P} {bytes : Bytes}
    (h : OverflowKey.new_from_slice bytes = .ok key) : BuiltFrom key bytes := by
  have hheld : key.Holds bytes [] := h
  obtain ⟨hlen, hdata⟩ := hheld.data
  have hover := hheld.overflow_eq
  have hinline : key.is_inline = true ↔ bytes.length ≤ N := by
    rw [OverflowKey.is_inline, decide_eq_true_eq, hlen]
  constructor
  · exact hdata
  · exact hinline
  · rw [hover, ← Bool.not_eq_true, hinline]
    split
    · rename_i hle
      exact iff_of_false nofun fun hlong => hlong hle
    · rename_i hlong
      exact iff_of_true rfl hlong
  · intro pos
    unfold OverflowKey.byte_at OverflowKey.heap_data
    rw [hover, hlen]
    split
    · exact index_ne_expect _ _ _
    · exact index_ne_expect _ _ _
  · intro at_depth
    unfold OverflowKey.to_partial slice_from
    rw [hdata, ok_bind]
    split
    · obtain ⟨p, hp, _⟩ := OverflowPartial.from_slice_spec (N := P) (bytes.drop at_depth)
      rw [ok_bind, hp]
      exact nofun
    · exact nofun
  · refine ⟨key, h, ?_, ?_⟩
    · rw [OverflowKey.eq, hdata]
      exact congrArg _ (decide_eq_true rfl)
    · rw [OverflowKey.cmp, hdata]
      exact congrArg _ (lexCompare_eq_eq_iff.2 rfl)

open OverflowKeyBuilder in
/-- However bytes are handed to a builder, it counts them, and finishes the key of their
concatenation. -/
theorem builder_finishes (N P : Nat) (calls : List Call) :
    ∃ builder : OverflowKeyBuilder N P, run new calls = .ok builder ∧
      builder.len = (calls.flatMap Call.bytes).length ∧ BuiltFrom builder.finish (calls.flatMap Call.bytes) := by
  obtain ⟨builder, hrun, hheld⟩ := holds_new.run calls
  rw [List.nil_append] at hheld
  exact ⟨builder, hrun, hheld.len, builtFrom_of hheld.finish_eq⟩

end rart.keys
