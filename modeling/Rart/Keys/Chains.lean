import Rart.Keys.Types

open LexOrder
open rart.partials
open rart.debug (slice slice_eq_ok)

namespace rart.keys

/-- A chain of the operations that build keys. -/
inductive Chain (P : Type) where
  | new_from_slice (data : Bytes)
  | new_from_partial (part : P)
  | extend_from_partial (key : Chain P) (part : P)
  | truncate (key : Chain P) (at_depth : Nat)

section Chains

variable {P : Type} (K : Type) [KeyTrait K P]

/-- The key that a chain of calls makes. -/
def Chain.build : Chain P → Result K
  | new_from_slice data => KeyTrait.new_from_slice data
  | new_from_partial part => KeyTrait.new_from_partial part
  | extend_from_partial key part => do KeyTrait.extend_from_partial (← key.build) part
  | truncate key at_depth => do KeyTrait.truncate (← key.build) at_depth

variable [Partial P]

/-- The byte string that a chain spells. -/
def Chain.spelled : Chain P → Bytes
  | new_from_slice data => data
  | new_from_partial part => Partial.bytes part
  | extend_from_partial key part => key.spelled ++ Partial.bytes part
  | truncate key at_depth => key.spelled.take at_depth

/-- The bytes that truncations cut off and that no later operation of the chain copied over. -/
def Chain.stale : Chain P → Bytes
  | new_from_slice _ => []
  | new_from_partial _ => []
  | extend_from_partial _ _ => []
  | truncate key at_depth => key.spelled.drop at_depth ++ key.stale

def Room (length : Nat) : Prop := ∀ cap, KeyTrait.MAXIMUM_SIZE K = some cap → length ≤ cap

/-- A chain of calls within the capacity of the key type, that truncates no key beyond its
length. -/
def Chain.Fits : Chain P → Prop
  | new_from_slice data => Room K data.length
  | new_from_partial part => Partial.Wf part
  | extend_from_partial key part =>
    key.Fits ∧ Partial.Wf part ∧ Room K (key.spelled.length + (Partial.bytes part).length)
  | truncate key at_depth => key.Fits ∧ at_depth ≤ key.spelled.length

/-- How a key type stores a byte string, with the stale bytes behind it. -/
structure Stores (Holds : K → Bytes → Bytes → Prop) : Prop where
  new_from_slice {data : Bytes} : Room K data.length →
    ∃ key : K, KeyTrait.new_from_slice data = .ok key ∧ Holds key data []
  new_from_partial {part : P} : Partial.Wf part →
    ∃ key : K, KeyTrait.new_from_partial part = .ok key ∧ Holds key (Partial.bytes part) []
  extend_from_partial {key : K} {part : P} {held rest : Bytes} : Holds key held rest → Partial.Wf part →
    Room K (held.length + (Partial.bytes part).length) →
    ∃ key', KeyTrait.extend_from_partial key part = .ok key' ∧ Holds key' (held ++ Partial.bytes part) []
  truncate {key : K} {held rest : Bytes} {at_depth : Nat} : Holds key held rest → at_depth ≤ held.length →
    ∃ key', KeyTrait.truncate key at_depth = .ok key' ∧ Holds key' (held.take at_depth) (held.drop at_depth ++ rest)

/-- Every chain within capacity builds a key, which holds what the chain spells. -/
theorem Stores.build {K : Type} [KeyTrait K P] {Holds : K → Bytes → Bytes → Prop} (h : Stores K Holds)
    {chain : Chain P} (hfits : chain.Fits K) :
    ∃ key, chain.build K = .ok key ∧ Holds key chain.spelled chain.stale := by
  induction chain with
  | new_from_slice data => exact h.new_from_slice hfits
  | new_from_partial part => exact h.new_from_partial hfits
  | extend_from_partial chain part ih =>
    obtain ⟨hchain, hpart, hroom⟩ := hfits
    obtain ⟨key, hkey, hheld⟩ := ih hchain
    obtain ⟨key', hkey', hheld'⟩ := h.extend_from_partial hheld hpart hroom
    exact ⟨key', by rw [Chain.build, hkey, ok_bind, hkey'], hheld'⟩
  | truncate chain at_depth ih =>
    obtain ⟨hchain, hdepth⟩ := hfits
    obtain ⟨key, hkey, hheld⟩ := ih hchain
    obtain ⟨key', hkey', hheld'⟩ := h.truncate hheld hdepth
    exact ⟨key', by rw [Chain.build, hkey, ok_bind, hkey'], hheld'⟩

omit [Partial P] in
/-- Two keys that behave as the byte strings `s` and `t`: equality and order are those of the
strings, and nothing tells keys of one string apart. -/
structure Behaves {K : Type} [KeyTrait K P] (x y : K) (s t : Bytes) : Prop where
  as_ref_left : KeyTrait.as_ref x = .ok s
  as_ref_right : KeyTrait.as_ref y = .ok t
  cmp : KeyTrait.cmp x y = .ok (lexCompare s t)
  eq : KeyTrait.eq x y = .ok (decide (KeyTrait.cmp x y = .ok .eq))
  cmp_eq_iff : KeyTrait.cmp x y = .ok .eq ↔ KeyTrait.as_ref x = KeyTrait.as_ref y
  byte_at : s = t → ∀ pos, KeyTrait.byte_at x pos = KeyTrait.byte_at y pos
  length_at : s = t → ∀ at_depth, KeyTrait.length_at x at_depth = KeyTrait.length_at y at_depth
  matches_slice : s = t → ∀ slice, KeyTrait.matches_slice x slice = KeyTrait.matches_slice y slice
  to_partial : s = t → ∀ at_depth, KeyTrait.to_partial x at_depth = KeyTrait.to_partial y at_depth

omit [Partial P] in
/-- Keys behave as their byte strings where equal strings are stored alike. -/
theorem behaves_of {K : Type} [KeyTrait K P] {x y : K} {s t : Bytes} (hx : KeyTrait.as_ref x = .ok s)
    (hy : KeyTrait.as_ref y = .ok t) (hcmp : KeyTrait.cmp x y = .ok (lexCompare s t))
    (heq : KeyTrait.eq x y = .ok (decide (s = t))) (hstored : s = t → x = y) : Behaves x y s t := by
  have hiff : KeyTrait.cmp x y = .ok .eq ↔ s = t := by
    rw [hcmp, Except.ok.injEq]
    exact lexCompare_eq_eq_iff
  constructor
  · exact hx
  · exact hy
  · exact hcmp
  · rw [heq]
    simp only [hiff]
  · rw [hiff, hx, hy, Except.ok.injEq]
  · exact fun h _ => by rw [hstored h]
  · exact fun h _ => by rw [hstored h]
  · exact fun h _ => by rw [hstored h]
  · exact fun h _ => by rw [hstored h]

end Chains

section Stale

/-- Stale bytes that read alike, those past their end as zeros. -/
def SameStale (r q : Bytes) : Prop := ∀ i, r.getD i 0 = q.getD i 0

/-- Past the bytes there are zeros. -/
theorem getD_append_zeros (r : Bytes) (n i : Nat) : (r ++ List.replicate n 0).getD i 0 = r.getD i 0 := by
  rcases Nat.lt_or_ge i r.length with hlt | hge
  · rw [List.getD_append _ _ _ _ hlt]
  · rw [List.getD_append_right _ _ _ _ hge, List.getD_eq_getElem?_getD, List.getElem?_getD_replicate_default_eq,
      List.getD_eq_default _ _ hge]

/-- The rest of an array, as far as it is not stale, is zero. -/
theorem append_zeros_eq_iff {r q : Bytes} {n m : Nat} (hlen : r.length + n = q.length + m) :
    r ++ List.replicate n 0 = q ++ List.replicate m 0 ↔ SameStale r q := by
  constructor
  · intro h i
    rw [← getD_append_zeros r n, h, getD_append_zeros]
  · intro h
    refine List.ext_getElem (by simpa using hlen) fun i hr hq => ?_
    rw [← List.getD_eq_getElem _ 0 hr, ← List.getD_eq_getElem _ 0 hq, getD_append_zeros, getD_append_zeros]
    exact h i

end Stale

namespace ArrayKey

variable {N : Nat}

/-- The array holds the bytes of the key, the stale ones, and zeros. -/
def Holds (key : ArrayKey N) (held rest : Bytes) : Prop :=
  key.len = held.length ∧ ∃ zeros, key.data.bytes = held ++ (rest ++ List.replicate zeros 0)

section

variable {key : ArrayKey N} {held rest : Bytes}

/-- The slice of a key is the bytes that it holds. -/
theorem Holds.as_slice (h : key.Holds held rest) : slice_to key.data.bytes key.len = .ok held := by
  obtain ⟨hlen, zeros, hbytes⟩ := h
  have hle : key.len ≤ key.data.bytes.length := by
    rw [hlen, hbytes, List.length_append]
    exact Nat.le_add_right _ _
  rw [slice_to_eq_ok hle, hlen, hbytes, List.take_left]

theorem Holds.spells [Profile] (h : key.Holds held rest) : Spells key held where
  as_ref := h.as_slice
  length_at at_depth := by
    change usize_sub key.len at_depth = _
    rw [h.1]

/-- Bytes before zeros are held. -/
theorem holds_of_zeros {arr : U8Array N} {zeros : Nat} (harr : arr.bytes = held ++ List.replicate zeros 0) :
    Holds ⟨arr, held.length⟩ held [] := ⟨rfl, zeros, harr⟩

end

theorem stores [Profile] : Stores (ArrayKey N) Holds where
  new_from_slice {data} hroom := by
    have hle : data.length ≤ N := hroom N rfl
    obtain ⟨arr, hcopy, harr⟩ := U8Array.copy_to_zero hle
    refine ⟨⟨arr, data.length⟩, ?_, holds_of_zeros harr⟩
    change new_from_slice data = _
    rw [new_from_slice, debug_assert_of hle, ok_bind, hcopy]
    rfl
  new_from_partial {part} hpart := by
    obtain ⟨arr, hcopy, harr⟩ := U8Array.copy_to_zero part.length_bytes_le
    have hslice : part.to_slice = .ok (Partial.bytes part) := Partial.to_slice_eq hpart
    have hlen : part.len = (Partial.bytes part).length := Partial.len_eq hpart
    refine ⟨⟨arr, (Partial.bytes part).length⟩, ?_, holds_of_zeros harr⟩
    change new_from_partial part = _
    unfold new_from_partial
    rw [hslice, hlen]
    simp only [ok_bind, slice_to_eq_ok (Nat.le_refl _), List.take_length, hcopy, pure_eq_ok]
  extend_from_partial {key part held rest} hkey hpart hroom := by
    have hle : held.length + (Partial.bytes part).length ≤ N := hroom N rfl
    have hslice : part.to_slice = .ok (Partial.bytes part) := Partial.to_slice_eq hpart
    have hlen : part.len = (Partial.bytes part).length := Partial.len_eq hpart
    obtain ⟨arr, hcopy, harr⟩ : ∃ arr : U8Array N, U8Array.zero.copy_from_slice 0 held = .ok arr ∧
        arr.bytes = held ++ List.replicate (N - held.length) 0 := U8Array.copy_to_zero (by omega)
    have hsplit : arr.bytes = held ++ (List.replicate (Partial.bytes part).length 0 ++
        List.replicate (N - held.length - (Partial.bytes part).length) 0) := by
      rw [harr, List.replicate_append_replicate, Nat.add_sub_cancel' (by omega)]
    obtain ⟨arr', hcopy', harr'⟩ := U8Array.copy_behind hsplit List.length_replicate
    refine ⟨⟨arr', (held ++ Partial.bytes part).length⟩, ?_, holds_of_zeros harr'⟩
    change key.extend_from_partial part = _
    unfold extend_from_partial
    dsimp only
    rw [hkey.as_slice, hslice, hlen, hkey.1, debug_assert_of hle]
    simp only [ok_bind, hcopy, slice_to_eq_ok (Nat.le_refl _), List.take_length, hcopy', pure_eq_ok,
      List.length_append]
  truncate {key held rest at_depth} hkey hdepth := by
    obtain ⟨hlen, zeros, hbytes⟩ := hkey
    refine ⟨⟨key.data, at_depth⟩, ?_, (List.length_take_of_le hdepth).symm, zeros, ?_⟩
    · change key.truncate at_depth = _
      rw [truncate, debug_assert_of (by rw [hlen]; exact hdepth)]
      rfl
    · rw [hbytes, List.append_assoc, ← List.append_assoc (held.take at_depth), List.take_append_drop]

/-- Keys in arrays behave as their byte strings unless the strings are equal and the stale
bytes behind them differ. -/
theorem behaves_iff [Profile] {x y : ArrayKey N} {s t r q : Bytes} (hx : x.Holds s r) (hy : y.Holds t q) :
    Behaves x y s t ↔ (s = t → SameStale r q) := by
  have hxs := hx.spells.as_ref
  have hyt := hy.spells.as_ref
  have hcmp : KeyTrait.cmp x y = .ok (lexCompare s t) := by
    change ArrayKey.cmp x y = _
    rw [cmp, as_slice, as_slice, hx.as_slice, hy.as_slice]
    rfl
  obtain ⟨hxlen, n, hxbytes⟩ := hx
  obtain ⟨hylen, m, hybytes⟩ := hy
  have hstored : s = t → (x = y ↔ SameStale r q) := by
    rintro rfl
    have hlen : r.length + n = q.length + m := by
      have hx := x.data.length_eq
      have hy := y.data.length_eq
      rw [hxbytes] at hx
      rw [hybytes] at hy
      simp only [List.length_append, List.length_replicate] at hx hy
      omega
    rw [← append_zeros_eq_iff hlen]
    constructor
    · rintro rfl
      exact List.append_cancel_left (hxbytes.symm.trans hybytes)
    · intro h
      have hdata : x.data = y.data := U8Array.eq_of_bytes (by rw [hxbytes, hybytes, h])
      cases x
      cases y
      cases hdata
      cases hxlen.trans hylen.symm
      rfl
  constructor
  · intro h hst
    have heq := h.eq
    rw [hcmp, hst] at heq
    have hdec : decide (x = y) = true := by
      rw [Except.ok.inj heq, lexCompare_eq_eq_iff.2 rfl]
      rfl
    exact (hstored hst).1 (of_decide_eq_true hdec)
  · intro h
    refine behaves_of hxs hyt hcmp ?_ fun hst => (hstored hst).2 (h hst)
    change Except.ok (decide (x = y)) = _
    have hiff : x = y ↔ s = t := by
      refine ⟨?_, fun hst => (hstored hst).2 (h hst)⟩
      rintro rfl
      exact Except.ok.inj (hxs.symm.trans hyt)
    simp only [hiff]

end ArrayKey

namespace VectorKey

/-- Every chain builds the key of the bytes that it spells, also one that truncates beyond
the end. -/
theorem build_eq (chain : Chain VectorPartial) : chain.build VectorKey = .ok ⟨chain.spelled⟩ := by
  induction chain with
  | new_from_slice data => rfl
  | new_from_partial part =>
    change new_from_partial part = _
    unfold new_from_partial
    rw [part.to_slice_eq_data]
    rfl
  | extend_from_partial chain part ih =>
    rw [Chain.build, ih]
    change extend_from_partial _ part = _
    unfold extend_from_partial
    dsimp only
    rw [part.to_slice_eq_data]
    rfl
  | truncate chain at_depth ih =>
    rw [Chain.build, ih]
    rfl

/-- A box spells its bytes. -/
theorem spells (s : Bytes) : Spells (⟨s⟩ : VectorKey) s := ⟨rfl, fun _ => rfl⟩

/-- Boxes behave as their bytes. -/
theorem behaves (s t : Bytes) : Behaves (⟨s⟩ : VectorKey) (⟨t⟩ : VectorKey) s t := by
  refine behaves_of (spells s).as_ref (spells t).as_ref rfl ?_ fun h => by rw [h]
  change Except.ok (decide (VectorKey.mk s = VectorKey.mk t)) = _
  simp only [VectorKey.mk.injEq]

end VectorKey

namespace OverflowKey

variable {N P : Nat}

/-- The key that `new_from_slice` builds, whatever other operation built it. -/
def Holds (key : OverflowKey N P) (held _rest : Bytes) : Prop := new_from_slice held = .ok key

section

variable {key : OverflowKey N P} {held rest : Bytes}

/-- A key made of a slice holds the slice. -/
theorem new_from_slice_spec (held : Bytes) : ∃ key : OverflowKey N P, new_from_slice held = .ok key ∧
    key.len = held.length ∧ key.data = .ok held := by
  unfold new_from_slice
  by_cases h : held.length ≤ N
  · obtain ⟨arr, hcopy, harr⟩ := U8Array.copy_to_zero h
    refine ⟨⟨arr, held.length, none⟩, by rw [if_pos h, hcopy]; rfl, rfl, ?_⟩
    rw [data, if_pos h]
    have hle : held.length ≤ arr.bytes.length := by rwa [arr.length_eq]
    rw [slice_to_eq_ok hle, harr, List.take_left]
  · exact ⟨⟨.zero, held.length, some held⟩, if_neg h, rfl, if_neg h⟩

/-- The data of a key is the bytes that it holds. -/
theorem Holds.data (h : key.Holds held rest) : key.len = held.length ∧ key.data = .ok held := by
  obtain ⟨key', hkey', hlen, hdata⟩ := new_from_slice_spec (N := N) (P := P) held
  cases hkey'.symm.trans h
  exact ⟨hlen, hdata⟩

/-- There is a box when the array is too small. -/
theorem Holds.overflow_eq (h : key.Holds held rest) : key.overflow = if held.length ≤ N then none else some held := by
  unfold Holds new_from_slice at h
  split at h
  · rename_i hle
    obtain ⟨arr, _, hkey⟩ := bind_eq_ok_iff.1 h
    cases hkey
    rw [if_pos hle]
  · rename_i hgt
    cases h
    rw [if_neg hgt]

theorem Holds.spells [Profile] (h : key.Holds held rest) : Spells key held where
  as_ref := h.data.2
  length_at at_depth := by
    change usize_sub key.len at_depth = _
    rw [h.data.1]

end

theorem stores [Profile] : Stores (OverflowKey N P) Holds where
  new_from_slice {data} _ := by
    obtain ⟨key, hkey, _⟩ := new_from_slice_spec data
    exact ⟨key, hkey, hkey⟩
  new_from_partial {part} hpart := by
    obtain ⟨key, hkey, _⟩ := new_from_slice_spec (Partial.bytes part)
    refine ⟨key, ?_, hkey⟩
    change new_from_partial part = _
    unfold new_from_partial
    rw [show part.data = _ from Partial.to_slice_eq hpart, ok_bind, hkey]
  extend_from_partial {key part held rest} hheld hpart _ := by
    obtain ⟨key', hkey', _⟩ := new_from_slice_spec (held ++ Partial.bytes part)
    refine ⟨key', ?_, hkey'⟩
    change key.extend_from_partial part = _
    unfold extend_from_partial
    rw [hheld.data.2, show part.data = _ from Partial.to_slice_eq hpart, ok_bind, ok_bind,
      hkey']
  truncate {key held rest at_depth} hheld hdepth := by
    obtain ⟨key', hkey', _⟩ := new_from_slice_spec (held.take at_depth)
    obtain ⟨hlen, hdata⟩ := hheld.data
    refine ⟨key', ?_, hkey'⟩
    change key.truncate at_depth = _
    rw [truncate, hlen, debug_assert_of hdepth, ok_bind, hdata, ok_bind, slice_to_eq_ok hdepth, ok_bind, hkey']

/-- Keys that hold bytes behave as these bytes. -/
theorem behaves [Profile] {x y : OverflowKey N P} {s t r q : Bytes} (hx : x.Holds s r) (hy : y.Holds t q) :
    Behaves x y s t := by
  refine behaves_of hx.spells.as_ref hy.spells.as_ref ?_ ?_ ?_
  · change OverflowKey.cmp x y = _
    rw [cmp, hx.data.2, hy.data.2]
    rfl
  · change OverflowKey.eq x y = _
    rw [eq, hx.data.2, hy.data.2]
    rfl
  · rintro rfl
    exact Except.ok.inj (hx.symm.trans hy)

end OverflowKey

/-- Keys behave as the byte strings that they hold, whatever chains of operations built
them, for the two types that keep nothing else. Two keys in arrays do so if and only if they
hold different strings, or truncations left the same bytes behind both. -/
theorem behaves_as_bytes [Profile] :
    (∀ (N : Nat) (c d : Chain (ArrPartial N)), c.Fits (ArrayKey N) → d.Fits (ArrayKey N) →
      ∃ x y : ArrayKey N, c.build (ArrayKey N) = .ok x ∧ d.build (ArrayKey N) = .ok y ∧
        (Behaves x y c.spelled d.spelled ↔ (c.spelled = d.spelled → SameStale c.stale d.stale))) ∧
    (∀ c d : Chain VectorPartial, ∃ x y : VectorKey, c.build VectorKey = .ok x ∧ d.build VectorKey = .ok y ∧
      Behaves x y c.spelled d.spelled) ∧
    (∀ (N P : Nat) (c d : Chain (OverflowPartial P)), c.Fits (OverflowKey N P) → d.Fits (OverflowKey N P) →
      ∃ x y : OverflowKey N P, c.build (OverflowKey N P) = .ok x ∧ d.build (OverflowKey N P) = .ok y ∧
        Behaves x y c.spelled d.spelled) := by
  refine ⟨fun N c d hc hd => ?_, fun c d => ?_, fun N P c d hc hd => ?_⟩
  · obtain ⟨x, hx, hxheld⟩ := ArrayKey.stores.build hc
    obtain ⟨y, hy, hyheld⟩ := ArrayKey.stores.build hd
    exact ⟨x, y, hx, hy, ArrayKey.behaves_iff hxheld hyheld⟩
  · exact ⟨⟨c.spelled⟩, ⟨d.spelled⟩, VectorKey.build_eq c, VectorKey.build_eq d, VectorKey.behaves _ _⟩
  · obtain ⟨x, hx, hxheld⟩ := OverflowKey.stores.build hc
    obtain ⟨y, hy, hyheld⟩ := OverflowKey.stores.build hd
    exact ⟨x, y, hx, hy, OverflowKey.behaves hxheld hyheld⟩

/-- A truncated key differs from a key of the same bytes, though the two compare as equal. -/
theorem array_keys_keep_truncated_bytes :
    letI : Profile := ⟨true⟩
    ∃ x y : ArrayKey 2, ((Chain.new_from_slice [1, 2]).truncate 1 : Chain (ArrPartial 2)).build (ArrayKey 2) = .ok x ∧
      (Chain.new_from_slice [1] : Chain (ArrPartial 2)).build (ArrayKey 2) = .ok y ∧
      KeyTrait.as_ref x = KeyTrait.as_ref y ∧ KeyTrait.cmp x y = .ok .eq ∧ KeyTrait.eq x y = .ok false ∧
      KeyTrait.byte_at x 1 ≠ KeyTrait.byte_at y 1 := by
  refine ⟨⟨⟨[1, 2], rfl⟩, 1⟩, ⟨⟨[1, 0], rfl⟩, 1⟩, rfl, rfl, rfl, rfl, rfl, ?_⟩
  decide

end rart.keys
