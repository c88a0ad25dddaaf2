import Rart.Keys.Integers
import Rart.Versioned.Scans

open LexOrder SortedAssoc
open rart.iter rart.node rart.query rart.partials rart.utils rart.Trie

namespace rart.keys

variable {α K P : Type} [KeyTrait K P]

/-- A walk over the tree below `root` meets converted keys in their order. -/
def WalksInOrder (conv : α → Result K) (admits : α → Prop) (order : α → α → Ordering)
    {N V : Type} [Node N V] (root : Option N) : Prop :=
  ∃ it, Iter.new root = .ok it ∧ it.collect.Pairwise fun e f => ∀ (x y : α) (kx ky : K), admits x → admits y →
    conv x = .ok kx → conv y = .ok ky → KeyTrait.as_ref kx = .ok e.1 → KeyTrait.as_ref ky = .ok f.1 →
    order x y = .lt

/-- A conversion that embeds one order into another: the keys of what the key type admits
compare as what they were made of does, different ones have different keys, and the walks
over trees follow that order. -/
structure Embeds [DecidableEq α] (conv : α → Result K) (admits : α → Prop) (order : α → α → Ordering) : Prop where
  compares : ∀ x y, admits x → admits y → ∃ kx ky, conv x = .ok kx ∧ conv y = .ok ky ∧
    KeyTrait.cmp kx ky = .ok (order x y) ∧ KeyTrait.eq kx ky = .ok (decide (x = y))
  walks : ∀ {V : Type} [Features] {tree : rart.tree.AdaptiveRadixTree V}, rart.tree.Reachable tree →
    WalksInOrder conv admits order tree.root
  walks_versioned : ∀ {V : Type} [Features] {forest : versioned_tree.Forest V} {i : Nat}
    {tree : versioned_tree.VersionedAdaptiveRadixTree V}, forest.Reachable →
    versioned_tree.member forest.trees i = some tree → WalksInOrder conv admits order (tree.root_node forest.heap)

section Encoding

/-- The keys that a conversion makes behave as encoded bytes do. -/
def Encodes (conv : α → Result K) (admits : α → Prop) (enc : α → Bytes) : Prop :=
  ∀ x y, admits x → admits y → ∃ kx ky, conv x = .ok kx ∧ conv y = .ok ky ∧ Behaves kx ky (enc x) (enc y)

variable {conv : α → Result K} {admits : α → Prop} {enc : α → Bytes} {order : α → α → Ordering}

/-- An encoding that keeps the order is walked in the order of the type. -/
theorem Encodes.walksInOrder (h : Encodes conv admits enc) (horder : ∀ x y, lexCompare (enc x) (enc y) = order x y)
    {N V : Type} [Node N V] {root : Option N} {m : RefMap V} (hroot : Holds root m) :
    WalksInOrder conv admits order root := by
  obtain ⟨it, hit, hcollect⟩ := Iter.new_root_spec hroot.wf
  refine ⟨it, hit, ?_⟩
  rw [hcollect]
  refine hroot.lists.ascending.imp fun {e f} hlt x y kx ky hx hy hconvx hconvy hkx hky => ?_
  obtain ⟨kx', ky', hconvx', hconvy', hbehaves⟩ := h x y hx hy
  cases hconvx.symm.trans hconvx'
  cases hconvy.symm.trans hconvy'
  have hex : enc x = e.1 := Except.ok.inj (hbehaves.as_ref_left.symm.trans hkx)
  have hey : enc y = f.1 := Except.ok.inj (hbehaves.as_ref_right.symm.trans hky)
  rw [← horder, hex, hey]
  exact lexCompare_eq_lt_iff.2 hlt

/-- An encoding that keeps the order embeds the type. -/
theorem Encodes.embeds [DecidableEq α] (h : Encodes conv admits enc)
    (horder : ∀ x y, lexCompare (enc x) (enc y) = order x y) (hinj : ∀ x y, order x y = .eq → x = y) :
    Embeds conv admits order where
  compares x y hx hy := by
    obtain ⟨kx, ky, hkx, hky, hbehaves⟩ := h x y hx hy
    refine ⟨kx, ky, hkx, hky, by rw [hbehaves.cmp, horder], ?_⟩
    have heq : KeyTrait.cmp kx ky = .ok .eq ↔ x = y := by
      rw [hbehaves.cmp, Except.ok.injEq]
      constructor
      · intro hcmp
        rw [horder] at hcmp
        exact hinj x y hcmp
      · rintro rfl
        exact lexCompare_eq_eq_iff.2 rfl
    rw [hbehaves.eq]
    simp only [heq]
  walks hreach := by
    obtain ⟨m, hm⟩ := hreach.represents
    exact h.walksInOrder horder hm.holds
  walks_versioned hreach hmember := by
    obtain ⟨m, hm, _⟩ := hreach.holds hmember
    exact h.walksInOrder horder hm

end Encoding

section Encoders

variable {admits : α → Prop} {enc : α → Bytes} {N M : Nat}

/-- A conversion to keys that hold the encodings. -/
theorem ArrayKey.encodes [Profile] {conv : α → Result (ArrayKey N)}
    (h : ∀ x, admits x → ∃ key, conv x = .ok key ∧ key.Holds (enc x) []) : Encodes conv admits enc := by
  intro x y hx hy
  obtain ⟨kx, hkx, hxheld⟩ := h x hx
  obtain ⟨ky, hky, hyheld⟩ := h y hy
  exact ⟨kx, ky, hkx, hky, (behaves_iff hxheld hyheld).2 fun _ _ => rfl⟩

/-- A conversion to boxes of the encodings. -/
theorem VectorKey.encodes {conv : α → Result VectorKey} (h : ∀ x, admits x → conv x = .ok ⟨enc x⟩) :
    Encodes conv admits enc := fun x y hx hy => ⟨⟨enc x⟩, ⟨enc y⟩, h x hx, h y hy, behaves _ _⟩

/-- A conversion by way of slices. -/
theorem OverflowKey.encodes [Profile] {conv : α → Result (OverflowKey N M)}
    (h : ∀ x, admits x → conv x = new_from_slice (enc x)) : Encodes conv admits enc := by
  intro x y hx hy
  obtain ⟨kx, hkx, _⟩ := new_from_slice_spec (enc x)
  obtain ⟨ky, hky, _⟩ := new_from_slice_spec (enc y)
  exact ⟨kx, ky, (h x hx).trans hkx, (h y hy).trans hky, behaves (r := []) (q := []) hkx hky⟩

/-- The array of the key ends in a zero that was never written. -/
theorem ArrayKey.new_from_str_spec [Profile] {s : Bytes} (hlen : s.length + 1 ≤ N)
    (hassert : Profile.debug_assertions = true → s.length + 1 < N) :
    ∃ key : ArrayKey N, new_from_str s = .ok key ∧ key.Holds (s ++ [0]) [] := by
  obtain ⟨arr, hcopy, harr⟩ : ∃ arr : U8Array N, U8Array.zero.copy_from_slice 0 s = .ok arr ∧
      arr.bytes = s ++ List.replicate (N - s.length) 0 := U8Array.copy_to_zero (by omega)
  have hpass : debug_assert (s.length + 1 < N) "data length is greater than array length" = .ok () :=
    if_neg fun hfail => hfail.2 (hassert hfail.1)
  have hzeros : N - s.length = (N - s.length - 1) + 1 := by omega
  refine ⟨⟨arr, s.length + 1⟩, ?_, ?_, N - s.length - 1, ?_⟩
  · rw [new_from_str, hpass, ok_bind, hcopy]
    rfl
  · rw [List.length_append]
    rfl
  · rw [harr, hzeros, List.replicate_succ, List.append_assoc]
    rfl

end Encoders

section Orders

variable [Target]

/-- The bytes of the key of a signed integer. -/
def signed_bytes {size : Nat} (val : Word size) : Bytes := to_be_bytes (val ^^^ sign_bit size)

/-- The three conversions of a key type are order embeddings, for the integers of up to some
width and the strings that the key type admits. -/
structure OrderEmbeddings (from_unsigned : ∀ T : UnsignedType, Word T.size_of → Result K)
    (from_signed : ∀ T : SignedType, Word T.size_of → Result K) (new_from_str : Bytes → Result K)
    (width : Nat → Prop) (admits : Bytes → Prop) : Prop where
  unsigned : ∀ T, width T.size_of → Embeds (from_unsigned T) (fun _ => True) fun x y => compare x.toNat y.toNat
  signed : ∀ T, width T.size_of → Embeds (from_signed T) (fun _ => True) fun x y => compare x.toInt y.toInt
  strings : Embeds new_from_str admits lexCompare

/-- The three kinds of keys, from what their conversions do. -/
theorem orderEmbeddings_of {from_unsigned : ∀ T : UnsignedType, Word T.size_of → Result K}
    {from_signed : ∀ T : SignedType, Word T.size_of → Result K} {new_from_str : Bytes → Result K}
    {width : Nat → Prop} {admits : Bytes → Prop}
    (hunsigned : ∀ T, width T.size_of → Encodes (from_unsigned T) (fun _ => True) to_be_bytes)
    (hsigned : ∀ T, width T.size_of → Encodes (from_signed T) (fun _ => True) signed_bytes)
    (hstrings : Encodes new_from_str admits fun s => s ++ [0]) :
    OrderEmbeddings from_unsigned from_signed new_from_str width admits where
  unsigned T hT := by
    refine (hunsigned T hT).embeds lexCompare_to_be_bytes fun x y heq => ?_
    exact BitVec.eq_of_toNat_eq (compare_eq_iff_eq.1 heq)
  signed T hT := by
    refine (hsigned T hT).embeds (fun x y => ?_) fun x y heq => ?_
    · rw [signed_bytes, signed_bytes, lexCompare_to_be_bytes, compare_xor_sign_bit T.size_of_pos]
    · exact BitVec.eq_of_toInt_eq (compare_eq_iff_eq.1 heq)
  strings := by
    refine hstrings.embeds (fun s t => ?_) fun s t heq => lexCompare_eq_eq_iff.1 heq
    exact lexCompare_concat_least (fun b => UInt8.le_iff_toNat_le.2 (Nat.zero_le _)) s t

variable [Profile]

/-- A signed integer becomes a slice, its sign bit flipped. -/
theorem ArrayKey.from_signed_eq {N : Nat} {T : SignedType} (hT : T.size_of ≤ N) (val : Word T.size_of) :
    (from_signed T val : Result (ArrayKey N)) = new_from_slice (signed_bytes val) := by
  cases T with
  | i8 => exact from_i8_eq val hT
  | _ => rfl

omit [Profile] in
/-- A signed integer becomes a box, its sign bit flipped. -/
theorem VectorKey.from_signed_eq {T : SignedType} (val : Word T.size_of) :
    from_signed T val = .ok ⟨signed_bytes val⟩ := by
  cases T with
  | i8 => exact from_i8_eq val
  | _ => rfl

/-- A signed integer becomes a slice, its sign bit flipped. -/
theorem OverflowKey.from_signed_eq {N M : Nat} {T : SignedType} (val : Word T.size_of) :
    (from_signed T val : Result (OverflowKey N M)) = new_from_slice (signed_bytes val) := by
  cases T with
  | i8 => exact from_i8_eq val
  | _ => rfl

/-- Converted integers and strings are ordered as they were before, for all three key types;
an array has to have room for the bytes of an integer, and for a string and the zero behind
it. -/
theorem conversions_embed :
    (∀ N, OrderEmbeddings (ArrayKey.from_unsigned (N := N)) ArrayKey.from_signed ArrayKey.new_from_str (· ≤ N)
      fun s => s.length + 1 ≤ N ∧ (Profile.debug_assertions = true → s.length + 1 < N)) ∧
    OrderEmbeddings VectorKey.from_unsigned VectorKey.from_signed (fun s => .ok (VectorKey.new_from_str s))
      (fun _ => True) (fun _ => True) ∧
    (∀ N P, OrderEmbeddings (OverflowKey.from_unsigned (N := N) (P := P)) OverflowKey.from_signed
      OverflowKey.new_from_str (fun _ => True) (fun _ => True)) := by
  refine ⟨fun N => ?_, ?_, fun N P => ?_⟩
  · have hslice : ∀ {bytes : Bytes}, bytes.length ≤ N →
        ∃ key : ArrayKey N, ArrayKey.new_from_slice bytes = .ok key ∧ key.Holds bytes [] := by
      intro bytes hlen
      exact ArrayKey.stores.new_from_slice (by rintro cap ⟨⟩; exact hlen)
    refine orderEmbeddings_of (fun T hT => ArrayKey.encodes fun x _ => ?_) (fun T hT => ArrayKey.encodes fun x _ => ?_)
      (ArrayKey.encodes fun s hs => ?_)
    · exact hslice (by rwa [length_to_be_bytes])
    · rw [ArrayKey.from_signed_eq hT]
      exact hslice (by rwa [signed_bytes, length_to_be_bytes])
    · exact ArrayKey.new_from_str_spec hs.1 hs.2
  · exact orderEmbeddings_of (fun T _ => VectorKey.encodes fun x _ => rfl)
      (fun T _ => VectorKey.encodes fun x _ => VectorKey.from_signed_eq x) (VectorKey.encodes fun s _ => rfl)
  · exact orderEmbeddings_of (fun T _ => OverflowKey.encodes fun x _ => rfl)
      (fun T _ => OverflowKey.encodes fun x _ => OverflowKey.from_signed_eq x) (OverflowKey.encodes fun s _ => rfl)

end Orders

end rart.keys
