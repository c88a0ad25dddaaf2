import Mathlib.Data.Set.Function
import Rart.Keys.Embeddings
import Rart.Tree.Scans

open LexOrder SortedAssoc
open rart.iter rart.node rart.query rart.partials rart.utils rart.Trie rart.tree

namespace rart.keys

variable {α K P V E : Type} [KeyTrait K P]

section Model

/-- A mutation as a caller writes it, with a `KV: Into<KeyType>` for its key. -/
inductive Call (α V E : Type) where
  | insert (key : α) (value : V)
  | try_insert (key : α) (value : V)
  | remove (key : α)
  | delete (key : α)
  | get_mut (key : α) (write : V → V)
  | update (key : α) (f : Callback V Empty)
  | try_update (key : α) (f : Callback V E)

/-- `key.into()`, and the bytes that a tree reads of it. -/
def into (conv : α → Result K) (key : α) : Result Bytes := do KeyTrait.as_ref (← conv key)

namespace Call

/-- The key of a call. -/
def key : Call α V E → α
  | .insert key _ => key
  | .try_insert key _ => key
  | .remove key => key
  | .delete key => key
  | .get_mut key _ => key
  | .update key _ => key
  | .try_update key _ => key

/-- The `_k` method that a call goes on to. -/
def withKey (k : Bytes) : Call α V E → Op V E
  | .insert _ value => .insert_k k value
  | .try_insert _ value => .try_insert_k k value
  | .remove _ => .remove_k k
  | .delete _ => .delete_k k
  | .get_mut _ write => .get_mut_k k write
  | .update _ f => .update_k k f
  | .try_update _ f => .try_update_k k f

/-- The key is converted, and the `_k` method called with it. -/
def onTree [Features] (conv : α → Result K) (call : Call α V E) (tree : AdaptiveRadixTree V) :
    Result (Reply V E × AdaptiveRadixTree V) := do
  (call.withKey (← into conv call.key)).onTree tree

end Call

/-- The calls one after the other, with their replies. -/
def runCalls [Features] (conv : α → Result K) (tree : AdaptiveRadixTree V) :
    List (Call α V E) → Result (List (Reply V E) × AdaptiveRadixTree V)
  | [] => return ([], tree)
  | call :: calls => do
    let (reply, tree) ← call.onTree conv tree
    let (replies, tree) ← runCalls conv tree calls
    return (reply :: replies, tree)

/-- `AdaptiveRadixTree::get` -/
def get [Features] (conv : α → Result K) (tree : AdaptiveRadixTree V) (key : α) : Result (Option V) := do
  tree.get_k (← into conv key)

/-- `std::ops::Bound`, of what is converted. -/
inductive KeyBound (α : Type) where
  | Included (key : α)
  | Excluded (key : α)
  | Unbounded

/-- The key of a bound is converted. -/
def KeyBound.into (conv : α → Result K) : KeyBound α → Result Bound
  | Included key => return .Included (← keys.into conv key)
  | Excluded key => return .Excluded (← keys.into conv key)
  | Unbounded => return .Unbounded

/-- `AdaptiveRadixTree::range` -/
def range [Features] (conv : α → Result K) (tree : AdaptiveRadixTree V) (start_bound end_bound : KeyBound α) :
    Result (Range (DefaultNode V) V) := do
  iter.range tree.root (← start_bound.into conv) (← end_bound.into conv)

end Model

section Reference

/-- A map from the integers or strings that callers pass as keys. -/
abbrev KeyMap (α V : Type) := α → Option V

namespace Call

/-- What a map answers to a call whose slot holds `found`; the key has no part in it. -/
def answer (call : Call α V E) (found : Option V) : Reply V E := (call.withKey []).answer found

/-- What the slot holds afterwards. -/
def left (call : Call α V E) (found : Option V) : Option V := (call.withKey []).left found

/-- The call on the map: one slot is read and left anew. -/
def onKeyMap [DecidableEq α] (call : Call α V E) (m : KeyMap α V) : Reply V E × KeyMap α V :=
  (call.answer (m call.key), Function.update m call.key (call.left (m call.key)))

end Call

/-- The calls on the map, with their replies. -/
def runKeyMap [DecidableEq α] (m : KeyMap α V) : List (Call α V E) → List (Reply V E) × KeyMap α V
  | [] => ([], m)
  | call :: calls =>
    let (reply, m) := call.onKeyMap m
    let (replies, m) := runKeyMap m calls
    (reply :: replies, m)

namespace KeyBound

/-- The keys of a bound are keys that the key type admits. -/
def Admitted (admits : α → Prop) : KeyBound α → Prop
  | Included key => admits key
  | Excluded key => admits key
  | Unbounded => True

/-- A key lies above a start bound. -/
def starts (order : α → α → Ordering) (key : α) : KeyBound α → Bool
  | Included start_key => order key start_key != .lt
  | Excluded start_key => order key start_key == .gt
  | Unbounded => true

/-- A key lies below an end bound. -/
def ends (order : α → α → Ordering) (key : α) : KeyBound α → Bool
  | Included end_key => order key end_key != .gt
  | Excluded end_key => order key end_key == .lt
  | Unbounded => true

end KeyBound

/-- An entry that a scan hands out is one of the map. -/
def Yields (conv : α → Result K) (e : Bytes × V) (p : α × V) : Prop := into conv p.1 = .ok e.1 ∧ e.2 = p.2

/-- A tree reads as a map from typed keys, one key at a time and in the order of the keys. -/
structure ReadsAs [Features] (conv : α → Result K) (admits : α → Prop) (order : α → α → Ordering)
    (tree : AdaptiveRadixTree V) (m : KeyMap α V) : Prop where
  get : ∀ key, admits key → get conv tree key = .ok (m key)
  scans : ∃ l : List (α × V), l.Pairwise (fun p q => order p.1 q.1 = .lt) ∧
    (∀ key value, (key, value) ∈ l ↔ m key = some value) ∧ tree.len = l.length ∧
    (∃ it, Iter.new tree.root = .ok it ∧ List.Forall₂ (Yields conv) it.collect l) ∧
    ∀ start_bound end_bound : KeyBound α, start_bound.Admitted admits → end_bound.Admitted admits →
      ∃ r, range conv tree start_bound end_bound = .ok r ∧
        List.Forall₂ (Yields conv) r.collect
          (l.filter fun p => start_bound.starts order p.1 && end_bound.ends order p.1)

end Reference

section Encoded

variable [Features] [DecidableEq α] {conv : α → Result K} {admits : α → Prop} {enc : α → Bytes}
  {order : α → α → Ordering} {tree : AdaptiveRadixTree V} {m : KeyMap α V}

omit [Features] [DecidableEq α] in
/-- An admitted key is converted to its encoding. -/
theorem Encodes.into_eq (h : Encodes conv admits enc) {key : α} (hkey : admits key) :
    into conv key = .ok (enc key) := by
  obtain ⟨k, _, hconv, _, hbehaves⟩ := h key key hkey hkey
  rw [into, hconv, ok_bind, hbehaves.as_ref_left]

omit [Features] [DecidableEq α] in
/-- The `_k` method is called with the key. -/
@[simp] theorem Call.key_withKey (call : Call α V E) (k : Bytes) : (call.withKey k).key = k := by
  cases call <;> rfl

omit [Features] [DecidableEq α] in
/-- The reply does not depend on the key. -/
theorem Call.answer_withKey (call : Call α V E) (k : Bytes) (found : Option V) :
    (call.withKey k).answer found = call.answer found := by
  cases call <;> rfl

omit [Features] [DecidableEq α] in
/-- Nor does what is left. -/
theorem Call.left_withKey (call : Call α V E) (k : Bytes) (found : Option V) :
    (call.withKey k).left found = call.left found := by
  cases call <;> rfl

omit [Features] in
/-- Only the slot of the key changes. -/
theorem Call.onKeyMap_apply (call : Call α V E) (m : KeyMap α V) (key : α) :
    (call.onKeyMap m).2 key = if key = call.key then call.left (m call.key) else m key :=
  Function.update_apply ..

/-- A tree of encoded keys, and the map from what they encode. -/
structure Encoded (admits : α → Prop) (enc : α → Bytes) (tree : AdaptiveRadixTree V) (m : KeyMap α V) : Prop where
  represents : ∃ r : RefMap V, Represents tree r ∧ (∀ key, admits key → r.lookup (enc key) = m key) ∧
    ∀ k value, r.lookup k = some value → ∃ key, admits key ∧ enc key = k
  admitted : ∀ key value, m key = some value → admits key

omit [DecidableEq α] in
/-- A new tree encodes the empty map. -/
theorem encoded_new : Encoded admits enc (AdaptiveRadixTree.new : AdaptiveRadixTree V) fun _ => none where
  represents := ⟨∅, represents_new, fun _ _ => rfl, fun _ _ hfound => by cases hfound⟩
  admitted _ _ hfound := by cases hfound

/-- A call answers as the map does, and leaves what the map is then. -/
theorem Encoded.call (he : Encoded admits enc tree m) (h : Encodes conv admits enc)
    (hinj : Function.Injective enc) (call : Call α V E) (hkey : admits call.key) :
    ∃ after, call.onTree conv tree = .ok ((call.onKeyMap m).1, after) ∧
      Encoded admits enc after (call.onKeyMap m).2 := by
  obtain ⟨⟨r, hr, hlookup, hdomain⟩, hadmitted⟩ := he
  obtain ⟨after, hop, hafter⟩ := (call.withKey (enc call.key)).step hr
  have hset : ((call.withKey (enc call.key)).onMap r).2 =
      r.setSlot (enc call.key) (call.left (m call.key)) := by
    rw [Op.onMap, Call.key_withKey, hlookup _ hkey, Call.left_withKey]
  rw [hset] at hafter
  refine ⟨after, ?_, ⟨_, hafter, fun key hadmits => ?_, fun k value hfound => ?_⟩, fun key value hfound => ?_⟩
  · rw [Call.onTree, h.into_eq hkey, ok_bind, hop, Op.onMap, Call.key_withKey, hlookup _ hkey, Call.answer_withKey]
    rfl
  · rw [RefMap.lookup_setSlot, Call.onKeyMap_apply]
    by_cases heq : key = call.key
    · rw [if_pos (congrArg enc heq), if_pos heq]
    · rw [if_neg fun hsame => heq (hinj hsame), if_neg heq, hlookup key hadmits]
  · rw [RefMap.lookup_setSlot] at hfound
    split at hfound
    · rename_i heq
      exact ⟨call.key, hkey, heq.symm⟩
    · exact hdomain k value hfound
  · rw [Call.onKeyMap_apply] at hfound
    split at hfound
    · rename_i heq
      rw [heq]
      exact hkey
    · exact hadmitted key value hfound

/-- By induction on the calls, whose keys are all admitted. -/
theorem Encoded.run (he : Encoded admits enc tree m) (h : Encodes conv admits enc)
    (hinj : Function.Injective enc) (calls : List (Call α V E)) (hcalls : ∀ c ∈ calls, admits c.key) :
    ∃ after, runCalls conv tree calls = .ok ((runKeyMap m calls).1, after) ∧
      Encoded admits enc after (runKeyMap m calls).2 := by
  induction calls generalizing tree m with
  | nil => exact ⟨tree, rfl, he⟩
  | cons call calls ih =>
    obtain ⟨next, hcall, hnext⟩ := he.call h hinj call (hcalls call List.mem_cons_self)
    obtain ⟨after, hrun, hafter⟩ := ih hnext fun c hc => hcalls c (List.mem_cons_of_mem call hc)
    refine ⟨after, ?_, hafter⟩
    rw [runCalls, hcall, ok_bind]
    dsimp only
    rw [hrun]
    rfl

omit [Features] [DecidableEq α] in
/-- A converted bound admits the encodings of the keys that the bound admits. -/
theorem KeyBound.into_eq (h : Encodes conv admits enc) {bound : KeyBound α} (hbound : bound.Admitted admits) :
    ∃ b, bound.into conv = .ok b ∧
      (∀ key, satisfies_start b (enc key) = bound.starts (fun x y => lexCompare (enc x) (enc y)) key) ∧
      ∀ key, satisfies_end b (enc key) = bound.ends (fun x y => lexCompare (enc x) (enc y)) key := by
  cases bound with
  | Included key =>
    refine ⟨.Included (enc key), ?_, fun x => ?_, fun x => rfl⟩
    · rw [KeyBound.into, h.into_eq hbound]
      rfl
    · rw [satisfies_start, key_order_eq]
      rfl
  | Excluded key =>
    refine ⟨.Excluded (enc key), ?_, fun x => ?_, fun x => rfl⟩
    · rw [KeyBound.into, h.into_eq hbound]
      rfl
    · rw [satisfies_start, key_order_eq]
      rfl
  | Unbounded => exact ⟨.Unbounded, rfl, fun _ => rfl, fun _ => rfl⟩

omit [DecidableEq α] in
/-- Lookups and ranges of a tree read its map, in the order of the type. -/
theorem Encoded.readsAs [Nonempty α] (he : Encoded admits enc tree m) (h : Encodes conv admits enc)
    (horder : ∀ x y, lexCompare (enc x) (enc y) = order x y) (hinj : Function.Injective enc) :
    ReadsAs conv admits order tree m := by
  obtain ⟨⟨r, hr, hlookup, hdomain⟩, hadmitted⟩ := he
  obtain rfl : (fun x y => lexCompare (enc x) (enc y)) = order := funext fun x => funext fun y => horder x y
  refine ⟨fun key hkey => ?_, ?_⟩
  · rw [get, h.into_eq hkey, ok_bind, hr.get_k_eq, hlookup key hkey]
  -- what the keys were made of
  have hentry : ∀ e ∈ rootEntries tree.root, ∃ key, admits key ∧ enc key = e.1 := fun e hmem =>
    hdomain e.1 e.2 ((hr.lists.mem e.1 e.2).1 hmem)
  let decode := Function.invFun enc
  have hdecode : ∀ e ∈ rootEntries tree.root, admits (decode e.1) ∧ enc (decode e.1) = e.1 := fun e hmem => by
    obtain ⟨key, hkey, heq⟩ := hentry e hmem
    have hback : decode e.1 = key := heq ▸ Function.leftInverse_invFun hinj key
    rw [hback]
    exact ⟨hkey, heq⟩
  have hyields : ∀ e ∈ rootEntries tree.root, Yields conv e (decode e.1, e.2) := fun e hmem => by
    obtain ⟨hkey, heq⟩ := hdecode e hmem
    exact ⟨by rw [h.into_eq hkey, heq], rfl⟩
  refine ⟨(rootEntries tree.root).map fun e => (decode e.1, e.2), ?_, fun key value => ?_, ?_, ?_, ?_⟩
  · refine List.pairwise_map.2 (hr.lists.ascending.imp_of_mem fun {e f} he hf hlt => ?_)
    rw [(hdecode e he).2, (hdecode f hf).2]
    exact lexCompare_eq_lt_iff.2 hlt
  · rw [List.mem_map]
    constructor
    · rintro ⟨e, hmem, heq⟩
      obtain ⟨hkey, henc⟩ := hdecode e hmem
      obtain ⟨rfl, rfl⟩ := Prod.mk.inj heq
      rw [← hlookup _ hkey, henc]
      exact (hr.lists.mem e.1 e.2).1 hmem
    · intro hfound
      rw [← hlookup key (hadmitted key value hfound)] at hfound
      refine ⟨(enc key, value), (hr.lists.mem _ _).2 hfound, Prod.ext ?_ rfl⟩
      exact Function.leftInverse_invFun hinj key
  · rw [hr.len, hr.lists.size, List.length_map]
  · obtain ⟨it, hit, hcollect⟩ := Iter.new_root_spec hr.wf
    refine ⟨it, hit, ?_⟩
    rw [hcollect]
    exact List.forall₂_map_right_iff.2 (List.forall₂_same.2 hyields)
  · intro start_bound end_bound hstart hend
    obtain ⟨lo, hlo, hstarts, _⟩ := KeyBound.into_eq h hstart
    obtain ⟨hi, hhi, _, hends⟩ := KeyBound.into_eq h hend
    obtain ⟨r', hrange, hcollect⟩ := range_spec hr.wf lo hi
    refine ⟨r', ?_, ?_⟩
    · rw [range, hlo, ok_bind, hhi, ok_bind, hrange]
    · rw [hcollect, List.filter_map]
      have hfilter : within lo hi (rootEntries tree.root) = (rootEntries tree.root).filter
          ((fun p => start_bound.starts (fun x y => lexCompare (enc x) (enc y)) p.1 &&
            end_bound.ends (fun x y => lexCompare (enc x) (enc y)) p.1) ∘ fun e => (decode e.1, e.2)) :=
        List.filter_congr fun e hmem => by
          dsimp only [Function.comp_apply]
          rw [← hstarts, ← hends, (hdecode e hmem).2]
      change List.Forall₂ _ (within lo hi (rootEntries tree.root)) _
      rw [hfilter]
      exact List.forall₂_map_right_iff.2 (List.forall₂_same.2 fun e hmem => hyields e (List.mem_of_mem_filter hmem))

/-- Whatever is called, a new tree answers as the map from typed keys does, and reads as that map
afterwards. -/
def MapsTyped (conv : α → Result K) (admits : α → Prop) (order : α → α → Ordering) : Prop :=
  ∀ {V E : Type} [Features] (calls : List (Call α V E)), (∀ c ∈ calls, admits c.key) →
    ∃ tree, runCalls conv .new calls = .ok ((runKeyMap (fun _ => none) calls).1, tree) ∧
      ReadsAs conv admits order tree (runKeyMap (fun _ => none) calls).2

omit [Features] in
/-- A conversion that keeps the order makes a typed map of the tree. -/
theorem Encodes.mapsTyped [Nonempty α] (h : Encodes conv admits enc)
    (horder : ∀ x y, lexCompare (enc x) (enc y) = order x y) (heq : ∀ x y, order x y = .eq → x = y) :
    MapsTyped conv admits order := by
  intro V E _ calls hcalls
  have hinj : Function.Injective enc := fun x y henc =>
    heq x y ((horder x y).symm.trans (lexCompare_eq_eq_iff.2 henc))
  obtain ⟨tree, hrun, hencoded⟩ := encoded_new.run h hinj calls hcalls
  exact ⟨tree, hrun, hencoded.readsAs h horder hinj⟩

end Encoded

section Conversions

variable [Target]

/-- A tree whose keys are converted integers of up to some width, or strings that the key type
admits, is a map from these. -/
structure TypedMaps (from_unsigned : ∀ T : UnsignedType, Word T.size_of → Result K)
    (from_signed : ∀ T : SignedType, Word T.size_of → Result K) (new_from_str : Bytes → Result K)
    (width : Nat → Prop) (admits : Bytes → Prop) : Prop where
  unsigned : ∀ T, width T.size_of → MapsTyped (from_unsigned T) (fun _ => True) fun x y => compare x.toNat y.toNat
  signed : ∀ T, width T.size_of → MapsTyped (from_signed T) (fun _ => True) fun x y => compare x.toInt y.toInt
  strings : MapsTyped new_from_str admits lexCompare

/-- The three kinds of keys of a tree, from what their conversions do. -/
theorem typedMaps_of {from_unsigned : ∀ T : UnsignedType, Word T.size_of → Result K}
    {from_signed : ∀ T : SignedType, Word T.size_of → Result K} {new_from_str : Bytes → Result K}
    {width : Nat → Prop} {admits : Bytes → Prop}
    (hunsigned : ∀ T, width T.size_of → Encodes (from_unsigned T) (fun _ => True) to_be_bytes)
    (hsigned : ∀ T, width T.size_of → Encodes (from_signed T) (fun _ => True) signed_bytes)
    (hstrings : Encodes new_from_str admits fun s => s ++ [0]) :
    TypedMaps from_unsigned from_signed new_from_str width admits where
  unsigned T hT := (hunsigned T hT).mapsTyped lexCompare_to_be_bytes fun x y heq =>
    BitVec.eq_of_toNat_eq (compare_eq_iff_eq.1 heq)
  signed T hT := (hsigned T hT).mapsTyped
    (fun x y => by rw [signed_bytes, signed_bytes, lexCompare_to_be_bytes, compare_xor_sign_bit T.size_of_pos])
    fun x y heq => BitVec.eq_of_toInt_eq (compare_eq_iff_eq.1 heq)
  strings := hstrings.mapsTyped
    (fun s t => lexCompare_concat_least (fun b => UInt8.le_iff_toNat_le.2 (Nat.zero_le _)) s t)
    fun s t heq => lexCompare_eq_eq_iff.1 heq

variable [Profile]

/-- So many bytes fit an array key, and with debug assertions the prefixes of such keys can be
joined: the assertion of `ArrPartial` asks for one byte more than the two have. -/
def ArrayKey.FitsWidth (N size : Nat) : Prop := size ≤ N ∧ (Profile.debug_assertions = true → size < N)

/-- Trees with converted integers and strings for their keys are maps from these, for all three
key types: every call answers as the map does, and scans hand out the entries between two
bounds in the order of the integers, negative ones first, or of the strings. -/
theorem typed_maps :
    (∀ N, TypedMaps (ArrayKey.from_unsigned (N := N)) ArrayKey.from_signed ArrayKey.new_from_str
      (ArrayKey.FitsWidth N) fun s => ArrayKey.FitsWidth N (s.length + 1)) ∧
    TypedMaps VectorKey.from_unsigned VectorKey.from_signed (fun s => .ok (VectorKey.new_from_str s))
      (fun _ => True) (fun _ => True) ∧
    (∀ N P, TypedMaps (OverflowKey.from_unsigned (N := N) (P := P)) OverflowKey.from_signed
      OverflowKey.new_from_str (fun _ => True) (fun _ => True)) := by
  refine ⟨fun N => ?_, ?_, fun N P => ?_⟩
  · have hslice : ∀ {bytes : Bytes}, bytes.length ≤ N →
        ∃ key : ArrayKey N, ArrayKey.new_from_slice bytes = .ok key ∧ key.Holds bytes [] := fun hlen =>
      ArrayKey.stores.new_from_slice (by rintro cap ⟨⟩; exact hlen)
    refine typedMaps_of (fun T hT => ArrayKey.encodes fun x _ => hslice ?_)
      (fun T hT => ArrayKey.encodes fun x _ => ?_) (ArrayKey.encodes fun s hs => ArrayKey.new_from_str_spec hs.1 hs.2)
    · rw [length_to_be_bytes]
      exact hT.1
    · rw [ArrayKey.from_signed_eq hT.1]
      refine hslice ?_
      rw [signed_bytes, length_to_be_bytes]
      exact hT.1
  · exact typedMaps_of (fun T _ => VectorKey.encodes fun x _ => rfl)
      (fun T _ => VectorKey.encodes fun x _ => VectorKey.from_signed_eq x) (VectorKey.encodes fun s _ => rfl)
  · exact typedMaps_of (fun T _ => OverflowKey.encodes fun x _ => rfl)
      (fun T _ => OverflowKey.encodes fun x _ => OverflowKey.from_signed_eq x) (OverflowKey.encodes fun s _ => rfl)

end Conversions

end rart.keys
