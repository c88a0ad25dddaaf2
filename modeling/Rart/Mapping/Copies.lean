import Rart.Mapping.Indexed

open SortedAssoc
open rart.utils

namespace rart.utils.BitArray

variable {X : Type}

/-- Two arrays whose slots read the same are the same. -/
theorem eq_of_get_known_present {s t : List (Option X)} (hlen : s.length = t.length)
    (h : ∀ pos : Nat, (s[pos]?).join = (t[pos]?).join) : s = t := by
  apply List.ext_getElem hlen
  intro pos hs ht
  have hpos := h pos
  rw [List.getElem?_eq_getElem hs, List.getElem?_eq_getElem ht] at hpos
  exact hpos

/-- Cloning the initialised slots one by one gives the same array. -/
theorem Valid.clone_live_slots_eq {self : BitArray X} (h : self.Valid) :
    self.clone_live_slots = .ok self := by
  have hloop : ∀ n ≤ self.storage.length, ∃ cloned : BitArray X,
      (List.range n).foldlM self.clone_slot (new self.storage.length self.bitset.bitset.length) =
        .ok cloned ∧
      cloned.Valid ∧ cloned.storage.length = self.storage.length ∧
      ∀ q, cloned.get_known_present q = if q < n then self.get_known_present q else none := by
    intro n hn
    induction n with
    | zero =>
      refine ⟨_, rfl, new_valid h.covered, List.length_replicate, fun q => ?_⟩
      rw [get_known_present_new, if_neg (Nat.not_lt_zero q)]
    | succ n ih =>
      obtain ⟨cloned, hfold, hvalid, hlen, hget⟩ := ih (by omega)
      rw [List.range_succ, List.foldlM_append, hfold, ok_bind, List.foldlM_cons, clone_slot]
      have hmarked := h.marked n
      have hgo_on : ∀ {after : BitArray X}, after.Valid → after.storage.length = self.storage.length →
          (∀ q, after.get_known_present q =
            if q = n then self.get_known_present n else cloned.get_known_present q) →
          ∃ result : BitArray X, (Except.ok after >>= fun a => [].foldlM self.clone_slot a) = .ok result ∧
            result.Valid ∧
            result.storage.length = self.storage.length ∧
            ∀ q, result.get_known_present q = if q < n + 1 then self.get_known_present q else none := by
        intro after hvalid' hlen' hget'
        refine ⟨after, rfl, hvalid', hlen', fun q => ?_⟩
        rw [hget', hget]
        by_cases heq : q = n
        · rw [if_pos heq, if_pos (by omega), heq]
        · rw [if_neg heq]
          by_cases hlt : q < n
          · rw [if_pos hlt, if_pos (by omega)]
          · rw [if_neg hlt, if_neg (by omega)]
      cases hslot : self.get_known_present n with
      | none =>
        rw [hslot] at hmarked
        rw [hmarked]
        refine hgo_on hvalid hlen fun q => ?_
        split
        · rename_i heq
          rw [heq, hget, if_neg (Nat.lt_irrefl n), hslot]
        · rfl
      | some value =>
        rw [hslot] at hmarked
        have hpos : n < cloned.storage.length := by omega
        obtain ⟨after, hset, hvalid', hlen', hget'⟩ := hvalid.set hpos value
        rw [hmarked, Option.isSome_some, if_pos (by rfl)]
        dsimp only
        rw [hset]
        refine hgo_on hvalid' (hlen'.trans hlen) fun q => ?_
        rw [hget', hslot]
  obtain ⟨cloned, hfold, _, hlen, hget⟩ := hloop self.storage.length (Nat.le_refl _)
  unfold clone_live_slots
  rw [hfold]
  have hstorage : cloned.storage = self.storage := by
    refine eq_of_get_known_present hlen fun pos => ?_
    have hpos := hget pos
    unfold get_known_present at hpos
    rw [hpos]
    split
    · rfl
    · rw [List.getElem?_eq_none (by omega)]
      rfl
  obtain ⟨bitset, storage⟩ := self
  rw [ok_bind, hstorage]
  rfl

end rart.utils.BitArray

namespace rart.mapping

section Copies

variable {M N : Type}

/-- `for (key, child) in .. { mapping.add_child(key, ..) }` -/
def add_children (add_child : M → UInt8 → N → Result M) (mapping : M) :
    List (UInt8 × N) → Result M
  | [] => return mapping
  | (key, child) :: rest => do add_children add_child (← add_child mapping key child) rest

/-- Filling a table in ascending order. -/
theorem add_children_spec {add_child : M → UInt8 → N → Result M}
    {R : M → List (UInt8 × N) → Prop} {width : Nat}
    (hadd : ∀ {m : M} {items : List (UInt8 × N)} {key : UInt8} (node : N), R m items →
      items.lookup key = none → items.length < width →
      ∃ m', add_child m key node = .ok m' ∧ R m' (insertSorted key node items))
    {m : M} {done rest : List (UInt8 × N)} (h : R m done) (hasc : Ascending (done ++ rest))
    (hroom : (done ++ rest).length ≤ width) :
    ∃ m', add_children add_child m rest = .ok m' ∧ R m' (done ++ rest) := by
  induction rest generalizing m done with
  | nil =>
    rw [List.append_nil]
    exact ⟨m, rfl, h⟩
  | cons p rest ih =>
    obtain ⟨key, child⟩ := p
    have hlt : ∀ q ∈ done, q.1 < key := fun q hq =>
      (List.pairwise_append.1 hasc).2.2 q hq (key, child) (by simp)
    rw [List.length_append, List.length_cons] at hroom
    obtain ⟨m', hm', hrepr⟩ := hadd child h (lookup_eq_none_of_forall_lt hlt) (by omega)
    rw [insertSorted_of_forall_lt hlt] at hrepr
    have hsplit : done ++ (key, child) :: rest = (done ++ [(key, child)]) ++ rest := by
      rw [List.append_assoc]
      rfl
    rw [hsplit] at hasc ⊢
    have hroom' : ((done ++ [(key, child)]) ++ rest).length ≤ width := by
      rw [List.length_append, List.length_append, List.length_singleton]
      omega
    obtain ⟨m'', hm'', hrepr''⟩ := ih hrepr hasc hroom'
    refine ⟨m'', ?_, hrepr''⟩
    rw [add_children, hm']
    exact hm''

variable {items : List (UInt8 × N)}

/-- Children added in ascending order give the list back. -/
theorem SortedKeyedMapping.copied_spec [Features] (WIDTH : Nat) (hwidth : WIDTH ≤ 16)
    (hasc : Ascending items) (hroom : items.length ≤ WIDTH) :
    ∃ km : SortedKeyedMapping N WIDTH, add_children SortedKeyedMapping.add_child .new items = .ok km ∧
      km.Repr items :=
  add_children_spec (fun node h hkey hlt => SortedKeyedMapping.Repr.add_child h hwidth node hkey hlt)
    SortedKeyedMapping.Repr.new hasc hroom

/-- Children added in ascending order give the list back. -/
theorem IndexedMapping.copied_spec (WIDTH : Nat) (hnarrow : WIDTH ≤ 64) (hasc : Ascending items)
    (hroom : items.length ≤ WIDTH) :
    ∃ im : IndexedMapping N WIDTH, add_children IndexedMapping.add_child .new items = .ok im ∧
      im.Repr items :=
  add_children_spec (fun node h hkey hlt => IndexedMapping.Repr.add_child h node hkey hlt)
    (IndexedMapping.Repr.new hnarrow) hasc hroom

/-- Children added in ascending order give the list back. -/
theorem DirectMapping.copied_spec (hasc : Ascending items) :
    ∃ dm : DirectMapping N, add_children DirectMapping.add_child .new items = .ok dm ∧ dm.Repr items :=
  add_children_spec (fun node h hkey _ => DirectMapping.Repr.add_child h node hkey)
    DirectMapping.Repr.new hasc (length_le_of_ascending hasc)

/-- Both arrays are cloned, slot by slot. -/
def IndexedMapping.clone_mapping {WIDTH : Nat} (self : IndexedMapping N WIDTH) :
    Result (IndexedMapping N WIDTH) := do
  let child_ptr_indexes ← self.child_ptr_indexes.clone_live_slots
  return ⟨child_ptr_indexes, ← self.children.clone_live_slots, self.num_children⟩

/-- The array is cloned, slot by slot. -/
def DirectMapping.clone_mapping (self : DirectMapping N) : Result (DirectMapping N) := do
  return ⟨← self.children.clone_live_slots, self.num_children⟩

/-- A clone of a sound table is the table. -/
theorem IndexedMapping.clone_mapping_eq {WIDTH : Nat} {im : IndexedMapping N WIDTH} (h : im.Repr items) :
    im.clone_mapping = .ok im := by
  unfold IndexedMapping.clone_mapping
  obtain ⟨ptrs, hptrs⟩ := h.slots.ptrs
  rw [hptrs.valid.clone_live_slots_eq, ok_bind, h.slots.valid.clone_live_slots_eq]
  rfl

/-- A clone of a sound table is the table. -/
theorem DirectMapping.clone_mapping_eq {dm : DirectMapping N} (h : dm.Repr items) :
    dm.clone_mapping = .ok dm := by
  unfold DirectMapping.clone_mapping
  rw [h.maps.valid.clone_live_slots_eq]
  rfl

end Copies

section Moves

variable {M N : Type}

/-- What an owning iterator over the bits of a key set hands out: it deletes one key after
the other from the table. -/
def into_keys (delete_child : M → UInt8 → Result (Option N × M)) (mapping : M) :
    List Nat → Result (List (UInt8 × N))
  | [] => return []
  | key :: keys => do
    let (child, mapping) ← delete_child mapping (UInt8.ofNat key)
    match child with
    | none => return []
    | some child => return (UInt8.ofNat key, child) :: (← into_keys delete_child mapping keys)

/-- The edges are listed first, and their children then deleted one by one. -/
def IndexedMapping.into_iter {WIDTH : Nat} (self : IndexedMapping N WIDTH) : Result (List (UInt8 × N)) :=
  into_keys IndexedMapping.delete_child self self.child_ptr_indexes.bitset.iter

/-- The edges are listed first, and their children then deleted one by one. -/
def DirectMapping.into_iter (self : DirectMapping N) : Result (List (UInt8 × N)) :=
  into_keys DirectMapping.delete_child self self.children.bitset.iter

/-- By induction on the list: each deletion hands out its head. -/
theorem into_keys_eq {delete_child : M → UInt8 → Result (Option N × M)} {R : M → List (UInt8 × N) → Prop}
    (hdelete : ∀ {m : M} {items : List (UInt8 × N)} {key : UInt8} {node : N}, R m items →
      items.lookup key = some node →
      ∃ m', delete_child m key = .ok (some node, m') ∧ R m' (eraseKey key items))
    {m : M} {items : List (UInt8 × N)} (h : R m items) (hasc : Ascending items) :
    into_keys delete_child m (items.map fun p => p.1.toNat) = .ok items := by
  induction items generalizing m with
  | nil => rfl
  | cons p items ih =>
    obtain ⟨key, node⟩ := p
    obtain ⟨m', hm', hrepr⟩ := hdelete h (hasc.lookup_eq_some_iff.2 (List.mem_cons_self))
    rw [show eraseKey key ((key, node) :: items) = items from eraseKey_append_cons [] hasc] at hrepr
    rw [List.map_cons, into_keys, UInt8.ofNat_toNat, hm', ok_bind]
    dsimp only
    rw [ih hrepr (ascending_cons.1 hasc).2]
    rfl

variable {items : List (UInt8 × N)}

/-- The owning iterator hands out the list. -/
theorem IndexedMapping.into_iter_eq {WIDTH : Nat} {im : IndexedMapping N WIDTH} (h : im.Repr items) :
    im.into_iter = .ok items := by
  obtain ⟨ptrs, hptrs⟩ := h.slots.ptrs
  unfold IndexedMapping.into_iter
  rw [hptrs.bitset_iter_eq h.slots.ascending (h.ptr_iff hptrs)]
  exact into_keys_eq (fun h hkey => IndexedMapping.Repr.delete_child h hkey) h h.slots.ascending

/-- The owning iterator hands out the list. -/
theorem DirectMapping.into_iter_eq {dm : DirectMapping N} (h : dm.Repr items) :
    dm.into_iter = .ok items := by
  unfold DirectMapping.into_iter
  rw [h.maps.bitset_iter_eq h.maps.ascending fun _ => Iff.rfl]
  exact into_keys_eq (fun h hkey => DirectMapping.Repr.delete_child h hkey) h h.maps.ascending

end Moves

end rart.mapping
