import Mathlib.Data.Finmap
import Rart.Lib.LexOrder
import Rart.Lib.SortedAssoc
import Rart.Slot
import Rart.Utils.U8Keys

open SortedAssoc

namespace rart

variable {V E : Type}

/-- A finite map from keys to values. -/
abbrev RefMap (V : Type) := Finmap (fun _ : Bytes => V)

namespace RefMap

/-- The map with one slot set or emptied. -/
def setSlot (m : RefMap V) (key : Bytes) : Option V → RefMap V
  | none => m.erase key
  | some value => m.insert key value

/-- Setting one slot leaves the others. -/
theorem lookup_setSlot (m : RefMap V) (key : Bytes) (slot : Option V) (k : Bytes) :
    (m.setSlot key slot).lookup k = if k = key then slot else m.lookup k := by
  cases slot with
  | none =>
    change (m.erase key).lookup k = _
    split
    · rename_i heq
      rw [heq, Finmap.lookup_erase]
    · rename_i hne
      exact Finmap.lookup_erase_ne hne
  | some value =>
    change (m.insert key value).lookup k = _
    split
    · rename_i heq
      rw [heq, Finmap.lookup_insert]
    · rename_i hne
      exact Finmap.lookup_insert_of_ne m hne

/-- Setting a slot to what it holds. -/
theorem setSlot_eq_self {m : RefMap V} {key : Bytes} {slot : Option V} (h : m.lookup key = slot) :
    m.setSlot key slot = m := by
  apply Finmap.ext_lookup
  intro k
  rw [lookup_setSlot]
  split
  · rename_i heq
    rw [heq, h]
  · rfl

/-- The number of entries. -/
def size (m : RefMap V) : Nat := m.keys.card

/-- The keys of a map are those with a value. -/
theorem mem_keys_iff {m : RefMap V} {key : Bytes} : key ∈ m.keys ↔ (m.lookup key).isSome := by
  rw [Finmap.mem_keys, Finmap.lookup_isSome]

/-- A removal that finds its key. -/
theorem size_erase_of_some {m : RefMap V} {key : Bytes} {value : V} (h : m.lookup key = some value) :
    (m.setSlot key none).size + 1 = m.size := by
  unfold size setSlot
  rw [Finmap.keys_erase]
  apply Finset.card_erase_add_one
  rw [mem_keys_iff, h]
  rfl

/-- A new key. -/
theorem size_insert_of_none {m : RefMap V} {key : Bytes} (h : m.lookup key = none) (value : V) :
    (m.setSlot key (some value)).size = m.size + 1 := by
  have hlookup : (m.setSlot key (some value)).lookup key = some value := by
    rw [lookup_setSlot, if_pos rfl]
  have hback : (m.setSlot key (some value)).setSlot key none = m := by
    apply Finmap.ext_lookup
    intro k
    rw [lookup_setSlot, lookup_setSlot]
    split
    · rename_i heq
      rw [heq, h]
    · rfl
  have hsize := size_erase_of_some hlookup
  rw [hback] at hsize
  exact hsize.symm

/-- A key that was there. -/
theorem size_insert_of_some {m : RefMap V} {key : Bytes} {current : V}
    (h : m.lookup key = some current) (value : V) : (m.setSlot key (some value)).size = m.size := by
  have hsame : (m.setSlot key (some value)).keys = m.keys := by
    apply Finset.ext
    intro k
    rw [mem_keys_iff, mem_keys_iff, lookup_setSlot]
    split
    · rename_i heq
      rw [heq, h]
      simp
    · rfl
  unfold size
  rw [hsame]

/-- The entries of a map, in ascending order of their keys. -/
structure Lists (m : RefMap V) (l : List (Bytes × V)) : Prop where
  ascending : Ascending l
  mem : ∀ key value, (key, value) ∈ l ↔ m.lookup key = some value

namespace Lists

variable {m : RefMap V} {l : List (Bytes × V)} {key : Bytes} {value : V}

/-- The empty map. -/
theorem empty : Lists (∅ : RefMap V) [] := ⟨ascending_nil, fun _ _ => by simp⟩

/-- The length of a listing is the size of the map. -/
theorem size (h : m.Lists l) : m.size = l.length := by
  have hkeys : m.keys = (l.map Prod.fst).toFinset := by
    apply Finset.ext
    intro key
    rw [mem_keys_iff, Option.isSome_iff_exists, List.mem_toFinset]
    constructor
    · rintro ⟨value, hvalue⟩
      exact List.mem_map_of_mem ((h.mem key value).2 hvalue)
    · intro hmem
      obtain ⟨⟨key, value⟩, hentry, rfl⟩ := List.mem_map.1 hmem
      exact ⟨value, (h.mem key value).1 hentry⟩
  unfold RefMap.size
  rw [hkeys, List.toFinset_card_of_nodup h.ascending.nodup_keys, List.length_map]

/-- A map has one listing. -/
theorem unique (h : m.Lists l) {l' : List (Bytes × V)} (h' : m.Lists l') : l = l' :=
  h.ascending.ext h'.ascending fun key value => (h.mem key value).trans (h'.mem key value).symm

/-- A greater key is listed last. -/
theorem push (h : m.Lists l) (hlast : ∀ p ∈ l, p.1 < key) (value : V) :
    (m.setSlot key (some value)).Lists (l ++ [(key, value)]) := by
  refine ⟨List.pairwise_append.2 ⟨h.ascending, List.pairwise_singleton _ _, fun p hp q hq => ?_⟩,
    fun k v => ?_⟩
  · rw [List.mem_singleton.1 hq]
    exact hlast p hp
  · rw [List.mem_append, List.mem_singleton, h.mem, lookup_setSlot]
    by_cases hk : k = key
    · subst hk
      have hnone : m.lookup k ≠ some v := fun hfound => lt_irrefl k (hlast _ ((h.mem k v).2 hfound))
      simp [hnone, eq_comm]
    · simp [hk]

/-- The last value is replaced. -/
theorem set_last (h : m.Lists (l ++ [(key, value)])) (value' : V) :
    (m.setSlot key (some value')).Lists (l ++ [(key, value')]) := by
  obtain ⟨hl, _, hlast⟩ := List.pairwise_append.1 h.ascending
  have hlast : ∀ p ∈ l, p.1 < key := fun p hp => hlast p hp (key, value) (List.mem_singleton_self _)
  have hbefore : (m.setSlot key none).Lists l := by
    refine ⟨hl, fun k v => ?_⟩
    have hmem := h.mem k v
    rw [lookup_setSlot]
    by_cases hk : k = key
    · subst hk
      simp only [if_true, reduceCtorEq, iff_false]
      exact fun hold => lt_irrefl k (hlast _ hold)
    · simpa [hk] using hmem
  have hback : (m.setSlot key none).setSlot key (some value') = m.setSlot key (some value') := by
    apply Finmap.ext_lookup
    intro k
    simp only [lookup_setSlot]
    split <;> rfl
  rw [← hback]
  exact hbefore.push hlast value'

end Lists

end RefMap

end rart
