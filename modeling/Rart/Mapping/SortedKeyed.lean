import Mathlib.Data.List.Find
import Mathlib.Data.List.Induction
import Rart.Lib.SortedAssoc
import Rart.Utils.BitArray
import Rart.Utils.U8Keys

open SortedAssoc
open rart.utils

namespace rart.mapping

/-- `SortedKeyedMapping<N, WIDTH>`: the edge bytes in ascending order in one array, the children
at the same places of another. An uninitialised child is `none`. -/
structure SortedKeyedMapping (N : Type) (WIDTH : Nat) where
  keys : List UInt8
  children : List (Option N)
  num_children : Nat

namespace SortedKeyedMapping

variable {N : Type} {WIDTH : Nat}

/-- Unused keys are 255. -/
def new : SortedKeyedMapping N WIDTH :=
  ⟨List.replicate WIDTH 255, List.replicate WIDTH none, 0⟩

/-- `children[i].assume_init_read()` followed by `children[i] = uninit()`. -/
def take_child (self : SortedKeyedMapping N WIDTH) (i : Nat) :
    Result (N × SortedKeyedMapping N WIDTH) := do
  match ← index self.children i with
  | none => throw .uninit
  | some node => return (node, { self with children := ← index_set self.children i none })

/-- The only child is read out of the first slot. -/
def take_value_for_leaf (self : SortedKeyedMapping N WIDTH) :
    Result ((UInt8 × N) × SortedKeyedMapping N WIDTH) := do
  let (value, self) ← self.take_child 0
  let key ← index self.keys 0
  return ((key, value), { self with num_children := 0 })

/-- Move the key and the child at place `src` to place `dst`. -/
def move_slot (self : SortedKeyedMapping N WIDTH) (src dst : Nat) :
    Result (SortedKeyedMapping N WIDTH) := do
  let keys ← index_set self.keys dst (← index self.keys src)
  let children ← index_set self.children src none
  let children ← index_set children dst (← index self.children src)
  return { self with keys := keys, children := children }

/-- The loop of `from_resized` over `i..km.num_children`. -/
def from_resized {OLD_WIDTH : Nat} (km : SortedKeyedMapping N OLD_WIDTH) :
    Result (SortedKeyedMapping N WIDTH) := do
  let new ← (List.range km.num_children).foldlM
    (fun (new : SortedKeyedMapping N WIDTH) i => do
      let keys ← index_set new.keys i (← index km.keys i)
      let children ← index_set new.children i (← index km.children i)
      return { new with keys := keys, children := children })
    (SortedKeyedMapping.new : SortedKeyedMapping N WIDTH)
  return { new with num_children := km.num_children }

/-- The child is appended, in release builds without a look at the keys before it. -/
def add_child_sorted (self : SortedKeyedMapping N WIDTH) (key : UInt8) (node : N) :
    Result (SortedKeyedMapping N WIDTH) := do
  let idx := self.num_children
  let keys ← index_set self.keys idx key
  let children ← index_set self.children idx (some node)
  return { keys, children, num_children := self.num_children + 1 }

/-- The pairs `SortedKeyedMappingIter` hands out from place `idx` on. -/
def iter_from (self : SortedKeyedMapping N WIDTH) (idx : Nat) : List (UInt8 × N) :=
  if idx ≥ self.num_children then []
  else
    match self.keys[idx]?, (self.children[idx]?).join with
    | some key, some child => (key, child) :: self.iter_from (idx + 1)
    | _, _ => []
termination_by self.num_children - idx

/-- The pairs in the order of their places. -/
def iter (self : SortedKeyedMapping N WIDTH) : List (UInt8 × N) := self.iter_from 0

section NodeMapping

variable [Features]

/-- The slots from the place of the key on move up by one. -/
def add_child (self : SortedKeyedMapping N WIDTH) (key : UInt8) (node : N) :
    Result (SortedKeyedMapping N WIDTH) := do
  let idx ← unwrap (u8_keys_find_insert_position_sorted WIDTH key self.keys self.num_children)
  let self ← (List.range' idx (self.num_children - idx)).reverse.foldlM
    (fun (self : SortedKeyedMapping N WIDTH) i => self.move_slot i (i + 1)) self
  let keys ← index_set self.keys idx key
  let children ← index_set self.children idx (some node)
  return { keys, children, num_children := self.num_children + 1 }

/-- The child at the place of its key. -/
def seek_child (self : SortedKeyedMapping N WIDTH) (key : UInt8) : Option N := do
  let idx ← u8_keys_find_key_position_sorted WIDTH key self.keys self.num_children
  (self.children[idx]?).join

/-- Write through the reference that `seek_child_mut` returns. -/
def write_child (self : SortedKeyedMapping N WIDTH) (key : UInt8) (node : N) :
    SortedKeyedMapping N WIDTH :=
  match u8_keys_find_key_position_sorted WIDTH key self.keys self.num_children with
  | some idx => { self with children := self.children.set idx (some node) }
  | none => self

/-- Writing back what was read changes nothing. -/
theorem write_child_self {self : SortedKeyedMapping N WIDTH} {key : UInt8} {node : N}
    (h : self.seek_child key = some node) : self.write_child key node = self := by
  obtain ⟨idx, hidx, hchild⟩ := Option.bind_eq_some_iff.1 h
  unfold write_child
  rw [hidx]
  dsimp only
  rw [set_of_getElem? (Option.join_eq_some_iff.1 hchild)]

/-- The slots behind the place of the key move down by one, and the last is cleared. -/
def delete_child (self : SortedKeyedMapping N WIDTH) (key : UInt8) :
    Result (Option N × SortedKeyedMapping N WIDTH) := do
  match u8_keys_find_key_position_sorted WIDTH key self.keys self.num_children with
  | none => return (none, self)
  | some idx =>
    let (node, self) ← self.take_child idx
    let self ← (List.range' idx (WIDTH - 1 - idx)).foldlM
      (fun (self : SortedKeyedMapping N WIDTH) i => self.move_slot (i + 1) i) self
    let keys ← index_set self.keys (WIDTH - 1) 255
    let children ← index_set self.children (WIDTH - 1) none
    return (some node, { keys, children, num_children := ← usize_sub self.num_children 1 })

end NodeMapping

/-- The table holds exactly the pairs of an ascending list, at its first places. -/
structure Repr (m : SortedKeyedMapping N WIDTH) (items : List (UInt8 × N)) : Prop where
  ascending : Ascending items
  num_children_eq : m.num_children = items.length
  keys_length : m.keys.length = WIDTH
  children_length : m.children.length = WIDTH
  keys_eq : ∃ tail, m.keys = items.map Prod.fst ++ tail
  children_eq : ∃ free, m.children = items.map (fun p => some p.2) ++ List.replicate free none

namespace Repr

variable {m : SortedKeyedMapping N WIDTH} {items : List (UInt8 × N)}

/-- A table holds no more children than it has slots. -/
theorem length_le (h : m.Repr items) : items.length ≤ WIDTH := by
  obtain ⟨tail, hkeys⟩ := h.keys_eq
  rw [← h.keys_length, hkeys]
  simp

/-- The keys stand in the order of the list. -/
theorem getElem?_keys (h : m.Repr items) {i : Nat} {p : UInt8 × N} (hp : items[i]? = some p) :
    m.keys[i]? = some p.1 := by
  obtain ⟨tail, hkeys⟩ := h.keys_eq
  have hlt := (List.getElem?_eq_some_iff.1 hp).1
  rw [hkeys, List.getElem?_append_left (by simpa using hlt), List.getElem?_map, hp]
  rfl

/-- So do the children. -/
theorem getElem?_children (h : m.Repr items) {i : Nat} {p : UInt8 × N} (hp : items[i]? = some p) :
    m.children[i]? = some (some p.2) := by
  obtain ⟨free, hchildren⟩ := h.children_eq
  have hlt := (List.getElem?_eq_some_iff.1 hp).1
  rw [hchildren, List.getElem?_append_left (by simpa using hlt), List.getElem?_map, hp]
  rfl

/-- The keys in use are sorted, which the searches rely on. -/
theorem sortedUpto (h : m.Repr items) : SortedUpto m.keys m.num_children := by
  intro i j a b hij hj ha hb
  rw [h.num_children_eq] at hj
  have hi : i < items.length := by omega
  rw [h.getElem?_keys (List.getElem?_eq_getElem hi)] at ha
  rw [h.getElem?_keys (List.getElem?_eq_getElem hj)] at hb
  cases ha
  cases hb
  exact List.pairwise_iff_getElem.1 h.ascending i j hi hj hij

/-- The arrays of a table, cut at a place of its list. -/
theorem split {l₁ l₂ : List (UInt8 × N)} (h : m.Repr (l₁ ++ l₂)) :
    ∃ tail free, m = ⟨l₁.map Prod.fst ++ (l₂.map Prod.fst ++ tail),
      l₁.map (fun p => some p.2) ++ (l₂.map (fun p => some p.2) ++ List.replicate free none),
      l₁.length + l₂.length⟩ ∧ tail.length = free ∧ l₁.length + l₂.length + free = WIDTH := by
  obtain ⟨tail, hkeys⟩ := h.keys_eq
  obtain ⟨free, hchildren⟩ := h.children_eq
  have hklen := h.keys_length
  have hclen := h.children_length
  have hnum := h.num_children_eq
  obtain ⟨keys, children, num⟩ := m
  simp only at hkeys hchildren hnum hklen hclen
  subst hkeys hchildren hnum
  simp only [List.length_append, List.length_map, List.length_replicate] at hklen hclen
  refine ⟨tail, free, ?_, by omega, by omega⟩
  simp

/-- The iterator hands out the list. -/
theorem iter_eq (h : m.Repr items) : m.iter = items := by
  have hfrom : ∀ k idx, idx + k = items.length → m.iter_from idx = items.drop idx := by
    intro k
    induction k with
    | zero =>
      intro idx hidx
      rw [iter_from, h.num_children_eq, if_pos (by omega), List.drop_eq_nil_of_le (by omega)]
    | succ k ih =>
      intro idx hidx
      have hlt : idx < items.length := by omega
      have hget := List.getElem?_eq_getElem hlt
      rw [iter_from, h.num_children_eq, if_neg (by omega), h.getElem?_keys hget,
        h.getElem?_children hget, ih (idx + 1) (by omega), List.drop_eq_getElem_cons hlt]
      rfl
  exact hfrom items.length 0 (by omega)

/-- Taking the child at a place of the list leaves a hole there. -/
theorem take_child (l₁ : List (UInt8 × N)) {l₂ : List (UInt8 × N)} {key : UInt8} {node : N}
    (h : m.Repr (l₁ ++ (key, node) :: l₂)) : ∃ tail free,
    m.take_child l₁.length = .ok (node,
      ⟨l₁.map Prod.fst ++ key :: (l₂.map Prod.fst ++ tail),
        l₁.map (fun p => some p.2) ++ none :: (l₂.map (fun p => some p.2) ++ List.replicate free none),
        l₁.length + l₂.length + 1⟩) ∧ tail.length = free ∧ l₁.length + l₂.length + 1 + free = WIDTH := by
  obtain ⟨tail, free, hm, htail, hwide⟩ := h.split
  refine ⟨tail, free, ?_, htail, by simp at hwide; omega⟩
  unfold SortedKeyedMapping.take_child
  rw [hm]
  simp [index, index_set, List.set_append_right]
  omega

/-- Of one child, the key and the child are returned. -/
theorem take_value_for_leaf {key : UInt8} {node : N} (h : m.Repr [(key, node)]) :
    ∃ m', m.take_value_for_leaf = .ok ((key, node), m') := by
  obtain ⟨tail, free, htake, _, _⟩ := take_child [] h
  unfold SortedKeyedMapping.take_value_for_leaf
  simp only [List.length_nil] at htake
  rw [htake]
  exact ⟨_, rfl⟩

/-- Appending a greater key keeps the order. -/
theorem add_child_sorted (h : m.Repr items) {key : UInt8} (node : N)
    (hlarge : ∀ p ∈ items, p.1 < key) (hroom : items.length < WIDTH) :
    ∃ m', m.add_child_sorted key node = .ok m' ∧ m'.Repr (items ++ [(key, node)]) := by
  have h' : m.Repr (items ++ []) := by simpa using h
  obtain ⟨tail, free, hm, htail, hwide⟩ := h'.split
  simp only [List.length_nil, Nat.add_zero] at hwide
  obtain ⟨y, tail, rfl⟩ := List.exists_cons_of_length_eq_add_one (show tail.length = (free - 1) + 1 by omega)
  obtain ⟨free, rfl⟩ : ∃ k, free = k + 1 := ⟨free - 1, by omega⟩
  have hkeys := index_set_append_cons (items.map Prod.fst) y key tail
  have hchildren := index_set_append_cons (items.map fun p => some p.2) none (some node)
    (List.replicate free none)
  rw [List.length_map] at hkeys hchildren
  refine ⟨⟨items.map Prod.fst ++ key :: tail,
    items.map (fun p => some p.2) ++ some node :: List.replicate free none, items.length + 1⟩, ?_, ?_⟩
  · unfold SortedKeyedMapping.add_child_sorted
    rw [hm]
    simp only [List.map_nil, List.nil_append, List.length_nil, Nat.add_zero, List.replicate_succ]
    rw [hkeys, ok_bind, hchildren]
    rfl
  · refine {
      ascending := List.pairwise_append.2 ⟨h.ascending, by simp, ?_⟩
      num_children_eq := by simp
      keys_length := by simp at htail ⊢; omega
      children_length := by simp; omega
      keys_eq := ⟨tail, by simp⟩
      children_eq := ⟨free, by simp⟩ }
    intro p hp q hq
    rw [List.mem_singleton.1 hq]
    exact hlarge p hp

/-- Copying to another width keeps the pairs. -/
theorem from_resized (NEW_WIDTH : Nat) (h : m.Repr items) (hroom : items.length ≤ NEW_WIDTH) :
    ∃ m' : SortedKeyedMapping N NEW_WIDTH, SortedKeyedMapping.from_resized m = .ok m' ∧
      m'.Repr items := by
  have hloop : ∀ k ≤ items.length, (List.range k).foldlM
      (fun (new : SortedKeyedMapping N NEW_WIDTH) i => do
        let keys ← index_set new.keys i (← index m.keys i)
        let children ← index_set new.children i (← index m.children i)
        return { new with keys := keys, children := children })
      (SortedKeyedMapping.new : SortedKeyedMapping N NEW_WIDTH) =
      .ok ⟨(items.take k).map Prod.fst ++ List.replicate (NEW_WIDTH - k) 255,
        (items.take k).map (fun p => some p.2) ++ List.replicate (NEW_WIDTH - k) none, 0⟩ := by
    intro k
    induction k with
    | zero =>
      intro _
      simp [SortedKeyedMapping.new]
    | succ k ih =>
      intro hk
      have hlt : k < items.length := by omega
      have hget := List.getElem?_eq_getElem hlt
      have hfree : NEW_WIDTH - k = NEW_WIDTH - (k + 1) + 1 := by omega
      have hlen : (items.take k).length = k := by simp; omega
      have hkeys := index_set_append_cons ((items.take k).map Prod.fst) 255 items[k].1
        (List.replicate (NEW_WIDTH - (k + 1)) 255)
      have hchildren := index_set_append_cons ((items.take k).map fun p => some p.2) none
        (some items[k].2) (List.replicate (NEW_WIDTH - (k + 1)) none)
      rw [List.length_map, hlen] at hkeys hchildren
      rw [List.range_succ, List.foldlM_append, ih (by omega), ok_bind, hfree]
      simp only [List.foldlM_cons, List.foldlM_nil, List.replicate_succ, List.take_succ_eq_append_getElem hlt,
        List.map_append, List.map_cons, List.map_nil, List.append_assoc, List.singleton_append]
      rw [index_eq_ok (h.getElem?_keys hget), ok_bind, hkeys, ok_bind,
        index_eq_ok (h.getElem?_children hget), ok_bind, hchildren]
      rfl
  have hall := hloop items.length (le_refl _)
  rw [List.take_length] at hall
  refine ⟨⟨items.map Prod.fst ++ List.replicate (NEW_WIDTH - items.length) 255,
    items.map (fun p => some p.2) ++ List.replicate (NEW_WIDTH - items.length) none, items.length⟩,
    ?_, ?_⟩
  · unfold SortedKeyedMapping.from_resized
    rw [h.num_children_eq, hall]
    rfl
  · exact {
      ascending := h.ascending
      num_children_eq := rfl
      keys_length := by simp; omega
      children_length := by simp; omega
      keys_eq := ⟨_, rfl⟩
      children_eq := ⟨_, rfl⟩ }

/-- A new table stands for the empty list. -/
theorem new : (SortedKeyedMapping.new : SortedKeyedMapping N WIDTH).Repr [] where
  ascending := ascending_nil
  num_children_eq := rfl
  keys_length := by simp [SortedKeyedMapping.new]
  children_length := by simp [SortedKeyedMapping.new]
  keys_eq := ⟨_, rfl⟩
  children_eq := ⟨WIDTH, rfl⟩

end Repr

section Moves

/-- The slot at the boundary moves up into the hole above it. -/
theorem move_slot_right {as cs : List UInt8} {x y : UInt8} {cas ccs : List (Option N)}
    {cx cy : Option N} (hlen : cas.length = as.length) (num : Nat) :
    move_slot (⟨as ++ x :: y :: cs, cas ++ cx :: cy :: ccs, num⟩ : SortedKeyedMapping N WIDTH)
      as.length (as.length + 1) =
      .ok ⟨as ++ x :: x :: cs, cas ++ none :: cx :: ccs, num⟩ := by
  unfold move_slot index index_set
  simp [List.set_append_right, hlen]

/-- The slot behind the boundary moves down into the hole below it. -/
theorem move_slot_left {as cs : List UInt8} {x y : UInt8} {cas ccs : List (Option N)}
    {cx cy : Option N} (hlen : cas.length = as.length) (num : Nat) :
    move_slot (⟨as ++ x :: y :: cs, cas ++ cx :: cy :: ccs, num⟩ : SortedKeyedMapping N WIDTH)
      (as.length + 1) as.length =
      .ok ⟨as ++ y :: y :: cs, cas ++ cy :: none :: ccs, num⟩ := by
  unfold move_slot index index_set
  simp [List.set_append_right, hlen]

/-- Moving a block one place to the right, last slot first, frees its first place. -/
theorem shift_right_spec {as bs cs : List UInt8} {y : UInt8} {cas cbs ccs : List (Option N)}
    {cy : Option N} (hlen : cas.length = as.length) (hblock : cbs.length = bs.length) (num : Nat) :
    ∃ z cz, (List.range' as.length bs.length).reverse.foldlM
        (fun (self : SortedKeyedMapping N WIDTH) i => self.move_slot i (i + 1))
        ⟨as ++ (bs ++ y :: cs), cas ++ (cbs ++ cy :: ccs), num⟩ =
      .ok ⟨as ++ z :: (bs ++ cs), cas ++ cz :: (cbs ++ ccs), num⟩ := by
  induction bs using List.reverseRecOn generalizing y cs cbs cy ccs with
  | nil =>
    have hnil : cbs = [] := List.eq_nil_of_length_eq_zero (by simpa using hblock)
    subst hnil
    exact ⟨y, cy, by simp⟩
  | append_singleton bs b ih =>
    have hne : cbs ≠ [] := fun hnil => by
      rw [hnil] at hblock
      simp at hblock
    obtain ⟨cbs, cb, rfl⟩ : ∃ front last, cbs = front ++ [last] :=
      ⟨_, _, (List.dropLast_append_getLast hne).symm⟩
    have hblock' : cbs.length = bs.length := by simpa using hblock
    obtain ⟨z, cz, hz⟩ := @ih (b :: cs) b cbs (cb :: ccs) none hblock'
    refine ⟨z, cz, ?_⟩
    have hrange : (List.range' as.length (bs ++ [b]).length).reverse =
        (as ++ bs).length :: (List.range' as.length bs.length).reverse := by
      rw [List.length_append, List.length_singleton, List.range'_concat, List.reverse_append]
      simp
    have hmove := @move_slot_right N WIDTH (as ++ bs) cs b y (cas ++ cbs) ccs cb cy (by simp [hlen, hblock']) num
    simp only [List.append_assoc] at hmove
    rw [hrange, List.foldlM_cons]
    simp only [List.append_assoc, List.singleton_append]
    rw [hmove, ok_bind, hz]

/-- Moving everything behind a place one to the left overwrites that place. -/
theorem shift_left_spec {as bs : List UInt8} {x : UInt8} {cas cbs : List (Option N)}
    (hlen : cas.length = as.length) (hblock : cbs.length = bs.length) (num : Nat) :
    ∃ z, (List.range' as.length bs.length).foldlM
        (fun (self : SortedKeyedMapping N WIDTH) i => self.move_slot (i + 1) i)
        ⟨as ++ x :: bs, cas ++ none :: cbs, num⟩ =
      .ok ⟨as ++ (bs ++ [z]), cas ++ (cbs ++ [none]), num⟩ := by
  induction bs generalizing as x cas cbs with
  | nil =>
    have hnil : cbs = [] := List.eq_nil_of_length_eq_zero (by simpa using hblock)
    subst hnil
    exact ⟨x, by simp⟩
  | cons b bs ih =>
    obtain ⟨cb, cbs, rfl⟩ := List.exists_cons_of_length_eq_add_one hblock
    have hblock' : cbs.length = bs.length := by simpa using hblock
    obtain ⟨z, hz⟩ := @ih (as ++ [b]) b (cas ++ [cb]) cbs (by simp [hlen]) hblock'
    refine ⟨z, ?_⟩
    rw [List.length_cons, List.range'_succ, List.foldlM_cons, move_slot_left hlen, ok_bind]
    simpa using hz

end Moves

section Search

variable [Features] {m : SortedKeyedMapping N WIDTH} {items : List (UInt8 × N)}

/-- The search of the array is a search of the list. -/
theorem Repr.find_key_position_eq (h : m.Repr items) (hwidth : WIDTH ≤ 16) (key : UInt8) :
    u8_keys_find_key_position_sorted WIDTH key m.keys m.num_children =
      (List.range items.length).find? (fun i => decide ((items[i]?).map Prod.fst = some key)) := by
  have hle := h.length_le
  rw [u8_keys_find_key_position_sorted_eq h.sortedUpto (by rw [h.num_children_eq]; omega)
    (by rw [h.num_children_eq, h.keys_length]; exact hle), h.num_children_eq]
  refine List.find?_congr fun i hi => ?_
  have hget := List.getElem?_eq_getElem (List.mem_range.1 hi)
  rw [h.getElem?_keys hget, hget]
  rfl

/-- A key that is not in the list has no place. -/
theorem Repr.find_key_position_none (h : m.Repr items) (hwidth : WIDTH ≤ 16) {key : UInt8}
    (hkey : items.lookup key = none) :
    u8_keys_find_key_position_sorted WIDTH key m.keys m.num_children = none := by
  rw [h.find_key_position_eq hwidth, List.find?_eq_none]
  intro i hi hp
  rw [decide_eq_true_eq, Option.map_eq_some_iff] at hp
  obtain ⟨p, hp, rfl⟩ := hp
  exact lookup_eq_none_iff.1 hkey (List.mem_map.2 ⟨p, List.mem_of_getElem? hp, rfl⟩)

/-- The place of a key is the number of pairs before it. -/
theorem Repr.find_key_position_split {l₁ l₂ : List (UInt8 × N)} {key : UInt8} {node : N}
    (h : m.Repr (l₁ ++ (key, node) :: l₂)) (hwidth : WIDTH ≤ 16) :
    u8_keys_find_key_position_sorted WIDTH key m.keys m.num_children = some l₁.length := by
  rw [h.find_key_position_eq hwidth, List.find?_range_eq_some]
  refine ⟨by simp, by simp, ?_⟩
  intro i hi
  have hlt := (List.pairwise_append.1 h.ascending).2.2 l₁[i] (List.getElem_mem hi) (key, node) (by simp)
  rw [List.getElem?_append_left hi, List.getElem?_eq_getElem hi]
  simpa using hlt.ne

/-- A new key belongs behind the smaller ones. -/
theorem Repr.find_insert_position {l₁ l₂ : List (UInt8 × N)} {key : UInt8} (h : m.Repr (l₁ ++ l₂))
    (hwidth : WIDTH ≤ 16) (hsmall : ∀ p ∈ l₁, p.1 < key) (hlarge : ∀ p ∈ l₂, key < p.1) :
    u8_keys_find_insert_position_sorted WIDTH key m.keys m.num_children = some l₁.length := by
  have hle := h.length_le
  rw [u8_keys_find_insert_position_sorted_eq (by rw [h.num_children_eq]; omega)
    (by rw [h.num_children_eq, h.keys_length]; exact hle), h.num_children_eq]
  have hcongr : (List.range (l₁ ++ l₂).length).find? (fun i => (m.keys[i]?).any (key < ·)) =
      (List.range (l₁ ++ l₂).length).find? (fun i => ((l₁ ++ l₂)[i]?).any (key < ·.1)) := by
    refine List.find?_congr fun i hi => ?_
    have hget := List.getElem?_eq_getElem (List.mem_range.1 hi)
    rw [h.getElem?_keys hget, hget]
    rfl
  have hbelow : ∀ i < l₁.length, ((l₁ ++ l₂)[i]?).any (key < ·.1) = false := fun i hi => by
    have hlt := hsmall _ (List.getElem_mem hi)
    rw [List.getElem?_append_left hi, List.getElem?_eq_getElem hi]
    simpa using hlt.le
  rw [hcongr]
  cases l₂ with
  | nil =>
    have hnone : (List.range (l₁ ++ []).length).find?
        (fun i => ((l₁ ++ [])[i]?).any (key < ·.1)) = none := by
      rw [List.find?_eq_none]
      intro i hi
      rw [hbelow i (by simpa using hi)]
      exact Bool.false_ne_true
    rw [hnone, List.append_nil]
    rfl
  | cons q l₂ =>
    have hsome : (List.range (l₁ ++ q :: l₂).length).find?
        (fun i => ((l₁ ++ q :: l₂)[i]?).any (key < ·.1)) = some l₁.length := by
      rw [List.find?_range_eq_some]
      refine ⟨?_, by simp, ?_⟩
      · simpa using hlarge q (by simp)
      · intro i hi
        rw [hbelow i hi]
        rfl
    rw [hsome]
    rfl

/-- A search for a child is a lookup in the list. -/
theorem Repr.seek_child (h : m.Repr items) (hwidth : WIDTH ≤ 16) (key : UInt8) :
    m.seek_child key = items.lookup key := by
  unfold SortedKeyedMapping.seek_child
  cases hkey : items.lookup key with
  | none =>
    rw [h.find_key_position_none hwidth hkey]
    rfl
  | some node =>
    obtain ⟨l₁, l₂, rfl, _⟩ := List.lookup_eq_some_iff.1 hkey
    have hget : (l₁ ++ (key, node) :: l₂)[l₁.length]? = some (key, node) := by simp
    rw [h.find_key_position_split hwidth]
    change (m.children[l₁.length]?).join = some node
    rw [h.getElem?_children hget]
    rfl

/-- Adding a child inserts its pair into the list. -/
theorem Repr.add_child (h : m.Repr items) (hwidth : WIDTH ≤ 16) {key : UInt8} (node : N)
    (hkey : items.lookup key = none) (hroom : items.length < WIDTH) :
    ∃ m', m.add_child key node = .ok m' ∧ m'.Repr (insertSorted key node items) := by
  have hasc := h.ascending.insertSorted (lookup_eq_none_iff.1 hkey) node
  obtain ⟨l₁, l₂, rfl, hins, hsmall, hlarge⟩ := h.ascending.insertSorted_split hkey node
  have hpos := h.find_insert_position hwidth hsmall hlarge
  rw [hins] at hasc ⊢
  obtain ⟨tail, free, hm, htail, hwide⟩ := h.split
  rw [List.length_append] at hroom
  -- there is room for one more, so the tail has a first place
  obtain ⟨y, tail, rfl⟩ := List.exists_cons_of_length_eq_add_one (show tail.length = (free - 1) + 1 by omega)
  obtain ⟨free, rfl⟩ : ∃ k, free = k + 1 := ⟨free - 1, by omega⟩
  unfold SortedKeyedMapping.add_child
  rw [hpos, unwrap_some, ok_bind]
  obtain ⟨z, cz, hshift⟩ := @shift_right_spec N WIDTH (l₁.map Prod.fst) (l₂.map Prod.fst) tail y
    (l₁.map fun p => some p.2) (l₂.map fun p => some p.2) (List.replicate free none) none
    (by simp) (by simp) (l₁.length + l₂.length)
  have hcount : m.num_children - l₁.length = l₂.length := by rw [hm]; simp
  rw [List.length_map, List.length_map] at hshift
  rw [hcount, hm, List.replicate_succ, hshift, ok_bind]
  refine ⟨⟨l₁.map Prod.fst ++ key :: (l₂.map Prod.fst ++ tail),
    l₁.map (fun p => some p.2) ++ some node :: (l₂.map (fun p => some p.2) ++ List.replicate free none),
    l₁.length + l₂.length + 1⟩, ?_, ?_⟩
  · simp [index_set, List.set_append_right]
  · exact {
      ascending := hasc
      num_children_eq := by simp; omega
      keys_length := by simp at hwide htail ⊢; omega
      children_length := by simp at hwide htail ⊢; omega
      keys_eq := ⟨tail, by simp⟩
      children_eq := ⟨free, by simp⟩ }

/-- Writing a child replaces it in the list. -/
theorem Repr.write_child (h : m.Repr items) (hwidth : WIDTH ≤ 16) (key : UInt8) (node : N) :
    (m.write_child key node).Repr (setKey key node items) := by
  unfold SortedKeyedMapping.write_child
  cases hkey : items.lookup key with
  | none =>
    rw [h.find_key_position_none hwidth hkey]
    rw [setKey_eq_self hkey]
    exact h
  | some old =>
    obtain ⟨l₁, l₂, rfl, _⟩ := List.lookup_eq_some_iff.1 hkey
    rw [h.find_key_position_split hwidth]
    have hasc := h.ascending.setKey key node
    obtain ⟨tail, free, hm, htail, hwide⟩ := h.split
    rw [setKey_append_cons h.ascending] at hasc ⊢
    rw [hm]
    simp only [List.length_cons] at hwide
    exact {
      ascending := hasc
      num_children_eq := by simp
      keys_length := by simp; omega
      children_length := by simp; omega
      keys_eq := ⟨tail, by simp⟩
      children_eq := ⟨free, by simp [List.set_append_right]⟩ }

/-- Deleting a key that is not there changes nothing. -/
theorem Repr.delete_child_none (h : m.Repr items) (hwidth : WIDTH ≤ 16) {key : UInt8}
    (hkey : items.lookup key = none) : m.delete_child key = .ok (none, m) := by
  unfold SortedKeyedMapping.delete_child
  rw [h.find_key_position_none hwidth hkey]
  rfl

/-- Deleting a child erases its pair from the list. -/
theorem Repr.delete_child (h : m.Repr items) (hwidth : WIDTH ≤ 16) {key : UInt8} {node : N}
    (hkey : items.lookup key = some node) :
    ∃ m', m.delete_child key = .ok (some node, m') ∧ m'.Repr (eraseKey key items) := by
  obtain ⟨l₁, l₂, rfl, _⟩ := List.lookup_eq_some_iff.1 hkey
  obtain ⟨tail, free, htake, htail, hwide⟩ := take_child _ h
  have hasc := h.ascending.eraseKey key
  rw [eraseKey_append_cons _ h.ascending] at hasc ⊢
  obtain ⟨z, hshift⟩ := @shift_left_spec N WIDTH (l₁.map Prod.fst) (l₂.map Prod.fst ++ tail) key
    (l₁.map fun p => some p.2) (l₂.map (fun p => some p.2) ++ List.replicate free none)
    (by simp) (by simp [htail]) (l₁.length + l₂.length + 1)
  have hcount : WIDTH - 1 - l₁.length = (l₂.map Prod.fst ++ tail).length := by
    simp only [List.length_append, List.length_map]
    omega
  rw [List.length_map] at hshift
  refine ⟨⟨l₁.map Prod.fst ++ (l₂.map Prod.fst ++ tail) ++ [255],
    l₁.map (fun p => some p.2) ++ (l₂.map (fun p => some p.2) ++ List.replicate free none) ++ [none],
    l₁.length + l₂.length⟩, ?_, ?_⟩
  · unfold SortedKeyedMapping.delete_child
    rw [h.find_key_position_split hwidth]
    dsimp only
    rw [htake, ok_bind]
    dsimp only
    rw [hcount, hshift, ok_bind]
    have hkeys := index_set_append_cons (l₁.map Prod.fst ++ (l₂.map Prod.fst ++ tail)) z 255 []
    have hchildren := index_set_append_cons (l₁.map (fun p : UInt8 × N => some p.2) ++
      (l₂.map (fun p : UInt8 × N => some p.2) ++ List.replicate free none)) none none []
    have hlast : (l₁.map Prod.fst ++ (l₂.map Prod.fst ++ tail)).length = WIDTH - 1 := by
      simp only [List.length_append, List.length_map]
      omega
    have hlast' : (l₁.map (fun p : UInt8 × N => some p.2) ++ (l₂.map (fun p : UInt8 × N => some p.2) ++
        List.replicate free none)).length = WIDTH - 1 := by
      simp only [List.length_append, List.length_map, List.length_replicate]
      omega
    rw [hlast, List.append_assoc] at hkeys
    rw [hlast', List.append_assoc] at hchildren
    dsimp only
    rw [hkeys, ok_bind, hchildren, ok_bind, usize_sub_eq_ok (by omega)]
    simp
  · exact {
      ascending := hasc
      num_children_eq := by simp
      keys_length := by simp; omega
      children_length := by simp; omega
      keys_eq := ⟨tail ++ [255], by simp⟩
      children_eq := ⟨free + 1, by simp [List.replicate_succ']⟩ }

end Search

end SortedKeyedMapping

end rart.mapping
