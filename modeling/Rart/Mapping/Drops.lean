import Mathlib.Data.List.ReduceOption
import Rart.Mapping.Copies
import Rart.Utils.BitsetRuns

open SortedAssoc
open rart.utils

namespace rart.utils

/-- `assume_init_ref` and its kin, on a slot. -/
def assume_init {X : Type} : Option X → Result X
  | some x => .ok x
  | none => .error .uninit

theorem mapM_assume_init {X : Type} (l : List X) : (l.map some).mapM assume_init = .ok l := by
  rw [List.mapM_map]
  exact (List.mapM_pure (f := id) (l := l)).trans (by rw [List.map_id]; rfl)

namespace BitArray

variable {X : Type}

/-- One round of the loop of `clear`: a marked slot is dropped in place, and holds nothing from
then on. The compiler drops no slot by itself, since none need be initialised. -/
def drop_slot (state : List X × BitArray X) (i : Nat) : Result (List X × BitArray X) :=
  if state.2.bitset.check i then do
    let (x, self) ← state.2.take_known_present i
    return (state.1 ++ [x], self)
  else return state

/-- What is dropped, and the array without it. -/
def clear (self : BitArray X) : Result (List X × BitArray X) := do
  let (dropped, self) ← (List.range self.storage.length).foldlM drop_slot ([], self)
  return (dropped, { self with bitset := self.bitset.clear })

/-- `Drop` has the body of `clear`. -/
def drop (self : BitArray X) : Result (List X) := do
  let (dropped, _) ← self.clear
  return dropped

/-- The initialised slots, whatever the bitset says. -/
def held (self : BitArray X) : List X := self.storage.reduceOption

/-- What an array holds is in the slots that its bits say are initialised. -/
theorem held_eq_filterMap (self : BitArray X) :
    self.held = (List.range self.storage.length).filterMap self.get_known_present := by
  have hstorage : self.storage = (List.range self.storage.length).map self.get_known_present := by
    apply List.ext_getElem (by simp)
    intro pos hpos _
    simp [get_known_present, hpos]
  unfold held List.reduceOption
  conv_lhs => rw [hstorage]
  rw [List.filterMap_map]
  rfl

/-- The slots in use, in any order. -/
theorem held_perm {self : BitArray X} {places : List (Nat × X)} (hnodup : (places.map Prod.fst).Nodup)
    (hplaces : ∀ pos x, (pos, x) ∈ places ↔ self.get_known_present pos = some x) :
    self.held.Perm (places.map Prod.snd) := by
  let slots := (List.range self.storage.length).filterMap fun pos =>
    (self.get_known_present pos).map (Prod.mk pos)
  have hslots : self.held = slots.map Prod.snd := by
    rw [held_eq_filterMap, List.map_filterMap]
    congr 1
    funext pos
    cases self.get_known_present pos <;> rfl
  have hdistinct : slots.Nodup := by
    refine List.Nodup.filterMap (fun a a' b ha ha' => ?_) List.nodup_range
    obtain ⟨_, _, rfl⟩ := Option.map_eq_some_iff.1 ha
    obtain ⟨_, _, heq⟩ := Option.map_eq_some_iff.1 ha'
    exact (Prod.mk.inj heq).1.symm
  have hmem : ∀ e, e ∈ slots ↔ e ∈ places := by
    rintro ⟨pos, x⟩
    rw [hplaces, List.mem_filterMap]
    constructor
    · rintro ⟨p, _, hp⟩
      obtain ⟨y, hy, heq⟩ := Option.map_eq_some_iff.1 hp
      cases heq
      exact hy
    · intro hx
      exact ⟨pos, List.mem_range.2 (lt_of_get_known_present hx), by rw [hx]; rfl⟩
  rw [hslots]
  exact ((List.perm_ext_iff_of_nodup hdistinct hnodup.of_map).2 hmem).map Prod.snd

/-- An array without bits holds nothing. -/
theorem held_eq_nil {self : BitArray X} (h : ∀ pos, self.get_known_present pos = none) : self.held = [] := by
  rw [held_eq_filterMap, List.filterMap_eq_nil_iff]
  exact fun pos _ => h pos

namespace Valid

variable {self : BitArray X} (hvalid : self.Valid)
include hvalid

/-- The loop goes up to a slot: what was held below it is dropped. -/
theorem drop_slots {n : Nat} (hn : n ≤ self.storage.length) :
    (List.range n).foldlM drop_slot ([], self) = .ok ((self.storage.take n).reduceOption,
      ⟨self.bitset, List.replicate n none ++ self.storage.drop n⟩) := by
  induction n with
  | zero => rfl
  | succ n ih =>
    have hlt : n < self.storage.length := hn
    rw [List.range_succ, List.foldlM_append, ih hlt.le, ok_bind, List.foldlM_cons, drop_slot]
    have hmarked := hvalid.marked n
    unfold get_known_present at hmarked
    rw [List.getElem?_eq_getElem hlt, Option.join_some] at hmarked
    have hreplicate : List.replicate (n + 1) (none : Option X) = List.replicate n none ++ [none] :=
      List.replicate_succ'
    rw [List.drop_eq_getElem_cons hlt, List.take_succ_eq_append_getElem hlt, List.reduceOption_append,
      hreplicate, List.append_assoc]
    dsimp only
    rw [hmarked]
    cases hslot : self.storage[n] with
    | none => simp
    | some x =>
      have hread := index_append_length (List.replicate n none) (some x) (self.storage.drop (n + 1))
      have hwrite := index_set_append_cons (List.replicate n none) (some x) none (self.storage.drop (n + 1))
      rw [List.length_replicate] at hread hwrite
      simp [take_known_present, hread, hwrite]

/-- `clear` drops what the array holds, each value once. -/
theorem clear : ∃ a, self.clear = .ok (self.held, a) ∧ a.Valid ∧
    a.storage.length = self.storage.length ∧ ∀ pos, a.get_known_present pos = none := by
  have hloop := hvalid.drop_slots (Nat.le_refl _)
  rw [List.take_length, List.drop_length, List.append_nil] at hloop
  have hempty : ∀ pos, get_known_present
      ⟨self.bitset.clear, List.replicate self.storage.length (none : Option X)⟩ pos = none := by
    intro pos
    unfold get_known_present
    rw [List.getElem?_replicate]
    split <;> rfl
  refine ⟨⟨self.bitset.clear, List.replicate self.storage.length none⟩, ?_, ⟨?_, fun pos => ?_⟩,
    List.length_replicate, hempty⟩
  · unfold BitArray.clear
    rw [hloop]
    rfl
  · simpa [Bitset.clear, Bitset.capacity] using hvalid.covered
  · rw [hempty]
    exact Bitset.check_clear self.bitset pos

/-- Dropping a sound array drops what it holds, and reads no other slot. -/
theorem drop : self.drop = .ok self.held := by
  obtain ⟨a, hclear, _⟩ := hvalid.clear
  unfold BitArray.drop
  rw [hclear]
  rfl

end Valid

end BitArray

end rart.utils

namespace rart.mapping

section Drops

variable {N : Type} {WIDTH : Nat}

def SortedKeyedMapping.drop (self : SortedKeyedMapping N WIDTH) : Result (List N) := do
  let live ← slice_to self.children self.num_children
  live.mapM assume_init

/-- The body of `Drop`, then the `Drop`s of the two arrays. -/
def IndexedMapping.drop (self : IndexedMapping N WIDTH) : Result (List N) := do
  let (dropped, self) ←
    if self.num_children = 0 then pure ([], self)
    else do
      let (_, child_ptr_indexes) ← self.child_ptr_indexes.clear
      let (dropped, children) ← self.children.clear
      pure (dropped, { child_ptr_indexes, children, num_children := 0 : IndexedMapping N WIDTH })
  let _ ← self.child_ptr_indexes.drop
  return dropped ++ (← self.children.drop)

def DirectMapping.drop (self : DirectMapping N) : Result (List N) := self.children.drop

variable {items : List (UInt8 × N)}

/-- The children are dropped in the order of their edges. -/
theorem SortedKeyedMapping.Repr.drop {m : SortedKeyedMapping N WIDTH} (h : m.Repr items) :
    m.drop = .ok (items.map Prod.snd) := by
  obtain ⟨free, hchildren⟩ := h.children_eq
  have hlive : items.map (fun p => some p.2) = (items.map Prod.snd).map some := by
    rw [List.map_map]
    rfl
  unfold SortedKeyedMapping.drop
  rw [slice_to_eq_ok (by rw [h.children_length, h.num_children_eq]; exact h.length_le), ok_bind,
    h.num_children_eq, hchildren, List.take_left' (by simp), hlive]
  exact mapM_assume_init _

/-- The widest table holds its children and nothing else. -/
theorem Maps.held_perm {array : BitArray N} (h : Maps array items) : array.held.Perm (items.map Prod.snd) := by
  have hperm := @BitArray.held_perm _ array (items.map fun p => (p.1.toNat, p.2)) ?_ ?_
  · rw [List.map_map] at hperm
    exact hperm
  · have hnodup := List.Nodup.map (f := UInt8.toNat) (fun a b hab => UInt8.toNat_inj.1 hab) h.ascending.nodup_keys
    rwa [List.map_map] at hnodup ⊢
  · intro pos x
    rw [List.mem_map]
    constructor
    · rintro ⟨p, hp, heq⟩
      cases heq
      rw [← h.lookup_eq]
      exact h.ascending.lookup_eq_some_iff.2 hp
    · intro hx
      have hlt := BitArray.lt_of_get_known_present hx
      rw [h.width] at hlt
      have hpos : (UInt8.ofNat pos).toNat = pos := UInt8.toNat_ofNat_of_lt' hlt
      refine ⟨(UInt8.ofNat pos, x), h.ascending.lookup_eq_some_iff.1 ?_, by rw [hpos]⟩
      rw [h.lookup_eq, hpos]
      exact hx

/-- The slots in use hold the children, in the order in which these came to their slots. -/
theorem Slots.held_perm {idx : BitArray UInt8} {children : BitArray N} (h : Slots WIDTH idx children items) :
    children.held.Perm (items.map Prod.snd) := by
  have hslots : ∀ p ∈ items, ∃ slot : UInt8, idx.get_known_present p.1.toNat = some slot ∧
      children.get_known_present slot.toNat = some p.2 := fun p hp =>
    h.ptr_of_lookup (h.ascending.lookup_eq_some_iff.2 hp)
  choose! slot hslot hchild using hslots
  have hperm := @BitArray.held_perm _ children (items.map fun p => ((slot p).toNat, p.2)) ?_ ?_
  · rw [List.map_map] at hperm
    exact hperm
  · rw [List.map_map]
    refine List.Nodup.map_on (fun p hp q hq heq => ?_) h.ascending.nodup_keys.of_map
    have hsame := hslot p hp
    rw [UInt8.toNat_inj.1 heq] at hsame
    have hkey := h.distinct _ _ _ hsame (hslot q hq)
    have hnode := hchild p hp
    rw [UInt8.toNat_inj.1 heq, hchild q hq] at hnode
    exact Prod.ext hkey (Option.some.inj hnode).symm
  · intro pos node
    rw [List.mem_map]
    constructor
    · rintro ⟨p, hp, heq⟩
      cases heq
      exact hchild p hp
    · intro hnode
      obtain ⟨key, ptr, hptr, rfl⟩ := h.used pos node hnode
      have hmem : (key, node) ∈ items :=
        h.ascending.lookup_eq_some_iff.1 (by rw [h.lookup_eq, hptr, Option.bind_some, hnode])
      have hsame := hslot _ hmem
      rw [hptr] at hsame
      exact ⟨_, hmem, by rw [← Option.some.inj hsame]⟩

/-- A middle table is dropped with its children, each once. -/
theorem IndexedMapping.Repr.drop {m : IndexedMapping N WIDTH} (h : m.Repr items) :
    ∃ dropped, m.drop = .ok dropped ∧ dropped.Perm (items.map Prod.snd) := by
  obtain ⟨ptrs, hptrs⟩ := h.slots.ptrs
  unfold IndexedMapping.drop
  by_cases hzero : m.num_children = 0
  · refine ⟨m.children.held, ?_, h.slots.held_perm⟩
    rw [if_pos hzero, pure_eq_ok, ok_bind]
    dsimp only
    rw [hptrs.valid.drop, ok_bind, h.slots.valid.drop]
    rfl
  · obtain ⟨idx, hidx, hidxvalid, _⟩ := hptrs.valid.clear
    obtain ⟨children, hchildren, hvalid, _, hempty⟩ := h.slots.valid.clear
    refine ⟨m.children.held, ?_, h.slots.held_perm⟩
    rw [if_neg hzero, hidx, ok_bind]
    dsimp only
    rw [hchildren, ok_bind]
    dsimp only
    rw [pure_eq_ok, ok_bind]
    dsimp only
    rw [hidxvalid.drop, ok_bind, hvalid.drop, ok_bind, BitArray.held_eq_nil hempty, List.append_nil]
    rfl

/-- The widest table is dropped with its children, each once. -/
theorem DirectMapping.Repr.drop {m : DirectMapping N} (h : m.Repr items) :
    ∃ dropped, m.drop = .ok dropped ∧ dropped.Perm (items.map Prod.snd) :=
  ⟨m.children.held, h.maps.valid.drop, h.maps.held_perm⟩

end Drops

/-- `SortedKeyedMappingIntoIter` -/
structure SortedKeyedMappingIntoIter (N : Type) where
  keys : List UInt8
  children : List (Option N)
  num_children : Nat
  current : Nat

set_option linter.dupNamespace false in
/-- `IndexedMappingIntoIter` and `DirectMappingIntoIter`, which own the table that they empty. -/
structure MappingIntoIter (M : Type) where
  key_iter : BitsetOnesIter 6
  mapping : M

section IntoIter

variable {M N : Type} {WIDTH : Nat}

namespace SortedKeyedMappingIntoIter

def next (self : SortedKeyedMappingIntoIter N) :
    Result (Option (UInt8 × N) × SortedKeyedMappingIntoIter N) :=
  if self.current ≥ self.num_children then return (none, self)
  else do
    let key ← index self.keys self.current
    let child ← assume_init (← index self.children self.current)
    let children ← index_set self.children self.current none
    return (some (key, child), { self with children, current := self.current + 1 })

/-- The loop of `Drop`. -/
def drop (self : SortedKeyedMappingIntoIter N) : Result (List N) :=
  if self.current < self.num_children then do
    let child ← assume_init (← index self.children self.current)
    let children ← index_set self.children self.current none
    return child :: (← drop { self with children, current := self.current + 1 })
  else return []
termination_by self.num_children - self.current

end SortedKeyedMappingIntoIter

/-- The key iterator that has come to its end finds no key again. -/
def MappingIntoIter.next (delete_child : M → UInt8 → Result (Option N × M)) (self : MappingIntoIter M) :
    Result (Option (UInt8 × N) × MappingIntoIter M) :=
  (BitsetOnesIter.cursor.next self.key_iter).elim (return (none, self)) fun (key, key_iter) => do
    let (child, mapping) ← delete_child self.mapping (UInt8.ofNat key)
    return (child.map (Prod.mk (UInt8.ofNat key)), { key_iter, mapping })

def SortedKeyedMapping.into_iter (self : SortedKeyedMapping N WIDTH) : SortedKeyedMappingIntoIter N :=
  ⟨self.keys, self.children, self.num_children, 0⟩

def IndexedMapping.into_owned_iter (self : IndexedMapping N WIDTH) : MappingIntoIter (IndexedMapping N WIDTH) :=
  ⟨⟨self.child_ptr_indexes.bitset.bitset, 0, 0#64⟩, self⟩

def DirectMapping.into_owned_iter (self : DirectMapping N) : MappingIntoIter (DirectMapping N) :=
  ⟨⟨self.children.bitset.bitset, 0, 0#64⟩, self⟩

/-- A loop over an owning iterator that is left after `count` rounds: the pairs of the
rounds, and what is dropped with the iterator. -/
def take_and_drop {I : Type} (next : I → Result (Option (UInt8 × N) × I)) (drop : I → Result (List N)) :
    Nat → I → Result (List (UInt8 × N) × List N)
  | 0, iter => do return ([], ← drop iter)
  | count + 1, iter => do
    match ← next iter with
    | (none, iter) => return ([], ← drop iter)
    | (some pair, iter) =>
      let (pairs, dropped) ← take_and_drop next drop count iter
      return (pair :: pairs, dropped)

/-- Where every pair that an iterator still owns is handed out or dropped with it, no round
of a loop loses one. -/
theorem take_and_drop_spec {I : Type} {next : I → Result (Option (UInt8 × N) × I)} {drop : I → Result (List N)}
    {Owns : I → List (UInt8 × N) → Prop}
    (hdone : ∀ {iter}, Owns iter [] → ∃ iter', next iter = .ok (none, iter') ∧ Owns iter' [])
    (hnext : ∀ {iter pair rest}, Owns iter (pair :: rest) →
      ∃ iter', next iter = .ok (some pair, iter') ∧ Owns iter' rest)
    (hdrop : ∀ {iter rest}, Owns iter rest → ∃ dropped, drop iter = .ok dropped ∧ dropped.Perm (rest.map Prod.snd))
    (count : Nat) {iter : I} {items : List (UInt8 × N)} (h : Owns iter items) :
    ∃ dropped, take_and_drop next drop count iter = .ok (items.take count, dropped) ∧
      dropped.Perm ((items.drop count).map Prod.snd) := by
  induction count generalizing iter items with
  | zero =>
    obtain ⟨dropped, hok, hperm⟩ := hdrop h
    refine ⟨dropped, ?_, hperm⟩
    rw [take_and_drop, hok]
    rfl
  | succ count ih =>
    cases items with
    | nil =>
      obtain ⟨iter', hstep, h'⟩ := hdone h
      obtain ⟨dropped, hok, hperm⟩ := hdrop h'
      refine ⟨dropped, ?_, hperm⟩
      rw [take_and_drop, hstep, ok_bind]
      dsimp only
      rw [hok]
      rfl
    | cons pair rest =>
      obtain ⟨iter', hstep, h'⟩ := hnext h
      obtain ⟨dropped, hok, hperm⟩ := ih h'
      refine ⟨dropped, ?_, hperm⟩
      rw [take_and_drop, hstep, ok_bind]
      dsimp only
      rw [hok]
      rfl

variable {items : List (UInt8 × N)}

/-- What a `SortedKeyedMappingIntoIter` has not handed out yet. -/
structure SortedKeyedMappingIntoIter.Owns (iter : SortedKeyedMappingIntoIter N) (items : List (UInt8 × N)) : Prop where
  count : iter.num_children = iter.current + items.length
  keys : ∀ i p, items[i]? = some p → iter.keys[iter.current + i]? = some p.1
  children : ∀ i p, items[i]? = some p → iter.children[iter.current + i]? = some (some p.2)

namespace SortedKeyedMappingIntoIter.Owns

variable {iter : SortedKeyedMappingIntoIter N} {key : UInt8} {child : N} {rest : List (UInt8 × N)}

/-- An iterator that owns nothing ends. -/
theorem next_nil (h : iter.Owns []) : iter.next = .ok (none, iter) := by
  unfold SortedKeyedMappingIntoIter.next
  rw [if_pos (show iter.current ≥ iter.num_children from Nat.le_of_eq h.count)]
  rfl

/-- The reads and the write that `next` and `Drop` make in one round. -/
theorem round (h : iter.Owns ((key, child) :: rest)) :
    iter.current < iter.num_children ∧ index iter.keys iter.current = .ok key ∧
      index iter.children iter.current = .ok (some child) ∧
      ∃ children, index_set iter.children iter.current none = .ok children ∧
        Owns { iter with children, current := iter.current + 1 } rest := by
  have hcount := h.count
  have hchild := h.children 0 _ rfl
  rw [List.length_cons] at hcount
  refine ⟨by omega, index_eq_ok (h.keys 0 _ rfl), index_eq_ok hchild, _,
    index_set_eq_ok (List.getElem?_eq_some_iff.1 hchild).1 none, ⟨?_, fun i p hp => ?_, fun i p hp => ?_⟩⟩
  · dsimp only
    omega
  · have hkey := h.keys (i + 1) p hp
    rwa [← Nat.add_assoc, Nat.add_right_comm] at hkey
  · have hlater := h.children (i + 1) p hp
    dsimp only
    rw [List.getElem?_set_ne (by omega)]
    rwa [← Nat.add_assoc, Nat.add_right_comm] at hlater

/-- An iterator hands out the first child that it owns, and owns the others. -/
theorem next_cons (h : iter.Owns ((key, child) :: rest)) :
    ∃ iter', iter.next = .ok (some (key, child), iter') ∧ iter'.Owns rest := by
  obtain ⟨hlt, hkey, hchild, children, hset, hrest⟩ := h.round
  refine ⟨_, ?_, hrest⟩
  unfold SortedKeyedMappingIntoIter.next
  rw [if_neg (not_le.2 hlt), hkey, ok_bind, hchild, ok_bind]
  dsimp only [assume_init]
  rw [ok_bind, hset]
  rfl

/-- An iterator that is dropped early drops what it still owns. -/
theorem drop (h : iter.Owns items) : iter.drop = .ok (items.map Prod.snd) := by
  induction items generalizing iter with
  | nil =>
    have hend : ¬ iter.current < iter.num_children := not_lt.2 (Nat.le_of_eq h.count)
    rw [SortedKeyedMappingIntoIter.drop, if_neg hend]
    rfl
  | cons p rest ih =>
    obtain ⟨hlt, _, hchild, children, hset, hrest⟩ := h.round
    rw [SortedKeyedMappingIntoIter.drop, if_pos hlt, hchild, ok_bind]
    dsimp only [assume_init]
    rw [ok_bind, hset, ok_bind, ih hrest]
    rfl

end SortedKeyedMappingIntoIter.Owns

/-- A table gives all of its children to its iterator. -/
theorem SortedKeyedMapping.Repr.into_iter {m : SortedKeyedMapping N WIDTH} (h : m.Repr items) :
    m.into_iter.Owns items where
  count := by
    rw [show m.into_iter.current = 0 from rfl, Nat.zero_add]
    exact h.num_children_eq
  keys i p hp := by
    rw [show m.into_iter.current = 0 from rfl, Nat.zero_add]
    exact h.getElem?_keys hp
  children i p hp := by
    rw [show m.into_iter.current = 0 from rfl, Nat.zero_add]
    exact h.getElem?_children hp

/-- The keys that are still to come are those of the table. -/
def MappingIntoIter.Owns (Repr : M → List (UInt8 × N) → Prop) (iter : MappingIntoIter M) (items : List (UInt8 × N)) :
    Prop :=
  BitsetOnesIter.cursor.collect iter.key_iter = items.map (fun p => p.1.toNat) ∧ Repr iter.mapping items ∧
    Ascending items

namespace MappingIntoIter.Owns

variable {Repr : M → List (UInt8 × N) → Prop} {iter : MappingIntoIter M} {key : UInt8} {child : N}
  {rest : List (UInt8 × N)} {delete_child : M → UInt8 → Result (Option N × M)}

theorem next_nil (h : iter.Owns Repr []) : iter.next delete_child = .ok (none, iter) := by
  unfold MappingIntoIter.next
  rw [Cursor.next_of_collect_nil h.1]
  rfl

theorem next_cons (hdelete : ∀ {m : M} {items : List (UInt8 × N)} {key : UInt8} {node : N}, Repr m items →
      items.lookup key = some node → ∃ m', delete_child m key = .ok (some node, m') ∧ Repr m' (eraseKey key items))
    (h : iter.Owns Repr ((key, child) :: rest)) :
    ∃ iter', iter.next delete_child = .ok (some (key, child), iter') ∧ iter'.Owns Repr rest := by
  obtain ⟨hkeys, hrepr, hasc⟩ := h
  rw [List.map_cons] at hkeys
  obtain ⟨key_iter, hnext, hrest⟩ := Cursor.next_of_collect_cons hkeys
  obtain ⟨m', hm', hrepr'⟩ := hdelete hrepr List.lookup_cons_self
  rw [show eraseKey key ((key, child) :: rest) = rest from eraseKey_append_cons [] hasc] at hrepr'
  refine ⟨⟨key_iter, m'⟩, ?_, hrest, hrepr', (ascending_cons.1 hasc).2⟩
  unfold MappingIntoIter.next
  rw [hnext, Option.elim_some]
  dsimp only
  rw [UInt8.ofNat_toNat, hm']
  rfl

end MappingIntoIter.Owns

/-- The same for a middle table, which the iterator deletes from. -/
theorem IndexedMapping.Repr.into_owned_iter {m : IndexedMapping N WIDTH} (h : m.Repr items) :
    m.into_owned_iter.Owns IndexedMapping.Repr items := by
  obtain ⟨ptrs, hptrs⟩ := h.slots.ptrs
  exact ⟨hptrs.bitset_iter_eq h.slots.ascending (h.ptr_iff hptrs), h, h.slots.ascending⟩

/-- And for the widest one. -/
theorem DirectMapping.Repr.into_owned_iter {m : DirectMapping N} (h : m.Repr items) :
    m.into_owned_iter.Owns DirectMapping.Repr items :=
  ⟨h.maps.bitset_iter_eq h.maps.ascending fun _ => Iff.rfl, h, h.maps.ascending⟩

end IntoIter

section Leaving

variable {N : Type} {WIDTH OLD_WIDTH : Nat}

/-- A round that takes the child of a slot, which is uninitialised from then on. -/
def SortedKeyedMapping.emptying {S : Type} (round : SortedKeyedMapping N WIDTH → S → Nat → Result S)
    (state : S × SortedKeyedMapping N WIDTH) (i : Nat) : Result (S × SortedKeyedMapping N WIDTH) := do
  let taken ← round state.2 state.1 i
  let children ← index_set state.2.children i none
  return (taken, { state.2 with children })

/-- The body of the loop of `from_resized`. -/
def SortedKeyedMapping.resize_slot (km : SortedKeyedMapping N OLD_WIDTH) (new : SortedKeyedMapping N WIDTH) (i : Nat) :
    Result (SortedKeyedMapping N WIDTH) := do
  let keys ← index_set new.keys i (← index km.keys i)
  let children ← index_set new.children i (← index km.children i)
  return { new with keys := keys, children := children }

/-- `from_resized`, with the table that it empties. -/
def SortedKeyedMapping.from_resized_leaving (km : SortedKeyedMapping N OLD_WIDTH) :
    Result (SortedKeyedMapping N WIDTH × SortedKeyedMapping N OLD_WIDTH) := do
  let (new, km) ← (List.range km.num_children).foldlM (SortedKeyedMapping.emptying SortedKeyedMapping.resize_slot)
    ((SortedKeyedMapping.new : SortedKeyedMapping N WIDTH), km)
  return ({ new with num_children := km.num_children }, { km with num_children := 0 })

/-- `from_sorted_keyed`, with the table that it empties. -/
def IndexedMapping.from_sorted_keyed_leaving (km : SortedKeyedMapping N OLD_WIDTH) :
    Result (IndexedMapping N WIDTH × SortedKeyedMapping N OLD_WIDTH) := do
  let (im, km) ← (List.range km.num_children).foldlM
    (SortedKeyedMapping.emptying IndexedMapping.from_sorted_keyed.steal)
    ((IndexedMapping.new : IndexedMapping N WIDTH), km)
  return ({ im with num_children := km.num_children }, { km with num_children := 0 })

def SortedKeyedMapping.from_indexed_leaving.loop : Nat → IndexedMapping N OLD_WIDTH → SortedKeyedMapping N WIDTH →
    Nat → Result (SortedKeyedMapping N WIDTH × IndexedMapping N OLD_WIDTH)
  | 0, im, new_mapping, _ => return (new_mapping, im)
  | remaining + 1, im, new_mapping, dst => do
    let key ← expect im.child_ptr_indexes.first_used
      "indexed mapping had fewer live keys than num_children"
    let (pos, child_ptr_indexes) ← im.child_ptr_indexes.erase_known_present key
    let keys ← index_set new_mapping.keys dst (UInt8.ofNat key)
    let (child, children) ← im.children.erase_known_present pos.toNat
    let slots ← index_set new_mapping.children dst (some child)
    loop remaining { im with child_ptr_indexes, children } { new_mapping with keys := keys, children := slots }
      (dst + 1)

/-- `from_indexed`, with the table that it empties. -/
def SortedKeyedMapping.from_indexed_leaving (im : IndexedMapping N OLD_WIDTH) :
    Result (SortedKeyedMapping N WIDTH × IndexedMapping N OLD_WIDTH) := do
  let child_count := im.num_children
  let (new_mapping, im) ← SortedKeyedMapping.from_indexed_leaving.loop child_count im
    (SortedKeyedMapping.new : SortedKeyedMapping N WIDTH) 0
  return ({ new_mapping with num_children := child_count }, { im with num_children := 0 })

def DirectMapping.from_indexed_leaving.loop : Nat → IndexedMapping N OLD_WIDTH → BitArray N →
    Result (BitArray N × IndexedMapping N OLD_WIDTH)
  | 0, _, _ => throw .out_of_fuel
  | fuel + 1, im, new_children => do
    match im.child_ptr_indexes.first_used with
    | none => return (new_children, im)
    | some key =>
      let (pos, child_ptr_indexes) ← im.child_ptr_indexes.erase_known_present key
      let (child, children) ← im.children.erase_known_present pos.toNat
      loop fuel { im with child_ptr_indexes, children } (← new_children.set key child)

/-- `from_indexed`, with the table that it empties. -/
def DirectMapping.from_indexed_leaving (im : IndexedMapping N OLD_WIDTH) :
    Result (DirectMapping N × IndexedMapping N OLD_WIDTH) := do
  let child_count := im.num_children
  let (children, im) ← DirectMapping.from_indexed_leaving.loop 257 im DirectMapping.new.children
  return ({ children, num_children := child_count }, { im with num_children := 0 })

def IndexedMapping.from_direct_leaving.loop : Nat → DirectMapping N → IndexedMapping N WIDTH → Nat →
    Result (IndexedMapping N WIDTH × DirectMapping N)
  | 0, _, _, _ => throw .out_of_fuel
  | fuel + 1, dm, indexed, next_slot => do
    match dm.children.first_used with
    | none => return (indexed, dm)
    | some key =>
      let (child, dm_children) ← dm.children.erase_known_present key
      let child_ptr_indexes ← indexed.child_ptr_indexes.set key (UInt8.ofNat next_slot)
      let children ← indexed.children.set next_slot child
      loop fuel { dm with children := dm_children } { indexed with child_ptr_indexes, children } (next_slot + 1)

/-- `from_direct`, with the table that it empties. Its count of children stays. -/
def IndexedMapping.from_direct_leaving (dm : DirectMapping N) : Result (IndexedMapping N WIDTH × DirectMapping N) := do
  let child_count := dm.num_children
  let (indexed, dm) ← IndexedMapping.from_direct_leaving.loop 257 dm
    (IndexedMapping.new : IndexedMapping N WIDTH) 0
  return ({ indexed with num_children := child_count }, dm)

/-- Rounds that look at their own slot only do the same on a table that earlier rounds have
emptied below it. -/
theorem SortedKeyedMapping.emptying_loop {S : Type} {round : SortedKeyedMapping N WIDTH → S → Nat → Result S}
    (hround : ∀ km km' s i, km'.keys = km.keys → km'.children[i]? = km.children[i]? → round km' s i = round km s i)
    {km : SortedKeyedMapping N WIDTH} {s s' : S} {n : Nat} (hn : n ≤ km.children.length)
    (hplain : (List.range n).foldlM (round km) s = .ok s') :
    (List.range n).foldlM (SortedKeyedMapping.emptying round) (s, km) =
      .ok (s', { km with children := List.replicate n none ++ km.children.drop n }) := by
  induction n generalizing s' with
  | zero =>
    cases hplain
    rfl
  | succ n ih =>
    rw [List.range_succ, List.foldlM_append] at hplain
    obtain ⟨mid, hmid, hlast⟩ := bind_eq_ok_iff.1 hplain
    rw [List.foldlM_cons] at hlast
    obtain ⟨last, hstep, hlast⟩ := bind_eq_ok_iff.1 hlast
    cases hlast
    have hlt : n < km.children.length := hn
    have hslot : (List.replicate n none ++ km.children.drop n)[n]? = km.children[n]? := by
      rw [List.getElem?_append_right (by simp), List.length_replicate, Nat.sub_self, List.getElem?_drop, Nat.add_zero]
    have hset := index_set_append_cons (List.replicate n none) km.children[n] none (km.children.drop (n + 1))
    rw [List.length_replicate, ← List.drop_eq_getElem_cons hlt] at hset
    rw [List.range_succ, List.foldlM_append, ih hlt.le hmid, ok_bind, List.foldlM_cons, SortedKeyedMapping.emptying,
      hround km { km with children := List.replicate n none ++ km.children.drop n } mid n rfl hslot, hstep, ok_bind]
    dsimp only
    rw [hset, List.replicate_succ', List.append_assoc]
    rfl

variable {items : List (UInt8 × N)}

/-- A table whose children were all taken is empty. -/
theorem SortedKeyedMapping.Repr.emptied {m : SortedKeyedMapping N WIDTH} (h : m.Repr items) :
    Repr (⟨m.keys, List.replicate items.length none ++ m.children.drop items.length, 0⟩ : SortedKeyedMapping N WIDTH)
      [] := by
  obtain ⟨free, hchildren⟩ := h.children_eq
  have hlen := h.children_length
  rw [hchildren, List.length_append, List.length_map, List.length_replicate] at hlen
  rw [hchildren, List.drop_left' (by simp), ← List.replicate_add]
  exact {
    ascending := ascending_nil
    num_children_eq := rfl
    keys_length := h.keys_length
    children_length := by rw [List.length_replicate]; exact hlen
    keys_eq := ⟨m.keys, rfl⟩
    children_eq := ⟨_, rfl⟩ }

/-- The child that takes the place of its parent was the only one. -/
theorem SortedKeyedMapping.Repr.take_value_for_leaf_leaves {m : SortedKeyedMapping N WIDTH} {key : UInt8} {node : N}
    (h : m.Repr [(key, node)]) : ∃ m', m.take_value_for_leaf = .ok ((key, node), m') ∧ m'.Repr [] := by
  obtain ⟨tail, free, htake, htail, hwide⟩ := SortedKeyedMapping.Repr.take_child [] h
  rw [List.length_nil] at htake hwide
  unfold SortedKeyedMapping.take_value_for_leaf
  rw [htake]
  exact ⟨_, rfl, {
    ascending := ascending_nil
    num_children_eq := rfl
    keys_length := by simp at hwide ⊢; omega
    children_length := by simp at hwide ⊢; omega
    keys_eq := ⟨key :: tail, rfl⟩
    children_eq := ⟨free + 1, rfl⟩ }⟩

/-- A conversion to another width leaves nothing behind in the narrow table. -/
theorem SortedKeyedMapping.from_resized_leaves {km : SortedKeyedMapping N OLD_WIDTH} (h : km.Repr items)
    {m : SortedKeyedMapping N WIDTH} (hm : SortedKeyedMapping.from_resized km = .ok m) :
    ∃ left, SortedKeyedMapping.from_resized_leaving km = .ok (m, left) ∧ left.Repr [] := by
  have hn : km.num_children ≤ km.children.length := by
    rw [h.num_children_eq, h.children_length]
    exact h.length_le
  obtain ⟨new, hnew, hcounted⟩ := bind_eq_ok_iff.1 hm
  cases hcounted
  refine ⟨_, ?_, h.emptied⟩
  unfold SortedKeyedMapping.from_resized_leaving
  rw [SortedKeyedMapping.emptying_loop (fun km km' s i hkeys hslot => ?_) hn hnew, h.num_children_eq]
  · rfl
  · unfold SortedKeyedMapping.resize_slot index
    rw [hkeys, hslot]

/-- Nor does one to a middle table. -/
theorem IndexedMapping.from_sorted_keyed_leaves {km : SortedKeyedMapping N OLD_WIDTH} (h : km.Repr items)
    {m : IndexedMapping N WIDTH} (hm : IndexedMapping.from_sorted_keyed km = .ok m) :
    ∃ left, IndexedMapping.from_sorted_keyed_leaving km = .ok (m, left) ∧ left.Repr [] := by
  have hn : km.num_children ≤ km.children.length := by
    rw [h.num_children_eq, h.children_length]
    exact h.length_le
  obtain ⟨new, hnew, hcounted⟩ := bind_eq_ok_iff.1 hm
  cases hcounted
  refine ⟨_, ?_, h.emptied⟩
  unfold IndexedMapping.from_sorted_keyed_leaving
  rw [SortedKeyedMapping.emptying_loop (fun km km' s i hkeys hslot => ?_) hn hnew, h.num_children_eq]
  · rfl
  · unfold IndexedMapping.from_sorted_keyed.steal index
    rw [hkeys, hslot]

/-- The first child in use is taken until none is left. -/
theorem SortedKeyedMapping.from_indexed_leaving_loop {rest : List (UInt8 × N)} {im : IndexedMapping N OLD_WIDTH}
    (hslots : Slots OLD_WIDTH im.child_ptr_indexes im.children rest) {new m : SortedKeyedMapping N WIDTH} {dst : Nat}
    (hplain : SortedKeyedMapping.from_indexed.loop rest.length im.child_ptr_indexes im.children new dst = .ok m) :
    ∃ left, SortedKeyedMapping.from_indexed_leaving.loop rest.length im new dst = .ok (m, left) ∧
      Slots OLD_WIDTH left.child_ptr_indexes left.children [] := by
  induction rest generalizing im new dst with
  | nil =>
    cases hplain
    exact ⟨im, rfl, hslots⟩
  | cons p rest ih =>
    obtain ⟨key, child⟩ := p
    obtain ⟨pos, idx', children', hfirst, hidx', hchildren', hslots'⟩ := hslots.take_first
    rw [List.length_cons, SortedKeyedMapping.from_indexed.loop, hfirst, expect_some, ok_bind, hidx', ok_bind] at hplain
    obtain ⟨keys, hkeys, hplain⟩ := bind_eq_ok_iff.1 hplain
    rw [hchildren', ok_bind] at hplain
    obtain ⟨slots, hset, hplain⟩ := bind_eq_ok_iff.1 hplain
    obtain ⟨left, hleft, hempty⟩ := @ih { im with child_ptr_indexes := idx', children := children' } hslots' _ _ hplain
    refine ⟨left, ?_, hempty⟩
    rw [List.length_cons, SortedKeyedMapping.from_indexed_leaving.loop, hfirst, expect_some, ok_bind, hidx', ok_bind]
    dsimp only
    rw [hkeys, ok_bind, hchildren', ok_bind]
    dsimp only
    rw [hset, ok_bind]
    exact hleft

/-- A conversion back empties the middle table, slots and numbers. -/
theorem SortedKeyedMapping.from_indexed_leaves {im : IndexedMapping N OLD_WIDTH} (h : im.Repr items)
    {m : SortedKeyedMapping N WIDTH} (hm : SortedKeyedMapping.from_indexed im = .ok m) :
    ∃ left, SortedKeyedMapping.from_indexed_leaving im = .ok (m, left) ∧ left.Repr [] := by
  obtain ⟨new, hnew, hcounted⟩ := bind_eq_ok_iff.1 hm
  cases hcounted
  rw [h.num_children_eq] at hnew
  obtain ⟨left, hleft, hempty⟩ := SortedKeyedMapping.from_indexed_leaving_loop h.slots hnew
  refine ⟨{ left with num_children := 0 }, ?_, hempty, rfl⟩
  unfold SortedKeyedMapping.from_indexed_leaving
  dsimp only
  rw [h.num_children_eq, hleft]
  rfl

theorem DirectMapping.from_indexed_leaving_loop {rest : List (UInt8 × N)} {im : IndexedMapping N OLD_WIDTH}
    (hslots : Slots OLD_WIDTH im.child_ptr_indexes im.children rest) {fuel : Nat} {new a : BitArray N}
    (hplain : DirectMapping.from_indexed.loop fuel im.child_ptr_indexes im.children new = .ok a) :
    ∃ left, DirectMapping.from_indexed_leaving.loop fuel im new = .ok (a, left) ∧
      Slots OLD_WIDTH left.child_ptr_indexes left.children [] := by
  induction rest generalizing im fuel new with
  | nil =>
    cases fuel with
    | zero => cases hplain
    | succ fuel =>
      rw [DirectMapping.from_indexed.loop, hslots.first_used_nil] at hplain
      cases hplain
      refine ⟨im, ?_, hslots⟩
      rw [DirectMapping.from_indexed_leaving.loop, hslots.first_used_nil]
      rfl
  | cons p rest ih =>
    obtain ⟨key, child⟩ := p
    cases fuel with
    | zero => cases hplain
    | succ fuel =>
      obtain ⟨pos, idx', children', hfirst, hidx', hchildren', hslots'⟩ := hslots.take_first
      rw [DirectMapping.from_indexed.loop, hfirst] at hplain
      dsimp only at hplain
      rw [hidx', ok_bind] at hplain
      dsimp only at hplain
      rw [hchildren', ok_bind] at hplain
      obtain ⟨next, hset, hplain⟩ := bind_eq_ok_iff.1 hplain
      dsimp only at hset
      obtain ⟨left, hleft, hempty⟩ :=
        @ih { im with child_ptr_indexes := idx', children := children' } hslots' _ _ hplain
      refine ⟨left, ?_, hempty⟩
      rw [DirectMapping.from_indexed_leaving.loop, hfirst]
      dsimp only
      rw [hidx', ok_bind]
      dsimp only
      rw [hchildren', ok_bind]
      dsimp only
      rw [hset, ok_bind]
      exact hleft

/-- So does one to the widest table. -/
theorem DirectMapping.from_indexed_leaves {im : IndexedMapping N OLD_WIDTH} (h : im.Repr items) {m : DirectMapping N}
    (hm : DirectMapping.from_indexed im = .ok m) :
    ∃ left, DirectMapping.from_indexed_leaving im = .ok (m, left) ∧ left.Repr [] := by
  obtain ⟨children, hchildren, hcounted⟩ := bind_eq_ok_iff.1 hm
  cases hcounted
  obtain ⟨left, hleft, hempty⟩ := DirectMapping.from_indexed_leaving_loop h.slots hchildren
  refine ⟨{ left with num_children := 0 }, ?_, hempty, rfl⟩
  unfold DirectMapping.from_indexed_leaving
  dsimp only
  rw [hleft]
  rfl

theorem IndexedMapping.from_direct_leaving_loop {rest : List (UInt8 × N)} {dm : DirectMapping N}
    (hmaps : Maps dm.children rest) {fuel : Nat} {indexed m : IndexedMapping N WIDTH} {next_slot : Nat}
    (hplain : IndexedMapping.from_direct.loop fuel dm.children indexed next_slot = .ok m) :
    ∃ left, IndexedMapping.from_direct_leaving.loop fuel dm indexed next_slot = .ok (m, left) ∧
      Maps left.children [] := by
  induction rest generalizing dm fuel indexed next_slot with
  | nil =>
    cases fuel with
    | zero => cases hplain
    | succ fuel =>
      rw [IndexedMapping.from_direct.loop, hmaps.first_used_nil] at hplain
      cases hplain
      refine ⟨dm, ?_, hmaps⟩
      rw [IndexedMapping.from_direct_leaving.loop, hmaps.first_used_nil]
      rfl
  | cons p rest ih =>
    obtain ⟨key, child⟩ := p
    cases fuel with
    | zero => cases hplain
    | succ fuel =>
      have hkey : ((key, child) :: rest).lookup key = some child := List.lookup_cons_self
      obtain ⟨dm', hdm', hmaps'⟩ := hmaps.erase_known_present hkey
      rw [hmaps.eraseKey_cons] at hmaps'
      rw [IndexedMapping.from_direct.loop, hmaps.first_used_cons] at hplain
      dsimp only at hplain
      rw [hdm', ok_bind] at hplain
      obtain ⟨idx, hidx, hplain⟩ := bind_eq_ok_iff.1 hplain
      obtain ⟨children, hchildren, hplain⟩ := bind_eq_ok_iff.1 hplain
      dsimp only at hidx hchildren
      obtain ⟨left, hleft, hempty⟩ := @ih { dm with children := dm' } hmaps' _ _ _ hplain
      refine ⟨left, ?_, hempty⟩
      rw [IndexedMapping.from_direct_leaving.loop, hmaps.first_used_cons]
      dsimp only
      rw [hdm', ok_bind]
      dsimp only
      rw [hidx, ok_bind, hchildren, ok_bind]
      exact hleft

/-- The count of the emptied table stays, but it has nothing to drop. -/
theorem IndexedMapping.from_direct_leaves {dm : DirectMapping N} (h : dm.Repr items) {m : IndexedMapping N WIDTH}
    (hm : IndexedMapping.from_direct dm = .ok m) :
    ∃ left, IndexedMapping.from_direct_leaving dm = .ok (m, left) ∧ Maps left.children [] := by
  obtain ⟨indexed, hindexed, hcounted⟩ := bind_eq_ok_iff.1 hm
  cases hcounted
  obtain ⟨left, hleft, hempty⟩ := IndexedMapping.from_direct_leaving_loop h.maps hindexed
  refine ⟨left, ?_, hempty⟩
  unfold IndexedMapping.from_direct_leaving
  dsimp only
  rw [hleft]
  rfl

end Leaving

end rart.mapping
