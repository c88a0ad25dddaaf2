import Rart.Mapping.Drops
import Rart.Node

open SortedAssoc
open rart.mapping rart.partials rart.utils
open scoped List

namespace rart.node

variable {N : Type}

namespace Content

def drop (self : Content N) : Result (List N) :=
  match self with
  | Node4 km => km.drop
  | Node16 km => km.drop
  | Node48 im => im.drop
  | Node256 dm => dm.drop
  | Empty => return []

/-- A loop over `into_iter` that is left after `count` rounds. -/
def take_and_drop (self : Content N) (count : Nat) : Result (List (UInt8 × N) × List N) :=
  match self with
  | Node4 km =>
    mapping.take_and_drop SortedKeyedMappingIntoIter.next SortedKeyedMappingIntoIter.drop count km.into_iter
  | Node16 km =>
    mapping.take_and_drop SortedKeyedMappingIntoIter.next SortedKeyedMappingIntoIter.drop count km.into_iter
  | Node48 im =>
    mapping.take_and_drop (MappingIntoIter.next IndexedMapping.delete_child) (fun iter => iter.mapping.drop) count
      im.into_owned_iter
  | Node256 dm =>
    mapping.take_and_drop (MappingIntoIter.next DirectMapping.delete_child) (fun iter => iter.mapping.drop) count
      dm.into_owned_iter
  | Empty => return ([], [])

/-- `grow`, and what is dropped with the table that is replaced. -/
def grow_dropping (self : Content N) : Result (Content N × List N) :=
  match self with
  | Node4 km => do
    let (new, km) ← SortedKeyedMapping.from_resized_leaving km
    return (Node16 new, ← km.drop)
  | Node16 km => do
    let (new, km) ← IndexedMapping.from_sorted_keyed_leaving km
    return (Node48 new, ← km.drop)
  | Node48 im => do
    let (new, im) ← DirectMapping.from_indexed_leaving im
    return (Node256 new, ← im.drop)
  | Node256 _ => .error (.unreachable "Should never grow a node256")
  | Empty => .error (.unreachable "Should not be possible.")

/-- The conversions of `shrink`. -/
def narrow (self : Content N) : Result (Content N) :=
  match self with
  | Node4 km => return Node4 km
  | Node16 km => Node4 <$> SortedKeyedMapping.from_resized km
  | Node48 im => Node16 <$> SortedKeyedMapping.from_indexed im
  | Node256 dm => Node48 <$> IndexedMapping.from_direct dm
  | Empty => .error (.unreachable "Should not be possible.")

/-- `narrow`, and what is dropped with the table that is replaced. -/
def shrink_dropping (self : Content N) : Result (Content N × List N) :=
  match self with
  | Node4 km => return (Node4 km, [])
  | Node16 km => do
    let (new, km) ← SortedKeyedMapping.from_resized_leaving km
    return (Node4 new, ← km.drop)
  | Node48 im => do
    let (new, im) ← SortedKeyedMapping.from_indexed_leaving im
    return (Node16 new, ← im.drop)
  | Node256 dm => do
    let (new, dm) ← IndexedMapping.from_direct_leaving dm
    return (Node48 new, ← dm.drop)
  | Empty => .error (.unreachable "Should not be possible.")

/-- The room in the layout that `shrink` goes to. -/
def narrower : Content N → Nat
  | Node4 _ => 4
  | Node16 _ => 4
  | Node48 _ => 16
  | Node256 _ => 48
  | Empty => 0

/-- The only child of a sorted table, with which `shrink` replaces a node. -/
def take_value_for_leaf (self : Content N) : Result (N × Content N) :=
  match self with
  | Node4 km => do
    let ((_, child), km) ← km.take_value_for_leaf
    return (child, Node4 km)
  | Node16 km => do
    let ((_, child), km) ← km.take_value_for_leaf
    return (child, Node16 km)
  | _ => .error (.unreachable "Should not be possible.")

/-- The `match` of `delete_child`, before a table is narrowed. -/
def delete_child [Features] (self : Content N) (key : UInt8) : Result (Option N × Content N) :=
  match self with
  | Node4 dm => do
    let (node, dm) ← dm.delete_child key
    return (node, Node4 dm)
  | Node16 dm => do
    let (node, dm) ← dm.delete_child key
    return (node, Node16 dm)
  | Node48 im => do
    let (node, im) ← im.delete_child key
    return (node, Node48 im)
  | Node256 pm => do
    let (node, pm) ← pm.delete_child key
    return (node, Node256 pm)
  | Empty => .error (.unreachable "Should not be possible.")

/-- A table that `Default` makes. -/
inductive IsNew : Content N → Prop where
  | Node4 : IsNew (.Node4 .new)
  | Node16 : IsNew (.Node16 .new)
  | Node48 : IsNew (.Node48 .new)
  | Node256 : IsNew (.Node256 .new)

theorem IsNew.repr {c : Content N} (h : c.IsNew) : c.Repr [] ∧ c.is_empty = false := by
  cases h with
  | Node4 => exact ⟨SortedKeyedMapping.Repr.new, rfl⟩
  | Node16 => exact ⟨SortedKeyedMapping.Repr.new, rfl⟩
  | Node48 => exact ⟨IndexedMapping.Repr.new (by decide), rfl⟩
  | Node256 => exact ⟨DirectMapping.Repr.new, rfl⟩

namespace Repr

variable {c : Content N} {items : List (UInt8 × N)}

theorem drop (h : c.Repr items) : ∃ dropped, c.drop = .ok dropped ∧ dropped.Perm (items.map Prod.snd) := by
  cases c with
  | Empty =>
    have hnil : items = [] := h
    rw [hnil]
    exact ⟨[], rfl, List.Perm.refl _⟩
  | Node4 km => exact ⟨_, SortedKeyedMapping.Repr.drop h, List.Perm.refl _⟩
  | Node16 km => exact ⟨_, SortedKeyedMapping.Repr.drop h, List.Perm.refl _⟩
  | Node48 im => exact IndexedMapping.Repr.drop h
  | Node256 dm => exact DirectMapping.Repr.drop h

theorem take_and_drop_sorted {WIDTH : Nat} {km : SortedKeyedMapping N WIDTH} (h : km.Repr items) (count : Nat) :
    ∃ dropped, mapping.take_and_drop SortedKeyedMappingIntoIter.next SortedKeyedMappingIntoIter.drop count
      km.into_iter = .ok (items.take count, dropped) ∧ dropped.Perm ((items.drop count).map Prod.snd) :=
  take_and_drop_spec (fun h => ⟨_, h.next_nil, h⟩) (fun h => h.next_cons)
    (fun h => ⟨_, h.drop, List.Perm.refl _⟩) count h.into_iter

/-- A loop that is left early has the first children, and the others are dropped. -/
theorem take_and_drop (h : c.Repr items) (count : Nat) :
    ∃ dropped, c.take_and_drop count = .ok (items.take count, dropped) ∧
      dropped.Perm ((items.drop count).map Prod.snd) := by
  cases c with
  | Empty =>
    have hnil : items = [] := h
    rw [hnil, List.take_nil, List.drop_nil]
    exact ⟨[], rfl, List.Perm.refl _⟩
  | Node4 km => exact take_and_drop_sorted h count
  | Node16 km => exact take_and_drop_sorted h count
  | Node48 im =>
    have howns : im.into_owned_iter.Owns IndexedMapping.Repr items := IndexedMapping.Repr.into_owned_iter h
    exact take_and_drop_spec (fun h => ⟨_, h.next_nil, h⟩)
      (fun h => h.next_cons fun h hkey => IndexedMapping.Repr.delete_child h hkey)
      (fun h => IndexedMapping.Repr.drop h.2.1) count howns
  | Node256 dm =>
    have howns : dm.into_owned_iter.Owns DirectMapping.Repr items := DirectMapping.Repr.into_owned_iter h
    exact take_and_drop_spec (fun h => ⟨_, h.next_nil, h⟩)
      (fun h => h.next_cons fun h hkey => DirectMapping.Repr.delete_child h hkey)
      (fun h => DirectMapping.Repr.drop h.2.1) count howns

/-- No child stays behind in a table that was grown. -/
theorem grow_dropping (h : c.Repr items) (hne : c.is_empty = false) (hgrows : c.capacity < 256) :
    ∃ c', c.grow = .ok c' ∧ c.grow_dropping = .ok (c', []) ∧ c'.Repr items := by
  cases c with
  | Empty => cases hne
  | Node4 km =>
    have hle := SortedKeyedMapping.Repr.length_le h
    obtain ⟨new, hnew, hrepr⟩ := SortedKeyedMapping.Repr.from_resized 16 h (by omega)
    obtain ⟨left, hleaving, hleft⟩ := SortedKeyedMapping.from_resized_leaves h hnew
    refine ⟨.Node16 new, by rw [Content.grow, hnew]; rfl, ?_, hrepr⟩
    rw [Content.grow_dropping, hleaving, ok_bind]
    dsimp only
    rw [hleft.drop]
    rfl
  | Node16 km =>
    have hle := SortedKeyedMapping.Repr.length_le h
    obtain ⟨new, hnew, hrepr, _⟩ := IndexedMapping.from_sorted_keyed_spec 48 h (by omega) (by omega)
    obtain ⟨left, hleaving, hleft⟩ := IndexedMapping.from_sorted_keyed_leaves h hnew
    refine ⟨.Node48 new, by rw [Content.grow, hnew]; rfl, ?_, hrepr⟩
    rw [Content.grow_dropping, hleaving, ok_bind]
    dsimp only
    rw [hleft.drop]
    rfl
  | Node48 im =>
    obtain ⟨new, hnew, hrepr⟩ := DirectMapping.from_indexed_spec h
    obtain ⟨left, hleaving, hleft⟩ := DirectMapping.from_indexed_leaves h hnew
    obtain ⟨dropped, hdrop, hperm⟩ := hleft.drop
    refine ⟨.Node256 new, by rw [Content.grow, hnew]; rfl, ?_, hrepr⟩
    rw [Content.grow_dropping, hleaving, ok_bind]
    dsimp only
    rw [hdrop, hperm.eq_nil]
    rfl
  | Node256 dm => exact absurd hgrows (Nat.lt_irrefl _)

/-- No child stays behind in a table that was made narrower. -/
theorem shrink_dropping (h : c.Repr items) (hne : c.is_empty = false) (hroom : items.length ≤ c.narrower) :
    ∃ c', c.narrow = .ok c' ∧ c.shrink_dropping = .ok (c', []) ∧ c'.Repr items := by
  cases c with
  | Empty => cases hne
  | Node4 km => exact ⟨.Node4 km, rfl, rfl, h⟩
  | Node16 km =>
    obtain ⟨new, hnew, hrepr⟩ := SortedKeyedMapping.Repr.from_resized 4 h hroom
    obtain ⟨left, hleaving, hleft⟩ := SortedKeyedMapping.from_resized_leaves h hnew
    refine ⟨.Node4 new, by rw [Content.narrow, hnew]; rfl, ?_, hrepr⟩
    rw [Content.shrink_dropping, hleaving, ok_bind]
    dsimp only
    rw [hleft.drop]
    rfl
  | Node48 im =>
    obtain ⟨new, hnew, hrepr⟩ := SortedKeyedMapping.from_indexed_spec 16 h hroom
    obtain ⟨left, hleaving, hleft⟩ := SortedKeyedMapping.from_indexed_leaves h hnew
    obtain ⟨dropped, hdrop, hperm⟩ := hleft.drop
    refine ⟨.Node16 new, by rw [Content.narrow, hnew]; rfl, ?_, hrepr⟩
    rw [Content.shrink_dropping, hleaving, ok_bind]
    dsimp only
    rw [hdrop, hperm.eq_nil]
    rfl
  | Node256 dm =>
    obtain ⟨new, hnew, hrepr, _⟩ := IndexedMapping.from_direct_spec 48 h (by omega) hroom
    obtain ⟨left, hleaving, hleft⟩ := IndexedMapping.from_direct_leaves h hnew
    refine ⟨.Node48 new, by rw [Content.narrow, hnew]; rfl, ?_, hrepr⟩
    rw [Content.shrink_dropping, hleaving, ok_bind]
    dsimp only
    rw [DirectMapping.drop, hleft.valid.drop, hleft.held_perm.eq_nil]
    rfl

theorem take_value_for_leaf (h : c.Repr items) (hsorted : c.capacity ≤ 16) (hone : items.length = 1) :
    ∃ child c', c.take_value_for_leaf = .ok (child, c') ∧ items.map Prod.snd = [child] ∧ c'.Repr [] := by
  obtain ⟨⟨key, child⟩, rfl⟩ := List.length_eq_one_iff.1 hone
  cases c with
  | Empty =>
    have hnil : [(key, child)] = [] := h
    cases hnil
  | Node4 km =>
    obtain ⟨km', htake, hrepr⟩ := SortedKeyedMapping.Repr.take_value_for_leaf_leaves h
    refine ⟨child, .Node4 km', ?_, rfl, hrepr⟩
    rw [Content.take_value_for_leaf, htake]
    rfl
  | Node16 km =>
    obtain ⟨km', htake, hrepr⟩ := SortedKeyedMapping.Repr.take_value_for_leaf_leaves h
    refine ⟨child, .Node16 km', ?_, rfl, hrepr⟩
    rw [Content.take_value_for_leaf, htake]
    rfl
  | Node48 im => exact absurd hsorted (show ¬ 48 ≤ 16 by decide)
  | Node256 dm => exact absurd hsorted (show ¬ 256 ≤ 16 by decide)

section Layouts

variable [Features] {key : UInt8}

theorem delete_child (h : c.Repr items) (hne : c.is_empty = false) {node : N} (hkey : items.lookup key = some node) :
    ∃ c', c.delete_child key = .ok (some node, c') ∧ c'.Repr (eraseKey key items) ∧ c'.capacity = c.capacity := by
  cases c with
  | Empty => cases hne
  | Node4 km =>
    obtain ⟨km', hdelete, hrepr⟩ := SortedKeyedMapping.Repr.delete_child h (by omega) hkey
    exact ⟨.Node4 km', by rw [Content.delete_child, hdelete]; rfl, hrepr, rfl⟩
  | Node16 km =>
    obtain ⟨km', hdelete, hrepr⟩ := SortedKeyedMapping.Repr.delete_child h (by omega) hkey
    exact ⟨.Node16 km', by rw [Content.delete_child, hdelete]; rfl, hrepr, rfl⟩
  | Node48 im =>
    obtain ⟨im', hdelete, hrepr⟩ := IndexedMapping.Repr.delete_child h hkey
    exact ⟨.Node48 im', by rw [Content.delete_child, hdelete]; rfl, hrepr, rfl⟩
  | Node256 dm =>
    obtain ⟨dm', hdelete, hrepr⟩ := DirectMapping.Repr.delete_child h hkey
    exact ⟨.Node256 dm', by rw [Content.delete_child, hdelete]; rfl, hrepr, rfl⟩

theorem delete_child_none (h : c.Repr items) (hne : c.is_empty = false) (hkey : items.lookup key = none) :
    c.delete_child key = .ok (none, c) := by
  cases c with
  | Empty => cases hne
  | Node4 km => rw [Content.delete_child, SortedKeyedMapping.Repr.delete_child_none h (by omega) hkey]; rfl
  | Node16 km => rw [Content.delete_child, SortedKeyedMapping.Repr.delete_child_none h (by omega) hkey]; rfl
  | Node48 im => rw [Content.delete_child, IndexedMapping.Repr.delete_child_none h hkey]; rfl
  | Node256 dm => rw [Content.delete_child, DirectMapping.Repr.delete_child_none h hkey]; rfl

end Layouts

end Repr

end Content

/-- An operation on a table. -/
inductive TableOp (N : Type) where
  | add_child (key : UInt8) (node : N)
  | add_child_sorted_unchecked (key : UInt8) (node : N)
  | replace_child (key : UInt8) (node : N)
  | delete_child (key : UInt8)
  | take_value_for_leaf
  | grow
  | shrink

namespace TableOp

/-- The children that the operation gives to the table. -/
def given : TableOp N → List N
  | add_child _ node => [node]
  | add_child_sorted_unchecked _ node => [node]
  | replace_child _ node => [node]
  | _ => []

variable [Features]

/-- What is handed back, what is dropped, and the table after the operation. -/
def onContent (self : Content N) : TableOp N → Result ((List N × List N) × Content N)
  | add_child key node => do return (([], []), ← self.add_child key node)
  | add_child_sorted_unchecked key node => do return (([], []), ← self.add_child_sorted_unchecked key node)
  | replace_child key node => return (((self.seek_child key).toList, []), self.write_child key node)
  | delete_child key => do
    let (node, self) ← self.delete_child key
    return ((node.toList, []), self)
  | take_value_for_leaf => do
    let (child, self) ← self.take_value_for_leaf
    return (([child], []), self)
  | grow => do
    let (self, dropped) ← self.grow_dropping
    return (([], dropped), self)
  | shrink => do
    let (self, dropped) ← self.shrink_dropping
    return (([], dropped), self)

/-- What the callers see to. -/
def Allowed (self : Content N) : TableOp N → Prop
  | add_child key _ => self.seek_child key = none ∧ self.num_children < self.capacity
  | add_child_sorted_unchecked key _ =>
    (∀ p ∈ self.iter, p.1 < key) ∧ self.num_children < self.capacity ∧ self.Dense
  | replace_child key _ => (self.seek_child key).isSome
  | delete_child _ => self.is_empty = false
  | take_value_for_leaf => self.capacity ≤ 16 ∧ self.num_children = 1
  | grow => self.is_empty = false ∧ self.capacity < 256
  | shrink => self.is_empty = false ∧ self.num_children ≤ self.narrower

/-- An operation drops no child, and moves each one to one place. -/
theorem step {c : Content N} {items : List (UInt8 × N)} (h : c.Repr items) {op : TableOp N} (hallowed : op.Allowed c) :
    ∃ returned c' items', op.onContent c = .ok ((returned, []), c') ∧ c'.Repr items' ∧
      (op.given ++ items.map Prod.snd).Perm (returned ++ items'.map Prod.snd) := by
  have hnum := h.num_children_eq
  cases op with
  | add_child key node =>
    obtain ⟨habsent, hroom⟩ := hallowed
    rw [h.seek_child] at habsent
    obtain ⟨c', hadd, hrepr, _⟩ := h.add_child node habsent (by omega)
    refine ⟨[], c', _, ?_, hrepr, ((insertSorted_perm key node items).map Prod.snd).symm⟩
    rw [onContent, hadd]
    rfl
  | add_child_sorted_unchecked key node =>
    obtain ⟨hlarge, hroom, hdense⟩ := hallowed
    rw [h.iter_eq] at hlarge
    have hloaded : c.Loaded items := ⟨h, hdense⟩
    obtain ⟨c', hadd, ⟨hrepr, _⟩, _⟩ := hloaded.add_child_sorted_unchecked node hlarge (by omega)
    refine ⟨[], c', _, ?_, hrepr, ?_⟩
    · rw [onContent, hadd]
      rfl
    · rw [List.map_append]
      exact List.perm_append_comm
  | replace_child key node =>
    obtain ⟨old, hold⟩ := Option.isSome_iff_exists.1 hallowed
    refine ⟨[old], _, _, ?_, h.write_child key node, ?_⟩
    · rw [onContent, hold]
      rfl
    · rw [h.seek_child] at hold
      obtain ⟨before, behind, rfl, _⟩ := List.lookup_eq_some_iff.1 hold
      rw [setKey_append_cons h.ascending, List.map_append, List.map_append]
      -- both orders bring the two children to the front
      calc node :: (before.map Prod.snd ++ old :: behind.map Prod.snd)
          _ ~ (node :: old :: (before.map Prod.snd ++ behind.map Prod.snd)) := List.perm_middle.cons node
          _ ~ (old :: node :: (before.map Prod.snd ++ behind.map Prod.snd)) := List.Perm.swap _ _ _
          _ ~ (old :: (before.map Prod.snd ++ node :: behind.map Prod.snd)) := List.perm_middle.symm.cons old
  | delete_child key =>
    cases hkey : items.lookup key with
    | none =>
      refine ⟨[], c, items, ?_, h, List.Perm.refl _⟩
      rw [onContent, Content.Repr.delete_child_none h hallowed hkey]
      rfl
    | some node =>
      obtain ⟨c', hdelete, hrepr, _⟩ := Content.Repr.delete_child h hallowed hkey
      refine ⟨[node], c', _, ?_, hrepr, (h.ascending.eraseKey_perm hkey).map Prod.snd⟩
      rw [onContent, hdelete]
      rfl
  | take_value_for_leaf =>
    obtain ⟨hsorted, hone⟩ := hallowed
    obtain ⟨child, c', htake, hchild, hrepr⟩ := h.take_value_for_leaf hsorted (by omega)
    refine ⟨[child], c', [], ?_, hrepr, ?_⟩
    · rw [onContent, htake]
      rfl
    · rw [hchild]
      exact List.Perm.refl _
  | grow =>
    obtain ⟨hne, hgrows⟩ := hallowed
    obtain ⟨c', _, hgrow, hrepr⟩ := h.grow_dropping hne hgrows
    refine ⟨[], c', items, ?_, hrepr, List.Perm.refl _⟩
    rw [onContent, hgrow]
    rfl
  | shrink =>
    obtain ⟨hne, hroom⟩ := hallowed
    obtain ⟨c', _, hshrink, hrepr⟩ := h.shrink_dropping hne (by omega)
    refine ⟨[], c', items, ?_, hrepr, List.Perm.refl _⟩
    rw [onContent, hshrink]
    rfl

end TableOp

section Ledger

variable [Features]

/-- What a run hands back, what it drops, and the table after it. -/
def runContent (self : Content N) : List (TableOp N) → Result ((List N × List N) × Content N)
  | [] => return (([], []), self)
  | op :: ops => do
    let ((returned, dropped), next) ← op.onContent self
    let ((returned_later, dropped_later), last) ← runContent next ops
    return ((returned ++ returned_later, dropped ++ dropped_later), last)

/-- Every operation of the run is allowed on the table that it finds. -/
def TableOp.AllowedRun (self : Content N) : List (TableOp N) → Prop
  | [] => True
  | op :: ops => op.Allowed self ∧ ∀ moved next, op.onContent self = .ok (moved, next) → AllowedRun next ops

theorem TableOp.AllowedRun.cons {self next : Content N} {op : TableOp N} {ops : List (TableOp N)}
    {moved : List N × List N} (hop : op.Allowed self) (hstep : op.onContent self = .ok (moved, next))
    (hrest : AllowedRun next ops) : AllowedRun self (op :: ops) := by
  refine ⟨hop, fun moved' next' hstep' => ?_⟩
  cases hstep.symm.trans hstep'
  exact hrest

theorem runContent_cons {self next last : Content N} {op : TableOp N} {ops : List (TableOp N)}
    {returned dropped returned_later dropped_later : List N}
    (hstep : op.onContent self = .ok ((returned, dropped), next))
    (hrun : runContent next ops = .ok ((returned_later, dropped_later), last)) :
    runContent self (op :: ops) = .ok ((returned ++ returned_later, dropped ++ dropped_later), last) := by
  rw [runContent, hstep, ok_bind]
  dsimp only
  rw [hrun]
  rfl

end Ledger

namespace DefaultNode

variable {V : Type} {self child : DefaultNode V} {items : List (UInt8 × DefaultNode V)} {key : UInt8}

theorem is_empty_of_wide {content : Content (DefaultNode V)} (hwide : 4 < content.capacity) :
    content.is_empty = false := by
  cases content with
  | Empty => exact absurd hwide (by decide : ¬ 4 < 0)
  | _ => rfl

theorem shrink_eq (hwide : 4 < self.content.capacity) :
    self.shrink = (do return mk self.pfx self.value (← self.content.narrow)) := by
  obtain ⟨pfx, value, content⟩ := self
  cases content with
  | Empty => exact absurd hwide (by decide : ¬ 4 < 0)
  | Node4 km => exact absurd hwide (Nat.lt_irrefl _)
  | _ => simp only [DefaultNode.shrink, Content.narrow, content_mk, bind_map_left]

variable [Features]

/-- Deletion in a node that may be narrowed afterwards. -/
theorem delete_child_eq (hwide : 4 < self.content.capacity) :
    self.delete_child key = (do
      let (node, content) ← self.content.delete_child key
      let self := mk self.pfx self.value content
      return (node, ← if content.num_children ≤ content.narrower then self.shrink else pure self)) := by
  obtain ⟨pfx, value, content⟩ := self
  cases content with
  | Empty => exact absurd hwide (by decide : ¬ 4 < 0)
  | Node4 km => exact absurd hwide (Nat.lt_irrefl _)
  | _ =>
    -- the bound of each width is one above the room of the next narrower one
    simp only [DefaultNode.delete_child, Content.delete_child, content_mk, bind_assoc, pure_bind, ← Nat.lt_succ_iff]
    rfl

/-- The table that `add_child` starts from. -/
def table (self : DefaultNode V) : Content (DefaultNode V) :=
  if self.content.is_empty then .Node4 .new else self.content

/-- `add_child` is an allowed run on the table of the node. -/
theorem add_child_run (h : self.content.Repr items) (hkey : items.lookup key = none) :
    ∃ ops content, self.add_child key child = .ok (mk self.pfx self.value content) ∧
      TableOp.AllowedRun self.table ops ∧ runContent self.table ops = .ok (([], []), content) ∧
      ops.flatMap TableOp.given = [child] := by
  have hlen := length_le_of_ascending (h.ascending.insertSorted (lookup_eq_none_iff.1 hkey) child)
  rw [length_insertSorted] at hlen
  obtain ⟨hrepr, hne⟩ : self.table.Repr items ∧ self.table.is_empty = false := by
    unfold table
    cases hempty : self.content.is_empty with
    | true =>
      rw [h.eq_nil_of_is_empty hempty]
      exact ⟨SortedKeyedMapping.Repr.new, rfl⟩
    | false => exact ⟨h, hempty⟩
  have habsent : ∀ {content : Content (DefaultNode V)}, content.Repr items → items.length < content.capacity →
      (TableOp.add_child key child).Allowed content := fun hc hroom =>
    ⟨(hc.seek_child key).trans hkey, hc.num_children_eq.trans_lt hroom⟩
  have hbody : self.add_child key child = (do
      let content ← if ← self.table.is_full then self.table.grow else pure self.table
      return mk self.pfx self.value (← content.add_child key child)) := rfl
  rw [hbody, hrepr.is_full hne, ok_bind]
  by_cases hfull : self.table.capacity ≤ items.length
  · obtain ⟨grown, hgrow, hgrown, hroom, _⟩ := hrepr.grow hne hfull (by omega)
    obtain ⟨grown', hgrow', hdropping, _⟩ := hrepr.grow_dropping hne (by omega)
    cases hgrow.symm.trans hgrow'
    obtain ⟨content, hadd, _⟩ := hgrown.add_child child hkey hroom
    have hgrows : TableOp.grow.onContent self.table = .ok (([], []), grown) := by
      rw [TableOp.onContent, hdropping]
      rfl
    have hadds : (TableOp.add_child key child).onContent grown = .ok (([], []), content) := by
      rw [TableOp.onContent, hadd]
      rfl
    refine ⟨[.grow, .add_child key child], content, ?_, .cons ⟨hne, by omega⟩ hgrows ?_,
      runContent_cons hgrows (runContent_cons hadds rfl), rfl⟩
    · rw [if_pos (decide_eq_true hfull), hgrow, ok_bind]
      dsimp only
      rw [hadd]
      rfl
    · exact .cons (habsent hgrown hroom) hadds trivial
  · have hroom := not_le.1 hfull
    obtain ⟨content, hadd, _⟩ := hrepr.add_child child hkey hroom
    have hadds : (TableOp.add_child key child).onContent self.table = .ok (([], []), content) := by
      rw [TableOp.onContent, hadd]
      rfl
    refine ⟨[.add_child key child], content, ?_, .cons (habsent hrepr hroom) hadds trivial,
      runContent_cons hadds rfl, rfl⟩
    rw [if_neg (by rw [decide_eq_true_eq]; exact hfull), pure_eq_ok, ok_bind]
    dsimp only
    rw [hadd]
    rfl

theorem onContent_delete_child {content after : Content (DefaultNode V)}
    (hdelete : content.delete_child key = .ok (some child, after)) :
    (TableOp.delete_child key).onContent content = .ok (([child], []), after) := by
  rw [TableOp.onContent, hdelete]
  rfl

/-- A wide table is kept or made narrower. -/
theorem delete_child_run_wide (h : self.content.Repr items) (hkey : items.lookup key = some child)
    (hwide : 4 < self.content.capacity) :
    ∃ ops content, self.delete_child key = .ok (some child, mk self.pfx self.value content) ∧
      TableOp.AllowedRun self.content ops ∧ runContent self.content ops = .ok (([child], []), content) := by
  have hne := is_empty_of_wide hwide
  obtain ⟨after, hdelete, hafter, hsame⟩ := Content.Repr.delete_child h hne hkey
  have hstep := onContent_delete_child hdelete
  rw [delete_child_eq hwide, hdelete, ok_bind]
  dsimp only
  by_cases hnarrow : after.num_children ≤ after.narrower
  · rw [hafter.num_children_eq] at hnarrow
    have hwide' : 4 < (mk self.pfx self.value after).content.capacity := by
      rw [content_mk, hsame]
      exact hwide
    have hne' : after.is_empty = false := is_empty_of_wide hwide'
    obtain ⟨content, hplain, hdropping, _⟩ := hafter.shrink_dropping hne' hnarrow
    have hshrink : TableOp.shrink.onContent after = .ok (([], []), content) := by
      rw [TableOp.onContent, hdropping]
      rfl
    refine ⟨[.delete_child key, .shrink], content, ?_, .cons hne hstep (.cons ⟨hne', ?_⟩ hshrink trivial),
      runContent_cons hstep (runContent_cons hshrink rfl)⟩
    · rw [if_pos (by rw [hafter.num_children_eq]; exact hnarrow), shrink_eq hwide']
      dsimp only [content_mk]
      rw [hplain]
      rfl
    · rw [hafter.num_children_eq]
      exact hnarrow
  · refine ⟨[.delete_child key], after, ?_, .cons hne hstep trivial, runContent_cons hstep rfl⟩
    rw [if_neg hnarrow]
    rfl

/-- A `Node4` that keeps two children, or a value, keeps its table. -/
theorem delete_child_run_narrow {km : SortedKeyedMapping (DefaultNode V) 4} (hcontent : self.content = .Node4 km)
    (h : self.content.Repr items) (hkey : items.lookup key = some child)
    (hkeeps : (eraseKey key items).length ≠ 1 ∨ self.value.isSome) :
    ∃ content, self.delete_child key = .ok (some child, mk self.pfx self.value content) ∧
      TableOp.AllowedRun self.content [.delete_child key] ∧
      runContent self.content [.delete_child key] = .ok (([child], []), content) := by
  obtain ⟨pfx, value, content⟩ := self
  cases hcontent
  obtain ⟨km', hdelete, hafter⟩ := SortedKeyedMapping.Repr.delete_child h (by omega) hkey
  have hstep : (TableOp.delete_child key).onContent (.Node4 km) = .ok (([child], []), .Node4 km') :=
    onContent_delete_child (by rw [Content.delete_child, hdelete]; rfl)
  refine ⟨.Node4 km', ?_, .cons rfl hstep trivial, runContent_cons hstep rfl⟩
  unfold DefaultNode.delete_child
  dsimp only [content_mk, pfx_mk, value_mk]
  rw [hdelete, ok_bind]
  dsimp only
  by_cases hone : (mk pfx value (.Node4 km')).num_children = 1
  · have hvalue : value.isSome = true := hkeeps.resolve_left (not_not.2 (hafter.num_children_eq.symm.trans hone))
    have hshrink : (mk pfx value (.Node4 km')).shrink = .ok (mk pfx value (.Node4 km')) := by
      simp [DefaultNode.shrink, hvalue]
    rw [if_pos hone, hshrink]
    rfl
  · rw [if_neg hone]
    rfl

/-- The child that a `Node4` is replaced with is taken out of its table, which is empty then. -/
theorem delete_child_run_collapse {km : SortedKeyedMapping (DefaultNode V) 4} (hcontent : self.content = .Node4 km)
    (h : self.content.Repr items) (hkey : items.lookup key = some child) {edge : UInt8} {lone : DefaultNode V}
    (hone : eraseKey key items = [(edge, lone)]) (hvalue : self.value = none) :
    ∃ left, self.delete_child key =
        .ok (some child, mk (partial_extended_with self.pfx lone.pfx) lone.value lone.content) ∧
      TableOp.AllowedRun self.content [.delete_child key, .take_value_for_leaf] ∧
      runContent self.content [.delete_child key, .take_value_for_leaf] = .ok (([child, lone], []), left) ∧
      left.Repr [] := by
  obtain ⟨pfx, value, content⟩ := self
  cases hcontent
  cases hvalue
  obtain ⟨km', hdelete, hafter⟩ := SortedKeyedMapping.Repr.delete_child h (by omega) hkey
  rw [hone] at hafter
  obtain ⟨left, htake, hleft⟩ := SortedKeyedMapping.Repr.take_value_for_leaf_leaves hafter
  have hnum : km'.num_children = 1 := hafter.num_children_eq
  have hstep : (TableOp.delete_child key).onContent (.Node4 km) = .ok (([child], []), .Node4 km') :=
    onContent_delete_child (by rw [Content.delete_child, hdelete]; rfl)
  have htakes : TableOp.take_value_for_leaf.onContent (.Node4 km') = .ok (([lone], []), .Node4 left) := by
    rw [TableOp.onContent, Content.take_value_for_leaf, htake]
    rfl
  have hshrink : (mk pfx none (.Node4 km')).shrink =
      .ok (mk (partial_extended_with pfx lone.pfx) lone.value lone.content) := by
    simp [DefaultNode.shrink, htake]
  refine ⟨.Node4 left, ?_, .cons rfl hstep (.cons ⟨show 4 ≤ 16 by decide, hnum⟩ htakes trivial),
    runContent_cons hstep (runContent_cons htakes rfl), hleft⟩
  unfold DefaultNode.delete_child
  dsimp only [content_mk, pfx_mk, value_mk]
  rw [hdelete, ok_bind]
  dsimp only
  rw [if_pos (show (mk pfx none (.Node4 km')).num_children = 1 from hnum), hshrink]
  rfl

/-- `delete_child` is an allowed run on the table of the node. The node keeps the table, or a
lone child is taken out of it that the node becomes. -/
theorem delete_child_run (h : self.content.Repr items) (hkey : items.lookup key = some child) :
    ∃ ops returned left after, self.delete_child key = .ok (some child, after) ∧
      TableOp.AllowedRun self.content ops ∧ runContent self.content ops = .ok ((child :: returned, []), left) ∧
      (returned = [] ∧ after = mk self.pfx self.value left ∨
        ∃ lone, returned = [lone] ∧ left.Repr [] ∧
          after = mk (partial_extended_with self.pfx lone.pfx) lone.value lone.content) := by
  cases hcontent : self.content with
  | Empty =>
    rw [hcontent] at h
    rw [show items = [] from h] at hkey
    cases hkey
  | Node4 km =>
    rw [← hcontent]
    by_cases hkeeps : (eraseKey key items).length ≠ 1 ∨ self.value.isSome
    · obtain ⟨content, hdelete, hallowed, hrun⟩ := delete_child_run_narrow hcontent h hkey hkeeps
      exact ⟨_, [], content, _, hdelete, hallowed, hrun, .inl ⟨rfl, rfl⟩⟩
    · obtain ⟨hlength, hvalue⟩ := not_or.1 hkeeps
      obtain ⟨⟨edge, lone⟩, hone⟩ := List.length_eq_one_iff.1 (not_not.1 hlength)
      obtain ⟨left, hdelete, hallowed, hrun, hleft⟩ :=
        delete_child_run_collapse hcontent h hkey hone (Option.not_isSome_iff_eq_none.1 hvalue)
      exact ⟨_, [lone], left, _, hdelete, hallowed, hrun, .inr ⟨lone, rfl, hleft, rfl⟩⟩
  | _ =>
    have hwide : 4 < self.content.capacity := by
      rw [hcontent]
      simp [Content.capacity]
    obtain ⟨ops, content, hdelete, hallowed, hrun⟩ := delete_child_run_wide h hkey hwide
    rw [← hcontent]
    exact ⟨ops, [], content, _, hdelete, hallowed, hrun, .inl ⟨rfl, rfl⟩⟩

end DefaultNode

end rart.node
