import Rart.Iter.Inner
import Rart.Iter.Seek

open SortedAssoc LexOrder
open rart.partials rart.Trie rart.Node

namespace rart.iter

variable {N V : Type} [Node N V]

/-- `build_positioned_stack` -/
def build_positioned_stack (node : N) (seek_key : Bytes) (depth : Nat) :
    Result (List (Nat × IterFrameIter N)) := do
  let it ← positioned_iter node seek_key depth
  return (it.map fun it => ((pfx node).length, it)).toList

def IterInner.new_with_start_bound (node : N) (start_bound : Bound) : Result (IterInner N) :=
  match seek_key start_bound with
  | some key => do return ⟨← build_positioned_stack node key 0, pfx node, some start_bound⟩
  | none => return ⟨[((pfx node).length, .Plain (Node.iter node))], pfx node, none⟩

/-- `Iter`: `once(first).chain(children)`, where either part may be empty. -/
structure Iter (N V : Type) where
  first : Option (Bytes × V)
  children : IterInner N

namespace Iter

/-- `std::iter::empty()` -/
def empty : Iter N V := ⟨none, ⟨[], [], none⟩⟩

/-- `std::iter::once(entry)` -/
def once (entry : Bytes × V) : Iter N V := ⟨some entry, ⟨[], [], none⟩⟩

def from_root_and_children (root_key : Bytes) (root_value : Option V) (children : IterInner N) :
    Iter N V := ⟨root_value.map fun value => (root_key, value), children⟩

def missing_data : String := "corruption: missing data at leaf node during iteration"

/-- Both `new_with_prefix` and, at the root's own prefix, `new`. -/
def new_with_prefix (node : Option N) (root_key : Bytes) : Result (Iter N V) :=
  match node with
  | none => return empty
  | some root_node => do
    let root_value := value root_node
    if is_leaf root_node then return once (root_key, ← expect root_value missing_data)
    else return from_root_and_children root_key root_value (.from_node_and_key root_node root_key)

def new (node : Option N) : Result (Iter N V) :=
  match node with
  | none => return empty
  | some root_node => new_with_prefix (some root_node) (pfx root_node)

def new_with_start_bound (node : Option N) (start_bound : Bound) : Result (Iter N V) :=
  match node with
  | none => return empty
  | some root_node => do
    let root_key := pfx root_node
    let root_value := value root_node
    let satisfies_start := satisfies_start start_bound root_key
    if is_leaf root_node then
      if satisfies_start then return once (root_key, ← expect root_value missing_data)
      else return empty
    else
      let children ← IterInner.new_with_start_bound root_node start_bound
      if satisfies_start then return from_root_and_children root_key root_value children
      else return ⟨none, children⟩

/-- Everything that `next` returns until it returns `None`. -/
def collect (self : Iter N V) : List (Bytes × V) :=
  IterInner.cursor.onceThen.collect (self.first, self.children)

theorem collect_eq (self : Iter N V) :
    self.collect = self.first.toList ++ IterInner.cursor.collect self.children :=
  Cursor.collect_onceThen _ _ _

theorem collect_done (first : Option (Bytes × V)) (cur_key : Bytes) (start_bound : Option Bound) :
    (⟨first, ⟨[], cur_key, start_bound⟩⟩ : Iter N V).collect = first.toList := by
  rw [collect_eq, Cursor.collect_of_none rfl, List.append_nil]

end Iter

/-- A walk over everything below a node. -/
theorem pending_from_node {node : N} (hwf : Wf node) (cur_key : Bytes) :
    IterInner.Pending (.from_node_and_key node cur_key) (under cur_key (childEntries (Node.iter node))) where
  nested := And.intro (Nat.le_refl _) trivial
  wf := by
    intro frame hframe p hp
    rw [List.mem_singleton.1 hframe] at hp
    exact hwf.child hp
  eq := by
    unfold IterInner.from_node_and_key
    simp only [IterInner.emitted, IterInner.pending, List.append_nil, List.take_length]
    rfl

/-- The iterator over a subtree hands out its entries, under the key it is given. -/
theorem Iter.new_with_prefix_spec {node : N} (hwf : Wf node) (root_key : Bytes) :
    ∃ it : Iter N V, Iter.new_with_prefix (some node) root_key = .ok it ∧
      it.collect = entriesFrom root_key node := by
  unfold Iter.new_with_prefix entriesFrom
  dsimp only
  split
  · rename_i hleaf
    have hnil := iter_leaf hwf.layout hleaf
    obtain ⟨v, hv⟩ := hwf.occupied hnil
    rw [hv, hnil]
    exact ⟨_, rfl, Iter.collect_done _ _ _⟩
  · refine ⟨_, rfl, ?_⟩
    rw [Iter.collect_eq, from_root_and_children,
      IterInner.Pending.collect_eq (pending_from_node hwf root_key)]

theorem Iter.new_spec {node : N} (hwf : Wf node) :
    ∃ it : Iter N V, Iter.new (some node) = .ok it ∧ it.collect = entries node := by
  rw [← entriesFrom_pfx]
  exact Iter.new_with_prefix_spec hwf (pfx node)

section Bounds

/-- In an ascending list, dropping until a key is accepted is filtering. -/
theorem dropWhile_satisfies_start {l : List (Bytes × V)} (h : Ascending l) (start_bound : Bound) :
    (l.dropWhile fun e => !satisfies_start start_bound e.1) =
      l.filter fun e => satisfies_start start_bound e.1 := by
  apply dropWhile_eq_filter
  refine h.imp fun hlt hok => ?_
  rw [satisfies_start_iff] at hok ⊢
  exact hok.mono (le_of_lt hlt)

/-- The seek drops only keys that the bound rejects, so that it can be followed
by a filter. -/
theorem IterInner.new_with_start_bound_spec {node : N} (hwf : Wf node) (start_bound : Bound) :
    ∃ walk : IterInner N, IterInner.new_with_start_bound node start_bound = .ok walk ∧
      IterInner.cursor.collect walk = (under (pfx node) (childEntries (Node.iter node))).filter
        fun e => satisfies_start start_bound e.1 := by
  unfold IterInner.new_with_start_bound
  cases hseek : seek_key start_bound with
  | none =>
    have hall : ∀ e ∈ under (pfx node) (childEntries (Node.iter node)),
        satisfies_start start_bound e.1 = true := by
      intro e _
      cases start_bound with
      | Unbounded => rfl
      | Included key => cases hseek
      | Excluded key => cases hseek
    refine ⟨_, rfl, ?_⟩
    rw [List.filter_eq_self.2 hall]
    exact IterInner.Pending.collect_eq (pending_from_node hwf (pfx node))
  | some key =>
    obtain ⟨it, dropped, hit, hsplit, hdropped, hkept⟩ := positioned_iter_spec hwf key
    unfold build_positioned_stack
    dsimp only
    rw [hit]
    refine ⟨_, rfl, ?_⟩
    have hasc : Ascending (under (pfx node) (childEntries (Node.iter node))) := by
      have hall := hwf.entries_ascending
      rw [entries_eq_append, Ascending, List.pairwise_append] at hall
      exact hall.2.1
    have hnone : (under (pfx node) (childEntries dropped)).filter
        (fun e => satisfies_start start_bound e.1) = [] := by
      rw [List.filter_eq_nil_iff]
      intro e he
      obtain ⟨f, hf, rfl⟩ := List.mem_map.1 he
      rw [satisfies_start_iff]
      exact not_startOk_of_lt hseek (hdropped f hf).1
    rw [hsplit, childEntries_append, under_append] at hasc ⊢
    rw [List.filter_append, hnone, List.nil_append,
      ← dropWhile_satisfies_start (List.pairwise_append.1 hasc).2.1 start_bound]
    refine IterInner.Pending.collect_eq ⟨?_, ?_, ?_⟩
    · cases it with
      | none => trivial
      | some it => exact And.intro (Nat.le_refl _) trivial
    · intro frame hframe p hp
      cases it with
      | none => cases hframe
      | some it =>
        rw [List.mem_singleton.1 hframe] at hp
        refine hwf.child ?_
        rw [hsplit]
        exact List.mem_append_right _ hp
    · cases it with
      | none => rfl
      | some it =>
        simp only [IterInner.emitted, Option.map_some, Option.toList_some, IterInner.pending,
          List.append_nil, List.take_length, Option.elim_some]

theorem Iter.new_with_start_bound_spec {node : N} (hwf : Wf node) (start_bound : Bound) :
    ∃ it : Iter N V, Iter.new_with_start_bound (some node) start_bound = .ok it ∧
      it.collect = (entries node).filter fun e => satisfies_start start_bound e.1 := by
  unfold Iter.new_with_start_bound
  rw [entries_eq_append]
  dsimp only
  cases hleaf : is_leaf node with
  | true =>
    have hnil := iter_leaf hwf.layout hleaf
    obtain ⟨v, hv⟩ := hwf.occupied hnil
    rw [hv, hnil]
    cases hsat : satisfies_start start_bound (pfx node) with
    | true => exact ⟨_, rfl, by simp [Iter.once, Iter.collect_done, hsat]⟩
    | false => exact ⟨_, rfl, by simp [Iter.empty, Iter.collect_done, hsat]⟩
  | false =>
    obtain ⟨walk, hwalk, hcollect⟩ := IterInner.new_with_start_bound_spec hwf start_bound
    rw [if_neg (by simp), hwalk, ok_bind]
    cases hsat : satisfies_start start_bound (pfx node) with
    | true =>
      refine ⟨_, rfl, ?_⟩
      rw [Iter.collect_eq, Iter.from_root_and_children, hcollect, List.filter_append]
      congr 1
      cases value node with
      | none => rfl
      | some v => simp [hsat]
    | false =>
      refine ⟨_, rfl, ?_⟩
      rw [Iter.collect_eq, hcollect, List.filter_append]
      cases value node with
      | none => rfl
      | some v => simp [hsat, under]

end Bounds

end rart.iter
