import Rart.Iter.Owned
import Rart.Iter.Values
import Rart.Tree.Refines

open SortedAssoc
open rart.iter rart.node rart.utils rart.Trie

namespace rart

variable {N V : Type} [Node N V]

/-- The entries below an optional root. -/
def rootEntries (root : Option N) : List (Bytes × V) := root.elim [] entries

/-- What is found below a root lists the map that it stands for. -/
theorem lists_rootEntries {root : Option N} {m : RefMap V} (hwf : ∀ r, root = some r → Wf r)
    (hfind : ∀ key, (root.bind fun r => find r key) = m.lookup key) : m.Lists (rootEntries root) := by
  cases root with
  | none =>
    refine ⟨ascending_nil, fun key value => ?_⟩
    rw [← hfind]
    exact iff_of_false List.not_mem_nil (by simp)
  | some r =>
    have hr := hwf r rfl
    refine ⟨hr.entries_ascending, fun key value => ?_⟩
    rw [← hfind]
    exact hr.mem_entries_iff

theorem Iter.new_root_spec {root : Option N} (hwf : ∀ r, root = some r → Wf r) :
    ∃ it : Iter N V, Iter.new root = .ok it ∧ it.collect = rootEntries root := by
  cases root with
  | none =>
    refine ⟨.empty, rfl, ?_⟩
    exact Iter.collect_done none [] none
  | some r => exact Iter.new_spec (hwf r rfl)

theorem ValuesIter.collect_new_root {root : Option N} (hwf : ∀ r, root = some r → Wf r) :
    (ValuesIter.new root : ValuesIter N V).collect = (rootEntries root).map Prod.snd := by
  cases root with
  | none =>
    unfold ValuesIter.collect ValuesIter.new
    rw [Cursor.collect_onceThen, ValuesIter.cursor_collect_eq]
    · rfl
    · intro l hl
      cases hl
  | some r => exact ValuesIter.collect_new (hwf r rfl)

namespace tree

variable [Features] {tree : AdaptiveRadixTree V} {m : RefMap V}

/-- Every read answers as the map does. -/
structure Reads (tree : AdaptiveRadixTree V) (m : RefMap V) : Prop where
  get_k : ∀ key, tree.get_k key = .ok (m.lookup key)
  len : tree.len = m.size
  is_empty : tree.is_empty = true ↔ m.size = 0
  iter : ∃ it : Iter (DefaultNode V) V, Iter.new tree.root = .ok it ∧ m.Lists it.collect ∧
    (ValuesIter.new tree.root).collect = it.collect.map Prod.snd

theorem Represents.lists (h : Represents tree m) : m.Lists (rootEntries tree.root) :=
  lists_rootEntries h.wf h.find

theorem Represents.reads (h : Represents tree m) : Reads tree m where
  get_k := h.get_k_eq
  len := h.len
  is_empty := h.is_empty_iff
  iter := by
    obtain ⟨it, hit, hcollect⟩ := Iter.new_root_spec h.wf
    refine ⟨it, hit, ?_, ?_⟩
    · rw [hcollect]
      exact h.lists
    · rw [hcollect]
      exact ValuesIter.collect_new_root h.wf

end tree

end rart
