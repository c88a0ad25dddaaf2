import Rart.Trie

open rart.Trie rart.Node

namespace rart.iter

variable {N V : Type} [Node N V]

/-- The entries at and below a node, each with the prefixes on the way to it. -/
def paths (n : N) : List (List Bytes × V) :=
  ((value n).map fun v => ([pfx n], v)).toList ++
    (Node.iter n).attach.flatMap fun ⟨p, _hp⟩ => (paths p.2).map fun e => (pfx n :: e.1, e.2)
termination_by rank n
decreasing_by exact rank_iter _hp

/-- The paths of the children. -/
def childPaths (children : List (UInt8 × N)) : List (List Bytes × V) :=
  children.flatMap fun p => paths p.2

/-- Paths with the segments that stand before them. -/
def underSegments (base : List Bytes) (l : List (List Bytes × V)) : List (List Bytes × V) :=
  l.map fun e => (base ++ e.1, e.2)

theorem paths_eq (n : N) :
    paths n = ((value n).map fun v => ([pfx n], v)).toList ++
      underSegments [pfx n] (childPaths (Node.iter n)) := by
  rw [paths, underSegments, childPaths, List.map_flatMap]
  congr 1
  exact SortedAssoc.flatMap_attach fun _ => rfl

theorem childPaths_cons (p : UInt8 × N) (children : List (UInt8 × N)) :
    childPaths (p :: children) = paths p.2 ++ childPaths children := rfl

omit [Node N V] in
theorem underSegments_append (base : List Bytes) (l m : List (List Bytes × V)) :
    underSegments base (l ++ m) = underSegments base l ++ underSegments base m := List.map_append

omit [Node N V] in
theorem underSegments_underSegments (base s : List Bytes) (l : List (List Bytes × V)) :
    underSegments base (underSegments s l) = underSegments (base ++ s) l := by
  unfold underSegments
  rw [List.map_map]
  refine List.map_congr_left fun e _ => ?_
  simp [List.append_assoc]

/-- The paths at and below a node, given the segments of the node's own key. -/
def pathsFrom (base : List Bytes) (n : N) : List (List Bytes × V) :=
  ((value n).map fun v => (base, v)).toList ++ underSegments base (childPaths (Node.iter n))

theorem underSegments_paths (base : List Bytes) (n : N) :
    underSegments base (paths n) = pathsFrom (base ++ [pfx n]) n := by
  rw [paths_eq, pathsFrom, underSegments_append, underSegments_underSegments]
  congr 1
  cases value n <;> rfl

/-- A path's entry. -/
def joined (e : List Bytes × V) : Bytes × V := (e.1.flatten, e.2)

omit [Node N V] in
theorem map_joined_underSegments (base : List Bytes) (l : List (List Bytes × V)) :
    (underSegments base l).map joined = under base.flatten (l.map joined) := by
  unfold underSegments under
  rw [List.map_map, List.map_map]
  refine List.map_congr_left fun e _ => ?_
  simp [joined]

/-- Without their seams, the paths are the entries. -/
theorem map_joined_paths (n : N) : (paths n).map joined = entries n := by
  induction hn : rank n using Nat.strongRecOn generalizing n with
  | ind m ih =>
    subst hn
    have hchildren : (childPaths (Node.iter n)).map joined = childEntries (Node.iter n) := by
      unfold childPaths childEntries
      rw [List.map_flatMap]
      exact List.flatMap_congr fun p hp => ih _ (rank_iter (k := p.1) hp) _ rfl
    rw [paths_eq, entries_eq_append, List.map_append, map_joined_underSegments, hchildren]
    simp only [List.flatten_singleton]
    congr 1
    cases value n <;> simp [joined]

theorem map_joined_childPaths (children : List (UInt8 × N)) :
    (childPaths children).map joined = childEntries children := by
  unfold childPaths childEntries
  rw [List.map_flatMap]
  exact List.flatMap_congr fun p _ => map_joined_paths p.2

theorem map_joined_pathsFrom (base : List Bytes) (n : N) :
    (pathsFrom base n).map joined = entriesFrom base.flatten n := by
  rw [pathsFrom, entriesFrom, List.map_append, map_joined_underSegments, map_joined_childPaths]
  congr 1
  cases value n <;> rfl

end rart.iter
