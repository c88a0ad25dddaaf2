import Rart.Iter.Frames
import Rart.Lib.Cursor

open SortedAssoc LexOrder
open rart.partials rart.Trie rart.Node

namespace rart.iter

variable {N V : Type} [Node N V]

/-- `IterInner`, the top of its stack first. -/
structure IterInner (N : Type) where
  node_iter_stack : List (Nat × IterFrameIter N)
  cur_key : Bytes
  start_bound : Option Bound

namespace IterInner

def from_node_and_key (node : N) (cur_key : Bytes) : IterInner N :=
  ⟨[(cur_key.length, .Plain (Node.iter node))], cur_key, none⟩

def new (node : N) : IterInner N := from_node_and_key node (pfx node)

/-- The key of the frame that a walk goes back to. -/
def back_to (cur_key : Bytes) (stack : List (Nat × IterFrameIter N)) : Bytes :=
  match stack with
  | [] => cur_key
  | (parent_depth, _) :: _ => cur_key.take parent_depth

/-- One turn of the loop of `next`. -/
def turn (self : IterInner N) : Option (Option (Bytes × V) × IterInner N) :=
  match self.node_iter_stack with
  | [] => none
  | (tree_depth, last_iter) :: stack =>
    let cur_key := self.cur_key.take tree_depth
    match last_iter.next with
    | none =>
      some (none, { self with node_iter_stack := stack, cur_key := back_to cur_key stack })
    | some ((_, node), last_iter) =>
      let cur_key := cur_key ++ pfx node
      let is_inner := !is_leaf node
      let stack := (tree_depth, last_iter) :: stack
      let stack :=
        if is_inner then (tree_depth + (pfx node).length, .Plain (Node.iter node)) :: stack else stack
      match value node with
      | some v =>
        match self.start_bound with
        | some start_bound =>
          if satisfies_start start_bound cur_key then some (some (cur_key, v), ⟨stack, cur_key, none⟩)
          else some (none, ⟨stack, cur_key, some start_bound⟩)
        | none => some (some (cur_key, v), ⟨stack, cur_key, none⟩)
      | none =>
        let cur_key := if is_inner then cur_key else cur_key.take tree_depth
        some (none, ⟨stack, cur_key, self.start_bound⟩)

theorem turn_lt {self self' : IterInner N} {o : Option (Bytes × V)} (h : self.turn = some (o, self')) :
    stackWeight self'.node_iter_stack < stackWeight self.node_iter_stack := by
  obtain ⟨stack, cur_key, start_bound⟩ := self
  cases stack with
  | nil => cases h
  | cons frame stack =>
    obtain ⟨tree_depth, last_iter⟩ := frame
    rw [stackWeight_cons]
    cases hnext : last_iter.next with
    | none =>
      simp only [turn, hnext, Option.some.injEq, Prod.mk.injEq] at h
      obtain ⟨_, rfl⟩ := h
      dsimp only
      omega
    | some p =>
      obtain ⟨⟨k, node⟩, last_iter'⟩ := p
      rw [IterFrameIter.remaining_of_next_some hnext, listWeight_cons]
      dsimp only
      have hstack : stackWeight self'.node_iter_stack ≤
          1 + listWeight (Node.iter node) + (1 + listWeight last_iter'.remaining + stackWeight stack) := by
        have hpush : ∀ b : Bool, stackWeight (if b = true then
            (tree_depth + (pfx node).length, IterFrameIter.Plain (Node.iter node)) ::
              (tree_depth, last_iter') :: stack else (tree_depth, last_iter') :: stack) ≤
            1 + listWeight (Node.iter node) +
              (1 + listWeight last_iter'.remaining + stackWeight stack) := by
          intro b
          cases b with
          | true =>
            rw [if_pos rfl, stackWeight_cons, stackWeight_cons]
            exact Nat.le_refl _
          | false =>
            rw [if_neg (by simp), stackWeight_cons]
            omega
        simp only [turn, hnext] at h
        split at h
        · split at h
          · split at h <;> cases h <;> exact hpush _
          · cases h
            exact hpush _
        · cases h
          exact hpush _
      omega

/-- The walk of `next`. -/
def cursor : Cursor (IterInner N) (Bytes × V) where
  step := turn
  size self := stackWeight self.node_iter_stack
  step_lt := turn_lt

section Pending

/-- What the frames of a walk still have to hand out. -/
def pending (cur_key : Bytes) : List (Nat × IterFrameIter N) → List (Bytes × V)
  | [] => []
  | (depth, it) :: stack =>
    under (cur_key.take depth) (childEntries it.remaining) ++ pending cur_key stack

/-- Every frame's key is a part of the key of the frame above it. -/
def Nested (bound : Nat) : List (Nat × IterFrameIter N) → Prop
  | [] => True
  | (depth, _) :: stack => depth ≤ bound ∧ Nested depth stack

theorem pending_congr {bound : Nat} {stack : List (Nat × IterFrameIter N)} (h : Nested bound stack)
    {cur_key cur_key' : Bytes} (hkey : cur_key.take bound = cur_key'.take bound) :
    pending cur_key stack = pending cur_key' stack := by
  induction stack generalizing bound with
  | nil => rfl
  | cons frame stack ih =>
    obtain ⟨depth, it⟩ := frame
    obtain ⟨hdepth, hnested⟩ := h
    have htake : cur_key.take depth = cur_key'.take depth := by
      have := congrArg (List.take depth) hkey
      rwa [List.take_take, List.take_take, Nat.min_eq_left hdepth] at this
    rw [pending, pending, htake, ih hnested htake]

/-- What is left of a list of entries behind a start bound. -/
def emitted (start_bound : Option Bound) (l : List (Bytes × V)) : List (Bytes × V) :=
  match start_bound with
  | none => l
  | some start_bound => l.dropWhile fun e => !satisfies_start start_bound e.1

/-- The invariant of a walk that still has to hand out `l`. -/
structure Pending (walk : IterInner N) (l : List (Bytes × V)) : Prop where
  nested : Nested walk.cur_key.length walk.node_iter_stack
  wf : ∀ frame ∈ walk.node_iter_stack, ∀ p ∈ frame.2.remaining, Wf p.2
  eq : l = emitted walk.start_bound (pending walk.cur_key walk.node_iter_stack)

theorem emitted_cons_of_satisfies {start_bound : Bound} {e : Bytes × V} (l : List (Bytes × V))
    (h : satisfies_start start_bound e.1 = true) : emitted (some start_bound) (e :: l) = e :: l := by
  simp [emitted, h]

theorem emitted_cons_of_not_satisfies {start_bound : Bound} {e : Bytes × V} (l : List (Bytes × V))
    (h : ¬ satisfies_start start_bound e.1 = true) :
    emitted (some start_bound) (e :: l) = emitted (some start_bound) l := by
  simp [emitted, h]

theorem back_to_spec (cur_key : Bytes) {stack : List (Nat × IterFrameIter N)}
    (h : Nested cur_key.length stack) :
    Nested (back_to cur_key stack).length stack ∧
      pending (back_to cur_key stack) stack = pending cur_key stack := by
  cases stack with
  | nil => exact ⟨h, rfl⟩
  | cons frame stack =>
    obtain ⟨depth, it⟩ := frame
    obtain ⟨hdepth, hbelow⟩ := h
    have hnested : Nested depth ((depth, it) :: stack) := And.intro (Nat.le_refl _) hbelow
    constructor
    · change depth ≤ (cur_key.take depth).length ∧ Nested depth stack
      rw [List.length_take_of_le hdepth]
      exact hnested
    · exact pending_congr hnested (by rw [back_to, List.take_take, Nat.min_self])

/-- Entering a node: its own entry comes first, and the frames then hand out what
is below it and what comes after it. -/
theorem pending_enter {tree_depth : Nat} {it it' : IterFrameIter N}
    {stack : List (Nat × IterFrameIter N)} {cur_key : Bytes} {k : UInt8} {node : N}
    (hdepth : tree_depth ≤ cur_key.length) (hbelow : Nested tree_depth stack)
    (hwf : ∀ frame ∈ (tree_depth, it) :: stack, ∀ p ∈ frame.2.remaining, Wf p.2)
    (hnext : it.next = some ((k, node), it')) {stack' : List (Nat × IterFrameIter N)}
    (hstack : stack' = if (!is_leaf node) = true then
      (tree_depth + (pfx node).length, .Plain (Node.iter node)) :: (tree_depth, it') :: stack
      else (tree_depth, it') :: stack) {entered left : Bytes}
    (hentered : entered = cur_key.take tree_depth ++ pfx node)
    (hleft : left = if (!is_leaf node) = true then entered else entered.take tree_depth) :
    pending cur_key ((tree_depth, it) :: stack) =
        ((value node).map fun v => (entered, v)).toList ++ pending entered stack' ∧
      Nested entered.length stack' ∧ Nested left.length stack' ∧
      pending left stack' = pending entered stack' ∧
      ∀ frame ∈ stack', ∀ p ∈ frame.2.remaining, Wf p.2 := by
  have hremaining := IterFrameIter.remaining_of_next_some hnext
  have hnode : Wf node := hwf (tree_depth, it) (by simp) (k, node) (by rw [hremaining]; simp)
  have hlen : (cur_key.take tree_depth).length = tree_depth := List.length_take_of_le hdepth
  have henteredlen : entered.length = tree_depth + (pfx node).length := by
    rw [hentered, List.length_append, hlen]
  have hrest : ∀ frame ∈ (tree_depth, it') :: stack, ∀ p ∈ frame.2.remaining, Wf p.2 := by
    intro frame hframe p hp
    cases List.mem_cons.1 hframe with
    | inl heq =>
      rw [heq] at hp
      exact hwf (tree_depth, it) (by simp) p (by rw [hremaining]; exact List.mem_cons_of_mem _ hp)
    | inr hmem => exact hwf frame (List.mem_cons_of_mem _ hmem) p hp
  have htake : entered.take tree_depth = cur_key.take tree_depth := by
    rw [hentered, List.take_append_of_le_length (Nat.le_of_eq hlen.symm), List.take_take, Nat.min_self]
  have hnested : Nested tree_depth ((tree_depth, it') :: stack) := And.intro (Nat.le_refl _) hbelow
  have hold : pending entered ((tree_depth, it') :: stack) =
      under (cur_key.take tree_depth) (childEntries it'.remaining) ++ pending cur_key stack := by
    rw [pending, htake]
    congr 1
    exact pending_congr hbelow htake
  have hexpand : pending cur_key ((tree_depth, it) :: stack) =
      ((value node).map fun v => (entered, v)).toList ++
        (under entered (childEntries (Node.iter node)) ++
          (under (cur_key.take tree_depth) (childEntries it'.remaining) ++ pending cur_key stack)) := by
    rw [pending, hremaining, childEntries_cons, under_append, under_entries, entriesFrom, ← hentered]
    simp only [List.append_assoc]
  cases hleaf : is_leaf node with
  | true =>
    rw [hleaf] at hstack hleft
    have hstack : stack' = (tree_depth, it') :: stack := hstack
    have hleft : left = cur_key.take tree_depth := hleft.trans htake
    have hnil := iter_leaf hnode.layout hleaf
    subst hstack hleft
    refine ⟨?_, And.intro (by omega) hbelow, And.intro (Nat.le_of_eq hlen.symm) hbelow, ?_, hrest⟩
    · rw [hexpand, hold, hnil]
      rfl
    · refine pending_congr hnested ?_
      rw [htake, List.take_take, Nat.min_self]
  | false =>
    rw [hleaf] at hstack hleft
    have hstack : stack' = (tree_depth + (pfx node).length, .Plain (Node.iter node)) ::
        (tree_depth, it') :: stack := hstack
    have hleft : left = entered := hleft
    have hnested' : Nested entered.length stack' := by
      rw [hstack]
      exact And.intro (by omega) (And.intro (by omega) hbelow)
    rw [hleft]
    refine ⟨?_, hnested', hnested', rfl, ?_⟩
    · have hwhole : entered.take (tree_depth + (pfx node).length) = entered :=
        List.take_of_length_le (Nat.le_of_eq henteredlen)
      rw [hexpand, hstack, pending, hwhole, hold]
      rfl
    · intro frame hframe p hp
      rw [hstack] at hframe
      cases List.mem_cons.1 hframe with
      | inl heq =>
        rw [heq] at hp
        exact hnode.child hp
      | inr hmem => exact hrest frame hmem p hp

theorem Pending.turn {self self' : IterInner N} {l : List (Bytes × V)} {o : Option (Bytes × V)}
    (h : Pending self l) (hturn : self.turn = some (o, self')) :
    ∃ l', l = o.toList ++ l' ∧ Pending self' l' := by
  obtain ⟨stack, cur_key, start_bound⟩ := self
  obtain ⟨hnested, hwf, rfl⟩ := h
  dsimp only at hnested hwf ⊢
  cases stack with
  | nil => cases hturn
  | cons frame stack =>
    obtain ⟨tree_depth, last_iter⟩ := frame
    obtain ⟨hdepth, hbelow⟩ := hnested
    cases hnext : last_iter.next with
    | none =>
      simp only [IterInner.turn, hnext, Option.some.injEq, Prod.mk.injEq] at hturn
      obtain ⟨rfl, rfl⟩ := hturn
      have hlen : (cur_key.take tree_depth).length = tree_depth := List.length_take_of_le hdepth
      have hpending : pending cur_key ((tree_depth, last_iter) :: stack) =
          pending (cur_key.take tree_depth) stack := by
        rw [pending, IterFrameIter.remaining_of_next_none hnext]
        refine (List.nil_append _).trans (pending_congr hbelow ?_)
        rw [List.take_take, Nat.min_self]
      obtain ⟨hnested', hback⟩ := back_to_spec (cur_key.take tree_depth) (by rwa [hlen])
      refine ⟨_, rfl, hnested', fun frame hframe => hwf frame (List.mem_cons_of_mem _ hframe), ?_⟩
      rw [hpending, hback]
      rfl
    | some p =>
      obtain ⟨⟨k, node⟩, last_iter'⟩ := p
      simp only [IterInner.turn, hnext] at hturn
      generalize hstack : (if (!is_leaf node) = true then
        (tree_depth + (pfx node).length, IterFrameIter.Plain (Node.iter node)) ::
          (tree_depth, last_iter') :: stack else (tree_depth, last_iter') :: stack) = stack' at hturn
      generalize hentered : cur_key.take tree_depth ++ pfx node = entered at hturn
      generalize hleft : (if (!is_leaf node) = true then entered else entered.take tree_depth) =
        left at hturn
      obtain ⟨hexpand, hnested', hnestedleft, hpendingleft, hwf'⟩ :=
        pending_enter hdepth hbelow hwf hnext hstack.symm hentered.symm hleft.symm
      rw [hexpand]
      cases hvalue : value node with
      | none =>
        rw [hvalue] at hturn
        cases hturn
        refine ⟨_, rfl, hnestedleft, hwf', ?_⟩
        dsimp only
        rw [hpendingleft]
        rfl
      | some v =>
        rw [hvalue] at hturn
        cases start_bound with
        | none =>
          cases hturn
          exact ⟨_, rfl, hnested', hwf', rfl⟩
        | some start_bound =>
          dsimp only at hturn
          split at hturn
          · rename_i hsat
            cases hturn
            exact ⟨_, emitted_cons_of_satisfies (e := (entered, v)) _ hsat, hnested', hwf', rfl⟩
          · rename_i hunsat
            cases hturn
            exact ⟨_, emitted_cons_of_not_satisfies (e := (entered, v)) _ hunsat, hnested', hwf', rfl⟩

theorem Pending.done {self : IterInner N} {l : List (Bytes × V)} (h : Pending self l)
    (hturn : self.turn = (none : Option (Option (Bytes × V) × IterInner N))) : l = [] := by
  obtain ⟨stack, cur_key, start_bound⟩ := self
  cases stack with
  | nil =>
    rw [h.eq]
    cases start_bound <;> rfl
  | cons frame stack =>
    obtain ⟨tree_depth, last_iter⟩ := frame
    unfold IterInner.turn at hturn
    dsimp only at hturn
    split at hturn
    · cases hturn
    · split at hturn
      · split at hturn
        · split at hturn <;> cases hturn
        · cases hturn
      · cases hturn

/-- The walk hands out what is pending, in order. -/
theorem Pending.collect_eq {self : IterInner N} {l : List (Bytes × V)} (h : Pending self l) :
    cursor.collect self = l :=
  cursor.collect_eq_of_pending Pending Pending.done Pending.turn h

end Pending

end IterInner

end rart.iter
