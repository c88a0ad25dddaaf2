import Rart.Iter.Paths
import Rart.Iter.Range

open SortedAssoc LexOrder
open rart.Trie rart.Node

namespace rart.iter

/-- A key as the segments that it is made of. -/
structure LendingKeyView where
  segments : List Bytes
  len : Nat

/-- The loop of `cmp_slice` and of `cmp_segments_to_slice`, over what is left of the slice. It
ends at the first segment that runs out before the slice does. -/
def cmp_segments (slice_len len : Nat) : List Bytes → Bytes → Ordering
  | [], _ => compare len slice_len
  | segment :: segments, remaining =>
    let common := min segment.length remaining.length
    match lexCompare (segment.take common) (remaining.take common) with
    | .eq =>
      if segment.length ≠ common then .gt
      else if remaining.length ≠ common then .lt
      else cmp_segments slice_len len segments (remaining.drop common)
    | .lt => .lt
    | .gt => .gt

namespace LendingKeyView

/-- `to_vec`, through `write_into` -/
def to_vec (self : LendingKeyView) : Bytes := self.segments.foldl (fun dst segment => dst ++ segment) []

def cmp_slice (self : LendingKeyView) (slice : Bytes) : Ordering :=
  cmp_segments slice.length self.len self.segments slice

theorem to_vec_eq (self : LendingKeyView) : self.to_vec = self.segments.flatten := by
  have hfold : ∀ (segments : List Bytes) (dst : Bytes),
      segments.foldl (fun dst segment => dst ++ segment) dst = dst ++ segments.flatten := by
    intro segments
    induction segments with
    | nil => simp
    | cons segment segments ih =>
      intro dst
      rw [List.foldl_cons, ih, List.flatten_cons, List.append_assoc]
  exact (hfold self.segments []).trans (List.nil_append _)

end LendingKeyView

/-- Whether a view lies below the end bound, if there is one. -/
def view_within_end (end_bound : Option (Bytes × Bool)) (view : LendingKeyView) : Bool :=
  match end_bound with
  | none => true
  | some (end_key, inclusive) =>
    match view.cmp_slice end_key with
    | .lt => true
    | .eq => inclusive
    | .gt => false

variable {N V : Type} [Node N V]

/-- `LendingIterInner`, the top of its stack first. -/
structure LendingIterInner (N : Type) where
  node_iter_stack : List ((Nat × Nat) × IterFrameIter N)
  cur_segments : List Bytes
  cur_len : Nat
  end_bound : Option (Bytes × Bool)

namespace LendingIterInner

def lending_view (self : LendingIterInner N) : LendingKeyView := ⟨self.cur_segments, self.cur_len⟩

def within_end_bound (self : LendingIterInner N) : Bool :=
  view_within_end self.end_bound self.lending_view

/-- The walk after it went back to its top frame. -/
def back (self : LendingIterInner N) : LendingIterInner N :=
  match self.node_iter_stack with
  | [] => self
  | ((segment_depth, key_len), _) :: _ =>
    { self with cur_segments := self.cur_segments.take segment_depth, cur_len := key_len }

/-- The walk after it pushed a node's segment, and its frame if it is an inner node. -/
def enter (self : LendingIterInner N) (node : N) : LendingIterInner N :=
  let segment := pfx node
  let cur_segments := if segment ≠ [] then self.cur_segments ++ [segment] else self.cur_segments
  let cur_len := if segment ≠ [] then self.cur_len + segment.length else self.cur_len
  let stack :=
    if is_leaf node = false then
      ((cur_segments.length, cur_len), .Plain (Node.iter node)) :: self.node_iter_stack
    else self.node_iter_stack
  ⟨stack, cur_segments, cur_len, self.end_bound⟩

/-- The walk after it popped a leaf's segment. -/
def leave (self : LendingIterInner N) (node : N) : LendingIterInner N :=
  let segment := pfx node
  if is_leaf node = true ∧ segment ≠ [] then
    { self with cur_segments := self.cur_segments.dropLast, cur_len := self.cur_len - segment.length }
  else self

/-- One turn of the loop of `visit_each`. -/
def turn (self : LendingIterInner N) :
    Option (Option (LendingKeyView × V) × LendingIterInner N) :=
  match self.node_iter_stack with
  | [] => none
  | (depth, last_iter) :: stack =>
    let self := self.back
    match last_iter.next with
    | none => some (none, { self with node_iter_stack := stack }.back)
    | some ((_, node), last_iter) =>
      let self := { self with node_iter_stack := (depth, last_iter) :: stack }.enter node
      match value node with
      | some value =>
        if !self.within_end_bound then some (none, ⟨[], [], 0, self.end_bound⟩)
        else some (some (self.lending_view, value), self.leave node)
      | none => some (none, self.leave node)

theorem back_stack (self : LendingIterInner N) : self.back.node_iter_stack = self.node_iter_stack := by
  unfold back
  split <;> simp_all

theorem leave_stack (self : LendingIterInner N) (node : N) :
    (self.leave node).node_iter_stack = self.node_iter_stack := by
  unfold leave
  dsimp only
  split <;> rfl

theorem enter_stack_le (self : LendingIterInner N) (node : N) :
    stackWeight (self.enter node).node_iter_stack ≤
      1 + listWeight (Node.iter node) + stackWeight self.node_iter_stack := by
  unfold enter
  dsimp only
  split
  · rw [stackWeight_cons]
    exact Nat.le_refl _
  · omega

theorem turn_lt {self self' : LendingIterInner N} {o : Option (LendingKeyView × V)}
    (h : self.turn = some (o, self')) :
    stackWeight self'.node_iter_stack < stackWeight self.node_iter_stack := by
  unfold turn at h
  split at h
  · cases h
  · rename_i depth last_iter stack hstack
    rw [hstack, stackWeight_cons]
    dsimp only at h
    split at h
    · cases h
      rw [back_stack]
      dsimp only
      omega
    · rename_i k node last_iter' hnext
      rw [IterFrameIter.remaining_of_next_some hnext, listWeight_cons]
      have hle := enter_stack_le { self.back with node_iter_stack := (depth, last_iter') :: stack } node
      rw [stackWeight_cons] at hle
      dsimp only at hle ⊢
      split at h
      · split at h
        · cases h
          simp only [stackWeight, List.map_nil, List.sum_nil]
          omega
        · cases h
          rw [leave_stack]
          omega
      · cases h
        rw [leave_stack]
        omega

def cursor : Cursor (LendingIterInner N) (LendingKeyView × V) where
  step := turn
  size self := stackWeight self.node_iter_stack
  step_lt := turn_lt

/-- The calls that `visit_each` makes. -/
def visit_each (self : LendingIterInner N) : List (LendingKeyView × V) := cursor.collect self

section Pending

/-- The view that is lent for a path. -/
def viewOf (e : List Bytes × V) : LendingKeyView × V := (⟨e.1, e.1.flatten.length⟩, e.2)

/-- The paths that the frames of a walk still have to visit. -/
def pending (cur_segments : List Bytes) :
    List ((Nat × Nat) × IterFrameIter N) → List (List Bytes × V)
  | [] => []
  | ((segment_depth, _), it) :: stack =>
    underSegments (cur_segments.take segment_depth) (childPaths it.remaining) ++
      pending cur_segments stack

/-- Every frame's segments are some of those of the frame above it, and its key
length is theirs. -/
def Nested (cur_segments : List Bytes) (bound : Nat) : List ((Nat × Nat) × IterFrameIter N) → Prop
  | [] => True
  | ((segment_depth, key_len), _) :: stack =>
    segment_depth ≤ bound ∧ key_len = (cur_segments.take segment_depth).flatten.length ∧
      Nested cur_segments segment_depth stack

theorem nested_congr {bound bound' : Nat} {stack : List ((Nat × Nat) × IterFrameIter N)}
    {cur_segments cur_segments' : List Bytes} (h : Nested cur_segments bound stack)
    (hle : bound ≤ bound') (hkey : cur_segments.take bound = cur_segments'.take bound) :
    Nested cur_segments' bound' stack ∧ pending cur_segments stack = pending cur_segments' stack := by
  induction stack generalizing bound bound' with
  | nil => exact ⟨trivial, rfl⟩
  | cons frame stack ih =>
    obtain ⟨⟨depth, key_len⟩, it⟩ := frame
    obtain ⟨hdepth, hlen, hnested⟩ := h
    have htake : cur_segments.take depth = cur_segments'.take depth := by
      have := congrArg (List.take depth) hkey
      rwa [List.take_take, List.take_take, Nat.min_eq_left hdepth] at this
    obtain ⟨hnested', hpending⟩ := ih hnested (Nat.le_refl _) htake
    refine ⟨⟨Nat.le_trans hdepth hle, ?_, hnested'⟩, ?_⟩
    · rw [hlen, htake]
    · rw [pending, pending, htake, hpending]

/-- The invariant of a walk that still has to lend `l`. -/
structure Pending (walk : LendingIterInner N) (l : List (LendingKeyView × V)) : Prop where
  nested : Nested walk.cur_segments walk.cur_segments.length walk.node_iter_stack
  wf : ∀ frame ∈ walk.node_iter_stack, ∀ p ∈ frame.2.remaining, Wf p.2 ∧ pfx p.2 ≠ []
  eq : l = ((pending walk.cur_segments walk.node_iter_stack).map viewOf).takeWhile fun e =>
    view_within_end walk.end_bound e.1

/-- The segments of a walk's top frame are the ones that it goes back to. -/
theorem back_spec (walk : LendingIterInner N)
    (h : Nested walk.cur_segments walk.cur_segments.length walk.node_iter_stack) :
    Nested walk.back.cur_segments walk.back.cur_segments.length walk.back.node_iter_stack ∧
      pending walk.back.cur_segments walk.back.node_iter_stack =
        pending walk.cur_segments walk.node_iter_stack := by
  obtain ⟨stack, cur_segments, cur_len, end_bound⟩ := walk
  cases stack with
  | nil => exact ⟨h, rfl⟩
  | cons frame stack =>
    obtain ⟨⟨segment_depth, key_len⟩, it⟩ := frame
    obtain ⟨hdepth, hlen, hbelow⟩ := h
    have hnested : Nested cur_segments segment_depth (((segment_depth, key_len), it) :: stack) :=
      ⟨Nat.le_refl _, hlen, hbelow⟩
    have htake : cur_segments.take segment_depth = (cur_segments.take segment_depth).take segment_depth := by
      rw [List.take_take, Nat.min_self]
    have hwhole : segment_depth ≤ (cur_segments.take segment_depth).length :=
      Nat.le_of_eq (List.length_take_of_le hdepth).symm
    have hback := nested_congr hnested hwhole htake
    exact ⟨hback.1, hback.2.symm⟩

/-- Entering a node below the top frame: its view comes first. -/
theorem enter_spec {segments : List Bytes} {key_len : Nat} {end_bound : Option (Bytes × Bool)}
    {it : IterFrameIter N} {stack : List ((Nat × Nat) × IterFrameIter N)} {node : N}
    (hlen : key_len = segments.flatten.length) (hbelow : Nested segments segments.length stack)
    (hwf : ∀ frame ∈ ((segments.length, key_len), it) :: stack, ∀ p ∈ frame.2.remaining,
      Wf p.2 ∧ pfx p.2 ≠ [])
    (hnode : Wf node) (hne : pfx node ≠ []) {entered left : LendingIterInner N}
    (hentered : entered =
      LendingIterInner.enter ⟨((segments.length, key_len), it) :: stack, segments, key_len, end_bound⟩ node)
    (hleft : left = entered.leave node) :
    entered.lending_view = ⟨segments ++ [pfx node], (segments ++ [pfx node]).flatten.length⟩ ∧
      Nested left.cur_segments left.cur_segments.length left.node_iter_stack ∧
      pending left.cur_segments left.node_iter_stack =
        underSegments (segments ++ [pfx node]) (childPaths (Node.iter node)) ++
          (underSegments segments (childPaths it.remaining) ++ pending segments stack) ∧
      (∀ frame ∈ left.node_iter_stack, ∀ p ∈ frame.2.remaining, Wf p.2 ∧ pfx p.2 ≠ []) ∧
      entered.end_bound = end_bound ∧ left.end_bound = end_bound := by
  have hview : entered.lending_view =
      ⟨segments ++ [pfx node], (segments ++ [pfx node]).flatten.length⟩ := by
    rw [hentered]
    simp [lending_view, enter, hne, hlen]
  have htop : Nested segments segments.length (((segments.length, key_len), it) :: stack) :=
    ⟨Nat.le_refl _, by rw [List.take_length]; exact hlen, hbelow⟩
  have hsame : segments.take segments.length = (segments ++ [pfx node]).take segments.length := by
    rw [List.take_length, List.take_left]
  cases hleaf : is_leaf node with
  | true =>
    have hnil := iter_leaf hnode.layout hleaf
    have hleft' : left = ⟨((segments.length, key_len), it) :: stack, segments, key_len, end_bound⟩ := by
      rw [hleft, hentered]
      simp [leave, enter, hne, hleaf]
    refine ⟨hview, ?_, ?_, ?_, ?_, ?_⟩
    · rw [hleft']
      exact htop
    · rw [hleft', hnil]
      change pending segments _ = _
      rw [pending, List.take_length]
      rfl
    · rw [hleft']
      exact hwf
    · rw [hentered, enter]
    · rw [hleft']
  | false =>
    have hleft' : left = ⟨((segments.length + 1, key_len + (pfx node).length), .Plain (Node.iter node)) ::
        ((segments.length, key_len), it) :: stack, segments ++ [pfx node],
        key_len + (pfx node).length, end_bound⟩ := by
      rw [hleft, hentered]
      simp [leave, enter, hne, hleaf]
    obtain ⟨hnested, hpending⟩ := nested_congr htop (Nat.le_succ _) hsame
    have hwhole : (segments ++ [pfx node]).take (segments.length + 1) = segments ++ [pfx node] :=
      List.take_of_length_le (by simp)
    refine ⟨hview, ?_, ?_, ?_, ?_, ?_⟩
    · rw [hleft']
      refine ⟨by simp, ?_, hnested⟩
      rw [hwhole, hlen]
      simp
    · rw [hleft']
      change pending (segments ++ [pfx node]) _ = _
      rw [pending, hwhole, ← hpending, pending, List.take_length]
      rfl
    · rw [hleft']
      intro frame hframe p hp
      cases List.mem_cons.1 hframe with
      | inl heq =>
        rw [heq] at hp
        refine ⟨hnode.child hp, fun hnil => ?_⟩
        have hedge := hnode.edges hp
        rw [hnil] at hedge
        cases hedge
      | inr hmem => exact hwf frame hmem p hp
    · rw [hentered, enter]
    · rw [hleft']

theorem Pending.turn {walk walk' : LendingIterInner N} {l : List (LendingKeyView × V)}
    {o : Option (LendingKeyView × V)} (h : Pending walk l) (hturn : walk.turn = some (o, walk')) :
    ∃ l', l = o.toList ++ l' ∧ Pending walk' l' := by
  obtain ⟨stack, cur_segments, cur_len, end_bound⟩ := walk
  obtain ⟨hnested, hwf, rfl⟩ := h
  dsimp only at hnested hwf
  cases stack with
  | nil => cases hturn
  | cons frame stack =>
    obtain ⟨⟨segment_depth, key_len⟩, last_iter⟩ := frame
    obtain ⟨hdepth, hlen, hbelow⟩ := hnested
    generalize hsegments : cur_segments.take segment_depth = segments at hlen
    have hseglen : segment_depth = segments.length := by
      rw [← hsegments, List.length_take_of_le hdepth]
    have hsame : cur_segments.take segment_depth = segments.take segment_depth := by
      rw [hseglen, List.take_length, ← hseglen, hsegments]
    obtain ⟨hbelow', hpendingbelow⟩ := nested_congr hbelow (Nat.le_refl _) hsame
    have hexpand : pending cur_segments (((segment_depth, key_len), last_iter) :: stack) =
        underSegments segments (childPaths last_iter.remaining) ++ pending segments stack := by
      rw [pending, hsegments, hpendingbelow]
    have hback : (⟨((segment_depth, key_len), last_iter) :: stack, cur_segments, cur_len, end_bound⟩ :
        LendingIterInner N).back =
        ⟨((segment_depth, key_len), last_iter) :: stack, segments, key_len, end_bound⟩ := by
      simp only [back, hsegments]
    simp only [LendingIterInner.turn, hback] at hturn
    cases hnext : last_iter.next with
    | none =>
      simp only [hnext, Option.some.injEq, Prod.mk.injEq] at hturn
      obtain ⟨rfl, rfl⟩ := hturn
      obtain ⟨hnested', hpending'⟩ := back_spec ⟨stack, segments, key_len, end_bound⟩
        (by rwa [hseglen] at hbelow')
      refine ⟨_, rfl, hnested', ?_, ?_⟩
      · rw [back_stack]
        exact fun frame hframe => hwf frame (List.mem_cons_of_mem _ hframe)
      · have hend : (⟨stack, segments, key_len, end_bound⟩ : LendingIterInner N).back.end_bound =
            end_bound := by cases stack <;> rfl
        rw [hpending', hend]
        dsimp only
        rw [hexpand, IterFrameIter.remaining_of_next_none hnext]
        rfl
    | some p =>
      obtain ⟨⟨k, node⟩, last_iter'⟩ := p
      have hremaining := IterFrameIter.remaining_of_next_some hnext
      obtain ⟨hnode, hne⟩ : Wf node ∧ pfx node ≠ [] :=
        hwf _ (List.mem_cons_self) (k, node) (by rw [hremaining]; simp)
      have hrest : ∀ frame ∈ ((segment_depth, key_len), last_iter') :: stack,
          ∀ p ∈ frame.2.remaining, Wf p.2 ∧ pfx p.2 ≠ [] := by
        intro frame hframe p hp
        cases List.mem_cons.1 hframe with
        | inl heq =>
          rw [heq] at hp
          exact hwf _ List.mem_cons_self p (by rw [hremaining]; exact List.mem_cons_of_mem _ hp)
        | inr hmem => exact hwf frame (List.mem_cons_of_mem _ hmem) p hp
      simp only [hnext] at hturn
      rw [hseglen] at hturn hbelow' hrest
      generalize hentered : LendingIterInner.enter
        ⟨((segments.length, key_len), last_iter') :: stack, segments, key_len, end_bound⟩ node =
          entered at hturn
      obtain ⟨hview, hnestedleft, hpendingleft, hwfleft, hendentered, hendleft⟩ :=
        enter_spec hlen hbelow' hrest hnode hne hentered.symm rfl
      have hpaths : pending cur_segments (((segment_depth, key_len), last_iter) :: stack) =
          ((value node).map fun v => (segments ++ [pfx node], v)).toList ++
            pending (entered.leave node).cur_segments (entered.leave node).node_iter_stack := by
        rw [hexpand, hremaining, childPaths_cons, underSegments_append, underSegments_paths,
          pathsFrom, hpendingleft]
        simp only [List.append_assoc]
      dsimp only
      rw [hpaths]
      cases hvalue : value node with
      | none =>
        rw [hvalue] at hturn
        cases hturn
        refine ⟨_, rfl, hnestedleft, hwfleft, ?_⟩
        rw [hendleft]
        rfl
      | some v =>
        rw [hvalue] at hturn
        dsimp only at hturn
        have hfirst : viewOf (segments ++ [pfx node], v) = (entered.lending_view, v) := by
          rw [hview]
          rfl
        simp only [Option.map_some, Option.toList_some, List.singleton_append, List.map_cons, hfirst]
        have hwithin : view_within_end end_bound entered.lending_view = entered.within_end_bound := by
          rw [within_end_bound, hendentered]
        cases hend : entered.within_end_bound with
        | false =>
          rw [hend] at hturn hwithin
          cases hturn
          refine ⟨[], ?_, trivial, by simp, rfl⟩
          simp [hwithin]
        | true =>
          rw [hend] at hturn hwithin
          cases hturn
          refine ⟨_, ?_, hnestedleft, hwfleft, rfl⟩
          rw [hendleft]
          simp [hwithin]

theorem Pending.done {walk : LendingIterInner N} {l : List (LendingKeyView × V)} (h : Pending walk l)
    (hturn : walk.turn = (none : Option (Option (LendingKeyView × V) × LendingIterInner N))) :
    l = [] := by
  obtain ⟨stack, cur_segments, cur_len, end_bound⟩ := walk
  cases stack with
  | nil =>
    rw [h.eq]
    rfl
  | cons frame stack =>
    unfold LendingIterInner.turn at hturn
    dsimp only at hturn
    split at hturn
    · cases hturn
    · split at hturn
      · split at hturn <;> cases hturn
      · cases hturn

/-- The walk lends the views that are pending, in order. -/
theorem Pending.visit_each_eq {walk : LendingIterInner N} {l : List (LendingKeyView × V)}
    (h : Pending walk l) : walk.visit_each = l :=
  cursor.collect_eq_of_pending Pending Pending.done Pending.turn h

end Pending

end LendingIterInner

end rart.iter
