import Mathlib.Data.List.ReduceOption
import Rart.Lib.Views
import Rart.Shared.Steps

open SortedAssoc RcHeap RcHeap.Program Words LexOrder
open RcHeap.Heap (Valid Keeps)
open rart.node rart.partials rart.utils

namespace rart.versioned_tree

open VersionedAdaptiveRadixTree

variable {V E α : Type}

section Model

/-- A call of `get_k` that is under way. -/
abbrev Reader (V : Type) := Bytes × shared.Access V (Option V)

/-- A tree, and what is under way at it. -/
inductive Party (V E : Type) where
  | resting (tree : VersionedAdaptiveRadixTree V) (readers : List (Reader V))
  | mutating (op : Mutation V E) (program : shared.Access V (Reply V E × VersionedAdaptiveRadixTree V))
  | dropping (program : shared.Access V Unit)

/-- The heap, and the trees that were made so far. A tree that is mutated or dropped is in one
hand only, as `&mut self` asks for. -/
structure World (V E : Type) where
  heap : Heap (VersionedNode V)
  parties : List (Option (Party V E))

/-- What happens next. -/
inductive Action (V E : Type) where
  | new
  | snapshot (member : Nat)
  | clone (member : Nat)
  | drop (member : Nat)
  | mutate (member : Nat) (op : Mutation V E)
  | read (member : Nat) (key : Bytes)
  /-- The next access of the mutation or drop of a tree. -/
  | advance (member : Nat)
  /-- The next access of a reader of a tree. -/
  | advance_reader (member reader : Nat)

/-- What was completed. -/
inductive Event (V E : Type) where
  | done (command : Command V E) (reply : Option (Reply V E))
  | seen (member : Nat) (key : Bytes) (value : Option V)

/-- No trees. -/
def World.empty : World V E := ⟨Heap.empty, []⟩

/-- A tree that nobody writes to, with its readers. -/
def World.resting (world : World V E) (i : Nat) : Option (VersionedAdaptiveRadixTree V × List (Reader V)) :=
  match member world.parties i with
  | some (.resting tree readers) => some (tree, readers)
  | _ => none

/-- A tree that is mutated or dropped. -/
def World.busy (world : World V E) (i : Nat) : Bool :=
  match member world.parties i with
  | some (.mutating _ _) => true
  | some (.dropping _) => true
  | _ => false

/-- The next access of a program that has not ended. -/
def next (h : Heap (VersionedNode V)) (program : shared.Access V α) :
    Result (shared.Access V α × Heap (VersionedNode V)) :=
  match program with
  | .fail e => .error e
  | program => arc (program.step h)

variable [Features]

/-- One step of the schedule, and what was done by it. A mutation and a lookup are done when they
return, but a drop when it begins: from then on nobody can tell the tree from one that is gone.
An action that the borrow checker rules out does nothing. -/
def World.act (world : World V E) : Action V E → Result (Option (Event V E) × World V E)
  | .new => return (some (.done .new none), ⟨world.heap, world.parties ++ [some (.resting .new [])]⟩)
  | .snapshot i =>
    match world.resting i with
    | some (tree, _) => do
      let (copy, heap) ← tree.snapshot world.heap
      return (some (.done (.snapshot i) none), ⟨heap, world.parties ++ [some (.resting copy [])]⟩)
    | none => return (none, world)
  | .clone i =>
    match world.resting i with
    | some (tree, _) => do
      let (copy, heap) ← tree.clone_tree world.heap
      return (some (.done (.clone i) none), ⟨heap, world.parties ++ [some (.resting copy [])]⟩)
    | none => return (none, world)
  | .drop i =>
    match world.resting i with
    | some (tree, []) =>
      return (some (.done (.drop i) none),
        ⟨world.heap, world.parties.set i (some (.dropping (shared.drop_opt tree.root)))⟩)
    | _ => return (none, world)
  | .mutate i op =>
    match world.resting i with
    | some (tree, []) =>
      return (none, ⟨world.heap, world.parties.set i (some (.mutating op (op.onShared tree)))⟩)
    | _ => return (none, world)
  | .read i key =>
    match world.resting i with
    | some (tree, readers) =>
      return (none, ⟨world.heap,
        world.parties.set i (some (.resting tree (readers ++ [(key, shared.get_k tree key)])))⟩)
    | none => return (none, world)
  | .advance i =>
    match member world.parties i with
    | some (.mutating op program) =>
      match program.returned with
      | some (reply, tree) =>
        return (some (.done (.mutate i op) (some reply)),
          ⟨world.heap, world.parties.set i (some (.resting tree []))⟩)
      | none => do
        let (program, heap) ← next world.heap program
        return (none, ⟨heap, world.parties.set i (some (.mutating op program))⟩)
    | some (.dropping program) =>
      match program.returned with
      | some _ => return (none, ⟨world.heap, world.parties.set i none⟩)
      | none => do
        let (program, heap) ← next world.heap program
        return (none, ⟨heap, world.parties.set i (some (.dropping program))⟩)
    | _ => return (none, world)
  | .advance_reader i j =>
    match world.resting i with
    | some (tree, readers) =>
      match readers[j]? with
      | some (key, program) =>
        match program.returned with
        | some value =>
          return (some (.seen i key value),
            ⟨world.heap, world.parties.set i (some (.resting tree (readers.eraseIdx j)))⟩)
        | none => do
          let (program, heap) ← next world.heap program
          return (none, ⟨heap, world.parties.set i (some (.resting tree (readers.set j (key, program))))⟩)
      | none => return (none, world)
    | none => return (none, world)

/-- A schedule, and what was completed under it. -/
def World.run (world : World V E) : List (Action V E) → Result (List (Event V E) × World V E)
  | [] => return ([], world)
  | action :: actions => do
    let (event, world) ← world.act action
    let (events, world) ← world.run actions
    return (event.toList ++ events, world)

end Model

section Replay

/-- The maps after an event. -/
def Event.after (maps : RefForest V) : Event V E → RefForest V
  | done command _ => (command.onMaps maps).2
  | seen _ _ _ => maps

/-- What an event says is what the maps say. -/
def Event.Legal (maps : RefForest V) : Event V E → Prop
  | done command reply => (command.onMaps maps).1 = reply
  | seen i key value => ∃ m, member maps i = some m ∧ m.lookup key = value

/-- The maps after some events. -/
def replay (maps : RefForest V) (events : List (Event V E)) : RefForest V := events.foldl Event.after maps

/-- Everything that was completed agrees with the maps, one event after the other. -/
def Legal (maps : RefForest V) : List (Event V E) → Prop
  | [] => True
  | event :: events => event.Legal maps ∧ Legal (event.after maps) events

end Replay

variable [Features]

section Invariant

/-- What is under way at a tree, with the view that it has of the heap, and the map that the
tree stands for. -/
inductive Party.Stands :
    Option (Party V E) → Option (View (VersionedNode V)) → Option (RefMap V) → Prop where
  | gone : Stands none none none
  | resting (tree : VersionedAdaptiveRadixTree V) (readers : List (Reader V)) (h : Heap (VersionedNode V))
      (m : RefMap V) (stands : versioned_tree.Stands h tree m)
      (reads : ∀ r ∈ readers, r.2.Returns h (m.lookup r.1)) :
      Stands (some (.resting tree readers)) (some ⟨h, tree.root.toList, []⟩) (some m)
  | mutating (op : Mutation V E) (program : shared.Access V (Reply V E × VersionedAdaptiveRadixTree V))
      (v : View (VersionedNode V)) (m : RefMap V)
      (safe : program.Safe (fun r w => r.1 = (op.onMap m).1 ∧ w.own = r.2.root.toList ∧
        versioned_tree.Stands w.heap r.2 (op.onMap m).2) v) :
      Stands (some (.mutating op program)) (some v) (some m)
  | dropping (program : shared.Access V Unit) (v : View (VersionedNode V))
      (safe : program.Safe (fun _ w => w.own = []) v) : Stands (some (.dropping program)) (some v) none

/-- What is under way gets closer to its end, with the heap that it sees. -/
inductive Party.Later :
    Party V E × View (VersionedNode V) → Party V E × View (VersionedNode V) → Prop where
  | mutating (op : Mutation V E) {p p' : shared.Access V (Reply V E × VersionedAdaptiveRadixTree V)}
      {v v' : View (VersionedNode V)} (hlater : Program.Later (p', v') (p, v)) :
      Later (.mutating op p', v') (.mutating op p, v)
  | dropping {p p' : shared.Access V Unit} {v v' : View (VersionedNode V)}
      (hlater : Program.Later (p', v') (p, v)) : Later (.dropping p', v') (.dropping p, v)

/-- What is under way at a member, and the heap that it sees. -/
def World.At (world : World V E) (views : List (Option (View (VersionedNode V)))) (i : Nat)
    (x : Party V E × View (VersionedNode V)) : Prop :=
  member world.parties i = some x.1 ∧ member views i = some x.2

/-- Every tree stands for its map, and the views of all trees make up the heap. -/
structure World.Represents (world : World V E) (views : List (Option (View (VersionedNode V))))
    (maps : RefForest V) : Prop where
  union : Union world.heap views.reduceOption
  views_length : views.length = world.parties.length
  maps_length : maps.length = world.parties.length
  stands : ∀ i, Party.Stands (member world.parties i) (member views i) (member maps i)

end Invariant

section Lists

omit [Features]

/-- Setting one member of a list of options. -/
theorem reduceOption_set {l : List (Option α)} {i : Nat} (hi : i < l.length) (x : Option α) :
    (l.set i x).reduceOption.Perm (x.toList ++ (l.eraseIdx i).reduceOption) := by
  have hlen : i < (l.set i x).length := by rwa [List.length_set]
  have hperm := (perm_eraseIdx hlen).filterMap id
  rw [List.getElem_set_self, List.eraseIdx_set_eq] at hperm
  cases x with
  | none => exact hperm
  | some x => exact hperm

/-- Setting a member to itself. -/
theorem set_member {l : List (Option α)} {i : Nat} {x : Option α} (hi : i < l.length) (hmember : member l i = x) :
    l.set i x = l := by
  have hget : l[i] = x := by
    unfold member at hmember
    rwa [List.getElem?_eq_getElem hi] at hmember
  rw [← hget, List.set_getElem_self]

/-- One member before the others. -/
theorem reduceOption_member {l : List (Option α)} {i : Nat} {x : Option α} (hi : i < l.length)
    (hmember : member l i = x) : l.reduceOption.Perm (x.toList ++ (l.eraseIdx i).reduceOption) := by
  have hperm := reduceOption_set hi x
  rwa [set_member hi hmember] at hperm

theorem reduceOption_flatMap {β : Type} (l : List (Option α)) (f : α → List β) :
    l.reduceOption.flatMap f = l.flatMap fun x => x.elim [] f := by
  induction l with
  | nil => rfl
  | cons x l ih =>
    cases x with
    | none => exact ih
    | some a =>
      rw [List.reduceOption_cons_of_some, List.flatMap_cons, List.flatMap_cons, ih]
      rfl

theorem eq_toList_of_perm {l : List α} {o : Option α} (hperm : l.Perm o.toList) : l = o.toList := by
  cases o with
  | none => exact hperm.eq_nil
  | some a => exact List.perm_singleton.1 hperm

end Lists

section Steps

variable {world : World V E} {views : List (Option (View (VersionedNode V)))} {maps : RefForest V} {i : Nat}
  {h : Heap (VersionedNode V)} {rest : List (View (VersionedNode V))} {v : View (VersionedNode V)}

omit [Features] in
/-- A safe program that has not ended makes its next access. -/
theorem next_safe {program : shared.Access V α} {post : α → View (VersionedNode V) → Prop}
    (hs : program.Safe post v) (hu : Union h (v :: rest)) (hret : program.returned = none) :
    ∃ program' h' v', next h program = .ok (program', h') ∧ program'.Safe post v' ∧
      Later (program', v') (program, v) ∧ Union h' (v' :: rest) := by
  obtain ⟨a, rfl, _⟩ | ⟨program', h', v', hstep, hs', hlater, hu'⟩ := hs.goes hu
  · cases hret
  · refine ⟨program', h', v', ?_, hs', hlater, hu'⟩
    cases program with
    | fail e => cases hstep
    | _ => exact congrArg arc hstep

omit [Features] in
/-- A program that only reads takes a step and still returns the same. -/
theorem next_returns {program : shared.Access V α} {x : α} (hs : program.Returns v.heap x) (hu : Union h (v :: rest))
    (hret : program.returned = none) :
    ∃ program', next h program = .ok (program', h) ∧ program'.Returns v.heap x := by
  obtain rfl | ⟨program', hstep, hs'⟩ := hs.goes hu.part
  · cases hret
  · refine ⟨program', ?_, hs'⟩
    cases program with
    | fail e => cases hstep
    | _ => exact congrArg arc hstep

omit [Features] in
/-- A program that has returned is at its end. -/
theorem eq_done_of_returned {program : shared.Access V α} {x : α} (hret : program.returned = some x) :
    program = .done x := by
  cases program with
  | done a => exact congrArg Program.done (Option.some.inj hret)
  | _ => cases hret

/-- A tree at rest is live in its view. -/
theorem live_of_part {tree : VersionedAdaptiveRadixTree V} {m : RefMap V} {h' : Heap (VersionedNode V)}
    (hp : Part h' ⟨h, tree.root.toList, []⟩) (hs : Stands h tree m) : Live h tree [] where
  valid := by
    rw [List.append_nil]
    exact hp.valid
  newest := hs.newest

/-- A mutation that starts is safe. -/
theorem mutation_safe {tree : VersionedAdaptiveRadixTree V} {m : RefMap V} {h' : Heap (VersionedNode V)}
    (hp : Part h' ⟨h, tree.root.toList, []⟩) (hs : Stands h tree m) (op : Mutation V E) :
    (op.onShared tree).Safe (fun r w => r.1 = (op.onMap m).1 ∧ w.own = r.2.root.toList ∧
      Stands w.heap r.2 (op.onMap m).2) ⟨h, tree.root.toList, []⟩ := by
  have hleads : (op.onShared tree).Leads h [] _ := op.leads (live_of_part hp hs)
  refine (hleads _ hp.valid).mono ?_
  rintro _ w ⟨hvalid, _, after, rfl, hmutated⟩
  rw [hs.lookup_eq] at hmutated ⊢
  refine ⟨rfl, eq_toList_of_perm ?_, hs.mutated hmutated⟩
  have hlive := hmutated.live.valid
  rw [List.append_nil] at hlive
  exact hvalid.counted.perm hlive.counted

omit [Features] in
/-- A drop that starts is safe. -/
theorem drop_safe {tree : VersionedAdaptiveRadixTree V} {h' : Heap (VersionedNode V)}
    (hp : Part h' ⟨h, tree.root.toList, []⟩) :
    (shared.drop_opt tree.root).Safe (fun _ w => w.own = []) ⟨h, tree.root.toList, []⟩ := by
  have hv : Valid h (tree.root.toList ++ []) := by
    rw [List.append_nil]
    exact hp.valid
  obtain ⟨h'', hdrop, hv', _⟩ := drop_opt_spec hv
  have hleads : (shared.drop_opt tree.root : shared.Access V Unit).Leads h [] fun _ h _ => Valid h [] :=
    shared.leads_drop_opt (f := done) hv hdrop (leads_done hv')
  refine (hleads _ hp.valid).mono ?_
  rintro _ w ⟨hvalid, _, hnone⟩
  exact (hvalid.counted.perm hnone.counted).eq_nil

namespace World.Represents

/-- A party has a view and a map. -/
theorem lt (hr : world.Represents views maps) {party : Party V E} (hmember : member world.parties i = some party) :
    i < world.parties.length ∧ i < views.length ∧ i < maps.length := by
  obtain ⟨hi, _⟩ := member_eq_some hmember
  rw [hr.views_length, hr.maps_length]
  exact ⟨hi, hi, hi⟩

/-- The view of a member among the others. -/
theorem union_member (hr : world.Represents views maps) {party : Party V E}
    (hmember : member world.parties i = some party) (hview : member views i = some v) :
    Union world.heap (v :: (views.eraseIdx i).reduceOption) :=
  hr.union.perm (reduceOption_member (hr.lt hmember).2.1 hview).symm

/-- Something else is under way at a member, or nothing any more. -/
theorem set (hr : world.Represents views maps) {party : Party V E} (hmember : member world.parties i = some party)
    {party' : Option (Party V E)} {view' : Option (View (VersionedNode V))} {m' : Option (RefMap V)}
    (hu : Union h (view'.toList ++ (views.eraseIdx i).reduceOption)) (hs : Party.Stands party' view' m') :
    World.Represents ⟨h, world.parties.set i party'⟩ (views.set i view') (maps.set i m') := by
  obtain ⟨hi, hviews, hmaps⟩ := hr.lt hmember
  refine ⟨hu.perm (reduceOption_set hviews view'), ?_, ?_, fun j => ?_⟩
  · rw [List.length_set, List.length_set, hr.views_length]
  · rw [List.length_set, List.length_set, hr.maps_length]
  · change Party.Stands (member (world.parties.set i party') j) _ _
    rw [member_set, member_set, member_set]
    by_cases hj : j = i
    · rw [if_pos hj, if_pos hi, if_pos hj, if_pos hviews, if_pos hj, if_pos hmaps]
      exact hs
    · rw [if_neg hj, if_neg hj, if_neg hj]
      exact hr.stands j

/-- The same, where the map of the member stays. -/
theorem set_party (hr : world.Represents views maps) {party : Party V E}
    (hmember : member world.parties i = some party) {m : Option (RefMap V)} (hm : member maps i = m)
    {party' : Option (Party V E)} {view' : Option (View (VersionedNode V))}
    (hu : Union h (view'.toList ++ (views.eraseIdx i).reduceOption)) (hs : Party.Stands party' view' m) :
    World.Represents ⟨h, world.parties.set i party'⟩ (views.set i view') maps := by
  have hset := hr.set hmember hu hs
  rwa [set_member (hr.lt hmember).2.2 hm] at hset

/-- Another tree. -/
theorem push (hr : world.Represents views maps) {party : Party V E} {m : RefMap V}
    (hu : Union h (v :: views.reduceOption)) (hs : Party.Stands (some party) (some v) (some m)) :
    World.Represents ⟨h, world.parties ++ [some party]⟩ (views ++ [some v]) (maps ++ [some m]) := by
  refine ⟨hu.perm ?_, ?_, ?_, fun j => ?_⟩
  · rw [List.reduceOption_append]
    exact List.perm_append_comm
  · rw [List.length_append, List.length_append, hr.views_length]
    rfl
  · rw [List.length_append, List.length_append, hr.maps_length]
    rfl
  · change Party.Stands (member (world.parties ++ [some party]) j) _ _
    rw [member_append, member_append, member_append, hr.views_length, hr.maps_length]
    by_cases hj : j = world.parties.length
    · rw [if_pos hj, if_pos hj, if_pos hj]
      exact hs
    · rw [if_neg hj, if_neg hj, if_neg hj]
      exact hr.stands j

end World.Represents

/-- The member of so many that an action is at, or the next one. -/
def Action.target (members : Nat) : Action V E → Nat
  | new => members
  | snapshot _ => members
  | clone _ => members
  | drop i => i
  | mutate i _ => i
  | read i _ => i
  | advance i => i
  | advance_reader i _ => i

/-- What an action leads to. Nothing happens to the others. -/
def World.Acts (world : World V E) (views : List (Option (View (VersionedNode V)))) (maps : RefForest V) (i : Nat)
    (outcome : Result (Option (Event V E) × World V E)) : Prop :=
  ∃ event world' views', outcome = .ok (event, world') ∧ (∀ e, event = some e → e.Legal maps) ∧
    world'.Represents views' (event.elim maps fun e => e.after maps) ∧
    ∀ j ≠ i, j < views.length → member views' j = member views j ∧
      member world'.parties j = member world.parties j

omit [Features] in
/-- A party at rest is not busy. -/
theorem World.busy_of_resting {rest : VersionedAdaptiveRadixTree V × List (Reader V)}
    (hrest : world.resting i = some rest) : world.busy i = false := by
  unfold World.resting at hrest
  unfold World.busy
  split at hrest
  · rename_i hmember
    rw [hmember]
  · cases hrest

omit [Features] in
theorem World.resting_eq_some {tree : VersionedAdaptiveRadixTree V} {readers : List (Reader V)}
    (hrest : world.resting i = some (tree, readers)) : member world.parties i = some (.resting tree readers) := by
  unfold World.resting at hrest
  split at hrest
  · rename_i hmember
    cases hrest
    exact hmember
  · cases hrest

omit [Features] in
/-- The member that was set. -/
theorem member_set_self {i : Nat} {l : List (Option α)} (hi : i < l.length) (x : Option α) :
    member (l.set i x) i = x := by
  rw [member_set, if_pos rfl, if_pos hi]

/-- What an action leads to that only reads. A tree that is at rest is the same afterwards. -/
def World.Reads (world : World V E) (views : List (Option (View (VersionedNode V)))) (maps : RefForest V) (i : Nat)
    (outcome : Result (Option (Event V E) × World V E)) : Prop :=
  ∃ event world', outcome = .ok (event, world') ∧ (∀ e, event = some e → e.Legal maps ∧ e.after maps = maps) ∧
    world'.Represents views maps ∧ (∀ j ≠ i, member world'.parties j = member world.parties j) ∧
    ∀ tree readers, world.resting i = some (tree, readers) → ∃ readers', world'.resting i = some (tree, readers')

/-- A read is an action that changes no map. -/
theorem World.Reads.acts {outcome : Result (Option (Event V E) × World V E)} (h : world.Reads views maps i outcome) :
    world.Acts views maps i outcome := by
  obtain ⟨event, world', houtcome, hlegal, hr, hothers, _⟩ := h
  refine ⟨event, world', views, houtcome, fun e he => (hlegal e he).1, ?_, fun j hj _ => ⟨rfl, hothers j hj⟩⟩
  cases event with
  | none => exact hr
  | some e =>
    change World.Represents _ _ (e.after maps)
    rwa [(hlegal e rfl).2]

/-- Nothing happens. -/
theorem World.Reads.idle (hr : world.Represents views maps) (i : Nat) :
    world.Reads views maps i (.ok (none, world)) :=
  ⟨none, world, rfl, fun _ he => (nomatch he), hr, fun _ _ => rfl, fun _ readers hrest => ⟨readers, hrest⟩⟩

/-- An action without effect. -/
theorem World.Acts.idle (hr : world.Represents views maps) (i : Nat) :
    world.Acts views maps i (.ok (none, world)) := (World.Reads.idle hr i).acts

omit [Features] in
theorem World.resting_set {tree : VersionedAdaptiveRadixTree V} {readers : List (Reader V)}
    (hi : i < world.parties.length) (h : Heap (VersionedNode V)) :
    World.resting (⟨h, world.parties.set i (some (.resting tree readers))⟩ : World V E) i = some (tree, readers) := by
  unfold World.resting
  dsimp only
  rw [member_set_self hi]

namespace World.Represents

omit [Features] in
theorem others_set (views : List (Option (View (VersionedNode V)))) (parties : List (Option (Party V E))) (i : Nat)
    (view : Option (View (VersionedNode V))) (party : Option (Party V E)) :
    ∀ j ≠ i, j < views.length → member (views.set i view) j = member views j ∧
      member (parties.set i party) j = member parties j := fun j hj _ => by
  rw [member_set, member_set, if_neg hj, if_neg hj]
  exact ⟨rfl, rfl⟩

omit [Features] in
theorem others_append (views : List (Option (View (VersionedNode V)))) {parties : List (Option (Party V E))}
    (hlen : parties.length = views.length) (view : Option (View (VersionedNode V))) (party : Option (Party V E)) :
    ∀ j ≠ views.length, j < views.length → member (views ++ [view]) j = member views j ∧
      member (parties ++ [party]) j = member parties j := fun j hj _ => by
  rw [member_append, member_append, if_neg hj, if_neg (hlen ▸ hj)]
  exact ⟨rfl, rfl⟩

/-- What starts at a tree that is at rest. -/
theorem start (hr : world.Represents views maps) {tree : VersionedAdaptiveRadixTree V} {readers : List (Reader V)}
    (hmember : member world.parties i = some (.resting tree readers)) :
    ∃ h m, member views i = some ⟨h, tree.root.toList, []⟩ ∧ member maps i = some m ∧
      versioned_tree.Stands h tree m ∧ (∀ r ∈ readers, r.2.Returns h (m.lookup r.1)) ∧
      Union world.heap (⟨h, tree.root.toList, []⟩ :: (views.eraseIdx i).reduceOption) := by
  have hs := hr.stands i
  rw [hmember] at hs
  generalize hview : member views i = view at hs
  generalize hm : member maps i = map at hs
  cases hs with
  | resting _ _ h m stands reads => exact ⟨h, m, rfl, rfl, stands, reads, hr.union_member hmember hview⟩

/-- A tree over the root of a member that is at rest. -/
theorem share (hr : world.Represents views maps) {tree : VersionedAdaptiveRadixTree V} {readers : List (Reader V)}
    (hmember : member world.parties i = some (.resting tree readers)) {version : Nat}
    (hversion : tree.version ≤ version) :
    ∃ h' m, tree.clone_root world.heap = .ok h' ∧ member maps i = some m ∧
      World.Represents ⟨h', world.parties ++ [some (.resting ⟨tree.root, version⟩ [])]⟩
        (views ++ [member views i]) (maps ++ [some m]) := by
  obtain ⟨h, m, hview, hm, hstands, _, hu⟩ := hr.start hmember
  obtain ⟨h', hclones, hu'⟩ := hu.twin rfl
  have hperm : (⟨h, tree.root.toList, []⟩ :: views.reduceOption).Perm _ :=
    List.Perm.cons _ (reduceOption_member (hr.lt hmember).2.1 hview)
  refine ⟨h', m, ?_, hm, ?_⟩
  · unfold clone_root
    rw [hclones]
    rfl
  · rw [hview]
    refine hr.push (hu'.perm hperm) (.resting ⟨tree.root, version⟩ [] h m ?_ fun r hr => (nomatch hr))
    exact ⟨fun a node ha hnode => Nat.le_trans (hstands.newest a node ha hnode) hversion, hstands.lookup_eq⟩

/-- A snapshot or a clone makes a new party. -/
theorem copy (hr : world.Represents views maps) (i : Nat) :
    world.Acts views maps views.length (world.act (.snapshot i : Action V E)) ∧
      world.Acts views maps views.length (world.act (.clone i : Action V E)) := by
  have hothers : ∀ party, ∀ j ≠ views.length, j < views.length →
      member (views ++ [member views i]) j = member views j ∧
        member (world.parties ++ [some party]) j = member world.parties j := fun party =>
    others_append views hr.views_length.symm _ _
  cases hrest : world.resting i with
  | none => exact ⟨by simpa only [World.act, hrest] using .idle hr _, by simpa only [World.act, hrest] using .idle hr _⟩
  | some rest =>
    obtain ⟨tree, readers⟩ := rest
    have hmember := World.resting_eq_some hrest
    refine ⟨?_, ?_⟩
    · obtain ⟨h', m, hclone, hm, hr'⟩ := hr.share hmember (Nat.le_succ tree.version)
      refine ⟨some (.done (.snapshot i) none),
        ⟨h', world.parties ++ [some (.resting ⟨tree.root, tree.version + 1⟩ [])]⟩, _, ?_, fun e he => ?_, ?_, hothers _⟩
      · simp only [World.act, hrest, VersionedAdaptiveRadixTree.snapshot, hclone, ok_bind, pure_eq_ok]
      · cases he
        simp only [Event.Legal, Command.onMaps, hm]
      · simp only [Option.elim_some, Event.after, Command.onMaps, hm]
        exact hr'
    · obtain ⟨h', m, hclone, hm, hr'⟩ := hr.share hmember (Nat.le_refl tree.version)
      refine ⟨some (.done (.clone i) none),
        ⟨h', world.parties ++ [some (.resting ⟨tree.root, tree.version⟩ [])]⟩, _, ?_, fun e he => ?_, ?_, hothers _⟩
      · simp only [World.act, hrest, clone_tree, hclone, ok_bind, pure_eq_ok]
      · cases he
        simp only [Event.Legal, Command.onMaps, hm]
      · simp only [Option.elim_some, Event.after, Command.onMaps, hm]
        exact hr'

/-- A tree goes out of scope. -/
theorem drop (hr : world.Represents views maps) (i : Nat) :
    world.Acts views maps i (world.act (.drop i : Action V E)) := by
  cases hrest : world.resting i with
  | none => simpa only [World.act, hrest] using .idle hr i
  | some rest =>
    obtain ⟨tree, readers⟩ := rest
    cases readers with
    | cons r readers => simpa only [World.act, hrest] using .idle hr i
    | nil =>
      have hmember := World.resting_eq_some hrest
      obtain ⟨h, m, hview, hm, _, _, hu⟩ := hr.start hmember
      refine ⟨some (.done (.drop i) none),
        ⟨world.heap, world.parties.set i (some (.dropping (shared.drop_opt tree.root)))⟩,
        views.set i (some ⟨h, tree.root.toList, []⟩), ?_,
        fun e he => ?_, ?_, others_set views world.parties i (some ⟨h, tree.root.toList, []⟩) _⟩
      · simp only [World.act, hrest, pure_eq_ok]
      · cases he
        simp only [Event.Legal, Command.onMaps, hm]
      · simp only [Option.elim_some, Event.after, Command.onMaps, hm]
        exact hr.set hmember hu (.dropping _ ⟨h, tree.root.toList, []⟩ (drop_safe hu.part))

/-- A mutation is begun. -/
theorem mutate (hr : world.Represents views maps) (i : Nat) (op : Mutation V E) :
    world.Acts views maps i (world.act (.mutate i op)) := by
  cases hrest : world.resting i with
  | none => simpa only [World.act, hrest] using .idle hr i
  | some rest =>
    obtain ⟨tree, readers⟩ := rest
    cases readers with
    | cons r readers => simpa only [World.act, hrest] using .idle hr i
    | nil =>
      have hmember := World.resting_eq_some hrest
      obtain ⟨h, m, hview, hm, hstands, _, hu⟩ := hr.start hmember
      refine ⟨none, ⟨world.heap, world.parties.set i (some (.mutating op (op.onShared tree)))⟩,
        views.set i (some ⟨h, tree.root.toList, []⟩), ?_,
        fun _ he => (nomatch he), ?_, others_set views world.parties i (some ⟨h, tree.root.toList, []⟩) _⟩
      · simp only [World.act, hrest, pure_eq_ok]
      · exact hr.set_party hmember hm hu (.mutating op _ _ m (mutation_safe hu.part hstands op))

/-- A tree at rest goes on with other readers. -/
theorem set_readers (hr : world.Represents views maps) {tree : VersionedAdaptiveRadixTree V}
    {readers : List (Reader V)} (hrest : world.resting i = some (tree, readers)) :
    ∃ h m, member maps i = some m ∧ Live h tree [] ∧ versioned_tree.Stands h tree m ∧
      (∀ r ∈ readers, r.2.Returns h (m.lookup r.1)) ∧
      (∀ {α : Type} {program : shared.Access V α} {x : α}, program.Returns h x → program.returned = none →
        ∃ program', next world.heap program = .ok (program', world.heap) ∧ program'.Returns h x) ∧
      ∀ (event : Option (Event V E)) (readers' : List (Reader V)),
        (∀ e, event = some e → e.Legal maps ∧ e.after maps = maps) →
        (∀ r ∈ readers', r.2.Returns h (m.lookup r.1)) → world.Reads views maps i
          (.ok (event, ⟨world.heap, world.parties.set i (some (.resting tree readers'))⟩)) := by
  have hmember := World.resting_eq_some hrest
  obtain ⟨h, m, hview, hm, hstands, hreads, hu⟩ := hr.start hmember
  refine ⟨h, m, hm, live_of_part hu.part hstands, hstands, hreads, fun hreturns hret => next_returns hreturns hu hret,
    fun event readers' hevent hreads' => ⟨event, _, rfl, hevent, ?_, fun j hj => ?_, fun tree' _ hrest' => ?_⟩⟩
  · have hset := hr.set_party hmember hm hu (.resting tree readers' h m hstands hreads')
    rwa [set_member (hr.lt hmember).2.1 hview] at hset
  · rw [member_set, if_neg hj]
  · rw [hrest] at hrest'
    cases hrest'
    exact ⟨readers', World.resting_set (hr.lt hmember).1 _⟩

/-- A lookup is begun. -/
theorem read (hr : world.Represents views maps) (i : Nat) (key : Bytes) :
    world.Reads views maps i (world.act (.read i key : Action V E)) := by
  cases hrest : world.resting i with
  | none => simpa only [World.act, hrest] using .idle hr i
  | some rest =>
    obtain ⟨tree, readers⟩ := rest
    obtain ⟨h, m, _, hlive, hstands, hreads, _, hset⟩ := hr.set_readers hrest
    simp only [World.act, hrest, pure_eq_ok]
    refine hset none _ (fun _ he => by cases he) fun r hr => ?_
    cases List.mem_append.1 hr with
    | inl hold => exact hreads r hold
    | inr hnew =>
      rw [List.mem_singleton.1 hnew]
      have hreturns := shared.get_k_returns hlive key
      rwa [hstands.lookup_eq] at hreturns

/-- A mutation or drop ends as it should, or gets closer to its end. -/
theorem advance_later (hr : world.Represents views maps) (i : Nat) :
    ∃ (event : Option (Event V E)) (world' : World V E) (views' : List (Option (View (VersionedNode V)))),
      world.act (.advance i) = .ok (event, world') ∧ (∀ e, event = some e → e.Legal maps) ∧
      world'.Represents views' (event.elim maps fun e => e.after maps) ∧
      (∀ j ≠ i, j < views.length → member views' j = member views j ∧
        member world'.parties j = member world.parties j) ∧
      (world'.busy i = true → ∃ x x', world.At views i x ∧ world'.At views' i x' ∧ Party.Later x' x) := by
  have hs := hr.stands i
  generalize hmember : member world.parties i = party at hs
  generalize hview : member views i = view at hs
  generalize hm : member maps i = map at hs
  cases hs with
  | gone =>
    refine ⟨none, world, views, ?_, fun _ he => (by cases he), hr, fun _ _ _ => ⟨rfl, rfl⟩, fun hbusy => ?_⟩
    · simp only [World.act, hmember, pure_eq_ok]
    · simp only [World.busy, hmember, Bool.false_eq_true] at hbusy
  | resting =>
    refine ⟨none, world, views, ?_, fun _ he => (by cases he), hr, fun _ _ _ => ⟨rfl, rfl⟩, fun hbusy => ?_⟩
    · simp only [World.act, hmember, pure_eq_ok]
    · simp only [World.busy, hmember, Bool.false_eq_true] at hbusy
  | mutating op program v m safe =>
    obtain ⟨hi, hviews, _⟩ := hr.lt hmember
    have hu := hr.union_member hmember hview
    simp only [World.act, hmember]
    cases hret : program.returned with
    | none =>
      obtain ⟨program', h', v', hnext, hsafe', hlater, hu'⟩ := next_safe safe hu hret
      refine ⟨none, _, views.set i (some v'), ?_, fun _ he => (by cases he), hr.set_party hmember hm hu'
        (.mutating op program' v' m hsafe'), others_set views world.parties i _ _, fun _ => ?_⟩
      · simp only [hnext, ok_bind, pure_eq_ok]
      · exact ⟨(.mutating op program, v), (.mutating op program', v'), ⟨hmember, hview⟩,
          ⟨member_set_self hi _, member_set_self hviews _⟩, .mutating op hlater⟩
    | some answer =>
      obtain ⟨reply, tree⟩ := answer
      obtain rfl := eq_done_of_returned hret
      obtain ⟨hreply, hown, hstands⟩ := safe
      have hreply : reply = (op.onMap m).1 := hreply
      have hown : v.own = tree.root.toList := hown
      have hevent : (Command.mutate i op).onMaps maps = (some (op.onMap m).1, maps.set i (some (op.onMap m).2)) := by
        simp only [Command.onMaps, hm]
      have hu' := hu.published
      rw [hown] at hu'
      refine ⟨_, _, views.set i (some ⟨v.heap, tree.root.toList, []⟩), rfl, fun e he => ?_, ?_,
        others_set views world.parties i _ _, fun hbusy => ?_⟩
      · cases he
        change (Command.onMaps maps _).1 = _
        rw [hevent, hreply]
      · change World.Represents _ _ (Command.onMaps maps _).2
        rw [hevent]
        exact hr.set hmember hu' (.resting tree [] v.heap _ hstands fun r hr => by cases hr)
      · simp only [World.busy, member_set_self hi, Bool.false_eq_true] at hbusy
  | dropping program v safe =>
    obtain ⟨hi, hviews, _⟩ := hr.lt hmember
    have hu := hr.union_member hmember hview
    simp only [World.act, hmember]
    cases hret : program.returned with
    | none =>
      obtain ⟨program', h', v', hnext, hsafe', hlater, hu'⟩ := next_safe safe hu hret
      refine ⟨none, _, views.set i (some v'), ?_, fun _ he => (by cases he), hr.set_party hmember hm hu'
        (.dropping program' v' hsafe'), others_set views world.parties i _ _, fun _ => ?_⟩
      · simp only [hnext, ok_bind, pure_eq_ok]
      · exact ⟨(.dropping program, v), (.dropping program', v'), ⟨hmember, hview⟩,
          ⟨member_set_self hi _, member_set_self hviews _⟩, .dropping hlater⟩
    | some answer =>
      obtain rfl := eq_done_of_returned hret
      refine ⟨none, _, views.set i none, rfl, fun _ he => (by cases he), hr.set_party hmember hm (hu.tail safe) .gone,
        others_set views world.parties i _ _, fun hbusy => ?_⟩
      simp only [World.busy, member_set_self hi, Bool.false_eq_true] at hbusy

/-- A mutation makes one access. -/
theorem advance (hr : world.Represents views maps) (i : Nat) :
    world.Acts views maps i (world.act (.advance i : Action V E)) := by
  obtain ⟨event, world', views', hact, hlegal, hr', hothers, _⟩ := hr.advance_later i
  exact ⟨event, world', views', hact, hlegal, hr', hothers⟩

/-- A lookup makes one access. -/
theorem advance_reader (hr : world.Represents views maps) (i j : Nat) :
    world.Reads views maps i (world.act (.advance_reader i j : Action V E)) := by
  cases hrest : world.resting i with
  | none => simpa only [World.act, hrest] using .idle hr i
  | some rest =>
    obtain ⟨tree, readers⟩ := rest
    obtain ⟨h, m, hm, _, _, hreads, hnext, hset⟩ := hr.set_readers hrest
    cases hreader : readers[j]? with
    | none => simpa only [World.act, hrest, hreader] using .idle hr i
    | some reader =>
      obtain ⟨key, program⟩ := reader
      have hreturns : program.Returns h (m.lookup key) := hreads _ (List.mem_of_getElem? hreader)
      cases hret : program.returned with
      | none =>
        obtain ⟨program', hstep, hreturns'⟩ := hnext hreturns hret
        simp only [World.act, hrest, hreader, hret, hstep, ok_bind, pure_eq_ok]
        refine hset none _ (fun _ he => by cases he) fun r hr => ?_
        cases List.mem_or_eq_of_mem_set hr with
        | inl hin => exact hreads r hin
        | inr heq =>
          rw [heq]
          exact hreturns'
      | some value =>
        obtain rfl := eq_done_of_returned hret
        obtain rfl : value = m.lookup key := hreturns
        simp only [World.act, hrest, hreader, returned, pure_eq_ok]
        refine hset _ _ (fun e he => ?_) fun r hr => hreads r (List.mem_of_mem_eraseIdx hr)
        cases he
        exact ⟨⟨m, hm, rfl⟩, rfl⟩

/-- No action panics, in whatever is under way, and what it completes is what the maps say. -/
theorem act (hr : world.Represents views maps) (action : Action V E) :
    world.Acts views maps (action.target views.length) (world.act action) := by
  cases action with
  | new =>
    refine ⟨_, _, views ++ [some ⟨Heap.empty, [], []⟩], rfl, fun e he => ?_, ?_,
      others_append views hr.views_length.symm _ _⟩
    · cases he
      rfl
    · exact hr.push hr.union.empty_view (.resting .new [] _ ∅ ⟨fun a node ha => (nomatch ha), fun key => rfl⟩
        fun r hr => (nomatch hr))
  | snapshot i => exact (hr.copy i).1
  | clone i => exact (hr.copy i).2
  | drop i => exact hr.drop i
  | mutate i op => exact hr.mutate i op
  | read i key => exact (hr.read i key).acts
  | advance i => exact hr.advance i
  | advance_reader i j => exact (hr.advance_reader i j).acts

/-- No schedule makes a thread panic, and everything that is completed is what the maps say. -/
theorem run (hr : world.Represents views maps) (schedule : List (Action V E)) :
    ∃ events world' views', world.run schedule = .ok (events, world') ∧ Legal maps events ∧
      world'.Represents views' (replay maps events) := by
  induction schedule generalizing world views maps with
  | nil => exact ⟨[], world, views, rfl, trivial, hr⟩
  | cons action actions ih =>
    obtain ⟨event, world₁, views₁, hact, hlegal, hr₁, _⟩ := hr.act action
    obtain ⟨events, world', views', hrun, hlegals, hr'⟩ := ih hr₁
    refine ⟨event.toList ++ events, world', views', ?_, ?_, ?_⟩
    · rw [World.run, hact, ok_bind]
      dsimp only
      rw [hrun]
      rfl
    · cases event with
      | none => exact hlegals
      | some event => exact ⟨hlegal event rfl, hlegals⟩
    · cases event with
      | none => exact hr'
      | some event => exact hr'

end World.Represents

end Steps

section Runs

/-- Without trees there is nothing to represent. -/
theorem World.represents_empty : (World.empty : World V E).Represents [] [] where
  union := ⟨Valid.empty, fun _ hv => (nomatch hv), List.Pairwise.nil⟩
  views_length := rfl
  maps_length := rfl
  stands _ := .gone

end Runs

end rart.versioned_tree
