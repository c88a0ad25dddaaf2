import Rart.Shared.World
import Rart.Versioned.Accounts

open SortedAssoc RcHeap RcHeap.Program Words LexOrder
open RcHeap.Heap (Valid Keeps)
open rart.node rart.partials rart.utils

namespace rart.versioned_tree

open VersionedAdaptiveRadixTree

variable {V E : Type}

section Model

variable [Features]

/-- What was completed, done again by one thread on a forest of its own. -/
inductive Repeats : Forest V → List (Event V E) → Forest V → Prop where
  | nil (forest : Forest V) : Repeats forest [] forest
  | done {forest forest₁ forest' : Forest V} {command : Command V E} {reply : Option (Reply V E)}
      {events : List (Event V E)} (hcommand : command.onForest forest = .ok (reply, forest₁))
      (hrest : Repeats forest₁ events forest') : Repeats forest (.done command reply :: events) forest'
  | seen {forest forest' : Forest V} {i : Nat} {tree : VersionedAdaptiveRadixTree V} {key : Bytes}
      {value : Option V} {events : List (Event V E)} (hmember : member forest.trees i = some tree)
      (hget : tree.get_k forest.heap key = .ok value) (hrest : Repeats forest events forest') :
      Repeats forest (.seen i key value :: events) forest'

end Model

/-- The reference that a tree at rest holds. -/
def Party.root : Option (Party V E) → List Nat
  | some (.resting tree _) => tree.root.toList
  | _ => []

variable [Features]

section Serial

/-- What agrees with the maps is what a forest answers. -/
theorem Represents.repeats {forest : Forest V} {maps : RefForest V} (hr : Represents forest maps)
    {events : List (Event V E)} (hlegal : Legal maps events) :
    ∃ forest', Repeats forest events forest' ∧ Represents forest' (replay maps events) := by
  induction events generalizing forest maps with
  | nil => exact ⟨forest, .nil forest, hr⟩
  | cons event events ih =>
    obtain ⟨hevent, hrest⟩ := hlegal
    cases event with
    | done command reply =>
      obtain ⟨forest₁, hcommand, hr₁⟩ := command.step hr
      obtain ⟨forest', hrepeats, hr'⟩ := ih hr₁ hrest
      refine ⟨forest', .done ?_ hrepeats, hr'⟩
      rw [hcommand, hevent]
    | seen i key value =>
      obtain ⟨m, hm, hvalue⟩ := hevent
      obtain ⟨forest', hrepeats, hr'⟩ := ih hr hrest
      have hrel := hr.stands i
      rw [hm] at hrel
      generalize hmember : member forest.trees i = found at hrel
      cases hrel with
      | some hs =>
        refine ⟨forest', .seen hmember ?_ hrepeats, hr'⟩
        rw [(hr.live hmember).get_k_eq, hs.lookup_eq, hvalue]

variable {world : World V E} {views : List (Option (View (VersionedNode V)))} {maps : RefForest V} {i : Nat}

/-- A tree at rest is live in the heap that all share, and stands for its map there. -/
theorem World.Represents.live (hr : world.Represents views maps) {tree : VersionedAdaptiveRadixTree V}
    {readers : List (Reader V)} (hrest : world.resting i = some (tree, readers)) :
    ∃ m others, member maps i = some m ∧ Live world.heap tree others ∧ Stands world.heap tree m := by
  obtain ⟨h, m, _, hm, hstands, _, hu⟩ := hr.start (World.resting_eq_some hrest)
  have hnewest : ∀ a node, tree.root = some a → world.heap.node? a = some node → node.version ≤ tree.version :=
    fun a node ha hnode => by
      rw [hu.part.node?_of_own (Option.mem_toList.2 ha)] at hnode
      exact hstands.newest a node ha hnode
  refine ⟨m, _, hm, ⟨hu.valid_cons, hnewest⟩, hnewest, fun key => ?_⟩
  rw [← hstands.lookup_eq key]
  unfold VersionedAdaptiveRadixTree.lookup
  cases ha : tree.root with
  | none => rfl
  | some a =>
    exact find_agree hu.part.valid hu.valid (hu.part.agree ⟨_, hu.valid.counted⟩ (Option.mem_toList.2 ha)) key

/-- Under any schedule no thread panics, and everything that was done could have been done by one
thread in the order of the events: calls when they return, drops when they begin. The answers are
the same, and the trees that are at rest hold the same entries. -/
theorem World.serializable (schedule : List (Action V E)) :
    ∃ (events : List (Event V E)) (world : World V E) (forest : Forest V),
      World.empty.run schedule = .ok (events, world) ∧ Repeats .empty events forest ∧
      ∀ i tree readers, world.resting i = some (tree, readers) → ∃ tree', member forest.trees i = some tree' ∧
        ∀ key, ∃ value, tree.get_k world.heap key = .ok value ∧ tree'.get_k forest.heap key = .ok value := by
  obtain ⟨events, world, views, hrun, hlegal, hr⟩ := World.represents_empty.run schedule
  obtain ⟨forest, hrepeats, hr'⟩ := rart.versioned_tree.represents_empty.repeats hlegal
  refine ⟨events, world, forest, hrun, hrepeats, fun i tree readers hrest => ?_⟩
  obtain ⟨m, others, hm, hlive, hstands⟩ := hr.live hrest
  have hrel := hr'.stands i
  rw [hm] at hrel
  generalize hmember : member forest.trees i = found at hrel
  cases hrel with
  | some hs =>
    refine ⟨_, rfl, fun key => ⟨m.lookup key, ?_, ?_⟩⟩
    · rw [hlive.get_k_eq, hstands.lookup_eq]
    · rw [(hr'.live hmember).get_k_eq, hs.lookup_eq]

end Serial

section Memory

variable {world : World V E} {views : List (Option (View (VersionedNode V)))} {maps : RefForest V} {i : Nat}

/-- Where nothing is mutated or dropped, the views hold the roots of the trees. -/
theorem World.Represents.own_eq (hr : world.Represents views maps) (hquiet : ∀ i, world.busy i = false) :
    views.reduceOption.flatMap View.own = world.parties.flatMap Party.root := by
  have hsame : views.map (fun view => view.elim [] View.own) = world.parties.map Party.root := by
    refine List.ext_getElem ?_ fun i hview hparty => ?_
    · rw [List.length_map, List.length_map, hr.views_length]
    · rw [List.length_map] at hview hparty
      have hs := hr.stands i
      have hbusy := hquiet i
      unfold World.busy at hbusy
      unfold member at hs hbusy
      rw [List.getElem?_eq_getElem hparty] at hs hbusy
      rw [List.getElem?_eq_getElem hview] at hs
      rw [List.getElem_map, List.getElem_map]
      generalize world.parties[i] = party at hs hbusy
      generalize views[i] = view at hs
      change Party.Stands party view (member maps i) at hs
      generalize member maps i = map at hs
      cases hs with
      | gone => rfl
      | resting => rfl
      | mutating => cases hbusy
      | dropping => cases hbusy
  rw [reduceOption_flatMap, List.flatMap_def, hsame, ← List.flatMap_def]

omit [Features] in
theorem mem_parties_root {parties : List (Option (Party V E))} {a : Nat} :
    a ∈ parties.flatMap Party.root ↔
      ∃ i tree readers, member parties i = some (.resting tree readers) ∧ tree.root = some a := by
  constructor
  · intro ha
    obtain ⟨party, hparty, hroot⟩ := List.mem_flatMap.1 ha
    obtain ⟨i, hi, hget⟩ := List.mem_iff_getElem.1 hparty
    cases party with
    | none => cases hroot
    | some party =>
      cases party with
      | resting tree readers =>
        refine ⟨i, tree, readers, ?_, Option.mem_toList.1 hroot⟩
        exact Option.join_eq_some_iff.2 (List.getElem?_eq_some_iff.2 ⟨hi, hget⟩)
      | mutating op program => cases hroot
      | dropping program => cases hroot
  · rintro ⟨i, tree, readers, hmember, hroot⟩
    obtain ⟨hi, hget⟩ := member_eq_some hmember
    exact List.mem_flatMap.2 ⟨_, List.mem_of_getElem hget, Option.mem_toList.2 hroot⟩

omit [Features] in
theorem World.resting_iff {tree : VersionedAdaptiveRadixTree V} {readers : List (Reader V)} :
    world.resting i = some (tree, readers) ↔ member world.parties i = some (.resting tree readers) := by
  refine ⟨World.resting_eq_some, fun hmember => ?_⟩
  unfold World.resting
  rw [hmember]

/-- Under any schedule, once no mutation or drop is under way, the allocated nodes are those that
some tree reaches, and the count of each is the number of trees and of nodes, by their edges, that
refer to it. -/
theorem World.nothing_leaks (schedule : List (Action V E)) :
    ∃ (events : List (Event V E)) (world : World V E), World.empty.run schedule = .ok (events, world) ∧
      ((∀ i, world.busy i = false) →
        (∀ a, (∃ node, world.heap.node? a = some node) ↔
          ∃ i tree readers, world.resting i = some (tree, readers) ∧ tree.Reaches world.heap a) ∧
        (∀ a, world.heap.count a = (world.parties.flatMap Party.root).count a + world.heap.inner.count a)) := by
  obtain ⟨events, world, views, hrun, _, hr⟩ := World.represents_empty.run schedule
  refine ⟨events, world, hrun, fun hquiet => ?_⟩
  have hvalid := hr.union.valid
  rw [hr.own_eq hquiet] at hvalid
  refine ⟨fun a => ⟨?_, ?_⟩, hvalid.counted.count_eq⟩
  · rintro ⟨node, hnode⟩
    obtain ⟨r, hroot, hbelow⟩ := hvalid.counted.below_root hnode
    obtain ⟨i, tree, readers, hmember, hr'⟩ := mem_parties_root.1 hroot
    exact ⟨i, tree, readers, World.resting_iff.2 hmember, r, hr', hbelow⟩
  · rintro ⟨i, tree, readers, _, r, _, hbelow⟩
    exact hbelow.live

end Memory

section Progress

variable {world : World V E} {views : List (Option (View (VersionedNode V)))} {maps : RefForest V} {i : Nat}

omit [Features] in
/-- No mutation and no drop goes on without end. -/
theorem Party.acc_later (x : Party V E × View (VersionedNode V)) : Acc Party.Later x := by
  obtain ⟨party, v⟩ := x
  cases party with
  | resting tree readers => exact Acc.intro _ fun y hlater => (nomatch hlater)
  | mutating op program =>
    generalize hx : (program, v) = x
    have hacc := Program.acc_later program v
    rw [hx] at hacc
    induction hacc generalizing program v with
    | intro x _ ih =>
      subst hx
      refine Acc.intro _ fun y hlater => ?_
      cases hlater with
      | mutating _ hlater => exact ih _ hlater _ _ rfl
  | dropping program =>
    generalize hx : (program, v) = x
    have hacc := Program.acc_later program v
    rw [hx] at hacc
    induction hacc generalizing program v with
    | intro x _ ih =>
      subst hx
      refine Acc.intro _ fun y hlater => ?_
      cases hlater with
      | dropping hlater => exact ih _ hlater _ _ rfl

/-- A schedule from which some steps on a member is at rest. -/
def World.Rests (world : World V E) (σ : Nat → Action V E) (i : Nat) : Prop :=
  ∃ n events world', world.run ((List.range n).map σ) = .ok (events, world') ∧ world'.busy i = false

theorem World.Rests.now {σ : Nat → Action V E} (hrest : world.busy i = false) : world.Rests σ i :=
  ⟨0, [], world, rfl, hrest⟩

theorem World.Rests.of_act {σ : Nat → Action V E} {event : Option (Event V E)} {world₁ : World V E}
    (hact : world.act (σ 0) = .ok (event, world₁)) (hrests : world₁.Rests (fun n => σ (n + 1)) i) :
    world.Rests σ i := by
  obtain ⟨n, events, world', hrun, hrest⟩ := hrests
  refine ⟨n + 1, event.toList ++ events, world', ?_, hrest⟩
  rw [List.range_succ_eq_map, List.map_cons, List.map_map, World.run, hact, ok_bind]
  dsimp only
  rw [show σ ∘ Nat.succ = fun n => σ (n + 1) from rfl, hrun]
  rfl

omit [Features] in
theorem fair_succ {σ : Nat → Action V E} (hfair : ∀ n, ∃ m ≥ n, σ m = .advance i) (n : Nat) :
    ∃ m ≥ n, σ (m + 1) = .advance i := by
  obtain ⟨m, hm, hturn⟩ := hfair (n + 1)
  obtain ⟨m, rfl⟩ := Nat.exists_eq_add_of_le' (Nat.le_trans (Nat.le_add_left 1 n) hm)
  exact ⟨m, Nat.le_of_succ_le_succ hm, hturn⟩

omit [Features] in
theorem World.At.unique {x y : Party V E × View (VersionedNode V)} (hx : world.At views i x)
    (hy : world.At views i y) : y = x :=
  Prod.ext (Option.some.inj (hy.1.symm.trans hx.1)) (Option.some.inj (hy.2.symm.trans hx.2))

namespace World.Represents

variable {σ : Nat → Action V E}

theorem at_busy (hr : world.Represents views maps) (hbusy : world.busy i = true) : ∃ x, world.At views i x := by
  have hs := hr.stands i
  unfold World.busy at hbusy
  generalize hmember : member world.parties i = party at hs hbusy
  generalize hview : member views i = view at hs
  generalize member maps i = map at hs
  cases hs with
  | gone => cases hbusy
  | resting => cases hbusy
  | mutating op program v => exact ⟨(.mutating op program, v), hmember, hview⟩
  | dropping program v => exact ⟨(.dropping program, v), hmember, hview⟩

/-- What is under way at a member waits for nobody, and nobody changes what it sees. -/
theorem kept (hr : world.Represents views maps) (hbusy : world.busy i = true)
    {x : Party V E × View (VersionedNode V)} (hx : world.At views i x) {action : Action V E}
    (hother : action ≠ .advance i) :
    ∃ (event : Option (Event V E)) (world' : World V E) (views' : List (Option (View (VersionedNode V))))
      (maps' : RefForest V), world.act action = .ok (event, world') ∧ world'.Represents views' maps' ∧
        world'.At views' i x := by
  obtain ⟨_, hi, _⟩ := hr.lt hx.1
  have hrest : world.resting i = none := by
    by_contra hsome
    obtain ⟨rest, hrest⟩ := Option.ne_none_iff_exists'.1 hsome
    rw [World.busy_of_resting hrest] at hbusy
    cases hbusy
  by_cases htarget : action.target views.length = i
  · -- nothing else is done to a tree that is mutated or dropped
    refine ⟨none, world, views, maps, ?_, hr, hx⟩
    cases action with
    | new => exact absurd htarget (Nat.ne_of_gt hi)
    | snapshot j => exact absurd htarget (Nat.ne_of_gt hi)
    | clone j => exact absurd htarget (Nat.ne_of_gt hi)
    | drop j =>
      obtain rfl : j = i := htarget
      simp only [World.act, hrest, pure_eq_ok]
    | mutate j op =>
      obtain rfl : j = i := htarget
      simp only [World.act, hrest, pure_eq_ok]
    | read j key =>
      obtain rfl : j = i := htarget
      simp only [World.act, hrest, pure_eq_ok]
    | advance j =>
      obtain rfl : j = i := htarget
      exact absurd rfl hother
    | advance_reader j k =>
      obtain rfl : j = i := htarget
      simp only [World.act, hrest, pure_eq_ok]
  · obtain ⟨event, world', views', hact, _, hr', hothers⟩ := hr.act action
    obtain ⟨hview, hparty⟩ := hothers i (Ne.symm htarget) hi
    exact ⟨event, world', views', _, hact, hr', hparty.trans hx.1, hview.trans hx.2⟩

/-- A turn of a member brings it closer to its end. -/
theorem rests_of_turn (hr : world.Represents views maps) {x : Party V E × View (VersionedNode V)}
    (hx : world.At views i x) (hturn : σ 0 = .advance i)
    (hcloser : ∀ y, Party.Later y x → ∀ {world : World V E} {views : List (Option (View (VersionedNode V)))}
      {maps : RefForest V}, world.Represents views maps → world.At views i y → world.Rests (fun n => σ (n + 1)) i) :
    world.Rests σ i := by
  obtain ⟨event, world₁, views₁, hact, _, hr₁, _, hlater⟩ := hr.advance_later (E := E) i
  refine Rests.of_act (hturn ▸ hact) ?_
  by_cases hbusy : world₁.busy i = true
  · obtain ⟨y, x', hy, hx', hlater⟩ := hlater hbusy
    obtain rfl := hx.unique hy
    exact hcloser x' hlater hr₁ hx'
  · exact .now (Bool.eq_false_of_not_eq_true hbusy)

/-- A member that gets its turn again and again comes to rest. -/
theorem rests (hr : world.Represents views maps) {x : Party V E × View (VersionedNode V)}
    (hx : world.At views i x) (hfair : ∀ n, ∃ m ≥ n, σ m = .advance i) : world.Rests σ i := by
  induction Party.acc_later x generalizing world views maps σ with
  | intro x _ ih =>
    obtain ⟨m, _, hturn⟩ := hfair 0
    -- on the turns of the others until the next one of the member
    induction m generalizing world views maps σ with
    | zero => exact hr.rests_of_turn hx hturn fun y hlater _ _ _ hr hy => ih y hlater hr hy (fair_succ hfair)
    | succ m inner =>
      by_cases hnow : σ 0 = .advance i
      · exact hr.rests_of_turn hx hnow fun y hlater _ _ _ hr hy => ih y hlater hr hy (fair_succ hfair)
      · by_cases hbusy : world.busy i = true
        · obtain ⟨event, world₁, views₁, maps₁, hact, hr₁, hx₁⟩ := hr.kept hbusy hx hnow
          exact Rests.of_act hact (inner hr₁ hx₁ (fair_succ hfair) (Nat.zero_le m) hturn)
        · exact .now (Bool.eq_false_of_not_eq_true hbusy)

end World.Represents

theorem World.run_append {actions rest : List (Action V E)} {events events' : List (Event V E)}
    {world' world'' : World V E} (hrun : world.run actions = .ok (events, world'))
    (hrest : world'.run rest = .ok (events', world'')) :
    world.run (actions ++ rest) = .ok (events ++ events', world'') := by
  induction actions generalizing world events with
  | nil =>
    cases hrun
    exact hrest
  | cons action actions ih =>
    rw [World.run] at hrun
    obtain ⟨⟨event, world₁⟩, hact, hrun⟩ := bind_eq_ok_iff.1 hrun
    obtain ⟨⟨events₁, world₂⟩, hrun₁, heq⟩ := bind_eq_ok_iff.1 hrun
    cases heq
    rw [List.cons_append, World.run, hact, ok_bind]
    dsimp only
    rw [ih hrun₁, List.append_assoc]
    rfl

/-- Under a schedule that lets the thread of a tree go on again and again, whatever it does to the
other trees, whatever was begun at that tree comes to an end, at any time anew. -/
theorem World.comes_to_rest (σ : Nat → Action V E) (i : Nat) (hfair : ∀ n, ∃ m ≥ n, σ m = .advance i) (n : Nat) :
    ∃ m ≥ n, ∃ (events : List (Event V E)) (world : World V E),
      World.empty.run ((List.range m).map σ) = .ok (events, world) ∧ world.busy i = false := by
  obtain ⟨events, world, views, hrun, _, hr⟩ := World.represents_empty.run ((List.range n).map σ)
  have hrests : world.Rests (fun k => σ (n + k)) i := by
    by_cases hbusy : world.busy i = true
    · obtain ⟨x, hx⟩ := hr.at_busy hbusy
      refine hr.rests hx fun k => ?_
      obtain ⟨m, hm, hturn⟩ := hfair (n + k)
      obtain ⟨d, rfl⟩ := Nat.exists_eq_add_of_le hm
      exact ⟨k + d, Nat.le_add_right k d, by rw [← Nat.add_assoc, hturn]⟩
    · exact .now (Bool.eq_false_of_not_eq_true hbusy)
  obtain ⟨k, events', world', hrun', hrest⟩ := hrests
  refine ⟨n + k, Nat.le_add_right n k, events ++ events', world', ?_, hrest⟩
  rw [List.range_add, List.map_append, List.map_map]
  exact World.run_append hrun hrun'

/-- A tree and its snapshot share the leaf that the threads of both set out to split. From then
on the two take turns. -/
def taking_turns (n : Nat) : Action Nat Empty :=
  [.new, .mutate 0 (.insert_k [1, 2] 20), .advance 0, .advance 0, .snapshot 0,
    .mutate 0 (.insert_k [1, 3] 30), .mutate 1 (.insert_k [1, 4] 40)].getD n (.advance (n % 2))

omit [Features] in
/-- When three turns were taken, both threads are still at work; the first one comes to its end. -/
theorem World.comes_to_rest_taking_turns : letI : Features := ⟨none⟩
    (World.empty.run ((List.range 10).map taking_turns)).toOption.map (fun r => (r.2.busy 0, r.2.busy 1)) =
        some (true, true) ∧
      ∃ m ≥ 10, ∃ (events : List (Event Nat Empty)) (world : World Nat Empty),
        World.empty.run ((List.range m).map taking_turns) = .ok (events, world) ∧ world.busy 0 = false := by
  let : Features := ⟨none⟩
  refine ⟨by decide +kernel, World.comes_to_rest taking_turns 0 (fun n => ⟨2 * n + 8, by omega, ?_⟩) 10⟩
  have hturn : (2 * n + 8) % 2 = 0 := by omega
  unfold taking_turns
  rw [hturn]
  rfl

end Progress

end rart.versioned_tree
