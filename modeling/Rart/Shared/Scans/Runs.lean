import Rart.Shared.Scans.Turns

open SortedAssoc RcHeap RcHeap.Program Words LexOrder
open RcHeap.Heap (Valid Keeps)
open rart.node rart.partials rart.utils
open rart.iter (satisfies_start satisfies_end seek_key first_from within)

namespace rart.versioned_tree

variable {V E : Type}

section Model

/-- A scan that is under way: what it does next, and what it has handed out. -/
structure Scan (V : Type) where
  program : shared.Access V (Option (Option (Bytes × V) × shared.Range V))
  items : List (Bytes × V)

def Scan.new (tree : VersionedAdaptiveRadixTree V) (start_bound end_bound : Bound) : Scan V :=
  ⟨do (← shared.range tree start_bound end_bound).turn, []⟩

/-- `next` has returned `None`. -/
def Scan.ended (scan : Scan V) : Bool :=
  match scan.program.returned with
  | some none => true
  | _ => false

/-- The next access of a scan. -/
def Scan.advance (scan : Scan V) (h : Heap (VersionedNode V)) : Result (Scan V × Heap (VersionedNode V)) :=
  match scan.program.returned with
  | some none => return (scan, h)
  | some (some (entry, range)) => return (⟨range.turn, scan.items ++ entry.toList⟩, h)
  | none => do
    let (program, h) ← next h scan.program
    return (⟨program, scan.items⟩, h)

/-- Who goes on: the scan, or another thread. -/
inductive Turn (V E : Type) where
  | scan
  | other (action : Action V E)

def Turn.is_scan : Turn V E → Bool
  | scan => true
  | other _ => false

/-- What is done while a member is borrowed by a scan. -/
def Action.spares (i : Nat) : Action V E → Bool
  | drop j => j != i
  | mutate j _ => j != i
  | _ => true

variable [Features]

/-- A scan of a member, while the others go on. An action that the borrow checker rules out does
nothing. -/
def World.scan (i : Nat) (world : World V E) (scan : Scan V) : List (Turn V E) → Result (Scan V × World V E)
  | [] => return (scan, world)
  | .scan :: turns => do
    let (scan, heap) ← scan.advance world.heap
    World.scan i ⟨heap, world.parties⟩ scan turns
  | .other action :: turns =>
    if action.spares i then do
      let (_, world) ← world.act action
      World.scan i world scan turns
    else World.scan i world scan turns

end Model

variable [Features]

section Invariant

variable {h : Heap (VersionedNode V)} {scan : Scan V} {l : List (Bytes × V)} {budget : Nat}

/-- What a turn came to, with what is then left, and a bound on the accesses for it. -/
inductive Scan.Next (h : Heap (VersionedNode V)) :
    Option (Option (Bytes × V) × shared.Range V) → List (Bytes × V) → Nat → Prop where
  | ended : Next h none [] 0
  | goes_on (entry : Option (Bytes × V)) (range : shared.Range V) (live : range.Live h) :
      Next h (some (entry, range)) (entry.toList ++ range.left h) (3 * range.turns_left h + 3)

/-- A scan hands out a list in all, with so many more accesses at most. -/
def Scan.Hands (h : Heap (VersionedNode V)) (scan : Scan V) (l : List (Bytes × V)) (budget : Nat) : Prop :=
  ∃ r n left b, scan.program.ReturnsWithin h r n ∧ Scan.Next h r left b ∧ scan.items ++ left = l ∧ n + b ≤ budget

theorem turn_next {roots : List Nat} (hv : Valid h roots) {range : shared.Range V} (hl : range.Live h) :
    ∃ r b, range.turn.ReturnsWithin h r 2 ∧ Scan.Next h r (range.left h) b ∧ 2 + b ≤ 3 * range.turns_left h + 2 := by
  obtain ⟨r, hreturns, hcases⟩ := shared.Range.turn_spec hv hl
  obtain ⟨rfl, hleft⟩ | ⟨entry, range', rfl, hleft, hl', hless⟩ := hcases
  · refine ⟨none, 0, hreturns, ?_, by omega⟩
    rw [hleft]
    exact .ended
  · refine ⟨_, 3 * range'.turns_left h + 3, hreturns, ?_, ?_⟩
    · rw [hleft]
      exact .goes_on entry range' hl'
    · omega

/-- A scan that starts is to hand out the entries within its bounds. -/
theorem hands_new {tree : VersionedAdaptiveRadixTree V} {others : List Nat} (hl : Live h tree others)
    (start_bound end_bound : Bound) : ∃ budget, (Scan.new tree start_bound end_bound).Hands h
      (within start_bound end_bound (rootEntries (tree.root.bind (borrow h)))) budget := by
  obtain ⟨range, hreturns, hlive, hleft⟩ := shared.range_returns hl start_bound end_bound
  obtain ⟨r, b, hturn, hnext, _⟩ := turn_next hl.valid hlive
  exact ⟨1 + 2 + b, r, 1 + 2, _, b, hreturns.bind hturn, hnext, hleft, Nat.le_refl _⟩

theorem Scan.Hands.items_start (hs : scan.Hands h l budget) : scan.items <+: l := by
  obtain ⟨r, n, left, b, _, _, rfl, _⟩ := hs
  exact List.prefix_append scan.items left

theorem Scan.Hands.ended (hs : scan.Hands h l 0) : scan.ended = true ∧ scan.items = l := by
  obtain ⟨r, n, left, b, hreturns, hnext, rfl, hle⟩ := hs
  obtain ⟨rfl, rfl⟩ : n = 0 ∧ b = 0 := by omega
  obtain ⟨program, items⟩ := scan
  cases hnext with
  | ended =>
    cases program with
    | done r =>
      obtain rfl : r = none := hreturns
      exact ⟨rfl, (List.append_nil items).symm⟩
    | _ => exact hreturns.elim

/-- An access of a scan leaves the heap alone, and brings the scan closer to its end. -/
theorem Scan.Hands.advance {v : View (VersionedNode V)} {g : Heap (VersionedNode V)} (hp : Part g v)
    (hs : scan.Hands v.heap l budget) :
    ∃ scan', scan.advance g = .ok (scan', g) ∧ scan'.Hands v.heap l (budget - 1) := by
  obtain ⟨r, n, left, b, hreturns, hnext, hl, hle⟩ := hs
  obtain ⟨program, items⟩ := scan
  have hreturns : program.ReturnsWithin v.heap r n := hreturns
  have hl : items ++ left = l := hl
  obtain rfl | ⟨program', m, rfl, hstep, hreturns'⟩ := hreturns.goes hp
  · cases hnext with
    | ended => exact ⟨_, rfl, none, 0, [], 0, returnsWithin_done none 0, .ended, hl, Nat.zero_le _⟩
    | goes_on entry range hlive =>
      obtain ⟨r, b, hturn, hnext, hb⟩ := turn_next hp.valid hlive
      refine ⟨_, rfl, r, 2, _, b, hturn, hnext, ?_, by omega⟩
      rw [List.append_assoc, hl]
  · have hret : program.returned = none := by
      cases program with
      | done a => cases hstep
      | _ => rfl
    refine ⟨⟨program', items⟩, ?_, r, m, left, b, hreturns', hnext, hl, by omega⟩
    have hnext : next g program = .ok (program', g) := by
      cases program with
      | fail e => cases hstep
      | _ => exact congrArg arc hstep
    simp only [Scan.advance, hret, hnext, ok_bind, pure_eq_ok]

end Invariant

section Runs

variable {world : World V E} {views : List (Option (View (VersionedNode V)))} {maps : RefForest V} {i : Nat}
  {tree : VersionedAdaptiveRadixTree V} {readers : List (Reader V)}

/-- What spares a member leaves its tree, and what it sees of the heap. -/
theorem World.Represents.spared (hr : world.Represents views maps) (hrest : world.resting i = some (tree, readers))
    {action : Action V E} (hspares : action.spares i = true) :
    ∃ event world' views' maps' readers', world.act action = .ok (event, world') ∧
      world'.Represents views' maps' ∧ member views' i = member views i ∧
      world'.resting i = some (tree, readers') := by
  have hmember := World.resting_eq_some hrest
  have hi := (hr.lt hmember).2.1
  by_cases htarget : action.target views.length = i
  · have hreads : world.Reads views maps i (world.act action) := by
      cases action with
      | new => exact absurd htarget (Nat.ne_of_gt hi)
      | snapshot j => exact absurd htarget (Nat.ne_of_gt hi)
      | clone j => exact absurd htarget (Nat.ne_of_gt hi)
      | drop j =>
        obtain rfl : j = i := htarget
        simp [Action.spares] at hspares
      | mutate j op =>
        obtain rfl : j = i := htarget
        simp [Action.spares] at hspares
      | read j key =>
        obtain rfl : j = i := htarget
        exact hr.read j key
      | advance j =>
        obtain rfl : j = i := htarget
        simp only [World.act, hmember]
        exact .idle hr j
      | advance_reader j k =>
        obtain rfl : j = i := htarget
        exact hr.advance_reader j k
    obtain ⟨event, world', hact, _, hr', _, hrest'⟩ := hreads
    obtain ⟨readers', hrest'⟩ := hrest' tree readers hrest
    exact ⟨event, world', views, maps, readers', hact, hr', rfl, hrest'⟩
  · obtain ⟨event, world', views', hact, _, hr', hothers⟩ := hr.act action
    obtain ⟨hview, hparty⟩ := hothers i (Ne.symm htarget) hi
    exact ⟨event, world', views', _, readers, hact, hr', hview, World.resting_iff.2 (hparty.trans hmember)⟩

/-- A scan goes on, whoever else does. -/
theorem World.Represents.scan (hr : world.Represents views maps) (hrest : world.resting i = some (tree, readers))
    {v : View (VersionedNode V)} (hview : member views i = some v) {scan : Scan V} {l : List (Bytes × V)}
    {budget : Nat} (hs : scan.Hands v.heap l budget) (turns : List (Turn V E)) :
    ∃ scan' world', World.scan i world scan turns = .ok (scan', world') ∧
      scan'.Hands v.heap l (budget - turns.countP Turn.is_scan) := by
  induction turns generalizing world views maps readers scan budget with
  | nil => exact ⟨scan, world, rfl, hs⟩
  | cons turn turns ih =>
    cases turn with
    | scan =>
      obtain ⟨scan₁, hadvance, hs₁⟩ := hs.advance (hr.union_member (World.resting_eq_some hrest) hview).part
      obtain ⟨scan', world', hrun, hs'⟩ := ih hr hrest hview hs₁
      refine ⟨scan', world', ?_, ?_⟩
      · rw [World.scan, hadvance, ok_bind]
        exact hrun
      · rw [List.countP_cons_of_pos rfl]
        rwa [Nat.sub_sub, Nat.add_comm] at hs'
    | other action =>
      rw [List.countP_cons_of_neg (by simp [Turn.is_scan]), World.scan]
      split
      · rename_i hspares
        obtain ⟨event, world₁, views₁, maps₁, readers₁, hact, hr₁, hview₁, hrest₁⟩ := hr.spared hrest hspares
        rw [hact, ok_bind]
        exact ih hr₁ hrest₁ (hview₁.trans hview) hs
      · exact ih hr hrest hview hs

/-- A scan of a tree reads one node after the other, and between its accesses other threads do as
they like with the trees that share them. All the same it hands out, in ascending order, the
entries within its bounds that the tree held when it started, and comes to its end. -/
theorem World.scans_hold (schedule : List (Action V E)) :
    ∃ (events : List (Event V E)) (world : World V E), World.empty.run schedule = .ok (events, world) ∧
      ∀ i tree readers, world.resting i = some (tree, readers) → ∀ start_bound end_bound, ∃ l,
        query.Scans (tree.get_k world.heap) (fun key => iter.StartOk start_bound key ∧ iter.EndOk end_bound key) l ∧
        ∃ accesses, ∀ turns : List (Turn V E), ∃ scan world',
          World.scan i world (.new tree start_bound end_bound) turns = .ok (scan, world') ∧ scan.items <+: l ∧
          (accesses ≤ turns.countP Turn.is_scan → scan.ended = true ∧ scan.items = l) := by
  obtain ⟨events, world, views, hrun, _, hr⟩ := World.represents_empty.run schedule
  refine ⟨events, world, hrun, fun i tree readers hrest start_bound end_bound => ?_⟩
  obtain ⟨h, m, hview, hm, hstands, _, hu⟩ := hr.start (World.resting_eq_some hrest)
  have hlive := live_of_part hu.part hstands
  obtain ⟨budget, hs⟩ := hands_new hlive start_bound end_bound
  refine ⟨within start_bound end_bound (rootEntries (tree.root.bind (borrow h))), ?_, budget, fun turns => ?_⟩
  · obtain ⟨m', others, hm', hlive', hstands'⟩ := hr.live hrest
    cases hm.symm.trans hm'
    have hget : ∀ key, tree.get_k world.heap key = .ok (m.lookup key) := fun key => by
      rw [hlive'.get_k_eq, hstands'.lookup_eq]
    refine query.scans_filter (hstands.lists hlive) hget fun e => ?_
    rw [Bool.and_eq_true, iter.satisfies_start_iff, iter.satisfies_end_iff]
  · obtain ⟨scan, world', hscan, hs'⟩ := hr.scan hrest hview hs turns
    refine ⟨scan, world', hscan, hs'.items_start, fun hle => ?_⟩
    rw [Nat.sub_eq_zero_of_le hle] at hs'
    exact hs'.ended

end Runs

end rart.versioned_tree
