import Rart.Shared.Scans.Iterators

open SortedAssoc RcHeap RcHeap.Program Words LexOrder
open RcHeap.Heap (Valid Keeps)
open rart.node rart.partials rart.utils
open rart.iter (satisfies_start satisfies_end seek_key first_from within)

namespace rart.versioned_tree

namespace shared

variable {V : Type}

section Turns

variable [Features] {h : Heap (VersionedNode V)} {roots : List Nat}

/-- The walk of `next`, after the entry of the root. -/
def entry_cursor : Cursor (Option (Bytes × V) × iter.IterInner (NodeRef V)) (Bytes × V) :=
  iter.IterInner.cursor.onceThen

def Iter.on (h : Heap (VersionedNode V)) (self : Iter V) : Option (Bytes × V) × iter.IterInner (NodeRef V) :=
  (self.first, self.children.on h)

def Range.Live (h : Heap (VersionedNode V)) (self : Range V) : Prop := self.iter.children.Live h

/-- What a scan is still to hand out. -/
def Range.left (h : Heap (VersionedNode V)) (self : Range V) : List (Bytes × V) :=
  (entry_cursor.collect (self.iter.on h)).takeWhile fun e => satisfies_end self.end_bound e.1

/-- A bound on the turns that a scan is still to take. -/
def Range.turns_left (h : Heap (VersionedNode V)) (self : Range V) : Nat := entry_cursor.size (self.iter.on h)

theorem Iter.turn_spec (hv : Valid h roots) {self : Iter V} (hl : self.children.Live h) :
    ∃ r, self.turn.ReturnsWithin h r 2 ∧ entry_cursor.step (self.on h) = r.map (fun p => (p.1, p.2.on h)) ∧
      ∀ p, r = some p → p.2.children.Live h := by
  obtain ⟨first, children⟩ := self
  cases first with
  | some entry =>
    refine ⟨_, returnsWithin_done _ 2, rfl, fun p hp => ?_⟩
    cases hp
    exact hl
  | none =>
    obtain ⟨r, hreturns, hstep, hlive⟩ := IterInner.turn_spec hv hl
    refine ⟨_, hreturns.map _, ?_, fun p hp => ?_⟩
    · change ((IterInner.on h children).turn.map fun turn => (turn.1, (none, turn.2))) = _
      rw [hstep, Option.map_map, Option.map_map]
      rfl
    · obtain ⟨q, hq, rfl⟩ := Option.map_eq_some_iff.1 hp
      exact hlive q hq

/-- A turn of a scan hands out the next entry, or brings it closer; or nothing is left. -/
theorem Range.turn_spec (hv : Valid h roots) {self : Range V} (hl : self.Live h) :
    ∃ r, self.turn.ReturnsWithin h r 2 ∧
      ((r = none ∧ self.left h = []) ∨ ∃ entry self', r = some (entry, self') ∧
        self.left h = entry.toList ++ self'.left h ∧ self'.Live h ∧ self'.turns_left h < self.turns_left h) := by
  obtain ⟨r, hreturns, hstep, hlive⟩ := Iter.turn_spec hv hl
  obtain ⟨iter, end_bound⟩ := self
  cases r with
  | none =>
    refine ⟨none, hreturns.bind (m := 0) (returnsWithin_done _ 0), .inl ⟨rfl, ?_⟩⟩
    unfold left
    rw [Cursor.collect_of_none hstep]
    rfl
  | some p =>
    obtain ⟨entry, iter'⟩ := p
    have hcollect := Cursor.collect_of_some hstep
    have hcloser := entry_cursor.step_lt hstep
    have hlive := hlive _ rfl
    cases entry with
    | none =>
      refine ⟨_, hreturns.bind (m := 0) (returnsWithin_done _ 0),
        .inr ⟨none, ⟨iter', end_bound⟩, rfl, ?_, hlive, hcloser⟩⟩
      unfold left
      rw [hcollect]
      rfl
    | some entry =>
      by_cases hend : satisfies_end end_bound entry.1 = true
      · refine ⟨some (some entry, ⟨iter', end_bound⟩), hreturns.bind (m := 0) ?_,
          .inr ⟨some entry, ⟨iter', end_bound⟩, rfl, ?_, hlive, hcloser⟩⟩
        · dsimp only
          rw [if_pos hend]
          exact returnsWithin_done _ 0
        · unfold left
          rw [hcollect]
          exact List.takeWhile_cons_of_pos hend
      · refine ⟨none, hreturns.bind (m := 0) ?_, .inl ⟨rfl, ?_⟩⟩
        · dsimp only
          rw [if_neg hend]
          exact returnsWithin_done _ 0
        · unfold left
          rw [hcollect]
          exact List.takeWhile_cons_of_neg hend

end Turns

section Starts

variable [Features] {h : Heap (VersionedNode V)} {roots : List Nat} {a : Nat} {node : VersionedNode V}

omit [Features] in
/-- The seek in a table, and in what it leads to. -/
theorem first_from_resolve {β γ : Type} {g : β → Option γ} {l : List (UInt8 × β)}
    (hall : ∀ p ∈ l, ∃ c, g p.2 = some c) (target_byte : UInt8) :
    (first_from target_byte l = none ∧ first_from target_byte (resolve g l) = none) ∨
      ∃ k b c n, first_from target_byte l = some ((k, b), l.drop n) ∧ n ≤ l.length ∧ (k, b) ∈ l ∧ g b = some c ∧
        first_from target_byte (resolve g l) = some ((k, c), (resolve g l).drop n) := by
  induction l with
  | nil => exact .inl ⟨rfl, rfl⟩
  | cons p l ih =>
    obtain ⟨k, b⟩ := p
    obtain ⟨c, hc⟩ := hall (k, b) List.mem_cons_self
    have hcons : resolve g ((k, b) :: l) = (k, c) :: resolve g l := by
      rw [resolve, List.filterMap_cons_some (b := (k, c))]
      · rfl
      · rw [hc]
        rfl
    rw [hcons, first_from, first_from]
    by_cases hlt : k < target_byte
    · rw [if_pos hlt, if_pos hlt]
      obtain hnone | ⟨k', b', c', n, hfound, hn, hmem, hc', hfound'⟩ :=
        ih fun q hq => hall q (List.mem_cons_of_mem _ hq)
      · exact .inl hnone
      · exact .inr ⟨k', b', c', n + 1, hfound, Nat.succ_le_succ hn, List.mem_cons_of_mem _ hmem, hc', hfound'⟩
    · rw [if_neg hlt, if_neg hlt]
      exact .inr ⟨k, b, c, 1, rfl, by rw [List.length_cons]; omega, List.mem_cons_self, hc, rfl⟩

/-- The frame that a seek starts with. -/
theorem positioned_iter_on (hv : Valid h roots) (hnode : h.node? a = some node) (key : Bytes) (depth : Nat) :
    iter.positioned_iter (⟨h, a, node⟩ : NodeRef V) key depth =
        (positioned_iter a node key depth).map (Option.map (IterFrameIter.on h)) ∧
      ∀ it, positioned_iter a node key depth = .ok (some it) → it.Live h := by
  have hpfx : Node.pfx (⟨h, a, node⟩ : NodeRef V) = node.pfx := rfl
  have hdone : ∀ x : Option IterFrameIter, (∀ it, x = some it → it.Live h) →
      (Except.ok (x.map (IterFrameIter.on h)) : Result _) =
        (Except.ok x : Result _).map (Option.map (IterFrameIter.on h)) ∧
        ∀ it, (Except.ok x : Result _) = .ok (some it) → it.Live h := fun x hx =>
    ⟨rfl, fun it hit => hx it (Except.ok.inj hit)⟩
  have hwhole := hdone (some (.Plain ⟨a, 0⟩)) fun it hit => by
    cases hit
    exact ⟨node, hnode⟩
  rw [Option.map_some, IterFrameIter.on, NodeIter.on_new hnode] at hwhole
  unfold iter.positioned_iter positioned_iter
  simp only [hpfx]
  cases prefix_length_key node.pfx key depth with
  | error e => exact ⟨rfl, fun it hit => by cases hit⟩
  | ok n =>
    simp only [ok_bind]
    cases length_at key depth with
    | error e => split <;> exact ⟨rfl, fun it hit => by cases hit⟩
    | ok remaining =>
      simp only [ok_bind]
      split
      · split
        · exact hwhole
        · cases byte_at node.pfx n with
          | error e => exact ⟨rfl, fun it hit => by cases hit⟩
          | ok node_byte =>
            simp only [ok_bind]
            cases byte_at key (depth + n) with
            | error e => exact ⟨rfl, fun it hit => by cases hit⟩
            | ok seek_byte =>
              simp only [ok_bind]
              split
              · exact hdone none fun it hit => by cases hit
              · exact hwhole
      · split
        · exact hwhole
        · cases byte_at key (depth + node.pfx.length) with
          | error e => exact ⟨rfl, fun it hit => by cases hit⟩
          | ok target_byte =>
            simp only [ok_bind]
            have htable := (hv.sound a node hnode).linked.table (hv.counted.older a node hnode)
            have hiter : Node.iter (⟨h, a, node⟩ : NodeRef V) =
              resolve (NodeRef.follow ⟨h, a, node⟩) node.content.iter := rfl
            rw [hiter]
            obtain ⟨hnone, hnone'⟩ | ⟨k, b, c, n, hfound, hn, _, hc, hfound'⟩ :=
              first_from_resolve htable.present target_byte
            · rw [hnone, hnone']
              exact hdone none fun it hit => by cases hit
            · have hborrow := hc
              unfold NodeRef.follow borrow at hborrow
              split at hborrow
              · obtain ⟨child, hchild, rfl⟩ := Option.map_eq_some_iff.1 hborrow
                have hfrom : node.content.iter.length - (node.content.iter.drop n).length = n := by
                  rw [List.length_drop, Nat.sub_sub_self hn]
                have hleading := hdone (some (.Leading (some (k, b)) ⟨a, n⟩)) fun it hit => by
                  cases hit
                  refine ⟨fun p hp => ?_, node, hnode⟩
                  cases hp
                  exact ⟨child, hchild⟩
                have hon : (IterFrameIter.Leading (some (k, b)) ⟨a, n⟩).on h =
                    .Leading (some (k, ⟨h, b, child⟩))
                      ((resolve (NodeRef.follow ⟨h, a, node⟩) node.content.iter).drop n) := by
                  simp only [IterFrameIter.on, NodeIter.on, borrow, Option.bind_some, hchild, hnode, Option.map_some,
                    Option.elim_some, NodeRef.iter]
                rw [Option.map_some, hon] at hleading
                rw [hfound, hfound']
                simp only [Option.map_some, hfrom]
                exact hleading
              · cases hborrow

/-- The walk from a start bound. -/
theorem IterInner.new_with_start_bound_on (hv : Valid h roots) (hnode : h.node? a = some node) (start_bound : Bound) :
    ∃ children, IterInner.new_with_start_bound a node start_bound = .ok children ∧ children.Live h ∧
      iter.IterInner.new_with_start_bound (⟨h, a, node⟩ : NodeRef V) start_bound = .ok (children.on h) := by
  unfold IterInner.new_with_start_bound iter.IterInner.new_with_start_bound
  cases hseek : seek_key start_bound with
  | none =>
    refine ⟨.from_node_and_key a node.pfx, rfl, fun frame hframe => ?_, ?_⟩
    · cases List.mem_singleton.1 hframe
      exact ⟨node, hnode⟩
    · simp only [IterInner.on, IterInner.from_node_and_key, List.map_cons, List.map_nil, IterFrameIter.on,
        NodeIter.on_new hnode]
      rfl
  | some key =>
    obtain ⟨it, _, hit, _⟩ := iter.positioned_iter_spec (wf_borrow hv hnode) key
    obtain ⟨hon, hlive⟩ := positioned_iter_on hv hnode key 0
    rw [hit] at hon
    unfold iter.build_positioned_stack
    dsimp only
    rw [hit]
    cases hfirst : positioned_iter a node key 0 with
    | error e =>
      rw [hfirst] at hon
      cases hon
    | ok first =>
      rw [hfirst] at hon
      cases hon
      refine ⟨_, rfl, fun frame hframe => ?_, ?_⟩
      · cases first with
        | none => cases hframe
        | some it =>
          cases List.mem_singleton.1 hframe
          exact hlive it hfirst
      · cases first <;> rfl

omit [Features] in
theorem occupied_of_leaf (hv : Valid h roots) (hnode : h.node? a = some node) (hleaf : node.is_leaf = true) :
    ∃ v, node.value = some v := by
  have hs := hv.sound a node hnode
  exact hs.occupied (hs.linked.repr.eq_nil_of_is_empty hleaf)

/-- The iterators that a scan starts with read the root. -/
theorem Iter.new_on (hv : Valid h roots) (hnode : h.node? a = some node) :
    ∃ it : Iter V, (Iter.new (some a)).ReturnsWithin h it 1 ∧ it.children.Live h ∧
      iter.Iter.new (some (⟨h, a, node⟩ : NodeRef V)) = .ok ⟨it.first, it.children.on h⟩ := by
  have hpfx : Node.pfx (⟨h, a, node⟩ : NodeRef V) = node.pfx := rfl
  have hisleaf : Node.is_leaf (⟨h, a, node⟩ : NodeRef V) = node.is_leaf := rfl
  have hval : Node.value (⟨h, a, node⟩ : NodeRef V) = node.value := rfl
  unfold iter.Iter.new iter.Iter.new_with_prefix
  simp only [hpfx, hisleaf, hval]
  by_cases hleaf : node.is_leaf = true
  · obtain ⟨v, hvalue⟩ := occupied_of_leaf hv hnode hleaf
    refine ⟨once (node.pfx, v), returnsWithin_read hnode ?_, fun frame hframe => (by cases hframe), ?_⟩
    · rw [if_pos hleaf, hvalue, expect_some, lift_ok_bind]
      exact returnsWithin_done _ 0
    · rw [if_pos hleaf, hvalue]
      rfl
  · refine ⟨from_root_and_children node.pfx node.value (.from_node_and_key a node.pfx), returnsWithin_read hnode ?_,
      fun frame hframe => ?_, ?_⟩
    · rw [if_neg hleaf]
      exact returnsWithin_done _ 0
    · cases List.mem_singleton.1 hframe
      exact ⟨node, hnode⟩
    · rw [if_neg hleaf]
      simp only [from_root_and_children, IterInner.on, IterInner.from_node_and_key, List.map_cons, List.map_nil,
        IterFrameIter.on, NodeIter.on_new hnode]
      rfl

theorem Iter.new_with_start_bound_on (hv : Valid h roots) (hnode : h.node? a = some node) (start_bound : Bound) :
    ∃ it : Iter V, (Iter.new_with_start_bound (some a) start_bound).ReturnsWithin h it 1 ∧ it.children.Live h ∧
      iter.Iter.new_with_start_bound (some (⟨h, a, node⟩ : NodeRef V)) start_bound =
        .ok ⟨it.first, it.children.on h⟩ := by
  have hpfx : Node.pfx (⟨h, a, node⟩ : NodeRef V) = node.pfx := rfl
  have hisleaf : Node.is_leaf (⟨h, a, node⟩ : NodeRef V) = node.is_leaf := rfl
  have hval : Node.value (⟨h, a, node⟩ : NodeRef V) = node.value := rfl
  unfold iter.Iter.new_with_start_bound
  simp only [hpfx, hisleaf, hval]
  by_cases hleaf : node.is_leaf = true
  · obtain ⟨v, hvalue⟩ := occupied_of_leaf hv hnode hleaf
    cases hsat : satisfies_start start_bound node.pfx with
    | true =>
      refine ⟨once (node.pfx, v), returnsWithin_read hnode ?_, fun frame hframe => (by cases hframe), ?_⟩
      · simp only [hleaf, hsat, if_true, hvalue, expect_some, lift_ok_bind]
        exact returnsWithin_done _ 0
      · simp only [hleaf, if_true, hvalue]
        rfl
    | false =>
      refine ⟨empty, returnsWithin_read hnode ?_, fun frame hframe => (by cases hframe), ?_⟩
      · simp only [hleaf, hsat, if_true, Bool.false_eq_true, if_false]
        exact returnsWithin_done _ 0
      · simp only [hleaf, if_true, Bool.false_eq_true, if_false]
        rfl
  · obtain ⟨children, hchildren, hlive, hon⟩ := IterInner.new_with_start_bound_on hv hnode start_bound
    cases hsat : satisfies_start start_bound node.pfx with
    | true =>
      refine ⟨from_root_and_children node.pfx node.value children, returnsWithin_read hnode ?_, hlive, ?_⟩
      · simp only [hleaf, hsat, if_true, hchildren, lift_ok_bind, Bool.false_eq_true, if_false]
        exact returnsWithin_done _ 0
      · simp only [hleaf, if_true, hon, ok_bind]
        rfl
    | false =>
      refine ⟨⟨none, children⟩, returnsWithin_read hnode ?_, hlive, ?_⟩
      · simp only [hleaf, hsat, if_false, hchildren, lift_ok_bind, Bool.false_eq_true]
        exact returnsWithin_done _ 0
      · simp only [hleaf, if_false, hon, ok_bind, Bool.false_eq_true]
        rfl

/-- A scan starts with the entries within its bounds. -/
theorem range_returns {tree : VersionedAdaptiveRadixTree V} {others : List Nat} (hl : Live h tree others)
    (start_bound end_bound : Bound) :
    ∃ r : Range V, (range tree start_bound end_bound).ReturnsWithin h r 1 ∧ r.Live h ∧
      r.left h = within start_bound end_bound (rootEntries (tree.root.bind (borrow h))) := by
  unfold range
  cases hroot : tree.root with
  | none =>
    refine ⟨⟨Iter.empty, end_bound⟩, ?_, fun frame hframe => (by cases hframe), ?_⟩
    · cases start_bound <;> exact rfl
    · unfold Range.left entry_cursor
      rw [Cursor.collect_of_none rfl]
      rfl
  | some a =>
    obtain ⟨node, hnode⟩ := hl.root_live hroot
    have hv := hl.valid
    have hborrow : borrow h a = some ⟨h, a, node⟩ := by
      unfold borrow
      rw [hnode]
      rfl
    rw [Option.bind_some, hborrow]
    obtain ⟨it, hit, hcollect⟩ := iter.start_iter_spec (wf_borrow hv hnode) start_bound end_bound
    rw [iter.Range.collect_inner] at hcollect
    cases start_bound with
    | Unbounded =>
      obtain ⟨it', hreturns, hlive, hon⟩ := Iter.new_on hv hnode
      cases hit.symm.trans hon
      exact ⟨⟨it', end_bound⟩, hreturns.map fun it => Range.mk it end_bound, hlive, hcollect⟩
    | Included key =>
      obtain ⟨it', hreturns, hlive, hon⟩ := Iter.new_with_start_bound_on hv hnode (.Included key)
      cases hit.symm.trans hon
      exact ⟨⟨it', end_bound⟩, hreturns.map fun it => Range.mk it end_bound, hlive, hcollect⟩
    | Excluded key =>
      obtain ⟨it', hreturns, hlive, hon⟩ := Iter.new_with_start_bound_on hv hnode (.Excluded key)
      cases hit.symm.trans hon
      exact ⟨⟨it', end_bound⟩, hreturns.map fun it => Range.mk it end_bound, hlive, hcollect⟩

end Starts

end shared

end rart.versioned_tree
