import Rart.Slot
import Rart.Tree.Remove

open SortedAssoc LexOrder
open rart.node rart.partials rart.utils rart.Trie

namespace rart.tree

variable {V E : Type}

/-- What an update did, to keep the count by. -/
inductive UpdateRecurseResult where
  | Unchanged
  | Changed
  | Inserted
  | Removed
  | RemoveCurrent
deriving DecidableEq

section Steps

/-- What an update returns, besides the node and the callback cell. -/
abbrev Updated (V E : Type) := Except E UpdateRecurseResult × DefaultNode V × UpdateCell V E

/-- What a vacant slot is to be filled with, if anything. -/
def vacant_update (update : UpdateCell V E) : Result (Except E (Option V) × UpdateCell V E) := do
  let (answer, update) ← update.call_vacant
  match answer with
  | .error e => return (.error e, update)
  | .ok (.Insert value) => return (.ok (some value), update)
  | .ok .Keep => return (.ok none, update)
  | .ok .Remove => return (.ok none, update)

/-- The `match action` that closes both functions on an occupied slot. -/
def apply_action (node : DefaultNode V) (action : SlotUpdate V) :
    UpdateRecurseResult × DefaultNode V :=
  match action with
  | .Keep => (.Changed, node)
  | .Insert value => (.Changed, .mk node.pfx (some value) node.content)
  | .Remove =>
    (if node.num_children = 0 then .RemoveCurrent else .Removed, .mk node.pfx none node.content)

/-- The value that the callback wrote stays, whatever it answers. -/
def apply_occupied_update (node : DefaultNode V) (update : UpdateCell V E) :
    Result (Updated V E) := do
  let value ← expect node.value "occupied update requires an occupied slot"
  let (value, answer, update) ← update.call_occupied value
  let node := DefaultNode.mk node.pfx (some value) node.content
  match answer with
  | .error e => return (.error e, node, update)
  | .ok action =>
    let (result, node) := apply_action node action
    return (.ok result, node, update)

/-- The old value comes back when the callback fails. -/
def apply_occupied_update_rollback (node : DefaultNode V) (update : UpdateCell V E) :
    Result (Updated V E) := do
  let old_value ← expect node.value "occupied update requires an occupied slot"
  let (value, answer, update) ← update.call_occupied old_value
  let node := DefaultNode.mk node.pfx (some value) node.content
  match answer with
  | .error e => return (.error e, .mk node.pfx (some old_value) node.content, update)
  | .ok action =>
    let (result, node) := apply_action node action
    return (.ok result, node, update)

/-- `let Some(value) = vacant_update(update)? else { return Unchanged }`, then the
value is put in. -/
def fill_vacant (cur_node : DefaultNode V) (update : UpdateCell V E)
    (fill : V → Result (DefaultNode V)) : Result (Updated V E) := do
  let (slot, update) ← vacant_update update
  match slot with
  | .error e => return (.error e, cur_node, update)
  | .ok none => return (.ok .Unchanged, cur_node, update)
  | .ok (some value) => return (.ok .Inserted, ← fill value, update)

variable [Features]

/-- The two copies of the recursion, over what they do on an occupied slot. -/
def update_recurse (apply : DefaultNode V → UpdateCell V E → Result (Updated V E))
    (cur_node : DefaultNode V) (key : Bytes) (depth : Nat) (update : UpdateCell V E) :
    Result (Updated V E) := do
  let longest_common_prefix ← prefix_length_key cur_node.pfx key depth
  let remaining ← length_at key depth
  let is_prefix_match := min cur_node.pfx.length remaining = longest_common_prefix
  if is_prefix_match ∧ cur_node.pfx.length = remaining then
    if cur_node.value.isSome then apply cur_node update
    else
      fill_vacant cur_node update fun value =>
        return .mk cur_node.pfx (some value) cur_node.content
  else if is_prefix_match ∧ cur_node.pfx.length > remaining then
    fill_vacant cur_node update (insert_above cur_node longest_common_prefix)
  else if ¬ is_prefix_match then
    fill_vacant cur_node update fun value =>
      insert_split cur_node key value depth longest_common_prefix
  else if cur_node.is_leaf then
    fill_vacant cur_node update fun value =>
      insert_leaf cur_node key value depth longest_common_prefix
  else
    let k ← byte_at key (depth + longest_common_prefix)
    match _hchild : cur_node.seek_child_mut k with
    | none =>
      fill_vacant cur_node update fun value =>
        insert_leaf cur_node key value depth longest_common_prefix
    | some child =>
      let (result, child, update) ←
        update_recurse apply child key (depth + longest_common_prefix) update
      let cur_node := cur_node.write_child k child
      match result with
      | .ok .RemoveCurrent =>
        let (_deleted, cur_node) ← cur_node.delete_child k
        if cur_node.num_children = 0 ∧ cur_node.value.isNone then
          return (.ok .RemoveCurrent, cur_node, update)
        return (.ok .Removed, cur_node, update)
      | result => return (result, cur_node, update)
termination_by cur_node.node_count
decreasing_by exact DefaultNode.node_count_lt_of_seek_mut _hchild

/-- The recursion that `update_k` takes. -/
def try_update_recurse_with (cur_node : DefaultNode V) (key : Bytes) (depth : Nat)
    (update : UpdateCell V E) : Result (Updated V E) :=
  update_recurse apply_occupied_update cur_node key depth update

/-- The recursion that `try_update_k` takes. -/
def try_update_recurse_with_rollback (cur_node : DefaultNode V) (key : Bytes) (depth : Nat)
    (update : UpdateCell V E) : Result (Updated V E) :=
  update_recurse apply_occupied_update_rollback cur_node key depth update

end Steps

section Specs

/-- What an update reports when a slot went from `found` to `left`. -/
def updateResult (found left : Option V) (pruned : Bool) (answer : Except E Bool) :
    Except E UpdateRecurseResult :=
  match answer with
  | .error e => .error e
  | .ok _ =>
    match found, left with
    | none, none => .ok .Unchanged
    | none, some _ => .ok .Inserted
    | some _, some _ => .ok .Changed
    | some _, none => .ok (if pruned then .RemoveCurrent else .Removed)

/-- The callback is called once, on a vacant slot. -/
theorem vacant_update_eq (f : Callback V E) (calls : List (Slot V)) :
    vacant_update ⟨some f, calls⟩ =
      .ok ((f.apply true none).1.map fun _ => (f.apply true none).2, ⟨none, calls ++ [.Vacant]⟩) := by
  unfold vacant_update UpdateCell.call_vacant Callback.apply
  simp only [expect_some, ok_bind, pure_eq_ok]
  cases f.vacant with
  | error e => rfl
  | ok action => cases action <;> rfl

/-- On a vacant slot there is nothing to roll back. -/
theorem apply_none (f : Callback V E) (rollback : Bool) : f.apply rollback none = f.apply true none :=
  rfl

/-- What both functions on an occupied slot do. -/
def AppliesOccupied (apply : DefaultNode V → UpdateCell V E → Result (Updated V E))
    (rollback : Bool) : Prop :=
  ∀ (pfx : Bytes) (current : V) (content : Content (DefaultNode V)) (f : Callback V E)
    (calls : List (Slot V)),
    apply (.mk pfx (some current) content) ⟨some f, calls⟩ =
      .ok (updateResult (some current) (f.apply rollback (some current)).2
          (decide (content.num_children = 0)) (f.apply rollback (some current)).1,
        .mk pfx (f.apply rollback (some current)).2 content, ⟨none, calls ++ [.Occupied current]⟩)

/-- The callback is called once, on the value. -/
theorem apply_occupied_update_eq :
    AppliesOccupied (apply_occupied_update : DefaultNode V → UpdateCell V E → _) false := by
  intro pfx current content f calls
  unfold apply_occupied_update UpdateCell.call_occupied Callback.apply
  obtain ⟨vacant, occupied⟩ := f
  simp only [DefaultNode.value_mk, expect_some, ok_bind, pure_eq_ok]
  generalize occupied current = left
  obtain ⟨value, answer⟩ := left
  cases answer with
  | error e => rfl
  | ok action =>
    cases action with
    | Keep => rfl
    | Insert value => rfl
    | Remove =>
      by_cases hnum : content.num_children = 0
      · simp [apply_action, updateResult, DefaultNode.num_children, hnum]
      · simp [apply_action, updateResult, DefaultNode.num_children, hnum]

/-- As for `apply_occupied_update`, with the old value behind a failure. -/
theorem apply_occupied_update_rollback_eq :
    AppliesOccupied (apply_occupied_update_rollback : DefaultNode V → UpdateCell V E → _) true := by
  intro pfx current content f calls
  unfold apply_occupied_update_rollback UpdateCell.call_occupied Callback.apply
  obtain ⟨vacant, occupied⟩ := f
  simp only [DefaultNode.value_mk, expect_some, ok_bind, pure_eq_ok]
  generalize occupied current = left
  obtain ⟨value, answer⟩ := left
  cases answer with
  | error e => rfl
  | ok action =>
    cases action with
    | Keep => rfl
    | Insert value => rfl
    | Remove =>
      by_cases hnum : content.num_children = 0
      · simp [apply_action, updateResult, DefaultNode.num_children, hnum]
      · simp [apply_action, updateResult, DefaultNode.num_children, hnum]

/-- A node that keeps children is not removed. -/
theorem updateResult_ne_removeCurrent (found left : Option V) (answer : Except E Bool) :
    updateResult found left false answer ≠ .ok .RemoveCurrent := by
  cases answer with
  | error e => simp [updateResult]
  | ok changed =>
    cases found <;> cases left <;> simp [updateResult]

variable [Features]

/-- The outcome of an update: `pruned` nodes are left for the parent to delete. -/
structure SlotUpdatedAt (before after : DefaultNode V) (key : Bytes) (left : Option V)
    (pruned : Bool) : Prop where
  wf : if pruned then Bare after else Wf after
  updated : UpdatedAt before after key left
  head : SameEdge before after key

/-- A run that calls the callback once, on the slot under a key, and changes no
other slot. -/
def UpdatesSlot (f : Callback V E) (rollback : Bool) (calls : List (Slot V))
    (cur_node : DefaultNode V) (key : Bytes) (found : Option V) (run : Result (Updated V E)) : Prop :=
  ∃ after pruned, run =
      .ok (updateResult found (f.apply rollback found).2 pruned (f.apply rollback found).1, after,
        ⟨none, calls ++ [Callback.slot found]⟩) ∧
    SlotUpdatedAt cur_node after key (f.apply rollback found).2 pruned ∧
    (pruned → found.isSome ∧ f.apply rollback found = (.ok true, none))

/-- The same run, with the form that the change of the node takes. -/
def EditsSlot (f : Callback V E) (rollback : Bool) (calls : List (Slot V))
    (cur_node : DefaultNode V) (key : Bytes) (found : Option V) (run : Result (Updated V E)) : Prop :=
  ∃ after pruned, run =
      .ok (updateResult found (f.apply rollback found).2 pruned (f.apply rollback found).1, after,
        ⟨none, calls ++ [Callback.slot found]⟩) ∧
    Edited cur_node key (f.apply rollback found).2 after ∧ (pruned = true ↔ Bare after)

/-- Filling a vacant slot. -/
theorem fill_vacant_edits {cur_node : DefaultNode V} {key : Bytes} (hwf : Wf cur_node)
    (hnone : find cur_node key = none) (f : Callback V E) (rollback : Bool) (calls : List (Slot V))
    {fill : V → Result (DefaultNode V)}
    (hfill : ∀ value, ∃ after, fill value = .ok after ∧ Put value cur_node key after) :
    EditsSlot f rollback calls cur_node key none (fill_vacant cur_node ⟨some f, calls⟩ fill) := by
  have hsame : Edited cur_node key none cur_node := .same hnone
  have hkept : false = true ↔ Bare cur_node := by simp [not_bare_of_wf hwf]
  unfold EditsSlot fill_vacant
  rw [vacant_update_eq, ok_bind, apply_none]
  unfold Callback.apply
  cases f.vacant with
  | error e => exact ⟨cur_node, false, rfl, hsame, hkept⟩
  | ok action =>
    cases action with
    | Keep => exact ⟨cur_node, false, rfl, hsame, hkept⟩
    | Remove => exact ⟨cur_node, false, rfl, hsame, hkept⟩
    | Insert value =>
      obtain ⟨after, hafter, hput⟩ := hfill value
      refine ⟨after, false, ?_, .put hput, by simp [not_bare_of_wf (hput.insertedAt hwf).wf]⟩
      simp only [Except.map]
      rw [hafter]
      rfl

/-- Updating the value that a node holds. -/
theorem apply_occupied_edits {apply : DefaultNode V → UpdateCell V E → Result (Updated V E)}
    {rollback : Bool} (happly : AppliesOccupied apply rollback) {pfx : Bytes} {current : V}
    {content : Content (DefaultNode V)} (hwf : Wf (DefaultNode.mk pfx (some current) content))
    (f : Callback V E) (calls : List (Slot V)) :
    EditsSlot f rollback calls (.mk pfx (some current) content) pfx (some current)
      (apply (.mk pfx (some current) content) ⟨some f, calls⟩) := by
  have hfind : find (DefaultNode.mk pfx (some current) content) pfx = some current :=
    DefaultNode.find_value _
  have hput : ∀ left, Edited (.mk pfx (some current) content) pfx (some left)
      (.mk pfx (some left) content) := fun left => .put (.here (.mk pfx (some current) content))
  have hkept : ∀ left, false = true ↔ Bare (DefaultNode.mk pfx (some left) content) := fun left => by
    simp [Bare]
  unfold EditsSlot
  rw [happly]
  obtain ⟨e, left, heq⟩ | ⟨left, heq⟩ | heq := f.apply_some_cases rollback current
  · rw [heq]
    exact ⟨.mk pfx (some left) content, false, rfl, hput left, hkept left⟩
  · rw [heq]
    exact ⟨.mk pfx (some left) content, false, rfl, hput left, hkept left⟩
  · have hrepr : content.Repr content.iter := hwf.layout
    rw [heq, hrepr.num_children_eq]
    refine ⟨.mk pfx none content, decide (content.iter.length = 0), rfl,
      .take (by rw [hfind]; rfl) (.here (.mk pfx (some current) content)), ?_⟩
    rw [decide_eq_true_iff]
    constructor
    · intro hzero
      rw [List.eq_nil_of_length_eq_zero hzero] at hrepr
      exact ⟨rfl, hrepr⟩
    · rintro ⟨_, hempty⟩
      exact congrArg List.length (Content.Repr.iter_eq hempty)

/-- Going back up from an updated child. -/
theorem update_child_edits {cur_node child : DefaultNode V} (hwf : Wf cur_node) {k : UInt8} {s : Bytes}
    (hchild : cur_node.iter.lookup k = some child) {f : Callback V E} {rollback : Bool}
    {calls : List (Slot V)} {found : Option V} (hfound : find child (k :: s) = found)
    {run : Result (Updated V E)} (hrun : EditsSlot f rollback calls child (k :: s) found run) :
    EditsSlot f rollback calls cur_node (cur_node.pfx ++ k :: s) found (run >>= fun r => do
      let cur_node := cur_node.write_child k r.2.1
      match r.1 with
      | .ok .RemoveCurrent =>
        let (_deleted, cur_node) ← cur_node.delete_child k
        if cur_node.num_children = 0 ∧ cur_node.value.isNone then
          return (.ok .RemoveCurrent, cur_node, r.2.2)
        return (.ok .Removed, cur_node, r.2.2)
      | result => return (result, cur_node, r.2.2)) := by
  obtain ⟨child', pruned, rfl, hedited, hpruned⟩ := hrun
  have hmem : (k, child) ∈ cur_node.iter := hwf.ascending.lookup_eq_some_iff.1 hchild
  have hwfchild := hwf.child hmem
  have hbelow : find cur_node (cur_node.pfx ++ k :: s) = found := by
    rw [DefaultNode.find_below hchild, hfound]
  have hnot : ∀ child', false = true ↔ Bare (cur_node.write_child k child') := fun child' => by
    simp [bare_write_child hwf hchild]
  rw [ok_bind]
  dsimp only
  have hne := updateResult_ne_removeCurrent found (f.apply rollback found).2 (f.apply rollback found).1
  -- a child that is not pruned is written back
  have hwrite : pruned = false → Edited cur_node (cur_node.pfx ++ k :: s) (f.apply rollback found).2
      (cur_node.write_child k child') → EditsSlot f rollback calls cur_node (cur_node.pfx ++ k :: s) found
        (match updateResult found (f.apply rollback found).2 pruned (f.apply rollback found).1 with
          | .ok .RemoveCurrent => do
            let (_deleted, cur_node) ← (cur_node.write_child k child').delete_child k
            if cur_node.num_children = 0 ∧ cur_node.value.isNone then
              return (.ok .RemoveCurrent, cur_node, ⟨none, calls ++ [Callback.slot found]⟩)
            return (.ok .Removed, cur_node, ⟨none, calls ++ [Callback.slot found]⟩)
          | result =>
            return (result, cur_node.write_child k child', ⟨none, calls ++ [Callback.slot found]⟩)) := by
    intro hkept hparent
    subst hkept
    refine ⟨cur_node.write_child k child', false, ?_, hparent, hnot child'⟩
    split
    · rename_i heq
      exact absurd heq hne
    · rfl
  generalize hleft : (f.apply rollback found).2 = left at hedited hwrite
  cases hedited with
  | @put value after hput =>
    have hkept : pruned = false := by
      cases pruned with
      | false => rfl
      | true => exact absurd (hpruned.1 rfl) (not_bare_of_wf (hput.insertedAt hwfchild).wf)
    exact hwrite hkept (.put (.deeper hchild hput))
  | same hnone =>
    have hkept : pruned = false := by
      cases pruned with
      | false => rfl
      | true => exact absurd (hpruned.1 rfl) (not_bare_of_wf hwfchild)
    refine hwrite hkept ?_
    rw [write_child_self hwf hchild]
    exact .same (hbelow.trans (hfound.symm.trans hnone))
  | @take after hsome htake =>
    have hsome' : (find cur_node (cur_node.pfx ++ k :: s)).isSome := by
      rw [hbelow, ← hfound]
      exact hsome
    cases pruned with
    | false =>
      have hkept : ¬ Bare child' := fun hbare => by cases hpruned.2 hbare
      exact hwrite rfl (.take hsome' (.deeper hchild htake hkept))
    | true =>
      have hbare := hpruned.1 rfl
      obtain ⟨current, hcurrent⟩ := Option.isSome_iff_exists.1 hsome
      obtain rfl : found = some current := hfound.symm.trans hcurrent
      have heq : f.apply rollback (some current) = (.ok true, none) := by
        obtain ⟨e, v, heq⟩ | ⟨v, heq⟩ | heq := f.apply_some_cases rollback current
        · rw [heq] at hleft
          cases hleft
        · rw [heq] at hleft
          cases hleft
        · exact heq
      obtain ⟨after, hdelete⟩ := delete_written_eq_ok hwf hchild child'
      obtain ⟨_, hedge⟩ := written_edge_deleted hwf hchild hdelete
      have hparent : Edited cur_node (cur_node.pfx ++ k :: s) none after :=
        .take hsome' (.pruned hchild htake hbare hdelete)
      unfold EditsSlot
      rw [heq]
      simp only [updateResult, if_true]
      rw [hdelete, ok_bind]
      dsimp only
      have hcounts := bare_iff (hedge.wf.imp_right And.left)
      by_cases hempty : Bare after
      · refine ⟨after, true, ?_, hparent, iff_of_true rfl hempty⟩
        rw [if_pos (hcounts.2 hempty)]
        rfl
      · refine ⟨after, false, ?_, hparent, by simp [hempty]⟩
        rw [if_neg (mt hcounts.1 hempty)]
        rfl

/-- The callback is called once, on the slot under what is left of the key, and
that slot is edited. -/
theorem update_recurse_edits {apply : DefaultNode V → UpdateCell V E → Result (Updated V E)}
    {rollback : Bool} (happly : AppliesOccupied apply rollback) {cur_node : DefaultNode V}
    (hwf : Wf cur_node) {key : Bytes} {depth : Nat} (hdepth : depth ≤ key.length) (f : Callback V E)
    (calls : List (Slot V)) :
    EditsSlot f rollback calls cur_node (key.drop depth) (find cur_node (key.drop depth))
      (update_recurse apply cur_node key depth ⟨some f, calls⟩) := by
  induction hn : cur_node.node_count using Nat.strongRecOn generalizing cur_node depth with
  | ind n ih =>
    subst hn
    -- every way to fill a vacant slot
    have hvacant : ∀ {fill : V → Result (DefaultNode V)}, find cur_node (key.drop depth) = none →
        (∀ value, ∃ after, fill value = .ok after ∧
          Put value cur_node (key.drop depth) after) →
        EditsSlot f rollback calls cur_node (key.drop depth) (find cur_node (key.drop depth))
          (fill_vacant cur_node ⟨some f, calls⟩ fill) := by
      intro fill hnone hfill
      rw [hnone]
      exact fill_vacant_edits hwf hnone f rollback calls hfill
    rw [update_recurse, prefix_length_key_eq_ok hdepth, ok_bind, length_at, usize_sub_eq_ok hdepth, ok_bind]
    dsimp only
    cases arrival cur_node.pfx key depth with
    | ends hkey hends =>
      have hfind : find cur_node (key.drop depth) = cur_node.value := by
        rw [hkey]
        exact find_pfx cur_node
      rw [if_pos hends]
      obtain ⟨pfx, held, content⟩ := cur_node
      have hfind : find (DefaultNode.mk pfx held content) (key.drop depth) = held := hfind
      cases held with
      | none =>
        refine hvacant hfind fun value => ⟨_, rfl, ?_⟩
        rw [hkey]
        exact .here _
      | some current =>
        rw [if_pos (by rfl), hfind, hkey]
        exact apply_occupied_edits happly hwf f calls
    | goes_on k s hkey hlcp hmore hbelow hmatch hk hrest hdepth' =>
      have hfind : find cur_node (key.drop depth) = lookupBelow cur_node.value cur_node.iter (k :: s) := by
        rw [hkey]
        exact find_append cur_node (k :: s)
      rw [if_neg hmore, if_neg hbelow, if_neg hmatch, hlcp]
      -- without a child under the next byte, a leaf is added
      have hadd : cur_node.iter.lookup k = none → ∀ value, ∃ after,
          insert_leaf cur_node key value depth cur_node.pfx.length = .ok after ∧
            Put value cur_node (key.drop depth) after :=
        fun habsent value => insert_leaf_puts hwf hkey habsent value
      by_cases hleaf : cur_node.is_leaf = true
      · have hiter : cur_node.iter = [] := Node.iter_leaf hwf.layout hleaf
        have habsent : cur_node.iter.lookup k = none := by rw [hiter]; rfl
        rw [if_pos hleaf]
        exact hvacant (by rw [hfind, lookupBelow, habsent]; rfl) (hadd habsent)
      · rw [if_neg hleaf, hk, ok_bind]
        have hseek : cur_node.seek_child_mut k = cur_node.iter.lookup k :=
          Content.Repr.seek_child hwf.layout k
        split
        · rename_i hnone
          have habsent := hseek.symm.trans hnone
          exact hvacant (by rw [hfind, lookupBelow, habsent]; rfl) (hadd habsent)
        · rename_i child hsome
          have hlookup := hseek.symm.trans hsome
          have hmem : (k, child) ∈ cur_node.iter := hwf.ascending.lookup_eq_some_iff.1 hlookup
          rw [lookupBelow, hlookup, Option.bind_some] at hfind
          have hrec := ih child.node_count (DefaultNode.node_count_lt_of_iter hmem)
            (hwf.child hmem) hdepth' rfl
          rw [hrest] at hrec
          rw [hfind, hkey]
          exact update_child_edits hwf hlookup rfl hrec
    | above k p hpfx hnot hlcp hmore habove =>
      rw [if_neg hmore, if_pos habove, hlcp]
      exact hvacant (find_eq_none_of_not_pfx hnot) fun value => insert_above_puts hpfx value
    | splits c p s k₁ k₂ hne hpfx hkey hnot hlcp hmore hbelow hsplit =>
      rw [if_neg hmore, if_neg hbelow, if_pos hsplit, hlcp]
      exact hvacant (find_eq_none_of_not_pfx hnot) fun value => insert_split_puts hne hpfx hkey value

/-- An edit made by an update, as a change of one slot. -/
theorem EditsSlot.updatesSlot {f : Callback V E} {rollback : Bool} {calls : List (Slot V)}
    {cur_node : DefaultNode V} {key : Bytes} {run : Result (Updated V E)} (hwf : Wf cur_node)
    (h : EditsSlot f rollback calls cur_node key (find cur_node key) run) :
    UpdatesSlot f rollback calls cur_node key (find cur_node key) run := by
  obtain ⟨after, pruned, hrun, hedited, hpruned⟩ := h
  refine ⟨after, pruned, hrun, ⟨?_, hedited.updated hwf, hedited.sameEdge hwf⟩, ?_⟩
  · cases pruned with
    | true => exact hpruned.1 rfl
    | false =>
      have hkept : ¬ Bare after := fun hbare => by cases hpruned.2 hbare
      exact (hedited.wf hwf).resolve_right hkept
  · intro hprune
    obtain ⟨hfound, hleft⟩ := hedited.bare hwf (hpruned.1 hprune)
    refine ⟨hfound, ?_⟩
    obtain ⟨current, hcurrent⟩ := Option.isSome_iff_exists.1 hfound
    rw [hcurrent] at hleft ⊢
    obtain ⟨e, v, heq⟩ | ⟨v, heq⟩ | heq := f.apply_some_cases rollback current
    · rw [heq] at hleft
      cases hleft
    · rw [heq] at hleft
      cases hleft
    · exact heq

/-- The callback is called once, on the slot under what is left of the key, and
only that slot changes. -/
theorem update_recurse_spec {apply : DefaultNode V → UpdateCell V E → Result (Updated V E)}
    {rollback : Bool} (happly : AppliesOccupied apply rollback) {cur_node : DefaultNode V}
    (hwf : Wf cur_node) {key : Bytes} {depth : Nat} (hdepth : depth ≤ key.length) (f : Callback V E)
    (calls : List (Slot V)) :
    UpdatesSlot f rollback calls cur_node (key.drop depth) (find cur_node (key.drop depth))
      (update_recurse apply cur_node key depth ⟨some f, calls⟩) :=
  (update_recurse_edits happly hwf hdepth f calls).updatesSlot hwf

end Specs

end rart.tree
