import Rart.Debug.Remove
import Rart.Tree.Update

open Checked SortedAssoc LexOrder
open rart.node rart.partials rart.tree rart.utils rart.Trie

namespace rart.debug

variable {V E : Type} [Features]

section Steps

/-- The recursion, over what it does on an occupied slot. -/
def update_recurse (N : Nat) (apply : DefaultNode V → UpdateCell V E → Result (Updated V E))
    (cur_node : DefaultNode V) (key : Bytes) (depth : Nat) (update : UpdateCell V E) :
    Result (Updated V E) := do
  let longest_common_prefix ← ArrPartial.prefix_length_key N cur_node.pfx key depth
  let remaining ← length_at key depth
  let is_prefix_match := min cur_node.pfx.length remaining = longest_common_prefix
  if is_prefix_match ∧ cur_node.pfx.length = remaining then
    if cur_node.value.isSome then apply cur_node update
    else
      fill_vacant cur_node update fun value =>
        return .mk cur_node.pfx (some value) cur_node.content
  else if is_prefix_match ∧ cur_node.pfx.length > remaining then
    fill_vacant cur_node update (insert_above N cur_node longest_common_prefix)
  else if ¬ is_prefix_match then
    fill_vacant cur_node update fun value =>
      insert_split N cur_node key value depth longest_common_prefix
  else if cur_node.is_leaf then
    fill_vacant cur_node update fun value =>
      insert_leaf N cur_node key value depth longest_common_prefix
  else
    let k ← ArrayKey.byte_at N key (depth + longest_common_prefix)
    match _hchild : DefaultNode.seek_child_mut cur_node k with
    | .error e => throw e
    | .ok none =>
      fill_vacant cur_node update fun value =>
        insert_leaf N cur_node key value depth longest_common_prefix
    | .ok (some child) =>
      let (result, child, update) ←
        update_recurse N apply child key (depth + longest_common_prefix) update
      let cur_node := cur_node.write_child k child
      match result with
      | .ok .RemoveCurrent =>
        let (_deleted, cur_node) ← DefaultNode.delete_child N cur_node k
        if cur_node.num_children = 0 ∧ cur_node.value.isNone then
          return (.ok .RemoveCurrent, cur_node, update)
        return (.ok .Removed, cur_node, update)
      | result => return (result, cur_node, update)
termination_by cur_node.node_count
decreasing_by exact DefaultNode.node_count_lt_of_seek_mut _hchild

def try_update_recurse_with (N : Nat) (cur_node : DefaultNode V) (key : Bytes) (depth : Nat)
    (update : UpdateCell V E) : Result (Updated V E) :=
  update_recurse N apply_occupied_update cur_node key depth update

end Steps

section Specs

variable {N : Nat} {cur_node child : DefaultNode V} {key : Bytes} {k : UInt8} {s : Bytes}
  {f : Callback V E} {rollback : Bool} {calls : List (Slot V)}

omit [Features] in
theorem fill_vacant_follows {fill fill' : V → Result (DefaultNode V)} (h : ∀ value, Follows (fill value) (fill' value))
    (update : UpdateCell V E) : Follows (fill_vacant cur_node update fill) (fill_vacant cur_node update fill') := by
  refine (Follows.refl _).bind fun answer _ => ?_
  obtain ⟨slot, update⟩ := answer
  cases slot with
  | error e => exact Follows.refl _
  | ok slot =>
    cases slot with
    | none => exact Follows.refl _
    | some value => exact (h value).bind fun _ _ => Follows.refl _

/-- Going back up from an updated child. -/
theorem update_child_guards (hwf : Wf cur_node) (hfits : LayoutFits cur_node)
    (hchild : cur_node.iter.lookup k = some child) {found : Option V} (hfound : find child (k :: s) = found)
    {run checked : Result (Updated V E)} (hrun : EditsSlot f rollback calls child (k :: s) found run)
    (h : Guards ((f.apply rollback found).2 = none ∧ Fills N child (k :: s)) run checked) :
    Guards ((f.apply rollback found).2 = none ∧ Fills N cur_node (cur_node.pfx ++ k :: s))
      (run >>= fun r => do
        let cur_node := cur_node.write_child k r.2.1
        match r.1 with
        | .ok .RemoveCurrent =>
          let (_deleted, cur_node) ← cur_node.delete_child k
          if cur_node.num_children = 0 ∧ cur_node.value.isNone then
            return (.ok .RemoveCurrent, cur_node, r.2.2)
          return (.ok .Removed, cur_node, r.2.2)
        | result => return (result, cur_node, r.2.2))
      (checked >>= fun r => do
        let cur_node := cur_node.write_child k r.2.1
        match r.1 with
        | .ok .RemoveCurrent =>
          let (_deleted, cur_node) ← DefaultNode.delete_child N cur_node k
          if cur_node.num_children = 0 ∧ cur_node.value.isNone then
            return (.ok .RemoveCurrent, cur_node, r.2.2)
          return (.ok .Removed, cur_node, r.2.2)
        | result => return (result, cur_node, r.2.2)) := by
  have hwfchild := hwf.child (hwf.ascending.lookup_eq_some_iff.1 hchild)
  obtain ⟨child', pruned, rfl, hedited, hpruned⟩ := hrun
  have honly : (f.apply rollback found).2 = none → (HoldsOnly child (k :: s) ↔ Bare child') := by
    intro hleft
    rw [hleft] at hedited
    exact holdsOnly_iff_bare_edited hwfchild hedited
  refine Guards.congr (h.bind fun r hr => ?_)
    ((and_congr_right fun _ => fills_iff hchild).trans and_or_left)
  cases hr
  dsimp only
  by_cases hbare : Bare child'
  · -- the child is deleted
    obtain ⟨hsome, hleft⟩ := hedited.bare hwfchild hbare
    obtain rfl : pruned = true := hpruned.2 hbare
    obtain ⟨current, hcurrent⟩ := Option.isSome_iff_exists.1 hsome
    obtain rfl : found = some current := hfound.symm.trans hcurrent
    have heq : f.apply rollback (some current) = (.ok true, none) := by
      obtain ⟨e, v, heq⟩ | ⟨v, heq⟩ | heq := f.apply_some_cases rollback current
      · rw [heq] at hleft
        cases hleft
      · rw [heq] at hleft
        cases hleft
      · exact heq
    have hwritten := delete_written_guards (N := N) hwf hfits hchild child'
    refine Guards.congr ?_ ((and_iff_right hleft).trans (and_iff_right ((honly hleft).2 hbare)))
    rw [heq]
    exact hwritten.bind_follows fun _ _ => Follows.refl _
  · obtain rfl : pruned = false := Bool.eq_false_iff.2 fun hprune => hbare (hpruned.1 hprune)
    have hne := updateResult_ne_removeCurrent found (f.apply rollback found).2 (f.apply rollback found).1
    refine .of_follows ?_ fun hfills => hbare ((honly hfills.1).1 hfills.2.1)
    split
    · rename_i heq
      exact absurd heq hne
    · exact Follows.refl _

/-- A slot that is vacant is not emptied. -/
theorem vacant_guards {run checked : Result (Updated V E)} {left : Option V} (hnone : find cur_node key = none)
    (h : Follows run checked) : Guards (left = none ∧ Fills N cur_node key) run checked :=
  .of_follows h fun hfills => not_fills_of_absent hnone hfills.2

/-- An update goes as in a release build, unless it empties a slot and thereby fills a
prefix. -/
theorem update_recurse_guards {apply : DefaultNode V → UpdateCell V E → Result (Updated V E)}
    (happly : AppliesOccupied apply rollback) (hwf : Wf cur_node) (hfits : Every LayoutFits cur_node)
    (hfit : KeysFit N cur_node) (hkey : key.length ≤ N) {depth : Nat} (hdepth : depth ≤ key.length)
    (f : Callback V E) (calls : List (Slot V)) :
    Guards ((f.apply rollback (find cur_node (key.drop depth))).2 = none ∧ Fills N cur_node (key.drop depth))
      (tree.update_recurse apply cur_node key depth ⟨some f, calls⟩)
      (update_recurse N apply cur_node key depth ⟨some f, calls⟩) := by
  induction hn : cur_node.node_count using Nat.strongRecOn generalizing cur_node depth with
  | ind n ih =>
    subst hn
    have hpfx := hfit.pfx hwf
    have hlcp : prefix_length_key cur_node.pfx key depth = .ok (lcp cur_node.pfx (key.drop depth)) :=
      prefix_length_key_eq_ok hdepth
    have hrest : (key.drop depth).length = key.length - depth := List.length_drop
    have hdiverges : ¬ cur_node.pfx <+: key.drop depth → find cur_node (key.drop depth) = none :=
      fun hnot => find_eq_none_of_not_pfx (n := cur_node) hnot
    rw [update_recurse, tree.update_recurse, ArrPartial.prefix_length_key_follows hpfx key depth _ hlcp, hlcp,
      length_at,
      usize_sub_eq_ok hdepth, ok_bind, ok_bind, ok_bind, ok_bind, ← hrest]
    dsimp only
    split
    · -- the key ends at this node
      rename_i hends
      have hstarts : cur_node.pfx <+: key.drop depth := lcp_eq_length_iff.1 (by omega)
      have hself : cur_node.pfx = key.drop depth := hstarts.eq_of_length hends.2
      refine .of_follows (Follows.refl _) fun hfills => ?_
      rw [← hself] at hfills
      exact not_fills_self hfills.2
    · split
      · -- the key ends inside the prefix
        rename_i hshort
        exact vacant_guards (hdiverges fun hstarts => not_lt.2 hstarts.length_le hshort.2)
          (fill_vacant_follows (insert_above_follows hpfx _) _)
      · split
        · rename_i hne
          refine vacant_guards (hdiverges fun hstarts => hne ?_)
            (fill_vacant_follows (fun value => insert_split_follows hpfx hkey value depth _) _)
          rw [lcp_eq_length_iff.2 hstarts]
          exact Nat.min_eq_left hstarts.length_le
        · rename_i hnotends hnotshort hmatch
          obtain ⟨s, hs⟩ : cur_node.pfx <+: key.drop depth := lcp_eq_length_iff.1 (by omega)
          have hlen := congrArg List.length hs
          rw [List.length_append] at hlen
          obtain ⟨k, s, rfl⟩ := List.exists_cons_of_ne_nil (show s ≠ [] by
            rintro rfl
            rw [List.length_nil] at hlen
            omega)
          have hlcplen := lcp_eq_length_iff.2 (Exists.intro (k :: s) hs)
          have hbelow : find cur_node (key.drop depth) = lookupBelow cur_node.value cur_node.iter (k :: s) := by
            rw [← hs]
            exact find_append cur_node (k :: s)
          split
          · rename_i hleaf
            have hiter : cur_node.iter = [] := Node.iter_leaf hwf.layout hleaf
            have hroom : cur_node.iter.length < 256 := by
              rw [hiter]
              exact Nat.succ_pos 255
            refine vacant_guards ?_
              (fill_vacant_follows (fun value => insert_leaf_follows hwf hroom hkey value depth _) _)
            rw [hbelow, hiter]
            rfl
          · have hdrop : key.drop (depth + cur_node.pfx.length) = k :: s := by
              rw [← List.drop_drop, ← hs, List.drop_left]
            have hbyte : byte_at key (depth + cur_node.pfx.length) = .ok k :=
              index_eq_ok (by rw [← List.head?_drop, hdrop]; rfl)
            have hseek : cur_node.seek_child_mut k = cur_node.iter.lookup k :=
              Content.Repr.seek_child hwf.layout k
            have hdebug := DefaultNode.seek_child_mut_eq hwf.layout k
            rw [hlcplen, hbyte, ArrayKey.byte_at_follows N key _ k hbyte, ok_bind, ok_bind]
            split
            · rename_i hnone
              rw [hnone] at hdebug hseek
              have habsent := hseek.symm
              have hvacant : find cur_node (key.drop depth) = none := by
                rw [hbelow, lookupBelow, habsent]
                rfl
              refine vacant_guards hvacant ?_
              split
              · rename_i hstop
                cases hdebug.symm.trans hstop
              · exact fill_vacant_follows (fun value =>
                  insert_leaf_follows hwf (length_lt_of_absent hwf habsent) hkey value depth _) _
              · rename_i hfound
                cases hdebug.symm.trans hfound
            · rename_i child hsome
              rw [hsome] at hdebug hseek
              have hlookup := hseek.symm
              have hmem : (k, child) ∈ cur_node.iter := hwf.ascending.lookup_eq_some_iff.1 hlookup
              have hchild := hwf.child hmem
              have hcount := DefaultNode.node_count_lt_of_iter hmem
              have hdepth' : depth + cur_node.pfx.length ≤ key.length := by omega
              have hrun := update_recurse_edits happly hchild hdepth' f calls
              have hrec := ih child.node_count hcount hchild (hfits.child hmem) (hfit.child hwf hlookup) hdepth' rfl
              rw [hdrop] at hrun hrec
              have hbelow : find cur_node (key.drop depth) = find child (k :: s) := by
                rw [← hs]
                exact DefaultNode.find_below hlookup _
              split
              · rename_i hstop
                cases hdebug.symm.trans hstop
              · rename_i hnone
                cases hdebug.symm.trans hnone
              · rename_i found hfound
                cases hdebug.symm.trans hfound
                rw [hbelow, ← hs]
                exact update_child_guards hwf hfits.here hlookup rfl hrun hrec

end Specs

end rart.debug
