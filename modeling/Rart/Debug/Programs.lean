import Rart.Debug.Update

open Checked SortedAssoc
open rart.node rart.partials rart.tree rart.utils rart.Trie

namespace rart.debug

variable {V E : Type} {N : Nat}

/-- What a key is built from. -/
inductive KeySource (N : Nat) where
  | slice (data : Bytes) (h : data.length ≤ N)
  | text (s : String) (h : s.utf8ByteSize + 1 ≤ N)

/-- What the tree is asked to do with a key. -/
inductive Action (V : Type) where
  | insert (value : V)
  | try_insert (value : V)
  | remove
  | delete
  | update (callback : Callback V Empty)
  | get

/-- A key and what to do with it. -/
structure Call (N : Nat) (V : Type) where
  source : KeySource N
  action : Action V

namespace KeySource

/-- The bytes of the key. -/
def bytes : KeySource N → Bytes
  | slice data _ => data
  | text s _ => s.toUTF8.data.toList ++ [0]

/-- `ArrayKey::new_from_slice` and `ArrayKey::new_from_str` -/
def build : KeySource N → Result Bytes
  | slice data _ => ArrayKey.new_from_slice N data
  | text s _ => ArrayKey.new_from_str N s.toUTF8.data.toList

/-- A string that leaves no byte of the array unused. -/
def FillsKey : KeySource N → Prop
  | slice _ _ => False
  | text s _ => s.utf8ByteSize + 1 = N

/-- A key of either kind fits its array. -/
theorem length_bytes (source : KeySource N) : source.bytes.length ≤ N := by
  cases source with
  | slice data h => exact h
  | text s h =>
    change (s.toUTF8.data.toList ++ [0]).length ≤ N
    rw [List.length_append]
    exact h

/-- A string that fills the array gives a key of full length. -/
theorem length_of_fillsKey (source : KeySource N) (h : source.FillsKey) : source.bytes.length = N := by
  cases source with
  | slice data _ => exact h.elim
  | text s _ =>
    change (s.toUTF8.data.toList ++ [0]).length = N
    rw [List.length_append]
    exact h

/-- Only a string that fills the array fails to build. -/
theorem build_guards (source : KeySource N) : Guards source.FillsKey (.ok source.bytes) source.build := by
  intro key hkey
  cases hkey
  cases source with
  | slice data h =>
    refine ⟨fun hfills => hfills.elim, fun _ => ?_⟩
    change ArrayKey.new_from_slice N data = .ok data
    unfold ArrayKey.new_from_slice
    rw [debug_assert_of h]
    rfl
  | text s h =>
    have hlen : s.toUTF8.data.toList.length = s.utf8ByteSize := rfl
    change (s.utf8ByteSize + 1 = N → ∃ e, ArrayKey.new_from_str N s.toUTF8.data.toList = .error e) ∧
      (¬ s.utf8ByteSize + 1 = N → ArrayKey.new_from_str N s.toUTF8.data.toList = .ok (s.toUTF8.data.toList ++ [0]))
    unfold ArrayKey.new_from_str
    rw [hlen]
    constructor
    · intro hfills
      unfold debug_assert
      rw [if_neg (by omega)]
      exact ⟨_, rfl⟩
    · intro hroom
      rw [debug_assert_of (by omega)]
      rfl

end KeySource

namespace AdaptiveRadixTree

section Operations

variable [Features]

/-- The lookup on bytes, which a `KeyView` borrows. -/
def get_bytes (N : Nat) (self : AdaptiveRadixTree V) (key : Bytes) : Result (Option V) :=
  match self.root with
  | none => return none
  | some root => get_bytes_iterate N root key 0

/-- The lookup on a key that is owned. -/
def get_k (N : Nat) (self : AdaptiveRadixTree V) (key : Bytes) : Result (Option V) := get_bytes N self key

/-- A tree without a root gets a leaf for the whole key. -/
def insert_k (N : Nat) (self : AdaptiveRadixTree V) (key : Bytes) (value : V) :
    Result (Option V × AdaptiveRadixTree V) :=
  match self.root with
  | none => do return (none, ⟨some (.new_leaf (← ArrayKey.to_partial N key 0) value), 1⟩)
  | some root => do
    let (result, root) ← insert_recurse N root key value 0 true
    match result with
    | .Inserted => return (none, ⟨some root, self.len + 1⟩)
    | .Replaced old_value => return (some old_value, ⟨some root, self.len⟩)
    | .Occupied _ _ => throw (.unreachable "replacing insertion cannot report an occupied key")

/-- The insertion that gives the value back where the key was taken. -/
def try_insert_k (N : Nat) (self : AdaptiveRadixTree V) (key : Bytes) (value : V) :
    Result (Except (V × V) Unit × AdaptiveRadixTree V) :=
  match self.root with
  | none => do return (.ok (), ⟨some (.new_leaf (← ArrayKey.to_partial N key 0) value), 1⟩)
  | some root => do
    let (result, root) ← insert_recurse N root key value 0 false
    match result with
    | .Inserted => return (.ok (), ⟨some root, self.len + 1⟩)
    | .Occupied value current => return (.error (value, current), ⟨some root, self.len⟩)
    | .Replaced _ => throw (.unreachable "non-replacing insertion cannot replace a value")

/-- A key that ends at the root is removed there, and every other one below it. -/
def remove_k (N : Nat) (self : AdaptiveRadixTree V) (key : Bytes) : Result (Option V × AdaptiveRadixTree V) :=
  match self.root with
  | none => return (none, self)
  | some root => do
    let prefix_common_match ← ArrPartial.prefix_length_key N root.pfx key 0
    if prefix_common_match ≠ root.pfx.length then return (none, self)
    else if root.pfx.length = (← length_at key 0) then
      if root.is_leaf then
        let leaf ← expect root.value "corruption: missing value at leaf root"
        return (some leaf, ⟨none, ← usize_sub self.len 1⟩)
      else
        let removed := root.value
        let root := DefaultNode.mk root.pfx none root.content
        let len ← tree.AdaptiveRadixTree.len_without self.len removed
        if root.num_children = 0 then return (removed, ⟨none, len⟩)
        else return (removed, ⟨some root, len⟩)
    else
      let (result, root) ← remove_recurse N root key prefix_common_match
      let new_root :=
        if root.is_leaf = false ∧ root.num_children = 0 ∧ root.value.isNone then none else some root
      return (result, ⟨new_root, ← tree.AdaptiveRadixTree.len_without self.len result⟩)

/-- A removal that reports only whether there was anything to remove. -/
def delete_k (N : Nat) (self : AdaptiveRadixTree V) (key : Bytes) : Result (Bool × AdaptiveRadixTree V) := do
  let (removed, self) ← remove_k N self key
  return (removed.isSome, self)

/-- Asserts that the callback ran before a result is reported. -/
def try_update_k_inner (N : Nat) (self : AdaptiveRadixTree V) (key : Bytes) (update : Callback V E) :
    Result (Except E Bool × AdaptiveRadixTree V × UpdateCell V E) :=
  match self.root with
  | none => do
    let (action, update) ← UpdateCell.call_vacant ⟨some update, []⟩
    match action with
    | .error e => return (.error e, self, update)
    | .ok (.Insert value) =>
      return (.ok true, ⟨some (.new_leaf (← ArrayKey.to_partial N key 0) value), 1⟩, update)
    | .ok .Keep => return (.ok false, self, update)
    | .ok .Remove => return (.ok false, self, update)
  | some root => do
    let (result, root, update) ← try_update_recurse_with N root key 0 ⟨some update, []⟩
    match result with
    | .error e => return (.error e, ⟨some root, self.len⟩, update)
    | .ok result =>
      debug_assert (update.update.isNone = true) "assertion failed: update.is_none()"
      match result with
      | .Unchanged => return (.ok false, ⟨some root, self.len⟩, update)
      | .Changed => return (.ok true, ⟨some root, self.len⟩, update)
      | .Inserted => return (.ok true, ⟨some root, self.len + 1⟩, update)
      | .Removed => return (.ok true, ⟨some root, ← usize_sub self.len 1⟩, update)
      | .RemoveCurrent => return (.ok true, ⟨none, ← usize_sub self.len 1⟩, update)

/-- An update whose callback cannot fail. -/
def update_k (N : Nat) (self : AdaptiveRadixTree V) (key : Bytes) (update : Callback V Empty) :
    Result (Bool × AdaptiveRadixTree V × List (Slot V)) := do
  let (result, self, cell) ← try_update_k_inner N self key update
  match result with
  | .ok changed => return (changed, self, cell.calls)

end Operations

end AdaptiveRadixTree

namespace Action

/-- What the slot that held `found` holds afterwards. -/
def left (found : Option V) : Action V → Option V
  | insert value => some value
  | try_insert value => some (found.getD value)
  | remove => none
  | delete => none
  | update callback => (callback.apply false found).2
  | get => found

variable [Features]

/-- The action in a debug build. -/
def perform (N : Nat) (action : Action V) (tree : AdaptiveRadixTree V) (key : Bytes) :
    Result (Reply V Empty × AdaptiveRadixTree V) :=
  match action with
  | insert value => do
    let (previous, tree) ← AdaptiveRadixTree.insert_k N tree key value
    return (.inserted previous, tree)
  | try_insert value => do
    let (result, tree) ← AdaptiveRadixTree.try_insert_k N tree key value
    return (.tried result, tree)
  | remove => do
    let (value, tree) ← AdaptiveRadixTree.remove_k N tree key
    return (.removed value, tree)
  | delete => do
    let (existed, tree) ← AdaptiveRadixTree.delete_k N tree key
    return (.deleted existed, tree)
  | update callback => do
    let (changed, tree, calls) ← AdaptiveRadixTree.update_k N tree key callback
    return (.updated (.ok changed) calls, tree)
  | get => do return (.seen (← AdaptiveRadixTree.get_k N tree key), tree)

/-- The action in a release build. -/
def performReleased (action : Action V) (tree : AdaptiveRadixTree V) (key : Bytes) :
    Result (Reply V Empty × AdaptiveRadixTree V) :=
  match action with
  | insert value => Op.onTree (.insert_k key value) tree
  | try_insert value => Op.onTree (.try_insert_k key value) tree
  | remove => Op.onTree (.remove_k key) tree
  | delete => Op.onTree (.delete_k key) tree
  | update callback => Op.onTree (.update_k key callback) tree
  | get => do return (.seen (← tree.get_k key), tree)

end Action

section Specs

variable [Features] {root : DefaultNode V} {len : Nat} {tree : AdaptiveRadixTree V} {key : Bytes}

/-- What holds of the trees of a program whose keys fit the arrays. -/
structure Sound (N : Nat) (tree : AdaptiveRadixTree V) (m : RefMap V) : Prop where
  represents : Represents tree m
  fits : EveryNode LayoutFits tree
  keys : ∀ key v, m.lookup key = some v → key.length ≤ N

/-- Emptying the slot of a key fills a prefix. -/
def Overfills (N : Nat) (tree : AdaptiveRadixTree V) (key : Bytes) : Prop :=
  ∃ root, tree.root = some root ∧ Fills N root key

/-- With a root the question is about its nodes. -/
theorem overfills_root_iff : Overfills N ⟨some root, len⟩ key ↔ Fills N root key := by
  constructor
  · rintro ⟨root', heq, hfills⟩
    cases heq
    exact hfills
  · exact fun hfills => ⟨root, rfl, hfills⟩

/-- A tree without nodes has no prefix to fill. -/
theorem not_overfills_none : ¬ Overfills N (⟨none, len⟩ : AdaptiveRadixTree V) key := by
  rintro ⟨root, heq, _⟩
  cases heq

namespace Sound

variable {m : RefMap V}

/-- The keys below the root are the keys of the map. -/
theorem keysFit (h : Sound N ⟨some root, len⟩ m) : KeysFit N root := by
  intro key v hfind
  rw [h.represents.find_root] at hfind
  exact h.keys key v hfind

/-- Only a removal that finds its key joins prefixes. -/
theorem found (h : Sound N tree m) (hfills : Overfills N tree key) : (m.lookup key).isSome := by
  obtain ⟨root, hroot, hfills⟩ := hfills
  obtain ⟨root', len⟩ := tree
  cases hroot
  rw [← h.represents.find_root]
  exact hfills.found

/-- The empty tree holds nothing. -/
theorem new : Sound N (AdaptiveRadixTree.new : AdaptiveRadixTree V) ∅ where
  represents := represents_new
  fits := everyNode_new _
  keys := fun _ _ hlookup => by cases hlookup

/-- Setting a slot adds no key but the one that is set. -/
theorem set (h : Sound N tree m) (hkey : key.length ≤ N) {left : Option V} {after : AdaptiveRadixTree V}
    (hsets : SetsSlot tree m key left after) : Sound N after (m.setSlot key left) where
  represents := hsets.represents h.represents
  fits := hsets.changed.layoutFits h.represents h.fits
  keys := by
    intro k v hlookup
    rw [RefMap.lookup_setSlot] at hlookup
    split at hlookup
    · rename_i heq
      rw [heq]
      exact hkey
    · exact h.keys k v hlookup

/-- A lookup fails on no assertion. -/
theorem get_k_follows (h : Sound N tree m) (key : Bytes) :
    Follows (tree.get_k key) (AdaptiveRadixTree.get_k N tree key) := by
  obtain ⟨root, len⟩ := tree
  cases root with
  | none => exact Follows.refl _
  | some root => exact get_bytes_iterate_follows (h.represents.wf root rfl) h.keysFit key 0

/-- Nor does an insertion of a key that fits. -/
theorem insert_k_follows (h : Sound N tree m) (hkey : key.length ≤ N) (value : V) :
    Follows (tree.insert_k key value) (AdaptiveRadixTree.insert_k N tree key value) := by
  obtain ⟨root, len⟩ := tree
  cases root with
  | none => exact (ArrayKey.to_partial_follows hkey 0).bind fun _ _ => Follows.refl _
  | some root =>
    refine (insert_recurse_follows (h.represents.wf root rfl) h.keysFit hkey value 0 true).bind fun result _ => ?_
    exact Follows.refl _

/-- As for `insert_k`. -/
theorem try_insert_k_follows (h : Sound N tree m) (hkey : key.length ≤ N) (value : V) :
    Follows (tree.try_insert_k key value) (AdaptiveRadixTree.try_insert_k N tree key value) := by
  obtain ⟨root, len⟩ := tree
  cases root with
  | none => exact (ArrayKey.to_partial_follows hkey 0).bind fun _ _ => Follows.refl _
  | some root =>
    refine (insert_recurse_follows (h.represents.wf root rfl) h.keysFit hkey value 0 false).bind fun result _ => ?_
    exact Follows.refl _

/-- A removal fails exactly where it overfills a prefix. -/
theorem remove_k_guards (h : Sound N tree m) (key : Bytes) :
    Guards (Overfills N tree key) (tree.remove_k key) (AdaptiveRadixTree.remove_k N tree key) := by
  obtain ⟨root, len⟩ := tree
  cases root with
  | none => exact .of_follows (Follows.refl _) not_overfills_none
  | some root =>
    have hwf := h.represents.wf root rfl
    have hlcp : prefix_length_key root.pfx key 0 = .ok (LexOrder.lcp root.pfx (key.drop 0)) :=
      prefix_length_key_eq_ok (Nat.zero_le _)
    unfold AdaptiveRadixTree.remove_k tree.AdaptiveRadixTree.remove_k
    dsimp only
    rw [overfills_root_iff, ArrPartial.prefix_length_key_follows (h.keysFit.pfx hwf) key 0 _ hlcp, hlcp,
      ok_bind, ok_bind,
      length_at, usize_sub_eq_ok (Nat.zero_le _), ok_bind, ok_bind]
    rcases probe.meets root.pfx (Nat.zero_le key.length) with
      ⟨hne, hpfx⟩ | ⟨hpfx, hlcp, hlen⟩ | ⟨k, rest, hpfx, hlcp, hlen, hk, hrest, hdepth⟩
    · rw [if_pos hne, if_pos hne]
      exact absent_guards (find_eq_none_of_not_pfx (n := root) hpfx) (Follows.refl _)
    · refine .of_follows ?_ ?_
      · rw [if_neg (not_not.2 hlcp), if_neg (not_not.2 hlcp), if_pos hlen, if_pos hlen]
        exact Follows.refl _
      · rw [List.drop_zero] at hpfx
        rw [hpfx]
        exact not_fills_self
    · rw [if_neg (not_not.2 hlcp), if_neg (not_not.2 hlcp), if_neg hlen, if_neg hlen, hlcp]
      rw [Nat.zero_add] at hrest
      rw [List.drop_zero] at hpfx
      have hlt : root.pfx.length < key.length := by
        have hkeylen := congrArg List.length hpfx
        simp only [List.length_append, List.length_cons] at hkeylen
        omega
      have hguards := remove_recurse_guards hwf (h.fits root rfl) h.keysFit hlt
      rw [hrest, ← hpfx] at hguards
      exact hguards.bind_follows fun _ _ => Follows.refl _

/-- As for `remove_k`. -/
theorem delete_k_guards (h : Sound N tree m) (key : Bytes) :
    Guards (Overfills N tree key) (tree.delete_k key) (AdaptiveRadixTree.delete_k N tree key) :=
  (h.remove_k_guards key).bind_follows fun _ _ => Follows.refl _

/-- An update fails exactly where its callback removes a key and that overfills a prefix. -/
theorem try_update_k_inner_guards (h : Sound N tree m) (hkey : key.length ≤ N) (f : Callback V E) :
    Guards ((f.apply false (m.lookup key)).2 = none ∧ Overfills N tree key) (tree.try_update_k_inner key f)
      (AdaptiveRadixTree.try_update_k_inner N tree key f) := by
  obtain ⟨root, len⟩ := tree
  cases root with
  | none =>
    refine .of_follows ?_ fun hfills => not_overfills_none hfills.2
    refine (Follows.refl _).bind fun answer _ => ?_
    obtain ⟨action, cell⟩ := answer
    cases action with
    | error e => exact Follows.refl _
    | ok action =>
      cases action with
      | Keep => exact Follows.refl _
      | Remove => exact Follows.refl _
      | Insert value => exact (ArrayKey.to_partial_follows hkey 0).bind fun _ _ => Follows.refl _
  | some root =>
    have hwf := h.represents.wf root rfl
    have hguards := update_recurse_guards apply_occupied_update_eq hwf (h.fits root rfl) h.keysFit hkey
      (Nat.zero_le key.length) f []
    obtain ⟨after, pruned, hrun, _⟩ := update_recurse_edits apply_occupied_update_eq hwf (Nat.zero_le key.length) f []
    rw [List.drop_zero, h.represents.find_root] at hguards
    rw [overfills_root_iff]
    refine hguards.bind_follows fun left hleft => ?_
    cases hrun.symm.trans hleft
    dsimp only
    cases updateResult _ _ pruned _ with
    | error e => exact Follows.refl _
    | ok result => cases result <;> exact Follows.refl _

/-- As for `try_update_k_inner`. -/
theorem update_k_guards (h : Sound N tree m) (hkey : key.length ≤ N) (f : Callback V Empty) :
    Guards ((f.apply false (m.lookup key)).2 = none ∧ Overfills N tree key) (tree.update_k key f)
      (AdaptiveRadixTree.update_k N tree key f) :=
  (h.try_update_k_inner_guards hkey f).bind_follows fun _ _ => Follows.refl _

/-- An action goes as in a release build, unless it empties a slot and thereby fills a
prefix. -/
theorem perform_guards (h : Sound N tree m) (hkey : key.length ≤ N) (action : Action V) :
    Guards (action.left (m.lookup key) = none ∧ Overfills N tree key) (action.performReleased tree key)
      (action.perform N tree key) := by
  cases action with
  | insert value =>
    refine .of_follows ((h.insert_k_follows hkey value).bind fun _ _ => Follows.refl _) fun hfills => ?_
    cases hfills.1
  | try_insert value =>
    refine .of_follows ((h.try_insert_k_follows hkey value).bind fun _ _ => Follows.refl _) fun hfills => ?_
    cases hfills.1
  | remove =>
    refine ((h.remove_k_guards key).bind_follows fun _ _ => Follows.refl _).congr ?_
    exact and_iff_right rfl
  | delete =>
    refine ((h.delete_k_guards key).bind_follows fun _ _ => Follows.refl _).congr ?_
    exact and_iff_right rfl
  | update callback => exact (h.update_k_guards hkey callback).bind_follows fun _ _ => Follows.refl _
  | get =>
    refine .of_follows ((h.get_k_follows key).bind fun _ _ => Follows.refl _) fun hfills => ?_
    have hfound := h.found hfills.2
    rw [show m.lookup key = none from hfills.1] at hfound
    cases hfound

/-- In a release build every action returns, and leaves a tree whose keys fit. -/
theorem performReleased_eq (h : Sound N tree m) (hkey : key.length ≤ N) (action : Action V) :
    ∃ reply after, action.performReleased tree key = .ok (reply, after) ∧
      Sound N after (m.setSlot key (action.left (m.lookup key))) := by
  cases action with
  | insert value =>
    obtain ⟨after, hstep, hsets⟩ := Op.step_sets h.represents (.insert_k key value : Op V Empty)
    exact ⟨_, after, hstep, h.set hkey hsets⟩
  | try_insert value =>
    obtain ⟨after, hstep, hsets⟩ := Op.step_sets h.represents (.try_insert_k key value : Op V Empty)
    exact ⟨_, after, hstep, h.set hkey hsets⟩
  | remove =>
    obtain ⟨after, hstep, hsets⟩ := Op.step_sets h.represents (.remove_k key : Op V Empty)
    exact ⟨_, after, hstep, h.set hkey hsets⟩
  | delete =>
    obtain ⟨after, hstep, hsets⟩ := Op.step_sets h.represents (.delete_k key : Op V Empty)
    exact ⟨_, after, hstep, h.set hkey hsets⟩
  | update callback =>
    obtain ⟨after, hstep, hsets⟩ := Op.step_sets h.represents (.update_k key callback : Op V Empty)
    exact ⟨_, after, hstep, h.set hkey hsets⟩
  | get =>
    refine ⟨.seen (m.lookup key), tree, ?_, ?_⟩
    · change (do return (.seen (← tree.get_k key), tree) : Result (Reply V Empty × AdaptiveRadixTree V)) = _
      rw [h.represents.get_k_eq key]
      rfl
    · change Sound N tree (m.setSlot key (m.lookup key))
      rw [RefMap.setSlot_eq_self rfl]
      exact h

end Sound

end Specs

section Runs

variable [Features]

/-- A call in a debug build. -/
def Call.perform (call : Call N V) (tree : AdaptiveRadixTree V) : Result (Reply V Empty × AdaptiveRadixTree V) := do
  let key ← call.source.build
  call.action.perform N tree key

/-- A sequence of calls in a debug build. -/
def run (tree : AdaptiveRadixTree V) : List (Call N V) → Result (List (Reply V Empty) × AdaptiveRadixTree V)
  | [] => return ([], tree)
  | call :: calls => do
    let (reply, tree) ← call.perform tree
    let (replies, tree) ← run tree calls
    return (reply :: replies, tree)

/-- The key leaves a byte of its array unused if it is a string, and the call does not
empty a slot and thereby fill a prefix. -/
def Call.Fits (call : Call N V) (tree : AdaptiveRadixTree V) : Prop :=
  ¬ call.source.FillsKey ∧
    ¬ ∃ root, tree.root = some root ∧ Fills N root call.source.bytes ∧
      call.action.left (find root call.source.bytes) = none

/-- Every call of a run fits the tree that it finds. -/
def Meets (tree : AdaptiveRadixTree V) : List (Call N V) → Prop
  | [] => True
  | call :: calls =>
    call.Fits tree ∧ ∀ reply next, call.perform tree = .ok (reply, next) → Meets next calls

/-- The calls that return are those whose key builds and whose removal, if it is one, has room for
its join. -/
theorem Call.fits_iff {call : Call N V} {tree : AdaptiveRadixTree V} {m : RefMap V} (h : Sound N tree m) :
    call.Fits tree ↔ ¬ (call.source.FillsKey ∨
      (call.action.left (m.lookup call.source.bytes) = none ∧ Overfills N tree call.source.bytes)) := by
  rw [not_or]
  refine and_congr_right fun _ => not_congr ?_
  constructor
  · rintro ⟨root, hroot, hfills, hleft⟩
    obtain ⟨root', len⟩ := tree
    cases hroot
    rw [h.represents.find_root] at hleft
    exact ⟨hleft, root, rfl, hfills⟩
  · rintro ⟨hleft, root, hroot, hfills⟩
    obtain ⟨root', len⟩ := tree
    cases hroot
    rw [← h.represents.find_root] at hleft
    exact ⟨root, rfl, hfills, hleft⟩

/-- A call returns if and only if it fits, and then leaves a tree whose keys fit. -/
theorem Call.perform_spec {tree : AdaptiveRadixTree V} {m : RefMap V} (h : Sound N tree m) (call : Call N V) :
    (¬ call.Fits tree → ∃ e, call.perform tree = .error e) ∧
      (call.Fits tree → ∃ reply next, call.perform tree = .ok (reply, next) ∧
        Sound N next (m.setSlot call.source.bytes (call.action.left (m.lookup call.source.bytes)))) := by
  have hkey := call.source.length_bytes
  obtain ⟨reply, next, hreleased, hnext⟩ := h.performReleased_eq hkey call.action
  have hguards := (call.source.build_guards).bind fun key hbytes => by
    cases hbytes
    exact h.perform_guards hkey call.action
  obtain ⟨hstops, hreturns⟩ := hguards _ hreleased
  rw [call.fits_iff h]
  refine ⟨fun hnot => hstops (not_not.1 hnot), fun hfits => ⟨reply, next, hreturns hfits, hnext⟩⟩

/-- By induction on the calls. A call that returns leaves a sound tree for the next one. -/
theorem run_spec {tree : AdaptiveRadixTree V} {m : RefMap V} (h : Sound N tree m) (calls : List (Call N V)) :
    (∃ outcome, run tree calls = .ok outcome) ↔ Meets tree calls := by
  induction calls generalizing tree m with
  | nil => exact iff_of_true ⟨_, rfl⟩ trivial
  | cons call calls ih =>
    obtain ⟨hstops, hreturns⟩ := call.perform_spec h
    by_cases hfits : call.Fits tree
    · obtain ⟨reply, next, hperform, hnext⟩ := hreturns hfits
      rw [run, Meets, hperform, ok_bind]
      constructor
      · rintro ⟨outcome, hrun⟩
        obtain ⟨rest, hrest, _⟩ := bind_eq_ok_iff.1 hrun
        refine ⟨hfits, fun reply' next' heq => ?_⟩
        cases heq
        exact (ih hnext).1 ⟨rest, hrest⟩
      · rintro ⟨_, hmeets⟩
        obtain ⟨⟨replies, after⟩, hrest⟩ := (ih hnext).2 (hmeets reply next rfl)
        dsimp only
        rw [hrest]
        exact ⟨_, rfl⟩
    · obtain ⟨e, hstop⟩ := hstops hfits
      rw [run, Meets, hstop]
      refine iff_of_false ?_ fun hmeets => hfits hmeets.1
      rintro ⟨outcome, hrun⟩
      cases hrun

/-- A program of a debug build never stops at an assertion, an index or an underflow if
and only if every call of it fits. -/
theorem run_returns_iff (calls : List (Call N V)) :
    (∃ outcome, run .new calls = .ok outcome) ↔ Meets .new calls :=
  run_spec Sound.new calls

/-- With keys that leave a byte of their arrays unused, every call fits. -/
theorem meets_of_short {tree : AdaptiveRadixTree V} {m : RefMap V} (h : Sound N tree m)
    (hshort : ∀ key v, m.lookup key = some v → key.length < N) {calls : List (Call N V)}
    (hcalls : ∀ call ∈ calls, call.source.bytes.length < N) : Meets tree calls := by
  induction calls generalizing tree m with
  | nil => trivial
  | cons call calls ih =>
    have hcall := hcalls call List.mem_cons_self
    have hfits : call.Fits tree := by
      refine ⟨fun hfull => hcall.ne (call.source.length_of_fillsKey hfull), ?_⟩
      rintro ⟨root, hroot, hfills, _⟩
      obtain ⟨root', len⟩ := tree
      cases hroot
      obtain ⟨key, v, hfind, hfull⟩ := hfills.exists_full (h.represents.wf root rfl)
      rw [h.represents.find_root] at hfind
      exact absurd (hshort key v hfind) (not_lt.2 hfull)
    obtain ⟨reply, next, hperform, hnext⟩ := (call.perform_spec h).2 hfits
    refine ⟨hfits, fun reply' next' heq => ?_⟩
    cases hperform.symm.trans heq
    refine ih hnext (fun key v hlookup => ?_) fun call hmem => hcalls call (List.mem_cons_of_mem _ hmem)
    rw [RefMap.lookup_setSlot] at hlookup
    split at hlookup
    · rename_i heq
      rw [heq]
      exact hcall
    · exact hshort key v hlookup

omit [Features] in
/-- A program stops that removes one of two keys of all the bytes, and one that builds a key
of all the bytes from a string. -/
theorem run_stops_at_full_arrays :
    letI : Features := ⟨none⟩
    (¬ ∃ outcome, run .new ([⟨.slice [1, 1] (by decide), .insert 0⟩, ⟨.slice [1, 2] (by decide), .insert 0⟩,
      ⟨.slice [1, 1] (by decide), .remove⟩] : List (Call 2 Nat)) = .ok outcome) ∧
    ¬ ∃ outcome, run .new ([⟨.text "a" (by decide), .get⟩] : List (Call 2 Nat)) = .ok outcome := by
  let : Features := ⟨none⟩
  constructor
  · rintro ⟨outcome, hrun⟩
    have hstops : (run .new ([⟨.slice [1, 1] (by decide), .insert 0⟩, ⟨.slice [1, 2] (by decide), .insert 0⟩,
        ⟨.slice [1, 1] (by decide), .remove⟩] : List (Call 2 Nat))).toBool = false := by decide +kernel
    rw [hrun] at hstops
    cases hstops
  · rintro ⟨outcome, hrun⟩
    have hstops : (run .new ([⟨.text "a" (by decide), .get⟩] : List (Call 2 Nat))).toBool = false := by
      decide +kernel
    rw [hrun] at hstops
    cases hstops

end Runs

end rart.debug
