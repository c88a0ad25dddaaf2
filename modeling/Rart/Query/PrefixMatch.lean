import Rart.Query.Prefix

open SortedAssoc LexOrder
open rart.partials rart.Trie rart.Node rart.iter

namespace rart.query

variable {N V A B : Type} [Node N V]

/-- `if let Some(value) = cur_node.value() { best_match = .. }` -/
def keep_value (keep : V → B → Result B) (value : Option V) (best : B) : Result B :=
  match value with
  | some value => keep value best
  | none => return best

/-- The loop of the four matching functions, which differ in how they compare a prefix
with the key, in what they remember of the nodes on the way (`seen`), and in what
they keep of a match (`best`). -/
def prefix_match_loop (common : Bytes → Bytes → Nat → Result Nat) (remember : A → Bytes → A)
    (keep : A → Nat → V → B → Result B) (cur_node : N) (seen : A) (best : B) (key : Bytes) (depth : Nat) :
    Result (A × B) := do
  let prefix_common_match ← common (pfx cur_node) key depth
  if prefix_common_match ≠ (pfx cur_node).length then return (seen, best)
  else
    let best ← keep_value (keep seen (depth + (pfx cur_node).length)) (value cur_node) best
    if (pfx cur_node).length = (← length_at key depth) then return (seen, best)
    else
      let k ← byte_at key (depth + (pfx cur_node).length)
      match _hchild : seek_child cur_node k with
      | none => return (seen, best)
      | some child =>
        prefix_match_loop common remember keep child (remember seen (pfx child)) best key
          (depth + (pfx cur_node).length)
termination_by rank cur_node
decreasing_by exact rank_seek _hchild

/-- The key of the best match is copied at each match. -/
def longest_prefix_match_iterate (cur_node : N) (key : Bytes) : Result (Option (Bytes × V)) := do
  let (_, best_match) ← prefix_match_loop prefix_length_key (fun cur_key segment => cur_key ++ segment)
    (fun cur_key _ value _ => return some (cur_key, value)) cur_node (pfx cur_node) none key 0
  return best_match

/-- `cur_node.prefix.prefix_length_slice(&key[depth..])` -/
def prefix_length_at (pfx key : Bytes) (depth : Nat) : Result Nat :=
  return prefix_length_slice pfx (← slice_from key depth)

/-- The probe is a slice, and no key is built. -/
def longest_prefix_value_bytes_iterate (cur_node : N) (key : Bytes) : Result (Option V) := do
  let (_, best_match) ← prefix_match_loop prefix_length_at (fun _ _ => ())
    (fun _ _ value _ => return some value) cur_node () none key 0
  return best_match

/-- The call that `longest_prefix_match_lending` makes, if it makes one. -/
def longest_prefix_match_lending (cur_node : N) (key : Bytes) : Result (Option (LendingKeyView × V)) := do
  let (view, best_match) ← prefix_match_loop prefix_length_key push_segment
    (fun view _ value _ => return some (view.segments.length, view.len, value)) cur_node
    (⟨root_segments cur_node, (pfx cur_node).length⟩ : LendingKeyView) none key 0
  match best_match with
  | some (best_segment_count, best_len, value) =>
    return some (⟨← slice_to view.segments best_segment_count, best_len⟩, value)
  | none => return none

/-- The calls that `prefix_match_for_each_impl` makes. -/
def prefix_match_for_each_impl (cur_node : N) (key : Bytes) : Result (List (Bytes × V)) := do
  let (_, calls) ← prefix_match_loop prefix_length_key (fun _ _ => ())
    (fun _ matched_len value calls => return calls ++ [(← slice_to key matched_len, value)])
    cur_node () [] key 0
  return calls

/-- An empty tree has no match. -/
def longest_prefix_match_k (root : Option N) (key : Bytes) : Result (Option (Bytes × V)) :=
  match root with
  | none => return none
  | some root => longest_prefix_match_iterate root key

/-- An empty tree has no match. -/
def longest_prefix_value_bytes (root : Option N) (key : Bytes) : Result (Option V) :=
  match root with
  | none => return none
  | some root => longest_prefix_value_bytes_iterate root key

/-- By the bytes of the probe. -/
def longest_prefix_value_k (root : Option N) (key : Bytes) : Result (Option V) :=
  longest_prefix_value_bytes root key

/-- The call that `with_longest_prefix_match_view_k` makes, and what it returns. -/
def with_longest_prefix_match_view_k (root : Option N) (key : Bytes) :
    Result (Option (LendingKeyView × V) × Bool) :=
  match root with
  | none => return (none, false)
  | some root => do
    let call ← longest_prefix_match_lending root key
    return (call, call.isSome)

/-- The calls that `prefix_match_for_each_k` makes. -/
def prefix_match_for_each_k (root : Option N) (key : Bytes) : Result (List (Bytes × V)) :=
  match root with
  | none => return []
  | some root => prefix_match_for_each_impl root key

/-- The node that comes next, and the key down to it. -/
structure PrefixMatchIter (N : Type) where
  cur_node : Option N
  probe : Bytes
  cur_key : Bytes
  depth : Nat

namespace PrefixMatchIter

/-- The root comes first. -/
def new (node : Option N) (probe : Bytes) : PrefixMatchIter N := ⟨node, probe, [], 0⟩

/-- The node that a turn leaves in `cur_node`. -/
def following (cur_node : N) (probe : Bytes) (depth remaining_len : Nat) : Result (Option N) :=
  if (pfx cur_node).length = remaining_len then return none
  else do return seek_child cur_node (← byte_at probe depth)

/-- The iterator goes down at each turn. -/
theorem rank_following {cur_node next : N} {probe : Bytes} {depth remaining_len : Nat}
    (h : following cur_node probe depth remaining_len = .ok (some next)) : rank next < rank cur_node := by
  unfold following at h
  split at h
  · cases h
  · obtain ⟨k, _, hseek⟩ := bind_eq_ok_iff.1 h
    exact rank_seek (Except.ok.inj hseek)

/-- One turn of the loop of `next`. -/
def turn (self : PrefixMatchIter N) : Result (Option (Option (Bytes × V) × PrefixMatchIter N)) :=
  match self.cur_node with
  | none => return none
  | some cur_node => do
    let remaining_len ← length_at self.probe self.depth
    let prefix_len := (pfx cur_node).length
    let prefix_common_match ← prefix_length_key (pfx cur_node) self.probe self.depth
    if prefix_common_match ≠ prefix_len then return none
    else
      let cur_key := self.cur_key ++ pfx cur_node
      let depth := self.depth + prefix_len
      let next ← following cur_node self.probe depth remaining_len
      return some ((value cur_node).map fun value => (cur_key, value), ⟨next, self.probe, cur_key, depth⟩)

/-- The rank of the node that comes next. -/
def size (self : PrefixMatchIter N) : Nat := self.cur_node.elim 0 fun n => rank n + 1

/-- A turn leaves less to do. -/
theorem turn_lt {self self' : PrefixMatchIter N} {o : Option (Bytes × V)}
    (h : self.turn = .ok (some (o, self'))) : self'.size < self.size := by
  unfold turn at h
  split at h
  · cases h
  · rename_i cur_node hcur
    have hsize : self.size = rank cur_node + 1 := by
      unfold size
      rw [hcur]
      rfl
    simp only [bind_eq_ok_iff] at h
    obtain ⟨remaining_len, _, common, _, h⟩ := h
    split at h
    · cases h
    · obtain ⟨next, hnext, h⟩ := bind_eq_ok_iff.1 h
      cases h
      rw [hsize]
      unfold size
      cases next with
      | none => exact Nat.succ_pos _
      | some child => exact Nat.succ_lt_succ (rank_following hnext)

/-- Everything that `next` returns until it returns `None`. -/
def collect (self : PrefixMatchIter N) : Result (List (Bytes × V)) :=
  match _h : self.turn with
  | .error e => .error e
  | .ok none => return []
  | .ok (some (o, self')) => do return o.toList ++ (← collect self')
termination_by self.size
decreasing_by exact turn_lt _h

end PrefixMatchIter

/-- The iterator over the matches of a probe. -/
def prefix_match_iter_k (root : Option N) (key : Bytes) : PrefixMatchIter N := .new root key

section Specs

/-- The entries whose key is a prefix of the probe. -/
def prefixes_of (key : Bytes) (l : List (Bytes × V)) : List (Bytes × V) :=
  l.filter fun e => decide (e.1 <+: key)

/-- The entry of a node itself. -/
def ownEntry (base : Bytes) (n : N) : List (Bytes × V) := ((value n).map fun v => (base, v)).toList

/-- Below a base that the probe leaves there is no match. -/
theorem prefixes_of_diverging {base key : Bytes} (h : ¬ base <+: key) (n : N) :
    prefixes_of key (entriesFrom base n) = [] := by
  unfold prefixes_of
  rw [List.filter_eq_nil_iff]
  exact fun e he hpass => h ((key_of_entriesFrom he).trans (of_decide_eq_true hpass))

/-- The entry of a base that the probe passes is a match. -/
theorem prefixes_of_own {base key : Bytes} (h : base <+: key) (n : N) :
    prefixes_of key (ownEntry base n) = ownEntry base n := by
  unfold prefixes_of
  rw [List.filter_eq_self]
  intro e he
  obtain ⟨v, _, rfl⟩ := Option.map_eq_some_iff.1 (Option.mem_toList.1 he)
  exact decide_eq_true h

omit [Node N V] in
/-- A shared base is left out of the comparison. -/
theorem prefixes_of_under (base key : Bytes) (l : List (Bytes × V)) :
    prefixes_of (base ++ key) (under base l) = under base (prefixes_of key l) := by
  unfold prefixes_of under
  rw [List.filter_map]
  congr 1
  apply List.filter_congr
  intro e _
  simp only [Function.comp, List.prefix_append_right_inj]

/-- The entry of the node, then the matches among its children. -/
theorem prefixes_of_entriesFrom (base key : Bytes) (n : N) :
    prefixes_of (base ++ key) (entriesFrom base n) =
      ownEntry base n ++ under base (prefixes_of key (childEntries (Node.iter n))) := by
  have hown := prefixes_of_own (List.prefix_append base key) n
  rw [← prefixes_of_under]
  unfold prefixes_of at hown ⊢
  unfold entriesFrom
  rw [List.filter_append]
  exact congrArg (· ++ _) hown

/-- Below a node at which the probe ends there is no shorter key. -/
theorem prefixes_of_ends {n : N} (hwf : Wf n) (base : Bytes) :
    prefixes_of base (entriesFrom base n) = ownEntry base n := by
  have hnone : prefixes_of [] (childEntries (Node.iter n)) = [] := by
    unfold prefixes_of
    rw [List.filter_eq_nil_iff]
    intro e he hpass
    obtain ⟨p, hp, he⟩ := mem_childEntries.1 he
    obtain ⟨rest, hrest⟩ := hwf.key_of_child hp he
    have hnil := List.prefix_nil.1 (of_decide_eq_true hpass)
    rw [hrest] at hnil
    cases hnil
  have hsplit := prefixes_of_entriesFrom base [] n
  rw [List.append_nil, hnone] at hsplit
  rw [hsplit]
  exact List.append_nil _

/-- Below a node that the probe leads through, one child holds the longer prefixes. -/
theorem prefixes_of_child {n : N} (hwf : Wf n) (base : Bytes) (k : UInt8) (rest : Bytes) :
    prefixes_of (base ++ k :: rest) (entriesFrom base n) = ownEntry base n ++
      ((Node.iter n).lookup k).elim [] fun c =>
        prefixes_of (base ++ k :: rest) (entriesFrom (base ++ pfx c) c) := by
  have hbelow := hwf.filter_childEntries (k := k) (P := fun key => decide (key <+: k :: rest)) (by
    intro e he hkey
    obtain ⟨p, hp, he⟩ := mem_childEntries.1 he
    obtain ⟨tail, htail⟩ := hwf.key_of_child hp he
    obtain ⟨t, ht⟩ := of_decide_eq_true hkey
    rw [htail] at ht ⊢
    rw [(List.cons.inj ht).1]
    rfl)
  rw [prefixes_of_entriesFrom]
  congr 1
  unfold prefixes_of at hbelow ⊢
  rw [hbelow]
  cases (Node.iter n).lookup k with
  | none => rfl
  | some c =>
    have hchild := prefixes_of_under base (k :: rest) (entries c)
    rw [under_entries] at hchild
    exact hchild.symm

/-- What the parameters of a loop have to do with one another: `seen` tells the key of
the node that was entered last, `best` what was kept of the matches so far. -/
structure Keeps (common : Bytes → Bytes → Nat → Result Nat) (remember : A → Bytes → A)
    (keep : A → Nat → V → B → Result B) (Seen : A → Bytes → Prop) (Best : A → B → List (Bytes × V) → Prop)
    (key : Bytes) : Prop where
  common_ok : ∀ p depth, depth ≤ key.length → common p key depth = .ok (lcp p (key.drop depth))
  remember_ok : ∀ seen base segment, Seen seen base → Seen (remember seen segment) (base ++ segment)
  best_ok : ∀ seen best l segment, Best seen best l → Best (remember seen segment) best l
  keep_ok : ∀ seen base best l value, Seen seen base → base <+: key → Best seen best l →
    ∃ best', keep seen base.length value best = .ok best' ∧ Best seen best' (l ++ [(base, value)])

variable {common : Bytes → Bytes → Nat → Result Nat} {remember : A → Bytes → A}
  {keep : A → Nat → V → B → Result B} {Seen : A → Bytes → Prop} {Best : A → B → List (Bytes × V) → Prop}
  {key : Bytes}

/-- What the loop returns: what it kept of all entries whose key is a prefix of the
probe, in order. -/
theorem Keeps.loop (h : Keeps common remember keep Seen Best key) {cur_node : N} (hwf : Wf cur_node)
    {depth : Nat} (hdepth : depth ≤ key.length) {seen : A} (hseen : Seen seen (key.take depth ++ pfx cur_node))
    {best : B} {l : List (Bytes × V)} (hl : Best seen best l) :
    ∃ seen' best', prefix_match_loop common remember keep cur_node seen best key depth = .ok (seen', best') ∧
      Best seen' best' (l ++ prefixes_of key (entriesFrom (key.take depth ++ pfx cur_node) cur_node)) := by
  induction hn : rank cur_node using Nat.strongRecOn generalizing cur_node depth seen best l with
  | ind n ih =>
    subst hn
    have hkey : key.take depth ++ key.drop depth = key := List.take_append_drop _ _
    rw [prefix_match_loop, h.common_ok _ _ hdepth, ok_bind, length_at, usize_sub_eq_ok hdepth]
    have hlen : (key.take depth ++ pfx cur_node).length = depth + (pfx cur_node).length := by
      rw [List.length_append, List.length_take_of_le hdepth]
    -- a matching node's own value is kept first
    have hown : key.take depth ++ pfx cur_node <+: key → ∃ best',
        keep_value (keep seen (depth + (pfx cur_node).length)) (value cur_node) best = .ok best' ∧
        Best seen best' (l ++ ownEntry (key.take depth ++ pfx cur_node) cur_node) := by
      intro hpfx
      unfold ownEntry keep_value
      cases value cur_node with
      | none => exact ⟨best, rfl, by simpa using hl⟩
      | some v =>
        rw [← hlen]
        exact h.keep_ok _ _ _ _ v hseen hpfx hl
    cases probe.meets (pfx cur_node) hdepth with
    | diverges hne hpfx =>
      rw [if_pos hne]
      refine ⟨seen, best, rfl, ?_⟩
      rw [prefixes_of_diverging, List.append_nil]
      · exact hl
      · intro hstarts
        have hboth : key.take depth ++ pfx cur_node <+: key.take depth ++ key.drop depth := by
          rw [hkey]
          exact hstarts
        exact hpfx ((List.prefix_append_right_inj _).1 hboth)
    | ends hpfx hlcp hend =>
      have hbase : key.take depth ++ pfx cur_node = key := by rw [← hpfx, hkey]
      obtain ⟨best', hkept, hl'⟩ := hown ⟨[], by rw [List.append_nil, hbase]⟩
      rw [if_neg (not_not.2 hlcp), hkept, ok_bind, ok_bind, if_pos hend]
      refine ⟨seen, best', rfl, ?_⟩
      rw [hbase] at hl' ⊢
      rw [prefixes_of_ends hwf]
      exact hl'
    | goes_on k rest hpfx hlcp hend hk hrest hdepth' =>
      have hbase : key.take depth ++ pfx cur_node ++ k :: rest = key := by
        rw [List.append_assoc, ← hpfx, hkey]
      obtain ⟨best', hkept, hl'⟩ := hown ⟨_, hbase⟩
      rw [if_neg (not_not.2 hlcp), hkept, ok_bind, ok_bind, if_neg hend, byte_at, hk, ok_bind]
      have htake : key.take (depth + (pfx cur_node).length) = key.take depth ++ pfx cur_node := by
        rw [List.take_add, hpfx, List.take_left]
      have hchild := prefixes_of_child hwf (key.take depth ++ pfx cur_node) k rest
      rw [hbase] at hchild
      rw [hchild, ← List.append_assoc]
      split
      · rename_i hnone
        rw [hwf.seek_eq] at hnone
        rw [hnone, Option.elim_none, List.append_nil]
        exact ⟨seen, best', rfl, hl'⟩
      · rename_i child hsome
        have hlookup := hsome
        rw [hwf.seek_eq] at hlookup
        rw [hlookup, Option.elim_some, ← htake]
        have hseen' : Seen (remember seen (pfx child))
            (key.take (depth + (pfx cur_node).length) ++ pfx child) := by
          rw [htake]
          exact h.remember_ok _ _ _ hseen
        rw [← htake] at hl'
        exact ih _ (rank_seek hsome) (hwf.child (hwf.child_of_seek hsome)) hdepth' hseen'
          (h.best_ok _ _ _ (pfx child) hl') rfl

/-- The loop started at the root, with nothing kept. -/
theorem Keeps.loop_root (h : Keeps common remember keep Seen Best key) {root : N} (hwf : Wf root)
    (seen : A) (hseen : Seen seen (pfx root)) (best : B) (hnone : Best seen best []) :
    ∃ seen' best', prefix_match_loop common remember keep root seen best key 0 = .ok (seen', best') ∧
      Best seen' best' (prefixes_of key (entries root)) := by
  have hseen' : Seen seen (key.take 0 ++ pfx root) := by
    rw [List.take_zero, List.nil_append]
    exact hseen
  have hspec := h.loop hwf (Nat.zero_le _) hseen' hnone
  rw [List.take_zero, List.nil_append, List.nil_append, entriesFrom_pfx] at hspec
  exact hspec

end Specs

section Members

variable (V)

/-- The length of the shared part of the prefix and the rest of the slice. -/
theorem prefix_length_at_eq (p : Bytes) {key : Bytes} {depth : Nat} (hdepth : depth ≤ key.length) :
    prefix_length_at p key depth = .ok (lcp p (key.drop depth)) := by
  unfold prefix_length_at
  rw [slice_from_eq_ok hdepth, ok_bind, prefix_length_slice_eq_lcp]
  rfl

/-- A callback is called for each match. -/
theorem keeps_calls (key : Bytes) : Keeps prefix_length_key (fun (_ : Unit) _ => ())
    (fun _ matched_len (value : V) calls => do return calls ++ [(← slice_to key matched_len, value)])
    (fun _ _ => True) (fun _ calls l => calls = l) key where
  common_ok p depth := prefix_length_key_eq_ok
  remember_ok _ _ _ _ := trivial
  best_ok _ _ _ _ h := h
  keep_ok := by
    rintro _ base calls l value _ ⟨t, rfl⟩ rfl
    rw [slice_to_eq_ok (by simp), ok_bind, List.take_left]
    exact ⟨_, rfl, rfl⟩

/-- The best match is the last one. -/
theorem keeps_longest (key : Bytes) : Keeps prefix_length_key (fun cur_key segment => cur_key ++ segment)
    (fun cur_key _ (value : V) _ => return some (cur_key, value)) (fun cur_key base => cur_key = base)
    (fun _ best l => best = l.getLast?) key where
  common_ok p depth := prefix_length_key_eq_ok
  remember_ok _ _ _ h := by rw [h]
  best_ok _ _ _ _ h := h
  keep_ok seen base best l value hseen _ _ := ⟨_, rfl, by rw [hseen, List.getLast?_concat]⟩

/-- The best value is that of the last match. -/
theorem keeps_value (key : Bytes) : Keeps prefix_length_at (fun (_ : Unit) _ => ())
    (fun _ _ (value : V) _ => return some value) (fun _ _ => True)
    (fun _ best l => best = l.getLast?.map Prod.snd) key where
  common_ok p depth := prefix_length_at_eq p
  remember_ok _ _ _ _ := trivial
  best_ok _ _ _ _ h := h
  keep_ok seen base best l value _ _ _ := ⟨_, rfl, by rw [List.getLast?_concat]; rfl⟩

/-- The segments of the best match are the first ones of those on the way. -/
def BestView (view : LendingKeyView) (best : Option (Nat × Nat × V)) (l : List (Bytes × V)) : Prop :=
  match best with
  | none => l = []
  | some (best_segment_count, best_len, value) =>
    ∃ key, l.getLast? = some (key, value) ∧ best_segment_count ≤ view.segments.length ∧
      (view.segments.take best_segment_count).flatten = key ∧ best_len = key.length

/-- The best match as a view: how many of the segments, and their length. -/
theorem keeps_view (key : Bytes) : Keeps prefix_length_key push_segment
    (fun view _ (value : V) _ => return some (view.segments.length, view.len, value)) ViewsKey (BestView V)
    key where
  common_ok p depth := prefix_length_key_eq_ok
  remember_ok := viewsKey_push_segment
  best_ok view best l segment h := by
    cases best with
    | none => exact h
    | some best =>
      obtain ⟨key, hlast, hcount, hflat, hlen⟩ := h
      refine ⟨key, hlast, ?_, ?_, hlen⟩
      · unfold push_segment
        split
        · rw [List.length_append]
          omega
        · exact hcount
      · unfold push_segment
        split
        · rw [List.take_append_of_le_length hcount]
          exact hflat
        · exact hflat
  keep_ok view base best l value hseen _ _ := by
    refine ⟨_, rfl, base, List.getLast?_concat, Nat.le_refl _, ?_, hseen.2⟩
    rw [List.take_length]
    exact hseen.1

end Members

section Results

variable {root : Option N} (hwf : ∀ r, root = some r → Wf r) (key : Bytes)
include hwf

/-- The callback is called for all matches, shortest first. -/
theorem prefix_match_for_each_k_spec :
    prefix_match_for_each_k root key = .ok (prefixes_of key (root.elim [] entries)) := by
  cases root with
  | none => rfl
  | some root =>
    obtain ⟨seen, calls, hloop, hcalls⟩ := (keeps_calls V key).loop_root (hwf root rfl) () trivial [] rfl
    unfold prefix_match_for_each_k prefix_match_for_each_impl
    dsimp only
    rw [hloop, Option.elim_some, ← hcalls]
    rfl

/-- The longest match is the last one. -/
theorem longest_prefix_match_k_spec :
    longest_prefix_match_k root key = .ok (prefixes_of key (root.elim [] entries)).getLast? := by
  cases root with
  | none => rfl
  | some root =>
    obtain ⟨seen, best, hloop, hbest⟩ := (keeps_longest V key).loop_root (hwf root rfl) _ rfl none rfl
    unfold longest_prefix_match_k longest_prefix_match_iterate
    dsimp only
    rw [hloop, Option.elim_some, ← hbest]
    rfl

/-- The value of the longest match. -/
theorem longest_prefix_value_bytes_spec :
    longest_prefix_value_bytes root key =
      .ok ((prefixes_of key (root.elim [] entries)).getLast?.map Prod.snd) := by
  cases root with
  | none => rfl
  | some root =>
    obtain ⟨seen, best, hloop, hbest⟩ := (keeps_value V key).loop_root (hwf root rfl) () trivial none rfl
    unfold longest_prefix_value_bytes longest_prefix_value_bytes_iterate
    dsimp only
    rw [hloop, Option.elim_some, ← hbest]
    rfl

/-- The lending variant is called with a view of the longest match, if there is one. -/
theorem with_longest_prefix_match_view_k_spec :
    ∃ call : Option (LendingKeyView × V), with_longest_prefix_match_view_k root key = .ok (call, call.isSome) ∧
      call.map viewed = (prefixes_of key (root.elim [] entries)).getLast?.map shown := by
  cases root with
  | none => exact ⟨none, rfl, rfl⟩
  | some root =>
    have hseen : ViewsKey ⟨root_segments root, (pfx root).length⟩ (pfx root) :=
      ⟨flatten_root_segments root, rfl⟩
    obtain ⟨view, best, hloop, hbest⟩ := (keeps_view V key).loop_root (hwf root rfl) _ hseen none rfl
    unfold with_longest_prefix_match_view_k longest_prefix_match_lending
    dsimp only
    rw [hloop, ok_bind, Option.elim_some]
    cases best with
    | none =>
      rw [show prefixes_of key (entries root) = [] from hbest]
      exact ⟨none, rfl, rfl⟩
    | some best =>
      obtain ⟨best_segment_count, best_len, value⟩ := best
      obtain ⟨best_key, hlast, hcount, hflat, hlen⟩ := hbest
      dsimp only
      rw [slice_to_eq_ok hcount, hlast]
      refine ⟨_, rfl, ?_⟩
      simp only [Option.map_some, viewed, shown, LendingKeyView.to_vec_eq, hflat, hlen]

end Results

section Iterator

namespace PrefixMatchIter

/-- An iterator that has ended. -/
theorem collect_of_none {self : PrefixMatchIter N}
    (h : self.turn = .ok (none : Option (Option (Bytes × V) × PrefixMatchIter N))) :
    self.collect = .ok ([] : List (Bytes × V)) := by
  rw [collect]
  split
  · rename_i hturn
    rw [h] at hturn
    cases hturn
  · rfl
  · rename_i hturn
    rw [h] at hturn
    cases hturn

/-- One turn, and the rest. -/
theorem collect_of_some {self self' : PrefixMatchIter N} {o : Option (Bytes × V)}
    (h : self.turn = .ok (some (o, self'))) {l : List (Bytes × V)} (hrest : self'.collect = .ok l) :
    self.collect = .ok (o.toList ++ l) := by
  rw [collect]
  split
  · rename_i hturn
    rw [h] at hturn
    cases hturn
  · rename_i hturn
    rw [h] at hturn
    cases hturn
  · rename_i hturn
    rw [h] at hturn
    cases hturn
    rw [hrest]
    rfl

/-- What a match iterator still hands out, from the node that it stands before. -/
theorem collect_from {cur_node : N} (hwf : Wf cur_node) {key : Bytes} {depth : Nat}
    (hdepth : depth ≤ key.length) :
    (⟨some cur_node, key, key.take depth, depth⟩ : PrefixMatchIter N).collect =
      .ok (prefixes_of key (entriesFrom (key.take depth ++ pfx cur_node) cur_node)) := by
  induction hn : rank cur_node using Nat.strongRecOn generalizing cur_node depth with
  | ind n ih =>
    subst hn
    have hkey : key.take depth ++ key.drop depth = key := List.take_append_drop _ _
    have hturn : (⟨some cur_node, key, key.take depth, depth⟩ : PrefixMatchIter N).turn =
        if lcp (pfx cur_node) (key.drop depth) ≠ (pfx cur_node).length then .ok none
        else do
          let next ← following cur_node key (depth + (pfx cur_node).length) (key.length - depth)
          return some ((value cur_node).map fun value => (key.take depth ++ pfx cur_node, value),
            ⟨next, key, key.take depth ++ pfx cur_node, depth + (pfx cur_node).length⟩) := by
      unfold turn
      dsimp only
      rw [length_at, usize_sub_eq_ok hdepth, ok_bind, prefix_length_key_eq_ok hdepth, ok_bind]
      rfl
    cases probe.meets (pfx cur_node) hdepth with
    | diverges hne hpfx =>
      rw [if_pos hne] at hturn
      rw [collect_of_none hturn, prefixes_of_diverging]
      intro hstarts
      have hboth : key.take depth ++ pfx cur_node <+: key.take depth ++ key.drop depth := by
        rw [hkey]
        exact hstarts
      exact hpfx ((List.prefix_append_right_inj _).1 hboth)
    | ends hpfx hlcp hend =>
      have hbase : key.take depth ++ pfx cur_node = key := by rw [← hpfx, hkey]
      rw [if_neg (not_not.2 hlcp), following, if_pos hend] at hturn
      rw [collect_of_some hturn (collect_of_none rfl), hbase, prefixes_of_ends hwf, List.append_nil]
      rfl
    | goes_on k rest hpfx hlcp hend hk hrest hdepth' =>
      have hbase : key.take depth ++ pfx cur_node ++ k :: rest = key := by
        rw [List.append_assoc, ← hpfx, hkey]
      have htake : key.take (depth + (pfx cur_node).length) = key.take depth ++ pfx cur_node := by
        rw [List.take_add, hpfx, List.take_left]
      have hchild := prefixes_of_child hwf (key.take depth ++ pfx cur_node) k rest
      rw [hbase] at hchild
      rw [if_neg (not_not.2 hlcp), following, if_neg hend, byte_at, hk, ok_bind] at hturn
      rw [hchild]
      cases hseek : seek_child cur_node k with
      | none =>
        rw [hseek] at hturn
        rw [hwf.seek_eq] at hseek
        rw [hseek]
        exact collect_of_some hturn (collect_of_none rfl)
      | some child =>
        have hrest := ih _ (rank_seek hseek) (hwf.child (hwf.child_of_seek hseek)) hdepth' rfl
        rw [hseek] at hturn
        rw [hwf.seek_eq] at hseek
        rw [htake] at hrest
        rw [hseek]
        exact collect_of_some hturn hrest

end PrefixMatchIter

/-- The iterator hands out all matches, shortest first. -/
theorem prefix_match_iter_k_spec {root : Option N} (hwf : ∀ r, root = some r → Wf r) (key : Bytes) :
    (prefix_match_iter_k root key).collect = .ok (prefixes_of key (root.elim [] entries)) := by
  cases root with
  | none => exact PrefixMatchIter.collect_of_none rfl
  | some root =>
    have hcollect := PrefixMatchIter.collect_from (hwf root rfl) (Nat.zero_le key.length)
    rw [List.take_zero, List.nil_append, entriesFrom_pfx] at hcollect
    exact hcollect

/-- The matches come from the shortest to the longest. -/
theorem prefixes_of_lengths {l : List (Bytes × V)} (h : Ascending l) (key : Bytes) :
    (prefixes_of key l).Pairwise fun e f => e.1.length < f.1.length := by
  have hsorted : Ascending (prefixes_of key l) := h.filter _
  refine hsorted.imp_of_mem ?_
  intro e f he hf hlt
  have hepfx := of_decide_eq_true (List.mem_filter.1 he).2
  have hfpfx := of_decide_eq_true (List.mem_filter.1 hf).2
  by_contra hnot
  obtain ⟨t, ht⟩ := List.prefix_of_prefix_length_le hfpfx hepfx (not_lt.1 hnot)
  have hle := le_append f.1 t
  rw [ht] at hle
  exact absurd hlt (not_lt.2 hle)

end Iterator

end rart.query
