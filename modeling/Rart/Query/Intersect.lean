import Rart.Query.Prefix

open SortedAssoc LexOrder
open rart.Trie rart.Node rart.iter

namespace rart.query

variable {N V A : Type} [Node N V]

/-- How a walk writes its scratch state: at each byte of its loop, after the loop, at an
edge, and when it goes back. -/
structure Scratch (A : Type) where
  push_byte : A → UInt8 → A
  push_matched : A → Bytes → A
  push_edge : A → UInt8 → A
  restore : A → A → A

/-- The `while` loop over both prefixes, and whether it met no difference. -/
def match_prefixes (push_byte : A → UInt8 → A) (left_pfx right_pfx : Bytes)
    (left_offset right_offset : Nat) (scratch : A) : Bool × Nat × Nat × A :=
  match _hleft : left_pfx[left_offset]?, right_pfx[right_offset]? with
  | some left_byte, some right_byte =>
    if left_byte ≠ right_byte then (false, left_offset, right_offset, scratch)
    else match_prefixes push_byte left_pfx right_pfx (left_offset + 1) (right_offset + 1)
      (push_byte scratch left_byte)
  | _, _ => (true, left_offset, right_offset, scratch)
termination_by left_pfx.length - left_offset
decreasing_by
  obtain ⟨hlt, _⟩ := List.getElem?_eq_some_iff.1 _hleft
  omega

/-- The pairs of children that the loop over the smaller node finds. -/
def child_pairs (left right : N) : List {p : N × N // rank p.1 + rank p.2 < rank left + rank right} :=
  if num_children left ≤ num_children right then
    (Node.iter left).attach.filterMap fun ⟨(edge, left_child), hmem⟩ =>
      match hseek : seek_child right edge with
      | some right_child =>
        some ⟨(left_child, right_child), Nat.add_lt_add (rank_iter hmem) (rank_seek hseek)⟩
      | none => none
  else
    (Node.iter right).attach.filterMap fun ⟨(edge, right_child), hmem⟩ =>
      match hseek : seek_child left edge with
      | some left_child =>
        some ⟨(left_child, right_child), Nat.add_lt_add (rank_seek hseek) (rank_iter hmem)⟩
      | none => none

/-- `if let (Some(left_value), Some(right_value)) = (left.value(), right.value())` -/
def own_match (left right : N) (cur : A) : List (A × V × V) :=
  match value left, value right with
  | some left_value, some right_value => [(cur, left_value, right_value)]
  | _, _ => []

/-- The calls of the walk over two nodes, and the scratch state that it leaves. -/
def intersect_nodes_loop (ops : Scratch A) (left : N) (left_offset : Nat) (right : N) (right_offset : Nat)
    (scratch : A) : List (A × V × V) × A :=
  match match_prefixes ops.push_byte (pfx left) (pfx right) left_offset right_offset scratch with
  | (false, _, _, cur) => ([], ops.restore scratch cur)
  | (true, left_stop, right_stop, cur) =>
    let cur := ops.push_matched cur (((pfx left).drop left_offset).take (left_stop - left_offset))
    match (pfx left)[left_stop]? with
    | some edge =>
      if is_leaf right then ([], ops.restore scratch cur)
      else match _hseek : seek_child right edge with
        | none => ([], ops.restore scratch cur)
        | some right_child =>
          let walk := intersect_nodes_loop ops left (left_stop + 1) right_child 1 (ops.push_edge cur edge)
          (walk.1, ops.restore scratch walk.2)
    | none =>
      match (pfx right)[right_stop]? with
      | some edge =>
        if is_leaf left then ([], ops.restore scratch cur)
        else match _hseek : seek_child left edge with
          | none => ([], ops.restore scratch cur)
          | some left_child =>
            let walk := intersect_nodes_loop ops left_child 1 right (right_stop + 1) (ops.push_edge cur edge)
            (walk.1, ops.restore scratch walk.2)
      | none =>
        let first := own_match left right cur
        if is_leaf left = false ∧ is_leaf right = false then
          let found := (child_pairs left right).foldl (fun found p =>
            let walk := intersect_nodes_loop ops p.1.1 0 p.1.2 0 found.2
            (found.1 ++ walk.1, walk.2)) (first, cur)
          (found.1, ops.restore scratch found.2)
        else (first, ops.restore scratch cur)
termination_by rank left + rank right
decreasing_by
  · exact Nat.add_lt_add_left (rank_seek _hseek) _
  · exact Nat.add_lt_add_right (rank_seek _hseek) _
  · exact p.2

/-- The keys as one buffer of bytes. -/
def key_buf : Scratch Bytes where
  push_byte key_buf byte := key_buf ++ [byte]
  push_matched key_buf _ := key_buf
  push_edge key_buf edge := key_buf ++ [edge]
  restore saved key_buf := key_buf.take saved.length

/-- The keys as borrowed segments. -/
def key_segments : Scratch LendingKeyView where
  push_byte view _ := view
  push_matched := push_segment
  push_edge view edge := ⟨view.segments ++ [[edge]], view.len + 1⟩
  restore saved view := ⟨view.segments.take saved.segments.length, saved.len⟩

/-- No keys at all. -/
def no_scratch : Scratch Unit where
  push_byte _ _ := ()
  push_matched _ _ := ()
  push_edge _ _ := ()
  restore _ _ := ()

/-- The walk that builds keys. -/
def intersect_nodes (left : N) (left_offset : Nat) (right : N) (right_offset : Nat) (buf : Bytes) :
    List (Bytes × V × V) × Bytes := intersect_nodes_loop key_buf left left_offset right right_offset buf

/-- The walk that lends views of keys. -/
def intersect_nodes_lending (left : N) (left_offset : Nat) (right : N) (right_offset : Nat)
    (view : LendingKeyView) : List (LendingKeyView × V × V) × LendingKeyView :=
  intersect_nodes_loop key_segments left left_offset right right_offset view

/-- The walk that looks at values only. -/
def intersect_nodes_values (left : N) (left_offset : Nat) (right : N) (right_offset : Nat) : List (V × V) :=
  (intersect_nodes_loop no_scratch left left_offset right right_offset ()).1.map Prod.snd

/-- The calls that `intersect_with` makes. -/
def intersect_with (root other : Option N) : List (Bytes × V × V) :=
  match root, other with
  | some left_root, some right_root => (intersect_nodes left_root 0 right_root 0 []).1
  | _, _ => []

/-- The calls that `intersect_lending_with` makes. -/
def intersect_lending_with (root other : Option N) : List (LendingKeyView × V × V) :=
  match root, other with
  | some left_root, some right_root => (intersect_nodes_lending left_root 0 right_root 0 ⟨[], 0⟩).1
  | _, _ => []

/-- The calls that `intersect_values_with` makes. -/
def intersect_values_with (root other : Option N) : List (V × V) :=
  match root, other with
  | some left_root, some right_root => intersect_nodes_values left_root 0 right_root 0
  | _, _ => []

/-- The number of calls that the value walk makes. -/
def intersect_count (root other : Option N) : Nat :=
  (intersect_values_with root other).foldl (fun count _ => count + 1) 0

section Common

/-- The entries of a list that a lookup also finds, with both values. -/
def common (l : List (Bytes × V)) (get : Bytes → Option V) : List (Bytes × V × V) :=
  l.filterMap fun e => (get e.1).map fun w => (e.1, e.2, w)

/-- Entries of two trees with what stands before their keys. -/
def underBoth (base : Bytes) (l : List (Bytes × V × V)) : List (Bytes × V × V) :=
  l.map fun e => (base ++ e.1, e.2)

omit [Node N V] in
/-- Common entries, list by list. -/
theorem common_append (l m : List (Bytes × V)) (get : Bytes → Option V) :
    common (l ++ m) get = common l get ++ common m get := List.filterMap_append

omit [Node N V] in
/-- Common entries below a shared prefix. -/
theorem common_under (base : Bytes) (l : List (Bytes × V)) (get : Bytes → Option V) :
    common (under base l) get = underBoth base (common l fun key => get (base ++ key)) := by
  unfold common under underBoth
  rw [List.filterMap_map, List.map_filterMap]
  refine List.filterMap_congr fun e _ => ?_
  simp only [Function.comp, Option.map_map]
  rfl

omit [Node N V] in
/-- Only the keys of the list are looked up. -/
theorem common_congr {l : List (Bytes × V)} {get : Bytes → Option V} (get' : Bytes → Option V)
    (h : ∀ e ∈ l, get e.1 = get' e.1) : common l get = common l get' :=
  List.filterMap_congr fun e he => by rw [h e he]

omit [Node N V] in
/-- No key of the list is found. -/
theorem common_eq_nil {l : List (Bytes × V)} {get : Bytes → Option V} (h : ∀ e ∈ l, get e.1 = none) :
    common l get = [] := by
  unfold common
  rw [List.filterMap_eq_nil_iff]
  intro e he
  rw [h e he]
  rfl

omit [Node N V] in
/-- Only the entries that the lookup finds matter. -/
theorem common_filter (l : List (Bytes × V)) (get : Bytes → Option V) :
    common l get = common (l.filter fun e => (get e.1).isSome) get := by
  unfold common
  rw [List.filterMap_filter]
  refine List.filterMap_congr fun e _ => ?_
  cases get e.1 <;> rfl

omit [Node N V] in
/-- Common entries, list by list. -/
theorem common_flatMap {α : Type} (l : List α) (f : α → List (Bytes × V)) (get : Bytes → Option V) :
    common (l.flatMap f) get = l.flatMap fun a => common (f a) get := by
  unfold common
  rw [List.filterMap_flatMap]

/-- Two nodes whose remaining prefixes differ have no key in common. -/
theorem common_diverging {left right : N} {c s t : Bytes} {a b : UInt8} (hne : a ≠ b) :
    common (entriesFrom (c ++ a :: s) left) (findFrom (c ++ b :: t) right) = [] := by
  apply common_eq_nil
  intro e he
  apply findFrom_eq_none
  intro hpfx
  obtain ⟨x, hx⟩ := key_of_entriesFrom he
  obtain ⟨y, hy⟩ := hpfx
  rw [← hx, List.append_assoc, List.append_assoc, List.append_cancel_left_eq] at hy
  exact hne (List.cons.inj hy).1.symm

/-- Behind its edge, a child is found by what is left of its prefix. -/
theorem find_child {n : N} (hwf : Wf n) {k : UInt8} {c : N} (hlookup : (Node.iter n).lookup k = some c)
    (key : Bytes) : find c (k :: key) = findFrom ((pfx c).drop 1) c key := by
  have happend := findFrom_append [k] ((pfx c).drop 1) c key
  rw [List.singleton_append, List.singleton_append, ← hwf.pfx_of_lookup hlookup, findFrom_pfx] at happend
  exact happend

/-- Where the left node's prefix is longer, the walk goes down on the right. -/
theorem common_right_child {left right : N} (hright : Wf right) (c s : Bytes) (a : UInt8) :
    common (entriesFrom (c ++ a :: s) left) (findFrom c right) =
      ((Node.iter right).lookup a).elim [] fun child =>
        underBoth (c ++ [a]) (common (entriesFrom s left) (findFrom ((pfx child).drop 1) child)) := by
  have hentries : entriesFrom (c ++ a :: s) left = under (c ++ [a]) (entriesFrom s left) := by
    rw [← entriesFrom_append, List.append_assoc]
    rfl
  have hget : ∀ key, findFrom c right (c ++ [a] ++ key) =
      ((Node.iter right).lookup a).bind fun child => findFrom ((pfx child).drop 1) child key := by
    intro key
    rw [List.append_assoc, findFrom_self, List.singleton_append, lookupBelow]
    cases hlookup : (Node.iter right).lookup a with
    | none => rfl
    | some child => exact find_child hright hlookup key
  rw [hentries, common_under]
  simp only [hget]
  cases (Node.iter right).lookup a with
  | none =>
    rw [Option.elim_none, common_eq_nil fun e _ => rfl]
    rfl
  | some child => rfl

/-- Where the right node's prefix is longer, the walk goes down on the left. -/
theorem common_left_child {left right : N} (hleft : Wf left) (c t : Bytes) (b : UInt8) :
    common (entriesFrom c left) (findFrom (c ++ b :: t) right) =
      ((Node.iter left).lookup b).elim [] fun child =>
        underBoth (c ++ [b]) (common (entriesFrom ((pfx child).drop 1) child) (findFrom t right)) := by
  have hown : common ((value left).map fun v => (c, v)).toList (findFrom (c ++ b :: t) right) = [] := by
    apply common_eq_nil
    intro e he
    obtain ⟨v, _, rfl⟩ := Option.map_eq_some_iff.1 (Option.mem_toList.1 he)
    apply findFrom_eq_none
    intro hpfx
    have hlen := hpfx.length_le
    simp only [List.length_append, List.length_cons] at hlen
    omega
  have hbelow : ∀ key, findFrom (c ++ b :: t) right (c ++ key) = findFrom (b :: t) right key :=
    findFrom_append c (b :: t) right
  have hone := hleft.filter_childEntries (k := b) (P := fun key => (findFrom (b :: t) right key).isSome) (by
    intro e _ hsome
    by_contra hnot
    rw [findFrom_eq_none] at hsome
    · cases hsome
    · rintro ⟨x, hx⟩
      rw [← hx] at hnot
      exact hnot rfl)
  rw [entriesFrom, common_append, hown, List.nil_append, common_under]
  simp only [hbelow]
  rw [common_filter, hone]
  cases hlookup : (Node.iter left).lookup b with
  | none => rfl
  | some child =>
    have hentries : entries child = under [b] (entriesFrom ((pfx child).drop 1) child) := by
      rw [← entriesFrom_append, List.singleton_append, ← hleft.pfx_of_lookup hlookup, entriesFrom_pfx]
    have hget : ∀ key, findFrom (b :: t) right ([b] ++ key) = findFrom t right key :=
      findFrom_append [b] t right
    rw [Option.elim_some, Option.elim_some, ← common_filter, hentries, common_under]
    simp only [hget]
    unfold underBoth
    rw [List.map_map]
    refine List.map_congr_left fun e _ => ?_
    simp [List.append_assoc]

/-- The children of the smaller node are looked up in the other one. -/
theorem flatMap_child_pairs (left right : N) (f : N → N → List (Bytes × V × V)) :
    ((child_pairs left right).flatMap fun p => f p.1.1 p.1.2) =
      if num_children left ≤ num_children right then
        (Node.iter left).flatMap fun p => (seek_child right p.1).elim [] fun c => f p.2 c
      else (Node.iter right).flatMap fun p => (seek_child left p.1).elim [] fun c => f c p.2 := by
  unfold child_pairs
  split
  · rw [flatMap_filterMap]
    refine flatMap_attach fun p => ?_
    obtain ⟨⟨edge, left_child⟩, hmem⟩ := p
    dsimp only
    split <;> rename_i hseek <;> simp only [Option.elim_some, Option.elim_none, hseek]
  · rw [flatMap_filterMap]
    refine flatMap_attach fun p => ?_
    obtain ⟨⟨edge, right_child⟩, hmem⟩ := p
    dsimp only
    split <;> rename_i hseek <;> simp only [Option.elim_some, Option.elim_none, hseek]

/-- The nodes of a pair are children of the two nodes. -/
theorem wf_of_child_pairs {left right : N} (hleft : Wf left) (hright : Wf right)
    {p : {p : N × N // rank p.1 + rank p.2 < rank left + rank right}} (hp : p ∈ child_pairs left right) :
    Wf p.1.1 ∧ Wf p.1.2 := by
  unfold child_pairs at hp
  split at hp
  · obtain ⟨⟨⟨edge, left_child⟩, hmem⟩, _, hp⟩ := List.mem_filterMap.1 hp
    dsimp only at hp
    split at hp
    · rename_i hseek
      cases hp
      exact ⟨hleft.child hmem, hright.child (hright.child_of_seek hseek)⟩
    · cases hp
  · obtain ⟨⟨⟨edge, right_child⟩, hmem⟩, _, hp⟩ := List.mem_filterMap.1 hp
    dsimp only at hp
    split at hp
    · rename_i hseek
      cases hp
      exact ⟨hleft.child (hleft.child_of_seek hseek), hright.child hmem⟩
    · cases hp

/-- Where both prefixes end, the walk goes down on both sides at once. -/
theorem common_children {left right : N} (hleft : Wf left) (hright : Wf right) :
    common (childEntries (Node.iter left)) (lookupBelow (value right) (Node.iter right)) =
      (child_pairs left right).flatMap fun p => common (entries p.1.1) (find p.1.2) := by
  have hchildren : common (childEntries (Node.iter left)) (lookupBelow (value right) (Node.iter right)) =
      (Node.iter left).flatMap fun p => ((Node.iter right).lookup p.1).elim [] fun c =>
        common (entries p.2) (find c) := by
    unfold childEntries
    rw [common_flatMap]
    refine List.flatMap_congr fun p hp => ?_
    rw [common_congr (fun key => ((Node.iter right).lookup p.1).bind fun c => find c key) (by
      intro e he
      obtain ⟨rest, hrest⟩ := hleft.key_of_child hp he
      rw [hrest]
      rfl)]
    cases (Node.iter right).lookup p.1 with
    | none => exact common_eq_nil fun e _ => rfl
    | some c => rfl
  rw [hchildren, flatMap_child_pairs left right fun l r => common (entries l) (find r)]
  simp only [hleft.seek_eq, hright.seek_eq]
  split
  · rfl
  · exact join_comm hleft.ascending hright.ascending fun _ l r => common (entries l) (find r)

end Common

section Specs

/-- What a scratch state has to do with the bytes that were pushed on it: read, it shows
a key, and what was pushed since a state can be taken back. -/
structure Scratch.Shows {T : Type} (ops : Scratch A) (Extends : A → A → Prop) (read : A → T)
    (shows : Bytes → T) : Prop where
  extends_refl : ∀ a, Extends a a
  extends_byte : ∀ {a b : A} (byte : UInt8), Extends a b → Extends a (ops.push_byte b byte)
  extends_matched : ∀ {a b : A} (matched : Bytes), Extends a b → Extends a (ops.push_matched b matched)
  extends_edge : ∀ {a b : A} (edge : UInt8), Extends a b → Extends a (ops.push_edge b edge)
  restore_eq : ∀ {a b : A}, Extends a b → ops.restore a b = a
  read_matched : ∀ {a : A} {key : Bytes} (matched : Bytes), read a = shows key →
    read (ops.push_matched (matched.foldl ops.push_byte a) matched) = shows (key ++ matched)
  read_edge : ∀ {a : A} {key : Bytes} (edge : UInt8), read a = shows key →
    read (ops.push_edge a edge) = shows (key ++ [edge])

section Loop

variable (push_byte : A → UInt8 → A) {left_pfx right_pfx : Bytes} {left_offset right_offset : Nat}

/-- One byte on each side. -/
theorem match_prefixes_step {left_byte right_byte : UInt8} (hleft : left_pfx[left_offset]? = some left_byte)
    (hright : right_pfx[right_offset]? = some right_byte) (scratch : A) :
    match_prefixes push_byte left_pfx right_pfx left_offset right_offset scratch =
      if left_byte ≠ right_byte then (false, left_offset, right_offset, scratch)
      else match_prefixes push_byte left_pfx right_pfx (left_offset + 1) (right_offset + 1)
        (push_byte scratch left_byte) := by
  rw [match_prefixes]
  split
  · rename_i hleft' hright'
    rw [hleft] at hleft'
    rw [hright] at hright'
    cases hleft'
    cases hright'
    rfl
  · rename_i hnone
    exact absurd hright (hnone _ _ hleft)

/-- One of the prefixes ends. -/
theorem match_prefixes_end (hend : left_pfx[left_offset]? = none ∨ right_pfx[right_offset]? = none)
    (scratch : A) : match_prefixes push_byte left_pfx right_pfx left_offset right_offset scratch =
      (true, left_offset, right_offset, scratch) := by
  rw [match_prefixes]
  split
  · rename_i hleft hright
    rw [hleft, hright] at hend
    cases hend <;> contradiction
  · rfl

/-- The loop over two prefixes runs along what they share. -/
theorem match_prefixes_spec {c s t : Bytes} (hleft : left_pfx.drop left_offset = c ++ s)
    (hright : right_pfx.drop right_offset = c ++ t) (hdiff : ∀ a ∈ s.head?, ∀ b ∈ t.head?, a ≠ b)
    (scratch : A) :
    match_prefixes push_byte left_pfx right_pfx left_offset right_offset scratch =
      (s.isEmpty || t.isEmpty, left_offset + c.length, right_offset + c.length, c.foldl push_byte scratch) := by
  have hleft' := List.head?_drop (l := left_pfx) (i := left_offset)
  have hright' := List.head?_drop (l := right_pfx) (i := right_offset)
  rw [hleft] at hleft'
  rw [hright] at hright'
  induction c generalizing left_offset right_offset scratch with
  | nil =>
    rw [List.nil_append] at hleft' hright'
    cases s with
    | nil => exact match_prefixes_end push_byte (Or.inl hleft'.symm) scratch
    | cons a s =>
      cases t with
      | nil => exact match_prefixes_end push_byte (Or.inr hright'.symm) scratch
      | cons b t =>
        rw [match_prefixes_step push_byte hleft'.symm hright'.symm, if_pos (hdiff a rfl b rfl)]
        rfl
  | cons a c ih =>
    have hdrop : ∀ {l : Bytes} {i : Nat} {u : Bytes}, l.drop i = a :: u → l.drop (i + 1) = u := by
      intro l i u h
      rw [← List.drop_drop, h]
      rfl
    have hnext : left_pfx.drop (left_offset + 1) = c ++ s := hdrop hleft
    have hnext' : right_pfx.drop (right_offset + 1) = c ++ t := hdrop hright
    rw [match_prefixes_step push_byte hleft'.symm hright'.symm, if_neg (fun hne => hne rfl),
      ih hnext hnext' (push_byte scratch a) (by rw [← hnext, List.head?_drop])
        (by rw [← hnext', List.head?_drop]), List.foldl_cons, List.length_cons]
    have hoff : ∀ i : Nat, i + 1 + c.length = i + (c.length + 1) := by
      intro i
      omega
    rw [hoff, hoff]

end Loop

variable {T : Type} {ops : Scratch A} {Extends : A → A → Prop} {read : A → T} {shows : Bytes → T}

/-- A call, read. -/
def readCall (read : A → T) (call : A × V × V) : T × V × V := (read call.1, call.2)

/-- The calls that a walk owes for some shared entries. -/
def owed (shows : Bytes → T) (key : Bytes) (l : List (Bytes × V × V)) : List (T × V × V) :=
  l.map fun e => (shows (key ++ e.1), e.2)

omit [Node N V] in
/-- Calls that are owed, list by list. -/
theorem owed_append (key : Bytes) (l m : List (Bytes × V × V)) :
    owed shows key (l ++ m) = owed shows key l ++ owed shows key m := List.map_append

omit [Node N V] in
/-- A shared prefix is in every key that is shown. -/
theorem owed_underBoth (key base : Bytes) (l : List (Bytes × V × V)) :
    owed shows key (underBoth base l) = owed shows (key ++ base) l := by
  unfold owed underBoth
  rw [List.map_map]
  refine List.map_congr_left fun e _ => ?_
  simp only [Function.comp, List.append_assoc]

/-- A walk that calls back for `l` and leaves its scratch state as it found it. -/
def Walks (read : A → T) (shows : Bytes → T) (key : Bytes) (scratch : A) (walk : List (A × V × V) × A)
    (l : List (Bytes × V × V)) : Prop :=
  walk.2 = scratch ∧ walk.1.map (readCall read) = owed shows key l

omit [Node N V] in
/-- The loop over the pairs of children does what the walks over the pairs do. -/
theorem walks_foldl {α : Type} {key : Bytes} {cur : A} (walk : α → A → List (A × V × V) × A)
    (expected : α → List (Bytes × V × V)) (pairs : List α)
    (hwalk : ∀ p ∈ pairs, Walks read shows key cur (walk p cur) (expected p)) (first : List (A × V × V)) :
    ∃ calls, pairs.foldl (fun found p => (found.1 ++ (walk p found.2).1, (walk p found.2).2)) (first, cur) =
        (first ++ calls, cur) ∧
      calls.map (readCall read) = owed shows key (pairs.flatMap expected) := by
  induction pairs generalizing first with
  | nil => exact ⟨[], by simp, rfl⟩
  | cons p pairs ih =>
    obtain ⟨hcur, hcalls⟩ := hwalk p List.mem_cons_self
    obtain ⟨calls, hfold, hmap⟩ := ih (fun q hq => hwalk q (List.mem_cons_of_mem _ hq)) (first ++ (walk p cur).1)
    refine ⟨(walk p cur).1 ++ calls, ?_, ?_⟩
    · rw [List.foldl_cons]
      dsimp only
      rw [hcur, hfold, List.append_assoc]
    · rw [List.map_append, hcalls, hmap, List.flatMap_cons, owed_append]

/-- Pushing bytes one by one extends what was there. -/
theorem Scratch.Shows.extends_foldl (h : ops.Shows Extends read shows) {a b : A} (hext : Extends a b)
    (c : Bytes) : Extends a (c.foldl ops.push_byte b) := by
  induction c generalizing b with
  | nil => exact hext
  | cons byte c ih => exact ih (h.extends_byte byte hext)

/-- Where both prefixes end, the entries in common are the nodes' own and those of
their children. -/
theorem common_entriesFrom (left right : N) (c : Bytes) :
    common (entriesFrom c left) (findFrom c right) =
      (own_match left right c) ++
        underBoth c (common (childEntries (Node.iter left)) (lookupBelow (value right) (Node.iter right))) := by
  have hself := fun key => findFrom_self c right key
  have hnil := hself []
  rw [List.append_nil] at hnil
  rw [entriesFrom, common_append, common_under]
  simp only [hself]
  congr 1
  unfold own_match common
  cases value left with
  | none => rfl
  | some v =>
    simp only [Option.map_some, Option.toList_some, List.filterMap_cons, List.filterMap_nil, hnil, lookupBelow]
    cases value right <;> rfl

/-- The call for the values of the nodes themselves. -/
theorem owed_own_match (left right : N) {key : Bytes} {cur : A} (c : Bytes) (hcur : read cur = shows (key ++ c)) :
    (own_match left right cur).map (readCall read) = owed shows key (own_match left right c) := by
  unfold own_match owed readCall
  cases value left with
  | none => rfl
  | some v =>
    cases value right with
    | none => rfl
    | some w => simp [hcur]

/-- A leaf has no child to pair. -/
theorem child_pairs_leaf {left right : N} (hleft : Wf left) (hright : Wf right)
    (hleaf : ¬ (is_leaf left = false ∧ is_leaf right = false)) :
    (child_pairs left right).flatMap (fun p => common (entries p.1.1) (find p.1.2)) = [] := by
  rw [← common_children hleft hright]
  cases hleafl : is_leaf left with
  | true =>
    rw [iter_leaf hleft.layout hleafl]
    rfl
  | false =>
    have hleafr : is_leaf right = true := by simpa [hleafl] using hleaf
    rw [iter_leaf hright.layout hleafr]
    apply common_eq_nil
    intro e he
    obtain ⟨p, hp, he⟩ := mem_childEntries.1 he
    obtain ⟨rest, hrest⟩ := hleft.key_of_child hp he
    rw [hrest]
    rfl

/-- The walk calls back for the entries that both nodes have, and leaves its scratch
state as it found it. -/
theorem Scratch.Shows.intersect (h : ops.Shows Extends read shows) {left right : N} (hleft : Wf left)
    (hright : Wf right) (left_offset right_offset : Nat) {scratch : A} {key : Bytes}
    (hread : read scratch = shows key) :
    Walks read shows key scratch
      (intersect_nodes_loop ops left left_offset right right_offset scratch)
      (common (entriesFrom ((pfx left).drop left_offset) left)
        (findFrom ((pfx right).drop right_offset) right)) := by
  induction hn : rank left + rank right using Nat.strongRecOn generalizing left right left_offset
    right_offset scratch key with
  | ind n ih =>
    subst hn
    obtain ⟨c, s, t, hs, ht, _, hdiff⟩ := lcp_split ((pfx left).drop left_offset) ((pfx right).drop right_offset)
    have hloop := match_prefixes_spec ops.push_byte hs ht hdiff scratch
    have hleftdrop : (pfx left).drop (left_offset + c.length) = s := by
      rw [← List.drop_drop, hs, List.drop_left]
    have hrightdrop : (pfx right).drop (right_offset + c.length) = t := by
      rw [← List.drop_drop, ht, List.drop_left]
    have hleftat : (pfx left)[left_offset + c.length]? = s.head? := by rw [← List.head?_drop, hleftdrop]
    have hrightat : (pfx right)[right_offset + c.length]? = t.head? := by rw [← List.head?_drop, hrightdrop]
    have hmatched : (c ++ s).take (left_offset + c.length - left_offset) = c := by
      rw [Nat.add_sub_cancel_left, List.take_left]
    have hext₀ := h.extends_foldl (h.extends_refl scratch) c
    have hext := h.extends_matched c hext₀
    have hcur := h.read_matched c hread
    rw [intersect_nodes_loop, hloop, hs, ht]
    generalize c.foldl ops.push_byte scratch = cur₀ at hext₀ hext hcur ⊢
    cases s with
    | cons a s =>
      cases t with
      | cons b t =>
        rw [common_diverging (hdiff a rfl b rfl)]
        exact ⟨h.restore_eq hext₀, rfl⟩
      | nil =>
        -- the left prefix goes on, so the walk goes down on the right
        have hdrop : (pfx left).drop (left_offset + c.length + 1) = s := by
          rw [← List.drop_drop, hleftdrop]
          rfl
        simp only [List.isEmpty_cons, List.isEmpty_nil, Bool.or_true, hmatched, hleftat, List.head?_cons]
        rw [List.append_nil, common_right_child hright c s a]
        split
        · rename_i hleaf
          rw [iter_leaf hright.layout hleaf]
          exact ⟨h.restore_eq hext, rfl⟩
        · split
          · rename_i hseek
            rw [hright.seek_eq] at hseek
            rw [hseek]
            exact ⟨h.restore_eq hext, rfl⟩
          · rename_i right_child hseek
            have hlookup := hseek
            rw [hright.seek_eq] at hlookup
            have hchild : Wf right_child := hright.child (hright.child_of_seek hseek)
            obtain ⟨hback, hcalls⟩ := ih _ (Nat.add_lt_add_left (rank_seek hseek) _) hleft hchild
              (left_offset + c.length + 1) 1
              (h.read_edge a hcur) rfl
            rw [hlookup, Option.elim_some]
            refine ⟨?_, ?_⟩
            · rw [hback]
              exact h.restore_eq (h.extends_edge a hext)
            · rw [hcalls, hdrop, owed_underBoth, List.append_assoc]
    | nil =>
      cases t with
      | cons b t =>
        -- the right prefix goes on, so the walk goes down on the left
        have hdrop : (pfx right).drop (right_offset + c.length + 1) = t := by
          rw [← List.drop_drop, hrightdrop]
          rfl
        simp only [List.isEmpty_nil, Bool.true_or, hmatched, hleftat, hrightat, List.head?_nil,
          List.head?_cons]
        rw [List.append_nil, common_left_child hleft c t b]
        split
        · rename_i hleaf
          rw [iter_leaf hleft.layout hleaf]
          exact ⟨h.restore_eq hext, rfl⟩
        · split
          · rename_i hseek
            rw [hleft.seek_eq] at hseek
            rw [hseek]
            exact ⟨h.restore_eq hext, rfl⟩
          · rename_i left_child hseek
            have hlookup := hseek
            rw [hleft.seek_eq] at hlookup
            have hchild : Wf left_child := hleft.child (hleft.child_of_seek hseek)
            obtain ⟨hback, hcalls⟩ := ih _ (Nat.add_lt_add_right (rank_seek hseek) _) hchild hright 1
              (right_offset + c.length + 1)
              (h.read_edge b hcur) rfl
            rw [hlookup, Option.elim_some]
            refine ⟨?_, ?_⟩
            · rw [hback]
              exact h.restore_eq (h.extends_edge b hext)
            · rw [hcalls, hdrop, owed_underBoth, List.append_assoc]
      | nil =>
        simp only [List.isEmpty_nil, Bool.true_or, hmatched, hleftat, hrightat, List.head?_nil]
        rw [List.append_nil, common_entriesFrom, common_children hleft hright]
        unfold Walks
        rw [owed_append, ← owed_own_match left right c hcur]
        split
        · have hpairs : ∀ p ∈ child_pairs left right, Walks read shows (key ++ c) (ops.push_matched cur₀ c)
              (intersect_nodes_loop ops p.1.1 0 p.1.2 0 (ops.push_matched cur₀ c))
              (common (entries p.1.1) (find p.1.2)) := by
            intro p hp
            obtain ⟨hleft', hright'⟩ := wf_of_child_pairs hleft hright hp
            have hwalk := ih _ p.2 hleft' hright' 0 0 hcur rfl
            rw [List.drop_zero, List.drop_zero, entriesFrom_pfx, funext (findFrom_pfx p.1.2)] at hwalk
            exact hwalk
          obtain ⟨calls, hfold, hcalls⟩ := walks_foldl
            (fun p cur => intersect_nodes_loop ops p.1.1 0 p.1.2 0 cur)
            (fun p => common (entries p.1.1) (find p.1.2)) (child_pairs left right) hpairs
            (own_match left right (ops.push_matched cur₀ c))
          rw [hfold]
          refine ⟨h.restore_eq hext, ?_⟩
          rw [List.map_append, hcalls, owed_underBoth]
        · rename_i hleaf
          rw [child_pairs_leaf hleft hright hleaf]
          exact ⟨h.restore_eq hext, (List.append_nil _).symm⟩

/-- The walk from two roots. -/
theorem Scratch.Shows.intersect_roots (h : ops.Shows Extends read shows) {left right : N} (hleft : Wf left)
    (hright : Wf right) (scratch : A) (hread : read scratch = shows []) :
    (intersect_nodes_loop ops left 0 right 0 scratch).1.map (readCall read) =
      owed shows [] (common (entries left) (find right)) := by
  have hwalk := h.intersect hleft hright 0 0 hread
  rw [List.drop_zero, List.drop_zero, entriesFrom_pfx, funext (findFrom_pfx right)] at hwalk
  exact hwalk.2

end Specs

section Results

/-- A buffer shows the bytes that were pushed. -/
theorem key_buf_shows : key_buf.Shows (fun a b => a <+: b) (fun buf => buf) (fun key => key) where
  extends_refl a := List.prefix_refl a
  extends_byte _ h := h.trans (List.prefix_append _ _)
  extends_matched _ h := h
  extends_edge _ h := h.trans (List.prefix_append _ _)
  restore_eq := by
    rintro a b ⟨t, rfl⟩
    exact List.take_left
  read_matched := by
    rintro a key matched rfl
    change matched.foldl (fun buf byte => buf ++ [byte]) a = a ++ matched
    induction matched generalizing a with
    | nil => exact (List.append_nil a).symm
    | cons byte matched ih =>
      rw [List.foldl_cons, ih, List.append_assoc]
      rfl
  read_edge _ h := by
    subst h
    rfl

/-- What a view shows: its bytes and their number. -/
def LendingKeyView.bytes (view : LendingKeyView) : Bytes × Nat := (view.to_vec, view.len)

/-- A view shows its segments, and their length. -/
theorem key_segments_shows : key_segments.Shows (fun a b => a.segments <+: b.segments)
    LendingKeyView.bytes (fun key => (key, key.length)) where
  extends_refl a := List.prefix_refl _
  extends_byte _ h := h
  extends_matched matched h := by
    change _ <+: (push_segment _ matched).segments
    unfold push_segment
    split
    · exact h.trans (List.prefix_append _ _)
    · exact h
  extends_edge _ h := h.trans (List.prefix_append _ _)
  restore_eq := by
    rintro ⟨segments, len⟩ ⟨segments', len'⟩ ⟨t, ht⟩
    dsimp only at ht
    subst ht
    change (⟨_, _⟩ : LendingKeyView) = _
    rw [List.take_left]
  read_matched := by
    intro view key matched h
    have hsame : matched.foldl key_segments.push_byte view = view := by
      induction matched with
      | nil => rfl
      | cons byte matched ih => exact ih
    rw [hsame]
    obtain ⟨hvec, hlen⟩ := Prod.mk.inj h
    rw [LendingKeyView.to_vec_eq] at hvec
    obtain ⟨hflat, hlen'⟩ := viewsKey_push_segment view key matched ⟨hvec, hlen⟩
    change (LendingKeyView.to_vec (push_segment view matched), (push_segment view matched).len) = _
    rw [LendingKeyView.to_vec_eq, hflat, hlen']
  read_edge := by
    intro view key edge h
    obtain ⟨hvec, hlen⟩ := Prod.mk.inj h
    rw [LendingKeyView.to_vec_eq] at hvec
    change (LendingKeyView.to_vec ⟨view.segments ++ [[edge]], view.len + 1⟩, view.len + 1) = _
    rw [LendingKeyView.to_vec_eq, hlen]
    simp [hvec]

/-- Nothing is shown. -/
theorem no_scratch_shows : no_scratch.Shows (fun _ _ => True) (fun u => u) (fun _ => ()) where
  extends_refl _ := trivial
  extends_byte _ _ := trivial
  extends_matched _ _ := trivial
  extends_edge _ _ := trivial
  restore_eq _ := rfl
  read_matched _ _ := rfl
  read_edge _ _ := rfl

/-- The value under a key in a tree. -/
def lookup (root : Option N) (key : Bytes) : Option V := root.bind fun n => find n key

variable {root other : Option N} (hroot : ∀ r, root = some r → Wf r) (hother : ∀ r, other = some r → Wf r)

omit hroot hother in
/-- An empty tree has nothing in common. -/
theorem common_none_right (l : List (Bytes × V)) : common l (lookup (none : Option N)) = [] :=
  common_eq_nil fun _ _ => rfl

include hroot hother

/-- `intersect_with` calls back for the keys of both trees, in order. -/
theorem intersect_with_spec :
    intersect_with root other = common (root.elim [] entries) (lookup other) := by
  cases root with
  | none => rfl
  | some left =>
    cases other with
    | none => exact (common_none_right _).symm
    | some right =>
      have hwalk := key_buf_shows.intersect_roots (hroot left rfl) (hother right rfl) [] rfl
      have hread : ∀ l : List (Bytes × V × V), l.map (readCall fun buf => buf) = l := fun l => List.map_id l
      have howed : ∀ l : List (Bytes × V × V), owed (fun key => key) [] l = l := fun l => List.map_id l
      rw [hread, howed] at hwalk
      exact hwalk

/-- The calls show the common entries, as views. -/
theorem intersect_lending_with_spec :
    (intersect_lending_with root other).map (readCall LendingKeyView.bytes) =
      (common (root.elim [] entries) (lookup other)).map fun e => ((e.1, e.1.length), e.2) := by
  cases root with
  | none => rfl
  | some left =>
    cases other with
    | none =>
      rw [common_none_right]
      rfl
    | some right =>
      exact key_segments_shows.intersect_roots (hroot left rfl) (hother right rfl) ⟨[], 0⟩ rfl

/-- The calls show the values of the common entries. -/
theorem intersect_values_with_spec :
    intersect_values_with root other = (common (root.elim [] entries) (lookup other)).map Prod.snd := by
  cases root with
  | none => rfl
  | some left =>
    cases other with
    | none =>
      rw [common_none_right]
      rfl
    | some right =>
      have hwalk := congrArg (List.map Prod.snd)
        (no_scratch_shows.intersect_roots (hroot left rfl) (hother right rfl) () rfl)
      unfold readCall owed at hwalk
      rw [List.map_map, List.map_map] at hwalk
      exact hwalk

/-- The common entries are counted. -/
theorem intersect_count_spec :
    intersect_count root other = (common (root.elim [] entries) (lookup other)).length := by
  have hcount : ∀ (l : List (V × V)) (n : Nat), l.foldl (fun count _ => count + 1) n = n + l.length := by
    intro l
    induction l with
    | nil => exact fun n => rfl
    | cons p l ih =>
      intro n
      rw [List.foldl_cons, ih, List.length_cons]
      omega
  unfold intersect_count
  rw [hcount, intersect_values_with_spec hroot hother, List.length_map, Nat.zero_add]

end Results

end rart.query
