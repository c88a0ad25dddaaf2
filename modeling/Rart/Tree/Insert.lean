import Rart.Tree.Nodes

open SortedAssoc LexOrder
open rart.node rart.partials rart.utils rart.Trie

namespace rart.tree

variable {V : Type}

/-- What an insertion did, to keep the count by. -/
inductive InsertRecurseResult (V : Type) where
  | Inserted
  | Replaced (old : V)
  | Occupied (value current : V)
deriving DecidableEq

section Steps

variable [Features]

/-- The key ends inside the node's prefix: the value goes to a new parent. -/
def insert_above (cur_node : DefaultNode V) (common_len : Nat) (value : V) :
    Result (DefaultNode V) := do
  let new_prefix ← partial_after cur_node.pfx common_len
  let new_parent := DefaultNode.new_inner (← partial_before cur_node.pfx common_len)
  let new_parent := DefaultNode.mk new_parent.pfx (some value) new_parent.content
  let edge ← byte_at cur_node.pfx common_len
  new_parent.add_child edge (.mk new_prefix cur_node.value cur_node.content)

/-- Key and prefix part: both become children of a new node. -/
def insert_split (cur_node : DefaultNode V) (key : Bytes) (value : V)
    (depth longest_common_prefix : Nat) : Result (DefaultNode V) := do
  let new_prefix ← partial_after cur_node.pfx longest_common_prefix
  let n4 := DefaultNode.new_inner (← partial_before cur_node.pfx longest_common_prefix)
  let k1 ← byte_at cur_node.pfx longest_common_prefix
  let k2 ← byte_at key (depth + longest_common_prefix)
  let new_leaf := DefaultNode.new_leaf (← to_partial key (depth + longest_common_prefix)) value
  let cur_node ← n4.add_child k1 (.mk new_prefix cur_node.value cur_node.content)
  cur_node.add_child k2 new_leaf

/-- The key continues under an edge that the node does not have. -/
def insert_leaf (cur_node : DefaultNode V) (key : Bytes) (value : V)
    (depth longest_common_prefix : Nat) : Result (DefaultNode V) := do
  let edge ← byte_at key (depth + longest_common_prefix)
  let new_leaf := DefaultNode.new_leaf (← to_partial key (depth + longest_common_prefix)) value
  cur_node.add_child edge new_leaf

/-- The recursion of `insert_k` and `try_insert_k`, which replace a value or leave it. -/
def insert_recurse (cur_node : DefaultNode V) (key : Bytes) (value : V) (depth : Nat)
    (replace : Bool) : Result (InsertRecurseResult V × DefaultNode V) := do
  let longest_common_prefix ← prefix_length_key cur_node.pfx key depth
  let remaining ← length_at key depth
  let is_prefix_match := min cur_node.pfx.length remaining = longest_common_prefix
  if is_prefix_match ∧ cur_node.pfx.length = remaining then
    let occupied := DefaultNode.mk cur_node.pfx (some value) cur_node.content
    if replace then
      match cur_node.value with
      | some current => return (.Replaced current, occupied)
      | none => return (.Inserted, occupied)
    else
      match cur_node.value with
      | none => return (.Inserted, occupied)
      | some current => return (.Occupied value current, cur_node)
  else if is_prefix_match ∧ cur_node.pfx.length > remaining then
    return (.Inserted, ← insert_above cur_node longest_common_prefix value)
  else if ¬ is_prefix_match then
    return (.Inserted, ← insert_split cur_node key value depth longest_common_prefix)
  else if cur_node.is_leaf then
    return (.Inserted, ← insert_leaf cur_node key value depth longest_common_prefix)
  else
    let k ← byte_at key (depth + longest_common_prefix)
    if (cur_node.seek_child k).isNone then
      return (.Inserted, ← insert_leaf cur_node key value depth longest_common_prefix)
    else
      match _hchild : cur_node.seek_child_mut k with
      | none => throw (.expect "child existence was checked above")
      | some child =>
        let (result, child) ← insert_recurse child key value (depth + longest_common_prefix) replace
        return (result, cur_node.write_child k child)
termination_by cur_node.node_count
decreasing_by exact DefaultNode.node_count_lt_of_seek_mut _hchild

end Steps

section Updates

/-- A key behind a prefix is compared behind it. -/
theorem append_eq_append_iff_of_strip {p key rest u : Bytes} (h : p.isPrefixOf? key = some rest) :
    key = p ++ u ↔ rest = u := by
  rw [← List.isPrefixOf?_eq_some_iff_append_eq.1 h]
  exact List.append_right_inj p

/-- A key that does not start with a prefix is not behind it. -/
theorem ne_append_of_strip_none {p key u : Bytes} (h : p.isPrefixOf? key = none) : key ≠ p ++ u := by
  intro heq
  rw [heq, isPrefixOf?_append_self] at h
  cases h

variable [Features]

/-- The values under all keys but one are kept, and the one key has `slot`. -/
def UpdatedAt (before after : DefaultNode V) (key : Bytes) (slot : Option V) : Prop :=
  ∀ k, find after k = if k = key then slot else find before k

/-- The changed node may stand behind the same edge. -/
def SameEdge (before after : DefaultNode V) (key : Bytes) : Prop :=
  ∀ k, before.pfx.head? = some k → key.head? = some k → after.pfx.head? = some k

/-- Two nodes that read keys behind a shared prefix differ as the readings do. -/
theorem updatedAt_of_strip {before after : DefaultNode V} {c u : Bytes} {f g : Bytes → Option V}
    {slot : Option V} (hbefore : ∀ t, find before t = (c.isPrefixOf? t).bind f)
    (hafter : ∀ t, find after t = (c.isPrefixOf? t).bind g)
    (h : ∀ rest, g rest = if rest = u then slot else f rest) : UpdatedAt before after (c ++ u) slot := by
  intro t
  rw [hbefore, hafter]
  cases hstrip : c.isPrefixOf? t with
  | none =>
    rw [if_neg (ne_append_of_strip_none hstrip)]
    rfl
  | some rest =>
    rw [Option.bind_some, Option.bind_some, h]
    simp only [append_eq_append_iff_of_strip hstrip]

/-- Setting the value of a node itself. -/
theorem updatedAt_value (pfx : Bytes) (value : Option V) {content : Content (DefaultNode V)}
    {items : List (UInt8 × DefaultNode V)} (h : content.Repr items) (slot : Option V) :
    UpdatedAt (.mk pfx value content) (.mk pfx slot content) pfx slot := by
  have hupdated : UpdatedAt (.mk pfx value content) (.mk pfx slot content) (pfx ++ []) slot :=
    updatedAt_of_strip (find_mk h) (find_mk h) (by
      intro rest
      cases rest with
      | nil => rfl
      | cons k rest => rfl)
  rwa [List.append_nil] at hupdated

/-- A node with its prefix cut in two. -/
theorem find_mk_append {content : Content (DefaultNode V)} {items : List (UInt8 × DefaultNode V)}
    (h : content.Repr items) (c p : Bytes) (value : Option V) (t : Bytes) :
    find (DefaultNode.mk (c ++ p) value content) t =
      (c.isPrefixOf? t).bind (find (DefaultNode.mk p value content)) := by
  rw [find_mk h, isPrefixOf?_append]
  cases c.isPrefixOf? t with
  | none => rfl
  | some rest => rw [Option.bind_some, Option.bind_some, find_mk h]

/-- A node is not searched behind another edge. -/
theorem find_mk_cons_of_ne (content : Content (DefaultNode V)) {a b : UInt8} (h : b ≠ a) (p rest : Bytes)
    (value : Option V) : find (DefaultNode.mk (a :: p) value content) (b :: rest) = none := by
  refine find_eq_none_of_not_pfx fun hpfx => ?_
  obtain ⟨t, ht⟩ := hpfx
  exact h (List.cons.inj ht).1.symm

/-- Nor is it searched for the empty key. -/
theorem find_mk_cons_nil (content : Content (DefaultNode V)) (a : UInt8) (p : Bytes)
    (value : Option V) : find (DefaultNode.mk (a :: p) value content) [] = none := by
  refine find_eq_none_of_not_pfx fun hpfx => ?_
  obtain ⟨t, ht⟩ := hpfx
  cases ht

end Updates

section Specs

variable [Features]

/-- A well-formed child is inserted behind its edge. -/
theorem children_insert {content content' : Content (DefaultNode V)}
    {items : List (UInt8 × DefaultNode V)} (h : Children content items) {edge : UInt8}
    {child : DefaultNode V} (hwf : Wf child) (hedge : child.pfx.head? = some edge)
    (hrepr : content'.Repr (insertSorted edge child items)) :
    Children content' (insertSorted edge child items) where
  repr := hrepr
  edges p hp := by
    cases mem_insertSorted.1 hp with
    | inl heq => rw [heq]; exact hedge
    | inr hmem => exact h.edges p hmem
  wf p hp := by
    cases mem_insertSorted.1 hp with
    | inl heq => rw [heq]; exact hwf
    | inr hmem => exact h.wf p hmem

/-- The outcome of putting a value under a key. -/
structure InsertedAt (before after : DefaultNode V) (key : Bytes) (value : V) : Prop where
  wf : Wf after
  updated : UpdatedAt before after key (some value)
  edge : SameEdge before after key

/-- A value is put under a key at or below a node: the forms this can take. -/
inductive Put (value : V) : DefaultNode V → Bytes → DefaultNode V → Prop where
  | here (node : DefaultNode V) : Put value node node.pfx (.mk node.pfx (some value) node.content)
  /-- The key ends inside the prefix, and the node goes below a new parent. -/
  | above {node after : DefaultNode V} {s p : Bytes} {k : UInt8} (hpfx : node.pfx = s ++ k :: p)
      (hadd : (DefaultNode.mk s (some value) (.Node4 .new)).add_child k
        (.mk (k :: p) node.value node.content) = .ok after) : Put value node s after
  /-- Key and prefix part inside the prefix. -/
  | split {node inner after : DefaultNode V} {c p s : Bytes} {k1 k2 : UInt8} (hne : k1 ≠ k2)
      (hpfx : node.pfx = c ++ k1 :: p)
      (hadd₁ : (DefaultNode.new_inner c).add_child k1 (.mk (k1 :: p) node.value node.content) = .ok inner)
      (hadd₂ : inner.add_child k2 (.new_leaf (k2 :: s) value) = .ok after) :
      Put value node (c ++ k2 :: s) after
  /-- The key continues under an edge that the node does not have. -/
  | edge {node after : DefaultNode V} {k : UInt8} {s : Bytes} (habsent : node.iter.lookup k = none)
      (hadd : node.add_child k (.new_leaf (k :: s) value) = .ok after) :
      Put value node (node.pfx ++ k :: s) after
  | deeper {node child child' : DefaultNode V} {k : UInt8} {s : Bytes}
      (hchild : node.iter.lookup k = some child) (hput : Put value child (k :: s) child') :
      Put value node (node.pfx ++ k :: s) (node.write_child k child')

variable {cur_node : DefaultNode V} {key : Bytes} {depth : Nat}

/-- Replacing a child by an updated one updates the parent. -/
theorem write_child_spec (hwf : Wf cur_node) {k : UInt8} {s : Bytes} {child child' : DefaultNode V}
    (hchild : cur_node.iter.lookup k = some child) (hwf' : Wf child')
    (hedge : child'.pfx.head? = some k) {slot : Option V}
    (hupdated : UpdatedAt child child' (k :: s) slot) :
    Wf (cur_node.write_child k child') ∧
      UpdatedAt cur_node (cur_node.write_child k child') (cur_node.pfx ++ k :: s) slot := by
  obtain ⟨pfx, held, content⟩ := cur_node
  obtain ⟨items, hchildren, hheld⟩ := wf_mk_iff.1 hwf
  have hiter : (DefaultNode.mk pfx held content).iter = items := hchildren.repr.iter_eq
  rw [hiter] at hchild
  have hrepr := hchildren.repr.write_child k child'
  have hinner : Children (content.write_child k child') (setKey k child' items) := {
    repr := hrepr
    edges := fun p hp => by
      cases mem_setKey hp with
      | inl heq => rw [heq]; exact hedge
      | inr hmem => exact hchildren.edges p hmem.1
    wf := fun p hp => by
      cases mem_setKey hp with
      | inl heq => rw [heq]; exact hwf'
      | inr hmem => exact hchildren.wf p hmem.1 }
  refine ⟨wf_mk hinner fun hnil => hheld ?_, ?_⟩
  · have hkeys := map_fst_setKey k child' items
    rw [hnil] at hkeys
    exact List.map_eq_nil_iff.1 hkeys.symm
  · refine updatedAt_of_strip (find_mk hchildren.repr) (find_mk hrepr) ?_
    intro rest
    cases rest with
    | nil => rfl
    | cons b rest =>
      rw [lookupBelow, lookupBelow, lookup_setKey]
      by_cases hb : b = k
      · subst hb
        rw [if_pos rfl, hchild]
        exact hupdated (b :: rest)
      · have hne : b :: rest ≠ k :: s := fun heq => hb (List.cons.inj heq).1
        rw [if_neg hb, if_neg hne]

/-- Writing a child back changes nothing. -/
theorem write_child_self (hwf : Wf cur_node) {k : UInt8} {child : DefaultNode V}
    (hchild : cur_node.iter.lookup k = some child) : cur_node.write_child k child = cur_node := by
  obtain ⟨pfx, held, content⟩ := cur_node
  have hseek : content.seek_child k = some child :=
    (Content.Repr.seek_child hwf.layout k).trans hchild
  unfold DefaultNode.write_child
  rw [DefaultNode.content_mk, Content.write_child_self hseek]
  rfl

/-- A leaf added under a new edge. -/
theorem insertedAt_edge (hwf : Wf cur_node) {after : DefaultNode V} {s : Bytes} {k : UInt8}
    (habsent : cur_node.iter.lookup k = none) {value : V}
    (hadd : cur_node.add_child k (.new_leaf (k :: s) value) = .ok after) :
    InsertedAt cur_node after (cur_node.pfx ++ k :: s) value := by
  obtain ⟨pfx, held, content⟩ := cur_node
  obtain ⟨items, hchildren, hheld⟩ := wf_mk_iff.1 hwf
  have hiter : (DefaultNode.mk pfx held content).iter = items := hchildren.repr.iter_eq
  rw [hiter] at habsent
  obtain ⟨content', hadd', hrepr⟩ := DefaultNode.add_child_spec (.mk pfx held content) hchildren.repr k
    (DefaultNode.new_leaf (k :: s) value) habsent
  cases hadd.symm.trans hadd'
  have hinner := children_insert hchildren (wf_leaf (k :: s) value) rfl hrepr
  refine ⟨wf_mk hinner fun hnil => ?_, ?_, fun a ha _ => ha⟩
  · have hlen := length_insertSorted k (DefaultNode.new_leaf (k :: s) value) items
    rw [hnil] at hlen
    cases hlen
  · refine updatedAt_of_strip (find_mk hchildren.repr) (find_mk hrepr) ?_
    intro rest
    cases rest with
    | nil => rfl
    | cons b rest =>
      rw [lookupBelow, lookupBelow, lookup_insertSorted]
      by_cases hb : b = k
      · subst hb
        rw [if_pos rfl, Option.bind_some, find_leaf, habsent]
        rfl
      · have hne : b :: rest ≠ k :: s := fun heq => hb (List.cons.inj heq).1
        rw [if_neg hb, if_neg hne]

/-- A node whose key is a prefix of the new one's, put above. -/
theorem insertedAt_above (hwf : Wf cur_node) {after : DefaultNode V} {s p : Bytes} {k : UInt8}
    (hpfx : cur_node.pfx = s ++ k :: p) {value : V}
    (hadd : (DefaultNode.mk s (some value) (.Node4 .new)).add_child k
      (.mk (k :: p) cur_node.value cur_node.content) = .ok after) :
    InsertedAt cur_node after s value := by
  obtain ⟨pfx, held, content⟩ := cur_node
  obtain rfl : pfx = s ++ k :: p := hpfx
  obtain ⟨items, hchildren, hheld⟩ := wf_mk_iff.1 hwf
  have hold : Wf (DefaultNode.mk (k :: p) held content) := wf_mk hchildren hheld
  obtain ⟨content', hadd', hrepr⟩ := DefaultNode.add_child_spec (.mk s (some value) (.Node4 .new))
    children_empty4.repr k (.mk (k :: p) held content) rfl
  cases hadd.symm.trans hadd'
  have hinner := children_insert children_empty4 hold rfl hrepr
  refine ⟨wf_mk hinner fun _ => ⟨value, rfl⟩, ?_, fun a _ hs => hs⟩
  have hupdated : UpdatedAt (.mk (s ++ k :: p) held content) (.mk s (some value) content') (s ++ [])
      (some value) :=
    updatedAt_of_strip (find_mk_append hchildren.repr s (k :: p) held) (find_mk hrepr) (by
      intro rest
      cases rest with
      | nil => rfl
      | cons b rest =>
        rw [lookupBelow, lookup_insertSorted]
        by_cases hb : b = k
        · simp [hb]
        · simp [hb, find_mk_cons_of_ne content hb])
  rwa [List.append_nil] at hupdated

/-- A node and a leaf below a new node for what they share. -/
theorem insertedAt_split (hwf : Wf cur_node) {inner after : DefaultNode V} {c p s : Bytes}
    {k1 k2 : UInt8} (hne : k1 ≠ k2) (hpfx : cur_node.pfx = c ++ k1 :: p) {value : V}
    (hadd₁ : (DefaultNode.new_inner c).add_child k1 (.mk (k1 :: p) cur_node.value cur_node.content) =
      .ok inner)
    (hadd₂ : inner.add_child k2 (.new_leaf (k2 :: s) value) = .ok after) :
    InsertedAt cur_node after (c ++ k2 :: s) value := by
  obtain ⟨pfx, held, content⟩ := cur_node
  obtain rfl : pfx = c ++ k1 :: p := hpfx
  obtain ⟨items, hchildren, hheld⟩ := wf_mk_iff.1 hwf
  have hold : Wf (DefaultNode.mk (k1 :: p) held content) := wf_mk hchildren hheld
  obtain ⟨content₁, hadd₁', hrepr₁⟩ := DefaultNode.add_child_spec (.new_inner c)
    children_empty4.repr k1 (.mk (k1 :: p) held content) rfl
  cases hadd₁.symm.trans hadd₁'
  have hinner₁ := children_insert children_empty4 hold rfl hrepr₁
  obtain ⟨content₂, hadd₂', hrepr₂⟩ := DefaultNode.add_child_spec (.mk c none content₁) hrepr₁ k2
    (DefaultNode.new_leaf (k2 :: s) value) (by simp [Ne.symm hne])
  cases hadd₂.symm.trans hadd₂'
  have hinner₂ := children_insert hinner₁ (wf_leaf (k2 :: s) value) rfl hrepr₂
  refine ⟨?_, ?_, ?_⟩
  · exact wf_mk hinner₂ fun hnil => by
      have hlen₂ := length_insertSorted k2 (DefaultNode.new_leaf (k2 :: s) value)
        (insertSorted k1 (DefaultNode.mk (k1 :: p) held content) [])
      rw [hnil] at hlen₂
      cases hlen₂
  · refine updatedAt_of_strip (find_mk_append hchildren.repr c (k1 :: p) held) (find_mk hrepr₂) ?_
    intro rest
    cases rest with
    | nil => rw [find_mk_cons_nil]; rfl
    | cons b rest =>
      rw [lookupBelow, lookup_insertSorted, lookup_insertSorted]
      by_cases hb₂ : b = k2
      · subst hb₂
        rw [if_pos rfl, Option.bind_some, find_leaf, find_mk_cons_of_ne content (Ne.symm hne)]
      · have hrest₂ : b :: rest ≠ k2 :: s := fun heq => hb₂ (List.cons.inj heq).1
        rw [if_neg hb₂, if_neg hrest₂]
        by_cases hb₁ : b = k1
        · simp [hb₁]
        · simp [hb₁, find_mk_cons_of_ne content hb₁]
  · intro a ha hs
    cases c with
    | nil =>
      simp only [List.nil_append, List.head?_cons, DefaultNode.pfx_mk, Option.some.injEq] at ha hs
      exact absurd (ha.trans hs.symm) hne
    | cons d c => exact hs

/-- Putting a value keeps a node well-formed, and changes no other key. -/
theorem Put.insertedAt {value : V} {after : DefaultNode V} (hwf : Wf cur_node)
    (h : Put value cur_node key after) : InsertedAt cur_node after key value := by
  induction h with
  | here node =>
    obtain ⟨pfx, held, content⟩ := node
    obtain ⟨items, hchildren, hheld⟩ := wf_mk_iff.1 hwf
    exact ⟨wf_mk hchildren fun _ => ⟨value, rfl⟩, updatedAt_value _ _ hchildren.repr (some value),
      fun a ha _ => ha⟩
  | above hpfx hadd => exact insertedAt_above hwf hpfx hadd
  | split hne hpfx hadd₁ hadd₂ => exact insertedAt_split hwf hne hpfx hadd₁ hadd₂
  | edge habsent hadd => exact insertedAt_edge hwf habsent hadd
  | deeper hchild hput ih =>
    have hmem := hwf.ascending.lookup_eq_some_iff.1 hchild
    have hspec := ih (hwf.child hmem)
    obtain ⟨hwf', hupdated⟩ := write_child_spec hwf hchild hspec.wf
      (hspec.edge _ (hwf.edges hmem) rfl) hspec.updated
    exact ⟨hwf', hupdated, fun a ha _ => ha⟩

/-- Putting a value where it is already changes nothing. -/
theorem Put.eq_self {value : V} {after : DefaultNode V} (hwf : Wf cur_node)
    (h : Put value cur_node key after) (hfind : find cur_node key = some value) : after = cur_node := by
  induction h with
  | here node =>
    obtain ⟨pfx, held, content⟩ := node
    have hvalue : held = some value := (DefaultNode.find_value _).symm.trans hfind
    rw [hvalue]
    rfl
  | @above node after s p k hpfx hadd =>
    have hstarts := prefix_of_find hfind
    have hlen := hstarts.length_le
    have hpfx' : (Node.pfx node : Bytes) = s ++ k :: p := hpfx
    rw [hpfx', List.length_append, List.length_cons] at hlen
    omega
  | @split node inner after c p s k1 k2 hne hpfx hadd₁ hadd₂ =>
    have hstarts : c ++ k1 :: p <+: c ++ k2 :: s := hpfx ▸ prefix_of_find hfind
    obtain ⟨t, ht⟩ := (List.prefix_append_right_inj c).1 hstarts
    exact absurd (List.cons.inj ht).1 hne
  | @edge node after k s habsent hadd =>
    rw [DefaultNode.find_absent habsent] at hfind
    cases hfind
  | @deeper node child child' k s hchild hput ih =>
    have hmem := hwf.ascending.lookup_eq_some_iff.1 hchild
    rw [DefaultNode.find_below hchild] at hfind
    rw [ih (hwf.child hmem) hfind]
    exact write_child_self hwf hchild

/-- A key that ends inside the prefix gets a node above. -/
theorem insert_above_puts {s p : Bytes} {k : UInt8} (hpfx : cur_node.pfx = s ++ k :: p) (value : V) :
    ∃ after, insert_above cur_node s.length value = .ok after ∧ Put value cur_node s after := by
  obtain ⟨content', hadd, _⟩ := DefaultNode.add_child_spec (.mk s (some value) (.Node4 .new))
    children_empty4.repr k (.mk (k :: p) cur_node.value cur_node.content) rfl
  refine ⟨_, ?_, .above hpfx hadd⟩
  unfold insert_above partial_after partial_before byte_at
  rw [hpfx, slice_from_eq_ok (by simp), ok_bind, slice_to_eq_ok (by simp), ok_bind,
    index_append_length, ok_bind]
  simpa [DefaultNode.new_inner] using hadd

/-- A key that parts inside the prefix gets a leaf beside the node. -/
theorem insert_split_puts {c p s : Bytes} {k1 k2 : UInt8} (hne : k1 ≠ k2)
    (hpfx : cur_node.pfx = c ++ k1 :: p) (hkey : key.drop depth = c ++ k2 :: s) (value : V) :
    ∃ after, insert_split cur_node key value depth c.length = .ok after ∧
      Put value cur_node (key.drop depth) after := by
  obtain ⟨content₁, hadd₁, hrepr₁⟩ := DefaultNode.add_child_spec (.new_inner c)
    children_empty4.repr k1 (.mk (k1 :: p) cur_node.value cur_node.content) rfl
  obtain ⟨content₂, hadd₂, hrepr₂⟩ := DefaultNode.add_child_spec (.mk c none content₁) hrepr₁ k2
    (DefaultNode.new_leaf (k2 :: s) value) (by simp [Ne.symm hne])
  have hlen : depth + c.length < key.length := by
    have := congrArg List.length hkey
    simp only [List.length_drop, List.length_append, List.length_cons] at this
    omega
  have hrest : key.drop (depth + c.length) = k2 :: s := by
    rw [← List.drop_drop, hkey, List.drop_left]
  rw [hkey]
  refine ⟨_, ?_, .split hne hpfx hadd₁ hadd₂⟩
  have hk2 : index key (depth + c.length) = .ok k2 := by
    refine index_eq_ok ?_
    rw [← List.head?_drop, hrest]
    rfl
  unfold insert_split partial_after partial_before byte_at to_partial
  rw [hpfx, slice_from_eq_ok (by simp), ok_bind, slice_to_eq_ok (by simp), ok_bind,
    index_append_length, ok_bind, hk2, ok_bind, slice_from_eq_ok (by omega), ok_bind, hrest]
  rw [List.drop_left, List.take_left, hadd₁]
  exact hadd₂

/-- A key that goes on behind a free edge gets a leaf there. -/
theorem insert_leaf_puts (hwf : Wf cur_node) {s : Bytes} {k : UInt8}
    (hkey : key.drop depth = cur_node.pfx ++ k :: s) (habsent : cur_node.iter.lookup k = none)
    (value : V) :
    ∃ after, insert_leaf cur_node key value depth cur_node.pfx.length = .ok after ∧
      Put value cur_node (key.drop depth) after := by
  obtain ⟨content', hadd, _⟩ := DefaultNode.add_child_spec cur_node hwf.layout k
    (DefaultNode.new_leaf (k :: s) value) habsent
  have hlen : depth + cur_node.pfx.length < key.length := by
    have := congrArg List.length hkey
    simp only [List.length_drop, List.length_append, List.length_cons] at this
    omega
  have hrest : key.drop (depth + cur_node.pfx.length) = k :: s := by
    rw [← List.drop_drop, hkey, List.drop_left]
  rw [hkey]
  refine ⟨_, ?_, .edge habsent hadd⟩
  have hk : index key (depth + cur_node.pfx.length) = .ok k := by
    refine index_eq_ok ?_
    rw [← List.head?_drop, hrest]
    rfl
  unfold insert_leaf byte_at to_partial
  rw [hk, ok_bind, slice_from_eq_ok (by omega), ok_bind, hrest]
  exact hadd

end Specs

section Insert

variable [Features]

/-- What an insertion reports. -/
def insertResult (replace : Bool) (value : V) : Option V → InsertRecurseResult V
  | none => .Inserted
  | some current => if replace then .Replaced current else .Occupied value current

/-- What is stored under the key afterwards. -/
def insertedValue (replace : Bool) (value : V) : Option V → V
  | none => value
  | some current => if replace then value else current

/-- Insertion puts a value under what is left of the key: the given one, unless the
slot is occupied and may not be replaced. -/
theorem insert_recurse_puts {cur_node : DefaultNode V} (hwf : Wf cur_node) {key : Bytes} {depth : Nat}
    (hdepth : depth ≤ key.length) (value : V) (replace : Bool) :
    ∃ after, insert_recurse cur_node key value depth replace =
        .ok (insertResult replace value (find cur_node (key.drop depth)), after) ∧
      Put (insertedValue replace value (find cur_node (key.drop depth))) cur_node (key.drop depth)
        after := by
  induction hn : cur_node.node_count using Nat.strongRecOn generalizing cur_node depth with
  | ind n ih =>
    subst hn
    rw [insert_recurse, prefix_length_key_eq_ok hdepth, ok_bind, length_at, usize_sub_eq_ok hdepth, ok_bind]
    dsimp only
    cases arrival cur_node.pfx key depth with
    | ends hkey hends =>
      have hfind : find cur_node (key.drop depth) = cur_node.value := by
        rw [hkey]
        exact find_pfx cur_node
      rw [if_pos hends, hfind, hkey]
      obtain ⟨pfx, held, content⟩ := cur_node
      have hset : ∀ v, Put v (.mk pfx held content) pfx (.mk pfx (some v) content) :=
        fun v => .here (.mk pfx held content)
      simp only [DefaultNode.value_mk]
      cases held with
      | none => cases replace <;> exact ⟨_, rfl, hset value⟩
      | some current =>
        cases replace with
        | false => exact ⟨_, rfl, hset current⟩
        | true => exact ⟨_, rfl, hset value⟩
    | goes_on k s hkey hlcp hmore hbelow hmatch hk hrest hdepth' =>
      have hfind : find cur_node (key.drop depth) = lookupBelow cur_node.value cur_node.iter (k :: s) := by
        rw [hkey]
        exact find_append cur_node (k :: s)
      rw [if_neg hmore, if_neg hbelow, if_neg hmatch, hlcp]
      -- without a child under the next byte, a leaf is added
      have hadd : cur_node.iter.lookup k = none → ∃ after,
          insert_leaf cur_node key value depth cur_node.pfx.length = .ok after ∧
            Put value cur_node (key.drop depth) after :=
        fun habsent => insert_leaf_puts hwf hkey habsent value
      by_cases hleaf : cur_node.is_leaf = true
      · have hiter : cur_node.iter = [] := Node.iter_leaf hwf.layout hleaf
        obtain ⟨after, hafter, hput⟩ := hadd (by rw [hiter]; rfl)
        rw [if_pos hleaf, hfind, hiter, hafter]
        exact ⟨after, rfl, hput⟩
      · rw [if_neg hleaf, hk, ok_bind]
        have hseek : cur_node.seek_child k = cur_node.iter.lookup k := hwf.seek_eq k
        have hseekmut : cur_node.seek_child_mut k = cur_node.iter.lookup k :=
          Content.Repr.seek_child hwf.layout k
        cases hlookup : cur_node.iter.lookup k with
        | none =>
          obtain ⟨after, hafter, hput⟩ := hadd hlookup
          rw [hseek, hlookup, hfind, lookupBelow, hlookup, hafter]
          exact ⟨after, rfl, hput⟩
        | some child =>
          have hmem : (k, child) ∈ cur_node.iter := hwf.ascending.lookup_eq_some_iff.1 hlookup
          obtain ⟨child', hrec, hput⟩ := ih child.node_count (DefaultNode.node_count_lt_of_iter hmem)
            (hwf.child hmem) hdepth' rfl
          rw [hrest] at hrec hput
          refine ⟨cur_node.write_child k child', ?_, ?_⟩
          · rw [hseek, hlookup, hfind, lookupBelow, hlookup]
            simp only [Option.isNone_some, Bool.false_eq_true, if_false]
            split
            · rename_i hnone
              rw [hseekmut, hlookup] at hnone
              cases hnone
            · rename_i found hfound
              rw [hseekmut, hlookup] at hfound
              cases hfound
              rw [hrec]
              rfl
          · rw [hfind, lookupBelow, hlookup, Option.bind_some, hkey]
            exact .deeper hlookup hput
    | above k p hpfx hnot hlcp hmore habove =>
      obtain ⟨after, hafter, hput⟩ := insert_above_puts hpfx value
      rw [if_neg hmore, if_pos habove, hlcp, hafter, find_eq_none_of_not_pfx hnot]
      exact ⟨after, rfl, hput⟩
    | splits c p s k₁ k₂ hne hpfx hkey hnot hlcp hmore hbelow hsplit =>
      obtain ⟨after, hafter, hput⟩ := insert_split_puts hne hpfx hkey value
      rw [if_neg hmore, if_neg hbelow, if_pos hsplit, hlcp, hafter, find_eq_none_of_not_pfx hnot]
      exact ⟨after, rfl, hput⟩

/-- Insertion changes the slot under what is left of the key, and no other. -/
theorem insert_recurse_spec {cur_node : DefaultNode V} (hwf : Wf cur_node) {key : Bytes} {depth : Nat}
    (hdepth : depth ≤ key.length) (value : V) (replace : Bool) :
    ∃ after, insert_recurse cur_node key value depth replace =
        .ok (insertResult replace value (find cur_node (key.drop depth)), after) ∧
      InsertedAt cur_node after (key.drop depth)
        (insertedValue replace value (find cur_node (key.drop depth))) := by
  obtain ⟨after, hrun, hput⟩ := insert_recurse_puts hwf hdepth value replace
  exact ⟨after, hrun, hput.insertedAt hwf⟩

end Insert

end rart.tree
