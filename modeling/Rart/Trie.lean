import Rart.Node

open SortedAssoc

namespace rart

/-- A node as its readers see it: the functions of the source, with a rank that drops on the way
to a child, and the invariant of its child table. What only reads nodes is stated over this
interface, which the nodes of both trees implement. -/
class Node (N : Type) (V : outParam Type) where
  pfx : N → Bytes
  value : N → Option V
  is_leaf : N → Bool
  seek_child : N → UInt8 → Option N
  num_children : N → Nat
  iter : N → List (UInt8 × N)
  rank : N → Nat
  rank_iter : ∀ {n : N} {k : UInt8} {c : N}, (k, c) ∈ iter n → rank c < rank n
  rank_seek : ∀ {n : N} {k : UInt8} {c : N}, seek_child n k = some c → rank c < rank n
  /-- The invariant of the child table. -/
  Layout : N → Prop
  ascending : ∀ {n : N}, Layout n → Ascending (iter n)
  seek_eq : ∀ {n : N}, Layout n → ∀ k, seek_child n k = (iter n).lookup k
  iter_leaf : ∀ {n : N}, Layout n → is_leaf n = true → iter n = []

namespace Trie

open Node

variable {N V : Type} [Node N V]

/-- The value under a key that starts with the node's prefix. -/
def find (n : N) (key : Bytes) : Option V :=
  match (pfx n).isPrefixOf? key with
  | none => none
  | some [] => value n
  | some (k :: rest) =>
    match _hchild : (iter n).lookup k with
    | none => none
    | some c => find c (k :: rest)
termination_by rank n
decreasing_by
  exact rank_iter (k := k) (mem_of_lookup _hchild)

/-- The node that a key leads to. -/
def node_at (n : N) (key : Bytes) : Option N :=
  match (pfx n).isPrefixOf? key with
  | none => none
  | some [] => some n
  | some (k :: rest) =>
    match _hchild : (iter n).lookup k with
    | none => none
    | some c => node_at c (k :: rest)
termination_by rank n
decreasing_by
  exact rank_iter (k := k) (mem_of_lookup _hchild)

/-- The entries at and below a node, the node's own first and then those of its
children in the order of their edges. -/
def entries (n : N) : List (Bytes × V) :=
  ((value n).map fun v => (pfx n, v)).toList ++
    (iter n).attach.flatMap fun ⟨p, _hp⟩ => (entries p.2).map fun e => (pfx n ++ e.1, e.2)
termination_by rank n
decreasing_by exact rank_iter _hp

/-- The invariant of the nodes of a tree. Prefix compression and tight layouts
are not part of it: the readers do not need them. -/
inductive Wf : N → Prop where
  | intro (n : N) (layout : Layout n)
      (edges : ∀ p ∈ iter n, (pfx p.2).head? = some p.1)
      (children : ∀ p ∈ iter n, Wf p.2)
      (occupied : iter n = [] → (value n).isSome) : Wf n

namespace Wf

variable {n : N} (h : Wf n)
include h

theorem layout : Layout n := by
  cases h with
  | intro _ layout _ _ _ => exact layout

/-- A child stands behind the first byte of its own prefix. -/
theorem edges {p : UInt8 × N} (hp : p ∈ iter n) : (pfx p.2).head? = some p.1 := by
  cases h with
  | intro _ _ edges _ _ => exact edges p hp

/-- The nodes below a well-formed node are well-formed. -/
theorem child {p : UInt8 × N} (hp : p ∈ iter n) : Wf p.2 := by
  cases h with
  | intro _ _ _ children _ => exact children p hp

/-- A node without children holds a value. -/
theorem occupied (hempty : iter n = []) : ∃ v, value n = some v := by
  cases h with
  | intro _ _ _ _ occupied => exact Option.isSome_iff_exists.1 (occupied hempty)

/-- The edges of a well-formed node come in ascending order. -/
theorem ascending : Ascending (iter n) := Node.ascending h.layout

/-- A search for a child is a lookup among the children. -/
theorem seek_eq (k : UInt8) : seek_child n k = (iter n).lookup k := Node.seek_eq h.layout k

theorem pfx_of_lookup {k : UInt8} {c : N} (hlookup : (iter n).lookup k = some c) :
    pfx c = k :: (pfx c).drop 1 := by
  obtain ⟨rest, hrest⟩ := List.head?_eq_some_iff.1 (h.edges (h.ascending.lookup_eq_some_iff.1 hlookup))
  rw [hrest]
  rfl

theorem child_of_seek {k : UInt8} {c : N} (hseek : seek_child n k = some c) :
    (k, c) ∈ iter n := by
  rw [h.seek_eq] at hseek
  exact h.ascending.lookup_eq_some_iff.1 hseek

end Wf

/-- The value under what is left of a key behind a node's prefix. -/
def lookupBelow (value : Option V) (children : List (UInt8 × N)) : Bytes → Option V
  | [] => value
  | k :: rest => (children.lookup k).bind fun c => find c (k :: rest)

/-- What a node finds is what is found below it, behind its prefix. -/
theorem find_eq (n : N) (key : Bytes) :
    find n key = ((pfx n).isPrefixOf? key).bind (lookupBelow (value n) (iter n)) := by
  rw [find]
  cases (pfx n).isPrefixOf? key with
  | none => rfl
  | some rest =>
    cases rest with
    | nil => rfl
    | cons k rest =>
      simp only [Option.bind_some, lookupBelow]
      split <;> rename_i hlookup <;> rw [hlookup] <;> rfl

/-- The value under a key below a node, given what is left of the node's own key. -/
def findFrom (base : Bytes) (n : N) (key : Bytes) : Option V :=
  (base.isPrefixOf? key).bind (lookupBelow (value n) (iter n))

theorem findFrom_pfx (n : N) (key : Bytes) : findFrom (pfx n) n key = find n key := (find_eq n key).symm

/-- A prefix is stripped off in two steps. -/
theorem isPrefixOf?_append (p s t : Bytes) :
    (p ++ s).isPrefixOf? t = (p.isPrefixOf? t).bind fun rest => s.isPrefixOf? rest := by
  induction p generalizing t with
  | nil => simp [List.isPrefixOf?]
  | cons a p ih =>
    cases t with
    | nil => rfl
    | cons b t =>
      rw [List.cons_append, List.isPrefixOf?, List.isPrefixOf?]
      split
      · exact ih t
      · rfl

@[simp] theorem isPrefixOf?_append_self (p s : Bytes) : p.isPrefixOf? (p ++ s) = some s := by
  rw [List.isPrefixOf?_eq_some_iff_append_eq]

theorem findFrom_append (base s : Bytes) (n : N) (key : Bytes) :
    findFrom (base ++ s) n (base ++ key) = findFrom s n key := by
  unfold findFrom
  rw [isPrefixOf?_append, isPrefixOf?_append_self]
  rfl

theorem findFrom_self (base : Bytes) (n : N) (key : Bytes) :
    findFrom base n (base ++ key) = lookupBelow (value n) (iter n) key := by
  unfold findFrom
  rw [isPrefixOf?_append_self]
  rfl

theorem findFrom_eq_none {base key : Bytes} (h : ¬ base <+: key) (n : N) :
    findFrom base n key = (none : Option V) := by
  unfold findFrom
  cases hstrip : base.isPrefixOf? key with
  | none => rfl
  | some rest => exact absurd ⟨rest, List.isPrefixOf?_eq_some_iff_append_eq.1 hstrip⟩ h

/-- Behind the prefix of a node, the value and the children decide. -/
theorem find_append (n : N) (rest : Bytes) :
    find n (pfx n ++ rest) = lookupBelow (value n) (iter n) rest := by
  rw [← findFrom_pfx]
  exact findFrom_self (pfx n) n rest

/-- Under its own prefix a node finds its value. -/
theorem find_pfx (n : N) : find n (pfx n) = value n := by
  have happ := find_append n []
  rw [List.append_nil] at happ
  exact happ

/-- Behind an edge, a node finds what its child finds. -/
theorem find_edge {n c : N} {k : UInt8} (hchild : (iter n).lookup k = some c) (rest : Bytes) :
    find n (pfx n ++ k :: rest) = find c (k :: rest) := by
  rw [find_append, lookupBelow, hchild, Option.bind_some]

/-- A key that goes on behind an edge that is not there is not found. -/
theorem find_no_edge {n : N} {k : UInt8} (habsent : (iter n).lookup k = none) (rest : Bytes) :
    find n (pfx n ++ k :: rest) = none := by
  rw [find_append, lookupBelow, habsent, Option.bind_none]

/-- A key that ends with the prefix leads to the node itself. -/
theorem node_at_self (n : N) : node_at n (pfx n) = some n := by
  have hself := isPrefixOf?_append_self (pfx n) []
  rw [List.append_nil] at hself
  rw [node_at, hself]

/-- A key that goes on leads to where it leads to from the child. -/
theorem node_at_below (n : N) (k : UInt8) (rest : Bytes) :
    node_at n (pfx n ++ k :: rest) = ((iter n).lookup k).bind fun c => node_at c (k :: rest) := by
  rw [node_at, isPrefixOf?_append_self]
  simp only
  split <;> rename_i hlookup <;> rw [hlookup] <;> rfl

/-- A key is found with the value of the node that it leads to. -/
theorem find_eq_node_at (n : N) (key : Bytes) : find n key = (node_at n key).bind value := by
  induction hn : rank n using Nat.strongRecOn generalizing n key with
  | ind r ih =>
    subst hn
    cases hstrip : (pfx n).isPrefixOf? key with
    | none =>
      rw [find_eq, node_at, hstrip]
      rfl
    | some rest =>
      obtain rfl := List.isPrefixOf?_eq_some_iff_append_eq.1 hstrip
      cases rest with
      | nil =>
        rw [find_append, List.append_nil, node_at_self]
        rfl
      | cons k rest =>
        rw [find_append, node_at_below, lookupBelow]
        cases hlookup : (iter n).lookup k with
        | none => rfl
        | some c =>
          exact ih _ (rank_iter (k := k) (mem_of_lookup hlookup)) c (k :: rest) rfl

/-- A key leads to a well-formed node. -/
theorem Wf.of_node_at {n : N} (h : Wf n) {key : Bytes} {m : N} (hm : node_at n key = some m) : Wf m := by
  induction h generalizing key with
  | intro n layout edges children occupied ih =>
    cases hstrip : (pfx n).isPrefixOf? key with
    | none =>
      rw [node_at, hstrip] at hm
      cases hm
    | some rest =>
      obtain rfl := List.isPrefixOf?_eq_some_iff_append_eq.1 hstrip
      cases rest with
      | nil =>
        rw [List.append_nil, node_at_self] at hm
        cases hm
        exact .intro m layout edges children occupied
      | cons k rest =>
        rw [node_at_below] at hm
        obtain ⟨c, hc, hm⟩ := Option.bind_eq_some_iff.1 hm
        exact ih _ ((Node.ascending layout).lookup_eq_some_iff.1 hc) hm

/-- A key that does not start with the prefix of a node is not found in it. -/
theorem find_eq_none_of_not_pfx {n : N} {key : Bytes} (h : ¬ pfx n <+: key) :
    find n key = none := by
  rw [← findFrom_pfx]
  exact findFrom_eq_none h n

/-- A key found below a node starts with the node's prefix. -/
theorem prefix_of_find {n : N} {key : Bytes} {v : V} (h : find n key = some v) : pfx n <+: key := by
  by_contra hnot
  rw [find_eq_none_of_not_pfx hnot] at h
  cases h

/-- A key that is found below an edge starts with the byte of that edge. -/
theorem head?_of_find {c : N} {k : UInt8} (hedge : (pfx c).head? = some k) {key : Bytes} {v : V}
    (h : find c key = some v) : key.head? = some k := by
  obtain ⟨rest, rfl⟩ := prefix_of_find h
  rw [List.head?_append, hedge]
  rfl

section Entries

/-- The entries of a node: its own value first, then those of its children in their order. -/
theorem entries_eq (n : N) :
    entries n = ((value n).map fun v => (pfx n, v)).toList ++
      (iter n).flatMap fun p => (entries p.2).map fun e => (pfx n ++ e.1, e.2) := by
  rw [entries]
  congr 1
  exact flatMap_attach fun _ => rfl

/-- The entries of the children, without the prefix in front. -/
def childEntries (children : List (UInt8 × N)) : List (Bytes × V) :=
  children.flatMap fun p => entries p.2

theorem entries_eq_append (n : N) :
    entries n = ((value n).map fun v => (pfx n, v)).toList ++
      (childEntries (iter n)).map fun e => (pfx n ++ e.1, e.2) := by
  rw [entries_eq, childEntries, List.map_flatMap]

/-- Entries with what stands before their keys. -/
def under (base : Bytes) (l : List (Bytes × V)) : List (Bytes × V) := l.map fun e => (base ++ e.1, e.2)

omit [Node N V] in
/-- Entries are put under a common beginning one by one. -/
theorem under_append (base : Bytes) (l m : List (Bytes × V)) :
    under base (l ++ m) = under base l ++ under base m := List.map_append

omit [Node N V] in
theorem under_under (base p : Bytes) (l : List (Bytes × V)) :
    under base (under p l) = under (base ++ p) l := by
  unfold under
  rw [List.map_map]
  refine List.map_congr_left fun e _ => ?_
  simp [List.append_assoc]

omit [Node N V] in
@[simp] theorem map_snd_under (base : Bytes) (l : List (Bytes × V)) :
    (under base l).map Prod.snd = l.map Prod.snd := by
  unfold under
  rw [List.map_map]
  rfl

@[simp] theorem childEntries_nil : childEntries ([] : List (UInt8 × N)) = [] := rfl

theorem childEntries_cons (p : UInt8 × N) (children : List (UInt8 × N)) :
    childEntries (p :: children) = entries p.2 ++ childEntries children := rfl

theorem childEntries_append (l m : List (UInt8 × N)) :
    childEntries (l ++ m) = childEntries l ++ childEntries m := List.flatMap_append

/-- The entries at and below a node, given the whole key of the node. -/
def entriesFrom (base : Bytes) (n : N) : List (Bytes × V) :=
  ((value n).map fun v => (base, v)).toList ++ under base (childEntries (iter n))

theorem entriesFrom_pfx (n : N) : entriesFrom (pfx n) n = entries n := (entries_eq_append n).symm

theorem entriesFrom_append (base s : Bytes) (n : N) :
    entriesFrom (base ++ s) n = under base (entriesFrom s n) := by
  unfold entriesFrom
  rw [under_append, under_under]
  congr 1
  cases value n with
  | none => rfl
  | some v => rfl

/-- The entries of a node with what leads to it in front. -/
theorem under_entries (base : Bytes) (n : N) : under base (entries n) = entriesFrom (base ++ pfx n) n := by
  rw [entriesFrom_append, entriesFrom_pfx]

/-- What leads to a node has no part in its values. -/
theorem map_snd_entriesFrom (base : Bytes) (n : N) :
    (entriesFrom base n).map Prod.snd = (entries n).map Prod.snd := by
  rw [← entriesFrom_pfx]
  unfold entriesFrom
  rw [List.map_append, List.map_append, map_snd_under, map_snd_under]
  cases value n <;> rfl

/-- The entries below a table are those of its children. -/
theorem mem_childEntries {children : List (UInt8 × N)} {e : Bytes × V} :
    e ∈ childEntries children ↔ ∃ p ∈ children, e ∈ entries p.2 := List.mem_flatMap

/-- An entry of a node is its own value or an entry of a child. -/
theorem mem_entries {n : N} {key : Bytes} {v : V} :
    (key, v) ∈ entries n ↔ (key = pfx n ∧ value n = some v) ∨
      ∃ e ∈ childEntries (iter n), key = pfx n ++ e.1 ∧ v = e.2 := by
  rw [entries_eq_append, List.mem_append, List.mem_map]
  cases value n with
  | none => simp [eq_comm]
  | some w => simp [eq_comm, and_comm]

/-- The entries are the keys that are found, with their values. -/
theorem Wf.mem_entries_iff {n : N} (h : Wf n) {key : Bytes} {v : V} :
    (key, v) ∈ entries n ↔ find n key = some v := by
  induction h generalizing key v with
  | intro n layout edges children occupied ih =>
    have hasc := Node.ascending layout
    rw [mem_entries]
    constructor
    · rintro (⟨rfl, hv⟩ | ⟨e, he, rfl, rfl⟩)
      · rw [← List.append_nil (pfx n), find_append]
        exact hv
      · obtain ⟨p, hp, he⟩ := mem_childEntries.1 he
        have hfind := (ih p hp).1 he
        have hhead := head?_of_find (edges p hp) hfind
        obtain ⟨rest, hrest⟩ := List.head?_eq_some_iff.1 hhead
        rw [hrest] at hfind
        rw [find_append, hrest, lookupBelow, hasc.lookup_eq_some_iff.2 hp, Option.bind_some, hfind]
    · intro hfind
      obtain ⟨rest, rfl⟩ := prefix_of_find hfind
      rw [find_append] at hfind
      cases rest with
      | nil => exact Or.inl ⟨List.append_nil _, hfind⟩
      | cons k rest =>
        rw [lookupBelow, Option.bind_eq_some_iff] at hfind
        obtain ⟨c, hc, hfind⟩ := hfind
        have hmem := hasc.lookup_eq_some_iff.1 hc
        exact Or.inr ⟨(k :: rest, v), mem_childEntries.2 ⟨_, hmem, (ih _ hmem).2 hfind⟩, rfl, rfl⟩

/-- The entries behind an edge start with its byte. -/
theorem Wf.head?_of_mem_entries {c : N} (h : Wf c) {k : UInt8} (hedge : (pfx c).head? = some k)
    {e : Bytes × V} (he : e ∈ entries c) : e.1.head? = some k :=
  head?_of_find hedge (h.mem_entries_iff.1 he)

/-- The keys of a child's entries start with the byte of its edge. -/
theorem Wf.key_of_child {n : N} (h : Wf n) {p : UInt8 × N} (hp : p ∈ iter n) {e : Bytes × V}
    (he : e ∈ entries p.2) : ∃ rest, e.1 = p.1 :: rest :=
  List.head?_eq_some_iff.1 ((h.child hp).head?_of_mem_entries (h.edges hp) he)

/-- Only the child behind a byte holds keys that start with it. -/
theorem Wf.filter_childEntries {n : N} (h : Wf n) {k : UInt8} {P : Bytes → Bool}
    (hP : ∀ e ∈ childEntries (iter n), P e.1 = true → e.1.head? = some k) :
    ((childEntries (iter n)).filter fun e => P e.1) =
      ((iter n).lookup k).elim [] fun c => (entries c).filter fun e => P e.1 := by
  have hothers : ∀ children : List (UInt8 × N), (∀ p ∈ children, p ∈ iter n ∧ p.1 ≠ k) →
      ((childEntries children).filter fun e => P e.1) = [] := by
    intro children hmem
    rw [List.filter_eq_nil_iff]
    intro e he hpass
    obtain ⟨p, hp, he⟩ := mem_childEntries.1 he
    obtain ⟨hiter, hne⟩ := hmem p hp
    obtain ⟨rest, hrest⟩ := h.key_of_child hiter he
    have hhead := hP e (mem_childEntries.2 ⟨p, hiter, he⟩) hpass
    rw [hrest] at hhead
    exact hne (Option.some.inj hhead)
  cases hlookup : (iter n).lookup k with
  | none =>
    rw [lookup_eq_none_iff] at hlookup
    exact hothers _ fun p hp => ⟨hp, fun heq => hlookup (heq ▸ List.mem_map_of_mem hp)⟩
  | some c =>
    have hmem := h.ascending.lookup_eq_some_iff.1 hlookup
    obtain ⟨l₁, l₂, hsplit⟩ := List.append_of_mem hmem
    have hnodup := h.ascending.nodup_keys
    rw [hsplit] at hnodup hothers ⊢
    simp only [List.map_append, List.map_cons, List.nodup_append, List.nodup_cons] at hnodup
    obtain ⟨_, ⟨hafter, _⟩, hbefore⟩ := hnodup
    have hnone₁ := hothers l₁ fun p hp => ⟨List.mem_append_left _ hp, fun heq =>
      hbefore p.1 (List.mem_map_of_mem hp) k (by simp) heq⟩
    have hnone₂ := hothers l₂ fun p hp =>
      ⟨List.mem_append_right _ (List.mem_cons_of_mem _ hp), fun heq => hafter (heq ▸ List.mem_map_of_mem hp)⟩
    rw [childEntries_append, List.filter_append, hnone₁, childEntries_cons, List.filter_append, hnone₂,
      List.nil_append, List.append_nil]
    rfl

/-- Keys behind different edges are in the order of the edges. -/
theorem lt_of_head?_lt {s t : Bytes} {a b : UInt8} (hs : s.head? = some a) (ht : t.head? = some b)
    (hab : a < b) : s < t := by
  obtain ⟨s', rfl⟩ := List.head?_eq_some_iff.1 hs
  obtain ⟨t', rfl⟩ := List.head?_eq_some_iff.1 ht
  exact List.cons_lt_cons_iff.2 (Or.inl hab)

/-- The entries come in strictly ascending order of their keys. -/
theorem Wf.entries_ascending {n : N} (h : Wf n) : Ascending (entries n) := by
  induction h with
  | intro n layout edges children occupied ih =>
    have hasc := Node.ascending layout
    have hchildren : Ascending (childEntries (iter n)) := by
      unfold childEntries
      rw [Ascending, List.pairwise_flatMap]
      refine ⟨fun p hp => ih p hp, ?_⟩
      refine hasc.imp_of_mem ?_
      intro p q hp hq hpq e he f hf
      exact lt_of_head?_lt ((children p hp).head?_of_mem_entries (edges p hp) he)
        ((children q hq).head?_of_mem_entries (edges q hq) hf) hpq
    rw [entries_eq_append, Ascending, List.pairwise_append, List.pairwise_map]
    refine ⟨?_, ?_, ?_⟩
    · cases value n with
      | none => exact List.Pairwise.nil
      | some v => exact List.pairwise_singleton _ _
    · exact hchildren.imp fun hlt => (LexOrder.append_lt_append_left_iff _).2 hlt
    · intro e he f hf
      obtain ⟨v, _, rfl⟩ : ∃ v, value n = some v ∧ (pfx n, v) = e := by
        cases hv : value n with
        | none => simp [hv] at he
        | some v => exact ⟨v, rfl, by simpa [hv, eq_comm] using he⟩
      obtain ⟨g, hg, rfl⟩ := List.mem_map.1 hf
      obtain ⟨p, hp, hg⟩ := mem_childEntries.1 hg
      have hhead := (children p hp).head?_of_mem_entries (edges p hp) hg
      refine LexOrder.lt_append_of_ne_nil _ fun hnil => ?_
      rw [hnil] at hhead
      cases hhead

/-- No well-formed node is without entries. -/
theorem Wf.entries_ne_nil {n : N} (h : Wf n) : entries n ≠ [] := by
  induction h with
  | intro n layout edges children occupied ih =>
    rw [entries_eq_append]
    cases hiter : iter n with
    | nil =>
      obtain ⟨v, hv⟩ := Option.isSome_iff_exists.1 (occupied hiter)
      simp [hv]
    | cons p rest =>
      have hne := ih p (by rw [hiter]; simp)
      simp [childEntries, hne]

end Entries

end Trie

end rart
