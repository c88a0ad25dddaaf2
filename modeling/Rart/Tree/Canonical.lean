import Rart.Tree.Shape

open SortedAssoc
open rart.node rart.utils rart.Trie

namespace rart.tree

variable {V : Type}

/-- What a node of a tree built by insertions alone looks like. -/
def Canonical (node : DefaultNode V) : Prop := LayoutFits node ∧ Branches node ∧ BareLeaf node

/-- Two nodes of one structure: the same prefixes, values, layouts and edges, down to
the leaves. The capacity of a table tells its layout; the place of a child in the
table is left open. -/
inductive SameShape : DefaultNode V → DefaultNode V → Prop where
  | intro (a b : DefaultNode V) (pfx : a.pfx = b.pfx) (value : a.value = b.value)
      (layout : a.content.capacity = b.content.capacity)
      (edges : a.iter.map Prod.fst = b.iter.map Prod.fst)
      (children : ∀ k c d, (k, c) ∈ a.iter → (k, d) ∈ b.iter → SameShape c d) : SameShape a b

theorem putClosed_canonical : PutClosed (Canonical (V := V)) where
  leaf pfx value := ⟨putClosed_layoutFits.leaf pfx value, putClosed_branches.leaf pfx value,
    putClosed_bareLeaf.leaf pfx value⟩
  valued pfx value h := ⟨putClosed_layoutFits.valued pfx value h.1,
    putClosed_branches.valued pfx value h.2.1, putClosed_bareLeaf.valued pfx value h.2.2⟩
  cut _ h := h
  inner hne hfits hbranches := ⟨hfits, hbranches, fun hnil => absurd hnil hne⟩
  widened hwide h := ⟨putClosed_layoutFits.widened hwide h.1, putClosed_branches.widened hwide h.2.1,
    putClosed_bareLeaf.widened hwide h.2.2⟩
  rewritten hnode h := ⟨putClosed_layoutFits.rewritten hnode h.1,
    putClosed_branches.rewritten hnode h.2.1, putClosed_bareLeaf.rewritten hnode h.2.2⟩

/-- The number of children decides the layout. -/
theorem capacity_eq_of_canonical {a b : DefaultNode V} (ha : Canonical a) (hb : Canonical b)
    (hlen : a.iter.length = b.iter.length) : a.content.capacity = b.content.capacity := by
  obtain ⟨hfita, _, hleafa⟩ := ha
  obtain ⟨hfitb, _, hleafb⟩ := hb
  unfold LayoutFits at hfita hfitb
  rw [hlen] at hfita
  by_cases hnil : b.iter = []
  · have hemptya := hleafa (List.eq_nil_of_length_eq_zero (by rw [hlen, hnil]; rfl))
    have hemptyb := hleafb hnil
    unfold DefaultNode.is_leaf at hemptya hemptyb
    revert hemptya hemptyb
    cases a.content <;> cases b.content <;> simp [Content.is_empty]
  · have hpos := List.length_pos_iff.2 hnil
    revert hfita hfitb
    cases a.content <;> cases b.content <;> simp only [Content.Fits, Content.capacity] <;> intros <;>
      first | trivial | omega

section Unique

variable [Features] {a b n : DefaultNode V}

/-- The prefix of a canonical node is the longest that its keys share. -/
theorem longest_of_canonical (hwf : Wf n) (h : Canonical n) {p : Bytes}
    (hp : ∀ key v, find n key = some v → p <+: key) : p <+: n.pfx := by
  have hbelow : ∀ {k : UInt8} {c : DefaultNode V}, (k, c) ∈ n.iter → ∃ rest, p <+: n.pfx ++ k :: rest := by
    intro k c hmem
    have hc := hwf.child hmem
    obtain ⟨e, he⟩ := List.exists_mem_of_ne_nil _ hc.entries_ne_nil
    obtain ⟨rest, hrest⟩ := hwf.key_of_child hmem he
    refine ⟨rest, hp _ e.2 ?_⟩
    have hfind := hc.mem_entries_iff.1 he
    have hrest : e.1 = k :: rest := hrest
    rw [hrest] at hfind
    exact (DefaultNode.find_below (hwf.ascending.lookup_eq_some_iff.2 hmem) rest).trans hfind
  cases hvalue : n.value with
  | some v => exact hp _ v ((DefaultNode.find_value n).trans hvalue)
  | none =>
    have htwo := h.2.1 hvalue
    obtain ⟨⟨k₁, c₁⟩, ⟨k₂, c₂⟩, rest, hiter⟩ : ∃ e₁ e₂ rest, n.iter = e₁ :: e₂ :: rest := by
      rcases hiter : n.iter with _ | ⟨e₁, _ | ⟨e₂, rest⟩⟩
      · simp [hiter] at htwo
      · simp [hiter] at htwo
      · exact ⟨e₁, e₂, rest, rfl⟩
    obtain ⟨r₁, h₁⟩ := hbelow (k := k₁) (c := c₁) (by rw [hiter]; simp)
    obtain ⟨r₂, h₂⟩ := hbelow (k := k₂) (c := c₂) (by rw [hiter]; simp)
    have hne : k₁ ≠ k₂ := by
      have hasc : Ascending n.iter := hwf.ascending
      rw [hiter] at hasc
      have hlt : k₁ < k₂ := (List.pairwise_cons.1 hasc).1 (k₂, c₂) (by simp)
      exact ne_of_lt hlt
    by_contra hnot
    have hlong : n.pfx.length < p.length := by
      by_contra hshort
      exact hnot (List.prefix_of_prefix_length_le h₁ (List.prefix_append _ _) (by omega))
    have hstart : n.pfx ++ [k₁] <+: p := List.prefix_of_prefix_length_le
      ⟨r₁, by simp⟩ h₁ (by simp only [List.length_append, List.length_singleton]; omega)
    obtain ⟨t, ht⟩ := hstart.trans h₂
    rw [List.append_assoc] at ht
    have hcons := List.append_cancel_left ht
    exact hne (List.cons.inj hcons).1

/-- Nodes that find the same values have the same edges. -/
theorem edges_subset (ha : Wf a) (hpfx : a.pfx = b.pfx)
    (hfind : ∀ key, find a key = find b key) {k : UInt8} (hk : k ∈ a.iter.map Prod.fst) :
    k ∈ b.iter.map Prod.fst := by
  obtain ⟨⟨k, c⟩, hmem, rfl⟩ := List.mem_map.1 hk
  obtain ⟨e, he⟩ := List.exists_mem_of_ne_nil _ (ha.child hmem).entries_ne_nil
  obtain ⟨rest, hrest⟩ := ha.key_of_child hmem he
  have hfound := (ha.child hmem).mem_entries_iff.1 he
  have hrest : e.1 = k :: rest := hrest
  rw [hrest] at hfound
  have hbelow := DefaultNode.find_below (ha.ascending.lookup_eq_some_iff.2 hmem) rest
  rw [hfound, hfind, hpfx] at hbelow
  by_contra hnot
  rw [DefaultNode.find_absent (lookup_eq_none_iff.2 hnot)] at hbelow
  cases hbelow

omit [Features] in
theorem keys_ext {l : List (UInt8 × DefaultNode V)} {m : List (UInt8 × DefaultNode V)}
    (hl : Ascending l) (hm : Ascending m) (h : ∀ k, k ∈ l.map Prod.fst ↔ k ∈ m.map Prod.fst) :
    l.map Prod.fst = m.map Prod.fst := by
  have hsorted : ∀ {l : List (UInt8 × DefaultNode V)}, Ascending l → (l.map Prod.fst).Pairwise (· < ·) :=
    fun hasc => List.pairwise_map.2 hasc
  exact (hsorted hl).eq_of_mem_iff (hsorted hm) fun k => h k

/-- A child finds what its parent finds behind the edge, and nothing else. -/
theorem find_child (hwf : Wf n) {k : UInt8} {c : DefaultNode V} (hmem : (k, c) ∈ n.iter) (key : Bytes) :
    find c key = if key.head? = some k then find n (n.pfx ++ key) else none := by
  split
  · rename_i hhead
    obtain ⟨rest, rfl⟩ := List.head?_eq_some_iff.1 hhead
    exact (DefaultNode.find_below (hwf.ascending.lookup_eq_some_iff.2 hmem) rest).symm
  · rename_i hhead
    cases hfound : find c key with
    | none => rfl
    | some v => exact absurd (head?_of_find (hwf.edges hmem) hfound) hhead

/-- Canonical nodes that find the same values are of one structure. -/
theorem sameShape_of_find (ha : Wf a) (hb : Wf b) (hca : Every Canonical a) (hcb : Every Canonical b)
    (hfind : ∀ key, find a key = find b key) : SameShape a b := by
  induction hn : a.node_count using Nat.strongRecOn generalizing a b with
  | ind n ih =>
    subst hn
    have hshares : ∀ {x y : DefaultNode V}, Wf y → Canonical y → (∀ key, find x key = find y key) →
        x.pfx <+: y.pfx := fun hy hcy heq => longest_of_canonical hy hcy fun key v hfound =>
      prefix_of_find (heq key ▸ hfound)
    have hpfx : a.pfx = b.pfx := (hshares hb hcb.here hfind).eq_of_length_le
      (hshares ha hca.here fun key => (hfind key).symm).length_le
    have hvalue : a.value = b.value := by
      rw [← a.find_value, ← b.find_value, hpfx]
      exact hfind _
    have hedges : a.iter.map Prod.fst = b.iter.map Prod.fst :=
      keys_ext ha.ascending hb.ascending fun k =>
        ⟨edges_subset ha hpfx hfind, edges_subset hb hpfx.symm fun key => (hfind key).symm⟩
    have hlen := congrArg List.length hedges
    rw [List.length_map, List.length_map] at hlen
    refine .intro a b hpfx hvalue (capacity_eq_of_canonical hca.here hcb.here hlen) hedges ?_
    intro k c d hc hd
    refine ih c.node_count (DefaultNode.node_count_lt_of_iter hc) (ha.child hc) (hb.child hd)
      (hca.child hc) (hcb.child hd) (fun key => ?_) rfl
    rw [find_child ha hc, find_child hb hd, hpfx, hfind]

end Unique

end rart.tree
