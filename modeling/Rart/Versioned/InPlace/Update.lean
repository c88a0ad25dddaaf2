import Rart.Versioned.InPlace.Remove

open SortedAssoc RcHeap Words LexOrder
open RcHeap.Heap (Valid Keeps Agree Below)
open rart.mapping rart.node rart.partials rart.utils

namespace rart.versioned_tree

open VersionedAdaptiveRadixTree

variable {V E R : Type}

section Updates

variable {h h' : Heap (VersionedNode V)} {roots : List Nat} {a : Nat} {node : VersionedNode V}
  {version : Nat} {key : Bytes} {depth : Nat} {cell cell' : UpdateCell V Empty} {opt : Option Nat}

/-- A node is changed: with `n` copies where it has one reference, with some where it
has more. -/
def Taken (h : Heap (VersionedNode V)) (a n : Nat) (h' : Heap (VersionedNode V)) : Prop :=
  if h.count a = 1 then h'.copied = h.copied + n else h.copied < h'.copied

theorem Taken.of_eq {n : Nat} (hpos : 0 < n) (heq : h'.copied = h.copied + n) : Taken h a n h' := by
  unfold Taken
  split
  · exact heq
  · omega

theorem Taken.add {n m : Nat} {h₁ : Heap (VersionedNode V)} (ht : Taken h a n h₁)
    (heq : h'.copied = h₁.copied + m) : Taken h a (n + m) h' := by
  unfold Taken at *
  split
  · rename_i hone
    rw [if_pos hone] at ht
    omega
  · rename_i hmany
    rw [if_neg hmany] at ht
    omega

/-- Without a change the callback was all that ran. -/
theorem fill_vacant_cases {fill : V → Result (Nat × Heap (VersionedNode V))} {changed : Bool}
    (hfill : fill_vacant h a cell fill = .ok (opt, changed, cell', h')) :
    (changed = false ∧ h' = h) ∨ (changed = true ∧ ∃ value b, fill value = .ok (b, h')) := by
  unfold fill_vacant at hfill
  obtain ⟨⟨value, cell₁⟩, _, hfill⟩ := bind_eq_ok_iff.1 hfill
  cases value with
  | none =>
    cases hfill
    exact .inl ⟨rfl, rfl⟩
  | some value =>
    obtain ⟨⟨b, h₁⟩, hrun, hend⟩ := bind_eq_ok_iff.1 hfill
    cases hend
    exact .inr ⟨rfl, value, b, hrun⟩

variable [Features]

theorem taken_exclusive {owned : VersionedNode V} (hnode : h.node? a = some node) (hlt : node.version < version)
    (hexclusive : exclusive h a version = .ok (owned, h')) : Taken h a 0 h' := by
  unfold Taken
  split
  · rename_i hone
    obtain ⟨count, hcell⟩ := Heap.node?_eq_some.1 hnode
    rw [Heap.count_of_cell? hcell] at hone
    rw [hone] at hcell
    obtain ⟨h₁, howned, hcopied, _⟩ := exclusive_unique hcell hlt
    rw [howned, Except.ok.injEq, Prod.mk.injEq] at hexclusive
    rw [← hexclusive.2]
    exact hcopied
  · rename_i hmany
    exact copied_exclusive_shared hnode hlt hmany hexclusive

/-- The callback on a value copies what moving the node does. -/
theorem taken_update_occupied {changed : Bool} (hnode : h.node? a = some node) (hlt : node.version < version)
    (hupdate : update_occupied h a version cell = .ok (opt, changed, cell', h')) :
    changed = true ∧ Taken h a 0 h' := by
  unfold update_occupied at hupdate
  obtain ⟨⟨owned, h₁⟩, howned, hupdate⟩ := bind_eq_ok_iff.1 hupdate
  obtain ⟨value, _, hupdate⟩ := bind_eq_ok_iff.1 hupdate
  obtain ⟨⟨left, action, cell₁⟩, _, hupdate⟩ := bind_eq_ok_iff.1 hupdate
  have htaken := taken_exclusive hnode hlt howned
  cases action with
  | error e => exact e.elim
  | ok action =>
    cases action with
    | Keep =>
      cases hupdate
      exact ⟨rfl, htaken⟩
    | Insert value' =>
      cases hupdate
      exact ⟨rfl, htaken⟩
    | Remove =>
      obtain ⟨⟨_, h₂⟩, hsettle, hend⟩ := bind_eq_ok_iff.1 hupdate
      cases hend
      have hsettled : h'.copied = h₁.copied + 0 := copied_settle hsettle
      exact ⟨rfl, htaken.add hsettled⟩

theorem taken_insert_leaf {value : V} {b : Nat} (hnode : h.node? a = some node) (hlt : node.version < version)
    (hinsert : insert_leaf h a key value depth version = .ok (b, h')) :
    Taken h a node.growth h' := by
  obtain ⟨count, hcell⟩ := Heap.node?_eq_some.1 hnode
  have hlen := Heap.lt_of_cell? hcell
  unfold Taken
  split
  · rename_i hone
    rw [Heap.count_of_cell? hcell] at hone
    rw [hone] at hcell
    exact copied_insert_leaf hcell hlt hinsert
  · rename_i hmany
    unfold insert_leaf at hinsert
    obtain ⟨edge, _, hinsert⟩ := bind_eq_ok_iff.1 hinsert
    obtain ⟨leaf, _, hinsert⟩ := bind_eq_ok_iff.1 hinsert
    obtain ⟨⟨owned, h₁⟩, howned, hinsert⟩ := bind_eq_ok_iff.1 hinsert
    obtain ⟨⟨after, h₂⟩, hadd, hend⟩ := bind_eq_ok_iff.1 hinsert
    cases hend
    have hnode' : (h.alloc (VersionedNode.new_leaf leaf value version)).2.node? a = some node := by
      unfold Heap.node?
      rw [Heap.cell?_alloc, if_neg (by omega), hcell]
      rfl
    have hless := copied_exclusive_shared hnode' hlt (by rwa [Heap.count_alloc_of_lt _ _ hlen]) howned
    have hadded := copied_add_child hadd
    have hless : h.copied < h₁.copied := hless
    change h.copied < h₂.copied
    omega

theorem copied_swap_child_le {k : UInt8} {new_child opt : Option Nat}
    (hswap : swap_child h a version k new_child = .ok (opt, h')) : h.copied ≤ h'.copied := by
  unfold swap_child at hswap
  obtain ⟨⟨owned, h₁⟩, howned, hswap⟩ := bind_eq_ok_iff.1 hswap
  obtain ⟨⟨old, left⟩, _, hswap⟩ := bind_eq_ok_iff.1 hswap
  obtain ⟨⟨after, h₂⟩, hadd, hswap⟩ := bind_eq_ok_iff.1 hswap
  obtain ⟨⟨_, h₃⟩, hsettle, hswap⟩ := bind_eq_ok_iff.1 hswap
  obtain ⟨h₄, hdrop, hend⟩ := bind_eq_ok_iff.1 hswap
  cases hend
  rw [copied_drop_opt hdrop, copied_settle hsettle]
  exact Nat.le_trans (copied_exclusive_le howned) (copied_add_child_opt hadd)

/-- What an update copies: nothing where it declines, what the node where it stops makes
it copy, and always something below that, since the child is in the hands of the caller. -/
inductive UpdateCopies (h : Heap (VersionedNode V)) (a : Nat) (node : VersionedNode V) (rest : Bytes)
    (h' : Heap (VersionedNode V)) : Bool → Prop where
  | declined (copied_eq : h'.copied = h.copied) : UpdateCopies h a node rest h' false
  | stopped (stops : ∀ k s, rest = node.pfx ++ k :: s → node.content.iter.lookup k = none)
      (taken : Taken h a (node.insertion_copies rest) h') : UpdateCopies h a node rest h' true
  | below (k : UInt8) (s : Bytes) (c : Nat) (rest_eq : rest = node.pfx ++ k :: s)
      (child : node.content.iter.lookup k = some c) (copied_lt : h.copied < h'.copied) :
      UpdateCopies h a node rest h' true

omit [Features] in
theorem fill_vacant_copies {fill : V → Result (Nat × Heap (VersionedNode V))} {changed : Bool} {rest : Bytes}
    (hstops : ∀ k s, rest = node.pfx ++ k :: s → node.content.iter.lookup k = none)
    (htaken : ∀ value b h', fill value = .ok (b, h') → Taken h a (node.insertion_copies rest) h')
    (hfill : fill_vacant h a cell fill = .ok (opt, changed, cell', h')) :
    UpdateCopies h a node rest h' changed := by
  obtain ⟨rfl, rfl⟩ | ⟨rfl, value, b, hrun⟩ := fill_vacant_cases hfill
  · exact .declined rfl
  · exact .stopped hstops (htaken value b h' hrun)

theorem update_recurse_copies {changed : Bool} (hv : Valid h (a :: roots)) (hnode : h.node? a = some node)
    (hlt : node.version < version) (hdepth : depth ≤ key.length)
    (hrun : update_recurse h a key depth version cell = .ok (opt, changed, cell', h')) :
    UpdateCopies h a node (key.drop depth) h' changed := by
  induction a using Nat.strongRecOn generalizing h h' roots node depth opt changed cell' with
  | ind a ih =>
    rw [update_recurse, hnode, arc_some, ok_bind, prefix_length_key_eq_ok hdepth, ok_bind, length_at,
      usize_sub_eq_ok hdepth, ok_bind] at hrun
    dsimp only at hrun
    -- a key that does not get past the prefix stops here, and copies the node that it splits
    have hsplits : ¬ node.pfx <+: key.drop depth → ∀ {fill : V → Result (Nat × Heap (VersionedNode V))},
        fill_vacant h a cell fill = .ok (opt, changed, cell', h') →
        (∀ value b h₂, fill value = .ok (b, h₂) → h₂.copied = h.copied + 1) →
          UpdateCopies h a node (key.drop depth) h' changed := fun hnot fill hrun hfill => by
      refine fill_vacant_copies (fun k s heq => absurd ⟨k :: s, heq.symm⟩ hnot) (fun value b h₂ h => ?_) hrun
      rw [insertion_copies_split hnot]
      exact .of_eq Nat.one_pos (hfill value b h₂ h)
    cases arrival node.pfx key depth with
    | ends hkey hends =>
      rw [if_pos hends] at hrun
      rw [hkey]
      have hzero := insertion_copies_self node
      split at hrun
      · refine fill_vacant_copies stops_at_end (fun value b h₂ hfill => ?_) hrun
        obtain ⟨⟨owned, h₁⟩, howned, hend⟩ := bind_eq_ok_iff.1 hfill
        cases hend
        have htaken := taken_exclusive hnode hlt howned
        rw [hzero]
        exact htaken
      · obtain ⟨rfl, htaken⟩ := taken_update_occupied hnode hlt hrun
        exact .stopped stops_at_end (by rwa [hzero])
    | goes_on k s hkey hlcp hmore hbelow hmatch hk hrest hdepth' =>
      rw [if_neg hmore, if_neg hbelow, if_neg hmatch, hlcp] at hrun
      have hrepr := (hv.sound a node hnode).linked.repr
      cases hlookup : node.content.iter.lookup k with
      | none =>
        have hleaf : ∀ value b h₂, (∃ depth, insert_leaf h a key value depth version = .ok (b, h₂)) →
            Taken h a (node.insertion_copies (node.pfx ++ k :: s)) h₂ := by
          rintro value b h₂ ⟨depth', hinsert⟩
          rw [insertion_copies_edge]
          exact taken_insert_leaf hnode hlt hinsert
        rw [hkey]
        split at hrun
        · exact fill_vacant_copies (stops_at_edge hlookup) (fun value b h₂ h => hleaf value b h₂ ⟨_, h⟩) hrun
        · have hseek : node.seek_child k = none := (hrepr.seek_child k).trans hlookup
          rw [hk, ok_bind, hseek] at hrun
          exact fill_vacant_copies (stops_at_edge hlookup) (fun value b h₂ h => hleaf value b h₂ ⟨_, h⟩) hrun
      | some child =>
        have hleaf := inner_of_lookup hv hnode hlookup
        have hseek : node.seek_child k = some child := (hrepr.seek_child k).trans hlookup
        have hmem : (k, child) ∈ node.content.iter := hrepr.ascending.lookup_eq_some_iff.1 hlookup
        have hless := hv.counted.older a node hnode child (mem_handles hmem)
        obtain ⟨stored, hstored, _, hversion⟩ := (hv.sound a node hnode).linked.edges (k, child) hmem
        have hstored : h.node? child = some stored := hstored
        obtain ⟨h₀, hclone, hv₀, hk₀, hsame₀⟩ := hv.clone ⟨stored, hstored⟩
        rw [if_neg hleaf, hk, ok_bind, hseek] at hrun
        dsimp only at hrun
        rw [hclone, arc_some, ok_bind, if_pos hless] at hrun
        obtain ⟨⟨opt₁, changed₁, cell₁, h₁⟩, hrec, hrun⟩ := bind_eq_ok_iff.1 hrun
        have hcopies := ih child hless hv₀ ((hsame₀ child).trans hstored) (by omega) hdepth' hrec
        have hcopied₀ := Heap.copied_clone hclone
        cases changed₁ with
        | false =>
          obtain ⟨h₂, hdrop, hend⟩ := bind_eq_ok_iff.1 hrun
          cases hend
          cases hcopies with
          | declined hcopied => exact .declined ((copied_drop_opt hdrop).trans (hcopied.trans hcopied₀))
        | true =>
          obtain ⟨⟨opt₂, h₂⟩, hswap, hend⟩ := bind_eq_ok_iff.1 hrun
          cases hend
          have hmany : h₀.count child ≠ 1 := by
            obtain ⟨count, hcell⟩ := Heap.node?_eq_some.1 hstored
            have hpos : 0 < count := hv.counted.positive child _ hcell
            rw [Heap.count_clone hclone, Heap.count_of_cell? hcell]
            omega
          have hstrict : h₀.copied < h₁.copied := by
            cases hcopies with
            | stopped _ htaken =>
              unfold Taken at htaken
              rwa [if_neg hmany] at htaken
            | below _ _ _ _ _ hlt => exact hlt
          have hle : h₁.copied ≤ h₂.copied := copied_swap_child_le hswap
          exact .below k s child hkey hlookup (show h.copied < h₂.copied by omega)
    | above k p hpfx hnot hlcp hmore habove =>
      rw [if_neg hmore, if_pos habove] at hrun
      exact hsplits hnot hrun fun value b h₂ hfill => copied_insert_above hfill
    | splits c p s k₁ k₂ hne hpfx hkey hnot hlcp hmore hbelow hsplit =>
      rw [if_neg hmore, if_neg hbelow, if_pos hsplit] at hrun
      exact hsplits hnot hrun fun value b h₂ hfill => copied_insert_split hfill

end Updates

end rart.versioned_tree
