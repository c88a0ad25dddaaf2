import Rart.Versioned.Insert

open SortedAssoc RcHeap Words LexOrder
open RcHeap.Heap (Valid Keeps Agree Below)
open rart.node rart.partials rart.utils

namespace rart.versioned_tree

variable {V : Type} [Features]

section Steps

def cow_path_to_key (h : Heap (VersionedNode V)) (cur_node : Nat) (key : Bytes) (depth version : Nat) :
    Result (Option Nat × Heap (VersionedNode V)) := do
  let node ← arc (h.node? cur_node)
  let prefix_common_match ← prefix_length_key node.pfx key depth
  if prefix_common_match ≠ node.pfx.length then return (none, ← drop_arc h cur_node)
  else
    let (new_node, h) ← exclusive h cur_node version
    let remaining ← length_at key depth
    if new_node.pfx.length = remaining then
      if new_node.value.isNone then return (none, ← drop_node h new_node)
      else
        let (new_node, h) := h.alloc new_node
        return (some new_node, h)
    else if new_node.is_leaf then return (none, ← drop_node h new_node)
    else
      let key_byte ← byte_at key (depth + new_node.pfx.length)
      let prefix_len := new_node.pfx.length
      let (child, new_node) ← new_node.delete_child key_byte
      match child with
      | none => return (none, ← drop_node h new_node)
      | some child =>
        -- the cell of a child is older than its parent's
        if child < cur_node then
          let (new_child, h) ← cow_path_to_key h child key (depth + prefix_len) version
          match new_child with
          | none => return (none, ← drop_node h new_node)
          | some new_child =>
            let (new_node, h) ← new_node.add_child h key_byte new_child
            let (new_node, h) := h.alloc new_node
            return (some new_node, h)
        else throw .out_of_fuel
termination_by cur_node

/-- The reference that `get_iterate_mut_cow_ready` returns is written through with
`write`. A node that is borrowed by `Arc::get_mut` is out of its cell meanwhile. -/
def get_iterate_mut_cow_ready (write : V → V) (h : Heap (VersionedNode V)) (cur_node : Nat) (key : Bytes)
    (depth : Nat) : Result (Option V × Heap (VersionedNode V)) := do
  let taken ← arc (h.take cur_node)
  let (node, borrowed) ← expect taken "CoW path should be uniquely owned"
  let prefix_common_match ← prefix_length_key node.pfx key depth
  if prefix_common_match ≠ node.pfx.length then return (none, h)
  else
    let remaining ← length_at key depth
    if node.pfx.length = remaining then
      match node.value with
      | none => return (none, h)
      | some value => return (some value, borrowed.restore cur_node { node with value := some (write value) })
    else
      let k ← byte_at key (depth + node.pfx.length)
      let prefix_len := node.pfx.length
      match node.seek_child k with
      | none => return (none, h)
      | some child =>
        -- the cell of a child is older than its parent's
        if child < cur_node then
          let (value, borrowed) ← get_iterate_mut_cow_ready write borrowed child key (depth + prefix_len)
          return (value, borrowed.restore cur_node node)
        else throw .out_of_fuel
termination_by cur_node

end Steps

variable {h h' : Heap (VersionedNode V)} {roots : List Nat} {a : Nat} {node : VersionedNode V}
  {version : Nat}

section Path

/-- The way to a key leads through new cells only, with one reference each. -/
def Ready (h h' : Heap (VersionedNode V)) (a' : Nat) (key : Bytes) : Prop :=
  ∀ b ∈ visited h' a' key, h'.count b = 1 ∧ h.cells.length ≤ b

omit [Features] in
theorem count_alloc_self (h : Heap (VersionedNode V)) (node : VersionedNode V) :
    (h.alloc node).2.count (h.alloc node).1 = 1 := Heap.count_of_cell? (cell?_alloc_self h node)

/-- The copied way to a key that is present holds the same entries. -/
theorem cow_path_to_key_spec (hv : Valid h (a :: roots)) (hnode : h.node? a = some node)
    (hlt : node.version < version) {key : Bytes} {depth : Nat} (hdepth : depth ≤ key.length) {value : V}
    (hfind : find h a (key.drop depth) = some value) :
    ∃ a' h', cow_path_to_key h a key depth version = .ok (some a', h') ∧
      Changed h a node roots version (key.drop depth) (some value) a' h' ∧
      Ready h h' a' (key.drop depth) := by
  induction a using Nat.strongRecOn generalizing h roots node depth with
  | ind a ih =>
    obtain ⟨owned, h₁, howned, hex⟩ := exclusive_spec hv hnode hlt
    have hpfx_eq : owned.pfx = node.pfx := hex.copy.pfx_eq
    rw [cow_path_to_key, hnode, arc_some, ok_bind, prefix_length_key_eq_ok hdepth, ok_bind, length_at,
      usize_sub_eq_ok hdepth]
    cases probe.meets node.pfx hdepth with
    | diverges hne hpfx =>
      rw [find_diverges hv hnode hpfx] at hfind
      cases hfind
    | ends hpfx hlcp hlen =>
      rw [hpfx, find_self hv hnode] at hfind
      have hvalue : owned.value = some value := hex.copy.value_eq.trans hfind
      have hreworked : Reworked h a node roots version node.pfx owned.value owned h₁ :=
        hex.set_value owned.value
      rw [hvalue] at hreworked
      have hchanged := hreworked.alloc fun _ => ⟨value, hvalue⟩
      refine ⟨(h₁.alloc owned).1, (h₁.alloc owned).2, ?_, hpfx ▸ hchanged, fun b hb => ?_⟩
      · rw [if_neg (not_not.2 hlcp), howned, ok_bind]
        simp only [ok_bind, hpfx_eq, hlen, if_true, hvalue, Option.isNone_some, Bool.false_eq_true, if_false,
          pure_eq_ok]
      · obtain ⟨hv₂, hnode₂, _⟩ := hex.held.alloc fun _ => ⟨value, hvalue⟩
        rw [visited_stops hv₂ hnode₂ fun k rest hkey => ?_, List.mem_singleton] at hb
        · rw [hb]
          exact ⟨count_alloc_self h₁ owned, hex.keeps.continues.length_le⟩
        · have hlens := congrArg List.length hkey
          rw [hpfx, hpfx_eq] at hlens
          simp only [List.length_append, List.length_cons] at hlens
          omega
    | goes_on k rest hpfx hlcp hlen hk hrest hdepth' =>
      rw [hpfx] at hfind
      obtain ⟨c, hc, hbelow⟩ := lookup_of_find hv hnode hfind
      have hleaf : owned.is_leaf = false := by
        rw [hex.copy.is_leaf_eq, ← Bool.not_eq_true]
        exact inner_of_lookup hv hnode hc
      have hlookup : owned.content.iter.lookup k = some c := by
        rw [hex.copy.iter_eq, hc]
      obtain ⟨left, hdelete, hdetached⟩ := delete_child_spec hex.held hlookup
      obtain ⟨hless, stored, hstored, hedge, hchildversion⟩ := hex.older (k, c) (mem_of_lookup hlookup)
      have hchildfind : find h₁ c (k :: rest) = some value := by
        rw [find_agree hv hex.held.valid (hex.agree_of_lookup hlookup), hbelow]
      obtain ⟨c', h₂, hrec, hchanged, hready⟩ := ih c hless (hdetached.held.valid.perm List.perm_middle.symm)
        hstored hchildversion hdepth' (by rw [hrest]; exact hchildfind)
      rw [hrest] at hchanged hready
      obtain ⟨after, h₃, hadd, hlookup', hreworked⟩ :=
        hex.put_back hv hnode hlookup hdetached ⟨hstored, hedge⟩ hchanged
      -- the table has room again, so the heap stays
      obtain rfl := add_child_heap (hdetached.is_leaf_eq.trans hleaf) hdetached.room hadd
      have hoccupied : after.content.iter = [] → ∃ v, after.value = some v := fun hempty => by
        rw [hempty] at hlookup'
        cases hlookup'
      obtain ⟨hv₄, hnode₄, hk₄⟩ := hreworked.held.alloc hoccupied
      refine ⟨_, _, ?_, hpfx ▸ hreworked.alloc hoccupied, fun b hb => ?_⟩
      · rw [if_neg (not_not.2 hlcp), howned, ok_bind]
        dsimp only
        rw [ok_bind, if_neg (by rw [hpfx_eq]; exact hlen), if_neg (by rw [hleaf]; simp), byte_at, hpfx_eq, hk, ok_bind]
        rw [hdelete, ok_bind]
        dsimp only
        rw [if_pos hless, hrec]
        simp only [ok_bind, hadd, pure_eq_ok]
      · have hin : c' ∈ handles after := mem_handles (p := (k, c')) (mem_of_lookup hlookup')
        rw [hpfx, ← hreworked.pfx_eq, visited_goes_on hv₄ hnode₄ hlookup',
          visited_agree hreworked.held.valid hv₄ (hk₄.agree c' (List.mem_append_left _ hin)),
          List.mem_cons] at hb
        have hlength := hreworked.keeps.continues.length_le
        cases hb with
        | inl heq =>
          rw [heq]
          exact ⟨count_alloc_self h₃ after, hlength⟩
        | inr hbelow =>
          obtain ⟨hcount, hle⟩ := hready b hbelow
          obtain ⟨_, stored', hstored'⟩ := visited_le hreworked.held.valid hbelow
          refine ⟨(Heap.count_alloc_of_lt h₃ after (Heap.lt_of_node? hstored')).trans hcount, ?_⟩
          exact Nat.le_trans hex.keeps.continues.length_le hle

end Path

section Write

/-- What a write through a mutable reference leads to. -/
structure Written (h : Heap (VersionedNode V)) (a : Nat) (node : VersionedNode V) (roots : List Nat)
    (key : Bytes) (slot : Option V) (h' : Heap (VersionedNode V)) : Prop where
  valid : Valid h' (a :: roots)
  keeps : Keeps h h' roots
  updated : Updated (find h a) (find h' a) key slot
  stored : ∃ after, h'.node? a = some after ∧ after.version = node.version ∧ after.pfx = node.pfx
  shares : ∀ b, OffPath h a key b → Below h' a b ∧ Agree h h' b
  visited_eq : visited h' a key = visited h a key
  dead : ∀ b, h.node? b = none → h'.node? b = none
  copied : h'.copied = h.copied

omit [Features] in
theorem take_sole (hnode : h.node? a = some node) (hsole : h.count a = 1) :
    h.cell? a = some ⟨1, node⟩ ∧ h.take a = some (some (node, h.setCell a none)) := by
  obtain ⟨count, hcell⟩ := Heap.node?_eq_some.1 hnode
  obtain rfl : count = 1 := (Heap.count_of_cell? hcell).symm.trans hsole
  refine ⟨hcell, ?_⟩
  unfold Heap.take
  rw [hcell]
  rfl

/-- A borrowed node goes back into its cell after the tree below it was written to. -/
theorem Written.of_restore {h₂ : Heap (VersionedNode V)} {after : VersionedNode V} {key : Bytes}
    {slot : Option V} (hv : Valid h (a :: roots)) (hcell : h.cell? a = some ⟨1, node⟩)
    (hvalid : Valid h₂ (handles after ++ roots)) (hstored : Stored h₂ after)
    (hkeeps : Keeps (h.setCell a none) h₂ roots)
    (hdead : ∀ b, (h.setCell a none).node? b = none → h₂.node? b = none) (hcopied : h₂.copied = h.copied)
    (hsame : after.content.iter = node.content.iter ∧ after.version = node.version ∧ after.pfx = node.pfx)
    (hupdated : Updated (read h node) (read h₂ after) key slot)
    (hshares : Shares h a key h₂ (handles after))
    (hvisited : ∀ k rest c, key = node.pfx ++ k :: rest → node.content.iter.lookup k = some c →
      visited h₂ c (k :: rest) = visited h c (k :: rest)) :
    Written h a node roots key slot (h₂.restore a after) := by
  have ha := Heap.lt_of_cell? hcell
  obtain ⟨hiter, hversion, hpfx⟩ := hsame
  have hhandles : handles after = handles node := congrArg (List.map Prod.snd) hiter
  obtain ⟨_, _, hk₁, holder⟩ := hv.free hcell
  have hnode := Heap.node?_of_cell? hcell
  have hgone : ∀ b, (h.setCell a none).node? b = if b = a then none else h.node? b := fun b => by
    unfold Heap.node?
    rw [Heap.cell?_setCell ha]
    split <;> rfl
  have ha₂ : a < h₂.cells.length := by
    have hle := hkeeps.continues.length_le
    unfold Heap.setCell at hle
    rw [List.length_set] at hle
    omega
  obtain ⟨hv₃, hnode₃, hk₃⟩ := hvalid.restore ha₂ (hdead a (by rw [hgone, if_pos rfl])) hstored
    (by rw [hhandles]; exact holder)
  have hroots : ∀ b ∈ roots, b ∈ handles after ++ roots := fun b hb => List.mem_append_right _ hb
  refine ⟨hv₃, ?_, ?_, ⟨after, hnode₃, hversion, hpfx⟩, fun b ho => ?_, ?_, fun b hb => ?_, hcopied⟩
  · exact ((hk₁.subset fun b hb => List.mem_append_right _ hb).trans hkeeps).trans (hk₃.subset hroots)
  · refine hupdated.congr (find_eq_read hv hnode) fun w => ?_
    rw [find_eq_read hv₃ hnode₃, read_keeps hvalid hv₃ hk₃ fun c hc => List.mem_append_left _ hc]
  · obtain ⟨c, hc, hbelow, hagree⟩ := hshares.alloc hk₃ (fun c hc => List.mem_append_left _ hc) hnode₃ b ho
    rw [List.mem_singleton.1 hc] at hbelow
    exact ⟨hbelow, hagree⟩
  · by_cases hstop : ∀ k rest, key = node.pfx ++ k :: rest → node.content.iter.lookup k = none
    · rw [visited_stops hv hnode hstop, visited_stops hv₃ hnode₃ (by rw [hpfx, hiter]; exact hstop)]
    · push Not at hstop
      obtain ⟨k, rest, rfl, hne⟩ := hstop
      obtain ⟨c, hc⟩ := Option.ne_none_iff_exists'.1 hne
      have hin : c ∈ handles after := by
        rw [hhandles]
        exact mem_handles (p := (k, c)) (mem_of_lookup hc)
      have hbelow := visited_goes_on hv₃ hnode₃ (by rw [hiter]; exact hc) rest
      rw [hpfx] at hbelow
      rw [hbelow, visited_goes_on hv hnode hc, ← hvisited k rest c rfl hc,
        visited_agree hvalid hv₃ (hk₃.agree c (List.mem_append_left _ hin))]
  · have hne : b ≠ a := fun heq => by
      rw [heq, hnode] at hb
      cases hb
    have hnone : h₂.node? b = none := hdead b (by rw [hgone, if_neg hne, hb])
    unfold Heap.restore Heap.node? at *
    rw [Heap.cell?_setCell ha₂, if_neg hne]
    exact hnone

/-- A node with another value in it. -/
theorem Written.of_value {value : V} (hv : Valid h (a :: roots)) (hcell : h.cell? a = some ⟨1, node⟩) :
    Written h a node roots node.pfx (some value) ((h.setCell a none).restore a { node with value := some value }) := by
  obtain ⟨hv₁, hsound₁, hk₁, _⟩ := hv.free hcell
  have hnode := Heap.node?_of_cell? hcell
  refine .of_restore hv hcell hv₁ ⟨⟨hsound₁.linked.repr, hsound₁.linked.edges⟩, fun _ => ⟨value, rfl⟩⟩
    (hv₁.keeps_refl.subset fun b hb => List.mem_append_right _ hb) (fun _ hb => hb) rfl
    ⟨rfl, rfl, rfl⟩ ?_ (.of_children hnode fun p hp => ?_) fun k rest c hkey _ => ?_
  · have hbelow := (updated_value (h.setCell a none) node.value (some value) node.content.iter).behind node.pfx
    rw [List.append_nil] at hbelow
    refine hbelow.congr (fun w => ?_) fun w => rfl
    have hwhole := read_keeps hv hv₁ hk₁ (fun c hc => List.mem_append_left _ hc) w
    unfold read at hwhole
    exact hwhole.symm
  · exact ⟨mem_handles hp, hk₁.agree p.2 (List.mem_append_left _ (mem_handles hp))⟩
  · have hlens := congrArg List.length hkey
    simp only [List.length_append, List.length_cons] at hlens
    omega

/-- A node is borrowed, and its child behind an edge in hand, apart from its other children. -/
structure Borrowed (h : Heap (VersionedNode V)) (a : Nat) (node : VersionedNode V) (roots : List Nat)
    (k : UInt8) (rest : Bytes) (c : Nat) (child : VersionedNode V) : Prop where
  less : c < a
  seek_eq : node.seek_child k = some c
  valid : Valid (h.setCell a none) (c :: ((handles node).erase c ++ roots))
  perm : (c :: ((handles node).erase c ++ roots)).Perm (handles node ++ roots)
  stored : (h.setCell a none).node? c = some child
  edge : child.pfx.head? = some k
  visited : ∀ b ∈ visited (h.setCell a none) c (k :: rest), b ∈ visited h a (node.pfx ++ k :: rest) ∧
    (h.setCell a none).count b = h.count b
  find_eq : ∀ w, find (h.setCell a none) c w = find h c w

theorem Borrowed.of_lookup {k : UInt8} {c : Nat} (hv : Valid h (a :: roots)) (hcell : h.cell? a = some ⟨1, node⟩)
    (hc : node.content.iter.lookup k = some c) (rest : Bytes) :
    ∃ child, Borrowed h a node roots k rest c child := by
  have hnode := Heap.node?_of_cell? hcell
  have hlinked := (hv.sound a node hnode).linked
  obtain ⟨hv₁, hsound₁, hk₁, holder⟩ := hv.free hcell
  have hmem : c ∈ handles node := mem_handles (p := (k, c)) (mem_of_lookup hc)
  obtain ⟨stored, hstored, hedge, _⟩ := hlinked.edges (k, c) (mem_of_lookup hc)
  have hagree := hk₁.agree c (List.mem_append_left _ hmem)
  have hperm : (c :: ((handles node).erase c ++ roots)).Perm (handles node ++ roots) :=
    (List.perm_cons_erase hmem).symm.append_right roots
  refine ⟨stored, holder c hmem, (hlinked.repr.seek_child k).trans hc, hv₁.perm hperm, hperm,
    hagree.node?_eq.trans hstored, hedge, fun b hb => ?_, fun w => find_agree hv hv₁ hagree w⟩
  rw [visited_agree hv hv₁ hagree] at hb
  have hle := (visited_le hv hb).1
  have hless := holder c hmem
  refine ⟨?_, ?_⟩
  · rw [visited_goes_on hv hnode hc]
    exact List.mem_cons_of_mem _ hb
  · unfold Heap.count
    rw [Heap.cell?_setCell (Heap.lt_of_cell? hcell), if_neg (by omega)]

/-- The borrowed node after its child was written to. -/
theorem Borrowed.written {k : UInt8} {rest : Bytes} {c : Nat} {child : VersionedNode V} {slot : Option V}
    {h₂ : Heap (VersionedNode V)} (hv : Valid h (a :: roots)) (hcell : h.cell? a = some ⟨1, node⟩)
    (hc : node.content.iter.lookup k = some c) (hborrowed : Borrowed h a node roots k rest c child)
    (hwritten : Written (h.setCell a none) c child ((handles node).erase c ++ roots) (k :: rest) slot h₂) :
    Valid h₂ (handles node ++ roots) ∧ Stored h₂ node ∧
      Written h a node roots (node.pfx ++ k :: rest) slot (h₂.restore a node) := by
  have hnode := Heap.node?_of_cell? hcell
  have hlinked := (hv.sound a node hnode).linked
  obtain ⟨hv₁, hsound₁, hk₁, _⟩ := hv.free hcell
  have hmem : c ∈ handles node := mem_handles (p := (k, c)) (mem_of_lookup hc)
  have hagree := hk₁.agree c (List.mem_append_left _ hmem)
  have hstored : h.node? c = some child := hagree.node?_eq.symm.trans hborrowed.stored
  obtain ⟨after, hafter, hversion, hpfx'⟩ := hwritten.stored
  have hv₂ := hwritten.valid.perm hborrowed.perm.symm
  have hother : ∀ p ∈ node.content.iter, p.1 ≠ k → p.2 ∈ handles node ∧ Agree h h₂ p.2 := by
    intro p hp hne
    have hdiff : p.2 ≠ c := fun heq => by
      obtain ⟨stored', hstored', hedge', _⟩ := hlinked.edges p hp
      rw [heq, hstored] at hstored'
      cases hstored'
      exact hne (Option.some.inj (hedge'.symm.trans hborrowed.edge))
    have hleft := mem_handles hp
    exact ⟨hleft, (hk₁.agree p.2 (List.mem_append_left _ hleft)).trans (hwritten.keeps.agree p.2
      (List.mem_append_left _ ((List.mem_erase_of_ne hdiff).2 hleft)))⟩
  have hstays : Stored h₂ node := by
    refine ⟨⟨hlinked.repr, fun p hp => ?_⟩, hsound₁.occupied⟩
    by_cases hk' : p.1 = k
    · have hlookup := hlinked.repr.ascending.lookup_eq_some_iff.2 hp
      rw [hk', hc, Option.some.injEq] at hlookup
      obtain ⟨stored', hstored', hedge', hold⟩ := hlinked.edges p hp
      rw [← hlookup, hstored] at hstored'
      cases hstored'
      refine ⟨after, hlookup ▸ hafter, ?_, ?_⟩
      · rw [hpfx', hedge']
      · rw [hversion]
        exact hold
    · obtain ⟨stored', hstored', hedge', hold⟩ := hlinked.edges p hp
      exact ⟨stored', (hother p hp hk').2.node?_eq.trans hstored', hedge', hold⟩
  refine ⟨hv₂, hstays, .of_restore hv hcell hv₂ hstays
    (hwritten.keeps.subset fun b hb => List.mem_append_right _ hb) hwritten.dead hwritten.copied
    ⟨rfl, rfl, rfl⟩ ?_ ?_ fun k' rest' c' hkey' hc' => ?_⟩
  · refine Updated.behind (updated_edge (fun _ _ => rfl) (fun p hp hne w => ?_) ?_) node.pfx
    · exact find_agree hv (hwritten.valid) (hother p hp hne).2 w
    · rw [hc]
      exact hwritten.updated.congr (fun w => (find_agree hv hv₁ hagree w).symm) fun _ => rfl
  · refine .step hv hnode hc hv₁ hagree (fun b ho => ⟨c, List.mem_singleton_self c, hwritten.shares b ho⟩)
      (fun c' hc' => ?_) hother
    rw [List.mem_singleton.1 hc']
    exact hmem
  · rw [List.append_cancel_left_eq] at hkey'
    cases hkey'
    rw [hc] at hc'
    cases hc'
    rw [hwritten.visited_eq, visited_agree hv hv₁ hagree]

/-- A mutable reference leads to the value that is stored, and a write through it
changes nothing else. -/
theorem get_iterate_mut_cow_ready_spec (write : V → V) (hv : Valid h (a :: roots))
    (hnode : h.node? a = some node) {key : Bytes} {depth : Nat} (hdepth : depth ≤ key.length)
    (hsole : ∀ b ∈ visited h a (key.drop depth), h.count b = 1) {value : V}
    (hfind : find h a (key.drop depth) = some value) :
    ∃ h', get_iterate_mut_cow_ready write h a key depth = .ok (some value, h') ∧
      Written h a node roots (key.drop depth) (some (write value)) h' := by
  induction a using Nat.strongRecOn generalizing h roots node depth with
  | ind a ih =>
    obtain ⟨hcell, htake⟩ := take_sole hnode (hsole a (mem_visited_self hnode))
    rw [get_iterate_mut_cow_ready, htake, arc_some, ok_bind, expect_some, ok_bind]
    dsimp only
    rw [prefix_length_key_eq_ok hdepth, ok_bind, length_at, usize_sub_eq_ok hdepth]
    cases probe.meets node.pfx hdepth with
    | diverges hne hpfx =>
      rw [find_diverges hv hnode hpfx] at hfind
      cases hfind
    | ends hpfx hlcp hlen =>
      have hvalue : node.value = some value := by rw [← find_self hv hnode, ← hpfx, hfind]
      refine ⟨(h.setCell a none).restore a { node with value := some (write value) }, ?_, hpfx ▸ .of_value hv hcell⟩
      rw [if_neg (not_not.2 hlcp), ok_bind, if_pos hlen]
      simp only [hvalue, pure_eq_ok]
    | goes_on k rest hpfx hlcp hlen hk hrest hdepth' =>
      rw [hpfx] at hfind hsole
      obtain ⟨c, hc, hchildfind⟩ := lookup_of_find hv hnode hfind
      obtain ⟨child, hborrowed⟩ := Borrowed.of_lookup hv hcell hc rest
      have hsole₁ : ∀ b ∈ visited (h.setCell a none) c (k :: rest), (h.setCell a none).count b = 1 := fun b hb => by
        obtain ⟨hin, hcount⟩ := hborrowed.visited b hb
        rw [hcount, hsole b hin]
      obtain ⟨h₂, hrec, hwritten⟩ := ih c hborrowed.less hborrowed.valid hborrowed.stored hdepth'
        (by rw [hrest]; exact hsole₁) (by rw [hrest, hborrowed.find_eq]; exact hchildfind)
      rw [hrest] at hwritten
      obtain ⟨_, _, hback⟩ := hborrowed.written hv hcell hc hwritten
      refine ⟨h₂.restore a node, ?_, hpfx ▸ hback⟩
      rw [if_neg (not_not.2 hlcp), ok_bind, if_neg hlen, byte_at, hk, ok_bind, hborrowed.seek_eq]
      dsimp only
      rw [if_pos hborrowed.less, hrec]
      simp only [ok_bind, pure_eq_ok]

end Write

end rart.versioned_tree
