import Rart.Tree.Bulk
import Rart.Tree.Reads

open SortedAssoc LexOrder
open rart.node rart.utils rart.Trie

namespace rart.tree

variable {V σ : Type}

/-- Two trees of one structure. -/
structure SameTree (a b : AdaptiveRadixTree V) : Prop where
  len : a.len = b.len
  root : Option.Rel SameShape a.root b.root

/-- The insertions of a list of entries, one after the other. -/
def inserts (items : List (Bytes × V)) : List (Op V Empty) := items.map fun e => .insert_k e.1 e.2

/-- The map that a list of entries leaves behind, the last value of a key winning. -/
def inserted (items : List (Bytes × V)) : RefMap V := (runMap ∅ (inserts items)).2

/-- The tree that the insertions of a list of entries make of a new one. -/
def grown [Features] (items : List (Bytes × V)) : Result (AdaptiveRadixTree V) :=
  Prod.snd <$> runTree .new (inserts items)

section Maps

variable {m : RefMap V} {items : List (Bytes × V)}

/-- The first insertion comes first. -/
theorem runMap_inserts_cons (m : RefMap V) (e : Bytes × V) (items : List (Bytes × V)) :
    (runMap m (inserts (e :: items))).2 = (runMap (m.setSlot e.1 (some e.2)) (inserts items)).2 := rfl

/-- Entries in ascending order of their keys are listed as they come. -/
theorem lists_runMap_of_ascending {l : List (Bytes × V)} (hlists : m.Lists l)
    (hasc : Ascending (l ++ items)) : (runMap m (inserts items)).2.Lists (l ++ items) := by
  induction items generalizing m l with
  | nil => rwa [List.append_nil]
  | cons e items ih =>
    obtain ⟨_, _, hbelow⟩ := List.pairwise_append.1 hasc
    have hpush : (m.setSlot e.1 (some e.2)).Lists (l ++ [(e.1, e.2)]) :=
      hlists.push (fun p hp => hbelow p hp e (by simp)) e.2
    have hsame : l ++ e :: items = l ++ [(e.1, e.2)] ++ items := by simp
    rw [hsame] at hasc ⊢
    rw [runMap_inserts_cons]
    exact ih hpush hasc

/-- Entries with ascending keys are all kept. -/
theorem lists_inserted (hasc : Ascending items) : (inserted items).Lists items :=
  lists_runMap_of_ascending .empty hasc

/-- The last entry of a key decides. -/
theorem lookup_runMap_inserts_last (key : Bytes) :
    (runMap m (inserts items)).2.lookup key =
      ((items.reverse.find? fun e => e.1 = key).map Prod.snd).or (m.lookup key) := by
  induction items generalizing m with
  | nil => rfl
  | cons e items ih =>
    rw [runMap_inserts_cons, ih, RefMap.lookup_setSlot, List.reverse_cons, List.find?_append]
    cases items.reverse.find? fun e => e.1 = key with
    | some _ => rfl
    | none =>
      by_cases hk : e.1 = key
      · simp [hk]
      · simp [hk, Ne.symm hk]

/-- Insertions of distinct keys leave what they put, in whatever order they come. -/
theorem lookup_runMap_inserts (hnodup : (items.map Prod.fst).Nodup) (key : Bytes) (value : V) :
    (runMap m (inserts items)).2.lookup key = some value ↔
      (key, value) ∈ items ∨ (key ∉ items.map Prod.fst ∧ m.lookup key = some value) := by
  induction items generalizing m with
  | nil => simp [inserts, runMap]
  | cons e items ih =>
    obtain ⟨k, v⟩ := e
    obtain ⟨hnew, hnodup⟩ := List.nodup_cons.1 hnodup
    rw [runMap_inserts_cons, ih hnodup, RefMap.lookup_setSlot]
    by_cases hk : key = k
    · subst hk
      have hnew : key ∉ items.map Prod.fst := hnew
      have hnot : (key, value) ∉ items := fun hmem => hnew (List.mem_map.2 ⟨_, hmem, rfl⟩)
      simp [hnot, hnew, eq_comm]
    · simp [hk]

/-- Entries with distinct keys can be inserted in any order. -/
theorem inserted_perm {items' : List (Bytes × V)} (hnodup : (items.map Prod.fst).Nodup)
    (hperm : items.Perm items') : inserted items = inserted items' := by
  have hnodup' : (items'.map Prod.fst).Nodup := ((hperm.map Prod.fst).nodup_iff).1 hnodup
  apply Finmap.ext_lookup
  intro key
  apply Option.ext
  intro value
  unfold inserted
  rw [lookup_runMap_inserts hnodup, lookup_runMap_inserts hnodup', hperm.mem_iff,
    (hperm.map Prod.fst).mem_iff]

end Maps

section Trees

variable [Features]

/-- A tree that stands for a map and whose nodes are all canonical. -/
structure Loads (tree : AdaptiveRadixTree V) (m : RefMap V) : Prop where
  represents : Represents tree m
  canonical : EveryNode Canonical tree

variable {tree a b : AdaptiveRadixTree V} {m : RefMap V} {root : DefaultNode V} {len : Nat}

/-- A well-formed root stands for the map that its entries list. -/
theorem Represents.of_lists (hwf : Wf root) (hlists : m.Lists (entries root)) (hlen : len = (entries root).length) :
    Represents ⟨some root, len⟩ m where
  wf := fun _ heq => by
    cases heq
    exact hwf
  find := fun key => by
    apply Option.ext
    intro value
    rw [← hlists.mem, hwf.mem_entries_iff]
    rfl
  len := by rw [hlists.size, ← hlen]

/-- A new tree. -/
theorem loads_new : Loads (AdaptiveRadixTree.new : AdaptiveRadixTree V) ∅ :=
  ⟨represents_new, everyNode_new _⟩

/-- Two canonical trees of one map are of one structure. -/
theorem Loads.sameTree (ha : Loads a m) (hb : Loads b m) : SameTree a b := by
  refine ⟨ha.represents.len.trans hb.represents.len.symm, ?_⟩
  have hempty : ∀ {x y : AdaptiveRadixTree V}, Represents x m → Represents y m → x.root = none →
      y.root = none := by
    intro x y hx hy hnone
    obtain ⟨_, _⟩ := x
    cases hnone
    obtain ⟨root, len⟩ := y
    cases root with
    | none => rfl
    | some root =>
      have hlists := hy.lists
      rw [hx.map_eq_empty] at hlists
      exact absurd (hlists.unique .empty) (hy.wf root rfl).entries_ne_nil
  obtain ⟨roota, lena⟩ := a
  obtain ⟨rootb, lenb⟩ := b
  cases roota with
  | none =>
    have hnone : rootb = none := hempty ha.represents hb.represents rfl
    rw [hnone]
    exact .none
  | some roota =>
    cases rootb with
    | none => cases hempty hb.represents ha.represents rfl
    | some rootb =>
      refine .some (sameShape_of_find (ha.represents.wf _ rfl) (hb.represents.wf _ rfl)
        (ha.canonical _ rfl) (hb.canonical _ rfl) fun key => ?_)
      rw [ha.represents.find_root, hb.represents.find_root]

/-- Putting a value under a key keeps what no way of putting it can break. -/
theorem Changed.put_every {P : DefaultNode V → Prop} (hP : PutClosed P) {before after : AdaptiveRadixTree V}
    {key : Bytes} {value : V} (hbefore : Represents before m) (h : EveryNode P before)
    (hchanged : Changed before key (some value) after) : EveryNode P after := by
  intro root hroot
  cases hchanged with
  | first _ =>
    cases hroot
    exact .leaf (hP.leaf _ _)
  | edited hbase hedited _ =>
    cases hroot
    cases hedited with
    | put hput => exact hput.every hP (hbefore.wf _ hbase) (h _ hbase)

/-- Insertions keep a canonical tree canonical. -/
theorem Loads.run_inserts (h : Loads tree m) (items : List (Bytes × V)) :
    ∃ after, runTree tree (inserts items) = .ok ((runMap m (inserts items)).1, after) ∧
      Loads after (runMap m (inserts items)).2 := by
  induction items generalizing tree m with
  | nil => exact ⟨tree, rfl, h⟩
  | cons e items ih =>
    obtain ⟨next, hstep, hsets⟩ := (Op.insert_k e.1 e.2 : Op V Empty).step_sets h.represents
    have hnext : Loads next (m.setSlot e.1 (some e.2)) :=
      ⟨hsets.represents h.represents, hsets.changed.put_every putClosed_canonical h.represents h.canonical⟩
    obtain ⟨after, hrun, hafter⟩ := ih hnext
    refine ⟨after, ?_, hafter⟩
    change runTree tree (Op.insert_k e.1 e.2 :: inserts items) = _
    rw [runTree, hstep, ok_bind]
    dsimp only
    rw [hrun]
    rfl

/-- Insertions make a canonical tree. -/
theorem grown_loads (items : List (Bytes × V)) :
    ∃ tree, grown items = .ok tree ∧ Loads tree (inserted items) := by
  obtain ⟨tree, hrun, hloads⟩ := loads_new.run_inserts items
  refine ⟨tree, ?_, hloads⟩
  rw [grown, hrun]
  rfl

end Trees

section Loaders

variable [Features] {items : BulkItems σ V} {key : Nat → Bytes} {val : Nat → V} {st : Nat → σ} {len : Nat}
  {m : RefMap V}

omit [Features] in
/-- The number of entries of a run. -/
theorem length_run (depth start stop : Nat) : (run key val depth start stop).length = stop - start := by
  unfold run
  rw [List.length_map, List.length_range']

/-- The tree of all entries that a loader reads. -/
theorem Serves.loads (hserves : Serves items key val st 0 len) (hpos : 0 < len)
    (hlists : m.Lists (run key val 0 0 len)) :
    ∃ root, build_bulk_node_with items len 0 len 0 (st 0) = .ok (root, st len) ∧
      Loads (AdaptiveRadixTree.from_root root len) m := by
  have hbase : ∀ i, 0 ≤ i → i < len → [] <+: key i := fun i _ _ => List.nil_prefix
  obtain ⟨root, hroot, hbuilt⟩ :=
    build_bulk_node_spec hserves hpos (Nat.le_of_eq (Nat.sub_zero len)) rfl hbase
  refine ⟨root, hroot, .of_lists hbuilt.wf ?_ ?_, fun _ heq => ?_⟩
  · rw [hbuilt.entries]
    exact hlists
  · rw [hbuilt.entries, length_run, Nat.sub_zero]
  · cases heq
    exact hbuilt.canonical

section Vectors

variable {l : List (Bytes × V)}

/-- The entries of a vector, those before a place with their values taken. -/
def takenTo (l : List (Bytes × V)) (i : Nat) : List (Bytes × Option V) :=
  (l.take i).map (fun e => (e.1, none)) ++ (l.drop i).map fun e => (e.1, some e.2)

omit [Features] in
/-- The values before a place have been taken. -/
theorem takenTo_at {i : Nat} (hi : i < l.length) :
    takenTo l i = (l.take i).map (fun e => (e.1, none)) ++ (l[i].1, some l[i].2) ::
      (l.drop (i + 1)).map fun e => (e.1, some e.2) := by
  unfold takenTo
  rw [List.drop_eq_getElem_cons hi, List.map_cons]

omit [Features] in
/-- Taking the value at a place. -/
theorem takenTo_succ {i : Nat} (hi : i < l.length) :
    takenTo l (i + 1) = (l.take i).map (fun e => (e.1, none)) ++ (l[i].1, none) ::
      (l.drop (i + 1)).map fun e => (e.1, some e.2) := by
  unfold takenTo
  rw [← List.take_append_getElem hi, List.map_append, List.append_assoc]
  rfl

omit [Features] in
/-- A vector of entries in ascending order serves a loader. -/
theorem serves_vec (hasc : Ascending l) (d : Bytes × V) :
    Serves (AdaptiveRadixTree.vecItems (takenTo l 0)) (fun i => (l.getD i d).1) (fun i => (l.getD i d).2)
      (takenTo l) 0 l.length where
  key_at i _ hi := by
    change Prod.fst <$> index (takenTo l 0) i = _
    have hget : (takenTo l 0)[i]? = some (l[i].1, some l[i].2) := by
      simp [takenTo, List.getElem?_eq_getElem hi]
    rw [index_eq_ok hget, List.getD_eq_getElem _ _ hi]
    rfl
  take i _ hi := by
    have hlen : ((l.take i).map fun e => (e.1, (none : Option V))).length = i := by
      rw [List.length_map, List.length_take, Nat.min_eq_left (Nat.le_of_lt hi)]
    have hat := takenTo_at hi
    have hindex : index (takenTo l i) i = .ok (l[i].1, some l[i].2) := by
      have happ := index_append_length ((l.take i).map fun e => (e.1, (none : Option V)))
        (l[i].1, some l[i].2) ((l.drop (i + 1)).map fun e => (e.1, some e.2))
      rw [hlen] at happ
      rwa [hat]
    have hset : index_set (takenTo l i) i (l[i].1, none) = .ok (takenTo l (i + 1)) := by
      have happ := index_set_append_cons ((l.take i).map fun e => (e.1, (none : Option V)))
        (l[i].1, some l[i].2) (l[i].1, none) ((l.drop (i + 1)).map fun e => (e.1, some e.2))
      rw [hlen] at happ
      rw [hat, takenTo_succ hi]
      exact happ
    dsimp only [AdaptiveRadixTree.vecItems]
    rw [hindex, ok_bind]
    dsimp only
    rw [expect_some, ok_bind, hset, List.getD_eq_getElem _ _ hi]
    rfl
  ascending i j _ hij hj := by
    have hi := Nat.lt_trans hij hj
    rw [List.getD_eq_getElem _ _ hi, List.getD_eq_getElem _ _ hj]
    exact List.pairwise_iff_getElem.1 hasc i j hi hj hij

omit [Features] in
/-- The run of all places is the vector. -/
theorem run_vec (l : List (Bytes × V)) (d : Bytes × V) :
    run (fun i => (l.getD i d).1) (fun i => (l.getD i d).2) 0 0 l.length = l := by
  unfold run
  refine List.ext_getElem (by simp) fun i h₁ h₂ => ?_
  simp [List.getElem?_eq_getElem h₂]

/-- The tree that the loaders make of a vector. -/
theorem from_unique_sorted_items_loads (hlists : m.Lists l) :
    ∃ tree, AdaptiveRadixTree.from_unique_sorted_items (l.map fun e => (e.1, some e.2)) = .ok tree ∧
      Loads tree m := by
  cases l with
  | nil =>
    have hempty : m = ∅ := by
      apply Finmap.ext_lookup
      intro key
      apply Option.ext
      intro value
      rw [← hlists.mem]
      simp
    rw [hempty]
    exact ⟨.new, rfl, loads_new⟩
  | cons d l =>
    obtain ⟨root, hroot, hloads⟩ := (serves_vec hlists.ascending d).loads (Nat.succ_pos _)
      ((run_vec (d :: l) d).symm ▸ hlists)
    have hitems : takenTo (d :: l) 0 = (d :: l).map fun e => (e.1, some e.2) := rfl
    rw [hitems] at hroot
    have hlen : ((d :: l).map fun e => (e.1, some e.2)).length = (d :: l).length := List.length_map _
    refine ⟨_, ?_, hloads⟩
    unfold AdaptiveRadixTree.from_unique_sorted_items AdaptiveRadixTree.build_bulk_node
    rw [if_neg (by simp), hlen, hroot]
    rfl

omit [Features] in
/-- The first pass of `bulk_load_sorted` leaves the entries of the map that insertions
leave. -/
theorem bulk_load_sorted_go_lists {items : List (Bytes × V)} (hlists : m.Lists l)
    (hsorted : items.Pairwise fun p q => p.1 ≤ q.1) (hbelow : ∀ p ∈ l, ∀ q ∈ items, p.1 ≤ q.1) :
    ∃ l', AdaptiveRadixTree.bulk_load_sorted.go (l.map fun e => (e.1, some e.2)) items =
        .ok (l'.map fun e => (e.1, some e.2)) ∧
      (runMap m (inserts items)).2.Lists l' := by
  induction items generalizing m l with
  | nil => exact ⟨l, rfl, hlists⟩
  | cons e items ih =>
    obtain ⟨key, value⟩ := e
    obtain ⟨habove, hsorted⟩ := List.pairwise_cons.1 hsorted
    rw [runMap_inserts_cons, AdaptiveRadixTree.bulk_load_sorted.go]
    have hsnoc : ∀ l : List (Bytes × V), (l ++ [(key, value)]).map (fun e => (e.1, some e.2)) =
        l.map (fun e => (e.1, some e.2)) ++ [(key, some value)] := fun l => List.map_append
    have hnext : ∀ l : List (Bytes × V), (m.setSlot key (some value)).Lists (l ++ [(key, value)]) →
        ∃ l', AdaptiveRadixTree.bulk_load_sorted.go
            (l.map (fun e => (e.1, some e.2)) ++ [(key, some value)]) items =
            .ok (l'.map fun e => (e.1, some e.2)) ∧
          (runMap (m.setSlot key (some value)) (inserts items)).2.Lists l' := by
      intro l hlists
      rw [← hsnoc]
      refine ih hlists hsorted fun p hp q hq => ?_
      cases List.mem_append.1 hp with
      | inl hold =>
        have hlt := (List.pairwise_append.1 hlists.ascending).2.2 p hold (key, value) (by simp)
        exact le_trans (le_of_lt hlt) (habove q hq)
      | inr hlast =>
        rw [List.mem_singleton.1 hlast]
        exact habove q hq
    obtain rfl | ⟨l, ⟨last_key, last_value⟩, rfl⟩ := List.eq_nil_or_concat' l
    · exact hnext [] (hlists.push (fun p hp => by cases hp) value)
    · have hle := hbelow (last_key, last_value) (by simp) (key, value) (by simp)
      rw [show ((l ++ [(last_key, last_value)]).map fun e => (e.1, some e.2)) =
        l.map (fun e => (e.1, some e.2)) ++ [(last_key, some last_value)] from List.map_append,
        List.getLast?_concat]
      dsimp only
      cases hcmp : lexCompare last_key key with
      | gt => exact absurd (lexCompare_eq_gt_iff.1 hcmp) (not_lt.2 hle)
      | eq =>
        obtain rfl := lexCompare_eq_eq_iff.1 hcmp
        dsimp only
        rw [List.dropLast_concat]
        exact hnext l (hlists.set_last value)
      | lt =>
        have hlt := lexCompare_eq_lt_iff.1 hcmp
        have hbefore : ∀ p ∈ l ++ [(last_key, last_value)], p.1 < key := fun p hp => by
          cases List.mem_append.1 hp with
          | inl hold =>
            have hlast := (List.pairwise_append.1 hlists.ascending).2.2 p hold
              (last_key, last_value) (by simp)
            exact lt_trans hlast hlt
          | inr hlast =>
            rw [List.mem_singleton.1 hlast]
            exact hlt
        have hgo := hnext _ (hlists.push hbefore value)
        rwa [List.map_append] at hgo

/-- Sorted entries are loaded, repeated keys included. -/
theorem bulk_load_sorted_loads {items : List (Bytes × V)} (hsorted : items.Pairwise fun p q => p.1 ≤ q.1) :
    ∃ tree, AdaptiveRadixTree.bulk_load_sorted items = .ok tree ∧ Loads tree (inserted items) := by
  obtain ⟨l, hgo, hlists⟩ := bulk_load_sorted_go_lists .empty hsorted (fun p hp => by cases hp)
  obtain ⟨tree, htree, hloads⟩ := from_unique_sorted_items_loads hlists
  refine ⟨tree, ?_, hloads⟩
  have hgo : AdaptiveRadixTree.bulk_load_sorted.go [] items = _ := hgo
  rw [AdaptiveRadixTree.bulk_load_sorted, hgo]
  exact htree

/-- Entries with ascending keys are loaded. -/
theorem bulk_load_sorted_unique_loads {items : List (Bytes × V)} (hasc : Ascending items) :
    ∃ tree, AdaptiveRadixTree.bulk_load_sorted_unique items = .ok tree ∧ Loads tree (inserted items) :=
  from_unique_sorted_items_loads (lists_inserted hasc)

end Vectors

section Indexes

/-- The state of a callback that was called with the indexes below a number. -/
def calledTo (take_value_at : Nat → σ → V × σ) (s : σ) : Nat → σ
  | 0 => s
  | n + 1 => (take_value_at n (calledTo take_value_at s n)).2

/-- The entries that keys and a callback for the values give. -/
def indexed (key_at : Nat → Bytes) (take_value_at : Nat → σ → V × σ) (s : σ) (len : Nat) :
    List (Bytes × V) :=
  (List.range len).map fun i => (key_at i, (take_value_at i (calledTo take_value_at s i)).1)

variable {key_at : Nat → Bytes}

omit [Features] in
/-- The callbacks of `bulk_load_sorted_unique_by_index` serve the entries. -/
theorem serves_index (hasc : ∀ i j, i < j → j < len → key_at i < key_at j)
    (take_value_at : Nat → σ → V × σ) (s : σ) :
    Serves (AdaptiveRadixTree.indexItems key_at take_value_at) key_at
      (fun i => (take_value_at i (calledTo take_value_at s i)).1)
      (fun i => (calledTo take_value_at s i, List.range i)) 0 len where
  key_at _ _ _ := rfl
  take i _ _ := by
    rw [List.range_succ]
    rfl
  ascending i j _ := hasc i j

/-- They are called once for every place, in ascending order. -/
theorem bulk_load_sorted_unique_by_index_loads (hasc : ∀ i j, i < j → j < len → key_at i < key_at j)
    (take_value_at : Nat → σ → V × σ) (s : σ) :
    ∃ tree, AdaptiveRadixTree.bulk_load_sorted_unique_by_index len key_at take_value_at s =
        .ok (tree, calledTo take_value_at s len, List.range len) ∧
      Loads tree (inserted (indexed key_at take_value_at s len)) := by
  unfold AdaptiveRadixTree.bulk_load_sorted_unique_by_index
  by_cases hzero : len = 0
  · subst hzero
    exact ⟨.new, rfl, loads_new⟩
  · have hserves := serves_index hasc take_value_at s
    have hrun : run key_at (fun i => (take_value_at i (calledTo take_value_at s i)).1) 0 0 len =
        indexed key_at take_value_at s len := by
      unfold run indexed
      rw [Nat.sub_zero, ← List.range_eq_range']
      rfl
    have hlists : (inserted (indexed key_at take_value_at s len)).Lists _ := lists_inserted <| by
      unfold indexed
      rw [Ascending, List.pairwise_map]
      refine List.pairwise_lt_range.imp_of_mem fun _ hj hij => ?_
      exact hasc _ _ hij (List.mem_range.1 hj)
    rw [← hrun] at hlists
    obtain ⟨root, hroot, hloads⟩ := hserves.loads (Nat.pos_of_ne_zero hzero) hlists
    rw [hrun] at hloads
    refine ⟨_, ?_, hloads⟩
    have hroot : build_bulk_node_with (AdaptiveRadixTree.indexItems key_at take_value_at) len 0 len 0
        (s, []) = _ := hroot
    rw [if_neg hzero, hroot]
    rfl

end Indexes

/-- Each loader, on keys in the order that it asks for, and without a panic, builds the
tree that inserting its entries in turn builds, and takes every value once; and the
order in which distinct keys are inserted makes no difference to the tree. -/
theorem AdaptiveRadixTree.bulk_load_eq_inserts :
    (∀ items : List (Bytes × V), (items.Pairwise fun p q => p.1 ≤ q.1) →
      ∃ loaded tree, bulk_load_sorted items = .ok loaded ∧ grown items = .ok tree ∧
        SameTree loaded tree ∧
        ∀ key, loaded.get_k key = .ok ((items.reverse.find? fun e => e.1 = key).map Prod.snd)) ∧
    (∀ items : List (Bytes × V), (items.Pairwise fun p q => p.1 < q.1) →
      ∃ loaded tree, bulk_load_sorted_unique items = .ok loaded ∧ grown items = .ok tree ∧
        SameTree loaded tree) ∧
    (∀ (len : Nat) (key_at : Nat → Bytes) (take_value_at : Nat → σ → V × σ) (s : σ),
      (∀ i j, i < j → j < len → key_at i < key_at j) →
      ∃ loaded tree, bulk_load_sorted_unique_by_index len key_at take_value_at s =
          .ok (loaded, calledTo take_value_at s len, List.range len) ∧
        grown (indexed key_at take_value_at s len) = .ok tree ∧ SameTree loaded tree) ∧
    ∀ items items' : List (Bytes × V), (items.map Prod.fst).Nodup → items.Perm items' →
      ∃ tree tree', grown items = .ok tree ∧ grown items' = .ok tree' ∧ SameTree tree tree' := by
  refine ⟨fun items hsorted => ?_, fun items hasc => ?_, fun len key_at take_value_at s hasc => ?_,
    fun items items' hnodup hperm => ?_⟩
  · obtain ⟨loaded, hloaded, hloads⟩ := bulk_load_sorted_loads hsorted
    obtain ⟨tree, htree, hgrown⟩ := grown_loads items
    refine ⟨loaded, tree, hloaded, htree, hloads.sameTree hgrown, fun key => ?_⟩
    rw [hloads.represents.get_k_eq, inserted, lookup_runMap_inserts_last]
    simp
  · obtain ⟨loaded, hloaded, hloads⟩ := bulk_load_sorted_unique_loads hasc
    obtain ⟨tree, htree, hgrown⟩ := grown_loads items
    exact ⟨loaded, tree, hloaded, htree, hloads.sameTree hgrown⟩
  · obtain ⟨loaded, hloaded, hloads⟩ := bulk_load_sorted_unique_by_index_loads hasc take_value_at s
    obtain ⟨tree, htree, hgrown⟩ := grown_loads (indexed key_at take_value_at s len)
    exact ⟨loaded, tree, hloaded, htree, hloads.sameTree hgrown⟩
  · obtain ⟨tree, htree, hgrown⟩ := grown_loads items
    obtain ⟨tree', htree', hgrown'⟩ := grown_loads items'
    rw [← inserted_perm hnodup hperm] at hgrown'
    exact ⟨tree, tree', htree, htree', hgrown.sameTree hgrown'⟩

omit [Features] in
/-- Of the values of a repeated key the last one is loaded. -/
theorem AdaptiveRadixTree.bulk_load_eq_inserts_repeated :
    letI : Features := ⟨none⟩
    ∃ loaded tree : AdaptiveRadixTree Nat,
      bulk_load_sorted [([1], 1), ([1], 2), ([1, 2], 3)] = .ok loaded ∧
      grown [([1], 1), ([1], 2), ([1, 2], 3)] = .ok tree ∧ SameTree loaded tree ∧
      loaded.get_k [1] = .ok (some 2) := by
  let : Features := ⟨none⟩
  obtain ⟨loaded, tree, hloaded, htree, hsame, hget⟩ :=
    (AdaptiveRadixTree.bulk_load_eq_inserts (σ := Unit)).1 [([1], 1), ([1], 2), ([1, 2], 3)] (by decide)
  exact ⟨loaded, tree, hloaded, htree, hsame, hget [1]⟩

end Loaders

end rart.tree
