import Rart.Iter.Frames
import Rart.Lib.Cursor

open rart.Trie rart.Node

namespace rart.iter

variable {N V : Type} [Node N V]

/-- `ValuesIter`, the top of its stack first. -/
structure ValuesIter (N V : Type) where
  root_value : Option V
  node_iter_stack : List (List (UInt8 × N))

namespace ValuesIter

def new (node : Option N) : ValuesIter N V :=
  match node with
  | none => ⟨none, []⟩
  | some root_node => ⟨value root_node, [Node.iter root_node]⟩

/-- One turn of the loop of `next`. -/
def turn (stack : List (List (UInt8 × N))) : Option (Option V × List (List (UInt8 × N))) :=
  match stack with
  | [] => none
  | [] :: stack => some (none, stack)
  | ((_, node) :: last_iter) :: stack =>
    let stack := last_iter :: stack
    some (value node, if (!is_leaf node) = true then Node.iter node :: stack else stack)

def cursor : Cursor (List (List (UInt8 × N))) V where
  step := turn
  size stack := (stack.map fun l => 1 + listWeight l).sum
  step_lt := by
    intro stack o stack' h
    unfold turn at h
    split at h
    · cases h
    · cases h
      rw [List.map_cons, List.sum_cons]
      omega
    · cases h
      rw [List.map_cons, List.sum_cons, listWeight_cons]
      dsimp only
      split
      · rw [List.map_cons, List.map_cons, List.sum_cons, List.sum_cons]
        omega
      · rw [List.map_cons, List.sum_cons]
        omega

/-- Everything that `next` returns until it returns `None`. -/
def collect (self : ValuesIter N V) : List V :=
  cursor.onceThen.collect (self.root_value, self.node_iter_stack)

/-- The walk hands out the values of the entries that are still to come. -/
theorem cursor_collect_eq {stack : List (List (UInt8 × N))} (h : ∀ l ∈ stack, ∀ p ∈ l, Wf p.2) :
    cursor.collect stack = stack.flatMap fun l => (childEntries l).map Prod.snd := by
  refine cursor.collect_eq_of_pending (fun stack l => (∀ l ∈ stack, ∀ p ∈ l, Wf p.2) ∧
    l = stack.flatMap fun l => (childEntries l).map Prod.snd) ?_ ?_ ⟨h, rfl⟩
  · rintro stack l ⟨_, rfl⟩ hturn
    cases stack with
    | nil => rfl
    | cons l stack => cases l <;> cases hturn
  · rintro stack l o stack' ⟨hwf, rfl⟩ hturn
    cases stack with
    | nil => cases hturn
    | cons l stack =>
      have hstack : ∀ l ∈ stack, ∀ p ∈ l, Wf p.2 := fun l hl => hwf l (List.mem_cons_of_mem _ hl)
      cases l with
      | nil =>
        cases hturn
        exact ⟨_, rfl, hstack, rfl⟩
      | cons p l =>
        obtain ⟨k, node⟩ := p
        have hnode : Wf node := hwf ((k, node) :: l) (by simp) (k, node) (by simp)
        have hl : ∀ m ∈ l :: stack, ∀ p ∈ m, Wf p.2 := by
          intro m hm p hp
          cases List.mem_cons.1 hm with
          | inl heq =>
            rw [heq] at hp
            exact hwf ((k, node) :: l) (by simp) p (List.mem_cons_of_mem _ hp)
          | inr hmem => exact hstack m hmem p hp
        have hentries : (entries node).map Prod.snd =
            (value node).toList ++ (childEntries (Node.iter node)).map Prod.snd := by
          rw [← entriesFrom_pfx, entriesFrom, List.map_append, map_snd_under]
          cases value node <;> rfl
        cases hturn
        rw [List.flatMap_cons, childEntries_cons, List.map_append, hentries]
        cases hleaf : is_leaf node with
        | true =>
          rw [iter_leaf hnode.layout hleaf]
          refine ⟨_, ?_, hl, rfl⟩
          simp
        | false =>
          refine ⟨_, ?_, ?_, rfl⟩
          · simp
          · intro m hm p hp
            cases List.mem_cons.1 hm with
            | inl heq =>
              rw [heq] at hp
              exact hnode.child hp
            | inr hmem => exact hl m hmem p hp

theorem collect_new {node : N} (hwf : Wf node) :
    (ValuesIter.new (some node) : ValuesIter N V).collect = (entries node).map Prod.snd := by
  unfold collect ValuesIter.new
  rw [Cursor.collect_onceThen, cursor_collect_eq]
  · rw [← entriesFrom_pfx, entriesFrom, List.map_append, map_snd_under]
    cases hvalue : value node <;> simp [hvalue]
  · intro l hl p hp
    rw [List.mem_singleton.1 hl] at hp
    exact hwf.child hp

end ValuesIter

end rart.iter
