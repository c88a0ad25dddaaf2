import Rart.Lib.Rules
import Rart.Shared.Programs

open RcHeap RcHeap.Program
open RcHeap.Heap (Valid Keeps)
open rart.mapping rart.node rart.utils

namespace rart.versioned_tree.shared

variable {V α : Type} {h h' : Heap (VersionedNode V)} {fresh roots : List Nat} {a version : Nat}
  {node after : VersionedNode V} {post : α → Heap (VersionedNode V) → List Nat → Prop}

section Drops

/-- A reference that goes out of scope, as on a heap of its own. -/
theorem leads_drop_arc {f : Unit → Access V α} (hv : Valid h (a :: roots))
    (hdrop : versioned_tree.drop_arc h a = .ok h') (hf : (f ()).Leads h' fresh post) :
    (drop_arc a >>= f).Leads h fresh post :=
  leads_release (show Valid h ([a] ++ roots) from hv) (arc_eq_ok hdrop) hf

/-- As for `drop_arc`. -/
theorem leads_drop_opt {f : Unit → Access V α} {opt : Option Nat} (hv : Valid h (opt.toList ++ roots))
    (hdrop : versioned_tree.drop_opt h opt = .ok h') (hf : (f ()).Leads h' fresh post) :
    (drop_opt opt >>= f).Leads h fresh post := leads_release hv (arc_eq_ok hdrop) hf

/-- As for `drop_arc`, for all references of a node. -/
theorem leads_drop_node {f : Unit → Access V α} (hv : Valid h (handles node ++ roots))
    (hdrop : versioned_tree.drop_node h node = .ok h') (hf : (f ()).Leads h' fresh post) :
    (drop_node node >>= f).Leads h fresh post := leads_release hv (arc_eq_ok hdrop) hf

end Drops

variable [Features]

section Copies

/-- A function that does not ask whether it is alone does what it does on a heap of its own. -/
theorem leads_cow_clone_inner {f : VersionedNode V → Access V α}
    (hclone : node.cow_clone_inner h version = .ok (after, h')) (hf : (f after).Leads h' fresh post) :
    (cow_clone_inner node version >>= f).Leads h fresh post := by
  unfold VersionedNode.cow_clone_inner at hclone
  obtain ⟨content, hcontent, hrest⟩ := bind_eq_ok_iff.1 hclone
  obtain ⟨h₁, hclones, hend⟩ := bind_eq_ok_iff.1 hrest
  cases hend
  unfold cow_clone_inner
  simp only [hcontent, lift_ok_bind, Program.bind_assoc]
  exact leads_cloneAll (arc_eq_ok hclones) (leads_copies 1 hf)

/-- As for `cow_clone_inner`. -/
theorem leads_grow_if_full {f : VersionedNode V → Access V α} (hv : Valid h (handles node ++ roots))
    (hgrow : node.grow_if_full h = .ok (after, h')) (hf : (f after).Leads h' fresh post) :
    (grow_if_full node >>= f).Leads h fresh post := by
  unfold VersionedNode.grow_if_full at hgrow
  unfold grow_if_full
  by_cases hfull : node.is_full = true
  · rw [if_pos hfull] at hgrow
    rw [if_pos hfull]
    obtain ⟨⟨grown, h₂⟩, hgrown, hrest⟩ := bind_eq_ok_iff.1 hgrow
    obtain ⟨h₃, hdrop, hend⟩ := bind_eq_ok_iff.1 hrest
    cases hend
    unfold VersionedNode.grow at hgrown
    obtain ⟨content, hcontent, hrest⟩ := bind_eq_ok_iff.1 hgrown
    obtain ⟨h₁, hclones, hend⟩ := bind_eq_ok_iff.1 hrest
    cases hend
    -- the grown node holds references of its own while the other one goes out of scope
    obtain ⟨h₁', hclones', hv₁, _⟩ := hv.cloneAll fun c (hc : c ∈ handles node) =>
      hv.counted.live_of_root (List.mem_append_left _ hc)
    obtain rfl := Option.some.inj ((arc_eq_ok hclones).symm.trans hclones')
    unfold grow
    simp only [hcontent, lift_ok_bind, Program.bind_assoc]
    refine leads_cloneAll (arc_eq_ok hclones) (leads_copies _ ?_)
    exact leads_drop_node (hv₁.copies node.value.toList.length).1 hdrop hf
  · rw [if_neg hfull] at hgrow
    cases hgrow
    rw [if_neg hfull]
    exact hf

end Copies

section Edges

theorem leads_add_child {f : VersionedNode V → Access V α} {k : UInt8} {c : Nat}
    (hv : Valid h (handles node ++ roots)) (hadd : node.add_child h k c = .ok (after, h'))
    (hf : (f after).Leads h' fresh post) : (add_child node k c >>= f).Leads h fresh post := by
  unfold VersionedNode.add_child at hadd
  unfold add_child
  obtain ⟨⟨grown, h₁⟩, hgrow, hrest⟩ := bind_eq_ok_iff.1 hadd
  obtain ⟨content, hcontent, hend⟩ := bind_eq_ok_iff.1 hrest
  cases hend
  obtain ⟨roots', hv'⟩ : ∃ roots',
      Valid h (handles (if node.content.is_empty then { node with content := .Node4 .new } else node) ++ roots') := by
    split
    · refine ⟨handles node ++ roots, ?_⟩
      rw [handles_eq, empty4_iter]
      exact hv
    · exact ⟨roots, hv⟩
  rw [Program.bind_assoc]
  refine leads_grow_if_full hv' hgrow ?_
  rw [hcontent, lift_ok_bind]
  exact hf

theorem leads_add_child_opt {f : VersionedNode V → Access V α} {k : UInt8} {opt : Option Nat}
    (hv : Valid h (handles node ++ roots)) (hadd : versioned_tree.add_child_opt node h k opt = .ok (after, h'))
    (hf : (f after).Leads h' fresh post) : (add_child_opt node k opt >>= f).Leads h fresh post := by
  cases opt with
  | none =>
    cases hadd
    exact hf
  | some c => exact leads_add_child hv hadd hf

end Edges

end rart.versioned_tree.shared
