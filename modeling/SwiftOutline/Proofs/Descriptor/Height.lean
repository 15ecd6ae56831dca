import SwiftOutline.Proofs.Grammar.Scheme
import SwiftOutline.Proofs.Descriptor.Moved

/-!
# `Height` — descriptors are no higher than their types have levels

Each step from a descriptor to one inside it goes from a type to a type one level below it: into
parentheses, past an arrow, or into generic arguments. What is peeled off on the way only takes levels
away.
-/

namespace SwiftOutline

namespace Descriptor

mutual

/-- How deep descriptors are nested in a descriptor, itself included. -/
def height : Descriptor → Nat
  | standard _ parameters => heightList parameters + 1
  | tuple _ arguments => heightList arguments + 1
  | closure _ inputs outputs _ => max (heightList inputs) (heightList outputs) + 1

/-- The height of the highest one of several descriptors. -/
def heightList : List Descriptor → Nat
  | [] => 0
  | d :: ds => max d.height (heightList ds)

end

theorem heightList_le {ds : List Descriptor} {n : Nat} : heightList ds ≤ n ↔ ∀ d ∈ ds, d.height ≤ n := by
  induction ds with
  | nil => simp [heightList]
  | cons d ds ih => rw [heightList, Nat.max_le, ih, List.forall_mem_cons]

theorem height_ofType (text : String) : (ofType text).height = 1 := rfl

end Descriptor

theorem Tree.Contains.levels_le {t u : Tree} (h : t.Contains u) : u.levels ≤ t.levels := by
  induction h with
  | self => exact Nat.le_refl _
  | child _ hc ih => exact Nat.le_trans (Tree.levels_le_of_mem_children hc) ih

namespace Place

open SwiftOutline.Tree

variable {p q : Place}

/-! ## Types below a place -/

/-- What is below a level has fewer levels. -/
theorem Below.levels_lt (h : p.Below q) (hp : p.kind?.any NodeKind.isLevel = true) :
    q.tree.levels < p.tree.levels := by
  induction h with
  | child hc => exact levels_lt_of_mem_children hc hp
  | step _ hc ih => exact Nat.lt_of_le_of_lt (levels_le_of_mem_children hc) ih

/-! ## Peeling -/

/-- **Peeling a type** leaves a type, and only takes levels away. -/
theorem levels_core_peel (h : p.tree.isType = true) :
    p.peel.core.tree.isType = true ∧ p.peel.core.tree.levels ≤ p.tree.levels := by
  fun_induction peel p with
  | case1 p _ => exact ⟨h, Nat.le_refl _⟩
  | case2 p q hq _ ih =>
    have hbelow := holdsBelow_of_unwrapped? hq
    obtain ⟨htype, hle⟩ := ih hbelow.isType
    exact ⟨htype, Nat.le_trans hle hbelow.contains.levels_le⟩

/-! ## Heights -/

/-- A list of descriptors is lower than the type in which their types are held, if these are not too high. -/
theorem heightList_map_decompose (hp : p.kind?.any NodeKind.isLevel = true) {qs : List Place}
    (hbelow : ∀ q ∈ qs, p.HoldsBelow q) (hheight : ∀ q ∈ qs, q.decompose.height ≤ q.tree.levels) :
    Descriptor.heightList (qs.map decompose) + 1 ≤ p.tree.levels := by
  have hpos := levels_pos (t := p.tree) (.inl hp)
  have hle : Descriptor.heightList (qs.map decompose) ≤ p.tree.levels - 1 := by
    refine Descriptor.heightList_le.mpr fun d hd => ?_
    obtain ⟨q, hq, rfl⟩ := List.mem_map.mp hd
    have hlt := (hbelow q hq).below.levels_lt hp
    have := hheight q hq
    omega
  omega

/-- **The descriptor of a type is at most as high as the type has levels.** -/
theorem height_decompose_le (p : Place) (h : p.tree.isType = true) : p.decompose.height ≤ p.tree.levels := by
  obtain ⟨hcore, hle⟩ := levels_core_peel h
  have hpos := levels_pos (.inr hcore)
  have hsize := sizeOf_core_peel p
  rw [decompose_eq]
  generalize p.peel.core = core at hcore hle hpos hsize ⊢
  split
  · exact Nat.le_trans hpos hle
  split
  · next hkind =>
    have hlevel : core.kind?.any NodeKind.isLevel = true := by rw [hkind]; rfl
    have hinputs : Descriptor.heightList (core.inputTypes.map decompose) + 1 ≤ core.tree.levels :=
      heightList_map_decompose hlevel (fun q hq => holdsBelow_of_inputTypes hq)
        fun q hq => height_decompose_le q (holdsBelow_of_inputTypes hq).isType
    have houtputs : Descriptor.heightList ((outputTypes core.childType?).map decompose) + 1 ≤
        core.tree.levels :=
      heightList_map_decompose hlevel (fun q hq => holdsBelow_of_functionOutputs hq)
        fun q hq => height_decompose_le q (holdsBelow_of_functionOutputs hq).isType
    show max _ _ + 1 ≤ _
    omega
  · next hkind =>
    have hlevel : core.kind?.any NodeKind.isLevel = true := by rw [hkind]; rfl
    exact Nat.le_trans (heightList_map_decompose hlevel (fun q hq => holdsBelow_of_elementTypes hq)
      fun q hq => height_decompose_le q (holdsBelow_of_elementTypes hq).isType) hle
  · next hkind =>
    have hlevel : core.kind?.any NodeKind.isLevel = true := by rw [hkind]; rfl
    split
    · exact Nat.le_trans (heightList_map_decompose hlevel (fun q hq => holdsBelow_of_argumentTypes hq)
        fun q hq => height_decompose_le q (holdsBelow_of_argumentTypes hq).isType) hle
    · exact Nat.le_trans hpos hle
  · exact Nat.le_trans hpos hle
termination_by sizeOf p.tree
decreasing_by
  · exact Nat.lt_of_lt_of_le (holdsBelow_of_inputTypes ‹_›).below.sizeOf_lt hsize
  · exact Nat.lt_of_lt_of_le (holdsBelow_of_functionOutputs ‹_›).below.sizeOf_lt hsize
  · exact Nat.lt_of_lt_of_le (holdsBelow_of_elementTypes ‹_›).below.sizeOf_lt hsize
  · exact Nat.lt_of_lt_of_le (holdsBelow_of_argumentTypes ‹_›).below.sizeOf_lt hsize

/-- What is no type is described in one piece. -/
theorem height_decompose_le_max (p : Place) : p.decompose.height ≤ max 1 p.tree.levels := by
  cases htype : p.tree.isType with
  | true => exact Nat.le_trans (height_decompose_le p htype) (Nat.le_max_right _ _)
  | false =>
    have hkind : ∀ k, k.isType = true → p.kind? ≠ some k := by
      intro k hk heq
      have : p.kind?.any NodeKind.isType = false := htype
      rw [heq, Option.any_some, hk] at this
      cases this
    have hunwrapped : p.unwrapped? = none := by
      unfold unwrapped?
      split
      all_goals first | rfl | exact absurd ‹_› (hkind _ rfl)
    have hcore : p.peel.core = p := by
      rw [peel]
      split
      · rfl
      · next q hq =>
        rw [hunwrapped] at hq
        cases hq
    refine Nat.le_trans (Nat.le_of_eq ?_) (Nat.le_max_left 1 p.tree.levels)
    rw [decompose_eq, hcore]
    split
    · rfl
    · split
      all_goals first | rfl | exact absurd ‹_› (hkind _ rfl)

end Place

end SwiftOutline
