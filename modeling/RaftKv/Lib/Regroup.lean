import Mathlib.Data.List.Perm.Subperm

/-!
# Regrouping

Items are kept in lots, and a lot has a size. From time to time some lots are taken apart, and new
ones are made of their items, or of some of them. What can come of that, however often it is done,
is a regrouping of the first lots: some of them are still there, the others were made since, and no
item is used twice (`Regroups.exchange`).
-/

variable {α : Type}

/-- Lots that can be had from the lots `old`. -/
def Regroups (made : List α × Nat → Prop) (old new : List (List α × Nat)) : Prop :=
  ∃ kept built, new.Perm (kept ++ built) ∧ kept.Subperm old ∧ (∀ lot ∈ built, made lot) ∧
    (new.flatMap Prod.fst).Subperm (old.flatMap Prod.fst)

namespace Regroups

variable {made : List α × Nat → Prop} {old new new' ins outs rest : List (List α × Nat)}

theorem refl (made : List α × Nat → Prop) (old : List (List α × Nat)) : Regroups made old old :=
  ⟨old, [], by simp, .refl _, by simp, .refl _⟩

theorem perm (h : Regroups made old new) (hp : new.Perm new') : Regroups made old new' := by
  obtain ⟨kept, built, hnew, hkept, hbuilt, hitems⟩ := h
  exact ⟨kept, built, hp.symm.trans hnew, hkept, hbuilt, (hp.symm.flatMap_right Prod.fst).subperm.trans hitems⟩

/-- New lots are made of the items of some others. -/
theorem exchange (h : Regroups made old (ins ++ rest)) (hmade : ∀ lot ∈ outs, made lot)
    (hitems : (outs.flatMap Prod.fst).Subperm (ins.flatMap Prod.fst)) : Regroups made old (outs ++ rest) := by
  obtain ⟨kept, built, hnew, hkept, hbuilt, hold⟩ := h
  -- the lots that are left are some of those that were kept, and some of the others
  obtain ⟨l, hl, hsub⟩ := (List.sublist_append_right ins rest).subperm.trans hnew.subperm
  obtain ⟨kept', built', rfl, hkept', hbuilt'⟩ := List.sublist_append_iff.1 hsub
  refine ⟨kept', built' ++ outs, ?_, hkept'.subperm.trans hkept, fun lot hlot => ?_, ?_⟩
  · calc (outs ++ rest).Perm (outs ++ (kept' ++ built')) := hl.symm.append_left outs
      List.Perm _ (kept' ++ built' ++ outs) := List.perm_append_comm
      _ = kept' ++ (built' ++ outs) := List.append_assoc ..
  · rcases List.mem_append.1 hlot with hlot | hlot
    · exact hbuilt lot (hbuilt'.subset hlot)
    · exact hmade lot hlot
  · rw [List.flatMap_append] at hold ⊢
    exact ((List.subperm_append_right _).2 hitems).trans hold

end Regroups
