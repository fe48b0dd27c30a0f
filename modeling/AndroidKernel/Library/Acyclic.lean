import Mathlib.Logic.Relation

/-!
# Relations without cycles

How a relation stays without cycles when it loses pairs, and when one pair is added to it.
-/

namespace AndroidKernel.Library

open Relation

universe u

variable {α : Type u} {r r' : α → α → Prop}

/-- Nothing can be reached from itself. -/
def Acyclic (r : α → α → Prop) : Prop :=
  ∀ a, ¬ TransGen r a a

theorem Acyclic.mono (h : Acyclic r) (hsub : ∀ a b, r' a b → r a b) : Acyclic r' :=
  fun a ha => h a (TransGen.mono hsub _ _ ha)

theorem acyclic_of_empty (h : ∀ a b, ¬ r a b) : Acyclic r := by
  intro a ha
  obtain ⟨b, hab, _⟩ := TransGen.head'_iff.mp ha
  exact h a b hab

/-- A path of the larger relation is one of the smaller relation, or it uses the new pair. -/
theorem transGen_insert {c d : α} (hsub : ∀ a b, r' a b → r a b ∨ a = c ∧ b = d) {a b : α}
    (h : TransGen r' a b) : TransGen r a b ∨ ReflTransGen r a c ∧ ReflTransGen r d b := by
  induction h with
  | single hab =>
    rcases hsub _ _ hab with hab | ⟨rfl, rfl⟩
    · exact .inl (.single hab)
    · exact .inr ⟨.refl, .refl⟩
  | tail _ hbc ih =>
    rcases hsub _ _ hbc with hbc | ⟨rfl, rfl⟩
    · rcases ih with ih | ⟨hac, hdb⟩
      · exact .inl (ih.tail hbc)
      · exact .inr ⟨hac, hdb.tail hbc⟩
    · rcases ih with ih | ⟨hac, _⟩
      · exact .inr ⟨ih.to_reflTransGen, .refl⟩
      · exact .inr ⟨hac, .refl⟩

/-- A pair may be added if its end does not lead to its start. -/
theorem Acyclic.insert {c d : α} (h : Acyclic r) (hsub : ∀ a b, r' a b → r a b ∨ a = c ∧ b = d)
    (hno : ¬ ReflTransGen r d c) : Acyclic r' := by
  intro a ha
  rcases transGen_insert hsub ha with ha | ⟨hac, hda⟩
  · exact h a ha
  · exact hno (hda.trans hac)

end AndroidKernel.Library
