import Mathlib

set_option autoImplicit false

/-! # Registries

A registry is a partial map whose entries carry a number, given out in order: `Numbered f num next`
says that no number is beyond `next` and no two entries have the same one. It is kept when an entry
with a later number comes in, and when an entry is changed or removed without changing its number.
`update_eq_some` says what a lookup can find after one place was written. -/

namespace Registry

open Function

variable {α β : Type*} [DecidableEq α] {f : α → Option β} {a b : α} {x : Option β} {y : β}

/-- What is found after one place was written is what was written there, or was there before. -/
theorem update_eq_some (h : update f a x b = some y) :
    (b = a ∧ x = some y) ∨ (b ≠ a ∧ f b = some y) := by
  by_cases hb : b = a
  · subst hb
    rw [update_self] at h
    exact Or.inl ⟨rfl, h⟩
  · rw [update_of_ne hb] at h
    exact Or.inr ⟨hb, h⟩

/-- No number is beyond `next`, and no two entries have the same. -/
structure Numbered (f : α → Option β) (num : β → Nat) (next : Nat) : Prop where
  bound : ∀ a y, f a = some y → num y ≤ next
  distinct : ∀ a b y z, f a = some y → f b = some z → num y = num z → a = b

variable {num : β → Nat} {next : Nat} (h : Numbered f num next)

include h

/-- An entry with a later number comes in. -/
theorem Numbered.add (hnew : next < num y) : Numbered (update f a (some y)) num (num y) := by
  refine ⟨fun b z hb => ?_, fun b c z w hb hc heq => ?_⟩
  · rcases update_eq_some hb with ⟨-, hz⟩ | ⟨-, hb⟩
    · rw [Option.some.inj hz]
    · exact (h.bound b z hb).trans hnew.le
  · rcases update_eq_some hb with ⟨rfl, hz⟩ | ⟨-, hb₀⟩
    · obtain rfl := Option.some.inj hz
      rcases update_eq_some hc with ⟨rfl, -⟩ | ⟨-, hc₀⟩
      · rfl
      · exact absurd (h.bound c w hc₀) (by omega)
    · rcases update_eq_some hc with ⟨rfl, hw⟩ | ⟨-, hc₀⟩
      · obtain rfl := Option.some.inj hw
        exact absurd (h.bound b z hb₀) (by omega)
      · exact h.distinct b c z w hb₀ hc₀ heq

/-- An entry goes, or changes and keeps its number. -/
theorem Numbered.change (ha : f a = some y) (hx : ∀ z, x = some z → num z = num y) :
    Numbered (update f a x) num next := by
  -- What is found afterwards has the number of what was found there before.
  have hold : ∀ b z, update f a x b = some z → ∃ z₀, f b = some z₀ ∧ num z₀ = num z := by
    intro b z hb
    rcases update_eq_some hb with ⟨rfl, hz⟩ | ⟨-, hb⟩
    · exact ⟨y, ha, (hx z hz).symm⟩
    · exact ⟨z, hb, rfl⟩
  refine ⟨fun b z hb => ?_, fun b c z w hb hc heq => ?_⟩
  · obtain ⟨z₀, hz₀, hnum⟩ := hold b z hb
    exact hnum ▸ h.bound b z₀ hz₀
  · obtain ⟨z₀, hz₀, hnum⟩ := hold b z hb
    obtain ⟨w₀, hw₀, hnum'⟩ := hold c w hc
    exact h.distinct b c z₀ w₀ hz₀ hw₀ (by omega)

end Registry
