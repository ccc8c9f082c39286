import Mathlib.Tactic

/-! What has happened since: the last of some things in a history, and nothing after it that undoes
it. -/
namespace Chip8

variable {α : Type} {P : List α → α → Prop} {Q : α → Prop} {es : List α} {x : α}

/-- Something happened that passes `P` with what was before it, and all that came after it passes
`Q`. -/
def Since (P : List α → α → Prop) (Q : α → Prop) (es : List α) : Prop :=
  ∃ before e after, es = before ++ e :: after ∧ P before e ∧ ∀ x ∈ after, Q x

theorem not_since_nil : ¬ Since P Q [] := by
  rintro ⟨before, e, after, h, _⟩
  simp at h

theorem since_concat : Since P Q (es ++ [x]) ↔ P es x ∨ Since P Q es ∧ Q x := by
  constructor
  · rintro ⟨before, e, after, h, hp, hq⟩
    rcases List.eq_nil_or_concat after with rfl | ⟨after, y, rfl⟩
    · obtain ⟨rfl, rfl⟩ : es = before ∧ x = e := by simpa using h
      exact .inl hp
    · have hcons : es ++ [x] = (before ++ e :: after) ++ [y] := by simpa using h
      obtain ⟨rfl, hx⟩ := List.append_inj' hcons rfl
      obtain rfl : x = y := by simpa using hx
      right
      refine ⟨⟨before, e, after, rfl, hp, ?_⟩, hq x (by simp)⟩
      intro z hz
      exact hq z (by simp [hz])
  · rintro (hp | ⟨⟨before, e, after, rfl, hp, hq⟩, hx⟩)
    · exact ⟨es, x, [], rfl, hp, by simp⟩
    · refine ⟨before, e, after ++ [x], by simp, hp, ?_⟩
      intro z hz
      rcases List.mem_append.mp hz with hz | hz
      · exact hq z hz
      · obtain rfl : z = x := by simpa using hz
        exact hx

end Chip8
