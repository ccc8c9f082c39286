import Chip8.Display
import Mathlib.Tactic

/-! A screen that has changed is marked as changed, and the mark has no say in what is drawn. -/
namespace Chip8.Display

variable {α : Type} [Scalar α] {a b c d : Display}

/-- The screen carries the mark, or it is as it was. -/
def Noted (before after : Display) : Prop :=
  after.dirty = true ∨ after = before

theorem noted_refl (d : Display) : Noted d d :=
  .inr rfl

theorem Noted.trans (hab : Noted a b) (hbc : Noted b c) : Noted a c := by
  rcases hbc with hc | rfl
  · exact .inl hc
  · exact hab

theorem noted_clear (d : Display) : Noted d d.clear :=
  .inl rfl

theorem dirty_plot (s : Display × Bool) (target : Option ℕ) : (plot s target).1.dirty = true := by
  cases target <;> rfl

theorem noted_draw (d : Display) (x y : α) (sprite : List UInt8) :
    Noted d (d.draw x y sprite).1 := by
  apply List.foldlRecOn (motive := fun s : Display × Bool => Noted d s.1) _ _ (noted_refl d)
  intro s _ target _
  exact .inl (dirty_plot s target)

theorem noted_miss (d : Display) (sprite : List UInt8) : Noted d (d.miss sprite).1 := by
  cases hd : d.dirty with
  | true => exact .inl (by simp [miss, hd])
  | false =>
    cases hs : sprite.any (· != 0) with
    | true => exact .inl (by simp [miss, hs])
    | false =>
      right
      unfold miss
      simp only [hd, hs, Bool.or_false]
      rw [← hd]

/-! Screens with the mark taken. -/

theorem plot_takeDirty (s : Display × Bool) (target : Option ℕ) :
    (plot (s.1.takeDirty.2, s.2) target).1.takeDirty.2 = (plot s target).1.takeDirty.2 ∧
      (plot (s.1.takeDirty.2, s.2) target).2 = (plot s target).2 := by
  cases target <;> exact ⟨rfl, rfl⟩

theorem draw_takeDirty (d : Display) (x y : α) (sprite : List UInt8) :
    (d.takeDirty.2.draw x y sprite).1.takeDirty.2 = (d.draw x y sprite).1.takeDirty.2 ∧
      (d.takeDirty.2.draw x y sprite).2 = (d.draw x y sprite).2 := by
  have hfold (targets : List (Option ℕ)) (s t : Display × Bool)
      (hst : s.1.takeDirty.2 = t.1.takeDirty.2 ∧ s.2 = t.2) :
      (targets.foldl plot s).1.takeDirty.2 = (targets.foldl plot t).1.takeDirty.2 ∧
        (targets.foldl plot s).2 = (targets.foldl plot t).2 := by
    induction targets generalizing s t with
    | nil => exact hst
    | cons target targets ih =>
      apply ih
      have hs := plot_takeDirty s target
      have ht := plot_takeDirty t target
      rw [hst.1, hst.2] at hs
      exact ⟨hs.1.symm.trans ht.1, hs.2.symm.trans ht.2⟩
  exact hfold _ _ _ ⟨rfl, rfl⟩

end Chip8.Display
