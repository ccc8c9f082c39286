import Chip8.Pacer
import Mathlib.Tactic

/-! What lasts through the calls that adapters make, and so through whole frames. -/
namespace Chip8.Pacer

variable {τ : Type} [Scalar τ] {P : Pacer τ → Prop} {p : Pacer τ}

theorem running_start (p : Pacer τ) (t : Moment τ) : (p.start t).running = true := by
  unfold start
  split
  · assumption
  · rfl

theorem performQuiet_of (hstart : ∀ p t, P p → P (p.start t)) (hhalt : ∀ p, P p → P p.halt)
    (t : Moment τ) (calls : List (Call τ)) (hp : P p) : P (p.performQuiet t calls) := by
  apply List.foldlRecOn (motive := P) calls _ hp
  intro q hq c _
  split
  · exact hstart _ _ hq
  · exact hhalt _ hq

/-- Adapters reach the loop through its starts and stops only. -/
theorem perform_of (hstart : ∀ p t, P p → P (p.start t)) (hstop : ∀ p t, P p → P (p.stop t).2)
    (t : Moment τ) (calls : List (Call τ)) (hp : P p) : P (p.perform t calls).2 := by
  fun_induction perform t calls p with
  | case1 => exact hp
  | case2 _ _ _ _ ih => exact ih (hstart _ _ hp)
  | case3 later? _ p _ _ hs ih => exact ih (by simpa [hs] using hstop p (later?.getD t) hp)
  | case4 _ later? _ p _ _ hs _ => simpa [hs] using hstop p (later?.getD t) hp
  | case5 _ later? _ p _ hs ih => exact ih (by simpa [hs] using hstop p (later?.getD t) hp)

theorem react_of (hstart : ∀ p t, P p → P (p.start t)) (hstop : ∀ p t, P p → P (p.stop t).2)
    (t : Moment τ) (r : Reaction τ) (hp : P p) : P (p.react t r).2 := by
  have hr := perform_of hstart hstop t r.calls hp
  unfold react
  split <;> simp_all

/-- A property that starts and stops keep, and the switching of the tone to what it is not. -/
structure Toggling (P : Pacer τ → Prop) : Prop where
  start : ∀ {p} (t : Moment τ), P p → P (p.start t)
  halt : ∀ {p}, P p → P p.halt
  toggle : ∀ {p}, P p → P (p.switch !p.toneOn)

namespace Toggling

theorem silence (h : Toggling P) (t : Moment τ) (hp : P p) : P (p.silence t).2 := by
  unfold Pacer.silence
  split
  · rename_i hon
    have hoff : P (p.switch false) := by simpa [hon] using h.toggle hp
    exact performQuiet_of (fun _ t hp => h.start t hp) (fun _ hp => h.halt hp) t _ hoff
  · exact hp

theorem stop (h : Toggling P) (t : Moment τ) (hp : P p) : P (p.stop t).2 :=
  h.silence t (h.halt hp)

theorem react (h : Toggling P) (t : Moment τ) (r : Reaction τ) (hp : P p) :
    P (p.react t r).2 :=
  react_of (fun _ t hp => h.start t hp) (fun _ t hp => h.stop t hp) t r hp

theorem setTone (h : Toggling P) (t : Moment τ) (on : Bool) (hp : P p) :
    P (p.setTone t on).2 := by
  unfold Pacer.setTone Pacer.sound
  split
  · split
    · exact hp
    · rename_i hoff
      have hon : P (p.switch true) := by simpa [hoff] using h.toggle hp
      exact h.react t _ hon
  · exact h.silence t hp

end Toggling

/-- A property that nothing breaks that an adapter can bring about. -/
structure Calling (P : Pacer τ → Prop) : Prop where
  start : ∀ {p} (t : Moment τ), P p → P (p.start t)
  halt : ∀ {p}, P p → P p.halt
  switch : ∀ {p} (on : Bool), P p → P (p.switch on)

namespace Calling

theorem toggling (h : Calling P) : Toggling P :=
  ⟨h.start, h.halt, h.switch _⟩

theorem stop (h : Calling P) (t : Moment τ) (hp : P p) : P (p.stop t).2 :=
  h.toggling.stop t hp

theorem react (h : Calling P) (t : Moment τ) (r : Reaction τ) (hp : P p) :
    P (p.react t r).2 :=
  h.toggling.react t r hp

theorem setTone (h : Calling P) (t : Moment τ) (on : Bool) (hp : P p) :
    P (p.setTone t on).2 :=
  h.toggling.setTone t on hp

end Calling

/-- A property that lasts while a frame is run and handed out. -/
structure Showing (P : Pacer τ → Prop) : Prop extends Toggling P where
  noteFrame : ∀ {p} (f : Frame), P p → P (p.noteFrame f)
  advance : ∀ {p} (runner : Runner) (latest? : Option Frame), P p → P { p with runner, latest? }

namespace Showing

theorem present (h : Showing P) (t : Moment τ) (f : Frame) (hp : P p) :
    P (p.present t f).2 := by
  unfold Pacer.present
  split
  · exact hp
  · exact h.react t _ (h.noteFrame f hp)

theorem deliver (h : Showing P) (t : Moment τ) (f : Frame) (hp : P p) :
    P (p.deliver t f).2 := by
  have hq := h.present t f hp
  unfold Pacer.deliver
  split
  · simp_all
  · exact h.setTone t _ (by simp_all)

theorem tryFrame (h : Showing P) (t : Moment τ) (hp : P p) : P (p.tryFrame t).2 := by
  unfold Pacer.tryFrame
  split
  · exact h.advance _ p.latest? hp
  · rename_i f runner _
    have hq := h.deliver t f (h.advance runner (some f) hp)
    split <;> simp_all

end Showing

/-- A property that no single move inside a frame breaks. Reports come after frames. -/
structure Lasting (P : Pacer τ → Prop) : Prop where
  start : ∀ {p} (t : Moment τ), P p → P (p.start t)
  halt : ∀ {p}, P p → P p.halt
  switch : ∀ {p} (on : Bool), P p → P (p.switch on)
  noteFrame : ∀ {p} (f : Frame), P p → P (p.noteFrame f)
  advance : ∀ {p} (runner : Runner) (latest? : Option Frame), P p → P { p with runner, latest? }

namespace Lasting

theorem showing (h : Lasting P) : Showing P where
  start := h.start
  halt := h.halt
  toggle := h.switch _
  noteFrame := h.noteFrame
  advance := h.advance

theorem silence (h : Lasting P) (t : Moment τ) (hp : P p) : P (p.silence t).2 :=
  h.showing.silence t hp

theorem stop (h : Lasting P) (t : Moment τ) (hp : P p) : P (p.stop t).2 :=
  h.showing.stop t hp

theorem react (h : Lasting P) (t : Moment τ) (r : Reaction τ) (hp : P p) :
    P (p.react t r).2 :=
  h.showing.react t r hp

theorem tryFrame (h : Lasting P) (t : Moment τ) (hp : P p) : P (p.tryFrame t).2 :=
  h.showing.tryFrame t hp

end Lasting

theorem deliver_eq_none {t : Moment τ} {f : Frame} {s : Pacer τ}
    (h : p.deliver t f = (none, s)) :
    ∃ q, p.present t f = (none, q) ∧ q.setTone t f.soundActive = (none, s) := by
  unfold deliver at h
  split at h
  · simp at h
  · rename_i q hq
    exact ⟨q, hq, h⟩

theorem deliver_eq_some {t : Moment τ} {f : Frame} {failure : Failure} {s : Pacer τ}
    (h : p.deliver t f = (some failure, s)) :
    p.present t f = (some failure, s) ∨
      ∃ q, p.present t f = (none, q) ∧ q.setTone t f.soundActive = (some failure, s) := by
  unfold deliver at h
  split at h
  · rename_i failure' q hq
    left
    rw [hq, h]
  · rename_i q hq
    right
    exact ⟨q, hq, h⟩

/-- A frame that ends well was handed to the screen, then to the speaker, and neither of them
failed. -/
theorem tryFrame_eq_none {t : Moment τ} {s : Pacer τ} (h : p.tryFrame t = (none, s)) :
    ∃ f runner q, p.runner.frame = (.ok f, runner) ∧ f.fault? = none ∧
      { p with runner, latest? := some f }.present t f = (none, q) ∧
      q.setTone t f.soundActive = (none, s) := by
  unfold tryFrame at h
  split at h
  · simp at h
  · rename_i f runner hf
    split at h
    · simp at h
    · rename_i q hd
      obtain ⟨hfault, rfl⟩ := Prod.mk.inj h
      obtain ⟨r, hr, hs⟩ := deliver_eq_none hd
      exact ⟨f, runner, r, hf, by simpa using hfault, hr, hs⟩

theorem runFrame_eq_goOn {t : Moment τ} {q : Pacer τ} (h : p.runFrame t = (.goOn, q)) :
    p.tryFrame t = (none, q) ∧ q.running = true := by
  unfold runFrame at h
  split at h
  · rename_i error frame? s hs
    cases hf : (s.fail t error frame?).1 <;> simp [hf, verdictOf] at h
  · rename_i s hs
    cases hr : s.running with
    | true =>
      obtain rfl : s = q := by simpa [hr] using h
      exact ⟨hs, hr⟩
    | false => simp [hr] at h

theorem tryFrame_of_setTone {t : Moment τ} {f : Frame} {runner : Runner} {q s : Pacer τ}
    (hf : p.runner.frame = (.ok f, runner)) (hfault : f.fault? = none)
    (hq : { p with runner, latest? := some f }.present t f = (none, q))
    (hs : q.setTone t f.soundActive = (none, s)) : p.tryFrame t = (none, s) := by
  simp [tryFrame, deliver, hf, hq, hs, hfault]

end Chip8.Pacer
