import Chip8.Proofs.Pacer.Alternation
import Chip8.Proofs.Pacer.Frames
import Chip8.Proofs.Pacer.Quiet
import Chip8.Proofs.Pacer.Work
import Chip8.Proofs.Runner.Changes

/-! The frames that a timer hands to the screen, and how their pictures follow one another. -/
namespace Chip8

/-- A frame that is not marked shows the picture of the frame before it. -/
def Frame.Follows (f g : Frame) : Prop :=
  g.displayChanged = false → g.pixels = f.pixels

namespace Pacer

variable {τ : Type} [Scalar τ] {p q : Pacer τ} {before : List Frame} {t : Moment τ} {f : Frame}

/-! What is presented. -/

omit [Scalar τ] in
theorem frame?_eq_some_iff : p.frame? = some f ↔ p.runner.frame.1 = .ok f := by
  unfold frame?
  cases p.runner.frame.1 <;> simp [Except.toOption]

theorem calling_presented (fs : List Frame) :
    Calling fun p : Pacer τ => p.presented = fs where
  start t h := by
    unfold start
    split
    · exact h
    · exact h
  halt h := h
  switch on h := (presented_switch _ on).trans h

theorem presented_present (hs : p.adapters.present?.isSome = true) (t : Moment τ) (f : Frame) :
    (p.present t f).2.presented = p.presented ++ [f] := by
  unfold present
  split
  case h_1 hnone => simp [hnone] at hs
  case h_2 reaction _ =>
    exact (calling_presented _).react t _ (presented_noteFrame p f)

theorem presented_deliver (hs : p.adapters.present?.isSome = true) (t : Moment τ) (f : Frame) :
    (p.deliver t f).2.presented = p.presented ++ [f] := by
  have hpresent := presented_present hs t f
  unfold deliver
  split
  case h_1 q hq => rwa [hq] at hpresent
  case h_2 q hq =>
    rw [hq] at hpresent
    exact (calling_presented _).setTone t _ hpresent

theorem presented_tryFrame (hs : p.adapters.present?.isSome = true) (t : Moment τ) :
    (p.tryFrame t).2.presented = p.presented ++ p.frame?.toList := by
  unfold tryFrame frame?
  split
  case h_1 failure runner hf =>
    rw [hf]
    exact (List.append_nil _).symm
  case h_2 f runner hf =>
    have hdeliver := presented_deliver (p := { p with runner, latest? := some f }) hs t f
    rw [hf]
    split
    case h_1 q hq => rwa [hq] at hdeliver
    case h_2 q hq => rwa [hq] at hdeliver

theorem presented_fail (p : Pacer τ) (t : Moment τ) (error : Failure) (frame? : Option Frame) :
    (p.fail t error frame?).2.presented = p.presented := by
  have hstop := (calling_presented p.presented).stop t rfl
  unfold fail
  split
  case h_1 q hq => rwa [hq] at hstop
  case h_2 q hq =>
    rw [hq] at hstop
    exact (calling_presented _).react t _ ((presented_noteFault q error frame?).trans hstop)

/-- A frame is presented once, however it ends. -/
theorem presented_runFrame (hs : p.adapters.present?.isSome = true) (t : Moment τ) :
    (p.runFrame t).2.presented = p.presented ++ p.frame?.toList := by
  have htry := presented_tryFrame hs t
  unfold runFrame
  split
  case h_1 error frame? q hq =>
    rw [hq] at htry
    exact (presented_fail q t error frame?).trans htry
  case h_2 q hq => rwa [hq] at htry

/-! How the pictures follow one another. -/

/-- The frames `before` and those that were presented since follow one another. While the loop runs,
the display of its machine is that of the last of them, without a mark. -/
structure Seamless (before : List Frame) (p : Pacer τ) : Prop where
  adapters : p.adapters.Quiet
  listens : p.adapters.present?.isSome = true
  chain : (before ++ p.presented).IsChain Frame.Follows
  current : p.running = true → ∀ f ∈ (before ++ p.presented).getLast?,
    p.runner.machine.display = ⟨f.pixels, false⟩

omit [Scalar τ] in
theorem Seamless.frame (h : Seamless before p) (hr : p.running = true) (hf : p.frame? = some f) :
    (before ++ p.presented ++ [f]).IsChain Frame.Follows := by
  refine List.isChain_append.mpr ⟨h.chain, List.isChain_singleton f, ?_⟩
  intro g hg g' hg' hunmarked
  obtain rfl : f = g' := Option.some.inj hg'
  have hdisplay := h.current hr g hg
  have hclean : p.runner.machine.display.dirty = false := by rw [hdisplay]
  obtain ⟨-, hsame, -⟩ := Runner.displayChanged_iff hclean (frame?_eq_some_iff.mp hf)
  rw [hsame hunmarked, hdisplay]

/-- What a frame leaves to the next one. -/
theorem Seamless.runFrame (h : Seamless before p) (hr : p.running = true) (t : Moment τ) :
    Seamless before (p.runFrame t).2 := by
  have hpresented := presented_runFrame h.listens t
  have hrunner := runner_runFrame p t
  have hadapters : (p.runFrame t).2.adapters = p.adapters :=
    (abiding_adapters p.adapters).runFrame t rfl
  cases hf : p.frame? with
  | some f =>
    rw [hf, Option.toList_some] at hpresented
    refine ⟨hadapters ▸ h.adapters, hadapters ▸ h.listens, ?_, ?_⟩
    · rw [hpresented, ← List.append_assoc]
      exact h.frame hr hf
    · rw [hpresented, hrunner, ← List.append_assoc, List.getLast?_concat]
      intro _ g hg
      obtain rfl : f = g := Option.some.inj hg
      exact (Runner.frame_ok (frame?_eq_some_iff.mp hf)).2.2
  | none =>
    have hnot : ¬ Faultless p := by
      rintro ⟨f, hok, -⟩
      simp [frame?, hok, Except.toOption] at hf
    obtain ⟨q, hstopped, hhalted⟩ := runFrame_of_not_faultless h.adapters hnot t
    rw [hf, Option.toList_none, List.append_nil] at hpresented
    refine ⟨hadapters ▸ h.adapters, hadapters ▸ h.listens, hpresented ▸ h.chain, fun hgo => ?_⟩
    rw [hstopped] at hgo
    cases hgo.symm.trans hhalted.running

theorem Seamless.fire (h : Seamless before p) (t : Moment τ) (a : Alarm τ) :
    Seamless before (p.fire t a).2 := by
  have htake : Seamless before (p.take a) := ⟨h.adapters, h.listens, h.chain, h.current⟩
  cases hr : p.running with
  | false =>
    rw [fire_of_not_running hr]
    exact htake
  | true =>
    have hdue : Seamless before ((p.take a).runDue t p.catchUp).2 := by
      apply runDue_of (G := fun q => Seamless before q ∧ q.running = true)
        (E := fun o => Seamless before o.2) ⟨htake, hr⟩
      · exact fun _ hq => hq.1
      · intro q _ r hq hrun
        have hframe := hq.1.runFrame hq.2 t
        rw [hrun] at hframe
        exact ⟨⟨hframe.adapters, hframe.listens, hframe.chain, hframe.current⟩,
          (runFrame_eq_goOn hrun).2⟩
      · intro q _ v r hq _ hrun
        have hframe := hq.1.runFrame hq.2 t
        rwa [hrun] at hframe
    rcases hq : (p.take a).runDue t p.catchUp with ⟨v, q⟩
    rw [hq] at hdue
    rw [fire_of_runDue hr hq]
    cases v with
    | goOn =>
      obtain ⟨nextAt, delay, hrearm⟩ := rearm_eq q t
      rw [hrearm]
      exact ⟨hdue.adapters, hdue.listens, hdue.chain, hdue.current⟩
    | stopped => exact hdue
    | escaped failure => exact hdue

end Pacer

end Chip8
