import Chip8.Proofs.Number.Double
import Chip8.Proofs.Runner.Interference

/-! The steps that a frame takes, and the budgets under which a machine that runs takes any. -/
namespace Chip8

namespace Budget

variable {x : Float} {n : ℕ}

theorem ofNumber_range (h : ofNumber x = some n) : 1 ≤ n ∧ n ≤ 1000 := by
  unfold ofNumber at h
  split at h
  case h_1 => cases h
  case h_2 negative _ =>
    obtain rfl := Option.some.inj h
    cases negative <;> simp [least, greatest]
  case h_3 =>
    obtain rfl := Option.some.inj h
    exact clamp_range _

/-- Every number gives a budget, infinities included. -/
theorem ofNumber_eq_none_iff : ofNumber x = none ↔ x.isNaN = true := by
  have hnan : x.isNaN = x.toModel.unpack.isNaN := rfl
  rw [ofNumber, Exact.ofFloat_eq, hnan]
  cases x.toModel.unpack <;> simp [Exact.ofUnpacked, Float.Model.UnpackedFloat.isNaN]

end Budget

namespace Machine

variable {p : Machine × Source} {n : ℕ}

theorem length_starts_le (n : ℕ) (p : Machine × Source) : (starts n p).length ≤ n := by
  induction n generalizing p with
  | zero => exact le_rfl
  | succ n ih =>
    have hrest := ih (next p)
    unfold starts
    split
    · exact Nat.succ_le_succ (Nat.zero_le n)
    · exact Nat.succ_le_succ hrest

theorem length_starts_pos (hn : 1 ≤ n) (p : Machine × Source) : 1 ≤ (starts n p).length := by
  obtain ⟨n, rfl⟩ := Nat.exists_eq_add_of_le' hn
  exact Nat.le_add_left 1 _

end Machine

namespace Runner

open Machine

variable {r : Runner} {n : ℕ} {x : Float} {o : Operation} {ops : List Operation}

/-- The steps of a frame are plain steps, one behind the other. -/
theorem stepwise_iterate : Stepwise fun r xs q =>
    xs = (List.range xs.length).map (next^[·] r.state) ∧ q.state = next^[xs.length] r.state where
  nil _ := ⟨rfl, rfl⟩
  failed _ := ⟨rfl, rfl⟩
  cons {r q xs} _ h := by
    obtain ⟨hxs, hq⟩ := h
    refine ⟨?_, hq⟩
    rw [List.length_cons, List.range_succ_eq_map, List.map_cons, List.map_map]
    exact congrArg (r.state :: ·) hxs
  begun h := h

theorem frameStarts_eq (r : Runner) :
    r.frameStarts = (List.range r.frameStarts.length).map (next^[·] r.state) ∧
      r.work.2.state = next^[r.frameStarts.length] r.state :=
  stepwise_iterate.work r

theorem length_frameStarts_le (hb : r.budget = some n) : r.frameStarts.length ≤ n := by
  unfold frameStarts
  split
  · exact Nat.zero_le n
  · rw [hb]
    exact length_starts_le n _

theorem length_frameStarts_pos (hb : r.budget = some n) (hn : 1 ≤ n)
    (hh : r.machine.isHalted = false) : 1 ≤ r.frameStarts.length := by
  rw [frameStarts, hh, hb]
  exact length_starts_pos hn _

theorem frameStarts_of_budget_none (hb : r.budget = none) : r.frameStarts = [] := by
  rw [frameStarts, hb]
  exact ite_self []

/-! The budget of a runner is what the last number that was assigned stands for. -/

theorem stepwise_budget : Stepwise fun r _ q => q.budget = r.budget where
  nil _ := rfl
  failed _ := rfl
  cons _ h := h
  begun h := h

theorem budget_frame (r : Runner) : r.frame.2.budget = r.budget := by
  have hwork : r.work.2.budget = r.budget := stepwise_budget.work r
  cases hend : r.work.1 with
  | some e => rwa [frame_of_work_some hend]
  | none => rwa [frame_of_work_none hend]

theorem budget_runFrames (n : ℕ) (last : Option Frame) (r : Runner) :
    (r.runFrames n last).2.budget = r.budget :=
  runFrames_of (G := fun q => q.budget = r.budget) (fun q hq => (budget_frame q).trans hq) rfl n last

theorem budget_withMachine (r : Runner) (m : Machine) : { r with machine := m }.budget = r.budget :=
  rfl

/-- The number that was assigned last, if `x` was the one before. -/
def Operation.assigned (x : Float) : Operation → Float
  | .setBudget y => y
  | _ => x

def lastAssigned (x : Float) (ops : List Operation) : Float :=
  ops.foldl Operation.assigned x

theorem budget_operate (h : r.budget = Budget.ofNumber x) (o : Operation) :
    (r.operate o).2.budget = Budget.ofNumber (o.assigned x) := by
  cases o with
  | frame => exact (budget_frame r).trans h
  | frames count => exact (budget_runFrames count none r).trans h
  | setBudget y => rfl
  | input e => exact h
  | reset => exact (budget_withMachine r _).trans h
  | insert c => exact (budget_withMachine r _).trans h
  | load image =>
    simp only [operate]
    cases r.machine.loadImage image with
    | ok m => exact (budget_withMachine r m).trans h
    | error f => exact h

theorem budget_run (h : r.budget = Budget.ofNumber x) (ops : List Operation) :
    (r.run ops).budget = Budget.ofNumber (lastAssigned x ops) := by
  induction ops generalizing r x with
  | nil => exact h
  | cons o ops ih => exact ih (budget_operate h o)

/-- A frame makes progress exactly if the number that was assigned last is one. Whatever it is, an
infinity, a fraction or negative, the budget is then between one and a thousand, and a frame of a
machine that is not halted takes at least one step and at most a thousand. What is no number is
kept as a budget of none, and under it a frame takes no steps. -/
theorem progress_iff (m : Machine) (s : Source) (x : Float) (mode : FaultMode) (traceEvery : ℤ)
    (tracing : Bool) (ops : List Operation) :
    let q := (make m s (Budget.ofNumber x) mode traceEvery tracing).run ops
    let y := lastAssigned x ops
    ((∃ n, q.budget = some n ∧ 1 ≤ n ∧ n ≤ 1000) ↔ y.isNaN = false) ∧
      q.work.2.state = next^[q.frameStarts.length] q.state ∧
      (q.machine.isHalted = false →
        (1 ≤ q.frameStarts.length ↔ y.isNaN = false) ∧ q.frameStarts.length ≤ 1000) := by
  intro q y
  have hbudget : q.budget = Budget.ofNumber y := budget_run rfl ops
  by_cases hy : y.isNaN = true
  · have hnone : q.budget = none := hbudget.trans (Budget.ofNumber_eq_none_iff.mpr hy)
    have hsteps : q.frameStarts = [] := frameStarts_of_budget_none hnone
    refine ⟨iff_of_false ?_ ?_, (frameStarts_eq q).2, fun _ => ⟨iff_of_false ?_ ?_, ?_⟩⟩
    · rintro ⟨n, hn, _⟩
      rw [hnone] at hn
      cases hn
    · exact fun h => Bool.false_ne_true (h.symm.trans hy)
    · simp [hsteps]
    · exact fun h => Bool.false_ne_true (h.symm.trans hy)
    · simp [hsteps]
  · have hne : Budget.ofNumber y ≠ none := fun h => hy (Budget.ofNumber_eq_none_iff.mp h)
    obtain ⟨n, hn⟩ := Option.ne_none_iff_exists'.mp hne
    have hsome : q.budget = some n := hbudget.trans hn
    have hfalse : y.isNaN = false := Bool.eq_false_iff.mpr hy
    obtain ⟨hlow, hhigh⟩ := Budget.ofNumber_range hn
    refine ⟨iff_of_true ⟨n, hsome, hlow, hhigh⟩ hfalse, (frameStarts_eq q).2, fun hh => ?_⟩
    exact ⟨iff_of_true (length_frameStarts_pos hsome hlow hh) hfalse,
      (length_frameStarts_le hsome).trans hhigh⟩

/-- The machine that counts, run with a budget that any number stands for. -/
def countingBy (x : Float) : Runner :=
  make (counting 1).machine (.seeded 0) (Budget.ofNumber x) .record 0 false

/-- A fraction comes first, and then a negative infinity. -/
theorem progress_iff_countingBy :
    let q := (countingBy 12.9).run [.setBudget (-Number.infinity)]
    (-Number.infinity).isNaN = false ∧ q.machine.isHalted = false ∧
      (∃ n, q.budget = some n ∧ 1 ≤ n ∧ n ≤ 1000) ∧ 1 ≤ q.frameStarts.length := by
  intro q
  have hnumber : (-Number.infinity).isNaN = false := by decide +kernel
  obtain ⟨hbudget, _, hsteps⟩ := progress_iff (countingBy 12.9).machine (.seeded 0) 12.9 .record 0
    false [.setBudget (-Number.infinity)]
  have hh : q.machine.isHalted = false := rfl
  exact ⟨hnumber, hh, hbudget.mpr hnumber, (hsteps hh).1.mpr hnumber⟩

theorem frameStarts_countingBy : (countingBy Number.notANumber).frameStarts = [] :=
  have hnan : Number.notANumber.isNaN = true := by decide +kernel
  frameStarts_of_budget_none (r := countingBy Number.notANumber)
    (Budget.ofNumber_eq_none_iff.mpr hnan)

/-- A budget may be no number, and a machine that runs then stands still in its frames. -/
theorem not_progress_countingBy :
    ¬ ∀ (m : Machine) (s : Source) (x : Float) (mode : FaultMode) (traceEvery : ℤ)
      (tracing : Bool) (ops : List Operation),
      let q := (make m s (Budget.ofNumber x) mode traceEvery tracing).run ops
      (∃ n, q.budget = some n ∧ 1 ≤ n ∧ n ≤ 1000) ∧
        (q.machine.isHalted = false → 1 ≤ q.frameStarts.length ∧ q.frameStarts.length ≤ 1000) := by
  intro h
  obtain ⟨_, hsteps⟩ := h (countingBy Number.notANumber).machine (.seeded 0) Number.notANumber .record
    0 false []
  have hpos : 1 ≤ (countingBy Number.notANumber).frameStarts.length := (hsteps rfl).1
  simp [frameStarts_countingBy] at hpos

end Runner

end Chip8
