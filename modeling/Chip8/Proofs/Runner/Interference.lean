import Chip8.Proofs.Machine.Program
import Chip8.Proofs.Runner.Operations

/-! Two runs of one program, with frames of different lengths and different keys. -/
namespace Chip8

namespace Machine

instance (p : Machine × Source) (j : ℕ) : Decidable (Ends p j) :=
  inferInstanceAs (Decidable (_ ∨ _))

/-- The states in which steps begin, of at most so many up to the first that ends them. -/
def starts : ℕ → Machine × Source → List (Machine × Source)
  | 0, _ => []
  | n + 1, p => p :: if Ends p 1 then [] else starts n (next p)

end Machine

namespace Runner

open Machine

variable {r r₁ r₂ : Runner} {k n : ℕ} {o : Operation} {ops ops₁ ops₂ : List Operation}
  {xs ys : List (Machine × Source)}

/-- The states in which the steps of a frame begin. -/
def frameStarts (r : Runner) : List (Machine × Source) :=
  if r.machine.isHalted then [] else Machine.starts (r.budget.getD 0) r.state

theorem frameStarts_of_one (hb : r.budget = some 1) (hh : r.machine.isHalted = false) :
    r.frameStarts = [r.state] := by
  simp [frameStarts, hh, hb, Machine.starts]

def framesStarts : ℕ → Runner → List (Machine × Source)
  | 0, _ => []
  | n + 1, r =>
    r.frameStarts ++
      match r.frame with
      | (.ok f, q) => if f.fault?.isSome then [] else framesStarts n q
      | (.error _, _) => []

/-- The answers of the frames that are tried, up to one with a fault. -/
def framesTried : ℕ → Runner → List (Except Failure Frame)
  | 0, _ => []
  | n + 1, r =>
    r.frame.1 ::
      match r.frame with
      | (.ok f, q) => if f.fault?.isSome then [] else framesTried n q
      | (.error _, _) => []

/-- What each frame does, with its steps and its answer, goes for some frames in a row if it adds
up. -/
theorem runFrames_through
    {R : Runner → List (Machine × Source) → List (Except Failure Frame) → Runner → Prop}
    (hnil : ∀ r, R r [] [] r) (hframe : ∀ r, R r r.frameStarts [r.frame.1] r.frame.2)
    (happend : ∀ {r q p : Runner} {xs ys : List (Machine × Source)}
      {answers answers' : List (Except Failure Frame)},
      R r xs answers q → R q ys answers' p → R r (xs ++ ys) (answers ++ answers') p)
    (n : ℕ) (last : Option Frame) (r : Runner) :
    R r (framesStarts n r) (framesTried n r) (r.runFrames n last).2 := by
  induction n generalizing r last with
  | zero => exact hnil r
  | succ n ih =>
    have hfirst := hframe r
    unfold framesStarts framesTried runFrames
    rcases hr : r.frame with ⟨e | f, q⟩
    · rw [hr] at hfirst
      simpa using hfirst
    · rw [hr] at hfirst
      dsimp only
      split
      · simpa using hfirst
      · exact happend hfirst (ih _ q)

/-- The states in which the steps of an operation begin. -/
def startsIn (r : Runner) : Operation → List (Machine × Source)
  | .frame => r.frameStarts
  | .frames count => framesStarts count r
  | .input .step => [r.state]
  | _ => []

/-- The states in which the steps of a run begin. -/
def starts (r : Runner) : List Operation → List (Machine × Source)
  | [] => []
  | o :: ops => r.startsIn o ++ (r.operate o).2.starts ops

/-- The operation leaves the program in the machine and does not start it again. -/
def Operation.Drives : Operation → Prop
  | .reset => False
  | .insert _ => False
  | .load _ => False
  | _ => True

/-- The relation says what a row of steps of a runner comes to: no steps, a step that fails, or a
step that does not and a row behind it. The record of faults has no say in it. -/
structure Stepwise (R : Runner → List (Machine × Source) → Runner → Prop) : Prop where
  nil : ∀ r, R r [] r
  failed : ∀ {r : Runner} {e : Failure}, failureAt r.state 1 = some e →
    R r [r.state] { r.stepped r.trace with lastFault? := e.fault?.or r.lastFault? }
  cons : ∀ {r q : Runner} {xs : List (Machine × Source)}, failureAt r.state 1 = none →
    R (r.stepped r.traceBehind) xs q → R r (r.state :: xs) q
  begun : ∀ {r q : Runner} {xs : List (Machine × Source)}, R r.begun xs q → R r xs q

theorem Stepwise.steps {R : Runner → List (Machine × Source) → Runner → Prop} (hR : Stepwise R)
    (n : ℕ) (r : Runner) : R r (Machine.starts n r.state) (steps n r).2 := by
  induction n generalizing r with
  | zero => exact hR.nil r
  | succ n ih =>
    unfold Machine.starts
    cases hf : failureAt r.state 1 with
    | some e =>
      have hends : Ends r.state 1 := .inl (by rw [hf]; rfl)
      rw [if_pos hends, steps_succ_of_some hf]
      exact hR.failed hf
    | none =>
      rw [steps_succ_of_none hf]
      by_cases hawait : (r.stepped r.traceBehind).machine.isAwaitingKey = true
      · have hends : Ends r.state 1 := .inr hawait
        rw [if_pos hends, if_pos hawait]
        exact hR.cons hf (hR.nil _)
      · rw [if_neg (not_ends_one hf hawait), if_neg hawait]
        exact hR.cons hf (ih (r.stepped r.traceBehind))

theorem Stepwise.work {R : Runner → List (Machine × Source) → Runner → Prop} (hR : Stepwise R)
    (r : Runner) : R r r.frameStarts r.work.2 := by
  unfold frameStarts
  cases hh : r.machine.isHalted with
  | true =>
    rw [work_of_halted hh]
    exact hR.nil r
  | false =>
    rw [work_eq_steps hh]
    exact hR.begun (hR.steps _ r.begun)

theorem stepwise_leads : Stepwise fun r xs q => Leads r.state xs q.state where
  nil r := alike_refl r.state
  failed {r} _ _ := ⟨alike_refl r.state, alike_refl _⟩
  cons {r _ _} _ h := ⟨alike_refl r.state, h⟩
  begun h := h

theorem leads_frame (r : Runner) : Leads r.state r.frameStarts r.frame.2.state := by
  have hwork : Leads r.state r.frameStarts r.work.2.state := stepwise_leads.work r
  have hclose : Alike r.work.2.state r.frame.2.state := by
    cases hend : r.work.1 with
    | some e =>
      rw [frame_of_work_some hend]
      exact alike_refl _
    | none =>
      rw [frame_of_work_none hend]
      exact ⟨rfl, rfl⟩
  have happend := hwork.append (show Leads _ [] _ from hclose)
  rwa [List.append_nil] at happend

theorem leads_frames (n : ℕ) (last : Option Frame) (r : Runner) :
    Leads r.state (framesStarts n r) (r.runFrames n last).2.state :=
  runFrames_through (R := fun r xs _ q => Leads r.state xs q.state) (fun r => alike_refl r.state)
    leads_frame Leads.append n last r

theorem leads_operate (ho : o.Drives) (r : Runner) :
    Leads r.state (r.startsIn o) (r.operate o).2.state := by
  cases o with
  | frame => exact leads_frame r
  | frames count => exact leads_frames count none r
  | setBudget x => exact alike_refl r.state
  | input e =>
    cases e with
    | key x down =>
      simp only [startsIn, operate, feed, setKey]
      cases r.state.1.keypad.setKey x down with
      | error f => exact alike_refl r.state
      | ok keypad => exact ⟨rfl, rfl⟩
    | releaseAll => exact ⟨rfl, rfl⟩
    | tick => exact ⟨rfl, rfl⟩
    | step => exact ⟨alike_refl _, alike_refl _⟩
  | reset => exact ho.elim
  | insert c => exact ho.elim
  | load image => exact ho.elim

theorem leads_run (hops : ∀ o ∈ ops, o.Drives) (r : Runner) :
    Leads r.state (r.starts ops) (r.run ops).state := by
  induction ops generalizing r with
  | nil => exact alike_refl r.state
  | cons o ops ih =>
    rw [run_cons]
    exact (leads_operate (hops o (by simp)) r).append (ih (fun o ho => hops o (by simp [ho])) _)

/-- Two runs start in the same state, but for timers and keys, and go on with frames of any lengths
and with any keys. In one of them no instruction is completed that looks at the delay timer or at the
keypad. When both have just completed `k` instructions they are in the same state, but for timers
and keys, and if their next steps fail they fail in the same way. -/
theorem runs_alike (hstart : Alike r₁.state r₂.state) (hr : r₁.machine.run = .running)
    (hops₁ : ∀ o ∈ ops₁, o.Drives) (hops₂ : ∀ o ∈ ops₂, o.Drives)
    (hblind : ∀ x ∈ r₁.starts ops₁, Blind x)
    (hxs : xs <+: r₁.starts ops₁) (hys : ys <+: r₂.starts ops₂)
    (hk₁ : JustCompleted k xs) (hk₂ : JustCompleted k ys) :
    (behind r₁.state xs).1.cycles = r₁.machine.cycles + k ∧
      Alike (behind r₁.state xs) (behind r₂.state ys) ∧
      ∀ x y, xs ++ [x] <+: r₁.starts ops₁ → ys ++ [y] <+: r₂.starts ops₂ →
        failureAt y 1 = failureAt x 1 := by
  have hawait : r₁.state.1.isAwaitingKey = false := by
    simp [state, isAwaitingKey, hr]
  have hlead₁ := leads_run hops₁ r₁
  have hlead₂ := leads_run hops₂ r₂
  have hblind' : ∀ x ∈ xs, Blind x := fun x hx => hblind x (hxs.subset hx)
  obtain ⟨xs', hxs'⟩ := hxs
  obtain ⟨ys', hys'⟩ := hys
  rw [← hxs'] at hlead₁ ⊢
  rw [← hys'] at hlead₂ ⊢
  obtain ⟨hbefore₁, hbehind₁⟩ := hlead₁.split
  obtain ⟨hbefore₂, hbehind₂⟩ := hlead₂.split
  have hlength := hk₁.length_eq hk₂ hbefore₁ hbefore₂ hstart hawait hblind'
  obtain ⟨halike, hq, _⟩ := hbefore₁.alike hbefore₂ hlength hstart hawait hblind'
  have hcycles := hbefore₁.cycles hawait hblind'
  rw [hk₁.1] at hcycles
  refine ⟨hcycles, halike, fun x y hx hy => ?_⟩
  obtain ⟨_, rfl⟩ := (List.prefix_append_right_inj xs).mp hx
  obtain ⟨_, rfl⟩ := (List.prefix_append_right_inj ys).mp hy
  have hxy : Alike x y := hbehind₁.1.symm.trans (halike.trans hbehind₂.1)
  exact (hxy.next (hbehind₁.1.isAwaitingKey hq)).1

/-! A program that counts in a register for ever. -/

/-- The machine is at one of the two instructions of the program. -/
structure Counting (m : Machine) : Prop where
  memory : m.memory = Memory.initial.withProgram #[0x70, 0x01, 0x12, 0x00]
  run : m.run = .running
  pc : m.pc = 0x200 ∨ m.pc = 0x202

theorem Counting.next {p : Machine × Source} (h : Counting p.1) :
    completes p = true ∧ Blind p ∧ Counting (next p).1 := by
  have hprogram (i : Instruction ℕ) (hreads : p.1.Reads i) (hsenses : ¬ i.Senses)
      (hf : p.1.fault? i = none) (hroll : rolled p.2 i = (.ok 0, p.2))
      (happly : Counting ((p.1.fetched p.1.opcode).apply i 0).counted) :
      completes p = true ∧ Blind p ∧ Counting (Machine.next p).1 := by
    obtain ⟨hfailure, hnext⟩ := next_of_rolled h.run hreads hf hroll
    have hawait : p.1.isAwaitingKey = false := by simp [isAwaitingKey, h.run]
    refine ⟨completes_iff.mpr ⟨hawait, hfailure⟩, ?_, by rwa [hnext]⟩
    intro _ j hj
    rwa [hj.unique hreads]
  rcases h.pc with hpc | hpc
  · have hi : (Instruction.addByte 0 1).InRange := ⟨by decide, by decide⟩
    refine hprogram (.addByte 0 1) (reads_of_image h.memory hpc hi (by decide)) id rfl rfl ?_
    refine ⟨h.memory, h.run, .inr ?_⟩
    change UInt16.ofNat (p.1.pc.toNat + 2) = _
    rw [hpc]
    rfl
  · have hi : (Instruction.jump 0x200).InRange := (by decide : 0x200 < 4096)
    have hplace : p.1.pc.toNat = 0x200 + 2 := by rw [hpc]; rfl
    refine hprogram (.jump 0x200)
      (reads_of_image_at h.memory hplace (by decide) hi (by decide)) id rfl rfl ?_
    exact ⟨h.memory, h.run, .inl rfl⟩

theorem Counting.of_alike {p q : Machine × Source} (hp : Counting p.1) (h : Alike p q) :
    Counting q.1 := by
  have hmemory : p.1.memory = q.1.memory := (congrArg Machine.memory h.machine :)
  have hrun : p.1.run = q.1.run := (congrArg Machine.run h.machine :)
  have hpc : p.1.pc = q.1.pc := (congrArg Machine.pc h.machine :)
  exact ⟨hmemory ▸ hp.memory, hrun ▸ hp.run, hpc ▸ hp.pc⟩

theorem Counting.leads {p q : Machine × Source} (hp : Counting p.1) (h : Leads p xs q) :
    ∀ x ∈ xs, completes x = true ∧ Blind x := by
  induction xs generalizing p with
  | nil => simp
  | cons x xs ih =>
    have hx := (hp.of_alike h.1).next
    intro y hy
    rcases List.mem_cons.mp hy with rfl | hy
    · exact ⟨hx.1, hx.2.1⟩
    · exact ih hx.2.2 h.2 y hy

theorem Counting.justCompleted {p q : Machine × Source} (hp : Counting p.1) (h : Leads p xs q)
    (n : ℕ) : JustCompleted (xs.take n).length (xs.take n) := by
  have hall : ∀ x ∈ xs.take n, completes x = true :=
    fun x hx => (hp.leads h x (List.mem_of_mem_take hx)).1
  exact ⟨List.countP_eq_length.mpr hall, fun x hx => hall x (List.mem_of_mem_getLast? hx)⟩

theorem Counting.length_starts {p : Machine × Source} (hp : Counting p.1) (n : ℕ) :
    (Machine.starts n p).length = n := by
  induction n generalizing p with
  | zero => rfl
  | succ n ih =>
    obtain ⟨hcompletes, _, hnext⟩ := hp.next
    have hends : ¬ Ends p 1 :=
      not_ends_one (completes_iff.mp hcompletes).2 (by simp [isAwaitingKey, hnext.run])
    unfold Machine.starts
    rw [if_neg hends, List.length_cons, ih hnext]

theorem Counting.length_frameStarts (hr : Counting r.machine) (hb : r.budget = some n) :
    r.frameStarts.length = n := by
  have hp : Counting r.state.1 := hr
  have hh : r.machine.isHalted = false := by simp [isHalted, hr.run]
  simp [frameStarts, hh, hb, hp.length_starts]

def counting (budget : ℕ) : Runner :=
  make (powerOn .standard (some ⟨#[0x70, 0x01, 0x12, 0x00], "count", by decide, by decide⟩))
    (.seeded 0) (some budget) .record 0 false

theorem counting_counting (budget : ℕ) : Counting (counting budget).state.1 :=
  ⟨rfl, rfl, .inl rfl⟩

theorem Counting.length_starts_frame (hr : Counting r.machine) (hb : r.budget = some n) :
    (r.starts [.frame]).length = n := by
  simp [starts, startsIn, hr.length_frameStarts hb]

/-- Nothing begins when a key moves, and the program does not notice. -/
theorem Counting.length_starts_key (hr : Counting r.machine) (hb : r.budget = some n) (x : Float)
    (down : Bool) : (r.starts [.input (.key x down), .frame]).length = n := by
  have hlead : Leads r.state [] (r.operate (.input (.key x down))).2.state :=
    leads_operate (o := .input (.key x down)) trivial r
  have hp : Counting r.state.1 := hr
  have hframe := Counting.length_starts_frame (hp.of_alike hlead) hb
  simpa only [starts, startsIn, List.nil_append] using hframe

/-- Two instructions with a frame for both, and with a frame that goes on behind them and a key that
is down. -/
theorem runs_alike_counting :
    let r₁ := counting 2
    let r₂ := counting 5
    let ops₁ : List Operation := [.frame]
    let ops₂ : List Operation := [.input (.key 5 true), .frame]
    let xs := (r₁.starts ops₁).take 2
    let ys := (r₂.starts ops₂).take 2
    Alike r₁.state r₂.state ∧ r₁.machine.run = .running ∧ (∀ o ∈ ops₁, o.Drives) ∧
      (∀ o ∈ ops₂, o.Drives) ∧ (∀ x ∈ r₁.starts ops₁, Blind x) ∧
      JustCompleted 2 xs ∧ JustCompleted 2 ys ∧
      (behind r₁.state xs).1.cycles = r₁.machine.cycles + 2 ∧
      Alike (behind r₁.state xs) (behind r₂.state ys) := by
  intro r₁ r₂ ops₁ ops₂ xs ys
  have hops₁ : ∀ o ∈ ops₁, o.Drives := by simp [ops₁, Operation.Drives]
  have hops₂ : ∀ o ∈ ops₂, o.Drives := by simp [ops₂, Operation.Drives]
  have hlead₁ := leads_run hops₁ r₁
  have hlead₂ := leads_run hops₂ r₂
  have hcounting₁ : Counting r₁.state.1 := counting_counting 2
  have hcounting₂ : Counting r₂.state.1 := counting_counting 5
  have hblind : ∀ x ∈ r₁.starts ops₁, Blind x := fun x hx => (hcounting₁.leads hlead₁ x hx).2
  have hk₁ : JustCompleted 2 xs := by
    have hlength : xs.length = 2 := by
      rw [List.length_take, Counting.length_starts_frame (r := r₁) hcounting₁ rfl]
      rfl
    rw [← hlength]
    exact hcounting₁.justCompleted hlead₁ 2
  have hk₂ : JustCompleted 2 ys := by
    have hlength : ys.length = 2 := by
      rw [List.length_take, Counting.length_starts_key (r := r₂) hcounting₂ rfl 5 true]
      rfl
    rw [← hlength]
    exact hcounting₂.justCompleted hlead₂ 2
  have hstart : Alike r₁.state r₂.state := ⟨rfl, rfl⟩
  obtain ⟨hcycles, halike, _⟩ := runs_alike hstart rfl hops₁ hops₂ hblind
    (List.take_prefix _ _) (List.take_prefix _ _) hk₁ hk₂
  exact ⟨hstart, rfl, hops₁, hops₂, hblind, hk₁, hk₂, hcycles, halike⟩

end Runner

end Chip8
