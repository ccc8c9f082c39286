import Chip8.Proofs.Runner.Progress
import Chip8.Proofs.Runner.Tracing
import Chip8.Proofs.Text.Digits

/-! The lines of a frame: one for each instruction that brings the count of cycles to a multiple of
the interval. -/
namespace Chip8

namespace Machine

variable {p : Machine × Source}

theorem cycles_next_of_awaiting (hp : p.1.isAwaitingKey = true) :
    (next p).1.cycles = p.1.cycles := by
  cases hr : p.1.run with
  | running => simp [isAwaitingKey, hr] at hp
  | halted f => simp [isAwaitingKey, hr] at hp
  | awaitingKey register =>
    have hnext : (next p).1 = p.1.pollKey register := by
      simp [next, step, hr]
    rcases pollKey_cases p.1 register with hpoll | ⟨_, _, hpoll⟩ <;> rw [hnext, hpoll]

/-- A step is counted exactly if it completes an instruction. -/
theorem cycles_next_eq (p : Machine × Source) :
    (next p).1.cycles = p.1.cycles + (completes p).toNat := by
  cases hp : p.1.isAwaitingKey with
  | false => exact cycles_next hp
  | true =>
    have hnot : completes p = false := by simp [completes, hp]
    rw [cycles_next_of_awaiting hp, hnot]
    rfl

end Machine

namespace Runner

open Machine

variable {r q : Runner} {xs : List (Machine × Source)} {x : Machine × Source} {n : ℕ}

/-- The step completes an instruction and brings the count of cycles to a multiple of `n`. -/
def marks (n : ℕ) (x : Machine × Source) : Bool :=
  completes x && (next x).1.cycles % n == 0

theorem marks_of_not_completes (h : completes x = false) : marks n x = false := by
  simp [marks, h]

/-- The quotient of the count goes up by one where a step marks, and nowhere else. -/
theorem div_cycles_next (n : ℕ) (x : Machine × Source) :
    (next x).1.cycles / n = x.1.cycles / n + (marks n x).toNat := by
  rw [marks, cycles_next_eq]
  cases hx : completes x with
  | false => rfl
  | true =>
    simp only [Bool.true_and, Bool.toNat_true, Nat.succ_div, Nat.dvd_iff_mod_eq_zero]
    by_cases h : (x.1.cycles + 1) % n = 0 <;> simp [h]

/-- Of the steps that begin in the states `xs`, those that mark are traced between the runners, and
the counts of cycles say how many they are. -/
structure Sampled (n : ℕ) (r : Runner) (xs : List (Machine × Source)) (q : Runner) : Prop where
  lines : q.trace.toList = r.trace.toList ++ (xs.filter (marks n)).map lineBehind
  count : q.machine.cycles / n = r.machine.cycles / n + (xs.filter (marks n)).length

/-- Lines are collected, and there is one due at every multiple of `n`. -/
structure Samples (n : ℕ) (r : Runner) : Prop where
  tracing : r.tracing = true
  every : r.traceEvery = n
  pos : 1 ≤ n

theorem traceDue_of_samples (h : Samples n r) : r.traceDue = (r.machine.cycles % n == 0) := by
  obtain ⟨htracing, hevery, hpos⟩ := h
  have hmod : ((r.machine.cycles : ℤ) % n == 0) = (r.machine.cycles % n == 0) := by
    rw [Bool.eq_iff_iff, beq_iff_eq, beq_iff_eq]
    omega
  simp [traceDue, htracing, hevery, hmod, Nat.pos_of_ne_zero (Nat.one_le_iff_ne_zero.mp hpos)]

/-- A step that does not fail is traced if it marks. -/
theorem traceBehind_of_samples (h : Samples n r) :
    r.traceBehind = if marks n r.state then r.trace.push (lineBehind r.state) else r.trace := by
  have hdue : (r.stepped r.trace).traceDue = ((next r.state).1.cycles % n == 0) :=
    traceDue_of_samples (r := r.stepped r.trace) ⟨h.tracing, h.every, h.pos⟩
  have hcycles : (next r.state).1.cycles = r.machine.cycles + (completes r.state).toNat :=
    cycles_next_eq r.state
  unfold traceBehind traced
  cases hx : completes r.state with
  | false =>
    have hsame : (next r.state).1.cycles = r.machine.cycles := by
      simpa [hx] using hcycles
    rw [if_pos hsame, marks_of_not_completes hx]
    rfl
  | true =>
    have hne : (next r.state).1.cycles ≠ r.machine.cycles := by
      simp [hcycles, hx]
    have hmarks : marks n r.state = ((next r.state).1.cycles % n == 0) := by
      simp [marks, hx]
    rw [if_neg hne, hdue, hmarks]
    split <;> rfl

theorem sampled_nil (n : ℕ) (r : Runner) : Sampled n r [] r :=
  ⟨by simp, rfl⟩

theorem Sampled.append {u : Runner} {ys : List (Machine × Source)} (hxs : Sampled n r xs q)
    (hys : Sampled n q ys u) : Sampled n r (xs ++ ys) u := by
  refine ⟨?_, ?_⟩
  · rw [hys.lines, hxs.lines, List.filter_append, List.map_append, List.append_assoc]
  · rw [hys.count, hxs.count, List.filter_append, List.length_append, Nat.add_assoc]

theorem sampled_stepped (h : Samples n r) : Sampled n r [r.state] (r.stepped r.traceBehind) := by
  have hcount : (r.stepped r.traceBehind).machine.cycles / n =
      r.machine.cycles / n + (marks n r.state).toNat := div_cycles_next n r.state
  have hlines : (r.stepped r.traceBehind).trace = _ := traceBehind_of_samples h
  cases hx : marks n r.state with
  | false =>
    rw [hx] at hcount hlines
    exact ⟨by simp [hlines, hx], by simp [hcount, hx]⟩
  | true =>
    rw [hx] at hcount hlines
    exact ⟨by simp [hlines, hx], by simp [hcount, hx]⟩

/-- A step that fails completes nothing. -/
theorem sampled_failed {e : Failure} (hf : failureAt r.state 1 = some e) (q : Runner)
    (hq : q.trace = r.trace ∧ q.machine = (next r.state).1) : Sampled n r [r.state] q := by
  obtain ⟨htrace, hmachine⟩ := hq
  have hnot : marks n r.state = false := marks_of_not_completes (by simp [completes, hf])
  have hcount : q.machine.cycles / n = r.machine.cycles / n + (marks n r.state).toNat := by
    rw [hmachine]
    exact div_cycles_next n r.state
  exact ⟨by simp [hnot, htrace], by simp [hnot, hcount]⟩

theorem stepwise_sampled : Stepwise fun r xs q => Samples n r → Sampled n r xs q where
  nil r _ := sampled_nil n r
  failed hf _ := sampled_failed hf _ ⟨rfl, rfl⟩
  cons {r q xs} _ hrest h := by
    have hnext : Samples n (r.stepped r.traceBehind) := ⟨h.tracing, h.every, h.pos⟩
    exact (sampled_stepped h).append (hrest hnext)
  begun {r q xs} hrest h := by
    have hbegun : Sampled n r.begun xs q := hrest ⟨h.tracing, h.every, h.pos⟩
    exact ⟨hbegun.lines, hbegun.count⟩

/-- The end of a frame neither traces nor counts. -/
theorem sampled_frame (h : Samples n r) : Sampled n r r.frameStarts r.frame.2 := by
  have hwork : Sampled n r r.frameStarts r.work.2 := stepwise_sampled.work r h
  cases hend : r.work.1 with
  | some e => rwa [frame_of_work_some hend]
  | none =>
    rw [frame_of_work_none hend]
    exact ⟨hwork.lines, hwork.count⟩

theorem interval_of_range (hn : n < 2 ^ 31) : interval n = n := by
  have hmax : max (0 : ℤ) n = n := by omega
  rw [interval, hmax, Int32.toInt_ofInt_of_le (by omega) (by omega)]

theorem samples_of_interval (htracing : r.tracing = true) (hevery : r.traceEvery = interval n)
    (hpos : 1 ≤ n) (hn : n < 2 ^ 31) : Samples n r :=
  ⟨htracing, hevery.trans (interval_of_range hn), hpos⟩

/-- So many digits in base 16, and a number that they write. -/
def Writes (text : String) (width n : ℕ) : Prop :=
  text.toList.length = width ∧ Number.natural? 16 text.toList = some n

theorem writes_hex {width : ℕ} (hw : 0 < width) (hn : n < 16 ^ width) :
    Writes (Text.hex n width) width n :=
  ⟨Text.length_hex hw hn, Text.natural?_hex n width⟩

/-- The numbers in the line behind a step can be read back from it. An index may have a fourth digit,
since it may be behind the end of the memory. -/
structure Legible (x : Machine × Source) : Prop where
  pc : Writes (Text.hex x.1.pc.toNat 3) 3 x.1.pc.toNat
  word : Writes (Text.hex x.1.opcode.toNat 4) 4 x.1.opcode.toNat
  index : Number.natural? 16 (Text.hex (next x).1.index.toNat 3).toList =
    some (next x).1.index.toNat
  depth : Number.natural? 10 (toString (next x).1.stack.depth).toList =
    some (next x).1.stack.depth
  registers : ∀ b ∈ (next x).1.registers.toList, Writes (Text.hex b.toNat 2) 2 b.toNat

theorem legible_of_completes (h : completes x = true) : Legible x where
  pc := by
    obtain ⟨hpc, _⟩ := fetched_of_completes h
    exact writes_hex (by decide) (by omega)
  word := writes_hex (by decide) x.1.opcode.toNat_lt
  index := Text.natural?_hex _ 3
  depth := by
    have hdigits : (toString (next x).1.stack.depth).toList =
        Nat.toDigits 10 (next x).1.stack.depth := by
      simp
    rw [hdigits]
    exact Number.natural?_toDigits (by decide) (by decide) _
  registers b _ := writes_hex (by decide) b.toNat_lt

theorem frameStarts_of_halted (hh : r.machine.isHalted = true) : r.frameStarts = [] := by
  rw [frameStarts, hh]
  rfl

/-- Lines are neither lost nor repeated. The steps of a frame follow one another, and of them those
are traced, in their order, that complete an instruction and bring the count of cycles to a multiple
of the interval: as many as there are multiples behind the count before the frame and up to the one
after it. Each line shows the address and the word of the fetch, whatever the instruction did to
that word, and the index, the stack and the registers behind the instruction, in digits that these
numbers can be read back from. A look at the keypad, a step that fails and a frame of a halted machine
leave no line. -/
theorem frame_sampled (htracing : r.tracing = true) (hevery : r.traceEvery = interval n)
    (hpos : 1 ≤ n) (hn : n < 2 ^ 31) :
    let xs := r.frameStarts.filter (marks n)
    r.frameStarts = (List.range r.frameStarts.length).map (next^[·] r.state) ∧
      r.frame.2.trace.toList = r.trace.toList ++ xs.map lineBehind ∧
      xs.length = r.frame.2.machine.cycles / n - r.machine.cycles / n ∧
      (∀ x ∈ xs, completes x = true ∧ n ∣ (next x).1.cycles ∧
        x.1.memory.readWord (x.1.pc.toNat : ℤ) = .ok x.1.opcode ∧
        lineBehind x =
          "[TRACE] " ++ Text.hex x.1.pc.toNat 3 ++ " " ++ Text.hex x.1.opcode.toNat 4 ++ " "
            ++ Text.padRight 16 (Disassembly.wordText x.1.opcode.toNat)
            ++ " I=" ++ Text.hex (next x).1.index.toNat 3
            ++ " SP=" ++ toString (next x).1.stack.depth
            ++ " V=" ++ " ".intercalate
              ((next x).1.registers.toList.map fun b => Text.hex b.toNat 2) ∧
        Legible x) ∧
      (∀ x ∈ r.frameStarts,
        x.1.isAwaitingKey = true ∨ (x.1.step x.2).failure?.isSome = true → x ∉ xs) ∧
      (r.machine.isHalted = true → xs = []) := by
  intro xs
  obtain ⟨hlines, hcount⟩ := sampled_frame (samples_of_interval htracing hevery hpos hn)
  refine ⟨(frameStarts_eq r).1, hlines, ?_, ?_, ?_, ?_⟩
  · have hlength : r.frame.2.machine.cycles / n = r.machine.cycles / n + xs.length := hcount
    omega
  · intro x hx
    have hmarks : marks n x = true := (List.mem_filter.mp hx).2
    obtain ⟨hcompletes, hmod⟩ := Bool.and_eq_true_iff.mp hmarks
    obtain ⟨hpc, _⟩ := fetched_of_completes hcompletes
    exact ⟨hcompletes, Nat.dvd_of_mod_eq_zero (beq_iff_eq.mp hmod), readWord_of_le hpc,
      lineBehind_eq hcompletes, legible_of_completes hcompletes⟩
  · intro x _ hx hmem
    have hmarks : marks n x = true := (List.mem_filter.mp hmem).2
    obtain ⟨hawait, hfailure⟩ := completes_iff.mp (Bool.and_eq_true_iff.mp hmarks).1
    rcases hx with hx | hx
    · exact Bool.false_ne_true (hawait.symm.trans hx)
    · have hnone : (x.1.step x.2).failure? = none := hfailure
      simp [hnone] at hx
  · intro hh
    simp [xs, frameStarts_of_halted hh]

/-- A frame of five instructions, with a line at every second one. -/
def countingAloud : Runner :=
  make (counting 5).machine (.seeded 0) (some 5) .record 2 true

/-- Every step of the program counts. -/
theorem Counting.cycles_frame (hr : Counting r.machine) (hb : r.budget = some n) :
    r.frame.2.machine.cycles = r.machine.cycles + n := by
  have hcounting : Counting r.state.1 := hr
  have hawait : r.state.1.isAwaitingKey = false := by
    simp [isAwaitingKey, hcounting.run]
  have hlead := leads_frame r
  have hall := hcounting.leads hlead
  have hcount : r.frameStarts.countP completes = n :=
    (List.countP_eq_length.mpr fun x hx => (hall x hx).1).trans (hr.length_frameStarts hb)
  have hcycles := hlead.cycles hawait fun x hx => (hall x hx).2
  rwa [hcount] at hcycles

theorem frame_sampled_countingAloud :
    countingAloud.tracing = true ∧ countingAloud.traceEvery = interval 2 ∧ 1 ≤ 2 ∧ 2 < 2 ^ 31 ∧
      countingAloud.frame.2.trace.toList.length = 2 := by
  obtain ⟨_, hlines, hcount, _⟩ :=
    frame_sampled (r := countingAloud) (n := 2) rfl rfl (by decide) (by decide)
  have hbefore : countingAloud.machine.cycles = 0 := rfl
  have htrace : countingAloud.trace.toList = [] := rfl
  have hafter := Counting.cycles_frame (r := countingAloud) (counting_counting 5) rfl
  rw [hafter, hbefore] at hcount
  rw [htrace, List.nil_append] at hlines
  refine ⟨rfl, rfl, by decide, by decide, ?_⟩
  rw [hlines, List.length_map, hcount]

end Runner

end Chip8
