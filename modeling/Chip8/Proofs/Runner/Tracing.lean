import Chip8.Proofs.Disassembly.Lines
import Chip8.Proofs.Machine.Footprint
import Chip8.Proofs.Runner.Interference
import Chip8.Proofs.Runner.PowerOn

/-! The lines that a run traces, against the listing of the image. -/
namespace Chip8

namespace Runner

open Machine

variable {r q u : Runner} {xs ys : List (Machine × Source)} {a : ℕ}

/-! Every traced line is about a step that completes an instruction. -/

/-- The line that is traced behind the step that begins in `x`. -/
def lineBehind (x : Machine × Source) : String :=
  traceLine (next x).1

/-- Of the steps that begin in the states `xs`, some that complete an instruction are traced between
the runners, each with one line and in their order. -/
def Logs (r : Runner) (xs : List (Machine × Source)) (q : Runner) : Prop :=
  ∃ ys : List (Machine × Source), ys.Sublist (xs.filter completes) ∧
    q.trace.toList = r.trace.toList ++ ys.map lineBehind

theorem logs_of_eq (h : q.trace = r.trace) (xs : List (Machine × Source)) : Logs r xs q :=
  ⟨[], List.nil_sublist _, by simp [h]⟩

theorem Logs.append (hxs : Logs r xs q) (hys : Logs q ys u) : Logs r (xs ++ ys) u := by
  obtain ⟨xs', hsub, htrace⟩ := hxs
  obtain ⟨ys', hsub', htrace'⟩ := hys
  refine ⟨xs' ++ ys', ?_, ?_⟩
  · rw [List.filter_append]
    exact hsub.append hsub'
  · rw [htrace', htrace, List.append_assoc, List.map_append]

theorem completes_of_cycles_ne (hf : failureAt r.state 1 = none)
    (h : (next r.state).1.cycles ≠ r.machine.cycles) : completes r.state = true := by
  rw [completes_iff]
  refine ⟨?_, hf⟩
  by_contra hawait
  apply h
  cases hr : r.machine.run with
  | awaitingKey register =>
    have hnext : (next r.state).1 = r.machine.pollKey register := by
      simp [next, state, step, hr]
    rw [hnext]
    rcases pollKey_cases r.machine register with hp | ⟨_, _, hp⟩ <;> rw [hp]
  | running => simp [state, isAwaitingKey, hr] at hawait
  | halted f => simp [state, isAwaitingKey, hr] at hawait

theorem logs_stepped (hf : failureAt r.state 1 = none) :
    Logs r [r.state] (r.stepped r.traceBehind) := by
  unfold traceBehind
  split
  case isTrue => exact logs_of_eq rfl _
  case isFalse hcycles =>
    unfold traced
    split
    case isTrue =>
      refine ⟨[r.state], ?_, ?_⟩
      · rw [List.filter_cons_of_pos (completes_of_cycles_ne hf hcycles)]
        exact List.Sublist.refl _
      · exact Array.toList_push
    case isFalse => exact logs_of_eq rfl _

theorem stepwise_logs : Stepwise Logs where
  nil _ := logs_of_eq rfl []
  failed _ := logs_of_eq rfl _
  cons hf h := (logs_stepped hf).append h
  begun h := h

theorem logs_frame (r : Runner) : Logs r r.frameStarts r.frame.2 := by
  have hwork : Logs r r.frameStarts r.work.2 := stepwise_logs.work r
  cases hend : r.work.1 with
  | some e => rwa [frame_of_work_some hend]
  | none => rwa [frame_of_work_none hend]

theorem logs_frames (n : ℕ) (last : Option Frame) (r : Runner) :
    Logs r (framesStarts n r) (r.runFrames n last).2 :=
  runFrames_through (R := fun r xs _ q => Logs r xs q) (fun _ => logs_of_eq rfl _) logs_frame
    Logs.append n last r

-- stated for any machine, since the machines that operations leave are too large to compare
theorem logs_withMachine (r : Runner) (m : Machine) (xs : List (Machine × Source)) :
    Logs r xs { r with machine := m } :=
  logs_of_eq rfl xs

theorem logs_operate (r : Runner) (o : Operation) : Logs r (r.startsIn o) (r.operate o).2 := by
  cases o with
  | frame => exact logs_frame r
  | frames count => exact logs_frames count none r
  | setBudget x => exact logs_of_eq rfl _
  | input e => exact logs_of_eq rfl _
  | reset => exact logs_withMachine r _ _
  | insert c => exact logs_withMachine r _ _
  | load image =>
    simp only [operate]
    cases r.machine.loadImage image with
    | ok m => exact logs_withMachine r m _
    | error f => exact logs_of_eq rfl _

/-! All that happens to the memory of a machine. -/

/-- A step begins, or the machine is changed from outside. -/
inductive Event where
  | step (x : Machine × Source)
  | change (before after : Machine)

namespace Event

def step? : Event → Option (Machine × Source)
  | step x => some x
  | change _ _ => none

/-- The event does not write the byte at an address. -/
def Spares (a : ℕ) : Event → Prop
  | step x => ¬ x.1.Writes a
  | change before after => after.memory.get a = before.memory.get a

end Event

def events (r : Runner) : Deed → List Event
  | .operation o => (r.startsIn o).map .step
  | .write f => [.change r.machine (r.enact (.write f)).2.machine]

def history (r : Runner) : List Deed → List Event
  | [] => []
  | d :: ds => r.events d ++ (r.enact d).2.history ds

theorem after_cons (r : Runner) (d : Deed) (ds : List Deed) :
    r.after (d :: ds) = (r.enact d).2.after ds :=
  rfl

theorem logs_after (r : Runner) (ds : List Deed) :
    Logs r ((r.history ds).filterMap Event.step?) (r.after ds) := by
  induction ds generalizing r with
  | nil => exact logs_of_eq rfl _
  | cons d ds ih =>
    rw [history, List.filterMap_append, after_cons]
    apply Logs.append _ (ih _)
    cases d with
    | operation o =>
      have hsteps : (r.events (.operation o)).filterMap Event.step? = r.startsIn o := by
        simp [events, List.filterMap_map, Function.comp_def, Event.step?]
      rw [hsteps]
      exact logs_operate r o
    | write f => exact logs_of_eq rfl _

/-! Bytes of the image that nothing writes. -/

/-- The deed puts no other image in. -/
def Deed.Keeps : Deed → Prop
  | .operation (.insert _) => False
  | .operation (.load _) => False
  | _ => True

theorem Deed.Keeps.cartridge {d : Deed} (h : d.Keeps) (c : Option Cartridge) :
    d.cartridge c = c := by
  cases d with
  | operation o =>
    cases o with
    | insert c => exact h.elim
    | load image => exact h.elim
    | _ => rfl
  | write f => rfl

/-- The cartridge is in, and at the address there is the byte that the image has there. -/
structure Kept (c : Cartridge) (a : ℕ) (r : Runner) : Prop where
  cartridge : r.machine.cartridge = some c
  byte : r.machine.memory.get a = (Memory.initial.withProgram c.image).get a

variable {c : Cartridge} {d : Deed} {ds : List Deed} {x : Machine × Source}
  {before after : List Event}

/-- A reset copies the image again, and everything else leaves the byte to the steps. -/
theorem Kept.enact (h : Kept c a r) (hd : d.Keeps) (hspares : ∀ e ∈ r.events d, e.Spares a) :
    Kept c a (r.enact d).2 := by
  have hcartridge : (r.enact d).2.machine.cartridge = some c := by
    rw [cartridge_enact, hd.cartridge, h.cartridge]
  refine ⟨hcartridge, ?_⟩
  cases d with
  | write f =>
    have hbyte : (r.enact (.write f)).2.machine.memory.get a = r.machine.memory.get a :=
      hspares (.change _ _) (by simp [events])
    rw [hbyte, h.byte]
  | operation o =>
    have hsteps : ∀ y ∈ r.startsIn o, ¬ y.1.Writes a := fun y hy =>
      hspares (.step y) (List.mem_map_of_mem hy)
    have hdrives (ho : o.Drives) : (r.operate o).2.machine.memory.get a = _ :=
      ((leads_operate ho r).get hsteps).trans h.byte
    cases o with
    | reset =>
      have hreset : (r.enact (.operation .reset)).2.machine = r.machine.reset := rfl
      rw [hreset, reset_eq_powerOn, h.cartridge]
      rfl
    | insert c => exact hd.elim
    | load image => exact hd.elim
    | frame => exact hdrives trivial
    | frames count => exact hdrives trivial
    | setBudget x => exact hdrives trivial
    | input e => exact hdrives trivial

theorem Kept.get_within (h : Kept c a r) (hd : d.Keeps)
    (hevents : r.events d = before ++ .step x :: after) (hspares : ∀ e ∈ before, e.Spares a) :
    x.1.memory.get a = (Memory.initial.withProgram c.image).get a := by
  cases d with
  | write f => cases before <;> simp [events] at hevents
  | operation o =>
    obtain ⟨xs, rest, hstarts, rfl, hrest⟩ := List.map_eq_append_iff.mp hevents
    obtain ⟨x', ys, rfl, hx, _⟩ := List.map_eq_cons_iff.mp hrest
    obtain rfl : x' = x := Event.step.inj hx
    have hsteps : ∀ y ∈ xs, ¬ y.1.Writes a := fun y hy =>
      hspares (.step y) (List.mem_map_of_mem hy)
    have hdrives : o.Drives := by
      cases o <;> first | trivial | simp [startsIn] at hstarts
    have hlead := leads_operate hdrives r
    rw [hstarts] at hlead
    exact (hlead.get_of_split hsteps).trans h.byte

/-- A byte of the image that nothing has written is there when a step begins. -/
theorem Kept.get_history (h : Kept c a r) (hds : ∀ d ∈ ds, d.Keeps)
    (hhistory : r.history ds = before ++ .step x :: after) (hspares : ∀ e ∈ before, e.Spares a) :
    x.1.memory.get a = (Memory.initial.withProgram c.image).get a := by
  induction ds generalizing r before with
  | nil => simp [history] at hhistory
  | cons d ds ih =>
    have hd : d.Keeps := hds d (by simp)
    have hrest : ∀ d ∈ ds, d.Keeps := fun d hd => hds d (by simp [hd])
    rcases List.append_eq_append_iff.mp hhistory with ⟨before', rfl, hlater⟩ | ⟨now, hnow, hlater⟩
    · have hkept := h.enact hd fun e he => hspares e (by simp [he])
      exact ih hkept hrest hlater fun e he => hspares e (by simp [he])
    · cases now with
      | nil =>
        rw [List.append_nil] at hnow
        have hkept := h.enact hd fun e he => hspares e (hnow ▸ he)
        have hlater : (r.enact d).2.history ds = [] ++ .step x :: after := hlater.symm
        exact ih hkept hrest hlater (by simp)
      | cons e now =>
        obtain ⟨rfl, _⟩ := List.cons.inj hlater
        exact h.get_within hd hnow hspares

theorem ofImage_of_fits {image : Array UInt8} (h : 1 ≤ image.size ∧ image.size ≤ 3584)
    (dialect : Dialect) :
    ∃ c : Cartridge, c.image = image ∧ ofImage dialect image = .ok (powerOn dialect (some c)) := by
  obtain ⟨c, hc⟩ := Cartridge.make_of_fits h Cartridge.defaultName
  have hstarted : ofImage dialect image = .ok (ofCartridge dialect c) := by
    simp only [ofImage, hc]
    rfl
  refine ⟨c, Cartridge.image_of_make hc, ?_⟩
  rw [hstarted, ofCartridge, insert_eq_powerOn, dialect_powerOn]

theorem traceLine_eq (m : Machine) :
    traceLine m =
      "[TRACE] " ++ Text.hex m.lastPc.toNat 3 ++ " " ++ Text.hex m.lastOpcode.toNat 4 ++ " "
        ++ Text.padRight 16 (Disassembly.wordText m.lastOpcode.toNat)
        ++ " I=" ++ Text.hex m.index.toNat 3 ++ " SP=" ++ toString m.stack.depth
        ++ " V=" ++ " ".intercalate (m.registers.toList.map fun b => Text.hex b.toNat 2) :=
  rfl

/-- The line of an instruction shows where it was fetched and which word that was, and what it left
in the index, in the stack and in the registers. -/
theorem lineBehind_eq (h : completes x = true) :
    lineBehind x =
      "[TRACE] " ++ Text.hex x.1.pc.toNat 3 ++ " " ++ Text.hex x.1.opcode.toNat 4 ++ " "
        ++ Text.padRight 16 (Disassembly.wordText x.1.opcode.toNat)
        ++ " I=" ++ Text.hex (next x).1.index.toNat 3 ++ " SP=" ++ toString (next x).1.stack.depth
        ++ " V=" ++ " ".intercalate
          ((next x).1.registers.toList.map fun b => Text.hex b.toNat 2) := by
  obtain ⟨_, hpc, hopcode⟩ := fetched_of_completes h
  rw [lineBehind, traceLine_eq, hpc, hopcode]

/-- The line behind an instruction begins with the address and the word of its fetch, and with the
text of that word. -/
theorem lineBehind_of_completes (h : completes x = true) :
    ∃ rest : String, lineBehind x =
      "[TRACE] " ++ Text.hex x.1.pc.toNat 3 ++ " " ++ Text.hex x.1.opcode.toNat 4 ++ " " ++
        Text.padRight 16 (Disassembly.wordText x.1.opcode.toNat) ++ " I=" ++ rest := by
  refine ⟨Text.hex (next x).1.index.toNat 3 ++ " SP=" ++ toString (next x).1.stack.depth ++ " V=" ++
    " ".intercalate ((next x).1.registers.toList.map fun b => Text.hex b.toNat 2), ?_⟩
  rw [lineBehind_eq h]
  apply String.toList_injective
  simp only [String.toList_append, List.append_assoc]

/-- A listing shows what is executed. It has one line for every two bytes of an image that fits, at
the addresses that the machine of that image reads them at, and a line for a last byte. In any run
of that machine every traced line is about a step that completes an instruction. If that step began
at a line of two bytes, and nothing had written them since the image was put in, it shows the
address, the word and the text of the line, whatever the instruction does to its own bytes. -/
theorem listing_executed (dialect : Dialect) (image : Array UInt8)
    (h : 1 ≤ image.size ∧ image.size ≤ 3584) :
    let ls := Disassembly.lines (0x200 : ℤ) image.toList
    ∃ m, ofImage dialect image = .ok m ∧ ls.length = (image.size + 1) / 2 ∧
      (∀ (i : ℕ) l, ls[i]? = some l →
        l.address = 0x200 + 2 * i ∧
        (2 * i + 1 < image.size → l.ShowsWord m.memory) ∧
        (2 * i + 1 = image.size → ∃ b, image[2 * i]? = some b ∧ l.ShowsByte m.memory b)) ∧
      ∀ r : Runner, r.machine = m → ∀ ds : List Deed, (∀ d ∈ ds, d.Keeps) →
        Logs r ((r.history ds).filterMap Event.step?) (r.after ds) ∧
        ∀ before x after (i : ℕ) l, r.history ds = before ++ .step x :: after → completes x = true →
          ls[i]? = some l → 2 * i + 1 < image.size → (x.1.pc.toNat : ℤ) = l.address →
          (∀ e ∈ before, e.Spares x.1.pc.toNat ∧ e.Spares (x.1.pc.toNat + 1)) →
          ∃ rest : String, lineBehind x =
            "[TRACE] " ++ Text.hex l.address.toNat 3 ++ " " ++ Text.hex l.opcode 4 ++ " " ++
              Text.padRight 16 l.text ++ " I=" ++ rest := by
  intro ls
  obtain ⟨c, rfl, hm⟩ := ofImage_of_fits h dialect
  refine ⟨_, hm, by simp [ls, Disassembly.length_lines], ?_, ?_⟩
  · intro i l hl
    have hlt : 2 * i + 1 ≤ c.image.size := by
      have hlength := (List.getElem?_eq_some_iff.mp hl).1
      simp only [ls, Disassembly.length_lines, Array.length_toList] at hlength
      omega
    rcases Nat.lt_or_eq_of_le hlt with hi | hi
    · obtain ⟨haddress, _, hword⟩ :=
        Disassembly.showsWord_of_lt hl hi c.size_le Memory.initial
      exact ⟨haddress, fun _ => hword, fun hlast => absurd hi (by omega)⟩
    · obtain ⟨haddress, hbyte⟩ := Disassembly.showsByte_of_eq hl hi c.size_le Memory.initial
      exact ⟨haddress, fun hlt => absurd hlt (by omega), fun _ => hbyte⟩
  · intro r hr ds hds
    refine ⟨logs_after r ds, ?_⟩
    intro before x after i l hhistory hx hl hi hpc hspares
    have hkept (a : ℕ) : Kept c a r := ⟨by rw [hr]; rfl, by rw [hr]; rfl⟩
    have hfirst := (hkept _).get_history hds hhistory fun e he => (hspares e he).1
    have hsecond := (hkept _).get_history hds hhistory fun e he => (hspares e he).2
    obtain ⟨haddress, hopcode, hword⟩ :=
      Disassembly.showsWord_of_lt hl hi c.size_le Memory.initial
    have hpc' : x.1.pc.toNat = Memory.programStart + 2 * i := by omega
    have hbound : 2 * i + 1 < Memory.maxProgram := Nat.lt_of_lt_of_le hi c.size_le
    have hopcode' : x.1.opcode.toNat = l.opcode := by
      rw [hpc'] at hfirst hsecond
      rw [Memory.get_programStart_add _ _ (by omega)] at hfirst
      rw [Nat.add_assoc, Memory.get_programStart_add _ _ hbound] at hsecond
      rw [opcode, Memory.toNat_word, hpc', hfirst, Nat.add_assoc, hsecond, hopcode]
      simp [hi, Nat.lt_of_succ_lt hi]
    obtain ⟨rest, hline⟩ := lineBehind_of_completes hx
    refine ⟨rest, ?_⟩
    rw [hline, hopcode', hword.text, ← hpc, Int.toNat_natCast]

/-- A program of one instruction, which stores a register at the index. -/
def storing : Array UInt8 :=
  #[0xf0, 0x55]

/-- The index is set to the instruction, and a frame of one step runs it. -/
def overwriting : List Deed :=
  [.write fun m => (.ok (), { m with index := 0x200 }), .operation .frame]

/-- The instruction overwrites itself, and the line behind it shows it as it was. -/
theorem listing_executed_overwriting :
    ∃ m, ofImage .standard storing = .ok m ∧
      let r := make m (.seeded 0) (some 1) .record 1 true
      let x := ({ m with index := 0x200 }, Source.seeded 0)
      r.history overwriting = [.change m x.1, .step x] ∧ completes x = true ∧ x.1.Writes 0x200 ∧
        ∃ rest, lineBehind x =
          "[TRACE] " ++ Text.hex 0x200 3 ++ " " ++ Text.hex 0xf055 4 ++ " " ++
            Text.padRight 16 (Disassembly.wordText 0xf055) ++ " I=" ++ rest := by
  have hfits : 1 ≤ storing.size ∧ storing.size ≤ 3584 := by decide
  obtain ⟨m, hm, _, _, hruns⟩ := listing_executed .standard storing hfits
  obtain ⟨c, himage, hc⟩ := ofImage_of_fits hfits .standard
  obtain rfl : powerOn .standard (some c) = m := Except.ok.inj (hc.symm.trans hm)
  refine ⟨_, hm, ?_⟩
  intro r x
  have hmemory : x.1.memory = Memory.initial.withProgram storing :=
    congrArg Memory.initial.withProgram himage
  have hreads : x.1.Reads (.store 0) :=
    reads_of_image hmemory rfl (show 0 < 16 by decide) (by decide)
  have hspan : Memory.checkSpan (0x200 : ℕ) 1 .write = .ok () :=
    Memory.checkSpan_succ_eq_ok_iff.mpr ⟨by decide, fun _ => by decide⟩
  have hf : x.1.fault? (.store 0) = none := by
    have hindex : x.1.index.toNat = 0x200 := rfl
    simp only [fault?, rangeFault?, hindex, Nat.zero_add, hspan]
  have hx : completes x = true := completes_of_rolled rfl hreads hf rfl
  have hstarts : { r with machine := x.1 }.frameStarts = [x] := frameStarts_of_one rfl rfl
  have hhistory : r.history overwriting = [.change r.machine x.1] ++ .step x :: [] := by
    change Event.change r.machine x.1 ::
      ({ r with machine := x.1 }.frameStarts.map Event.step ++ []) = _
    rw [hstarts]
    rfl
  have hspares (a : ℕ) : ∀ e ∈ [Event.change r.machine x.1], e.Spares a := by
    simp [Event.Spares, x, r, make]
  obtain ⟨_, hlines⟩ := hruns r rfl overwriting (by simp [overwriting, Deed.Keeps])
  let l : Disassembly.Line ℤ := ⟨0x200, 0xf055, Disassembly.wordText 0xf055⟩
  have hl : (Disassembly.lines (0x200 : ℤ) storing.toList)[0]? = some l := rfl
  have hline := hlines _ x [] 0 l hhistory hx hl (by decide) rfl
    fun e he => ⟨hspares _ e he, hspares _ e he⟩
  refine ⟨hhistory, hx, ⟨rfl, .store 0, hreads, hf, le_rfl, show 0x200 < 0x200 + 1 by decide⟩, ?_⟩
  exact hline

end Runner

end Chip8
