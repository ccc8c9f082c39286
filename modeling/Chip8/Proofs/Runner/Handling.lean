import Chip8.Proofs.Machine.Faults
import Chip8.Proofs.Machine.Glyphs
import Chip8.Proofs.Runner.Operations

/-! What a caller can do to an emulator beyond its operations, and what no caller can do. -/
namespace Chip8

namespace Machine

theorem enduring_intact : Enduring (·.memory.Intact) where
  step s h := intact_step h s
  withKeypad _ h := h
  withTimers _ h := h
  withDisplay _ h := h
  reset _ := by
    rw [reset_eq_powerOn]
    exact intact_powerOn _ _
  insert _ _ := by
    rw [insert_eq_powerOn]
    exact intact_powerOn _ _

end Machine

namespace Runner

open Machine

/-- Besides the operations, a caller may have any instruction executed, write a byte, or copy a
program into memory, with numbers of any kind, and may change all that is not memory in any way. -/
inductive Handling : Type 1 where
  | operation (o : Operation)
  | execute {α : Type} [Scalar α] (i : Instruction α)
  | write {α : Type} [Scalar α] (address value : α)
  | copy (image : Array UInt8)
  | change (f : Machine → Machine)

/-- A handling that is refused leaves things as they are. -/
def handle (r : Runner) : Handling → Runner
  | .operation o => (r.operate o).2
  | @Handling.execute _ _ i =>
    { r with
      machine := (r.machine.execute r.source i).machine
      source := (r.machine.execute r.source i).source }
  | @Handling.write _ _ address value =>
    match r.machine.memory.writeByte address (Scalar.toByte value) with
    | .ok memory => { r with machine := { r.machine with memory } }
    | .error _ => r
  | .copy image =>
    match r.machine.memory.withProgram? image with
    | .ok memory => { r with machine := { r.machine with memory } }
    | .error _ => r
  | .change f => { r with machine := { f r.machine with memory := r.machine.memory } }

def handleAll (r : Runner) (hs : List Handling) : Runner :=
  hs.foldl handle r

variable {r : Runner}

theorem intact_handle (h : r.machine.memory.Intact) (x : Handling) :
    (r.handle x).machine.memory.Intact := by
  cases x with
  | operation o => exact enduring_operate enduring_intact h o
  | execute i => exact intact_execute h r.source i
  | write address value =>
    rw [handle]
    cases hw : r.machine.memory.writeByte address (Scalar.toByte value) with
    | ok memory => exact h.writeByte hw
    | error f => exact h
  | copy image =>
    rw [handle]
    cases hw : r.machine.memory.withProgram? image with
    | ok memory => exact h.withProgram? hw
    | error f => exact h
  | change f => exact h

theorem intact_handleAll (h : r.machine.memory.Intact) (xs : List Handling) :
    (r.handleAll xs).machine.memory.Intact := by
  apply List.foldlRecOn (motive := fun r : Runner => r.machine.memory.Intact) xs _ h
  intro r hr x _
  exact intact_handle hr x

/-- Whatever is done to an emulator, the lowest 512 bytes are the glyphs and zeros behind them. So
a program, or a caller, that points the index at the glyph of a register finds it there. -/
theorem glyphs_intact (dialect : Dialect) (cartridge : Option Cartridge) (source : Source)
    (budget : Option ℕ) (mode : FaultMode) (traceEvery : ℤ) (tracing : Bool) (xs : List Handling) :
    let m := ((make (powerOn dialect cartridge) source budget mode traceEvery tracing).handleAll
      xs).machine
    m.memory.load 0 0x200 = Font.glyphs.flatten ++ List.replicate 432 0 ∧
      ∀ x : Fin 16, ∃ glyph, Font.glyphs[(m.reg x).toNat % 16]? = some glyph ∧
        ∀ s o, (o = m.execute s (.pointGlyph x.val) ∨
            m.run = .running ∧ m.Reads (.pointGlyph x.val) ∧ o = m.step s) →
          o.failure? = none ∧
            o.machine.memory.readBytes o.machine.index.toNat Font.glyphBytes = .ok glyph := by
  intro m
  have h : m.memory.Intact := intact_handleAll (intact_powerOn dialect cartridge) xs
  refine ⟨h.load_eq, fun x => ?_⟩
  obtain ⟨glyph, hglyph, hread⟩ := readBytes_apply_pointGlyph h x 0
  refine ⟨glyph, hglyph, ?_⟩
  rintro s o (rfl | ⟨hr, hi, rfl⟩)
  · have hcarry : m.carryOut 0 (.pointGlyph x.val) = (none, m.apply (.pointGlyph x.val) 0) :=
      carryOut_eq m 0 _
    have hexecute : m.execute s (.pointGlyph x.val) = .of (m.carryOut 0 (.pointGlyph x.val)) s :=
      execute_eq (i := .pointGlyph x.val) x.isLt
    rw [hexecute, hcarry]
    exact ⟨rfl, hread⟩
  · rw [step_of_rolled hr hi rfl rfl]
    exact ⟨rfl, hread⟩

/-- A program that points at the glyph of its first register. -/
def pointing : Runner :=
  make (powerOn .standard (some ⟨#[0xf0, 0x29], "point", by decide, by decide⟩)) (.seeded 0)
    (some 1) .record 0 false

/-- A write into the glyphs and an instruction to store sixteen registers from there on are refused,
and the register is set to a byte whose low digit is A. -/
def meddling : List Handling :=
  [.write (0x32 : ℕ) 0xff, .change fun m => { m with index := 0x1f8 }, .execute (.store (15 : ℕ)),
    .change fun m => m.setReg 0 0x5a]

/-- An instruction that is refused changes nothing. -/
theorem handle_execute_of_refuses {i : Instruction ℕ} {kind : String} (hi : i.InRange)
    (h : r.machine.Refuses i kind) : r.handle (.execute i) = r := by
  obtain ⟨f, hf, _⟩ := (ofKind_fault?_iff hi).mpr h
  have hexecute : r.machine.execute r.source i = ⟨some (.fault f), r.machine, r.source⟩ := by
    rw [execute_eq hi, rolled_of_fault? hf]
    simp only [carryOut_eq, hf]
    rfl
  simp only [handle, hexecute]

theorem handleAll_meddling (r : Runner) :
    (r.handleAll meddling).machine = { r.machine with index := 0x1f8 }.setReg 0 0x5a := by
  let low : Runner := { r with machine := { r.machine with index := 0x1f8 } }
  have hstore : low.handle (.execute (.store (15 : ℕ))) = low :=
    handle_execute_of_refuses (show 15 < 16 by decide)
      (.storeBelow (show 0x1f8 + 16 ≤ 0x1000 by decide) (show 0x1f8 < 0x200 by decide))
  change ((low.handle (.execute (.store (15 : ℕ)))).machine).setReg 0 0x5a = _
  rw [hstore]

theorem glyphs_intact_meddling :
    let m := (pointing.handleAll meddling).machine
    m.run = .running ∧ m.Reads (.pointGlyph 0) ∧
      (m.step (.seeded 0)).failure? = none ∧
        (m.step (.seeded 0)).machine.memory.readBytes (m.step (.seeded 0)).machine.index.toNat 5 =
          .ok [0xf0, 0x90, 0xf0, 0x90, 0x90] := by
  intro m
  have hm : m = { pointing.machine with index := 0x1f8 }.setReg 0 0x5a :=
    handleAll_meddling pointing
  have hrun : m.run = .running := by
    rw [hm]
    rfl
  have hpc : m.pc = 0x200 := by
    rw [hm]
    rfl
  have hmemory : m.memory = Memory.initial.withProgram #[0xf0, 0x29] := by
    rw [hm]
    rfl
  have hi : (Instruction.pointGlyph 0).InRange := show 0 < 16 by decide
  have hreads : m.Reads (.pointGlyph 0) := reads_of_image hmemory hpc hi (by decide)
  have hdigit : (m.reg (0 : Fin 16).val).toNat % 16 = 10 := by
    rw [hm]
    rfl
  obtain ⟨_, hglyphs⟩ := glyphs_intact .standard (some ⟨#[0xf0, 0x29], "point", by decide,
    by decide⟩) (.seeded 0) (some 1) .record 0 false meddling
  obtain ⟨glyph, hglyph, hpoint⟩ := hglyphs 0
  obtain ⟨hf, hread⟩ := hpoint (.seeded 0) (m.step (.seeded 0)) (.inr ⟨hrun, hreads, rfl⟩)
  have hsome : Font.glyphs[10]? = some glyph := hdigit ▸ hglyph
  obtain rfl : [0xf0, 0x90, 0xf0, 0x90, 0x90] = glyph := Option.some.inj hsome
  exact ⟨hrun, hreads, hf, hread⟩

end Runner

end Chip8
