import Chip8.Proofs.Display.Torus
import Chip8.Proofs.Machine.Bounds
import Chip8.Proofs.Machine.Registers

/-! The instruction that draws, from the bytes of the sprite to the pixels and the flag, and what
instructions mark the screen. -/
namespace Chip8

namespace Memory

theorem isSet_load {m : Memory} {a n row column : ℕ} :
    Display.IsSet (m.load a n) row column ↔
      column < 8 ∧ row < n ∧ (m.get (a + row)).toNat.testBit (7 - column) = true := by
  unfold Display.IsSet
  constructor
  · rintro ⟨hcolumn, bits, hbits, hbit⟩
    obtain ⟨hrow, rfl⟩ := List.getElem?_eq_some_iff.mp hbits
    rw [getElem_load] at hbit
    exact ⟨hcolumn, by simpa using hrow, hbit⟩
  · rintro ⟨hcolumn, hrow, hbit⟩
    have hlt : row < (m.load a n).length := by rwa [length_load]
    refine ⟨hcolumn, _, List.getElem?_eq_getElem hlt, ?_⟩
    rwa [getElem_load]

end Memory

namespace Machine

variable {m : Machine} {i : Instruction ℕ} {x y n c r k : ℕ}

/-- A bit that is set, in the `n` sprite bytes at the index, lies over the pixel in column `c` and
row `r`. Two registers hold where the sprite begins, and it goes around the edges of the screen. -/
def Covers (m : Machine) (x y n c r : ℕ) : Prop :=
  let dx := ((c : ℤ) - (m.reg x).toNat) % 64
  let dy := ((r : ℤ) - (m.reg y).toNat) % 32
  dx < 8 ∧ dy < n ∧ (m.memory.get (m.index.toNat + dy.toNat)).toNat.testBit (7 - dx.toNat) = true

/-- A lit pixel is dark afterwards. -/
def Erases (before after : Display) : Prop :=
  ∃ c < 64, ∃ r < 32, before.isLit (r * 64 + c) = true ∧ after.isLit (r * 64 + c) = false

/-- What drawing a sprite of `n` rows at the registers `x` and `y` makes of a machine. -/
structure Drawn (m : Machine) (x y n : ℕ) (q : Machine) : Prop where
  flipped : ∀ c < 64, ∀ r < 32, m.Covers x y n c r →
    q.display.isLit (r * 64 + c) = !m.display.isLit (r * 64 + c)
  kept : ∀ c < 64, ∀ r < 32, ¬ m.Covers x y n c r →
    q.display.isLit (r * 64 + c) = m.display.isLit (r * 64 + c)
  flag_one : Erases m.display q.display → q.reg 15 = 1
  flag_zero : ¬ Erases m.display q.display → q.reg 15 = 0
  registers : ∀ k < 15, q.reg k = m.reg k
  index : q.index = m.index
  memory : q.memory = m.memory
  stack : q.stack = m.stack
  timers : q.timers = m.timers
  keypad : q.keypad = m.keypad
  run : q.run = m.run
  pc : q.pc.toNat = m.pc.toNat + 2

/-- The pixels that the sprite at two registers lies over. -/
def spriteCells (m : Machine) (x y n : ℕ) : List ℕ :=
  Display.cells (m.reg x).toNat (m.reg y).toNat (m.memory.load m.index.toNat n)

theorem mem_spriteCells_iff (hn : n ≤ 32) (hc : c < 64) (hr : r < 32) :
    r * 64 + c ∈ m.spriteCells x y n ↔ m.Covers x y n c r := by
  have hcell : Display.cell c r = r * 64 + c := by
    unfold Display.cell
    omega
  rw [spriteCells, Display.mem_cells, ← hcell]
  simp only [Memory.isSet_load, Display.cell_eq_iff, Covers]
  constructor
  · rintro ⟨row, column, ⟨hcolumn, hrow, hbit⟩, hx, hy⟩
    have hdx : ((c : ℤ) - (m.reg x).toNat) % 64 = column := by omega
    have hdy : ((r : ℤ) - (m.reg y).toNat) % 32 = row := by omega
    rw [hdx, hdy]
    exact ⟨by omega, by omega, hbit⟩
  · rintro ⟨hdx, hdy, hbit⟩
    exact ⟨_, _, ⟨by omega, by omega, hbit⟩, by omega, by omega⟩

/-- The screen once the sprite at two registers is drawn, and whether a lit pixel went dark. -/
def spriteDrawn (m : Machine) (x y n : ℕ) : Display × Bool :=
  m.display.draw ((m.reg x).toNat : ℤ) ((m.reg y).toNat : ℤ) (m.memory.load m.index.toNat n)

/-- Registers hold no negative number, so drawing gets to every bit. -/
theorem allReached_regs (m : Machine) (x y : ℕ) (sprite : List UInt8) :
    Display.AllReached (m.reg x).toNat (m.reg y).toNat sprite := by
  intro row column _
  exact ⟨.inl (by omega), .inl (by omega)⟩

theorem isLit_spriteDrawn (hn : n ≤ 32) {i : ℕ} (hi : i < 2048) :
    (m.spriteDrawn x y n).1.isLit i =
      (m.display.isLit i ^^ decide (i ∈ m.spriteCells x y n)) :=
  (m.allReached_regs x y _).isLit_draw (by simpa using hn) m.display hi

theorem erases_spriteDrawn_iff (hn : n ≤ 32) :
    Erases m.display (m.spriteDrawn x y n).1 ↔ (m.spriteDrawn x y n).2 = true := by
  have hcollided : (m.spriteDrawn x y n).2 = true ↔
      ∃ i ∈ m.spriteCells x y n, m.display.isLit i = true :=
    (m.allReached_regs x y _).collided_draw (by simpa using hn) m.display
  rw [hcollided]
  constructor
  · rintro ⟨c, hc, r, hr, hlit, hdark⟩
    rw [isLit_spriteDrawn hn (by omega), hlit] at hdark
    exact ⟨_, by simpa using hdark, hlit⟩
  · rintro ⟨i, hi, hlit⟩
    have hlt : i < 2048 := by
      obtain ⟨_, _, _, rfl⟩ := Display.mem_cells.mp hi
      exact Display.cell_lt _ _
    have hindex : i / 64 * 64 + i % 64 = i := by omega
    refine ⟨i % 64, by omega, i / 64, by omega, ?_, ?_⟩
    · rwa [hindex]
    · rw [hindex, isLit_spriteDrawn hn hlt, hlit, decide_eq_true hi]
      rfl

theorem drawSprite_of_lt (hx : x < 16) (hy : y < 16) :
    m.drawSprite (.of x) (.of y) (m.memory.load m.index.toNat n) =
      { m with display := (m.spriteDrawn x y n).1 }.setFlag (m.spriteDrawn x y n).2 := by
  simp only [drawSprite, m.value?_of_lt hx, m.value?_of_lt hy, spriteDrawn]

/-- The machine behind the instruction, seen from the parts that it leaves alone. -/
theorem apply_draw (hx : x < 16) (hy : y < 16) (roll : UInt8) :
    ∃ registers,
      m.apply (.draw x y n) roll =
        { m with
          registers
          display := (m.spriteDrawn x y n).1
          pc := UInt16.ofNat (m.skipTo false) } ∧
      ∀ k, (m.apply (.draw x y n) roll).reg k =
        if k = 15 then (if (m.spriteDrawn x y n).2 then 1 else 0) else m.reg k := by
  have hcompleted : m.completed roll (.draw x y n) = _ := drawSprite_of_lt hx hy
  obtain ⟨v, hv⟩ := setFlag_eq { m with display := (m.spriteDrawn x y n).1 } (m.spriteDrawn x y n).2
  refine ⟨v, ?_, ?_⟩
  · rw [apply, hcompleted, hv]
    rfl
  · intro k
    have hreg : (m.apply (.draw x y n) roll).reg k = (m.completed roll (.draw x y n)).reg k := rfl
    rw [hreg, hcompleted, reg_setFlag]
    rfl

theorem drawn_apply (hx : x < 16) (hy : y < 16) (hn : n ≤ 32) (hpc : m.pc.toNat ≤ 0xffe)
    (roll : UInt8) : m.Drawn x y n (m.apply (.draw x y n) roll) := by
  obtain ⟨v, hq, hreg⟩ := apply_draw (m := m) (n := n) hx hy roll
  have hdisplay : (m.apply (.draw x y n) roll).display = (m.spriteDrawn x y n).1 := by rw [hq]
  have hflag := hreg 15
  constructor
  case flipped =>
    intro c hc r hr hcovers
    rw [hdisplay, isLit_spriteDrawn hn (by omega),
      decide_eq_true ((mem_spriteCells_iff hn hc hr).mpr hcovers), Bool.xor_true]
  case kept =>
    intro c hc r hr hcovers
    have hmem : r * 64 + c ∉ m.spriteCells x y n := fun h =>
      hcovers ((mem_spriteCells_iff hn hc hr).mp h)
    rw [hdisplay, isLit_spriteDrawn hn (by omega), decide_eq_false hmem, Bool.xor_false]
  case flag_one =>
    intro herases
    rw [hdisplay, erases_spriteDrawn_iff hn] at herases
    simp [hflag, herases]
  case flag_zero =>
    intro herases
    rw [hdisplay, erases_spriteDrawn_iff hn] at herases
    simp [hflag, herases]
  case registers =>
    intro k hk
    rw [hreg k, if_neg (by omega)]
  case pc =>
    rw [hq]
    exact toNat_ofNat_pc_add_two hpc
  all_goals rw [hq]

/-- A machine that reads a drawing instruction whose rows are all in memory draws them: each pixel
under a set bit is flipped and no other one, and the flag tells whether a lit pixel went dark, also
if a coordinate was in the flag register. -/
theorem step_draw (hr : m.run = .running) (hi : m.Reads (.draw x y n))
    (hn : n = 0 ∨ m.index.toNat + n ≤ 0x1000) (s : Source) :
    (m.step s).failure? = none ∧ m.Drawn x y n (m.step s).machine := by
  obtain ⟨hx, hy, hrows⟩ := hi.2.1
  have hf : m.fault? (.draw x y n) = none := by
    simp only [fault?, spriteFault?, Memory.size, hn, if_true]
  rw [step_of_rolled hr hi hf rfl]
  have hdrawn := drawn_apply (m := m.fetched m.opcode) (n := n) hx hy (by omega) hi.1 0
  refine ⟨rfl, ?_⟩
  exact ⟨hdrawn.flipped, hdrawn.kept, hdrawn.flag_one, hdrawn.flag_zero, hdrawn.registers,
    hdrawn.index, hdrawn.memory, hdrawn.stack, hdrawn.timers, hdrawn.keypad, hdrawn.run, hdrawn.pc⟩

/-- A machine that is to draw a glyph over two edges of the screen, with both coordinates in the flag
register. -/
def cornered : Machine :=
  (powerOn .standard (some ⟨#[0xdf, 0xf5], "corner", by decide, by decide⟩)).setReg 15 62

theorem step_draw_cornered :
    cornered.run = .running ∧ cornered.Reads (.draw 15 15 5) ∧ cornered.index.toNat + 5 ≤ 0x1000 ∧
      (cornered.step (.seeded 0)).failure? = none ∧
      cornered.Drawn 15 15 5 (cornered.step (.seeded 0)).machine := by
  have hi : (Instruction.draw 15 15 5).InRange := ⟨by decide, by decide, by decide⟩
  have hreads : cornered.Reads (.draw 15 15 5) := reads_of_image rfl rfl hi (by decide)
  have hrows : cornered.index.toNat + 5 ≤ 0x1000 := by decide
  exact ⟨rfl, hreads, hrows, step_draw rfl hreads (.inr hrows) (.seeded 0)⟩

/-! The mark. -/

/-- The machine is at an instruction that clears the screen, or at one that draws a sprite with a
byte that is not zero. -/
def Redraws (m : Machine) : Prop :=
  m.Reads .clear ∨
    ∃ x y n, m.Reads (.draw x y n) ∧ ∃ k < n, m.memory.get (m.index.toNat + k) ≠ 0

theorem displayAfter_draw (hx : x < 16) (hy : y < 16) :
    m.displayAfter (.draw x y n) = (m.spriteDrawn x y n).1 := by
  obtain ⟨_, hflag⟩ := setFlag_eq { m with display := (m.spriteDrawn x y n).1 } (m.spriteDrawn x y n).2
  rw [displayAfter, drawSprite_of_lt hx hy, hflag]

theorem dirty_spriteDrawn :
    (m.spriteDrawn x y n).1.dirty = true ↔
      m.display.dirty = true ∨ ∃ k < n, m.memory.get (m.index.toNat + k) ≠ 0 := by
  rw [spriteDrawn, Display.dirty_draw, Display.exists_isSet_iff]
  simp [Memory.load]

/-- An instruction that completes marks the screen exactly if it clears it, or draws a sprite that
is not blank. -/
theorem dirty_apply (hi : m.Reads i) (roll : UInt8) :
    (m.apply i roll).display.dirty = true ↔ m.display.dirty = true ∨ m.Redraws := by
  rw [display_apply]
  by_cases hclear : i = .clear
  · subst hclear
    have hdirty : (m.displayAfter .clear).dirty = true := rfl
    exact iff_of_true hdirty (.inr (.inl hi))
  · by_cases hdraw : ∃ x y n, i = .draw x y n
    · obtain ⟨x, y, n, rfl⟩ := hdraw
      obtain ⟨hx, hy, _⟩ := hi.2.1
      rw [displayAfter_draw hx hy, dirty_spriteDrawn]
      refine or_congr_right ⟨fun h => .inr ⟨x, y, n, hi, h⟩, ?_⟩
      rintro (h | ⟨x', y', n', h, hk⟩)
      · exact absurd (hi.unique h) hclear
      · obtain ⟨rfl, rfl, rfl⟩ := Instruction.draw.inj (hi.unique h)
        exact hk
    · have hnot : ¬ m.Redraws := by
        rintro (h | ⟨x, y, n, h, _⟩)
        · exact hclear (hi.unique h)
        · exact hdraw ⟨x, y, n, hi.unique h⟩
      rw [displayAfter_of_other hclear fun x y n h => hdraw ⟨x, y, n, h⟩]
      simp [hnot]

end Machine

end Chip8
