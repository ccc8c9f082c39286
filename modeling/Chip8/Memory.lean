import Chip8.Fault
import Chip8.Font
import Chip8.Number.Scalar

/-! The 4 KiB address space. Everything below `0x200` belongs to the interpreter. -/

namespace Chip8

def Memory.size : Nat := 0x1000

/-- Programs are loaded here, and nothing below may be written. -/
def Memory.programStart : Nat := 0x200

def Memory.maxProgram : Nat := Memory.size - Memory.programStart

structure Memory where
  bytes : Vector UInt8 0x1000
  deriving DecidableEq

namespace Memory

/-- What a byte holds before a program is there. -/
def initialByte (address : Nat) : UInt8 :=
  Font.bytes[address]?.getD 0

/-- The font, and zeros behind it. -/
def initial : Memory where
  bytes := Vector.ofFn fun i => initialByte i.val

/-- Memory with the program image at `programStart`; the rest of program space is cleared. -/
def withProgram (m : Memory) (image : Array UInt8) : Memory where
  bytes := Vector.ofFn fun i =>
    if i.val < programStart then m.bytes[i] else image[i.val - programStart]?.getD 0

/-- The byte at an address; beyond the end there are zeros. -/
def get (m : Memory) (address : Nat) : UInt8 :=
  m.bytes[address]?.getD 0

/-- Beyond the end nothing is kept. -/
def set (m : Memory) (address : Nat) (byte : UInt8) : Memory where
  bytes := m.bytes.setIfInBounds address byte

/-- Every byte is zero. -/
def cleared : Memory where
  bytes := Vector.replicate 0x1000 0

/-- The big-endian word at an address. -/
def word (m : Memory) (address : Nat) : UInt16 :=
  UInt16.ofNat ((m.get address).toNat * 256 + (m.get (address + 1)).toNat)

/-- Writes bytes one after the other from an address on. -/
def store (m : Memory) (address : Nat) : List UInt8 → Memory
  | [] => m
  | b :: bs => (m.set address b).store (address + 1) bs

/-- Clears everything and writes the glyphs again, each at its place. -/
def reset (_ : Memory) : Memory :=
  Font.glyphs.zipIdx.foldl
    (fun m (glyph, digit) => m.store (Font.base + digit * glyph.length) glyph) cleared

/-- The bytes from an address on. -/
def load (m : Memory) (address count : Nat) : List UInt8 :=
  (List.range count).map fun i => m.get (address + i)

theorem get_of_size_le {m : Memory} {a : Nat} (h : size ≤ a) : m.get a = 0 := by
  have h : ¬ a < 0x1000 := Nat.not_lt.2 h
  simp [get, h]

theorem get_initial (a : Nat) : initial.get a = if a < size then initialByte a else 0 := by
  by_cases h : a < size
  · have ha : a < 0x1000 := h
    simp [get, initial, h, ha]
  · rw [get_of_size_le (Nat.le_of_not_lt h), if_neg h]

theorem get_withProgram (m : Memory) (image : Array UInt8) {a : Nat} (h : a < size) :
    (m.withProgram image).get a =
      if a < programStart then m.get a else image[a - programStart]?.getD 0 := by
  have h : a < 0x1000 := h
  simp [get, withProgram, h]

theorem get_set (m : Memory) (a : Nat) (byte : UInt8) (b : Nat) :
    (m.set a byte).get b = if a = b ∧ b < size then byte else m.get b := by
  by_cases h : b < size
  · have hb : b < 0x1000 := h
    by_cases e : a = b <;> simp [get, set, h, hb, e]
  · rw [get_of_size_le (Nat.le_of_not_lt h), get_of_size_le (Nat.le_of_not_lt h), if_neg]
    exact fun e => h e.2

/-- Only the bytes that were written change. -/
theorem get_store (m : Memory) (a : Nat) (bs : List UInt8) (b : Nat) :
    (m.store a bs).get b =
      if a ≤ b ∧ b < size then bs[b - a]?.getD (m.get b) else m.get b := by
  induction bs generalizing m a with
  | nil => simp [store]
  | cons x bs ih =>
    rw [store, ih, get_set]
    by_cases hb : b < size
    · rcases Nat.lt_trichotomy a b with h | h | h
      · have : b - a = (b - (a + 1)) + 1 := by omega
        have hl : a + 1 ≤ b := h
        have hn : a ≠ b := by omega
        simp [hb, hl, hn, Nat.le_of_lt h, this]
      · subst h
        have h₁ : ¬ a + 1 ≤ a := by omega
        simp [h₁, hb]
      · have h₁ : ¬ a + 1 ≤ b := by omega
        have h₂ : ¬ a ≤ b := by omega
        have h₃ : a ≠ b := by omega
        simp [h₁, h₂, h₃]
    · simp [hb]

theorem get_cleared (a : Nat) : cleared.get a = 0 := by
  simp [get, cleared, Vector.getElem?_replicate]
  split <;> rfl

theorem ext_get {m n : Memory} (h : ∀ a, m.get a = n.get a) : m = n := by
  obtain ⟨bs⟩ := m
  obtain ⟨cs⟩ := n
  congr 1
  apply Vector.ext
  intro i hi
  simpa [get, hi] using h i

/-- Nothing is left of what was in memory. -/
theorem reset_eq_initial (m : Memory) : m.reset = initial := by
  -- the glyphs lie one behind the other, so they are written like one row of bytes
  have hrow : m.reset = cleared.store 0 Font.glyphs.flatten := rfl
  apply ext_get
  intro a
  rw [hrow, get_store, get_initial, get_cleared]
  simp [initialByte, Font.bytes]

@[simp] theorem length_load (m : Memory) (a n : Nat) : (m.load a n).length = n := by
  simp [load]

@[simp] theorem getElem_load (m : Memory) (a n i : Nat) (h : i < (m.load a n).length) :
    (m.load a n)[i] = m.get (a + i) := by
  simp [load]

section Checked

variable {α : Type} [Scalar α]

/-- Where an address points, if it is a whole number inside the address space. -/
def offset? (address : α) : Option Nat :=
  (Scalar.natural? address).filter (· < size)

def locate (address : α) (access : Access) : Except Fault Nat :=
  match offset? address with
  | some a => .ok a
  | none => .error (.outOfBounds (Scalar.toFloat address) access)

/-- Refuses an offset of the interpreter's area. -/
def checkWritable (address : α) (offset : Nat) : Except Fault Unit :=
  if offset < programStart then .error (.writeProtected (Scalar.toFloat address)) else .ok ()

def readByte (m : Memory) (address : α) : Except Fault UInt8 := do
  return m.get (← locate address .read)

/-- Reads the two bytes of a big-endian word, the first one first. -/
def readWord (m : Memory) (address : α) : Except Fault UInt16 := do
  let high ← locate address .read
  let _ ← locate (address + Scalar.ofNat 1) .read
  return m.word high

/-- Reads bytes one after the other, up to the first one that is not there. -/
def readBytes (m : Memory) (address : Nat) : Nat → Except Fault (List UInt8)
  | 0 => return []
  | n + 1 => do
    let b ← m.readByte address
    return b :: (← m.readBytes (address + 1) n)

def writeByte (m : Memory) (address : α) (byte : UInt8) : Except Fault Memory := do
  let a ← locate address .write
  checkWritable address a
  return m.set a byte

/-- Checks a whole range before it is touched, so that a fault leaves nothing half written. Both
ends have to exist, and a write has to start in program space. -/
def checkSpan (address length : α) (access : Access) : Except Fault Unit := do
  if length ≤ Scalar.ofNat 0 then return
  let a ← locate address access
  let _ ← locate (address + length - Scalar.ofNat 1) access
  if access = .write then checkWritable address a

end Checked

def withProgram? (m : Memory) (image : Array UInt8) : Except Fault Memory :=
  if maxProgram < image.size then
    .error (.outOfBounds (Float.ofNat (programStart + image.size - 1)) .write)
  else .ok (m.withProgram image)

/-- A copy of a range, clipped to the address space; fractions are cut. -/
def excerpt (m : Memory) (start length : Float) : List UInt8 :=
  let limit := Float.ofNat size
  let first := Number.greatest 0 (Number.least limit start)
  let last := Number.greatest first (Number.least limit (start + length))
  let a := (Number.toInt first).toNat
  m.load a ((Number.toInt last).toNat - a)

end Memory

end Chip8
