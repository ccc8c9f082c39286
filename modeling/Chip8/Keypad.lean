import Chip8.Fault

/-! The sixteen-key pad. -/

namespace Chip8

abbrev Key := Fin 16

def Keypad.keyCount : Nat := 16

/-- Two sets of keys as bit masks: the keys that are down, and the keys that went down since the
latch was last cleared, so that a tap between two looks is not lost. -/
structure Keypad where
  held : BitVec 16
  latched : BitVec 16
  deriving DecidableEq, Repr

namespace Keypad

def initial : Keypad where
  held := 0
  latched := 0

/-- The mask of a single key. -/
def bit (k : Key) : BitVec 16 :=
  BitVec.twoPow 16 k.val

/-- The keys of a mask, in order. -/
def keysOf (mask : BitVec 16) : List Key :=
  (List.finRange 16).filter fun k => mask.getLsbD k.val

def isDown (p : Keypad) (k : Key) : Bool :=
  p.held.getLsbD k.val

/-- A key that was up when it is pressed goes into the latch. -/
def press (p : Keypad) (k : Key) : Keypad where
  held := p.held ||| bit k
  latched := if p.isDown k then p.latched else p.latched ||| bit k

def release (p : Keypad) (k : Key) : Keypad :=
  { p with held := p.held &&& ~~~bit k }

def set (p : Keypad) (k : Key) (down : Bool) : Keypad :=
  if down then p.press k else p.release k

@[simp] theorem isDown_press (p : Keypad) (j k : Key) :
    (p.press j).isDown k = (p.isDown k || k == j) := by
  simp [isDown, press, bit, BEq.beq, Fin.ext_iff]

@[simp] theorem isDown_release (p : Keypad) (j k : Key) :
    (p.release j).isDown k = (p.isDown k && k != j) := by
  simp [isDown, release, bit, bne, BEq.beq, Fin.ext_iff]

def pressedKeys (p : Keypad) : List Key :=
  keysOf p.held

def clearLatch (p : Keypad) : Keypad :=
  { p with latched := 0 }

/-- The lowest latched key. Taking one clears the latch. -/
def takeLatched (p : Keypad) : Option Key × Keypad :=
  match (keysOf p.latched).head? with
  | some k => (some k, p.clearLatch)
  | none => (none, p)

def releaseAll (_ : Keypad) : Keypad :=
  initial

/-! Keys by number, for callers outside the machine. -/

def key? (x : Float) : Except Fault Key :=
  match Number.index? 16 x with
  | some k => .ok k
  | none => .error (.invalidKey x)

def setKey (p : Keypad) (x : Float) (down : Bool) : Except Fault Keypad := do
  return p.set (← key? x) down

def isPressed (p : Keypad) (x : Float) : Except Fault Bool := do
  return p.isDown (← key? x)

end Keypad

end Chip8
