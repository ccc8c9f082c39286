import Chip8.Fault

/-! The return addresses of the calls that have not returned. -/

namespace Chip8

def Stack.capacity : Nat := 16

/-- The latest return address comes first. -/
structure Stack where
  addresses : List UInt16
  length_le : addresses.length ≤ Stack.capacity := by decide
  deriving DecidableEq

namespace Stack

def empty : Stack where
  addresses := []

def depth (s : Stack) : Nat :=
  s.addresses.length

/-- A full stack takes no more and stays as it is. -/
def push (s : Stack) (address : UInt16) : Stack :=
  if h : s.addresses.length < capacity then ⟨address :: s.addresses, h⟩ else s

/-- Without the latest address. -/
def pop (s : Stack) : Stack where
  addresses := s.addresses.tail
  length_le := by have := s.length_le; simp; omega

/-- The latest address. -/
def top? (s : Stack) : Option UInt16 :=
  s.addresses.head?

/-- The oldest address first. -/
def toList (s : Stack) : List UInt16 :=
  s.addresses.reverse

theorem depth_le (s : Stack) : s.depth ≤ capacity :=
  s.length_le

@[simp] theorem length_toList (s : Stack) : s.toList.length = s.depth := by
  simp [toList, depth]

@[simp] theorem toList_empty : empty.toList = [] :=
  rfl

theorem toList_push {s : Stack} (h : s.depth < capacity) (a : UInt16) :
    (s.push a).toList = s.toList ++ [a] := by
  simp only [depth] at h
  simp [push, h, toList]

@[simp] theorem toList_pop (s : Stack) : s.pop.toList = s.toList.dropLast := by
  simp [pop, toList]

@[simp] theorem depth_pop (s : Stack) : s.pop.depth = s.depth - 1 := by
  simp [pop, depth]

theorem top?_eq_getLast? (s : Stack) : s.top? = s.toList.getLast? := by
  simp [top?, toList]

/-- The fault of one more call, if there is no room for it. -/
def pushFault? (s : Stack) : Option Fault :=
  if s.depth < capacity then none else some (.stackOverflow (Float.ofNat (s.depth + 1)))

/-- The fault of a return without a call. -/
def popFault? (s : Stack) : Option Fault :=
  if s.depth = 0 then some .stackUnderflow else none

theorem pushFault?_eq_none_iff {s : Stack} : s.pushFault? = none ↔ s.depth < capacity := by
  simp [pushFault?]

theorem popFault?_eq_none_iff {s : Stack} : s.popFault? = none ↔ s.depth ≠ 0 := by
  simp [popFault?]

def push? (s : Stack) (address : UInt16) : Except Fault Stack :=
  match s.pushFault? with
  | some f => .error f
  | none => .ok (s.push address)

def pop? (s : Stack) : Except Fault (UInt16 × Stack) :=
  match s.popFault? with
  | some f => .error f
  | none => .ok (s.top?.getD 0, s.pop)

end Stack

end Chip8
