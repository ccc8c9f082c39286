import Chip8.Instruction.Encoding
import Mathlib.Tactic

/-! The words that mean an instruction are those that one is encoded as, and no word means two. The
same holds of integers, by their low sixteen bits. -/
namespace Chip8

namespace ArithOp

theorem code_of_ofCode? {n : ℕ} {op : ArithOp} (h : ofCode? n = some op) : op.code = n := by
  unfold ofCode? at h
  split at h <;> cases h <;> rfl

theorem ofCode?_code (op : ArithOp) : ofCode? op.code = some op := by
  cases op <;> rfl

theorem code_lt (op : ArithOp) : op.code < 16 := by
  cases op <;> decide

end ArithOp

namespace Instruction

variable {word f x y n nn nnn : ℕ} {i : Instruction ℕ}

/-! From words to instructions. -/

theorem encode_of_ofDevice? (h : ofDevice? x nn = some i) : i.encode = 0xf000 + x * 256 + nn := by
  unfold ofDevice? at h
  split at h <;> cases h <;> simp only [encode] <;> omega

theorem encode_of_ofWord? (h : ofWord? word = some i) : i.encode = word := by
  simp only [ofWord?] at h
  split at h
  case h_1 hf =>
    split at h
    · cases h
      simp only [encode]
      omega
    · split at h
      · cases h
        simp only [encode]
        omega
      · cases h
        simp only [encode]
        omega
  case h_9 hf =>
    obtain ⟨op, hop, rfl⟩ := Option.map_eq_some_iff.mp h
    have hcode := ArithOp.code_of_ofCode? hop
    simp only [encode]
    omega
  case h_15 hf =>
    split at h
    · cases h
      simp only [encode]
      omega
    · split at h <;> cases h
      simp only [encode]
      omega
  case h_16 hf =>
    rw [encode_of_ofDevice? h]
    omega
  all_goals
    try split at h
    all_goals cases h
    all_goals simp only [encode]
    all_goals omega

/-! From instructions to words, by the shapes of their operands. -/

theorem fields_address (h : nnn < 4096) :
    (f * 4096 + nnn) / 4096 = f ∧ (f * 4096 + nnn) % 4096 = nnn := by
  omega

theorem fields_byte (hx : x < 16) (h : nn < 256) :
    (f * 4096 + x * 256 + nn) / 4096 = f ∧ (f * 4096 + x * 256 + nn) / 256 % 16 = x ∧
      (f * 4096 + x * 256 + nn) % 256 = nn := by
  omega

theorem fields_registers (hx : x < 16) (hy : y < 16) (h : n < 16) :
    (f * 4096 + x * 256 + y * 16 + n) / 4096 = f ∧
      (f * 4096 + x * 256 + y * 16 + n) / 256 % 16 = x ∧
      (f * 4096 + x * 256 + y * 16 + n) / 16 % 16 = y ∧
      (f * 4096 + x * 256 + y * 16 + n) % 16 = n := by
  omega

theorem fields_device (hx : x < 16) (h : nn < 256) :
    (f * 4096 + nn + x * 256) / 4096 = f ∧ (f * 4096 + nn + x * 256) / 256 % 16 = x ∧
      (f * 4096 + nn + x * 256) % 256 = nn := by
  omega

theorem ofWord?_device (hx : x < 16) (h : nn < 256) :
    ofWord? (0xf000 + nn + x * 256) = ofDevice? x nn := by
  obtain ⟨hf, hfx, hfn⟩ := fields_device (f := 15) hx h
  simp only [ofWord?, hf, hfx, hfn]

theorem ofWord?_encode (h : i.InRange) : ofWord? i.encode = some i := by
  cases i with
  | clear => rfl
  | ret => rfl
  | machineCall nnn =>
    obtain ⟨hn, hclear, hret⟩ := h
    have hf : nnn / 4096 = 0 := by omega
    have hm : nnn % 4096 = nnn := by omega
    simp [ofWord?, encode, hf, hm, hclear, hret]
  | arith op x y =>
    obtain ⟨hx, hy⟩ := h
    obtain ⟨hf, hfx, hfy, hn⟩ := fields_registers (f := 8) hx hy op.code_lt
    simp only [ofWord?, encode, hf, hfx, hfy, hn, ArithOp.ofCode?_code]
    rfl
  | jump nnn =>
    obtain ⟨hf, hnnn⟩ := fields_address (f := 1) h
    simp [ofWord?, encode, hf, hnnn]
  | call nnn =>
    obtain ⟨hf, hnnn⟩ := fields_address (f := 2) h
    simp [ofWord?, encode, hf, hnnn]
  | setIndex nnn =>
    obtain ⟨hf, hnnn⟩ := fields_address (f := 10) h
    simp [ofWord?, encode, hf, hnnn]
  | jumpOffset nnn =>
    obtain ⟨hf, hnnn⟩ := fields_address (f := 11) h
    simp [ofWord?, encode, hf, hnnn]
  | skipIfByte x nn =>
    obtain ⟨hf, hx, hnn⟩ := fields_byte (f := 3) h.1 h.2
    simp [ofWord?, encode, hf, hx, hnn]
  | skipUnlessByte x nn =>
    obtain ⟨hf, hx, hnn⟩ := fields_byte (f := 4) h.1 h.2
    simp [ofWord?, encode, hf, hx, hnn]
  | setByte x nn =>
    obtain ⟨hf, hx, hnn⟩ := fields_byte (f := 6) h.1 h.2
    simp [ofWord?, encode, hf, hx, hnn]
  | addByte x nn =>
    obtain ⟨hf, hx, hnn⟩ := fields_byte (f := 7) h.1 h.2
    simp [ofWord?, encode, hf, hx, hnn]
  | random x nn =>
    obtain ⟨hf, hx, hnn⟩ := fields_byte (f := 12) h.1 h.2
    simp [ofWord?, encode, hf, hx, hnn]
  | skipIfSame x y =>
    obtain ⟨hf, hx, hy, hn⟩ := fields_registers (f := 5) h.1 h.2 (Nat.zero_lt_succ 15)
    simp only [Nat.add_zero] at hf hx hy hn
    simp only [ofWord?, encode, hf, hx, hy, hn, if_true]
  | skipUnlessSame x y =>
    obtain ⟨hf, hx, hy, hn⟩ := fields_registers (f := 9) h.1 h.2 (Nat.zero_lt_succ 15)
    simp only [Nat.add_zero] at hf hx hy hn
    simp only [ofWord?, encode, hf, hx, hy, hn, if_true]
  | draw x y n =>
    obtain ⟨hf, hx, hy, hn⟩ := fields_registers (f := 13) h.1 h.2.1 h.2.2
    simp [ofWord?, encode, hf, hx, hy, hn]
  | skipIfKey x =>
    obtain ⟨hf, hx, hnn⟩ := fields_device (f := 14) h (show 0x9e < 256 by decide)
    simp only [ofWord?, encode, hf, hx, hnn]
    rfl
  | skipUnlessKey x =>
    obtain ⟨hf, hx, hnn⟩ := fields_device (f := 14) h (show 0xa1 < 256 by decide)
    simp only [ofWord?, encode, hf, hx, hnn]
    rfl
  | readDelay x => exact ofWord?_device h (show 0x07 < 256 by decide)
  | waitKey x => exact ofWord?_device h (show 0x0a < 256 by decide)
  | setDelay x => exact ofWord?_device h (show 0x15 < 256 by decide)
  | setSound x => exact ofWord?_device h (show 0x18 < 256 by decide)
  | addIndex x => exact ofWord?_device h (show 0x1e < 256 by decide)
  | pointGlyph x => exact ofWord?_device h (show 0x29 < 256 by decide)
  | storeDecimal x => exact ofWord?_device h (show 0x33 < 256 by decide)
  | store x => exact ofWord?_device h (show 0x55 < 256 by decide)
  | load x => exact ofWord?_device h (show 0x65 < 256 by decide)

theorem ofWord?_eq_some_iff : ofWord? word = some i ↔ i.InRange ∧ i.encode = word := by
  constructor
  · intro h
    exact ⟨inRange_of_ofWord? h, encode_of_ofWord? h⟩
  · rintro ⟨h, rfl⟩
    exact ofWord?_encode h

/-! Integers of any sign and size, by their low sixteen bits. -/

/-- Every operand fits its field. A machine call may then be one of the two words that mean something
else. -/
def Fits (i : Instruction ℕ) : Prop :=
  i.InRange ∨ ∃ nnn < 4096, i = machineCall nnn

theorem encode_lt (h : i.InRange) : i.encode < 65536 := by
  cases i with
  | arith op x y =>
    have hcode := op.code_lt
    simp only [InRange, encode] at h ⊢
    omega
  | _ =>
    simp only [InRange, encode] at h ⊢
    omega

theorem decode_eq_some_iff {w : ℤ} :
    decode w = some i ↔ i.InRange ∧ (i.encode : ℤ) = w % 65536 := by
  rw [decode, ofWord?_eq_some_iff]
  refine and_congr_right fun _ => ?_
  omega

/-- The two calls that are out of range share their words with instructions that are in range. -/
theorem Fits.exists_inRange (h : i.Fits) : ∃ j : Instruction ℕ, j.InRange ∧ j.encode = i.encode := by
  obtain hi | ⟨nnn, hn, rfl⟩ := h
  · exact ⟨i, hi, rfl⟩
  · by_cases hclear : nnn = 0x0e0
    · exact ⟨clear, trivial, hclear.symm⟩
    · by_cases hret : nnn = 0x0ee
      · exact ⟨ret, trivial, hret.symm⟩
      · exact ⟨machineCall nnn, ⟨hn, hclear, hret⟩, rfl⟩

theorem decode_eq_none_iff {w : ℤ} :
    decode w = none ↔ ∀ i : Instruction ℕ, i.Fits → (i.encode : ℤ) ≠ w % 65536 := by
  constructor
  · intro hnone i hi hw
    obtain ⟨j, hj, he⟩ := hi.exists_inRange
    have hsome : decode w = some j := decode_eq_some_iff.mpr ⟨hj, by rw [he, hw]⟩
    simp [hnone] at hsome
  · intro hall
    cases hw : decode w with
    | none => rfl
    | some i =>
      obtain ⟨hi, he⟩ := decode_eq_some_iff.mp hw
      exact absurd he (hall i (.inl hi))

/-- An instruction in range is read back from its word. Whatever an integer is decoded to is in range
and has the low sixteen bits of the integer for its word, and only where no instruction has that word
it is decoded to nothing. -/
theorem decode_table :
    (∀ i : Instruction ℕ, i.InRange → decode i.encode = some i) ∧
      ∀ w : ℤ, (∀ i, decode w = some i → i.InRange ∧ (i.encode : ℤ) = w % 65536) ∧
        (decode w = none ↔ ∀ i : Instruction ℕ, i.Fits → (i.encode : ℤ) ≠ w % 65536) := by
  refine ⟨fun i hi => ?_, fun w => ⟨fun i => decode_eq_some_iff.mp, decode_eq_none_iff⟩⟩
  have hlt := encode_lt hi
  exact decode_eq_some_iff.mpr ⟨hi, by omega⟩

example : decode (-0x1ff20) = some clear := by decide

end Instruction

end Chip8
