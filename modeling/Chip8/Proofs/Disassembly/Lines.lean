import Chip8.Disassembly
import Chip8.Proofs.Machine.Step

/-! A listing against the memory that its image is copied into. -/
namespace Chip8

namespace Memory

variable {image : Array UInt8} {a k : ℕ}

theorem toNat_word (m : Memory) (a : ℕ) :
    (m.word a).toNat = (m.get a).toNat * 256 + (m.get (a + 1)).toNat := by
  have hhigh := (m.get a).toNat_lt
  have hlow := (m.get (a + 1)).toNat_lt
  have hlt : (m.get a).toNat * 256 + (m.get (a + 1)).toNat < 0x10000 := by omega
  rw [word, UInt16.toNat_ofNat_of_lt' hlt]

/-- A copied image is followed by zeros. -/
theorem get_programStart_add (m : Memory) (image : Array UInt8) (hk : k < maxProgram) :
    (m.withProgram image).get (programStart + k) = image[k]?.getD 0 := by
  have hsize : programStart + k < size := by
    simp only [maxProgram, size, programStart] at hk ⊢
    omega
  rw [get_withProgram _ _ hsize, if_neg (by omega), Nat.add_sub_cancel_left]

/-- A word in the area of programs is made of two bytes of the image. -/
theorem readWord_withProgram (m : Memory) (image : Array UInt8) (hk : k + 1 < maxProgram) :
    ∃ w, (m.withProgram image).readWord ((programStart : ℤ) + k) = .ok w ∧
      w.toNat = (image[k]?.getD 0).toNat * 256 + (image[k + 1]?.getD 0).toNat := by
  have hsize : programStart + k + 1 < size := by
    simp only [maxProgram, size, programStart] at hk ⊢
    omega
  refine ⟨_, readWord_of_lt hsize, ?_⟩
  rw [toNat_word, Nat.add_assoc, get_programStart_add _ _ (by omega),
    get_programStart_add _ _ hk]

end Memory

namespace Disassembly

/-- What is left of an image from twice `i` on begins with this chunk. -/
def chunkAt? (image : List UInt8) (i : ℕ) : Option Chunk :=
  match image[2 * i]?, image[2 * i + 1]? with
  | some high, some low => some (.word high low)
  | some b, none => some (.byte b)
  | none, _ => none

theorem getElem?_chunks (image : List UInt8) (i : ℕ) : (chunks image)[i]? = chunkAt? image i := by
  fun_induction chunks image generalizing i with
  | case1 => simp [chunkAt?]
  | case2 b =>
    cases i with
    | zero => rfl
    | succ i => simp [chunkAt?, Nat.mul_add]
  | case3 high low rest ih =>
    cases i with
    | zero => rfl
    | succ i => simp [chunkAt?, Nat.mul_add, ih]

theorem length_chunks (image : List UInt8) : (chunks image).length = (image.length + 1) / 2 := by
  fun_induction chunks image with
  | case1 => rfl
  | case2 b => simp
  | case3 high low rest ih =>
    simp only [List.length_cons, ih]
    omega

variable {α : Type} [Scalar α]

theorem length_lines (origin : α) (image : List UInt8) :
    (lines origin image).length = (image.length + 1) / 2 := by
  simp [lines, length_chunks]

theorem getElem?_lines (origin : α) (image : List UInt8) (i : ℕ) :
    (lines origin image)[i]? =
      (chunkAt? image i).map fun c => ⟨origin + Scalar.ofNat (2 * i), c.opcode, c.text⟩ := by
  rw [← getElem?_chunks]
  simp [lines, List.getElem?_zipIdx, Option.map_map, Function.comp_def]

/-- A line of two bytes shows the word that is read at its address. -/
structure Line.ShowsWord (l : Line ℤ) (m : Memory) : Prop where
  word : ∃ w, m.readWord l.address = .ok w ∧ w.toNat = l.opcode
  text : l.text = wordText l.opcode

/-- A line of one byte shows that byte, and a word is read there that it is the first half of. -/
structure Line.ShowsByte (l : Line ℤ) (m : Memory) (b : UInt8) : Prop where
  opcode : l.opcode = b.toNat
  text : l.text = "DB 0x" ++ Text.hex b.toNat 2
  word : ∃ w, m.readWord l.address = .ok w ∧ w.toNat = b.toNat * 256

variable {image : Array UInt8} {i : ℕ} {l : Line ℤ}

theorem showsWord_of_lt (h : (lines (Memory.programStart : ℤ) image.toList)[i]? = some l)
    (hi : 2 * i + 1 < image.size) (hsize : image.size ≤ Memory.maxProgram) (m : Memory) :
    l.address = Memory.programStart + 2 * i ∧
      l.opcode = image[2 * i].toNat * 256 + image[2 * i + 1].toNat ∧
      l.ShowsWord (m.withProgram image) := by
  have hhigh : image.toList[2 * i]? = some image[2 * i] := by simp
  have hlow : image.toList[2 * i + 1]? = some image[2 * i + 1] := by simp [hi]
  rw [getElem?_lines, chunkAt?, hhigh, hlow] at h
  obtain rfl := Option.some.inj h
  obtain ⟨w, hread, hw⟩ := m.readWord_withProgram image (k := 2 * i) (by omega)
  have hopcode : w.toNat = image[2 * i].toNat * 256 + image[2 * i + 1].toNat := by
    simpa [hi, Nat.lt_of_succ_lt hi] using hw
  refine ⟨by simp [Scalar.ofNat], rfl, ⟨w, by simpa [Scalar.ofNat] using hread, hopcode⟩, rfl⟩

theorem showsByte_of_eq (h : (lines (Memory.programStart : ℤ) image.toList)[i]? = some l)
    (hi : 2 * i + 1 = image.size) (hsize : image.size ≤ Memory.maxProgram) (m : Memory) :
    l.address = Memory.programStart + 2 * i ∧
      ∃ b, image[2 * i]? = some b ∧ l.ShowsByte (m.withProgram image) b := by
  have hsome : image.toList[2 * i]? = some image[2 * i] := by simp
  have hnone : image.toList[2 * i + 1]? = none := by simp [hi]
  rw [getElem?_lines, chunkAt?, hsome, hnone] at h
  obtain rfl := Option.some.inj h
  -- the area of programs has an even size, so there is a byte behind the last one
  have heven : Memory.maxProgram = 2 * 1792 := rfl
  have hbehind : 2 * i + 1 < Memory.maxProgram := by omega
  obtain ⟨w, hread, hw⟩ := m.readWord_withProgram image (k := 2 * i) hbehind
  have hlast : image[2 * i]? = some image[2 * i] := by simp
  have hempty : image[2 * i + 1]? = none := by rw [hi]; simp
  have hword : w.toNat = image[2 * i].toNat * 256 := by
    rw [hw, hlast, hempty, Option.getD_some, Option.getD_none, UInt8.toNat_zero, Nat.add_zero]
  refine ⟨by simp [Scalar.ofNat], image[2 * i], hlast, rfl, rfl, w, ?_, hword⟩
  simpa [Scalar.ofNat] using hread

end Disassembly

end Chip8
