import Chip8.Hash
import Chip8.Memory

/-! Program images. -/

namespace Chip8

/-- A named image that fits into program space and is not empty. -/
structure Cartridge where
  image : Array UInt8
  name : String
  size_pos : 0 < image.size
  size_le : image.size ≤ Memory.maxProgram

namespace Cartridge

/-- An image has no header; its size is all that can be wrong with it. -/
def make (image : Array UInt8) (name : String) : Except Fault Cartridge :=
  let limit := Float.ofNat Memory.maxProgram
  if empty : image.size = 0 then .error (.imageEmpty 0 limit)
  else if large : Memory.maxProgram < image.size then
    .error (.imageTooLarge (Float.ofNat image.size) limit)
  else .ok ⟨image, name, by omega, by omega⟩

theorem make_of_fits {image : Array UInt8} (h : 1 ≤ image.size ∧ image.size ≤ Memory.maxProgram)
    (name : String) : ∃ c, make image name = .ok c := by
  have hempty : image.size ≠ 0 := by omega
  have hlarge : ¬ Memory.maxProgram < image.size := by omega
  simp [make, hempty, hlarge]

theorem make_of_not_fits {image : Array UInt8}
    (h : ¬ (1 ≤ image.size ∧ image.size ≤ Memory.maxProgram)) (name : String) :
    ∃ f, make image name = .error f ∧ f.family = "RomLoadError" ∧ f.fatal = false := by
  unfold make
  split
  · exact ⟨_, rfl, rfl, rfl⟩
  · split
    · exact ⟨_, rfl, rfl, rfl⟩
    · omega

theorem image_of_make {image : Array UInt8} {name : String} {c : Cartridge}
    (h : make image name = .ok c) : c.image = image := by
  unfold make at h
  split at h
  · cases h
  · split at h
    · cases h
    · obtain rfl := Except.ok.inj h
      rfl

/-- The name of an image that came without one. -/
def defaultName : String := "untitled"

def checksum (c : Cartridge) : String :=
  Hash.checksum c.image

end Cartridge

end Chip8
