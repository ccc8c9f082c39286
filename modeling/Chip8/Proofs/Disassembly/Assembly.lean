import Chip8.Disassembly
import Chip8.Proofs.Instruction.Table
import Chip8.Proofs.Instruction.Tokens

/-! An image put together again from the texts of its listing. -/
namespace Chip8.Disassembly

namespace Chunk

def ofWord (w : ℕ) : Chunk :=
  .word (UInt8.ofNat (w / 256)) (UInt8.ofNat w)

def bytes : Chunk → List UInt8
  | .word high low => [high, low]
  | .byte b => [b]

/-- The parts of the text of a chunk. -/
def tokens : Chunk → List Token
  | .word high low =>
    match Instruction.ofWord? (high.toNat * 256 + low.toNat) with
    | some i => i.tokens
    | none => [.name "DW", .number (high.toNat * 256 + low.toNat) 4]
  | .byte b => [.name "DB", .number b.toNat 2]

/-- The chunk that has these parts. -/
def ofTokens? : List Token → Option Chunk
  | [.name "DW", .number w _] => some (ofWord w)
  | [.name "DB", .number b _] => some (.byte (UInt8.ofNat b))
  | ts => (Instruction.ofTokens? ts).map fun i => ofWord i.encode

/-- Reads a chunk from its text. -/
def ofText? (s : String) : Option Chunk :=
  (Token.ofLine? s).bind ofTokens?

theorem ofWord_toNat (high low : UInt8) :
    ofWord (high.toNat * 256 + low.toNat) = .word high low := by
  have hlow := low.toNat_lt
  have hdiv : (high.toNat * 256 + low.toNat) / 256 = high.toNat := by omega
  have hmod : UInt8.ofNat (high.toNat * 256 + low.toNat) = low := by
    apply UInt8.toNat_inj.mp
    simp
  rw [ofWord, hdiv, hmod, UInt8.ofNat_toNat]

theorem ofTokens?_instruction (i : Instruction ℕ) :
    ofTokens? i.tokens = some (ofWord i.encode) := by
  have h : ofTokens? i.tokens = (Instruction.ofTokens? i.tokens).map fun i => ofWord i.encode := by
    cases i with
    | arith op x y => cases op <;> rfl
    | _ => rfl
  rw [h, Instruction.ofTokens?_tokens]
  rfl

theorem ofTokens?_tokens (c : Chunk) : ofTokens? c.tokens = some c := by
  cases c with
  | word high low =>
    rw [tokens]
    cases hi : Instruction.ofWord? (high.toNat * 256 + low.toNat) with
    | some i =>
      simp only
      rw [ofTokens?_instruction, Instruction.encode_of_ofWord? hi, ofWord_toNat]
    | none => exact congrArg some (ofWord_toNat high low)
  | byte b => exact congrArg (fun b => some (Chunk.byte b)) UInt8.ofNat_toNat

theorem tokens_ne_nil (c : Chunk) : c.tokens ≠ [] := by
  cases c with
  | word high low =>
    rw [tokens]
    cases Instruction.ofWord? (high.toNat * 256 + low.toNat) with
    | some i => exact i.tokens_ne_nil
    | none => simp
  | byte b => simp [tokens]

theorem proper_tokens (c : Chunk) : ∀ t ∈ c.tokens, t.Proper := by
  cases c with
  | word high low =>
    have hhigh := high.toNat_lt
    have hlow := low.toNat_lt
    rw [tokens]
    cases hi : Instruction.ofWord? (high.toNat * 256 + low.toNat) with
    | some i => exact Instruction.proper_tokens (Instruction.inRange_of_ofWord? hi)
    | none =>
      simp [Token.Proper, Token.names]
      omega
  | byte b => simp [tokens, Token.Proper, Token.names, b.toNat_lt]

theorem decode_word (high low : UInt8) :
    Instruction.decode ((high.toNat * 256 + low.toNat : ℕ) : ℤ) =
      Instruction.ofWord? (high.toNat * 256 + low.toNat) := by
  have hhigh := high.toNat_lt
  have hlow := low.toNat_lt
  rw [Instruction.decode]
  congr 1
  omega

theorem text_eq_line (c : Chunk) : c.text = Token.line c.tokens := by
  cases c with
  | word high low =>
    rw [text, wordText, decode_word, tokens]
    cases Instruction.ofWord? (high.toNat * 256 + low.toNat) with
    | some i => exact i.text_eq_line
    | none =>
      simp [Token.line, Token.text, Instruction.operandText, Scalar.toWord32,
        ← String.append_assoc]
  | byte b =>
    have hb := b.toNat_lt
    have hnumber : Instruction.operandText b.toNat 2 = Text.hex b.toNat 2 :=
      Token.operandText_of_lt (by omega) 2
    apply String.toList_injective
    simp [text, tokens, Token.line, Token.text, hnumber]

theorem ofText?_text (c : Chunk) : ofText? c.text = some c := by
  rw [ofText?, text_eq_line, Token.ofLine?_line c.tokens_ne_nil c.proper_tokens]
  exact ofTokens?_tokens c

end Chunk

/-- Every byte of an image is in one of its chunks. -/
theorem flatMap_bytes_chunks (image : List UInt8) : (chunks image).flatMap Chunk.bytes = image := by
  fun_induction chunks image with
  | case1 => rfl
  | case2 b => rfl
  | case3 high low rest ih => simp [Chunk.bytes, ih]

/-- Puts an image together from the texts of a listing. -/
def assemble? (texts : List String) : Option (List UInt8) :=
  (texts.mapM Chunk.ofText?).map (·.flatMap Chunk.bytes)

variable {α : Type} [Scalar α]

theorem map_text_lines (origin : α) (image : List UInt8) :
    (lines origin image).map Line.text = (chunks image).map Chunk.text := by
  rw [lines, List.map_map]
  conv_rhs => rw [← List.zipIdx_map_fst 0 (chunks image), List.map_map]
  rfl

theorem mapM_ofText?_text (cs : List Chunk) : (cs.map Chunk.text).mapM Chunk.ofText? = some cs := by
  induction cs with
  | nil => rfl
  | cons c cs ih =>
    rw [List.map_cons, List.mapM_cons, c.ofText?_text, ih]
    rfl

theorem assemble?_texts (origin : α) (image : List UInt8) :
    assemble? ((lines origin image).map Line.text) = some image := by
  rw [assemble?, map_text_lines, mapM_ofText?_text, Option.map_some, flatMap_bytes_chunks]

variable {β : Type} [Scalar β]

/-- The texts of a listing tell every byte of the image. -/
theorem texts_eq_iff (origin₁ : α) (origin₂ : β) (image₁ image₂ : List UInt8) :
    (lines origin₁ image₁).map Line.text = (lines origin₂ image₂).map Line.text ↔
      image₁ = image₂ := by
  constructor
  · intro h
    have hread := assemble?_texts origin₁ image₁
    rw [h, assemble?_texts] at hread
    exact (Option.some.inj hread).symm
  · rintro rfl
    rw [map_text_lines, map_text_lines]

end Chip8.Disassembly
