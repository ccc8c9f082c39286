import Chip8.Instruction.Mnemonic
import Chip8.Proofs.Text.Digits

/-! Instructions read back from their texts, part by part. -/
namespace Chip8

/-- A part of the text of an instruction. Numbers are written with a width, counts in decimal. -/
inductive Token where
  | name (s : String)
  | register (x : ℕ)
  | number (n width : ℕ)
  | count (n : ℕ)
  deriving DecidableEq

namespace Token

def text : Token → String
  | name s => s
  | register x => Instruction.registerText x
  | number n width => "0x" ++ Instruction.operandText n width
  | count n => Scalar.text n

/-- The names of instructions and of what is no register. -/
def names : List String :=
  ["CLS", "RET", "SYS", "JP", "CALL", "SE", "SNE", "LD", "ADD", "OR", "AND", "XOR", "SUB", "SHR",
    "SUBN", "SHL", "RND", "DRW", "SKP", "SKNP", "DW", "DB", "I", "DT", "ST", "K", "F", "B", "[I]"]

/-- A part that occurs in a listing. -/
def Proper : Token → Prop
  | name s => s ∈ names
  | register x => x < 16
  | number n width => (width = 2 ∨ width = 3 ∨ width = 4) ∧ n < 16 ^ width
  | count _ => True

/-- Reads a part from its text. -/
def read? (cs : List Char) : Option Token :=
  if cs.all Char.isDigit then (Number.natural? 10 cs).map count
  else match cs with
    | 'V' :: ds => (Number.natural? 16 ds).map register
    | '0' :: 'x' :: ds => (Number.natural? 16 ds).map (number · ds.length)
    | _ => some (name (String.ofList cs))

/-- Parts in a row: a blank behind the first, and commas between the others. -/
def line : List Token → String
  | [] => ""
  | [t] => t.text
  | t :: ts => t.text ++ " " ++ ", ".intercalate (ts.map text)

/-- The pieces of a text between its blanks, without the commas. -/
def pieces (s : String) : List (List Char) :=
  (s.toList.filter (· != ',')).splitOn ' '

/-- Reads a row of parts. -/
def ofLine? (s : String) : Option (List Token) :=
  (pieces s).mapM read?

variable {n width : ℕ} {t : Token} {ts : List Token}

theorem operandText_of_lt (hn : n < 2 ^ 32) (width : ℕ) :
    Instruction.operandText n width = Text.hex n width := by
  have hword : (Scalar.toWord32 n).toNat = n := by
    simp [Scalar.toWord32, UInt32.ofInt]
    omega
  rw [Instruction.operandText, hword]

theorem text_number (h : (number n width).Proper) :
    (number n width).text = "0x" ++ Text.hex n width := by
  obtain ⟨hwidth, hn⟩ := h
  have hpow : 16 ^ width ≤ 16 ^ 4 := Nat.pow_le_pow_right (by decide) (by omega)
  rw [text, operandText_of_lt (by omega)]

theorem text_register (h : (register n).Proper) :
    (register n).text = "V" ++ Text.hex n 1 := by
  have hn : n < 16 := h
  rw [text, Instruction.registerText, operandText_of_lt (by omega)]

theorem text_count (n : ℕ) : (count n).text.toList = Nat.toDigits 10 n := by
  change (toString n).toList = _
  rw [Nat.toString_eq_ofList_toDigits, String.toList_ofList]

/-- No part has a blank or a comma in its text. -/
def Plain (cs : List Char) : Prop :=
  ' ' ∉ cs ∧ ',' ∉ cs

theorem plain_of_natural? {b : ℕ} {cs : List Char} (hb : b ≤ 36)
    (h : Number.natural? b cs = some n) : Plain cs := by
  have hnot (c : Char) (hc : Number.digitValue? 36 c = none) : c ∉ cs := by
    intro hmem
    obtain ⟨d, hd⟩ := Option.isSome_iff_exists.mp (Number.digitValue?_of_mem h hmem)
    have hlt : d < b := Number.lt_of_digitValue? hd
    rw [Number.digitValue?_of_lt hd (hlt.trans_le hb)] at hc
    cases hc
  exact ⟨hnot ' ' (by decide), hnot ',' (by decide)⟩

theorem Plain.append {cs ds : List Char} (hc : Plain cs) (hd : Plain ds) : Plain (cs ++ ds) :=
  ⟨by simp [hc.1, hd.1], by simp [hc.2, hd.2]⟩

theorem plain_text (h : t.Proper) : Plain t.text.toList := by
  cases t with
  | name s =>
    have hall : ∀ s ∈ names, ' ' ∉ s.toList ∧ ',' ∉ s.toList := by decide
    exact hall s h
  | register x =>
    rw [text_register h, String.toList_append]
    have hdigits := plain_of_natural? (by decide) (Text.natural?_hex x 1)
    exact Plain.append ⟨by decide, by decide⟩ hdigits
  | number n width =>
    rw [text_number h, String.toList_append]
    have hdigits := plain_of_natural? (by decide) (Text.natural?_hex n width)
    exact Plain.append ⟨by decide, by decide⟩ hdigits
  | count n =>
    rw [text_count]
    exact plain_of_natural? (by decide) (Number.natural?_toDigits (by decide) (by decide) n)

/-! Each part is read back from its text, and so is a row of parts. -/

theorem read?_text (h : t.Proper) : read? t.text.toList = some t := by
  cases t with
  | name s =>
    have hall : ∀ s ∈ names, read? s.toList = some (name s) := by decide
    exact hall s h
  | register x =>
    rw [text_register h, String.toList_append]
    simp [read?, Text.natural?_hex]
  | number n width =>
    have hwidth : 0 < width := by
      have := h.1
      omega
    have hlength : (Text.hex n width).toList.length = width := Text.length_hex hwidth h.2
    rw [text_number h, String.toList_append]
    simp [read?, Text.natural?_hex, hlength]
  | count n =>
    have hdigits : (Nat.toDigits 10 n).all Char.isDigit = true :=
      List.all_eq_true.mpr fun c hc => Nat.isDigit_of_mem_toDigits (by decide) le_rfl hc
    unfold read?
    rw [text_count, if_pos hdigits, Number.natural?_toDigits (by decide) (by decide)]
    rfl

theorem filter_text (h : t.Proper) : t.text.toList.filter (· != ',') = t.text.toList := by
  apply List.filter_eq_self.mpr
  intro c hc
  exact bne_iff_ne.mpr fun hcomma => (plain_text h).2 (hcomma ▸ hc)

theorem filter_intercalate (h : ∀ t ∈ ts, t.Proper) :
    (", ".intercalate (ts.map text)).toList.filter (· != ',') =
      [' '].intercalate (ts.map fun t => t.text.toList) := by
  rw [String.toList_intercalate, List.map_map]
  induction ts with
  | nil => rfl
  | cons t ts ih =>
    have ht := filter_text (h t (by simp))
    cases ts with
    | nil => simpa using ht
    | cons u us =>
      have hrest := ih fun t ht => h t (by simp [ht])
      simp only [List.map_cons, List.intercalate_cons_cons, List.filter_append, Function.comp] at *
      rw [ht, hrest]
      rfl

theorem pieces_line (hne : ts ≠ []) (h : ∀ t ∈ ts, t.Proper) :
    pieces (line ts) = ts.map fun t => t.text.toList := by
  have hfilter : (line ts).toList.filter (· != ',') =
      [' '].intercalate (ts.map fun t => t.text.toList) := by
    match ts with
    | [] => contradiction
    | [t] => simpa [line] using filter_text (h t (by simp))
    | t :: u :: us =>
      have hrest := filter_intercalate fun t (ht : t ∈ u :: us) => h t (by simp [ht])
      have hblank : " ".toList.filter (· != ',') = [' '] := rfl
      have hline : line (t :: u :: us) =
          t.text ++ " " ++ ", ".intercalate ((u :: us).map text) := rfl
      rw [hline, String.toList_append, String.toList_append, List.filter_append, List.filter_append,
        filter_text (h t (by simp)), hblank, hrest]
      simp only [List.map_cons, List.intercalate_cons_cons]
  rw [pieces, hfilter, List.splitOn_intercalate ' ']
  · intro cs hcs
    obtain ⟨t, ht, rfl⟩ := List.mem_map.mp hcs
    exact (plain_text (h t ht)).1
  · simpa using hne

theorem ofLine?_line (hne : ts ≠ []) (h : ∀ t ∈ ts, t.Proper) : ofLine? (line ts) = some ts := by
  have hread : ∀ ts : List Token, (∀ t ∈ ts, t.Proper) →
      (ts.map fun t => t.text.toList).mapM read? = some ts := by
    intro ts h
    induction ts with
    | nil => rfl
    | cons t ts ih =>
      rw [List.map_cons, List.mapM_cons, read?_text (h t (by simp)),
        ih fun t ht => h t (by simp [ht])]
      rfl
  rw [ofLine?, pieces_line hne h, hread ts h]

end Token

def ArithOp.ofMnemonic? (s : String) : Option ArithOp :=
  [copy, or, and, xor, add, sub, shiftRight, subFrom, shiftLeft].find? (·.mnemonic == s)

namespace Instruction

/-- The parts of the text of an instruction. -/
def tokens : Instruction ℕ → List Token
  | clear => [.name "CLS"]
  | ret => [.name "RET"]
  | machineCall nnn => [.name "SYS", .number nnn 3]
  | jump nnn => [.name "JP", .number nnn 3]
  | call nnn => [.name "CALL", .number nnn 3]
  | skipIfByte x nn => [.name "SE", .register x, .number nn 2]
  | skipUnlessByte x nn => [.name "SNE", .register x, .number nn 2]
  | skipIfSame x y => [.name "SE", .register x, .register y]
  | skipUnlessSame x y => [.name "SNE", .register x, .register y]
  | setByte x nn => [.name "LD", .register x, .number nn 2]
  | addByte x nn => [.name "ADD", .register x, .number nn 2]
  | arith op x y => [.name op.mnemonic, .register x, .register y]
  | setIndex nnn => [.name "LD", .name "I", .number nnn 3]
  | jumpOffset nnn => [.name "JP", .register 0, .number nnn 3]
  | random x nn => [.name "RND", .register x, .number nn 2]
  | draw x y n => [.name "DRW", .register x, .register y, .count n]
  | skipIfKey x => [.name "SKP", .register x]
  | skipUnlessKey x => [.name "SKNP", .register x]
  | readDelay x => [.name "LD", .register x, .name "DT"]
  | waitKey x => [.name "LD", .register x, .name "K"]
  | setDelay x => [.name "LD", .name "DT", .register x]
  | setSound x => [.name "LD", .name "ST", .register x]
  | addIndex x => [.name "ADD", .name "I", .register x]
  | pointGlyph x => [.name "LD", .name "F", .register x]
  | storeDecimal x => [.name "LD", .name "B", .register x]
  | store x => [.name "LD", .name "[I]", .register x]
  | load x => [.name "LD", .register x, .name "[I]"]

/-- The instruction that has these parts. The kinds of the operands tell apart what has one name. -/
def ofTokens? : List Token → Option (Instruction ℕ)
  | [.name "CLS"] => some clear
  | [.name "RET"] => some ret
  | [.name "SYS", .number nnn _] => some (machineCall nnn)
  | [.name "JP", .number nnn _] => some (jump nnn)
  | [.name "JP", .register 0, .number nnn _] => some (jumpOffset nnn)
  | [.name "CALL", .number nnn _] => some (call nnn)
  | [.name "SE", .register x, .number nn _] => some (skipIfByte x nn)
  | [.name "SNE", .register x, .number nn _] => some (skipUnlessByte x nn)
  | [.name "LD", .register x, .number nn _] => some (setByte x nn)
  | [.name "ADD", .register x, .number nn _] => some (addByte x nn)
  | [.name "RND", .register x, .number nn _] => some (random x nn)
  | [.name "SE", .register x, .register y] => some (skipIfSame x y)
  | [.name "SNE", .register x, .register y] => some (skipUnlessSame x y)
  | [.name s, .register x, .register y] => (ArithOp.ofMnemonic? s).map (arith · x y)
  | [.name "DRW", .register x, .register y, .count n] => some (draw x y n)
  | [.name "SKP", .register x] => some (skipIfKey x)
  | [.name "SKNP", .register x] => some (skipUnlessKey x)
  | [.name "LD", .name "I", .number nnn _] => some (setIndex nnn)
  | [.name "LD", .register x, .name "DT"] => some (readDelay x)
  | [.name "LD", .register x, .name "K"] => some (waitKey x)
  | [.name "LD", .register x, .name "[I]"] => some (load x)
  | [.name "LD", .name "DT", .register x] => some (setDelay x)
  | [.name "LD", .name "ST", .register x] => some (setSound x)
  | [.name "LD", .name "F", .register x] => some (pointGlyph x)
  | [.name "LD", .name "B", .register x] => some (storeDecimal x)
  | [.name "LD", .name "[I]", .register x] => some (store x)
  | [.name "ADD", .name "I", .register x] => some (addIndex x)
  | _ => none

theorem ofTokens?_tokens (i : Instruction ℕ) : ofTokens? i.tokens = some i := by
  cases i with
  | arith op x y => cases op <;> rfl
  | _ => rfl

theorem tokens_ne_nil (i : Instruction ℕ) : i.tokens ≠ [] := by
  cases i <;> simp [tokens]

theorem mnemonic_mem_names (op : ArithOp) : op.mnemonic ∈ Token.names := by
  cases op <;> decide

theorem proper_tokens {i : Instruction ℕ} (h : i.InRange) : ∀ t ∈ i.tokens, t.Proper := by
  cases i <;> simp_all [tokens, Token.Proper, InRange, mnemonic_mem_names] <;> decide

theorem text_eq_line (i : Instruction ℕ) : i.text = Token.line i.tokens := by
  have hzero : registerText 0 = "V0" := by decide
  apply String.toList_injective
  cases i <;>
    simp [text, tokens, Token.line, Token.text, byteText, addressText, hzero, String.toList_append]

end Instruction

end Chip8
