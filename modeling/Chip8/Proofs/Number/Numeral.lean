import Chip8.Proofs.Number.Double
import Chip8.Proofs.Text.Digits

/-! How numbers are written: only a numeral, or a blank text, is read as a finite number. -/
namespace Chip8.Number

variable {b m : ℕ} {e : ℤ} {c : Char} {cs ds : List Char} {x : Float} {s : String}

def AllDigits (b : ℕ) (ds : List Char) : Prop :=
  ∀ c ∈ ds, (digitValue? b c).isSome = true

/-- A sign, or none. -/
inductive SignText : List Char → Prop
  | none : SignText []
  | minus : SignText ['-']
  | plus : SignText ['+']

/-- The exponent behind a decimal, or none. -/
inductive ExponentText : List Char → Prop
  | none : ExponentText []
  | power {mark : Char} {sign ds : List Char} (hmark : mark = 'e' ∨ mark = 'E')
      (hsign : SignText sign) (hne : ds ≠ []) (hds : AllDigits 10 ds) :
      ExponentText (mark :: (sign ++ ds))

/-- A decimal without a sign, with a digit before or behind the point. -/
inductive DecimalText : List Char → Prop
  | whole {ds power : List Char} (hne : ds ≠ []) (hds : AllDigits 10 ds)
      (hpower : ExponentText power) : DecimalText (ds ++ power)
  | pointed {ds part power : List Char} (hne : ds ++ part ≠ []) (hds : AllDigits 10 ds)
      (hpart : AllDigits 10 part) (hpower : ExponentText power) :
      DecimalText (ds ++ '.' :: (part ++ power))

/-- The mark of a base, behind a zero. -/
inductive BaseMark : Char → ℕ → Prop
  | hex : BaseMark 'x' 16
  | upperHex : BaseMark 'X' 16
  | octal : BaseMark 'o' 8
  | upperOctal : BaseMark 'O' 8
  | binary : BaseMark 'b' 2
  | upperBinary : BaseMark 'B' 2

/-- A decimal with or without a sign, or the digits of an integer behind the mark of their base. -/
inductive Numeral : List Char → Prop
  | decimal {sign cs : List Char} (hsign : SignText sign) (hcs : DecimalText cs) :
      Numeral (sign ++ cs)
  | based {c : Char} {b : ℕ} {ds : List Char} (hc : BaseMark c b) (hne : ds ≠ [])
      (hds : AllDigits b ds) : Numeral ('0' :: c :: ds)

/-! What is read is written so. -/

theorem allDigits_of_natural? (h : natural? b cs = some m) : AllDigits b cs :=
  fun _ hc => digitValue?_of_mem h hc

theorem spanSign_eq (cs : List Char) : ∃ sign, SignText sign ∧ cs = sign ++ (spanSign cs).2 := by
  unfold spanSign
  split
  · exact ⟨_, .minus, rfl⟩
  · exact ⟨_, .plus, rfl⟩
  · exact ⟨_, .none, rfl⟩

theorem spanDigits_eq (cs : List Char) : cs = (spanDigits cs).1 ++ (spanDigits cs).2 :=
  List.takeWhile_append_dropWhile.symm

theorem exponentText_of_exponent? (h : exponent? cs = some e) : ExponentText cs := by
  unfold exponent? at h
  split at h
  case h_1 => exact .none
  case h_2 c cs =>
    obtain ⟨sign, hsign, hcs⟩ := spanSign_eq cs
    dsimp only at h
    split at h
    case isFalse => cases h
    case isTrue hmark =>
      obtain ⟨_, hread, _⟩ := Option.map_eq_some_iff.mp h
      obtain ⟨n, hn, _⟩ := Option.bind_eq_some_iff.mp hread
      rw [hcs]
      exact .power hmark.1 hsign (by simpa using hmark.2) (allDigits_of_natural? hn)

theorem parts_of_read {whole part rest : List Char}
    (h : (if whole.isEmpty = true ∧ part.isEmpty = true then none
      else do
        let m ← natural? 10 (whole ++ part)
        let e ← exponent? rest
        return (m, e - part.length)) = some (m, e)) :
    whole ++ part ≠ [] ∧ AllDigits 10 whole ∧ AllDigits 10 part ∧ ExponentText rest := by
  obtain ⟨hempty, h⟩ := Option.ite_none_left_eq_some.mp h
  obtain ⟨n, hdigits, h⟩ := Option.bind_eq_some_iff.mp h
  obtain ⟨k, hpower, _⟩ := Option.bind_eq_some_iff.mp h
  have hall := allDigits_of_natural? hdigits
  refine ⟨by simpa using hempty, ?_, ?_, exponentText_of_exponent? hpower⟩
  · exact fun c hc => hall c (List.mem_append_left part hc)
  · exact fun c hc => hall c (List.mem_append_right whole hc)

theorem decimalText_of_decimal? (h : decimal? cs = some (m, e)) : DecimalText cs := by
  have hcs := spanDigits_eq cs
  unfold decimal? at h
  generalize spanDigits cs = front at h hcs
  obtain ⟨whole, rest⟩ := front
  dsimp only at h hcs
  rw [hcs]
  split at h
  case h_1 r =>
    obtain ⟨hne, hwhole, hpart, hpower⟩ := parts_of_read h
    have hr := spanDigits_eq r
    rw [hr]
    exact .pointed hne hwhole hpart hpower
  case h_2 =>
    obtain ⟨hne, hwhole, _, hpower⟩ := parts_of_read h
    exact .whole (by simpa using hne) hwhole hpower

theorem decimalText_of_signed (h : (signed cs).isFinite = true) :
    ∃ sign ds, SignText sign ∧ DecimalText ds ∧ cs = sign ++ ds := by
  obtain ⟨sign, hsign, hcs⟩ := spanSign_eq cs
  refine ⟨sign, (spanSign cs).2, hsign, ?_, hcs⟩
  unfold signed at h
  generalize spanSign cs = front at h ⊢
  obtain ⟨negative, ds⟩ := front
  dsimp only at h ⊢
  by_cases hword : ds = "Infinity".toList
  · rw [if_pos hword] at h
    cases negative <;> exact absurd h (by decide)
  · rw [if_neg hword] at h
    cases hread : decimal? ds with
    | some d => exact decimalText_of_decimal? hread
    | none =>
      rw [hread] at h
      cases negative <;> exact absurd h (by decide)

theorem digits_of_based (h : (based b cs).isFinite = true) : cs ≠ [] ∧ AllDigits b cs := by
  unfold based at h
  split at h
  case isTrue => cases h
  case isFalse hne =>
    split at h
    case h_1 n hn => exact ⟨by simpa using hne, allDigits_of_natural? hn⟩
    case h_2 => cases h

theorem eq_or_of_toLower {d : Char} (h : c.toLower = d) : c = d ∨ c = Char.ofNat (d.toNat - 32) := by
  by_cases hc : c.isUpper = true
  · right
    rw [Char.toLower_eq_of_isUpper hc] at h
    have hupper : c.toNat ≤ 90 := by simp_all [Char.isUpper, UInt32.le_iff_toNat_le]
    have hd : d.toNat = c.toNat + 32 := by
      rw [← h, Char.toNat_ofNat, if_pos (.inl (by omega))]
    rw [hd, Nat.add_sub_cancel, Char.ofNat_toNat]
  · rw [Char.toLower_eq_of_not_isUpper hc] at h
    exact .inl h

theorem numeral_of_based {d : Char} {b : ℕ} (hd : BaseMark d b)
    (hupper : BaseMark (Char.ofNat (d.toNat - 32)) b) (hc : c.toLower = d)
    (h : (based b cs).isFinite = true) : Numeral ('0' :: c :: cs) := by
  obtain ⟨hne, hdigits⟩ := digits_of_based h
  rcases eq_or_of_toLower hc with rfl | rfl
  · exact .based hd hne hdigits
  · exact .based hupper hne hdigits

/-- A finite number is read off a numeral, or off nothing. -/
theorem numeral_of_isFinite (h : (ofText s).isFinite = true) :
    Text.trim s.toList = [] ∨ Numeral (Text.trim s.toList) := by
  have hsigned {ds : List Char} (hds : (signed ds).isFinite = true) : Numeral ds := by
    obtain ⟨sign, ds, hsign, hdecimal, rfl⟩ := decimalText_of_signed hds
    exact .decimal hsign hdecimal
  unfold ofText at h
  generalize Text.trim s.toList = cs at h ⊢
  split at h
  case h_1 => exact .inl rfl
  case h_2 c cs =>
    right
    split at h
    case h_1 hc => exact numeral_of_based .hex .upperHex hc h
    case h_2 hc => exact numeral_of_based .octal .upperOctal hc h
    case h_3 hc => exact numeral_of_based .binary .upperBinary hc h
    case h_4 => exact hsigned h
  case h_3 => exact .inr (hsigned h)

end Chip8.Number
