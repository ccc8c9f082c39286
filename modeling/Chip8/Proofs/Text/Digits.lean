import Chip8.Number.Literal
import Chip8.Text.Hex
import Mathlib.Tactic

/-! Digits that are written are read back, with zeros in front and in upper case too. -/
namespace Chip8

namespace Number

variable {b d n : ℕ} {cs : List Char}

/-- A digit has the same value in every base that it is a digit of. -/
theorem digitValue?_of_lt {base : ℕ} {c : Char} (h : digitValue? base c = some d) (hd : d < b) :
    digitValue? b c = some d := by
  obtain ⟨_, hvalue⟩ := Option.ite_none_right_eq_some.mp h
  obtain rfl := Option.some.inj hvalue
  exact if_pos hd

theorem lt_of_digitValue? {c : Char} (h : digitValue? b c = some d) : d < b := by
  obtain ⟨hlt, hvalue⟩ := Option.ite_none_right_eq_some.mp h
  rwa [← Option.some.inj hvalue]

theorem digitValue?_digitChar (hd : d < 16) :
    digitValue? 16 (Nat.digitChar d) = some d ∧
      digitValue? 16 (Nat.digitChar d).toUpper = some d := by
  interval_cases d <;> decide

theorem natural?_zeros (hb : 0 < b) (k : ℕ) (cs : List Char) :
    natural? b (List.replicate k '0' ++ cs) = natural? b cs := by
  have hzero : digitValue? b '0' = some 0 := by simp [digitValue?, hb]
  induction k with
  | zero => rfl
  | succ k ih => simpa [natural?, List.replicate_succ, hzero] using ih

theorem natural?_concat (cs : List Char) (c : Char) :
    natural? b (cs ++ [c]) =
      (natural? b cs).bind fun n => (digitValue? b c).map (b * n + ·) := by
  simp [natural?]

/-- What is read as a number has nothing but digits. -/
theorem digitValue?_of_mem {c : Char} (h : natural? b cs = some n) (hc : c ∈ cs) :
    (digitValue? b c).isSome = true := by
  induction cs using List.reverseRecOn generalizing n with
  | nil => cases hc
  | append_singleton cs d ih =>
    rw [natural?_concat] at h
    obtain ⟨m, hm, hd⟩ := Option.bind_eq_some_iff.mp h
    rcases List.mem_append.mp hc with hc | hc
    · exact ih hm hc
    · obtain ⟨v, hv, _⟩ := Option.map_eq_some_iff.mp hd
      rw [List.mem_singleton.mp hc, hv]
      rfl

/-- Digits are read back through any spelling that keeps their values. -/
theorem natural?_map_toDigits {f : Char → Char} (hb : 1 < b)
    (hf : ∀ d < b, digitValue? b (f (Nat.digitChar d)) = some d) (n : ℕ) :
    natural? b ((Nat.toDigits b n).map f) = some n := by
  induction n using Nat.strong_induction_on with
  | h n ih =>
    by_cases hn : n < b
    · rw [Nat.toDigits_of_lt_base hn]
      simp [natural?, hf n hn]
    · have hle : b ≤ n := Nat.le_of_not_lt hn
      have hrest := ih (n / b) (Nat.div_lt_self (by omega) hb)
      have hlast := hf (n % b) (Nat.mod_lt n (by omega))
      rw [Nat.toDigits_of_base_le hb hle, List.map_append, List.map_singleton, natural?_concat,
        hrest, hlast]
      simp [Nat.div_add_mod]

theorem natural?_toDigits (hb : 1 < b) (hle : b ≤ 16) (n : ℕ) :
    natural? b (Nat.toDigits b n) = some n := by
  have hread := natural?_map_toDigits (f := id) hb
    (fun d hd => digitValue?_of_lt (digitValue?_digitChar (hd.trans_le hle)).1 hd) n
  rwa [List.map_id] at hread

end Number

namespace Text

variable {n width : ℕ}

theorem natural?_hex (n width : ℕ) : Number.natural? 16 (hex n width).toList = some n := by
  rw [hex, String.toList_ofList, padZeros, Number.natural?_zeros (by decide)]
  exact Number.natural?_map_toDigits (by decide)
    (fun d hd => (Number.digitValue?_digitChar hd).2) n

theorem natural?_lowerHex (n width : ℕ) :
    Number.natural? 16 (lowerHex n width).toList = some n := by
  rw [lowerHex, String.toList_ofList, padZeros, Number.natural?_zeros (by decide)]
  exact Number.natural?_toDigits (by decide) le_rfl n

theorem length_padZeros {cs : List Char} (h : cs.length ≤ width) :
    (padZeros width cs).length = width := by
  simp only [padZeros, List.length_append, List.length_replicate]
  omega

theorem length_lowerHex (hw : 0 < width) (hn : n < 16 ^ width) :
    (lowerHex n width).toList.length = width := by
  have hdigits := (Nat.length_toDigits_le_iff (by decide : 1 < 16) hw).mpr hn
  rw [lowerHex, String.toList_ofList, length_padZeros hdigits]

theorem length_hex (hw : 0 < width) (hn : n < 16 ^ width) :
    (hex n width).toList.length = width := by
  have hdigits := (Nat.length_toDigits_le_iff (by decide : 1 < 16) hw).mpr hn
  rw [hex, String.toList_ofList, length_padZeros (by rwa [List.length_map])]

end Text

end Chip8
