import Chip8.Proofs.Number.Numeral
import Chip8.Proofs.Settings.Readings

/-! Flags over settings: which values stay, which texts change them, and what several flags come
to. -/
namespace Chip8

namespace Text

theorem trim_eq_nil_iff (s : String) : trim s.toList = [] ↔ isAllBlank s = true := by
  simp only [trim, isAllBlank, List.reverse_eq_nil_iff, List.dropWhile_eq_nil_iff,
    List.mem_reverse, List.all_eq_true]
  constructor
  · intro h
    -- the blanks in front are gone, so what is left is nothing if it is blank
    have hfront := List.dropWhile_eq_nil_iff.mpr h
    rw [List.dropWhile_idempotent] at hfront
    exact List.dropWhile_eq_nil_iff.mp hfront
  · intro h c hc
    exact h c ((List.dropWhile_sublist _).mem hc)

end Text

namespace Number

/-- A text that stands for no integer: a blank one, one that is no numeral, or one whose number is
not finite. -/
def Unreadable (s : String) : Prop :=
  Text.isAllBlank s = true ∨ ¬ Numeral (Text.trim s.toList) ∨ (ofText s).isFinite = false

theorem trunc?_eq_none_iff {x : Float} : trunc? x = none ↔ x.isFinite = false := by
  have hfinite : x.isFinite = x.toModel.unpack.isFinite := rfl
  rw [trunc?, Exact.ofFloat_eq, hfinite]
  cases x.toModel.unpack <;> simp [Exact.ofUnpacked, Exact.trunc?, Float.Model.UnpackedFloat.isFinite]

theorem unreadable_iff {s : String} :
    Unreadable s ↔ Text.isAllBlank s = true ∨ trunc? (ofText s) = none := by
  rw [Unreadable, trunc?_eq_none_iff, ← Text.trim_eq_nil_iff]
  constructor
  · rintro (hblank | hnumeral | hinfinite)
    · exact .inl hblank
    · by_cases hfinite : (ofText s).isFinite = true
      · exact .inl ((numeral_of_isFinite hfinite).resolve_right hnumeral)
      · exact .inr (Bool.eq_false_iff.mpr hfinite)
    · exact .inr hinfinite
  · rintro (hblank | hinfinite)
    · exact .inl hblank
    · exact .inr (.inr hinfinite)

end Number

namespace Setting

variable {k : Setting} {s : String} {v w : k.Value}

/-- The values that a setting may have, among those of its type. -/
def Admits : (k : Setting) → k.Value → Prop
  | budget, (n : ℕ) => 1 ≤ n ∧ n ≤ 1000
  | _, _ => True

def onWords : List String := ["1", "true", "on"]

def offWords : List String := ["0", "false", "off"]

/-- The texts that mean no value of a setting. -/
def Malformed : Setting → String → Prop
  | budget, s | traceEvery, s => Number.Unreadable s
  | mode, s => s ≠ "throw" ∧ s ≠ "record"
  | blocksMoveIndex, s | shiftsSecond, s | logicClearsFlag, s =>
    Text.keyword s ∉ onWords ∧ Text.keyword s ∉ offWords

theorem integer_of_unreadable (h : Number.Unreadable s) (n : ℤ) :
    Settings.integer (some s) n = n := by
  unfold Settings.integer
  rcases Number.unreadable_iff.mp h with hblank | hnone
  · exact if_pos hblank
  · simp [hnone]

theorem integer_of_readable (h : ¬ Number.Unreadable s) (n m : ℤ) :
    Settings.integer (some s) n = Settings.integer (some s) m := by
  rw [Number.unreadable_iff, not_or] at h
  obtain ⟨hblank, hsome⟩ := h
  obtain ⟨i, hi⟩ := Option.ne_none_iff_exists'.mp hsome
  simp [Settings.integer, hblank, hi]

theorem switch_eq (s : String) (on : Bool) :
    Settings.switch (some s) on =
      if Text.keyword s ∈ onWords then true
      else if Text.keyword s ∈ offWords then false else on := by
  simp only [Settings.switch, onWords, offWords, List.mem_cons, List.not_mem_nil, or_false]

theorem switch_of_malformed (h : Text.keyword s ∉ onWords ∧ Text.keyword s ∉ offWords) (on : Bool) :
    Settings.switch (some s) on = on := by
  rw [switch_eq, if_neg h.1, if_neg h.2]

theorem switch_of_word (h : ¬ (Text.keyword s ∉ onWords ∧ Text.keyword s ∉ offWords))
    (on off : Bool) : Settings.switch (some s) on = Settings.switch (some s) off := by
  rw [switch_eq, switch_eq]
  by_cases hon : Text.keyword s ∈ onWords
  · rw [if_pos hon, if_pos hon]
  · have hoff : Text.keyword s ∈ offWords := by_contra fun hne => h ⟨hon, hne⟩
    rw [if_neg hon, if_neg hon, if_pos hoff, if_pos hoff]

theorem mode?_of_malformed (h : s ≠ "throw" ∧ s ≠ "record") : Settings.mode? s = none := by
  rw [Settings.mode?, if_neg h.1, if_neg h.2]

theorem mode?_of_word (h : ¬ (s ≠ "throw" ∧ s ≠ "record")) : ∃ m, Settings.mode? s = some m := by
  by_cases hraise : s = "throw"
  · exact ⟨.raise, by rw [Settings.mode?, if_pos hraise]⟩
  · have hrecord : s = "record" := by_contra fun hne => h ⟨hraise, hne⟩
    exact ⟨.record, by rw [Settings.mode?, if_neg hraise, if_pos hrecord]⟩

theorem read_none (v : k.Value) : k.read none v = v := by
  cases k <;> rfl

theorem admits_read (h : k.Admits v) (raw : Option String) : k.Admits (k.read raw v) := by
  cases raw with
  | none => cases k <;> exact h
  | some s =>
    cases k with
    | budget => exact Budget.clamp_range _
    | _ => trivial

/-- A malformed text leaves a value as it is. -/
theorem read_of_malformed (h : k.Malformed s) (hv : k.Admits v) : k.read (some s) v = v := by
  cases k <;> simp only [read]
  case budget =>
    rw [integer_of_unreadable h]
    exact Budget.clamp_of_range hv
  case traceEvery =>
    rw [integer_of_unreadable h]
    rfl
  case mode =>
    rw [mode?_of_malformed h]
    rfl
  case blocksMoveIndex => exact switch_of_malformed h v
  case shiftsSecond => exact switch_of_malformed h v
  case logicClearsFlag => exact switch_of_malformed h v

/-- Any other text means one value, whatever it is laid over. -/
theorem read_of_not_malformed (h : ¬ k.Malformed s) (v w : k.Value) :
    k.read (some s) v = k.read (some s) w := by
  cases k <;> simp only [read]
  case budget => rw [integer_of_readable h]
  case traceEvery => rw [integer_of_readable h]
  case mode =>
    obtain ⟨m, hm⟩ := mode?_of_word h
    rw [hm]
    rfl
  case blocksMoveIndex => exact switch_of_word h v w
  case shiftsSecond => exact switch_of_word h v w
  case logicClearsFlag => exact switch_of_word h v w

/-- A text that is read again changes nothing more. -/
theorem read_read (hv : k.Admits v) (raw : Option String) :
    k.read raw (k.read raw v) = k.read raw v := by
  cases raw with
  | none => rw [read_none, read_none]
  | some s =>
    by_cases h : k.Malformed s
    · rw [read_of_malformed h hv, read_of_malformed h hv]
    · exact read_of_not_malformed h _ _

end Setting

namespace Settings

variable {base : Settings} {a b : Lookup}

/-- The budget is in its range. The other settings may have any value of their types. -/
def Valid (c : Settings) : Prop :=
  ∀ k : Setting, k.Admits (k.get c)

/-- No name is set in both. -/
def Lookup.Apart (a b : Lookup) : Prop :=
  ∀ name, a name = none ∨ b name = none

/-- What is set in either. -/
def Lookup.together (a b : Lookup) : Lookup :=
  fun name => (a name).or (b name)

theorem valid_standard : standard.Valid := by
  have hbudget : 1 ≤ Budget.standard ∧ Budget.standard ≤ 1000 := by decide
  intro k
  cases k with
  | budget => exact hbudget
  | _ => trivial

theorem Valid.overlay (h : base.Valid) (flags : Lookup) : (base.overlay flags).Valid := by
  intro k
  rw [Setting.get_overlay]
  exact Setting.admits_read (h k) _

theorem valid_ofEnvironment (env : Lookup) : (ofEnvironment env).Valid := by
  intro k
  rw [Setting.get_ofEnvironment]
  exact Setting.admits_read (valid_standard k) _

/-- Settings are valid whatever is set in the environment and by flags. Over valid settings, no
flags change nothing, flags that are laid twice count once, flags that share no name count alike
in two layers and in one, and a flag whose text is malformed leaves its setting as it is. -/
theorem overlay_laws :
    (∀ env flags, (ofEnvironment env).Valid ∧ ((ofEnvironment env).overlay flags).Valid) ∧
    ∀ base : Settings, base.Valid →
      base.overlay .nothing = base ∧
      (∀ a, (base.overlay a).overlay a = base.overlay a) ∧
      (∀ a b : Lookup, a.Apart b → (base.overlay a).overlay b = base.overlay (a.together b)) ∧
      ∀ (a : Lookup) (k : Setting) (s : String),
        a k.flagName = some s → k.Malformed s → k.get (base.overlay a) = k.get base := by
  refine ⟨fun env flags => ?_, fun base hbase => ⟨?_, fun a => ?_, fun a b hapart => ?_, ?_⟩⟩
  · exact ⟨valid_ofEnvironment env, (valid_ofEnvironment env).overlay flags⟩
  · refine Setting.ext_get fun k => ?_
    rw [Setting.get_overlay]
    exact Setting.read_none _
  · refine Setting.ext_get fun k => ?_
    simp only [Setting.get_overlay]
    exact Setting.read_read (hbase k) _
  · refine Setting.ext_get fun k => ?_
    simp only [Setting.get_overlay, Lookup.together]
    rcases hapart k.flagName with hnone | hnone
    · rw [hnone, Option.none_or, Setting.read_none]
    · rw [hnone, Option.or_none, Setting.read_none]
  · intro a k s hs hmalformed
    rw [Setting.get_overlay, hs]
    exact Setting.read_of_malformed hmalformed (hbase k)

/-- A budget that is no number, and a switch. -/
theorem overlay_laws_garbled :
    let a := Lookup.only "ipf" "fast"
    let b := Lookup.only "shiftVy" " ON "
    standard.Valid ∧ a.Apart b ∧ a Setting.budget.flagName = some "fast" ∧
      Setting.budget.Malformed "fast" ∧
      Setting.budget.get (standard.overlay a) = Setting.budget.get standard ∧
      (standard.overlay a).overlay b = standard.overlay (a.together b) ∧
      ((standard.overlay a).overlay b).dialect.shiftsSecond = true := by
  intro a b
  have hapart : a.Apart b := by
    intro name
    by_cases hname : name = "ipf"
    · exact .inr (if_neg (by rw [hname]; decide))
    · exact .inl (if_neg hname)
  have hmalformed : Setting.budget.Malformed "fast" := .inr (.inr (by decide))
  obtain ⟨_, _, htogether, hkept⟩ := overlay_laws.2 standard valid_standard
  exact ⟨valid_standard, hapart, rfl, hmalformed, hkept a _ _ rfl hmalformed,
    htogether a b hapart, rfl⟩

end Settings

end Chip8
