import Chip8.Settings
import Mathlib.Tactic

/-! Each setting by itself: what it is called in the environment and among the flags, and what is
read there. -/
namespace Chip8

/-- The settings, one by one. -/
inductive Setting where
  | budget
  | traceEvery
  | mode
  | blocksMoveIndex
  | shiftsSecond
  | logicClearsFlag
  deriving DecidableEq, Repr

namespace Settings

/-- Nothing is set. -/
def Lookup.nothing : Lookup := fun _ => none

/-- One name is set to a text. -/
def Lookup.only (name text : String) : Lookup := fun n => if n = name then some text else none

theorem only_self (name text : String) : Lookup.only name text name = some text :=
  if_pos rfl

theorem ofEnvironment_nothing : ofEnvironment .nothing = standard :=
  rfl

end Settings

namespace Setting

variable {k : Setting} {s : String}

def Value : Setting → Type
  | budget | traceEvery => ℕ
  | mode => FaultMode
  | blocksMoveIndex | shiftsSecond | logicClearsFlag => Bool

instance : (k : Setting) → DecidableEq k.Value
  | budget | traceEvery => inferInstanceAs (DecidableEq ℕ)
  | mode => inferInstanceAs (DecidableEq FaultMode)
  | blocksMoveIndex | shiftsSecond | logicClearsFlag => inferInstanceAs (DecidableEq Bool)

def get : (k : Setting) → Settings → k.Value
  | budget, c => c.budget
  | traceEvery, c => c.traceEvery
  | mode, c => c.mode
  | blocksMoveIndex, c => c.dialect.blocksMoveIndex
  | shiftsSecond, c => c.dialect.shiftsSecond
  | logicClearsFlag, c => c.dialect.logicClearsFlag

/-- The name of the environment variable. -/
def variableName : Setting → String
  | budget => "CHIP8_IPF"
  | traceEvery => "CHIP8_TRACE"
  | mode => "CHIP8_ON_CPU_ERROR"
  | blocksMoveIndex => "CHIP8_QUIRK_LOAD_STORE_INC"
  | shiftsSecond => "CHIP8_QUIRK_SHIFT_VY"
  | logicClearsFlag => "CHIP8_QUIRK_LOGIC_VF"

def flagName : Setting → String
  | budget => "ipf"
  | traceEvery => "trace"
  | mode => "onCpuError"
  | blocksMoveIndex => "loadStoreInc"
  | shiftsSecond => "shiftVy"
  | logicClearsFlag => "logicVf"

/-- What a text makes of a value, which stays as it is without a text. -/
def read : (k : Setting) → Option String → k.Value → k.Value
  | budget, some s, (n : ℕ) => Budget.clamp (Settings.integer (some s) n)
  | traceEvery, some s, (n : ℕ) => (Settings.integer (some s) n).toNat
  | mode, some s, m => (Settings.mode? s).getD m
  | blocksMoveIndex, some s, on => Settings.switch (some s) on
  | shiftsSecond, some s, on => Settings.switch (some s) on
  | logicClearsFlag, some s, on => Settings.switch (some s) on
  | _, none, v => v

/-- What is read in place of a text of the environment. -/
def spelling : Setting → String → String
  | mode, s => Text.keyword s
  | _, s => s

/-- Settings are told apart one by one. -/
theorem ext_get {a b : Settings} (h : ∀ k : Setting, k.get a = k.get b) : a = b := by
  obtain ⟨budgetA, ⟨_, _, _⟩, modeA, traceA⟩ := a
  obtain ⟨budgetB, ⟨_, _, _⟩, modeB, traceB⟩ := b
  obtain rfl : budgetA = budgetB := h budget
  obtain rfl : traceA = traceB := h traceEvery
  obtain rfl : modeA = modeB := h mode
  have hblocks := h blocksMoveIndex
  have hshifts := h shiftsSecond
  have hlogic := h logicClearsFlag
  simp_all [get]

/-- A flag reaches its own setting and no other. -/
theorem get_overlay (base : Settings) (flags : Settings.Lookup) (k : Setting) :
    k.get (base.overlay flags) = k.read (flags k.flagName) (k.get base) := by
  cases k <;> simp only [get, Settings.overlay, flagName]
  case budget => cases flags "ipf" <;> rfl
  case traceEvery => cases flags "trace" <;> rfl
  case mode => cases flags "onCpuError" <;> rfl
  case blocksMoveIndex => cases flags "loadStoreInc" <;> rfl
  case shiftsSecond => cases flags "shiftVy" <;> rfl
  case logicClearsFlag => cases flags "logicVf" <;> rfl

/-- So does a variable, laid over the standard. -/
theorem get_ofEnvironment (env : Settings.Lookup) (k : Setting) :
    k.get (.ofEnvironment env) =
      k.read ((env k.variableName).map k.spelling) (k.get .standard) := by
  cases k <;> simp only [get, Settings.ofEnvironment, variableName]
  case budget => cases env "CHIP8_IPF" <;> rfl
  case traceEvery => cases env "CHIP8_TRACE" <;> rfl
  case mode => cases env "CHIP8_ON_CPU_ERROR" <;> rfl
  case blocksMoveIndex => cases env "CHIP8_QUIRK_LOAD_STORE_INC" <;> rfl
  case shiftsSecond => cases env "CHIP8_QUIRK_SHIFT_VY" <;> rfl
  case logicClearsFlag => cases env "CHIP8_QUIRK_LOGIC_VF" <;> rfl

/-! One text, in the environment or as a flag. -/

theorem get_ofEnvironment_only (k : Setting) (s : String) :
    k.get (.ofEnvironment (.only k.variableName s)) =
      k.read (some (k.spelling s)) (k.get .standard) := by
  rw [get_ofEnvironment, Settings.only_self]
  rfl

theorem get_overlay_only (base : Settings) (k : Setting) (s : String) :
    k.get (base.overlay (.only k.flagName s)) = k.read (some s) (k.get base) := by
  rw [get_overlay, Settings.only_self]

theorem spelling_of_ne (hk : k ≠ mode) (s : String) : k.spelling s = s := by
  cases k <;> first | rfl | exact absurd rfl hk

theorem mode?_eq_raise_iff (s : String) :
    (Settings.mode? s).getD .record = .raise ↔ s = "throw" := by
  unfold Settings.mode?
  split
  case isTrue h => exact iff_of_true rfl h
  case isFalse h =>
    refine iff_of_false ?_ h
    split <;> simp

theorem read_mode_eq_iff (s t : String) :
    mode.read (some s) FaultMode.record = mode.read (some t) FaultMode.record ↔
      (s = "throw" ↔ t = "throw") := by
  have htwo (a b : FaultMode) : a = b ↔ (a = .raise ↔ b = .raise) := by
    cases a <;> cases b <;> decide
  rw [← mode?_eq_raise_iff s, ← mode?_eq_raise_iff t]
  exact htwo _ _

theorem keyword_throw : Text.keyword "throw" = "throw" := by
  decide

/-- A text is read alike in the environment and as a flag, unless it is the word for raised faults
in another case or with blanks around it. A variable is taken for that word then, and a flag is
not. -/
theorem read_alike_iff (k : Setting) (s : String) :
    k.get (.ofEnvironment (.only k.variableName s)) =
        k.get ((Settings.ofEnvironment .nothing).overlay (.only k.flagName s)) ↔
      ¬ (k = mode ∧ Text.keyword s = "throw" ∧ s ≠ "throw") := by
  rw [Settings.ofEnvironment_nothing, get_ofEnvironment_only, get_overlay_only]
  by_cases hk : k = mode
  · subst hk
    refine (read_mode_eq_iff (Text.keyword s) s).trans ⟨?_, ?_⟩
    · rintro h ⟨_, hword, hne⟩
      exact hne (h.mp hword)
    · intro h
      refine ⟨fun hword => ?_, ?_⟩
      · by_contra hne
        exact h ⟨rfl, hword, hne⟩
      · rintro rfl
        exact keyword_throw
  · rw [spelling_of_ne hk]
    simp [hk]

/-- A variable takes the word with blanks around it and a capital, and a flag does not. -/
theorem not_read_alike_capital :
    mode.get (.ofEnvironment (.only "CHIP8_ON_CPU_ERROR" " Throw ")) ≠
      mode.get ((Settings.ofEnvironment .nothing).overlay (.only "onCpuError" " Throw ")) := by
  decide

end Setting

end Chip8
