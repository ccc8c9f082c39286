import Chip8.Proofs.Keypad.History
import Chip8.Proofs.Keypad.Latch

/-! The two masks of a keypad as sets of keys, told by the calls that were made on it. -/
namespace Chip8.Keypad

/-- A call on a keypad. Keys are named by numbers, and a number may name none. -/
inductive Call where
  | setKey (x : Float) (down : Bool)
  | clearLatch
  | takeLatched
  | releaseAll

/-- What a call leaves. One that is refused changes nothing. -/
def call (p : Keypad) : Call → Keypad
  | .setKey x down =>
    match p.setKey x down with
    | .ok q => q
    | .error _ => p
  | .clearLatch => p.clearLatch
  | .takeLatched => p.takeLatched.2
  | .releaseAll => p.releaseAll

/-- The key that a call gives back. -/
def given? (p : Keypad) : Call → Option Key
  | .takeLatched => p.takeLatched.1
  | _ => none

def callAll (p : Keypad) (cs : List Call) : Keypad :=
  cs.foldl call p

/-- A call that was made, and the key that it gave back. -/
structure Entry where
  call : Call
  given? : Option Key

/-- The calls with what they gave back. -/
def entries (p : Keypad) : List Call → List Entry
  | [] => []
  | c :: cs => ⟨c, p.given? c⟩ :: (p.call c).entries cs

/-- The number is that of the key. -/
def Names (x : Float) (k : Key) : Prop :=
  Number.integer? x = some (k.val : ℤ)

/-- The key is pressed by the call. -/
def Entry.Presses (e : Entry) (k : Key) : Prop :=
  ∃ x, Names x k ∧ e.call = .setKey x true

/-- The call sets the key, one way or the other, or releases all keys. -/
def Entry.Concerns (e : Entry) (k : Key) : Prop :=
  e.call = .releaseAll ∨ ∃ x down, Names x k ∧ e.call = .setKey x down

/-- The call empties the latch. Taking a key does if there is one. -/
def Entry.Clears (e : Entry) : Prop :=
  e.call = .clearLatch ∨ e.call = .releaseAll ∨ e.given?.isSome = true

/-- The last call that set the key since all keys were released pressed it. -/
def Pressed (es : List Entry) (k : Key) : Prop :=
  Since (fun _ e => e.Presses k) (fun e => ¬ e.Concerns k) es

/-- The key was pressed when it was up, and the latch was not emptied since. -/
def Risen (es : List Entry) (k : Key) : Prop :=
  Since (fun before e => e.Presses k ∧ ¬ Pressed before k) (fun e => ¬ e.Clears) es

variable {p q : Keypad} {j k : Key} {x y : Float} {down : Bool} {es : List Entry} {e : Entry}

theorem callAll_concat (p : Keypad) (cs : List Call) (c : Call) :
    p.callAll (cs ++ [c]) = (p.callAll cs).call c := by
  simp [callAll]

theorem entries_concat (p : Keypad) (cs : List Call) (c : Call) :
    p.entries (cs ++ [c]) = p.entries cs ++ [⟨c, (p.callAll cs).given? c⟩] := by
  induction cs generalizing p with
  | nil => rfl
  | cons d cs ih =>
    have hrest := ih (p.call d)
    rw [List.cons_append, entries, hrest]
    rfl

/-! Keys by number. -/

theorem key?_eq_ok_iff : key? x = .ok k ↔ Names x k := by
  have hcast (n : ℕ) : (Int.ofNat n = (k.val : ℤ)) ↔ n = k.val := Int.ofNat_inj
  unfold key? Number.index? Names
  cases Number.integer? x with
  | none => simp
  | some a =>
    cases a with
    | negSucc n => simp
    | ofNat n =>
      by_cases hn : n < 16
      · simp only [hn, dite_true, Except.ok.injEq, Option.some.injEq, hcast, Fin.ext_iff]
      · simp only [hn, dite_false, reduceCtorEq, Option.some.injEq, hcast, false_iff]
        omega

theorem key?_of_not_names (h : ∀ k, ¬ Names x k) : key? x = .error (.invalidKey x) := by
  cases hx : Number.index? 16 x with
  | none => simp [key?, hx]
  | some k =>
    have hk : key? x = .ok k := by simp [key?, hx]
    exact absurd (key?_eq_ok_iff.mp hk) (h k)

theorem Names.eq (hj : Names x j) (hk : Names x k) : j = k := by
  have hsame : (j.val : ℤ) = k.val := Option.some.inj (hj.symm.trans hk)
  exact Fin.ext (Int.ofNat_inj.mp hsame)

theorem Names.key? (h : Names x k) : key? x = .ok k :=
  key?_eq_ok_iff.mpr h

theorem setKey_of_names (h : Names x k) (p : Keypad) (down : Bool) :
    p.setKey x down = .ok (p.set k down) := by
  simp only [setKey, h.key?]
  rfl

theorem setKey_of_not_names (h : ∀ k, ¬ Names x k) (p : Keypad) (down : Bool) :
    p.setKey x down = .error (.invalidKey x) := by
  simp only [setKey, key?_of_not_names h]
  rfl

theorem isPressed_of_names (h : Names x k) (p : Keypad) : p.isPressed x = .ok (p.isDown k) := by
  simp only [isPressed, h.key?]
  rfl

theorem isPressed_of_not_names (h : ∀ k, ¬ Names x k) (p : Keypad) :
    p.isPressed x = .error (.invalidKey x) := by
  simp only [isPressed, key?_of_not_names h]
  rfl

theorem call_setKey_of_names (h : Names x k) (p : Keypad) (down : Bool) :
    p.call (.setKey x down) = p.set k down := by
  simp only [call, setKey_of_names h]

theorem call_setKey_of_not_names (h : ∀ k, ¬ Names x k) (p : Keypad) (down : Bool) :
    p.call (.setKey x down) = p := by
  simp only [call, setKey_of_not_names h]

/-! The keys of the masks. -/

theorem isDown_set (p : Keypad) (j k : Key) (down : Bool) :
    (p.set j down).isDown k = if k = j then down else p.isDown k := by
  unfold set
  cases down <;> by_cases h : k = j <;> simp [h]

theorem latched_set :
    (p.set j down).Latched k ↔ p.Latched k ∨ k = j ∧ down = true ∧ p.isDown j = false := by
  cases down with
  | true => simpa [set] using latched_press
  | false => simpa [set] using latched_release

theorem ext_keys (hdown : ∀ k, p.isDown k = q.isDown k)
    (hlatched : ∀ k, p.Latched k ↔ q.Latched k) : p = q := by
  obtain ⟨held, latched⟩ := p
  obtain ⟨held', latched'⟩ := q
  congr 1
  · exact BitVec.eq_of_getLsbD_eq fun i hi => hdown ⟨i, hi⟩
  · exact BitVec.eq_of_getLsbD_eq fun i hi => Bool.eq_iff_iff.mpr (hlatched ⟨i, hi⟩)

/-- Two keys are set in either order. -/
theorem set_comm (h : j ≠ k) (p : Keypad) (d e : Bool) :
    (p.set j d).set k e = (p.set k e).set j d := by
  apply ext_keys
  · intro i
    simp only [isDown_set]
    split
    case isTrue hk => rw [if_neg (hk ▸ h.symm)]
    case isFalse => rfl
  · intro i
    simp only [latched_set, isDown_set, if_neg h, if_neg h.symm]
    tauto

theorem mem_pressedKeys : k ∈ p.pressedKeys ↔ p.isDown k = true := by
  simp [pressedKeys, keysOf, isDown]

theorem pressedKeys_increasing (p : Keypad) : p.pressedKeys.Pairwise (· < ·) := by
  unfold pressedKeys keysOf
  exact (List.pairwise_lt_finRange 16).filter _

/-- The lowest key of the latch is taken, and the latch is emptied; an empty one stays. -/
theorem takeLatched_cases (p : Keypad) :
    (∃ k, IsLeast {j | p.Latched j} k ∧ p.takeLatched = (some k, p.clearLatch)) ∨
      (∀ k, ¬ p.Latched k) ∧ p.takeLatched = (none, p) := by
  by_cases h : ∃ k, p.Latched k
  · obtain ⟨k, hk⟩ : ∃ k, IsLeast {j | p.Latched j} k :=
      Set.exists_min_image _ id (Set.toFinite _) h
    exact .inl ⟨k, hk, takeLatched_of_isLeast hk⟩
  · have hnone := not_exists.mp h
    exact .inr ⟨hnone, takeLatched_of_not_latched hnone⟩

/-! What each call does to the two sets. -/

theorem pressed_concat : Pressed (es ++ [e]) k ↔ e.Presses k ∨ Pressed es k ∧ ¬ e.Concerns k :=
  since_concat

theorem risen_concat :
    Risen (es ++ [e]) k ↔ e.Presses k ∧ ¬ Pressed es k ∨ Risen es k ∧ ¬ e.Clears :=
  since_concat

/-- The keys that are down and those of the latch follow from the calls. -/
structure Recorded (es : List Entry) (p : Keypad) : Prop where
  isDown_iff : ∀ k, p.isDown k = true ↔ Pressed es k
  latched_iff : ∀ k, p.Latched k ↔ Risen es k

theorem recorded_initial : Recorded [] initial := by
  constructor
  · intro k
    simp [isDown, initial, Pressed, not_since_nil]
  · intro k
    simp [Latched, initial, Risen, not_since_nil]

theorem presses_setKey (h : Names x j) (given? : Option Key) :
    (Entry.mk (.setKey x down) given?).Presses k ↔ k = j ∧ down = true := by
  constructor
  · rintro ⟨y, hy, hcall⟩
    obtain ⟨rfl, rfl⟩ : x = y ∧ down = true := by simpa using hcall
    exact ⟨hy.eq h, rfl⟩
  · rintro ⟨rfl, rfl⟩
    exact ⟨x, h, rfl⟩

theorem concerns_setKey (h : Names x j) (given? : Option Key) :
    (Entry.mk (.setKey x down) given?).Concerns k ↔ k = j := by
  constructor
  · rintro (hcall | ⟨y, d, hy, hcall⟩)
    · cases hcall
    · obtain ⟨rfl, _⟩ : x = y ∧ down = d := by simpa using hcall
      exact hy.eq h
  · rintro rfl
    exact .inr ⟨x, down, h, rfl⟩

theorem Recorded.set (h : Recorded es p) (hx : Names x j) (down : Bool) :
    Recorded (es ++ [⟨.setKey x down, none⟩]) (p.set j down) := by
  have hnot : ¬ (Entry.mk (.setKey x down) none).Clears := by simp [Entry.Clears]
  constructor
  · intro k
    rw [isDown_set, pressed_concat, presses_setKey hx, concerns_setKey hx, ← h.isDown_iff]
    by_cases hk : k = j <;> simp [hk]
  · intro k
    have hj := h.isDown_iff j
    rw [latched_set, risen_concat, presses_setKey hx, h.latched_iff]
    constructor
    · rintro (hrisen | ⟨rfl, hdown, hup⟩)
      · exact .inr ⟨hrisen, hnot⟩
      · exact .inl ⟨⟨rfl, hdown⟩, by simp [← hj, hup]⟩
    · rintro (⟨⟨rfl, hdown⟩, hup⟩ | ⟨hrisen, _⟩)
      · exact .inr ⟨rfl, hdown, by simpa [← hj] using hup⟩
      · exact .inl hrisen

/-- A call that presses no key and releases none changes the latch at most. -/
theorem Recorded.isDown_iff_of_other (h : Recorded es p) (hpress : ∀ k, ¬ e.Presses k)
    (hconcern : ∀ k, ¬ e.Concerns k) (k : Key) :
    p.isDown k = true ↔ Pressed (es ++ [e]) k := by
  simp [pressed_concat, hpress k, hconcern k, h.isDown_iff]

theorem Recorded.other (h : Recorded es p) (hpress : ∀ k, ¬ e.Presses k)
    (hconcern : ∀ k, ¬ e.Concerns k) (hclear : ¬ e.Clears) : Recorded (es ++ [e]) p := by
  refine ⟨h.isDown_iff_of_other hpress hconcern, ?_⟩
  intro k
  simp [risen_concat, hpress k, hclear, h.latched_iff]

theorem Recorded.cleared (h : Recorded es p) (hpress : ∀ k, ¬ e.Presses k)
    (hconcern : ∀ k, ¬ e.Concerns k) (hclear : e.Clears) : Recorded (es ++ [e]) p.clearLatch := by
  refine ⟨h.isDown_iff_of_other hpress hconcern, ?_⟩
  intro k
  simp [risen_concat, hpress k, hclear, not_latched_clearLatch]

theorem Recorded.call (h : Recorded es p) (c : Call) :
    Recorded (es ++ [⟨c, p.given? c⟩]) (p.call c) := by
  cases c with
  | setKey x down =>
    by_cases hx : ∃ k, Names x k
    · obtain ⟨k, hk⟩ := hx
      rw [call_setKey_of_names hk]
      exact h.set hk down
    · have hnone := not_exists.mp hx
      rw [call_setKey_of_not_names hnone]
      apply h.other
      · rintro k ⟨y, hy, hcall⟩
        obtain ⟨rfl, _⟩ : x = y ∧ down = true := by simpa using hcall
        exact hnone k hy
      · rintro k (hcall | ⟨y, d, hy, hcall⟩)
        · cases hcall
        · obtain ⟨rfl, _⟩ : x = y ∧ down = d := by simpa using hcall
          exact hnone k hy
      · simp [Entry.Clears, given?]
  | clearLatch =>
    exact h.cleared (by simp [Entry.Presses]) (by simp [Entry.Concerns]) (.inl rfl)
  | takeLatched =>
    have hpress (k : Key) : ¬ (Entry.mk .takeLatched (p.given? .takeLatched)).Presses k := by
      simp [Entry.Presses]
    have hconcern (k : Key) : ¬ (Entry.mk .takeLatched (p.given? .takeLatched)).Concerns k := by
      simp [Entry.Concerns]
    rcases takeLatched_cases p with ⟨k, _, htake⟩ | ⟨_, htake⟩
    · have hcall : p.call .takeLatched = p.clearLatch := congrArg Prod.snd htake
      rw [hcall]
      exact h.cleared hpress hconcern (by simp [Entry.Clears, given?, htake])
    · have hcall : p.call .takeLatched = p := congrArg Prod.snd htake
      rw [hcall]
      exact h.other hpress hconcern (by simp [Entry.Clears, given?, htake])
  | releaseAll =>
    constructor
    · intro k
      simp [Keypad.call, pressed_concat, Entry.Presses, Entry.Concerns, isDown, releaseAll, initial]
    · intro k
      simp [Keypad.call, risen_concat, Entry.Presses, Entry.Clears, not_latched_releaseAll]

theorem recorded_callAll (cs : List Call) :
    Recorded (initial.entries cs) (initial.callAll cs) := by
  induction cs using List.reverseRecOn with
  | nil => exact recorded_initial
  | append_singleton cs c ih =>
    rw [entries_concat, callAll_concat]
    exact ih.call c

/-- After any calls, whatever numbers were given for keys, the keys that are down are those whose
last setting since the last release of all was a press; they are listed in order, and asked for one
by one. The latch holds the keys that went down since it was last emptied. The lowest of them is
taken and the others are dropped; of an empty latch none is taken. A number that is none of a key is
refused, and nothing changes. Two keys are set in either order. -/
theorem calls_tracked (cs : List Call) :
    let p := initial.callAll cs
    let es := initial.entries cs
    p.pressedKeys.Pairwise (· < ·) ∧ (∀ k, k ∈ p.pressedKeys ↔ Pressed es k) ∧
    (∀ x k, Names x k → p.isPressed x = .ok (decide (k ∈ p.pressedKeys))) ∧
    (∀ k, p.Latched k ↔ Risen es k) ∧
    ((∃ k, IsLeast {j | p.Latched j} k ∧ p.takeLatched = (some k, { p with latched := 0 })) ∨
      (∀ k, ¬ p.Latched k) ∧ p.takeLatched = (none, p)) ∧
    (∀ x, (∀ k, ¬ Names x k) → p.isPressed x = .error (.invalidKey x) ∧
      ∀ down, p.setKey x down = .error (.invalidKey x) ∧ p.call (.setKey x down) = p) ∧
    ∀ j k, j ≠ k → ∀ x y, Names x j → Names y k → ∀ d e,
      ∃ q, (do (← p.setKey x d).setKey y e) = .ok q ∧ (do (← p.setKey y e).setKey x d) = .ok q := by
  intro p es
  have hrecorded : Recorded es p := recorded_callAll cs
  refine ⟨pressedKeys_increasing p, ?_, ?_, hrecorded.latched_iff, takeLatched_cases p, ?_, ?_⟩
  · intro k
    rw [mem_pressedKeys]
    exact hrecorded.isDown_iff k
  · intro x k hx
    simp [isPressed_of_names hx, mem_pressedKeys]
  · intro x hx
    exact ⟨isPressed_of_not_names hx p, fun down =>
      ⟨setKey_of_not_names hx p down, call_setKey_of_not_names hx p down⟩⟩
  · intro j k hne x y hx hy d e
    refine ⟨(p.set j d).set k e, ?_, ?_⟩
    · simp only [setKey_of_names hx]
      exact setKey_of_names hy (p.set j d) e
    · simp only [setKey_of_names hy]
      rw [set_comm hne]
      exact setKey_of_names hx (p.set k e) d

end Chip8.Keypad
