import Chip8.Proofs.Machine.Accesses
import Chip8.Proofs.Number.Sums

/-! A range is checked at its two ends, and at its first address for the protection. That is as good
as trying the access at each of its addresses, however long it is and wherever it begins. -/
namespace Chip8.Memory

open Number (integer?)

variable {m : Memory} {x y : Float} {a n : ℤ} {i k l : ℕ} {access : Access}

/-- A single access to the address succeeds: a byte is read, or each byte can be written. -/
def Admits (m : Memory) (x : Float) : Access → Prop
  | .read => ∃ byte, m.readByte x = .ok byte
  | .write => ∀ byte, ∃ q, m.writeByte x byte = .ok q

/-! Addresses by number. -/

theorem natural?_eq_some_iff : Scalar.natural? x = some k ↔ integer? x = some (k : ℤ) := by
  cases hx : integer? x with
  | none => simp [Scalar.natural?, hx]
  | some a =>
    cases a with
    | negSucc n => simp [Scalar.natural?, hx]
    | ofNat n => simp [Scalar.natural?, hx]

theorem offset?_eq_some_iff : offset? x = some k ↔ integer? x = some (k : ℤ) ∧ k < size := by
  unfold offset?
  rw [Option.filter_eq_some_iff, natural?_eq_some_iff, decide_eq_true_iff]

theorem locate_of_integer? (hx : integer? x = some (k : ℤ)) (hk : k < size) :
    locate x access = .ok k := by
  unfold locate
  rw [offset?_eq_some_iff.mpr ⟨hx, hk⟩]

theorem locate_of_outside (h : ∀ k < size, integer? x ≠ some (k : ℤ)) :
    locate x access = .error (.outOfBounds x access) := by
  have hnone : offset? x = none := by
    rw [Option.eq_none_iff_forall_ne_some]
    intro k hk
    obtain ⟨hx, hlt⟩ := offset?_eq_some_iff.mp hk
    exact h k hlt hx
  unfold locate
  rw [hnone]
  rfl

theorem outside_of_integer? (hx : integer? x = some a) (h : a < 0 ∨ size ≤ a) :
    ∀ k < size, integer? x ≠ some (k : ℤ) := by
  intro k hk hsome
  obtain rfl : a = k := Option.some.inj (hx.symm.trans hsome)
  omega

theorem checkWritable_of_le (x : Float) (h : programStart ≤ k) : checkWritable x k = .ok () :=
  if_neg (Nat.not_lt.mpr h)

theorem checkWritable_of_lt (x : Float) (h : k < programStart) :
    checkWritable x k = .error (.writeProtected x) :=
  if_pos h

theorem not_admits_of_outside (h : ∀ k < size, integer? x ≠ some (k : ℤ)) :
    ¬ m.Admits x access := by
  have hlocate (access : Access) : locate x access = .error (.outOfBounds x access) :=
    locate_of_outside h
  cases access with
  | read =>
    rintro ⟨byte, hread⟩
    simp [readByte, hlocate] at hread
  | write =>
    intro hall
    obtain ⟨q, hwrite⟩ := hall 0
    simp [writeByte, hlocate] at hwrite

theorem admits_iff_of_lt (hx : integer? x = some (k : ℤ)) (hk : k < size) :
    m.Admits x access ↔ (access = .write → programStart ≤ k) := by
  cases access with
  | read =>
    have hread : m.readByte x = .ok (m.get k) := by
      unfold readByte
      rw [locate_of_integer? hx hk]
      rfl
    exact iff_of_true ⟨_, hread⟩ (by simp)
  | write =>
    have hwrite (byte : UInt8) : m.writeByte x byte =
        (do checkWritable x k; return m.set k byte) := by
      unfold writeByte
      rw [locate_of_integer? hx hk]
      rfl
    simp only [Admits, hwrite, true_imp_iff]
    by_cases hlow : programStart ≤ k
    · rw [checkWritable_of_le x hlow]
      exact iff_of_true (fun byte => ⟨_, rfl⟩) hlow
    · rw [checkWritable_of_lt x (Nat.lt_of_not_le hlow)]
      refine iff_of_false ?_ hlow
      intro hall
      obtain ⟨q, hq⟩ := hall 0
      cases hq

theorem admits_iff (hx : integer? x = some a) :
    m.Admits x access ↔ 0 ≤ a ∧ a < size ∧ (access = .write → programStart ≤ a) := by
  by_cases hspace : 0 ≤ a ∧ a < size
  case pos =>
    obtain ⟨k, rfl⟩ := Int.eq_ofNat_of_zero_le hspace.1
    have hk : k < size := by exact_mod_cast hspace.2
    rw [admits_iff_of_lt hx hk, Int.ofNat_le]
    simp [hk]
  case neg =>
    refine iff_of_false ?_ fun h => hspace ⟨h.1, h.2.1⟩
    exact not_admits_of_outside (outside_of_integer? hx (by omega))

/-! The last address of a range. -/

theorem integer?_last (hx : integer? x = some (k : ℤ)) (hy : integer? y = some (l : ℤ)) (hl : 1 ≤ l)
    (h : k + l < 2 ^ 53) :
    integer? (x + y - Scalar.ofNat 1) = some ((k + l - 1 : ℕ) : ℤ) :=
  Number.integer?_sub (Number.integer?_add hx hy h) (Number.integer?_ofNat (by decide)) (by omega) h

/-- However the end of a long range is rounded, it stays outside. -/
theorem last_outside (hx : integer? x = some (k : ℤ)) (hy : integer? y = some (l : ℤ)) (hl : 1 ≤ l)
    (hk : k < size) (h : size < k + l) :
    ∀ j < size, integer? (x + y - Scalar.ofNat 1) ≠ some (j : ℤ) := by
  have hsize : size = 0x1000 := rfl
  rcases Nat.lt_or_ge l (2 ^ 13) with hshort | hlong
  · exact outside_of_integer? (integer?_last hx hy hl (by omega)) (by omega)
  · have hxa := (Number.integer?_eq_some_iff.mp hx).amount
    have hya := (Number.integer?_eq_some_iff.mp hy).amount
    have hone : Number.Amount (Float.ofNat 1).toModel.unpack (1 : ℕ) :=
      Number.amount_ofNat (by decide)
    have hsum : Number.Reaches (x + y).toModel.unpack (2 ^ (12 + 1)) :=
      Number.reaches_add hxa hya (by exact_mod_cast hlong)
    have hlast : Number.Reaches (x + y - Float.ofNat 1).toModel.unpack (2 ^ 12) :=
      hsum.sub hone (by norm_num) (by norm_num)
    intro j hj hsome
    have hle := hlast.le hsome
    norm_cast at hle
    omega

/-! Ranges. -/

theorem checkSpan_of_pos (hx : integer? x = some a) (hy : integer? y = some n) (hn : 1 ≤ n)
    (access : Access) :
    checkSpan x y access =
      if a < 0 ∨ size ≤ a then .error (.outOfBounds x access)
      else if size < a + n then .error (.outOfBounds (x + y - Scalar.ofNat 1) access)
      else if access = .write ∧ a < programStart then .error (.writeProtected x)
      else .ok () := by
  obtain ⟨l, rfl⟩ := Int.eq_ofNat_of_zero_le (Int.le_trans (by decide) hn)
  have hpositive : ¬ y ≤ Scalar.ofNat 0 :=
    (Number.le_iff_of_integer? hy (Number.integer?_ofNat (by decide))).not.mpr (by omega)
  have hends : checkSpan x y access = (do
      let k ← locate x access
      let _ ← locate (x + y - Scalar.ofNat 1) access
      if access = .write then checkWritable x k) := by
    unfold checkSpan
    rw [if_neg hpositive]
  rw [hends]
  by_cases hout : a < 0 ∨ size ≤ a
  · rw [if_pos hout, locate_of_outside (outside_of_integer? hx hout)]
    rfl
  rw [if_neg hout]
  obtain ⟨k, rfl⟩ := Int.eq_ofNat_of_zero_le (show 0 ≤ a by omega)
  have hk : k < size := by omega
  rw [locate_of_integer? hx hk, ok_bind]
  by_cases hlong : (size : ℤ) < k + l
  · rw [if_pos hlong, locate_of_outside (last_outside hx hy (by omega) hk (by omega))]
    rfl
  rw [if_neg hlong]
  have hsize : size = 0x1000 := rfl
  have hlast := integer?_last hx hy (by omega) (by omega)
  rw [locate_of_integer? hlast (by omega), ok_bind]
  cases access with
  | read => rfl
  | write =>
    by_cases hlow : k < programStart
    · rw [if_pos rfl, checkWritable_of_lt x hlow, if_pos ⟨rfl, by exact_mod_cast hlow⟩]
    · rw [if_pos rfl, checkWritable_of_le x (Nat.le_of_not_lt hlow),
        if_neg fun h => hlow (by exact_mod_cast h.2)]

/-- A row of accesses succeeds if it lies in the address space, and in program space if it
writes. -/
theorem forall_admits_iff (hx : integer? x = some a) (hn : 1 ≤ n) :
    (∀ z i, integer? z = some i → 0 ≤ i → i < n → m.Admits (x + z) access) ↔
      0 ≤ a ∧ a + n ≤ size ∧ (access = .write → programStart ≤ a) := by
  constructor
  · intro h
    have hzero : integer? (Float.ofNat 0) = some 0 := Number.integer?_ofNat (by decide)
    have hfirst := h _ 0 hzero le_rfl (by omega)
    rw [admits_iff ((Number.integer?_add_zero hzero).trans hx)] at hfirst
    obtain ⟨hnonneg, hlt, hlow⟩ := hfirst
    refine ⟨hnonneg, ?_, hlow⟩
    obtain ⟨k, rfl⟩ := Int.eq_ofNat_of_zero_le hnonneg
    by_contra hlong
    -- the first address behind the address space is one of the range
    have hgap : size - k < 2 ^ 53 := by
      have hsize : size = 0x1000 := rfl
      omega
    have hbehind := h _ _ (Number.integer?_ofNat hgap) (by omega) (by omega)
    have hsum : k + (size - k) = size := by omega
    rw [admits_iff (Number.integer?_add hx (Number.integer?_ofNat hgap) (by rw [hsum]; decide)),
      hsum] at hbehind
    omega
  · rintro ⟨hnonneg, hle, hlow⟩ z i hz hi0 hi
    obtain ⟨k, rfl⟩ := Int.eq_ofNat_of_zero_le hnonneg
    obtain ⟨j, rfl⟩ := Int.eq_ofNat_of_zero_le hi0
    have hsize : size = 0x1000 := rfl
    rw [admits_iff (Number.integer?_add hx hz (by omega))]
    refine ⟨by omega, by omega, fun hwrite => ?_⟩
    have hfirst := hlow hwrite
    omega

/-- A range of at least one address passes if each single access in it would succeed. A range that
lies in the address space and begins below program space is refused as protected, any other one as
out of bounds, with the end that is outside. The machine goes on as it was if the range passes, and
is left as it was if it does not. -/
theorem checkSpan_iff_forall_admits (m : Memory) (hx : integer? x = some a)
    (hy : integer? y = some n) (hn : 1 ≤ n) (access : Access) :
    (checkSpan x y access = .ok () ↔
      ∀ z i, integer? z = some i → 0 ≤ i → i < n → m.Admits (x + z) access) ∧
    (∀ f, checkSpan x y access = .error f →
      if 0 ≤ a ∧ a + n ≤ 0x1000 ∧ a < 0x200 then f = .writeProtected x
      else f = .outOfBounds (if 0 ≤ a ∧ a < 0x1000 then x + y - Scalar.ofNat 1 else x) access) ∧
    ∀ (q : Machine) next, q.checked y access next = next q ∨
      ∃ f, q.checked y access next = (some f, q) := by
  have hsize : (size : ℤ) = 0x1000 := rfl
  have hstart : (programStart : ℤ) = 0x200 := rfl
  refine ⟨?_, ?_, ?_⟩
  · rw [forall_admits_iff hx hn, checkSpan_of_pos hx hy hn]
    split_ifs with hout hlong hlow
    · exact iff_of_false (by simp) (by omega)
    · exact iff_of_false (by simp) (by omega)
    · refine iff_of_false (by simp) fun h => ?_
      have hfirst := h.2.2 hlow.1
      omega
    · refine iff_of_true rfl ⟨by omega, by omega, fun hwrite => ?_⟩
      exact not_lt.mp fun hlt => hlow ⟨hwrite, hlt⟩
  · intro f hf
    rw [checkSpan_of_pos hx hy hn] at hf
    split_ifs at hf with hout hlong hlow
    · obtain rfl := Except.error.inj hf
      rw [if_neg (by omega), if_neg (by omega)]
    · obtain rfl := Except.error.inj hf
      rw [if_neg (by omega), if_pos (by omega)]
    · obtain rfl := Except.error.inj hf
      rw [if_pos (by omega)]
  · intro q next
    unfold Machine.checked
    cases checkSpan (Scalar.ofNat q.index.toNat) y access with
    | ok _ => exact .inl rfl
    | error f => exact .inr ⟨f, rfl⟩

/-- Four bytes across the end of the interpreter's area. -/
theorem checkSpan_iff_forall_admits_straddling :
    checkSpan (Float.ofNat 0x1fe) (Float.ofNat 4) .write =
        .error (.writeProtected (Float.ofNat 0x1fe)) ∧
    ¬ ∀ z i, integer? z = some i → 0 ≤ i → i < 4 →
      initial.Admits (Float.ofNat 0x1fe + z) .write := by
  have hx : integer? (Float.ofNat 0x1fe) = some ((0x1fe : ℕ) : ℤ) :=
    Number.integer?_ofNat (by decide)
  have hy : integer? (Float.ofNat 4) = some ((4 : ℕ) : ℤ) := Number.integer?_ofNat (by decide)
  obtain ⟨hpasses, hfault, -⟩ := checkSpan_iff_forall_admits initial hx hy (by decide) .write
  cases h : checkSpan (Float.ofNat 0x1fe) (Float.ofNat 4) .write with
  | ok _ =>
    rw [checkSpan_of_pos hx hy (by decide)] at h
    cases h
  | error f =>
    have hprotected : f = .writeProtected (Float.ofNat 0x1fe) := hfault f h
    refine ⟨congrArg Except.error hprotected, fun hall => ?_⟩
    cases h.symm.trans (hpasses.mpr hall)

end Chip8.Memory
