import Chip8.Proofs.Display.Drawing

/-! Positions of a screen that goes on in every direction, and where drawing agrees with looking. -/
namespace Chip8.Display

variable {d : Display} {x y u v : ℤ} {sprite : List UInt8} {i row column : ℕ}

/-- The pixel at a position: the remainders of the column and of the row are never negative. -/
def cell (x y : ℤ) : ℕ :=
  (y % 32).toNat * 64 + (x % 64).toNat

theorem cell_lt (x y : ℤ) : cell x y < 2048 := by
  unfold cell
  omega

theorem cell_eq_iff : cell x y = cell u v ↔ x % 64 = u % 64 ∧ y % 32 = v % 32 := by
  unfold cell
  omega

/-- A signed remainder is a whole period short where it comes from a negative number. -/
theorem tmod_eq_or (a : ℤ) (n : ℕ) :
    ((0 ≤ a ∨ (n : ℤ) ∣ a) ∧ a.tmod n = a % n) ∨
      (¬ (0 ≤ a ∨ (n : ℤ) ∣ a) ∧ a.tmod n = a % n - n) := by
  rw [Int.tmod_eq_emod]
  by_cases h : 0 ≤ a ∨ (n : ℤ) ∣ a
  · exact .inl ⟨h, by simp [h]⟩
  · exact .inr ⟨h, by simp [h]⟩

theorem wrap_int (a : ℤ) {n : ℕ} (hn : 0 < n) : wrap a n = a % n := by
  have hrem : wrap a n = (a.tmod n + n).tmod n := rfl
  have hnonneg : 0 ≤ a.tmod n + n := by
    have := Int.lt_tmod_of_pos a (show (0 : ℤ) < n by omega)
    omega
  rw [hrem, Int.tmod_eq_emod_of_nonneg hnonneg, Int.add_emod_right]
  rcases tmod_eq_or a n with ⟨_, h⟩ | ⟨_, h⟩
  · rw [h, Int.emod_emod]
  · rw [h, Int.sub_emod_right, Int.emod_emod]

theorem isLitAt_eq (d : Display) (x y : ℤ) : d.isLitAt x y = d.isLit (cell x y) := by
  have hindex : wrap y height * Scalar.ofNat width + wrap x width = (cell x y : ℤ) := by
    rw [wrap_int y (by decide), wrap_int x (by decide)]
    change y % 32 * 64 + x % 64 = _
    unfold cell
    omega
  have hnatural : Scalar.natural? (cell x y : ℤ) = some (cell x y) := by
    simp [Scalar.natural?]
  simp only [isLitAt, hindex, hnatural]

/-! Where a bit of a sprite falls. -/

/-- Drawing gets to the position: it is not left of the screen and not above it, or it is there by
whole periods. -/
def Reached (x y : ℤ) : Prop :=
  (0 ≤ x ∨ (64 : ℤ) ∣ x) ∧ (0 ≤ y ∨ (32 : ℤ) ∣ y)

theorem target?_eq_some_iff :
    target? x y row column = some i ↔
      (i : ℤ) = (y + row).tmod 32 * 64 + (x + column).tmod 64 ∧ i < 2048 := by
  have htarget : target? x y row column =
      (Scalar.natural? ((y + row).tmod 32 * 64 + (x + column).tmod 64)).filter (· < 2048) := rfl
  rw [htarget, Option.filter_eq_some_iff]
  simp only [Scalar.natural?, decide_eq_true_eq]
  apply and_congr_left
  intro _
  split
  · rw [Option.some.injEq]
    omega
  · simp only [reduceCtorEq, false_iff]
    omega

theorem target?_of_reached (h : Reached (x + column) (y + row)) :
    target? x y row column = some (cell (x + column) (y + row)) := by
  rw [target?_eq_some_iff]
  refine ⟨?_, cell_lt _ _⟩
  rcases tmod_eq_or (x + column) 64 with ⟨_, hx⟩ | ⟨hx, _⟩
  · rcases tmod_eq_or (y + row) 32 with ⟨_, hy⟩ | ⟨hy, _⟩
    · push_cast at hx hy
      unfold cell
      rw [hx, hy]
      omega
    · exact absurd h.2 hy
  · exact absurd h.1 hx

/-- A bit that falls on a pixel falls on its own, or from the left of the screen on the one above
its own. -/
theorem reached_or_above (h : target? x y row column = some i) :
    (Reached (x + column) (y + row) ∧ i = cell (x + column) (y + row)) ∨
      (¬ (0 ≤ x + column ∨ (64 : ℤ) ∣ x + column) ∧ i + 64 = cell (x + column) (y + row)) := by
  obtain ⟨hi, _⟩ := target?_eq_some_iff.mp h
  unfold Reached cell
  rcases tmod_eq_or (x + column) 64 with ⟨hx, hx'⟩ | ⟨hx, hx'⟩ <;>
    rcases tmod_eq_or (y + row) 32 with ⟨hy, hy'⟩ | ⟨hy, hy'⟩ <;>
    push_cast at hx hy hx' hy' <;> rw [hx', hy'] at hi
  · exact .inl ⟨⟨hx, hy⟩, by omega⟩
  · omega
  · exact .inr ⟨hx, by omega⟩
  · omega

/-! Sprites that do not go around the screen. -/

/-- The pixels of the bits that are set. -/
def cells (x y : ℤ) (sprite : List UInt8) : List ℕ :=
  (setBits sprite).map fun p => cell (x + p.2) (y + p.1)

theorem mem_cells :
    i ∈ cells x y sprite ↔
      ∃ row column : ℕ, IsSet sprite row column ∧ cell (x + column) (y + row) = i := by
  simp only [cells, List.mem_map, Prod.exists, mem_setBits]

/-- Two bits of a sprite of at most 32 rows are never at one position. -/
theorem IsSet.eq_of_cell_eq {row' column' : ℕ} (h : IsSet sprite row column)
    (h' : IsSet sprite row' column') (hsize : sprite.length ≤ 32)
    (heq : cell (x + column) (y + row) = cell (x + column') (y + row')) :
    row = row' ∧ column = column' := by
  obtain ⟨hx, hy⟩ := cell_eq_iff.mp heq
  have hcolumn := h.1
  have hcolumn' := h'.1
  have hrow := h.lt_length
  have hrow' := h'.lt_length
  omega

theorem nodup_cells (x y : ℤ) (hsize : sprite.length ≤ 32) : (cells x y sprite).Nodup := by
  apply (nodup_setBits sprite).map_on
  rintro ⟨row, column⟩ hp ⟨row', column'⟩ hq heq
  obtain ⟨hrow, hcolumn⟩ :=
    (mem_setBits.mp hp).eq_of_cell_eq (mem_setBits.mp hq) hsize heq
  rw [hrow, hcolumn]

/-- Drawing gets to every bit of the sprite that is set. -/
def AllReached (x y : ℤ) (sprite : List UInt8) : Prop :=
  ∀ row column : ℕ, IsSet sprite row column → Reached (x + column) (y + row)

theorem AllReached.targets_eq (h : AllReached x y sprite) :
    targets x y sprite = (cells x y sprite).map some := by
  rw [targets_eq_map, cells, List.map_map]
  apply List.map_congr_left
  rintro ⟨row, column⟩ hp
  exact target?_of_reached (h row column (mem_setBits.mp hp))

theorem AllReached.isLit_draw (h : AllReached x y sprite) (hsize : sprite.length ≤ 32)
    (d : Display) (hi : i < 2048) :
    (d.draw x y sprite).1.isLit i = (d.isLit i ^^ decide (i ∈ cells x y sprite)) := by
  have hcount : ((cells x y sprite).map some).count (some i) = (cells x y sprite).count i :=
    List.count_map_of_injective _ some (Option.some_injective ℕ) i
  rw [Display.isLit_draw d x y sprite hi, h.targets_eq, hcount, (nodup_cells x y hsize).count]
  by_cases hmem : i ∈ cells x y sprite <;> simp [hmem]

theorem AllReached.collided_draw (h : AllReached x y sprite) (hsize : sprite.length ≤ 32)
    (d : Display) :
    (d.draw x y sprite).2 = true ↔ ∃ i ∈ cells x y sprite, d.isLit i = true := by
  rw [draw, h.targets_eq, collided_foldl_plot (nodup_cells x y hsize)]
  simp

/-! Drawing and looking. -/

/-- Drawing does on the endless screen what it is meant to do. -/
structure DrawnOnTorus (d : Display) (x y : ℤ) (sprite : List UInt8) : Prop where
  flipped : ∀ row column : ℕ, IsSet sprite row column →
    (d.draw x y sprite).1.isLitAt (x + column) (y + row) = !d.isLitAt (x + column) (y + row)
  kept : ∀ u v : ℤ,
    (∀ row column : ℕ, IsSet sprite row column →
      ¬ (u ≡ x + column [ZMOD 64] ∧ v ≡ y + row [ZMOD 32])) →
    (d.draw x y sprite).1.isLitAt u v = d.isLitAt u v
  collided : (d.draw x y sprite).2 = true ↔
    ∃ row column : ℕ, IsSet sprite row column ∧ d.isLitAt (x + column) (y + row) = true
  marked : (d.draw x y sprite).1.dirty = true ↔
    d.dirty = true ∨ ∃ row column : ℕ, IsSet sprite row column

theorem AllReached.drawnOnTorus (h : AllReached x y sprite) (hsize : sprite.length ≤ 32)
    (d : Display) : DrawnOnTorus d x y sprite where
  flipped row column hset := by
    have hmem : cell (x + column) (y + row) ∈ cells x y sprite :=
      mem_cells.mpr ⟨row, column, hset, rfl⟩
    rw [isLitAt_eq, isLitAt_eq, h.isLit_draw hsize d (cell_lt _ _), decide_eq_true hmem,
      Bool.xor_true]
  kept u v hother := by
    have hmem : cell u v ∉ cells x y sprite := by
      intro hin
      obtain ⟨row, column, hset, heq⟩ := mem_cells.mp hin
      obtain ⟨hx, hy⟩ := cell_eq_iff.mp heq
      exact hother row column hset ⟨hx.symm, hy.symm⟩
    rw [isLitAt_eq, isLitAt_eq, h.isLit_draw hsize d (cell_lt _ _), decide_eq_false hmem,
      Bool.xor_false]
  collided := by
    rw [h.collided_draw hsize d]
    constructor
    · rintro ⟨i, hi, hlit⟩
      obtain ⟨row, column, hset, rfl⟩ := mem_cells.mp hi
      exact ⟨row, column, hset, (isLitAt_eq d _ _).trans hlit⟩
    · rintro ⟨row, column, hset, hlit⟩
      exact ⟨_, mem_cells.mpr ⟨row, column, hset, rfl⟩, (isLitAt_eq d _ _).symm.trans hlit⟩
  marked := dirty_draw d x y sprite

/-- A pixel that is flipped was aimed at by some bit. -/
theorem exists_target_of_flipped (hi : i < 2048)
    (h : (d.draw x y sprite).1.isLit i = !d.isLit i) :
    ∃ row column : ℕ, IsSet sprite row column ∧ target? x y row column = some i := by
  have hcount : (targets x y sprite).count (some i) ≠ 0 := by
    intro hzero
    rw [Display.isLit_draw d x y sprite hi, hzero] at h
    simp at h
  have hmem : some i ∈ targets x y sprite := List.count_pos_iff.mp (Nat.pos_of_ne_zero hcount)
  rw [targets_eq_map] at hmem
  obtain ⟨⟨row, column⟩, hp, htarget⟩ := List.mem_map.mp hmem
  exact ⟨row, column, mem_setBits.mp hp, htarget⟩

/-- What falls from the left of the screen falls one row too high, so the lowest bit of a column
there would be missing. -/
theorem DrawnOnTorus.allReached (h : DrawnOnTorus d x y sprite) (hsize : sprite.length ≤ 32) :
    AllReached x y sprite := by
  intro row column hset
  -- from the bottom of the screen up
  induction hk : 31 - ((y + row) % 32).toNat using Nat.strong_induction_on generalizing row with
  | _ k ih =>
    have hflipped := h.flipped row column hset
    rw [isLitAt_eq, isLitAt_eq] at hflipped
    obtain ⟨row', column', hset', htarget⟩ := exists_target_of_flipped (cell_lt _ _) hflipped
    rcases reached_or_above htarget with ⟨hreached, heq⟩ | ⟨hleft, habove⟩
    · obtain ⟨rfl, rfl⟩ := hset.eq_of_cell_eq hset' hsize heq
      exact hreached
    · have hcolumn : column' = column := by
        have := hset.1
        have := hset'.1
        unfold cell at habove
        omega
      subst hcolumn
      have hlower : 31 - ((y + row') % 32).toNat < k := by
        unfold cell at habove
        omega
      exact absurd (ih _ hlower row' hset' rfl).1 hleft

/-- Looking takes both coordinates by remainders that are never negative. Drawing agrees with it
exactly if no bit that is set lies left of the screen or above it, whole periods apart. -/
theorem drawnOnTorus_iff (d : Display) (x y : ℤ) (hsize : sprite.length ≤ 32) :
    (∀ u v : ℤ, d.isLitAt u v = d.isLit ((v % 32).toNat * 64 + (u % 64).toNat)) ∧
      (DrawnOnTorus d x y sprite ↔
        ∀ row column : ℕ, IsSet sprite row column →
          (0 ≤ x + column ∨ (64 : ℤ) ∣ x + column) ∧ (0 ≤ y + row ∨ (32 : ℤ) ∣ y + row)) :=
  ⟨isLitAt_eq d, fun h => h.allReached hsize, fun h => AllReached.drawnOnTorus h hsize d⟩

/-- A sprite that begins left of the screen, with nothing in its first column, and goes on below the
screen. -/
theorem drawnOnTorus_iff_overhanging :
    [0x7f, 0x3c].length ≤ 32 ∧ DrawnOnTorus initial (-1) 31 [0x7f, 0x3c] := by
  refine ⟨by decide, ((drawnOnTorus_iff initial (-1) 31 (by decide)).2).mpr ?_⟩
  rintro row column ⟨_, bits, hbits, hbit⟩
  have hcolumn : column ≠ 0 := by
    rintro rfl
    rcases row with _ | _ | row
    · obtain rfl := Option.some.inj hbits
      exact absurd hbit (by decide)
    · obtain rfl := Option.some.inj hbits
      exact absurd hbit (by decide)
    · simp at hbits
  omega

/-- A pixel left of the screen is not drawn on the last column. -/
theorem not_drawnOnTorus_left : ¬ DrawnOnTorus initial (-1) 0 [0x80] := by
  intro h
  have hset : IsSet [0x80] 0 0 := ⟨by decide, 0x80, rfl, by decide⟩
  have hreached := (h.allReached (by decide) 0 0 hset).1
  omega

end Chip8.Display
