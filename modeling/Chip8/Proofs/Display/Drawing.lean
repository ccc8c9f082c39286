import Chip8.Proofs.Display.Marks
import Mathlib.Data.Nat.Bits

/-! What a sprite does to the screen: each pixel is flipped as often as the sprite falls on it, so
the order of drawing does not matter and what is drawn twice is gone. -/
namespace Chip8.Display

variable {d e : Display} {sprite : List UInt8} {i row column : ℕ}

/-! The bits of a sprite. -/

/-- The bit at a row and a column of a sprite is set, the highest bit of a byte leftmost. -/
def IsSet (sprite : List UInt8) (row column : ℕ) : Prop :=
  column < 8 ∧ ∃ bits, sprite[row]? = some bits ∧ bits.toNat.testBit (7 - column) = true

/-- The bits that are set, each by its row and its column. -/
def setBits (sprite : List UInt8) : List (ℕ × ℕ) :=
  sprite.zipIdx.flatMap fun (bits, row) => (litColumns bits).map (row, ·)

theorem mem_litColumns {bits : UInt8} :
    column ∈ litColumns bits ↔ column < 8 ∧ bits.toNat.testBit (7 - column) = true := by
  simp [litColumns]

theorem mem_setBits : (row, column) ∈ setBits sprite ↔ IsSet sprite row column := by
  simp only [setBits, List.mem_flatMap, List.mem_map, IsSet]
  constructor
  · rintro ⟨⟨bits, k⟩, hbits, c, hc, heq⟩
    obtain ⟨rfl, rfl⟩ := Prod.mk.inj heq
    obtain ⟨hlt, hbit⟩ := mem_litColumns.mp hc
    exact ⟨hlt, bits, List.mem_zipIdx_iff_getElem?.mp hbits, hbit⟩
  · rintro ⟨hlt, bits, hbits, hbit⟩
    exact ⟨(bits, row), List.mem_zipIdx_iff_getElem?.mpr hbits, column,
      mem_litColumns.mpr ⟨hlt, hbit⟩, rfl⟩

theorem IsSet.lt_length (h : IsSet sprite row column) : row < sprite.length := by
  obtain ⟨_, bits, hbits, _⟩ := h
  exact (List.getElem?_eq_some_iff.mp hbits).1

theorem nodup_setBits (sprite : List UInt8) : (setBits sprite).Nodup := by
  unfold setBits
  rw [List.nodup_flatMap]
  constructor
  · rintro ⟨bits, row⟩ _
    have hcolumns : (litColumns bits).Nodup := List.nodup_range.filter _
    exact hcolumns.map fun a b h => (Prod.mk.inj h).2
  · -- two rows of a sprite have different numbers
    have hrows : (sprite.zipIdx.map Prod.snd).Nodup := by
      rw [List.zipIdx_map_snd]
      exact List.nodup_range'
    refine (List.pairwise_map.mp hrows).imp ?_
    rintro ⟨_, j⟩ ⟨_, k⟩ hjk p hj hk
    obtain ⟨_, _, rfl⟩ := List.mem_map.mp hj
    obtain ⟨_, _, heq⟩ := List.mem_map.mp hk
    exact hjk (Prod.mk.inj heq).1.symm

/-- A bit can only be set in a byte that is not zero. -/
theorem exists_isSet_iff : (∃ row column, IsSet sprite row column) ↔ ∃ b ∈ sprite, b ≠ 0 := by
  constructor
  · rintro ⟨row, column, _, bits, hbits, hbit⟩
    refine ⟨bits, List.mem_of_getElem? hbits, ?_⟩
    rintro rfl
    simp at hbit
  · rintro ⟨bits, hbits, hne⟩
    obtain ⟨row, hrow⟩ := List.getElem?_of_mem hbits
    have hpos : bits.toNat ≠ 0 := fun h => hne (UInt8.toNat_inj.mp h)
    obtain ⟨k, hk⟩ := Nat.exists_testBit_of_ne_zero hpos
    have hpow : 2 ^ k < 2 ^ 8 := (Nat.ge_two_pow_of_testBit hk).trans_lt bits.toNat_lt
    have hlt : k < 8 := (Nat.pow_lt_pow_iff_right (by omega)).mp hpow
    exact ⟨row, 7 - k, by omega, bits, hrow, by rwa [show 7 - (7 - k) = k by omega]⟩

/-! Pixels, one flip after the other. -/

theorem pixels_eq_of_isLit (h : ∀ i < 2048, d.isLit i = e.isLit i) : d.pixels = e.pixels := by
  apply Vector.ext
  intro i hi
  simpa [isLit, hi] using h i hi

theorem isLit_plot (s : Display × Bool) (t : Option ℕ) (hi : i < 2048) :
    (plot s t).1.isLit i = (s.1.isLit i ^^ t == some i) := by
  cases t with
  | none => exact (Bool.xor_false _).symm
  | some j =>
    have hflip : (plot s (some j)).1.isLit i = (s.1.flip j).isLit i := rfl
    rw [hflip, isLit_flip]
    simp [hi, Bool.beq_eq_decide_eq]

/-- Each pixel is flipped as often as it is aimed at. -/
theorem isLit_foldl_plot (ts : List (Option ℕ)) (s : Display × Bool) (hi : i < 2048) :
    (ts.foldl plot s).1.isLit i = (s.1.isLit i ^^ (ts.count (some i)).bodd) := by
  induction ts generalizing s with
  | nil => simp
  | cons t ts ih =>
    rw [List.foldl_cons, ih, isLit_plot s t hi, List.count_cons, Nat.bodd_add]
    cases t == some i <;> simp

theorem dirty_foldl_plot (ts : List (Option ℕ)) (s : Display × Bool) :
    (ts.foldl plot s).1.dirty = true ↔ s.1.dirty = true ∨ ts ≠ [] := by
  induction ts generalizing s with
  | nil => simp
  | cons t ts ih => simp [ih, dirty_plot]

/-- Where no pixel is aimed at twice, the answer is about the screen as it was before. -/
theorem collided_foldl_plot {is : List ℕ} (h : is.Nodup) (s : Display × Bool) :
    ((is.map some).foldl plot s).2 = true ↔ s.2 = true ∨ ∃ i ∈ is, s.1.isLit i = true := by
  induction is generalizing s with
  | nil => simp
  | cons j is ih =>
    obtain ⟨hj, his⟩ := List.nodup_cons.mp h
    have hflip : (plot s (some j)).1.isLit = (s.1.flip j).isLit := rfl
    have hplot : (plot s (some j)).2 = (s.2 || s.1.isLit j) := rfl
    rw [List.map_cons, List.foldl_cons, ih his, hplot, hflip]
    have hother : ∀ i ∈ is, (s.1.flip j).isLit i = s.1.isLit i := by
      intro i hi
      have hne : j ≠ i := by
        rintro rfl
        exact hj hi
      simp [hne]
    constructor
    · rintro (hs | ⟨i, hi, hlit⟩)
      · rcases Bool.or_eq_true_iff.mp hs with hs | hs
        · exact .inl hs
        · exact .inr ⟨j, List.mem_cons_self, hs⟩
      · exact .inr ⟨i, List.mem_cons_of_mem j hi, (hother i hi).symm.trans hlit⟩
    · rintro (hs | ⟨i, hi, hlit⟩)
      · exact .inl (by simp [hs])
      · rcases List.mem_cons.mp hi with rfl | hi
        · exact .inl (by simp [hlit])
        · exact .inr ⟨i, hi, (hother i hi).trans hlit⟩

section Sprites

variable {α : Type} [Scalar α]

theorem targets_eq_map (x y : α) (sprite : List UInt8) :
    targets x y sprite = (setBits sprite).map fun p => target? x y p.1 p.2 := by
  simp only [targets, setBits, List.map_flatMap, List.map_map]
  rfl

theorem isLit_draw (d : Display) (x y : α) (sprite : List UInt8) (hi : i < 2048) :
    (d.draw x y sprite).1.isLit i =
      (d.isLit i ^^ ((targets x y sprite).count (some i)).bodd) :=
  isLit_foldl_plot _ _ hi

/-- The mark comes from a bit that is set, wherever it falls. -/
theorem dirty_draw (d : Display) (x y : α) (sprite : List UInt8) :
    (d.draw x y sprite).1.dirty = true ↔
      d.dirty = true ∨ ∃ row column, IsSet sprite row column := by
  have hbits : targets x y sprite ≠ [] ↔ ∃ row column, IsSet sprite row column := by
    rw [targets_eq_map, Ne, List.map_eq_nil_iff, List.eq_nil_iff_forall_not_mem]
    simp [mem_setBits]
  rw [draw, dirty_foldl_plot, hbits]

/-! Many sprites. -/

/-- A sprite, and the place where it is drawn. -/
structure Blit (α : Type) where
  x : α
  y : α
  sprite : List UInt8

def Blit.targets (b : Blit α) : List (Option ℕ) :=
  Display.targets b.x b.y b.sprite

/-- Draws one sprite after the other. -/
def drawAll (d : Display) (bs : List (Blit α)) : Display :=
  bs.foldl (fun d b => (d.draw b.x b.y b.sprite).1) d

theorem isLit_drawAll (d : Display) (bs : List (Blit α)) (hi : i < 2048) :
    (d.drawAll bs).isLit i =
      (d.isLit i ^^ ((bs.flatMap Blit.targets).count (some i)).bodd) := by
  induction bs generalizing d with
  | nil => simp [drawAll]
  | cons b bs ih =>
    have hcons : d.drawAll (b :: bs) = (d.draw b.x b.y b.sprite).1.drawAll bs := rfl
    rw [hcons, ih, isLit_draw d _ _ _ hi, List.flatMap_cons, List.count_append, Nat.bodd_add,
      Bool.xor_assoc]
    rfl

theorem pixels_drawAll_of_perm {bs cs : List (Blit α)} (h : bs.Perm cs) (d : Display) :
    (d.drawAll cs).pixels = (d.drawAll bs).pixels := by
  apply pixels_eq_of_isLit
  intro i hi
  rw [isLit_drawAll d cs hi, isLit_drawAll d bs hi, (h.flatMap_right Blit.targets).count_eq]

/-- A sprite that is drawn twice falls on each pixel an even number of times. -/
theorem pixels_drawAll_cons_cons (d : Display) (b : Blit α) (bs : List (Blit α)) :
    (d.drawAll (b :: b :: bs)).pixels = (d.drawAll bs).pixels := by
  apply pixels_eq_of_isLit
  intro i hi
  rw [isLit_drawAll d _ hi, isLit_drawAll d bs hi, List.flatMap_cons, List.flatMap_cons,
    List.count_append, List.count_append, Nat.bodd_add, Nat.bodd_add]
  cases (b.targets.count (some i)).bodd <;> simp

/-- Sprites add up: each pixel is flipped as often as they fall on it. So they may be drawn in any
order, two that are the same may be left out, and drawing a sprite again takes it away, wherever it
is and however many rows it has. -/
theorem draws_add_up (d : Display) (bs : List (Blit α)) :
    (∀ i < 2048, (d.drawAll bs).isLit i =
      (d.isLit i ^^ ((bs.flatMap Blit.targets).count (some i)).bodd)) ∧
    (∀ cs, bs.Perm cs → (d.drawAll cs).pixels = (d.drawAll bs).pixels) ∧
    (∀ before b between after, bs = before ++ b :: between ++ b :: after →
      (d.drawAll (before ++ between ++ after)).pixels = (d.drawAll bs).pixels) ∧
    ∀ b : Blit α, (d.drawAll [b, b]).pixels = d.pixels := by
  refine ⟨fun i hi => isLit_drawAll d bs hi, fun cs h => pixels_drawAll_of_perm h d, ?_, ?_⟩
  · rintro before b between after rfl
    have hfirst : (before ++ b :: between).Perm (b :: (before ++ between)) := List.perm_middle
    have hboth : (before ++ b :: between ++ b :: after).Perm
        (b :: b :: (before ++ between ++ after)) :=
      List.perm_middle.trans (.cons b (hfirst.append_right after))
    rw [← pixels_drawAll_of_perm hboth, pixels_drawAll_cons_cons]
  · intro b
    exact pixels_drawAll_cons_cons d b []

end Sprites

/-- A sprite that goes around the screen and falls on its own first row. -/
def tall : Blit ℤ :=
  ⟨-3, 5, List.replicate 33 0xff⟩

def corner : Blit ℤ :=
  ⟨60, 30, [0xf0, 0x0f, 0xff]⟩

theorem draws_add_up_tall :
    [tall, corner, tall].Perm [tall, tall, corner] ∧
      (initial.drawAll [tall, tall, corner]).pixels =
        (initial.drawAll [tall, corner, tall]).pixels ∧
      (initial.drawAll [corner]).pixels = (initial.drawAll [tall, corner, tall]).pixels := by
  have hperm : [tall, corner, tall].Perm [tall, tall, corner] := .cons tall (.swap tall corner [])
  obtain ⟨_, horder, hpair, _⟩ := draws_add_up initial [tall, corner, tall]
  exact ⟨hperm, horder _ hperm, hpair [] tall [corner] [] rfl⟩

end Chip8.Display
