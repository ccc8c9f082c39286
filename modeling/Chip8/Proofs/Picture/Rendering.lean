import Chip8.Picture
import Chip8.Proofs.Number.Rounding

/-! The forms that a picture is shown in. Each has the pixel of every place, so that each of them
tells all others. -/
namespace Chip8.Picture

variable {p q : Picture} {palette : Palette} {s x y j k ox oy : ℕ} {scale : Float}

theorem isLit_iff : p.isLit x y = true ↔ p.pixels[y * p.width + x]? = some 1 :=
  beq_iff_eq

/-- The pixels inside the first picture are lit in both or in none. -/
def SameLit (p q : Picture) : Prop :=
  ∀ x < p.width, ∀ y < p.height, p.isLit x y = q.isLit x y

/-! Images. -/

/-- The colour and the opacity at a place of an image, whose rows have so many pixels. -/
def pixelAt? (image : Array UInt8) (width x y : ℕ) : Option ((UInt8 × UInt8 × UInt8) × UInt8) := do
  let start := 4 * (y * width + x)
  let red ← image[start]?
  let green ← image[start + 1]?
  let blue ← image[start + 2]?
  let opacity ← image[start + 3]?
  return ((red, green, blue), opacity)

theorem size_rgba (p : Picture) (s : ℕ) (palette : Palette) :
    (p.rgba s palette).size = 4 * (p.width * s * (p.height * s)) :=
  Array.size_ofFn

theorem getElem?_rgba (palette : Palette) (hx : ox < p.width * s) (hy : oy < p.height * s) (hk : k < 4) :
    (p.rgba s palette)[4 * (oy * (p.width * s) + ox) + k]? =
      some (channel (palette.colour (p.isLit (ox / s) (oy / s))) k) := by
  have hplace : oy * (p.width * s) + ox < p.width * s * (p.height * s) :=
    calc
      oy * (p.width * s) + ox < (oy + 1) * (p.width * s) := by rw [Nat.succ_mul]; omega
      _ ≤ p.height * s * (p.width * s) := Nat.mul_le_mul_right _ hy
      _ = p.width * s * (p.height * s) := Nat.mul_comm _ _
  have hcolumn : (oy * (p.width * s) + ox) % (p.width * s) = ox := by
    rw [Nat.mul_add_mod_self_right, Nat.mod_eq_of_lt hx]
  have hrow : (oy * (p.width * s) + ox) / (p.width * s) = oy := by
    rw [Nat.mul_comm, Nat.mul_add_div (by omega), Nat.div_eq_of_lt hx, Nat.add_zero]
  generalize oy * (p.width * s) + ox = place at hplace hcolumn hrow ⊢
  have hpixel : (4 * place + k) / 4 = place := by omega
  have hchannel : (4 * place + k) % 4 = k := by omega
  unfold rgba
  rw [Array.getElem?_ofFn, dif_pos (by omega)]
  simp only [hpixel, hchannel, hcolumn, hrow]

theorem pixelAt?_rgba (palette : Palette) (hx : ox < p.width * s) (hy : oy < p.height * s) :
    pixelAt? (p.rgba s palette) (p.width * s) ox oy =
      some (palette.colour (p.isLit (ox / s) (oy / s)), 0xff) := by
  have hread (k : ℕ) (hk : k < 4) := getElem?_rgba palette hx hy hk
  have hfirst := hread 0 (by decide)
  rw [Nat.add_zero] at hfirst
  simp only [pixelAt?, hfirst, hread 1 (by decide), hread 2 (by decide), hread 3 (by decide)]
  rfl

/-- An image of a picture, of squares with so many pixels on each side. -/
structure Coloured (p : Picture) (palette : Palette) (s : ℕ) (image : Array UInt8) : Prop where
  size : image.size = 4 * p.width * p.height * s * s
  pixel : ∀ ox < p.width * s, ∀ oy < p.height * s, pixelAt? image (p.width * s) ox oy =
    some (if p.isLit (ox / s) (oy / s) then palette.on else palette.off, 0xff)

theorem coloured_rgba (p : Picture) (palette : Palette) (s : ℕ) :
    p.Coloured palette s (p.rgba s palette) where
  size := by
    rw [size_rgba]
    ring
  pixel _ hx _ hy := pixelAt?_rgba palette hx hy

theorem colour_inj (hcolours : palette.on ≠ palette.off) {a b : Bool}
    (h : palette.colour a = palette.colour b) : a = b := by
  cases a <;> cases b <;> simp_all [Palette.colour, eq_comm]

/-- Two pictures of one size have the same image exactly if they are lit at the same places. -/
theorem rgba_eq_iff (hcolours : palette.on ≠ palette.off) (hs : 1 ≤ s) (hwidth : q.width = p.width)
    (hheight : q.height = p.height) : p.rgba s palette = q.rgba s palette ↔ p.SameLit q := by
  constructor
  · intro h x hx y hy
    have hox : x * s < p.width * s := Nat.mul_lt_mul_of_pos_right hx hs
    have hoy : y * s < p.height * s := Nat.mul_lt_mul_of_pos_right hy hs
    have hp := pixelAt?_rgba palette hox hoy
    have hq := pixelAt?_rgba (p := q) palette (hwidth ▸ hox) (hheight ▸ hoy)
    rw [h, ← hwidth, hq] at hp
    simp only [Nat.mul_div_cancel _ hs, Option.some.injEq, Prod.mk.injEq, and_true] at hp
    exact (colour_inj hcolours hp).symm
  · intro h
    unfold rgba
    rw [hwidth, hheight]
    congr 1
    funext i
    have hplace : i.val / 4 < p.width * s * (p.height * s) := by omega
    have hwide : 0 < p.width * s := Nat.pos_of_ne_zero fun hzero => by simp [hzero] at hplace
    have hcolumn : i.val / 4 % (p.width * s) / s < p.width :=
      (Nat.div_lt_iff_lt_mul hs).mpr (Nat.mod_lt _ hwide)
    have hrow : i.val / 4 / (p.width * s) / s < p.height :=
      (Nat.div_lt_iff_lt_mul hs).mpr (Nat.div_lt_of_lt_mul hplace)
    dsimp only
    rw [h _ hcolumn _ hrow]

/-! Rows of symbols. -/

/-- Rows of symbols for the pixels of a picture. A symbol may be of any length. -/
structure Spelled (p : Picture) (on off : String) (rows : List String) : Prop where
  height : rows.length = p.height
  row : ∀ y < p.height, ∃ symbols, rows[y]? = some (String.join symbols) ∧
    symbols.length = p.width ∧ ∀ x < p.width, symbols[x]? = some (if p.isLit x y then on else off)

theorem getElem?_map_range {α : Type} (f : ℕ → α) {n i : ℕ} (h : i < n) :
    ((List.range n).map f)[i]? = some (f i) := by
  rw [List.getElem?_map, List.getElem?_range h, Option.map_some]

theorem length_map_range {α : Type} (f : ℕ → α) (n : ℕ) : ((List.range n).map f).length = n := by
  rw [List.length_map, List.length_range]

theorem spelled_ascii (p : Picture) (on off : String) : p.Spelled on off (p.ascii on off) where
  height := length_map_range _ _
  row _ hy :=
    ⟨_, getElem?_map_range _ hy, length_map_range _ _, fun _ hx => getElem?_map_range _ hx⟩

/-- A row of the usual symbols. -/
def symbolRow (p : Picture) (y : ℕ) : List Char :=
  (List.range p.width).map fun x => if p.isLit x y then '#' else '.'

theorem ascii_eq (p : Picture) :
    p.ascii "#" "." = (List.range p.height).map fun y => String.ofList (p.symbolRow y) := by
  unfold ascii symbolRow
  congr 1
  funext y
  rw [← String.toList_inj, String.toList_join, String.toList_ofList, List.flatMap_map,
    List.map_eq_flatMap]
  congr 1
  funext x
  cases p.isLit x y <;> rfl

theorem map_range_inj {α : Type} {f g : ℕ → α} {n : ℕ} :
    (List.range n).map f = (List.range n).map g ↔ ∀ i < n, f i = g i := by
  rw [List.map_inj_left]
  simp only [List.mem_range]

theorem ascii_eq_iff (hwidth : q.width = p.width) (hheight : q.height = p.height) :
    p.ascii "#" "." = q.ascii "#" "." ↔ p.SameLit q := by
  rw [ascii_eq, ascii_eq, hheight, map_range_inj]
  simp only [symbolRow, hwidth, String.ofList_inj, map_range_inj]
  constructor
  · intro h x hx y hy
    have hsymbol := h y hy x hx
    cases hp : p.isLit x y <;> cases hq : q.isLit x y <;> simp_all
  · intro h y hy x hx
    rw [h x hx y hy]

/-! Rows of block characters. -/

/-- The upper and the lower pixel that a block character shows. -/
def halves? : Char → Option (Bool × Bool)
  | '█' => some (true, true)
  | '▀' => some (true, false)
  | '▄' => some (false, true)
  | ' ' => some (false, false)
  | _ => none

theorem halves?_halfBlock (top bottom : Bool) :
    halves? (halfBlock top bottom) = some (top, bottom) := by
  cases top <;> cases bottom <;> rfl

/-- Rows of block characters for the pixels of a picture, two rows of pixels in each. -/
structure Blocked (p : Picture) (rows : List String) : Prop where
  height : rows.length = (p.height + 1) / 2
  row : ∀ j < (p.height + 1) / 2, ∃ glyphs, rows[j]? = some (String.ofList glyphs) ∧
    glyphs.length = p.width ∧ ∀ x < p.width, glyphs[x]?.bind halves? =
      some (p.isLit x (2 * j), decide (2 * j + 1 < p.height) && p.isLit x (2 * j + 1))

theorem blocked_halfBlocks (p : Picture) : p.Blocked p.halfBlocks where
  height := length_map_range _ _
  row j hj := by
    refine ⟨_, getElem?_map_range _ hj, length_map_range _ _, fun x hx => ?_⟩
    rw [getElem?_map_range _ hx, Option.bind_some, halves?_halfBlock]

theorem halfBlocks_eq_iff (hwidth : q.width = p.width) (hheight : q.height = p.height) :
    p.halfBlocks = q.halfBlocks ↔ p.SameLit q := by
  unfold halfBlocks
  rw [hheight, map_range_inj]
  simp only [hwidth, String.ofList_inj, map_range_inj]
  constructor
  · intro h x hx y hy
    have hglyph := congrArg halves? (h (y / 2) (by omega) x hx)
    rw [halves?_halfBlock, halves?_halfBlock, Option.some.injEq, Prod.mk.injEq] at hglyph
    obtain ⟨htop, hbottom⟩ := hglyph
    rcases Nat.even_or_odd' y with ⟨j, rfl | rfl⟩
    · rwa [Nat.mul_div_cancel_left j two_pos] at htop
    · have hhalf : (2 * j + 1) / 2 = j := by omega
      simpa [hhalf, hy] using hbottom
  · intro h j hj x hx
    have htop : p.isLit x (2 * j) = q.isLit x (2 * j) := h x hx _ (by omega)
    have hbottom : (decide (2 * j + 1 < p.height) && p.isLit x (2 * j + 1)) =
        (decide (2 * j + 1 < p.height) && q.isLit x (2 * j + 1)) := by
      by_cases hlast : 2 * j + 1 < p.height
      · rw [h x hx _ hlast]
      · simp [hlast]
    rw [htop, hbottom]

/-! Scales. -/

theorem scaleOf_eq (hscale : Number.integer? scale = some (s : ℤ)) (hs : 1 ≤ s) :
    scaleOf scale = s := by
  have hwhole := Number.integer?_eq_some_iff.mp hscale
  unfold scaleOf
  rw [hwhole.amount.isNaN, Number.toInt_of_integer? hscale,
    Int.toNat_natCast, max_eq_right hs]
  rfl

/-- The length of a side of an image, as it is reckoned, for a side of so many pixels. -/
def sideOf (n : ℕ) (scale : Float) : Float :=
  Float.ofNat n * Number.greatest 1 (Number.truncate scale)

theorem whole_scale (hscale : Number.integer? scale = some (s : ℤ)) (hs : 1 ≤ s)
    (hs' : s < 2 ^ 52) :
    Number.Whole (Number.greatest 1 (Number.truncate scale)).toModel.unpack s := by
  have hamount := (Number.integer?_eq_some_iff.mp hscale).amount
  have hone := Number.whole_ofNat (n := 1) (by decide)
  have htruncate := hamount.truncate (by exact_mod_cast hs')
  rw [Nat.floor_natCast] at htruncate
  have hgreatest := Number.whole_greatest hone htruncate
  rwa [max_eq_right hs] at hgreatest

theorem whole_sideOf {n : ℕ} (hscale : Number.integer? scale = some (s : ℤ)) (hs : 1 ≤ s)
    (hs' : s < 2 ^ 52) (h : n * s < 2 ^ 53) :
    Number.Whole (sideOf n scale).toModel.unpack (n * s) := by
  have hn : n ≤ n * s := Nat.le_mul_of_pos_right n hs
  exact (Number.whole_ofNat (by omega)).mul (whole_scale hscale hs hs') h

theorem null_sideOf_zero (scale : Float) : Number.Null (sideOf 0 scale).toModel.unpack := by
  rw [sideOf, Number.unpack_mul, Number.unpack_zero]
  exact (Number.Null.zero _).mul_right _

/-- There is room for an image, unless it has more bytes than an array. -/
theorem scaleFailure?_eq_none (hscale : Number.integer? scale = some (s : ℤ)) (hs : 1 ≤ s)
    (hroom : 4 * p.width * p.height * s * s ≤ Failure.lengthLimit) :
    p.scaleFailure? scale = none := by
  have hlimit := Number.whole_ofNat (n := Failure.lengthLimit + 1) (by decide)
  have hfour := Number.whole_ofNat (n := 4) (by decide)
  refine if_neg (fun hle => ?_)
  change Float.ofNat (Failure.lengthLimit + 1) ≤
    sideOf p.width scale * sideOf p.height scale * 4 at hle
  by_cases hempty : p.width = 0 ∨ p.height = 0
  · -- a side may be without measure here, which a product with nothing does not make larger
    refine Number.Null.not_le ?_ hlimit (by decide) hle
    rw [Number.unpack_mul]
    refine Number.Null.mul_right ?_ _
    rw [Number.unpack_mul]
    rcases hempty with hwidth | hheight
    · rw [hwidth]
      exact (null_sideOf_zero scale).mul_right _
    · rw [hheight]
      exact Number.Null.mul_left _ (null_sideOf_zero scale)
  · obtain ⟨hwidth, hheight⟩ := not_or.mp hempty
    have hbytes : 4 * p.width * p.height * s * s = p.width * s * (p.height * s) * 4 := by ring
    rw [hbytes] at hroom
    have hfactor : 0 < p.height * s := by positivity
    have hacross : p.width * s ≤ p.width * s * (p.height * s) := Nat.le_mul_of_pos_right _ hfactor
    have hdown : p.height * s ≤ p.width * s * (p.height * s) :=
      Nat.le_mul_of_pos_left _ (by positivity)
    have hthin : s ≤ p.width * s := Nat.le_mul_of_pos_left _ (by omega)
    have hbound : Failure.lengthLimit < 2 ^ 36 := by decide
    have hwide := whole_sideOf (n := p.width) hscale hs (by omega) (by omega)
    have hhigh := whole_sideOf (n := p.height) hscale hs (by omega) (by omega)
    have hlength : Number.Whole (sideOf p.width scale * sideOf p.height scale * 4).toModel.unpack
        (p.width * s * (p.height * s) * 4) :=
      (hwide.mul hhigh (by omega)).mul hfour (by omega)
    rw [← Number.integer?_eq_some_iff] at hlimit hlength
    have hlong := (Number.le_iff_of_integer? hlimit hlength).mp hle
    omega

/-! The forms of one picture. -/

/-- Every form shows each pixel of a picture, at any scale and in any two colours, and an image is
made unless it has more bytes than an array. Pictures of one size are alike in all forms or in
none. -/
theorem shown_alike (hcolours : palette.on ≠ palette.off)
    (hscale : Number.integer? scale = some (s : ℤ)) (hs : 1 ≤ s) (p : Picture) :
    (∀ x y, p.isLit x y = true ↔ p.pixels[y * p.width + x]? = some 1) ∧
      p.Coloured palette s (p.rgba (scaleOf scale) palette) ∧
      (4 * p.width * p.height * s * s ≤ Failure.lengthLimit → p.scaleFailure? scale = none) ∧
      (∀ on off, p.Spelled on off (p.ascii on off)) ∧
      p.Blocked p.halfBlocks ∧
      ∀ q : Picture, q.width = p.width → q.height = p.height →
        (p.rgba (scaleOf scale) palette = q.rgba (scaleOf scale) palette ↔
          p.ascii "#" "." = q.ascii "#" ".") ∧
        (p.ascii "#" "." = q.ascii "#" "." ↔ p.halfBlocks = q.halfBlocks) := by
  rw [scaleOf_eq hscale hs]
  refine ⟨fun x y => isLit_iff, coloured_rgba p palette s, scaleFailure?_eq_none hscale hs,
    spelled_ascii p, blocked_halfBlocks p, fun q hwidth hheight => ⟨?_, ?_⟩⟩
  · rw [rgba_eq_iff hcolours hs hwidth hheight, ascii_eq_iff hwidth hheight]
  · rw [ascii_eq_iff hwidth hheight, halfBlocks_eq_iff hwidth hheight]

/-- Three rows of two pixels, of which the last one is missing and a value other than 1 is dark, and
the same picture with more pixels than it has places, whose last one is lit. -/
theorem shown_alike_odd :
    let p : Picture := ⟨2, 3, #[1, 0, 2, 1, 1]⟩
    let q : Picture := ⟨2, 3, #[1, 0, 0, 1, 1, 1, 1]⟩
    Palette.standard.on ≠ Palette.standard.off ∧ Number.integer? 2 = some ((2 : ℕ) : ℤ) ∧
      p.scaleFailure? 2 = none ∧ (p.rgba (scaleOf 2) .standard).size = 96 ∧
      pixelAt? (p.rgba (scaleOf 2) .standard) 4 3 2 = some ((0xff, 0xff, 0xff), 0xff) ∧
      p.ascii "#" "." = ["#.", ".#", "#."] ∧ p.halfBlocks = ["▀▄", "▀ "] ∧
      p.ascii "#" "." ≠ q.ascii "#" "." ∧ p.halfBlocks ≠ q.halfBlocks ∧
      p.rgba (scaleOf 2) .standard ≠ q.rgba (scaleOf 2) .standard := by
  intro p q
  have hcolours : Palette.standard.on ≠ Palette.standard.off := by decide
  have hscale : Number.integer? 2 = some ((2 : ℕ) : ℤ) := Number.integer?_ofNat (by decide)
  obtain ⟨_, himage, hroom, _, _, halike⟩ := shown_alike hcolours hscale (by decide) p
  obtain ⟨hrgba, hrows⟩ := halike q rfl rfl
  have hne : p.ascii "#" "." ≠ q.ascii "#" "." := by decide
  exact ⟨hcolours, hscale, hroom (by decide), himage.size, himage.pixel 3 (by decide) 2 (by decide),
    by decide, by decide, hne, hrows.not.mp hne, hrgba.not.mpr hne⟩

end Chip8.Picture
