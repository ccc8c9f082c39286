import Chip8.Number.Scalar
import Chip8.Picture
import Chip8.Proofs.Text.Digits

/-! A change of a single byte changes the hash, and so the checksum and the fingerprint. -/
namespace Chip8

/-- Two sequences of one length that have different items at one position and nowhere else. -/
def OneApart {α : Type} (xs ys : Array α) : Prop :=
  xs.size = ys.size ∧ ∃! i : ℕ, xs[i]? ≠ ys[i]?

section OneApart

variable {α : Type} {xs ys : Array α} {a b : α}

/-- What is before the different items is the same on both sides, and so is what is behind them. -/
theorem OneApart.split (h : OneApart xs ys) :
    ∃ before after a b,
      xs.toList = before ++ a :: after ∧ ys.toList = before ++ b :: after ∧ a ≠ b := by
  obtain ⟨hsize, i, hne, honly⟩ := h
  have hsame (j : ℕ) (hj : j ≠ i) : xs.toList[j]? = ys.toList[j]? := by
    simp only [Array.getElem?_toList]
    by_contra hdiff
    exact hj (honly j hdiff)
  have hi : i < xs.toList.length := by
    by_contra hout
    simp only [Array.length_toList] at hout
    exact hne (by rw [Array.getElem?_eq_none (by omega), Array.getElem?_eq_none (by omega)])
  have hi' : i < ys.toList.length := by simpa [hsize] using hi
  have hbefore : ys.toList.take i = xs.toList.take i := by
    apply List.ext_getElem?
    intro j
    by_cases hj : j < i
    · simp only [List.getElem?_take, hj, if_true, hsame j (by omega)]
    · simp only [List.getElem?_take, hj, if_false]
  have hafter : ys.toList.drop (i + 1) = xs.toList.drop (i + 1) := by
    apply List.ext_getElem?
    intro j
    simp only [List.getElem?_drop, hsame (i + 1 + j) (by omega)]
  refine ⟨xs.toList.take i, xs.toList.drop (i + 1), xs.toList[i], ys.toList[i], ?_, ?_, ?_⟩
  · rw [← List.drop_eq_getElem_cons hi, List.take_append_drop]
  · rw [← hbefore, ← hafter, ← List.drop_eq_getElem_cons hi', List.take_append_drop]
  · intro heq
    apply hne
    rw [← Array.getElem?_toList, ← Array.getElem?_toList, List.getElem?_eq_getElem hi,
      List.getElem?_eq_getElem hi', heq]

theorem oneApart_append (hab : a ≠ b) (before after : Array α) :
    OneApart (before ++ #[a] ++ after) (before ++ #[b] ++ after) := by
  have hat (c : α) : (before ++ #[c] ++ after)[before.size]? = some c := by
    rw [Array.append_assoc, Array.getElem?_append_right le_rfl]
    simp
  refine ⟨by simp, before.size, ?_, ?_⟩
  · change (before ++ #[a] ++ after)[before.size]? ≠ (before ++ #[b] ++ after)[before.size]?
    rw [hat a, hat b]
    exact fun heq => hab (Option.some.inj heq)
  intro j hj
  by_contra hne
  apply hj
  rcases Nat.lt_or_gt_of_ne hne with hlt | hgt
  · rw [Array.append_assoc, Array.append_assoc, Array.getElem?_append_left hlt,
      Array.getElem?_append_left hlt]
  · have hbehind (c : α) : (before ++ #[c]).size ≤ j := by simpa using hgt
    rw [Array.getElem?_append_right (hbehind a), Array.getElem?_append_right (hbehind b)]
    simp

end OneApart

namespace Hash

/-- The prime is odd, so there is a factor that takes it back. -/
theorem mul_prime_injective : Function.Injective fun h : UInt32 => h * prime := by
  have hinverse : prime * 0x359c449b = 1 := by decide
  apply Function.LeftInverse.injective (g := fun h => h * 0x359c449b)
  intro h
  change h * prime * 0x359c449b = h
  rw [UInt32.mul_assoc, hinverse, UInt32.mul_one]

theorem absorb_left_injective (b : UInt8) : Function.Injective fun h => absorb h b := by
  intro h k heq
  exact (UInt32.xor_left_inj _).mp (mul_prime_injective heq)

theorem absorb_right_injective (h : UInt32) : Function.Injective (absorb h) := by
  intro a b heq
  exact UInt8.toUInt32_inj.mp ((UInt32.xor_right_inj _).mp (mul_prime_injective heq))

theorem foldl_absorb_injective (bytes : List UInt8) :
    Function.Injective fun seed => bytes.foldl absorb seed := by
  induction bytes with
  | nil => exact Function.injective_id
  | cons b bytes ih => exact ih.comp (absorb_left_injective b)

theorem fnv1a_seed_injective (bytes : Array UInt8) : Function.Injective (fnv1a bytes) := by
  intro h k heq
  simp only [fnv1a, ← Array.foldl_toList] at heq
  exact foldl_absorb_injective bytes.toList heq

/-- The states differ behind the different bytes, and what follows keeps them apart. -/
theorem fnv1a_ne_of_oneApart {xs ys : Array UInt8} (h : OneApart xs ys) (seed : UInt32) :
    fnv1a xs seed ≠ fnv1a ys seed := by
  obtain ⟨before, after, a, b, hxs, hys, hab⟩ := h.split
  intro heq
  simp only [fnv1a, ← Array.foldl_toList, hxs, hys, List.foldl_append, List.foldl_cons] at heq
  exact hab (absorb_right_injective _ (foldl_absorb_injective after heq))

theorem natural?_hexText (hash : UInt32) :
    Number.natural? 16 (hexText hash).toList = some hash.toNat :=
  Text.natural?_lowerHex hash.toNat 8

theorem hexText_injective : Function.Injective hexText := by
  intro h k heq
  have hread := natural?_hexText h
  rw [heq, natural?_hexText k] at hread
  exact UInt32.toNat_inj.mp (Option.some.inj hread).symm

theorem length_hexText (hash : UInt32) : (hexText hash).toList.length = 8 :=
  Text.length_lowerHex (by decide) hash.toNat_lt

end Hash

namespace Picture

open Hash

variable {p q : Picture}

theorem fingerprintText_ne_of_pixels (hwidth : p.width = q.width) (hheight : p.height = q.height)
    (h : OneApart p.pixels q.pixels) : p.fingerprintText ≠ q.fingerprintText := by
  intro heq
  have hsame : p.fingerprint = q.fingerprint := hexText_injective heq
  rw [fingerprint, fingerprint, hwidth, hheight] at hsame
  exact fnv1a_ne_of_oneApart h _ hsame

/-- The bytes of the two sides differ at one position. -/
theorem oneApart_sides (h : Xor (p.width % 256 ≠ q.width % 256) (p.height % 256 ≠ q.height % 256)) :
    OneApart #[UInt8.ofNat p.width, UInt8.ofNat p.height]
      #[UInt8.ofNat q.width, UInt8.ofNat q.height] := by
  have hbyte (m n : ℕ) : UInt8.ofNat m = UInt8.ofNat n ↔ m % 256 = n % 256 := by
    rw [← UInt8.toNat_inj, UInt8.toNat_ofNat', UInt8.toNat_ofNat']
  rcases h with ⟨hwidth, hheight⟩ | ⟨hheight, hwidth⟩
  · rw [(hbyte p.height q.height).mpr (not_not.mp hheight)]
    exact oneApart_append (mt (hbyte _ _).mp hwidth) #[] #[UInt8.ofNat q.height]
  · rw [(hbyte p.width q.width).mpr (not_not.mp hwidth)]
    exact oneApart_append (mt (hbyte _ _).mp hheight) #[UInt8.ofNat q.width] #[]

theorem fingerprintText_ne_of_size (hpixels : p.pixels = q.pixels)
    (h : Xor (p.width % 256 ≠ q.width % 256) (p.height % 256 ≠ q.height % 256)) :
    p.fingerprintText ≠ q.fingerprintText := by
  intro heq
  have hsame : p.fingerprint = q.fingerprint := hexText_injective heq
  rw [fingerprint, fingerprint, hpixels] at hsame
  exact fnv1a_ne_of_oneApart (oneApart_sides h) _ (fnv1a_seed_injective _ hsame)

end Picture

namespace Hash

/-- The bytes that numbers of any kind stand for. -/
def bytesOf {α : Type} [Scalar α] (xs : Array α) : Array UInt8 :=
  xs.map Scalar.toByte

theorem checksum_ne_of_oneApart {xs ys : Array UInt8} (h : OneApart xs ys) :
    checksum xs ≠ checksum ys := by
  intro heq
  exact fnv1a_ne_of_oneApart h offsetBasis (hexText_injective heq)

/-- Sequences whose bytes differ at one position have different hashes, from any seed, and different
checksums, which have eight digits. Pictures that differ at one pixel have different fingerprints,
and so have pictures of the same pixels one side of which differs. -/
theorem changes_detected {α : Type} [Scalar α] (seed : UInt32) :
    (∀ xs ys : Array α, OneApart (bytesOf xs) (bytesOf ys) →
      fnv1a (bytesOf xs) seed ≠ fnv1a (bytesOf ys) seed ∧
        checksum (bytesOf xs) ≠ checksum (bytesOf ys)) ∧
    (∀ xs : Array α,
      (fnv1a (bytesOf xs) seed).toNat < 2 ^ 32 ∧
        (checksum (bytesOf xs)).toList.length = 8 ∧
        Number.natural? 16 (checksum (bytesOf xs)).toList =
          some (fnv1a (bytesOf xs) offsetBasis).toNat) ∧
    (∀ p q : Picture, p.width = q.width → p.height = q.height → OneApart p.pixels q.pixels →
      p.fingerprintText ≠ q.fingerprintText) ∧
    (∀ p q : Picture, p.pixels = q.pixels →
      Xor (p.width % 256 ≠ q.width % 256) (p.height % 256 ≠ q.height % 256) →
      p.fingerprintText ≠ q.fingerprintText) ∧
    ∀ xs ys : Array α,
      fnv1a (bytesOf (xs ++ ys)) seed = fnv1a (bytesOf ys) (fnv1a (bytesOf xs) seed) := by
  refine ⟨?_, ?_, ?_, ?_, ?_⟩
  · intro xs ys h
    exact ⟨fnv1a_ne_of_oneApart h seed, checksum_ne_of_oneApart h⟩
  · intro xs
    exact ⟨UInt32.toNat_lt _, length_hexText _, natural?_hexText _⟩
  · intro p q hwidth hheight hpixels
    exact Picture.fingerprintText_ne_of_pixels hwidth hheight hpixels
  · intro p q hpixels hsize
    exact Picture.fingerprintText_ne_of_size hpixels hsize
  · intro xs ys
    simp only [bytesOf, Array.map_append, fnv1a_append]

/-- The byte in the middle is 255 on one side and zero on the other. One picture has another pixel
than the first, and one has another height and a width that is the same modulo 256. -/
theorem changes_detected_near :
    let xs : Array ℤ := #[0x61, -1, 0x63]
    let ys : Array ℤ := #[0x61, 256, 0x63]
    let p : Picture := ⟨2, 1, #[1, 0]⟩
    let q : Picture := ⟨2, 1, #[1, 1]⟩
    let u : Picture := ⟨258, 2, #[1, 0]⟩
    OneApart (bytesOf xs) (bytesOf ys) ∧ fnv1a (bytesOf xs) 7 ≠ fnv1a (bytesOf ys) 7 ∧
      checksum (bytesOf xs) ≠ checksum (bytesOf ys) ∧ OneApart p.pixels q.pixels ∧
      p.fingerprintText ≠ q.fingerprintText ∧ p.fingerprintText ≠ u.fingerprintText := by
  intro xs ys p q u
  have hxs : bytesOf xs = #[0x61] ++ #[0xff] ++ #[0x63] := by decide +kernel
  have hys : bytesOf ys = #[0x61] ++ #[0] ++ #[0x63] := by decide +kernel
  have hbytes : OneApart (bytesOf xs) (bytesOf ys) := by
    rw [hxs, hys]
    exact oneApart_append (by decide) _ _
  have hpixels : OneApart p.pixels q.pixels :=
    oneApart_append (show (0 : UInt8) ≠ 1 by decide) #[1] #[]
  obtain ⟨hhashes, _, hpixel, hside, _⟩ := changes_detected (α := ℤ) 7
  exact ⟨hbytes, (hhashes xs ys hbytes).1, (hhashes xs ys hbytes).2, hpixels,
    hpixel p q rfl rfl hpixels, hside p u rfl (.inr ⟨by decide, by decide⟩)⟩

end Hash

end Chip8
