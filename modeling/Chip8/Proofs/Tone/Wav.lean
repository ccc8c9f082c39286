import Chip8.Proofs.Number.Whole
import Chip8.Proofs.Tone.Levels
import Chip8.Tone.Wav

/-! Sound files read back: what a file says of the samples and the rate that it was made from. -/
namespace Chip8.Wav

variable {file : Array UInt8} {samples : Array Sample} {rate x : Float} {bytes ys : List UInt8}
  {count offset i k n r : ℕ}

/-! Numbers in little-endian bytes. -/

theorem length_tag (s : String) : (tag s).length = s.length := by
  rw [tag, List.length_map, String.length_toList]

theorem length_littleEndian (count n : ℕ) : (littleEndian count n).length = count := by
  rw [littleEndian, List.length_map, List.length_range]

theorem littleEndian_succ (count n : ℕ) :
    littleEndian (count + 1) n = UInt8.ofNat n :: littleEndian count (n / 256) := by
  simp only [littleEndian, List.range_succ_eq_map, List.map_cons, List.map_map]
  congr 1
  apply List.map_congr_left
  intro i _
  simp only [Function.comp_apply, Nat.shiftRight_eq_div_pow, Nat.div_div_eq_div_mul]
  congr 2
  rw [Nat.succ_eq_add_one, Nat.mul_succ, pow_add, mul_comm]
  rfl

/-- A number that stands at an offset, whole, is read there. -/
theorem numberAt?_of_drop (h : file.toList.drop offset = littleEndian count n ++ ys)
    (hn : n < 256 ^ count) : numberAt? file count offset = some n := by
  induction count generalizing offset n with
  | zero =>
    obtain rfl : n = 0 := by omega
    rfl
  | succ count ih =>
    rw [littleEndian_succ, List.cons_append] at h
    have hlow : file[offset]? = some (UInt8.ofNat n) := by
      rw [← Array.getElem?_toList, ← List.head?_drop, h]
      rfl
    have hrest : file.toList.drop (offset + 1) = littleEndian count (n / 256) ++ ys := by
      rw [← List.tail_drop, h]
      rfl
    have hhigh : n / 256 < 256 ^ count := by
      rw [pow_succ'] at hn
      exact Nat.div_lt_of_lt_mul hn
    have hjoined : (UInt8.ofNat n).toNat + 256 * (n / 256) = n := Nat.mod_add_div n 256
    rw [numberAt?, hlow, ih hrest hhigh]
    exact congrArg some hjoined

/-- A number can be read, and fits into its bytes, where all of them are there. -/
theorem numberAt?_of_le (h : offset + count ≤ file.size) :
    ∃ n, numberAt? file count offset = some n ∧ n < 256 ^ count := by
  induction count generalizing offset with
  | zero => exact ⟨0, rfl, by simp⟩
  | succ count ih =>
    have hrest : offset + 1 + count ≤ file.size := by omega
    obtain ⟨high, hhigh, hlt⟩ := ih hrest
    have hlow : file[offset]? = some file[offset] := Array.getElem?_eq_getElem (by omega)
    have hbyte : file[offset].toNat < 256 := file[offset].toNat_lt
    refine ⟨file[offset].toNat + 256 * high, ?_, ?_⟩
    · rw [numberAt?, hlow, hhigh]
      rfl
    · rw [pow_succ']
      omega

/-- The signed number of two bytes. -/
def levelAt? (file : Array UInt8) (offset : ℕ) : Option ℤ :=
  (numberAt? file 2 offset).map fun n => (Int16.ofNat n).toInt

theorem levelAt?_of_drop {level : ℤ} (h : file.toList.drop offset = levelBytes level ++ ys)
    (hlow : -32768 ≤ level) (hhigh : level ≤ 32767) : levelAt? file offset = some level := by
  have hword : ((UInt16.ofInt level).toNat : ℤ) = level % 65536 := by
    simp [UInt16.ofInt]
    omega
  have hbytes : levelBytes level = littleEndian 2 (UInt16.ofInt level).toNat := rfl
  rw [hbytes] at h
  rw [levelAt?, numberAt?_of_drop h (UInt16.toNat_lt _), Option.map_some, Int16.toInt_ofNat',
    Int.bmod, Int16.size]
  push_cast
  rw [hword]
  congr 1
  split <;> omega

/-! The file of some samples. -/

/-- The bytes behind the header. -/
def body (samples : List Sample) : List UInt8 :=
  samples.flatMap fun s => levelBytes s.toPcm

theorem length_body (samples : List Sample) : (body samples).length = 2 * samples.length := by
  induction samples with
  | nil => rfl
  | cons s samples ih =>
    have hlevel : (levelBytes s.toPcm).length = 2 := rfl
    rw [body, List.flatMap_cons, List.length_append, hlevel, ← body, ih, List.length_cons]
    omega

theorem drop_body {samples : List Sample} {s : Sample} (h : samples[i]? = some s) :
    ∃ ys, (body samples).drop (2 * i) = levelBytes s.toPcm ++ ys := by
  induction samples generalizing i with
  | nil => cases h
  | cons t samples ih =>
    cases i with
    | zero =>
      obtain rfl := Option.some.inj h
      exact ⟨body samples, rfl⟩
    | succ i => exact ih h

theorem toList_foldl (samples : List Sample) (start : Array UInt8) :
    (samples.foldl (fun (out : Array UInt8) s => out ++ levelBytes s.toPcm) start).toList =
      start.toList ++ body samples := by
  induction samples generalizing start with
  | nil => simp [body]
  | cons s samples ih =>
    rw [List.foldl_cons, ih, body, body, List.flatMap_cons, ← List.append_assoc]
    simp

/-- The file whose header has a certain rate. -/
def fileOf (samples : Array Sample) (r : ℕ) : Array UInt8 :=
  samples.foldl (fun out s => out ++ levelBytes s.toPcm)
    (header (samples.size * bytesPerSample) (UInt32.ofNat r) (UInt32.ofNat (2 * r))).toArray

theorem toList_fileOf (samples : Array Sample) (r : ℕ) :
    (fileOf samples r).toList =
      header (samples.size * bytesPerSample) (UInt32.ofNat r) (UInt32.ofNat (2 * r)) ++
        body samples.toList := by
  rw [fileOf, ← Array.foldl_toList, toList_foldl]

theorem size_fileOf (samples : Array Sample) (r : ℕ) :
    (fileOf samples r).size = 44 + 2 * samples.size := by
  have hheader : (header (samples.size * bytesPerSample) (UInt32.ofNat r)
      (UInt32.ofNat (2 * r))).length = 44 := by
    simp only [header, List.length_append, length_tag, length_littleEndian]
    rfl
  rw [← Array.length_toList, toList_fileOf, List.length_append, hheader, length_body,
    Array.length_toList]

theorem hasHeader_fileOf (samples : Array Sample) (r : ℕ) : hasHeader (fileOf samples r) = true := by
  have hsize := size_fileOf samples r
  have hbytes := toList_fileOf samples r
  generalize fileOf samples r = file at hsize hbytes ⊢
  simp only [header, List.append_assoc] at hbytes
  have hfirst : (file.extract 0 4).toList = tag "RIFF" := by
    rw [Array.toList_extract, hbytes, List.extract_eq_take_drop]
    exact List.take_left' (length_tag _)
  have hmasked : (tag "RIFF").map (fun b => b &&& 0x7f) = tag "RIFF" := by decide
  have henough : headerBytes ≤ file.size := by
    rw [hsize]
    exact Nat.le_add_right 44 _
  unfold hasHeader
  rw [hfirst, hmasked]
  simp [henough]

/-- What the header of a file says of it. -/
structure Header (file : Array UInt8) (dataBytes rate : ℕ) : Prop where
  riffSize : numberAt? file 4 4 = some (36 + dataBytes)
  channels : numberAt? file 2 22 = some 1
  sampleRate : numberAt? file 4 24 = some rate
  byteRate : numberAt? file 4 28 = some (2 * rate)
  blockSize : numberAt? file 2 32 = some 2
  sampleBits : numberAt? file 2 34 = some 16
  dataSize : numberAt? file 4 40 = some dataBytes

theorem drop_next {field rest : List UInt8} (h : bytes.drop offset = field ++ rest)
    (hlength : field.length = k) : bytes.drop (offset + k) = rest := by
  rw [← List.drop_drop, h, ← hlength, List.drop_left]

/-- The bytes of the file from the begin of each part on. -/
theorem header_fileOf (hsize : 36 + 2 * samples.size < 2 ^ 32) (hrate : 2 * r < 2 ^ 32) :
    Header (fileOf samples r) (2 * samples.size) r ∧
      (fileOf samples r).toList.drop 44 = body samples.toList := by
  have hr : (UInt32.ofNat r).toNat = r := Nat.mod_eq_of_lt (by omega)
  have hr2 : (UInt32.ofNat (2 * r)).toNat = 2 * r := Nat.mod_eq_of_lt (by omega)
  have hdata : samples.size * bytesPerSample = 2 * samples.size := Nat.mul_comm _ _
  have h0 := toList_fileOf samples r
  generalize fileOf samples r = file at h0 ⊢
  simp only [header, List.append_assoc, hr, hr2, hdata] at h0
  have h4 := drop_next (k := 4) (List.drop_zero.trans h0) (length_tag _)
  have h8 := drop_next h4 (length_littleEndian _ _)
  have h12 := drop_next (k := 4) h8 (length_tag _)
  have h16 := drop_next (k := 4) h12 (length_tag _)
  have h20 := drop_next h16 (length_littleEndian _ _)
  have h22 := drop_next h20 (length_littleEndian _ _)
  have h24 := drop_next h22 (length_littleEndian _ _)
  have h28 := drop_next h24 (length_littleEndian _ _)
  have h32 := drop_next h28 (length_littleEndian _ _)
  have h34 := drop_next h32 (length_littleEndian _ _)
  have h36 := drop_next h34 (length_littleEndian _ _)
  have h40 := drop_next (k := 4) h36 (length_tag _)
  have h44 := drop_next h40 (length_littleEndian _ _)
  refine ⟨⟨?_, ?_, ?_, ?_, ?_, ?_, ?_⟩, h44⟩
  · exact numberAt?_of_drop h4 hsize
  · exact numberAt?_of_drop h22 (by decide)
  · exact numberAt?_of_drop h24 (by omega)
  · exact numberAt?_of_drop h28 hrate
  · exact numberAt?_of_drop h32 (by decide)
  · exact numberAt?_of_drop h34 (by decide)
  · exact numberAt?_of_drop h40 (by omega)

theorem levelAt?_fileOf {s : Sample} (hsize : 36 + 2 * samples.size < 2 ^ 32) (hrate : 2 * r < 2 ^ 32)
    (hs : samples[i]? = some s) : levelAt? (fileOf samples r) (44 + 2 * i) = some s.toPcm := by
  obtain ⟨_, hbody⟩ := header_fileOf hsize hrate
  rw [← Array.getElem?_toList] at hs
  obtain ⟨ys, hdrop⟩ := drop_body hs
  rw [← hbody, List.drop_drop] at hdrop
  obtain ⟨hlow, hhigh⟩ := s.toPcm_range
  exact levelAt?_of_drop hdrop (by omega) (by omega)

/-! Encoding, and the duration. -/

/-- A field is written if its number is below 2 ^ 32. -/
theorem field?_eq {α : Type} [Scalar α] {x : α} (hself : x ≤ x) (hlow : Scalar.ofNat 0 ≤ x)
    (hhigh : x ≤ Scalar.ofNat 4294967295 ↔ k ≤ 4294967295) (hint : Scalar.toInt x = k) :
    field? x = if k < 2 ^ 32 then some (UInt32.ofNat k) else none := by
  have hfits : x ≤ Scalar.ofNat 4294967295 ↔ k < 2 ^ 32 := hhigh.trans (by omega)
  have hword : k < 2 ^ 32 → Scalar.toWord32 x = UInt32.ofNat k := by
    intro hk
    rw [Scalar.toWord32, hint, UInt32.ofInt]
    congr 1
    omega
  unfold field?
  by_cases hk : k < 2 ^ 32
  · rw [if_neg fun h => h.2 ⟨hlow, hfits.mpr hk⟩, if_pos hk, hword hk]
  · rw [if_pos ⟨hself, fun h => hk (hfits.mp h.2)⟩, if_neg hk]

theorem field?_nat (k : ℕ) : field? (k : ℤ) = if k < 2 ^ 32 then some (UInt32.ofNat k) else none := by
  apply field?_eq (le_refl (k : ℤ))
  · exact Int.natCast_nonneg k
  · exact Int.ofNat_le
  · rfl

theorem field?_float (h : Number.integer? x = some (k : ℤ)) :
    field? x = if k < 2 ^ 32 then some (UInt32.ofNat k) else none := by
  apply field?_eq
  · exact (Number.le_iff_of_integer? h h).mpr le_rfl
  · exact (Number.le_iff_of_integer? (Number.integer?_ofNat (by decide)) h).mpr (Nat.zero_le k)
  · exact Number.le_iff_of_integer? h (Number.integer?_ofNat (by decide))
  · exact Number.toInt_of_integer? h

theorem encode?_eq (hsize : 36 + 2 * samples.size < 2 ^ 32)
    (hrate : Number.integer? rate = some (r : ℤ)) :
    encode? samples rate = if 2 * r < 2 ^ 32 then some (fileOf samples r) else none := by
  have hbytes : headerBytes - 8 + samples.size * bytesPerSample < 2 ^ 32 := by
    simp only [headerBytes, bytesPerSample]
    omega
  have hriff := field?_nat (headerBytes - 8 + samples.size * bytesPerSample)
  rw [if_pos hbytes] at hriff
  have hfirst := field?_float hrate
  unfold encode?
  dsimp only
  rw [hriff, hfirst]
  by_cases hr : r < 2 ^ 32
  · have hdouble := Number.integer?_double hrate (by omega)
    have hsecond : field? (rate * Scalar.ofNat bytesPerSample) =
        if 2 * r < 2 ^ 32 then some (UInt32.ofNat (2 * r)) else none := field?_float hdouble
    rw [if_pos hr, hsecond]
    split <;> rfl
  · rw [if_neg hr, if_neg (by omega)]
    rfl

theorem seconds?_fileOf (hsize : 36 + 2 * samples.size < 2 ^ 32) (hr : 2 * r < 2 ^ 32)
    (hrate : Number.integer? rate = some (r : ℤ)) :
    seconds? (fileOf samples r) = some (if r = 0 then 0 else Float.ofNat samples.size / rate) := by
  obtain ⟨hheader, _⟩ := header_fileOf hsize hr
  unfold seconds?
  rw [hasHeader_fileOf, hheader.byteRate, hheader.dataSize]
  by_cases h0 : r = 0
  · rw [h0]
    rfl
  · rw [if_neg h0, ← Number.ofNat_div_double (by omega) hrate (by omega) h0]
    have h2 : 2 * r ≠ 0 := by omega
    simp [h2]

theorem seconds?_bounded (file : Array UInt8) :
    ∃ x, seconds? file = some x ∧ x.isFinite = true ∧ 0 ≤ x := by
  have hzero : (0 : Float).isFinite = true ∧ (0 : Float) ≤ 0 :=
    Number.isFinite_and_nonneg (Number.unpack_zero ▸ rfl)
  unfold seconds?
  cases hheader : hasHeader file with
  | false => exact ⟨0, rfl, hzero⟩
  | true =>
    have hsize : 44 ≤ file.size := by
      have henough := (Bool.and_eq_true_iff.mp hheader).1
      exact of_decide_eq_true henough
    obtain ⟨byteRate, hrate, hrate'⟩ := numberAt?_of_le (show 28 + 4 ≤ file.size by omega)
    obtain ⟨dataBytes, hdata, hdata'⟩ := numberAt?_of_le (show 40 + 4 ≤ file.size by omega)
    rw [hrate, hdata]
    by_cases h0 : byteRate = 0
    · rw [h0]
      exact ⟨0, rfl, hzero⟩
    · refine ⟨Float.ofNat dataBytes / Float.ofNat byteRate, by simp [h0], ?_⟩
      exact Number.isFinite_and_nonneg (Number.bounded_div (by omega) (by omega) h0)

/-- Whatever the bytes are, none that is read is missing. -/
theorem seconds_bounded (file : Array UInt8) :
    seconds? file = some (seconds file) ∧ (seconds file).isFinite = true ∧ 0 ≤ seconds file := by
  obtain ⟨x, hx, hbounded⟩ := seconds?_bounded file
  have hseconds : seconds file = x := by rw [seconds, hx, Option.getD_some]
  rw [hseconds]
  exact ⟨hx, hbounded⟩

/-- A file is made unless a header field does not fit. It then has a header and two bytes for each
sample, its header says how it was made, its duration is the number of samples over the rate, and its
words are the levels of the samples: full volume times the sample between -1 and 1, to the nearest
integer, and greater only for greater samples. The duration of any bytes is finite and not negative,
and no byte that is not there is read for it. -/
theorem file_reads_back :
    (∀ (samples : Array Sample) (rate : Float) (r : ℕ), 36 + 2 * samples.size < 2 ^ 32 →
      Number.integer? rate = some (r : ℤ) →
      ((encode? samples rate).isSome = true ↔ 2 * r < 2 ^ 32) ∧
      ∀ file, encode? samples rate = some file →
        file.size = 44 + 2 * samples.size ∧ Header file (2 * samples.size) r ∧
        seconds file = (if r = 0 then 0 else Float.ofNat samples.size / rate) ∧
        ∀ i s, samples[i]? = some s → levelAt? file (44 + 2 * i) = some s.toPcm ∧
          -32767 ≤ s.toPcm ∧ s.toPcm ≤ 32767 ∧
          ∀ v, s.value? = some v → |(s.toPcm : ℝ) - 32767 * Sample.clamp v| ≤ 1 / 2 ∧
            ∀ (t : Sample) w, t.value? = some w → v ≤ w → s.toPcm ≤ t.toPcm) ∧
    ∀ bytes, seconds? bytes = some (seconds bytes) ∧ (seconds bytes).isFinite = true ∧
      0 ≤ seconds bytes := by
  refine ⟨?_, seconds_bounded⟩
  intro samples rate r hsize hrate
  rw [encode?_eq hsize hrate]
  refine ⟨by split <;> simp_all, ?_⟩
  intro file hfile
  obtain ⟨hr, hfile⟩ := Option.ite_none_right_eq_some.mp hfile
  obtain rfl := Option.some.inj hfile
  refine ⟨size_fileOf samples r, (header_fileOf hsize hr).1, ?_, ?_⟩
  · rw [seconds, seconds?_fileOf hsize hr hrate, Option.getD_some]
  · intro i s hs
    obtain ⟨hlow, hhigh⟩ := s.toPcm_range
    refine ⟨levelAt?_fileOf hsize hr hs, hlow, hhigh, fun v hv => ?_⟩
    exact ⟨Sample.abs_toPcm_sub_le hv, fun t w hw hle => Sample.toPcm_mono hv hw hle⟩

/-- Full volume and negative infinity, at eight thousand samples a second. -/
theorem file_reads_back_two :
    Number.integer? 8000 = some (8000 : ℕ) ∧
      Sample.value? 0x3f800000 = some 1 ∧ Sample.value? 0xff800000 = some ⊥ ∧
      ∃ file, encode? #[0x3f800000, 0xff800000] (8000 : Float) = some file ∧ file.size = 48 ∧
        levelAt? file 44 = some 32767 ∧ levelAt? file 46 = some (-32767) ∧
        |((Sample.toPcm 0xff800000 : ℤ) : ℝ) - 32767 * Sample.clamp ⊥| ≤ 1 / 2 ∧
        Sample.toPcm 0xff800000 ≤ Sample.toPcm 0x3f800000 ∧
        seconds file = Float.ofNat 2 / 8000 := by
  have hrate : Number.integer? 8000 = some ((8000 : ℕ) : ℤ) := Number.integer?_ofNat (by decide)
  have hfull : Exact.ofSingle 0x3f800000 = .finite false 8388608 (-23) := by decide
  have hone : Sample.value? 0x3f800000 = some 1 := by
    rw [Sample.value?, hfull, Exact.value?]
    norm_num
  have hleast : Sample.value? 0xff800000 = some ⊥ := rfl
  have hsize : 36 + 2 * (#[0x3f800000, 0xff800000] : Array Sample).size < 2 ^ 32 := by decide
  obtain ⟨hfits, hreads⟩ := file_reads_back.1 _ _ _ hsize hrate
  obtain ⟨file, hfile⟩ := Option.isSome_iff_exists.mp (hfits.mpr (by decide))
  obtain ⟨hbytes, _, hseconds, hlevels⟩ := hreads file hfile
  obtain ⟨hfirst, _⟩ := hlevels 0 _ rfl
  obtain ⟨hsecond, _, _, hvalue⟩ := hlevels 1 _ rfl
  obtain ⟨hnear, hmono⟩ := hvalue ⊥ hleast
  exact ⟨hrate, hone, hleast, file, hfile, hbytes, hfirst, hsecond, hnear,
    hmono 0x3f800000 1 hone bot_le, hseconds⟩

end Chip8.Wav
