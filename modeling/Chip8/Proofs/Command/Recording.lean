import Chip8.Proofs.Command.Soundtrack
import Chip8.Proofs.Tone.Phases
import Chip8.Proofs.Tone.Wav

/-! The sound file of a program: as long as was asked for, with a tone where the sound timer runs. -/
namespace Chip8.Command

namespace Request

variable {q : Request} {path : String} {image : Array UInt8} {r : ℕ}

/-! What a request asks for, each number within its limits. -/

def seconds (q : Request) : Float :=
  Number.ofArgument (q.args.flag "seconds") 5 0.1 600

def rate (q : Request) : Float :=
  Number.truncate (Number.ofArgument (q.args.flag "rate") 44100 8000 192000)

def tone (q : Request) : Tone :=
  Tone.make q.rate (Number.ofArgument (q.args.flag "freq") 440 20 20000)
    (Number.ofArgument (q.args.flag "gain") 0.25 0 1)

def frames (q : Request) : ℕ :=
  Number.naturalsBelow (q.seconds * 60)

def perFrame (q : Request) : ℕ :=
  (Number.toInt (q.tone.samplesPerFrame 60)).toNat

/-- The program with the settings of a request, but with its faults recorded. -/
def player (q : Request) (source : Source) (c : Cartridge) : Runner :=
  Runner.make (.powerOn q.settings.dialect (some c)) source (some q.settings.budget) .record 0 false

theorem unpack_tenth : (0.1 : Float).toModel.unpack =
    .finite .positive 7205759403792794 (-56) (by decide) := by
  rfl

theorem amount_tenth :
    Number.Amount (0.1 : Float).toModel.unpack (7205759403792794 * 2 ^ (-56 : ℤ)) := by
  rw [unpack_tenth]
  exact_mod_cast Number.Amount.positive (.inl (by decide))

theorem amount_quarter : Number.Amount (0.25 : Float).toModel.unpack (2 ^ 52 * 2 ^ (-54 : ℤ)) := by
  have hunpack : (0.25 : Float).toModel.unpack =
      .finite .positive (2 ^ 52) (-54) (by decide) := rfl
  rw [hunpack]
  exact_mod_cast Number.Amount.positive (.inl (by decide))

/-- The settings of a sound are those that its arguments ask for within their limits, with the usual
ones for the others: seconds, of which 60 frames make one, a whole number of samples a second, the
frequency and the volume. -/
structure Settled (q : Request) (r : ℕ) : Prop where
  seconds : Number.Effective (q.args.flag "seconds") 5 0.1 600 q.seconds
  frames : ∃ a, Number.Amount (q.seconds * 60).toModel.unpack a ∧ q.frames = ⌈a⌉₊
  rate : ∃ x a, Number.Effective (q.args.flag "rate") 44100 8000 192000 x ∧
    Number.Amount x.toModel.unpack a ∧ r = ⌊a⌋₊
  whole : Number.integer? q.rate = some (r : ℤ)
  range : 8000 ≤ r ∧ r ≤ 192000
  frequency : Number.Effective (q.args.flag "freq") 440 20 20000 q.tone.frequency
  volume : Number.Effective (q.args.flag "gain") 0.25 0 1 q.tone.volume

theorem rate_range (q : Request) : ∃ r : ℕ,
    (∃ x a, Number.Effective (q.args.flag "rate") 44100 8000 192000 x ∧
      Number.Amount x.toModel.unpack a ∧ r = ⌊a⌋₊) ∧
    Number.integer? q.rate = some (r : ℤ) ∧ 8000 ≤ r ∧ r ≤ 192000 := by
  obtain ⟨heffective, a, ha, hlow, hhigh⟩ := Number.ofArgument_range (q.args.flag "rate")
    (Number.amount_ofNat (n := 8000) (by decide)) (Number.amount_ofNat (n := 44100) (by decide))
    (Number.amount_ofNat (n := 192000) (by decide)) (by norm_num) (by norm_num) (by norm_num)
  have hwhole := ha.truncate (by norm_num at hhigh ⊢; linarith)
  exact ⟨⌊a⌋₊, ⟨_, a, heffective, ha, rfl⟩, Number.integer?_eq_some_iff.mpr hwhole,
    Nat.le_floor hlow, Nat.floor_le_of_le hhigh⟩

theorem Settled.perFrame_eq (h : q.Settled r) : q.perFrame = r / 60 := by
  obtain ⟨hlow, hhigh⟩ := h.range
  have hwhole := Number.whole_floor_div (Number.integer?_eq_some_iff.mp h.whole)
    (Number.whole_ofNat (n := 60) (by decide)) (by omega) (by decide) (by omega) (by decide)
  have hfloor : Number.integer? (q.tone.samplesPerFrame 60) = some ((r / 60 : ℕ) : ℤ) :=
    Number.integer?_eq_some_iff.mpr hwhole
  rw [perFrame, Number.toInt_of_integer? hfloor, Int.toNat_natCast]

theorem frames_range (q : Request) :
    Number.Effective (q.args.flag "seconds") 5 0.1 600 q.seconds ∧
      ∃ a, Number.Amount (q.seconds * 60).toModel.unpack a ∧ q.frames = ⌈a⌉₊ ∧
        q.frames ≤ 36001 := by
  obtain ⟨heffective, v, hv, hlow, hhigh⟩ := Number.ofArgument_range (q.args.flag "seconds")
    amount_tenth (Number.amount_ofNat (n := 5) (by decide))
    (Number.amount_ofNat (n := 600) (by decide)) (by norm_num) (by norm_num) (by norm_num)
  have hlow : (1 : ℚ) ≤ v * (60 : ℕ) := by
    norm_num at hlow ⊢
    linarith
  have hhigh : v * (60 : ℕ) ≤ (36000 : ℚ) := by
    norm_num at hhigh ⊢
    linarith
  have hrounds : Number.Rounds (q.seconds * 60).toModel.unpack (v * (60 : ℕ)) :=
    Number.rounds_mul hv (Number.whole_ofNat (by decide)) hlow (hhigh.trans (by norm_num))
  obtain ⟨a, ha, -, hle⟩ := hrounds.bounds
  refine ⟨heffective, a, ha, ha.naturalsBelow, ?_⟩
  rw [frames, ha.naturalsBelow, Nat.ceil_le]
  calc
    a ≤ v * (60 : ℕ) + v * (60 : ℕ) / 2 ^ 52 := hle
    _ ≤ 36000 + 36000 / 2 ^ 52 := by gcongr
    _ ≤ (36001 : ℕ) := by norm_num

theorem frequency_range (q : Request) :
    Number.Effective (q.args.flag "freq") 440 20 20000 q.tone.frequency ∧
      ∃ a, Number.Amount q.tone.frequency.toModel.unpack a ∧ 20 ≤ a ∧ a ≤ 20000 := by
  exact_mod_cast Number.ofArgument_range (q.args.flag "freq")
    (Number.amount_ofNat (n := 20) (by decide)) (Number.amount_ofNat (n := 440) (by decide))
    (Number.amount_ofNat (n := 20000) (by decide)) (by norm_num) (by norm_num) (by norm_num)

/-- A wave brings its volume into the limits that the argument is within. -/
theorem volume_range (q : Request) :
    Number.Effective (q.args.flag "gain") 0.25 0 1 q.tone.volume ∧
      ∃ b, Number.Amount q.tone.volume.toModel.unpack b ∧ b ≤ 1 := by
  have hlo : Number.Amount (0 : Float).toModel.unpack (0 : ℕ) :=
    Number.amount_ofNat (n := 0) (by decide)
  have hhi : Number.Amount (1 : Float).toModel.unpack (1 : ℕ) :=
    Number.amount_ofNat (n := 1) (by decide)
  have heffective := Number.effective_ofArgument (q.args.flag "gain") (0.25 : Float) hlo hhi
    (by norm_num)
  have hvolume : q.tone.volume = Number.greatest 0 (Number.least 1
    (Number.ofArgument (q.args.flag "gain") 0.25 0 1)) := rfl
  rw [hvolume]
  generalize Number.ofArgument (q.args.flag "gain") 0.25 0 1 = v at heffective
  cases heffective with
  | fallback h => exact ⟨.fallback h, _, amount_quarter, by norm_num⟩
  | low hx h => exact ⟨.low hx h, _, hlo, by norm_num⟩
  | high hx h => exact ⟨.high hx h, _, hhi, by norm_num⟩
  | @within x v b hx hlow hhigh hb hv =>
    have hone := (hb.le_iff hhi).mp hhigh
    have hwithin := hlo.greatest (hhi.least hv)
    rw [min_eq_right hone, max_eq_right (by exact_mod_cast hb.nonneg)] at hwithin
    exact ⟨.within hx hlow hhigh hb hwithin, b, hwithin, by exact_mod_cast hone⟩

/-- The settings hold, and there are not too many samples for a file. -/
theorem settled (q : Request) : ∃ r, q.Settled r ∧ q.frames ≤ 36001 := by
  obtain ⟨r, hrate, hwhole, hrange⟩ := q.rate_range
  obtain ⟨hseconds, a, ha, hframes, hmany⟩ := q.frames_range
  exact ⟨r, ⟨hseconds, ⟨a, ha, hframes⟩, hrate, hwhole, hrange, q.frequency_range.1,
    q.volume_range.1⟩, hmany⟩

/-- The wave of a request is a square wave, since its step is neither too small nor too great to be
added. -/
theorem Settled.square_wave (h : q.Settled r) :
    ∃ phase peak, Tone.Square q.tone.frequency q.rate q.tone.volume phase peak ∧ ∀ n,
      (Tone.next^[n] q.tone).sample.toPcm =
        ⌊32767 * (if phase n < 0.5 then peak else -peak) + 1 / 2⌋ := by
  obtain ⟨hlow, hhigh⟩ := h.range
  obtain ⟨-, a, ha, halow, hahigh⟩ := q.frequency_range
  obtain ⟨-, b, hb, hone⟩ := q.volume_range
  have hr := (Number.integer?_eq_some_iff.mp h.whole).amount
  have hrlow : (8000 : ℚ) ≤ r := by exact_mod_cast hlow
  have hrhigh : (r : ℚ) ≤ 192000 := by exact_mod_cast hhigh
  have hquotient : (1 / 2 ^ 100 : ℚ) ≤ a / r ∧ a / r ≤ 20000 := by
    rw [le_div_iff₀ (by linarith), div_le_iff₀ (by linarith)]
    constructor
    · calc
        (1 / 2 ^ 100 * r : ℚ) ≤ 1 / 2 ^ 100 * 192000 := by gcongr
        _ ≤ 20 := by norm_num
        _ ≤ a := halow
    · linarith
  obtain ⟨d, hd, hdlow, hdhigh⟩ :=
    (Number.rounds_div ha hr (by linarith) (by linarith) (by linarith) (by linarith)).bounds
  refine Tone.square_wave rfl hd ?_ ?_ hb hone
  · refine le_trans ?_ hdlow
    linarith
  · linarith

theorem loadCartridge_of_fits (hfile : q.files (q.absolute path) = some image)
    (hsize : 1 ≤ image.size) (hsize' : image.size ≤ 3584) :
    ∃ c, q.loadCartridge path = .ok c ∧ c.image = image := by
  obtain ⟨c, hc⟩ := Cartridge.make_of_fits ⟨hsize, hsize'⟩ (Path.fileName (q.absolute path))
  refine ⟨c, ?_, Cartridge.image_of_make hc⟩
  simp only [loadCartridge, hfile, hc]
  rfl

end Request

/-! The file. -/

/-- A sound file that follows the sound timer over so many frames: silence where a frame has no tone
or one before it had a fault, and elsewhere the level of the square wave with these phases and this
peak, as far on as there were samples of it before. -/
structure Follows (file : Array UInt8) (player : Runner) (phase : ℕ → Float) (peak : ℝ)
    (rate frames perFrame : ℕ) : Prop where
  size : file.size = 44 + 2 * (frames * perFrame)
  fits : 36 + 2 * (frames * perFrame) < 2 ^ 32 ∧ 2 * rate < 2 ^ 32
  header : Wav.Header file (2 * (frames * perFrame)) rate
  level : ∀ i < frames * perFrame, Wav.levelAt? file (44 + 2 * i) = some
    (if player.Heard (i / perFrame) then
      ⌊32767 * (if phase (Nat.count (fun j => player.Heard (j / perFrame)) i) < 0.5 then peak
        else -peak) + 1 / 2⌋
    else 0)

variable {q : Request} {source : Source} {path : String} {image : Array UInt8} {c : Cartridge}
  {r frames perFrame : ℕ} {rate : Float} {rec : Recording} {report : Report} {phase : ℕ → Float}
  {peak : ℝ}

theorem developRecording_of_encode? {file : Array UInt8}
    (h : Wav.encode? (rec.padded (frames * perFrame)) rate = some file) (report : Report) :
    (developRecording q report rec frames perFrame rate).files =
        report.files ++ [(q.absolute (q.outPath "out.wav"), .sound file)] ∧
      (developRecording q report rec frames perFrame rate).exit? = report.exit? := by
  unfold developRecording
  rw [h]
  cases q.debug <;> exact ⟨rfl, rfl⟩

/-- What is left to do when the frames are over: the file is made and written, and it is the only
one. -/
theorem develop_follows (hrec : rec.runner.Unfailing) (hs : rec.samples = #[]) (hp : 0 < perFrame)
    (hrate : Number.integer? rate = some (r : ℤ))
    (hfits : 36 + 2 * (frames * perFrame) < 2 ^ 32 ∧ 2 * r < 2 ^ 32)
    (hwave : ∀ n, (Tone.next^[n] rec.tone).sample.toPcm =
      ⌊32767 * (if phase n < 0.5 then peak else -peak) + 1 / 2⌋) :
    ∃ file, Follows file rec.runner phase peak r frames perFrame ∧
      ∀ report, let developed :=
          developRecording q report (rec.addFrames perFrame frames).2 frames perFrame rate
        developed.files = report.files ++ [(q.absolute (q.outPath "out.wav"), .sound file)] ∧
          developed.exit? = report.exit? := by
  obtain ⟨hsize, hlevels⟩ := Recording.getElem?_padded hrec hp hs frames
  have hencode := Wav.encode?_eq (by rw [hsize]; exact hfits.1) hrate
  rw [if_pos hfits.2] at hencode
  refine ⟨_, ?_, developRecording_of_encode? hencode⟩
  obtain ⟨hheader, _⟩ := Wav.header_fileOf (by rw [hsize]; exact hfits.1) hfits.2
  rw [hsize] at hheader
  refine ⟨?_, hfits, hheader, fun i hi => ?_⟩
  · rw [Wav.size_fileOf, hsize]
  · rw [Wav.levelAt?_fileOf (by rw [hsize]; exact hfits.1) hfits.2 (hlevels i hi), Recording.soundAt]
    split
    case isTrue => rw [hwave]
    case isFalse => rfl

/-- The recording of a machine when it begins. -/
def blank (q : Request) (player : Runner) : Recording :=
  ⟨player, q.tone, #[], 0⟩

/-- What is said when the frames are over. -/
def conclude (q : Request) : RecordingEnd × Recording → Report
  | (.raised failure, _) => Report.empty.abort "[wav] Unhandled error:" failure
  | (.stopped number fault, rec) =>
    developRecording q (Report.empty.warn ("[wav] stopped at frame " ++ toString number ++ ": "
      ++ (Failure.fault fault).describe)) rec q.frames q.perFrame q.rate
  | (.complete, rec) => developRecording q Report.empty rec q.frames q.perFrame q.rate

theorem recordSound_eq (hpath : q.imagePath? = some path) (hload : q.loadCartridge path = .ok c)
    (source : Source) : recordSound q source =
      conclude q ((blank q { q.player source c with mode := q.settings.mode }).addFrames
        q.perFrame q.frames) := by
  unfold recordSound
  rw [hpath]
  dsimp only
  rw [hload]
  rfl

theorem conclude_of_not_raised {ended : RecordingEnd × Recording}
    (h : ∀ e, ended.1 ≠ .raised e) : ∃ report : Report, report.files = [] ∧ report.exit? = none ∧
      conclude q ended = developRecording q report ended.2 q.frames q.perFrame q.rate := by
  obtain ⟨ended, rec⟩ := ended
  cases ended with
  | complete => exact ⟨_, rfl, rfl, rfl⟩
  | stopped number fault => exact ⟨_, rfl, rfl, rfl⟩
  | raised failure => exact absurd rfl (h failure)

theorem conclude_of_raised {ended : RecordingEnd × Recording} (h : ∃ e, ended.1 = .raised e) :
    (conclude q ended).files = [] ∧ (conclude q ended).exit? = some 1 := by
  obtain ⟨ended, rec⟩ := ended
  obtain ⟨e, rfl⟩ := h
  exact ⟨rfl, rfl⟩

theorem unfailing_blank (hsource : source.Reliable) (c : Cartridge) :
    (blank q (q.player source c)).runner.Unfailing :=
  ⟨rfl, hsource⟩

/-- An image that fits is recorded, for the frames and at the rate that the request asks for within
its limits. Where faults are recorded, there is one file, which follows the sound timer with a square
wave of the frequency and the volume asked for, and no error. Where they are raised, a fault in one of
the frames leaves no file, and the command fails. -/
theorem recordSound_follows (hpath : q.imagePath? = some path)
    (hfile : q.files (q.absolute path) = some image) (hsize : 1 ≤ image.size)
    (hsize' : image.size ≤ 3584) (hsource : source.Reliable) :
    ∃ (c : Cartridge) (r : ℕ) (phase : ℕ → Float) (peak : ℝ),
      q.loadCartridge path = .ok c ∧ c.image = image ∧ q.Settled r ∧
      Tone.Square q.tone.frequency q.rate q.tone.volume phase peak ∧
      (∀ j, ∃ f, (q.player source c).frameAt? j = some f) ∧
      (q.settings.mode = .record →
        ∃ file, (recordSound q source).files = [(q.absolute (q.outPath "out.wav"), .sound file)] ∧
          (recordSound q source).exit? = none ∧
          Follows file (q.player source c) phase peak r q.frames (r / 60)) ∧
      (q.settings.mode = .raise →
        (∃ j < q.frames, ∃ f, (q.player source c).frameAt? j = some f ∧ f.fault? ≠ none) →
          (recordSound q source).files = [] ∧ (recordSound q source).exit? = some 1) := by
  obtain ⟨c, hload, himage⟩ := Request.loadCartridge_of_fits hfile hsize hsize'
  obtain ⟨r, hsettled, hmany⟩ := q.settled
  obtain ⟨phase, peak, hsquare, hwave⟩ := hsettled.square_wave
  obtain ⟨hlow, hhigh⟩ := hsettled.range
  have hperFrame := hsettled.perFrame_eq
  have hplayer := unfailing_blank (q := q) hsource c
  refine ⟨c, r, phase, peak, hload, himage, hsettled, hsquare, hplayer.frameAt?, fun hmode => ?_,
    fun hmode hfault => ?_⟩
  · have hpos : 0 < q.perFrame := by omega
    have hsamples : q.frames * q.perFrame ≤ 36001 * 3200 := Nat.mul_le_mul hmany (by omega)
    have hfits : 36 + 2 * (q.frames * q.perFrame) < 2 ^ 32 ∧ 2 * r < 2 ^ 32 :=
      ⟨by omega, by omega⟩
    have hsame : { q.player source c with mode := .record } = q.player source c := rfl
    rw [recordSound_eq hpath hload, hmode, ← hperFrame, hsame]
    obtain ⟨hends, _⟩ := Recording.addFrames_recorded hplayer hpos q.frames
    obtain ⟨report, hempty, hruns, hconclude⟩ := conclude_of_not_raised (q := q) hends
    obtain ⟨file, hfollows, hdeveloped⟩ :=
      develop_follows (q := q) hplayer rfl hpos hsettled.whole hfits hwave
    obtain ⟨hfiles, hexit⟩ := hdeveloped report
    rw [hconclude]
    exact ⟨file, by rw [hfiles, hempty, List.nil_append], hexit.trans hruns, hfollows⟩
  · have hhalted : (blank q (q.player source c)).runner.machine.isHalted = false := rfl
    have hraised : ∃ e, ((blank q (q.player source c)).raising.addFrames q.perFrame
        q.frames).1 = .raised e := Recording.addFrames_raising hplayer hhalted hfault
    rw [recordSound_eq hpath hload, hmode]
    exact conclude_of_raised hraised

/-- A program that sets the sound timer in its second frame and calls machine code in its third, to
be recorded as loud as can be, with two samples in a period. -/
def beeping (onError : String) : Request where
  args := ⟨[("rom", "beep.ch8"), ("onCpuError", onError), ("ipf", "1"), ("rate", "8000"),
    ("freq", "4000"), ("gain", "2")], []⟩
  env := fun _ => none
  directory := "/"
  files := fun _ => some #[0x60, 0x05, 0xf0, 0x18, 0x00, 0x00]

/-- The tone is on in the second frame and in the third, which is the one with the fault. -/
theorem frames_beeping {p : Runner} (hp : p.Unfailing) (hb : p.budget = some 1)
    (hr : p.machine.run = .running) (hpc : p.machine.pc = 0x200)
    (hm : p.machine.memory = Memory.initial.withProgram #[0x60, 0x05, 0xf0, 0x18, 0x00, 0x00])
    (ht : p.machine.timers = .initial) :
    ¬ p.Heard 0 ∧ p.Heard 1 ∧ p.Heard 2 ∧ ∃ f, p.frameAt? 2 = some f ∧ f.fault? ≠ none := by
  have hbyte : p.machine.Reads (.setByte 0 5) :=
    Machine.reads_of_image hm hpc ⟨by decide, by decide⟩ (by decide)
  obtain ⟨hfirst, htimers, hread⟩ := Runner.frame_setByte hb ⟨hr, hbyte⟩
  obtain ⟨f, hf, hwell⟩ := hfirst.frame
  have hpc₂ : p.frame.2.machine.pc.toNat = 0x200 + 2 := by
    rw [hfirst.pc, hpc]
    rfl
  have hsound : p.frame.2.machine.Reads (.setSound 0) :=
    Machine.reads_of_image_at (hfirst.memory.trans hm) hpc₂ (by decide) (show 0 < 16 by decide)
      (by decide)
  obtain ⟨hsecond, htimer⟩ := Runner.frame_setSound hfirst.budget ⟨hfirst.run, hsound⟩
  obtain ⟨g, hg, hwell'⟩ := hsecond.frame
  have hpc₃ : p.frame.2.frame.2.machine.pc.toNat = 0x200 + 4 := by
    rw [hsecond.pc, hpc₂]
    rfl
  have hcall : p.frame.2.frame.2.machine.Reads (.machineCall 0) :=
    Machine.reads_of_image_at (hsecond.memory.trans (hfirst.memory.trans hm)) hpc₃ (by decide)
      ⟨by decide, by decide, by decide⟩ (by decide)
  obtain ⟨e, he, hfault, hlast⟩ := Runner.frame_of_fault (n := 0) hsecond.budget
    hp.frame.frame.1 hsecond.run hcall rfl
  have hquiet : f.soundActive = false := by
    rw [Runner.soundActive_of_frame hf, htimers, ht]
    rfl
  have hloud : g.soundActive = true := by
    rw [Runner.soundActive_of_frame hg, Timers.soundActive, htimer, hread]
    rfl
  have hloud' : e.soundActive = true := by
    rw [Runner.soundActive_of_frame he, Timers.soundActive, hlast, Timers.tick, htimer, hread]
    rfl
  rw [Runner.heard_succ_iff hf, Runner.heard_succ_iff hf, Runner.heard_zero_iff hf,
    Runner.heard_succ_iff hg, Runner.heard_zero_iff hg, Runner.heard_zero_iff he]
  exact ⟨by simp [hquiet], ⟨hwell, hloud⟩, ⟨hwell, hwell', hloud'⟩, e, Runner.frameAt?_zero he,
    by simp [hfault]⟩

/-- The wave has one sample up and one down. -/
theorem wave_beeping {phase : ℕ → Float} {peak : ℝ}
    (h : Tone.Square (beeping "record").tone.frequency (beeping "record").rate
      (beeping "record").tone.volume phase peak) :
    phase 0 < 0.5 ∧ ¬ phase 1 < 0.5 ∧ ⌊32767 * peak + 1 / 2⌋ = 32767 ∧
      ⌊32767 * -peak + 1 / 2⌋ = -32767 := by
  have hhalf : Number.Amount (0.5 : Float).toModel.unpack ((2 ^ 52 : ℕ) * 2 ^ (-53 : ℤ)) := by
    have hunpack : (0.5 : Float).toModel.unpack =
        .finite .positive (2 ^ 52) (-53) (by decide) := rfl
    rw [hunpack]
    exact .positive (.inl (by decide))
  have hstep : (0 + (beeping "record").tone.frequency / (beeping "record").rate).toModel =
      (0.5 : Float).toModel := by
    decide +kernel
  have hone : Number.integer? (beeping "record").tone.volume = some ((1 : ℕ) : ℤ) := by
    decide +kernel
  obtain ⟨a, ha, hnext⟩ := h.next 0
  rw [h.start, hstep] at ha
  obtain rfl := ha.unique hhalf
  obtain ⟨b, hb, hclose⟩ := h.peak_close
  obtain rfl := hb.unique (Number.integer?_eq_some_iff.mp hone).amount
  rw [abs_le] at hclose
  norm_num at hclose
  refine ⟨?_, ?_, ?_, ?_⟩
  · rw [h.start]
    decide +kernel
  · have hbelow : ((2 ^ 52 : ℕ) * 2 ^ (-53 : ℤ) : ℚ) < 1 := by norm_num
    rw [Int.fract_eq_self.mpr ⟨by positivity, hbelow⟩] at hnext
    rw [hnext.lt_iff hhalf]
    exact lt_irrefl _
  · rw [Int.floor_eq_iff]
    constructor <;> push_cast <;> linarith
  · rw [Int.floor_eq_iff]
    constructor <;> push_cast <;> linarith

/-- The second and the third frame are heard, up to their last samples. -/
theorem levels_beeping {file : Array UInt8} {p : Runner} (h : Follows file p phase peak r 300 133)
    (hwave : phase 0 < 0.5 ∧ ¬ phase 1 < 0.5 ∧ ⌊32767 * peak + 1 / 2⌋ = 32767 ∧
      ⌊32767 * -peak + 1 / 2⌋ = -32767)
    (hheard : ¬ p.Heard 0 ∧ p.Heard 1 ∧ p.Heard 2 ∧ ¬ p.Heard 3) :
    Wav.levelAt? file (44 + 2 * 132) = some 0 ∧ Wav.levelAt? file (44 + 2 * 133) = some 32767 ∧
      Wav.levelAt? file (44 + 2 * 134) = some (-32767) ∧
      Wav.levelAt? file (44 + 2 * 398) ≠ some 0 ∧ Wav.levelAt? file (44 + 2 * 399) = some 0 := by
  obtain ⟨hup, hdown, hhigh, hlow⟩ := hwave
  obtain ⟨hquiet, hfirst, hlast, hover⟩ := hheard
  have hcount : Nat.count (fun j => p.Heard (j / 133)) 133 = 0 := by
    refine Nat.count_of_forall_not fun j hj => ?_
    rw [Nat.div_eq_of_lt hj]
    exact hquiet
  have hcount' : Nat.count (fun j => p.Heard (j / 133)) 134 = 1 := by
    rw [Nat.count_succ, hcount, if_pos hfirst]
  have hlevel (i : ℕ) (hi : i < 400) := h.level i (by omega)
  refine ⟨?_, ?_, ?_, ?_, ?_⟩
  · rw [hlevel 132 (by decide), if_neg hquiet]
  · rw [hlevel 133 (by decide), if_pos hfirst, hcount, if_pos hup, hhigh]
  · rw [hlevel 134 (by decide), if_pos hfirst, hcount', if_neg hdown, hlow]
  · rw [hlevel 398 (by decide), if_pos hlast]
    split
    case isTrue => rw [hhigh]; decide
    case isFalse => rw [hlow]; decide
  · rw [hlevel 399 (by decide), if_neg hover]

theorem recordSound_follows_beeping :
    (beeping "record").settings.mode = .record ∧ (beeping "throw").settings.mode = .raise ∧
      (∃ file, (recordSound (beeping "record") (.seeded 0)).files =
          [((beeping "record").absolute "out.wav", .sound file)] ∧
        (recordSound (beeping "record") (.seeded 0)).exit? = none ∧ file.size = 79844 ∧
        Wav.levelAt? file (44 + 2 * 132) = some 0 ∧ Wav.levelAt? file (44 + 2 * 133) = some 32767 ∧
        Wav.levelAt? file (44 + 2 * 134) = some (-32767) ∧
        Wav.levelAt? file (44 + 2 * 398) ≠ some 0 ∧ Wav.levelAt? file (44 + 2 * 399) = some 0) ∧
      (recordSound (beeping "throw") (.seeded 0)).files = [] ∧
      (recordSound (beeping "throw") (.seeded 0)).exit? = some 1 := by
  have hsource : (Source.seeded 0).Reliable := fun _ => ⟨_, rfl⟩
  have hrecord : (beeping "record").settings.mode = .record := by decide
  have hraise : (beeping "throw").settings.mode = .raise := by decide
  have hframes : (beeping "record").frames = 300 := by decide +kernel
  have hframes' : (beeping "throw").frames = 300 := by decide +kernel
  have hrate : Number.integer? (beeping "record").rate = some ((8000 : ℕ) : ℤ) := by
    decide +kernel
  have hout : (beeping "record").outPath "out.wav" = "out.wav" := by decide
  have hpath (onError : String) : (beeping onError).imagePath? = some "beep.ch8" := rfl
  obtain ⟨c, r, phase, peak, _, himage, hsettled, hsquare, _, hfile, _⟩ :=
    recordSound_follows (hpath "record") rfl (by decide) (by decide) hsource
  obtain ⟨c', _, _, _, _, himage', _, _, _, _, hnone⟩ :=
    recordSound_follows (hpath "throw") rfl (by decide) (by decide) hsource
  obtain ⟨file, hfiles, hexit, hfollows⟩ := hfile hrecord
  obtain rfl : r = 8000 := by
    have hwhole := hsettled.whole
    rw [hrate, Option.some.injEq, Nat.cast_inj] at hwhole
    exact hwhole.symm
  rw [hframes] at hfollows
  refine ⟨hrecord, hraise, ⟨file, ?_, hexit, hfollows.size, ?_⟩, ?_⟩
  · rw [hfiles, hout]
  · obtain ⟨hquiet, hfirst, hlast, f, hf, hfault⟩ := frames_beeping
      (p := (beeping "record").player (.seeded 0) c) (unfailing_blank hsource c) rfl rfl rfl
      (congrArg Memory.initial.withProgram himage) rfl
    refine levels_beeping hfollows (wave_beeping hsquare) ⟨hquiet, hfirst, hlast, fun hheard => ?_⟩
    have hthird := hheard.1 2 (by decide)
    simp [hf, hfault] at hthird
  · obtain ⟨-, -, -, f, hf, hfault⟩ := frames_beeping
      (p := (beeping "throw").player (.seeded 0) c') (unfailing_blank hsource c') rfl rfl rfl
      (congrArg Memory.initial.withProgram himage') rfl
    exact hnone hraise ⟨2, by rw [hframes']; decide, f, hf, hfault⟩

end Chip8.Command
