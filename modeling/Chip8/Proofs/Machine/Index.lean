import Chip8.Proofs.Machine.Faults
import Chip8.Proofs.Machine.Sequence

/-! The index beside one that is never cut to sixteen bits, and the accesses that start there. -/
namespace Chip8

/-- How many bytes from the index on an instruction reads or writes. -/
def Instruction.span : Instruction ℕ → ℕ
  | draw _ _ n => n
  | storeDecimal _ => 3
  | store x => x + 1
  | load x => x + 1
  | _ => 0

namespace Machine

variable {m : Machine} {s : Source} {i : Instruction ℕ} {p : Machine × Source} {n : ℕ}

/-- Where an instruction leaves an index `n` that no bits are cut from. -/
def wideAfter (m : Machine) (n : ℕ) : Instruction ℕ → ℕ
  | .setIndex nnn => nnn
  | .pointGlyph x => 5 * ((m.reg x).toNat % 16)
  | .addIndex x => n + (m.reg x).toNat
  | .store x => if m.dialect.blocksMoveIndex then n + (x + 1) else n
  | .load x => if m.dialect.blocksMoveIndex then n + (x + 1) else n
  | _ => n

/-- Where a step leaves it. Only an instruction that is completed moves it. -/
def wideNext (p : Machine × Source) (n : ℕ) : ℕ :=
  match p.1.run, (p.1.step p.2).failure? with
  | .running, none => ((Instruction.ofWord? p.1.opcode.toNat).map (p.1.wideAfter n)).getD n
  | _, _ => n

/-- Where `j` steps leave it. -/
def wideIndex (p : Machine × Source) : ℕ → ℕ
  | 0 => p.1.index.toNat
  | j + 1 => wideNext (next^[j] p) (wideIndex p j)

/-! The index of a machine is what is left of it. -/

theorem wideAfter_mod (m : Machine) (n : ℕ) (i : Instruction ℕ) :
    m.wideAfter n i % 0x10000 = m.wideAfter (n % 0x10000) i % 0x10000 := by
  cases i with
  | store x =>
    simp only [wideAfter]
    split <;> omega
  | load x =>
    simp only [wideAfter]
    split <;> omega
  | _ => simp [wideAfter]

theorem wideAfter_fetched (m : Machine) (word : UInt16) (n : ℕ) (i : Instruction ℕ) :
    (m.fetched word).wideAfter n i = m.wideAfter n i := by
  cases i <;> rfl

theorem toNat_index_mod (m : Machine) : m.index.toNat = m.index.toNat % 0x10000 :=
  (Nat.mod_eq_of_lt m.index.toNat_lt).symm

theorem index_moveIndex (m : Machine) (x : ℕ) :
    (m.moveIndex x).index.toNat =
      (if m.dialect.blocksMoveIndex then m.index.toNat + (x + 1) else m.index.toNat) % 0x10000 := by
  unfold moveIndex
  split
  · simp only [Scalar.toWord16_nat, Scalar.ofNat_nat, UInt16.toNat_ofNat', Nat.add_assoc]
  · exact toNat_index_mod m

theorem index_assign (m : Machine) (r : Register) (b : UInt8) : (m.assign r b).index = m.index := by
  obtain ⟨_, h⟩ := assign_eq m r b
  rw [h]

theorem index_arith (m : Machine) (op : ArithOp) (x y : Register) :
    (m.arith op x y).index = m.index := by
  obtain ⟨_, h⟩ := arith_eq m op x y
  rw [h]

theorem index_completed (hi : i.InRange) (m : Machine) (roll : UInt8) :
    (m.completed roll i).index.toNat = m.wideAfter m.index.toNat i % 0x10000 := by
  have hassign (r : Register) (b : UInt8) :
      (m.assign r b).index.toNat = m.index.toNat % 0x10000 := by
    rw [index_assign]
    exact toNat_index_mod m
  cases i with
  | setIndex nnn =>
    simp only [completed, effect, Scalar.toWord16_nat, UInt16.toNat_ofNat', wideAfter]
  | pointGlyph x =>
    have haddress : Font.address (m.reg x).toNat = 5 * ((m.reg x).toNat % 16) := by
      simp only [Font.address, Font.base, Font.glyphBytes]
      omega
    simp only [completed, effect, m.read_of_lt hi, haddress, UInt16.toNat_ofNat', wideAfter]
  | addIndex x =>
    simp only [completed, effect, addToIndex, m.value?_of_lt hi, UInt16.toNat_ofNat', wideAfter]
  | store x => exact index_moveIndex _ x
  | load x =>
    obtain ⟨v, hv⟩ := setRegisters_eq m 0 (m.memory.load m.index.toNat (x + 1))
    have hload : m.completed roll (.load x) = { m with registers := v }.moveIndex x :=
      congrArg (moveIndex · x) hv
    rw [hload]
    exact index_moveIndex _ x
  | draw x y n =>
    obtain ⟨v, d, hv, _⟩ := drawSprite_eq m (.of x) (.of y) (m.memory.load m.index.toNat n)
    have hdraw : m.completed roll (.draw x y n) = { m with registers := v, display := d } := hv
    rw [hdraw]
    exact toNat_index_mod m
  | setByte x nn => exact hassign _ _
  | addByte x nn => exact hassign _ _
  | random x nn => exact hassign _ _
  | readDelay x => exact hassign _ _
  | arith op x y =>
    have harith : (m.completed roll (.arith op x y)).index = m.index := index_arith m op _ _
    rw [harith]
    exact toNat_index_mod m
  | _ => exact toNat_index_mod m

/-! Steps. -/

theorem wideNext_of_reads (hr : p.1.run = .running) (hi : p.1.Reads i)
    (hf : (p.1.step p.2).failure? = none) : wideNext p n = p.1.wideAfter n i := by
  simp only [wideNext, hr, hf, (reads_iff.mp hi).2, Option.map_some, Option.getD_some]

theorem wideNext_of_run (hr : p.1.run ≠ .running) : wideNext p n = n := by
  unfold wideNext
  split
  case h_1 hrun _ => exact absurd hrun hr
  case h_2 => rfl

theorem wideNext_of_failure {e : Failure} (hf : (p.1.step p.2).failure? = some e) :
    wideNext p n = n := by
  unfold wideNext
  rw [hf]
  split
  case h_1 hnone => cases hnone
  case h_2 => rfl

theorem Stepped.index_of_failure {o : Outcome} (h : Stepped m s o)
    (hf : o.failure?.isSome = true) : o.machine.index = m.index := by
  cases h with
  | polled => cases hf
  | completed => cases hf
  | @unrolled i e => cases e <;> rfl
  | _ => rfl

theorem index_apply (hi : i.InRange) (h : m.index.toNat = n % 0x10000) (roll : UInt8) :
    (m.apply i roll).index.toNat = m.wideAfter n i % 0x10000 := by
  rw [wideAfter_mod, ← h]
  exact index_completed hi m roll

theorem index_next (h : p.1.index.toNat = n % 0x10000) :
    (next p).1.index.toNat = wideNext p n % 0x10000 := by
  have hstepped := stepped_step p.1 p.2
  cases hf : (p.1.step p.2).failure? with
  | some e =>
    have hindex := hstepped.index_of_failure (by rw [hf]; rfl)
    rw [wideNext_of_failure hf, ← h]
    exact congrArg UInt16.toNat hindex
  | none =>
    change (p.1.step p.2).machine.index.toNat = _
    generalize ho : p.1.step p.2 = o at hstepped hf
    cases hstepped with
    | @polled register hr =>
      rw [wideNext_of_run (by simp [hr]), ← h]
      rcases pollKey_cases p.1 register with hp | ⟨_, _, hp⟩ <;> rw [hp]
    | @completed i roll s' hr hi _ _ =>
      rw [wideNext_of_reads hr hi (by rw [ho]), ← wideAfter_fetched p.1 p.1.opcode]
      exact index_apply (m := p.1.fetched p.1.opcode) hi.2.1 h roll
    | unrolled => simp [failure?_settle] at hf
    | _ => cases hf

/-- What is left of an index of any width are its low sixteen bits. -/
theorem index_iterate (p : Machine × Source) (j : ℕ) :
    (next^[j] p).1.index.toNat = wideIndex p j % 0x10000 := by
  induction j with
  | zero => exact toNat_index_mod p.1
  | succ j ih =>
    rw [Function.iterate_succ_apply']
    exact index_next ih

/-! Accesses. -/

theorem refuses_beyond_iff (hi : 1 ≤ i.span) :
    m.Refuses i "memory-out-of-bounds" ↔ 0x1000 < m.index.toNat + i.span := by
  constructor
  · intro h
    generalize hk : "memory-out-of-bounds" = kind at h
    cases h with
    | draw _ hr => exact hr
    | storeDecimalBeyond hr => exact hr
    | storeBeyond hr => exact hr
    | load hr => exact hr
    | _ => simp at hk
  · intro h
    cases i with
    | draw x y n => exact .draw hi h
    | storeDecimal x => exact .storeDecimalBeyond h
    | store x => exact .storeBeyond h
    | load x => exact .load h
    | _ => cases hi

theorem failure?_of_span (hr : m.run = .running) (hi : m.Reads i) (hs : 1 ≤ i.span) :
    (m.step s).failure? = (m.fault? i).map .fault := by
  cases hf : m.fault? i with
  | some f =>
    rw [step_of_fault? hr hi hf]
    rfl
  | none =>
    have hroll : rolled s i = (.ok 0, s) := by
      cases i with
      | random => cases hs
      | _ => rfl
    rw [step_of_rolled hr hi hf hroll]
    rfl

theorem fails_beyond_span_iff (hr : m.run = .running) (hi : m.Reads i) (hs : 1 ≤ i.span) :
    (∃ f, (m.step s).failure? = some (.fault f) ∧ f.kind = "memory-out-of-bounds") ↔
      0x1000 < m.index.toNat + i.span := by
  rw [← refuses_beyond_iff hs, ← ofKind_fault?_iff hi.2.1, failure?_of_span hr hi hs]
  simp only [OfKind, Option.map_eq_some_iff, Failure.fault.injEq, exists_eq_right]

/-- From power-on, the index is what sixteen bits keep of one that is never cut. Where that one was
walked beyond the end of memory, an access fails exactly if there was nothing to cut, or if it does
not end within memory after the cut. -/
theorem beyond_iff_wideIndex (dialect : Dialect) (cartridge : Option Cartridge) (source : Source)
    (j : ℕ) (i : Instruction ℕ) :
    let p := (powerOn dialect cartridge, source)
    let q := next^[j] p
    q.1.run = .running → q.1.Reads i → 1 ≤ i.span → 0xfff < wideIndex p j →
      q.1.index.toNat = wideIndex p j % 0x10000 ∧
        ((∃ f, (q.1.step q.2).failure? = some (.fault f) ∧ f.kind = "memory-out-of-bounds") ↔
          wideIndex p j < 0x10000 ∨ 0x1000 < wideIndex p j % 0x10000 + i.span) := by
  intro p q hr hi hs hwide
  have hindex : q.1.index.toNat = wideIndex p j % 0x10000 := index_iterate p j
  refine ⟨hindex, ?_⟩
  rw [fails_beyond_span_iff hr hi hs, hindex]
  constructor
  · exact .inr
  · rintro (hlt | h)
    · rw [Nat.mod_eq_of_lt hlt]
      omega
    · exact h

/-! A walk through the whole range of sixteen bits. -/

/-- With 255 in its first register, the program sets the index to 256 and adds the register to it
until the second register has counted to 256. Then it reads a byte at the index. -/
def strollImage : Array UInt8 :=
  #[0x60, 0xff, 0xa1, 0x00, 0xf0, 0x1e, 0x71, 0x01, 0x31, 0x00, 0x12, 0x04, 0xf0, 0x65]

def strollCartridge : Cartridge :=
  ⟨strollImage, "stroll", by decide, by decide⟩

def stroll : Machine × Source :=
  (powerOn .standard (some strollCartridge), .seeded 0)

/-- After `j` steps the machine goes on at byte number `k` of the program, with `b` and `c` in its
registers, and the wide index is `n`. -/
structure Strolls (j k : ℕ) (b c : UInt8) (n : ℕ) : Prop where
  memory : (next^[j] stroll).1.memory = Memory.initial.withProgram strollImage
  run : (next^[j] stroll).1.run = .running
  pc : (next^[j] stroll).1.pc.toNat = 0x200 + k
  first : (next^[j] stroll).1.reg 0 = b
  second : (next^[j] stroll).1.reg 1 = c
  wide : wideIndex stroll j = n

/-- An instruction has no fault and leads on to byte number `k`. -/
structure Strides (m : Machine) (i : Instruction ℕ) (k : ℕ) (b c : UInt8) : Prop where
  fault? : m.fault? i = none
  memory : (m.apply i 0).memory = m.memory
  run : (m.apply i 0).run = m.run
  pc : (m.apply i 0).pc.toNat = 0x200 + k
  first : (m.apply i 0).reg 0 = b
  second : (m.apply i 0).reg 1 = c

variable {j k k' : ℕ} {b b' c c' : UInt8}

theorem Strides.fetched {word : UInt16} (h : Strides (m.fetched word) i k b c) :
    m.fault? i = none := by
  rw [← fault?_fetched m word]
  exact h.fault?

theorem Strolls.succ (h : Strolls j k b c n) (hi : i.InRange)
    (he : k + 1 < Memory.maxProgram ∧
      i.encode = (strollImage[k]?.getD 0).toNat * 256 + (strollImage[k + 1]?.getD 0).toNat)
    (hroll : ∀ s, rolled s i = (.ok 0, s))
    (hm : ∀ m : Machine, m.pc.toNat = 0x200 + k → m.reg 0 = b → m.reg 1 = c →
      Strides m i k' b' c') :
    Strolls (j + 1) k' b' c' ((next^[j] stroll).1.wideAfter n i) := by
  have hstep : next^[j + 1] stroll = next (next^[j] stroll) := Function.iterate_succ_apply' _ _ _
  have hwide : wideIndex stroll (j + 1) = wideNext (next^[j] stroll) n := by rw [wideIndex, h.wide]
  obtain ⟨hmemory, hrun, hpc, hfirst, hsecond, -⟩ := h
  generalize next^[j] stroll = p at *
  have hstrides := hm (p.1.fetched p.1.opcode) hpc hfirst hsecond
  have hreads := reads_of_image_at hmemory hpc he.1 hi he.2
  have htaken := step_of_rolled hrun hreads hstrides.fetched (hroll p.2)
  have hmachine : (next^[j + 1] stroll).1 = ((p.1.fetched p.1.opcode).apply i 0).counted := by
    rw [hstep]
    exact congrArg Outcome.machine htaken
  refine ⟨?_, ?_, ?_, ?_, ?_, ?_⟩
  · rw [hmachine]
    exact hstrides.memory.trans hmemory
  · rw [hmachine]
    exact hstrides.run.trans hrun
  · rw [hmachine]
    exact hstrides.pc
  · rw [hmachine]
    exact hstrides.first
  · rw [hmachine]
    exact hstrides.second
  · rw [hwide, wideNext_of_reads hrun hreads (congrArg Outcome.failure? htaken)]

theorem toNat_skipTo (skip : Bool) (hpc : m.pc.toNat = 0x200 + k) (hk : k < 0x100) :
    (UInt16.ofNat (m.skipTo skip)).toNat = 0x200 + (k + if skip then 4 else 2) := by
  have hlt : m.skipTo skip < 2 ^ 16 := by
    simp only [skipTo, hpc]
    split <;> omega
  rw [UInt16.toNat_ofNat_of_lt' hlt, skipTo, hpc, Nat.add_assoc]

theorem strolls_zero : Strolls 0 0 0 0 0 :=
  ⟨rfl, rfl, rfl, rfl, rfl, rfl⟩

/-- The walk begins. -/
theorem strolls_two : Strolls 2 4 255 0 0x100 := by
  have hfirst : Strolls 1 2 255 0 0 := by
    refine strolls_zero.succ (i := .setByte 0 0xff) ⟨by decide, by decide⟩ (by decide)
      (fun _ => rfl) ?_
    intro m hpc hb hc
    exact ⟨rfl, rfl, rfl, toNat_skipTo false hpc (by decide),
      reg_setReg_self m (by decide) 255, (reg_setReg_of_ne m (by decide) 255).trans hc⟩
  refine hfirst.succ (i := .setIndex 0x100) (show 0x100 < 4096 by decide) (by decide)
    (fun _ => rfl) ?_
  intro m hpc hb hc
  exact ⟨rfl, rfl, rfl, toNat_skipTo false hpc (by decide), hb, hc⟩

/-- The index is moved, and that is counted. -/
theorem Strolls.add_two (h : Strolls j 4 255 c n) : Strolls (j + 2) 8 255 (c + 1) (n + 255) := by
  have hadd : Strolls (j + 1) 6 255 c (n + 255) := by
    have hwide : (next^[j] stroll).1.wideAfter n (.addIndex 0) = n + 255 := by
      rw [wideAfter, h.first]
      rfl
    rw [← hwide]
    refine h.succ (i := .addIndex 0) (show 0 < 16 by decide) (by decide) (fun _ => rfl) ?_
    intro m hpc hb hc
    exact ⟨rfl, rfl, rfl, toNat_skipTo false hpc (by decide), hb, hc⟩
  refine hadd.succ (i := .addByte 1 1) ⟨by decide, by decide⟩ (by decide) (fun _ => rfl) ?_
  intro m hpc hb hc
  have hbyte : Scalar.toByte ((m.reg 1).toNat + 1) = c + 1 := by
    rw [hc, Scalar.toByte_nat, UInt8.ofNat_add, UInt8.ofNat_toNat]
    rfl
  exact ⟨rfl, rfl, rfl, toNat_skipTo false hpc (by decide),
    (reg_setReg_of_ne m (by decide) _).trans hb, (reg_setReg_self m (by decide) _).trans hbyte⟩

theorem strides_skip (hpc : m.pc.toNat = 0x200 + 8) (hb : m.reg 0 = b) (hc : m.reg 1 = c) :
    Strides m (.skipIfByte 1 0) (if c = 0 then 12 else 10) b c := by
  have hholds : m.holds (.of 1) (0 : ℕ) = decide (c = 0) := by
    have hcompare : m.holds (.of 1) (0 : ℕ) = (some 0 == some (m.reg 1).toNat) := rfl
    rw [hcompare, hc, Bool.eq_iff_iff, beq_iff_eq, decide_eq_true_iff, Option.some.injEq, eq_comm]
    exact UInt8.toNat_inj (b := 0)
  refine ⟨rfl, rfl, rfl, ?_, hb, hc⟩
  change (UInt16.ofNat (m.skipTo (m.holds (.of 1) (0 : ℕ)))).toNat = _
  rw [hholds, toNat_skipTo _ hpc (by decide)]
  by_cases h : c = 0 <;> simp [h]

/-- The program goes round as long as not all 256 are counted. -/
theorem Strolls.add_four (h : Strolls j 4 255 c n) (hc : c + 1 ≠ 0) :
    Strolls (j + 4) 4 255 (c + 1) (n + 255) := by
  have hskip : Strolls (j + 3) 10 255 (c + 1) (n + 255) := by
    refine h.add_two.succ (i := .skipIfByte 1 0) ⟨by decide, by decide⟩ (by decide)
      (fun _ => rfl) ?_
    intro m hpc hb hc'
    have hstrides := strides_skip hpc hb hc'
    rwa [if_neg hc] at hstrides
  refine hskip.succ (i := .jump 0x204) (show 0x204 < 4096 by decide) (by decide) (fun _ => rfl) ?_
  intro m hpc hb hc
  exact ⟨rfl, rfl, rfl, rfl, hb, hc⟩

theorem strolls_rounds (hk : k < 256) :
    Strolls (2 + 4 * k) 4 255 (UInt8.ofNat k) (0x100 + 255 * k) := by
  induction k with
  | zero => exact strolls_two
  | succ k ih =>
    have hc : UInt8.ofNat k + 1 = UInt8.ofNat (k + 1) := (UInt8.ofNat_add k 1).symm
    have hne : UInt8.ofNat k + 1 ≠ 0 := by
      intro h
      have hzero := congrArg UInt8.toNat (hc.symm.trans h)
      rw [UInt8.toNat_ofNat_of_lt' hk] at hzero
      exact absurd hzero (Nat.succ_ne_zero k)
    have hsteps : 2 + 4 * (k + 1) = 2 + 4 * k + 4 := by omega
    have hwide : 0x100 + 255 * (k + 1) = 0x100 + 255 * k + 255 := by omega
    rw [hsteps, hwide, ← hc]
    exact (ih (by omega)).add_four hne

/-- At the end of the walk the program is to read at an index of 65536. -/
theorem strolls_end : Strolls 1025 12 255 0 0x10000 := by
  have hlast : Strolls 1022 4 255 255 0xff01 := strolls_rounds (k := 255) (by decide)
  refine hlast.add_two.succ (i := .skipIfByte 1 0) ⟨by decide, by decide⟩ (by decide)
    (fun _ => rfl) ?_
  intro m hpc hb hc
  exact strides_skip hpc hb hc

theorem stroll_eq : (powerOn .standard (some strollCartridge), Source.seeded 0) = stroll :=
  rfl

theorem reads_stroll : (next^[1025] stroll).1.Reads (.load 0) := by
  have hi : (Instruction.load 0).InRange := show 0 < 16 by decide
  exact reads_of_image_at strolls_end.memory strolls_end.pc (by decide) hi (by decide)

theorem beyond_iff_wideIndex_stroll :
    let q := next^[1025] stroll
    q.1.run = .running ∧ q.1.Reads (.load 0) ∧ 1 ≤ (Instruction.load 0).span ∧
      0xfff < wideIndex stroll 1025 ∧ q.1.index.toNat = 0 ∧
      ¬ ∃ f, (q.1.step q.2).failure? = some (.fault f) ∧ f.kind = "memory-out-of-bounds" := by
  have hstroll := beyond_iff_wideIndex .standard (some strollCartridge) (.seeded 0) 1025 (.load 0)
  simp only [stroll_eq, strolls_end.wide] at hstroll ⊢
  obtain ⟨hindex, hfails⟩ := hstroll strolls_end.run reads_stroll (by decide) (by decide)
  refine ⟨strolls_end.run, reads_stroll, by decide, by decide, hindex, ?_⟩
  rw [hfails]
  decide

/-- An index that is walked far enough comes back to the bottom of memory. -/
theorem not_beyond_stroll :
    ¬ ∀ (dialect : Dialect) (cartridge : Option Cartridge) (source : Source) (j : ℕ)
      (i : Instruction ℕ),
      let p := (powerOn dialect cartridge, source)
      let q := next^[j] p
      q.1.run = .running → q.1.Reads i → 1 ≤ i.span → 0xfff < wideIndex p j →
        ∃ f, (q.1.step q.2).failure? = some (.fault f) ∧ f.kind = "memory-out-of-bounds" := by
  intro h
  have hstroll := h .standard (some strollCartridge) (.seeded 0) 1025 (.load 0)
  simp only [stroll_eq, strolls_end.wide] at hstroll
  have hfails := hstroll strolls_end.run reads_stroll (by decide) (by decide)
  rw [fails_beyond_span_iff strolls_end.run reads_stroll (by decide), index_iterate,
    strolls_end.wide] at hfails
  exact absurd hfails (by decide)

end Machine

end Chip8
