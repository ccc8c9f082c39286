import Chip8.Proofs.Machine.Index
import Chip8.Proofs.Machine.Registers

/-! Blocks of registers, written to memory and read back. -/
namespace Chip8.Machine

variable {m r t u : Machine} {s : Source} {o p : Outcome} {x y n : ℕ}

/-- The registers up to number `x` are written from the index on, and the index moves behind them
where the dialect says so. -/
structure Stored (m : Machine) (x : ℕ) (o : Outcome) : Prop where
  failure? : o.failure? = none
  memory : ∀ a, o.machine.memory.get a =
    if m.index.toNat ≤ a ∧ a ≤ m.index.toNat + x then m.reg (a - m.index.toNat)
    else m.memory.get a
  index : o.machine.index.toNat =
    if m.dialect.blocksMoveIndex then m.index.toNat + (x + 1) else m.index.toNat

/-- The registers up to number `x` are read from the index on, and no other one changes. The index
moves as it does when they are stored. -/
structure Loaded (m : Machine) (x : ℕ) (o : Outcome) : Prop where
  failure? : o.failure? = none
  loaded : ∀ k ≤ x, o.machine.reg k = m.memory.get (m.index.toNat + k)
  kept : ∀ k, x < k → o.machine.reg k = m.reg k
  memory : o.machine.memory = m.memory
  index : o.machine.index.toNat =
    if m.dialect.blocksMoveIndex then m.index.toNat + (x + 1) else m.index.toNat

theorem rangeFault?_eq_none {access : Access} (hhigh : m.index.toNat + (n + 1) ≤ Memory.size)
    (hlow : access = .write → Memory.programStart ≤ m.index.toNat) :
    m.rangeFault? (n + 1) access = none := by
  rw [rangeFault?, Memory.checkSpan_succ_eq_ok_iff.mpr ⟨hhigh, hlow⟩]

/-- An index that does not leave memory is not cut. -/
theorem index_apply_block {i : Instruction ℕ} (hi : i.InRange) (hblock : i = .store x ∨ i = .load x)
    (hhigh : m.index.toNat + (x + 1) ≤ Memory.size) (roll : UInt8) :
    (m.apply i roll).index.toNat =
      if m.dialect.blocksMoveIndex then m.index.toNat + (x + 1) else m.index.toNat := by
  have hwide : m.wideAfter m.index.toNat i =
      if m.dialect.blocksMoveIndex then m.index.toNat + (x + 1) else m.index.toNat := by
    rcases hblock with rfl | rfl <;> rfl
  have hsize : Memory.size = 0x1000 := rfl
  rw [index_apply hi (toNat_index_mod m), hwide]
  split <;> omega

theorem get_store_firstRegisters (m : Machine) (memory : Memory) (a b : ℕ)
    (hhigh : a + (x + 1) ≤ Memory.size) :
    (memory.store a (m.firstRegisters (x + 1))).get b =
      if a ≤ b ∧ b ≤ a + x then m.reg (b - a) else memory.get b := by
  have hlength : (m.firstRegisters (x + 1)).length = x + 1 := by simp [firstRegisters]
  split
  case isTrue hb =>
    have hin : a ≤ b ∧ b < Memory.size := by omega
    have hlt : b - a < x + 1 := by omega
    rw [Memory.get_store, if_pos hin]
    simp [firstRegisters, hlt]
  case isFalse hb =>
    apply Memory.get_store_of_outside
    omega

theorem stored_execute (hx : x < 16) (hlow : 0x200 ≤ m.index.toNat)
    (hhigh : m.index.toNat + (x + 1) ≤ 0x1000) (s : Source) :
    Stored m x (m.execute s (.store x)) := by
  have hi : (Instruction.store x).InRange := hx
  have hf : m.fault? (.store x) = none := rangeFault?_eq_none hhigh fun _ => hlow
  rw [execute_of_rolled hi hf rfl]
  refine ⟨rfl, fun a => ?_, index_apply_block hi (.inl rfl) hhigh 0⟩
  change (m.apply (.store x) 0).memory.get a = _
  rw [memory_apply]
  exact get_store_firstRegisters m m.memory _ a hhigh

theorem loaded_execute (hx : x < 16) (hhigh : m.index.toNat + (x + 1) ≤ 0x1000) (s : Source) :
    Loaded m x (m.execute s (.load x)) := by
  have hi : (Instruction.load x).InRange := hx
  have hf : m.fault? (.load x) = none := rangeFault?_eq_none hhigh fun h => nomatch h
  rw [execute_of_rolled hi hf rfl]
  refine ⟨rfl, fun k hk => ?_, fun k hk => ?_, memory_apply m _ 0,
    index_apply_block hi (.inr rfl) hhigh 0⟩
  · exact (reg_load m 0 x k).trans (if_pos ⟨hk, by omega⟩)
  · exact (reg_load m 0 x k).trans (if_neg (by omega))

/-- A block is read back from where it was stored, whatever the registers hold in between. -/
theorem Stored.loaded (h : Stored m x o) (hmemory : r.memory = o.machine.memory)
    (hindex : r.index = m.index) (hp : Loaded r x p) : ∀ k ≤ x, p.machine.reg k = m.reg k := by
  intro k hk
  rw [hp.loaded k hk, hmemory, hindex, h.memory, if_pos (by omega)]
  congr 1
  omega

/-- The registers of `m` up to number `x` and right behind them those of `r` up to number `y`, from
the index of `m` on, with the memory of `m` around them. -/
def SideBySide (m : Machine) (x : ℕ) (r : Machine) (y : ℕ) (memory : Memory) : Prop :=
  ∀ a, memory.get a =
    if m.index.toNat ≤ a ∧ a ≤ m.index.toNat + x then m.reg (a - m.index.toNat)
    else if m.index.toNat + (x + 1) ≤ a ∧ a ≤ m.index.toNat + (x + 1) + y then
      r.reg (a - (m.index.toNat + (x + 1)))
    else m.memory.get a

theorem Stored.sideBySide (h : Stored m x o) (hmove : m.dialect.blocksMoveIndex = true)
    (hmemory : r.memory = o.machine.memory) (hindex : r.index = o.machine.index)
    (hp : Stored r y p) : SideBySide m x r y p.machine.memory := by
  intro a
  have hstart : r.index.toNat = m.index.toNat + (x + 1) := by
    rw [hindex, h.index, if_pos hmove]
  rw [hp.memory, hmemory, h.memory, hstart]
  -- no address lies in both blocks
  split <;> split <;> first | rfl | omega

/-- The front block is still there when the one behind it is stored. -/
theorem SideBySide.loaded (h : SideBySide m x r y t.memory) (hindex : t.index = m.index)
    (hp : Loaded t x p) : ∀ k ≤ x, p.machine.reg k = m.reg k := by
  intro k hk
  rw [hp.loaded k hk, hindex, h, if_pos (by omega)]
  congr 1
  omega

/-- A block of registers that is stored in program space is read back into the same registers,
whatever has become of anything but the memory and the index in between. Where the index moves behind
a block, a second block that is stored there lies behind the first one, and two loads from where the
first one begins read back both. -/
theorem blocks_read_back (hx : x < 16) (hlow : 0x200 ≤ m.index.toNat)
    (hhigh : m.index.toNat + (x + 1) ≤ 0x1000) (s : Source) :
    let first := m.execute s (.store x)
    Stored m x first ∧
      (∀ r s, r.memory = first.machine.memory → r.index = m.index →
        let back := r.execute s (.load x)
        Loaded r x back ∧ ∀ k ≤ x, back.machine.reg k = m.reg k) ∧
      (m.dialect.blocksMoveIndex = true →
        ∀ y < 16, m.index.toNat + (x + 1) + (y + 1) ≤ 0x1000 →
          ∀ r s, r.memory = first.machine.memory → r.index = first.machine.index →
            let second := r.execute s (.store y)
            Stored r y second ∧ SideBySide m x r y second.machine.memory ∧
              ∀ t s, t.memory = second.machine.memory → t.index = m.index →
                t.dialect.blocksMoveIndex = true →
                  let front := t.execute s (.load x)
                  Loaded t x front ∧ (∀ k ≤ x, front.machine.reg k = m.reg k) ∧
                    ∀ u s, u.memory = front.machine.memory → u.index = front.machine.index →
                      let behind := u.execute s (.load y)
                      Loaded u y behind ∧ ∀ k ≤ y, behind.machine.reg k = r.reg k) := by
  intro first
  have hfirst : Stored m x first := stored_execute hx hlow hhigh s
  refine ⟨hfirst, ?_, ?_⟩
  · intro r s hmemory hindex
    have hback : Loaded r x (r.execute s (.load x)) := loaded_execute hx (by rwa [hindex]) s
    exact ⟨hback, hfirst.loaded hmemory hindex hback⟩
  · intro hmove y hy hroom r s hmemory hindex
    have hstart : r.index.toNat = m.index.toNat + (x + 1) := by
      rw [hindex, hfirst.index, if_pos hmove]
    have hsecond : Stored r y (r.execute s (.store y)) :=
      stored_execute hy (by omega) (by omega) s
    have hboth := hfirst.sideBySide hmove hmemory hindex hsecond
    refine ⟨hsecond, hboth, ?_⟩
    intro t s ht hti htmove
    have hfront : Loaded t x (t.execute s (.load x)) := loaded_execute hx (by rwa [hti]) s
    refine ⟨hfront, SideBySide.loaded (by rwa [ht]) hti hfront, ?_⟩
    intro u s hu hui
    have hbehind : u.index.toNat = r.index.toNat := by
      rw [hui, hfront.index, if_pos htmove, hti, hstart]
    have hback : Loaded u y (u.execute s (.load y)) := loaded_execute hy (by omega) s
    refine ⟨hback, hsecond.loaded ?_ (UInt16.toNat_inj.mp hbehind) hback⟩
    rw [hu, hfront.memory, ht]

/-- A machine whose index leaves room for all registers up to the end of memory. -/
def brimming : Machine :=
  { (powerOn .standard none).setReg 15 7 with index := 0xff0 }

/-- A machine that moves its index behind a block. -/
def moving : Machine :=
  { (powerOn { Dialect.standard with blocksMoveIndex := true } none).setReg 1 7 with index := 0x300 }

theorem blocks_read_back_brimming :
    ((15 < 16 ∧ 0x200 ≤ brimming.index.toNat ∧ brimming.index.toNat + (15 + 1) ≤ 0x1000) ∧
      let first := brimming.execute (.seeded 0) (.store 15)
      let wiped : Machine := { first.machine with registers := Vector.replicate 16 0 }
      let back := wiped.execute (.seeded 0) (.load 15)
      wiped.reg 15 = 0 ∧ first.machine.memory.get 0xfff = 7 ∧ Stored brimming 15 first ∧
        back.machine.reg 15 = 7 ∧ Loaded wiped 15 back) ∧
    (1 < 16 ∧ 0x200 ≤ moving.index.toNat ∧ moving.index.toNat + (1 + 1) ≤ 0x1000) ∧
      moving.dialect.blocksMoveIndex = true ∧
      let first := moving.execute (.seeded 0) (.store 1)
      let other : Machine := { first.machine with registers := Vector.replicate 16 9 }
      let second := other.execute (.seeded 0) (.store 2)
      let rewound : Machine :=
        { moving with memory := second.machine.memory, registers := Vector.replicate 16 0 }
      let front := rewound.execute (.seeded 0) (.load 1)
      let behind := front.machine.execute (.seeded 0) (.load 2)
      second.machine.memory.get 0x301 = 7 ∧ second.machine.memory.get 0x302 = 9 ∧
        front.machine.reg 1 = 7 ∧ front.machine.reg 2 = 0 ∧ behind.machine.reg 2 = 9 := by
  have hbounds : 15 < 16 ∧ 0x200 ≤ brimming.index.toNat ∧
      brimming.index.toNat + (15 + 1) ≤ 0x1000 := by decide
  have hroom : 1 < 16 ∧ 0x200 ≤ moving.index.toNat ∧ moving.index.toNat + (1 + 1) ≤ 0x1000 := by
    decide
  refine ⟨⟨hbounds, ?_⟩, hroom, rfl, ?_⟩
  · have hblocks := blocks_read_back hbounds.1 hbounds.2.1 hbounds.2.2 (.seeded 0)
    dsimp only at hblocks ⊢
    generalize brimming.execute (.seeded 0) (.store 15) = first at hblocks ⊢
    obtain ⟨hstored, hback, _⟩ := hblocks
    have hindex : first.machine.index = brimming.index := UInt16.toNat_inj.mp hstored.index
    have hseven : brimming.reg 15 = 7 := rfl
    obtain ⟨hloaded, hregs⟩ :=
      hback { first.machine with registers := Vector.replicate 16 0 } (.seeded 0) rfl hindex
    exact ⟨rfl, (hstored.memory 0xfff).trans hseven, hstored, (hregs 15 le_rfl).trans hseven,
      hloaded⟩
  · have hblocks := blocks_read_back hroom.1 hroom.2.1 hroom.2.2 (.seeded 0)
    dsimp only at hblocks ⊢
    generalize moving.execute (.seeded 0) (.store 1) = first at hblocks ⊢
    obtain ⟨hstored, _, htwo⟩ := hblocks
    obtain ⟨_, hboth, hread⟩ := htwo rfl 2 (by decide) (by decide)
      { first.machine with registers := Vector.replicate 16 9 } (.seeded 0) rfl rfl
    generalize Machine.execute { first.machine with registers := Vector.replicate 16 9 }
      (.seeded 0) (.store 2) = second at hboth hread ⊢
    obtain ⟨hfront, hregs, hlast⟩ := hread
      { moving with memory := second.machine.memory, registers := Vector.replicate 16 0 }
      (.seeded 0) rfl rfl rfl
    generalize Machine.execute { moving with
      memory := second.machine.memory, registers := Vector.replicate 16 0 }
      (.seeded 0) (.load 1) = front at hfront hregs hlast ⊢
    obtain ⟨_, hbehind⟩ := hlast front.machine (.seeded 0) rfl rfl
    have hseven : moving.reg 1 = 7 := rfl
    exact ⟨(hboth 0x301).trans hseven, hboth 0x302, (hregs 1 le_rfl).trans hseven,
      hfront.kept 2 (by decide), hbehind 2 le_rfl⟩

end Chip8.Machine
