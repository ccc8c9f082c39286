import Chip8.Proofs.Machine.KeyWait
import Chip8.Proofs.Machine.Sequence

/-! Subroutines: what is on the stack below a call stays there until the call returns, and the
return goes on behind the call. -/
namespace Chip8

namespace Stack

variable {s t : Stack} {a : UInt16} {base : List UInt16}

theorem eq_of_toList (h : s.toList = t.toList) : s = t := by
  obtain ⟨as, hs⟩ := s
  obtain ⟨bs, ht⟩ := t
  congr 1
  exact List.reverse_injective h

theorem prefix_push (h : base <+: s.toList) (a : UInt16) : base <+: (s.push a).toList := by
  by_cases hroom : s.depth < capacity
  · rw [toList_push hroom]
    exact h.trans (List.prefix_append _ _)
  · have hfull : s.push a = s := dif_neg hroom
    rwa [hfull]

/-- Taking an address off leaves the addresses below it. -/
theorem prefix_pop (h : base <+: s.toList) (hd : base.length ≤ s.pop.depth) :
    base <+: s.pop.toList := by
  rw [toList_pop]
  apply List.prefix_of_prefix_length_le h (List.dropLast_prefix _)
  rwa [← toList_pop, length_toList]

theorem toList_of_prefix (h : base <+: s.toList) (hd : s.depth = base.length) :
    s.toList = base := by
  apply (h.eq_of_length _).symm
  rw [length_toList, hd]

end Stack

namespace Machine

variable {m : Machine} {s : Source} {o : Outcome} {p q : Machine × Source} {e : Input}
  {es : List Input} {base : List UInt16} {nnn : ℕ}

/-- A step takes at most one address off the stack, or puts one on it. -/
def Stacked (before after : Stack) : Prop :=
  after = before ∨ after = before.pop ∨ ∃ a, after = before.push a

theorem stacked_after (m : Machine) (i : Instruction ℕ) : Stacked m.stack (m.stackAfter i) := by
  cases i with
  | ret => exact .inr (.inl rfl)
  | call nnn => exact .inr (.inr ⟨_, rfl⟩)
  | _ => exact .inl rfl

theorem Stepped.stacked (h : Stepped m s o) : Stacked m.stack o.machine.stack := by
  cases h with
  | polled =>
    rcases pollKey_cases m _ with hp | ⟨_, _, hp⟩
    · exact .inl (by rw [hp])
    · exact .inl (by rw [hp])
  | @unrolled i e => cases e <;> exact .inl rfl
  | @completed i roll =>
    have h := stacked_after (m.fetched m.opcode) i
    rwa [← stack_apply _ i roll] at h
  | _ => exact .inl rfl

theorem stacked_feed (p : Machine × Source) (e : Input) :
    Stacked p.1.stack (feed p e).1.stack := by
  cases e with
  | key x down =>
    simp only [feed, setKey]
    cases p.1.keypad.setKey x down <;> exact .inl rfl
  | releaseAll => exact .inl rfl
  | tick => exact .inl rfl
  | step => exact (stepped_step p.1 p.2).stacked

theorem prefix_feed (h : base <+: p.1.stack.toList) (hd : base.length ≤ (feed p e).1.stack.depth) :
    base <+: (feed p e).1.stack.toList := by
  rcases stacked_feed p e with hs | hs | ⟨a, hs⟩
  · rwa [hs]
  · rw [hs] at hd ⊢
    exact Stack.prefix_pop h hd
  · rw [hs]
    exact Stack.prefix_push h a

/-- What is on the stack at first stays at its bottom as long as the stack is never less deep. -/
theorem prefix_feedAll (h : base <+: p.1.stack.toList)
    (hd : ∀ ys, ys <+: es → base.length ≤ (feedAll p ys).1.stack.depth) :
    base <+: (feedAll p es).1.stack.toList := by
  induction es using List.reverseRecOn with
  | nil => exact h
  | append_singleton es e ih =>
    have hbefore := ih fun ys hys => hd ys (hys.trans (List.prefix_append _ _))
    have hdepth := hd (es ++ [e]) (List.prefix_refl _)
    rw [feedAll_concat] at hdepth ⊢
    exact prefix_feed hbefore hdepth

/-- The machine once a call has completed. -/
def called (m : Machine) (nnn : ℕ) : Machine :=
  { m with
    stack := m.stack.push (UInt16.ofNat m.returnAddress), pc := UInt16.ofNat nnn
    cycles := m.cycles + 1, lastPc := m.pc, lastOpcode := m.opcode }

/-- The machine once a return has completed. -/
def returned (m : Machine) : Machine :=
  { m with
    stack := m.stack.pop, pc := m.stack.top?.getD 0
    cycles := m.cycles + 1, lastPc := m.pc, lastOpcode := m.opcode }

theorem step_call (hr : m.run = .running) (hi : m.Reads (.call nnn)) (hroom : m.stack.depth < 16)
    (s : Source) : m.step s = ⟨none, m.called nnn, s⟩ := by
  have hf : m.fault? (.call nnn) = none := Stack.pushFault?_eq_none_iff.mpr hroom
  rw [step_of_rolled hr hi hf rfl]
  rfl

theorem step_ret (hr : m.run = .running) (hi : m.Reads .ret) (hd : m.stack.depth ≠ 0)
    (s : Source) : m.step s = ⟨none, m.returned, s⟩ := by
  have hf : m.fault? .ret = none := Stack.popFault?_eq_none_iff.mpr hd
  have hpc : UInt16.ofNat (m.stack.top?.getD 0).toNat = m.stack.top?.getD 0 := UInt16.ofNat_toNat
  rw [step_of_rolled hr hi hf rfl]
  simp only [apply, completed, counted, fetched, nextAddress, Scalar.ofNat_nat, hpc, returned]

/-- From a call on, the machine takes steps while keys come and go and the timers tick, always with
the call on its stack, up to a state `q` in which a return takes the stack back to the depth before
the call. Both complete, the program goes on behind the call, and the stack is the one before it. -/
theorem ret_behind_call (hr : m.run = .running) (hi : m.Reads (.call nnn))
    (hroom : m.stack.depth < 16) (hq : feedAll (next (m, s)) es = q)
    (hdeep : ∀ ys, ys <+: es → m.stack.depth + 1 ≤ (feedAll (next (m, s)) ys).1.stack.depth)
    (hqr : q.1.run = .running) (hqi : q.1.Reads .ret)
    (hback : (next q).1.stack.depth = m.stack.depth) :
    (m.step s).failure? = none ∧ (q.1.step q.2).failure? = none ∧
      (next q).1.pc.toNat = m.pc.toNat + 2 ∧ (next q).1.stack = m.stack := by
  have hcall := step_call hr hi hroom s
  have hstack : (next (m, s)).1.stack.toList =
      m.stack.toList ++ [UInt16.ofNat m.returnAddress] := by
    simp only [next, hcall, called]
    exact Stack.toList_push hroom _
  have hbottom : (next (m, s)).1.stack.toList <+: q.1.stack.toList := by
    rw [← hq]
    apply prefix_feedAll (List.prefix_refl _)
    simpa [hstack] using hdeep
  have hdepth : m.stack.depth + 1 ≤ q.1.stack.depth := by
    rw [← hq]
    exact hdeep es (List.prefix_refl _)
  have hret := step_ret hqr hqi (by omega) q.2
  -- the return takes off one address only, so it is the one that the call put there
  have htop : q.1.stack.toList = m.stack.toList ++ [UInt16.ofNat m.returnAddress] := by
    rw [← hstack]
    apply Stack.toList_of_prefix hbottom
    simp only [next, hret, returned, Stack.depth_pop] at hback
    simp only [hstack, List.length_append, List.length_singleton, Stack.length_toList]
    omega
  refine ⟨by rw [hcall], by rw [hret], ?_, ?_⟩
  · have hlt : m.pc.toNat + 2 < 2 ^ 16 := by
      have := hi.1
      omega
    simp only [next, hret, returned, Stack.top?_eq_getLast?, htop]
    simpa [returnAddress] using hlt
  · apply Stack.eq_of_toList
    simp only [next, hret, returned, Stack.toList_pop, htop, List.dropLast_concat]

/-- A program with a routine that calls another one. -/
def nested : Machine :=
  powerOn .standard
    (some ⟨#[0x22, 0x04, 0, 0, 0x22, 0x08, 0, 0xee, 0, 0xee], "nested", by decide, by decide⟩)

/-- The inner call and its return, with a key between them. -/
def inner : List Input :=
  [.step, .key 5 true, .step]

theorem ret_behind_call_nested :
    nested.run = .running ∧ nested.Reads (.call 0x204) ∧ nested.stack.depth < 16 ∧
      (∀ ys, ys <+: inner →
        nested.stack.depth + 1 ≤ (feedAll (next (nested, .seeded 0)) ys).1.stack.depth) ∧
      let q := feedAll (next (nested, .seeded 0)) inner
      q.1.run = .running ∧ q.1.Reads .ret ∧ (next q).1.stack.depth = nested.stack.depth ∧
        (next q).1.pc.toNat = nested.pc.toNat + 2 ∧ (next q).1.stack = nested.stack := by
  generalize hs : Source.seeded 0 = s
  let outer := nested.called 0x204
  let deepest := outer.called 0x208
  let pressed := { deepest with keypad := deepest.keypad.press 5 }
  have hcall : nested.Reads (.call 0x204) :=
    reads_of_image rfl rfl (show 0x204 < 4096 by decide) (by decide)
  have hinner : outer.Reads (.call 0x208) :=
    reads_of_image_at (k := 4) rfl rfl (by decide) (show 0x208 < 4096 by decide) (by decide)
  have hret : pressed.Reads .ret :=
    reads_of_image_at (k := 8) rfl rfl (by decide) trivial (by decide)
  have hlast : pressed.returned.Reads .ret :=
    reads_of_image_at (k := 6) rfl rfl (by decide) trivial (by decide)
  have h₁ : next (nested, s) = (outer, s) := by
    simp only [next, step_call (m := nested) rfl hcall (by decide)]
    rfl
  have h₂ : feed (outer, s) .step = (deepest, s) := by
    simp only [feed, step_call (m := outer) rfl hinner (by decide)]
    rfl
  have h₃ : feed (deepest, s) (.key 5 true) = (pressed, s) := rfl
  have h₄ : feed (pressed, s) .step = (pressed.returned, s) := by
    simp only [feed, step_ret (m := pressed) rfl hret (by decide)]
  have hq : feedAll (next (nested, s)) inner = (pressed.returned, s) := by
    simp only [feedAll, inner, List.foldl, h₁, h₂, h₃, h₄]
  have hdeep : ∀ ys, ys <+: inner →
      nested.stack.depth + 1 ≤ (feedAll (next (nested, s)) ys).1.stack.depth := by
    intro ys hys
    have hmem : ys ∈ inner.inits := (List.mem_inits _ _).mpr hys
    have hinits : inner.inits =
        [[], [.step], [.step, .key 5 true], [.step, .key 5 true, .step]] := rfl
    rw [hinits] at hmem
    simp only [List.mem_cons, List.not_mem_nil, or_false] at hmem
    rcases hmem with rfl | rfl | rfl | rfl <;>
      simp only [feedAll, List.foldl, h₁, h₂, h₃, h₄] <;> decide
  have hback : (next (pressed.returned, s)).1.stack.depth = nested.stack.depth := by
    simp only [next, step_ret (m := pressed.returned) rfl hlast (by decide)]
    decide
  rw [hq]
  obtain ⟨_, _, hpc, hstack⟩ :=
    ret_behind_call rfl hcall (by decide) hq hdeep rfl hlast hback
  exact ⟨rfl, hcall, by decide, hdeep, rfl, hlast, hback, hpc, hstack⟩

end Machine

end Chip8
