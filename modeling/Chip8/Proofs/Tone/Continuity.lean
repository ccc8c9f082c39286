import Chip8.Proofs.Number.Whole
import Chip8.Tone

/-! A wave that goes on from one stretch to the next, with silence in between. -/
namespace Chip8

namespace Tone

variable {t : Tone} {m n : ℕ} {x : Float}

/-- A call for so many samples, of the wave or of silence. -/
structure Call where
  count : Float
  active : Bool

/-- The count is one of 0, 1, 2, …. -/
def Call.Whole (c : Call) : Prop :=
  ∃ n : ℕ, Number.integer? c.count = some (n : ℤ)

/-- The count as a natural number. -/
def Call.size (c : Call) : ℕ :=
  ((Number.integer? c.count).getD 0).toNat

/-- Each call with the samples that come back from it. -/
def renderAll (t : Tone) : List Call → List (Call × Array Sample)
  | [] => []
  | c :: calls =>
    (c, (t.render (countOf c.count) c.active).1) ::
      (t.render (countOf c.count) c.active).2.renderAll calls

/-- The samples of the active calls, one behind the other. -/
def heard (outs : List (Call × Array Sample)) : List Sample :=
  (outs.filter (·.1.active)).flatMap (·.2.toList)

def activeSize (calls : List Call) : ℕ :=
  ((calls.filter Call.active).map Call.size).sum

theorem countOf_of_integer? (h : Number.integer? x = some (n : ℤ)) (hn : n < 2 ^ 31) :
    countOf x = n := by
  rw [countOf, Number.toSigned32, Number.toInt_of_integer? h,
    Int32.toInt_ofInt_of_le (by omega) (by omega), Int.toNat_natCast]

theorem Call.Whole.countOf_eq {c : Call} (h : c.Whole) (hc : c.size < 2 ^ 31) :
    countOf c.count = c.size := by
  obtain ⟨n, hn⟩ := h
  have hsize : c.size = n := by simp [Call.size, hn]
  rw [hsize] at hc ⊢
  exact countOf_of_integer? hn hc

/-- What is there already does not matter to the samples behind it. -/
theorem play_eq_append (n : ℕ) (t : Tone) (out : Array Sample) :
    play n t out = (out ++ (play n t #[]).1, (play n t #[]).2) := by
  induction n generalizing t out with
  | zero => simp [play_zero]
  | succ n ih =>
    rw [play_succ, play_succ, ih t.next (out.push t.sample), ih t.next (#[].push t.sample)]
    simp

theorem play_add (m n : ℕ) (t : Tone) (out : Array Sample) :
    play (m + n) t out = play n (play m t out).2 (play m t out).1 := by
  induction m generalizing t out with
  | zero => rw [Nat.zero_add, play_zero]
  | succ m ih => rw [Nat.succ_add_eq_add_succ, Nat.add_succ, play_succ, ih, play_succ]

theorem heard_cons (c : Call) (calls : List Call) (hc : countOf c.count = c.size) :
    heard (t.renderAll (c :: calls)) =
      if c.active then
        (play c.size t #[]).1.toList ++ heard ((play c.size t #[]).2.renderAll calls)
      else heard (t.renderAll calls) := by
  rw [renderAll, hc]
  cases hactive : c.active <;> simp [heard, render, hactive]

theorem activeSize_cons (c : Call) (calls : List Call) :
    activeSize (c :: calls) = if c.active then c.size + activeSize calls else activeSize calls := by
  cases hactive : c.active <;> simp [activeSize, hactive]

/-- The wave that an active call leaves is where the next active call goes on. -/
theorem heard_eq_play {calls : List Call} (hcalls : ∀ c ∈ calls, countOf c.count = c.size)
    (t : Tone) : heard (t.renderAll calls) = (play (activeSize calls) t #[]).1.toList := by
  induction calls generalizing t with
  | nil => rfl
  | cons c calls ih =>
    have hrest := ih fun c hc => hcalls c (by simp [hc])
    rw [heard_cons c calls (hcalls c (by simp)), activeSize_cons]
    split
    · rw [hrest, play_add, play_eq_append _ _ (play c.size t #[]).1, Array.toList_append]
    · exact hrest t

theorem mem_renderAll {calls : List Call} (hcalls : ∀ c ∈ calls, countOf c.count = c.size)
    {c : Call} {out : Array Sample} (h : (c, out) ∈ t.renderAll calls) (hc : c.active = false) :
    out = Array.replicate c.size 0 := by
  induction calls generalizing t with
  | nil => cases h
  | cons d calls ih =>
    rcases List.mem_cons.mp h with heq | hmem
    · obtain ⟨rfl, rfl⟩ := Prod.mk.inj heq
      rw [hc, hcalls c (by simp)]
      rfl
    · exact ih (fun c hc => hcalls c (by simp [hc])) hmem

theorem map_fst_renderAll (t : Tone) (calls : List Call) :
    (t.renderAll calls).map Prod.fst = calls := by
  induction calls generalizing t with
  | nil => rfl
  | cons c calls ih => rw [renderAll, List.map_cons, ih]

/-- A new wave is heard as one stretch, however it is cut into calls and whatever silence is in
between. Every call is answered in its turn, and silence is as many zeros as the call is for. -/
theorem heard_renderAll (sampleRate frequency volume : Float) {calls : List Call} {total : Float}
    (hwhole : ∀ c ∈ calls, c.Whole) (hsum : (calls.map Call.size).sum < 2 ^ 31)
    (htotal : Number.integer? total = some (activeSize calls : ℤ)) :
    let t := make sampleRate frequency volume
    (t.renderAll calls).map Prod.fst = calls ∧
      heard (t.renderAll calls) = (t.render (countOf total) true).1.toList ∧
      ∀ c out, (c, out) ∈ t.renderAll calls → c.active = false →
        out = Array.replicate c.size 0 := by
  intro t
  have hle (c : Call) (hc : c ∈ calls) : c.size ≤ (calls.map Call.size).sum :=
    List.le_sum_of_mem (List.mem_map_of_mem hc)
  have hcalls (c : Call) (hc : c ∈ calls) : countOf c.count = c.size :=
    (hwhole c hc).countOf_eq ((hle c hc).trans_lt hsum)
  have hactive : activeSize calls ≤ (calls.map Call.size).sum :=
    (List.filter_sublist.map Call.size).sum_le_sum (by simp)
  refine ⟨map_fst_renderAll t calls, ?_, fun c out h hc => mem_renderAll hcalls h hc⟩
  rw [countOf_of_integer? htotal (hactive.trans_lt hsum), heard_eq_play hcalls]
  rfl

/-- Four samples of a wave that has four in a period, with two of silence behind the first. -/
theorem heard_renderAll_split :
    let calls : List Call := [⟨1, true⟩, ⟨2, false⟩, ⟨3, true⟩]
    (∀ c ∈ calls, c.Whole) ∧ (calls.map Call.size).sum < 2 ^ 31 ∧
      Number.integer? 4 = some (activeSize calls : ℤ) ∧
      heard ((make 4 1 1).renderAll calls) =
        [0x3f800000, 0x3f800000, 0xbf800000, 0xbf800000] := by
  intro calls
  have hone : Number.integer? 1 = some ((1 : ℕ) : ℤ) := by decide +kernel
  have htwo : Number.integer? 2 = some ((2 : ℕ) : ℤ) := by decide +kernel
  have hthree : Number.integer? 3 = some ((3 : ℕ) : ℤ) := by decide +kernel
  have hwhole : ∀ c ∈ calls, c.Whole := by
    simp only [calls, List.forall_mem_cons]
    exact ⟨⟨1, hone⟩, ⟨2, htwo⟩, ⟨3, hthree⟩, by simp⟩
  have hsum : (calls.map Call.size).sum < 2 ^ 31 := by
    simp [calls, Call.size, hone, htwo, hthree]
  have htotal : Number.integer? 4 = some (activeSize calls : ℤ) := by decide +kernel
  obtain ⟨_, hheard, _⟩ := heard_renderAll 4 1 1 hwhole hsum htotal
  refine ⟨hwhole, hsum, htotal, hheard.trans ?_⟩
  decide +kernel

end Tone

end Chip8
