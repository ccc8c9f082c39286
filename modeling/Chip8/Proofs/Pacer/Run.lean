import Chip8.Proofs.Pacer.Calls

/-! Runs of a loop: starts, stops and timers in any order, at any readings of the clocks. -/
namespace Chip8.Pacer

variable {τ : Type} [Scalar τ] {p : Pacer τ}

/-- What reaches a loop from outside. A timer is named by its number, and one that is not pending
cannot run. Whatever is below the loop may be changed between two events. -/
inductive Action (τ : Type) where
  | start (t : Moment τ)
  | stop (t : Moment τ)
  | expire (t : Moment τ) (id : ℕ)
  | replace (runner : Runner)

/-- The reading of the clocks at an action. -/
def Action.moment? : Action τ → Option (Moment τ)
  | .start t => some t
  | .stop t => some t
  | .expire t _ => some t
  | .replace _ => none

def alarm? (p : Pacer τ) (id : ℕ) : Option (Alarm τ) :=
  p.pending.find? (·.id == id)

def act (p : Pacer τ) : Action τ → Pacer τ
  | .start t => p.start t
  | .stop t => (p.stop t).2
  | .expire t id =>
    match p.alarm? id with
    | some a => (p.fire t a).2
    | none => p
  | .replace runner => { p with runner }

def run (p : Pacer τ) (xs : List (Action τ)) : Pacer τ :=
  xs.foldl act p

theorem run_concat (p : Pacer τ) (xs : List (Action τ)) (x : Action τ) :
    p.run (xs ++ [x]) = (p.run xs).act x := by
  simp [run]

/-- The states in which frames begin, of at most so many frames that are due. -/
def frameStarts (t : Moment τ) : ℕ → Pacer τ → List (Pacer τ)
  | 0, _ => []
  | n + 1, p =>
    if p.nextAt ≤ t.now then
      p :: match p.runFrame t with
        | (.goOn, q) => frameStarts t n q.postpone
        | _ => []
    else []

/-- What each frame passes on to the next holds when the frames are over, unless one of them ends
them before. -/
theorem runDue_of {G : Pacer τ → Prop} {E : Verdict × Pacer τ → Prop} {t : Moment τ} {n : ℕ}
    (hp : G p) (done : ∀ q, G q → E (.goOn, q))
    (next : ∀ q ∈ frameStarts t n p, ∀ r, G q → q.runFrame t = (.goOn, r) → G r.postpone)
    (last : ∀ q ∈ frameStarts t n p, ∀ v r, G q → v ≠ .goOn → q.runFrame t = (v, r) → E (v, r)) :
    E (p.runDue t n) := by
  fun_induction runDue t n p with
  | case1 p => exact done p hp
  | case2 n p hd q hq ih =>
    have hs : frameStarts t (n + 1) p = p :: frameStarts t n q.postpone := by
      simp [frameStarts, hd, hq]
    rw [hs] at next last
    exact ih (next p (by simp) q hp hq)
      (fun r hr => next r (by simp [hr])) (fun r hr => last r (by simp [hr]))
  | case3 n p hd verdict q hv hq =>
    exact last p (by simp [frameStarts, hd]) verdict q hp hv hq
  | case4 n p hd => exact done p hp

/-- What each frame that goes on passes to the next holds in whatever state a frame begins. -/
theorem frameStarts_of {G : Pacer τ → Prop} {t : Moment τ} {n : ℕ} (hp : G p)
    (next : ∀ q r, G q → q.runFrame t = (.goOn, r) → G r.postpone) :
    ∀ q ∈ frameStarts t n p, G q := by
  induction n generalizing p with
  | zero => simp [frameStarts]
  | succ n ih =>
    intro q hq
    unfold frameStarts at hq
    split at hq
    · rcases List.mem_cons.mp hq with rfl | hq
      · exact hp
      · split at hq
        · rename_i r hr
          exact ih (next p r hp hr) q hq
        · simp at hq
    · simp at hq

theorem due_of_mem_frameStarts {t : Moment τ} {n : ℕ} {q : Pacer τ}
    (hq : q ∈ frameStarts t n p) : q.nextAt ≤ t.now := by
  induction n generalizing p with
  | zero => simp [frameStarts] at hq
  | succ n ih =>
    unfold frameStarts at hq
    split at hq
    · rename_i hd
      rcases List.mem_cons.mp hq with rfl | hq
      · exact hd
      · split at hq
        · exact ih hq
        · simp at hq
    · simp at hq

/-- A frame that does not go on is the last one. -/
theorem runDue_eq_of_last {t : Moment τ} {n : ℕ} {q r : Pacer τ} {v : Verdict}
    (hq : q ∈ frameStarts t n p) (hv : v ≠ .goOn) (hr : q.runFrame t = (v, r)) :
    p.runDue t n = (v, r) := by
  induction n generalizing p with
  | zero => simp [frameStarts] at hq
  | succ n ih =>
    unfold frameStarts at hq
    unfold runDue
    split at hq
    · rename_i hd
      simp only [hd, if_true]
      rcases List.mem_cons.mp hq with rfl | hq
      · rw [hr]
        cases v <;> simp_all
      · split at hq
        · rename_i s hs
          rw [hs]
          exact ih hq
        · simp at hq
    · simp at hq

/-- The states in which the frames of a timer begin. -/
def framesOf (p : Pacer τ) (t : Moment τ) (a : Alarm τ) : List (Pacer τ) :=
  if p.running then frameStarts t p.catchUp (p.take a) else []

theorem rearm_eq (p : Pacer τ) (t : Moment τ) :
    ∃ nextAt delay, p.rearm t = { p with nextAt }.arm t delay := by
  unfold rearm
  split
  · exact ⟨_, _, rfl⟩
  · exact ⟨p.nextAt, _, rfl⟩

theorem fire_of_not_running {t : Moment τ} {a : Alarm τ} (hr : p.running = false) :
    p.fire t a = (none, p.take a) := by
  have : (p.take a).running = false := hr
  simp [fire, this]

/-- What a timer of a loop that runs comes to, by what its frames come to. -/
theorem fire_of_runDue {t : Moment τ} {a : Alarm τ} {v : Verdict} {q : Pacer τ}
    (hr : p.running = true) (hd : (p.take a).runDue t p.catchUp = (v, q)) :
    p.fire t a =
      match v with
      | .goOn => (none, q.rearm t)
      | .stopped => (none, q)
      | .escaped failure => (some failure, q) := by
  have hr : (p.take a).running = true := hr
  have hc : (p.take a).catchUp = p.catchUp := rfl
  cases v <;> simp [fire, hr, hc, hd]

theorem framesOf_of_running {t : Moment τ} {a : Alarm τ} (hr : p.running = true) :
    p.framesOf t a = frameStarts t p.catchUp (p.take a) := by
  simp [framesOf, hr]

theorem running_of_mem_framesOf {t : Moment τ} {a : Alarm τ} {q : Pacer τ}
    (h : q ∈ p.framesOf t a) : p.running = true := by
  by_contra hr
  simp [framesOf, hr] at h

/-- The states in which the frames of an action begin. -/
def startsIn (p : Pacer τ) : Action τ → List (Pacer τ)
  | .expire t id =>
    match p.alarm? id with
    | some a => p.framesOf t a
    | none => []
  | _ => []

/-- The states in which the frames of a run begin. -/
def starts (p : Pacer τ) : List (Action τ) → List (Pacer τ)
  | [] => []
  | x :: xs => p.startsIn x ++ (p.act x).starts xs

theorem starts_concat (p : Pacer τ) (xs : List (Action τ)) (x : Action τ) :
    p.starts (xs ++ [x]) = p.starts xs ++ (p.run xs).startsIn x := by
  induction xs generalizing p with
  | nil => simp [starts, run]
  | cons y xs ih => simp [starts, run, ih]

/-! What lasts through whole runs. -/

/-- A property that no single move of a loop breaks, inside a frame or outside. -/
structure Abiding (P : Pacer τ → Prop) : Prop extends Showing P where
  noteFault : ∀ {p} (error : Failure) (frame? : Option Frame), P p → P (p.noteFault error frame?)
  plan : ∀ {p} (nextAt : τ), P p → P { p with nextAt }
  arm : ∀ {p} (t : Moment τ) (delay : τ), P p → P (p.arm t delay)
  take : ∀ {p} (a : Alarm τ), P p → P (p.take a)

namespace Abiding

variable {P : Pacer τ → Prop}

theorem fail (h : Abiding P) (t : Moment τ) (error : Failure) (frame? : Option Frame)
    (hp : P p) : P (p.fail t error frame?).2 := by
  have hs := h.stop t hp
  unfold Pacer.fail
  split
  · simp_all
  · rename_i q hq
    rw [hq] at hs
    exact h.react t _ (h.noteFault error frame? hs)

theorem runFrame (h : Abiding P) (t : Moment τ) (hp : P p) : P (p.runFrame t).2 := by
  have ht := h.tryFrame t hp
  unfold Pacer.runFrame
  split
  · rename_i error frame? q hq
    rw [hq] at ht
    exact h.fail t error frame? ht
  · rename_i q hq
    rwa [hq] at ht

theorem runDue (h : Abiding P) (t : Moment τ) (n : ℕ) (hp : P p) : P (p.runDue t n).2 := by
  apply runDue_of (G := P) (E := fun o => P o.2) hp
  · exact fun _ hq => hq
  · intro q _ r hq hr
    have hframe := h.runFrame t hq
    rw [hr] at hframe
    exact h.plan _ hframe
  · intro q _ v r hq _ hr
    have hframe := h.runFrame t hq
    rwa [hr] at hframe

theorem fire (h : Abiding P) (t : Moment τ) (a : Alarm τ) (hp : P p) : P (p.fire t a).2 := by
  have ht := h.take a hp
  cases hr : p.running with
  | false => rwa [fire_of_not_running hr]
  | true =>
    have hd := h.runDue t p.catchUp ht
    rcases hq : (p.take a).runDue t p.catchUp with ⟨v, q⟩
    rw [hq] at hd
    rw [fire_of_runDue hr hq]
    cases v with
    | goOn =>
      obtain ⟨nextAt, delay, hrearm⟩ := rearm_eq q t
      rw [hrearm]
      exact h.arm t delay (h.plan nextAt hd)
    | stopped => exact hd
    | escaped failure => exact hd

theorem act (h : Abiding P) (x : Action τ) (hp : P p) : P (p.act x) := by
  cases x with
  | start t => exact h.start t hp
  | stop t => exact h.stop t hp
  | expire t id =>
    simp only [Pacer.act]
    split
    · exact h.fire t _ hp
    · exact hp
  | replace runner => exact h.advance runner p.latest? hp

theorem run (h : Abiding P) (xs : List (Action τ)) (hp : P p) : P (p.run xs) := by
  induction xs using List.reverseRecOn with
  | nil => exact hp
  | append_singleton xs x ih =>
    rw [run_concat]
    exact h.act x ih

end Abiding

section Throughout

variable {I P : Pacer τ → Prop} {Bad : Pacer τ → Action τ → Prop} {xs : List (Action τ)}

theorem invariant_of_never (keeps : ∀ p x, I p → ¬ Bad p x → I (p.act x)) (hp : I p)
    (h : ∀ ys x, ys ++ [x] <+: xs → I (p.run ys) → ¬ Bad (p.run ys) x) :
    ∀ ys, ys <+: xs → I (p.run ys) := by
  intro ys
  induction ys using List.reverseRecOn with
  | nil => intro _; exact hp
  | append_singleton ys x ih =>
    intro hys
    have hi := ih ((List.prefix_append ys [x]).trans hys)
    rw [run_concat]
    exact keeps _ _ hi (h ys x hys hi)

/-- With an invariant that only bad actions break, and that they do break visibly, a property holds
all the time exactly if nothing bad happens. -/
theorem throughout_iff (sound : ∀ p, I p → P p) (keeps : ∀ p x, I p → ¬ Bad p x → I (p.act x))
    (breaks : ∀ p x, I p → Bad p x → ¬ P (p.act x)) (hp : I p) :
    (∀ ys, ys <+: xs → P (p.run ys)) ↔
      ∀ ys x, ys ++ [x] <+: xs → ¬ Bad (p.run ys) x := by
  constructor
  · intro h
    have never : ∀ ys x, ys ++ [x] <+: xs → I (p.run ys) → ¬ Bad (p.run ys) x := by
      intro ys x hys hi hb
      apply breaks _ _ hi hb
      rw [← run_concat]
      exact h _ hys
    intro ys x hys
    exact never ys x hys
      (invariant_of_never keeps hp never ys ((List.prefix_append ys [x]).trans hys))
  · intro h ys hys
    exact sound _ (invariant_of_never keeps hp (fun ys x hys _ => h ys x hys) ys hys)

end Throughout

/-! A small loop, for what may go wrong. -/

/-- A machine that sounds its buzzer while it waits for a key. -/
def waiting : Machine :=
  { (Machine.powerOn .standard
      (some ⟨#[0x60, 0x30, 0xf0, 0x18, 0xf0, 0x0a], "wait", by decide, by decide⟩)).setReg 0 0x30 with
    pc := 0x204
    timers := ⟨0, 0x30⟩
    run := .awaitingKey (.known ⟨0, by decide⟩)
    cycles := 3
    lastPc := 0x204
    lastOpcode := 0xf00a }

/-- One step in a frame, and a frame every ten milliseconds. -/
def sample (adapters : Adapters ℤ) : Pacer ℤ :=
  make (.make waiting (.seeded 0) (some 1) .record 0 false) adapters 10 4

/-- Started, and the first frame run. -/
def opening : List (Action ℤ) :=
  [.start ⟨0, 0⟩, .expire ⟨0, 0⟩ 0]

end Chip8.Pacer
