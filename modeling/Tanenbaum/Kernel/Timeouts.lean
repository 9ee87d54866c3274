import Tanenbaum.Kernel.Ticks

namespace Tanenbaum.Kernel.Timeouts

open Lib.Bytes Lib.Runs Lib.Epochs Lists Ticks

structure TimeOut where
  xOverflowCount : Word
  xTimeOnEntering : Word

/-- The kernel, and the local variables of the tasks that wait in it. -/
structure State (τ : Type) where
  kernel : Ticks.State τ
  xTimeOut : τ → TimeOut
  xTicksToWait : τ → Word
  xPreviousWakeTime : τ → Word
  xReturn : τ → Bool

/-- `setTimeOut`, `check` and `place` are what a blocking call of the queues does with time;
`tickCount` and `delayUntil` are a task with a period. -/
inductive Call (τ : Type)
  | kernel (l : Label τ)
  | setTimeOut (t : τ) (xTicksToWait : Word)
  | check (t : τ)
  | place (t : τ)
  | tickCount (t : τ)
  | delayUntil (t : τ) (xTimeIncrement : Word)

section Functions

variable {τ : Type}

def vTaskInternalSetTimeOutState (s : Ticks.State τ) : TimeOut :=
  ⟨s.xNumOfOverflows, s.xTickCount⟩

/-- The answer, and what becomes of `*pxTimeOut` and `*pxTicksToWait`. -/
def xTaskCheckForTimeOut (s : Ticks.State τ) (pxTimeOut : TimeOut) (pxTicksToWait : Word) :
    Bool × TimeOut × Word :=
  let xElapsedTime := s.xTickCount - pxTimeOut.xTimeOnEntering
  if pxTicksToWait = portMaxDelay then (false, pxTimeOut, pxTicksToWait)
  else if s.xNumOfOverflows ≠ pxTimeOut.xOverflowCount ∧
      s.xTickCount ≥ pxTimeOut.xTimeOnEntering then (true, pxTimeOut, 0)
  else if xElapsedTime < pxTicksToWait then
    (false, vTaskInternalSetTimeOutState s, pxTicksToWait - xElapsedTime)
  else (true, pxTimeOut, 0)

variable [DecidableEq τ]

/-- What `xTaskDelayUntil` does while it suspends the scheduler: `xShouldDelay`, the new
`*pxPreviousWakeTime`, and the kernel. -/
def xTaskDelayUntil (t : τ) (pxPreviousWakeTime xTimeIncrement : Word) (s : Ticks.State τ) :
    Bool × Word × Ticks.State τ :=
  let xConstTickCount := s.xTickCount
  let xTimeToWake := pxPreviousWakeTime + xTimeIncrement
  let xShouldDelay :=
    if xConstTickCount < pxPreviousWakeTime then
      decide (xTimeToWake < pxPreviousWakeTime) && decide (xTimeToWake > xConstTickCount)
    else decide (xTimeToWake < pxPreviousWakeTime) || decide (xTimeToWake > xConstTickCount)
  (xShouldDelay, xTimeToWake,
    if xShouldDelay then
      prvAddCurrentTaskToDelayedList t (xTimeToWake - xConstTickCount) false s
    else s)

def step (s : State τ) : Call τ → Option (State τ)
  | .kernel l => (Ticks.step s.kernel l).map fun kernel ↦ { s with kernel }
  | .setTimeOut t xTicksToWait => some { s with
      xTimeOut := Function.update s.xTimeOut t (vTaskInternalSetTimeOutState s.kernel)
      xTicksToWait := Function.update s.xTicksToWait t xTicksToWait }
  | .check t =>
    let checked := xTaskCheckForTimeOut s.kernel (s.xTimeOut t) (s.xTicksToWait t)
    some { s with
      xTimeOut := Function.update s.xTimeOut t checked.2.1
      xTicksToWait := Function.update s.xTicksToWait t checked.2.2
      xReturn := Function.update s.xReturn t checked.1 }
  | .place t => some { s with
      kernel := prvAddCurrentTaskToDelayedList t (s.xTicksToWait t) true s.kernel }
  | .tickCount t => some { s with
      xPreviousWakeTime := Function.update s.xPreviousWakeTime t s.kernel.xTickCount }
  | .delayUntil t xTimeIncrement =>
    let delayed := xTaskDelayUntil t (s.xPreviousWakeTime t) xTimeIncrement s.kernel
    -- `configASSERT( ( xTimeIncrement > 0U ) )`
    if xTimeIncrement = 0 then none else some { s with
      kernel := delayed.2.2
      xPreviousWakeTime := Function.update s.xPreviousWakeTime t delayed.2.1
      xReturn := Function.update s.xReturn t delayed.1 }

def init : State τ := ⟨Ticks.init, fun _ ↦ ⟨0, 0⟩, fun _ ↦ 0, fun _ ↦ 0, fun _ ↦ false⟩

end Functions

section Plan

/-- Ideal time, with the deadline of every wait (`none` for one without end), the time of its
last check, the wake time of every period, and the last answer. -/
structure Plan (τ : Type) where
  clock : Clock τ
  deadline : τ → Option ℕ
  since : τ → ℕ
  wakeTime : τ → ℕ
  answer : τ → Bool

variable {τ : Type} [DecidableEq τ]

/-- What a task sleeps for that waits for a deadline. -/
def Plan.sleep (p : Plan τ) (t : τ) : Sleep :=
  match p.deadline t with
  | none => .forever
  | some d => .till d

/-- A wait times out when its deadline has come, however often it was woken in between, and
every sleep is until that deadline. Callers see to it that there is at most one overflow from
one check to the next and that nobody sleeps without a check before; and that a task
with a period is not a whole epoch late. -/
def Plan.step (p : Plan τ) : Call τ → Option (Plan τ)
  | .kernel l => (p.clock.step l).map fun clock ↦ { p with clock }
  | .setTimeOut t n => some { p with
      deadline := Function.update p.deadline t
        (if n = portMaxDelay then none else some (p.clock.now + n.toNat))
      since := Function.update p.since t p.clock.now }
  | .check t =>
    match p.deadline t with
    | none => some { p with answer := Function.update p.answer t false }
    | some d =>
      if epoch 32 p.clock.now ≤ epoch 32 (p.since t) + 1 then
        some { p with
          answer := Function.update p.answer t (decide (d ≤ p.clock.now))
          since := if d ≤ p.clock.now then p.since
            else Function.update p.since t p.clock.now }
      else none
  | .place t =>
    if p.clock.sleep t = .awake ∧
        ∀ d ∈ p.deadline t, p.since t = p.clock.now ∧ p.clock.now < d then
      some { p with clock := p.clock.lay t (p.sleep t) }
    else none
  | .tickCount t => some { p with wakeTime := Function.update p.wakeTime t p.clock.now }
  | .delayUntil t n =>
    if p.clock.sleep t = .awake ∧ n ≠ 0 ∧ p.wakeTime t ≤ p.clock.now ∧
        p.clock.now < p.wakeTime t + 2 ^ 32 then
      let wake := p.wakeTime t + n.toNat
      some { p with
        clock := if p.clock.now < wake then p.clock.lay t (.till wake) else p.clock
        wakeTime := Function.update p.wakeTime t wake
        answer := Function.update p.answer t (decide (p.clock.now < wake)) }
    else none

def Plan.init : Plan τ := ⟨Clock.init, fun _ ↦ some 0, fun _ ↦ 0, fun _ ↦ 0, fun _ ↦ false⟩

end Plan

section Agrees

variable {τ : Type} {k : Ticks.State τ} {c c' : Clock τ} {now since : ℕ} {deadline : Option ℕ}
variable {timeOut : TimeOut} {n : Word}

/-- The local variables of a wait, for its deadline and the time of the last check. -/
def Waits (now : ℕ) (deadline : Option ℕ) (since : ℕ) (timeOut : TimeOut) (n : Word) : Prop :=
  match deadline with
  | none => n = portMaxDelay
  | some d => n ≠ portMaxDelay ∧ since ≤ now ∧
    timeOut = ⟨stamp 32 (epoch 32 since), stamp 32 since⟩ ∧
    (since + n.toNat = d ∨ n = 0 ∧ d ≤ now)

theorem Waits.later {now' : ℕ} (h : Waits now deadline since timeOut n) (hnow : now ≤ now') :
    Waits now' deadline since timeOut n := by
  cases deadline with
  | none => exact h
  | some d =>
    obtain ⟨hfinite, hsince, htimeOut, hrest⟩ := h
    exact ⟨hfinite, hsince.trans hnow, htimeOut, hrest.imp_right fun ⟨hn, hd⟩ ↦ ⟨hn, hd.trans hnow⟩⟩

/-- A wait that is checked times out when its deadline has come; else it goes on for the rest
of the time. -/
theorem Waits.check {d : ℕ} (h : Waits c.now (some d) since timeOut n) (hk : Follows k c)
    (hnear : epoch 32 c.now ≤ epoch 32 since + 1) :
    (xTaskCheckForTimeOut k timeOut n).1 = decide (d ≤ c.now) ∧
      Waits c.now (some d) (if d ≤ c.now then since else c.now)
        (xTaskCheckForTimeOut k timeOut n).2.1 (xTaskCheckForTimeOut k timeOut n).2.2 := by
  obtain ⟨hfinite, hsince, rfl, hrest⟩ := h
  have hcount := hk.tracks.count
  have hoverflows := hk.tracks.overflows
  have hlt := sub_lt_iff hsince hnear
  have hsame := stamp_epoch_eq_iff (by decide) hsince hnear
  have hzero : (0 : Word) ≠ portMaxDelay := by decide
  rw [xTaskCheckForTimeOut, if_neg hfinite, hcount, hoverflows]
  dsimp only
  by_cases hpassed : c.now - since < 2 ^ 32
  · have helapsed := toNat_stamp_sub hsince hpassed
    rw [if_neg (by rw [ne_eq, hsame, ge_iff_le, ← BitVec.not_lt]; tauto)]
    split
    · next hleft =>
      rw [BitVec.lt_def, helapsed] at hleft
      have hd : since + n.toNat = d := hrest.resolve_right fun ⟨hn, _⟩ ↦ by
        rw [hn] at hleft
        cases hleft
      have hleave : (n - (stamp 32 c.now - stamp 32 since)).toNat = d - c.now := by
        rw [BitVec.toNat_sub_of_le (by rw [BitVec.le_def, helapsed]; omega), helapsed]
        omega
      have hlate : ¬ d ≤ c.now := by omega
      rw [if_neg hlate]
      refine ⟨(decide_eq_false hlate).symm, ?_, Nat.le_refl _, ?_, .inl (by rw [hleave]; omega)⟩
      · intro hmax
        have hle := n.isLt
        have hn := BitVec.toNat_ne.mp hfinite
        dsimp only at hmax
        rw [hmax] at hleave
        change 2 ^ 32 - 1 = d - c.now at hleave
        change n.toNat ≠ 2 ^ 32 - 1 at hn
        omega
      · rw [vTaskInternalSetTimeOutState, hcount, hoverflows]
    · next hleft =>
      rw [BitVec.lt_def, helapsed] at hleft
      have hd : d ≤ c.now := by omega
      rw [if_pos hd]
      exact ⟨(decide_eq_true hd).symm, hzero, hsince, rfl, .inr ⟨rfl, hd⟩⟩
  · -- A whole epoch has passed, which is more than any wait.
    have hd : d ≤ c.now := by
      have hn := n.isLt
      omega
    rw [if_pos (by rw [ne_eq, hsame, ge_iff_le, ← BitVec.not_lt]; tauto), if_pos hd]
    exact ⟨(decide_eq_true hd).symm, hzero, hsince, rfl, .inr ⟨rfl, hd⟩⟩

/-- The tick of an ideal wake time is due when that time is still to come. -/
theorem delayUntil_should {prev : ℕ} (hprev : prev ≤ now) (hnear : now < prev + 2 ^ 32) (n : Word) :
    (if stamp 32 now < stamp 32 prev then
      decide (stamp 32 prev + n < stamp 32 prev) && decide (stamp 32 prev + n > stamp 32 now)
    else decide (stamp 32 prev + n < stamp 32 prev) || decide (stamp 32 prev + n > stamp 32 now)) =
      decide (now < prev + n.toNat) := by
  have hmono := epoch_mono (w := 32) hprev
  have hnow := epoch_add prev (BitVec.ofNat 32 (now - prev))
  have hwake := epoch_add prev n
  rw [BitVec.toNat_ofNat, Nat.mod_eq_of_lt (by omega), Nat.add_sub_cancel' hprev] at hnow
  rw [stamp_add]
  have hshow (m : ℕ) := epoch_stamp 32 m
  have hprevShow := hshow prev
  have hnowShow := hshow now
  have hwakeShow := hshow (prev + n.toNat)
  simp only [BitVec.lt_def, gt_iff_lt] at hnow hwake ⊢
  split at hnow <;> split at hwake
  all_goals
    simp only [*, if_true, if_false, decide_true, decide_false, Bool.true_and, Bool.false_and,
      Bool.true_or, Bool.false_or]
    first
    | exact decide_eq_decide.mpr (by omega)
    | exact (decide_eq_true (by omega)).symm
    | exact (decide_eq_false (by omega)).symm

variable [DecidableEq τ]

omit [DecidableEq τ] in
theorem now_advances (m : ℕ) (c : Clock τ) : (Clock.advance^[m] c).now = c.now + m := by
  induction m generalizing c with
  | zero => rfl
  | succ m ih =>
    rw [Function.iterate_succ_apply, ih, Nat.add_comm m, ← Nat.add_assoc]
    rfl

theorem step_now {l : Label τ} (h : c.step l = some c') : c.now ≤ c'.now := by
  cases l with
  | delay t n indefinitely =>
    obtain ⟨-, heq⟩ := Option.ite_none_right_eq_some.mp h
    obtain rfl := Option.some.inj heq
    exact Nat.le_refl _
  | event t =>
    obtain ⟨-, heq⟩ := Option.ite_none_right_eq_some.mp h
    obtain rfl := Option.some.inj heq
    split <;> exact Nat.le_refl _
  | tick =>
    rw [Clock.step] at h
    split at h
    · obtain rfl := Option.some.inj h
      exact Nat.le_succ _
    · obtain ⟨-, heq⟩ := Option.ite_none_right_eq_some.mp h
      obtain rfl := Option.some.inj heq
      exact Nat.le_refl _
  | suspendAll =>
    obtain rfl := Option.some.inj h
    exact Nat.le_refl _
  | resumeAll =>
    obtain ⟨-, h⟩ := Option.ite_none_left_eq_some.mp h
    split at h
    · obtain rfl := Option.some.inj h
      dsimp only
      rw [now_advances, (wakes_rest c.called _).1]
      exact Nat.le_add_right _ _
    · obtain rfl := Option.some.inj h
      exact Nat.le_refl _

/-- The local variables and the kernel agree with ideal time. -/
structure Agrees (s : State τ) (p : Plan τ) : Prop where
  follows : Follows s.kernel p.clock
  waits : ∀ t, Waits p.clock.now (p.deadline t) (p.since t) (s.xTimeOut t) (s.xTicksToWait t)
  wakes : ∀ t, s.xPreviousWakeTime t = stamp 32 (p.wakeTime t)
  answers : s.xReturn = p.answer

variable {s : State τ} {p p' : Plan τ} {t : τ}

omit [DecidableEq τ] in
theorem agrees_init : Agrees (init : State τ) Plan.init := by
  refine ⟨follows_init, fun t ↦ ?_, fun t ↦ rfl, rfl⟩
  refine ⟨show (0 : Word) ≠ portMaxDelay by decide, Nat.le_refl 0, ?_, .inl rfl⟩
  have hepoch : epoch 32 0 = 0 := Nat.zero_div _
  change TimeOut.mk 0 0 = ⟨stamp 32 (epoch 32 0), stamp 32 0⟩
  rw [hepoch]
  rfl

theorem Agrees.kernel {l : Label τ} (h : Agrees s p) (hp : p.step (.kernel l) = some p') :
    ∃ s', step s (.kernel l) = some s' ∧ Agrees s' p' := by
  obtain ⟨c, hc, rfl⟩ := Option.map_eq_some_iff.mp hp
  obtain ⟨k, hk, hfollows⟩ := h.follows.step l hc
  refine ⟨_, Option.map_eq_some_iff.mpr ⟨k, hk, rfl⟩, hfollows, fun t ↦ ?_, h.wakes, h.answers⟩
  exact (h.waits t).later (step_now hc)

theorem Agrees.setTimeOut (h : Agrees s p) (hp : p.step (.setTimeOut t n) = some p') :
    ∃ s', step s (.setTimeOut t n) = some s' ∧ Agrees s' p' := by
  obtain rfl := Option.some.inj hp
  refine ⟨_, rfl, h.follows, fun u ↦ ?_, h.wakes, h.answers⟩
  by_cases hu : u = t
  · subst hu
    simp only [Function.update_self]
    split
    · next hmax => exact hmax
    · next hfinite =>
      refine ⟨hfinite, Nat.le_refl _, ?_, .inl rfl⟩
      rw [vTaskInternalSetTimeOutState, h.follows.tracks.count, h.follows.tracks.overflows]
  · simp only [Function.update_of_ne hu]
    exact h.waits u

theorem Agrees.check (h : Agrees s p) (hp : p.step (.check t) = some p') :
    ∃ s', step s (.check t) = some s' ∧ Agrees s' p' := by
  have hwaits := h.waits t
  rw [Plan.step] at hp
  split at hp
  · next hnone =>
    obtain rfl := Option.some.inj hp
    rw [hnone] at hwaits
    have hmax : s.xTicksToWait t = portMaxDelay := hwaits
    have hchecked : xTaskCheckForTimeOut s.kernel (s.xTimeOut t) (s.xTicksToWait t) =
        (false, s.xTimeOut t, s.xTicksToWait t) := if_pos hmax
    refine ⟨_, rfl, h.follows, fun u ↦ ?_, h.wakes, ?_⟩
    · rw [hchecked]
      simp only [Function.update_eq_self]
      exact h.waits u
    · rw [hchecked, h.answers]
  · next d hsome =>
    obtain ⟨hnear, heq⟩ := Option.ite_none_right_eq_some.mp hp
    obtain rfl := Option.some.inj heq
    rw [hsome] at hwaits
    obtain ⟨hanswer, hwaits'⟩ := hwaits.check h.follows hnear
    refine ⟨_, rfl, h.follows, fun u ↦ ?_, h.wakes, ?_⟩
    · by_cases hu : u = t
      · subst hu
        have hsince : (if d ≤ p.clock.now then p.since
            else Function.update p.since u p.clock.now) u =
            if d ≤ p.clock.now then p.since u else p.clock.now := by
          split
          · rfl
          · exact Function.update_self ..
        simp only [Function.update_self, hsome, hsince]
        exact hwaits'
      · have hsince : (if d ≤ p.clock.now then p.since
            else Function.update p.since t p.clock.now) u = p.since u := by
          split
          · rfl
          · exact Function.update_of_ne hu ..
        simp only [Function.update_of_ne hu, hsince]
        exact h.waits u
    · rw [hanswer, h.answers]

/-- Whoever goes to sleep after a check sleeps until the deadline. -/
theorem Agrees.place (h : Agrees s p) (hp : p.step (.place t) = some p') :
    ∃ s', step s (.place t) = some s' ∧ Agrees s' p' := by
  obtain ⟨⟨hawake, hchecked⟩, heq⟩ := Option.ite_none_right_eq_some.mp hp
  obtain rfl := Option.some.inj heq
  have hwaits := h.waits t
  refine ⟨_, rfl, ?_, h.waits, h.wakes, h.answers⟩
  have hdelay : p.clock.step (.delay t (s.xTicksToWait t) true) =
      some (p.clock.lay t (p.sleep t)) := by
    rw [Clock.step, Clock.sleepFor, Plan.sleep]
    cases hdeadline : p.deadline t with
    | none =>
      rw [hdeadline] at hwaits
      have hmax : s.xTicksToWait t = portMaxDelay := hwaits
      rw [hmax, if_pos ⟨hawake, by decide⟩]
      rfl
    | some d =>
      rw [hdeadline] at hwaits
      obtain ⟨hfinite, -, -, hrest⟩ := hwaits
      obtain ⟨hsince, hlt⟩ := hchecked d hdeadline
      have hd : p.clock.now + (s.xTicksToWait t).toNat = d := by
        rcases hrest with hd | ⟨-, hd⟩
        · rw [← hsince]
          exact hd
        · omega
      have hpos : s.xTicksToWait t ≠ 0 := by
        intro hzero
        have hzero := congrArg BitVec.toNat hzero
        change (s.xTicksToWait t).toNat = 0 at hzero
        omega
      rw [if_pos ⟨hawake, hpos⟩, if_neg fun hmax ↦ hfinite hmax.1, hd]
  obtain ⟨k, hk, hfollows⟩ := h.follows.delay hdelay
  obtain rfl := Option.some.inj hk
  exact hfollows

theorem Agrees.tickCount (h : Agrees s p) (hp : p.step (.tickCount t) = some p') :
    ∃ s', step s (.tickCount t) = some s' ∧ Agrees s' p' := by
  obtain rfl := Option.some.inj hp
  refine ⟨_, rfl, h.follows, h.waits, fun u ↦ ?_, h.answers⟩
  by_cases hu : u = t
  · subst hu
    simp only [Function.update_self]
    exact h.follows.tracks.count
  · simp only [Function.update_of_ne hu]
    exact h.wakes u

/-- The wake times of a period do not drift, however late the calls come. -/
theorem Agrees.delayUntil (h : Agrees s p) (hp : p.step (.delayUntil t n) = some p') :
    ∃ s', step s (.delayUntil t n) = some s' ∧ Agrees s' p' := by
  obtain ⟨⟨hawake, hn, hprev, hnear⟩, heq⟩ := Option.ite_none_right_eq_some.mp hp
  obtain rfl := Option.some.inj heq
  have hwake : s.xPreviousWakeTime t + n = stamp 32 (p.wakeTime t + n.toNat) := by
    rw [h.wakes, stamp_add]
  have hshould := delayUntil_should hprev hnear n
  rw [← h.follows.tracks.count, ← h.wakes t] at hshould
  refine ⟨_, if_neg hn, ?_, fun u ↦ ?_, fun u ↦ ?_, ?_⟩
  · dsimp only [xTaskDelayUntil]
    rw [hshould]
    by_cases hlate : p.clock.now < p.wakeTime t + n.toNat
    · rw [if_pos (decide_eq_true hlate), if_pos hlate, hwake, h.follows.tracks.count]
      have hwait : (stamp 32 (p.wakeTime t + n.toNat) - stamp 32 p.clock.now).toNat =
          p.wakeTime t + n.toNat - p.clock.now := by
        have hlt := n.isLt
        exact toNat_stamp_sub (Nat.le_of_lt hlate) (by omega)
      have hpos : stamp 32 (p.wakeTime t + n.toNat) - stamp 32 p.clock.now ≠ 0 := by
        intro hzero
        have hzero := congrArg BitVec.toNat hzero
        rw [hwait] at hzero
        change _ = 0 at hzero
        omega
      have hdelay : p.clock.step (.delay t (stamp 32 (p.wakeTime t + n.toNat) -
          stamp 32 p.clock.now) false) =
          some (p.clock.lay t (.till (p.wakeTime t + n.toNat))) := by
        rw [Clock.step, if_pos ⟨hawake, hpos⟩, Clock.sleepFor,
          if_neg (fun hmax ↦ Bool.false_ne_true hmax.2), hwait,
          Nat.add_sub_cancel' (Nat.le_of_lt hlate)]
      obtain ⟨k, hk, hfollows⟩ := h.follows.delay hdelay
      obtain rfl := Option.some.inj hk
      exact hfollows
    · rw [if_neg (by rw [decide_eq_true_iff]; exact hlate), if_neg hlate]
      exact h.follows
  · have hnow : (if p.clock.now < p.wakeTime t + n.toNat then
        p.clock.lay t (.till (p.wakeTime t + n.toNat)) else p.clock).now = p.clock.now := by
      split <;> rfl
    dsimp only
    rw [hnow]
    exact h.waits u
  · by_cases hu : u = t
    · subst hu
      simp only [Function.update_self]
      exact hwake
    · simp only [Function.update_of_ne hu]
      exact h.wakes u
  · dsimp only [xTaskDelayUntil]
    rw [hshould, h.answers]

theorem Agrees.step (call : Call τ) (h : Agrees s p) (hp : p.step call = some p') :
    ∃ s', step s call = some s' ∧ Agrees s' p' := by
  cases call with
  | kernel l => exact h.kernel hp
  | setTimeOut t n => exact h.setTimeOut hp
  | check t => exact h.check hp
  | place t => exact h.place hp
  | tickCount t => exact h.tickCount hp
  | delayUntil t n => exact h.delayUntil hp

/-- Every answer is that of ideal time, and everyone who is asleep is on the lists until the
time at which ideal time would wake them. -/
theorem waits_keep_deadlines {calls : List (Call τ)} (hp : run Plan.step Plan.init calls = some p) :
    ∃ s, run step init calls = some s ∧ s.xReturn = p.answer ∧
      (∀ t, (t ∈ s.kernel.pxDelayedTaskList ∨ t ∈ s.kernel.pxOverflowDelayedTaskList) ↔
        ∃ d, p.clock.sleep t = .till d ∧ p.clock.now < d) ∧
      (∀ t, t ∈ s.kernel.xSuspendedTaskList ↔ p.clock.sleep t = .forever) ∧
      ∀ t d, p.deadline t = some d → p.clock.now < d →
        p.since t + (s.xTicksToWait t).toNat = d := by
  obtain ⟨s, hrun, h⟩ := run_simulates (fun _ _ call _ ↦ Agrees.step call) agrees_init hp
  refine ⟨s, hrun, h.answers, h.follows.asleep, h.follows.tracks.forever, fun t d hd hlt ↦ ?_⟩
  have hwaits := h.waits t
  rw [hd] at hwaits
  obtain ⟨-, -, -, hrest⟩ := hwaits
  exact hrest.resolve_right fun ⟨_, hle⟩ ↦ absurd hlt (Nat.not_lt_of_le hle)

/-- One waits for five ticks, is woken after two, and goes on waiting; another has a period of
four ticks and is three late. -/
def wokenEarly : List (Call Bool) :=
  [.setTimeOut false 5, .check false, .place false, .kernel .tick, .kernel .tick,
    .kernel (.event false), .check false, .place false, .kernel .tick, .kernel .tick,
    .kernel .tick, .check false, .kernel .tick, .kernel .tick, .delayUntil true 4,
    .delayUntil true 4]

theorem deadline_kept_when_woken_early : ∃ s, run step init wokenEarly = some s ∧
    s.xReturn false = true ∧
    (true ∈ s.kernel.pxDelayedTaskList ∨ true ∈ s.kernel.pxOverflowDelayedTaskList) := by
  obtain ⟨s, hrun, hanswer, hasleep, -⟩ :=
    waits_keep_deadlines (rfl : run Plan.step Plan.init wokenEarly = some _)
  exact ⟨s, hrun, congrFun hanswer false, (hasleep true).mpr ⟨8, rfl, Nat.lt_succ_self 7⟩⟩

end Agrees

end Tanenbaum.Kernel.Timeouts
