import Mathlib.Logic.Function.Basic
import Mathlib.Data.Nat.Notation

namespace Tanenbaum.Lib.Handshake

/-- Where a party stands: outside the lock, preparing its request, waiting to be
woken, or leaving with the token. -/
inductive Phase
  | outside
  | preparing
  | waiting
  | leaving
  deriving DecidableEq

/-- A handshake under a lock. The owner arms a waker and waits; the waker
disarms itself (it is then `waking`) and gives the token. -/
structure View (θ : Type*) where
  lock : Option θ
  phase : θ → Phase
  armed : Bool
  waking : Bool
  token : Bool

variable {θ : Type*}

inductive Step [DecidableEq θ] (v : View θ) : View θ → Prop
  | acquire (t : θ) (hlock : v.lock = none) (hphase : v.phase t = .outside) :
      Step v { v with lock := some t, phase := Function.update v.phase t .preparing }
  | arm (t : θ) (hphase : v.phase t = .preparing) :
      Step v { v with armed := true, phase := Function.update v.phase t .waiting }
  | disarm (harmed : v.armed = true) : Step v { v with armed := false, waking := true }
  | wake (hwaking : v.waking = true) : Step v { v with waking := false, token := true }
  | signal (harmed : v.armed = true) : Step v { v with armed := false, token := true }
  | consume (t : θ) (hphase : v.phase t = .waiting) (htoken : v.token = true) :
      Step v { v with token := false, phase := Function.update v.phase t .leaving }
  | release (t : θ) (hphase : v.phase t = .leaving) :
      Step v { v with lock := none, phase := Function.update v.phase t .outside }

theorem Step.of_eq [DecidableEq θ] {v w w' : View θ} (h : Step v w) (heq : w' = w) : Step v w' :=
  heq ▸ h

/-- How many signals the state of the lock calls for. -/
def demand (v : View θ) : ℕ :=
  match v.lock with
  | none => 0
  | some t => if v.phase t = .waiting then 1 else 0

/-- Only the owner of the lock is inside, and there is one signal for a waiting
owner and none otherwise. -/
structure Inv (v : View θ) : Prop where
  owner : ∀ t, v.phase t ≠ .outside ↔ v.lock = some t
  balance : v.armed.toNat + v.waking.toNat + v.token.toNat = demand v

variable {v v' : View θ} {t : θ}

theorem Inv.demand_eq (h : Inv v) (ht : v.phase t ≠ .outside) :
    demand v = if v.phase t = .waiting then 1 else 0 := by
  rw [demand, (h.owner t).mp ht]

theorem demand_le_one (v : View θ) : demand v ≤ 1 := by
  unfold demand
  split
  · exact Nat.zero_le 1
  · split <;> decide

theorem Inv.signals (h : Inv v) {a w k : Bool} (hsum : a.toNat + w.toNat + k.toNat = demand v) :
    Inv { v with armed := a, waking := w, token := k } := ⟨h.owner, hsum⟩

section Steps

variable [DecidableEq θ]

theorem Inv.owner_update (h : Inv v) {p : Phase} (ht : v.phase t ≠ .outside) (hp : p ≠ .outside)
    (u : θ) : Function.update v.phase t p u ≠ .outside ↔ v.lock = some u := by
  by_cases hu : u = t
  · subst hu
    rw [Function.update_self]
    exact iff_of_true hp ((h.owner u).mp ht)
  · rw [Function.update_of_ne hu]
    exact h.owner u

theorem demand_update {lock : Option θ} {p : Phase} (hlock : lock = some t) (a w k : Bool) :
    demand ⟨lock, Function.update v.phase t p, a, w, k⟩ = if p = .waiting then 1 else 0 := by
  simp only [demand, hlock, Function.update_self]

theorem Inv.step (h : Inv v) (hstep : Step v v') : Inv v' := by
  have hbalance := h.balance
  have hle := demand_le_one v
  cases hstep with
  | acquire t hlock hphase =>
    have hnone : ∀ u, v.phase u = .outside := fun u ↦ by
      by_contra hu
      exact absurd ((h.owner u).mp hu) (by simp [hlock])
    refine ⟨fun u ↦ ?_, ?_⟩
    · by_cases hu : u = t
      · subst hu
        simp
      · simp [Function.update_of_ne hu, hnone u, Ne.symm hu]
    · rw [demand_update rfl, if_neg (by decide)]
      rwa [demand, hlock] at hbalance
  | arm t hphase =>
    have ht : v.phase t ≠ .outside := by rw [hphase]; decide
    rw [h.demand_eq ht, hphase, if_neg (by decide)] at hbalance
    refine ⟨h.owner_update ht (by decide), ?_⟩
    rw [demand_update ((h.owner t).mp ht), if_pos rfl]
    simp only [Bool.toNat_true]
    omega
  | disarm harmed =>
    rw [harmed, Bool.toNat_true] at hbalance
    refine h.signals ?_
    rw [Bool.toNat_false, Bool.toNat_true]
    omega
  | wake hwaking =>
    rw [hwaking, Bool.toNat_true] at hbalance
    refine h.signals ?_
    rw [Bool.toNat_false, Bool.toNat_true]
    omega
  | signal harmed =>
    rw [harmed, Bool.toNat_true] at hbalance
    refine h.signals ?_
    rw [Bool.toNat_false, Bool.toNat_true]
    omega
  | consume t hphase htoken =>
    have ht : v.phase t ≠ .outside := by rw [hphase]; decide
    rw [h.demand_eq ht, hphase, if_pos rfl, htoken] at hbalance
    refine ⟨h.owner_update ht (by decide), ?_⟩
    rw [demand_update ((h.owner t).mp ht), if_neg (by decide)]
    simp only [Bool.toNat_true, Bool.toNat_false] at hbalance ⊢
    omega
  | release t hphase =>
    have ht : v.phase t ≠ .outside := by rw [hphase]; decide
    rw [h.demand_eq ht, hphase, if_neg (by decide)] at hbalance
    have hlock := (h.owner t).mp ht
    refine ⟨fun u ↦ ?_, ?_⟩
    · by_cases hu : u = t
      · subst hu
        simp
      · have hout : v.phase u = .outside := by
          by_contra hne
          exact hu (Option.some.inj ((hlock.symm.trans ((h.owner u).mp hne)).symm))
        simp [Function.update_of_ne hu, hout]
    · rw [demand]
      exact hbalance

end Steps

section Consequences

variable (h : Inv v)
include h

theorem Inv.quiet_of_unlocked (hlock : v.lock = none) :
    v.armed = false ∧ v.waking = false ∧ v.token = false := by
  have hbalance := h.balance
  rw [demand, hlock] at hbalance
  cases ha : v.armed <;> cases hw : v.waking <;> cases hk : v.token <;> simp_all

theorem Inv.quiet_of_phase (ht : v.phase t ≠ .outside) (hp : v.phase t ≠ .waiting) :
    v.armed = false ∧ v.waking = false ∧ v.token = false := by
  have hbalance := h.balance
  rw [h.demand_eq ht, if_neg hp] at hbalance
  cases ha : v.armed <;> cases hw : v.waking <;> cases hk : v.token <;> simp_all

/-- A signal is for the owner, who waits, and it is the only one. -/
theorem Inv.waiting_of_signal (hs : v.armed = true ∨ v.waking = true ∨ v.token = true) :
    ∃ t, v.lock = some t ∧ v.phase t = .waiting ∧
      v.armed.toNat + v.waking.toNat + v.token.toNat = 1 := by
  have hbalance := h.balance
  cases hlock : v.lock with
  | none =>
    have hquiet := h.quiet_of_unlocked hlock
    simp [hquiet] at hs
  | some t =>
    by_cases hp : v.phase t = .waiting
    · refine ⟨t, rfl, hp, ?_⟩
      rw [hbalance, demand, hlock]
      simp only [hp, if_true]
    · have hquiet := h.quiet_of_phase ((h.owner t).mpr hlock) hp
      simp [hquiet] at hs

theorem Inv.signal_of_waiting (ht : v.phase t = .waiting) :
    v.armed.toNat + v.waking.toNat + v.token.toNat = 1 := by
  have hin : v.phase t ≠ .outside := by rw [ht]; decide
  rw [h.balance, h.demand_eq hin, if_pos ht]

theorem Inv.only_armed (ha : v.armed = true) : v.waking = false ∧ v.token = false := by
  obtain ⟨-, -, -, hone⟩ := h.waiting_of_signal (.inl ha)
  cases hw : v.waking <;> cases hk : v.token <;> simp_all

theorem Inv.only_waking (hw : v.waking = true) : v.armed = false ∧ v.token = false := by
  obtain ⟨-, -, -, hone⟩ := h.waiting_of_signal (.inr (.inl hw))
  cases ha : v.armed <;> cases hk : v.token <;> simp_all

theorem Inv.only_token (hk : v.token = true) : v.armed = false ∧ v.waking = false := by
  obtain ⟨-, -, -, hone⟩ := h.waiting_of_signal (.inr (.inr hk))
  cases ha : v.armed <;> cases hw : v.waking <;> simp_all

end Consequences

end Tanenbaum.Lib.Handshake
