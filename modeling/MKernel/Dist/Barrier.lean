import Mathlib.Algebra.Order.BigOperators.Ring.Finset
import MKernel.Core.SmallNumbers
import MKernel.Core.System
import MKernel.Core.Tally

/-!
# Device Barriers

The barrier buffer the GPUs of one node share, and the barrier built from it.

A slot has one replica on each device. `signal_all` is a multimem reduction,
one increment sent to all replicas, which reach the replicas separately and at
any time; `signal` sends one to a single replica. A slot is therefore a tally
for each replica, with the increments each device has on their way to it.

`barrier_all` signals all replicas, spins until its own replica *equals*
`LOCAL_SIZE`, and subtracts `LOCAL_SIZE` from it again. `World` runs it on
every device any number of times on one slot: a device is `outside`, `waiting`
in the spin loop or past it and `resetting`, and `round` counts the calls it
has returned from.

Two things are asked of it. That no device leaves a call before every device
has entered the same call holds of every run (`entered_of_left`): a replica
that reads `LOCAL_SIZE` accounts for one signal of every device since its last
reset. That no device waits on a replica which has passed `LOCAL_SIZE` does
not: a device that leaves may enter its next call while another still spins,
and its increment then makes the other's replica `LOCAL_SIZE + 1`
(`overtaken_total`), where it stays. It holds of the runs in which no device
enters a call while another is still waiting in the previous one.

## Main definitions

* `Slot`: One barrier slot, a tally for each replica.
* `signal`, `signalAll`: Sending an increment to one replica, or to each.
* `land`: An increment reaches a replica.
* `ready`, `readyMc`: The tests of `wait` and `wait_mc`.
* `World`, `step`: Devices calling `barrier_all` on one slot.
* `Unovertaken`: No device enters while another waits in the previous call.
* `LeavesTogether`, `Passed`: What the barrier promises.

## Theorems

* `conserved_of_reaches`: A replica's total is the calls entered, less its resets.
* `entered_of_left`: No device leaves a call that some device has not entered.
* `passed_persists`: A wait whose replica has passed never ends.
* `overtaken_total`: A device that is overtaken has too much on its replica.
* `barrier_all_reuse`: In unovertaken runs both promises hold.
* `barrier_all_passed`: A device overtaken by the other's second call.
-/

namespace MKernel

namespace Dist

open MKernel.Core

variable {L : Nat}

/-- One slot of the barrier buffer: a replica on each device. -/
abbrev Slot (L : Nat) := Fin L → Tally (Fin L)

namespace Slot

/-- A slot of a zeroed buffer. -/
def zeroed : Slot L := fun _ => Tally.empty

/-- `signal` from device `dev`: one increment to the replica of `dst`. -/
def signal (b : Slot L) (dev dst : Fin L) : Slot L :=
  fun j => if j = dst then (b j).post dev else b j

/-- `signal_all` from device `dev`: one increment to every replica. -/
def signalAll (b : Slot L) (dev : Fin L) : Slot L := fun j => (b j).post dev

/-- An increment of device `dev` reaches the replica of `dst`. -/
def land (b : Slot L) (dev dst : Fin L) : Option (Slot L) :=
  ((b dst).land dev).map (fun t => fun j => if j = dst then t else b j)

/-- An addition made to a device's replica on the spot. -/
def addAt (b : Slot L) (dst : Fin L) (z : Int) : Slot L :=
  fun j => if j = dst then (b j).add z else b j

/-- The test of `wait`: the loop ends when the replica equals `expected`. -/
def ready (b : Slot L) (dev : Fin L) (expected : Int) : Bool := (b dev).value == expected

/-- The test of `wait_mc`: the loop ends when the maximum over all replicas
    equals `expected`. -/
def readyMc (b : Slot L) (expected : Int) : Bool :=
  decide ((∀ j, (b j).value ≤ expected) ∧ ∃ j, (b j).value = expected)

theorem ready_iff (b : Slot L) (dev : Fin L) (expected : Int) :
    b.ready dev expected = true ↔ (b dev).value = expected := by
  rw [ready, beq_iff_eq]

theorem total_signalAll (b : Slot L) (dev j : Fin L) :
    (b.signalAll dev j).total = (b j).total + 1 := Tally.total_post _ _

/-- Landing leaves every replica's total and lowers no replica's value. -/
theorem land_spec {b c : Slot L} {dev dst : Fin L} (h : b.land dev dst = some c) (j : Fin L) :
    (c j).total = (b j).total ∧ (b j).value ≤ (c j).value := by
  rcases Option.map_eq_some_iff.mp h with ⟨t, ht, rfl⟩
  by_cases hj : j = dst
  · subst hj
    dsimp only
    rw [if_pos rfl]
    have hvalue := (Tally.land_spec ht).2.1
    exact ⟨Tally.total_land ht, by omega⟩
  · dsimp only
    rw [if_neg hj]
    exact ⟨rfl, le_refl _⟩

theorem total_addAt (b : Slot L) (dst j : Fin L) (z : Int) :
    (b.addAt dst z j).total = (b j).total + if j = dst then z else 0 := by
  by_cases hj : j = dst
  · rw [addAt, if_pos hj, if_pos hj, Tally.total_add]
  · rw [addAt, if_neg hj, if_neg hj, add_zero]

theorem addAt_ne (b : Slot L) {dst j : Fin L} (z : Int) (h : j ≠ dst) :
    b.addAt dst z j = b j := by
  rw [addAt, if_neg h]

end Slot

namespace BarrierAll

/-- Where a device stands in `barrier_all`. -/
inductive Pc where
  | outside
  | waiting
  | resetting
deriving DecidableEq, Repr

/-- A device, and how many calls it has returned from. -/
structure Device where
  pc : Pc
  round : Nat
deriving DecidableEq

/-- How many calls the device has entered: it has sent their signals. -/
def Device.entered (d : Device) : Nat :=
  match d.pc with
  | .outside => d.round
  | .waiting => d.round + 1
  | .resetting => d.round + 1

/-- How many calls the device has left: their waits are over. -/
def Device.left (d : Device) : Nat :=
  match d.pc with
  | .outside => d.round
  | .waiting => d.round
  | .resetting => d.round + 1

/-- The devices of a node and the slot they synchronise on. -/
structure World (L : Nat) where
  device : Fin L → Device
  slot : Slot L

/-- What can happen next. -/
inductive Action (L : Nat) where
  /-- A device calls `barrier_all` and signals all replicas. -/
  | enter (i : Fin L)
  /-- A signal of device `i` reaches the replica of `j`. -/
  | land (i j : Fin L)
  /-- A device loads its replica once in the spin loop. -/
  | load (i : Fin L)
  /-- A device takes `LOCAL_SIZE` off its replica and returns. -/
  | reset (i : Fin L)
deriving DecidableEq

/-- All devices outside, the buffer zeroed. -/
def init : World L := { device := fun _ => { pc := .outside, round := 0 }, slot := Slot.zeroed }

/-- Replace one device. -/
def World.setDevice (w : World L) (i : Fin L) (d : Device) : World L :=
  { w with device := fun j => if j = i then d else w.device j }

/-- One step of the devices and the increments on their way. -/
def step (w : World L) : Action L → Option (World L)
  | .enter i =>
    match (w.device i).pc with
    | .outside =>
      some ({ w with slot := w.slot.signalAll i }.setDevice i
        { w.device i with pc := .waiting })
    | _ => none
  | .land i j => (w.slot.land i j).map (fun b => { w with slot := b })
  | .load i =>
    match (w.device i).pc with
    | .waiting =>
      if w.slot.ready i L then some (w.setDevice i { w.device i with pc := .resetting })
      else some w
    | _ => none
  | .reset i =>
    match (w.device i).pc with
    | .resetting =>
      some ({ w with slot := w.slot.addAt i (-L) }.setDevice i
        { pc := .outside, round := (w.device i).round + 1 })
    | _ => none

/-- No device enters a call while another is waiting in an earlier one. -/
def Unovertaken (w : World L) : Action L → Prop
  | .enter i => ∀ j, (w.device j).pc = .waiting →
      (w.device j).entered = (w.device i).entered + 1
  | _ => True

instance : ∀ (w : World L) (a : Action L), Decidable (Unovertaken w a)
  | w, .enter i => inferInstanceAs (Decidable (∀ j, (w.device j).pc = .waiting →
      (w.device j).entered = (w.device i).entered + 1))
  | _, .land _ _ => isTrue trivial
  | _, .load _ => isTrue trivial
  | _, .reset _ => isTrue trivial

/-- No device has left a call that some device has not entered. -/
def LeavesTogether (w : World L) : Prop :=
  ∀ i j, (w.device i).left ≤ (w.device j).entered

/-- A device waits on a replica that has passed the awaited count. -/
def Passed (w : World L) (i : Fin L) : Prop :=
  (w.device i).pc = .waiting ∧ (L : Int) < (w.slot i).value

instance (w : World L) (i : Fin L) : Decidable (Passed w i) :=
  inferInstanceAs (Decidable (_ ∧ _))

/-! ## One step -/

section Setters

variable (w : World L) (i j : Fin L) (d : Device)

@[simp] theorem setDevice_slot : (w.setDevice i d).slot = w.slot := rfl

theorem setDevice_device :
    (w.setDevice i d).device j = if j = i then d else w.device j := rfl

@[simp] theorem setDevice_self : (w.setDevice i d).device i = d := if_pos rfl

theorem setDevice_ne {i j : Fin L} (h : j ≠ i) : (w.setDevice i d).device j = w.device j :=
  if_neg h

end Setters

theorem Device.left_le_entered (d : Device) : d.left ≤ d.entered := by
  rcases d with ⟨pc, round⟩
  cases pc with
  | outside => exact le_refl _
  | waiting => exact Nat.le_succ _
  | resetting => exact le_refl _

theorem Device.entered_le (d : Device) : d.entered ≤ d.left + 1 := by
  rcases d with ⟨pc, round⟩
  cases pc with
  | outside => exact Nat.le_succ _
  | waiting => exact le_refl _
  | resetting => exact Nat.le_succ _

/-- What each action requires and does. -/
theorem step_spec {w u : World L} {a : Action L} (h : step w a = some u) :
    (∃ i, a = .enter i ∧ (w.device i).pc = .outside ∧
      u = { w with slot := w.slot.signalAll i }.setDevice i
        { w.device i with pc := .waiting }) ∨
    (∃ i j b, a = .land i j ∧ w.slot.land i j = some b ∧ u = { w with slot := b }) ∨
    (∃ i, a = .load i ∧ (w.device i).pc = .waiting ∧ (w.slot i).value ≠ L ∧ u = w) ∨
    (∃ i, a = .load i ∧ (w.device i).pc = .waiting ∧ (w.slot i).value = L ∧
      u = w.setDevice i { w.device i with pc := .resetting }) ∨
    (∃ i, a = .reset i ∧ (w.device i).pc = .resetting ∧
      u = { w with slot := w.slot.addAt i (-L) }.setDevice i
        { pc := .outside, round := (w.device i).round + 1 }) := by
  cases a with
  | enter i =>
      cases hpc : (w.device i).pc with
      | outside =>
          simp only [step, hpc, Option.some.injEq] at h
          exact Or.inl ⟨i, rfl, hpc, h.symm⟩
      | waiting => simp only [step, hpc, reduceCtorEq] at h
      | resetting => simp only [step, hpc, reduceCtorEq] at h
  | land i j =>
      rcases Option.map_eq_some_iff.mp h with ⟨b, hb, hu⟩
      exact Or.inr (Or.inl ⟨i, j, b, rfl, hb, hu.symm⟩)
  | load i =>
      cases hpc : (w.device i).pc with
      | outside => simp only [step, hpc, reduceCtorEq] at h
      | waiting =>
          simp only [step, hpc] at h
          -- The loop ends only when the count is the number of devices.
          by_cases hready : w.slot.ready i L = true
          · rw [if_pos hready, Option.some.injEq] at h
            exact Or.inr (Or.inr (Or.inr (Or.inl
              ⟨i, rfl, hpc, (Slot.ready_iff _ _ _).mp hready, h.symm⟩)))
          · rw [if_neg hready, Option.some.injEq] at h
            exact Or.inr (Or.inr (Or.inl
              ⟨i, rfl, hpc, fun hv => hready ((Slot.ready_iff _ _ _).mpr hv), h.symm⟩))
      | resetting => simp only [step, hpc, reduceCtorEq] at h
  | reset i =>
      cases hpc : (w.device i).pc with
      | outside => simp only [step, hpc, reduceCtorEq] at h
      | waiting => simp only [step, hpc, reduceCtorEq] at h
      | resetting =>
          simp only [step, hpc, Option.some.injEq] at h
          exact Or.inr (Or.inr (Or.inr (Or.inr ⟨i, rfl, hpc, h.symm⟩)))

/-! ## Conservation -/

/-- What is on a replica and on its way to it: one for each call a device has
    entered, less `LOCAL_SIZE` for each call its owner has returned from. -/
def Conserved (w : World L) : Prop :=
  ∀ j, (w.slot j).total =
    (∑ i, ((w.device i).entered : Int)) - L * ((w.device j).round : Int)

/-- Replacing one device changes the number of calls entered by that device's. -/
theorem sum_entered_setDevice (w : World L) (i : Fin L) (d : Device) :
    (∑ j, (((w.setDevice i d).device j).entered : Int)) =
      (∑ j, ((w.device j).entered : Int)) + d.entered - (w.device i).entered := by
  -- A sum with one term exchanged.
  rw [← Tally.sum_update (fun j => (w.device j).entered) i d.entered]
  refine Finset.sum_congr rfl (fun j _ => ?_)
  rw [setDevice_device]
  by_cases hj : j = i
  · rw [if_pos hj, if_pos hj]
  · rw [if_neg hj, if_neg hj]

theorem conserved_step {w u : World L} {a : Action L} (hc : Conserved w)
    (h : step w a = some u) : Conserved u := by
  intro k
  have hk := hc k
  rcases step_spec h with ⟨i, -, hpc, rfl⟩ | ⟨i, j, b, -, hb, rfl⟩ | ⟨i, -, -, -, rfl⟩ |
    ⟨i, -, hpc, -, rfl⟩ | ⟨i, -, hpc, rfl⟩
  · -- Every replica's total and the number of calls entered rise by one.
    have hround : ((({ w with slot := w.slot.signalAll i } : World L).setDevice i
        { w.device i with pc := .waiting }).device k).round = (w.device k).round := by
      rw [setDevice_device]
      by_cases hki : k = i
      · rw [if_pos hki, hki]
      · rw [if_neg hki]
    have hold : (w.device i).entered = (w.device i).round := by
      simp only [Device.entered, hpc]
    rw [hround, setDevice_slot, Slot.total_signalAll, sum_entered_setDevice, hk, hold]
    simp only [Device.entered]
    push_cast
    omega
  · rw [(Slot.land_spec hb k).1]
    exact hk
  · exact hk
  · have hround : ((w.setDevice i { w.device i with pc := .resetting }).device k).round =
        (w.device k).round := by
      rw [setDevice_device]
      by_cases hki : k = i
      · rw [if_pos hki, hki]
      · rw [if_neg hki]
    have hold : (w.device i).entered = (w.device i).round + 1 := by
      simp only [Device.entered, hpc]
    rw [hround, setDevice_slot, sum_entered_setDevice, hk, hold]
    simp only [Device.entered]
    omega
  · -- The replica loses `LOCAL_SIZE` and its owner has one more call behind it.
    have hold : (w.device i).entered = (w.device i).round + 1 := by
      simp only [Device.entered, hpc]
    rw [setDevice_slot, sum_entered_setDevice, Slot.total_addAt, hk, hold, setDevice_device]
    simp only [Device.entered]
    by_cases hki : k = i
    · rw [if_pos hki, if_pos hki, hki]
      push_cast
      rw [mul_add, mul_one]
      omega
    · rw [if_neg hki, if_neg hki]
      omega

/-- A replica's total is the calls entered less its resets, in every run. -/
theorem conserved_of_reaches {w : World L} (h : Reaches step always init w) : Conserved w := by
  refine invariant_of_reaches Conserved (fun s a t hs _ hst => conserved_step hs hst) h ?_
  intro j
  have hentered : ∀ i : Fin L, ((init (L := L)).device i).entered = 0 := fun _ => rfl
  have hround : ((init (L := L)).device j).round = 0 := rfl
  have htotal : ((init (L := L)).slot j).total = 0 := Tally.total_empty
  simp only [hentered, hround, htotal, Nat.cast_zero, Finset.sum_const_zero, mul_zero, sub_zero]

/-! ## No device leaves early -/

/-- What a step does to the calls entered and left. -/
theorem counts_step {w u : World L} {a : Action L} (h : step w a = some u) :
    (∃ i, a = .enter i ∧ (∀ j, (u.device j).left = (w.device j).left) ∧
      (∀ j, (u.device j).entered = (w.device j).entered + if j = i then 1 else 0) ∧
      ∀ j, (u.device j).pc = .waiting → j = i ∨ (w.device j).pc = .waiting) ∨
    (∃ i, (w.device i).pc = .waiting ∧ (w.slot i).value = L ∧
      (∀ j, (u.device j).left = (w.device j).left + if j = i then 1 else 0) ∧
      (∀ j, (u.device j).entered = (w.device j).entered) ∧
      ∀ j, (u.device j).pc = .waiting → (w.device j).pc = .waiting) ∨
    ((∀ j, (u.device j).left = (w.device j).left) ∧
      (∀ j, (u.device j).entered = (w.device j).entered) ∧
      ∀ j, (u.device j).pc = .waiting → (w.device j).pc = .waiting) := by
  rcases step_spec h with ⟨i, rfl, hpc, rfl⟩ | ⟨i, j, b, -, -, rfl⟩ | ⟨i, -, -, -, rfl⟩ |
    ⟨i, -, hpc, hvalue, rfl⟩ | ⟨i, -, hpc, rfl⟩
  · -- A device that enters has entered one call more.
    refine Or.inl ⟨i, rfl, fun j => ?_, fun j => ?_, fun j => ?_⟩
    all_goals
      by_cases hj : j = i
      · subst hj
        simp [Device.left, Device.entered, hpc]
      · simp [setDevice_ne _ _ hj, hj]
  · exact Or.inr (Or.inr ⟨fun _ => rfl, fun _ => rfl, fun _ hj => hj⟩)
  · exact Or.inr (Or.inr ⟨fun _ => rfl, fun _ => rfl, fun _ hj => hj⟩)
  · -- One that has seen the full count has left the call, even if the reset is still to come.
    refine Or.inr (Or.inl ⟨i, hpc, hvalue, fun j => ?_, fun j => ?_, fun j => ?_⟩)
    all_goals
      by_cases hj : j = i
      · subst hj
        simp [Device.left, Device.entered, hpc]
      · simp [setDevice_ne _ _ hj, hj]
  · refine Or.inr (Or.inr ⟨fun j => ?_, fun j => ?_, fun j => ?_⟩)
    all_goals
      by_cases hj : j = i
      · subst hj
        simp [Device.left, Device.entered, hpc]
      · simp [setDevice_ne _ _ hj]

/-- A device enters from outside, with all its calls behind it. -/
theorem entered_of_enter {w u : World L} {i : Fin L} (h : step w (.enter i) = some u) :
    (w.device i).entered = (w.device i).round := by
  cases hpc : (w.device i).pc with
  | outside => simp only [Device.entered, hpc]
  | waiting => simp only [step, hpc, reduceCtorEq] at h
  | resetting => simp only [step, hpc, reduceCtorEq] at h

/-- If no device has entered more than `n` calls, they have entered at most
    `L * n` together. -/
theorem sum_entered_le {w : World L} {n : Nat} (h : ∀ i, (w.device i).entered ≤ n) :
    (∑ i, ((w.device i).entered : Int)) ≤ L * (n : Int) := by
  calc (∑ i, ((w.device i).entered : Int))
      ≤ ∑ _i : Fin L, (n : Int) := Finset.sum_le_sum (fun i _ => by exact_mod_cast h i)
    _ = L * (n : Int) := by rw [Finset.sum_const, Finset.card_univ, Fintype.card_fin, nsmul_eq_mul]

/-- If every device has entered at least `n` calls, they have entered at least
    `L * n` together. -/
theorem le_sum_entered {w : World L} {n : Nat} (h : ∀ i, n ≤ (w.device i).entered) :
    L * (n : Int) ≤ ∑ i, ((w.device i).entered : Int) := by
  calc L * (n : Int) = ∑ _i : Fin L, (n : Int) := by
        rw [Finset.sum_const, Finset.card_univ, Fintype.card_fin, nsmul_eq_mul]
    _ ≤ ∑ i, ((w.device i).entered : Int) :=
        Finset.sum_le_sum (fun i _ => by exact_mod_cast h i)

/-- If one of them has entered fewer than `n`, they have entered fewer than
    `L * n` together. -/
theorem sum_entered_lt {w : World L} {n : Nat} (h : ∀ i, (w.device i).entered ≤ n) (j : Fin L)
    (hj : (w.device j).entered < n) : (∑ i, ((w.device i).entered : Int)) < L * (n : Int) := by
  calc (∑ i, ((w.device i).entered : Int))
      < ∑ _i : Fin L, (n : Int) :=
        Finset.sum_lt_sum (fun i _ => by exact_mod_cast h i)
          ⟨j, Finset.mem_univ j, by exact_mod_cast hj⟩
    _ = L * (n : Int) := by rw [Finset.sum_const, Finset.card_univ, Fintype.card_fin, nsmul_eq_mul]

/-- A replica that reads `LOCAL_SIZE` accounts for one signal of every device
    since its last reset. -/
theorem entered_of_ready {w : World L} (hc : Conserved w) (hl : LeavesTogether w) {i : Fin L}
    (hvalue : (w.slot i).value = L) (j : Fin L) :
    (w.device i).round < (w.device j).entered := by
  by_contra hlt
  -- Otherwise the signals are fewer than the owner has waited for since the beginning.
  have hall : ∀ k, (w.device k).entered ≤ (w.device i).round + 1 := by
    intro k
    have hk := (w.device k).entered_le
    have hkj := hl k j
    omega
  have hsum := sum_entered_lt hall j (by omega)
  have htotal := hc i
  have hle := (w.slot i).value_le_total
  push_cast at hsum
  rw [mul_add, mul_one] at hsum
  omega

theorem leavesTogether_step {w u : World L} {a : Action L} (hc : Conserved w)
    (hl : LeavesTogether w) (h : step w a = some u) : LeavesTogether u := by
  intro i j
  have hij := hl i j
  rcases counts_step h with ⟨k, -, hleft, hentered, -⟩ |
    ⟨k, hpc, hvalue, hleft, hentered, -⟩ | ⟨hleft, hentered, -⟩
  · rw [hleft i, hentered j]
    omega
  · rw [hleft i, hentered j]
    by_cases hik : i = k
    · subst hik
      -- Leaving takes a signal of every device.
      have hready := entered_of_ready hc hl hvalue j
      have hround : (w.device i).left = (w.device i).round := by
        simp only [Device.left, hpc]
      rw [if_pos rfl, hround]
      omega
    · rw [if_neg hik]
      omega
  · rw [hleft i, hentered j]
    exact hij

/-- No device leaves its `k`-th call before every device has entered its
    `k`-th, in any run. -/
theorem entered_of_left {w : World L} (h : Reaches step always init w) : LeavesTogether w := by
  refine (invariant_of_reaches (fun w => Conserved w ∧ LeavesTogether w)
    (fun s a t hs _ hst => ⟨conserved_step hs.1 hst, leavesTogether_step hs.1 hs.2 hst⟩) h
    ⟨conserved_of_reaches (reaches_refl _ _ _), fun _ _ => le_refl _⟩).2

/-! ## Waits that never end -/

/-- No device has entered more calls than one that is waiting. -/
def Level (w : World L) : Prop :=
  ∀ i, (w.device i).pc = .waiting → ∀ j, (w.device j).entered ≤ (w.device i).entered

theorem level_step {w u : World L} {a : Action L} (hl : LeavesTogether w) (hlevel : Level w)
    (hok : Unovertaken w a) (h : step w a = some u) : Level u := by
  intro i hi j
  rcases counts_step h with ⟨k, rfl, -, hentered, hwait⟩ | ⟨k, -, -, -, hentered, hwait⟩ |
    ⟨-, hentered, hwait⟩
  · rw [hentered i, hentered j]
    -- The entering device is level with those it waits with.
    have hjk : (w.device j).entered ≤ (w.device k).entered + 1 :=
      le_trans (w.device j).entered_le (Nat.succ_le_succ (hl j k))
    by_cases hik : i = k
    · rw [hik]
      by_cases hj : j = k
      · rw [hj]
      · rw [if_neg hj, if_pos rfl]
        exact hjk
    · have hpc : (w.device i).pc = .waiting := (hwait i hi).resolve_left hik
      have heq : (w.device i).entered = (w.device k).entered + 1 := hok i hpc
      rw [if_neg hik]
      by_cases hj : j = k
      · rw [hj, if_pos rfl, heq]
      · rw [if_neg hj]
        exact hlevel i hpc j
  · rw [hentered i, hentered j]
    exact hlevel i (hwait i hi) j
  · rw [hentered i, hentered j]
    exact hlevel i (hwait i hi) j

/-- A device no one is ahead of has not missed its count. -/
theorem not_passed_of_level {w : World L} (hc : Conserved w) (hlevel : Level w) (i : Fin L) :
    ¬ Passed w i := by
  rintro ⟨hpc, hvalue⟩
  have hentered : (w.device i).entered = (w.device i).round + 1 := by
    simp only [Device.entered, hpc]
  -- All signals together are no more than one for each device and call.
  have hsum := sum_entered_le (hlevel i hpc)
  have htotal := hc i
  have hle := (w.slot i).value_le_total
  rw [hentered] at hsum
  push_cast at hsum
  rw [mul_add, mul_one] at hsum
  omega

/-- Only its owner takes anything off a replica, so a wait whose replica has
    passed the count never ends. -/
theorem passed_persists {w u : World L} {a : Action L} {i : Fin L} (hp : Passed w i)
    (h : step w a = some u) : Passed u i := by
  rcases hp with ⟨hpc, hvalue⟩
  rcases step_spec h with ⟨k, -, hk, rfl⟩ | ⟨k, j, b, -, hb, rfl⟩ | ⟨k, -, -, -, rfl⟩ |
    ⟨k, -, hk, hkv, rfl⟩ | ⟨k, -, hk, rfl⟩
  · refine ⟨?_, hvalue⟩
    by_cases hik : i = k
    · rw [hik, setDevice_self]
    · rw [setDevice_ne _ _ hik]
      exact hpc
  · exact ⟨hpc, lt_of_lt_of_le hvalue (Slot.land_spec hb i).2⟩
  · exact ⟨hpc, hvalue⟩
  · -- Who sees the count is not a device that has missed it.
    have hik : i ≠ k := by
      rintro rfl
      omega
    exact ⟨by rw [setDevice_ne _ _ hik]; exact hpc, hvalue⟩
  · -- And who resets is not waiting.
    have hik : i ≠ k := by
      rintro rfl
      rw [hpc] at hk
      exact absurd hk (by simp only [reduceCtorEq, not_false_eq_true])
    refine ⟨by rw [setDevice_ne _ _ hik]; exact hpc, ?_⟩
    change (L : Int) < (w.slot.addAt k (-L) i).value
    rw [Slot.addAt_ne _ _ hik]
    exact hvalue

/-- When a device enters while another waits in an earlier call, the replica of
    the other has more than `LOCAL_SIZE` on it or on its way. -/
theorem overtaken_total {w u : World L} {i j : Fin L} (hc : Conserved w)
    (hl : LeavesTogether w) (h : step w (.enter i) = some u)
    (hj : (w.device j).pc = .waiting) (hne : (w.device j).entered ≠ (w.device i).entered + 1) :
    (L : Int) < (u.slot j).total := by
  rcases step_spec h with ⟨k, heq, hk, rfl⟩ | ⟨_, _, _, heq, -⟩ | ⟨_, heq, -⟩ | ⟨_, heq, -⟩ |
    ⟨_, heq, -⟩
  · rw [Action.enter.injEq] at heq
    subst heq
    have hleft : (w.device i).left = (w.device i).entered := by
      simp only [Device.left, Device.entered, hk]
    have hround : (w.device j).entered = (w.device j).round + 1 := by
      simp only [Device.entered, hj]
    -- The waiting device is in the call the entering one has just left.
    have hsame : (w.device i).entered = (w.device j).round + 1 := by
      have hij := hl i j
      have hji := hl j i
      have hle := (w.device j).entered_le
      omega
    have hsum : (L : Int) * ((w.device j).round + 1 : Nat) ≤ ∑ k, ((w.device k).entered : Int) :=
      le_sum_entered (fun k => by
        have hik := hl i k
        omega)
    have htotal := hc j
    change (L : Int) < (w.slot.signalAll i j).total
    rw [Slot.total_signalAll, htotal]
    push_cast at hsum
    rw [mul_add, mul_one] at hsum
    omega
  all_goals exact absurd heq (by simp only [reduceCtorEq, not_false_eq_true])

/-- In every run in which no device enters a call while another is waiting in
    an earlier one, no device leaves before all have entered and no wait has
    missed its count. -/
theorem barrier_all_reuse {w : World L} (h : Reaches step Unovertaken init w) :
    LeavesTogether w ∧ ∀ i, ¬ Passed w i := by
  have hall : Conserved w ∧ LeavesTogether w ∧ Level w := by
    refine invariant_of_reaches (fun w => Conserved w ∧ LeavesTogether w ∧ Level w) ?_ h
      ⟨conserved_of_reaches (reaches_refl _ _ _), fun _ _ => le_refl _, ?_⟩
    · rintro s a t ⟨hc, hl, hlevel⟩ hok hst
      exact ⟨conserved_step hc hst, leavesTogether_step hc hl hst, level_step hl hlevel hok hst⟩
    · intro i hi
      exact absurd hi (by simp only [init, reduceCtorEq, not_false_eq_true])
  exact ⟨hall.2.1, not_passed_of_level hall.1 hall.2.2⟩

/-- Two devices, two calls each: device `0` leaves its first call and enters
    its second while device `1` still spins in its first. -/
def overtaking : List (Action 2) :=
  [.enter 0, .enter 1, .land 0 0, .land 1 0, .land 0 1, .load 0, .land 1 1, .reset 0, .enter 0,
    .land 0 1]

/-- A device overtaken by the other's second call waits on a replica that has
    passed the count. -/
theorem barrier_all_passed :
    ∃ w : World 2, Reaches step always init w ∧ ∃ i, Passed w i :=
  ⟨(run step always overtaking init).get (by decide +kernel),
    reaches_of_run _ _ _ (Option.some_get _).symm, 1, by decide +kernel⟩

/-- Two devices, two calls each, the second after both have returned. -/
def inTurn : List (Action 2) :=
  [.enter 0, .enter 1, .land 0 0, .land 1 0, .land 0 1, .load 0, .land 1 1, .reset 0, .load 1,
    .enter 0, .land 0 1, .reset 1, .enter 1, .land 1 0]

theorem barrier_all_reuse_inTurn : ∃ w : World 2, Reaches step Unovertaken init w ∧
    (∀ i, (w.device i).round = 1 ∧ (w.device i).pc = .waiting) ∧
    LeavesTogether w ∧ ∀ i, ¬ Passed w i :=
  have h : Reaches step Unovertaken init
      ((run step Unovertaken inTurn init).get (by decide +kernel)) :=
    reaches_of_run _ _ _ (Option.some_get _).symm
  ⟨_, h, by decide +kernel, barrier_all_reuse h⟩

end BarrierAll

end Dist

end MKernel
