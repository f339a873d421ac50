import MKernel.AgGemm.Signals
import MKernel.Core.Custody
import MKernel.Core.SmallNumbers
import MKernel.Core.Strided
import MKernel.Dist.Barrier

/-!
# The Reset at the End of an Iteration

The end of an `ag_gemm` iteration on the GPUs of a node: the CTAs of a GPU meet, and zero
the barrier slots of their GPU, and one thread of one CTA meets the other GPUs.

A signal of a task reaches the replicas of the GPUs separately. When the CTAs of a GPU have
met, its own tasks are done and its compute CTAs have seen every slot that is signalled at
its full number. So all signals of the iteration have arrived by then (`inv_see`), and none
arrives after it.

The slots to zero are shared out over the threads of all CTAs. The first thread calls
`barrier_all` when its own share is zeroed. Then the other GPUs may begin the next
iteration, and signal in it, while other threads still zero. If the call is made with all
shares zeroed, no signal of the next iteration is erased (`reset_before_signals`). Otherwise
one may be (`late_reset_erases`).

## Main definitions

* `Gpu`: The iteration of a GPU, what it has signalled and seen, and how far it has zeroed.
* `World`, `step`: The GPUs, the signals on their way, and those counted on a slot.
* `WorkDone`, `AllZeroed`: When the CTAs have met, and when all shares are zeroed.
* `Gated`: The barrier is entered with all shares zeroed.
* `Erases`, `Late`: A step zeroes a signal of a later iteration, or one arrives late.
* `Inv`: What every gated step keeps.

## Theorems

* `inv_step`: What every step keeps.
* `reset_before_signals`: In gated runs nothing is erased, and nothing is late.
* `late_reset_erases`: Otherwise a signal may be erased.
-/

namespace MKernel

namespace AgGemm

open MKernel.Core MKernel.Dist

namespace Launch

variable (l : Launch)

/-- The number of threads that share the slots. -/
def stride : Nat := (l.numIntraComm + l.numComp) * l.blockDim

/-- The signals of the tasks of a GPU. -/
def sigs (dev : Fin l.numDevices) : List (Sig l.numDevices) :=
  (List.range l.numLocalBlocks).map (fun t => ⟨dev, none, t⟩) ++
    (List.range l.numPeers).flatMap fun s =>
      (List.range l.numLocalBlocks).map fun t => ⟨dev, some s, t⟩

end Launch

namespace IterEnd

variable {l : Launch}

/-- The iteration of a GPU, what was signalled and seen in it, and how far its threads have
    zeroed both planes. -/
structure Gpu (l : Launch) where
  iter : Nat
  sent : List (Sig l.numDevices)
  seen : List Slot
  p0 : Strided l.stride
  p2 : Strided l.stride

/-- A signal on its way to a GPU, with its iteration. -/
structure Msg (l : Launch) where
  dst : Fin l.numDevices
  iter : Nat
  sig : Sig l.numDevices
deriving DecidableEq

/-- The slot of `barrier_all`, the GPUs, the signals on their way, and those that are
    counted on each slot, with their iterations. -/
structure World (l : Launch) where
  net : BarrierAll.World l.numDevices
  gpu : Fin l.numDevices → Gpu l
  flight : List (Msg l)
  counted : Fin l.numDevices → Slot → List (Nat × Sig l.numDevices)

/-- What can happen next. -/
inductive Action (l : Launch) where
  /-- A step of `barrier_all`. -/
  | net (a : BarrierAll.Action l.numDevices)
  /-- A task signals its slot on all GPUs. -/
  | send (i : Fin l.numDevices) (g : Sig l.numDevices)
  /-- A signal arrives. -/
  | land (k : Nat)
  /-- A slot is seen at its full number. -/
  | see (i : Fin l.numDevices) (slot : Slot)
  /-- A thread zeroes its next slot. -/
  | zero (i : Fin l.numDevices) (t : Fin l.stride)
  /-- All CTAs have returned, and the next iteration begins. -/
  | finish (i : Fin l.numDevices)
deriving DecidableEq

/-- The start of an iteration. -/
def Gpu.start (iter : Nat) : Gpu l where
  iter := iter
  sent := []
  seen := []
  p0 := Strided.start
  p2 := Strided.start

/-- The first iteration, nothing signalled. -/
def init (l : Launch) : World l where
  net := BarrierAll.init
  gpu := fun _ => Gpu.start 0
  flight := []
  counted := fun _ _ => []

namespace Gpu

variable (r : Gpu l) (t : Fin l.stride)

/-- A thread has zeroed its slots. -/
def ThreadDone : Prop := l.totalP0 ≤ r.p0.next t ∧ l.totalP2 ≤ r.p2.next t

/-- All threads have. -/
def AllZeroed : Prop := ∀ t, r.ThreadDone t

/-- The first thread of the first CTA has. -/
def FirstZeroed : Prop := ∀ t : Fin l.stride, t.val = 0 → r.ThreadDone t

instance : Decidable (r.ThreadDone t) := inferInstanceAs (Decidable (_ ∧ _))

instance : Decidable r.AllZeroed := inferInstanceAs (Decidable (∀ t, r.ThreadDone t))

instance : Decidable r.FirstZeroed :=
  inferInstanceAs (Decidable (∀ t : Fin l.stride, t.val = 0 → r.ThreadDone t))

/-- The slot a thread zeroes next, plane 0 first. -/
def nextSlot : Option Slot :=
  if r.p0.next t < l.totalP0 then some (l.slotAt0 (r.p0.next t))
  else if r.p2.next t < l.totalP2 then some (l.slotAt2 (r.p2.next t))
  else none

/-- A slot has been zeroed. -/
def Reached (slot : Slot) : Prop :=
  (∃ x, r.p0.Visited x ∧ l.slotAt0 x = slot) ∨ ∃ x, r.p2.Visited x ∧ l.slotAt2 x = slot

/-- A thread has zeroed its next slot. -/
def advance : Gpu l :=
  if r.p0.next t < l.totalP0 then { r with p0 := r.p0.advance t }
  else { r with p2 := r.p2.advance t }

end Gpu

/-- The CTAs of a GPU have met: its tasks are done, and all that is waited for is seen. -/
def WorkDone (w : World l) (i : Fin l.numDevices) : Prop :=
  (∀ g ∈ l.sigs i, g ∈ (w.gpu i).sent) ∧
    ∀ comp < l.numComp, ∀ taskId ∈ walk comp l.numComp l.totalBlocks,
      ∀ slot ∈ l.waits taskId, slot ∈ (w.gpu i).seen

instance (w : World l) (i : Fin l.numDevices) : Decidable (WorkDone w i) :=
  inferInstanceAs (Decidable (_ ∧ _))

/-- The first thread of a GPU may call `barrier_all`. -/
def MayEnter (w : World l) (i : Fin l.numDevices) : Prop :=
  WorkDone w i ∧ (w.gpu i).FirstZeroed ∧ (w.net.device i).round = (w.gpu i).iter

instance (w : World l) (i : Fin l.numDevices) : Decidable (MayEnter w i) :=
  inferInstanceAs (Decidable (_ ∧ _ ∧ _))

/-- What a step of the barrier requires of the GPU that takes it. -/
def netAllowed (w : World l) : BarrierAll.Action l.numDevices → Bool
  | .enter i => decide (MayEnter w i)
  | _ => true

namespace World

variable (w : World l)

/-- Replace one GPU. -/
def setGpu (i : Fin l.numDevices) (r : Gpu l) : World l :=
  { w with gpu := Function.update w.gpu i r }

/-- Replace what is counted on one slot. -/
def setCounted (i : Fin l.numDevices) (slot : Slot) (c : List (Nat × Sig l.numDevices)) : World l :=
  { w with counted := fun j s => if j = i ∧ s = slot then c else w.counted j s }

end World

/-- `signal_all`: a signal to every GPU. -/
def signalAll (iter : Nat) (g : Sig l.numDevices) : List (Msg l) :=
  (List.finRange l.numDevices).map fun j => { dst := j, iter := iter, sig := g }

/-- One step of the GPUs, their barrier and the signals. -/
def step (w : World l) : Action l → Option (World l)
  | .net a =>
    if netAllowed w a then (BarrierAll.step w.net a).map (fun n => { w with net := n }) else none
  | .send i g =>
    if g ∈ l.sigs i ∧ g ∉ (w.gpu i).sent then
      some ({ w with flight := w.flight ++ signalAll (w.gpu i).iter g }.setGpu i
        { w.gpu i with sent := g :: (w.gpu i).sent })
    else
      none
  | .land k =>
    match w.flight[k]? with
    | none => none
    | some m =>
      some ({ w with flight := w.flight.eraseIdx k }.setCounted m.dst (l.slotOf m.sig)
        ((m.iter, m.sig) :: w.counted m.dst (l.slotOf m.sig)))
  | .see i slot =>
    if (w.counted i slot).length = l.expected slot then
      some (w.setGpu i { w.gpu i with seen := slot :: (w.gpu i).seen })
    else
      none
  | .zero i t =>
    if WorkDone w i then
      ((w.gpu i).nextSlot t).map fun slot => (w.setCounted i slot []).setGpu i ((w.gpu i).advance t)
    else
      none
  | .finish i =>
    if WorkDone w i ∧ (w.gpu i).AllZeroed ∧ (w.net.device i).pc = .outside ∧
        (w.net.device i).round = (w.gpu i).iter + 1 then
      some (w.setGpu i (Gpu.start ((w.gpu i).iter + 1)))
    else
      none

/-- `barrier_all` is entered with all shares zeroed. -/
def Gated (w : World l) : Action l → Prop
  | .net (.enter i) => (w.gpu i).AllZeroed
  | _ => True

instance : ∀ (w : World l) (a : Action l), Decidable (Gated w a)
  | w, .net (.enter i) => inferInstanceAs (Decidable (w.gpu i).AllZeroed)
  | _, .net (.land _ _) => isTrue trivial
  | _, .net (.load _) => isTrue trivial
  | _, .net (.reset _) => isTrue trivial
  | _, .send _ _ => isTrue trivial
  | _, .land _ => isTrue trivial
  | _, .see _ _ => isTrue trivial
  | _, .zero _ _ => isTrue trivial
  | _, .finish _ => isTrue trivial

/-- The step zeroes a slot with a signal of a later iteration. -/
def Erases (w : World l) : Action l → Prop
  | .zero i t => ∃ slot ∈ (w.gpu i).nextSlot t, ∃ c ∈ w.counted i slot, (w.gpu i).iter < c.1
  | _ => False

/-- A signal arrives whose iteration is over, or whose CTAs have met for the reset. -/
def Late (w : World l) : Action l → Prop
  | .land k => ∃ m ∈ w.flight[k]?,
      m.iter < (w.gpu m.dst).iter ∨ m.iter = (w.gpu m.dst).iter ∧ WorkDone w m.dst
  | _ => False

/-! ## One step -/

/-- What each action requires and does. -/
inductive Steps (w : World l) : Action l → World l → Prop where
  | net (a : BarrierAll.Action l.numDevices) (n : BarrierAll.World l.numDevices)
      (hm : ∀ i, a = .enter i → MayEnter w i) (hn : BarrierAll.step w.net a = some n) :
      Steps w (.net a) { w with net := n }
  | send (i : Fin l.numDevices) (g : Sig l.numDevices) (hg : g ∈ l.sigs i)
      (hnew : g ∉ (w.gpu i).sent) :
      Steps w (.send i g) ({ w with flight := w.flight ++ signalAll (w.gpu i).iter g }.setGpu i
        { w.gpu i with sent := g :: (w.gpu i).sent })
  | land (k : Nat) (m : Msg l) (hm : w.flight[k]? = some m) :
      Steps w (.land k) ({ w with flight := w.flight.eraseIdx k }.setCounted m.dst (l.slotOf m.sig)
        ((m.iter, m.sig) :: w.counted m.dst (l.slotOf m.sig)))
  | see (i : Fin l.numDevices) (slot : Slot)
      (hlen : (w.counted i slot).length = l.expected slot) :
      Steps w (.see i slot) (w.setGpu i { w.gpu i with seen := slot :: (w.gpu i).seen })
  | zero (i : Fin l.numDevices) (t : Fin l.stride) (slot : Slot) (hw : WorkDone w i)
      (hs : (w.gpu i).nextSlot t = some slot) :
      Steps w (.zero i t) ((w.setCounted i slot []).setGpu i ((w.gpu i).advance t))
  | finish (i : Fin l.numDevices) (hw : WorkDone w i) (hz : (w.gpu i).AllZeroed)
      (hpc : (w.net.device i).pc = .outside)
      (hround : (w.net.device i).round = (w.gpu i).iter + 1) :
      Steps w (.finish i) (w.setGpu i (Gpu.start ((w.gpu i).iter + 1)))

theorem steps_of_step {w u : World l} {a : Action l} (h : step w a = some u) : Steps w a u := by
  cases a with
  | net a =>
      by_cases hm : netAllowed w a = true
      · rw [step, if_pos hm] at h
        rcases Option.map_eq_some_iff.mp h with ⟨n, hn, rfl⟩
        -- The first thread enters the barrier only with the work done and its own slots zeroed.
        refine .net a n (fun i ha => ?_) hn
        rw [ha] at hm
        exact of_decide_eq_true hm
      · rw [step, if_neg hm] at h
        exact absurd h (by simp only [reduceCtorEq, not_false_eq_true])
  | send i g =>
      by_cases hg : g ∈ l.sigs i ∧ g ∉ (w.gpu i).sent
      · rw [step, if_pos hg, Option.some.injEq] at h
        rw [← h]
        exact .send i g hg.1 hg.2
      · rw [step, if_neg hg] at h
        exact absurd h (by simp only [reduceCtorEq, not_false_eq_true])
  | land k =>
      cases hm : w.flight[k]? with
      | none => simp only [step, hm, reduceCtorEq] at h
      | some m =>
          simp only [step, hm, Option.some.injEq] at h
          rw [← h]
          exact .land k m hm
  | see i slot =>
      by_cases hlen : (w.counted i slot).length = l.expected slot
      · rw [step, if_pos hlen, Option.some.injEq] at h
        rw [← h]
        exact .see i slot hlen
      · rw [step, if_neg hlen] at h
        exact absurd h (by simp only [reduceCtorEq, not_false_eq_true])
  | zero i t =>
      by_cases hw : WorkDone w i
      · rw [step, if_pos hw] at h
        rcases Option.map_eq_some_iff.mp h with ⟨slot, hs, rfl⟩
        exact .zero i t slot hw hs
      · rw [step, if_neg hw] at h
        exact absurd h (by simp only [reduceCtorEq, not_false_eq_true])
  | finish i =>
      by_cases hf : WorkDone w i ∧ (w.gpu i).AllZeroed ∧ (w.net.device i).pc = .outside ∧
          (w.net.device i).round = (w.gpu i).iter + 1
      · rw [step, if_pos hf, Option.some.injEq] at h
        rw [← h]
        exact .finish i hf.1 hf.2.1 hf.2.2.1 hf.2.2.2
      · rw [step, if_neg hf] at h
        exact absurd h (by simp only [reduceCtorEq, not_false_eq_true])

section Setters

variable (w : World l) (i : Fin l.numDevices) (r : Gpu l)

@[simp] theorem setGpu_self : (w.setGpu i r).gpu i = r := Function.update_self _ _ _

theorem setGpu_ne {j : Fin l.numDevices} (h : j ≠ i) : (w.setGpu i r).gpu j = w.gpu j :=
  Function.update_of_ne h _ _

end Setters

section Gpus

variable {r : Gpu l} {t : Fin l.stride}

/-- A thread that is done has no next slot. -/
theorem nextSlot_of_threadDone (h : r.ThreadDone t) : r.nextSlot t = none := by
  rw [Gpu.nextSlot, if_neg (Nat.not_lt.mpr h.1), if_neg (Nat.not_lt.mpr h.2)]

/-- What a thread zeroes is the next slot of one plane. -/
theorem reached_advance {slot : Slot} (h : r.nextSlot t = some slot) {s : Slot}
    (hs : (r.advance t).Reached s) : s = slot ∨ r.Reached s := by
  -- Phase 0's plane is zeroed before phase 2's.
  by_cases h0 : r.p0.next t < l.totalP0
  · rw [Gpu.nextSlot, if_pos h0, Option.some.injEq] at h
    rw [Gpu.advance, if_pos h0] at hs
    rcases hs with ⟨x, hx, rfl⟩ | hs
    · rcases (Strided.visited_advance _ t x).mp hx with rfl | hold
      · exact Or.inl h
      · exact Or.inr (Or.inl ⟨x, hold, rfl⟩)
    · exact Or.inr (Or.inr hs)
  · by_cases h2 : r.p2.next t < l.totalP2
    · rw [Gpu.nextSlot, if_neg h0, if_pos h2, Option.some.injEq] at h
      rw [Gpu.advance, if_neg h0] at hs
      rcases hs with hs | ⟨x, hx, rfl⟩
      · exact Or.inr (Or.inl hs)
      · rcases (Strided.visited_advance _ t x).mp hx with rfl | hold
        · exact Or.inl h
        · exact Or.inr (Or.inr ⟨x, hold, rfl⟩)
    · rw [Gpu.nextSlot, if_neg h0, if_neg h2] at h
      exact absurd h (by simp only [reduceCtorEq, not_false_eq_true])

theorem not_reached_start (k : Nat) (slot : Slot) : ¬ (Gpu.start k : Gpu l).Reached slot := by
  rintro (⟨x, hx, -⟩ | ⟨x, hx, -⟩)
  · exact Strided.not_visited_start x hx
  · exact Strided.not_visited_start x hx

@[simp] theorem advance_iter : (r.advance t).iter = r.iter := by
  by_cases h0 : r.p0.next t < l.totalP0
  · rw [Gpu.advance, if_pos h0]
  · rw [Gpu.advance, if_neg h0]

@[simp] theorem advance_sent : (r.advance t).sent = r.sent := by
  by_cases h0 : r.p0.next t < l.totalP0
  · rw [Gpu.advance, if_pos h0]
  · rw [Gpu.advance, if_neg h0]

@[simp] theorem advance_seen : (r.advance t).seen = r.seen := by
  by_cases h0 : r.p0.next t < l.totalP0
  · rw [Gpu.advance, if_pos h0]
  · rw [Gpu.advance, if_neg h0]

theorem stride_pos (l : Launch) : 0 < l.stride :=
  Nat.mul_pos (Nat.add_pos_right _ l.numComp_pos) l.blockDim_pos

/-- When all is zeroed, so is every slot that is signalled. -/
theorem reached_of_allZeroed (h : r.AllZeroed) {g : Sig l.numDevices} (hg : l.IsSig g) :
    r.Reached (l.slotOf g) := by
  have hthread : ∀ x : Nat, x % l.stride < l.stride := fun x => Nat.mod_lt x (stride_pos l)
  rcases exists_index hg with ⟨x, hx, heq⟩ | ⟨x, hx, heq⟩
  · exact Or.inl ⟨x, ⟨⟨x % l.stride, hthread x⟩, rfl, Nat.lt_of_lt_of_le hx (h _).1⟩, heq⟩
  · exact Or.inr ⟨x, ⟨⟨x % l.stride, hthread x⟩, rfl, Nat.lt_of_lt_of_le hx (h _).2⟩, heq⟩

theorem mem_sigs {i : Fin l.numDevices} {g : Sig l.numDevices} :
    g ∈ l.sigs i ↔ g.dev = i ∧ l.IsSig g := by
  rcases g with ⟨dev, step, task⟩
  rw [Launch.sigs, List.mem_append]
  -- A task of phase 0.
  cases step with
  | none =>
      simp only [List.mem_map, List.mem_range, List.mem_flatMap, Sig.mk.injEq, reduceCtorEq,
        and_false, false_and, exists_false, or_false, Launch.IsSig, Option.mem_def, false_imp_iff,
        implies_true, and_true, true_and]
      constructor
      · rintro ⟨t, ht, rfl, rfl⟩
        exact ⟨rfl, ht⟩
      · rintro ⟨rfl, ht⟩
        exact ⟨task, ht, rfl, rfl⟩
  -- A store of step `s`.
  | some s =>
      simp only [List.mem_map, List.mem_range, List.mem_flatMap, Sig.mk.injEq, reduceCtorEq,
        and_false, false_and, exists_false, false_or, Launch.IsSig, Option.mem_def,
        Option.some.injEq]
      constructor
      · rintro ⟨s', hs, t, ht, rfl, rfl, rfl⟩
        exact ⟨rfl, ht, fun _ hs' => hs' ▸ hs⟩
      · rintro ⟨rfl, ht, hs⟩
        exact ⟨s, hs s rfl, task, ht, rfl, rfl, rfl⟩

theorem mem_signalAll {m : Msg l} {k : Nat} {g : Sig l.numDevices} :
    m ∈ signalAll k g ↔ m.iter = k ∧ m.sig = g := by
  rw [signalAll, List.mem_map]
  constructor
  · rintro ⟨j, -, rfl⟩
    exact ⟨rfl, rfl⟩
  · rintro ⟨rfl, rfl⟩
    exact ⟨m.dst, List.mem_finRange _, rfl⟩

theorem nodup_signalAll (k : Nat) (g : Sig l.numDevices) : (signalAll k g : List (Msg l)).Nodup :=
  (List.nodup_finRange _).map fun _ _ h => congrArg Msg.dst h

end Gpus

/-! ## What every gated step keeps -/

/-- The signal was sent in an iteration. -/
def Sent (w : World l) (k : Nat) (g : Sig l.numDevices) : Prop :=
  l.IsSig g ∧ (k < (w.gpu g.dev).iter ∨ k = (w.gpu g.dev).iter ∧ g ∈ (w.gpu g.dev).sent)

/-- How the GPUs stand to their barrier, and which signals are where. -/
structure Inv (w : World l) : Prop where
  conserved : BarrierAll.Conserved w.net
  together : BarrierAll.LeavesTogether w.net
  iter_le : ∀ i, (w.gpu i).iter ≤ (w.net.device i).left
  entered_le : ∀ i, (w.net.device i).entered ≤ (w.gpu i).iter + 1
  through : ∀ i, (w.gpu i).iter < (w.net.device i).entered → WorkDone w i ∧ (w.gpu i).AllZeroed
  flight_sent : ∀ m ∈ w.flight, Sent w m.iter m.sig
  counted_sent : ∀ i slot, ∀ c ∈ w.counted i slot, Sent w c.1 c.2 ∧ l.slotOf c.2 = slot
  flight_nodup : w.flight.Nodup
  counted_nodup : ∀ i slot, (w.counted i slot).Nodup
  once : ∀ m ∈ w.flight, (m.iter, m.sig) ∉ w.counted m.dst (l.slotOf m.sig)
  seen : ∀ i, ∀ slot ∈ (w.gpu i).seen, ∀ g, l.IsSig g → l.slotOf g = slot →
    Sent w (w.gpu i).iter g ∧ { dst := i, iter := (w.gpu i).iter, sig := g } ∉ w.flight
  flight_ge : ∀ m ∈ w.flight, (w.gpu m.dst).iter ≤ m.iter
  counted_ge : ∀ i slot, ∀ c ∈ w.counted i slot, (w.gpu i).iter ≤ c.1
  zeroed : ∀ i slot, (w.gpu i).Reached slot →
    WorkDone w i ∧ ∀ c ∈ w.counted i slot, (w.gpu i).iter < c.1

section Facts

variable {w u : World l}

theorem inv_init (l : Launch) : Inv (init l) where
  conserved := BarrierAll.conserved_of_reaches (reaches_refl _ _ _)
  together _ _ := le_refl _
  iter_le _ := le_refl _
  entered_le _ := Nat.zero_le _
  through _ h := absurd h (Nat.lt_irrefl 0)
  flight_sent _ h := absurd h List.not_mem_nil
  counted_sent _ _ _ h := absurd h List.not_mem_nil
  flight_nodup := List.nodup_nil
  counted_nodup _ _ := List.nodup_nil
  once _ h := absurd h List.not_mem_nil
  seen _ _ h := absurd h List.not_mem_nil
  flight_ge _ h := absurd h List.not_mem_nil
  counted_ge _ _ _ h := absurd h List.not_mem_nil
  zeroed _ slot h := absurd h (not_reached_start 0 slot)

/-- A GPU that is behind a signal has been through its own reset. -/
theorem through_of_sent (hi : Inv w) {k : Nat} {g : Sig l.numDevices} (hg : Sent w k g)
    {i : Fin l.numDevices} (hlt : (w.gpu i).iter < k) : WorkDone w i ∧ (w.gpu i).AllZeroed := by
  have hk : k ≤ (w.gpu g.dev).iter := by
    rcases hg.2 with h | h
    · exact Nat.le_of_lt h
    · exact Nat.le_of_eq h.1
  -- Its sender has left the barrier of this iteration.
  exact hi.through i (Nat.lt_of_lt_of_le hlt
    (Nat.le_trans hk (Nat.le_trans (hi.iter_le g.dev) (hi.together g.dev i))))

/-- When the CTAs of a GPU have met, what is on its way to it is of a later iteration. -/
theorem later_of_workDone (hi : Inv w) {m : Msg l} (hm : m ∈ w.flight) (hw : WorkDone w m.dst) :
    (w.gpu m.dst).iter < m.iter := by
  refine Nat.lt_of_le_of_ne (hi.flight_ge m hm) fun heq => ?_
  have hsig := (hi.flight_sent m hm).1
  rcases waits_of_sig hsig with ⟨comp, hcomp, taskId, htask, hslot⟩
  have hseen := hw.2 comp hcomp taskId htask _ hslot
  refine (hi.seen m.dst _ hseen m.sig hsig rfl).2 ?_
  rw [heq]
  exact hm

/-- More that is sent and seen leaves the CTAs where they have met. -/
theorem workDone_mono {i : Fin l.numDevices} (hsent : ∀ g ∈ (w.gpu i).sent, g ∈ (u.gpu i).sent)
    (hseen : ∀ s ∈ (w.gpu i).seen, s ∈ (u.gpu i).seen) (h : WorkDone w i) : WorkDone u i :=
  ⟨fun g hg => hsent g (h.1 g hg),
    fun comp hcomp taskId htask slot hslot => hseen slot (h.2 comp hcomp taskId htask slot hslot)⟩

theorem sent_mono {k : Nat} {g : Sig l.numDevices}
    (hiter : (w.gpu g.dev).iter ≤ (u.gpu g.dev).iter)
    (hsent : (w.gpu g.dev).iter = (u.gpu g.dev).iter → g ∈ (w.gpu g.dev).sent →
      g ∈ (u.gpu g.dev).sent) (h : Sent w k g) : Sent u k g := by
  refine ⟨h.1, ?_⟩
  rcases h.2 with hlt | ⟨heq, hmem⟩
  · exact Or.inl (Nat.lt_of_lt_of_le hlt hiter)
  · rcases Nat.lt_or_eq_of_le hiter with hlt | hsame
    · exact Or.inl (heq ▸ hlt)
    · exact Or.inr ⟨heq.trans hsame, hsent hsame hmem⟩

end Facts

section Steps

variable {w u : World l}

/-- A step of the barrier. -/
theorem inv_net (hi : Inv w) {a : BarrierAll.Action l.numDevices}
    {n : BarrierAll.World l.numDevices} (hok : Gated w (.net a))
    (hm : ∀ i, a = .enter i → MayEnter w i) (hn : BarrierAll.step w.net a = some n) :
    Inv { w with net := n } := by
  refine ⟨BarrierAll.conserved_step hi.conserved hn,
    BarrierAll.leavesTogether_step hi.conserved hi.together hn, fun j => ?_, fun j => ?_,
    fun j => ?_, hi.flight_sent, hi.counted_sent, hi.flight_nodup, hi.counted_nodup, hi.once,
    hi.seen, hi.flight_ge, hi.counted_ge, hi.zeroed⟩
  · have hle := hi.iter_le j
    rcases BarrierAll.counts_step hn with
      ⟨i, -, hleft, -, -⟩ | ⟨i, -, -, hleft, -, -⟩ | ⟨hleft, -, -⟩
    · rw [hleft j]
      exact hle
    · rw [hleft j]
      exact Nat.le_trans hle (Nat.le_add_right _ _)
    · rw [hleft j]
      exact hle
  · have hle := hi.entered_le j
    rcases BarrierAll.counts_step hn with ⟨i, ha, -, hentered, -⟩ | ⟨i, -, -, -, hentered, -⟩ |
      ⟨-, hentered, -⟩
    · rw [hentered j]
      by_cases hj : j = i
      · -- A GPU enters the call of its iteration.
        rw [ha] at hn
        rw [if_pos hj, hj, BarrierAll.entered_of_enter hn, (hm i ha).2.2]
      · rw [if_neg hj]
        exact hle
    · rw [hentered j]
      exact hle
    · rw [hentered j]
      exact hle
  · intro hlt
    rcases BarrierAll.counts_step hn with ⟨i, ha, -, hentered, -⟩ | ⟨i, -, -, -, hentered, -⟩ |
      ⟨-, hentered, -⟩
    · rw [hentered j] at hlt
      by_cases hj : j = i
      · rw [ha] at hok
        rw [hj]
        exact ⟨(hm i ha).1, hok⟩
      · rw [if_neg hj] at hlt
        exact hi.through j hlt
    · rw [hentered j] at hlt
      exact hi.through j hlt
    · rw [hentered j] at hlt
      exact hi.through j hlt

/-- A GPU that has only signalled or seen more. -/
structure More (r r' : Gpu l) : Prop where
  iter : r'.iter = r.iter
  p0 : r'.p0 = r.p0
  p2 : r'.p2 = r.p2
  sent : ∀ g ∈ r.sent, g ∈ r'.sent
  seen : ∀ slot ∈ r.seen, slot ∈ r'.seen

theorem more_refl (r : Gpu l) : More r r := ⟨rfl, rfl, rfl, fun _ => id, fun _ => id⟩

theorem more_setGpu {i : Fin l.numDevices} {r : Gpu l} (h : More (w.gpu i) r)
    (j : Fin l.numDevices) : More (w.gpu j) ((w.setGpu i r).gpu j) := by
  by_cases hj : j = i
  · rw [hj, setGpu_self]
    exact h
  · rw [setGpu_ne _ _ _ hj]
    exact more_refl _

theorem sent_of_more (hmore : ∀ j, More (w.gpu j) (u.gpu j)) {k : Nat} {g : Sig l.numDevices}
    (h : Sent w k g) : Sent u k g :=
  sent_mono (Nat.le_of_eq (hmore g.dev).iter.symm) (fun _ => (hmore g.dev).sent g) h

theorem workDone_of_more (hmore : ∀ j, More (w.gpu j) (u.gpu j)) {i : Fin l.numDevices}
    (h : WorkDone w i) : WorkDone u i := workDone_mono (hmore i).sent (hmore i).seen h

/-- Signals and sights leave the barrier and what is zeroed as they are. -/
theorem inv_more (hi : Inv w) (hnet : u.net = w.net) (hcounted : u.counted = w.counted)
    (hmore : ∀ j, More (w.gpu j) (u.gpu j))
    (hsent : ∀ m ∈ u.flight, Sent u m.iter m.sig) (hnodup : u.flight.Nodup)
    (honce : ∀ m ∈ u.flight, (m.iter, m.sig) ∉ w.counted m.dst (l.slotOf m.sig))
    (hseen : ∀ i, ∀ slot ∈ (u.gpu i).seen, ∀ g, l.IsSig g → l.slotOf g = slot →
      Sent u (w.gpu i).iter g ∧ { dst := i, iter := (w.gpu i).iter, sig := g } ∉ u.flight)
    (hge : ∀ m ∈ u.flight, (w.gpu m.dst).iter ≤ m.iter) : Inv u where
  conserved := hnet ▸ hi.conserved
  together := hnet ▸ hi.together
  iter_le j := by
    rw [hnet, (hmore j).iter]
    exact hi.iter_le j
  entered_le j := by
    rw [hnet, (hmore j).iter]
    exact hi.entered_le j
  through j hlt := by
    -- A GPU is through the barrier only when its work is done, which stays so.
    rw [hnet, (hmore j).iter] at hlt
    have hthrough := hi.through j hlt
    refine ⟨workDone_of_more hmore hthrough.1, fun t => ?_⟩
    rw [Gpu.ThreadDone, (hmore j).p0, (hmore j).p2]
    exact hthrough.2 t
  flight_sent := hsent
  counted_sent j slot c hc := by
    -- No count changes.
    rw [hcounted] at hc
    have hold := hi.counted_sent j slot c hc
    exact ⟨sent_of_more hmore hold.1, hold.2⟩
  flight_nodup := hnodup
  counted_nodup := hcounted ▸ hi.counted_nodup
  once := hcounted ▸ honce
  seen j slot hs g hg heq := by
    rw [(hmore j).iter]
    exact hseen j slot hs g hg heq
  flight_ge m hm := by
    rw [(hmore m.dst).iter]
    exact hge m hm
  counted_ge j slot c hc := by
    rw [(hmore j).iter]
    exact hi.counted_ge j slot c (hcounted ▸ hc)
  zeroed j slot hs := by
    -- What is zeroed is not counted again, and nothing is zeroed in this step.
    rw [Gpu.Reached, (hmore j).p0, (hmore j).p2] at hs
    rw [(hmore j).iter, hcounted]
    exact ⟨workDone_of_more hmore (hi.zeroed j slot hs).1, (hi.zeroed j slot hs).2⟩

theorem inv_send (hi : Inv w) {i : Fin l.numDevices} {g : Sig l.numDevices} (hg : g ∈ l.sigs i)
    (hnew : g ∉ (w.gpu i).sent) :
    Inv ({ w with flight := w.flight ++ signalAll (w.gpu i).iter g }.setGpu i
      { w.gpu i with sent := g :: (w.gpu i).sent }) := by
  rcases mem_sigs.mp hg with ⟨rfl, hsig⟩
  -- No signal of this task was sent in this iteration.
  have hunsent : ¬ Sent w (w.gpu g.dev).iter g := by
    rintro ⟨-, hlt | ⟨-, hmem⟩⟩
    · exact Nat.lt_irrefl _ hlt
    · exact hnew hmem
  have hmore : ∀ j, More (w.gpu j) ((w.setGpu g.dev
      { w.gpu g.dev with sent := g :: (w.gpu g.dev).sent }).gpu j) :=
    more_setGpu ⟨rfl, rfl, rfl, fun _ => List.mem_cons_of_mem g, fun _ => id⟩
  refine inv_more hi rfl rfl hmore (fun m hm => ?_) ?_ (fun m hm => ?_)
    (fun j slot hs g' hg' heq => ?_) (fun m hm => ?_)
  · rcases List.mem_append.mp hm with hold | hall
    · exact sent_of_more hmore (hi.flight_sent m hold)
    · rcases mem_signalAll.mp hall with ⟨hk, hm⟩
      refine hk ▸ hm ▸ ⟨hm ▸ hsig, Or.inr ?_⟩
      rw [hm, setGpu_self]
      exact ⟨hk, List.mem_cons_self⟩
  · refine List.nodup_append.mpr ⟨hi.flight_nodup, nodup_signalAll _ _, fun m hm m' hm' heq => ?_⟩
    rcases mem_signalAll.mp hm' with ⟨hk, hm''⟩
    have hsent := hi.flight_sent m hm
    rw [heq, hk, hm''] at hsent
    exact hunsent hsent
  · rcases List.mem_append.mp hm with hold | hall
    · exact hi.once m hold
    · rcases mem_signalAll.mp hall with ⟨hk, hm⟩
      intro hc
      have hsent := (hi.counted_sent _ _ _ hc).1
      rw [hk, hm] at hsent
      exact hunsent hsent
  · have hslot : slot ∈ (w.gpu j).seen := by
      by_cases hj : j = g.dev
      · rw [hj, setGpu_self] at hs
        rw [hj]
        exact hs
      · rw [setGpu_ne _ _ _ hj] at hs
        exact hs
    have hold := hi.seen j slot hslot g' hg' heq
    refine ⟨sent_of_more hmore hold.1, fun hmem => ?_⟩
    rcases List.mem_append.mp hmem with hf | hall
    · exact hold.2 hf
    · rcases mem_signalAll.mp hall with ⟨hk, rfl⟩
      simp only at hk
      rw [hk] at hold
      exact hunsent hold.1
  · rcases List.mem_append.mp hm with hold | hall
    · exact hi.flight_ge m hold
    · -- A GPU that is ahead would have seen all signals of this iteration.
      rcases mem_signalAll.mp hall with ⟨hk, -⟩
      rw [hk]
      by_contra hlt
      have hthrough := hi.through g.dev (Nat.lt_of_lt_of_le (Nat.not_le.mp hlt)
        (Nat.le_trans (hi.iter_le m.dst) (hi.together m.dst g.dev)))
      exact hnew (hthrough.1.1 g hg)

/-- Where the CTAs of a GPU have not met yet, a slot at its full number has all its signals. -/
theorem mem_counted_of_length (hi : Inv w) {i : Fin l.numDevices} (hw : ¬ WorkDone w i)
    {slot : Slot} (hlen : l.expected slot ≤ (w.counted i slot).length) {g : Sig l.numDevices}
    (hg : l.IsSig g) (hslot : l.slotOf g = slot) : ((w.gpu i).iter, g) ∈ w.counted i slot := by
  -- Were it of a later iteration, the CTAs would have met.
  have hiter : ∀ c ∈ w.counted i slot, c.1 = (w.gpu i).iter := by
    intro c hc
    refine Nat.le_antisymm (Nat.not_lt.mp fun hlt => hw ?_) (hi.counted_ge i slot c hc)
    exact (through_of_sent hi (hi.counted_sent i slot c hc).1 hlt).1
  -- A slot has one signal for a key.
  have hsame : ∀ c ∈ w.counted i slot, ∀ g', l.IsSig g' → l.slotOf g' = slot →
      l.key c.2 = l.key g' → c.2 = g' := by
    intro c hc g' hg' hslot' hkey
    have hsent := hi.counted_sent i slot c hc
    exact sig_ext hsent.1.1 hg' (hsent.2.trans hslot'.symm) hkey
  have hnodup : ((w.counted i slot).map fun c => l.key c.2).Nodup := by
    refine (hi.counted_nodup i slot).map_on fun c hc c' hc' hkey => ?_
    have hsent := hi.counted_sent i slot c' hc'
    exact Prod.ext ((hiter c hc).trans (hiter c' hc').symm) (hsame c hc c'.2 hsent.1.1 hsent.2 hkey)
  have hbound : ∀ x ∈ (w.counted i slot).map fun c => l.key c.2, x < l.expected slot := by
    intro x hx
    rcases List.mem_map.mp hx with ⟨c, hc, rfl⟩
    have hsent := hi.counted_sent i slot c hc
    exact hsent.2 ▸ key_lt hsent.1.1
  -- As many different keys as there are: each is there.
  have hkey := mem_of_length hnodup hbound (by rw [List.length_map]; exact hlen)
    (hslot ▸ key_lt hg)
  rcases List.mem_map.mp hkey with ⟨c, hc, heq⟩
  rw [← hsame c hc g hg hslot heq, ← hiter c hc]
  exact hc

/-- What is seen at its full number are all signals of the slot. -/
theorem inv_see (hi : Inv w) {i : Fin l.numDevices} {slot : Slot}
    (hlen : (w.counted i slot).length = l.expected slot) :
    Inv (w.setGpu i { w.gpu i with seen := slot :: (w.gpu i).seen }) := by
  have hmore : ∀ j, More (w.gpu j)
      ((w.setGpu i { w.gpu i with seen := slot :: (w.gpu i).seen }).gpu j) :=
    more_setGpu ⟨rfl, rfl, rfl, fun _ => id, fun _ => List.mem_cons_of_mem slot⟩
  refine inv_more hi rfl rfl hmore (fun m hm => sent_of_more hmore (hi.flight_sent m hm))
    hi.flight_nodup hi.once (fun j s hs g hg heq => ?_) hi.flight_ge
  -- Only the slot of this step is new among the seen.
  have hold : s ∈ (w.gpu j).seen ∨ j = i ∧ s = slot := by
    by_cases hj : j = i
    · rw [hj, setGpu_self] at hs
      rcases List.mem_cons.mp hs with hnew | hmem
      · exact Or.inr ⟨hj, hnew⟩
      · exact Or.inl (hj ▸ hmem)
    · rw [setGpu_ne _ _ _ hj] at hs
      exact Or.inl hs
  -- Nothing is sent or lands, so it is enough to say it of the world before.
  suffices hall : Sent w (w.gpu j).iter g ∧
      { dst := j, iter := (w.gpu j).iter, sig := g } ∉ w.flight from
    ⟨sent_of_more hmore hall.1, hall.2⟩
  rcases hold with hmem | ⟨rfl, rfl⟩
  · exact hi.seen j s hmem g hg heq
  · by_cases hw : WorkDone w j
    · -- If the work is done the slot was waited for, and so it has been seen before.
      rcases waits_of_sig hg with ⟨comp, hcomp, taskId, htask, hslot⟩
      exact hi.seen j _ (hw.2 comp hcomp taskId htask _ hslot) g hg rfl
    · -- Otherwise the count is full, and every signal of the slot is among the counted.
      have hcounted := mem_counted_of_length hi hw (Nat.le_of_eq hlen.symm) hg heq
      refine ⟨(hi.counted_sent j s _ hcounted).1, fun hf => hi.once _ hf ?_⟩
      rw [heq]
      exact hcounted

theorem counted_setCounted (w : World l) (i j : Fin l.numDevices) (slot s : Slot)
    (c : List (Nat × Sig l.numDevices)) : (w.setCounted i slot c).counted j s =
      if j = i ∧ s = slot then c else w.counted j s := rfl

/-- A signal arrives. -/
theorem inv_land (hi : Inv w) {k : Nat} {m : Msg l} (hm : w.flight[k]? = some m) :
    Inv ({ w with flight := w.flight.eraseIdx k }.setCounted m.dst (l.slotOf m.sig)
      ((m.iter, m.sig) :: w.counted m.dst (l.slotOf m.sig))) := by
  have hmem := List.mem_of_getElem? hm
  have hrest : ∀ m' ∈ w.flight.eraseIdx k, m' ∈ w.flight ∧ m' ≠ m := by
    intro m' hm'
    refine ⟨List.mem_of_mem_eraseIdx hm', ?_⟩
    rintro rfl
    rcases List.getElem?_eq_some_iff.mp hm with ⟨hk, hget⟩
    rw [← hget] at hm'
    rcases List.mem_eraseIdx_iff_getElem.mp hm' with ⟨j, hj, hne, heq⟩
    exact hne (hi.flight_nodup.getElem_inj_iff.mp heq)
  -- What is counted on a slot is what was, or the signal that arrives.
  have hcases : ∀ j s c, c ∈ ({ w with flight := w.flight.eraseIdx k }.setCounted m.dst
      (l.slotOf m.sig) ((m.iter, m.sig) :: w.counted m.dst (l.slotOf m.sig))).counted j s →
        c ∈ w.counted j s ∨ j = m.dst ∧ s = l.slotOf m.sig ∧ c = (m.iter, m.sig) := by
    intro j s c hc
    rw [counted_setCounted] at hc
    by_cases hjs : j = m.dst ∧ s = l.slotOf m.sig
    · rw [if_pos hjs] at hc
      rcases List.mem_cons.mp hc with hnew | hold
      · exact Or.inr ⟨hjs.1, hjs.2, hnew⟩
      · rw [hjs.1, hjs.2]
        exact Or.inl hold
    · rw [if_neg hjs] at hc
      exact Or.inl hc
  refine ⟨hi.conserved, hi.together, hi.iter_le, hi.entered_le, hi.through,
    fun m' hm' => hi.flight_sent m' (hrest m' hm').1, fun j s c hc => ?_,
    hi.flight_nodup.eraseIdx k, fun j s => ?_, fun m' hm' hc => ?_, fun j s hs g hg heq => ?_,
    fun m' hm' => hi.flight_ge m' (hrest m' hm').1, fun j s c hc => ?_, fun j s hs => ?_⟩
  · rcases hcases j s c hc with hold | ⟨-, rfl, rfl⟩
    · exact hi.counted_sent j s c hold
    · exact ⟨hi.flight_sent m hmem, rfl⟩
  · rw [counted_setCounted]
    by_cases hjs : j = m.dst ∧ s = l.slotOf m.sig
    · rw [if_pos hjs]
      exact List.nodup_cons.mpr ⟨hi.once m hmem, hi.counted_nodup _ _⟩
    · rw [if_neg hjs]
      exact hi.counted_nodup j s
  · rcases hcases _ _ _ hc with hold | ⟨hdst, -, heq⟩
    · exact hi.once m' (hrest m' hm').1 hold
    · rcases Prod.mk.inj heq with ⟨hiter, hsig⟩
      rcases m with ⟨dst, iter, sig⟩
      rcases m' with ⟨dst', iter', sig'⟩
      simp only at hdst hiter hsig
      refine (hrest _ hm').2 ?_
      rw [hdst, hiter, hsig]
  · have hold := hi.seen j s hs g hg heq
    exact ⟨hold.1, fun hf => hold.2 (hrest _ hf).1⟩
  · rcases hcases j s c hc with hold | ⟨rfl, -, rfl⟩
    · exact hi.counted_ge j s c hold
    · exact hi.flight_ge m hmem
  · have hold := hi.zeroed j s hs
    refine ⟨hold.1, fun c hc => ?_⟩
    rcases hcases j s c hc with hin | ⟨rfl, -, rfl⟩
    · exact hold.2 c hin
    · exact later_of_workDone hi hmem hold.1

/-- A thread zeroes a slot. -/
theorem inv_zero (hi : Inv w) {i : Fin l.numDevices} {t : Fin l.stride} {slot : Slot}
    (hw : WorkDone w i) (hs : (w.gpu i).nextSlot t = some slot) :
    Inv ((w.setCounted i slot []).setGpu i ((w.gpu i).advance t)) := by
  have hiter : ∀ j, (((w.setCounted i slot []).setGpu i ((w.gpu i).advance t)).gpu j).iter =
      (w.gpu j).iter := by
    intro j
    by_cases hj : j = i
    · rw [hj, setGpu_self, advance_iter]
    · rw [setGpu_ne _ _ _ hj]
      rfl
  have hsent : ∀ j, (((w.setCounted i slot []).setGpu i ((w.gpu i).advance t)).gpu j).sent =
      (w.gpu j).sent := by
    intro j
    by_cases hj : j = i
    · rw [hj, setGpu_self, advance_sent]
    · rw [setGpu_ne _ _ _ hj]
      rfl
  have hseen : ∀ j, (((w.setCounted i slot []).setGpu i ((w.gpu i).advance t)).gpu j).seen =
      (w.gpu j).seen := by
    intro j
    by_cases hj : j = i
    · rw [hj, setGpu_self, advance_seen]
    · rw [setGpu_ne _ _ _ hj]
      rfl
  have hkeep : ∀ {k g}, Sent w k g →
      Sent ((w.setCounted i slot []).setGpu i ((w.gpu i).advance t)) k g :=
    fun hg => sent_mono (Nat.le_of_eq (hiter _).symm) (fun _ h => (hsent _).symm ▸ h) hg
  have hdone : ∀ {j}, WorkDone w j →
      WorkDone ((w.setCounted i slot []).setGpu i ((w.gpu i).advance t)) j :=
    fun {j} h => workDone_mono (fun _ hg => (hsent j).symm ▸ hg) (fun _ hs => (hseen j).symm ▸ hs) h
  have hsub : ∀ j s c, c ∈ ((w.setCounted i slot []).setGpu i ((w.gpu i).advance t)).counted j s →
      c ∈ w.counted j s ∧ ¬ (j = i ∧ s = slot) := by
    intro j s c hc
    have hc' : c ∈ if j = i ∧ s = slot then [] else w.counted j s := hc
    by_cases hjs : j = i ∧ s = slot
    · rw [if_pos hjs] at hc'
      exact absurd hc' List.not_mem_nil
    · rw [if_neg hjs] at hc'
      exact ⟨hc', hjs⟩
  refine ⟨hi.conserved, hi.together, fun j => ?_, fun j => ?_, fun j hlt => ?_,
    fun m hm => hkeep (hi.flight_sent m hm), fun j s c hc => ?_, hi.flight_nodup, fun j s => ?_,
    fun m hm hc => hi.once m hm (hsub _ _ _ hc).1, fun j s hs' g hg heq => ?_, fun m hm => ?_,
    fun j s c hc => ?_, fun j s hs' => ?_⟩
  · rw [hiter j]
    exact hi.iter_le j
  · rw [hiter j]
    exact hi.entered_le j
  · rw [hiter j] at hlt
    have hold := hi.through j hlt
    refine ⟨hdone hold.1, ?_⟩
    by_cases hj : j = i
    · -- Nothing is left to zero on a GPU that has entered.
      rw [hj] at hold
      rw [nextSlot_of_threadDone (hold.2 t)] at hs
      exact absurd hs (by simp only [reduceCtorEq, not_false_eq_true])
    · rw [setGpu_ne _ _ _ hj]
      exact hold.2
  · have hold := hi.counted_sent j s c (hsub j s c hc).1
    exact ⟨hkeep hold.1, hold.2⟩
  · change (if j = i ∧ s = slot then [] else w.counted j s).Nodup
    by_cases hjs : j = i ∧ s = slot
    · rw [if_pos hjs]
      exact List.nodup_nil
    · rw [if_neg hjs]
      exact hi.counted_nodup j s
  · rw [hseen j] at hs'
    rw [hiter j]
    have hold := hi.seen j s hs' g hg heq
    exact ⟨hkeep hold.1, hold.2⟩
  · rw [hiter m.dst]
    exact hi.flight_ge m hm
  · rw [hiter j]
    exact hi.counted_ge j s c (hsub j s c hc).1
  · rw [hiter j]
    by_cases hj : j = i
    · rw [hj, setGpu_self] at hs'
      refine ⟨hdone (hj ▸ hw), fun c hc => ?_⟩
      rcases hsub j s c hc with ⟨hin, hne⟩
      rcases reached_advance hs hs' with heq | hold
      · exact absurd ⟨hj, heq⟩ hne
      · exact (hi.zeroed j s (hj ▸ hold)).2 c hin
    · rw [setGpu_ne _ _ _ hj] at hs'
      have hold := hi.zeroed j s hs'
      exact ⟨hdone hold.1, fun c hc => hold.2 c (hsub j s c hc).1⟩

/-- The next iteration begins. -/
theorem inv_finish (hi : Inv w) {i : Fin l.numDevices} (hw : WorkDone w i)
    (hz : (w.gpu i).AllZeroed) (hpc : (w.net.device i).pc = .outside)
    (hround : (w.net.device i).round = (w.gpu i).iter + 1) :
    Inv (w.setGpu i (Gpu.start ((w.gpu i).iter + 1))) := by
  have hle : ∀ j, (w.gpu j).iter ≤ ((w.setGpu i (Gpu.start ((w.gpu i).iter + 1))).gpu j).iter := by
    intro j
    by_cases hj : j = i
    · rw [hj, setGpu_self]
      exact Nat.le_succ _
    · rw [setGpu_ne _ _ _ hj]
  have hkeep : ∀ {k g}, Sent w k g → Sent (w.setGpu i (Gpu.start ((w.gpu i).iter + 1))) k g := by
    intro k g hg
    refine sent_mono (hle g.dev) (fun hsame hmem => ?_) hg
    by_cases hj : g.dev = i
    · rw [hj, setGpu_self] at hsame
      exact absurd hsame (Nat.ne_of_lt (Nat.lt_succ_self _))
    · rw [setGpu_ne _ _ _ hj]
      exact hmem
  refine ⟨hi.conserved, hi.together, fun j => ?_, fun j => ?_, fun j hlt => ?_,
    fun m hm => hkeep (hi.flight_sent m hm), fun j s c hc => ?_, hi.flight_nodup, hi.counted_nodup,
    hi.once, fun j s hs g hg heq => ?_, fun m hm => ?_, fun j s c hc => ?_, fun j s hs => ?_⟩
  · by_cases hj : j = i
    · rw [hj, setGpu_self]
      exact Nat.le_of_eq
        (by simp only [Gpu.start, World.setGpu, BarrierAll.Device.left, hpc, hround])
    · rw [setGpu_ne _ _ _ hj]
      exact hi.iter_le j
  · exact Nat.le_trans (hi.entered_le j) (Nat.succ_le_succ (hle j))
  · by_cases hj : j = i
    · -- The barrier of the new iteration is not entered yet.
      rw [hj, setGpu_self] at hlt
      simp only [Gpu.start, World.setGpu, BarrierAll.Device.entered, hpc, hround] at hlt
      exact absurd hlt (Nat.lt_irrefl _)
    · rw [setGpu_ne _ _ _ hj] at hlt ⊢
      have hold := hi.through j hlt
      exact ⟨workDone_mono (fun _ h => by rwa [setGpu_ne _ _ _ hj])
        (fun _ h => by rwa [setGpu_ne _ _ _ hj]) hold.1, hold.2⟩
  · have hold := hi.counted_sent j s c hc
    exact ⟨hkeep hold.1, hold.2⟩
  · by_cases hj : j = i
    · rw [hj, setGpu_self] at hs
      exact absurd hs List.not_mem_nil
    · rw [setGpu_ne _ _ _ hj] at hs ⊢
      have hold := hi.seen j s hs g hg heq
      exact ⟨hkeep hold.1, hold.2⟩
  · by_cases hj : m.dst = i
    · rw [hj, setGpu_self]
      have hlater := later_of_workDone hi hm (hj ▸ hw)
      rw [hj] at hlater
      exact hlater
    · rw [setGpu_ne _ _ _ hj]
      exact hi.flight_ge m hm
  · by_cases hj : j = i
    · -- The slots of all signals were zeroed.
      rw [hj, setGpu_self]
      have hsent := hi.counted_sent j s c hc
      have hreached := reached_of_allZeroed hz hsent.1.1
      rw [hsent.2] at hreached
      rw [hj] at hc
      exact (hi.zeroed i s hreached).2 c hc
    · rw [setGpu_ne _ _ _ hj]
      exact hi.counted_ge j s c hc
  · by_cases hj : j = i
    · rw [hj, setGpu_self] at hs
      exact absurd hs (not_reached_start _ s)
    · rw [setGpu_ne _ _ _ hj] at hs ⊢
      have hold := hi.zeroed j s hs
      exact ⟨workDone_mono (fun _ h => by rwa [setGpu_ne _ _ _ hj])
        (fun _ h => by rwa [setGpu_ne _ _ _ hj]) hold.1, hold.2⟩

theorem inv_step (hi : Inv w) {a : Action l} (hok : Gated w a) (hstep : step w a = some u) :
    Inv u := by
  cases steps_of_step hstep with
  | net a n hm hn => exact inv_net hi hok hm hn
  | send i g hg hnew => exact inv_send hi hg hnew
  | land k m hm => exact inv_land hi hm
  | see i slot hlen => exact inv_see hi hlen
  | zero i t slot hw hs => exact inv_zero hi hw hs
  | finish i hw hz hpc hround => exact inv_finish hi hw hz hpc hround

end Steps

theorem inv_of_reaches {w : World l} (h : Reaches step Gated (init l) w) : Inv w :=
  invariant_of_reaches Inv (fun _ _ _ hi hok hstep => inv_step hi hok hstep) h (inv_init l)

/-- In every run in which a GPU enters `barrier_all` with all its shares zeroed, no step
    zeroes a signal of a later iteration, and no signal arrives when its iteration is over
    or the CTAs have met for its reset. -/
theorem reset_before_signals {w : World l} (h : Reaches step Gated (init l) w) (a : Action l) :
    ¬ Erases w a ∧ ¬ Late w a := by
  have hi := inv_of_reaches h
  cases a with
  -- A signal of a later iteration is sent only after its reset is through.
  | zero i t =>
      refine ⟨?_, id⟩
      rintro ⟨slot, hslot, c, hc, hlt⟩
      have hthrough := through_of_sent hi (hi.counted_sent i slot c hc).1 hlt
      rw [nextSlot_of_threadDone (hthrough.2 t)] at hslot
      exact absurd hslot (by simp only [Option.mem_def, reduceCtorEq, not_false_eq_true])
  -- Late: the CTAs meet only when every arrival is in.
  | land k =>
      refine ⟨id, ?_⟩
      rintro ⟨m, hm, hlt | ⟨heq, hw⟩⟩
      · exact absurd (hi.flight_ge m (List.mem_of_getElem? hm)) (Nat.not_le_of_lt hlt)
      · exact absurd (later_of_workDone hi (List.mem_of_getElem? hm) hw)
          (Nat.not_lt_of_le (Nat.le_of_eq heq))
  | net a => exact ⟨id, id⟩
  | send i g => exact ⟨id, id⟩
  | see i slot => exact ⟨id, id⟩
  | finish i => exact ⟨id, id⟩

/-! ## Two GPUs -/

/-- A comm and a compute CTA of one thread on each of two GPUs, with one tile each. -/
def twoGpus : Launch where
  numNodes := 2
  numDevices := 2
  localRowBlocks := 1
  cols := 128
  numIntraComm := 1
  numNodes_ge := two_le_two
  numDevices_pos := Nat.two_pos
  localRowBlocks_pos := Nat.one_pos
  cols_dvd := by decide
  numIntraComm_pos := by decide
  node := 0
  outBlocks := 1
  numComp := 1
  blockDim := 1
  perCol := false
  node_lt := by decide
  outBlocks_pos := by decide
  numComp_pos := by decide
  blockDim_pos := by decide

/-- Everything is signalled, arrives and is seen. -/
def work : List (Action twoGpus) :=
  [.send (0 : Fin 2) ⟨(0 : Fin 2), none, 0⟩, .send (0 : Fin 2) ⟨(0 : Fin 2), some 0, 0⟩,
    .send (1 : Fin 2) ⟨(1 : Fin 2), none, 0⟩, .send (1 : Fin 2) ⟨(1 : Fin 2), some 0, 0⟩,
    .land 0, .land 0, .land 0, .land 0, .land 0, .land 0, .land 0, .land 0,
    .see (0 : Fin 2) ⟨0, 0, 0⟩, .see (0 : Fin 2) ⟨0, 1, 0⟩, .see (0 : Fin 2) ⟨2, 0, 0⟩,
    .see (0 : Fin 2) ⟨2, 1, 0⟩, .see (1 : Fin 2) ⟨0, 0, 0⟩, .see (1 : Fin 2) ⟨0, 1, 0⟩,
    .see (1 : Fin 2) ⟨2, 0, 0⟩, .see (1 : Fin 2) ⟨2, 1, 0⟩]

/-- The second GPU leaves the barrier and signals in its next iteration. -/
def ahead : List (Action twoGpus) :=
  [.zero (1 : Fin 2) (0 : Fin 2), .zero (1 : Fin 2) (0 : Fin 2), .zero (1 : Fin 2) (1 : Fin 2),
    .zero (1 : Fin 2) (1 : Fin 2), .net (.enter (0 : Fin 2)), .net (.enter (1 : Fin 2)),
    .net (.land (0 : Fin 2) (1 : Fin 2)), .net (.land (1 : Fin 2) (1 : Fin 2)),
    .net (.load (1 : Fin 2)), .net (.reset (1 : Fin 2)), .finish (1 : Fin 2),
    .send (1 : Fin 2) ⟨(1 : Fin 2), none, 0⟩, .land 0]

/-- The first GPU enters when both its CTAs have zeroed. -/
def gatedRun : List (Action twoGpus) :=
  work ++ [(.zero (0 : Fin 2) (0 : Fin 2) : Action twoGpus), .zero (0 : Fin 2) (0 : Fin 2),
    .zero (0 : Fin 2) (1 : Fin 2), .zero (0 : Fin 2) (1 : Fin 2)] ++ ahead

theorem reset_before_signals_second : ∃ w : World twoGpus,
    Reaches step Gated (init twoGpus) w ∧
      w.counted (0 : Fin 2) ⟨0, 1, 0⟩ = [(1, ⟨(1 : Fin 2), none, 0⟩)] ∧
      (w.gpu (0 : Fin 2)).iter = 0 ∧ ∀ a, ¬ Erases w a ∧ ¬ Late w a :=
  have h : Reaches step Gated (init twoGpus)
      ((run step Gated gatedRun (init twoGpus)).get (by decide +kernel)) :=
    reaches_of_run _ _ _ (Option.some_get _).symm
  ⟨_, h, by decide +kernel, by decide +kernel, reset_before_signals h⟩

/-- The first GPU enters when its first CTA has zeroed. -/
def slowCta : List (Action twoGpus) :=
  work ++ [(.zero (0 : Fin 2) (0 : Fin 2) : Action twoGpus), .zero (0 : Fin 2) (0 : Fin 2)] ++ ahead

/-- The second CTA of a GPU zeroes a signal of the other GPU's next iteration. -/
theorem late_reset_erases : ∃ (w u : World twoGpus) (a : Action twoGpus),
    Reaches step always (init twoGpus) w ∧ step w a = some u ∧ Erases w a :=
  ⟨(run step always slowCta (init twoGpus)).get (by decide +kernel), _,
    .zero (0 : Fin 2) (1 : Fin 2), reaches_of_run _ _ _ (Option.some_get _).symm,
    (Option.some_get (by decide +kernel)).symm, ⟨0, 1, 0⟩, by decide +kernel,
    (1, ⟨(1 : Fin 2), none, 0⟩), by decide +kernel, by decide +kernel⟩

end IterEnd

end AgGemm

end MKernel
