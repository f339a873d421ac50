import MKernel.Internode.D2HFifo.Delivery
import MKernel.Internode.Fifo

/-!
# The Ring Refines the Queue

Every run of the ring is a run of the abstract queue.

The queue a ring stands for has the same claims, the same `cpu_head` and the
same tail, and publishes exactly the slots that are written with nothing
unwritten before them. Most memory accesses change none of that. A push claims;
the release store of word 0 publishes its slot and every later slot that was
only waiting for it; the increment of `cpu_head` is the poll.

What is proved of a host that works on `Fifo` therefore holds of a host that
works on the ring, and the byte the host looks at answers the question the
queue asks (`pollEmpty_iff`).

## Main definitions

* `Abstracts`: The queue a ring stands for.

## Theorems

* `exists_published`: Written slots can be published one after the other.
* `step_refines`: One memory access is no, one or several steps of the queue.
* `ring_refines_fifo`: Every run of the ring is a run of the queue.
* `pollEmpty_iff`: The type byte is empty exactly when the queue has nothing.
-/

namespace MKernel

namespace Internode

namespace D2HFifo

open MKernel.Core

variable {P : Type} {capacity : Capacity} {s t : State P} {f : Fifo}

/-- The queue a ring stands for. -/
structure Abstracts (s : State P) (f : Fifo) : Prop where
  claimed : f.claimed = s.claimed
  cpuHead : f.cpuHead = s.cpuHead
  base : f.base = 0
  tail : f.tail = s.tail
  written : ∀ j, s.cpuHead ≤ j → j < f.published → Written s j
  next : ¬ Written s f.published

theorem abstracts_init : Abstracts (init P) Fifo.empty where
  claimed := rfl
  cpuHead := rfl
  base := rfl
  tail := rfl
  written := fun _ _ hj => absurd hj (Nat.not_lt_zero _)
  next := fun hw => absurd hw.1 (Nat.not_lt_zero _)

/-- The records polled from the ring are the commands the queue has read. -/
theorem Abstracts.polled_eq (h : Abstracts s f) (hinv : Inv capacity s) :
    s.polled = f.polled.map TransferCmd.words := by
  rw [hinv.polled_eq, Fifo.polled, h.claimed, h.cpuHead]

/-- Where the next slot to read is written, the queue has published it. -/
theorem Abstracts.lt_published (h : Abstracts s f) (hw : Written s s.cpuHead) :
    f.cpuHead < f.published := by
  have hle := f.cpuHead_le
  have hne : f.cpuHead ≠ f.published := by
    intro hc
    exact h.next (by rw [← hc, h.cpuHead]; exact hw)
  omega

/-- The slots that are written can be published one after the other, up to
    the first that is not. -/
theorem exists_published (hclaimed : f.claimed = s.claimed) (hcpu : f.cpuHead = s.cpuHead)
    (hbase : f.base = 0) (htail : f.tail = s.tail)
    (hw : ∀ j, s.cpuHead ≤ j → j < f.published → Written s j) :
    ∃ g, Reaches Fifo.step always f g ∧ Abstracts s g := by
  classical
  have hex : ∃ n, f.published ≤ n ∧ ¬ Written s n :=
    ⟨s.claimed.length, by rw [← hclaimed]; exact f.published_le, fun hc => Nat.lt_irrefl _ hc.1⟩
  have hspec := Nat.find_spec hex
  have hmin : ∀ j, f.published ≤ j → j < Nat.find hex → Written s j := fun j hj hlt => by
    by_contra hc
    exact Nat.find_min hex hlt ⟨hj, hc⟩
  have hle : Nat.find hex ≤ f.claimed.length := by
    refine Nat.find_min' hex ⟨f.published_le, fun hc => ?_⟩
    rw [hclaimed] at hc
    exact Nat.lt_irrefl _ hc.1
  rcases Fifo.reaches_publish hspec.1 hle with ⟨g, hg, hgc, hgh, hgb, hgt, hgp⟩
  refine ⟨g, hg, hgc.trans hclaimed, hgh.trans hcpu, hgb.trans hbase, hgt.trans htail,
    fun j hj hlt => ?_, ?_⟩
  · by_cases hjf : j < f.published
    · exact hw j hj hjf
    · exact hmin j (by omega) (by rw [← hgp]; exact hlt)
  · rw [hgp]
    exact hspec.2

/-- An access that changes neither the claims, the counters nor what is
    written is no step of the queue. -/
theorem Abstracts.stutter (h : Abstracts s f) (hclaimed : t.claimed = s.claimed)
    (hcpu : t.cpuHead = s.cpuHead) (htail : t.tail = s.tail)
    (hw : ∀ j, Written t j ↔ Written s j) :
    ∃ g, Reaches Fifo.step always f g ∧ Abstracts t g := by
  refine ⟨f, reaches_refl _ _ _, h.claimed.trans hclaimed.symm, h.cpuHead.trans hcpu.symm, h.base,
    h.tail.trans htail.symm, fun j hj hlt => ?_, fun hc => h.next ((hw _).mp hc)⟩
  exact (hw j).mpr (h.written j (by rw [← hcpu]; exact hj) hlt)

theorem host_refines (h : Abstracts s f) (hinv : Inv capacity s)
    (hbound : s.claimed.length < 2 ^ 64) :
    ∃ g, Reaches Fifo.step always f g ∧ Abstracts (hostStep capacity s) g := by
  unfold hostStep
  cases hp : s.poll with
  | idle =>
      simp only
      split
      · exact h.stutter rfl rfl rfl (fun _ => Iff.rfl)
      · exact h.stutter rfl rfl rfl (fun _ => Iff.rfl)
  | copy wi out =>
      simp only
      split
      · exact h.stutter rfl rfl rfl (fun _ => Iff.rfl)
      · exact h.stutter rfl rfl rfl (fun _ => Iff.rfl)
  | bump out =>
      -- Advancing `cpu_head` is the poll of the queue.
      have hpi := hinv.poll
      simp only [PollInv, hp] at hpi
      have hlt := h.lt_published hpi.1
      have hnext : u64 (s.cpuHead + 1) = s.cpuHead + 1 :=
        Nat.mod_eq_of_lt (Nat.lt_of_le_of_lt hpi.1.1 hbound)
      cases hpoll : f.poll with
      | none => exact absurd (Fifo.poll_eq_none.mp hpoll) (Nat.ne_of_lt hlt)
      | some r =>
          rcases r with ⟨cmd, g⟩
          rcases Fifo.poll_eq_some hpoll with ⟨-, hgc, hgh, hgb, hgt⟩
          have hgp : g.published = f.published := by
            unfold Fifo.poll at hpoll
            rw [dif_pos hlt] at hpoll
            rw [← (Prod.mk.inj (Option.some.inj hpoll)).2]
          have hreach : Reaches Fifo.step always f g :=
            reaches_step (reaches_refl _ _ _) Fifo.Action.poll trivial
              (by rw [Fifo.step, hpoll, Option.map_some])
          refine ⟨g, hreach, hgc.trans h.claimed, ?_, hgb.trans h.base, hgt.trans h.tail,
            fun j hj hjp => ?_, ?_⟩
          · simp only [hnext, hgh, h.cpuHead]
          · simp only [hnext] at hj
            exact h.written j (by omega) (by rw [← hgp]; exact hjp)
          · rw [hgp]
            exact h.next

section Runs

variable [DecidableEq P]

/-- An access of a thread that keeps its slot is no step of the queue. -/
theorem Abstracts.of_thread (h : Abstracts s f) {p : P} {pc : PushPc}
    (hpc : pc.held = (s.push p).held) (hpush : t.push = Function.update s.push p pc)
    (hclaimed : t.claimed = s.claimed) (hcpu : t.cpuHead = s.cpuHead) (htail : t.tail = s.tail) :
    ∃ g, Reaches Fifo.step always f g ∧ Abstracts t g :=
  h.stutter hclaimed hcpu htail
    (written_congr hclaimed (fun q => by rw [hpush]; exact held_update hpc q))

theorem device_refines (h : Abstracts s f) (hinv : Inv capacity s) {p : P}
    (hstep : deviceStep capacity s p = some t) :
    ∃ g, Reaches Fifo.step always f g ∧ Abstracts t g := by
  unfold deviceStep at hstep
  cases hp : s.push p with
  | idle =>
      rw [hp] at hstep
      exact absurd hstep (by simp only [reduceCtorEq, not_false_eq_true])
  | test slot cmd =>
      simp only [hp, Option.some.injEq] at hstep
      rw [← hstep]
      refine h.of_thread (p := p) ?_ rfl rfl rfl rfl
      rw [hp]
      split <;> rfl
  | load slot cmd =>
      simp only [hp, Option.some.injEq] at hstep
      rw [← hstep]
      exact h.of_thread (p := p) (by rw [hp]; rfl) rfl rfl rfl rfl
  | refresh slot cmd u =>
      simp only [hp, Option.some.injEq] at hstep
      rw [← hstep]
      refine h.of_thread (p := p) ?_ rfl rfl rfl rfl
      rw [hp]
      split <;> rfl
  | store slot cmd wi =>
      simp only [hp] at hstep
      split at hstep
      · rw [← Option.some.inj hstep]
        exact h.of_thread (p := p) (by rw [hp]; rfl) rfl rfl rfl rfl
      · -- The store of word 0 publishes the slot and those waiting behind it.
        have hheld : (s.push p).held = some (slot, cmd) := by rw [hp, PushPc.held]
        have hw := written_commit (t := t) hinv hheld
          (by rw [← Option.some.inj hstep]) (by rw [← Option.some.inj hstep])
        rw [← Option.some.inj hstep] at hw ⊢
        refine exists_published h.claimed h.cpuHead h.base h.tail (fun j hj hlt => ?_)
        exact (hw j).mpr (Or.inl (h.written j hj hlt))

/-- One memory access is no, one or several steps of the queue. -/
theorem step_refines (h : Abstracts s f) (hinv : Inv capacity s)
    (hbound : s.claimed.length < 2 ^ 64) {a : Action P} (hstep : step capacity s a = some t) :
    ∃ g, Reaches Fifo.step always f g ∧ Abstracts t g := by
  cases a with
  | push p cmd =>
      simp only [step] at hstep
      split at hstep
      · rename_i hg
        have heq := Option.some.inj hstep
        have hclaimed : t.claimed = s.claimed ++ [cmd] := by rw [← heq]
        have hw := written_push hinv hg.1 hclaimed (by rw [← heq])
        rw [← heq] at hw ⊢
        -- The claim of the slot is the claim of the queue, and nothing is published yet.
        have hreach : Reaches Fifo.step always f (f.claim cmd) :=
          reaches_step (reaches_refl _ _ _) (Fifo.Action.claim cmd) trivial rfl
        refine ⟨_, hreach, ?_, h.cpuHead, h.base, h.tail, fun j hj hlt => ?_, fun hc => ?_⟩
        · rw [Fifo.claimed_claim, h.claimed]
        · exact (hw j).mpr (h.written j hj hlt)
        · exact h.next ((hw _).mp hc)
      · exact absurd hstep (by simp only [reduceCtorEq, not_false_eq_true])
  | device p => exact device_refines h hinv hstep
  | host =>
      rw [step, Option.some.injEq] at hstep
      rw [← hstep]
      exact host_refines h hinv hbound
  | advanceTail v =>
      simp only [step] at hstep
      split at hstep
      · split at hstep
        · rename_i hv
          rw [← Option.some.inj hstep]
          -- The tail moves to the same place.
          have hreach : Reaches Fifo.step always f (f.advanceTail v) := by
            refine reaches_step (reaches_refl _ _ _) (Fifo.Action.advanceTail v) trivial ?_
            rw [Fifo.step, if_pos (by rw [Fifo.hostHead, h.cpuHead, h.base]; exact hv)]
          exact ⟨_, hreach, h.claimed, h.cpuHead, h.base, rfl, h.written, h.next⟩
        · exact absurd hstep (by simp only [reduceCtorEq, not_false_eq_true])
      · exact absurd hstep (by simp only [reduceCtorEq, not_false_eq_true])

/-- Every run of the ring is a run of the queue. -/
theorem ring_refines_fifo {ok : State P → Action P → Prop}
    (h : Reaches (step capacity) ok (init P) s) (hbound : s.claimed.length < 2 ^ 64) :
    ∃ f, Reaches Fifo.step always Fifo.empty f ∧ Abstracts s f := by
  induction h with
  | refl => exact ⟨Fifo.empty, reaches_refl _ _ _, abstracts_init⟩
  | tail hs hst ih =>
      rcases hst with ⟨a, -, hstep⟩
      have hb := Nat.lt_of_le_of_lt (claimed_length_le hstep) hbound
      rcases ih hb with ⟨f, hf, habs⟩
      rcases step_refines habs (inv_of_reaches hs hb) hb hstep with ⟨g, hg, habs'⟩
      exact ⟨g, reaches_trans hf hg, habs'⟩

end Runs

/-- The byte the host looks at is empty exactly when the queue has nothing to
    read. -/
theorem pollEmpty_iff (h : Abstracts s f) (hinv : Inv capacity s) (hp : s.poll = .idle) :
    PollEmpty capacity s ↔ f.poll = none := by
  rw [Fifo.poll_eq_none]
  constructor
  · rintro ⟨-, hty⟩
    by_contra hne
    have hle := f.cpuHead_le
    have hw : Written s s.cpuHead :=
      h.written _ (Nat.le_refl _) (by rw [← h.cpuHead]; omega)
    exact (hinv.written_iff hp).mp hw hty
  · intro heq
    refine ⟨hp, ?_⟩
    by_contra hty
    refine h.next ?_
    rw [← heq, h.cpuHead]
    exact (hinv.written_iff hp).mpr hty

end D2HFifo

end Internode

end MKernel
