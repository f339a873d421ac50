import MKernel.Core.SmallNumbers
import MKernel.Core.Strided
import MKernel.Internode.StageBarrier

/-!
# The Reset at the End of an Iteration

The end of a `gemm_ar` iteration on every node: the reduce CTAs zero the
arrival state of their node and one of them, the driver, meets the other nodes
at the barrier.

The words to zero, the arrival flags and then the tails, are shared out over
the threads of all reduce CTAs, each striding through its own. The driver
pushes its notify once its own threads are through, and waits; the other CTAs
zero on at their own pace. The kernel ends when all are done, and in the next
iteration the node writes into the arrival state of its peers. `World` puts
this on top of the barrier between nodes: `net` moves as `StageBarrier.step`
does, except that a node issues a barrier only from the driver.

A word written for the next iteration must not be zeroed by the reset of this
one. A peer that is an iteration ahead has left the barrier, so it has had this
node's notify. If the notify was pushed with all shares zeroed, then nothing is
left to zero (`reset_before_writes`). The code pushes it with the driver's share
zeroed, and a slow CTA zeroes what a fast peer has written (`reset_erases`).

## Main definitions

* `Setup`: The arrival words, the reduce CTAs and the epochs.
* `Reset`: A node's iteration and how far its threads have zeroed.
* `World`, `step`: The nodes, their barrier and the arrival writes.
* `AllZeroed`, `DriverZeroed`: Shares that are zeroed.
* `Gated`: A node issues a barrier when all its shares are zeroed, and leaves it
  when every other node has issued it.
* `Zeroed`: The same with the condition of the barrier between two nodes.
* `Erases`: A step zeroes a word written for a later iteration.

## Theorems

* `inv_step`: What every step keeps.
* `reset_before_writes`: In gated runs no step erases.
* `gated_of_two_nodes`: With two nodes the barrier sees to leaving.
* `allZeroed_of_driver`: With one reduce CTA the driver sees to issuing.
* `reset_erases`: With two reduce CTAs, a step erases.
-/

namespace MKernel

namespace GemmAr

open MKernel.Core MKernel.Internode

namespace IterEnd

/-- The arrival words, the reduce CTAs, the backend and the epochs. -/
structure Setup where
  numRemoteQueues : Nat
  remoteQueueStride : Nat
  /-- `arrival_tails` is not null. -/
  hasTails : Bool
  numReduce : Nat
  blockDim : Nat
  backend : StageBarrier.Backend
  epochs : List (BitVec 32)

namespace Setup

variable (s : Setup)

def totalFlagWords : Nat := s.numRemoteQueues * s.remoteQueueStride

def totalTailWords : Nat := if s.hasTails then s.numRemoteQueues else 0

/-- The number of threads that share the words. -/
def stride : Nat := s.numReduce * s.blockDim

/-- The barriers of the nodes: one at the end of each iteration. -/
def net : StageBarrier.Setup where
  backend := s.backend
  program := s.epochs.map .kernel

end Setup

/-- A word of the arrival state. -/
inductive Word where
  | flag (i : Nat)
  | tail (i : Nat)
deriving DecidableEq

variable {setup : Setup} {N : Nat}

/-- A node's iteration and how far its threads have zeroed the words. -/
structure Reset (setup : Setup) where
  iter : Nat
  flags : Strided setup.stride
  tails : Strided setup.stride

/-- An arrival write on its way, with the iteration it is for. -/
structure Arrival (N : Nat) where
  dst : Fin N
  word : Word
  iter : Nat
deriving DecidableEq

/-- The barrier, the resets, the arrival state of each node, by the iteration a
    word was written for, and the writes on their way. -/
structure World (setup : Setup) (N : Nat) where
  net : StageBarrier.World N
  reset : Fin N → Reset setup
  arrivals : Fin N → Word → Option Nat
  flight : List (Arrival N)

/-- What can happen next. -/
inductive Action (setup : Setup) (N : Nat) where
  /-- A step of the barrier between the nodes. -/
  | net (a : StageBarrier.Action N)
  /-- A thread zeroes its next word. -/
  | zero (i : Fin N) (t : Fin setup.stride)
  /-- All reduce CTAs of a node are done and the next iteration begins. -/
  | finish (i : Fin N)
  /-- A node writes a word of a peer's arrival state. -/
  | write (i j : Fin N) (word : Word)
  /-- An arrival write lands. -/
  | land (k : Nat)
deriving DecidableEq

/-- The start of an iteration. -/
def Reset.start (setup : Setup) (iter : Nat) : Reset setup :=
  { iter := iter, flags := Strided.start, tails := Strided.start }

/-- The first iteration, nothing written. -/
def init (setup : Setup) (N : Nat) : World setup N where
  net := StageBarrier.init
  reset := fun _ => Reset.start setup 0
  arrivals := fun _ _ => none
  flight := []

/-- A thread has zeroed its words. -/
def Reset.ThreadDone (r : Reset setup) (t : Fin setup.stride) : Prop :=
  setup.totalFlagWords ≤ r.flags.next t ∧ setup.totalTailWords ≤ r.tails.next t

instance (r : Reset setup) (t : Fin setup.stride) : Decidable (r.ThreadDone t) :=
  inferInstanceAs (Decidable (_ ∧ _))

/-- All threads of all reduce CTAs have zeroed their words. -/
def Reset.AllZeroed (r : Reset setup) : Prop := ∀ t, r.ThreadDone t

/-- The threads of the first reduce CTA, the driver, have zeroed theirs. -/
def Reset.DriverZeroed (r : Reset setup) : Prop :=
  ∀ t : Fin setup.stride, t / setup.blockDim = 0 → r.ThreadDone t

instance (r : Reset setup) : Decidable r.AllZeroed :=
  inferInstanceAs (Decidable (∀ t, r.ThreadDone t))

instance (r : Reset setup) : Decidable r.DriverZeroed :=
  inferInstanceAs (Decidable (∀ t : Fin setup.stride, t / setup.blockDim = 0 → r.ThreadDone t))

/-- The word a thread zeroes next, the flags before the tails. -/
def Reset.nextWord (r : Reset setup) (t : Fin setup.stride) : Option Word :=
  if r.flags.next t < setup.totalFlagWords then some (.flag (r.flags.next t))
  else if r.tails.next t < setup.totalTailWords then some (.tail (r.tails.next t))
  else none

/-- The reset after a thread has zeroed its next word. -/
def Reset.advance (r : Reset setup) (t : Fin setup.stride) : Reset setup :=
  if r.flags.next t < setup.totalFlagWords then { r with flags := r.flags.advance t }
  else { r with tails := r.tails.advance t }

/-- Replace the reset of one node. -/
def World.setReset (w : World setup N) (i : Fin N) (r : Reset setup) : World setup N :=
  { w with reset := fun j => if j = i then r else w.reset j }

/-- Write one word of a node's arrival state. -/
def World.setArrival (w : World setup N) (i : Fin N) (word : Word) (v : Option Nat) :
    World setup N :=
  { w with arrivals := fun j x => if j = i ∧ x = word then v else w.arrivals j x }

/-- The driver of a node may issue the barrier of its iteration. -/
def MayIssue (w : World setup N) (i : Fin N) : Prop :=
  (w.reset i).DriverZeroed ∧ (w.net.node i).idx = (w.reset i).iter

instance (w : World setup N) (i : Fin N) : Decidable (MayIssue w i) :=
  inferInstanceAs (Decidable (_ ∧ _))

/-- What the barrier's step requires of the node that takes it. -/
def netAllowed (w : World setup N) : StageBarrier.Action N → Bool
  | .issue i => decide (MayIssue w i)
  | _ => true

/-- One step of the nodes, their barrier and the arrival writes. -/
def step (w : World setup N) : Action setup N → Option (World setup N)
  | .net a =>
    if netAllowed w a then (StageBarrier.step setup.net w.net a).map (fun n => { w with net := n })
    else none
  | .zero i t =>
    if (w.reset i).iter < setup.epochs.length then
      ((w.reset i).nextWord t).map (fun word =>
        (w.setArrival i word none).setReset i ((w.reset i).advance t))
    else
      none
  | .finish i =>
    -- Without its barrier left behind the next kernel is not launched.
    if (w.net.node i).idx = (w.reset i).iter + 1 ∧ (w.reset i).AllZeroed then
      some (w.setReset i (Reset.start setup ((w.reset i).iter + 1)))
    else
      none
  | .write i j word =>
    if i ≠ j ∧ (w.reset i).iter < setup.epochs.length then
      some { w with flight := w.flight ++ [{ dst := j, word := word, iter := (w.reset i).iter }] }
    else
      none
  | .land k =>
    match w.flight[k]? with
    | none => none
    | some m =>
      some ({ w with flight := w.flight.eraseIdx k }.setArrival m.dst m.word (some m.iter))

/-- A node issues a barrier when all its shares are zeroed, and leaves it when
    every other node has issued it. -/
def Gated (w : World setup N) : Action setup N → Prop
  | .net (.issue i) => (w.reset i).AllZeroed
  | .net (.load i) => ∀ b ∈ setup.net.program[(w.net.node i).idx]?,
      b.passes ((w.net.node i).slots b.slot) = true →
        ∀ j, j ≠ i → (w.net.node i).idx < (w.net.node j).issued
  | _ => True

instance : ∀ (w : World setup N) (a : Action setup N), Decidable (Gated w a)
  | w, .net (.issue i) => inferInstanceAs (Decidable (w.reset i).AllZeroed)
  | w, .net (.load i) =>
    match h : setup.net.program[(w.net.node i).idx]? with
    | none => isTrue (fun b hb => absurd (h.symm.trans hb)
        (by simp only [reduceCtorEq, not_false_eq_true]))
    | some b => decidable_of_iff (b.passes ((w.net.node i).slots b.slot) = true →
          ∀ j, j ≠ i → (w.net.node i).idx < (w.net.node j).issued)
        ⟨fun hall c hc => by
            rw [← Option.some.inj (h.symm.trans hc)]
            exact hall,
          fun hall => hall b h⟩
  | _, .net (.setEpoch _ _) => isTrue trivial
  | _, .net (.resetSlots _) => isTrue trivial
  | _, .net (.serve _) => isTrue trivial
  | _, .net (.land _) => isTrue trivial
  | _, .zero _ _ => isTrue trivial
  | _, .finish _ => isTrue trivial
  | _, .write _ _ _ => isTrue trivial
  | _, .land _ => isTrue trivial

/-- A node issues a barrier when all its shares are zeroed, and the epochs are
    set as the barrier needs it. -/
def Zeroed (w : World setup N) : Action setup N → Prop
  | .net a => StageBarrier.Quiet setup.net w.net a ∧
      ∀ i, a = .issue i → (w.reset i).AllZeroed
  | _ => True

/-- The step zeroes a word that was written for a later iteration. -/
def Erases (w : World setup N) : Action setup N → Prop
  | .zero i t => ∃ word ∈ (w.reset i).nextWord t, ∃ k ∈ w.arrivals i word, (w.reset i).iter < k
  | _ => False

/-! ## What every step keeps -/

/-- What each action requires and does. -/
inductive Steps (w : World setup N) : Action setup N → World setup N → Prop where
  | net (a : StageBarrier.Action N) (n : StageBarrier.World N)
      (hm : ∀ i, a = .issue i → MayIssue w i)
      (hn : StageBarrier.step setup.net w.net a = some n) :
      Steps w (.net a) { w with net := n }
  | zero (i : Fin N) (t : Fin setup.stride) (word : Word)
      (hw : (w.reset i).nextWord t = some word) :
      Steps w (.zero i t)
        ((w.setArrival i word none).setReset i ((w.reset i).advance t))
  | finish (i : Fin N) (hidx : (w.net.node i).idx = (w.reset i).iter + 1)
      (hz : (w.reset i).AllZeroed) :
      Steps w (.finish i) (w.setReset i (Reset.start setup ((w.reset i).iter + 1)))
  | write (i j : Fin N) (word : Word) (hij : i ≠ j) :
      Steps w (.write i j word)
        { w with flight := w.flight ++ [{ dst := j, word := word, iter := (w.reset i).iter }] }
  | land (k : Nat) (m : Arrival N) (hm : w.flight[k]? = some m) :
      Steps w (.land k)
        ({ w with flight := w.flight.eraseIdx k }.setArrival m.dst m.word (some m.iter))

theorem steps_of_step {w u : World setup N} {a : Action setup N} (h : step w a = some u) :
    Steps w a u := by
  cases a with
  | net a =>
      by_cases hm : netAllowed w a = true
      · rw [step, if_pos hm] at h
        -- The driver issues the barrier only with the words of its own CTA zeroed.
        rcases Option.map_eq_some_iff.mp h with ⟨n, hn, rfl⟩
        refine .net a n (fun i ha => ?_) hn
        rw [ha] at hm
        exact of_decide_eq_true hm
      · rw [step, if_neg hm] at h
        exact absurd h (by simp only [reduceCtorEq, not_false_eq_true])
  | zero i t =>
      by_cases hi : (w.reset i).iter < setup.epochs.length
      · rw [step, if_pos hi] at h
        rcases Option.map_eq_some_iff.mp h with ⟨word, hw, rfl⟩
        exact .zero i t word hw
      · rw [step, if_neg hi] at h
        exact absurd h (by simp only [reduceCtorEq, not_false_eq_true])
  | finish i =>
      by_cases hf : (w.net.node i).idx = (w.reset i).iter + 1 ∧ (w.reset i).AllZeroed
      · rw [step, if_pos hf, Option.some.injEq] at h
        rw [← h]
        exact .finish i hf.1 hf.2
      · rw [step, if_neg hf] at h
        exact absurd h (by simp only [reduceCtorEq, not_false_eq_true])
  | write i j word =>
      by_cases hw : i ≠ j ∧ (w.reset i).iter < setup.epochs.length
      · rw [step, if_pos hw, Option.some.injEq] at h
        rw [← h]
        exact .write i j word hw.1
      · rw [step, if_neg hw] at h
        exact absurd h (by simp only [reduceCtorEq, not_false_eq_true])
  | land k =>
      cases hm : w.flight[k]? with
      | none => simp only [step, hm, reduceCtorEq] at h
      | some m =>
          simp only [step, hm, Option.some.injEq] at h
          rw [← h]
          exact .land k m hm

section Setters

variable (w : World setup N) (i : Fin N) (r : Reset setup)

@[simp] theorem setReset_self : (w.setReset i r).reset i = r := if_pos rfl

theorem setReset_ne {j : Fin N} (h : j ≠ i) : (w.setReset i r).reset j = w.reset j := if_neg h

end Setters

/-- A thread that zeroes a word stays in its iteration. -/
@[simp] theorem advance_iter (r : Reset setup) (t : Fin setup.stride) :
    (r.advance t).iter = r.iter := by
  by_cases hf : r.flags.next t < setup.totalFlagWords
  · rw [Reset.advance, if_pos hf]
  · rw [Reset.advance, if_neg hf]

/-- A thread that is done has no next word. -/
theorem nextWord_of_threadDone {r : Reset setup} {t : Fin setup.stride} (h : r.ThreadDone t) :
    r.nextWord t = none := by
  rw [Reset.nextWord, if_neg (Nat.not_lt.mpr h.1), if_neg (Nat.not_lt.mpr h.2)]

/-- Some node has come to this iteration. -/
def Begun (w : World setup N) (k : Nat) : Prop := ∃ j, k ≤ (w.reset j).iter

/-- How the iterations of the nodes relate to the barriers they issue, and
    which iterations words are written for. -/
structure Inv (w : World setup N) : Prop where
  zeroed : ∀ i, (w.reset i).iter < (w.net.node i).issued → (w.reset i).AllZeroed
  iter_le : ∀ i, (w.reset i).iter ≤ (w.net.node i).idx
  issued_le : ∀ i, (w.net.node i).issued ≤ (w.reset i).iter + 1
  together : StageBarrier.LeavesTogether w.net
  arrivals : ∀ i word, ∀ k ∈ w.arrivals i word, Begun w k
  flight : ∀ m ∈ w.flight, Begun w m.iter

theorem begun_mono {w u : World setup N} (hle : ∀ j, (w.reset j).iter ≤ (u.reset j).iter) {k : Nat}
    (h : Begun w k) : Begun u k := by
  rcases h with ⟨j, hj⟩
  exact ⟨j, le_trans hj (hle j)⟩

theorem inv_init (setup : Setup) : Inv (init setup N) where
  zeroed := fun _ h => absurd h (Nat.lt_irrefl 0)
  iter_le := fun _ => le_refl _
  issued_le := fun _ => Nat.zero_le _
  together := fun _ _ => le_refl _
  arrivals := fun _ _ _ h => absurd h (by simp only [init, Option.mem_def, reduceCtorEq,
    not_false_eq_true])
  flight := fun _ h => absurd h List.not_mem_nil

/-- A step of the barrier. -/
theorem inv_net {w : World setup N} {a : StageBarrier.Action N} {n : StageBarrier.World N}
    (hi : Inv w) (hok : Gated w (.net a)) (hm : ∀ i, a = .issue i → MayIssue w i)
    (hn : StageBarrier.step setup.net w.net a = some n) : Inv { w with net := n } := by
  have hs := StageBarrier.steps_of_step hn
  have hle := StageBarrier.issued_le_step hs
  refine ⟨fun j => ?_, fun j => ?_, fun j => ?_, fun j l => ?_, hi.arrivals, hi.flight⟩
  · intro hlt
    cases StageBarrier.progress_of_steps hs j with
    | same hidx hwait =>
        refine hi.zeroed j ?_
        rw [StageBarrier.Node.issued, ← hidx, ← hwait]
        exact hlt
    | issue ha hw hidx hwait =>
        rw [ha] at hok
        exact hok
    | leave ha b hb hp hw hidx hwait =>
        -- Leaving a barrier does not issue another.
        refine hi.zeroed j (lt_of_lt_of_le hlt ?_)
        rw [StageBarrier.Node.issued, StageBarrier.Node.issued, hidx, hw, hwait]
        exact le_refl _
  · cases StageBarrier.progress_of_steps hs j with
    | same hidx hwait => exact hidx ▸ hi.iter_le j
    | issue ha hw hidx hwait => exact hidx ▸ hi.iter_le j
    | leave ha b hb hp hw hidx hwait => exact hidx ▸ Nat.le_succ_of_le (hi.iter_le j)
  · have hissued := hi.issued_le j
    cases StageBarrier.progress_of_steps hs j with
    | same hidx hwait =>
        rw [StageBarrier.Node.issued, hidx, hwait]
        exact hissued
    | issue ha hw hidx hwait =>
        -- A node issues the barrier of the iteration it is in.
        rw [StageBarrier.Node.issued, hidx, hwait, (hm j ha).2]
        exact le_refl _
    | leave ha b hb hp hw hidx hwait =>
        rw [StageBarrier.Node.issued, hw] at hissued
        rw [StageBarrier.Node.issued, hidx, hwait]
        exact hissued
  · cases StageBarrier.progress_of_steps hs j with
    | same hidx hwait => exact hidx ▸ le_trans (hi.together j l) (hle l)
    | issue ha hw hidx hwait => exact hidx ▸ le_trans (hi.together j l) (hle l)
    | leave ha b hb hp hw hidx hwait =>
        rw [ha] at hok
        -- The gate lets a node out when all others have issued.
        by_cases hlj : l = j
        · rw [hlj]
          exact Nat.le_add_right _ _
        · exact hidx ▸ le_trans (hok b hb hp l hlj) (hle l)

/-- A step of the resets or the writes leaves the barrier alone. -/
theorem inv_of {w u : World setup N} (hi : Inv w) (hnet : u.net = w.net)
    (hle : ∀ j, (w.reset j).iter ≤ (u.reset j).iter)
    (hiter : ∀ j, (u.reset j).iter ≤ (w.net.node j).idx)
    (hzeroed : ∀ j, (u.reset j).iter < (w.net.node j).issued → (u.reset j).AllZeroed)
    (harrivals : ∀ i word, ∀ k ∈ u.arrivals i word, Begun u k ∨ k ∈ w.arrivals i word)
    (hflight : ∀ m ∈ u.flight, Begun u m.iter ∨ m ∈ w.flight) : Inv u where
  zeroed := fun j => by rw [hnet]; exact hzeroed j
  iter_le := fun j => by rw [hnet]; exact hiter j
  issued_le := fun j => by
    rw [hnet]
    exact le_trans (hi.issued_le j) (Nat.succ_le_succ (hle j))
  together := by rw [hnet]; exact hi.together
  arrivals := fun i word k hk => (harrivals i word k hk).elim id
    (fun hold => begun_mono hle (hi.arrivals i word k hold))
  flight := fun m hm => (hflight m hm).elim id (fun hold => begun_mono hle (hi.flight m hold))

theorem inv_zero {w : World setup N} {i : Fin N} {t : Fin setup.stride} {word : Word}
    (hi : Inv w) (hw : (w.reset i).nextWord t = some word) :
    Inv ((w.setArrival i word none).setReset i ((w.reset i).advance t)) := by
  have hiter : ∀ j, (((w.setArrival i word none).setReset i ((w.reset i).advance t)).reset j).iter =
      (w.reset j).iter := by
    intro j
    by_cases hj : j = i
    · rw [hj, setReset_self, advance_iter]
    · rw [setReset_ne _ _ _ hj]
      rfl
  refine inv_of hi rfl (fun j => (hiter j).ge) (fun j => (hiter j) ▸ hi.iter_le j) ?_ ?_
    (fun m hm => Or.inr hm)
  · intro j hlt
    rw [hiter j] at hlt
    have hz := hi.zeroed j hlt
    by_cases hj : j = i
    · -- Nothing is left to zero on a node that has issued.
      subst hj
      rw [nextWord_of_threadDone (hz t)] at hw
      exact absurd hw (by simp only [reduceCtorEq, not_false_eq_true])
    · rw [setReset_ne _ _ _ hj]
      exact hz
  · intro j x k hk
    by_cases hjx : j = i ∧ x = word
    · -- A word that was zeroed is of no iteration.
      rw [World.setReset, World.setArrival] at hk
      simp only [if_pos hjx, Option.mem_def, reduceCtorEq] at hk
    · rw [World.setReset, World.setArrival] at hk
      simp only [if_neg hjx] at hk
      exact Or.inr hk

theorem inv_finish {w : World setup N} {i : Fin N} (hi : Inv w)
    (hidx : (w.net.node i).idx = (w.reset i).iter + 1) :
    Inv (w.setReset i (Reset.start setup ((w.reset i).iter + 1))) := by
  refine inv_of hi rfl ?_ ?_ ?_ (fun _ _ _ hk => Or.inr hk) (fun _ hm => Or.inr hm)
  · intro j
    by_cases hj : j = i
    · rw [hj, setReset_self]
      exact Nat.le_succ _
    · rw [setReset_ne _ _ _ hj]
  · intro j
    by_cases hj : j = i
    · rw [hj, setReset_self]
      exact hidx.ge
    · rw [setReset_ne _ _ _ hj]
      exact hi.iter_le j
  · intro j hlt
    by_cases hj : j = i
    · -- The barrier of the new iteration is not issued yet.
      rw [hj, setReset_self] at hlt
      exact absurd (hi.issued_le i) (Nat.not_le_of_lt hlt)
    · rw [setReset_ne _ _ _ hj] at hlt ⊢
      exact hi.zeroed j hlt

theorem inv_step {w u : World setup N} {a : Action setup N} (hi : Inv w) (hok : Gated w a)
    (hstep : step w a = some u) : Inv u := by
  cases steps_of_step hstep with
  | net a n hm hn => exact inv_net hi hok hm hn
  | zero i t word hw => exact inv_zero hi hw
  | finish i hidx hz => exact inv_finish hi hidx
  | write i j word hij =>
      refine inv_of hi rfl (fun _ => le_refl _) hi.iter_le hi.zeroed (fun _ _ _ hk => Or.inr hk) ?_
      intro m hm
      rcases List.mem_append.mp hm with hold | hnew
      · exact Or.inr hold
      · rw [List.mem_singleton] at hnew
        exact Or.inl ⟨i, by rw [hnew]⟩
  | land k m hm =>
      have hmem := List.mem_of_getElem? hm
      refine inv_of hi rfl (fun _ => le_refl _) hi.iter_le hi.zeroed ?_
        (fun m' hm' => Or.inr (List.mem_of_mem_eraseIdx hm'))
      intro j x l hl
      by_cases hjx : j = m.dst ∧ x = m.word
      · rw [World.setArrival] at hl
        simp only [if_pos hjx, Option.mem_def, Option.some.injEq] at hl
        rw [← hl]
        exact Or.inl (hi.flight m hmem)
      · rw [World.setArrival] at hl
        simp only [if_neg hjx] at hl
        exact Or.inr hl

theorem inv_of_reaches {w : World setup N} (h : Reaches step Gated (init setup N) w) : Inv w :=
  invariant_of_reaches Inv (fun _ _ _ hs hok hst => inv_step hs hok hst) h (inv_init setup)

/-- In every run in which a node issues a barrier with all its shares zeroed,
    and leaves it when every other node has issued it, no step zeroes a word
    written for a later iteration. -/
theorem reset_before_writes {w : World setup N} (h : Reaches step Gated (init setup N) w)
    (a : Action setup N) : ¬ Erases w a := by
  have hi := inv_of_reaches h
  cases a with
  | zero i t =>
      rintro ⟨word, hword, k, hk, hlt⟩
      rcases hi.arrivals i word k hk with ⟨j, hj⟩
      -- The writer has left this iteration's barrier, so it was issued here too.
      have hissued : (w.reset i).iter < (w.net.node i).issued :=
        lt_of_lt_of_le (lt_of_lt_of_le hlt hj) (le_trans (hi.iter_le j) (hi.together j i))
      rw [nextWord_of_threadDone (hi.zeroed i hissued t)] at hword
      exact absurd hword (by simp only [Option.mem_def, reduceCtorEq, not_false_eq_true])
  | net a => exact id
  | finish i => exact id
  | write i j word => exact id
  | land k => exact id

/-! ## Two nodes -/

/-- The barrier runs as it does alone. -/
theorem net_of_reaches {w : World setup N} (h : Reaches step Zeroed (init setup N) w) :
    Reaches (StageBarrier.step setup.net) (StageBarrier.Quiet setup.net) StageBarrier.init
      w.net := by
  refine reaches_map World.net (fun w a u hok hs => ?_) h
  cases steps_of_step hs with
  | net a n hm hn => exact reaches_step (reaches_refl _ _ _) a hok.1 hn
  | zero i t word hw => exact reaches_refl _ _ _
  | finish i hidx hz => exact reaches_refl _ _ _
  | write i j word hij => exact reaches_refl _ _ _
  | land k m hm => exact reaches_refl _ _ _

/-- With two nodes, that the other has issued is what the barrier sees to. -/
theorem gated_of_two_nodes (hinc : setup.net.Increasing) {w : World setup 2}
    (h : Reaches step Zeroed (init setup 2) w) : Reaches step Gated (init setup 2) w := by
  refine reaches_strengthen (fun w a u hr hok hs => ?_) h
  cases a with
  | net a =>
      cases a with
      | issue i => exact hok.2 i rfl
      | load i =>
          intro b hb hp j hj
          have hi := StageBarrier.inv_of_reaches hinc (net_of_reaches hr)
          -- Somebody has issued, and there is only the other node.
          rcases StageBarrier.issued_of_passes hinc hi hb hp with ⟨l, hl, hlt⟩
          have hlj : l = j := by omega
          rw [← hlj]
          exact hlt
      | setEpoch i e => exact trivial
      | resetSlots i => exact trivial
      | serve i => exact trivial
      | land k => exact trivial
  | zero i t => exact trivial
  | finish i => exact trivial
  | write i j word => exact trivial
  | land k => exact trivial

/-- With one reduce CTA the driver's share is all there is. -/
theorem allZeroed_of_driver (hone : setup.numReduce = 1) {r : Reset setup}
    (h : r.DriverZeroed) : r.AllZeroed := by
  intro t
  refine h t (Nat.div_eq_of_lt ?_)
  -- Every thread is one of the first CTA's.
  have hlt : t.val < setup.numReduce * setup.blockDim := t.isLt
  rw [hone, Nat.one_mul] at hlt
  exact hlt

/-- One word of flags for each of two reduce CTAs of one thread, and no tails. -/
def twoCtas : Setup where
  numRemoteQueues := 2
  remoteQueueStride := 1
  hasTails := false
  numReduce := 2
  blockDim := 1
  backend := .efa
  epochs := [1, 2]

/-- Two nodes, both of whose CTAs zero before their driver issues; the second
    node writes for its second iteration before the first has begun its own. -/
def gatedRun : List (Action twoCtas 2) :=
  [.zero 0 (0 : Fin 2), .zero 0 (1 : Fin 2), .zero 1 (0 : Fin 2), .zero 1 (1 : Fin 2),
    .net (.setEpoch 0 1), .net (.setEpoch 1 1), .net (.issue 0), .net (.issue 1), .net (.serve 0),
    .net (.serve 1), .net (.land 0),
    .net (.load 1), .finish 1, .write 1 0 (.flag 1), .land 0]

theorem reset_before_writes_second : ∃ w : World twoCtas 2,
    Reaches step Gated (init twoCtas 2) w ∧ w.arrivals 0 (.flag 1) = some 1 ∧
      (w.reset 0).iter = 0 ∧ ∀ a, ¬ Erases w a :=
  have h : Reaches step Gated (init twoCtas 2)
      ((run step Gated gatedRun (init twoCtas 2)).get (by decide +kernel)) :=
    reaches_of_run _ _ _ (Option.some_get _).symm
  ⟨_, h, by decide +kernel, by decide +kernel, reset_before_writes h⟩

/-- The driver of the first node issues when its own share is zeroed. -/
def slowCta : List (Action twoCtas 2) :=
  [.zero 0 (0 : Fin 2), .zero 1 (0 : Fin 2), .zero 1 (1 : Fin 2), .net (.setEpoch 0 1),
    .net (.setEpoch 1 1), .net (.issue 0), .net (.issue 1), .net (.serve 0), .net (.land 0),
    .net (.load 1), .finish 1, .write 1 0 (.flag 1), .land 0]

/-- The second CTA of a node zeroes a word that the other node has written for
    the next iteration. -/
theorem reset_erases : ∃ (w u : World twoCtas 2) (a : Action twoCtas 2),
    Reaches step always (init twoCtas 2) w ∧ step w a = some u ∧ Erases w a :=
  ⟨(run step always slowCta (init twoCtas 2)).get (by decide +kernel), _,
    .zero 0 (1 : Fin 2), reaches_of_run _ _ _ (Option.some_get _).symm,
    (Option.some_get (by decide +kernel)).symm,
    .flag 1, by decide +kernel, 1, by decide +kernel, by decide +kernel⟩

end IterEnd

end GemmAr

end MKernel
