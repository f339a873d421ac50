import Mathlib.Data.Fin.Basic
import MKernel.Core.SmallNumbers
import MKernel.Core.System
import MKernel.Internode.Efa.Requests

/-!
# The Transition to the Next Epoch

How the nodes come from the kernel of one epoch to that of the next:
`prepare_epoch`, a barrier of all ranks, `commit_epoch`, and the launch.

`prepare_epoch` clears nothing a peer writes to; on EFA at a low
`MKERNEL_PREP_EPOCH_FAST` level, and always on CX7, it leaves the proxies
paused. `commit_epoch` zeroes the arrival words, and on EFA also the
stage-barrier slots, unless `MKERNEL_COMMIT_EPOCH_SKIP_ARRIVAL_RESET` tells it
not to, and resumes the proxies. The environment is read in every call, so it
may differ from one to the next. Words are zeroed one after the other in any
order; writes of a kernel land at any time after it was launched, or never.
On EFA with immediate notification the flag is set by the receiving proxy, so
not while that is paused.

After the barrier a fast node may commit, launch and write while a slow node is
still zeroing, and the slow node then zeroes what the fast one has written
(`commit_erases`). It does not when a node zeroes only words that no newer
kernel can have written (`commit_keeps`), in particular when every commit skips
the reset (`behind_of_skips`).

## Main definitions

* `skipReset`, `fastLevel`, `pauses`: What the environment asks for.
* `resetCells`: What `commit_epoch` zeroes.
* `Node`, `World`, `step`: The nodes and the writes in flight.
* `Behind`: A node zeroes while no other node has launched the next kernel.
* `Erases`: A step zeroes a word written for a later epoch.

## Theorems

* `inv_step`: How far nodes are apart, and which epochs words are written for.
* `commit_keeps`: In runs that meet `Behind`, no commit erases.
* `behind_of_skips`: A run in which every commit skips the reset meets it.
* `commit_erases`: A commit erases what a faster node has written.
-/

namespace MKernel

namespace Internode

open MKernel.Core

namespace EpochTransition

/-- The backend; on EFA, who sets the arrival flags. -/
inductive Backend where
  | efa (notify : Efa.NotifyMode)
  | cx7
deriving DecidableEq

/-- The buffers peers write to. -/
structure Setup where
  backend : Backend
  /-- The flags and the tails. -/
  arrivalWords : Nat
  stageSlots : Nat

/-- A word peers write to. -/
inductive Cell where
  | arrival (i : Nat)
  | slot (i : Nat)
deriving DecidableEq

/-- The test of `MKERNEL_COMMIT_EPOCH_SKIP_ARRIVAL_RESET`: on CX7 it is set, on
    EFA it begins with a one. -/
def skipReset (backend : Backend) (env : Option String) : Bool :=
  match backend with
  | .cx7 => env.isSome
  | .efa _ => (env.bind (fun e => e.toList.head?)) == some '1'

/-- The level `MKERNEL_PREP_EPOCH_FAST` asks for. -/
def fastLevel (env : Option String) : Nat :=
  match env.bind (fun e => e.toList.head?) with
  | some c => if '1' ≤ c ∧ c ≤ '3' then c.toNat - '0'.toNat else 0
  | none => 0

/-- Whether `prepare_epoch` pauses the proxies. -/
def pauses (backend : Backend) (env : Option String) : Bool :=
  match backend with
  | .cx7 => true
  | .efa _ => decide (fastLevel env < 2)

/-- `reset_arrival_flags` and `reset_stage_barrier_flags`, as `commit_epoch` of
    the backend calls them. -/
def resetCells (setup : Setup) (env : Option String) : List Cell :=
  if skipReset setup.backend env then []
  else
    (List.range setup.arrivalWords).map Cell.arrival ++
      match setup.backend with
      -- Only EFA zeroes the barrier slots as well.
      | .cx7 => []
      | .efa _ => (List.range setup.stageSlots).map Cell.slot

/-- Where a node is between two launches. -/
inductive Phase where
  | running
  | prepared
  /-- In `commit_epoch`, with these words left to zero. -/
  | committing (rest : List Cell)
  | committed
deriving DecidableEq

/-- A node: the kernel it launched last, its phase, whether its proxies are
    paused, and its words, by the kernel they were written by. -/
structure Node where
  iter : Nat
  phase : Phase
  paused : Bool
  memory : Cell → Option Nat

/-- A write on its way, with the kernel it is for. -/
structure Write (N : Nat) where
  dst : Fin N
  cell : Cell
  iter : Nat
deriving DecidableEq

/-- The nodes and the writes in flight. -/
structure World (N : Nat) where
  node : Fin N → Node
  flight : List (Write N)

/-- What can happen next. -/
inductive Action (N : Nat) where
  /-- `prepare_epoch`, with `MKERNEL_PREP_EPOCH_FAST`. -/
  | prepare (i : Fin N) (env : Option String)
  /-- A node leaves the barrier and calls `commit_epoch`, with
      `MKERNEL_COMMIT_EPOCH_SKIP_ARRIVAL_RESET`. -/
  | commit (i : Fin N) (env : Option String)
  /-- The reset zeroes one of the words that are left. -/
  | zero (i : Fin N) (k : Nat)
  /-- `commit_epoch` resumes the proxies and returns. -/
  | resume (i : Fin N)
  | launch (i : Fin N)
  /-- A proxy posts a write to a word of a peer. -/
  | write (i j : Fin N) (cell : Cell)
  /-- A write in flight lands; writes land in any order, or never. -/
  | land (k : Nat)
deriving DecidableEq

variable {N : Nat}

/-- The first kernel everywhere, nothing written. -/
def init : World N where
  node := fun _ => { iter := 0, phase := .running, paused := false, memory := fun _ => none }
  flight := []

/-- Replace one node. -/
def World.setNode (w : World N) (i : Fin N) (n : Node) : World N :=
  { w with node := fun j => if j = i then n else w.node j }

/-- How many times a node has called `prepare_epoch`. -/
def Node.prepared (n : Node) : Nat := n.iter + if n.phase = .running then 0 else 1

/-- All nodes have come to the barrier a node is at. -/
def BarrierPasses (w : World N) (i : Fin N) : Prop := ∀ j, (w.node i).iter < (w.node j).prepared

instance (w : World N) (i : Fin N) : Decidable (BarrierPasses w i) :=
  inferInstanceAs (Decidable (∀ j, (w.node i).iter < (w.node j).prepared))

/-- Whether a word is set by the proxy of the node it is on. -/
def setByProxy (setup : Setup) (cell : Cell) : Bool :=
  match setup.backend, cell with
  | .efa .writeImm, .arrival _ => true
  | _, _ => false

/-- The proxy that would set the word is paused. -/
def shielded (setup : Setup) (n : Node) (cell : Cell) : Bool := setByProxy setup cell && n.paused

/-- The words a node has left to zero. -/
def Node.rest (n : Node) : List Cell :=
  match n.phase with
  | .committing rest => rest
  | _ => []

/-- One step of the nodes and the writes. -/
def step (setup : Setup) (w : World N) : Action N → Option (World N)
  | .prepare i env =>
    if (w.node i).phase = .running then
      some (w.setNode i { w.node i with
        phase := .prepared, paused := pauses setup.backend env })
    else
      none
  | .commit i env =>
    if (w.node i).phase = .prepared ∧ BarrierPasses w i then
      some (w.setNode i { w.node i with phase := .committing (resetCells setup env) })
    else
      none
  | .zero i k =>
    match (w.node i).rest[k]? with
    | none => none
    | some cell =>
      some (w.setNode i { w.node i with
        phase := .committing ((w.node i).rest.eraseIdx k)
        memory := fun c => if c = cell then none else (w.node i).memory c })
  | .resume i =>
    if (w.node i).phase = .committing [] then
      some (w.setNode i { w.node i with phase := .committed, paused := false })
    else
      none
  | .launch i =>
    if (w.node i).phase = .committed then
      some (w.setNode i { w.node i with iter := (w.node i).iter + 1, phase := .running })
    else
      none
  | .write i j cell =>
    if i ≠ j then
      some { w with flight := w.flight ++ [{ dst := j, cell := cell, iter := (w.node i).iter }] }
    else
      none
  | .land k =>
    match w.flight[k]? with
    | none => none
    | some m =>
      -- A completion that tells of the write waits until the proxy runs again.
      if shielded setup (w.node m.dst) m.cell = true then none
      else
        some ({ w with flight := w.flight.eraseIdx k }.setNode m.dst { w.node m.dst with
          memory := fun c => if c = m.cell then some m.iter else (w.node m.dst).memory c })

/-- A node zeroes a word while no node has launched a newer kernel, or while
    nobody can write the word. -/
def Behind (setup : Setup) (w : World N) : Action N → Prop
  | .zero i k => (∃ cell ∈ (w.node i).rest[k]?, shielded setup (w.node i) cell = true) ∨
      ∀ j, (w.node j).iter ≤ (w.node i).iter
  | _ => True

instance (setup : Setup) : ∀ (w : World N) (a : Action N), Decidable (Behind setup w a)
  | w, .zero i k => inferInstanceAs (Decidable
      ((∃ cell ∈ (w.node i).rest[k]?, shielded setup (w.node i) cell = true) ∨
        ∀ j, (w.node j).iter ≤ (w.node i).iter))
  | _, .prepare _ _ => isTrue trivial
  | _, .commit _ _ => isTrue trivial
  | _, .resume _ => isTrue trivial
  | _, .launch _ => isTrue trivial
  | _, .write _ _ _ => isTrue trivial
  | _, .land _ => isTrue trivial

/-- The step zeroes a word that was written for a later epoch. -/
def Erases (w : World N) : Action N → Prop
  | .zero i k => ∃ cell ∈ (w.node i).rest[k]?, ∃ e ∈ (w.node i).memory cell, (w.node i).iter < e
  | _ => False

/-! ## What every step keeps -/

/-- What each action requires and does. -/
inductive Steps (setup : Setup) (w : World N) : Action N → World N → Prop where
  | prepare (i : Fin N) (env : Option String) (hp : (w.node i).phase = .running) :
      Steps setup w (.prepare i env) (w.setNode i { w.node i with
        phase := .prepared, paused := pauses setup.backend env })
  | commit (i : Fin N) (env : Option String) (hp : (w.node i).phase = .prepared)
      (hb : BarrierPasses w i) :
      Steps setup w (.commit i env)
        (w.setNode i { w.node i with phase := .committing (resetCells setup env) })
  | zero (i : Fin N) (k : Nat) (rest : List Cell) (cell : Cell)
      (hp : (w.node i).phase = .committing rest) (hc : rest[k]? = some cell) :
      Steps setup w (.zero i k) (w.setNode i { w.node i with
        phase := .committing (rest.eraseIdx k)
        memory := fun c => if c = cell then none else (w.node i).memory c })
  | resume (i : Fin N) (hp : (w.node i).phase = .committing []) :
      Steps setup w (.resume i)
        (w.setNode i { w.node i with phase := .committed, paused := false })
  | launch (i : Fin N) (hp : (w.node i).phase = .committed) :
      Steps setup w (.launch i)
        (w.setNode i { w.node i with iter := (w.node i).iter + 1, phase := .running })
  | write (i j : Fin N) (cell : Cell) (hij : i ≠ j) :
      Steps setup w (.write i j cell)
        { w with flight := w.flight ++ [{ dst := j, cell := cell, iter := (w.node i).iter }] }
  | land (k : Nat) (m : Write N) (hm : w.flight[k]? = some m)
      (hs : shielded setup (w.node m.dst) m.cell = false) :
      Steps setup w (.land k)
        ({ w with flight := w.flight.eraseIdx k }.setNode m.dst { w.node m.dst with
          memory := fun c => if c = m.cell then some m.iter else (w.node m.dst).memory c })

/-- Only a node in `commit_epoch` has words left to zero. -/
theorem phase_of_rest {n : Node} {k : Nat} {cell : Cell} (h : n.rest[k]? = some cell) :
    n.phase = .committing n.rest := by
  rw [Node.rest] at h ⊢
  -- In the other phases nothing is left, so there is no such word.
  cases hp : n.phase with
  | committing rest => rfl
  | running => simp only [hp, List.getElem?_nil, reduceCtorEq] at h
  | prepared => simp only [hp, List.getElem?_nil, reduceCtorEq] at h
  | committed => simp only [hp, List.getElem?_nil, reduceCtorEq] at h

theorem steps_of_step {setup : Setup} {w u : World N} {a : Action N}
    (h : step setup w a = some u) : Steps setup w a u := by
  cases a with
  | prepare i env =>
      by_cases hp : (w.node i).phase = .running
      · rw [step, if_pos hp, Option.some.injEq] at h
        rw [← h]
        exact .prepare i env hp
      · rw [step, if_neg hp] at h
        exact absurd h (by simp only [reduceCtorEq, not_false_eq_true])
  | commit i env =>
      by_cases hp : (w.node i).phase = .prepared ∧ BarrierPasses w i
      · rw [step, if_pos hp, Option.some.injEq] at h
        rw [← h]
        exact .commit i env hp.1 hp.2
      · rw [step, if_neg hp] at h
        exact absurd h (by simp only [reduceCtorEq, not_false_eq_true])
  | zero i k =>
      cases hc : (w.node i).rest[k]? with
      | none => simp only [step, hc, reduceCtorEq] at h
      | some cell =>
          simp only [step, hc, Option.some.injEq] at h
          rw [← h]
          exact .zero i k _ cell (phase_of_rest hc) hc
  | resume i =>
      by_cases hp : (w.node i).phase = .committing []
      · rw [step, if_pos hp, Option.some.injEq] at h
        rw [← h]
        exact .resume i hp
      · rw [step, if_neg hp] at h
        exact absurd h (by simp only [reduceCtorEq, not_false_eq_true])
  | launch i =>
      by_cases hp : (w.node i).phase = .committed
      · rw [step, if_pos hp, Option.some.injEq] at h
        rw [← h]
        exact .launch i hp
      · rw [step, if_neg hp] at h
        exact absurd h (by simp only [reduceCtorEq, not_false_eq_true])
  | write i j cell =>
      by_cases hij : i ≠ j
      · rw [step, if_pos hij, Option.some.injEq] at h
        rw [← h]
        exact .write i j cell hij
      · rw [step, if_neg hij] at h
        exact absurd h (by simp only [reduceCtorEq, not_false_eq_true])
  | land k =>
      cases hm : w.flight[k]? with
      | none => simp only [step, hm, reduceCtorEq] at h
      | some m =>
          -- A shielded word is not written, so the step is impossible.
          by_cases hs : shielded setup (w.node m.dst) m.cell = true
          · simp only [step, hm, if_pos hs, reduceCtorEq] at h
          · simp only [step, hm, if_neg hs, Option.some.injEq] at h
            rw [← h]
            exact .land k m hm (Bool.eq_false_iff.mpr hs)

section Setters

variable (w : World N) (i : Fin N) (n : Node)

@[simp] theorem setNode_self : (w.setNode i n).node i = n := if_pos rfl

theorem setNode_ne {j : Fin N} (h : j ≠ i) : (w.setNode i n).node j = w.node j := if_neg h

/-- What holds of all nodes and of the new one holds of all nodes. -/
theorem setNode_forall {P : Fin N → Node → Prop} (h : ∀ j, P j (w.node j)) (hn : P i n)
    (j : Fin N) : P j ((w.setNode i n).node j) := by
  by_cases hj : j = i
  · rw [hj, setNode_self]
    exact hn
  · rw [setNode_ne _ _ _ hj]
    exact h j

end Setters

/-- How many barriers a node has left. -/
def Node.passed (n : Node) : Nat :=
  match n.phase with
  | .running => n.iter
  | .prepared => n.iter
  | .committing _ => n.iter + 1
  | .committed => n.iter + 1

theorem passed_le_prepared (n : Node) : n.passed ≤ n.prepared := by
  rw [Node.passed, Node.prepared]
  cases n.phase with
  | running => exact le_refl _
  | prepared => exact Nat.le_succ _
  | committing rest => exact le_refl _
  | committed => exact le_refl _

theorem iter_le_passed (n : Node) : n.iter ≤ n.passed := by
  rw [Node.passed]
  cases n.phase with
  | running => exact le_refl _
  | prepared => exact le_refl _
  | committing rest => exact Nat.le_succ _
  | committed => exact Nat.le_succ _

/-- Some node has launched this kernel. -/
def Launched (w : World N) (k : Nat) : Prop := ∃ j, k ≤ (w.node j).iter

/-- How far nodes are apart, and which kernels words are written for. -/
structure Inv (setup : Setup) (w : World N) : Prop where
  passed_le : ∀ i j, (w.node j).passed ≤ (w.node i).prepared
  memory : ∀ i c, ∀ e ∈ (w.node i).memory c, Launched w e
  flight : ∀ m ∈ w.flight, Launched w m.iter
  shielded : ∀ i c, shielded setup (w.node i) c = true →
    ∀ e ∈ (w.node i).memory c, e ≤ (w.node i).iter

theorem inv_init (setup : Setup) : Inv setup (init : World N) where
  passed_le := fun _ _ => le_refl _
  memory := fun _ _ _ h => absurd h (by simp only [init, Option.mem_def, reduceCtorEq,
    not_false_eq_true])
  flight := fun _ h => absurd h List.not_mem_nil
  shielded := fun _ _ _ _ h => absurd h (by simp only [init, Option.mem_def, reduceCtorEq,
    not_false_eq_true])

/-- Replacing a node by one that is as far or farther. -/
theorem inv_setNode {setup : Setup} {w : World N} {i : Fin N} {n : Node} {flight : List (Write N)}
    (hi : Inv setup w) (hflight : ∀ m ∈ flight, m ∈ w.flight) (hiter : (w.node i).iter ≤ n.iter)
    (hprepared : (w.node i).prepared ≤ n.prepared)
    (hpassed : ∀ j, n.passed ≤ (w.node j).prepared)
    (hmemory : ∀ c, ∀ e ∈ n.memory c, Launched w e)
    (hshielded : ∀ c, shielded setup n c = true → ∀ e ∈ n.memory c, e ≤ n.iter) :
    Inv setup ({ w with flight := flight }.setNode i n) := by
  -- No node goes back, so what was launched stays launched.
  have hmono : ∀ k, Launched w k → Launched ({ w with flight := flight }.setNode i n) k := by
    rintro k ⟨j, hj⟩
    refine ⟨j, ?_⟩
    by_cases hji : j = i
    · subst hji
      rw [setNode_self]
      exact le_trans hj hiter
    · rw [setNode_ne _ _ _ hji]
      exact hj
  refine ⟨fun j l => ?_, fun j => ?_, fun m hm => hmono _ (hi.flight m (hflight m hm)),
    fun j => ?_⟩
  · -- Either node may be the new one.
    refine setNode_forall _ i n (P := fun _ m => m.passed ≤ _) (fun l => ?_) ?_ l
    · exact setNode_forall _ i n (P := fun _ m => (w.node l).passed ≤ m.prepared)
        (fun j => hi.passed_le j l) (le_trans (hi.passed_le i l) hprepared) j
    · exact setNode_forall _ i n (P := fun _ m => n.passed ≤ m.prepared) hpassed
        (passed_le_prepared n) j
  · exact setNode_forall _ i n (P := fun _ m => ∀ c, ∀ e ∈ m.memory c, Launched _ e)
      (fun j c e he => hmono e (hi.memory j c e he)) (fun c e he => hmono e (hmemory c e he)) j
  · exact setNode_forall _ i n
      (P := fun _ m => ∀ c, shielded setup m c = true → ∀ e ∈ m.memory c, e ≤ m.iter)
      hi.shielded hshielded j

theorem not_shielded {setup : Setup} {n : Node} (hp : n.paused = false) (c : Cell) :
    shielded setup n c = false := by
  rw [shielded, hp, Bool.and_false]

theorem inv_step {setup : Setup} {w u : World N} {a : Action N} (hi : Inv setup w)
    (hstep : step setup w a = some u) : Inv setup u := by
  cases steps_of_step hstep with
  | prepare i env hp =>
      -- A running node has left as many barriers as it has prepared for.
      have hpassed : (w.node i).passed = (w.node i).iter := by rw [Node.passed, hp]
      have hprepared : (w.node i).prepared = (w.node i).iter := by
        rw [Node.prepared, if_pos hp, Nat.add_zero]
      refine inv_setNode hi (fun _ hm => hm) (le_refl _) ?_ (fun j => ?_) (hi.memory i) ?_
      · rw [hprepared]
        exact Nat.le_succ _
      · have hle := hi.passed_le j i
        rw [hpassed] at hle
        exact hle
      · intro c _ e he
        -- Nobody has left the barrier this node has not come to.
        rcases hi.memory i c e he with ⟨j, hj⟩
        exact le_trans hj (le_trans (iter_le_passed _) (hprepared ▸ hi.passed_le i j))
  | commit i env hp hb =>
      -- The barrier has let it pass, so all nodes have come to it.
      refine inv_setNode hi (fun _ hm => hm) (le_refl _) ?_ hb (hi.memory i) (hi.shielded i)
      rw [Node.prepared, hp]
      exact le_refl _
  | zero i k rest cell hp hc =>
      have hkept : ∀ c e, e ∈ (if c = cell then none else (w.node i).memory c) →
          e ∈ (w.node i).memory c := by
        intro c e he
        by_cases hcc : c = cell
        · simp only [if_pos hcc, Option.mem_def, reduceCtorEq] at he
        · simpa only [if_neg hcc] using he
      refine inv_setNode hi (fun _ hm => hm) (le_refl _) ?_ (fun j => ?_)
        (fun c e he => hi.memory i c e (hkept c e he))
        (fun c hs e he => hi.shielded i c hs e (hkept c e he))
      · rw [Node.prepared, hp]
        exact le_refl _
      · have hle := hi.passed_le j i
        rw [Node.passed, hp] at hle
        exact hle
  | resume i hp =>
      refine inv_setNode hi (fun _ hm => hm) (le_refl _) ?_ (fun j => ?_) (hi.memory i) ?_
      · rw [Node.prepared, hp]
        exact le_refl _
      · have hle := hi.passed_le j i
        rw [Node.passed, hp] at hle
        exact hle
      · -- A resumed proxy shields nothing.
        intro c hs
        rw [not_shielded rfl c] at hs
        exact absurd hs Bool.false_ne_true
  | launch i hp =>
      refine inv_setNode hi (fun _ hm => hm) (Nat.le_succ _) ?_ (fun j => ?_) (hi.memory i) ?_
      · rw [Node.prepared, hp]
        exact le_refl _
      · have hle := hi.passed_le j i
        rw [Node.passed, hp] at hle
        exact hle
      · -- The node's own kernel is newer still.
        exact fun c hs e he => Nat.le_succ_of_le (hi.shielded i c hs e he)
  | write i j cell hij =>
      refine ⟨hi.passed_le, hi.memory, fun m hm => ?_, hi.shielded⟩
      rcases List.mem_append.mp hm with hold | hnew
      · exact hi.flight m hold
      · -- The write is for the kernel its node has launched.
        rw [List.mem_singleton] at hnew
        exact ⟨i, by rw [hnew]⟩
  | land k m hm hs =>
      have hmem := List.mem_of_getElem? hm
      refine inv_setNode hi (fun _ => List.mem_of_mem_eraseIdx) (le_refl _) (le_refl _)
        (fun j => hi.passed_le j m.dst) ?_ ?_
      · intro c e he
        by_cases hc : c = m.cell
        · simp only [if_pos hc, Option.mem_def, Option.some.injEq] at he
          exact he ▸ hi.flight m hmem
        · simp only [if_neg hc] at he
          exact hi.memory m.dst c e he
      · intro c hsc e he
        by_cases hc : c = m.cell
        · -- The word that was written is not a shielded one.
          have hsame : shielded setup (w.node m.dst) m.cell = true := hc ▸ hsc
          exact absurd (hs.symm.trans hsame) Bool.false_ne_true
        · simp only [if_neg hc] at he
          exact hi.shielded m.dst c hsc e he

theorem inv_of_reaches {setup : Setup} {ok : World N → Action N → Prop} {w : World N}
    (h : Reaches (step setup) ok init w) : Inv setup w :=
  invariant_of_reaches (Inv setup) (fun _ _ _ hs _ hst => inv_step hs hst) h (inv_init setup)

/-- In every run in which a node zeroes only words that no newer kernel can have
    written, no commit erases what a peer has written for the new epoch. -/
theorem commit_keeps {setup : Setup} {w : World N}
    (h : Reaches (step setup) (Behind setup) init w) {a : Action N} (hok : Behind setup w a) :
    ¬ Erases w a := by
  have hi := inv_of_reaches h
  cases a with
  | zero i k =>
      rintro ⟨cell, hcell, e, he, hlt⟩
      -- The word is shielded, or no node has launched a newer kernel.
      rcases hok with ⟨c, hc, hs⟩ | hbehind
      · have hsame : cell = c := Option.some.inj (hcell.symm.trans hc)
        exact absurd hlt (Nat.not_lt.mpr (hi.shielded i c hs e (hsame ▸ he)))
      · rcases hi.memory i cell e he with ⟨j, hj⟩
        exact absurd hlt (Nat.not_lt.mpr (le_trans hj (hbehind j)))
  | prepare i env => exact id
  | commit i env => exact id
  | resume i => exact id
  | launch i => exact id
  | write i j cell => exact id
  | land k => exact id

/-- Every commit skips the reset. -/
def Skips (setup : Setup) (_w : World N) : Action N → Prop
  | .commit _ env => skipReset setup.backend env = true
  | _ => True

/-- A run in which every commit skips the reset has nothing to zero. -/
theorem behind_of_skips {setup : Setup} {w : World N}
    (h : Reaches (step setup) (Skips setup) init w) :
    Reaches (step setup) (Behind setup) init w := by
  refine reaches_strengthen (fun w a u hr hok hs => ?_) h
  -- The invariant of such runs: no node has a word left to zero.
  have hrest : ∀ i, (w.node i).rest = [] := by
    refine invariant_of_reaches (fun w => ∀ i, (w.node i).rest = []) ?_ hr (fun _ => rfl)
    intro w a u hi hok hs j
    have hset : ∀ (v : World N) (i : Fin N) (n : Node), v.node = w.node → n.rest = [] →
        ((v.setNode i n).node j).rest = [] := by
      intro v i n hv hn
      refine setNode_forall v i n (P := fun _ n => n.rest = []) (fun l => ?_) hn j
      rw [hv]
      exact hi l
    cases steps_of_step hs with
    | prepare i env hp => exact hset w i _ rfl rfl
    | commit i env hp hb => exact hset w i _ rfl (if_pos hok)
    | zero i k rest cell hp hc =>
        have hnil : rest = [] := by
          have hi' := hi i
          rwa [Node.rest, hp] at hi'
        rw [hnil, List.getElem?_nil] at hc
        exact absurd hc (by simp only [reduceCtorEq, not_false_eq_true])
    | resume i hp => exact hset w i _ rfl rfl
    | launch i hp => exact hset w i _ rfl rfl
    | write i l cell hij => exact hi j
    | land k m hm hsh => exact hset _ m.dst _ rfl (hi m.dst)
  cases a with
  | zero i k =>
      rw [step, hrest i, List.getElem?_nil] at hs
      exact absurd hs (by simp only [reduceCtorEq, not_false_eq_true])
  | prepare i env => exact trivial
  | commit i env => exact trivial
  | resume i => exact trivial
  | launch i => exact trivial
  | write i j cell => exact trivial
  | land k => exact trivial

/-- CX7 with one arrival word. -/
def cx7Setup : Setup := { backend := .cx7, arrivalWords := 1, stageSlots := 1 }

/-- EFA with immediate notification. -/
def efaSetup : Setup := { backend := .efa .writeImm, arrivalWords := 1, stageSlots := 1 }

/-- Two nodes; a write of the first epoch lands, and both come to the reset. -/
def bothCommit : List (Action 2) :=
  [.write 1 0 (.arrival 0), .land 0, .prepare 0 none, .prepare 1 none, .commit 1 none,
    .zero 1 0, .commit 0 none]

theorem commit_keeps_first : ∃ w : World 2,
    Reaches (step cx7Setup) (Behind cx7Setup) init w ∧ (w.node 0).rest = [.arrival 0] ∧
      (w.node 0).memory (.arrival 0) = some 0 ∧ ¬ Erases w (.zero 0 0) :=
  have h : Reaches (step cx7Setup) (Behind cx7Setup) init
      ((run (step cx7Setup) (Behind cx7Setup) bothCommit init).get (by decide +kernel)) :=
    reaches_of_run _ _ _ (Option.some_get _).symm
  ⟨_, h, by decide +kernel, by decide +kernel, commit_keeps h (by decide +kernel)⟩

/-- Two nodes; the second commits, launches and writes while the first has not
    begun to zero. -/
def fastNode (cell : Cell) (zeroes : List (Action 2)) : List (Action 2) :=
  [Action.prepare 0 none, .prepare 1 none, .commit 0 none, .commit 1 none] ++ zeroes ++
    [Action.resume 1, .launch 1, .write 1 0 cell, .land 0]

/-- On CX7 a commit erases an arrival flag, and on EFA a stage-barrier token,
    that a faster node has written for the new epoch. -/
theorem commit_erases :
    (∃ (w u : World 2) (a : Action 2), Reaches (step cx7Setup) always init w ∧
      step cx7Setup w a = some u ∧ Erases w a) ∧
    ∃ (w u : World 2) (a : Action 2), Reaches (step efaSetup) always init w ∧
      step efaSetup w a = some u ∧ Erases w a :=
  ⟨⟨(run (step cx7Setup) always (fastNode (.arrival 0) [.zero 1 0]) init).get (by decide +kernel),
      _, .zero 0 0, reaches_of_run _ _ _ (Option.some_get _).symm,
      (Option.some_get (by decide +kernel)).symm,
      .arrival 0, by decide +kernel, 1, by decide +kernel, by decide +kernel⟩,
    ⟨(run (step efaSetup) always (fastNode (.slot 0) [.zero 1 0, .zero 1 0]) init).get
        (by decide +kernel),
      _, .zero 0 1, reaches_of_run _ _ _ (Option.some_get _).symm,
      (Option.some_get (by decide +kernel)).symm,
      .slot 0, by decide +kernel, 1, by decide +kernel, by decide +kernel⟩⟩

end EpochTransition

end Internode

end MKernel
