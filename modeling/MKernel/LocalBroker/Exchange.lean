import MKernel.Core.SmallNumbers
import MKernel.Core.Spread
import MKernel.LocalBroker.Sync

/-!
# Exchanging Data

The calls of the local broker that all processes of a node make together: `sync`, and
`exchange_data` with a `sync` before and after the process writes its bytes to the vault.

All processes make the same calls. A process that reads has left the second `sync` of its
call, so all have entered that, and have written. And none has left the first `sync` of the
next exchange, as the reader has not entered it, so none writes yet (`posted_of_read`).
A fast process may thus be in the next call while a slow one reads, but only at its
beginning.

Every byte that is copied is a step of its own. A call has its own `dst`. The three calls of
`sync` in the constructor are calls like others.

## Main definitions

* `Op`: A call.
* `Job`: The calls, and what each process gives to each.
* `Stage`: Where a process is in its call.
* `World`, `step`: All processes and the data of their vault.
* `Job.syncs`: The number of syncs before a call.
* `Posted`: What a process gave to a call is still in the vault.
* `Inv`: What every step keeps.

## Theorems

* `inv_step`: What every step keeps.
* `posted_of_read`: While a process reads, all bytes are there.
* `broker_collectives`: The barrier and the exchanges.
-/

namespace MKernel

namespace LocalBroker

open MKernel.Core

/-- `VAULT_SIZE_PER_RANK`. -/
def vaultSizePerRank : Nat := 64

namespace Exchange

/-- A call. `exchange_data` takes no more bytes than a process has room for. -/
inductive Op where
  | sync
  | exchangeData (size : Nat) (fits : size ≤ vaultSizePerRank)
deriving DecidableEq

/-- The calls that all make, and what process `i` has in `src` at call `k`. -/
structure Job where
  op : Nat → Op
  src : Nat → Nat → Nat → UInt8

/-- Where a process is in its call. -/
inductive Stage where
  /-- The `sync` that the call begins with. -/
  | first
  /-- The bytes before `j` are in the vault. -/
  | write (j : Nat)
  /-- The `sync` after that. -/
  | second
  /-- The bytes before `j` are in `dst`. -/
  | read (j : Nat)
deriving DecidableEq

/-- The processes, the data of the vault, and `dst` of each call of each process. -/
structure World (n : Nat) where
  sync : Sync.State n
  call : Fin n → Nat
  stage : Fin n → Stage
  data : Nat → UInt8
  dst : Fin n → Nat → Nat → Option UInt8

variable {n : Nat}

def init : World n where
  sync := Sync.init
  call := fun _ => 0
  stage := fun _ => .first
  data := fun _ => 0
  dst := fun _ _ _ => none

namespace World

variable (w : World n) (p : Fin n)

/-- A process goes on to another stage of its call. -/
def goto (st : Stage) : World n := { w with stage := Function.update w.stage p st }

/-- A process returns from its call. -/
def finish : World n :=
  { w with
    call := Function.update w.call p (w.call p + 1)
    stage := Function.update w.stage p .first }

/-- Byte `j` of `src` is copied to the place of the process. -/
def put (job : Job) (j : Nat) : World n :=
  { w with data := Function.update w.data (p * vaultSizePerRank + j) (job.src p (w.call p) j) }

/-- Byte `j` of `dst` is copied from the place of process `j / size`. -/
def get (size j : Nat) : World n :=
  { w with
    dst := Function.update w.dst p (Function.update (w.dst p) (w.call p)
      (Function.update (w.dst p (w.call p)) j
        (some (w.data (j / size * vaultSizePerRank + j % size))))) }

end World

/-- The next step of a process, if it need not wait. -/
def step (job : Job) (w : World n) (p : Fin n) : Option (World n) :=
  match w.stage p, job.op (w.call p) with
  | .first, op =>
      (Sync.step w.sync p).map fun t =>
        let w' := { w with sync := t }
        if t.pc p ≠ .outside then w'
        else
          match op with
          | .sync => w'.finish p
          | .exchangeData _ _ => w'.goto p (.write 0)
  | .write j, .exchangeData size _ =>
      some (if j < size then (w.put p job j).goto p (.write (j + 1)) else w.goto p .second)
  | .second, .exchangeData _ _ =>
      (Sync.step w.sync p).map fun t =>
        let w' := { w with sync := t }
        if t.pc p ≠ .outside then w' else w'.goto p (.read 0)
  | .read j, .exchangeData size _ =>
      some (if j < n * size then (w.get p size j).goto p (.read (j + 1)) else w.finish p)
  | _, .sync => none

variable {job : Job} {w w' : World n} {p q : Fin n}

/-- What one step does. -/
inductive Steps (job : Job) (w : World n) (p : Fin n) : World n → Prop where
  | inside (t : Sync.State n) (hst : w.stage p = .first ∨ w.stage p = .second)
      (ht : Sync.step w.sync p = some t) (hin : t.pc p ≠ .outside) :
      Steps job w p { w with sync := t }
  | leaveSync (t : Sync.State n) (hst : w.stage p = .first) (hop : job.op (w.call p) = .sync)
      (ht : Sync.step w.sync p = some t) (hout : t.pc p = .outside) :
      Steps job w p (World.finish { w with sync := t } p)
  | leaveFirst (t : Sync.State n) (size : Nat) (fits : size ≤ vaultSizePerRank)
      (hst : w.stage p = .first) (hop : job.op (w.call p) = .exchangeData size fits)
      (ht : Sync.step w.sync p = some t) (hout : t.pc p = .outside) :
      Steps job w p (World.goto { w with sync := t } p (.write 0))
  | put (j size : Nat) (fits : size ≤ vaultSizePerRank) (hst : w.stage p = .write j)
      (hop : job.op (w.call p) = .exchangeData size fits) (hj : j < size) :
      Steps job w p ((w.put p job j).goto p (.write (j + 1)))
  | written (j size : Nat) (fits : size ≤ vaultSizePerRank) (hst : w.stage p = .write j)
      (hop : job.op (w.call p) = .exchangeData size fits) (hj : ¬ j < size) :
      Steps job w p (w.goto p .second)
  | leaveSecond (t : Sync.State n) (size : Nat) (fits : size ≤ vaultSizePerRank)
      (hst : w.stage p = .second) (hop : job.op (w.call p) = .exchangeData size fits)
      (ht : Sync.step w.sync p = some t) (hout : t.pc p = .outside) :
      Steps job w p (World.goto { w with sync := t } p (.read 0))
  | get (j size : Nat) (fits : size ≤ vaultSizePerRank) (hst : w.stage p = .read j)
      (hop : job.op (w.call p) = .exchangeData size fits) (hj : j < n * size) :
      Steps job w p ((w.get p size j).goto p (.read (j + 1)))
  | finish (j size : Nat) (fits : size ≤ vaultSizePerRank) (hst : w.stage p = .read j)
      (hop : job.op (w.call p) = .exchangeData size fits) (hj : ¬ j < n * size) :
      Steps job w p (w.finish p)

theorem steps_of_step (h : step job w p = some w') : Steps job w p w' := by
  cases hst : w.stage p with
  | first =>
      simp only [step, hst] at h
      rcases Option.map_eq_some_iff.mp h with ⟨t, ht, rfl⟩
      -- Either the process is still in the sync, or it has left it.
      by_cases hin : t.pc p ≠ .outside
      · rw [if_pos hin]
        exact .inside t (Or.inl hst) ht hin
      · rw [if_neg hin]
        cases hop : job.op (w.call p) with
        | sync => exact .leaveSync t hst hop ht (not_not.mp hin)
        | exchangeData size fits => exact .leaveFirst t size fits hst hop ht (not_not.mp hin)
  | write j =>
      cases hop : job.op (w.call p) with
      | sync =>
          simp only [step, hst, hop, reduceCtorEq] at h
      | exchangeData size fits =>
          simp only [step, hst, hop, Option.some.injEq] at h
          rw [← h]
          -- Either there is a byte left to write, or it goes to the second sync.
          by_cases hj : j < size
          · rw [if_pos hj]
            exact .put j size fits hst hop hj
          · rw [if_neg hj]
            exact .written j size fits hst hop hj
  | second =>
      cases hop : job.op (w.call p) with
      | sync =>
          simp only [step, hst, hop, reduceCtorEq] at h
      | exchangeData size fits =>
          simp only [step, hst, hop] at h
          rcases Option.map_eq_some_iff.mp h with ⟨t, ht, rfl⟩
          by_cases hin : t.pc p ≠ .outside
          · rw [if_pos hin]
            exact .inside t (Or.inr hst) ht hin
          · rw [if_neg hin]
            exact .leaveSecond t size fits hst hop ht (not_not.mp hin)
  | read j =>
      cases hop : job.op (w.call p) with
      | sync =>
          simp only [step, hst, hop, reduceCtorEq] at h
      | exchangeData size fits =>
          simp only [step, hst, hop, Option.some.injEq] at h
          rw [← h]
          -- Either there is a byte left to read, or the call is over.
          by_cases hj : j < n * size
          · rw [if_pos hj]
            exact .get j size fits hst hop hj
          · rw [if_neg hj]
            exact .finish j size fits hst hop hj

/-! ## One process -/

/-- The syncs of a call. -/
def Op.syncs : Op → Nat
  | .sync => 1
  | .exchangeData _ _ => 2

/-- The syncs before call `k`. -/
def Job.syncs (job : Job) : Nat → Nat
  | 0 => 0
  | k + 1 => job.syncs k + (job.op k).syncs

/-- The syncs of its call that a process has left. -/
def Stage.passed : Stage → Nat
  | .first => 0
  | .write _ | .second => 1
  | .read _ => 2

/-- What belongs to one process. -/
structure Local where
  round : Nat
  pc : Pc
  call : Nat
  stage : Stage
  area : Fin vaultSizePerRank → UInt8
  dst : Nat → Nat → Option UInt8

def World.proc (w : World n) (q : Fin n) : Local where
  round := w.sync.round q
  pc := w.sync.pc q
  call := w.call q
  stage := w.stage q
  area := fun b => w.data (q * vaultSizePerRank + b)
  dst := w.dst q

/-- What the process gave to call `k` is in the vault. -/
def Posted (k : Nat) (l : Local) : Prop :=
  l.call = k ∧ (l.stage = .second ∨ ∃ j, l.stage = .read j) ∨ l.call = k + 1 ∧ l.stage = .first

/-- What is known about process `q`. -/
structure Own (n : Nat) (job : Job) (q : Nat) (l : Local) : Prop where
  round : l.round = job.syncs l.call + l.stage.passed
  /-- It is in no sync while it copies. -/
  outside : l.stage ≠ .first → l.stage ≠ .second → l.pc = .outside
  exchange : l.stage ≠ .first → ∃ size fits, job.op l.call = .exchangeData size fits
  written : ∀ j, l.stage = .write j → ∀ b : Fin vaultSizePerRank, b < j →
    l.area b = job.src q l.call b
  posted : ∀ k size fits, job.op k = .exchangeData size fits → Posted k l →
    ∀ b : Fin vaultSizePerRank, b < size → l.area b = job.src q k b
  /-- It has what all gave to the calls before, and to this one as far as it has read. -/
  got : ∀ k size fits, job.op k = .exchangeData size fits → ∀ j < n * size,
    (k < l.call ∨ k = l.call ∧ ∃ i, l.stage = .read i ∧ j < i) →
    l.dst k j = some (job.src (j / size) k (j % size))

section Local

variable {l : Local} {j size : Nat} {fits : size ≤ vaultSizePerRank}

/-- A step in the vault of a process that stays in its sync. -/
theorem Own.inside (h : Own n job q l) (hst : l.stage = .first ∨ l.stage = .second) (c : Pc) :
    Own n job q { l with pc := c } where
  round := h.round
  outside := fun h1 h2 => absurd hst (by simp only [h1, h2, or_self, not_false_eq_true])
  exchange := h.exchange
  written := h.written
  posted := h.posted
  got := h.got

theorem Own.leaveSync (h : Own n job q l) (hst : l.stage = .first) (hop : job.op l.call = .sync) :
    Own n job q
      { l with
        round := l.round + 1
        pc := .outside
        call := l.call + 1
        stage := .first } where
  round := by
    have hround := h.round
    rw [hst] at hround
    simp only [Job.syncs, hop, Op.syncs, Stage.passed] at hround ⊢
    omega
  outside := fun h1 _ => absurd rfl h1
  exchange := fun h1 => absurd rfl h1
  written := fun j h1 => absurd h1 (by simp only [reduceCtorEq, not_false_eq_true])
  posted := by
    rintro k size fits hk (⟨_, hsecond | ⟨j, hread⟩⟩ | ⟨hcall, _⟩)
    · exact absurd hsecond (by simp only [reduceCtorEq, not_false_eq_true])
    · exact absurd hread (by simp only [reduceCtorEq, not_false_eq_true])
    · -- The call before was no exchange.
      rw [← Nat.succ.inj hcall, hop] at hk
      exact absurd hk (by simp only [reduceCtorEq, not_false_eq_true])
  got := by
    rintro k size fits hk j hj (hlt | ⟨_, i, hread, _⟩)
    · rcases Nat.lt_succ_iff_lt_or_eq.mp hlt with hlt' | heq
      · exact h.got k size fits hk j hj (Or.inl hlt')
      · rw [heq, hop] at hk
        exact absurd hk (by simp only [reduceCtorEq, not_false_eq_true])
    · exact absurd hread (by simp only [reduceCtorEq, not_false_eq_true])

theorem Own.leaveFirst (h : Own n job q l) (hst : l.stage = .first)
    (hop : job.op l.call = .exchangeData size fits) :
    Own n job q
      { l with
        round := l.round + 1
        pc := .outside
        stage := .write 0 } where
  round := by
    have hround := h.round
    rw [hst] at hround
    simp only [Stage.passed] at hround ⊢
    omega
  outside := fun _ _ => rfl
  exchange := fun _ => ⟨size, fits, hop⟩
  written := by
    intro j hj b hb
    rw [← Stage.write.inj hj] at hb
    exact absurd hb (Nat.not_lt_zero _)
  posted := by
    rintro k _ _ _ (⟨_, hsecond | ⟨j, hread⟩⟩ | ⟨_, hfirst⟩)
    · exact absurd hsecond (by simp only [reduceCtorEq, not_false_eq_true])
    · exact absurd hread (by simp only [reduceCtorEq, not_false_eq_true])
    · exact absurd hfirst (by simp only [reduceCtorEq, not_false_eq_true])
  got := by
    rintro k size fits hk j hj (hlt | ⟨_, i, hread, _⟩)
    · exact h.got k size fits hk j hj (Or.inl hlt)
    · exact absurd hread (by simp only [reduceCtorEq, not_false_eq_true])

theorem Own.put (h : Own n job q l) (hst : l.stage = .write j)
    (hop : job.op l.call = .exchangeData size fits) {area : Fin vaultSizePerRank → UInt8}
    (harea : ∀ b : Fin vaultSizePerRank,
      area b = if (b : Nat) = j then job.src q l.call j else l.area b) :
    Own n job q
      { l with
        area := area
        stage := .write (j + 1) } where
  round := by
    have hround := h.round
    rw [hst] at hround
    exact hround
  outside := fun _ _ => h.outside (by rw [hst]; simp only [ne_eq, reduceCtorEq, not_false_eq_true])
    (by rw [hst]; simp only [ne_eq, reduceCtorEq, not_false_eq_true])
  exchange := fun _ => ⟨size, fits, hop⟩
  written := by
    intro i hi b hb
    simp only
    rw [← Stage.write.inj hi] at hb
    rw [harea b]
    -- The byte that is written is the one that was given, and those before it stay.
    by_cases hbj : (b : Nat) = j
    · rw [if_pos hbj, hbj]
    · rw [if_neg hbj]
      exact h.written j hst b (by omega)
  posted := by
    -- A process that writes has not posted yet.
    rintro k _ _ _ (⟨_, hsecond | ⟨i, hread⟩⟩ | ⟨_, hfirst⟩)
    · exact absurd hsecond (by simp only [reduceCtorEq, not_false_eq_true])
    · exact absurd hread (by simp only [reduceCtorEq, not_false_eq_true])
    · exact absurd hfirst (by simp only [reduceCtorEq, not_false_eq_true])
  got := by
    rintro k size fits hk i hi (hlt | ⟨_, _, hread, _⟩)
    · exact h.got k size fits hk i hi (Or.inl hlt)
    · exact absurd hread (by simp only [reduceCtorEq, not_false_eq_true])

theorem Own.written_all (h : Own n job q l) (hst : l.stage = .write j)
    (hop : job.op l.call = .exchangeData size fits) (hj : ¬ j < size) :
    Own n job q { l with stage := .second } where
  round := by
    have hround := h.round
    rw [hst] at hround
    exact hround
  outside := fun _ h2 => absurd rfl h2
  exchange := fun _ => ⟨size, fits, hop⟩
  written := fun i hi => absurd hi (by simp only [reduceCtorEq, not_false_eq_true])
  posted := by
    rintro k size' fits' hk (⟨hcall, _⟩ | ⟨_, hfirst⟩) b hb
    · simp only at hcall
      rw [← hcall, hop] at hk
      have hsize := (Op.exchangeData.inj hk)
      rw [← hcall]
      exact h.written j hst b (by omega)
    · exact absurd hfirst (by simp only [reduceCtorEq, not_false_eq_true])
  got := by
    rintro k size fits hk i hi (hlt | ⟨_, _, hread, _⟩)
    · exact h.got k size fits hk i hi (Or.inl hlt)
    · exact absurd hread (by simp only [reduceCtorEq, not_false_eq_true])

theorem Own.leaveSecond (h : Own n job q l) (hst : l.stage = .second)
    (hop : job.op l.call = .exchangeData size fits) :
    Own n job q
      { l with
        round := l.round + 1
        pc := .outside
        stage := .read 0 } where
  round := by
    have hround := h.round
    rw [hst] at hround
    simp only [Stage.passed] at hround ⊢
    omega
  outside := fun _ _ => rfl
  exchange := fun _ => ⟨size, fits, hop⟩
  written := fun i hi => absurd hi (by simp only [reduceCtorEq, not_false_eq_true])
  posted := by
    rintro k size' fits' hk (⟨hcall, _⟩ | ⟨_, hfirst⟩)
    · exact h.posted k size' fits' hk (Or.inl ⟨hcall, Or.inl hst⟩)
    · exact absurd hfirst (by simp only [reduceCtorEq, not_false_eq_true])
  got := by
    rintro k size fits hk i hi (hlt | ⟨_, i', hread, hlt⟩)
    · exact h.got k size fits hk i hi (Or.inl hlt)
    · rw [← Stage.read.inj hread] at hlt
      exact absurd hlt (Nat.not_lt_zero _)

/-- A byte is read that is what its process gave. -/
theorem Own.get (h : Own n job q l) (hst : l.stage = .read j)
    (hop : job.op l.call = .exchangeData size fits) {x : UInt8}
    (hx : x = job.src (j / size) l.call (j % size)) :
    Own n job q
      { l with
        dst := Function.update l.dst l.call (Function.update (l.dst l.call) j (some x))
        stage := .read (j + 1) } where
  round := by
    have hround := h.round
    rw [hst] at hround
    exact hround
  outside := fun _ _ => h.outside (by rw [hst]; simp only [ne_eq, reduceCtorEq, not_false_eq_true])
    (by rw [hst]; simp only [ne_eq, reduceCtorEq, not_false_eq_true])
  exchange := fun _ => ⟨size, fits, hop⟩
  written := fun i hi => absurd hi (by simp only [reduceCtorEq, not_false_eq_true])
  posted := by
    -- What was posted before stays, since reading changes no area.
    rintro k size' fits' hk (⟨hcall, _⟩ | ⟨_, hfirst⟩)
    · exact h.posted k size' fits' hk (Or.inl ⟨hcall, Or.inr ⟨j, hst⟩⟩)
    · exact absurd hfirst (by simp only [reduceCtorEq, not_false_eq_true])
  got := by
    rintro k size' fits' hk i hi (hlt | ⟨heq, i', hread, hlt⟩)
    · simp only at hlt ⊢
      -- Earlier calls have their own places.
      rw [Function.update_of_ne (Nat.ne_of_lt hlt)]
      exact h.got k size' fits' hk i hi (Or.inl hlt)
    · simp only at heq ⊢
      subst heq
      rw [Function.update_self]
      rw [← Stage.read.inj hread] at hlt
      -- The byte that is read is new, and those before it stay.
      by_cases hij : i = j
      · rw [hop] at hk
        rw [hij, Function.update_self, hx, Op.exchangeData.inj hk]
      · rw [Function.update_of_ne hij]
        exact h.got _ size' fits' hk i hi (Or.inr ⟨rfl, j, hst, by omega⟩)

theorem Own.finish (h : Own n job q l) (hst : l.stage = .read j)
    (hop : job.op l.call = .exchangeData size fits) (hj : ¬ j < n * size) :
    Own n job q
      { l with
        call := l.call + 1
        stage := .first } where
  round := by
    have hround := h.round
    rw [hst] at hround
    -- It is one call on, and has left both its syncs.
    simp only [Job.syncs, hop, Op.syncs, Stage.passed] at hround ⊢
    omega
  outside := fun h1 _ => absurd rfl h1
  exchange := fun h1 => absurd rfl h1
  written := fun i hi => absurd hi (by simp only [reduceCtorEq, not_false_eq_true])
  posted := by
    rintro k size' fits' hk (⟨_, hsecond | ⟨i, hread⟩⟩ | ⟨hcall, _⟩)
    · exact absurd hsecond (by simp only [reduceCtorEq, not_false_eq_true])
    · exact absurd hread (by simp only [reduceCtorEq, not_false_eq_true])
    · exact h.posted k size' fits' hk (Or.inl ⟨Nat.succ.inj hcall, Or.inr ⟨j, hst⟩⟩)
  got := by
    rintro k size' fits' hk i hi (hlt | ⟨_, _, hread, _⟩)
    · rcases Nat.lt_succ_iff_lt_or_eq.mp hlt with hlt' | heq
      · exact h.got k size' fits' hk i hi (Or.inl hlt')
      · -- The last call is complete, since all of its bytes were read.
        refine h.got k size' fits' hk i hi (Or.inr ⟨heq, j, hst, ?_⟩)
        rw [heq, hop] at hk
        rw [← Op.exchangeData.inj hk] at hi
        omega
    · exact absurd hread (by simp only [reduceCtorEq, not_false_eq_true])

end Local

/-! ## All processes -/

/-- What every step keeps. -/
structure Inv (job : Job) (w : World n) : Prop where
  sync : Sync.Inv w.sync
  own : ∀ q : Fin n, Own n job q (w.proc q)

theorem inv_init (job : Job) : Inv job (init : World n) where
  sync := Sync.inv_init
  own := fun _ =>
    { round := rfl
      outside := fun h1 _ => absurd rfl h1
      exchange := fun h1 => absurd rfl h1
      written := fun j hj => absurd hj (by
        simp only [World.proc, init, reduceCtorEq, not_false_eq_true])
      posted := by
        rintro k _ _ _ (⟨_, hsecond | ⟨i, hread⟩⟩ | ⟨hcall, _⟩)
        · exact absurd hsecond (by simp only [World.proc, init, reduceCtorEq, not_false_eq_true])
        · exact absurd hread (by simp only [World.proc, init, reduceCtorEq, not_false_eq_true])
        · exact absurd hcall (Nat.succ_ne_zero k).symm
      got := by
        rintro k _ _ _ _ _ (hlt | ⟨_, _, hread, _⟩)
        · exact absurd hlt (Nat.not_lt_zero k)
        · exact absurd hread (by simp only [World.proc, init, reduceCtorEq, not_false_eq_true]) }

theorem syncs_mono (job : Job) {k k' : Nat} (h : k ≤ k') : job.syncs k ≤ job.syncs k' := by
  induction h with
  | refl => exact Nat.le_refl _
  | step _ ih => exact Nat.le_trans ih (Nat.le_add_right _ _)

theorem Op.syncs_pos (op : Op) : 0 < op.syncs := by
  cases op <;> simp only [Op.syncs, Nat.zero_lt_one, Nat.zero_lt_two]

theorem Own.passed_le {l : Local} {q : Nat} (h : Own n job q l) :
    l.stage.passed ≤ (job.op l.call).syncs := by
  by_cases hst : l.stage = .first
  · rw [hst]
    exact Nat.zero_le _
  · rcases h.exchange hst with ⟨size, fits, hop⟩
    rw [hop]
    cases l.stage <;> simp only [Stage.passed, Op.syncs, Nat.zero_le, Nat.one_le_ofNat, le_refl]

section Place

variable {l : Local} {q k size : Nat} {fits : size ≤ vaultSizePerRank}

/-- A process that has left the first sync of a call and not the second is in it. -/
theorem Own.call_of_first (h : Own n job q l) (hop : job.op k = .exchangeData size fits)
    (hround : l.round = job.syncs k + 1) : l.call = k ∧ l.stage ≠ .first := by
  have heq := h.round
  have hpassed := h.passed_le
  have hsucc : job.syncs (k + 1) = job.syncs k + 2 := by rw [Job.syncs, hop, Op.syncs]
  have hcall : l.call = k := by
    by_contra hne
    rcases Nat.lt_or_gt_of_ne hne with hlt | hgt
    · have hmono := syncs_mono job (show l.call + 1 ≤ k from hlt)
      rw [Job.syncs] at hmono
      omega
    · have hmono := syncs_mono job (show k + 1 ≤ l.call from hgt)
      omega
  refine ⟨hcall, fun hfirst => ?_⟩
  rw [hfirst, hcall, Stage.passed] at heq
  omega

/-- A process that has left both reads, or is at the beginning of the next call. -/
theorem Own.call_of_second (h : Own n job q l) (hop : job.op k = .exchangeData size fits)
    (hround : l.round = job.syncs k + 2) : Posted k l := by
  have heq := h.round
  have hpassed := h.passed_le
  have hsucc : job.syncs (k + 1) = job.syncs k + 2 := by rw [Job.syncs, hop, Op.syncs]
  -- The number of syncs it has left says in which call it is.
  rcases Nat.lt_trichotomy l.call k with hlt | hcall | hgt
  · -- In an earlier call it cannot have left as many.
    have hmono := syncs_mono job (show l.call + 1 ≤ k from hlt)
    rw [Job.syncs] at hmono
    omega
  · -- In the call itself it has left both syncs, so it reads.
    rw [hcall] at heq
    refine Or.inl ⟨hcall, Or.inr ?_⟩
    cases hst : l.stage with
    | read j => exact ⟨j, rfl⟩
    | _ =>
        rw [hst] at heq
        simp only [Stage.passed] at heq
        omega
  · -- In a later one it is at most the next, and has not left its first sync.
    have hcall : l.call = k + 1 := by
      by_contra hne
      have hmono := syncs_mono job (show k + 2 ≤ l.call by omega)
      have hpos := (job.op (k + 1)).syncs_pos
      rw [Job.syncs] at hmono
      omega
    rw [hcall, hsucc] at heq
    refine Or.inr ⟨hcall, ?_⟩
    cases hst : l.stage with
    | first => rfl
    | _ =>
        rw [hst] at heq
        simp only [Stage.passed] at heq
        omega

end Place

/-- While a process reads, what all gave to its call is in the vault. -/
theorem posted_of_read (hinv : Inv job w) {j : Nat} (hst : w.stage p = .read j) (q : Fin n) :
    Posted (w.call p) (w.proc q) := by
  have hp := hinv.own p
  have hq := hinv.own q
  rcases hp.exchange (by simp only [World.proc, hst, ne_eq, reduceCtorEq, not_false_eq_true])
    with ⟨size, fits, hop⟩
  have hround : w.sync.round p = job.syncs (w.call p) + 2 := by
    have hround := hp.round
    simp only [World.proc, hst, Stage.passed] at hround
    exact hround
  have hout : w.sync.pc p = .outside := hp.outside
    (by simp only [World.proc, hst, ne_eq, reduceCtorEq, not_false_eq_true])
    (by simp only [World.proc, hst, ne_eq, reduceCtorEq, not_false_eq_true])
  have hle := Sync.round_le_entered hinv.sync q p
  have hge := Sync.round_le_entered hinv.sync p q
  rw [Sync.entered, if_pos hout] at hle
  unfold Sync.entered at hge
  by_cases hsecond : w.sync.round q = job.syncs (w.call p) + 2
  · exact hq.call_of_second hop hsecond
  · -- It is still in the second sync.
    have hpc : w.sync.pc q ≠ .outside := by
      intro hpc
      rw [if_pos hpc] at hge
      omega
    have hone : w.sync.round q = job.syncs (w.call p) + 1 := by
      rw [if_neg hpc] at hge
      omega
    rcases hq.call_of_first hop hone with ⟨hcall, hfirst⟩
    refine Or.inl ⟨hcall, Or.inl ?_⟩
    by_contra hne
    exact hpc (hq.outside hfirst hne)

section Frame

variable (w p)

/-- A process is what it was, where only another moves in the vault. -/
theorem proc_sync_ne {t : Sync.State n} (ht : Sync.step w.sync p = some t) (h : q ≠ p) :
    World.proc { w with sync := t } q = w.proc q := by
  rcases Sync.step_eq_some ht with ⟨next, _, rfl⟩
  simp only [World.proc, Sync.move_pc_ne next h, Sync.move_round_ne next h]

theorem proc_goto_ne (st : Stage) (h : q ≠ p) : (w.goto p st).proc q = w.proc q := by
  simp only [World.proc, World.goto, Function.update_of_ne h]

theorem proc_goto_self (st : Stage) : (w.goto p st).proc p = { w.proc p with stage := st } := by
  simp only [World.proc, World.goto, Function.update_self]

theorem proc_finish_ne (h : q ≠ p) : (w.finish p).proc q = w.proc q := by
  simp only [World.proc, World.finish, Function.update_of_ne h]

theorem proc_finish_self : (w.finish p).proc p =
    { w.proc p with
      call := w.call p + 1
      stage := .first } := by
  simp only [World.proc, World.finish, Function.update_self]

theorem proc_get_ne (size j : Nat) (h : q ≠ p) : (w.get p size j).proc q = w.proc q := by
  simp only [World.proc, World.get, Function.update_of_ne h]

/-- The places of two processes do not overlap. -/
theorem proc_put_ne (job : Job) {j : Nat} (hj : j < vaultSizePerRank) (h : q ≠ p) :
    (w.put p job j).proc q = w.proc q := by
  have harea : ∀ b : Fin vaultSizePerRank,
      (w.put p job j).data (q * vaultSizePerRank + b) = w.data (q * vaultSizePerRank + b) := by
    intro b
    refine Function.update_of_ne (fun heq => h ?_) _ _
    exact Fin.ext (place_inj b.isLt hj heq).1
  simp only [World.proc, harea]
  rfl

theorem proc_put_self (job : Job) (j : Nat) : (w.put p job j).proc p =
    { w.proc p with
      area := fun b =>
        if (b : Nat) = j then job.src p (w.call p) j else w.data (p * vaultSizePerRank + b) } := by
  simp only [World.proc, World.put, Function.update_apply, Nat.add_left_cancel_iff]

theorem proc_get_self (size j : Nat) : (w.get p size j).proc p =
    { w.proc p with
      dst := Function.update (w.dst p) (w.call p) (Function.update (w.dst p (w.call p)) j
        (some (w.data (j / size * vaultSizePerRank + j % size)))) } := by
  simp only [World.proc, World.get, Function.update_self]

/-- A process that leaves its sync. -/
theorem proc_leave {t : Sync.State n} (ht : Sync.step w.sync p = some t)
    (hout : t.pc p = .outside) : World.proc { w with sync := t } p =
    { w.proc p with
      round := w.sync.round p + 1
      pc := .outside } := by
  rcases Sync.step_eq_some ht with ⟨⟨v, c⟩, _, rfl⟩
  rw [Sync.move_pc_self] at hout
  simp only at hout
  subst hout
  simp only [World.proc, Sync.move_round_outside, Sync.move_pc_self]

end Frame

theorem inv_of_others {w' : World n} (hinv : Inv job w) (hsync : Sync.Inv w'.sync)
    (hp : Own n job p (w'.proc p)) (hne : ∀ q, q ≠ p → w'.proc q = w.proc q) : Inv job w' where
  sync := hsync
  own := by
    intro q
    by_cases hq : q = p
    · rw [hq]
      exact hp
    · rw [hne q hq]
      exact hinv.own q

/-- A byte that is read is what its process gave to the call. -/
theorem data_of_read (hinv : Inv job w) {j size : Nat} {fits : size ≤ vaultSizePerRank}
    (hst : w.stage p = .read j) (hop : job.op (w.call p) = .exchangeData size fits)
    (hj : j < n * size) : w.data (j / size * vaultSizePerRank + j % size) =
      job.src (j / size) (w.call p) (j % size) := by
  have hpos : 0 < size := Nat.pos_of_ne_zero fun h0 => by
    rw [h0, Nat.mul_zero] at hj
    exact Nat.not_lt_zero j hj
  have hmod : j % size < size := Nat.mod_lt j hpos
  have hposted :=
    posted_of_read hinv hst ⟨j / size, Nat.div_lt_of_lt_mul (Nat.mul_comm n size ▸ hj)⟩
  exact (hinv.own _).posted _ size fits hop hposted ⟨j % size, Nat.lt_of_lt_of_le hmod fits⟩ hmod

theorem inv_step (hinv : Inv job w) (h : step job w p = some w') : Inv job w' := by
  have hp := hinv.own p
  cases steps_of_step h with
  -- Inside of a sync nothing but the place in it changes.
  | inside t hst ht hin =>
      refine inv_of_others hinv (Sync.inv_step hinv.sync ht) ?_ fun q hq => proc_sync_ne w p ht hq
      rcases Sync.step_eq_some ht with ⟨next, _, rfl⟩
      rw [Sync.move_pc_self] at hin
      have hown := hp.inside hst next.2
      simp only [World.proc, Sync.move_round_self hin, Sync.move_pc_self] at hown ⊢
      exact hown
  | leaveSync t hst hop ht hout =>
      -- With the sync that it leaves, a process begins its next call,
      refine inv_of_others hinv (Sync.inv_step hinv.sync ht) ?_ fun q hq =>
        (proc_finish_ne _ p hq).trans (proc_sync_ne w p ht hq)
      rw [proc_finish_self, proc_leave w p ht hout]
      exact hp.leaveSync hst hop
  | leaveFirst t size fits hst hop ht hout =>
      -- or writes,
      refine inv_of_others hinv (Sync.inv_step hinv.sync ht) ?_ fun q hq =>
        (proc_goto_ne _ p _ hq).trans (proc_sync_ne w p ht hq)
      rw [proc_goto_self, proc_leave w p ht hout]
      exact hp.leaveFirst hst hop
  | put j size fits hst hop hj =>
      refine inv_of_others hinv hinv.sync ?_ fun q hq =>
        (proc_goto_ne _ p _ hq).trans (proc_put_ne w p job (Nat.lt_of_lt_of_le hj fits) hq)
      rw [proc_goto_self, proc_put_self]
      exact hp.put hst hop fun b => rfl
  | written j size fits hst hop hj =>
      refine inv_of_others hinv hinv.sync ?_ fun q hq => proc_goto_ne w p _ hq
      rw [proc_goto_self]
      exact hp.written_all hst hop hj
  | leaveSecond t size fits hst hop ht hout =>
      -- or reads.
      refine inv_of_others hinv (Sync.inv_step hinv.sync ht) ?_ fun q hq =>
        (proc_goto_ne _ p _ hq).trans (proc_sync_ne w p ht hq)
      rw [proc_goto_self, proc_leave w p ht hout]
      exact hp.leaveSecond hst hop
  | get j size fits hst hop hj =>
      refine inv_of_others hinv hinv.sync ?_ fun q hq =>
        (proc_goto_ne _ p _ hq).trans (proc_get_ne w p size j hq)
      rw [proc_goto_self, proc_get_self]
      -- All have posted, so the area that is read holds what its process gave.
      exact hp.get hst hop (data_of_read hinv hst hop hj)
  | finish j size fits hst hop hj =>
      refine inv_of_others hinv hinv.sync ?_ fun q hq => proc_finish_ne w p hq
      rw [proc_finish_self]
      exact hp.finish hst hop hj

theorem inv_of_reaches (h : Reaches (step job) always (init : World n) w) : Inv job w :=
  invariant_of_reaches (Inv job) (fun _ _ _ hinv _ hstep => inv_step hinv hstep) h (inv_init job)

/-! ## The promises -/

/-- A process in a sync goes on as the vault lets it. -/
theorem exists_step_of_inside (hinv : Inv job w) (hin : w.sync.pc p ≠ .outside)
    {t : Sync.State n} (ht : Sync.step w.sync p = some t) :
    ∃ u, step job w p = some u ∧ u.sync = t := by
  have hp := hinv.own p
  cases hst : w.stage p with
  | first =>
      simp only [step, hst, ht, Option.map_some, Option.some.injEq, exists_eq_left']
      split
      · rfl
      · split <;> rfl
  | second =>
      rcases hp.exchange (by simp only [World.proc, hst, ne_eq, reduceCtorEq, not_false_eq_true])
        with ⟨size, fits, hop⟩
      simp only [World.proc] at hop
      simp only [step, hst, hop, ht, Option.map_some, Option.some.injEq, exists_eq_left']
      split <;> rfl
  | _ =>
      exact absurd (hp.outside
        (by simp only [World.proc, hst, ne_eq, reduceCtorEq, not_false_eq_true])
        (by simp only [World.proc, hst, ne_eq, reduceCtorEq, not_false_eq_true])) hin

/-- In a sync that all have entered somebody can go on. -/
theorem exists_step {k : Nat} (hinv : Inv job w) (hall : ∀ q, k < Sync.entered w.sync q)
    (hin : Sync.Inside k w.sync p) :
    ∃ q u, Sync.Inside k w.sync q ∧ step job w q = some u ∧
      Sync.left k u.sync < Sync.left k w.sync := by
  rcases Sync.exists_step hinv.sync hall hin with ⟨q, hq, hsome⟩
  rcases Option.isSome_iff_exists.mp hsome with ⟨t, ht⟩
  rcases exists_step_of_inside hinv hq.2 ht with ⟨u, hu, rfl⟩
  exact ⟨q, u, hq, hu, Sync.left_lt hq ht⟩

/-- A step in the vault, or none. -/
theorem sync_of_step (h : step job w p = some w') :
    Sync.step w.sync p = some w'.sync ∨ w'.sync = w.sync := by
  cases steps_of_step h with
  | inside t hst ht hin => exact Or.inl ht
  | leaveSync t hst hop ht hout => exact Or.inl ht
  | leaveFirst t size fits hst hop ht hout => exact Or.inl ht
  | leaveSecond t size fits hst hop ht hout => exact Or.inl ht
  | _ => exact Or.inr rfl

/-- All leave a sync that all have entered, by steps of those in it. -/
theorem exists_left {k : Nat} (hinv : Inv job w) (hall : ∀ q, k < Sync.entered w.sync q) :
    ∃ u, Reaches (step job) (fun v => Sync.Inside k v.sync) w u ∧ ∀ q, k < u.sync.round q := by
  refine exists_goal (fun v => Sync.left k v.sync) fun v hv hgoal => ?_
  have hkeep : Inv job v ∧ ∀ q, k < Sync.entered v.sync q := by
    refine invariant_of_reaches (fun v => Inv job v ∧ ∀ q, k < Sync.entered v.sync q)
      (fun v p v' hv _ hstep => ⟨inv_step hv.1 hstep, fun q => ?_⟩) hv ⟨hinv, hall⟩
    rcases sync_of_step hstep with hsync | heq
    · exact Nat.lt_of_lt_of_le (hv.2 q) (Sync.entered_le_of_step hsync q)
    · rw [heq]
      exact hv.2 q
  push Not at hgoal
  rcases hgoal with ⟨p, hp⟩
  rcases exists_step hkeep.1 hkeep.2 (Sync.inside_of_entered (hkeep.2 p) hp) with
    ⟨q, u, hq, hu, hlt⟩
  exact ⟨q, u, hq, hu, hlt⟩

/-- Nobody leaves a sync that somebody has not entered, none is stuck in one that all have
    entered, and every exchange gives each process what each gave to it. -/
theorem broker_collectives (h : Reaches (step job) always (init : World n) w) :
    (∀ k p, k < w.sync.round p → ∀ q, k < Sync.entered w.sync q) ∧
    (∀ k, (∀ q, k < Sync.entered w.sync q) →
      (∀ p, Sync.Inside k w.sync p → ∃ q, Sync.Inside k w.sync q ∧ (step job w q).isSome) ∧
      ∃ u, Reaches (step job) (fun v => Sync.Inside k v.sync) w u ∧ ∀ q, k < u.sync.round q) ∧
    (∀ p k size fits, job.op k = .exchangeData size fits → k < w.call p →
      ∀ i < n, ∀ b < size, w.dst p k (i * size + b) = some (job.src i k b)) := by
  have hinv := inv_of_reaches h
  refine ⟨fun k p hk q => ?_, fun k hall => ⟨fun p hp => ?_, exists_left hinv hall⟩,
    fun p k size fits hop hk i hi b hb => ?_⟩
  · exact Nat.lt_of_lt_of_le hk (Sync.round_le_entered hinv.sync p q)
  · rcases exists_step hinv hall hp with ⟨q, u, hq, hu, _⟩
    exact ⟨q, hq, Option.isSome_iff_exists.mpr ⟨u, hu⟩⟩
  · have hgot := (hinv.own p).got k size fits hop (i * size + b) (place_lt hi hb) (Or.inl hk)
    rw [place_div hb, Nat.mul_add_mod_of_lt hb] at hgot
    exact hgot

/-! ## Two processes -/

/-- One byte in every call. -/
def oneByte : Job where
  op := fun _ => .exchangeData 1 (by decide)
  src := fun i k _ => UInt8.ofNat (10 * k + i)

/-- Process 1 reads what both gave to the first call, and process 0 is in the second. -/
def turns : List (Fin 2) :=
  [0, 0, 0, 1, 1, 1, 0, 0, 0, 1, 1, 1, 0, 0, 0, 0, 0, 0, 1, 1, 1, 1, 1, 1, 0, 0, 0, 1, 1, 1, 0,
    0, 0, 0, 0, 0, 0, 1, 1, 1, 1]

def twoProcesses : World 2 := (run (step oneByte) always turns init).get (by decide +kernel)

theorem two_processes_exchange : 1 < Sync.entered twoProcesses.sync 1 ∧
    (∃ u, Reaches (step oneByte) (fun v => Sync.Inside 1 v.sync) twoProcesses u ∧
      ∀ q, 1 < u.sync.round q) ∧
    twoProcesses.dst 1 0 0 = some 0 ∧ twoProcesses.dst 1 0 1 = some 1 := by
  rcases broker_collectives (reaches_of_run turns init twoProcesses (Option.some_get _).symm) with
    ⟨hsafe, hlive, hdata⟩
  exact ⟨hsafe 1 0 (by decide +kernel) 1, (hlive 1 (by decide +kernel)).2,
    hdata 1 0 1 (by decide) rfl (by decide +kernel) 0 (by decide) 0 (by decide),
    hdata 1 0 1 (by decide) rfl (by decide +kernel) 1 (by decide) 0 (by decide)⟩

end Exchange

end LocalBroker

end MKernel
