import MKernel.Core.ThreadBlock
import MKernel.GemmAr.DynamicReduce

/-!
# The Threads of a Reducing CTA

The loops of the dynamic reduce, as the threads of one CTA run them.

In each round the leader looks for a chunk, which is the loop of `DynamicReduce`, and
leaves what it found in `s_chunk_id`: a chunk, -1 for none, or -2 when all chunks are
published. Behind a barrier every thread reads it and decides for itself whether to
reduce the chunk, to try again or to leave. In the scan path the leader does not write
-2. Each thread that finds -1 there reads `published_chunks` on its own. In the
work-stealing path a thread that tries again does not call a barrier before it is back at
the head of the loop. In the others it does.

A read of `s_chunk_id` is a step, so others may come between two reads of one thread.
What the threads do with a chunk between two barriers does not bear on which barriers
they call. What other CTAs do, and what the leader does to the flags when it drains its
queues, are writes from outside, which may come at any time. They write what they like,
but never take back a published chunk.

## Main definitions

* `Decision`, `Site`: What a thread decides in a round, and the barriers of a round.
* `Thread`, `Shared`: A thread, and what the threads share.
* `act`, `threads`: The steps of a thread and of the CTA.
* `Uniform`: The threads have decided the same and called the same barriers.
* `verdict`: What a thread decides that reads on.
* `Stands`: How far a thread may have come in a phase.

## Theorems

* `verdict_act`: A thread that has still to decide goes on to what its reads say.
* `Stands.rests`: Where a thread waits.
* `Stands.uniform`: Threads in one phase are uniform.
* `exists_stands_met`: When all threads wait the next phase begins.
-/

namespace MKernel

namespace GemmAr

namespace ReduceThreads

open MKernel.Core DynamicReduce

/-- What a thread decides in a round. -/
inductive Decision where
  | chunk (c : Int)
  | retry
  | exit
deriving DecidableEq, Repr

/-- The calls of `__syncthreads` in a round. -/
inductive Site where
  /-- Behind the search. -/
  | first
  /-- Before the next round, for a thread that tries again. -/
  | retry
  /-- Before the chunk is reduced. -/
  | second
  /-- Behind it. -/
  | third
  /-- Behind the count of the published chunk. -/
  | fourth
deriving DecidableEq, Repr

/-- Where a thread stands. -/
inductive ThreadPc where
  /-- The leader looks for a chunk. -/
  | searching (pc : ReducePc)
  | waiting (site : Site)
  /-- Before `s_chunk_id == -2`. -/
  | exitTest
  /-- Before `s_chunk_id < 0`. -/
  | retryTest
  /-- Before its own load of `published_chunks`. -/
  | testing
  /-- Before `chunk_id = s_chunk_id`. -/
  | taking
  | reducing
  /-- Before the count of the published chunk, which is the leader's. -/
  | counting
  | left
deriving DecidableEq, Repr

/-- A thread. What it decided and the barriers it called are kept besides. -/
structure Thread where
  pc : ThreadPc
  scanStart : Nat
  chunkId : Int
  decided : List Decision
  called : List Site

/-- What the threads share. -/
structure Shared where
  /-- `remote_arrived_flag`. -/
  arrived : Nat → BitVec 32
  mem : Memory
  sChunkId : Int

namespace Thread

/-- `__syncthreads()`. -/
def call (t : Thread) (site : Site) : Thread :=
  { t with pc := .waiting site, called := t.called ++ [site] }

def decide (t : Thread) (d : Decision) : Thread := { t with decided := t.decided ++ [d] }

/-- A thread at the head of the loop, where only the leader has something to do. -/
def head {n : Nat} (i : Fin n) (t : Thread) : Thread :=
  if i.val = 0 then { t with pc := .searching .top } else t.call .first

def leave (t : Thread) : Thread := { t.decide .exit with pc := .left }

end Thread

/-- The leader has gone on to the next barrier with a step of its search. -/
def ends (path : Path) (pc : ReducePc) : ReducePc → Bool
  | .reducing _ => true
  | .returned => true
  | .testing => path = .scan
  | .top => pc = .testing
  | _ => false

/-- What is in `s_chunk_id` behind a step of the search. The paths that scan write -1
    when they begin, and that of the ready queue when it has found nothing. -/
def stored (path : Path) (pc pc' : ReducePc) (old : Int) : Int :=
  match pc' with
  | .reducing c => c
  | .returned => -2
  | .top => if path = .recvReadyQueue ∧ pc = .testing then -1 else old
  | _ => if path ≠ .recvReadyQueue ∧ pc = .top then -1 else old

section Program

variable (setup : Setup) {n : Nat}

/-- `s_chunk_id < 0`. -/
def retryStep (i : Fin n) (t : Thread) : Thread :=
  match setup.path with
  | .worksteal => (t.decide .retry).head i
  | .recvReadyQueue => (t.decide .retry).call .retry
  | .scan => { t with pc := .testing }

/-- `atomicAdd(published_chunks, 1)` by the leader. -/
def count (i : Fin n) (m : Shared) (t : Thread) : Shared :=
  if i.val = 0 then
    { m with mem := { m.mem with
      publishedChunks := m.mem.publishedChunks + 1
      published := m.mem.published ++ [t.chunkId.toNat] } }
  else m

/-- One step of a thread. -/
def act (i : Fin n) (m : Shared) (t : Thread) : Option (Shared × Thread) :=
  match t.pc with
  | .searching pc =>
      (reduceStep setup m.arrived m.mem { pc := pc, scanStart := t.scanStart }).map fun x =>
        let t' := { t with scanStart := x.2.scanStart }
        ({ m with mem := x.1, sChunkId := stored setup.path pc x.2.pc m.sChunkId },
          if ends setup.path pc x.2.pc then t'.call .first else { t' with pc := .searching x.2.pc })
  | .waiting _ => none
  | .exitTest => some (m, if m.sChunkId = -2 then t.leave else { t with pc := .retryTest })
  | .retryTest =>
      some (m, if m.sChunkId < 0 then retryStep setup i t else { t with pc := .taking })
  | .testing =>
      some (m, if setup.totalChunks ≤ m.mem.publishedChunks then t.leave
        else (t.decide .retry).call .retry)
  | .taking =>
      some (m, { t.decide (.chunk m.sChunkId) with chunkId := m.sChunkId }.call .second)
  | .reducing => some (m, t.call .third)
  | .counting => some (count i m t, t.call .fourth)
  | .left => none

/-- Where a thread goes on behind a barrier. -/
def resume (i : Fin n) (site : Site) (t : Thread) : Thread :=
  match site with
  | .first => { t with pc := if setup.path = .scan then .retryTest else .exitTest }
  | .retry => t.head i
  | .second => { t with pc := .reducing }
  | .third => { t with pc := .counting }
  | .fourth => t.head i

/-- The threads of a CTA. From outside the flags and the counters are written. -/
def threads (n : Nat) : Threads (Fin n) Shared Thread Site ((Nat → BitVec 32) × Memory) where
  act := act setup
  site t := match t.pc with
    | .waiting site => some site
    | _ => none
  ended t := t.pc = .left
  resume := resume setup
  env e m :=
    if m.mem.publishedChunks ≤ e.2.publishedChunks then
      some { m with arrived := e.1, mem := e.2 }
    else none

/-- The CTA of `n` threads. -/
abbrev Cta (n : Nat) := Block (Fin n) Shared Thread

/-- The CTA at the loop. What the memory and `s_chunk_id` hold does not matter. -/
def init (n : Nat) (m : Shared) (scanStart : Nat) : Cta n where
  mem := m
  thread i := Thread.head i
    { pc := .left, scanStart := scanStart, chunkId := 0, decided := [], called := [] }

end Program

/-- The threads have decided the same in all rounds both have decided in, and called the same
    barriers, as far as both have come. A thread that has left has no others to come. -/
structure Uniform {n : Nat} (b : Cta n) : Prop where
  decided : ∀ i j, (b.thread i).decided <+: (b.thread j).decided ∨
    (b.thread j).decided <+: (b.thread i).decided
  called : ∀ i j, (b.thread i).called <+: (b.thread j).called ∨
    (b.thread j).called <+: (b.thread i).called
  left : ∀ i j, (b.thread i).pc = .left → (b.thread j).decided <+: (b.thread i).decided ∧
    (b.thread j).called <+: (b.thread i).called

/-! ## Phases -/

section Phases

variable (setup : Setup)

/-- What a thread decides that reads on where it stands. -/
def verdict (m : Shared) : ThreadPc → Option Decision
  | .exitTest =>
      if setup.path = .scan then none
      else if m.sChunkId = -2 then some .exit else verdictRetry m
  | .retryTest => verdictRetry m
  | .testing => if setup.path = .scan then some (own m) else none
  | .taking => some (.chunk m.sChunkId)
  | _ => none
where
  own (m : Shared) : Decision :=
    if setup.totalChunks ≤ m.mem.publishedChunks then .exit else .retry
  verdictRetry (m : Shared) : Option Decision :=
    if m.sChunkId < 0 then some (if setup.path = .scan then own m else .retry)
    else some (.chunk m.sChunkId)

/-- What the threads do in a phase. -/
inductive Now where
  | search
  | decide (d : Decision)
  | reduce
  | count
deriving DecidableEq

/-- A phase, with what was decided and called before. -/
structure Phase where
  past : List Decision
  passed : List Site
  now : Now

/-- The places of a search that scans. -/
def Scans : ReducePc → Prop
  | .top => True
  | .scanning _ _ => True
  | .arrivedSeen _ _ => True
  | .doneSeen _ _ => True
  | .testing => True
  | _ => False

/-- At the head of the loop, or at the barrier behind the search. -/
def AtHead (passed : List Site) (t : Thread) : Prop :=
  ((∃ pc, t.pc = .searching pc ∧ (setup.path = .worksteal → Scans pc)) ∧ t.called = passed) ∨
    (t.pc = .waiting .first ∧ t.called = passed ++ [Site.first])

/-- Where a thread is that has decided. -/
def Settled (passed : List Site) (t : Thread) : Decision → Prop
  | .exit => t.pc = .left ∧ t.called = passed
  | .retry =>
      if setup.path = .worksteal then AtHead setup passed t
      else t.pc = .waiting .retry ∧ t.called = passed ++ [Site.retry]
  | .chunk _ => t.pc = .waiting .second ∧ t.called = passed ++ [Site.second]

/-- Before a barrier or at it. -/
def Before (pc : ThreadPc) (site : Site) (passed : List Site) (t : Thread) : Prop :=
  (t.pc = pc ∧ t.called = passed) ∨ (t.pc = .waiting site ∧ t.called = passed ++ [site])

/-- How far a thread may have come in a phase. -/
def Stands (ph : Phase) (m : Shared) (t : Thread) : Prop :=
  match ph.now with
  | .search => t.decided = ph.past ∧ AtHead setup ph.passed t
  | .decide d =>
      (verdict setup m t.pc = some d ∧ t.decided = ph.past ∧ t.called = ph.passed) ∨
        (t.decided = ph.past ++ [d] ∧ Settled setup ph.passed t d)
  | .reduce => t.decided = ph.past ∧ Before .reducing .third ph.passed t
  | .count => t.decided = ph.past ∧ Before .counting .fourth ph.passed t

variable {setup} {n : Nat} {i : Fin n} {m : Shared} {t : Thread} {d : Decision}
  {x : Shared × Thread} {ph : Phase}

theorem head_decided : (t.head i).decided = t.decided := by
  by_cases hlead : i.val = 0
  · rw [Thread.head, if_pos hlead]
  · rw [Thread.head, if_neg hlead]
    rfl

theorem atHead_head : AtHead setup t.called (t.head i) := by
  by_cases hlead : i.val = 0
  · rw [Thread.head, if_pos hlead]
    exact Or.inl ⟨⟨_, rfl, fun _ => trivial⟩, rfl⟩
  · rw [Thread.head, if_neg hlead]
    exact Or.inr ⟨rfl, rfl⟩

theorem settled_leave : Settled setup t.called t.leave .exit := ⟨rfl, rfl⟩

theorem settled_call (hpath : setup.path ≠ .worksteal) :
    Settled setup t.called ((t.decide .retry).call .retry) .retry := by
  rw [Settled, if_neg hpath]
  exact ⟨rfl, rfl⟩

theorem retryStep_spec (hpath : setup.path ≠ .scan) :
    (retryStep setup i t).decided = t.decided ++ [Decision.retry] ∧
      Settled setup t.called (retryStep setup i t) .retry := by
  cases hp : setup.path with
  | worksteal =>
      simp only [retryStep, Settled, hp, if_true]
      exact ⟨head_decided, atHead_head⟩
  | scan => exact absurd hp hpath
  | recvReadyQueue =>
      simp only [retryStep, hp]
      exact ⟨rfl, settled_call (by simp only [hp, ne_eq, reduceCtorEq, not_false_eq_true])⟩

/-- A thread that has still to decide goes on to what its reads say. -/
theorem verdict_act (hv : verdict setup m t.pc = some d) (hact : act setup i m t = some x) :
    x.1 = m ∧ ((verdict setup m x.2.pc = some d ∧ x.2.decided = t.decided ∧
      x.2.called = t.called) ∨ (x.2.decided = t.decided ++ [d] ∧
        Settled setup t.called x.2 d)) := by
  rcases t with ⟨pc, scanStart, chunkId, decided, called⟩
  cases pc with
  | searching pc => exact absurd hv (by simp only [verdict, reduceCtorEq, not_false_eq_true])
  | waiting site => exact absurd hv (by simp only [verdict, reduceCtorEq, not_false_eq_true])
  | reducing => exact absurd hv (by simp only [verdict, reduceCtorEq, not_false_eq_true])
  | counting => exact absurd hv (by simp only [verdict, reduceCtorEq, not_false_eq_true])
  | left => exact absurd hv (by simp only [verdict, reduceCtorEq, not_false_eq_true])
  | exitTest =>
      simp only [act, Option.some.injEq] at hact
      subst hact
      refine ⟨rfl, ?_⟩
      -- The test for -2 is on the two paths on which the leader stores it.
      by_cases hpath : setup.path = .scan
      · exact absurd hv (by simp only [verdict, if_pos hpath, reduceCtorEq, not_false_eq_true])
      · simp only [verdict, if_neg hpath] at hv
        by_cases hexit : m.sChunkId = -2
        · simp only [if_pos hexit, Option.some.injEq] at hv
          subst hv
          rw [if_pos hexit]
          exact Or.inr ⟨rfl, settled_leave⟩
        · simp only [if_neg hexit] at hv
          rw [if_neg hexit]
          exact Or.inl ⟨hv, rfl, rfl⟩
  | retryTest =>
      simp only [act, Option.some.injEq] at hact
      subst hact
      refine ⟨rfl, ?_⟩
      -- A negative number is no chunk, and with scanning the thread looks for the exit itself.
      by_cases hretry : m.sChunkId < 0
      · simp only [verdict, verdict.verdictRetry, if_pos hretry, Option.some.injEq] at hv
        simp only [if_pos hretry]
        by_cases hpath : setup.path = .scan
        · left
          simp only [if_pos hpath] at hv
          simp only [retryStep, hpath, verdict, if_true, hv, and_self]
        · simp only [if_neg hpath] at hv
          subst hv
          exact Or.inr (retryStep_spec hpath)
      · simp only [verdict, verdict.verdictRetry, if_neg hretry] at hv
        rw [if_neg hretry]
        exact Or.inl ⟨hv, rfl, rfl⟩
  | testing =>
      simp only [act, Option.some.injEq] at hact
      subst hact
      refine ⟨rfl, Or.inr ?_⟩
      -- Only with scanning does a thread come here.
      by_cases hpath : setup.path = .scan
      · simp only [verdict, if_pos hpath, Option.some.injEq] at hv
        subst hv
        by_cases hall : setup.totalChunks ≤ m.mem.publishedChunks
        · rw [verdict.own, if_pos hall, if_pos hall]
          exact ⟨rfl, settled_leave⟩
        · rw [verdict.own, if_neg hall, if_neg hall]
          exact ⟨rfl, settled_call (by simp only [hpath, ne_eq, reduceCtorEq, not_false_eq_true])⟩
      · exact absurd hv (by simp only [verdict, if_neg hpath, reduceCtorEq, not_false_eq_true])
  | taking =>
      simp only [act, Option.some.injEq] at hact
      subst hact
      simp only [verdict, Option.some.injEq] at hv
      subst hv
      exact ⟨rfl, Or.inr ⟨rfl, rfl, rfl⟩⟩

/-! ### Notes -/

/-- What is decided in a phase, if anything is. -/
def Phase.decision (ph : Phase) : Decision :=
  match ph.now with
  | .decide d => d
  | _ => .retry

/-- The barrier that is called in a phase, if one is. -/
def Phase.site (setup : Setup) (ph : Phase) : Site :=
  match ph.now with
  | .search => .first
  | .decide .exit => .first
  | .decide .retry => if setup.path = .worksteal then .first else .retry
  | .decide (.chunk _) => .second
  | .reduce => .third
  | .count => .fourth

theorem AtHead.called {passed : List Site} (h : AtHead setup passed t) :
    t.called = passed ∨ t.called = passed ++ [Site.first] :=
  h.imp And.right And.right

theorem Before.called {pc : ThreadPc} {site : Site} {passed : List Site}
    (h : Before pc site passed t) : t.called = passed ∨ t.called = passed ++ [site] :=
  h.imp And.right And.right

/-- What a thread has decided in a phase. -/
theorem Stands.decided (h : Stands setup ph m t) :
    t.decided = ph.past ∨ t.decided = ph.past ++ [ph.decision] := by
  rcases ph with ⟨past, passed, now⟩
  cases now with
  | search => exact Or.inl h.1
  | decide d => exact h.imp (fun hu => hu.2.1) (fun hs => hs.1)
  | reduce => exact Or.inl h.1
  | count => exact Or.inl h.1

/-- The barriers it has called. -/
theorem Stands.called (h : Stands setup ph m t) :
    t.called = ph.passed ∨ t.called = ph.passed ++ [ph.site setup] := by
  rcases ph with ⟨past, passed, now⟩
  cases now with
  | search => exact h.2.called
  | decide d =>
      -- The thread has read the verdict.
      rcases h with ⟨-, -, hcalled⟩ | ⟨-, hset⟩
      · exact Or.inl hcalled
      · cases d with
        | exit => exact Or.inl hset.2
        | retry =>
            -- Only work stealing retries without a barrier.
            by_cases hpath : setup.path = .worksteal
            · simp only [Settled, if_pos hpath] at hset
              simp only [Phase.site, if_pos hpath]
              exact hset.called
            · simp only [Settled, if_neg hpath] at hset
              simp only [Phase.site, if_neg hpath]
              exact Or.inr hset.2
        | chunk c => exact Or.inr hset.2
  | reduce => exact h.2.called
  | count => exact h.2.called

/-- Where leaving is decided no barrier is called. -/
theorem Stands.called_of_exit (h : Stands setup ph m t) (hnow : ph.now = .decide .exit) :
    t.called = ph.passed := by
  rcases ph with ⟨past, passed, now⟩
  subst hnow
  rcases h with ⟨-, -, hcalled⟩ | ⟨-, -, hcalled⟩
  · exact hcalled
  · exact hcalled

/-! ### Barriers -/

/-- A thread waits at a barrier or has left. -/
def Rests : ThreadPc → Prop
  | .waiting _ => True
  | .left => True
  | _ => False

theorem AtHead.waits {passed : List Site} (h : AtHead setup passed t) (hrests : Rests t.pc) :
    t.pc = .waiting .first ∧ t.called = passed ++ [Site.first] := by
  rcases h with ⟨⟨pc, hpc, -⟩, -⟩ | hwaits
  · rw [hpc] at hrests
    exact hrests.elim
  · exact hwaits

theorem Before.waits {pc : ThreadPc} {site : Site} {passed : List Site}
    (h : Before pc site passed t) (hrests : Rests t.pc)
    (hpc : ¬ Rests pc) :
    t.pc = .waiting site ∧ t.called = passed ++ [site] := by
  rcases h with ⟨hat, -⟩ | hwaits
  · rw [hat] at hrests
    exact absurd hrests hpc
  · exact hwaits

/-- A thread that has still to decide does not rest. -/
theorem not_rests_of_verdict {pc : ThreadPc} (h : verdict setup m pc = some d) : ¬ Rests pc := by
  cases pc with
  | waiting site => exact absurd h (by simp only [verdict, reduceCtorEq, not_false_eq_true])
  | left => exact absurd h (by simp only [verdict, reduceCtorEq, not_false_eq_true])
  | _ => exact id

/-- What is decided when the phase ends. -/
def Phase.noted (ph : Phase) : List Decision :=
  match ph.now with
  | .decide d => ph.past ++ [d]
  | _ => ph.past

/-- A thread that rests has left, if that is what is decided, and else it is at the barrier of the
    phase. -/
theorem Stands.rests (h : Stands setup ph m t) (hrests : Rests t.pc) :
    t.decided = ph.noted ∧
      if ph.now = .decide .exit then t.pc = .left ∧ t.called = ph.passed
      else t.pc = .waiting (ph.site setup) ∧ t.called = ph.passed ++ [ph.site setup] := by
  rcases ph with ⟨past, passed, now⟩
  cases now with
  | search => exact ⟨h.1, h.2.waits hrests⟩
  | decide d =>
      rcases h with ⟨hv, -, -⟩ | ⟨hdecided, hset⟩
      · -- It has not yet read the verdict, so it does not rest.
        exact absurd hrests (not_rests_of_verdict hv)
      · refine ⟨hdecided, ?_⟩
        cases d with
        | exit => exact hset
        | retry =>
            by_cases hpath : setup.path = .worksteal
            · simp only [Settled, if_pos hpath] at hset
              simp only [Phase.site, if_pos hpath]
              exact hset.waits hrests
            · simp only [Settled, if_neg hpath] at hset
              simp only [Phase.site, if_neg hpath]
              exact hset
        | chunk c => exact hset
  | reduce => exact ⟨h.1, h.2.waits hrests id⟩
  | count => exact ⟨h.1, h.2.waits hrests id⟩

/-- Threads in one phase are uniform. -/
theorem Stands.uniform {b : Cta n} (h : ∀ i, Stands setup ph b.mem (b.thread i)) : Uniform b := by
  refine ⟨fun i j => ?_, fun i j => ?_, fun i j hleft => ?_⟩
  · exact prefix_or_prefix (h i).decided (h j).decided
  · exact prefix_or_prefix (h i).called (h j).called
  · rcases (h i).rests (hleft ▸ trivial) with ⟨hdecided, hat⟩
    by_cases hnow : ph.now = .decide .exit
    · rw [if_pos hnow] at hat
      rw [hdecided, hat.2, (h j).called_of_exit hnow]
      refine ⟨?_, List.prefix_rfl⟩
      have hj := (h j).decided
      simp only [Phase.decision, hnow] at hj
      simp only [Phase.noted, hnow]
      rcases hj with hj | hj
      · rw [hj]
        exact List.prefix_append _ _
      · rw [hj]
    · rw [if_neg hnow, hleft] at hat
      exact absurd hat.1 (by simp only [reduceCtorEq, not_false_eq_true])

theorem resumed_of_waiting {site : Site} (h : t.pc = .waiting site) :
    (threads setup n).resumed i t = resume setup i site t := by
  simp only [Threads.resumed, threads, h]

theorem rests_of_met {b : Cta n} (h : (threads setup n).Met b) (i : Fin n) :
    Rests (b.thread i).pc := by
  have hi := h.1 i
  simp only [threads] at hi
  cases hpc : (b.thread i).pc with
  | waiting site => trivial
  | left => trivial
  | _ =>
      rw [hpc] at hi
      exact absurd hi (by simp only [Option.isSome_none, Bool.false_eq_true, reduceCtorEq,
        decide_false, or_self, not_false_eq_true])

theorem exists_waiting_of_met {b : Cta n} (h : (threads setup n).Met b) :
    ∃ i, (b.thread i).pc ≠ .left := by
  rcases h.2 with ⟨i, hi⟩
  refine ⟨i, fun hleft => ?_⟩
  simp only [threads, hleft] at hi
  exact absurd hi (by simp only [Option.isSome_none, Bool.false_eq_true, not_false_eq_true])

/-- Where the first barrier is passed, the next reads say one thing to all threads. -/
theorem exists_verdict (setup : Setup) (m : Shared) :
    ∃ d, verdict setup m (if setup.path = .scan then .retryTest else .exitTest) = some d := by
  have hretry : ∃ d, verdict.verdictRetry setup m = some d := by
    rw [verdict.verdictRetry]
    split <;> exact ⟨_, rfl⟩
  by_cases hpath : setup.path = .scan
  · rw [if_pos hpath]
    exact hretry
  · rw [if_neg hpath, verdict, if_neg hpath]
    split
    · exact ⟨_, rfl⟩
    · exact hretry

/-- Threads that have waited at one call go on in one phase. -/
theorem exists_stands_resume (setup : Setup) (site : Site) {past : List Decision}
    {passed : List Site} {b : Cta n}
    (h : ∀ i, (b.thread i).decided = past ∧ (b.thread i).called = passed) :
    ∃ ph, ∀ i, Stands setup ph b.mem (resume setup i site (b.thread i)) := by
  have hhead : ∀ i, Stands setup ⟨past, passed, .search⟩ b.mem ((b.thread i).head i) := by
    intro i
    refine ⟨head_decided.trans (h i).1, ?_⟩
    rw [← (h i).2]
    exact atHead_head
  cases site with
  | first =>
      rcases exists_verdict setup b.mem with ⟨d, hd⟩
      exact ⟨⟨past, passed, .decide d⟩, fun i => Or.inl ⟨hd, h i⟩⟩
  | retry => exact ⟨_, hhead⟩
  | second => exact ⟨⟨past, passed, .reduce⟩, fun i => ⟨(h i).1, Or.inl ⟨rfl, (h i).2⟩⟩⟩
  | third => exact ⟨⟨past, passed, .count⟩, fun i => ⟨(h i).1, Or.inl ⟨rfl, (h i).2⟩⟩⟩
  | fourth => exact ⟨_, hhead⟩

/-- When all threads rest the next phase begins. -/
theorem exists_stands_met {b : Cta n} (h : ∀ i, Stands setup ph b.mem (b.thread i))
    (hmet : (threads setup n).Met b) :
    ∃ ph', ∀ i, Stands setup ph' b.mem ((threads setup n).resumed i (b.thread i)) := by
  have hrests := fun i => (h i).rests (rests_of_met hmet i)
  by_cases hnow : ph.now = .decide .exit
  · rcases exists_waiting_of_met hmet with ⟨i, hi⟩
    have hat := (hrests i).2
    rw [if_pos hnow] at hat
    exact absurd hat.1 hi
  · simp only [if_neg hnow] at hrests
    rcases exists_stands_resume setup (ph.site setup)
      (fun i => ⟨(hrests i).1, (hrests i).2.2⟩) with ⟨ph', hph'⟩
    refine ⟨ph', fun i => ?_⟩
    rw [resumed_of_waiting (hrests i).2.1]
    exact hph' i

end Phases

end ReduceThreads

end GemmAr

end MKernel
