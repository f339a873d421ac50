import MKernel.Core.SmallNumbers
import MKernel.GemmAr.SlowThreads

/-!
# Uniform Rounds

When the threads of a reducing CTA decide the same.

In the path of the ready queue they always do. In the two others a slow thread can see
something else than the rest. In the work-stealing path no barrier stands between the
reads of a round without a chunk and the search of the next, so a chunk or -2 that the
leader finds there may be read for the round before. In the scan path the threads that
find no chunk read `published_chunks` one after the other, and the last chunk may be
published in between. Then some leave, and the others try again and wait at a barrier
that will be called by no one else.

As long as neither happens (`Unhurried`), all threads are in one phase. Where one of the
two does happen, the slow thread has only to go on to decide something else than the
others.

## Main definitions

* `Unhurried`: No step that takes a slow thread's answer away.

## Theorems

* `Stands.act`, `Stands.others`: A thread's step leaves all threads in their phase.
* `exists_stands_env`: A write from outside does.
* `rounds_uniform`: Unhurried runs are uniform, and others can be gone on with until they
  are not.
* `rounds_diverge`: Runs that are not uniform.
-/

namespace MKernel

namespace GemmAr

namespace ReduceThreads

open MKernel.Core DynamicReduce

section Phases

variable {setup : Setup} {n : Nat} {i j : Fin n} {m m' : Shared} {t : Thread} {d : Decision}
  {x : Shared × Thread} {ph : Phase} {b : Cta n}

/-- The step is none that takes away what a slow thread has still to read. In the work-stealing
    path the leader does not claim a chunk while a thread has a test of the round before in front
    of it, and does not find that all chunks are published while one has both. In the scan path the
    last chunk is not published while one thread waits to try again and another has
    `published_chunks` still to read. -/
def Unhurried (setup : Setup) (b : Cta n) :
    BlockAction (Fin n) ((Nat → BitVec 32) × Memory) → Prop
  | .thread i => setup.path = .worksteal → ∀ j,
      (∀ origin k, (b.thread i).pc = .searching (.doneSeen origin k) →
        b.mem.mem.localDoneFlag (setup.chunkAt origin k) = 1 →
          (b.thread j).pc ≠ .exitTest ∧ (b.thread j).pc ≠ .retryTest) ∧
      ((b.thread i).pc = .searching .testing →
        setup.totalChunks ≤ b.mem.mem.publishedChunks → (b.thread j).pc ≠ .exitTest)
  | .release => True
  | .env e => setup.path = .scan → b.mem.mem.publishedChunks < setup.totalChunks →
      setup.totalChunks ≤ e.2.publishedChunks → ∀ i, (b.thread i).pc = .waiting .retry →
        ∀ j, (b.thread j).pc ≠ .retryTest ∧ (b.thread j).pc ≠ .testing

/-! ## Steps of threads -/

/-- A thread that rests takes no step. -/
theorem act_rests (hrests : Rests t.pc) : act setup i m t = none := by
  cases hpc : t.pc with
  | waiting site => simp only [act, hpc]
  | left => simp only [act, hpc]
  | _ =>
      rw [hpc] at hrests
      exact hrests.elim

theorem AtHead.searching_of_act {passed : List Site} (h : AtHead setup passed t)
    (hact : act setup i m t = some x) :
    (∃ pc, t.pc = .searching pc ∧ (setup.path = .worksteal → Scans pc)) ∧ t.called = passed := by
  rcases h with hsearch | ⟨hpc, -⟩
  · exact hsearch
  · rw [act_rests (by rw [hpc]; trivial)] at hact
    exact absurd hact (by simp only [reduceCtorEq, not_false_eq_true])

/-- The search goes on to the barrier. -/
theorem AtHead.act {passed : List Site} (h : AtHead setup passed t)
    (hact : act setup i m t = some x) : x.2.decided = t.decided ∧ AtHead setup passed x.2 := by
  rcases h.searching_of_act hact with ⟨⟨pc, hpc, hscans⟩, rfl⟩
  rcases act_searching hpc hact with ⟨y, hy, -, hdecided, ⟨-, hwaits⟩ | ⟨hends, hpc', hcalled⟩⟩
  · exact ⟨hdecided, Or.inr hwaits⟩
  · refine ⟨hdecided, Or.inl ⟨⟨y.2.pc, hpc', fun hpath => ?_⟩, hcalled⟩⟩
    exact (search_worksteal m.sChunkId hpath (hscans hpath) hy).1 hends

/-- A thread that takes a step though it has decided is the leader, at its next search. -/
theorem atHead_of_settled {passed : List Site} (h : Settled setup passed t d)
    (hact : act setup i m t = some x) :
    setup.path = .worksteal ∧ d = .retry ∧ AtHead setup passed t := by
  have hmoves : ¬ Rests t.pc := fun hrests => by
    rw [act_rests hrests] at hact
    exact absurd hact (by simp only [reduceCtorEq, not_false_eq_true])
  cases d with
  | exit => exact absurd (h.1 ▸ trivial) hmoves
  | retry =>
      by_cases hpath : setup.path = .worksteal
      · rw [Settled, if_pos hpath] at h
        exact ⟨hpath, rfl, h⟩
      · rw [Settled, if_neg hpath] at h
        exact absurd (h.1 ▸ trivial) hmoves
  | chunk c => exact absurd (h.1 ▸ trivial) hmoves

/-- A thread's step leaves it in its phase. -/
theorem Stands.act (h : Stands setup ph m t) (hact : act setup i m t = some x) :
    Stands setup ph x.1 x.2 := by
  rcases ph with ⟨past, passed, now⟩
  cases now with
  | search =>
      -- In the search only the leader moves, and the others stay at the barrier.
      rcases h.2.act hact with ⟨hdecided, hhead⟩
      exact ⟨hdecided.trans h.1, hhead⟩
  | decide d =>
      rcases h with ⟨hv, hdecided, hcalled⟩ | ⟨hdecided, hset⟩
      · -- A thread that has not decided reads the same answer as the others.
        rcases verdict_act hv hact with ⟨hmem, ⟨hv', hd', hc'⟩ | ⟨hd', hset'⟩⟩
        · left
          rw [hmem]
          exact ⟨hv', hd'.trans hdecided, hc'.trans hcalled⟩
        · right
          dsimp only at hdecided hcalled ⊢
          rw [← hdecided, ← hcalled]
          exact ⟨hd', hset'⟩
      · -- After its decision it goes to the head of its next round.
        rcases atHead_of_settled hset hact with ⟨hpath, rfl, hhead⟩
        rcases hhead.act hact with ⟨hd', hhead'⟩
        right
        refine ⟨hd'.trans hdecided, ?_⟩
        rw [Settled, if_pos hpath]
        exact hhead'
  | reduce =>
      rcases h with ⟨hdecided, ⟨hpc, hcalled⟩ | ⟨hpc, -⟩⟩
      · simp only [ReduceThreads.act, hpc, Option.some.injEq] at hact
        subst hact
        exact ⟨hdecided, Or.inr ⟨rfl, congrArg (· ++ [Site.third]) hcalled⟩⟩
      · -- A thread that is at the barrier has no step.
        rw [act_rests (by rw [hpc]; trivial)] at hact
        exact absurd hact (by simp only [reduceCtorEq, not_false_eq_true])
  | count =>
      rcases h with ⟨hdecided, ⟨hpc, hcalled⟩ | ⟨hpc, -⟩⟩
      · simp only [ReduceThreads.act, hpc, Option.some.injEq] at hact
        subst hact
        exact ⟨hdecided, Or.inr ⟨rfl, congrArg (· ++ [Site.fourth]) hcalled⟩⟩
      · rw [act_rests (by rw [hpc]; trivial)] at hact
        exact absurd hact (by simp only [reduceCtorEq, not_false_eq_true])

/-! ## What the others see -/

/-- The memory matters to a thread only as far as it has still to decide. -/
theorem Stands.of_mem (h : Stands setup ph m t)
    (hv : ∀ d, ph.now = .decide d → verdict setup m t.pc = some d →
      verdict setup m' t.pc = some d) : Stands setup ph m' t := by
  rcases ph with ⟨past, passed, now⟩
  cases now with
  | decide d => exact h.imp (fun hu => ⟨hv d rfl hu.1, hu.2⟩) id
  | _ => exact h

/-- Where a thread reads the same, it decides the same. -/
theorem verdict_congr {pc : ThreadPc} (hs : m'.sChunkId = m.sChunkId)
    (hown : setup.path = .scan → verdict.own setup m' = verdict.own setup m) :
    verdict setup m' pc = verdict setup m pc := by
  by_cases hpath : setup.path = .scan
  · cases pc <;> simp only [verdict, verdict.verdictRetry, hs, hown hpath]
  · cases pc <;> simp only [verdict, verdict.verdictRetry, hs, if_neg hpath]

/-- A value that is no chunk and, before the first test, not -2 still says to try again. -/
theorem verdict_retry {pc : ThreadPc} (hpath : setup.path = .worksteal)
    (hexit : pc = .exitTest → m'.sChunkId ≠ -2 ∧ m'.sChunkId < 0)
    (hretry : pc = .retryTest → m'.sChunkId < 0)
    (hv : verdict setup m pc = some .retry) : verdict setup m' pc = some .retry := by
  cases pc with
  | exitTest =>
      rcases hexit rfl with ⟨hne, hneg⟩
      simp only [verdict, verdict.verdictRetry, hpath, reduceCtorEq, if_false, if_neg hne,
        if_pos hneg]
  | retryTest =>
      simp only [verdict, verdict.verdictRetry, hpath, reduceCtorEq, if_false, if_pos (hretry rfl)]
  | testing =>
      simp only [verdict, hpath, reduceCtorEq, if_false] at hv
  | taking =>
      simp only [verdict, Option.some.injEq, reduceCtorEq] at hv
  | _ => exact absurd hv (by simp only [verdict, reduceCtorEq, not_false_eq_true])

/-- A thread's step leaves the others in their phase. -/
theorem Stands.others (h : ∀ k, Stands setup ph b.mem (b.thread k))
    (hok : Unhurried setup b (.thread i))
    (hact : ReduceThreads.act setup i b.mem (b.thread i) = some x) (j : Fin n) :
    Stands setup ph x.1 (b.thread j) := by
  refine (h j).of_mem fun d hnow hv => ?_
  have hi := h i
  rcases ph with ⟨past, passed, now⟩
  subst hnow
  rcases hi with ⟨hvi, -, -⟩ | ⟨-, hset⟩
  · rwa [(verdict_act hvi hact).1]
  · rcases atHead_of_settled hset hact with ⟨hpath, rfl, hhead⟩
    rcases hhead.searching_of_act hact with ⟨⟨pc, hpc, hscans⟩, -⟩
    rcases act_searching hpc hact with ⟨y, hy, hmem, -⟩
    have hslow := hok hpath j
    have hs : x.1.sChunkId = stored setup.path pc y.2.pc b.mem.sChunkId := by rw [hmem]
    rcases (search_worksteal b.mem.sChunkId hpath (hscans hpath) hy).2 with
      hold | hnone | ⟨origin, k, rfl, hflag, -⟩ | ⟨rfl, hall, hexit⟩
    · -- `s_chunk_id` is as it was.
      refine (verdict_congr (hs.trans hold) fun hscan => ?_).trans hv
      exact absurd (hpath.symm.trans hscan) (by decide)
    · -- Nothing is found: -1 says to try again at both tests.
      rw [hnone] at hs
      exact verdict_retry hpath (fun _ => by rw [hs]; decide) (fun _ => by rw [hs]; decide) hv
    · -- A chunk is claimed, when no thread stands at a test.
      have hpast := hslow.1 origin k hpc hflag
      exact verdict_retry hpath (fun h => absurd h hpast.1) (fun h => absurd h hpast.2) hv
    · -- The exit is found, which only the first test tells from a retry.
      have hpast := hslow.2 hpc hall
      rw [hexit] at hs
      exact verdict_retry hpath (fun h => absurd h hpast) (fun _ => by rw [hs]; decide) hv

/-! ## Writes from outside -/

/-- One that takes a chunk takes it. -/
theorem verdict_chunk {pc : ThreadPc} (hpath : setup.path = .scan)
    (hs : m'.sChunkId = m.sChunkId) (hown : verdict.own setup m = .retry) (hd : d ≠ .retry)
    (hv : verdict setup m pc = some d) : verdict setup m' pc = some d := by
  rcases verdict_scan hpath hown hv with ⟨hretry, -⟩ | ⟨rfl, ⟨rfl, hneg⟩ | rfl⟩
  · exact absurd hretry hd
  · simp only [verdict, verdict.verdictRetry, hs, if_neg hneg]
  · simp only [verdict, hs]

theorem env_eq {e : (Nat → BitVec 32) × Memory} (h : (threads setup n).env e m = some m') :
    m'.sChunkId = m.sChunkId ∧ m'.mem = e.2 ∧ m.mem.publishedChunks ≤ e.2.publishedChunks := by
  by_cases hgrow : m.mem.publishedChunks ≤ e.2.publishedChunks
  · simp only [threads, if_pos hgrow, Option.some.injEq] at h
    subst h
    exact ⟨rfl, rfl, hgrow⟩
  · simp only [threads, if_neg hgrow, reduceCtorEq] at h

/-- A write from outside leaves all threads in one phase. -/
theorem exists_stands_env {e : (Nat → BitVec 32) × Memory}
    (h : ∀ k, Stands setup ph b.mem (b.thread k)) (hok : Unhurried setup b (.env e))
    (henv : (threads setup n).env e b.mem = some m) :
    ∃ ph', ∀ k, Stands setup ph' m (b.thread k) := by
  rcases env_eq henv with ⟨hs, hmem, hgrow⟩
  by_cases hlast : setup.path = .scan ∧ b.mem.mem.publishedChunks < setup.totalChunks ∧
      setup.totalChunks ≤ e.2.publishedChunks
  · rcases hlast with ⟨hpath, hlt, hall⟩
    have hown : verdict.own setup b.mem = .retry := if_neg (Nat.not_le.mpr hlt)
    rcases ph with ⟨past, passed, now⟩
    by_cases hretry : now = .decide .retry
    · subst hretry
      by_cases hwaits : ∃ i, (b.thread i).pc = .waiting .retry
      · -- One waits already, so no other has still to read the counter.
        rcases hwaits with ⟨i, hi⟩
        refine ⟨_, fun k => (h k).of_mem fun d hnow hv => ?_⟩
        obtain rfl : Decision.retry = d := Now.decide.inj hnow
        have hslow := hok hpath hlt hall i hi k
        rcases verdict_scan hpath hown hv with ⟨-, ⟨hpc, -⟩ | hpc⟩ | ⟨hd, -⟩
        · exact absurd hpc hslow.1
        · exact absurd hpc hslow.2
        · exact absurd hd (by simp only [reduceCtorEq, not_false_eq_true])
      · -- All have still to read it, and leave.
        refine ⟨⟨past, passed, .decide .exit⟩, fun k => ?_⟩
        rcases h k with ⟨hv, hrest⟩ | ⟨-, hset⟩
        · exact Or.inl ⟨verdict_published hpath hs hown (if_pos (hmem ▸ hall)) hv, hrest⟩
        · simp only [Settled, hpath, reduceCtorEq, if_false] at hset
          exact absurd ⟨k, hset.1⟩ hwaits
    · refine ⟨_, fun k => (h k).of_mem fun d hnow hv => ?_⟩
      have hd : d ≠ .retry := fun heq => hretry (heq ▸ hnow)
      exact verdict_chunk hpath hs hown hd hv
  · refine ⟨ph, fun k => (h k).of_mem fun d _ hv => ?_⟩
    refine (verdict_congr hs fun hpath => ?_).trans hv
    simp only [verdict.own, hmem]
    refine if_congr ⟨fun hall => ?_, fun hall => Nat.le_trans hall hgrow⟩ rfl rfl
    by_contra hlt
    exact hlast ⟨hpath, Nat.not_le.mp hlt, hall⟩

/-! ## Runs -/

theorem exists_stands (setup : Setup) (m : Shared) (scanStart : Nat)
    (h : Reaches (threads setup n).step (Unhurried setup) (init n m scanStart) b) :
    ∃ ph, ∀ k, Stands setup ph b.mem (b.thread k) := by
  refine Threads.phase_of_reaches (fun ph _ m t => Stands setup ph m t) ?_ ?_ ?_ h ?_
  · intro ph b i x hph hok hact
    exact ⟨(hph i).act hact, fun j _ => Stands.others hph hok hact j⟩
  · exact fun ph b hph hmet => exists_stands_met hph hmet
  · exact fun ph b e m hph hok henv => exists_stands_env hph hok henv
  · exact ⟨⟨[], [], .search⟩, fun k => ⟨head_decided, atHead_head⟩⟩

theorem AtHead.reads {passed : List Site} (h : AtHead setup passed t) : reads t.pc = 0 := by
  rcases h with ⟨⟨pc, hpc, -⟩, -⟩ | ⟨hpc, -⟩
  · rw [hpc]
    rfl
  · rw [hpc]
    rfl

theorem Settled.reads {passed : List Site} (h : Settled setup passed t d) : reads t.pc = 0 := by
  cases d with
  | exit => rw [h.1]; rfl
  | retry =>
      by_cases hpath : setup.path = .worksteal
      · rw [Settled, if_pos hpath] at h
        exact h.reads
      · rw [Settled, if_neg hpath] at h
        rw [h.1]
        rfl
  | chunk c => rw [h.1]; rfl

theorem Before.reads {pc : ThreadPc} {site : Site} {passed : List Site}
    (h : Before pc site passed t) (hpc : ReduceThreads.reads pc = 0) :
    ReduceThreads.reads t.pc = 0 := by
  rcases h with ⟨hat, -⟩ | ⟨hat, -⟩
  · rwa [hat]
  · rw [hat]
    rfl

/-- A thread that has something to read has still to decide. -/
theorem Stands.undecided (h : Stands setup ph m t) (hreads : 0 < reads t.pc) :
    ∃ d, ph.now = .decide d ∧ verdict setup m t.pc = some d ∧ t.decided = ph.past := by
  rcases ph with ⟨past, passed, now⟩
  have hnot : ¬ reads t.pc = 0 := Nat.ne_of_gt hreads
  cases now with
  | search => exact absurd h.2.reads hnot
  | decide d =>
      rcases h with ⟨hv, hdecided, -⟩ | ⟨-, hset⟩
      · exact ⟨d, rfl, hv, hdecided⟩
      · exact absurd hset.reads hnot
  | reduce => exact absurd (h.2.reads rfl) hnot
  | count => exact absurd (h.2.reads rfl) hnot

/-- And one that has nothing to read has decided what the phase says. -/
theorem Stands.settled (h : Stands setup ph m t) (hnow : ph.now = .decide d)
    (hnone : verdict setup m t.pc = none) :
    t.decided = ph.past ++ [d] ∧ Settled setup ph.passed t d := by
  rcases ph with ⟨past, passed, now⟩
  subst hnow
  rcases h with ⟨hv, -⟩ | hset
  · rw [hnone] at hv
    exact absurd hv (by simp only [reduceCtorEq, not_false_eq_true])
  · exact hset

/-- What the leader finds is taken for the answer of the round before. -/
theorem exists_overtaken (hact : ReduceThreads.act setup i b.mem (b.thread i) = some x)
    (hslow : ¬ Unhurried setup b (.thread i)) :
    setup.path = .worksteal ∧ (∃ pc, (b.thread i).pc = .searching pc) ∧
      ∃ j, 0 < reads (b.thread j).pc ∧
        ∃ d, verdict setup x.1 (b.thread j).pc = some d ∧ Decision.retry ≠ d := by
  simp only [Unhurried, not_forall] at hslow
  rcases hslow with ⟨hpath, j, hslow⟩
  have hscan : ¬ setup.path = .scan := by
    rw [hpath]
    decide
  -- Either the leader claims a chunk or it sees that all are published.
  rcases not_and_or.mp hslow with hclaims | hleaves
  · push Not at hclaims
    rcases hclaims with ⟨origin, k, hpc, hflag, htests⟩
    rcases act_searching hpc hact with ⟨y, hy, hmem, -⟩
    simp only [reduceStep, if_pos hflag, Option.some.injEq] at hy
    subst hy
    -- It stores the chunk over the -1, which a thread has still to read.
    have hs : x.1.sChunkId = setup.chunkAt origin k := by rw [hmem]; rfl
    -- That thread would take the chunk, and the others try again.
    have hchunk : verdict.verdictRetry setup x.1 = some (.chunk x.1.sChunkId) :=
      if_neg (by omega)
    refine ⟨hpath, ⟨_, hpc⟩, j, ?_⟩
    by_cases hexit : (b.thread j).pc = .exitTest
    · rw [hexit]
      refine ⟨by decide, .chunk x.1.sChunkId, ?_, by simp⟩
      rw [verdict, if_neg hscan, if_neg (by omega)]
      exact hchunk
    · rw [htests hexit]
      exact ⟨by decide, _, hchunk, by simp⟩
  · push Not at hleaves
    rcases hleaves with ⟨hpc, hall, hexit⟩
    rcases act_searching hpc hact with ⟨y, hy, hmem, -⟩
    simp only [reduceStep, if_pos hall, Option.some.injEq] at hy
    subst hy
    -- It stores -2 over it, and the thread would leave.
    have hs : x.1.sChunkId = -2 := by rw [hmem]; rfl
    refine ⟨hpath, ⟨_, hpc⟩, j, ?_⟩
    rw [hexit]
    refine ⟨by decide, .exit, ?_, by simp⟩
    rw [verdict, if_neg hscan, if_pos hs]

/-- Where a step is hurried the threads can part. -/
theorem exists_hurried {a : BlockAction (Fin n) ((Nat → BitVec 32) × Memory)} {b' : Cta n}
    (h : ∀ k, Stands setup ph b.mem (b.thread k)) (hstep : (threads setup n).step b a = some b')
    (hhurried : ¬ Unhurried setup b a) :
    ∃ b'', Reaches (threads setup n).step always b' b'' ∧ ¬ Uniform b'' := by
  cases a with
  | thread i =>
      rcases Threads.step_thread hstep with ⟨x, hact, rfl⟩
      rcases exists_overtaken hact hhurried with ⟨hpath, ⟨pc, hpc⟩, j, hreads, d', hv', hne⟩
      rcases (h j).undecided hreads with ⟨d, hnow, -, hj⟩
      -- The leader has gone on, so it has decided to try again.
      rcases (h i).settled hnow (by rw [hpc]; rfl) with ⟨hi, hset⟩
      obtain rfl := (atHead_of_settled hset hact).2.1
      have hji : j ≠ i := by
        rintro rfl
        rw [hpc] at hreads
        exact absurd hreads (Nat.lt_irrefl 0)
      rcases act_searching hpc hact with ⟨-, -, -, hsame, -⟩
      have hleader : (Function.update b.thread i x.2 i).decided = ph.past ++ [Decision.retry] := by
        rw [Function.update_self]
        exact hsame.trans hi
      have hthread : Function.update b.thread i x.2 j = b.thread j := Function.update_of_ne hji _ _
      rw [← hthread] at hj hv'
      exact exists_not_uniform hleader hj hv' hne
  | release => exact absurd trivial hhurried
  | env e =>
      simp only [Unhurried, not_forall] at hhurried
      rcases hhurried with ⟨hpath, hlt, hall, i, hi, j, hslow⟩
      rcases Threads.step_env hstep with ⟨m, hm, rfl⟩
      rcases env_eq hm with ⟨hs, hmem, -⟩
      have hown : verdict.own setup b.mem = .retry := if_neg (Nat.not_le.mpr hlt)
      have hown' : verdict.own setup m = .exit := if_pos (hmem ▸ hall)
      have hreads : 0 < reads (b.thread j).pc := by
        rcases not_and_or.mp hslow with hpc | hpc
        · rw [not_not.mp hpc]
          decide
        · rw [not_not.mp hpc]
          decide
      rcases (h j).undecided hreads with ⟨d, hnow, hv, hj⟩
      rcases (h i).settled hnow (by rw [hi]; rfl) with ⟨hdecided, hset⟩
      -- A thread waits to try again, so that is what is decided.
      have hd : d = .retry := by
        cases d with
        | exit => exact absurd (hi.symm.trans hset.1) (by decide)
        | retry => rfl
        | chunk c => exact absurd (hi.symm.trans hset.1) (by decide)
      subst hd
      exact exists_not_uniform hdecided hj (verdict_published hpath hs hown hown' hv) (by decide)

end Phases

/-- Runs are uniform in the path of the ready queue, and in the others as long as they are
    unhurried. A run that is not can be gone on with until the threads have decided differently. -/
theorem rounds_uniform (setup : Setup) (n : Nat) (m : Shared) (scanStart : Nat) :
    (setup.path = .recvReadyQueue → ∀ b : Cta n,
      Reaches (threads setup n).step always (init n m scanStart) b → Uniform b) ∧
    ∀ b : Cta n, Reaches (threads setup n).step (Unhurried setup) (init n m scanStart) b →
      Uniform b ∧ ∀ a b', (threads setup n).step b a = some b' → ¬ Unhurried setup b a →
        ∃ b'', Reaches (threads setup n).step always b' b'' ∧ ¬ Uniform b'' := by
  have hall : ∀ b : Cta n, Reaches (threads setup n).step (Unhurried setup) (init n m scanStart) b →
      Uniform b := by
    intro b hb
    rcases exists_stands setup m scanStart hb with ⟨ph, hph⟩
    exact Stands.uniform hph
  refine ⟨fun hpath b hb => hall b (reaches_mono (fun b a _ => ?_) hb), fun b hb => ⟨hall b hb, ?_⟩⟩
  · -- Only the other paths have hurried steps.
    cases a with
    | thread i => exact fun hsteal => absurd (hpath.symm.trans hsteal) (by decide)
    | release => trivial
    | env e => exact fun hscan => absurd (hpath.symm.trans hscan) (by decide)
  · intro a b' hstep hhurried
    rcases exists_stands setup m scanStart hb with ⟨ph, hph⟩
    exact exists_hurried hph hstep hhurried

/-! ## Launches -/

/-- `config::NUM_THREADS`: three warpgroups of four warps of 32 threads. -/
def numThreads : Nat := (2 + 1) * 4 * 32

/-- A launch on two nodes of eight GPUs. -/
def launch (path : Path) (m n : Nat) : Setup where
  shape := { m := m, n := n, numDevices := 8, chunkTilesOverride := 0 }
  numPeers := 1
  numIntraArSms := 8
  numReduce := 8
  numRecvProgress := if path = .recvReadyQueue then 1 else 0
  path := path
  remoteRqCapacity := Shape.totalChunks { m := m, n := n, numDevices := 8, chunkTilesOverride := 0 }
  numPeers_le := one_le_thirtyOne
  capacity_ge := Nat.le_refl _

/-- All chunks have been claimed, and so many have been published and taken from the queue. -/
def claimed (published queued : Nat) : Shared where
  arrived _ := 1
  mem := { Memory.init with
    localDoneFlag := fun _ => 2
    publishedChunks := published
    rqHead := queued
    rqTail := queued }
  sChunkId := 0

/-- The tiles of chunk 37 are counted, and all others have been published. -/
def lastOpen (arrived : BitVec 32) (queued : Nat) : Shared where
  arrived c := if c = 37 then arrived else 1
  mem := { Memory.init with
    localDoneFlag := fun c => if c = 37 then 1 else 2
    publishedChunks := 127
    rqHead := 127
    rqTail := queued
    rqEntries := fun _ => 38 }
  sChunkId := 0

/-- What two threads do from the release of a first barrier on: they test what the leader has
    written, and thread `i` first. -/
def test (i : Fin 2) (tests : Nat) : List (BlockAction (Fin 2) ((Nat → BitVec 32) × Memory)) :=
  [.release] ++ List.replicate tests (.thread i) ++ List.replicate tests (.thread (1 - i))

/-- The leader searches and finds nothing, and all try again. Then the chunk is there, and is
    found, reduced and counted. Behind the next search all leave. -/
def lastRound (search find takes leaves : Nat) :
    List (BlockAction (Fin 2) ((Nat → BitVec 32) × Memory)) :=
  List.replicate search (.thread 0) ++ test 0 2 ++
  [.env ((lastOpen 1 128).arrived, (lastOpen 1 128).mem), .release] ++
  List.replicate find (.thread 0) ++ test 1 takes ++ test 0 1 ++ test 1 1 ++
  [.release] ++ List.replicate search (.thread 0) ++ test 1 leaves

/-- From outside not all chunks are published. -/
def Unpublished (setup : Setup) : BlockAction (Fin 2) ((Nat → BitVec 32) × Memory) → Prop
  | .env e => e.2.publishedChunks < setup.totalChunks
  | _ => True

instance (setup : Setup) : DecidablePred (Unpublished setup)
  | .env _ => inferInstanceAs (Decidable (_ < _))
  | .thread _ | .release => isTrue trivial

/-- With the queue and with scanning, the threads try again, reduce the last of 128 chunks and
    leave. -/
theorem rounds_uniform_last :
    (∃ b : Cta 2, Reaches (threads (launch .recvReadyQueue 8192 16384) 2).step always
      (init 2 (lastOpen 0 127) 0) b ∧
      ((b.thread 0).decided = [.retry, .chunk 37, .exit] ∧
        (b.thread 1).decided = [.retry, .chunk 37, .exit]) ∧ Uniform b) ∧
    ∃ b : Cta 2, Reaches (threads (launch .scan 8192 16384) 2).step
      (Unhurried (launch .scan 8192 16384)) (init 2 (lastOpen 0 127) 0) b ∧
      ((b.thread 0).decided = [.retry, .chunk 37, .exit] ∧
        (b.thread 1).decided = [.retry, .chunk 37, .exit]) ∧ Uniform b := by
  constructor
  · have hrun : (run (threads (launch .recvReadyQueue 8192 16384) 2).step always
        (lastRound 3 4 3 1) (init 2 (lastOpen 0 127) 0)).map
          (fun b => ((b.thread 0).decided, (b.thread 1).decided)) =
        some ([.retry, .chunk 37, .exit], [.retry, .chunk 37, .exit]) := by decide +kernel
    rcases Option.map_eq_some_iff.mp hrun with ⟨b, hb, hdecided⟩
    have hreach := reaches_of_run _ _ _ hb
    exact ⟨b, hreach, Prod.mk.inj hdecided, (rounds_uniform _ 2 _ 0).1 rfl b hreach⟩
  · have hrun : (run (threads (launch .scan 8192 16384) 2).step
        (fun _ a => Unpublished (launch .scan 8192 16384) a)
        (lastRound 66 14 2 2) (init 2 (lastOpen 0 127) 0)).map
          (fun b => ((b.thread 0).decided, (b.thread 1).decided)) =
        some ([.retry, .chunk 37, .exit], [.retry, .chunk 37, .exit]) := by decide +kernel
    rcases Option.map_eq_some_iff.mp hrun with ⟨b, hb, hdecided⟩
    have hreach : Reaches (threads (launch .scan 8192 16384) 2).step
        (Unhurried (launch .scan 8192 16384)) (init 2 (lastOpen 0 127) 0) b := by
      refine reaches_mono (fun b a hok => ?_) (reaches_of_run _ _ _ hb)
      cases a with
      | thread i => exact fun hpath => absurd hpath (by decide)
      | release => trivial
      -- Not all chunks are published here, so that the condition asks for nothing.
      | env e => exact fun _ _ hall => absurd hok (Nat.not_lt.mpr hall)
    exact ⟨b, hreach, Prod.mk.inj hdecided, ((rounds_uniform _ 2 _ 0).2 b hreach).1⟩

/-- The last of 128 chunks, which are found by scanning, is published between the reads of two
    threads. And that of 512, in the work-stealing path, while a thread is slow to read that the
    leader had found none. -/
theorem rounds_diverge :
    (∃ b, Reaches (threads (launch .scan 8192 16384) numThreads).step always
      (init numThreads (claimed 127 0) 0) b ∧ ¬ Uniform b) ∧
    ∃ b, Reaches (threads (launch .worksteal 16384 32768) numThreads).step always
      (init numThreads (claimed 511 0) 0) b ∧ ¬ Uniform b := by
  have hnone : ∀ k c, (claimed k 0).arrived c = 0 ∨ (claimed k 0).mem.localDoneFlag c ≠ 1 :=
    fun k c => Or.inr fun h => absurd h (show ¬ (2 : Nat) = 1 by decide)
  let leader : Fin numThreads := ⟨0, by decide⟩
  let slow : Fin numThreads := ⟨1, by decide⟩
  have hslow : slow ≠ leader := fun h => absurd (Fin.val_eq_of_eq h) (by decide)
  exact ⟨exists_parted_scan 0 rfl rfl hslow (hnone 127) (by decide),
    exists_parted_worksteal 0 rfl rfl hslow (hnone 511) (by decide)⟩

end ReduceThreads

end GemmAr

end MKernel
