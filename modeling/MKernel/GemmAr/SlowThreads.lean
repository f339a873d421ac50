import MKernel.GemmAr.ReduceThreads

/-!
# Slow Threads

Where a thread of a reducing CTA sees something else than the others.

A thread that has still to decide can be let go on alone, and decides what its reads say
(`exists_decided`). So if the others have decided something else in the round, the
threads part (`exists_not_uniform`).

In the scan and the work-stealing path this can be brought about from the head of the
loop, when all chunks are claimed and all but one are published. The leader finds none
and decides to try again, and the last chunk is published before a slow thread has read.
In the scan path that thread reads the counter itself. In the work-stealing path it reads
what the leader has written in the next round, as no barrier keeps the leader from it.

## Main definitions

* `reads`: How many reads a thread has at most before it has decided.
* `Leads`: The leader has got on by itself.

## Theorems

* `search_worksteal`: What the leader of the work-stealing path can find.
* `verdict_scan`, `verdict_published`: What a thread of the scan path reads.
* `exists_decided`: A thread that goes on alone.
* `exists_not_uniform`: A thread that decides something else.
* `exists_fruitless`: A search that finds no chunk.
* `exists_parted_scan`, `exists_parted_worksteal`: Runs in which the threads part.
-/

namespace MKernel

namespace GemmAr

namespace ReduceThreads

open MKernel.Core DynamicReduce

section Phases

variable {setup : Setup} {n : Nat} {i j : Fin n} {m m' : Shared} {t : Thread} {d : Decision}
  {x : Shared × Thread} {b : Cta n}

/-- A step of the search, with what it leaves in `s_chunk_id`. -/
theorem act_searching {pc : ReducePc} (hpc : t.pc = .searching pc)
    (hact : act setup i m t = some x) :
    ∃ y, reduceStep setup m.arrived m.mem { pc := pc, scanStart := t.scanStart } = some y ∧
      x.1 = { m with mem := y.1, sChunkId := stored setup.path pc y.2.pc m.sChunkId } ∧
      x.2.decided = t.decided ∧
      ((ends setup.path pc y.2.pc = true ∧ x.2.pc = .waiting .first ∧
          x.2.called = t.called ++ [Site.first]) ∨
        (ends setup.path pc y.2.pc = false ∧ x.2.pc = .searching y.2.pc ∧
          x.2.called = t.called)) := by
  simp only [act, hpc] at hact
  rcases Option.map_eq_some_iff.mp hact with ⟨y, hy, rfl⟩
  refine ⟨y, hy, rfl, ?_⟩
  dsimp only
  cases hends : ends setup.path pc y.2.pc with
  | true => exact ⟨rfl, Or.inl ⟨rfl, rfl, rfl⟩⟩
  | false => exact ⟨rfl, Or.inr ⟨rfl, rfl, rfl⟩⟩

/-- What the leader of the work-stealing path can find with a step: it goes on, or begins its search
    with -1, or claims a chunk, or finds that all chunks are published. -/
theorem search_worksteal {pc : ReducePc} {y : Memory × Reducer} {scanStart : Nat} (old : Int)
    (hpath : setup.path = .worksteal) (hscans : Scans pc)
    (hy : reduceStep setup m.arrived m.mem { pc := pc, scanStart := scanStart } = some y) :
    (ends setup.path pc y.2.pc = false → Scans y.2.pc) ∧
      (stored setup.path pc y.2.pc old = old ∨ stored setup.path pc y.2.pc old = -1 ∨
        (∃ origin k, pc = .doneSeen origin k ∧ m.mem.localDoneFlag (setup.chunkAt origin k) = 1 ∧
          stored setup.path pc y.2.pc old = setup.chunkAt origin k) ∨
        (pc = .testing ∧ setup.totalChunks ≤ m.mem.publishedChunks ∧
          stored setup.path pc y.2.pc old = -2)) := by
  have hready : setup.path ≠ .recvReadyQueue := by
    rw [hpath]
    decide
  -- Only the beginning of a search stores -1.
  have hkeep : ∀ pc : ReducePc, pc ≠ .top → ¬ (setup.path ≠ .recvReadyQueue ∧ pc = .top) :=
    fun _ hne h => hne h.2
  cases pc with
  | top =>
      simp only [reduceStep, hpath, Option.some.injEq] at hy
      subst hy
      exact ⟨fun _ => trivial, Or.inr (Or.inl (if_pos ⟨hready, rfl⟩))⟩
  | scanning origin k =>
      simp only [reduceStep] at hy
      by_cases hwin : k < setup.win
      · rw [if_pos hwin] at hy
        by_cases harr : m.arrived (setup.chunkAt origin k) = 0
        · rw [if_pos harr, Option.some.injEq] at hy
          subst hy
          exact ⟨fun _ => trivial, Or.inl (if_neg (hkeep (.scanning origin k) nofun))⟩
        · rw [if_neg harr, Option.some.injEq] at hy
          subst hy
          exact ⟨fun _ => trivial, Or.inl (if_neg (hkeep (.scanning origin k) nofun))⟩
      · rw [if_neg hwin, Option.some.injEq] at hy
        subst hy
        exact ⟨fun _ => trivial, Or.inl (if_neg (hkeep (.scanning origin k) nofun))⟩
  | arrivedSeen origin k =>
      simp only [reduceStep] at hy
      by_cases hflag : m.mem.localDoneFlag (setup.chunkAt origin k) ≠ 1
      · rw [if_pos hflag, Option.some.injEq] at hy
        subst hy
        exact ⟨fun _ => trivial, Or.inl (if_neg (hkeep (.arrivedSeen origin k) nofun))⟩
      · rw [if_neg hflag, Option.some.injEq] at hy
        subst hy
        exact ⟨fun _ => trivial, Or.inl (if_neg (hkeep (.arrivedSeen origin k) nofun))⟩
  | doneSeen origin k =>
      simp only [reduceStep] at hy
      -- The claim ends the search with the chunk, and otherwise it goes on behind it.
      by_cases hflag : m.mem.localDoneFlag (setup.chunkAt origin k) = 1
      · rw [if_pos hflag, Option.some.injEq] at hy
        subst hy
        exact ⟨fun h => absurd (show true = false from h) (by decide),
          Or.inr (Or.inr (Or.inl ⟨origin, k, rfl, hflag, rfl⟩))⟩
      · rw [if_neg hflag, Option.some.injEq] at hy
        subst hy
        exact ⟨fun _ => trivial, Or.inl (if_neg (hkeep (.doneSeen origin k) nofun))⟩
  | testing =>
      simp only [reduceStep] at hy
      -- If all are published the search ends with -2, and if not it begins again.
      by_cases hall : setup.totalChunks ≤ m.mem.publishedChunks
      · rw [if_pos hall, Option.some.injEq] at hy
        subst hy
        exact ⟨fun h => absurd (show true = false from h) (by decide),
          Or.inr (Or.inr (Or.inr ⟨rfl, hall, rfl⟩))⟩
      · rw [if_neg hall, Option.some.injEq] at hy
        subst hy
        exact ⟨fun _ => trivial, Or.inl (if_neg fun h => hready h.1)⟩
  | _ => exact hscans.elim

/-- What a thread of the scan path reads before the last chunk is published. -/
theorem verdict_scan {pc : ThreadPc} (hpath : setup.path = .scan)
    (hown : verdict.own setup m = .retry) (hv : verdict setup m pc = some d) :
    (d = .retry ∧ (pc = .retryTest ∧ m.sChunkId < 0 ∨ pc = .testing)) ∨
      (d = .chunk m.sChunkId ∧ (pc = .retryTest ∧ ¬ m.sChunkId < 0 ∨ pc = .taking)) := by
  cases pc with
  | exitTest =>
      exact absurd hv (by simp only [verdict, if_pos hpath, reduceCtorEq, not_false_eq_true])
  | retryTest =>
      by_cases hneg : m.sChunkId < 0
      · simp only [verdict, verdict.verdictRetry, if_pos hneg, if_pos hpath, hown,
          Option.some.injEq] at hv
        exact Or.inl ⟨hv.symm, Or.inl ⟨rfl, hneg⟩⟩
      · simp only [verdict, verdict.verdictRetry, if_neg hneg, Option.some.injEq] at hv
        exact Or.inr ⟨hv.symm, Or.inl ⟨rfl, hneg⟩⟩
  | testing =>
      simp only [verdict, if_pos hpath, hown, Option.some.injEq] at hv
      exact Or.inl ⟨hv.symm, Or.inr rfl⟩
  | taking =>
      simp only [verdict, Option.some.injEq] at hv
      exact Or.inr ⟨hv.symm, Or.inr rfl⟩
  | _ => exact absurd hv (by simp only [verdict, reduceCtorEq, not_false_eq_true])

/-- One that would have tried again leaves, once the last chunk is published. -/
theorem verdict_published {pc : ThreadPc} (hpath : setup.path = .scan)
    (hs : m'.sChunkId = m.sChunkId) (hown : verdict.own setup m = .retry)
    (hown' : verdict.own setup m' = .exit) (hv : verdict setup m pc = some .retry) :
    verdict setup m' pc = some .exit := by
  rcases verdict_scan hpath hown hv with ⟨-, ⟨rfl, hneg⟩ | rfl⟩ | ⟨hd, -⟩
  · rw [← hs] at hneg
    simp only [verdict, verdict.verdictRetry, if_pos hneg, if_pos hpath, hown']
  · simp only [verdict, if_pos hpath, hown']
  · exact absurd hd (by simp only [reduceCtorEq, not_false_eq_true])

/-! ## Slow threads -/

/-- How many reads a thread has at most before it has decided. -/
def reads : ThreadPc → Nat
  | .exitTest => 3
  | .retryTest => 2
  | .testing => 1
  | .taking => 1
  | _ => 0

theorem exists_act (hv : verdict setup m t.pc = some d) :
    ∃ x, ReduceThreads.act setup i m t = some x := by
  rcases t with ⟨pc, scanStart, chunkId, decided, called⟩
  cases pc with
  | exitTest => exact ⟨_, rfl⟩
  | retryTest => exact ⟨_, rfl⟩
  | testing => exact ⟨_, rfl⟩
  | taking => exact ⟨_, rfl⟩
  | _ => exact absurd hv (by simp only [verdict, reduceCtorEq, not_false_eq_true])

/-- A thread that has not decided with a step has one read less in front of it. -/
theorem reads_act (hv : verdict setup m t.pc = some d)
    (hact : ReduceThreads.act setup i m t = some x) (hdecided : x.2.decided = t.decided) :
    reads x.2.pc < reads t.pc := by
  -- A thread that decides has one more decision.
  have hmore : ∀ (l : List Decision) (d : Decision), ¬ l ++ [d] = l := fun l d heq =>
    absurd (List.append_right_eq_self.mp heq) (List.cons_ne_nil d [])
  rcases t with ⟨pc, scanStart, chunkId, decided, called⟩
  cases pc with
  | exitTest =>
      simp only [ReduceThreads.act, Option.some.injEq] at hact
      subst hact
      by_cases hexit : m.sChunkId = -2
      · rw [if_pos hexit] at hdecided
        exact absurd hdecided (hmore _ _)
      · rw [if_neg hexit]
        exact Nat.lt_succ_self 2
  | retryTest =>
      simp only [ReduceThreads.act, Option.some.injEq] at hact
      subst hact
      by_cases hneg : m.sChunkId < 0
      · rw [if_pos hneg] at hdecided ⊢
        by_cases hpath : setup.path = .scan
        · simp only [retryStep, hpath]
          exact Nat.lt_succ_self 1
        · rw [(retryStep_spec hpath).1] at hdecided
          exact absurd hdecided (hmore _ _)
      · rw [if_neg hneg]
        exact Nat.lt_succ_self 1
  | testing =>
      simp only [ReduceThreads.act, Option.some.injEq] at hact
      subst hact
      by_cases hall : setup.totalChunks ≤ m.mem.publishedChunks
      · rw [if_pos hall] at hdecided
        exact absurd hdecided (hmore _ _)
      · rw [if_neg hall] at hdecided
        exact absurd hdecided (hmore _ _)
  | taking =>
      simp only [ReduceThreads.act, Option.some.injEq] at hact
      subst hact
      exact absurd hdecided (hmore _ _)
  | _ => exact absurd hv (by simp only [verdict, reduceCtorEq, not_false_eq_true])

/-- A step of one thread leaves the others where they are. -/
theorem exists_block_act (hact : ReduceThreads.act setup j b.mem (b.thread j) = some x) :
    ∃ b', Reaches (threads setup n).step always b b' ∧ b'.mem = x.1 ∧ b'.thread j = x.2 ∧
      ∀ i, i ≠ j → b'.thread i = b.thread i :=
  ⟨_, Threads.reaches_act rfl hact, rfl, Function.update_self _ _ _,
    fun _ hi => Function.update_of_ne hi _ _⟩

/-- A thread that goes on alone decides what its reads say. -/
theorem exists_decided : ∀ k (b : Cta n), reads (b.thread j).pc < k →
    verdict setup b.mem (b.thread j).pc = some d →
    ∃ b', Reaches (threads setup n).step always b b' ∧ b'.mem = b.mem ∧
      (b'.thread j).decided = (b.thread j).decided ++ [d] ∧
      ∀ i, i ≠ j → b'.thread i = b.thread i := by
  intro k
  induction k with
  | zero => exact fun b hreads => absurd hreads (Nat.not_lt_zero _)
  | succ k ih =>
      intro b hreads hv
      rcases exists_act (i := j) hv with ⟨x, hact⟩
      rcases exists_block_act hact with ⟨b', hb', hmem, hj, hothers⟩
      rcases verdict_act hv hact with ⟨hsamemem, ⟨hv', hsame, -⟩ | ⟨hdecided, -⟩⟩
      · have hlt := reads_act hv hact hsame
        rw [← hj] at hlt hv' hsame
        rw [← hsamemem, ← hmem] at hv'
        rcases ih b' (by omega) hv' with ⟨b'', hb'', hmem', hdecided, hothers'⟩
        refine ⟨b'', reaches_trans hb' hb'', ?_, ?_, fun i hi => ?_⟩
        · rw [hmem', hmem, hsamemem]
        · rw [hdecided, hsame]
        · rw [hothers' i hi, hothers i hi]
      · exact ⟨b', hb', hmem.trans hsamemem, hj ▸ hdecided, hothers⟩

/-- A thread that decides something else than another did in the same round. -/
theorem exists_not_uniform {d' : Decision} {past : List Decision}
    (hi : (b.thread i).decided = past ++ [d]) (hj : (b.thread j).decided = past)
    (hv : verdict setup b.mem (b.thread j).pc = some d') (hne : d ≠ d') :
    ∃ b', Reaches (threads setup n).step always b b' ∧ ¬ Uniform b' := by
  rcases exists_decided _ b (Nat.lt_succ_self _) hv with ⟨b', hb', -, hdecided, hothers⟩
  have hij : i ≠ j := by
    rintro rfl
    rw [hi] at hj
    exact absurd (List.append_right_eq_self.mp hj) (List.cons_ne_nil d [])
  refine ⟨b', hb', fun hu => ?_⟩
  have hcmp := hu.decided i j
  rw [hothers i hij, hi, hdecided, hj] at hcmp
  rcases hcmp with hpre | hpre
  · exact not_prefix_of_last hne hpre
  · exact not_prefix_of_last hne.symm hpre

end Phases

/-! ## The leader alone -/

section Parting

variable {setup : Setup} {n : Nat} {l j : Fin n} {b : Cta n}

/-- The leader has got to another place of its search or to the barrier, and nothing else has
    moved but the memory. -/
structure Leads (setup : Setup) (l : Fin n) (b b' : Cta n) (pc : ThreadPc) : Prop where
  reaches : Reaches (threads setup n).step always b b'
  pc_eq : (b'.thread l).pc = pc
  decided : (b'.thread l).decided = (b.thread l).decided
  others : ∀ i, i ≠ l → b'.thread i = b.thread i

theorem Leads.trans {b' b'' : Cta n} {pc pc' : ThreadPc} (h : Leads setup l b b' pc)
    (h' : Leads setup l b' b'' pc') : Leads setup l b b'' pc' where
  reaches := reaches_trans h.reaches h'.reaches
  pc_eq := h'.pc_eq
  decided := h'.decided.trans h.decided
  others i hi := (h'.others i hi).trans (h.others i hi)

variable (setup) in
/-- The leader's step of its search, as one of the CTA. -/
theorem exists_search {pc : ReducePc} {y : Memory × Reducer}
    (hpc : (b.thread l).pc = .searching pc)
    (hy : reduceStep setup b.mem.arrived b.mem.mem
      { pc := pc, scanStart := (b.thread l).scanStart } = some y) :
    ∃ b', Leads setup l b b'
        (if ends setup.path pc y.2.pc then .waiting .first else .searching y.2.pc) ∧
      b'.mem = { b.mem with
        mem := y.1, sChunkId := stored setup.path pc y.2.pc b.mem.sChunkId } := by
  have hsome : ∃ x, act setup l b.mem (b.thread l) = some x := by
    simp only [act, hpc, hy, Option.map_some]
    exact ⟨_, rfl⟩
  rcases hsome with ⟨x, hact⟩
  rcases act_searching hpc hact with ⟨y', hy', hmem, hdecided, hat⟩
  obtain rfl : y = y' := Option.some.inj (hy.symm.trans hy')
  rcases exists_block_act hact with ⟨b', hb', hmem', hl, hothers⟩
  refine ⟨b', ⟨hb', ?_, hl ▸ hdecided, hothers⟩, hmem'.trans hmem⟩
  rw [hl]
  rcases hat with ⟨hends, hpc', -⟩ | ⟨hends, hpc', -⟩
  · rw [if_pos hends, hpc']
  · rw [hends]
    exact hpc'

/-- A step in which the leader looks at a flag. -/
theorem exists_look {pc pc' : ReducePc} (hpc : (b.thread l).pc = .searching pc)
    (hy : reduceStep setup b.mem.arrived b.mem.mem
      { pc := pc, scanStart := (b.thread l).scanStart } =
        some (b.mem.mem, { pc := pc', scanStart := (b.thread l).scanStart }))
    (hstored : stored setup.path pc pc' b.mem.sChunkId = b.mem.sChunkId)
    (hends : ends setup.path pc pc' = false) :
    ∃ b', Leads setup l b b' (.searching pc') ∧ b'.mem = b.mem := by
  rcases exists_search setup hpc hy with ⟨b', hlead, hmem⟩
  dsimp only at hlead hmem
  rw [hends] at hlead
  rw [hstored] at hmem
  exact ⟨b', hlead, hmem⟩

/-- A window in which no chunk can be claimed is gone through to its end. -/
theorem exists_scanned {origin : Nat} : ∀ k i (b : Cta n), i + k = setup.win →
    (∀ c, b.mem.arrived c = 0 ∨ b.mem.mem.localDoneFlag c ≠ 1) →
    (b.thread l).pc = .searching (.scanning origin i) →
    ∃ b', Leads setup l b b' (.searching (.scanning origin setup.win)) ∧ b'.mem = b.mem := by
  -- Induction on what is left of the window.
  intro k
  induction k with
  | zero =>
      intro i b hik _ hpc
      obtain rfl : i = setup.win := hik
      exact ⟨b, ⟨reaches_refl _ _ b, hpc, rfl, fun _ _ => rfl⟩, rfl⟩
  | succ k ih =>
      intro i b hik hnone hpc
      have hlt : i < setup.win := by omega
      -- To look at a chunk stores nothing, and does not end the search.
      have hkeep : ∀ pc pc' old, pc ≠ .top → pc' = .scanning origin (i + 1) ∨
          pc' = .arrivedSeen origin i → stored setup.path pc pc' old = old ∧
            ends setup.path pc pc' = false := by
        rintro pc pc' old hpc (rfl | rfl)
        · exact ⟨if_neg fun h => hpc h.2, rfl⟩
        · exact ⟨if_neg fun h => hpc h.2, rfl⟩
      have hnext : ∃ b', Leads setup l b b' (.searching (.scanning origin (i + 1))) ∧
          b'.mem = b.mem := by
        -- Either the chunk has not arrived, or it is not done here.
        by_cases harr : b.mem.arrived (setup.chunkAt origin i) = 0
        · have hk := hkeep (.scanning origin i) _ b.mem.sChunkId
            (by simp only [ne_eq, reduceCtorEq, not_false_eq_true]) (Or.inl rfl)
          exact exists_look hpc (by simp only [reduceStep, if_pos hlt, if_pos harr]) hk.1 hk.2
        · have hk := hkeep (.scanning origin i) _ b.mem.sChunkId
            (by simp only [ne_eq, reduceCtorEq, not_false_eq_true]) (Or.inr rfl)
          rcases exists_look hpc (by simp only [reduceStep, if_pos hlt, if_neg harr]) hk.1 hk.2 with
            ⟨b1, hlead1, hmem1⟩
          have hflag : b1.mem.mem.localDoneFlag (setup.chunkAt origin i) ≠ 1 := by
            rw [hmem1]
            exact (hnone _).resolve_left harr
          have hk' := hkeep (.arrivedSeen origin i) _ b1.mem.sChunkId
            (by simp only [ne_eq, reduceCtorEq, not_false_eq_true]) (Or.inl rfl)
          rcases exists_look hlead1.pc_eq (by simp only [reduceStep, if_pos hflag]) hk'.1 hk'.2 with
            ⟨b2, hlead2, hmem2⟩
          exact ⟨b2, hlead1.trans hlead2, hmem2.trans hmem1⟩
      rcases hnext with ⟨b1, hlead1, hmem1⟩
      rcases ih (i + 1) b1 (by omega) (hmem1 ▸ hnone) hlead1.pc_eq with ⟨b2, hlead2, hmem2⟩
      exact ⟨b2, hlead1.trans hlead2, hmem2.trans hmem1⟩

/-- A search in which no chunk can be claimed finds none. -/
theorem exists_missed (hpath : setup.path ≠ .recvReadyQueue)
    (hnone : ∀ c, b.mem.arrived c = 0 ∨ b.mem.mem.localDoneFlag c ≠ 1)
    (hpc : (b.thread l).pc = .searching .top) :
    ∃ b', Leads setup l b b'
        (if setup.path = .scan then .waiting .first else .searching .testing) ∧
      b'.mem.arrived = b.mem.arrived ∧ b'.mem.sChunkId = -1 ∧
      b'.mem.mem.localDoneFlag = b.mem.mem.localDoneFlag ∧
      b'.mem.mem.publishedChunks = b.mem.mem.publishedChunks := by
  -- The search begins by storing -1, on both paths.
  have hbegin : ∃ b', ∃ origin, Leads setup l b b' (.searching (.scanning origin 0)) ∧
      b'.mem.arrived = b.mem.arrived ∧ b'.mem.sChunkId = -1 ∧
      b'.mem.mem.localDoneFlag = b.mem.mem.localDoneFlag ∧
      b'.mem.mem.publishedChunks = b.mem.mem.publishedChunks := by
    have hy : ∃ y, reduceStep setup b.mem.arrived b.mem.mem
          { pc := .top, scanStart := (b.thread l).scanStart } = some y ∧
        (∃ origin, y.2.pc = .scanning origin 0) ∧
        y.1.localDoneFlag = b.mem.mem.localDoneFlag ∧
        y.1.publishedChunks = b.mem.mem.publishedChunks := by
      cases hp : setup.path with
      | worksteal => exact ⟨_, by simp only [reduceStep, hp]; rfl, ⟨_, rfl⟩, rfl, rfl⟩
      | scan => exact ⟨_, by simp only [reduceStep, hp]; rfl, ⟨_, rfl⟩, rfl, rfl⟩
      | recvReadyQueue => exact absurd hp hpath
    rcases hy with ⟨y, hy, ⟨origin, horigin⟩, hflag, hpub⟩
    rcases exists_search setup hpc hy with ⟨b', hlead, hmem⟩
    rw [horigin] at hlead hmem
    have hstored : stored setup.path .top (.scanning origin 0) b.mem.sChunkId = -1 :=
      if_pos ⟨hpath, rfl⟩
    refine ⟨b', origin, hlead, ?_⟩
    rw [hmem]
    exact ⟨rfl, hstored, hflag, hpub⟩
  rcases hbegin with ⟨b1, origin, hlead1, harr1, hs1, hflag1, hpub1⟩
  rcases exists_scanned setup.win 0 b1 (Nat.zero_add _) (by rw [harr1, hflag1]; exact hnone)
    hlead1.pc_eq with ⟨b2, hlead2, hmem2⟩
  -- At the end of the window it has found nothing.
  rcases exists_search setup hlead2.pc_eq
    (by simp only [reduceStep, if_neg (Nat.lt_irrefl setup.win)]; rfl) with ⟨b3, hlead3, hmem3⟩
  dsimp only at hlead3 hmem3
  have hstored : stored setup.path (.scanning origin setup.win) .testing b2.mem.sChunkId =
      b2.mem.sChunkId :=
    if_neg fun h => absurd h.2 (by simp only [reduceCtorEq, not_false_eq_true])
  refine ⟨b3, ?_, ?_⟩
  · have hends : ends setup.path (.scanning origin setup.win) .testing =
        decide (setup.path = .scan) := rfl
    simp only [hends, decide_eq_true_eq] at hlead3
    exact hlead1.trans (hlead2.trans hlead3)
  · rw [hmem3, hstored, hmem2]
    exact ⟨harr1, hs1, hflag1, hpub1⟩

/-- So the leader comes to the barrier with -1, or, where it is the one to see that all chunks are
    published, with -2. -/
theorem exists_fruitless (hpath : setup.path ≠ .recvReadyQueue)
    (hnone : ∀ c, b.mem.arrived c = 0 ∨ b.mem.mem.localDoneFlag c ≠ 1)
    (hpc : (b.thread l).pc = .searching .top) :
    ∃ b', Leads setup l b b' (.waiting .first) ∧ b'.mem.arrived = b.mem.arrived ∧
      b'.mem.sChunkId = (if setup.path ≠ .scan ∧ setup.totalChunks ≤ b.mem.mem.publishedChunks
        then -2 else -1) ∧
      b'.mem.mem.localDoneFlag = b.mem.mem.localDoneFlag ∧
      b'.mem.mem.publishedChunks = b.mem.mem.publishedChunks := by
  rcases exists_missed hpath hnone hpc with ⟨b1, hlead1, harr1, hs1, hflag1, hpub1⟩
  by_cases hscan : setup.path = .scan
  · -- On this path the search is over, with the -1 that it stored.
    rw [if_pos hscan] at hlead1
    refine ⟨b1, hlead1, harr1, ?_, hflag1, hpub1⟩
    rw [hs1, if_neg fun h => h.1 hscan]
  · rw [if_neg hscan] at hlead1
    -- On the other one the leader looks whether all chunks are published.
    by_cases hall : setup.totalChunks ≤ b.mem.mem.publishedChunks
    · rcases exists_search setup hlead1.pc_eq (y := (b1.mem.mem,
        { pc := .returned, scanStart := (b1.thread l).scanStart }))
        (by simp only [reduceStep, hpub1, if_pos hall]) with ⟨b2, hlead2, hmem2⟩
      refine ⟨b2, hlead1.trans hlead2, ?_⟩
      rw [hmem2, if_pos ⟨hscan, hall⟩]
      exact ⟨harr1, rfl, hflag1, hpub1⟩
    · rcases exists_search setup hlead1.pc_eq (y := (b1.mem.mem,
        { pc := .top, scanStart := (b1.thread l).scanStart }))
        (by simp only [reduceStep, hpub1, if_neg hall]) with ⟨b2, hlead2, hmem2⟩
      refine ⟨b2, hlead1.trans hlead2, ?_⟩
      have hstored : stored setup.path .testing .top b1.mem.sChunkId = b1.mem.sChunkId :=
        if_neg fun h => hpath h.1
      rw [hmem2, if_neg fun h => hall h.2]
      exact ⟨harr1, hstored.trans hs1, hflag1, hpub1⟩

variable (setup) in
/-- The threads go on behind the first barrier. -/
theorem exists_release (l : Fin n) (h : ∀ i, (b.thread i).pc = .waiting .first) :
    ∃ b', Reaches (threads setup n).step always b b' ∧ b'.mem = b.mem ∧
      ∀ i, (b'.thread i).pc = (if setup.path = .scan then .retryTest else .exitTest) ∧
        (b'.thread i).decided = (b.thread i).decided := by
  have hsite : ∀ i, (threads setup n).site (b.thread i) = some .first := by
    intro i
    simp only [threads, h i]
  have hmet : (threads setup n).Met b :=
    ⟨fun i => Or.inl (by rw [hsite]; rfl), l, by rw [hsite]; rfl⟩
  refine ⟨{ b with thread := fun i => (threads setup n).resumed i (b.thread i) },
    reaches_step (reaches_refl _ _ b) .release trivial (if_pos hmet), rfl, fun i => ?_⟩
  dsimp only
  rw [resumed_of_waiting (h i)]
  exact ⟨rfl, rfl⟩

/-- Another CTA publishes a chunk. -/
theorem exists_published (setup : Setup) (b : Cta n) :
    ∃ b', Reaches (threads setup n).step always b b' ∧ b'.thread = b.thread ∧
      b'.mem = { b.mem with mem := { b.mem.mem with
        publishedChunks := b.mem.mem.publishedChunks + 1 } } :=
  ⟨{ b with mem := { b.mem with mem := { b.mem.mem with
      publishedChunks := b.mem.mem.publishedChunks + 1 } } },
    reaches_step (reaches_refl _ _ b) (.env (b.mem.arrived, { b.mem.mem with
      publishedChunks := b.mem.mem.publishedChunks + 1 })) trivial
        (by simp only [Threads.step, threads, if_pos (Nat.le_succ _), Option.map_some]), rfl, rfl⟩

variable {m : Shared} (scanStart : Nat)

/-- The threads at the head of the loop. -/
theorem init_thread (hl : l.val = 0) (i : Fin n) :
    ((init n m scanStart).thread i).decided = [] ∧
      ((init n m scanStart).thread i).pc = if i = l then .searching .top else .waiting .first := by
  refine ⟨head_decided, ?_⟩
  by_cases hi : i = l
  · rw [if_pos hi]
    simp only [init, Thread.head, if_pos (hi ▸ hl)]
  · have hne : ¬ i.val = 0 := fun h => hi (Fin.ext (h.trans hl.symm))
    rw [if_neg hi]
    simp only [init, Thread.head, if_neg hne]
    rfl

/-- The first round of a CTA that comes when no chunk can be claimed any more, and one is not yet
    published. -/
theorem exists_first_round (hpath : setup.path ≠ .recvReadyQueue) (hl : l.val = 0)
    (hnone : ∀ c, m.arrived c = 0 ∨ m.mem.localDoneFlag c ≠ 1)
    (hpub : m.mem.publishedChunks + 1 = setup.totalChunks) :
    ∃ b, Reaches (threads setup n).step always (init n m scanStart) b ∧
      b.mem.arrived = m.arrived ∧ b.mem.sChunkId = -1 ∧
      b.mem.mem.localDoneFlag = m.mem.localDoneFlag ∧
      b.mem.mem.publishedChunks = m.mem.publishedChunks ∧
      ∀ i, (b.thread i).pc = (if setup.path = .scan then .retryTest else .exitTest) ∧
        (b.thread i).decided = [] := by
  have hinit := init_thread (m := m) scanStart hl
  rcases exists_fruitless hpath hnone ((hinit l).2.trans (if_pos rfl)) with
    ⟨b1, hlead, harr, hs, hflag, hpub1⟩
  -- The others have been waiting since they began.
  have hwaits : ∀ i, (b1.thread i).pc = .waiting .first := by
    intro i
    by_cases hi : i = l
    · rw [hi]
      exact hlead.pc_eq
    · rw [hlead.others i hi, (hinit i).2, if_neg hi]
  have hdecided : ∀ i, (b1.thread i).decided = [] := by
    intro i
    by_cases hi : i = l
    · rw [hi, hlead.decided, (hinit l).1]
    · rw [hlead.others i hi, (hinit i).1]
  -- One chunk is not published, so it is -1.
  have hs' : b1.mem.sChunkId = -1 := by
    refine hs.trans (if_neg fun h => ?_)
    have hall : setup.totalChunks ≤ m.mem.publishedChunks := h.2
    omega
  rcases exists_release setup l hwaits with ⟨b2, hb2, hmem, hat⟩
  refine ⟨b2, reaches_trans hlead.reaches hb2, ?_⟩
  rw [hmem]
  exact ⟨harr, hs', hflag, hpub1, fun i => ⟨(hat i).1, (hat i).2.trans (hdecided i)⟩⟩

/-- In the scan path the last chunk is published between the reads of two threads. -/
theorem exists_parted_scan (hpath : setup.path = .scan) (hl : l.val = 0) (hj : j ≠ l)
    (hnone : ∀ c, m.arrived c = 0 ∨ m.mem.localDoneFlag c ≠ 1)
    (hpub : m.mem.publishedChunks + 1 = setup.totalChunks) :
    ∃ b, Reaches (threads setup n).step always (init n m scanStart) b ∧ ¬ Uniform b := by
  rcases exists_first_round scanStart (by rw [hpath]; decide) hl hnone hpub with
    ⟨b1, hb1, -, hs1, -, hpub1, hat⟩
  simp only [if_pos hpath] at hat
  have hneg : b1.mem.sChunkId < 0 := by
    rw [hs1]
    decide
  have hown : verdict.own setup b1.mem = .retry := if_neg (by omega)
  have hv : ∀ i, verdict setup b1.mem (b1.thread i).pc = some .retry := by
    intro i
    rw [(hat i).1]
    simp only [verdict, verdict.verdictRetry, if_pos hneg, if_pos hpath, hown]
  -- The leader tries again, and then the last chunk is published.
  rcases exists_decided _ b1 (Nat.lt_succ_self _) (hv l) with ⟨b2, hb2, hmem2, hl2, hothers2⟩
  rcases exists_published setup b2 with ⟨b3, hb3, hthread3, hmem3⟩
  have hown3 : verdict.own setup b3.mem = .exit := by
    refine if_pos ?_
    rw [hmem3, hmem2]
    dsimp only
    omega
  have hpc3 : (b3.thread j).pc = (b1.thread j).pc := by rw [hthread3, hothers2 j hj]
  have hv3 : verdict setup b3.mem (b3.thread j).pc = some .exit := by
    rw [hpc3]
    exact verdict_published hpath (by rw [hmem3, hmem2]) hown hown3 (hv j)
  have hl3 : (b3.thread l).decided = [] ++ [Decision.retry] := by rw [hthread3, hl2, (hat l).2]
  have hj3 : (b3.thread j).decided = [] := by rw [hthread3, hothers2 j hj, (hat j).2]
  rcases exists_not_uniform hl3 hj3 hv3 (by decide) with ⟨b4, hb4, hnot⟩
  exact ⟨b4, reaches_trans hb1 (reaches_trans hb2 (reaches_trans hb3 hb4)), hnot⟩

/-- In the work-stealing path the leader is a round ahead of a thread. -/
theorem exists_parted_worksteal (hpath : setup.path = .worksteal) (hl : l.val = 0) (hj : j ≠ l)
    (hnone : ∀ c, m.arrived c = 0 ∨ m.mem.localDoneFlag c ≠ 1)
    (hpub : m.mem.publishedChunks + 1 = setup.totalChunks) :
    ∃ b, Reaches (threads setup n).step always (init n m scanStart) b ∧ ¬ Uniform b := by
  have hsteal : setup.path ≠ .recvReadyQueue := by
    rw [hpath]
    decide
  have hscan : ¬ setup.path = .scan := by
    rw [hpath]
    decide
  rcases exists_first_round scanStart hsteal hl hnone hpub with
    ⟨b1, hb1, harr1, hs1, hflag1, hpub1, hat⟩
  simp only [if_neg hscan] at hat
  -- The leader tries again, which brings it back to its search without a barrier.
  have hexit : act setup l b1.mem (b1.thread l) =
      some (b1.mem, { b1.thread l with pc := .retryTest }) := by
    simp only [act, (hat l).1, hs1]
    rfl
  rcases exists_block_act hexit with ⟨b2, hb2, hmem2, hl2, hothers2⟩
  have hretry : act setup l b2.mem (b2.thread l) =
      some (b2.mem, { (b1.thread l).decide .retry with pc := .searching .top }) := by
    simp only [act, hl2, hmem2, hs1, retryStep, hpath, Thread.head, if_pos hl]
    rfl
  rcases exists_block_act hretry with ⟨b3, hb3, hmem3, hl3, hothers3⟩
  rcases exists_published setup b3 with ⟨b4, hb4, hthread4, hmem4⟩
  have hmem : b4.mem = { b1.mem with mem := { b1.mem.mem with
      publishedChunks := b1.mem.mem.publishedChunks + 1 } } := by rw [hmem4, hmem3, hmem2]
  -- With the last chunk published it comes to the barrier with -2.
  have hnone4 : ∀ c, b4.mem.arrived c = 0 ∨ b4.mem.mem.localDoneFlag c ≠ 1 := by
    rw [hmem]
    dsimp only
    rw [harr1, hflag1]
    exact hnone
  have hpc4 : (b4.thread l).pc = .searching .top := by rw [hthread4, hl3]
  rcases exists_fruitless hsteal hnone4 hpc4 with ⟨b5, hlead5, -, hs5, -, -⟩
  have hall : setup.totalChunks ≤ b4.mem.mem.publishedChunks := by
    rw [hmem]
    dsimp only
    omega
  rw [if_pos ⟨hscan, hall⟩] at hs5
  have hthread : b5.thread j = b1.thread j := by
    rw [hlead5.others j hj, hthread4, hothers3 j hj, hothers2 j hj]
  have hv5 : verdict setup b5.mem (b5.thread j).pc = some .exit := by
    rw [hthread, (hat j).1]
    simp only [verdict, if_neg hscan, if_pos hs5]
  have hl5 : (b5.thread l).decided = [] ++ [Decision.retry] := by
    rw [hlead5.decided, hthread4, hl3]
    exact congrArg (· ++ [Decision.retry]) (hat l).2
  have hj5 : (b5.thread j).decided = [] := by rw [hthread, (hat j).2]
  rcases exists_not_uniform hl5 hj5 hv5 (by decide) with ⟨b6, hb6, hnot⟩
  exact ⟨b6, reaches_trans hb1 (reaches_trans hb2 (reaches_trans hb3 (reaches_trans hb4
    (reaches_trans hlead5.reaches hb6)))), hnot⟩

end Parting

end ReduceThreads

end GemmAr

end MKernel
