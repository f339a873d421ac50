import Mathlib.Data.Fintype.Fin
import MKernel.Core.MachineInt
import MKernel.Core.SmallNumbers
import MKernel.Core.System
import MKernel.Core.Turns

/-!
# The Counter Barriers of `ag_gemm`

The two places in `ag_gemm` where the CTAs of a GPU wait for each other: the gate
after phase 1, which the intra-node comm CTAs go through, and the sync of the whole
grid before the reset.

Each has a counter of its own that only grows, over all launches. Thread 0 of a CTA
adds one to it, and from the number it gets it works out the next multiple of the
number of CTAs. It goes on when the counter is there. The CTAs are taken to run their
launches one after the other, but with no order between the launches of different
CTAs, so a fast one may already arrive for the next launch. The counters are `int`,
and all arrivals together fit into one.

## Main definitions

* `Site`: The gate or the grid sync.
* `Setup`, `Setup.program`: The launches, and the barriers a CTA comes to.
* `World`, `step`: The counters, and the CTAs.
* `World.left`, `World.entered`: The rounds a CTA has left, and those it has entered.
* `Inv`: What every step keeps.

## Theorems

* `inv_step`: What every step keeps.
* `gathered`: No CTA leaves early, and none waits for nothing.
-/

namespace MKernel

namespace AgGemm

namespace CounterBarriers

open MKernel.Core

/-- The two places where CTAs wait for each other. -/
inductive Site where
  /-- The gate after phase 1, with the slot `{0, 1023, 1021}`. -/
  | gate
  /-- `grid_sync_at_epoch`, with the slot `{0, 1023, 1022}`. -/
  | gridSync
deriving DecidableEq

/-- The launches of the kernel on a GPU. -/
structure Setup where
  gridDim : Nat
  numIntraComm : Nat
  launches : Nat
  debugSkipPhase1Gate : Bool
  debugSkipReset : Bool
  numIntraComm_le : numIntraComm ≤ gridDim
  fits : gridDim * launches < 2 ^ 31

namespace Setup

variable (setup : Setup)

/-- The number of CTAs that a site counts with. -/
def count : Site → Nat
  | .gate => setup.numIntraComm
  | .gridSync => setup.gridDim

/-- The CTAs that come to a site. -/
def parties : Site → Finset (Fin setup.gridDim)
  | .gate => Finset.univ.filter fun cta => cta.val < setup.numIntraComm
  | .gridSync => Finset.univ

/-- `fused_kernel`: the sites a CTA comes to in a launch. -/
def fusedKernel (cta : Fin setup.gridDim) : List Site :=
  (if cta.val < setup.numIntraComm ∧ setup.debugSkipPhase1Gate = false then [Site.gate] else []) ++
    if setup.debugSkipReset then [] else [Site.gridSync]

/-- The sites a CTA comes to in all launches. -/
def program (cta : Fin setup.gridDim) : List Site :=
  (List.replicate setup.launches (setup.fusedKernel cta)).flatten

theorem card_parties (s : Site) : (setup.parties s).card = setup.count s := by
  cases s with
  | gate => simp [parties, count, Fin.card_filter_val_lt, setup.numIntraComm_le]
  | gridSync => simp [parties, count]

theorem count_le (s : Site) : setup.count s ≤ setup.gridDim := by
  cases s with
  | gate => exact setup.numIntraComm_le
  | gridSync => exact le_rfl

/-- A CTA comes to a site once a launch at most. -/
theorem count_program_le (cta : Fin setup.gridDim) (s : Site) :
    (setup.program cta).count s ≤ setup.launches := by
  have hone : (setup.fusedKernel cta).count s ≤ 1 := by
    unfold fusedKernel
    cases s <;> split <;> split <;> decide
  unfold program
  rw [List.count_flatten, List.map_replicate, List.sum_replicate, nsmul_eq_mul, Nat.cast_id]
  exact le_trans (Nat.mul_le_mul_left _ hone) (Nat.mul_one _).le

/-- Only its own CTAs come to a site. -/
theorem mem_parties {cta : Fin setup.gridDim} {s : Site} (h : s ∈ setup.program cta) :
    cta ∈ setup.parties s := by
  unfold program fusedKernel at h
  rw [List.mem_flatten] at h
  obtain ⟨l, hl, hs⟩ := h
  rw [List.eq_of_mem_replicate hl] at hs
  cases s with
  | gridSync => exact Finset.mem_univ cta
  | gate =>
    refine Finset.mem_filter.mpr ⟨Finset.mem_univ cta, ?_⟩
    by_contra hnot
    rw [if_neg (fun hand => hnot hand.1), List.nil_append] at hs
    split at hs
    · exact absurd hs List.not_mem_nil
    · exact absurd (List.mem_singleton.mp hs) (by decide)

end Setup

/-! ## The CTAs -/

variable {setup : Setup}

/-- The counters, and for each CTA the sites still to come and, while it waits at the
    first of these, its target. -/
structure World (setup : Setup) where
  counter : Site → Int
  rest : Fin setup.gridDim → List Site
  target : Fin setup.gridDim → Option Int

/-- The barrier buffer is zeroed, and no CTA has begun. -/
def init (setup : Setup) : World setup where
  counter := fun _ => 0
  rest := setup.program
  target := fun _ => none

/-- What thread 0 of a CTA does next. -/
inductive Action (setup : Setup) where
  /-- It adds one to the counter, and computes its target. -/
  | arrive (cta : Fin setup.gridDim)
  /-- It finds that the counter is there. -/
  | leave (cta : Fin setup.gridDim)

/-- `((my_arrival / n) + 1) * n` -/
def nextTarget (myArrival n : Int) : Int := int32 (int32 (myArrival.tdiv n + 1) * n)

/-- One step. A poll that finds the counter below the target does nothing. -/
def step (w : World setup) : Action setup → Option (World setup)
  | .arrive cta =>
      match w.rest cta, w.target cta with
      | s :: _, none => some { w with
          counter := Function.update w.counter s (int32 (w.counter s + 1))
          target := Function.update w.target cta
            (some (nextTarget (w.counter s) (setup.count s))) }
      | _, _ => none
  | .leave cta =>
      match w.rest cta, w.target cta with
      | s :: rest, some target =>
          if w.counter s < target then none
          else some { w with
            rest := Function.update w.rest cta rest
            target := Function.update w.target cta none }
      | _, _ => none

namespace World

variable (w : World setup)

/-- The rounds of a site that a CTA has left. -/
def left (s : Site) (cta : Fin setup.gridDim) : Nat :=
  (setup.program cta).count s - (w.rest cta).count s

/-- A CTA waits at a site. -/
def Waits (s : Site) (cta : Fin setup.gridDim) : Prop :=
  (w.rest cta).head? = some s ∧ (w.target cta).isSome

instance (s : Site) (cta : Fin setup.gridDim) : Decidable (w.Waits s cta) :=
  inferInstanceAs (Decidable (_ ∧ _))

/-- The rounds of a site that a CTA has entered. -/
def entered (s : Site) (cta : Fin setup.gridDim) : Nat :=
  w.left s cta + if w.Waits s cta then 1 else 0

end World

/-! ## What a step does to a CTA -/

section Steps

variable {w w' : World setup} {cta : Fin setup.gridDim} {site : Site} {rest : List Site}

/-- What there is of a CTA after it has arrived. -/
theorem arrive_cases (h : step w (.arrive cta) = some w') :
    ∃ site rest, w.rest cta = site :: rest ∧ w.target cta = none ∧
      w' = { w with
        counter := Function.update w.counter site (int32 (w.counter site + 1))
        target := Function.update w.target cta
          (some (nextTarget (w.counter site) (setup.count site))) } := by
  simp only [step] at h
  split at h
  · rename_i site rest hrest htarget
    exact ⟨site, rest, hrest, htarget, (Option.some.inj h).symm⟩
  · exact absurd h (by simp only [reduceCtorEq, not_false_eq_true])

/-- And after it has left. -/
theorem leave_cases (h : step w (.leave cta) = some w') :
    ∃ site rest target, w.rest cta = site :: rest ∧ w.target cta = some target ∧
      target ≤ w.counter site ∧
      w' = { w with
        rest := Function.update w.rest cta rest
        target := Function.update w.target cta none } := by
  simp only [step] at h
  split at h
  · rename_i site rest target hrest htarget
    by_cases hlt : w.counter site < target
    · rw [if_pos hlt] at h
      exact absurd h (by simp only [reduceCtorEq, not_false_eq_true])
    · rw [if_neg hlt] at h
      exact ⟨site, rest, target, hrest, htarget, not_lt.mp hlt, (Option.some.inj h).symm⟩
  · exact absurd h (by simp only [reduceCtorEq, not_false_eq_true])

/-- What a CTA has entered is told by what it has itself. -/
theorem entered_congr {s : Site} {other : Fin setup.gridDim} (hrest : w'.rest other = w.rest other)
    (htarget : w'.target other = w.target other) :
    w'.entered s other = w.entered s other ∧ (w'.Waits s other ↔ w.Waits s other) := by
  have hwaits : w'.Waits s other ↔ w.Waits s other := by
    unfold World.Waits
    rw [hrest, htarget]
  refine ⟨?_, hwaits⟩
  unfold World.entered World.left
  simp only [hrest, hwaits]

theorem waits_iff (hrest : w.rest cta = site :: rest) (s : Site) :
    w.Waits s cta ↔ site = s ∧ (w.target cta).isSome := by
  unfold World.Waits
  rw [hrest, List.head?_cons, Option.some.injEq]

theorem not_waits (hnone : w.target cta = none) (s : Site) : ¬ w.Waits s cta := by
  intro hw
  rw [World.Waits, hnone] at hw
  exact absurd hw.2 Bool.false_ne_true

/-- Who arrives at a site has entered one more round of it, and waits there. -/
theorem entered_arrive (hrest : w.rest cta = site :: rest) (hnone : w.target cta = none)
    {target : Int} (hr : w'.rest = w.rest)
    (ht : w'.target = Function.update w.target cta (some target)) (s : Site) :
    w'.entered s = (if s = site then Function.update (w.entered s) cta (w.entered s cta + 1)
      else w.entered s) ∧
    ∀ other, w'.Waits s other ↔ w.Waits s other ∨ other = cta ∧ s = site := by
  -- Nothing changes for the other CTAs.
  have hother (other : Fin setup.gridDim) (hne : other ≠ cta) :
      w'.entered s other = w.entered s other ∧ (w'.Waits s other ↔ w.Waits s other) :=
    entered_congr (by rw [hr]) (by rw [ht, Function.update_of_ne hne])
  have hcta : w'.Waits s cta ↔ s = site := by
    rw [waits_iff (by rw [hr, hrest]), ht, Function.update_self, Option.isSome_some, eq_comm]
    exact and_iff_left rfl
  refine ⟨?_, fun other => ?_⟩
  · funext other
    by_cases hne : other = cta
    · subst hne
      -- The CTA has left no round, so what it has entered is one more only by its waiting.
      have hleft : w'.left s other = w.left s other := by
        rw [World.left, hr, World.left]
      rw [World.entered, hleft]
      by_cases hs : s = site
      · rw [if_pos hs, if_pos (hcta.mpr hs), Function.update_self, World.entered,
          if_neg (not_waits hnone s)]
      · rw [if_neg hs, if_neg (fun hw => hs (hcta.mp hw)), World.entered,
          if_neg (not_waits hnone s)]
    · rw [(hother other hne).1]
      split
      · rw [Function.update_of_ne hne]
      · rfl
  · by_cases hne : other = cta
    · subst hne
      rw [hcta]
      constructor
      · intro hs
        exact Or.inr ⟨rfl, hs⟩
      · rintro (hw | ⟨-, hs⟩)
        · exact absurd hw (not_waits hnone s)
        · exact hs
    · rw [(hother other hne).2]
      constructor
      · exact Or.inl
      · rintro (hw | ⟨heq, -⟩)
        · exact hw
        · exact absurd heq hne

/-- Who leaves has entered as many rounds as before, and does not wait. -/
theorem entered_leave (hrest : w.rest cta = site :: rest) {target : Int}
    (hsome : w.target cta = some target) (hsuffix : w.rest cta <:+ setup.program cta)
    (hr : w'.rest = Function.update w.rest cta rest)
    (ht : w'.target = Function.update w.target cta none) (s : Site) :
    w'.entered s = w.entered s ∧ ∀ other, w'.Waits s other ↔ w.Waits s other ∧ other ≠ cta := by
  have hother (other : Fin setup.gridDim) (hne : other ≠ cta) :
      w'.entered s other = w.entered s other ∧ (w'.Waits s other ↔ w.Waits s other) :=
    entered_congr (by rw [hr, Function.update_of_ne hne]) (by rw [ht, Function.update_of_ne hne])
  have hcta : ¬ w'.Waits s cta := not_waits (by rw [ht, Function.update_self]) s
  have hwaits : w.Waits s cta ↔ site = s := by
    rw [waits_iff hrest, hsome, Option.isSome_some]
    exact and_iff_left rfl
  refine ⟨?_, fun other => ?_⟩
  · funext other
    by_cases hne : other = cta
    · subst hne
      -- The round that it leaves is the first of what was to come, so at least one was left.
      have hcount := hsuffix.sublist.count_le s
      rw [World.entered, World.entered, if_neg hcta, World.left, World.left, hr,
        Function.update_self, hrest]
      rw [hrest] at hcount
      by_cases hs : site = s
      · subst hs
        -- It has left one more, and waits no more.
        rw [if_pos (hwaits.mpr rfl)]
        rw [List.count_cons_self] at hcount ⊢
        omega
      · rw [if_neg (fun hw => hs (hwaits.mp hw)), List.count_cons_of_ne hs]
    · exact (hother other hne).1
  · by_cases hne : other = cta
    · subst hne
      exact iff_of_false hcta fun hand => hand.2 rfl
    · rw [(hother other hne).2]
      exact (and_iff_left hne).symm

end Steps

/-! ## What every step keeps -/

/-- What every step keeps. -/
structure Inv (w : World setup) : Prop where
  suffix : ∀ cta, w.rest cta <:+ setup.program cta
  counter : ∀ s, w.counter s = (∑ cta ∈ setup.parties s, w.entered s cta : Nat)
  target : ∀ s cta target, w.Waits s cta → w.target cta = some target →
    target = (setup.count s * w.entered s cta : Nat)
  turns : ∀ s, Turns (setup.parties s) (w.entered s) (w.Waits s)

section Inv

variable {w w' : World setup} {cta : Fin setup.gridDim} {site : Site} {rest : List Site}

theorem Inv.mem_parties (h : Inv w) (hrest : w.rest cta = site :: rest) :
    cta ∈ setup.parties site :=
  setup.mem_parties ((h.suffix cta).subset (hrest ▸ List.mem_cons_self))

/-- No CTA enters more rounds than there are. -/
theorem Inv.entered_le (h : Inv w) (s : Site) (cta : Fin setup.gridDim) :
    w.entered s cta ≤ (setup.program cta).count s := by
  have hcount := (h.suffix cta).sublist.count_le s
  unfold World.entered World.left
  split
  · rename_i hwaits
    obtain ⟨rest, hrest⟩ := List.head?_eq_some_iff.mp hwaits.1
    have hpos : 0 < (w.rest cta).count s := by
      rw [hrest, List.count_cons_self]
      exact Nat.succ_pos _
    omega
  · omega

/-- What all CTAs enter fits into the counter. -/
theorem sum_lt (s : Site) {k : Fin setup.gridDim → Nat} (hk : ∀ cta, k cta ≤ setup.launches) :
    ∑ cta ∈ setup.parties s, k cta < 2 ^ 31 := by
  have hsum := Finset.sum_le_card_nsmul (setup.parties s) k setup.launches fun cta _ => hk cta
  rw [setup.card_parties, nsmul_eq_mul, Nat.cast_id] at hsum
  exact lt_of_le_of_lt (hsum.trans (Nat.mul_le_mul_right _ (setup.count_le s))) setup.fits

/-- A CTA that is to arrive has a round to go. -/
theorem Inv.entered_lt (h : Inv w) (hrest : w.rest cta = site :: rest)
    (hnone : w.target cta = none) : w.entered site cta + 1 ≤ setup.launches := by
  have hcount := (h.suffix cta).sublist.count_le site
  have hle := setup.count_program_le cta site
  have hwaits : ¬ w.Waits site cta := not_waits hnone site
  rw [World.entered, if_neg hwaits, World.left]
  rw [hrest, List.count_cons_self] at hcount ⊢
  omega

/-- From the counter it gets, a CTA works out the end of its own round. -/
theorem Inv.nextTarget_eq (h : Inv w) (hrest : w.rest cta = site :: rest)
    (hnone : w.target cta = none) :
    nextTarget (w.counter site) (setup.count site) =
      (setup.count site * (w.entered site cta + 1) : Nat) := by
  have hwaits : ¬ w.Waits site cta := not_waits hnone site
  have hdiv := (h.turns site).sum_div (h.mem_parties hrest) hwaits
  have hround := h.entered_lt hrest hnone
  have hfits := setup.fits
  have hmul : setup.count site * (w.entered site cta + 1) ≤ setup.gridDim * setup.launches :=
    Nat.mul_le_mul (setup.count_le site) hround
  have hgrid : setup.launches < 2 ^ 31 := by
    have hpos : 0 < setup.gridDim := cta.pos
    have hle := Nat.le_mul_of_pos_left setup.launches hpos
    omega
  rw [setup.card_parties] at hdiv
  rw [nextTarget, h.counter, Int.tdiv_eq_ediv_of_nonneg (Int.natCast_nonneg _),
    ← Int.natCast_ediv, hdiv, int32_eq (x := (w.entered site cta : Int) + 1) (by omega) (by omega)]
  have hcast : ((w.entered site cta : Int) + 1) * setup.count site =
      (setup.count site * (w.entered site cta + 1) : Nat) := by
    rw [Nat.mul_comm, Int.natCast_mul]
    rfl
  rw [hcast, int32_eq (by omega) (by omega)]

theorem inv_init (setup : Setup) : Inv (init setup) where
  suffix _ := List.suffix_rfl
  counter s := by
    rw [Finset.sum_eq_zero fun cta _ => ?_]
    · rfl
    · rw [World.entered, if_neg (not_waits rfl s), World.left, init, Nat.sub_self, Nat.add_zero]
  target _ _ _ h := absurd h (not_waits rfl _)
  turns s := Turns.start fun cta _ => by
    rw [World.entered, if_neg (not_waits rfl s), World.left, init, Nat.sub_self]

theorem inv_arrive (h : Inv w) (hrest : w.rest cta = site :: rest) (hnone : w.target cta = none)
    (hw : w' = { w with
      counter := Function.update w.counter site (int32 (w.counter site + 1))
      target := Function.update w.target cta
        (some (nextTarget (w.counter site) (setup.count site))) }) : Inv w' := by
  have hr : w'.rest = w.rest := by rw [hw]
  have ht : w'.target = Function.update w.target cta
      (some (nextTarget (w.counter site) (setup.count site))) := by rw [hw]
  have hc : w'.counter = Function.update w.counter site (int32 (w.counter site + 1)) := by rw [hw]
  have hmem := h.mem_parties hrest
  have hin := entered_arrive hrest hnone hr ht
  have hcame : w'.entered site = Function.update (w.entered site) cta (w.entered site cta + 1) := by
    rw [(hin site).1, if_pos rfl]
  have hsum := sum_came hmem hcame
  refine ⟨fun other => ?_, fun s => ?_, fun s other target hwaits htarget => ?_, fun s => ?_⟩
  · rw [hr]
    exact h.suffix other
  · by_cases hs : s = site
    · subst hs
      -- The sum stays below the range of `int`, since no CTA enters more rounds than its program
      -- has.
      have hlt : ∑ other ∈ setup.parties s, w'.entered s other < 2 ^ 31 := by
        refine sum_lt s fun other => ?_
        rw [hcame]
        by_cases hne : other = cta
        · subst hne
          rw [Function.update_self]
          exact h.entered_lt hrest hnone
        · rw [Function.update_of_ne hne]
          exact (h.entered_le s other).trans (setup.count_program_le other s)
      rw [hc, Function.update_self, h.counter, hsum]
      rw [hsum] at hlt
      rw [int32_eq (by omega) (by omega)]
      rfl
    · rw [hc, Function.update_of_ne hs, h.counter, (hin s).1, if_neg hs]
  · rcases ((hin s).2 other).mp hwaits with hold | ⟨rfl, rfl⟩
    · have hne : other ≠ cta := fun heq => not_waits hnone s (heq ▸ hold)
      rw [ht, Function.update_of_ne hne] at htarget
      rw [h.target s other target hold htarget, (hin s).1]
      split
      · rw [Function.update_of_ne hne]
      · rfl
    · rw [ht, Function.update_self, Option.some.injEq] at htarget
      -- The target is that of the round which the CTA enters.
      rw [← htarget, h.nextTarget_eq hrest hnone, hcame, Function.update_self]
  · by_cases hs : s = site
    · subst hs
      -- The first rule of turns: whoever comes was not in the round.
      refine (h.turns s).come hmem (not_waits hnone s) hcame fun other hout => ?_
      rw [(hin s).2] at hout
      push Not at hout
      exact ⟨fun heq => hout.2 heq rfl, hout.1⟩
    · -- The other sites are as before.
      refine ⟨?_, fun other ho hout => ?_⟩
      · rw [(hin s).1, if_neg hs]
        exact (h.turns s).close
      · rw [(hin s).2] at hout
        rw [(hin s).1, if_neg hs]
        exact (h.turns s).free other ho fun hw => hout (Or.inl hw)

theorem inv_leave (h : Inv w) (hrest : w.rest cta = site :: rest) {target : Int}
    (hsome : w.target cta = some target) (hle : target ≤ w.counter site)
    (hw : w' = { w with
      rest := Function.update w.rest cta rest
      target := Function.update w.target cta none }) : Inv w' := by
  have hr : w'.rest = Function.update w.rest cta rest := by rw [hw]
  have ht : w'.target = Function.update w.target cta none := by rw [hw]
  have hc : w'.counter = w.counter := by rw [hw]
  have hin := entered_leave hrest hsome (h.suffix cta) hr ht
  have hsuffix : rest <:+ setup.program cta :=
    (List.suffix_cons site rest).trans (hrest ▸ h.suffix cta)
  refine ⟨fun other => ?_, fun s => ?_, fun s other target hwaits htarget => ?_, fun s => ?_⟩
  · rw [hr]
    by_cases hne : other = cta
    · subst hne
      rw [Function.update_self]
      exact hsuffix
    · rw [Function.update_of_ne hne]
      exact h.suffix other
  · rw [hc, (hin s).1]
    exact h.counter s
  · obtain ⟨hold, hne⟩ := ((hin s).2 other).mp hwaits
    rw [ht, Function.update_of_ne hne] at htarget
    rw [(hin s).1]
    exact h.target s other target hold htarget
  · rw [(hin s).1]
    by_cases hs : s = site
    · subst hs
      have hwaits : w.Waits s cta :=
        (waits_iff hrest s).mpr ⟨rfl, by rw [hsome, Option.isSome_some]⟩
      have htarget := h.target s cta target hwaits hsome
      -- The counter is at the target, so all CTAs of the site have come.
      rw [htarget, h.counter] at hle
      refine (h.turns s).go (i := cta) ?_ fun other hout => ?_
      · rw [setup.card_parties]
        exact Int.ofNat_le.mp hle
      · rw [(hin s).2] at hout
        by_cases hne : other = cta
        · exact Or.inl hne
        · exact Or.inr fun hw => hout ⟨hw, hne⟩
    · refine ⟨(h.turns s).close,
        fun other ho hout => (h.turns s).free other ho fun hwait => hout ?_⟩
      -- The CTA waited at another site.
      refine ((hin s).2 other).mpr ⟨hwait, ?_⟩
      rintro rfl
      exact hs ((waits_iff hrest s).mp hwait).1.symm

theorem inv_step {a : Action setup} (h : Inv w) (hstep : step w a = some w') : Inv w' := by
  cases a with
  | arrive cta =>
    obtain ⟨site, rest, hrest, hnone, hw⟩ := arrive_cases hstep
    exact inv_arrive h hrest hnone hw
  | leave cta =>
    obtain ⟨site, rest, target, hrest, hsome, hle, hw⟩ := leave_cases hstep
    exact inv_leave h hrest hsome hle hw

end Inv

/-! ## The barriers -/

/-- In every run, a CTA that has left so many rounds of a site has left them when all CTAs of
    the site have entered them. And a CTA that waits in a round that all have entered can go
    on, whatever rounds the others have entered since. -/
theorem gathered {w : World setup} (h : Reaches step always (init setup) w) (s : Site)
    {cta : Fin setup.gridDim} (hcta : cta ∈ setup.parties s) :
    (∀ other ∈ setup.parties s, w.left s cta ≤ w.entered s other) ∧
      (w.Waits s cta → (∀ other ∈ setup.parties s, w.entered s cta ≤ w.entered s other) →
        ∃ w', step w (.leave cta) = some w') := by
  have hi : Inv w := invariant_of_reaches Inv (fun _ _ _ hi _ hstep => inv_step hi hstep) h
    (inv_init setup)
  refine ⟨?_, fun hwaits hall => ?_⟩
  · -- A CTA that waits has entered one round more than it has left, and all are close to it.
    by_cases hwaits : w.Waits s cta
    · intro other hother
      have hclose := (hi.turns s).close cta hcta other hother
      have hentered : w.entered s cta = w.left s cta + 1 := by
        rw [World.entered, if_pos hwaits]
      omega
    · -- One that does not wait has left what it entered, so that all have come for it.
      have hentered : w.entered s cta = w.left s cta := by
        rw [World.entered, if_neg hwaits, Nat.add_zero]
      rw [← hentered]
      exact ((hi.turns s).card_mul_le_iff _).mp ((hi.turns s).free cta hcta hwaits)
  · obtain ⟨hhead, hsome⟩ := hwaits
    obtain ⟨rest, hrest⟩ := List.head?_eq_some_iff.mp hhead
    obtain ⟨target, htarget⟩ := Option.isSome_iff_exists.mp hsome
    have heq := hi.target s cta target ⟨hhead, hsome⟩ htarget
    have hsum := ((hi.turns s).card_mul_le_iff _).mpr hall
    -- All have entered the round, so the counter is at the target or past it.
    have hle : ¬ w.counter s < target := by
      rw [setup.card_parties] at hsum
      rw [hi.counter, heq, not_lt]
      exact Int.ofNat_le.mpr hsum
    refine ⟨{ w with
      rest := Function.update w.rest cta rest
      target := Function.update w.target cta none }, ?_⟩
    simp only [step, hrest, htarget]
    rw [if_neg hle]

/-- Two intra-node comm CTAs and another one, with two launches. -/
def trio : Setup := ⟨3, 2, 2, false, false, two_le_three, by decide⟩

instance : NeZero trio.gridDim := ⟨by decide⟩

/-- CTA 1 has passed the gate and still waits for the grid. CTA 0 is at the gate of the
    second launch, and CTA 2 has arrived at the grid sync of that. -/
def overtaking : World trio :=
  (run step always [.arrive 2, .arrive 0, .arrive 1, .leave 0, .arrive 0, .leave 1, .arrive 1,
    .leave 0, .arrive 0, .leave 2, .arrive 2] (init trio)).get (by decide +kernel)

/-- CTA 1 can still go on, and CTA 0 cannot before it comes to the gate. -/
theorem gathered_overtaking :
    overtaking.Waits .gridSync 1 ∧ overtaking.entered .gridSync 2 = 2 ∧
      overtaking.left .gridSync 2 ≤ overtaking.entered .gridSync 1 ∧
      overtaking.entered .gate 0 = 2 ∧
      overtaking.left .gate 0 ≤ overtaking.entered .gate 1 ∧
      (∃ w', step overtaking (.leave 1) = some w') ∧ step overtaking (.leave 0) = none := by
  have hreach : Reaches step always (init trio) overtaking :=
    reaches_of_run _ _ _ (Option.some_get _).symm
  have hgate (cta : Fin trio.gridDim) (hcta : cta.val < 2) : cta ∈ trio.parties .gate :=
    Finset.mem_filter.mpr ⟨Finset.mem_univ cta, hcta⟩
  have hfast := gathered hreach .gridSync (Finset.mem_univ (2 : Fin trio.gridDim))
  have hslow := gathered hreach .gridSync (Finset.mem_univ (1 : Fin trio.gridDim))
  have hfirst := gathered hreach .gate (hgate 0 (by decide))
  refine ⟨by decide +kernel, by decide +kernel, hfast.1 1 (Finset.mem_univ _), by decide +kernel,
    hfirst.1 1 (hgate 1 (by decide)), ?_, ?_⟩
  · exact hslow.2 (by decide +kernel) (by decide +kernel)
  · exact Option.isNone_iff_eq_none.mp (by decide +kernel)

end CounterBarriers

end AgGemm

end MKernel
