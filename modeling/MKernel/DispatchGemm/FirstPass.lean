import MKernel.DispatchGemm.Chunks
import MKernel.DispatchGemm.Routing

/-!
# The First Pass Waits for No Other Node

What the tables of `dispatch_gemm` promise the kernel.

A slice of the first pass lies in a row block that the tables say is local. All its tokens
are of the own node then, so its dispatch waits for no mark of a chunk (`awaited_nil`). The
first pass of every CTA comes before its second (`pairwise_walk`), so whatever slices and
blocks of the first pass are left, there is a CTA at the head of whose work is one of them.
And the counter a compute CTA waits for in its first pass is filled by slices of the first
pass only. So the first pass comes to its end even if nothing of another node ever arrives
(`first_pass`).

## Main definitions

* `awaited`: What the dispatch of a slice waits for.
* `LocalRow`: A row block of the first pass.
* `Without`: The condition that nothing is waited for.
* `Tabled`: What is promised of the tables.

## Theorems

* `awaited_nil`: A slice of the first pass waits for nothing.
* `first_pass`: The first pass can always be ended by steps that wait for nothing.
* `tabled`: The promise holds.
-/

namespace MKernel

namespace DispatchGemm

open MKernel.Core Walk

/-- The marks the dispatch of a row waits for, by `dispatch_fused`. -/
def awaitedOfRow (setup : Setup) (nodeIdx : Nat) (r : Row) : List Nat :=
  if 0 ≤ r.1 ∧ 0 ≤ r.2.1 ∧ 0 ≤ r.2.2 then
    if r.1 = nodeIdx then []
    else
      (setup.awaitedChunks r.2.2.toNat).map fun c =>
        setup.senderSlot r.1.toNat nodeIdx * setup.totalChunks + c
  else []

/-- The marks the dispatch of a slice waits for: those of the rows its lanes look up. -/
def awaited (setup : Setup) (nodeIdx : Nat) (rows : List Row) (smIdx : Nat) : List Nat :=
  (List.range 16).flatMap fun laneId =>
    (rows[smIdx * 16 + laneId]?).elim [] (awaitedOfRow setup nodeIdx)

/-! ## Rows of the first pass -/

/-- A row block of the first pass. -/
def LocalRow (T : Tables) (row : Nat) : Prop :=
  ∃ e < T.numExpertsPerDev, T.tokensBefore e / 128 ≤ row ∧
    row < T.tokensBefore e / 128 + T.localRbPerExpert e

section Rows

variable {T : Tables} {perRb smIdx S : Nat}

theorem mem_pass {pass : Nat} (hlt : smIdx < S) {v : Nat × Nat × Nat}
    (h : v ∈ carriedWalk S (T.segments pass perRb (List.range T.numExpertsPerDev) 0) smIdx) :
    ∃ e < T.numExpertsPerDev, (T.part pass e (T.tokensBefore e)).1 ≤ v.2.1 ∧
      v.2.1 < (T.part pass e (T.tokensBefore e)).1 + (T.part pass e (T.tokensBefore e)).2 ∧
      v.2.2 < perRb := by
  have hmem := (perm_carriedWalks (Nat.zero_lt_of_lt hlt) _).mem_iff.mp
    (List.mem_flatMap.mpr ⟨smIdx, List.mem_range.mpr hlt, h⟩)
  rw [allItems_pass] at hmem
  simp only [List.mem_flatMap, List.mem_map, List.mem_range, List.mem_range'_1] at hmem
  rcases hmem with ⟨e, he, rb, hrb, k, hk, rfl⟩
  exact ⟨e, he, hrb.1, hrb.2, hk⟩

/-- A CTA comes to the row blocks of the first pass first. -/
theorem pairwise_twoPassWalk (hlt : smIdx < S) :
    (T.twoPassWalk perRb smIdx S).Pairwise fun v u => LocalRow T u.2.1 → LocalRow T v.2.1 := by
  rw [Tables.twoPassWalk, List.flatMap_cons, List.flatMap_singleton, List.pairwise_append]
  have hfirst : ∀ v ∈ carriedWalk S (T.segments 0 perRb (List.range T.numExpertsPerDev) 0) smIdx,
      LocalRow T v.2.1 := by
    intro v hv
    rcases mem_pass hlt hv with ⟨e, he, hge, hrow, _⟩
    exact ⟨e, he, hge, hrow⟩
  refine ⟨List.pairwise_of_forall_mem_list fun v hv u _ _ => hfirst v hv, ?_,
    fun v hv u _ _ => hfirst v hv⟩
  refine List.pairwise_of_forall_mem_list fun v _ u hu hlocal => ?_
  -- A row block of the second pass is local to no expert.
  rcases mem_pass hlt hu with ⟨e, he, hge, hrow, _⟩
  rcases hlocal with ⟨e', he', hge', hrow'⟩
  have hdvd := dvd_tokensBefore (T := T) e
  have hdvd' := dvd_tokensBefore (T := T) e'
  have hle := T.local_le e
  have hle' := T.local_le e'
  have hnext := tokensBefore_succ (T := T) e
  have hnext' := tokensBefore_succ (T := T) e'
  have hpadded := T.padded_dvd e
  have hpadded' := T.padded_dvd e'
  simp only [Tables.part, Nat.one_ne_zero, if_false] at hge hrow
  have hlow : T.tokensBefore e ≤ 128 * u.2.1 := by omega
  have hhigh : 128 * u.2.1 + 128 ≤ T.tokensBefore (e + 1) := by omega
  have heq : e = e' := expert_unique hlow hhigh (by omega) (by omega)
  rw [heq] at hge
  omega

end Rows

/-! ## The first pass of a launch -/

section Launches

variable {L : Launch} {w w' : Walk.World L}

/-- Every CTA has what is left of its first pass before the second. -/
structure FirstFirst (w : Walk.World L) : Prop where
  dispatch : ∀ d, (w.toDispatch d).Pairwise fun v u =>
    LocalRow L.tables (u.2 / 8) → LocalRow L.tables (v.2 / 8)
  compute : ∀ c, (w.toCompute c).Pairwise fun v u =>
    LocalRow L.tables u.2.1 → LocalRow L.tables v.2.1

theorem firstFirst_init (L : Launch) : FirstFirst (Walk.init L) where
  dispatch d := by
    refine List.pairwise_map.mpr ((pairwise_twoPassWalk d.isLt).imp_of_mem ?_)
    intro v u hv hu h
    rw [place_div (mem_units (mem_twoPassWalk d.isLt hv)).2.2.2,
      place_div (mem_units (mem_twoPassWalk d.isLt hu)).2.2.2]
    exact h
  compute c := pairwise_twoPassWalk c.isLt

theorem firstFirst_step (h : FirstFirst w) {a : Walk.Action L} (hstep : Walk.step w a = some w') :
    FirstFirst w' := by
  cases a with
  | dispatch d =>
      cases hnext : w.toDispatch d with
      | nil => simp only [Walk.step, hnext, reduceCtorEq] at hstep
      | cons v rest =>
          simp only [Walk.step, hnext, Option.some.injEq] at hstep
          rcases hstep with rfl
          refine ⟨fun d' => ?_, h.compute⟩
          by_cases hd : d' = d
          · -- What remains of a list in order is in order.
            simp only [hd, Function.update_self]
            exact (List.pairwise_cons.mp (hnext ▸ h.dispatch d)).2
          · simp only [Function.update_of_ne hd]
            exact h.dispatch d'
  | compute c =>
      cases hnext : w.toCompute c with
      | nil => simp only [Walk.step, hnext, reduceCtorEq] at hstep
      | cons v rest =>
          simp only [Walk.step, hnext, Option.ite_none_right_eq_some, Option.some.injEq] at hstep
          rcases hstep with ⟨_, rfl⟩
          refine ⟨h.dispatch, fun c' => ?_⟩
          by_cases hc : c' = c
          · simp only [hc, Function.update_self]
            exact (List.pairwise_cons.mp (hnext ▸ h.compute c)).2
          · simp only [Function.update_of_ne hc]
            exact h.compute c'

theorem firstFirst_of_reaches (h : Reaches Walk.step always (Walk.init L) w) : FirstFirst w :=
  invariant_of_reaches FirstFirst (fun _ _ _ hinv _ hstep => firstFirst_step hinv hstep) h
    (firstFirst_init L)

/-- Where there is one of a kind at all, there is one at the head. -/
theorem head_of_pairwise {α : Type*} {p : α → Prop} {l : List α}
    (h : l.Pairwise fun x y => p y → p x) {x : α} (hx : x ∈ l) (hp : p x) :
    ∃ y rest, l = y :: rest ∧ p y := by
  cases l with
  | nil => exact absurd hx List.not_mem_nil
  | cons y rest =>
      refine ⟨y, rest, rfl, ?_⟩
      rcases List.mem_cons.mp hx with rfl | hmem
      · exact hp
      · exact (List.pairwise_cons.mp h).1 x hmem hp

/-- The condition that the dispatch of a slice has nothing to wait for. -/
def Without (waits : Nat → List Nat) (w : Walk.World L) : Walk.Action L → Prop
  | .dispatch d => ∀ v ∈ (w.toDispatch d).head?, waits v.2 = []
  | .compute _ => True

/-- If no slice of the first pass has anything to wait for, the first pass can always be ended
    by steps that wait for nothing. -/
theorem first_pass {waits : Nat → List Nat}
    (hwaits : ∀ smIdx, LocalRow L.tables (smIdx / 8) → waits smIdx = [])
    (h : Reaches Walk.step always (Walk.init L) w) :
    ∃ u, Reaches Walk.step (Without waits) w u ∧
      (∀ d, ∀ v ∈ u.toDispatch d, ¬ LocalRow L.tables (v.2 / 8)) ∧
      ∀ c, ∀ v ∈ u.toCompute c, ¬ LocalRow L.tables v.2.1 := by
  refine exists_goal (fun u => ∑ d, (u.toDispatch d).length + ∑ c, (u.toCompute c).length)
    fun u hu hnot => ?_
  have hany : Reaches Walk.step always w u := reaches_mono (fun _ _ _ => trivial) hu
  have hrun := reaches_trans h hany
  have hinv := Walk.inv_of_reaches hrun
  have hfirst := firstFirst_of_reaches hrun
  by_cases hdone : ∀ d, ∀ v ∈ u.toDispatch d, ¬ LocalRow L.tables (v.2 / 8)
  · have hleft : ¬ ∀ c, ∀ v ∈ u.toCompute c, ¬ LocalRow L.tables v.2.1 :=
      fun hall => hnot ⟨hdone, hall⟩
    simp only [not_forall, not_not] at hleft
    rcases hleft with ⟨c, v, hv, hlocal⟩
    rcases head_of_pairwise (hfirst.compute c) hv hlocal with ⟨v, rest, hnext, hlocal⟩
    -- No slice of its row block is left, so the counter is full.
    have hnone : remaining u v.2.1 = 0 := by
      refine Finset.sum_eq_zero fun d _ => List.countP_eq_zero.mpr fun s hs => ?_
      rw [decide_eq_true_eq]
      intro hrow
      exact hdone d s hs (hrow ▸ hlocal)
    have hcount := hinv.counted v.2.1 (hinv.blocks c v (hnext ▸ List.mem_cons_self))
    have hfull : u.barrier v.2.1 = 128 := by omega
    refine ⟨.compute c, { u with toCompute := Function.update u.toCompute c rest }, trivial, ?_, ?_⟩
    · simp only [Walk.step, hnext, if_pos hfull]
    · refine Nat.add_lt_add_left (sum_lt_of_one c ?_ fun c' hc' => ?_) _
      · simp only [Function.update_self, hnext, List.length_cons, Nat.lt_succ_self]
      · simp only [Function.update_of_ne hc']
  · simp only [not_forall, not_not] at hdone
    rcases hdone with ⟨d, v, hv, hlocal⟩
    rcases head_of_pairwise (hfirst.dispatch d) hv hlocal with ⟨v, rest, hnext, hlocal⟩
    refine ⟨.dispatch d, { u with
      toDispatch := Function.update u.toDispatch d rest
      barrier := Function.update u.barrier (v.2 / 8)
        (u.barrier (v.2 / 8) + validTokens L v.2) }, ?_, ?_, ?_⟩
    · intro v' hv'
      rw [hnext, List.head?_cons, Option.mem_some_iff] at hv'
      exact hv' ▸ hwaits v.2 hlocal
    · simp only [Walk.step, hnext]
    · refine Nat.add_lt_add_right (sum_lt_of_one d ?_ fun d' hd' => ?_) _
      · simp only [Function.update_self, hnext, List.length_cons, Nat.lt_succ_self]
      · simp only [Function.update_of_ne hd']

end Launches

/-! ## The promise -/

section Promise

variable {R : Routing}

/-- A slice of the first pass has only tokens of the own node. -/
theorem awaited_nil (setup : Setup) (g : Gpu R) {smIdx : Nat}
    (h : LocalRow g.tables (smIdx / 8)) :
    awaited setup g.nodeIdx g.buildPullIndices smIdx = [] := by
  rcases h with ⟨e, he, hge, hlt⟩
  have hdvd := dvd_tokensBefore (T := g.tables) e
  rw [awaited, List.flatMap_eq_nil_iff]
  intro laneId hlane
  have hlane := List.mem_range.mp hlane
  have hi : smIdx * 16 + laneId - g.tables.tokensBefore e < g.tables.localRbPerExpert e * 128 := by
    omega
  rcases local_rows g he hi with ⟨s, hrow, hnode⟩
  rw [Nat.add_sub_cancel' (by omega)] at hrow
  rw [hrow, Option.elim_some, awaitedOfRow]
  simp only [Src.row, hnode, if_true, ite_self]

/-- The tables list every choice of an expert once, in the expert's segment, the tokens of the
    own node first and minus ones last; the segments are where the kernel looks for them; the
    row blocks that are said to be local are; and the first pass of the kernel can always be
    ended without waiting for anything of another node. -/
structure Tabled (g : Gpu R) : Prop where
  length : g.buildPullIndices.length = g.tables.numPaddedLocalTokens
  segment : ∀ e < R.numExpertsPerDev, ∃ listed : List Src,
    ((g.buildPullIndices.drop (g.tables.tokensBefore e)).take
      (g.tables.paddedTokensPerExpert e) = listed.map Src.row ++
        List.replicate (g.tables.paddedTokensPerExpert e - listed.length) padRow) ∧
    listed.Perm ((R.assignments (g.expertStart + e)).map fun a => R.src a.1) ∧
    128 ∣ g.tables.paddedTokensPerExpert e ∧
    listed.length ≤ g.tables.paddedTokensPerExpert e ∧
    g.tables.paddedTokensPerExpert e < listed.length + 128
  src_inj : ∀ t t', R.src t = R.src t' → t = t'
  local_first : ∀ e < R.numExpertsPerDev, ∀ i < g.tables.localRbPerExpert e * 128,
    ∃ s : Src, g.buildPullIndices[g.tables.tokensBefore e + i]? = some s.row ∧ s.node = g.nodeIdx
  first_pass : ∀ (setup : Setup) (L : Launch), L.tables = g.tables → ∀ w,
    Reaches Walk.step always (Walk.init L) w →
    ∃ u, Reaches Walk.step (Without (awaited setup g.nodeIdx g.buildPullIndices)) w u ∧
      (∀ d, ∀ v ∈ u.toDispatch d, ¬ LocalRow L.tables (v.2 / 8)) ∧
      ∀ c, ∀ v ∈ u.toCompute c, ¬ LocalRow L.tables v.2.1

/-- A segment, cut out of the table. -/
theorem take_drop_buildPullIndices (g : Gpu R) {e : Nat} (he : e < R.numExpertsPerDev) :
    (g.buildPullIndices.drop (g.tables.tokensBefore e)).take (g.tables.paddedTokensPerExpert e) =
      g.segment (g.expertStart + e) := by
  refine List.ext_getElem? fun i => ?_
  by_cases hi : i < g.tables.paddedTokensPerExpert e
  · rw [List.getElem?_take_of_lt hi, List.getElem?_drop]
    exact rows_at g he hi
  · rw [List.getElem?_eq_none, List.getElem?_eq_none]
    · rw [length_segment]
      exact Nat.le_of_not_lt hi
    · rw [List.length_take]
      omega

/-- For every routing and every GPU, the tables keep the promise. -/
theorem tabled (R : Routing) (g : Gpu R) : Tabled g where
  length := length_buildPullIndices g
  segment e he := by
    have hperm := ordered_perm g (g.expertStart + e)
    refine ⟨g.ordered (g.expertStart + e), ?_, ?_, g.tables.padded_dvd e, ?_, ?_⟩
    · rw [take_drop_buildPullIndices g he, segment_eq, hperm.length_eq]
      rfl
    · rw [← expertToTokens_eq]
      exact hperm
    · rw [hperm.length_eq]
      exact (le_paddedList _).1
    · rw [hperm.length_eq]
      exact (le_paddedList _).2
  src_inj _ _ := DispatchGemm.src_inj
  local_first e he i hi := local_rows g he hi
  first_pass setup L hL w hw := by
    refine DispatchGemm.first_pass (fun smIdx hlocal => ?_) hw
    rw [hL] at hlocal
    exact awaited_nil setup g hlocal

end Promise

end DispatchGemm

end MKernel
