import MKernel.Core.Tally
import MKernel.GemmAr.EarlyDirect

/-!
# The Two Paths Agree

The reducing CTAs of `gemm_ar` publish the same with early accumulation as without it.

Nothing but the direct sum is ever published, in either path. And everything is: from
any state the parts still missing can arrive (`exists_visible`), and once they have,
every CTA has a step that brings it closer to its end (`cta_goes`). A look at the flags
then finds nothing missing, so it is the last of its chunk.

The promise needs a peer, and for the second half no more than thirty. Without a peer
the early path adds what the buffer held. With more than thirty it waits for a bit that
no drainer sets. A session has between one peer and sixteen.

## Main definitions

* `Visible`: All that a chunk is made of has arrived.
* `Agreement`: Both paths publish direct sums.
* `Completes`: Both paths can always publish everything.

## Theorems

* `exists_visible`: All chunks can become visible.
* `cta_goes`: Then every CTA can go on, and has less left.
* `early_eq_direct`: The promise holds.
* `early_limits`: It needs the conditions.
-/

namespace MKernel

namespace GemmAr

namespace EarlyAccum

open MKernel.Core

variable {M : Type*} {G : Launch M}

/-- All that a chunk is made of has arrived. -/
def Visible (w : World G) (c : Nat) : Prop :=
  w.localDoneFlag c = 1 ∧ w.remoteArrivedFlag c ≠ 0 ∧
    Finset.range G.numPeers ⊆ voters (w.remoteArrivedPeerMask c)

/-! ## Counting down -/

/-- No chunk has more vectors than this. -/
def Launch.maxVecs (G : Launch M) : Nat :=
  (Finset.range G.totalChunks).sup fun c => (G.chunkVecs c).length

/-- How many steps a CTA takes at most for a chunk that is visible. -/
def Launch.pollLeft (G : Launch M) : Nat := G.numPeers * (G.maxVecs + 2) + G.maxVecs + 4

/-- How many of them are left. -/
def phaseLeft (G : Launch M) : Phase → Nat
  | .polling => G.pollLeft
  | .peers _ readyToPublish peerSlot =>
      (G.numPeers - peerSlot) * (G.maxVecs + 2) + 1 +
        if readyToPublish then G.maxVecs + 2 else G.pollLeft
  | .accumulating _ readyToPublish peerSlot todo =>
      (G.numPeers - (peerSlot + 1)) * (G.maxVecs + 2) + 2 + todo.length +
        if readyToPublish then G.maxVecs + 2 else G.pollLeft
  | .publishing todo => 1 + todo.length

/-- No more steps than these are left to a CTA. -/
def ctaLeft (G : Launch M) (k : Cta) : Nat :=
  if k.chunkId < G.totalChunks then
    (G.totalChunks - k.chunkId) * G.pollLeft + phaseLeft G k.phase
  else 0

theorem length_chunkVecs_le {c : Nat} (hc : c < G.totalChunks) :
    (G.chunkVecs c).length ≤ G.maxVecs :=
  Finset.le_sup (f := fun c => (G.chunkVecs c).length) (Finset.mem_range.mpr hc)

/-- A CTA that goes on with its chunk has less left, -/
theorem ctaLeft_lt_of_phase {k k' : Cta} (hk : k.chunkId < G.totalChunks)
    (hchunk : k'.chunkId = k.chunkId) (hphase : phaseLeft G k'.phase < phaseLeft G k.phase) :
    ctaLeft G k' < ctaLeft G k := by
  rw [ctaLeft, ctaLeft, hchunk, if_pos hk, if_pos hk]
  omega

/-- and so has one that goes on to the next. -/
theorem ctaLeft_lt_of_chunk {k k' : Cta} (hk : k.chunkId < G.totalChunks)
    (hchunk : k.chunkId < k'.chunkId) (hpoll : k'.phase = .polling)
    (hphase : 0 < phaseLeft G k.phase) : ctaLeft G k' < ctaLeft G k := by
  rw [ctaLeft, ctaLeft, if_pos hk, hpoll]
  by_cases hk' : k'.chunkId < G.totalChunks
  · rw [if_pos hk', phaseLeft, ← Nat.succ_mul]
    have hmul : (G.totalChunks - k'.chunkId + 1) * G.pollLeft ≤
        (G.totalChunks - k.chunkId) * G.pollLeft := Nat.mul_le_mul_right _ (by omega)
    exact Nat.lt_of_le_of_lt hmul (Nat.lt_add_of_pos_right hphase)
  · rw [if_neg hk']
    omega

/-- Past a barrier or at the next peer a CTA has less left. -/
theorem afterNext_lt {k k' : Cta} (hk : k.chunkId < G.totalChunks)
    (h : k.afterNext G = some k') : ctaLeft G k' < ctaLeft G k := by
  have hlen := length_chunkVecs_le hk
  cases hphase : k.phase with
  | polling => simp only [Cta.afterNext, hphase, reduceCtorEq] at h
  | peers n r s =>
      simp only [Cta.afterNext, hphase, Option.some.injEq] at h
      rcases h with rfl
      refine ctaLeft_lt_of_phase hk rfl ?_
      rw [hphase]
      dsimp only
      by_cases hs : s < G.numPeers
      · -- A peer less is left in the round.
        have hsplit : (G.numPeers - s) * (G.maxVecs + 2) =
            (G.numPeers - (s + 1)) * (G.maxVecs + 2) + (G.maxVecs + 2) := by
          rw [← Nat.succ_mul]
          congr 1
          omega
        rw [if_pos hs]
        by_cases hbit : n &&& (1#32 <<< s) = 0
        · rw [if_pos hbit, phaseLeft, phaseLeft, hsplit]
          omega
        · rw [if_neg hbit, phaseLeft, phaseLeft, hsplit]
          omega
      · rw [if_neg hs]
        by_cases hready : r = true
        · rw [if_pos hready, phaseLeft, phaseLeft, if_pos hready]
          omega
        · rw [if_neg hready, phaseLeft, phaseLeft, if_neg hready]
          omega
  | accumulating n r s todo =>
      cases todo with
      | cons v todo => simp only [Cta.afterNext, hphase, reduceCtorEq] at h
      | nil =>
          simp only [Cta.afterNext, hphase, Option.some.injEq] at h
          rcases h with rfl
          refine ctaLeft_lt_of_phase hk rfl ?_
          rw [hphase, phaseLeft, phaseLeft, List.length_nil]
          omega
  | publishing todo =>
      cases todo with
      | cons v todo => simp only [Cta.afterNext, hphase, reduceCtorEq] at h
      | nil =>
          simp only [Cta.afterNext, hphase, Option.some.injEq] at h
          rcases h with rfl
          refine ctaLeft_lt_of_chunk hk ?_ rfl ?_
          · exact Nat.lt_add_of_pos_right G.numInterReduceStoreSms_pos
          · rw [hphase, phaseLeft]
            omega

/-- A look at a chunk that is visible is the last. -/
theorem afterPoll_visible (early : Bool) {w : World G} (hle : G.numPeers ≤ 30) {k : Cta}
    (hk : k.chunkId < G.totalChunks)
    (hphase : k.phase = .polling) (hv : Visible w k.chunkId) :
    (k.afterPoll G early (w.remoteArrivedPeerMask k.chunkId) (w.localDoneFlag k.chunkId)
      (w.remoteArrivedFlag k.chunkId)).chunkId = k.chunkId ∧
    phaseLeft G (k.afterPoll G early (w.remoteArrivedPeerMask k.chunkId)
      (w.localDoneFlag k.chunkId) (w.remoteArrivedFlag k.chunkId)).phase <
      phaseLeft G k.phase := by
  have hlen := length_chunkVecs_le hk
  have hpoll : phaseLeft G k.phase = G.numPeers * (G.maxVecs + 2) + G.maxVecs + 4 := by
    rw [hphase]
    rfl
  -- To publish is all that is left, with a vector at a time.
  have hpub : phaseLeft G (.publishing (G.chunkVecs k.chunkId)) < phaseLeft G k.phase := by
    rw [hpoll, phaseLeft]
    omega
  rw [Cta.afterPoll]
  cases early with
  | false =>
      rw [if_neg Bool.false_ne_true, if_pos ⟨hv.2.1, hv.1⟩]
      exact ⟨rfl, hpub⟩
  | true =>
      -- The mask of the CTA has all peers after this look, since all have arrived.
      have hfull : (k.processedPeerMask ||| (w.remoteArrivedPeerMask k.chunkId &&&
          ~~~k.processedPeerMask)) &&& G.fullPeerMask = G.fullPeerMask := by
        rw [and_eq_right_iff, voters_fullPeerMask hle, voters_or]
        intro p hp
        rw [Finset.mem_union, mem_voters_and_not]
        by_cases hmet : p ∈ voters k.processedPeerMask
        · exact Or.inl hmet
        · exact Or.inr ⟨hv.2.2 hp, hmet⟩
      simp only [hv.1, hfull, decide_true, Bool.and_true, if_true]
      -- If some of them are new their parts come first, and the publication behind them.
      by_cases hnew : w.remoteArrivedPeerMask k.chunkId &&& ~~~k.processedPeerMask ≠ 0
      · rw [if_pos hnew]
        refine ⟨rfl, ?_⟩
        rw [hpoll, phaseLeft, if_pos rfl, Nat.sub_zero]
        omega
      · rw [if_neg hnew]
        exact ⟨rfl, hpub⟩

variable [AddCommMonoid M] {early : Bool} {w w' : World G}

/-! ## Arrival -/

/-- Nothing that has arrived is taken back. -/
theorem visible_mono {a : Action G} (hstep : step early w a = some w') (c : Nat) :
    (w.localDoneFlag c = 1 → w'.localDoneFlag c = 1) ∧
    (w.remoteArrivedFlag c ≠ 0 → w'.remoteArrivedFlag c ≠ 0) ∧
    voters (w.remoteArrivedPeerMask c) ⊆ voters (w'.remoteArrivedPeerMask c) := by
  cases a with
  | reduceLocal d =>
      simp only [step, Option.ite_none_right_eq_some, Option.some.injEq] at hstep
      rcases hstep with ⟨_, rfl⟩
      refine ⟨fun h => ?_, id, subset_rfl⟩
      by_cases hcd : c = d
      · rw [hcd]
        -- The flags are only ever set,
        exact Function.update_self _ _ _
      · exact (Function.update_of_ne hcd _ _).trans h
  | arrive p d =>
      simp only [step, Option.ite_none_right_eq_some, Option.some.injEq] at hstep
      rcases hstep with ⟨_, rfl⟩
      refine ⟨id, id, ?_⟩
      by_cases hcd : c = d
      · -- and the masks only get bits.
        simp only [hcd, Function.update_self, voters_or]
        exact Finset.subset_union_left
      · simp only [Function.update_of_ne hcd]
        exact subset_rfl
  | flag d =>
      simp only [step, Option.ite_none_right_eq_some, Option.some.injEq] at hstep
      rcases hstep with ⟨_, rfl⟩
      refine ⟨id, fun h => ?_, subset_rfl⟩
      by_cases hcd : c = d
      · simp only [hcd, Function.update_self]
        exact one_ne_zero
      · simp only [Function.update_of_ne hcd]
        exact h
  | poll k =>
      simp only [step, Option.ite_none_right_eq_some, Option.some.injEq] at hstep
      rcases hstep with ⟨_, rfl⟩
      -- The CTAs write neither.
      exact ⟨id, id, subset_rfl⟩
  | vec k v =>
      simp only [step] at hstep
      cases hphase : (w.cta k).phase with
      | polling => simp only [hphase, reduceCtorEq] at hstep
      | peers n r s => simp only [hphase, reduceCtorEq] at hstep
      | accumulating n r s todo =>
          simp only [hphase, Option.ite_none_right_eq_some, Option.some.injEq] at hstep
          rcases hstep with ⟨_, rfl⟩
          exact ⟨id, id, subset_rfl⟩
      | publishing todo =>
          simp only [hphase, Option.ite_none_right_eq_some, Option.some.injEq] at hstep
          rcases hstep with ⟨_, rfl⟩
          exact ⟨id, id, subset_rfl⟩
  | next k =>
      simp only [step] at hstep
      rcases Option.map_eq_some_iff.mp hstep with ⟨k', _, rfl⟩
      exact ⟨id, id, subset_rfl⟩

/-- What is visible stays visible, -/
theorem Visible.lasts {c : Nat} (hr : Reaches (step early) always w w') (h : Visible w c) :
    Visible w' c :=
  invariant_of_reaches (Visible · c) (fun _ _ _ hv _ hstep =>
    ⟨(visible_mono hstep c).1 hv.1, (visible_mono hstep c).2.1 hv.2.1,
      hv.2.2.trans (visible_mono hstep c).2.2⟩) hr h

theorem mask_lasts {c p : Nat} (hr : Reaches (step early) always w w')
    (h : p ∈ voters (w.remoteArrivedPeerMask c)) : p ∈ voters (w'.remoteArrivedPeerMask c) :=
  invariant_of_reaches (fun u : World G => p ∈ voters (u.remoteArrivedPeerMask c))
    (fun _ _ _ hv _ hstep => (visible_mono hstep c).2.2 hv) hr h

/-- and every chunk can become so. -/
theorem exists_visible (hpos : 0 < G.numPeers) (hle : G.numPeers ≤ 30) {c : Nat}
    (hc : c < G.totalChunks) (w : World G) :
    ∃ u, Reaches (step early) always w u ∧ Visible u c := by
  -- One peer after the other arrives,
  rcases exists_forall (Reaches (step early) always)
    (fun p (u : World G) => p ∈ voters (u.remoteArrivedPeerMask c)) (reaches_refl _ _)
    (fun _ _ _ => reaches_trans) (fun p s t hr h => mask_lasts hr h) (List.range G.numPeers)
    (s := w) (fun t _ p hp => by
      have hlt := List.mem_range.mp hp
      refine ⟨_, reaches_step (reaches_refl _ _ t) (.arrive p c) trivial (if_pos ⟨hlt, hc⟩), ?_⟩
      dsimp only
      rw [Function.update_self, voters_or, Finset.mem_union]
      exact Or.inr (mem_voters_peerBit.mpr ⟨rfl, by omega⟩)) with ⟨u, hu, hall⟩
  have hsub : Finset.range G.numPeers ⊆ voters (u.remoteArrivedPeerMask c) :=
    fun p hp => hall p (List.mem_range.mpr (Finset.mem_range.mp hp))
  have hcount : G.numPeers ≤ (u.remoteArrivedPeerMask c).cpop.toNat := by
    rw [cpop_toNat]
    exact (Finset.card_range _).ge.trans (Finset.card_le_card hsub)
  -- then the flag is set and the all-reduce is done.
  have hflag := reaches_step hu (.flag c) trivial (if_pos ⟨hpos, hcount⟩)
  refine ⟨_, reaches_step hflag (.reduceLocal c) trivial (if_pos hc), ?_, ?_, hsub⟩
  · exact Function.update_self _ _ _
  · dsimp only
    rw [Function.update_self]
    exact one_ne_zero

/-! ## Progress -/

/-- A vector that no thread has come to can be handled. -/
theorem vec_goes (early : Bool) {k : Fin G.numInterReduceStoreSms} {v : Vec} {todo : List Vec}
    {phase : List Vec → Phase}
    (hphase : (w.cta k).phase = phase (v :: todo))
    (hkind : (∃ n r s, phase = Phase.accumulating n r s) ∨ phase = Phase.publishing) :
    ∃ w', step early w (.vec k v) = some w' ∧
      w'.cta = Function.update w.cta k { w.cta k with phase := phase todo } := by
  rw [← List.erase_cons_head (a := v) (l := todo)]
  rcases hkind with ⟨n, r, s, rfl⟩ | rfl
  · simp only [step, hphase, if_pos List.mem_cons_self]
    exact ⟨_, rfl, rfl⟩
  · simp only [step, hphase, if_pos List.mem_cons_self]
    exact ⟨_, rfl, rfl⟩

/-- A CTA with a visible chunk can go on, and has less left then. -/
theorem cta_goes (early : Bool) (hle : G.numPeers ≤ 30) {k : Fin G.numInterReduceStoreSms}
    (hk : (w.cta k).chunkId < G.totalChunks) (hv : Visible w (w.cta k).chunkId) :
    ∃ a w', step early w a = some w' ∧ ctaLeft G (w'.cta k) < ctaLeft G (w.cta k) ∧
      ∀ i, i ≠ k → w'.cta i = w.cta i := by
  have hself : ∀ k', (w.setCta k k').cta k = k' := fun k' => Function.update_self _ _ _
  have hother : ∀ k' i, i ≠ k → (w.setCta k k').cta i = w.cta i :=
    fun k' i hi => Function.update_of_ne hi _ _
  cases hafter : (w.cta k).afterNext G with
  | some k' =>
      -- The end of a loop is one step.
      refine ⟨.next k, _, congrArg (Option.map _) hafter, ?_, hother k'⟩
      exact lt_of_eq_of_lt (congrArg _ (hself k')) (afterNext_lt hk hafter)
  | none =>
      cases hphase : (w.cta k).phase with
      | polling =>
          -- A poll finds all it asks for.
          rcases afterPoll_visible early hle hk hphase hv with ⟨hchunk, hlt⟩
          refine ⟨.poll k, _, if_pos ⟨hk, hphase⟩, ?_, hother _⟩
          rw [hself]
          exact ctaLeft_lt_of_phase hk hchunk hlt
      | peers n r s => simp only [Cta.afterNext, hphase, reduceCtorEq] at hafter
      | accumulating n r s todo =>
          cases todo with
          | nil => simp only [Cta.afterNext, hphase, reduceCtorEq] at hafter
          | cons v todo =>
              rcases vec_goes early hphase (Or.inl ⟨n, r, s, rfl⟩) with ⟨w', hstep, hcta⟩
              refine ⟨.vec k v, w', hstep, ?_, fun i hi => hcta ▸ Function.update_of_ne hi _ _⟩
              rw [hcta, Function.update_self]
              -- One vector less is left in the loop.
              refine ctaLeft_lt_of_phase hk rfl ?_
              rw [hphase, phaseLeft, phaseLeft, List.length_cons]
              omega
      | publishing todo =>
          cases todo with
          | nil => simp only [Cta.afterNext, hphase, reduceCtorEq] at hafter
          | cons v todo =>
              rcases vec_goes early hphase (Or.inr rfl) with ⟨w', hstep, hcta⟩
              refine ⟨.vec k v, w', hstep, ?_, fun i hi => hcta ▸ Function.update_of_ne hi _ _⟩
              rw [hcta, Function.update_self]
              refine ctaLeft_lt_of_phase hk rfl ?_
              rw [hphase, phaseLeft, phaseLeft, List.length_cons]
              omega

/-! ## The promise -/

/-- Both paths publish direct sums, so the one publishes what the other does. -/
structure Agreement (G : Launch M) : Prop where
  published : ∀ (early : Bool) (start : Contents M) (w : World G),
    Reaches (step early) always (init G start) w →
    ∀ row col x, w.final row col = some x → DirectAt G row col x
  same : ∀ (start start' : Contents M) (w w' : World G),
    Reaches (step true) always (init G start) w → Reaches (step false) always (init G start') w' →
    ∀ row col x x', w.final row col = some x → w'.final row col = some x' → x = x'

/-- In both paths every run can be continued until every element is published. -/
def Completes (G : Launch M) : Prop :=
  ∀ (early : Bool) (start : Contents M) (w : World G),
    Reaches (step early) always (init G start) w →
    ∃ u, Reaches (step early) always w u ∧
      ∀ row col x, DirectAt G row col x → u.final row col = some x

/-- The direct sum for an element is determined. -/
theorem directAt_unique {row col : Nat} {x x' : M} (h : DirectAt G row col x)
    (h' : DirectAt G row col x') : x = x' := by
  rcases h with ⟨c, _, v, hv, j, rfl, rfl, rfl⟩
  rcases h' with ⟨c', _, v', hv', j', hrow, hcol, rfl⟩
  rcases place_vec_inj hv hv' j.isLt j'.isLt hrow hcol with ⟨rfl, hj⟩
  rw [Fin.ext hj]

theorem agreement (hpos : 0 < G.numPeers) : Agreement G where
  published _ _ _ h := (inv_of_reaches hpos h).sound
  same _ _ _ _ h h' row col _ _ hx hx' :=
    directAt_unique ((inv_of_reaches hpos h).sound row col _ hx)
      ((inv_of_reaches hpos h').sound row col _ hx')

theorem completes (hpos : 0 < G.numPeers) (hle : G.numPeers ≤ 30) : Completes G := by
  intro early start w hw
  -- First all parts arrive,
  rcases exists_forall (Reaches (step early) always) (fun c (u : World G) => Visible u c)
    (reaches_refl _ _) (fun _ _ _ => reaches_trans) (fun c s t hr hv => hv.lasts hr)
    (List.range G.totalChunks) (s := w)
    (fun t _ c hc => exists_visible hpos hle (List.mem_range.mp hc) t) with ⟨t, ht, hall⟩
  -- then all CTAs come to their ends.
  have hends : ∃ u, Reaches (step early) always t u ∧ ∀ k, G.totalChunks ≤ (u.cta k).chunkId := by
    refine exists_goal (fun u => ∑ k, ctaLeft G (u.cta k)) fun s hs hnot => ?_
    rw [not_forall] at hnot
    rcases hnot with ⟨k, hk⟩
    have hlt := Nat.lt_of_not_le hk
    rcases cta_goes early hle hlt ((hall _ (List.mem_range.mpr hlt)).lasts hs) with
      ⟨a, u, hstep, hself, hother⟩
    exact ⟨a, u, trivial, hstep, sum_lt_of_one k hself fun i hi => by rw [hother i hi]⟩
  rcases hends with ⟨u, hu, hend⟩
  have hrun := reaches_trans ht hu
  have hinv := inv_of_reaches hpos (reaches_trans hw hrun)
  refine ⟨u, hrun, ?_⟩
  rintro row col x ⟨c, hc, v, hv, j, rfl, rfl, rfl⟩
  have hmod := Nat.mod_lt c G.numInterReduceStoreSms_pos
  exact hinv.done ⟨_, hmod⟩ c rfl (Nat.lt_of_lt_of_le hc (hend _)) v hv j

/-- With early accumulation the reducing CTAs publish what they publish without, namely
    the direct sums, whatever the buffer held and however the parts arrive; and
    up to thirty peers they can always publish all. -/
theorem early_eq_direct (G : Launch M) (hpos : 0 < G.numPeers) :
    Agreement G ∧ (G.numPeers ≤ 30 → Completes G) :=
  ⟨agreement hpos, completes hpos⟩

/-- One tile on one GPU, of some number of nodes. The all-reduce leaves ones. -/
def oneTile (numNodes : Nat) : Launch Nat where
  shape := ⟨128, 256, 1, 0⟩
  devIdx := 0
  numNodes := numNodes
  numInterReduceStoreSms := 1
  reduced := fun _ => 1
  sent := fun _ => 0
  numInterReduceStoreSms_pos := Nat.one_pos

/-- Two chunks of two tiles and two reducing CTAs, on one of four nodes. The local part
    tells the row, and what a peer sends tells the peer and the tile. -/
def fourNodes : Launch Nat where
  shape := ⟨256, 512, 1, 0⟩
  devIdx := 0
  numNodes := 4
  numInterReduceStoreSms := 2
  reduced := fun i => i / 512
  sent := fun i => 10 + i / 32768
  numInterReduceStoreSms_pos := Nat.two_pos

/-- A buffer with something in it. -/
def dirty : Contents Nat where
  cLocal := fun _ => 0
  cRecv := fun _ => 0
  accum := fun _ => 7

/-- On four nodes a run with early accumulation publishes the sum for an element of the
    second chunk, and no run without publishes another. -/
theorem early_eq_direct_fourNodes :
    (∃ u, Reaches (step true) always (init fourNodes dirty) u ∧ u.final 128 256 = some 179) ∧
    ∀ (start : Contents Nat) (w : World fourNodes),
      Reaches (step false) always (init fourNodes start) w →
      ∀ x, w.final 128 256 = some x → x = 179 := by
  rcases early_eq_direct fourNodes (by decide) with ⟨hagree, hcompletes⟩
  have hmem : (⟨1, 1, 0, 0⟩ : Vec) ∈ fourNodes.chunkVecs 1 := mem_chunkVecs.mpr (by decide)
  -- The local part is 128, and the peers send 13, 17 and 21.
  have hsum : direct fourNodes ⟨1, 1, 0, 0⟩ 0 = 179 := by decide +kernel
  rcases hcompletes (by decide) true dirty _ (reaches_refl _ _ _) with ⟨u, hu, hall⟩
  have hout := hall 128 256 _ ⟨1, by decide, _, hmem, 0, rfl, rfl, rfl⟩
  refine ⟨⟨u, hu, hout.trans (congrArg some hsum)⟩, fun start w hw x hx => ?_⟩
  exact (hagree.same dirty start u w hu hw 128 256 _ x hout hx).symm.trans hsum

/-- Without a peer the first element is published with what was in the buffer. -/
def alone : World (oneTile 1) :=
  (run (step true) always [.reduceLocal 0, .poll ⟨0, Nat.one_pos⟩,
    .vec ⟨0, Nat.one_pos⟩ ⟨0, 0, 0, 0⟩] (init (oneTile 1) dirty)).get (by decide +kernel)

/-- With more than thirty peers nothing is published early. -/
theorem none_published (h : 30 < G.numPeers) {start : Contents M} {w : World G}
    (hw : Reaches (step true) always (init G start) w) (row col : Nat) :
    w.final row col = none := by
  have hpos : 0 < G.numPeers := by omega
  refine (invariant_of_reaches (fun u => Inv true u ∧ ∀ row col, u.final row col = none) ?_ hw
    ⟨inv_init true start, fun _ _ => rfl⟩).2 row col
  rintro s a t ⟨hinv, hnone⟩ _ hstep
  refine ⟨inv_step hpos hinv hstep, ?_⟩
  cases a with
  | reduceLocal c =>
      simp only [step, Option.ite_none_right_eq_some, Option.some.injEq] at hstep
      exact hstep.2 ▸ hnone
  | arrive p c =>
      simp only [step, Option.ite_none_right_eq_some, Option.some.injEq] at hstep
      exact hstep.2 ▸ hnone
  | flag c =>
      simp only [step, Option.ite_none_right_eq_some, Option.some.injEq] at hstep
      exact hstep.2 ▸ hnone
  | poll k =>
      simp only [step, Option.ite_none_right_eq_some, Option.some.injEq] at hstep
      exact hstep.2 ▸ hnone
  | next k =>
      simp only [step] at hstep
      rcases Option.map_eq_some_iff.mp hstep with ⟨k', _, rfl⟩
      exact hnone
  | vec k v =>
      simp only [step] at hstep
      cases hphase : (s.cta k).phase with
      | polling => simp only [hphase, reduceCtorEq] at hstep
      | peers n r p => simp only [hphase, reduceCtorEq] at hstep
      | accumulating n r p todo =>
          simp only [hphase, Option.ite_none_right_eq_some, Option.some.injEq] at hstep
          exact hstep.2 ▸ hnone
      | publishing todo =>
          -- The CTA would have met a peer whose bit no drainer sets.
          have hk := hinv.phase k
          rw [PhaseInv, hphase] at hk
          have hlast := (hk.2.2.2.1 rfl).1 (mem_voters_fullPeerMask h)
          have hlt := (hinv.arrived _ 31 (hinv.met k hlast)).2.1
          exact absurd hlt (Nat.lt_irrefl 31)

/-- Without a peer what is published early need not be the sum, and with thirty-one
    peers nothing is published early. -/
theorem early_limits : (oneTile 1).numPeers = 0 ∧ ¬ Agreement (oneTile 1) ∧
    (oneTile 32).numPeers = 31 ∧ ¬ Completes (oneTile 32) := by
  refine ⟨rfl, fun h => ?_, rfl, fun h => ?_⟩
  · have hfinal : alone.final 0 0 = some 8 := by decide +kernel
    rcases h.published true dirty alone (reaches_of_run _ _ _ (Option.some_get _).symm) 0 0 8
      hfinal with ⟨c, _, v, _, j, _, _, heq⟩
    have hone : direct (oneTile 1) v j = 1 := rfl
    rw [hone] at heq
    exact absurd heq (by decide)
  · rcases h true dirty _ (reaches_refl _ _ _) with ⟨u, hu, hall⟩
    have hmem : (⟨0, 0, 0, 0⟩ : Vec) ∈ (oneTile 32).chunkVecs 0 := mem_chunkVecs.mpr (by decide)
    have hdirect := hall 0 0 _ ⟨0, by decide, _, hmem, 0, rfl, rfl, rfl⟩
    rw [none_published (by decide) hu] at hdirect
    exact absurd hdirect (by simp only [reduceCtorEq, not_false_eq_true])

end EarlyAccum

end GemmAr

end MKernel
