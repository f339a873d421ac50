import MKernel.Core.SmallNumbers
import MKernel.GemmAr.EarlyAccum

/-!
# What is Published is the Direct Sum

What the reducing CTAs of `gemm_ar` publish, with early accumulation and without.

While a CTA is at a chunk, the buffer holds the sum of the parts of those peers whose
bits it has taken over into its mask, in every vector of the chunk; in the middle of a
peer's pass the vectors no thread has come to are still without that peer
(`PhaseInv`). Before the first pass the buffer holds whatever it held, which is why a
sum is promised for a mask that is not zero only. A peer is met once because a round
takes up no peer the mask already has. And what is read of a part is what the peer has
sent because its bit is set after it has arrived.

So what is published is the direct sum, in either path, in whatever order the parts
arrive and in whatever groups the CTA comes to see them (`value_eq`). Without a peer
this fails: there is no first part then to overwrite the buffer with.

## Main definitions

* `DirectAt`: An element of the output and the direct sum for it.
* `PhaseInv`: What is known of a CTA where it stands.
* `Inv`: What holds in every reachable state.

## Theorems

* `value_eq`: What is published is the direct sum.
* `inv_step`: Every step keeps the invariant.
-/

namespace MKernel

namespace GemmAr

namespace EarlyAccum

open MKernel.Core

variable {M : Type*} {G : Launch M}

/-! ## Loads and stores -/

theorem loadVec8_storeVec8_self (mem : Nat → M) (a : Nat) (x : Fin 8 → M) :
    loadVec8 (storeVec8 mem a x) a = x := by
  funext j
  have hin : a ≤ a + j.val ∧ a + j.val < a + 8 := ⟨Nat.le_add_right _ _, by omega⟩
  rw [loadVec8, storeVec8, dif_pos hin]
  congr 1
  exact Fin.ext (Nat.add_sub_cancel_left _ _)

theorem loadVec8_storeVec8_of_ne (mem : Nat → M) {a b : Nat} (x : Fin 8 → M)
    (hne : ∀ j j' : Fin 8, b + j.val ≠ a + j'.val) :
    loadVec8 (storeVec8 mem a x) b = loadVec8 mem b := by
  funext j
  rw [loadVec8, storeVec8, dif_neg]
  · rfl
  · rintro ⟨hle, hlt⟩
    exact hne j ⟨b + j - a, by omega⟩ (by dsimp only; omega)

/-- What arrives is there, and what was there stays if it is the same. -/
theorem loadVec8_ite {mem sent : Nat → M} {In : Nat → Prop} [DecidablePred In] {a : Nat}
    (h : (∀ j : Fin 8, In (a + j)) ∨ loadVec8 mem a = loadVec8 sent a) :
    loadVec8 (fun i => if In i then sent i else mem i) a = loadVec8 sent a := by
  funext j
  rw [loadVec8, loadVec8]
  by_cases hin : In (a + j)
  · rw [if_pos hin]
  · rw [if_neg hin]
    rcases h with h | h
    · exact absurd (h j) hin
    · exact congrFun h j

theorem publishFinalVec8_self (final : Nat → Nat → Option M) (v : Vec) (ov : Fin 8 → M)
    (j : Fin 8) :
    publishFinalVec8 G final v ov (G.globalRow v) (v.globalCol + j) = some (ov j) := by
  have hin : G.globalRow v = G.globalRow v ∧ v.globalCol ≤ v.globalCol + j.val ∧
      v.globalCol + j.val < v.globalCol + 8 := ⟨rfl, Nat.le_add_right _ _, by omega⟩
  rw [publishFinalVec8, dif_pos hin]
  congr 2
  exact Fin.ext (Nat.add_sub_cancel_left _ _)

/-- A multicast changes an element only to the one at its place in the vector. -/
theorem publishFinalVec8_cases (final : Nat → Nat → Option M) (v : Vec) (ov : Fin 8 → M)
    (row col : Nat) : publishFinalVec8 G final v ov row col = final row col ∨
      ∃ j : Fin 8, row = G.globalRow v ∧ col = v.globalCol + j ∧
        publishFinalVec8 G final v ov row col = some (ov j) := by
  by_cases hin : row = G.globalRow v ∧ v.globalCol ≤ col ∧ col < v.globalCol + 8
  · refine Or.inr ⟨⟨col - v.globalCol, by omega⟩, hin.1, by dsimp only; omega, ?_⟩
    rw [publishFinalVec8, dif_pos hin]
  · rw [publishFinalVec8, dif_neg hin]
    exact Or.inl rfl

/-! ## Masks -/

theorem mem_voters_peerBit {p i : Nat} : i ∈ voters (Launch.peerBit p) ↔ i = p ∧ p < 31 := by
  rw [Launch.peerBit]
  by_cases hp : p < 31
  · rw [if_pos hp, voters_bit (by omega), Finset.mem_singleton]
    exact (and_iff_left hp).symm
  · rw [if_neg hp, voters_zero]
    exact iff_of_false (Finset.notMem_empty i) fun h => hp h.2

theorem voters_below : ∀ n < 31, voters ((1#32 <<< n) - 1#32) = Finset.range n := by
  intro n hn
  have hpow : 2 ^ n < 2 ^ 32 := Nat.pow_lt_pow_right (by decide) (by omega)
  have hbit : (1#32 <<< n).toNat = 2 ^ n := by
    rw [BitVec.toNat_shiftLeft, BitVec.toNat_ofNat, Nat.shiftLeft_eq, Nat.one_mod,
      Nat.one_mul, Nat.mod_eq_of_lt hpow]
  have hval : ((1#32 <<< n) - 1#32).toNat = 2 ^ n - 1 := by
    rw [BitVec.toNat_sub_of_le (by rw [BitVec.le_def, hbit]; exact Nat.two_pow_pos n), hbit]
    rfl
  ext i
  rw [mem_voters, Finset.mem_range, ← BitVec.testBit_toNat, hval, Nat.testBit_two_pow_sub_one,
    decide_eq_true_iff]

/-- The mask that is waited for. -/
theorem voters_fullPeerMask (h : G.numPeers ≤ 30) :
    voters G.fullPeerMask = Finset.range G.numPeers := by
  rw [Launch.numPeers] at h
  rw [Launch.fullPeerMask, if_neg (by omega)]
  exact voters_below _ (by omega)

/-- Beyond thirty peers it has the bit that no drainer sets. -/
theorem mem_voters_fullPeerMask (h : 30 < G.numPeers) : 31 ∈ voters G.fullPeerMask := by
  rw [Launch.numPeers] at h
  rw [Launch.fullPeerMask, if_pos (by omega)]
  decide

variable [AddCommMonoid M]

theorem sumLocalAndRemoteVec8_eq (cRecv : Nat → M) (v : Vec) (lv : Fin 8 → M) :
    sumLocalAndRemoteVec8 G cRecv v lv =
      lv + ∑ p ∈ Finset.range G.numPeers, loadVec8 cRecv (G.recvAt p v) := by
  rw [sumLocalAndRemoteVec8]
  induction G.numPeers with
  | zero => rw [List.range_zero, List.foldl_nil, Finset.sum_range_zero, add_zero]
  | succ n ih =>
      rw [List.range_succ, List.foldl_append, ih, List.foldl_cons, List.foldl_nil,
        Finset.sum_range_succ, add_assoc]

/-! ## The invariant -/

/-- An element of the output and the direct sum for it. -/
def DirectAt (G : Launch M) (row col : Nat) (x : M) : Prop :=
  ∃ c < G.totalChunks, ∃ v ∈ G.chunkVecs c, ∃ j : Fin 8,
    row = G.globalRow v ∧ col = v.globalCol + j ∧ x = direct G v j

/-- If there are any peers in the mask, the buffer has the sum of their parts. -/
def Holds (w : World G) (P : Finset Nat) (v : Vec) : Prop :=
  P.Nonempty → loadVec8 w.accum (G.accumAt v) = ∑ p ∈ P, loadVec8 G.sent (G.recvAt p v)

/-- The direct sum of a vector is published. -/
def Out (w : World G) (v : Vec) : Prop :=
  ∀ j : Fin 8, w.final (G.globalRow v) (v.globalCol + j) = some (direct G v j)

/-- What is known in a round of new peers. -/
structure Round (w : World G) (k : Cta) (newPeerMask : BitVec 32) (readyToPublish : Bool)
    (peerSlot : Nat) : Prop where
  new_arrived : voters newPeerMask ⊆ voters (w.remoteArrivedPeerMask k.chunkId)
  met_iff : ∀ p ∈ voters newPeerMask, p ∈ voters k.processedPeerMask ↔ p < peerSlot
  ready_local : readyToPublish = true → w.localDoneFlag k.chunkId = 1
  ready_full : readyToPublish = true →
    voters G.fullPeerMask ⊆ voters k.processedPeerMask ∪ voters newPeerMask

/-- What is known of a CTA where it stands. -/
def PhaseInv (early : Bool) (w : World G) (k : Cta) : Prop :=
  match k.phase with
  | .polling => ∀ v ∈ G.chunkVecs k.chunkId, Holds w (voters k.processedPeerMask) v
  | .peers newPeerMask readyToPublish peerSlot =>
      early = true ∧ Round w k newPeerMask readyToPublish peerSlot ∧
      ∀ v ∈ G.chunkVecs k.chunkId, Holds w (voters k.processedPeerMask) v
  | .accumulating newPeerMask readyToPublish peerSlot todo =>
      early = true ∧ Round w k newPeerMask readyToPublish peerSlot ∧
      peerSlot ∈ voters newPeerMask ∧ todo.Nodup ∧ todo ⊆ G.chunkVecs k.chunkId ∧
      ∀ v ∈ G.chunkVecs k.chunkId, Holds w
        (if v ∈ todo then voters k.processedPeerMask
          else insert peerSlot (voters k.processedPeerMask)) v
  | .publishing todo =>
      todo.Nodup ∧ todo ⊆ G.chunkVecs k.chunkId ∧ w.localDoneFlag k.chunkId = 1 ∧
      (early = true → voters G.fullPeerMask ⊆ voters k.processedPeerMask ∧
        ∀ v ∈ G.chunkVecs k.chunkId, Holds w (voters k.processedPeerMask) v) ∧
      (early = false → w.remoteArrivedFlag k.chunkId ≠ 0) ∧
      ∀ v ∈ G.chunkVecs k.chunkId, v ∉ todo → Out w v

/-- What holds in every reachable state. -/
structure Inv (early : Bool) (w : World G) : Prop where
  arrived : ∀ c, ∀ p ∈ voters (w.remoteArrivedPeerMask c), p < G.numPeers ∧ p < 31 ∧
    ∀ v ∈ G.chunkVecs c, loadVec8 w.cRecv (G.recvAt p v) = loadVec8 G.sent (G.recvAt p v)
  reduced : ∀ c, w.localDoneFlag c = 1 → ∀ v ∈ G.chunkVecs c,
    loadVec8 w.cLocal (G.globalElem v) = loadVec8 G.reduced (G.globalElem v)
  flagged : ∀ c, w.remoteArrivedFlag c ≠ 0 →
    Finset.range G.numPeers ⊆ voters (w.remoteArrivedPeerMask c)
  own : ∀ k, (w.cta k).chunkId % G.numInterReduceStoreSms = k
  met : ∀ k, voters (w.cta k).processedPeerMask ⊆
    voters (w.remoteArrivedPeerMask (w.cta k).chunkId)
  phase : ∀ k, PhaseInv early w (w.cta k)
  busy : ∀ k, (w.cta k).phase ≠ .polling → (w.cta k).chunkId < G.totalChunks
  done : ∀ (k : Fin G.numInterReduceStoreSms) (c : Nat), c % G.numInterReduceStoreSms = k →
    c < (w.cta k).chunkId → ∀ v ∈ G.chunkVecs c, Out w v
  sound : ∀ row col x, w.final row col = some x → DirectAt G row col x

section Invariant

variable {early : Bool} {w w' : World G} {k : Fin G.numInterReduceStoreSms}

theorem inv_init (early : Bool) (start : Contents M) : Inv early (init G start) where
  arrived c p hp := by
    have hnone : p ∈ voters (0 : BitVec 32) := hp
    rw [voters_zero] at hnone
    exact absurd hnone (Finset.notMem_empty p)
  reduced _ h := absurd h (by simp only [init, zero_ne_one, not_false_eq_true])
  flagged _ h := absurd rfl h
  own k := Nat.mod_eq_of_lt k.isLt
  met k p hp := by
    have hnone : p ∈ voters (0 : BitVec 32) := hp
    rw [voters_zero] at hnone
    exact absurd hnone (Finset.notMem_empty p)
  phase k v _ hne := absurd rfl (voters_nonempty_iff.mp hne)
  busy _ h := absurd rfl h
  done k c hc hlt := by
    -- The first chunk of the CTA is the least of its own.
    have hle := Nat.mod_le c G.numInterReduceStoreSms
    have hk : c < k.val := hlt
    omega
  sound _ _ _ h := absurd h (by simp only [init, reduceCtorEq, not_false_eq_true])

/-- What is known of a CTA stays known if nothing is taken back and its chunk is left
    alone. -/
theorem PhaseInv.frame {k : Cta}
    (hmask : voters (w.remoteArrivedPeerMask k.chunkId) ⊆
      voters (w'.remoteArrivedPeerMask k.chunkId))
    (hlocal : w.localDoneFlag k.chunkId = 1 → w'.localDoneFlag k.chunkId = 1)
    (hflag : w.remoteArrivedFlag k.chunkId ≠ 0 → w'.remoteArrivedFlag k.chunkId ≠ 0)
    (haccum : ∀ v ∈ G.chunkVecs k.chunkId,
      loadVec8 w'.accum (G.accumAt v) = loadVec8 w.accum (G.accumAt v))
    (hout : ∀ v ∈ G.chunkVecs k.chunkId, Out w v → Out w' v) (h : PhaseInv early w k) :
    PhaseInv early w' k := by
  -- What is held in `accum` is about the chunk, where it is unchanged.
  have hholds : ∀ v ∈ G.chunkVecs k.chunkId, ∀ P, Holds w P v → Holds w' P v := by
    intro v hv P hP hne
    rw [haccum v hv]
    exact hP hne
  have hround : ∀ n r s, Round w k n r s → Round w' k n r s := fun n r s hr =>
    { hr with
      new_arrived := hr.new_arrived.trans hmask
      ready_local := fun hready => hlocal (hr.ready_local hready) }
  unfold PhaseInv at h ⊢
  -- In each phase these two are all that the CTA relies on.
  cases hphase : k.phase with
  | polling =>
      rw [hphase] at h
      exact fun v hv => hholds v hv _ (h v hv)
  | peers n r s =>
      rw [hphase] at h
      exact ⟨h.1, hround n r s h.2.1, fun v hv => hholds v hv _ (h.2.2 v hv)⟩
  | accumulating n r s todo =>
      rw [hphase] at h
      rcases h with ⟨he, hr, hs, hnodup, hsub, hv⟩
      exact ⟨he, hround n r s hr, hs, hnodup, hsub, fun v hmem => hholds v hmem _ (hv v hmem)⟩
  | publishing todo =>
      rw [hphase] at h
      rcases h with ⟨hnodup, hsub, hl, hearly, hdirect, hv⟩
      exact ⟨hnodup, hsub, hlocal hl,
        fun he => ⟨(hearly he).1, fun v hmem => hholds v hmem _ ((hearly he).2 v hmem)⟩,
        fun he => hflag (hdirect he), fun v hmem hnot => hout v hmem (hv v hmem hnot)⟩

/-- What the environment does takes nothing back and touches no CTA. -/
theorem Inv.environment (h : Inv early w) (hcta : w'.cta = w.cta) (haccum : w'.accum = w.accum)
    (hfinal : w'.final = w.final)
    (hmask : ∀ c, voters (w.remoteArrivedPeerMask c) ⊆ voters (w'.remoteArrivedPeerMask c))
    (hlocal : ∀ c, w.localDoneFlag c = 1 → w'.localDoneFlag c = 1)
    (hflag : ∀ c, w.remoteArrivedFlag c ≠ 0 → w'.remoteArrivedFlag c ≠ 0)
    (harrived : ∀ c, ∀ p ∈ voters (w'.remoteArrivedPeerMask c), p < G.numPeers ∧ p < 31 ∧
      ∀ v ∈ G.chunkVecs c, loadVec8 w'.cRecv (G.recvAt p v) = loadVec8 G.sent (G.recvAt p v))
    (hreduced : ∀ c, w'.localDoneFlag c = 1 → ∀ v ∈ G.chunkVecs c,
      loadVec8 w'.cLocal (G.globalElem v) = loadVec8 G.reduced (G.globalElem v))
    (hflagged : ∀ c, w'.remoteArrivedFlag c ≠ 0 →
      Finset.range G.numPeers ⊆ voters (w'.remoteArrivedPeerMask c)) : Inv early w' where
  arrived := harrived
  reduced := hreduced
  flagged := hflagged
  own k := by
    rw [hcta]
    exact h.own k
  met k := by
    rw [hcta]
    exact (h.met k).trans (hmask _)
  phase k := by
    -- The CTAs are where they were, and what they rely on is only added to.
    rw [hcta]
    refine (h.phase k).frame (hmask _) (hlocal _) (hflag _) (fun v _ => by rw [haccum]) ?_
    intro v _ hout j
    rw [hfinal]
    exact hout j
  busy k := by
    rw [hcta]
    exact h.busy k
  -- The output is not the environment's.
  done k c hc hlt v hv j := by
    rw [hcta] at hlt
    rw [hfinal]
    exact h.done k c hc hlt v hv j
  sound row col x hx := by
    rw [hfinal] at hx
    exact h.sound row col x hx

theorem inv_reduceLocal (h : Inv early w) {c : Nat}
    (hstep : step early w (.reduceLocal c) = some w') : Inv early w' := by
  simp only [step] at hstep
  by_cases hc : c < G.totalChunks
  · rw [if_pos hc] at hstep
    rcases Option.some.inj hstep with rfl
    refine h.environment rfl rfl rfl (fun _ => subset_rfl) ?_ (fun _ => id) h.arrived ?_ h.flagged
    · intro d hd
      by_cases hdc : d = c
      · rw [hdc]
        exact Function.update_self _ _ _
      · exact (Function.update_of_ne hdc _ _).trans hd
    · intro d hd v hv
      refine loadVec8_ite ?_
      by_cases hdc : d = c
      · exact Or.inl fun j => hdc ▸ inLocal_of_mem hv j
      · exact Or.inr (h.reduced d ((Function.update_of_ne hdc _ _).symm.trans hd) v hv)
  · rw [if_neg hc] at hstep
    exact absurd hstep (by simp only [reduceCtorEq, not_false_eq_true])

theorem inv_arrive (h : Inv early w) {p c : Nat} (hstep : step early w (.arrive p c) = some w') :
    Inv early w' := by
  simp only [step] at hstep
  by_cases hpc : p < G.numPeers ∧ c < G.totalChunks
  · rw [if_pos hpc] at hstep
    rcases Option.some.inj hstep with rfl
    -- The mask of the chunk has the peer's bit besides, if the peer has one.
    have hmask : ∀ d q, q ∈ voters (Function.update w.remoteArrivedPeerMask c
        (w.remoteArrivedPeerMask c ||| Launch.peerBit p) d) ↔
        q ∈ voters (w.remoteArrivedPeerMask d) ∨ d = c ∧ q = p ∧ p < 31 := by
      intro d q
      by_cases hdc : d = c
      · rw [hdc, Function.update_self, voters_or, Finset.mem_union, mem_voters_peerBit]
        exact or_congr_right (and_iff_right rfl).symm
      · rw [Function.update_of_ne hdc]
        exact (or_iff_left fun hd => hdc hd.1).symm
    have hsub : ∀ d, voters (w.remoteArrivedPeerMask d) ⊆ voters (Function.update
        w.remoteArrivedPeerMask c (w.remoteArrivedPeerMask c ||| Launch.peerBit p) d) :=
      fun d q hq => (hmask d q).mpr (Or.inl hq)
    refine h.environment rfl rfl rfl hsub (fun _ => id) (fun _ => id) ?_ h.reduced
      fun d hd => (h.flagged d hd).trans (hsub d)
    intro d q hq
    rcases (hmask d q).mp hq with hq | ⟨rfl, rfl, hlt⟩
    · rcases h.arrived d q hq with ⟨hn, hb, hload⟩
      exact ⟨hn, hb, fun v hv => loadVec8_ite (Or.inr (hload v hv))⟩
    · exact ⟨hpc.1, hlt, fun v hv => loadVec8_ite (Or.inl fun j => inRecv_of_mem hv q j)⟩
  · rw [if_neg hpc] at hstep
    exact absurd hstep (by simp only [reduceCtorEq, not_false_eq_true])

theorem inv_flag (h : Inv early w) {c : Nat} (hstep : step early w (.flag c) = some w') :
    Inv early w' := by
  simp only [step] at hstep
  by_cases hc : 0 < G.numPeers ∧ G.numPeers ≤ (w.remoteArrivedPeerMask c).cpop.toNat
  · rw [if_pos hc] at hstep
    rcases Option.some.inj hstep with rfl
    have hall : Finset.range G.numPeers ⊆ voters (w.remoteArrivedPeerMask c) := by
      -- Only peers have bits, so as many bits as peers are those of all.
      have hsub : voters (w.remoteArrivedPeerMask c) ⊆ Finset.range G.numPeers :=
        fun p hp => Finset.mem_range.mpr (h.arrived c p hp).1
      rw [cpop_toNat] at hc
      rw [Finset.eq_of_subset_of_card_le hsub (by rw [Finset.card_range]; exact hc.2)]
    have hset : ∀ d, Function.update w.remoteArrivedFlag c 1 d ≠ 0 ↔
        d = c ∨ w.remoteArrivedFlag d ≠ 0 := by
      intro d
      by_cases hdc : d = c
      · rw [hdc, Function.update_self]
        exact iff_of_true one_ne_zero (Or.inl rfl)
      · rw [Function.update_of_ne hdc]
        exact (or_iff_right hdc).symm
    refine h.environment rfl rfl rfl (fun _ => subset_rfl) (fun _ => id)
      (fun d hd => (hset d).mpr (Or.inr hd)) h.arrived h.reduced ?_
    intro d hd
    rcases (hset d).mp hd with rfl | hd
    · exact hall
    · exact h.flagged d hd
  · rw [if_neg hc] at hstep
    exact absurd hstep (by simp only [reduceCtorEq, not_false_eq_true])

/-- A CTA goes on, and what it touches besides is its own chunk. -/
theorem Inv.setCta (h : Inv early w) {k' : Cta} {accum : Nat → M}
    {final : Nat → Nat → Option M} {n : Nat}
    (haccum : ∀ c, c ≠ (w.cta k).chunkId → ∀ v ∈ G.chunkVecs c,
      loadVec8 accum (G.accumAt v) = loadVec8 w.accum (G.accumAt v))
    (hout : ∀ c, ∀ v ∈ G.chunkVecs c, Out w v →
      ∀ j : Fin 8, final (G.globalRow v) (v.globalCol + j) = some (direct G v j))
    (hsound : ∀ row col x, final row col = some x → DirectAt G row col x)
    (hown : k'.chunkId % G.numInterReduceStoreSms = k)
    (hmet : voters k'.processedPeerMask ⊆ voters (w.remoteArrivedPeerMask k'.chunkId))
    (hphase : PhaseInv early { w.setCta k k' with
      accum := accum
      final := final
      publishedChunks := n } k')
    (hbusy : k'.phase ≠ .polling → k'.chunkId < G.totalChunks)
    (hdone : ∀ c, c % G.numInterReduceStoreSms = k → c < k'.chunkId →
      c < (w.cta k).chunkId ∨ c = (w.cta k).chunkId ∧
        ∀ v ∈ G.chunkVecs (w.cta k).chunkId, Out w v) :
    Inv early { w.setCta k k' with
      accum := accum
      final := final
      publishedChunks := n } where
  arrived := h.arrived
  reduced := h.reduced
  flagged := h.flagged
  own i := by
    by_cases hi : i = k
    · simp only [World.setCta, hi, Function.update_self]
      exact hown
    · simp only [World.setCta, Function.update_of_ne hi]
      exact h.own i
  met i := by
    by_cases hi : i = k
    · simp only [World.setCta, hi, Function.update_self]
      exact hmet
    · simp only [World.setCta, Function.update_of_ne hi]
      exact h.met i
  phase i := by
    by_cases hi : i = k
    · simp only [World.setCta, hi, Function.update_self]
      exact hphase
    · -- Another CTA is at another chunk.
      have hchunk : (w.cta i).chunkId ≠ (w.cta k).chunkId := by
        intro heq
        have hmod := h.own i
        rw [heq, h.own k] at hmod
        exact hi (Fin.ext hmod.symm)
      simp only [World.setCta, Function.update_of_ne hi]
      refine PhaseInv.frame (w := w) subset_rfl id id ?_ ?_ (h.phase i)
      · exact haccum _ hchunk
      · exact hout _
  busy i := by
    by_cases hi : i = k
    · simp only [World.setCta, hi, Function.update_self]
      exact hbusy
    · simp only [World.setCta, Function.update_of_ne hi]
      exact h.busy i
  done i c hc hlt v hv := by
    by_cases hi : i = k
    · simp only [World.setCta, hi, Function.update_self] at hlt hc
      rcases hdone c hc hlt with hbefore | ⟨rfl, hall⟩
      · exact hout c v hv (h.done k c hc hbefore v hv)
      · exact hout _ v hv (hall v hv)
    · simp only [World.setCta, Function.update_of_ne hi] at hlt
      exact hout c v hv (h.done i c hc hlt v hv)
  sound := hsound

/-- A CTA goes on at its chunk, and touches nothing. -/
theorem Inv.goOn (h : Inv early w) (k' : Cta) (hchunk : k'.chunkId = (w.cta k).chunkId)
    (hmet : voters k'.processedPeerMask ⊆ voters (w.remoteArrivedPeerMask (w.cta k).chunkId))
    (hlt : (w.cta k).chunkId < G.totalChunks) (hphase : PhaseInv early w k') (n : Nat) :
    Inv early { w.setCta k k' with publishedChunks := n } := by
  refine h.setCta (fun _ _ _ _ => rfl) (fun _ _ _ => id) h.sound (hchunk ▸ h.own k)
    (hchunk ▸ hmet) ?_ (fun _ => hchunk ▸ hlt) (fun _ _ hbefore => Or.inl (hchunk ▸ hbefore))
  exact PhaseInv.frame (w := w) subset_rfl id id (fun _ _ => rfl) (fun _ _ => id) hphase

theorem subset_of_phase (h : PhaseInv early w (w.cta k)) {todo : List Vec}
    (hphase : (w.cta k).phase = .publishing todo) : todo ⊆ G.chunkVecs (w.cta k).chunkId := by
  rw [PhaseInv, hphase] at h
  exact h.2.1

/-- What is published is the direct sum. -/
theorem value_eq (h : Inv early w) (hpeers : 0 < G.numPeers) {todo : List Vec}
    (hphase : (w.cta k).phase = .publishing todo) {v : Vec} (hv : v ∈ todo) :
    (if early then sumLocalAndAccumVec8 G w.accum v (loadVec8 w.cLocal (G.globalElem v))
      else sumLocalAndRemoteVec8 G w.cRecv v (loadVec8 w.cLocal (G.globalElem v))) =
      direct G v := by
  have hmem := subset_of_phase (h.phase k) hphase hv
  have hinv := h.phase k
  rw [PhaseInv, hphase] at hinv
  rcases hinv with ⟨_, _, hlocal, hearly, hdirect, _⟩
  rw [h.reduced _ hlocal v hmem]
  cases early with
  | false =>
      rw [if_neg Bool.false_ne_true, sumLocalAndRemoteVec8_eq, direct]
      congr 1
      refine Finset.sum_congr rfl fun p hp => ?_
      exact (h.arrived _ p (h.flagged _ (hdirect rfl) hp)).2.2 v hmem
  | true =>
      rcases hearly rfl with ⟨hfull, hholds⟩
      have hmet : ∀ p ∈ voters (w.cta k).processedPeerMask, p < G.numPeers ∧ p < 31 := fun p hp =>
        ⟨(h.arrived _ p (h.met k hp)).1, (h.arrived _ p (h.met k hp)).2.1⟩
      -- There is no bit for a thirty-second peer, so there are no more than thirty.
      have hle : G.numPeers ≤ 30 := by
        by_contra hmore
        have hlast := (hmet 31 (hfull (mem_voters_fullPeerMask (by omega)))).2
        omega
      have hall : voters (w.cta k).processedPeerMask = Finset.range G.numPeers := by
        refine Finset.Subset.antisymm (fun p hp => Finset.mem_range.mpr (hmet p hp).1) ?_
        rw [← voters_fullPeerMask hle]
        exact hfull
      have hne : (voters (w.cta k).processedPeerMask).Nonempty := by
        rw [hall]
        exact Finset.nonempty_range_iff.mpr (by omega)
      rw [if_pos rfl, sumLocalAndAccumVec8, direct, hholds v hmem hne, hall]

theorem inv_poll (h : Inv early w) (hstep : step early w (.poll k) = some w') : Inv early w' := by
  simp only [step] at hstep
  by_cases hpoll : (w.cta k).chunkId < G.totalChunks ∧ (w.cta k).phase = .polling
  · rw [if_pos hpoll] at hstep
    rcases Option.some.inj hstep with rfl
    have hinv := h.phase k
    rw [PhaseInv, hpoll.2] at hinv
    -- A look changes nothing but where the CTA stands.
    have hgo : ∀ phase : Phase, PhaseInv early w { w.cta k with phase := phase } →
        Inv early (w.setCta k { w.cta k with phase := phase }) :=
      fun phase hphase => h.goOn { w.cta k with phase := phase } rfl (h.met k) hpoll.1 hphase _
    have hstay : Inv early (w.setCta k (w.cta k)) := hgo (w.cta k).phase (h.phase k)
    rw [Cta.afterPoll]
    cases early with
    | false =>
        rw [if_neg Bool.false_ne_true]
        by_cases hdone : w.remoteArrivedFlag (w.cta k).chunkId ≠ 0 ∧
            w.localDoneFlag (w.cta k).chunkId = 1
        · rw [if_pos hdone]
          refine hgo _ ⟨nodup_chunkVecs _, List.Subset.refl _, hdone.2, ?_, fun _ => hdone.1, ?_⟩
          · exact fun he => absurd he Bool.false_ne_true
          · exact fun v hv hnot => absurd hv hnot
        · rw [if_neg hdone]
          exact hstay
    | true =>
        simp only [if_true]
        -- The round takes up the bits the mask does not have, and knows if these are all.
        have hnew : ∀ p, p ∈ voters (w.remoteArrivedPeerMask (w.cta k).chunkId &&&
            ~~~(w.cta k).processedPeerMask) ↔
            p ∈ voters (w.remoteArrivedPeerMask (w.cta k).chunkId) ∧
              p ∉ voters (w.cta k).processedPeerMask := fun p => mem_voters_and_not
        generalize w.remoteArrivedPeerMask (w.cta k).chunkId &&&
          ~~~(w.cta k).processedPeerMask = newPeerMask at hnew ⊢
        have hready : (decide (w.localDoneFlag (w.cta k).chunkId = 1) &&
            decide (((w.cta k).processedPeerMask ||| newPeerMask) &&& G.fullPeerMask =
              G.fullPeerMask)) = true →
            w.localDoneFlag (w.cta k).chunkId = 1 ∧
              voters G.fullPeerMask ⊆
                voters (w.cta k).processedPeerMask ∪ voters newPeerMask := by
          intro hr
          rw [Bool.and_eq_true, decide_eq_true_eq, decide_eq_true_eq, and_eq_right_iff,
            voters_or] at hr
          exact hr
        by_cases hzero : newPeerMask ≠ 0
        · rw [if_pos hzero]
          refine hgo _ ⟨rfl, ⟨fun p hp => ((hnew p).mp hp).1, fun p hp => ?_,
            fun hr => (hready hr).1, fun hr => (hready hr).2⟩, hinv⟩
          exact iff_of_false ((hnew p).mp hp).2 (Nat.not_lt_zero p)
        · rw [if_neg hzero]
          by_cases hr : (decide (w.localDoneFlag (w.cta k).chunkId = 1) &&
              decide (((w.cta k).processedPeerMask ||| newPeerMask) &&& G.fullPeerMask =
                G.fullPeerMask)) = true
          · rw [if_pos hr]
            rcases hready hr with ⟨hlocal, hfull⟩
            rw [not_not.mp hzero, voters_zero, Finset.union_empty] at hfull
            exact hgo _ ⟨nodup_chunkVecs _, List.Subset.refl _, hlocal, fun _ => ⟨hfull, hinv⟩,
              fun he => absurd he.symm Bool.false_ne_true, fun v hv hnot => absurd hv hnot⟩
          · rw [if_neg hr]
            exact hstay
  · rw [if_neg hpoll] at hstep
    exact absurd hstep (by simp only [reduceCtorEq, not_false_eq_true])

/-- The next of the chunks in strides comes a stride after. -/
theorem next_own {m a b k : Nat} (ha : a % m = k) (hb : b % m = k) (hlt : b < a + m) :
    b < a ∨ b = a := by
  have hsplit := Nat.div_add_mod a m
  have hsplit' := Nat.div_add_mod b m
  have hle : b / m ≤ a / m := by
    refine Nat.le_of_lt_succ (Nat.lt_of_mul_lt_mul_left (a := m) ?_)
    rw [Nat.mul_succ]
    omega
  have hmul := Nat.mul_le_mul_left m hle
  omega

/-- A CTA looks for the next peer of the round, or has met them all. -/
theorem afterPeers (h : Inv early w) {n : BitVec 32} {r : Bool} {s : Nat}
    (hphase : (w.cta k).phase = .peers n r s) :
    PhaseInv early w { w.cta k with
      phase :=
        if s < G.numPeers then
          if n &&& (1#32 <<< s) = 0 then .peers n r (s + 1)
          else .accumulating n r s (G.chunkVecs (w.cta k).chunkId)
        else if r then .publishing (G.chunkVecs (w.cta k).chunkId)
        else .polling } := by
  have hinv := h.phase k
  rw [PhaseInv, hphase] at hinv
  rcases hinv with ⟨he, hr, hholds⟩
  by_cases hs : s < G.numPeers
  · rw [if_pos hs]
    by_cases hbit : n &&& (1#32 <<< s) = 0
    · rw [if_pos hbit]
      refine ⟨he, ⟨hr.new_arrived, fun p hp => ?_, hr.ready_local, hr.ready_full⟩, hholds⟩
      have hne : p ≠ s := fun heq => and_bit_eq_zero_iff.mp hbit (heq ▸ hp)
      rw [hr.met_iff p hp]
      omega
    · rw [if_neg hbit]
      refine ⟨he, ⟨hr.new_arrived, hr.met_iff, hr.ready_local, hr.ready_full⟩,
        not_not.mp fun hno => hbit (and_bit_eq_zero_iff.mpr hno), nodup_chunkVecs _,
        List.Subset.refl _, fun v hv => ?_⟩
      simp only [if_pos hv]
      exact hholds v hv
  · rw [if_neg hs]
    -- All new peers have been met.
    have hmet : voters n ⊆ voters (w.cta k).processedPeerMask := by
      intro p hp
      have hlt := (h.arrived _ p (hr.new_arrived hp)).1
      exact (hr.met_iff p hp).mpr (by omega)
    by_cases hready : r = true
    · rw [if_pos hready]
      have hfull := (hr.ready_full hready).trans (Finset.union_subset subset_rfl hmet)
      exact ⟨nodup_chunkVecs _, List.Subset.refl _, hr.ready_local hready,
        fun _ => ⟨hfull, hholds⟩, fun hno => absurd (hno.symm.trans he) Bool.false_ne_true,
        fun v hv hnot => absurd hv hnot⟩
    · rw [if_neg hready]
      exact hholds

/-- The part of a peer is added, and its bit is set in the CTA's mask. -/
theorem inv_afterAccumulating (h : Inv early w) {n : BitVec 32} {r : Bool} {s : Nat}
    (hphase : (w.cta k).phase = .accumulating n r s []) (m : Nat) :
    Inv early { w.setCta k { w.cta k with
      processedPeerMask := (w.cta k).processedPeerMask ||| (1#32 <<< s)
      phase := .peers n r (s + 1) } with publishedChunks := m } := by
  have hinv := h.phase k
  rw [PhaseInv, hphase] at hinv
  rcases hinv with ⟨he, hr, hs, _, _, hholds⟩
  -- The slot was not in the mask, so it is one more peer.
  have hbit : voters ((w.cta k).processedPeerMask ||| (1#32 <<< s)) =
      insert s (voters (w.cta k).processedPeerMask) := by
    rw [voters_or, voters_bit (BitVec.lt_of_getLsbD (mem_voters.mp hs)), Finset.union_comm]
    rfl
  refine h.goOn { w.cta k with
      processedPeerMask := (w.cta k).processedPeerMask ||| (1#32 <<< s)
      phase := .peers n r (s + 1) } rfl ?_
    (h.busy k (by rw [hphase]; exact Phase.noConfusion)) ?_ _
  · rw [hbit]
    exact Finset.insert_subset (hr.new_arrived hs) (h.met k)
  · refine ⟨he, ⟨hr.new_arrived, fun p hp => ?_, hr.ready_local, fun hready => ?_⟩, ?_⟩
    · -- The slots below `s + 1` are those below `s` and this one.
      dsimp only
      rw [hbit, Finset.mem_insert, hr.met_iff p hp]
      omega
    · dsimp only
      rw [hbit]
      exact (hr.ready_full hready).trans
        (Finset.union_subset_union (Finset.subset_insert _ _) subset_rfl)
    · intro v hv
      dsimp only
      rw [hbit]
      exact hholds v hv

/-- A chunk is published, and the CTA comes to its next one. -/
theorem inv_afterPublishing (h : Inv early w) (hphase : (w.cta k).phase = .publishing [])
    (m : Nat) :
    Inv early { w.setCta k
      { chunkId := (w.cta k).chunkId + G.numInterReduceStoreSms
        processedPeerMask := 0
        phase := .polling } with publishedChunks := m } := by
  have hinv := h.phase k
  rw [PhaseInv, hphase] at hinv
  rcases hinv with ⟨_, _, _, _, _, hall⟩
  have hnone : voters (0 : BitVec 32) = ∅ := voters_zero
  -- The next chunk has no peers yet.
  refine h.setCta (fun _ _ _ _ => rfl) (fun _ _ _ => id) h.sound ?_ ?_ ?_
    (fun hne => absurd rfl hne) ?_
  · dsimp only
    rw [Nat.add_mod_right]
    exact h.own k
  · dsimp only
    rw [hnone]
    exact Finset.empty_subset _
  · intro v _ hne
    dsimp only at hne
    rw [hnone] at hne
    exact absurd hne Finset.not_nonempty_empty
  · -- Its vectors are the only ones that were still to be published.
    intro c hc hlt
    rcases next_own (h.own k) hc hlt with hbefore | heq
    · exact Or.inl hbefore
    · exact Or.inr ⟨heq, fun v hv => hall v hv List.not_mem_nil⟩

theorem inv_next (h : Inv early w) (hstep : step early w (.next k) = some w') : Inv early w' := by
  simp only [step] at hstep
  rcases Option.map_eq_some_iff.mp hstep with ⟨k', hk', rfl⟩
  cases hphase : (w.cta k).phase with
  | polling =>
      simp only [Cta.afterNext, hphase, reduceCtorEq] at hk'
  | peers n r s =>
      simp only [Cta.afterNext, hphase, Option.some.injEq] at hk'
      rw [← hk']
      -- Only a CTA that polls may be without a chunk.
      have hbusy : (w.cta k).chunkId < G.totalChunks :=
        h.busy k (by rw [hphase]; exact Phase.noConfusion)
      refine h.goOn _ ?_ ?_ hbusy (afterPeers h hphase) _
      · rfl
      · exact h.met k
  | accumulating n r s todo =>
      -- The loops end when no vector is left to do.
      cases todo with
      | cons v todo => simp only [Cta.afterNext, hphase, reduceCtorEq] at hk'
      | nil =>
          simp only [Cta.afterNext, hphase, Option.some.injEq] at hk'
          rw [← hk']
          exact inv_afterAccumulating h hphase _
  | publishing todo =>
      cases todo with
      | cons v todo => simp only [Cta.afterNext, hphase, reduceCtorEq] at hk'
      | nil =>
          simp only [Cta.afterNext, hphase, Option.some.injEq] at hk'
          rw [← hk']
          exact inv_afterPublishing h hphase _

/-- A thread adds the part of a peer to a vector of the chunk. -/
theorem inv_accumulate (h : Inv early w) {n : BitVec 32} {r : Bool} {s : Nat} {todo : List Vec}
    (hphase : (w.cta k).phase = .accumulating n r s todo) {v : Vec} (hv : v ∈ todo) (m : Nat) :
    Inv early { w.setCta k { w.cta k with phase := .accumulating n r s (todo.erase v) } with
      accum := accumulateRemotePeerVec8 G w.accum w.cRecv s v
        (decide ((w.cta k).processedPeerMask = 0))
      publishedChunks := m } := by
  have hinv := h.phase k
  rw [PhaseInv, hphase] at hinv
  rcases hinv with ⟨he, hr, hs, hnodup, hsub, hholds⟩
  have hother : ∀ c, ∀ v' ∈ G.chunkVecs c, v' ≠ v →
      loadVec8 (accumulateRemotePeerVec8 G w.accum w.cRecv s v
        (decide ((w.cta k).processedPeerMask = 0))) (G.accumAt v') =
        loadVec8 w.accum (G.accumAt v') := by
    intro c v' hv' hne
    exact loadVec8_storeVec8_of_ne _ _ fun j j' heq =>
      hne (accumAt_inj hv' (hsub hv) j.isLt j'.isLt heq).1
  refine h.setCta (fun c hc v' hv' => hother c v' hv' fun heq => ?_) (fun _ _ _ => id)
    h.sound (h.own k) (h.met k) ?_
    (fun _ => h.busy k (by rw [hphase]; exact Phase.noConfusion)) (fun _ _ hlt => Or.inl hlt)
  · exact hc (chunkOf_eq (heq ▸ hv') (hsub hv))
  · refine ⟨he, ⟨hr.new_arrived, hr.met_iff, hr.ready_local, hr.ready_full⟩, hs,
      hnodup.erase v, fun x hx => hsub (List.mem_of_mem_erase hx), fun v' hv' => ?_⟩
    have hold := hholds v' hv'
    by_cases hvv : v' = v
    · -- The peer's part of this vector is in the sum now.
      have hnot : v' ∉ todo.erase v := fun hmem => (hnodup.mem_erase_iff.mp hmem).1 hvv
      have hslot : s ∉ voters (w.cta k).processedPeerMask := fun hmem =>
        Nat.lt_irrefl s ((hr.met_iff s hs).mp hmem)
      rw [hvv, if_pos hv] at hold
      intro _
      dsimp only
      rw [if_neg hnot, hvv, Finset.sum_insert hslot, accumulateRemotePeerVec8,
        loadVec8_storeVec8_self, (h.arrived _ s (hr.new_arrived hs)).2.2 v (hsub hv)]
      by_cases hzero : (w.cta k).processedPeerMask = 0
      · rw [if_pos (decide_eq_true hzero), hzero, voters_zero, Finset.sum_empty, add_zero]
      · rw [if_neg (by rw [decide_eq_true_eq]; exact hzero),
          hold (voters_nonempty_iff.mpr hzero), add_comm]
    · have hmem : v' ∈ todo.erase v ↔ v' ∈ todo := by
        rw [hnodup.mem_erase_iff]
        exact and_iff_right hvv
      intro hne
      dsimp only
      rw [hother _ v' hv' hvv]
      simp only [hmem] at hne ⊢
      exact hold hne

/-- A thread publishes the direct sum of a vector of the chunk. -/
theorem inv_publish (h : Inv early w) {todo : List Vec}
    (hphase : (w.cta k).phase = .publishing todo) {v : Vec} (hv : v ∈ todo) (m : Nat) :
    Inv early { w.setCta k { w.cta k with phase := .publishing (todo.erase v) } with
      final := publishFinalVec8 G w.final v (direct G v)
      publishedChunks := m } := by
  have hinv := h.phase k
  rw [PhaseInv, hphase] at hinv
  rcases hinv with ⟨hnodup, hsub, hlocal, hearly, hdirect, hall⟩
  have hchunk := h.busy k (by rw [hphase]; exact Phase.noConfusion)
  -- A vector is out if it was before or is the one of this step.
  have hout : ∀ c, ∀ v' ∈ G.chunkVecs c, Out w v' ∨ v' = v → ∀ j : Fin 8,
      publishFinalVec8 G w.final v (direct G v) (G.globalRow v') (v'.globalCol + j) =
        some (direct G v' j) := by
    intro c v' hv' hor j
    rcases publishFinalVec8_cases (G := G) w.final v (direct G v) (G.globalRow v')
      (v'.globalCol + j) with hsame | ⟨j', hrow, hcol, heq⟩
    · rcases hor with hold | rfl
      · exact hsame.trans (hold j)
      · exact publishFinalVec8_self _ _ _ j
    · -- Two vectors have no element in common, so this one overwrites no other.
      rcases place_vec_inj hv' (hsub hv) j.isLt j'.isLt hrow hcol with ⟨rfl, hj⟩
      rw [heq, Fin.ext hj]
  refine h.setCta (fun _ _ _ _ => rfl) (fun c v' hv' hold => hout c v' hv' (Or.inl hold))
    ?_ (h.own k) (h.met k) ?_ (fun _ => hchunk) (fun _ _ hlt => Or.inl hlt)
  · -- Every element of the output is one of a direct sum still.
    intro row col x hx
    rcases publishFinalVec8_cases (G := G) w.final v (direct G v) row col with
      hsame | ⟨j, hrow, hcol, heq⟩
    · exact h.sound row col x (hsame ▸ hx)
    · rw [heq] at hx
      exact ⟨_, hchunk, v, hsub hv, j, hrow, hcol, (Option.some.inj hx).symm⟩
  · refine ⟨hnodup.erase v, fun x hx => hsub (List.mem_of_mem_erase hx), hlocal, hearly,
      hdirect, fun v' hv' hnot => ?_⟩
    refine hout _ v' hv' ?_
    -- The others that are not to do any more were out before.
    by_cases hvv : v' = v
    · exact Or.inr hvv
    · exact Or.inl (hall v' hv' fun hmem => hnot (hnodup.mem_erase_iff.mpr ⟨hvv, hmem⟩))

/-- A thread handles a vector of the chunk. -/
theorem inv_vec (h : Inv early w) (hpeers : 0 < G.numPeers) {v : Vec}
    (hstep : step early w (.vec k v) = some w') : Inv early w' := by
  simp only [step] at hstep
  cases hphase : (w.cta k).phase with
  | polling => simp only [hphase, reduceCtorEq] at hstep
  | peers n r s => simp only [hphase, reduceCtorEq] at hstep
  | accumulating n r s todo =>
      -- A vector that is still to be accumulated.
      simp only [hphase] at hstep
      by_cases hv : v ∈ todo
      · rw [if_pos hv] at hstep
        rcases Option.some.inj hstep with rfl
        exact inv_accumulate h hphase hv _
      · rw [if_neg hv] at hstep
        exact absurd hstep (by simp only [reduceCtorEq, not_false_eq_true])
  | publishing todo =>
      -- A vector that is still to be published, with all parts in it.
      simp only [hphase] at hstep
      by_cases hv : v ∈ todo
      · rw [if_pos hv, value_eq h hpeers hphase hv] at hstep
        rcases Option.some.inj hstep with rfl
        exact inv_publish h hphase hv _
      · rw [if_neg hv] at hstep
        exact absurd hstep (by simp only [reduceCtorEq, not_false_eq_true])

/-- Every step keeps the invariant, if there is a peer. -/
theorem inv_step (hpeers : 0 < G.numPeers) (h : Inv early w) {a : Action G}
    (hstep : step early w a = some w') : Inv early w' := by
  cases a with
  | reduceLocal c => exact inv_reduceLocal h hstep
  | arrive p c => exact inv_arrive h hstep
  | flag c => exact inv_flag h hstep
  | poll k => exact inv_poll h hstep
  | vec k v => exact inv_vec h hpeers hstep
  | next k => exact inv_next h hstep

theorem inv_of_reaches (hpeers : 0 < G.numPeers) {start : Contents M}
    (h : Reaches (step early) always (init G start) w) : Inv early w :=
  invariant_of_reaches (Inv early) (fun _ _ _ hinv _ hstep => inv_step hpeers hinv hstep) h
    (inv_init early start)

end Invariant

end EarlyAccum

end GemmAr

end MKernel
