import MKernel.Internode.Cx7.Routing
import MKernel.Internode.Efa.Session

/-!
# How a Session Shares Out its QPs and FIFOs

What the proxy threads of a session rely on, on both backends: the QPs are
shared out between them, each of them has some and so a proxy of its own, and
what a kernel pushes is polled by one of them.

The QPs are shared out in slices of equal width, the number of QPs divided by
that of threads and rounded up. The slices never overlap and leave no QP out, but
the last ones may be empty: five QPs make slices of two for four threads, and
the fourth thread is left without a proxy. Every thread has one exactly if those
before the last do not take all QPs (`LastFilled`).

A kernel picks the FIFO of a thread that has QPs, so no FIFO it picks is left
unread. That changes where there is a FIFO for each QP: a thread reads the number
of FIFOs by that of threads, rounded down, and what is left over is read by no
thread at all.

## Main definitions

* `Partition`: A session as its threads, its slices and its FIFOs.
* `Partition.Sound`: What the threads rely on.
* `LastFilled`: The threads before the last leave something.

## Theorems

* `mem_slice_iff`: A QP is in the slice of one thread.
* `sound_iff`: What `Sound` comes to.
* `session_partition_iff`: When the sessions of both backends are sound.
-/

namespace MKernel

namespace Internode

open MKernel.Core

/-- A session as its threads, its slices and its FIFOs: those that are polled
    by the proxy of a thread, if it has one, and the one picked for a lane. -/
structure Partition where
  numQps : Nat
  numProxyThreads : Nat
  qpsPerProxy : Nat
  fifos : Nat → Option (List Nat)
  select : BitVec 32 → Nat

namespace Partition

variable (d : Partition)

/-- A QP is in the slice of a thread. -/
def InSlice (t qp : Nat) : Prop :=
  t * d.qpsPerProxy ≤ qp ∧ qp < min ((t + 1) * d.qpsPerProxy) d.numQps

/-- A running proxy polls a FIFO. -/
def Polls (t k : Nat) : Prop := t < d.numProxyThreads ∧ ∃ ks, d.fifos t = some ks ∧ k ∈ ks

/-- What the threads of a session rely on. -/
structure Sound : Prop where
  slices : ∀ qp < d.numQps, ∃! t, t < d.numProxyThreads ∧ d.InSlice t qp
  nonempty : ∀ t < d.numProxyThreads, ∃ qp, d.InSlice t qp
  proxies : ∀ t < d.numProxyThreads, (d.fifos t).isSome
  polled : ∀ lane, ∃! t, d.Polls t (d.select lane)

end Partition

/-- The threads before the last leave a QP to it. -/
def LastFilled (numQps numProxyThreads : Nat) : Prop :=
  (numProxyThreads - 1) * ((numQps + numProxyThreads - 1) / numProxyThreads) < numQps

instance (numQps numProxyThreads : Nat) : Decidable (LastFilled numQps numProxyThreads) :=
  inferInstanceAs (Decidable (_ < _))

/-- The partition a session of the CX7 backend makes. -/
def Cx7.Session.partition (s : Cx7.Session) (infos : Nat → Cx7.ConnectionInfo)
    (rest : Cx7.ProxyConfig) (env : Option String) : Partition where
  numQps := s.numQps
  numProxyThreads := s.numProxyThreads
  qpsPerProxy := s.qpsPerProxy
  fifos := fun t => (s.proxy infos rest env t).map fun p => [p.cfg.fifo]
  select := s.fifoBundle.select

/-- The partition a session of the EFA backend makes. -/
def Efa.Session.partition (s : Efa.Session) (peers : Nat → Nat → Efa.PerPeerProxyData)
    (rest : Efa.ProxyConfig) : Partition where
  numQps := s.numQps
  numProxyThreads := s.numProxyThreads
  qpsPerProxy := s.qpsPerProxy
  fifos := fun t => (s.proxy peers rest t).map Efa.readFifos
  select := s.fifoBundle.select

/-- With room for all QPs a kernel picks the block its lane falls into. -/
theorem Cx7.FifoBundle.select_eq_div {bundle : Cx7.FifoBundle} {n qps width : Nat}
    (hn : bundle.numFifos = n) (hq : bundle.globalNumQps = qps) (hw : bundle.qpsPerFifo = width)
    (hqps : 0 < qps) (hwidth : 0 < width) (hroom : qps ≤ width * n) (lane : BitVec 32) :
    bundle.select lane = lane.toNat % qps / width := by
  have hlt : lane.toNat % qps / width < n := by
    rw [Nat.div_lt_iff_lt_mul hwidth, Nat.mul_comm]
    exact Nat.lt_of_lt_of_le (Nat.mod_lt _ hqps) hroom
  simp only [Cx7.FifoBundle.select, hn, hq, hw, Int.toNat_natCast, Int.natCast_pos, hqps, hwidth,
    if_true]
  -- The index is below the number of FIFOs, so the last never stands in for it.
  generalize lane.toNat % qps / width = fifoIdx at hlt
  by_cases h1 : (n : Int) ≤ 1
  · rw [if_pos h1]
    omega
  · rw [if_neg h1, if_neg (by omega)]

section Blocks

variable {Q T w : Nat}

/-- Every thread has something exactly if the last one has. -/
theorem lastFilled_iff (hT : 0 < T) (hle : T ≤ Q) (hw : w = max 1 ((Q + T - 1) / T)) :
    LastFilled Q T ↔ ∀ t < T, t * w < Q := by
  rw [← rounds, max_one_rounds hT hle, rounds] at hw
  rw [LastFilled, ← hw]
  constructor
  · intro h t ht
    exact Nat.lt_of_le_of_lt (Nat.mul_le_mul_right _ (by omega)) h
  · intro h
    exact h (T - 1) (by omega)

/-- Where the threads divide the QPs evenly, each has the same. -/
theorem lastFilled_of_dvd (hT : 0 < T) (hQ : 0 < Q) (hdvd : T ∣ Q) : LastFilled Q T := by
  rcases hdvd with ⟨m, rfl⟩
  have hm : 0 < m := Nat.pos_of_mul_pos_left hQ
  have hdiv : (T * m + T - 1) / T = m := by
    rw [Nat.add_sub_assoc hT, Nat.mul_add_div hT, Nat.div_eq_of_lt (by omega), Nat.add_zero]
  rw [LastFilled, hdiv, Nat.sub_mul, Nat.one_mul]
  have := Nat.mul_pos hT hm
  omega

end Blocks

namespace Partition

variable {d : Partition}

/-- A QP is in the slice of one thread. -/
theorem mem_slice_iff (hw : 0 < d.qpsPerProxy) {t qp : Nat} (hqp : qp < d.numQps) :
    d.InSlice t qp ↔ t = qp / d.qpsPerProxy := by
  rw [InSlice, eq_comm, Nat.div_eq_iff hw, Nat.lt_min, Nat.succ_mul]
  omega

theorem slice_nonempty_iff (hw : 0 < d.qpsPerProxy) {t : Nat} :
    (∃ qp, d.InSlice t qp) ↔ t * d.qpsPerProxy < d.numQps := by
  constructor
  · rintro ⟨qp, hlo, hhi⟩
    exact Nat.lt_of_le_of_lt hlo (Nat.lt_of_lt_of_le hhi (Nat.min_le_right _ _))
  · intro h
    exact ⟨t * d.qpsPerProxy, le_rfl, by rw [Nat.lt_min, Nat.succ_mul]; omega⟩

/-- What `Sound` comes to where threads with QPs read consecutive FIFOs: all
    threads have QPs, and no FIFO beyond theirs is picked. -/
theorem sound_iff {width : Nat} (hT : 0 < d.numProxyThreads)
    (hle : d.numProxyThreads ≤ d.numQps)
    (hw : d.qpsPerProxy = max 1 ((d.numQps + d.numProxyThreads - 1) / d.numProxyThreads))
    (hwidth : 0 < width)
    (hfifos : ∀ t < d.numProxyThreads, d.fifos t =
      if t * d.qpsPerProxy < d.numQps then
        some ((List.range width).map (t * width + ·)) else none) :
    d.Sound ↔ LastFilled d.numQps d.numProxyThreads ∧
      ∀ lane, d.select lane < d.numProxyThreads * width := by
  have hpos : 0 < d.qpsPerProxy := by omega
  -- Where all threads run, a FIFO is read by the thread of its block.
  have hpolls : LastFilled d.numQps d.numProxyThreads → ∀ t k,
      d.Polls t k ↔ t < d.numProxyThreads ∧ t = k / width := by
    intro hfill t k
    refine and_congr_right fun ht => ?_
    simp only [hfifos t ht, if_pos ((lastFilled_iff hT hle hw).mp hfill t ht), Option.some.injEq,
      exists_eq_left', List.mem_map, List.mem_range]
    rw [eq_comm (a := t), Nat.div_eq_iff hwidth]
    constructor
    · rintro ⟨i, hi, rfl⟩
      omega
    · intro hk
      exact ⟨k - t * width, by omega, by omega⟩
  constructor
  · intro h
    have hfill : LastFilled d.numQps d.numProxyThreads := by
      refine (lastFilled_iff hT hle hw).mpr fun t ht => ?_
      exact (slice_nonempty_iff hpos).mp (h.nonempty t ht)
    refine ⟨hfill, fun lane => ?_⟩
    -- A FIFO that is polled is in the block of a thread.
    rcases h.polled lane with ⟨t, ht, -⟩
    rcases (hpolls hfill _ _).mp ht with ⟨hlt, heq⟩
    exact (Nat.div_lt_iff_lt_mul hwidth).mp (heq ▸ hlt)
  · rintro ⟨hfill, hsel⟩
    have hall := (lastFilled_iff hT hle hw).mp hfill
    refine ⟨?_, ?_, ?_, ?_⟩
    · -- The thread of a QP's slice is one of the threads.
      intro qp hqp
      refine ⟨qp / d.qpsPerProxy, ⟨?_, (mem_slice_iff hpos hqp).mpr rfl⟩, ?_⟩
      · have hroom := le_rounds_mul (n := d.numQps) hT
        rw [Nat.div_lt_iff_lt_mul hpos, Nat.mul_comm, hw, ← rounds, max_one_rounds hT hle]
        omega
      · rintro t ⟨-, ht⟩
        exact (mem_slice_iff hpos hqp).mp ht
    · intro t ht
      exact (slice_nonempty_iff hpos).mpr (hall t ht)
    · intro t ht
      rw [hfifos t ht, if_pos (hall t ht)]
      rfl
    · intro lane
      refine ⟨d.select lane / width,
        (hpolls hfill _ _).mpr ⟨(Nat.div_lt_iff_lt_mul hwidth).mpr (hsel lane), rfl⟩, ?_⟩
      intro t ht
      exact ((hpolls hfill _ _).mp ht).2

end Partition

section Backends

open MKernel.Internode.Partition

/-- On the CX7 backend a thread reads its own FIFO. -/
theorem Cx7.Session.fifos_partition (s : Cx7.Session) {infos : Nat → Cx7.ConnectionInfo}
    {rest : Cx7.ProxyConfig} {env : Option String} {t : Nat} (ht : t < s.numProxyThreads) :
    (s.partition infos rest env).fifos t =
      if t * s.qpsPerProxy < s.numQps then some ((List.range 1).map (t * 1 + ·)) else none := by
  have hpos := s.qpsPerProxy_pos
  have hiff : (t < s.numProxyThreads ∧ 0 < s.localQps t) ↔ t * s.qpsPerProxy < s.numQps := by
    unfold Cx7.Session.localQps
    omega
  simp only [Cx7.Session.partition, Cx7.Session.proxy, hiff]
  split
  · simp only [Option.map_some, List.range_one, List.map_cons, List.map_nil, Nat.mul_one,
      Nat.add_zero]
    rfl
  · rfl

theorem Cx7.Session.partition_sound_iff (s : Cx7.Session) (infos : Nat → Cx7.ConnectionInfo)
    (rest : Cx7.ProxyConfig) (env : Option String) :
    (s.partition infos rest env).Sound ↔ LastFilled s.numQps s.numProxyThreads := by
  have hiff := sound_iff (d := s.partition infos rest env) s.numProxyThreads_pos
    s.numProxyThreads_le rfl Nat.one_pos fun t ht => s.fifos_partition ht
  -- No lane leads beyond the threads.
  refine hiff.trans (and_iff_left ?_)
  intro lane
  change s.fifoBundle.select lane < s.numProxyThreads * 1
  rw [Cx7.FifoBundle.select_eq_div rfl rfl rfl s.numQps_pos s.qpsPerProxy_pos s.numQps_le_mul,
    Nat.mul_one, Nat.div_lt_iff_lt_mul s.qpsPerProxy_pos, Nat.mul_comm]
  exact Nat.lt_of_lt_of_le (Nat.mod_lt _ s.numQps_pos) s.numQps_le_mul

namespace Efa.Session

variable (s : Efa.Session)

theorem numProxyThreads_le_numFifos : s.numProxyThreads ≤ s.numFifos := by
  have := s.numProxyThreads_le
  rw [s.numFifos_eq]
  split <;> omega

theorem fifosPerProxy_pos : 0 < s.fifosPerProxy :=
  Nat.div_pos s.numProxyThreads_le_numFifos s.numProxyThreads_pos

/-- On the EFA backend a thread reads as many FIFOs as any other. -/
theorem fifos_partition {peers : Nat → Nat → PerPeerProxyData} {rest : ProxyConfig} {t : Nat}
    (ht : t < s.numProxyThreads) :
    (s.partition peers rest).fifos t =
      if t * s.qpsPerProxy < s.numQps then
        some ((List.range s.fifosPerProxy).map (t * s.fifosPerProxy + ·))
      else none := by
  have hpos := s.qpsPerProxy_pos
  have hiff : 0 < s.localQps t ↔ t * s.qpsPerProxy < s.numQps := by
    unfold localQps
    omega
  simp only [partition]
  cases hp : s.proxy peers rest t with
  | none =>
      rw [proxy, ite_eq_right_iff] at hp
      have hno : ¬ t * s.qpsPerProxy < s.numQps := fun hlt =>
        Option.some_ne_none _ (hp ⟨ht, hiff.mpr hlt⟩)
      rw [if_neg hno]
      rfl
  | some setup =>
      -- A thread with a proxy has QPs.
      have hlt : t * s.qpsPerProxy < s.numQps := by
        simp only [proxy, Option.ite_none_right_eq_some] at hp
        exact hiff.mp hp.1.2
      rw [if_pos hlt, Option.map_some, s.readFifos_proxy hp]

/-- The FIFO picked for a lane: that of its block, or that of its QP. -/
theorem select_eq (lane : BitVec 32) :
    s.fifoBundle.select lane =
      lane.toNat % s.numQps / if s.fifoPerQp then 1 else s.qpsPerProxy := by
  refine Cx7.FifoBundle.select_eq_div (n := s.numFifos) rfl rfl ?_ s.numQps_pos ?_ ?_ lane
  · simp only [fifoBundle]
    split <;> rfl
  · have := s.qpsPerProxy_pos
    split <;> omega
  · rw [s.numFifos_eq]
    split
    · rw [Nat.one_mul]
    · exact s.numQps_le_mul

/-- No FIFO beyond those of the threads is picked, unless there is one for each
    QP and the threads do not divide the QPs evenly. -/
theorem select_lt_iff :
    (∀ lane, s.fifoBundle.select lane < s.numProxyThreads * s.fifosPerProxy) ↔
      (s.fifoPerQp = true → s.numProxyThreads ∣ s.numQps) := by
  have hT := s.numProxyThreads_pos
  have hQ := s.numQps_pos
  simp only [select_eq, fifosPerProxy, s.numFifos_eq]
  by_cases hper : s.fifoPerQp = true
  · simp only [hper, if_true, Nat.div_one, forall_const]
    rw [Nat.dvd_iff_mod_eq_zero]
    have hdm := Nat.div_add_mod s.numQps s.numProxyThreads
    constructor
    · -- The last QP's own lane leads to the last FIFO.
      intro h
      have hle := s.numQps_le
      have hlast := h (BitVec.ofNat 32 (s.numQps - 1))
      rw [BitVec.toNat_ofNat, Nat.mod_eq_of_lt (a := s.numQps - 1) (by omega),
        Nat.mod_eq_of_lt (by omega)] at hlast
      omega
    · intro h lane
      have := Nat.mod_lt lane.toNat hQ
      omega
  · -- A FIFO for each thread: the block of a QP is that of a thread.
    simp only [hper, if_false, Bool.false_eq_true, false_imp_iff, iff_true]
    intro lane
    rw [Nat.div_self hT, Nat.mul_one, Nat.div_lt_iff_lt_mul s.qpsPerProxy_pos, Nat.mul_comm]
    exact Nat.lt_of_lt_of_le (Nat.mod_lt _ hQ) s.numQps_le_mul

theorem partition_sound_iff (peers : Nat → Nat → PerPeerProxyData) (rest : ProxyConfig) :
    (s.partition peers rest).Sound ↔ LastFilled s.numQps s.numProxyThreads ∧
      (s.fifoPerQp = true → s.numProxyThreads ∣ s.numQps) := by
  have hiff := sound_iff (d := s.partition peers rest) s.numProxyThreads_pos s.numProxyThreads_le
    rfl s.fifosPerProxy_pos fun t ht => s.fifos_partition ht
  exact hiff.trans (and_congr_right fun _ => s.select_lt_iff)

end Efa.Session

/-- When the threads of a session have what they rely on: on both backends if
    those before the last leave something, and with a FIFO for each QP if the
    threads divide the QPs evenly too. -/
theorem session_partition_iff (c : Cx7.Session) (infos : Nat → Cx7.ConnectionInfo)
    (cx7Rest : Cx7.ProxyConfig) (env : Option String) (e : Efa.Session)
    (peers : Nat → Nat → Efa.PerPeerProxyData) (efaRest : Efa.ProxyConfig) :
    ((c.partition infos cx7Rest env).Sound ↔ LastFilled c.numQps c.numProxyThreads) ∧
    ((e.partition peers efaRest).Sound ↔ LastFilled e.numQps e.numProxyThreads ∧
      (e.fifoPerQp = true → e.numProxyThreads ∣ e.numQps)) :=
  ⟨Cx7.Session.partition_sound_iff c infos cx7Rest env,
    Efa.Session.partition_sound_iff e peers efaRest⟩

end Backends

section Sample

/-- Two nodes with five QPs and four threads. -/
def fiveQps : Cx7.Session where
  cfg :=
    { rank := 0
      numPeers := 1
      peerRanks := none
      numQps := 5
      logicalQueuesPerQp := 1
      numProxyThreads := 4
      channelizeGpuPeers := false }
  numPeers_pos := by decide
  numPeers_le := by decide

/-- Two nodes with five QPs, a FIFO for each, and two threads. -/
def fiveFifos : Efa.Session where
  cfg :=
    { rank := 0
      numPeers := 1
      peerRanks := none
      numTiles := 64
      maxInflight := 32
      numQps := 5
      logicalQueuesPerQp := 1
      numProxyThreads := 2
      useArrivalQueue := true
      numRails := 2 }
  env := fun name => if name = "MKERNEL_FIFO_PER_QP" then some "1" else none
  numPeers_pos := by decide
  numPeers_le := by decide

/-- Two of five QPs each leave the fourth thread nothing, and two of five FIFOs
    each leave the fifth to no thread. -/
theorem partition_unsound :
    ¬ (fiveQps.partition Cx7.sampleInfo Cx7.sampleConfig none).Sound ∧
    ¬ (fiveFifos.partition (fun _ _ => Efa.samplePeer) Efa.sampleConfig).Sound := by
  refine ⟨?_, ?_⟩
  · intro h
    have hnone : (fiveQps.partition Cx7.sampleInfo Cx7.sampleConfig none).fifos 3 = none := rfl
    have hsome := h.proxies 3 (by decide)
    rw [hnone] at hsome
    exact absurd hsome (by decide)
  · intro h
    -- Two threads do not divide five FIFOs evenly.
    have hsel := ((fiveFifos.partition_sound_iff _ _).mp h).2 (by decide)
    exact absurd hsel (by decide)

end Sample

end Internode

end MKernel
