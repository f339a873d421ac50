import MKernel.Internode.Cx7.Pairing

/-!
# The Stage Barrier of a Channelised Session

Which peers hear of a stage barrier.

`post_stage_barrier` runs on the first proxy of a session. It is to write the
token to every peer, and a write goes to the peer its QP is connected to, so it
posts once on the first QP of every peer's block. Where the blocks begin was
decided by the session, which divided all its QPs by the number of peers. The
proxy divides the QPs it has itself.

The first proxy has all QPs only where it is the only one. With two proxies the
two divisions never agree: a proxy has about half the QPs, and there are too many
QPs for each peer for the rounding to hide that (`stride_lt`). Then the proxy's
blocks are narrower, all its posts fall short of the last peer's block, and the
last peer waits. With one proxy, or one peer, everybody is reached
(`barrier_fans_out_iff`).

## Main definitions

* `barrierPosts`: All that one call of `post_stage_barrier` posts.
* `Session.Signals`: A post carries the token to a peer's barrier slot.
* `Session.FansOut`: Each peer is signaled once, and nothing else is posted.

## Theorems

* `stride_lt`: The proxy's blocks are narrower than the session's.
* `fansOut_of_blocks`: Posts at the beginning of the session's blocks fan out.
* `last_peer_missed`: Posts at the beginning of narrower blocks miss a peer.
* `barrier_fans_out_iff`: When every peer hears of a barrier.
-/

namespace MKernel

namespace Internode

namespace Cx7

/-- What one call of `post_stage_barrier` posts. -/
def barrierPosts (setup : Setup) (slot : Nat) (token : BitVec 32) : List Chain :=
  (List.range (barrierIters setup)).map (barrierChain setup slot token)

namespace Session

/-- The peer slot the QP of a proxy's post is connected to. -/
def postedSlot (s : Session) (setup : Setup) (c : Chain) : Option Nat :=
  s.connectedSlot (setup.cfg.qpBaseIdx + c.qp).toNat

/-- A post on a QP of the proxy that leads to a peer, which writes the token to a
    slot of that peer's barrier words. -/
def Signals (s : Session) (infos : Nat → ConnectionInfo) (setup : Setup) (slot : Nat)
    (token : BitVec 32) (peer : Nat) (c : Chain) : Prop :=
  setup.InRange c.qp ∧ s.postedSlot setup c = some peer ∧
    c.wrs.map (fun wr => (wr.payload, wr.remoteAddr, wr.rkey)) =
      [(some (.word token), (infos peer).barrier.addr + 4 * BitVec.ofNat 64 slot,
        (infos peer).barrier.rkey)]

/-- One call posts to every peer once, and posts nothing else. -/
def FansOut (s : Session) (infos : Nat → ConnectionInfo) (setup : Setup) (slot : Nat)
    (token : BitVec 32) : Prop :=
  (∀ c ∈ barrierPosts setup slot token,
    ∃ peer < s.numPeers, s.Signals infos setup slot token peer c) ∧
  ∀ peer < s.numPeers,
    ((barrierPosts setup slot token).map (s.postedSlot setup)).count (some peer) = 1

/-- There is one thread where no more is asked for, or there is one QP. -/
theorem numProxyThreads_eq_one_iff (s : Session) (h : 1 < s.numQps) :
    s.numProxyThreads = 1 ↔ s.cfg.numProxyThreads ≤ 1 := by
  simp only [numProxyThreads, kMaxProxyThreads]
  split <;> split <;> split <;> omega

/-- More than two peers use the QPs up to the cap. -/
theorem numQps_of_many (s : Session) (hc : s.cfg.channelizeGpuPeers = true)
    (h : 2 < s.numPeers) : s.numQps = 24 := by
  unfold numPeers at h
  have hp : 1 < s.cfg.numPeers := by omega
  simp only [numQps, kMaxQPs, hc, hp, and_self, if_true]
  split <;> split <;> omega

theorem qpsPerProxy_of_one (s : Session) (h : s.numProxyThreads = 1) :
    s.qpsPerProxy = s.numQps := by
  have hpos := s.numQps_pos
  simp only [qpsPerProxy, h, Nat.add_sub_cancel, Nat.div_one]
  omega

/-- With two proxies, the first has half the QPs at most. -/
theorem two_mul_qpsPerProxy_le (s : Session) (h : 1 < s.numProxyThreads) :
    2 * s.qpsPerProxy ≤ s.numQps + 1 := by
  have hpos := s.numQps_pos
  have hhalf : (s.numQps + s.numProxyThreads - 1) / s.numProxyThreads < (s.numQps + 1) / 2 + 1 := by
    have hmul : (s.numQps + 1) / 2 * 2 ≤ (s.numQps + 1) / 2 * s.numProxyThreads :=
      Nat.mul_le_mul_left _ h
    rw [Nat.div_lt_iff_lt_mul (by omega), Nat.succ_mul]
    omega
  unfold qpsPerProxy
  omega

/-- The blocks of a proxy that has not all QPs are narrower than the session's. -/
theorem stride_lt (s : Session) (hc : s.cfg.channelizeGpuPeers = true)
    (hmany : 1 < s.numPeers) (hthreads : 1 < s.numProxyThreads)
    (hroom : s.numPeers ≤ s.qpsPerProxy) :
    s.qpsPerProxy / s.numPeers < s.numQps / s.numPeers := by
  have hhalf := s.two_mul_qpsPerProxy_le hthreads
  have hqps := (s.numQps_of_channelized hc hmany).2
  have hdiv := Nat.div_mul_le_self s.qpsPerProxy s.numPeers
  -- What one proxy lacks is enough for another QP for each peer.
  have hlack : s.qpsPerProxy + s.numPeers ≤ s.numQps := by
    by_cases htwo : s.numPeers = 2
    · omega
    · have hcap := s.numQps_of_many hc (by omega)
      omega
  rw [Nat.lt_iff_add_one_le, Nat.le_div_iff_mul_le (by omega), Nat.succ_mul]
  omega

section Proxy

variable {s : Session} {infos : Nat → ConnectionInfo} {rest : ProxyConfig} {env : Option String}
  {p : Setup} {slot : Nat} {token : BitVec 32}

theorem numNodes_proxy {t : Nat} (hp : p ∈ s.proxy infos rest env t) :
    p.cfg.numNodes - 1 = (s.numPeers : Int) := by
  have hpos := s.numPeers_pos
  have hcfg : p.cfg.numNodes = s.cfg.numPeers + 1 := by
    rw [(mem_proxy hp).1]
    rfl
  rw [hcfg, numPeers]
  omega

theorem remoteBarrier_proxy {t : Nat} (hp : p ∈ s.proxy infos rest env t) :
    p.cfg.remoteBarrier = s.remoteRegion fun q => (infos q).barrier := by
  rw [(mem_proxy hp).1]
  rfl

theorem numQps_firstProxy (hp : p ∈ s.proxy infos rest env 0) : p.numQps = s.qpsPerProxy := by
  have hle : s.qpsPerProxy ≤ s.numQps := by
    by_cases h : 1 < s.numProxyThreads
    · exact Nat.le_of_lt (s.qpsPerProxy_lt h)
    · have hpos := s.numProxyThreads_pos
      exact Nat.le_of_eq (s.qpsPerProxy_of_one (by omega))
  have hpos := s.qpsPerProxy_pos
  have hcfg : (s.proxyConfig infos rest 0).numQps = s.localQps 0 := rfl
  rw [(mem_proxy hp).1]
  change (s.proxyConfig infos rest 0).goodNumQps.toNat = s.qpsPerProxy
  rw [ProxyConfig.goodNumQps, hcfg, localQps, Nat.zero_mul]
  split <;> omega

/-- On the first proxy, a QP has the same number as in the session. -/
theorem postedSlot_firstProxy (hp : p ∈ s.proxy infos rest env 0) (c : Chain) :
    s.postedSlot p c = s.connectedSlot c.qp.toNat := by
  have hbase : p.cfg.qpBaseIdx = 0 := by
    rw [(mem_proxy hp).1]
    change ((0 * s.qpsPerProxy : Nat) : Int) = 0
    rw [Nat.zero_mul, Nat.cast_zero]
  rw [postedSlot, hbase, Int.zero_add]

/-- The first proxy tells the peers apart where it routes by channels and has a
    QP for each of several peers. -/
theorem barrierChannelize_firstProxy (hp : p ∈ s.proxy infos rest env 0) :
    barrierChannelize p = true ↔
      s.routesChannels env = true ∧ 1 < s.numPeers ∧ s.numPeers ≤ s.qpsPerProxy := by
  have hchannels : p.channelizeGpuPeers = s.routesChannels env := by
    rw [(mem_proxy hp).1]
    rfl
  simp only [barrierChannelize, numNodes_proxy hp, hchannels, numQps_firstProxy hp,
    Bool.and_eq_true, decide_eq_true_eq, and_assoc, Nat.one_lt_cast, Nat.cast_le]

/-- Where it does not, it posts once. -/
theorem barrierPosts_single (h : barrierChannelize p = false) :
    barrierPosts p slot token = [barrierChain p slot token 0] := by
  simp only [barrierPosts, barrierIters, h, Bool.false_eq_true, if_false]
  rfl

/-- That post is on the first QP. -/
theorem qp_barrierChain_single (h : barrierChannelize p = false) (i : Nat) :
    (barrierChain p slot token i).qp = 0 := by
  simp only [barrierChain, h, Bool.false_eq_true, if_false]
  rfl

/-- Where it does, it posts for each peer. -/
theorem barrierPosts_channelize (hp : p ∈ s.proxy infos rest env 0)
    (h : barrierChannelize p = true) :
    barrierPosts p slot token = (List.range s.numPeers).map (barrierChain p slot token) := by
  rw [barrierPosts, barrierIters, if_pos h, numNodes_proxy hp, Int.toNat_natCast]

/-- Each of these posts is on the first QP of a block of its own QPs. -/
theorem qp_barrierChain_channelize (hp : p ∈ s.proxy infos rest env 0)
    (h : barrierChannelize p = true) (i : Nat) :
    (barrierChain p slot token i).qp = (i * (s.qpsPerProxy / s.numPeers) : Nat) := by
  simp only [barrierChain, h, if_true, numQps_firstProxy hp, numNodes_proxy hp, Int.toNat_natCast]

/-- The slots that are posted to. -/
theorem map_postedSlot_channelize (hp : p ∈ s.proxy infos rest env 0)
    (h : barrierChannelize p = true) :
    (barrierPosts p slot token).map (s.postedSlot p) =
      (List.range s.numPeers).map fun i =>
        s.connectedSlot (i * (s.qpsPerProxy / s.numPeers)) := by
  rw [barrierPosts_channelize hp h, List.map_map]
  refine List.map_congr_left fun i _ => ?_
  rw [Function.comp_apply, postedSlot_firstProxy hp, qp_barrierChain_channelize hp h,
    Int.toNat_natCast]

section Blocks

variable (hc : s.cfg.channelizeGpuPeers = true)
include hc

/-- The first QP of a peer's block leads to the peer. -/
theorem connectedSlot_blockStart {peer : Nat} (hpeer : peer < s.numPeers) :
    peer * s.qpsPerPeer < s.numQps ∧ s.connectedSlot (peer * s.qpsPerPeer) = some peer := by
  have hpos := s.qpsPerPeer_pos
  have hlt : peer * s.qpsPerPeer < s.numQps :=
    Nat.lt_of_lt_of_le (Nat.mul_lt_mul_of_pos_right hpeer hpos) (s.numPeers_mul_qpsPerPeer_le hc)
  refine ⟨hlt, ?_⟩
  rw [s.connectedSlot_eq hc hlt, Nat.mul_div_cancel _ hpos, if_pos hpeer]

theorem connectedSlot_first : s.connectedSlot 0 = some 0 := by
  have h := (connectedSlot_blockStart hc s.numPeers_pos').2
  rwa [Nat.zero_mul] at h

/-- A single post reaches the first peer, and no other. -/
theorem map_postedSlot_single (hp : p ∈ s.proxy infos rest env 0)
    (h : barrierChannelize p = false) :
    (barrierPosts p slot token).map (s.postedSlot p) = [some 0] := by
  rw [barrierPosts_single h, List.map_singleton, postedSlot_firstProxy hp,
    qp_barrierChain_single h, Int.toNat_zero, connectedSlot_first hc]

/-- A single peer is signaled. -/
theorem fansOut_of_one (hp : p ∈ s.proxy infos rest env 0) (hone : s.numPeers = 1) :
    s.FansOut infos p slot token := by
  have hsingle : barrierChannelize p = false := by
    rw [← Bool.not_eq_true, barrierChannelize_firstProxy hp]
    omega
  refine ⟨?_, ?_⟩
  · intro c hmem
    rw [barrierPosts_single hsingle, List.mem_singleton] at hmem
    refine ⟨0, s.numPeers_pos', ?_, ?_, ?_⟩
    · have hpos := p.numQps_pos
      rw [hmem, qp_barrierChain_single hsingle, Setup.InRange]
      omega
    · rw [postedSlot_firstProxy hp, hmem, qp_barrierChain_single hsingle, Int.toNat_zero,
        connectedSlot_first hc]
    · simp only [hmem, barrierChain, hsingle, remoteBarrier_proxy hp, remoteRegion,
        Bool.false_eq_true, if_false, List.map_cons, List.map_nil]
  · intro peer hpeer
    obtain rfl : peer = 0 := by omega
    rw [map_postedSlot_single hc hp hsingle, List.count_singleton_self]

/-- Posts at the beginning of the session's blocks signal every peer once. -/
theorem fansOut_of_blocks (hp : p ∈ s.proxy infos rest env 0) (h : barrierChannelize p = true)
    (hall : s.qpsPerProxy = s.numQps) : s.FansOut infos p slot token := by
  -- With one thread its blocks are the session's.
  have hstride : s.qpsPerProxy / s.numPeers = s.qpsPerPeer := by
    rw [hall, (connectedSlot_second hc ((barrierChannelize_firstProxy hp).mp h).2.1).1]
  refine ⟨?_, ?_⟩
  · intro c hmem
    rw [barrierPosts_channelize hp h] at hmem
    rcases List.mem_map.mp hmem with ⟨peer, hpeer, rfl⟩
    have hpeer := List.mem_range.mp hpeer
    rcases connectedSlot_blockStart hc hpeer with ⟨hlt, hconn⟩
    have hqp : (barrierChain p slot token peer).qp = (peer * s.qpsPerPeer : Nat) := by
      rw [qp_barrierChain_channelize hp h, hstride]
    refine ⟨peer, hpeer, ?_, ?_, ?_⟩
    · rw [hqp, Setup.InRange, numQps_firstProxy hp, hall]
      omega
    · rw [postedSlot_firstProxy hp, hqp, Int.toNat_natCast, hconn]
    · -- The keys are those of the peer that the QP is connected to.
      have hentry : peer * s.qpsPerPeer < s.numQps ∧ peer * s.qpsPerPeer < kMaxExchangeQPs :=
        ⟨hlt, Nat.lt_of_lt_of_le hlt s.numQps_le⟩
      simp only [barrierChain, h, if_true, numQps_firstProxy hp, numNodes_proxy hp,
        Int.toNat_natCast, hstride, remoteBarrier_proxy hp, remoteRegion, if_pos hentry,
        s.tableSlot_eq hc hlt hconn, List.map_cons, List.map_nil]
  · intro peer hpeer
    -- So the posts go through the peers, one after the other.
    have hslots : (barrierPosts p slot token).map (s.postedSlot p) =
        (List.range s.numPeers).map some := by
      rw [map_postedSlot_channelize hp h, hstride]
      exact List.map_congr_left fun i hi =>
        (connectedSlot_blockStart hc (List.mem_range.mp hi)).2
    rw [hslots]
    exact List.count_eq_one_of_mem (List.nodup_range.map (Option.some_injective Nat))
      (List.mem_map_of_mem (List.mem_range.mpr hpeer))

/-- Posts at the beginning of narrower blocks do not get as far as the last
    peer's block. -/
theorem last_peer_missed (hp : p ∈ s.proxy infos rest env 0) (h : barrierChannelize p = true)
    (hnarrow : s.qpsPerProxy / s.numPeers < s.numQps / s.numPeers) :
    some (s.numPeers - 1) ∉ (barrierPosts p slot token).map (s.postedSlot p) := by
  have hmany := ((barrierChannelize_firstProxy hp).mp h).2.1
  rw [← (connectedSlot_second hc hmany).1] at hnarrow
  rw [map_postedSlot_channelize hp h]
  intro hmem
  rcases List.mem_map.mp hmem with ⟨i, hi, hslot⟩
  have hi := List.mem_range.mp hi
  have hbefore : i * (s.qpsPerProxy / s.numPeers) < (s.numPeers - 1) * s.qpsPerPeer :=
    calc i * (s.qpsPerProxy / s.numPeers)
        ≤ (s.numPeers - 1) * (s.qpsPerProxy / s.numPeers) := Nat.mul_le_mul_right _ (by omega)
      _ < (s.numPeers - 1) * s.qpsPerPeer := Nat.mul_lt_mul_of_pos_left hnarrow (by omega)
  have hlast := (connectedSlot_blockStart hc (by omega : s.numPeers - 1 < s.numPeers)).1
  rw [s.connectedSlot_eq hc (Nat.lt_trans hbefore hlast)] at hslot
  have hdiv := (Nat.div_lt_iff_lt_mul s.qpsPerPeer_pos).mpr hbefore
  rw [if_pos (by omega), Option.some.injEq] at hslot
  omega

end Blocks

end Proxy

/-- One call of `post_stage_barrier` on the first proxy of a channelised session
    posts the token once to the barrier slot of every peer, on a QP connected to
    the peer, exactly where there is one peer, or where no second proxy thread is
    asked for and the environment leaves the channels on. -/
theorem barrier_fans_out_iff (s : Session) (infos : Nat → ConnectionInfo) (rest : ProxyConfig)
    (env : Option String) (hc : s.cfg.channelizeGpuPeers = true) (p : Setup)
    (hp : p ∈ s.proxy infos rest env 0) (slot : Nat) (token : BitVec 32) :
    s.FansOut infos p slot token ↔
      s.numPeers = 1 ∨ s.cfg.numProxyThreads ≤ 1 ∧ s.routesChannels env = true := by
  have hpeers := s.numPeers_pos'
  by_cases hone : s.numPeers = 1
  · exact iff_of_true (fansOut_of_one hc hp hone) (Or.inl hone)
  have hmany : 1 < s.numPeers := by omega
  have hqps := s.numQps_of_channelized hc hmany
  rw [or_iff_right hone, ← s.numProxyThreads_eq_one_iff (by omega)]
  constructor
  · intro hfan
    -- Somebody is missed unless the proxy tells the peers apart and has all QPs.
    cases h : barrierChannelize p with
    | false =>
        have hcount := hfan.2 1 hmany
        rw [map_postedSlot_single hc hp h] at hcount
        exact absurd hcount (by decide)
    | true =>
        rcases (barrierChannelize_firstProxy hp).mp h with ⟨hroutes, -, hroom⟩
        refine ⟨?_, hroutes⟩
        by_contra hthreads
        have hpos := s.numProxyThreads_pos
        have hcount := hfan.2 (s.numPeers - 1) (by omega)
        rw [List.count_eq_zero_of_not_mem
          (last_peer_missed hc hp h (s.stride_lt hc hmany (by omega) hroom))] at hcount
        exact absurd hcount Nat.zero_ne_one
  · rintro ⟨hthreads, hroutes⟩
    have hall := s.qpsPerProxy_of_one hthreads
    exact fansOut_of_blocks hc hp
      ((barrierChannelize_firstProxy hp).mpr ⟨hroutes, hmany, by omega⟩) hall

/-- Three nodes with one proxy on each. -/
def oneProxy : Session where
  cfg := { ringOfThree.cfg with numProxyThreads := 1 }
  numPeers_pos := by decide
  numPeers_le := by decide

/-- The one proxy of a node of three reaches both others. -/
theorem oneProxy_fans_out :
    oneProxy.FansOut sampleInfo
      (Setup.ofConfig (oneProxy.proxyConfig sampleInfo sampleConfig 0) none) 3 7 :=
  (barrier_fans_out_iff oneProxy sampleInfo sampleConfig none rfl _ rfl 3 7).mpr
    (Or.inr ⟨by decide, rfl⟩)

/-- The first of two proxies has nine QPs of eighteen. It posts on QP 0 and on
    QP 4, which both lead to the first peer. -/
theorem second_peer_missed :
    ¬ ∀ (s : Session) (infos : Nat → ConnectionInfo) (rest : ProxyConfig) (env : Option String),
      s.cfg.channelizeGpuPeers = true → s.routesChannels env = true →
      ∀ p ∈ s.proxy infos rest env 0, ∀ (slot : Nat) (token : BitVec 32),
        s.FansOut infos p slot token := by
  intro h
  have hfan := h ringOfThree sampleInfo sampleConfig none rfl rfl
    (Setup.ofConfig (ringOfThree.proxyConfig sampleInfo sampleConfig 0) none) rfl 3 7
  exact absurd (hfan.2 1 (by decide)) (by decide +kernel)

end Session

end Cx7

end Internode

end MKernel
