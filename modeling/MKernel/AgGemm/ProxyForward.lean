import MKernel.Core.SmallNumbers
import MKernel.AgGemm.Ring
import MKernel.Internode.Cx7.Forward

/-!
# Forwards by the Proxies

Whether a proxy that forwards what has arrived builds the command that the kernel would push.

The kernel computes slot and offset from the origin, the bank and the row block. A proxy has
the arrival slot and the offset of what has arrived, and takes these apart with the sizes it was
started with. Its bank size is right, as the buffer it divides is made of whole banks. Its number
of chunks is too large if the arrival slots were rounded up by a slot for each virtual slot
(`Internode.Cx7.Session.proxyTotalChunks_eq_iff`), and then no forward is to the right tile. The
offset within a shard is cut down to 32 bits. Otherwise the commands are the same. Of row blocks
that begin after the end of the shard, which a narrow matrix has, both make nonsense, but not
always the same.

## Main definitions

* `Write.toCmd`: A command of the kernel, with its fields cut down to their widths.
* `recvBufChunks`, `recvBufBytes`: What the caller tells the session.
* `Unpadded`: Rounding leaves the number of chunks as it is.
* `SameForward`: A proxy's forward is the kernel's.

## Theorems

* `forwardSlot_eq`: The slot a node forwards to.
* `tile_eq_iff`, `offset_eq_iff`: When tile and offset are the kernel's.
* `sameForward_iff`: When the command is.
* `sameForward_iff_of_inside`: The same for row blocks of the shard.
-/

namespace MKernel

namespace AgGemm

open MKernel.Core
open MKernel.Internode (TransferCmd ForwardNotify)
open MKernel.Internode.Cx7 (Session ProxyConfig ConnectionInfo forwardVirtual)

/-- A command as it is pushed. -/
def Write.toCmd (w : Write) : TransferCmd :=
  { TransferCmd.zero with
    cmdType := .write
    dstRank := BitVec.ofNat 8 w.dstRank
    tileId := BitVec.ofNat 32 w.tileId
    bytes := BitVec.ofNat 32 w.bytes
    localOffset := BitVec.ofNat 64 w.localOffset
    remoteOffset := BitVec.ofNat 64 w.remoteOffset
    srcView := BitVec.ofNat 8 w.srcView
    laneId := w.laneId
    reserved0 := BitVec.ofNat 8 w.reserved0 }

/-- The notification of a command. -/
def notifyOf (epoch : BitVec 32) (cmd : TransferCmd) : ForwardNotify where
  bytes := cmd.bytes
  localOffset := cmd.remoteOffset
  tileId := cmd.tileId
  laneId := cmd.laneId
  reserved0 := cmd.reserved0
  srcView := cmd.srcView
  epoch := epoch
  reserved1 := 0

namespace Setup

variable (setup : Setup)

/-- `recv_buf_chunks`, which the session is told as its number of tiles. -/
def recvBufChunks : Nat := setup.numPeers * setup.totalChunks * setup.numPeers

/-- `recv_buf_bytes`, which it is told as the size of its buffer. -/
def recvBufBytes : Nat := setup.numPeers * setup.aHalfBytes * setup.numPeers

/-- What the proxies of a node are started with. -/
def proxyConfig (sess : Session) (rest : ProxyConfig) : ProxyConfig :=
  sess.forwardConfig rest setup.recvBufChunks (BitVec.ofNat 64 setup.recvBufBytes)

/-- The numbers the session and the kernel compute with are in range. -/
structure Fits (sess : Session) : Prop where
  peers : sess.numPeers = setup.numPeers
  tiles : setup.recvBufChunks + sess.totalLogicalQueues ≤ 2 ^ 31
  bytes : setup.recvBufBytes < 2 ^ 63

/-- Rounding the arrival slots up, to as many for each logical queue, adds fewer than there are
    virtual slots. -/
def Unpadded (sess : Session) : Prop :=
  rounds setup.recvBufChunks sess.totalLogicalQueues * sess.totalLogicalQueues <
    (setup.totalChunks + 1) * (setup.numPeers * setup.numPeers)

instance (sess : Session) : Decidable (setup.Unpadded sess) :=
  inferInstanceAs (Decidable (_ < _))

/-- For what has arrived in a step from the node before, a proxy builds the command that the
    kernel would push: it has the same tile, offset and number of bytes. -/
def SameForward (p : Internode.Cx7.Setup) (epoch : BitVec 32) (prev dev step rb : Nat) : Prop :=
  let built := p.makeForwardCmdFromNotify (notifyOf epoch (setup.hopWrite prev dev step rb).toCmd)
  let pushed := (setup.forwardWrite (setup.nextRank prev) dev step rb).toCmd
  built.tileId = pushed.tileId ∧ built.remoteOffset = pushed.remoteOffset ∧
    built.bytes = pushed.bytes

end Setup

/-! ## Numbers -/

/-- The tile of a forward, for an arrival slot `t`: it is `numPeers - 1` virtual slots further
    exactly if these are as large as the proxy takes them to be. -/
theorem tile_eq_iff {P T T' t : Nat} (hP : 2 ≤ P) (hT : 0 < T) (hle : T ≤ T')
    (hT' : T' * (P * P) < 2 ^ 31) (ht : t + (P - 1) * T < 2 ^ 31) :
    BitVec.ofNat 32 (forwardVirtual P (t / T') * T' + t % T') =
        BitVec.ofNat 32 (t + (P - 1) * T) ↔
      T' = T ∧ t / T' % P ≠ 0 := by
  have hdm := Nat.div_add_mod' t T'
  have hsq : 2 * P * T' ≤ T' * (P * P) := by
    rw [Nat.mul_comm T']
    exact Nat.mul_le_mul_right T' (Nat.mul_le_mul_right P hP)
  have hstep : (P - 1) * T' ≤ 2 * P * T' := Nat.mul_le_mul_right T' (by omega)
  have hmono : (P - 1) * T ≤ (P - 1) * T' := Nat.mul_le_mul_left _ hle
  have hpushed : (BitVec.ofNat 32 (t + (P - 1) * T)).toNat = t + (P - 1) * T := by
    rw [BitVec.toNat_ofNat, Nat.mod_eq_of_lt (by omega)]
  by_cases hslot : t / T' % P = 0
  · -- The slot after the last is further than any a shard is forwarded to.
    have hmore : (P - 1) * T' + T' ≤ 2 * P * T' := by
      rw [← Nat.succ_mul]
      exact Nat.mul_le_mul_right T' (by omega)
    refine iff_of_false ?_ fun h => h.2 hslot
    intro h
    have hnat := congrArg BitVec.toNat h
    rw [Internode.Cx7.forwardVirtual_of_eq hslot, Nat.add_mul, hpushed, BitVec.toNat_ofNat,
      Nat.mod_eq_of_lt (by omega)] at hnat
    omega
  · rw [and_iff_left hslot, Internode.Cx7.forwardVirtual_of_ne (by omega) hslot, Nat.add_mul]
    constructor
    · intro h
      have hnat := congrArg BitVec.toNat h
      rw [hpushed, BitVec.toNat_ofNat, Nat.mod_eq_of_lt (by omega)] at hnat
      exact Nat.eq_of_mul_eq_mul_left (by omega : 0 < P - 1) (by omega)
    · intro h
      rw [← h]
      congr 1
      omega

/-- The whole shards before a chunk are no more bytes than there are. -/
theorem shards_before_le {T A size : Nat} (hle : A ≤ T * size) (c : Nat) : c / T * A ≤ c * size :=
  calc c / T * A
      ≤ c / T * (T * size) := Nat.mul_le_mul_left _ hle
    _ = c / T * T * size := (Nat.mul_assoc _ _ _).symm
    _ ≤ c * size := Nat.mul_le_mul_right _ (Nat.div_mul_le_self c T)

/-- The offset of a forward, for a chunk `c` of a shard: it is put together again exactly if the
    shards that lie before it are as many in chunks as in bytes, and the rest fits. -/
theorem offset_eq_iff {T A c size : Nat} (hA : 0 < A) (hle : A ≤ T * size) :
    c / T * A + c * size % A % 2 ^ 32 = c * size ↔
      c / T = c * size / A ∧ c * size % A < 2 ^ 32 := by
  have hdm := Nat.div_add_mod' (c * size) A
  have hcut := Nat.mod_le (c * size % A) (2 ^ 32)
  have hfew : c / T ≤ c * size / A := by
    rw [Nat.le_div_iff_mul_le hA]
    exact shards_before_le hle c
  have hmono : c / T * A ≤ c * size / A * A := Nat.mul_le_mul_right A hfew
  constructor
  · intro h
    have hrest : c * size % A % 2 ^ 32 = c * size % A := by omega
    exact ⟨Nat.eq_of_mul_eq_mul_right hA (by omega), by omega⟩
  · rintro ⟨hsame, hsmall⟩
    rw [hsame, Nat.mod_eq_of_lt hsmall, hdm]

/-- The same with the slots, `v` here and `k` further at the next node. -/
theorem remote_eq_iff {T A c size v k : Nat} (hA : 0 < A) (hle : A ≤ T * size)
    (hfit : (v + k) * A + c * size < 2 ^ 64) :
    BitVec.ofNat 64 ((v + c / T + k) * A + (v * A + c * size) % A % 2 ^ 32) =
        BitVec.ofNat 64 ((v + k) * A + c * size) ↔
      c / T = c * size / A ∧ c * size % A < 2 ^ 32 := by
  have hbefore := shards_before_le hle c
  have hcut := Nat.mod_le (c * size % A) (2 ^ 32)
  have hmod := Nat.mod_lt (c * size) hA
  have hmono : (c / T) * A ≤ c * size / A * A := by
    have hdiv := (Nat.le_div_iff_mul_le hA).mpr hbefore
    exact Nat.mul_le_mul_right A hdiv
  have hdm := Nat.div_add_mod' (c * size) A
  have hsplit : (v + c / T + k) * A = (v + k) * A + c / T * A := by ring
  have hrest : (v * A + c * size) % A = c * size % A := Nat.mul_add_mod' v A (c * size)
  rw [← offset_eq_iff hA hle, hsplit, hrest]
  constructor
  · intro h
    have hnat := congrArg BitVec.toNat h
    rw [BitVec.toNat_ofNat, BitVec.toNat_ofNat, Nat.mod_eq_of_lt hfit,
      Nat.mod_eq_of_lt (by omega)] at hnat
    omega
  · intro h
    rw [Nat.add_assoc, h]

/-! ## Commands -/

section Forwards

variable {setup : Setup} {n s : Nat}

/-- The slot a node forwards to is one less than there are peers after the one the shard is in
    here. -/
theorem forwardSlot_eq (hn : n < setup.numNodes) (hs : s + 1 < setup.numPeers) :
    setup.forwardSlot n s = setup.awaitSlot n s + (setup.numPeers - 1) := by
  have hnext := hopSlot_eq hn hs
  rw [Setup.hopSlot, Setup.awaitSlot, slot_origin (nextRank_lt hn) hs, Nat.mul_succ] at hnext
  rw [hnext, Setup.awaitSlot, slot_origin hn (Nat.lt_of_succ_lt hs)]
  omega

theorem shard_pos (hcols : 0 < setup.cols) : 0 < setup.aHalfBytes := by
  rw [aHalfBytes_eq]
  exact Nat.mul_pos (globalRowBlocks_pos setup)
    (Nat.mul_pos (by decide) (Nat.mul_pos hcols (by decide)))

theorem totalChunks_pos (hcols : 0 < setup.cols) : 0 < setup.totalChunks := by
  have hpos := shard_pos hcols
  by_contra hzero
  have hle := (rounds_le_iff (by decide : 0 < chunkBytes)).mp (Nat.le_of_not_lt hzero)
  omega

/-- The node that is sent to keeps its shard in the slot it waits for, in the chunk and at the
    offset of the row block. -/
theorem notify_hopWrite {prev : Nat} (hprev : prev < setup.numNodes) (hs : s < setup.numPeers)
    (epoch : BitVec 32) (dev rb : Nat) :
    let note := notifyOf epoch (setup.hopWrite prev dev s rb).toCmd
    let v := setup.awaitSlot (setup.nextRank prev) s
    note.tileId = BitVec.ofNat 32 (v * setup.totalChunks + setup.firstChunk rb) ∧
      note.localOffset = BitVec.ofNat 64 (v * setup.aHalfBytes + setup.baseOffset rb) ∧
      note.bytes = BitVec.ofNat 32 (setup.rbBytes rb) := by
  intro note v
  rcases hopWrite_awaited hprev hs dev rb with ⟨-, htile, hoff, hbytes⟩
  refine ⟨?_, ?_, ?_⟩
  · exact congrArg (BitVec.ofNat 32) htile
  · exact congrArg (BitVec.ofNat 64) hoff
  · exact congrArg (BitVec.ofNat 32) hbytes

end Forwards

section Proxies

variable {setup : Setup} {sess : Session} {infos : Nat → ConnectionInfo} {rest : ProxyConfig}
  {env : Option String} {t : Nat} {p : Internode.Cx7.Setup}

/-- The number of chunks a proxy is told is not too small, and all virtual slots of as many are
    numbered by an `int`. -/
theorem exists_proxyChunks (hfits : setup.Fits sess) (hmany : 1 < setup.numPeers)
    (hcols : 0 < setup.cols) :
    ∃ chunks : Nat, sess.proxyTotalChunks true setup.recvBufChunks = chunks ∧
      setup.totalChunks ≤ chunks ∧ chunks * (setup.numPeers * setup.numPeers) < 2 ^ 31 := by
  have hmany' : 1 < sess.numPeers := by
    rw [hfits.peers]
    exact hmany
  have htiles : setup.recvBufChunks = setup.totalChunks * (sess.numPeers * sess.numPeers) := by
    rw [hfits.peers, Setup.recvBufChunks]
    ring
  have hle := Session.le_proxyTotalChunks hmany' (totalChunks_pos hcols)
  have hpos : 0 < setup.recvBufChunks :=
    Nat.mul_pos (Nat.mul_pos (by omega) (totalChunks_pos hcols)) (by omega)
  have hmul := Session.proxyTotalChunks_mul_le hmany' hpos
  have hrange := hfits.tiles
  rw [← htiles] at hle
  rcases Int.eq_ofNat_of_zero_le (by omega : 0 ≤ sess.proxyTotalChunks true setup.recvBufChunks)
    with ⟨chunks, hchunks⟩
  rw [hchunks] at hle hmul
  rw [← Int.natCast_mul, hfits.peers] at hmul
  exact ⟨chunks, hchunks, by omega, by omega⟩

/-- It is the kernel's exactly if rounding adds less than a slot for each virtual slot. -/
theorem proxyChunks_eq_iff (hfits : setup.Fits sess) (hmany : 1 < setup.numPeers)
    (hcols : 0 < setup.cols) :
    sess.proxyTotalChunks true setup.recvBufChunks = setup.totalChunks ↔ setup.Unpadded sess := by
  have hmany' : 1 < sess.numPeers := by
    rw [hfits.peers]
    exact hmany
  have htiles : setup.recvBufChunks = setup.totalChunks * (sess.numPeers * sess.numPeers) := by
    rw [hfits.peers, Setup.recvBufChunks]
    ring
  rw [Setup.Unpadded, ← hfits.peers, htiles]
  exact Session.proxyTotalChunks_eq_iff hmany' (totalChunks_pos hcols)

/-- What a proxy of a node is started with. -/
theorem cfg_proxy (hfits : setup.Fits sess) (hmany : 1 < setup.numPeers)
    (hp : p ∈ sess.proxy infos (setup.proxyConfig sess rest) env t) :
    p.cfg.numNodes = (setup.numPeers + 1 : Nat) ∧ p.cfg.rank = sess.cfg.rank ∧
      p.cfg.totalChunks = sess.proxyTotalChunks true setup.recvBufChunks ∧
      p.cfg.aHalfBytes = BitVec.ofNat 64 setup.aHalfBytes := by
  have hmany' : 1 < sess.numPeers := by
    rw [hfits.peers]
    exact hmany
  have hsize : setup.recvBufBytes = setup.aHalfBytes * (sess.numPeers * sess.numPeers) := by
    rw [hfits.peers, Setup.recvBufBytes]
    ring
  have hbytes := hfits.bytes
  have hnodes : sess.cfg.numPeers + 1 = (setup.numPeers + 1 : Nat) := by
    have hpeers := hfits.peers
    have hpos := sess.numPeers_pos
    unfold Session.numPeers at hpeers
    omega
  have hhalf : sess.proxyAHalfBytes true (BitVec.ofNat 64 setup.recvBufBytes) =
      BitVec.ofNat 64 setup.aHalfBytes := by
    rw [hsize]
    exact Session.proxyAHalfBytes_eq hmany' (by omega)
  rw [(Session.mem_proxy hp).1]
  exact ⟨hnodes, rfl, rfl, hhalf⟩

/-- It is one of the virtual slots. -/
theorem forwardSlot_lt {n s : Nat} (hn : n < setup.numNodes) (hs : s + 1 < setup.numPeers) :
    setup.forwardSlot n s < setup.numPeers * setup.numPeers := by
  rw [← Setup.hopSlot, hopSlot_eq hn hs, Setup.awaitSlot, slot_origin (nextRank_lt hn) hs,
    Nat.add_comm, Nat.mul_comm]
  exact place_lt hs (by omega)

/-- The slots, and the numbers for them, are in range. -/
theorem forward_ranges (hfits : setup.Fits sess) {n s rb : Nat} (hn : n < setup.numNodes)
    (hs : s + 1 < setup.numPeers)
    (hidx : setup.forwardSlot n s * setup.totalChunks + setup.firstChunk rb < 2 ^ 31) :
    setup.awaitSlot n s * setup.totalChunks + setup.firstChunk rb +
        (setup.numPeers - 1) * setup.totalChunks < 2 ^ 31 ∧
      (setup.awaitSlot n s + (setup.numPeers - 1)) * setup.aHalfBytes +
        setup.firstChunk rb * chunkBytes < 2 ^ 64 := by
  have hbytes := hfits.bytes
  have hplace := forwardSlot_lt hn hs
  have hroom : setup.forwardSlot n s * setup.aHalfBytes ≤ setup.recvBufBytes :=
    calc setup.forwardSlot n s * setup.aHalfBytes
        ≤ setup.numPeers * setup.numPeers * setup.aHalfBytes :=
          Nat.mul_le_mul_right _ (Nat.le_of_lt hplace)
      _ = setup.recvBufBytes := by rw [Setup.recvBufBytes]; ring
  have hchunk : chunkBytes = 65536 := rfl
  rw [forwardSlot_eq hn hs] at hidx hroom
  rw [hchunk]
  refine ⟨?_, by omega⟩
  rw [Nat.add_mul] at hidx
  omega

/-- What the kernel pushes. -/
theorem forwardWrite_toCmd {n s : Nat} (hn : n < setup.numNodes) (hs : s + 1 < setup.numPeers)
    (dev rb : Nat) :
    let pushed := (setup.forwardWrite n dev s rb).toCmd
    pushed.tileId = BitVec.ofNat 32 (setup.awaitSlot n s * setup.totalChunks +
        setup.firstChunk rb + (setup.numPeers - 1) * setup.totalChunks) ∧
      pushed.remoteOffset = BitVec.ofNat 64 ((setup.awaitSlot n s + (setup.numPeers - 1)) *
        setup.aHalfBytes + setup.firstChunk rb * chunkBytes) ∧
      pushed.bytes = BitVec.ofNat 32 (setup.rbBytes rb) := by
  intro pushed
  simp only [pushed, Write.toCmd, Setup.forwardWrite, Setup.rbWrite, forwardSlot_eq hn hs,
    Setup.baseOffset, and_true]
  rw [Nat.add_mul, Nat.add_right_comm]

/-- What a proxy builds that has been told of `chunks` chunks. -/
theorem built_eq (hfits : setup.Fits sess)
    (hp : p ∈ sess.proxy infos (setup.proxyConfig sess rest) env t) {prev s rb chunks : Nat}
    (hprev : prev < setup.numNodes) (hrank : sess.cfg.rank = setup.nextRank prev)
    (hcols : 0 < setup.cols) (hs : s + 1 < setup.numPeers)
    (hidx : setup.forwardSlot (setup.nextRank prev) s * setup.totalChunks + setup.firstChunk rb <
      2 ^ 31)
    (hchunks : sess.proxyTotalChunks true setup.recvBufChunks = chunks) (epoch : BitVec 32)
    (dev : Nat) :
    let built := p.makeForwardCmdFromNotify (notifyOf epoch (setup.hopWrite prev dev s rb).toCmd)
    let v := setup.awaitSlot (setup.nextRank prev) s
    let tile := v * setup.totalChunks + setup.firstChunk rb
    built.tileId =
        BitVec.ofNat 32 (forwardVirtual setup.numPeers (tile / chunks) * chunks + tile % chunks) ∧
      built.remoteOffset = BitVec.ofNat 64 (forwardVirtual setup.numPeers (tile / chunks) *
        setup.aHalfBytes + (v * setup.aHalfBytes + setup.firstChunk rb * chunkBytes) %
          setup.aHalfBytes % 2 ^ 32) ∧
      built.bytes = BitVec.ofNat 32 (setup.rbBytes rb) := by
  intro built v tile
  have hn := nextRank_lt hprev
  -- No product of the kernel leaves the range of its type here.
  rcases forward_ranges hfits hn hs hidx with ⟨hrange, hremote⟩
  rw [Nat.add_mul] at hremote
  have hrange : tile + (setup.numPeers - 1) * setup.totalChunks < 2 ^ 31 := hrange
  have hremote : v * setup.aHalfBytes + (setup.numPeers - 1) * setup.aHalfBytes +
      setup.firstChunk rb * chunkBytes < 2 ^ 64 := hremote
  rcases exists_proxyChunks hfits (by omega) hcols with ⟨chunks', hchunks', hle, hmul⟩
  obtain rfl : chunks = chunks' := Int.ofNat_inj.mp (hchunks.symm.trans hchunks')
  rcases cfg_proxy hfits (by omega) hp with ⟨hnodes, hrank', htotal, hhalf⟩
  rcases notify_hopWrite hprev (Nat.lt_of_succ_lt hs) epoch dev rb with ⟨ht, ho, hb⟩
  -- What the proxy reads from the notification is the tile and the offset, without a wrap.
  have htile : (notifyOf epoch (setup.hopWrite prev dev s rb).toCmd).tileId.toNat = tile := by
    rw [ht, BitVec.toNat_ofNat, Nat.mod_eq_of_lt (by omega)]
  have hoff : (notifyOf epoch (setup.hopWrite prev dev s rb).toCmd).localOffset.toNat =
      v * setup.aHalfBytes + setup.firstChunk rb * chunkBytes := by
    have hbase : setup.baseOffset rb = setup.firstChunk rb * chunkBytes := rfl
    rw [ho, hbase, BitVec.toNat_ofNat]
    exact Nat.mod_eq_of_lt (by omega)
  have hsq := Nat.mul_pos setup.numPeers_pos setup.numPeers_pos
  -- The sizes with which it computes are as small.
  have hsmall : chunks ≤ chunks * (setup.numPeers * setup.numPeers) := Nat.le_mul_of_pos_right _ hsq
  have hshard : setup.aHalfBytes ≤ setup.recvBufBytes := by
    rw [Setup.recvBufBytes, Nat.mul_right_comm]
    exact Nat.le_mul_of_pos_left _ hsq
  have hbytes := hfits.bytes
  have hlt : setup.nextRank prev < setup.numPeers + 1 := by
    unfold Setup.numPeers
    omega
  have hT := totalChunks_pos hcols
  have hmake := Internode.Cx7.makeForwardCmdFromNotify_eq p
    (n := notifyOf epoch (setup.hopWrite prev dev s rb).toCmd) hnodes (hrank'.trans hrank) hlt
    setup.numPeers_pos (htotal.trans hchunks) (by omega) (by omega) hhalf (by omega) (by omega)
  rw [htile, hoff] at hmake
  exact ⟨hmake.1, hmake.2.1, hmake.2.2.trans hb⟩

/-- When a proxy's forward is the kernel's, for any row block whose tile there is an `int`. -/
theorem sameForward_iff_sizes (hfits : setup.Fits sess)
    (hp : p ∈ sess.proxy infos (setup.proxyConfig sess rest) env t) {prev s rb : Nat}
    (hprev : prev < setup.numNodes) (hrank : sess.cfg.rank = setup.nextRank prev)
    (hcols : 0 < setup.cols) (hs : s + 1 < setup.numPeers)
    (hidx : setup.forwardSlot (setup.nextRank prev) s * setup.totalChunks + setup.firstChunk rb <
      2 ^ 31) (epoch : BitVec 32) (dev : Nat) :
    setup.SameForward p epoch prev dev s rb ↔
      setup.Unpadded sess ∧
        setup.firstChunk rb / setup.totalChunks = setup.baseOffset rb / setup.aHalfBytes ∧
        setup.baseOffset rb % setup.aHalfBytes < 2 ^ 32 ∧
        (setup.awaitSlot (setup.nextRank prev) s + setup.firstChunk rb / setup.totalChunks) %
          setup.numPeers ≠ 0 := by
  have hn := nextRank_lt hprev
  have hT := totalChunks_pos hcols
  rcases forward_ranges hfits hn hs hidx with ⟨hrange, hremote⟩
  rcases exists_proxyChunks hfits (by omega) hcols with ⟨chunks, hchunks, hle, hmul⟩
  rcases built_eq hfits hp hprev hrank hcols hs hidx hchunks epoch dev with ⟨hmt, hmo, hmb⟩
  rcases forwardWrite_toCmd hn hs dev rb with ⟨hpt, hpo, hpb⟩
  -- A shard is not longer than its chunks.
  have hcover : setup.aHalfBytes ≤ setup.totalChunks * chunkBytes := le_rounds_mul (by decide)
  -- The slot is in front of the chunks of its tile.
  have hdiv : (setup.awaitSlot (setup.nextRank prev) s * setup.totalChunks +
      setup.firstChunk rb) / setup.totalChunks =
        setup.awaitSlot (setup.nextRank prev) s + setup.firstChunk rb / setup.totalChunks := by
    rw [Nat.mul_comm, Nat.mul_add_div hT]
  rw [Setup.SameForward, hmt, hmo, hmb, hpt, hpo, hpb,
    tile_eq_iff (by omega) hT hle hmul hrange,
    ← proxyChunks_eq_iff hfits (by omega) hcols, hchunks, Int.ofNat_inj]
  constructor
  · rintro ⟨⟨hsame, hslot⟩, hoff, -⟩
    -- With the same sizes the proxy finds the slot of the kernel.
    rw [hsame, hdiv] at hslot hoff
    rw [Internode.Cx7.forwardVirtual_of_ne setup.numPeers_pos hslot,
      remote_eq_iff (shard_pos hcols) hcover hremote] at hoff
    exact ⟨hsame, hoff.1, hoff.2, hslot⟩
  · rintro ⟨hsame, hskip, hsmall, hslot⟩
    rw [hsame, hdiv, Internode.Cx7.forwardVirtual_of_ne setup.numPeers_pos hslot,
      remote_eq_iff (shard_pos hcols) hcover hremote]
    exact ⟨⟨rfl, hslot⟩, ⟨hskip, hsmall⟩, rfl⟩

/-- A row block that begins with a chunk of the shard begins with a byte of it. -/
theorem baseOffset_lt {rb : Nat} (h : setup.firstChunk rb < setup.totalChunks) :
    setup.baseOffset rb < setup.aHalfBytes := by
  by_contra hge
  have hle := (rounds_le_iff (by decide : 0 < chunkBytes)).mpr (Nat.le_of_not_lt hge)
  exact absurd h (Nat.not_lt.mpr hle)

/-- A proxy that is notified of what has arrived in a step from the node before builds the
    command that the kernel would push, exactly if rounding has left the number of chunks it is
    told as it is; and the row block begins within the shard, below 4 GiB, or otherwise as many
    whole shards after its beginning in chunks as in bytes, less than 4 GiB into one, and not
    where the next node's own slot is here. -/
theorem sameForward_iff (setup : Setup) (sess : Session) (infos : Nat → ConnectionInfo)
    (rest : ProxyConfig) (env : Option String) (t : Nat) (p : Internode.Cx7.Setup)
    (epoch : BitVec 32) (prev dev s rb : Nat) (hfits : setup.Fits sess)
    (hprev : prev < setup.numNodes) (hrank : sess.cfg.rank = setup.nextRank prev)
    (hp : p ∈ sess.proxy infos (setup.proxyConfig sess rest) env t) (hcols : 0 < setup.cols)
    (hs : s + 1 < setup.numPeers)
    (hidx : setup.forwardSlot (setup.nextRank prev) s * setup.totalChunks + setup.firstChunk rb <
      2 ^ 31) :
    setup.SameForward p epoch prev dev s rb ↔
      setup.Unpadded sess ∧
        setup.firstChunk rb / setup.totalChunks = setup.baseOffset rb / setup.aHalfBytes ∧
        setup.baseOffset rb % setup.aHalfBytes < 2 ^ 32 ∧
        (setup.awaitSlot (setup.nextRank prev) s + setup.firstChunk rb / setup.totalChunks) %
          setup.numPeers ≠ 0 :=
  sameForward_iff_sizes hfits hp hprev hrank hcols hs hidx epoch dev

end Proxies

/-- The slot a shard is in here is never that of the next node. -/
theorem awaitSlot_mod_ne {setup : Setup} {n s : Nat} (hn : n < setup.numNodes)
    (hs : s + 1 < setup.numPeers) : setup.awaitSlot n s % setup.numPeers ≠ 0 := by
  rw [awaitSlot_mod hn (Nat.lt_of_succ_lt hs), slot_origin hn (Nat.lt_of_succ_lt hs)]
  omega

/-- For row blocks of the shard, nothing is needed but the right number of chunks, and that the
    row block begins below 4 GiB. -/
theorem sameForward_iff_of_inside {setup : Setup} {sess : Session} {infos : Nat → ConnectionInfo}
    {rest : ProxyConfig} {env : Option String} {t : Nat} {p : Internode.Cx7.Setup}
    {prev s rb : Nat} (epoch : BitVec 32) (dev : Nat) (hfits : setup.Fits sess)
    (hprev : prev < setup.numNodes) (hrank : sess.cfg.rank = setup.nextRank prev)
    (hp : p ∈ sess.proxy infos (setup.proxyConfig sess rest) env t) (hcols : 0 < setup.cols)
    (hs : s + 1 < setup.numPeers) (hin : setup.firstChunk rb < setup.totalChunks) :
    setup.SameForward p epoch prev dev s rb ↔
      setup.Unpadded sess ∧
        setup.baseOffset rb < 2 ^ 32 := by
  have hn := nextRank_lt hprev
  have hbase := baseOffset_lt hin
  have hidx : setup.forwardSlot (setup.nextRank prev) s * setup.totalChunks +
      setup.firstChunk rb < 2 ^ 31 := by
    have hplace := place_lt (forwardSlot_lt hn hs) hin
    have htiles := hfits.tiles
    have hswap : setup.recvBufChunks = setup.numPeers * setup.numPeers * setup.totalChunks := by
      rw [Setup.recvBufChunks, Nat.mul_right_comm]
    omega
  rw [sameForward_iff_sizes hfits hp hprev hrank hcols hs hidx epoch dev, Nat.div_eq_of_lt hin,
    Nat.div_eq_of_lt hbase, Nat.mod_eq_of_lt hbase, Nat.add_zero,
    and_iff_left (awaitSlot_mod_ne hn hs), and_iff_right rfl]

section Sample

/-- Three nodes of one GPU, with one row of 256 and 256 columns on each. -/
def threeShards : Setup where
  numNodes := 3
  numDevices := 1
  localRowBlocks := 1
  cols := 256
  numIntraComm := 1
  numNodes_ge := two_le_three
  numDevices_pos := Nat.one_pos
  localRowBlocks_pos := Nat.one_pos
  cols_dvd := redBlock_dvd
  numIntraComm_pos := Nat.one_pos

/-- The second of three nodes, with so many QPs, and logical queues for each. -/
def secondNode (numQps logicalQueuesPerQp : Int) : Session where
  cfg :=
    { rank := 1
      numPeers := 2
      peerRanks := none
      numQps := numQps
      logicalQueuesPerQp := logicalQueuesPerQp
      numProxyThreads := 1
      channelizeGpuPeers := false }
  numPeers_pos := Int.natCast_pos.mpr Nat.two_pos
  numPeers_le := Int.le_of_lt_add_one (by change (2 : Int) < _; decide)

/-- Its proxy. -/
def secondProxy (sess : Session) : Internode.Cx7.Setup :=
  Internode.Cx7.Setup.ofConfig (sess.proxyConfig Internode.Cx7.sampleInfo
    (threeShards.proxyConfig sess Internode.Cx7.sampleConfig) 0) none

/-- With 8 logical queues, the 8 arrival slots need no rounding. -/
theorem eight_queues_forward :
    threeShards.SameForward (secondProxy (secondNode 8 1)) 1 0 0 0 1 := by
  have hfits : threeShards.Fits (secondNode 8 1) :=
    ⟨by decide, by decide +kernel, by decide +kernel⟩
  exact (sameForward_iff threeShards (secondNode 8 1) Internode.Cx7.sampleInfo
    Internode.Cx7.sampleConfig none 0 (secondProxy (secondNode 8 1)) 1 0 0 0 1 hfits (by decide)
    (by decide) rfl (by decide) (by decide) (by decide +kernel)).mpr (by decide +kernel)

/-- With the 48 logical queues of `ag_gemm` there are 48 arrival slots, and the proxy takes a
    virtual slot to have 12 chunks instead of 2. -/
theorem default_queues_forward :
    ¬ ∀ (setup : Setup) (sess : Session) (infos : Nat → ConnectionInfo) (rest : ProxyConfig)
        (env : Option String) (t : Nat) (p : Internode.Cx7.Setup) (epoch : BitVec 32)
        (prev dev s rb : Nat),
      setup.Fits sess → prev < setup.numNodes → sess.cfg.rank = setup.nextRank prev →
      p ∈ sess.proxy infos (setup.proxyConfig sess rest) env t → 0 < setup.cols →
      s + 1 < setup.numPeers → dev < setup.numDevices → rb < 2 * setup.globalRowBlocks →
      setup.SameForward p epoch prev dev s rb := by
  intro h
  have hfits : threeShards.Fits (secondNode 24 2) :=
    ⟨by decide, by decide +kernel, by decide +kernel⟩
  have hsame := h threeShards (secondNode 24 2) Internode.Cx7.sampleInfo
    Internode.Cx7.sampleConfig none 0 (secondProxy (secondNode 24 2)) 1 0 0 0 0 hfits (by decide)
    (by decide) rfl (by decide) (by decide) (by decide) (by decide)
  exact absurd hsame.1 (by decide +kernel)

end Sample

end AgGemm

end MKernel
