import MKernel.Internode.Efa.Session

/-!
# The Rails of an EFA Session

How `create_session` of the EFA backend divides its QPs between the devices it
has opened, and what it makes on each of them.

There are two divisions of the QPs. The rails get blocks of them, QP `i` rail
`i * numRails / numQps`; the proxies get slices of `qpsPerProxy`. A proxy has
one completion queue for its whole slice, and a completion queue belongs to one
device, so the two divisions have to agree: no slice may lie on two rails. They
do not agree for all counts. `verify` looks at every slice and puts all QPs on
rail 0 if it finds one that does not lie on one rail.

The device a verbs object belongs to is the context it was made from, for which
any type will do. What has not been made is `none`, as it is a null pointer in
the session.

## Main definitions

* `RailSetup`: The counts the rails and the slices are made from.
* `blockAssignment`, `verify`, `assignment`: The rails of the QPs.
* `proxyCq`, `flagStagingMr`, `srdQp`: What is made for the proxies and the QPs.
* `proxyEndpoint`: What the proxy of a thread posts with.

## Theorems

* `verify_eq`: What `verify` leaves is of one rail on every slice.
* `rails_aligned`: Whatever a proxy uses belongs to the device of its rail.
-/

namespace MKernel

namespace Internode

namespace Efa

structure ProtectionDomain (Ctx : Type) where
  ctx : Ctx
deriving DecidableEq

structure CompletionQueue (Ctx : Type) where
  ctx : Ctx
deriving DecidableEq

structure MemoryRegion (Ctx : Type) where
  pd : ProtectionDomain Ctx
deriving DecidableEq

structure AddressHandle (Ctx : Type) where
  pd : ProtectionDomain Ctx
deriving DecidableEq

/-- What `create_srd_qp` makes a QP from. -/
structure QueuePair (Ctx : Type) where
  pd : ProtectionDomain Ctx
  cq : CompletionQueue Ctx
  ctx : Ctx
deriving DecidableEq

/-- The rail of each QP, and the number of rails in use. -/
structure RailAssignment where
  qpRail : Nat → Nat
  numRails : Nat

/-- What a session makes its rails from. `openedDevs` are the contexts
    `open_efa_devices` comes back with, which never come to none, and
    `directDmabuf` says whether the send buffer is to be registered too. -/
structure RailSetup (Ctx : Type) where
  numQps : Nat
  numProxyThreads : Nat
  openedDevs : List Ctx
  directDmabuf : Bool
  numQps_pos : 0 < numQps
  numProxyThreads_pos : 0 < numProxyThreads
  openedDevs_pos : 0 < openedDevs.length

namespace RailSetup

variable {Ctx : Type} (c : RailSetup Ctx)

def qpsPerProxy : Nat := max 1 ((c.numQps + c.numProxyThreads - 1) / c.numProxyThreads)

def qpBase (t : Nat) : Nat := t * c.qpsPerProxy

def qpEnd (t : Nat) : Nat := min (c.qpBase t + c.qpsPerProxy) c.numQps

/-- The QPs of a thread, from `qp_base` to before `qp_end`. -/
def slice (t : Nat) : List Nat := List.range' (c.qpBase t) (c.qpEnd t - c.qpBase t)

/-- QPs there are none of have been zeroed before. -/
def blockAssignment : RailAssignment where
  qpRail i := if i < c.numQps then i * c.openedDevs.length / c.numQps else 0
  numRails := c.openedDevs.length

/-- All QPs on one rail. -/
def fallback : RailAssignment where
  qpRail _ := 0
  numRails := 1

/-- Whether a QP of the slice is on another rail than the first. -/
def misaligned (a : RailAssignment) (t : Nat) : Bool :=
  (c.slice t).any fun i => a.qpRail i ≠ a.qpRail (c.qpBase t)

/-- The loop that verifies the alignment, over the threads it has yet to look at. -/
def verify : List Nat → RailAssignment → RailAssignment
  | [], a => a
  | t :: ts, a =>
      if c.numQps ≤ c.qpBase t then a
      else
        let a' := if c.misaligned a t then fallback else a
        if a'.numRails = 1 then a' else verify ts a'

def assignment : RailAssignment := c.verify (List.range c.numProxyThreads) c.blockAssignment

def qpRail (i : Nat) : Nat := c.assignment.qpRail i

def numRails : Nat := c.assignment.numRails

/-- The rail of a proxy is that of its first QP. -/
def proxyRail (t : Nat) : Nat := if c.qpBase t < c.numQps then c.qpRail (c.qpBase t) else 0

def railCtx (r : Nat) : Option Ctx := c.openedDevs[r]?

/-- Protection domains are allocated on all opened devices, before the rails
    are assigned. -/
def railPd (r : Nat) : Option (ProtectionDomain Ctx) := (c.railCtx r).map ProtectionDomain.mk

def proxyCq (t : Nat) : Option (CompletionQueue Ctx) :=
  (c.railCtx (c.proxyRail t)).map CompletionQueue.mk

def ownerThread (i : Nat) : Nat := min (c.numProxyThreads - 1) (i / c.qpsPerProxy)

/-- QP `i`, which is `qp` or one of the `extra_qps`. -/
def srdQp (i : Nat) : Option (QueuePair Ctx) := do
  let pd ← c.railPd (c.qpRail i)
  let cq ← c.proxyCq (c.ownerThread i)
  let ctx ← c.railCtx (c.qpRail i)
  some ⟨pd, cq, ctx⟩

/-- The caller's send buffer, registered on the rails in use. -/
def localDataMr (r : Nat) : Option (MemoryRegion Ctx) :=
  if r < c.numRails then (c.railPd r).map MemoryRegion.mk else none

def clocalDataMr (r : Nat) : Option (MemoryRegion Ctx) :=
  if c.directDmabuf ∧ r < c.numRails then (c.railPd r).map MemoryRegion.mk else none

def flagStagingMr (t : Nat) : Option (MemoryRegion Ctx) :=
  (c.railPd (c.proxyRail t)).map MemoryRegion.mk

/-- The address handle of each peer. -/
def dstAh (r : Nat) : Option (AddressHandle Ctx) :=
  if r < c.numRails then (c.railPd r).map AddressHandle.mk else none

end RailSetup

/-- What a proxy is given of its device. -/
structure ProxyEndpoint (Ctx : Type) where
  qps : List (Option (QueuePair Ctx))
  cq : Option (CompletionQueue Ctx)
  dstAh : Option (AddressHandle Ctx)
  localDataMr : Option (MemoryRegion Ctx)
  clocalDataMr : Option (MemoryRegion Ctx)
  flagStagingMr : Option (MemoryRegion Ctx)

/-- All a proxy is given has been made on one device. Only the region of a
    direct send may be missing. -/
structure ProxyEndpoint.OnDevice (e : ProxyEndpoint Ctx) (ctx : Ctx) : Prop where
  qps : ∀ qp ∈ e.qps, qp = some ⟨⟨ctx⟩, ⟨ctx⟩, ctx⟩
  cq : e.cq = some ⟨ctx⟩
  dstAh : e.dstAh = some ⟨⟨ctx⟩⟩
  localDataMr : e.localDataMr = some ⟨⟨ctx⟩⟩
  clocalDataMr : ∀ mr ∈ e.clocalDataMr, mr = ⟨⟨ctx⟩⟩
  flagStagingMr : e.flagStagingMr = some ⟨⟨ctx⟩⟩

namespace RailSetup

variable {Ctx : Type} (c : RailSetup Ctx)

/-- What the proxy of a thread is started with, if it is started. -/
def proxyEndpoint (t : Nat) : Option (ProxyEndpoint Ctx) :=
  if c.qpBase t < c.numQps then
    some {
      qps := (c.slice t).map c.srdQp
      cq := c.proxyCq t
      dstAh := c.dstAh (c.proxyRail t)
      localDataMr := c.localDataMr (c.proxyRail t)
      clocalDataMr := c.clocalDataMr (c.proxyRail t)
      flagStagingMr := c.flagStagingMr t }
  else none

theorem qpsPerProxy_pos : 0 < c.qpsPerProxy := by
  unfold qpsPerProxy
  omega

/-- The proxies have all QPs between them. -/
theorem numQps_le_mul : c.numQps ≤ c.qpsPerProxy * c.numProxyThreads := by
  have hceil := Core.le_rounds_mul (n := c.numQps) c.numProxyThreads_pos
  exact Nat.le_trans hceil (Nat.mul_le_mul_right _ (Nat.le_max_right _ _))

theorem mem_slice {t i : Nat} :
    i ∈ c.slice t ↔ c.qpBase t ≤ i ∧ i < c.qpBase t + c.qpsPerProxy ∧ i < c.numQps := by
  unfold slice qpEnd
  rw [List.mem_range'_1]
  omega

/-- The threads a QP could be of are the one that it is divided to. -/
theorem mem_slice_iff {t i : Nat} (hi : i < c.numQps) :
    i ∈ c.slice t ↔ i / c.qpsPerProxy = t := by
  have hpos := c.qpsPerProxy_pos
  rw [c.mem_slice, Nat.div_eq_iff hpos]
  unfold qpBase
  constructor
  · rintro ⟨hle, hlt, -⟩
    omega
  · intro h
    omega

/-- No QP is left to a thread that is not there. -/
theorem div_lt_numProxyThreads {i : Nat} (hi : i < c.numQps) :
    i / c.qpsPerProxy < c.numProxyThreads := by
  rw [Nat.div_lt_iff_lt_mul c.qpsPerProxy_pos, Nat.mul_comm]
  exact Nat.lt_of_lt_of_le hi c.numQps_le_mul

theorem ownerThread_eq {t i : Nat} (h : i ∈ c.slice t) : c.ownerThread i = t := by
  have hi := (c.mem_slice.mp h).2.2
  have ht := (c.mem_slice_iff hi).mp h
  have hlt := c.div_lt_numProxyThreads hi
  unfold ownerThread
  omega

theorem misaligned_eq_false {a : RailAssignment} {t : Nat} :
    c.misaligned a t = false ↔ ∀ i ∈ c.slice t, a.qpRail i = a.qpRail (c.qpBase t) := by
  unfold misaligned
  rw [List.any_eq_false]
  simp only [ne_eq, decide_not, Bool.not_eq_true', decide_eq_false_iff_not, not_not]

/-- Slices that begin behind the last QP are empty, as are all behind them. -/
theorem slice_eq_nil {t u : Nat} (h : c.numQps ≤ c.qpBase t) (hu : t ≤ u) : c.slice u = [] := by
  have hmono : c.qpBase t ≤ c.qpBase u := Nat.mul_le_mul_right _ hu
  refine List.eq_nil_iff_forall_not_mem.mpr fun i hi => ?_
  have := c.mem_slice.mp hi
  omega

/-- Blocks of one rail are all of rail 0. -/
theorem blockAssignment_one (h : c.openedDevs.length = 1) (i : Nat) :
    c.blockAssignment.qpRail i = 0 := by
  unfold blockAssignment
  dsimp only
  by_cases hi : i < c.numQps
  · rw [if_pos hi, h, Nat.mul_one, Nat.div_eq_of_lt hi]
  · rw [if_neg hi]

/-- The loop leaves the blocks as they are only if it has found every slice it
    was to look at on one rail. -/
theorem verify_eq (t n : Nat) :
    c.verify (List.range' t n) c.blockAssignment = fallback ∨
      c.verify (List.range' t n) c.blockAssignment = c.blockAssignment ∧
        ∀ u, t ≤ u → u < t + n → c.misaligned c.blockAssignment u = false := by
  induction n generalizing t with
  | zero =>
      refine Or.inr ⟨rfl, ?_⟩
      intro u hle hlt
      exact absurd hlt (by omega)
  | succ n ih =>
      rw [List.range'_succ, verify]
      by_cases hbase : c.numQps ≤ c.qpBase t
      · rw [if_pos hbase]
        refine Or.inr ⟨rfl, ?_⟩
        intro u hle hlt
        rw [c.misaligned_eq_false, c.slice_eq_nil hbase hle]
        intro i hi
        exact absurd hi List.not_mem_nil
      rw [if_neg hbase]
      by_cases hmis : c.misaligned c.blockAssignment t = true
      · simp only [if_pos hmis]
        exact Or.inl (if_pos rfl)
      simp only [if_neg hmis]
      rw [Bool.not_eq_true] at hmis
      by_cases hone : c.blockAssignment.numRails = 1
      · -- With one rail the loop does not look any further.
        rw [if_pos hone]
        refine Or.inr ⟨rfl, ?_⟩
        intro u hle hlt
        rw [c.misaligned_eq_false]
        intro i hi
        rw [c.blockAssignment_one hone, c.blockAssignment_one hone]
      · rw [if_neg hone]
        rcases ih (t + 1) with hfall | ⟨heq, hrest⟩
        · exact Or.inl hfall
        · refine Or.inr ⟨heq, ?_⟩
          intro u hle hlt
          rcases Nat.eq_or_lt_of_le hle with rfl | hgt
          · exact hmis
          · exact hrest u hgt (by omega)

/-- Every slice lies on one rail, which is in use and opened. -/
theorem qpRail_eq {t i : Nat} (ht : t < c.numProxyThreads) (hi : i ∈ c.slice t) :
    c.qpRail i = c.proxyRail t := by
  have hmem := c.mem_slice.mp hi
  have hverify := c.verify_eq 0 c.numProxyThreads
  rw [← List.range_eq_range'] at hverify
  rw [proxyRail, if_pos (by omega)]
  unfold qpRail assignment
  rcases hverify with hfall | ⟨heq, hall⟩
  · rw [hfall]
    rfl
  · rw [heq]
    exact c.misaligned_eq_false.mp (hall t (Nat.zero_le t) (by omega)) i hi

/-- No more rails are in use than have been opened, and there is one. -/
theorem numRails_le : 0 < c.numRails ∧ c.numRails ≤ c.openedDevs.length := by
  have hpos := c.openedDevs_pos
  have hverify := c.verify_eq 0 c.numProxyThreads
  rw [← List.range_eq_range'] at hverify
  unfold numRails assignment
  rcases hverify with hfall | ⟨heq, -⟩
  · rw [hfall]
    exact ⟨Nat.one_pos, hpos⟩
  · rw [heq]
    exact ⟨hpos, Nat.le_refl _⟩

/-- A QP is on a rail in use. -/
theorem qpRail_lt {i : Nat} (hi : i < c.numQps) : c.qpRail i < c.numRails := by
  have hpos := c.openedDevs_pos
  have hverify := c.verify_eq 0 c.numProxyThreads
  rw [← List.range_eq_range'] at hverify
  unfold qpRail numRails assignment
  rcases hverify with hfall | ⟨heq, -⟩
  · rw [hfall]
    exact Nat.one_pos
  · rw [heq]
    change (if i < c.numQps then i * c.openedDevs.length / c.numQps else 0) < c.openedDevs.length
    rw [if_pos hi, Nat.div_lt_iff_lt_mul c.numQps_pos, Nat.mul_comm]
    exact Nat.mul_lt_mul_of_pos_left hi hpos

theorem proxyRail_lt (t : Nat) : c.proxyRail t < c.numRails := by
  unfold proxyRail
  by_cases h : c.qpBase t < c.numQps
  · rw [if_pos h]
    exact c.qpRail_lt h
  · rw [if_neg h]
    exact c.numRails_le.1

/-- The device of a proxy has been opened. -/
theorem railCtx_proxyRail (t : Nat) : ∃ ctx, c.railCtx (c.proxyRail t) = some ctx := by
  have hlt : c.proxyRail t < c.openedDevs.length :=
    Nat.lt_of_lt_of_le (c.proxyRail_lt t) c.numRails_le.2
  exact ⟨c.openedDevs[c.proxyRail t], List.getElem?_eq_getElem hlt⟩

/-- A QP is made of the protection domain, the completion queue and the context
    of its proxy's device. -/
theorem srdQp_eq {t i : Nat} {ctx : Ctx} (ht : t < c.numProxyThreads) (hi : i ∈ c.slice t)
    (hctx : c.railCtx (c.proxyRail t) = some ctx) :
    c.srdQp i = some ⟨⟨ctx⟩, ⟨ctx⟩, ctx⟩ := by
  unfold srdQp railPd proxyCq
  rw [c.ownerThread_eq hi, c.qpRail_eq ht hi, hctx]
  rfl

/-- What a proxy is started with is all of its device. -/
theorem onDevice_proxyEndpoint {t : Nat} {ctx : Ctx} {e : ProxyEndpoint Ctx}
    (ht : t < c.numProxyThreads) (hctx : c.railCtx (c.proxyRail t) = some ctx)
    (he : c.proxyEndpoint t = some e) : e.OnDevice ctx := by
  have hlt := c.proxyRail_lt t
  have hpd : c.railPd (c.proxyRail t) = some ⟨ctx⟩ := by
    rw [railPd, hctx]
    rfl
  unfold proxyEndpoint at he
  by_cases hbase : c.qpBase t < c.numQps
  · rw [if_pos hbase, Option.some.injEq] at he
    rw [← he]
    constructor
    -- Each part was made from the rail of the thread, which is on this device.
    case qps =>
      intro qp hqp
      obtain ⟨i, hi, rfl⟩ := List.mem_map.mp hqp
      exact c.srdQp_eq ht hi hctx
    case cq =>
      change (c.railCtx _).map _ = _
      rw [hctx]
      rfl
    case dstAh =>
      change (if c.proxyRail t < c.numRails then _ else _) = _
      rw [if_pos hlt, hpd]
      rfl
    case localDataMr =>
      change (if c.proxyRail t < c.numRails then _ else _) = _
      rw [if_pos hlt, hpd]
      rfl
    case clocalDataMr =>
      intro mr hmr
      -- The direct region is registered on the same rail, or not at all.
      change mr ∈ (if c.directDmabuf ∧ c.proxyRail t < c.numRails then _ else _) at hmr
      by_cases hdirect : c.directDmabuf = true ∧ c.proxyRail t < c.numRails
      · rw [if_pos hdirect, hpd] at hmr
        exact (Option.some.inj hmr).symm
      · rw [if_neg hdirect] at hmr
        exact absurd hmr (by simp only [Option.mem_def, reduceCtorEq, not_false_eq_true])
    case flagStagingMr =>
      change (c.railPd _).map _ = _
      rw [hpd]
      rfl
  · rw [if_neg hbase] at he
    exact absurd he (by simp only [reduceCtorEq, not_false_eq_true])

/-- Whatever the counts, the QPs of a proxy are on the rail of the proxy, and
    its completion queue, its staging region, its QPs and all else it is started
    with are of the device of that rail. No QP is left without a proxy. -/
theorem rails_aligned :
    (∀ t < c.numProxyThreads,
      (∀ i ∈ c.slice t, c.qpRail i = c.proxyRail t) ∧
      ∃ ctx, c.railCtx (c.proxyRail t) = some ctx ∧
        c.proxyCq t = some ⟨ctx⟩ ∧
        c.flagStagingMr t = some ⟨⟨ctx⟩⟩ ∧
        (∀ i ∈ c.slice t, c.srdQp i = some ⟨⟨ctx⟩, ⟨ctx⟩, ctx⟩) ∧
        ∀ e ∈ c.proxyEndpoint t, e.OnDevice ctx) ∧
    ∀ i < c.numQps, ∃ t < c.numProxyThreads, i ∈ c.slice t ∧ c.ownerThread i = t := by
  constructor
  · intro t ht
    obtain ⟨ctx, hctx⟩ := c.railCtx_proxyRail t
    have hcq : c.proxyCq t = some ⟨ctx⟩ := by
      rw [proxyCq, hctx]
      rfl
    have hmr : c.flagStagingMr t = some ⟨⟨ctx⟩⟩ := by
      rw [flagStagingMr, railPd, hctx]
      rfl
    -- All that the proxy uses is opened on the context of its rail.
    refine ⟨fun i hi => c.qpRail_eq ht hi, ctx, hctx, hcq, hmr, ?_, ?_⟩
    · intro i hi
      exact c.srdQp_eq ht hi hctx
    · intro e he
      exact c.onDevice_proxyEndpoint ht hctx he
  · -- The proxy that owns a QP is the one of its block.
    intro i hi
    have hslice : i ∈ c.slice (i / c.qpsPerProxy) := (c.mem_slice_iff hi).mpr rfl
    exact ⟨_, c.div_lt_numProxyThreads hi, hslice, c.ownerThread_eq hslice⟩

end RailSetup

/-- What a session makes its rails from, once it has opened its devices. -/
def Session.railSetup {Ctx : Type} (s : Session) (openedDevs : List Ctx) (directDmabuf : Bool)
    (h : 0 < openedDevs.length) : RailSetup Ctx where
  numQps := s.numQps
  numProxyThreads := s.numProxyThreads
  openedDevs := openedDevs
  directDmabuf := directDmabuf
  numQps_pos := s.numQps_pos
  numProxyThreads_pos := s.numProxyThreads_pos
  openedDevs_pos := h

/-- The QPs a session starts a proxy with are those it counts for it: its rails
    and its proxies cut the same slices. -/
theorem Session.length_slice {Ctx : Type} (s : Session) (openedDevs : List Ctx)
    (directDmabuf : Bool) (h : 0 < openedDevs.length) (t : Nat) :
    ((s.railSetup openedDevs directDmabuf h).slice t).length = (s.localQps t).toNat := by
  unfold RailSetup.slice RailSetup.qpEnd RailSetup.qpBase Session.localQps
  rw [List.length_range']
  change min (t * s.qpsPerProxy + s.qpsPerProxy) s.numQps - t * s.qpsPerProxy = _
  omega

/-- Two rails for 24 QPs and five threads: the third slice is QPs 10 to 14, of
    which the first two are on rail 0, so all end up there. -/
example :
    let c : RailSetup Nat := ⟨24, 5, [100, 101], false, by decide, by decide, by decide⟩
    c.misaligned c.blockAssignment 2 = true ∧ c.qpRail 23 = 0 ∧ c.numRails = 1 := by
  decide

end Efa

end Internode

end MKernel
