import MKernel.Core.Noted
import MKernel.Core.Ring
import MKernel.Internode.Efa.Posts

/-!
# The Staging Ring of the EFA Proxy

Words that wait in memory until the NIC has read them.

SRD has no inline sends, so every arrival word, tail counter and barrier token is put in a slot of
a ring, and the request reads it from there when the NIC gets to it. The slot is the one at the
cursor, which is moved on and wraps. Nothing connects the cursor with completions: the ring is
taken to be so large that the NIC has read a slot long before the cursor is back. But a batch whose
post fails is built again for every retry and draws new slots each time, so a proxy that retries
for long enough comes around while a request that was posted before still waits on a slow QP
(`staging_overwritten`). A stage barrier whose post fails, the proxy's own or the host's, has drawn
its slot and put its token there as well.

Which draw of the cursor would take the slot of a request again is noted when the request is
built. As long as no action draws that far before the request is completed, no slot gets other
contents while it is read from (`staging_unchanged`). In the flat layout all arrival words come
from the first slot, which the ring gives to barriers too. There the first slot has to hold the
epoch as long as an arrival word is read from it.

## Main definitions

* `SourcesFrom`: A request reads from a slot of the ring.
* `Owns`, `Shares`: A request has drawn a slot of its own, or reads the one of the flat layout.
* `claims`: The number of slots an action draws.
* `Claims`, `noteClaims`: The slots drawn so far, and the draw that takes a request's slot again.
* `firstWord`: The word an action puts in the first slot in the flat layout.
* `KeepsFirst`, `InTime`: The condition on an action.
* `Draws`: What an action does to the ring.
* `StagingInv`: Every slot that is read from is the one noted.

## Theorems

* `postBatch_draws`: What building a batch draws.
* `step_draws`: What an action draws.
* `StagingInv.of_draws`: Drawing slots keeps the ring in order.
* `Draws.unchanged`: It leaves the slots alone that are still read from.
* `staging_unchanged`: No slot is overwritten while it is read from, under the condition.
* `retry_run`: A batch that fails to post again only draws slots.
* `staging_overwritten`: With enough retries, a slot is overwritten.
-/

namespace MKernel

namespace Internode

namespace Efa

open MKernel.Core

variable {setup : Setup} {w w' : World}

/-- The source of a request is a word of the staging ring. -/
def Role.Staged : Role → Prop
  | .flag _ => True
  | .tail _ => True
  | .barrier => True
  | _ => False

instance (r : Role) : Decidable r.Staged := by
  unfold Role.Staged
  split <;> infer_instance

/-- A request reads from a slot of the staging ring. -/
def SourcesFrom (setup : Setup) (wr : WorkRequest) (slot : Nat) : Prop :=
  wr.role.Staged ∧ wr.addr = setup.cfg.flagStaging.slotAddr slot

instance (setup : Setup) (wr : WorkRequest) (slot : Nat) :
    Decidable (SourcesFrom setup wr slot) := inferInstanceAs (Decidable (_ ∧ _))

/-- The arrival words of all commands come from the first slot. -/
def Setup.Flat (setup : Setup) : Prop :=
  setup.notifyMode = .remoteFlag ∧ setup.cfg.useArrivalQueue = false

instance (setup : Setup) : Decidable setup.Flat := inferInstanceAs (Decidable (_ ∧ _))

/-- A request has drawn a slot of its own. -/
def Owns (setup : Setup) (wr : WorkRequest) : Prop :=
  wr.role.Staged ∧ (setup.Flat → wr.role = .barrier)

instance (setup : Setup) (wr : WorkRequest) : Decidable (Owns setup wr) :=
  inferInstanceAs (Decidable (_ ∧ (_ → _)))

/-- A request reads the slot all arrival words of the flat layout come from. -/
def Shares (setup : Setup) (wr : WorkRequest) : Prop :=
  setup.Flat ∧ wr.role.Staged ∧ wr.role ≠ .barrier

instance (setup : Setup) (wr : WorkRequest) : Decidable (Shares setup wr) :=
  inferInstanceAs (Decidable (_ ∧ _ ∧ _))

/-- The number of slots the requests of a command draw in the arrival-queue layout. -/
def Setup.claimsPerCommand (setup : Setup) (peer : PerPeerProxyData) : Nat :=
  if setup.hasTail peer then 2 else 1

/-- The number of slots a batch draws. -/
def batchClaims (setup : Setup) (peer : PerPeerProxyData) (batch : List Polled) : Nat :=
  if setup.notifyMode = .remoteFlag ∧ setup.cfg.useArrivalQueue = true then
    batch.length * setup.claimsPerCommand peer
  else 0

/-- The number of slots an action draws. -/
def claims (setup : Setup) (w : World) : Action → Nat
  | .hostBarrier _ _ _ _ => 1
  | .proxy _ _ =>
      match w.pc with
      | .stageBarrier _ p =>
          if p < setup.cfg.numPeers ∧ (setup.cfg.perPeer p).remoteBarrierAddr ≠ 0 then 1 else 0
      | .post c => batchClaims setup (setup.cfg.perPeer (peerSlot setup c.batch)) c.batch
      | _ => 0
  | _ => 0

/-- The number of slots drawn since the epoch was set, and for each request the number of the
    draw that takes its slot again. -/
structure Claims where
  total : Nat
  due : WorkRequest → Nat

def Claims.init : Claims := ⟨0, fun _ => 0⟩

/-- The draw that takes the slot of a request again, where the slot is among the `m` drawn from
    the `n`th on. -/
def dueOf (setup : Setup) (n m : Nat) (wr : WorkRequest) : Nat :=
  n + (List.range m).findIdx (fun i =>
    wr.addr = setup.cfg.flagStaging.slotAddr ((n + i) % setup.cfg.flagStaging.count)) +
    setup.cfg.flagStaging.count

/-- The slots an action draws are noted, and for the requests it posts when their slots are drawn
    again. When the epoch is set, the cursor is back at the first slot. -/
def noteClaims (setup : Setup) (w : World) (a : Action) (_ : World) (c : Claims) : Claims :=
  match a with
  | .setEpoch _ => ⟨0, fun wr => c.due wr % setup.cfg.flagStaging.count⟩
  | a =>
      { total := c.total + claims setup w a
        due := fun wr => if wr ∈ w.nic.uncompleted then c.due wr
          else dueOf setup c.total (claims setup w a) wr }

/-- The word an action puts in the first slot in the flat layout, as a batch's or a barrier's. -/
def firstWord (setup : Setup) (w : World) : Action → Option (BitVec 32)
  | .hostBarrier _ _ token _ =>
      if setup.Flat ∧ w.flags.stagingCursor.toNat % setup.cfg.flagStaging.count = 0 then some token
      else none
  | .proxy _ _ =>
      match w.pc with
      | .stageBarrier _ p =>
          if (p < setup.cfg.numPeers ∧ (setup.cfg.perPeer p).remoteBarrierAddr ≠ 0) ∧ setup.Flat ∧
              w.flags.stagingCursor.toNat % setup.cfg.flagStaging.count = 0 then some w.epoch
          else none
      | .post c => if c.batch ≠ [] ∧ setup.Flat then some w.epoch else none
      | _ => none
  | _ => none

/-- In the flat layout the first slot keeps the epoch. -/
def KeepsFirst (setup : Setup) (w : World) : Action → Prop
  | .setEpoch epoch => (∃ wr ∈ w.nic.uncompleted, Shares setup wr) → epoch = w.epoch
  | .hostBarrier _ _ token _ => w.flags.stagingCursor.toNat % setup.cfg.flagStaging.count = 0 →
      (∃ wr ∈ w.nic.uncompleted, Shares setup wr) → token = w.epoch
  | .proxy _ _ =>
      match w.pc with
      -- A batch writes the epoch there, which a barrier that drew the slot may not carry.
      | .post c => c.batch ≠ [] → setup.Flat →
          (∃ wr ∈ w.nic.uncompleted, wr.role = .barrier ∧ SourcesFrom setup wr 0) →
          w.flags.staging 0 = w.epoch
      | _ => True
  | _ => True

instance (setup : Setup) (w : World) (a : Action) : Decidable (KeepsFirst setup w a) := by
  unfold KeepsFirst
  generalize w.pc = pc
  apply @Action.casesOn _ a
  case proxy => exact fun _ _ => by apply @Pc.casesOn _ pc <;> intros <;> infer_instance
  all_goals intros; infer_instance

/-- The condition on an action: it does not draw the slot of a request that is not completed,
    and in the flat layout the first slot keeps the epoch. -/
structure InTime (setup : Setup) (t : World × Claims) (a : Action) : Prop where
  round : 0 < claims setup t.1 a → ∀ wr ∈ t.1.nic.uncompleted, Owns setup wr →
    t.2.total + claims setup t.1 a ≤ t.2.due wr
  first : KeepsFirst setup t.1 a

instance (setup : Setup) (t : World × Claims) (a : Action) : Decidable (InTime setup t a) :=
  decidable_of_iff ((0 < claims setup t.1 a → ∀ wr ∈ t.1.nic.uncompleted, Owns setup wr →
      t.2.total + claims setup t.1 a ≤ t.2.due wr) ∧ KeepsFirst setup t.1 a)
    ⟨fun h => ⟨h.1, h.2⟩, fun h => ⟨h.1, h.2⟩⟩

/-! ## Drawing slots -/

section Draw

variable {count n m k : Nat} {fs fs' fs'' : FlagState}

/-- The slot and the cursor, where the rounds of the cursor are rounds of the ring. -/
theorem stage_eq (hcount : count ∣ 2 ^ 32) (hc : fs.stagingCursor = BitVec.ofNat 32 n)
    (value : BitVec 32) :
    (fs.stage count value).1 = n % count ∧
      (fs.stage count value).2.stagingCursor = BitVec.ofNat 32 (n + 1) ∧
      (fs.stage count value).2.staging = Function.update fs.staging (n % count) value := by
  have hslot : fs.stagingCursor.toNat % count = n % count := by
    rw [hc, BitVec.toNat_ofNat, Nat.mod_mod_of_dvd n hcount]
  refine ⟨hslot, ?_, ?_⟩
  · change fs.stagingCursor + 1 = BitVec.ofNat 32 (n + 1)
    rw [hc, BitVec.ofNat_add]
    rfl
  · change Function.update fs.staging (fs.stagingCursor.toNat % count) value = _
    rw [hslot]

/-- From the `n`th slot on, `m` slots were drawn, and no others written to. -/
structure Drawn (count n m : Nat) (fs fs' : FlagState) : Prop where
  cursor : fs'.stagingCursor = BitVec.ofNat 32 (n + m)
  staging : ∀ s, (∀ i, n ≤ i → i < n + m → s ≠ i % count) → fs'.staging s = fs.staging s

theorem drawn_refl (hc : fs.stagingCursor = BitVec.ofNat 32 n) : Drawn count n 0 fs fs :=
  ⟨hc, fun _ _ => rfl⟩

theorem drawn_stage (hcount : count ∣ 2 ^ 32) (hc : fs.stagingCursor = BitVec.ofNat 32 n)
    (value : BitVec 32) : Drawn count n 1 fs (fs.stage count value).2 := by
  rcases stage_eq hcount hc value with ⟨-, hcur, hst⟩
  refine ⟨hcur, fun s hs => ?_⟩
  rw [hst, Function.update_of_ne (hs n (Nat.le_refl n) (Nat.lt_succ_self n))]

theorem Drawn.trans (h : Drawn count n m fs fs') (h' : Drawn count (n + m) k fs' fs'') :
    Drawn count n (m + k) fs fs'' where
  cursor := by rw [h'.cursor, Nat.add_assoc]
  staging s hs := by
    rw [h'.staging s fun i hi hi' => hs i (by omega) (by omega),
      h.staging s fun i hi hi' => hs i hi (by omega)]

/-- A change of the sequence counters draws nothing. -/
theorem Drawn.seq (h : Drawn count n m fs fs') (senderSeq : Nat → BitVec 32) :
    Drawn count n m fs { fs' with senderSeq := senderSeq } :=
  ⟨h.cursor, h.staging⟩

end Draw

section Batch

variable {peer : PerPeerProxyData} {dstQpn : BitVec 32} {fs : FlagState} {n m : Nat}

/-- What the requests read from is among the slots drawn. -/
def ReadsDrawn (setup : Setup) (n m : Nat) (ws : List WorkRequest) : Prop :=
  ∀ wr ∈ ws, wr.role.Staged → ∃ i, n ≤ i ∧ i < n + m ∧
    wr.addr = setup.cfg.flagStaging.slotAddr (i % setup.cfg.flagStaging.count)

theorem ReadsDrawn.append {k : Nat} {ws ws' : List WorkRequest} (h : ReadsDrawn setup n m ws)
    (h' : ReadsDrawn setup (n + m) k ws') : ReadsDrawn setup n (m + k) (ws ++ ws') := by
  intro wr hwr hs
  rcases List.mem_append.mp hwr with hwr | hwr
  · rcases h wr hwr hs with ⟨i, h1, h2, h3⟩
    exact ⟨i, h1, by omega, h3⟩
  · rcases h' wr hwr hs with ⟨i, h1, h2, h3⟩
    exact ⟨i, by omega, by omega, h3⟩

/-- A command in the arrival-queue layout draws a slot for its arrival word, and one for the tail
    if it publishes one. -/
theorem queueRequests_drawn (hcount : setup.cfg.flagStaging.count ∣ 2 ^ 32)
    (hc : fs.stagingCursor = BitVec.ofNat 32 n) (p : Polled) :
    Drawn setup.cfg.flagStaging.count n (setup.claimsPerCommand peer) fs
        (queueRequests setup peer dstQpn fs p).2 ∧
      ReadsDrawn setup n (setup.claimsPerCommand peer)
        (queueRequests setup peer dstQpn fs p).1 := by
  have hflag := stage_eq hcount hc (packArrivalWork p.cmd.tileId (runTiles p.cmd.bytes))
  have hdraw := drawn_stage hcount hc (packArrivalWork p.cmd.tileId (runTiles p.cmd.bytes))
  unfold queueRequests Setup.claimsPerCommand
  dsimp only
  generalize fs.stage setup.cfg.flagStaging.count
    (packArrivalWork p.cmd.tileId (runTiles p.cmd.bytes)) = r at hflag hdraw ⊢
  rcases r with ⟨slot, fs₁⟩
  rcases hflag with ⟨hslot, hcur, -⟩
  dsimp only at hslot hcur hdraw ⊢
  by_cases ht : setup.hasTail peer = true
  · simp only [if_pos ht]
    have hdraw' := hdraw.seq (Function.update fs₁.senderSeq (setup.logicalQueue p.cmd)
      (fs₁.senderSeq (setup.logicalQueue p.cmd) + 1))
    -- The tail counter takes the slot after the arrival word's.
    have htail := stage_eq hcount hdraw'.cursor (fs₁.senderSeq (setup.logicalQueue p.cmd) + 1)
    refine ⟨hdraw'.trans (drawn_stage hcount hdraw'.cursor _), fun wr hwr hs => ?_⟩
    simp only [List.mem_cons, List.not_mem_nil, or_false] at hwr
    rcases hwr with rfl | rfl | rfl
    · exact absurd hs not_false
    · exact ⟨n, Nat.le_refl n, by omega, by rw [← hslot]; rfl⟩
    · exact ⟨n + 1, by omega, by omega, by rw [← htail.1]; rfl⟩
  · simp only [if_neg ht]
    refine ⟨hdraw.seq _, fun wr hwr hs => ?_⟩
    simp only [List.mem_cons, List.not_mem_nil, or_false] at hwr
    rcases hwr with rfl | rfl
    · exact absurd hs not_false
    · exact ⟨n, Nat.le_refl n, by omega, by rw [← hslot]; rfl⟩

theorem remoteFlagLoop_drawn (hcount : setup.cfg.flagStaging.count ∣ 2 ^ 32)
    (hq : setup.cfg.useArrivalQueue = true) (batch : List Polled)
    (hc : fs.stagingCursor = BitVec.ofNat 32 n) :
    Drawn setup.cfg.flagStaging.count n (batch.length * setup.claimsPerCommand peer) fs
        (remoteFlagLoop setup peer dstQpn fs batch).2 ∧
      ReadsDrawn setup n (batch.length * setup.claimsPerCommand peer)
        (remoteFlagLoop setup peer dstQpn fs batch).1 := by
  induction batch generalizing n fs with
  | nil =>
      rw [List.length_nil, Nat.zero_mul]
      exact ⟨drawn_refl hc, fun _ hwr => absurd hwr List.not_mem_nil⟩
  | cons p t ih =>
      have hp : Drawn setup.cfg.flagStaging.count n (setup.claimsPerCommand peer) fs
            (queueRequests setup peer dstQpn fs p).2 ∧
          ReadsDrawn setup n (setup.claimsPerCommand peer)
            (queueRequests setup peer dstQpn fs p).1 := queueRequests_drawn hcount hc p
      rcases hp with ⟨hd, hs⟩
      rcases ih hd.cursor with ⟨hd', hs'⟩
      -- What the commands draw adds up.
      have hlen : (p :: t).length * setup.claimsPerCommand peer =
          setup.claimsPerCommand peer + t.length * setup.claimsPerCommand peer := by
        rw [List.length_cons, Nat.succ_mul, Nat.add_comm]
      rw [hlen]
      simp only [remoteFlagLoop, remoteFlagRequests, hq, if_true]
      exact ⟨hd.trans hd', hs.append hs'⟩

/-- A batch in the flat layout draws nothing, and its arrival words come from the first slot. -/
theorem remoteFlagLoop_flat (hq : setup.cfg.useArrivalQueue = false) (batch : List Polled) :
    (remoteFlagLoop setup peer dstQpn fs batch).2 = fs ∧
      ∀ wr ∈ (remoteFlagLoop setup peer dstQpn fs batch).1, wr.role.Staged →
        wr.role ≠ .barrier ∧ wr.addr = setup.cfg.flagStaging.slotAddr 0 := by
  induction batch with
  | nil => exact ⟨rfl, fun _ hwr => absurd hwr List.not_mem_nil⟩
  | cons p t ih =>
      simp only [remoteFlagLoop, remoteFlagRequests, hq, Bool.false_eq_true, if_false]
      refine ⟨ih.1, fun wr hwr hs => ?_⟩
      rcases List.mem_append.mp hwr with hwr | hwr
      · simp only [flatRequests, List.mem_cons, List.not_mem_nil, or_false] at hwr
        rcases hwr with rfl | rfl
        · exact absurd hs not_false
        · exact ⟨Role.noConfusion, rfl⟩
      · exact ih.2 wr hwr hs

/-- What requests and words an action adds in an epoch, where it draws `m` slots from the `n`th
    on, and has a word for the first slot in the flat layout. -/
structure Draws (setup : Setup) (epoch : BitVec 32) (word : Option (BitVec 32)) (n m : Nat)
    (fs fs' : FlagState) (ws : List WorkRequest) : Prop where
  cursor : fs'.stagingCursor = BitVec.ofNat 32 (n + m)
  kept : ∀ s, (∀ i, n ≤ i → i < n + m → s ≠ i % setup.cfg.flagStaging.count) →
    (s = 0 → word = none) → fs'.staging s = fs.staging s
  first : ∀ v, word = some v → fs'.staging 0 = v
  owned : ∀ wr ∈ ws, Owns setup wr → ∃ i, n ≤ i ∧ i < n + m ∧
    wr.addr = setup.cfg.flagStaging.slotAddr (i % setup.cfg.flagStaging.count)
  shared : ∀ wr ∈ ws, Shares setup wr →
    fs'.staging 0 = epoch ∧ wr.addr = setup.cfg.flagStaging.slotAddr 0

theorem draws_refl (hc : fs.stagingCursor = BitVec.ofNat 32 n) (epoch : BitVec 32) :
    Draws setup epoch none n 0 fs fs [] where
  cursor := hc
  kept _ _ _ := rfl
  first _ h := nomatch h
  owned _ hwr := absurd hwr List.not_mem_nil
  shared _ hwr := absurd hwr List.not_mem_nil

/-- A call that fails keeps what it drew. -/
theorem Draws.refused {epoch : BitVec 32} {word : Option (BitVec 32)} {fs' : FlagState}
    {ws : List WorkRequest} (h : Draws setup epoch word n m fs fs' ws) :
    Draws setup epoch word n m fs fs' [] :=
  { h with
    owned := fun _ hwr => absurd hwr List.not_mem_nil
    shared := fun _ hwr => absurd hwr List.not_mem_nil }

/-- What building a batch draws. -/
theorem postBatch_draws (hcount : setup.cfg.flagStaging.count ∣ 2 ^ 32)
    (hc : fs.stagingCursor = BitVec.ofNat 32 n) (epoch : BitVec 32) (batch : List Polled) :
    Draws setup epoch (if setup.Flat then some epoch else none) n (batchClaims setup peer batch) fs
      (postBatch setup peer dstQpn epoch fs batch).2
      (postBatch setup peer dstQpn epoch fs batch).1 := by
  unfold postBatch batchClaims
  cases hmode : setup.notifyMode with
  | writeImm =>
      have hflat : ¬ setup.Flat := fun h => NotifyMode.noConfusion (hmode.symm.trans h.1)
      have hnone : ∀ wr ∈ postWriteImmBatch setup peer dstQpn batch, ¬ wr.role.Staged := by
        intro wr hwr
        rcases List.mem_map.mp hwr with ⟨p, -, rfl⟩
        exact not_false
      rw [if_neg hflat, if_neg fun h => NotifyMode.noConfusion h.1]
      exact ⟨hc, fun _ _ _ => rfl, (fun _ h => nomatch h),
        fun wr hwr ho => absurd ho.1 (hnone wr hwr), fun wr hwr ho => absurd ho.1 hflat⟩
  | remoteFlag =>
      by_cases hq : setup.cfg.useArrivalQueue = true
      · have hflat : ¬ setup.Flat := fun h => Bool.false_ne_true (h.2.symm.trans hq)
        have hloop : Drawn setup.cfg.flagStaging.count n
              (batch.length * setup.claimsPerCommand peer) fs
              (remoteFlagLoop setup peer dstQpn fs batch).2 ∧
            ReadsDrawn setup n (batch.length * setup.claimsPerCommand peer)
              (remoteFlagLoop setup peer dstQpn fs batch).1 :=
          remoteFlagLoop_drawn hcount hq batch hc
        rw [if_neg hflat, if_pos ⟨rfl, hq⟩]
        simp only [postRemoteFlagBatch, if_pos hq]
        exact ⟨hloop.1.cursor, fun s hs _ => hloop.1.staging s hs, (fun _ h => nomatch h),
          fun wr hwr ho => hloop.2 wr hwr ho.1, fun wr hwr ho => absurd ho.1 hflat⟩
      · -- The epoch is put in the first slot, and nothing is drawn.
        have hqf : setup.cfg.useArrivalQueue = false := Bool.not_eq_true _ ▸ hq
        have hflat : setup.Flat := ⟨hmode, hqf⟩
        have hloop : (remoteFlagLoop setup peer dstQpn
              { fs with staging := Function.update fs.staging 0 epoch } batch).2 =
              { fs with staging := Function.update fs.staging 0 epoch } ∧
            ∀ wr ∈ (remoteFlagLoop setup peer dstQpn
              { fs with staging := Function.update fs.staging 0 epoch } batch).1,
              wr.role.Staged → wr.role ≠ .barrier ∧
                wr.addr = setup.cfg.flagStaging.slotAddr 0 := remoteFlagLoop_flat hqf batch
        rw [if_pos hflat, if_neg fun h => hq h.2]
        simp only [postRemoteFlagBatch, if_neg hq]
        rw [hloop.1]
        have hfirst : Function.update fs.staging 0 epoch 0 = epoch := Function.update_self ..
        refine ⟨hc, fun s _ hs => ?_, fun v hv => hfirst.trans (Option.some.inj hv), ?_, ?_⟩
        · exact Function.update_of_ne (fun h => Option.some_ne_none _ (hs h)) ..
        · exact fun wr hwr ho => absurd (ho.2 hflat) (hloop.2 wr hwr ho.1).1
        · exact fun wr hwr ho => ⟨hfirst, (hloop.2 wr hwr ho.2.1).2⟩

/-- What a stage barrier draws. -/
theorem barrier_draws (hcount : setup.cfg.flagStaging.count ∣ 2 ^ 32)
    (hc : fs.stagingCursor = BitVec.ofNat 32 n) (peer : PerPeerProxyData) (slot : Nat)
    (token epoch : BitVec 32) :
    Draws setup epoch (if setup.Flat ∧ fs.stagingCursor.toNat % setup.cfg.flagStaging.count = 0
        then some token else none) n 1 fs (fs.stage setup.cfg.flagStaging.count token).2
      [barrierRequest setup peer slot (fs.stage setup.cfg.flagStaging.count token).1] := by
  have hdraw := drawn_stage hcount hc token
  rcases stage_eq hcount hc token with ⟨hslot, -, hst⟩
  refine ⟨hdraw.cursor, fun s hs _ => hdraw.staging s hs, fun v hv => ?_, fun wr hwr _ => ?_,
    fun wr hwr ho => ?_⟩
  · -- The barrier draws the first slot, and puts its token there.
    by_cases hfirst : setup.Flat ∧ fs.stagingCursor.toNat % setup.cfg.flagStaging.count = 0
    · rw [if_pos hfirst] at hv
      have hzero : n % setup.cfg.flagStaging.count = 0 := hslot.symm.trans hfirst.2
      rw [hst, hzero, Function.update_self]
      exact Option.some.inj hv
    · rw [if_neg hfirst] at hv
      exact nomatch hv
  · rw [List.mem_singleton] at hwr
    rw [hwr]
    exact ⟨n, Nat.le_refl n, Nat.lt_succ_self n, by rw [← hslot]; rfl⟩
  · rw [List.mem_singleton] at hwr
    rw [hwr] at ho
    exact absurd rfl ho.2.2

end Batch

/-! ## One action -/

section Act

variable {a : Action} {n : Nat}

theorem claims_of_quiet (hdraws : ¬ DrawsBarrier setup w a) (hbuilds : ¬ BuildsBatch w a) :
    claims setup w a = 0 ∧ firstWord setup w a = none := by
  cases a with
  | hostBarrier p slot token ok => exact absurd trivial hdraws
  | proxy ok ne =>
      simp only [DrawsBarrier, BuildsBatch] at hdraws hbuilds
      simp only [claims, firstWord]
      cases hpc : w.pc with
      | stageBarrier site p =>
          simp only [hpc] at hdraws ⊢
          exact ⟨if_neg hdraws, if_neg fun h => hdraws h.1⟩
      | post c =>
          simp only [hpc] at hbuilds ⊢
          rw [not_not.mp hbuilds]
          refine ⟨?_, if_neg fun h => h.1 rfl⟩
          unfold batchClaims
          rw [List.length_nil, Nat.zero_mul, ite_self]
      | _ => exact ⟨rfl, rfl⟩
  | _ => exact ⟨rfl, rfl⟩

/-- What an action draws that takes a slot for a stage barrier with a token. -/
theorem claims_of_barrier (hdraws : DrawsBarrier setup w a) {token : BitVec 32}
    (htoken : (∃ p slot ok, a = .hostBarrier p slot token ok) ∨
      (∃ ok ne, a = .proxy ok ne) ∧ token = w.epoch) :
    claims setup w a = 1 ∧ firstWord setup w a =
      if setup.Flat ∧ w.flags.stagingCursor.toNat % setup.cfg.flagStaging.count = 0 then
        some token else none := by
  rcases htoken with ⟨p, slot, ok, rfl⟩ | ⟨⟨ok, ne, rfl⟩, rfl⟩
  · exact ⟨rfl, rfl⟩
  · simp only [DrawsBarrier] at hdraws
    simp only [claims, firstWord]
    cases hpc : w.pc with
    | stageBarrier site p =>
        simp only [hpc] at hdraws ⊢
        exact ⟨if_pos hdraws, if_congr (and_iff_right hdraws) rfl rfl⟩
    | _ =>
        rw [hpc] at hdraws
        exact absurd hdraws not_false

/-- An action that builds a batch. -/
theorem claims_of_batch {ok : Bool} {ne : Nat} {c : Collect} (hpc : w.pc = .post c)
    (hb : c.batch ≠ []) :
    claims setup w (.proxy ok ne) =
        batchClaims setup (setup.cfg.perPeer (peerSlot setup c.batch)) c.batch ∧
      firstWord setup w (.proxy ok ne) = if setup.Flat then some w.epoch else none := by
  simp only [claims, firstWord, hpc]
  exact ⟨trivial, if_congr (and_iff_right hb) rfl rfl⟩

/-- What an action does to the ring, if it does not set the epoch. -/
theorem step_draws (hcount : setup.cfg.flagStaging.count ∣ 2 ^ 32)
    (hc : w.flags.stagingCursor = BitVec.ofNat 32 n) (hne : ∀ epoch, a ≠ .setEpoch epoch)
    (hstep : step setup w a = some w') :
    ∃ ws, Draws setup w.epoch (firstWord setup w a) n (claims setup w a) w.flags w'.flags
        ws ∧
      (∀ wr ∈ w'.nic.uncompleted, wr ∈ w.nic.uncompleted ∨ wr ∈ ws) ∧ w'.epoch = w.epoch := by
  cases step_posts hstep with
  | quiet hdraws hbuilds gone hnic hopen hflags hs =>
      rcases claims_of_quiet hdraws hbuilds with ⟨hclaims, hword⟩
      rw [hclaims, hword, hflags]
      -- Nothing is drawn and nothing is posted.
      exact ⟨[], draws_refl hc _, fun wr hwr => Or.inl (hopen wr hwr), hs.epoch⟩
  | setEpoch epoch ha hnic hflags hposted => exact absurd ha (hne epoch)
  | barrier ha hdraws peer slot token htoken hnic hflags hs =>
      have hcl := claims_of_barrier hdraws (htoken.imp (fun ⟨p, hp⟩ => ⟨p, slot, true, hp⟩)
        fun ⟨⟨ne, hp⟩, ht⟩ => ⟨⟨true, ne, hp⟩, ht⟩)
      rw [hcl.1, hcl.2, hflags, hnic]
      exact ⟨_, barrier_draws hcount hc peer slot token _,
        fun wr hwr => WorkQueue.uncompleted_post hwr, hs.epoch⟩
  | refused hdraws token htoken hnic hflags hs =>
      have hcl := claims_of_barrier hdraws (htoken.imp (fun ⟨p, slot, hp⟩ => ⟨p, slot, false, hp⟩)
        fun ⟨⟨ne, hp⟩, ht⟩ => ⟨⟨false, ne, hp⟩, ht⟩)
      rw [hcl.1, hcl.2, hflags, hnic]
      -- The slot is drawn and its word overwritten, although no request goes out.
      exact ⟨[], (barrier_draws hcount hc (setup.cfg.perPeer 0) 0 token _).refused,
        fun wr hwr => Or.inl hwr, hs.epoch⟩
  | batch ok ne c ha hpc hb hw =>
      rcases claims_of_batch hpc hb with ⟨hclaims, hword⟩
      rw [ha, hclaims, hword, hw]
      unfold postStep
      rw [if_neg hb]
      cases ok with
      | true =>
          -- The batch draws a slot for each of its words.
          exact ⟨_, postBatch_draws hcount hc w.epoch c.batch,
            fun wr hwr => WorkQueue.uncompleted_post hwr, rfl⟩
      | false =>
          -- So does one that is refused, for the next post.
          exact ⟨[], (postBatch_draws hcount hc w.epoch c.batch).refused,
            fun wr hwr => Or.inl hwr, rfl⟩

/-- A word for the first slot is a batch's, or a barrier's that draws it. -/
theorem firstWord_eq_some {v : BitVec 32} (h : firstWord setup w a = some v) :
    setup.Flat ∧
      ((∃ ok ne c, a = .proxy ok ne ∧ w.pc = .post c ∧ c.batch ≠ [] ∧ v = w.epoch) ∨
        0 < claims setup w a ∧
          w.flags.stagingCursor.toNat % setup.cfg.flagStaging.count = 0 ∧
          (v = w.epoch ∨ ∃ p slot ok, a = .hostBarrier p slot v ok)) := by
  cases a with
  -- The host's barrier may draw the first slot, posted or not.
  | hostBarrier p slot token ok =>
      simp only [firstWord, Option.ite_none_right_eq_some, Option.some.injEq] at h
      rcases h with ⟨⟨hflat, hfirst⟩, rfl⟩
      exact ⟨hflat, Or.inr ⟨Nat.one_pos, hfirst, Or.inr ⟨p, slot, ok, rfl⟩⟩⟩
  | proxy ok ne =>
      simp only [firstWord] at h
      cases hpc : w.pc with
      | stageBarrier site p =>
          simp only [hpc, Option.ite_none_right_eq_some, Option.some.injEq] at h
          rcases h with ⟨⟨hp, hflat, hfirst⟩, rfl⟩
          refine ⟨hflat, Or.inr ⟨?_, hfirst, Or.inl rfl⟩⟩
          simp only [claims, hpc, if_pos hp, Nat.one_pos]
      | post c =>
          simp only [hpc, Option.ite_none_right_eq_some, Option.some.injEq] at h
          rcases h with ⟨⟨hb, hflat⟩, rfl⟩
          exact ⟨hflat, Or.inl ⟨ok, ne, c, rfl, rfl, hb, rfl⟩⟩
      | _ =>
          rw [hpc] at h
          exact absurd h (Option.some_ne_none v).symm
  | _ => exact absurd h (Option.some_ne_none v).symm

/-- Without a word for the first slot, the flat layout draws only other slots. -/
theorem firstWord_eq_none (h : firstWord setup w a = none) (hflat : setup.Flat)
    (hpos : 0 < claims setup w a) : claims setup w a = 1 ∧
      w.flags.stagingCursor.toNat % setup.cfg.flagStaging.count ≠ 0 := by
  cases a with
  | hostBarrier p slot token ok =>
      simp only [firstWord, ite_eq_right_iff, reduceCtorEq, imp_false] at h
      exact ⟨rfl, fun hz => h ⟨hflat, hz⟩⟩
  | proxy ok ne =>
      simp only [claims] at hpos ⊢
      simp only [firstWord] at h
      cases hpc : w.pc with
      | stageBarrier site p =>
          simp only [hpc] at hpos h ⊢
          by_cases hp : p < setup.cfg.numPeers ∧ (setup.cfg.perPeer p).remoteBarrierAddr ≠ 0
          · simp only [ite_eq_right_iff, reduceCtorEq, imp_false] at h
            exact ⟨if_pos hp, fun hz => h ⟨hp, hflat, hz⟩⟩
          · rw [if_neg hp] at hpos
            exact absurd hpos (Nat.lt_irrefl 0)
      -- In the flat layout a batch shares the first slot and draws none.
      | post c =>
          simp only [hpc, batchClaims] at hpos
          rw [if_neg fun hq => Bool.false_ne_true (hflat.2.symm.trans hq.2)] at hpos
          exact absurd hpos (Nat.lt_irrefl 0)
      | _ =>
          rw [hpc] at hpos
          exact absurd hpos (Nat.lt_irrefl 0)
  | _ => exact absurd hpos (Nat.lt_irrefl 0)

end Act

/-! ## Every run -/

/-- The slots of the ring have different addresses. -/
theorem stagingAddr_inj {staging : FlagStaging} {s s' : Nat} (hs : s < 2 ^ 32) (hs' : s' < 2 ^ 32)
    (h : staging.slotAddr s = staging.slotAddr s') : s = s' := by
  have h4 : (4 : BitVec 64) * BitVec.ofNat 64 s = 4 * BitVec.ofNat 64 s' :=
    (BitVec.add_right_inj _).mp h
  have hnat := congrArg BitVec.toNat h4
  simp only [BitVec.toNat_mul, BitVec.reduceToNat, BitVec.toNat_ofNat] at hnat
  omega

/-- The draw noted for a request takes a slot the request reads from. -/
theorem dueOf_spec {n m : Nat} {wr : WorkRequest}
    (h : ∃ i, n ≤ i ∧ i < n + m ∧
      wr.addr = setup.cfg.flagStaging.slotAddr (i % setup.cfg.flagStaging.count)) :
    dueOf setup n m wr < n + m + setup.cfg.flagStaging.count ∧
      wr.addr = setup.cfg.flagStaging.slotAddr
        (dueOf setup n m wr % setup.cfg.flagStaging.count) := by
  rcases h with ⟨i, hi, hi', haddr⟩
  have hlt : (List.range m).findIdx (fun i => decide (wr.addr = setup.cfg.flagStaging.slotAddr
      ((n + i) % setup.cfg.flagStaging.count))) < (List.range m).length := by
    refine List.findIdx_lt_length_of_exists ⟨i - n, List.mem_range.mpr (by omega), ?_⟩
    rw [Nat.add_sub_cancel' hi]
    exact decide_eq_true haddr
  have hfound := List.findIdx_getElem (w := hlt)
  rw [List.getElem_range] at hfound
  rw [List.length_range] at hlt
  refine ⟨by unfold dueOf; omega, ?_⟩
  unfold dueOf
  rw [Nat.add_mod_right]
  exact of_decide_eq_true hfound

/-- The slot of every request that is not completed is the one noted, and the first slot of the
    flat layout has the epoch. -/
structure StagingInv (setup : Setup) (t : World × Claims) : Prop where
  cursor : t.1.flags.stagingCursor = BitVec.ofNat 32 t.2.total
  owned : ∀ wr ∈ t.1.nic.uncompleted, Owns setup wr →
    t.2.due wr < t.2.total + setup.cfg.flagStaging.count ∧
      wr.addr = setup.cfg.flagStaging.slotAddr (t.2.due wr % setup.cfg.flagStaging.count)
  shared : ∀ wr ∈ t.1.nic.uncompleted, Shares setup wr →
    t.1.flags.staging 0 = t.1.epoch ∧ wr.addr = setup.cfg.flagStaging.slotAddr 0

theorem staging_init (setup : Setup) : StagingInv setup (init setup, Claims.init) :=
  ⟨rfl, fun _ hwr => absurd hwr List.not_mem_nil, fun _ hwr => absurd hwr List.not_mem_nil⟩

theorem owns_or_shares {wr : WorkRequest} (h : wr.role.Staged) :
    Owns setup wr ∨ Shares setup wr := by
  by_cases hflat : setup.Flat
  · by_cases hrole : wr.role = .barrier
    · exact Or.inl ⟨h, fun _ => hrole⟩
    · exact Or.inr ⟨hflat, h, hrole⟩
  · exact Or.inl ⟨h, fun hf => absurd hf hflat⟩

section Round

variable {t : World × Claims} {a : Action} {ws : List WorkRequest} {wr : WorkRequest} {s : Nat}

/-- No slot the action draws is one that a request with a slot of its own reads from. -/
theorem not_drawn (hcount : setup.cfg.flagStaging.count ∣ 2 ^ 32) (hinv : StagingInv setup t)
    (hok : InTime setup t a) (hwr : wr ∈ t.1.nic.uncompleted) (ho : Owns setup wr)
    (hs : s < setup.cfg.flagStaging.count) (haddr : wr.addr = setup.cfg.flagStaging.slotAddr s)
    {i : Nat} (hi : t.2.total ≤ i) (hi' : i < t.2.total + claims setup t.1 a) :
    s ≠ i % setup.cfg.flagStaging.count := by
  have hle : setup.cfg.flagStaging.count ≤ 2 ^ 32 := Nat.le_of_dvd (by decide) hcount
  rcases hinv.owned wr hwr ho with ⟨hlt, hdue⟩
  have hround := hok.round (by omega) wr hwr ho
  have hslot : s = t.2.due wr % setup.cfg.flagStaging.count :=
    stagingAddr_inj (by omega)
      (Nat.lt_of_lt_of_le (Nat.mod_lt _ (by omega)) hle) (haddr.symm.trans hdue)
  intro hc
  have := window_inj (by omega) (by omega) hi (by omega) (hslot.symm.trans hc)
  omega

/-- What an action draws leaves the slots alone that are still read from. -/
theorem Draws.unchanged (hcount : setup.cfg.flagStaging.count ∣ 2 ^ 32) {fs' : FlagState}
    (h : Draws setup t.1.epoch (firstWord setup t.1 a) t.2.total (claims setup t.1 a) t.1.flags
      fs' ws)
    (hinv : StagingInv setup t) (hok : InTime setup t a) (hwr : wr ∈ t.1.nic.uncompleted)
    (hs : s < setup.cfg.flagStaging.count) (hsrc : SourcesFrom setup wr s) :
    fs'.staging s = t.1.flags.staging s := by
  have hle : setup.cfg.flagStaging.count ≤ 2 ^ 32 := Nat.le_of_dvd (by decide) hcount
  have hcur : t.1.flags.stagingCursor.toNat % setup.cfg.flagStaging.count =
      t.2.total % setup.cfg.flagStaging.count := by
    rw [hinv.cursor, BitVec.toNat_ofNat, Nat.mod_mod_of_dvd _ hcount]
  have hfirst := hok.first
  rcases owns_or_shares hsrc.1 with ho | hsh
  · have hkept := fun i hi hi' => not_drawn hcount hinv hok hwr ho hs hsrc.2 (i := i) hi hi'
    by_cases hword : s = 0 ∧ firstWord setup t.1 a ≠ none
    · -- Only a batch can put a word there, and it is the word that is there.
      rcases hword with ⟨rfl, hword⟩
      rcases Option.ne_none_iff_exists'.mp hword with ⟨v, hv⟩
      rw [h.first v hv]
      rcases firstWord_eq_some hv with ⟨hflat, ⟨ok, ne, c, rfl, hpc, hb, rfl⟩ | ⟨hpos, hzero, -⟩⟩
      · simp only [KeepsFirst, hpc] at hfirst
        exact (hfirst hb hflat ⟨wr, hwr, ho.2 hflat, hsrc⟩).symm
      · exact absurd (hzero.symm.trans hcur) (hkept _ (Nat.le_refl _) (by omega))
    · exact h.kept s hkept fun hz => not_not.mp fun hne => hword ⟨hz, hne⟩
  · rcases hinv.shared wr hwr hsh with ⟨hepoch, haddr⟩
    have hz : s = 0 := stagingAddr_inj (by omega) (by decide) (hsrc.2.symm.trans haddr)
    rw [hz]
    cases hv : firstWord setup t.1 a with
    | some v =>
        rw [h.first v hv, hepoch]
        rcases firstWord_eq_some hv with ⟨-, ⟨ok, ne, c, -, -, -, hve⟩ | ⟨-, hzero, hve | hve⟩⟩
        · exact hve
        · exact hve
        · rcases hve with ⟨p, slot, ok, rfl⟩
          exact hfirst hzero ⟨wr, hwr, hsh⟩
    | none =>
        refine h.kept 0 (fun i hi hi' hc => ?_) fun _ => hv
        rcases firstWord_eq_none hv hsh.1 (by omega) with ⟨hone, hne⟩
        have hi : i = t.2.total := by omega
        rw [hi, ← hcur] at hc
        exact hne hc.symm

/-- Drawing slots keeps the ring in order. -/
theorem StagingInv.of_draws (hcount : setup.cfg.flagStaging.count ∣ 2 ^ 32)
    (hinv : StagingInv setup t) (hok : InTime setup t a)
    (h : Draws setup t.1.epoch (firstWord setup t.1 a) t.2.total (claims setup t.1 a) t.1.flags
      w'.flags ws)
    (hopen : ∀ wr ∈ w'.nic.uncompleted, wr ∈ t.1.nic.uncompleted ∨ wr ∈ ws)
    (hepoch : w'.epoch = t.1.epoch) (due : WorkRequest → Nat)
    (hdue : ∀ wr, due wr = if wr ∈ t.1.nic.uncompleted then t.2.due wr
      else dueOf setup t.2.total (claims setup t.1 a) wr) :
    StagingInv setup (w', ⟨t.2.total + claims setup t.1 a, due⟩) := by
  have hpos : 0 < setup.cfg.flagStaging.count :=
    Nat.pos_of_ne_zero fun hz => absurd (hz ▸ hcount) (by decide)
  -- What is open was open before, or is of these requests.
  refine ⟨h.cursor, fun wr hwr ho => ?_, fun wr hwr hsh => ?_⟩
  · dsimp only
    rw [hdue wr]
    by_cases hmem : wr ∈ t.1.nic.uncompleted
    · rw [if_pos hmem]
      rcases hinv.owned wr hmem ho with ⟨hlt, haddr⟩
      exact ⟨by omega, haddr⟩
    · rw [if_neg hmem]
      exact dueOf_spec (h.owned wr ((hopen wr hwr).resolve_left hmem) ho)
  · -- The first slot keeps its word while a request reads from it.
    dsimp only
    rw [hepoch]
    rcases hopen wr hwr with hmem | hmem
    · rcases hinv.shared wr hmem hsh with ⟨hfirst, haddr⟩
      rw [h.unchanged hcount hinv hok hmem hpos ⟨hsh.2.1, haddr⟩]
      exact ⟨hfirst, haddr⟩
    · exact h.shared wr hmem hsh

/-- One action keeps the ring in order. -/
theorem step_staging (hcount : setup.cfg.flagStaging.count ∣ 2 ^ 32) {u : World × Claims}
    (hinv : StagingInv setup t) (hok : InTime setup t a)
    (hstep : notedStep (step setup) (noteClaims setup) t a = some u) : StagingInv setup u := by
  rcases notedStep_eq_some hstep with ⟨hs, hnote⟩
  have hu : u = (u.1, noteClaims setup t.1 a u.1 t.2) := by rw [← hnote]
  -- Only the setting of the epoch moves the cursor by hand.
  by_cases hset : ∃ epoch, a = .setEpoch epoch
  · rcases hset with ⟨epoch, rfl⟩
    have hpos : 0 < setup.cfg.flagStaging.count :=
      Nat.pos_of_ne_zero fun hz => absurd (hz ▸ hcount) (by decide)
    rw [hu, ← Option.some.inj hs]
    refine ⟨rfl, fun wr hwr ho => ⟨?_, ?_⟩, fun wr hwr hsh => ?_⟩
    · exact Nat.lt_of_lt_of_le (Nat.mod_lt _ hpos) (Nat.le_add_left _ _)
    · change wr.addr = setup.cfg.flagStaging.slotAddr
        (t.2.due wr % setup.cfg.flagStaging.count % setup.cfg.flagStaging.count)
      rw [Nat.mod_mod]
      -- What waits keeps its slot, since the number it is given is in the same slot.
      exact (hinv.owned wr hwr ho).2
    · -- The first word is the one of the epoch that is set.
      rcases hinv.shared wr hwr hsh with ⟨hfirst, haddr⟩
      exact ⟨hfirst.trans (hok.first ⟨wr, hwr, hsh⟩).symm, haddr⟩
  · have hne : ∀ epoch, a ≠ .setEpoch epoch := fun epoch h => hset ⟨epoch, h⟩
    -- Otherwise the action draws as many slots as it claims.
    rcases step_draws hcount hinv.cursor hne hs with ⟨ws, hdraws, hopen, hepoch⟩
    have hn : noteClaims setup t.1 a u.1 t.2 = ⟨t.2.total + claims setup t.1 a, fun wr =>
        if wr ∈ t.1.nic.uncompleted then t.2.due wr
        else dueOf setup t.2.total (claims setup t.1 a) wr⟩ := by
      cases a with
      | setEpoch epoch => exact absurd rfl (hne epoch)
      | _ => rfl
    rw [hu, hn]
    exact hinv.of_draws hcount hok hdraws hopen hepoch _ fun _ => rfl

end Round

/-- Where the rounds of the cursor are rounds of the ring, and every step is in time, a step in time
    leaves the slot of every request that is not completed as it is. -/
theorem staging_unchanged (hcount : setup.cfg.flagStaging.count ∣ 2 ^ 32) {t : World × Claims}
    (h : Reaches (notedStep (step setup) (noteClaims setup)) (InTime setup)
      (init setup, Claims.init) t) {a : Action} (hok : InTime setup t a)
    (hstep : step setup t.1 a = some w') {wr : WorkRequest} (hwr : wr ∈ t.1.nic.uncompleted)
    {s : Nat} (hs : s < setup.cfg.flagStaging.count) (hsrc : SourcesFrom setup wr s) :
    w'.flags.staging s = t.1.flags.staging s := by
  have hinv : StagingInv setup t :=
    invariant_of_reaches (StagingInv setup) (fun _ _ _ hinv => step_staging hcount hinv) h
      (staging_init setup)
  by_cases hset : ∃ epoch, a = .setEpoch epoch
  · rcases hset with ⟨epoch, rfl⟩
    rw [← Option.some.inj hstep]
  · rcases step_draws hcount hinv.cursor (fun epoch he => hset ⟨epoch, he⟩) hstep with
      ⟨ws, hdraws, -, -⟩
    exact hdraws.unchanged hcount hinv hok hwr hs hsrc

section Retry

variable {p : Polled}

/-- An idle iteration of the proxy that has a batch to post again comes to the post. -/
theorem retry_reaches (hpc : w.pc = .loop) (hrun : w.running = true) (hgate : w.gate.paused = false)
    (hb : w.pendingBatch ≠ []) :
    Reaches (step setup) always w
      { w with pc := .post ⟨w.pendingBatch, w.pendingBatchQp, w.inflight⟩ } := by
  have h1 : step setup w (.proxy false 0) = some { w with pc := .pauseGate } := by
    simp only [step, proxyStep, hpc, hrun, if_true]
  have h2 : step setup { w with pc := .pauseGate } (.proxy false 0) =
      some { w with pc := .barrierGate } := by
    simp only [step, proxyStep, hgate, Bool.false_eq_true, if_false]
  have h3 : step setup { w with pc := .barrierGate } (.proxy false 0) =
      some { w with pc := .collect } := by
    simp only [step, proxyStep, hb, false_and, and_false, if_false]
  have h4 : step setup { w with pc := .collect } (.proxy false 0) =
      some { w with pc := .post ⟨w.pendingBatch, w.pendingBatchQp, w.inflight⟩ } := by
    simp only [step, proxyStep, collectStep, if_pos hb]
  exact reaches_step (reaches_step (reaches_step (reaches_step (reaches_refl _ _ _) _ trivial h1)
    _ trivial h2) _ trivial h3) _ trivial h4

/-- The slots a batch draws when it is built again. -/
def redraw (setup : Setup) (w : World) (fs : FlagState) : FlagState :=
  let peer := setup.cfg.perPeer (peerSlot setup w.pendingBatch)
  (postBatch setup peer (peer.dstQpns w.pendingBatchQp) w.epoch fs w.pendingBatch).2

/-- The call that is to post a batch again fails. -/
theorem retry_post (hb : w.pendingBatch ≠ []) :
    step setup { w with pc := .post ⟨w.pendingBatch, w.pendingBatchQp, w.inflight⟩ }
      (.proxy false 0) = some { w with flags := redraw setup w w.flags, pc := .pollCq false } := by
  simp only [step, proxyStep, postStep, if_neg hb, Bool.false_eq_true, if_false]
  rfl

/-- A batch that fails to post again has only drawn slots. -/
theorem retry_run (hpc : w.pc = .loop) (hrun : w.running = true) (hgate : w.gate.paused = false)
    (hb : w.pendingBatch ≠ []) :
    Reaches (step setup) always w { w with flags := redraw setup w w.flags } := by
  have hpoll : step setup { w with flags := redraw setup w w.flags, pc := .pollCq false }
      (.proxy false 0) = some { w with flags := redraw setup w w.flags } := by
    simp only [step, proxyStep, pollNic, WorkQueue.poll, Nat.zero_min, List.take_zero,
      List.drop_zero, List.foldl_nil, Bool.false_eq_true, if_false, ← hpc]
  exact reaches_step (reaches_step (retry_reaches hpc hrun hgate hb) _ trivial (retry_post hb))
    _ trivial hpoll

end Retry

section Sample

/-- Two QPs in the arrival-queue layout, and a staging ring as the session makes it. -/
def retryConfig : ProxyConfig :=
  { sampleConfig with
    useArrivalQueue := true
    remoteQueueStride := 16
    flagStaging := ⟨8192, 0x500000, 5⟩ }

def retrySetup : Setup := Setup.ofMode retryConfig .remoteFlag

/-- A WRITE is posted on the first QP, and a second one is about to be posted on the other. -/
def secondPost : World × Claims :=
  (run (notedStep (step retrySetup) (noteClaims retrySetup)) (InTime retrySetup)
    (pushes 0 [writeCmd 0 0, writeCmd 1 1] ++ List.replicate 24 (Action.proxy true 0))
    (init retrySetup, Claims.init)).get (by decide +kernel)

/-- The arrival word of a WRITE of one tile, from the first slot. -/
def firstFlag : WorkRequest :=
  stagedRequest retrySetup samplePeer 0x40 1 2 0x200000 0 (.flag ⟨0, 0, writeCmd 0 0⟩)

def secondPosted : World :=
  (step retrySetup secondPost.1 (.proxy true 0)).get (by decide +kernel)

theorem staging_unchanged_secondPost : claims retrySetup secondPost.1 (.proxy true 0) = 1 ∧
    secondPosted.flags.staging 1 ≠ secondPost.1.flags.staging 1 ∧
      secondPosted.flags.staging 0 = secondPost.1.flags.staging 0 :=
  ⟨by decide +kernel, by decide +kernel,
    staging_unchanged (by decide) (reaches_of_run _ _ _ (Option.some_get _).symm)
      (by decide +kernel) (Option.some_get _).symm
      (show firstFlag ∈ secondPost.1.nic.uncompleted by decide +kernel) (by decide)
      (by decide +kernel)⟩

/-- The second WRITE has failed to post once. -/
def refusedOnce : World :=
  (run (step retrySetup) always
    (pushes 0 [writeCmd 0 0, writeCmd 1 1] ++ List.replicate 9 (Action.proxy true 0) ++
      List.replicate 17 (Action.proxy false 0)) (init retrySetup)).get (by decide +kernel)

/-- The second WRITE is to be posted again, and its word is the second in the ring. -/
structure Refused (w : World) : Prop where
  pc : w.pc = .loop
  running : w.running = true
  gate : w.gate.paused = false
  batch : w.pendingBatch = [⟨0, 1, writeCmd 1 1⟩]
  cursor : w.flags.stagingCursor = 2

theorem refused_refusedOnce : Refused refusedOnce where
  pc := by decide +kernel
  running := by decide +kernel
  gate := by decide +kernel
  batch := by decide +kernel
  cursor := by decide +kernel

/-- Building the batch again draws the slot at the cursor for the second arrival word. -/
theorem Refused.redraw_eq (h : Refused w) (fs : FlagState) :
    (redraw retrySetup w fs).stagingCursor = fs.stagingCursor + 1 ∧
      (redraw retrySetup w fs).staging =
        Function.update fs.staging (fs.stagingCursor.toNat % 8192) (packArrivalWork 1 1) := by
  unfold redraw
  rw [h.batch]
  exact ⟨rfl, rfl⟩

/-- After some retries only the ring has changed, up to the cursor. -/
theorem Refused.retries (h : Refused w) (n : Nat) (hn : n ≤ 8190) : ∃ fs,
    Reaches (step retrySetup) always w { w with flags := fs } ∧
      fs.stagingCursor = BitVec.ofNat 32 (2 + n) ∧ fs.staging 0 = w.flags.staging 0 := by
  have hb : w.pendingBatch ≠ [] := by rw [h.batch]; exact List.cons_ne_nil _ _
  induction n with
  | zero => exact ⟨w.flags, reaches_refl _ _ _, h.cursor, rfl⟩
  | succ n ih =>
      rcases ih (by omega) with ⟨fs, hreach, hcur, hfirst⟩
      rcases h.redraw_eq fs with ⟨hcur', hst⟩
      have hretry : Reaches (step retrySetup) always { w with flags := fs }
          { w with flags := redraw retrySetup w fs } := retry_run h.pc h.running h.gate hb
      refine ⟨redraw retrySetup w fs, reaches_trans hreach hretry, ?_, ?_⟩
      · rw [hcur', hcur]
        exact (BitVec.ofNat_add (2 + n) 1).symm
      · have hne : 0 ≠ fs.stagingCursor.toNat % 8192 := by
          rw [hcur, BitVec.toNat_ofNat]
          omega
        rw [hst, Function.update_of_ne hne, hfirst]

/-- The first WRITE's arrival word waits in the first slot, and the retries of the second come
    around. -/
theorem staging_overwritten : ∃ w a w', Reaches (step retrySetup) always (init retrySetup) w ∧
    step retrySetup w a = some w' ∧ firstFlag ∈ w.nic.uncompleted ∧
    firstFlag ∈ w'.nic.uncompleted ∧ SourcesFrom retrySetup firstFlag 0 ∧
    w'.flags.staging 0 ≠ w.flags.staging 0 := by
  have hinit : Reaches (step retrySetup) always (init retrySetup) refusedOnce :=
    reaches_of_run _ _ _ (Option.some_get _).symm
  have hopen : firstFlag ∈ refusedOnce.nic.uncompleted := by decide +kernel
  have hword : refusedOnce.flags.staging 0 = packArrivalWork 0 1 := by decide +kernel
  have h := refused_refusedOnce
  generalize refusedOnce = w at hinit hopen hword h
  have hb : w.pendingBatch ≠ [] := by rw [h.batch]; exact List.cons_ne_nil _ _
  -- 8190 retries draw all the slots between
  rcases h.retries 8190 (Nat.le_refl _) with ⟨fs, hreach, hcur, hfirst⟩
  -- The next retry comes around to the first slot.
  have hpost : Reaches (step retrySetup) always { w with flags := fs }
      { w with flags := fs, pc := .post ⟨w.pendingBatch, w.pendingBatchQp, w.inflight⟩ } :=
    retry_reaches h.pc h.running h.gate hb
  refine ⟨_, .proxy false 0, _, reaches_trans hinit (reaches_trans hreach hpost),
    @retry_post retrySetup { w with flags := fs } hb, hopen, hopen, by decide, ?_⟩
  change (redraw retrySetup w fs).staging 0 ≠ fs.staging 0
  have hround : (BitVec.ofNat 32 (2 + 8190)).toNat % 8192 = 0 := by decide
  rw [(h.redraw_eq fs).2, hcur, hround, Function.update_self, hfirst, hword]
  decide

end Sample

end Efa

end Internode

end MKernel
