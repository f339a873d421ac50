import MKernel.Core.Numbered
import MKernel.Internode.Efa.Epochs

/-!
# Arrival Slots of the EFA Proxy

Which slots of an arrival queue a proxy writes in an epoch.

In the arrival-queue layout each WRITE is announced by an arrival word in the next
slot of its logical queue. The receiver looks at the slots of a queue in order
and waits at the first that is empty, so the slots written must be the first
ones, each of them once.

The slot comes from a counter of the queue, which starts again with the epoch.
The builder of a batch moves the counters while it puts the requests together,
and nothing moves them back: a batch whose post fails is built again when it is
retried, and takes the slots after those it had. While every post succeeds, the
words of a queue are in its slots `0`, `1`, ... in the order they were posted
(`slots_dense`). One failed post leaves slots that nothing will ever be written
to (`slots_skipped`).

## Main definitions

* `FlagWrite`: An arrival word that was posted.
* `Setup.slotAddr`: The address of a slot of a logical queue.
* `PostSucceeds`: The condition on a step that its post, if any, succeeds.
* `Unposting`: A step that neither posts nor moves a counter.
* `SlotInv`: The counters and the words written since the epoch was set.
* `Dense`: The words of a queue are in its first slots.

## Theorems

* `remoteFlagLoop_numbered`: One batch.
* `step_puts`: The steps that post.
* `slotInv_step`, `slots_dense`: One step, and every run without a failed post.
* `slots_skipped`: A run with one.
-/

namespace MKernel

namespace Internode

namespace Efa

open MKernel.Core

/-- An arrival word that was posted for a command: to which peer, and to what
    address in its memory. -/
structure FlagWrite where
  cmd : Polled
  peerSlot : Nat
  addr : BitVec 64
  deriving DecidableEq

/-- The arrival words among the requests of a batch for one peer. -/
def flagsIn (peerSlot : Nat) (wrs : List WorkRequest) : List FlagWrite :=
  wrs.filterMap fun wr =>
    match wr.role with
    | .flag p => some ⟨p, peerSlot, wr.remoteAddr⟩
    | _ => none

def Event.flagWrites : Event → List FlagWrite
  | .posted _ peerSlot _ wrs => flagsIn peerSlot wrs
  | _ => []

/-- The arrival words posted, in order. -/
def flagWritesOf (h : List Event) : List FlagWrite := h.flatMap Event.flagWrites

/-- The logical queue an arrival word belongs to. -/
def FlagWrite.queue (setup : Setup) (f : FlagWrite) : Nat := setup.logicalQueue f.cmd.cmd

/-- The address of a slot of a logical queue, at a peer. -/
def Setup.slotAddr (setup : Setup) (peerSlot q slot : Nat) : BitVec 64 :=
  (setup.cfg.perPeer peerSlot).remoteFlagsAddr +
    4 * (BitVec.ofNat 32 q * setup.cfg.remoteQueueStride + BitVec.ofNat 32 slot).setWidth 64

/-- An arrival word is in a slot of its queue. -/
def FlagWrite.InSlot (setup : Setup) (f : FlagWrite) (slot : Nat) : Prop :=
  f.addr = setup.slotAddr f.peerSlot (f.queue setup) slot

/-- The arrival words posted to a logical queue. -/
def queueWrites (setup : Setup) (q : Nat) (h : List Event) : List FlagWrite :=
  ofKey (FlagWrite.queue setup) q (flagWritesOf h)

/-- The commands posted to a logical queue. -/
def queuePosted (setup : Setup) (q : Nat) (h : List Event) : List Polled :=
  ofKey (fun p => setup.logicalQueue p.cmd) q (postedOf h)

/-- The post of a step, if it has one, succeeds. -/
def PostSucceeds (w : World) : Action → Prop
  | .proxy ok _ =>
    match w.pc with
    | .post c => c.batch = [] ∨ ok = true
    | _ => True
  | _ => True

instance (w : World) (a : Action) : Decidable (PostSucceeds w a) := by
  unfold PostSucceeds
  generalize w.pc = pc
  apply @Action.casesOn _ a
  case proxy => exact fun _ _ => by apply @Pc.casesOn _ pc <;> intros <;> infer_instance
  all_goals intros; infer_instance

@[simp] theorem flagWritesOf_append (h l : List Event) :
    flagWritesOf (h ++ l) = flagWritesOf h ++ flagWritesOf l :=
  List.flatMap_append

@[simp] theorem flagsIn_append (peerSlot : Nat) (ws ws' : List WorkRequest) :
    flagsIn peerSlot (ws ++ ws') = flagsIn peerSlot ws ++ flagsIn peerSlot ws' :=
  List.filterMap_append

/-! ## One batch -/

section Batch

variable {setup : Setup} {peerSlot : Nat} {dstQpn : BitVec 32} {epoch : BitVec 32}
  {fs : FlagState} {start : Nat → Nat}

/-- The counter of each logical queue stands at a number, counted in 32 bits. -/
def CountsFrom (fs : FlagState) (start : Nat → Nat) : Prop :=
  ∀ q, fs.senderSeq q = BitVec.ofNat 32 (start q)

/-- Where the counters stand, they stand. -/
theorem countsFrom_self (fs : FlagState) : CountsFrom fs fun q => (fs.senderSeq q).toNat := by
  intro q
  rw [BitVec.ofNat_toNat, BitVec.setWidth_eq]

variable (setup peerSlot dstQpn) in
/-- A command takes the next slot of its queue, and the queue's counter moves
    on. -/
theorem queueRequests_flag (hs : CountsFrom fs start) (p : Polled) :
    ∃ f : FlagWrite,
      flagsIn peerSlot (queueRequests setup (setup.cfg.perPeer peerSlot) dstQpn fs p).1 = [f] ∧
      f.cmd = p ∧ f.peerSlot = peerSlot ∧ f.InSlot setup (start (f.queue setup)) ∧
      CountsFrom (queueRequests setup (setup.cfg.perPeer peerSlot) dstQpn fs p).2
        (fun q => start q + keyCount (FlagWrite.queue setup) [f] q) := by
  let q := setup.logicalQueue p.cmd
  let f : FlagWrite :=
    { cmd := p
      peerSlot := peerSlot
      addr := (setup.cfg.perPeer peerSlot).remoteFlagsAddr +
        4 * (BitVec.ofNat 32 q * setup.cfg.remoteQueueStride + fs.senderSeq q).setWidth 64 }
  -- With a tail or without, there is one word and one step of the counter.
  have hparts : flagsIn peerSlot (queueRequests setup (setup.cfg.perPeer peerSlot) dstQpn fs p).1 =
      [f] ∧ (queueRequests setup (setup.cfg.perPeer peerSlot) dstQpn fs p).2.senderSeq =
        Function.update fs.senderSeq q (fs.senderSeq q + 1) := by
    unfold queueRequests
    by_cases htail : setup.hasTail (setup.cfg.perPeer peerSlot) = true
    · simp only [htail, if_true]
      exact ⟨rfl, rfl⟩
    · simp only [htail, if_false, Bool.false_eq_true]
      exact ⟨rfl, rfl⟩
  refine ⟨f, hparts.1, rfl, rfl, ?_, fun r => ?_⟩
  · change f.addr = setup.slotAddr peerSlot q (start q)
    rw [Setup.slotAddr, ← hs q]
  · have hfq : f.queue setup = q := rfl
    simp only [hparts.2, keyCount_singleton, hfq]
    by_cases hr : r = q
    · rw [if_pos hr, hr, Function.update_self, hs q, BitVec.ofNat_add]
      rfl
    · rw [if_neg hr, Function.update_of_ne hr, hs r, Nat.add_zero]

/-- A batch takes the next slots of the queues of its commands. -/
theorem remoteFlagLoop_numbered (hq : setup.cfg.useArrivalQueue = true) (batch : List Polled)
    (hs : CountsFrom fs start) :
    let r := remoteFlagLoop setup (setup.cfg.perPeer peerSlot) dstQpn fs batch
    Numbered (FlagWrite.queue setup) (FlagWrite.InSlot setup) start (flagsIn peerSlot r.1) ∧
      CountsFrom r.2 (fun q => start q +
        keyCount (FlagWrite.queue setup) (flagsIn peerSlot r.1) q) ∧
      (flagsIn peerSlot r.1).map FlagWrite.cmd = batch ∧
      ∀ f ∈ flagsIn peerSlot r.1, f.peerSlot = peerSlot := by
  induction batch generalizing fs start with
  | nil => exact ⟨numbered_nil, hs, rfl, fun f hf => absurd hf List.not_mem_nil⟩
  | cons p ps ih =>
      rcases queueRequests_flag setup peerSlot dstQpn hs p with
        ⟨f, hflags, hcmd, hpeer, hslot, hnext⟩
      -- The rest of the batch goes on where this command leaves the counters.
      rcases ih hnext with ⟨hnum, hcount, hcmds, hpeers⟩
      simp only [remoteFlagLoop, remoteFlagRequests, hq, if_true, flagsIn_append, hflags]
      refine ⟨numbered_append (numbered_singleton hslot) hnum, fun q => ?_, ?_, fun g hg => ?_⟩
      · rw [hcount q]
        simp only [keyCount_append, Nat.add_assoc]
      · rw [List.map_append, hcmds, List.map_singleton, hcmd, List.singleton_append]
      · rcases List.mem_append.mp hg with hg | hg
        · rw [List.mem_singleton.mp hg, hpeer]
        · exact hpeers g hg

end Batch

/-! ## The steps that post -/

variable {setup : Setup} {w w' : World} {t t' : Epochs}

/-- A step that neither posts a batch nor moves a counter. -/
structure Unposting (w w' : World) : Prop where
  seq : w'.flags.senderSeq = w.flags.senderSeq
  hist : ∃ l, w'.hist = w.hist ++ l ∧ flagWritesOf l = [] ∧ postedOf l = []

theorem Unposting.of_same (hflags : w'.flags = w.flags) (hhist : w'.hist = w.hist) :
    Unposting w w' :=
  ⟨by rw [hflags], [], by rw [hhist, List.append_nil], rfl, rfl⟩

/-- A step that polls one command. -/
theorem Unposting.of_polled {p : Polled} {w₁ : World} (hp : pollFifo setup w = some (p, w₁))
    (hflags : w'.flags = w₁.flags) (hhist : w'.hist = w₁.hist) : Unposting w w' := by
  rcases pollFifo_eq_some hp with ⟨f, -, -, -, rfl⟩
  exact ⟨by rw [hflags], [.polled p], hhist, rfl, rfl⟩

/-- A step that records completions. -/
theorem Unposting.of_completions {es : List Event} (hflags : w'.flags = w.flags)
    (hhist : w'.hist = w.hist ++ es)
    (hes : ∀ e ∈ es, (∃ wr, e = .reaped wr) ∨ ∃ r, e = .arrived r) : Unposting w w' := by
  refine ⟨by rw [hflags], es, hhist, ?_, ?_⟩
  · refine List.flatMap_eq_nil_iff.mpr fun e he => ?_
    rcases hes e he with ⟨wr, rfl⟩ | ⟨r, rfl⟩ <;> rfl
  · refine List.flatMap_eq_nil_iff.mpr fun e he => ?_
    rcases hes e he with ⟨wr, rfl⟩ | ⟨r, rfl⟩ <;> rfl

theorem Unposting.drainReap (ne : Nat) : Unposting w (pollNic drainReap w ne) := by
  rw [pollNic_drainReap]
  refine .of_completions rfl rfl fun e he => ?_
  rcases List.mem_map.mp he with ⟨wr, -, rfl⟩
  exact Or.inl ⟨wr, rfl⟩

/-- The loops of step 1 post nothing. -/
theorem turn_unposting {c : Collect} (ht : Turn setup w c w') : Unposting w w' := by
  cases ht with
  | close head pc hcl => exact .of_same rfl rfl
  | miss spin misses hw => exact .of_same rfl rfl
  | ignored p w₁ pc hp => exact .of_polled hp rfl rfl
  | inlineNotify p w₁ hp => exact .of_polled hp rfl rfl
  | flagNotify p w₁ head pc hp => exact .of_polled hp rfl rfl
  | first p w₁ hp => exact .of_polled hp rfl rfl
  | join p w₁ pc hp => exact .of_polled hp rfl rfl
  | stash p w₁ head hp => exact .of_polled hp rfl rfl

theorem stageBarrierStep_unposting (site : BarrierSite) (p : Nat) (ok : Bool) :
    Unposting w (stageBarrierStep setup w site p ok) := by
  unfold stageBarrierStep
  split
  · dsimp only
    split
    · exact .of_same rfl rfl
    · -- A stage barrier takes a place in the staging ring, but no slot of a queue.
      split
      · exact ⟨rfl, [_], rfl, rfl, rfl⟩
      · exact ⟨rfl, [], (List.append_nil _).symm, rfl, rfl⟩
  · exact .of_same rfl rfl

theorem collectStep_unposting : Unposting w (collectStep setup w) := by
  have hbegin := collectStep_begin setup w
  generalize collectStep setup w = v at hbegin
  cases hbegin with
  | retry hb => exact .of_same rfl rfl
  | seed idx p hb hcmd hlt => exact .of_same rfl rfl
  | fresh idx hb hcmd => exact .of_same rfl rfl

/-- The proxy posts where it is to post a batch, and nowhere else. -/
theorem proxyStep_puts {ok : Bool} {ne : Nat} (hstep : proxyStep setup w ok ne = some w') :
    Unposting w w' ∨ ∃ c, w.pc = .post c ∧ c.batch ≠ [] ∧ w' = postStep setup w c ok := by
  unfold proxyStep at hstep
  cases hpc : w.pc with
  | loop | pauseGate | pausedSpin | ackStore | ackClear | account c | advanceTail =>
      simp only [hpc, Option.some.injEq] at hstep
      rw [← hstep]
      exact Or.inl (.of_same rfl rfl)
  | stageCount site p =>
      simp only [hpc, Option.some.injEq] at hstep
      rw [← hstep]
      exact Or.inl (.of_same rfl rfl)
  | barrierGate =>
      simp only [hpc] at hstep
      split at hstep <;> rw [← Option.some.inj hstep] <;> exact Or.inl (.of_same rfl rfl)
  | drainCq site =>
      simp only [hpc] at hstep
      split at hstep <;> rw [← Option.some.inj hstep]
      · -- A drain reaps, and posts nothing.
        exact Or.inl (.drainReap ne)
      · exact Or.inl (.of_same rfl rfl)
  | exitDrain =>
      simp only [hpc] at hstep
      split at hstep <;> rw [← Option.some.inj hstep]
      · exact Or.inl (.drainReap ne)
      · exact Or.inl (.of_same rfl rfl)
  | stageBarrier site p =>
      simp only [hpc, Option.some.injEq] at hstep
      rw [← hstep]
      exact Or.inl (stageBarrierStep_unposting site p ok)
  | collect =>
      simp only [hpc, Option.some.injEq] at hstep
      rw [← hstep]
      exact Or.inl collectStep_unposting
  | fill c =>
      simp only [hpc, Option.some.injEq] at hstep
      rw [← hstep]
      exact Or.inl (turn_unposting (fillStep_turn hpc))
  | accumulate c spin misses =>
      simp only [hpc, Option.some.injEq] at hstep
      rw [← hstep]
      exact Or.inl (turn_unposting (accumulateStep_turn hpc))
  | post c =>
      simp only [hpc, Option.some.injEq] at hstep
      -- An empty batch is not posted.
      by_cases hb : c.batch = []
      · rw [postStep, if_pos hb] at hstep
        rw [← hstep]
        exact Or.inl (.of_same rfl rfl)
      · exact Or.inr ⟨c, rfl, hb, hstep.symm⟩
  | pollCq posted =>
      simp only [hpc, Option.some.injEq] at hstep
      rcases pollNic_reap setup w ne with ⟨es, arrival, hw, -, hes, -⟩
      rw [← hstep, hw]
      refine Or.inl (.of_completions rfl rfl fun e he => ?_)
      -- What is reaped is a completion, of a send or of a receive.
      rcases hes e he with h | ⟨r, hr, -⟩
      · exact Or.inl h
      · exact Or.inr ⟨r, hr⟩
  | exited => simp only [hpc, reduceCtorEq] at hstep

/-- Nobody posts a batch but the proxy, and setting the epoch starts the
    counters again. -/
theorem step_puts {a : Action} (hstep : step setup w a = some w') :
    Unposting w w' ∨ (∃ epoch, a = .setEpoch epoch) ∨
      ∃ ok ne c, a = .proxy ok ne ∧ w.pc = .post c ∧ c.batch ≠ [] ∧ w' = postStep setup w c ok := by
  cases a with
  | setEpoch epoch => exact Or.inr (Or.inl ⟨epoch, rfl⟩)
  | claim k cmd | stop | fifoReset k =>
      rw [← Option.some.inj hstep]
      exact Or.inl (.of_same rfl rfl)
  | publish k =>
      rcases Option.map_eq_some_iff.mp hstep with ⟨f, -, rfl⟩
      exact Or.inl (.of_same rfl rfl)
  | place i | complete i | host b =>
      rcases Option.map_eq_some_iff.mp hstep with ⟨x, -, rfl⟩
      exact Or.inl (.of_same rfl rfl)
  | recv r | hostReset =>
      simp only [step, Option.ite_none_right_eq_some, Option.some.injEq] at hstep
      rw [← hstep.2]
      exact Or.inl (.of_same rfl rfl)
  | hostDrain ne =>
      simp only [step, Option.ite_none_right_eq_some, Option.some.injEq] at hstep
      rw [← hstep.2]
      exact Or.inl (.drainReap ne)
  | hostBarrier p slot token ok =>
      simp only [step, Option.ite_none_right_eq_some, Option.some.injEq] at hstep
      rw [← hstep.2]
      cases ok with
      -- The one request is that of the barrier.
      | true => exact Or.inl ⟨rfl, [_], rfl, rfl, rfl⟩
      | false => exact Or.inl ⟨rfl, [], (List.append_nil _).symm, rfl, rfl⟩
  | proxy ok ne =>
      rcases proxyStep_puts hstep with h | ⟨c, hpc, hb, hw⟩
      · exact Or.inl h
      · exact Or.inr (Or.inr ⟨ok, ne, c, rfl, hpc, hb, hw⟩)

/-- The requests of a batch, and the state the builder leaves. -/
def built (setup : Setup) (w : World) (c : Collect) : List WorkRequest × FlagState :=
  postBatch setup (setup.cfg.perPeer (peerSlot setup c.batch))
    ((setup.cfg.perPeer (peerSlot setup c.batch)).dstQpns c.batchQp) w.epoch w.flags c.batch

theorem postStep_true {c : Collect} (hb : c.batch ≠ []) :
    postStep setup w c true = { w with
      flags := (built setup w c).2
      nic := w.nic.post (built setup w c).1
      hist := w.hist ++
        [Event.posted c.batchQp (peerSlot setup c.batch) c.batch (built setup w c).1]
      pc := .account c } := by
  simp only [postStep, if_neg hb, if_true]
  rfl

theorem built_numbered (hmode : setup.notifyMode = .remoteFlag)
    (hq : setup.cfg.useArrivalQueue = true) {c : Collect} {start : Nat → Nat}
    (hs : CountsFrom w.flags start) :
    Numbered (FlagWrite.queue setup) (FlagWrite.InSlot setup) start
        (flagsIn (peerSlot setup c.batch) (built setup w c).1) ∧
      CountsFrom (built setup w c).2 (fun q => start q + keyCount (FlagWrite.queue setup)
        (flagsIn (peerSlot setup c.batch) (built setup w c).1) q) ∧
      (flagsIn (peerSlot setup c.batch) (built setup w c).1).map FlagWrite.cmd = c.batch ∧
      ∀ f ∈ flagsIn (peerSlot setup c.batch) (built setup w c).1,
        f.peerSlot = peerSlot setup c.batch := by
  have hbuilt : built setup w c = remoteFlagLoop setup
      (setup.cfg.perPeer (peerSlot setup c.batch))
      ((setup.cfg.perPeer (peerSlot setup c.batch)).dstQpns c.batchQp) w.flags c.batch := by
    simp only [built, postBatch, hmode, postRemoteFlagBatch, hq, if_true]
  rw [hbuilt]
  exact remoteFlagLoop_numbered hq c.batch hs

/-! ## The words of an epoch -/

/-- The counters stand at the number of words written since the epoch was set,
    which are numbered in order. -/
structure SlotInv (setup : Setup) (t : Epochs) : Prop where
  since_le : t.since ≤ t.proxy.hist.length
  counts : CountsFrom t.proxy.flags (keyCount (FlagWrite.queue setup) (flagWritesOf t.events))
  slots : Numbered (FlagWrite.queue setup) (FlagWrite.InSlot setup) (fun _ => 0)
    (flagWritesOf t.events)
  cmds : (flagWritesOf t.events).map FlagWrite.cmd = postedOf t.events

theorem slotInv_init : SlotInv setup (Epochs.init setup) where
  since_le := Nat.zero_le _
  counts := fun _ => rfl
  slots := numbered_nil
  cmds := rfl

/-- Setting the epoch starts all over. -/
theorem slotInv_setEpoch (epoch : BitVec 32) (hseq : ∀ q, w.flags.senderSeq q = 0) :
    SlotInv setup (t.record w (.setEpoch epoch)) := by
  have hevents : (t.record w (.setEpoch epoch)).events = [] := List.drop_length
  refine ⟨le_refl _, ?_, ?_, ?_⟩
  · rw [hevents]
    exact hseq
  · rw [hevents]
    exact numbered_nil
  · rw [hevents]
    rfl

/-- More words, numbered from where the counters stand. -/
theorem SlotInv.append (h : SlotInv setup t) {l : List Event} (hsince : t'.since = t.since)
    (hhist : t'.proxy.hist = t.proxy.hist ++ l)
    (hnum : Numbered (FlagWrite.queue setup) (FlagWrite.InSlot setup)
      (keyCount (FlagWrite.queue setup) (flagWritesOf t.events)) (flagWritesOf l))
    (hcounts : CountsFrom t'.proxy.flags fun q =>
      keyCount (FlagWrite.queue setup) (flagWritesOf t.events) q +
        keyCount (FlagWrite.queue setup) (flagWritesOf l) q)
    (hcmds : (flagWritesOf l).map FlagWrite.cmd = postedOf l) : SlotInv setup t' := by
  -- The words since the last reset, and the new ones.
  have hevents : t'.events = t.events ++ l := by
    rw [Epochs.events, hsince, hhist, List.drop_append_of_le_length h.since_le]
    rfl
  refine ⟨?_, ?_, ?_, ?_⟩
  · rw [hsince, hhist, List.length_append]
    exact Nat.le_add_right_of_le h.since_le
  · intro q
    rw [hevents, flagWritesOf_append, keyCount_append]
    exact hcounts q
  · rw [hevents, flagWritesOf_append]
    refine numbered_append h.slots ?_
    simp only [Nat.zero_add]
    exact hnum
  · rw [hevents, flagWritesOf_append, List.map_append, h.cmds, hcmds, postedOf_append]

/-- Whatever does not set the epoch is recorded in this one. -/
theorem record_of_ne {a : Action} (ha : ∀ epoch, a ≠ .setEpoch epoch) :
    (t.record w a).proxy = w ∧ (t.record w a).since = t.since := by
  cases a with
  | setEpoch epoch => exact absurd rfl (ha epoch)
  | _ => exact ⟨rfl, rfl⟩

/-- One step whose post, if any, succeeds. -/
theorem slotInv_step (hmode : setup.notifyMode = .remoteFlag)
    (hq : setup.cfg.useArrivalQueue = true) (h : SlotInv setup t) {a : Action}
    (hok : PostSucceeds t.proxy a) (hstep : Epochs.step setup t a = some t') :
    SlotInv setup t' := by
  rcases Option.map_eq_some_iff.mp hstep with ⟨w, hw, rfl⟩
  by_cases hepoch : ∃ epoch, a = .setEpoch epoch
  · rcases hepoch with ⟨epoch, rfl⟩
    rw [← Option.some.inj hw]
    exact slotInv_setEpoch epoch fun q => rfl
  · rcases record_of_ne (t := t) (w := w) fun epoch ha => hepoch ⟨epoch, ha⟩ with
      ⟨hproxy, hsince⟩
    rcases step_puts hw with hun | hset | ⟨ok, ne, c, rfl, hpc, hb, rfl⟩
    · rcases hun.hist with ⟨l, hhist, hflags, hposted⟩
      refine h.append hsince (hproxy ▸ hhist) ?_ ?_ ?_
      · rw [hflags]
        exact numbered_nil
      · intro q
        simp only [hproxy, hun.seq, hflags, keyCount_nil, Nat.add_zero]
        exact h.counts q
      · rw [hflags, hposted]
        rfl
    · exact absurd hset hepoch
    · -- The batch takes the next slots, and the post that follows succeeds.
      have htrue : ok = true := by
        simp only [PostSucceeds, hpc] at hok
        exact hok.resolve_left hb
      rw [htrue, postStep_true hb] at hproxy ⊢
      rcases built_numbered (c := c) hmode hq h.counts with ⟨hnum, hcount, hcmds, -⟩
      refine h.append (l := [_]) hsince (by rw [hproxy]) ?_ ?_ ?_
      · simpa only [flagWritesOf, List.flatMap_singleton, Event.flagWrites] using hnum
      · rw [hproxy]
        simpa only [flagWritesOf, List.flatMap_singleton, Event.flagWrites] using hcount
      · simpa only [flagWritesOf, List.flatMap_singleton, Event.flagWrites, postedOf, Event.batch]
          using hcmds

/-- The words of a logical queue are those of the commands posted to it, in
    order, and in the first slots. On a receiver that all of them go to, these
    are the slots `0`, `1`, ..., and each is written once. -/
structure Dense (setup : Setup) (t : Epochs) (q : Nat) : Prop where
  delivered : (queueWrites setup q t.events).map FlagWrite.cmd = queuePosted setup q t.events
  inOrder : ∀ i f, (queueWrites setup q t.events)[i]? = some f →
    f.addr = setup.slotAddr f.peerSlot q i
  prefix_eq : ∀ r, (∀ f ∈ queueWrites setup q t.events, f.peerSlot = r) →
    (queueWrites setup q t.events).map FlagWrite.addr =
      (List.range (queuePosted setup q t.events).length).map (setup.slotAddr r q)
  once : ∀ r, (∀ f ∈ queueWrites setup q t.events, f.peerSlot = r) →
    (queuePosted setup q t.events).length ≤ 2 ^ 32 →
      ((queueWrites setup q t.events).map FlagWrite.addr).Nodup

/-- Slots counted in 32 bits have addresses of their own. -/
theorem slotAddr_inj {r q i j : Nat} (hi : i < 2 ^ 32) (hj : j < 2 ^ 32)
    (h : setup.slotAddr r q i = setup.slotAddr r q j) : i = j := by
  unfold Setup.slotAddr at h
  -- Equal addresses are four times equal words, and a word has the counter's 32 bits.
  have hword := (BitVec.add_right_inj _).mp h
  generalize BitVec.ofNat 32 q * setup.cfg.remoteQueueStride = base at hword
  have hnat := congrArg BitVec.toNat hword
  have hfour : (4 : BitVec 64).toNat = 4 := rfl
  simp only [BitVec.toNat_mul, BitVec.toNat_setWidth, BitVec.toNat_add, BitVec.toNat_ofNat,
    hfour] at hnat
  have hbase := base.isLt
  omega

theorem queuePosted_eq (h : SlotInv setup t) (q : Nat) :
    (queueWrites setup q t.events).map FlagWrite.cmd = queuePosted setup q t.events := by
  rw [queuePosted, ← h.cmds, ofKey, List.filter_map]
  rfl

theorem dense_of_slotInv (h : SlotInv setup t) (q : Nat) : Dense setup t q := by
  have hlen : keyCount (FlagWrite.queue setup) (flagWritesOf t.events) q =
      (queuePosted setup q t.events).length := by
    rw [← queuePosted_eq h q, List.length_map]
    rfl
  have hfirst : ∀ r, (∀ f ∈ queueWrites setup q t.events, f.peerSlot = r) →
      (queueWrites setup q t.events).map FlagWrite.addr =
        (List.range (queuePosted setup q t.events).length).map (setup.slotAddr r q) := by
    intro r hr
    -- Numbers turn into addresses, the receiver being the same for all.
    have hmap := h.slots.map_eq q (f := FlagWrite.addr) (g := setup.slotAddr r q) ?_
    · simp only [hlen, Nat.zero_add] at hmap
      exact hmap
    · intro f hf n hslot
      rw [hslot, hr f hf, of_decide_eq_true (List.mem_filter.mp hf).2]
  refine ⟨queuePosted_eq h q, fun i f hf => ?_, hfirst, fun r hr hle => ?_⟩
  · have hslot := h.slots q i f hf
    rw [Nat.zero_add] at hslot
    rw [hslot, of_decide_eq_true (List.mem_filter.mp (List.mem_of_getElem? hf)).2]
  · rw [hfirst r hr]
    refine List.Nodup.map_on (fun i hi j hj heq => ?_) List.nodup_range
    have hi' := List.mem_range.mp hi
    have hj' := List.mem_range.mp hj
    exact slotAddr_inj (by omega) (by omega) heq

theorem slotInv_of_reaches (hmode : setup.notifyMode = .remoteFlag)
    (hq : setup.cfg.useArrivalQueue = true)
    (h : Reaches (Epochs.step setup) (fun t a => PostSucceeds t.proxy a) (Epochs.init setup) t) :
    SlotInv setup t :=
  invariant_of_reaches (SlotInv setup)
    (fun _ _ _ hi hok hstep => slotInv_step hmode hq hi hok hstep) h slotInv_init

/-- Where every post succeeds, the words of each logical queue are in its first
    slots. -/
theorem slots_dense (hmode : setup.notifyMode = .remoteFlag)
    (hq : setup.cfg.useArrivalQueue = true)
    (h : Reaches (Epochs.step setup) (fun t a => PostSucceeds t.proxy a) (Epochs.init setup) t)
    (q : Nat) : Dense setup t q :=
  dense_of_slotInv (slotInv_of_reaches hmode hq h) q

section Sample

/-- A proxy with one peer and two logical queues of 16 slots. -/
def queueSetup : Setup :=
  Setup.ofMode { sampleConfig with useArrivalQueue := true, remoteQueueStride := 16 } .remoteFlag

/-- Two WRITEs to the first queue, posted together. -/
def announced : Epochs :=
  (run (Epochs.step queueSetup) (fun t a => PostSucceeds t.proxy a)
    (pushes 0 [writeCmd 0 5, writeCmd 2 6] ++ goes 17) (Epochs.init queueSetup)).get
    (by decide +kernel)

theorem slots_dense_announced :
    (queuePosted queueSetup 0 announced.events).length = 2 ∧ Dense queueSetup announced 0 :=
  ⟨by decide +kernel, slots_dense rfl rfl (reaches_of_run _ _ _ (Option.some_get _).symm) 0⟩

/-- A WRITE whose first post fails is announced in slot 1, and nothing is in
    slot 0. -/
theorem slots_skipped : ∃ t : Epochs,
    Reaches (Epochs.step queueSetup) always (Epochs.init queueSetup) t ∧
    (queueWrites queueSetup 0 t.events).map FlagWrite.addr = [queueSetup.slotAddr 0 0 1] ∧
    (queuePosted queueSetup 0 t.events).length = 1 ∧ ¬ Dense queueSetup t 0 :=
  ⟨(run (Epochs.step queueSetup) always
      (pushes 0 [writeCmd 0 5] ++ goes 15 ++ [Action.proxy false 32] ++ goes 6)
      (Epochs.init queueSetup)).get (by decide +kernel),
    reaches_of_run _ _ _ (Option.some_get _).symm, by decide +kernel, by decide +kernel,
    fun h => absurd (h.prefix_eq 0 (by decide +kernel)) (by decide +kernel)⟩

end Sample

end Efa

end Internode

end MKernel
