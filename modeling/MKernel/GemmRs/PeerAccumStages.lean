import Mathlib.Algebra.GroupWithZero.Nat
import Mathlib.Data.BitVec
import MKernel.GemmRs.PeerAccum

/-!
# The Stages of a Part

The invariant of the incremental reduce of `gemm_rs`, stage by stage.

A part goes from hand to hand: from the drainer whose atomic disjunction recorded
it to a place of `peer_accum_queue`, to the CTA that draws it, into the sum, and into
the count of its chunk. A chunk whose parts are all counted goes to the CTA that
counted the last of them, to a place of `ready_reduce_queue`, to the CTA that draws
it, to the output and to the number of chunks processed. Each of these is a custody
without loss, and what one stage lets go of is what the next one takes.

The lock makes the load and the store of a sum one step to the other CTAs, and the
order in which it is taken the one in which the parts are added. It does not keep
out the tiles of the node's own GPUs. But a part is added only after `sender_done`,
so if they have all landed before that, a sum is what they came to with the parts
added to it in the order of `added`.

Most steps concern one stage, and the others are told that nothing of theirs
changes, by one lemma for each of them.

## Main definitions

* `Parts`: The way of a part until it is added.
* `Locks`: The locks, and the order they make.
* `Sums`: The sums, of the node's own tiles and of the parts.
* `Counts`: The way of a part from the sum to the chunk that is ready.
* `Reads`: The way of a chunk.
* `Inv`: All of them.

## Theorems

* `Parts.quiet`, `Locks.quiet`, `Sums.quiet`, `Counts.quiet`, `Reads.quiet`: Steps that
  leave a stage alone.
* `Locks.lock`: The lock of a chunk is taken.
* `Parts.add`, `Locks.add`, `Sums.add`, `Counts.add`: A part is added.
* `Sums.land`, `Sums.send`: A tile lands, and the flag of a chunk is set.
* `Counts.count`: It is counted, and the last one completes its chunk.
* `Reads.write`: A chunk is written.
-/

namespace MKernel

namespace GemmRs

namespace PeerAccum

open MKernel.Core MKernel.Internode

variable {V W : Type*} {setup : Setup} {recvBuf : Nat → Nat → V} {hadd2 : V → V → V}
  {storeAdd : V → W → V} {staging : Nat → V} {tiles : Nat → List W}

/-- What holds of one CTA and of all others holds of all, after it has moved. -/
theorem forall_cta {n : Nat} {cta : Fin n → Pc V} {r : Fin n} {pc : Pc V}
    {P : Fin n → Pc V → Prop} (hr : P r pc) (hother : ∀ s, P s (cta s)) (s : Fin n) :
    P s (Function.update cta r pc s) := by
  by_cases hs : s = r
  · rw [hs, Function.update_self]
    exact hr
  · rw [Function.update_of_ne hs]
    exact hother s

section Roles

variable {n : Nat} {α : Type*} {cta : Fin n → Pc V} {r : Fin n} {pc : Pc V}

theorem role_update (f : Pc V → α) : (fun s => f (Function.update cta r pc s)) =
    Function.update (fun s => f (cta s)) r (f pc) :=
  Function.comp_update f cta r pc

theorem role_same (f : Pc V → α) (h : f pc = f (cta r)) :
    (fun s => f (Function.update cta r pc s)) = fun s => f (cta s) := by
  rw [role_update, h]
  exact Function.update_eq_self r _

end Roles

/-! ## The invariant -/

/-- The part a drainer has recorded and not put into the queue yet. -/
def recordedPart : Arrivals.Pc → Option (Nat × Nat)
  | .enqueueing chunkId c => some (c.peerSlot, chunkId)
  | _ => none

/-- An entry of the queue of parts. -/
def entry (x : Nat × Nat) : BitVec 32 := encodePeerAccumWork x.1 x.2

/-- A part of this launch. -/
def Setup.Part (setup : Setup) (x : Nat × Nat) : Prop :=
  x.1 < setup.numPeers ∧ x.2 < setup.totalChunks ∧ setup.receiverOwnsChunk x.2 = true

/-- The way of a part until it is added. -/
structure Parts (setup : Setup) (arr : Arrivals.State (Drainer setup))
    (toStore : Drainer setup → Option (Nat × Nat × Nat)) (m : Memory V)
    (cta : Fin setup.numReduce → Pc V) : Prop where
  recorded : Handed (fun d => recordedPart (arr.pc d))
    (fun x => x.1 ∈ voters (arr.mem.remoteArrivedPeerMask x.2)) arr.mem.peerAccumQueue
  bounds : ∀ x : Nat × Nat, x.1 ∈ voters (arr.mem.remoteArrivedPeerMask x.2) → setup.Part x
  cursors : ∀ d c, (arr.pc d).cursor = some c →
    c.peerSlot < setup.numPeers ∧ c.rb < setup.rowBlocksPerSlice
  entries : ∀ i, EntryOf arr.mem.peerAccumQueue entry i (m.peerAccumQueue i)
  storing : ∀ d i x, toStore d = some (i, x) → arr.mem.peerAccumQueue[i]? = some x
  head_le : m.peerAccumHead ≤ arr.mem.peerAccumQueue.length
  places : ∀ r i, (cta r).peerPlace = some i → i < arr.mem.peerAccumQueue.length
  queued : Queued arr.mem.peerAccumQueue m.peerAccumHead
    (fun r => (cta r).part arr.mem.peerAccumQueue) m.added

/-- The peers whose parts were added to a chunk, in order. -/
def order (added : List (Nat × Nat)) (c : Nat) : List Nat :=
  (added.filter fun x => x.2 = c).map Prod.fst

/-- A sum with the parts of some peers added to it. -/
def sumOf (recvBuf : Nat → Nat → V) (hadd2 : V → V → V) (c : Nat) (v : V) (peers : List Nat) : V :=
  peers.foldl (fun accum p => hadd2 accum (recvBuf p c)) v

/-- What the staging buffer came to when some tiles had been added to it, in order. -/
def localSum (storeAdd : V → W → V) (v : V) (landed : List W) : V := landed.foldl storeAdd v

/-- The locks, and the order in which they were taken. -/
structure Locks {n : Nat} (m : Memory V) (cta : Fin n → Pc V) : Prop where
  locked : ∀ r c, (cta r).inside = some c → m.chunkAccumLock c = 1
  alone : ∀ r s c, (cta r).inside = some c → (cta s).inside = some c → r = s
  adding : ∀ r p c, (cta r).adding = some (p, c) → order m.locked c = order m.added c ++ [p]
  order_eq : ∀ c, (∀ r p, (cta r).adding ≠ some (p, c)) → order m.locked c = order m.added c
  sent : ∀ r c, (cta r).sent = some c → m.senderDone c = true
  added_sent : ∀ x ∈ m.added, m.senderDone x.2 = true

/-- The sums. Of a chunk whose `sender_done` was set too early, nothing is said. -/
structure Sums (recvBuf : Nat → Nat → V) (hadd2 : V → V → V) (storeAdd : V → W → V)
    (staging : Nat → V) (tiles : Nat → List W) {n : Nat} (l : Landing W) (m : Memory V)
    (cta : Fin n → Pc V) : Prop where
  landed : ∀ c, (l.landed c ++ l.toLand c).Perm (tiles c)
  done : ∀ c, c ∉ l.sentEarly → m.senderDone c = true → l.toLand c = []
  loaded : ∀ r p c v, c ∉ l.sentEarly → cta r = .storing p c v → v = m.stagingBuf c
  sum_eq : ∀ c, c ∉ l.sentEarly → m.stagingBuf c =
    sumOf recvBuf hadd2 c (localSum storeAdd (staging c) (l.landed c)) (order m.added c)
  written_eq : ∀ c, c ∉ l.sentEarly → c ∈ m.written → m.outputLocal c = some (m.stagingBuf c)

/-- All parts of a chunk are counted. -/
def AllCounted (setup : Setup) (counted : List (Nat × Nat)) (c : Nat) : Prop :=
  ∀ p < setup.numPeers, (p, c) ∈ counted

/-- The way of a part from the sum to the chunk that is ready. -/
structure Counts (setup : Setup) (m : Memory V) (cta : Fin setup.numReduce → Pc V) : Prop where
  counting : Handed (fun r => (cta r).toCount) (· ∈ m.added) m.counted
  count_eq : ∀ c, m.peerAccumDoneCount c = m.counted.countP (fun x => x.2 = c)
  settling : Settling (AllCounted setup m.counted) (fun r => (cta r).toMark)
    (fun r => (cta r).owes) m.marked m.readied

/-- The way of a chunk. -/
structure Reads (setup : Setup) (m : Memory V) (cta : Fin setup.numReduce → Pc V) : Prop where
  tail_eq : m.readyReduceTail = m.readied.length
  head_le : m.readyReduceHead ≤ m.readied.length
  places : ∀ r i, (cta r).readyPlace = some i → i < m.readied.length
  entries : ∀ i, EntryOf m.readied (· + 1) i (m.readyReduceQueue i)
  storing : ∀ r c i, (cta r).toEnter = some (c, i) → m.readied[i]? = some c
  queued : Queued m.readied m.readyReduceHead (fun r => (cta r).chunk m.readied) m.written
  processing : Handed (fun r => (cta r).toProcess) (· ∈ m.written) m.processed
  processed_eq : m.chunksProcessed = m.processed.length
  unwritten : ∀ c, c ∉ m.written → m.outputLocal c = none
  returned : ∀ r, cta r = .returned → setup.doneTarget ≤ m.chunksProcessed

/-- The invariant that carries the proof. -/
structure Inv (recvBuf : Nat → Nat → V) (hadd2 : V → V → V) (storeAdd : V → W → V)
    (staging : Nat → V) (tiles : Nat → List W) (w : World V W setup) : Prop where
  parts : Parts setup w.arr w.toStore w.mem w.cta
  locks : Locks w.mem w.cta
  sums : Sums recvBuf hadd2 storeAdd staging tiles w.landing w.mem w.cta
  counts : Counts setup w.mem w.cta
  reads : Reads setup w.mem w.cta

theorem inv_init :
    Inv recvBuf hadd2 storeAdd staging tiles (World.init setup staging tiles) where
  -- Nobody has anything at launch, and no bit is set.
  parts :=
    { recorded := Handed.init (fun _ => rfl) fun x hx => by
        simp only [World.init, Arrivals.State.init, Arrivals.Memory.init, voters_zero,
          Finset.notMem_empty] at hx
      bounds := fun x hx => by
        simp only [World.init, Arrivals.State.init, Arrivals.Memory.init, voters_zero,
          Finset.notMem_empty] at hx
      cursors := by rintro _ _ ⟨⟩
      entries := fun _ => Or.inl rfl
      storing := by rintro _ _ _ ⟨⟩
      head_le := Nat.le_refl 0
      places := by rintro _ _ ⟨⟩
      queued := Queued.init fun _ => rfl }
  locks :=
    { locked := by rintro _ _ ⟨⟩
      alone := by rintro _ _ _ ⟨⟩
      adding := by rintro _ _ _ ⟨⟩
      order_eq := fun _ _ => rfl
      sent := by rintro _ _ ⟨⟩
      added_sent := fun _ hx => absurd hx List.not_mem_nil }
  sums :=
    { landed := fun _ => List.Perm.refl _
      done := by rintro _ _ ⟨⟩
      loaded := by rintro _ _ _ _ _ ⟨⟩
      sum_eq := fun _ _ => rfl
      written_eq := fun _ _ hc => absurd hc List.not_mem_nil }
  counts :=
    { counting := Handed.init (fun _ => rfl) fun _ => List.not_mem_nil
      count_eq := fun _ => rfl
      settling := Settling.init fun _ hc => absurd (hc 0 setup.numPeers_pos) List.not_mem_nil }
  reads :=
    { tail_eq := rfl
      head_le := Nat.le_refl 0
      places := by rintro _ _ ⟨⟩
      entries := fun _ => Or.inl rfl
      storing := by rintro _ _ _ ⟨⟩
      queued := Queued.init fun _ => rfl
      processing := Handed.init (fun _ => rfl) fun _ => List.not_mem_nil
      processed_eq := rfl
      unwritten := fun _ _ => rfl
      returned := by rintro _ ⟨⟩ }

/-! ## Steps that leave a stage alone -/

section Quiet

variable {arr : Arrivals.State (Drainer setup)} {toStore : Drainer setup → Option (Nat × Nat × Nat)}
  {m m' : Memory V} {cta : Fin setup.numReduce → Pc V} {r : Fin setup.numReduce} {pc₀ pc : Pc V}

theorem Parts.quiet (h : Parts setup arr toStore m cta) (hpc : cta r = pc₀)
    (hpart : pc.part arr.mem.peerAccumQueue = pc₀.part arr.mem.peerAccumQueue := by rfl)
    (hplace : ∀ i, pc.peerPlace = some i →
      pc₀.peerPlace = some i ∨ i < arr.mem.peerAccumQueue.length := by rintro _ ⟨⟩)
    (hhead : m'.peerAccumHead = m.peerAccumHead := by rfl)
    (hqueue : m'.peerAccumQueue = m.peerAccumQueue := by rfl)
    (hadded : m'.added = m.added := by rfl) :
    Parts setup arr toStore m' (Function.update cta r pc) :=
  { h with
    entries := by
      rw [hqueue]
      exact h.entries
    head_le := by
      rw [hhead]
      exact h.head_le
    -- The CTA has the place that it had, or one that has been given out.
    places := forall_cta (P := fun _ (q : Pc V) => ∀ i, q.peerPlace = some i →
      i < arr.mem.peerAccumQueue.length)
      (fun i hi => (hplace i hi).elim (hpc ▸ h.places r i) id) h.places
    queued := by
      rw [hhead, hadded, role_same (Pc.part arr.mem.peerAccumQueue) (hpc ▸ hpart)]
      exact h.queued }

theorem Locks.quiet (h : Locks m cta) (hpc : cta r = pc₀)
    (hinside : pc.inside = pc₀.inside := by rfl) (hadding : pc.adding = pc₀.adding := by rfl)
    (hsees : ∀ c, pc.sent = some c → pc₀.sent = some c ∨ m.senderDone c = true := by rintro _ ⟨⟩)
    (hlock : m'.chunkAccumLock = m.chunkAccumLock := by rfl)
    (hlocked : m'.locked = m.locked := by rfl) (hadded : m'.added = m.added := by rfl)
    (hsent : m'.senderDone = m.senderDone := by rfl) :
    Locks m' (Function.update cta r pc) where
  locked := by
    rw [hlock]
    exact forall_cta (P := fun _ (q : Pc V) => ∀ c, q.inside = some c → m.chunkAccumLock c = 1)
      (fun c hc => h.locked r c (by rw [hpc, ← hinside]; exact hc)) h.locked
  alone := by
    -- The CTA is where it was to the lock, so nobody gets into it.
    have hsame : ∀ s, (Function.update cta r pc s).inside = (cta s).inside :=
      congrFun (role_same Pc.inside (hpc ▸ hinside))
    intro s t c hs ht
    exact h.alone s t c ((hsame s).symm.trans hs) ((hsame t).symm.trans ht)
  adding := by
    rw [hlocked, hadded]
    intro s p c hs
    exact h.adding s p c ((congrFun (role_same Pc.adding (hpc ▸ hadding)) s).symm.trans hs)
  order_eq := by
    rw [hlocked, hadded]
    -- Whoever is between the lock and the counter still is.
    intro c hnobody
    refine h.order_eq c fun s p hs => hnobody s p ?_
    exact (congrFun (role_same Pc.adding (hpc ▸ hadding)) s).trans hs
  sent := by
    rw [hsent]
    -- What the CTA knows to be sent is, and the others know what they knew.
    exact forall_cta (P := fun _ (q : Pc V) => ∀ c, q.sent = some c → m.senderDone c = true)
      (fun c hc => (hsees c hc).elim (hpc ▸ h.sent r c) id) h.sent
  added_sent := by
    rw [hsent, hadded]
    exact h.added_sent

theorem Sums.quiet {l : Landing W} (h : Sums recvBuf hadd2 storeAdd staging tiles l m cta)
    (hload : ∀ p c v, pc ≠ .storing p c v := by rintro _ _ _ ⟨⟩)
    (hsum : m'.stagingBuf = m.stagingBuf := by rfl) (hadded : m'.added = m.added := by rfl)
    (hsent : m'.senderDone = m.senderDone := by rfl) (hwritten : m'.written = m.written := by rfl)
    (houtput : m'.outputLocal = m.outputLocal := by rfl) :
    Sums recvBuf hadd2 storeAdd staging tiles l m' (Function.update cta r pc) where
  landed := h.landed
  done := by
    rw [hsent]
    exact h.done
  loaded := by
    rw [hsum]
    intro s p c v hearly hs
    -- It does not hold a sum after this step.
    exact forall_cta (P := fun _ (q : Pc V) => q = .storing p c v → v = m.stagingBuf c)
      (fun hv => absurd hv (hload p c v)) (fun t => h.loaded t p c v hearly) s hs
  sum_eq := by
    rw [hsum, hadded]
    exact h.sum_eq
  written_eq := by
    rw [hsum, hwritten, houtput]
    exact h.written_eq

theorem Counts.quiet (h : Counts setup m cta) (hpc : cta r = pc₀)
    (htoCount : pc.toCount = pc₀.toCount := by rfl) (htoMark : pc.toMark = pc₀.toMark := by rfl)
    (howes : pc.owes = pc₀.owes := by rfl) (hadded : m'.added = m.added := by rfl)
    (hcounted : m'.counted = m.counted := by rfl)
    (hcount : m'.peerAccumDoneCount = m.peerAccumDoneCount := by rfl)
    (hmarked : m'.marked = m.marked := by rfl) (hreadied : m'.readied = m.readied := by rfl) :
    Counts setup m' (Function.update cta r pc) where
  counting := by
    rw [hadded, hcounted, role_same Pc.toCount (hpc ▸ htoCount)]
    exact h.counting
  count_eq := by
    rw [hcount, hcounted]
    exact h.count_eq
  settling := by
    rw [hcounted, hmarked, hreadied, role_same Pc.toMark (hpc ▸ htoMark),
      role_same Pc.owes (hpc ▸ howes)]
    exact h.settling

theorem Reads.quiet (h : Reads setup m cta) (hpc : cta r = pc₀)
    (hchunk : pc.chunk m.readied = pc₀.chunk m.readied := by rfl)
    (hplace : ∀ i, pc.readyPlace = some i →
      pc₀.readyPlace = some i ∨ i < m.readied.length := by rintro _ ⟨⟩)
    (henter : pc.toEnter = none := by rfl) (hprocess : pc.toProcess = pc₀.toProcess := by rfl)
    (hreturn : pc = .returned → setup.doneTarget ≤ m.chunksProcessed := by rintro ⟨⟩)
    (htail : m'.readyReduceTail = m.readyReduceTail := by rfl)
    (hhead : m'.readyReduceHead = m.readyReduceHead := by rfl)
    (hqueue : m'.readyReduceQueue = m.readyReduceQueue := by rfl)
    (hreadied : m'.readied = m.readied := by rfl) (hwritten : m'.written = m.written := by rfl)
    (hprocessed : m'.processed = m.processed := by rfl)
    (hnumber : m'.chunksProcessed = m.chunksProcessed := by rfl)
    (houtput : m'.outputLocal = m.outputLocal := by rfl) :
    Reads setup m' (Function.update cta r pc) where
  tail_eq := by
    rw [htail, hreadied]
    exact h.tail_eq
  head_le := by
    rw [hhead, hreadied]
    exact h.head_le
  places := by
    rw [hreadied]
    -- The CTA keeps its place in the queue, or has drawn one of those given out.
    exact forall_cta (P := fun _ (q : Pc V) => ∀ i, q.readyPlace = some i → i < m.readied.length)
      (fun i hi => (hplace i hi).elim (hpc ▸ h.places r i) id) h.places
  entries := by
    rw [hqueue, hreadied]
    exact h.entries
  storing := by
    rw [hreadied]
    exact forall_cta (P := fun _ (q : Pc V) => ∀ c i, q.toEnter = some (c, i) →
      m.readied[i]? = some c) (fun c i hi => by
        -- It does not enter a chunk.
        rw [henter] at hi
        exact absurd hi (by simp only [reduceCtorEq, not_false_eq_true])) h.storing
  queued := by
    -- Each CTA has the chunk and the counts that it had.
    rw [hreadied, hhead, hwritten, role_same (Pc.chunk m.readied) (hpc ▸ hchunk)]
    exact h.queued
  processing := by
    rw [hwritten, hprocessed, role_same Pc.toProcess (hpc ▸ hprocess)]
    exact h.processing
  processed_eq := by
    rw [hnumber, hprocessed]
    exact h.processed_eq
  unwritten := by
    rw [houtput, hwritten]
    exact h.unwritten
  returned := by
    rw [hnumber]
    exact forall_cta (P := fun _ (q : Pc V) => q = .returned → setup.doneTarget ≤ m.chunksProcessed)
      hreturn h.returned

end Quiet

/-! ## The stages -/

section Stages

variable {arr : Arrivals.State (Drainer setup)} {toStore : Drainer setup → Option (Nat × Nat × Nat)}
  {m : Memory V} {cta : Fin setup.numReduce → Pc V} {r : Fin setup.numReduce} {p c : Nat}

/-- A CTA draws the first part. -/
theorem Parts.pop (h : Parts setup arr toStore m cta) (hpc : cta r = .peerTail m.peerAccumHead) :
    Parts setup arr toStore { m with peerAccumHead := m.peerAccumHead + 1 }
      (Function.update cta r (.peerPopped m.peerAccumHead)) := by
  have hlt : m.peerAccumHead < arr.mem.peerAccumQueue.length := h.places r _ (by rw [hpc]; rfl)
  have hnone : (cta r).part arr.mem.peerAccumQueue = none := by
    rw [hpc]
    rfl
  have hitem : arr.mem.peerAccumQueue[m.peerAccumHead]? =
      some arr.mem.peerAccumQueue[m.peerAccumHead] := List.getElem?_eq_getElem hlt
  refine { h with head_le := hlt, places := ?_, queued := ?_ }
  · refine forall_cta (P := fun _ (q : Pc V) => ∀ i, q.peerPlace = some i →
      i < arr.mem.peerAccumQueue.length) (fun i hi => ?_) h.places
    cases hi
    exact hlt
  · rw [role_update (Pc.part arr.mem.peerAccumQueue)]
    have hdrawn : Pc.part (V := V) arr.mem.peerAccumQueue (.peerPopped m.peerAccumHead) =
        some arr.mem.peerAccumQueue[m.peerAccumHead] := hitem
    rw [hdrawn]
    exact h.queued.pop hnone hitem

/-- A part is added. -/
theorem Parts.add (h : Parts setup arr toStore m cta) {v : V} (hpc : cta r = .storing p c v)
    (sum : Nat → V) :
    Parts setup arr toStore { m with stagingBuf := sum, added := m.added ++ [(p, c)] }
      (Function.update cta r (.unlocking p c)) := by
  have hheld : (cta r).part arr.mem.peerAccumQueue = some (p, c) := by
    rw [hpc]
    rfl
  refine { h with places := ?_, queued := ?_ }
  · exact forall_cta (P := fun _ (q : Pc V) => ∀ i, q.peerPlace = some i →
      i < arr.mem.peerAccumQueue.length) (by rintro _ ⟨⟩) h.places
  · rw [role_update (Pc.part arr.mem.peerAccumQueue)]
    exact h.queued.release hheld

/-- The part a CTA has is not added. -/
theorem Parts.notMem_added (h : Parts setup arr toStore m cta)
    (hheld : (cta r).part arr.mem.peerAccumQueue = some (p, c)) : (p, c) ∉ m.added :=
  h.queued.custody.notMem_of_held (.inr r) (p, c) hheld

theorem Parts.part_of_mem_added (h : Parts setup arr toStore m cta) {x : Nat × Nat}
    (hx : x ∈ m.added) : setup.Part x :=
  h.bounds x (h.recorded.custody.taken_of_out x (h.queued.custody.taken_of_out x hx))

theorem inside_of_adding {pc : Pc V} (h : pc.adding = some (p, c)) : pc.inside = some c := by
  cases pc with
  | loading | storing =>
      cases h
      rfl
  | _ => cases h

theorem part_of_adding {pc : Pc V} {queue : List (Nat × Nat)} (h : pc.adding = some (p, c)) :
    pc.part queue = some (p, c) := by
  cases pc with
  | loading | storing =>
      cases h
      rfl
  | _ => cases h

theorem order_concat_self (added : List (Nat × Nat)) :
    order (added ++ [(p, c)]) c = order added c ++ [p] := by
  simp only [order, List.filter_append, List.map_append, List.filter_singleton, decide_true,
    Bool.cond_true, List.map_cons, List.map_nil]

theorem order_concat_of_ne (added : List (Nat × Nat)) {x : Nat} (hx : x ≠ c) :
    order (added ++ [(p, c)]) x = order added x := by
  simp only [order, List.filter_append, List.filter_singleton, decide_eq_false (Ne.symm hx),
    Bool.cond_false, List.append_nil]

/-- A CTA takes the lock of a chunk. -/
theorem Locks.lock (h : Locks m cta) (hpc : cta r = .locking p c)
    (hfree : m.chunkAccumLock c = 0) :
    Locks { m with
        chunkAccumLock := Function.update m.chunkAccumLock c 1
        locked := m.locked ++ [(p, c)] }
      (Function.update cta r (.loading p c)) := by
  have hnobody : ∀ s, (cta s).inside ≠ some c := by
    intro s hs
    rw [h.locked s c hs] at hfree
    exact absurd hfree Nat.one_ne_zero
  have hother : ∀ s x, (Function.update cta r (.loading p c) s).inside = some x →
      s = r ∧ x = c ∨ s ≠ r ∧ x ≠ c ∧ (cta s).inside = some x := by
    intro s x hs
    by_cases hsr : s = r
    · rw [hsr, Function.update_self] at hs
      cases hs
      exact Or.inl ⟨hsr, rfl⟩
    · rw [Function.update_of_ne hsr] at hs
      exact Or.inr ⟨hsr, fun hx => hnobody s (hx ▸ hs), hs⟩
  refine { h with
    locked := fun s x hs => ?_
    alone := fun s t x hs ht => ?_
    adding := fun s q x hs => ?_
    order_eq := fun x hx => ?_
    sent := ?_ }
  · rcases hother s x hs with ⟨-, rfl⟩ | ⟨-, hx, hs'⟩
    · exact Function.update_self _ _ _
    · exact (Function.update_of_ne hx _ _).trans (h.locked s x hs')
  · rcases hother s x hs with ⟨rfl, rfl⟩ | ⟨-, hx, hs'⟩
    · rcases hother t x ht with ⟨rfl, -⟩ | ⟨-, hx, -⟩
      · rfl
      · exact absurd rfl hx
    · rcases hother t x ht with ⟨-, rfl⟩ | ⟨-, -, ht'⟩
      · exact absurd rfl hx
      · exact h.alone s t x hs' ht'
  · -- Up to now every part the lock of the chunk was taken for is added.
    show order (m.locked ++ [(p, c)]) x = order m.added x ++ [q]
    by_cases hsr : s = r
    · rw [hsr, Function.update_self] at hs
      cases hs
      rw [order_concat_self, h.order_eq c fun t _ ht => hnobody t (inside_of_adding ht)]
    · rw [Function.update_of_ne hsr] at hs
      have hx : x ≠ c := fun heq => hnobody s (heq ▸ inside_of_adding hs)
      rw [order_concat_of_ne _ hx]
      exact h.adding s q x hs
  · show order (m.locked ++ [(p, c)]) x = order m.added x
    have hxc : x ≠ c := by
      rintro rfl
      exact hx r p (by rw [Function.update_self]; rfl)
    rw [order_concat_of_ne _ hxc]
    refine h.order_eq x fun s q hs => hx s q ?_
    have hsr : s ≠ r := by
      rintro rfl
      rw [hpc] at hs
      cases hs
    rw [Function.update_of_ne hsr]
    exact hs
  · exact forall_cta (P := fun _ (q : Pc V) => ∀ x, q.sent = some x → m.senderDone x = true)
      (fun x hx => h.sent r x (by rw [hpc]; exact hx)) h.sent

/-- It stores the sum with its part. -/
theorem Locks.add (h : Locks m cta) {v : V} (hpc : cta r = .storing p c v) (sum : Nat → V) :
    Locks { m with stagingBuf := sum, added := m.added ++ [(p, c)] }
      (Function.update cta r (.unlocking p c)) := by
  have hin : (cta r).inside = some c := by
    rw [hpc]
    rfl
  have hinside : ∀ s, (Function.update cta r (.unlocking p c) s).inside = (cta s).inside :=
    congrFun (role_same Pc.inside (by rw [hpc]; rfl))
  refine { h with
    locked := fun s x hs => h.locked s x ((hinside s).symm.trans hs)
    alone := fun s t x hs ht =>
      h.alone s t x ((hinside s).symm.trans hs) ((hinside t).symm.trans ht)
    adding := fun s q x hs => ?_
    order_eq := fun x hx => ?_
    sent := ?_
    added_sent := fun x hx => ?_ }
  · -- Another CTA that adds is in another chunk, since this one has the lock of its own.
    have hsr : s ≠ r := by
      rintro rfl
      rw [Function.update_self] at hs
      cases hs
    rw [Function.update_of_ne hsr] at hs
    have hx : x ≠ c := by
      rintro rfl
      exact hsr (h.alone s r x (inside_of_adding hs) hin)
    show order m.locked x = order (m.added ++ [(p, c)]) x ++ [q]
    rw [order_concat_of_ne _ hx]
    exact h.adding s q x hs
  · -- In its own chunk the part was drawn last, and now it is the last one added.
    show order m.locked x = order (m.added ++ [(p, c)]) x
    by_cases hxc : x = c
    · rw [hxc, order_concat_self]
      exact h.adding r p c (by rw [hpc]; rfl)
    · rw [order_concat_of_ne _ hxc]
      refine h.order_eq x fun s q hs => hx s q ?_
      have hsr : s ≠ r := by
        rintro rfl
        rw [hpc] at hs
        cases hs
        exact hxc rfl
      rw [Function.update_of_ne hsr]
      exact hs
  · exact forall_cta (P := fun _ (q : Pc V) => ∀ x, q.sent = some x → m.senderDone x = true)
      (by rintro _ ⟨⟩) h.sent
  · rcases List.mem_append.mp hx with hx | hx
    · -- Whatever is added was sent before.
      exact h.added_sent x hx
    · rw [List.mem_singleton.mp hx]
      exact h.sent r c (by rw [hpc]; rfl)

/-- It lets go of the lock. -/
theorem Locks.unlock (h : Locks m cta) (hpc : cta r = .unlocking p c) :
    Locks { m with chunkAccumLock := Function.update m.chunkAccumLock c 0 }
      (Function.update cta r (.counting p c)) := by
  have hin : (cta r).inside = some c := by
    rw [hpc]
    rfl
  have hadding : ∀ s, (Function.update cta r (.counting p c) s).adding = (cta s).adding :=
    congrFun (role_same Pc.adding (by rw [hpc]; rfl))
  -- All that are inside still were so before.
  have hother : ∀ s x, (Function.update cta r (.counting p c) s).inside = some x →
      s ≠ r ∧ (cta s).inside = some x := by
    intro s x hs
    by_cases hsr : s = r
    · rw [hsr, Function.update_self] at hs
      exact absurd hs (by simp only [Pc.inside, reduceCtorEq, not_false_eq_true])
    · rw [Function.update_of_ne hsr] at hs
      exact ⟨hsr, hs⟩
  refine { h with
    locked := fun s x hs => ?_
    alone := fun s t x hs ht => h.alone s t x (hother s x hs).2 (hother t x ht).2
    adding := fun s q x hs => h.adding s q x ((hadding s).symm.trans hs)
    order_eq := fun x hx => h.order_eq x fun s q hs => hx s q ((hadding s).trans hs)
    sent := ?_ }
  · -- A lock that is held is not the one that is let go.
    rcases hother s x hs with ⟨hsr, hs'⟩
    have hne : x ≠ c := by
      rintro rfl
      exact hsr (h.alone s r x hs' hin)
    exact (Function.update_of_ne hne _ _).trans (h.locked s x hs')
  · exact forall_cta (P := fun _ (q : Pc V) => ∀ x, q.sent = some x → m.senderDone x = true)
      (by rintro _ ⟨⟩) h.sent

section Summing

variable {l : Landing W} (h : Sums recvBuf hadd2 storeAdd staging tiles l m cta)
include h

/-- A CTA loads the sum. -/
theorem Sums.load :
    Sums recvBuf hadd2 storeAdd staging tiles l m
      (Function.update cta r (.storing p c (m.stagingBuf c))) where
  landed := h.landed
  done := h.done
  loaded := fun s p' c' v hearly hs => by
    refine forall_cta (P := fun _ (q : Pc V) => q = .storing p' c' v → v = m.stagingBuf c')
      (fun hv => ?_) (fun t => h.loaded t p' c' v hearly) s hs
    cases hv
    rfl
  sum_eq := h.sum_eq
  written_eq := h.written_eq

/-- It stores the sum with its part. Nobody has stored one since it loaded it, and the
    chunk is not written yet. -/
theorem Sums.add (hlocks : Locks m cta) {v : V} (hpc : cta r = .storing p c v)
    (hnew : c ∉ m.written) :
    Sums recvBuf hadd2 storeAdd staging tiles l
      { m with
        stagingBuf := Function.update m.stagingBuf c (hadd2 v (recvBuf p c))
        added := m.added ++ [(p, c)] }
      (Function.update cta r (.unlocking p c)) where
  landed := h.landed
  done := h.done
  loaded := fun s p' c' v' hearly hs => by
    by_cases hsr : s = r
    · rw [hsr, Function.update_self] at hs
      exact absurd hs (by simp only [reduceCtorEq, not_false_eq_true])
    · rw [Function.update_of_ne hsr] at hs
      have hne : c' ≠ c := by
        -- Nobody else has loaded the sum of this chunk.
        rintro rfl
        exact hsr (hlocks.alone s r c' (by rw [hs]; rfl) (by rw [hpc]; rfl))
      exact (h.loaded s p' c' v' hearly hs).trans (Function.update_of_ne hne _ _).symm
  sum_eq := fun x hearly => by
    show Function.update m.stagingBuf c (hadd2 v (recvBuf p c)) x =
      sumOf recvBuf hadd2 x _ (order (m.added ++ [(p, c)]) x)
    by_cases hx : x = c
    · -- What it loaded is the sum of the parts added before, to which its own comes.
      rw [hx] at hearly ⊢
      rw [Function.update_self, order_concat_self, sumOf, List.foldl_append,
        h.loaded r p c v hearly hpc, h.sum_eq c hearly]
      rfl
    · rw [Function.update_of_ne hx, order_concat_of_ne _ hx]
      exact h.sum_eq x hearly
  written_eq := fun x hearly hx => by
    -- So the output has what was in staging when the chunk was written.
    have hne : x ≠ c := by
      rintro rfl
      exact hnew hx
    exact (h.written_eq x hearly hx).trans (congrArg some (Function.update_of_ne hne _ _).symm)

/-- A CTA writes a chunk. -/
theorem Sums.write :
    Sums recvBuf hadd2 storeAdd staging tiles l
      { m with
        outputLocal := Function.update m.outputLocal c (some (m.stagingBuf c))
        written := m.written ++ [c] }
      (Function.update cta r (.processing c)) where
  landed := h.landed
  done := h.done
  loaded := fun s p' c' v hearly hs =>
    forall_cta (P := fun _ (q : Pc V) => q = .storing p' c' v → v = m.stagingBuf c')
      (by rintro ⟨⟩) (fun t => h.loaded t p' c' v hearly) s hs
  sum_eq := h.sum_eq
  written_eq := fun x hearly hx => by
    show Function.update m.outputLocal c (some (m.stagingBuf c)) x = some (m.stagingBuf x)
    -- What is written is what is in staging, and that is complete.
    by_cases hxc : x = c
    · rw [hxc, Function.update_self]
    · rw [Function.update_of_ne hxc]
      rcases List.mem_append.mp hx with hx | hx
      · exact h.written_eq x hearly hx
      · exact absurd (List.mem_singleton.mp hx) hxc

/-- A tile of the node lands. Before the flag of its chunk no part is added to it. -/
theorem Sums.land (hlocks : Locks m cta) (hdone : ∀ x ∈ m.written, m.senderDone x = true)
    {i : Nat} {tile : W} (htile : (l.toLand c)[i]? = some tile) :
    Sums recvBuf hadd2 storeAdd staging tiles (l.land c i tile)
      { m with stagingBuf := Function.update m.stagingBuf c (storeAdd (m.stagingBuf c) tile) }
      cta := by
  have hsent : c ∉ l.sentEarly → ¬ m.senderDone c = true := by
    intro hearly hc
    rw [h.done c hearly hc, List.getElem?_nil] at htile
    cases htile
  refine ⟨fun x => ?_, fun x hearly hx => ?_, fun s p' x v hearly hs => ?_, fun x hearly => ?_,
    fun x hearly hx => ?_⟩
  · by_cases hxc : x = c
    · rw [hxc, Landing.land_landed_self, Landing.land_toLand_self, List.append_assoc]
      rcases List.getElem?_eq_some_iff.mp htile with ⟨hi, hget⟩
      have hperm : (tile :: (l.toLand c).eraseIdx i).Perm (l.toLand c) :=
        hget ▸ List.getElem_cons_eraseIdx_perm hi
      exact (hperm.append_left _).trans (h.landed c)
    · rw [Landing.land_landed_of_ne _ hxc, Landing.land_toLand_of_ne _ hxc]
      exact h.landed x
  · have hxc : x ≠ c := by
      rintro rfl
      exact hsent hearly hx
    rw [Landing.land_toLand_of_ne _ hxc]
    exact h.done x hearly hx
  · have hxc : x ≠ c := by
      rintro rfl
      exact hsent hearly (hlocks.sent s x (by rw [hs]; rfl))
    exact (h.loaded s p' x v hearly hs).trans (Function.update_of_ne hxc _ _).symm
  · show Function.update m.stagingBuf c (storeAdd (m.stagingBuf c) tile) x =
      sumOf recvBuf hadd2 x (localSum storeAdd (staging x) ((l.land c i tile).landed x))
        (order m.added x)
    by_cases hxc : x = c
    · rw [hxc] at hearly ⊢
      -- No part of the chunk has been added.
      have hnone : order m.added c = [] := by
        rw [order, List.map_eq_nil_iff, List.filter_eq_nil_iff]
        intro y hy hyc
        rw [decide_eq_true_eq] at hyc
        exact hsent hearly (hyc ▸ hlocks.added_sent y hy)
      rw [Function.update_self, Landing.land_landed_self, hnone, h.sum_eq c hearly, hnone,
        localSum, localSum, List.foldl_append]
      rfl
    · rw [Function.update_of_ne hxc, Landing.land_landed_of_ne _ hxc]
      exact h.sum_eq x hearly
  · have hxc : x ≠ c := by
      rintro rfl
      exact hsent hearly (hdone x hx)
    exact (h.written_eq x hearly hx).trans (congrArg some (Function.update_of_ne hxc _ _).symm)

/-- The flag of a chunk is set, and from now on the chunk is complete or one of the early ones. -/
theorem Sums.send (c : Nat) :
    Sums recvBuf hadd2 storeAdd staging tiles (l.send c)
      { m with senderDone := Function.update m.senderDone c true } cta := by
  -- A chunk that is not early after this was not early before.
  have hkeeps : ∀ x, x ∉ (l.send c).sentEarly → x ∉ l.sentEarly := by
    intro x hx hmem
    refine hx ?_
    rw [Landing.send]
    split
    · exact hmem
    · exact List.mem_append_left _ hmem
  refine ⟨h.landed, fun x hearly hx => ?_, fun s p' x v hearly hs => ?_, fun x hearly => ?_,
    fun x hearly hx => ?_⟩
  · by_cases hxc : x = c
    · rw [hxc] at hearly ⊢
      rw [Landing.send] at hearly
      -- A chunk is late if no GPU's part is missing when it is sent.
      split at hearly
      · rename_i hempty
        exact List.isEmpty_iff.mp hempty
      · exact absurd (List.mem_append_right _ (List.mem_singleton.mpr rfl)) hearly
    · exact h.done x (hkeeps x hearly) ((Function.update_of_ne hxc _ _).symm.trans hx)
  · exact h.loaded s p' x v (hkeeps x hearly) hs
  · exact h.sum_eq x (hkeeps x hearly)
  · exact h.written_eq x (hkeeps x hearly) hx

end Summing

/-- A part that is added has still to be counted. -/
theorem Counts.add (h : Counts setup m cta) {v : V} (hpc : cta r = .storing p c v)
    (hfresh : (p, c) ∉ m.added) (sum : Nat → V) :
    Counts setup { m with stagingBuf := sum, added := m.added ++ [(p, c)] }
      (Function.update cta r (.unlocking p c)) where
  counting := by
    rw [role_update Pc.toCount]
    refine h.counting.claim (by rw [hpc]; rfl) hfresh fun x => ?_
    simp only [List.mem_append, List.mem_singleton]
  count_eq := h.count_eq
  settling := by
    rw [role_same Pc.toMark (by rw [hpc]; rfl), role_same Pc.owes (by rw [hpc]; rfl)]
    exact h.settling

/-- The counts of a chunk tell when all its parts are counted. -/
theorem allCounted_iff {counted : List (Nat × Nat)} (hnodup : counted.Nodup)
    (hpart : ∀ x ∈ counted, x.1 < setup.numPeers) :
    counted.countP (fun x => x.2 = c) = setup.numPeers ↔ AllCounted setup counted c := by
  have hcard : ((Finset.range setup.numPeers).image fun p => (p, c)).card = setup.numPeers := by
    rw [Finset.card_image_of_injective _ fun _ _ h => congrArg Prod.fst h, Finset.card_range]
  have hiff := countP_eq_card_iff (p := fun x : Nat × Nat => x.2 = c)
    (S := (Finset.range setup.numPeers).image fun p => (p, c)) hnodup
    (fun y hy hyc => Finset.mem_image.mpr ⟨y.1, Finset.mem_range.mpr (hpart y hy), by rw [← hyc]⟩)
    (fun y hy => by
      rcases Finset.mem_image.mp hy with ⟨_, -, rfl⟩
      rfl)
  rw [hcard] at hiff
  rw [hiff]
  constructor
  · intro h q hq
    exact h (q, c) (Finset.mem_image_of_mem _ (Finset.mem_range.mpr hq))
  · intro h y hy
    rcases Finset.mem_image.mp hy with ⟨q, hq, rfl⟩
    exact h q (Finset.mem_range.mp hq)

/-- A part is counted. The last one of a chunk sends the CTA to mark it. -/
theorem Counts.count (h : Counts setup m cta) (hpc : cta r = .counting p c)
    (hpart : ∀ x ∈ m.added, x.1 < setup.numPeers) :
    Counts setup
      { m with
        peerAccumDoneCount := Function.update m.peerAccumDoneCount c (m.peerAccumDoneCount c + 1)
        counted := m.counted ++ [(p, c)] }
      (Function.update cta r
        (if m.peerAccumDoneCount c + 1 = setup.numPeers then .marking c else .top)) := by
  have hheld : (cta r).toCount = some (p, c) := by
    rw [hpc]
    rfl
  have hrelease := h.counting.release (h := r) hheld
  have hfresh : (p, c) ∉ m.counted := h.counting.custody.notMem_of_held r (p, c) hheld
  have hcount : ∀ x, (m.counted ++ [(p, c)]).countP (fun y => y.2 = x) =
      m.counted.countP (fun y => y.2 = x) + if c = x then 1 else 0 := by
    intro x
    rw [List.countP_append, List.countP_singleton]
    simp only [decide_eq_true_eq]
  have hin : ∀ x ∈ m.counted ++ [(p, c)], x.1 < setup.numPeers := fun x hx =>
    hpart x (hrelease.custody.taken_of_out x hx)
  -- The count reaches the number of peers just when the chunk becomes complete.
  have hlast : m.peerAccumDoneCount c + 1 = setup.numPeers ↔
      AllCounted setup (m.counted ++ [(p, c)]) c := by
    rw [← allCounted_iff hrelease.custody.nodup hin, hcount c, if_pos rfl, h.count_eq c]
  have hbefore : ¬ AllCounted setup m.counted c := fun hall =>
    hfresh (hall p (hin (p, c) (List.mem_append_right _ (List.mem_singleton.mpr rfl))))
  have hother : ∀ x, x ≠ c → (AllCounted setup (m.counted ++ [(p, c)]) x ↔
      AllCounted setup m.counted x) := by
    intro x hx
    refine forall_congr' fun q => imp_congr_right fun _ => ?_
    rw [List.mem_append, List.mem_singleton, or_iff_left]
    exact fun heq => hx (congrArg Prod.snd heq)
  have howes : (cta r).owes = none := by
    rw [hpc]
    rfl
  refine ⟨?_, fun x => ?_, ?_⟩
  · have hnone : (if m.peerAccumDoneCount c + 1 = setup.numPeers then Pc.marking c
        else (.top : Pc V)).toCount = none := by
      split <;> rfl
    rw [role_update Pc.toCount, hnone]
    exact hrelease
  · show Function.update m.peerAccumDoneCount c (m.peerAccumDoneCount c + 1) x = _
    rw [hcount x]
    by_cases hx : x = c
    · rw [hx, Function.update_self, if_pos rfl, h.count_eq c]
    · rw [Function.update_of_ne hx, if_neg (Ne.symm hx), h.count_eq x]
      rfl
  · by_cases hfull : m.peerAccumDoneCount c + 1 = setup.numPeers
    · rw [if_pos hfull, role_update Pc.toMark, role_update Pc.owes]
      refine h.settling.complete howes hbefore fun x => ?_
      by_cases hx : x = c
      · rw [hx]
        exact iff_of_true (hlast.mp hfull) (Or.inr rfl)
      · rw [or_iff_left hx]
        exact hother x hx
    · rw [if_neg hfull, role_same Pc.toMark (by rw [hpc]; rfl),
        role_same Pc.owes (by rw [hpc]; rfl)]
      refine h.settling.congr fun x => ?_
      by_cases hx : x = c
      · rw [hx]
        exact iff_of_false (fun hall => hfull (hlast.mpr hall)) hbefore
      · exact hother x hx

/-- The chunk is marked. -/
theorem Counts.mark (h : Counts setup m cta) (hpc : cta r = .marking c) (marks : Nat → Nat) :
    Counts setup { m with chunkReduceDone := marks, marked := m.marked ++ [c] }
      (Function.update cta r (.reserving c)) where
  counting := by
    rw [role_same Pc.toCount (by rw [hpc]; rfl)]
    exact h.counting
  count_eq := h.count_eq
  settling := by
    rw [role_update Pc.toMark, role_same Pc.owes (by rw [hpc]; rfl)]
    exact h.settling.count (by rw [hpc]; rfl)

/-- It gets a place among the chunks that are ready. -/
theorem Counts.reserve (h : Counts setup m cta) (hpc : cta r = .reserving c) (tail slot : Nat) :
    Counts setup { m with readyReduceTail := tail, readied := m.readied ++ [c] }
      (Function.update cta r (.entering c slot)) where
  counting := by
    rw [role_same Pc.toCount (by rw [hpc]; rfl)]
    exact h.counting
  count_eq := h.count_eq
  settling := by
    rw [role_same Pc.toMark (by rw [hpc]; rfl), role_update Pc.owes]
    exact h.settling.announce (by rw [hpc]; rfl) (by rw [hpc]; rfl)

/-- A CTA draws the first chunk. -/
theorem Reads.pop (h : Reads setup m cta) (hpc : cta r = .readyTail m.readyReduceHead) :
    Reads setup { m with readyReduceHead := m.readyReduceHead + 1 }
      (Function.update cta r (.readyPopped m.readyReduceHead)) := by
  -- The test for the tail was passed, so there is a chunk at this place.
  have hlt : m.readyReduceHead < m.readied.length := h.places r _ (by rw [hpc]; rfl)
  have hitem : m.readied[m.readyReduceHead]? = some m.readied[m.readyReduceHead] :=
    List.getElem?_eq_getElem hlt
  refine { h with
    head_le := hlt, places := ?_, storing := ?_, queued := ?_, processing := ?_, returned := ?_ }
  · refine forall_cta (P := fun _ (q : Pc V) => ∀ i, q.readyPlace = some i →
      i < m.readied.length) (fun i hi => ?_) h.places
    cases hi
    exact hlt
  · exact forall_cta (P := fun _ (q : Pc V) => ∀ c i, q.toEnter = some (c, i) →
      m.readied[i]? = some c) (by rintro _ _ ⟨⟩) h.storing
  · -- What it has drawn is this chunk.
    have hdrawn : Pc.chunk (V := V) m.readied (.readyPopped m.readyReduceHead) =
        some m.readied[m.readyReduceHead] := hitem
    rw [role_update (Pc.chunk m.readied), hdrawn]
    exact h.queued.pop (by rw [hpc]; rfl) hitem
  · rw [role_same Pc.toProcess (by rw [hpc]; rfl)]
    exact h.processing
  · exact forall_cta (P := fun _ (q : Pc V) => q = .returned → setup.doneTarget ≤ m.chunksProcessed)
      (by rintro ⟨⟩) h.returned

/-- A chunk that is not ready yet gets its place. -/
theorem Reads.reserve (h : Reads setup m cta) (hpc : cta r = .reserving c)
    (hfresh : c ∉ m.readied) :
    Reads setup
      { m with readyReduceTail := m.readyReduceTail + 1, readied := m.readied ++ [c] }
      (Function.update cta r (.entering c m.readyReduceTail)) := by
  have hlength : (m.readied ++ [c]).length = m.readied.length + 1 := by
    rw [List.length_append, List.length_singleton]
  -- The chunks that were drawn before are where they were.
  have hchunk : ∀ s, (cta s).chunk (m.readied ++ [c]) = (cta s).chunk m.readied := by
    intro s
    cases hs : cta s with
    | readyPopped head => exact getElem?_concat_of_lt (h.places s head (by rw [hs]; rfl))
    | _ => rfl
  refine { h with
    tail_eq := ?_, head_le := ?_, places := ?_, entries := fun i => (h.entries i).concat
    storing := ?_, queued := ?_, processing := ?_, returned := ?_ }
  · show m.readyReduceTail + 1 = _
    rw [hlength, h.tail_eq]
  · show m.readyReduceHead ≤ _
    rw [hlength]
    exact Nat.le_succ_of_le h.head_le
  · refine forall_cta (P := fun _ (q : Pc V) => ∀ i, q.readyPlace = some i →
      i < (m.readied ++ [c]).length) (by rintro _ ⟨⟩) fun s i hi => ?_
    rw [hlength]
    exact Nat.lt_succ_of_lt (h.places s i hi)
  · refine forall_cta (P := fun _ (q : Pc V) => ∀ x i, q.toEnter = some (x, i) →
      (m.readied ++ [c])[i]? = some x) (fun x i hi => ?_)
      fun s x i hi => getElem?_concat (h.storing s x i hi)
    cases hi
    rw [h.tail_eq]
    exact getElem?_concat_length
  · rw [role_same (Pc.chunk (m.readied ++ [c])) (by rw [hpc]; rfl), funext hchunk]
    exact h.queued.push h.head_le hfresh
  · rw [role_same Pc.toProcess (by rw [hpc]; rfl)]
    exact h.processing
  · exact forall_cta (P := fun _ (q : Pc V) => q = .returned → setup.doneTarget ≤ m.chunksProcessed)
      (by rintro ⟨⟩) h.returned

/-- Its entry is stored. -/
theorem Reads.enter (h : Reads setup m cta) {slot : Nat} (hpc : cta r = .entering c slot) :
    Reads setup
      { m with readyReduceQueue :=
        if slot < setup.totalChunks then Function.update m.readyReduceQueue slot (c + 1)
        else m.readyReduceQueue }
      (Function.update cta r .top) := by
  have hquiet : Reads setup m (Function.update cta r .top) :=
    h.quiet hpc
  refine { hquiet with entries := fun i => ?_ }
  show EntryOf _ _ i ((if slot < setup.totalChunks then
    Function.update m.readyReduceQueue slot (c + 1) else m.readyReduceQueue) i)
  split
  · by_cases hi : i = slot
    · rw [hi, Function.update_self]
      exact Or.inr ⟨c, h.storing r c slot (by rw [hpc]; rfl), rfl⟩
    · rw [Function.update_of_ne hi]
      exact h.entries i
  · exact h.entries i

/-- A CTA writes its chunk. -/
theorem Reads.write (h : Reads setup m cta) (hpc : cta r = .writing c) :
    Reads setup
      { m with
        outputLocal := Function.update m.outputLocal c (some (m.stagingBuf c))
        written := m.written ++ [c] }
      (Function.update cta r (.processing c)) := by
  have hheld : (cta r).chunk m.readied = some c := by
    rw [hpc]
    rfl
  -- It was not written before, since the CTA still has it.
  have hfresh : c ∉ m.written := h.queued.custody.notMem_of_held (.inr r) c hheld
  refine { h with
    places := ?_, storing := ?_, queued := ?_, processing := ?_, unwritten := fun x hx => ?_
    returned := ?_ }
  · exact forall_cta (P := fun _ (q : Pc V) => ∀ i, q.readyPlace = some i → i < m.readied.length)
      (by rintro _ ⟨⟩) h.places
  · exact forall_cta (P := fun _ (q : Pc V) => ∀ c i, q.toEnter = some (c, i) →
      m.readied[i]? = some c) (by rintro _ _ ⟨⟩) h.storing
  · rw [role_update (Pc.chunk m.readied)]
    -- It leaves the queue for the output, and is to be counted.
    exact h.queued.release hheld
  · rw [role_update Pc.toProcess]
    refine h.processing.claim (by rw [hpc]; rfl) hfresh fun x => ?_
    simp only [List.mem_append, List.mem_singleton]
  · rw [List.mem_append, List.mem_singleton, not_or] at hx
    exact (Function.update_of_ne hx.2 _ _).trans (h.unwritten x hx.1)
  · exact forall_cta (P := fun _ (q : Pc V) => q = .returned → setup.doneTarget ≤ m.chunksProcessed)
      (by rintro ⟨⟩) h.returned

/-- It counts the chunk. -/
theorem Reads.process (h : Reads setup m cta) (hpc : cta r = .processing c) :
    Reads setup
      { m with chunksProcessed := m.chunksProcessed + 1, processed := m.processed ++ [c] }
      (Function.update cta r .top) := by
  refine { h with
    places := ?_, storing := ?_, queued := ?_, processing := ?_, processed_eq := ?_
    returned := ?_ }
  · exact forall_cta (P := fun _ (q : Pc V) => ∀ i, q.readyPlace = some i → i < m.readied.length)
      (by rintro _ ⟨⟩) h.places
  · exact forall_cta (P := fun _ (q : Pc V) => ∀ c i, q.toEnter = some (c, i) →
      m.readied[i]? = some c) (by rintro _ _ ⟨⟩) h.storing
  · rw [role_same (Pc.chunk m.readied) (by rw [hpc]; rfl)]
    exact h.queued
  · rw [role_update Pc.toProcess]
    -- It is counted, and the CTA has nothing then.
    exact h.processing.release (by rw [hpc]; rfl)
  · show m.chunksProcessed + 1 = _
    rw [List.length_append, List.length_singleton, h.processed_eq]
  · exact forall_cta (P := fun _ (q : Pc V) => q = .returned →
      setup.doneTarget ≤ m.chunksProcessed + 1) (by rintro ⟨⟩)
      fun s hs => Nat.le_succ_of_le (h.returned s hs)

end Stages

end PeerAccum

end GemmRs

end MKernel
