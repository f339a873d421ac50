import MKernel.Core.Copying
import MKernel.Core.SmallNumbers
import MKernel.Core.System
import MKernel.DispatchGemm.Chunks

/-!
# Dispatch while Chunks Arrive

A launch of `dispatch_gemm` on all nodes and GPUs, byte by byte, up to the loads.

The pushers of a GPU push its chunks to all peers, each going through its own. A `WRITE`
copies its bytes in any order, and when all are there it flags its tile at the receiver. A
copy CTA that sees the flag of a chunk marks the chunk as ready, and the dispatcher waits
for the marks of the chunks of a token. The marks are those of the GPU that has the tokens,
which need not be the dispatcher's own.

Every byte of `peer_tokens` is meant to be what the sender of its slot has at the same
place. A chunk that is flagged or marked is as meant, and so a token is when all its chunks
have been waited for (`token_in_place`). Flags and marks of an earlier launch do no harm
if the same tokens are there already.

## Main definitions

* `Cell`: A byte of a GPU's own tokens, or of `peer_tokens`.
* `Send`: A command, by what it is for.
* `World`, `Action`, `step`: The memory, what is on the way, and how far everybody is.
* `meant`: What each byte is meant to be.
* `Inv`: What is flagged, marked or waited for is as meant.

## Theorems

* `same_send`: What a command copies is meant to be the same at both ends.
* `inv_step`: What every step keeps.
* `token_in_place`: What the dispatcher loads is the token, and senders are kept apart.
-/

namespace MKernel

namespace DispatchGemm

open MKernel.Core

/-- A byte of the tokens of a GPU, or of its `peer_tokens`. -/
inductive Cell where
  | own (node dev off : Nat)
  | recv (node dev addr : Nat)
deriving DecidableEq

/-- A command on its way, by the GPU, the chunk and the peer slot it is pushed for. -/
structure Send where
  node : Nat
  dev : Nat
  chunk : Nat
  peerSlot : Nat
deriving DecidableEq

namespace Setup

variable (setup : Setup)

/-- The command that is pushed. -/
def cmd (j : Send) : Internode.TransferCmd := setup.sendCmd j.node j.dev j.chunk j.peerSlot

/-- The node it is delivered to. -/
def receiver (j : Send) : Nat := setup.peerRank j.node j.peerSlot

def size (j : Send) : Nat := (setup.cmd j).bytes.toNat

def src (j : Send) (x : Nat) : Cell := .own j.node j.dev ((setup.cmd j).localOffset.toNat + x)

/-- `peer_tokens` is the buffer that is written to. -/
def dst (j : Send) (x : Nat) : Cell :=
  .recv (setup.receiver j) j.dev ((setup.cmd j).remoteOffset.toNat + x)

/-- The bytes that are loaded for a token on a node. -/
def loaded (node : Nat) (s : Source setup) (k : Nat) : Cell :=
  if s.srcNode = node then .own node s.srcDev (s.srcToken * setup.tokenBytes + k)
  else .recv node s.srcDev (setup.peerTokenIdx node s * setup.tokenBytes + k)

end Setup

variable {α : Type*}

/-- The memory, the commands on their way, the arrival flags and `copy_ready` of each GPU, and
    what is left to do: for the pushers and the copy CTAs of each GPU, and for the dispatch of
    each of its tokens. -/
structure World (α : Type*) where
  mem : Cell → α
  flight : List (Transit Send)
  arrivalFlags : Nat → Nat → Nat → BitVec 32
  copyReady : Nat → Nat → Nat → Bool
  toPush : Nat → Nat → Nat → List (Nat × Nat)
  toCopy : Nat → Nat → Nat → List (Nat × Nat)
  toAwait : Nat → Nat → Nat → List Nat

/-- What can happen next. -/
inductive Action where
  /-- A pusher pushes its next command. -/
  | push (node dev pusher : Nat)
  /-- A byte of a command is copied. -/
  | copy (i x : Nat)
  /-- All of a command is copied, and it is flagged. -/
  | arrive (i : Nat)
  /-- A copy CTA sees the flag it waits for, and marks the chunk. -/
  | ready (node dev copyId : Nat)
  /-- The dispatch of a token sees the mark it waits for. -/
  | see (node dev tokenIdx : Nat)
deriving DecidableEq

/-- One entry of a table by node, GPU and index. -/
def set3 {β : Type*} (f : Nat → Nat → Nat → β) (n d i : Nat) (v : β) : Nat → Nat → Nat → β :=
  fun n' d' i' => if n' = n ∧ d' = d ∧ i' = i then v else f n' d' i'

/-- The launch, over whatever is in memory and in the flags. `pull` says where each token of
    a GPU is pulled from. -/
def init (setup : Setup) (pull : Nat → Nat → Nat → Option (Source setup)) (mem : Cell → α)
    (arrivalFlags : Nat → Nat → Nat → BitVec 32)
    (copyReady : Nat → Nat → Nat → Bool) : World α where
  mem := mem
  flight := []
  arrivalFlags := arrivalFlags
  copyReady := copyReady
  toPush := fun _ _ pusher => setup.pushes pusher
  toCopy := fun _ _ copyId => setup.copies copyId
  toAwait := fun node dev tokenIdx =>
    match pull node dev tokenIdx with
    | some s => setup.awaitedIdxs node s
    | none => []

/-- One step of a launch. -/
def step (setup : Setup) (pull : Nat → Nat → Nat → Option (Source setup)) (w : World α) :
    Action → Option (World α)
  | .push node dev pusher =>
    match w.toPush node dev pusher with
    | [] => none
    | (chunk, peerSlot) :: rest =>
      if node < setup.numNodes ∧ dev < setup.numDevices ∧ pusher < setup.totalPushers then
        some { w with
          flight := w.flight ++ [Transit.start ⟨node, dev, chunk, peerSlot⟩]
          toPush := set3 w.toPush node dev pusher rest }
      else
        none
  | .copy i x =>
    match w.flight[i]? with
    | none => none
    | some t =>
      if x < setup.size t.job then
        some { w with
          mem := Core.copy w.mem (setup.src t.job x) (setup.dst t.job x)
          flight := w.flight.set i (t.move x) }
      else
        none
  | .arrive i =>
    match w.flight[i]? with
    | none => none
    | some t =>
      if ∀ x < setup.size t.job, t.moved x = true then
        some { w with
          flight := w.flight.eraseIdx i
          arrivalFlags := set3 w.arrivalFlags (setup.receiver t.job) t.job.dev
            (setup.cmd t.job).tileId.toNat setup.epoch }
      else
        none
  | .ready node dev copyId =>
    match w.toCopy node dev copyId with
    | [] => none
    | (chunk, slot) :: rest =>
      if node < setup.numNodes ∧ dev < setup.numDevices ∧ copyId < setup.numCopySms ∧
          w.arrivalFlags node dev (setup.readyIdx slot chunk) = setup.epoch then
        some { w with
          copyReady := set3 w.copyReady node dev (setup.readyIdx slot chunk) true
          toCopy := set3 w.toCopy node dev copyId rest }
      else
        none
  | .see node dev tokenIdx =>
    match pull node dev tokenIdx, w.toAwait node dev tokenIdx with
    | some s, readyIdx :: rest =>
      if w.copyReady node s.srcDev readyIdx = true then
        some { w with toAwait := set3 w.toAwait node dev tokenIdx rest }
      else
        none
    | _, _ => none

/-- What each action requires and does. -/
inductive Steps (setup : Setup) (pull : Nat → Nat → Nat → Option (Source setup)) (w : World α) :
    Action → World α → Prop where
  | push (node dev pusher chunk peerSlot : Nat) (rest : List (Nat × Nat))
      (hnode : node < setup.numNodes)
      (hnext : w.toPush node dev pusher = (chunk, peerSlot) :: rest) :
      Steps setup pull w (.push node dev pusher) { w with
        flight := w.flight ++ [Transit.start ⟨node, dev, chunk, peerSlot⟩]
        toPush := set3 w.toPush node dev pusher rest }
  | copy (i x : Nat) (t : Transit Send) (ht : w.flight[i]? = some t) (hx : x < setup.size t.job) :
      Steps setup pull w (.copy i x) { w with
        mem := Core.copy w.mem (setup.src t.job x) (setup.dst t.job x)
        flight := w.flight.set i (t.move x) }
  | arrive (i : Nat) (t : Transit Send) (ht : w.flight[i]? = some t)
      (hall : ∀ x < setup.size t.job, t.moved x = true) :
      Steps setup pull w (.arrive i) { w with
        flight := w.flight.eraseIdx i
        arrivalFlags := set3 w.arrivalFlags (setup.receiver t.job) t.job.dev
          (setup.cmd t.job).tileId.toNat setup.epoch }
  | ready (node dev copyId chunk slot : Nat) (rest : List (Nat × Nat))
      (hnext : w.toCopy node dev copyId = (chunk, slot) :: rest)
      (hflag : w.arrivalFlags node dev (setup.readyIdx slot chunk) = setup.epoch) :
      Steps setup pull w (.ready node dev copyId) { w with
        copyReady := set3 w.copyReady node dev (setup.readyIdx slot chunk) true
        toCopy := set3 w.toCopy node dev copyId rest }
  | see (node dev tokenIdx readyIdx : Nat) (rest : List Nat) (s : Source setup)
      (hpull : pull node dev tokenIdx = some s)
      (hnext : w.toAwait node dev tokenIdx = readyIdx :: rest)
      (hready : w.copyReady node s.srcDev readyIdx = true) :
      Steps setup pull w (.see node dev tokenIdx)
        { w with toAwait := set3 w.toAwait node dev tokenIdx rest }

theorem steps_of_step {setup : Setup} {pull : Nat → Nat → Nat → Option (Source setup)}
    {w u : World α} {a : Action} (h : step setup pull w a = some u) : Steps setup pull w a u := by
  cases a with
  | push node dev pusher =>
      cases hnext : w.toPush node dev pusher with
      | nil => simp only [step, hnext, reduceCtorEq] at h
      | cons next rest =>
          rcases next with ⟨chunk, peerSlot⟩
          simp only [step, hnext] at h
          -- A pusher that is not there pushes nothing.
          by_cases hg : node < setup.numNodes ∧ dev < setup.numDevices ∧ pusher < setup.totalPushers
          · rw [if_pos hg, Option.some.injEq] at h
            rw [← h]
            exact .push node dev pusher chunk peerSlot rest hg.1 hnext
          · rw [if_neg hg] at h
            exact absurd h (by simp only [reduceCtorEq, not_false_eq_true])
  | copy i x =>
      cases ht : w.flight[i]? with
      | none => simp only [step, ht, reduceCtorEq] at h
      | some t =>
          simp only [step, ht] at h
          by_cases hx : x < setup.size t.job
          · rw [if_pos hx, Option.some.injEq] at h
            rw [← h]
            exact .copy i x t ht hx
          · rw [if_neg hx] at h
            exact absurd h (by simp only [reduceCtorEq, not_false_eq_true])
  | arrive i =>
      cases ht : w.flight[i]? with
      | none => simp only [step, ht, reduceCtorEq] at h
      | some t =>
          simp only [step, ht] at h
          -- The flag is written only behind all of the data.
          by_cases hall : ∀ x < setup.size t.job, t.moved x = true
          · rw [if_pos hall, Option.some.injEq] at h
            rw [← h]
            exact .arrive i t ht hall
          · rw [if_neg hall] at h
            exact absurd h (by simp only [reduceCtorEq, not_false_eq_true])
  | ready node dev copyId =>
      cases hnext : w.toCopy node dev copyId with
      | nil => simp only [step, hnext, reduceCtorEq] at h
      | cons next rest =>
          rcases next with ⟨chunk, slot⟩
          simp only [step, hnext] at h
          by_cases hg : node < setup.numNodes ∧ dev < setup.numDevices ∧ copyId < setup.numCopySms ∧
              w.arrivalFlags node dev (setup.readyIdx slot chunk) = setup.epoch
          · rw [if_pos hg, Option.some.injEq] at h
            rw [← h]
            exact .ready node dev copyId chunk slot rest hnext hg.2.2.2
          · rw [if_neg hg] at h
            exact absurd h (by simp only [reduceCtorEq, not_false_eq_true])
  | see node dev tokenIdx =>
      cases hpull : pull node dev tokenIdx with
      | none => simp only [step, hpull, reduceCtorEq] at h
      | some s =>
          cases hnext : w.toAwait node dev tokenIdx with
          | nil => simp only [step, hpull, hnext, reduceCtorEq] at h
          | cons readyIdx rest =>
              simp only [step, hpull, hnext] at h
              -- A token waits until its tile is marked as copied.
              by_cases hready : w.copyReady node s.srcDev readyIdx = true
              · rw [if_pos hready, Option.some.injEq] at h
                rw [← h]
                exact .see node dev tokenIdx readyIdx rest s hpull hnext hready
              · rw [if_neg hready] at h
                exact absurd h (by simp only [reduceCtorEq, not_false_eq_true])

/-! ## What is meant to be where -/

/-- What each byte is meant to be: what it is, or was, at its sender. -/
def meant (setup : Setup) (mem : Cell → α) : Cell → α
  | .own node dev off => mem (.own node dev off)
  | .recv node dev addr =>
    mem (.own (setup.peerRank node (addr / setup.preTokensBytes)) dev
      (addr % setup.preTokensBytes))

/-- A chunk in a slot is as meant. -/
def ChunkSettled (setup : Setup) (ideal mem : Cell → α) (node dev slot chunk : Nat) : Prop :=
  ∀ x < setup.chunkLen chunk,
    Settled ideal mem (.recv node dev (slot * setup.preTokensBytes + (chunk * chunkBytes + x)))

/-- A command is one of the launch. -/
def Valid (setup : Setup) (j : Send) : Prop :=
  j.node < setup.numNodes ∧ j.chunk < setup.totalChunks ∧ j.peerSlot < setup.numPeers

/-- What is flagged, marked or waited for is as meant. -/
structure Inv (setup : Setup) (pull : Nat → Nat → Nat → Option (Source setup)) (mem : Cell → α)
    (w : World α) : Prop where
  own : ∀ n d off, Settled (meant setup mem) w.mem (.own n d off)
  valid : ∀ t ∈ w.flight, Valid setup t.job
  sound : ∀ t ∈ w.flight, Sound setup.size setup.src setup.dst (meant setup mem) w.mem t
  flagged : ∀ n d slot, ∀ chunk < setup.totalChunks,
    w.arrivalFlags n d (setup.readyIdx slot chunk) = setup.epoch →
      ChunkSettled setup (meant setup mem) w.mem n d slot chunk
  marked : ∀ n d slot, ∀ chunk < setup.totalChunks,
    w.copyReady n d (setup.readyIdx slot chunk) = true →
      ChunkSettled setup (meant setup mem) w.mem n d slot chunk
  toPush : ∀ n d pusher, ∀ next ∈ w.toPush n d pusher,
    next.1 < setup.totalChunks ∧ next.2 < setup.numPeers
  toCopy : ∀ n d copyId, ∀ next ∈ w.toCopy n d copyId, next.1 < setup.totalChunks
  awaited : ∀ n d i s, pull n d i = some s → ∀ f ∈ setup.awaitedIdxs n s,
    f ∈ w.toAwait n d i ∨ w.copyReady n s.srcDev f = true

section Places

variable {setup : Setup}

/-- The slot of a node is meant for its tokens. -/
theorem meant_recv (mem : Cell → α) {n o : Nat} (hn : n < setup.numNodes) (ho : o < setup.numNodes)
    (dev : Nat) {off : Nat} (hoff : off < setup.preTokensBytes) :
    meant setup mem (.recv n dev (setup.senderSlot o n * setup.preTokensBytes + off)) =
      mem (.own o dev off) := by
  rw [meant, place_div hoff, peerRank_senderSlot ho hn, Nat.mul_add_mod_self_right,
    Nat.mod_eq_of_lt hoff]

theorem size_eq {j : Send} (hj : Valid setup j) : setup.size j = setup.chunkLen j.chunk :=
  bytes_sendCmd hj.2.1

theorem src_eq {j : Send} (hj : Valid setup j) (x : Nat) :
    setup.src j x = .own j.node j.dev (j.chunk * chunkBytes + x) := by
  rw [Setup.src, Setup.cmd, localOffset_sendCmd hj.2.1]

theorem dst_eq {j : Send} (hj : Valid setup j) (x : Nat) :
    setup.dst j x = .recv (setup.receiver j) j.dev
      (setup.senderSlot j.node (setup.receiver j) * setup.preTokensBytes +
        (j.chunk * chunkBytes + x)) := by
  rw [Setup.dst, Setup.cmd, remoteOffset_sendCmd hj.1 hj.2.2 hj.2.1, Nat.add_assoc]
  rfl

theorem tile_eq {j : Send} (hj : Valid setup j) :
    (setup.cmd j).tileId.toNat =
      setup.readyIdx (setup.senderSlot j.node (setup.receiver j)) j.chunk :=
  tileId_sendCmd hj.1 hj.2.2 hj.2.1

/-- What a command copies is meant to be the same at both ends. -/
theorem same_send (mem : Cell → α) {j : Send} (hj : Valid setup j) :
    ∀ x < setup.size j, meant setup mem (setup.src j x) = meant setup mem (setup.dst j x) := by
  intro x hx
  have hr : setup.receiver j < setup.numNodes := (peerRank_lt hj.1 hj.2.2).2.1
  rw [size_eq hj] at hx
  rw [src_eq hj, dst_eq hj, meant_recv mem hr hj.1 j.dev (chunk_end_le hj.2.1 hx), meant]

/-- A chunk that has one flag with another is in the same slot. -/
theorem readyIdx_inj {slot slot' chunk chunk' : Nat} (hc : chunk < setup.totalChunks)
    (hc' : chunk' < setup.totalChunks)
    (h : setup.readyIdx slot chunk = setup.readyIdx slot' chunk') :
    slot = slot' ∧ chunk = chunk' :=
  place_inj hc hc' h

theorem mem_pushes {pusher : Nat} {next : Nat × Nat} (h : next ∈ setup.pushes pusher) :
    next.1 < setup.totalChunks ∧ next.2 < setup.numPeers := by
  rcases List.mem_flatMap.mp h with ⟨chunk, hchunk, hnext⟩
  rcases List.mem_map.mp hnext with ⟨slot, hslot, rfl⟩
  exact ⟨lt_of_mem_walk setup.totalPushers_pos hchunk, List.mem_range.mp hslot⟩

theorem mem_copies {copyId : Nat} {next : Nat × Nat} (h : next ∈ setup.copies copyId) :
    next.1 < setup.totalChunks := by
  rcases List.mem_flatMap.mp h with ⟨chunk, hchunk, hslot⟩
  rcases List.mem_map.mp hslot with ⟨slot, -, rfl⟩
  exact lt_of_mem_walk setup.numCopySms_pos hchunk

end Places

theorem set3_apply {β : Type*} (f : Nat → Nat → Nat → β) (n d i : Nat) (v : β) (n' d' i' : Nat) :
    set3 f n d i v n' d' i' = if n' = n ∧ d' = d ∧ i' = i then v else f n' d' i' :=
  rfl

/-! ## What every step keeps -/

section Steps

variable {setup : Setup} {pull : Nat → Nat → Nat → Option (Source setup)} {mem : Cell → α}
  {w : World α}

/-- What is left of a list of things to do was to do before. -/
theorem mem_set3 {β : Type*} {f : Nat → Nat → Nat → List β} {n d i : Nat} {v : β} {rest : List β}
    (h : f n d i = v :: rest) {n' d' i' : Nat} {y : β}
    (hy : y ∈ set3 f n d i rest n' d' i') : y ∈ f n' d' i' := by
  rw [set3_apply] at hy
  split at hy
  · rename_i heq
    rw [heq.1, heq.2.1, heq.2.2, h]
    exact List.mem_cons_of_mem v hy
  · exact hy

theorem inv_push (hinv : Inv setup pull mem w) {node dev pusher chunk peerSlot : Nat}
    {rest : List (Nat × Nat)} (hnode : node < setup.numNodes)
    (hnext : w.toPush node dev pusher = (chunk, peerSlot) :: rest) :
    Inv setup pull mem { w with
      flight := w.flight ++ [Transit.start ⟨node, dev, chunk, peerSlot⟩]
      toPush := set3 w.toPush node dev pusher rest } := by
  have hin :=
    hinv.toPush node dev pusher (chunk, peerSlot) (by rw [hnext]; exact List.mem_cons_self)
  have hvalid : Valid setup ⟨node, dev, chunk, peerSlot⟩ := ⟨hnode, hin.1, hin.2⟩
  -- The request begins with nothing copied, and its source never changes.
  have hsound : Sound setup.size setup.src setup.dst (meant setup mem) w.mem
      (Transit.start ⟨node, dev, chunk, peerSlot⟩) :=
    sound_begin (same_send mem hvalid) fun x _ => hinv.own node dev _
  exact {
    own := hinv.own
    valid := by
      intro t ht
      rcases List.mem_append.mp ht with hold | hnew
      · exact hinv.valid t hold
      · rw [List.mem_singleton.mp hnew]
        exact hvalid
    sound := by
      intro t ht
      rcases List.mem_append.mp ht with hold | hnew
      · exact hinv.sound t hold
      · rw [List.mem_singleton.mp hnew]
        exact hsound
    flagged := hinv.flagged
    marked := hinv.marked
    -- What is left to push was there before.
    toPush := fun n d p next h => hinv.toPush n d p next (mem_set3 hnext h)
    toCopy := hinv.toCopy
    awaited := hinv.awaited }

theorem inv_copy (hinv : Inv setup pull mem w) {i x : Nat} {t : Transit Send}
    (ht : w.flight[i]? = some t) (hx : x < setup.size t.job) :
    Inv setup pull mem { w with
      mem := Core.copy w.mem (setup.src t.job x) (setup.dst t.job x)
      flight := w.flight.set i (t.move x) } := by
  have hmem := List.mem_of_getElem? ht
  have hsound := hinv.sound t hmem
  -- The copy unsettles nothing.
  have hkeep : ∀ {c}, Settled (meant setup mem) w.mem c → Settled (meant setup mem)
      (Core.copy w.mem (setup.src t.job x) (setup.dst t.job x)) c :=
    fun hc => settled_copy (hsound.settled x hx) (hsound.same x hx) hc
  exact {
    own := fun n d off => hkeep (hinv.own n d off)
    valid := by
      intro u hu
      rcases List.mem_or_eq_of_mem_set hu with hold | rfl
      · exact hinv.valid u hold
      · exact hinv.valid t hmem
    sound := by
      intro u hu
      rcases List.mem_or_eq_of_mem_set hu with hold | rfl
      · exact sound_copy hsound (hinv.sound u hold) hx
      · exact sound_move hsound hx
    flagged := fun n d slot chunk hc hf y hy => hkeep (hinv.flagged n d slot chunk hc hf y hy)
    marked := fun n d slot chunk hc hf y hy => hkeep (hinv.marked n d slot chunk hc hf y hy)
    toPush := hinv.toPush
    toCopy := hinv.toCopy
    awaited := hinv.awaited }

theorem inv_arrive (hinv : Inv setup pull mem w) {i : Nat} {t : Transit Send}
    (ht : w.flight[i]? = some t) (hall : ∀ x < setup.size t.job, t.moved x = true) :
    Inv setup pull mem { w with
      flight := w.flight.eraseIdx i
      arrivalFlags := set3 w.arrivalFlags (setup.receiver t.job) t.job.dev
        (setup.cmd t.job).tileId.toNat setup.epoch } := by
  have hmem := List.mem_of_getElem? ht
  have hvalid := hinv.valid t hmem
  exact {
    own := hinv.own
    valid := fun u hu => hinv.valid u (List.mem_of_mem_eraseIdx hu)
    sound := fun u hu => hinv.sound u (List.mem_of_mem_eraseIdx hu)
    flagged := by
      intro n d slot chunk hc hf
      simp only [set3_apply] at hf
      split at hf
      · -- The flag is that of the command, which has copied its chunk.
        rename_i heq
        rcases heq with ⟨rfl, rfl, hidx⟩
        rw [tile_eq hvalid] at hidx
        rcases readyIdx_inj hc hvalid.2.1 hidx with ⟨rfl, rfl⟩
        intro x hx
        have hmoved := (hinv.sound t hmem).moved x (by rw [size_eq hvalid]; exact hx)
        rw [size_eq hvalid] at hall
        rw [← dst_eq hvalid]
        exact hmoved (hall x hx)
      · exact hinv.flagged n d slot chunk hc hf
    marked := hinv.marked
    toPush := hinv.toPush
    toCopy := hinv.toCopy
    awaited := hinv.awaited }

theorem inv_ready (hinv : Inv setup pull mem w) {node dev copyId chunk slot : Nat}
    {rest : List (Nat × Nat)} (hnext : w.toCopy node dev copyId = (chunk, slot) :: rest)
    (hflag : w.arrivalFlags node dev (setup.readyIdx slot chunk) = setup.epoch) :
    Inv setup pull mem { w with
      copyReady := set3 w.copyReady node dev (setup.readyIdx slot chunk) true
      toCopy := set3 w.toCopy node dev copyId rest } := by
  have hin := hinv.toCopy node dev copyId (chunk, slot) (by rw [hnext]; exact List.mem_cons_self)
  exact {
    own := hinv.own
    valid := hinv.valid
    sound := hinv.sound
    flagged := hinv.flagged
    marked := by
      intro n d slot' chunk' hc hf
      simp only [set3_apply] at hf
      split at hf
      · rename_i heq
        rcases heq with ⟨rfl, rfl, hidx⟩
        -- The two chunks of one index are the same, and the flag of this one has come.
        rcases readyIdx_inj hc hin hidx with ⟨rfl, rfl⟩
        exact hinv.flagged _ _ _ _ hc hflag
      · exact hinv.marked n d slot' chunk' hc hf
    toPush := hinv.toPush
    toCopy := fun n d c next h => hinv.toCopy n d c next (mem_set3 hnext h)
    awaited := by
      intro n d i s hs f hf
      rcases hinv.awaited n d i s hs f hf with hleft | hready
      · exact Or.inl hleft
      · -- A mark is never taken back.
        refine Or.inr ?_
        simp only [set3_apply]
        split
        · rfl
        · exact hready }

theorem inv_see (hinv : Inv setup pull mem w) {node dev tokenIdx readyIdx : Nat}
    {rest : List Nat} {s : Source setup} (hpull : pull node dev tokenIdx = some s)
    (hnext : w.toAwait node dev tokenIdx = readyIdx :: rest)
    (hready : w.copyReady node s.srcDev readyIdx = true) :
    Inv setup pull mem { w with toAwait := set3 w.toAwait node dev tokenIdx rest } := by
  exact {
    own := hinv.own
    valid := hinv.valid
    sound := hinv.sound
    flagged := hinv.flagged
    marked := hinv.marked
    toPush := hinv.toPush
    toCopy := hinv.toCopy
    awaited := by
      intro n d i s' hs' f hf
      rcases hinv.awaited n d i s' hs' f hf with hleft | hmark
      · simp only [set3_apply]
        split
        · rename_i heq
          rcases heq with ⟨rfl, rfl, rfl⟩
          rw [hpull, Option.some.injEq] at hs'
          rw [hnext, List.mem_cons] at hleft
          -- What is no longer waited for has just been seen.
          rcases hleft with rfl | hleft
          · rw [← hs']
            exact Or.inr hready
          · exact Or.inl hleft
        · exact Or.inl hleft
      · exact Or.inr hmark }

theorem inv_step {u : World α} {a : Action} (hinv : Inv setup pull mem w)
    (h : step setup pull w a = some u) : Inv setup pull mem u := by
  cases steps_of_step h with
  | push node dev pusher chunk peerSlot rest hnode hnext => exact inv_push hinv hnode hnext
  | copy i x t ht hx => exact inv_copy hinv ht hx
  | arrive i t ht hall => exact inv_arrive hinv ht hall
  | ready node dev copyId chunk slot rest hnext hflag => exact inv_ready hinv hnext hflag
  | see node dev tokenIdx readyIdx rest s hpull hnext hready =>
      exact inv_see hinv hpull hnext hready

end Steps

/-! ## What is loaded -/

/-- A flag or mark that is set already is of a chunk that is there already. In a first launch
    none is. -/
def Clean (setup : Setup) (mem : Cell → α) (arrivalFlags : Nat → Nat → Nat → BitVec 32)
    (copyReady : Nat → Nat → Nat → Bool) : Prop :=
  ∀ n d slot, ∀ chunk < setup.totalChunks,
    arrivalFlags n d (setup.readyIdx slot chunk) = setup.epoch ∨
        copyReady n d (setup.readyIdx slot chunk) = true →
      ChunkSettled setup (meant setup mem) mem n d slot chunk

section Runs

variable {setup : Setup} {pull : Nat → Nat → Nat → Option (Source setup)} {mem : Cell → α}
  {arrivalFlags : Nat → Nat → Nat → BitVec 32} {copyReady : Nat → Nat → Nat → Bool}

theorem inv_init (hclean : Clean setup mem arrivalFlags copyReady) :
    Inv setup pull mem (init setup pull mem arrivalFlags copyReady) where
  own _ _ _ := rfl
  valid _ ht := absurd ht List.not_mem_nil
  sound _ ht := absurd ht List.not_mem_nil
  flagged n d slot chunk hc hf := hclean n d slot chunk hc (Or.inl hf)
  marked n d slot chunk hc hf := hclean n d slot chunk hc (Or.inr hf)
  toPush _ _ _ _ h := mem_pushes h
  toCopy _ _ _ _ h := mem_copies h
  awaited n d i s hs f hf := by
    refine Or.inl ?_
    simp only [init, hs]
    exact hf

theorem inv_of_reaches (hclean : Clean setup mem arrivalFlags copyReady) {w : World α}
    (h : Reaches (step setup pull) always (init setup pull mem arrivalFlags copyReady) w) :
    Inv setup pull mem w :=
  invariant_of_reaches (Inv setup pull mem)
    (fun _ _ _ hs _ hst => inv_step hs hst) h (inv_init hclean)

/-- A token is as its sender has it, once the dispatch has nothing left to wait for. -/
theorem loaded_settled {w : World α} (hinv : Inv setup pull mem w) {n d i : Nat}
    {s : Source setup} (hpull : pull n d i = some s) (hn : n < setup.numNodes)
    (hdone : w.toAwait n d i = []) {k : Nat} (hk : k < setup.tokenBytes) :
    w.mem (setup.loaded n s k) =
      mem (.own s.srcNode s.srcDev (s.srcToken * setup.tokenBytes + k)) := by
  have hbyte := token_byte_lt s.srcToken_lt hk
  by_cases hown : s.srcNode = n
  · rw [Setup.loaded, if_pos hown, hown]
    exact hinv.own n s.srcDev _
  · rcases chunk_of_byte hbyte with ⟨hchunk, hoff⟩
    have hmark : w.copyReady n s.srcDev (setup.readyIdx (setup.senderSlot s.srcNode n)
        ((s.srcToken * setup.tokenBytes + k) / chunkBytes)) = true := by
      have hmem : setup.readyIdx (setup.senderSlot s.srcNode n)
          ((s.srcToken * setup.tokenBytes + k) / chunkBytes) ∈ setup.awaitedIdxs n s := by
        rw [Setup.awaitedIdxs, if_neg hown]
        exact List.mem_map_of_mem (byte_awaited hk)
      have hleft := hinv.awaited n d i s hpull _ hmem
      rw [hdone] at hleft
      exact hleft.resolve_left List.not_mem_nil
    have hsettled := hinv.marked _ _ _ _ hchunk hmark _ hoff
    rw [Nat.div_add_mod'] at hsettled
    rw [Setup.loaded, if_neg hown, peerTokenIdx_mul, Nat.add_assoc]
    exact hsettled.trans (meant_recv mem hn s.srcNode_lt s.srcDev hbyte)

end Runs

/-- When nothing is set for the epoch, nothing is set too early. -/
theorem clean_of_reset {setup : Setup} (mem : Cell → α)
    {arrivalFlags : Nat → Nat → Nat → BitVec 32} {copyReady : Nat → Nat → Nat → Bool}
    (hflags : ∀ n d i, arrivalFlags n d i ≠ setup.epoch)
    (hready : ∀ n d i, copyReady n d i = false) :
    Clean setup mem arrivalFlags copyReady := by
  intro n d slot chunk _ hset
  rcases hset with hflag | hmark
  · exact absurd hflag (hflags n d _)
  · rw [hready] at hmark
    exact absurd hmark Bool.false_ne_true

/-- In every run of a launch, when the dispatch of a token has seen all it waits for, what it
    loads is the token as its sender has it. And two different nodes that send to one node use
    different tiles there, and bytes that do not overlap. -/
theorem token_in_place (setup : Setup) (pull : Nat → Nat → Nat → Option (Source setup))
    (mem : Cell → α) (arrivalFlags : Nat → Nat → Nat → BitVec 32)
    (copyReady : Nat → Nat → Nat → Bool) (hclean : Clean setup mem arrivalFlags copyReady) :
    (∀ w, Reaches (step setup pull) always (init setup pull mem arrivalFlags copyReady) w →
      ∀ n < setup.numNodes, ∀ d i s, pull n d i = some s → w.toAwait n d i = [] →
        ∀ k < setup.tokenBytes, w.mem (setup.loaded n s k) =
          mem (.own s.srcNode s.srcDev (s.srcToken * setup.tokenBytes + k))) ∧
    ∀ j j' : Send, Valid setup j → Valid setup j' → j.node ≠ j'.node →
      setup.receiver j = setup.receiver j' →
        (setup.cmd j).tileId ≠ (setup.cmd j').tileId ∧
        Disjoint
          (Set.Ico (setup.cmd j).remoteOffset.toNat
            ((setup.cmd j).remoteOffset.toNat + (setup.cmd j).bytes.toNat))
          (Set.Ico (setup.cmd j').remoteOffset.toNat
            ((setup.cmd j').remoteOffset.toNat + (setup.cmd j').bytes.toNat)) := by
  refine ⟨?_, ?_⟩
  · intro w hw n hn d i s hpull hdone k hk
    exact loaded_settled (inv_of_reaches hclean hw) hpull hn hdone hk
  · intro j j' hj hj' hne hto
    exact senders_apart hj.1 hj'.1 hne hj.2.2 hj'.2.2 hto hj.2.1 hj'.2.1 j.dev j'.dev

section Sample

/-- Three nodes of two GPUs, with two tokens of four bytes on each GPU. -/
def trioSetup : Setup where
  numNodes := 3
  numDevices := 2
  hidden := 2
  numLocalTokens := 2
  numSendSms := 1
  numCopySms := 1
  epoch := 1
  numNodes_ge := two_le_three
  hidden_pos := Nat.two_pos
  numSendSms_pos := Nat.one_pos
  numCopySms_pos := Nat.one_pos
  bytes_fit := by decide
  idxs_fit := by decide +kernel

/-- The second token of the second GPU of node 1, and the first of that of node 2. -/
def fromOne : Source trioSetup := ⟨1, 1, 1, by decide, by decide, by decide⟩
def fromTwo : Source trioSetup := ⟨2, 1, 0, by decide, by decide, by decide⟩

/-- The second GPU of node 0 pulls both. -/
def trioPull (node dev tokenIdx : Nat) : Option (Source trioSetup) :=
  if node = 0 ∧ dev = 1 ∧ tokenIdx = 0 then some fromOne
  else if node = 0 ∧ dev = 1 ∧ tokenIdx = 1 then some fromTwo
  else none

def trioMem : Cell → Nat
  | .own node dev off => 100 * node + 10 * dev + off
  | .recv _ _ _ => 999

def trioInit : World Nat :=
  init trioSetup trioPull trioMem (fun _ _ _ => 0) (fun _ _ _ => false)

/-- Node 1 pushes its chunk to both peers, and node 2 to node 0. The bytes of the two for node
    0 are copied side by side, and that of node 2 arrives first. The one for node 2 is still on
    its way when node 0 has seen both. -/
def trioActions : List Action :=
  [.push 1 1 0, .push 1 1 0, .push 2 1 0, .copy 0 3] ++
  (List.range 8).flatMap (fun x => [.copy 2 (7 - x), .copy 1 x]) ++
  [.arrive 2, .arrive 1, .ready 0 1 0, .ready 0 1 0, .see 0 1 1, .see 0 1 0]

def trioRun : World Nat :=
  (run (step trioSetup trioPull) always trioActions trioInit).get (by decide +kernel)

/-- Node 0 loads all bytes of both tokens. -/
theorem trio_tokens_in_place :
    (∀ k < 4, trioRun.mem (trioSetup.loaded 0 fromOne k) = 114 + k) ∧
      ∀ k < 4, trioRun.mem (trioSetup.loaded 0 fromTwo k) = 210 + k := by
  have hclean : Clean trioSetup trioMem (fun _ _ _ => 0) (fun _ _ _ => false) :=
    clean_of_reset trioMem (fun _ _ _ => by decide) fun _ _ _ => rfl
  have hall := (token_in_place trioSetup trioPull trioMem _ _ hclean).1 trioRun
    (reaches_of_run _ _ _ (Option.some_get _).symm) 0 (by decide) 1
  refine ⟨fun k hk => ?_, fun k hk => ?_⟩
  · refine (hall 0 fromOne rfl (by decide +kernel) k hk).trans ?_
    change 100 * 1 + 10 * 1 + (1 * 4 + k) = 114 + k
    omega
  · refine (hall 1 fromTwo rfl (by decide +kernel) k hk).trans ?_
    change 100 * 2 + 10 * 1 + (0 * 4 + k) = 210 + k
    omega

end Sample

end DispatchGemm

end MKernel
