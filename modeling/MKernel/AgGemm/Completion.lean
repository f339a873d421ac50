import MKernel.AgGemm.Gather

/-!
# The Gather Completes

There is a run of the gather in which all that is to be stored is stored, on every node.

A job that has begun can copy all of its bytes and finish, whatever they are
(`exists_finish`). So the prologue can flag all row blocks of the first step at every node.
When all row blocks of a step are flagged, all tasks of the step can be stored, and when
these are, all rows can be forwarded, which flags the row blocks of the next step
(`exists_stored`).

With `ring_gathers`, what is then stored are the shards. If a row block is a chunk and a
half, the last chunk of a shard is of no command, and is not there in the end either
(`last_byte_stale`).

## Main definitions

* `Onward`: What a run that leaves nothing unfinished keeps.
* `Flagged`, `StepStored`: What is done in a step.

## Theorems

* `exists_finish`: A job can finish.
* `exists_stored`: All can be stored.
* `ring_gathers`: The slots of the ring, and what is gathered.
* `last_byte_stale`: Without whole chunks a byte of a shard is left out.
-/

namespace MKernel

namespace AgGemm

open MKernel.Core

variable {setup : Setup} {α : Type*} {w u v : World α}

/-- A run after which nothing is being copied, if nothing was. Flags and counts last. -/
structure Onward (setup : Setup) (w u : World α) : Prop where
  reaches : Reaches (step setup) always w u
  idle : w.flight = [] → u.flight = []
  arrived : ∀ n d tile, w.arrived n d tile = true → u.arrived n d tile = true
  stored : ∀ t, w.stored t = true → u.stored t = true

theorem onward_refl (w : World α) : Onward setup w w :=
  ⟨reaches_refl _ _ _, id, fun _ _ _ => id, fun _ => id⟩

theorem onward_trans (h : Onward setup w u) (h' : Onward setup u v) : Onward setup w v where
  reaches := reaches_trans h.reaches h'.reaches
  idle hw := h'.idle (h.idle hw)
  arrived n d tile hw := h'.arrived n d tile (h.arrived n d tile hw)
  stored t hw := h'.stored t (h.stored t hw)

/-! ## One job -/

/-- The only job is copied, byte by byte. -/
theorem exists_copied (w : World α) (job : Job) (k : Nat) (hk : k ≤ setup.size job) :
    ∃ mem, Reaches (step setup) always { w with flight := [Transit.start job] }
      { w with mem := mem, flight := [{ job := job, moved := fun x => decide (x < k) }] } := by
  induction k with
  | zero =>
      refine ⟨w.mem, ?_⟩
      have hnone : (fun x => decide (x < 0)) = fun _ : Nat => false :=
        funext fun x => decide_eq_false (Nat.not_lt_zero x)
      rw [hnone]
      exact reaches_refl _ _ _
  | succ k ih =>
      -- Byte `k` is copied next.
      rcases ih (Nat.le_of_succ_le hk) with ⟨mem, hr⟩
      refine ⟨Core.copy mem (setup.src job k) (setup.dst job k),
        reaches_step hr (.copy 0 k) trivial ?_⟩
      have hmoved : Function.update (fun x => decide (x < k)) k true =
          fun x => decide (x < k + 1) := by
        funext x
        by_cases hx : x = k
        · rw [hx, Function.update_self]
          exact (decide_eq_true (Nat.lt_succ_self k)).symm
        · rw [Function.update_of_ne hx]
          exact decide_eq_decide.mpr (by omega)
      rw [step]
      simp only [List.getElem?_cons_zero]
      rw [if_pos (Nat.lt_of_succ_le hk), List.set_cons_zero, Transit.move, hmoved]

/-- A job that can begin can finish. -/
theorem exists_finish {a : Action} {job : Job} (hidle : w.flight = [])
    (hbegin : step setup w a = some (w.begin job)) :
    ∃ mem, Reaches (step setup) always w ({ w with mem := mem }.complete job) := by
  rcases exists_copied w job (setup.size job) (le_refl _) with ⟨mem, hr⟩
  have hstart : step setup w a = some { w with flight := [Transit.start job] } := by
    rw [hbegin, World.begin, hidle, List.nil_append]
  refine ⟨mem, reaches_step (reaches_trans (reaches_step (reaches_refl _ _ _) a trivial hstart) hr)
    (.finish 0) trivial ?_⟩
  rw [step]
  simp only [List.getElem?_cons_zero]
  rw [if_pos fun x hx => decide_eq_true hx, List.eraseIdx_cons_zero, ← hidle]

/-- What is flagged or counted for a job. -/
def Done : Job → World α → Prop
  | .send _ dev write, w => w.arrived write.dstRank dev write.tileId = true
  | .store t, w => w.stored t = true

theorem done_onward (h : Onward setup w u) {job : Job} (hd : Done job w) : Done job u := by
  cases job with
  | send node dev write => exact h.arrived _ _ _ hd
  | store t => exact h.stored t hd

theorem done_complete (w : World α) (job : Job) : Done job (w.complete job) := by
  cases job with
  | send node dev write => exact if_pos ⟨rfl, rfl, rfl⟩
  | store t => exact Function.update_self _ _ _

/-- A job that can begin can be done, and nothing else is undone. -/
theorem exists_done {a : Action} {job : Job} (hidle : w.flight = [])
    (hbegin : step setup w a = some (w.begin job)) : ∃ u, Onward setup w u ∧ Done job u := by
  rcases exists_finish hidle hbegin with ⟨mem, hr⟩
  refine ⟨_, ⟨hr, ?_, ?_, ?_⟩, done_complete _ job⟩
  · -- What is done stays done.
    cases job with
    | send node dev write => exact id
    | store t => exact id
  · cases job with
    | send node dev write =>
        intro n d tile h
        simp only [World.complete, h, ite_self]
    | store t => exact fun _ _ _ => id
  · cases job with
    | send node dev write => exact fun _ => id
    -- A store done stays done, and this one is done now.
    | store t =>
        intro t' h
        by_cases ht : t' = t
        · rw [ht]
          exact Function.update_self _ _ _
        · simp only [World.complete, Function.update_of_ne ht]
          exact h

/-- All jobs of a list can be done, if each can begin from wherever one gets. -/
theorem exists_all_done (hidle : w.flight = []) (jobs : List Job)
    (h : ∀ u, Onward setup w u → ∀ job ∈ jobs, ∃ a, step setup u a = some (u.begin job)) :
    ∃ u, Onward setup w u ∧ ∀ job ∈ jobs, Done job u := by
  refine exists_forall (Onward setup) Done onward_refl (fun _ _ _ => onward_trans)
    (fun _ _ _ h hd => done_onward h hd) jobs fun u hu job hjob => ?_
  rcases h u hu job hjob with ⟨a, ha⟩
  exact exists_done (hu.idle hidle) ha

/-! ## All jobs of a step -/

/-- All row blocks of a step are flagged at the GPUs that have them. -/
def Flagged (setup : Setup) (w : World α) (s : Nat) : Prop :=
  ∀ n < setup.numNodes, ∀ d < setup.numDevices, ∀ k < setup.localRowBlocks, ∀ sub < 2,
    w.arrived n d (setup.awaitTile n s (2 * (d * setup.localRowBlocks + k) + sub)) = true

/-- All tasks of a step are stored. -/
def StepStored (setup : Setup) (w : World α) (s : Nat) : Prop :=
  ∀ n < setup.numNodes, ∀ d < setup.numDevices, ∀ t < setup.numLocalBlocks,
    w.stored ⟨n, d, s, t⟩ = true

/-- The commands of a hop, of all nodes. -/
def hopJobs (setup : Setup) (s : Nat) : List Job :=
  (List.range setup.numNodes).flatMap fun n => (List.range setup.numDevices).flatMap fun d =>
    (List.range setup.localRowBlocks).flatMap fun k => (List.range 2).map fun sub =>
      .send n d (setup.hopWrite n d s (2 * (d * setup.localRowBlocks + k) + sub))

/-- The tasks of a step, of all nodes. -/
def stepJobs (setup : Setup) (s : Nat) : List Job :=
  (List.range setup.numNodes).flatMap fun n => (List.range setup.numDevices).flatMap fun d =>
    (List.range setup.numLocalBlocks).map fun t => .store ⟨n, d, s, t⟩

theorem mem_hopJobs {s : Nat} {job : Job} :
    job ∈ hopJobs setup s ↔ ∃ n < setup.numNodes, ∃ d < setup.numDevices,
      ∃ k < setup.localRowBlocks, ∃ sub < 2,
        .send n d (setup.hopWrite n d s (2 * (d * setup.localRowBlocks + k) + sub)) = job := by
  simp only [hopJobs, List.mem_flatMap, List.mem_map, List.mem_range]

theorem mem_stepJobs {s : Nat} {job : Job} :
    job ∈ stepJobs setup s ↔ ∃ n < setup.numNodes, ∃ d < setup.numDevices,
      ∃ t < setup.numLocalBlocks, .store ⟨n, d, s, t⟩ = job := by
  simp only [stepJobs, List.mem_flatMap, List.mem_map, List.mem_range]

/-- What the nodes before have sent is what the nodes wait for. -/
theorem flagged_of_done {s : Nat} (hs : s < setup.numPeers)
    (h : ∀ job ∈ hopJobs setup s, Done job w) : Flagged setup w s := by
  intro n hn d hd k hk sub hsub
  rcases exists_nextRank hn with ⟨p, hp, hnext⟩
  have hawait := hopWrite_awaited hp hs d (2 * (d * setup.localRowBlocks + k) + sub)
  have hdone := h _ (mem_hopJobs.mpr ⟨p, hp, d, hd, k, hk, sub, hsub, rfl⟩)
  rw [Done, hawait.1, hawait.2.1, hnext] at hdone
  exact hdone

theorem exists_flagged_zero (hidle : w.flight = []) :
    ∃ u, Onward setup w u ∧ Flagged setup u 0 := by
  have hbegin : ∀ u, Onward setup w u → ∀ job ∈ hopJobs setup 0,
      ∃ a, step setup u a = some (u.begin job) := by
    intro u _ job hjob
    rcases mem_hopJobs.mp hjob with ⟨n, hn, d, hd, k, hk, sub, hsub, rfl⟩
    exact ⟨.phase0 n d (k % setup.numIntraComm) _,
      if_pos ⟨hn, hd, Nat.mod_lt k setup.numIntraComm_pos, mem_posts d _ hk hsub⟩⟩
  rcases exists_all_done hidle (hopJobs setup 0) hbegin with ⟨u, hu, hall⟩
  exact ⟨u, hu, flagged_of_done setup.numPeers_pos hall⟩

/-- A task of a step can be stored when its row blocks are flagged. -/
theorem exists_stepStored (hidle : w.flight = []) {s : Nat} (hs : s < setup.numPeers)
    (hf : Flagged setup w s) : ∃ u, Onward setup w u ∧ StepStored setup u s := by
  have hbegin : ∀ u, Onward setup w u → ∀ job ∈ stepJobs setup s,
      ∃ a, step setup u a = some (u.begin job) := by
    intro u hu job hjob
    rcases mem_stepJobs.mp hjob with ⟨n, hn, d, hd, t, ht, rfl⟩
    have hrow : t / setup.colBlocks < setup.localRowBlocks :=
      Nat.div_lt_of_lt_mul (Nat.mul_comm _ _ ▸ ht)
    have hidx : setup.rowIdx ⟨n, d, s, t⟩ = d * setup.localRowBlocks + t / setup.colBlocks :=
      Nat.add_comm _ _
    refine ⟨.load ⟨n, d, s, t⟩, if_pos ⟨⟨hn, hd, hs, ht⟩, fun sub hsub => ?_⟩⟩
    rw [hidx]
    exact hu.arrived _ _ _ (hf n hn d hd _ hrow sub hsub)
  rcases exists_all_done hidle (stepJobs setup s) hbegin with ⟨u, hu, hall⟩
  exact ⟨u, hu, fun n hn d hd t ht => hall _ (mem_stepJobs.mpr ⟨n, hn, d, hd, t, ht, rfl⟩)⟩

/-- A row can be forwarded when all its tasks are stored. -/
theorem exists_flagged_succ (hidle : w.flight = []) {s : Nat} (hs : s + 1 < setup.numPeers)
    (hst : StepStored setup w s) : ∃ u, Onward setup w u ∧ Flagged setup u (s + 1) := by
  have hbegin : ∀ u, Onward setup w u → ∀ job ∈ hopJobs setup (s + 1),
      ∃ a, step setup u a = some (u.begin job) := by
    intro u hu job hjob
    rcases mem_hopJobs.mp hjob with ⟨n, hn, d, hd, k, hk, sub, hsub, rfl⟩
    refine ⟨.forward n d s (k % setup.numIntraComm) 0 0 _,
      if_pos ⟨hn, hd, Nat.mod_lt k setup.numIntraComm_pos, ?_, fun t ht _ => ?_⟩⟩
    · rw [Setup.forwardPosts, if_pos ⟨by decide, rfl⟩, if_pos hs]
      exact mem_posts d _ hk hsub
    · exact hu.stored _ (hst n hn d hd t ht)
  rcases exists_all_done hidle (hopJobs setup (s + 1)) hbegin with ⟨u, hu, hall⟩
  exact ⟨u, hu, flagged_of_done hs hall⟩

/-- The steps up to one can all be stored. -/
theorem exists_steps (hidle : w.flight = []) (k : Nat) (hk : k < setup.numPeers) :
    ∃ u, Onward setup w u ∧ ∀ s ≤ k, StepStored setup u s := by
  induction k with
  | zero =>
      rcases exists_flagged_zero hidle with ⟨u, hu, hf⟩
      rcases exists_stepStored (hu.idle hidle) hk hf with ⟨v, hv, hst⟩
      refine ⟨v, onward_trans hu hv, fun s hs => ?_⟩
      rw [Nat.le_zero.mp hs]
      exact hst
  | succ k ih =>
      rcases ih (Nat.lt_of_succ_lt hk) with ⟨u, hu, hall⟩
      rcases exists_flagged_succ (hu.idle hidle) hk (hall k (Nat.le_refl k)) with ⟨v, hv, hf⟩
      rcases exists_stepStored (hv.idle (hu.idle hidle)) hk hf with ⟨x, hx, hst⟩
      refine ⟨x, onward_trans (onward_trans hu hv) hx, fun s hs => ?_⟩
      by_cases hlast : s = k + 1
      · rw [hlast]
        exact hst
      · intro n hn d hd t ht
        exact hx.stored _ (hv.stored _ (hall s (by omega) n hn d hd t ht))

/-- There is a run in which everything is stored, on all nodes. -/
theorem exists_stored (setup : Setup) (mem : Cell → α) :
    ∃ w, Reaches (step setup) always (init mem) w ∧ ∀ n < setup.numNodes, Stored setup w n := by
  have hpeers := setup.numPeers_pos
  have hidle : (init mem).flight = [] := rfl
  rcases exists_steps hidle (setup.numPeers - 1) (Nat.sub_one_lt_of_lt hpeers) with ⟨w, hw, hall⟩
  refine ⟨w, hw.reaches, fun n hn d hd s hs t ht => hall s (by omega) n hn d hd t ht⟩

/-! ## What is gathered -/

/-- What a node waits for in a step is what the node before it sends of the shard, no two
    hops share a slot of a node, and where row blocks are whole chunks, in every run a node
    with all its stores counted has the shards of all others. -/
theorem ring_gathers (setup : Setup) :
    (∀ n < setup.numNodes, ∀ s < setup.numPeers, ∃ p < setup.numNodes, setup.nextRank p = n ∧
      setup.hopOrigin p s = setup.origin n s ∧ setup.hopSlot p s = setup.awaitSlot n s ∧
      ∀ d rb, (setup.hopWrite p d s rb).dstRank = n ∧
        (setup.hopWrite p d s rb).tileId = setup.awaitTile n s rb ∧
        (setup.hopWrite p d s rb).remoteOffset =
          setup.awaitSlot n s * setup.aHalfBytes + setup.baseOffset rb) ∧
    (∀ p < setup.numNodes, ∀ p' < setup.numNodes, ∀ s < setup.numPeers, ∀ s' < setup.numPeers,
      setup.nextRank p = setup.nextRank p' → setup.hopSlot p s = setup.hopSlot p' s' →
        setup.hopOrigin p s = setup.hopOrigin p' s' ∧ s = s') ∧
    (setup.Whole → ∀ (mem : Cell → α) (w : World α), Reaches (step setup) always (init mem) w →
      ∀ n < setup.numNodes, Stored setup w n → Gathered setup mem w n) := by
  refine ⟨fun n hn s hs => ?_, fun p hp p' hp' s hs s' hs' hnext hslot => ?_,
    fun h mem w hr n hn hst => gathered_of_stored h (inv_of_reaches h hr) hn hst⟩
  · -- A step waits for the hop of the node before.
    rcases exists_nextRank hn with ⟨p, hp, rfl⟩
    refine ⟨p, hp, rfl, hopOrigin_eq hp hs, hopSlot_eq hp hs, fun d rb => ?_⟩
    have hawait := hopWrite_awaited hp hs d rb
    exact ⟨hawait.1, hawait.2.1, hawait.2.2.1⟩
  · -- Two hops of one slot are one.
    rcases hopSlot_inj hp hp' hs hs' hnext hslot with ⟨rfl, rfl⟩
    exact ⟨rfl, rfl⟩

/-- The shards are there, and the receive buffers are empty. -/
def shardsOnly : Cell → Bool
  | .own _ _ => true
  | .recv _ _ _ => false

theorem three_nodes_gather :
    ∃ w, Reaches (step threeNodes) always (init shardsOnly) w ∧
      ∀ n < 3, Gathered threeNodes shardsOnly w n := by
  rcases exists_stored threeNodes shardsOnly with ⟨w, hr, hst⟩
  exact ⟨w, hr, fun n hn =>
    (ring_gathers threeNodes).2.2 (by decide) shardsOnly w hr n hn (hst n hn)⟩

/-! ## A chunk and a half -/

/-- Beyond the first two chunks nothing is sent. -/
theorem dst_lt {n d s rb x : Nat} (hn : n < 2) (hs : s < 1) (hrb : rb < 2)
    (hx : x < chunkAndHalf.rbBytes rb) :
    ∃ addr < 131072, chunkAndHalf.dst (.send n d (chunkAndHalf.hopWrite n d s rb)) x =
      .recv (chunkAndHalf.nextRank n) d addr := by
  have hs0 : s = 0 := Nat.lt_one_iff.mp hs
  have hbytes : ∀ rb < 2, chunkAndHalf.baseOffset rb + chunkAndHalf.rbBytes rb ≤ 131072 := by
    decide +kernel
  have hslot : ∀ n < 2, chunkAndHalf.awaitSlot (chunkAndHalf.nextRank n) 0 = 0 := by
    decide +kernel
  have hend := hbytes rb hrb
  refine ⟨_, ?_, dst_send hn hs d rb x⟩
  rw [hs0, hslot n hn]
  omega

/-- There is one bank and one GPU, so a store copies every byte to itself. -/
theorem store_in_place {t : Task} (ht : chunkAndHalf.IsTask t) {x : Nat}
    (hx : x < chunkAndHalf.size (.store t)) :
    chunkAndHalf.src (.store t) x = chunkAndHalf.dst (.store t) x := by
  have hstep : t.step = 0 := Nat.lt_one_iff.mp ht.2.2.1
  have hdev : t.dev = 0 := Nat.lt_one_iff.mp ht.2.1
  have hdst : x / commTileBytes = 0 := Nat.div_eq_of_lt (Nat.one_mul commTileBytes ▸ hx)
  rw [src_store, dst_store, Setup.awaitSlot, hstep, hdev, hdst, Nat.mul_zero, Nat.add_zero]

/-- So the last chunk stays what it was. -/
def LastKept (w : World Bool) : Prop :=
  AllValid chunkAndHalf w ∧
    ∀ n d addr, 131072 ≤ addr → w.mem (.recv n d addr) = shardsOnly (.recv n d addr)

theorem lastKept_step {w u : World Bool} {a : Action} (hk : LastKept w)
    (hstep : step chunkAndHalf w a = some u) : LastKept u := by
  refine ⟨valid_step hk.1 hstep, ?_⟩
  cases steps_of_step hstep with
  | phase0 node dev comm write hnode hdev hw => exact hk.2
  | forward node dev s comm warp lane write hnode hdev hw hst => exact hk.2
  | load t ht hw => exact hk.2
  | copy i x t ht hx =>
      -- Only a copy can reach what is kept.
      intro n d addr haddr
      rw [← hk.2 n d addr haddr]
      rcases t with ⟨job, moved⟩
      cases hk.1 _ (List.mem_of_getElem? ht) with
      | @send n' d' s rb hn hs hrb =>
          rw [Setup.size, (hopWrite_awaited hn hs d' rb).2.2.2] at hx
          rcases dst_lt (d := d') hn hs hrb hx with ⟨addr', hlt, hdst⟩
          simp only [hdst]
          -- A hop writes below, what is kept lies above.
          refine Function.update_of_ne (fun heq => ?_) _ _
          have := (Cell.recv.inj heq).2.2
          omega
      | @store t htask =>
          -- A store finds there what it writes.
          simp only [store_in_place htask hx, Core.copy, Function.update_eq_self]
  | finish i t ht hall =>
      cases hjob : t.job with
      | send node dev write => exact hk.2
      | store t' => exact hk.2

/-- With a chunk and a half in a row block, all is stored and the last chunk is not there. -/
theorem last_byte_stale : ¬ ∀ w, Reaches (step chunkAndHalf) always (init shardsOnly) w →
    ∀ n < chunkAndHalf.numNodes, Stored chunkAndHalf w n →
      Gathered chunkAndHalf shardsOnly w n := by
  intro h
  rcases exists_stored chunkAndHalf shardsOnly with ⟨w, hr, hst⟩
  have hkept : LastKept w := invariant_of_reaches LastKept (fun _ _ _ hk _ => lastKept_step hk) hr
    ⟨fun _ ht => absurd ht List.not_mem_nil, fun _ _ _ _ => rfl⟩
  have hbyte := h w hr 0 (by decide) (hst 0 (by decide)) 1 (by decide) (by decide) 0 (by decide)
    131072 (by decide +kernel)
  rw [hkept.2 _ _ _ (Nat.le_add_left _ _)] at hbyte
  exact absurd hbyte (by decide)

end AgGemm

end MKernel
