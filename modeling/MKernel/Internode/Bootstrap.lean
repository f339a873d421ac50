import Mathlib.Algebra.Order.BigOperators.Group.Finset
import MKernel.Core.System
import MKernel.Internode.Peers

/-!
# The Bootstrap of a Session

How the nodes exchange their connection information when they create their sessions.

Every node goes through the pairs of nodes in one order, and skips those it is not in. In
the others it calls `exchange_info_tcp`: the lower node of the pair listens and accepts, the
higher connects. Each end waits for the other in several places: the higher until the lower
listens, the lower until the higher has connected, and both for what the other sends.
The pair has its own port, so nobody else connects. How often the higher node tries is not
counted.

The two ends of a pair go through eight stages, and in each but the last it is known whose
turn it is (`Stage`). The pair that comes first of those that are not done has both its ends
there or past it, so the one whose turn it is can move (`isSome_step_of_first`).

Both backends have these loops. They find the server by different comparisons and
the default peers by different formulas, which come to the same (`meet_eq_some`,
`peerRankForSlot_mod`).

## Main definitions

* `pairs`: The pairs, in the order of the loops.
* `meet`: What a node does with a pair.
* `exchangeInfoTcp`: The next step of one end.
* `World`, `step`: The nodes and their connections.
* `Stage`: Where the two ends of a pair are.
* `Inv`: What every step keeps.

## Theorems

* `inv_step`: What every step keeps.
* `isSome_step_of_first`: The first unfinished pair can go on.
* `bootstrap_finishes`: Nobody is stuck, and each pair meets once.
-/

namespace MKernel

namespace Internode

namespace Bootstrap

open MKernel.Core

/-! ## The loops -/

/-- The pairs `lo < hi`, in the order of the loops. -/
def pairs (numNodes : Nat) : List (Nat × Nat) :=
  (List.range numNodes).flatMap fun lo =>
    (List.range' (lo + 1) (numNodes - (lo + 1))).map fun hi => (lo, hi)

/-- The other node of a pair and whether this one is the server, if it is in the pair. -/
def meet (rank : Nat) (pair : Nat × Nat) : Option (Nat × Bool) :=
  if rank ≠ pair.1 ∧ rank ≠ pair.2 then none
  else some (if rank = pair.1 then pair.2 else pair.1, decide (rank = pair.1))

/-- `peer_slot_for_rank`. -/
def peerSlotForRank (rank numNodes peerRank : Nat) : Option Nat :=
  (List.range (numNodes - 1)).find? fun slot => peerRankForSlot rank numNodes slot = peerRank

section Loops

variable {N r i : Nat} {pair : Nat × Nat} {m : Nat × Bool}

theorem mem_pairs : pair ∈ pairs N ↔ pair.1 < pair.2 ∧ pair.2 < N := by
  rcases pair with ⟨lo, hi⟩
  simp only [pairs, List.mem_flatMap, List.mem_range, List.mem_map, List.mem_range'_1,
    Prod.mk.injEq]
  constructor
  · rintro ⟨lo', hlo, hi', hhi, rfl, rfl⟩
    omega
  · rintro ⟨hlt, hhi⟩
    exact ⟨lo, by omega, hi, by omega, rfl, rfl⟩

/-- Each pair comes once. -/
theorem nodup_pairs (N : Nat) : (pairs N).Nodup := by
  refine List.nodup_flatMap.mpr ⟨fun lo _ => ?_, ?_⟩
  · exact (List.nodup_range' ..).map fun a b h => (Prod.mk.inj h).2
  · refine List.nodup_range.imp fun hne => ?_
    intro pair hp hp'
    rcases List.mem_map.mp hp with ⟨a, _, rfl⟩
    rcases List.mem_map.mp hp' with ⟨b, _, hb⟩
    exact hne (Prod.mk.inj hb).1.symm

theorem meet_lo (lo hi : Nat) : meet lo (lo, hi) = some (hi, true) := by
  simp only [meet, ne_eq, not_true_eq_false, false_and, if_false, if_true, decide_true]

theorem meet_hi {lo hi : Nat} (h : lo < hi) : meet hi (lo, hi) = some (lo, false) := by
  have hne : hi ≠ lo := Nat.ne_of_gt h
  simp only [meet, ne_eq, not_true_eq_false, and_false, if_false, hne, decide_false]

/-- The lower node of a pair is the server. -/
theorem meet_cases (h : meet r pair = some m) :
    r = pair.1 ∧ m = (pair.2, true) ∨ r = pair.2 ∧ r ≠ pair.1 ∧ m = (pair.1, false) := by
  unfold meet at h
  by_cases hout : r ≠ pair.1 ∧ r ≠ pair.2
  · rw [if_pos hout] at h
    exact absurd h (by simp only [reduceCtorEq, not_false_eq_true])
  · rw [if_neg hout] at h
    by_cases hlo : r = pair.1
    · rw [if_pos hlo, decide_eq_true hlo] at h
      exact Or.inl ⟨hlo, (Option.some.inj h).symm⟩
    · rw [if_neg hlo, decide_eq_false hlo] at h
      exact Or.inr ⟨not_not.mp fun hhi => hout ⟨hlo, hhi⟩, hlo, (Option.some.inj h).symm⟩

theorem meet_eq_some (h : pair ∈ pairs N) (hmeet : meet r pair = some m) :
    m.1 ≠ r ∧ m.1 < N ∧ m.2 = decide (r < m.1) ∧ pair = (min r m.1, max r m.1) := by
  rcases pair with ⟨lo, hi⟩
  rcases mem_pairs.mp h with ⟨hlt, hhi⟩
  simp only at hlt hhi
  rcases meet_cases hmeet with ⟨hr, hm⟩ | ⟨hr, hne, hm⟩
  · simp only at hr hm
    rw [hm, hr]
    refine ⟨by simp only; omega, hhi, (decide_eq_true hlt).symm, ?_⟩
    simp only [Prod.mk.injEq]
    omega
  · simp only at hr hm
    rw [hm, hr]
    refine ⟨by simp only; omega, by simp only; omega, (decide_eq_false (by omega)).symm, ?_⟩
    simp only [Prod.mk.injEq]
    omega

theorem mem_meet (hr : r < N) :
    m ∈ (pairs N).filterMap (meet r) ↔ m.1 ≠ r ∧ m.1 < N ∧ m.2 = decide (r < m.1) := by
  constructor
  · intro h
    rcases List.mem_filterMap.mp h with ⟨pair, hpair, hmeet⟩
    rcases meet_eq_some hpair hmeet with ⟨hne, hlt, hb, _⟩
    exact ⟨hne, hlt, hb⟩
  · rcases m with ⟨q, b⟩
    rintro ⟨hne, hlt, hb⟩
    simp only at hne hlt hb
    by_cases hq : r < q
    · refine List.mem_filterMap.mpr ⟨(r, q), mem_pairs.mpr ⟨hq, hlt⟩, ?_⟩
      rw [meet_lo, hb, decide_eq_true hq]
    · refine List.mem_filterMap.mpr ⟨(q, r), mem_pairs.mpr ⟨by simp only; omega, hr⟩, ?_⟩
      rw [meet_hi (by omega), hb, decide_eq_false hq]

theorem meet_inj (pair' : Nat × Nat) (h : meet r pair = some m) (h' : meet r pair' = some m) :
    pair = pair' := by
  rcases meet_cases h with ⟨hr, hm⟩ | ⟨hr, _, hm⟩ <;>
    rcases meet_cases h' with ⟨hr', hm'⟩ | ⟨hr', _, hm'⟩
  · exact Prod.ext (hr.symm.trans hr') (Prod.mk.inj (hm.symm.trans hm')).1
  · exact absurd (Prod.mk.inj (hm.symm.trans hm')).2 (by decide)
  · exact absurd (Prod.mk.inj (hm.symm.trans hm')).2 (by decide)
  · exact Prod.ext (Prod.mk.inj (hm.symm.trans hm')).1 (hr.symm.trans hr')

/-- A node meets no other twice. -/
theorem nodup_meet (r : Nat) {l : List (Nat × Nat)} (hl : l.Nodup) :
    (l.filterMap (meet r)).Nodup :=
  hl.filterMap fun _ pair' _ h h' => meet_inj pair' h h'

/-- A slot is of one node. -/
theorem slot_inj {slot slot' : Nat} (h : slot < N - 1) (h' : slot' < N - 1)
    (heq : peerRankForSlot r N slot = peerRankForSlot r N slot') : slot = slot' := by
  simp only [peerRankForSlot] at heq
  split at heq <;> split at heq <;> omega

theorem peerSlotForRank_eq_some {q slot : Nat} (h : peerSlotForRank r N q = some slot) :
    slot < N - 1 ∧ peerRankForSlot r N slot = q :=
  have hfind := List.find?_some (p := fun slot : Nat => decide (peerRankForSlot r N slot = q)) h
  ⟨List.mem_range.mp (List.mem_of_find?_eq_some h), of_decide_eq_true hfind⟩

/-- Every other node has a slot. -/
theorem exists_peerSlotForRank {q : Nat} (hr : r < N) (hq : q < N) (hne : q ≠ r) :
    ∃ slot, peerSlotForRank r N q = some slot := by
  have hsome : (peerSlotForRank r N q).isSome := by
    refine List.find?_isSome.mpr
      ⟨if r < q then q - r - 1 else q + N - r - 1, ?_, ?_⟩
    · rw [List.mem_range]
      split <;> omega
    · rw [decide_eq_true_eq, peerRankForSlot]
      split <;> split <;> omega
  exact Option.isSome_iff_exists.mp hsome

/-- The default of the other backend. -/
theorem peerRankForSlot_mod {slot : Nat} (hr : r < N) (hslot : slot < N - 1) :
    peerRankForSlot r N slot = ((r + 1 + slot) % N : Nat) := by
  simp only [peerRankForSlot]
  by_cases hlt : r + 1 + slot < N
  · rw [Nat.mod_eq_of_lt hlt]
    split <;> omega
  · rw [Nat.mod_eq_sub_mod (by omega), Nat.mod_eq_of_lt (by omega)]
    split <;> omega

end Loops

/-! ## One exchange -/

/-- A connection, on the port of its pair. -/
structure Conn (α : Type*) where
  listening : Bool
  connected : Bool
  toClient : Option α
  toServer : Option α

/-- Where a node is in `exchange_info_tcp`. -/
inductive Call (α : Type*) where
  /-- Its socket is made. -/
  | start
  /-- The server listens. -/
  | listening
  /-- The server has accepted, and listens no more. -/
  | accepted
  /-- The server has sent its information. -/
  | sent
  /-- The client is connected. -/
  | connected
  /-- The client has received the information of the server. -/
  | received (remote : α)
  /-- The information of the other is there. -/
  | done (remote : α)

def Conn.closed {α : Type*} : Conn α where
  listening := false
  connected := false
  toClient := none
  toServer := none

section Exchange

variable {α : Type*}

/-- The next step of one end of `exchange_info_tcp`, if it need not wait. -/
def exchangeInfoTcp (localInfo : α) (isServer : Bool) (call : Call α) (c : Conn α) :
    Option (Call α × Conn α) :=
  match isServer, call with
  | true, .start => some (.listening, { c with listening := true })
  | true, .listening =>
      if c.connected = true then some (.accepted, { c with listening := false }) else none
  | true, .accepted => some (.sent, { c with toClient := some localInfo })
  | true, .sent => c.toServer.map fun remote => (.done remote, c)
  -- The client tries again until the server listens.
  | false, .start =>
      if c.listening = true then some (.connected, { c with connected := true }) else none
  | false, .connected => c.toClient.map fun remote => (.received remote, c)
  | false, .received remote => some (.done remote, { c with toServer := some localInfo })
  | _, _ => none

/-- Where the two ends are. -/
inductive Stage (lo hi : α) : Call α → Call α → Conn α → Prop where
  | start : Stage lo hi .start .start .closed
  | listening : Stage lo hi .listening .start ⟨true, false, none, none⟩
  | connected : Stage lo hi .listening .connected ⟨true, true, none, none⟩
  | accepted : Stage lo hi .accepted .connected ⟨false, true, none, none⟩
  | sent : Stage lo hi .sent .connected ⟨false, true, some lo, none⟩
  | received : Stage lo hi .sent (.received lo) ⟨false, true, some lo, none⟩
  | answered : Stage lo hi .sent (.done lo) ⟨false, true, some lo, some hi⟩
  | done : Stage lo hi (.done hi) (.done lo) ⟨false, true, some lo, some hi⟩

variable {lo hi : α} {server client call : Call α} {c c' : Conn α}

theorem Stage.server_step (h : Stage lo hi server client c)
    (hstep : exchangeInfoTcp lo true server c = some (call, c')) :
    Stage lo hi call client c' := by
  cases h with
  | start => cases hstep; exact .listening
  | connected => cases hstep; exact .accepted
  | accepted => cases hstep; exact .sent
  | answered => cases hstep; exact .done
  | listening | sent | received | done =>
      exact absurd hstep (by simp only [exchangeInfoTcp, Option.map_none, reduceCtorEq,
        Bool.false_eq_true, if_false, not_false_eq_true])

theorem Stage.client_step (h : Stage lo hi server client c)
    (hstep : exchangeInfoTcp hi false client c = some (call, c')) :
    Stage lo hi server call c' := by
  cases h with
  | listening => cases hstep; exact .connected
  | sent => cases hstep; exact .received
  | received => cases hstep; exact .answered
  | start | connected | accepted | answered | done =>
      exact absurd hstep (by simp only [exchangeInfoTcp, Conn.closed, Option.map_none,
        reduceCtorEq, Bool.false_eq_true, if_false, not_false_eq_true])

/-- It is always the turn of one of the ends, until both are done. -/
theorem Stage.turn (h : Stage lo hi server client c) :
    (exchangeInfoTcp lo true server c).isSome ∨ (exchangeInfoTcp hi false client c).isSome ∨
    server = .done hi ∧ client = .done lo := by
  cases h with
  | start | connected | accepted | answered => exact Or.inl rfl
  | listening | sent | received => exact Or.inr (Or.inl rfl)
  | done => exact Or.inr (Or.inr ⟨rfl, rfl⟩)

theorem Stage.done_server (h : Stage lo hi server client c) {remote : α}
    (hserver : server = .done remote) : remote = hi := by
  cases h with
  | done => exact (Call.done.inj hserver).symm
  | _ => exact absurd hserver (by simp only [reduceCtorEq, not_false_eq_true])

theorem Stage.done_client (h : Stage lo hi server client c) {remote : α}
    (hclient : client = .done remote) : remote = lo := by
  cases h with
  | answered | done => exact (Call.done.inj hclient).symm
  | _ => exact absurd hclient (by simp only [reduceCtorEq, not_false_eq_true])

/-- No end is done before the other has begun. -/
theorem Stage.begun (h : Stage lo hi server client c) {remote : α} :
    (server = .done remote → client ≠ .start) ∧ (client = .done remote → server ≠ .start) := by
  cases h <;> simp only [reduceCtorEq, not_false_eq_true, ne_eq, imp_true_iff, false_imp_iff,
    and_self, Call.done.injEq]

/-- An end that is done takes no step. -/
theorem exchangeInfoTcp_done (localInfo remote : α) (isServer : Bool) (c : Conn α) :
    exchangeInfoTcp localInfo isServer (.done remote) c = none := by
  cases isServer <;> rfl

/-- The steps an end has left, with that out of the call. -/
def Call.left : Call α → Nat
  | .start => 4
  | .listening | .connected => 3
  | .accepted | .received _ => 2
  | .sent => 1
  | .done _ => 0

theorem left_exchange {localInfo : α} {isServer : Bool}
    (h : exchangeInfoTcp localInfo isServer call c = some (server, c')) :
    server.left < call.left := by
  cases isServer <;> cases call <;>
    simp only [exchangeInfoTcp, reduceCtorEq, Option.map_eq_some_iff, Option.ite_none_right_eq_some,
      Option.some.injEq, Prod.mk.injEq] at h
  · rw [← h.2.1]; simp only [Call.left, Nat.reduceLT]
  · rcases h with ⟨_, _, h, _⟩
    rw [← h]; simp only [Call.left, Nat.reduceLT]
  · rw [← h.1]; simp only [Call.left, Nat.reduceLT]
  · rw [← h.1]; simp only [Call.left, Nat.reduceLT]
  · rw [← h.2.1]; simp only [Call.left, Nat.reduceLT]
  · rw [← h.1]; simp only [Call.left, Nat.reduceLT]
  · rcases h with ⟨_, _, h, _⟩
    rw [← h]; simp only [Call.left, Nat.reduceLT]

end Exchange

/-! ## All nodes -/

/-- A node in its loops: where it is, `remote_infos`, and the nodes it has met, each with
    whether it was the server. -/
structure Node (α : Type*) where
  place : Nat
  call : Call α
  remoteInfos : Nat → Option α
  met : List (Nat × Bool)

structure World (α : Type*) where
  node : Nat → Node α
  conn : Nat × Nat → Conn α

section Nodes

variable {α : Type*}

def init : World α where
  node := fun _ =>
    { place := 0
      call := .start
      remoteInfos := fun _ => none
      met := [] }
  conn := fun _ => .closed

def World.set (w : World α) (r : Nat) (n : Node α) : World α :=
  { w with node := Function.update w.node r n }

theorem set_node_self (w : World α) (r : Nat) (n : Node α) : (w.set r n).node r = n := by
  simp only [World.set, Function.update_self]

theorem set_node_ne (w : World α) {q r : Nat} (n : Node α) (h : q ≠ r) :
    (w.set r n).node q = w.node q := by
  simp only [World.set, Function.update_of_ne h]

namespace Node

variable (n : Node α)

/-- The pair is none of the node's. -/
def skip : Node α := { n with place := n.place + 1 }

/-- The information of a peer is stored. -/
def store (slot : Nat) (remote : α) (m : Nat × Bool) : Node α where
  place := n.place + 1
  call := .start
  remoteInfos := Function.update n.remoteInfos slot (some remote)
  met := n.met ++ [m]

end Node

/-- The next step of a node, if it need not wait. `info` is what each node sends. -/
def step (numNodes : Nat) (info : Nat → α) (w : World α) (r : Nat) : Option (World α) :=
  if numNodes ≤ r then none
  else
    match (pairs numNodes)[(w.node r).place]? with
    | none => none
    | some pair =>
        match meet r pair with
        | none => some (w.set r (w.node r).skip)
        | some (peerRank, isServer) =>
            -- Without a slot for the peer the node would give up.
            (peerSlotForRank r numNodes peerRank).bind fun slot =>
              match (w.node r).call with
              | .done remote =>
                  some (w.set r ((w.node r).store slot remote (peerRank, isServer)))
              | call =>
                  (exchangeInfoTcp (info r) isServer call (w.conn pair)).map fun next =>
                    { w.set r { w.node r with call := next.1 } with
                      conn := Function.update w.conn pair next.2 }

/-- The node has left its loops. -/
def Finished (numNodes : Nat) (w : World α) (r : Nat) : Prop :=
  (pairs numNodes).length ≤ (w.node r).place

variable {N r i : Nat} {info : Nat → α} {w w' : World α} {pair : Nat × Nat} {m : Nat × Bool}

/-- What one step does. -/
inductive Steps (N : Nat) (info : Nat → α) (w : World α) (r : Nat) : World α → Prop where
  | skip (pair : Nat × Nat) (hpair : (pairs N)[(w.node r).place]? = some pair)
      (hmeet : meet r pair = none) : Steps N info w r (w.set r (w.node r).skip)
  | exchange (pair : Nat × Nat) (m : Nat × Bool) (next : Call α × Conn α)
      (hpair : (pairs N)[(w.node r).place]? = some pair) (hmeet : meet r pair = some m)
      (hnext : exchangeInfoTcp (info r) m.2 (w.node r).call (w.conn pair) = some next) :
      Steps N info w r
        { w.set r { w.node r with call := next.1 } with
          conn := Function.update w.conn pair next.2 }
  | store (pair : Nat × Nat) (m : Nat × Bool) (slot : Nat) (remote : α)
      (hpair : (pairs N)[(w.node r).place]? = some pair) (hmeet : meet r pair = some m)
      (hslot : peerSlotForRank r N m.1 = some slot) (hcall : (w.node r).call = .done remote) :
      Steps N info w r (w.set r ((w.node r).store slot remote m))

theorem lt_of_step (h : step N info w r = some w') : r < N := by
  by_cases hr : N ≤ r
  · rw [step, if_pos hr] at h
    exact absurd h (by simp only [reduceCtorEq, not_false_eq_true])
  · exact Nat.lt_of_not_le hr

theorem steps_of_step (h : step N info w r = some w') : Steps N info w r w' := by
  rw [step, if_neg (Nat.not_le.mpr (lt_of_step h))] at h
  cases hpair : (pairs N)[(w.node r).place]? with
  -- Past the last pair there is no step.
  | none =>
      rw [hpair] at h
      exact absurd h (by simp only [reduceCtorEq, not_false_eq_true])
  | some pair =>
      rw [hpair] at h
      cases hmeet : meet r pair with
      | none =>
          simp only [hmeet, Option.some.injEq] at h
          rw [← h]
          -- The node is not of this pair.
          exact .skip pair hpair hmeet
      | some m =>
          simp only [hmeet] at h
          rcases Option.bind_eq_some_iff.mp h with ⟨slot, hslot, hcont⟩
          cases hcall : (w.node r).call with
          | done remote =>
              -- The call is done, and its information stored.
              simp only [hcall, Option.some.injEq] at hcont
              rw [← hcont]
              exact .store pair m slot remote hpair hmeet hslot hcall
          | _ =>
              -- The call goes on.
              simp only [hcall] at hcont
              rcases Option.map_eq_some_iff.mp hcont with ⟨next, hnext, rfl⟩
              exact .exchange pair m next hpair hmeet (by rw [hcall]; exact hnext)

/-! ## Where the ends are -/

/-- Where a node is in the exchange at a place of the loops. `remote` is what it gets there. -/
def callAt (remote : α) (n : Node α) (i : Nat) : Call α :=
  if n.place < i then .start else if n.place = i then n.call else .done remote

theorem callAt_self (remote : α) (n : Node α) : callAt remote n n.place = n.call := by
  rw [callAt, if_neg (Nat.lt_irrefl _), if_pos rfl]

theorem callAt_past {remote : α} {n : Node α} (h : i < n.place) :
    callAt remote n i = .done remote := by
  rw [callAt, if_neg (Nat.lt_asymm h), if_neg (Nat.ne_of_gt h)]

theorem callAt_of_ne {remote : α} {n n' : Node α} (hat : n'.place = n.place) (hne : n.place ≠ i) :
    callAt remote n' i = callAt remote n i := by
  rw [callAt, callAt, hat, if_neg hne, if_neg hne]

/-- To go on changes nothing at other places. -/
theorem callAt_next {remote : α} {n n' : Node α} (hat : n'.place = n.place + 1)
    (hcall : n'.call = .start) (hne : n.place ≠ i) : callAt remote n' i = callAt remote n i := by
  by_cases hlt : n.place < i
  · rw [callAt, callAt, if_pos hlt, hcall]
    split
    · rfl
    · rw [if_pos (by omega)]
  · rw [callAt_past (by omega), callAt_past (by omega)]

/-- What is known about one node. -/
structure NodeInv (N : Nat) (info : Nat → α) (r : Nat) (n : Node α) : Prop where
  /-- At a pair that it skips it is in no call. -/
  start : ∀ pair, (pairs N)[n.place]? = some pair → meet r pair = none → n.call = .start
  /-- It has met the others of the pairs that it has gone through. -/
  met : n.met = ((pairs N).take n.place).filterMap (meet r)
  /-- It has their information. -/
  infos : r < N → ∀ m ∈ n.met, ∀ slot < N - 1, peerRankForSlot r N slot = m.1 →
    n.remoteInfos slot = some (info m.1)

/-- What every step keeps: the two ends of a pair are in one of the stages. -/
structure Inv (N : Nat) (info : Nat → α) (w : World α) : Prop where
  node : ∀ r, NodeInv N info r (w.node r)
  stage : ∀ i lo hi, (pairs N)[i]? = some (lo, hi) →
    Stage (info lo) (info hi) (callAt (info hi) (w.node lo) i) (callAt (info lo) (w.node hi) i)
      (w.conn (lo, hi))

theorem inv_init (N : Nat) (info : Nat → α) : Inv N info (init : World α) where
  node := fun _ =>
    { start := fun _ _ _ => rfl
      met := rfl
      infos := fun _ _ hm => absurd hm List.not_mem_nil }
  stage := by
    intro i lo hi _
    have hcall : ∀ x r, callAt x ((init : World α).node r) i = .start := by
      intro x r
      by_cases h0 : 0 < i
      · exact if_pos h0
      · rw [Nat.eq_zero_of_not_pos h0]
        exact callAt_self x _
    rw [hcall, hcall]
    exact .start

/-- What a node that has gone on has met. -/
theorem met_succ (r : Nat) (hpair : (pairs N)[i]? = some pair) :
    ((pairs N).take (i + 1)).filterMap (meet r) =
      ((pairs N).take i).filterMap (meet r) ++ (meet r pair).toList := by
  rw [List.take_add_one, hpair, List.filterMap_append, Option.toList_some, List.filterMap_cons]
  cases meet r pair <;> rfl

/-- A pair is at one place of the loops. -/
theorem place_unique {i' : Nat} (h : (pairs N)[i]? = some pair) (h' : (pairs N)[i']? = some pair) :
    i = i' :=
  (List.getElem?_inj (List.getElem?_eq_some_iff.mp h).1 (nodup_pairs N)).mp (h.trans h'.symm)

theorem node_set (hinv : Inv N info w) {n : Node α} (h : NodeInv N info r n) (q : Nat) :
    NodeInv N info q ((w.set r n).node q) := by
  by_cases hq : q = r
  · rw [hq, set_node_self]
    exact h
  · rw [set_node_ne w n hq]
    exact hinv.node q

/-- A change of one node leaves a stage, if it leaves where the node is in it. -/
theorem stage_set (hinv : Inv N info w) {n : Node α}
    (h : ∀ pair m, (pairs N)[i]? = some pair → meet r pair = some m →
      callAt (info m.1) n i = callAt (info m.1) (w.node r) i) {lo hi : Nat}
    (hpair : (pairs N)[i]? = some (lo, hi)) :
    Stage (info lo) (info hi) (callAt (info hi) ((w.set r n).node lo) i)
      (callAt (info lo) ((w.set r n).node hi) i) (w.conn (lo, hi)) := by
  have hlt := (mem_pairs.mp (List.mem_of_getElem? hpair)).1
  have hlo : callAt (info hi) ((w.set r n).node lo) i = callAt (info hi) (w.node lo) i := by
    by_cases hr : lo = r
    · rw [hr, set_node_self]
      exact h _ (hi, true) hpair (hr ▸ meet_lo lo hi)
    · rw [set_node_ne w n hr]
  have hhi : callAt (info lo) ((w.set r n).node hi) i = callAt (info lo) (w.node hi) i := by
    by_cases hr : hi = r
    · rw [hr, set_node_self]
      exact h _ (lo, false) hpair (hr ▸ meet_hi hlt)
    · rw [set_node_ne w n hr]
  rw [hlo, hhi]
  exact hinv.stage i lo hi hpair

theorem inv_skip (hinv : Inv N info w) (hpair : (pairs N)[(w.node r).place]? = some pair)
    (hmeet : meet r pair = none) : Inv N info (w.set r (w.node r).skip) where
  node := node_set hinv
    { start := fun _ _ _ => (hinv.node r).start pair hpair hmeet
      met := by
        simp only [Node.skip]
        rw [met_succ r hpair, hmeet, Option.toList_none, List.append_nil]
        exact (hinv.node r).met
      infos := (hinv.node r).infos }
  stage := by
    intro i lo hi hp
    refine stage_set hinv (fun p m hp hm => ?_) hp
    refine callAt_next rfl ((hinv.node r).start pair hpair hmeet) fun heq => ?_
    rw [heq, hp] at hpair
    rw [Option.some.inj hpair, hmeet] at hm
    exact absurd hm (by simp only [reduceCtorEq, not_false_eq_true])

/-- What an end has when it is done is what the other has sent. -/
theorem remote_eq (hinv : Inv N info w) (hpair : (pairs N)[(w.node r).place]? = some pair)
    (hmeet : meet r pair = some m) {remote : α} (hcall : (w.node r).call = .done remote) :
    remote = info m.1 := by
  rcases pair with ⟨lo, hi⟩
  have hstage := hinv.stage _ lo hi hpair
  rcases meet_cases hmeet with ⟨hr, rfl⟩ | ⟨hr, _, rfl⟩
  · simp only at hr
    subst hr
    rw [callAt_self] at hstage
    exact hstage.done_server hcall
  · simp only at hr
    subst hr
    rw [callAt_self] at hstage
    exact hstage.done_client hcall

theorem inv_store (hinv : Inv N info w) {slot : Nat} {remote : α}
    (hpair : (pairs N)[(w.node r).place]? = some pair) (hmeet : meet r pair = some m)
    (hslot : peerSlotForRank r N m.1 = some slot) (hcall : (w.node r).call = .done remote) :
    Inv N info (w.set r ((w.node r).store slot remote m)) where
  node := node_set hinv
    { start := fun _ _ _ => rfl
      met := by
        -- The node has met one partner more.
        simp only [Node.store]
        rw [met_succ r hpair, hmeet, Option.toList_some, (hinv.node r).met]
      infos := by
        -- The slot of this partner has what the partner gave, and the others have what they had.
        intro hr m' hm' slot' hslot' hrank
        simp only [Node.store] at hm' ⊢
        rcases peerSlotForRank_eq_some hslot with ⟨hlt, heq⟩
        by_cases hs : slot' = slot
        · subst hs
          rw [Function.update_self, remote_eq hinv hpair hmeet hcall]
          rw [hrank] at heq
          exact congrArg (fun q => some (info q)) (Nat.cast_injective heq).symm
        · -- No two ranks have one slot.
          rw [Function.update_of_ne hs]
          rcases List.mem_append.mp hm' with hold | hnew
          · exact (hinv.node r).infos hr m' hold slot' hslot' hrank
          · rw [List.mem_singleton.mp hnew, ← heq] at hrank
            exact absurd (slot_inj hslot' hlt hrank) hs }
  stage := by
    intro i lo hi hp
    -- The node is past this pair, in which its call is done.
    refine stage_set hinv (fun p m' hp hm' => ?_) hp
    by_cases heq : (w.node r).place = i
    · subst heq
      rw [hp] at hpair
      rw [Option.some.inj hpair, hmeet] at hm'
      rw [callAt_self, hcall, callAt_past (Nat.lt_succ_self _)]
      rw [remote_eq hinv (hp.trans hpair) hmeet hcall, Option.some.inj hm']
    · exact callAt_next rfl rfl heq

theorem inv_exchange (hinv : Inv N info w) {next : Call α × Conn α}
    (hpair : (pairs N)[(w.node r).place]? = some pair) (hmeet : meet r pair = some m)
    (hnext : exchangeInfoTcp (info r) m.2 (w.node r).call (w.conn pair) = some next) :
    Inv N info { w.set r { w.node r with call := next.1 } with
      conn := Function.update w.conn pair next.2 } where
  node := node_set hinv
    { start := by
        intro p hp hm
        simp only at hp
        rw [hp] at hpair
        rw [← Option.some.inj hpair, hm] at hmeet
        exact absurd hmeet (by simp only [reduceCtorEq, not_false_eq_true])
      met := (hinv.node r).met
      infos := (hinv.node r).infos }
  stage := by
    intro i lo hi hp
    simp only
    by_cases heq : (w.node r).place = i
    · -- The step is one of the two ends of this pair.
      subst heq
      have hpair' := Option.some.inj (hp.symm.trans hpair)
      subst hpair'
      have hlt := (mem_pairs.mp (List.mem_of_getElem? hp)).1
      have hstage := hinv.stage _ lo hi hp
      rw [Function.update_self]
      rcases meet_cases hmeet with ⟨hr, hm⟩ | ⟨hr, hne, hm⟩
      · simp only at hr
        subst hr
        rw [set_node_self, set_node_ne w _ (Nat.ne_of_gt hlt)]
        rw [callAt_self] at hstage
        rw [hm] at hnext
        exact (callAt_self _ _).symm ▸ hstage.server_step hnext
      · simp only at hr
        subst hr
        rw [set_node_self, set_node_ne w _ (Nat.ne_of_lt hlt)]
        rw [callAt_self] at hstage
        rw [hm] at hnext
        exact (callAt_self _ _).symm ▸ hstage.client_step hnext
    · have hne : (lo, hi) ≠ pair := fun h => heq (place_unique hpair (h ▸ hp))
      rw [Function.update_of_ne hne]
      exact stage_set hinv (n := { w.node r with call := next.1 })
        (fun _ _ _ _ => callAt_of_ne rfl heq) hp

/-- What every step keeps. -/
theorem inv_step (hinv : Inv N info w) (h : step N info w r = some w') : Inv N info w' := by
  cases steps_of_step h with
  | skip pair hpair hmeet => exact inv_skip hinv hpair hmeet
  | exchange pair m next hpair hmeet hnext => exact inv_exchange hinv hpair hmeet hnext
  | store pair m slot remote hpair hmeet hslot hcall =>
      exact inv_store hinv hpair hmeet hslot hcall

theorem inv_of_reaches (h : Reaches (step N info) always (init : World α) w) : Inv N info w :=
  invariant_of_reaches (Inv N info) (fun _ _ _ hinv _ hstep => inv_step hinv hstep) h
    (inv_init N info)

/-! ## Nobody is stuck -/

/-- An end whose turn it is has not gone on. -/
theorem place_of_turn {remote localInfo : α} {n : Node α} {isServer : Bool} {c : Conn α}
    (hle : n.place ≥ i) (h : (exchangeInfoTcp localInfo isServer (callAt remote n i) c).isSome) :
    n.place = i := by
  rcases Nat.lt_or_eq_of_le hle with hlt | heq
  · rw [callAt_past hlt, exchangeInfoTcp_done] at h
    exact absurd h (by simp only [Option.isSome_none, Bool.false_eq_true, not_false_eq_true])
  · exact heq.symm

theorem isSome_step_of_exchange (hr : r < N)
    (hpair : (pairs N)[(w.node r).place]? = some pair) (hmeet : meet r pair = some m)
    (h : (exchangeInfoTcp (info r) m.2 (w.node r).call (w.conn pair)).isSome) :
    (step N info w r).isSome := by
  rcases meet_eq_some (List.mem_of_getElem? hpair) hmeet with ⟨hne, hlt, _⟩
  rcases exists_peerSlotForRank hr hlt hne with ⟨slot, hslot⟩
  rw [step, if_neg (Nat.not_le.mpr hr), hpair]
  simp only [hmeet, hslot, Option.bind_some]
  cases hcall : (w.node r).call with
  | done remote =>
      simp only [Option.isSome_some]
  | _ =>
      rw [hcall] at h
      simpa only [Option.isSome_map] using h

theorem isSome_step_of_done (hr : r < N) (hpair : (pairs N)[(w.node r).place]? = some pair)
    (hmeet : meet r pair = some m) {remote : α} (hcall : (w.node r).call = .done remote) :
    (step N info w r).isSome := by
  rcases meet_eq_some (List.mem_of_getElem? hpair) hmeet with ⟨hne, hlt, _⟩
  rcases exists_peerSlotForRank hr hlt hne with ⟨slot, hslot⟩
  rw [step, if_neg (Nat.not_le.mpr hr), hpair]
  simp only [hmeet, hslot, Option.bind_some, hcall, Option.isSome_some]

theorem isSome_step_of_skip (hr : r < N) (hpair : (pairs N)[(w.node r).place]? = some pair)
    (hmeet : meet r pair = none) : (step N info w r).isSome := by
  rw [step, if_neg (Nat.not_le.mpr hr), hpair]
  simp only [hmeet, Option.isSome_some]

/-- Where no other node is at an earlier pair, the pair can go on. -/
theorem isSome_step_of_first (hinv : Inv N info w) (hr : r < N)
    (hpair : (pairs N)[(w.node r).place]? = some pair)
    (hfirst : ∀ q < N, (w.node r).place ≤ (w.node q).place) :
    ∃ q, (step N info w q).isSome := by
  cases hmeet : meet r pair with
  | none => exact ⟨r, isSome_step_of_skip hr hpair hmeet⟩
  | some m =>
      rcases pair with ⟨lo, hi⟩
      rcases mem_pairs.mp (List.mem_of_getElem? hpair) with ⟨hlt, hhi⟩
      simp only at hlt hhi
      have hstage := hinv.stage _ lo hi hpair
      rcases hstage.turn with hserver | hclient | hdone
      · have hplace := place_of_turn (hfirst lo (by omega)) hserver
        rw [← hplace, callAt_self] at hserver
        exact ⟨lo, isSome_step_of_exchange (by omega) (hplace ▸ hpair) (meet_lo lo hi) hserver⟩
      · have hplace := place_of_turn (hfirst hi hhi) hclient
        rw [← hplace, callAt_self] at hclient
        exact ⟨hi, isSome_step_of_exchange hhi (hplace ▸ hpair) (meet_hi hlt) hclient⟩
      · -- Both ends are done, and this one has still to store what it got.
        refine ⟨r, ?_⟩
        rcases meet_cases hmeet with ⟨hr', _⟩ | ⟨hr', _, _⟩
        · simp only at hr'
          subst hr'
          rw [callAt_self] at hdone
          exact isSome_step_of_done hr hpair hmeet hdone.1
        · simp only at hr'
          subst hr'
          rw [callAt_self] at hdone
          exact isSome_step_of_done hr hpair hmeet hdone.2

/-- While a node is not finished, one can go on. -/
theorem exists_step (hinv : Inv N info w) (h : ∃ r < N, ¬ Finished N w r) :
    ∃ q, (step N info w q).isSome := by
  rcases h with ⟨r, hr, hnot⟩
  rcases Finset.exists_min_image (Finset.range N) (fun r => (w.node r).place)
    ⟨r, Finset.mem_range.mpr hr⟩ with ⟨first, hmem, hmin⟩
  have hle := hmin r (Finset.mem_range.mpr hr)
  have hlt : (w.node first).place < (pairs N).length := by
    unfold Finished at hnot
    omega
  exact isSome_step_of_first hinv (Finset.mem_range.mp hmem) (List.getElem?_eq_getElem hlt)
    fun q hq => hmin q (Finset.mem_range.mpr hq)

/-- The steps a node has left, skipped pairs counted as others. -/
def Node.left (N : Nat) (n : Node α) : Nat := 5 * ((pairs N).length - n.place) + n.call.left

def World.left (N : Nat) (w : World α) : Nat := ∑ r ∈ Finset.range N, (w.node r).left N

theorem left_set (hr : r < N) {n : Node α} (h : n.left N < (w.node r).left N) :
    (w.set r n).left N < w.left N := by
  refine Finset.sum_lt_sum (fun q _ => ?_) ⟨r, Finset.mem_range.mpr hr, ?_⟩
  · by_cases hq : q = r
    · rw [hq, set_node_self]
      exact Nat.le_of_lt h
    · rw [set_node_ne w n hq]
  · rw [set_node_self]
    exact h

/-- Every step is one less. -/
theorem left_lt (hinv : Inv N info w) (h : step N info w r = some w') : w'.left N < w.left N := by
  have hr := lt_of_step h
  cases steps_of_step h with
  | skip pair hpair hmeet =>
      have hlt := (List.getElem?_eq_some_iff.mp hpair).1
      refine left_set hr ?_
      simp only [Node.left, Node.skip, (hinv.node r).start pair hpair hmeet]
      omega
  | exchange pair m next hpair hmeet hnext =>
      exact left_set hr (n := { w.node r with call := next.1 })
        (Nat.add_lt_add_left (left_exchange hnext) _)
  | store pair m slot remote hpair hmeet hslot hcall =>
      have hlt := (List.getElem?_eq_some_iff.mp hpair).1
      refine left_set hr ?_
      simp only [Node.left, Node.store, Call.left]
      omega

/-- What a finished node has met. -/
theorem met_of_finished (hinv : Inv N info w) (h : Finished N w r) :
    (w.node r).met = (pairs N).filterMap (meet r) := by
  rw [(hinv.node r).met, List.take_of_length_le h]

theorem nodup_fst_met (hinv : Inv N info w) : ((w.node r).met.map Prod.fst).Nodup := by
  rw [(hinv.node r).met]
  refine (nodup_meet r ((nodup_pairs N).sublist (List.take_sublist _ _))).map_on ?_
  intro m hm m' hm' heq
  rcases List.mem_filterMap.mp hm with ⟨pair, hpair, hmeet⟩
  rcases List.mem_filterMap.mp hm' with ⟨pair', hpair', hmeet'⟩
  have hb := (meet_eq_some (List.mem_of_mem_take hpair) hmeet).2.2.1
  have hb' := (meet_eq_some (List.mem_of_mem_take hpair') hmeet').2.2.1
  exact Prod.ext heq (by rw [hb, hb', heq])

/-- Nobody is stuck, all finish, and each pair meets once, the lower as the server, and
    exchanges its information. -/
theorem bootstrap_finishes (h : Reaches (step N info) always init w) :
    ((∃ r < N, ¬ Finished N w r) → ∃ q, (step N info w q).isSome) ∧
    (∃ u, Reaches (step N info) always w u ∧ ∀ r < N, Finished N u r) ∧
    (∀ r < N, ((w.node r).met.map Prod.fst).Nodup ∧
      ∀ m ∈ (w.node r).met, m.1 ≠ r ∧ m.1 < N ∧ m.2 = decide (r < m.1)) ∧
    (∀ r < N, Finished N w r → ∀ q < N, q ≠ r → (q, decide (r < q)) ∈ (w.node r).met ∧
      ∀ slot < N - 1, peerRankForSlot r N slot = q →
        (w.node r).remoteInfos slot = some (info q)) := by
  have hinv := inv_of_reaches h
  refine ⟨exists_step hinv, ?_, fun r hr => ⟨?_, fun m hm => ?_⟩, fun r hr hfin q hq hne => ?_⟩
  · -- Progress makes the rounds left fewer, so a finish is reached.
    refine exists_goal (World.left N) fun t ht hgoal => ?_
    have hinv' := inv_of_reaches (reaches_trans h ht)
    push Not at hgoal
    rcases exists_step hinv' hgoal with ⟨q, hq⟩
    rcases Option.isSome_iff_exists.mp hq with ⟨u, hu⟩
    exact ⟨q, u, trivial, hu, left_lt hinv' hu⟩
  · exact nodup_fst_met hinv
  · -- What is met is a pair before the place.
    rw [(hinv.node r).met] at hm
    rcases List.mem_filterMap.mp hm with ⟨pair, hpair, hmeet⟩
    rcases meet_eq_some (List.mem_of_mem_take hpair) hmeet with ⟨hne, hlt, hb, _⟩
    exact ⟨hne, hlt, hb⟩
  · -- A finished node has met all pairs, its own among them.
    have hmem : (q, decide (r < q)) ∈ (w.node r).met := by
      rw [met_of_finished hinv hfin]
      exact (mem_meet hr).mpr ⟨hne, hq, rfl⟩
    exact ⟨hmem, (hinv.node r).infos hr _ hmem⟩

end Nodes

/-! ## Three nodes -/

/-- The turns of three nodes, the lowest that can go on first. -/
def turns : List Nat :=
  [0, 1, 0, 0, 1, 1, 0, 0, 0, 1, 1, 1, 2, 2, 0, 0, 2, 2, 0, 0, 0, 2, 2, 1, 1, 2, 2, 1, 1, 2]

/-- Three nodes that send their ranks. -/
def threeNodes : World Nat := (run (step 3 id) always turns init).get (by decide +kernel)

/-- Each has met the other two, and none has anything left to do. -/
theorem three_nodes_meet : Finished 3 threeNodes 1 ∧
    ((threeNodes.node 1).met.map Prod.fst).Nodup ∧ (0, false) ∈ (threeNodes.node 1).met ∧
    (2, true) ∈ (threeNodes.node 1).met := by
  have hfin : Finished 3 threeNodes 1 := by
    unfold Finished
    decide +kernel
  rcases bootstrap_finishes (reaches_of_run turns init threeNodes (Option.some_get _).symm) with
    ⟨_, _, honce, hall⟩
  exact ⟨hfin, (honce 1 (by decide)).1, (hall 1 (by decide) hfin 0 (by decide) (by decide)).1,
    (hall 1 (by decide) hfin 2 (by decide) (by decide)).1⟩

end Bootstrap

end Internode

end MKernel
