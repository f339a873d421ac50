import MKernel.Core.SmallNumbers
import MKernel.LocalBroker.Sync

/-!
# Attaching to the Segment

How the processes of a node come to share a vault, in the constructor of the local broker.

Rank 0 creates the segment. If the name is taken, by a segment that an earlier run has left,
it takes the name away and creates again. It then sets the segment up and marks it as
initialised. The others open whatever the name stands for, wait until it has its size and
its mark, and all meet three times; rank 0 takes the name away after the first.

A segment that was left over has its size and its mark. A process that opens the name before
rank 0 has taken it away goes on with that segment, and never meets the others
(`stale_attach`). If no process does, all attach to the segment of rank 0, and the name
stays until they have: rank 0 has left the first `sync`, which all have entered. So all
constructors return (`all_attach`).

System calls that fail for other reasons are left out.

## Main definitions

* `SegmentId`, `Segment`: The segment left over and that of rank 0.
* `Place`: Where a process is in its constructor.
* `World`, `step`: The name, the segments and the processes.
* `InTime`: No process opens the segment left over.
* `Inv`: What every such step keeps.

## Theorems

* `inv_step`: What every such step keeps.
* `exists_step`: Some process can go on, until all are done.
* `all_attach`: All attach to one segment, and return.
* `inTime_of_clean`: Without a segment left over there is no condition.
* `stale_attach`: Otherwise they may be stuck on two.
-/

namespace MKernel

namespace LocalBroker

open MKernel.Core

/-- `MAX_LOCAL_WORLD_SIZE`. -/
def maxLocalWorldSize : Nat := 72

namespace Attach

/-- A segment the name can stand for. -/
inductive SegmentId where
  /-- The one an earlier run has left. -/
  | stale
  /-- The one rank 0 creates. -/
  | fresh
deriving DecidableEq

/-- A segment: whether it has its size, its mark, and the words of its vault. -/
structure Segment where
  sized : Bool
  marked : Bool
  vault : Vault

/-- The three syncs of the constructor. -/
inductive Meeting where
  | first
  | second
  | third
deriving DecidableEq

/-- Where a process is in its constructor. -/
inductive Place where
  | start
  | create
  /-- The name is taken. -/
  | reclaim
  | recreate
  | truncate
  | map
  | clear
  | zero
  | mark
  | openShm
  /-- It has opened a segment, and waits for its size. -/
  | stat (s : SegmentId)
  /-- It is attached to a segment, and waits for its mark. -/
  | await (s : SegmentId)
  | sync (s : SegmentId) (m : Meeting)
  | unlink (s : SegmentId)
  | socket (s : SegmentId)
  | done (s : SegmentId)
  | failed
deriving DecidableEq

/-- The segment a process is attached to. -/
def Place.segment : Place → Option SegmentId
  | .clear | .zero | .mark => some .fresh
  | .await s | .sync s _ | .unlink s | .socket s | .done s => some s
  | _ => none

/-- The name, the segments and the processes, each with where it is in `sync` and how many
    of those it has left. -/
structure World (n : Nat) where
  name : Option SegmentId
  segment : SegmentId → Segment
  place : Fin n → Place
  pc : Fin n → Pc
  round : Fin n → Nat

variable {n : Nat}

/-- `stale` is the vault of a segment that was left over, if there is one. -/
def init (stale : Option Vault) : World n where
  name := stale.map fun _ => .stale
  segment := fun s =>
    match s with
    | .stale => ⟨true, true, stale.getD Vault.init⟩
    | .fresh => ⟨false, false, Vault.init⟩
  place := fun _ => .start
  pc := fun _ => .outside
  round := fun _ => 0

namespace World

variable (w : World n) (p : Fin n)

def goto (pl : Place) : World n := { w with place := Function.update w.place p pl }

def setName (name : Option SegmentId) : World n := { w with name := name }

def setSegment (s : SegmentId) (x : Segment) : World n :=
  { w with segment := Function.update w.segment s x }

/-- What the processes do in the vault of a segment. -/
def meeting (s : SegmentId) : Sync.State n where
  vault := (w.segment s).vault
  pc := w.pc
  round := w.round

/-- The processes after a step in the vault of a segment. -/
def meet (s : SegmentId) (t : Sync.State n) : World n :=
  { w.setSegment s { w.segment s with vault := t.vault } with
    pc := t.pc
    round := t.round }

end World

/-- Where a process goes from a sync. -/
def afterSync (p : Fin n) (s : SegmentId) : Meeting → Place
  | .first => if (p : Nat) = 0 then .unlink s else .sync s .second
  | .second => .socket s
  | .third => .done s

/-- The next step of a process, if it need not wait. -/
def step (w : World n) (p : Fin n) : Option (World n) :=
  match w.place p with
  | .start =>
      some (w.goto p
        (if maxLocalWorldSize < n then .failed else if (p : Nat) = 0 then .create else .openShm))
  | .create =>
      match w.name with
      | none => some ((w.setName (some .fresh)).goto p .truncate)
      | some _ => some (w.goto p .reclaim)
  | .reclaim => some ((w.setName none).goto p .recreate)
  | .recreate =>
      match w.name with
      | none => some ((w.setName (some .fresh)).goto p .truncate)
      | some _ => some (w.goto p .failed)
  | .truncate =>
      some ((w.setSegment .fresh { w.segment .fresh with sized := true }).goto p .map)
  | .map => some (w.goto p .clear)
  | .clear =>
      some ((w.setSegment .fresh
        { w.segment .fresh with
          marked := false
          vault := Vault.init }).goto p .zero)
  | .zero =>
      some ((w.setSegment .fresh { w.segment .fresh with vault := Vault.init }).goto p .mark)
  | .mark =>
      some ((w.setSegment .fresh { w.segment .fresh with marked := true }).goto p
        (.sync .fresh .first))
  | .openShm => w.name.map fun s => w.goto p (.stat s)
  | .stat s => if (w.segment s).sized = true then some (w.goto p (.await s)) else none
  | .await s => if (w.segment s).marked = true then some (w.goto p (.sync s .first)) else none
  | .sync s m =>
      if w.pc p = .outside ∧ (w.segment s).marked = false then some (w.goto p .failed)
      else
        (Sync.step (w.meeting s) p).map fun t =>
          if t.pc p = .outside then (w.meet s t).goto p (afterSync p s m) else w.meet s t
  | .unlink s => some ((w.setName none).goto p (.sync s .second))
  | .socket s => some (w.goto p (.sync s .third))
  | .done _ | .failed => none

/-- No process opens the segment left over. -/
def InTime (w : World n) (p : Fin n) : Prop := w.place p = .openShm → w.name ≠ some .stale

instance (w : World n) (p : Fin n) : Decidable (InTime w p) :=
  inferInstanceAs (Decidable (_ → _))

/-! ## What is known -/

/-- The syncs a process has left. -/
def Place.rounds : Place → Nat
  | .sync _ .second | .unlink _ => 1
  | .sync _ .third | .socket _ => 2
  | .done _ => 3
  | _ => 0

/-- The process is past the mark. -/
def Place.Meets : Place → Prop
  | .sync _ _ | .unlink _ | .socket _ | .done _ => True
  | _ => False

/-- The places of a rank, on the segment of rank 0. -/
def Place.Fits (rank : Nat) : Place → Prop
  | .start => True
  | .create | .reclaim | .recreate | .truncate | .map | .clear | .zero | .mark => rank = 0
  | .openShm => rank ≠ 0
  | .stat s | .await s => rank ≠ 0 ∧ s = .fresh
  | .unlink s => rank = 0 ∧ s = .fresh
  | .sync s _ | .socket s | .done s => s = .fresh
  | .failed => False

/-- The name and the segment, by the place of rank 0. -/
def Leads (w : World n) : Place → Prop
  | .start | .create | .reclaim => w.name ≠ some .fresh ∧
      (w.segment .fresh).sized = false ∧ (w.segment .fresh).marked = false
  | .recreate => w.name = none ∧
      (w.segment .fresh).sized = false ∧ (w.segment .fresh).marked = false
  | .truncate => w.name = some .fresh ∧
      (w.segment .fresh).sized = false ∧ (w.segment .fresh).marked = false
  | .map | .clear | .zero | .mark => w.name = some .fresh ∧
      (w.segment .fresh).sized = true ∧ (w.segment .fresh).marked = false
  | .sync _ .first | .unlink _ => w.name = some .fresh ∧
      (w.segment .fresh).sized = true ∧ (w.segment .fresh).marked = true
  | _ => (w.segment .fresh).sized = true ∧ (w.segment .fresh).marked = true

/-- What is known about one process. -/
structure Own (w : World n) (p : Fin n) : Prop where
  fits : (w.place p).Fits p
  round : w.round p = (w.place p).rounds
  /-- It does not run in a vault elsewhere. -/
  inside : w.pc p ≠ .outside → ∃ m, w.place p = .sync .fresh m
  marked : (w.place p).Meets → (w.segment .fresh).marked = true

/-- What every step in time keeps. -/
structure Inv (w : World n) : Prop where
  meeting : Sync.Inv (w.meeting .fresh)
  own : ∀ p, Own w p
  lead : ∀ p : Fin n, (p : Nat) = 0 → Leads w (w.place p)
  /-- Nobody has been in the vault before it is marked. -/
  vault : (w.segment .fresh).marked = false → (w.segment .fresh).vault = Vault.init

variable {w w' x : World n} {p q : Fin n}

theorem inv_init (stale : Option Vault) : Inv (init stale : World n) where
  meeting := Sync.inv_init
  own := fun _ =>
    { fits := trivial
      round := rfl
      inside := fun h => absurd rfl h
      marked := fun h => h.elim }
  lead := by
    intro p _
    refine ⟨?_, rfl, rfl⟩
    cases stale <;> simp only [init, Option.map_none, Option.map_some, ne_eq, reduceCtorEq,
      Option.some.injEq, not_false_eq_true]
  vault := fun _ => rfl

section Goto

variable {pl : Place}

theorem goto_place_self : (w.goto p pl).place p = pl := Function.update_self ..

theorem goto_place_ne (h : q ≠ p) : (w.goto p pl).place q = w.place q :=
  Function.update_of_ne h ..

/-- A process goes on, outside the vault, after a change of the name and the segment. -/
theorem inv_goto (hinv : Inv w) (hplace : x.place = w.place)
    (hmeeting : x.meeting .fresh = w.meeting .fresh) (hout : w.pc p = .outside)
    (hfits : pl.Fits p) (hround : pl.rounds = (w.place p).rounds)
    (hmark : (w.segment .fresh).marked = true → (x.segment .fresh).marked = true)
    (hmeets : pl.Meets → (x.segment .fresh).marked = true)
    (hlead : (p : Nat) = 0 → Leads x pl)
    (hother : (p : Nat) ≠ 0 → ∀ pl', Leads w pl' → Leads x pl') : Inv (x.goto p pl) where
  meeting := hmeeting ▸ hinv.meeting
  own := by
    have hpc : x.pc = w.pc := congrArg Sync.State.pc hmeeting
    have hrounds : x.round = w.round := congrArg Sync.State.round hmeeting
    intro q
    by_cases hq : q = p
    · subst hq
      exact
        { fits := by rw [goto_place_self]; exact hfits
          round := by
            rw [goto_place_self, hround]
            exact (congrFun hrounds q).trans (hinv.own q).round
          inside := fun h => absurd ((congrFun hpc q).trans hout) h
          marked := by rw [goto_place_self]; exact hmeets }
    · -- The other processes see the same meeting, and a mark that was set.
      have hown := hinv.own q
      have hpl : (x.goto p pl).place q = w.place q := by rw [goto_place_ne hq, hplace]
      exact
        { fits := by rw [hpl]; exact hown.fits
          round := by
            rw [hpl]
            exact (congrFun hrounds q).trans hown.round
          inside := fun h => by
            rw [hpl]
            exact hown.inside fun h0 => h ((congrFun hpc q).trans h0)
          marked := fun h => hmark (hown.marked (hpl ▸ h)) }
  lead := by
    intro q hq
    by_cases hqp : q = p
    · subst hqp
      rw [goto_place_self]
      exact hlead hq
    · -- The process is not rank 0, which therefore still leads.
      have hp : (p : Nat) ≠ 0 := fun h0 => hqp (Fin.ext (hq.trans h0.symm))
      rw [goto_place_ne hqp, hplace]
      exact hother hp _ (hinv.lead q hq)
  vault := by
    intro hx
    -- A segment that is not marked now was not marked before.
    have hw : (w.segment .fresh).marked = false := by
      cases hm : (w.segment .fresh).marked with
      | false => rfl
      | true => exact absurd ((hmark hm).symm.trans hx) (by decide)
    exact (congrArg Sync.State.vault hmeeting).trans (hinv.vault hw)

end Goto

/-! ## One step -/

theorem outside_of_place (hinv : Inv w) (h : ∀ m, w.place p ≠ .sync .fresh m) :
    w.pc p = .outside := by
  by_contra hne
  rcases (hinv.own p).inside hne with ⟨m, hm⟩
  exact h m hm

theorem segment_setSegment (y : Segment) : (w.setSegment .fresh y).segment .fresh = y := by
  simp only [World.setSegment, Function.update_self]

theorem meeting_setSegment {y : Segment} (h : y.vault = (w.segment .fresh).vault) :
    (w.setSegment .fresh y).meeting .fresh = w.meeting .fresh := by
  simp only [World.meeting, segment_setSegment, h]
  rfl

/-- A process goes on and changes nothing else. -/
theorem inv_pass (hinv : Inv w) {pl : Place} (hout : w.pc p = .outside) (hfits : pl.Fits p)
    (hround : pl.rounds = (w.place p).rounds)
    (hmeets : pl.Meets → (w.segment .fresh).marked = true)
    (hlead : (p : Nat) = 0 → Leads w pl) : Inv (w.goto p pl) :=
  inv_goto hinv rfl rfl hout hfits hround id hmeets hlead fun _ _ h => h

/-- Rank 0 goes on. -/
theorem inv_leader (hinv : Inv w) {pl : Place} (hp : (p : Nat) = 0) (hplace : x.place = w.place)
    (hmeeting : x.meeting .fresh = w.meeting .fresh) (hout : w.pc p = .outside)
    (hfits : pl.Fits p) (hround : pl.rounds = (w.place p).rounds)
    (hmark : (w.segment .fresh).marked = true → (x.segment .fresh).marked = true)
    (hmeets : pl.Meets → (x.segment .fresh).marked = true) (hlead : Leads x pl) :
    Inv (x.goto p pl) :=
  inv_goto hinv hplace hmeeting hout hfits hround hmark hmeets (fun _ => hlead)
    fun hne => absurd hp hne

theorem meeting_meet (t : Sync.State n) : (w.meet .fresh t).meeting .fresh = t := by
  simp only [World.meeting, World.meet, segment_setSegment]

/-- The vault of a meeting is marked, and stays as it is otherwise. -/
theorem leads_meet (t : Sync.State n) {pl : Place} (h : Leads w pl) :
    Leads (w.meet .fresh t) pl := by
  have hname : (w.meet .fresh t).name = w.name := rfl
  have hsized : ((w.meet .fresh t).segment .fresh).sized = (w.segment .fresh).sized := by
    simp only [World.meet, segment_setSegment]
  have hmarked : ((w.meet .fresh t).segment .fresh).marked = (w.segment .fresh).marked := by
    simp only [World.meet, segment_setSegment]
  unfold Leads at h ⊢
  rw [hname, hsized, hmarked]
  exact h

/-- A process makes a step in the vault, and may be past its sync then. -/
theorem inv_meet (hinv : Inv w) {m : Meeting} (hplace : w.place p = .sync .fresh m)
    {t : Sync.State n} (ht : Sync.step (w.meeting .fresh) p = some t) {pl : Place}
    (hfits : pl.Fits p) (hround : t.round p = pl.rounds)
    (hinside : t.pc p ≠ .outside → ∃ m, pl = .sync .fresh m)
    (hlead : (p : Nat) = 0 → Leads w pl) : Inv ((w.meet .fresh t).goto p pl) where
  meeting := by
    change Sync.Inv ((w.meet .fresh t).meeting .fresh)
    rw [meeting_meet]
    exact Sync.inv_step hinv.meeting ht
  own := by
    -- Nobody is in a sync of a segment without the mark.
    have hmarked : ((w.meet .fresh t).segment .fresh).marked = true := by
      have hown := (hinv.own p).marked
      rw [hplace] at hown
      simp only [World.meet, segment_setSegment, hown trivial]
    intro q
    by_cases hq : q = p
    · subst hq
      exact
        { fits := by rw [goto_place_self]; exact hfits
          round := by rw [goto_place_self]; exact hround
          inside := by rw [goto_place_self]; exact hinside
          marked := fun _ => hmarked }
    · -- A step in the vault moves no other process.
      have hown := hinv.own q
      rcases Sync.step_eq_some ht with ⟨next, _, rfl⟩
      have hpc := Sync.move_pc_ne (s := w.meeting .fresh) next hq
      have hrounds := Sync.move_round_ne (s := w.meeting .fresh) next hq
      exact
        { fits := by rw [goto_place_ne hq]; exact hown.fits
          round := by rw [goto_place_ne hq]; exact hrounds.trans hown.round
          inside := fun h => by
            rw [goto_place_ne hq]
            exact hown.inside fun h0 => h (hpc.trans h0)
          marked := fun _ => hmarked }
  lead := by
    intro q hq
    by_cases hqp : q = p
    · subst hqp
      rw [goto_place_self]
      exact leads_meet t (hlead hq)
    · rw [goto_place_ne hqp]
      exact leads_meet t (hinv.lead q hq)
  vault := by
    intro hx
    have hown := (hinv.own p).marked
    rw [hplace] at hown
    have hmarked : ((w.meet .fresh t).segment .fresh).marked = true := by
      simp only [World.meet, segment_setSegment, hown trivial]
    -- So this says nothing about the vault at launch.
    exact absurd (hmarked.symm.trans hx) (by decide)

theorem inv_sync (hinv : Inv w) {m : Meeting} (hplace : w.place p = .sync .fresh m)
    {t : Sync.State n} (ht : Sync.step (w.meeting .fresh) p = some t) :
    Inv (if t.pc p = .outside then (w.meet .fresh t).goto p (afterSync p .fresh m)
      else w.meet .fresh t) := by
  have hown := hinv.own p
  have hround := hown.round
  have hlead := hinv.lead p
  rw [hplace] at hround hlead
  by_cases hout : t.pc p = .outside
  · rw [if_pos hout]
    -- The process has left, so it has one call more behind it.
    have hnext : t.round p = w.round p + 1 := by
      rcases Sync.step_eq_some ht with ⟨⟨v, c⟩, _, rfl⟩
      rw [Sync.move_pc_self] at hout
      simp only at hout
      rw [hout, Sync.move_round_outside]
      rfl
    rw [hround] at hnext
    cases m with
    | first =>
        -- After the first sync only rank 0 goes to `shm_unlink`.
        by_cases hp : (p : Nat) = 0
        · rw [afterSync, if_pos hp]
          exact inv_meet hinv hplace ht ⟨hp, rfl⟩ hnext (fun h => absurd hout h) hlead
        · rw [afterSync, if_neg hp]
          exact inv_meet hinv hplace ht rfl hnext (fun h => absurd hout h) fun h0 => absurd h0 hp
    | second => exact inv_meet hinv hplace ht rfl hnext (fun h => absurd hout h) hlead
    | third => exact inv_meet hinv hplace ht rfl hnext (fun h => absurd hout h) hlead
  · rw [if_neg hout]
    have hsame : t.round p = w.round p := by
      rcases Sync.step_eq_some ht with ⟨next, _, rfl⟩
      rw [Sync.move_pc_self] at hout
      exact Sync.move_round_self hout
    -- As long as it is in the sync, it stays where it is.
    have hstay : w.meet .fresh t = (w.meet .fresh t).goto p (.sync .fresh m) := by
      rw [World.goto, ← hplace]
      exact (congrArg (fun f => { w.meet .fresh t with place := f })
        (Function.update_eq_self p w.place)).symm
    rw [hstay]
    exact inv_meet hinv hplace ht rfl (hsame.trans hround) (fun _ => ⟨m, rfl⟩) hlead

/-- A place outside the syncs. -/
def Place.Apart : Place → Prop
  | .sync _ _ => False
  | _ => True

/-- Where a process outside the syncs is, it is in no vault. -/
theorem outside_of_apart (hinv : Inv w) {pl : Place} (hplace : w.place p = pl) (h : pl.Apart) :
    w.pc p = .outside := by
  refine outside_of_place hinv fun m hm => ?_
  rw [← hplace, hm] at h
  exact h

/-- Rank 0 creates the segment. -/
theorem inv_create (hinv : Inv w) (hp : (p : Nat) = 0)
    (hplace : w.place p = .create ∨ w.place p = .recreate) (hout : w.pc p = .outside) :
    Inv ((w.setName (some .fresh)).goto p .truncate) := by
  have hlead := hinv.lead p hp
  have hround : Place.truncate.rounds = (w.place p).rounds := by
    rcases hplace with h | h <;> rw [h] <;> rfl
  refine inv_leader hinv hp rfl rfl hout hp hround id (fun hm => hm.elim) ?_
  rcases hplace with h | h <;> rw [h] at hlead <;> exact ⟨rfl, hlead.2⟩

/-- Rank 0 takes the name, from a segment left over if there is one. -/
theorem inv_claim (hinv : Inv w)
    (hplace : w.place p = .create ∨ w.place p = .reclaim ∨ w.place p = .recreate)
    (h : step w p = some w') : Inv w' := by
  have hfits := (hinv.own p).fits
  have hlead := hinv.lead p
  rcases hplace with hplace | hplace | hplace
  · have hout := outside_of_apart hinv hplace trivial
    rw [hplace] at hfits hlead
    simp only [step, hplace] at h
    cases hname : w.name with
    | none =>
        simp only [hname, Option.some.injEq] at h
        rw [← h]
        exact inv_create hinv hfits (Or.inl hplace) hout
    | some s =>
        simp only [hname, Option.some.injEq] at h
        rw [← h]
        exact inv_pass hinv hout hfits (by rw [hplace]; rfl) (fun hm => hm.elim) hlead
  · have hout := outside_of_apart hinv hplace trivial
    rw [hplace] at hfits hlead
    simp only [step, hplace, Option.some.injEq] at h
    rw [← h]
    exact inv_leader hinv hfits rfl rfl hout hfits (by rw [hplace]; rfl) id
      (fun hm => hm.elim) ⟨rfl, (hlead hfits).2⟩
  · have hout := outside_of_apart hinv hplace trivial
    rw [hplace] at hfits hlead
    -- Nobody else takes the name, so it is free now.
    have hname := (hlead hfits).1
    simp only [step, hplace, hname, Option.some.injEq] at h
    rw [← h]
    exact inv_create hinv hfits (Or.inr hplace) hout

/-- Before the mark rank 0 empties a vault that is empty already. -/
theorem inv_empty (hinv : Inv w) {pl : Place} {y : Segment} (hp : (p : Nat) = 0)
    (hout : w.pc p = .outside) (hround : (w.place p).rounds = 0)
    (hlead : w.name = some .fresh ∧ (w.segment .fresh).sized = true ∧
      (w.segment .fresh).marked = false)
    (hpl : pl = .zero ∨ pl = .mark) (hsized : y.sized = true) (hmarked : y.marked = false)
    (hvault : y.vault = Vault.init) : Inv ((w.setSegment .fresh y).goto p pl) := by
  rcases hlead with ⟨hname, _, hmark⟩
  have hmeeting := meeting_setSegment (hvault.trans (hinv.vault hmark).symm)
  have hleads : Leads (w.setSegment .fresh y) pl := by
    rcases hpl with rfl | rfl <;>
      exact ⟨hname, by rw [segment_setSegment]; exact hsized,
        by rw [segment_setSegment]; exact hmarked⟩
  refine inv_leader hinv hp rfl hmeeting hout ?_ ?_
    (fun hm => absurd (hmark.symm.trans hm) (by decide)) ?_ hleads
  · rcases hpl with rfl | rfl <;> exact hp
  · rcases hpl with rfl | rfl <;> exact hround.symm
  · rcases hpl with rfl | rfl <;> exact fun hm => hm.elim

/-- Rank 0 makes the segment ready and marks it. -/
theorem inv_prepare (hinv : Inv w)
    (hplace : w.place p = .truncate ∨ w.place p = .map ∨ w.place p = .clear ∨
      w.place p = .zero ∨ w.place p = .mark)
    (h : step w p = some w') : Inv w' := by
  have hfits := (hinv.own p).fits
  have hlead := hinv.lead p
  rcases hplace with hplace | hplace | hplace | hplace | hplace
  · have hout := outside_of_apart hinv hplace trivial
    rw [hplace] at hfits hlead
    rcases hlead hfits with ⟨hname, _, hmark⟩
    simp only [step, hplace, Option.some.injEq] at h
    rw [← h]
    refine inv_leader hinv hfits rfl (meeting_setSegment rfl) hout hfits
      (by rw [hplace]; rfl) ?_ (fun hm => hm.elim) ⟨hname, ?_⟩
    · rw [segment_setSegment]
      exact id
    · rw [segment_setSegment]
      exact ⟨rfl, hmark⟩
  · have hout := outside_of_apart hinv hplace trivial
    rw [hplace] at hfits hlead
    simp only [step, hplace, Option.some.injEq] at h
    rw [← h]
    exact inv_pass hinv hout hfits (by rw [hplace]; rfl) (fun hm => hm.elim) hlead
  · have hout := outside_of_apart hinv hplace trivial
    rw [hplace] at hfits hlead
    simp only [step, hplace, Option.some.injEq] at h
    rw [← h]
    exact inv_empty hinv hfits hout (by rw [hplace]; rfl) (hlead hfits) (Or.inl rfl)
      (hlead hfits).2.1 rfl rfl
  · have hout := outside_of_apart hinv hplace trivial
    rw [hplace] at hfits hlead
    simp only [step, hplace, Option.some.injEq] at h
    rw [← h]
    exact inv_empty hinv hfits hout (by rw [hplace]; rfl) (hlead hfits) (Or.inr rfl)
      (hlead hfits).2.1 (hlead hfits).2.2 rfl
  · have hout := outside_of_apart hinv hplace trivial
    rw [hplace] at hfits hlead
    rcases hlead hfits with ⟨hname, hsized, _⟩
    simp only [step, hplace, Option.some.injEq] at h
    rw [← h]
    -- From here on the segment is marked, and the rank is at its first sync.
    refine inv_leader hinv hfits rfl (meeting_setSegment rfl) hout rfl
      (by rw [hplace]; rfl) (fun _ => ?_) (fun _ => ?_) ⟨hname, ?_⟩
    · rw [segment_setSegment]
    · rw [segment_setSegment]
    · rw [segment_setSegment]
      exact ⟨hsized, rfl⟩

/-- The other ranks open the segment, and wait for its size and its mark. -/
theorem inv_attach (hinv : Inv w) (hok : InTime w p)
    (hplace : w.place p = .openShm ∨ (∃ s, w.place p = .stat s) ∨ ∃ s, w.place p = .await s)
    (h : step w p = some w') : Inv w' := by
  have hfits := (hinv.own p).fits
  rcases hplace with hplace | ⟨s, hplace⟩ | ⟨s, hplace⟩
  · have hout := outside_of_apart hinv hplace trivial
    rw [hplace] at hfits
    simp only [step, hplace] at h
    rcases Option.map_eq_some_iff.mp h with ⟨s, hname, rfl⟩
    -- In time means that the name is not that of the segment left over.
    have hs : s = .fresh := by
      cases s with
      | fresh => rfl
      | stale => exact absurd hname (hok hplace)
    exact inv_pass hinv hout ⟨hfits, hs⟩ (by rw [hplace]; rfl) (fun hm => hm.elim)
      fun h0 => absurd h0 hfits
  · have hout := outside_of_apart hinv hplace trivial
    rw [hplace] at hfits
    simp only [step, hplace, Option.ite_none_right_eq_some, Option.some.injEq] at h
    rw [← h.2]
    exact inv_pass hinv hout hfits (by rw [hplace]; rfl) (fun hm => hm.elim)
      fun h0 => absurd h0 hfits.1
  · have hout := outside_of_apart hinv hplace trivial
    rw [hplace] at hfits
    simp only [step, hplace, Option.ite_none_right_eq_some, Option.some.injEq] at h
    rw [← h.2]
    rw [hfits.2] at h
    exact inv_pass hinv hout hfits.2 (by rw [hplace]; rfl) (fun _ => h.1)
      fun h0 => absurd h0 hfits.1

theorem inv_step (hn : n ≤ maxLocalWorldSize) (hinv : Inv w) (hok : InTime w p)
    (h : step w p = some w') : Inv w' := by
  have hfits := (hinv.own p).fits
  have hmarked := (hinv.own p).marked
  have hlead := hinv.lead p
  have hout := outside_of_apart hinv (p := p) rfl
  cases hplace : w.place p with
  | start =>
      rw [hplace] at hlead hout
      simp only [step, hplace, if_neg (Nat.not_lt.mpr hn), Option.some.injEq] at h
      rw [← h]
      by_cases hp : (p : Nat) = 0
      · rw [if_pos hp]
        exact inv_pass hinv (hout trivial) hp (by rw [hplace]; rfl) (fun hm => hm.elim) hlead
      · rw [if_neg hp]
        exact inv_pass hinv (hout trivial) hp (by rw [hplace]; rfl) (fun hm => hm.elim)
          fun h0 => absurd h0 hp
  | create => exact inv_claim hinv (Or.inl hplace) h
  | reclaim => exact inv_claim hinv (Or.inr (Or.inl hplace)) h
  | recreate => exact inv_claim hinv (Or.inr (Or.inr hplace)) h
  | truncate => exact inv_prepare hinv (Or.inl hplace) h
  | map => exact inv_prepare hinv (Or.inr (Or.inl hplace)) h
  | clear => exact inv_prepare hinv (Or.inr (Or.inr (Or.inl hplace))) h
  | zero => exact inv_prepare hinv (Or.inr (Or.inr (Or.inr (Or.inl hplace)))) h
  | mark => exact inv_prepare hinv (Or.inr (Or.inr (Or.inr (Or.inr hplace)))) h
  | openShm => exact inv_attach hinv hok (Or.inl hplace) h
  | stat s => exact inv_attach hinv hok (Or.inr (Or.inl ⟨s, hplace⟩)) h
  | await s => exact inv_attach hinv hok (Or.inr (Or.inr ⟨s, hplace⟩)) h
  | sync s m =>
      rw [hplace] at hfits hmarked
      have hs : s = .fresh := hfits
      subst hs
      -- The segment is marked, so the sync does not throw.
      have hmark := hmarked trivial
      simp only [step, hplace, hmark, Bool.true_eq_false, and_false, if_false] at h
      rcases Option.map_eq_some_iff.mp h with ⟨t, ht, rfl⟩
      exact inv_sync hinv hplace ht
  | unlink s =>
      rw [hplace] at hfits hlead hout hmarked
      simp only [step, hplace, Option.some.injEq] at h
      rw [← h]
      exact inv_leader hinv hfits.1 rfl rfl (hout trivial) hfits.2 (by rw [hplace]; rfl) id
        (fun _ => hmarked trivial) (hlead hfits.1).2
  | socket s =>
      rw [hplace] at hfits hlead hout hmarked
      simp only [step, hplace, Option.some.injEq] at h
      rw [← h]
      exact inv_pass hinv (hout trivial) hfits (by rw [hplace]; rfl)
        (fun _ => hmarked trivial) hlead
  | done s => simp only [step, hplace, reduceCtorEq] at h
  | failed => simp only [step, hplace, reduceCtorEq] at h

theorem inv_of_reaches (hn : n ≤ maxLocalWorldSize) {stale : Option Vault}
    (h : Reaches step InTime (init stale) w) : Inv w :=
  invariant_of_reaches Inv (fun _ _ _ hinv hok hstep => inv_step hn hinv hok hstep) h
    (inv_init stale)

/-! ## Nobody is stuck -/

/-- The constructor has returned. -/
def Done (w : World n) (p : Fin n) : Prop := ∃ s, w.place p = .done s

theorem isSome_sync {m : Meeting} (hplace : w.place p = .sync .fresh m)
    (hmark : (w.segment .fresh).marked = true)
    (h : (Sync.step (w.meeting .fresh) p).isSome) : (step w p).isSome := by
  simp only [step, hplace, hmark, Bool.true_eq_false, and_false, if_false, Option.isSome_map, h]

theorem inTime_of_ne {pl : Place} (hplace : w.place p = pl) (h : pl ≠ .openShm) : InTime w p :=
  fun hopen => absurd (hplace.symm.trans hopen) h

/-- Before the mark rank 0 can go on. -/
theorem isSome_step_of_unmarked (hinv : Inv w) (hp : (p : Nat) = 0)
    (hmark : (w.segment .fresh).marked = false) : InTime w p ∧ (step w p).isSome := by
  have hfits := (hinv.own p).fits
  have hlead := hinv.lead p hp
  have hno : ∀ {q : Prop}, (w.segment .fresh).marked = true → q := fun h =>
    absurd (hmark.symm.trans h) (by decide)
  cases hplace : w.place p <;> rw [hplace] at hfits hlead
  case openShm => exact absurd hp hfits
  case stat s => exact absurd hp hfits.1
  case await s => exact absurd hp hfits.1
  case sync s m => cases m <;> first | exact hno hlead.2.2 | exact hno hlead.2
  case unlink s => exact hno hlead.2.2
  case socket s => exact hno hlead.2
  case done s => exact hno hlead.2
  case failed => exact hfits.elim
  all_goals
    refine ⟨inTime_of_ne hplace (by simp only [ne_eq, reduceCtorEq, not_false_eq_true]), ?_⟩
    simp only [step, hplace, Option.isSome_some]
  case create => cases w.name <;> rfl
  case recreate => cases w.name <;> rfl

/-- The name stays until all are past it. -/
theorem name_of_open (hinv : Inv w) {r : Fin n} (hr : (r : Nat) = 0)
    (hmark : (w.segment .fresh).marked = true) (hplace : w.place p = .openShm) :
    w.name = some .fresh := by
  have hfits := (hinv.own r).fits
  have hround := (hinv.own r).round
  have hlead := hinv.lead r hr
  -- Rank 0 cannot have left a sync that this process has not entered, so it is in the first one
  -- at most.
  have hle : w.round r ≤ 0 := by
    have hle := Sync.round_le_entered hinv.meeting r p
    have hout : (w.meeting .fresh).pc p = .outside := outside_of_apart hinv hplace trivial
    have hzero := (hinv.own p).round
    rw [hplace] at hzero
    rw [Sync.entered, if_pos hout] at hle
    exact Nat.le_trans hle (Nat.le_of_eq hzero)
  have hno : ∀ {q : Prop}, (w.segment .fresh).marked = false → q := fun h =>
    absurd (hmark.symm.trans h) (by decide)
  -- The cases that are left are those of rank 0 in front of the first sync.
  rw [hround] at hle
  cases hpl : w.place r <;> rw [hpl] at hfits hlead hle
  case openShm => exact absurd hr hfits
  case stat s => exact absurd hr hfits.1
  case await s => exact absurd hr hfits.1
  -- In the first sync the name is still there, which only `shm_unlink` removes.
  case sync s m =>
    cases m
    case first => exact hlead.1
    all_goals exact absurd hle (Nat.not_succ_le_zero _)
  case unlink s => exact hlead.1
  case socket s => exact absurd hle (Nat.not_succ_le_zero _)
  case done s => exact absurd hle (Nat.not_succ_le_zero _)
  case failed => exact hfits.elim
  -- Before the mark, which is set here.
  all_goals exact hno hlead.2.2

theorem sized_of_marked (hinv : Inv w) {r : Fin n} (hr : (r : Nat) = 0)
    (hmark : (w.segment .fresh).marked = true) : (w.segment .fresh).sized = true := by
  have hfits := (hinv.own r).fits
  have hlead := hinv.lead r hr
  have hno : ∀ {q : Prop}, (w.segment .fresh).marked = false → q := fun h =>
    absurd (hmark.symm.trans h) (by decide)
  cases hpl : w.place r <;> rw [hpl] at hfits hlead
  case openShm => exact absurd hr hfits
  case stat s => exact absurd hr hfits.1
  case await s => exact absurd hr hfits.1
  case sync s m => cases m <;> first | exact hlead.2.1 | exact hlead.1
  case unlink s => exact hlead.2.1
  case socket s => exact hlead.1
  case done s => exact hlead.1
  case failed => exact hfits.elim
  all_goals exact hno hlead.2.2

/-- After it, one that is neither in a sync nor done can go on. -/
theorem isSome_step_of_marked (hinv : Inv w) {r : Fin n} (hr : (r : Nat) = 0)
    (hmark : (w.segment .fresh).marked = true) (hsync : ∀ m, w.place p ≠ .sync .fresh m)
    (hdone : ¬ Done w p) : InTime w p ∧ (step w p).isSome := by
  have hfits := (hinv.own p).fits
  have hlead := hinv.lead p
  have hsized := sized_of_marked hinv hr hmark
  have hno : ∀ {q : Prop}, (w.segment .fresh).marked = false → q := fun h =>
    absurd (hmark.symm.trans h) (by decide)
  cases hplace : w.place p <;> rw [hplace] at hfits hlead hsync
  case start =>
    -- These steps need not wait for anybody.
    refine ⟨inTime_of_ne hplace (by simp only [ne_eq, reduceCtorEq, not_false_eq_true]), ?_⟩
    simp only [step, hplace, Option.isSome_some]
  case openShm =>
    -- The name is there as long as somebody has still to open it.
    have hname := name_of_open hinv hr hmark hplace
    refine ⟨fun _ => by simp only [hname, ne_eq, Option.some.injEq, reduceCtorEq,
      not_false_eq_true], ?_⟩
    simp only [step, hplace, hname, Option.map_some, Option.isSome_some]
  case stat s =>
    refine ⟨inTime_of_ne hplace (by simp only [ne_eq, reduceCtorEq, not_false_eq_true]), ?_⟩
    simp only [step, hplace, hfits.2, hsized, if_true, Option.isSome_some]
  case await s =>
    refine ⟨inTime_of_ne hplace (by simp only [ne_eq, reduceCtorEq, not_false_eq_true]), ?_⟩
    simp only [step, hplace, hfits.2, hmark, if_true, Option.isSome_some]
  case sync s m =>
    have hs : s = .fresh := hfits
    subst hs
    exact absurd rfl (hsync m)
  case unlink s =>
    refine ⟨inTime_of_ne hplace (by simp only [ne_eq, reduceCtorEq, not_false_eq_true]), ?_⟩
    simp only [step, hplace, Option.isSome_some]
  case socket s =>
    refine ⟨inTime_of_ne hplace (by simp only [ne_eq, reduceCtorEq, not_false_eq_true]), ?_⟩
    simp only [step, hplace, Option.isSome_some]
  case done s => exact absurd ⟨s, hplace⟩ hdone
  case failed => exact hfits.elim
  -- Rank 0 is past the mark, so it does not create any more.
  all_goals exact hno (hlead hfits).2.2

/-- Where all are in their syncs or done, one of those who have left the fewest can go on. -/
theorem isSome_step_of_syncs (hinv : Inv w) (hmark : (w.segment .fresh).marked = true)
    (hall : ∀ q, (∃ m, w.place q = .sync .fresh m) ∨ Done w q) (hp : ¬ Done w p) :
    ∃ q, InTime w q ∧ (step w q).isSome := by
  have hgo : ∀ q, (Sync.step (w.meeting .fresh) q).isSome → ¬ Done w q →
      InTime w q ∧ (step w q).isSome := by
    intro q hstep hq
    rcases hall q with ⟨m, hm⟩ | hdone
    · exact ⟨inTime_of_ne hm (by simp only [ne_eq, reduceCtorEq, not_false_eq_true]),
        isSome_sync hm hmark hstep⟩
    · exact absurd hdone hq
  -- A process has three calls, and is done after the last.
  have hless : ∀ q, w.round q ≤ 2 ↔ ¬ Done w q := by
    intro q
    rw [(hinv.own q).round]
    rcases hall q with ⟨m, hm⟩ | ⟨s, hs⟩
    · rw [Done, hm]
      cases m <;> simp only [Place.rounds, reduceCtorEq, exists_false, not_false_eq_true,
        Nat.zero_le, Nat.one_le_ofNat, le_refl]
    · rw [Done, hs]
      simp only [Place.rounds, Nat.reduceLeDiff, Place.done.injEq, exists_eq', not_true_eq_false]
  -- One of those that have left the fewest calls goes on.
  rcases Finset.exists_min_image Finset.univ w.round ⟨p, Finset.mem_univ p⟩ with
    ⟨f, _, hmin⟩
  have hf : ¬ Done w f :=
    (hless f).mp (Nat.le_trans (hmin p (Finset.mem_univ p)) ((hless p).mpr hp))
  by_cases hout : ∃ q, w.round q = w.round f ∧ w.pc q = .outside
  · -- It may be about to enter its next call, for which it need not wait.
    rcases hout with ⟨q, hq, hpc⟩
    have hpc' : (w.meeting .fresh).pc q = .outside := hpc
    refine ⟨q, hgo q ?_ ((hless q).mp (hq ▸ (hless f).mpr hf))⟩
    exact Sync.isSome_step (by rw [hpc']; simp only [reduceCtorEq, false_and, not_false_eq_true])
      (by rw [hpc']; simp only [reduceCtorEq, false_and, not_false_eq_true])
  · push Not at hout
    -- Otherwise all have entered the call it is in, and the barrier lets one of them go on.
    have hentered : ∀ q, w.round f < Sync.entered (w.meeting .fresh) q := by
      intro q
      rcases Nat.lt_or_eq_of_le (hmin q (Finset.mem_univ q)) with hlt | heq
      · exact Nat.lt_of_lt_of_le hlt (Nat.le_add_right _ _)
      · have hpc : (w.meeting .fresh).pc q ≠ .outside := hout q heq.symm
        rw [Sync.entered, if_neg hpc]
        exact Nat.lt_succ_of_le (Nat.le_of_eq heq)
    rcases Sync.exists_step hinv.meeting hentered ⟨rfl, hout f rfl⟩ with ⟨q, hq, hsome⟩
    exact ⟨q, hgo q hsome ((hless q).mp (Nat.le_trans (Nat.le_of_eq hq.1) ((hless f).mpr hf)))⟩

/-- Somebody can go on, in time, until all are done. -/
theorem exists_step (hinv : Inv w) (h : ∃ p, ¬ Done w p) :
    ∃ p, InTime w p ∧ (step w p).isSome := by
  rcases h with ⟨p, hp⟩
  have hr : ((⟨0, by have := p.isLt; omega⟩ : Fin n) : Nat) = 0 := rfl
  cases hmark : (w.segment .fresh).marked with
  | false => exact ⟨_, isSome_step_of_unmarked hinv hr hmark⟩
  | true =>
      by_cases hall : ∀ q, (∃ m, w.place q = .sync .fresh m) ∨ Done w q
      · exact isSome_step_of_syncs hinv hmark hall hp
      · push Not at hall
        rcases hall with ⟨q, hq, hdone⟩
        exact ⟨q, isSome_step_of_marked hinv hr hmark hq hdone⟩

/-! ## All return -/

/-- The steps that a process has left, those in its syncs apart. -/
def Place.left : Place → Nat
  | .start => 20
  | .create => 19
  | .reclaim => 18
  | .recreate => 17
  | .truncate => 16
  | .map => 15
  | .clear => 14
  | .zero => 13
  | .mark | .openShm => 12
  | .stat _ => 11
  | .await _ => 10
  | .sync _ .first => 9
  | .unlink _ => 8
  | .sync _ .second => 7
  | .socket _ => 6
  | .sync _ .third => 5
  | .done _ | .failed => 0

/-- The steps that are left. -/
def left (w : World n) : Nat := ∑ p, (8 * (w.place p).left + (w.pc p).left)

theorem left_of_lt (hplace : ∀ q, q ≠ p → w'.place q = w.place q)
    (hpc : ∀ q, q ≠ p → w'.pc q = w.pc q)
    (hlt : 8 * (w'.place p).left + (w'.pc p).left < 8 * (w.place p).left + (w.pc p).left) :
    left w' < left w := by
  refine Finset.sum_lt_sum (fun q _ => ?_) ⟨p, Finset.mem_univ p, hlt⟩
  by_cases hq : q = p
  · rw [hq]
    exact Nat.le_of_lt hlt
  · rw [hplace q hq, hpc q hq]

theorem left_goto {pl : Place} (hplace : x.place = w.place) (hpc : x.pc = w.pc)
    (hlt : pl.left < (w.place p).left) : left (x.goto p pl) < left w := by
  refine left_of_lt (p := p) (fun q hq => ?_) (fun q _ => congrFun hpc q) ?_
  · rw [goto_place_ne hq, hplace]
  · rw [goto_place_self]
    have hsame : (x.goto p pl).pc p = w.pc p := congrFun hpc p
    rw [hsame]
    omega

theorem left_afterSync (p : Fin n) (s : SegmentId) (m : Meeting) :
    (afterSync p s m).left < (Place.sync s m).left := by
  cases m with
  | first =>
      rw [afterSync]
      split <;> simp only [Place.left, Nat.reduceLT]
  | second => simp only [afterSync, Place.left, Nat.reduceLT]
  | third => simp only [afterSync, Place.left, Nat.reduceLT]

theorem left_sync {s : SegmentId} {m : Meeting} (hplace : w.place p = .sync s m)
    {t : Sync.State n} (ht : Sync.step (w.meeting s) p = some t) :
    left (if t.pc p = .outside then (w.meet s t).goto p (afterSync p s m) else w.meet s t) <
      left w := by
  rcases Sync.step_eq_some ht with ⟨next, hnext, rfl⟩
  have hpc : ∀ q, q ≠ p → ((w.meeting s).move p next).pc q = w.pc q := fun q hq =>
    Sync.move_pc_ne next hq
  have hafter := left_afterSync p s m
  have hpos := (w.pc p).left_pos
  by_cases hout : ((w.meeting s).move p next).pc p = .outside
  · rw [if_pos hout]
    refine left_of_lt (p := p) (fun q hq => goto_place_ne hq) hpc ?_
    have hpc' : (((w.meet s ((w.meeting s).move p next)).goto p (afterSync p s m)).pc p) =
      .outside := hout
    rw [goto_place_self, hpc', hplace]
    simp only [Pc.left]
    omega
  · rw [if_neg hout]
    refine left_of_lt (p := p) (fun q _ => rfl) hpc ?_
    refine Nat.add_lt_add_left ?_ _
    rw [Sync.move_pc_self] at hout
    have hself : (w.meet s ((w.meeting s).move p next)).pc p = next.2 := Sync.move_pc_self next
    rw [hself]
    exact (Sync.syncStep_left hnext).resolve_right fun h => hout h

theorem left_lt (h : step w p = some w') : left w' < left w := by
  cases hplace : w.place p with
  | start =>
      simp only [step, hplace, Option.some.injEq] at h
      rw [← h]
      refine left_goto rfl rfl ?_
      rw [hplace]
      -- All places that may come next have fewer steps left.
      split
      · decide
      · split <;> decide
  | create =>
      simp only [step, hplace] at h
      cases hname : w.name <;> simp only [hname, Option.some.injEq] at h <;> rw [← h] <;>
        exact left_goto rfl rfl (by rw [hplace]; decide)
  | recreate =>
      simp only [step, hplace] at h
      cases hname : w.name <;> simp only [hname, Option.some.injEq] at h <;> rw [← h] <;>
        exact left_goto rfl rfl (by rw [hplace]; decide)
  | openShm =>
      simp only [step, hplace] at h
      rcases Option.map_eq_some_iff.mp h with ⟨s, _, rfl⟩
      exact left_goto rfl rfl (by rw [hplace]; simp only [Place.left, Nat.reduceLT])
  | stat s =>
      simp only [step, hplace, Option.ite_none_right_eq_some, Option.some.injEq] at h
      rw [← h.2]
      exact left_goto rfl rfl (by rw [hplace]; simp only [Place.left, Nat.reduceLT])
  | await s =>
      simp only [step, hplace, Option.ite_none_right_eq_some, Option.some.injEq] at h
      rw [← h.2]
      exact left_goto rfl rfl (by rw [hplace]; simp only [Place.left, Nat.reduceLT])
  | sync s m =>
      simp only [step, hplace] at h
      by_cases hfail : w.pc p = .outside ∧ (w.segment s).marked = false
      · -- Here `sync` fails, and the process is through.
        rw [if_pos hfail, Option.some.injEq] at h
        rw [← h]
        refine left_goto rfl rfl ?_
        rw [hplace]
        cases m <;> simp only [Place.left, Nat.reduceLT]
      · rw [if_neg hfail] at h
        rcases Option.map_eq_some_iff.mp h with ⟨t, ht, rfl⟩
        -- The barrier itself has only so many steps.
        exact left_sync hplace ht
  | unlink s =>
      simp only [step, hplace, Option.some.injEq] at h
      rw [← h]
      exact left_goto rfl rfl (by rw [hplace]; simp only [Place.left, Nat.reduceLT])
  | socket s =>
      simp only [step, hplace, Option.some.injEq] at h
      rw [← h]
      exact left_goto rfl rfl (by rw [hplace]; simp only [Place.left, Nat.reduceLT])
  | done s => simp only [step, hplace, reduceCtorEq] at h
  | failed => simp only [step, hplace, reduceCtorEq] at h
  | _ =>
      simp only [step, hplace, Option.some.injEq] at h
      rw [← h]
      exact left_goto rfl rfl (by rw [hplace]; decide)

theorem segment_of_fits {pl : Place} {rank : Nat} {s : SegmentId} (h : pl.Fits rank)
    (hs : pl.segment = some s) : s = .fresh := by
  cases pl with
  | clear | zero | mark => exact (Option.some.inj hs).symm
  | await s' | unlink s' => exact (Option.some.inj hs).symm.trans h.2
  | sync s' m => exact (Option.some.inj hs).symm.trans h
  | socket s' | done s' => exact (Option.some.inj hs).symm.trans h
  | _ => exact absurd hs (by simp only [Place.segment, reduceCtorEq, not_false_eq_true])

/-- If nobody opens the segment that was left over, all attach to that of rank 0, some can go
    on until all are done, and all return. -/
theorem all_attach (hn : n ≤ maxLocalWorldSize) {stale : Option Vault}
    (h : Reaches step InTime (init stale) w) :
    (∀ p q s s', (w.place p).segment = some s → (w.place q).segment = some s' → s = s') ∧
    ((∃ p, ¬ Done w p) → ∃ p, InTime w p ∧ (step w p).isSome) ∧
    ∃ u, Reaches step InTime w u ∧ ∀ p, Done u p := by
  have hinv := inv_of_reaches hn h
  refine ⟨fun p q s s' hs hs' => ?_, exists_step hinv, ?_⟩
  · exact (segment_of_fits (hinv.own p).fits hs).trans
      (segment_of_fits (hinv.own q).fits hs').symm
  · refine exists_goal left fun t ht hgoal => ?_
    push Not at hgoal
    rcases exists_step (inv_of_reaches hn (reaches_trans h ht)) hgoal with ⟨p, hok, hsome⟩
    rcases Option.isSome_iff_exists.mp hsome with ⟨u, hu⟩
    exact ⟨p, u, hok, hu, left_lt hu⟩

/-! ## Without a segment left over -/

theorem name_of_step (h : step w p = some w') (hname : w.name ≠ some .stale) :
    w'.name ≠ some .stale := by
  cases hplace : w.place p with
  | create =>
      simp only [step, hplace] at h
      cases hn : w.name <;> simp only [hn, Option.some.injEq] at h <;> rw [← h]
      · -- Whatever is created here is fresh.
        exact fun heq => absurd (Option.some.inj heq) (by decide)
      · exact hname
  | recreate =>
      simp only [step, hplace] at h
      cases hn : w.name <;> simp only [hn, Option.some.injEq] at h <;> rw [← h]
      · exact fun heq => absurd (Option.some.inj heq) (by decide)
      · exact hname
  | reclaim =>
      simp only [step, hplace, Option.some.injEq] at h
      rw [← h]
      -- The name is removed.
      exact (Option.some_ne_none _).symm
  | unlink s =>
      simp only [step, hplace, Option.some.injEq] at h
      rw [← h]
      exact (Option.some_ne_none _).symm
  | openShm =>
      simp only [step, hplace] at h
      rcases Option.map_eq_some_iff.mp h with ⟨s, _, rfl⟩
      exact hname
  | stat s =>
      simp only [step, hplace, Option.ite_none_right_eq_some, Option.some.injEq] at h
      rw [← h.2]
      exact hname
  | await s =>
      simp only [step, hplace, Option.ite_none_right_eq_some, Option.some.injEq] at h
      rw [← h.2]
      exact hname
  | sync s m =>
      simp only [step, hplace] at h
      by_cases hfail : w.pc p = .outside ∧ (w.segment s).marked = false
      · rw [if_pos hfail, Option.some.injEq] at h
        rw [← h]
        exact hname
      · rw [if_neg hfail] at h
        rcases Option.map_eq_some_iff.mp h with ⟨t, ht, rfl⟩
        split <;> exact hname
  | done s => simp only [step, hplace, reduceCtorEq] at h
  | failed => simp only [step, hplace, reduceCtorEq] at h
  | _ =>
      simp only [step, hplace, Option.some.injEq] at h
      rw [← h]
      exact hname

/-- Without a segment left over every run is in time. -/
theorem inTime_of_clean (h : Reaches step always (init none) w) :
    Reaches step InTime (init none) w := by
  refine reaches_strengthen (fun t p u ht _ _ _ => ?_) h
  exact invariant_of_reaches (fun x => x.name ≠ some .stale)
    (fun _ _ _ hname _ hstep => name_of_step hstep hname) ht (by
      simp only [init, Option.map_none, ne_eq, reduceCtorEq, not_false_eq_true])

/-! ## Two processes -/

/-- A segment that was left over, of a run that ended between two syncs. -/
def leftOver : Option Vault := some Vault.init

/-- Rank 0 creates its segment before process 1 opens the name. -/
def late : List (Fin 2) := [1, 0, 0, 0, 0, 0, 0, 0, 1, 0, 0, 1, 1]

def attached : World 2 := (run step InTime late (init leftOver)).get (by decide +kernel)

theorem late_attach : (attached.place 0).segment = some .fresh ∧
    (attached.place 1).segment = some .fresh ∧
    ∃ u, Reaches step InTime attached u ∧ ∀ p, Done u p := by
  have h := all_attach (by decide) (reaches_of_run late (init leftOver) attached
    (Option.some_get _).symm)
  have h0 : (attached.place 0).segment = some .fresh := by decide +kernel
  rcases Option.isSome_iff_exists.mp
    (show (attached.place 1).segment.isSome = true by decide +kernel) with ⟨s, hs⟩
  exact ⟨h0, by rw [hs, h.1 1 0 s .fresh hs h0], h.2.2⟩

/-- Process 1 opens the segment left over before rank 0 comes, and both wait for the other. -/
def early : List (Fin 2) := [1, 1, 1, 1, 1, 1, 1, 0, 0, 0, 0, 0, 0, 0, 0, 0, 0, 0, 0]

def stuck : World 2 := (run step always early (init leftOver)).get (by decide +kernel)

/-- They are attached to two segments, and neither can go on. -/
theorem stale_attach : Reaches step always (init leftOver) stuck ∧
    (stuck.place 0).segment = some .fresh ∧ (stuck.place 1).segment = some .stale ∧
    ∀ p, step stuck p = none ∧ ¬ Done stuck p := by
  have hstop : ∀ p, (step stuck p).isSome = false := by decide +kernel
  have hplace : ∀ p, ∃ s, stuck.place p = .sync s .first := by
    intro p
    match p with
    | 0 => exact ⟨.fresh, by decide +kernel⟩
    | 1 => exact ⟨.stale, by decide +kernel⟩
  refine ⟨reaches_of_run early _ _ (Option.some_get _).symm, by decide +kernel, by decide +kernel,
    fun p => ⟨Option.isSome_eq_false_iff.mp (hstop p) |> Option.isNone_iff_eq_none.mp, ?_⟩⟩
  rintro ⟨s, hs⟩
  rcases hplace p with ⟨s', hs'⟩
  exact absurd (hs'.symm.trans hs) (by simp only [reduceCtorEq, not_false_eq_true])

end Attach

end LocalBroker

end MKernel
