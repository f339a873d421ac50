import Mathlib.Data.List.Nodup
import Mathlib.Data.List.Perm.Basic

/-!
# Sending from Live Memory

Commands to send what is in memory, that are carried out later and without a copy.

A command is pushed at one time, its source is read piece by piece at others, and
then it is complete. Nothing is read after that. An outbox keeps the commands in
flight, each with what memory held when it was pushed, and all pieces that were
read. Whether a piece is what the command was pushed for is then a question of the
writes to memory in the meantime, and the answer is yes if nothing is written to
the source of a command in flight (`Undisturbed`).

## Main definitions

* `Posting`: A command, and the memory it was pushed in.
* `Outbox`: The commands in flight, what was read, and the commands completed.
* `Undisturbed`: The sources in flight are as they were.
* `Faithful`: What was read is what the commands were pushed for.
* `cmds`, `Once`: All commands, and that none was pushed twice.

## Theorems

* `Undisturbed.push`, `Undisturbed.write`, `Undisturbed.complete`: What keeps the
  sources as they were.
* `Faithful.read`: Then reads are faithful.
* `Once.notMem_completed`: A command in flight is not complete.
-/

namespace MKernel

namespace Core

variable {Cmd Cell Val : Type*}

/-- A command, and what memory held when it was pushed. -/
structure Posting (Cmd Cell Val : Type*) where
  cmd : Cmd
  pushed : Cell → Val

/-- A piece of the source of a command, as it was read. -/
structure Piece (Cmd Cell Val : Type*) where
  posting : Posting Cmd Cell Val
  cell : Cell
  value : Val

/-- The commands in flight, the pieces that were read, and the commands that are
    complete. -/
structure Outbox (Cmd Cell Val : Type*) where
  flight : List (Posting Cmd Cell Val)
  reads : List (Piece Cmd Cell Val)
  completed : List Cmd

namespace Outbox

def empty : Outbox Cmd Cell Val := { flight := [], reads := [], completed := [] }

/-- A command is pushed. -/
def push (o : Outbox Cmd Cell Val) (cmd : Cmd) (mem : Cell → Val) : Outbox Cmd Cell Val :=
  { o with flight := o.flight ++ [⟨cmd, mem⟩] }

/-- A piece of the source of a command in flight is read. -/
def read (source : Cmd → Cell → Prop) [∀ c x, Decidable (source c x)] (o : Outbox Cmd Cell Val)
    (mem : Cell → Val) (i : Nat) (x : Cell) : Option (Outbox Cmd Cell Val) :=
  match o.flight[i]? with
  | some p => if source p.cmd x then some { o with reads := o.reads ++ [⟨p, x, mem x⟩] } else none
  | none => none

/-- A command is complete. -/
def complete (o : Outbox Cmd Cell Val) (i : Nat) : Option (Outbox Cmd Cell Val) :=
  match o.flight[i]? with
  | some p => some { o with flight := o.flight.eraseIdx i, completed := o.completed ++ [p.cmd] }
  | none => none

variable {source : Cmd → Cell → Prop} {o o' : Outbox Cmd Cell Val} {mem mem' : Cell → Val}

/-- The sources of the commands in flight hold what they held when these were
    pushed. -/
def Undisturbed (source : Cmd → Cell → Prop) (o : Outbox Cmd Cell Val) (mem : Cell → Val) : Prop :=
  ∀ p ∈ o.flight, ∀ x, source p.cmd x → mem x = p.pushed x

/-- What was read is what the commands were pushed for. -/
def Faithful (o : Outbox Cmd Cell Val) : Prop :=
  ∀ r ∈ o.reads, r.value = r.posting.pushed r.cell

theorem undisturbed_empty : (empty : Outbox Cmd Cell Val).Undisturbed source mem :=
  fun _ hp => absurd hp List.not_mem_nil

theorem faithful_empty : (empty : Outbox Cmd Cell Val).Faithful :=
  fun _ hr => absurd hr List.not_mem_nil

theorem mem_push {cmd : Cmd} {p : Posting Cmd Cell Val} :
    p ∈ (o.push cmd mem).flight ↔ p ∈ o.flight ∨ p = ⟨cmd, mem⟩ := by
  rw [push, List.mem_append, List.mem_singleton]

theorem Undisturbed.push (h : o.Undisturbed source mem) (cmd : Cmd) :
    (o.push cmd mem).Undisturbed source mem := by
  intro p hp x hx
  rcases mem_push.mp hp with hp | rfl
  · exact h p hp x hx
  · rfl

/-- Memory changes, but nowhere a command in flight is sent from. -/
theorem Undisturbed.write (h : o.Undisturbed source mem)
    (hmem : ∀ p ∈ o.flight, ∀ x, source p.cmd x → mem' x = mem x) :
    o.Undisturbed source mem' := fun p hp x hx => (hmem p hp x hx).trans (h p hp x hx)

/-- The commands that are still in flight were in flight before. -/
theorem complete_spec {i : Nat} (hc : o.complete i = some o') :
    ∃ p, o.flight[i]? = some p ∧ o'.flight = o.flight.eraseIdx i ∧ o'.reads = o.reads ∧
      o'.completed = o.completed ++ [p.cmd] := by
  unfold complete at hc
  split at hc
  · rename_i p hp
    cases hc
    exact ⟨p, hp, rfl, rfl, rfl⟩
  · exact absurd hc (by simp only [reduceCtorEq, not_false_eq_true])

theorem Undisturbed.complete (h : o.Undisturbed source mem) {i : Nat}
    (hc : o.complete i = some o') : o'.Undisturbed source mem := by
  rcases complete_spec hc with ⟨_, _, hflight, _, _⟩
  intro p hp
  rw [hflight] at hp
  exact h p (List.mem_of_mem_eraseIdx hp)

theorem read_spec [∀ c x, Decidable (source c x)] {i : Nat} {x : Cell}
    (hr : o.read source mem i x = some o') :
    ∃ p ∈ o.flight, source p.cmd x ∧ o'.flight = o.flight ∧
      o'.reads = o.reads ++ [⟨p, x, mem x⟩] ∧ o'.completed = o.completed := by
  unfold read at hr
  split at hr
  · rename_i p hp
    split at hr
    · rename_i hx
      cases hr
      exact ⟨p, List.mem_of_getElem? hp, hx, rfl, rfl, rfl⟩
    · exact absurd hr (by simp only [reduceCtorEq, not_false_eq_true])
  · exact absurd hr (by simp only [reduceCtorEq, not_false_eq_true])

/-- Where the sources are undisturbed, reads are faithful. -/
theorem Faithful.read [∀ c x, Decidable (source c x)] (hf : o.Faithful)
    (h : o.Undisturbed source mem) {i : Nat} {x : Cell}
    (hr : o.read source mem i x = some o') : o'.Faithful := by
  rcases read_spec hr with ⟨p, hp, hx, _, hreads, _⟩
  intro r hmem
  rw [hreads, List.mem_append, List.mem_singleton] at hmem
  rcases hmem with hmem | rfl
  · exact hf r hmem
  · exact h p hp x hx

/-! ## Each command once -/

/-- The commands, in flight and complete. -/
def cmds (o : Outbox Cmd Cell Val) : List Cmd := o.flight.map Posting.cmd ++ o.completed

/-- No command was pushed twice. -/
def Once (o : Outbox Cmd Cell Val) : Prop := o.cmds.Nodup

theorem cmds_push (cmd : Cmd) : (o.push cmd mem).cmds.Perm (cmd :: o.cmds) := by
  have hmid : (o.push cmd mem).cmds = o.flight.map Posting.cmd ++ cmd :: o.completed := by
    rw [cmds, push, List.map_append, List.append_assoc]
    rfl
  rw [hmid]
  exact List.perm_middle

theorem cmds_complete {i : Nat} (hc : o.complete i = some o') : o'.cmds.Perm o.cmds := by
  rcases complete_spec hc with ⟨p, hp, hflight, _, hcompleted⟩
  rcases List.getElem?_eq_some_iff.mp hp with ⟨hi, hpi⟩
  have hmap : (o.flight.map Posting.cmd).Perm (p.cmd :: o'.flight.map Posting.cmd) := by
    rw [hflight, ← hpi, ← List.map_cons]
    exact (List.getElem_cons_eraseIdx_perm hi).symm.map _
  rw [cmds, cmds, hcompleted]
  -- The last of the completed is moved to the front, and there back into its place.
  have hlast : (o'.flight.map Posting.cmd ++ (o.completed ++ [p.cmd])).Perm
      (o'.flight.map Posting.cmd ++ p.cmd :: o.completed) :=
    (List.perm_append_singleton _ _).append_left _
  exact (hlast.trans List.perm_middle).trans (hmap.symm.append_right _)

theorem cmds_read [∀ c x, Decidable (source c x)] {i : Nat} {x : Cell}
    (hr : o.read source mem i x = some o') : o'.cmds = o.cmds := by
  rcases read_spec hr with ⟨_, _, _, hflight, _, hcompleted⟩
  rw [cmds, cmds, hflight, hcompleted]

/-- A command in flight is not complete. -/
theorem Once.notMem_completed (h : o.Once) {p : Posting Cmd Cell Val} (hp : p ∈ o.flight) :
    p.cmd ∉ o.completed := by
  intro hc
  rw [Once, cmds, List.nodup_append] at h
  exact h.2.2 p.cmd (List.mem_map_of_mem hp) p.cmd hc rfl

end Outbox

end Core

end MKernel
