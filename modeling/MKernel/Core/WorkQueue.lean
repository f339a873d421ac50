import Mathlib.Algebra.BigOperators.Group.List.Basic
import Mathlib.Algebra.Order.BigOperators.Group.List
import Mathlib.Algebra.Order.Ring.Int
import Mathlib.Data.List.Perm.Basic

/-!
# Work Queues

Requests handed to a device that executes them in its own order and reports
each one in a completion queue.

A request is *sent* when it is handed over, *placed* once the device has
executed it, and its completion then waits in the completion queue until it is
polled. Which sent request is executed next and which placed request is
reported next is the device's choice, so any order is possible. The completion
queue also carries notices that belong to no request of this queue, such as
the arrival of somebody else's write.

What is accounted for is the requests *outstanding*: sent, placed or reported,
and not yet polled. Posting adds to them, polling takes from them, and what
the device does in between only moves them around. A sum over the outstanding
requests, such as the counter a driver keeps, therefore changes exactly when
the driver acts, and where every request counts it is zero only when none is
outstanding.

## Main definitions

* `WorkQueue`: Requests on their way, and the completion queue.
* `post`, `poll`: What the driver does.
* `place`, `complete`, `notice`: What the device does.
* `outstanding`: The requests whose completion has not been polled.
* `uncompleted`: The requests whose completion has not been reported.
* `weight`: The sum of a measure over them.

## Theorems

* `outstanding_post`, `outstanding_poll`: What the driver changes.
* `outstanding_place`, `outstanding_complete`: What the device moves around.
* `uncompleted_post`: A request that is not completed was so before, or is posted now.
* `le_weight`: A sum of measures that are not negative is at least each of them.
* `outstanding_eq_nil`: Where every request counts, a sum of zero leaves none.
-/

namespace MKernel

namespace Core

/-- Requests of type `ω` on their way, and a completion queue that reports
    them along with notices of type `ρ`. -/
structure WorkQueue (ω ρ : Type*) where
  sent : List ω
  placed : List ω
  cq : List (ω ⊕ ρ)

namespace WorkQueue

open scoped List

variable {ω ρ : Type*} {q q' : WorkQueue ω ρ} {w : ω}

def empty : WorkQueue ω ρ := ⟨[], [], []⟩

/-- Hand requests to the device. -/
def post (q : WorkQueue ω ρ) (ws : List ω) : WorkQueue ω ρ := { q with sent := q.sent ++ ws }

/-- The device executes one of the sent requests. -/
def place (q : WorkQueue ω ρ) (i : Nat) : Option (ω × WorkQueue ω ρ) :=
  q.sent[i]?.map fun w => (w, { q with sent := q.sent.eraseIdx i, placed := q.placed ++ [w] })

/-- The device reports one of the placed requests. -/
def complete (q : WorkQueue ω ρ) (i : Nat) : Option (WorkQueue ω ρ) :=
  q.placed[i]?.map fun w =>
    { q with placed := q.placed.eraseIdx i, cq := q.cq ++ [Sum.inl w] }

/-- The device reports something else. -/
def notice (q : WorkQueue ω ρ) (r : ρ) : WorkQueue ω ρ := { q with cq := q.cq ++ [Sum.inr r] }

/-- Take up to `n` completions, oldest first. -/
def poll (q : WorkQueue ω ρ) (n : Nat) : List (ω ⊕ ρ) × WorkQueue ω ρ :=
  (q.cq.take n, { q with cq := q.cq.drop n })

/-- The requests among polled completions. -/
def requests (es : List (ω ⊕ ρ)) : List ω := es.filterMap Sum.getLeft?

/-- The requests whose completion has not been polled. -/
def outstanding (q : WorkQueue ω ρ) : List ω := q.sent ++ (q.placed ++ requests q.cq)

/-- The requests whose completion has not been reported. -/
def uncompleted (q : WorkQueue ω ρ) : List ω := q.sent ++ q.placed

/-- The sum of a measure over the outstanding requests. -/
def weight (f : ω → Int) (q : WorkQueue ω ρ) : Int := (q.outstanding.map f).sum

@[simp] theorem outstanding_empty : (empty : WorkQueue ω ρ).outstanding = [] := rfl

theorem requests_append (es fs : List (ω ⊕ ρ)) :
    requests (es ++ fs) = requests es ++ requests fs :=
  List.filterMap_append

theorem perm_cons_eraseIdx {l : List ω} {i : Nat} (h : l[i]? = some w) :
    (w :: l.eraseIdx i).Perm l := by
  rcases List.getElem?_eq_some_iff.mp h with ⟨hi, hw⟩
  rw [← hw]
  exact List.getElem_cons_eraseIdx_perm hi

theorem outstanding_post (q : WorkQueue ω ρ) (ws : List ω) :
    (q.post ws).outstanding.Perm (q.outstanding ++ ws) := by
  simp only [outstanding, post, List.append_assoc]
  refine List.Perm.append_left _ ?_
  have hswap : ws ++ (q.placed ++ requests q.cq) ~ q.placed ++ requests q.cq ++ ws :=
    List.perm_append_comm
  simpa only [List.append_assoc] using hswap

/-- Executing a request keeps it outstanding. -/
theorem outstanding_place {i : Nat} (h : q.place i = some (w, q')) :
    q'.outstanding.Perm q.outstanding := by
  rcases Option.map_eq_some_iff.mp h with ⟨v, hv, heq⟩
  simp only [Prod.mk.injEq] at heq
  rcases heq with ⟨rfl, rfl⟩
  simp only [outstanding]
  calc q.sent.eraseIdx i ++ (q.placed ++ [v] ++ requests q.cq)
      = q.sent.eraseIdx i ++ (q.placed ++ ([v] ++ requests q.cq)) := by
        rw [List.append_assoc q.placed]
    _ ~ q.sent.eraseIdx i ++ ([v] ++ (q.placed ++ requests q.cq)) := by
        refine List.Perm.append_left _ ?_
        rw [← List.append_assoc, ← List.append_assoc]
        exact List.Perm.append_right _ List.perm_append_comm
    _ ~ [v] ++ q.sent.eraseIdx i ++ (q.placed ++ requests q.cq) := by
        rw [← List.append_assoc]
        exact List.Perm.append_right _ List.perm_append_comm
    _ ~ q.sent ++ (q.placed ++ requests q.cq) :=
        List.Perm.append_right _ (perm_cons_eraseIdx hv)

/-- Reporting a request keeps it outstanding until it is polled. -/
theorem outstanding_complete {i : Nat} (h : q.complete i = some q') :
    q'.outstanding.Perm q.outstanding := by
  rcases Option.map_eq_some_iff.mp h with ⟨v, hv, rfl⟩
  simp only [outstanding, requests_append]
  refine List.Perm.append_left _ ?_
  have hlast : requests [(Sum.inl v : ω ⊕ ρ)] = [v] := rfl
  rw [hlast]
  calc q.placed.eraseIdx i ++ (requests q.cq ++ [v])
      ~ q.placed.eraseIdx i ++ ([v] ++ requests q.cq) :=
        List.Perm.append_left _ List.perm_append_comm
    _ ~ [v] ++ q.placed.eraseIdx i ++ requests q.cq := by
        rw [← List.append_assoc]
        exact List.Perm.append_right _ List.perm_append_comm
    _ ~ q.placed ++ requests q.cq := List.Perm.append_right _ (perm_cons_eraseIdx hv)

@[simp] theorem outstanding_notice (q : WorkQueue ω ρ) (r : ρ) :
    (q.notice r).outstanding = q.outstanding := by
  have hlast : requests [(Sum.inr r : ω ⊕ ρ)] = [] := rfl
  simp only [outstanding, notice, requests_append, hlast, List.append_nil]

/-- What was outstanding was polled or still is. -/
theorem outstanding_poll (q : WorkQueue ω ρ) (n : Nat) :
    q.outstanding.Perm (requests (q.poll n).1 ++ (q.poll n).2.outstanding) := by
  have hsplit : requests q.cq = requests (q.cq.take n) ++ requests (q.cq.drop n) := by
    rw [← requests_append, List.take_append_drop]
  simp only [outstanding, poll]
  rw [hsplit]
  calc q.sent ++ (q.placed ++ (requests (q.cq.take n) ++ requests (q.cq.drop n)))
      = (q.sent ++ q.placed) ++ requests (q.cq.take n) ++ requests (q.cq.drop n) := by
        simp only [List.append_assoc]
    _ ~ requests (q.cq.take n) ++ (q.sent ++ q.placed) ++ requests (q.cq.drop n) :=
        List.Perm.append_right _ List.perm_append_comm
    _ = requests (q.cq.take n) ++ (q.sent ++ (q.placed ++ requests (q.cq.drop n))) := by
        simp only [List.append_assoc]

section Uncompleted

theorem uncompleted_post {ws : List ω} (h : w ∈ (q.post ws).uncompleted) :
    w ∈ q.uncompleted ∨ w ∈ ws := by
  simp only [uncompleted, post, List.mem_append] at h ⊢
  tauto

theorem uncompleted_place {v : ω} {i : Nat} (h : q.place i = some (v, q'))
    (hw : w ∈ q'.uncompleted) : w ∈ q.uncompleted := by
  rcases Option.map_eq_some_iff.mp h with ⟨u, hu, heq⟩
  simp only [Prod.mk.injEq] at heq
  rcases heq with ⟨rfl, rfl⟩
  simp only [uncompleted, List.mem_append, List.mem_singleton] at hw ⊢
  rcases hw with hw | hw | rfl
  · exact Or.inl (List.mem_of_mem_eraseIdx hw)
  · exact Or.inr hw
  · exact Or.inl (List.mem_of_getElem? hu)

theorem uncompleted_complete {i : Nat} (h : q.complete i = some q') (hw : w ∈ q'.uncompleted) :
    w ∈ q.uncompleted := by
  rcases Option.map_eq_some_iff.mp h with ⟨u, -, rfl⟩
  simp only [uncompleted, List.mem_append] at hw ⊢
  exact hw.imp_right List.mem_of_mem_eraseIdx

@[simp] theorem uncompleted_notice (q : WorkQueue ω ρ) (r : ρ) :
    (q.notice r).uncompleted = q.uncompleted := rfl

@[simp] theorem uncompleted_poll (q : WorkQueue ω ρ) (n : Nat) :
    (q.poll n).2.uncompleted = q.uncompleted := rfl

end Uncompleted

section Weight

variable {f : ω → Int}

/-- A sum of measures that are not negative is at least each of them. -/
theorem le_weight (hf : ∀ w ∈ q.outstanding, 0 ≤ f w) (h : w ∈ q.outstanding) :
    f w ≤ q.weight f := by
  refine List.single_le_sum (fun x hx => ?_) _ (List.mem_map_of_mem h)
  rcases List.mem_map.mp hx with ⟨v, hv, rfl⟩
  exact hf v hv

theorem weight_nonneg (hf : ∀ w ∈ q.outstanding, 0 ≤ f w) : 0 ≤ q.weight f :=
  List.sum_nonneg fun x hx => by
    rcases List.mem_map.mp hx with ⟨v, hv, rfl⟩
    exact hf v hv

/-- Where every outstanding request counts, a sum of zero leaves none. -/
theorem outstanding_eq_nil (hf : ∀ w ∈ q.outstanding, 0 < f w) (h : q.weight f ≤ 0) :
    q.outstanding = [] := by
  rw [List.eq_nil_iff_forall_not_mem]
  intro v hv
  have hle := le_weight (fun w hw => Int.le_of_lt (hf w hw)) hv
  have hpos := hf v hv
  omega

end Weight

end WorkQueue

end Core

end MKernel
