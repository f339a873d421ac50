import Mathlib.Algebra.BigOperators.Fin
import Mathlib.Algebra.Order.BigOperators.Group.Finset

/-!
# Tallies

A counter in memory that several parties raise by one at a time, where an
increment is first posted and lands later.

An increment that is posted and one that has landed are different things to a
reader of the counter and the same thing to an argument about how often it was
raised. `total` is the second view: the value together with everything that is
still on its way. Posting raises it, landing leaves it alone, and a plain
addition moves it by what is added, so it is the quantity a conservation law
is stated about. What the reader sees is bounded by it (`value_le_total`).

`InRound` is the discipline of a counter that works in rounds: each party
raises it once a round, and when it is full somebody takes the whole round off
it again. Under it the value is exactly the number of parties whose increment
of the current round has landed.

## Main definitions

* `Tally`: A value and the increments each party has posted and not landed.
* `empty`: A counter nobody has raised.
* `post`: A party posts an increment.
* `land`: One posted increment of a party lands.
* `add`: The value is changed on the spot.
* `total`: The value and everything on its way to it.
* `InRound`: A counter raised once a round by each party and cleared when full.

## Theorems

* `sum_lt_of_one`: A sum gets less if one summand does.
* `total_post`: Posting raises the total by one.
* `total_land`: Landing keeps the total.
* `total_add`: An addition moves the total by what is added.
* `value_le_total`: The value never exceeds the total.
* `InRound.value_eq_card`: The value counts the increments landed in this round.
* `InRound.full_iff`: It is full when every party's increment has landed.
* `InRound.post`, `InRound.land`, `InRound.clear`: What keeps the discipline.
-/

namespace MKernel

namespace Core

/-- One party has less and the others have as much as before. -/
theorem sum_lt_of_one {α : Type*} [Fintype α] {f g : α → Nat} (k : α) (hk : f k < g k)
    (hother : ∀ j, j ≠ k → f j = g j) : ∑ j, f j < ∑ j, g j := by
  refine Finset.sum_lt_sum (fun j _ => ?_) ⟨k, Finset.mem_univ k, hk⟩
  by_cases hj : j = k
  · rw [hj]
    exact Nat.le_of_lt hk
  · exact Nat.le_of_eq (hother j hj)

/-- A counter, and how many increments each party has on its way to it. -/
@[ext]
structure Tally (κ : Type*) where
  value : Int
  pending : κ → Nat

namespace Tally

variable {κ : Type*}

/-- A counter at zero with nothing on its way. -/
def empty : Tally κ := { value := 0, pending := fun _ => 0 }

/-- Change the value on the spot. -/
def add (t : Tally κ) (z : Int) : Tally κ := { t with value := t.value + z }

/-- The value and everything that is on its way to it. -/
def total [Fintype κ] (t : Tally κ) : Int := t.value + ∑ k, (t.pending k : Int)

@[simp] theorem add_value (t : Tally κ) (z : Int) : (t.add z).value = t.value + z := rfl

@[simp] theorem add_pending (t : Tally κ) (z : Int) : (t.add z).pending = t.pending := rfl

section Total

variable [Fintype κ]

@[simp] theorem total_empty : (empty : Tally κ).total = 0 := by
  simp only [total, empty, Nat.cast_zero, Finset.sum_const_zero, add_zero]

theorem total_add (t : Tally κ) (z : Int) : (t.add z).total = t.total + z := by
  simp only [total, add]
  omega

theorem value_le_total (t : Tally κ) : t.value ≤ t.total := by
  have hsum : (0 : Int) ≤ ∑ k, (t.pending k : Int) :=
    Finset.sum_nonneg (fun k _ => Int.natCast_nonneg _)
  rw [total]
  omega

/-! ## Rounds -/

/-- A counter each party raises once a round and somebody clears when all have:
    it has been cleared `n` times, and `sent` says how often each party has
    raised it. -/
structure InRound (t : Tally κ) (sent : κ → Nat) (n : Nat) : Prop where
  total : t.total = ∑ k, ((sent k : Int) - n)
  bounds : ∀ k, n + t.pending k ≤ sent k ∧ sent k ≤ n + 1

namespace InRound

variable {t : Tally κ} {sent : κ → Nat} {n : Nat}

theorem empty : InRound (Tally.empty : Tally κ) (fun _ => 0) 0 := by
  refine ⟨?_, fun _ => ⟨le_refl _, Nat.le_succ _⟩⟩
  simp only [total_empty, Nat.cast_zero, sub_zero, Finset.sum_const_zero]

/-- The value counts the parties whose increment of this round has landed. -/
theorem value_eq_card (h : InRound t sent n) :
    t.value = ((Finset.univ.filter (fun k => sent k = n + 1 ∧ t.pending k = 0)).card : Int) := by
  have hsum : t.value = ∑ k, ((sent k : Int) - n - t.pending k) := by
    have htotal := h.total
    rw [Tally.total] at htotal
    rw [Finset.sum_sub_distrib]
    omega
  rw [hsum, Finset.card_filter, Nat.cast_sum]
  refine Finset.sum_congr rfl (fun k _ => ?_)
  have hk := h.bounds k
  by_cases hin : sent k = n + 1 ∧ t.pending k = 0
  · rw [if_pos hin, hin.1, hin.2]
    push_cast
    omega
  · rw [if_neg hin]
    push_cast
    omega

theorem value_nonneg (h : InRound t sent n) : 0 ≤ t.value := by
  rw [h.value_eq_card]
  exact Int.natCast_nonneg _

theorem value_le (h : InRound t sent n) : t.value ≤ Fintype.card κ := by
  rw [h.value_eq_card]
  exact_mod_cast Finset.card_le_univ _

/-- The counter is full when every party's increment of this round has landed. -/
theorem full_iff (h : InRound t sent n) :
    t.value = Fintype.card κ ↔ ∀ k, sent k = n + 1 ∧ t.pending k = 0 := by
  rw [h.value_eq_card, Nat.cast_inj]
  constructor
  · intro hcard k
    have hmem := Finset.mem_univ k
    rw [← Finset.eq_univ_of_card _ hcard] at hmem
    exact (Finset.mem_filter.mp hmem).2
  · intro hall
    rw [Finset.filter_true_of_mem (fun k _ => hall k), Finset.card_univ]

/-- The full counter is cleared, and the next round begins. -/
theorem clear (h : InRound t sent n) (hfull : t.value = Fintype.card κ) :
    InRound (t.add (-Fintype.card κ)) sent (n + 1) := by
  have hall := h.full_iff.mp hfull
  refine ⟨?_, fun k => ?_⟩
  · rw [total_add, h.total, Finset.sum_sub_distrib, Finset.sum_sub_distrib]
    simp only [Finset.sum_const, Finset.card_univ, nsmul_eq_mul]
    push_cast
    rw [mul_add, mul_one]
    omega
  · rw [add_pending, (hall k).1, (hall k).2]
    omega

end InRound

end Total

variable [DecidableEq κ]

/-- Party `k` posts one increment. -/
def post (t : Tally κ) (k : κ) : Tally κ :=
  { t with pending := fun j => if j = k then t.pending k + 1 else t.pending j }

/-- One increment of party `k` lands, if there is one on its way. -/
def land (t : Tally κ) (k : κ) : Option (Tally κ) :=
  if t.pending k = 0 then
    none
  else
    some { value := t.value + 1
           pending := fun j => if j = k then t.pending k - 1 else t.pending j }

@[simp] theorem post_value (t : Tally κ) (k : κ) : (t.post k).value = t.value := rfl

/-- Landing an increment raises the value and takes the increment away. -/
theorem land_spec {t u : Tally κ} {k : κ} (h : t.land k = some u) :
    0 < t.pending k ∧ u.value = t.value + 1 ∧
      u.pending = fun j => if j = k then t.pending k - 1 else t.pending j := by
  by_cases hk : t.pending k = 0
  · rw [land, if_pos hk] at h
    exact absurd h (by simp only [reduceCtorEq, not_false_eq_true])
  · rw [land, if_neg hk, Option.some.injEq] at h
    rw [← h]
    exact ⟨Nat.pos_of_ne_zero hk, rfl, rfl⟩

variable [Fintype κ]

/-- Changing one party's share changes the sum by the same amount. -/
theorem sum_update (f : κ → Nat) (k : κ) (n : Nat) :
    (∑ j, ((if j = k then n else f j : Nat) : Int)) = (∑ j, (f j : Int)) + n - f k := by
  have hsplit : ∀ g : κ → Nat, (∑ j, (g j : Int)) =
      (g k : Int) + ∑ j ∈ Finset.univ.erase k, (g j : Int) := fun g =>
    (Finset.add_sum_erase Finset.univ (fun j => (g j : Int)) (Finset.mem_univ k)).symm
  have hrest : (∑ j ∈ Finset.univ.erase k, ((if j = k then n else f j : Nat) : Int)) =
      ∑ j ∈ Finset.univ.erase k, (f j : Int) := by
    refine Finset.sum_congr rfl (fun j hj => ?_)
    rw [if_neg (Finset.ne_of_mem_erase hj)]
  rw [hsplit (fun j => if j = k then n else f j), hsplit f, hrest, if_pos rfl]
  omega

theorem total_post (t : Tally κ) (k : κ) : (t.post k).total = t.total + 1 := by
  simp only [total, post, sum_update]
  push_cast
  omega

theorem total_land {t u : Tally κ} {k : κ} (h : t.land k = some u) : u.total = t.total := by
  rcases land_spec h with ⟨hpos, hvalue, hpending⟩
  simp only [total, hvalue, hpending, sum_update]
  omega

namespace InRound

variable {t u : Tally κ} {sent : κ → Nat} {n : Nat}

/-- A party that has not raised the counter in this round raises it. -/
theorem post (h : InRound t sent n) {k : κ} (hk : sent k = n) {sent' : κ → Nat}
    (hsent : ∀ j, sent' j = if j = k then sent k + 1 else sent j) :
    InRound (t.post k) sent' n := by
  have hsum : (∑ j, (sent' j : Int)) = (∑ j, (sent j : Int)) + 1 := by
    rw [Finset.sum_congr rfl (fun j _ => by rw [hsent j]), sum_update]
    push_cast
    omega
  refine ⟨?_, fun j => ?_⟩
  · rw [total_post, h.total, Finset.sum_sub_distrib, Finset.sum_sub_distrib, hsum]
    omega
  · have hj := h.bounds j
    rw [hsent j]
    by_cases hjk : j = k
    · subst hjk
      simp only [Tally.post, if_true]
      omega
    · simp only [Tally.post, if_neg hjk]
      exact hj

/-- An increment lands. -/
theorem land (h : InRound t sent n) {k : κ} (hland : t.land k = some u) : InRound u sent n := by
  rcases land_spec hland with ⟨hpos, -, hpending⟩
  refine ⟨by rw [total_land hland, h.total], fun j => ?_⟩
  have hj := h.bounds j
  rw [hpending]
  by_cases hjk : j = k
  · subst hjk
    simp only [if_true]
    omega
  · simp only [if_neg hjk]
    exact hj

end InRound

end Tally

end Core

end MKernel
