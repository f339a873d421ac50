import Mathlib.Algebra.BigOperators.Intervals
import Mathlib.Algebra.BigOperators.Ring.Finset
import Mathlib.Data.Int.CardIntervalMod
import Mathlib.Data.List.Perm.Lattice
import Mathlib.Order.Partition.Finpartition

/-!
# Spreading Indices over Buckets

How many of the indices below a bound fall into a bucket, when an index goes to
the bucket of its remainder.

The buckets are filled in turn, so the first is never behind the others, and it
holds as many indices as there are rounds, the quotient rounded up. An index
may also be reduced twice, by a first divisor and what is left by a second:
then the buckets are filled anew in every round of the first divisor, and the
first bucket is still ahead. It is so too when the indices come in rows and a
row goes to one bucket.

Buckets may come in blocks, one block after the other, and the blocks may run
out of places. A place then holds one bucket where all blocks fit, and one
bucket of each of the blocks that share it where a block is a single bucket
(`sum_blocks_le`, `sum_blocks_zero`).

A walk in strides is the loop of one of several workers, and the walks of all
workers together are all the indices, once each (`perm_walks`). So a count over
the work of all workers is a count over the indices.

## Main definitions

* `rounds`: The quotient, rounded up.
* `fullest`: What the first bucket holds where indices are reduced twice.
* `walk`: The indices one worker visits.

## Theorems

* `count_mod_zero`, `count_mod_le`: The first bucket holds the rounds, and no
  bucket holds more.
* `count_mod_mod_zero`, `count_mod_mod_le`: The same, with indices reduced twice.
* `count_div`, `count_div_le`: The same, with rows of indices.
* `count_mod_and_zero`, `count_mod_and_le`: The same, with two remainders at once.
* `place_lt`, `place_div`, `place_inj`: A position tells block and place.
* `sum_blocks_zero`, `sum_blocks_le`: The same, with buckets in blocks.
* `perm_walks`: The walks of all workers are all the indices.
* `countP_flatMap_range`: A count over a list of lists, as a sum.
* `countP_walks`: A count over the work of all workers, as a sum.
* `exists_finpartition_fibres`: The fibres of a map are a partition.
-/

namespace MKernel

namespace Core

variable {a b n q : Nat}

/-! ## Counting -/

/-- The quotient, rounded up. -/
def rounds (n b : Nat) : Nat := (n + b - 1) / b

/-- One round is enough for no more indices than buckets. -/
theorem rounds_of_le (hn : 0 < n) (h : n ≤ b) : rounds n b = 1 := by
  rw [rounds, Nat.div_eq_iff (by omega)]
  omega

theorem rounds_zero (hb : 0 < b) : rounds 0 b = 0 := by
  rw [rounds]
  exact Nat.div_eq_of_lt (by omega)

theorem rounds_le_iff (hb : 0 < b) {k : Nat} : rounds n b ≤ k ↔ n ≤ k * b := by
  rw [rounds, ← Nat.lt_succ_iff, Nat.div_lt_iff_lt_mul hb, Nat.succ_mul]
  omega

/-- Rounded up, the rounds have room for everything. -/
theorem le_rounds_mul (hb : 0 < b) : n ≤ rounds n b * b := (rounds_le_iff hb).mp (le_refl _)

/-- With something for each bucket, there is a round. -/
theorem max_one_rounds (hb : 0 < b) (h : b ≤ n) : max 1 (rounds n b) = rounds n b :=
  Nat.max_eq_right (Nat.div_pos (by omega) hb)

/-- When a number of words, never none, is enough. -/
theorem le_max_one_iff (hb : 0 < b) {k : Nat} :
    k ≤ max 1 (rounds n b) ↔ k ≤ 1 ∨ b * (k - 1) < n := by
  rw [le_max_iff]
  by_cases hk : k ≤ 1
  · exact iff_of_true (Or.inl hk) (Or.inl hk)
  · rw [or_iff_right hk, or_iff_right hk]
    have hlt : k ≤ rounds n b ↔ ¬ rounds n b ≤ k - 1 := by omega
    rw [hlt, rounds_le_iff hb, Nat.mul_comm, Nat.not_le]

/-- Each full round counts, and what is left of one more. -/
theorem rounds_eq (hb : 0 < b) : rounds n b = n / b + if 0 < n % b then 1 else 0 := by
  have hdm := Nat.div_add_mod' n b
  have hlt := Nat.mod_lt n hb
  rw [rounds, Nat.div_eq_iff hb]
  split
  · rw [Nat.succ_mul]
    omega
  · rw [Nat.add_zero]
    omega

theorem count_congr {p p' : Nat → Prop} [DecidablePred p] [DecidablePred p']
    (h : ∀ x < n, p x ↔ p' x) : Nat.count p n = Nat.count p' n := by
  rw [Nat.count_eq_card_filter_range, Nat.count_eq_card_filter_range]
  exact congrArg Finset.card (Finset.filter_congr fun x hx => h x (Finset.mem_range.mp hx))

theorem count_const (p : Prop) [Decidable p] (n : Nat) :
    Nat.count (fun _ => p) n = if p then n else 0 := by
  split
  · rename_i hp
    exact Nat.count_of_forall fun _ _ => hp
  · rename_i hp
    exact Nat.count_of_forall_not fun _ _ => hp

/-- A bucket holds an index for each full round, and one more where the last
    round gets as far. -/
theorem count_mod (hq : q < b) :
    Nat.count (fun x => x % b = q) n = n / b + if q < n % b then 1 else 0 := by
  have hcard := Nat.count_modEq_card n (Nat.lt_of_le_of_lt (Nat.zero_le q) hq) q
  simpa only [Nat.ModEq, Nat.mod_eq_of_lt hq] using hcard

theorem count_mod_zero (hb : 0 < b) : Nat.count (fun x => x % b = 0) n = rounds n b := by
  rw [count_mod hb, rounds_eq hb]

theorem count_mod_le (hb : 0 < b) (q : Nat) : Nat.count (fun x => x % b = q) n ≤ rounds n b := by
  by_cases hq : q < b
  · rw [count_mod hq, rounds_eq hb]
    -- The last round reaches the first bucket if it reaches any.
    split <;> split <;> omega
  · -- No remainder is that large.
    have hnone : Nat.count (fun x => x % b = q) n = 0 := by
      refine Nat.count_of_forall_not fun x _ hx => ?_
      have := Nat.mod_lt x hb
      omega
    omega

/-- A count over a property that repeats, round by round. -/
theorem count_rounds {p : Nat → Prop} [DecidablePred p] (hp : ∀ x, p (x + a) ↔ p x) (k m : Nat) :
    Nat.count p (a * k + m) = k * Nat.count p a + Nat.count p m := by
  induction k with
  | zero => rw [Nat.mul_zero, Nat.zero_add, Nat.zero_mul, Nat.zero_add]
  | succ k ih =>
      have hsplit : a * (k + 1) + m = a + (a * k + m) := by
        rw [Nat.mul_succ]
        omega
      have hshift : Nat.count (fun x => p (a + x)) (a * k + m) = Nat.count p (a * k + m) := by
        simp only [Nat.add_comm a, hp]
      rw [hsplit, Nat.count_add, hshift, ih, Nat.succ_mul]
      omega

/-- What the first bucket holds of `n` indices that are reduced by `a` and then
    by `b`. -/
def fullest (n a b : Nat) : Nat := n / a * rounds a b + rounds (n % a) b

/-- Reduced twice, an index is counted by its round of the first divisor. -/
theorem count_mod_mod (ha : 0 < a) (q : Nat) :
    Nat.count (fun x => x % a % b = q) n =
      n / a * Nat.count (fun x => x % b = q) a + Nat.count (fun x => x % b = q) (n % a) := by
  have hsmall : ∀ m ≤ a, Nat.count (fun x => x % a % b = q) m =
      Nat.count (fun x => x % b = q) m := by
    intro m hm
    refine count_congr fun x hx => ?_
    rw [Nat.mod_eq_of_lt (a := x) (b := a) (by omega)]
  have hrounds := count_rounds (p := fun x => x % a % b = q) (a := a)
    (fun x => by rw [Nat.add_mod_right]) (n / a) (n % a)
  rw [Nat.div_add_mod] at hrounds
  rw [hrounds, hsmall a (Nat.le_refl a), hsmall (n % a) (Nat.le_of_lt (Nat.mod_lt n ha))]

theorem count_mod_mod_zero (ha : 0 < a) (hb : 0 < b) :
    Nat.count (fun x => x % a % b = 0) n = fullest n a b := by
  rw [count_mod_mod ha, count_mod_zero hb, count_mod_zero hb, fullest]

theorem count_mod_mod_le (ha : 0 < a) (hb : 0 < b) (q : Nat) :
    Nat.count (fun x => x % a % b = q) n ≤ fullest n a b := by
  rw [count_mod_mod ha, fullest]
  exact Nat.add_le_add (Nat.mul_le_mul_left _ (count_mod_le hb q)) (count_mod_le hb q)

/-- A count over indices that are divided first: one full row after the other,
    and what there is of the last. -/
theorem count_div (p : Nat → Prop) [DecidablePred p] (d n : Nat) :
    Nat.count (fun x => p (x / d)) n =
      d * Nat.count p (n / d) + if p (n / d) then n % d else 0 := by
  by_cases hd : d = 0
  · simp only [hd, Nat.div_zero, Nat.zero_mul, Nat.zero_add, Nat.mod_zero]
    exact count_const (p 0) n
  · have hpos : 0 < d := Nat.pos_of_ne_zero hd
    -- A row counts all its places or none.
    have hrow : ∀ k, ∀ m ≤ d, Nat.count (fun x => p ((d * k + x) / d)) m =
        if p k then m else 0 := by
      intro k m hm
      rw [← count_const (p k) m]
      refine count_congr fun x hx => ?_
      rw [Nat.mul_add_div hpos, Nat.div_eq_of_lt (by omega), Nat.add_zero]
    -- By induction on the number of full rows.
    have hrows : ∀ k, Nat.count (fun x => p (x / d)) (d * k) = d * Nat.count p k := by
      intro k
      induction k with
      | zero => rw [Nat.mul_zero, Nat.count_zero, Nat.count_zero, Nat.mul_zero]
      | succ k ih =>
          rw [Nat.mul_succ, Nat.count_add, ih, hrow k d (Nat.le_refl d), Nat.count_succ,
            Nat.mul_add]
          split
          · rw [Nat.mul_one]
          · rw [Nat.mul_zero]
    have hlast := Nat.count_add (p := fun x => p (x / d)) (d * (n / d)) (n % d)
    rw [Nat.div_add_mod, hrows, hrow _ _ (Nat.le_of_lt (Nat.mod_lt n hpos))] at hlast
    exact hlast

/-- A property that is nowhere ahead of another stays behind it when the indices
    are divided first. -/
theorem count_div_le {p w : Nat → Prop} [DecidablePred p] [DecidablePred w]
    (h : ∀ n, Nat.count p n ≤ Nat.count w n) (d n : Nat) :
    Nat.count (fun x => p (x / d)) n ≤ Nat.count (fun x => w (x / d)) n := by
  rw [count_div, count_div]
  have hrow := h (n / d)
  by_cases hp : p (n / d)
  · rw [if_pos hp]
    by_cases hw : w (n / d)
    · rw [if_pos hw]
      exact Nat.add_le_add_right (Nat.mul_le_mul_left d hrow) _
    · -- The other property was ahead by one before the last row.
      have hnext := h (n / d + 1)
      rw [Nat.count_succ, Nat.count_succ, if_pos hp, if_neg hw, Nat.add_zero] at hnext
      rw [if_neg hw, Nat.add_zero]
      by_cases hd : d = 0
      · rw [hd, Nat.div_zero, Nat.count_zero, Nat.count_zero] at hnext
        omega
      · have hlt := Nat.mod_lt n (Nat.pos_of_ne_zero hd)
        calc d * Nat.count p (n / d) + n % d ≤ d * Nat.count p (n / d) + d := by omega
          _ = d * (Nat.count p (n / d) + 1) := (Nat.mul_succ _ _).symm
          _ ≤ d * Nat.count w (n / d) := Nat.mul_le_mul_left d hnext
  · rw [if_neg hp, Nat.add_zero]
    exact Nat.le_trans (Nat.mul_le_mul_left d hrow) (Nat.le_add_right _ _)

/-- Two remainders at once fix the remainder by the common multiple. -/
theorem count_mod_and_le (hm : 0 < Nat.lcm a b) (r q : Nat) :
    Nat.count (fun x => x % a = r ∧ x % b = q) n ≤ rounds n (Nat.lcm a b) := by
  by_cases hany : ∃ y, y % a = r ∧ y % b = q
  · rcases hany with ⟨y, rfl, rfl⟩
    refine Nat.le_trans (Nat.le_of_eq (count_congr fun x _ => ?_))
      (count_mod_le hm (y % Nat.lcm a b))
    constructor
    · intro h
      exact Nat.mod_lcm h.1 h.2
    · intro h
      exact ⟨Nat.ModEq.of_dvd (Nat.dvd_lcm_left a b) h, Nat.ModEq.of_dvd (Nat.dvd_lcm_right a b) h⟩
  · rw [Nat.count_of_forall_not fun x _ hx => hany ⟨x, hx⟩]
    exact Nat.zero_le _

theorem count_mod_and_zero (hm : 0 < Nat.lcm a b) :
    Nat.count (fun x => x % a = 0 ∧ x % b = 0) n = rounds n (Nat.lcm a b) := by
  rw [← count_mod_zero hm]
  refine count_congr fun x _ => ?_
  rw [← Nat.dvd_iff_mod_eq_zero, ← Nat.dvd_iff_mod_eq_zero, ← Nat.dvd_iff_mod_eq_zero,
    Nat.lcm_dvd_iff]

/-- One index below the bound has the property. -/
theorem count_eq_one {p : Nat → Prop} [DecidablePred p] {i : Nat} (hi : i < n)
    (h : ∀ x < n, p x ↔ x = i) : Nat.count p n = 1 := by
  rw [Nat.count_eq_card_filter_range, Finset.card_eq_one]
  refine ⟨i, ?_⟩
  ext x
  rw [Finset.mem_filter, Finset.mem_range, Finset.mem_singleton]
  constructor
  · rintro ⟨hx, hp⟩
    exact (h x hx).mp hp
  · rintro rfl
    exact ⟨hi, (h x hi).mpr rfl⟩

theorem sum_range_ite (p : Nat → Prop) [DecidablePred p] (n : Nat) :
    ∑ i ∈ Finset.range n, (if p i then 1 else 0) = Nat.count p n := by
  rw [Nat.count_eq_card_filter_range, Finset.card_filter]

/-- An index as a row and a column. -/
theorem sum_range_mul (f : Nat → Nat) (R K : Nat) :
    ∑ i ∈ Finset.range R, ∑ j ∈ Finset.range K, f (i * K + j) =
      ∑ x ∈ Finset.range (R * K), f x := by
  induction R with
  | zero => rw [Nat.zero_mul, Finset.sum_range_zero, Finset.sum_range_zero]
  | succ R ih => rw [Finset.sum_range_succ, ih, Nat.succ_mul, Finset.sum_range_add]

/-! ## Blocks of buckets -/

section Blocks

variable {P K A X : Nat} {g : Nat → Nat} {S : Nat → Prop} [DecidablePred S]

/-- Place `k` of block `p` lies below the end of the last block. -/
theorem place_lt {p k : Nat} (hp : p < P) (hk : k < K) : p * K + k < P * K :=
  calc p * K + k < p * K + K := Nat.add_lt_add_left hk _
    _ = (p + 1) * K := (Nat.succ_mul p K).symm
    _ ≤ P * K := Nat.mul_le_mul_right K hp

/-- The block of a position. -/
theorem place_div {p k : Nat} (hk : k < K) : (p * K + k) / K = p := by
  rw [Nat.mul_comm, Nat.mul_add_div (Nat.lt_of_le_of_lt (Nat.zero_le _) hk), Nat.div_eq_of_lt hk,
    Nat.add_zero]

/-- Block and place are determined by the position. -/
theorem place_inj {p p' k k' : Nat} (hk : k < K) (hk' : k' < K)
    (h : p * K + k = p' * K + k') : p = p' ∧ k = k' := by
  have hp : p = p' :=
    calc p = (p * K + k) / K := (place_div hk).symm
      _ = (p' * K + k') / K := congrArg (· / K) h
      _ = p' := place_div hk'
  rw [hp] at h
  exact ⟨hp, Nat.add_left_cancel h⟩

/-- Where all blocks have places of their own, a place is one bucket of one
    block. -/
theorem count_block (hg : ∀ x, g x < K) (hfit : P * K ≤ A) {p : Nat} (hp : p < P) (q : Nat) :
    Nat.count (fun x => S x ∧ (p * K + g x) % A = q) X =
      if p = q / K then Nat.count (fun x => S x ∧ g x = q % K) X else 0 := by
  have hplace : ∀ x, (p * K + g x) % A = p * K + g x := by
    intro x
    exact Nat.mod_eq_of_lt (Nat.lt_of_lt_of_le (place_lt hp (hg x)) hfit)
  simp only [hplace]
  split
  · rename_i heq
    have hdm := Nat.div_add_mod' q K
    refine count_congr fun x _ => and_congr_right fun _ => ?_
    rw [heq]
    omega
  · rename_i hne
    -- The place is in another block.
    refine Nat.count_of_forall_not fun x _ hx => hne ?_
    rw [← hx.2, place_div (hg x)]

/-- What all blocks put into a place, where each has its own. -/
theorem sum_blocks_of_fit (hg : ∀ x, g x < K) (hfit : P * K ≤ A) (q : Nat) :
    ∑ p ∈ Finset.range P, Nat.count (fun x => S x ∧ (p * K + g x) % A = q) X =
      if q / K < P then Nat.count (fun x => S x ∧ g x = q % K) X else 0 := by
  rw [Finset.sum_congr rfl fun p hp => count_block hg hfit (Finset.mem_range.mp hp) q,
    Finset.sum_ite_eq']
  simp only [Finset.mem_range]

/-- What blocks of one bucket each put into a place. -/
theorem sum_blocks_of_one (hg : ∀ x, g x < 1) (q : Nat) :
    ∑ p ∈ Finset.range P, Nat.count (fun x => S x ∧ (p * 1 + g x) % A = q) X =
      Nat.count (fun p => p % A = q) P * Nat.count S X := by
  rw [← sum_range_ite, Finset.sum_mul]
  refine Finset.sum_congr rfl fun p _ => ?_
  have hplace : ∀ x, p * 1 + g x = p := by
    intro x
    have := hg x
    omega
  simp only [hplace]
  by_cases hq : p % A = q
  · rw [if_pos hq, Nat.one_mul]
    exact count_congr fun x _ => and_iff_left hq
  · rw [if_neg hq, Nat.zero_mul]
    exact Nat.count_of_forall_not fun x _ hx => hq hx.2

/-- No place gets more than the first would of the largest bucket, from each of
    the blocks that share it. -/
theorem sum_blocks_le (hA : 0 < A) (hg : ∀ x, g x < K) (hfit : P * K ≤ A ∨ K = 1) {w : Nat}
    (hw : ∀ k, Nat.count (fun x => S x ∧ g x = k) X ≤ w) (q : Nat) :
    ∑ p ∈ Finset.range P, Nat.count (fun x => S x ∧ (p * K + g x) % A = q) X ≤ rounds P A * w := by
  rcases hfit with hfit | rfl
  · -- With room for all blocks, a place is of one block only.
    rw [sum_blocks_of_fit hg hfit]
    split
    · rename_i hlt
      have hP : 0 < P := Nat.lt_of_le_of_lt (Nat.zero_le _) hlt
      have hround : 1 ≤ rounds P A := by
        rw [Nat.one_le_iff_ne_zero]
        intro hzero
        have hle := (rounds_le_iff hA).mp (Nat.le_of_eq hzero)
        omega
      exact Nat.le_trans (hw _) (Nat.le_mul_of_pos_left _ hround)
    · exact Nat.zero_le _
  · -- A bucket of one place: the blocks fill the places in turn.
    rw [sum_blocks_of_one hg]
    refine Nat.mul_le_mul (count_mod_le hA q) (Nat.le_trans (Nat.le_of_eq ?_) (hw 0))
    refine count_congr fun x _ => (and_iff_left ?_).symm
    have := hg x
    omega

/-- The first place gets the first bucket, from each of the blocks that share
    it. -/
theorem sum_blocks_zero (hA : 0 < A) (hg : ∀ x, g x < K) (hfit : P * K ≤ A ∨ K = 1) :
    ∑ p ∈ Finset.range P, Nat.count (fun x => S x ∧ (p * K + g x) % A = 0) X =
      rounds P A * Nat.count (fun x => S x ∧ g x = 0) X := by
  have hK : 0 < K := Nat.lt_of_le_of_lt (Nat.zero_le _) (hg 0)
  rcases hfit with hfit | rfl
  · rw [sum_blocks_of_fit hg hfit, Nat.zero_div, Nat.zero_mod]
    split
    · rename_i hP
      have hle : P ≤ A := Nat.le_trans (Nat.le_mul_of_pos_right P hK) hfit
      rw [rounds_of_le hP hle, Nat.one_mul]
    · rename_i hP
      rw [Nat.eq_zero_of_not_pos hP, rounds_zero hA, Nat.zero_mul]
  · rw [sum_blocks_of_one hg, count_mod_zero hA]
    refine congrArg _ (count_congr fun x _ => (and_iff_left ?_).symm)
    have := hg x
    omega

end Blocks

/-! ## Lists -/

section Lists

variable {α : Type*}

/-- A count over a list of lists is a sum. -/
theorem countP_flatMap_range (p : α → Bool) (f : Nat → List α) (n : Nat) :
    ((List.range n).flatMap f).countP p = ∑ i ∈ Finset.range n, (f i).countP p := by
  induction n with
  | zero => rfl
  | succ n ih =>
      rw [List.range_succ, List.flatMap_append, List.countP_append, ih, Finset.sum_range_succ,
        List.flatMap_singleton]

/-- A count over those of a list that are kept. -/
theorem countP_filter_map_range (p : α → Bool) (keep : Nat → Bool) (f : Nat → α) (n : Nat) :
    (((List.range n).filter keep).map f).countP p =
      Nat.count (fun i => p (f i) = true ∧ keep i = true) n := by
  rw [List.countP_map, List.countP_filter, Nat.count]
  refine List.countP_congr fun i _ => ?_
  rw [Bool.and_eq_true, decide_eq_true_eq]
  exact Iff.refl _

theorem countP_map_range (p : α → Bool) (f : Nat → α) (n : Nat) :
    ((List.range n).map f).countP p = Nat.count (fun i => p (f i) = true) n := by
  induction n with
  | zero => rfl
  | succ n ih =>
      rw [List.range_succ, List.map_append, List.countP_append, ih, Nat.count_succ,
        List.map_singleton, List.countP_singleton]

end Lists

/-! ## Fibres -/

/-- The fibres of a map onto the numbers below a bound are a partition, and
    there is one for each number. -/
theorem exists_finpartition_fibres {α : Type*} [DecidableEq α] {t : Finset α} {f : α → Nat}
    {n : Nat} (hlt : ∀ a ∈ t, f a < n) (hsurj : ∀ c < n, ∃ a ∈ t, f a = c) :
    ∃ P : Finpartition t, Set.BijOn (fun c => t.filter (f · = c)) (Set.Iio n) P.parts := by
  have hmem : ∀ {a c}, a ∈ t.filter (f · = c) ↔ a ∈ t ∧ f a = c := Finset.mem_filter
  let P : Finpartition t := Finpartition.ofExistsUnique
    ((Finset.range n).image fun c => t.filter (f · = c))
    (by
      intro p hp
      rcases Finset.mem_image.mp hp with ⟨c, _, rfl⟩
      exact Finset.filter_subset _ _)
    (by
      -- The part of an element is the fibre it lies in.
      intro a ha
      refine ⟨t.filter (f · = f a), ⟨?_, hmem.mpr ⟨ha, rfl⟩⟩, ?_⟩
      · exact Finset.mem_image.mpr ⟨f a, Finset.mem_range.mpr (hlt a ha), rfl⟩
      · rintro p ⟨hp, hap⟩
        rcases Finset.mem_image.mp hp with ⟨c, _, rfl⟩
        rw [(hmem.mp hap).2])
    (by
      intro hempty
      rcases Finset.mem_image.mp hempty with ⟨c, hc, hnone⟩
      rcases hsurj c (Finset.mem_range.mp hc) with ⟨a, ha, hfa⟩
      have : a ∈ (∅ : Finset α) := by
        rw [← hnone]
        exact hmem.mpr ⟨ha, hfa⟩
      exact absurd this (Finset.notMem_empty a))
  refine ⟨P, ?_, ?_, ?_⟩
  · intro c hc
    exact Finset.mem_coe.mpr (Finset.mem_image.mpr ⟨c, Finset.mem_range.mpr hc, rfl⟩)
  · -- Fibres that are equal share an element.
    intro c hc d _ heq
    rcases hsurj c hc with ⟨a, ha, hfa⟩
    have : a ∈ t.filter (f · = d) := by
      rw [← show t.filter (f · = c) = t.filter (f · = d) from heq]
      exact hmem.mpr ⟨ha, hfa⟩
    exact hfa.symm.trans (hmem.mp this).2
  · intro p hp
    rcases Finset.mem_image.mp (Finset.mem_coe.mp hp) with ⟨c, hc, rfl⟩
    exact ⟨c, Finset.mem_range.mp hc, rfl⟩

/-! ## Walks -/

/-- The indices below `n` that worker `c` of `S` visits, from its own number on
    in strides of `S`. -/
def walk (c S n : Nat) : List Nat := List.range' c (rounds (n - c) S) S

/-- A worker stays below the bound, whatever number it begins with. -/
theorem lt_of_mem_walk {c S x : Nat} (hS : 0 < S) (hx : x ∈ walk c S n) : x < n := by
  rw [walk, List.mem_range'] at hx
  rcases hx with ⟨i, hi, rfl⟩
  have hlt : ¬ rounds (n - c) S ≤ i := Nat.not_le.mpr hi
  rw [rounds_le_iff hS, Nat.mul_comm] at hlt
  omega

theorem mem_walk {c S x : Nat} (hc : c < S) : x ∈ walk c S n ↔ x < n ∧ x % S = c := by
  have hS : 0 < S := Nat.lt_of_le_of_lt (Nat.zero_le c) hc
  constructor
  · intro hx
    refine ⟨lt_of_mem_walk hS hx, ?_⟩
    rw [walk, List.mem_range'] at hx
    rcases hx with ⟨i, _, rfl⟩
    rw [Nat.add_mul_mod_self_left, Nat.mod_eq_of_lt hc]
  · rintro ⟨hx, rfl⟩
    rw [walk, List.mem_range']
    have hdm := Nat.mod_add_div x S
    refine ⟨x / S, ?_, hdm.symm⟩
    by_contra hge
    have hle := (rounds_le_iff hS).mp (Nat.not_lt.mp hge)
    rw [Nat.mul_comm] at hle
    omega

theorem nodup_walk {c S : Nat} (hS : 0 < S) : (walk c S n).Nodup := List.nodup_range' S hS

/-- The walks of all workers are all the indices, once each. -/
theorem perm_walks {S : Nat} (hS : 0 < S) (n : Nat) :
    ((List.range S).flatMap fun c => walk c S n).Perm (List.range n) := by
  have hnodup : ((List.range S).flatMap fun c => walk c S n).Nodup := by
    refine List.nodup_flatMap.mpr ⟨fun c _ => nodup_walk hS, ?_⟩
    -- An index is visited by the worker of its remainder only.
    refine List.nodup_range.imp_of_mem fun {c d} hc hd hne x hxc hxd => hne ?_
    rw [mem_walk (List.mem_range.mp hc)] at hxc
    rw [mem_walk (List.mem_range.mp hd)] at hxd
    exact hxc.2.symm.trans hxd.2
  refine (List.perm_ext_iff_of_nodup hnodup List.nodup_range).mpr fun x => ?_
  rw [List.mem_flatMap, List.mem_range]
  constructor
  · rintro ⟨c, hc, hx⟩
    exact ((mem_walk (List.mem_range.mp hc)).mp hx).1
  · intro hx
    have hlt := Nat.mod_lt x hS
    exact ⟨x % S, List.mem_range.mpr hlt, (mem_walk hlt).mpr ⟨hx, rfl⟩⟩

/-- A count over the work of all workers is a sum over the indices. -/
theorem countP_walks {α : Type*} {S : Nat} (hS : 0 < S) (n : Nat) (p : α → Bool)
    (f : Nat → List α) :
    ((List.range S).flatMap fun c => (walk c S n).flatMap f).countP p =
      ∑ i ∈ Finset.range n, (f i).countP p := by
  have hperm : ((List.range S).flatMap fun c => (walk c S n).flatMap f).Perm
      ((List.range n).flatMap f) := by
    rw [← List.flatMap_assoc]
    exact (perm_walks hS n).flatMap_right _
  rw [hperm.countP_eq, countP_flatMap_range]

end Core

end MKernel
