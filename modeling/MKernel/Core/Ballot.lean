import Mathlib.Data.Finset.Card
import Mathlib.Data.Finset.Range
import Mathlib.Data.List.Nodup
import Mathlib.Logic.Function.Basic

/-!
# Ballots in a Mask

Voters who each set a bit of their own in a word, and the vote that completes
the ballot.

A vote is an atomic disjunction: the voter gets the old word and knows the new
one. A voter may vote again, which changes nothing. If the voters are numbered
from zero, the ballot is complete once all their bits are set, and a voter can
tell from the two words whether its vote did it: the old one had too few bits
and the new one has not (`completes_iff`). So one vote at most finds that it
completed the ballot, in whatever order the votes are cast.

The party whose vote it was then counts the ballot and announces it, and other
parties may act in between. `Settling` is what holds meanwhile of many ballots
and many parties: each ballot is counted once and announced once, by the party
that completed it.

## Main definitions

* `voters`: The places of the bits that are set in a word.
* `Settling`: Complete ballots are counted and announced once, or about to be.

## Theorems

* `cpop_toNat`: The number of bits set is the number of voters.
* `voters_or`, `voters_bit`: What a vote does.
* `mem_voters_and_not`, `and_eq_right_iff`: What is read off two words.
* `completes_iff`: The counts before and after tell of the completing vote.
* `Settling.complete`, `Settling.count`, `Settling.announce`: The three steps of
  a party.
-/

namespace MKernel

namespace Core

variable {w n : Nat}

/-- The places of the bits that are set. -/
def voters (x : BitVec w) : Finset Nat := (Finset.range w).filter fun i => x.getLsbD i = true

theorem mem_voters {x : BitVec w} {i : Nat} : i ∈ voters x ↔ x.getLsbD i = true := by
  rw [voters, Finset.mem_filter, Finset.mem_range]
  constructor
  · intro h
    exact h.2
  · intro h
    exact ⟨BitVec.lt_of_getLsbD h, h⟩

@[simp] theorem voters_zero : voters (0 : BitVec w) = ∅ := by
  ext i
  rw [mem_voters]
  simp only [BitVec.ofNat_eq_ofNat, BitVec.getLsbD_zero, Bool.false_eq_true, Finset.notMem_empty]

theorem voters_or (x y : BitVec w) : voters (x ||| y) = voters x ∪ voters y := by
  ext i
  rw [Finset.mem_union, mem_voters, mem_voters, mem_voters, BitVec.getLsbD_or, Bool.or_eq_true]

/-- The voters of one ballot who have not voted in another. -/
theorem mem_voters_and_not {x y : BitVec w} {i : Nat} :
    i ∈ voters (x &&& ~~~y) ↔ i ∈ voters x ∧ i ∉ voters y := by
  rw [mem_voters, mem_voters, mem_voters, BitVec.getLsbD_and, BitVec.getLsbD_not]
  constructor
  · intro h
    simp only [Bool.and_eq_true, Bool.not_eq_true', decide_eq_true_eq] at h
    exact ⟨h.1, by rw [h.2.2]; exact Bool.false_ne_true⟩
  · rintro ⟨hx, hy⟩
    simp only [hx, BitVec.lt_of_getLsbD hx, decide_true, Bool.true_and]
    exact (Bool.not_eq_true _).mp hy ▸ rfl

/-- A word covers another in the bits if in the voters. -/
theorem and_eq_right_iff {x y : BitVec w} : x &&& y = y ↔ voters y ⊆ voters x := by
  constructor
  · intro h i hi
    rw [mem_voters, ← h, BitVec.getLsbD_and, Bool.and_eq_true] at hi
    exact mem_voters.mpr hi.1
  · intro h
    refine BitVec.eq_of_getLsbD_eq fun i _ => ?_
    rw [BitVec.getLsbD_and]
    cases hy : y.getLsbD i with
    | false => rw [Bool.and_false]
    | true => rw [mem_voters.mp (h (mem_voters.mpr hy)), Bool.true_and]

/-- Nobody has voted in a word that is zero, and only there. -/
theorem voters_nonempty_iff {x : BitVec w} : (voters x).Nonempty ↔ x ≠ 0 := by
  constructor
  · rintro ⟨i, hi⟩ rfl
    rw [voters_zero] at hi
    exact absurd hi (Finset.notMem_empty i)
  · intro hne
    by_contra hnone
    refine hne (BitVec.eq_of_getLsbD_eq fun i _ => ?_)
    have hi : i ∉ voters x := fun hi => hnone ⟨i, hi⟩
    rw [mem_voters, Bool.not_eq_true] at hi
    rw [hi]
    exact BitVec.getLsbD_zero.symm

/-- The bit of one voter. -/
theorem voters_bit {p : Nat} (hp : p < w) : voters (1#w <<< p) = {p} := by
  ext i
  rw [mem_voters, Finset.mem_singleton, BitVec.getLsbD_shiftLeft, BitVec.getLsbD_one]
  simp only [Bool.and_eq_true, Bool.not_eq_true', decide_eq_true_eq, decide_eq_false_iff_not]
  omega

/-- The test of one voter's bit. -/
theorem and_bit_eq_zero_iff {x : BitVec w} {p : Nat} : x &&& (1#w <<< p) = 0 ↔ p ∉ voters x := by
  rw [← not_iff_not, not_not, ← ne_eq, ← voters_nonempty_iff]
  constructor
  · rintro ⟨i, hi⟩
    rw [mem_voters, BitVec.getLsbD_and, Bool.and_eq_true, ← mem_voters, ← mem_voters] at hi
    by_cases hp : p < w
    · rw [voters_bit hp, Finset.mem_singleton] at hi
      exact hi.2 ▸ hi.1
    · rw [BitVec.shiftLeft_eq_zero (by omega)] at hi
      have hnone : i ∈ voters (0 : BitVec w) := hi.2
      rw [voters_zero] at hnone
      exact absurd hnone (Finset.notMem_empty i)
  · intro hp
    have hlt := BitVec.lt_of_getLsbD (mem_voters.mp hp)
    refine ⟨p, ?_⟩
    rw [mem_voters, BitVec.getLsbD_and, Bool.and_eq_true, ← mem_voters, ← mem_voters,
      voters_bit hlt]
    exact ⟨hp, Finset.mem_singleton_self p⟩

/-- The bits below a place, counted from the top. -/
theorem cpopNatRec_eq_card (x : BitVec w) (n : Nat) :
    x.cpopNatRec n 0 = ((Finset.range n).filter fun i => x.getLsbD i = true).card := by
  induction n with
  | zero => rfl
  | succ n ih =>
      rw [BitVec.cpopNatRec_succ, BitVec.cpopNatRec_eq, ih, Finset.range_add_one,
        Finset.filter_insert, Nat.zero_add]
      cases x.getLsbD n with
      | false =>
          rw [if_neg Bool.false_ne_true]
          rfl
      | true =>
          have hout : n ∉ (Finset.range n).filter fun i => x.getLsbD i = true := by
            rw [Finset.mem_filter, Finset.mem_range]
            exact fun h => Nat.lt_irrefl n h.1
          rw [if_pos rfl, Finset.card_insert_of_notMem hout]
          rfl

/-- The number of bits set is the number of voters. -/
theorem cpop_toNat (x : BitVec w) : x.cpop.toNat = (voters x).card := by
  rw [BitVec.toNat_cpop, cpopNatRec_eq_card]
  rfl

/-- A ballot of the voters below `n` was completed between two counts exactly if
    all have voted now and not all had before. -/
theorem completes_iff {S T : Finset Nat} (hST : S ⊆ T) (hT : T ⊆ Finset.range n) :
    S.card < n ∧ n ≤ T.card ↔ S ≠ Finset.range n ∧ T = Finset.range n := by
  have hfull : ∀ U : Finset Nat, U ⊆ Finset.range n → (n ≤ U.card ↔ U = Finset.range n) := by
    intro U hU
    constructor
    · intro h
      exact Finset.eq_of_subset_of_card_le hU (by rwa [Finset.card_range])
    · rintro rfl
      rw [Finset.card_range]
  rw [hfull T hT, ne_eq, ← hfull S (hST.trans hT), Nat.not_le]

/-! ## Settling a ballot -/

section Settling

variable {B D : Type*}

/-- Which ballots are complete, which one each party has still to count and which
    one it has still to announce, and those that were counted and announced. -/
structure Settling (full : B → Prop) (counting owing : D → Option B)
    (counted announced : List B) : Prop where
  counted_nodup : counted.Nodup
  announced_nodup : announced.Nodup
  mem_counted : ∀ b, b ∈ counted ↔ full b ∧ ∀ d, counting d ≠ some b
  mem_announced : ∀ b, b ∈ announced ↔ full b ∧ ∀ d, owing d ≠ some b
  complete_of_owing : ∀ d b, owing d = some b → full b
  owing_of_counting : ∀ d b, counting d = some b → owing d = some b
  owing_inj : ∀ d e b, owing d = some b → owing e = some b → d = e

namespace Settling

variable {full full' : B → Prop} {counting owing : D → Option B}
  {counted announced : List B} {d : D} {b : B}

theorem init (hnone : ∀ b, ¬ full b) :
    Settling full (fun _ : D => none) (fun _ : D => none) [] [] where
  counted_nodup := List.nodup_nil
  announced_nodup := List.nodup_nil
  mem_counted b := iff_of_false List.not_mem_nil fun h => hnone b h.1
  mem_announced b := iff_of_false List.not_mem_nil fun h => hnone b h.1
  complete_of_owing _ _ h := absurd h (by simp only [reduceCtorEq, not_false_eq_true])
  owing_of_counting _ _ h := absurd h (by simp only [reduceCtorEq, not_false_eq_true])
  owing_inj _ _ _ h := absurd h (by simp only [reduceCtorEq, not_false_eq_true])

theorem congr (h : Settling full counting owing counted announced)
    (hc : ∀ b, full' b ↔ full b) :
    Settling full' counting owing counted announced := by
  have heq : full' = full := funext fun b => propext (hc b)
  rwa [heq]

variable [DecidableEq D]

/-- A party is at no other ballot than the one it was moved to. -/
theorem update_ne_some {f : D → Option B} {o : Option B} (hd : o ≠ some b) :
    (∀ e, Function.update f d o e ≠ some b) ↔ ∀ e, e ≠ d → f e ≠ some b := by
  constructor
  · intro h e he
    have := h e
    rwa [Function.update_of_ne he] at this
  · intro h e
    by_cases he : e = d
    · rw [he, Function.update_self]
      exact hd
    · rw [Function.update_of_ne he]
      exact h e he

/-- A party that was at another ballot, or at none, does not matter. -/
theorem forall_ne_of_other {f : D → Option B} (hd : f d ≠ some b) :
    (∀ e, e ≠ d → f e ≠ some b) ↔ ∀ e, f e ≠ some b := by
  constructor
  · intro h e
    by_cases he : e = d
    · rw [he]
      exact hd
    · exact h e he
  · intro h e _
    exact h e

/-- A party without a ballot to settle completes one. -/
theorem complete (h : Settling full counting owing counted announced)
    (hd : owing d = none) (hb : ¬ full b) (hc : ∀ x, full' x ↔ full x ∨ x = b) :
    Settling full' (Function.update counting d (some b)) (Function.update owing d (some b))
      counted announced := by
  have hcd : counting d = none := by
    cases hx : counting d with
    | none => rfl
    | some x => rw [h.owing_of_counting d x hx] at hd; exact hd
  -- Apart from the new ballot, nothing is said about the party.
  have hother : ∀ {f : D → Option B} {x}, f d = none → x ≠ b →
      ((∀ e, Function.update f d (some b) e ≠ some x) ↔ ∀ e, f e ≠ some x) := by
    intro f x hf hx
    rw [update_ne_some (fun heq => hx (Option.some.inj heq).symm), forall_ne_of_other]
    rw [hf]
    exact (Option.some_ne_none x).symm
  have hself : ∀ {f : D → Option B}, ¬ ∀ e, Function.update f d (some b) e ≠ some b :=
    fun hall => hall d (Function.update_self _ _ _)
  have hmem : ∀ {f : D → Option B} {l : List B}, f d = none →
      (∀ x, x ∈ l ↔ full x ∧ ∀ e, f e ≠ some x) →
      ∀ x, x ∈ l ↔ full' x ∧ ∀ e, Function.update f d (some b) e ≠ some x := by
    intro f l hf hl x
    by_cases hx : x = b
    · rw [hx]
      exact iff_of_false (fun hin => hb ((hl b).mp hin).1) fun hall => hself hall.2
    · rw [hl x, hc x, hother hf hx, or_iff_left hx]
  refine ⟨h.counted_nodup, h.announced_nodup, hmem hcd h.mem_counted, hmem hd h.mem_announced,
    ?_, ?_, ?_⟩
  · intro e x hex
    rw [hc x]
    by_cases he : e = d
    · rw [he, Function.update_self] at hex
      exact Or.inr (Option.some.inj hex).symm
    · rw [Function.update_of_ne he] at hex
      exact Or.inl (h.complete_of_owing e x hex)
  · intro e x hex
    by_cases he : e = d
    · rw [he, Function.update_self] at hex ⊢
      exact hex
    · rw [Function.update_of_ne he] at hex ⊢
      exact h.owing_of_counting e x hex
  · -- Nobody else can owe a ballot that was not complete.
    intro e e' x hex hex'
    by_cases he : e = d
    · by_cases he' : e' = d
      · rw [he, he']
      · rw [he, Function.update_self] at hex
        rw [Function.update_of_ne he', ← hex] at hex'
        exact absurd (h.complete_of_owing e' b hex') hb
    · rw [Function.update_of_ne he] at hex
      by_cases he' : e' = d
      · rw [he', Function.update_self] at hex'
        rw [← hex'] at hex
        exact absurd (h.complete_of_owing e b hex) hb
      · rw [Function.update_of_ne he'] at hex'
        exact h.owing_inj e e' x hex hex'

/-- A ballot joins a list when the party at it moves on. -/
theorem mem_concat {f : D → Option B} {l : List B} (hinj : ∀ e, f e = some b → e = d)
    (hd : f d = some b) (hb : full b) (hl : ∀ x, x ∈ l ↔ full x ∧ ∀ e, f e ≠ some x)
    (x : B) : x ∈ l ++ [b] ↔ full x ∧ ∀ e, Function.update f d none e ≠ some x := by
  rw [List.mem_append, List.mem_singleton, update_ne_some (Option.some_ne_none x).symm]
  by_cases hx : x = b
  · rw [hx]
    exact iff_of_true (Or.inr rfl) ⟨hb, fun e he heb => he (hinj e heb)⟩
  · rw [or_iff_left hx, hl x, forall_ne_of_other]
    rw [hd]
    exact fun heq => hx (Option.some.inj heq).symm

omit [DecidableEq D] in
theorem nodup_concat {l : List B} (hl : l.Nodup) (hb : b ∉ l) : (l ++ [b]).Nodup := by
  rw [← List.concat_eq_append]
  exact hl.concat hb

/-- It counts the ballot. -/
theorem count (h : Settling full counting owing counted announced)
    (hd : counting d = some b) :
    Settling full (Function.update counting d none) owing (counted ++ [b]) announced where
  counted_nodup := nodup_concat h.counted_nodup fun hin => ((h.mem_counted b).mp hin).2 d hd
  announced_nodup := h.announced_nodup
  mem_counted := mem_concat
    (fun e he => h.owing_inj e d b (h.owing_of_counting e b he) (h.owing_of_counting d b hd)) hd
    (h.complete_of_owing d b (h.owing_of_counting d b hd)) h.mem_counted
  mem_announced := h.mem_announced
  complete_of_owing := h.complete_of_owing
  owing_of_counting e x hex := by
    by_cases he : e = d
    · rw [he, Function.update_self] at hex
      exact absurd hex (by simp only [reduceCtorEq, not_false_eq_true])
    · rw [Function.update_of_ne he] at hex
      exact h.owing_of_counting e x hex
  owing_inj := h.owing_inj

/-- Having counted it, it announces it. -/
theorem announce (h : Settling full counting owing counted announced)
    (hcd : counting d = none) (hd : owing d = some b) :
    Settling full counting (Function.update owing d none) counted (announced ++ [b]) where
  counted_nodup := h.counted_nodup
  announced_nodup := nodup_concat h.announced_nodup fun hin => ((h.mem_announced b).mp hin).2 d hd
  mem_counted := h.mem_counted
  mem_announced := mem_concat (fun e he => h.owing_inj e d b he hd) hd
    -- Only its own party owes a ballot, and it is complete.
    (h.complete_of_owing d b hd) h.mem_announced
  complete_of_owing e x hex := by
    by_cases he : e = d
    · rw [he, Function.update_self] at hex
      exact absurd hex (by simp only [reduceCtorEq, not_false_eq_true])
    · rw [Function.update_of_ne he] at hex
      exact h.complete_of_owing e x hex
  owing_of_counting e x hex := by
    -- The party that announces counts nothing.
    have he : e ≠ d := by
      rintro rfl
      rw [hcd] at hex
      exact absurd hex (by simp only [reduceCtorEq, not_false_eq_true])
    rw [Function.update_of_ne he]
    exact h.owing_of_counting e x hex
  owing_inj e e' x hex hex' := by
    by_cases he : e = d
    · rw [he, Function.update_self] at hex
      exact absurd hex (by simp only [reduceCtorEq, not_false_eq_true])
    · by_cases he' : e' = d
      · rw [he', Function.update_self] at hex'
        exact absurd hex' (by simp only [reduceCtorEq, not_false_eq_true])
      · rw [Function.update_of_ne he] at hex
        rw [Function.update_of_ne he'] at hex'
        exact h.owing_inj e e' x hex hex'

end Settling

end Settling

end Core

end MKernel
