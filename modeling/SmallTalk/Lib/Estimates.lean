import Mathlib.Algebra.BigOperators.Group.Finset.Basic
import Mathlib.Algebra.Order.BigOperators.Group.Finset
import Mathlib.Data.Finset.Card

/-!
# Lib — estimates of what two sets lack of each other

Two finite sets are compared group by group. A group whose elements are known on both sides is
counted exactly; of another only the sizes are known, and the difference of sizes bounds the count
from below.

* `estimates_sdiff`, `estimates_tsub`: the two ways to count one group.
-/

namespace SmallTalk.Comparing

open Finset

variable {α κ : Type*} [DecidableEq α] [DecidableEq κ]

/-- Lower bounds for the elements only in `s` and only in `t`, off by the same number. -/
structure Estimates (s t : Finset α) (m n : ℕ) : Prop where
  left : m ≤ (s \ t).card
  right : n ≤ (t \ s).card
  balance : m + t.card = n + s.card

variable {s t : Finset α} {m n : ℕ}

theorem card_sdiff_balance (s t : Finset α) : (s \ t).card + t.card = (t \ s).card + s.card := by
  rw [card_sdiff_add_card, card_sdiff_add_card, union_comm]

/-- The second bound follows from the first. -/
theorem estimates_of_left (hleft : m ≤ (s \ t).card) (hbalance : m + t.card = n + s.card) :
    Estimates s t m n := by
  have := card_sdiff_balance s t
  exact ⟨hleft, by omega, hbalance⟩

theorem estimates_sdiff (s t : Finset α) : Estimates s t (s \ t).card (t \ s).card :=
  estimates_of_left le_rfl (card_sdiff_balance s t)

theorem estimates_tsub (s t : Finset α) : Estimates s t (s.card - t.card) (t.card - s.card) :=
  estimates_of_left (le_card_sdiff t s) (by omega)

theorem sum_card_sdiff_fibers (key : α → κ) {ks : Finset κ} (hs : ∀ a ∈ s, key a ∈ ks) :
    ∑ k ∈ ks, ((s.filter fun a => key a = k) \ (t.filter fun a => key a = k)).card =
      (s \ t).card := by
  have hfiber : ∀ k, (s.filter fun a => key a = k) \ (t.filter fun a => key a = k) =
      (s \ t).filter fun a => key a = k := by
    intro k
    ext a
    simp only [mem_sdiff, mem_filter]
    tauto
  simp only [hfiber]
  exact (card_eq_sum_card_fiberwise fun a ha => hs a (mem_sdiff.mp ha).1).symm

/-- **The groups together.** -/
theorem Estimates.sum (key : α → κ) {ks : Finset κ} {m n : κ → ℕ}
    (hs : ∀ a ∈ s, key a ∈ ks) (ht : ∀ a ∈ t, key a ∈ ks)
    (h : ∀ k ∈ ks, Estimates (s.filter fun a => key a = k) (t.filter fun a => key a = k)
      (m k) (n k)) :
    Estimates s t (∑ k ∈ ks, m k) (∑ k ∈ ks, n k) := by
  refine estimates_of_left ?_ ?_
  · calc ∑ k ∈ ks, m k
        ≤ ∑ k ∈ ks, ((s.filter fun a => key a = k) \ (t.filter fun a => key a = k)).card :=
          sum_le_sum fun k hk => (h k hk).left
      _ = (s \ t).card := sum_card_sdiff_fibers key hs
  · have hsum := sum_congr rfl fun k hk => (h k hk).balance
    rw [sum_add_distrib, sum_add_distrib,
      ← card_eq_sum_card_fiberwise hs, ← card_eq_sum_card_fiberwise ht] at hsum
    exact hsum

/-- An estimate that reaches the first count reaches the second. -/
theorem Estimates.right_eq (h : Estimates s t m n) (hm : m = (s \ t).card) : n = (t \ s).card := by
  have := card_sdiff_balance s t
  have := h.balance
  omega

end SmallTalk.Comparing
