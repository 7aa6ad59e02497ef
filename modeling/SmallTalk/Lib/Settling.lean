import Mathlib.Order.Filter.AtTopBot.Basic
import Mathlib.Order.Filter.Finite
import Mathlib.Tactic

/-!
# Lib — values that settle rank by rank

A family of values changes step by step. Each value has a rank, and a step writes a value only
when the values of lower rank may have moved, or with what they determine.

* `eventually_eq_of_writes`: a value that is only ever left alone or written alike settles.
* `eventually_zero`: a number that falls until it is zero is zero from some step on.
-/

namespace SmallTalk.Settling

open Filter

variable {ι α : Type*}

theorem eventually_eq_of_writes {f : ℕ → α} {v : α} {N : ℕ}
    (h : ∀ n ≥ N, f (n + 1) = f n ∨ f (n + 1) = v) : ∀ᶠ n in atTop, f (n + 1) = f n := by
  rw [eventually_atTop]
  by_cases hv : ∃ m ≥ N, f m = v
  · obtain ⟨m, hm, hmv⟩ := hv
    have hall : ∀ n ≥ m, f n = v := by
      intro n hn
      induction n, hn using Nat.le_induction with
      | base => exact hmv
      | succ n hn ih => exact (h n (hm.trans hn)).elim (fun hs => hs.trans ih) id
    exact ⟨m, fun n hn => (hall (n + 1) (hn.trans n.le_succ)).trans (hall n hn).symm⟩
  · exact ⟨N, fun n hn => (h n hn).resolve_right fun hw => hv ⟨n + 1, hn.trans n.le_succ, hw⟩⟩

section

variable {K : ℕ → ι → α} {rank : ι → ℕ} (next : (ι → α) → ι → α) (ids : Finset ι)
  (hfix : ∀ n, ∀ c ∉ ids, K (n + 1) c = K n c)
  (hnext : ∀ (k k' : ι → α) c, (∀ d, rank d < rank c → k d = k' d) → next k c = next k' c)
  (hstep : ∀ n c, (∀ d, rank d < rank c → K (n + 1) d = K n d) →
    K (n + 1) c = K n c ∨ K (n + 1) c = next (K n) c)

include hfix hnext hstep

theorem eventually_settled_below (r : ℕ) :
    ∀ᶠ n in atTop, ∀ d, rank d < r → K (n + 1) d = K n d := by
  induction r with
  | zero => exact Eventually.of_forall fun n d hd => absurd hd (Nat.not_lt_zero _)
  | succ r ih =>
    obtain ⟨N, hN⟩ := eventually_atTop.mp ih
    have hconst : ∀ n ≥ N, ∀ d, rank d < r → K n d = K N d := by
      intro n hn d hd
      induction n, hn using Nat.le_induction with
      | base => rfl
      | succ n hn ihn => exact (hN n hn d hd).trans ihn
    -- From `N` on a value of rank `r` is always written alike.
    have hone : ∀ c ∈ ids, ∀ᶠ n in atTop, rank c = r → K (n + 1) c = K n c := by
      intro c _
      by_cases hc : rank c = r
      case neg => exact Eventually.of_forall fun n h => absurd h hc
      have hwrites : ∀ n ≥ N, K (n + 1) c = K n c ∨ K (n + 1) c = next (K N) c := by
        intro n hn
        refine (hstep n c fun d hd => hN n hn d (hc ▸ hd)).imp_right fun hw => hw.trans ?_
        exact hnext _ _ c fun d hd => hconst n hn d (hc ▸ hd)
      exact (eventually_eq_of_writes (f := fun n => K n c) hwrites).mono fun n h _ => h
    filter_upwards [ih, (eventually_all_finset ids).mpr hone] with n hlow hids d hd
    rcases Nat.lt_succ_iff_lt_or_eq.mp hd with hd | hd
    · exact hlow d hd
    · by_cases hmem : d ∈ ids
      · exact hids d hmem hd
      · exact hfix n d hmem

/-- **Settling.**  Where finitely many values move, and each is left alone or written with what
the values of lower rank determine once these stand still, all of them come to stand still. -/
theorem eventually_settled {bound : ℕ} (hbound : ∀ c, rank c ≤ bound) :
    ∀ᶠ n in atTop, K (n + 1) = K n :=
  (eventually_settled_below next ids hfix hnext hstep (bound + 1)).mono fun _ h =>
    funext fun d => h d (Nat.lt_succ_of_le (hbound d))

end

theorem eventually_zero {f : ℕ → ℕ} (h : ∀ᶠ n in atTop, f (n + 1) ≤ f n - 1) :
    ∀ᶠ n in atTop, f n = 0 := by
  obtain ⟨N, hN⟩ := eventually_atTop.mp h
  have hfall : ∀ k, f (N + k) ≤ f N - k := by
    intro k
    induction k with
    | zero => exact le_rfl
    | succ k ih => exact (hN (N + k) (Nat.le_add_right N k)).trans (by omega)
  refine eventually_atTop.mpr ⟨N + f N, fun n hn => ?_⟩
  obtain ⟨k, rfl⟩ := Nat.exists_eq_add_of_le (le_trans (Nat.le_add_right _ _) hn)
  have := hfall k
  omega

end SmallTalk.Settling
