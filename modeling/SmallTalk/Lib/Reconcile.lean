import Mathlib.Data.Finset.Card

/-!
# Lib — Reconciling two sets

Two parties hold finite sets, and steps copy elements from one to the other. A step that copies
something whenever the sets differ brings them closer (`Copies.apart_lt`), so as many steps as they
are `apart` make both the union (`foldl_reconciled`).
-/

namespace SmallTalk.Reconcile

open Finset

variable {α : Type*} [DecidableEq α] {A B C D : Finset α}

/-- How many elements one set has and the other lacks. -/
def apart (A B : Finset α) : ℕ := (A \ B).card + (B \ A).card

/-- From `A` and `B` to `C` and `D`: elements are only copied, and some are if the sets differ. -/
structure Copies (A B C D : Finset α) : Prop where
  first : A ⊆ C
  second : B ⊆ D
  union : C ∪ D ⊆ A ∪ B
  progress : A ≠ B → C ≠ A ∨ D ≠ B

theorem apart_comm (A B : Finset α) : apart A B = apart B A := Nat.add_comm _ _

theorem apart_eq_zero : apart A B = 0 ↔ A = B := by
  rw [apart, Nat.add_eq_zero_iff, card_eq_zero, card_eq_zero,
    sdiff_eq_empty_iff_subset, sdiff_eq_empty_iff_subset]
  exact ⟨fun h => h.1.antisymm h.2, fun h => ⟨h.subset, h.superset⟩⟩

namespace Copies

variable (h : Copies A B C D)

include h

theorem symm : Copies B A D C where
  first := h.second
  second := h.first
  union := by rw [union_comm, union_comm B]; exact h.union
  progress hne := (h.progress hne.symm).symm

theorem union_eq : C ∪ D = A ∪ B :=
  h.union.antisymm (union_subset_union h.first h.second)

theorem sdiff_subset : C \ D ⊆ A \ B := by
  intro x hx
  obtain ⟨hA, hB⟩ := mem_sdiff.mp hx
  have hnot : x ∉ B := fun hx => hB (h.second hx)
  refine mem_sdiff.mpr ⟨?_, hnot⟩
  exact (mem_union.mp (h.union (mem_union_left _ hA))).resolve_right hnot

theorem apart_lt_of_ne (hne : C ≠ A) : apart C D < apart A B := by
  obtain ⟨x, hx, hnot⟩ := exists_of_ssubset (h.first.ssubset_of_ne hne.symm)
  have hB : x ∈ B :=
    (mem_union.mp (h.union (mem_union_left _ hx))).resolve_left hnot
  have hlt : (D \ C).card < (B \ A).card := by
    refine card_lt_card ⟨h.symm.sdiff_subset, fun hsub => ?_⟩
    exact (mem_sdiff.mp (hsub (mem_sdiff.mpr ⟨hB, hnot⟩))).2 hx
  exact Nat.add_lt_add_of_le_of_lt (card_le_card h.sdiff_subset) hlt

theorem apart_lt (hne : A ≠ B) : apart C D < apart A B := by
  rcases h.progress hne with hA | hB
  · exact h.apart_lt_of_ne hA
  · rw [apart_comm C, apart_comm A]
    exact h.symm.apart_lt_of_ne hB

end Copies

/-- **Reconciliation**: as many copying steps as the sets are apart make both the union. -/
theorem foldl_reconciled {σ ι : Type*} {step : σ → ι → σ} (first second : σ → Finset α)
    (Inv : σ → Prop) (hinv : ∀ s i, Inv s → Inv (step s i))
    (hstep : ∀ s i, Inv s → Copies (first s) (second s) (first (step s i)) (second (step s i)))
    (is : List ι) {s : σ} (hs : Inv s) (hlen : apart (first s) (second s) ≤ is.length) :
    first (is.foldl step s) = first s ∪ second s ∧
      second (is.foldl step s) = first s ∪ second s := by
  induction is generalizing s with
  | nil =>
    have heq := apart_eq_zero.mp (Nat.le_zero.mp hlen)
    rw [List.foldl_nil, heq, union_idempotent]
    exact ⟨rfl, rfl⟩
  | cons i is ih =>
    have hcopies := hstep s i hs
    rw [List.foldl_cons, ← hcopies.union_eq]
    refine ih (hinv s i hs) ?_
    by_cases heq : first s = second s
    · -- Nothing is left to copy.
      have hzero : apart (first (step s i)) (second (step s i)) = 0 := by
        refine apart_eq_zero.mpr ?_
        have hunion := hcopies.union
        rw [heq, union_idempotent] at hunion
        have hf := heq ▸ hcopies.first
        exact ((union_subset_left hunion).antisymm hf).trans
          (hcopies.second.antisymm (union_subset_right hunion))
      omega
    · have hlt := hcopies.apart_lt heq
      rw [List.length_cons] at hlen
      omega

end SmallTalk.Reconcile
