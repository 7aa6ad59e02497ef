import Mathlib.Logic.Function.Iterate
import Mathlib.Order.Nat
import Mathlib.Tactic

/-!
# Lib — rounds of an operator until it repeats

An operator is applied round after round from a start value. The rounds stop at a fixed point;
at a value that equals the one before the last, where the last two are met; or at a limit, where
the last two are met as well. Nothing here asks the operator to be monotone, so the rounds may
reach none of the first two within any limit.

* `SettledAt`, `Settles`: the rounds stop by themselves at round `k`; at some round below `n`.
* `rounds_eq_standing`, `rounds_eq_agree`: what the rounds return, in the two cases.
* `rounds_of_halts`, `rounds_of_stopsAt`: a fixed point is returned as such, anything else is
  what the last two values share.
* `rounds_factor`: rounds through a projection.
-/

namespace SmallTalk.Rounds

variable {S T : Type*} (f : S → S) (s₀ : S)

/-- The value after `n` rounds. -/
def stage (n : ℕ) : S := f^[n] s₀

@[simp] theorem stage_zero : stage f s₀ 0 = s₀ := rfl

theorem stage_succ (n : ℕ) : stage f s₀ (n + 1) = f (stage f s₀ n) :=
  Function.iterate_succ_apply' f n s₀

/-- What the last two values leave: their meet, or the last one when it is the first. -/
def agree (meet : S → S → S) : Option S → S → S
  | some p, c => meet c p
  | none, c => c

/-- The rounds from `current`, the value before it being `previous`. -/
def rounds [DecidableEq S] (f : S → S) (meet : S → S → S) : ℕ → Option S → S → S
  | 0, previous, current => agree meet previous current
  | n + 1, previous, current =>
    if f current = current then current
    else if previous = some (f current) then agree meet previous current
    else rounds f meet n (some current) (f current)

/-- The value one round before round `k`, if there is one. -/
def before : ℕ → Option S
  | 0 => none
  | k + 1 => some (stage f s₀ k)

theorem before_eq_some {f : S → S} {s₀ s : S} {k : ℕ} :
    before f s₀ k = some s ↔ ∃ j, k = j + 1 ∧ stage f s₀ j = s := by
  cases k <;> simp [before]

/-- Round `k` repeats the value just reached, or the one before it. -/
def SettledAt (k : ℕ) : Prop :=
  stage f s₀ (k + 1) = stage f s₀ k ∨ before f s₀ k = some (stage f s₀ (k + 1))

/-- The rounds stop by themselves before round `n`. -/
def Settles (n : ℕ) : Prop := ∃ k < n, SettledAt f s₀ k

section

variable [DecidableEq S]

instance (f : S → S) (s₀ : S) (k : ℕ) : Decidable (SettledAt f s₀ k) :=
  inferInstanceAs (Decidable (_ ∨ _))

instance (f : S → S) (s₀ : S) (n : ℕ) : Decidable (Settles f s₀ n) :=
  inferInstanceAs (Decidable (∃ k < n, _))

/-- What the rounds return when they stop by themselves at round `k`. -/
def standing (f : S → S) (meet : S → S → S) (s₀ : S) (k : ℕ) : S :=
  if stage f s₀ (k + 1) = stage f s₀ k then stage f s₀ k
  else agree meet (before f s₀ k) (stage f s₀ k)

variable {f s₀} {meet : S → S → S}

/-- One round, at a value reached by `k` rounds. -/
theorem rounds_succ (n k : ℕ) : rounds f meet (n + 1) (before f s₀ k) (stage f s₀ k) =
      if SettledAt f s₀ k then standing f meet s₀ k
      else rounds f meet n (before f s₀ (k + 1)) (stage f s₀ (k + 1)) := by
  simp only [rounds, ← stage_succ]
  by_cases hfix : stage f s₀ (k + 1) = stage f s₀ k
  · have hs : SettledAt f s₀ k := Or.inl hfix
    rw [if_pos hfix, if_pos hs, standing, if_pos hfix]
  · rw [if_neg hfix]
    by_cases halt : before f s₀ k = some (stage f s₀ (k + 1))
    · have hs : SettledAt f s₀ k := Or.inr halt
      rw [if_pos halt, if_pos hs, standing, if_neg hfix]
    · have hs : ¬ SettledAt f s₀ k := not_or.mpr ⟨hfix, halt⟩
      rw [if_neg halt, if_neg hs]
      rfl

/-- The first `k` rounds, when none of them settles. -/
theorem rounds_add {k : ℕ} (h : ∀ j < k, ¬ SettledAt f s₀ j) (n : ℕ) :
    rounds f meet (n + k) none s₀ = rounds f meet n (before f s₀ k) (stage f s₀ k) := by
  induction k generalizing n with
  | zero => rfl
  | succ k ih =>
    rw [← Nat.add_assoc, Nat.add_right_comm, ih (fun j hj => h j (by omega)), rounds_succ,
      if_neg (h k (by omega))]

/-- **A run of rounds that settles** returns what stands at its first settled round. -/
theorem rounds_eq_standing {n k : ℕ} (hk : k < n) (hs : SettledAt f s₀ k)
    (hmin : ∀ j < k, ¬ SettledAt f s₀ j) :
    rounds f meet n none s₀ = standing f meet s₀ k := by
  obtain ⟨m, rfl⟩ : ∃ m, n = m + 1 + k := ⟨n - 1 - k, by omega⟩
  rw [rounds_add hmin, rounds_succ, if_pos hs]

/-- **A run of rounds that does not settle** returns what the last two values leave. -/
theorem rounds_eq_agree {n : ℕ} (h : ¬ Settles f s₀ n) :
    rounds f meet n none s₀ = agree meet (before f s₀ n) (stage f s₀ n) := by
  rw [← Nat.zero_add n, rounds_add (fun j hj hs => h ⟨j, hj, hs⟩), Nat.zero_add]
  rfl

/-- The first settled round of a run that settles. -/
theorem Settles.first {n : ℕ} (h : Settles f s₀ n) :
    ∃ k < n, SettledAt f s₀ k ∧ ∀ j < k, ¬ SettledAt f s₀ j := by
  obtain ⟨k, hk, hs⟩ := h
  have hex : ∃ k, SettledAt f s₀ k := ⟨k, hs⟩
  exact ⟨Nat.find hex, lt_of_le_of_lt (Nat.find_min' hex hs) hk, Nat.find_spec hex,
    fun j hj => Nat.find_min hex hj⟩

/-- Once the rounds settle, a larger limit changes nothing. -/
theorem rounds_of_settles {n m : ℕ} (h : Settles f s₀ n) (hm : n ≤ m) :
    rounds f meet m none s₀ = rounds f meet n none s₀ := by
  obtain ⟨k, hk, hs, hmin⟩ := h.first
  rw [rounds_eq_standing hk hs hmin, rounds_eq_standing (lt_of_lt_of_le hk hm) hs hmin]

/-- Two operators that agree on what the rounds reach return the same. -/
theorem rounds_congr {g : S → S} (P : S → Prop) (h₀ : P s₀) (hP : ∀ s, P s → P (f s))
    (hfg : ∀ s, P s → f s = g s) (n : ℕ) (previous : Option S) :
    rounds f meet n previous s₀ = rounds g meet n previous s₀ := by
  induction n generalizing s₀ previous with
  | zero => rfl
  | succ n ih =>
    simp only [rounds, ← hfg s₀ h₀]
    rw [ih (hP s₀ h₀)]

/-! ### Where the rounds stop -/

omit [DecidableEq S] in
/-- Once the rounds alternate they go on alternating, so they never come to rest unless they
already have. -/
theorem stage_eq_of_alternates {k : ℕ} (h : stage f s₀ (k + 2) = stage f s₀ k) (i : ℕ) :
    stage f s₀ (k + i + 2) = stage f s₀ (k + i) := by
  induction i with
  | zero => exact h
  | succ i ih =>
    show stage f s₀ (k + i + 2 + 1) = stage f s₀ (k + i + 1)
    rw [stage_succ f s₀ (k + i + 2), stage_succ f s₀ (k + i), ih]

omit [DecidableEq S] in
theorem rest_of_alternates {k i : ℕ} (h : stage f s₀ (k + 2) = stage f s₀ k)
    (hi : stage f s₀ (k + i + 1) = stage f s₀ (k + i)) :
    stage f s₀ (k + 1) = stage f s₀ k := by
  induction i with
  | zero => exact hi
  | succ i ih =>
    have hback : stage f s₀ (k + i + 1 + 1) = stage f s₀ (k + i) := stage_eq_of_alternates h i
    exact ih (Eq.trans (Eq.symm hi) hback)

/-- The rounds come to rest at a fixed point before round `n`. -/
def Halts (f : S → S) (s₀ : S) (n : ℕ) : Prop := ∃ k < n, stage f s₀ (k + 1) = stage f s₀ k

/-- The rounds with limit `n` stop at round `k`. -/
def StopsAt (f : S → S) (s₀ : S) (n k : ℕ) : Prop :=
  (∀ j < k, ¬ SettledAt f s₀ j) ∧ (k = n ∨ k < n ∧ SettledAt f s₀ k)

instance (f : S → S) (s₀ : S) (n : ℕ) : Decidable (Halts f s₀ n) :=
  inferInstanceAs (Decidable (∃ k < n, _))

theorem exists_stopsAt (f : S → S) (s₀ : S) (n : ℕ) : ∃ k, StopsAt f s₀ n k := by
  by_cases h : Settles f s₀ n
  · obtain ⟨k, hk, hs, hmin⟩ := h.first
    exact ⟨k, hmin, .inr ⟨hk, hs⟩⟩
  · exact ⟨n, fun j hj hs => h ⟨j, hj, hs⟩, .inl rfl⟩

/-- Rounds that come to rest return a fixed point. -/
theorem rounds_of_halts {n : ℕ} (h : Halts f s₀ n) :
    f (rounds f meet n none s₀) = rounds f meet n none s₀ := by
  obtain ⟨k, hk, hfix⟩ := h
  obtain ⟨j, hj, hs, hmin⟩ := Settles.first ⟨k, hk, .inl hfix⟩
  have hjk : j ≤ k := not_lt.mp fun hlt => hmin k hlt (.inl hfix)
  have hrest : stage f s₀ (j + 1) = stage f s₀ j := by
    rcases hs with hs | hs
    · exact hs
    · obtain ⟨j, rfl, halt⟩ := before_eq_some.mp hs
      obtain ⟨i, rfl⟩ : ∃ i, k = j + i := ⟨k - j, by omega⟩
      rw [← halt]
      exact (rest_of_alternates halt.symm hfix).symm
  rw [rounds_eq_standing hj hs hmin, standing, if_pos hrest, ← stage_succ f s₀ j, hrest]

/-- Rounds that do not come to rest return what the last two values share. -/
theorem rounds_of_stopsAt {n k : ℕ} (h : ¬ Halts f s₀ n) (hs : StopsAt f s₀ n k) :
    rounds f meet n none s₀ = agree meet (before f s₀ k) (stage f s₀ k) := by
  obtain ⟨hmin, rfl | ⟨hk, hset⟩⟩ := hs
  · exact rounds_eq_agree fun ⟨j, hj, hs⟩ => hmin j hj hs
  · rw [rounds_eq_standing hk hset hmin, standing, if_neg fun hfix => h ⟨k, hk, hfix⟩]

/-- What the rounds return is one of the values reached, or what two of them share. -/
theorem rounds_reached (n : ℕ) : ∃ k, rounds f meet n none s₀ = stage f s₀ k ∨
      rounds f meet n none s₀ = agree meet (before f s₀ k) (stage f s₀ k) := by
  by_cases h : Settles f s₀ n
  · obtain ⟨k, hk, hs, hmin⟩ := h.first
    rw [rounds_eq_standing hk hs hmin, standing]
    refine ⟨k, ?_⟩
    split
    · exact .inl rfl
    · exact .inr rfl
  · exact ⟨n, .inr (rounds_eq_agree h)⟩

omit [DecidableEq S] in
/-- Rounds that have come to rest stay where they are. -/
theorem stage_of_rest {k : ℕ} (h : stage f s₀ (k + 1) = stage f s₀ k) (i : ℕ) :
    stage f s₀ (k + i) = stage f s₀ k := by
  induction i with
  | zero => rfl
  | succ i ih =>
    show stage f s₀ (k + i + 1) = stage f s₀ k
    rw [stage_succ, ih, ← stage_succ f s₀ k, h]

/-! ### Operators that the limit does not matter for -/

/-- Two more rounds than `n` return what `n` rounds return. -/
def Steady (f : S → S) (meet : S → S → S) (s₀ : S) (n : ℕ) : Prop :=
  Settles f s₀ n ∨ rounds f meet (n + 2) none s₀ = agree meet (before f s₀ n) (stage f s₀ n)

theorem steady_iff {n : ℕ} :
    Steady f meet s₀ n ↔ rounds f meet (n + 2) none s₀ = rounds f meet n none s₀ := by
  by_cases hs : Settles f s₀ n
  · exact iff_of_true (.inl hs) (rounds_of_settles hs (Nat.le_add_right n 2))
  · rw [Steady, or_iff_right hs, rounds_eq_agree hs]

/-! ### An operator that reads a projection -/

section

variable {g : T → T} {meetT : T → T → T} {t₀ : T} {π : T → S} {G : S → T}

/-- **Rounds through a projection.**  The stages of `g` project to those of `f`, each after the
first is `G` of the projected one before it, and `π` preserves meets. If the rounds of `f` settle
below `n`, the rounds of `g` with a limit of at least `n + 2` return a value that projects to what
the rounds of `f` return. -/
theorem rounds_factor [DecidableEq T] (hp : ∀ k, π (stage g t₀ k) = stage f s₀ k)
    (hs : ∀ k, stage g t₀ (k + 1) = G (stage f s₀ k))
    (hmeet : ∀ a b, π (meetT a b) = meet (π a) (π b)) (hidem : ∀ a, meet a a = a)
    (hcomm : ∀ a b, meet a b = meet b a) {n m : ℕ} (h : Settles f s₀ n) (hm : n + 2 ≤ m) :
    π (rounds g meetT m none t₀) = rounds f meet n none s₀ := by
  obtain ⟨k, hk, hset, hmin⟩ := h.first
  -- `g` settles no earlier than `f`, and at most one round later
  have hdown : ∀ j, SettledAt g t₀ j → SettledAt f s₀ j := by
    rintro j (hj | hj)
    · exact .inl (by rw [← hp, ← hp, hj])
    · obtain ⟨i, rfl, hi⟩ := before_eq_some.mp hj
      exact .inr (before_eq_some.mpr ⟨i, rfl, by rw [← hp, ← hp, hi]⟩)
  have hup : SettledAt g t₀ (k + 1) := by
    rcases hset with hfix | halt
    · exact .inl (by rw [hs, hs, hfix])
    · obtain ⟨i, rfl, hi⟩ := before_eq_some.mp halt
      exact .inr (before_eq_some.mpr ⟨i + 1, rfl, by rw [hs, hs, hi]⟩)
  have hgS : Settles g t₀ m := ⟨k + 1, by omega, hup⟩
  obtain ⟨j, hj, hjset, hjmin⟩ := hgS.first
  have hkj : k ≤ j := not_lt.mp fun hlt => hmin j hlt (hdown j hjset)
  have hjk : j ≤ k + 1 := not_lt.mp fun hlt => hjmin _ hlt hup
  rw [rounds_eq_standing hj hjset hjmin, rounds_eq_standing hk hset hmin]
  unfold standing
  rcases Nat.lt_or_ge k j with hlt | hge
  · -- `g` settles one round after `f`
    obtain rfl : j = k + 1 := by omega
    by_cases hfix : stage f s₀ (k + 1) = stage f s₀ k
    · rw [if_pos hfix]
      split
      · rw [hp, hfix]
      · simp only [before, agree, hmeet, hp, hfix, hidem]
    · obtain ⟨i, rfl, halt⟩ := before_eq_some.mp (hset.resolve_left hfix)
      have hne : stage g t₀ (i + 1 + 1 + 1) ≠ stage g t₀ (i + 1 + 1) := fun he => by
        have hπ := congrArg π he
        rw [hp, hp] at hπ
        have hback : stage f s₀ (i + 1 + 1 + 1) = stage f s₀ (i + 1) := by
          rw [stage_succ f s₀ (i + 1 + 1), ← halt, ← stage_succ f s₀ i]
        exact hfix (hπ.symm.trans hback)
      rw [if_neg hfix, if_neg hne]
      simp only [before, agree, hmeet, hp]
      rw [hcomm, halt]
  · obtain rfl : j = k := by omega
    by_cases hfix : stage f s₀ (j + 1) = stage f s₀ j
    · rw [if_pos hfix]
      split
      · rw [hp]
      · rename_i hne
        -- a repeat of the round before would have settled `f` a round earlier
        rcases hjset with hj' | hj'
        · exact absurd hj' hne
        · obtain ⟨i, rfl, hi⟩ := before_eq_some.mp hj'
          have : stage f s₀ i = stage f s₀ (i + 1) := by rw [← hp i, hi, hp, hfix]
          simp only [before, agree, hmeet, hp, this, hidem]
    · rw [if_neg hfix, if_neg fun he => hfix (by rw [← hp, he, hp])]
      cases j with
      | zero => simp only [before, agree, hp]
      | succ j => simp only [before, agree, hmeet, hp]

end

end

end SmallTalk.Rounds
