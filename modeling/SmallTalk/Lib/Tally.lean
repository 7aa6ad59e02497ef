import SmallTalk.Lib.TreeMap
import Mathlib.Algebra.BigOperators.Finprod
import Mathlib.Data.List.Nodup
import Mathlib.Tactic.Abel

/-!
# Lib — a total kept up to date

A source holds at most one row for each key. Its total is the sum of what its rows are worth, in
a commutative group.

* `total_of_eq_off`: a change at one key changes the total by the row that went and the row that
  came.
* `sum_listed`: the total is what reading the rows off a list gives, in whatever order.
* `Lists.append`, `lists_entries`, `lists_filterMap`: the lists of a source that is made of others.
-/

namespace SmallTalk.Tally

open List

variable {κ β M : Type*} [AddCommGroup M] {f f' : κ → Option β} {k : κ}

/-- What a row is worth; no row is worth nothing. -/
def worth (g : β → M) (row : Option β) : M := row.elim 0 g

@[simp] theorem worth_none (g : β → M) : worth g none = 0 := rfl

@[simp] theorem worth_some (g : β → M) (row : β) : worth g (some row) = g row := rfl

/-- What all rows of a source are worth. -/
noncomputable def total (g : β → M) (f : κ → Option β) : M := ∑ᶠ k, worth g (f k)

/-- A source with finitely many rows. -/
def HasFinite (f : κ → Option β) : Prop := {k | f k ≠ none}.Finite

theorem HasFinite.support {g : β → M} (h : HasFinite f) :
    (Function.support fun k => worth g (f k)).Finite := by
  refine Set.Finite.subset h fun k hk hnone => hk ?_
  simp [hnone]

theorem HasFinite.of_eq_off (h : HasFinite f) (hoff : ∀ k', k' ≠ k → f' k' = f k') :
    HasFinite f' := by
  refine Set.Finite.subset (h.insert k) fun k' hk' => ?_
  by_cases heq : k' = k
  · exact Or.inl heq
  · exact Or.inr fun hnone => hk' ((hoff k' heq).trans hnone)

/-- **One row changes.** -/
theorem total_of_eq_off (g : β → M) (h : HasFinite f) (hoff : ∀ k', k' ≠ k → f' k' = f k') :
    total g f' = total g f - worth g (f k) + worth g (f' k) := by
  have hdiff : total g f' - total g f = worth g (f' k) - worth g (f k) := by
    rw [total, total, ← finsum_sub_distrib (h.of_eq_off hoff).support h.support]
    exact finsum_eq_single _ k fun k' hne => by rw [hoff k' hne, sub_self]
  rw [sub_eq_iff_eq_add.mp hdiff]
  abel

/-! ### Reading the rows off a list -/

/-- A list that names each row of a source once. -/
structure Lists (l : List (κ × β)) (f : κ → Option β) : Prop where
  nodup : (l.map Prod.fst).Nodup
  mem_iff : ∀ k row, (k, row) ∈ l ↔ f k = some row

variable {l l' : List (κ × β)}

theorem Lists.congr (h : Lists l f) (hsame : ∀ k, f' k = f k) : Lists l f' := by
  rwa [funext hsame]

/-- One source, and another where the first has no row. -/
theorem Lists.append (h : Lists l f) (h' : Lists l' f') (hapart : ∀ k, f k ≠ none → f' k = none) :
    Lists (l ++ l') fun k => (f k).or (f' k) where
  nodup := by
    rw [map_append]
    refine nodup_append.mpr ⟨h.nodup, h'.nodup, ?_⟩
    rintro k hk _ hk' rfl
    obtain ⟨⟨_, row⟩, hrow, rfl⟩ := mem_map.mp hk
    obtain ⟨⟨_, row'⟩, hrow', rfl⟩ := mem_map.mp hk'
    have hsome := (h.mem_iff _ row).mp hrow
    have hnone := hapart _ (hsome ▸ Option.some_ne_none row)
    rw [(h'.mem_iff _ row').mp hrow'] at hnone
    cases hnone
  mem_iff k row := by
    rw [mem_append, h.mem_iff, h'.mem_iff, Option.or_eq_some_iff]
    constructor
    · rintro (hrow | hrow)
      · exact .inl hrow
      · refine .inr ⟨?_, hrow⟩
        by_contra hne
        rw [hapart k hne] at hrow
        cases hrow
    · rintro (hrow | ⟨-, hrow⟩)
      · exact .inl hrow
      · exact .inr hrow

/-- The rows of a map, by key. -/
theorem lists_entries {κ γ : Type*} [LinearOrder κ] (m : TreeMap κ γ) (g : κ → γ → β) :
    Lists (m.entries.map fun entry => (entry.1, g entry.1 entry.2))
      fun k => (m.get k).map (g k) where
  nodup := by
    rw [map_map]
    exact m.nodup_keys
  mem_iff k row := by
    rw [mem_map, Option.map_eq_some_iff]
    constructor
    · rintro ⟨⟨k', v⟩, hentry, heq⟩
      obtain ⟨rfl, rfl⟩ := Prod.mk.inj heq
      exact ⟨v, TreeMap.mem_entries.mp hentry, rfl⟩
    · rintro ⟨v, hget, rfl⟩
      exact ⟨(k, v), TreeMap.mem_entries.mpr hget, rfl⟩

/-- The rows of a source at some keys. -/
theorem lists_filterMap [DecidableEq κ] {keys : List κ} (hkeys : keys.Nodup) (f : κ → Option β) :
    Lists (keys.filterMap fun k => (f k).map (k, ·)) fun k => if k ∈ keys then f k else none where
  nodup := by
    have hsub : (keys.filterMap fun k => (f k).map (k, ·)).map Prod.fst =
        keys.filter fun k => (f k).isSome := by
      clear hkeys
      induction keys with
      | nil => rfl
      | cons k keys ih => cases hrow : f k <;> simp [hrow, ih]
    rw [hsub]
    exact hkeys.filter _
  mem_iff k row := by
    rw [mem_filterMap, Option.ite_none_right_eq_some]
    constructor
    · rintro ⟨k', hk', hrow⟩
      obtain ⟨row', hrow', heq⟩ := Option.map_eq_some_iff.mp hrow
      obtain ⟨rfl, rfl⟩ := Prod.mk.inj heq
      exact ⟨hk', hrow'⟩
    · rintro ⟨hk, hrow⟩
      exact ⟨k, hk, by rw [hrow]; rfl⟩

/-- A map filled from the rows of a source. -/
theorem Lists.get_ofLast {κ : Type*} [LinearOrder κ] {l : List (κ × β)} {f : κ → Option β}
    (h : Lists l f) (k : κ) : (TreeMap.ofLast some l).get k = f k := by
  refine Option.ext fun row => ?_
  rw [← h.mem_iff]
  exact (TreeMap.get_ofLast_of_nodup (f := id) h.nodup).trans (by simp)

theorem Lists.hasFinite (h : Lists l f) : HasFinite f := by
  refine Set.Finite.subset (l.map Prod.fst).finite_toSet fun k hk => ?_
  obtain ⟨row, hrow⟩ := Option.ne_none_iff_exists'.mp hk
  exact mem_map.mpr ⟨(k, row), (h.mem_iff k row).mpr hrow, rfl⟩

theorem sum_listed (g : β → M) (h : Lists l f) :
    (l.map fun entry => g entry.2).sum = total g f := by
  classical
  have hkeys : (Function.support fun k => worth g (f k)) ⊆ (l.map Prod.fst).toFinset := by
    intro k hk
    have hne : f k ≠ none := fun hnone => hk (by simp [hnone])
    obtain ⟨row, hrow⟩ := Option.ne_none_iff_exists'.mp hne
    exact mem_toFinset.mpr (mem_map.mpr ⟨(k, row), (h.mem_iff k row).mpr hrow, rfl⟩)
  rw [total, finsum_eq_sum_of_support_subset _ hkeys, sum_toFinset _ h.nodup, map_map]
  refine congrArg List.sum (map_congr_left fun entry hentry => ?_)
  simp [(h.mem_iff entry.1 entry.2).mp hentry]

end SmallTalk.Tally
