import Mathlib.Data.List.Basic

/-!
# Lib — entries changed in place

A list of entries with a key, where the first entry of a key stands for it (`lookup`) and is changed
where it stands (`updateFirst`).

* `lookup_updateFirst`, `lookup_updateFirst_of_ne`: the change is seen at its key only.
* `updateFirst_eq_self_iff`: what a change that changes nothing is.
* `lookup_append`, `lookup_filter`: entries added behind the others, and entries kept.
-/

namespace SmallTalk.Entries

variable {α κ : Type*} [DecidableEq κ] (key : α → κ)

/-- The first entry of a key. -/
def lookup (k : κ) (l : List α) : Option α := l.find? fun a => key a = k

/-- Change the first entry of a key. -/
def updateFirst (k : κ) (change : α → α) : List α → List α
  | [] => []
  | a :: l => if key a = k then change a :: l else a :: updateFirst k change l

variable {key} {k k' : κ} {a b : α} {l l' : List α} {change : α → α}

@[simp] theorem lookup_nil : lookup key k [] = none := rfl

theorem lookup_cons : lookup key k (a :: l) = if key a = k then some a else lookup key k l := by
  by_cases h : key a = k
  · simp [lookup, h]
  · simp [lookup, h]

theorem key_of_lookup (h : lookup key k l = some a) : key a = k := by
  simpa using List.find?_some h

theorem mem_of_lookup (h : lookup key k l = some a) : a ∈ l := List.mem_of_find?_eq_some h

theorem lookup_append : lookup key k (l ++ l') = (lookup key k l).or (lookup key k l') :=
  List.find?_append

theorem lookup_updateFirst (hkey : ∀ a, key (change a) = key a) :
    lookup key k (updateFirst key k change l) = (lookup key k l).map change := by
  induction l with
  | nil => rfl
  | cons a l ih =>
    by_cases h : key a = k
    · simp [updateFirst, lookup_cons, h, hkey]
    · simp [updateFirst, lookup_cons, h, ih]

theorem lookup_updateFirst_of_ne (hkey : ∀ a, key (change a) = key a) (hne : k' ≠ k) :
    lookup key k' (updateFirst key k change l) = lookup key k' l := by
  induction l with
  | nil => rfl
  | cons a l ih =>
    by_cases h : key a = k
    · simp [updateFirst, lookup_cons, h, hkey, hne.symm]
    · simp [updateFirst, lookup_cons, h, ih]

theorem mem_updateFirst (h : b ∈ updateFirst key k change l) :
    b ∈ l ∨ ∃ a, lookup key k l = some a ∧ b = change a := by
  induction l with
  | nil => cases h
  | cons a l ih =>
    by_cases hk : key a = k
    · rw [updateFirst, if_pos hk] at h
      rcases List.mem_cons.mp h with rfl | h
      · exact .inr ⟨a, by rw [lookup_cons, if_pos hk], rfl⟩
      · exact .inl (List.mem_cons_of_mem _ h)
    · rw [updateFirst, if_neg hk] at h
      rw [lookup_cons, if_neg hk]
      rcases List.mem_cons.mp h with rfl | h
      · exact .inl List.mem_cons_self
      · exact (ih h).imp_left (List.mem_cons_of_mem _)

theorem updateFirst_eq_self_iff :
    updateFirst key k change l = l ↔ ∀ a, lookup key k l = some a → change a = a := by
  induction l with
  | nil => simp [updateFirst]
  | cons a l ih =>
    by_cases h : key a = k
    · simp [updateFirst, lookup_cons, h]
    · simp [updateFirst, lookup_cons, h, ih]

/-- An entry that is kept still stands for its key. -/
theorem lookup_filter {keep : α → Bool} (h : lookup key k l = some a) (hkeep : keep a = true) :
    lookup key k (l.filter keep) = some a := by
  obtain ⟨ha, pre, post, rfl, hpre⟩ := List.find?_eq_some_iff_append.mp h
  rw [List.filter_append, List.filter_cons_of_pos hkeep]
  refine List.find?_eq_some_iff_append.mpr ⟨ha, pre.filter keep, post.filter keep, rfl, ?_⟩
  exact fun b hb => hpre b (List.mem_of_mem_filter hb)

end SmallTalk.Entries
