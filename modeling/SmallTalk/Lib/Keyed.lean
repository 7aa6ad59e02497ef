import Mathlib.Data.List.Nodup

/-!
# Lib — tables that insert or ignore

A table has a key, and a row whose key is taken is not inserted (`insertNew`). So an insertion of
rows keeps what the table had under their keys: the table holds the rows themselves only if those
agree (`mem_insertAll`).
-/

namespace SmallTalk.Keyed

open List

variable {α κ τ : Type*} [DecidableEq κ] (key : α → κ)

/-- `INSERT OR IGNORE` of one row. -/
def insertNew (rows : List α) (a : α) : List α :=
  if key a ∈ rows.map key then rows else rows ++ [a]

def insertAll (rows l : List α) : List α := l.foldl (insertNew key) rows

/-- A column of the new rows, by their keys. -/
def stamp (rows l : List α) (tag : τ) (column : κ → τ) : κ → τ := fun k =>
  if k ∈ l.map key ∧ k ∉ rows.map key then tag else column k

/-- One row after another goes into the table, and what else there is stays. -/
theorem foldl_insertNew {σ β : Type*} (step : σ → α → σ) (table : σ → List α) (other : σ → β)
    (h : ∀ s a, table (step s a) = insertNew key (table s) a ∧ other (step s a) = other s)
    (l : List α) (s : σ) :
    table (l.foldl step s) = insertAll key (table s) l ∧ other (l.foldl step s) = other s := by
  induction l generalizing s with
  | nil => exact ⟨rfl, rfl⟩
  | cons a l ih =>
    rw [foldl_cons, (ih _).1, (ih _).2, (h s a).1, (h s a).2]
    exact ⟨rfl, rfl⟩

variable {key} {rows l : List α} {a c : α}

theorem mem_insertNew (h : ∀ r ∈ rows, key r = key a → r = a) :
    c ∈ insertNew key rows a ↔ c ∈ rows ∨ c = a := by
  unfold insertNew
  split
  case isTrue htaken =>
    obtain ⟨r, hr, hkey⟩ := mem_map.mp htaken
    obtain rfl := h r hr hkey
    exact ⟨.inl, fun hc => hc.elim id fun heq => heq ▸ hr⟩
  case isFalse => rw [mem_append, mem_singleton]

/-- **Rows that agree** are all in the table. -/
theorem mem_insertAll (hrows : ∀ r ∈ rows, ∀ a ∈ l, key r = key a → r = a)
    (hl : ∀ a ∈ l, ∀ b ∈ l, key a = key b → a = b) :
    c ∈ insertAll key rows l ↔ c ∈ rows ∨ c ∈ l := by
  induction l generalizing rows with
  | nil => simp [insertAll]
  | cons a l ih =>
    have hnew : ∀ {c}, c ∈ insertNew key rows a ↔ c ∈ rows ∨ c = a :=
      mem_insertNew fun r hr => hrows r hr a mem_cons_self
    have hagree : ∀ r ∈ insertNew key rows a, ∀ b ∈ l, key r = key b → r = b := by
      intro r hr b hb
      rcases hnew.mp hr with hr | rfl
      · exact hrows r hr b (mem_cons_of_mem _ hb)
      · exact hl r mem_cons_self b (mem_cons_of_mem _ hb)
    have hrest := ih hagree fun b hb b' hb' =>
      hl b (mem_cons_of_mem _ hb) b' (mem_cons_of_mem _ hb')
    rw [insertAll, foldl_cons, ← insertAll, hrest, hnew, mem_cons, or_assoc]

theorem prefix_insertAll : rows <+: insertAll key rows l := by
  induction l generalizing rows with
  | nil => exact prefix_rfl
  | cons a l ih =>
    refine IsPrefix.trans ?_ ih
    unfold insertNew
    split
    · exact prefix_rfl
    · exact prefix_append _ _

theorem mem_of_mem_insertAll (h : c ∈ insertAll key rows l) : c ∈ rows ∨ c ∈ l := by
  induction l generalizing rows with
  | nil => exact .inl h
  | cons a l ih =>
    rcases ih h with h | h
    · unfold insertNew at h
      split at h
      case isTrue => exact .inl h
      case isFalse =>
        rcases mem_append.mp h with h | h
        · exact .inl h
        · exact .inr (mem_cons.mpr (.inl (mem_singleton.mp h)))
    · exact .inr (mem_cons_of_mem _ h)

/-- The column of a row is that of the rows before, or the new one. -/
theorem stamp_insertAll {P : τ → Prop} {tag : τ} {column : κ → τ} (htag : P tag)
    (hrows : ∀ r ∈ rows, P (column (key r))) (hc : c ∈ insertAll key rows l) :
    P (stamp key rows l tag column (key c)) := by
  unfold stamp
  split
  case isTrue => exact htag
  case isFalse hold =>
    rcases mem_of_mem_insertAll hc with hc | hc
    · exact hrows c hc
    · rw [not_and, not_not] at hold
      obtain ⟨r, hr, hkey⟩ := mem_map.mp (hold (mem_map_of_mem hc))
      exact hkey ▸ hrows r hr

theorem nodup_insertAll (h : (rows.map key).Nodup) : ((insertAll key rows l).map key).Nodup := by
  induction l generalizing rows with
  | nil => exact h
  | cons a l ih =>
    refine ih ?_
    unfold insertNew
    split
    case isTrue => exact h
    case isFalse hnew =>
      rw [map_append, nodup_append_comm]
      exact nodup_cons.mpr ⟨hnew, h⟩

end SmallTalk.Keyed
