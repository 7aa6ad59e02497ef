import SmallTalk.Lib.TreeMap

/-!
# Lib — narrowing a difference by digests

Two sorted lists are compared group by group: each side sends a digest of each of its groups, and
the groups whose digests differ, or that only one side has, are looked at more closely.

* `signs_ne_iff`: the signatures of a group differ exactly when an element of the group is on one
  side only.
-/

namespace SmallTalk.Narrowing

open List Sorted

variable {α β δ κ σ : Type*} [LinearOrder κ]

/-! ### Runs -/

section

variable (key : α → κ) (init : σ) (grow : σ → α → σ) (finish : κ → σ → δ)

/-- The element joins the open run, or closes it and opens the next. -/
def noteRun (state : List δ × Option (κ × σ)) (a : α) : List δ × Option (κ × σ) :=
  match state.2 with
  | some (k, run) =>
    if k = key a then (state.1, some (k, grow run a))
    else (state.1 ++ [finish k run], some (key a, grow init a))
  | none => (state.1, some (key a, grow init a))

/-- The summaries of the runs of one key. -/
def closeRuns (l : List α) : List δ :=
  let (closed, current) := l.foldl (noteRun key init grow finish) ([], none)
  closed ++ (current.map fun (k, run) => finish k run).toList

/-- The summary of the elements of a key. -/
def summary (l : List α) (k : κ) : δ := finish k ((ofKey key l k).foldl grow init)

variable {key init grow finish} {l : List α} {a : α}

theorem keys_append_singleton (hl : (l ++ [a]).Pairwise fun a b => key a ≤ key b) :
    keys key (l ++ [a]) = ((keys key l).filter fun k => k ≠ key a) ++ [key a] := by
  obtain ⟨hl', -, hlast⟩ := pairwise_append.mp hl
  refine eq_of_mem_iff (f := id) (keys_sorted hl) ?_ fun k => ?_
  · refine pairwise_append.mpr ⟨(keys_sorted hl').filter _, pairwise_singleton _ _, ?_⟩
    intro k hk k' hk'
    obtain ⟨hmem, hne⟩ := mem_filter.mp hk
    obtain ⟨b, hb, rfl⟩ := mem_keys.mp hmem
    rw [mem_singleton.mp hk']
    exact lt_of_le_of_ne (hlast b hb a (by simp)) (of_decide_eq_true hne)
  · simp only [Sorted.mem_keys, mem_append, mem_singleton, mem_filter, decide_eq_true_eq]
    constructor
    · rintro ⟨b, hb | rfl, rfl⟩
      · by_cases hne : key b = key a
        · exact .inr hne
        · exact .inl ⟨⟨b, hb, rfl⟩, hne⟩
      · exact .inr rfl
    · rintro (⟨⟨b, hb, rfl⟩, -⟩ | rfl)
      · exact ⟨b, .inl hb, rfl⟩
      · exact ⟨a, .inr rfl, rfl⟩

theorem filter_keys_append_singleton (hl : (l ++ [a]).Pairwise fun a b => key a ≤ key b) :
    ((keys key (l ++ [a])).filter fun k => k ≠ key a) = (keys key l).filter fun k => k ≠ key a := by
  rw [keys_append_singleton hl, filter_append, filter_filter]
  simp

theorem summary_append_of_ne {k : κ} (h : k ≠ key a) :
    summary key init grow finish (l ++ [a]) k = summary key init grow finish l k := by
  simp [summary, ofKey, filter_append, h.symm]

theorem foldl_ofKey_append : (ofKey key (l ++ [a]) (key a)).foldl grow init =
      grow ((ofKey key l (key a)).foldl grow init) a := by
  simp [ofKey, filter_append]

theorem ofKey_append_of_lt {b : α} (hl : (l ++ [b] ++ [a]).Pairwise fun a b => key a ≤ key b)
    (hne : key b ≠ key a) : key a ∉ keys key (l ++ [b]) := by
  intro hmem
  obtain ⟨c, hc, hkey⟩ := mem_keys.mp hmem
  obtain ⟨hl', -, hlast⟩ := pairwise_append.mp hl
  have hba : key b ≤ key a := hlast b (by simp) a (by simp)
  have hcb : key c ≤ key b := by
    rcases mem_append.mp hc with hc | hc
    · exact (pairwise_append.mp hl').2.2 c hc b (by simp)
    · rw [mem_singleton.mp hc]
  exact hne (le_antisymm hba (hkey ▸ hcb))

/-- The runs closed so far are those of all keys but the last. -/
theorem foldl_noteRun (hl : (l ++ [a]).Pairwise fun a b => key a ≤ key b) :
    (l ++ [a]).foldl (noteRun key init grow finish) ([], none) =
      ((((keys key (l ++ [a])).filter fun k => k ≠ key a).map
          (summary key init grow finish (l ++ [a]))),
        some (key a, (ofKey key (l ++ [a]) (key a)).foldl grow init)) := by
  induction l using List.reverseRecOn generalizing a with
  | nil => simp [noteRun, Sorted.keys, ofKey]
  | append_singleton l b ih =>
    have hl' := (pairwise_append.mp hl).1
    rw [foldl_append, ih hl', filter_keys_append_singleton hl, foldl_cons, foldl_nil]
    have hsame : ∀ k ∈ (keys key (l ++ [b])).filter (fun k => k ≠ key a),
        summary key init grow finish (l ++ [b] ++ [a]) k =
          summary key init grow finish (l ++ [b]) k := fun k hk =>
      summary_append_of_ne (of_decide_eq_true (mem_filter.mp hk).2)
    rw [map_congr_left hsame, foldl_ofKey_append (l := l ++ [b]) (a := a)]
    by_cases hkey : key b = key a
    · simp only [noteRun, hkey, if_true]
    · -- The key is new, and the run of the last key before it closes.
      have hnew := ofKey_append_of_lt hl hkey
      have hall : (keys key (l ++ [b])).filter (fun k => k ≠ key a) = keys key (l ++ [b]) :=
        filter_eq_self.mpr fun k hk => decide_eq_true fun heq => hnew (heq ▸ hk)
      have hnone : ofKey key (l ++ [b]) (key a) = [] :=
        not_not.mp fun hne => hnew (ofKey_ne_nil.mp hne)
      rw [hall, hnone]
      simp only [noteRun, if_neg hkey, Prod.mk.injEq, and_true, foldl_nil]
      conv_rhs =>
        rw [keys_append_singleton hl', map_append, ← filter_keys_append_singleton hl']
      rfl

/-- **The runs** of a sorted list are the elements of each key. -/
theorem closeRuns_eq (hl : l.Pairwise fun a b => key a ≤ key b) :
    closeRuns key init grow finish l = (keys key l).map (summary key init grow finish l) := by
  cases l using List.reverseRecOn with
  | nil => rfl
  | append_singleton l a =>
    rw [closeRuns, foldl_noteRun hl]
    conv_rhs =>
      rw [keys_append_singleton hl, map_append, ← filter_keys_append_singleton hl]
    rfl

end

/-! ### Differences -/

section

variable {f : α → β} {group : α → κ} {l l' : List α} {a : α} {k : κ}

/-- An element of one of the lists whose signature the other does not have. -/
def Differs (f : α → β) (l l' : List α) (a : α) : Prop :=
  a ∈ l ∧ f a ∉ l'.map f ∨ a ∈ l' ∧ f a ∉ l.map f

/-- The signatures of a group. -/
def signs (f : α → β) (group : α → κ) (l : List α) (k : κ) : List β := (ofKey group l k).map f

theorem mem_signs {b : β} : b ∈ signs f group l k ↔ ∃ a ∈ l, group a = k ∧ f a = b := by
  simp only [signs, mem_map, mem_ofKey, and_assoc]

theorem signs_eq_nil : signs f group l k = [] ↔ k ∉ keys group l := by
  rw [signs, map_eq_nil_iff, ← not_iff_not, not_not]
  exact ofKey_ne_nil

variable [LinearOrder β]

omit [LinearOrder β] in
theorem signs_subset_iff (hgroup : ∀ a ∈ l, ∀ b ∈ l', f a = f b → group a = group b) :
    signs f group l k ⊆ signs f group l' k ↔ ∀ a ∈ l, group a = k → f a ∈ l'.map f := by
  constructor
  · intro hsub a ha hk
    obtain ⟨b, hb, -, hfb⟩ := mem_signs.mp (hsub (mem_signs.mpr ⟨a, ha, hk, rfl⟩))
    exact mem_map.mpr ⟨b, hb, hfb⟩
  · intro hheld b hb
    obtain ⟨a, ha, hk, rfl⟩ := mem_signs.mp hb
    obtain ⟨b, hb, hfb⟩ := mem_map.mp (hheld a ha hk)
    exact mem_signs.mpr ⟨b, hb, (hgroup a ha b hb hfb.symm).symm.trans hk, hfb⟩

theorem signs_sorted (hl : l.Pairwise fun a b => f a < f b) :
    (signs f group l k).Pairwise (· < ·) :=
  pairwise_map.mpr (hl.filter _)

/-- **A group differs** exactly when one of its elements is on one side only. -/
theorem signs_ne_iff (hl : l.Pairwise fun a b => f a < f b) (hl' : l'.Pairwise fun a b => f a < f b)
    (hgroup : ∀ a ∈ l, ∀ b ∈ l', f a = f b → group a = group b) :
    signs f group l k ≠ signs f group l' k ↔ ∃ a, Differs f l l' a ∧ group a = k := by
  have heq : signs f group l k = signs f group l' k ↔
      signs f group l k ⊆ signs f group l' k ∧ signs f group l' k ⊆ signs f group l k := by
    refine ⟨fun h => h ▸ ⟨Subset.refl _, Subset.refl _⟩, fun ⟨h, h'⟩ => ?_⟩
    exact eq_of_mem_iff (f := id) (signs_sorted hl) (signs_sorted hl') fun b => ⟨@h b, @h' b⟩
  rw [Ne, heq, signs_subset_iff hgroup,
    signs_subset_iff fun a ha b hb hab => (hgroup b hb a ha hab.symm).symm]
  grind [Differs]

/-- The digest of a group, if there is such a group. -/
def indexed (digest : List β → δ) (f : α → β) (group : α → κ) (l : List α) (k : κ) : Option δ :=
  if k ∈ keys group l then some (digest (signs f group l k)) else none

omit [LinearOrder β] in
/-- **Digests** that tell the groups apart differ exactly when the groups do. -/
theorem indexed_ne_iff {digest : List β → δ}
    (hdigest : digest (signs f group l k) = digest (signs f group l' k) →
      signs f group l k = signs f group l' k) :
    indexed digest f group l k ≠ indexed digest f group l' k ↔
      signs f group l k ≠ signs f group l' k := by
  refine not_congr ?_
  unfold indexed
  by_cases h : k ∈ keys group l <;> by_cases h' : k ∈ keys group l'
  · rw [if_pos h, if_pos h', Option.some.injEq]
    exact ⟨hdigest, congrArg digest⟩
  · rw [if_pos h, if_neg h', signs_eq_nil.mpr h', signs_eq_nil]
    simp [h]
  · rw [if_neg h, if_pos h', signs_eq_nil.mpr h, eq_comm, eq_comm (a := []), signs_eq_nil]
    simp [h']
  · rw [if_neg h, if_neg h', signs_eq_nil.mpr h, signs_eq_nil.mpr h']
    simp

end

end SmallTalk.Narrowing
