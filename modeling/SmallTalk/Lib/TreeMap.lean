import SmallTalk.Lib.Sorted

/-!
# Lib — maps in key order

A `TreeMap` is its entries in the order of their keys, one for each key. It is known by what it
holds at each key (`ext_get`), and a map filled from a list holds the first or the last value that
the list has for a key (`get_ofFirst`, `get_ofLast`).
-/

namespace SmallTalk

open List Sorted

/-- A map, as its entries (`BTreeMap`). -/
structure TreeMap (κ β : Type*) [LinearOrder κ] where
  entries : List (κ × β)
  sorted : entries.Pairwise fun a b => a.1 < b.1

namespace TreeMap

variable {κ β γ α : Type*} [LinearOrder κ] (m : TreeMap κ β) {m' : TreeMap κ β} {k k' : κ} {v : β}
  (f : α → Option (κ × β))

instance [DecidableEq β] : DecidableEq (TreeMap κ β) := fun m m' =>
  decidable_of_iff (m.entries = m'.entries) (by cases m; cases m'; simp)

/-- The empty map. -/
def empty : TreeMap κ β := ⟨[], .nil⟩

def get (k : κ) : Option β := m.entries.lookup k

/-- `BTreeMap::insert`. -/
def insert (k : κ) (v : β) : TreeMap κ β :=
  ⟨upsert Prod.fst m.entries (k, v), (upsert_spec m.sorted (k, v)).1⟩

/-- `BTreeMap::entry` with `or_insert`. -/
def orInsert (k : κ) (v : β) : TreeMap κ β :=
  if (m.get k).isSome then m else m.insert k v

/-- Change what the map holds at `k`, from `start` on (`BTreeMap::entry` with `or_default`). -/
def modify (k : κ) (start : β) : Option (β → β) → TreeMap κ β
  | some f => m.insert k (f ((m.get k).getD start))
  | none => m

/-- `BTreeMap::retain`. -/
def filter (p : κ → β → Bool) : TreeMap κ β :=
  ⟨m.entries.filter fun entry => p entry.1 entry.2, m.sorted.filter _⟩

/-- `BTreeMap::remove`. -/
def erase (k : κ) : TreeMap κ β := m.filter fun k' _ => k' ≠ k

/-- The map that holds `v` at `k`, or nothing. -/
def put (k : κ) : Option β → TreeMap κ β
  | some v => m.insert k v
  | none => m.erase k

def map (f : β → γ) : TreeMap κ γ :=
  ⟨m.entries.map fun entry => (entry.1, f entry.2), pairwise_map.mpr m.sorted⟩

variable {m}

/-! ### What a map holds -/

theorem mem_entries : (k, v) ∈ m.entries ↔ m.get k = some v := by
  obtain ⟨entries, hsorted⟩ := m
  show (k, v) ∈ entries ↔ entries.lookup k = some v
  induction hsorted with
  | nil => simp
  | @cons entry entries hlt _ ih =>
    obtain ⟨k₀, v₀⟩ := entry
    by_cases hk : k = k₀
    · subst hk
      have hnew : (k, v) ∉ entries := fun hmem => lt_irrefl k (hlt (k, v) hmem)
      simp [hnew, eq_comm]
    · simp [lookup_cons, hk, beq_eq_false_iff_ne.mpr hk, ih]

/-- A map is known by what it holds. -/
theorem ext_get (h : ∀ k, m.get k = m'.get k) : m = m' := by
  have heq : m.entries = m'.entries :=
    eq_of_mem_iff m.sorted m'.sorted fun ⟨k, v⟩ => by rw [mem_entries, mem_entries, h k]
  cases m
  cases m'
  simpa using heq

@[simp] theorem get_empty : (empty : TreeMap κ β).get k = none := rfl

@[simp] theorem get_insert : (m.insert k v).get k' = if k' = k then some v else m.get k' := by
  refine Option.ext fun w => ?_
  rw [← mem_entries]
  refine ((upsert_spec m.sorted (k, v)).2 (k', w)).trans ?_
  rw [mem_entries]
  by_cases hk : k' = k
  · simp [hk, eq_comm]
  · simp [hk]

@[simp] theorem get_orInsert :
    (m.orInsert k v).get k' = if k' = k then (m.get k).or (some v) else m.get k' := by
  unfold orInsert
  cases hget : m.get k with
  | none => simp
  | some w =>
    by_cases hk : k' = k
    · simp [hk, hget]
    · simp [hk]

@[simp] theorem modify_none {start : β} : m.modify k start none = m := rfl

@[simp] theorem get_modify_some {start : β} {f : β → β} : (m.modify k start (some f)).get k' =
      if k' = k then some (f ((m.get k).getD start)) else m.get k' :=
  get_insert

theorem get_filter {p : κ → β → Bool} : (m.filter p).get k = (m.get k).filter (p k) := by
  refine Option.ext fun v => ?_
  rw [← mem_entries, Option.filter_eq_some_iff, ← mem_entries]
  exact mem_filter

@[simp] theorem get_erase : (m.erase k).get k' = if k' = k then none else m.get k' := by
  rw [erase, get_filter]
  by_cases hk : k' = k
  · simp [hk]
  · cases hget : m.get k' with
    | none => simp
    | some v => simp [hk, Option.filter]

@[simp] theorem get_put {v : Option β} : (m.put k v).get k' = if k' = k then v else m.get k' := by
  cases v with
  | none => exact get_erase
  | some v => exact get_insert

theorem nodup_keys (m : TreeMap κ β) : (m.entries.map Prod.fst).Nodup :=
  (pairwise_map.mpr m.sorted).nodup

theorem get_map {f : β → γ} : (m.map f).get k = (m.get k).map f := by
  refine Option.ext fun w => ?_
  rw [← mem_entries, Option.map_eq_some_iff]
  constructor
  · intro h
    obtain ⟨⟨k₀, v⟩, hmem, heq⟩ := mem_map.mp h
    obtain ⟨rfl, rfl⟩ := Prod.mk.injEq .. ▸ heq
    exact ⟨v, mem_entries.mp hmem, rfl⟩
  · rintro ⟨v, hget, rfl⟩
    exact mem_map.mpr ⟨(k, v), mem_entries.mpr hget, rfl⟩

/-! ### Filling a map from a list -/

/-- The first value the list has for each key. -/
def ofFirst (l : List α) : TreeMap κ β :=
  l.foldl (fun m a => match f a with
    | some (k, v) => m.orInsert k v
    | none => m) empty

/-- The last value the list has for each key. -/
def ofLast (l : List α) : TreeMap κ β :=
  l.foldl (fun m a => match f a with
    | some (k, v) => m.insert k v
    | none => m) empty

/-- The value of an element, when its key is `k`. -/
def valueAt (k : κ) (a : α) : Option β :=
  (f a).bind fun entry => if entry.1 = k then some entry.2 else none

theorem valueAt_eq_some {f : α → Option (κ × β)} {a : α} :
    valueAt f k a = some v ↔ f a = some (k, v) := by
  simp only [valueAt, Option.bind_eq_some_iff]
  constructor
  · rintro ⟨⟨k₀, v₀⟩, hfa, hif⟩
    obtain ⟨hk, hv⟩ := Option.ite_none_right_eq_some.mp hif
    rw [hfa, ← hk, ← Option.some.inj hv]
  · exact fun hfa => ⟨(k, v), hfa, if_pos rfl⟩

theorem get_ofFirst (l : List α) : (ofFirst f l).get k = l.findSome? (valueAt f k) := by
  have hfold : ∀ m : TreeMap κ β, (l.foldl (fun m a => match f a with
      | some (k, v) => m.orInsert k v
      | none => m) m).get k = (m.get k).or (l.findSome? (valueAt f k)) := by
    induction l with
    | nil => simp
    | cons a l ih =>
      intro m
      rw [foldl_cons, ih, findSome?_cons]
      cases hfa : f a with
      | none => simp [valueAt, hfa]
      | some entry =>
        obtain ⟨k₀, v₀⟩ := entry
        by_cases hk : k = k₀
        · simp [valueAt, hfa, hk]
        · simp [valueAt, hfa, hk, Ne.symm hk]
  rw [ofFirst, hfold, get_empty, Option.none_or]

theorem get_ofLast (l : List α) : (ofLast f l).get k = l.reverse.findSome? (valueAt f k) := by
  induction l using List.reverseRecOn with
  | nil => rfl
  | append_singleton l a ih =>
    rw [reverse_append, reverse_singleton, singleton_append,
      findSome?_cons, ← ih, ofLast, foldl_append]
    cases hfa : f a with
    | none => simp [valueAt, hfa, ofLast]
    | some entry =>
      obtain ⟨k₀, v₀⟩ := entry
      by_cases hk : k = k₀
      · simp [valueAt, hfa, hk]
      · simp [valueAt, hfa, hk, Ne.symm hk, ofLast]

/-- A map filled from a list with one value for each key holds the list. -/
theorem get_ofLast_of_nodup {f : α → κ × β} {l : List α} (hnodup : (l.map fun a => (f a).1).Nodup) :
    (ofLast (fun a => some (f a)) l).get k = some v ↔ ∃ a ∈ l, f a = (k, v) := by
  rw [get_ofLast]
  constructor
  · intro h
    obtain ⟨a, ha, hvalue⟩ := exists_of_findSome?_eq_some h
    exact ⟨a, mem_reverse.mp ha, Option.some.inj (valueAt_eq_some.mp hvalue)⟩
  · rintro ⟨a, ha, hfa⟩
    have hat : valueAt (fun a => some (f a)) k a = some v := valueAt_eq_some.mpr (congrArg some hfa)
    cases hfind : l.reverse.findSome? (valueAt (fun a => some (f a)) k) with
    | none => simp [findSome?_eq_none_iff.mp hfind a (mem_reverse.mpr ha)] at hat
    | some w =>
      obtain ⟨b, hb, hvalue⟩ := exists_of_findSome?_eq_some hfind
      have hfb : f b = (k, w) := Option.some.inj (valueAt_eq_some.mp hvalue)
      have hab : b = a := inj_on_of_nodup_map hnodup (mem_reverse.mp hb) ha
        (by rw [hfa, hfb])
      rw [hab, hfa] at hfb
      rw [(Prod.mk.inj hfb).2]

/-- A map from keys holds the value of each of them. -/
theorem get_ofLast_keys (keys : List κ) (value : κ → β) :
    (ofLast (fun k => some (k, value k)) keys).get k =
      if k ∈ keys then some (value k) else none := by
  induction keys using List.reverseRecOn with
  | nil => rfl
  | append_singleton keys k' ih =>
    have hlast : ofLast (fun k => some (k, value k)) (keys ++ [k']) =
        (ofLast (fun k => some (k, value k)) keys).insert k' (value k') := foldl_append
    rw [hlast, get_insert, ih]
    by_cases hk : k = k' <;> simp [hk]

theorem get_ofLast_of_key (p : α → Bool) (key : α → κ) (value : α → β) (l : List α) :
    (ofLast (fun a => if p a then some (key a, value a) else none) l).get k =
      (l.filter fun a => p a && decide (key a = k)).getLast?.map value := by
  rw [get_ofLast, ← head?_reverse, ← filter_reverse, head?_filter]
  induction l.reverse with
  | nil => rfl
  | cons a l ih =>
    rw [findSome?_cons, find?_cons, ih]
    cases hp : p a with
    | false => simp [valueAt, hp]
    | true =>
      by_cases hk : key a = k
      · simp [valueAt, hp, hk]
      · simp [valueAt, hp, hk]

/-- A fold that changes what a map holds at the key of each element holds, at a key, the fold over
the elements of the key. -/
theorem get_foldl_modify (key : α → κ) (note : α → Option (β → β)) (start : β) (l : List α) :
    (l.foldl (fun m a => m.modify (key a) start (note a)) (empty : TreeMap κ β)).get k =
      let own := l.filter fun a => (note a).isSome && decide (key a = k)
      if own = [] then none else some (own.foldl (fun b a => (note a).elim b (· b)) start) := by
  induction l using List.reverseRecOn with
  | nil => rfl
  | append_singleton l a ih =>
    rw [foldl_append, filter_append]
    simp only [foldl_cons, foldl_nil] at ih ⊢
    cases hnote : note a with
    | none => simpa [hnote] using ih
    | some f =>
      by_cases hk : key a = k
      · subst hk
        simp only [get_modify_some, if_true, ih]
        by_cases hown : (l.filter fun b => (note b).isSome && decide (key b = key a)) = []
        · simp [hown, hnote]
        · simp [hown, hnote]
      · simpa [hnote, hk, Ne.symm hk] using ih

/-- A fold that inserts, at the key of each element, what it makes of the value there holds at a key
the fold over the elements of the key. -/
theorem get_foldl_insert (key : α → κ) (step : Option β → α → β) (l : List α) :
    (l.foldl (fun m a => m.insert (key a) (step (m.get (key a)) a)) (empty : TreeMap κ β)).get k =
      (l.filter fun a => key a = k).foldl (fun held a => some (step held a)) none := by
  induction l using List.reverseRecOn with
  | nil => rfl
  | append_singleton l a ih =>
    rw [foldl_append, filter_append, foldl_append]
    simp only [foldl_cons, foldl_nil, get_insert]
    by_cases hk : key a = k
    · subst hk
      simp [ih]
    · simp [hk, Ne.symm hk, ih]

end TreeMap

end SmallTalk
