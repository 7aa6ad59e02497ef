import Mathlib.Data.List.Dedup
import Mathlib.Data.List.Sort
import Mathlib.Data.List.SplitBy
import Mathlib.Data.List.TakeWhile
import Mathlib.Tactic

/-!
# Lib — searching and cutting a sorted list

A sorted vector is searched by its partition points and cut into runs of equal keys.

* `slice_eq_filter`: the elements between two partition points are those that only the second
  predicate holds of.
* `flatMap_ofKey_filter`, `splitBy_key`: the runs of equal keys are the elements of each key, in
  the order of the keys.
* `binarySearchBy_found`, `map_insertIdx`: a search finds an element that is there, and inserting
  at the point it returns keeps the order.
* `sortedSet`, `grouped`: the elements of a list, each once, in order; and its elements by key, in
  the order of the keys.
-/

namespace SmallTalk.Sorted

open List

variable {α κ : Type*}

/-! ### Partition points -/

section

variable {r : α → α → Prop} {p q : α → Bool} {l : List α}

/-- `p` holds below any element it holds of. -/
def Lower (r : α → α → Prop) (p : α → Bool) : Prop := ∀ a b, r a b → p b = true → p a = true

theorem takeWhile_eq_filter (hl : l.Pairwise r) (hp : Lower r p) : l.takeWhile p = l.filter p := by
  induction hl with
  | nil => rfl
  | @cons a l ha _ ih =>
    by_cases h : p a
    · rw [takeWhile_cons_of_pos h, filter_cons_of_pos h, ih]
    · rw [takeWhile_cons_of_neg h, filter_cons_of_neg h, eq_comm, filter_eq_nil_iff]
      exact fun b hb hpb => h (hp a b (ha b hb) hpb)

/-- Where what `p` holds of comes first, the two parts make one. -/
theorem filter_append_filter (hl : l.Pairwise fun a b => p b = true → q a = false)
    (hpq : ∀ a, p a = true → q a = false) :
    l.filter p ++ l.filter q = l.filter fun a => p a || q a := by
  induction hl with
  | nil => rfl
  | @cons a l ha _ ih =>
    cases hp : p a with
    | true => simp [hp, hpq a hp, ← ih]
    | false =>
      cases hq : q a with
      | true =>
        have hnone : l.filter p = [] :=
          filter_eq_nil_iff.mpr fun b hb hpb => by simp [ha b hb hpb] at hq
        simpa [hp, hq, hnone] using ih
      | false => simpa [hp, hq] using ih

/-- The number of leading elements that `p` holds of. -/
def partitionPoint (p : α → Bool) (l : List α) : ℕ := (l.takeWhile p).length

theorem partitionPoint_congr (h : ∀ a ∈ l, p a = q a) :
    partitionPoint p l = partitionPoint q l := by
  unfold partitionPoint
  induction l with
  | nil => rfl
  | cons a l ih =>
    rw [takeWhile_cons, takeWhile_cons, h a mem_cons_self]
    split
    · rw [length_cons, length_cons, ih fun b hb => h b (mem_cons_of_mem _ hb)]
    · rfl

theorem take_partitionPoint (p : α → Bool) (l : List α) :
    l.take (partitionPoint p l) = l.takeWhile p :=
  (prefix_iff_eq_take.mp ( takeWhile_prefix p)).symm

/-- What is before the partition point passes the test. -/
theorem of_mem_take {i : ℕ} (hi : i ≤ partitionPoint p l) {a : α} (ha : a ∈ l.take i) :
    p a = true := by
  have hmem : a ∈ l.takeWhile p := take_partitionPoint p l ▸ (take_subset_take_left l hi) ha
  exact mem_takeWhile_imp hmem

/-- The elements between two partition points. -/
def slice (p q : α → Bool) (l : List α) : List α :=
  (l.drop (partitionPoint p l)).take (partitionPoint q l - partitionPoint p l)

theorem slice_eq_filter (hl : l.Pairwise r) (hp : Lower r p) (hq : Lower r q)
    (hpq : ∀ a, p a = true → q a = true) :
    slice p q l = l.filter fun a => q a && !p a := by
  have hcut : l.filter p ++ l.filter (fun a => q a && !p a) = l.filter q := by
    rw [filter_append_filter (hl.imp fun h hb => by simp [hp _ _ h hb]) fun a ha => by simp [ha]]
    refine filter_congr fun a _ => ?_
    cases hpa : p a with
    | true => simp [hpq a hpa]
    | false => simp
  rw [slice, ← drop_take, take_partitionPoint, takeWhile_eq_filter hl hq, ← hcut, partitionPoint,
    takeWhile_eq_filter hl hp, drop_left]

end

/-! ### Runs of equal keys -/

section

variable [LinearOrder κ] {key : α → κ} {l : List α}

/-- The keys of a list, each once. -/
def keys (key : α → κ) (l : List α) : List κ := (l.map key).dedup

/-- The elements of one key. -/
def ofKey (key : α → κ) (l : List α) (k : κ) : List α := l.filter fun a => key a = k

theorem mem_keys {k : κ} : k ∈ keys key l ↔ ∃ a ∈ l, key a = k := by
  simp [keys]

theorem mem_ofKey {k : κ} {a : α} : a ∈ ofKey key l k ↔ a ∈ l ∧ key a = k := by
  simp [ofKey]

theorem ofKey_ne_nil {k : κ} : ofKey key l k ≠ [] ↔ k ∈ keys key l := by
  rw [mem_keys, ofKey, Ne, filter_eq_nil_iff]
  simp

theorem keys_sorted (hl : l.Pairwise fun a b => key a ≤ key b) : (keys key l).Pairwise (· < ·) := by
  have hle : (keys key l).Pairwise (· ≤ ·) :=
    ((pairwise_map.mpr hl)).sublist (dedup_sublist _)
  exact (hle.and (nodup_dedup (l.map key))).imp fun h => lt_of_le_of_ne h.1 h.2

/-- The elements of some of the keys, in order, are the part of the sorted list with those keys. -/
theorem flatMap_ofKey_filter {ks : List κ} (hks : ks.Pairwise (· < ·))
    (hl : l.Pairwise fun a b => key a ≤ key b) :
    ks.flatMap (ofKey key l) = l.filter fun a => key a ∈ ks := by
  induction hks with
  | nil => simp
  | @cons k ks hk _ ih =>
    -- `k` is the least key, so its elements come first
    rw [flatMap_cons, ih, ofKey, filter_append_filter]
    · simp
    · refine hl.imp fun hab hb => decide_eq_false fun ha => ?_
      exact (hk _ ha).not_ge (of_decide_eq_true hb ▸ hab)
    · exact fun a ha => decide_eq_false fun hmem => (hk _ hmem).ne' (of_decide_eq_true ha)

/-- The elements of the keys in order are the sorted list. -/
theorem flatMap_ofKey {ks : List κ} (hks : ks.Pairwise (· < ·))
    (hl : l.Pairwise fun a b => key a ≤ key b) (hmem : ∀ a ∈ l, key a ∈ ks) :
    ks.flatMap (ofKey key l) = l := by
  rw [flatMap_ofKey_filter hks hl, filter_eq_self]
  exact fun a ha => decide_eq_true (hmem a ha)

/-- The keys up to the one at `i` are the first `i + 1`. -/
theorem mem_take_succ {ks : List κ} (hks : ks.Pairwise (· < ·)) {i : ℕ} (hi : i < ks.length)
    {k : κ} : k ∈ ks.take (i + 1) ↔ k ∈ ks ∧ k ≤ ks[i] := by
  rw [mem_take_iff_getElem]
  constructor
  · rintro ⟨j, hj, rfl⟩
    have hlt : j < ks.length := lt_of_lt_of_le hj (min_le_right _ _)
    refine ⟨getElem_mem hlt, hks.sortedLT.getElem_le_getElem_iff.mpr ?_⟩
    exact Nat.lt_succ_iff.mp (lt_of_lt_of_le hj (min_le_left _ _))
  · rintro ⟨hk, hle⟩
    obtain ⟨j, hj, rfl⟩ := mem_iff_getElem.mp hk
    have hji : j ≤ i := hks.sortedLT.getElem_le_getElem_iff.mp hle
    exact ⟨j, lt_min (Nat.lt_succ_of_le hji) hj, rfl⟩

/-- **The runs of equal keys** of a sorted list, told by any test for equal keys. -/
theorem splitBy_key {same : α → α → Bool} (hl : l.Pairwise fun a b => key a ≤ key b)
    (hsame : ∀ a ∈ l, ∀ b ∈ l, same a b = decide (key a = key b)) :
    l.splitBy same = (keys key l).map (ofKey key l) := by
  have hsorted := keys_sorted hl
  have hflat : ((keys key l).map (ofKey key l)).flatten = l :=
    flatMap_ofKey hsorted hl fun a ha => mem_keys.mpr ⟨a, ha, rfl⟩
  conv_lhs => rw [← hflat]
  refine splitBy_flatten ?_ ?_ ?_
  · intro hnil
    obtain ⟨k, hk, he⟩ := mem_map.mp hnil
    exact ofKey_ne_nil.mpr hk he
  · intro m hm
    obtain ⟨k, -, rfl⟩ := mem_map.mp hm
    refine List.Pairwise.isChain ?_
    refine pairwise_of_forall_mem_list fun a ha b hb => ?_
    obtain ⟨ha, hak⟩ := mem_ofKey.mp ha
    obtain ⟨hb, hbk⟩ := mem_ofKey.mp hb
    rw [hsame a ha b hb, hak, hbk]
    exact decide_eq_true rfl
  · refine (pairwise_map.mpr (hsorted.imp_of_mem fun ha hb hlt => ?_)).isChain
    refine ⟨ofKey_ne_nil.mpr ha, ofKey_ne_nil.mpr hb, ?_⟩
    obtain ⟨hlast, hlk⟩ := mem_ofKey.mp (getLast_mem (ofKey_ne_nil.mpr ha))
    obtain ⟨hhead, hhk⟩ := mem_ofKey.mp (head_mem (ofKey_ne_nil.mpr hb))
    rw [hsame _ hlast _ hhead, decide_eq_false_iff_not, hlk, hhk]
    exact hlt.ne

end

/-! ### Searching and inserting -/

section

variable {β : Type*} [LinearOrder β] {f : α → β} {l : List α} {x : β}

/-- `binary_search_by` of a slice that `compare` partitions: where an equal element is, or where
one would go. -/
def binarySearchBy (compare : α → Ordering) (l : List α) : Except ℕ ℕ :=
  let i := partitionPoint (fun a => compare a = .lt) l
  if l[i]?.map compare = some .eq then .ok i else .error i

theorem binarySearchBy_congr {c c' : α → Ordering} (h : ∀ a ∈ l, c a = c' a) :
    binarySearchBy c l = binarySearchBy c' l := by
  have hpoint : partitionPoint (fun a => decide (c a = .lt)) l =
      partitionPoint (fun a => decide (c' a = .lt)) l :=
    partitionPoint_congr fun a ha => by rw [h a ha]
  have hget : ∀ i : ℕ, l[i]?.map c = l[i]?.map c' := fun i =>
    Option.map_congr fun a ha => h a (mem_of_getElem? ha)
  unfold binarySearchBy
  dsimp only
  rw [hpoint, hget]

theorem insertIdx_partitionPoint (p : α → Bool) (l : List α) (b : α) :
    l.insertIdx (partitionPoint p l) b = l.takeWhile p ++ b :: l.dropWhile p := by
  unfold partitionPoint
  induction l with
  | nil => rfl
  | cons a l ih =>
    by_cases h : p a
    · rw [takeWhile_cons_of_pos h, dropWhile_cons_of_pos h, length_cons, insertIdx_succ_cons, ih]
      rfl
    · rw [takeWhile_cons_of_neg h, dropWhile_cons_of_neg h]
      rfl

/-- A search finds the element with the key, when there is one. -/
theorem binarySearchBy_split {s t : List α} {a : α}
    (hl : (s ++ a :: t).Pairwise fun a b => f a < f b) (hx : f a = x) :
    binarySearchBy (fun b => compare (f b) x) (s ++ a :: t) = .ok s.length := by
  have hbefore : ∀ b ∈ s, decide (compare (f b) x = .lt) = true := fun b hb => by
    simpa [← hx, compare_lt_iff_lt] using (pairwise_append.mp hl).2.2 b hb a mem_cons_self
  have hpoint : partitionPoint (fun b => decide (compare (f b) x = .lt)) (s ++ a :: t) =
      s.length := by
    simp [partitionPoint, takeWhile_append_of_pos hbefore, hx]
  simp [binarySearchBy, hpoint, hx]

theorem binarySearchBy_found (hl : l.Pairwise fun a b => f a < f b) {a : α} (ha : a ∈ l)
    (hx : f a = x) :
    ∃ i, binarySearchBy (fun b => compare (f b) x) l = .ok i ∧ l[i]? = some a := by
  obtain ⟨s, t, rfl⟩ := append_of_mem ha
  exact ⟨s.length, binarySearchBy_split hl hx, by simp⟩

/-- A search for a key that is not there returns where an element with it would go. -/
theorem binarySearchBy_missing (h : ∀ a ∈ l, f a ≠ x) :
    binarySearchBy (fun b => compare (f b) x) l =
      .error (partitionPoint (fun b => compare (f b) x = .lt) l) := by
  refine if_neg fun he => ?_
  obtain ⟨a, ha, hx⟩ := Option.map_eq_some_iff.mp he
  exact h a (mem_of_getElem? ha) (compare_eq_iff_eq.mp hx)

/-- Inserting where a missing key would go maps to the ordered insertion of the key. -/
theorem map_insertIdx {b : α} (hb : f b = x) :
    (l.insertIdx (partitionPoint (fun b => compare (f b) x = .lt) l) b).map f =
      (l.map f).orderedInsert (· ≤ ·) x := by
  have hcut : (fun a => decide (compare (f a) x = .lt)) = fun a => decide ¬ x ≤ f a := by
    funext a
    rw [decide_eq_decide, compare_lt_iff_lt, not_le]
  rw [insertIdx_partitionPoint, map_append, map_cons, hb,
    orderedInsert_eq_take_drop, takeWhile_map, dropWhile_map, hcut]
  rfl

theorem orderedInsert_lt {l : List β} (hl : l.Pairwise (· < ·)) (hx : x ∉ l) :
    (l.orderedInsert (· ≤ ·) x).Pairwise (· < ·) := by
  have hnodup : (l.orderedInsert (· ≤ ·) x).Nodup :=
    (perm_orderedInsert _ _ _).nodup_iff.mpr
      (nodup_cons.mpr ⟨hx, hl.nodup⟩)
  have hle := (hl.imp fun h => le_of_lt h).orderedInsert x
  exact (hle.and hnodup).imp fun h => lt_of_le_of_ne h.1 h.2

/-- Put `a` where its key is, or where it would go. -/
def upsert (f : α → β) (l : List α) (a : α) : List α :=
  match binarySearchBy (fun b => compare (f b) (f a)) l with
  | .ok i => l.set i a
  | .error i => l.insertIdx i a

theorem upsert_spec (hl : l.Pairwise fun a b => f a < f b) (a : α) :
    (upsert f l a).Pairwise (fun a b => f a < f b) ∧
      ∀ b, b ∈ upsert f l a ↔ b = a ∨ b ∈ l ∧ f b ≠ f a := by
  unfold upsert
  by_cases hkey : ∃ c ∈ l, f c = f a
  · obtain ⟨c, hc, hca⟩ := hkey
    -- The found element splits the list, and no other element has its key.
    obtain ⟨s, t, rfl⟩ := append_of_mem hc
    rw [binarySearchBy_split hl hca]
    dsimp only
    rw [set_append_right _ _ le_rfl, Nat.sub_self, set_cons_zero]
    refine ⟨?_, fun b => ?_⟩
    · rw [← pairwise_map] at hl ⊢
      simpa [hca] using hl
    · obtain ⟨-, hback, hcross⟩ := pairwise_append.mp hl
      have hbefore : ∀ b ∈ s, f b ≠ f a := fun b hb => (hca ▸ hcross b hb c mem_cons_self).ne
      have hafter : ∀ b ∈ t, f b ≠ f a := fun b hb => (hca ▸ (pairwise_cons.mp hback).1 b hb).ne'
      rw [mem_append, mem_cons, mem_append, mem_cons]
      constructor
      · rintro (hb | rfl | hb)
        · exact .inr ⟨.inl hb, hbefore b hb⟩
        · exact .inl rfl
        · exact .inr ⟨.inr (.inr hb), hafter b hb⟩
      · rintro (rfl | ⟨hb | rfl | hb, hne⟩)
        · exact .inr (.inl rfl)
        · exact .inl hb
        · exact absurd hca hne
        · exact .inr (.inr hb)
  · have hno : ∀ b ∈ l, f b ≠ f a := fun b hb he => hkey ⟨b, hb, he⟩
    rw [binarySearchBy_missing hno]
    dsimp only
    constructor
    · rw [← pairwise_map, map_insertIdx rfl]
      refine orderedInsert_lt (pairwise_map.mpr hl) fun h => ?_
      obtain ⟨b, hb, he⟩ := mem_map.mp h
      exact hno b hb he
    · intro b
      rw [mem_insertIdx (show partitionPoint _ l ≤ _ from ( takeWhile_prefix _).length_le)]
      exact or_congr_right (and_iff_left_of_imp (hno b)).symm

/-- **Upserting** elements with different keys replaces those with the keys. -/
theorem foldl_upsert {as : List α} (has : as.Pairwise fun a b => f a ≠ f b)
    (hl : l.Pairwise fun a b => f a < f b) :
    (as.foldl (upsert f) l).Pairwise (fun a b => f a < f b) ∧
      ∀ b, b ∈ as.foldl (upsert f) l ↔ b ∈ as ∨ b ∈ l ∧ ∀ a ∈ as, f b ≠ f a := by
  induction has generalizing l with
  | nil => exact ⟨hl, fun b => by simp⟩
  | @cons a as ha _ ih =>
    obtain ⟨hl', hmem⟩ := upsert_spec hl a
    obtain ⟨hsorted, hiff⟩ := ih hl'
    refine ⟨hsorted, fun b => ?_⟩
    rw [foldl_cons, hiff, hmem, mem_cons, forall_mem_cons]
    constructor
    · rintro (hb | ⟨rfl | ⟨hb, hne⟩, hall⟩)
      · exact .inl (.inr hb)
      · exact .inl (.inl rfl)
      · exact .inr ⟨hb, hne, hall⟩
    · rintro ((rfl | hb) | ⟨hb, hne, hall⟩)
      · exact .inr ⟨.inl rfl, ha⟩
      · exact .inl hb
      · exact .inr ⟨.inr ⟨hb, hne⟩, hall⟩

/-- A list sorted by keys is known by its elements. -/
theorem eq_of_mem_iff {l' : List α} (hl : l.Pairwise fun a b => f a < f b)
    (hl' : l'.Pairwise fun a b => f a < f b) (h : ∀ a, a ∈ l ↔ a ∈ l') : l = l' := by
  have hnodup : ∀ {m : List α}, m.Pairwise (fun a b => f a < f b) → m.Nodup :=
    fun hm => hm.imp fun hlt he => (he ▸ hlt).false
  refine List.Perm.eq_of_pairwise (fun a b _ _ hab hba => absurd hab hba.not_gt) hl hl' ?_
  exact (perm_ext_iff_of_nodup (hnodup hl) (hnodup hl')).mpr h

/-- Two sorted lists begin alike, as far as the larger has nothing that the other lacks. -/
theorem take_eq_of_subset {ks ks' : List β} (hks : ks.Pairwise (· < ·))
    (hks' : ks'.Pairwise (· < ·)) (hsub : ∀ k ∈ ks, k ∈ ks') {i : ℕ} (hi : i ≤ ks'.length)
    (htake : ∀ k ∈ ks'.take i, k ∈ ks) : ks.take i = ks'.take i := by
  have hpart : ks = ks'.filter (· ∈ ks) :=
    eq_of_mem_iff (f := id) hks (hks'.filter _) fun k => by simpa using hsub k
  have hfirst : (ks'.take i).filter (· ∈ ks) = ks'.take i :=
    filter_eq_self.mpr fun k hk => decide_eq_true (htake k hk)
  rw [← take_append_drop i ks', filter_append, hfirst] at hpart
  rw [hpart]
  exact take_left' (length_take_of_le hi)

theorem foldr_max_le_iff {l : List β} {m n : β} : l.foldr max m ≤ n ↔ m ≤ n ∧ ∀ a ∈ l, a ≤ n := by
  induction l with
  | nil => simp
  | cons a l ih =>
    rw [foldr_cons, max_le_iff, ih, forall_mem_cons]
    exact and_left_comm

theorem le_foldr_max {l : List β} {a : β} (h : a ∈ l) (m : β) : a ≤ l.foldr max m :=
  (foldr_max_le_iff.mp (le_refl (l.foldr max m))).2 a h

end

/-! ### Sets and groups in key order -/

section

variable {β : Type*} [LinearOrder β] {b : β}

theorem insertionSort_lt {f : α → β} {l : List α} (h : (l.map f).Nodup) :
    (l.insertionSort fun a b => f a ≤ f b).Pairwise fun a b => f a < f b := by
  have hperm := perm_insertionSort (fun a b => f a ≤ f b) l
  have hne := pairwise_map.mp ((hperm.map f).nodup_iff.mpr h)
  exact ((pairwise_insertionSort _ l).and hne).imp fun h => lt_of_le_of_ne h.1 h.2

theorem le_of_head?_insertionSort (f : α → β) {l : List α} {a : α}
    (h : (l.insertionSort fun a b => f a ≤ f b).head? = some a) : ∀ b ∈ l, f a ≤ f b := by
  intro b hb
  have hsorted := pairwise_insertionSort (fun a b => f a ≤ f b) l
  have hmem := (mem_insertionSort (fun a b => f a ≤ f b)).mpr hb
  obtain ⟨rest, hl⟩ := head?_eq_some_iff.mp h
  rw [hl] at hsorted hmem
  rcases mem_cons.mp hmem with rfl | hb
  · exact le_rfl
  · exact rel_of_pairwise_cons hsorted hb

/-- The elements of a list, each once, in order (`BTreeSet`). -/
def sortedSet (l : List β) : List β := l.dedup.insertionSort (· ≤ ·)

@[simp] theorem mem_sortedSet {l : List β} : b ∈ sortedSet l ↔ b ∈ l := by
  rw [sortedSet, mem_insertionSort, mem_dedup]

theorem sortedSet_pairwise (l : List β) : (sortedSet l).Pairwise (· < ·) :=
  insertionSort_lt (f := id) (by simpa using nodup_dedup l)

/-- A set is known by its elements. -/
theorem sortedSet_congr {l l' : List β} (h : ∀ b, b ∈ l ↔ b ∈ l') : sortedSet l = sortedSet l' :=
  eq_of_mem_iff (f := id) (sortedSet_pairwise l) (sortedSet_pairwise l') fun b => by simp [h b]

/-- The elements by key, in the order of the keys; those without a key are left out
(`BTreeMap`, each group in the order of the list). -/
def grouped (key : α → Option β) (l : List α) : List (β × List α) :=
  (sortedSet (l.filterMap key)).map fun k => (k, l.filter fun a => key a = some k)

section

variable {key : α → Option β} {l : List α} {group : β × List α} (h : group ∈ grouped key l)

include h

theorem mem_group {a : α} : a ∈ group.2 ↔ a ∈ l ∧ key a = some group.1 := by
  obtain ⟨k, -, rfl⟩ := mem_map.mp h
  rw [mem_filter, decide_eq_true_eq]

theorem group_sublist : group.2.Sublist l := by
  obtain ⟨k, -, rfl⟩ := mem_map.mp h
  exact filter_sublist

theorem group_nonempty : ∃ a, a ∈ group.2 := by
  obtain ⟨k, hk, rfl⟩ := mem_map.mp h
  obtain ⟨a, ha, hkey⟩ := mem_filterMap.mp (mem_sortedSet.mp hk)
  exact ⟨a, mem_filter.mpr ⟨ha, decide_eq_true hkey⟩⟩

theorem group_length (p : α → Bool)
    (hp : ∀ a, p a = true ↔ key a = some group.1) : group.2.length = l.countP p := by
  obtain ⟨k, -, rfl⟩ := mem_map.mp h
  rw [← countP_eq_length_filter]
  exact countP_congr fun a _ => by rw [hp, decide_eq_true_eq]

omit h in
/-- An element that has a key is in the group of the key. -/
theorem exists_group (key : α → Option β) {a : α} (ha : a ∈ l) (hk : key a = some b) :
    ∃ group ∈ grouped key l, group.1 = b ∧ a ∈ group.2 := by
  have hgroup : (b, l.filter fun a => key a = some b) ∈ grouped key l :=
    mem_map.mpr ⟨b, mem_sortedSet.mpr (mem_filterMap.mpr ⟨a, ha, hk⟩), rfl⟩
  exact ⟨_, hgroup, rfl, (mem_group hgroup).mpr ⟨ha, hk⟩⟩

end

end

end SmallTalk.Sorted
