import Mathlib.Data.List.Fold
import SmallTalk.Checkpoint.Answers
import SmallTalk.Checkpoint.Sound
import SmallTalk.Lib.Thinning

/-!
# Checkpoint — what a dropped claim leaves in its slot

A claim that the plan drops stands in its slot at a position that the rule of the slot does not keep.
Each rule keeps the positions that a reader's answer hangs on, so the slot has another claim that
answers for the dropped one.

* `exists_earlier`, `exists_later`: a rule that keeps the first (the last) claim of a kind drops only
  claims that come after (before) it.
* `other_later`: a harness observation with a state comes before a later one that does not work.
* `carrier_later`: a field of a dropped claim is set by a later one.
-/

namespace SmallTalk.Checkpoint

open Replication (Hasher)
open Clearing List Sorted

/-! ### Last positions -/

section

variable {α : Type*} {p : α → Bool} {l : List α} {pos : ℕ} {a : α}

theorem rposition_append_singleton (p : α → Bool) (l : List α) (a : α) :
    rposition p (l ++ [a]) = if p a then some l.length else rposition p l := by
  rw [rposition, reverse_append, reverse_singleton, singleton_append, List.findIdx?_cons,
    length_append, length_singleton, Nat.add_sub_cancel]
  split
  · rfl
  · rw [Option.map_map]
    exact congrArg (Option.map · _) (funext fun i => by simp only [Function.comp_apply]; omega)

theorem rposition_spec (h : rposition p l = some pos) :
    ∃ a, l[pos]? = some a ∧ p a = true ∧ ∀ q b, l[q]? = some b → p b = true → q ≤ pos := by
  obtain ⟨i, hi, rfl⟩ := Option.map_eq_some_iff.mp h
  obtain ⟨hlt, hp, hfirst⟩ := List.findIdx?_eq_some_iff_getElem.mp hi
  rw [length_reverse] at hlt
  refine ⟨l[l.length - 1 - i], List.getElem?_eq_getElem (by omega), ?_, fun q b hq hb => ?_⟩
  · rwa [getElem_reverse] at hp
  · by_contra hlater
    obtain ⟨hqlt, rfl⟩ := List.getElem?_eq_some_iff.mp hq
    have hnot := hfirst (l.length - 1 - q) (by omega)
    rw [getElem_reverse] at hnot
    have hindex : l.length - 1 - (l.length - 1 - q) = q := by omega
    simp only [hindex] at hnot
    exact hnot hb

theorem rposition_isSome (hpos : l[pos]? = some a) (ha : p a = true) :
    ∃ q, rposition p l = some q := by
  cases hfind : rposition p l with
  | some q => exact ⟨q, rfl⟩
  | none =>
    rw [rposition, Option.map_eq_none_iff, List.findIdx?_eq_none_iff] at hfind
    have hnot := hfind a (mem_reverse.mpr (mem_of_getElem? hpos))
    rw [ha] at hnot
    cases hnot

theorem findIdx?_spec (hpos : l[pos]? = some a) (ha : p a = true) :
    ∃ q b, l.findIdx? p = some q ∧ l[q]? = some b ∧ p b = true ∧ q ≤ pos := by
  cases hfind : l.findIdx? p with
  | none =>
    have hnot := List.findIdx?_eq_none_iff.mp hfind a (mem_of_getElem? hpos)
    rw [ha] at hnot
    cases hnot
  | some q =>
    obtain ⟨hlt, hq, hfirst⟩ := List.findIdx?_eq_some_iff_getElem.mp hfind
    refine ⟨q, l[q], rfl, List.getElem?_eq_getElem hlt, hq, ?_⟩
    by_contra hbefore
    obtain ⟨hposlt, rfl⟩ := List.getElem?_eq_some_iff.mp hpos
    exact hfirst pos (not_le.mp hbefore) ha

end

/-! ### Carriers -/

section

variable {claims : List ClaimRecord} {name : String}

/-- The fields of a claim, with those that later claims set and the positions kept so far. -/
def carry (position : ℕ) (names : List String) (state : Finset String × Finset ℕ) :
    Finset String × Finset ℕ :=
  names.foldl
    (fun (seen, keep) name =>
      if name ∈ seen then (seen, keep) else (insert name seen, insert position keep))
    state

variable {position : ℕ} {names : List String} {state : Finset String × Finset ℕ}

theorem carry_seen {field : String} (h : field ∈ state.1) :
    carry position (field :: names) state = carry position names state := by
  simp [carry, h]

theorem carry_new {field : String} (h : field ∉ state.1) : carry position (field :: names) state =
      carry position names (insert field state.1, insert position state.2) := by
  simp [carry, h]

theorem carry_subset : state.2 ⊆ (carry position names state).2 ∧
    ∀ name ∈ (carry position names state).1, name ∈ state.1 ∨ name ∈ names := by
  induction names generalizing state with
  | nil => exact ⟨subset_rfl, fun _ h => .inl h⟩
  | cons field names ih =>
    by_cases hfield : field ∈ state.1
    · rw [carry_seen hfield]
      exact ⟨ih.1, fun name h => (ih.2 name h).imp_right (mem_cons_of_mem _)⟩
    · rw [carry_new hfield]
      obtain ⟨hkeep, hseen⟩ := @ih (insert field state.1, insert position state.2)
      refine ⟨(Finset.subset_insert _ _).trans hkeep, fun name h => ?_⟩
      rcases hseen name h with h | h
      · rcases Finset.mem_insert.mp h with rfl | h
        · exact .inr mem_cons_self
        · exact .inl h
      · exact .inr (mem_cons_of_mem _ h)

theorem carry_keeps (hname : name ∈ names) (hnew : name ∉ state.1) :
    position ∈ (carry position names state).2 := by
  induction names generalizing state with
  | nil => cases hname
  | cons field names ih =>
    by_cases hfield : field ∈ state.1
    · rw [carry_seen hfield]
      rcases mem_cons.mp hname with rfl | hname
      · exact absurd hfield hnew
      · exact ih hname hnew
    · rw [carry_new hfield]
      exact carry_subset.1 (Finset.mem_insert_self _ _)

theorem foldl_carry_subset (entries : List (ClaimRecord × ℕ)) (state : Finset String × Finset ℕ) :
    state.2 ⊆
      (entries.foldl (fun state entry => carry entry.2 (fieldNames entry.1) state) state).2 := by
  induction entries generalizing state with
  | nil => exact subset_rfl
  | cons entry entries ih => exact carry_subset.1.trans (ih _)

/-- A field of a claim that is no carrier was seen, or is set by a later claim. -/
theorem seen_or_later {pos : ℕ} {claim : ClaimRecord} (hpos : claims[pos]? = some claim)
    (hname : name ∈ fieldNames claim)
    (hkeep : pos ∉ (claims.zipIdx.reverse.foldl
      (fun state entry => carry entry.2 (fieldNames entry.1) state) state).2) :
    name ∈ state.1 ∨
      ∃ q later, pos < q ∧ claims[q]? = some later ∧ name ∈ fieldNames later := by
  -- The loop begins with the last claim.
  induction claims using List.reverseRecOn generalizing state with
  | nil => cases hpos
  | append_singleton front last ih =>
    rw [zipIdx_append, reverse_append, foldl_append] at hkeep
    simp only [zipIdx_singleton, reverse_singleton, foldl_cons, foldl_nil, zero_add] at hkeep
    rcases lt_trichotomy pos front.length with hlt | rfl | hgt
    · rw [List.getElem?_append_left hlt] at hpos
      rcases ih hpos hkeep with hseen | ⟨q, later, hq, hlater, hset⟩
      · exact (carry_subset.2 name hseen).imp_right fun hset =>
          ⟨front.length, last, hlt, getElem?_concat_length, hset⟩
      · refine .inr ⟨q, later, hq, ?_, hset⟩
        rwa [List.getElem?_append_left (List.getElem?_eq_some_iff.mp hlater).1]
    · obtain rfl : last = claim := by simpa using hpos
      by_contra hnone
      exact hkeep (foldl_carry_subset _ _ (carry_keeps hname (not_or.mp hnone).1))
    · rw [List.getElem?_eq_none (by simpa using hgt)] at hpos
      cases hpos

end

/-! ### Slots -/

section

variable {n : ℕ} {row : Fin n → ClaimRecord} {cut pos q : ℕ} {slot : Slot} {i j : Fin n}
  {p : ClaimRecord → Bool}

/-- The claims of a slot, in canonical order. -/
def slotMembers (row : Fin n → ClaimRecord) (slot : Slot) : List (Fin n) :=
  (first row).filter fun i => slotOf (row i) = some slot

theorem mem_slotMembers :
    i ∈ slotMembers row slot ↔ i ∈ first row ∧ slotOf (row i) = some slot := by
  rw [slotMembers, mem_filter, decide_eq_true_eq]

theorem slotMembers_sorted (row : Fin n → ClaimRecord) (slot : Slot) :
    (slotMembers row slot).Pairwise (· < ·) :=
  (first_sorted row).filter _

theorem group_eq_slotMembers {group : Slot × List (Fin n)} (h : group ∈ slots row) :
    group.2 = slotMembers row group.1 :=
  eq_of_mem_iff (f := id) ((first_sorted row).sublist (group_sublist h))
    (slotMembers_sorted row group.1) fun i => by rw [mem_group h, mem_slotMembers]

theorem lt_of_position (hpos : (slotMembers row slot)[pos]? = some i)
    (hq : (slotMembers row slot)[q]? = some j) (hlt : pos < q) : i < j := by
  have hsorted := slotMembers_sorted row slot
  obtain ⟨hposlt, rfl⟩ := List.getElem?_eq_some_iff.mp hpos
  obtain ⟨hqlt, rfl⟩ := List.getElem?_eq_some_iff.mp hq
  exact pairwise_iff_getElem.mp hsorted pos q hposlt hqlt hlt

/-- A claim stands in its slot at a position that the rule does not keep. -/
structure StandsAt (row : Fin n → ClaimRecord) (cut : ℕ) (i : Fin n) (slot : Slot) (pos : ℕ) :
    Prop where
  slot_eq : slotOf (row i) = some slot
  position : (slotMembers row slot)[pos]? = some i
  unkept : pos ∉ keep row cut (ofLex slot).1 (ofLex slot).2 (slotMembers row slot)

theorem exists_standsAt (h : i ∈ ruled row cut) : ∃ slot pos, StandsAt row cut i slot pos := by
  obtain ⟨group, hgroup, hi⟩ := mem_flatMap.mp (mem_toFinset.mp h)
  obtain ⟨slot, members⟩ := group
  obtain rfl : members = slotMembers row slot := group_eq_slotMembers hgroup
  obtain ⟨⟨_, pos⟩, hentry, rfl⟩ := mem_map.mp hi
  obtain ⟨hmem, hkeep⟩ := mem_filter.mp hentry
  rw [mk_mem_zipIdx_iff_getElem?] at hmem
  rw [Bool.and_eq_true, decide_eq_true_eq] at hkeep
  exact ⟨slot, pos, (mem_slotMembers.mp (mem_of_getElem? hmem)).2, hmem, hkeep.1⟩

/-- The total of a cumulative reading. -/
def totalTokens (claim : ClaimRecord) : ℕ := ((field claim "total_tokens").bind Json.asU64).getD 0

theorem harnessKeep_subset (hrule : (ofLex slot).1 = .harnessObserved) :
    harnessKeep ((slotMembers row slot).map row) ⊆
      keep row cut (ofLex slot).1 (ofLex slot).2 (slotMembers row slot) := by
  unfold keep
  rw [hrule, if_neg (by decide)]
  exact Finset.subset_union_left

/-- Every `working` after the last other state is kept. -/
theorem working_mem_harnessKeep {claims : List ClaimRecord} {claim : ClaimRecord}
    (hpos : claims[pos]? = some claim) (hworking : isWorking claim = true)
    (hafter : (rposition isOther claims).elim 0 (· + 1) ≤ pos) : pos ∈ harnessKeep claims := by
  have hmem : (claim, pos) ∈ claims.zipIdx.drop ((rposition isOther claims).elim 0 (· + 1)) := by
    refine mem_of_getElem? (i := pos - (rposition isOther claims).elim 0 (· + 1)) ?_
    rw [List.getElem?_drop, Nat.add_sub_cancel' hafter, List.getElem?_zipIdx, hpos]
    simp
  simp only [harnessKeep, Finset.mem_union]
  refine .inl (.inr (mem_toFinset.mpr (mem_map.mpr ⟨(claim, pos), ?_, rfl⟩)))
  exact mem_filter.mpr ⟨hmem, hworking⟩

namespace StandsAt

variable (h : StandsAt row cut i slot pos)

include h

theorem claim_position : ((slotMembers row slot).map row)[pos]? = some (row i) := by
  rw [List.getElem?_map, h.position, Option.map_some]

/-- Another claim of the slot, by its position. -/
theorem exists_member {claim : ClaimRecord}
    (hq : ((slotMembers row slot).map row)[q]? = some claim) :
    ∃ j ∈ first row, slotOf (row j) = some slot ∧ row j = claim ∧
      (slotMembers row slot)[q]? = some j ∧ (q < pos → j < i) ∧ (pos < q → i < j) := by
  rw [List.getElem?_map, Option.map_eq_some_iff] at hq
  obtain ⟨j, hj, rfl⟩ := hq
  obtain ⟨hfirst, hslot⟩ := mem_slotMembers.mp (mem_of_getElem? hj)
  exact ⟨j, hfirst, hslot, rfl, hj, lt_of_position hj h.position, lt_of_position h.position hj⟩

/-- A rule that keeps the first claim of a kind drops only later ones. -/
theorem exists_earlier
    (hkeep : (((slotMembers row slot).map row).findIdx? p).toFinset ⊆
      keep row cut (ofLex slot).1 (ofLex slot).2 (slotMembers row slot))
    (hp : p (row i) = true) :
    ∃ j ∈ first row, slotOf (row j) = some slot ∧ j < i ∧ p (row j) = true := by
  obtain ⟨q, claim, hfind, hq, hclaim, hle⟩ := findIdx?_spec h.claim_position hp
  have hne : q ≠ pos := by
    rintro rfl
    exact h.unkept (hkeep (by simp [hfind]))
  obtain ⟨j, hfirst, hslot, rfl, -, hlt, -⟩ := h.exists_member hq
  exact ⟨j, hfirst, hslot, hlt (lt_of_le_of_ne hle hne), hclaim⟩

/-- A rule that keeps the last claim of a kind drops only earlier ones. -/
theorem exists_later
    (hkeep : (rposition p ((slotMembers row slot).map row)).toFinset ⊆
      keep row cut (ofLex slot).1 (ofLex slot).2 (slotMembers row slot))
    (hp : p (row i) = true) :
    ∃ j ∈ first row, slotOf (row j) = some slot ∧ i < j ∧ p (row j) = true ∧
      ∀ k ∈ first row, slotOf (row k) = some slot → p (row k) = true → k ≤ j := by
  obtain ⟨q, hfind⟩ := rposition_isSome h.claim_position hp
  obtain ⟨claim, hq, hclaim, hlast⟩ := rposition_spec hfind
  have hne : pos ≠ q := by
    rintro rfl
    exact h.unkept (hkeep (by simp [hfind]))
  obtain ⟨j, hfirst, hslot, rfl, hj, -, hlt⟩ := h.exists_member hq
  have hle := hlast pos _ h.claim_position hp
  refine ⟨j, hfirst, hslot, hlt (lt_of_le_of_ne hle hne), hclaim, fun k hk hslotk hpk => ?_⟩
  obtain ⟨r, hr⟩ := mem_iff_getElem?.mp (mem_slotMembers.mpr ⟨hk, hslotk⟩)
  have hrq := hlast r (row k) (by rw [List.getElem?_map, hr, Option.map_some]) hpk
  rcases hrq.eq_or_lt with rfl | hrq
  · exact (Option.some.inj (hr.symm.trans hj)).le
  · exact (lt_of_position hr hj hrq).le

/-- Every rule but that of loops keeps the newest carrier of a field. -/
theorem carrier_later (hrule : (ofLex slot).1 ≠ .loopState) {name : String}
    (hname : name ∈ fieldNames (row i)) :
    ∃ j ∈ first row, slotOf (row j) = some slot ∧ i < j ∧ name ∈ fieldNames (row j) := by
  have hunkept : pos ∉ fieldCarriers ((slotMembers row slot).map row) := by
    intro hcarrier
    refine h.unkept ?_
    unfold keep
    rw [if_neg hrule]
    exact Finset.mem_union_right _ hcarrier
  obtain ⟨q, claim, hlt, hq, hset⟩ :=
    (seen_or_later h.claim_position hname hunkept).resolve_left (Finset.notMem_empty _)
  obtain ⟨j, hfirst, hslot, rfl, -, -, hbefore⟩ := h.exists_member hq
  exact ⟨j, hfirst, hslot, hbefore hlt, hset⟩

/-! ### Harness observations -/

theorem ready_earlier (hrule : (ofLex slot).1 = .harnessObserved) (hready : isReady (row i) = true) :
    ∃ j ∈ first row, slotOf (row j) = some slot ∧ j < i ∧ isReady (row j) = true := by
  refine h.exists_earlier (Finset.Subset.trans (fun x hx => ?_) (harnessKeep_subset hrule)) hready
  simp only [harnessKeep, Finset.mem_union]
  exact .inl (.inl (.inl (.inl (.inr hx))))

theorem readyWithoutLogin_earlier (hrule : (ofLex slot).1 = .harnessObserved)
    (hready : isReadyWithoutLogin (row i) = true) :
    ∃ j ∈ first row, slotOf (row j) = some slot ∧ j < i ∧ isReadyWithoutLogin (row j) = true := by
  refine h.exists_earlier (Finset.Subset.trans (fun x hx => ?_) (harnessKeep_subset hrule)) hready
  simp only [harnessKeep, Finset.mem_union]
  exact .inl (.inl (.inl (.inr hx)))

/-- An observation with a state comes before another that does not work. -/
theorem other_later (hrule : (ofLex slot).1 = .harnessObserved)
    (hstate : (isOther (row i) || isWorking (row i)) = true) :
    ∃ j ∈ first row, slotOf (row j) = some slot ∧ i < j ∧ isOther (row j) = true := by
  have hlastKept : (rposition isOther ((slotMembers row slot).map row)).toFinset ⊆
      keep row cut (ofLex slot).1 (ofLex slot).2 (slotMembers row slot) := by
    refine Finset.Subset.trans (fun x hx => ?_) (harnessKeep_subset hrule)
    simp only [harnessKeep, Finset.mem_union]
    exact .inl (.inl (.inr hx))
  cases hother : isOther (row i) with
  | true =>
    obtain ⟨j, hfirst, hslot, hlt, hj, -⟩ := h.exists_later hlastKept hother
    exact ⟨j, hfirst, hslot, hlt, hj⟩
  | false =>
    have hworking : isWorking (row i) = true := by simpa [hother] using hstate
    have hbefore : pos < (rposition isOther ((slotMembers row slot).map row)).elim 0 (· + 1) := by
      by_contra hafter
      exact h.unkept (harnessKeep_subset hrule
        (working_mem_harnessKeep h.claim_position hworking (not_lt.mp hafter)))
    cases hlast : rposition isOther ((slotMembers row slot).map row) with
    | none => simp [hlast] at hbefore
    | some q =>
      obtain ⟨claim, hq, hclaim, -⟩ := rposition_spec hlast
      obtain ⟨j, hfirst, hslot, rfl, hj, -, hlt⟩ := h.exists_member hq
      refine ⟨j, hfirst, hslot, hlt ?_, hclaim⟩
      rw [hlast, Option.elim_some] at hbefore
      refine lt_of_le_of_ne (Nat.le_of_lt_succ hbefore) ?_
      rintro rfl
      rw [Option.some.inj (hj.symm.trans h.position), hother] at hclaim
      cases hclaim

/-! ### Loops, deferrals and usage -/

/-- The first state with items is kept. -/
theorem items_earlier (hrule : (ofLex slot).1 = .loopState) (hitems : "items" ∈ fieldNames (row i)) :
    ∃ j ∈ first row, slotOf (row j) = some slot ∧ j < i ∧ "items" ∈ fieldNames (row j) := by
  have hearlier := h.exists_earlier (p := fun claim => decide ("items" ∈ fieldNames claim))
    (fun x hx => ?_) (decide_eq_true hitems)
  · simpa using hearlier
  · unfold keep
    rw [hrule, if_pos rfl]
    exact Finset.mem_union_right _ hx

/-- A dropped deferral is of a request that a sealed claim closes. -/
theorem deferral_closed {texts : List String} (hslot : slot = toLex (.deferral, texts)) :
    (texts.headD "", texts.getLastD "") ∈ closedRequests row := by
  by_contra hopen
  subst hslot
  refine h.unkept ?_
  refine Finset.mem_union_left _ ?_
  show pos ∈ if (texts.headD "", texts.getLastD "") ∈ closedRequests row then _ else _
  rw [if_neg hopen, Finset.mem_range]
  exact (List.getElem?_eq_some_iff.mp h.position).1

/-- A dropped reading is beaten: by a larger one, or by a later one that is as large. -/
theorem beaten (hrule : (ofLex slot).1 = .usageCumulative) :
    ∃ j ∈ first row, slotOf (row j) = some slot ∧
      (totalTokens (row i) < totalTokens (row j) ∨
        totalTokens (row i) ≤ totalTokens (row j) ∧ i < j) := by
  have hkeep : usageCumulativeKeep ((slotMembers row slot).map row) ⊆
      keep row cut (ofLex slot).1 (ofLex slot).2 (slotMembers row slot) := by
    unfold keep
    rw [hrule, if_neg (by decide)]
    exact Finset.subset_union_left
  by_cases hlargest : totalTokens (row i) =
      (((slotMembers row slot).map row).map totalTokens).foldl max 0
  · obtain ⟨j, hfirst, hslot, hlt, htotal, -⟩ := h.exists_later
      (p := fun claim => decide (totalTokens claim =
        (((slotMembers row slot).map row).map totalTokens).foldl max 0))
      (Finset.Subset.trans Finset.subset_union_right hkeep) (decide_eq_true hlargest)
    exact ⟨j, hfirst, hslot, .inr ⟨(hlargest.trans (of_decide_eq_true htotal).symm).le, hlt⟩⟩
  · by_contra hnone
    push Not at hnone
    rw [foldl_eq_foldr] at hlargest
    refine hlargest (le_antisymm (le_foldr_max ?_ 0) (foldr_max_le_iff.mpr ⟨Nat.zero_le _, ?_⟩))
    · exact mem_map_of_mem (mem_of_getElem? h.claim_position)
    · intro total htotal
      obtain ⟨claim, hclaim, rfl⟩ := mem_map.mp htotal
      obtain ⟨j, hj, rfl⟩ := mem_map.mp hclaim
      obtain ⟨hfirst, hslot⟩ := mem_slotMembers.mp hj
      exact (hnone j hfirst hslot).1

end StandsAt

end

end SmallTalk.Checkpoint
