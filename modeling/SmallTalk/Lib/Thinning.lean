import Mathlib.Data.List.DropRight
import Mathlib.Data.List.Nodup
import Mathlib.Tactic

/-!
# Lib — reading a log that was thinned

A log is a list without duplicates, and a thinned one keeps the entries that `k` holds of. A reader
finds the same answer in both when every entry that went has a witness.

* `find?_thin`: the first entry of a kind, when each one that went comes after another of its kind.
* `getLast?_thin`: the last one, when each one that went comes before another.
* `champion_thin`: the last of the largest, when each one that went is beaten by another.
* `champions_thin_iff`: what is read of the last of the largest of each group, exactly.
* `sinceLast_thin`: the first of a kind since the last break, when each one that went comes before a
  break that is kept.
-/

namespace SmallTalk.Thinning

open List

variable {α : Type*} {l pre post : List α} {a b m : α} {p k : α → Bool}

/-! ### Order in a log -/

/-- One entry comes before another. -/
def Before (l : List α) (a b : α) : Prop := [a, b].Sublist l

theorem Before.mem_right (h : Before l a b) : b ∈ l := h.subset (by simp)

theorem Before.sublist {l' : List α} (h : Before l a b) (hl : l.Sublist l') : Before l' a b :=
  List.Sublist.trans h hl

theorem Before.filter (h : Before l a b) (ha : p a = true) (hb : p b = true) :
    Before (l.filter p) a b := by
  have hfilter := List.Sublist.filter p h
  rwa [filter_cons_of_pos ha, filter_cons_of_pos hb, filter_nil] at hfilter

theorem Before.reverse (h : Before l a b) : Before l.reverse b a := List.Sublist.reverse h

theorem Before.map {β : Type*} (h : Before l a b) (f : α → β) : Before (l.map f) (f a) (f b) :=
  List.Sublist.map f h

theorem before_of_lt [LinearOrder α] (hl : l.Pairwise (· < ·)) (ha : a ∈ l) (hb : b ∈ l)
    (hlt : a < b) : Before l a b := by
  obtain ⟨pre, post, rfl⟩ := append_of_mem ha
  obtain ⟨-, hpost, hpre⟩ := pairwise_append.mp hl
  have hmem : b ∈ post := by
    rcases mem_append.mp hb with hb | hb
    · exact absurd hlt (hpre b hb a mem_cons_self).asymm
    · exact (mem_cons.mp hb).resolve_left fun heq => hlt.ne heq.symm
  exact ((singleton_sublist.mpr hmem).cons_cons a).trans (sublist_append_right _ _)

/-- What comes before an entry. -/
theorem Before.mem_pre (h : Before l a m) (hl : l.Nodup) (hsplit : l = pre ++ m :: post) :
    a ∈ pre := by
  subst hsplit
  have hm : m ∉ pre ∧ m ∉ post := by
    have hmiddle := nodup_middle.mp hl
    rw [nodup_cons, mem_append, not_or] at hmiddle
    exact hmiddle.1
  obtain ⟨front, back, hsplit, hfront, hback⟩ := sublist_append_iff.mp h
  match front with
  | [] =>
    subst hsplit
    refine absurd ?_ hm.2
    rcases sublist_cons_iff.mp hback with hpost | ⟨rest, heq, hrest⟩
    · exact hpost.subset (by simp)
    · obtain ⟨-, rfl⟩ := List.cons.inj heq
      exact hrest.subset (by simp)
  | x :: rest =>
    obtain ⟨rfl, -⟩ := List.cons.inj hsplit
    exact hfront.subset (by simp)

/-- What comes after an entry. -/
theorem Before.mem_post (h : Before l m b) (hl : l.Nodup) (hsplit : l = pre ++ m :: post) :
    b ∈ post := by
  have hreverse : l.reverse = post.reverse ++ m :: pre.reverse := by simp [hsplit]
  exact mem_reverse.mp (h.reverse.mem_pre (nodup_reverse.mpr hl) hreverse)

/-- What comes before an entry of a log does so in a shorter one. -/
theorem Before.of_append_singleton (h : Before (l ++ [m]) a b) (hne : b ≠ m) : Before l a b := by
  have hreverse := h.reverse
  rw [Before, reverse_append, reverse_singleton, singleton_append, sublist_cons_iff] at hreverse
  rcases hreverse with hrest | ⟨rest, heq, -⟩
  · exact reverse_reverse l ▸ Before.reverse hrest
  · exact absurd (List.cons.inj heq).1 hne

/-! ### First and last -/

/-- **The first entry.** -/
theorem find?_thin (hl : l.Nodup)
    (h : ∀ a ∈ l, p a = true → k a = false → ∃ b, Before l b a ∧ p b = true) :
    (l.filter k).find? p = l.find? p := by
  cases hfind : l.find? p with
  | none =>
    rw [find?_eq_none] at hfind ⊢
    exact fun a ha => hfind a (mem_of_mem_filter ha)
  | some m =>
    obtain ⟨hm, pre, post, rfl, hpre⟩ := find?_eq_some_iff_append.mp hfind
    have hkept : k m = true := by
      by_contra hgone
      obtain ⟨b, hbefore, hb⟩ := h m (by simp) hm (Bool.eq_false_iff.mpr hgone)
      have hnot := hpre b (hbefore.mem_pre hl rfl)
      rw [hb] at hnot
      cases hnot
    refine find?_eq_some_iff_append.mpr ⟨hm, pre.filter k, post.filter k, ?_, ?_⟩
    · rw [filter_append, filter_cons_of_pos hkept]
    · exact fun a ha => hpre a (mem_of_mem_filter ha)

theorem any_thin (hl : l.Nodup)
    (h : ∀ a ∈ l, p a = true → k a = false → ∃ b, Before l b a ∧ p b = true) :
    (l.filter k).any p = l.any p := by
  rw [Bool.eq_iff_iff, any_eq_true, any_eq_true, ← find?_isSome, ← find?_isSome, find?_thin hl h]

/-- **The last entry.** -/
theorem getLast?_thin (hl : l.Nodup)
    (h : ∀ a ∈ l, p a = true → k a = false → ∃ b, Before l a b ∧ p b = true) :
    ((l.filter k).filter p).getLast? = (l.filter p).getLast? := by
  have hlast : ∀ l : List α, (l.filter p).getLast? = l.reverse.find? p := fun l => by
    rw [← head?_reverse, ← filter_reverse, head?_filter]
  rw [hlast, hlast, ← filter_reverse]
  refine find?_thin (nodup_reverse.mpr hl) fun a ha hpa hgone => ?_
  obtain ⟨b, hbefore, hb⟩ := h a (mem_reverse.mp ha) hpa hgone
  exact ⟨b, hbefore.reverse, hb⟩

/-- Entries that never go. -/
theorem filter_thin (h : ∀ a ∈ l, p a = true → k a = true) :
    (l.filter k).filter p = l.filter p := by
  rw [filter_filter]
  refine filter_congr fun a ha => ?_
  cases hpa : p a with
  | false => rfl
  | true => simp [h a ha hpa]

/-! ### The last of the largest -/

/-- The last of the entries with the largest value: each one replaces one that is no larger. -/
def champion {β : Type*} [LinearOrder β] (value : α → β) (l : List α) : Option α :=
  l.foldl (fun current a => if current.all fun m => value m ≤ value a then some a else current) none

variable {β : Type*} [LinearOrder β] {value : α → β}

theorem champion_append_singleton : champion value (l ++ [a]) =
      if (champion value l).all fun m => value m ≤ value a then some a else champion value l := by
  rw [champion, foldl_append]
  rfl

theorem champion_eq_none : champion value l = none ↔ l = [] := by
  constructor
  · intro h
    induction l using List.reverseRecOn with
    | nil => rfl
    | append_singleton l a =>
      rw [champion_append_singleton] at h
      cases hchampion : champion value l with
      | none => simp [hchampion] at h
      | some m =>
        rw [hchampion] at h
        split at h
        · cases h
        · cases h
  · rintro rfl
    rfl

theorem champion_split (h : champion value l = some m) :
    ∃ pre post, l = pre ++ m :: post ∧ (∀ a ∈ pre, value a ≤ value m) ∧
      ∀ a ∈ post, value a < value m := by
  induction l using List.reverseRecOn generalizing m with
  | nil => cases h
  | append_singleton l a ih =>
    rw [champion_append_singleton] at h
    split at h
    case isTrue hlarger =>
      obtain rfl := Option.some.inj h
      refine ⟨l, [], rfl, fun b hb => ?_, by simp⟩
      cases hchampion : champion value l with
      | none =>
        simp [champion_eq_none.mp hchampion] at hb
      | some m =>
        obtain ⟨pre, post, rfl, hpre, hpost⟩ := ih hchampion
        rw [hchampion, Option.all_some, decide_eq_true_eq] at hlarger
        rcases mem_append.mp hb with hb | hb
        · exact (hpre b hb).trans hlarger
        · rcases mem_cons.mp hb with rfl | hb
          · exact hlarger
          · exact (hpost b hb).le.trans hlarger
    case isFalse hsmaller =>
      obtain ⟨pre, post, rfl, hpre, hpost⟩ := ih h
      refine ⟨pre, post ++ [a], by simp, hpre, fun b hb => ?_⟩
      rcases mem_append.mp hb with hb | hb
      · exact hpost b hb
      · obtain rfl := mem_singleton.mp hb
        rw [h, Option.all_some, decide_eq_true_eq, not_le] at hsmaller
        exact hsmaller

theorem champion_mem (h : champion value l = some m) : m ∈ l := by
  obtain ⟨pre, post, rfl, -⟩ := champion_split h
  simp

/-- Where some values are above others, the champion is one of those if there are any. -/
theorem champion_or {p q : α → Bool} (h : ∀ a b, p a = true → q b = true → value b < value a) :
    champion value (l.filter fun a => p a || q a) =
      (champion value (l.filter p)).or (champion value (l.filter q)) := by
  induction l using List.reverseRecOn with
  | nil => rfl
  | append_singleton l a ih =>
    simp only [filter_append, filter_singleton]
    cases hp : p a <;> cases hq : q a
    · simpa using ih
    · cases hm : champion value (l.filter p) with
      | none => simp [champion_append_singleton, ih, hm]
      | some m =>
        have hlt := h m a (mem_filter.mp (champion_mem hm)).2 hq
        simp [champion_append_singleton, ih, hm, hlt]
    · have hall : (champion value (l.filter q)).all fun b => value b ≤ value a := by
        cases hm : champion value (l.filter q) with
        | none => rfl
        | some m => simpa using (h a m hp (mem_filter.mp (champion_mem hm)).2).le
      cases hm : champion value (l.filter p) with
      | none => simp [champion_append_singleton, ih, hm, hall]
      | some m =>
        by_cases hle : value m ≤ value a <;> simp [champion_append_singleton, ih, hm, hle]
    · exact absurd (h a a hp hq) (lt_irrefl _)

theorem champion_of_split (hpre : ∀ a ∈ pre, value a ≤ value m)
    (hpost : ∀ a ∈ post, value a < value m) : champion value (pre ++ m :: post) = some m := by
  induction post using List.reverseRecOn with
  | nil =>
    rw [champion_append_singleton, if_pos]
    cases hchampion : champion value pre with
    | none => rfl
    | some b =>
      obtain ⟨front, back, rfl, -⟩ := champion_split hchampion
      simpa using hpre b (by simp)
  | append_singleton post a ih =>
    have hlater := ih fun b hb => hpost b (mem_append_left _ hb)
    have hsmaller := hpost a (by simp)
    rw [← cons_append, ← append_assoc, champion_append_singleton, hlater]
    simp [hsmaller]

/-- One entry takes the place of another: it is larger, or it is as large and comes after it. -/
def Beats (value : α → β) (l : List α) (b a : α) : Prop :=
  value a < value b ∨ value a = value b ∧ Before l a b

theorem champion_eq_some_iff (hl : l.Nodup) :
    champion value l = some m ↔ m ∈ l ∧ ∀ b ∈ l, ¬ Beats value l b m := by
  constructor
  · intro h
    obtain ⟨pre, post, rfl, hpre, hpost⟩ := champion_split h
    refine ⟨by simp, fun b hb hbeats => ?_⟩
    have hle : value b ≤ value m := by
      rcases mem_append.mp hb with hb | hb
      · exact hpre b hb
      · rcases mem_cons.mp hb with rfl | hb
        · exact le_rfl
        · exact (hpost b hb).le
    rcases hbeats with hlt | ⟨heq, hbefore⟩
    · exact absurd hlt (not_lt.mpr hle)
    · exact absurd (hpost b (hbefore.mem_post hl rfl)) (not_lt.mpr heq.le)
  · rintro ⟨hm, hbeats⟩
    obtain ⟨pre, post, rfl⟩ := append_of_mem hm
    refine champion_of_split (fun a ha => ?_) fun a ha => ?_
    · exact not_lt.mp fun hlt => hbeats a (by simp [ha]) (.inl hlt)
    · have hbefore : Before (pre ++ m :: post) m a :=
        ((singleton_sublist.mpr ha).cons_cons m).trans (sublist_append_right _ _)
      refine lt_of_le_of_ne (not_lt.mp fun hlt => hbeats a (by simp [ha]) (.inl hlt)) fun heq => ?_
      exact hbeats a (by simp [ha]) (.inr ⟨heq.symm, hbefore⟩)

theorem before_filter_iff (ha : k a = true) (hb : k b = true) :
    Before (l.filter k) a b ↔ Before l a b :=
  ⟨fun h => h.sublist filter_sublist, fun h => h.filter ha hb⟩

theorem beats_filter_iff (ha : k a = true) (hb : k b = true) :
    Beats value (l.filter k) b a ↔ Beats value l b a := by
  rw [Beats, Beats, before_filter_iff ha hb]

theorem beats_const : Beats (fun _ => ()) l b a ↔ Before l a b := by simp [Beats]

/-- What is read of the champion stays if and only if it is read of the champion of those that stay,
when it is gone itself. -/
theorem champion_map_thin_iff {γ : Type*} {f : α → γ} (hl : l.Nodup) :
    (champion value (l.filter k)).map f = (champion value l).map f ↔
      ∀ a ∈ l, k a = false → (∀ b ∈ l, ¬ Beats value l b a) →
        ∃ c ∈ l.filter k, f c = f a ∧ ∀ b ∈ l.filter k, ¬ Beats value l b c := by
  have hunbeaten : ∀ c ∈ l.filter k, (∀ b ∈ l.filter k, ¬ Beats value l b c) ↔
      champion value (l.filter k) = some c := fun c hc => by
    rw [champion_eq_some_iff (hl.filter k), and_iff_right hc]
    refine forall₂_congr fun b hb => not_congr ?_
    exact (beats_filter_iff (of_mem_filter hc) (of_mem_filter hb)).symm
  constructor
  · intro h a ha _ hbeats
    rw [(champion_eq_some_iff hl).mpr ⟨ha, hbeats⟩, Option.map_some, Option.map_eq_some_iff] at h
    obtain ⟨c, hc, hf⟩ := h
    have hmem := ((champion_eq_some_iff (hl.filter k)).mp hc).1
    exact ⟨c, hmem, hf, (hunbeaten c hmem).mpr hc⟩
  · intro h
    cases hchampion : champion value l with
    | none => rw [champion_eq_none.mp hchampion]; rfl
    | some m =>
      obtain ⟨hm, hbeats⟩ := (champion_eq_some_iff hl).mp hchampion
      cases hk : k m with
      | true =>
        have hmem : m ∈ l.filter k := mem_filter.mpr ⟨hm, hk⟩
        rw [(hunbeaten m hmem).mp fun b hb => hbeats b (mem_of_mem_filter hb)]
      | false =>
        obtain ⟨c, hc, hf, hrest⟩ := h m hm hk hbeats
        rw [(hunbeaten c hc).mp hrest, Option.map_some, Option.map_some, hf]

/-- **The last of the largest.** -/
theorem champion_thin (hl : l.Nodup) (h : ∀ a ∈ l, k a = false →
      ∃ b ∈ l, value a < value b ∨ value a ≤ value b ∧ Before l a b) :
    champion value (l.filter k) = champion value l := by
  refine Option.map_injective Function.injective_id ?_
  refine (champion_map_thin_iff hl).mpr fun a ha hgone hunbeaten => ?_
  obtain ⟨b, hb, hbeats⟩ := h a ha hgone
  refine absurd ?_ (hunbeaten b hb)
  exact hbeats.elim .inl fun ⟨hle, hbefore⟩ => hle.lt_or_eq.imp_right fun heq => ⟨heq, hbefore⟩

/-- **The champions of groups** stay, as far as they are read, if and only if each one that goes has a
copy that is the champion of those that stay. -/
theorem champions_thin_iff {γ κ : Type*} [DecidableEq κ] {group : α → κ} {f : α → γ}
    (hl : l.Nodup) :
    (∀ g, (champion value ((l.filter k).filter fun a => group a = g)).map f =
      (champion value (l.filter fun a => group a = g)).map f) ↔
    ∀ a ∈ l, k a = false → (∀ b ∈ l, group b = group a → ¬ Beats value l b a) →
      ∃ c ∈ l.filter k, group c = group a ∧ f c = f a ∧
        ∀ b ∈ l.filter k, group b = group a → ¬ Beats value l b c := by
  have hmem : ∀ {g : κ} {a : α}, a ∈ l.filter (fun a => group a = g) ↔ a ∈ l ∧ group a = g := by
    simp
  have hkept : ∀ {g : κ} {a : α}, a ∈ (l.filter fun a => group a = g).filter k ↔
      a ∈ l.filter k ∧ group a = g := by
    simp only [mem_filter, decide_eq_true_eq]
    tauto
  have hbeats : ∀ {g : κ} {a b : α}, group a = g → group b = g →
      (Beats value (l.filter fun a => group a = g) b a ↔ Beats value l b a) := fun ha hb =>
    beats_filter_iff (by simpa using ha) (by simpa using hb)
  constructor
  · intro h a ha hgone hunbeaten
    have hgroup := h (group a)
    rw [filter_comm, champion_map_thin_iff (hl.filter _)] at hgroup
    obtain ⟨c, hc, hf, hrest⟩ := hgroup a (hmem.mpr ⟨ha, rfl⟩) hgone fun b hb hbeat =>
      hunbeaten b (hmem.mp hb).1 (hmem.mp hb).2 ((hbeats rfl (hmem.mp hb).2).mp hbeat)
    obtain ⟨hc, hgroup⟩ := hkept.mp hc
    exact ⟨c, hc, hgroup, hf, fun b hb hb' hbeat =>
      hrest b (hkept.mpr ⟨hb, hb'⟩) ((hbeats hgroup hb').mpr hbeat)⟩
  · intro h g
    rw [filter_comm, champion_map_thin_iff (hl.filter _)]
    intro a hfiltered hgone hunbeaten
    obtain ⟨ha, rfl⟩ := hmem.mp hfiltered
    obtain ⟨c, hc, hgroup, hf, hrest⟩ := h a ha hgone fun b hb hb' hbeat =>
      hunbeaten b (hmem.mpr ⟨hb, hb'⟩) ((hbeats rfl hb').mpr hbeat)
    exact ⟨c, hkept.mpr ⟨hc, hgroup⟩, hf, fun b hb hbeat =>
      hrest b (hkept.mp hb).1 (hkept.mp hb).2 ((hbeats hgroup (hkept.mp hb).2).mp hbeat)⟩

/-- A fold that keeps what it reads of the champion. -/
theorem foldl_eq_champion {γ : Type*} {f : α → γ} {step : Option γ → α → γ}
    (h : ∀ (current : Option α) a, some (step (current.map f) a) =
      (if current.all fun m => value m ≤ value a then some a else current).map f) (l : List α) :
    l.foldl (fun held a => some (step held a)) none = (champion value l).map f := by
  induction l using List.reverseRecOn with
  | nil => rfl
  | append_singleton l a ih =>
    rw [foldl_append, ih, champion_append_singleton]
    exact h (champion value l) a

/-! ### Since the last break -/

variable {breaks starts : α → Bool}

/-- The first entry of a kind after the last break. -/
def sinceLast (breaks starts : α → Bool) (l : List α) : Option α :=
  (l.rtakeWhile fun a => !breaks a).find? starts

theorem sinceLast_append_singleton : sinceLast breaks starts (l ++ [a]) =
      if breaks a then none else (sinceLast breaks starts l).or ([a].find? starts) := by
  rw [sinceLast, rtakeWhile_concat]
  cases breaks a with
  | true => rfl
  | false => exact find?_append

/-- **The first since the last break.** -/
theorem sinceLast_thin (hl : l.Nodup) (h : ∀ a ∈ l, k a = false → (breaks a || starts a) = true →
      ∃ b, Before l a b ∧ breaks b = true) :
    sinceLast breaks starts (l.filter k) = sinceLast breaks starts l := by
  induction l using List.reverseRecOn with
  | nil => rfl
  | append_singleton l a ih =>
    have hrest : breaks a = false →
        sinceLast breaks starts (l.filter k) = sinceLast breaks starts l := by
      intro ha
      refine ih (hl.sublist (sublist_append_left _ _)) fun m hm hgone hstate => ?_
      obtain ⟨b, hbefore, hb⟩ := h m (mem_append_left _ hm) hgone hstate
      refine ⟨b, hbefore.of_append_singleton ?_, hb⟩
      rintro rfl
      exact absurd (ha.symm.trans hb) Bool.false_ne_true
    rw [filter_append, sinceLast_append_singleton]
    cases hk : k a with
    | true =>
      rw [filter_cons_of_pos hk, filter_nil, sinceLast_append_singleton]
      cases hb : breaks a with
      | true => rfl
      | false => rw [hrest hb]
    | false =>
      -- A break or a start that went would come before another break.
      have hneither : (breaks a || starts a) = false := by
        by_contra hstate
        obtain ⟨b, hbefore, -⟩ := h a (by simp) hk (Bool.eq_true_of_not_eq_false hstate)
        exact not_mem_nil (hbefore.mem_post hl rfl)
      obtain ⟨hb, hs⟩ := Bool.or_eq_false_iff.mp hneither
      rw [filter_cons_of_neg (by simp [hk]), filter_nil, append_nil, hrest hb]
      simp [hb, hs]

end SmallTalk.Thinning
