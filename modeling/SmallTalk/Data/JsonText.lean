import Mathlib.Data.List.TakeWhile
import SmallTalk.Data.Json

/-!
# Data — reading a JSON value back from its text

Signed requests carry field values as compact JSON text between names and newlines. What a
reader may conclude from equal texts rests on two facts about that text:

* `scan_text`: read character by character, the text of a value starts and ends outside a
  string, and shows no newline anywhere and no equals sign or backslash outside a string.
  `scan_inside_ne` says that it cannot be read from inside a string to the outside, so an
  equals sign in a value is never the one before the value (`eq_of_append_text`).
* `text_append_inj`: the text of a value decides the value, whatever follows it, and so
  `text_inj`.
-/

namespace SmallTalk

open Nat Option List

/-! ### Strings -/

/-- A character that JSON prints as it is. -/
def isPlain (c : Char) : Bool := 0x20 ≤ c.toNat && c != '"' && c != '\\'

namespace Json

/-- What is printed for a character of a string, or at its end. -/
def code : Option Char → List Char
  | some c => (escapeChar c).toList
  | none => ['"']

/-- The end of a string and the characters printed by an escape. -/
def special : List (Option Char) :=
  none :: ('"' :: '\\' :: (List.range 0x20).map Char.ofNat).map some

theorem code_plain {c : Char} (h : isPlain c = true) : code (some c) = [c] := by
  simp only [isPlain, Bool.and_eq_true, decide_eq_true_eq, bne_iff_ne, ne_eq] at h
  obtain ⟨⟨hc, hq⟩, hb⟩ := h
  have of_toNat : ∀ d : Char, c.toNat = d.toNat → c = d := fun d e => by
    rw [← Char.ofNat_toNat c, e, Char.ofNat_toNat]
  show (escapeChar c).toList = [c]
  unfold escapeChar
  split
  · exact absurd (of_toNat '"' ‹_›) hq
  · exact absurd (of_toNat '\\' ‹_›) hb
  iterate 5 omega
  rw [if_neg (by omega), Char.toString, String.toList_singleton]

theorem plain_or_special (c : Option Char) :
    (∃ p, c = some p ∧ isPlain p = true) ∨ c ∈ special := by
  cases c with
  | none => exact .inr mem_cons_self
  | some c =>
    by_cases hp : isPlain c = true
    · exact .inl ⟨c, rfl, hp⟩
    refine .inr (mem_cons_of_mem _ (mem_map_of_mem ?_))
    simp only [isPlain, Bool.and_eq_true, decide_eq_true_eq, bne_iff_ne] at hp
    by_cases hq : c = '"'
    · exact hq ▸ mem_cons_self
    by_cases hb : c = '\\'
    · exact hb ▸ mem_cons_of_mem _ mem_cons_self
    have hlt : c.toNat < 0x20 := by
      by_contra hge
      exact hp ⟨⟨by omega, hq⟩, hb⟩
    exact mem_cons_of_mem _ (mem_cons_of_mem _
      (mem_map.mpr ⟨c.toNat, mem_range.mpr hlt, Char.ofNat_toNat c⟩))

/-- No plain character starts what is printed for a special one. -/
theorem special_head : ∀ c ∈ special, ∃ e, (code c).head? = some e ∧ isPlain e = false := by
  have h : ∀ c ∈ special, (code c).head?.map isPlain = some false := by decide +kernel
  intro c hc
  simpa using h c hc

theorem special_apart : ∀ c ∈ special, ∀ d ∈ special, code c <+: code d → c = d := by
  decide +kernel

theorem code_apart {c d : Option Char} (h : code c <+: code d) : c = d := by
  have heads : ∀ e, (code c).head? = some e → (code d).head? = some e := by
    obtain ⟨t, ht⟩ := h
    intro e he
    rw [← ht, head?_append, he, Option.some_or]
  rcases plain_or_special c with ⟨p, rfl, hp⟩ | hc
  · have hd := heads p (by rw [code_plain hp]; rfl)
    rcases plain_or_special d with ⟨q, rfl, hq⟩ | hs
    · rw [code_plain hq] at hd
      exact congrArg some (Option.some.inj hd).symm
    · obtain ⟨e, he, hne⟩ := special_head d hs
      rw [hd, Option.some.injEq] at he
      rw [he, hne] at hp
      cases hp
  · obtain ⟨e, he, hne⟩ := special_head c hc
    have hd := heads e he
    rcases plain_or_special d with ⟨q, rfl, hq⟩ | hs
    · rw [code_plain hq] at hd
      rw [Option.some.inj hd, hne] at hq
      cases hq
    · exact special_apart c hc d hs h

/-- Codes are told apart by their text, whatever follows. -/
theorem code_append_inj {c d : Option Char} {r s : List Char} (h : code c ++ r = code d ++ s) :
    c = d ∧ r = s := by
  have hc : code c <+: code d ++ s := ⟨r, h⟩
  have hcd : c = d := by
    rcases prefix_or_prefix_of_prefix hc (prefix_append _ _) with hp | hp
    · exact code_apart hp
    · exact (code_apart hp).symm
  subst hcd
  exact ⟨rfl, append_cancel_left h⟩

/-- The characters of a quoted string after its opening quote. -/
def quoted (cs : List Char) : List Char := (cs.map some ++ [none]).flatMap code

theorem quote_toList (s : String) : (quote s).toList = '"' :: quoted s.toList := by
  simp [quote, quoted, code, String.toList_append, String.toList_join, flatMap_map]

theorem quoted_append_inj {cs ds r s : List Char} (h : quoted cs ++ r = quoted ds ++ s) :
    cs = ds ∧ r = s := by
  induction cs generalizing ds with
  | nil =>
    cases ds with
    | nil => exact ⟨rfl, append_cancel_left h⟩
    | cons d ds =>
      have := (code_append_inj (c := none) (d := some d)
        (by simpa [quoted, append_assoc] using h)).1
      cases this
  | cons c cs ih =>
    cases ds with
    | nil =>
      have := (code_append_inj (c := some c) (d := none)
        (by simpa [quoted, append_assoc] using h)).1
      cases this
    | cons d ds =>
      obtain ⟨hcd, hrest⟩ := code_append_inj (c := some c) (d := some d)
        (by simpa [quoted, append_assoc] using h)
      obtain ⟨rfl, hrs⟩ := ih (by simpa [quoted, append_assoc] using hrest)
      exact ⟨by rw [some.inj hcd], hrs⟩

/-! ### Numbers -/

/-- What may follow a value: nothing, or a character no number goes on with. -/
def Ends (r : List Char) : Prop := ∀ c ∈ r.head?, isNumeric c = false

theorem isDigit_of_mem_repr {n : ℕ} {c : Char} (h : c ∈ (toString n).toList) :
    c.isDigit = true := by
  rw [toString_eq_repr, toList_repr] at h
  exact isDigit_of_mem_toDigits (by omega) (by omega) h

theorem decimal_inj {m n : ℕ} (h : toString m = toString n) : m = n := by
  have hd : toDigits 10 m = toDigits 10 n := by
    simpa only [toString_eq_repr, toList_repr] using congrArg String.toList h
  rw [← ofDigitChars_toDigits (b := 10) (n := m) (by omega) (by omega), hd,
    ofDigitChars_toDigits (by omega) (by omega)]

theorem number_numeric (n : JsonNumber) : ∀ c ∈ n.text.toList, isNumeric c = true := by
  intro c hc
  cases n with
  | nat n => simp [isNumeric, isDigit_of_mem_repr hc]
  | neg n =>
    rw [JsonNumber.text, String.toList_append, mem_append] at hc
    rcases hc with hc | hc
    · obtain rfl : c = '-' := by simpa using hc
      rfl
    · simp [isNumeric, isDigit_of_mem_repr hc]
  | float number => exact all_eq_true.mp number.numeric c hc

/-- A printed integer has no point and no exponent. -/
theorem not_fractional {n : JsonNumber} {number : FloatText} (h : n.text = number.text) :
    n = .float number := by
  obtain ⟨c, hc, hf⟩ := any_eq_true.mp number.fractional
  have digit_absurd : c.isDigit = true → False := fun hd => by
    simp only [Bool.or_eq_true, beq_iff_eq] at hf
    rcases hf with rfl | rfl <;> exact absurd hd (by decide)
  rw [← h] at hc
  cases n with
  | nat n => exact (digit_absurd (isDigit_of_mem_repr hc)).elim
  | neg n =>
    rw [JsonNumber.text, String.toList_append, mem_append] at hc
    rcases hc with hc | hc
    · obtain rfl : c = '-' := by simpa using hc
      simp at hf
    · exact (digit_absurd (isDigit_of_mem_repr hc)).elim
  | float number' =>
    cases number'
    cases number
    subst h
    rfl

theorem number_text_inj {m n : JsonNumber} (h : m.text = n.text) : m = n := by
  have minus : ∀ a b : ℕ, toString a ≠ "-" ++ toString (b + 1) := fun a b hab => by
    have : '-' ∈ (toString a).toList := by rw [hab]; simp [String.toList_append]
    exact absurd (isDigit_of_mem_repr this) (by decide)
  cases n with
  | float number => exact not_fractional h
  | nat n =>
    cases m with
    | nat m => exact congrArg _ (decimal_inj h)
    | neg m => exact absurd h.symm (minus n m)
    | float number => exact (not_fractional h.symm).symm
  | neg n =>
    cases m with
    | nat m => exact absurd h (minus m n)
    | neg m =>
      have htail := congrArg String.toList h
      simp only [JsonNumber.text, String.toList_append] at htail
      have := decimal_inj (String.toList_inj.mp (append_cancel_left htail))
      exact congrArg _ (succ.inj this)
    | float number => exact (not_fractional h.symm).symm

theorem takeWhile_numeric {t r : List Char} (ht : ∀ c ∈ t, isNumeric c = true) (hr : Ends r) :
    (t ++ r).takeWhile isNumeric = t := by
  rw [takeWhile_append_of_pos ht]
  cases r with
  | nil => simp
  | cons c r => simp [hr c rfl]

theorem number_append_inj {m n : JsonNumber} {r s : List Char} (hr : Ends r) (hs : Ends s)
    (h : m.text.toList ++ r = n.text.toList ++ s) : m = n ∧ r = s := by
  have ht : m.text.toList = n.text.toList := by
    rw [← takeWhile_numeric (number_numeric m) hr, h, takeWhile_numeric (number_numeric n) hs]
  refine ⟨number_text_inj (String.toList_inj.mp ht), ?_⟩
  rw [ht] at h
  exact append_cancel_left h

/-! ### Values -/

/-- The characters of a value's text. -/
def chars (v : Json) : List Char := (text v).toList

/-- What follows the opening of an array or object: the entries, each after a comma, and the
closing bracket. -/
def entries (close : Char) (texts : List String) : List Char :=
  texts.flatMap (fun t => ',' :: t.toList) ++ [close]

theorem intercalate_cons (t : String) (texts : List String) (close : Char) :
    (String.intercalate "," (t :: texts)).toList ++ [close] =
      (entries close (t :: texts)).tail := by
  rw [String.toList_intercalate]
  induction texts generalizing t with
  | nil => simp [entries, List.intercalate]
  | cons u texts ih =>
    have := ih u
    simp only [entries, map_cons, List.intercalate, intersperse_cons_cons,
      flatten_cons, flatMap_cons, append_assoc] at this ⊢
    rw [this]
    simp

theorem cons_tail_entries (close : Char) (t : String) (texts : List String) :
    ',' :: (entries close (t :: texts)).tail = entries close (t :: texts) := by
  simp [entries]

theorem chars_arr_cons (x : Json) (xs : List Json) :
    chars (.arr (x :: xs)) = '[' :: (entries ']' (itemTexts (x :: xs))).tail := by
  simp only [chars, text, itemTexts, String.toList_append, append_assoc]
  exact congrArg _ (intercalate_cons _ _ ']')

theorem chars_obj_cons (m : String × Json) (members : List (String × Json)) :
    chars (.obj (m :: members)) = '\x7b' :: (entries '\x7d' (memberTexts (m :: members))).tail := by
  simp only [chars, text, memberTexts, String.toList_append, append_assoc]
  rw [← intercalate_cons]
  rfl

theorem member_toList (name : String) (v : Json) :
    (quote name ++ ":" ++ text v).toList = '"' :: (quoted name.toList ++ ':' :: chars v) := by
  simp [String.toList_append, quote_toList, chars]

/-- The constructor that a first character shows. -/
def opens (c : Char) : ℕ :=
  if isNumeric c then 0 else if c = '"' then 1 else if c = '[' then 2 else if c = '\x7b' then 3
  else if c = 'n' then 4 else if c = 't' then 5 else if c = 'f' then 6 else 7

/-- The constructor of a value. -/
def shape : Json → ℕ
  | .num _ => 0
  | .str _ => 1
  | .arr _ => 2
  | .obj _ => 3
  | .null => 4
  | .bool b => if b then 5 else 6

theorem number_text_ne_nil (n : JsonNumber) : n.text.toList ≠ [] := by
  cases n with
  | nat n =>
    rw [JsonNumber.text, toString_eq_repr, toList_repr]
    exact toDigits_ne_nil
  | neg n => simp [JsonNumber.text, String.toList_append]
  | float number =>
    obtain ⟨c, hc, -⟩ := any_eq_true.mp number.fractional
    exact ne_nil_of_mem hc

theorem chars_opens (v : Json) : ∃ c t, chars v = c :: t ∧ opens c = shape v := by
  cases v with
  | null => exact ⟨_, _, rfl, rfl⟩
  | bool b => cases b <;> exact ⟨_, _, rfl, rfl⟩
  | num n =>
    obtain ⟨c, t, hct⟩ := exists_cons_of_ne_nil (number_text_ne_nil n)
    refine ⟨c, t, hct, ?_⟩
    have : isNumeric c = true := number_numeric n c (hct ▸ mem_cons_self)
    simp [opens, shape, this]
  | str s => exact ⟨_, _, quote_toList s, rfl⟩
  | arr items =>
    cases items with
    | nil => exact ⟨_, _, rfl, rfl⟩
    | cons x xs => exact ⟨_, _, chars_arr_cons x xs, rfl⟩
  | obj members =>
    cases members with
    | nil => exact ⟨_, _, rfl, rfl⟩
    | cons m members => exact ⟨_, _, chars_obj_cons m members, rfl⟩

theorem shape_eq {v w : Json} {r s : List Char} (h : chars v ++ r = chars w ++ s) :
    shape v = shape w := by
  obtain ⟨c, t, hv, hc⟩ := chars_opens v
  obtain ⟨d, u, hw, hd⟩ := chars_opens w
  rw [hv, hw] at h
  rw [← hc, ← hd, (List.cons.inj h).1]

theorem arr_nil_append_ne (x : Json) (xs : List Json) (r s : List Char) :
    chars (.arr []) ++ r ≠ chars (.arr (x :: xs)) ++ s := by
  obtain ⟨c, t, hx, hc⟩ := chars_opens x
  intro h
  rw [chars_arr_cons] at h
  simp only [itemTexts, entries, flatMap_cons, cons_append, tail_cons,
    show (text x).toList = _ from hx] at h
  rw [← (List.cons.inj (List.cons.inj h).2).1] at hc
  cases x with
  | bool b => cases b <;> cases hc
  | _ => cases hc

theorem obj_nil_append_ne (m : String × Json) (members : List (String × Json)) (r s : List Char) :
    chars (.obj []) ++ r ≠ chars (.obj (m :: members)) ++ s := by
  intro h
  rw [chars_obj_cons] at h
  simp only [memberTexts, entries, flatMap_cons, member_toList, cons_append, tail_cons] at h
  exact absurd (List.cons.inj (List.cons.inj h).2).1 (by decide)

theorem entries_ends (close : Char) (hc : isNumeric close = false) (texts : List String)
    (r : List Char) : Ends (entries close texts ++ r) := by
  intro c hcr
  cases texts with
  | nil => exact some.inj hcr ▸ hc
  | cons t texts => exact some.inj hcr ▸ rfl

/-- Where two lists of entries agree as text, both are at their end or both go on. -/
theorem entries_cons_append (close : Char) (t : String) (texts : List String) (r : List Char) :
    entries close (t :: texts) ++ r = ',' :: (t.toList ++ (entries close texts ++ r)) := by
  simp [entries, append_assoc]

/-- Texts that agree after an opening agree after a comma. -/
theorem entries_of_tail {opening close : Char} {t u : String} {texts texts' : List String}
    {r s : List Char} (h : opening :: (entries close (t :: texts)).tail ++ r =
      opening :: (entries close (u :: texts')).tail ++ s) :
    entries close (t :: texts) ++ r = entries close (u :: texts') ++ s := by
  rw [cons_append, cons_append, List.cons.injEq] at h
  rw [← cons_tail_entries, ← cons_tail_entries close u, cons_append, cons_append, h.2]

mutual

/-- **The text of a value decides the value.**  It can be read back whatever follows, as long as
a number does not go on. -/
theorem text_append_inj : ∀ (v w : Json) {r s : List Char}, Ends r → Ends s →
    chars v ++ r = chars w ++ s → v = w ∧ r = s
  | v, w, r, s, hr, hs, h => by
      have hshape := shape_eq h
      match v, w, hshape with
      | .null, .null, _ => exact ⟨rfl, append_cancel_left h⟩
      | .bool true, .bool true, _ => exact ⟨rfl, append_cancel_left h⟩
      | .bool false, .bool false, _ => exact ⟨rfl, append_cancel_left h⟩
      | .num m, .num n, _ =>
        obtain ⟨rfl, hrs⟩ := number_append_inj hr hs h
        exact ⟨rfl, hrs⟩
      | .str a, .str b, _ =>
        simp only [chars, text, quote_toList, cons_append, List.cons.injEq, true_and] at h
        obtain ⟨hab, hrs⟩ := quoted_append_inj h
        exact ⟨congrArg _ (String.toList_inj.mp hab), hrs⟩
      | .arr [], .arr [], _ => exact ⟨rfl, append_cancel_left h⟩
      | .arr [], .arr (y :: ys), _ => exact absurd h (arr_nil_append_ne _ _ _ _)
      | .arr (x :: xs), .arr [], _ => exact absurd h.symm (arr_nil_append_ne _ _ _ _)
      | .arr (x :: xs), .arr (y :: ys), _ =>
        rw [chars_arr_cons, chars_arr_cons] at h
        obtain ⟨hitems, hrs⟩ := items_append_inj (x :: xs) (y :: ys) (entries_of_tail h)
        exact ⟨congrArg _ hitems, hrs⟩
      | .obj [], .obj [], _ => exact ⟨rfl, append_cancel_left h⟩
      | .obj [], .obj (y :: ys), _ => exact absurd h (obj_nil_append_ne _ _ _ _)
      | .obj (x :: xs), .obj [], _ => exact absurd h.symm (obj_nil_append_ne _ _ _ _)
      | .obj (x :: xs), .obj (y :: ys), _ =>
        rw [chars_obj_cons, chars_obj_cons] at h
        obtain ⟨hmembers, hrs⟩ := members_append_inj (x :: xs) (y :: ys) (entries_of_tail h)
        exact ⟨congrArg _ hmembers, hrs⟩

theorem items_append_inj : ∀ (xs ys : List Json) {r s : List Char},
    entries ']' (itemTexts xs) ++ r = entries ']' (itemTexts ys) ++ s → xs = ys ∧ r = s
  | [], [], _, _, h => ⟨rfl, append_cancel_left h⟩
  | [], y :: ys, _, _, h => by
      exact absurd (List.cons.inj h).1 (by decide)
  | x :: xs, [], _, _, h => by
      exact absurd (List.cons.inj h).1 (by decide)
  | x :: xs, y :: ys, _, _, h => by
      rw [itemTexts, itemTexts, entries_cons_append, entries_cons_append] at h
      obtain ⟨rfl, hrest⟩ := text_append_inj x y (entries_ends _ rfl _ _)
        (entries_ends _ rfl _ _) (List.cons.inj h).2
      obtain ⟨rfl, hrs⟩ := items_append_inj xs ys hrest
      exact ⟨rfl, hrs⟩

theorem members_append_inj : ∀ (xs ys : List (String × Json)) {r s : List Char},
    entries '\x7d' (memberTexts xs) ++ r = entries '\x7d' (memberTexts ys) ++ s →
      xs = ys ∧ r = s
  | [], [], _, _, h => ⟨rfl, append_cancel_left h⟩
  | [], y :: ys, _, _, h => by
      exact absurd (List.cons.inj h).1 (by decide)
  | x :: xs, [], _, _, h => by
      exact absurd (List.cons.inj h).1 (by decide)
  | (a, x) :: xs, (b, y) :: ys, _, _, h => by
      rw [memberTexts, memberTexts, entries_cons_append, entries_cons_append] at h
      simp only [member_toList, cons_append, append_assoc, List.cons.injEq, true_and] at h
      obtain ⟨hab, hx⟩ := quoted_append_inj h
      obtain ⟨rfl, hrest⟩ := text_append_inj x y (entries_ends _ rfl _ _)
        (entries_ends _ rfl _ _) (List.cons.inj hx).2
      obtain ⟨rfl, hrs⟩ := members_append_inj xs ys hrest
      rw [String.toList_inj.mp hab]
      exact ⟨rfl, hrs⟩

end

theorem text_inj {v w : Json} (h : text v = text w) : v = w :=
  (text_append_inj (r := []) (s := []) v w (by simp [Ends]) (by simp [Ends])
    (congrArg (·.toList ++ []) h)).1

/-! ### Reading from outside to outside -/

/-- Where a reader of JSON text is. -/
inductive Scan where
  | outside
  | inside
  | escape
  deriving DecidableEq, Repr

/-- One character further. Outside a string an equals sign, a backslash or a newline stops the
reader, and so does a newline anywhere. -/
def Scan.step : Scan → Char → Option Scan
  | .outside, c =>
    if c = '"' then some .inside
    else if c = '=' ∨ c = '\\' ∨ c = '\n' then none else some .outside
  | .inside, c =>
    if c = '"' then some .outside else if c = '\\' then some .escape
    else if c = '\n' then none else some .inside
  | .escape, c => if c = '\n' then none else some .inside

def scan (at_ : Scan) (cs : List Char) : Option Scan := cs.foldlM Scan.step at_

theorem scan_append (a : Scan) (cs ds : List Char) :
    scan a (cs ++ ds) = (scan a cs).bind fun b => scan b ds := by
  simp [scan, foldlM_append]

theorem scan_cons (a : Scan) (c : Char) (cs : List Char) :
    scan a (c :: cs) = (a.step c).bind fun b => scan b cs := rfl

theorem scan_code (c : Option Char) :
    scan .inside (code c) = some (if c = none then .outside else .inside) := by
  rcases plain_or_special c with ⟨p, rfl, hp⟩ | hc
  · rw [code_plain hp]
    simp only [isPlain, Bool.and_eq_true, decide_eq_true_eq, bne_iff_ne, ne_eq] at hp
    have hn : p ≠ '\n' := by
      rintro rfl
      exact absurd hp.1.1 (by decide)
    simp [scan, Scan.step, hp.1.2, hp.2, hn]
  · exact (by decide +kernel : ∀ c ∈ special,
      scan .inside (code c) = some (if c = none then .outside else .inside)) c hc

theorem scan_quoted (cs : List Char) : scan .inside (quoted cs) = some .outside := by
  induction cs with
  | nil => exact scan_code none
  | cons c cs ih =>
    show scan .inside (code (some c) ++ quoted cs) = _
    rwa [scan_append, scan_code]

theorem scan_quote (s : String) : scan .outside (quote s).toList = some .outside := by
  rw [quote_toList]
  exact scan_quoted _

theorem scan_numeric {cs : List Char} (h : ∀ c ∈ cs, isNumeric c = true) :
    scan .outside cs = some .outside := by
  induction cs with
  | nil => rfl
  | cons c cs ih =>
    have hc := h c mem_cons_self
    have hstep : Scan.step .outside c = some .outside := by
      have : ¬(c = '"') ∧ ¬(c = '=' ∨ c = '\\' ∨ c = '\n') := by
        refine ⟨?_, ?_⟩
        · rintro rfl
          exact absurd hc (by decide)
        · rintro (rfl | rfl | rfl) <;> exact absurd hc (by decide)
      simp only [Scan.step, this, if_false]
    rw [scan_cons, hstep]
    exact ih fun d hd => h d (mem_cons_of_mem _ hd)

theorem scan_entries {close : Char} (hclose : scan .outside [close] = some .outside)
    {texts : List String} (h : ∀ t ∈ texts, scan .outside t.toList = some .outside) :
    scan .outside (entries close texts) = some .outside := by
  induction texts with
  | nil => exact hclose
  | cons t texts ih =>
    have htail := ih fun u hu => h u (mem_cons_of_mem _ hu)
    rw [← append_nil (entries close (t :: texts)), entries_cons_append, append_nil, scan_cons]
    show scan .outside _ = _
    rwa [scan_append, h t mem_cons_self]

theorem scan_opened {opening close : Char} (hopening : Scan.step .outside opening = some .outside)
    (hclose : scan .outside [close] = some .outside) {t : String} {texts : List String}
    (h : ∀ u ∈ t :: texts, scan .outside u.toList = some .outside) :
    scan .outside (opening :: (entries close (t :: texts)).tail) = some .outside := by
  have hentries := scan_entries hclose h
  have hcomma : Scan.step .outside ',' = some .outside := by decide
  rw [← cons_tail_entries, scan_cons, hcomma] at hentries
  rw [scan_cons, hopening]
  exact hentries

mutual

theorem scan_text : ∀ v : Json, scan .outside (chars v) = some .outside
  | .null => by decide
  | .bool true => by decide
  | .bool false => by decide
  | .num n => scan_numeric (number_numeric n)
  | .str s => scan_quote s
  | .arr [] => by decide
  | .arr (x :: xs) => by
      rw [chars_arr_cons]
      exact scan_opened (by decide) (by decide) (scan_items (x :: xs))
  | .obj [] => by decide
  | .obj (x :: members) => by
      rw [chars_obj_cons]
      exact scan_opened (by decide) (by decide) (scan_members (x :: members))

theorem scan_items : ∀ items : List Json,
    ∀ t ∈ itemTexts items, scan .outside t.toList = some .outside
  | [], t, ht => by cases ht
  | x :: xs, t, ht => by
      rcases mem_cons.mp ht with rfl | ht
      · exact scan_text x
      · exact scan_items xs t ht

theorem scan_members : ∀ members : List (String × Json),
    ∀ t ∈ memberTexts members, scan .outside t.toList = some .outside
  | [], t, ht => by cases ht
  | (name, x) :: members, t, ht => by
      rcases mem_cons.mp ht with rfl | ht
      · rw [member_toList, scan_cons]
        show scan .inside _ = _
        rw [scan_append, scan_quoted]
        exact scan_text x
      · exact scan_members members t ht

end

/-- One reader is outside a string where the other is inside one. -/
def Scan.Apart (a b : Scan) : Prop :=
  (a = .outside ∧ b = .inside) ∨ (a = .inside ∧ b = .outside)

theorem Scan.Apart.symm {a b : Scan} (h : a.Apart b) : b.Apart a :=
  h.elim (fun h => .inr ⟨h.2, h.1⟩) (fun h => .inl ⟨h.2, h.1⟩)

/-- The strings of one reading are the gaps of the other, and a backslash stops one of them. -/
theorem Scan.Apart.step {a b a' b' : Scan} {c : Char} (h : a.Apart b) (ha : a.step c = some a')
    (hb : b.step c = some b') : a'.Apart b' := by
  wlog hout : a = .outside ∧ b = .inside generalizing a b a' b'
  · have hin := h.resolve_left hout
    exact (this h.symm hb ha ⟨hin.2, hin.1⟩).symm
  obtain ⟨rfl, rfl⟩ := hout
  by_cases hq : c = '"'
  · subst hq
    cases ha
    cases hb
    exact .inr ⟨rfl, rfl⟩
  · simp only [Scan.step, hq, if_false, ite_none_left_eq_some, not_or,
      some.injEq] at ha hb
    obtain ⟨⟨-, hback, hnl⟩, rfl⟩ := ha
    simp only [hback, hnl, if_false, some.injEq] at hb
    exact .inl ⟨rfl, hb.symm⟩

theorem scan_apart {cs : List Char} {a b a' b' : Scan} (h : a.Apart b)
    (ha : scan a cs = some a') (hb : scan b cs = some b') : a'.Apart b' := by
  induction cs generalizing a b with
  | nil =>
    cases ha
    cases hb
    exact h
  | cons c cs ih =>
    obtain ⟨a₁, ha₁, ha⟩ := bind_eq_some_iff.mp ha
    obtain ⟨b₁, hb₁, hb⟩ := bind_eq_some_iff.mp hb
    exact ih (h.step ha₁ hb₁) ha hb

/-- No text of a value leads from inside a string to the outside. -/
theorem scan_inside_ne (v : Json) : scan .inside (chars v) ≠ some .outside := by
  intro h
  rcases scan_apart (.inl ⟨rfl, rfl⟩) (scan_text v) h with ⟨-, h⟩ | ⟨h, -⟩ <;> cases h

/-- An equals sign inside the text of a value is never followed by the text of a value. -/
theorem chars_ne_append (v w : Json) (before : List Char) : chars v ≠ before ++ '=' :: chars w := by
  intro h
  have hv := scan_text v
  rw [h, scan_append] at hv
  obtain ⟨a, -, hv⟩ := bind_eq_some_iff.mp hv
  cases a with
  | outside => cases hv
  | inside => exact scan_inside_ne w hv
  | escape => exact scan_inside_ne w hv

/-- A name and a value are told apart in `NAME=VALUE`, whatever the name. -/
theorem eq_of_append_text {m n : List Char} {v w : Json}
    (h : m ++ '=' :: chars v = n ++ '=' :: chars w) : m = n ∧ v = w := by
  rcases append_eq_append_iff.mp h with ⟨a, rfl, ha⟩ | ⟨a, rfl, ha⟩
  all_goals
    cases a with
    | nil =>
      have := (List.cons.inj ha).2
      exact ⟨by simp, text_inj (String.toList_inj.mp (by first | exact this | exact this.symm))⟩
    | cons c a => exact absurd (List.cons.inj ha).2 (chars_ne_append _ _ _)

theorem newline_notMem_chars (v : Json) : '\n' ∉ chars v := by
  intro h
  obtain ⟨a, b, hab⟩ := append_of_mem h
  have hv := scan_text v
  rw [hab, scan_append] at hv
  obtain ⟨s, -, hs⟩ := bind_eq_some_iff.mp hv
  cases s <;> cases hs

end Json

end SmallTalk
