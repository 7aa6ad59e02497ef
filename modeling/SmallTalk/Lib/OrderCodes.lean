import Mathlib.Data.Char
import Mathlib.Data.String.Basic
import Mathlib.Data.Prod.Lex
import Mathlib.Data.List.Lex
import Mathlib.Data.Nat.ModEq
import Mathlib.Order.Basic
import Mathlib.Tactic.NormNum

/-!
# Lib — codes that keep an order

A code sends values to words over an ordered alphabet. It keeps the order whatever follows when the
words of two values differ at a letter, the smaller value having the smaller letter there: neither
word then begins with the other (`Below`, `OrderCode`).

* `below_bigEndian`, `lt_iff_toDigits`: numbers as bytes, and as decimal digits by length and text.
* `orderCode_utf8`, `bytes_lt_iff`: characters and texts as bytes.
-/

namespace SmallTalk.OrderCodes

open List

variable {α β γ : Type*} [LinearOrder β] {x y s t : List β} {n m : ℕ}

/-- The words differ, and the first has the smaller letter where they first do. -/
inductive Below : List β → List β → Prop
  | here {u v : β} {x y : List β} (h : u < v) : Below (u :: x) (v :: y)
  | there {u : β} {x y : List β} (h : Below x y) : Below (u :: x) (u :: y)

theorem Below.append (h : Below x y) (s t : List β) : Below (x ++ s) (y ++ t) := by
  induction h with
  | here h => exact .here h
  | there _ ih => exact .there ih

theorem Below.append_left (h : Below x y) (s : List β) : Below (s ++ x) (s ++ y) := by
  induction s with
  | nil => exact h
  | cons u s ih => exact .there ih

theorem Below.lt (h : Below x y) : x < y := by
  induction h with
  | here h => exact List.Lex.rel h
  | there _ ih => exact List.Lex.cons ih

/-! ### Codes -/

/-- The words of two values differ as the values do, whatever follows them. -/
def OrderCode [LT α] (code : α → List β) : Prop := ∀ ⦃a b⦄, a < b → Below (code a) (code b)

theorem Below.flatMap [LinearOrder γ] {letters : γ → List β} {z w : List γ} (h : Below z w)
    (hletters : OrderCode letters) : Below (z.flatMap letters) (w.flatMap letters) := by
  induction h with
  | here huv =>
    rw [flatMap_cons, flatMap_cons]
    exact (hletters huv).append _ _
  | there _ ih =>
    rw [flatMap_cons, flatMap_cons]
    exact ih.append_left _

/-- **One code after another.**  The letters of the first code are coded by the second. -/
theorem OrderCode.flatMap [LinearOrder γ] [LT α] {code : α → List γ} {letters : γ → List β}
    (h : OrderCode code) (hletters : OrderCode letters) :
    OrderCode fun a => (code a).flatMap letters :=
  fun _ _ hab => (h hab).flatMap hletters

/-- **Terminated lists.**  A list is coded letter by letter; a terminator below every letter puts a
list before its extensions. -/
theorem OrderCode.terminated [LinearOrder α] {code : α → List β} (h : OrderCode code)
    (hend : ∀ a, Below t (code a)) : OrderCode fun l : List α => l.flatMap code ++ t := by
  intro l l' hlt
  dsimp only
  induction l generalizing l' with
  | nil =>
    cases l' with
    | nil => exact absurd hlt (lt_irrefl _)
    | cons b l' =>
      rw [flatMap_nil, nil_append, flatMap_cons, append_assoc]
      have hbelow := (hend b).append [] (l'.flatMap code ++ t)
      rwa [append_nil] at hbelow
  | cons a l ih =>
    cases l' with
    | nil => exact absurd hlt (not_lt_nil _)
    | cons b l' =>
      rw [flatMap_cons, flatMap_cons, append_assoc, append_assoc]
      obtain hab | ⟨rfl, hrest⟩ := cons_lt_cons_iff.mp hlt
      · exact (h hab).append _ _
      · exact (ih hrest).append_left _

/-- Without a terminator lists are still in the order of their words, if no letter is coded by
nothing. -/
theorem OrderCode.flatMap_lt_iff [LinearOrder α] {code : α → List β} (h : OrderCode code)
    (hne : ∀ a, code a ≠ []) {l l' : List α} : l.flatMap code < l'.flatMap code ↔ l < l' := by
  have hmono : ∀ l l' : List α, l < l' → l.flatMap code < l'.flatMap code := by
    intro l
    induction l with
    | nil =>
      rintro (_ | ⟨b, l'⟩) hlt
      · exact absurd hlt (lt_irrefl _)
      · cases hb : code b with
        | nil => exact absurd hb (hne b)
        | cons u x =>
          rw [flatMap_nil, flatMap_cons, hb]
          exact List.Lex.nil
    | cons a l ih =>
      rintro (_ | ⟨b, l'⟩) hlt
      · exact absurd hlt (not_lt_nil _)
      · rw [flatMap_cons, flatMap_cons]
        obtain hab | ⟨rfl, hrest⟩ := cons_lt_cons_iff.mp hlt
        · exact ((h hab).append _ _).lt
        · exact append_left_lt (ih l' hrest)
  refine ⟨fun hlt => ?_, hmono l l'⟩
  obtain hll | rfl | hgt := lt_trichotomy l l'
  · exact hll
  · exact absurd hlt (lt_irrefl _)
  · exact absurd hlt (hmono l' l hgt).asymm

/-- One more component of a lexicographic order. -/
theorem Below.lex {δ : Type*} [LinearOrder α] [LinearOrder δ] {a a' : α} {b b' : δ}
    {x x' y y' : List β} (hlt : toLex (a, b) < toLex (a', b')) (hfirst : a < a' → Below x x')
    (hsame : a = a' → x = x') (hrest : b < b' → Below y y') : Below (x ++ y) (x' ++ y') := by
  obtain haa | ⟨haa, hbb⟩ := Prod.Lex.lt_iff.mp hlt
  · exact (hfirst haa).append _ _
  · have hbelow := (hrest hbb).append_left x
    rwa [hsame haa] at hbelow ⊢

/-! ### Numbers -/

/-- Bytes in the order of their values. -/
instance instLinearOrderByte : LinearOrder UInt8 where
  le_refl := UInt8.le_refl
  le_trans _ _ _ := UInt8.le_trans
  le_antisymm _ _ := UInt8.le_antisymm
  le_total := UInt8.le_total
  lt_iff_le_not_ge a b := by
    rw [UInt8.lt_iff_toNat_lt, UInt8.le_iff_toNat_le, UInt8.le_iff_toNat_le]
    omega
  toDecidableLE := inferInstance
  toDecidableEq := inferInstance
  toDecidableLT := inferInstance

theorem ofNat_lt_ofNat (h : n < m) (hm : m < 256) : UInt8.ofNat n < UInt8.ofNat m := by
  rw [UInt8.lt_iff_toNat_lt, UInt8.toNat_ofNat', UInt8.toNat_ofNat']
  omega

/-- `to_be_bytes` of a number of `width` bytes. -/
def bigEndian : ℕ → ℕ → List UInt8
  | 0, _ => []
  | width + 1, n => UInt8.ofNat (n / 256 ^ width % 256) :: bigEndian width n

theorem below_bigEndian {width n m : ℕ} (h : n % 256 ^ width < m % 256 ^ width) :
    Below (bigEndian width n) (bigEndian width m) := by
  induction width with
  | zero => simp [Nat.mod_one] at h
  | succ width ih =>
    rw [Nat.mod_pow_succ, Nat.mod_pow_succ] at h
    have hbound : n % 256 ^ width < 256 ^ width := Nat.mod_lt _ (Nat.pow_pos (by norm_num))
    have hbound' : m % 256 ^ width < 256 ^ width := Nat.mod_lt _ (Nat.pow_pos (by norm_num))
    obtain hlt | heq | hgt := lt_trichotomy (n / 256 ^ width % 256) (m / 256 ^ width % 256)
    · exact .here (ofNat_lt_ofNat hlt (Nat.mod_lt _ (by norm_num)))
    · rw [bigEndian, bigEndian, heq]
      rw [heq] at h
      exact .there (ih (by omega))
    · have := Nat.mul_le_mul_left (256 ^ width) (Nat.succ_le_of_lt hgt)
      rw [Nat.succ_eq_add_one, Nat.mul_add, Nat.mul_one] at this
      omega

theorem digitChar_lt (h : n < m) (hm : m < 10) : n.digitChar < m.digitChar := by
  have hdigits : ∀ m < 10, ∀ n < m, n.digitChar < m.digitChar := by decide
  exact hdigits m hm n h

/-- **Decimal digits** are ordered by their number and then as text. -/
theorem lt_toDigits (h : n < m) : (Nat.toDigits 10 n).length < (Nat.toDigits 10 m).length ∨
      (Nat.toDigits 10 n).length = (Nat.toDigits 10 m).length ∧
        Below (Nat.toDigits 10 n) (Nat.toDigits 10 m) := by
  induction m using Nat.strong_induction_on generalizing n with
  | _ m ih =>
    obtain hm | hm := lt_or_ge m 10
    · right
      rw [Nat.toDigits_of_lt_base hm, Nat.toDigits_of_lt_base (h.trans hm)]
      exact ⟨rfl, .here (digitChar_lt h hm)⟩
    rw [Nat.toDigits_of_base_le (by norm_num) hm]
    obtain hn | hn := lt_or_ge n 10
    · left
      rw [Nat.toDigits_of_lt_base hn, length_append]
      have := length_pos_of_ne_nil (Nat.toDigits_ne_nil (n := m / 10) (b := 10))
      simp only [length_cons, length_nil]
      omega
    rw [Nat.toDigits_of_base_le (by norm_num) hn]
    simp only [length_append, length_cons, length_nil, Nat.add_lt_add_iff_right,
      Nat.add_right_cancel_iff]
    obtain hlt | heq := (Nat.div_le_div_right (c := 10) h.le).lt_or_eq
    · obtain hshorter | ⟨hlength, hbelow⟩ := ih (m / 10) (by omega) hlt
      · exact .inl hshorter
      · exact .inr ⟨hlength, hbelow.append _ _⟩
    · right
      have hdigit : n % 10 < m % 10 := by omega
      rw [heq]
      exact ⟨rfl, Below.append_left (.here (digitChar_lt hdigit (Nat.mod_lt m (by norm_num)))) _⟩

/-- **The decimal order.**  Length first and then text is the order of the numbers. -/
theorem lt_iff_toDigits : n < m ↔ (Nat.toDigits 10 n).length < (Nat.toDigits 10 m).length ∨
      (Nat.toDigits 10 n).length = (Nat.toDigits 10 m).length ∧
        Nat.toDigits 10 n < Nat.toDigits 10 m := by
  constructor
  · intro h
    exact (lt_toDigits h).imp_right fun ⟨hlength, hbelow⟩ => ⟨hlength, hbelow.lt⟩
  · intro h
    obtain hlt | rfl | hgt := lt_trichotomy n m
    · exact hlt
    · simp at h
    · obtain hshorter | ⟨hlength, hbelow⟩ := lt_toDigits hgt
      · omega
      · exact absurd hbelow.lt (h.resolve_left (by omega)).2.asymm

theorem toDigits_injective : Function.Injective (Nat.toDigits 10) := by
  intro n m heq
  simpa [Nat.ofDigitChars_toDigits] using congrArg (Nat.ofDigitChars 10 · 0) heq

/-! ### Text -/

theorem below_cons_ofNat {x y : List UInt8} (hle : n ≤ m) (hm : m < 256)
    (hrest : n = m → Below x y) : Below (UInt8.ofNat n :: x) (UInt8.ofNat m :: y) := by
  obtain hlt | rfl := hle.lt_or_eq
  · exact .here (ofNat_lt_ofNat hlt hm)
  · exact .there (hrest rfl)

/-- The code of a character by how many bytes it takes. A longer code has a greater first byte. -/
theorem orderCode_utf8 : OrderCode String.utf8EncodeChar := by
  intro a b hab
  have hlt : a.val.toNat < b.val.toNat := hab
  have hb : b.val.toNat < 0x110000 := by
    have := b.valid
    omega
  unfold String.utf8EncodeChar
  generalize a.val.toNat = n at hlt
  generalize b.val.toNat = m at hlt hb
  dsimp only
  split
  · split
    · exact .here (ofNat_lt_ofNat hlt (by omega))
    · split
      · exact .here (ofNat_lt_ofNat (by omega) (by omega))
      · split
        · exact .here (ofNat_lt_ofNat (by omega) (by omega))
        · exact .here (ofNat_lt_ofNat (by omega) (by omega))
  · rw [if_neg (by omega : ¬ m ≤ 127)]
    split
    · split
      · refine below_cons_ofNat (by omega) (by omega) fun hfirst => ?_
        exact .here (ofNat_lt_ofNat (by omega) (by omega))
      · split
        · exact .here (ofNat_lt_ofNat (by omega) (by omega))
        · exact .here (ofNat_lt_ofNat (by omega) (by omega))
    · rw [if_neg (by omega : ¬ m ≤ 2047)]
      split
      · split
        · refine below_cons_ofNat (by omega) (by omega) fun hfirst => ?_
          refine below_cons_ofNat (by omega) (by omega) fun hsecond => ?_
          exact .here (ofNat_lt_ofNat (by omega) (by omega))
        · exact .here (ofNat_lt_ofNat (by omega) (by omega))
      · rw [if_neg (by omega : ¬ m ≤ 65535)]
        refine below_cons_ofNat (by omega) (by omega) fun hfirst => ?_
        refine below_cons_ofNat (by omega) (by omega) fun hsecond => ?_
        refine below_cons_ofNat (by omega) (by omega) fun hthird => ?_
        exact .here (ofNat_lt_ofNat (by omega) (by omega))

theorem utf8EncodeChar_ne_nil (c : Char) : String.utf8EncodeChar c ≠ [] := by
  unfold String.utf8EncodeChar
  dsimp only
  split
  · simp
  · split
    · simp
    · split <;> simp

/-- The bytes of a text. -/
def bytes (text : String) : List UInt8 := text.toList.flatMap String.utf8EncodeChar

/-- **Texts are in the order of their bytes.** -/
theorem bytes_lt_iff {text text' : String} : bytes text < bytes text' ↔ text < text' := by
  rw [bytes, bytes, orderCode_utf8.flatMap_lt_iff utf8EncodeChar_ne_nil, String.lt_iff_toList_lt]

theorem bytes_injective : Function.Injective bytes := by
  intro text text' heq
  by_contra hne
  obtain hlt | hgt := lt_or_gt_of_ne hne
  · exact absurd heq (bytes_lt_iff.mpr hlt).ne
  · exact absurd heq (bytes_lt_iff.mpr hgt).ne'

end SmallTalk.OrderCodes
