import SmallTalk.Checkpoint.Store
import SmallTalk.Lib.OrderCodes

/-!
# Canonical — the keys of the claim order

Claims are folded in one order: accepted time, writer, sequence, batch, position, id. It is used in
three forms: as the order of key tuples, as the byte order of an encoding (`sortableKey`), and as an
order of SQL columns, where the time is a decimal text that is compared by its length first
(`orderSql`, `afterSql`).

* `sortableKey_lt_iff`, `sortableKey_injective`: the encoding keeps the order and separates keys.
* `components_lt_iff`: so do the columns.
-/

namespace SmallTalk.Canonical

open OrderCodes Checkpoint

/-- `ClaimKey`, a tuple of machine numbers and texts. -/
structure ClaimKey where
  time : Fin (2 ^ 128)
  writer : String
  sequence : Fin (2 ^ 64)
  batch : String
  position : Fin (2 ^ 64)
  id : String
deriving DecidableEq

namespace ClaimKey

/-- The key in the canonical order. -/
def canonical (key : ClaimKey) : Tables.CanonicalKey :=
  toLex (key.time, toLex (key.writer, toLex (key.sequence, toLex (key.batch,
    toLex (key.position, key.id)))))

theorem canonical_injective : Function.Injective canonical := by
  rintro ⟨time, writer, sequence, batch, position, id⟩ ⟨time', writer', sequence', batch', position',
    id'⟩ heq
  simp only [canonical, toLex_inj, Prod.mk.injEq, Fin.val_inj] at heq
  obtain ⟨rfl, rfl, rfl, rfl, rfl, rfl⟩ := heq
  rfl

end ClaimKey

/-! ### The encoding -/

/-- A zero byte is followed by 255, so that it stays above the terminator. -/
def escape (byte : UInt8) : List UInt8 := if byte = 0 then [byte, 255] else [byte]

/-- `string` of `sortable_key`. -/
def stringKey (value : String) : List UInt8 := (bytes value).flatMap escape ++ [0, 0]

def sortableKey (key : ClaimKey) : List UInt8 :=
  bigEndian 16 key.time ++ (stringKey key.writer ++ (bigEndian 8 key.sequence ++
    (stringKey key.batch ++ (bigEndian 8 key.position ++ stringKey key.id))))

theorem orderCode_escape : OrderCode escape := by
  intro a b hab
  have hb : b ≠ 0 := by
    rintro rfl
    exact absurd hab UInt8.not_lt_zero
  rw [escape, escape, if_neg hb]
  split
  · exact .here hab
  · exact .here hab

theorem below_escape (byte : UInt8) : Below [0, 0] (escape byte) := by
  unfold escape
  split
  · rename_i hzero
    subst hzero
    exact .there (.here (by decide))
  · rename_i hzero
    exact .here (UInt8.pos_iff_ne_zero.mpr hzero)

theorem orderCode_stringKey : OrderCode stringKey := by
  have hcode : OrderCode fun c => (String.utf8EncodeChar c).flatMap escape :=
    orderCode_utf8.flatMap orderCode_escape
  have hend : ∀ c, Below [0, 0] ((String.utf8EncodeChar c).flatMap escape) := by
    intro c
    cases hbytes : String.utf8EncodeChar c with
    | nil => exact absurd hbytes (utf8EncodeChar_ne_nil c)
    | cons byte rest =>
      rw [List.flatMap_cons]
      exact (below_escape byte).append [] (rest.flatMap escape)
  intro value value' hlt
  rw [stringKey, stringKey, bytes, bytes, List.flatMap_assoc, List.flatMap_assoc]
  exact hcode.terminated hend (String.lt_iff_toList_lt.mp hlt)

theorem below_bigEndian_of_lt {width n m : ℕ} (hm : m < 256 ^ width) (h : n < m) :
    Below (bigEndian width n) (bigEndian width m) :=
  below_bigEndian (by rwa [Nat.mod_eq_of_lt hm, Nat.mod_eq_of_lt (h.trans hm)])

/-- **The encoding keeps the canonical order**, component by component. -/
theorem below_sortableKey {key key' : ClaimKey} (h : key.canonical < key'.canonical) :
    Below (sortableKey key) (sortableKey key') := by
  refine Below.lex h (below_bigEndian_of_lt (key'.time.isLt.trans_eq (by norm_num)))
    (fun hsame => by rw [hsame]) fun h => ?_
  refine Below.lex h (fun hlt => orderCode_stringKey hlt) (fun hsame => by rw [hsame]) fun h => ?_
  refine Below.lex h (below_bigEndian_of_lt (key'.sequence.isLt.trans_eq (by norm_num)))
    (fun hsame => by rw [hsame]) fun h => ?_
  refine Below.lex h (fun hlt => orderCode_stringKey hlt) (fun hsame => by rw [hsame]) fun h => ?_
  exact Below.lex h (below_bigEndian_of_lt (key'.position.isLt.trans_eq (by norm_num)))
    (fun hsame => by rw [hsame]) fun hlt => orderCode_stringKey hlt

theorem sortableKey_lt_iff {key key' : ClaimKey} :
    sortableKey key < sortableKey key' ↔ key.canonical < key'.canonical := by
  refine ⟨fun hlt => ?_, fun hlt => (below_sortableKey hlt).lt⟩
  obtain h | heq | h := lt_trichotomy key.canonical key'.canonical
  · exact h
  · rw [ClaimKey.canonical_injective heq] at hlt
    exact absurd hlt (lt_irrefl _)
  · exact absurd hlt (below_sortableKey h).lt.asymm

theorem sortableKey_injective : Function.Injective sortableKey := by
  intro key key' heq
  by_contra hne
  obtain hlt | hgt := lt_or_gt_of_ne (ClaimKey.canonical_injective.ne hne)
  · exact absurd heq (below_sortableKey hlt).lt.ne
  · exact absurd heq (below_sortableKey hgt).lt.ne'

/-! ### The columns -/

/-- A value of a column. Numbers come before texts, and texts are compared by their bytes. -/
inductive SqlValue where
  | integer (n : ℕ)
  | text (bytes : List UInt8)
deriving DecidableEq

def SqlValue.less : SqlValue → SqlValue → Bool
  | integer n, integer m => n < m
  | integer _, text _ => true
  | text _, integer _ => false
  | text x, text y => x < y

/-- `components`: the accepted time is stored as a decimal text. -/
def components (key : ClaimKey) : List SqlValue :=
  [.integer (Nat.repr key.time).length, .text (bytes (Nat.repr key.time)), .text (bytes key.writer),
    .integer key.sequence, .text (bytes key.batch), .integer key.position, .text (bytes key.id)]

/-- `ORDER BY` the components, each of them `DESC` or not. -/
def orderSql (descending : Bool) (left right : ClaimKey) : Prop :=
  List.Lex (fun x y => if descending then SqlValue.less y x else SqlValue.less x y)
    (components left) (components right)

/-- The row of the left components is greater than that of the right ones. -/
def afterSql (left right : ClaimKey) : Prop :=
  List.Lex (fun x y => SqlValue.less x y) (components right) (components left)

theorem lex_flip {α : Type} {r : α → α → Prop} {l l' : List α} (h : l.length = l'.length) :
    List.Lex (fun x y => r y x) l l' ↔ List.Lex r l' l := by
  induction l generalizing l' with
  | nil =>
    cases l' with
    | nil => simp
    | cons b l' => simp at h
  | cons a l ih =>
    cases l' with
    | nil => simp at h
    | cons b l' =>
      rw [List.cons_lex_cons_iff, List.cons_lex_cons_iff, ih (by simpa using h), eq_comm]

/-- The decimal text of a number, with its length, stands for the number. -/
theorem time_columns {n m : ℕ} {rest : Prop} :
    ((Nat.repr n).length < (Nat.repr m).length ∨ (Nat.repr n).length = (Nat.repr m).length ∧
      (Nat.repr n < Nat.repr m ∨ Nat.repr n = Nat.repr m ∧ rest)) ↔ n < m ∨ n = m ∧ rest := by
  have hlength : ∀ n, (Nat.repr n).length = (Nat.toDigits 10 n).length := fun n => by
    rw [← String.length_toList, Nat.toList_repr]
  have hequal : Nat.repr n = Nat.repr m ↔ n = m := by
    refine ⟨fun h => ?_, fun h => by rw [h]⟩
    exact toDigits_injective (by rw [← Nat.toList_repr, h, Nat.toList_repr])
  rw [hlength, hlength, String.lt_iff_toList_lt, Nat.toList_repr, Nat.toList_repr, hequal,
    lt_iff_toDigits (n := n) (m := m)]
  constructor
  · rintro (hshorter | ⟨hsame, hbelow | ⟨rfl, hrest⟩⟩)
    · exact .inl (.inl hshorter)
    · exact .inl (.inr ⟨hsame, hbelow⟩)
    · exact .inr ⟨rfl, hrest⟩
  · rintro ((hshorter | ⟨hsame, hbelow⟩) | ⟨rfl, hrest⟩)
    · exact .inl hshorter
    · exact .inr ⟨hsame, .inl hbelow⟩
    · exact .inr ⟨rfl, .inr ⟨rfl, hrest⟩⟩

/-- **The columns are in the canonical order.** -/
theorem components_lt_iff {key key' : ClaimKey} :
    List.Lex (fun x y => SqlValue.less x y) (components key) (components key') ↔
      key.canonical < key'.canonical := by
  simp only [components, List.cons_lex_cons_iff, List.not_lex_nil, SqlValue.less, decide_eq_true_eq,
    SqlValue.integer.injEq, SqlValue.text.injEq, bytes_lt_iff, bytes_injective.eq_iff,
    and_false, or_false, ClaimKey.canonical, Prod.Lex.toLex_lt_toLex, time_columns]

/-- **One order in three forms.**  The bytes of the encodings, the ascending and descending columns
and the row comparison all give the canonical order, and the encoding separates keys. -/
theorem canonical_forms (key key' : ClaimKey) :
    (sortableKey key < sortableKey key' ↔ key.canonical < key'.canonical) ∧
    (sortableKey key = sortableKey key' ↔ key = key') ∧
    (orderSql false key key' ↔ key.canonical < key'.canonical) ∧
    (orderSql true key key' ↔ key'.canonical < key.canonical) ∧
    (afterSql key key' ↔ key'.canonical < key.canonical) := by
  refine ⟨sortableKey_lt_iff, sortableKey_injective.eq_iff, components_lt_iff, ?_,
    components_lt_iff⟩
  rw [← components_lt_iff]
  exact lex_flip rfl

end SmallTalk.Canonical
