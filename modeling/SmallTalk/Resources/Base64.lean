import Mathlib.Data.BitVec
import Mathlib.Data.List.GetD
import Mathlib.Tactic.IntervalCases
import SmallTalk.Lib.Fallible

/-!
# Resources — the wire text of a snapshot

A snapshot travels as padded base64. A text is its bytes: what is accepted is ASCII.

* `packed_iff`: three bytes and four values below 64 are the same bits.
* `decodeChunks_encode`, `encode_of_decodeChunks`: the two loops, a chunk at a time.
* `decodeBase64_eq_ok_iff`: exactly the texts of snapshots are accepted.
-/

namespace SmallTalk.Resources

open List Fallible

abbrev Byte := BitVec 8

def maxSnapshotBytes : ℕ := 1024 * 1024

/-! ### Encoding -/

def alphabet : List Byte :=
  "ABCDEFGHIJKLMNOPQRSTUVWXYZabcdefghijklmnopqrstuvwxyz0123456789+/".toList.map fun c =>
    BitVec.ofNat 8 c.toNat

def symbol (value : Byte) : Byte := alphabet.getD value.toNat 0#8

/-- `=` -/
def pad : Byte := 61#8

/-- A chunk of `len` bytes, the missing ones zero. -/
def encodeChunk (first second third : Byte) (len : ℕ) : List Byte :=
  [symbol (first >>> 2), symbol ((first &&& 0x03#8) <<< 4 ||| second >>> 4),
    if 1 < len then symbol ((second &&& 0x0f#8) <<< 2 ||| third >>> 6) else pad,
    if 2 < len then symbol (third &&& 0x3f#8) else pad]

def encodeBase64 : List Byte → List Byte
  | [] => []
  | [first] => encodeChunk first 0#8 0#8 1
  | [first, second] => encodeChunk first second 0#8 2
  | first :: second :: third :: rest => encodeChunk first second third 3 ++ encodeBase64 rest

/-! ### Decoding -/

def value (byte : Byte) : Except String Byte :=
  if 65 ≤ byte ∧ byte ≤ 90 then .ok (byte - 65)
  else if 97 ≤ byte ∧ byte ≤ 122 then .ok (byte - 97 + 26)
  else if 48 ≤ byte ∧ byte ≤ 57 then .ok (byte - 48 + 52)
  else if byte = 43 then .ok 62
  else if byte = 47 then .ok 63
  else .error "base64 contains an invalid character"

/-- The chunks of four; padding stands in the last one. -/
def decodeChunks : List Byte → Except String (List Byte)
  | first :: second :: third :: fourth :: rest => do
      let a ← value first
      let b ← value second
      if third = pad ∧ fourth = pad ∧ rest = [] then
        if b &&& 0x0f#8 ≠ 0#8 then .error "base64 has non-canonical trailing bits"
        else .ok [a <<< 2 ||| b >>> 4]
      else if fourth = pad ∧ rest = [] then
        let c ← value third
        if c &&& 0x03#8 ≠ 0#8 then .error "base64 has non-canonical trailing bits"
        else .ok [a <<< 2 ||| b >>> 4, b <<< 4 ||| c >>> 2]
      else if third = pad then .error "base64 padding is misplaced"
      else
        let c ← value third
        let d ← value fourth
        let decoded ← decodeChunks rest
        .ok ((a <<< 2 ||| b >>> 4) :: (b <<< 4 ||| c >>> 2) :: (c <<< 6 ||| d) :: decoded)
  | _ => .ok []

def padding (text : List Byte) : ℕ :=
  (if text.getD (text.length - 1) 0#8 = pad then 1 else 0) +
    if text.getD (text.length - 2) 0#8 = pad then 1 else 0

def decodeBase64 (text : List Byte) : Except String (List Byte) :=
  if ¬ 4 ∣ text.length then .error "base64 length is not a multiple of four"
  else if (maxSnapshotBytes + 2) / 3 * 4 < text.length then
    .error "decoded snapshot exceeds the size limit"
  else if text = [] then .ok []
  else if maxSnapshotBytes < text.length / 4 * 3 - padding text then
    .error "decoded snapshot exceeds the size limit"
  else decodeChunks text

/-! ### One chunk -/

variable {a b c d first second third byte : Byte} {text bytes : List Byte}

theorem symbol_ne_pad : ∀ v < 64#8, symbol v ≠ pad := by decide +kernel

theorem value_eq_ok : value byte = .ok a ↔ a < 64#8 ∧ symbol a = byte := by
  have hsymbol : ∀ a < 64#8, (value (symbol a)).toOption = some a := by decide +kernel
  have hvalue : ∀ byte : Byte, (value byte).toOption.all fun a => a < 64#8 ∧ symbol a = byte := by
    decide +kernel
  constructor
  · intro h
    simpa [h, Except.toOption] using hvalue byte
  · rintro ⟨ha, rfl⟩
    have h := hsymbol a ha
    cases hv : value (symbol a) <;> simp_all [Except.toOption]

theorem lt_iff : ∀ v : Byte, v < 64#8 ↔ v[6] = false ∧ v[7] = false := by decide +kernel

/-- Four values below 64 have the bits of three bytes. -/
def Packed (a b c d first second third : Byte) : Prop :=
  (a < 64#8 ∧ b < 64#8 ∧ c < 64#8 ∧ d < 64#8) ∧ a <<< 2 ||| b >>> 4 = first ∧
    b <<< 4 ||| c >>> 2 = second ∧ c <<< 6 ||| d = third

theorem packed_iff : Packed a b c d first second third ↔
    first >>> 2 = a ∧ (first &&& 0x03#8) <<< 4 ||| second >>> 4 = b ∧
      (second &&& 0x0f#8) <<< 2 ||| third >>> 6 = c ∧ third &&& 0x3f#8 = d := by
  simp only [Packed, lt_iff]
  constructor
  · rintro ⟨h, rfl, rfl, rfl⟩
    refine ⟨?_, ?_, ?_, ?_⟩ <;> ext i hi <;> interval_cases i <;> simp_all
  · rintro ⟨rfl, rfl, rfl, rfl⟩
    refine ⟨?_, ?_, ?_, ?_⟩
    · simp
    all_goals
      ext i hi
      interval_cases i <;> simp_all

theorem exists_packed (first second third : Byte) :
    ∃ a b c d, Packed a b c d first second third :=
  ⟨_, _, _, _, packed_iff.mpr ⟨rfl, rfl, rfl, rfl⟩⟩

theorem encodeChunk_eq (h : Packed a b c d first second third) (len : ℕ) :
    encodeChunk first second third len =
      [symbol a, symbol b, if 1 < len then symbol c else pad,
        if 2 < len then symbol d else pad] := by
  obtain ⟨rfl, rfl, rfl, rfl⟩ := packed_iff.mp h
  rfl

/-- The bits of a chunk that its last byte leaves unused. -/
theorem trailing_bits : ∀ v : Byte, (v &&& 0x0f#8 = 0#8 ↔ v <<< 4 = 0#8) ∧
    (v &&& 0x03#8 = 0#8 ↔ v <<< 6 = 0#8) := by
  decide +kernel

/-! ### The loops -/

theorem decodeChunks_encode (bytes : List Byte) : decodeChunks (encodeBase64 bytes) = .ok bytes := by
  fun_induction encodeBase64 bytes with
  | case1 => rfl
  | case2 first =>
    obtain ⟨a, b, c, d, h⟩ := exists_packed first 0#8 0#8
    rw [encodeChunk_eq h]
    obtain ⟨⟨ha, hb, -, -⟩, h₁, h₂, -⟩ := h
    have hzero := (trailing_bits b).1.mpr (BitVec.or_eq_zero_iff.mp h₂).1
    simp only [decodeChunks, bind_eq_ok, value_eq_ok]
    exact ⟨a, ⟨ha, rfl⟩, b, ⟨hb, rfl⟩, by simp [hzero, h₁]⟩
  | case3 first second =>
    obtain ⟨a, b, c, d, h⟩ := exists_packed first second 0#8
    rw [encodeChunk_eq h]
    obtain ⟨⟨ha, hb, hc, -⟩, h₁, h₂, h₃⟩ := h
    have hzero := (trailing_bits c).2.mpr (BitVec.or_eq_zero_iff.mp h₃).1
    simp only [decodeChunks, bind_eq_ok, value_eq_ok]
    refine ⟨a, ⟨ha, rfl⟩, b, ⟨hb, rfl⟩, ?_⟩
    rw [if_neg fun h => symbol_ne_pad c hc h.1, if_pos (by simp)]
    exact bind_eq_ok.mpr ⟨c, value_eq_ok.mpr ⟨hc, rfl⟩, by simp [hzero, h₁, h₂]⟩
  | case4 first second third rest ih =>
    obtain ⟨a, b, c, d, h⟩ := exists_packed first second third
    rw [encodeChunk_eq h]
    obtain ⟨⟨ha, hb, hc, hd⟩, h₁, h₂, h₃⟩ := h
    simp only [Nat.reduceLT, if_true, cons_append, nil_append, decodeChunks, bind_eq_ok,
      value_eq_ok]
    refine ⟨a, ⟨ha, rfl⟩, b, ⟨hb, rfl⟩, ?_⟩
    rw [if_neg fun h => symbol_ne_pad c hc h.1, if_neg fun h => symbol_ne_pad d hd h.1,
      if_neg (symbol_ne_pad c hc)]
    simp only [bind_eq_ok, value_eq_ok]
    exact ⟨c, ⟨hc, rfl⟩, d, ⟨hd, rfl⟩, rest, ih, by rw [h₁, h₂, h₃]⟩

theorem encode_of_decodeChunks (hlen : 4 ∣ text.length) (h : decodeChunks text = .ok bytes) :
    encodeBase64 bytes = text := by
  fun_induction decodeChunks text generalizing bytes with
  | case1 w x y z rest ih =>
    simp only [bind_eq_ok, value_eq_ok] at h
    obtain ⟨a, ⟨ha, rfl⟩, b, ⟨hb, rfl⟩, h⟩ := h
    split_ifs at h with hone hzero htwo hpad
    · obtain ⟨rfl, rfl, rfl⟩ := hone
      cases h
      have hrest : b <<< 4 ||| 0#8 >>> 2 = 0#8 := by
        simp [(trailing_bits b).1.mp (not_not.mp hzero)]
      exact encodeChunk_eq (c := 0#8) (d := 0#8) ⟨⟨ha, hb, by decide, by decide⟩, rfl, hrest, rfl⟩ 1
    · obtain ⟨rfl, rfl⟩ := htwo
      simp only [bind_eq_ok, value_eq_ok] at h
      obtain ⟨c, ⟨hc, rfl⟩, h⟩ := h
      split_ifs at h with hzero
      cases h
      have hrest : c <<< 6 ||| 0#8 = 0#8 := by simp [(trailing_bits c).2.mp (not_not.mp hzero)]
      exact encodeChunk_eq (d := 0#8) ⟨⟨ha, hb, hc, by decide⟩, rfl, rfl, hrest⟩ 2
    · simp only [bind_eq_ok, value_eq_ok] at h
      obtain ⟨c, ⟨hc, rfl⟩, d, ⟨hd, rfl⟩, decoded, hdecoded, h⟩ := h
      cases h
      rw [encodeBase64, encodeChunk_eq ⟨⟨ha, hb, hc, hd⟩, rfl, rfl, rfl⟩,
        ih (by simpa using hlen) hdecoded]
      rfl
  | case2 text hshort =>
    cases h
    match text, hlen with
    | [], _ => rfl
    | [_], h | [_, _], h | [_, _, _], h => simp at h
    | w :: x :: y :: z :: rest, _ => exact (hshort w x y z rest rfl).elim

/-! ### Lengths -/

theorem length_encode (bytes : List Byte) :
    (encodeBase64 bytes).length = (bytes.length + 2) / 3 * 4 := by
  fun_induction encodeBase64 bytes with
  | case1 | case2 | case3 => simp [encodeChunk]
  | case4 first second third rest ih =>
    rw [length_append, ih]
    simp only [encodeChunk, length_cons, length_nil]
    omega

theorem padding_append {front text : List Byte} (h : 2 ≤ text.length) :
    padding (front ++ text) = padding text := by
  have hindex : ∀ k ≤ 2, front.length + text.length - k - front.length = text.length - k := by
    omega
  rw [padding, length_append, getD_append_right _ _ _ _ (by omega),
    getD_append_right _ _ _ _ (by omega), hindex 1 (by omega), hindex 2 le_rfl, padding]

/-- A text tells how long its snapshot is. -/
theorem padding_encode (hne : bytes ≠ []) :
    padding (encodeBase64 bytes) + bytes.length = (encodeBase64 bytes).length / 4 * 3 := by
  fun_induction encodeBase64 bytes with
  | case1 => exact absurd rfl hne
  | case2 first => simp [padding, encodeChunk]
  | case3 first second =>
    obtain ⟨a, b, c, d, h⟩ := exists_packed first second 0#8
    simp [encodeChunk_eq h, padding, symbol_ne_pad c h.1.2.2.1]
  | case4 first second third rest ih =>
    by_cases hrest : rest = []
    · obtain ⟨a, b, c, d, h⟩ := exists_packed first second third
      simp [hrest, encodeBase64, encodeChunk_eq h, padding, symbol_ne_pad c h.1.2.2.1,
        symbol_ne_pad d h.1.2.2.2]
    · have hlen := length_encode rest
      have hpos := length_pos_iff.mpr hrest
      rw [padding_append (by omega), length_append]
      have := ih hrest
      simp only [encodeChunk, length_cons, length_nil]
      omega

/-- **Texts and snapshots.**  The texts accepted are exactly those of the snapshots within the limit,
each of one snapshot. -/
theorem decodeBase64_eq_ok_iff (text bytes : List Byte) : decodeBase64 text = .ok bytes ↔
    bytes.length ≤ maxSnapshotBytes ∧ encodeBase64 bytes = text := by
  have hpadding : bytes ≠ [] → _ := padding_encode
  have hlen := length_encode bytes
  have hmax : maxSnapshotBytes = 1048576 := rfl
  unfold decodeBase64
  constructor
  · intro h
    split_ifs at h with hfour hlong hempty hlimit
    · cases h
      exact ⟨Nat.zero_le _, hempty.symm⟩
    · obtain rfl := encode_of_decodeChunks hfour h
      refine ⟨?_, rfl⟩
      have := hpadding (by rintro rfl; exact hempty rfl)
      omega
  · rintro ⟨hle, rfl⟩
    rw [if_neg (by omega), if_neg (by omega)]
    by_cases hne : bytes = []
    · subst hne
      rfl
    · have hsaid := hpadding hne
      have hpos := length_pos_iff.mpr hne
      rw [if_neg (length_pos_iff.mp (by omega)), if_neg (by omega)]
      exact decodeChunks_encode bytes

end SmallTalk.Resources
