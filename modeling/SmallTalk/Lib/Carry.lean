import Mathlib.Data.ZMod.Basic
import Mathlib.Tactic

/-!
# Lib — sums of fixed-width words

A `Word n` is `n` bytes, most significant first. Two words are added from their last bytes on, with
a carry into the last byte and the carry out of the first one lost.

* `residue_addCarry`: this is addition modulo `256 ^ n`.
* `residue_complement`: complementing every byte and carrying one in subtracts.
* `residue_inj`: a word is known by its residue.
-/

namespace SmallTalk.Carry

/-- The number that bytes write, most significant first. -/
def value : List UInt8 → ℕ
  | [] => 0
  | byte :: bytes => byte.toNat * 256 ^ bytes.length + value bytes

/-- The sum of two byte strings of one length and a carry, and the carry out of it. -/
def addBytes : List UInt8 → List UInt8 → ℕ → List UInt8 × ℕ
  | x :: xs, y :: ys, carry =>
    let rest := addBytes xs ys carry
    let sum := rest.2 + x.toNat + y.toNat
    (UInt8.ofNat sum :: rest.1, sum / 256)
  | _, _, carry => ([], carry)

theorem length_addBytes {xs ys : List UInt8} (h : xs.length = ys.length) (carry : ℕ) :
    (addBytes xs ys carry).1.length = xs.length := by
  induction xs generalizing ys with
  | nil => rfl
  | cons x xs ih =>
    cases ys with
    | nil => simp at h
    | cons y ys => simp [addBytes, ih (Nat.succ.inj h)]

/-- Nothing is lost but the carry out. -/
theorem value_addBytes {xs ys : List UInt8} (h : xs.length = ys.length) (carry : ℕ) :
    value (addBytes xs ys carry).1 + (addBytes xs ys carry).2 * 256 ^ xs.length =
      value xs + value ys + carry := by
  induction xs generalizing ys with
  | nil =>
    obtain rfl := List.length_eq_zero_iff.mp h.symm
    simp [addBytes, value]
  | cons x xs ih =>
    cases ys with
    | nil => simp at h
    | cons y ys =>
      have hlen := Nat.succ.inj h
      have hrest := ih hlen
      have hsplit := Nat.mod_add_div ((addBytes xs ys carry).2 + x.toNat + y.toNat) 256
      simp only [addBytes, value, length_addBytes hlen, List.length_cons, UInt8.toNat_ofNat',
        ← hlen]
      calc _ = (((addBytes xs ys carry).2 + x.toNat + y.toNat) % 256 +
            256 * (((addBytes xs ys carry).2 + x.toNat + y.toNat) / 256)) * 256 ^ xs.length +
            value (addBytes xs ys carry).1 := by ring
        _ = x.toNat * 256 ^ xs.length + y.toNat * 256 ^ xs.length +
            (value (addBytes xs ys carry).1 +
              (addBytes xs ys carry).2 * 256 ^ xs.length) := by rw [hsplit]; ring
        _ = _ := by rw [hrest]; ring

/-- The digits of a byte string, least significant first. -/
def digits (bytes : List UInt8) : List ℕ := bytes.reverse.map UInt8.toNat

theorem value_eq_ofDigits (bytes : List UInt8) : value bytes = Nat.ofDigits 256 (digits bytes) := by
  induction bytes with
  | nil => rfl
  | cons byte bytes ih =>
    simp only [value, ih, digits, List.reverse_cons, List.map_append, List.map_cons, List.map_nil,
      Nat.ofDigits_append, Nat.ofDigits_singleton, List.length_map, List.length_reverse]
    ring

theorem lt_of_mem_digits {bytes : List UInt8} {d : ℕ} (h : d ∈ digits bytes) : d < 256 := by
  obtain ⟨byte, -, rfl⟩ := List.mem_map.mp h
  exact byte.toNat_lt

theorem value_lt (bytes : List UInt8) : value bytes < 256 ^ bytes.length := by
  rw [value_eq_ofDigits]
  simpa [digits] using Nat.ofDigits_lt_base_pow_length (b := 256) (by norm_num)
    fun d (hd : d ∈ digits bytes) => lt_of_mem_digits hd

theorem value_inj {xs ys : List UInt8} (hlen : xs.length = ys.length) (h : value xs = value ys) :
    xs = ys := by
  rw [value_eq_ofDigits, value_eq_ofDigits] at h
  have heq := Nat.ofDigits_inj_of_len_eq (by norm_num) (by simp [digits, hlen])
    (fun _ => lt_of_mem_digits) (fun _ => lt_of_mem_digits) h
  exact List.reverse_injective (List.map_injective_iff.mpr (fun _ _ => UInt8.toNat_inj.mp) heq)

theorem value_complement (bytes : List UInt8) :
    value (bytes.map (~~~·)) + value bytes + 1 = 256 ^ bytes.length := by
  induction bytes with
  | nil => rfl
  | cons byte bytes ih =>
    have hbyte : (~~~byte).toNat + byte.toNat = 255 := by
      have hlt : byte.toNat < 256 := byte.toNat_lt
      have hnot : (~~~byte).toNat = 255 - byte.toNat := by simp [UInt8.toNat_not]
      omega
    calc value ((byte :: bytes).map (~~~·)) + value (byte :: bytes) + 1
        = ((~~~byte).toNat + byte.toNat) * 256 ^ bytes.length +
            (value (bytes.map (~~~·)) + value bytes + 1) := by
          simp only [List.map_cons, value, List.length_map]; ring
      _ = 256 ^ (byte :: bytes).length := by
          rw [hbyte, ih, List.length_cons, pow_succ]; ring

/-- A number of `n` bytes. -/
@[ext]
structure Word (n : ℕ) where
  bytes : List UInt8
  length_eq : bytes.length = n
  deriving DecidableEq

namespace Word

variable {n : ℕ} {x y : Word n}

/-- The word of no bits. -/
def zero : Word n := ⟨List.replicate n 0, List.length_replicate⟩

/-- The sum of two words and a carry into their last byte, less the carry out of the first. -/
def addCarry (x y : Word n) (carry : ℕ) : Word n :=
  ⟨(addBytes x.bytes y.bytes carry).1,
    (length_addBytes (x.length_eq.trans y.length_eq.symm) carry).trans x.length_eq⟩

def complement (x : Word n) : Word n :=
  ⟨x.bytes.map (~~~·), (List.length_map _).trans x.length_eq⟩

/-- What a word stands for. -/
def residue (x : Word n) : ZMod (256 ^ n) := value x.bytes

@[simp] theorem residue_zero : (zero : Word n).residue = 0 := by
  have hzero : ∀ n, value (List.replicate n 0) = 0 := by
    intro n
    induction n with
    | zero => rfl
    | succ n ih => simp [List.replicate_succ, value, ih]
  simp [residue, zero, hzero]

theorem residue_addCarry (x y : Word n) (carry : ℕ) :
    (x.addCarry y carry).residue = x.residue + y.residue + carry := by
  have hvalue := value_addBytes (x.length_eq.trans y.length_eq.symm) carry
  have hcast := congrArg (fun m : ℕ => (m : ZMod (256 ^ n))) hvalue
  have hwidth : ((256 ^ n : ℕ) : ZMod (256 ^ n)) = 0 := ZMod.natCast_self _
  simpa only [x.length_eq, Nat.cast_add, Nat.cast_mul, hwidth, mul_zero, add_zero, residue,
    addCarry] using hcast

theorem residue_complement (x : Word n) : x.complement.residue = -x.residue - 1 := by
  have hcast := congrArg (fun m : ℕ => (m : ZMod (256 ^ n))) (value_complement x.bytes)
  rw [x.length_eq] at hcast
  have hsum : x.complement.residue + x.residue + 1 = 0 := by
    simpa [residue, complement] using hcast.trans (ZMod.natCast_self (256 ^ n))
  linear_combination hsum

/-- The bytes of a word write the least number of its residue. -/
theorem value_eq_emod {m : ℤ} (h : x.residue = m) : (value x.bytes : ℤ) = m % (256 ^ n : ℕ) := by
  have hlt := value_lt x.bytes
  rw [x.length_eq] at hlt
  have hmod : (value x.bytes : ℤ) ≡ m [ZMOD (256 ^ n : ℕ)] := by
    rw [← ZMod.intCast_eq_intCast_iff, Int.cast_natCast]
    exact h
  exact (Int.emod_eq_of_lt (Int.natCast_nonneg _) (Int.ofNat_lt.mpr hlt)).symm.trans hmod

theorem residue_inj (h : x.residue = y.residue) : x = y := by
  have hy : y.residue = (value y.bytes : ℤ) := (Int.cast_natCast _).symm
  have hvalue := (value_eq_emod (h.trans hy)).trans (value_eq_emod hy).symm
  exact Word.ext (value_inj (x.length_eq.trans y.length_eq.symm) (Int.ofNat_inj.mp hvalue))

end Word

end SmallTalk.Carry
