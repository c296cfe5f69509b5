import LcmBus.Lib.Split
import LcmBus.Lib.Decimal

/-!
# The values in a bus address

`FromStr` and `Display` of the types that a URL has as text: the integers and `Ipv4Addr`, as `core`
has them, and what is asked of `f64`.

* `unsigned`, `i64FromStr`, `Ipv4Addr.fromStr`: what a text is read as, and `none` where `core` gives
  an error;
* `F64`: the rates of a replay, which are not modelled; `F64.Lawful` is what `core` documents of them.
-/

namespace LcmBus

/-- `from_str` of an unsigned integer below `size`: digits, after the sign that may stand first. -/
def unsigned (size : ℕ) (text : List Char) : Option ℕ :=
  (Decimal.value ((text.dropPrefix? ['+']).getD text)).filter (· < size)

def u8FromStr (text : List Char) : Option UInt8 := (unsigned UInt8.size text).map UInt8.ofNat

def u16FromStr (text : List Char) : Option UInt16 := (unsigned UInt16.size text).map UInt16.ofNat

/-- A `usize` has 64 bits. -/
def usizeFromStr (text : List Char) : Option UInt64 := (unsigned UInt64.size text).map UInt64.ofNat

/-- `from_str` of an `i64`, which may have the other sign as well. -/
def i64FromStr (text : List Char) : Option Int64 :=
  match text.dropPrefix? ['-'] with
  | some digits => ((Decimal.value digits).filter (· ≤ 2 ^ 63)).map fun (n : ℕ) => Int64.ofInt (-n)
  | none => (unsigned (2 ^ 63) text).map fun (n : ℕ) => Int64.ofInt n

/-- `Display` of an `i64`. -/
def i64Display (v : Int64) : List Char :=
  if v.toInt < 0 then '-' :: Nat.toDigits 10 v.toInt.natAbs else Nat.toDigits 10 v.toInt.natAbs

section Integers

theorem dropPrefix?_of_not_mem {c : Char} {text : List Char} (h : c ∉ text) :
    text.dropPrefix? [c] = none := by
  refine Option.eq_none_iff_forall_not_mem.2 fun rest hrest => h ?_
  obtain ⟨c', htext, hc⟩ := List.dropPrefix?_eq_some_iff.1 hrest
  obtain rfl : c' = [c] := by simpa using hc
  exact htext ▸ List.mem_cons_self

theorem unsigned_toDigits {size n : ℕ} (h : n < size) : unsigned size (Nat.toDigits 10 n) = some n := by
  rw [unsigned, dropPrefix?_of_not_mem (Decimal.not_mem_toDigits (by decide) n), Option.getD_none,
    Decimal.value_toDigits, Option.filter_some, if_pos (decide_eq_true h)]

@[simp] theorem u8FromStr_toDigits (v : UInt8) : u8FromStr (Nat.toDigits 10 v.toNat) = some v := by
  rw [u8FromStr, unsigned_toDigits v.toNat_lt, Option.map_some, UInt8.ofNat_toNat]

@[simp] theorem u16FromStr_toDigits (v : UInt16) : u16FromStr (Nat.toDigits 10 v.toNat) = some v := by
  rw [u16FromStr, unsigned_toDigits v.toNat_lt, Option.map_some, UInt16.ofNat_toNat]

@[simp] theorem usizeFromStr_toDigits (v : UInt64) :
    usizeFromStr (Nat.toDigits 10 v.toNat) = some v := by
  rw [usizeFromStr, unsigned_toDigits v.toNat_lt, Option.map_some, UInt64.ofNat_toNat]

@[simp] theorem i64FromStr_display (v : Int64) : i64FromStr (i64Display v) = some v := by
  have hle : -2 ^ 63 ≤ v.toInt := v.le_toInt
  have hlt : v.toInt < 2 ^ 63 := v.toInt_lt
  unfold i64Display
  split_ifs with hneg
  · have habs : (v.toInt.natAbs : ℤ) = -v.toInt := by omega
    have hroom : v.toInt.natAbs ≤ 2 ^ 63 := by omega
    simpa [i64FromStr, List.dropPrefix?, habs] using hroom
  · have habs : (v.toInt.natAbs : ℤ) = v.toInt := by omega
    rw [i64FromStr, dropPrefix?_of_not_mem (Decimal.not_mem_toDigits (by decide) _),
      unsigned_toDigits (by omega), Option.map_some, habs, Int64.ofInt_toInt]

theorem not_mem_i64Display {c : Char} (h : c.isDigit = false) (hneg : c ≠ '-') (v : Int64) :
    c ∉ i64Display v := by
  unfold i64Display
  split_ifs
  · simpa [hneg] using Decimal.not_mem_toDigits h _
  · exact Decimal.not_mem_toDigits h _

end Integers

structure Ipv4Addr where
  a : UInt8
  b : UInt8
  c : UInt8
  d : UInt8
  deriving DecidableEq, Repr

namespace Ipv4Addr

/-- One of the four numbers: at most three digits, and no zero before others. -/
def octet (text : List Char) : Option UInt8 :=
  if text.length ≤ 3 ∧ (text.head? = some '0' → text.length = 1) then
    ((Decimal.value text).filter (· < UInt8.size)).map UInt8.ofNat
  else none

def fromStr (text : List Char) : Option Ipv4Addr :=
  match text.splitOn '.' with
  | [a, b, c, d] => do return ⟨← octet a, ← octet b, ← octet c, ← octet d⟩
  | _ => none

def display (address : Ipv4Addr) : List Char :=
  Nat.toDigits 10 address.a.toNat ++ '.' :: Nat.toDigits 10 address.b.toNat ++
    '.' :: Nat.toDigits 10 address.c.toNat ++ '.' :: Nat.toDigits 10 address.d.toNat

/-- `224.0.0.0/4`. -/
def isMulticast (address : Ipv4Addr) : Bool := 224 ≤ address.a ∧ address.a ≤ 239

@[simp] theorem octet_toDigits (v : UInt8) : octet (Nat.toDigits 10 v.toNat) = some v := by
  have hlt : v.toNat < 256 := v.toNat_lt
  have hlength : (Nat.toDigits 10 v.toNat).length ≤ 3 :=
    (Nat.length_toDigits_le_iff (by omega) (by omega)).2 (by omega)
  have hzero (h : (Nat.toDigits 10 v.toNat).head? = some '0') :
      (Nat.toDigits 10 v.toNat).length = 1 := by
    rw [Decimal.head_toDigits h]
    rfl
  rw [octet, if_pos ⟨hlength, hzero⟩, Decimal.value_toDigits, Option.filter_some,
    if_pos (decide_eq_true hlt), Option.map_some, UInt8.ofNat_toNat]

@[simp] theorem fromStr_display (address : Ipv4Addr) : fromStr address.display = some address := by
  have hdot (v : UInt8) : '.' ∉ Nat.toDigits 10 v.toNat := Decimal.not_mem_toDigits (by decide) _
  have hafter : ∀ text ∈ [Nat.toDigits 10 address.b.toNat, Nat.toDigits 10 address.c.toNat,
      Nat.toDigits 10 address.d.toNat], '.' ∉ text := by simp [hdot]
  have hsplit : address.display.splitOn '.' = Nat.toDigits 10 address.a.toNat ::
      [Nat.toDigits 10 address.b.toNat, Nat.toDigits 10 address.c.toNat,
        Nat.toDigits 10 address.d.toNat] := by
    rw [← Split.splitOn_pieces (hdot address.a) hafter]
    simp [display]
  rw [fromStr, hsplit]
  simp

theorem not_mem_display {c : Char} (h : c.isDigit = false) (hdot : c ≠ '.') (address : Ipv4Addr) :
    c ∉ address.display := by
  simp [display, hdot, Decimal.not_mem_toDigits h]

end Ipv4Addr

/-- What is asked of an `f64`. -/
structure F64 (F : Type) where
  fromStr : List Char → Option F
  display : F → List Char
  isNan : F → Bool
  isSignNegative : F → Bool
  /-- The comparison with `0.0`. -/
  isZero : F → Bool
  /-- `1.0`. -/
  one : F

namespace F64

variable {F : Type} (f64 : F64 F)

/-- A rate above zero. -/
def IsRate (rate : F) : Prop :=
  f64.isNan rate = false ∧ f64.isSignNegative rate = false ∧ f64.isZero rate = false

/-- A number is written so that it reads back, in digits and letters, and `0` reads as zero. -/
structure Lawful : Prop where
  fromStr_display : ∀ rate, f64.isNan rate = false → f64.fromStr (f64.display rate) = some rate
  not_mem_display : ∀ rate, '&' ∉ f64.display rate
  fromStr_zero : ∃ zero, f64.fromStr ['0'] = some zero ∧ f64.isNan zero = false ∧
    f64.isSignNegative zero = false ∧ f64.isZero zero = true
  one_isRate : f64.IsRate f64.one

end F64

end LcmBus
