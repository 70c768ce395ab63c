import Xv6.Sh

/-! The formatted output of the kernel (kernel/printf.c) and of user programs (user/printf.c). The
result is the text emitted; an argument is a 64-bit slot of the `va_list`. -/
namespace Xv6.Printf

open Sh (Byte)

/-- Where the two files differ: the table `digits`, the bits of `x` in `printint`, and how a
character is emitted. -/
structure Impl where
  digits : List Byte
  width : ℕ
  putc : BitVec 32 → List Byte

def decimals : List Byte := [0x30, 0x31, 0x32, 0x33, 0x34, 0x35, 0x36, 0x37, 0x38, 0x39]

/-- `uint x;` -/
def user : Impl := ⟨decimals ++ [0x41, 0x42, 0x43, 0x44, 0x45, 0x46], 32, fun c => [c.setWidth 8]⟩

/-- `consputc` writes "\b \b" for BACKSPACE. -/
def consputc (c : BitVec 32) : List Byte := if c = 0x100 then [0x08, 0x20, 0x08] else [c.setWidth 8]

/-- `unsigned long long x;` -/
def kernel : Impl := ⟨decimals ++ [0x61, 0x62, 0x63, 0x64, 0x65, 0x66], 64, consputc⟩

section Model

variable (t : Impl)

def Impl.digit (d : ℕ) : Byte := t.digits.getD d 0

/-- `do{ buf[i++] = digits[x % base]; }while((x /= base) != 0);` where `x` has `fuel` bits. -/
def digitLoop (base : ℕ) : ℕ → ℕ → List Byte
  | 0, _ => []
  | fuel + 1, x => t.digit (x % base) :: if x / base = 0 then [] else digitLoop base fuel (x / base)

def minus : Byte := 0x2d

/-- What `printint` puts into `buf`. -/
def intBuf (xx : BitVec 64) (base : ℕ) (sgn : Bool) : List Byte :=
  let neg := sgn && xx.slt 0
  let x := (if neg then -xx else xx).setWidth t.width
  digitLoop t base t.width x.toNat ++ if neg then [minus] else []

def printint (xx : BitVec 64) (base : ℕ) (sgn : Bool) : List Byte := (intBuf t xx base sgn).reverse

def printptr (x : BitVec 64) : List Byte :=
  0x30 :: 0x78 :: (List.range 16).map (fun i => t.digit ((x <<< (4 * i)) >>> 60).toNat)

/-- `va_arg(ap, int)` and `va_arg(ap, uint32)` as `printint` gets them. -/
def intArg (a : BitVec 64) : BitVec 64 := (a.setWidth 32).signExtend 64
def uintArg (a : BitVec 64) : BitVec 64 := (a.setWidth 32).setWidth 64

/-- The chain of tests on `c0`, `c1` and `c2` that both files have: the text, what is added to `i`,
and the arguments left. The string at a pointer is `str`. -/
def convert (str : BitVec 64 → List Byte) (c0 c1 c2 : Byte) (ap : List (BitVec 64)) :
    List Byte × ℕ × List (BitVec 64) :=
  let a := ap.headD 0
  if c0 = 0x64 then (printint t (intArg a) 10 true, 0, ap.tail)
  else if c0 = 0x6c ∧ c1 = 0x64 then (printint t a 10 true, 1, ap.tail)
  else if c0 = 0x6c ∧ c1 = 0x6c ∧ c2 = 0x64 then (printint t a 10 true, 2, ap.tail)
  else if c0 = 0x75 then (printint t (uintArg a) 10 false, 0, ap.tail)
  else if c0 = 0x6c ∧ c1 = 0x75 then (printint t a 10 false, 1, ap.tail)
  else if c0 = 0x6c ∧ c1 = 0x6c ∧ c2 = 0x75 then (printint t a 10 false, 2, ap.tail)
  else if c0 = 0x78 then (printint t (uintArg a) 16 false, 0, ap.tail)
  else if c0 = 0x6c ∧ c1 = 0x78 then (printint t a 16 false, 1, ap.tail)
  else if c0 = 0x6c ∧ c1 = 0x6c ∧ c2 = 0x78 then (printint t a 16 false, 2, ap.tail)
  else if c0 = 0x70 then (printptr t a, 0, ap.tail)
  else if c0 = 0x63 then (t.putc (a.setWidth 32), 0, ap.tail)
  else if c0 = 0x73 then
    -- "(null)"
    (if a = 0 then [0x28, 0x6e, 0x75, 0x6c, 0x6c, 0x29] else str a, 0, ap.tail)
  else if c0 = 0x25 then ([0x25], 0, ap)
  else ([0x25, c0], 0, ap)

/-- The loop of the kernel's `printf`; `skip` characters are passed over by `i += 1` or `i += 2`. -/
def printf (str : BitVec 64 → List Byte) : ℕ → List Byte → List (BitVec 64) → List Byte
  | _, [], _ => []
  | skip + 1, _ :: fmt, ap => printf str skip fmt ap
  | 0, [cx], _ => if cx = 0x25 then [] else [cx]
  | 0, cx :: c0 :: fmt, ap =>
    if cx = 0x25 then
      let (out, skip, ap) := convert kernel str c0 (fmt.headD 0) (fmt.tail.headD 0) ap
      out ++ printf str skip fmt ap
    else cx :: printf str 0 (c0 :: fmt) ap

/-- The loop of `vprintf`, where `percent` is `state == '%'`. -/
def vprintf (str : BitVec 64 → List Byte) : ℕ → Bool → List Byte → List (BitVec 64) → List Byte
  | _, _, [], _ => []
  | skip + 1, percent, _ :: fmt, ap => vprintf str skip percent fmt ap
  | 0, false, c0 :: fmt, ap => if c0 = 0x25 then vprintf str 0 true fmt ap else c0 :: vprintf str 0 false fmt ap
  | 0, true, c0 :: fmt, ap =>
    let (out, skip, ap) := convert user str c0 (fmt.headD 0) (fmt.tail.headD 0) ap
    out ++ vprintf str skip false fmt ap

end Model

section Numerals

/-- The digits of a number, the last one first; 0 has one. -/
def digitsOf (base n : ℕ) : List ℕ := if n = 0 then [0] else Nat.digits base n

def numeral (t : Impl) (base n : ℕ) : List Byte := ((digitsOf base n).map t.digit).reverse

variable {base n fuel : ℕ} {t : Impl}

theorem digitsOf_eq (hbase : 1 < base) (n : ℕ) :
    digitsOf base n = n % base :: if n / base = 0 then [] else digitsOf base (n / base) := by
  rw [digitsOf]
  by_cases hn : n = 0
  · rw [if_pos hn, hn, Nat.zero_mod, Nat.zero_div, if_pos rfl]
  · rw [if_neg hn, Nat.digits_def' hbase (Nat.pos_of_ne_zero hn), digitsOf]
    by_cases hq : n / base = 0
    · rw [if_pos hq, hq, Nat.digits_zero]
    · rw [if_neg hq, if_neg hq]

theorem digitLoop_eq (t : Impl) (hbase : 1 < base) (hfuel : 0 < fuel) (hn : n < 2 ^ fuel) :
    digitLoop t base fuel n = (digitsOf base n).map t.digit := by
  induction fuel generalizing n with
  | zero => exact absurd hfuel (Nat.lt_irrefl 0)
  | succ fuel ih =>
    rw [digitLoop, digitsOf_eq hbase, List.map_cons]
    by_cases hq : n / base = 0
    · rw [if_pos hq, if_pos hq, List.map_nil]
    · have hlt : n / base < 2 ^ fuel := by
        apply Nat.div_lt_of_lt_mul
        calc n < 2 ^ fuel * 2 := by rwa [← Nat.pow_succ]
          _ ≤ base * 2 ^ fuel := by rw [Nat.mul_comm]; exact Nat.mul_le_mul_right _ hbase
      have hpos : 0 < fuel := by
        apply Nat.pos_of_ne_zero
        rintro rfl
        exact hq (Nat.lt_one_iff.mp hlt)
      rw [if_neg hq, if_neg hq, ih hpos hlt]

theorem digitsOf_lt (hbase : 1 < base) {d : ℕ} (hd : d ∈ digitsOf base n) : d < base := by
  rw [digitsOf] at hd
  split_ifs at hd
  · rw [List.mem_singleton.mp hd]
    omega
  · exact Nat.digits_lt_base hbase hd

theorem ofDigits_digitsOf (base n : ℕ) : Nat.ofDigits base (digitsOf base n) = n := by
  rw [digitsOf]
  split_ifs with hn
  · rw [hn]
    exact Nat.ofDigits_singleton
  · exact Nat.ofDigits_digits base n

theorem length_digitsOf_le {k : ℕ} (hbase : 1 < base) (hk : 0 < k) (hn : n < base ^ k) :
    (digitsOf base n).length ≤ k := by
  rw [digitsOf]
  split_ifs
  · exact hk
  · exact (Nat.digits_length_le_iff hbase n).mpr hn

def toLower (c : Byte) : Byte := if 0x41 ≤ c ∧ c ≤ 0x5a then c + 0x20 else c

theorem toLower_digit : ∀ d < 16, toLower (user.digit d) = kernel.digit d := by decide

theorem idxOf_digit : ∀ d < 16, kernel.digits.idxOf (kernel.digit d) = d := by decide

theorem toLower_numeral (hbase : 1 < base) (hle : base ≤ 16) (n : ℕ) :
    (numeral user base n).map toLower = numeral kernel base n := by
  rw [numeral, numeral, List.map_reverse, List.map_map]
  congr 1
  apply List.map_congr_left
  intro d hd
  exact toLower_digit d ((digitsOf_lt hbase hd).trans_le hle)

theorem numeral_injective (hbase : 1 < base) (hle : base ≤ 16) : Function.Injective (numeral kernel base) := by
  -- the digits, and so the number, can be read off
  have hread : ∀ n, Nat.ofDigits base ((numeral kernel base n).reverse.map kernel.digits.idxOf) = n := by
    intro n
    have hmap : ((digitsOf base n).map kernel.digit).map kernel.digits.idxOf = digitsOf base n := by
      rw [List.map_map, List.map_congr_left (g := id) ?_, List.map_id]
      intro d hd
      exact idxOf_digit d ((digitsOf_lt hbase hd).trans_le hle)
    rw [numeral, List.reverse_reverse, hmap, ofDigits_digitsOf]
  intro m n h
  rw [← hread m, h, hread]

end Numerals

section Conversions

/-- The conversions of 64-bit arguments. -/
inductive Conv where
  | ld
  | lld
  | lu
  | llu
  | lx
  | llx

namespace Conv

def fmt : Conv → List Byte
  | ld => [0x25, 0x6c, 0x64]
  | lld => [0x25, 0x6c, 0x6c, 0x64]
  | lu => [0x25, 0x6c, 0x75]
  | llu => [0x25, 0x6c, 0x6c, 0x75]
  | lx => [0x25, 0x6c, 0x78]
  | llx => [0x25, 0x6c, 0x6c, 0x78]

def base : Conv → ℕ
  | lx | llx => 16
  | _ => 10

def signed : Conv → Bool
  | ld | lld => true
  | _ => false

/-- The number that is to be printed. -/
def value (conv : Conv) (v : BitVec 64) : ℤ := if conv.signed then v.toInt else v.toNat

/-- Its numeral, with the digits of the kernel. -/
def text (conv : Conv) (v : BitVec 64) : List Byte :=
  (if conv.value v < 0 then [minus] else []) ++ numeral kernel conv.base (conv.value v).natAbs

end Conv

variable (conv : Conv) (v : BitVec 64)

theorem one_lt_base : 1 < conv.base := by cases conv <;> decide

theorem base_le : conv.base ≤ 16 := by cases conv <;> decide

theorem value_nonneg (h : conv.signed = false) : 0 ≤ conv.value v := by
  rw [Conv.value, h]
  exact Int.natCast_nonneg _

theorem neg_iff : (conv.signed && v.slt 0) = decide (conv.value v < 0) := by
  cases h : conv.signed with
  | true =>
    rw [Conv.value, h, Bool.true_and, BitVec.slt_eq_decide]
    rfl
  | false => rw [Bool.false_and, eq_comm, decide_eq_false_iff_not, not_lt]; exact value_nonneg conv v h

theorem natAbs_value :
    (if conv.signed && v.slt 0 then -v else v).toNat = (conv.value v).natAbs := by
  rw [neg_iff]
  have hv := v.isLt
  cases h : conv.signed with
  | false =>
    rw [decide_eq_false (not_lt.mpr (value_nonneg conv v h)), Conv.value, h]
    rfl
  | true =>
    rw [Conv.value, h, if_pos rfl]
    have hint := BitVec.toInt_eq_toNat_cond v
    by_cases hneg : v.toInt < 0
    · rw [decide_eq_true hneg, if_pos rfl, BitVec.toNat_neg]
      split_ifs at hint <;> omega
    · rw [decide_eq_false hneg, if_neg Bool.false_ne_true]
      split_ifs at hint <;> omega

theorem printint_eq (t : Impl) (ht : 0 < t.width) :
    printint t v conv.base conv.signed = (if conv.value v < 0 then [minus] else []) ++
      numeral t conv.base ((conv.value v).natAbs % 2 ^ t.width) := by
  rw [printint, intBuf, digitLoop_eq t (one_lt_base conv) ht (BitVec.isLt _), BitVec.toNat_setWidth, natAbs_value, neg_iff,
    List.reverse_append, numeral]
  split_ifs <;> simp_all

theorem natAbs_value_lt : (conv.value v).natAbs < 2 ^ 64 := by
  rw [← natAbs_value]
  exact BitVec.isLt _

/-- `printint` stays within its buffer. -/
theorem length_intBuf_le (t : Impl) (ht : 0 < t.width) : (intBuf t v conv.base conv.signed).length ≤ 20 := by
  have hlt := natAbs_value_lt conv v
  have hmod := Nat.mod_le (conv.value v).natAbs (2 ^ t.width)
  have hlen : (intBuf t v conv.base conv.signed).length = (printint t v conv.base conv.signed).length :=
    List.length_reverse.symm
  rw [hlen, printint_eq conv v t ht, List.length_append, numeral, List.length_reverse, List.length_map]
  by_cases hneg : conv.value v < 0
  · -- the most negative number has 19 digits
    have hsigned : conv.signed = true := by
      by_contra h
      exact absurd (value_nonneg conv v (Bool.not_eq_true _ ▸ h)) (not_le.mpr hneg)
    have hbase : conv.base = 10 := by
      cases conv <;> first | rfl | cases hsigned
    have habs : (conv.value v).natAbs ≤ 2 ^ 63 := by
      have hle := BitVec.le_toInt v
      rw [Conv.value, hsigned, if_pos rfl] at hneg ⊢
      omega
    rw [if_pos hneg, hbase]
    have h19 : (conv.value v).natAbs % 2 ^ t.width < 10 ^ 19 := (hmod.trans habs).trans_lt (by decide)
    exact Nat.add_le_add (Nat.le_refl 1) (length_digitsOf_le (by decide) (by decide) h19)
  · rw [if_neg hneg, List.length_nil, zero_add]
    apply length_digitsOf_le (one_lt_base conv) (by decide)
    calc _ < 2 ^ 64 := hmod.trans_lt hlt
      _ ≤ 10 ^ 20 := by decide
      _ ≤ conv.base ^ 20 := Nat.pow_le_pow_left (by cases conv <;> decide) 20

theorem printf_conv (str : BitVec 64 → List Byte) (rest : List Byte) (ap : List (BitVec 64)) :
    printf str 0 (conv.fmt ++ rest) (v :: ap) = printint kernel v conv.base conv.signed ++ printf str 0 rest ap := by
  cases conv <;> rfl

theorem vprintf_conv (str : BitVec 64 → List Byte) (rest : List Byte) (ap : List (BitVec 64)) :
    vprintf str 0 false (conv.fmt ++ rest) (v :: ap) =
      printint user v conv.base conv.signed ++ vprintf str 0 false rest ap := by
  cases conv <;> rfl

/-- The kernel prints the exact numeral; a user program prints the same one, in capitals, iff the
number has at most 32 bits. -/
theorem vprintf_agrees_iff (str : BitVec 64 → List Byte) (rest : List Byte) (ap : List (BitVec 64)) :
    printf str 0 (conv.fmt ++ rest) (v :: ap) = conv.text v ++ printf str 0 rest ap ∧
    (∃ out, vprintf str 0 false (conv.fmt ++ rest) (v :: ap) = out ++ vprintf str 0 false rest ap ∧
      (out.map toLower = conv.text v ↔ (conv.value v).natAbs < 2 ^ 32)) ∧
    (intBuf kernel v conv.base conv.signed).length ≤ 20 ∧ (intBuf user v conv.base conv.signed).length ≤ 20 := by
  have hk : (conv.value v).natAbs % 2 ^ kernel.width = (conv.value v).natAbs :=
    Nat.mod_eq_of_lt (natAbs_value_lt conv v)
  refine ⟨?_, ⟨printint user v conv.base conv.signed, vprintf_conv conv v str rest ap, ?_⟩,
    length_intBuf_le conv v kernel (by decide), length_intBuf_le conv v user (by decide)⟩
  · rw [printf_conv, printint_eq conv v kernel (by decide), hk]
    rfl
  · have hminus : (if conv.value v < 0 then [minus] else []).map toLower = if conv.value v < 0 then [minus] else [] := by
      split_ifs <;> rfl
    rw [printint_eq conv v user (by decide), List.map_append, hminus, toLower_numeral (one_lt_base conv) (base_le conv),
      Conv.text, List.append_cancel_left_eq, (numeral_injective (one_lt_base conv) (base_le conv)).eq_iff]
    exact Nat.mod_eq_iff_lt (by decide)

/-- `%ld` of 2^32 -/
theorem vprintf_prints_zero :
    vprintf (fun _ => []) 0 false Conv.ld.fmt [0x100000000] = [0x30] ∧
    printf (fun _ => []) 0 Conv.ld.fmt [0x100000000] = [0x34, 0x32, 0x39, 0x34, 0x39, 0x36, 0x37, 0x32, 0x39, 0x36] := by
  decide +kernel

end Conversions

end Xv6.Printf
