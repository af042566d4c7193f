import FosKernel.DecimalStrings

/-!
# Formatted output

`vprintfmt` walks through a format and passes the characters of the output to `putch`, one by one
and as the bit patterns of an `int`. The bytes of strings are read when their turn comes, so what
is put out is a list of characters and strings.
-/

namespace FosKernel.Formatting
open CStrings Scheduler

/-- `"0123456789abcdef"[d]` -/
def hexDigit (d : ℕ) : ℕ := if d < 10 then 48 + d else 87 + d

/-- `printnum`: the digits, and before them what fills the width. -/
def printnum (base : ℕ) (hbase : 1 < base) (num : ℕ) (width : ℤ) (padc : ℕ) : List ℕ :=
  (if _h : base ≤ num then printnum base hbase (num / base) (int32 (width - 1)) padc
    else List.replicate (int32 (width - 1)).toNat padc) ++ [hexDigit (num % base)]
termination_by num
decreasing_by exact Nat.div_lt_self (by omega) hbase

/-- The digits of a number, the last one first. -/
def numerals (base n : ℕ) : List ℕ := if n = 0 then [0] else Nat.digits base n

theorem numerals_of_lt {base n : ℕ} (h : n < base) : numerals base n = [n] := by
  rw [numerals]
  split
  · rename_i hn
    rw [hn]
  · rename_i hn
    exact Nat.digits_of_lt base n hn h

theorem numerals_of_le {base n : ℕ} (hbase : 1 < base) (h : base ≤ n) :
    numerals base n = n % base :: numerals base (n / base) := by
  have hn : 0 < n := by omega
  have hdiv : n / base ≠ 0 := (Nat.div_pos h (by omega)).ne'
  rw [numerals, numerals, if_neg hn.ne', if_neg hdiv, Nat.digits_def' hbase hn]

/-- The number in `width` places, or in as many as it needs. -/
def padded (width : ℤ) (padc : ℕ) (text : List ℕ) : List ℕ :=
  List.replicate (int32 (width - text.length)).toNat padc ++ text

theorem int32_sub (a b : ℤ) : int32 (int32 a - b) = int32 (a - b) := Int.bmod_sub_bmod

def numeral (base n : ℕ) : List ℕ := (numerals base n).reverse.map hexDigit

theorem printnum_eq {base : ℕ} (hbase : 1 < base) (num : ℕ) (width : ℤ) (padc : ℕ) :
    printnum base hbase num width padc = padded width padc (numeral base num) := by
  fun_induction printnum base hbase num width padc with
  | case1 num width ih =>
    by_cases h : base ≤ num
    · rw [dif_pos h, ih h, padded, padded, numeral, numeral, numerals_of_le hbase h, List.reverse_cons, List.map_append,
        ← List.append_assoc]
      have hwidth : int32 (int32 (width - 1) - ((numerals base (num / base)).reverse.map hexDigit).length) =
          int32 (width - ((numerals base (num / base)).reverse.map hexDigit ++ [hexDigit (num % base)]).length) := by
        rw [int32_sub, List.length_append, List.length_singleton]
        congr 1
        omega
      rw [hwidth]
      rfl
    · rw [dif_neg h, padded, numeral, numerals_of_lt (by omega), Nat.mod_eq_of_lt (by omega)]
      rfl

/-- The words on the stack from `ap` on. -/
abbrev VaList := ℕ → ℕ

/-- `va_arg` of a type of 32 bits -/
def vaArg (ap : VaList) : ℕ × VaList := (u32 (ap 0), fun i => ap (i + 1))

/-- `va_arg` of a type of 64 bits -/
def vaArg64 (ap : VaList) : ℕ × VaList := (u32 (ap 0) + 2 ^ 32 * u32 (ap 1), fun i => ap (i + 2))

def getuint (ap : VaList) (lflag : ℕ) : ℕ × VaList := if 2 ≤ lflag then vaArg64 ap else vaArg ap

def getint (ap : VaList) (lflag : ℕ) : ℤ × VaList :=
  if 2 ≤ lflag then (((vaArg64 ap).1 : ℤ).bmod (2 ^ 64), (vaArg64 ap).2) else (int32 (vaArg ap).1, (vaArg ap).2)

/-- The characters from `p` on, at most `n` of them. -/
def readString (mem : Memory) (p : ℕ) : ℕ → List UInt8
  | 0 => []
  | n + 1 => if mem p = 0 then [] else mem p :: readString mem (p + 1) n

theorem readString_eq {mem : Memory} {p n : ℕ} {l : List UInt8} (h : HoldsString mem p l) (hn : l.length < n) :
    readString mem p n = l := by
  induction l generalizing p n with
  | nil =>
    cases n with
    | zero => rfl
    | succ n => exact if_pos h
  | cons c l ih =>
    cases n with
    | zero => exact absurd hn (Nat.not_lt_zero _)
    | succ n =>
      obtain ⟨rfl, hc, hl⟩ := h
      rw [readString, if_neg hc, ih hl (Nat.lt_of_succ_lt_succ hn)]

/-- A `char`, which has a sign, as an `int` -/
def charInt (c : UInt8) : ℕ := if c < 128 then c.toNat else c.toNat + (2 ^ 32 - 2 ^ 8)

structure Flags where
  padc : ℕ
  width : ℤ
  precision : ℤ
  lflag : ℕ
  altflag : Bool

def Flags.plain : Flags := ⟨32, -1, -1, 0, false⟩

/-- `process_precision` with the number `n` -/
def Flags.processPrecision (f : Flags) (n : ℤ) : Flags :=
  if f.width < 0 then { f with width := n, precision := -1 } else { f with precision := n }

/-- As much of a string as the precision lets through. -/
def limited (f : Flags) (s : List UInt8) : List UInt8 := if f.precision < 0 then s else s.take f.precision.toNat

/-- A character of a string, or a question mark if it is to be printable and is not. -/
def shown (f : Flags) (ch : UInt8) : ℕ := if f.altflag ∧ (ch < 32 ∨ 126 < ch) then 63 else charInt ch

/-- What fills the width of a string of `n` characters on its left, and the width that remains. -/
def fillLeft (f : Flags) (n : ℕ) : List ℕ × ℤ :=
  if 0 < f.width ∧ f.padc ≠ 45 then
    (List.replicate (int32 (f.width - n)).toNat f.padc, min (int32 (f.width - n)) 0)
  else ([], f.width)

/-- `case 's'` of the string with the characters `s` -/
def putString (f : Flags) (s : List UInt8) : List ℕ :=
  let s := limited f s
  let left := fillLeft f s.length
  left.1 ++ s.map (shown f) ++ List.replicate (int32 (left.2 - s.length)).toNat 32

/-- `"(null)"` -/
def nullText : List UInt8 := [40, 110, 117, 108, 108, 41]

def Flags.limit (f : Flags) : ℕ := if f.precision < 0 then 2 ^ 32 else f.precision.toNat

/-- The string of a `%s`, of which no more is read than the precision says. -/
def stringAt (mem : Memory) (f : Flags) (p : ℕ) : List UInt8 := if p = 0 then nullText else readString mem p f.limit

/-- What is put out next. -/
inductive Put where
  | chars (l : List ℕ)
  | string (f : Flags) (p : ℕ)

/-- The characters, with those of a string as it is in memory. -/
def Put.text (mem : Memory) : Put → List ℕ
  | chars l => l
  | string f p => putString f (stringAt mem f p)

/-- The labels of the `switch`. -/
inductive Label where
  | minus | zero | digit | star | dot | alt | long
  | char | error | string | decimal | unsigned | octal | pointer | hexadecimal | percent
  | unrecognized
  deriving DecidableEq

def label (ch : UInt8) : Label :=
  if ch = 45 then .minus
  else if ch = 48 then .zero
  else if 49 ≤ ch ∧ ch ≤ 57 then .digit
  else if ch = 42 then .star
  else if ch = 46 then .dot
  else if ch = 35 then .alt
  else if ch = 108 then .long
  else if ch = 99 then .char
  else if ch = 101 then .error
  else if ch = 115 then .string
  else if ch = 100 then .decimal
  else if ch = 117 then .unsigned
  else if ch = 111 then .octal
  else if ch = 112 then .pointer
  else if ch = 120 then .hexadecimal
  else if ch = 37 then .percent
  else .unrecognized

/-- The `for` loop of the width field, after its first digits. -/
def readWidth (n : ℤ) : List UInt8 → ℤ × List UInt8
  | [] => (n, [])
  | ch :: fmt => if 48 ≤ ch ∧ ch ≤ 57 then readWidth (int32 (n * 10 + ch.toNat - 48)) fmt else (n, ch :: fmt)

theorem readWidth_length (n : ℤ) (fmt : List UInt8) : (readWidth n fmt).2.length ≤ fmt.length := by
  induction fmt generalizing n with
  | nil => exact Nat.le_refl 0
  | cons ch fmt ih =>
    rw [readWidth]
    split
    · exact (ih _).trans (Nat.le_succ _)
    · exact Nat.le_refl _

/-- What an escape puts out, the rest of the format and the rest of the arguments. -/
structure Escape where
  out : List Put
  fmt : List UInt8
  ap : VaList

def maxError : ℤ := 100

/-- `"error %d"` -/
def errorFormat : List UInt8 := [101, 114, 114, 111, 114, 32, 37, 100]

section Formats

variable (errorString : ℕ → ℕ)

/-- `case 'e'`. The texts of error messages are at the addresses `errorString`. -/
def putError (printfmt : List UInt8 → VaList → List Put) (n : ℤ) : List Put :=
  let err := if n < 0 then int32 (-n) else n
  if maxError < err ∨ errorString err.toNat = 0 then printfmt errorFormat fun _ => unsigned err
  else printfmt [37, 115] fun _ => errorString err.toNat

/-- The `switch`, which is entered again after each flag. An escape that is not recognized is printed: the format is taken up
again behind its percent sign, at `start`. -/
def reswitch (printfmt : List UInt8 → VaList → List Put) (start : List UInt8) (f : Flags) (ap : VaList) : List UInt8 → Escape
  | [] => ⟨[.chars [37]], start, ap⟩
  | ch :: fmt =>
    match label ch with
    | .minus => reswitch printfmt start { f with padc := 45 } ap fmt
    | .zero => reswitch printfmt start { f with padc := 48 } ap fmt
    | .digit =>
      let n := readWidth (ch.toNat - 48) fmt
      reswitch printfmt start (f.processPrecision n.1) ap n.2
    | .star => reswitch printfmt start (f.processPrecision (int32 (vaArg ap).1)) (vaArg ap).2 fmt
    | .dot => reswitch printfmt start { f with width := if f.width < 0 then 0 else f.width } ap fmt
    | .alt => reswitch printfmt start { f with altflag := true } ap fmt
    | .long => reswitch printfmt start { f with lflag := f.lflag + 1 } ap fmt
    | .char => ⟨[.chars [(vaArg ap).1]], fmt, (vaArg ap).2⟩
    | .error => ⟨putError errorString printfmt (int32 (vaArg ap).1), fmt, (vaArg ap).2⟩
    | .string => ⟨[.string f (vaArg ap).1], fmt, (vaArg ap).2⟩
    | .decimal =>
      let num := getint ap f.lflag
      ⟨[.chars ((if num.1 < 0 then [45] else []) ++ printnum 10 (by decide) num.1.natAbs f.width f.padc)], fmt, num.2⟩
    | .unsigned =>
      let num := getuint ap f.lflag
      ⟨[.chars (printnum 10 (by decide) num.1 f.width f.padc)], fmt, num.2⟩
    | .octal => ⟨[.chars [88, 88, 88]], fmt, ap⟩
    | .pointer => ⟨[.chars ([48, 120] ++ printnum 16 (by decide) (vaArg ap).1 f.width f.padc)], fmt, (vaArg ap).2⟩
    | .hexadecimal =>
      let num := getuint ap f.lflag
      ⟨[.chars (printnum 16 (by decide) num.1 f.width f.padc)], fmt, num.2⟩
    | .percent => ⟨[.chars [37]], fmt, ap⟩
    | .unrecognized => ⟨[.chars [37]], start, ap⟩
termination_by fmt => fmt.length
decreasing_by
  all_goals simp only [List.length_cons]
  all_goals try exact Nat.lt_succ_self _
  exact Nat.lt_succ_of_le (readWidth_length ..)

theorem reswitch_length (printfmt : List UInt8 → VaList → List Put) (start : List UInt8) (f : Flags) (ap : VaList)
    (fmt : List UInt8) (h : fmt.length ≤ start.length) :
    (reswitch errorString printfmt start f ap fmt).fmt.length ≤ start.length := by
  fun_induction reswitch errorString printfmt start f ap fmt with
  | case1 => exact Nat.le_refl _
  | case4 f ap ch fmt hlabel n ih => exact ih ((readWidth_length _ _).trans ((Nat.le_succ _).trans h))
  | case2 f ap ch fmt hlabel ih => exact ih ((Nat.le_succ _).trans h)
  | case3 f ap ch fmt hlabel ih => exact ih ((Nat.le_succ _).trans h)
  | case5 f ap ch fmt hlabel ih => exact ih ((Nat.le_succ _).trans h)
  | case6 f ap ch fmt hlabel ih => exact ih ((Nat.le_succ _).trans h)
  | case7 f ap ch fmt hlabel ih => exact ih ((Nat.le_succ _).trans h)
  | case8 f ap ch fmt hlabel ih => exact ih ((Nat.le_succ _).trans h)
  | case18 => exact Nat.le_refl _
  | _ => exact (Nat.le_succ _).trans h

/-- `vprintfmt`, with another one for the messages of errors -/
def formatWith (printfmt : List UInt8 → VaList → List Put) : List UInt8 → VaList → List Put
  | [], _ => []
  | ch :: fmt, ap =>
    if ch ≠ 37 then .chars [ch.toNat] :: formatWith printfmt fmt ap
    else
      let r := reswitch errorString printfmt fmt .plain ap fmt
      r.out ++ formatWith printfmt r.fmt r.ap
termination_by fmt => fmt.length
decreasing_by
  · exact Nat.lt_succ_self _
  · exact Nat.lt_succ_of_le (reswitch_length errorString printfmt fmt .plain ap fmt (Nat.le_refl _))

/-- There is no `%e` in the formats of error messages. -/
def printfmt : List UInt8 → VaList → List Put := formatWith errorString fun _ _ => []

def vprintfmt : List UInt8 → VaList → List Put := formatWith errorString (printfmt errorString)

/-- What `vprintfmt` puts out as long as the memory stays as it is. -/
def formatted (mem : Memory) (fmt : List UInt8) (ap : VaList) : List ℕ := (vprintfmt errorString fmt ap).flatMap (Put.text mem)

end Formats

end FosKernel.Formatting
