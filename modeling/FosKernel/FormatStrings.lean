import FosKernel.Formatting
import Mathlib.Data.Nat.Digits.Lemmas

/-!
# The language of formats

A format is a list of characters and directives. `vprintfmt` of its text does what the directives
say.
-/

namespace FosKernel.Formatting
open CStrings Scheduler DecimalStrings

inductive Flag where
  | minus | zero | alt
  deriving DecidableEq

/-- A width or a precision. -/
inductive Amount where
  | number (n : ℕ)
  | argument

inductive Conversion where
  | char | error | string | decimal | unsigned | octal | pointer | hexadecimal | percent
  deriving DecidableEq

/-- What stands between a percent sign and the end of its conversion. -/
structure Directive where
  flags : List Flag
  width : Option Amount
  precision : Option Amount
  long : ℕ
  conversion : Conversion

inductive Piece where
  | literal (c : UInt8)
  | directive (d : Directive)

def Flag.code : Flag → UInt8
  | minus => 45
  | zero => 48
  | alt => 35

def Amount.text : Amount → List UInt8
  | number n => (decimalDigits n).reverse.map fun d : ℕ => digitChar d
  | argument => [42]

def Conversion.code : Conversion → UInt8
  | char => 99
  | error => 101
  | string => 115
  | decimal => 100
  | unsigned => 117
  | octal => 111
  | pointer => 112
  | hexadecimal => 120
  | percent => 37

def precisionText : Option Amount → List UInt8
  | none => []
  | some a => 46 :: a.text

def widthText : Option Amount → List UInt8
  | none => []
  | some a => a.text

def Directive.text (d : Directive) : List UInt8 :=
  d.flags.map Flag.code ++
  (widthText d.width ++ (precisionText d.precision ++ (List.replicate d.long 108 ++ [d.conversion.code])))

def Piece.text : Piece → List UInt8
  | literal c => [c]
  | directive d => 37 :: d.text

/-- Numbers are those of an `int`. -/
def Amount.Legal : Amount → Prop
  | number n => n < 2 ^ 31
  | argument => True

def Piece.Legal : Piece → Prop
  | literal c => c ≠ 0 ∧ c ≠ 37
  | directive d => (∀ a ∈ d.width, a.Legal ∧ a ≠ .number 0) ∧ ∀ a ∈ d.precision, a.Legal

def Flag.set (f : Flags) : Flag → Flags
  | minus => { f with padc := 45 }
  | zero => { f with padc := 48 }
  | alt => { f with altflag := true }

/-- The value of a width or a precision, and the arguments after it. -/
def Amount.value (ap : VaList) : Amount → ℤ × VaList
  | number n => (n, ap)
  | argument => (int32 (vaArg ap).1, (vaArg ap).2)

def setWidth (f : Flags) (ap : VaList) : Option Amount → Flags × VaList
  | none => (f, ap)
  | some a => ({ f with width := (a.value ap).1 }, (a.value ap).2)

/-- With a precision there is a width as well. A precision of zero is taken for a flag. -/
def setPrecision (f : Flags) (ap : VaList) : Option Amount → Flags × VaList
  | none => (f, ap)
  | some (.number 0) => ({ f with width := max f.width 0, padc := 48 }, ap)
  | some a => ({ f with width := max f.width 0, precision := (a.value ap).1 }, (a.value ap).2)

def Directive.settings (d : Directive) (ap : VaList) : Flags × VaList :=
  let w := setWidth (d.flags.foldl Flag.set .plain) ap d.width
  let p := setPrecision w.1 w.2 d.precision
  ({ p.1 with lflag := d.long }, p.2)

section Meanings

variable (message : ℤ → List Put)

/-- What a conversion puts out, and the arguments after it. -/
def Conversion.render (f : Flags) (ap : VaList) : Conversion → List Put × VaList
  | char => ([.chars [(vaArg ap).1]], (vaArg ap).2)
  | error => (message (int32 (vaArg ap).1), (vaArg ap).2)
  | string => ([.string f (vaArg ap).1], (vaArg ap).2)
  | decimal =>
    let num := getint ap f.lflag
    ([.chars ((if num.1 < 0 then [45] else []) ++ padded f.width f.padc (numeral 10 num.1.natAbs))], num.2)
  | unsigned => ([.chars (padded f.width f.padc (numeral 10 (getuint ap f.lflag).1))], (getuint ap f.lflag).2)
  | octal => ([.chars [88, 88, 88]], ap)
  | pointer => ([.chars ([48, 120] ++ padded f.width f.padc (numeral 16 (vaArg ap).1))], (vaArg ap).2)
  | hexadecimal => ([.chars (padded f.width f.padc (numeral 16 (getuint ap f.lflag).1))], (getuint ap f.lflag).2)
  | percent => ([.chars [37]], ap)

def Piece.render (ap : VaList) : Piece → List Put × VaList
  | literal c => ([.chars [c.toNat]], ap)
  | directive d => d.conversion.render message (d.settings ap).1 (d.settings ap).2

def render (ap : VaList) : List Piece → List Put
  | [] => []
  | p :: ps => (p.render message ap).1 ++ render (p.render message ap).2 ps

end Meanings

section Parsing

variable {errorString : ℕ → ℕ} {printfmt : List UInt8 → VaList → List Put} {start fmt : List UInt8}
  {f : Flags} {ap : VaList}

theorem reswitch_flags (fl : List Flag) (f : Flags) : reswitch errorString printfmt start f ap (fl.map Flag.code ++ fmt) =
    reswitch errorString printfmt start (fl.foldl Flag.set f) ap fmt := by
  induction fl generalizing f with
  | nil => rfl
  | cons a fl ih =>
    rw [List.map_cons, List.cons_append, List.foldl_cons, ← ih]
    cases a with
    | minus => rw [reswitch, Flag.code, show label 45 = .minus from rfl, Flag.set]
    | zero => rw [reswitch, Flag.code, show label 48 = .zero from rfl, Flag.set]
    | alt => rw [reswitch, Flag.code, show label 35 = .alt from rfl, Flag.set]

theorem reswitch_long (n : ℕ) (f : Flags) : reswitch errorString printfmt start f ap (List.replicate n 108 ++ fmt) =
    reswitch errorString printfmt start { f with lflag := f.lflag + n } ap fmt := by
  induction n generalizing f with
  | zero => rfl
  | succ n ih =>
    rw [List.replicate_succ, List.cons_append, reswitch, show label 108 = .long from rfl]
    refine (ih _).trans ?_
    rw [Nat.add_comm n, ← Nat.add_assoc]

theorem reswitch_conversion (c : Conversion) : reswitch errorString printfmt start f ap (c.code :: fmt) =
    ⟨(c.render (putError errorString printfmt) f ap).1, fmt, (c.render (putError errorString printfmt) f ap).2⟩ := by
  cases c with
  | char => rw [reswitch, Conversion.code, show label 99 = .char from rfl, Conversion.render]
  | error => rw [reswitch, Conversion.code, show label 101 = .error from rfl, Conversion.render]
  | string => rw [reswitch, Conversion.code, show label 115 = .string from rfl, Conversion.render]
  | decimal => simp only [Conversion.code, reswitch, show label 100 = .decimal from rfl, Conversion.render, printnum_eq]
  | unsigned => simp only [Conversion.code, reswitch, show label 117 = .unsigned from rfl, Conversion.render, printnum_eq]
  | octal => rw [reswitch, Conversion.code, show label 111 = .octal from rfl, Conversion.render]
  | pointer => simp only [Conversion.code, reswitch, show label 112 = .pointer from rfl, Conversion.render, printnum_eq]
  | hexadecimal =>
    simp only [Conversion.code, reswitch, show label 120 = .hexadecimal from rfl, Conversion.render, printnum_eq]
  | percent => rw [reswitch, Conversion.code, show label 37 = .percent from rfl, Conversion.render]

theorem digitChar_code : ∀ d < 10, (48 ≤ digitChar (d : ℕ) ∧ digitChar (d : ℕ) ≤ 57) ∧ (digitChar (d : ℕ)).toNat = 48 + d := by
  decide

theorem label_digitChar : ∀ d < 10, d ≠ 0 → label (digitChar (d : ℕ)) = .digit := by decide

/-- The number before `fmt` is complete. -/
def NoDigit (fmt : List UInt8) : Prop := ∀ c ∈ fmt.head?, ¬(48 ≤ c ∧ c ≤ 57)

theorem readWidth_digits {ds : List ℕ} (hds : ∀ d ∈ ds, d < 10) (n : ℕ) (hn : ds.foldl (fun a d => a * 10 + d) n < 2 ^ 31)
    (hfmt : NoDigit fmt) :
    readWidth n (ds.map (fun d : ℕ => digitChar d) ++ fmt) = (((ds.foldl (fun a d => a * 10 + d) n : ℕ) : ℤ), fmt) := by
  induction ds generalizing n with
  | nil =>
    cases fmt with
    | nil => rfl
    | cons c fmt => exact if_neg (hfmt c rfl)
  | cons d ds ih =>
    have hd := hds d List.mem_cons_self
    have hle := le_foldl ds (n * 10 + d)
    rw [List.foldl_cons] at hn ⊢
    obtain ⟨hcode, hvalue⟩ := digitChar_code d hd
    rw [List.map_cons, List.cons_append, readWidth, if_pos hcode, hvalue, int32_eq (by omega) (by omega),
      ← ih (fun d hd => hds d (List.mem_cons_of_mem _ hd)) _ hn]
    congr 1
    push_cast
    omega

theorem reswitch_number {n : ℕ} (h0 : 0 < n) (hn : n < 2 ^ 31) (hfmt : NoDigit fmt) :
    reswitch errorString printfmt start f ap (Amount.text (.number n) ++ fmt) =
      reswitch errorString printfmt start (f.processPrecision n) ap fmt := by
  have hdigits : decimalDigits n = Nat.digits 10 n := if_neg h0.ne'
  have hne : Nat.digits 10 n ≠ [] := Nat.digits_ne_nil_iff_ne_zero.mpr h0.ne'
  obtain ⟨d, ds, hds⟩ := List.exists_cons_of_ne_nil (mt List.reverse_eq_nil_iff.mp hne)
  have hlast : d ≠ 0 := by
    have hback : Nat.digits 10 n = ds.reverse ++ [d] := by
      rw [← List.reverse_reverse (Nat.digits 10 n), hds, List.reverse_cons]
    have hleading := Nat.getLast_digit_ne_zero 10 h0.ne'
    simpa [hback] using hleading
  have hlt : ∀ a ∈ d :: ds, a < 10 := fun a ha =>
    Nat.digits_lt_base (by decide) (List.mem_reverse.mp (hds ▸ ha))
  have hvalue := foldl_decimalDigits n
  rw [hdigits, hds, List.foldl_cons, Nat.zero_mul, Nat.zero_add] at hvalue
  have hd := hlt d List.mem_cons_self
  rw [Amount.text, hdigits, hds, List.map_cons, List.cons_append, reswitch, label_digitChar d hd hlast]
  have hread := readWidth_digits (fun a ha => hlt a (List.mem_cons_of_mem d ha)) d (by rwa [hvalue]) hfmt
  have hfirst : ((digitChar (d : ℕ)).toNat : ℤ) - 48 = d := by
    have := (digitChar_code d hd).2
    omega
  simp only [hfirst, hread, hvalue]

theorem reswitch_amount {a : Amount} (ha : a.Legal) (h0 : a ≠ .number 0) (hfmt : NoDigit fmt) :
    reswitch errorString printfmt start f ap (a.text ++ fmt) =
      reswitch errorString printfmt start (f.processPrecision (a.value ap).1) (a.value ap).2 fmt := by
  cases a with
  | number n => exact reswitch_number (Nat.pos_of_ne_zero fun h => h0 (congrArg _ h)) ha hfmt
  | argument =>
    rw [Amount.text, List.cons_append, List.nil_append, reswitch, show label 42 = .star from rfl, Amount.value]

theorem reswitch_width {w : Option Amount} (hw : ∀ a ∈ w, a.Legal ∧ a ≠ .number 0) (hf : f.width < 0) (hp : f.precision = -1)
    (hfmt : NoDigit fmt) : reswitch errorString printfmt start f ap (widthText w ++ fmt) =
      reswitch errorString printfmt start (setWidth f ap w).1 (setWidth f ap w).2 fmt := by
  cases w with
  | none => rfl
  | some a =>
    rw [widthText, reswitch_amount (hw a rfl).1 (hw a rfl).2 hfmt, Flags.processPrecision, if_pos hf, setWidth, ← hp]

theorem reswitch_precision {p : Option Amount} (hp : ∀ a ∈ p, a.Legal) (hfmt : NoDigit fmt) :
    reswitch errorString printfmt start f ap (precisionText p ++ fmt) =
      reswitch errorString printfmt start (setPrecision f ap p).1 (setPrecision f ap p).2 fmt := by
  cases p with
  | none => rfl
  | some a =>
    have hwidth : (if f.width < 0 then 0 else f.width) = max f.width 0 := by omega
    rw [precisionText, List.cons_append, reswitch, show label 46 = .dot from rfl]
    simp only [hwidth]
    by_cases h0 : a = .number 0
    · subst h0
      have hzero : Amount.text (.number 0) = [48] := rfl
      rw [hzero, List.singleton_append, reswitch, show label 48 = .zero from rfl, setPrecision]
    · have hfull : Flags.processPrecision { f with width := max f.width 0 } (a.value ap).1 =
          { f with width := max f.width 0, precision := (a.value ap).1 } := if_neg (show ¬max f.width 0 < 0 by omega)
      rw [reswitch_amount (hp a rfl) h0 hfmt, hfull]
      cases a with
      | number n =>
        cases n with
        | zero => exact absurd rfl h0
        | succ n => rfl
      | argument => rfl

theorem noDigit_long (n : ℕ) (c : Conversion) (fmt : List UInt8) : NoDigit (List.replicate n 108 ++ [c.code] ++ fmt) := by
  intro ch hch
  cases n with
  | zero =>
    obtain rfl : c.code = ch := by simpa using hch
    cases c <;> decide
  | succ n =>
    obtain rfl : 108 = ch := by simpa [List.replicate_succ] using hch
    decide

theorem noDigit_precision (p : Option Amount) (hfmt : NoDigit fmt) : NoDigit (precisionText p ++ fmt) := by
  cases p with
  | none => exact hfmt
  | some a =>
    intro ch hch
    obtain rfl : 46 = ch := by simpa [precisionText] using hch
    decide

theorem foldl_set (fl : List Flag) (f : Flags) : (fl.foldl Flag.set f).width = f.width ∧
    (fl.foldl Flag.set f).precision = f.precision ∧ (fl.foldl Flag.set f).lflag = f.lflag := by
  induction fl generalizing f with
  | nil => exact ⟨rfl, rfl, rfl⟩
  | cons a fl ih =>
    obtain ⟨hw, hp, hl⟩ := ih (Flag.set f a)
    rw [List.foldl_cons, hw, hp, hl]
    cases a <;> exact ⟨rfl, rfl, rfl⟩

theorem setPrecision_lflag (f : Flags) (ap : VaList) (p : Option Amount) : (setPrecision f ap p).1.lflag = f.lflag := by
  match p with
  | none | some .argument | some (.number 0) | some (.number (n + 1)) => rfl

/-- The `switch` comes to the conversion with the settings of the directive. -/
theorem reswitch_directive {d : Directive} (hd : (Piece.directive d).Legal) :
    reswitch errorString printfmt start .plain ap (d.text ++ fmt) =
      ⟨(Piece.render (putError errorString printfmt) ap (.directive d)).1, fmt,
        (Piece.render (putError errorString printfmt) ap (.directive d)).2⟩ := by
  obtain ⟨hw, hp, hl⟩ := foldl_set d.flags .plain
  have hlong := noDigit_long d.long d.conversion fmt
  have hsettings : (setPrecision (setWidth (d.flags.foldl Flag.set .plain) ap d.width).1
      (setWidth (d.flags.foldl Flag.set .plain) ap d.width).2 d.precision).1.lflag = 0 := by
    rw [← show Flags.plain.lflag = 0 from rfl, ← hl, setPrecision_lflag]
    cases d.width <;> rfl
  simp only [Directive.text, List.append_assoc]
  rw [reswitch_flags, reswitch_width hd.1 (by rw [hw]; decide) hp, reswitch_precision hd.2, reswitch_long,
    List.singleton_append,
    reswitch_conversion, hsettings]
  · rw [Nat.zero_add]
    rfl
  · simpa using hlong
  · exact noDigit_precision d.precision (by simpa using hlong)

theorem formatWith_pieces {ps : List Piece} (hps : ∀ p ∈ ps, p.Legal) (ap : VaList) :
    formatWith errorString printfmt (ps.flatMap Piece.text) ap = render (putError errorString printfmt) ap ps := by
  induction ps generalizing ap with
  | nil => rw [List.flatMap_nil, formatWith, render]
  | cons p ps ih =>
    have hp := hps p List.mem_cons_self
    rw [List.flatMap_cons, render, ← ih fun q hq => hps q (List.mem_cons_of_mem p hq)]
    cases p with
    | literal c =>
      rw [Piece.text, List.singleton_append, formatWith, if_pos hp.2]
      rfl
    | directive d =>
      rw [Piece.text, List.cons_append, formatWith, if_neg (by decide), reswitch_directive hp]

end Parsing

/-- `"error "` -/
def errorText : List UInt8 := [101, 114, 114, 111, 114, 32]

def message (errorString : ℕ → ℕ) (n : ℤ) : List Put :=
  let err := if n < 0 then int32 (-n) else n
  if maxError < err ∨ errorString err.toNat = 0 then
    errorText.map (fun c => .chars [c.toNat]) ++ [.chars ((if int32 err < 0 then [45] else []) ++ numeral 10 (int32 err).natAbs)]
  else [.string .plain (errorString err.toNat)]

theorem numerals_length {base n k : ℕ} (hbase : 1 < base) (hn : n < base ^ (k + 1)) : (numerals base n).length ≤ k + 1 := by
  rw [numerals]
  split
  · exact Nat.succ_le_succ (Nat.zero_le k)
  · exact (Nat.digits_length_le_iff hbase n).mpr hn

theorem numeral_length {base n : ℕ} (hbase : 1 < base) (hn : n < 2 ^ 64) : (numeral base n).length ≤ 64 := by
  have hpow : 2 ^ 64 ≤ base ^ 64 := Nat.pow_le_pow_left hbase 64
  rw [numeral, List.length_map, List.length_reverse]
  exact numerals_length hbase (hn.trans_le hpow)

theorem padded_eq {width : ℤ} {text : List ℕ} (padc : ℕ) (hlo : -2 ^ 30 ≤ width) (hhi : width < 2 ^ 31)
    (hlen : text.length ≤ 2 ^ 30) : padded width padc text = List.replicate (width - text.length).toNat padc ++ text := by
  rw [padded, int32_eq (by omega) (by omega)]

/-- A string without a width. -/
theorem text_plain {s : List UInt8} (hlen : s.length < 2 ^ 31) : putString .plain s = s.map charInt := by
  have hlimited : limited .plain s = s := if_pos (by decide)
  have hfill : fillLeft .plain s.length = ([], -1) := if_neg (by decide)
  have hnone : (int32 (-1 - s.length)).toNat = 0 := by
    rw [int32_eq (by omega) (by omega)]
    omega
  have hshown : shown .plain = charInt := by
    funext c
    simp [shown, Flags.plain]
  simp only [putString, hlimited, hfill, hnone, hshown, List.replicate_zero, List.append_nil, List.nil_append]

theorem render_literals (message : ℤ → List Put) (l : List UInt8) (ps : List Piece) (ap : VaList) :
    render message ap (l.map .literal ++ ps) = l.map (fun c => .chars [c.toNat]) ++ render message ap ps := by
  induction l with
  | nil => rfl
  | cons c l ih =>
    rw [List.map_cons, List.cons_append, render, Piece.render, ih]
    rfl

/-- A format with one `%s` and no other escape. -/
theorem formatWith_string (errorString : ℕ → ℕ) (printfmt : List UInt8 → VaList → List Put) {p : ℕ} (hp : p < 2 ^ 32)
    {l l' : List UInt8} (hl : ∀ c ∈ l, c ≠ 0 ∧ c ≠ 37) (hl' : ∀ c ∈ l', c ≠ 0 ∧ c ≠ 37) :
    formatWith errorString printfmt (l ++ [37, 115] ++ l') (fun _ => p) =
      l.map (fun c => .chars [c.toNat]) ++ (.string .plain p :: l'.map (fun c => .chars [c.toNat])) := by
  set d : Directive := ⟨[], none, none, 0, .string⟩
  have hlegal : ∀ q ∈ l.map Piece.literal ++ (.directive d :: l'.map Piece.literal), q.Legal := by
    intro q hq
    rcases List.mem_append.mp hq with hq | hq
    · obtain ⟨c, hc, rfl⟩ := List.mem_map.mp hq
      exact hl c hc
    · rcases List.mem_cons.mp hq with rfl | hq
      · exact ⟨fun _ ha => absurd ha (Option.not_mem_none _), fun _ ha => absurd ha (Option.not_mem_none _)⟩
      · obtain ⟨c, hc, rfl⟩ := List.mem_map.mp hq
        exact hl' c hc
  have htext (l : List UInt8) : (l.map Piece.literal).flatMap Piece.text = l := by
    induction l with
    | nil => rfl
    | cons c l ih => rw [List.map_cons, List.flatMap_cons, ih, Piece.text, List.singleton_append]
  have hformat : l ++ [37, 115] ++ l' =
    (l.map Piece.literal ++ (.directive d :: l'.map Piece.literal)).flatMap Piece.text := by
    rw [List.flatMap_append, List.flatMap_cons, htext, htext, List.append_assoc]
    rfl
  have hsettings : d.settings (fun _ => p) = (.plain, fun _ => p) := rfl
  have hrest := render_literals (putError errorString printfmt) l' [] fun _ => p
  rw [List.append_nil, render, List.append_nil] at hrest
  rw [hformat, formatWith_pieces hlegal, render_literals, render, Piece.render, hsettings, Conversion.render, vaArg,
    u32_of_lt hp, hrest]
  rfl

theorem flatMap_chars (mem : Memory) (l : List UInt8) :
    (l.map fun c => Put.chars [c.toNat]).flatMap (Put.text mem) = l.map UInt8.toNat := by
  induction l with
  | nil => rfl
  | cons c l ih =>
    rw [List.map_cons, List.flatMap_cons, ih]
    rfl

theorem formatted_string (errorString : ℕ → ℕ) (mem : Memory) {p : ℕ} (h0 : p ≠ 0) (hp : p < 2 ^ 32) {s : List UInt8}
    (hs : HoldsString mem p s) (hlen : s.length < 2 ^ 31) {l l' : List UInt8} (hl : ∀ c ∈ l, c ≠ 0 ∧ c ≠ 37)
    (hl' : ∀ c ∈ l', c ≠ 0 ∧ c ≠ 37) : formatted errorString mem (l ++ [37, 115] ++ l') (fun _ => p) =
      l.map UInt8.toNat ++ s.map charInt ++ l'.map UInt8.toNat := by
  have hread : stringAt mem .plain p = s := by
    rw [stringAt, if_neg h0]
    exact readString_eq hs (hlen.trans (by decide))
  rw [formatted, vprintfmt, formatWith_string _ _ hp hl hl', List.flatMap_append, List.flatMap_cons, flatMap_chars,
    flatMap_chars, Put.text, hread, text_plain hlen, List.append_assoc]

namespace Directive

variable (d : Directive) (mem : Memory) (ap : VaList)

def widthValue : ℤ × VaList :=
  match d.width with
  | none => (0, ap)
  | some a => a.value ap

def precisionValue (ap : VaList) : ℤ × VaList :=
  match d.precision with
  | none => (-1, ap)
  | some a => a.value ap

/-- The arguments behind those of the width and the precision. -/
def rest : VaList := (d.precisionValue (d.widthValue ap).2).2

/-- A negative width is the flag `-` and a width. -/
def left : Bool := .minus ∈ d.flags ∨ (d.widthValue ap).1 < 0

variable (message : ℤ → List ℕ)

/-- Precisions are those of strings. A precision that is written as zero is none. -/
def Plain : Prop :=
  if d.conversion = .string then d.precision ≠ some (.number 0) else d.precision = none

def padFlag : List Flag → Option Flag
  | [] => none
  | a :: fl => (padFlag fl).or (if a = .alt then none else some a)

end Directive

def fillChar : Option Flag → ℕ
  | some .minus => 45
  | some .zero => 48
  | _ => 32

namespace Directive

variable {d : Directive} {mem : Memory} {ap : VaList}

/-- What the flags, the width and the precision come to. -/
structure Reads (d : Directive) (ap : VaList) (f : Flags) (ap' : VaList) : Prop where
  padc : f.padc = fillChar (padFlag d.flags)
  altflag : f.altflag = decide (.alt ∈ d.flags)
  width : f.width.toNat = (d.widthValue ap).1.toNat
  bounds : -2 ^ 30 ≤ f.width ∧ f.width < 2 ^ 31
  precision : f.precision = (d.precisionValue (d.widthValue ap).2).1
  lflag : f.lflag = d.long
  args : ap' = d.rest ap

theorem Plain.ne_zero (h : d.Plain) : d.precision ≠ some (.number 0) := by
  rw [Plain] at h
  split at h
  · exact h
  · rw [h]
    exact fun hc => by cases hc

end Directive

section Fields

variable {sign digits text : List ℕ} {w : ℤ} {minus zero : Bool} {padc : ℕ}

end Fields

section Fields

variable {text : List ℕ} {w : ℤ} {fl : List Flag}

end Fields

theorem numerals_lt {base : ℕ} (hbase : 1 < base) (n : ℕ) : ∀ d ∈ numerals base n, d < base := by
  intro d hd
  rw [numerals] at hd
  split at hd
  · rw [List.mem_singleton.mp hd]
    omega
  · exact Nat.digits_lt_base hbase hd

namespace Directive

variable {d : Directive} {mem : Memory} {errorString : ℕ → ℕ} {ap : VaList}

def errorText (mem : Memory) (errorString : ℕ → ℕ) (n : ℤ) : List ℕ := (message errorString n).flatMap (Put.text mem)

end Directive

theorem length_readString_le (mem : Memory) (p n : ℕ) : (readString mem p n).length ≤ n := by
  induction n generalizing p with
  | zero => exact le_rfl
  | succ n ih =>
    rw [readString]
    split
    · exact Nat.zero_le _
    · exact Nat.succ_le_succ (ih (p + 1))

namespace Directive

variable {d : Directive} {mem : Memory} {errorString : ℕ → ℕ} {ap : VaList}

end Directive

/-- The pieces one after the other, each with the arguments that the ones before it have left. -/
def inOrder (piece : VaList → Piece → List ℕ × VaList) (ap : VaList) : List Piece → List ℕ
  | [] => []
  | p :: ps => (piece ap p).1 ++ inOrder piece (piece ap p).2 ps

section Pieces

variable (mem : Memory) (errorString : ℕ → ℕ) (ap : VaList)

end Pieces

section ReadBack

variable {mem : Memory} {errorString : ℕ → ℕ} {n w : ℕ} {v : ℤ} {zero : Bool} {base : ℕ} {ap : VaList}

/-- `%d`, `%5d`, `%05d` and so on -/
def numberFormat (zero : Bool) (w : ℕ) (c : Conversion) : List UInt8 :=
  37 :: Directive.text ⟨if zero then [.zero] else [], if w = 0 then none else some (.number w), none, 0, c⟩

/-- What `strtol` gets to read. -/
def printed (mem : Memory) (errorString : ℕ → ℕ) (fmt : List UInt8) (n : ℕ) : List UInt8 :=
  (formatted errorString mem fmt fun _ => n).map UInt8.ofNat

def fill (zero : Bool) : ℕ := if zero then 48 else 32

theorem formatted_number (mem : Memory) (errorString : ℕ → ℕ) (zero : Bool) (hw : w < 2 ^ 31) (c : Conversion)
    (ap : VaList) : ∃ f : Flags, f.padc = fill zero ∧ f.width = (if w = 0 then -1 else (w : ℤ)) ∧ f.lflag = 0 ∧
    formatted errorString mem (numberFormat zero w c) ap =
      (c.render (putError errorString (printfmt errorString)) f ap).1.flatMap (Put.text mem) := by
  set d : Directive := ⟨if zero then [.zero] else [], if w = 0 then none else some (.number w), none, 0, c⟩ with hd
  have hlegal : (Piece.directive d).Legal := by
    refine ⟨fun a ha => ?_, fun a ha => by cases ha⟩
    by_cases h0 : w = 0
    · simp [hd, h0] at ha
    · obtain rfl : Amount.number w = a := by simpa [hd, h0] using ha
      exact ⟨hw, fun h => h0 (Amount.number.inj h)⟩
  have hpieces : formatWith errorString (printfmt errorString) ([Piece.directive d].flatMap Piece.text) ap =
      render (putError errorString (printfmt errorString)) ap [.directive d] :=
    formatWith_pieces (by simpa using hlegal) ap
  refine ⟨(d.settings ap).1, ?_, ?_, rfl, ?_⟩
  · cases zero <;> by_cases h0 : w = 0 <;>
      simp [hd, Directive.settings, setWidth, setPrecision, h0, Flag.set, Flags.plain, fill]
  · by_cases h0 : w = 0 <;> cases zero <;>
      simp [hd, Directive.settings, setWidth, setPrecision, h0, Flag.set, Flags.plain, Amount.value]
  · have hap : (d.settings ap).2 = ap := by
      by_cases h0 : w = 0 <;> simp [hd, Directive.settings, setWidth, setPrecision, h0, Amount.value]
    have htext : [Piece.directive d].flatMap Piece.text = numberFormat zero w c := by
      rw [List.flatMap_cons, List.flatMap_nil, List.append_nil]
      rfl
    rw [htext, render, render, List.append_nil, Piece.render, hap] at hpieces
    rw [formatted, vprintfmt, hpieces]

/-- Reading wraps around as the numbers of an `int` do. -/
theorem int32_step (a b d : ℤ) : int32 (int32 a * b + d) = int32 (a * b + d) := by
  rw [int32, int32, ← Int.bmod_add_bmod, Int.bmod_mul_bmod, Int.bmod_add_bmod]
  rfl

theorem digitValue_hexDigit : ∀ d < 16, digitValue (UInt8.ofNat (hexDigit d)) = some (d : ℤ) := by decide

theorem readDigits_hexDigits {ds : List ℕ} (hbase : base ≤ 16) (hds : ∀ d ∈ ds, d < base) (a : ℕ) :
    readDigits base (int32 a) (ds.map fun d => UInt8.ofNat (hexDigit d)) =
      (int32 ((ds.foldl (fun a d => a * base + d) a : ℕ) : ℤ), []) := by
  induction ds generalizing a with
  | nil => rfl
  | cons d ds ih =>
    have hd := hds d List.mem_cons_self
    have hnat : (a : ℤ) * base + d = ((a * base + d : ℕ) : ℤ) := by push_cast; rfl
    rw [List.map_cons, readDigits, digitValue_hexDigit d (hd.trans_le hbase), List.foldl_cons]
    simp only
    rw [if_neg (by omega), int32_step, hnat, ih fun d hd => hds d (List.mem_cons_of_mem _ hd)]

theorem foldl_numerals (n : ℕ) : (numerals base n).reverse.foldl (fun a d => a * base + d) 0 = n := by
  have hfoldr (ds : List ℕ) : ds.foldr (fun d a => a * base + d) 0 = Nat.ofDigits base ds := by
    induction ds with
    | nil => rfl
    | cons d ds ih => rw [List.foldr_cons, ih, Nat.ofDigits_cons, Nat.mul_comm, Nat.add_comm]
  rw [List.foldl_reverse, hfoldr, numerals]
  split
  · rename_i h
    rw [h]
    rfl
  · exact Nat.ofDigits_digits base n

theorem readDigits_numeral (hbase : 1 < base) (hle : base ≤ 16) (k n : ℕ) :
    readDigits base 0 ((List.replicate k 48 ++ numeral base n).map UInt8.ofNat) = (int32 n, []) := by
  have hmap : (List.replicate k 48 ++ numeral base n).map UInt8.ofNat =
      (List.replicate k 0 ++ (numerals base n).reverse).map fun d => UInt8.ofNat (hexDigit d) := by
    simp [numeral, hexDigit]
  have hfold : (List.replicate k 0 ++ (numerals base n).reverse).foldl (fun a d => a * base + d) 0 = n := by
    have hzeros (k : ℕ) : (List.replicate k 0).foldl (fun a d => a * base + d) 0 = 0 := by
      induction k with
      | zero => rfl
      | succ k ih => rw [List.replicate_succ, List.foldl_cons, Nat.zero_mul, ih]
    rw [List.foldl_append, hzeros, foldl_numerals]
  have hdigits : ∀ d ∈ List.replicate k 0 ++ (numerals base n).reverse, d < base := by
    intro d hd
    rcases List.mem_append.mp hd with hz | hm
    · rw [List.eq_of_mem_replicate hz]
      omega
    · exact numerals_lt hbase n d (List.mem_reverse.mp hm)
  have hread := readDigits_hexDigits hle hdigits 0
  rw [hfold] at hread
  rw [hmap]
  exact hread

def digitsText (base k n : ℕ) : List UInt8 := (List.replicate k 48 ++ numeral base n).map UInt8.ofNat

theorem digitsText_digits (hbase : 1 < base) (hle : base ≤ 16) (k n : ℕ) :
    ∀ c ∈ digitsText base k n, ∃ d < 16, c = UInt8.ofNat (hexDigit d) := by
  intro c hc
  obtain ⟨a, ha, rfl⟩ := List.mem_map.mp hc
  rcases List.mem_append.mp ha with hz | hm
  · exact ⟨0, by decide, by rw [List.eq_of_mem_replicate hz]; rfl⟩
  · obtain ⟨d, hd, rfl⟩ := List.mem_map.mp hm
    exact ⟨d, (numerals_lt hbase n d (List.mem_reverse.mp hd)).trans_le hle, rfl⟩

theorem hexDigit_facts : ∀ d < 16, UInt8.ofNat (hexDigit d) ≠ 32 ∧ UInt8.ofNat (hexDigit d) ≠ 9 ∧
    UInt8.ofNat (hexDigit d) ≠ 43 ∧ UInt8.ofNat (hexDigit d) ≠ 45 ∧ UInt8.ofNat (hexDigit d) ≠ 120 := by decide

theorem digitsText_ne_nil (base k n : ℕ) : digitsText base k n ≠ [] := by
  rw [digitsText, numeral, numerals]
  split
  · simp
  · rename_i h
    simp [Nat.digits_ne_nil_iff_ne_zero.mpr h]

theorem skipBlanks_replicate (k : ℕ) (l : List UInt8) : skipBlanks (List.replicate k 32 ++ l) = skipBlanks l := by
  induction k with
  | zero => rfl
  | succ k ih =>
    rw [List.replicate_succ, List.cons_append, skipBlanks, if_pos (.inl rfl), ih]

/-- A numeral without sign, after any number of blanks. -/
theorem strtol_digitsText (hbase : base = 10 ∨ base = 16) (j k n : ℕ) :
    strtol (List.replicate j 32 ++ digitsText base k n) base = (int32 n, []) := by
  have h1 : 1 < base := by omega
  have hle : base ≤ 16 := by omega
  have hdigits := digitsText_digits h1 hle k n
  have hread : readDigits base 0 (digitsText base k n) = (int32 n, []) := readDigits_numeral h1 hle k n
  obtain ⟨c, l, hcl⟩ := List.exists_cons_of_ne_nil (digitsText_ne_nil base k n)
  rw [hcl] at hdigits hread
  obtain ⟨d, hd, rfl⟩ := hdigits c List.mem_cons_self
  obtain ⟨h32, h9, h43, h45, -⟩ := hexDigit_facts d hd
  have htake : (UInt8.ofNat (hexDigit d) :: l).take 2 ≠ [48, 120] := by
    cases l with
    | nil => simp
    | cons c' l =>
      obtain ⟨d', hd', rfl⟩ := hdigits c' (by simp)
      have := (hexDigit_facts d' hd').2.2.2.2
      simp [this]
  have hprefix : readPrefix base (UInt8.ofNat (hexDigit d) :: l) = ((base : ℤ), UInt8.ofNat (hexDigit d) :: l) := by
    have hzero : (base : ℤ) ≠ 0 := by omega
    rw [readPrefix, if_neg fun h => htake h.2, if_neg fun h => hzero h.1, if_neg hzero]
  simp only [strtol, skipBlanks_replicate, hcl, skipBlanks_of_ne h32 h9, readSign_of_ne h43 h45, hprefix, hread,
    Bool.false_eq_true, if_false]

/-- A numeral in `w` places. -/
def filledText (zero : Bool) (base w n : ℕ) : List UInt8 :=
  if zero then digitsText base (w - (numeral base n).length) n
  else List.replicate (w - (numeral base n).length) 32 ++ digitsText base 0 n

theorem map_padded {f : Flags} (hpadc : f.padc = fill zero) (hwidth : f.width = if w = 0 then -1 else (w : ℤ)) (hw : w < 2 ^ 31)
    (hbase : 1 < base) (hn : n < 2 ^ 64) : (padded f.width f.padc (numeral base n)).map UInt8.ofNat = filledText zero base w n := by
  have hlen := numeral_length hbase hn
  have hlo : -2 ^ 30 ≤ f.width ∧ f.width < 2 ^ 31 := by
    rw [hwidth]
    split <;> omega
  have hnat : (f.width - (numeral base n).length).toNat = w - (numeral base n).length := by
    rw [hwidth]
    split <;> omega
  rw [padded_eq _ hlo.1 hlo.2 (hlen.trans (by decide)), hnat, hpadc]
  cases zero <;> simp [filledText, digitsText, fill]

theorem strtol_filledText (hbase : base = 10 ∨ base = 16) (zero : Bool) (w n : ℕ) :
    strtol (filledText zero base w n) base = (int32 n, []) := by
  cases zero with
  | true => exact strtol_digitsText hbase 0 _ n
  | false => exact strtol_digitsText hbase _ 0 n

theorem filledText_eq (h : zero = true ∨ w ≤ (numeral base n).length) :
    filledText zero base w n = digitsText base (w - (numeral base n).length) n := by
  cases zero with
  | true => rfl
  | false =>
    have hw : w - (numeral base n).length = 0 := Nat.sub_eq_zero_of_le (h.resolve_left Bool.false_ne_true)
    rw [filledText, hw]
    rfl

/-- `readDigits` of a numeral, as `strtol` calls it. -/
theorem readDigits_digitsText (hbase : base = 10 ∨ base = 16) (k n : ℕ) :
    readDigits base 0 (digitsText base k n) = (int32 n, []) :=
  readDigits_numeral (by omega) (by omega) k n

theorem strtol_prefixed (k n : ℕ) : (strtol ([48, 120] ++ digitsText 16 k n) 16).1 = int32 n := by
  have hskip : skipBlanks (48 :: 120 :: digitsText 16 k n) = 48 :: 120 :: digitsText 16 k n :=
    skipBlanks_of_ne (by decide) (by decide)
  have hsign : readSign (48 :: 120 :: digitsText 16 k n) = (false, 48 :: 120 :: digitsText 16 k n) :=
    readSign_of_ne (by decide) (by decide)
  have hprefix : readPrefix 16 (48 :: 120 :: digitsText 16 k n) = (16, digitsText 16 k n) := by simp [readPrefix]
  have hread : readDigits 16 0 (digitsText 16 k n) = (int32 n, []) := readDigits_digitsText (.inr rfl) k n
  simp only [strtol, List.cons_append, List.nil_append, hskip, hsign, hprefix, hread, Bool.false_eq_true, if_false]

theorem strtol_prefixed_blank (hzero : zero = false) (h : (numeral 16 n).length < w) :
    (strtol ([48, 120] ++ filledText zero 16 w n) 16).1 = 0 := by
  obtain ⟨k, hk⟩ : ∃ k, w - (numeral 16 n).length = k + 1 := ⟨w - (numeral 16 n).length - 1, by omega⟩
  have htext : filledText zero 16 w n = 32 :: (List.replicate k 32 ++ digitsText 16 0 n) := by
    rw [hzero, filledText, hk]
    rfl
  generalize List.replicate k 32 ++ digitsText 16 0 n = l at htext
  have hskip : skipBlanks (48 :: 120 :: 32 :: l) = 48 :: 120 :: 32 :: l := skipBlanks_of_ne (by decide) (by decide)
  have hsign : readSign (48 :: 120 :: 32 :: l) = (false, 48 :: 120 :: 32 :: l) := readSign_of_ne (by decide) (by decide)
  have hprefix : readPrefix 16 (48 :: 120 :: 32 :: l) = (16, 32 :: l) := by simp [readPrefix]
  have hread : readDigits 16 0 (32 :: l) = (0, 32 :: l) := rfl
  simp only [strtol, htext, List.cons_append, List.nil_append, hskip, hsign, hprefix, hread, Bool.false_eq_true, if_false]

/-- A negative number, without blanks. -/
theorem strtol_negative (k n : ℕ) : (strtol (45 :: digitsText 10 k n) 10).1 = int32 (-int32 n) := by
  have hskip : skipBlanks (45 :: digitsText 10 k n) = 45 :: digitsText 10 k n := skipBlanks_of_ne (by decide) (by decide)
  have hsign : readSign (45 :: digitsText 10 k n) = (true, digitsText 10 k n) := rfl
  have hprefix : readPrefix 10 (digitsText 10 k n) = (10, digitsText 10 k n) := by simp [readPrefix]
  have hread : readDigits 10 0 (digitsText 10 k n) = (int32 n, []) := readDigits_digitsText (.inl rfl) k n
  simp only [strtol, hskip, hsign, hprefix, hread, if_true]

theorem strtol_blank (hzero : zero = false) (h : (numeral base n).length < w) :
    (strtol (45 :: filledText zero base w n) 10).1 = 0 := by
  obtain ⟨k, hk⟩ : ∃ k, w - (numeral base n).length = k + 1 := ⟨w - (numeral base n).length - 1, by omega⟩
  have htext : filledText zero base w n = 32 :: (List.replicate k 32 ++ digitsText base 0 n) := by
    rw [hzero, filledText, hk]
    rfl
  generalize List.replicate k 32 ++ digitsText base 0 n = l at htext
  have hskip : skipBlanks (45 :: 32 :: l) = 45 :: 32 :: l := skipBlanks_of_ne (by decide) (by decide)
  have hsign : readSign (45 :: 32 :: l) = (true, 32 :: l) := rfl
  have hprefix : readPrefix 10 (32 :: l) = (10, 32 :: l) := by simp [readPrefix]
  have hread : readDigits 10 0 (32 :: l) = (0, 32 :: l) := rfl
  simp only [strtol, htext, hskip, hsign, hprefix, hread, if_true]
  rfl

theorem printed_hexadecimal (hw : w < 2 ^ 31) (hn : n < 2 ^ 32) :
    printed mem errorString (numberFormat zero w .hexadecimal) n = filledText zero 16 w n := by
  obtain ⟨f, hpadc, hwidth, hlong, hout⟩ := formatted_number mem errorString zero hw .hexadecimal fun _ => n
  have hget : getuint (fun _ => n) f.lflag = (n, fun _ => n) := by
    rw [hlong, getuint, if_neg (by decide), vaArg, u32_of_lt hn]
  rw [printed, hout, Conversion.render, hget, List.flatMap_singleton, Put.text,
    map_padded hpadc hwidth hw (by decide) (hn.trans (by decide))]

theorem printed_pointer (hw : w < 2 ^ 31) (hn : n < 2 ^ 32) :
    printed mem errorString (numberFormat zero w .pointer) n = [48, 120] ++ filledText zero 16 w n := by
  obtain ⟨f, hpadc, hwidth, hlong, hout⟩ := formatted_number mem errorString zero hw .pointer fun _ => n
  have hstart : ([48, 120] : List ℕ).map UInt8.ofNat = [48, 120] := rfl
  rw [printed, hout, Conversion.render, vaArg, u32_of_lt hn, List.flatMap_singleton, Put.text, List.map_append,
    map_padded hpadc hwidth hw (by decide) (hn.trans (by decide)), hstart]

theorem printed_decimal (hw : w < 2 ^ 31) (hlo : -2 ^ 31 ≤ v) (hhi : v < 2 ^ 31) :
    printed mem errorString (numberFormat zero w .decimal) (unsigned v) = signOf v ++ filledText zero 10 w v.natAbs := by
  obtain ⟨f, hpadc, hwidth, hlong, hout⟩ := formatted_number mem errorString zero hw .decimal fun _ => unsigned v
  have hget : getint (fun _ => unsigned v) f.lflag = (v, fun _ => unsigned v) := by
    have hv : int32 (unsigned v : ℤ) = v := by
      simp only [unsigned, int32, Int.bmod]
      omega
    rw [hlong, getint, if_neg (by decide), vaArg, u32_of_lt (unsigned_lt v), hv]
  rw [printed, hout, Conversion.render, hget, List.flatMap_singleton, Put.text, List.map_append,
    map_padded hpadc hwidth hw (by decide) (by omega), signOf]
  congr 1
  split <;> rfl

theorem int32_neg_natAbs (hlo : -2 ^ 31 ≤ v) (hneg : v < 0) : int32 (-int32 v.natAbs) = v := by
  have habs : (v.natAbs : ℤ) = -v := by omega
  rw [habs]
  simp only [int32, Int.bmod]
  omega

/-- Numbers that were printed are read back, unless there are blanks between a sign or a prefix and the digits. A null pointer
is read back nevertheless. -/
theorem printed_reads_back (mem : Memory) (errorString : ℕ → ℕ) (zero : Bool) (hw : w < 2 ^ 31) :
    (∀ n < 2 ^ 32, (strtol (printed mem errorString (numberFormat zero w .hexadecimal) n) 16).1 = int32 n) ∧
    (∀ n < 2 ^ 32, ((strtol (printed mem errorString (numberFormat zero w .pointer) n) 16).1 = int32 n ↔
      zero = true ∨ n = 0 ∨ w ≤ (numeral 16 n).length)) ∧
    ∀ v, -2 ^ 31 ≤ v → v < 2 ^ 31 → ((strtol (printed mem errorString (numberFormat zero w .decimal) (unsigned v)) 10).1 = v ↔
      zero = true ∨ 0 ≤ v ∨ w ≤ (numeral 10 v.natAbs).length) := by
  refine ⟨fun n hn => ?_, fun n hn => ?_, fun v hlo hhi => ?_⟩
  · rw [printed_hexadecimal hw hn]
    have hread := strtol_filledText (.inr rfl) zero w n
    rw [Nat.cast_ofNat] at hread
    rw [hread]
  · rw [printed_pointer hw hn]
    by_cases hfits : zero = true ∨ w ≤ (numeral 16 n).length
    · rw [filledText_eq hfits, strtol_prefixed]
      exact iff_of_true rfl (hfits.imp_right .inr)
    · have hno := not_or.mp hfits
      rw [strtol_prefixed_blank (by simpa using hno.1) (by omega)]
      constructor
      · intro h
        refine .inr (.inl ?_)
        simp only [int32, Int.bmod] at h
        omega
      · rintro (h | rfl | h)
        · exact absurd h hno.1
        · rfl
        · exact absurd h hno.2
  · rw [printed_decimal hw hlo hhi, signOf]
    by_cases hneg : v < 0
    · rw [if_pos hneg]
      by_cases hfits : zero = true ∨ w ≤ (numeral 10 v.natAbs).length
      · rw [filledText_eq hfits, List.singleton_append, strtol_negative]
        exact iff_of_true (int32_neg_natAbs hlo hneg) (hfits.imp_right .inr)
      · have hno := not_or.mp hfits
        rw [List.singleton_append, strtol_blank (by simpa using hno.1) (by omega)]
        refine iff_of_false (by omega) ?_
        rintro (h | h | h)
        · exact hno.1 h
        · omega
        · exact hno.2 h
    · have hread := strtol_filledText (.inl rfl) zero w v.natAbs
      rw [Nat.cast_ofNat] at hread
      rw [if_neg hneg, List.nil_append, hread]
      refine iff_of_true ?_ (.inr (.inl (not_lt.mp hneg)))
      rw [int32_eq (by omega) (by omega)]
      omega

theorem printed_reads_back_minus :
    (strtol (printed (fun _ => 0) (fun _ => 0) (numberFormat true 8 .decimal) (unsigned (-42))) 10).1 = -42 ∧
      (strtol (printed (fun _ => 0) (fun _ => 0) (numberFormat false 8 .pointer) 42) 16).1 ≠ int32 (42 : ℕ) := by
  have hwidth : 8 < 2 ^ 31 := by decide
  obtain ⟨-, -, hdecimal⟩ := printed_reads_back (fun _ => 0) (fun _ => 0) true hwidth
  obtain ⟨-, hpointer, -⟩ := printed_reads_back (fun _ => 0) (fun _ => 0) false hwidth
  exact ⟨(hdecimal (-42) (by decide) (by decide)).mpr (.inl rfl), fun h => absurd ((hpointer 42 (by decide)).mp h) (by decide)⟩

end ReadBack

end FosKernel.Formatting
