import FosKernel.ConsoleInput
import FosKernel.Keyboard
import FosKernel.LineEditing

/-!
# Lines from the keyboard

Keys are pressed at any time, and interrupts put their characters into the ring buffer. `readline`
takes them out of it when it comes to it.
-/

namespace FosKernel.TypedLines
open CStrings ConsoleInput Terminal Keyboard LineEditing

/-- The flags of the driver, the console, and the line that `readline` is about to read. -/
structure Station where
  flags : BitVec 32
  console : Console
  line : Line
  returned : Bool

def Station.key (e : KeyEvent) (s : Station) : Station :=
  let p := receiveAll e.scanCodes ⟨s.flags, [], false⟩
  { s with flags := p.shift, console := { s.console with kbd := s.console.kbd ++ p.results.map UInt8.ofNat } }

def Station.interrupt (s : Station) : Station := { s with console := kbdIntr s.console }

/-- `readline` asks for a character, which is 0 if there is none. -/
def Station.poll (errorString : ℕ → ℕ) (buf : ℕ) (s : Station) : Station :=
  if s.returned then s
  else
    let (c, console) := consGetc s.console
    if c = 0 then { s with console := console }
    else
      let (returned, line) := step errorString buf c s.line
      { s with console := console, line := line, returned := returned }

variable {s t : Console} {out rest : List UInt8} {c : UInt8}

/-- The characters `out` were taken from the console, and `rest` is what comes from the keyboard after them. -/
def Input (s : Console) (out rest : List UInt8) : Prop := ∃ q, Holds s out q ∧ rest = q ++ chars s.kbd ∧ serialChars s = []

theorem Input.pending (h : Input s out rest) : pending s = rest.length := by
  obtain ⟨q, hholds, rfl, hserial⟩ := h
  rw [hholds.pending_eq, atDevices, hserial, List.length_nil, Nat.zero_add, List.length_append]

theorem Input.nonzero (h : Input s out rest) : ∀ c ∈ rest, c ≠ 0 := by
  obtain ⟨q, hholds, rfl, -⟩ := h
  intro c hc
  rcases List.mem_append.mp hc with hc | hc
  · exact hholds.nonzero c hc
  · exact chars_nonzero _ c hc

theorem Input.type (h : Input s out rest) (l : List UInt8) : Input { s with kbd := s.kbd ++ l } out (rest ++ chars l) := by
  obtain ⟨q, hholds, rfl, hserial⟩ := h
  have happend : chars (s.kbd ++ l) = chars s.kbd ++ chars l := List.filter_append ..
  exact ⟨q, hholds.setKbd _, by rw [List.append_assoc, ← happend], hserial⟩

theorem Input.kbdIntr (h : Input s out rest) (hlt : rest.length < consBufSize) :
    Input (kbdIntr s) out rest ∧ (ConsoleInput.kbdIntr s).kbd = [] := by
  have hpending := h.pending
  obtain ⟨q, hholds, rfl, hserial⟩ := h
  obtain ⟨hexists, hport, -⟩ := storeAll_frame s (chars s.kbd)
  have hrun : ConsoleInput.kbdIntr s = { storeAll s (chars s.kbd) with kbd := [] } :=
    keyboard.consIntr_eq (Nat.lt_succ_self s.kbd.length)
  have hafter := (kbdIntr_polled hholds (by omega)).holds
  refine ⟨⟨_, hafter, ?_, ?_⟩, by rw [hrun]⟩
  · rw [hrun]
    exact (List.append_nil _).symm
  · rw [hrun, ← hserial, serialChars, serialChars]
    simp only [hexists, hport]

/-- `cons_getc` takes the first character that waits. -/
theorem Input.getc (h : Input s out rest) (hlt : rest.length < consBufSize) :
    (consGetc s).1 = firstChar rest ∧ Input (consGetc s).2 (out ++ rest.take 1) rest.tail := by
  have hpending := h.pending
  obtain ⟨q, hholds, rfl, hserial⟩ := h
  obtain ⟨hpolled, hnone, hkbd⟩ := serialIntr_polled hholds (by omega)
  rw [hserial, List.append_nil] at hpolled
  have hport : Input (serialIntr s) out (q ++ chars s.kbd) := ⟨q, hpolled.holds, by rw [hkbd], hnone⟩
  obtain ⟨⟨q', hholds', hq', hnone'⟩, hempty⟩ := hport.kbdIntr hlt
  rw [hempty] at hq'
  obtain rfl : q ++ chars s.kbd = q' := hq'.trans (List.append_nil q')
  obtain ⟨hfirst, htaken⟩ := hholds'.take
  refine ⟨hfirst, _, htaken, ?_, ?_⟩
  · have hframe : (takeChar (ConsoleInput.kbdIntr (serialIntr s))).2.kbd = (ConsoleInput.kbdIntr (serialIntr s)).kbd := by
      rw [takeChar]
      split <;> rfl
    rw [consGetc, hframe, hempty]
    exact (List.append_nil _).symm
  · rw [← hnone', consGetc, takeChar]
    split <;> rfl

theorem chars_ofNat {l : List ℕ} (hl : ∀ c ∈ l, c < 256) : chars (l.map UInt8.ofNat) = (l.filter (· ≠ 0)).map UInt8.ofNat := by
  induction l with
  | nil => rfl
  | cons a l ih =>
    have ha := hl a List.mem_cons_self
    have hrest := ih fun c hc => hl c (List.mem_cons_of_mem a hc)
    by_cases h0 : a = 0
    · rw [h0, List.filter_cons_of_neg (by simp), List.map_cons]
      exact (chars_cons_zero _).trans hrest
    · have hne : UInt8.ofNat a ≠ 0 := fun h => h0 (by simpa [UInt8.toNat_ofNat_of_lt' ha] using congrArg UInt8.toNat h)
      rw [List.map_cons, chars_cons hne, hrest, List.filter_cons_of_pos (by simpa using h0), List.map_cons]

/-- What was typed with the flags of the driver, as the bytes of the ring buffer. -/
def typedBytes (past es : List KeyEvent) : List UInt8 := (typedFrom modifiersAfter past es).map UInt8.ofNat

theorem typedBytes_nonzero (past es : List KeyEvent) : ∀ c ∈ typedBytes past es, c ≠ 0 := by
  have htyped (past es : List KeyEvent) : ∀ n ∈ typedFrom modifiersAfter past es, n ≠ 0 ∧ n < 256 := by
    induction es generalizing past with
    | nil => exact fun _ hn => absurd hn List.not_mem_nil
    | cons e es ih =>
      intro n hn
      rw [typedFrom] at hn
      rcases List.mem_append.mp hn with hn | hn
      · split at hn
        · obtain ⟨hmem, hne⟩ := List.mem_filter.mp hn
          rw [List.mem_singleton.mp hmem] at hne ⊢
          exact ⟨by simpa using hne, character_lt _ _⟩
        · exact absurd hn List.not_mem_nil
      · exact ih _ n hn
  intro c hc h0
  obtain ⟨n, hn, rfl⟩ := List.mem_map.mp hc
  obtain ⟨hne, hlt⟩ := htyped past es n hn
  exact hne ((UInt8.toNat_ofNat_of_lt' hlt).symm.trans (congrArg UInt8.toNat h0))

section Runs

variable (errorString : ℕ → ℕ) (buf : ℕ)

/-- Runs of the station with the keys that were pressed and released. No more characters wait than the ring buffer can hold, and no
key reboots the machine. -/
inductive TypingRun (s₀ : Station) : Station → List KeyEvent → Prop
  | start : TypingRun s₀ s₀ []
  | key {s : Station} {es : List KeyEvent} (e : KeyEvent) (legal : e.Legal) (run : TypingRun s₀ s es)
      (stays : (receiveAll e.scanCodes ⟨s.flags, [], false⟩).reboot = false) (room : pending (s.key e).console < consBufSize) :
      TypingRun s₀ (s.key e) (es ++ [e])
  | interrupt {s : Station} {es : List KeyEvent} (run : TypingRun s₀ s es) : TypingRun s₀ s.interrupt es
  | poll {s : Station} {es : List KeyEvent} (run : TypingRun s₀ s es) : TypingRun s₀ (s.poll errorString buf) es

/-- The line that `readline` has after the characters `out`. -/
def Reading (line₀ : Line) (out : List UInt8) (s : Station) : Prop :=
  if s.returned then readLoop errorString buf (outcome out) line₀ = some (s.line, [])
  else readLoop errorString buf (outcome out) line₀ = none ∧ s.line = typeAll errorString buf (outcome out) line₀

/-- What was typed is in the line, or it waits. -/
structure Follows (past : List KeyEvent) (line₀ : Line) (s : Station) (es : List KeyEvent) : Prop where
  flags : s.flags = (modifiersAfter (past ++ es)).word
  typed : ∃ out rest, typedBytes past es = out ++ rest ∧ Input s.console out rest ∧ rest.length < consBufSize ∧
    Reading errorString buf line₀ out s

variable {errorString buf} {past es : List KeyEvent} {line₀ : Line} {s₀ s : Station} {e : KeyEvent} {mem : Memory}
    {p : List UInt8}

theorem typedFrom_append (past es es' : List KeyEvent) :
    typedFrom modifiersAfter past (es ++ es') = typedFrom modifiersAfter past es ++ typedFrom modifiersAfter (past ++ es) es' := by
  induction es generalizing past with
  | nil => rw [List.nil_append, List.append_nil, typedFrom, List.nil_append]
  | cons e es ih =>
    rw [List.cons_append, typedFrom, typedFrom, ih, List.append_assoc, List.append_assoc]
    rfl

theorem Follows.key (h : Follows errorString buf past line₀ s es) (hlegal : e.Legal)
    (hroom : pending (s.key e).console < consBufSize) :
    Follows errorString buf past line₀ (s.key e) (es ++ [e]) := by
  obtain ⟨hflags, out, rest, htyped, hinput, -, hreading⟩ := h
  have hstart : Decodes ⟨s.flags, [], false⟩ ⟨modifiersAfter (past ++ es), [], false⟩ := ⟨hflags, rfl, rfl⟩
  have hlegal' : ∀ e' ∈ [e], e'.Legal := fun e' he' => List.mem_singleton.mp he' ▸ hlegal
  have hdecodes := hstart.strikeAll hlegal'
  rw [List.flatMap_singleton, foldl_strike] at hdecodes
  obtain ⟨hword, htext, -⟩ := hdecodes
  set q := receiveAll e.scanCodes ⟨s.flags, [], false⟩ with hq
  have hlt : ∀ c ∈ q.results, c < 256 := receiveAll_lt _ fun _ hc => absurd hc List.not_mem_nil
  have hchars : chars (q.results.map UInt8.ofNat) = (typedFrom modifiersAfter (past ++ es) [e]).map UInt8.ofNat := by
    rw [chars_ofNat hlt, htext]
    rfl
  have hnext : Input (s.key e).console out (rest ++ (typedFrom modifiersAfter (past ++ es) [e]).map UInt8.ofNat) := by
    rw [← hchars]
    exact hinput.type _
  refine ⟨by rw [← List.append_assoc]; exact hword, out, _, ?_, hnext, hnext.pending ▸ hroom, hreading⟩
  rw [typedBytes, typedFrom_append, List.map_append, ← List.append_assoc, ← htyped]
  rfl

theorem Follows.interrupt (h : Follows errorString buf past line₀ s es) :
    Follows errorString buf past line₀ s.interrupt es := by
  obtain ⟨hflags, out, rest, htyped, hinput, hlt, hreading⟩ := h
  exact ⟨hflags, out, rest, htyped, (hinput.kbdIntr hlt).1, hlt, hreading⟩

/-- One more character for `readline`. -/
theorem readLoop_concat {cs : List ℤ} {c : ℤ} {l : Line} (h : readLoop errorString buf cs l = none) :
    readLoop errorString buf (cs ++ [c]) l =
      if (step errorString buf c (typeAll errorString buf cs l)).1 then
        some ((step errorString buf c (typeAll errorString buf cs l)).2, [])
      else none := by
  induction cs generalizing l with
  | nil => rfl
  | cons a cs ih =>
    rw [readLoop] at h
    rw [List.cons_append, readLoop]
    split at h
    · exact absurd h (Option.some_ne_none _)
    · rename_i hgo
      rw [if_neg hgo, ih h]
      rfl

theorem typeAll_concat (cs : List ℤ) (c : ℤ) (l : Line) :
    typeAll errorString buf (cs ++ [c]) l = (step errorString buf c (typeAll errorString buf cs l)).2 := List.foldl_append

theorem Follows.poll (h : Follows errorString buf past line₀ s es) :
    Follows errorString buf past line₀ (s.poll errorString buf) es := by
  obtain ⟨hflags, out, rest, htyped, hinput, hlt, hreading⟩ := h
  rw [Station.poll]
  cases hreturned : s.returned with
  | true => exact ⟨hflags, out, rest, htyped, hinput, hlt, hreading⟩
  | false =>
    rw [Reading, hreturned, if_neg Bool.false_ne_true] at hreading
    obtain ⟨hwaits, hline⟩ := hreading
    obtain ⟨hfirst, hnext⟩ := hinput.getc hlt
    have hzero := firstChar_eq_zero hinput.nonzero
    simp only [Bool.false_eq_true, if_false]
    rw [hfirst]
    cases rest with
    | nil =>
      rw [if_pos (hzero.mpr rfl)]
      rw [List.take_nil, List.append_nil] at hnext
      refine ⟨hflags, out, [], htyped, hnext, hlt, ?_⟩
      rw [Reading, if_neg (by simp)]
      exact ⟨hwaits, hline⟩
    | cons c rest =>
      rw [if_neg (mt hzero.mp (List.cons_ne_nil c rest))]
      rw [List.take_succ_cons, List.take_zero, List.tail_cons] at hnext
      rw [List.length_cons] at hlt
      refine ⟨hflags, out ++ [c], rest, by rw [htyped, List.append_assoc]; rfl, hnext, by omega, ?_⟩
      have houtcome : outcome (out ++ [c]) = outcome out ++ [(c.toNat : ℤ)] := by rw [outcome, List.map_append]; rfl
      have hloop := readLoop_concat (c := (c.toNat : ℤ)) hwaits
      have hchar : firstChar (c :: rest) = (c.toNat : ℤ) := rfl
      rw [← houtcome, ← hline] at hloop
      rw [Reading, hchar]
      cases hstep : (step errorString buf c.toNat s.line).1 with
      | true =>
        rw [hstep, if_pos rfl] at hloop
        rw [if_pos rfl]
        exact hloop
      | false =>
        rw [hstep, if_neg Bool.false_ne_true] at hloop
        rw [if_neg Bool.false_ne_true]
        refine ⟨hloop, ?_⟩
        rw [houtcome, typeAll_concat, ← hline]

theorem TypingRun.polls (h : TypingRun errorString buf s₀ s es) (n : ℕ) :
    TypingRun errorString buf s₀ ((Station.poll errorString buf)^[n] s) es := by
  induction n generalizing s with
  | zero => exact h
  | succ n ih => exact ih h.poll

theorem TypingRun.follows (h : TypingRun errorString buf s₀ s es) (hstart : Follows errorString buf past line₀ s₀ []) :
    Follows errorString buf past line₀ s es := by
  induction h with
  | start => exact hstart
  | key e legal _ _ room ih => exact ih.key legal room
  | interrupt _ ih => exact ih.interrupt
  | poll _ ih => exact ih.poll

/-- `readline` is about to read a line behind the prompt `p`. -/
structure AtPrompt (errorString : ℕ → ℕ) (past : List KeyEvent) (mem : Memory) (prompt : ℕ) (p : List UInt8) (d : Display)
    (s : Station) : Prop where
  flags : s.flags = (modifiersAfter past).word
  console : Input s.console [] []
  line : s.line = ⟨mem, 0, showPrompt errorString mem prompt d⟩
  reading : s.returned = false
  asks : Prompt mem prompt p
  onScreen : d.crtPos < crtSize
  cursor : d.registers 14 * 2 ^ 8 + d.registers 15 = d.crtPos

def Newline (c : UInt8) : Prop := c = 10 ∨ c = 13

variable {prompt : ℕ} {d : Display} {bytes : List UInt8}

theorem AtPrompt.follows (h : AtPrompt errorString past mem prompt p d s₀) : Follows errorString buf past s₀.line s₀ [] := by
  refine ⟨by rw [List.append_nil]; exact h.flags, [], [], rfl, h.console, by decide, ?_⟩
  rw [Reading, if_neg (by simp [h.reading])]
  exact ⟨rfl, rfl⟩

theorem inLine_of_not_newline {c : UInt8} (h0 : c ≠ 0) (hc : ¬Newline c) : InLine c.toNat := by
  obtain ⟨h10, h13⟩ := not_or.mp hc
  have hpos := toNat_ne_zero h0
  have hlt := c.toNat_lt
  have hne (n : ℕ) (hn : n < 256) (h : c ≠ UInt8.ofNat n) : c.toNat ≠ n := by
    intro heq
    exact h (UInt8.toNat_inj.mp (heq.trans (UInt8.toNat_ofNat_of_lt' hn).symm))
  have hne10 := hne 10 (by decide) h10
  have hne13 := hne 13 (by decide) h13
  exact ⟨by omega, by omega, by omega, by omega⟩

theorem inLine_outcome (h0 : ∀ c ∈ out, c ≠ 0) (hc : ∀ c ∈ out, ¬Newline c) : ∀ c ∈ outcome out, InLine c := by
  intro c hmem
  obtain ⟨a, ha, rfl⟩ := List.mem_map.mp hmem
  exact inLine_of_not_newline (h0 a ha) (hc a ha)

theorem exists_newline (l : List UInt8) :
    (∀ c ∈ l, ¬Newline c) ∨ ∃ cs e rest, l = cs ++ e :: rest ∧ (∀ c ∈ cs, ¬Newline c) ∧ Newline e := by
  induction l with
  | nil => exact .inl fun _ hc => absurd hc List.not_mem_nil
  | cons a l ih =>
    by_cases ha : Newline a
    · exact .inr ⟨[], a, l, rfl, fun _ hc => absurd hc List.not_mem_nil, ha⟩
    · rcases ih with hnone | ⟨cs, e, rest, rfl, hcs, he⟩
      · exact .inl (List.forall_mem_cons.mpr ⟨ha, hnone⟩)
      · exact .inr ⟨a :: cs, e, rest, rfl, List.forall_mem_cons.mpr ⟨ha, hcs⟩, he⟩

/-- `readline` goes on in the line. -/
theorem AtPrompt.waits (h : AtPrompt errorString past mem prompt p d s₀) (h0 : ∀ c ∈ out, c ≠ 0)
    (hout : ∀ c ∈ out, ¬Newline c) :
    readLoop errorString buf (outcome out) s₀.line = none := by
  obtain ⟨r, hstart⟩ := h.asks.typing errorString buf (.start h.onScreen h.cursor)
  rw [h.line, ← List.append_nil (outcome out), hstart.readLoop errorString h.asks.short (inLine_outcome h0 hout), readLoop]

/-- `readline` returns at the end of the line. -/
theorem AtPrompt.returns {cs : List UInt8} {e : UInt8} (h : AtPrompt errorString past mem prompt p d s₀) (rest : List UInt8)
    (h0 : ∀ c ∈ cs, c ≠ 0) (hcs : ∀ c ∈ cs, ¬Newline c) (he : Newline e) :
    ∃ t, readLoop errorString buf (outcome (cs ++ e :: rest)) s₀.line = some (t, outcome rest) ∧
      HoldsString t.mem buf ((outcome cs).foldl edit []) := by
  obtain ⟨r, hstart⟩ := h.asks.typing errorString buf (.start h.onScreen h.cursor)
  have hinLine := inLine_outcome h0 hcs
  obtain ⟨r', htyping⟩ := hstart.typeAll errorString h.asks.short hinLine
  have hnewline : (e.toNat : ℤ) = 10 ∨ (e.toNat : ℤ) = 13 := by
    rcases he with rfl | rfl
    · exact .inl rfl
    · exact .inr rfl
  obtain ⟨t, hend, hholds, -⟩ :=
    htyping.close errorString (foldl_edit_nonzero hinLine fun a ha => absurd ha List.not_mem_nil) hnewline
  have houtcome : outcome (cs ++ e :: rest) = outcome cs ++ (e.toNat : ℤ) :: outcome rest := by
    rw [outcome, List.map_append]
    rfl
  refine ⟨t, ?_, hholds⟩
  rw [houtcome, h.line, hstart.readLoop errorString h.asks.short hinLine, readLoop, hend, if_pos rfl]

/-- What `readline` has returned is the first line that was typed, and the rest of what was typed waits. -/
theorem AtPrompt.returned (h : AtPrompt errorString past mem prompt p d s₀) (hs : Follows errorString buf past s₀.line s es)
    (hreturned : s.returned = true) : ∃ cs e rest, typedBytes past es = cs ++ e :: rest ∧ (∀ c ∈ cs, ¬Newline c) ∧ Newline e ∧
      HoldsString s.line.mem buf ((outcome cs).foldl edit []) ∧ Input s.console (cs ++ [e]) rest := by
  obtain ⟨-, out, rest, htyped, hinput, -, hreading⟩ := hs
  rw [Reading, if_pos hreturned] at hreading
  have h0 (c : UInt8) (hc : c ∈ out) : c ≠ 0 := typedBytes_nonzero past es c (htyped ▸ List.mem_append_left rest hc)
  rcases exists_newline out with hnone | ⟨cs, e, late, rfl, hcs, he⟩
  · rw [h.waits h0 hnone] at hreading
    exact absurd hreading.symm (Option.some_ne_none _)
  · obtain ⟨t, hloop, hholds⟩ := h.returns late (fun c hc => h0 c (List.mem_append_left _ hc)) hcs he
    rw [hloop] at hreading
    obtain ⟨rfl, hlate⟩ := Prod.mk.inj (Option.some.inj hreading)
    obtain rfl : late = [] := List.map_eq_nil_iff.mp hlate
    exact ⟨cs, e, rest, by rw [htyped, List.append_assoc]; rfl, hcs, he, hholds, hinput⟩

/-- `readline` has returned, or fewer characters wait. -/
theorem Follows.poll_pending (h : Follows errorString buf past line₀ s es) :
    (s.poll errorString buf).returned = true ∨ pending (s.poll errorString buf).console = pending s.console - 1 := by
  obtain ⟨-, out, rest, -, hinput, hlt, -⟩ := h
  have hrest := hinput.pending
  rw [Station.poll]
  cases hreturned : s.returned with
  | true => exact .inl hreturned
  | false =>
    obtain ⟨-, hnext⟩ := hinput.getc hlt
    have htail := hnext.pending
    rw [List.length_tail, ← hrest] at htail
    refine .inr ?_
    simp only [Bool.false_eq_true, if_false]
    split <;> exact htail

/-- With the end of a line among the characters that were typed, `readline` returns if it asks often enough. -/
theorem AtPrompt.progress {n : ℕ} (h : AtPrompt errorString past mem prompt p d s₀)
    (hs : Follows errorString buf past s₀.line s es)
    (hnewline : ∃ c ∈ typedBytes past es, Newline c) (hn : pending s.console ≤ n) :
    ((Station.poll errorString buf)^[n] s).returned = true := by
  induction n generalizing s with
  | zero =>
    obtain ⟨-, out, rest, htyped, hinput, -, hreading⟩ := hs
    have hrest := hinput.pending
    obtain rfl : rest = [] := List.eq_nil_of_length_eq_zero (by omega)
    rw [List.append_nil] at htyped
    by_contra hno
    rw [Function.iterate_zero, id_eq] at hno
    rw [Reading, if_neg hno] at hreading
    rcases exists_newline out with hnone | ⟨cs, e, late, rfl, hcs, he⟩
    · obtain ⟨c, hc, hnl⟩ := hnewline
      exact hnone c (htyped ▸ hc) hnl
    · have h0 (c : UInt8) (hc : c ∈ cs) : c ≠ 0 := typedBytes_nonzero past es c (htyped ▸ List.mem_append_left _ hc)
      obtain ⟨t, hloop, -⟩ := h.returns late h0 hcs he
      exact absurd (hloop.symm.trans hreading.1) (Option.some_ne_none _)
  | succ n ih =>
    rw [Function.iterate_succ_apply]
    rcases hs.poll_pending with hreturned | hpending
    · have hfixed : Station.poll errorString buf (s.poll errorString buf) = s.poll errorString buf := by
        rw [Station.poll, if_pos hreturned]
      rw [Function.iterate_fixed hfixed]
      exact hreturned
    · exact ih hs.poll (by omega)

/-- Whenever keys are pressed and interrupts come, `readline` returns the first line that was typed, when it has asked often enough.
No character is lost. -/
theorem typed_line {n : ℕ} (h : AtPrompt errorString past mem prompt p d s₀) (hs : TypingRun errorString buf s₀ s es)
    (hn : pending s.console ≤ n) :
    (s.returned = true → ∃ cs e rest, typedBytes past es = cs ++ e :: rest ∧ (∀ c ∈ cs, ¬Newline c) ∧
      Newline e ∧ HoldsString s.line.mem buf ((outcome cs).foldl edit []) ∧ Input s.console (cs ++ [e]) rest) ∧
    ((∃ c ∈ typedBytes past es, Newline c) ↔ ((Station.poll errorString buf)^[n] s).returned = true) := by
  have hfollows := hs.follows h.follows
  refine ⟨h.returned hfollows, fun hnewline => h.progress hfollows hnewline hn, fun hreturned => ?_⟩
  obtain ⟨cs, e, rest, htyped, -, he, -⟩ := h.returned (hs.polls n |>.follows h.follows) hreturned
  exact ⟨e, htyped ▸ List.mem_append_right cs List.mem_cons_self, he⟩

theorem foldl_edit_printable {cs : List UInt8} (hcs : ∀ c ∈ cs, 32 ≤ c.toNat) {l : List UInt8} (hl : l.length ≤ bufLen - 1) :
    (outcome cs).foldl edit l = l ++ cs.take (bufLen - 1 - l.length) := by
  induction cs generalizing l with
  | nil => rw [List.take_nil, List.append_nil]; rfl
  | cons c cs ih =>
    have hc := hcs c List.mem_cons_self
    have hrest := fun d hd => hcs d (List.mem_cons_of_mem c hd)
    have hbyte : UInt8.ofNat (unsigned (c.toNat : ℤ)) = c := ofNat_unsigned c
    have houtcome : outcome (c :: cs) = (c.toNat : ℤ) :: outcome cs := rfl
    rw [houtcome, List.foldl_cons, edit]
    by_cases hroom : l.length < bufLen - 1
    · obtain ⟨k, hk⟩ : ∃ k, bufLen - 1 - l.length = k + 1 := ⟨bufLen - 1 - l.length - 1, by omega⟩
      rw [if_pos ⟨by omega, hroom⟩, hbyte, ih hrest (by rw [List.length_append, List.length_singleton]; omega), hk,
        List.take_succ_cons,
        List.append_assoc, List.singleton_append, List.length_append, List.length_singleton]
      congr 3
      omega
    · have hfull : bufLen - 1 - l.length = 0 := by omega
      rw [if_neg fun h => hroom h.2, if_neg (by omega), ih hrest hl, hfull, List.take_zero, List.take_zero]

theorem newline_split {l cs rest : List UInt8} {b e : UInt8} (h : l ++ [b] = cs ++ e :: rest)
    (hl : ∀ c ∈ l, ¬Newline c) (he : Newline e) :
    cs = l := by
  rcases List.eq_nil_or_concat' rest with rfl | ⟨rest, a, rfl⟩
  · exact (List.append_inj_left' h rfl).symm
  · rw [← List.cons_append, ← List.append_assoc] at h
    have hl' : l = cs ++ e :: rest := List.append_inj_left' h rfl
    exact absurd he (hl e (hl' ▸ List.mem_append_right cs List.mem_cons_self))

/-- The characters of a text, with the case of the letters swapped if they are locked. -/
def textBytes (past : List KeyEvent) (w : List ℕ) : List UInt8 :=
  w.map fun c => UInt8.ofNat (if (modifiersAfter past).caps then swapCase c else c)

theorem typedBytes_text {w : List ℕ} (hshift : (modifiersAfter past).shift = false) (hctl : (modifiersAfter past).ctl = false)
    (hw : ∀ c ∈ w, Typable c) : typedBytes past (w.flatMap strokes) = textBytes past w := by
  have hkeys := foldl_strike (w.flatMap strokes) past [] false
  rw [foldl_typing hshift hctl hw] at hkeys
  have htext : w.map (fun c => if (modifiersAfter past).caps then swapCase c else c) = typedFrom modifiersAfter past (w.flatMap strokes) :=
    congrArg Keys.text hkeys
  rw [typedBytes, ← htext, List.map_map]
  rfl

theorem textBytes_printable {w : List ℕ} (past : List KeyEvent) (hw : ∀ c ∈ w, 32 ≤ c ∧ c < 127) :
    ∀ c ∈ textBytes past w, 32 ≤ c.toNat := by
  intro c hc
  obtain ⟨n, hn, rfl⟩ := List.mem_map.mp hc
  have hn := hw n hn
  have hswap := swapCase_printable hn
  cases (modifiersAfter past).caps with
  | true => exact (UInt8.toNat_ofNat_of_lt' (show swapCase n < 2 ^ 8 by omega)).symm ▸ hswap.1
  | false => exact (UInt8.toNat_ofNat_of_lt' (show n < 2 ^ 8 by omega)).symm ▸ hn.1

theorem not_newline_of_le {c : UInt8} (h : 32 ≤ c.toNat) : ¬Newline c := by
  rintro (rfl | rfl) <;> exact absurd h (by decide)

/-- A line that is typed at the keyboard is read, up to the size of the buffer. -/
theorem keyboard_line {w : List ℕ} {n : ℕ} (hw : ∀ c ∈ w, 32 ≤ c ∧ c < 127) (hshift : (modifiersAfter past).shift = false)
    (hctl : (modifiersAfter past).ctl = false) (h : AtPrompt errorString past mem prompt p d s₀)
    (hs : TypingRun errorString buf s₀ s ((w ++ [10]).flatMap strokes)) (hn : pending s.console ≤ n) :
    ((Station.poll errorString buf)^[n] s).returned = true ∧
      HoldsString ((Station.poll errorString buf)^[n] s).line.mem buf ((textBytes past w).take (bufLen - 1)) := by
  have hprintable := textBytes_printable past hw
  have htypable : ∀ c ∈ w ++ [10], Typable c := by
    intro c hc
    rcases List.mem_append.mp hc with hc | hc
    · exact typable_printable c (hw c hc).2 (hw c hc).1
    · exact List.mem_singleton.mp hc ▸ typable_newline
  have htext : typedBytes past ((w ++ [10]).flatMap strokes) = textBytes past w ++ [10] := by
    have hend : textBytes past [10] = [10] := by
      rw [textBytes]
      cases (modifiersAfter past).caps <;> rfl
    rw [typedBytes_text hshift hctl htypable, ← hend, textBytes, List.map_append]
    rfl
  have hfollows := hs.follows h.follows
  have hnewline : ∃ c ∈ typedBytes past ((w ++ [10]).flatMap strokes), Newline c :=
    ⟨10, htext ▸ List.mem_append_right _ List.mem_cons_self, .inl rfl⟩
  have hreturned := h.progress hfollows hnewline hn
  obtain ⟨cs, e, rest, hsplit, -, he, hholds, -⟩ := h.returned ((hs.polls n).follows h.follows) hreturned
  obtain rfl := newline_split (htext.symm.trans hsplit) (fun c hc => not_newline_of_le (hprintable c hc)) he
  rw [foldl_edit_printable hprintable (Nat.zero_le _)] at hholds
  exact ⟨hreturned, hholds⟩

def station : Station :=
  ⟨0, noInput, ⟨promptMemory, 0, showPrompt (fun _ => 0) promptMemory 4096 lastCell⟩, false⟩

theorem station_atPrompt : AtPrompt (fun _ => 0) [] promptMemory 4096 fosPrompt lastCell station where
  flags := rfl
  console := ⟨[], ⟨Ring.nil (by decide) _, rfl, fun _ hc => absurd hc List.not_mem_nil⟩, rfl, rfl⟩
  line := rfl
  reading := rfl
  asks := prompt_fos
  onScreen := by decide
  cursor := by decide

/-- A letter and the end of the line are typed. -/
def typedEvents : List KeyEvent := [⟨0x1E, true⟩, ⟨0x1E, false⟩, ⟨0x1C, true⟩, ⟨0x1C, false⟩]

theorem typedEvents_eq : ([97] ++ [10]).flatMap strokes = typedEvents := by decide +kernel

def typedStation : Station := typedEvents.foldl (fun s e => s.key e) station

theorem typedStation_run : TypingRun (fun _ => 0) 8192 station typedStation typedEvents := by
  have hstart : TypingRun (fun _ => 0) 8192 station station [] := .start
  have hdown := hstart.key ⟨0x1E, true⟩ (by decide) (by decide +kernel) (by decide +kernel)
  have hup := hdown.key ⟨0x1E, false⟩ (by decide) (by decide +kernel) (by decide +kernel)
  have henter := hup.key ⟨0x1C, true⟩ (by decide) (by decide +kernel) (by decide +kernel)
  exact henter.key ⟨0x1C, false⟩ (by decide) (by decide +kernel) (by decide +kernel)

theorem typed_line_letter : ((Station.poll (fun _ => 0) 8192)^[2] typedStation).returned = true := by
  refine (typed_line station_atPrompt typedStation_run (by decide +kernel)).2.mp ⟨10, ?_, .inl rfl⟩
  decide +kernel

theorem keyboard_line_letter : HoldsString ((Station.poll (fun _ => 0) 8192)^[2] typedStation).line.mem 8192 [97] := by
  have hrun : TypingRun (fun _ => 0) 8192 station typedStation (([97] ++ [10]).flatMap strokes) :=
    typedEvents_eq ▸ typedStation_run
  have hw : ∀ c ∈ [97], 32 ≤ c ∧ c < 127 := by simp
  exact (keyboard_line hw rfl rfl station_atPrompt hrun (by decide +kernel)).2

end Runs

end FosKernel.TypedLines
