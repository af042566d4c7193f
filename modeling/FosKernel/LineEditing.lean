import FosKernel.FormattedOutput

/-!
# Reading a line

`readline` collects the characters that are typed, shows them, and takes back those that are
erased.
-/

namespace FosKernel.LineEditing
open CStrings Terminal Formatting

def bufLen : ℕ := 1024

/-- The memory, how much of the line is in it, and the display. -/
structure Line where
  mem : Memory
  i : ℕ
  display : Display

/-- `"read error: %e\n"` -/
def readErrorFormat : List UInt8 := [114, 101, 97, 100, 32, 101, 114, 114, 111, 114, 58, 32, 37, 101, 10]

section Reading

variable (errorString : ℕ → ℕ) (buf : ℕ)

/-- `if (echoing) cputchar(c)`; the console always echoes. -/
def echo (c : ℤ) (s : Line) : Line := { s with display := consPutc (unsigned c) s.display }

/-- What `readline` does with a character, and whether it returns. `-E_EOF` is 7. -/
def step (c : ℤ) (s : Line) : Bool × Line :=
  if c < 0 then
    (true, if c ≠ 7 then
      { s with display := (cprintf s.mem errorString readErrorFormat (fun _ => unsigned c) s.display).2 } else s)
  else if 32 ≤ c ∧ s.i < bufLen - 1 then
    let s := echo c s
    (false, { s with mem := Function.update s.mem (buf + s.i) (UInt8.ofNat (unsigned c)), i := s.i + 1 })
  else if c = 8 ∧ 0 < s.i then
    let s := echo c s
    (false, { s with i := s.i - 1 })
  else if c = 10 ∨ c = 13 then
    let s := echo c s
    (true, { s with mem := Function.update s.mem (buf + s.i) 0 })
  else (false, s)

/-- The loop, with what `getchar` returns; `none` if it has to wait for more. -/
def readLoop : List ℤ → Line → Option (Line × List ℤ)
  | [], _ => none
  | c :: cs, s =>
    if (step errorString buf c s).1 then some ((step errorString buf c s).2, cs)
    else readLoop cs (step errorString buf c s).2

/-- The prompt is shown, unless it is `NULL`. -/
def showPrompt (mem : Memory) (prompt : ℕ) (d : Display) : Display :=
  if prompt ≠ 0 then (cprintf mem errorString [37, 115] (fun _ => prompt) d).2 else d

/-- `readline`, and the characters that it leaves. -/
def readline (mem : Memory) (prompt : ℕ) (cs : List ℤ) (d : Display) : Option (Line × List ℤ) :=
  readLoop errorString buf cs ⟨mem, 0, showPrompt errorString mem prompt d⟩

end Reading

def edit (l : List UInt8) (c : ℤ) : List UInt8 :=
  if 32 ≤ c ∧ l.length < bufLen - 1 then l ++ [UInt8.ofNat (unsigned c)] else if c = 8 then l.dropLast else l

def InLine (c : ℤ) : Prop := 0 < c ∧ c < 256 ∧ c ≠ 10 ∧ c ≠ 13

def cellOf (c : UInt8) : ℕ := 0x0700 ||| c.toNat

variable (errorString : ℕ → ℕ) {buf : ℕ} {s t : Line} {l : List UInt8} {c : ℤ} {r r₀ : Roll} {m : ℕ → ℕ} {mem : Memory}

/-- The text `l` was printed on the roll, and nothing of it has left the window. -/
structure Printed (r₀ : Roll) (l : List UInt8) (r : Roll) : Prop where
  pos : r.pos = r₀.pos + l.length
  shown : ∀ k (hk : k < l.length), r.cell (r₀.pos + k) = cellOf l[k]
  before : ∀ j < r₀.pos, r.cell j = r₀.cell j
  top : crtCols * r.top ≤ r₀.pos

theorem put_printable {c : ℕ} (hlo : 32 ≤ c) (hhi : c < 256) (r : Roll) :
    r.put c = (r.write r.pos (0x0700 ||| c)).moveTo (r.pos + 1) := by
  have hmod : c % 2 ^ 8 = c := Nat.mod_eq_of_lt hhi
  have hcell : attributed c % 2 ^ 16 = 0x0700 ||| c := by
    have hor : c ||| 0x0700 < 2 ^ 16 := Nat.or_lt_two_pow (by omega) (by decide)
    rw [attributed, if_pos (by omega), Nat.mod_eq_of_lt hor, Nat.or_comm]
  rw [Roll.put, if_neg (by omega), Roll.type, if_neg (by omega), if_neg (by omega), if_neg (by omega), hcell]

theorem put_erase (h : crtCols * r.top < r.pos) : r.put 8 = (r.write (r.pos - 1) blank).moveTo (r.pos - 1) := by
  rw [Roll.put, if_neg (by decide), Roll.type, if_pos (by decide), if_pos h]
  rfl

theorem moveTo_top {p q : ℕ} (h : crtCols * r.top ≤ q) (hp : p ≤ q + (crtSize - crtCols)) :
    crtCols * (r.moveTo p).top ≤ q := by
  simp only [Roll.moveTo, crtSize, crtCols, crtRows] at h hp ⊢
  omega

theorem Printed.push {n : ℕ} (h : Printed r₀ l r) (hlo : 32 ≤ n) (hhi : n < 256) (hroom : l.length < crtSize - crtCols) :
    Printed r₀ (l ++ [UInt8.ofNat n]) (r.put n) := by
  have hcell : cellOf (UInt8.ofNat n) = 0x0700 ||| n := by
    rw [cellOf, UInt8.toNat_ofNat_of_lt' hhi]
  have hpos := h.pos
  have hlen : (l ++ [UInt8.ofNat n]).length = l.length + 1 := by rw [List.length_append, List.length_singleton]
  rw [put_printable hlo hhi]
  refine ⟨?_, fun k hk => ?_, fun j hj => ?_, moveTo_top h.top (by omega)⟩
  · rw [hlen, ← Nat.add_assoc, ← hpos]
    rfl
  · rw [hlen] at hk
    show Function.update r.cell r.pos _ _ = _
    by_cases hkl : k < l.length
    · rw [List.getElem_append_left hkl, ← h.shown k hkl]
      exact Function.update_of_ne (by omega) ..
    · obtain rfl : k = l.length := by omega
      simp [hpos, hcell]
  · exact (Function.update_of_ne (by omega) ..).trans (h.before j hj)

theorem Printed.pop {a : UInt8} (h : Printed r₀ (l ++ [a]) r) (hroom : l.length < crtSize - crtCols) :
    Printed r₀ l (r.put 8) := by
  have hpos := h.pos
  have htop := h.top
  rw [List.length_append, List.length_singleton] at hpos
  rw [put_erase (by omega)]
  refine ⟨?_, fun k hk => ?_, fun j hj => ?_, moveTo_top htop (by omega)⟩
  · show r.pos - 1 = _
    omega
  · have hshown := h.shown k (by rw [List.length_append]; omega)
    rw [List.getElem_append_left hk] at hshown
    exact (Function.update_of_ne (by omega) ..).trans hshown
  · exact (Function.update_of_ne (by omega) ..).trans (h.before j hj)

theorem Printed.visible {d : Display} (h : Printed r₀ l r) (hw : Window m d r) : l.length ≤ d.crtPos ∧ d.crtPos < crtSize ∧
    ∀ k (hk : k < l.length), d.crtBuf (d.crtPos - l.length + k) = cellOf l[k] := by
  have hpos := h.pos
  have hwindow := hw.pos
  have htop := h.top
  have hlt := hw.lt
  refine ⟨by omega, hlt, fun k hk => ?_⟩
  rw [← h.shown k hk, hw.cells _ (by omega)]
  exact congrArg r.cell (by omega)

/-- The line is in the buffer, and on the screen behind the prompt `p`. -/
structure Typing (buf : ℕ) (mem : Memory) (m : ℕ → ℕ) (r₀ : Roll) (p l : List UInt8) (s : Line) (r : Roll) : Prop where
  i : s.i = l.length
  fits : l.length ≤ bufLen - 1
  buffer : ∀ k (hk : k < l.length), s.mem (buf + k) = l[k]
  outside : ∀ a, a < buf ∨ buf + bufLen ≤ a → s.mem a = mem a
  window : Window m s.display r
  printed : Printed r₀ (p ++ l) r

theorem unsigned_inLine (h : InLine c) : ∃ n : ℕ, unsigned c = n ∧ c = n ∧ n < 256 := by
  obtain ⟨hpos, hlt, -, -⟩ := h
  refine ⟨c.toNat, ?_, by omega, by omega⟩
  rw [unsigned]
  omega

variable {p : List UInt8}

theorem Typing.push {n : ℕ} (h : Typing buf mem m r₀ p l s r) (hp : p.length + bufLen ≤ crtSize - crtCols)
    (hlo : 32 ≤ n) (hhi : n < 256)
    (hroom : l.length < bufLen - 1) : Typing buf mem m r₀ p (l ++ [UInt8.ofNat n])
      ⟨Function.update s.mem (buf + s.i) (UInt8.ofNat n), s.i + 1, consPutc n s.display⟩ (r.put n) := by
  have hi := h.i
  have hlen : (l ++ [UInt8.ofNat n]).length = l.length + 1 := by rw [List.length_append, List.length_singleton]
  have hprinted := h.printed.push hlo hhi (by rw [List.length_append]; omega)
  refine ⟨by rw [hlen, hi], by rw [hlen]; exact hroom, fun k hk => ?_, fun a ha => ?_, h.window.put n, ?_⟩
  · rw [hlen] at hk
    by_cases hkl : k < l.length
    · rw [List.getElem_append_left hkl, ← h.buffer k hkl]
      exact Function.update_of_ne (by omega) ..
    · obtain rfl : k = l.length := by omega
      simp [hi]
  · refine (Function.update_of_ne ?_ ..).trans (h.outside a ha)
    simp only [bufLen] at hroom ha
    omega
  · rwa [List.append_assoc] at hprinted

theorem Typing.pop {a : UInt8} (h : Typing buf mem m r₀ p (l ++ [a]) s r) (hp : p.length + bufLen ≤ crtSize - crtCols) :
    Typing buf mem m r₀ p l ⟨s.mem, s.i - 1, consPutc 8 s.display⟩ (r.put 8) := by
  have hi := h.i
  have hfits := h.fits
  rw [List.length_append, List.length_singleton] at hi hfits
  have hprinted := h.printed
  rw [← List.append_assoc] at hprinted
  refine ⟨by show s.i - 1 = _; omega, by omega, fun k hk => ?_, h.outside, h.window.put 8,
    hprinted.pop (by rw [List.length_append]; omega)⟩
  have hbuffer := h.buffer k (by rw [List.length_append]; omega)
  rwa [List.getElem_append_left hk] at hbuffer

theorem Typing.step (h : Typing buf mem m r₀ p l s r) (hp : p.length + bufLen ≤ crtSize - crtCols) (hc : InLine c) :
    (step errorString buf c s).1 = false ∧
    ∃ r', Typing buf mem m r₀ p (edit l c) (step errorString buf c s).2 r' := by
  obtain ⟨n, hn, rfl, hlt⟩ := unsigned_inLine hc
  obtain ⟨hpos, -, h10, h13⟩ := hc
  have hi := h.i
  rw [LineEditing.step, edit, if_neg (by omega), hi]
  by_cases hadd : 32 ≤ (n : ℤ) ∧ l.length < bufLen - 1
  · rw [if_pos hadd, if_pos hadd, hn]
    refine ⟨rfl, r.put n, ?_⟩
    rw [echo, hn]
    exact h.push hp (by omega) hlt hadd.2
  · rw [if_neg hadd, if_neg hadd]
    by_cases h8 : (n : ℤ) = 8
    · rw [if_pos h8]
      rcases List.eq_nil_or_concat' l with rfl | ⟨l, a, rfl⟩
      · rw [if_neg fun hc => Nat.lt_irrefl 0 hc.2, if_neg (by omega)]
        exact ⟨rfl, r, h⟩
      · obtain rfl : n = 8 := by omega
        rw [if_pos ⟨h8, by simp⟩, List.dropLast_concat]
        exact ⟨rfl, r.put 8, h.pop hp⟩
    · rw [if_neg h8, if_neg fun hc => h8 hc.1, if_neg (by omega)]
      exact ⟨rfl, r, h⟩

/-- The characters of a line, one after the other. -/
def typeAll (buf : ℕ) (cs : List ℤ) (s : Line) : Line :=
  cs.foldl (fun s c => (step errorString buf c s).2) s

theorem Typing.typeAll (h : Typing buf mem m r₀ p l s r) (hp : p.length + bufLen ≤ crtSize - crtCols) {cs : List ℤ}
    (hcs : ∀ c ∈ cs, InLine c) :
    ∃ r', Typing buf mem m r₀ p (cs.foldl edit l) (typeAll errorString buf cs s) r' := by
  induction cs generalizing l s r with
  | nil => exact ⟨r, h⟩
  | cons c cs ih =>
    obtain ⟨-, r', h'⟩ := h.step errorString hp (hcs c List.mem_cons_self)
    exact ih h' fun c hc => hcs c (List.mem_cons_of_mem _ hc)

/-- The loop goes on until the end of the line. -/
theorem Typing.readLoop (h : Typing buf mem m r₀ p l s r) (hp : p.length + bufLen ≤ crtSize - crtCols)
    {cs rest : List ℤ} (hcs : ∀ c ∈ cs, InLine c) :
    readLoop errorString buf (cs ++ rest) s = readLoop errorString buf rest (LineEditing.typeAll errorString buf cs s) := by
  induction cs generalizing l s r with
  | nil => rfl
  | cons c cs ih =>
    obtain ⟨hgo, r', h'⟩ := h.step errorString hp (hcs c List.mem_cons_self)
    rw [List.cons_append, LineEditing.readLoop, if_neg (by rw [hgo]; exact Bool.false_ne_true),
      ih h' fun c hc => hcs c (List.mem_cons_of_mem _ hc)]
    rfl

/-- A prompt that fits the screen with the line, or none. -/
structure Prompt (mem : Memory) (prompt : ℕ) (p : List UInt8) : Prop where
  text : if prompt = 0 then p = [] else HoldsString mem prompt p
  lt : prompt < 2 ^ 32
  printable : ∀ a ∈ p, 32 ≤ a ∧ a < 128
  short : p.length + bufLen ≤ crtSize - crtCols

theorem Prompt.congr {mem' : Memory} {prompt : ℕ} (h : Prompt mem prompt p)
    (hmem : ∀ a, prompt ≤ a → a ≤ prompt + p.length → mem' a = mem a) : Prompt mem' prompt p := by
  refine ⟨?_, h.lt, h.printable, h.short⟩
  have htext := h.text
  by_cases h0 : prompt = 0
  · rwa [if_pos h0] at htext ⊢
  · rw [if_neg h0] at htext ⊢
    exact htext.congr fun i hi => hmem _ (by omega) (by omega)

theorem Printed.text {d : Display} {q : List UInt8} (h : Printed r₀ q r) (hw : Window m d r)
    (hroom : (q ++ p).length ≤ crtSize - crtCols) (hp : ∀ a ∈ p, 32 ≤ a ∧ a < 128) :
    ∃ r', Window m ((p.map charInt).foldl (fun d c => consPutc c d) d) r' ∧ Printed r₀ (q ++ p) r' := by
  induction p generalizing q d r with
  | nil => exact ⟨r, hw, by rwa [List.append_nil]⟩
  | cons a p ih =>
    obtain ⟨hlo, hhi⟩ := hp a List.mem_cons_self
    have hlo' : 32 ≤ a.toNat := UInt8.le_iff_toNat_le.mp hlo
    have hint : charInt a = a.toNat := if_pos hhi
    rw [List.length_append, List.length_cons] at hroom
    have hnext := h.push hlo' a.toNat_lt (by omega)
    rw [UInt8.ofNat_toNat] at hnext
    obtain ⟨r', hw', hr'⟩ :=
      ih hnext (hw.put a.toNat) (by rw [List.length_append, List.length_append, List.length_singleton]; omega)
      fun b hb => hp b (List.mem_cons_of_mem a hb)
    rw [List.append_assoc, List.singleton_append] at hr'
    rw [List.map_cons, List.foldl_cons, hint]
    exact ⟨r', hw', hr'⟩

theorem Prompt.printed {d : Display} {prompt : ℕ} (h : Prompt mem prompt p) (hw : Window m d r) :
    ∃ r', Window m (showPrompt errorString mem prompt d) r' ∧ Printed r p r' := by
  have hstart : Printed r [] r := by
    refine ⟨rfl, fun k hk => absurd hk (Nat.not_lt_zero k), fun _ _ => rfl, ?_⟩
    have hpos := hw.pos
    omega
  have htext := h.text
  have hshort := h.short
  by_cases h0 : prompt = 0
  · rw [if_pos h0] at htext
    rw [showPrompt, if_neg (not_not.mpr h0), htext]
    exact ⟨r, hw, hstart⟩
  · rw [if_neg h0] at htext
    have hnil : ∀ c ∈ ([] : List UInt8), c ≠ 0 ∧ c ≠ 37 := List.forall_mem_nil _
    have hlen : p.length < 2 ^ 31 := Nat.lt_of_le_of_lt (Nat.le_of_add_right_le hshort) (by decide)
    have hout : formatted errorString mem [37, 115] (fun _ => prompt) = p.map charInt := by
      simpa using formatted_string errorString mem h0 h.lt htext hlen hnil hnil
    rw [showPrompt, if_pos h0, cprintf, hout]
    exact hstart.text hw (Nat.le_of_add_right_le hshort) h.printable

theorem Prompt.typing (buf : ℕ) {d : Display} {prompt : ℕ} (h : Prompt mem prompt p) (hw : Window m d r) :
    ∃ r', Typing buf mem m r p [] ⟨mem, 0, showPrompt errorString mem prompt d⟩ r' := by
  obtain ⟨r', hw', hprinted⟩ := h.printed errorString hw
  refine ⟨r', rfl, Nat.zero_le _, fun k hk => absurd hk (Nat.not_lt_zero k), fun _ _ => rfl, hw', ?_⟩
  rwa [List.append_nil]

def fosPrompt : List UInt8 := [70, 79, 83, 62, 32]

def promptMemory : Memory := store (fun _ => 0) 4096 fosPrompt

theorem prompt_fos : Prompt promptMemory 4096 fosPrompt where
  text := by
    rw [if_neg (by decide)]
    exact holdsString_of_getElem (fun _ hi => store_getElem hi) (by simp [fosPrompt]) (store_of_not (.inr (Nat.le_refl _)))
  lt := by decide
  printable := by simp [fosPrompt]
  short := by decide

def typedKeys : List ℤ := [97, 98, 8]

theorem typedKeys_inLine : ∀ c ∈ typedKeys, InLine c := by
  simp [typedKeys, InLine]

/-- At any time there are the prompt and the line on the screen, up to the cursor. -/
theorem line_visible (buf : ℕ) {d : Display} {prompt : ℕ} {cs : List ℤ} (hlt : d.crtPos < crtSize)
    (hcursor : d.registers 14 * 2 ^ 8 + d.registers 15 = d.crtPos) (h : Prompt mem prompt p) (hcs : ∀ c ∈ cs, InLine c)
    (hs : s = typeAll errorString buf cs ⟨mem, 0, showPrompt errorString mem prompt d⟩) :
    (p ++ cs.foldl edit []).length ≤ s.display.crtPos ∧ s.display.crtPos < crtSize ∧
      ∀ k (hk : k < (p ++ cs.foldl edit []).length),
        s.display.crtBuf (s.display.crtPos - (p ++ cs.foldl edit []).length + k) = cellOf (p ++ cs.foldl edit [])[k] := by
  obtain ⟨r, hstart⟩ := h.typing errorString buf (.start hlt hcursor)
  obtain ⟨r', htyping⟩ := hstart.typeAll errorString h.short hcs
  rw [hs]
  exact htyping.printed.visible htyping.window

theorem line_visible_fos :
    ∃ s, s = typeAll (fun _ => 0) 8192 typedKeys ⟨promptMemory, 0, showPrompt (fun _ => 0) promptMemory 4096 lastCell⟩ ∧
    ∀ k (hk : k < 6), s.display.crtBuf (s.display.crtPos - 6 + k) = cellOf ((fosPrompt ++ [97])[k]) :=
  ⟨_, rfl, (line_visible (fun _ => 0) 8192 (d := lastCell) (by decide) (by decide) prompt_fos typedKeys_inLine rfl).2.2⟩

theorem edit_nonzero (hl : ∀ a ∈ l, a ≠ 0) (hc : InLine c) : ∀ a ∈ edit l c, a ≠ 0 := by
  obtain ⟨n, hn, rfl, hlt⟩ := unsigned_inLine hc
  have hpos := hc.1
  intro a ha
  rw [edit, hn] at ha
  split at ha
  · rcases List.mem_append.mp ha with ha | ha
    · exact hl a ha
    · rw [List.mem_singleton.mp ha]
      intro h0
      have := congrArg UInt8.toNat h0
      rw [UInt8.toNat_ofNat_of_lt' hlt] at this
      have hzero : n = 0 := this
      omega
  · split at ha
    · exact hl a (List.mem_of_mem_dropLast ha)
    · exact hl a ha

theorem foldl_edit_nonzero {cs : List ℤ} (hcs : ∀ c ∈ cs, InLine c) (hl : ∀ a ∈ l, a ≠ 0) : ∀ a ∈ cs.foldl edit l, a ≠ 0 := by
  induction cs generalizing l with
  | nil => exact hl
  | cons c cs ih =>
    exact ih (fun c hc => hcs c (List.mem_cons_of_mem _ hc)) (edit_nonzero hl (hcs c List.mem_cons_self))

theorem edit_length (h : l.length ≤ bufLen - 1) (c : ℤ) : (edit l c).length ≤ bufLen - 1 := by
  rw [edit]
  split
  · rw [List.length_append, List.length_singleton]
    omega
  · split
    · rw [List.length_dropLast]
      omega
    · exact h

theorem foldl_edit_length (h : l.length ≤ bufLen - 1) (cs : List ℤ) : (cs.foldl edit l).length ≤ bufLen - 1 := by
  induction cs generalizing l with
  | nil => exact h
  | cons c cs ih => exact ih (edit_length h c)

theorem Typing.close {e : ℤ} (h : Typing buf mem m r₀ p l s r) (hl : ∀ a ∈ l, a ≠ 0) (he : e = 10 ∨ e = 13) :
    ∃ t, LineEditing.step errorString buf e s = (true, t) ∧ HoldsString t.mem buf l ∧
      (∀ a, a < buf ∨ buf + bufLen ≤ a → t.mem a = mem a) ∧ t.display = consPutc (unsigned e) s.display := by
  have hi := h.i
  have hfits := h.fits
  refine ⟨⟨Function.update s.mem (buf + s.i) 0, s.i, consPutc (unsigned e) s.display⟩, ?_, ?_, fun a ha => ?_, rfl⟩
  · rw [LineEditing.step, if_neg (by omega), if_neg (by omega), if_neg (by omega), if_pos he]
    rfl
  · refine holdsString_of_getElem (fun k hk => ?_) hl (by rw [← hi]; exact Function.update_self ..)
    rw [← h.buffer k hk]
    exact Function.update_of_ne (by omega) ..
  · refine (Function.update_of_ne ?_ ..).trans (h.outside a ha)
    simp only [bufLen] at hfits ha
    omega

/-- `readline` returns at the end of the line, with what was typed and not erased as a string in the buffer. -/
theorem readline_reads (buf : ℕ) {d : Display} {prompt : ℕ} {cs rest : List ℤ} {e : ℤ}
    (hlt : d.crtPos < crtSize) (hcursor : d.registers 14 * 2 ^ 8 + d.registers 15 = d.crtPos) (h : Prompt mem prompt p)
    (hcs : ∀ c ∈ cs, InLine c) (he : e = 10 ∨ e = 13) :
    ∃ t, readline errorString buf mem prompt (cs ++ e :: rest) d = some (t, rest) ∧
      HoldsString t.mem buf (cs.foldl edit []) ∧ (∀ a, a < buf ∨ buf + bufLen ≤ a → t.mem a = mem a) ∧
      t.display = consPutc (unsigned e)
        (typeAll errorString buf cs ⟨mem, 0, showPrompt errorString mem prompt d⟩).display := by
  obtain ⟨r, hstart⟩ := h.typing errorString buf (.start hlt hcursor)
  obtain ⟨r', htyping⟩ := hstart.typeAll errorString h.short hcs
  obtain ⟨t, hend, ht⟩ := htyping.close errorString (foldl_edit_nonzero hcs fun a ha => absurd ha List.not_mem_nil) he
  refine ⟨t, ?_, ht⟩
  rw [readline, hstart.readLoop errorString h.short hcs, readLoop, hend, if_pos rfl]

theorem readline_reads_fos :
    ∃ t, readline (fun _ => 0) 8192 promptMemory 4096 (typedKeys ++ [13, 99]) lastCell = some (t, [99]) ∧
    HoldsString t.mem 8192 [97] := by
  obtain ⟨t, hrun, hline, -⟩ := readline_reads (fun _ => 0) 8192 (d := lastCell) (by decide) (by decide) prompt_fos
    typedKeys_inLine (.inr rfl)
  exact ⟨t, hrun, hline⟩

end FosKernel.LineEditing
