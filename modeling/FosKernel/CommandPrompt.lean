import FosKernel.LineEditing
import FosKernel.StringSplitting

/-!
# The command prompt

A line is read, split into arguments and obeyed by the command that its first argument names. For
an argument that names none, the commands are listed that start with it. Commands may read lines of
their own, and some do not return.
-/

namespace FosKernel.CommandPrompt
open CStrings Terminal Formatting LineEditing StringSplitting

structure Shell where
  mem : Memory
  display : Display

/-- A call returns and leaves the keys that it has not read, it waits for more of them, or it does not come back, as when the
scheduler takes over. -/
inductive Outcome where
  | returns (r : ℤ) (s : Shell) (cs : List ℤ)
  | waits
  | gone (s : Shell) (cs : List ℤ)

/-- A command, with the addresses of its name and its description. It gets the keys that are typed after its line. -/
structure Command where
  name : ℕ
  description : ℕ
  functionToExecute : ℕ → (ℕ → ℕ) → Shell → List ℤ → Outcome

/-- `WHITESPACE` -/
def whitespace : List UInt8 := [9, 13, 10, 32]

/-- `"%s\n"` -/
def nameFormat : List UInt8 := [37, 115, 10]

/-- `"Unknown command '"` -/
def unknownText : List UInt8 := [85, 110, 107, 110, 111, 119, 110, 32, 99, 111, 109, 109, 97, 110, 100, 32, 39]

/-- `"Unknown command '%s'\n"` -/
def unknownFormat : List UInt8 := unknownText ++ [37, 115, 39, 10]

section Prompt

variable (commands : List Command) (errorString : ℕ → ℕ) (rounds : ℕ)

/-- The string at `p`, whose length is `strlen(p)`. -/
def stringFrom (mem : Memory) (p : ℕ) : List UInt8 := readString mem p (2 ^ 32)

def findCommand (mem : Memory) (arg : ℕ) : Option Command :=
  commands.find? fun c => strcmp mem (stringFrom mem arg) c.name = 0

/-- How many characters of the argument are those of the name at the same place, be it behind the end of the name. -/
def counter (mem : Memory) (arg name : ℕ) : ℕ :=
  ((List.range (stringFrom mem arg).length).filter fun j => mem (arg + j) = mem (name + j)).length

/-- The loop over the commands, which counts those that it shows. -/
def suggest (mem : Memory) (arg : ℕ) (r : ℕ × Display) (c : Command) : ℕ × Display :=
  if counter mem arg c.name = (stringFrom mem arg).length then
    (r.1 + 1, (cprintf mem errorString nameFormat (fun _ => c.name) r.2).2)
  else r

/-- `execute_command`, once the line is split. -/
def dispatch (argc : ℕ) (arguments : ℕ → ℕ) (s : Shell) (cs : List ℤ) : Outcome :=
  if argc = 0 then .returns 0 s cs
  else
    match findCommand commands s.mem (arguments 0) with
    | some c => c.functionToExecute argc arguments s cs
    | none =>
      let r := commands.foldl (suggest errorString s.mem (arguments 0)) (0, s.display)
      if r.1 = 0 then
        .returns 0 { s with display := (cprintf s.mem errorString unknownFormat (fun _ => arguments 0) r.2).2 } cs
      else .returns 0 { s with display := r.2 } cs

def executeCommand (commandString : ℕ) (arguments : ℕ → ℕ) (s : Shell) (cs : List ℤ) : Option Outcome := do
  let (split, _) ← strsplit whitespace rounds commandString s.mem arguments
  return dispatch commands errorString split.argc split.argv { s with mem := split.mem } cs

/-- `run_command_prompt`, with the keys that are typed, in `n` rounds at most. -/
def runCommandPrompt (prompt commandLine : ℕ) (arguments : ℕ → ℕ) : ℕ → List ℤ → Shell → Option Outcome
  | 0, _, _ => none
  | n + 1, cs, s =>
    match readline errorString commandLine s.mem prompt cs s.display with
    | none => some .waits
    | some (line, cs) => do
      match ← executeCommand commands errorString rounds commandLine arguments ⟨line.mem, line.display⟩ cs with
      | .returns r s cs => if r < 0 then return .returns r s cs else runCommandPrompt prompt commandLine arguments n cs s
      | out => return out

end Prompt

variable {mem : Memory} {arg name : ℕ} {w l : List UInt8}

theorem stringFrom_eq (h : HoldsString mem arg w) (hlen : w.length < 2 ^ 32) : stringFrom mem arg = w := readString_eq h hlen

/-- Whatever stands behind a name: all characters of an argument are found in it if the name starts with the argument. -/
theorem counter_eq_iff (harg : HoldsString mem arg w) (hlen : w.length < 2 ^ 32) (hname : HoldsString mem name l) :
    counter mem arg name = (stringFrom mem arg).length ↔ w <+: l := by
  have hcounter : counter mem arg name = (stringFrom mem arg).length ↔ ∀ j < w.length, mem (arg + j) = mem (name + j) := by
    have hfilter := List.length_filter_eq_length_iff (p := fun j => decide (mem (arg + j) = mem (name + j)))
      (l := List.range w.length)
    rw [List.length_range] at hfilter
    rw [counter, stringFrom_eq harg hlen, hfilter]
    simp
  rw [hcounter]
  constructor
  · intro hsame
    have hle : w.length ≤ l.length := by
      by_contra hlt
      have hzero := hsame l.length (by omega)
      rw [hname.end, harg.getElem (by omega)] at hzero
      exact harg.nonzero _ (List.getElem_mem _) hzero
    rw [List.prefix_iff_eq_take]
    refine List.ext_getElem (by rw [List.length_take]; omega) fun j hj hj' => ?_
    rw [List.getElem_take, ← harg.getElem hj, hsame j hj, hname.getElem (by omega)]
  · rintro ⟨v, rfl⟩ j hj
    rw [harg.getElem hj, hname.getElem (by rw [List.length_append]; omega), List.getElem_append_left hj]

def printText (text : List ℕ) (d : Display) : Display := text.foldl (fun d c => consPutc c d) d

def nameLine (l : List UInt8) : List ℕ := l.map charInt ++ [10]

def unknownLine (w : List UInt8) : List ℕ := unknownText.map UInt8.toNat ++ w.map charInt ++ [39, 10]

variable (errorString : ℕ → ℕ) {d : Display}

theorem cprintf_name (hname : HoldsString mem name l) (hlen : l.length < 2 ^ 31) (h0 : name ≠ 0) (hlt : name < 2 ^ 32) :
    (cprintf mem errorString nameFormat (fun _ => name) d).2 = printText (nameLine l) d := by
  have hformat : nameFormat = [] ++ [37, 115] ++ [10] := rfl
  rw [cprintf, hformat, formatted_string errorString mem h0 hlt hname hlen (by simp) (by simp)]
  rfl

theorem cprintf_unknown (harg : HoldsString mem arg w) (hlen : w.length < 2 ^ 31) (h0 : arg ≠ 0) (hlt : arg < 2 ^ 32) :
    (cprintf mem errorString unknownFormat (fun _ => arg) d).2 = printText (unknownLine w) d := by
  have hformat : unknownFormat = unknownText ++ [37, 115] ++ [39, 10] := rfl
  rw [cprintf, hformat, formatted_string errorString mem h0 hlt harg hlen (by simp [unknownText]) (by simp)]
  rfl

variable {commands : List Command} {text : ℕ → List UInt8} {buf : ℕ} {s : Shell}

/-- The names of the commands are strings, apart from the line that is read. -/
structure NameAt (text : ℕ → List UInt8) (buf : ℕ) (mem : Memory) (name : ℕ) : Prop where
  holds : HoldsString mem name (text name)
  nonnull : name ≠ 0
  fits : name + (text name).length < 2 ^ 32
  short : (text name).length < 2 ^ 31
  apart : name + (text name).length < buf ∨ buf + bufLen ≤ name

theorem NameAt.congr {mem' : Memory} (h : NameAt text buf mem name) (hmem : ∀ a, a < buf ∨ buf + bufLen ≤ a → mem' a = mem a) :
    NameAt text buf mem' name where
  holds := h.holds.congr fun i hi => hmem _ (by have := h.apart; omega)
  nonnull := h.nonnull
  fits := h.fits
  short := h.short
  apart := h.apart

/-- The commands whose names start with the argument. -/
def suggestions (commands : List Command) (text : ℕ → List UInt8) (w : List UInt8) : List Command :=
  commands.filter fun c => w <+: text c.name

theorem findCommand_eq (hnames : ∀ c ∈ commands, NameAt text buf mem c.name) (harg : HoldsString mem arg w)
    (hlen : w.length < 2 ^ 32) :
    findCommand commands mem arg = commands.find? fun c => text c.name = w := by
  induction commands with
  | nil => rfl
  | cons c cs ih =>
    have hname := (hnames c List.mem_cons_self).holds
    have hiff : strcmp mem (stringFrom mem arg) c.name = 0 ↔ text c.name = w := by
      rw [stringFrom_eq harg hlen, strcmp_eq_zero harg.nonzero]
      exact ⟨fun h => hname.unique h, fun h => h ▸ hname⟩
    by_cases h : text c.name = w
    · rw [findCommand, List.find?_cons_of_pos (by simpa using hiff.mpr h), List.find?_cons_of_pos (by simpa using h)]
    · rw [findCommand, List.find?_cons_of_neg (by simpa using mt hiff.mp h), List.find?_cons_of_neg (by simpa using h)]
      exact ih fun c hc => hnames c (List.mem_cons_of_mem _ hc)

theorem suggest_foldl (hnames : ∀ c ∈ commands, NameAt text buf mem c.name) (harg : HoldsString mem arg w)
    (hlen : w.length < 2 ^ 32)
    (n : ℕ) (d : Display) : commands.foldl (suggest errorString mem arg) (n, d) = (n + (suggestions commands text w).length,
      (suggestions commands text w).foldl (fun d c => printText (nameLine (text c.name)) d) d) := by
  induction commands generalizing n d with
  | nil => rfl
  | cons c cs ih =>
    obtain ⟨hname, h0, hfits, hshort, -⟩ := hnames c List.mem_cons_self
    have hrest := ih fun c hc => hnames c (List.mem_cons_of_mem _ hc)
    have hiff := counter_eq_iff harg hlen hname
    rw [List.foldl_cons, suggest, suggestions, List.filter_cons]
    by_cases hpre : w <+: text c.name
    · rw [if_pos (hiff.mpr hpre), cprintf_name errorString hname hshort h0 (by omega), hrest, if_pos (by simpa using hpre)]
      simp only [suggestions, List.length_cons, List.foldl_cons, Prod.mk.injEq, and_true]
      omega
    · rw [if_neg (mt hiff.mp hpre), hrest, if_neg (by simpa using hpre)]
      rfl

def tokenText (l : List UInt8) (x : ℕ × ℕ) : List UInt8 := (l.take x.2).drop x.1

/-- The arguments of the line `l` with the tokens `ts`: the memory is what it was, except for the line. -/
structure Arguments (buf : ℕ) (l : List UInt8) (ts : List (ℕ × ℕ)) (mem : Memory) (mem' : Memory) (argc : ℕ)
    (argv : ℕ → ℕ) : Prop where
  count : argc = min ts.length (maxArguments - 1)
  strings : ∀ i < argc, ∀ x, ts[i]? = some x → HoldsString mem' (argv i) (tokenText l x)
  outside : ∀ a, a < buf ∨ buf + bufLen ≤ a → mem' a = mem a

/-- What a line is to do: nothing, what the command does that its first token names, or help to find one. -/
inductive Obeys (commands : List Command) (text : ℕ → List UInt8) (buf : ℕ) (l : List UInt8) (s : Shell) (cs : List ℤ) :
    Outcome → Prop
  | blank {mem' : Memory} {argv : ℕ → ℕ} (tokens : IsTokens (isSplitChar whitespace) l [])
      (arguments : Arguments buf l [] s.mem mem' 0 argv) : Obeys commands text buf l s cs (.returns 0 ⟨mem', s.display⟩ cs)
  | command {mem' : Memory} {argc : ℕ} {argv : ℕ → ℕ} {x : ℕ × ℕ} {ts : List (ℕ × ℕ)} {c : Command}
      (tokens : IsTokens (isSplitChar whitespace) l (x :: ts)) (arguments : Arguments buf l (x :: ts) s.mem mem' argc argv)
      (named : (commands.find? fun c => text c.name = tokenText l x) = some c) :
      Obeys commands text buf l s cs (c.functionToExecute argc argv ⟨mem', s.display⟩ cs)
  | suggest {mem' : Memory} {argc : ℕ} {argv : ℕ → ℕ} {x : ℕ × ℕ} {ts : List (ℕ × ℕ)}
      (tokens : IsTokens (isSplitChar whitespace) l (x :: ts)) (arguments : Arguments buf l (x :: ts) s.mem mem' argc argv)
      (unnamed : ∀ c ∈ commands, text c.name ≠ tokenText l x) (found : suggestions commands text (tokenText l x) ≠ []) :
      Obeys commands text buf l s cs (.returns 0 ⟨mem', (suggestions commands text (tokenText l x)).foldl
        (fun d c => printText (nameLine (text c.name)) d) s.display⟩ cs)
  | unknown {mem' : Memory} {argc : ℕ} {argv : ℕ → ℕ} {x : ℕ × ℕ} {ts : List (ℕ × ℕ)}
      (tokens : IsTokens (isSplitChar whitespace) l (x :: ts)) (arguments : Arguments buf l (x :: ts) s.mem mem' argc argv)
      (none : ∀ c ∈ commands, ¬tokenText l x <+: text c.name) :
      Obeys commands text buf l s cs (.returns 0 ⟨mem', printText (unknownLine (tokenText l x)) s.display⟩ cs)

theorem SplitInto.arguments {ts : List (ℕ × ℕ)} {argv : ℕ → ℕ} {out : Split × ℕ} {seps : List UInt8}
    (h : SplitInto seps l ts buf mem argv out) (hlen : l.length < bufLen) :
    Arguments buf l ts mem out.1.mem out.1.argc out.1.argv where
  count := h.argc
  strings i hi x hx := by
    rw [h.pointers i hi x hx]
    exact h.terminated i hi x hx
  outside a ha := by
    by_contra hne
    obtain ⟨-, k, c, rfl, hk, -⟩ := h.changed a hne
    have hlt := (List.getElem?_eq_some_iff.mp hk).1
    omega

theorem executeCommand_obeys {rounds : ℕ} (argv : ℕ → ℕ) (cs : List ℤ) (hnames : ∀ c ∈ commands, NameAt text buf s.mem c.name)
    (hl : HoldsString s.mem buf l) (hlen : l.length < bufLen) (hrounds : bufLen ≤ rounds)
    (hbuf : 0 < buf ∧ buf + bufLen ≤ 2 ^ 32) :
    ∃ out, executeCommand commands errorString rounds buf argv s cs = some out ∧ Obeys commands text buf l s cs out := by
  obtain ⟨ts, htokens, hsplit⟩ := strsplit_splits whitespace l buf s.mem argv hl
  obtain ⟨⟨split, ret⟩, hrun, hinto⟩ := hsplit rounds (by omega)
  have hargs := SplitInto.arguments hinto hlen
  have hcount : split.argc = min ts.length 15 := hargs.count
  refine ⟨dispatch commands errorString split.argc split.argv { s with mem := split.mem } cs,
    by rw [executeCommand, hrun]; rfl, ?_⟩
  rw [dispatch]
  cases ts with
  | nil =>
    rw [List.length_nil, Nat.zero_min] at hcount
    rw [hcount] at hargs
    rw [if_pos hcount]
    exact .blank htokens hargs
  | cons x ts =>
    rw [List.length_cons] at hcount
    have hrunx := (htokens.mem_iff x.1 x.2).mp List.mem_cons_self
    have hlt := hrunx.lt
    have hle := hrunx.le
    have hptr : split.argv 0 = buf + x.1 := hinto.pointers 0 (by show 0 < split.argc; omega) x rfl
    have hw : HoldsString split.mem (split.argv 0) (tokenText l x) := hargs.strings 0 (by show 0 < split.argc; omega) x rfl
    have hwshort : (tokenText l x).length < 2 ^ 31 := by
      simp only [tokenText, List.length_drop, List.length_take]
      simp only [bufLen] at hlen
      omega
    have hwlen : (tokenText l x).length < 2 ^ 32 := hwshort.trans (by decide)
    have hnames' (c : Command) (hc : c ∈ commands) : NameAt text buf split.mem c.name := (hnames c hc).congr hargs.outside
    simp only [bufLen] at hlen hbuf
    rw [if_neg (by omega), findCommand_eq hnames' hw hwlen]
    rcases hfind : commands.find? (fun c => text c.name = tokenText l x) with - | c
    · have hnone : ∀ c ∈ commands, text c.name ≠ tokenText l x := by simpa using List.find?_eq_none.mp hfind
      simp only [hfind, suggest_foldl errorString hnames' hw hwlen, Nat.zero_add, List.length_eq_zero_iff]
      by_cases hsug : suggestions commands text (tokenText l x) = []
      · rw [if_pos hsug, hsug, List.foldl_nil, cprintf_unknown errorString hw hwshort (by omega) (by omega)]
        refine .unknown htokens hargs fun c hc hpre => ?_
        have hmem : c ∈ suggestions commands text (tokenText l x) := List.mem_filter.mpr ⟨hc, by simpa using hpre⟩
        rw [hsug] at hmem
        exact List.not_mem_nil hmem
      · rw [if_neg hsug]
        exact .suggest htokens hargs hnone hsug
    · simp only [hfind]
      exact .command htokens hargs hfind

/-- The cursor is on the screen, where the controller has it. -/
def Upright (d : Display) : Prop := d.crtPos < crtSize ∧ d.registers 14 * 2 ^ 8 + d.registers 15 = d.crtPos

theorem Upright.put (h : Upright d) (c : ℕ) : Upright (consPutc c d) := by
  have hw := (Window.start h.1 h.2).put c
  exact ⟨hw.lt, hw.cursor⟩

theorem Upright.printText (h : Upright d) (l : List ℕ) : Upright (printText l d) :=
  List.foldlRecOn l _ h fun _ h c _ => h.put c

variable {prompt : ℕ} {q : List UInt8} {t u : Shell}

structure Ready (commands : List Command) (text : ℕ → List UInt8) (prompt : ℕ) (q : List UInt8) (buf : ℕ) (s : Shell) :
    Prop where
  names : ∀ c ∈ commands, NameAt text buf s.mem c.name
  asks : Prompt s.mem prompt q
  apart : prompt + q.length < buf ∨ buf + bufLen ≤ prompt
  upright : Upright s.display

/-- A line: the keys before its end, and the end. -/
structure Typed where
  keys : List ℤ
  stop : ℤ
  inLine : ∀ c ∈ keys, InLine c
  newline : stop = 10 ∨ stop = 13

/-- What the one who types it sees before the end of the line. -/
def Typed.line (x : Typed) : List UInt8 := x.keys.foldl edit []

def IsChar (c : ℤ) : Prop := 0 < c ∧ c < 256

/-- What is typed starts with a line, unless the line has no end yet. -/
theorem split_line {cs : List ℤ} (hcs : ∀ c ∈ cs, IsChar c) :
    (∀ c ∈ cs, InLine c) ∨ ∃ (x : Typed) (rest : List ℤ), cs = x.keys ++ x.stop :: rest := by
  induction cs with
  | nil => exact .inl (List.forall_mem_nil _)
  | cons c cs ih =>
    have hc := hcs c List.mem_cons_self
    by_cases hstop : c = 10 ∨ c = 13
    · exact .inr ⟨⟨[], c, List.forall_mem_nil _, hstop⟩, cs, rfl⟩
    · have hin : InLine c := ⟨hc.1, hc.2, (not_or.mp hstop).1, (not_or.mp hstop).2⟩
      rcases ih fun k hk => hcs k (List.mem_cons_of_mem c hk) with hall | ⟨x, rest, rfl⟩
      · exact .inl (List.forall_mem_cons.mpr ⟨hin, hall⟩)
      · exact .inr ⟨⟨c :: x.keys, x.stop, List.forall_mem_cons.mpr ⟨hin, x.inLine⟩, x.newline⟩, rest, rfl⟩

/-- If it returns, `P` holds and the keys that it leaves are the last ones of `cs`. -/
def Outcome.Keeps (P : Shell → Prop) (cs : List ℤ) : Outcome → Prop
  | returns _ s cs' => P s ∧ cs' <:+ cs
  | waits => True
  | gone _ _ => True

structure ReadLine (buf : ℕ) (s : Shell) (x : Typed) (t : Shell) : Prop where
  holds : HoldsString t.mem buf x.line
  outside : ∀ a, a < buf ∨ buf + bufLen ≤ a → t.mem a = s.mem a

/-- Lines are obeyed one after the other, until a command ends the session or does not return, or there are no more keys. -/
inductive Session (commands : List Command) (text : ℕ → List UInt8) (buf : ℕ) : Shell → List ℤ → Outcome → Prop
  | waits {s : Shell} {cs : List ℤ} (unfinished : ∀ c ∈ cs, InLine c) : Session commands text buf s cs .waits
  | exits {s t u : Shell} {x : Typed} {cs cs' : List ℤ} {r : ℤ} (read : ReadLine buf s x t)
      (obeys : Obeys commands text buf x.line t cs (.returns r u cs')) (exit : r < 0) :
      Session commands text buf s (x.keys ++ x.stop :: cs) (.returns r u cs')
  | goes {s t u : Shell} {x : Typed} {cs cs' : List ℤ} {r : ℤ} {out : Outcome} (read : ReadLine buf s x t)
      (obeys : Obeys commands text buf x.line t cs (.returns r u cs')) (goes : 0 ≤ r)
      (rest : Session commands text buf u cs' out) : Session commands text buf s (x.keys ++ x.stop :: cs) out
  | asks {s t : Shell} {x : Typed} {cs : List ℤ} (read : ReadLine buf s x t)
      (obeys : Obeys commands text buf x.line t cs .waits) : Session commands text buf s (x.keys ++ x.stop :: cs) .waits
  | leaves {s t u : Shell} {x : Typed} {cs cs' : List ℤ} (read : ReadLine buf s x t)
      (obeys : Obeys commands text buf x.line t cs (.gone u cs')) :
      Session commands text buf s (x.keys ++ x.stop :: cs) (.gone u cs')

theorem Ready.readline (h : Ready commands text prompt q buf s) (x : Typed) (rest : List ℤ) :
    ∃ t, LineEditing.readline errorString buf s.mem prompt (x.keys ++ x.stop :: rest) s.display = some (t, rest) ∧
      ReadLine buf s x ⟨t.mem, t.display⟩ ∧ Ready commands text prompt q buf ⟨t.mem, t.display⟩ := by
  have happart := h.apart
  obtain ⟨r, hstart⟩ := h.asks.typing errorString buf (.start h.upright.1 h.upright.2)
  obtain ⟨r', htyping⟩ := hstart.typeAll errorString h.asks.short x.inLine
  obtain ⟨t, hend, hholds, houtside, hdisplay⟩ := htyping.close errorString
    (foldl_edit_nonzero x.inLine fun a ha => absurd ha List.not_mem_nil) x.newline
  refine ⟨t, ?_, ⟨hholds, houtside⟩, fun c hc => (h.names c hc).congr houtside, ?_, happart, ?_⟩
  · rw [LineEditing.readline, hstart.readLoop errorString h.asks.short x.inLine, readLoop, hend, if_pos rfl]
  · exact h.asks.congr fun a ha hle => houtside a (by omega)
  · rw [Upright, hdisplay]
    exact Upright.put ⟨htyping.window.lt, htyping.window.cursor⟩ _

/-- The line has no end, and `readline` waits for it. -/
theorem Ready.readline_waits (h : Ready commands text prompt q buf s) {cs : List ℤ} (hcs : ∀ c ∈ cs, InLine c) :
    LineEditing.readline errorString buf s.mem prompt cs s.display = none := by
  obtain ⟨r, hstart⟩ := h.asks.typing errorString buf (.start h.upright.1 h.upright.2)
  rw [LineEditing.readline, ← List.append_nil cs, hstart.readLoop errorString h.asks.short hcs, readLoop]

/-- The commands leave names, the prompt and the display in order, when they return, and read keys in their order. -/
def Orderly (commands : List Command) (text : ℕ → List UInt8) (prompt : ℕ) (q : List UInt8) (buf : ℕ) : Prop :=
  ∀ c ∈ commands, ∀ argc argv s cs, Ready commands text prompt q buf s → (∀ k ∈ cs, IsChar k) →
    (c.functionToExecute argc argv s cs).Keeps (Ready commands text prompt q buf) cs

theorem Ready.obeys {cs : List ℤ} {out : Outcome} (h : Ready commands text prompt q buf s)
    (hobeys : Obeys commands text buf l s cs out) (hkeep : Orderly commands text prompt q buf) (hcs : ∀ k ∈ cs, IsChar k) :
    out.Keeps (Ready commands text prompt q buf) cs := by
  have happart := h.apart
  have hmem {mem' : Memory} {d : Display} (houtside : ∀ a, a < buf ∨ buf + bufLen ≤ a → mem' a = s.mem a) (hd : Upright d) :
      Ready commands text prompt q buf ⟨mem', d⟩ :=
    ⟨fun c hc => (h.names c hc).congr houtside, h.asks.congr fun a ha hle => houtside a (by omega), happart, hd⟩
  cases hobeys with
  | blank _ arguments => exact ⟨hmem arguments.outside h.upright, List.suffix_rfl⟩
  | command _ arguments named =>
    exact hkeep _ (List.mem_of_find?_eq_some named) _ _ _ _ (hmem arguments.outside h.upright) hcs
  | suggest _ arguments _ _ =>
    exact ⟨hmem arguments.outside (List.foldlRecOn _ _ h.upright fun _ h c _ => h.printText _), List.suffix_rfl⟩
  | unknown _ arguments _ => exact ⟨hmem arguments.outside (h.upright.printText _), List.suffix_rfl⟩

/-- `"%s - %s\n"` -/
def helpFormat : List UInt8 := [37, 115, 32, 45, 32, 37, 115, 10]

/-- `"-------------------\n"` -/
def ruleFormat : List UInt8 := List.replicate 19 45 ++ [10]

/-- `"run %s - %s [User Program]\n"` -/
def runFormat : List UInt8 :=
  [114, 117, 110, 32, 37, 115, 32, 45, 32, 37, 115, 32, 91, 85, 115, 101, 114, 32, 80, 114, 111, 103, 114, 97, 109, 93, 10]

/-- `command_help`, with the names and descriptions of the commands and of the user programs. -/
def commandHelp (commands programs : List (ℕ × ℕ)) (_argc : ℕ) (_argv : ℕ → ℕ) (s : Shell)
    (cs : List ℤ) : Outcome :=
  let entry (format : List UInt8) (d : Display) (c : ℕ × ℕ) : Display :=
    (cprintf s.mem errorString format (fun k => if k = 0 then c.1 else c.2) d).2
  let d := commands.foldl (entry helpFormat) s.display
  let d := (cprintf s.mem errorString ruleFormat (fun _ => 0) d).2
  .returns 0 { s with display := programs.foldl (entry runFormat) d } cs

theorem Ready.help (h : Ready commands text prompt q buf s) (listed programs : List (ℕ × ℕ)) (argc : ℕ) (argv : ℕ → ℕ)
    (cs : List ℤ) : (commandHelp errorString listed programs argc argv s cs).Keeps (Ready commands text prompt q buf) cs := by
  refine ⟨⟨h.names, h.asks, h.apart, ?_⟩, List.suffix_rfl⟩
  have hcommands := List.foldlRecOn listed (motive := Upright)
    (fun d c => (cprintf s.mem errorString helpFormat (fun k => if k = 0 then c.1 else c.2) d).2) h.upright
    fun _ h c _ => h.printText _
  exact List.foldlRecOn programs _ (hcommands.printText _) fun _ h c _ => h.printText _

/-- Lines are read and obeyed in the order in which they are typed, until a command ends the prompt or does not return, or there
are no more keys. -/
theorem prompt_session {rounds n : ℕ} {cs : List ℤ} (argv : ℕ → ℕ) (h : Ready commands text prompt q buf s)
    (hkeep : Orderly commands text prompt q buf) (hcs : ∀ c ∈ cs, IsChar c) (hn : cs.length < n) (hrounds : bufLen ≤ rounds)
    (hbuf : 0 < buf ∧ buf + bufLen ≤ 2 ^ 32) :
    ∃ out, runCommandPrompt commands errorString rounds prompt buf argv n cs s = some out ∧
      Session commands text buf s cs out := by
  induction n generalizing cs s with
  | zero => exact absurd hn (Nat.not_lt_zero _)
  | succ n ih =>
    rcases split_line hcs with hline | ⟨x, rest, rfl⟩
    · exact ⟨.waits, by rw [runCommandPrompt, h.readline_waits errorString hline], .waits hline⟩
    · obtain ⟨t, hline, hread, hready⟩ := h.readline errorString x rest
      have hrest : ∀ k ∈ rest, IsChar k := fun k hk => hcs k (List.mem_append_right _ (List.mem_cons_of_mem _ hk))
      have hlen : x.line.length < bufLen := Nat.lt_succ_of_le (foldl_edit_length (Nat.zero_le _) x.keys)
      obtain ⟨out, hrun, hobeys⟩ := executeCommand_obeys errorString argv rest hready.names hread.holds hlen hrounds hbuf
      have hkeeps := hready.obeys hobeys hkeep hrest
      rw [runCommandPrompt, hline]
      simp only [hrun, Option.bind_eq_bind, Option.bind_some]
      cases out with
      | waits => exact ⟨.waits, rfl, .asks hread hobeys⟩
      | gone u cs' => exact ⟨.gone u cs', rfl, .leaves hread hobeys⟩
      | returns r u cs' =>
        obtain ⟨hu, hsuffix⟩ := hkeeps
        by_cases hr : r < 0
        · exact ⟨.returns r u cs', if_pos hr, .exits hread hobeys hr⟩
        · have hfuel : cs'.length < n := by
            have hle := hsuffix.length_le
            rw [List.length_append, List.length_cons] at hn
            omega
          obtain ⟨out, hgo, hsession⟩ := ih hu (fun k hk => hrest k (hsuffix.subset hk)) hfuel
          exact ⟨out, (if_neg hr).trans hgo, .goes hread hobeys (not_lt.mp hr) hsession⟩

theorem Ready.asks_line {buf' : ℕ} {cs : List ℤ} (h : Ready commands text prompt q buf s)
    (h' : Ready commands text prompt q buf' s) (hcs : ∀ k ∈ cs, IsChar k) :
    Outcome.Keeps (Ready commands text prompt q buf) cs (match LineEditing.readline errorString buf' s.mem prompt cs s.display with
      | none => .waits
      | some (line, cs) => .returns 0 ⟨line.mem, line.display⟩ cs) := by
  rcases split_line hcs with hline | ⟨x, rest, rfl⟩
  · rw [h'.readline_waits errorString hline]
    trivial
  · obtain ⟨t, hline, -, hready⟩ := h'.readline errorString x rest
    rw [hline]
    refine ⟨⟨fun c hc => ?_, hready.asks, h.apart, hready.upright⟩, ?_⟩
    · have hname := h.names c hc
      exact ⟨(hready.names c hc).holds, hname.nonnull, hname.fits, hname.short, hname.apart⟩
    · exact (List.suffix_cons _ _).trans (List.suffix_append _ _)

/-- `"help"` -/
def helpName : List UInt8 := [104, 101, 108, 112]

def helpCommand : Command := ⟨5000, 6000, commandHelp (fun _ => 0) [(5000, 6000)] []⟩

/-- `"buff"` -/
def askName : List UInt8 := [98, 117, 102, 102]

def askCommand : Command where
  name := 5008
  description := 6000
  functionToExecute _ _ s cs :=
    match readline (fun _ => 0) 16384 s.mem 4096 cs s.display with
    | none => .waits
    | some (line, cs) => .returns 0 ⟨line.mem, line.display⟩ cs

def shellText (name : ℕ) : List UInt8 := if name = 5000 then helpName else askName

def helpShell : Shell := ⟨store (store promptMemory 5000 helpName) 5008 askName, lastCell⟩

theorem ready_helpShell (buf : ℕ) (h : 5012 < buf ∧ 4101 < buf) :
    Ready [helpCommand, askCommand] shellText 4096 fosPrompt buf helpShell where
  names c hc := by
    rcases List.mem_pair.mp hc with rfl | rfl
    · have hhelp : HoldsString helpShell.mem 5000 helpName := by
        refine HoldsString.congr ?_ fun i hi => store_of_not (.inl ?_)
        · exact holdsString_of_getElem (fun _ hi => store_getElem hi) (by simp [helpName])
            ((store_of_not (.inr (Nat.le_refl _))).trans (store_of_not (.inr (by decide))))
        · have hle : i ≤ 4 := hi
          omega
      exact ⟨hhelp, by decide, by decide, by decide, .inl (Nat.lt_of_le_of_lt (by decide) h.1)⟩
    · have hask : HoldsString helpShell.mem 5008 askName :=
        holdsString_of_getElem (fun _ hi => store_getElem hi) (by simp [askName])
          ((store_of_not (.inr (Nat.le_refl _))).trans ((store_of_not (.inr (by decide))).trans (store_of_not (.inr (by decide)))))
      exact ⟨hask, by decide, by decide, by decide, .inl (Nat.lt_of_le_of_lt (by decide) h.1)⟩
  asks := by
    refine prompt_fos.congr fun a _ hle => ?_
    have ha : a < 5000 := Nat.lt_of_le_of_lt hle (by decide)
    exact (store_of_not (.inl (ha.trans (by decide)))).trans (store_of_not (.inl ha))
  apart := .inl (Nat.lt_of_le_of_lt (by decide) h.2)
  upright := ⟨by decide, by decide⟩

/-- `"buff\r4\rhe\r"` -/
def typedBuff : List ℤ := [98, 117, 102, 102, 13, 52, 13, 104, 101, 13]

theorem prompt_session_buff :
    ∃ out, runCommandPrompt [helpCommand, askCommand] (fun _ => 0) 1024 4096 8192 (fun _ => 0) 11 typedBuff helpShell = some out ∧
      Session [helpCommand, askCommand] shellText 8192 helpShell typedBuff out := by
  refine prompt_session (fun _ => 0) (fun _ => 0) (ready_helpShell 8192 (by decide)) (fun c hc argc argv s cs hs hcs => ?_)
    (by simp [typedBuff, IsChar]) (by decide) (by decide) (by decide)
  rcases List.mem_pair.mp hc with rfl | rfl
  · exact hs.help (fun _ => 0) [(5000, 6000)] [] argc argv cs
  · refine hs.asks_line (fun _ => 0) ⟨fun c hc => ?_, hs.asks, .inl (by decide), hs.upright⟩ hcs
    have hname := hs.names c hc
    refine ⟨hname.holds, hname.nonnull, hname.fits, hname.short, ?_⟩
    rcases List.mem_pair.mp hc with rfl | rfl
    · exact .inl (by decide)
    · exact .inl (by decide)

end FosKernel.CommandPrompt
