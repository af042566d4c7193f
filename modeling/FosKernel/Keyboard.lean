import Mathlib.Algebra.Group.Nat.Defs
import Mathlib.Data.List.Basic
import Mathlib.Data.List.Induction
import Mathlib.Data.List.Infix
import Mathlib.Tactic.Common

/-!
# The keyboard

The keyboard sends a byte when a key is pressed and another one when it is released. From these
`kbd_proc_data` makes characters.
-/

namespace FosKernel.Keyboard

def shiftFlag : BitVec 32 := 1 <<< 0
def ctlFlag : BitVec 32 := 1 <<< 1
def altFlag : BitVec 32 := 1 <<< 2
def capsLock : BitVec 32 := 1 <<< 3
def numLock : BitVec 32 := 1 <<< 4
def scrollLock : BitVec 32 := 1 <<< 5
def e0Esc : BitVec 32 := 1 <<< 6

def shiftcode : ℕ → BitVec 32
  | 0x1D => ctlFlag
  | 0x2A => shiftFlag
  | 0x36 => shiftFlag
  | 0x38 => altFlag
  | 0x9D => ctlFlag
  | 0xB8 => altFlag
  | _ => 0

def togglecode : ℕ → BitVec 32
  | 0x3A => capsLock
  | 0x45 => numLock
  | 0x46 => scrollLock
  | _ => 0

def keyDel : ℕ := 0xE9

/-- The keys without a character of ASCII, as `KEY_HOME` and `KEY_UP`. -/
def namedKey : ℕ → ℕ
  | 0x97 => 0xE0
  | 0xC8 => 0xE2
  | 0xC9 => 0xE6
  | 0xCB => 0xE4
  | 0xCD => 0xE5
  | 0xCF => 0xE1
  | 0xD0 => 0xE3
  | 0xD1 => 0xE7
  | 0xD2 => 0xE8
  | 0xD3 => keyDel
  | _ => 0

/-- The keys of the pad from 0x40 on, the same in `normalmap` and `shiftmap`. -/
def padKeys : List ℕ :=
  [0, 0, 0, 0, 0, 0, 0, 55, 56, 57, 45, 52, 53, 54, 43, 49, 50, 51, 48, 46]

def normalKeys : List ℕ :=
  [0, 27, 49, 50, 51, 52, 53, 54, 55, 56, 57, 48, 45, 61, 8, 9,
   113, 119, 101, 114, 116, 121, 117, 105, 111, 112, 91, 93, 10, 0, 97, 115,
   100, 102, 103, 104, 106, 107, 108, 59, 39, 96, 0, 92, 122, 120, 99, 118,
   98, 110, 109, 44, 46, 47, 0, 42, 0, 32, 0, 0, 0, 0, 0, 0] ++ padKeys

def shiftKeys : List ℕ :=
  [0, 27, 33, 64, 35, 36, 37, 94, 38, 42, 40, 41, 95, 43, 8, 9,
   81, 87, 69, 82, 84, 89, 85, 73, 79, 80, 123, 125, 10, 0, 65, 83,
   68, 70, 71, 72, 74, 75, 76, 58, 34, 126, 0, 124, 90, 88, 67, 86,
   66, 78, 77, 60, 62, 63, 0, 42, 0, 32, 0, 0, 0, 0, 0, 0] ++ padKeys

/-- `C('/')` is outside the control characters: as a `uint8` it is 239. -/
def ctlKeys : List ℕ :=
  [0, 0, 0, 0, 0, 0, 0, 0, 0, 0, 0, 0, 0, 0, 0, 0,
   17, 23, 5, 18, 20, 25, 21, 9, 15, 16, 0, 0, 13, 0, 1, 19,
   4, 6, 7, 8, 10, 11, 12, 0, 0, 0, 0, 28, 26, 24, 3, 22,
   2, 14, 13, 0, 0, 239, 0, 0]

def normalmap (data : ℕ) : ℕ :=
  if data = 0x9C then 10 else if data = 0xB5 then 47 else normalKeys.getD data (namedKey data)

def shiftmap (data : ℕ) : ℕ :=
  if data = 0x9C then 10 else if data = 0xB5 then 47 else shiftKeys.getD data (namedKey data)

def ctlmap (data : ℕ) : ℕ := if data = 0xB5 then 239 else ctlKeys.getD data (namedKey data)

def charcode : ℕ → ℕ → ℕ
  | 0 => normalmap
  | 1 => shiftmap
  | _ => ctlmap

/-- What `CAPSLOCK` does to a character. -/
def swapCase (c : ℕ) : ℕ :=
  if 97 ≤ c ∧ c ≤ 122 then c - 32 else if 65 ≤ c ∧ c ≤ 90 then c + 32 else c

/-- The result of `kbd_proc_data`, the flags in `shift`, and whether the machine is told to reboot. -/
structure Received where
  c : ℕ
  shift : BitVec 32
  reboot : Bool

/-- The end of `kbd_proc_data`, for a key that is pressed. -/
def pressed (data : ℕ) (shift : BitVec 32) : Received :=
  let shift := shift ||| shiftcode data
  let shift := shift ^^^ togglecode data
  let c := charcode (shift &&& (ctlFlag ||| shiftFlag)).toNat data
  let c := if shift &&& capsLock ≠ 0 then swapCase c else c
  ⟨c, shift, ~~~shift &&& (ctlFlag ||| altFlag) = 0 && c = keyDel⟩

/-- `kbd_proc_data`, when there is a byte. -/
def kbdProcData (data : ℕ) (shift : BitVec 32) : Received :=
  if data = 0xE0 then ⟨0, shift ||| e0Esc, false⟩
  else if data &&& 0x80 ≠ 0 then
    let data := if shift &&& e0Esc ≠ 0 then data else data &&& 0x7F
    ⟨0, shift &&& ~~~(shiftcode data ||| e0Esc), false⟩
  else if shift &&& e0Esc ≠ 0 then pressed (data ||| 0x80) (shift &&& ~~~e0Esc)
  else pressed data shift

/-- The flags, what was received, and whether the machine was told to reboot. -/
structure Port where
  shift : BitVec 32
  results : List ℕ
  reboot : Bool

def receive (s : Port) (data : ℕ) : Port :=
  let r := kbdProcData data s.shift
  ⟨r.shift, s.results ++ [r.c], s.reboot || r.reboot⟩

def receiveAll (codes : List ℕ) (s : Port) : Port := codes.foldl receive s

/-- A key is pressed or released. Keys with a code that follows 0xE0 have numbers from 128 on. -/
structure KeyEvent where
  key : ℕ
  down : Bool
deriving DecidableEq

def KeyEvent.scanCodes (e : KeyEvent) : List ℕ :=
  (if 128 ≤ e.key then [0xE0] else []) ++ [e.key % 128 + if e.down then 0 else 128]

/-- No key has the code whose release would look like 0xE0. -/
def KeyEvent.Legal (e : KeyEvent) : Prop := e.key < 256 ∧ e.key % 128 ≠ 0x60

instance (e : KeyEvent) : Decidable e.Legal := inferInstanceAs (Decidable (e.key < 256 ∧ e.key % 128 ≠ 0x60))

/-- The keys that are held, and the locks. -/
structure Modifiers where
  shift : Bool
  ctl : Bool
  alt : Bool
  caps : Bool
  num : Bool
  scroll : Bool
deriving DecidableEq

def shiftSet : List ℕ := [0x2A, 0x36]
def ctlSet : List ℕ := [0x1D, 0x9D]
def altSet : List ℕ := [0x38, 0xB8]

/-- A key is held from now on, or is not any more. -/
def Modifiers.hold (m : Modifiers) (key : ℕ) (down : Bool) : Modifiers :=
  { m with
    shift := if key ∈ shiftSet then down else m.shift
    ctl := if key ∈ ctlSet then down else m.ctl
    alt := if key ∈ altSet then down else m.alt }

def Modifiers.toggle (m : Modifiers) (key : ℕ) : Modifiers :=
  { m with
    caps := if key = 0x3A then !m.caps else m.caps
    num := if key = 0x45 then !m.num else m.num
    scroll := if key = 0x46 then !m.scroll else m.scroll }

def Modifiers.strike (m : Modifiers) (e : KeyEvent) : Modifiers :=
  if e.down then (m.hold e.key true).toggle e.key else m.hold e.key false

def Modifiers.character (m : Modifiers) (key : ℕ) : ℕ :=
  let c := if m.ctl then ctlmap key else if m.shift then shiftmap key else normalmap key
  if m.caps then swapCase c else c

def Modifiers.word (m : Modifiers) : BitVec 32 :=
  (if m.shift then shiftFlag else 0) ||| (if m.ctl then ctlFlag else 0) ||| (if m.alt then altFlag else 0) |||
    (if m.caps then capsLock else 0) ||| (if m.num then numLock else 0) ||| (if m.scroll then scrollLock else 0)

variable {m : Modifiers} {e : KeyEvent} {es : List KeyEvent} {key c : ℕ}

theorem word_press_shift (m : Modifiers) : m.word ||| shiftFlag = { m with shift := true }.word := by
  rcases m with ⟨_ | _, _ | _, _ | _, _ | _, _ | _, _ | _⟩ <;> rfl

theorem word_press_ctl (m : Modifiers) : m.word ||| ctlFlag = { m with ctl := true }.word := by
  rcases m with ⟨_ | _, _ | _, _ | _, _ | _, _ | _, _ | _⟩ <;> rfl

theorem word_press_alt (m : Modifiers) : m.word ||| altFlag = { m with alt := true }.word := by
  rcases m with ⟨_ | _, _ | _, _ | _, _ | _, _ | _, _ | _⟩ <;> rfl

theorem word_release_shift (m : Modifiers) : m.word &&& ~~~(shiftFlag ||| e0Esc) = { m with shift := false }.word := by
  rcases m with ⟨_ | _, _ | _, _ | _, _ | _, _ | _, _ | _⟩ <;> rfl

theorem word_release_ctl (m : Modifiers) : m.word &&& ~~~(ctlFlag ||| e0Esc) = { m with ctl := false }.word := by
  rcases m with ⟨_ | _, _ | _, _ | _, _ | _, _ | _, _ | _⟩ <;> rfl

theorem word_release_alt (m : Modifiers) : m.word &&& ~~~(altFlag ||| e0Esc) = { m with alt := false }.word := by
  rcases m with ⟨_ | _, _ | _, _ | _, _ | _, _ | _, _ | _⟩ <;> rfl

theorem word_release_other (m : Modifiers) : m.word &&& ~~~(0 ||| e0Esc) = m.word := by
  rcases m with ⟨_ | _, _ | _, _ | _, _ | _, _ | _, _ | _⟩ <;> rfl

theorem word_caps (m : Modifiers) : m.word ^^^ capsLock = { m with caps := !m.caps }.word := by
  rcases m with ⟨_ | _, _ | _, _ | _, _ | _, _ | _, _ | _⟩ <;> rfl

theorem word_num (m : Modifiers) : m.word ^^^ numLock = { m with num := !m.num }.word := by
  rcases m with ⟨_ | _, _ | _, _ | _, _ | _, _ | _, _ | _⟩ <;> rfl

theorem word_scroll (m : Modifiers) : m.word ^^^ scrollLock = { m with scroll := !m.scroll }.word := by
  rcases m with ⟨_ | _, _ | _, _ | _, _ | _, _ | _, _ | _⟩ <;> rfl

theorem word_e0Esc (m : Modifiers) : m.word &&& e0Esc = 0 := by
  rcases m with ⟨_ | _, _ | _, _ | _, _ | _, _ | _, _ | _⟩ <;> rfl

theorem word_escaped (m : Modifiers) : (m.word ||| e0Esc) &&& e0Esc ≠ 0 := by
  rcases m with ⟨_ | _, _ | _, _ | _, _ | _, _ | _, _ | _⟩ <;> decide

theorem word_unescaped (m : Modifiers) : (m.word ||| e0Esc) &&& ~~~e0Esc = m.word := by
  rcases m with ⟨_ | _, _ | _, _ | _, _ | _, _ | _, _ | _⟩ <;> rfl

theorem word_charcode (m : Modifiers) : charcode (m.word &&& (ctlFlag ||| shiftFlag)).toNat =
    if m.ctl then ctlmap else if m.shift then shiftmap else normalmap := by
  rcases m with ⟨_ | _, _ | _, _ | _, _ | _, _ | _, _ | _⟩ <;> rfl

theorem word_capsLock (m : Modifiers) : m.word &&& capsLock ≠ 0 ↔ m.caps = true := by
  rcases m with ⟨_ | _, _ | _, _ | _, _ | _, _ | _, _ | _⟩ <;> decide

theorem word_ctlAlt (m : Modifiers) : decide (~~~m.word &&& (ctlFlag ||| altFlag) = 0) = (m.ctl && m.alt) := by
  rcases m with ⟨_ | _, _ | _, _ | _, _ | _, _ | _, _ | _⟩ <;> rfl

theorem hold_other (h : key ∉ shiftSet ++ ctlSet ++ altSet) (down : Bool) : m.hold key down = m := by
  simp only [List.mem_append, not_or] at h
  simp only [Modifiers.hold, if_neg h.1.1, if_neg h.1.2, if_neg h.2]

theorem toggle_other (hcaps : key ≠ 0x3A) (hnum : key ≠ 0x45) (hscroll : key ≠ 0x46) : m.toggle key = m := by
  simp only [Modifiers.toggle, if_neg hcaps, if_neg hnum, if_neg hscroll]

theorem word_hold (m : Modifiers) (key : ℕ) : m.word ||| shiftcode key = (m.hold key true).word := by
  unfold shiftcode
  split
  · exact word_press_ctl m
  · exact word_press_shift m
  · exact word_press_shift m
  · exact word_press_alt m
  · exact word_press_ctl m
  · exact word_press_alt m
  · rw [hold_other (by simp_all [shiftSet, ctlSet, altSet])]
    exact BitVec.or_zero

theorem word_release (m : Modifiers) (key : ℕ) : m.word &&& ~~~(shiftcode key ||| e0Esc) = (m.hold key false).word := by
  unfold shiftcode
  split
  · exact word_release_ctl m
  · exact word_release_shift m
  · exact word_release_shift m
  · exact word_release_alt m
  · exact word_release_ctl m
  · exact word_release_alt m
  · rw [hold_other (by simp_all [shiftSet, ctlSet, altSet])]
    exact word_release_other m

theorem word_toggle (m : Modifiers) (key : ℕ) : m.word ^^^ togglecode key = (m.toggle key).word := by
  unfold togglecode
  split
  · exact word_caps m
  · exact word_num m
  · exact word_scroll m
  · rename_i hcaps hnum hscroll
    rw [toggle_other hcaps hnum hscroll]
    exact BitVec.xor_zero

theorem escaped_release (m : Modifiers) (f : BitVec 32) :
    (m.word ||| e0Esc) &&& ~~~(f ||| e0Esc) = m.word &&& ~~~(f ||| e0Esc) := by
  ext i
  simp only [BitVec.getElem_and, BitVec.getElem_or, BitVec.getElem_not]
  cases m.word[i] <;> cases f[i] <;> cases e0Esc[i] <;> rfl

/-- The modifiers, the characters so far, and whether the keys to reboot were pressed. -/
structure Keys where
  modifiers : Modifiers
  text : List ℕ
  reboot : Bool

/-- A key is pressed, which gives a character if it has one, or it is released. -/
def Keys.strike (k : Keys) (e : KeyEvent) : Keys :=
  let m := k.modifiers.strike e
  if e.down then ⟨m, k.text ++ [m.character e.key].filter (· ≠ 0), k.reboot || (m.ctl && m.alt && m.character e.key = keyDel)⟩
  else ⟨m, k.text, k.reboot⟩

/-- The port has the flags and the characters of the keys. -/
structure Decodes (s : Port) (k : Keys) : Prop where
  shift : s.shift = k.modifiers.word
  text : s.results.filter (· ≠ 0) = k.text
  reboot : s.reboot = k.reboot

variable {s : Port} {k : Keys}

theorem and_low : ∀ d < 128, d &&& 0x80 = 0 ∧ d ||| 0x80 = d + 128 ∧ (d + 128) &&& 0x80 ≠ 0 ∧
    (d + 128) &&& 0x7F = d := by
  decide

theorem pressed_eq (m : Modifiers) (key : ℕ) : pressed key m.word =
    ⟨(m.strike ⟨key, true⟩).character key, (m.strike ⟨key, true⟩).word,
      (m.strike ⟨key, true⟩).ctl && (m.strike ⟨key, true⟩).alt && (m.strike ⟨key, true⟩).character key = keyDel⟩ := by
  have hstrike : m.strike ⟨key, true⟩ = (m.hold key true).toggle key := rfl
  rw [hstrike]
  simp only [pressed, word_hold, word_toggle, word_charcode, word_capsLock, word_ctlAlt]
  generalize (m.hold key true).toggle key = m
  rw [Modifiers.character]
  cases m.ctl <;> cases m.shift <;> rfl

theorem receive_escape (h : Decodes s k) : receive s 0xE0 = ⟨k.modifiers.word ||| e0Esc, s.results ++ [0], s.reboot⟩ := by
  rw [receive, kbdProcData, if_pos rfl, h.shift]
  simp

theorem receive_press (h : Decodes s k) (hlegal : (KeyEvent.mk key true).Legal) :
    Decodes (receiveAll (KeyEvent.mk key true).scanCodes s) (k.strike ⟨key, true⟩) := by
  obtain ⟨hlt, hne⟩ := hlegal
  simp only at hlt hne
  have hpressed := pressed_eq k.modifiers key
  set m := k.modifiers.strike ⟨key, true⟩
  have hstrike : k.strike ⟨key, true⟩ = ⟨m, k.text ++ [m.character key].filter (· ≠ 0),
    k.reboot || (m.ctl && m.alt && m.character key = keyDel)⟩ := rfl
  rw [hstrike]
  by_cases hext : 128 ≤ key
  · obtain ⟨hand, hor, -⟩ := and_low (key % 128) (Nat.mod_lt _ (by decide))
    have hkey : key % 128 + 128 = key := by omega
    have hcodes : (KeyEvent.mk key true).scanCodes = [0xE0, key % 128] := by simp [KeyEvent.scanCodes, hext]
    have hcode : kbdProcData (key % 128) (k.modifiers.word ||| e0Esc) =
        ⟨m.character key, m.word, m.ctl && m.alt && m.character key = keyDel⟩ := by
      rw [kbdProcData, if_neg (by omega), if_neg (not_not.mpr hand), if_pos (word_escaped _), word_unescaped, hor,
        hkey, hpressed]
    rw [hcodes, receiveAll, List.foldl_cons, receive_escape h, List.foldl_cons, List.foldl_nil, receive, hcode]
    exact ⟨rfl, by simp [← h.text], by rw [h.reboot]⟩
  · obtain ⟨hand, -, -⟩ := and_low key (by omega)
    have hcodes : (KeyEvent.mk key true).scanCodes = [key] := by
      simp [KeyEvent.scanCodes, hext, Nat.mod_eq_of_lt (Nat.not_le.mp hext)]
    have hcode : kbdProcData key k.modifiers.word = ⟨m.character key, m.word, m.ctl && m.alt && m.character key = keyDel⟩ := by
      rw [kbdProcData, if_neg (by omega), if_neg (not_not.mpr hand), if_neg (not_not.mpr (word_e0Esc _)), hpressed]
    rw [hcodes, receiveAll, List.foldl_cons, List.foldl_nil, receive, h.shift, hcode]
    exact ⟨rfl, by rw [List.filter_append, h.text], by rw [h.reboot]⟩

theorem receive_release (h : Decodes s k) (hlegal : (KeyEvent.mk key false).Legal) :
    Decodes (receiveAll (KeyEvent.mk key false).scanCodes s) (k.strike ⟨key, false⟩) := by
  obtain ⟨hlt, hne⟩ := hlegal
  simp only at hlt hne
  have hrelease := word_release k.modifiers key
  have hstrike : k.strike ⟨key, false⟩ = ⟨k.modifiers.hold key false, k.text, k.reboot⟩ := rfl
  rw [hstrike]
  obtain ⟨-, -, hand, hlow⟩ := and_low (key % 128) (Nat.mod_lt _ (by decide))
  by_cases hext : 128 ≤ key
  · have hkey : key % 128 + 128 = key := by omega
    have hcodes : (KeyEvent.mk key false).scanCodes = [0xE0, key] := by simp [KeyEvent.scanCodes, hext, hkey]
    have hcode : kbdProcData key (k.modifiers.word ||| e0Esc) = ⟨0, (k.modifiers.hold key false).word, false⟩ := by
      rw [hkey] at hand
      rw [kbdProcData, if_neg (by omega), if_pos hand]
      simp only [if_pos (word_escaped k.modifiers), escaped_release, hrelease]
    rw [hcodes, receiveAll, List.foldl_cons, receive_escape h, List.foldl_cons, List.foldl_nil, receive, hcode]
    exact ⟨rfl, by simp [← h.text], by rw [h.reboot, Bool.or_false]⟩
  · have hmod : key % 128 = key := Nat.mod_eq_of_lt (Nat.not_le.mp hext)
    rw [hmod] at hand hlow hne
    have hcodes : (KeyEvent.mk key false).scanCodes = [key + 128] := by simp [KeyEvent.scanCodes, hext, hmod]
    have hcode : kbdProcData (key + 128) k.modifiers.word = ⟨0, (k.modifiers.hold key false).word, false⟩ := by
      rw [kbdProcData, if_neg (by omega), if_pos hand]
      simp only [if_neg (not_not.mpr (word_e0Esc k.modifiers)), hlow, hrelease]
    rw [hcodes, receiveAll, List.foldl_cons, List.foldl_nil, receive, h.shift, hcode]
    exact ⟨rfl, by simp [← h.text], by rw [h.reboot, Bool.or_false]⟩

theorem Decodes.strike (h : Decodes s k) (hlegal : e.Legal) : Decodes (receiveAll e.scanCodes s) (k.strike e) := by
  obtain ⟨key, down⟩ := e
  cases down with
  | true => exact receive_press h hlegal
  | false => exact receive_release h hlegal

theorem Decodes.strikeAll (h : Decodes s k) (hlegal : ∀ e ∈ es, e.Legal) :
    Decodes (receiveAll (es.flatMap KeyEvent.scanCodes) s) (es.foldl Keys.strike k) := by
  induction es generalizing s k with
  | nil => exact h
  | cons e es ih =>
    rw [List.flatMap_cons, receiveAll, List.foldl_append]
    exact ih (h.strike (hlegal e List.mem_cons_self)) fun e' he' => hlegal e' (List.mem_cons_of_mem e he')

theorem getD_lt {l : List ℕ} (hl : ∀ c ∈ l, c < 256) {d : ℕ} (hd : d < 256) (i : ℕ) : l.getD i d < 256 := by
  rw [List.getD_eq_getElem?_getD]
  cases h : l[i]? with
  | none => exact hd
  | some c => exact hl c (List.mem_of_getElem? h)

theorem namedKey_lt (data : ℕ) : namedKey data < 256 := by
  unfold namedKey keyDel
  split <;> decide

theorem charcode_lt (i data : ℕ) : charcode i data < 256 := by
  have hnormal : normalmap data < 256 := by
    rw [normalmap]
    split_ifs
    · decide
    · decide
    · exact getD_lt (by decide) (namedKey_lt data) data
  have hshift : shiftmap data < 256 := by
    rw [shiftmap]
    split_ifs
    · decide
    · decide
    · exact getD_lt (by decide) (namedKey_lt data) data
  have hctl : ctlmap data < 256 := by
    rw [ctlmap]
    split_ifs
    · decide
    · exact getD_lt (by decide) (namedKey_lt data) data
  unfold charcode
  split
  · exact hnormal
  · exact hshift
  · exact hctl

theorem swapCase_lt {c : ℕ} (h : c < 256) : swapCase c < 256 := by
  rw [swapCase]
  split_ifs <;> omega

theorem character_lt (m : Modifiers) (key : ℕ) : m.character key < 256 := by
  have hmap : (if m.ctl then ctlmap key else if m.shift then shiftmap key else normalmap key) < 256 := by
    split_ifs
    · exact charcode_lt 2 key
    · exact charcode_lt 1 key
    · exact charcode_lt 0 key
  rw [Modifiers.character]
  cases m.caps with
  | true => exact swapCase_lt hmap
  | false => exact hmap

theorem kbdProcData_lt (data : ℕ) (shift : BitVec 32) : (kbdProcData data shift).c < 256 := by
  have hpressed (data : ℕ) (shift : BitVec 32) : (pressed data shift).c < 256 := by
    simp only [pressed]
    split_ifs
    · exact swapCase_lt (charcode_lt _ _)
    · exact charcode_lt _ _
  rw [kbdProcData]
  split_ifs
  · exact Nat.zero_lt_succ _
  · exact Nat.zero_lt_succ _
  · exact Nat.zero_lt_succ _
  · exact hpressed _ _
  · exact hpressed _ _

theorem receiveAll_lt (codes : List ℕ) {p : Port} (hp : ∀ c ∈ p.results, c < 256) :
    ∀ c ∈ (receiveAll codes p).results, c < 256 := by
  induction codes generalizing p with
  | nil => exact hp
  | cons data codes ih =>
    refine ih fun c hc => ?_
    rcases List.mem_append.mp hc with hc | hc
    · exact hp c hc
    · exact List.mem_singleton.mp hc ▸ kbdProcData_lt data p.shift

/-- The key was pressed, and has not been released since. -/
def isHeld (es : List KeyEvent) (key : ℕ) : Bool := ((es.filter (·.key = key)).getLast?.map KeyEvent.down).getD false

def anyHeld (keys : List ℕ) (es : List KeyEvent) : Bool := keys.any (isHeld es)

/-- What the driver takes for it: the last of these keys that was pressed or released was pressed. -/
def lastPressed (keys : List ℕ) (es : List KeyEvent) : Bool :=
  ((es.filter (·.key ∈ keys)).getLast?.map KeyEvent.down).getD false

/-- One of the keys was released while another one was held, and none of them was pressed or released since. -/
def Dropped (keys : List ℕ) (es : List KeyEvent) : Prop :=
  ∃ past e later, es = past ++ e :: later ∧ e.key ∈ keys ∧ e.down = false ∧ (∀ e' ∈ later, e'.key ∉ keys) ∧
    ∃ key ∈ keys, key ≠ e.key ∧ isHeld past key = true

/-- The key was pressed an odd number of times. -/
def locked (key : ℕ) (es : List KeyEvent) : Bool := (es.filter fun e => e.key = key && e.down).length % 2 = 1

def heldAfter (es : List KeyEvent) : Modifiers where
  shift := anyHeld shiftSet es
  ctl := anyHeld ctlSet es
  alt := anyHeld altSet es
  caps := locked 0x3A es
  num := locked 0x45 es
  scroll := locked 0x46 es

def modifiersAfter (es : List KeyEvent) : Modifiers where
  shift := lastPressed shiftSet es
  ctl := lastPressed ctlSet es
  alt := lastPressed altSet es
  caps := locked 0x3A es
  num := locked 0x45 es
  scroll := locked 0x46 es

section Typed

variable (after : List KeyEvent → Modifiers)

/-- The characters of the keys that are pressed. -/
def typedFrom (past : List KeyEvent) : List KeyEvent → List ℕ
  | [] => []
  | e :: es => (if e.down then [(after (past ++ [e])).character e.key].filter (· ≠ 0) else []) ++
      typedFrom (past ++ [e]) es

def rebootsFrom (past : List KeyEvent) : List KeyEvent → Bool
  | [] => false
  | e :: es =>
    let m := after (past ++ [e])
    e.down && (m.ctl && m.alt && m.character e.key = keyDel) || rebootsFrom (past ++ [e]) es

end Typed

theorem isHeld_concat (es : List KeyEvent) (e : KeyEvent) (key : ℕ) :
    isHeld (es ++ [e]) key = if e.key = key then e.down else isHeld es key := by
  rw [isHeld, List.filter_append]
  by_cases h : e.key = key
  · rw [if_pos h, List.filter_cons_of_pos (by simpa using h)]
    simp
  · rw [if_neg h, List.filter_cons_of_neg (by simpa using h), List.filter_nil, List.append_nil, isHeld]

theorem lastPressed_concat (keys : List ℕ) (es : List KeyEvent) (e : KeyEvent) :
    lastPressed keys (es ++ [e]) = if e.key ∈ keys then e.down else lastPressed keys es := by
  rw [lastPressed, List.filter_append]
  by_cases h : e.key ∈ keys
  · rw [if_pos h, List.filter_cons_of_pos (by simpa using h)]
    simp
  · rw [if_neg h, List.filter_cons_of_neg (by simpa using h), List.filter_nil, List.append_nil, lastPressed]

theorem anyHeld_eq_true {keys : List ℕ} : anyHeld keys es = true ↔ ∃ key ∈ keys, isHeld es key = true := List.any_eq_true

theorem anyHeld_concat_of_not_mem {keys : List ℕ} (h : e.key ∉ keys) (es : List KeyEvent) :
    anyHeld keys (es ++ [e]) = anyHeld keys es := by
  have hsame : ∀ key ∈ keys, isHeld (es ++ [e]) key = isHeld es key := by
    intro key hkey
    have hne : e.key ≠ key := fun heq => h (by rwa [heq])
    rw [isHeld_concat, if_neg hne]
  rw [Bool.eq_iff_iff, anyHeld_eq_true, anyHeld_eq_true]
  exact exists_congr fun key => and_congr_right fun hkey => by rw [hsame key hkey]

theorem anyHeld_of_lastPressed {keys : List ℕ} (h : lastPressed keys es = true) : anyHeld keys es = true := by
  induction es using List.reverseRecOn with
  | nil => cases h
  | append_singleton es e ih =>
    rw [lastPressed_concat] at h
    by_cases hmem : e.key ∈ keys
    · rw [if_pos hmem] at h
      exact anyHeld_eq_true.mpr ⟨e.key, hmem, by rw [isHeld_concat, if_pos rfl, h]⟩
    · rw [if_neg hmem] at h
      rw [anyHeld_concat_of_not_mem hmem, ih h]

theorem Dropped.concat {keys : List ℕ} (h : Dropped keys es) (he : e.key ∉ keys) : Dropped keys (es ++ [e]) := by
  obtain ⟨past, e', later, rfl, hkey, hup, hlater, hheld⟩ := h
  refine ⟨past, e', later ++ [e], by rw [List.append_assoc, List.cons_append], hkey, hup, ?_, hheld⟩
  exact List.forall_mem_append.mpr ⟨hlater, List.forall_mem_singleton.mpr he⟩

theorem dropped_of_ne {keys : List ℕ} (hheld : anyHeld keys es = true) (h : lastPressed keys es = false) : Dropped keys es := by
  induction es using List.reverseRecOn with
  | nil =>
    obtain ⟨key, -, hkey⟩ := anyHeld_eq_true.mp hheld
    cases hkey
  | append_singleton es e ih =>
    rw [lastPressed_concat] at h
    by_cases hmem : e.key ∈ keys
    · rw [if_pos hmem] at h
      obtain ⟨key, hkey, hdown⟩ := anyHeld_eq_true.mp hheld
      rw [isHeld_concat] at hdown
      by_cases heq : e.key = key
      · rw [if_pos heq, h] at hdown
        cases hdown
      · rw [if_neg heq] at hdown
        exact ⟨es, e, [], rfl, hmem, h, List.forall_mem_nil _, key, hkey, Ne.symm heq, hdown⟩
    · rw [if_neg hmem] at h
      rw [anyHeld_concat_of_not_mem hmem] at hheld
      exact (ih hheld h).concat hmem

theorem Dropped.ne {keys : List ℕ} (h : Dropped keys es) : anyHeld keys es = true ∧ lastPressed keys es = false := by
  obtain ⟨past, e, later, rfl, hmem, hup, hlater, key, hkey, hne, hheld⟩ := h
  induction later using List.reverseRecOn with
  | nil =>
    rw [lastPressed_concat, if_pos hmem]
    exact ⟨anyHeld_eq_true.mpr ⟨key, hkey, by rw [isHeld_concat, if_neg (Ne.symm hne), hheld]⟩, hup⟩
  | append_singleton later e' ih =>
    obtain ⟨hbefore, hlast⟩ := List.forall_mem_append.mp hlater
    have hother : e'.key ∉ keys := hlast e' (List.mem_singleton_self e')
    rw [← List.cons_append, ← List.append_assoc, lastPressed_concat, if_neg hother, anyHeld_concat_of_not_mem hother]
    exact ih hbefore

theorem lastPressed_eq_iff (keys : List ℕ) (es : List KeyEvent) : lastPressed keys es = anyHeld keys es ↔ ¬Dropped keys es := by
  constructor
  · intro heq hdropped
    obtain ⟨hheld, hlast⟩ := hdropped.ne
    rw [hheld, hlast] at heq
    cases heq
  · intro hno
    cases hlast : lastPressed keys es with
    | true => exact (anyHeld_of_lastPressed hlast).symm
    | false => exact (Bool.eq_false_iff.mpr fun hheld => hno (dropped_of_ne hheld hlast)).symm

/-- No key that is held was lost to one of its kind. -/
def NoneDropped (es : List KeyEvent) : Prop := ¬Dropped shiftSet es ∧ ¬Dropped ctlSet es ∧ ¬Dropped altSet es

theorem modifiersAfter_eq_iff (es : List KeyEvent) : modifiersAfter es = heldAfter es ↔ NoneDropped es := by
  rw [NoneDropped, ← lastPressed_eq_iff, ← lastPressed_eq_iff, ← lastPressed_eq_iff]
  simp [modifiersAfter, heldAfter]

theorem word_bits (m : Modifiers) : m.word.getLsbD 0 = m.shift ∧ m.word.getLsbD 1 = m.ctl ∧ m.word.getLsbD 2 = m.alt ∧
    m.word.getLsbD 3 = m.caps ∧ m.word.getLsbD 4 = m.num ∧ m.word.getLsbD 5 = m.scroll := by
  rcases m with ⟨_ | _, _ | _, _ | _, _ | _, _ | _, _ | _⟩ <;> decide

theorem word_injective : Function.Injective Modifiers.word := by
  intro m m' h
  obtain ⟨hshift, hctl, halt, hcaps, hnum, hscroll⟩ := word_bits m
  obtain ⟨hshift', hctl', halt', hcaps', hnum', hscroll'⟩ := word_bits m'
  rw [h] at hshift hctl halt hcaps hnum hscroll
  cases m
  cases m'
  exact Modifiers.mk.injEq .. ▸ ⟨hshift.symm.trans hshift', hctl.symm.trans hctl', halt.symm.trans halt',
    hcaps.symm.trans hcaps', hnum.symm.trans hnum', hscroll.symm.trans hscroll'⟩

theorem locked_concat (key : ℕ) (es : List KeyEvent) (e : KeyEvent) :
    locked key (es ++ [e]) = if e.key = key && e.down then !locked key es else locked key es := by
  rw [locked, locked, List.filter_append, List.length_append, List.filter_singleton]
  generalize (es.filter fun e => e.key = key && e.down).length = n
  cases e.key = key && e.down with
  | false => rfl
  | true =>
    have hodd : (n + 1) % 2 = 1 ↔ ¬n % 2 = 1 := by omega
    exact (decide_eq_decide.mpr hodd).trans (decide_not ..)

theorem modifiersAfter_concat (es : List KeyEvent) (e : KeyEvent) :
    modifiersAfter (es ++ [e]) = (modifiersAfter es).strike e := by
  obtain ⟨key, down⟩ := e
  simp only [modifiersAfter, lastPressed_concat, locked_concat]
  cases down with
  | true => simp [Modifiers.strike, Modifiers.hold, Modifiers.toggle]
  | false => simp [Modifiers.strike, Modifiers.hold]

theorem foldl_strike (es past : List KeyEvent) (text : List ℕ) (reboot : Bool) :
    es.foldl Keys.strike ⟨modifiersAfter past, text, reboot⟩ =
    ⟨modifiersAfter (past ++ es), text ++ typedFrom modifiersAfter past es, reboot || rebootsFrom modifiersAfter past es⟩ := by
  induction es generalizing past text reboot with
  | nil => simp [typedFrom, rebootsFrom]
  | cons e es ih =>
    rw [List.foldl_cons, Keys.strike, ← modifiersAfter_concat, typedFrom, rebootsFrom]
    cases e.down with
    | true => simp [ih, Bool.or_assoc]
    | false => simp [ih]

theorem typedFrom_congr {after after' : List KeyEvent → Modifiers} (past : List KeyEvent)
    (h : ∀ t, t <+: es → t ≠ [] → after (past ++ t) = after' (past ++ t)) :
    typedFrom after past es = typedFrom after' past es ∧ rebootsFrom after past es = rebootsFrom after' past es := by
  induction es generalizing past with
  | nil => exact ⟨rfl, rfl⟩
  | cons e es ih =>
    have hfirst := h [e] (List.prefix_append [e] es) (List.cons_ne_nil e [])
    obtain ⟨htyped, hreboots⟩ := ih (past ++ [e]) fun t ht _ => by
      rw [List.append_assoc, List.singleton_append]
      exact h (e :: t) ((List.prefix_cons_inj e).mpr ht) (List.cons_ne_nil e t)
    rw [typedFrom, typedFrom, rebootsFrom, rebootsFrom, hfirst, htyped, hreboots]
    exact ⟨rfl, rfl⟩

/-- The driver finds the characters that were typed, with the keys that it takes for held. These are the keys that are held unless
one of them was released before another one of its kind; while none is, the characters are those of the keys that are held. -/
theorem kbd_decodes (hlegal : ∀ e ∈ es, e.Legal) (hs : s = receiveAll (es.flatMap KeyEvent.scanCodes) ⟨0, [], false⟩) :
    (s.results.filter (· ≠ 0) = typedFrom modifiersAfter [] es ∧ s.shift = (modifiersAfter es).word ∧
      s.reboot = rebootsFrom modifiersAfter [] es) ∧
    (s.shift = (heldAfter es).word ↔ NoneDropped es) ∧
    ((∀ past, past <+: es → NoneDropped past) →
      s.results.filter (· ≠ 0) = typedFrom heldAfter [] es ∧ s.reboot = rebootsFrom heldAfter [] es) := by
  have hstart : Decodes ⟨0, [], false⟩ ⟨modifiersAfter [], [], false⟩ := ⟨rfl, rfl, rfl⟩
  obtain ⟨hshift, htext, hreboot⟩ := hstart.strikeAll hlegal
  rw [foldl_strike, ← hs] at hshift htext hreboot
  refine ⟨⟨htext, hshift, hreboot⟩, ?_, fun hnone => ?_⟩
  · rw [hshift, word_injective.eq_iff]
    exact modifiersAfter_eq_iff es
  · have hsame : typedFrom modifiersAfter [] es = typedFrom heldAfter [] es ∧
        rebootsFrom modifiersAfter [] es = rebootsFrom heldAfter [] es :=
      typedFrom_congr [] fun t ht _ => (modifiersAfter_eq_iff t).mpr (hnone t ht)
    exact ⟨htext.trans hsame.1, hreboot.trans hsame.2⟩

/-- A capital letter with the right shift key, and Delete with the other two keys. -/
def struckKeys : List KeyEvent := [⟨0x36, true⟩, ⟨0x1E, true⟩, ⟨0x36, false⟩, ⟨0x1D, true⟩, ⟨0x38, true⟩, ⟨0xD3, true⟩]

/-- Both shift keys are pressed and one is released before a letter. -/
def twoShifts : List KeyEvent := [⟨0x2A, true⟩, ⟨0x36, true⟩, ⟨0x36, false⟩, ⟨0x1E, true⟩]

theorem kbd_decodes_struckKeys :
    (typedFrom heldAfter [] struckKeys = [65, 0xE9] ∧ rebootsFrom heldAfter [] struckKeys = true ∧
      (receiveAll (struckKeys.flatMap KeyEvent.scanCodes) ⟨0, [], false⟩).results.filter (· ≠ 0) = [65, 0xE9]) ∧
    typedFrom heldAfter [] twoShifts = [65] ∧ typedFrom modifiersAfter [] twoShifts = [97] ∧
      (receiveAll (twoShifts.flatMap KeyEvent.scanCodes) ⟨0, [], false⟩).shift ≠ (heldAfter twoShifts).word := by
  have hlegal : ∀ e ∈ struckKeys, e.Legal := by simp [struckKeys, KeyEvent.Legal]
  have hshifts : ∀ e ∈ twoShifts, e.Legal := by simp [twoShifts, KeyEvent.Legal]
  have hnone : ∀ past, past <+: struckKeys → NoneDropped past := by
    intro past hpast
    have hall : ∀ t ∈ struckKeys.inits, modifiersAfter t = heldAfter t := by decide
    exact (modifiersAfter_eq_iff past).mp (hall past ((List.mem_inits _ _).mpr hpast))
  have hdropped : Dropped shiftSet twoShifts :=
    ⟨[⟨0x2A, true⟩, ⟨0x36, true⟩], ⟨0x36, false⟩, [⟨0x1E, true⟩], rfl, by decide, rfl, by decide, 0x2A, by decide, by decide, rfl⟩
  obtain ⟨-, -, hheld⟩ := kbd_decodes hlegal rfl
  obtain ⟨⟨htext, -, -⟩, hflags, -⟩ := kbd_decodes hshifts rfl
  obtain ⟨htyped, hreboots⟩ := hheld hnone
  refine ⟨⟨by decide, by decide, htyped.trans (by decide)⟩, by decide, htext.symm.trans (by decide), fun h => ?_⟩
  exact (hflags.mp h).1 hdropped

def keyFor (map : ℕ → ℕ) (c : ℕ) : Option ℕ := (List.range 256).find? fun key => map key = c

def strokes (c : ℕ) : List KeyEvent :=
  match keyFor normalmap c with
  | some key => [⟨key, true⟩, ⟨key, false⟩]
  | none =>
    match keyFor shiftmap c with
    | some key => [⟨0x2A, true⟩, ⟨key, true⟩, ⟨key, false⟩, ⟨0x2A, false⟩]
    | none => []

def Typable (c : ℕ) : Prop := c ≠ 0 ∧ ((keyFor normalmap c).isSome ∨ (keyFor shiftmap c).isSome)

theorem typable_printable : ∀ c < 127, 32 ≤ c → Typable c := by
  unfold Typable
  decide +kernel

theorem typable_newline : Typable 10 := by
  unfold Typable
  decide +kernel

theorem keyFor_eq {map : ℕ → ℕ} (h : keyFor map c = some key) : key < 256 ∧ map key = c :=
  ⟨List.mem_range.mp (List.mem_of_find?_eq_some h), by simpa using List.find?_some h⟩

theorem strike_character (h : normalmap key ≠ 0 ∨ shiftmap key ≠ 0) (down : Bool) : m.strike ⟨key, down⟩ = m := by
  have hmodifier : key ∉ shiftSet ++ ctlSet ++ altSet := by
    intro hmem
    simp only [shiftSet, ctlSet, altSet, List.cons_append, List.nil_append, List.mem_cons, List.not_mem_nil, or_false] at hmem
    rcases hmem with rfl | rfl | rfl | rfl | rfl | rfl <;> exact h.elim (· rfl) (· rfl)
  have hcaps : key ≠ 0x3A := by rintro rfl; exact h.elim (· rfl) (· rfl)
  have hnum : key ≠ 0x45 := by rintro rfl; exact h.elim (· rfl) (· rfl)
  have hscroll : key ≠ 0x46 := by rintro rfl; exact h.elim (· rfl) (· rfl)
  simp only [Modifiers.strike, hold_other hmodifier, toggle_other hcaps hnum hscroll, ite_self]

theorem swapCase_ne_zero (h : c ≠ 0) : swapCase c ≠ 0 := by
  rw [swapCase]
  split
  · omega
  · split <;> omega

theorem swapCase_printable (h : 32 ≤ c ∧ c < 127) : 32 ≤ swapCase c ∧ swapCase c < 127 := by
  rw [swapCase]
  split
  · omega
  · split <;> omega

theorem foldl_key {map : ℕ → ℕ} (hmap : m.shift = false ∧ map = normalmap ∨ m.shift = true ∧ map = shiftmap)
    (hctl : m.ctl = false) (hc : map key ≠ 0) (text : List ℕ) (reboot : Bool) :
    [KeyEvent.mk key true, ⟨key, false⟩].foldl Keys.strike ⟨m, text, reboot⟩ =
      ⟨m, text ++ [if m.caps then swapCase (map key) else map key], reboot⟩ := by
  have hplain : normalmap key ≠ 0 ∨ shiftmap key ≠ 0 := by
    rcases hmap with ⟨-, rfl⟩ | ⟨-, rfl⟩
    · exact .inl hc
    · exact .inr hc
  have hcharacter : m.character key = if m.caps then swapCase (map key) else map key := by
    rcases hmap with ⟨hshift, rfl⟩ | ⟨hshift, rfl⟩
    · simp only [Modifiers.character, hctl, hshift, Bool.false_eq_true, if_false]
    · simp only [Modifiers.character, hctl, hshift, Bool.false_eq_true, if_false, if_true]
  have hne : m.character key ≠ 0 := by
    rw [hcharacter]
    split
    · exact swapCase_ne_zero hc
    · exact hc
  simp [Keys.strike, strike_character hplain, hctl, hne, ← hcharacter]

theorem character_shiftKey (hctl : m.ctl = false) : m.character 0x2A = 0 := by
  rw [Modifiers.character, hctl]
  cases m.shift <;> cases m.caps <;> rfl

theorem strike_shiftKey (hctl : m.ctl = false) (text : List ℕ) (reboot : Bool) :
    Keys.strike ⟨m, text, reboot⟩ ⟨0x2A, true⟩ = ⟨{ m with shift := true }, text, reboot⟩ := by
  have hzero : Modifiers.character { m with shift := true } 0x2A = 0 := character_shiftKey hctl
  have hstrike : m.strike ⟨0x2A, true⟩ = { m with shift := true } := rfl
  simp [Keys.strike, hstrike, hzero, keyDel]

theorem release_shiftKey (hshift : m.shift = false) (text : List ℕ) (reboot : Bool) :
    Keys.strike ⟨{ m with shift := true }, text, reboot⟩ ⟨0x2A, false⟩ = ⟨m, text, reboot⟩ := by
  have hstrike : Modifiers.strike { m with shift := true } ⟨0x2A, false⟩ = { m with shift := false } := rfl
  have hsame : { m with shift := false } = m := by rw [← hshift]
  simp only [Keys.strike, hstrike, hsame, Bool.false_eq_true, if_false]

theorem foldl_strokes (hshift : m.shift = false) (hctl : m.ctl = false) (hc : Typable c) (text : List ℕ) (reboot : Bool) :
    (strokes c).foldl Keys.strike ⟨m, text, reboot⟩ = ⟨m, text ++ [if m.caps then swapCase c else c], reboot⟩ := by
  obtain ⟨h0, hkey⟩ := hc
  rw [strokes]
  cases hnormal : keyFor normalmap c with
  | some key =>
    obtain ⟨-, rfl⟩ := keyFor_eq hnormal
    exact foldl_key (.inl ⟨hshift, rfl⟩) hctl h0 text reboot
  | none =>
    cases hshifted : keyFor shiftmap c with
    | some key =>
      obtain ⟨-, rfl⟩ := keyFor_eq hshifted
      have hpress := foldl_key (m := { m with shift := true }) (.inr ⟨rfl, rfl⟩) hctl h0 text reboot
      rw [List.foldl_cons, List.foldl_cons, List.foldl_nil] at hpress
      simp only [List.foldl_cons, List.foldl_nil]
      rw [strike_shiftKey hctl, hpress, release_shiftKey hshift]
    | none => simp [hnormal, hshifted] at hkey

theorem strokes_legal (hc : Typable c) : ∀ e ∈ strokes c, e.Legal := by
  have hkeyLegal {map : ℕ → ℕ} {key : ℕ} (hkey : keyFor map c = some key) (h60 : map 0x60 = 0) (hE0 : map 0xE0 = 0)
    (down : Bool) :
      (KeyEvent.mk key down).Legal := by
    obtain ⟨hlt, rfl⟩ := keyFor_eq hkey
    refine ⟨hlt, fun hmod => ?_⟩
    simp only at hmod
    have hcases : key = 0x60 ∨ key = 0xE0 := by omega
    rcases hcases with rfl | rfl
    · exact hc.1 h60
    · exact hc.1 hE0
  have hshiftLegal (down : Bool) : (KeyEvent.mk 0x2A down).Legal := by simp [KeyEvent.Legal]
  intro e he
  rw [strokes] at he
  cases hnormal : keyFor normalmap c with
  | some key =>
    rw [hnormal] at he
    simp only [List.mem_cons, List.not_mem_nil, or_false] at he
    rcases he with rfl | rfl <;> exact hkeyLegal hnormal rfl rfl _
  | none =>
    cases hshifted : keyFor shiftmap c with
    | some key =>
      rw [hnormal, hshifted] at he
      simp only [List.mem_cons, List.not_mem_nil, or_false] at he
      rcases he with rfl | rfl | rfl | rfl
      · exact hshiftLegal _
      · exact hkeyLegal hshifted rfl rfl _
      · exact hkeyLegal hshifted rfl rfl _
      · exact hshiftLegal _
    | none => simp [hnormal, hshifted] at he

theorem foldl_typing {cs : List ℕ} (hshift : m.shift = false) (hctl : m.ctl = false) (hcs : ∀ c ∈ cs, Typable c)
    (text : List ℕ)
    (reboot : Bool) : (cs.flatMap strokes).foldl Keys.strike ⟨m, text, reboot⟩ =
      ⟨m, text ++ cs.map (fun c => if m.caps then swapCase c else c), reboot⟩ := by
  induction cs generalizing text with
  | nil => simp
  | cons c cs ih =>
    rw [List.flatMap_cons, List.foldl_append, foldl_strokes hshift hctl (hcs c List.mem_cons_self),
      ih fun c' hc' => hcs c' (List.mem_cons_of_mem c hc'), List.map_cons, List.append_assoc, List.singleton_append]

/-- What is typed is received, with the case of the letters swapped if they are locked. -/
theorem typing_received {cs : List ℕ} (hshift : m.shift = false) (hctl : m.ctl = false) (hcs : ∀ c ∈ cs, Typable c)
    (hs : s = receiveAll ((cs.flatMap strokes).flatMap KeyEvent.scanCodes) ⟨m.word, [], false⟩) :
    s.results.filter (· ≠ 0) = cs.map (fun c => if m.caps then swapCase c else c) ∧ s.shift = m.word ∧ s.reboot = false := by
  have hlegal : ∀ e ∈ cs.flatMap strokes, e.Legal := by
    intro e he
    obtain ⟨c, hc, hce⟩ := List.mem_flatMap.mp he
    exact strokes_legal (hcs c hc) e hce
  have hstart : Decodes ⟨m.word, [], false⟩ ⟨m, [], false⟩ := ⟨rfl, rfl, rfl⟩
  obtain ⟨hword, htext, hreboot⟩ := hstart.strikeAll hlegal
  rw [foldl_typing hshift hctl hcs, ← hs] at hword htext hreboot
  exact ⟨htext, hword, hreboot⟩

def fosText : List ℕ := [70, 79, 83, 62]

/-- With `CAPSLOCK`. -/
theorem typing_received_capsLock :
    (receiveAll ((fosText.flatMap strokes).flatMap KeyEvent.scanCodes) ⟨capsLock, [], false⟩).results.filter
    (· ≠ 0) = [102, 111, 115, 62] := by
  have htypable : ∀ c ∈ fosText, Typable c := by
    intro c hc
    simp only [fosText, List.mem_cons, List.not_mem_nil, or_false] at hc
    rcases hc with rfl | rfl | rfl | rfl <;> exact typable_printable _ (by decide) (by decide)
  exact (typing_received (m := ⟨false, false, false, true, false, false⟩) rfl rfl htypable rfl).1.trans (by decide)

end FosKernel.Keyboard
