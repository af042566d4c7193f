import Mathlib.Algebra.Group.Nat.Defs
import Mathlib.Data.List.Basic
import Mathlib.Logic.Function.Iterate
import Mathlib.Order.Basic
import Mathlib.Tactic.Common

/-!
# The display of the console

`cga_putc` writes to a screen of 25 rows, which moves up when the cursor leaves it. The screen is
a window on a roll of paper of any length.
-/

namespace FosKernel.Terminal

def crtCols : ℕ := 80
def crtRows : ℕ := 25
def crtSize : ℕ := crtRows * crtCols

/-- The text buffer and the cursor of the display, the registers of its controller, and what the
printer was sent. -/
structure Display where
  crtBuf : ℕ → ℕ
  crtPos : ℕ
  registers : ℕ → ℕ
  printer : List ℕ

/-- `lpt_putc`, which does not wait for the printer for ever. -/
def lptPutc (c : ℕ) (s : Display) : Display := { s with printer := s.printer ++ [c % 2 ^ 8] }

/-- A character without attribute is white on black. -/
def attributed (c : ℕ) : ℕ := if c / 2 ^ 8 = 0 then c ||| 0x0700 else c

def blank : ℕ := 0x0700 ||| 32

/-- A blank with the attribute of `c`. -/
def erased (c : ℕ) : ℕ := (2 ^ 8 * (c / 2 ^ 8) ||| 32) % 2 ^ 16

/-- `crt_buf[i] = c` -/
def setCell (i c : ℕ) (s : Display) : Display := { s with crtBuf := Function.update s.crtBuf i (c % 2 ^ 16) }

def setPos (p : ℕ) (s : Display) : Display := { s with crtPos := p % 2 ^ 16 }

def scroll (s : Display) : Display :=
  if crtSize ≤ s.crtPos then
    setPos (s.crtPos - crtCols) { s with
      crtBuf := fun i =>
        if i < crtSize - crtCols then s.crtBuf (i + crtCols) else if i < crtSize then blank else s.crtBuf i }
  else s

/-- The cursor position goes to registers 14 and 15. -/
def moveCursor (s : Display) : Display :=
  { s with registers := Function.update (Function.update s.registers 14 (s.crtPos / 2 ^ 8 % 2 ^ 8)) 15 (s.crtPos % 2 ^ 8) }

theorem attributed_mod (c : ℕ) : attributed c % 2 ^ 8 = c % 2 ^ 8 := by
  rw [attributed]
  split
  · rw [Nat.or_mod_two_pow]
    simp
  · rfl

mutual

/-- `cga_putc` of the characters of an `int` -/
def cgaPutc (c : ℕ) (s : Display) : Display :=
  moveCursor (scroll (
    if attributed c % 2 ^ 8 = 8 then
      if 0 < s.crtPos then setCell (s.crtPos - 1) (erased (attributed c)) (setPos (s.crtPos - 1) s) else s
    else if attributed c % 2 ^ 8 = 10 then
      let s := setPos (s.crtPos + crtCols) s
      setPos (s.crtPos - s.crtPos % crtCols) s
    else if attributed c % 2 ^ 8 = 13 then setPos (s.crtPos - s.crtPos % crtCols) s
    else if attributed c % 2 ^ 8 = 9 then
      consPutc 32 (consPutc 32 (consPutc 32 (consPutc 32 (consPutc 32 s))))
    else setPos (s.crtPos + 1) (setCell s.crtPos (attributed c) s)))
termination_by if c % 2 ^ 8 = 9 then 2 else 0
decreasing_by all_goals rw [if_pos ((attributed_mod c).symm.trans ‹_›)]; decide

/-- `cons_putc` and `cputchar` -/
def consPutc (c : ℕ) (s : Display) : Display := cgaPutc c (lptPutc c s)
termination_by if c % 2 ^ 8 = 9 then 3 else 1
decreasing_by split <;> simp

end

variable {c i p : ℕ} {cs : List ℕ} {s t : Display}

theorem cgaPutc_eq (c : ℕ) (s : Display) : cgaPutc c s = moveCursor (scroll (
    if c % 2 ^ 8 = 8 then
      if 0 < s.crtPos then setCell (s.crtPos - 1) (erased (attributed c)) (setPos (s.crtPos - 1) s) else s
    else if c % 2 ^ 8 = 10 then setPos (s.crtPos + crtCols) s |> fun s => setPos (s.crtPos - s.crtPos % crtCols) s
    else if c % 2 ^ 8 = 13 then setPos (s.crtPos - s.crtPos % crtCols) s
    else if c % 2 ^ 8 = 9 then (consPutc 32)^[5] s
    else setPos (s.crtPos + 1) (setCell s.crtPos (attributed c) s))) := by
  rw [cgaPutc, attributed_mod]
  rfl

/-- A roll of paper, and the row that is the first one in the window. -/
structure Roll where
  cell : ℕ → ℕ
  pos : ℕ
  top : ℕ

namespace Roll

def moveTo (p : ℕ) (r : Roll) : Roll := { r with pos := p, top := max r.top (p / crtCols + 1 - crtRows) }

def write (i w : ℕ) (r : Roll) : Roll := { r with cell := Function.update r.cell i w }

/-- A character other than the tabulator. What has left the window cannot be taken back. -/
def type (c : ℕ) (r : Roll) : Roll :=
  if c % 2 ^ 8 = 8 then
    if crtCols * r.top < r.pos then moveTo (r.pos - 1) (write (r.pos - 1) (erased (attributed c)) r) else r
  else if c % 2 ^ 8 = 10 then moveTo (crtCols * (r.pos / crtCols + 1)) r
  else if c % 2 ^ 8 = 13 then moveTo (crtCols * (r.pos / crtCols)) r
  else moveTo (r.pos + 1) (write r.pos (attributed c % 2 ^ 16) r)

def put (c : ℕ) (r : Roll) : Roll := if c % 2 ^ 8 = 9 then (type 32)^[5] r else type c r

end Roll

/-- The screen shows the roll from row `top` on, nothing was written below it, and behind the text buffer there is what was
there, `m`. -/
structure Shows (m : ℕ → ℕ) (s : Display) (r : Roll) : Prop where
  cells : ∀ i < crtSize, s.crtBuf i = r.cell (i + crtCols * r.top)
  below : ∀ i, crtSize + crtCols * r.top ≤ i → r.cell i = blank
  outside : ∀ i, crtSize ≤ i → s.crtBuf i = m i

/-- The cursor is on the screen as well, and the controller knows where. -/
structure Window (m : ℕ → ℕ) (s : Display) (r : Roll) : Prop extends Shows m s r where
  pos : r.pos = s.crtPos + crtCols * r.top
  lt : s.crtPos < crtSize
  cursor : s.registers 14 * 2 ^ 8 + s.registers 15 = s.crtPos

/-- The screen as it is, on top of an empty roll. -/
def Roll.start (s : Display) : Roll := ⟨fun i => if i < crtSize then s.crtBuf i else blank, s.crtPos, 0⟩

variable {r : Roll} {m : ℕ → ℕ}

theorem Window.start (hlt : s.crtPos < crtSize) (hcursor : s.registers 14 * 2 ^ 8 + s.registers 15 = s.crtPos) :
    Window s.crtBuf s (Roll.start s) where
  cells _ hi := (if_pos hi).symm
  below _ hi := if_neg (Nat.not_lt.mpr hi)
  outside _ _ := rfl
  pos := rfl
  lt := hlt
  cursor := hcursor

theorem moveCursor_cursor (h : s.crtPos < 2 ^ 16) :
    (moveCursor s).registers 14 * 2 ^ 8 + (moveCursor s).registers 15 = s.crtPos := by
  have h14 : (moveCursor s).registers 14 = s.crtPos / 2 ^ 8 % 2 ^ 8 := rfl
  have h15 : (moveCursor s).registers 15 = s.crtPos % 2 ^ 8 := rfl
  rw [h14, h15]
  omega

theorem scroll_of_lt (h : s.crtPos < crtSize) : scroll s = s := if_neg (Nat.not_le.mpr h)

theorem scroll_moved (h : crtSize ≤ s.crtPos) {i : ℕ} (hi : i < 1920) : (scroll s).crtBuf i = s.crtBuf (i + 80) := by
  rw [scroll, if_pos h]
  exact if_pos hi

theorem scroll_blank (h : crtSize ≤ s.crtPos) {i : ℕ} (hi : 1920 ≤ i) (hlt : i < 2000) : (scroll s).crtBuf i = blank := by
  rw [scroll, if_pos h]
  exact (if_neg (Nat.not_lt.mpr hi)).trans (if_pos hlt)

theorem scroll_outside (h : crtSize ≤ s.crtPos) {i : ℕ} (hi : crtSize ≤ i) : (scroll s).crtBuf i = s.crtBuf i := by
  have hge : 2000 ≤ i := hi
  rw [scroll, if_pos h]
  exact (if_neg (show ¬i < 1920 by omega)).trans (if_neg (Nat.not_lt.mpr hi))

theorem scroll_crtPos (h : crtSize ≤ s.crtPos) (hlt : s.crtPos < 2 ^ 16) : (scroll s).crtPos = s.crtPos - crtCols := by
  rw [scroll, if_pos h]
  exact Nat.mod_eq_of_lt (Nat.lt_of_le_of_lt (Nat.sub_le ..) hlt)

theorem Shows.moveTo (h : Shows m s r) (hp : p = s.crtPos + crtCols * r.top) (hlt : s.crtPos < crtSize + crtCols) :
    Window m (moveCursor (scroll s)) (r.moveTo p) := by
  obtain ⟨hcells, hbelow, houtside⟩ := h
  have htop : (r.moveTo p).top = max r.top (p / crtCols + 1 - crtRows) := rfl
  by_cases hge : crtSize ≤ s.crtPos
  · have hpos := scroll_crtPos hge (Nat.lt_trans hlt (show crtSize + crtCols < 2 ^ 16 by decide))
    have hmoved {i : ℕ} := scroll_moved hge (i := i)
    have hblank {i : ℕ} := scroll_blank hge (i := i)
    simp only [crtSize, crtRows, crtCols] at hcells hbelow hp hlt htop hge hpos
    have hone : (r.moveTo p).top = r.top + 1 := by omega
    refine ⟨⟨fun i hi => ?_, fun i hi => hbelow i ?_, fun i hi => (scroll_outside hge hi).trans (houtside i hi)⟩, ?_, ?_, ?_⟩
    · have hlt' : i < 2000 := hi
      show (scroll s).crtBuf i = r.cell (i + 80 * (r.moveTo p).top)
      rw [hone]
      by_cases hi' : i < 1920
      · rw [hmoved hi', hcells _ (by omega)]
        exact congrArg r.cell (by omega)
      · rw [hblank (Nat.not_lt.mp hi') hlt']
        exact (hbelow _ (by omega)).symm
    · simp only [crtSize, crtRows, crtCols, hone] at hi
      omega
    · show p = (scroll s).crtPos + crtCols * _
      rw [hone, hpos, hp, crtCols]
      omega
    · show (scroll s).crtPos < crtSize
      simp only [crtSize, crtRows, crtCols, hpos]
      omega
    · exact moveCursor_cursor (by rw [hpos]; omega)
  · rw [scroll_of_lt (Nat.not_le.mp hge)]
    have hone : (r.moveTo p).top = r.top := by
      simp only [crtSize, crtRows, crtCols] at hp htop hge
      omega
    refine ⟨⟨fun i hi => ?_, fun i hi => hbelow i ?_, houtside⟩, ?_, Nat.not_le.mp hge,
      moveCursor_cursor (Nat.lt_trans (Nat.not_le.mp hge) (show crtSize < 2 ^ 16 by decide))⟩
    · rw [hone]
      exact hcells i hi
    · rwa [hone] at hi
    · rw [hone]
      exact hp

theorem Shows.write (h : Shows m s r) (hi : i < crtSize) (w : ℕ) :
    Shows m (setCell i w s) (r.write (i + crtCols * r.top) (w % 2 ^ 16)) where
  cells j hj := by
    show Function.update s.crtBuf i (w % 2 ^ 16) j = Function.update r.cell _ _ (j + crtCols * r.top)
    by_cases hij : j = i
    · rw [hij, Function.update_self, Function.update_self]
    · rw [Function.update_of_ne hij, Function.update_of_ne fun hc => hij (Nat.add_right_cancel hc), h.cells j hj]
  below j hj := by
    refine (Function.update_of_ne ?_ ..).trans (h.below j hj)
    have hj' : crtSize + crtCols * r.top ≤ j := hj
    omega
  outside j hj := by
    refine (Function.update_of_ne ?_ ..).trans (h.outside j hj)
    omega

theorem Window.stay (h : Window m s r) : Window m (moveCursor (scroll s)) r := by
  rw [scroll_of_lt h.lt]
  exact ⟨⟨h.cells, h.below, h.outside⟩, h.pos, h.lt, moveCursor_cursor (Nat.lt_trans h.lt (show crtSize < 2 ^ 16 by decide))⟩

theorem Window.print (h : Window m s r) (w : List ℕ) : Window m { s with printer := w } r :=
  ⟨⟨h.cells, h.below, h.outside⟩, h.pos, h.lt, h.cursor⟩

theorem Shows.setPos {q : ℕ} (h : Shows m s r) (hp : p = q + crtCols * r.top) (hq : q < crtSize + crtCols) :
    Window m (moveCursor (scroll (setPos q s))) (r.moveTo p) := by
  have hpos : (Terminal.setPos q s).crtPos = q :=
    Nat.mod_eq_of_lt (Nat.lt_trans hq (show crtSize + crtCols < 2 ^ 16 by decide))
  have hshows : Shows m (Terminal.setPos q s) r := ⟨h.cells, h.below, h.outside⟩
  exact hshows.moveTo (by rw [hpos, hp]) (by rwa [hpos])

theorem Window.type (h : Window m s r) (hc : c % 2 ^ 8 ≠ 9) : Window m (cgaPutc c s) (r.type c) := by
  have hpos := h.pos
  have hlt : s.crtPos < 2000 := h.lt
  have hshows := h.toShows
  rw [cgaPutc_eq, Roll.type]
  by_cases h8 : c % 2 ^ 8 = 8
  · rw [if_pos h8, if_pos h8]
    by_cases h0 : 0 < s.crtPos
    · have hcell : r.pos - 1 = s.crtPos - 1 + crtCols * r.top := by omega
      rw [if_pos h0, if_pos (by omega), hcell]
      have hw := hshows.write (show s.crtPos - 1 < crtSize by simp only [crtSize, crtRows, crtCols]; omega)
        (erased (attributed c))
      rw [erased, Nat.mod_mod, ← erased] at hw
      exact hw.setPos rfl (show s.crtPos - 1 < 2080 by omega)
    · rw [if_neg h0, if_neg (by omega)]
      exact h.stay
  · rw [if_neg h8, if_neg h8]
    by_cases h10 : c % 2 ^ 8 = 10
    · rw [if_pos h10, if_pos h10]
      have hnext : (setPos (s.crtPos + crtCols) s).crtPos = s.crtPos + 80 := Nat.mod_eq_of_lt (by simp only [crtCols]; omega)
      have hshows' : Shows m (Terminal.setPos (s.crtPos + crtCols) s) r := ⟨hshows.cells, hshows.below, hshows.outside⟩
      refine hshows'.setPos ?_ ?_
      · rw [hpos, hnext]
        simp only [crtCols]
        omega
      · rw [hnext]
        simp only [crtSize, crtRows, crtCols]
        omega
    · rw [if_neg h10, if_neg h10]
      by_cases h13 : c % 2 ^ 8 = 13
      · rw [if_pos h13, if_pos h13]
        refine hshows.setPos ?_ ?_
        · rw [hpos]
          simp only [crtCols]
          omega
        · simp only [crtSize, crtRows, crtCols]
          omega
      · rw [if_neg h13, if_neg h13, if_neg hc, hpos]
        exact (hshows.write h.lt (attributed c)).setPos (by show _ = _ + crtCols * r.top; omega)
          (show s.crtPos + 1 < 2080 by omega)

theorem Window.put (h : Window m s r) (c : ℕ) : Window m (consPutc c s) (r.put c) := by
  have hone {s : Display} {r : Roll} {c : ℕ} (h : Window m s r) (hc : c % 2 ^ 8 ≠ 9) : Window m (consPutc c s) (r.type c) := by
    rw [consPutc]
    exact (h.print _).type hc
  rw [Roll.put]
  split
  · rename_i hc
    have hblanks (n : ℕ) : Window m ((consPutc 32)^[n] (lptPutc c s)) ((Roll.type 32)^[n] r) := by
      induction n with
      | zero => exact h.print _
      | succ n ih =>
        rw [Function.iterate_succ_apply', Function.iterate_succ_apply']
        exact hone ih (by decide)
    rw [consPutc, cgaPutc_eq, if_neg (by omega), if_neg (by omega), if_neg (by omega), if_pos hc]
    exact (hblanks 5).stay
  · exact hone h ‹_›

/-- Whatever is written: the screen is the last 25 rows of a roll of paper, the cursor is on it, and nothing is written
outside the screen. -/
theorem display_shows_roll (cs : List ℕ) (hlt : s.crtPos < crtSize)
    (hcursor : s.registers 14 * 2 ^ 8 + s.registers 15 = s.crtPos) :
    Window s.crtBuf (cs.foldl (fun s c => consPutc c s) s) (cs.foldl (fun r c => r.put c) (Roll.start s)) := by
  have hrun (cs : List ℕ) {m : ℕ → ℕ} {s : Display} {r : Roll} (h : Window m s r) :
      Window m (cs.foldl (fun s c => consPutc c s) s) (cs.foldl (fun r c => r.put c) r) := by
    induction cs generalizing s r with
    | nil => exact h
    | cons c cs ih => exact ih (h.put c)
  exact hrun cs (.start hlt hcursor)

def lastCell : Display := ⟨fun _ => blank, 1999, fun i => if i = 14 then 7 else 207, []⟩

theorem display_shows_roll_lastCell : Window (fun _ => blank) ([65, 66, 9, 10].foldl (fun s c => consPutc c s) lastCell)
    ([65, 66, 9, 10].foldl (fun r c => r.put c) (Roll.start lastCell)) :=
  display_shows_roll (s := lastCell) [65, 66, 9, 10] (by decide) (by decide)

end FosKernel.Terminal
