import FosKernel.Memlayout
import Mathlib.Data.List.Basic
import Mathlib.Data.List.Infix
import Mathlib.Logic.Function.Basic
import Mathlib.Tactic.SplitIfs

/-!
# Console input

The serial port and the keyboard feed one ring buffer, from which `cons_getc` and
`cons_getc2` take characters. The first section is about ring buffers of any size.
-/

namespace FosKernel.ConsoleInput

section RingBuffers

variable {α : Type} {n rpos wpos i : ℕ} {buf : ℕ → α} {q : List α} {c : α}

/-- The position after `i`. -/
def advance (n i : ℕ) : ℕ := if i + 1 = n then 0 else i + 1

/-- The position `i` places after `r`. -/
def position (n r i : ℕ) : ℕ := if r + i < n then r + i else r + i - n

/-- A buffer with `n` places, one of which stays free, holds the queue `q`. -/
structure Ring (n : ℕ) (buf : ℕ → α) (rpos wpos : ℕ) (q : List α) : Prop where
  rpos_lt : rpos < n
  length_lt : q.length < n
  wpos_eq : wpos = position n rpos q.length
  get : ∀ i (hi : i < q.length), buf (position n rpos i) = q[i]

theorem Ring.nil (h : rpos < n) (buf : ℕ → α) : Ring n buf rpos rpos [] :=
  ⟨h, by simp; omega, by simp [position, h], fun i hi => absurd hi (Nat.not_lt_zero i)⟩

theorem Ring.push (h : Ring n buf rpos wpos q) (hlt : q.length + 1 < n) :
    Ring n (Function.update buf wpos c) rpos (advance n wpos) (q ++ [c]) := by
  have hr := h.rpos_lt
  refine ⟨hr, by simpa using hlt, ?_, fun i hi => ?_⟩
  · rw [h.wpos_eq, List.length_append, List.length_singleton, advance, position, position]
    split_ifs <;> omega
  · rw [List.length_append, List.length_singleton] at hi
    by_cases hiq : i < q.length
    · rw [List.getElem_append_left hiq, Function.update_of_ne, h.get i hiq]
      rw [h.wpos_eq, position, position]
      split_ifs <;> omega
    · obtain rfl : i = q.length := by omega
      rw [h.wpos_eq, Function.update_self]
      simp

theorem Ring.pop (h : Ring n buf rpos wpos (c :: q)) : buf rpos = c ∧ Ring n buf (advance n rpos) wpos q := by
  have hr := h.rpos_lt
  have hlen := h.length_lt
  rw [List.length_cons] at hlen
  refine ⟨?_, ?_, by omega, ?_, fun i hi => ?_⟩
  · have := h.get 0 (by simp)
    rwa [position, if_pos (by omega), Nat.add_zero] at this
  · rw [advance]
    split_ifs <;> omega
  · rw [h.wpos_eq, List.length_cons, advance, position, position]
    split_ifs <;> omega
  · have := h.get (i + 1) (by simpa using hi)
    rw [List.getElem_cons_succ] at this
    rw [← this]
    congr 1
    rw [advance, position, position]
    split_ifs <;> omega

theorem Ring.eq_iff (h : Ring n buf rpos wpos q) : rpos = wpos ↔ q = [] := by
  have hr := h.rpos_lt
  have hlen := h.length_lt
  rw [h.wpos_eq, ← List.length_eq_zero_iff, position]
  split_ifs <;> omega

theorem Ring.length_eq (h : Ring n buf rpos wpos q) :
    q.length = if rpos ≤ wpos then wpos - rpos else wpos + n - rpos := by
  have hr := h.rpos_lt
  have hlen := h.length_lt
  have hw := h.wpos_eq
  rw [position] at hw
  split_ifs at hw ⊢ <;> omega

end RingBuffers

def consBufSize : ℕ := 512

/-- The console, with what is waiting at the devices: for the keyboard these are the
results of `kbd_proc_data`, which are 0 as long as no character is finished. Nothing
reads `entered`, the characters that were stored so far. -/
structure Console where
  buf : ℕ → UInt8
  rpos : ℕ
  wpos : ℕ
  serialExists : Bool
  serial : List UInt8
  kbd : List UInt8
  entered : List UInt8

/-- `cons.buf[cons.wpos++] = c` -/
def storeChar (s : Console) (c : ℤ) : Console :=
  { s with
    buf := Function.update s.buf s.wpos (UInt8.ofNat (unsigned c))
    wpos := advance consBufSize s.wpos
    entered := s.entered ++ [UInt8.ofNat (unsigned c)] }

/-- A device, as the part of the console where its characters wait. -/
structure Device where
  waiting : Console → List UInt8
  setWaiting : List UInt8 → Console → Console
  waiting_set : ∀ l s, waiting (setWaiting l s) = l
  set_waiting : ∀ s, setWaiting (waiting s) s = s
  waiting_store : ∀ s c, waiting (storeChar s c) = waiting s
  set_set : ∀ l l' s, setWaiting l (setWaiting l' s) = setWaiting l s
  set_store : ∀ l s c, setWaiting l (storeChar s c) = storeChar (setWaiting l s) c

def Device.procData (d : Device) (s : Console) : ℤ × Console :=
  match d.waiting s with
  | [] => (-1, s)
  | c :: cs => (c.toNat, d.setWaiting cs s)

def serialPort : Device where
  waiting := Console.serial
  setWaiting l s := { s with serial := l }
  waiting_set _ _ := rfl
  set_waiting _ := rfl
  waiting_store _ _ := rfl
  set_set _ _ _ := rfl
  set_store _ _ _ := rfl

def keyboard : Device where
  waiting := Console.kbd
  setWaiting l s := { s with kbd := l }
  waiting_set _ _ := rfl
  set_waiting _ := rfl
  waiting_store _ _ := rfl
  set_set _ _ _ := rfl
  set_store _ _ _ := rfl

def serialProcData : Console → ℤ × Console := serialPort.procData
def kbdProcData : Console → ℤ × Console := keyboard.procData

/-- The loop ends when the device has nothing more, which is after `n` rounds at most. -/
def consIntr (proc : Console → ℤ × Console) : ℕ → Console → Console
  | 0, s => s
  | n + 1, s =>
    let (c, s) := proc s
    if c = -1 then s
    else if c = 0 then consIntr proc n s
    else consIntr proc n (storeChar s c)

def serialIntr (s : Console) : Console :=
  if s.serialExists then consIntr serialProcData (s.serial.length + 1) s else s

def kbdIntr (s : Console) : Console := consIntr kbdProcData (s.kbd.length + 1) s

def takeChar (s : Console) : ℤ × Console :=
  if s.rpos ≠ s.wpos then ((s.buf s.rpos).toNat, { s with rpos := advance consBufSize s.rpos })
  else (0, s)

def consGetc (s : Console) : ℤ × Console := takeChar (kbdIntr (serialIntr s))

def pollOnce (proc : Console → ℤ × Console) (s : Console) : ℤ × Console :=
  let (c, s) := proc s
  if c ≠ -1 then
    if c = 0 then (c, s) else (c, storeChar s c)
  else (c, s)

def consGetc2 (s : Console) : ℤ × Console :=
  let s := if s.serialExists then (pollOnce serialProcData s).2 else s
  let (c2, s) := pollOnce kbdProcData s
  if 0 < c2 then takeChar s else (0, s)

inductive Reader | consGetc | consGetc2
deriving DecidableEq

def Reader.run : Reader → Console → ℤ × Console
  | .consGetc, s => ConsoleInput.consGetc s
  | .consGetc2, s => ConsoleInput.consGetc2 s

/-- Characters, without what is not one. -/
def chars (l : List UInt8) : List UInt8 := l.filter (· ≠ 0)

def buffered (s : Console) : ℕ := if s.rpos ≤ s.wpos then s.wpos - s.rpos else s.wpos + consBufSize - s.rpos

/-- What waits at the serial port, if there is one. -/
def serialChars (s : Console) : List UInt8 := if s.serialExists then chars s.serial else []

/-- The number of characters in the buffer and at the devices. -/
def pending (s : Console) : ℕ := buffered s + (serialChars s).length + (chars s.kbd).length

/-- Runs from an empty console, with the calls so far and the state that each found.
At most `CONSBUFSIZE - 1` characters are ever pending. -/
inductive ConsoleRun : Console → List (Reader × Console) → Prop
  | start {s : Console} : s.rpos = 0 → s.wpos = 0 → s.serial = [] → s.kbd = [] → s.entered = [] → ConsoleRun s []
  | serial {s : Console} {calls : List (Reader × Console)} (c : UInt8) : ConsoleRun s calls →
    s.serialExists = true → pending { s with serial := s.serial ++ [c] } < consBufSize →
    ConsoleRun { s with serial := s.serial ++ [c] } calls
  | keyboard {s : Console} {calls : List (Reader × Console)} (c : UInt8) : ConsoleRun s calls →
    pending { s with kbd := s.kbd ++ [c] } < consBufSize → ConsoleRun { s with kbd := s.kbd ++ [c] } calls
  | call {s : Console} {calls : List (Reader × Console)} (f : Reader) : ConsoleRun s calls →
    ConsoleRun (f.run s).2 (calls ++ [(f, s)])

def results (calls : List (Reader × Console)) : List ℤ := (calls.map fun x => (x.1.run x.2).1).filter (· ≠ 0)

/-- The calls return the first of the characters that were stored, and the buffer has the
others. -/
structure Lossless (s : Console) (calls : List (Reader × Console)) : Prop where
  isPrefix : results calls <+: s.entered.map fun c => (c.toNat : ℤ)
  rest : (results calls).length + buffered s = s.entered.length

/-- A call returns 0 exactly when no character is pending. -/
def Truthful (x : Reader × Console) : Prop := (x.1.run x.2).1 = 0 ↔ pending x.2 = 0

/-- The next that comes from the keyboard is a character. -/
def KeyReady (s : Console) : Prop := ∃ c ∈ s.kbd.head?, c ≠ 0

variable {s t : Console} {q out : List UInt8} {c : UInt8}

/-- The buffer holds the characters `q`, after `out` were taken from it. -/
structure Holds (s : Console) (out q : List UInt8) : Prop where
  ring : Ring consBufSize s.buf s.rpos s.wpos q
  entered : s.entered = out ++ q
  nonzero : ∀ c ∈ q, c ≠ 0

theorem ofNat_unsigned (c : UInt8) : UInt8.ofNat (unsigned (c.toNat : ℤ)) = c := by
  rw [unsigned_natCast (by have := c.toNat_lt; omega)]
  exact UInt8.ofNat_toNat

theorem toNat_ne_zero (h : c ≠ 0) : c.toNat ≠ 0 := fun h0 => h (UInt8.toNat_inj.mp h0)

theorem Holds.buffered_eq (h : Holds s out q) : buffered s = q.length := h.ring.length_eq.symm

theorem Holds.store (h : Holds s out q) (hc : c ≠ 0) (hlt : q.length + 1 < consBufSize) :
    Holds (storeChar s c.toNat) out (q ++ [c]) := by
  refine ⟨?_, ?_, fun d hd => ?_⟩
  · rw [storeChar, ofNat_unsigned]
    exact h.ring.push hlt
  · simp only [storeChar, ofNat_unsigned, h.entered, List.append_assoc]
  · rcases List.mem_append.mp hd with hd | hd
    · exact h.nonzero d hd
    · exact List.mem_singleton.mp hd ▸ hc

def storeAll (s : Console) (l : List UInt8) : Console := l.foldl (fun s c => storeChar s c.toNat) s

theorem Holds.storeAll {l : List UInt8} (h : Holds s out q) (hl : ∀ c ∈ l, c ≠ 0)
    (hlt : q.length + l.length < consBufSize) : Holds (storeAll s l) out (q ++ l) := by
  induction l generalizing s q with
  | nil => simpa [ConsoleInput.storeAll] using h
  | cons c l ih =>
    rw [List.length_cons] at hlt
    have := ih (h.store (hl c (by simp)) (by omega)) (fun d hd => hl d (by simp [hd])) (by simp; omega)
    rwa [List.append_assoc] at this

theorem chars_nonzero (l : List UInt8) : ∀ c ∈ chars l, c ≠ 0 := fun c hc => by
  simpa using (List.mem_filter.mp hc).2

theorem chars_cons_zero (l : List UInt8) : chars (0 :: l) = chars l := rfl

theorem chars_cons (hc : c ≠ 0) (l : List UInt8) : chars (c :: l) = c :: chars l := by simp [chars, hc]

theorem Device.storeAll_set (d : Device) (l m : List UInt8) (s : Console) :
    storeAll (d.setWaiting l s) m = d.setWaiting l (storeAll s m) := by
  induction m generalizing s with
  | nil => rfl
  | cons c m ih => exact (congrArg (fun u => storeAll u m) (d.set_store l s c.toNat).symm).trans (ih _)

theorem Device.procData_cons (d : Device) {cs : List UInt8} (h : d.waiting s = c :: cs) :
    d.procData s = ((c.toNat : ℤ), d.setWaiting cs s) := by
  simp [Device.procData, h]

theorem Device.consIntr_eq (d : Device) {n : ℕ} (hn : (d.waiting s).length < n) :
    consIntr d.procData n s = d.setWaiting [] (storeAll s (chars (d.waiting s))) := by
  induction n generalizing s with
  | zero => omega
  | succ n ih =>
    cases hw : d.waiting s with
    | nil =>
      have hproc : d.procData s = (-1, s) := by simp [Device.procData, hw]
      rw [consIntr, hproc]
      exact ((congrArg (fun l => d.setWaiting l s) hw).symm.trans (d.set_waiting s)).symm
    | cons c cs =>
      rw [hw, List.length_cons] at hn
      rw [consIntr, d.procData_cons hw]
      simp only
      rw [if_neg (by omega)]
      by_cases hc : c = 0
      · subst hc
        rw [if_pos (by rfl), ih (by rw [d.waiting_set]; omega), d.waiting_set, chars_cons_zero, d.storeAll_set,
          d.set_set]
      · have h0 : (c.toNat : ℤ) ≠ 0 := by exact_mod_cast toNat_ne_zero hc
        rw [if_neg h0, ih (by rw [d.waiting_store, d.waiting_set]; omega), d.waiting_store, d.waiting_set,
          chars_cons hc, ← d.set_store, d.storeAll_set, d.set_set]
        rfl

theorem Device.pollOnce_eq (d : Device) (s : Console) : pollOnce d.procData s =
    ((d.procData s).1, d.setWaiting (d.waiting s).tail (storeAll s (chars ((d.waiting s).take 1)))) := by
  cases hw : d.waiting s with
  | nil =>
    have hproc : d.procData s = (-1, s) := by simp [Device.procData, hw]
    rw [pollOnce, hproc]
    simp only
    rw [if_neg (by simp)]
    exact congrArg (Prod.mk (-1)) ((congrArg (fun l => d.setWaiting l s) hw).symm.trans (d.set_waiting s)).symm
  | cons c cs =>
    rw [pollOnce, d.procData_cons hw]
    simp only
    rw [if_pos (by omega)]
    by_cases hc : c = 0
    · subst hc
      rw [if_pos (by rfl)]
      rfl
    · have h0 : (c.toNat : ℤ) ≠ 0 := by exact_mod_cast toNat_ne_zero hc
      rw [if_neg h0, List.take_succ_cons, List.take_zero, chars_cons hc, ← d.set_store]
      rfl

def firstChar : List UInt8 → ℤ
  | [] => 0
  | c :: _ => c.toNat

theorem firstChar_eq_zero (h : ∀ c ∈ q, c ≠ 0) : firstChar q = 0 ↔ q = [] := by
  cases q with
  | nil => simp [firstChar]
  | cons c q =>
    simpa [firstChar] using toNat_ne_zero (h c (by simp))

/-- The results, from the characters that were taken. -/
def outcome (l : List UInt8) : List ℤ := l.map fun c => (c.toNat : ℤ)

theorem outcome_take (h : ∀ c ∈ q, c ≠ 0) : outcome (q.take 1) = [firstChar q].filter (· ≠ 0) := by
  cases q with
  | nil => rfl
  | cons c q =>
    have : firstChar (c :: q) ≠ 0 := by simp [firstChar_eq_zero h]
    rw [List.filter_cons_of_pos (by simpa using this)]
    rfl

theorem Holds.take (h : Holds s out q) :
    (takeChar s).1 = firstChar q ∧ Holds (takeChar s).2 (out ++ q.take 1) q.tail := by
  cases q with
  | nil =>
    rw [takeChar, if_neg (by simpa using h.ring.eq_iff.mpr rfl)]
    exact ⟨rfl, by simpa using h⟩
  | cons c q =>
    obtain ⟨hc, hring⟩ := h.ring.pop
    rw [takeChar, if_pos (mt h.ring.eq_iff.mp (List.cons_ne_nil c q)), hc]
    exact ⟨rfl, hring, by simpa using h.entered, fun d hd => h.nonzero d (List.mem_cons_of_mem c hd)⟩

theorem Holds.setSerial (h : Holds s out q) (l : List UInt8) : Holds { s with serial := l } out q :=
  ⟨h.ring, h.entered, h.nonzero⟩

theorem Holds.setKbd (h : Holds s out q) (l : List UInt8) : Holds { s with kbd := l } out q :=
  ⟨h.ring, h.entered, h.nonzero⟩

theorem storeAll_frame (s : Console) (l : List UInt8) : (storeAll s l).serialExists = s.serialExists ∧
    (storeAll s l).serial = s.serial ∧ (storeAll s l).kbd = s.kbd := by
  induction l generalizing s with
  | nil => exact ⟨rfl, rfl, rfl⟩
  | cons c l ih => exact ih _

def atDevices (s : Console) : ℕ := (serialChars s).length + (chars s.kbd).length

theorem Holds.pending_eq (h : Holds s out q) : pending s = q.length + atDevices s := by
  rw [pending, h.buffered_eq, atDevices, Nat.add_assoc]

theorem atDevices_takeChar (s : Console) : atDevices (takeChar s).2 = atDevices s := by
  rw [takeChar]
  split_ifs <;> rfl

theorem length_take_chars (l : List UInt8) : (chars (l.take 1)).length + (chars l.tail).length = (chars l).length := by
  cases l with
  | nil => rfl
  | cons c l =>
    rw [List.take_succ_cons, List.take_zero, List.tail_cons, ← List.length_append]
    simp only [chars, ← List.filter_append]
    rfl

/-- `t` is `s` after characters went from the devices to the buffer. -/
structure Polled (s t : Console) (out q q' : List UInt8) : Prop where
  holds : Holds t out q'
  total : q'.length + atDevices t = q.length + atDevices s

theorem Polled.rfl (h : Holds s out q) : Polled s s out q q := ⟨h, Eq.refl _⟩

theorem serialIntr_polled (h : Holds s out q) (hlt : pending s < consBufSize) :
    Polled s (serialIntr s) out q (q ++ serialChars s) ∧ serialChars (serialIntr s) = [] ∧ (serialIntr s).kbd = s.kbd := by
  rw [h.pending_eq, atDevices] at hlt
  by_cases he : s.serialExists = true
  · have hframe := storeAll_frame s (chars s.serial)
    have hchars : serialChars s = chars s.serial := if_pos he
    have hrun : serialIntr s = { storeAll s (chars s.serial) with serial := [] } := by
      rw [serialIntr, if_pos he]
      exact serialPort.consIntr_eq (Nat.lt_succ_self s.serial.length)
    have hnil : serialChars (serialIntr s) = [] := by simp [hrun, serialChars, chars]
    have hkbd : (serialIntr s).kbd = s.kbd := by simp only [hrun, hframe.2.2]
    refine ⟨⟨?_, ?_⟩, hnil, hkbd⟩
    · rw [hchars] at hlt ⊢
      rw [hrun]
      exact (h.storeAll (chars_nonzero _) (by omega)).setSerial []
    · simp only [atDevices, hnil, hkbd, List.length_append, List.length_nil]
      omega
  · have hchars : serialChars s = [] := if_neg he
    rw [hchars, List.append_nil, serialIntr, if_neg he]
    exact ⟨Polled.rfl h, hchars, Eq.refl _⟩

theorem kbdIntr_polled (h : Holds s out q) (hlt : pending s < consBufSize) :
    Polled s (kbdIntr s) out q (q ++ chars s.kbd) := by
  have hrun : kbdIntr s = { storeAll s (chars s.kbd) with kbd := [] } :=
    keyboard.consIntr_eq (Nat.lt_succ_self s.kbd.length)
  obtain ⟨he, hserial, -⟩ := storeAll_frame s (chars s.kbd)
  rw [h.pending_eq, atDevices] at hlt
  refine ⟨?_, ?_⟩
  · rw [hrun]
    exact (h.storeAll (chars_nonzero _) (by omega)).setKbd []
  · have hafter : serialChars (kbdIntr s) = serialChars s := by
      rw [hrun, serialChars, serialChars]
      simp only [he, hserial]
    have hkbd : chars (kbdIntr s).kbd = [] := by rw [hrun]; rfl
    rw [atDevices, atDevices, hafter, hkbd, List.length_append, List.length_nil]
    omega

/-- The serial part of `cons_getc2`. -/
def pollSerial (s : Console) : Console := if s.serialExists then (pollOnce serialProcData s).2 else s

theorem pollSerial_polled (h : Holds s out q) (hlt : pending s < consBufSize) :
    ∃ q', Polled s (pollSerial s) out q q' ∧ (pollSerial s).kbd = s.kbd := by
  rw [h.pending_eq, atDevices] at hlt
  by_cases he : s.serialExists = true
  · obtain ⟨hexists, -, hkbd⟩ := storeAll_frame s (chars (s.serial.take 1))
    have hsplit := length_take_chars s.serial
    have hchars : serialChars s = chars s.serial := if_pos he
    have hrun : pollSerial s = { storeAll s (chars (s.serial.take 1)) with serial := s.serial.tail } := by
      rw [pollSerial, if_pos he, serialProcData, serialPort.pollOnce_eq]
      rfl
    rw [hchars] at hlt
    refine ⟨q ++ chars (s.serial.take 1), ⟨?_, ?_⟩, by rw [hrun]; exact hkbd⟩
    · rw [hrun]
      exact (h.storeAll (chars_nonzero _) (by omega)).setSerial _
    · simp only [hrun, atDevices, serialChars, hexists, he, hkbd, List.length_append, if_true]
      omega
  · rw [pollSerial, if_neg he]
    exact ⟨q, Polled.rfl h, Eq.refl _⟩

theorem pollKbd_polled (h : Holds s out q) (hlt : pending s < consBufSize) :
    Polled s (pollOnce kbdProcData s).2 out q (q ++ chars (s.kbd.take 1)) := by
  obtain ⟨hexists, hserial, -⟩ := storeAll_frame s (chars (s.kbd.take 1))
  have hsplit := length_take_chars s.kbd
  have hrun : (pollOnce kbdProcData s).2 = { storeAll s (chars (s.kbd.take 1)) with kbd := s.kbd.tail } := by
    rw [kbdProcData, keyboard.pollOnce_eq]
    rfl
  rw [h.pending_eq, atDevices] at hlt
  refine ⟨?_, ?_⟩
  · rw [hrun]
    exact (h.storeAll (chars_nonzero _) (by omega)).setKbd _
  · simp only [hrun, atDevices, serialChars, hexists, hserial, List.length_append]
    omega

theorem keyReady_iff : 0 < (pollOnce kbdProcData s).1 ↔ KeyReady s := by
  rw [KeyReady, kbdProcData, keyboard.pollOnce_eq, Device.procData]
  simp only [keyboard]
  cases s.kbd with
  | nil => simp
  | cons c l =>
    simp only [List.head?_cons, Option.mem_def, Option.some.injEq, exists_eq_left']
    refine ⟨fun h hc => ?_, fun h => ?_⟩
    · rw [hc] at h
      exact absurd h (by decide)
    · exact_mod_cast Nat.pos_of_ne_zero (toNat_ne_zero h)

theorem KeyReady.chars_take (h : KeyReady s) : chars (s.kbd.take 1) ≠ [] := by
  obtain ⟨c, hc, hne⟩ := h
  obtain ⟨l, hl⟩ := List.head?_eq_some_iff.mp hc
  rw [hl, List.take_succ_cons, List.take_zero, chars_cons hne]
  exact List.cons_ne_nil c _

/-- A call takes the character that it returns. -/
structure Reads (s : Console) (out : List UInt8) (r : ℤ × Console) : Prop where
  holds : ∃ l q', Holds r.2 (out ++ l) q' ∧ outcome l = [r.1].filter (· ≠ 0)
  total : pending r.2 ≤ pending s

theorem Polled.take {q' : List UInt8} (h : Polled s t out q q') (hs : Holds s out q) :
    Reads s out (takeChar t) ∧ ((takeChar t).1 = 0 ↔ q' = []) := by
  obtain ⟨hres, hholds⟩ := h.holds.take
  have htotal := h.total
  refine ⟨⟨⟨_, _, hholds, ?_⟩, ?_⟩, ?_⟩
  · rw [hres, outcome_take h.holds.nonzero]
  · rw [hholds.pending_eq, hs.pending_eq, atDevices_takeChar, List.length_tail]
    omega
  · rw [hres, firstChar_eq_zero h.holds.nonzero]

theorem consGetc_reads (h : Holds s out q) (hlt : pending s < consBufSize) :
    Reads s out (consGetc s) ∧ ((consGetc s).1 = 0 ↔ pending s = 0) := by
  obtain ⟨hs, hserial, hkbd⟩ := serialIntr_polled h hlt
  have hstotal := hs.total
  have hk := kbdIntr_polled hs.holds (by rw [hs.holds.pending_eq, hs.total, ← h.pending_eq]; exact hlt)
  obtain ⟨hreads, hzero⟩ := Polled.take ⟨hk.holds, hk.total.trans hs.total⟩ h
  refine ⟨hreads, hzero.trans ?_⟩
  rw [h.pending_eq, atDevices, hkbd, ← List.length_eq_zero_iff]
  simp only [List.length_append]
  omega

theorem consGetc2_eq (s : Console) : consGetc2 s =
    if 0 < (pollOnce kbdProcData (pollSerial s)).1 then takeChar (pollOnce kbdProcData (pollSerial s)).2
    else (0, (pollOnce kbdProcData (pollSerial s)).2) := rfl

theorem consGetc2_reads (h : Holds s out q) (hlt : pending s < consBufSize) :
    Reads s out (consGetc2 s) ∧ ((consGetc2 s).1 = 0 ↔ ¬ KeyReady s) := by
  obtain ⟨q', hs, hkbd⟩ := pollSerial_polled h hlt
  have hk := pollKbd_polled hs.holds (by rw [hs.holds.pending_eq, hs.total, ← h.pending_eq]; exact hlt)
  have hpolled : Polled s _ out q _ := ⟨hk.holds, hk.total.trans hs.total⟩
  have hready : KeyReady (pollSerial s) ↔ KeyReady s := by rw [KeyReady, KeyReady, hkbd]
  rw [consGetc2_eq, ← hready]
  by_cases hc : KeyReady (pollSerial s)
  · obtain ⟨hreads, hzero⟩ := hpolled.take h
    rw [if_pos (keyReady_iff.mpr hc)]
    have := hc.chars_take
    exact ⟨hreads, hzero.trans (by simp [hc, this])⟩
  · rw [if_neg (mt keyReady_iff.mp hc)]
    refine ⟨⟨⟨[], _, by simpa using hpolled.holds, by simp [outcome]⟩, ?_⟩, by simp [hc]⟩
    exact (hpolled.holds.pending_eq.trans (hpolled.total.trans h.pending_eq.symm)).le

theorem Reader.run_reads (f : Reader) (h : Holds s out q) (hlt : pending s < consBufSize) : Reads s out (f.run s) := by
  cases f with
  | consGetc => exact (consGetc_reads h hlt).1
  | consGetc2 => exact (consGetc2_reads h hlt).1

variable {calls : List (Reader × Console)}

theorem results_append (f : Reader) :
    results (calls ++ [(f, s)]) = results calls ++ [(f.run s).1].filter (· ≠ 0) := by
  simp only [results, List.map_append, List.filter_append, List.map_cons, List.map_nil]

theorem ConsoleRun.holds (h : ConsoleRun s calls) :
    (∃ out q, Holds s out q ∧ results calls = outcome out) ∧ pending s < consBufSize := by
  induction h with
  | @start s hr hw hserial hkbd hentered =>
    have hring : Ring consBufSize s.buf s.rpos s.wpos ([] : List UInt8) := by
      rw [hw.trans hr.symm]
      exact Ring.nil (by rw [hr]; decide) s.buf
    have hholds : Holds s [] [] := ⟨hring, hentered, fun c hc => absurd hc List.not_mem_nil⟩
    refine ⟨⟨[], [], hholds, rfl⟩, ?_⟩
    rw [hholds.pending_eq, atDevices, serialChars, hserial, hkbd]
    simp [chars, consBufSize]
  | serial c _ _ hlt ih =>
    obtain ⟨out, q, hholds, hres⟩ := ih.1
    exact ⟨⟨out, q, hholds.setSerial _, hres⟩, hlt⟩
  | keyboard c _ hlt ih =>
    obtain ⟨out, q, hholds, hres⟩ := ih.1
    exact ⟨⟨out, q, hholds.setKbd _, hres⟩, hlt⟩
  | call f _ ih =>
    obtain ⟨⟨out, q, hholds, hres⟩, hlt⟩ := ih
    obtain ⟨⟨l, q', hafter, hl⟩, htotal⟩ := f.run_reads hholds hlt
    refine ⟨⟨out ++ l, q', hafter, ?_⟩, htotal.trans_lt hlt⟩
    rw [results_append, hres, ← hl, outcome, outcome, outcome, List.map_append]

theorem ConsoleRun.lossless (h : ConsoleRun s calls) : Lossless s calls := by
  obtain ⟨⟨out, q, hholds, hres⟩, -⟩ := h.holds
  refine ⟨?_, ?_⟩
  · rw [hres, outcome, hholds.entered, List.map_append]
    exact List.prefix_append _ _
  · rw [hres, outcome, List.length_map, hholds.buffered_eq, hholds.entered, List.length_append]

theorem ConsoleRun.mem (h : ConsoleRun s calls) {x : Reader × Console} (hx : x ∈ calls) :
    ∃ earlier, ConsoleRun x.2 earlier := by
  induction h with
  | start => exact absurd hx List.not_mem_nil
  | serial _ _ _ _ ih => exact ih hx
  | keyboard _ _ _ ih => exact ih hx
  | call f hrun ih =>
    rcases List.mem_append.mp hx with hx | hx
    · exact ih hx
    · rw [List.mem_singleton.mp hx]
      exact ⟨_, hrun⟩

theorem ConsoleRun.truthful_iff (h : ConsoleRun s calls) (f : Reader) :
    Truthful (f, s) ↔ (f = .consGetc2 → KeyReady s ∨ pending s = 0) := by
  obtain ⟨⟨out, q, hholds, -⟩, hlt⟩ := h.holds
  cases f with
  | consGetc =>
    have hzero : Truthful (.consGetc, s) := (consGetc_reads hholds hlt).2
    simpa using hzero
  | consGetc2 =>
    have hzero : (Reader.run .consGetc2 s).1 = 0 ↔ ¬ KeyReady s := (consGetc2_reads hholds hlt).2
    have hpending : KeyReady s → pending s ≠ 0 := fun hk => by
      have hpos := List.length_pos_iff.mpr hk.chars_take
      have hsplit := length_take_chars s.kbd
      rw [pending]
      omega
    rw [Truthful, hzero]
    simp only [true_imp_iff]
    tauto

/-- Console input keeps the order of the characters and loses none. The calls tell whether
one is pending exactly when `cons_getc2` is only called where the next that comes from the
keyboard is a character, or where nothing is pending. -/
theorem console_iff (h : ConsoleRun s calls) : (Lossless s calls ∧ ∀ x ∈ calls, Truthful x) ↔
    ∀ x ∈ calls, x.1 = .consGetc2 → KeyReady x.2 ∨ pending x.2 = 0 := by
  refine ⟨fun hall x hx => ?_, fun hall => ⟨h.lossless, fun x hx => ?_⟩⟩
  · obtain ⟨earlier, hrun⟩ := h.mem hx
    exact (hrun.truthful_iff x.1).mp (hall.2 x hx)
  · obtain ⟨earlier, hrun⟩ := h.mem hx
    exact (hrun.truthful_iff x.1).mpr (hall x hx)

def noInput : Console := ⟨fun _ => 0, 0, 0, true, [], [], []⟩

def serialInput : Console := { noInput with serial := [65] }

def keyInput : Console := { noInput with kbd := [97] }

theorem noInput_run : ConsoleRun noInput [] := .start rfl rfl rfl rfl rfl

theorem console_iff_key : KeyReady keyInput ∧
    (Lossless (consGetc2 keyInput).2 [(.consGetc2, keyInput)] ∧ ∀ x ∈ [(Reader.consGetc2, keyInput)], Truthful x) := by
  have hkey : KeyReady keyInput := ⟨97, rfl, by decide⟩
  refine ⟨hkey, (console_iff (ConsoleRun.call .consGetc2 (ConsoleRun.keyboard 97 noInput_run ?_))).mpr fun x hx _ => ?_⟩
  · decide
  · rw [List.mem_singleton.mp hx]
    exact .inl hkey

/-- `cons_getc2` returns 0 although a character waits at the serial port. -/
theorem consGetc2_serial :
    ¬ ∀ s calls, ConsoleRun s calls → Lossless s calls ∧ ∀ x ∈ calls, Truthful x := by
  intro hall
  have hrun : ConsoleRun serialInput [] := ConsoleRun.serial 65 noInput_run rfl (by decide)
  have hcall := (hall _ _ (hrun.call .consGetc2)).2 (.consGetc2, serialInput) (List.mem_singleton.mpr rfl)
  exact absurd (hcall.mp (by decide)) (by decide)

end FosKernel.ConsoleInput
