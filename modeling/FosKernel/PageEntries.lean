import Mathlib.Data.Nat.Bitwise
import Mathlib.Data.Nat.Notation

/-!
# Pages of bytes, and the entries of page tables

A page holds 4096 bytes, read as 1024 little-endian words. An entry is a word
whose low twelve bits are permissions and whose other bits name a frame.
-/

namespace FosKernel.PageEntries

abbrev Page := Fin 4096 → UInt8

def zeroPage : Page := fun _ => 0

/-- The byte at an address whose page offset is taken. -/
def byteAt (p : Page) (va : ℕ) : UInt8 := p (Fin.ofNat 4096 va)

/-- The word with index `j`. -/
def wordAt (p : Page) (j : ℕ) : ℕ :=
  (byteAt p (4 * j)).toNat + 256 * (byteAt p (4 * j + 1)).toNat +
    65536 * (byteAt p (4 * j + 2)).toNat + 16777216 * (byteAt p (4 * j + 3)).toNat

def setWord (p : Page) (j w : ℕ) : Page :=
  fun o => if o.val / 4 = j then UInt8.ofNat (w / 256 ^ (o.val % 4)) else p o

def setByte (p : Page) (va : ℕ) (b : UInt8) : Page := Function.update p (Fin.ofNat 4096 va) b

theorem wordAt_lt (p : Page) (j : ℕ) : wordAt p j < 2 ^ 32 := by
  have h (o : Fin 4096) : (p o).toNat < 256 := (p o).toNat_lt
  have h₀ := h (Fin.ofNat 4096 (4 * j))
  have h₁ := h (Fin.ofNat 4096 (4 * j + 1))
  have h₂ := h (Fin.ofNat 4096 (4 * j + 2))
  have h₃ := h (Fin.ofNat 4096 (4 * j + 3))
  simp only [wordAt, byteAt]
  omega

@[simp] theorem wordAt_zeroPage (j : ℕ) : wordAt zeroPage j = 0 := by
  simp [wordAt, byteAt, zeroPage]

private theorem byteAt_setWord {p : Page} {j w i : ℕ} (hj : j < 1024) (hi : i < 4) :
    byteAt (setWord p j w) (4 * j + i) = UInt8.ofNat (w / 256 ^ i) := by
  have hlt : 4 * j + i < 4096 := by omega
  have hdiv : (4 * j + i) / 4 = j := by omega
  have hmod : (4 * j + i) % 4 = i := by omega
  simp [byteAt, setWord, Nat.mod_eq_of_lt hlt, hdiv, hmod]

private theorem byteAt_setWord_of_ne {p : Page} {j k w i : ℕ} (hk : k < 1024) (hi : i < 4)
    (hne : k ≠ j) : byteAt (setWord p j w) (4 * k + i) = byteAt p (4 * k + i) := by
  have hlt : 4 * k + i < 4096 := by omega
  have hdiv : (4 * k + i) / 4 = k := by omega
  simp [byteAt, setWord, Nat.mod_eq_of_lt hlt, hdiv, hne]

theorem wordAt_setWord {p : Page} {j w : ℕ} (hj : j < 1024) (hw : w < 2 ^ 32) :
    wordAt (setWord p j w) j = w := by
  have h₀ := byteAt_setWord (p := p) (w := w) hj (show 0 < 4 by decide)
  have h₁ := byteAt_setWord (p := p) (w := w) hj (show 1 < 4 by decide)
  have h₂ := byteAt_setWord (p := p) (w := w) hj (show 2 < 4 by decide)
  have h₃ := byteAt_setWord (p := p) (w := w) hj (show 3 < 4 by decide)
  rw [Nat.add_zero] at h₀
  simp only [wordAt, h₀, h₁, h₂, h₃, UInt8.toNat_ofNat', Nat.reducePow, Nat.div_one]
  omega

theorem wordAt_setWord_of_ne {p : Page} {j k w : ℕ} (hk : k < 1024) (hne : k ≠ j) :
    wordAt (setWord p j w) k = wordAt p k := by
  have h₀ := byteAt_setWord_of_ne (p := p) (w := w) hk (show 0 < 4 by decide) hne
  have h₁ := byteAt_setWord_of_ne (p := p) (w := w) hk (show 1 < 4 by decide) hne
  have h₂ := byteAt_setWord_of_ne (p := p) (w := w) hk (show 2 < 4 by decide) hne
  have h₃ := byteAt_setWord_of_ne (p := p) (w := w) hk (show 3 < 4 by decide) hne
  rw [Nat.add_zero] at h₀
  simp only [wordAt, h₀, h₁, h₂, h₃]

theorem byteAt_setByte (p : Page) (va : ℕ) (b : UInt8) : byteAt (setByte p va b) va = b := by
  simp [byteAt, setByte]

theorem byteAt_setByte_of_ne {p : Page} {va va' : ℕ} {b : UInt8} (h : va' % 4096 ≠ va % 4096) :
    byteAt (setByte p va b) va' = byteAt p va' := by
  have hne : Fin.ofNat 4096 va' ≠ Fin.ofNat 4096 va := fun he => h (congrArg Fin.val he)
  exact Function.update_of_ne hne b p

def pageOfWords (w : ℕ → ℕ) : Page := fun o => UInt8.ofNat (w (o.val / 4) / 256 ^ (o.val % 4))

theorem wordAt_pageOfWords {w : ℕ → ℕ} {j : ℕ} (hj : j < 1024) (hw : w j < 2 ^ 32) :
    wordAt (pageOfWords w) j = w j := by
  have hpage : pageOfWords w = setWord (pageOfWords w) j (w j) := by
    funext o
    by_cases h : o.val / 4 = j
    · simp [setWord, pageOfWords, h]
    · simp [setWord, h]
  rw [hpage, wordAt_setWord hj hw]

def permPresent : ℕ := 0x001
def permWriteable : ℕ := 0x002
def permUser : ℕ := 0x004
def permUsed : ℕ := 0x020
def permModified : ℕ := 0x040

/-- `CONSTRUCT_ENTRY` -/
def constructEntry (pa perm : ℕ) : ℕ := pa ||| perm

/-- The number of the frame that an entry names. -/
def frameNumber (w : ℕ) : ℕ := w / 4096

/-- `EXTRACT_ADDRESS` -/
def extractAddress (w : ℕ) : ℕ := w - w % 4096

/-- All bits of `perm` are set, as in `(w & perm) == perm`. -/
def HasPerm (w perm : ℕ) : Prop := w &&& perm = perm

instance (w perm : ℕ) : Decidable (HasPerm w perm) := inferInstanceAs (Decidable (_ = _))

def setPerm (w set : ℕ) : ℕ := w ||| set

/-- `w & ~clear` on 32 bits -/
def clearPerm (w clear : ℕ) : ℕ := w &&& (0xFFFFFFFF ^^^ clear)

theorem hasPerm_two_pow {w k : ℕ} : HasPerm w (2 ^ k) ↔ w.testBit k = true := by
  rw [HasPerm, Nat.and_two_pow]
  cases w.testBit k with
  | true => simp
  | false => simpa using (Nat.two_pow_pos k).ne

theorem hasPerm_or {w p q : ℕ} : HasPerm w (p ||| q) ↔ HasPerm w p ∧ HasPerm w q := by
  simp only [HasPerm, Nat.eq_iff_testBit_eq, Nat.testBit_and, Nat.testBit_or]
  constructor
  · intro h
    constructor
    all_goals
      intro i
      have hi := h i
      revert hi
      cases w.testBit i <;> cases p.testBit i <;> cases q.testBit i <;> simp
  · rintro ⟨hp, hq⟩ i
    have hpi := hp i
    have hqi := hq i
    revert hpi hqi
    cases w.testBit i <;> cases p.testBit i <;> cases q.testBit i <;> simp

theorem HasPerm.trans {w p q : ℕ} (h : HasPerm w p) (h' : HasPerm p q) : HasPerm w q := by
  rw [HasPerm] at *
  rw [← h', ← Nat.and_assoc, h]

theorem HasPerm.or_left {a w p : ℕ} (h : HasPerm w p) : HasPerm (a ||| w) p := by
  rw [HasPerm] at *
  rw [Nat.and_comm, Nat.and_or_distrib_left, Nat.and_comm p w, h, Nat.or_comm]
  apply Nat.eq_of_testBit_eq
  intro i
  simp only [Nat.testBit_or, Nat.testBit_and]
  cases p.testBit i <;> simp

theorem hasPerm_present {w : ℕ} : HasPerm w permPresent ↔ w.testBit 0 = true :=
  hasPerm_two_pow (k := 0)
theorem hasPerm_writeable {w : ℕ} : HasPerm w permWriteable ↔ w.testBit 1 = true :=
  hasPerm_two_pow (k := 1)
theorem hasPerm_user {w : ℕ} : HasPerm w permUser ↔ w.testBit 2 = true :=
  hasPerm_two_pow (k := 2)
theorem hasPerm_used {w : ℕ} : HasPerm w permUsed ↔ w.testBit 5 = true :=
  hasPerm_two_pow (k := 5)
theorem hasPerm_modified {w : ℕ} : HasPerm w permModified ↔ w.testBit 6 = true :=
  hasPerm_two_pow (k := 6)

@[simp] theorem not_hasPerm_zero {k : ℕ} : ¬HasPerm 0 (2 ^ k) := by
  simp [hasPerm_two_pow]

theorem ne_zero_of_hasPerm_present {w : ℕ} (h : HasPerm w permPresent) : w ≠ 0 := by
  rintro rfl
  simp [hasPerm_present] at h

theorem constructEntry_eq {f perm : ℕ} (h : perm < 4096) :
    constructEntry (4096 * f) perm = 4096 * f + perm :=
  (Nat.two_pow_add_eq_or_of_lt (i := 12) h f).symm

theorem frameNumber_constructEntry {f perm : ℕ} (h : perm < 4096) :
    frameNumber (constructEntry (4096 * f) perm) = f := by
  rw [constructEntry_eq h, frameNumber]
  omega

theorem testBit_constructEntry {f perm k : ℕ} (hk : k < 12) :
    (constructEntry (4096 * f) perm).testBit k = perm.testBit k := by
  have h : (4096 * f).testBit k = false := by
    rw [show 4096 * f = 2 ^ 12 * f from rfl, Nat.testBit_two_pow_mul]
    simp [hk]
  simp [constructEntry, Nat.testBit_or, h]

theorem hasPerm_constructEntry {f perm k : ℕ} (hk : k < 12) (h : perm.testBit k = true) :
    HasPerm (constructEntry (4096 * f) perm) (2 ^ k) := by
  rwa [hasPerm_two_pow, testBit_constructEntry hk]

theorem constructEntry_lt {f perm : ℕ} (hf : f < 2 ^ 20) (h : perm < 4096) :
    constructEntry (4096 * f) perm < 2 ^ 32 := by
  rw [constructEntry_eq h]
  omega

private theorem shiftRight_eq (w : ℕ) : w >>> 12 = frameNumber w := Nat.shiftRight_eq_div_pow w 12

theorem frameNumber_setPerm {w p : ℕ} (h : p < 4096) : frameNumber (setPerm w p) = frameNumber w := by
  have hp : p >>> 12 = 0 := by simpa [Nat.shiftRight_eq_div_pow] using h
  rw [← shiftRight_eq, setPerm, Nat.shiftRight_or_distrib, hp, Nat.or_zero, shiftRight_eq]

theorem testBit_setPerm (w p k : ℕ) : (setPerm w p).testBit k = (w.testBit k || p.testBit k) :=
  Nat.testBit_or w p k

theorem setPerm_lt {w p : ℕ} (hw : w < 2 ^ 32) (hp : p < 4096) : setPerm w p < 2 ^ 32 :=
  Nat.or_lt_two_pow hw (by omega)

theorem testBit_clearPerm {w p k : ℕ} (hk : k < 32) :
    (clearPerm w p).testBit k = (w.testBit k && !p.testBit k) := by
  have h : (0xFFFFFFFF : ℕ).testBit k = true := by
    simpa [hk] using Nat.testBit_two_pow_sub_one 32 k
  simp [clearPerm, Nat.testBit_and, Nat.testBit_xor, h]

theorem clearPerm_lt {w p : ℕ} (hw : w < 2 ^ 32) : clearPerm w p < 2 ^ 32 :=
  Nat.and_le_left.trans_lt hw

theorem frameNumber_clearPerm {w p : ℕ} (hw : w < 2 ^ 32) (hp : p < 4096) :
    frameNumber (clearPerm w p) = frameNumber w := by
  have h : p >>> 12 = 0 := by simpa [Nat.shiftRight_eq_div_pow] using hp
  have hlt : frameNumber w < 2 ^ 20 := by
    rw [frameNumber]
    omega
  have hones : 0xFFFFFFFF >>> 12 = 2 ^ 20 - 1 := by decide
  rw [← shiftRight_eq, clearPerm, Nat.shiftRight_and_distrib, Nat.shiftRight_xor_distrib, h,
    Nat.xor_zero, hones, Nat.and_two_pow_sub_one_eq_mod, shiftRight_eq, Nat.mod_eq_of_lt hlt]

theorem frameNumber_extractAddress (w : ℕ) : frameNumber (extractAddress w) = frameNumber w := by
  simp only [frameNumber, extractAddress]
  omega

theorem extractAddress_eq (w : ℕ) : extractAddress w = 4096 * frameNumber w := by
  simp only [frameNumber, extractAddress]
  omega

end FosKernel.PageEntries
