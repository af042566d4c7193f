import FosKernel.FormatStrings
import FosKernel.Terminal

/-!
# Where formatted output goes

The kernel shows it at once, a program collects it for `sys_cputs`, and `vsnprintf` writes it to
memory.
-/

namespace FosKernel.Formatting
open CStrings Scheduler

section Outputs

variable (mem : Memory) (errorString : ℕ → ℕ) (fmt : List UInt8) (ap : VaList)

/-- `cprintf` of the kernel. The increments in its `putch` are lost, and it returns 0. -/
def cprintf (d : Terminal.Display) : ℤ × Terminal.Display :=
  (0, (formatted errorString mem fmt ap).foldl (fun d c => Terminal.consPutc c d) d)

structure SprintBuf where
  mem : Memory
  buf : ℕ
  ebuf : ℕ
  cnt : ℤ

def sprintputch (b : SprintBuf) (ch : ℕ) : SprintBuf :=
  let b := { b with cnt := int32 (b.cnt + 1) }
  if b.buf < b.ebuf then { b with mem := Function.update b.mem b.buf (UInt8.ofNat ch), buf := u32 (b.buf + 1) } else b

/-- At most `n` characters of the string at `p`, and how many there were. They are read when their turn comes, from a memory that
has those before them. -/
def sprintChars (f : Flags) : ℕ → ℕ → SprintBuf → ℕ × SprintBuf
  | 0, _, b => (0, b)
  | n + 1, p, b =>
    if b.mem p = 0 then (0, b)
    else
      let r := sprintChars f n (p + 1) (sprintputch b (shown f (b.mem p)))
      (r.1 + 1, r.2)

/-- `case 's'` -/
def sprintString (f : Flags) (p : ℕ) (b : SprintBuf) : SprintBuf :=
  let left := fillLeft f (readString b.mem p f.limit).length
  let r := sprintChars f f.limit p (left.1.foldl sprintputch b)
  (List.replicate (int32 (left.2 - r.1)).toNat 32).foldl sprintputch r.2

def sprintPut (b : SprintBuf) : Put → SprintBuf
  | .chars l => l.foldl sprintputch b
  | .string f p => if p = 0 then (putString f nullText).foldl sprintputch b else sprintString f p b

/-- `vsnprintf`; its error is `-E_INVAL`, which is 3. -/
def vsnprintf (buf : ℕ) (n : ℤ) : ℤ × Memory :=
  if buf = 0 ∨ n < 1 then (3, mem)
  else
    let b := (vprintfmt errorString fmt ap).foldl sprintPut ⟨mem, buf, u32 (buf + n.toNat - 1), 0⟩
    (b.cnt, Function.update b.mem b.buf 0)

/-- The buffer of a program, and what `sys_cputs` was called with. -/
structure PrintBuf where
  buf : ℕ → UInt8
  idx : ℕ
  cnt : ℤ
  calls : List (List UInt8)

/-- `sys_cputs(b->buf, b->idx, printProgName)` -/
def cputs (b : PrintBuf) : PrintBuf := { b with calls := b.calls ++ [(List.range b.idx).map b.buf] }

def putch (b : PrintBuf) (ch : ℕ) : PrintBuf :=
  let b := { b with buf := Function.update b.buf b.idx (UInt8.ofNat ch), idx := b.idx + 1 }
  let b := if b.idx = 256 - 1 then { cputs b with idx := 0 } else b
  { b with cnt := int32 (b.cnt + 1) }

/-- `vcprintf` of programs -/
def vcprintf (buf : ℕ → UInt8) : PrintBuf := cputs ((formatted errorString mem fmt ap).foldl putch ⟨buf, 0, 0, []⟩)

end Outputs

variable {mem : Memory} {errorString : ℕ → ℕ} {fmt : List UInt8} {ap : VaList} {buf p k n : ℕ} {f : Flags}

theorem int32_succ (a : ℤ) : int32 (int32 a + 1) = int32 (a + 1) := Int.bmod_add_bmod

theorem store_append (mem : Memory) (p : ℕ) (l l' : List UInt8) :
    store mem p (l ++ l') = store (store mem p l) (p + l.length) l' := by
  induction l generalizing mem p with
  | nil => rfl
  | cons c l ih =>
    rw [List.cons_append, store, store, ih, List.length_cons]
    congr 1
    omega

/-- `out` was put out to a buffer that has room for `k` characters. -/
def written (mem : Memory) (buf k : ℕ) (out : List ℕ) : SprintBuf :=
  ⟨store mem buf ((out.take k).map UInt8.ofNat), buf + min k out.length, buf + k, int32 out.length⟩

/-- Nothing that is read of the string is in the buffer. -/
def Apart (mem : Memory) (buf k p n : ℕ) : Prop := ∀ i ≤ (readString mem p n).length, ¬(buf ≤ p + i ∧ p + i ≤ buf + k)

theorem Apart.head (h : Apart mem buf k p n) : ¬(buf ≤ p ∧ p ≤ buf + k) := h 0 (Nat.zero_le _)

theorem Apart.tail (h : Apart mem buf k p (n + 1)) (h0 : mem p ≠ 0) : Apart mem buf k (p + 1) n := by
  intro i hi
  rw [Nat.add_right_comm]
  refine h (i + 1) ?_
  rw [readString, if_neg h0, List.length_cons]
  exact Nat.succ_le_succ hi

theorem sprintputch_written (hend : buf + k < 2 ^ 32) (out : List ℕ) (ch : ℕ) :
    sprintputch (written mem buf k out) ch = written mem buf k (out ++ [ch]) := by
  have hcnt : int32 (int32 out.length + 1) = int32 ((out ++ [ch]).length : ℕ) := by
    rw [int32_succ, List.length_append, List.length_singleton, Nat.cast_add, Nat.cast_one]
  by_cases h : out.length < k
  · have htake : (out ++ [ch]).take k = out ++ [ch] := by
      refine List.take_of_length_le ?_
      rw [List.length_append, List.length_singleton]
      exact h
    have hmem : Function.update (store mem buf (out.map UInt8.ofNat)) (buf + out.length) (UInt8.ofNat ch) =
        store mem buf ((out ++ [ch]).map UInt8.ofNat) := by
      rw [List.map_append, store_append, List.length_map]
      rfl
    have hnext : buf + min k (out ++ [ch]).length = buf + out.length + 1 := by
      rw [List.length_append, List.length_singleton]
      omega
    simp only [sprintputch, written, hcnt, htake, hnext, List.take_of_length_le h.le, Nat.min_eq_right h.le,
      u32_of_lt (show buf + out.length + 1 < 2 ^ 32 by omega)]
    rw [if_pos (by omega), hmem]
  · have htake : (out ++ [ch]).take k = out.take k := List.take_append_of_le_length (not_lt.mp h)
    have hnext : buf + min k (out ++ [ch]).length = buf + min k out.length := by
      rw [List.length_append, List.length_singleton]
      omega
    simp only [sprintputch, written, hcnt, htake, hnext]
    rw [if_neg (by omega)]

theorem foldl_written (hend : buf + k < 2 ^ 32) (out l : List ℕ) :
    l.foldl sprintputch (written mem buf k out) = written mem buf k (out ++ l) := by
  induction l generalizing out with
  | nil => rw [List.foldl_nil, List.append_nil]
  | cons ch l ih => rw [List.foldl_cons, sprintputch_written hend, ih, List.append_assoc, List.singleton_append]

theorem written_mem (out : List ℕ) {a : ℕ} (ha : ¬(buf ≤ a ∧ a ≤ buf + k)) : (written mem buf k out).mem a = mem a := by
  have hlen : ((out.take k).map UInt8.ofNat).length ≤ k := by
    rw [List.length_map]
    exact List.length_take_le k out
  exact store_of_not (by omega)

theorem readString_written (out : List ℕ) (h : Apart mem buf k p n) :
    readString (written mem buf k out).mem p n = readString mem p n := by
  induction n generalizing p with
  | zero => rfl
  | succ n ih =>
    rw [readString, readString, written_mem out h.head]
    by_cases h0 : mem p = 0
    · rw [if_pos h0, if_pos h0]
    · rw [if_neg h0, if_neg h0, ih (h.tail h0)]

theorem sprintChars_written (hend : buf + k < 2 ^ 32) (f : Flags) (out : List ℕ) (h : Apart mem buf k p n) :
    sprintChars f n p (written mem buf k out) =
      ((readString mem p n).length, written mem buf k (out ++ (readString mem p n).map (shown f))) := by
  induction n generalizing p out with
  | zero => rw [sprintChars, readString, List.map_nil, List.append_nil, List.length_nil]
  | succ n ih =>
    rw [sprintChars, readString, written_mem out h.head]
    by_cases h0 : mem p = 0
    · rw [if_pos h0, if_pos h0, List.map_nil, List.append_nil, List.length_nil]
    · rw [if_neg h0, if_neg h0, sprintputch_written hend, ih _ (h.tail h0)]
      simp only [List.length_cons, List.map_cons, List.append_assoc, List.singleton_append]

theorem sprintString_written (hend : buf + k < 2 ^ 32) (out : List ℕ) (hp : p ≠ 0) (h : Apart mem buf k p f.limit) :
    sprintString f p (written mem buf k out) = written mem buf k (out ++ putString f (stringAt mem f p)) := by
  have hstring : stringAt mem f p = readString mem p f.limit := if_neg hp
  have hlimited : limited f (readString mem p f.limit) = readString mem p f.limit := by
    rw [limited, Flags.limit]
    split
    · rfl
    · exact List.take_of_length_le (length_readString_le ..)
  simp only [sprintString, readString_written out h, foldl_written hend, sprintChars_written hend f _ h, putString,
    hstring, hlimited, List.append_assoc]

theorem sprintPut_written (hend : buf + k < 2 ^ 32) (out : List ℕ) {x : Put}
    (h : ∀ f p, x = .string f p → p ≠ 0 → Apart mem buf k p f.limit) :
    sprintPut (written mem buf k out) x = written mem buf k (out ++ x.text mem) := by
  cases x with
  | chars l => exact foldl_written hend out l
  | string f p =>
    rw [sprintPut, Put.text]
    by_cases h0 : p = 0
    · rw [if_pos h0, foldl_written hend, stringAt, if_pos h0]
    · rw [if_neg h0, sprintString_written hend out h0 (h f p rfl h0)]

theorem foldl_sprintPut (hend : buf + k < 2 ^ 32) (out : List ℕ) (xs : List Put)
    (h : ∀ f p, .string f p ∈ xs → p ≠ 0 → Apart mem buf k p f.limit) :
    xs.foldl sprintPut (written mem buf k out) = written mem buf k (out ++ xs.flatMap (Put.text mem)) := by
  induction xs generalizing out with
  | nil => rw [List.foldl_nil, List.flatMap_nil, List.append_nil]
  | cons x xs ih =>
    have hx : ∀ f p, x = .string f p → p ≠ 0 → Apart mem buf k p f.limit := by
      rintro f p rfl
      exact h f p List.mem_cons_self
    rw [List.foldl_cons, sprintPut_written hend out hx, ih _ fun f p hp => h f p (List.mem_cons_of_mem x hp),
      List.flatMap_cons, List.append_assoc]

/-- `vsnprintf` fills no more than `n` bytes, ends them with a zero and says how many characters there were. Nothing that it reads
of a string may be in the buffer. -/
theorem vsnprintf_writes (mem : Memory) (errorString : ℕ → ℕ) (fmt : List UInt8) (ap : VaList) {buf : ℕ} {n : ℤ}
    (hbuf : buf ≠ 0) (hn : 1 ≤ n) (hend : buf + n ≤ 2 ^ 32)
    (hapart : ∀ f p, .string f p ∈ vprintfmt errorString fmt ap → p ≠ 0 →
      ∀ i ≤ (readString mem p f.limit).length, p + i < buf ∨ buf + n ≤ p + i) :
    vsnprintf mem errorString fmt ap buf n = (int32 (formatted errorString mem fmt ap).length,
      store mem buf (((formatted errorString mem fmt ap).take (n.toNat - 1)).map UInt8.ofNat ++ [0])) := by
  have hspace : u32 (buf + n.toNat - 1) = buf + (n.toNat - 1) := by
    rw [u32_of_lt (by omega)]
    omega
  have hempty : (⟨mem, buf, buf + (n.toNat - 1), 0⟩ : SprintBuf) = written mem buf (n.toNat - 1) [] := by
    rw [written, List.take_nil, List.map_nil, store, List.length_nil, Nat.min_zero, Nat.add_zero]
    rfl
  have happart : ∀ f p, .string f p ∈ vprintfmt errorString fmt ap → p ≠ 0 → Apart mem buf (n.toNat - 1) p f.limit := by
    intro f p hmem h0 i hi
    have := hapart f p hmem h0 i hi
    omega
  rw [vsnprintf, if_neg (by omega), hspace, hempty, foldl_sprintPut (by omega) [] _ happart, List.nil_append, ← formatted]
  simp only [written]
  rw [store_append, List.length_map, List.length_take]
  rfl

/-- `"%s!"` of a string behind the buffer, which is too small for it. -/
theorem vsnprintf_writes_string :
    vsnprintf (store (fun _ => 0) 8192 [97, 98, 99]) (fun _ => 0) [37, 115, 33] (fun _ => 8192) 4096 3 =
      (4, store (store (fun _ => 0) 8192 [97, 98, 99]) 4096 [97, 98, 0]) := by
  have hs : HoldsString (store (fun _ => 0) 8192 [97, 98, 99]) 8192 [97, 98, 99] := by
    simp [HoldsString, store]
  have hnil : ∀ c ∈ ([] : List UInt8), c ≠ 0 ∧ c ≠ 37 := List.forall_mem_nil _
  have hmark : ∀ c ∈ ([33] : List UInt8), c ≠ 0 ∧ c ≠ 37 := by simp
  have hputs : vprintfmt (fun _ => 0) [37, 115, 33] (fun _ => 8192) = [.string .plain 8192, .chars [33]] :=
    formatWith_string _ _ (by decide) hnil hmark
  have hout : formatted (fun _ => 0) (store (fun _ => 0) 8192 [97, 98, 99]) [37, 115, 33] (fun _ => 8192) =
      [97, 98, 99, 33] :=
    formatted_string (fun _ => 0) _ (by decide) (by decide) hs (by decide) hnil hmark
  have hbuf : (4096 : ℕ) ≠ 0 := by decide
  have hapart : ∀ f p, .string f p ∈ vprintfmt (fun _ => 0) [37, 115, 33] (fun _ => 8192) → p ≠ 0 →
      ∀ i ≤ (readString (store (fun _ => 0) 8192 [97, 98, 99]) p f.limit).length, p + i < 4096 ∨ ((4096 : ℕ) : ℤ) + 3 ≤ p + i := by
    intro f p hp h0 i hi
    rw [hputs] at hp
    simp only [List.mem_cons, Put.string.injEq, reduceCtorEq, List.not_mem_nil, or_false] at hp
    obtain ⟨rfl, rfl⟩ := hp
    omega
  rw [vsnprintf_writes (store (fun _ => 0) 8192 [97, 98, 99]) (fun _ => 0) [37, 115, 33] (fun _ => 8192) hbuf
    (by decide : (1 : ℤ) ≤ 3) (by decide) hapart, hout]
  rfl

/-- What was put out so far is in the calls and in the buffer, which never overflows. -/
structure Collected (b : PrintBuf) (out : List ℕ) : Prop where
  text : b.calls.flatten ++ (List.range b.idx).map b.buf = out.map UInt8.ofNat
  short : ∀ s ∈ b.calls, s.length ≤ 255
  room : b.idx < 255
  cnt : b.cnt = int32 out.length

theorem Collected.putch {b : PrintBuf} {out : List ℕ} (h : Collected b out) (ch : ℕ) :
    Collected (putch b ch) (out ++ [ch]) := by
  have hold : (List.range b.idx).map (Function.update b.buf b.idx (UInt8.ofNat ch)) = (List.range b.idx).map b.buf :=
    List.map_congr_left fun i hi => Function.update_of_ne (List.mem_range.mp hi).ne ..
  have htext : b.calls.flatten ++ (List.range (b.idx + 1)).map (Function.update b.buf b.idx (UInt8.ofNat ch)) =
      (out ++ [ch]).map UInt8.ofNat := by
    rw [List.range_succ, List.map_append, hold, List.map_singleton, Function.update_self, ← List.append_assoc, h.text,
      List.map_append, List.map_singleton]
  have hcnt : int32 (b.cnt + 1) = int32 ((out ++ [ch]).length : ℕ) := by
    rw [h.cnt, int32_succ, List.length_append, List.length_singleton, Nat.cast_add, Nat.cast_one]
  have hroom := h.room
  rw [Formatting.putch]
  by_cases hfull : b.idx + 1 = 256 - 1
  · rw [if_pos hfull]
    refine ⟨?_, fun s hs => ?_, Nat.zero_lt_succ _, hcnt⟩
    · simpa [cputs] using htext
    · rcases List.mem_append.mp hs with hs | hs
      · exact h.short s hs
      · rw [List.mem_singleton.mp hs, List.length_map, List.length_range]
        exact hfull.le
  · rw [if_neg hfull]
    exact ⟨htext, h.short, by simp only; omega, hcnt⟩

theorem Collected.foldl {b : PrintBuf} {out : List ℕ} (h : Collected b out) (out' : List ℕ) :
    Collected (out'.foldl Formatting.putch b) (out ++ out') := by
  induction out' generalizing b out with
  | nil => rwa [List.append_nil]
  | cons ch out' ih =>
    have hnext := ih (h.putch ch)
    rwa [List.append_assoc, List.singleton_append] at hnext

/-- The calls of `sys_cputs` have the whole text, in pieces that fit the buffer. -/
theorem vcprintf_prints (mem : Memory) (errorString : ℕ → ℕ) (fmt : List UInt8) (ap : VaList) (buf : ℕ → UInt8) :
    (vcprintf mem errorString fmt ap buf).calls.flatten = (formatted errorString mem fmt ap).map UInt8.ofNat ∧
      (∀ s ∈ (vcprintf mem errorString fmt ap buf).calls, s.length ≤ 255) ∧
      (vcprintf mem errorString fmt ap buf).cnt = int32 (formatted errorString mem fmt ap).length := by
  have hstart : Collected ⟨buf, 0, 0, []⟩ [] := ⟨rfl, fun _ hs => absurd hs List.not_mem_nil, Nat.zero_lt_succ _, rfl⟩
  have h := hstart.foldl (formatted errorString mem fmt ap)
  rw [List.nil_append] at h
  refine ⟨?_, fun s hs => ?_, h.cnt⟩
  · rw [vcprintf, cputs, List.flatten_append, List.flatten_singleton]
    exact h.text
  · rcases List.mem_append.mp hs with hs | hs
    · exact h.short s hs
    · rw [List.mem_singleton.mp hs, List.length_map, List.length_range]
      exact h.room.le

end FosKernel.Formatting
