import FosKernel.Boot
import FosKernel.ReferenceCounts

/-!
# Address spaces

The directories and page tables, those of the page file included, are pages of the
kernel heap. A placement `g` says on which page each of them lies. Relative to a
placement the words of all tables are cells of one memory: a write changes one cell.
-/

namespace FosKernel.Machine
open FailingPrograms PageEntries ReferenceCounts

variable {s t u : Machine} {E : Finset ℕ} {p q f i j w va : ℕ} {pg : Page}

/-- The kernel's directory, of each environment the directory and the directory of its
page file, and the frames storage of each shared object. -/
inductive Tree | kernel | user (e : ℕ) | disk (e : ℕ) | storage (i : ℕ)
deriving DecidableEq

/-- A directory or one of its tables. -/
inductive Obj | root (τ : Tree) | leaf (τ : Tree) (i : ℕ)
deriving DecidableEq

/-- The kernel's entry for a page that all directories share, or a word of a directory or table. -/
inductive Cell | page (p : ℕ) | word (o : Obj) (j : ℕ)
deriving DecidableEq

/-- The permissions of the entries of a directory. -/
def Tree.perm : Tree → ℕ
  | .disk _ => permPresent
  | _ => permPresent ||| permUser ||| permWriteable

theorem Tree.perm_lt (τ : Tree) : τ.perm < 4096 := by
  cases τ <;> simp only [Tree.perm] <;> decide

theorem Tree.perm_present (τ : Tree) : HasPerm τ.perm permPresent := by
  cases τ <;> simp only [Tree.perm] <;> decide

/-- The directories that the hardware can walk. -/
def mmuTrees (E : Finset ℕ) : Finset Tree := insert .kernel (E.image .user)

@[simp] theorem kernel_mem_mmuTrees : Tree.kernel ∈ mmuTrees E := by simp [mmuTrees]

@[simp] theorem user_mem_mmuTrees {e : ℕ} : Tree.user e ∈ mmuTrees E ↔ e ∈ E := by simp [mmuTrees]

@[simp] theorem disk_notMem_mmuTrees {e : ℕ} : Tree.disk e ∉ mmuTrees E := by simp [mmuTrees]

@[simp] theorem storage_notMem_mmuTrees : Tree.storage i ∉ mmuTrees E := by simp [mmuTrees]

/-- The kernel's pages whose tables all directories share. -/
def SharedPage (p : ℕ) : Prop := p = userLimit ∨ HeapPage p

theorem HeapPage.shared (h : HeapPage p) : SharedPage p := .inr h

theorem SharedPage.index (h : SharedPage p) : pdx p ∈ kernelTables := by
  rcases h with rfl | h
  · exact .inl rfl
  · exact heapTables_subset h.index

theorem SharedPage.userTop_le (h : SharedPage p) : userTop ≤ p := by
  rcases h with rfl | h
  · decide
  · exact h.userTop_le

theorem SharedPage.lt (h : SharedPage p) : p < 2 ^ 32 := by
  rcases h with rfl | h
  · decide
  · exact h.lt

theorem SharedPage.dvd (h : SharedPage p) : pageSize ∣ p := by
  rcases h with rfl | h
  · decide
  · exact h.dvd

theorem kernelTables_ge (hi : i ∈ kernelTables) : pdx userTop ≤ i := by
  rcases hi with rfl | hi
  · decide
  · exact (show pdx userTop ≤ pdx kernelHeapStart by decide).trans hi.1

theorem kernelTables_lt (hi : i ∈ kernelTables) : i < 1024 := by
  rcases hi with rfl | hi
  · exact pdx_lt _
  · exact hi.2

def pageFrame (s : Machine) (p : ℕ) : ℕ :=
  if p < s.ptrFreeMem then frameNumber (p - kernelBase) else frameNumber (s.kernelPte p)

open Classical in
/-- What the machine holds in a cell; cells of absent tables hold 0. -/
noncomputable def cellWord (s : Machine) (g : Obj → ℕ) : Cell → ℕ
  | .page p => if SharedPage p then s.kernelPte p else 0
  | .word o j => if g o = 0 ∨ 1024 ≤ j then 0 else wordAt (s.ram (s.pageFrame (g o))) j

/-- Where an environment can read its working set: `share_pws_at_user_space` copies the
kernel's entries there, and the frame records do not count the copies. -/
def UserPagesWS (va : ℕ) : Prop := userHeapMax ≤ va ∧ va < ustackBottom

instance (va : ℕ) : Decidable (UserPagesWS va) := inferInstanceAs (Decidable (_ ∧ _))

open Classical in
/-- The cells that name frames and are counted. -/
noncomputable def slots (E : Finset ℕ) : Finset Cell :=
  ((Finset.range (2 ^ 32)).filter SharedPage).image .page ∪
    ((mmuTrees E ×ˢ Finset.range (pdx userTop) ×ˢ Finset.range 1024).filter
      fun x => ¬UserPagesWS (pageSize * (1024 * x.2.1 + x.2.2))).image
        fun x => .word (.leaf x.1 x.2.1) x.2.2

@[simp] theorem page_mem_slots : Cell.page p ∈ slots E ↔ SharedPage p := by
  simp only [slots, Finset.mem_union, Finset.mem_image, Finset.mem_filter, Finset.mem_range]
  constructor
  · rintro (⟨_, ⟨-, hp⟩, h⟩ | ⟨_, -, h⟩)
    · exact Cell.page.inj h ▸ hp
    · cases h
  · exact fun h => .inl ⟨p, ⟨h.lt, h⟩, rfl⟩

@[simp] theorem leaf_mem_slots {τ : Tree} :
    Cell.word (.leaf τ i) j ∈ slots E ↔
      τ ∈ mmuTrees E ∧ i < pdx userTop ∧ j < 1024 ∧ ¬UserPagesWS (pageSize * (1024 * i + j)) := by
  simp only [slots, Finset.mem_union, Finset.mem_image, Finset.mem_filter, Finset.mem_product, Finset.mem_range]
  constructor
  · rintro (⟨_, -, h⟩ | ⟨x, ⟨⟨hτ, hi, hj⟩, hws⟩, h⟩)
    · cases h
    · obtain ⟨ho, rfl⟩ := Cell.word.inj h
      obtain ⟨rfl, rfl⟩ := Obj.leaf.inj ho
      exact ⟨hτ, hi, hj, hws⟩
  · exact fun ⟨hτ, hi, hj, hws⟩ => .inr ⟨(τ, i, j), ⟨⟨hτ, hi, hj⟩, hws⟩, rfl⟩

@[simp] theorem root_notMem_slots {τ : Tree} : Cell.word (.root τ) j ∉ slots E := by
  simp only [slots, Finset.mem_union, Finset.mem_image, not_or]
  constructor
  · rintro ⟨_, -, h⟩
    cases h
  · rintro ⟨_, -, h⟩
    cases h

/-- A page of the kernel heap that holds a directory or a table. -/
structure ObjectPage (s : Machine) (p : ℕ) : Prop where
  heap : HeapPage p
  entry : s.kernelPte p =
    constructEntry (toPhysicalAddress (s.pageFrame p)) (permWriteable ||| permPresent)
  managed : s.Managed (s.pageFrame p)
  va : (s.framesInfo (s.pageFrame p)).va = p

/-- The tables lie as `g` says, and the directories refer to them. -/
structure Layout (E : Finset ℕ) (s : Machine) (g : Obj → ℕ) : Prop where
  tables : KernelTables s kernelTables
  reserved : ¬s.Managed s.kernelDir ∧ ∀ i ∈ kernelTables, ¬s.Managed (s.kernelTable i)
  enough : physIOMem / pageSize ≤ s.numberOfFrames
  kernelRoot : g (.root .kernel) = s.ptrPageDirectory
  object : ∀ o, o ≠ .root .kernel → g o ≠ 0 → ObjectPage s (g o)
  inj : ∀ o o', g o ≠ 0 → g o = g o' → o = o'
  leaf : ∀ τ i, g (.leaf τ i) ≠ 0 → i < pdx userTop ∧ g (.root τ) ≠ 0
  absent : ∀ e ∉ E, g (.root (.user e)) = 0
  roots : ∀ e, (s.envs e).envPageDirectory = g (.root (.user e)) ∧
    (s.envs e).diskEnvPgdir = g (.root (.disk e))
  envCr3 : ∀ e, g (.root (.user e)) ≠ 0 →
    (s.envs e).envCr3 = toPhysicalAddress (s.pageFrame (g (.root (.user e))))
  pde : ∀ τ i, i < pdx userTop → g (.root τ) ≠ 0 → s.cellWord g (.word (.root τ) i) =
    if g (.leaf τ i) = 0 then 0
    else constructEntry (toPhysicalAddress (s.pageFrame (g (.leaf τ i)))) τ.perm
  kpde : ∀ e, g (.root (.user e)) ≠ 0 → ∀ i ∈ kernelTables,
    s.cellWord g (.word (.root (.user e)) i) = s.kernelPde i
  loaded : ∃ τ ∈ mmuTrees E, g (.root τ) ≠ 0 ∧ frameNumber s.cr3 = s.pageFrame (g (.root τ))

theorem cellWord_page (hp : SharedPage p) (g : Obj → ℕ) : s.cellWord g (.page p) = s.kernelPte p := by
  simp [cellWord, hp]

theorem cellWord_word {g : Obj → ℕ} {o : Obj} (ho : g o ≠ 0) (hj : j < 1024) :
    s.cellWord g (.word o j) = wordAt (s.ram (s.pageFrame (g o))) j := by
  simp [cellWord, ho, hj]

theorem cellWord_absent {g : Obj → ℕ} {o : Obj} (ho : g o = 0) : s.cellWord g (.word o j) = 0 := by
  simp [cellWord, ho]

theorem cellWord_lt (s : Machine) (g : Obj → ℕ) (x : Cell) : s.cellWord g x < 2 ^ 32 := by
  cases x with
  | page p =>
    simp only [cellWord]
    split
    · exact wordAt_lt _ _
    · decide
  | word o j =>
    simp only [cellWord]
    split
    · decide
    · exact wordAt_lt _ _

namespace Layout

variable {g : Obj → ℕ} {o o' : Obj} {τ : Tree}

theorem kernelRoot_ne (h : Layout E s g) : g (.root .kernel) ≠ 0 := by
  have := h.tables.base
  rw [h.kernelRoot]
  simp only [kernelBase] at this
  omega

theorem pageFrame_kernelRoot (h : Layout E s g) : s.pageFrame (g (.root .kernel)) = s.kernelDir := by
  rw [pageFrame, h.kernelRoot, if_pos h.tables.lt_free, kernelDir]

theorem pageFrame_heap (h : Layout E s g) (hp : HeapPage p) :
    s.pageFrame p = frameNumber (s.kernelPte p) := by
  have h₁ := h.tables.free_le
  have h₂ := hp.start
  rw [pageFrame, if_neg (by omega)]

theorem managed_lt (h : Layout E s g) (hf : s.Managed f) : f < s.numberOfFrames := by
  have := h.enough
  rcases hf with hf | hf
  · exact hf.2.trans_le this
  · exact hf.2

theorem pageFrame_ne_table (h : Layout E s g) (ho : g o ≠ 0) (hi : i ∈ kernelTables) :
    s.pageFrame (g o) ≠ s.kernelTable i := by
  by_cases hk : o = .root .kernel
  · subst hk
    rw [h.pageFrame_kernelRoot]
    exact (h.tables.ne_dir i hi).symm
  · intro he
    exact h.reserved.2 i hi (he ▸ (h.object o hk ho).managed)

theorem pageFrame_inj (h : Layout E s g) (ho : g o ≠ 0) (ho' : g o' ≠ 0)
    (he : s.pageFrame (g o) = s.pageFrame (g o')) : o = o' := by
  by_cases hk : o = .root .kernel
  · by_cases hk' : o' = .root .kernel
    · rw [hk, hk']
    · subst hk
      rw [h.pageFrame_kernelRoot] at he
      exact absurd (he ▸ (h.object o' hk' ho').managed) h.reserved.1
  · by_cases hk' : o' = .root .kernel
    · subst hk'
      rw [h.pageFrame_kernelRoot] at he
      exact absurd (he ▸ (h.object o hk ho).managed) h.reserved.1
    · refine h.inj o o' ho ?_
      rw [← (h.object o hk ho).va, he, (h.object o' hk' ho').va]

theorem cellWord_root (h : Layout E s g) (hτ : τ ∈ mmuTrees E) (ho : g (.root τ) ≠ 0)
    (hi : i ∈ kernelTables) : s.cellWord g (.word (.root τ) i) = s.kernelPde i := by
  cases τ with
  | kernel => rw [cellWord_word ho (kernelTables_lt hi), h.pageFrame_kernelRoot, kernelPde]
  | user e => exact h.kpde e ho i hi
  | disk e => simp at hτ
  | storage i => simp at hτ

theorem pde_loaded (h : Layout E s g) (hi : i ∈ kernelTables) :
    wordAt (s.ram (frameNumber s.cr3)) i = s.kernelPde i := by
  obtain ⟨τ, hτ, ho, hcr⟩ := h.loaded
  rw [hcr, ← cellWord_word ho (kernelTables_lt hi), h.cellWord_root hτ ho hi]

end Layout

structure SameBoot (s t : Machine) : Prop where
  cr3 : t.cr3 = s.cr3
  numberOfFrames : t.numberOfFrames = s.numberOfFrames
  ptrFreeMem : t.ptrFreeMem = s.ptrFreeMem
  ptrPageDirectory : t.ptrPageDirectory = s.ptrPageDirectory

/-- The directories of the environments also stay where they are. -/
structure SamePlaces (s t : Machine) : Prop extends SameBoot s t where
  envPageDirectory : ∀ e, (t.envs e).envPageDirectory = (s.envs e).envPageDirectory
  diskEnvPgdir : ∀ e, (t.envs e).diskEnvPgdir = (s.envs e).diskEnvPgdir
  envCr3 : ∀ e, (t.envs e).envCr3 = (s.envs e).envCr3

theorem SamePlaces.trans (h : SamePlaces s t) (h' : SamePlaces t u) : SamePlaces s u where
  cr3 := h'.cr3.trans h.cr3
  numberOfFrames := h'.numberOfFrames.trans h.numberOfFrames
  ptrFreeMem := h'.ptrFreeMem.trans h.ptrFreeMem
  ptrPageDirectory := h'.ptrPageDirectory.trans h.ptrPageDirectory
  envPageDirectory e := (h'.envPageDirectory e).trans (h.envPageDirectory e)
  diskEnvPgdir e := (h'.diskEnvPgdir e).trans (h.diskEnvPgdir e)
  envCr3 e := (h'.envCr3 e).trans (h.envCr3 e)

theorem SameGlobals.places (h : SameGlobals s t) : SamePlaces s t where
  cr3 := h.cr3
  numberOfFrames := h.numberOfFrames
  ptrFreeMem := h.ptrFreeMem
  ptrPageDirectory := h.ptrPageDirectory
  envPageDirectory e := by rw [h.envs]
  diskEnvPgdir e := by rw [h.envs]
  envCr3 e := by rw [h.envs]

theorem SameBoot.managed (h : SameBoot s t) : t.Managed = s.Managed := by
  funext f
  simp only [Managed, endOfBoot, h.ptrFreeMem, h.numberOfFrames]

private theorem kernelPte_of_tables (hpde : ∀ i ∈ kernelTables, t.kernelPde i = s.kernelPde i)
    (hram : ∀ i ∈ kernelTables, t.ram (s.kernelTable i) = s.ram (s.kernelTable i)) (hp : SharedPage p) :
    t.kernelPte p = s.kernelPte p := by
  rw [kernelPte, kernelTable, hpde _ hp.index, ← kernelTable, hram _ hp.index, kernelPte]

theorem SameBoot.pageFrame (h : SameBoot s t) (hp : s.ptrFreeMem ≤ p → t.kernelPte p = s.kernelPte p) :
    t.pageFrame p = s.pageFrame p := by
  simp only [Machine.pageFrame, h.ptrFreeMem]
  split
  · rfl
  · rw [hp (by omega)]

namespace Layout

variable {g : Obj → ℕ} {o o' : Obj} {τ : Tree}

private theorem pageFrame_of_pte (h : Layout E s g) (hst : SameBoot s t)
    (hpte : ∀ o, o ≠ .root .kernel → g o ≠ 0 → t.kernelPte (g o) = s.kernelPte (g o)) (ho : g o ≠ 0) :
    t.pageFrame (g o) = s.pageFrame (g o) := by
  apply hst.pageFrame
  intro hfree
  apply hpte o _ ho
  rintro rfl
  have := h.tables.lt_free
  rw [h.kernelRoot] at hfree
  omega

theorem cellWord_setObject (h : Layout E s g) (ho : g o ≠ 0) (hst : SameBoot s t)
    (hram : t.ram = (s.setFrame (s.pageFrame (g o)) pg).ram)
    (hroot : o = .root .kernel → ∀ i ∈ kernelTables, wordAt pg i = s.kernelPde i) :
    (∀ j < 1024, t.cellWord g (.word o j) = wordAt pg j) ∧
      ∀ x, (∀ j, x ≠ .word o j) → t.cellWord g x = s.cellWord g x := by
  have hpde (i : ℕ) (hi : i ∈ kernelTables) : t.kernelPde i = s.kernelPde i := by
    rw [kernelPde, kernelDir_congr hst.ptrPageDirectory, hram]
    by_cases hk : o = .root .kernel
    · rw [← hroot hk i hi, hk, h.pageFrame_kernelRoot, setFrame_ram_self]
    · rw [setFrame_ram_of_ne, kernelPde]
      exact fun he => h.reserved.1 (he ▸ (h.object o hk ho).managed)
  have htab (i : ℕ) (hi : i ∈ kernelTables) : t.ram (s.kernelTable i) = s.ram (s.kernelTable i) := by
    rw [hram, setFrame_ram_of_ne (h.pageFrame_ne_table ho hi).symm]
  have hpte {p : ℕ} (hp : SharedPage p) := kernelPte_of_tables hpde htab hp
  have hframe {o : Obj} (ho : g o ≠ 0) : t.pageFrame (g o) = s.pageFrame (g o) :=
    h.pageFrame_of_pte hst (fun o hk ho => hpte (h.object o hk ho).heap.shared) ho
  refine ⟨fun j hj => by rw [cellWord_word ho hj, hframe ho, hram, setFrame_ram_self], fun x hx => ?_⟩
  cases x with
  | page p =>
    by_cases hp : SharedPage p
    · rw [cellWord_page hp, cellWord_page hp, hpte hp]
    · simp [cellWord, hp]
  | word o' j =>
    by_cases hz : g o' = 0 ∨ 1024 ≤ j
    · simp [cellWord, hz]
    · push Not at hz
      have hne : o' ≠ o := fun he => hx j (he ▸ rfl)
      rw [cellWord_word hz.1 hz.2, cellWord_word hz.1 hz.2, hframe hz.1, hram,
        setFrame_ram_of_ne fun he => hne (h.pageFrame_inj hz.1 ho he)]

theorem cellWord_setWord (h : Layout E s g) (ho : g o ≠ 0) (hj : j < 1024) (hw : w < 2 ^ 32)
    (hroot : o = .root .kernel → j ∉ kernelTables) (hst : SameBoot s t)
    (hram : t.ram = (s.setEntry (s.pageFrame (g o)) j w).ram) :
    t.cellWord g = Function.update (s.cellWord g) (.word o j) w := by
  obtain ⟨hself, hother⟩ := h.cellWord_setObject ho hst hram (by
    rintro rfl i hi
    have hij : i ≠ j := fun he => hroot rfl (he ▸ hi)
    rw [wordAt_setWord_of_ne (kernelTables_lt hi) hij, h.pageFrame_kernelRoot]
    rfl)
  funext x
  by_cases hx : ∀ j, x ≠ .word o j
  · rw [hother x hx, Function.update_of_ne (hx j)]
  · push Not at hx
    obtain ⟨k, rfl⟩ := hx
    by_cases hk : k < 1024
    · rw [hself k hk]
      by_cases hkj : k = j
      · rw [hkj, Function.update_self, wordAt_setWord hj hw]
      · rw [Function.update_of_ne (by simpa using hkj), wordAt_setWord_of_ne hk hkj,
          cellWord_word ho hk]
    · rw [Function.update_of_ne (by simpa using fun he : k = j => hk (he ▸ hj))]
      simp [cellWord, show 1024 ≤ k by omega]

theorem cellWord_setShared (h : Layout E s g) (hp : SharedPage p) (hw : w < 2 ^ 32)
    (hobj : ∀ o, o ≠ .root .kernel → g o ≠ p) (hst : SameBoot s t)
    (hram : t.ram = (s.setEntry (s.kernelTable (pdx p)) (ptx p) w).ram) :
    t.cellWord g = Function.update (s.cellWord g) (.page p) w := by
  have hpte {q : ℕ} (hq : SharedPage q) : t.kernelPte q = if q = p then w else s.kernelPte q :=
    h.tables.kernelPte_of_setEntry hp.index hq.index hp.lt hq.lt hp.dvd hq.dvd hw
      hst.ptrPageDirectory hram
  have hframe {o : Obj} (ho : g o ≠ 0) : t.pageFrame (g o) = s.pageFrame (g o) :=
    h.pageFrame_of_pte hst (fun o hk ho => by
      rw [hpte (h.object o hk ho).heap.shared, if_neg (hobj o hk)]) ho
  funext x
  cases x with
  | page q =>
    by_cases hq : SharedPage q
    · rw [cellWord_page hq, hpte hq]
      by_cases hqp : q = p
      · rw [hqp, if_pos rfl, Function.update_self]
      · rw [if_neg hqp, Function.update_of_ne (by simpa using hqp), cellWord_page hq]
    · rw [Function.update_of_ne (by simpa using fun he : q = p => hq (he ▸ hp))]
      simp [cellWord, hq]
  | word o j =>
    rw [Function.update_of_ne (by simp)]
    by_cases hz : g o = 0 ∨ 1024 ≤ j
    · simp [cellWord, hz]
    · push Not at hz
      rw [cellWord_word hz.1 hz.2, cellWord_word hz.1 hz.2, hframe hz.1, hram, setEntry,
        setFrame_ram_of_ne (h.pageFrame_ne_table hz.1 hp.index)]

theorem cellWord_setData (h : Layout E s g) (hf : s.Managed f)
    (hobj : ∀ o, o ≠ .root .kernel → g o ≠ 0 → s.pageFrame (g o) ≠ f) (hst : SameBoot s t)
    (hram : t.ram = (s.setFrame f pg).ram) : t.cellWord g = s.cellWord g := by
  have hpde (i : ℕ) (_ : i ∈ kernelTables) : t.kernelPde i = s.kernelPde i := by
    rw [kernelPde, kernelDir_congr hst.ptrPageDirectory, hram, setFrame_ram_of_ne, kernelPde]
    exact fun he => h.reserved.1 (he ▸ hf)
  have htab (i : ℕ) (hi : i ∈ kernelTables) : t.ram (s.kernelTable i) = s.ram (s.kernelTable i) := by
    rw [hram, setFrame_ram_of_ne]
    exact fun he => h.reserved.2 i hi (he ▸ hf)
  have hpte {p : ℕ} (hp : SharedPage p) := kernelPte_of_tables hpde htab hp
  have hframe {o : Obj} (ho : g o ≠ 0) : t.pageFrame (g o) = s.pageFrame (g o) :=
    h.pageFrame_of_pte hst (fun o hk ho => hpte (h.object o hk ho).heap.shared) ho
  funext x
  cases x with
  | page p =>
    by_cases hp : SharedPage p
    · rw [cellWord_page hp, cellWord_page hp, hpte hp]
    · simp [cellWord, hp]
  | word o j =>
    by_cases hz : g o = 0 ∨ 1024 ≤ j
    · simp [cellWord, hz]
    · push Not at hz
      rw [cellWord_word hz.1 hz.2, cellWord_word hz.1 hz.2, hframe hz.1, hram, setFrame_ram_of_ne]
      by_cases hk : o = .root .kernel
      · subst hk
        rw [h.pageFrame_kernelRoot]
        exact fun he => h.reserved.1 (he ▸ hf)
      · exact hobj o hk hz.1

theorem of_update (h : Layout E s g) (hst : SamePlaces s t) {x : Cell}
    (hcell : t.cellWord g = Function.update (s.cellWord g) x w)
    (hpage : ∀ o, o ≠ .root .kernel → g o ≠ 0 → x ≠ .page (g o))
    (hroot : ∀ τ i, x ≠ .word (.root τ) i)
    (hva : ∀ o, o ≠ .root .kernel → g o ≠ 0 →
      (t.framesInfo (s.pageFrame (g o))).va = (s.framesInfo (s.pageFrame (g o))).va) :
    Layout E t g := by
  have hrootw (τ : Tree) (i : ℕ) :
      t.cellWord g (.word (.root τ) i) = s.cellWord g (.word (.root τ) i) := by
    rw [hcell, Function.update_of_ne (hroot τ i).symm]
  have hroot₀ : t.pageFrame (g (.root .kernel)) = s.kernelDir := by
    rw [Machine.pageFrame, h.kernelRoot, hst.ptrFreeMem, if_pos h.tables.lt_free, kernelDir]
  have hpde (i : ℕ) (hi : i ∈ kernelTables) : t.kernelPde i = s.kernelPde i := by
    have := hrootw .kernel i
    rw [cellWord_word h.kernelRoot_ne (kernelTables_lt hi), hroot₀, cellWord_word h.kernelRoot_ne
      (kernelTables_lt hi), h.pageFrame_kernelRoot] at this
    rw [kernelPde, kernelDir_congr hst.ptrPageDirectory, this, kernelPde]
  have hpte (o : Obj) (hk : o ≠ .root .kernel) (ho : g o ≠ 0) :
      t.kernelPte (g o) = s.kernelPte (g o) := by
    have hp := (h.object o hk ho).heap.shared
    rw [← cellWord_page hp g, hcell, Function.update_of_ne (hpage o hk ho).symm, cellWord_page hp]
  have hframe {o : Obj} (ho : g o ≠ 0) : t.pageFrame (g o) = s.pageFrame (g o) :=
    h.pageFrame_of_pte hst.toSameBoot hpte ho
  have htab (i : ℕ) (hi : i ∈ kernelTables) : t.kernelTable i = s.kernelTable i := by
    rw [kernelTable, hpde i hi, kernelTable]
  refine ⟨h.tables.congr_pde hst.ptrPageDirectory hst.ptrFreeMem hst.numberOfFrames hpde, ⟨?_, ?_⟩,
    ?_, ?_, fun o hk ho => ⟨(h.object o hk ho).heap, ?_, ?_, ?_⟩, h.inj, h.leaf, h.absent,
    fun e => ?_, fun e he => ?_, fun τ i hi ho => ?_, fun e he i hi => ?_, ?_⟩
  · rw [hst.managed, kernelDir_congr hst.ptrPageDirectory]
    exact h.reserved.1
  · intro i hi
    rw [hst.managed, htab i hi]
    exact h.reserved.2 i hi
  · rw [hst.numberOfFrames]
    exact h.enough
  · rw [hst.ptrPageDirectory]
    exact h.kernelRoot
  · rw [hpte o hk ho, hframe ho]
    exact (h.object o hk ho).entry
  · rw [hst.managed, hframe ho]
    exact (h.object o hk ho).managed
  · rw [hframe ho, hva o hk ho]
    exact (h.object o hk ho).va
  · rw [hst.envPageDirectory, hst.diskEnvPgdir]
    exact h.roots e
  · rw [hst.envCr3, hframe he]
    exact h.envCr3 e he
  · rw [hrootw, h.pde τ i hi ho]
    split
    · rfl
    · rename_i hne
      rw [hframe hne]
  · rw [hrootw, h.kpde e he i hi, hpde i hi]
  · obtain ⟨τ, hτ, ho, hcr⟩ := h.loaded
    exact ⟨τ, hτ, ho, by rw [hst.cr3, hframe ho, hcr]⟩

theorem congr (h : Layout E s g) (hst : SamePlaces s t) (hcell : t.cellWord g = s.cellWord g)
    (hva : ∀ o, o ≠ .root .kernel → g o ≠ 0 →
      (t.framesInfo (s.pageFrame (g o))).va = (s.framesInfo (s.pageFrame (g o))).va) : Layout E t g :=
  h.of_update hst (hcell.trans (Function.update_eq_self (.word (.leaf .kernel 0) 0) _).symm)
    (fun _ _ _ => Cell.noConfusion) (fun _ _ he => Obj.noConfusion (Cell.word.inj he).1) hva

theorem translate_shared (h : Layout E s g) (hp : SharedPage p) {need : ℕ}
    (hneed : HasPerm (permPresent ||| permWriteable) need) (hpte : HasPerm (s.kernelPte p) need) :
    s.translate need p = some (frameNumber (s.kernelPte p)) := by
  have hstatic : ¬(kernelBase ≤ p ∧ p < s.ptrFreeMem) := by
    have hfree := h.tables.free_le
    rcases hp with rfl | hp
    · rw [not_and_or]
      exact .inl (by decide)
    · have := hp.start
      omega
  have hpde : s.pde p = s.kernelPde (pdx p) := h.pde_loaded hp.index
  have hpte' : s.pte p = s.kernelPte p := by rw [pte, hpde, kernelPte, kernelTable]
  rw [translate, if_neg hstatic, hpde, hpte', if_pos ⟨(h.tables.present _ hp.index).trans hneed, hpte⟩]

theorem translate_object (h : Layout E s g) (ho : g o ≠ 0) {need : ℕ}
    (hneed : HasPerm (permPresent ||| permWriteable) need) :
    s.translate need (g o) = some (s.pageFrame (g o)) := by
  by_cases hk : o = .root .kernel
  · subst hk
    rw [h.pageFrame_kernelRoot, h.kernelRoot, h.tables.translate_dir hneed]
  · have hobj := h.object o hk ho
    have hpte : HasPerm (s.kernelPte (g o)) need := by
      rw [hobj.entry]
      exact HasPerm.or_left (by rwa [Nat.or_comm])
    rw [h.translate_shared hobj.heap.shared hneed hpte, h.pageFrame_heap hobj.heap]

theorem translate_user (h : Layout E s g) (ho : g (.root τ) ≠ 0)
    (hcr : frameNumber s.cr3 = s.pageFrame (g (.root τ))) (hva : va < userTop) {need : ℕ}
    (hneed : HasPerm τ.perm need) (hpos : need ≠ 0) :
    s.translate need va =
      if HasPerm (s.cellWord g (.word (.leaf τ (pdx va)) (ptx va))) need then
        some (frameNumber (s.cellWord g (.word (.leaf τ (pdx va)) (ptx va))))
      else none := by
  have hstatic : ¬(kernelBase ≤ va ∧ va < s.ptrFreeMem) := by
    simp only [userTop, kernelBase] at *
    omega
  have hi : pdx va < pdx userTop := by
    simp only [pdx, userTop] at *
    omega
  have hpde : s.pde va = s.cellWord g (.word (.root τ) (pdx va)) := by
    rw [Machine.pde, hcr, cellWord_word ho (pdx_lt va)]
  rw [translate, if_neg hstatic, hpde, h.pde τ _ hi ho]
  have hzero : ¬HasPerm 0 need := by
    simp only [HasPerm, Nat.zero_and]
    exact hpos.symm
  by_cases hl : g (.leaf τ (pdx va)) = 0
  · rw [if_pos hl, if_neg fun hc => hzero hc.1, cellWord_absent hl, if_neg hzero]
  · have hperm : HasPerm (constructEntry (toPhysicalAddress (s.pageFrame (g (.leaf τ (pdx va))))) τ.perm)
        need := hneed.or_left
    have hpte : s.pte va = s.cellWord g (.word (.leaf τ (pdx va)) (ptx va)) := by
      rw [pte, hpde, h.pde τ _ hi ho, if_neg hl, toPhysicalAddress, pageSize,
        frameNumber_constructEntry τ.perm_lt, cellWord_word hl (ptx_lt va)]
    rw [if_neg hl, hpte]
    simp only [hperm, true_and]

end Layout

/-- The cell of a directory's entry for an address. -/
def cellAt (τ : Tree) (va : ℕ) : Cell :=
  if va < userTop then .word (.leaf τ (pdx va)) (ptx va) else .page (roundDown va pageSize)

def UserAddress (va : ℕ) : Prop := va < userTop ∧ ¬UserPagesWS va

/-- The addresses whose entries callers of the memory manager change: user addresses,
`USER_LIMIT`, and kernel heap pages without directories or tables. -/
def Usable (g : Obj → ℕ) (va : ℕ) : Prop :=
  UserAddress va ∨ SharedPage (roundDown va pageSize) ∧
    ∀ o, o ≠ .root .kernel → g o ≠ roundDown va pageSize

/-- The table with the entry for an address, behind the pointer `pt` in the frame `F`. -/
structure Located (s : Machine) (g : Obj → ℕ) (τ : Tree) (va pt F : ℕ) : Prop
    extends HasTable s (g (.root τ)) va pt F where
  word : wordAt (s.ram F) (ptx va) = s.cellWord g (cellAt τ va)
  set : ∀ {t w}, SamePlaces s t → w < 2 ^ 32 → t.ram = (s.setEntry F (ptx va) w).ram →
    t.cellWord g = Function.update (s.cellWord g) (cellAt τ va) w

theorem pdx_roundDown (va : ℕ) : pdx (roundDown va pageSize) = pdx va := by
  simp only [pdx, roundDown, pageSize]
  omega

theorem ptx_roundDown (va : ℕ) : ptx (roundDown va pageSize) = ptx va := by
  simp only [ptx, roundDown, pageSize]
  omega

theorem pdx_lt_userTop (hva : va < userTop) : pdx va < pdx userTop := by
  simp only [pdx, userTop] at *
  omega

theorem cellAt_user {τ : Tree} (hva : va < userTop) :
    cellAt τ va = .word (.leaf τ (pdx va)) (ptx va) := if_pos hva

theorem cellAt_page {τ : Tree} (hp : SharedPage p) : cellAt τ p = .page p := by
  rw [cellAt, if_neg (not_lt.mpr hp.userTop_le), roundDown_of_dvd hp.dvd]

theorem Usable.user {g : Obj → ℕ} (h : Usable g va) (hva : va < userTop) : UserAddress va :=
  h.resolve_right fun h => by
    have := h.1.userTop_le
    have := roundDown_le va pageSize
    omega

theorem Usable.shared {g : Obj → ℕ} (h : Usable g va) (hva : userTop ≤ va) :
    SharedPage (roundDown va pageSize) ∧ ∀ o, o ≠ .root .kernel → g o ≠ roundDown va pageSize :=
  h.resolve_left fun h => absurd h.1 (not_lt.mpr hva)

theorem userPagesWS_page (va : ℕ) (hva : va < 2 ^ 32) :
    UserPagesWS (pageSize * (1024 * pdx va + ptx va)) ↔ UserPagesWS va := by
  have hlo : userHeapMax = 0xA0000000 := rfl
  have hhi : ustackBottom = 0xA0062000 := by decide
  simp only [UserPagesWS, hlo, hhi, pdx, ptx, pageSize]
  omega

theorem Usable.mem_slots {g : Obj → ℕ} {τ : Tree} (hva : Usable g va) (hτ : τ ∈ mmuTrees E) :
    cellAt τ va ∈ slots E := by
  rw [cellAt]
  split
  · rename_i hlt
    refine leaf_mem_slots.mpr ⟨hτ, pdx_lt_userTop hlt, ptx_lt va, ?_⟩
    rw [userPagesWS_page va (hlt.trans (by decide))]
    exact (hva.user hlt).2
  · rename_i hge
    exact page_mem_slots.mpr (hva.shared (not_lt.mp hge)).1

theorem Usable.ne_page {g : Obj → ℕ} {τ : Tree} {o : Obj} (hva : Usable g va) (hk : o ≠ .root .kernel) :
    cellAt τ va ≠ .page (g o) := by
  rw [cellAt]
  split
  · simp
  · rename_i hge
    simpa using ((hva.shared (not_lt.mp hge)).2 o hk).symm

theorem cellAt_ne_root {τ τ' : Tree} : cellAt τ va ≠ .word (.root τ') i := by
  rw [cellAt]
  split <;> simp

namespace Layout

variable {g : Obj → ℕ} {o o' : Obj} {τ : Tree}

theorem located_leaf (h : Layout E s g) (hva : va < userTop) (hl : g (.leaf τ (pdx va)) ≠ 0) :
    Located s g τ va (g (.leaf τ (pdx va))) (s.pageFrame (g (.leaf τ (pdx va)))) := by
  obtain ⟨hi, ho⟩ := h.leaf τ _ hl
  have hobj := h.object _ (by simp) hl
  have hread : HasPerm (permPresent ||| permWriteable) permPresent := by decide
  refine ⟨⟨?_, hl, h.translate_object hl hread, h.translate_object hl (by decide), fun _ => ⟨?_, ?_⟩⟩,
    ?_, fun hst hw hram => ?_⟩
  · have hw := h.pde τ _ hi ho
    rw [if_neg hl, cellWord_word ho (pdx_lt va)] at hw
    have hframe : frameNumber (extractAddress
        (constructEntry (toPhysicalAddress (s.pageFrame (g (.leaf τ (pdx va))))) τ.perm)) =
        s.pageFrame (g (.leaf τ (pdx va))) := by
      rw [frameNumber_extractAddress, toPhysicalAddress, pageSize, frameNumber_constructEntry τ.perm_lt]
    have hperm : HasPerm (constructEntry (toPhysicalAddress (s.pageFrame (g (.leaf τ (pdx va))))) τ.perm)
        permPresent := HasPerm.or_left τ.perm_present
    have hlt := h.managed_lt hobj.managed
    have hkern : checkIfKernelAddress va = false := by simpa [checkIfKernelAddress] using hva
    rw [getPageTable, run_bind_ok (readEntry_run (h.translate_object ho hread)), hw, if_pos hperm, hkern]
    simp only [Bool.false_eq_true, ↓reduceIte]
    rw [run_bind_ok (kheapVirtualAddress_run (by rwa [hframe])), run_pure, hframe, hobj.va]
  · obtain ⟨τ', -, ho', hcr⟩ := h.loaded
    rw [hcr]
    intro he
    cases h.pageFrame_inj hl ho' he
  · have hi := hobj.heap.shared.index
    have hpde : frameNumber (s.pde (g (.leaf τ (pdx va)))) = s.kernelTable (pdx (g (.leaf τ (pdx va)))) := by
      rw [Machine.pde, h.pde_loaded hi, kernelTable]
    rw [hpde]
    exact h.pageFrame_ne_table hl hi
  · rw [cellAt_user hva, cellWord_word hl (ptx_lt va)]
  · rw [cellAt_user hva]
    exact h.cellWord_setWord hl (ptx_lt va) hw (by simp) hst.toSameBoot hram

theorem located_shared (h : Layout E s g) (hτ : τ ∈ mmuTrees E) (ho : g (.root τ) ≠ 0)
    (hge : userTop ≤ va) (hva : Usable g va) :
    Located s g τ va (kernelBase + pageSize * s.kernelTable (pdx va)) (s.kernelTable (pdx va)) := by
  obtain ⟨hp, hobj⟩ := hva.shared hge
  have hi : pdx va ∈ kernelTables := pdx_roundDown va ▸ hp.index
  have hcell : cellAt τ va = .page (roundDown va pageSize) := if_neg (not_lt.mpr hge)
  refine ⟨h.tables.hasTable_of_entry hi hge (h.translate_object ho (by decide)) ?_, ?_,
    fun hst hw hram => ?_⟩
  · rw [← cellWord_word ho (pdx_lt va), h.cellWord_root hτ ho hi]
  · rw [hcell, cellWord_page hp, kernelPte, pdx_roundDown, ptx_roundDown]
  · rw [hcell]
    refine h.cellWord_setShared hp hw hobj hst.toSameBoot ?_
    rw [pdx_roundDown, ptx_roundDown, hram]

/-- Without a table `get_page_table` says so. -/
theorem getPageTable_none (h : Layout E s g) (ho : g (.root τ) ≠ 0) (hva : va < userTop)
    (hl : g (.leaf τ (pdx va)) = 0) : (getPageTable (g (.root τ)) va).run s = .ok (none, s) := by
  have hw := h.pde τ _ (pdx_lt_userTop hva) ho
  rw [if_pos hl, cellWord_word ho (pdx_lt va)] at hw
  have hperm : ¬HasPerm 0 permPresent := by decide
  rw [getPageTable, run_bind_ok (readEntry_run (h.translate_object ho (by decide))), hw, if_neg hperm,
    if_neg (by simp), run_pure]

end Layout

end FosKernel.Machine
