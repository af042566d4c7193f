import FosKernel.TableCreation

/-!
# Mapping user pages

What all tables hold for user addresses is one function on pages, `entries`. The
operations of the memory manager on user pages are updates of it, whether or not
they had to create a table.
-/

namespace FosKernel.Machine
open FailingPrograms PageEntries ReferenceCounts

variable {s t u : Machine} {E : Finset ℕ} {g g' : Obj → ℕ} {L : Set ℕ} {τ : Tree} {o : Obj} {x : Cell}
  {p f i j m n w va perm pt F : ℕ} {fs : List ℕ} {cpt : ℕ → ℕ → Kernel ℕ}

noncomputable def entries (s : Machine) (g : Obj → ℕ) (x : Tree × ℕ) : ℕ :=
  s.cellWord g (.word (.leaf x.1 (x.2 / 1024)) (x.2 % 1024))

def pageNumber (va : ℕ) : ℕ := va / pageSize

theorem pageNumber_add (va k : ℕ) : pageNumber (va + pageSize * k) = pageNumber va + k :=
  Nat.add_mul_div_left _ _ (by decide)

theorem pdx_eq (hva : va < 2 ^ 32) : pdx va = pageNumber va / 1024 := by
  simp only [pdx, pageNumber, pageSize]
  omega

theorem ptx_eq (va : ℕ) : ptx va = pageNumber va % 1024 := rfl

theorem userTop_lt : userTop < 2 ^ 32 := by decide

theorem userHeapMax_lt : userHeapMax < userTop := by decide

theorem UserAddress.heap (hva : va < userHeapMax) : UserAddress va :=
  ⟨hva.trans userHeapMax_lt, fun h => absurd h.1 (not_le.mpr hva)⟩

theorem entries_apply (hva : va < userTop) (s : Machine) (g : Obj → ℕ) (τ : Tree) :
    s.entries g (τ, pageNumber va) = s.cellWord g (.word (.leaf τ (pdx va)) (ptx va)) := by
  rw [entries, pdx_eq (hva.trans userTop_lt), ptx_eq]

theorem entries_cellAt (hva : va < userTop) (s : Machine) (g : Obj → ℕ) (τ : Tree) :
    s.entries g (τ, pageNumber va) = s.cellWord g (cellAt τ va) := by
  rw [entries_apply hva, cellAt_user hva]

theorem entries_update (hva : va < userTop)
    (hcell : t.cellWord g' = Function.update (s.cellWord g) (cellAt τ va) w) :
    t.entries g' = Function.update (s.entries g) (τ, pageNumber va) w := by
  rw [cellAt_user hva, pdx_eq (hva.trans userTop_lt), ptx_eq] at hcell
  funext ⟨τ', n⟩
  rw [entries, hcell]
  by_cases hx : (τ', n) = (τ, pageNumber va)
  · obtain ⟨rfl, rfl⟩ := Prod.mk.inj hx
    rw [Function.update_self, Function.update_self]
  · rw [Function.update_of_ne hx, Function.update_of_ne, entries]
    intro he
    obtain ⟨ho, hm⟩ := Cell.word.inj he
    obtain ⟨rfl, hd⟩ := Obj.leaf.inj ho
    refine hx (Prod.ext rfl ?_)
    simp only at hd hm ⊢
    omega

theorem entries_congr (h : ∀ τ i j, t.cellWord g' (.word (.leaf τ i) j) = s.cellWord g (.word (.leaf τ i) j)) :
    t.entries g' = s.entries g :=
  funext fun _ => h _ _ _

theorem Layout.frameNumber_envCr3 (h : Layout E s g) {e : ℕ} (ho : g (.root (.user e)) ≠ 0) :
    frameNumber (s.envs e).envCr3 = s.pageFrame (g (.root (.user e))) := by
  rw [h.envCr3 e ho, toPhysicalAddress, frameNumber, pageSize, Nat.mul_div_cancel_left _ (by decide)]

theorem Layout.load (h : Layout E s g) {e : ℕ} (he : e ∈ E) (ho : g (.root (.user e)) ≠ 0) :
    Layout E { s with cr3 := (s.envs e).envCr3 } g :=
  ⟨h.tables.congr rfl rfl rfl rfl, h.reserved, h.enough, h.kernelRoot,
    fun o hk ho =>
      have hobj := h.object o hk ho
      ⟨hobj.heap, hobj.entry, hobj.managed, hobj.va⟩,
    h.inj, h.leaf, h.absent, h.roots, h.envCr3, h.pde, h.kpde, .user e, user_mem_mmuTrees.mpr he, ho,
    h.frameNumber_envCr3 ho⟩

namespace System

theorem load (h : System E s g L) {e : ℕ} (he : e ∈ E) (ho : g (.root (.user e)) ≠ 0) :
    System E { s with cr3 := (s.envs e).envCr3 } g L :=
  h.of_core ⟨h.toLayout.load he ho, h.unbuffered, h.present, h.idle, h.pool, h.only⟩ h.apart rfl (fun _ _ => rfl) rfl
    fun _ _ _ _ => rfl

theorem translate_entries (h : System E s g L) {e : ℕ} (he : e ∈ E) (ho : g (.root (.user e)) ≠ 0)
    (hva : va < userTop) {need : ℕ} (hneed : HasPerm (permPresent ||| permUser ||| permWriteable) need)
    (hpos : need ≠ 0) :
    { s with cr3 := (s.envs e).envCr3 }.translate need va =
      if HasPerm (s.entries g (.user e, pageNumber va)) need then
        some (frameNumber (s.entries g (.user e, pageNumber va))) else none := by
  rw [(h.load he ho).translate_user ho (h.frameNumber_envCr3 ho) hva hneed hpos, entries_apply hva]
  rfl

end System

/-- A frame that may be mapped at a user address: in limbo, or mapped at one already. -/
def Mappable (E : Finset ℕ) (s : Machine) (g : Obj → ℕ) (L : Set ℕ) (f : ℕ) : Prop :=
  f ∈ L ∧ s.Managed f ∨
    ∃ τ i j, Cell.word (.leaf τ i) j ∈ slots E ∧ nameOf (s.cellWord g (.word (.leaf τ i) j)) = some f

namespace System

/-- What `allocate_frame` leaves. -/
theorem take (h : System E s g L) (hfree : s.freeFrameList = f :: fs) :
    System E ((s.setFree fs).setInfo f .initial) g (insert f L) ∧
      Keeps s g ((s.setFree fs).setInfo f .initial) g ∧
      Spent s ((s.setFree fs).setInfo f .initial) 1 0 := by
  have hmem : f ∈ s.freeFrameList := by simp [hfree]
  obtain ⟨-, -, hnot⟩ := h.free_managed hmem
  have hne {o : Obj} (hk : o ≠ .root .kernel) (ho : g o ≠ 0) : s.pageFrame (g o) ≠ f := fun he =>
    hnot _ (page_mem_slots.mpr (h.object o hk ho).heap.shared) (he ▸ h.nameOf_object hk ho)
  have hst : SameGlobals s ((s.setFree fs).setInfo f .initial) := by constructor <;> rfl
  have hcell : ((s.setFree fs).setInfo f .initial).cellWord g = s.cellWord g := rfl
  have hinfo (f' : ℕ) : ((s.setFree fs).setInfo f .initial).framesInfo f' =
      if f' = f then .initial else s.framesInfo f' := setInfo_apply ..
  have hlay := h.toLayout.congr hst.places hcell fun o hk ho => by rw [hinfo, if_neg (hne hk ho)]
  have hcore : Core E ((s.setFree fs).setInfo f .initial) g (insert f L) Set.univ := by
    refine ⟨hlay, fun f' => ?_, h.present, h.idle, ?_, h.only⟩
    · rw [hinfo]
      split
      · rfl
      · exact h.unbuffered f'
    · rw [hst.places.managed]
      refine (h.pool.take hfree).congr (fun _ _ => rfl) (fun f' _ => ?_) rfl
      simp only [Machine.pool, hinfo]
      by_cases hff : f' = f
      · simp [hff, FrameInfo.initial]
      · simp [hff]
  refine ⟨h.of_core hcore h.apart rfl (fun _ _ => rfl) rfl fun p f' hp hf => ?_, ⟨⟨s.heap, hst⟩, fun _ _ => rfl,
    fun _ _ => rfl, fun _ h0 ho => absurd h0 ho, fun _ _ => rfl, fun _ _ _ => rfl, fun _ _ => rfl,
    fun _ _ _ _ => rfl, fun f' hf' => ?_⟩, ⟨?_, fun _ => id⟩⟩
  · rw [hinfo, if_neg]
    rintro rfl
    exact hnot _ (page_mem_slots.mpr hp.shared) (hf.nameOf hp g)
  · rw [hfree]
    exact List.mem_cons_of_mem _ hf'
  · rw [hfree]
    exact le_rfl

theorem allocateFrame_sat (h : System E s g L) :
    Sat (Short s 1 0) allocateFrame s fun f t => (f ∉ L ∧ s.Managed f ∧
      (∀ x ∈ slots E, nameOf (s.cellWord g x) ≠ some f)) ∧ System E t g (insert f L) ∧ Keeps s g t g ∧
      t.cellWord g = s.cellWord g ∧ Spent s t 1 0 := by
  cases hfree : s.freeFrameList with
  | nil => exact .of_error (allocateFrame_nil hfree) (.inl ⟨rfl, by simp [hfree]⟩)
  | cons f fs =>
    obtain ⟨hsys, hkeeps, hspent⟩ := h.take hfree
    obtain ⟨hm, hl, hnot⟩ := h.free_managed (f := f) (by simp [hfree])
    exact .of_ok (allocateFrame_run hfree (h.unbuffered f)) ⟨⟨hl, hm, hnot⟩, hsys, hkeeps, rfl, hspent⟩

end System

theorem Layout.keeps_setEntry (h : Layout E s g) (hva : va < userTop) (hl : g (.leaf τ (pdx va)) ≠ 0)
    (hst : SameGlobals s t) (ht : Layout E t g)
    (hram : t.ram = (s.setEntry (s.pageFrame (g (.leaf τ (pdx va)))) (ptx va) w).ram)
    (hcell : t.cellWord g = Function.update (s.cellWord g) (cellAt τ va) w)
    (hfree : t.freeFrameList = s.freeFrameList) : Keeps s g t g := by
  have hother (x : Cell) (hx : ∀ τ i j, x ≠ .word (.leaf τ i) j) : t.cellWord g x = s.cellWord g x := by
    rw [hcell, Function.update_of_ne]
    rw [cellAt_user hva]
    exact hx _ _ _
  have hframe (o : Obj) (ho : g o ≠ 0) : t.pageFrame (g o) = s.pageFrame (g o) := by
    by_cases hk : o = .root .kernel
    · rw [hk, ht.pageFrame_kernelRoot, h.pageFrame_kernelRoot, kernelDir_congr hst.ptrPageDirectory]
    · rw [ht.pageFrame_cell hk ho, h.pageFrame_cell hk ho, hother _ (by simp)]
  have hpde (i : ℕ) (hi : i ∈ kernelTables) : t.kernelPde i = s.kernelPde i := by
    rw [← ht.cellWord_root kernel_mem_mmuTrees h.kernelRoot_ne hi, hother _ (by simp),
      h.cellWord_root kernel_mem_mmuTrees h.kernelRoot_ne hi]
  refine ⟨⟨t.heap, hst.heap ▸ hst⟩, fun _ _ => rfl, hframe, fun _ h0 ho => absurd h0 ho, hpde,
    fun τ' i _ => hother _ (by simp), fun q _ => hother _ (by simp), fun f _ ho _ => ?_, fun f hf => hfree ▸ hf⟩
  rw [hram, setEntry, setFrame_ram_of_ne (ho _ hl).symm]

namespace System

theorem mappable_client (h : System E s g L) (hf : Mappable E s g L f) :
    Client E s g L f ∧ ∀ p, HeapPage p → nameOf (s.cellWord g (.page p)) ≠ some f := by
  rcases hf with hf | ⟨τ, i, j, hx, hn⟩
  · exact ⟨.inl hf, fun p hp hn => (h.frame_managed (page_mem_slots.mpr hp.shared) hn).2 hf.1⟩
  · refine ⟨.inr ⟨_, hx, fun _ _ _ => by simp, hn⟩, fun p hp hn' => ?_⟩
    have := h.apart p hp _ hx f hn' hn
    simp at this

theorem assign (h : System E s g L) (hτ : τ ∈ mmuTrees E) (hua : UserAddress va)
    (hl : g (.leaf τ (pdx va)) ≠ 0) (h0 : s.entries g (τ, pageNumber va) = 0) (hf : Mappable E s g L f)
    (hperm : perm < 4096) :
    let w := constructEntry (toPhysicalAddress f) (perm ||| permPresent)
    let t := (s.addReference f).setEntry (s.pageFrame (g (.leaf τ (pdx va)))) (ptx va) w
    System E t g (L \ {f}) ∧ Keeps s g t g ∧
      t.entries g = Function.update (s.entries g) (τ, pageNumber va) w := by
  intro w t
  have hva := hua.1
  obtain ⟨hclient, hheap⟩ := h.mappable_client hf
  have hloc := h.located_leaf hva hl
  have hst : SameGlobals s t := by constructor <;> rfl
  have hlt : w < 2 ^ 32 := h.entry_lt hclient hperm
  have hcell : t.cellWord g = Function.update (s.cellWord g) (cellAt τ va) w := hloc.set hst.places hlt rfl
  have husable : Usable g va := .inl hua
  rw [entries_cellAt hva] at h0
  have hcore : Core E t g (L \ {f}) Set.univ :=
    h.toCore.assign hst.places (husable.mem_slots hτ) husable.noObject h0 hclient
      (nameOf_construct hperm) (HasPerm.or_left (HasPerm.or_left (by decide))) (fun _ _ _ => Set.mem_univ _)
      hcell rfl rfl
  have hpage (q : ℕ) : t.cellWord g (.page q) = s.cellWord g (.page q) := by
    rw [hcell, cellAt_user hva, Function.update_of_ne (by simp)]
  have hapart : Apart E t g := by
    intro q hq x hx f' hn hn'
    rw [hpage] at hn
    rw [hcell] at hn'
    by_cases hxa : x = cellAt τ va
    · rw [hxa, Function.update_self, nameOf_construct hperm] at hn'
      exact absurd (hn.trans hn'.symm) (hheap q hq)
    · rw [Function.update_of_ne hxa] at hn'
      exact h.apart q hq x hx f' hn hn'
  refine ⟨h.of_core hcore hapart rfl (fun q _ => hpage q) rfl fun q f' hq hf' => setInfo_of_ne ?_,
    h.keeps_setEntry hva hl hst hcore.toLayout rfl hcell rfl, entries_update hva hcell⟩
  rintro rfl
  exact hheap q hq (hf'.nameOf hq g)

theorem store (h : System E s g L) (hτ : τ ∉ mmuTrees E) (hva : va < userTop)
    (hl : g (.leaf τ (pdx va)) ≠ 0) (hw : w < 2 ^ 32) :
    let t := s.setEntry (s.pageFrame (g (.leaf τ (pdx va)))) (ptx va) w
    System E t g L ∧ Keeps s g t g ∧
      t.entries g = Function.update (s.entries g) (τ, pageNumber va) w := by
  intro t
  have hst : SameGlobals s t := by constructor <;> rfl
  have hcell : t.cellWord g = Function.update (s.cellWord g) (cellAt τ va) w :=
    (h.located_leaf hva hl).set hst.places hw rfl
  have hslot : cellAt τ va ∉ slots E := by
    rw [cellAt_user hva, leaf_mem_slots]
    exact fun hx => hτ hx.1
  have hcore : Core E t g L Set.univ :=
    h.retag hst.places (fun o _ _ => by simp [cellAt_user hva]) (fun _ _ => cellAt_ne_root) (fun hx => absurd hx hslot) hcell rfl rfl
  have hsame (x : Cell) (hx : x ∈ slots E) : t.cellWord g x = s.cellWord g x := by
    rw [hcell, Function.update_of_ne]
    rintro rfl
    exact hslot hx
  have hpage (q : ℕ) (hq : HeapPage q) := hsame _ (page_mem_slots.mpr hq.shared)
  have hapart : Apart E t g := fun q hq x hx f hn hn' =>
    h.apart q hq x hx f (hpage q hq ▸ hn) (hsame x hx ▸ hn')
  exact ⟨h.of_core hcore hapart rfl hpage rfl fun _ _ _ _ => rfl,
    h.keeps_setEntry hva hl hst hcore.toLayout rfl hcell rfl, entries_update hva hcell⟩

end System

/-- The number of tables that are missing for an address. -/
def missing (g : Obj → ℕ) (τ : Tree) (va : ℕ) : ℕ := if g (.leaf τ (pdx va)) = 0 then 1 else 0

/-- The entry for an address became `w`; its table was created if it was missing. -/
structure Stores (s : Machine) (g : Obj → ℕ) (τ : Tree) (va w : ℕ) (t : Machine) (g' : Obj → ℕ) : Prop where
  keeps : Keeps s g t g'
  roots : ∀ τ', g' (.root τ') = g (.root τ')
  entries : t.entries g' = Function.update (s.entries g) (τ, pageNumber va) w
  table : g' (.leaf τ (pdx va)) ≠ 0
  spent : Spent s t (missing g τ va) (missing g τ va)

theorem Created.stores (h : Created E s g L (.leaf τ (pdx va)) pt t) (hl : g (.leaf τ (pdx va)) = 0)
    (hu : Keeps t (Function.update g (.leaf τ (pdx va)) pt) u (Function.update g (.leaf τ (pdx va)) pt))
    (he : u.entries (Function.update g (.leaf τ (pdx va)) pt) = Function.update
      (t.entries (Function.update g (.leaf τ (pdx va)) pt)) (τ, pageNumber va) w)
    (hsp : Spent t u 0 0) : Stores s g τ va w u (Function.update g (.leaf τ (pdx va)) pt) where
  keeps := h.keeps.trans hu
  roots _ := Function.update_of_ne (by simp) ..
  entries := by rw [he, entries_congr h.leaf]
  table := by rw [Function.update_self]; exact h.ne
  spent := by
    rw [missing, if_pos hl]
    exact h.spent.trans hsp

/-- After the table was created the rest of `map_frame` runs as if it had been there. -/
theorem mapFrame_created {dir : ℕ} (hnone : (getPageTable dir va).run s = .ok (none, s))
    (hc : (cpt dir va).run s = .ok (pt, t)) (ht : (getPageTable dir va).run t = .ok (some pt, t)) :
    (mapFrame cpt dir f va perm).run s = (mapFrame cpt dir f va perm).run t := by
  rw [mapFrame, run_bind_ok hnone, run_bind_ok ht]
  simp only [pure_bind]
  rw [run_bind_ok hc]

theorem mapFrame_error {dir : ℕ} {e : Panic} (hnone : (getPageTable dir va).run s = .ok (none, s))
    (hc : (cpt dir va).run s = .error e) : (mapFrame cpt dir f va perm).run s = .error e := by
  rw [mapFrame, run_bind_ok hnone]
  exact run_bind_error hc

theorem Mappable.congr (hf : Mappable E s g L f) (hst : SameBoot s t)
    (h : ∀ τ i j, t.cellWord g' (.word (.leaf τ i) j) = s.cellWord g (.word (.leaf τ i) j)) :
    Mappable E t g' L f := by
  rcases hf with ⟨hl, hm⟩ | ⟨τ, i, j, hx, hn⟩
  · exact .inl ⟨hl, hst.managed.symm ▸ hm⟩
  · exact .inr ⟨τ, i, j, hx, by rwa [h]⟩

theorem Keeps.boot (h : Keeps s g t g') : SameBoot s t := by
  obtain ⟨d, hst⟩ := h.globals
  exact ⟨hst.cr3, hst.numberOfFrames, hst.ptrFreeMem, hst.ptrPageDirectory⟩

theorem mmuTrees_perm (hτ : τ ∈ mmuTrees E) : τ.perm = permPresent ||| permUser ||| permWriteable := by
  cases τ with
  | kernel => rfl
  | user e => rfl
  | disk e => simp at hτ
  | storage i => rfl

namespace System

variable (cpt) in
/-- `map_frame` with a table at hand. -/
private theorem mapFrame_table (h : System E s g L) (hτ : τ ∈ mmuTrees E) (hua : UserAddress va)
    (hl : g (.leaf τ (pdx va)) ≠ 0) (h0 : s.entries g (τ, pageNumber va) = 0) (hf : Mappable E s g L f)
    (hperm : perm < 4096) :
    ∃ t, (mapFrame cpt (g (.root τ)) f va perm).run s = .ok (0, t) ∧ System E t g (L \ {f}) ∧
      Keeps s g t g ∧ t.entries g = Function.update (s.entries g) (τ, pageNumber va)
        (constructEntry (toPhysicalAddress f) (perm ||| permPresent)) ∧ Spent s t 0 0 := by
  have hva := hua.1
  obtain ⟨hsys, hkeeps, hentries⟩ := h.assign hτ hua hl h0 hf hperm
  have hw : ¬HasPerm (wordAt (s.ram (s.pageFrame (g (.leaf τ (pdx va))))) (ptx va)) permPresent := by
    rw [(h.located_leaf hva hl).word, ← entries_cellAt hva, h0]
    decide
  exact ⟨_, (h.located_leaf hva hl).mapFrame_unmapped hw, hsys, hkeeps, hentries, ⟨le_rfl, fun _ => id⟩⟩

theorem mapFrame_sat (h : System E s g L) (hτ : τ ∈ mmuTrees E) (ho : g (.root τ) ≠ 0) (hua : UserAddress va)
    (h0 : s.entries g (τ, pageNumber va) = 0) (hf : Mappable E s g L f) (hperm : perm < 4096) :
    Sat (Short s (missing g τ va) (missing g τ va))
      (mapFrame Machine.createPageTable (g (.root τ)) f va perm) s fun r t =>
        r = 0 ∧ ∃ g', System E t g' (L \ {f}) ∧ Stores s g τ va
          (constructEntry (toPhysicalAddress f) (perm ||| permPresent)) t g' := by
  have hva := hua.1
  by_cases hl : g (.leaf τ (pdx va)) = 0
  · have hcreate := h.createPageTable ho (mmuTrees_perm hτ) hva hl
    have hnone := h.getPageTable_none ho hva hl
    rw [missing, if_pos hl]
    rcases hc : (Machine.createPageTable (g (.root τ)) va).run s with e | ⟨pt, t⟩
    · exact .of_error (mapFrame_error hnone hc) (hcreate.error hc)
    · have hcr := hcreate.ok hc
      have hself : Function.update g (.leaf τ (pdx va)) pt (.leaf τ (pdx va)) = pt := Function.update_self ..
      have hroot : Function.update g (.leaf τ (pdx va)) pt (.root τ) = g (.root τ) :=
        Function.update_of_ne (by simp) ..
      have hl' : Function.update g (.leaf τ (pdx va)) pt (.leaf τ (pdx va)) ≠ 0 := hself.symm ▸ hcr.ne
      have hget := (hcr.system.located_leaf hva hl').get
      rw [hroot, hself] at hget
      obtain ⟨u, hrun, hsys, hkeeps, hentries, hspent⟩ := hcr.system.mapFrame_table
        Machine.createPageTable hτ hua hl' (by rw [entries_congr hcr.leaf, h0])
        (hf.congr hcr.keeps.boot hcr.leaf) hperm
      rw [hroot] at hrun
      exact .of_ok ((mapFrame_created hnone hc hget).trans hrun)
        ⟨rfl, _, hsys, hcr.stores hl hkeeps hentries hspent⟩
  · obtain ⟨t, hrun, hsys, hkeeps, hentries, hspent⟩ := h.mapFrame_table
      Machine.createPageTable hτ hua hl h0 hf hperm
    exact .of_ok hrun ⟨rfl, g, hsys, hkeeps, fun _ => rfl, hentries, hl, by rwa [missing, if_neg hl]⟩

end System

theorem entry_mem_slots (hτ : τ ∈ mmuTrees E) (hn : UserAddress (pageSize * n)) :
    Cell.word (.leaf τ (n / 1024)) (n % 1024) ∈ slots E := by
  obtain ⟨hlt, hws⟩ := hn
  refine leaf_mem_slots.mpr ⟨hτ, ?_, Nat.mod_lt _ (by decide), by rwa [Nat.div_add_mod]⟩
  simp only [pdx, userTop, pageSize] at *
  omega

theorem entry_of_mem_slots (hx : x ∈ slots E) : (∃ p, x = .page p) ∨
    ∃ τ n, τ ∈ mmuTrees E ∧ UserAddress (pageSize * n) ∧ x = .word (.leaf τ (n / 1024)) (n % 1024) := by
  match x with
  | .page p => exact .inl ⟨p, rfl⟩
  | .word (.root τ) j => exact absurd hx root_notMem_slots
  | .word (.leaf τ i) j =>
    obtain ⟨hτ, hi, hj, hws⟩ := leaf_mem_slots.mp hx
    refine .inr ⟨τ, 1024 * i + j, hτ, ⟨?_, hws⟩, ?_⟩
    · simp only [pdx, userTop, pageSize] at *
      omega
    · rw [show (1024 * i + j) / 1024 = i by omega, show (1024 * i + j) % 1024 = j by omega]

theorem Keeps.slot (h : Keeps s g t g')
    (he : ∀ τ ∈ mmuTrees E, ∀ n, s.entries g (τ, n) ≠ 0 → t.entries g' (τ, n) = s.entries g (τ, n))
    (hx : x ∈ slots E) (h0 : s.cellWord g x ≠ 0) : t.cellWord g' x = s.cellWord g x := by
  rcases entry_of_mem_slots hx with ⟨p, rfl⟩ | ⟨τ, n, hτ, -, rfl⟩
  · exact h.page p h0
  · exact he τ hτ n h0

/-- The number of rounds of a loop from `va` up to `stop`. -/
def pagesBetween (va stop : ℕ) : ℕ := (stop - va + (pageSize - 1)) / pageSize

theorem forPages_sat {body : ℕ → ℕ → Kernel Unit} {tol : Panic → Prop} {stop : ℕ} (I : ℕ → Machine → Prop)
    (hstop : stop + pageSize ≤ 2 ^ 32) {fuel k : ℕ} (hfuel : pagesBetween va stop ≤ k + fuel)
    (hk : k ≤ pagesBetween va stop) (h : I k s)
    (step : ∀ k t, k < pagesBetween va stop → I k t →
      Sat tol (body (va + pageSize * k) k) t fun _ t' => I (k + 1) t') :
    Sat tol (forPages body stop fuel (va + pageSize * k) k) s fun _ t => I (pagesBetween va stop) t := by
  have hlt : va + pageSize * k < stop ↔ k < pagesBetween va stop := by
    simp only [pagesBetween, pageSize]
    omega
  induction fuel generalizing k s with
  | zero =>
    have hkn : k = pagesBetween va stop := by omega
    rw [forPages, if_neg (by rw [hlt]; omega)]
    exact .pure (hkn ▸ h)
  | succ fuel ih =>
    rw [forPages]
    by_cases hkn : k < pagesBetween va stop
    · rw [if_pos (hlt.mpr hkn)]
      refine (step k s hkn h).bind fun _ t ht => ?_
      have hnext : u32 (va + pageSize * k + pageSize) = va + pageSize * (k + 1) := by
        have := hlt.mpr hkn
        rw [u32_of_lt (by omega), Nat.mul_succ, Nat.add_assoc]
      rw [hnext]
      refine ih (by omega) hkn ht ?_
      simp only [pagesBetween, pageSize] at *
      omega
    · have hkn' : k = pagesBetween va stop := by omega
      rw [if_neg (by rw [hlt]; omega)]
      exact .pure (hkn' ▸ h)

theorem forUserPages_sat {body : ℕ → ℕ → Kernel Unit} {tol : Panic → Prop} {stop : ℕ} (I : ℕ → Machine → Prop)
    (hstop : stop ≤ userTop) (h : I 0 s)
    (step : ∀ k t, k < pagesBetween va stop → I k t →
      Sat tol (body (va + pageSize * k) k) t fun _ t' => I (k + 1) t') :
    Sat tol (forPages body stop (2 ^ 20) va 0) s fun _ t => I (pagesBetween va stop) t := by
  refine forPages_sat I ?_ ?_ (Nat.zero_le _) h step
  · have : userTop + pageSize ≤ 2 ^ 32 := by decide
    omega
  · simp only [pagesBetween, pageSize, userTop] at *
    omega

/-- The number of 4 MB regions that `k` pages from page `n` on meet. -/
def regions (n k : ℕ) : ℕ := if k = 0 then 0 else (n + k - 1) / 1024 - n / 1024 + 1

theorem regions_succ (n k : ℕ) :
    regions n (k + 1) = regions n k + if k = 0 ∨ (n + k) % 1024 = 0 then 1 else 0 := by
  simp only [regions, Nat.succ_ne_zero, if_false]
  split <;> split <;> omega

theorem regions_mono {n k m : ℕ} (h : k ≤ m) : regions n k ≤ regions n m := by
  induction h with
  | refl => exact le_rfl
  | step _ ih =>
    rw [regions_succ]
    omega

end FosKernel.Machine
