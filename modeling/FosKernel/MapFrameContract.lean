import FosKernel.EntryChanges
import FosKernel.EnvironmentDirectories

/-!
# The contract of `map_frame`

The comment on `map_frame` says what becomes of the entry, of the frame that was mapped
before and of the frame that is mapped now. `mapFrame_contract_iff` says for which entries
this is so.
-/

namespace FosKernel.Machine
open FailingPrograms PageEntries ReferenceCounts

variable {s t u : Machine} {E : Finset ℕ} {g g' : Obj → ℕ} {τ : Tree} {o : Obj} {x : Cell} {S : Finset Cell}
  {p f f' f₀ i j w w' va perm pt : ℕ} {cpt : ℕ → ℕ → Kernel ℕ}

/-- What the entries in `S` and the frame records promise a call: the frame is not free, its
references count the entries that name it, and the entry's own frame counts the entry. -/
structure Callable (E : Finset ℕ) (s : Machine) (g : Obj → ℕ) (τ : Tree) (va f : ℕ) (S : Finset Cell) : Prop where
  stocked : Stocked E s g
  tree : τ ∈ mmuTrees E
  root : g (.root τ) ≠ 0
  user : va < userTop
  frame : f < s.numberOfFrames
  not_free : f ∉ s.freeFrameList
  prior : ∀ f₀, nameOf (s.cellWord g (cellAt τ va)) = some f₀ →
    Ordinary s f₀ ∧ 0 < (s.framesInfo f₀).references ∧ (s.framesInfo f₀).references < 2 ^ 16
  uint16 : (s.framesInfo f).references < 2 ^ 16
  mem : cellAt τ va ∈ S
  counted : (s.framesInfo f).references = count S (s.pool g).name f

structure Contract (s : Machine) (g : Obj → ℕ) (τ : Tree) (va f perm : ℕ) (S : Finset Cell)
    (t : Machine) (g' : Obj → ℕ) : Prop where
  entry : t.cellWord g' (cellAt τ va) = newEntry f perm
  released : ∀ f₀, nameOf (s.cellWord g (cellAt τ va)) = some f₀ → f₀ ≠ f →
    (t.framesInfo f₀).references + 1 = (s.framesInfo f₀).references ∧
      ((s.framesInfo f₀).references = 1 → f₀ ∈ t.freeFrameList)
  counted : (t.framesInfo f).references = count S (t.pool g').name f
  created : g (.leaf τ (pdx va)) = 0 → ∀ j, j ≠ ptx va → t.cellWord g' (.word (.leaf τ (pdx va)) j) = 0
  rest : ∀ x, x ≠ cellAt τ va → (g (.leaf τ (pdx va)) = 0 →
      x ≠ .word (.root τ) (pdx va) ∧ x ≠ .page (g' (.leaf τ (pdx va)))) →
    t.cellWord g' x = s.cellWord g x

/-- The entry is what it has to be already; or it is 0 or present on another frame, and the
`uint16` count has room for one more. -/
def MapsExactly (s : Machine) (g : Obj → ℕ) (τ : Tree) (va f perm : ℕ) : Prop :=
  s.cellWord g (cellAt τ va) = newEntry f perm ∨
    (s.cellWord g (cellAt τ va) = 0 ∨ HasPerm (s.cellWord g (cellAt τ va)) permPresent ∧
      frameNumber (s.cellWord g (cellAt τ va)) ≠ f) ∧ (s.framesInfo f).references + 1 < 2 ^ 16

theorem dropReference_references (h0 : (s.framesInfo f).references ≠ 0) (hlt : (s.framesInfo f).references < 2 ^ 16) :
    ((s.dropReference f).framesInfo f).references + 1 = (s.framesInfo f).references ∧
      ((s.framesInfo f).references = 1 → f ∈ (s.dropReference f).freeFrameList) := by
  by_cases h1 : (s.framesInfo f).references = 1
  · rw [dropReference_of_one h1, setFree_framesInfo, setInfo_self, h1]
    exact ⟨rfl, fun _ => List.mem_cons_self ..⟩
  · have hval : ((s.framesInfo f).addReferences (2 ^ 16 - 1)).references = (s.framesInfo f).references - 1 := by
      rw [addReferences_references]
      omega
    rw [dropReference, if_neg (by omega), setInfo_self, hval]
    exact ⟨by omega, fun h => absurd h h1⟩

theorem count_newEntry (hx : x ∈ S) (hperm : perm < 4096)
    (hcells : t.cellWord g = Function.update (s.cellWord g) x (newEntry f perm)) :
    count S (t.pool g).name f + weight (nameOf (s.cellWord g x)) f = count S (s.pool g).name f + 1 := by
  have hname (y : Cell) : (t.pool g).name y = Function.update (s.pool g).name x (some f) y := by
    simp only [pool, hcells]
    by_cases hy : y = x
    · rw [hy, Function.update_self, Function.update_self, nameOf_newEntry hperm]
    · rw [Function.update_of_ne hy, Function.update_of_ne hy]
  have := count_update hx (fun y _ => hname y) f
  rwa [weight_self] at this

variable (cpt) in
theorem Layout.mapFrame_notPresent (hs : Layout E s g) (hva : va < userTop) (hl : g (.leaf τ (pdx va)) ≠ 0)
    (hf : f < s.numberOfFrames) (hperm : perm < 4096)
    (hw : ¬HasPerm (s.cellWord g (cellAt τ va)) permPresent) :
    ∃ t, (mapFrame cpt (g (.root τ)) f va perm).run s = .ok (0, t) ∧ Layout E t g ∧
      t.cellWord g = Function.update (s.cellWord g) (cellAt τ va) (newEntry f perm) ∧
      t.framesInfo = (s.addReference f).framesInfo := by
  have hloc := hs.located_leaf hva hl
  have hst := (sameMemory_setInfo s f ((s.framesInfo f).addReferences 1)).toSameGlobals.places
  have hlt := hs.newEntry_lt hf hperm
  refine ⟨_, hloc.mapFrame_unmapped (by rwa [hloc.word]), hs.setEntry hst rfl (fun o _ _ => ?_) hva hl hlt,
    hs.setEntry_cells hst rfl hva hl hlt, rfl⟩
  exact addReference_va s f _

variable (cpt) in
theorem Layout.mapFrame_otherFrame (hs : Layout E s g) (hva : va < userTop) (hl : g (.leaf τ (pdx va)) ≠ 0)
    (hf : f < s.numberOfFrames) (hperm : perm < 4096) (hw : HasPerm (s.cellWord g (cellAt τ va)) permPresent)
    (hf₀ : frameNumber (s.cellWord g (cellAt τ va)) = f₀) (hne : f₀ ≠ f) (hord : Ordinary s f₀) :
    ∃ t, (mapFrame cpt (g (.root τ)) f va perm).run s = .ok (0, t) ∧ Layout E t g ∧
      t.cellWord g = Function.update (s.cellWord g) (cellAt τ va) (newEntry f perm) ∧
      t.framesInfo = ((s.dropReference f₀).addReference f).framesInfo ∧
      t.freeFrameList = (s.dropReference f₀).freeFrameList := by
  have hloc := hs.located_leaf hva hl
  have hdrop := (sameMemory_dropReference s f₀).toSameGlobals.places
  have hst := hdrop.trans (sameMemory_setInfo (s.dropReference f₀) f
    (((s.dropReference f₀).framesInfo f).addReferences 1)).toSameGlobals.places
  have hram : ((s.dropReference f₀).addReference f).ram = s.ram := by
    rw [addReference, setInfo_ram, (sameMemory_dropReference s f₀).ram]
  have hlt := hs.newEntry_lt hf hperm
  rw [← hloc.word] at hw hf₀
  have hrun : (mapFrame cpt _ _ va perm).run s = _ := hloc.mapFrame_other hw (hf₀ ▸ hs.ordinary_lt hord) (hf₀ ▸ hne)
  rw [hf₀, addReference_setEntry, setEntry_setEntry] at hrun
  refine ⟨_, hrun, hs.setEntry hst hram (fun o hk ho => ?_) hva hl hlt, hs.setEntry_cells hst hram hva hl hlt, ?_, ?_⟩
  · rw [addReference_va, dropReference_info_of_ne]
    exact hs.ordinary_ne hord ho
  · rw [Machine.setEntry, setFrame_framesInfo]
  · rw [Machine.setEntry, setFrame_freeFrameList, addReference, setInfo_freeFrameList]

theorem NewTable.count_eq (h : NewTable E s g τ i pt f' t) (hs : Layout E s g) (ho : g (.root τ) ≠ 0)
    (hi : i < pdx userTop) (hl : g (.leaf τ i) = 0) (hne : f' ≠ f) (S : Finset Cell) :
    count S (t.pool (Function.update g (.leaf τ i) pt)).name f = count S (s.pool g).name f := by
  have hframe : nameOf (constructEntry (toPhysicalAddress f') τ.perm) = some f' :=
    nameOf_eq_some.mpr ⟨ne_zero_of_hasPerm_present (HasPerm.or_left τ.perm_present),
      frameNumber_constructEntry τ.perm_lt⟩
  have hnot : some f' ≠ some f := fun he => hne (Option.some.inj he)
  unfold count
  congr 1
  refine Finset.filter_congr fun x _ => ?_
  simp only [pool, h.cell]
  by_cases hroot : x = .word (.root τ) i
  · rw [hroot, Function.update_self, hframe, hs.pde τ i hi ho, if_pos hl, nameOf_zero]
    exact iff_of_false hnot (by simp)
  · rw [Function.update_of_ne hroot]
    by_cases hpage : x = .page pt
    · rw [hpage, Function.update_self, nameOf_heapEntry, cellWord_page h.page.shared, h.empty, nameOf_zero]
      exact iff_of_false hnot (by simp)
    · rw [Function.update_of_ne hpage]

namespace Callable

/-- Where nothing else goes wrong the contract hangs on the `uint16` count. -/
private theorem contract_iff_count (h : Callable E s g τ va f S) (hperm : perm < 4096)
    (hcells : u.cellWord g' = Function.update (t.cellWord g') (cellAt τ va) (newEntry f perm))
    (hinfo : (u.framesInfo f).references = ((s.framesInfo f).references + 1) % 2 ^ 16)
    (hcount : count S (t.pool g').name f = count S (s.pool g).name f)
    (hname : nameOf (t.cellWord g' (cellAt τ va)) ≠ some f)
    (hreleased : ∀ f₀, nameOf (s.cellWord g (cellAt τ va)) = some f₀ → f₀ ≠ f →
      (u.framesInfo f₀).references + 1 = (s.framesInfo f₀).references ∧
        ((s.framesInfo f₀).references = 1 → f₀ ∈ u.freeFrameList))
    (hcreated : g (.leaf τ (pdx va)) = 0 → ∀ j, t.cellWord g' (.word (.leaf τ (pdx va)) j) = 0)
    (hrest : ∀ x, (g (.leaf τ (pdx va)) = 0 →
        x ≠ .word (.root τ) (pdx va) ∧ x ≠ .page (g' (.leaf τ (pdx va)))) →
      t.cellWord g' x = s.cellWord g x) :
    Contract s g τ va f perm S u g' ↔ (s.framesInfo f).references + 1 < 2 ^ 16 := by
  have hnew := count_newEntry h.mem hperm hcells
  rw [weight, if_neg hname, Nat.add_zero, hcount, ← h.counted] at hnew
  constructor
  · intro hc
    have hu := hc.counted
    rw [hinfo, hnew] at hu
    omega
  · intro hlt
    refine ⟨by rw [hcells, Function.update_self], hreleased, ?_, fun hl j hj => ?_, fun x hx hx' => ?_⟩
    · rw [hinfo, hnew, Nat.mod_eq_of_lt hlt]
    · rw [hcells, Function.update_of_ne, hcreated hl]
      rw [cellAt_user h.user]
      simpa using hj
    · rw [hcells, Function.update_of_ne hx, hrest x hx']

private theorem mapsExactly_zero (h0 : s.cellWord g (cellAt τ va) = 0) :
    MapsExactly s g τ va f perm ↔ (s.framesInfo f).references + 1 < 2 ^ 16 := by
  rw [MapsExactly, h0]
  constructor
  · rintro (he | ⟨-, hlt⟩)
    · exact absurd he.symm (newEntry_ne_zero f perm)
    · exact hlt
  · exact fun hlt => .inr ⟨.inl rfl, hlt⟩

/-- The entry is present on the same frame: `map_frame` does nothing. -/
private theorem contract_iff_same (h : Callable E s g τ va f S) (hperm : perm < 4096)
    (hl : g (.leaf τ (pdx va)) ≠ 0) (hsame : frameNumber (s.cellWord g (cellAt τ va)) = f)
    (hw : HasPerm (s.cellWord g (cellAt τ va)) permPresent) :
    Contract s g τ va f perm S s g ↔ MapsExactly s g τ va f perm := by
  constructor
  · exact fun hc => .inl hc.entry
  · rintro (he | ⟨h0 | ⟨-, hne⟩, -⟩)
    · refine ⟨he, fun f₀ hf₀ hne => ?_, h.counted, fun hl' => absurd hl' hl, fun _ _ _ => rfl⟩
      rw [he, nameOf_newEntry hperm] at hf₀
      exact absurd (Option.some.inj hf₀).symm hne
    · exact absurd h0 (ne_zero_of_hasPerm_present hw)
    · exact absurd hsame hne

/-- The entry is not 0 and not present: its frame is forgotten without a release. -/
private theorem not_contract (h : Callable E s g τ va f S) (hperm : perm < 4096)
    (hw : ¬HasPerm (s.cellWord g (cellAt τ va)) permPresent) (h0 : s.cellWord g (cellAt τ va) ≠ 0)
    (hcells : t.cellWord g = Function.update (s.cellWord g) (cellAt τ va) (newEntry f perm))
    (hinfo : t.framesInfo = (s.addReference f).framesInfo) :
    Contract s g τ va f perm S t g ↔ MapsExactly s g τ va f perm := by
  refine iff_of_false (fun hc => ?_) ?_
  · have hnew := count_newEntry h.mem hperm hcells
    by_cases hf₀ : frameNumber (s.cellWord g (cellAt τ va)) = f
    · have hu := hc.counted
      rw [nameOf_eq_some.mpr ⟨h0, hf₀⟩, weight_self] at hnew
      rw [hinfo, addReference_references, Nat.add_right_cancel hnew, ← h.counted] at hu
      have := h.uint16
      omega
    · have hrel := (hc.released _ (nameOf_eq_some.mpr ⟨h0, rfl⟩) hf₀).1
      rw [hinfo, addReference, setInfo_of_ne hf₀] at hrel
      omega
  · rintro (he | ⟨h0' | ⟨hp, -⟩, -⟩)
    · exact hw (he ▸ newEntry_present f perm)
    · exact h0 h0'
    · exact hw hp

private theorem exists_table (h : Callable E s g τ va f S) (hperm : perm < 4096) (hl : g (.leaf τ (pdx va)) ≠ 0) :
    ∃ t, (mapFrame createPageTable (g (.root τ)) f va perm).run s = .ok (0, t) ∧ Layout E t g ∧
      (Contract s g τ va f perm S t g ↔ MapsExactly s g τ va f perm) := by
  have hs := h.stocked.toLayout
  have hloc := hs.located_leaf h.user hl
  by_cases hw : HasPerm (s.cellWord g (cellAt τ va)) permPresent
  · have h0 := ne_zero_of_hasPerm_present hw
    by_cases hf₀ : frameNumber (s.cellWord g (cellAt τ va)) = f
    · exact ⟨s, hloc.mapFrame_same (by rwa [hloc.word]) (by rwa [hloc.word]), hs, h.contract_iff_same hperm hl hf₀ hw⟩
    · obtain ⟨hord, hpos, hlt⟩ := h.prior _ (nameOf_eq_some.mpr ⟨h0, rfl⟩)
      obtain ⟨t, hrun, ht, hcells, hinfo, hfree⟩ := hs.mapFrame_otherFrame createPageTable h.user hl h.frame
        hperm hw rfl hf₀ hord
      refine ⟨t, hrun, ht, ?_⟩
      rw [h.contract_iff_count hperm hcells ?_ rfl (fun hn => hf₀ (nameOf_eq_some.mp hn).2) ?_
        (fun hl' => absurd hl' hl) fun _ _ => rfl]
      · refine ⟨fun hlt => .inr ⟨.inr ⟨hw, hf₀⟩, hlt⟩, ?_⟩
        rintro (he | ⟨-, hlt⟩)
        · exact absurd (he ▸ frameNumber_newEntry hperm) hf₀
        · exact hlt
      · rw [hinfo, addReference_references, dropReference_info_of_ne (Ne.symm hf₀)]
      · intro f₀ hn hne
        obtain ⟨-, rfl⟩ := nameOf_eq_some.mp hn
        rw [hinfo, hfree, addReference, setInfo_of_ne hne]
        exact dropReference_references hpos.ne' hlt
  · obtain ⟨t, hrun, ht, hcells, hinfo⟩ := hs.mapFrame_notPresent createPageTable h.user hl h.frame hperm hw
    refine ⟨t, hrun, ht, ?_⟩
    by_cases h0 : s.cellWord g (cellAt τ va) = 0
    · rw [h.contract_iff_count hperm hcells ?_ rfl (by simp [h0]) (by simp [h0]) (fun hl' => absurd hl' hl)
        fun _ _ => rfl, mapsExactly_zero h0]
      rw [hinfo, addReference_references]
    · exact h.not_contract hperm hw h0 hcells hinfo

private theorem exists_newTable (h : Callable E s g τ va f S) (hperm : perm < 4096) (hl : g (.leaf τ (pdx va)) = 0)
    (ht : NewTable E s g τ (pdx va) pt f' t) :
    ∃ u, (mapFrame createPageTable (g (.root τ)) f va perm).run t = .ok (0, u) ∧
      Layout E u (Function.update g (.leaf τ (pdx va)) pt) ∧
      (Contract s g τ va f perm S u (Function.update g (.leaf τ (pdx va)) pt) ↔ MapsExactly s g τ va f perm) := by
  have hroot : Function.update g (.leaf τ (pdx va)) pt (.root τ) = g (.root τ) := Function.update_of_ne (by simp) ..
  have hne : f' ≠ f := fun he => h.not_free (by simp [ht.free, he])
  have hleaf (j : ℕ) :
      t.cellWord (Function.update g (.leaf τ (pdx va)) pt) (.word (.leaf τ (pdx va)) j) = 0 := by
    rw [ht.cell, Function.update_of_ne (by simp), Function.update_of_ne (by simp), cellWord_absent hl]
  have h0 : s.cellWord g (cellAt τ va) = 0 := by rw [cellAt_user h.user, cellWord_absent hl]
  have ht0 : t.cellWord (Function.update g (.leaf τ (pdx va)) pt) (cellAt τ va) = 0 := by
    rw [cellAt_user h.user, hleaf]
  have hf : f < t.numberOfFrames := by
    obtain ⟨d, hst⟩ := ht.globals
    exact hst.numberOfFrames ▸ h.frame
  obtain ⟨u, hrun, hu, hcells, hinfo⟩ := ht.stocked.mapFrame_notPresent createPageTable h.user ht.table hf
    hperm (by rw [ht0]; decide)
  refine ⟨u, hroot ▸ hrun, hu, ?_⟩
  have hcount := ht.count_eq h.stocked.toLayout h.root (pdx_lt_userTop h.user) hl hne S
  rw [h.contract_iff_count hperm hcells ?_ hcount (by simp [ht0]) (by simp [h0]) (fun _ => hleaf) fun x hx => ?_,
    mapsExactly_zero h0]
  · rw [hinfo, addReference_references, ht.info, Function.update_of_ne (Ne.symm hne)]
  · rw [Function.update_self] at hx
    rw [ht.cell, Function.update_of_ne (hx hl).1, Function.update_of_ne (hx hl).2]

end Callable

/-- `map_frame` keeps its contract exactly if the entry is 0 or present on another frame, or is
already what it has to be; of a frame with 65535 references the count overflows. -/
theorem mapFrame_contract_iff (h : Callable E s g τ va f S) (hperm : perm < 4096) :
    Sat (Short s (missing g τ va) (missing g τ va)) (mapFrame createPageTable (g (.root τ)) f va perm) s fun r t =>
      r = 0 ∧ ∃ g', Layout E t g' ∧ (∀ o, o ≠ .leaf τ (pdx va) ∨ g o ≠ 0 → g' o = g o) ∧
        (Contract s g τ va f perm S t g' ↔ MapsExactly s g τ va f perm) := by
  refine h.stocked.mapFrame_sat h.tree h.root h.user (fun hl => ?_) fun pt f' t hl ht => ?_
  · obtain ⟨t, hrun, ht, hiff⟩ := h.exists_table hperm hl
    exact .of_ok hrun ⟨rfl, g, ht, fun _ _ => rfl, hiff⟩
  · obtain ⟨u, hrun, hu, hiff⟩ := h.exists_newTable hperm hl ht
    refine .of_ok hrun ⟨rfl, _, hu, fun o ho => Function.update_of_ne ?_ .., hiff⟩
    rintro rfl
    exact ho.elim (fun hne => hne rfl) fun hne => hne hl

theorem exists_pageAt (hva : va < userTop) : ∃ s g f, Stocked {0, 1} s g ∧ g (.root (.user 0)) ≠ 0 ∧
    s.entries g = Function.update (fun _ => 0) (.user 0, pageNumber va) (newEntry f (permUser ||| permWriteable)) ∧
    InUse s f ∧ (s.framesInfo f).references = 1 ∧ 90 ≤ s.freeFrameList.length ∧ Room s 90 ∧
    ⟨g (.leaf (.user 0) (pdx va)), pageSize⟩ ∈ s.heap.blocks .alloc := by
  obtain ⟨s, g, hsys, ho, -, -, hleaf, hfree, hroom⟩ := exists_twoDirectories
  have hok : Sat (fun _ => False) _ _ _ :=
    (hsys.stocked.createPageTable_sat ho rfl hva (hleaf _ _)).weaken fun e he => by
      rcases he with ⟨-, hlt⟩ | ⟨-, hr⟩
      · omega
      · exact hr (hroom.mono (by decide))
  obtain ⟨pt, t, -, f', ht⟩ := hok.exists_ok
  have hst := ht.stocked
  have hlen := ht.spent.frames
  rcases hl : t.freeFrameList with - | ⟨f, fs⟩
  · rw [hl, List.length_nil] at hlen
    omega
  · rw [hl, List.length_cons] at hlen
    have hf := (hst.free f (by simp [hl])).1
    have hlt := hst.newEntry_lt (hst.ordinary_lt hf) (show permUser ||| permWriteable < 4096 by decide)
    have hstep := (hst.toReady.take hl).addReference hf.not_heap
    obtain ⟨hu, hentries⟩ := hst.set hstep rfl hva ht.table hlt
    have hcells := hst.setEntry_cells hstep.places rfl hva ht.table hlt
    have hplaces := (hstep.setEntry (t.entryFrame (Function.update g (.leaf (.user 0) (pdx va)) pt) (.user 0) va)
      (ptx va) (newEntry f (permUser ||| permWriteable))).places.toSameBoot
    obtain ⟨A, B, -, hblocks⟩ := ht.blocks
    have hnot : f ∉ fs := (List.nodup_cons.mp (hl ▸ hst.nodup)).1
    refine ⟨_, _, f, hu, ?_, ?_, ⟨hf.congr hplaces fun p hp => kernelPte_of_user hva hcells hp, hnot⟩, ?_, ?_, ?_, ?_⟩
    · rwa [Function.update_of_ne (by simp)]
    · rw [hentries, ht.entries_eq]
      congr 1
      funext x
      exact cellWord_absent (hleaf _ _)
    · show ((t.taken f fs).addReference f |>.framesInfo f).references = 1
      rw [addReference_references, taken, setInfo_self]
      rfl
    · show 90 ≤ fs.length
      omega
    · exact ht.spent.room 90 (hroom.mono (by decide))
    · rw [Function.update_self]
      show _ ∈ t.heap.blocks .alloc
      simp [hblocks]

theorem exists_onePage : ∃ s g f, Stocked {0, 1} s g ∧ g (.root (.user 0)) ≠ 0 ∧
    s.entries g = Function.update (fun _ => 0) (.user 0, 0) (newEntry f (permUser ||| permWriteable)) ∧
    InUse s f ∧ (s.framesInfo f).references = 1 ∧ 90 ≤ s.freeFrameList.length ∧ Room s 90 ∧
    ⟨g (.leaf (.user 0) (pdx 0)), pageSize⟩ ∈ s.heap.blocks .alloc :=
  exists_pageAt (show 0 < userTop by decide)

private theorem exists_callable : ∃ s g f, Callable {0, 1} s g (.user 0) 0 f {cellAt (.user 0) 0} ∧
    g (.leaf (.user 0) (pdx 0)) ≠ 0 ∧ s.cellWord g (cellAt (.user 0) 0) = newEntry f (permUser ||| permWriteable) ∧
    ∀ perm, (mapFrame createPageTable (g (.root (.user 0))) f 0 perm).run s = .ok (0, s) := by
  obtain ⟨s, g, f, hs, ho, hentries, hf, hrefs, -, -, -⟩ := exists_onePage
  have hva : 0 < userTop := by decide
  have hcell : s.cellWord g (cellAt (.user 0) 0) = newEntry f (permUser ||| permWriteable) := by
    rw [← entries_cellAt hva, hentries]
    exact Function.update_self ..
  have hname : (s.pool g).name (cellAt (.user 0) 0) = some f :=
    (congrArg nameOf hcell).trans (nameOf_newEntry (by decide))
  have hl : g (.leaf (.user 0) (pdx 0)) ≠ 0 := table_of_entry hva (by
    rw [entries_cellAt hva, hcell]
    exact newEntry_ne_zero f _)
  have hloc := hs.located_leaf hva hl
  refine ⟨s, g, f, ⟨hs, by simp, ho, hva, hs.ordinary_lt hf.toOrdinary, hf.not_free, fun f₀ hf₀ => ?_, by omega,
    by simp, ?_⟩, hl, hcell, fun perm => hloc.mapFrame_same ?_ ?_⟩
  · obtain rfl := Option.some.inj (hname.symm.trans hf₀)
    exact ⟨hf.toOrdinary, by omega, by omega⟩
  · rw [hrefs, count, Finset.filter_singleton, if_pos hname, Finset.card_singleton]
  · rw [hloc.word, hcell]
    exact newEntry_present ..
  · rw [hloc.word, hcell]
    exact frameNumber_newEntry (by decide)

/-- A second call with other permissions does nothing, and the page stays writable. -/
theorem mapFrame_keeps_permissions : ∃ s g f, Callable {0, 1} s g (.user 0) 0 f {cellAt (.user 0) 0} ∧
    (mapFrame createPageTable (g (.root (.user 0))) f 0 permUser).run s = .ok (0, s) ∧
    ∀ g', (∀ o, o ≠ .leaf (.user 0) (pdx 0) ∨ g o ≠ 0 → g' o = g o) →
      ¬Contract s g (.user 0) 0 f permUser {cellAt (.user 0) 0} s g' := by
  obtain ⟨s, g, f, hs, hl, hcell, hrun⟩ := exists_callable
  refine ⟨s, g, f, hs, hrun _, fun g' hg hc => ?_⟩
  have hgg : g' = g := by
    funext o
    by_cases ho : o = .leaf (.user 0) (pdx 0)
    · exact hg o (.inr (ho ▸ hl))
    · exact hg o (.inl ho)
  have he := hc.entry
  rw [hgg, hcell] at he
  have hbit (perm : ℕ) : (newEntry f perm).testBit 1 = (perm ||| permPresent).testBit 1 :=
    testBit_constructEntry (by decide)
  have := (hbit (permUser ||| permWriteable)).symm.trans ((congrArg (Nat.testBit · 1) he).trans (hbit permUser))
  exact absurd this (by decide)

private theorem exists_otherFrame : ∃ s g f f₀ t, Callable {0, 1} s g (.user 0) 0 f {cellAt (.user 0) 0} ∧
    s.cellWord g (cellAt (.user 0) 0) = newEntry f₀ (permUser ||| permWriteable) ∧ f₀ ≠ f ∧
    (s.framesInfo f).references = 0 ∧ (mapFrame createPageTable (g (.root (.user 0))) f 0 permUser).run s = .ok (0, t) := by
  obtain ⟨r, g, f₀, hr, ho, hentries, hf₀, hrefs, hlen, -, -⟩ := exists_onePage
  rcases hfree : r.freeFrameList with - | ⟨f, fs⟩
  · rw [hfree, List.length_nil] at hlen
    omega
  have hva : 0 < userTop := by decide
  have hne : f₀ ≠ f := fun he => hf₀.not_free (by simp [hfree, he])
  have hstep := hr.toReady.take hfree
  have hready := hr.toReady.same hstep rfl
  have hs : Stocked {0, 1} (r.taken f fs) g := ⟨hready, hr.heap.keep hready rfl rfl (fun _ _ => rfl) hstep.info⟩
  have hcell : (r.taken f fs).cellWord g (cellAt (.user 0) 0) = newEntry f₀ (permUser ||| permWriteable) := by
    refine (congrFun (Layout.cellWord_congr hstep.places.toSameBoot rfl g) _).trans ?_
    rw [← entries_cellAt hva, hentries]
    exact Function.update_self ..
  have hname : ((r.taken f fs).pool g).name (cellAt (.user 0) 0) = some f₀ :=
    (congrArg nameOf hcell).trans (nameOf_newEntry (by decide))
  have hl : g (.leaf (.user 0) (pdx 0)) ≠ 0 := table_of_entry hva (by
    rw [entries_cellAt hva, hcell]
    exact newEntry_ne_zero f₀ _)
  have hzero : ((r.taken f fs).framesInfo f).references = 0 := by
    rw [taken, setInfo_self]
    rfl
  have hinfo : ((r.taken f fs).framesInfo f₀).references = 1 := by rw [taken_info_of_ne hne, hrefs]
  have hcall : Callable {0, 1} (r.taken f fs) g (.user 0) 0 f {cellAt (.user 0) 0} :=
    { stocked := hs
      tree := by simp
      root := ho
      user := hva
      frame := hr.ordinary_lt (hr.free f (by simp [hfree])).1
      not_free := (List.nodup_cons.mp (hfree ▸ hr.nodup)).1
      prior := fun f' hf' => by
        obtain rfl := Option.some.inj (hname.symm.trans hf')
        exact ⟨hf₀.toOrdinary.congr hstep.places.toSameBoot fun _ _ => rfl, by omega, by omega⟩
      uint16 := by omega
      mem := by simp
      counted := by
        rw [hzero, count, Finset.filter_singleton, if_neg (by simpa [hname] using hne), Finset.card_empty] }
  obtain ⟨t, hrun, -⟩ := hcall.exists_table (show permUser < 4096 by decide) hl
  exact ⟨_, g, f, f₀, t, hcall, hcell, hne, hzero, hrun⟩

/-- A call for the same page and permissions, and one with another frame. -/
theorem mapFrame_contract_iff_writablePage : (∃ s g f t, Callable {0, 1} s g (.user 0) 0 f {cellAt (.user 0) 0} ∧
      (mapFrame createPageTable (g (.root (.user 0))) f 0 (permUser ||| permWriteable)).run s = .ok (0, t) ∧
      ∃ g', Contract s g (.user 0) 0 f (permUser ||| permWriteable) {cellAt (.user 0) 0} t g') ∧
    ∃ s g f f₀ t, Callable {0, 1} s g (.user 0) 0 f {cellAt (.user 0) 0} ∧
      s.cellWord g (cellAt (.user 0) 0) = newEntry f₀ (permUser ||| permWriteable) ∧ f₀ ≠ f ∧
      (mapFrame createPageTable (g (.root (.user 0))) f 0 permUser).run s = .ok (0, t) ∧
      ∃ g', Contract s g (.user 0) 0 f permUser {cellAt (.user 0) 0} t g' := by
  refine ⟨?_, ?_⟩
  · obtain ⟨s, g, f, hs, hl, hcell, hrun⟩ := exists_callable
    obtain ⟨-, g', -, -, hiff⟩ :=
      (mapFrame_contract_iff hs (show permUser ||| permWriteable < 4096 by decide)).ok (hrun _)
    exact ⟨s, g, f, s, hs, hrun _, g', hiff.mpr (.inl hcell)⟩
  · obtain ⟨s, g, f, f₀, t, hs, hcell, hne, hzero, hrun⟩ := exists_otherFrame
    obtain ⟨-, g', -, -, hiff⟩ := (mapFrame_contract_iff hs (show permUser < 4096 by decide)).ok hrun
    refine ⟨s, g, f, f₀, t, hs, hcell, hne, hrun, g', hiff.mpr (.inr ⟨.inr ?_, by omega⟩)⟩
    rw [hcell, frameNumber_newEntry (by decide)]
    exact ⟨newEntry_present .., hne⟩

end FosKernel.Machine
