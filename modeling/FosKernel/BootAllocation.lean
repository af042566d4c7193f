import FosKernel.Boot

/-!
# Boot allocation

`boot_allocate_space` cuts space off behind the kernel image, and `initialize_paging`
gives the frames that are left to the free list. The first section is about addresses and
alignments of any kind.
-/

namespace FosKernel.Machine
open FailingPrograms

section Placing

variable {a b p q : ℕ} {requests : List (ℕ × ℕ)}

/-- The first multiple of `a` from `p` on. -/
def alignUp (p a : ℕ) : ℕ := (p + a - 1) / a * a

theorem dvd_alignUp (p a : ℕ) : a ∣ alignUp p a := Nat.dvd_mul_left a _

theorem le_alignUp (ha : 0 < a) : p ≤ alignUp p a := by
  have h := Nat.div_add_mod (p + a - 1) a
  have hlt := Nat.mod_lt (p + a - 1) ha
  rw [alignUp, Nat.mul_comm]
  omega

theorem alignUp_le_iff (ha : 0 < a) (hq : a ∣ q) : alignUp p a ≤ q ↔ p ≤ q := by
  refine ⟨(le_alignUp ha).trans, fun hle => ?_⟩
  obtain ⟨k, rfl⟩ := hq
  rw [alignUp, Nat.mul_comm]
  refine Nat.mul_le_mul_left a (Nat.le_of_lt_succ ((Nat.div_lt_iff_lt_mul ha).mpr ?_))
  rw [Nat.succ_mul, Nat.mul_comm k a]
  omega

theorem alignUp_of_dvd (ha : 0 < a) (h : a ∣ p) : alignUp p a = p :=
  ((alignUp_le_iff ha h).mpr le_rfl).antisymm (le_alignUp ha)

theorem roundUp_eq_alignUp (ha : 0 < a) (hdvd : a ∣ 2 ^ 32) (h : alignUp p a < 2 ^ 32) : roundUp p a = alignUp p a := by
  have hlt : p + a - 1 < 2 ^ 32 := by
    obtain ⟨k, hk⟩ := hdvd
    rw [hk] at h ⊢
    rw [alignUp, Nat.mul_comm, Nat.mul_lt_mul_left ha, Nat.div_lt_iff_lt_mul ha, Nat.mul_comm] at h
    exact h
  rw [roundUp, u32_of_lt hlt, roundDown, alignUp, Nat.mul_comm]
  exact Nat.sub_eq_of_eq_add (Nat.div_add_mod _ _).symm

/-- Where requests for a size and an alignment are placed, one behind the other. -/
def placed : ℕ → List (ℕ × ℕ) → List ℕ
  | _, [] => []
  | p, (size, align) :: requests => alignUp p align :: placed (alignUp p align + size) requests

def placedEnd : ℕ → List (ℕ × ℕ) → ℕ
  | p, [] => p
  | p, (size, align) :: requests => placedEnd (alignUp p align + size) requests

theorem length_placed (p : ℕ) (requests : List (ℕ × ℕ)) : (placed p requests).length = requests.length := by
  induction requests generalizing p with
  | nil => rfl
  | cons c requests ih => simp [placed, ih]

theorem le_placedEnd (h : ∀ c ∈ requests, 0 < c.2) : p ≤ placedEnd p requests := by
  induction requests generalizing p with
  | nil => exact le_rfl
  | cons c requests ih =>
    have hle := le_alignUp (p := p) (h c (by simp))
    have hend := ih (p := alignUp p c.2 + c.1) fun d hd => h d (by simp [hd])
    rw [placedEnd]
    omega

theorem dvd_of_mem_placed {x : (ℕ × ℕ) × ℕ} (hx : x ∈ requests.zip (placed p requests)) : x.1.2 ∣ x.2 := by
  induction requests generalizing p with
  | nil => exact absurd hx (by simp [placed])
  | cons c requests ih =>
    rw [placed, List.zip_cons_cons, List.mem_cons] at hx
    rcases hx with rfl | hx
    · exact dvd_alignUp p c.2
    · exact ih hx

theorem mem_placed_bounds (h : ∀ c ∈ requests, 0 < c.2) {x : (ℕ × ℕ) × ℕ}
    (hx : x ∈ requests.zip (placed p requests)) : p ≤ x.2 ∧ x.2 + x.1.1 ≤ placedEnd p requests := by
  induction requests generalizing p with
  | nil => exact absurd hx (by simp [placed])
  | cons c requests ih =>
    have hle := le_alignUp (p := p) (h c (by simp))
    have hrest : ∀ d ∈ requests, 0 < d.2 := fun d hd => h d (by simp [hd])
    rw [placed, List.zip_cons_cons, List.mem_cons] at hx
    rw [placedEnd]
    rcases hx with rfl | hx
    · exact ⟨hle, le_placedEnd hrest⟩
    · have := ih hrest hx
      omega

theorem placed_pairwise (h : ∀ c ∈ requests, 0 < c.2) :
    (requests.zip (placed p requests)).Pairwise fun x y => x.2 + x.1.1 ≤ y.2 := by
  induction requests generalizing p with
  | nil => exact List.Pairwise.nil
  | cons c requests ih =>
    have hrest : ∀ d ∈ requests, 0 < d.2 := fun d hd => h d (by simp [hd])
    rw [placed, List.zip_cons_cons]
    exact List.pairwise_cons.mpr ⟨fun y hy => (mem_placed_bounds hrest hy).1, ih hrest⟩

end Placing

def bootAllocateSpace (endOfKernel size align : ℕ) : Kernel ℕ := do
  if (← get).ptrFreeMem = 0 then modify fun s => { s with ptrFreeMem := endOfKernel }
  modify fun s => { s with ptrFreeMem := roundUp s.ptrFreeMem align }
  let ptrAllocatedMem := (← get).ptrFreeMem
  modify fun s => { s with ptrFreeMem := u32 (s.ptrFreeMem + size) }
  return ptrAllocatedMem

/-- Calls with sizes and alignments, and the addresses that they return. -/
def bootAllocations (endOfKernel : ℕ) : List (ℕ × ℕ) → Kernel (List ℕ)
  | [] => return []
  | (size, align) :: calls => do
    let p ← bootAllocateSpace endOfKernel size align
    return p :: (← bootAllocations endOfKernel calls)

variable {s t u : Machine} {endOfKernel size align f : ℕ} {calls : List (ℕ × ℕ)} {ps : List ℕ}

def bootPointer (endOfKernel : ℕ) (s : Machine) : ℕ := if s.ptrFreeMem = 0 then endOfKernel else s.ptrFreeMem

theorem bootAllocateSpace_run (s : Machine) (endOfKernel : ℕ) (halign : ∃ k < 32, align = 2 ^ k)
    (h : alignUp (bootPointer endOfKernel s) align + size < 2 ^ 32) :
    (bootAllocateSpace endOfKernel size align).run s = .ok (alignUp (bootPointer endOfKernel s) align,
      { s with ptrFreeMem := alignUp (bootPointer endOfKernel s) align + size }) := by
  obtain ⟨k, hk, rfl⟩ := halign
  have hround : roundUp (bootPointer endOfKernel s) (2 ^ k) = alignUp (bootPointer endOfKernel s) (2 ^ k) :=
    roundUp_eq_alignUp (Nat.two_pow_pos k) (Nat.pow_dvd_pow 2 hk.le) (by omega)
  rw [bootAllocateSpace, run_bind_ok run_get]
  by_cases hzero : s.ptrFreeMem = 0
  · rw [bootPointer, if_pos hzero] at *
    rw [if_pos hzero, run_bind_ok (run_modify _), run_bind_ok (run_modify _), run_bind_ok run_get,
      run_bind_ok (run_modify _), run_pure]
    simp only [hround, u32_of_lt h]
  · rw [bootPointer, if_neg hzero] at *
    rw [if_neg hzero]
    beta_reduce
    rw [run_bind_ok (run_modify _), run_bind_ok run_get, run_bind_ok (run_modify _), run_pure]
    simp only [hround, u32_of_lt h]

theorem pos_of_two_pow (h : ∃ k < 32, align = 2 ^ k) : 0 < align := by
  obtain ⟨k, -, rfl⟩ := h
  exact Nat.two_pow_pos k

theorem bootAllocations_run (endOfKernel : ℕ) (hne : s.ptrFreeMem ≠ 0) (halign : ∀ c ∈ calls, ∃ k < 32, c.2 = 2 ^ k)
    (h : placedEnd s.ptrFreeMem calls < 2 ^ 32) : (bootAllocations endOfKernel calls).run s =
      .ok (placed s.ptrFreeMem calls, { s with ptrFreeMem := placedEnd s.ptrFreeMem calls }) := by
  induction calls generalizing s with
  | nil => rfl
  | cons c calls ih =>
    have hrest : ∀ d ∈ calls, ∃ k < 32, d.2 = 2 ^ k := fun d hd => halign d (by simp [hd])
    have hptr : bootPointer endOfKernel s = s.ptrFreeMem := if_neg hne
    have hle := le_alignUp (p := s.ptrFreeMem) (pos_of_two_pow (halign c (by simp)))
    have hend := le_placedEnd (p := alignUp s.ptrFreeMem c.2 + c.1) fun d hd => pos_of_two_pow (hrest d hd)
    have hcall := bootAllocateSpace_run s endOfKernel (halign c (by simp))
      (hptr ▸ hend.trans_lt h)
    rw [hptr] at hcall
    have hrun := ih (s := { s with ptrFreeMem := alignUp s.ptrFreeMem c.2 + c.1 }) (by simp only; omega) hrest h
    rw [bootAllocations, run_bind_ok hcall, run_bind_ok hrun]
    rfl

theorem bootAllocations_first (hzero : s.ptrFreeMem = 0) (hpos : 0 < endOfKernel) (hne : calls ≠ [])
    (halign : ∀ c ∈ calls, ∃ k < 32, c.2 = 2 ^ k) (h : placedEnd endOfKernel calls < 2 ^ 32) :
    (bootAllocations endOfKernel calls).run s =
      .ok (placed endOfKernel calls, { s with ptrFreeMem := placedEnd endOfKernel calls }) := by
  cases calls with
  | nil => exact absurd rfl hne
  | cons c calls =>
    have hptr : bootPointer endOfKernel s = endOfKernel := if_pos hzero
    have hrest : ∀ d ∈ calls, ∃ k < 32, d.2 = 2 ^ k := fun d hd => halign d (by simp [hd])
    have hle := le_alignUp (p := endOfKernel) (pos_of_two_pow (halign c (by simp)))
    have hend := le_placedEnd (p := alignUp endOfKernel c.2 + c.1) fun d hd => pos_of_two_pow (hrest d hd)
    have hcall := bootAllocateSpace_run s endOfKernel (halign c (by simp))
      (hptr ▸ hend.trans_lt h)
    rw [hptr] at hcall
    have hrun := bootAllocations_run endOfKernel
      (s := { s with ptrFreeMem := alignUp endOfKernel c.2 + c.1 }) (by simp only; omega) hrest h
    rw [bootAllocations, run_bind_ok hcall, run_bind_ok hrun]
    rfl

/-- What `initialize_paging` is to leave after boot allocations at the addresses `ps`. -/
structure BootContract (endOfKernel : ℕ) (calls : List (ℕ × ℕ)) (ps : List ℕ) (t u : Machine) : Prop where
  length : ps.length = calls.length
  aligned : ∀ x ∈ calls.zip ps, x.1.2 ∣ x.2
  above : ∀ x ∈ calls.zip ps, endOfKernel ≤ x.2
  disjoint : (calls.zip ps).Pairwise fun x y => x.2 + x.1.1 ≤ y.2
  nodup : u.freeFrameList.Nodup
  free : ∀ f, f ∈ u.freeFrameList ↔ 3 ≤ f ∧ f < physIOMem / pageSize ∨
    f < t.numberOfFrames ∧ alignUp t.ptrFreeMem pageSize ≤ kernelBase + pageSize * f
  image : ∀ a, kernelBase + physExtendedMem ≤ a → a < endOfKernel →
    (a - kernelBase) / pageSize ∉ u.freeFrameList
  hole : ∀ f, physIOMem / pageSize ≤ f → f < physExtendedMem / pageSize → f ∉ u.freeFrameList
  zeroPage : (ptrZeroPage - kernelBase) / pageSize ∉ u.freeFrameList
  tempPage : (ptrTempPage - kernelBase) / pageSize ∉ u.freeFrameList
  allocated : ∀ x ∈ calls.zip ps, ∀ a, x.2 ≤ a → a < x.2 + x.1.1 → (a - kernelBase) / pageSize ∉ u.freeFrameList
  unreferenced : ∀ f ∈ u.freeFrameList, (u.framesInfo f).references = 0
  referenced : ∀ f < t.numberOfFrames, f ∉ u.freeFrameList → (u.framesInfo f).references = 1

/-- The frames before the end of boot memory are those that start before `ptr_free_mem`. -/
theorem endOfBoot_le_iff (hle : kernelBase ≤ s.ptrFreeMem) (hlt : s.ptrFreeMem < 2 ^ 32) :
    s.endOfBoot ≤ f ↔ s.ptrFreeMem ≤ kernelBase + pageSize * f := by
  rw [endOfBoot, roundUp, u32_of_lt, roundDown]
  · simp only [kernelBase, pageSize] at *
    omega
  · simp only [kernelBase, pageSize] at *
    omega

theorem pageSize_dvd_frame (f : ℕ) : pageSize ∣ kernelBase + pageSize * f :=
  Nat.dvd_add ⟨kernelBase / pageSize, by decide⟩ ⟨f, rfl⟩

/-- Boot allocations and free frames are apart, when the allocations stay in memory and
leave `ptr_free_mem` below the end of the address space. -/
theorem bootAllocations_contract (hzero : s.ptrFreeMem = 0) (hkernel : kernelBase + physExtendedMem ≤ endOfKernel)
    (hne : calls ≠ []) (halign : ∀ c ∈ calls, ∃ k < 32, c.2 = 2 ^ k)
    (hmem : placedEnd endOfKernel calls ≤ kernelBase + pageSize * s.numberOfFrames)
    (htop : placedEnd endOfKernel calls < 2 ^ 32) : ∃ ps t u, (bootAllocations endOfKernel calls).run s = .ok (ps, t) ∧
      initializePaging.run t = .ok ((), u) ∧ BootContract endOfKernel calls ps t u := by
  have hpos : ∀ c ∈ calls, 0 < c.2 := fun c hc => pos_of_two_pow (halign c hc)
  have hend := le_placedEnd (p := endOfKernel) hpos
  have hrun := bootAllocations_first hzero ((Nat.zero_lt_of_lt (by decide : 0 < kernelBase)).trans_le
    ((Nat.le_add_right _ _).trans hkernel)) hne halign htop
  set t : Machine := { s with ptrFreeMem := placedEnd endOfKernel calls } with ht
  have hbase : kernelBase + physExtendedMem ≤ t.ptrFreeMem := hkernel.trans hend
  have hiff (f : ℕ) : t.endOfBoot ≤ f ↔ t.ptrFreeMem ≤ kernelBase + pageSize * f :=
    endOfBoot_le_iff ((Nat.le_add_right _ _).trans hbase) htop
  have hext : physExtendedMem / pageSize ≤ t.endOfBoot := by
    by_contra hlt
    have := (hiff (physExtendedMem / pageSize - 1)).mp (by omega)
    simp only [physExtendedMem, pageSize] at this hbase
    omega
  obtain ⟨u, hpaging, hu⟩ := initializePaging_tiles (s := t)
    ((by decide : kernelBase + pageSize * 3 ≤ kernelBase + physExtendedMem).trans hbase) hext ((hiff _).mpr hmem)
  -- what lies between the extended memory and `ptr_free_mem` is in no free frame
  have hused (a : ℕ) (hlow : kernelBase + physExtendedMem ≤ a) (hlt : a < t.ptrFreeMem) :
      (a - kernelBase) / pageSize ∉ u.freeFrameList := by
    rw [hu.mem_free, Machine.Managed, hiff]
    simp only [physIOMem, physExtendedMem, kernelBase, pageSize] at *
    omega
  refine ⟨placed endOfKernel calls, t, u, hrun, hpaging, ?_⟩
  have hio : physIOMem / pageSize = 160 := by decide
  have hex : physExtendedMem / pageSize = 256 := by decide
  constructor
  · exact length_placed endOfKernel calls
  · exact fun x hx => dvd_of_mem_placed hx
  · exact fun x hx => (mem_placed_bounds hpos hx).1
  · exact placed_pairwise hpos
  · exact hu.nodup
  · intro f
    rw [hu.mem_free, Machine.Managed, hiff, alignUp_le_iff (by decide) (pageSize_dvd_frame f), and_comm (a := f < _)]
  · exact fun a hlow hlt => hused a hlow (hlt.trans_le hend)
  · intro f hlow hlt
    rw [hu.mem_free, Machine.Managed]
    omega
  · rw [hu.mem_free, Machine.Managed, hio]
    simp only [ptrZeroPage, kernelBase, pageSize]
    omega
  · rw [hu.mem_free, Machine.Managed, hio]
    simp only [ptrTempPage, kernelBase, pageSize]
    omega
  · intro x hx a hlow hlt
    obtain ⟨hle, hlast⟩ := mem_placed_bounds hpos hx
    exact hused a (hkernel.trans (hle.trans hlow)) (hlt.trans_le hlast)
  · intro f hf
    rw [hu.infos, if_pos ((hu.mem_free f).mp hf)]
    rfl
  · intro f hf hfree
    have hmanaged := mt (hu.mem_free f).mpr hfree
    rw [hu.infos, if_neg hmanaged]
    rw [Machine.Managed] at hmanaged
    have hlt : f < t.numberOfFrames := hf
    rw [if_pos (by omega)]

/-- Two allocations of different alignments behind a kernel of 4 MB. -/
theorem bootAllocations_contract_two : ∃ ps t u,
    (bootAllocations (kernelBase + 2 ^ 22) [(4096, 4096), (100, 8)]).run { bootMachine with ptrFreeMem := 0 } =
      .ok (ps, t) ∧ initializePaging.run t = .ok ((), u) ∧
      BootContract (kernelBase + 2 ^ 22) [(4096, 4096), (100, 8)] ps t u :=
  bootAllocations_contract rfl (by decide) (by simp) (by simpa using ⟨⟨12, by decide⟩, 3, by decide⟩) (by decide) (by decide)

/-- Without an allocation there is no end of boot memory. -/
theorem initializePaging_unallocated :
    initializePaging.run { bootMachine with ptrFreeMem := 0 } = .error .invalidVA := by
  have htrans (u : Machine) (hu : u.cr3 = 4096 * 320) (hptr : u.ptrFreeMem = 0)
      (hdir : u.ram 320 = bootMachine.ram 320) (htab : u.ram 322 = bootMachine.ram 322) (k : ℕ) (hk : k < 3) :
      u.translate (PageEntries.permPresent ||| PageEntries.permWriteable) (kernelBase + pageSize * k) = some k := by
    have hpdx : pdx (kernelBase + pageSize * k) = 960 := by
      simp only [pdx, kernelBase, pageSize]
      omega
    have hptx : ptx (kernelBase + pageSize * k) = k := by
      simp only [ptx, kernelBase, pageSize]
      omega
    have hpde : u.pde (kernelBase + pageSize * k) = 4096 * 322 + 3 := by
      rw [pde, hu, hpdx, show PageEntries.frameNumber (4096 * 320) = 320 by decide, hdir]
      decide
    have hpte : u.pte (kernelBase + pageSize * k) = 4096 * k + 3 := by
      rw [pte, hpde, hptx, show PageEntries.frameNumber (4096 * 322 + 3) = 322 by decide, htab]
      rcases (by omega : k = 0 ∨ k = 1 ∨ k = 2) with rfl | rfl | rfl <;> decide
    rw [translate, if_neg (by omega), hpde, hpte]
    rcases (by omega : k = 0 ∨ k = 1 ∨ k = 2) with rfl | rfl | rfl <;> decide
  set s₁ : Machine := (((({ bootMachine with ptrFreeMem := 0 } : Machine).setFree []).useFrame 0).useFrame 1).useFrame 2
  have hc₁ := clearBytes_run (htrans s₁ rfl rfl rfl rfl 1 (by decide))
  set s₂ := s₁.setFrame 1 fun o => if o.val < 1024 then 0 else s₁.ram 1 o
  have hc₂ := clearBytes_run
    (htrans s₂ rfl rfl (setFrame_ram_of_ne (by decide)) (setFrame_ram_of_ne (by decide)) 2 (by decide))
  obtain ⟨s₄, hr₄, hm₄, -, -⟩ := freeFrames_run (s₂.setFrame 2 fun o => if o.val < 1024 then 0 else s₂.ram 2 o) 3 157
  obtain ⟨s₅, hr₅, hm₅, -, -⟩ := markUsed_loop_run s₄ 160 96
  have hptr : s₅.ptrFreeMem = 0 := by
    rw [hm₅.ptrFreeMem, hm₄.ptrFreeMem]
    rfl
  have hpa : (staticKernelPhysicalAddress s₅.ptrFreeMem).run s₅ = .error .invalidVA := by
    rw [staticKernelPhysicalAddress, hptr, if_pos (by decide)]
    rfl
  rw [initializePaging, run_bind_ok (run_modify _), markUsed, run_bind_ok (run_modify _), markUsed,
    run_bind_ok (run_modify _), markUsed, run_bind_ok (run_modify _),
    show ptrZeroPage = kernelBase + pageSize * 1 by decide, show ptrTempPage = kernelBase + pageSize * 2 by decide,
    run_bind_ok hc₁, run_bind_ok hc₂, show roundUp physIOMem pageSize / pageSize - 3 = 157 by decide,
    show physIOMem / pageSize = 160 by decide, show physExtendedMem / pageSize - 160 = 96 by decide,
    run_bind_ok hr₄, run_bind_ok hr₅, run_bind_ok run_get, run_bind_error hpa]

/-- No calls at all: the sequence stays in memory, but paging is not initialised. -/
theorem bootAllocations_none : ¬ ∀ (s : Machine) (endOfKernel : ℕ) (calls : List (ℕ × ℕ)), s.ptrFreeMem = 0 →
    kernelBase + physExtendedMem ≤ endOfKernel → (∀ c ∈ calls, ∃ k < 32, c.2 = 2 ^ k) →
    placedEnd endOfKernel calls ≤ kernelBase + pageSize * s.numberOfFrames → ∃ ps t u,
      (bootAllocations endOfKernel calls).run s = .ok (ps, t) ∧ initializePaging.run t = .ok ((), u) ∧
        BootContract endOfKernel calls ps t u := by
  intro hall
  obtain ⟨ps, t, u, hrun, hpaging, -⟩ := hall { bootMachine with ptrFreeMem := 0 } (kernelBase + 2 ^ 22) [] rfl (by decide)
    (by simp) (by decide)
  cases hrun
  exact absurd (initializePaging_unallocated.symm.trans hpaging) (by simp)

end FosKernel.Machine
