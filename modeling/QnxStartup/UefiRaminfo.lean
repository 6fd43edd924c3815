import QnxStartup.EfiRaminfo

/-! `init_raminfo_uefi`: the RAM is added first, and what the firmware still needs is
reserved or avoided after that. -/

namespace QnxStartup

/-- The walk of `do_raminfo` over the map, and whether it gets to the end: a type it does
not know is a crash. -/
def uefiWalk : List EfiDescriptor → Nat → Nat → List RamCall × Bool
  | [], startingPaddr, endingPaddr =>
    (if startingPaddr ≠ endingPaddr then [.addRam startingPaddr (sub64 endingPaddr startingPaddr)]
      else [], true)
  | d :: map, startingPaddr, endingPaddr =>
    match d.type with
    | .reservedMemoryType | .unusableMemory | .memoryMappedIo | .memoryMappedIoPortSpace =>
      uefiWalk map startingPaddr endingPaddr
    | .unknown => ([], false)
    | _ =>
      if d.physicalStart ≠ endingPaddr then
        let rest := uefiWalk map d.physicalStart (u64 (d.physicalStart + d.size))
        ((if startingPaddr ≠ nullPaddr then
          [.addRam startingPaddr (sub64 endingPaddr startingPaddr)] else []) ++ rest.1, rest.2)
      else uefiWalk map startingPaddr (u64 (endingPaddr + d.size))

/-- What `do_raminfo` does about an element of its `avoid_list`. -/
def uefiAvoid (d : EfiDescriptor) : List RamCall :=
  match d.type with
  | .acpiReclaimMemory | .acpiMemoryNVS | .palCode | .runtimeServicesCode | .runtimeServicesData =>
    [.allocRam d.physicalStart d.size 0]
  | .loaderCode | .loaderData | .bootServicesCode | .bootServicesData =>
    [.avoidRam d.physicalStart d.size]
  | _ => []

/-- The calls of `do_raminfo`, as long as the map it reads stays intact. -/
def doRaminfo (map : List EfiDescriptor) : List RamCall :=
  let walk := uefiWalk map nullPaddr nullPaddr
  if walk.2 then walk.1 ++ map.flatMap uefiAvoid else walk.1

/-- The memory of the firmware. -/
def EfiMemoryType.isFirmware : EfiMemoryType → Bool
  | .loaderCode | .loaderData | .bootServicesCode | .bootServicesData
  | .runtimeServicesCode | .runtimeServicesData
  | .acpiReclaimMemory | .acpiMemoryNVS | .reservedMemoryType => true
  | _ => false

/-- When startup takes memory in this step, nothing of `kept` is free at that point and not
avoided, or in the early workspace. -/
def KeptClear (boot : Boot) (kept : Set Nat) (s : RamState) : ImportAct → Prop
  | .call (.addRam start size) => s.tempSyspage = nullPaddr →
      Disjoint kept ((RamCall.addRam start size).effect boot s.free \ avoided (inForce s.avoidList))
  | .call _ => True
  | .wsAlloc size =>
    if s.ramList.size ≤ sizeofRamEntry then Disjoint kept (bytes s.wsEarlyNext size)
    else Disjoint kept (s.free \ avoided (inForce s.avoidList))

def Event.taken : Event → Set Nat
  | .early addr size => bytes addr size
  | .given addr size _ => bytes addr size
  | _ => ∅

section

variable {boot : Boot} {d : EfiDescriptor} {map : List EfiDescriptor}

/-- The run being gathered: none at first, then made of pages. -/
def PageRun (startingPaddr endingPaddr : Nat) : Prop :=
  startingPaddr = nullPaddr ∧ endingPaddr = nullPaddr ∨
    ∃ k, endingPaddr = startingPaddr + 0x1000 * k ∧ 0x1000 ∣ startingPaddr ∧
    startingPaddr + 0x1000 * k < 2 ^ 64

theorem PageRun.noWrap {startingPaddr endingPaddr : Nat} (h : PageRun startingPaddr endingPaddr)
    (hne : startingPaddr ≠ nullPaddr) :
    (RamCall.addRam startingPaddr (sub64 endingPaddr startingPaddr)).NoWrap := by
  obtain ⟨hn, -⟩ | ⟨k, rfl, hd, hb⟩ := h
  · exact absurd hn hne
  · rw [sub64_of_le hb (Nat.le_add_right ..), Nat.add_sub_cancel_left]
    exact RamCall.noWrap_addRam_pages hd hb

theorem EfiDescriptor.Valid.pageRun (h : d.Valid) :
    PageRun d.physicalStart (u64 (d.physicalStart + d.size)) := by
  rw [h.size_eq, u64_of_lt h.bound]
  exact .inr ⟨_, rfl, h.aligned, h.bound⟩

theorem PageRun.next {startingPaddr endingPaddr : Nat} (h : PageRun startingPaddr endingPaddr)
    (hd : d.Valid) (hnext : d.physicalStart = endingPaddr) :
    PageRun startingPaddr (u64 (endingPaddr + d.size)) := by
  have hbound := hd.bound
  obtain ⟨-, hn⟩ | ⟨k, hk, hdvd, hb⟩ := h
  · have := hd.aligned
    rw [hnext, hn] at this
    exact absurd this (by decide)
  · rw [hd.size_eq, ← hnext, u64_of_lt hbound]
    exact .inr ⟨k + d.numberOfPages, by omega, hdvd, by omega⟩

theorem uefiWalk_noWrap {startingPaddr endingPaddr : Nat} (hmap : ∀ d ∈ map, d.Valid)
    (hcur : PageRun startingPaddr endingPaddr) :
    ∀ c ∈ (uefiWalk map startingPaddr endingPaddr).1, c.NoWrap := by
  induction map generalizing startingPaddr endingPaddr with
  | nil =>
    intro c hc
    simp only [uefiWalk] at hc
    split_ifs at hc with hne
    · rw [List.mem_singleton.mp hc]
      refine hcur.noWrap fun hn => hne ?_
      obtain ⟨-, hn'⟩ | ⟨k, -, hd, -⟩ := hcur
      · rw [hn, hn']
      · rw [hn] at hd
        exact absurd hd (by decide)
    · cases hc
  | cons d map ih =>
    have hd := hmap d (by simp)
    have hrest := fun d hd => hmap d (List.mem_cons_of_mem _ hd)
    have hram : ∀ c ∈ (if d.physicalStart ≠ endingPaddr then
        ((if startingPaddr ≠ nullPaddr then
          [.addRam startingPaddr (sub64 endingPaddr startingPaddr)] else []) ++
          (uefiWalk map d.physicalStart (u64 (d.physicalStart + d.size))).1,
          (uefiWalk map d.physicalStart (u64 (d.physicalStart + d.size))).2)
        else uefiWalk map startingPaddr (u64 (endingPaddr + d.size))).1, c.NoWrap := fun c hc => by
      split_ifs at hc with hnext hne
      · rcases List.mem_append.mp hc with hc | hc
        · rw [List.mem_singleton.mp hc]
          exact hcur.noWrap hne
        · exact ih hrest hd.pageRun c hc
      · exact ih hrest hd.pageRun c hc
      · exact ih hrest (hcur.next hd (not_not.mp hnext)) c hc
    unfold uefiWalk
    cases d.type
    case reservedMemoryType | unusableMemory | memoryMappedIo | memoryMappedIoPortSpace =>
      exact ih hrest hcur
    case unknown => simp
    all_goals exact hram

theorem doRaminfo_noWrap (hmap : ∀ d ∈ map, d.Valid) : ∀ c ∈ doRaminfo map, c.NoWrap := by
  have hwalk := uefiWalk_noWrap hmap (.inl ⟨rfl, rfl⟩)
  have havoid : ∀ c ∈ map.flatMap uefiAvoid, c.NoWrap := fun c hc => by
    obtain ⟨d, hd, hc⟩ := List.mem_flatMap.mp hc
    have hv := hmap d hd
    have hsize : 0 < d.size ∧ d.physicalStart + d.size < 2 ^ 64 := by
      rw [hv.size_eq]
      exact ⟨Nat.mul_pos (by decide) hv.pages, hv.bound⟩
    have hne : d.physicalStart ≠ nullPaddr := by
      unfold nullPaddr
      omega
    unfold uefiAvoid at hc
    cases ht : d.type <;> simp only [ht, List.mem_singleton, List.not_mem_nil] at hc
    all_goals
      subst hc
      first | exact hsize | exact ⟨hne, hsize.2⟩
  intro c hc
  unfold doRaminfo at hc
  simp only at hc
  split_ifs at hc
  · exact (List.mem_append.mp hc).elim (hwalk c) (havoid c)
  · exact hwalk c hc

end

section

variable [SyspageHeader] {boot : Boot} {kept : Set Nat} {s₀ s s' : RamState} {f f₀ : FreeList}

theorem RamCall.tempSyspage_of_run {c : RamCall} (h : ImportInv s f) (hc : c.NoWrap)
    (hs' : c.run boot s = .ok s') :
    s'.tempSyspage = s.tempSyspage ∨ ∃ a n, c = .addRam a n ∧ s.tempSyspage = nullPaddr := by
  cases c with
  | avoidRam start size =>
    rw [RamCall.run, QnxStartup.avoidRam, ensureWs, if_pos h.ws] at hs'
    obtain ⟨l, rfl, -⟩ := noteAvoid_eq hs'
    exact .inl rfl
  | allocRam addr size align =>
    obtain ⟨⟨s1, a⟩, hs1, hs'⟩ := bind_eq_ok.mp hs'
    obtain rfl := Except.ok.inj hs'
    rcases allocRam_holds align h.holds h.noSysram (fun _ => hc.2) with ⟨l, m, a', f', hok, -⟩ | hcr
    · rw [hok] at hs1
      obtain ⟨rfl, -⟩ := Prod.mk.inj (Except.ok.inj hs1)
      exact .inl rfl
    · rw [hcr] at hs1
      cases hs1
  | addRam start size =>
    by_cases ht : s.tempSyspage = nullPaddr
    · exact .inr ⟨start, size, rfl, ht⟩
    · rw [RamCall.run] at hs'
      rcases addRam_claims boot h.holds h.noSysram hc.1 with ⟨t, l, m, f', heq, -⟩ | hcr
      · rw [heq, claimTempSyspage, if_neg ht] at hs'
        obtain rfl := Except.ok.inj hs'
        exact .inl rfl
      · rw [hcr] at hs'
        cases hs'

omit [SyspageHeader] in
theorem wsAlloc_early {size : Nat} {p : Option Nat} (h : ImportInv s f)
    (hphase : s.ramList.size ≤ sizeofRamEntry) (hs' : wsAlloc boot size s = .ok (s', p)) :
    p = some s.wsEarlyNext := by
  rcases wsAlloc_cases h.ws hs' with ⟨-, hp, -⟩ | ⟨hlater, -⟩ | ⟨hlater, -⟩
  · exact hp
  · exact absurd hphase hlater
  · exact absurd hphase hlater

theorem ImportStep.taken_disjoint {act : ImportAct} {new : List Event} (h : ImportInv s f)
    (hcs : ∀ c ∈ act.calls, c.NoWrap) (hclear : KeptClear boot kept s act)
    (hstep : ImportStep boot s act new s') :
    ∀ e ∈ new, Disjoint kept e.taken := by
  obtain ⟨f', h'⟩ := hstep.imported h hcs
  intro e he
  cases hstep with
  | call c hs' =>
    have hwrap := hcs c (List.mem_singleton_self c)
    unfold tempEvents at he
    split at he
    · next hne =>
      obtain ⟨a, n, rfl, ht⟩ := (RamCall.tempSyspage_of_run h hwrap hs').resolve_left hne
      obtain rfl := List.mem_singleton.mp he
      have hsub := h'.given _ _ _ (by rw [tempEvents, if_pos hne]; exact List.mem_singleton_self _)
      rw [h'.free, ← RamState.free_eq h.holds] at hsub
      exact (hclear ht).mono_right hsub
    · cases he
  | @wsAlloc _ size p hsize hearly hs' =>
    simp only [KeptClear] at hclear
    by_cases hphase : s.ramList.size ≤ sizeofRamEntry
    · rw [if_pos hphase] at hclear
      obtain rfl := wsAlloc_early h hphase hs'
      simp only [wsEvents, if_pos hphase] at he
      obtain rfl := List.mem_singleton.mp he
      exact hclear
    · rw [if_neg hphase] at hclear
      cases p with
      | none => cases he
      | some p =>
        simp only [wsEvents, if_neg hphase] at he
        obtain rfl := List.mem_singleton.mp he
        have hsub := h'.given p size 8 (by simp [wsEvents, hphase])
        have hfree : f'.bytes = s.free := h'.free.trans (RamState.free_eq h.holds).symm
        rw [hfree] at hsub
        exact hclear.mono_right hsub

theorem ImportRun.taken_disjoint {calls done : List RamCall} {past : List Event}
    (h0 : ImportInv s₀ f₀) (hcalls : ∀ c ∈ calls, c.NoWrap)
    (run : ImportRun boot (KeptClear boot kept) s₀ done past s) (hdone : done <+: calls) :
    (∃ f, ImportInv s f) ∧ ∀ e ∈ past, Disjoint kept e.taken := by
  induction run with
  | start => exact ⟨⟨f₀, h0⟩, by simp⟩
  | step run hok hstep ih =>
    obtain ⟨⟨f, h⟩, hpast⟩ := ih ((List.prefix_append ..).trans hdone)
    have hcs := fun c hc => hcalls c (hdone.subset (List.mem_append_right _ hc))
    obtain ⟨f', h'⟩ := hstep.imported h hcs
    refine ⟨⟨f', h'.inv⟩, fun e he => ?_⟩
    rcases List.mem_append.mp he with he | he
    · exact hstep.taken_disjoint h hcs hok e he
    · exact hpast e he

end

/-- No memory that startup takes during the import is the firmware's, or holds the map, in
every run whose steps meet the condition. -/
theorem uefi_import [SyspageHeader] {boot : Boot} {s₀ s : RamState} {f₀ : FreeList}
    {map : List EfiDescriptor} {buffer : Set Nat} {done : List RamCall} {past : List Event}
    (h0 : ImportInv s₀ f₀) (hmap : ValidMap map) (hdone : done <+: doRaminfo map)
    (run : ImportRun boot
      (KeptClear boot (bytesOf EfiMemoryType.isFirmware map ∪ buffer)) s₀ done past s) :
    ∀ e ∈ past, Disjoint e.taken (bytesOf EfiMemoryType.isFirmware map) ∧
      Disjoint e.taken buffer := by
  intro e he
  have h := (run.taken_disjoint h0 (doRaminfo_noWrap hmap.valid) hdone).2 e he
  rw [Set.disjoint_union_left] at h
  exact ⟨h.1.symm, h.2.symm⟩

/-- The first run is conventional memory, and the system page goes there. -/
theorem uefi_import_example :
    let _ := qnxSyspageHeader
    let map : List EfiDescriptor :=
      [⟨.conventionalMemory, 0x80000000, 0x80⟩, ⟨.loaderData, 0x90000000, 0x10⟩,
        ⟨.conventionalMemory, 0x90010000, 0x100⟩]
    let buffer := bytes 0x90000000 0x1000
    ∃ s₀ past s, s₀.BeforeRam ∧
      ImportRun imolaBoot (KeptClear imolaBoot (bytesOf EfiMemoryType.isFirmware map ∪ buffer)) s₀
        (doRaminfo map) past s ∧ .given 0x80000000 0xc000 0x1000 ∈ past ∧
      ∀ e ∈ past, Disjoint e.taken (bytesOf EfiMemoryType.isFirmware map) ∧
      Disjoint e.taken buffer := by
  intro _ map buffer
  let d := RamState.atBoot false fun _ => 0
  let s₀ := resultOr d (wsInit imolaBoot d)
  have h0 : s₀.BeforeRam :=
    wsInit_beforeRam imola_physical (eq_ok_resultOr d (by decide +kernel))
  have hvalid : ∀ d ∈ map, d.Valid := by
    simp only [map, List.forall_mem_cons]
    exact ⟨⟨by decide, by decide, by decide⟩, ⟨by decide, by decide, by decide⟩,
      ⟨by decide, by decide, by decide⟩, nofun⟩
  have hmap : ValidMap map :=
    ⟨nofun, hvalid, by simp [map, EfiDescriptor.bytes, bytes, Set.Ico_disjoint_Ico]⟩
  have hkept : ∀ x ∈ bytesOf EfiMemoryType.isFirmware map ∪ buffer, 0x90000000 ≤ x := by
    simp only [map, buffer, bytesOf_cons, EfiMemoryType.isFirmware, Bool.false_eq_true,
      if_false, if_true]
    rintro x ((hx | hx | hx | hx) | hx)
    · cases hx
    · exact hx.1
    · cases hx
    · obtain ⟨_, hd, -⟩ := hx
      cases hd
    · exact hx.1
  have hcalls : doRaminfo map =
      ([] ++ [.addRam 0x80000000 0x80000] ++ [.addRam 0x90000000 0x110000]) ++
      [.avoidRam 0x90000000 0x10000] := by decide
  have hclear : KeptClear imolaBoot (bytesOf EfiMemoryType.isFirmware map ∪ buffer) s₀
      (.call (.addRam 0x80000000 0x80000)) := fun _ => Set.disjoint_left.mpr fun x hx hfree => by
    have hlo := hkept x hx
    rw [RamState.free_eq h0.inv.holds, FreeList.bytes_empty] at hfree
    obtain hfree | hfree := hfree.1.1
    · cases hfree
    · have := hfree.2
      omega
  have r0 : ImportRun imolaBoot (KeptClear imolaBoot (bytesOf EfiMemoryType.isFirmware map ∪
      buffer)) s₀ [] [] s₀ := .start
  have r1 := r0.call (c := .addRam 0x80000000 0x80000) hclear (eq_ok_resultOr d (by decide +kernel))
  have r2 := r1.call (c := .addRam 0x90000000 0x110000) (fun ht => absurd ht (by decide +kernel))
    (eq_ok_resultOr d (by decide +kernel))
  have r3 := r2.call (c := .avoidRam 0x90000000 0x10000) trivial
    (eq_ok_resultOr d (by decide +kernel))
  rw [← hcalls] at r3
  exact ⟨s₀, _, _, h0, r3, by decide +kernel, uefi_import h0.inv hmap List.prefix_rfl r3⟩

/-- The map that `init_raminfo_efi` imports as it should. -/
theorem uefi_import_takes_loader :
    let _ := qnxSyspageHeader
    let map : List EfiDescriptor :=
      [⟨.loaderData, 0x90000000, 0x10⟩, ⟨.conventionalMemory, 0x90010000, 0x100⟩]
    ∃ s₀ past s, s₀.BeforeRam ∧ ValidMap map ∧
      ImportRun imolaBoot (fun _ _ => True) s₀ (doRaminfo map) past s ∧
      ∃ e ∈ past, ¬ Disjoint e.taken (bytesOf EfiMemoryType.isFirmware map) := by
  intro _ map
  let d := RamState.atBoot false fun _ => 0
  let s₀ := resultOr d (wsInit imolaBoot d)
  have h0 : s₀.BeforeRam :=
    wsInit_beforeRam imola_physical (eq_ok_resultOr d (by decide +kernel))
  have hvalid : ∀ d ∈ map, d.Valid := by
    simp only [map, List.forall_mem_cons]
    exact ⟨⟨by decide, by decide, by decide⟩, ⟨by decide, by decide, by decide⟩, nofun⟩
  have hmap : ValidMap map :=
    ⟨nofun, hvalid, by simp [map, EfiDescriptor.bytes, bytes, Set.Ico_disjoint_Ico]⟩
  have hcalls : doRaminfo map = ([] ++ [.addRam 0x90000000 0x110000]) ++
      [.avoidRam 0x90000000 0x10000] := by decide
  have r0 : ImportRun imolaBoot (fun _ _ => True) s₀ [] [] s₀ := .start
  have r1 := r0.call (c := .addRam 0x90000000 0x110000) trivial
    (eq_ok_resultOr d (by decide +kernel))
  have r2 := r1.call (c := .avoidRam 0x90000000 0x10000) trivial
    (eq_ok_resultOr d (by decide +kernel))
  rw [← hcalls] at r2
  refine ⟨s₀, _, _, h0, hmap, r2, .given 0x90000000 0xc000 0x1000, by decide +kernel, ?_⟩
  rw [Set.not_disjoint_iff]
  exact ⟨0x90000000, by simp [Event.taken, bytes], ⟨.loaderData, 0x90000000, 0x10⟩,
    by simp [map], rfl, by simp [EfiDescriptor.bytes, bytes]⟩

end QnxStartup
