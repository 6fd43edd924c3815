import QnxStartup.EfiMap
import QnxStartup.RamImport
import Mathlib.Data.List.Pairwise

/-! `init_raminfo_efi`: everything that is not conventional memory is avoided before any RAM
is known, so nothing that startup takes for itself lies there. -/

namespace QnxStartup

def avoidsOf (calls : List RamCall) : Set Nat := {x | ∃ a n, .avoidRam a n ∈ calls ∧ x ∈ bytes a n}

def addsOf (calls : List RamCall) : Set Nat := {x | ∃ a n, .addRam a n ∈ calls ∧ x ∈ bytes a n}

theorem avoidsOf_append (l m : List RamCall) : avoidsOf (l ++ m) = avoidsOf l ∪ avoidsOf m := by
  ext x
  simp [avoidsOf, or_and_right, exists_or]

theorem addsOf_append (l m : List RamCall) : addsOf (l ++ m) = addsOf l ∪ addsOf m := by
  ext x
  simp [addsOf, or_and_right, exists_or]

theorem foldl_effect_subset (boot : Boot) (calls : List RamCall) (free : Set Nat) :
    calls.foldl (RamCall.effect boot) free ⊆ free ∪ addsOf calls := by
  induction calls generalizing free with
  | nil => exact Set.subset_union_left
  | cons c calls ih =>
    rw [← List.singleton_append, addsOf_append, ← Set.union_assoc]
    refine (ih _).trans (Set.union_subset_union_left _ fun x hx => ?_)
    cases c with
    | avoidRam start size => exact .inl hx
    | addRam start size =>
      rcases hx.1 with hx | hx
      · exact .inl hx
      · exact .inr ⟨start, size, by simp, hx⟩
    | allocRam addr size align => exact .inl hx.1

/-- No range is avoided once RAM was added. -/
def AvoidsFirst (calls : List RamCall) : Prop :=
  ∀ pre a n post, calls = pre ++ .avoidRam a n :: post → addsOf pre = ∅

theorem AvoidsFirst.append {l rest : List RamCall} (hl : addsOf l = ∅)
    (hrest : ∀ a n, .avoidRam a n ∉ rest) :
    AvoidsFirst (l ++ rest) := by
  intro pre a n post h
  rcases List.append_eq_append_iff.mp h with ⟨mid, rfl, hmid⟩ | ⟨mid, rfl, hmid⟩
  · exact absurd (by rw [hmid]; simp) (hrest a n)
  · rw [addsOf_append, Set.union_empty_iff] at hl
    exact hl.1

theorem AvoidsFirst.avoidsOf_eq {done rest : List RamCall} (h : AvoidsFirst (done ++ rest))
    (hne : addsOf done ≠ ∅) :
    avoidsOf (done ++ rest) = avoidsOf done := by
  rw [avoidsOf_append, Set.union_eq_left]
  rintro x ⟨a, n, hc, -⟩
  obtain ⟨pre, post, rfl⟩ := List.append_of_mem hc
  have hpre := h (done ++ pre) a n post (by simp)
  rw [addsOf_append, Set.union_empty_iff] at hpre
  exact absurd hpre.1 hne

/-- No RAM is known yet, and the ranges avoided so far do not wrap. -/
structure RamState.BeforeRam (s : RamState) : Prop where
  inv : ImportInv s .empty
  stop : ∀ a ∈ s.avoidList, a.stop ≠ 0

theorem wsInit_beforeRam {boot : Boot} (hboot : boot.Physical) {secure : Bool} {mem : Mem}
    {s : RamState} (h : wsInit boot (.atBoot secure mem) = .ok s) : s.BeforeRam := by
  have hinv := wsInit_inv hboot h
  obtain ⟨himage, hlists⟩ := hboot
  have hws : s.wsEarlyNext = u64 (u64 (boot.wsStart + maxAvoidListSize) + maxRamListSize) := by
    rw [wsInit_eq] at h
    obtain ⟨l, rfl, -⟩ := noteAvoid_eq h
    rfl
  refine ⟨⟨hinv.holds, hinv.ws, hinv.noSysram, ?_, fun a ha => (hinv.avoid a ha).1.le, by simp⟩,
    fun a ha => ?_⟩
  · rw [hws]
    simp only [maxAvoidListSize, maxRamListSize] at hlists ⊢
    rw [u64_of_lt (by omega : boot.wsStart + 1024 < 2 ^ 64), u64_of_lt (by omega)]
    omega
  · have := (hinv.avoid a ha).1
    omega

theorem imola_physical : imolaBoot.Physical := by
  constructor <;> decide

section

variable [SyspageHeader] {boot : Boot} {ok : RamState → ImportAct → Prop} {s₀ s : RamState}
  {calls done : List RamCall} {past : List Event}

/-- The run so far, of an importer that avoids first. -/
structure ImportRun.AvoidInv (boot : Boot) (calls done : List RamCall) (past : List Event)
    (s : RamState) (f : FreeList) :
    Prop where
  inv : ImportInv s f
  free : f.bytes = done.foldl (RamCall.effect boot) ∅
  avoid : avoidsOf done ⊆ avoided (inForce s.avoidList)
  stop : addsOf done = ∅ → ∀ a ∈ s.avoidList, a.stop ≠ 0
  given : ∀ a n al, .given a n al ∈ past → bytes a n ⊆ addsOf calls \ avoidsOf calls

omit [SyspageHeader] in
theorem ImportAct.calls_eq_singleton {act : ImportAct} {c : RamCall} (hc : c ∈ act.calls) :
    act.calls = [c] := by
  cases act with
  | call c' => rw [ImportAct.calls, List.mem_singleton.mp hc]
  | wsAlloc => simp [ImportAct.calls] at hc

theorem ImportRun.avoidInv (h0 : s₀.BeforeRam) (hcalls : ∀ c ∈ calls, c.NoWrap)
    (hfirst : AvoidsFirst calls) (run : ImportRun boot ok s₀ done past s) (hdone : done <+: calls) :
    ∃ f, AvoidInv boot calls done past s f := by
  induction run with
  | start => exact ⟨.empty, h0.inv, by simp, by simp [avoidsOf], fun _ => h0.stop, by simp⟩
  | @step done past new s s' act run hok hstep ih =>
    obtain ⟨f, h⟩ := ih ((List.prefix_append ..).trans hdone)
    obtain ⟨f', h'⟩ := hstep.imported h.inv fun c hc => hcalls c (hdone.subset (by simp [hc]))
    obtain ⟨rest, rfl⟩ := hdone
    have hfree : f'.bytes = (done ++ act.calls).foldl (RamCall.effect boot) ∅ := by
      rw [h'.free, h.free, List.foldl_append]
    have hsub : f'.bytes ⊆ addsOf (done ++ act.calls) := by
      rw [hfree]
      exact (foldl_effect_subset boot _ ∅).trans (Set.empty_union _).subset
    -- a range is only avoided while no RAM is known
    have hnone : ∀ a n, .avoidRam a n ∈ act.calls → addsOf (done ++ act.calls) = ∅ := by
      intro a n hc
      rw [ImportAct.calls_eq_singleton hc] at hfirst ⊢
      rw [addsOf_append, hfirst done a n rest (by simp), Set.empty_union]
      simp [addsOf]
    have hstop : addsOf (done ++ act.calls) = ∅ → ∀ a ∈ s.avoidList, a.stop ≠ 0 := fun he => by
      rw [addsOf_append, Set.union_empty_iff] at he
      exact h.stop he.1
    refine ⟨f', h'.inv, hfree, ?_,
      fun he => (h'.covers (hstop he)).2 (Set.subset_empty_iff.mp (he ▸ hsub)), fun a n al hg => ?_⟩
    · rw [avoidsOf_append]
      refine Set.union_subset (h.avoid.trans h'.mono) ?_
      rintro x ⟨a, n, hc, hx⟩
      exact (h'.covers (hstop (hnone a n hc))).1 a n hc hx
    · rcases List.mem_append.mp hg with hg | hg
      · intro x hx
        obtain ⟨hxf, hxa⟩ := h'.given a n al hg hx
        have hne : addsOf (done ++ act.calls) ≠ ∅ := Set.Nonempty.ne_empty ⟨x, hsub hxf⟩
        refine ⟨?_, fun hxav => ?_⟩
        · rw [addsOf_append]
          exact .inl (hsub hxf)
        · rw [hfirst.avoidsOf_eq hne, avoidsOf_append] at hxav
          rcases hxav with hxav | ⟨a', n', hc, -⟩
          · exact hxa (h.avoid hxav)
          · exact hne (hnone a' n' hc)
      · exact h.given a n al hg

end

def EfiDescriptor.bytes (d : EfiDescriptor) : Set Nat :=
  QnxStartup.bytes d.physicalStart (0x1000 * d.numberOfPages)

/-- A range of pages that does not wrap. -/
structure EfiDescriptor.Valid (d : EfiDescriptor) : Prop where
  pages : 0 < d.numberOfPages
  aligned : 0x1000 ∣ d.physicalStart
  bound : d.physicalStart + 0x1000 * d.numberOfPages < 2 ^ 64

structure ValidMap (map : List EfiDescriptor) : Prop where
  nonempty : map ≠ []
  valid : ∀ d ∈ map, d.Valid
  apart : map.Pairwise fun d d' => Disjoint d.bytes d'.bytes

def bytesOf (p : EfiMemoryType → Bool) (map : List EfiDescriptor) : Set Nat :=
  {x | ∃ d ∈ map, p d.type ∧ x ∈ d.bytes}

/-- All but conventional memory. -/
def EfiMemoryType.isOther (t : EfiMemoryType) : Bool := t ≠ .conventionalMemory

def EfiMemoryType.isConventional (t : EfiMemoryType) : Bool := t = .conventionalMemory

section

variable {boot : Boot} {d : EfiDescriptor} {map : List EfiDescriptor} {p q : EfiMemoryType → Bool}

theorem bytesOf_cons (p : EfiMemoryType → Bool) (d : EfiDescriptor) (map : List EfiDescriptor) :
    bytesOf p (d :: map) = (if p d.type then d.bytes else ∅) ∪ bytesOf p map := by
  ext x
  by_cases h : p d.type <;> simp [bytesOf, h]

theorem bytesOf_perm {map' : List EfiDescriptor} (h : map.Perm map') (p : EfiMemoryType → Bool) :
    bytesOf p map = bytesOf p map' := by
  ext x
  simp [bytesOf, h.mem_iff]

theorem ValidMap.perm {map' : List EfiDescriptor} (h : ValidMap map) (hp : map'.Perm map) :
    ValidMap map' :=
  ⟨fun hnil => h.nonempty (List.Perm.nil_eq (hnil ▸ hp)).symm,
    fun d hd => h.valid d (hp.mem_iff.mp hd), (hp.pairwise_iff fun hd => hd.symm).mpr h.apart⟩

theorem ValidMap.disjoint (h : ValidMap map) (hpq : ∀ t, ¬ (p t ∧ q t)) :
    Disjoint (bytesOf p map) (bytesOf q map) := by
  rw [Set.disjoint_left]
  rintro x ⟨d, hd, hp, hx⟩ ⟨d', hd', hq, hx'⟩
  have hne : d ≠ d' := fun he => hpq d.type ⟨hp, he ▸ hq⟩
  have : Std.Symm fun d d' : EfiDescriptor => Disjoint d.bytes d'.bytes := ⟨fun _ _ hh => hh.symm⟩
  exact Set.disjoint_left.mp (h.apart.forall hd hd' hne) hx hx'

theorem EfiDescriptor.Valid.size_eq (h : d.Valid) : d.size = 0x1000 * d.numberOfPages :=
  u64_of_lt (by have := h.bound; omega)

theorem EfiDescriptor.Valid.bytes_eq (h : d.Valid) :
    QnxStartup.bytes d.physicalStart d.size = d.bytes := by
  rw [h.size_eq, EfiDescriptor.bytes]

theorem foldl_adds {calls : List RamCall} (h : ∀ c ∈ calls, ∃ a n, c = .addRam a n) {free : Set Nat}
    (hf : Disjoint free boot.imageTail) :
    calls.foldl (RamCall.effect boot) free = (free ∪ addsOf calls) \ boot.imageTail := by
  induction calls generalizing free with
  | nil => simp [addsOf, hf.sdiff_eq_left]
  | cons c calls ih =>
    obtain ⟨a, n, rfl⟩ := h c (by simp)
    have hnext : Disjoint (RamCall.effect boot free (.addRam a n)) boot.imageTail :=
      Set.disjoint_sdiff_left
    rw [List.foldl_cons, ih (fun c hc => h c (by simp [hc])) hnext, ← List.singleton_append,
      addsOf_append]
    have hone : addsOf [.addRam a n] = bytes a n := by
      ext x
      simp [addsOf]
    rw [hone]
    ext x
    simp only [RamCall.effect, Set.mem_sdiff, Set.mem_union]
    tauto

theorem RamCall.noWrap_addRam_pages {start k : Nat} (hd : 0x1000 ∣ start)
    (hb : start + 0x1000 * k < 2 ^ 64) :
    (RamCall.addRam start (0x1000 * k)).NoWrap := by
  refine ⟨hb, fun x hx => ?_⟩
  obtain ⟨j, rfl⟩ := hd
  rw [mem_bytes] at hx
  unfold pageSize
  omega

theorem addsOf_cons_addRam (start size : Nat) (calls : List RamCall) :
    addsOf (.addRam start size :: calls) = bytes start size ∪ addsOf calls := by
  ext x
  simp [addsOf, or_and_right, exists_or]

/-- A descriptor that goes on where the run ends makes it longer. -/
theorem efiRun_joined {d : EfiDescriptor} {k j : Nat} (hd : d.Valid)
    (hnext : d.physicalStart = 0x1000 * j + 0x1000 * k) :
    u64 (0x1000 * k + d.size) = 0x1000 * (k + d.numberOfPages) ∧
      0x1000 * j + 0x1000 * (k + d.numberOfPages) < 2 ^ 64 ∧
      bytes (0x1000 * j) (0x1000 * (k + d.numberOfPages)) =
        bytes (0x1000 * j) (0x1000 * k) ∪ d.bytes := by
  have hbound := hd.bound
  refine ⟨?_, by omega, ?_⟩
  · rw [hd.size_eq, Nat.mul_add]
    exact u64_of_lt (by omega)
  · ext x
    simp only [EfiDescriptor.bytes, Set.mem_union, mem_bytes]
    omega

theorem efiAdd_calls {curStart curSize : Nat} (hmap : ∀ d ∈ map, d.Valid)
    (hcur : curStart = 2 ^ 64 - 1 ∧ curSize = 0 ∨
      ∃ k, 0 < k ∧ curSize = 0x1000 * k ∧ 0x1000 ∣ curStart ∧ curStart + 0x1000 * k < 2 ^ 64) :
    (∀ c ∈ efiAdd map curStart curSize, ∃ a n, c = .addRam a n ∧ c.NoWrap) ∧
      addsOf (efiAdd map curStart curSize) =
        bytes curStart curSize ∪ bytesOf EfiMemoryType.isRam map := by
  have hwrap : (RamCall.addRam curStart curSize).NoWrap := by
    obtain ⟨rfl, rfl⟩ | ⟨k, -, rfl, hd, hb⟩ := hcur
    · exact ⟨by decide, by simp⟩
    · exact RamCall.noWrap_addRam_pages hd hb
  induction map generalizing curStart curSize with
  | nil =>
    unfold efiAdd
    split
    · refine ⟨fun c hc => ⟨curStart, curSize, List.mem_singleton.mp hc,
        List.mem_singleton.mp hc ▸ hwrap⟩, ?_⟩
      rw [addsOf_cons_addRam]
      simp [addsOf, bytesOf]
    · next h =>
      rw [not_not.mp h]
      simp [addsOf, bytesOf]
  | cons d map ih =>
    have hd := hmap d (by simp)
    have hrest := fun d hd => hmap d (List.mem_cons_of_mem _ hd)
    have hnew : ∃ k, 0 < k ∧ d.size = 0x1000 * k ∧ 0x1000 ∣ d.physicalStart ∧
        d.physicalStart + 0x1000 * k < 2 ^ 64 :=
      ⟨d.numberOfPages, hd.pages, hd.size_eq, hd.aligned, hd.bound⟩
    have hdwrap : (RamCall.addRam d.physicalStart d.size).NoWrap := by
      rw [hd.size_eq]
      exact RamCall.noWrap_addRam_pages hd.aligned hd.bound
    unfold efiAdd
    rw [bytesOf_cons]
    by_cases ht : d.type.isRam = true
    · simp only [ht, if_true]
      rw [u64_of_lt hwrap.1]
      by_cases hnext : d.physicalStart = curStart + curSize
      · rw [if_pos hnext]
        obtain ⟨rfl, rfl⟩ | ⟨k, hk, rfl, ⟨j, rfl⟩, hb⟩ := hcur
        · have := hd.aligned
          omega
        obtain ⟨hsize, hbound, hunion⟩ := efiRun_joined hd hnext
        rw [hsize, ← Set.union_assoc, ← hunion]
        exact ih hrest (.inr ⟨_, by omega, rfl, Nat.dvd_mul_right .., hbound⟩)
          (RamCall.noWrap_addRam_pages (Nat.dvd_mul_right ..) hbound)
      · rw [if_neg hnext]
        obtain ⟨h1, h2⟩ := ih hrest (.inr hnew) hdwrap
        refine ⟨fun c hc => ?_, ?_⟩
        · rcases List.mem_cons.mp hc with rfl | hc
          · exact ⟨_, _, rfl, hwrap⟩
          · exact h1 c hc
        · rw [addsOf_cons_addRam, h2, hd.bytes_eq]
    · simp only [ht, Bool.false_eq_true, if_false, Set.empty_union]
      exact ih hrest hcur hwrap

theorem efiAvoid_calls (hmap : ∀ d ∈ map, d.Valid) :
    (∀ c ∈ map.flatMap efiAvoid, ∃ a n, c = .avoidRam a n ∧ c.NoWrap) ∧
      avoidsOf (map.flatMap efiAvoid) = bytesOf EfiMemoryType.isOther map := by
  induction map with
  | nil => simp [avoidsOf, bytesOf]
  | cons d map ih =>
    obtain ⟨h1, h2⟩ := ih fun d hd => hmap d (by simp [hd])
    have hd := hmap d (by simp)
    have hone : (∀ c ∈ efiAvoid d, ∃ a n, c = .avoidRam a n ∧ c.NoWrap) ∧
        avoidsOf (efiAvoid d) = if d.type.isOther then d.bytes else ∅ := by
      have hwrap : (RamCall.avoidRam d.physicalStart d.size).NoWrap := by
        rw [hd.size_eq]
        exact ⟨Nat.mul_pos (by decide) hd.pages, hd.bound⟩
      have hbytes : avoidsOf [.avoidRam d.physicalStart d.size] = d.bytes := by
        rw [← hd.bytes_eq]
        ext x
        simp [avoidsOf]
      unfold efiAvoid
      cases ht : d.type
      case conventionalMemory => simp [avoidsOf, EfiMemoryType.isOther]
      all_goals exact ⟨fun c hc => ⟨_, _, List.mem_singleton.mp hc,
        List.mem_singleton.mp hc ▸ hwrap⟩, hbytes⟩
    rw [List.flatMap_cons, avoidsOf_append, bytesOf_cons, h2, hone.2]
    exact ⟨fun c hc => (List.mem_append.mp hc).elim (hone.1 c) (h1 c), rfl⟩

def EfiMemoryType.isTaken (t : EfiMemoryType) : Bool := t.isRam ∧ t ≠ .conventionalMemory

theorem efiAlloc_calls (boot : Boot) (hmap : ∀ d ∈ map, d.Valid) :
    (∀ c ∈ map.flatMap efiAlloc, ∃ a n, c = .allocRam a n 0 ∧ c.NoWrap) ∧
      ∀ free, (map.flatMap efiAlloc).foldl (RamCall.effect boot) free =
        free \ bytesOf EfiMemoryType.isTaken map := by
  induction map with
  | nil => simp [bytesOf]
  | cons d map ih =>
    obtain ⟨h1, h2⟩ := ih fun d hd => hmap d (by simp [hd])
    have hd := hmap d (by simp)
    rw [List.flatMap_cons, bytesOf_cons]
    by_cases ht : d.type.isRam ∧ d.type ≠ .conventionalMemory
    · have htaken : d.type.isTaken = true := by simpa [EfiMemoryType.isTaken] using ht
      rw [efiAlloc, if_pos ht, List.singleton_append, if_pos htaken]
      refine ⟨fun c hc => ?_, fun free => ?_⟩
      · rcases List.mem_cons.mp hc with rfl | hc
        · refine ⟨_, _, rfl, ?_, ?_⟩
          · have := hd.bound
            have := hd.pages
            unfold nullPaddr
            omega
          · rw [hd.size_eq]
            exact hd.bound
        · exact h1 c hc
      · rw [List.foldl_cons, h2, RamCall.effect, hd.bytes_eq, Set.sdiff_sdiff]
    · have htaken : ¬ d.type.isTaken = true := by simpa [EfiMemoryType.isTaken] using ht
      rw [efiAlloc, if_neg ht, List.nil_append, if_neg htaken, Set.empty_union]
      exact ⟨h1, h2⟩

theorem foldl_avoids {calls : List RamCall} (h : ∀ c ∈ calls, ∃ a n, c = .avoidRam a n)
    (free : Set Nat) :
    calls.foldl (RamCall.effect boot) free = free := by
  induction calls with
  | nil => rfl
  | cons c calls ih =>
    obtain ⟨a, n, rfl⟩ := h c (by simp)
    exact ih fun c hc => h c (by simp [hc])

theorem ValidMap.ram_sdiff_taken (h : ValidMap map) :
    bytesOf EfiMemoryType.isRam map \ bytesOf EfiMemoryType.isTaken map =
      bytesOf EfiMemoryType.isConventional map := by
  have hd : Disjoint (bytesOf EfiMemoryType.isConventional map)
      (bytesOf EfiMemoryType.isTaken map) :=
    h.disjoint fun t ht => by cases t <;> simp [EfiMemoryType.isConventional,
      EfiMemoryType.isTaken] at ht
  ext x
  constructor
  · rintro ⟨⟨d, hd, ht, hx⟩, hn⟩
    refine ⟨d, hd, ?_, hx⟩
    by_contra hc
    refine hn ⟨d, hd, ?_, hx⟩
    simpa [EfiMemoryType.isTaken, EfiMemoryType.isConventional, ht] using hc
  · intro hx
    refine ⟨?_, Set.disjoint_left.mp hd hx⟩
    obtain ⟨d, hd, ht, hx⟩ := hx
    refine ⟨d, hd, ?_, hx⟩
    cases hty : d.type <;> simp [hty, EfiMemoryType.isConventional] at ht
    rfl

/-- What the calls on a sorted map leave free. -/
theorem efiCalls_free (boot : Boot) {m : List EfiDescriptor} (hm : ValidMap m) :
    ((m.flatMap efiAvoid ++ efiAdd m (2 ^ 64 - 1) 0) ++ m.flatMap efiAlloc).foldl
      (RamCall.effect boot) ∅ = bytesOf EfiMemoryType.isConventional m \ boot.imageTail := by
  obtain ⟨hadd, hadds⟩ := efiAdd_calls hm.valid (.inl ⟨rfl, rfl⟩)
  rw [bytes_zero, Set.empty_union] at hadds
  have hadd' : ∀ c ∈ efiAdd m (2 ^ 64 - 1) 0, ∃ a n, c = .addRam a n := fun c hc => by
    obtain ⟨a, n, hc, -⟩ := hadd c hc
    exact ⟨a, n, hc⟩
  have hav' : ∀ c ∈ m.flatMap efiAvoid, ∃ a n, c = .avoidRam a n := fun c hc => by
    obtain ⟨a, n, hc, -⟩ := (efiAvoid_calls hm.valid).1 c hc
    exact ⟨a, n, hc⟩
  calc ((m.flatMap efiAvoid ++ efiAdd m (2 ^ 64 - 1) 0) ++ m.flatMap efiAlloc).foldl
         (RamCall.effect boot) ∅
    _ = ((efiAdd m (2 ^ 64 - 1) 0).foldl (RamCall.effect boot) ∅) \ bytesOf
        EfiMemoryType.isTaken m := by
      rw [List.foldl_append, List.foldl_append, foldl_avoids hav', (efiAlloc_calls boot hm.valid).2]
    _ = (bytesOf EfiMemoryType.isRam m \ boot.imageTail) \ bytesOf EfiMemoryType.isTaken m := by
      rw [foldl_adds hadd' (Set.empty_disjoint _), Set.empty_union, hadds]
    _ = bytesOf EfiMemoryType.isConventional m \ boot.imageTail := by
      rw [sdiff_right_comm, hm.ram_sdiff_taken]

theorem initRaminfoEfi_calls (boot : Boot) (h : ValidMap map) :
    (∀ c ∈ initRaminfoEfi map, c.NoWrap) ∧ AvoidsFirst (initRaminfoEfi map) ∧
      avoidsOf (initRaminfoEfi map) = bytesOf EfiMemoryType.isOther map ∧
      addsOf (initRaminfoEfi map) = bytesOf EfiMemoryType.isRam map ∧
      (initRaminfoEfi map).foldl (RamCall.effect boot) ∅ =
        bytesOf EfiMemoryType.isConventional map \ boot.imageTail := by
  have hperm := efiSortMap_perm map
  have hm := h.perm hperm
  rw [← bytesOf_perm hperm, ← bytesOf_perm hperm, ← bytesOf_perm hperm]
  simp only [initRaminfoEfi]
  generalize efiSortMap map = m at hm ⊢
  obtain ⟨hav, havoids⟩ := efiAvoid_calls hm.valid
  obtain ⟨hadd, hadds⟩ := efiAdd_calls hm.valid (.inl ⟨rfl, rfl⟩)
  have hal := (efiAlloc_calls boot hm.valid).1
  have hnoAdd : ∀ a n, .addRam a n ∉ m.flatMap efiAvoid := fun a n hc => by
    obtain ⟨_, _, hh, -⟩ := hav _ hc
    cases hh
  have hnoAdd' : ∀ a n, .addRam a n ∉ m.flatMap efiAlloc := fun a n hc => by
    obtain ⟨_, _, hh, -⟩ := hal _ hc
    cases hh
  have hnoAvoid : ∀ a n, .avoidRam a n ∉ efiAdd m (2 ^ 64 - 1) 0 ++ m.flatMap efiAlloc :=
    fun a n hc => by
    rcases List.mem_append.mp hc with hc | hc
    · obtain ⟨_, _, hh, -⟩ := hadd _ hc
      cases hh
    · obtain ⟨_, _, hh, -⟩ := hal _ hc
      cases hh
  rw [bytes_zero, Set.empty_union] at hadds
  have hnone : addsOf (m.flatMap efiAvoid) = ∅ := by simp [addsOf, hnoAdd]
  have hnone' : addsOf (m.flatMap efiAlloc) = ∅ := by simp [addsOf, hnoAdd']
  have hnoneAvoid : avoidsOf (efiAdd m (2 ^ 64 - 1) 0 ++ m.flatMap efiAlloc) = ∅ := by
    ext x
    simp only [avoidsOf, Set.mem_ofPred_eq, Set.mem_empty_iff_false, iff_false]
    rintro ⟨a, n, hc, -⟩
    exact hnoAvoid a n hc
  refine ⟨fun c hc => ?_, ?_, ?_, ?_, ?_⟩
  · rcases List.mem_append.mp hc with hc | hc
    · rcases List.mem_append.mp hc with hc | hc
      · obtain ⟨_, _, -, hw⟩ := hav c hc
        exact hw
      · obtain ⟨_, _, -, hw⟩ := hadd c hc
        exact hw
    · obtain ⟨_, _, -, hw⟩ := hal c hc
      exact hw
  · rw [List.append_assoc]
    exact .append hnone hnoAvoid
  · rw [List.append_assoc, avoidsOf_append, hnoneAvoid, Set.union_empty, havoids]
  · rw [addsOf_append, addsOf_append, hnone, hnone', Set.empty_union, Set.union_empty, hadds]
  · exact efiCalls_free boot hm

end

/-- The free list holds the conventional memory apart from the image, and what startup took
for itself on the way is conventional memory; an import that does not return has filled one
of the two arrays. -/
theorem efi_import [SyspageHeader] {boot : Boot} {s₀ : RamState} {map : List EfiDescriptor}
    (h0 : s₀.BeforeRam) (hmap : ValidMap map) :
    (∀ past s, ImportRun boot (fun _ _ => True) s₀ (initRaminfoEfi map) past s →
      (∃ f : FreeList, s.ramList.Holds f ∧
        f.bytes = bytesOf EfiMemoryType.isConventional map \ boot.imageTail) ∧
        ∀ a n al, .given a n al ∈ past → bytes a n ⊆ bytesOf EfiMemoryType.isConventional map ∧
          Disjoint (bytes a n) (bytesOf EfiMemoryType.isOther map)) ∧
    ∀ done c rest past s, initRaminfoEfi map = done ++ c :: rest →
      ImportRun boot (fun _ _ => True) s₀ done past s →
      (∃ s', c.run boot s = .ok s') ∨ c.run boot s = crash "RAM entry array overflow\n" ∨
        c.run boot s = crash "Avoid RAM entry array overflow\n" := by
  obtain ⟨hwrap, hfirst, havoids, hadds, hfree⟩ := initRaminfoEfi_calls boot hmap
  refine ⟨fun past s run => ?_, fun done c rest past s heq run => ?_⟩
  · obtain ⟨f, h⟩ := run.avoidInv h0 hwrap hfirst List.prefix_rfl
    refine ⟨⟨f, h.inv.holds, h.free.trans hfree⟩, fun a n al hg => ?_⟩
    have hsub := h.given a n al hg
    rw [hadds, havoids] at hsub
    refine ⟨fun x hx => ?_, Set.disjoint_left.mpr fun x hx => (hsub hx).2⟩
    obtain ⟨⟨d, hd, -, hxd⟩, hother⟩ := hsub hx
    refine ⟨d, hd, ?_, hxd⟩
    by_contra ht
    exact hother ⟨d, hd, by simpa [EfiMemoryType.isOther,
      EfiMemoryType.isConventional] using ht, hxd⟩
  · obtain ⟨f, h⟩ := run.avoidInv h0 hwrap hfirst (heq ▸ List.prefix_append ..)
    exact RamCall.run_cases h.inv (hwrap c (by simp [heq]))

def exampleMap : List EfiDescriptor :=
  [⟨.loaderData, 0x90000000, 0x10⟩, ⟨.conventionalMemory, 0x90010000, 0x100⟩,
    ⟨.conventionalMemory, 0x80000000, 0x80⟩]

theorem efi_import_example :
    let _ := qnxSyspageHeader
    ∃ s₀ past s, s₀.BeforeRam ∧ ImportRun imolaBoot (fun _ _ => True) s₀
      (initRaminfoEfi exampleMap) past s ∧ .given 0x80000000 0xc000 0x1000 ∈ past ∧
      (∃ f : FreeList, s.ramList.Holds f ∧
        f.bytes = bytesOf EfiMemoryType.isConventional exampleMap \ imolaBoot.imageTail) ∧
      ∀ a n al, .given a n al ∈ past → bytes a n ⊆ bytesOf EfiMemoryType.isConventional exampleMap ∧
        Disjoint (bytes a n) (bytesOf EfiMemoryType.isOther exampleMap) := by
  intro _
  let d := RamState.atBoot false fun _ => 0
  let s₀ := resultOr d (wsInit imolaBoot d)
  have h0 : s₀.BeforeRam :=
    wsInit_beforeRam imola_physical (eq_ok_resultOr d (by decide +kernel))
  have hcalls : initRaminfoEfi exampleMap =
      ((([] ++ [.avoidRam 0x90000000 0x10000] ++ [.addRam (2 ^ 64 - 1) 0]) ++
        [.addRam 0x80000000 0x80000]) ++
        [.addRam 0x90000000 0x110000]) ++ [.allocRam 0x90000000 0x10000 0] := by decide
  have hvalid : ∀ d ∈ exampleMap, d.Valid := by
    simp only [exampleMap, List.forall_mem_cons]
    exact ⟨⟨by decide, by decide, by decide⟩, ⟨by decide, by decide, by decide⟩,
      ⟨by decide, by decide, by decide⟩, nofun⟩
  have hmap : ValidMap exampleMap :=
    ⟨nofun, hvalid, by simp [exampleMap, EfiDescriptor.bytes, bytes, Set.Ico_disjoint_Ico]⟩
  have r0 : ImportRun imolaBoot (fun _ _ => True) s₀ [] [] s₀ := .start
  have r1 := r0.call (c := .avoidRam 0x90000000 0x10000) trivial
    (eq_ok_resultOr d (by decide +kernel))
  have r2 := r1.call (c := .addRam (2 ^ 64 - 1) 0) trivial (eq_ok_resultOr d (by decide +kernel))
  have r3 := r2.call (c := .addRam 0x80000000 0x80000) trivial
    (eq_ok_resultOr d (by decide +kernel))
  have r4 := r3.call (c := .addRam 0x90000000 0x110000) trivial
    (eq_ok_resultOr d (by decide +kernel))
  have r5 := r4.call (c := .allocRam 0x90000000 0x10000 0) trivial
    (eq_ok_resultOr d (by decide +kernel))
  rw [← hcalls] at r5
  exact ⟨s₀, _, _, h0, r5, by decide +kernel, (efi_import h0 hmap).1 _ _ r5⟩

end QnxStartup
