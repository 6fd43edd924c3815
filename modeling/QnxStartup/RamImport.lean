import QnxStartup.HandedOut
import QnxStartup.RamCalls
import Mathlib.Data.List.TakeWhile

/-! A board's `init_raminfo` run against the allocator: its calls in their order, with
`ws_alloc` in between, and what startup takes for itself on the way. -/

namespace QnxStartup

theorem findRam_inForce (size align colour mask : Nat) (s : RamState) :
    findRam size align colour mask { s with avoidList := inForce s.avoidList } =
      findRam size align colour mask s := by
  simp only [findRam, findRamInRange]
  congr 2
  funext r
  simp only [findInBlock, fixSizes_inForce]

theorem findRam_clear {s : RamState} {f : FreeList} (hf : s.ramList.Holds f) {size k : Nat}
    (hk : k ≤ 63) (hb : ∀ x ∈ f.bytes, x + 2 ^ k < 2 ^ 64)
    (h : findRam size (2 ^ k) 0 0 s ≠ nullPaddr) :
    bytes (findRam size (2 ^ k) 0 0 s) size ⊆ f.bytes \ avoided (inForce s.avoidList) := by
  rw [← findRam_inForce] at h ⊢
  exact (findRam_sound (s := { s with avoidList := inForce s.avoidList }) hf
    (fun a ha => stop_ne_of_inForce ha) hk hb h).2

/-- A later entry does not change what the ones before it avoid. -/
theorem avoided_inForce_append (l m : List AvoidEntry) :
    avoided (inForce l) ⊆ avoided (inForce (l ++ m)) := by
  simp only [inForce, List.takeWhile_append]
  split
  · next h =>
    rw [(List.takeWhile_prefix _).eq_of_length h, avoided_append]
    exact Set.subset_union_left
  · exact subset_rfl

theorem avoided_inForce_grow (init : List AvoidEntry) {a b : AvoidEntry}
    (hstart : b.start = a.start) (hstop : a.stop ≤ b.stop) :
    avoided (inForce (init ++ [a])) ⊆ avoided (inForce (init ++ [b])) := by
  simp only [inForce, List.takeWhile_append]
  split
  · by_cases ha : a.stop = 0
    · simp only [List.takeWhile, ha, ne_eq, not_true_eq_false, decide_false, List.append_nil]
      rw [avoided_append]
      exact Set.subset_union_left
    · have hb : b.stop ≠ 0 := by omega
      simp only [List.takeWhile, ha, hb, ne_eq, not_false_eq_true, decide_true, avoided_append,
        avoided_singleton, hstart]
      exact Set.union_subset_union_right _ (Set.Ico_subset_Ico_right hstop)
  · exact subset_rfl

/-- `avoid_ram` of a range that does not wrap. -/
structure Noted (start size : Nat) (l l' : List AvoidEntry) : Prop where
  shaped : ∀ a ∈ l', a.start ≤ a.stop
  mono : avoided (inForce l) ⊆ avoided (inForce l')
  covers : (∀ a ∈ l, a.stop ≠ 0) → start + size ≠ 0 →
    (∀ a ∈ l', a.stop ≠ 0) ∧ bytes start size ⊆ avoided (inForce l')

theorem noteAvoid_noted {start size : Nat} {s s' : RamState} (h : noteAvoid start size s = .ok s')
    (hshaped : ∀ a ∈ s.avoidList, a.start ≤ a.stop) (hb : start + size < 2 ^ 64) :
    ∃ l, s' = { s with avoidList := l } ∧ Noted start size s.avoidList l := by
  obtain ⟨l, hs', hl⟩ := noteAvoid_eq h
  rw [u64_of_lt hb] at hl
  refine ⟨l, hs', ?_⟩
  rcases hl with rfl | ⟨init, last, hinit, rfl, rfl⟩
  · refine ⟨fun a ha => ?_, avoided_inForce_append .., fun hl hne => ?_⟩
    · rcases List.mem_append.mp ha with ha | ha
      · exact hshaped a ha
      · rw [List.mem_singleton.mp ha]
        exact Nat.le_add_right ..
    · have hstop : ∀ a ∈ s.avoidList ++ [⟨start, start + size⟩], a.stop ≠ 0 := fun a ha => by
        rcases List.mem_append.mp ha with ha | ha
        · exact hl a ha
        · rwa [List.mem_singleton.mp ha]
      refine ⟨hstop, ?_⟩
      rw [inForce_eq_self hstop, avoided_append, avoided_singleton]
      exact Set.subset_union_right
  · rw [hinit] at hshaped ⊢
    have hlast := hshaped last (by simp)
    refine ⟨fun a ha => ?_, avoided_inForce_grow init rfl (Nat.le_add_right ..), fun hl hne => ?_⟩
    · rcases List.mem_append.mp ha with ha | ha
      · exact hshaped a (by simp [ha])
      · rw [List.mem_singleton.mp ha]
        exact hlast.trans (Nat.le_add_right ..)
    · have hstop : ∀ a ∈ init ++ [⟨last.start, last.stop + size⟩], a.stop ≠ 0 := fun a ha => by
        rcases List.mem_append.mp ha with ha | ha
        · exact hl a (by simp [ha])
        · rwa [List.mem_singleton.mp ha]
      refine ⟨hstop, ?_⟩
      rw [inForce_eq_self hstop, avoided_append, avoided_singleton]
      exact (Set.Ico_subset_Ico_left hlast).trans Set.subset_union_right

def RamState.free (s : RamState) : Set Nat :=
  {x | ∃ r ∈ s.ramList.entries.takeWhile (fun r => r.size != 0), x ∈ bytes r.addr r.size}

theorem RamState.free_eq {s : RamState} {f : FreeList} (hf : s.ramList.Holds f) :
    s.free = f.bytes := by
  ext x
  rw [FreeList.mem_bytes, RamState.free, takeWhile_holds hf]
  rfl

def RamCall.NoWrap : RamCall → Prop
  | .avoidRam start size => 0 < size ∧ start + size < 2 ^ 64
  | .addRam start size => start + size < 2 ^ 64 ∧ ∀ x ∈ bytes start size, x + pageSize < 2 ^ 64
  | .allocRam addr size _ => addr ≠ nullPaddr ∧ addr + size < 2 ^ 64

def RamCall.effect (boot : Boot) (free : Set Nat) : RamCall → Set Nat
  | .avoidRam _ _ => free
  | .addRam start size => (free ∪ bytes start size) \ boot.imageTail
  | .allocRam addr size _ => free \ bytes addr size

/-- The temporary system page, when `add_ram` has just claimed it. -/
def tempEvents (s s' : RamState) : List Event :=
  if s'.tempSyspage ≠ s.tempSyspage then [.given s'.tempSyspage tempSyspageSize pageSize] else []

/-- One of the importer's calls, or a `ws_alloc` of a watcher. -/
inductive ImportAct where
  | call (c : RamCall)
  | wsAlloc (size : Nat)

def ImportAct.calls : ImportAct → List RamCall
  | .call c => [c]
  | .wsAlloc _ => []

/-- The size of a `ws_alloc` does not wrap, nor does the early workspace. -/
inductive ImportStep [SyspageHeader] (boot : Boot) : RamState → ImportAct →
    List Event → RamState → Prop
  | call {s s' : RamState} (c : RamCall) (h : c.run boot s = .ok s') :
      ImportStep boot s (.call c) (tempEvents s s') s'
  | wsAlloc {s s' : RamState} {size : Nat} {p : Option Nat} (hsize : size + 7 < 2 ^ 64)
      (hearly : s.ramList.size ≤ sizeofRamEntry → s.wsEarlyNext + round size 8 < 2 ^ 64)
      (h : wsAlloc boot size s = .ok (s', p)) :
      ImportStep boot s (.wsAlloc size) (wsEvents s size p) s'

/-- The runs in which every step meets `ok`, with the importer's calls in their order; the
last event comes first. -/
inductive ImportRun [SyspageHeader] (boot : Boot) (ok : RamState → ImportAct → Prop)
    (s₀ : RamState) :
    List RamCall → List Event → RamState → Prop
  | start : ImportRun boot ok s₀ [] [] s₀
  | step {done : List RamCall} {past new : List Event} {s s' : RamState} {act : ImportAct}
      (run : ImportRun boot ok s₀ done past s) (hok : ok s act) (h : ImportStep boot s act new s') :
      ImportRun boot ok s₀ (done ++ act.calls) (new ++ past) s'

theorem ImportRun.call [SyspageHeader] {boot : Boot} {ok : RamState → ImportAct → Prop}
    {s₀ s s' : RamState} {done : List RamCall} {past : List Event} {c : RamCall}
    (run : ImportRun boot ok s₀ done past s) (hok : ok s (.call c)) (h : c.run boot s = .ok s') :
    ImportRun boot ok s₀ (done ++ [c]) (tempEvents s s' ++ past) s' :=
  run.step hok (.call c h)

structure ImportInv (s : RamState) (f : FreeList) : Prop where
  holds : s.ramList.Holds f
  ws : s.wsReady = true
  noSysram : s.sysramAdded = false
  early : 0 < s.wsEarlyNext
  shaped : ∀ a ∈ s.avoidList, a.start ≤ a.stop
  bound : ∀ x ∈ f.bytes, x + pageSize < 2 ^ 64

structure Imported (boot : Boot) (cs : List RamCall) (new : List Event) (s s' : RamState)
    (f f' : FreeList) : Prop where
  inv : ImportInv s' f'
  free : f'.bytes = cs.foldl (RamCall.effect boot) f.bytes
  given : ∀ a n al, .given a n al ∈ new → bytes a n ⊆ f'.bytes \ avoided (inForce s.avoidList)
  mono : avoided (inForce s.avoidList) ⊆ avoided (inForce s'.avoidList)
  covers : (∀ a ∈ s.avoidList, a.stop ≠ 0) →
    (∀ start size, .avoidRam start size ∈ cs → bytes start size ⊆ avoided (inForce s'.avoidList)) ∧
      (f'.bytes = ∅ → ∀ a ∈ s'.avoidList, a.stop ≠ 0)

theorem findRam_nonempty {s : RamState} {f : FreeList} (hf : s.ramList.Holds f)
    {size align colour mask : Nat} (h : findRam size align colour mask s ≠ nullPaddr) :
    f.bytes ≠ ∅ := by
  obtain ⟨r, hr, -⟩ := findRam_mem hf h
  have hpos := f.pos hr
  exact Set.Nonempty.ne_empty ⟨r.addr, FreeList.mem_bytes.mpr ⟨r, hr, le_rfl, by omega⟩⟩

section

variable {boot : Boot} {s s' : RamState} {f : FreeList} {start size : Nat}

theorem ImportInv.of_lists {f' : FreeList} (h : ImportInv s f) (hlist : s'.ramList.Holds f')
    (hws : s'.wsReady = s.wsReady) (hns : s'.sysramAdded = s.sysramAdded)
    (hearly : s'.wsEarlyNext = s.wsEarlyNext) (hav : ∀ a ∈ s'.avoidList, a.start ≤ a.stop)
    (hb : ∀ x ∈ f'.bytes, x + pageSize < 2 ^ 64) : ImportInv s' f' :=
  ⟨hlist, hws.trans h.ws, hns.trans h.noSysram, hearly ▸ h.early, hav, hb⟩

theorem ImportInv.find_noted {k : Nat} (h : ImportInv s f) (hk : k ≤ 12)
    (hn : findRam size (2 ^ k) 0 0 s ≠ nullPaddr)
    (hs' : noteAvoid (findRam size (2 ^ k) 0 0 s) size s = .ok s') :
    ∃ l, s' = { s with avoidList := l } ∧ Noted (findRam size (2 ^ k) 0 0 s) size s.avoidList l ∧
      bytes (findRam size (2 ^ k) 0 0 s) size ⊆ f.bytes \ avoided (inForce s.avoidList) := by
  have hpow : 2 ^ k ≤ pageSize := Nat.pow_le_pow_right (by decide) hk
  have hclear := findRam_clear h.holds (by omega) (fun x hx => by have := h.bound x hx; omega) hn
  obtain ⟨l, hs', hl⟩ := noteAvoid_noted hs' h.shaped (findRam_bound h.holds hn)
  exact ⟨l, hs', hl, hclear⟩

theorem avoidRam_imported (h : ImportInv s f) (hpos : 0 < size) (hb : start + size < 2 ^ 64)
    (hs' : avoidRam boot start size s = .ok s') :
    Imported boot [.avoidRam start size] (tempEvents s s') s s' f f := by
  rw [avoidRam, ensureWs, if_pos h.ws] at hs'
  obtain ⟨l, rfl, hl⟩ := noteAvoid_noted hs' h.shaped hb
  refine ⟨h.of_lists h.holds rfl rfl rfl hl.shaped h.bound, rfl, by simp [tempEvents], hl.mono,
    fun hstop => ?_⟩
  obtain ⟨hstop', hcover⟩ := hl.covers hstop (by omega)
  refine ⟨fun a n hc => ?_, fun _ => hstop'⟩
  obtain ⟨rfl, rfl⟩ := RamCall.avoidRam.inj (List.mem_singleton.mp hc)
  exact hcover

theorem wsAlloc_imported {p : Option Nat} (h : ImportInv s f) (hsize : size + 7 < 2 ^ 64)
    (hearly : s.ramList.size ≤ sizeofRamEntry → s.wsEarlyNext + round size 8 < 2 ^ 64)
    (hs' : wsAlloc boot size s = .ok (s', p)) : Imported boot [] (wsEvents s size p) s s' f f := by
  obtain ⟨hle, -, -⟩ := round_two_pow (k := 3) (by decide) hsize
  change size ≤ round size 8 at hle
  rcases wsAlloc_cases h.ws hs' with ⟨hphase, rfl, hs1⟩ | ⟨-, -, rfl, rfl⟩ | ⟨hphase, hn, rfl, hs1⟩
  · obtain ⟨l, rfl, hl⟩ := noteAvoid_noted hs1 h.shaped (hearly hphase)
    have hnext : 0 < u64 (s.wsEarlyNext + round size 8) := by
      rw [u64_of_lt (hearly hphase)]
      exact Nat.add_pos_left h.early _
    refine ⟨⟨h.holds, h.ws, h.noSysram, hnext, hl.shaped, h.bound⟩, rfl,
      by simp [wsEvents, hphase], hl.mono, fun hstop => ⟨by simp, fun _ => (hl.covers hstop ?_).1⟩⟩
    have := h.early
    omega
  · exact ⟨h, rfl, by simp [wsEvents], subset_rfl, fun hstop => ⟨by simp, fun _ => hstop⟩⟩
  · obtain ⟨l, rfl, hl, hclear⟩ := h.find_noted (k := 3) (by decide) hn hs1
    refine ⟨h.of_lists h.holds rfl rfl rfl hl.shaped h.bound, rfl, fun a n al hg => ?_, hl.mono,
      fun _ => ⟨by simp, fun hempty => absurd hempty (findRam_nonempty h.holds hn)⟩⟩
    simp only [wsEvents, if_neg hphase] at hg
    obtain ⟨rfl, rfl, -⟩ := Event.given.inj (List.mem_singleton.mp hg)
    exact (bytes_mono hle).trans hclear

variable [SyspageHeader]

theorem allocRam_imported {align : Nat} (h : ImportInv s f) (hne : start ≠ nullPaddr)
    (hb : start + size < 2 ^ 64) (hs' : (RamCall.allocRam start size align).run boot s = .ok s') :
    ∃ f', Imported boot [.allocRam start size align] (tempEvents s s') s s' f f' := by
  obtain ⟨⟨s1, a⟩, hs1, hs'⟩ := bind_eq_ok.mp hs'
  obtain rfl := Except.ok.inj hs'
  rcases allocRam_holds align h.holds h.noSysram (fun _ => hb)
    with ⟨l, m, a', f', hok, hf', hcase⟩ | hc
  · rw [hok] at hs1
    obtain ⟨rfl, rfl⟩ := Prod.mk.inj (Except.ok.inj hs1)
    obtain ⟨-, hn, -⟩ | ⟨-, ha, rfl⟩ := hcase
    · exact absurd hn hne
    rw [if_neg hne] at ha
    have hfree := FreeList.bytes_erase_size f a' size
    rw [ha] at hfree
    have hbound : ∀ x ∈ (f.erase a' (a' + size)).bytes, x + pageSize < 2 ^ 64 := fun x hx => by
      rw [ha, hfree] at hx
      exact h.bound x hx.1
    refine ⟨_, h.of_lists hf' rfl rfl rfl h.shaped hbound,
      by rw [ha]; exact hfree, by simp [tempEvents], subset_rfl,
      fun hstop => ⟨by simp, fun _ => hstop⟩⟩
  · rw [hc] at hs1
    cases hs1

theorem addRam_imported (h : ImportInv s f) (hb : start + size < 2 ^ 64)
    (hpage : ∀ x ∈ bytes start size, x + pageSize < 2 ^ 64)
    (hs' : addRam boot start size s = .ok s') :
    ∃ f', Imported boot [.addRam start size] (tempEvents s s') s s' f f' := by
  rcases addRam_claims boot h.holds h.noSysram hb with ⟨t, l, m, f', heq, hf', hbytes⟩ | hc
  swap
  · rw [hc] at hs'
    cases hs'
  have hbound : ∀ x ∈ f'.bytes, x + pageSize < 2 ^ 64 := fun x hx => by
    rw [hbytes] at hx
    exact hx.1.elim (h.bound x) (hpage x)
  rw [heq, claimTempSyspage] at hs'
  by_cases ht : s.tempSyspage = nullPaddr
  · simp only [if_pos ht] at hs'
    by_cases hn : findRam tempSyspageSize pageSize 0 0
      { s with asinfo := t, ramList := l, mem := m } = nullPaddr
    · rw [hn, if_neg (by simp)] at hs'
      obtain rfl := Except.ok.inj hs'
      exact ⟨f', h.of_lists hf' rfl rfl rfl h.shaped hbound, hbytes,
        by simp [tempEvents, ht], subset_rfl, fun hstop => ⟨by simp, fun _ => hstop⟩⟩
    · rw [if_pos hn, avoidRam, ensureWs, if_pos h.ws] at hs'
      have hmid : ImportInv
          { s with
            asinfo := t, ramList := l, mem := m,
            tempSyspage := findRam tempSyspageSize pageSize 0 0
              { s with asinfo := t, ramList := l, mem := m } } f' :=
        h.of_lists hf' rfl rfl rfl h.shaped hbound
      obtain ⟨l', rfl, hl', hclear⟩ := hmid.find_noted (k := 12) le_rfl hn hs'
      refine ⟨f', h.of_lists hf' rfl rfl rfl hl'.shaped hbound, hbytes,
        fun a n al hg => ?_, hl'.mono,
        fun hstop => ⟨by simp, fun hempty => absurd hempty (findRam_nonempty hf' hn)⟩⟩
      rw [tempEvents, if_pos (by rw [ht]; exact hn)] at hg
      obtain ⟨rfl, rfl, -⟩ := Event.given.inj (List.mem_singleton.mp hg)
      exact hclear
  · rw [if_neg ht] at hs'
    obtain rfl := Except.ok.inj hs'
    exact ⟨f', h.of_lists hf' rfl rfl rfl h.shaped hbound, hbytes, by simp [tempEvents], subset_rfl,
      fun hstop => ⟨by simp, fun _ => hstop⟩⟩

theorem ImportStep.imported {act : ImportAct} {new : List Event} (h : ImportInv s f)
    (hs' : ImportStep boot s act new s') (hcs : ∀ c ∈ act.calls, c.NoWrap) :
    ∃ f', Imported boot act.calls new s s' f f' := by
  cases hs' with
  | call c hs' =>
    have hc := hcs c (List.mem_singleton_self c)
    cases c with
    | avoidRam start size => exact ⟨f, avoidRam_imported h hc.1 hc.2 hs'⟩
    | addRam start size => exact addRam_imported h hc.1 hc.2 hs'
    | allocRam addr size align => exact allocRam_imported h hc.1 hc.2 hs'
  | wsAlloc hsize hearly hs' => exact ⟨f, wsAlloc_imported h hsize hearly hs'⟩

theorem RamCall.run_cases {c : RamCall} (h : ImportInv s f) (hc : c.NoWrap) :
    (∃ s', c.run boot s = .ok s') ∨ c.run boot s = crash "RAM entry array overflow\n" ∨
      c.run boot s = crash "Avoid RAM entry array overflow\n" := by
  have hnote : ∀ start size s, (∃ s', noteAvoid start size s = .ok s') ∨
      noteAvoid start size s = crash "Avoid RAM entry array overflow\n" := fun start size s => by
    unfold noteAvoid
    simp only
    split_ifs
    · exact .inr rfl
    · exact .inl ⟨_, rfl⟩
  cases c with
  | avoidRam start size =>
    simp only [RamCall.run, QnxStartup.avoidRam, ensureWs, if_pos h.ws]
    exact (hnote ..).imp_right .inr
  | addRam start size =>
    rcases addRam_claims boot h.holds h.noSysram hc.1 with ⟨t, l, m, f', heq, -⟩ | hc
    · rw [RamCall.run, heq]
      unfold claimTempSyspage
      simp only
      split_ifs
      · rw [QnxStartup.avoidRam, ensureWs, if_pos h.ws]
        exact (hnote ..).imp_right .inr
      · exact .inl ⟨_, rfl⟩
      · exact .inl ⟨_, rfl⟩
    · exact .inr (.inl hc)
  | allocRam addr size align =>
    rcases allocRam_holds align h.holds h.noSysram (fun _ => hc.2) with ⟨l, m, a, f', hok, -⟩ | hc
    · exact .inl ⟨_, by rw [RamCall.run, hok]; rfl⟩
    · exact .inr (.inl (by rw [RamCall.run, hc]; rfl))

end

end QnxStartup
