import QnxStartup.FreeRam

/-! Who owns which RAM. Some blocks leave the free list when they are handed out,
others stay in it and are only avoided; a run keeps both kinds apart. -/

namespace QnxStartup

/-- What happened in a run, as far as ownership goes. `early` is a workspace block
from the time before any RAM was known, `given` a block handed out later. -/
inductive Event where
  | added (start size : Nat)
  | avoided (start size : Nat)
  | early (addr size : Nat)
  | given (addr size align : Nat)
  deriving DecidableEq, Repr

namespace Event

def block : Event → Set Nat
  | added start size => bytes start size
  | avoided start size => bytes start size
  | early addr size => bytes addr size
  | given addr size _ => bytes addr size

/-- The event takes its block out of circulation. -/
def Shuts : Event → Prop
  | added _ _ => False
  | _ => True

/-- What must hold of an event and one before it: a block given out is disjoint from
every block given out, taken early or avoided before it. -/
def Apart : Event → Event → Prop
  | given a n _, given b m _ => Disjoint (bytes a n) (bytes b m)
  | given a n _, early b m => Disjoint (bytes a n) (bytes b m)
  | given a n _, avoided b m => Disjoint (bytes a n) (bytes b m)
  | early a n, given b m _ => Disjoint (bytes a n) (bytes b m)
  | _, _ => True

end Event

def ramOf (past : List Event) : Set Nat := {x | ∃ a n, Event.added a n ∈ past ∧ x ∈ bytes a n}

def Boot.image (boot : Boot) : Set Nat := bytes boot.fullRamPaddr boot.ramSize

/-- The image and the lists behind it lie below `2 ^ 48`. -/
def Boot.Physical (boot : Boot) : Prop :=
  boot.fullRamPaddr + boot.ramSize ≤ 2 ^ 48 ∧
    boot.wsStart + maxAvoidListSize + maxRamListSize ≤ 2 ^ 48

inductive HandOp where
  | addRam (start size : Nat)
  | avoidRam (start size : Nat)
  | wsAlloc (size : Nat)
  | allocRam (size align : Nat)
  | callocRam (size align : Nat)
  deriving DecidableEq, Repr

/-- What a caller is held to: nonempty ranges of physical addresses, RAM that was not
added before, alignments that are powers of two, and a workspace block whose size can
be rounded up. -/
def HandOp.Allowed (past : List Event) (s : RamState) : HandOp → Prop
  | addRam start size => 0 < size ∧ start + size ≤ 2 ^ 48 ∧ Disjoint (bytes start size) (ramOf past)
  | avoidRam start size => 0 < size ∧ start + size ≤ 2 ^ 48
  | wsAlloc size => 0 < size ∧ size ≤ 2 ^ 64 - 8 ∧
      (s.ramList.size ≤ sizeofRamEntry → s.wsEarlyNext + round size 8 ≤ 2 ^ 48)
  | allocRam size align => 0 < size ∧ ∃ k < 32, align = 2 ^ k
  | callocRam size align => 0 < size ∧ ∃ k < 32, align = 2 ^ k

/-- What `ws_alloc` handed out, by the state it started from. -/
def wsEvents (s : RamState) (size : Nat) : Option Nat → List Event
  | none => []
  | some p => if s.ramList.size ≤ sizeofRamEntry then [.early p size] else [.given p size 8]

/-- A call, with the events it adds. -/
def runHandOp [SyspageHeader] (boot : Boot) : HandOp → RamState → Startup (RamState × List Event)
  | .addRam start size, s =>
    (addRam boot start size s).bind fun s' =>
      .ok (s', (if s'.tempSyspage ≠ s.tempSyspage then
        [.given s'.tempSyspage tempSyspageSize pageSize] else []) ++ [.added start size])
  | .avoidRam start size, s => (avoidRam boot start size s).bind fun s' =>
    .ok (s', [.avoided start size])
  | .wsAlloc size, s =>
    (wsAlloc boot size s).bind fun (s', p) => .ok (s', wsEvents s size p)
  | .allocRam size align, s =>
    (allocRam nullPaddr size align s).bind fun (s', a) =>
      .ok (s', if a = nullPaddr then [] else [.given a size align])
  | .callocRam size align, s =>
    (callocRam size align s).bind fun (s', a) =>
      .ok (s', if a = nullPaddr then [] else [.given a size align])

def initEvents (boot : Boot) : List Event :=
  [.avoided boot.fullRamPaddr boot.startupSize,
    .early (boot.wsStart + maxAvoidListSize) maxRamListSize, .early boot.wsStart maxAvoidListSize]

/-- The runs, from the end of `ws_init` on; the last event comes first. Once RAM has
been added the free list stays nonempty. -/
inductive HandRun [SyspageHeader] (boot : Boot) (secure : Bool) (mem : Mem) :
    List Event → RamState → Prop
  | init {s : RamState} (h : wsInit boot (.atBoot secure mem) = .ok s) :
      HandRun boot secure mem (initEvents boot) s
  | step {past new : List Event} {s s' : RamState} {op : HandOp}
      (run : HandRun boot secure mem past s)
      (allowed : op.Allowed past s) (h : runHandOp boot op s = .ok (s', new))
      (nonempty : (∃ a n, Event.added a n ∈ new ++ past) → sizeofRamEntry < s'.ramList.size) :
      HandRun boot secure mem (new ++ past) s'

/-- Every block that was taken is avoided, or is RAM that has left the free list. -/
structure HandInv (boot : Boot) (past : List Event) (s : RamState) (f : FreeList) : Prop where
  holds : s.ramList.Holds f
  ws : s.wsReady = true
  noSysram : s.sysramAdded = false
  ram : f.bytes ⊆ ramOf past
  physical : ∀ x ∈ ramOf past, x < 2 ^ 48
  avoid : ∀ a ∈ s.avoidList, a.start < a.stop ∧ a.stop ≤ 2 ^ 48
  startup : bytes boot.fullRamPaddr boot.startupSize ⊆ avoided s.avoidList
  tail : Disjoint boot.imageTail f.bytes
  shut : ∀ e ∈ past, e.Shuts →
    e.block ⊆ avoided s.avoidList ∨ e.block ⊆ ramOf past ∧ Disjoint e.block f.bytes
  apart : past.Pairwise Event.Apart
  given : ∀ a n al, Event.given a n al ∈ past →
    al ∣ a ∧ bytes a n ⊆ ramOf past ∧ Disjoint (bytes a n) boot.image

theorem ramOf_cons_added (a n : Nat) (past : List Event) :
    ramOf (.added a n :: past) = bytes a n ∪ ramOf past := by
  ext x
  simp [ramOf, or_and_right, exists_or]

theorem ramOf_cons_shuts {e : Event} (he : e.Shuts) (past : List Event) :
    ramOf (e :: past) = ramOf past := by
  ext x
  cases e <;> simp_all [ramOf, Event.Shuts]

theorem Boot.image_eq (boot : Boot) :
    boot.image = bytes boot.fullRamPaddr boot.startupSize ∪ boot.imageTail := by
  have hle := boot.startup_le
  ext x
  simp only [image, imageTail, Set.mem_union, mem_bytes]
  omega

theorem HandInv.fresh {boot : Boot} {past : List Event} {s : RamState} {f : FreeList} {a n al : Nat}
    (h : HandInv boot past s f) (hb : bytes a n ⊆ f.bytes \ avoided s.avoidList) (hal : al ∣ a) :
    (∀ e' ∈ past, Event.Apart (.given a n al) e') ∧
      al ∣ a ∧ bytes a n ⊆ ramOf past ∧ Disjoint (bytes a n) boot.image := by
  have hfree : bytes a n ⊆ f.bytes := hb.trans Set.sdiff_subset
  have havoid : Disjoint (bytes a n) (avoided s.avoidList) :=
    Set.disjoint_left.mpr fun x hx => (hb hx).2
  refine ⟨fun e' he' => ?_, hal, hfree.trans h.ram, ?_⟩
  · have hshut : e'.Shuts → Disjoint (bytes a n) e'.block := fun hs => by
      rcases h.shut e' he' hs with hsub | ⟨-, hd⟩
      · exact havoid.mono_right hsub
      · exact (hd.mono_right hfree).symm
    cases e' with
    | added => trivial
    | avoided => exact hshut trivial
    | early => exact hshut trivial
    | given => exact hshut trivial
  · rw [Boot.image_eq, Set.disjoint_union_right]
    exact ⟨havoid.mono_right h.startup, (h.tail.mono_right hfree).symm⟩

theorem noteAvoid_avoided {start size : Nat} {s s' : RamState} (h : noteAvoid start size s = .ok s')
    (havoid : ∀ a ∈ s.avoidList, a.start < a.stop ∧ a.stop ≤ 2 ^ 48) (hpos : 0 < size)
    (hb : start + size ≤ 2 ^ 48) :
    ∃ l, s' = { s with avoidList := l } ∧ avoided l = avoided s.avoidList ∪ bytes start size ∧
      ∀ a ∈ l, a.start < a.stop ∧ a.stop ≤ 2 ^ 48 := by
  obtain ⟨l, hs', hl⟩ := noteAvoid_eq h
  rw [u64_of_lt (by omega)] at hl
  refine ⟨l, hs', ?_⟩
  rcases hl with rfl | ⟨init, last, hinit, hstop, rfl⟩
  · refine ⟨by rw [avoided_append, avoided_singleton]; rfl, fun a ha => ?_⟩
    rcases List.mem_append.mp ha with ha | ha
    · exact havoid a ha
    · rw [List.mem_singleton.mp ha]
      exact ⟨by simp only; omega, hb⟩
  · rw [hinit] at havoid ⊢
    have hlast := havoid last (by simp)
    refine ⟨?_, fun a ha => ?_⟩
    · simp only [avoided_append, avoided_singleton, Set.union_assoc]
      congr 1
      ext x
      simp only [Set.mem_union, Set.mem_Ico, mem_bytes]
      omega
    · rcases List.mem_append.mp ha with ha | ha
      · exact havoid a (by simp [ha])
      · rw [List.mem_singleton.mp ha]
        exact ⟨by simp only; omega, hb⟩

theorem HandInv.of_lists {boot : Boot} {past : List Event} {s s' : RamState} {f : FreeList}
    (h : HandInv boot past s f) (hlist : s'.ramList.Holds f) (hws : s'.wsReady = s.wsReady)
    (hns : s'.sysramAdded = s.sysramAdded) (hav : s'.avoidList = s.avoidList) :
    HandInv boot past s' f :=
  ⟨hlist, hws.trans h.ws, hns.trans h.noSysram, h.ram, h.physical, by rw [hav]; exact h.avoid,
    by rw [hav]; exact h.startup, h.tail, by rw [hav]; exact h.shut, h.apart, h.given⟩

theorem HandInv.avoid_step {boot : Boot} {past : List Event} {s s' : RamState} {f : FreeList}
    {e : Event} (h : HandInv boot past s f) (hlist : s'.ramList = s.ramList)
    (hws : s'.wsReady = s.wsReady) (hns : s'.sysramAdded = s.sysramAdded) (he : e.Shuts)
    (hsub : avoided s.avoidList ⊆ avoided s'.avoidList) (hblock : e.block ⊆ avoided s'.avoidList)
    (havoid : ∀ a ∈ s'.avoidList, a.start < a.stop ∧ a.stop ≤ 2 ^ 48)
    (hapart : ∀ e' ∈ past, e.Apart e')
    (hgiven : ∀ a n al, e = .given a n al → al ∣ a ∧ bytes a n ⊆ ramOf past ∧
      Disjoint (bytes a n) boot.image) :
    HandInv boot (e :: past) s' f where
  holds := by rw [hlist]; exact h.holds
  ws := hws.trans h.ws
  noSysram := hns.trans h.noSysram
  ram := by rw [ramOf_cons_shuts he]; exact h.ram
  physical := by rw [ramOf_cons_shuts he]; exact h.physical
  avoid := havoid
  startup := h.startup.trans hsub
  tail := h.tail
  shut := by
    rw [ramOf_cons_shuts he]
    intro e' he' hs
    rcases List.mem_cons.mp he' with rfl | he'
    · exact .inl hblock
    · exact (h.shut e' he' hs).imp_left fun hx => hx.trans hsub
  apart := List.pairwise_cons.mpr ⟨hapart, h.apart⟩
  given := by
    rw [ramOf_cons_shuts he]
    intro a n al ha
    rcases List.mem_cons.mp ha with ha | ha
    · exact hgiven a n al ha.symm
    · exact h.given a n al ha

theorem HandInv.take_step {boot : Boot} {past : List Event} {s s' : RamState} {f f' : FreeList}
    {a n al : Nat} (h : HandInv boot past s f) (hlist : s'.ramList.Holds f')
    (hws : s'.wsReady = s.wsReady) (hns : s'.sysramAdded = s.sysramAdded)
    (hav : s'.avoidList = s.avoidList) (hf' : f'.bytes = f.bytes \ bytes a n)
    (hb : bytes a n ⊆ f.bytes \ avoided s.avoidList) (hal : al ∣ a) :
    HandInv boot (.given a n al :: past) s' f' := by
  have hs : (Event.given a n al).Shuts := trivial
  obtain ⟨hapart, hgiven⟩ := h.fresh hb hal
  have hsub : f'.bytes ⊆ f.bytes := by rw [hf']; exact Set.sdiff_subset
  refine ⟨hlist, hws.trans h.ws, hns.trans h.noSysram, ?_, ?_, by rw [hav]; exact h.avoid,
    by rw [hav]; exact h.startup, h.tail.mono_right hsub, ?_,
    List.pairwise_cons.mpr ⟨hapart, h.apart⟩, ?_⟩
  · rw [ramOf_cons_shuts hs]
    exact hsub.trans h.ram
  · rw [ramOf_cons_shuts hs]
    exact h.physical
  · rw [ramOf_cons_shuts hs, hav]
    intro e he hes
    rcases List.mem_cons.mp he with rfl | he
    · refine .inr ⟨hgiven.2.1, ?_⟩
      rw [hf']
      exact Set.disjoint_sdiff_right
    · exact (h.shut e he hes).imp_right fun hx => ⟨hx.1, hx.2.mono_right hsub⟩
  · rw [ramOf_cons_shuts hs]
    intro a' n' al' ha
    rcases List.mem_cons.mp ha with ha | ha
    · cases ha
      exact hgiven
    · exact h.given a' n' al' ha

theorem HandInv.add_step {boot : Boot} {past : List Event} {s s' : RamState} {f f' : FreeList}
    {start size : Nat} (h : HandInv boot past s f) (hlist : s'.ramList.Holds f')
    (hws : s'.wsReady = s.wsReady) (hns : s'.sysramAdded = s.sysramAdded)
    (hav : s'.avoidList = s.avoidList)
    (hf' : f'.bytes = (f.bytes ∪ bytes start size) \ boot.imageTail) (hb : start + size ≤ 2 ^ 48)
    (hnew : Disjoint (bytes start size) (ramOf past)) :
    HandInv boot (.added start size :: past) s' f' := by
  have hmono : ramOf past ⊆ ramOf (.added start size :: past) := by
    rw [ramOf_cons_added]
    exact Set.subset_union_right
  refine ⟨hlist, hws.trans h.ws, hns.trans h.noSysram, ?_, ?_, by rw [hav]; exact h.avoid,
    by rw [hav]; exact h.startup, ?_, ?_, List.pairwise_cons.mpr ⟨?_, h.apart⟩, ?_⟩
  · rw [hf', ramOf_cons_added]
    rintro x ⟨hx | hx, -⟩
    · exact .inr (h.ram hx)
    · exact .inl hx
  · rw [ramOf_cons_added]
    rintro x (hx | hx)
    · exact hx.2.trans_le hb
    · exact h.physical x hx
  · rw [hf']
    exact Set.disjoint_sdiff_right
  · intro e he hes
    rcases List.mem_cons.mp he with rfl | he
    · exact hes.elim
    · rw [hav]
      refine (h.shut e he hes).imp_right fun ⟨hsub, hd⟩ => ⟨hsub.trans hmono, ?_⟩
      rw [hf']
      refine Disjoint.mono_right Set.sdiff_subset (Set.disjoint_union_right.mpr ⟨hd, ?_⟩)
      exact (hnew.mono_right hsub).symm
  · exact fun e' _ => trivial
  · intro a n al ha
    rcases List.mem_cons.mp ha with ha | ha
    · cases ha
    · exact ⟨(h.given a n al ha).1, (h.given a n al ha).2.1.trans hmono, (h.given a n al ha).2.2⟩

theorem wsInit_inv {boot : Boot} (hboot : boot.Physical) {secure : Bool} {mem : Mem} {s : RamState}
    (h : wsInit boot (.atBoot secure mem) = .ok s) : HandInv boot (initEvents boot) s .empty := by
  obtain ⟨himage, hlists⟩ := hboot
  have hpos := boot.startup_pos
  have hle := boot.startup_le
  simp only [maxAvoidListSize, maxRamListSize] at hlists
  have hstop : u64 (u64 (boot.wsStart + 1024) + 3 * 1024) = boot.wsStart + 1024 + 3 * 1024 := by
    rw [u64_of_lt (by omega : boot.wsStart + 1024 < 2 ^ 64), u64_of_lt (by omega)]
  have hwslist : (RamState.wsLists boot secure mem).avoidList =
      [⟨boot.wsStart, boot.wsStart + 1024 + 3 * 1024⟩] := by
    simp [RamState.wsLists, maxAvoidListSize, maxRamListSize, hstop]
  rw [wsInit_eq] at h
  obtain ⟨l, rfl, hl, hvalid⟩ := noteAvoid_avoided h (by
    rw [hwslist]
    simp only [List.mem_singleton, forall_eq]
    omega) hpos (by omega)
  rw [hwslist, avoided_singleton] at hl
  refine ⟨⟨⟨0, 0⟩, rfl, rfl⟩, rfl, rfl, by simp, ?_, hvalid, ?_, by simp, ?_, ?_, ?_⟩
  · simp [ramOf, initEvents]
  · rw [hl]
    exact Set.subset_union_right
  · intro e he _
    left
    simp only [initEvents, List.mem_cons, List.not_mem_nil, or_false] at he
    simp only [hl]
    rcases he with rfl | rfl | rfl
    · exact Set.subset_union_right
    all_goals
      refine Set.Subset.trans (fun x hx => ?_) Set.subset_union_left
      simp only [Event.block, mem_bytes, maxAvoidListSize, maxRamListSize] at hx
      simp only [Set.mem_Ico]
      omega
  · simp [initEvents, Event.Apart]
  · simp [initEvents]

theorem HandInv.findRam_free {boot : Boot} {past : List Event} {s : RamState} {f : FreeList}
    {size k : Nat} (h : HandInv boot past s f) (hk : k < 32)
    (hn : findRam size (2 ^ k) 0 0 s ≠ nullPaddr) :
    2 ^ k ∣ findRam size (2 ^ k) 0 0 s ∧
      bytes (findRam size (2 ^ k) 0 0 s) size ⊆ f.bytes \ avoided s.avoidList := by
  refine findRam_sound h.holds (fun a ha => ?_) (by omega) (fun x hx => ?_) hn
  · have := h.avoid a ha
    omega
  · have := h.physical x (h.ram hx)
    have : 2 ^ k < 2 ^ 32 := Nat.pow_lt_pow_right (by decide) hk
    omega

theorem HandInv.le_of_free {boot : Boot} {past : List Event} {s : RamState} {f : FreeList}
    {a n : Nat} (h : HandInv boot past s f) (hn : 0 < n)
    (hb : bytes a n ⊆ f.bytes \ avoided s.avoidList) :
    a + n ≤ 2 ^ 48 := by
  have := h.physical (a + n - 1) (h.ram (hb (by rw [mem_bytes]; omega)).1)
  omega

theorem HandInv.find_avoid_step {boot : Boot} {past : List Event} {s s' : RamState} {f : FreeList}
    {a n m al : Nat} (h : HandInv boot past s f) (hpos : 0 < n) (hm : m ≤ n)
    (hb : bytes a n ⊆ f.bytes \ avoided s.avoidList) (hal : al ∣ a)
    (hs' : noteAvoid a n s = .ok s') :
    HandInv boot (.given a m al :: past) s' f := by
  obtain ⟨l, rfl, hl, hvalid⟩ := noteAvoid_avoided hs' h.avoid hpos (h.le_of_free hpos hb)
  have hsub : bytes a m ⊆ bytes a n := bytes_mono hm
  obtain ⟨hapart, hgiven⟩ := h.fresh (hsub.trans hb) hal
  refine h.avoid_step rfl rfl rfl trivial ?_ ?_ hvalid hapart ?_
  · rw [hl]
    exact Set.subset_union_left
  · rw [hl]
    exact hsub.trans Set.subset_union_right
  · intro a' n' al' he
    cases he
    exact hgiven

theorem wsAlloc_inv {boot : Boot} {past : List Event} {s s' : RamState} {f : FreeList} {size : Nat}
    {p : Option Nat} (h : HandInv boot past s f) (hop : (HandOp.wsAlloc size).Allowed past s)
    (hempty : s.ramList.size ≤ sizeofRamEntry → ∀ a n, Event.added a n ∉ past)
    (hs' : wsAlloc boot size s = .ok (s', p)) :
    HandInv boot (wsEvents s size p ++ past) s' f := by
  obtain ⟨hpos, hsize, hearly⟩ := hop
  obtain ⟨hle, -, hlt⟩ := round_two_pow (k := 3) (by decide) (x := size) (by omega)
  change size ≤ round size 8 at hle
  change round size 8 < size + 8 at hlt
  rcases wsAlloc_cases h.ws hs' with ⟨hphase, rfl, hs1⟩ | ⟨-, -, rfl, rfl⟩ | ⟨hphase, hn, rfl, hs1⟩
  · obtain ⟨l, rfl, hl, hvalid⟩ := noteAvoid_avoided hs1 h.avoid (by omega) (hearly hphase)
    simp only [wsEvents, if_pos hphase]
    have hno : ramOf past = ∅ := by
      ext x
      simp only [ramOf, Set.mem_ofPred_eq, Set.mem_empty_iff_false, iff_false, not_exists, not_and]
      exact fun a n ha => absurd ha (hempty hphase a n)
    refine h.avoid_step rfl rfl rfl trivial ?_ ?_ hvalid ?_ (fun _ _ _ he => by cases he)
    · simp only [hl]
      exact Set.subset_union_left
    · simp only [hl]
      exact (bytes_mono hle).trans Set.subset_union_right
    · intro e' he'
      cases e' with
      | given a n al =>
        have hsub := (h.given a n al he').2.1
        rw [hno] at hsub
        simp only [Event.Apart, Set.subset_empty_iff.mp hsub, Set.disjoint_empty]
      | _ => trivial
  · exact h
  · obtain ⟨hal, hb⟩ := h.findRam_free (k := 3) (by decide) hn
    simp only [wsEvents, if_neg hphase]
    exact h.find_avoid_step (by omega) hle hb hal hs1

theorem allocRam_inv [SyspageHeader] {boot : Boot} {past : List Event} {s s' : RamState}
    {f : FreeList} {size align a : Nat} (h : HandInv boot past s f) (hal : ∃ k < 32, align = 2 ^ k)
    (hs' : allocRam nullPaddr size align s = .ok (s', a)) :
    ∃ f', HandInv boot ((if a = nullPaddr then [] else [.given a size align]) ++ past) s' f' := by
  obtain ⟨k, hk, rfl⟩ := hal
  rcases allocRam_holds (2 ^ k) h.holds h.noSysram (fun hn => absurd rfl hn) with
    ⟨l, m, a', f', hok, hf', hcase⟩ | hc
  swap
  · rw [hc] at hs'
    cases hs'
  rw [hok] at hs'
  cases hs'
  rcases hcase with ⟨rfl, -, rfl⟩ | ⟨hn, ha, rfl⟩
  · exact ⟨f', h.of_lists hf' rfl rfl rfl⟩
  · rw [if_pos rfl] at ha
    rw [ha] at hn hf' ⊢
    obtain ⟨hdvd, hb⟩ := h.findRam_free hk hn
    rw [if_neg hn]
    exact ⟨_, h.take_step hf' rfl rfl rfl (FreeList.bytes_erase_size f _ size) hb hdvd⟩

theorem callocRam_inv [SyspageHeader] {boot : Boot} {past : List Event} {s s' : RamState}
    {f : FreeList} {size align a : Nat} (h : HandInv boot past s f) (hal : ∃ k < 32, align = 2 ^ k)
    (hs' : callocRam size align s = .ok (s', a)) :
    ∃ f', HandInv boot ((if a = nullPaddr then [] else [.given a size align]) ++ past) s' f' := by
  obtain ⟨⟨s1, a1⟩, hs1, hs'⟩ := bind_eq_ok.mp hs'
  simp only at hs'
  split at hs' <;> cases hs'
  · obtain ⟨f', hf'⟩ := allocRam_inv h hal hs1
    exact ⟨f', hf'.of_lists hf'.holds rfl rfl rfl⟩
  · exact allocRam_inv h hal hs1

theorem addRam_inv [SyspageHeader] {boot : Boot} {past : List Event} {s s' : RamState}
    {f : FreeList} {start size : Nat} (h : HandInv boot past s f)
    (hop : (HandOp.addRam start size).Allowed past s) (hs' : addRam boot start size s = .ok s') :
    ∃ f', HandInv boot (((if s'.tempSyspage ≠ s.tempSyspage then
      [.given s'.tempSyspage tempSyspageSize pageSize] else []) ++ [.added start size]) ++
        past) s' f' := by
  obtain ⟨-, hb, hnew⟩ := hop
  rcases addRam_claims boot h.holds h.noSysram (by omega : start + size < 2 ^ 64) with
    ⟨t, l, m, f', heq, hf', hbytes⟩ | hc
  swap
  · rw [hc] at hs'
    cases hs'
  have hadd : HandInv boot (.added start size :: past)
      { s with asinfo := t, ramList := l, mem := m } f' :=
    h.add_step hf' rfl rfl rfl hbytes hb hnew
  rw [heq, claimTempSyspage] at hs'
  simp only at hs'
  by_cases ht : s.tempSyspage = nullPaddr
  · rw [if_pos ht] at hs'
    by_cases hn : findRam tempSyspageSize pageSize 0 0
        { s with asinfo := t, ramList := l, mem := m } = nullPaddr
    · rw [hn, if_neg (by simp)] at hs'
      cases hs'
      exact ⟨f', by simpa [ht] using hadd.of_lists hf' rfl rfl rfl⟩
    · rw [if_pos hn, avoidRam, ensureWs, if_pos h.ws] at hs'
      obtain ⟨hal, hfree⟩ := hadd.findRam_free (k := 12) (by decide) hn
      have hadd' : HandInv boot (.added start size :: past)
          { s with
            asinfo := t, ramList := l, mem := m,
            tempSyspage := findRam tempSyspageSize pageSize 0 0
              { s with asinfo := t, ramList := l, mem := m } } f' :=
        hadd.of_lists hf' rfl rfl rfl
      have hgiven := hadd'.find_avoid_step (by decide) le_rfl hfree hal hs'
      obtain ⟨l', rfl, -⟩ := noteAvoid_eq hs'
      refine ⟨f', ?_⟩
      rw [if_pos (by rw [ht]; exact hn)]
      exact hgiven
  · rw [if_neg ht] at hs'
    cases hs'
    exact ⟨f', by simpa using hadd⟩

theorem handRun_nonempty [SyspageHeader] {boot : Boot} {secure : Bool} {mem : Mem}
    {past : List Event} {s : RamState} (h : HandRun boot secure mem past s)
    (hs : s.ramList.size ≤ sizeofRamEntry) (a n : Nat) :
    Event.added a n ∉ past := by
  cases h with
  | init => simp [initEvents]
  | step _ _ _ nonempty => exact fun ha => absurd (nonempty ⟨a, n, ha⟩) (by omega)

theorem HandInv.step [SyspageHeader] {boot : Boot} {past new : List Event} {s s' : RamState}
    {f : FreeList} {op : HandOp} (hf : HandInv boot past s f) (hop : op.Allowed past s)
    (hempty : s.ramList.size ≤ sizeofRamEntry → ∀ a n, Event.added a n ∉ past)
    (h : runHandOp boot op s = .ok (s', new)) : ∃ f', HandInv boot (new ++ past) s' f' := by
  cases op with
  | addRam start size =>
    obtain ⟨s1, hs1, h⟩ := bind_eq_ok.mp h
    cases h
    exact addRam_inv hf hop hs1
  | avoidRam start size =>
    obtain ⟨s1, hs1, h⟩ := bind_eq_ok.mp h
    cases h
    rw [avoidRam, ensureWs, if_pos hf.ws] at hs1
    obtain ⟨l, rfl, hl, hvalid⟩ := noteAvoid_avoided hs1 hf.avoid hop.1 hop.2
    refine ⟨f, hf.avoid_step rfl rfl rfl trivial ?_ ?_ hvalid (fun _ _ => trivial)
      (fun _ _ _ he => by cases he)⟩
    · rw [hl]
      exact Set.subset_union_left
    · rw [hl]
      exact Set.subset_union_right
  | wsAlloc size =>
    obtain ⟨⟨s1, p⟩, hs1, h⟩ := bind_eq_ok.mp h
    cases h
    exact ⟨f, wsAlloc_inv hf hop hempty hs1⟩
  | allocRam size align =>
    obtain ⟨⟨s1, a⟩, hs1, h⟩ := bind_eq_ok.mp h
    cases h
    exact allocRam_inv hf hop.2 hs1
  | callocRam size align =>
    obtain ⟨⟨s1, a⟩, hs1, h⟩ := bind_eq_ok.mp h
    cases h
    exact callocRam_inv hf hop.2 hs1

theorem handRun_inv [SyspageHeader] {boot : Boot} (hboot : boot.Physical) {secure : Bool}
    {mem : Mem} {past : List Event} {s : RamState} (run : HandRun boot secure mem past s) :
    ∃ f, HandInv boot past s f := by
  induction run with
  | init h => exact ⟨_, wsInit_inv hboot h⟩
  | step hrun hallowed h _ ih =>
    obtain ⟨f, hf⟩ := ih
    exact hf.step hallowed (handRun_nonempty hrun) h

end QnxStartup
