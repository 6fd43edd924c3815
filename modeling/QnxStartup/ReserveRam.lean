import QnxStartup.AsPieces
import QnxStartup.Calloc
import QnxStartup.RamImport
import QnxStartup.RangedRam
import QnxStartup.SecureRam
import QnxStartup.Sysram
import QnxStartup.TopRam

/-! `reserve_ram`: where the block is placed, what leaves the free list, and what the asinfo
section says about it. -/

namespace QnxStartup

def findTopRamAligned (size align pagesize : Nat) (s : RamState) : Nat :=
  findTopRamAlignedLimit size align pagesize (2 ^ 64 - 1) s

def reservedName : Option String → String
  | none => "reserved"
  | some name => if name = "" then "reserved" else name

section
variable [SyspageHeader]

/-- The two lists are at `lists`, where a secure system may zero them. -/
def reserveRam (lists size align : Nat) (name : Option String) (pagesize lowRegion : Nat)
    (s : RamState) :
    Startup RamState :=
  if size = 0 then .ok s
  else
    let align := if align ≠ 0 then align else pagesize
    (if lowRegion = 0 then
      let reserved := findTopRamAligned size align pagesize s
      if reserved = nullPaddr then crash "Could not reserve 0x%x bytes from top of memory.\n"
        else .ok reserved
    else .ok nullPaddr).bind fun reserved =>
    (Stored.allocRam lists reserved size align s).bind fun (s, reserved) =>
      if reserved = nullPaddr then crash "Could not reserve 0x%x bytes of memory.\n"
      else .ok { s with
        asinfo := (asAddContaining reserved (sub64 (u64 (reserved + size)) 1) asAttrRam
          (reservedName name) "ram" s.asinfo).1 }

/-! ### What `as_add_containing` adds -/

def AsOrdered (t : List AsinfoEntry) : Prop := ∀ as ∈ t, as.start ≤ as.stop

def AsRange.Within (start stop : Nat) (r : AsRange) : Prop := start ≤ r.start ∧ r.stop ≤ stop

omit [SyspageHeader] in
theorem placePiece_within {start stop ps pe owner : Nat} {list : List AsRange} (hps : start ≤ ps)
    (hle : ps ≤ pe) (hpe : pe ≤ stop) (hb : stop + 1 < 2 ^ 64)
    (h : ∀ r ∈ list, r.Within start stop) :
    ∀ r ∈ placePiece ps pe owner list, r.Within start stop := by
  induction list with
  | nil =>
    intro r hr
    obtain rfl := List.mem_singleton.mp hr
    exact ⟨hps, hpe⟩
  | cons curr rest ih =>
    obtain ⟨hcurr, hrest⟩ := List.forall_mem_cons.mp h
    have hnew : (⟨ps, pe, owner⟩ : AsRange).Within start stop := ⟨hps, hpe⟩
    have hnext : start ≤ u64 (pe + 1) := by
      rw [u64_of_lt (by omega)]
      omega
    rw [placePiece]
    by_cases hin : curr.start ≤ ps ∧ curr.stop ≥ ps
    · rw [if_pos hin]
      by_cases hwhole : curr.start = ps ∧ curr.stop = pe
      · rw [if_pos hwhole]
        exact List.forall_mem_cons.mpr ⟨hcurr, hrest⟩
      · rw [if_neg hwhole]
        by_cases hstart : curr.start = ps
        · rw [if_pos hstart]
          exact List.forall_mem_cons.mpr ⟨hnew, List.forall_mem_cons.mpr ⟨⟨hnext, hcurr.2⟩, hrest⟩⟩
        · rw [if_neg hstart]
          have hback : sub64 ps 1 ≤ stop := by
            rw [sub64_of_le (by omega) (by omega)]
            omega
          refine List.forall_mem_cons.mpr ⟨⟨hcurr.1, hback⟩, List.forall_mem_cons.mpr ⟨hnew, ?_⟩⟩
          by_cases hend : curr.stop ≠ pe
          · rw [if_pos hend]
            exact List.forall_mem_cons.mpr ⟨⟨hnext, hcurr.2⟩, hrest⟩
          · rw [if_neg hend]
            exact hrest
    · rw [if_neg hin]
      exact List.forall_mem_cons.mpr ⟨hcurr, ih hrest⟩

omit [SyspageHeader] in
theorem gatherPieces_within {start stop : Nat} {container : String} {t : List AsinfoEntry}
    (ht : AsOrdered t) (hle : start ≤ stop) (hb : stop + 1 < 2 ^ 64) :
    ∀ r ∈ gatherPieces start stop container t (t.length + 1) none [], r.Within start stop := by
  refine gatherPieces_induction (P := fun _ list => ∀ r ∈ list, r.Within start stop)
    (by simp) fun {_ list j} h hj _ => ?_
  obtain ⟨as, has, -, hover⟩ := containsAt_iff.mp hj
  have hord := ht as (List.mem_of_getElem? has)
  obtain ⟨h1, h2⟩ := (overlaps_iff hle hord).mp hover
  simp only [gatherPiece, has]
  refine placePiece_within ?_ ?_ ?_ hb h
  · split <;> omega
  · split <;> split <;> omega
  · split <;> omega

theorem addPieces_filter (pieceAttr : Nat) (name : String) (list : List AsRange)
    (t : List AsinfoEntry) (startOff : Option Nat) (off : Nat) :
    addPieces pieceAttr name list t startOff off =
      addPieces pieceAttr name (list.filter fun r => r.start ≤ r.stop) t startOff off := by
  induction list generalizing t startOff off with
  | nil => rfl
  | cons r list ih =>
    by_cases hr : r.start ≤ r.stop
    · rw [List.filter_cons_of_pos (by simpa using hr), addPieces, addPieces, if_pos hr, if_pos hr]
      exact ih ..
    · rw [List.filter_cons_of_neg (by simpa using hr), addPieces, if_neg hr]
      exact ih ..

theorem asAddContaining_within {start stop attr : Nat} (name container : String)
    {t : List AsinfoEntry} (hattr : attr &&& asOverlayIo = 0) (ht : AsOrdered t)
    (hle : start ≤ stop) (hb : stop + 1 < 2 ^ 64) :
    ∃ list : List AsRange, (∀ r ∈ list, r.start ≤ r.stop ∧ r.Within start stop) ∧
      (asAddContaining start stop attr name container t).1.map AsinfoEntry.plain =
        t.map AsinfoEntry.plain ++ list.map
          (fun r => ⟨r.start, r.stop, some r.owner, name, 0, 0⟩) := by
  have hwithin : ∀ r ∈ gatherPieces start stop container t (t.length + 1) none [],
      r.Within start stop :=
    gatherPieces_within ht hle hb
  generalize hlist : gatherPieces start stop container t (t.length + 1) none [] = list at hwithin
  have hpos : ∀ r ∈ list.filter fun r => r.start ≤ r.stop, r.start ≤ r.stop := fun r hr => by
    simpa using (List.mem_filter.mp hr).2
  refine ⟨list.filter fun r => r.start ≤ r.stop,
    fun r hr => ⟨hpos r hr, hwithin r (List.mem_filter.mp hr).1⟩, ?_⟩
  have hp := addPieces_plain (pieceAttr_and_asOverlayIo attr) name _ hpos t none 0
  rw [← addPieces_filter] at hp
  unfold asAddContaining
  simp only [hlist, hattr]
  rcases hadd :
    addPieces (attr &&& compl32 asOverlayIo ||| SyspageHeader.asAttrContinued) name list t none 0
    with ⟨t', _ | startOff, off⟩
  · rw [hadd] at hp
    exact hp
  · rw [hadd] at hp
    simpa using hp

/-- Each element of `t'` lies inside one of `t` with its name, or is "sysram" cut out of one. -/
def Shrunk (t t' : List AsinfoEntry) : Prop :=
  ∀ e ∈ t', e.start ≤ e.stop ∧ ∃ e0 ∈ t, (e0.name = e.name ∨ e.name = "sysram") ∧
    e0.start ≤ e.start ∧ e.stop ≤ e0.stop

omit [SyspageHeader] in
theorem AsOrdered.shrunk {t : List AsinfoEntry} (h : AsOrdered t) : Shrunk t t :=
  fun e he => ⟨h e he, e, he, .inl rfl, le_rfl, le_rfl⟩

omit [SyspageHeader] in
theorem Shrunk.ordered {t t' : List AsinfoEntry} (h : Shrunk t t') : AsOrdered t' :=
  fun e he => (h e he).1

omit [SyspageHeader] in
theorem Shrunk.trans {t t' t'' : List AsinfoEntry} (h : Shrunk t t') (h' : Shrunk t' t'') :
    Shrunk t t'' := by
  intro e he
  obtain ⟨hord, e1, he1, hn1, hlo1, hhi1⟩ := h' e he
  obtain ⟨-, e0, he0, hn0, hlo0, hhi0⟩ := h e1 he1
  refine ⟨hord, e0, he0, ?_, hlo0.trans hlo1, hhi1.trans hhi0⟩
  rcases hn1 with hn1 | hn1
  · rwa [← hn1]
  · exact .inr hn1

omit [SyspageHeader] in
theorem Shrunk.set {t : List AsinfoEntry} {o : Nat} {as as' : AsinfoEntry} (h : AsOrdered t)
    (has : t[o]? = some as) (hname : as'.name = as.name) (hlo : as.start ≤ as'.start)
    (hord : as'.start ≤ as'.stop) (hhi : as'.stop ≤ as.stop) :
    Shrunk t (t.set o as') := by
  intro e he
  rcases List.mem_or_eq_of_mem_set he with he | rfl
  · exact h.shrunk e he
  · exact ⟨hord, as, List.mem_of_getElem? has, .inl hname.symm, hlo, hhi⟩

omit [SyspageHeader] in
theorem Shrunk.of_plain {t t' u : List AsinfoEntry} {new : List AsinfoEntry} (h : Shrunk t t')
    (heq : u.map AsinfoEntry.plain = t'.map AsinfoEntry.plain ++ new) {e : AsinfoEntry}
    (he : e ∈ u) :
    e.plain ∈ new ∨ e.start ≤ e.stop ∧
      ∃ e0 ∈ t, (e0.name = e.name ∨ e.name = "sysram") ∧ e0.start ≤ e.start ∧ e.stop ≤ e0.stop := by
  have hmem : e.plain ∈ u.map AsinfoEntry.plain := List.mem_map_of_mem he
  rw [heq] at hmem
  rcases List.mem_append.mp hmem with hmem | hmem
  · obtain ⟨e', he', hplain⟩ := List.mem_map.mp hmem
    have hsame := h e' he'
    have h1 := congrArg AsinfoEntry.start hplain
    have h2 := congrArg AsinfoEntry.stop hplain
    have h3 := congrArg AsinfoEntry.name hplain
    rw [plain_start, plain_start] at h1
    rw [plain_stop, plain_stop] at h2
    rw [plain_name, plain_name] at h3
    rw [h1, h2, h3] at hsame
    exact .inr hsame
  · exact .inl hmem

theorem Shrunk.asAdd {t t' : List AsinfoEntry} {start stop : Nat} (owner : Option Nat)
    (h : Shrunk t t') (hord : start ≤ stop) (hin : ∃ e0 ∈ t, e0.start ≤ start ∧ stop ≤ e0.stop) :
    Shrunk t (asAdd start stop asAttrRam "sysram" owner t').1 := by
  intro e he
  rcases h.of_plain (asAdd_plain (by decide) ..) he with hnew | hold
  · have heq := List.mem_singleton.mp hnew
    have h1 : e.start = start := congrArg (fun as : AsinfoEntry => as.start) heq
    have h2 : e.stop = stop := congrArg (fun as : AsinfoEntry => as.stop) heq
    have h3 : e.name = "sysram" := congrArg (fun as : AsinfoEntry => as.name) heq
    obtain ⟨e0, he0, hlo, hhi⟩ := hin
    exact ⟨by omega, e0, he0, .inr h3, by omega, by omega⟩
  · exact hold

theorem sysramScan_shrunk {addr stop fuel : Nat} {off : Option Nat} {t t' : List AsinfoEntry}
    (hle : addr ≤ stop) (hb : stop + 1 < 2 ^ 64) (ht : AsOrdered t)
    (h : sysramScan addr stop fuel off t = .ok t') : Shrunk t t' := by
  induction fuel generalizing off t with
  | zero => cases h
  | succ fuel ih =>
    rw [sysramScan] at h
    cases hfind : asFindContaining off addr stop "sysram" t with
    | none =>
      simp only [hfind] at h
      obtain rfl := Except.ok.inj h
      exact ht.shrunk
    | some o =>
      obtain ⟨as, has, hname, hover⟩ := containsAt_iff.mp (asFindContaining_eq_some.mp hfind).1
      have hord := ht as (List.mem_of_getElem? has)
      obtain ⟨h1, h2⟩ := (overlaps_iff hle hord).mp hover
      simp only [hfind, has] at h
      rw [crash_ite_eq_ok] at h
      obtain ⟨hwhole, h⟩ := h
      by_cases hstart : addr ≤ as.start
      · have haddr : addr = if addr < as.start then addr else as.start := by split <;> omega
        have hstop : stop < as.stop := by
          by_contra hc
          refine hwhole ⟨haddr, ?_⟩
          split <;> omega
        rw [if_pos haddr, u64_of_lt (by omega)] at h
        have hset : Shrunk t (t.set o { as with start := stop + 1 }) :=
          .set ht has rfl (by dsimp only; omega) (by dsimp only; omega) le_rfl
        exact hset.trans (ih hset.ordered h)
      · have haddr : addr ≠ if addr < as.start then addr else as.start := by split <;> omega
        rw [if_neg haddr, sub64_of_le (by omega) (by omega)] at h
        have hset : Shrunk t (t.set o { as with stop := addr - 1 }) :=
          .set ht has rfl le_rfl (by dsimp only; omega) (by dsimp only; omega)
        by_cases hrest : (if stop > as.stop then stop else as.stop) ≠ stop
        · have hgt : ¬ stop > as.stop := fun hc => hrest (if_pos hc)
          simp only [if_neg hgt] at hrest h
          rw [if_pos hrest, u64_of_lt (by omega)] at h
          have hadd : Shrunk t (asAdd (stop + 1) as.stop asAttrRam "sysram" as.owner
              (t.set o { as with stop := addr - 1 })).1 :=
            hset.asAdd as.owner (by omega) ⟨as, List.mem_of_getElem? has, by omega, le_rfl⟩
          exact hadd.trans (ih hadd.ordered h)
        · rw [if_neg hrest] at h
          exact hset.trans (ih hset.ordered h)

theorem takeRam_shrunk {s s' : RamState} {addr size a : Nat} (hpos : 0 < size)
    (hb : addr + size < 2 ^ 64) (ht : AsOrdered s.asinfo) (h : takeRam addr size s = .ok (s', a)) :
    Shrunk s.asinfo s'.asinfo := by
  unfold takeRam at h
  simp only [u64_of_lt hb, sub64_of_le hb (show 1 ≤ addr + size by omega)] at h
  obtain ⟨l, -, h⟩ := bind_eq_ok.mp h
  split at h
  · obtain ⟨t, hscan, h⟩ := bind_eq_ok.mp h
    obtain ⟨rfl, -⟩ := Prod.mk.inj (Except.ok.inj h)
    exact sysramScan_shrunk (by omega) (by omega) ht hscan
  · obtain ⟨rfl, -⟩ := Prod.mk.inj (Except.ok.inj h)
    exact ht.shrunk

end

/-! ### Where the block is placed -/

theorem findTopRamAligned_sound {s : RamState} {f : FreeList} {size align pagesize : Nat}
    (hf : s.ramList.Holds f) (havoid : ∀ a ∈ s.avoidList, a.stop ≠ 0)
    (ha : align = 0 ∨ ∃ k < 32, align = 2 ^ k) (hsize : size < 2 ^ 64)
    (h : findTopRamAligned size align pagesize s ≠ nullPaddr) :
    TopSound f.entries s.avoidList (round size pagesize) align (2 ^ 64 - 1)
      (findTopRamAligned size align pagesize s) := by
  have hes : ∀ r ∈ f.entries, 0 < r.size ∧ r.addr + r.size < 2 ^ 64 :=
    fun r hr => ⟨f.pos hr, f.bound r hr⟩
  unfold findTopRamAligned findTopRamAlignedLimit at h ⊢
  rw [takeWhile_holds hf] at h ⊢
  rw [if_neg (by omega)] at h ⊢
  dsimp only at h ⊢
  generalize hscan : findTopScan (round size pagesize) align (2 ^ 64 - 1) s.avoidList 0 f.entries =
    top at h ⊢
  have hne : top ≠ 0 := fun h0 => h (if_pos h0)
  rw [if_neg hne] at h ⊢
  cases hR : reachingLimit (round size pagesize) align (2 ^ 64 - 1) s.avoidList f.entries with
  | none =>
    exact (hscan ▸ (findTopScan_kept ha hes (.inl rfl) hR).sound ha hes havoid).resolve_left hne
  | some c =>
    obtain ⟨start, chk⟩ := c
    -- a candidate that reaches the end of the address space ends there, and is aligned
    obtain ⟨⟨r, hr, hc⟩, hreach, -⟩ := findTopScan_reached ha hes (.inl (Eq.refl 0)) hR
    obtain ⟨hpos, hb⟩ := hes r hr
    obtain ⟨e, -, -, -, hhi, -, hend, hd⟩ := topInBlock_some hpos hb ha hc
    have hexact : chk = 2 ^ 64 - 1 - round size pagesize := by omega
    have hiff := reached_sound_iff ha hes havoid (by decide) (round_lt _ _) hR
    dsimp only at hiff
    rw [hscan] at hiff
    have hsound := hiff.mpr (.inr ⟨by omega, .inr (by
      by_cases h0 : align = 0
      · exact .inl h0
      · exact .inr (hexact ▸ hd h0))⟩)
    exact (hsound.resolve_left hne).resolve_left h

/-- The elements new at the end of the section have the name and lie in the block; what stands
before them is the old section, less what went out of "sysram". -/
def AddedWithin (s s' : RamState) (name : Option String) (block : Set Nat) : Prop :=
  ∃ t new, Shrunk s.asinfo t ∧ s'.asinfo.map AsinfoEntry.plain = t.map AsinfoEntry.plain ++ new ∧
    ∀ e ∈ new, e.name = reservedName name ∧ e.set ⊆ block

/-- One block of `block` bytes at `a` was usable and has left the free list. -/
structure ReservedBlock (f : FreeList) (s s' : RamState) (name : Option String)
    (block align a : Nat) : Prop where
  aligned : align ∣ a
  usable : bytes a block ⊆ f.bytes \ avoided s.avoidList
  removed : s'.free = f.bytes \ bytes a block
  published : AddedWithin s s' name (bytes a block)

section
variable [SyspageHeader] {s s' : RamState} {f : FreeList} {size align pagesize lowRegion : Nat}
  {name : Option String}

omit [SyspageHeader] in
theorem le_of_sdiff_bytes_eq {t u : Set Nat} {a b m n : Nat} (hm : 0 < m) (hsub : bytes b m ⊆ t \ u)
    (heq : t \ bytes a n = t \ bytes b m) : a ≤ b ∧ b + m ≤ a + n := by
  have hin : ∀ x ∈ bytes b m, x ∈ bytes a n := by
    intro x hx
    by_contra hc
    have hout : x ∈ t \ bytes b m := heq ▸ ⟨(hsub hx).1, hc⟩
    exact hout.2 hx
  have hfirst := mem_bytes.mp (hin b (mem_bytes.mpr ⟨le_rfl, by omega⟩))
  have hlast := mem_bytes.mp (hin (b + m - 1) (mem_bytes.mpr ⟨by omega, by omega⟩))
  exact ⟨hfirst.1, by omega⟩

/-- The block that `find_ram` finds is zeroed in its place, and has nothing of `ram_list` in it. -/
structure ZeroedInPlace (lists size align : Nat) (s : RamState) : Prop where
  below : findRam size align 0 0 s < 2 ^ 32
  apart : Disjoint (bytes (findRam size align 0 0 s) size)
    (bytes (lists + maxAvoidListSize) s.ramList.size)

/-- What is taken is the block found at the top, or the one that `find_ram` finds. -/
theorem reserveRam_takes {lists al a : Nat} {s1 : RamState} (hf : s.ramList.Holds f)
    (hstop : ∀ a ∈ s.avoidList, a.stop ≠ 0) (hsize : size < 2 ^ 32) (ha : ∃ k < 32, al = 2 ^ k)
    (hround : size ≤ round size pagesize)
    (hplace : s.secureSystem = true → lowRegion ≠ 0 → ZeroedInPlace lists size al s)
    {reserved : Nat}
    (htop : (if lowRegion = 0 then
        let reserved := findTopRamAligned size al pagesize s
        if reserved = nullPaddr then crash "Could not reserve 0x%x bytes from top of memory.\n"
          else .ok reserved
      else .ok nullPaddr : Startup Nat) = .ok reserved)
    (halloc : Stored.allocRam lists reserved size al s = .ok (s1, a)) (hn : a ≠ nullPaddr) :
    al ∣ a ∧ a + size < 2 ^ 64 ∧
      (∃ t, t.ramList.Holds f ∧ t.asinfo = s.asinfo ∧ takeRam a size t = .ok (s1, a)) ∧
      (lowRegion = 0 → bytes a (round size pagesize) ⊆ f.bytes \ avoided s.avoidList) ∧
      (lowRegion ≠ 0 → a = findRam size al 0 0 s ∧
        (bytes a size ⊆ f.bytes \ avoided s.avoidList ∨ a = 0)) := by
  by_cases hlow : lowRegion = 0
  · rw [if_pos hlow] at htop
    obtain ⟨hne, hres⟩ := crash_ite_eq_ok.mp htop
    have hsound := findTopRamAligned_sound hf hstop (.inr ha) (by omega) hne
    rw [Except.ok.inj hres] at hne hsound
    rw [Stored.allocRam, if_neg hne] at halloc
    obtain ⟨r, hr, hlo, hhi⟩ := hsound.inside
    have hbound := f.bound r hr
    obtain rfl := (takeRam_ok hf (by omega) halloc).1
    obtain ⟨k, -, hk⟩ := ha
    refine ⟨hsound.aligned (hk ▸ (Nat.two_pow_pos k).ne'), by omega, ⟨s, hf, rfl, halloc⟩,
      fun _ x hx => ?_, fun hc => absurd hlow hc⟩
    have hx' := mem_bytes.mp hx
    exact ⟨FreeList.mem_bytes.mpr ⟨r, hr, by omega, by omega⟩, hsound.avoids x hx⟩
  · rw [if_neg hlow] at htop
    obtain rfl := Except.ok.inj htop
    simp only [Stored.allocRam, if_true] at halloc
    by_cases hne : findRam size al 0 0 s = nullPaddr
    · rw [if_pos hne] at halloc
      cases halloc
      exact absurd rfl hn
    rw [if_neg hne] at halloc
    have hbound := findRam_bound hf hne
    have htakes : ∃ t, t.ramList.Holds f ∧ t.asinfo = s.asinfo ∧
        takeRam (findRam size al 0 0 s) size t = .ok (s1, a) := by
      by_cases hsec : s.secureSystem = true
      · obtain ⟨hbelow, hapart⟩ := hplace hsec hlow
        rw [if_pos hsec, u32_of_lt hbelow] at halloc
        exact ⟨_, zeroed_holds hf hapart.symm, rfl, halloc⟩
      · rw [if_neg hsec] at halloc
        exact ⟨s, hf, rfl, halloc⟩
    obtain ⟨t, ht, hasinfo, htake⟩ := htakes
    obtain rfl := (takeRam_ok ht hbound htake).1
    obtain ⟨k, hk, rfl⟩ := ha
    obtain ⟨hd, hplaced⟩ := findRam_placed hf (by omega) hne
    rw [inForce_eq_self hstop] at hplaced
    exact ⟨hd, hbound, ⟨t, ht, hasinfo, htake⟩, fun hc => absurd hc hlow, fun _ => ⟨rfl, hplaced⟩⟩

theorem reserveRam_ok {lists : Nat} (hf : s.ramList.Holds f)
    (havoid : ∀ a ∈ s.avoidList, a.start < a.stop)
    (has : AsOrdered s.asinfo) (hsize : 0 < size) (hsize' : size < 2 ^ 32)
    (ha : ∃ k < 32, (if align ≠ 0 then align else pagesize) = 2 ^ k)
    (hround : size ≤ round size pagesize)
    (hplace : s.secureSystem = true → lowRegion ≠ 0 →
      ZeroedInPlace lists size (if align ≠ 0 then align else pagesize) s)
    (h : reserveRam lists size align name pagesize lowRegion s = .ok s') :
    ∃ a, (if align ≠ 0 then align else pagesize) ∣ a ∧ s'.free = f.bytes \ bytes a size ∧
      AddedWithin s s' name (bytes a size) ∧
      (lowRegion = 0 → bytes a (round size pagesize) ⊆ f.bytes \ avoided s.avoidList) ∧
      (lowRegion ≠ 0 → a = findRam size (if align ≠ 0 then align else pagesize) 0 0 s ∧
        (bytes a size ⊆ f.bytes \ avoided s.avoidList ∨ a = 0)) := by
  have hstop : ∀ a ∈ s.avoidList, a.stop ≠ 0 := fun a ha => (Nat.zero_lt_of_lt (havoid a ha)).ne'
  rw [reserveRam, if_neg hsize.ne'] at h
  dsimp only at h
  generalize (if align ≠ 0 then align else pagesize) = al at ha hplace h ⊢
  obtain ⟨reserved, htop, h⟩ := bind_eq_ok.mp h
  obtain ⟨⟨s1, a⟩, halloc, h⟩ := bind_eq_ok.mp h
  obtain ⟨hn, h⟩ := crash_ite_eq_ok.mp h
  obtain rfl := Except.ok.inj h
  obtain ⟨hd, hb, ⟨t, ht, hasinfo, htake⟩, hzero, hnonzero⟩ :=
    reserveRam_takes hf hstop hsize' ha hround hplace htop halloc hn
  obtain ⟨-, hholds, -⟩ := takeRam_ok ht hb htake
  refine ⟨a, hd, ?_, ?_, hzero, hnonzero⟩
  · rw [← FreeList.bytes_erase_size]
    exact RamState.free_eq hholds
  · have hshrunk := takeRam_shrunk hsize hb (hasinfo ▸ has) htake
    rw [hasinfo] at hshrunk
    dsimp only
    rw [u64_of_lt hb, sub64_of_le hb (by omega)]
    obtain ⟨list, hlist, heq⟩ := asAddContaining_within (reservedName name) "ram"
      (show asAttrRam &&& asOverlayIo = 0 by decide) hshrunk.ordered
        (show a ≤ a + size - 1 by omega) (by omega)
    refine ⟨_, _, hshrunk, heq, fun e he => ?_⟩
    obtain ⟨r, hr, rfl⟩ := List.mem_map.mp he
    obtain ⟨-, hlo, hhi⟩ := hlist r hr
    refine ⟨rfl, fun x hx => ?_⟩
    obtain ⟨hx1, hx2⟩ := Set.mem_Icc.mp hx
    dsimp only at hx1 hx2
    exact mem_bytes.mpr ⟨by omega, by omega⟩

/-- Whole pages leave the free list exactly when the size is one already, and the low search did
not wrap round to an address 0 that is not free. A secure system has to zero the block that it
finds low where it lies. -/
theorem reserve_ram_whole_pages {lists : Nat} (hf : s.ramList.Holds f)
    (havoid : ∀ a ∈ s.avoidList, a.start < a.stop) (has : AsOrdered s.asinfo) (hsize : 0 < size)
    (hsize' : size < 2 ^ 32) (halign : align = 0 ∨ ∃ k < 32, align = 2 ^ k)
    (hpage : ∃ j < 32, pagesize = 2 ^ j)
    (hplace : s.secureSystem = true → lowRegion ≠ 0 →
      ZeroedInPlace lists size (if align ≠ 0 then align else pagesize) s)
    (h : reserveRam lists size align name pagesize lowRegion s = .ok s') :
    (∃ a, ReservedBlock f s s' name (round size pagesize) (if align ≠ 0 then align
      else pagesize) a) ↔
      pagesize ∣ size ∧ (lowRegion ≠ 0 →
        findRam size (if align ≠ 0 then align else pagesize) 0 0 s = 0 →
        bytes 0 size ⊆ f.bytes \ avoided s.avoidList) := by
  obtain ⟨j, hj, rfl⟩ := hpage
  have hpow : 2 ^ j ≤ 2 ^ 32 := Nat.pow_le_pow_right (by decide) hj.le
  have hsum : size + 2 ^ j ≤ 2 ^ 64 := by omega
  obtain ⟨hle, hd, -⟩ := round_two_pow (by omega) hsum
  have ha : ∃ k < 32, (if align ≠ 0 then align else 2 ^ j) = 2 ^ k := by
    rcases halign with rfl | ⟨k, hk, rfl⟩
    · exact ⟨j, hj, rfl⟩
    · exact ⟨k, hk, if_pos (Nat.two_pow_pos k).ne'⟩
  obtain ⟨a, hda, hfree, hpub, hzero, hlow⟩ :=
    reserveRam_ok hf havoid has hsize hsize' ha hle hplace h
  constructor
  · rintro ⟨b, hb⟩
    have hpos : 0 < round size (2 ^ j) := by omega
    obtain ⟨hfirst, hlast⟩ := le_of_sdiff_bytes_eq hpos hb.usable (hfree.symm.trans hb.removed)
    have hwhole : round size (2 ^ j) = size := by omega
    obtain rfl : b = a := by omega
    refine ⟨hwhole ▸ hd, fun hnz h0 => ?_⟩
    rw [← h0, ← (hlow hnz).1]
    exact hwhole ▸ hb.usable
  · rintro ⟨hmul, hfound⟩
    have hwhole : round size (2 ^ j) = size := round_eq_self (by omega) hsum hmul
    rw [hwhole] at hzero ⊢
    refine ⟨a, hda, ?_, hfree, hpub⟩
    by_cases hl : lowRegion = 0
    · exact hzero hl
    · obtain ⟨heq, hin | h0⟩ := hlow hl
      · exact hin
      · rw [h0]
        exact hfound hl (heq ▸ h0)

end

def knownRam : RamState :=
  { ramAt 0x80000000 with asinfo := [⟨0x80000000, 0x80ffffff, none, "ram", asAttrRam, 0⟩] }

theorem knownRam_ordered : AsOrdered knownRam.asinfo := by
  intro as has
  obtain rfl := List.mem_singleton.mp has
  decide

theorem reserve_ram_whole_pages_example :
    ∃ f a, knownRam.ramList.Holds f ∧
      ReservedBlock f knownRam (resultOr knownRam
        (@reserveRam qnxSyspageHeader 0x70000000 0x2000 0 none 0x1000 0 knownRam)) none
        (round 0x2000 0x1000) 0x1000 a := by
  let _ := qnxSyspageHeader
  obtain ⟨f, hf, -⟩ := ramAt_holds (show 0x80000000 + 0x1000000 < 2 ^ 64 by decide)
  have hf' : knownRam.ramList.Holds f := hf
  have hrun := eq_ok_resultOr knownRam (x := reserveRam 0x70000000 0x2000 0 none 0x1000 0 knownRam)
    (by decide +kernel)
  obtain ⟨a, ha⟩ := (reserve_ram_whole_pages hf' (by decide) knownRam_ordered (by decide)
    (by decide) (.inl rfl)
    ⟨12, by decide, rfl⟩ (fun hsec => absurd hsec (by decide)) hrun).mpr
      ⟨by decide, fun h0 => absurd rfl h0⟩
  exact ⟨f, a, hf', ha⟩

/-- Half of the second page stays allocatable. -/
theorem reserve_ram_splits_page :
    ∃ f s', knownRam.ramList.Holds f ∧
      @reserveRam qnxSyspageHeader 0x70000000 0x1800 0 none 0x1000 0 knownRam = .ok s' ∧
        0x80fff800 ∈ s'.free ∧
        ¬ ∃ a, ReservedBlock f knownRam s' none (round 0x1800 0x1000) 0x1000 a := by
  let _ := qnxSyspageHeader
  obtain ⟨f, hf, -⟩ := ramAt_holds (show 0x80000000 + 0x1000000 < 2 ^ 64 by decide)
  have hf' : knownRam.ramList.Holds f := hf
  have hrun := eq_ok_resultOr knownRam (x := reserveRam 0x70000000 0x1800 0 none 0x1000 0 knownRam)
    (by decide +kernel)
  obtain ⟨a, -, hfree, -⟩ := reserveRam_ok hf' (by decide) knownRam_ordered (by decide) (by decide)
    (show ∃ k < 32, (if 0 ≠ 0 then 0 else 0x1000) = 2 ^ k from ⟨12, by decide, rfl⟩) (by decide)
    (fun hsec => absurd hsec (by decide)) hrun
  refine ⟨f, _, hf', hrun, ?_, fun ⟨b, hb⟩ => ?_⟩
  · exact ⟨⟨0x80fff800, 0x800⟩, by decide +kernel, mem_bytes.mpr (by decide)⟩
  · obtain ⟨hfirst, hlast⟩ := le_of_sdiff_bytes_eq (by decide) hb.usable
      (hfree.symm.trans hb.removed)
    have hround : round 0x1800 0x1000 = 0x2000 := by decide
    omega

end QnxStartup
