import Mathlib.Data.List.Basic
import QnxStartup.Machine
import QnxStartup.Ranges

/-! The free-RAM array of `ram.c`: `add_mem` and the scan of `alloc_ram`, both of
which shift the array in place while they walk it. -/

namespace QnxStartup

open Ranges

structure RamEntry where
  addr : Nat
  size : Nat
  deriving DecidableEq, Repr

def sizeofRamEntry : Nat := 16

def maxRamListSize : Nat := 3 * 1024

/-- `ram_list` and `ram_list_size`: the elements inside the first `size` bytes of
the array, the terminating entry of size 0 included. -/
structure RamList where
  entries : List RamEntry
  size : Nat
  deriving DecidableEq, Repr

/-- The elements that a `memmove` from element `i` on moves. -/
def RamList.tailFrom (l : RamList) (i : Nat) : List RamEntry :=
  (l.entries.drop i).take ((l.size - i * sizeofRamEntry) / sizeofRamEntry)

/-- `memmove(&r[1], r, ..)` at element `i`, then storing `r` there. -/
def RamList.openAt (l : RamList) (i : Nat) (r : RamEntry) : RamList :=
  ⟨l.entries.take i ++ r :: l.tailFrom i, l.size + sizeofRamEntry⟩

/-- `memmove(r, &r[1], ..)` at element `i`. -/
def RamList.closeAt (l : RamList) (i : Nat) : RamList :=
  ⟨l.entries.take i ++ l.tailFrom (i + 1), l.size - sizeofRamEntry⟩

def RamList.setAt (l : RamList) (i : Nat) (r : RamEntry) : RamList :=
  { l with entries := l.entries.set i r }

/-- The second loop of `add_mem`, at element `i`. -/
def mergeScan : Nat → Nat → RamList → RamList
  | 0, _, l => l
  | fuel + 1, i, l =>
    match l.entries[i - 1]?, l.entries[i]? with
    | some p, some r =>
      if r.size = 0 then l
      else
        let e := u64 (p.addr + p.size)
        let s := r.addr
        if s ≤ e then
          let e := if u64 (s + r.size) > e then u64 (s + r.size) else e
          mergeScan fuel i ((l.closeAt i).setAt (i - 1) ⟨p.addr, sub64 e p.addr⟩)
        else mergeScan fuel (i + 1) l
    | _, _ => l

def addMem (start size : Nat) (l : RamList) : Startup RamList :=
  if size > 0 then
    let i := l.entries.findIdx (fun r => r.size == 0 || r.addr > start)
    if l.size > maxRamListSize - sizeofRamEntry then
      crash "RAM entry array overflow\n"
    else
      .ok (mergeScan (l.entries.length + 1) 1 (l.openAt i ⟨start, size⟩))
  else .ok l

/-- The loop of `alloc_ram` over the array, at element `i`. -/
def allocScan (addr stop : Nat) : Nat → Nat → RamList → Startup RamList
  | 0, _, _ => .error .noReturn
  | fuel + 1, i, l =>
    match l.entries[i]? with
    | none => .ok l
    | some r =>
      if r.size = 0 then .ok l
      else
        let s := r.addr
        let e := u64 (s + r.size)
        if (addr ≤ s ∧ stop > s) ∨ (addr ≥ s ∧ addr < e) ∨ (stop ≥ s ∧ stop < e) then
          let e := if stop > e then stop else e
          let s := if addr < s then addr else s
          if addr = s ∧ stop = e then allocScan addr stop fuel i (l.closeAt i)
          else if addr = s then allocScan addr stop fuel (i + 1) (l.setAt i ⟨stop, e - stop⟩)
          else
            let l := l.setAt i ⟨r.addr, addr - s⟩
            if e ≠ stop then
              (addMem stop (e - stop) l).bind (allocScan addr stop fuel (i + 1))
            else allocScan addr stop fuel (i + 1) l
        else allocScan addr stop fuel (i + 1) l

def RamEntry.span (r : RamEntry) : Span Nat := ⟨r.addr, r.addr + r.size⟩

theorem RamEntry.span_injective : Function.Injective RamEntry.span := by
  rintro ⟨a, n⟩ ⟨b, m⟩ h
  simp only [RamEntry.span, Span.mk.injEq] at h
  simp only [RamEntry.mk.injEq]
  omega

/-- A free list as `ram.c` means it to be: nonempty blocks below `2 ^ 64`, sorted,
with a gap between neighbours. -/
structure FreeList where
  entries : List RamEntry
  bound : ∀ r ∈ entries, r.addr + r.size < 2 ^ 64
  separated : Separated (entries.map RamEntry.span)

namespace FreeList

def bytes (f : FreeList) : Set Nat := cover (f.entries.map RamEntry.span)

theorem mem_bytes {f : FreeList} {x : Nat} :
    x ∈ f.bytes ↔ ∃ r ∈ f.entries, r.addr ≤ x ∧ x < r.addr + r.size := by
  simp [bytes, mem_cover, RamEntry.span]

theorem pos {f : FreeList} {r : RamEntry} (h : r ∈ f.entries) : 0 < r.size := by
  have := f.separated.1 _ (List.mem_map_of_mem h)
  simp only [RamEntry.span] at this
  omega

theorem ext_of_bytes {f g : FreeList} (h : f.bytes = g.bytes) : f.entries = g.entries :=
  List.map_injective_iff.2 RamEntry.span_injective (f.separated.eq_of_cover_eq g.separated h)

def empty : FreeList := ⟨[], by simp, Separated.nil⟩

@[simp] theorem bytes_empty : empty.bytes = ∅ := by simp [empty, bytes]

end FreeList

/-- The array whose used part is exactly `es`. -/
def RamList.ofEntries (es : List RamEntry) : RamList := ⟨es, es.length * sizeofRamEntry⟩

/-- The array holds the free list: its entries, one terminator of size 0, and the
byte count of both. -/
def RamList.Holds (l : RamList) (f : FreeList) : Prop :=
  ∃ last, last.size = 0 ∧ l = .ofEntries (f.entries ++ [last])

theorem closeAt_ofEntries (pre post : List RamEntry) (r : RamEntry) :
    (RamList.ofEntries (pre ++ r :: post)).closeAt pre.length = .ofEntries (pre ++ post) := by
  have hk : ((pre.length + (post.length + 1)) * 16 - (pre.length + 1) * 16) / 16 = post.length := by
    omega
  simp [RamList.closeAt, RamList.tailFrom, RamList.ofEntries, sizeofRamEntry, hk]
  omega

theorem openAt_ofEntries (pre post : List RamEntry) (r : RamEntry) :
    (RamList.ofEntries (pre ++ post)).openAt pre.length r = .ofEntries (pre ++ r :: post) := by
  have hk : ((pre.length + post.length) * 16 - pre.length * 16) / 16 = post.length := by
    omega
  simp [RamList.openAt, RamList.tailFrom, RamList.ofEntries, sizeofRamEntry, hk]
  omega

theorem setAt_ofEntries (pre post : List RamEntry) (r r' : RamEntry) :
    (RamList.ofEntries (pre ++ r :: post)).setAt pre.length r' =
      .ofEntries (pre ++ r' :: post) := by
  simp [RamList.setAt, RamList.ofEntries]

theorem getElem?_at (pre post : List RamEntry) (r : RamEntry) :
    (pre ++ r :: post)[pre.length]? = some r := by simp

theorem mergeScan_at (pre post : List RamEntry) (p r : RamEntry) (fuel : Nat) (hr : 0 < r.size)
    (hp : p.addr + p.size < 2 ^ 64) (hrb : r.addr + r.size < 2 ^ 64) :
    mergeScan (fuel + 1) (pre.length + 1) (.ofEntries (pre ++ p :: r :: post)) =
      if r.addr ≤ p.addr + p.size then
        mergeScan fuel (pre.length + 1) (.ofEntries
          (pre ++ ⟨p.addr, max (p.addr + p.size) (r.addr + r.size) - p.addr⟩ :: post))
      else mergeScan fuel (pre.length + 2) (.ofEntries (pre ++ p :: r :: post)) := by
  have hpi : (RamList.ofEntries (pre ++ p :: r :: post)).entries[pre.length + 1 - 1]? = some p :=
    getElem?_at pre (r :: post) p
  have hri : (RamList.ofEntries (pre ++ p :: r :: post)).entries[pre.length + 1]? = some r := by
    simp [RamList.ofEntries]
  rw [mergeScan, hpi, hri]
  dsimp only
  rw [if_neg (by omega), u64_of_lt hp, u64_of_lt hrb]
  by_cases ht : r.addr ≤ p.addr + p.size
  · have hclose := closeAt_ofEntries (pre ++ [p]) post r
    simp only [List.append_assoc, List.singleton_append, List.length_append,
      List.length_singleton] at hclose
    have hmax : (if r.addr + r.size > p.addr + p.size then r.addr + r.size else p.addr + p.size) =
        max (p.addr + p.size) (r.addr + r.size) := by
      split <;> omega
    rw [if_pos ht, if_pos ht, hclose, hmax, Nat.add_sub_cancel, setAt_ofEntries,
      sub64_of_le (by omega) (by omega)]
  · rw [if_neg ht, if_neg ht]

theorem mergeScan_ofEntries {last : RamEntry} (hlast : last.size = 0) (rest : List RamEntry)
    (pre : List RamEntry) (p : RamEntry) (fuel : Nat) (hfuel : rest.length < fuel)
    (hp : p.addr + p.size < 2 ^ 64) (hrest : ∀ r ∈ rest, 0 < r.size ∧ r.addr + r.size < 2 ^ 64) :
    ∃ out, mergeScan fuel (pre.length + 1) (.ofEntries (pre ++ p :: (rest ++ [last]))) =
        .ofEntries (pre ++ out ++ [last]) ∧
      out.map RamEntry.span = coalesce p.span (rest.map RamEntry.span) ∧
      ∀ r ∈ out, r.addr + r.size < 2 ^ 64 := by
  induction rest generalizing pre p fuel with
  | nil =>
    obtain ⟨fuel, rfl⟩ : ∃ k, fuel = k + 1 := ⟨fuel - 1, by simp at hfuel; omega⟩
    refine ⟨[p], ?_, by simp [coalesce], by simpa using hp⟩
    simp [mergeScan, RamList.ofEntries, hlast]
  | cons r rest ih =>
    obtain ⟨fuel, rfl⟩ : ∃ k, fuel = k + 1 := ⟨fuel - 1, by simp at hfuel; omega⟩
    have hf : rest.length < fuel := by simpa using hfuel
    obtain ⟨hr, hrest⟩ := List.forall_mem_cons.mp hrest
    rw [List.cons_append, mergeScan_at pre (rest ++ [last]) p r fuel hr.1 hp hr.2]
    by_cases ht : r.addr ≤ p.addr + p.size
    · rw [if_pos ht]
      obtain ⟨out, ho, hs, hb⟩ :=
        ih pre ⟨p.addr, max (p.addr + p.size) (r.addr + r.size) - p.addr⟩ fuel hf
          (by simp; omega) hrest
      refine ⟨out, ho, ?_, hb⟩
      have hmax : p.addr + (max (p.addr + p.size) (r.addr + r.size) - p.addr) =
          max (p.addr + p.size) (r.addr + r.size) := by omega
      rw [hs, List.map_cons, coalesce, if_pos (show r.span.lo ≤ p.span.hi from ht)]
      simp only [RamEntry.span, hmax]
    · rw [if_neg ht]
      obtain ⟨out, ho, hs, hb⟩ := ih (pre ++ [p]) r fuel hf hr.2 hrest
      refine ⟨p :: out, ?_, ?_, ?_⟩
      · simpa using ho
      · rw [List.map_cons, List.map_cons, coalesce,
          if_neg (show ¬ r.span.lo ≤ p.span.hi from ht), hs]
      · simpa using ⟨hp, hb⟩

theorem findIdx_insertion {last : RamEntry} (hlast : last.size = 0) (start : Nat)
    {es : List RamEntry} (hpos : ∀ r ∈ es, 0 < r.size)
    (hsorted : es.Pairwise (fun r r' => r.addr ≤ r'.addr)) :
    ∃ pre post, es = pre ++ post ∧
      (es ++ [last]).findIdx (fun r => r.size == 0 || r.addr > start) = pre.length ∧
      (∀ r ∈ pre, r.addr ≤ start) ∧ ∀ r ∈ post, start < r.addr := by
  induction es with
  | nil => exact ⟨[], [], rfl, by simp [List.findIdx_cons, hlast], by simp, by simp⟩
  | cons a es ih =>
    have ha : 0 < a.size := hpos a (by simp)
    have hs := List.pairwise_cons.mp hsorted
    by_cases hlt : start < a.addr
    · refine ⟨[], a :: es, rfl, by simp [List.findIdx_cons, hlt], by simp, ?_⟩
      intro r hr
      rcases List.mem_cons.mp hr with rfl | hr
      · exact hlt
      · exact hlt.trans_le (hs.1 r hr)
    · obtain ⟨pre, post, rfl, hi, hpre, hpost⟩ := ih (fun r hr => hpos r (by simp [hr])) hs.2
      refine ⟨a :: pre, post, rfl, ?_, ?_, hpost⟩
      · have hne : (a.size == 0) = false := by simp; omega
        simp only [List.cons_append, List.findIdx_cons, hne, Bool.false_or, hi]
        simp [hlt]
      · intro r hr
        rcases List.mem_cons.mp hr with rfl | hr
        · exact not_lt.mp hlt
        · exact hpre r hr

theorem FreeList.sorted (f : FreeList) : f.entries.Pairwise (fun r r' => r.addr ≤ r'.addr) := by
  have h := f.separated.sorted
  rwa [List.pairwise_map] at h

theorem addMem_ofEntries {start size : Nat} {es pre post : List RamEntry} {last : RamEntry}
    {l' : RamList} (hsize : size > 0) (hes : es = pre ++ post)
    (hi : (es ++ [last]).findIdx (fun r => r.size == 0 || r.addr > start) = pre.length)
    (h : addMem start size (.ofEntries (es ++ [last])) = .ok l') :
    l' = mergeScan (es.length + 2) 1 (.ofEntries (pre ++ ⟨start, size⟩ :: (post ++ [last]))) := by
  have hopen := openAt_ofEntries pre (post ++ [last]) ⟨start, size⟩
  rw [← List.append_assoc, ← hes] at hopen
  simp only [addMem, if_pos hsize, crash_ite_eq_ok, Except.ok.injEq] at h
  rw [← h.2, show (RamList.ofEntries (es ++ [last])).entries = es ++ [last] from rfl, hi, hopen]
  simp

/-- The entries with a block put in where it belongs, before they are joined. -/
theorem FreeList.inserted {f : FreeList} {start size : Nat} {pre post : List RamEntry}
    (hsize : 0 < size) (hb : start + size < 2 ^ 64) (hes : f.entries = pre ++ post)
    (hpre : ∀ r ∈ pre, r.addr ≤ start) (hpost : ∀ r ∈ post, start < r.addr) :
    (∀ r ∈ pre ++ ⟨start, size⟩ :: post, 0 < r.size ∧ r.addr + r.size < 2 ^ 64) ∧
      ((pre ++ ⟨start, size⟩ :: post).map RamEntry.span).Pairwise fun r r' => r.lo ≤ r'.lo := by
  refine ⟨fun r hr => ?_, ?_⟩
  · rcases List.mem_append.mp hr with hr | hr
    · have hmem : r ∈ f.entries := hes ▸ List.mem_append_left _ hr
      exact ⟨f.pos hmem, f.bound r hmem⟩
    rcases List.mem_cons.mp hr with rfl | hr
    · exact ⟨hsize, hb⟩
    · have hmem : r ∈ f.entries := hes ▸ List.mem_append_right _ hr
      exact ⟨f.pos hmem, f.bound r hmem⟩
  · obtain ⟨h1, h2, h3⟩ := List.pairwise_append.mp (hes ▸ f.sorted)
    rw [List.pairwise_map]
    refine List.pairwise_append.mpr
      ⟨h1, List.pairwise_cons.mpr ⟨fun r hr => (hpost r hr).le, h2⟩, ?_⟩
    intro r hr r' hr'
    rcases List.mem_cons.mp hr' with rfl | hr'
    · exact hpre r hr
    · exact h3 r hr r' hr'

/-- `add_mem` adds exactly the bytes of its block to the free list. -/
theorem addMem_holds {l l' : RamList} {f : FreeList} {start size : Nat} (hl : l.Holds f)
    (hb : start + size < 2 ^ 64) (h : addMem start size l = .ok l') :
    ∃ f' : FreeList, l'.Holds f' ∧ f'.bytes = f.bytes ∪ QnxStartup.bytes start size := by
  by_cases hsize : size > 0
  swap
  · rw [addMem, if_neg hsize, Except.ok.injEq] at h
    refine ⟨f, h ▸ hl, ?_⟩
    rw [show size = 0 by omega]
    simp [QnxStartup.bytes]
  obtain ⟨last, hlast, rfl⟩ := hl
  obtain ⟨pre, post, hes, hi, hpre, hpost⟩ :=
    findIdx_insertion hlast start (fun r hr => f.pos hr) f.sorted
  obtain ⟨q, rest, hq⟩ : ∃ q rest, pre ++ ⟨start, size⟩ :: post = q :: rest :=
    List.exists_cons_of_ne_nil (by simp)
  have hmem : ∀ r, r ∈ q :: rest ↔ r = ⟨start, size⟩ ∨ r ∈ f.entries := by
    intro r
    rw [← hq, hes]
    simp only [List.mem_append, List.mem_cons]
    tauto
  obtain ⟨hgood, hsorted⟩ := FreeList.inserted hsize hb hes hpre hpost
  rw [hq] at hgood hsorted
  have hlt : ∀ r ∈ rest.map RamEntry.span, r.lo < r.hi := by
    intro r hr
    obtain ⟨a, ha, rfl⟩ := List.mem_map.mp hr
    have := (hgood a (by simp [ha])).1
    simp only [RamEntry.span]
    omega
  have hq0 : q.span.lo < q.span.hi := by
    have := (hgood q (by simp)).1
    simp only [RamEntry.span]
    omega
  have hlen : rest.length < f.entries.length + 2 := by
    have := congrArg List.length hq
    rw [hes]
    simp only [List.length_append, List.length_cons] at this ⊢
    omega
  obtain ⟨out, ho, hs, hbound⟩ := mergeScan_ofEntries hlast rest [] q _ hlen
    (hgood q (by simp)).2 (fun r hr => hgood r (by simp [hr]))
  have hcons : pre ++ ⟨start, size⟩ :: (post ++ [last]) = [] ++ q :: (rest ++ [last]) := by
    have := congrArg (· ++ [last]) hq
    simpa using this
  refine ⟨⟨out, hbound, hs ▸ coalesce_separated _ _ hq0 hsorted hlt⟩, ⟨last, hlast, ?_⟩, ?_⟩
  · rw [addMem_ofEntries hsize hes hi h, hcons]
    simpa using ho
  · ext x
    rw [FreeList.bytes, hs, cover_coalesce _ _ hq0.le hsorted hlt, ← cover_cons, ← List.map_cons]
    simp only [Set.mem_union, FreeList.mem_bytes, mem_cover, List.mem_map, exists_exists_and_eq_and,
      hmem, RamEntry.span, mem_bytes]
    constructor
    · rintro ⟨r, rfl | hr, hx⟩
      · exact .inr hx
      · exact .inl ⟨r, hr, hx⟩
    · rintro (⟨r, hr, hx⟩ | hx)
      · exact ⟨r, .inr hr, hx⟩
      · exact ⟨_, .inl rfl, hx⟩

/-- What is left of a block when `[addr, stop)` is taken out of the list. -/
def cutEntry (addr stop : Nat) (r : RamEntry) : List RamEntry :=
  if stop ≤ addr then [r]
  else
    (if r.addr < addr then [⟨r.addr, min (r.addr + r.size) addr - r.addr⟩] else []) ++
      (if stop < r.addr + r.size then [⟨max r.addr stop, r.addr + r.size - max r.addr stop⟩]
        else [])

theorem cutEntry_span {addr stop : Nat} (hlt : addr < stop) (r : RamEntry) :
    (cutEntry addr stop r).map RamEntry.span = cut addr stop r.span := by
  have h1 : r.addr < addr → r.addr + (min (r.addr + r.size) addr - r.addr) =
      min (r.addr + r.size) addr := by
    omega
  have h2 : stop < r.addr + r.size →
      max r.addr stop + (r.addr + r.size - max r.addr stop) = r.addr + r.size := by
    omega
  rw [cutEntry, if_neg (not_le.mpr hlt), cut, List.map_append]
  congr 1
  · split
    · next h => simp [RamEntry.span, h, h1 h]
    · next h => simp [RamEntry.span, h]
  · split
    · next h => simp [RamEntry.span, h, h2 h]
    · next h => simp [RamEntry.span, h]

theorem flatMap_cutEntry_span {addr stop : Nat} (h : addr < stop) (es : List RamEntry) :
    (es.flatMap (cutEntry addr stop)).map RamEntry.span = (es.map RamEntry.span).flatMap
      (cut addr stop) := by
  simp [List.map_flatMap, List.flatMap_map, cutEntry_span h]

theorem flatMap_cutEntry_of_le {addr stop : Nat} (h : stop ≤ addr) (es : List RamEntry) :
    es.flatMap (cutEntry addr stop) = es := by
  have hc : cutEntry addr stop = fun r => [r] := funext fun r => if_pos h
  rw [hc, List.flatMap_singleton']

theorem cutEntry_bound {addr stop : Nat} {r a : RamEntry} (ha : a ∈ cutEntry addr stop r) :
    a.addr + a.size ≤ r.addr + r.size := by
  unfold cutEntry at ha
  split at ha
  · rw [List.mem_singleton.mp ha]
  rcases List.mem_append.mp ha with ha | ha <;> split at ha <;> simp at ha <;> subst ha <;>
    simp only <;> omega

def FreeList.erase (f : FreeList) (addr stop : Nat) : FreeList where
  entries := f.entries.flatMap (cutEntry addr stop)
  bound := by
    intro r hr
    obtain ⟨a, ha, hr⟩ := List.mem_flatMap.mp hr
    exact (cutEntry_bound hr).trans_lt (f.bound a ha)
  separated := by
    rcases lt_or_ge addr stop with h | h
    · rw [flatMap_cutEntry_span h]
      exact flatMap_cut_separated h f.separated
    · rw [flatMap_cutEntry_of_le h]
      exact f.separated

@[simp] theorem FreeList.bytes_erase (f : FreeList) (addr stop : Nat) :
    (f.erase addr stop).bytes = f.bytes \ Set.Ico addr stop := by
  rcases lt_or_ge addr stop with h | h
  · rw [FreeList.bytes, FreeList.erase, flatMap_cutEntry_span h, cover_flatMap_cut]
    rfl
  · simp [FreeList.bytes, FreeList.erase, flatMap_cutEntry_of_le h, Set.Ico_eq_empty (not_lt.mpr h)]

theorem cutEntry_of_after {addr stop : Nat} {r : RamEntry} (hr : 0 < r.size)
    (hle : stop ≤ r.addr) (ha : addr ≤ r.addr) : cutEntry addr stop r = [r] := by
  have hmax : max r.addr stop = r.addr := max_eq_left hle
  rw [cutEntry, if_neg (by omega : ¬ r.addr < addr),
    if_pos (by omega : stop < r.addr + r.size), hmax, Nat.add_sub_cancel_left]
  simp

theorem cutEntry_of_before {addr stop : Nat} (h : addr ≤ stop) {r : RamEntry} (hr : 0 < r.size)
    (hle : r.addr + r.size ≤ addr) : cutEntry addr stop r = [r] := by
  have hmin : min (r.addr + r.size) addr = r.addr + r.size := min_eq_left hle
  rw [cutEntry, if_pos (by omega : r.addr < addr),
    if_neg (by omega : ¬ stop < r.addr + r.size), hmin, Nat.add_sub_cancel_left]
  simp

theorem flatMap_cutEntry_of_before {addr stop : Nat} (h : addr ≤ stop) {es : List RamEntry}
    (hes : ∀ r ∈ es, 0 < r.size ∧ r.addr + r.size ≤ addr) :
    es.flatMap (cutEntry addr stop) = es := by
  induction es with
  | nil => rfl
  | cons r es ih =>
    obtain ⟨hr, hes⟩ := List.forall_mem_cons.mp hes
    rw [List.flatMap_cons, cutEntry_of_before h hr.1 hr.2, ih hes]
    rfl

theorem flatMap_cutEntry_of_after {addr stop : Nat} {es : List RamEntry}
    (hes : ∀ r ∈ es, 0 < r.size ∧ stop ≤ r.addr ∧ addr ≤ r.addr) :
    es.flatMap (cutEntry addr stop) = es := by
  induction es with
  | nil => rfl
  | cons r es ih =>
    obtain ⟨hr, hes⟩ := List.forall_mem_cons.mp hes
    rw [List.flatMap_cons, cutEntry_of_after hr.1 hr.2.1 hr.2.2, ih hes]
    rfl

theorem allocScan_at (addr stop : Nat) (pre post : List RamEntry) (r : RamEntry) (fuel : Nat)
    (hr : 0 < r.size) (hrb : r.addr + r.size < 2 ^ 64) (h : addr ≤ stop) :
    allocScan addr stop (fuel + 1) pre.length (.ofEntries (pre ++ r :: post)) =
      if addr ≤ r.addr ∧ r.addr + r.size ≤ stop then
        allocScan addr stop fuel pre.length (.ofEntries (pre ++ post))
      else if addr ≤ r.addr ∧ r.addr ≤ stop then
        allocScan addr stop fuel (pre.length + 1)
          (.ofEntries (pre ++ ⟨stop, r.addr + r.size - stop⟩ :: post))
      else if r.addr < addr ∧ addr < r.addr + r.size then
        if stop < r.addr + r.size then
          (addMem stop (r.addr + r.size - stop)
            (.ofEntries (pre ++ ⟨r.addr, addr - r.addr⟩ :: post))).bind
              (allocScan addr stop fuel (pre.length + 1))
        else allocScan addr stop fuel (pre.length + 1)
          (.ofEntries (pre ++ ⟨r.addr, addr - r.addr⟩ :: post))
      else allocScan addr stop fuel (pre.length + 1) (.ofEntries (pre ++ r :: post)) := by
  have hi : (RamList.ofEntries (pre ++ r :: post)).entries[pre.length]? = some r :=
    getElem?_at pre post r
  rw [allocScan, hi]
  dsimp only
  rw [if_neg (by omega), u64_of_lt hrb, closeAt_ofEntries, setAt_ofEntries, setAt_ofEntries]
  by_cases h1 : addr ≤ r.addr ∧ r.addr + r.size ≤ stop
  · -- the request swallows the block
    have hs : (if addr < r.addr then addr else r.addr) = addr := by split <;> omega
    have he : (if stop > r.addr + r.size then stop else r.addr + r.size) = stop := by
      split <;> omega
    rw [if_pos (by omega), if_pos h1, hs, he, if_pos ⟨rfl, rfl⟩]
  rw [if_neg h1]
  by_cases h2 : addr ≤ r.addr ∧ r.addr ≤ stop
  · -- it takes the head, or only touches the block from below
    have hs : (if addr < r.addr then addr else r.addr) = addr := by split <;> omega
    have he : (if stop > r.addr + r.size then stop else r.addr + r.size) = r.addr + r.size := by
      split <;> omega
    rw [if_pos (by omega), if_pos h2, hs, he, if_neg (by omega), if_pos rfl]
  rw [if_neg h2]
  by_cases h3 : r.addr < addr ∧ addr < r.addr + r.size
  · have hs : (if addr < r.addr then addr else r.addr) = r.addr := by split <;> omega
    rw [if_pos (by omega), if_pos h3, hs, if_neg (by omega), if_neg (by omega)]
    by_cases h4 : stop < r.addr + r.size
    · have he : (if stop > r.addr + r.size then stop else r.addr + r.size) = r.addr + r.size := by
        split <;> omega
      rw [if_pos h4, he, if_pos (by omega)]
    · have he : (if stop > r.addr + r.size then stop else r.addr + r.size) = stop := by
        split <;> omega
      rw [if_neg h4, he, if_neg (by simp)]
  · rw [if_neg h3, if_neg (by omega)]

theorem allocScan_done (addr stop : Nat) (pre : List RamEntry) {last : RamEntry}
    (hlast : last.size = 0) (fuel : Nat) :
    allocScan addr stop (fuel + 1) pre.length (.ofEntries (pre ++ [last])) =
      .ok (.ofEntries (pre ++ [last])) := by
  have hi : (RamList.ofEntries (pre ++ [last])).entries[pre.length]? = some last :=
    getElem?_at pre [] last
  rw [allocScan, hi]
  simp [hlast]

theorem allocScan_after {addr stop : Nat} {last : RamEntry} (hlast : last.size = 0)
    (h : addr ≤ stop) (rest pre : List RamEntry) (fuel : Nat) (hfuel : rest.length < fuel)
    (hrest : ∀ r ∈ rest, 0 < r.size ∧ r.addr + r.size < 2 ^ 64 ∧ stop ≤ r.addr) :
    allocScan addr stop fuel pre.length (.ofEntries (pre ++ (rest ++ [last]))) =
      .ok (.ofEntries (pre ++ (rest ++ [last]))) := by
  induction rest generalizing pre fuel with
  | nil =>
    obtain ⟨fuel, rfl⟩ : ∃ k, fuel = k + 1 := ⟨fuel - 1, by simp at hfuel; omega⟩
    exact allocScan_done addr stop pre hlast fuel
  | cons r rest ih =>
    obtain ⟨fuel, rfl⟩ : ∃ k, fuel = k + 1 := ⟨fuel - 1, by simp at hfuel; omega⟩
    obtain ⟨⟨hr, hrb, hle⟩, hrest⟩ := List.forall_mem_cons.mp hrest
    have hh := ih (pre ++ [r]) fuel (by simpa using hfuel) hrest
    simp only [List.append_assoc, List.singleton_append, List.length_append,
      List.length_singleton] at hh
    rw [List.cons_append, allocScan_at addr stop pre (rest ++ [last]) r fuel hr hrb h,
      if_neg (by omega)]
    by_cases he : r.addr = stop
    · have hsame : (⟨stop, r.addr + r.size - stop⟩ : RamEntry) = r := by
        cases r
        simp_all
      rw [if_pos (by omega), hsame, hh]
    · rw [if_neg (by omega), if_neg (by omega), hh]

theorem separated_later {pre rest : List RamEntry} {r a : RamEntry}
    (h : Separated ((pre ++ r :: rest).map RamEntry.span)) (ha : a ∈ rest) :
    0 < a.size ∧ r.addr + r.size < a.addr := by
  rw [List.map_append, List.map_cons] at h
  obtain ⟨-, hlt, hs⟩ := separated_cons.mp (separated_append.mp h).2.1
  have hpos := hs.1 a.span (List.mem_map_of_mem ha)
  have hlo := hlt a.span (List.mem_map_of_mem ha)
  simp only [RamEntry.span] at hpos hlo
  omega

theorem separated_shrink {pre rest : List RamEntry} {r r' : RamEntry}
    (h : Separated ((pre ++ r :: rest).map RamEntry.span)) (hpos : 0 < r'.size)
    (hlo : r.addr ≤ r'.addr) (hhi : r'.addr + r'.size ≤ r.addr + r.size) :
    Separated ((pre ++ r' :: rest).map RamEntry.span) := by
  simp only [List.map_append, List.map_cons, separated_append, separated_cons, List.mem_cons,
    forall_eq_or_imp] at h ⊢
  obtain ⟨hp, ⟨_, hrest, hs⟩, hpr⟩ := h
  refine ⟨hp, ⟨?_, fun a ha => ?_, hs⟩, fun a ha => ⟨?_, (hpr a ha).2⟩⟩
  · simp only [RamEntry.span]
    omega
  · exact lt_of_le_of_lt hhi (hrest a ha)
  · exact lt_of_lt_of_le (hpr a ha).1 hlo

theorem addMem_ok_or (start size : Nat) (l : RamList) :
    (∃ l', addMem start size l = .ok l') ∨
      addMem start size l = crash "RAM entry array overflow\n" := by
  unfold addMem
  by_cases h : size > 0
  · rw [if_pos h]
    dsimp only
    split
    · exact .inr rfl
    · exact .inl ⟨_, rfl⟩
  · exact .inl ⟨l, if_neg h⟩

theorem addMem_entries {g : FreeList} {es : List RamEntry} {last : RamEntry} {start size : Nat}
    {l' : RamList} (hlast : last.size = 0) (hb : ∀ a ∈ es, a.addr + a.size < 2 ^ 64)
    (hsep : Separated (es.map RamEntry.span)) (hnew : start + size < 2 ^ 64)
    (hg : g.bytes = cover (es.map RamEntry.span) ∪ QnxStartup.bytes start size)
    (h : addMem start size (.ofEntries (es ++ [last])) = .ok l') :
    ∃ last', last'.size = 0 ∧ l' = .ofEntries (g.entries ++ [last']) := by
  obtain ⟨f', ⟨last', hlast', rfl⟩, hbytes⟩ :=
    addMem_holds (f := ⟨es, hb, hsep⟩) ⟨last, hlast, rfl⟩ hnew h
  have hfg : f'.bytes = g.bytes := by rw [hbytes, hg]; rfl
  exact ⟨last', hlast', by rw [FreeList.ext_of_bytes hfg]⟩

/-- The loop leaves these entries and a terminator, or stops on a full array. -/
def CutsTo (x : Startup RamList) (es : List RamEntry) : Prop :=
  (∃ last, last.size = 0 ∧ x = .ok (.ofEntries (es ++ [last]))) ∨
    x = crash "RAM entry array overflow\n"

theorem bound_shrink {pre rest : List RamEntry} {r r' : RamEntry}
    (hb : ∀ a ∈ pre ++ r :: rest, a.addr + a.size < 2 ^ 64)
    (hhi : r'.addr + r'.size ≤ r.addr + r.size) :
    ∀ a ∈ pre ++ r' :: rest, a.addr + a.size < 2 ^ 64 := by
  intro a ha
  simp only [List.mem_append, List.mem_cons] at ha
  rcases ha with ha | rfl | ha
  · exact hb a (by simp [ha])
  · exact hhi.trans_lt (hb r (by simp))
  · exact hb a (by simp [ha])

/-- The lower piece, with the upper one added, is the block without the request. -/
theorem cover_split {addr stop : Nat} {rest pre : List RamEntry} {r : RamEntry} (h : addr ≤ stop)
    (hsep : Separated ((pre ++ r :: rest).map RamEntry.span)) (hlo : r.addr < addr)
    (hhi : stop < r.addr + r.size) :
    cover ((pre ++ r :: rest).map RamEntry.span) \ Set.Ico addr stop =
      cover ((pre ++ ⟨r.addr, addr - r.addr⟩ :: rest).map RamEntry.span) ∪
        QnxStartup.bytes stop (r.addr + r.size - stop) := by
  ext x
  have hbefore : x ∈ cover (pre.map RamEntry.span) → x < r.addr := by
    rintro ⟨p, hp, hx⟩
    rw [List.map_append, List.map_cons, separated_append] at hsep
    exact hx.2.trans (hsep.2.2 p hp r.span (by simp))
  have hafter : x ∈ cover (rest.map RamEntry.span) → r.addr + r.size < x := by
    rintro ⟨p, hp, hx⟩
    obtain ⟨a, ha, rfl⟩ := List.mem_map.mp hp
    exact (separated_later hsep ha).2.trans_le hx.1
  simp only [List.map_append, List.map_cons, cover_append, cover_cons,
    Set.mem_sdiff, Set.mem_union, Set.mem_Ico, Span.mem_set, RamEntry.span, mem_bytes]
  by_cases hp : x ∈ cover (pre.map RamEntry.span) <;> by_cases hr :
    x ∈ cover (rest.map RamEntry.span) <;>
    simp only [hp, hr, forall_const, false_imp_iff] at hbefore hafter ⊢ <;> simp <;> omega

/-- The loop of `alloc_ram` meeting a block with the request inside: it
inserts the upper piece through `add_mem` and meets it again on the next turn. -/
theorem allocScan_split {addr stop : Nat} {last : RamEntry} (hlast : last.size = 0)
    (h : addr ≤ stop) {rest pre mid : List RamEntry} {r : RamEntry} {fuel : Nat}
    (hfuel : mid.length + rest.length ≤ fuel)
    (hb : ∀ a ∈ pre ++ r :: rest, a.addr + a.size < 2 ^ 64)
    (hsep : Separated ((pre ++ r :: rest).map RamEntry.span)) (hlo : r.addr < addr)
    (hhi : stop < r.addr + r.size) (g : FreeList)
    (hg : g.bytes = cover ((pre ++ r :: rest).map RamEntry.span) \ Set.Ico addr stop)
    (hge : ∃ q, g.entries = pre ++ q :: (mid ++ rest)) (hmid : ∀ a ∈ mid, stop ≤ a.addr) :
    CutsTo ((addMem stop (r.addr + r.size - stop)
      (.ofEntries (pre ++ ⟨r.addr, addr - r.addr⟩ :: (rest ++ [last])))).bind
      (allocScan addr stop (fuel + 1) (pre.length + 1))) g.entries := by
  have hrb := hb r (by simp)
  rcases addMem_ok_or stop (r.addr + r.size - stop)
    (.ofEntries (pre ++ ⟨r.addr, addr - r.addr⟩ :: (rest ++ [last]))) with ⟨l, hadd⟩ | hadd
  swap
  · exact .inr (by rw [hadd]; rfl)
  have hb' : ∀ a ∈ pre ++ ⟨r.addr, addr - r.addr⟩ :: rest, a.addr + a.size < 2 ^ 64 :=
    bound_shrink hb (by simp only; omega)
  have hsep' : Separated ((pre ++ ⟨r.addr, addr - r.addr⟩ :: rest).map RamEntry.span) :=
    separated_shrink hsep (by simp only; omega) le_rfl (by simp only; omega)
  have hunion := hg.trans (cover_split h hsep hlo hhi)
  obtain ⟨last', hlast', rfl⟩ := addMem_entries hlast hb' hsep' (by omega) hunion
    (by simpa using hadd)
  obtain ⟨q, hq⟩ := hge
  have hlater : ∀ a ∈ mid ++ rest, 0 < a.size ∧ a.addr + a.size < 2 ^ 64 ∧ stop ≤ a.addr := by
    intro a ha
    have hmem : a ∈ g.entries := by rw [hq]; simp [List.mem_append.mp ha]
    refine ⟨g.pos hmem, g.bound a hmem, ?_⟩
    rcases List.mem_append.mp ha with ha | ha
    · exact hmid a ha
    · exact (hhi.trans (separated_later hsep ha).2).le
  have hscan := allocScan_after hlast' h (mid ++ rest) (pre ++ [q]) (fuel + 1)
    (by rw [List.length_append]; omega) hlater
  refine .inl ⟨last', hlast', ?_⟩
  rw [hadd, hq]
  simpa [Except.bind] using hscan

theorem flatMap_cutEntry_pre {addr stop : Nat} {pre rest : List RamEntry} {r : RamEntry}
    (h : addr ≤ stop) (hsep : Separated ((pre ++ r :: rest).map RamEntry.span))
    (hlo : r.addr < addr) :
    pre.flatMap (cutEntry addr stop) = pre := by
  apply flatMap_cutEntry_of_before h
  intro a ha
  have hs := separated_append.mp (List.map_append ▸ hsep)
  have hpos := hs.1.1 a.span (List.mem_map_of_mem ha)
  have hlt := hs.2.2 a.span (List.mem_map_of_mem ha) r.span (by simp)
  simp only [RamEntry.span] at hpos hlt
  omega

theorem flatMap_cutEntry_rest {addr stop : Nat} {pre rest : List RamEntry} {r : RamEntry}
    (h : addr ≤ stop) (hsep : Separated ((pre ++ r :: rest).map RamEntry.span))
    (hhi : stop < r.addr + r.size) :
    rest.flatMap (cutEntry addr stop) = rest := by
  apply flatMap_cutEntry_of_after
  intro a ha
  have hl := separated_later hsep ha
  omega

theorem cutEntry_of_swallowed {addr stop : Nat} {r : RamEntry} (hr : 0 < r.size)
    (hlo : addr ≤ r.addr) (hhi : r.addr + r.size ≤ stop) : cutEntry addr stop r = [] := by
  rw [cutEntry, if_neg (by omega), if_neg (by omega), if_neg (by omega)]
  rfl

theorem cutEntry_of_head {addr stop : Nat} {r : RamEntry} (hr : 0 < r.size) (hlo : addr ≤ r.addr)
    (hle : r.addr ≤ stop) (hhi : stop < r.addr + r.size) :
    cutEntry addr stop r = [⟨stop, r.addr + r.size - stop⟩] := by
  rcases lt_or_ge addr stop with hlt | hge
  · rw [cutEntry, if_neg (by omega), if_neg (by omega), if_pos (by omega), max_eq_right hle]
    rfl
  · rw [cutEntry_of_after hr (by omega) hlo]
    cases r
    simp_all
    omega

theorem cutEntry_of_tail {addr stop : Nat} {r : RamEntry} (hlo : r.addr < addr)
    (hlt : addr < r.addr + r.size) (hhi : r.addr + r.size ≤ stop) :
    cutEntry addr stop r = [⟨r.addr, addr - r.addr⟩] := by
  rw [cutEntry, if_neg (by omega), if_pos hlo, if_neg (by omega), min_eq_right hlt.le]
  rfl

theorem cutEntry_of_inside {addr stop : Nat} {r : RamEntry} (hlo : r.addr < addr)
    (hlt : addr < r.addr + r.size) (hhi : stop < r.addr + r.size) :
    ∃ q mid, cutEntry addr stop r = q :: mid ∧ mid.length ≤ 1 ∧ ∀ a ∈ mid, stop ≤ a.addr := by
  rcases lt_or_ge addr stop with hin | hle
  · refine ⟨⟨r.addr, addr - r.addr⟩, [⟨stop, r.addr + r.size - stop⟩], ?_, by simp, by simp⟩
    rw [cutEntry, if_neg (by omega), if_pos hlo, if_pos hhi, min_eq_right hlt.le,
      max_eq_right (by omega)]
    rfl
  · exact ⟨r, [], by rw [cutEntry, if_pos hle], by simp, by simp⟩

theorem allocScan_inside {addr stop : Nat} {last : RamEntry} (hlast : last.size = 0)
    (h : addr ≤ stop) {rest pre : List RamEntry} {r : RamEntry} {fuel : Nat}
    (hfuel : rest.length + 1 < fuel) (hb : ∀ a ∈ pre ++ r :: rest, a.addr + a.size < 2 ^ 64)
    (hsep : Separated ((pre ++ r :: rest).map RamEntry.span)) (hlo : r.addr < addr)
    (hlt : addr < r.addr + r.size) (hhi : stop < r.addr + r.size) :
    CutsTo ((addMem stop (r.addr + r.size - stop)
      (.ofEntries (pre ++ ⟨r.addr, addr - r.addr⟩ :: (rest ++ [last])))).bind
      (allocScan addr stop fuel (pre.length + 1)))
      (pre ++ (cutEntry addr stop r ++ rest.flatMap (cutEntry addr stop))) := by
  obtain ⟨fuel, rfl⟩ : ∃ k, fuel = k + 1 := ⟨fuel - 1, by omega⟩
  let g := (FreeList.mk (pre ++ r :: rest) hb hsep).erase addr stop
  have hrest := flatMap_cutEntry_rest h hsep hhi
  have hge : g.entries = pre ++ (cutEntry addr stop r ++ rest) := by
    simp [g, FreeList.erase, List.flatMap_append, flatMap_cutEntry_pre h hsep hlo, hrest]
  obtain ⟨q, mid, hq, hlen, hmid⟩ := cutEntry_of_inside hlo hlt hhi
  have hgq : g.entries = pre ++ q :: (mid ++ rest) := by rw [hge, hq, List.cons_append]
  have hh := allocScan_split hlast h (by omega : mid.length + rest.length ≤ fuel) hb hsep hlo hhi g
    (FreeList.bytes_erase _ addr stop) ⟨q, hgq⟩ hmid
  rw [hge] at hh
  rw [hrest]
  exact hh

/-- The loop of `alloc_ram` from a block on: it cuts `[addr, stop)` out of every
block that is left, or stops on a full array. -/
theorem allocScan_cut {addr stop : Nat} {last : RamEntry} (hlast : last.size = 0) (h : addr ≤ stop)
    (rest pre : List RamEntry) (fuel : Nat) (hfuel : rest.length + 1 < fuel)
    (hb : ∀ r ∈ pre ++ rest, r.addr + r.size < 2 ^ 64)
    (hsep : Separated ((pre ++ rest).map RamEntry.span)) :
    CutsTo (allocScan addr stop fuel pre.length (.ofEntries (pre ++ (rest ++ [last]))))
      (pre ++ rest.flatMap (cutEntry addr stop)) := by
  induction rest generalizing pre fuel with
  | nil =>
    obtain ⟨fuel, rfl⟩ : ∃ k, fuel = k + 1 := ⟨fuel - 1, by omega⟩
    exact .inl ⟨last, hlast, by simpa using allocScan_done addr stop pre hlast fuel⟩
  | cons r rest ih =>
    obtain ⟨fuel, rfl⟩ : ∃ k, fuel = k + 1 := ⟨fuel - 1, by omega⟩
    have hr : 0 < r.size := by
      have := hsep.1 r.span (List.mem_map_of_mem (by simp))
      simp only [RamEntry.span] at this
      omega
    have hrb := hb r (by simp)
    have hf : rest.length + 1 < fuel := by simpa using hfuel
    -- the induction hypothesis behind a block `r'` that replaces `r`
    have step : ∀ r' : RamEntry, 0 < r'.size → r.addr ≤ r'.addr →
        r'.addr + r'.size ≤ r.addr + r.size → cutEntry addr stop r = [r'] →
        CutsTo (allocScan addr stop fuel (pre.length + 1)
          (.ofEntries (pre ++ r' :: (rest ++ [last]))))
          (pre ++ (cutEntry addr stop r ++ rest.flatMap (cutEntry addr stop))) := by
      intro r' hpos hlo hhi hcut
      have hb' : ∀ a ∈ (pre ++ [r']) ++ rest, a.addr + a.size < 2 ^ 64 := by
        simpa using bound_shrink hb hhi
      have hh := ih (pre ++ [r']) fuel hf hb' (by simpa using separated_shrink hsep hpos hlo hhi)
      rw [hcut]
      simpa using hh
    rw [List.cons_append, allocScan_at addr stop pre (rest ++ [last]) r fuel hr hrb h,
      List.flatMap_cons]
    split
    · next h1 =>
      have hsep' : Separated ((pre ++ rest).map RamEntry.span) := by
        simp only [List.map_append, List.map_cons, separated_append, separated_cons, List.mem_cons,
          forall_eq_or_imp] at hsep ⊢
        exact ⟨hsep.1, hsep.2.1.2.2, fun a ha => (hsep.2.2 a ha).2⟩
      rw [cutEntry_of_swallowed hr h1.1 h1.2]
      refine ih pre fuel hf (fun a ha => hb a ?_) hsep'
      rcases List.mem_append.mp ha with ha | ha <;> simp [ha]
    split
    · next h1 h2 =>
      have hhi : stop < r.addr + r.size := by omega
      exact step ⟨stop, r.addr + r.size - stop⟩ (by simp only; omega) h2.2 (by simp only; omega)
        (cutEntry_of_head hr h2.1 h2.2 hhi)
    split
    · next h3 =>
      split
      · next h4 => exact allocScan_inside hlast h hf hb hsep h3.1 h3.2 h4
      · next h4 =>
        exact step ⟨r.addr, addr - r.addr⟩ (by simp only; omega) le_rfl (by simp only; omega)
          (cutEntry_of_tail h3.1 h3.2 (by omega))
    · next h3 =>
      rcases lt_or_ge r.addr addr with hlt | hge
      · exact step r hr le_rfl le_rfl (cutEntry_of_before h hr (by omega))
      · exact step r hr le_rfl le_rfl (cutEntry_of_after hr (by omega) hge)

/-- The loop of `alloc_ram` takes exactly the requested bytes out of the free list;
the one way it can fail is a full array. -/
theorem allocScan_holds (addr size : Nat) {l : RamList} {f : FreeList} (hl : l.Holds f) :
    (∃ l', allocScan addr (addr + size) (l.entries.length + 2) 0 l = .ok l' ∧
      l'.Holds (f.erase addr (addr + size))) ∨
    allocScan addr (addr + size) (l.entries.length + 2) 0 l =
      crash "RAM entry array overflow\n" := by
  obtain ⟨last, hlast, rfl⟩ := hl
  have hh := allocScan_cut hlast (Nat.le_add_right addr size) f.entries []
    ((f.entries ++ [last]).length + 2) (by simp) f.bound f.separated
  rcases hh with ⟨last', hlast', hok⟩ | hc
  · exact .inl ⟨_, hok, last', hlast', rfl⟩
  · exact .inr hc

end QnxStartup
