import QnxStartup.Getopt
import QnxStartup.Ifs2Option
import QnxStartup.SectionArray
import QnxStartup.Strings

/-! The table of processor clusters: `cpu_cluster_add`, and the option `c` that registers clusters
by name and mask. The names are in the string table, and an entry has the offset of its name. -/

namespace QnxStartup

structure ClusterEntry where
  cpumask : Nat
  name : Nat
  deriving DecidableEq, Repr

/-- `SYSTEM_CLUSTER_NAME_PREFIX` and `struct cluster_entry`, as far as the code depends on them. -/
class ClusterHeader where
  systemName : UInt8
  sizeofEntry : Nat
  encode : ClusterEntry → List UInt8
  sizeof_pos : 0 < sizeofEntry
  sizeof_lt : sizeofEntry < 2 ^ 16
  sizeof_dvd : 8 ∣ sizeofEntry
  length_encode : ∀ e, (encode e).length = sizeofEntry

def clusterLayout [ClusterHeader] : EntryLayout ClusterEntry where
  sizeofEntry := ClusterHeader.sizeofEntry
  encode := ClusterHeader.encode
  sizeof_pos := ClusterHeader.sizeof_pos
  sizeof_lt := ClusterHeader.sizeof_lt
  sizeof_dvd := ClusterHeader.sizeof_dvd
  length_encode := ClusterHeader.length_encode

/-- The system page, and what its section for clusters holds. -/
structure ClusterTable where
  page : Syspage
  clusters : List ClusterEntry

/-- The first entry whose name is at that offset is written, or else a new one; the field for the
name has 16 bits. -/
def putCluster (cpumask nameOff : Nat) : List ClusterEntry → List ClusterEntry
  | [] => [⟨cpumask, nameOff % 2 ^ 16⟩]
  | e :: l =>
    if e.name = nameOff then ⟨cpumask, nameOff % 2 ^ 16⟩ :: l else e :: putCluster cpumask nameOff l

/-- The stores of `cpu_cluster_add`, to the entry of that name or to a new one. -/
def storeCluster [ClusterHeader] (cpumask nameOff : Nat) (clusters : List ClusterEntry)
    (page : Syspage) : Startup Syspage :=
  (if ∀ e ∈ clusters, e.name ≠ nameOff then
    growSyspageSection .cluster ClusterHeader.sizeofEntry page else .ok page).bind fun page =>
      .ok (clusterLayout.put .cluster (clusters.findIdx (·.name = nameOff))
        ⟨cpumask, nameOff % 2 ^ 16⟩ page)

def cpuClusterAdd [ClusterHeader] (name : List UInt8) (cpumask : Nat) (t : ClusterTable) :
    Startup (Bool × ClusterTable) :=
  if name.headD 0 = ClusterHeader.systemName then .ok (false, t)
  else if cpumask = 0 then .ok (false, t)
  else
    (addString name t.page).bind fun (nameOff, page) =>
      (storeCluster cpumask nameOff t.clusters page).bind fun page =>
        .ok (true, ⟨page, putCluster cpumask nameOff t.clusters⟩)

/-- The loop of `handle_common_option` for the option `c`. -/
def clusterRounds [ClusterHeader] : Nat → List UInt8 → ClusterTable → Startup ClusterTable
  | 0, _, _ => .error .noReturn
  | n + 1, optarg, t =>
    match strchr colon optarg with
    | none => .ok t
    | some clusdata =>
      let name := optarg.take (optarg.length - clusdata.length)
      let (cpumask, clusdata) := strtoul clusdata.tail 0
      (cpuClusterAdd name cpumask t).bind fun (added, t) =>
        if added = false then .ok t
        else if clusdata.head? = some comma then clusterRounds n clusdata.tail t
        else .ok t

def handleClusterOption [ClusterHeader] (optarg : List UInt8)
    (t : ClusterTable) : Startup ClusterTable :=
  clusterRounds (optarg.length + 1) optarg t

/-! ### The argument -/

/-- A cluster as it is written in the option. -/
structure ClusterArg where
  name : List UInt8
  mask : Numeral (2 ^ 64)
  is_name : IsName name
  no_colon : colon ∉ name
  short : name.length < 2 ^ 31

def ClusterArg.text (a : ClusterArg) : List UInt8 := a.name ++ colon :: a.mask.text

def clusterText : List ClusterArg → List UInt8
  | [] => []
  | [a] => a.text
  | a :: b :: args => a.text ++ comma :: clusterText (b :: args)

/-- What `cpu_cluster_add` takes. -/
def ClusterArg.Taken [ClusterHeader] (a : ClusterArg) : Prop :=
  a.name.headD 0 ≠ ClusterHeader.systemName ∧ a.mask.value ≠ 0

instance [ClusterHeader] (a : ClusterArg) : Decidable a.Taken := inferInstanceAs (Decidable (_ ∧ _))

/-- The clusters up to the first one that is refused. -/
def takenClusters [ClusterHeader] (args : List ClusterArg) : List ClusterArg :=
  args.takeWhile (·.Taken)

def addClusters [ClusterHeader] : List ClusterArg → ClusterTable → Startup ClusterTable
  | [], t => .ok t
  | a :: args, t => (cpuClusterAdd a.name a.mask.value t).bind fun (_, t) => addClusters args t

section

variable {t t' : ClusterTable} {rest : List UInt8}

theorem strchr_append {c : UInt8} {name : List UInt8} (h : c ∉ name) :
    strchr c (name ++ c :: rest) = some (c :: rest) := by
  induction name with
  | nil => exact if_pos rfl
  | cons d name ih =>
    obtain ⟨hd, hrest⟩ := not_or.mp (mt List.mem_cons.mpr h)
    rw [List.cons_append, strchr, if_neg (Ne.symm hd), ih hrest]

theorem cpuClusterAdd_refused [ClusterHeader] {a : ClusterArg} (h : ¬ a.Taken) (t : ClusterTable) :
    cpuClusterAdd a.name a.mask.value t = .ok (false, t) := by
  rw [cpuClusterAdd]
  by_cases hname : a.name.headD 0 = ClusterHeader.systemName
  · rw [if_pos hname]
  · have hzero : a.mask.value = 0 := by
      by_contra hne
      exact h ⟨hname, hne⟩
    rw [if_neg hname, if_pos hzero]

theorem cpuClusterAdd_added [ClusterHeader] {a : ClusterArg} (h : a.Taken) {r : Bool × ClusterTable}
    (hrun : cpuClusterAdd a.name a.mask.value t = .ok r) : r.1 = true := by
  rw [cpuClusterAdd, if_neg h.1, if_neg h.2] at hrun
  obtain ⟨_, -, hrun⟩ := bind_eq_ok.mp hrun
  obtain ⟨_, -, hrun⟩ := bind_eq_ok.mp hrun
  cases hrun
  rfl

/-- One round: the first cluster is registered, and the loop goes on behind the comma. -/
theorem clusterRounds_text [ClusterHeader] {n : Nat} (a : ClusterArg) (hrest : Terminated rest) :
    clusterRounds (n + 1) (a.text ++ rest) t =
      (cpuClusterAdd a.name a.mask.value t).bind fun (added, t) =>
      if added = false then .ok t
      else if rest.head? = some comma then clusterRounds n rest.tail t
      else .ok t := by
  have hchr : strchr colon (a.text ++ rest) = some (colon :: (a.mask.text ++ rest)) := by
    rw [ClusterArg.text, List.append_assoc, List.cons_append]
    exact strchr_append a.no_colon
  have htake :
      (a.text ++ rest).take ((a.text ++ rest).length - (colon :: (a.mask.text ++ rest)).length) =
      a.name := by
    rw [ClusterArg.text, List.append_assoc, List.cons_append, List.length_append,
      Nat.add_sub_cancel, List.take_left]
  simp only [clusterRounds, hchr, htake, List.tail_cons, strtoul_num a.mask le_rfl hrest]

def clusterTail (args : List ClusterArg) : List UInt8 :=
  if args = [] then [] else comma :: clusterText args

theorem clusterText_cons (a : ClusterArg) (args : List ClusterArg) :
    clusterText (a :: args) = a.text ++ clusterTail args := by
  cases args with
  | nil => exact (List.append_nil _).symm
  | cons b args => rfl

theorem clusterTail_terminated (args : List ClusterArg) : Terminated (clusterTail args) := by
  cases args with
  | nil => exact .nil
  | cons b args => exact terminated_comma

theorem length_le_clusterText (args : List ClusterArg) :
    args.length ≤ (clusterText args).length := by
  induction args with
  | nil => exact le_rfl
  | cons a args ih =>
    have htail : args.length ≤ (clusterTail args).length := by
      rw [clusterTail]
      split
      · next h => exact h ▸ le_rfl
      · exact ih.trans (Nat.le_succ _)
    simp only [clusterText_cons, ClusterArg.text, List.length_append, List.length_cons]
    omega

theorem clusterRounds_eq [ClusterHeader] (args : List ClusterArg) {n : Nat} (hn : args.length < n) :
    clusterRounds n (clusterText args) t = addClusters (takenClusters args) t := by
  induction args generalizing n t with
  | nil =>
    obtain ⟨n, rfl⟩ : ∃ k, n = k + 1 := ⟨n - 1, by omega⟩
    rfl
  | cons a args ih =>
    obtain ⟨n, rfl⟩ : ∃ k, n = k + 1 := ⟨n - 1, by omega⟩
    rw [clusterText_cons, clusterRounds_text a (clusterTail_terminated args)]
    by_cases htaken : a.Taken
    · have hcons : takenClusters (a :: args) = a :: takenClusters args := by
        simp [takenClusters, htaken]
      rw [hcons, addClusters]
      cases hadd : cpuClusterAdd a.name a.mask.value t with
      | error e => rfl
      | ok r =>
        have hr := cpuClusterAdd_added htaken hadd
        simp only [Except.bind, hr, Bool.true_eq_false, if_false]
        cases args with
        | nil => rfl
        | cons b args =>
          rw [List.length_cons] at hn
          exact ih (by omega)
    · have hnil : takenClusters (a :: args) = [] := by simp [takenClusters, htaken]
      rw [hnil, cpuClusterAdd_refused htaken]
      rfl

/-- The option registers what stands before the first cluster that is refused. -/
theorem handleClusterOption_text [ClusterHeader] (args : List ClusterArg) (t : ClusterTable) :
    handleClusterOption (clusterText args) t = addClusters (takenClusters args) t :=
  clusterRounds_eq args (Nat.lt_succ_of_le (length_le_clusterText args))

end

/-! ### The table -/

section

/-- The mask that was given last for a name. -/
def lastMask (past : List (List UInt8 × Nat)) (name : List UInt8) : Option Nat :=
  (past.find? (·.1 = name)).map (·.2)

variable {keys names : List (List UInt8)} {mask : Nat} {name : List UInt8}

theorem mem_internName {k : List UInt8} : k ∈ internName keys name ↔ k ∈ keys ∨ k = name := by
  unfold internName
  split
  · next h =>
    constructor
    · exact .inl
    · rintro (hk | rfl)
      · exact hk
      · exact h
  · rw [List.mem_append, List.mem_singleton]

theorem recordOffset_internName {k : List UInt8} (hk : k ∈ names) :
    recordOffset encodeString id (internName names name) k =
      recordOffset encodeString id names k := by
  unfold internName
  split
  · rfl
  · exact recordOffset_append [name] (by simpa using hk)

theorem nodup_internName (h : keys.Nodup) : (internName keys name).Nodup := by
  unfold internName
  split
  · exact h
  · next hmem => exact h.append (List.nodup_singleton _) (by simpa using hmem)

/-- With offsets that tell the names apart, the entry of the name is the one that is written. -/
theorem putCluster_map {off : List UInt8 → Nat} {f : List UInt8 → Nat} (hlt : off name < 2 ^ 16)
    (hinj : ∀ k ∈ keys, off k = off name → k = name) (hnodup : keys.Nodup) :
    putCluster mask (off name) (keys.map fun k => ⟨f k, off k⟩) =
      (internName keys name).map fun k => ⟨Function.update f name mask k, off k⟩ := by
  have hoff : off name % 2 ^ 16 = off name := Nat.mod_eq_of_lt hlt
  induction keys with
  | nil =>
    rw [internName, if_neg List.not_mem_nil, List.nil_append, List.map_singleton,
      Function.update_self, List.map_nil, putCluster, hoff]
  | cons k keys ih =>
    obtain ⟨hk, hrest⟩ := List.nodup_cons.mp hnodup
    rw [List.map_cons, putCluster]
    by_cases heq : k = name
    · subst heq
      have hother : ∀ j ∈ keys, Function.update f k mask j = f j := fun j hj =>
        Function.update_of_ne (ne_of_mem_of_not_mem hj hk) _ _
      rw [if_pos rfl, internName, if_pos (List.mem_cons_self ..), List.map_cons,
        Function.update_self, hoff]
      refine congrArg _ (List.map_congr_left fun j hj => ?_)
      rw [hother j hj]
    · have hne : off k ≠ off name := fun h => heq (hinj k (List.mem_cons_self ..) h)
      have hrec := ih (fun j hj => hinj j (List.mem_cons_of_mem _ hj)) hrest
      rw [if_neg hne, hrec]
      by_cases hmem : name ∈ keys
      · rw [internName, if_pos hmem, internName, if_pos (List.mem_cons_of_mem _ hmem),
          List.map_cons, Function.update_of_ne heq]
      · have hcons : name ∉ k :: keys :=
          fun h => (List.mem_cons.mp h).elim (fun h => heq h.symm) hmem
        rw [internName, if_neg hmem, internName, if_neg hcons, List.cons_append, List.map_cons,
          Function.update_of_ne heq]

theorem putCluster_eq (cpumask nameOff : Nat) (l : List ClusterEntry) :
    putCluster cpumask nameOff l =
      if ∀ e ∈ l, e.name ≠ nameOff then l ++ [⟨cpumask, nameOff % 2 ^ 16⟩]
      else l.set (l.findIdx (·.name = nameOff)) ⟨cpumask, nameOff % 2 ^ 16⟩ := by
  induction l with
  | nil => rfl
  | cons e l ih =>
    rw [putCluster, List.findIdx_cons]
    by_cases he : e.name = nameOff
    · simp [he]
    · have hiff : (∀ x ∈ e :: l, x.name ≠ nameOff) ↔ ∀ x ∈ l, x.name ≠ nameOff := by simp [he]
      rw [if_neg he, ih]
      simp only [hiff, he, decide_false, cond_false, List.set_cons_succ]
      split <;> rfl

theorem lastMask_cons (past : List (List UInt8 × Nat)) (k : List UInt8) :
    lastMask ((name, mask) :: past) k = if name = k then some mask else lastMask past k := by
  rw [lastMask, List.find?_cons]
  by_cases h : name = k <;> simp [h, lastMask]

theorem lastMask_of_mem {past : List (List UInt8 × Nat)} (h : name ∈ past.map Prod.fst) :
    ∃ m, lastMask past name = some m := by
  obtain ⟨e, he, heq⟩ := List.mem_map.mp h
  have hsome : (past.find? (·.1 = name)).isSome := List.find?_isSome.mpr ⟨e, he, by simpa using heq⟩
  obtain ⟨e', he'⟩ := Option.isSome_iff_exists.mp hsome
  exact ⟨e'.2, by rw [lastMask, he', Option.map_some]⟩

theorem mem_of_lastMask {past : List (List UInt8 × Nat)} (h : lastMask past name = some mask) :
    name ∈ past.map Prod.fst := by
  obtain ⟨e, he, -⟩ := Option.map_eq_some_iff.mp h
  exact List.mem_map.mpr ⟨e, List.mem_of_find?_eq_some he, by simpa using List.find?_some he⟩

end

/-- The table, the names that were registered, and the names of the whole string table. -/
structure ClusterInv [ClusterHeader] (header : Nat) (t : ClusterTable)
    (past : List (List UInt8 × Nat)) (names keys : List (List UInt8)) : Prop where
  growing : Growing header t.page
  holds : clusterLayout.Has .cluster t.page t.clusters
  strings : StringTable t.page names
  nodup : keys.Nodup
  keys_past : ∀ k, k ∈ keys ↔ k ∈ past.map Prod.fst
  keys_names : ∀ k ∈ keys, k ∈ names
  clusters : t.clusters = keys.map fun k =>
    ⟨(lastMask past k).getD 0, recordOffset encodeString id names k⟩

section

variable [ClusterHeader] {header i : Nat} {t t' : ClusterTable} {past : List (List UInt8 × Nat)}
  {names keys : List (List UInt8)}
  {name : List UInt8} {c' : Syspage}

theorem ClusterInv.string (h : ClusterInv header t past names keys) (hpos : 0 < header)
    (hname : IsName name) (hlen : name.length < 2 ^ 31)
    (hrun : addString name t.page = .ok (i, c')) :
    ClusterInv header ⟨c', t.clusters⟩ past (internName names name) keys ∧
      i = recordOffset encodeString id (internName names name) name := by
  have hfits : StringFits name t.page := by
    have hle := (h.growing.size_le .strings).2
    simp only [tempSyspageSize] at hle
    rw [StringFits]
    omega
  obtain ⟨htable, hi, hg, hother⟩ := addString_spec hpos h.growing h.strings hname hfits hrun
  have hhas := h.holds.elsewhere (hother .cluster (by decide) (by decide))
    (addString_behind h.holds.behind h.growing hpos hrun)
  refine ⟨⟨hg, hhas, htable, h.nodup, h.keys_past,
    fun k hk => mem_internName.mpr (.inl (h.keys_names k hk)), ?_⟩, hi⟩
  refine h.clusters.trans (List.map_congr_left fun k hk => ?_)
  rw [recordOffset_internName (h.keys_names k hk)]

theorem ClusterInv.elsewhere (h : ClusterInv header t past names keys)
    (he : Elsewhere header .strings t.page c') (hc : Elsewhere header .cluster t.page c')
    (hb : Behind .cluster c') :
    ClusterInv header ⟨c', t.clusters⟩ past names keys :=
  ⟨he.1, h.holds.elsewhere hc hb, h.strings.elsewhere he, h.nodup, h.keys_past,
    h.keys_names, h.clusters⟩

theorem ClusterInv.offset_lt (h : ClusterInv header t past names keys) (k : List UInt8) :
    recordOffset encodeString id names k < 2 ^ 16 := by
  obtain ⟨n, hsize, -⟩ := h.strings.holds
  have hle := (h.growing.size_le .strings).1
  have hoff := @recordOffset_le _ _ _ encodeString id names k
  simp only [tempSyspageSize] at hle
  rw [List.length_append, List.length_replicate] at hsize
  omega

/-- The section holds the table with the entry that was put in. -/
theorem storeCluster_has {c c' : Syspage} {l : List ClusterEntry} {cpumask nameOff : Nat}
    (h : clusterLayout.Has .cluster c l) (hg : Growing header c) (hpos : 0 < header)
    (hrun : storeCluster cpumask nameOff l c = .ok c') :
    clusterLayout.Has .cluster c' (putCluster cpumask nameOff l) ∧
      Elsewhere header .strings c c' := by
  obtain ⟨c₁, hgrow, hrun⟩ := bind_eq_ok.mp hrun
  cases hrun
  rw [putCluster_eq]
  split at hgrow
  · next hnew =>
    have hidx : l.findIdx (·.name = nameOff) = l.length :=
      List.findIdx_eq_length_of_false (by simpa using hnew)
    obtain ⟨hhas, -, hother⟩ := h.snoc hg hpos (by decide) hgrow ⟨cpumask, nameOff % 2 ^ 16⟩
    rw [if_pos hnew, hidx]
    exact ⟨hhas, hother .strings (by decide) (by decide)⟩
  · next hfound =>
    have hidx : l.findIdx (·.name = nameOff) < l.length :=
      List.findIdx_lt_length.mpr (by simpa using hfound)
    cases hgrow
    obtain ⟨hhas, -, hother⟩ := h.set hg (by decide) hidx ⟨cpumask, nameOff % 2 ^ 16⟩
    rw [if_neg hfound]
    exact ⟨hhas, hother .strings (by decide) (by decide)⟩

/-- The entries are those of the names, once the mask of one of them is put in. -/
theorem ClusterInv.put (h : ClusterInv header t past names keys) (hname : name ∈ names)
    (mask : Nat) :
    putCluster mask (recordOffset encodeString id names name) t.clusters =
      (internName keys name).map fun k => ⟨(lastMask ((name, mask) :: past) k).getD 0,
        recordOffset encodeString id names k⟩ := by
  have hinj : ∀ k ∈ keys, recordOffset encodeString id names k =
      recordOffset encodeString id names name → k = name := fun k hk heq =>
    recordOffset_inj encodeString_ne_nil (by simpa using h.keys_names k hk) (by simpa using hname)
      heq
  have hmasks : ∀ k, Function.update (fun k => (lastMask past k).getD 0) name mask k =
      (lastMask ((name, mask) :: past) k).getD 0 := fun k => by
    rw [lastMask_cons, Function.update_apply]
    by_cases hk : k = name
    · rw [if_pos hk, if_pos hk.symm, Option.getD_some]
    · rw [if_neg hk, if_neg (Ne.symm hk)]
  rw [h.clusters, putCluster_map (h.offset_lt name) hinj h.nodup]
  exact List.map_congr_left fun k _ => by rw [hmasks]

/-- A call that takes the cluster sets the mask of the name, and makes room for a name
that is new. -/
theorem ClusterInv.add (h : ClusterInv header t past names keys) (hpos : 0 < header)
    {a : ClusterArg} (ha : a.Taken) {added : Bool}
    (hrun : cpuClusterAdd a.name a.mask.value t = .ok (added, t')) :
    ∃ names', ClusterInv header t' ((a.name, a.mask.value) :: past) names'
      (internName keys a.name) := by
  rw [cpuClusterAdd, if_neg ha.1, if_neg ha.2] at hrun
  obtain ⟨⟨nameOff, page⟩, hadd, hrun⟩ := bind_eq_ok.mp hrun
  obtain ⟨page', hstore, hrun⟩ := bind_eq_ok.mp hrun
  cases hrun
  obtain ⟨hs, rfl⟩ := h.string hpos a.is_name a.short hadd
  obtain ⟨hhas, helse⟩ := storeCluster_has hs.holds hs.growing hpos hstore
  have hname : a.name ∈ internName names a.name := mem_internName.mpr (.inr rfl)
  have hpast : ∀ k, k ∈ internName keys a.name ↔
      k ∈ ((a.name, a.mask.value) :: past).map Prod.fst := fun k => by
    rw [mem_internName, h.keys_past, List.map_cons, List.mem_cons, or_comm]
  have hkeys : ∀ k ∈ internName keys a.name, k ∈ internName names a.name := fun k hk => by
    rcases mem_internName.mp hk with hk | rfl
    · exact hs.keys_names k hk
    · exact hname
  exact ⟨internName names a.name, helse.1, hhas, hs.strings.elsewhere helse,
    nodup_internName h.nodup, hpast, hkeys, hs.put hname a.mask.value⟩

theorem ClusterInv.addAll (hpos : 0 < header) {args : List ClusterArg} (hargs : ∀ a ∈ args, a.Taken)
    (h : ClusterInv header t past names keys) (hrun : addClusters args t = .ok t') :
    ∃ names' keys', ClusterInv header t' ((args.map fun a => (a.name, a.mask.value)).reverse ++
      past) names' keys' := by
  induction args generalizing t past names keys with
  | nil =>
    cases hrun
    exact ⟨names, keys, h⟩
  | cons a args ih =>
    obtain ⟨ha, hrest⟩ := List.forall_mem_cons.mp hargs
    obtain ⟨⟨added, t₁⟩, hadd, hrun⟩ := bind_eq_ok.mp hrun
    obtain ⟨names₁, h₁⟩ := h.add hpos ha hadd
    obtain ⟨names', keys', h'⟩ := ih hrest h₁ hrun
    refine ⟨names', keys', ?_⟩
    rwa [List.map_cons, List.reverse_cons, List.append_assoc]

end

/-- The runs with the names and masks that the options have registered so far, the
latest first; other code adds strings and works on other sections. -/
inductive ClusterRun [ClusterHeader] (sz : SyspageSizes) :
    ClusterTable → List (List UInt8 × Nat) → Prop
  | init {base maxSize : Nat} {mem : Mem} {c : Syspage} (hmax : maxSize ≤ tempSyspageSize)
      (h : initSyspageMemory sz base maxSize mem = .ok c) : ClusterRun sz ⟨c, []⟩ []
  | elsewhere {t : ClusterTable} {past : List (List UInt8 × Nat)} {c' : Syspage}
      (run : ClusterRun sz t past)
      (h : Elsewhere sz.header .strings t.page c') (hc : Elsewhere sz.header .cluster t.page c')
      (hb : Behind .cluster c') :
      ClusterRun sz ⟨c', t.clusters⟩ past
  | string {t : ClusterTable} {past : List (List UInt8 × Nat)} {name : List UInt8}
      {i : Nat} {c' : Syspage}
      (run : ClusterRun sz t past) (hname : IsName name) (hlen : name.length < 2 ^ 31)
      (h : addString name t.page = .ok (i, c')) : ClusterRun sz ⟨c', t.clusters⟩ past
  | option {t t' : ClusterTable} {past : List (List UInt8 × Nat)} {args : List ClusterArg}
      (run : ClusterRun sz t past)
      (h : handleClusterOption (clusterText args) t = .ok t') :
      ClusterRun sz t' (((takenClusters args).map fun a => (a.name, a.mask.value)).reverse ++ past)

theorem ClusterRun.inv [ClusterHeader] {sz : SyspageSizes} {t : ClusterTable}
    {past : List (List UInt8 × Nat)} (run : ClusterRun sz t past) :
    ∃ names keys, ClusterInv sz.header t past names keys := by
  induction run with
  | init hmax h =>
    obtain ⟨hg, -, hold, -⟩ := init_growing h hmax
    exact ⟨[], [], hg, EntryLayout.has_init h rfl,
      ⟨⟨7, by simpa using hold⟩, nofun, List.nodup_nil⟩, List.nodup_nil, fun k => by simp, nofun,
      rfl⟩
  | elsewhere _ h hc hb ih =>
    obtain ⟨names, keys, hinv⟩ := ih
    exact ⟨names, keys, hinv.elsewhere h hc hb⟩
  | string _ hname hlen h ih =>
    obtain ⟨names, keys, hinv⟩ := ih
    exact ⟨_, keys, (hinv.string sz.header_bounds.1 hname hlen h).1⟩
  | @option t t' past args _ h ih =>
    obtain ⟨names, keys, hinv⟩ := ih
    rw [handleClusterOption_text] at h
    exact hinv.addAll sz.header_bounds.1 (fun a ha => by simpa using List.mem_takeWhile_imp ha) h

/-- Over every run of the options: each name has one entry, through the string table,
with the mask that was given for it last, and the section holds these entries. -/
theorem cpu_clusters [ClusterHeader] {sz : SyspageSizes} {t : ClusterTable}
    {past : List (List UInt8 × Nat)} (run : ClusterRun sz t past) :
    (t.clusters.map (·.name)).Nodup ∧
      (t.page.sects .cluster).size = ClusterHeader.sizeofEntry * t.clusters.length ∧
      SectionHolds t.page .cluster (t.clusters.flatMap ClusterHeader.encode) ∧
      ∀ name mask, (∃ e ∈ t.clusters, cstr t.page.mem ((t.page.sects .strings).p + e.name) =
        some name ∧ e.cpumask = mask) ↔
        lastMask past name = some mask := by
  obtain ⟨names, keys, h⟩ := run.inv
  have hoffsets : ∀ k ∈ keys,
      cstr t.page.mem ((t.page.sects .strings).p + recordOffset encodeString id names k) =
      some k := by
    have hpast : ∀ e ∈ keys.map fun k => (k, recordOffset encodeString id names k), e.1 ∈ names ∧
        e.2 = recordOffset encodeString id names e.1 := fun e he => by
      obtain ⟨k, hk, rfl⟩ := List.mem_map.mp he
      exact ⟨h.keys_names k hk, rfl⟩
    intro k hk
    exact ((h.strings.interned h.growing hpast).denotes _ (List.mem_map_of_mem hk)).1
  refine ⟨?_, h.holds.size, h.holds.holds, fun name mask => ⟨?_, fun hmask => ?_⟩⟩
  · rw [h.clusters, List.map_map]
    refine h.nodup.map_on fun k hk k' hk' heq => ?_
    exact recordOffset_inj encodeString_ne_nil (by simpa using h.keys_names k hk)
      (by simpa using h.keys_names k' hk') heq
  · rintro ⟨e, he, hname, rfl⟩
    rw [h.clusters] at he
    obtain ⟨k, hk, rfl⟩ := List.mem_map.mp he
    obtain rfl := Option.some.inj ((hoffsets k hk).symm.trans hname)
    obtain ⟨m, hm⟩ := lastMask_of_mem ((h.keys_past k).mp hk)
    rw [hm, Option.getD_some]
  · have hk : name ∈ keys := (h.keys_past name).mpr (mem_of_lastMask hmask)
    refine ⟨⟨(lastMask past name).getD 0, recordOffset encodeString id names name⟩, ?_,
      hoffsets name hk, ?_⟩
    · rw [h.clusters]
      exact List.mem_map_of_mem hk
    · rw [hmask, Option.getD_some]

theorem exampleClusterEntry_pos : 0 < 16 := by decide

theorem exampleClusterEntry_lt : 16 < 2 ^ 16 := by decide

theorem exampleClusterEntry_dvd : 8 ∣ 16 := by decide

/-- The mask, the name and six bytes that are left. -/
def encodeExampleCluster (e : ClusterEntry) : List UInt8 :=
  le32 e.cpumask ++ le32 (e.cpumask / 2 ^ 32) ++ le16 e.name ++ List.replicate 6 0

theorem length_encodeExampleCluster (e : ClusterEntry) : (encodeExampleCluster e).length = 16 := rfl

abbrev exampleClusterHeader : ClusterHeader where
  systemName := 0x5f
  sizeofEntry := 16
  encode := encodeExampleCluster
  sizeof_pos := exampleClusterEntry_pos
  sizeof_lt := exampleClusterEntry_lt
  sizeof_dvd := exampleClusterEntry_dvd
  length_encode := length_encodeExampleCluster

def exampleMask (d : Nat) (c : UInt8) (h : IsDigit 10 c d) (hc : c ≠ 0x30)
    (hlt : placeValue 10 [d] < 2 ^ 64) : Numeral (2 ^ 64) :=
  ⟨[c], placeValue 10 [d], .decimal hc (.cons h .nil), hlt⟩

/-- The clusters `a:1`, `b:2` and `a:4`. -/
def exampleClusters : List ClusterArg :=
  [⟨[97], exampleMask 1 0x31 ⟨by decide, .inl ⟨by decide, rfl⟩⟩ (by decide) (by decide),
    ⟨by decide, by decide⟩, by decide, by decide⟩,
    ⟨[98], exampleMask 2 0x32 ⟨by decide, .inl ⟨by decide, rfl⟩⟩ (by decide) (by decide),
      ⟨by decide, by decide⟩, by decide, by decide⟩,
    ⟨[97], exampleMask 4 0x34 ⟨by decide, .inl ⟨by decide, rfl⟩⟩ (by decide) (by decide),
      ⟨by decide, by decide⟩, by decide, by decide⟩]

def examplePage : Syspage :=
  resultOr (emptySyspage exampleSizes 0x1000 0x600 fun _ => 0)
    (initSyspageMemory exampleSizes 0x1000 0x600 fun _ => 0)

def exampleOption (text : List UInt8) : Startup ClusterTable :=
  @handleClusterOption exampleClusterHeader text ⟨examplePage, []⟩

theorem cpu_clusters_example :
    ∃ t past, @ClusterRun exampleClusterHeader exampleSizes t past ∧ t.clusters = [⟨4, 0⟩, ⟨2, 2⟩] ∧
      ∃ e ∈ t.clusters, cstr t.page.mem ((t.page.sects .strings).p + e.name) = some [97] ∧
        e.cpumask = 4 := by
  have hpage : initSyspageMemory exampleSizes 0x1000 0x600 (fun _ => 0) = .ok examplePage :=
    eq_ok_resultOr _ (by decide)
  have hok : (exampleOption (clusterText exampleClusters)).isOk = true := by decide +kernel
  have run := @ClusterRun.option exampleClusterHeader _ _ _ _ _
    (@ClusterRun.init exampleClusterHeader _ _ _ _ _ (by decide) hpage)
    (eq_ok_resultOr ⟨examplePage, []⟩ hok)
  refine ⟨_, _, run, by decide +kernel, ?_⟩
  exact ((@cpu_clusters exampleClusterHeader _ _ _ run).2.2.2 [97] 4).mpr (by decide +kernel)

/-- A cluster without a name has the offset of the string that is added next, so that
its entry is overwritten. -/
theorem cluster_without_name :
    ∃ t, exampleOption [0x3a, 0x31, 0x2c, 0x62, 0x3a, 0x32] = .ok t ∧ t.clusters = [⟨2, 0⟩] := by
  have hok : (exampleOption [0x3a, 0x31, 0x2c, 0x62, 0x3a, 0x32]).isOk = true := by decide +kernel
  exact ⟨_, eq_ok_resultOr ⟨examplePage, []⟩ hok, by decide +kernel⟩

end QnxStartup
