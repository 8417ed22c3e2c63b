import OpenbsdKernel.Msdosfs.Fat.Cache

/-!
# Files that grow

`extendfile` of `msdosfs/msdosfs_fat.c`. It links new clusters behind the one that the cache names as
the last of the file, and looks for that with `pcbmap` where the cache does not: it takes no file to
have more than `0xffff` clusters then.
-/
namespace OpenbsdKernel.Msdosfs

/-- What ends a call that does not return. -/
inductive Stop
  | fault (f : Fault)
  | panic
  | endless
  deriving DecidableEq, Repr

/-- What `extendfile` leaves and returns: an error, or what it puts where `ncp` points. -/
structure Extended where
  pmp : Volume
  dep : Denode
  ret : Except Errno (Option ℕ)

/-- The loop that clears the new clusters of a file that is no directory. -/
def clearLoop (pmp : Volume) : ℕ → ℕ → Denode → Except Stop Denode
  | 0, _, dep => .ok dep
  | got + 1, frcn, dep =>
    match pcbmap pmp dep frcn with
    | (dep, .ok _) => clearLoop pmp got (frcn + 1) dep
    | (_, .error _) => .error .panic

/-- The new clusters from `cn` on are put at the end of the file; `frcn` is returned. -/
def linkRun (pmp : Volume) (dep : Denode) (cn : ℕ) : Except Fault (Volume × Denode × Except Errno ℕ) :=
  if dep.de_StartCluster = 0 then .ok (pmp, { dep with de_StartCluster := cn }, .ok 0)
  else
    let last := dep.de_fc FC_LASTFC
    match fatentrySet pmp.toMount last.fc_fsrcn (BitVec.ofNat 32 cn) with
    | .error e => (clusterfree pmp.toMount cn).map fun (m, _) => ({ pmp with toMount := m }, dep, .error e)
    | .ok m => .ok ({ pmp with toMount := m }, dep, .ok (last.fc_frcn + 1))

/-- The loop of `extendfile`, which takes no more rounds than there are clusters to be allocated.
`clear` is `DE_CLEAR`. -/
def extendLoop (clear : Bool) (tv_usec : BitVec 32) : ℕ → ℕ → Option ℕ → Volume → Denode → Except Stop Extended
  | _, 0, ncp, pmp, dep => .ok ⟨pmp, dep, .ok ncp⟩
  | 0, _ + 1, _, _, _ => .error .endless
  | fuel + 1, count + 1, ncp, pmp, dep =>
    let cn := if dep.de_StartCluster = 0 then 0 else (dep.de_fc FC_LASTFC).fc_fsrcn + 1
    match clusteralloc pmp.toMount cn (count + 1) CLUST_EOFE tv_usec with
    | .error f => .error (.fault f)
    | .ok (m, .error e) => .ok ⟨{ pmp with toMount := m }, dep, .error e⟩
    | .ok (m, .ok (cn, got)) =>
      match linkRun { pmp with toMount := m } dep cn with
      | .error f => .error (.fault f)
      | .ok (pmp, dep, .error e) => .ok ⟨pmp, dep, .error e⟩
      | .ok (pmp, dep, .ok frcn) =>
        let dep := dep.fcSetcache FC_LASTFC (frcn + got - 1) (cn + got - 1)
        match if clear = true ∧ dep.directory = false then clearLoop pmp got frcn dep else .ok dep with
        | .error e => .error e
        | .ok dep => extendLoop clear tv_usec fuel (count + 1 - got) (ncp.or (some cn)) pmp dep

/-- `extendfile` after it knows the last cluster of the file. -/
def extendFrom (clear : Bool) (tv_usec : BitVec 32) (pmp : Volume) (dep : Denode) (count : ℕ) :
    Except Stop Extended :=
  let last := dep.de_fc FC_LASTFC
  extendLoop clear tv_usec count count none pmp (dep.fcSetcache FC_OLASTFC last.fc_frcn last.fc_fsrcn)

def extendfile (clear : Bool) (tv_usec : BitVec 32) (pmp : Volume) (dep : Denode) (count : ℕ) :
    Except Stop Extended :=
  if dep.de_StartCluster = MSDOSFSROOT ∧ dep.directory = true then .ok ⟨pmp, dep, .error .ENOSPC⟩
  else if (dep.de_fc FC_LASTFC).fc_frcn = FCE_EMPTY ∧ dep.de_StartCluster ≠ 0 then
    match pcbmap pmp dep 0xffff with
    | (dep, .ok _) => .ok ⟨pmp, dep, .ok none⟩
    | (dep, .error (e, _)) => if e = .E2BIG then extendFrom clear tv_usec pmp dep count else .ok ⟨pmp, dep, .error e⟩
  else extendFrom clear tv_usec pmp dep count

/-- The clusters `got` from `cn` on were free and are now behind those of a file. -/
structure Appended (pmp pmp' : Mount) (l : List ℕ) (cn got : ℕ) : Prop where
  kind : pmp'.kind = pmp.kind
  maxcluster : pmp'.pm_maxcluster = pmp.pm_maxcluster
  coherent : Coherent pmp'
  pos : 1 ≤ got
  free : ∀ i < got, pmp.FreeCluster (cn + i)
  entry : ∀ c, fatEntry pmp'.kind pmp'.fat c =
    if cn ≤ c ∧ c < cn + got then
      (if c + 1 < cn + got then BitVec.ofNat 32 (c + 1) else CLUST_EOFE) &&& pmp'.kind.pm_fatmask
    else if l.getLast? = some c then BitVec.ofNat 32 cn &&& pmp'.kind.pm_fatmask
    else fatEntry pmp.kind pmp.fat c

section Append

variable {pmp pmp' : Mount} {l : List ℕ} {cn got c : ℕ}

theorem Appended.sound (h : Appended pmp pmp' l cn got) (hsound : pmp.Sound) : pmp'.Sound := by
  rw [Mount.Sound, h.kind, h.maxcluster]
  exact hsound

theorem Appended.free' (h : Appended pmp pmp' l cn got) (hc : cn ≤ c ∧ c < cn + got) : pmp.FreeCluster c := by
  have := h.free (c - cn) (by omega)
  rwa [show cn + (c - cn) = c by omega] at this

theorem Appended.not_new (h : Appended pmp pmp' l cn got) (hc : pmp.Used c) : ¬(cn ≤ c ∧ c < cn + got) :=
  fun hin => hc.entry (h.free' hin).entry

theorem Appended.next_new (h : Appended pmp pmp' l cn got) (hsound : pmp.Sound) (hc : cn ≤ c ∧ c + 1 < cn + got) :
    pmp'.next c = c + 1 := by
  have hlast := (h.free' (c := c + 1) (by omega)).last
  refine (h.sound hsound).next_eq (h.maxcluster ▸ hlast) ?_
  rw [h.entry, if_pos (by omega), if_pos hc.2]

theorem Appended.eof (h : Appended pmp pmp' l cn got) : pmp'.kind.MSDOSFSEOF (pmp'.next (cn + got - 1)) := by
  have hpos := h.pos
  refine eof_of_entry ?_
  rw [h.entry, if_pos (by omega), if_neg (by omega)]

theorem Appended.next_last (h : Appended pmp pmp' l cn got) (hsound : pmp.Sound) (hused : pmp.Used c)
    (hc : l.getLast? = some c) : pmp'.next c = cn := by
  have hfirst := (h.free 0 h.pos).last
  refine (h.sound hsound).next_eq (h.maxcluster ▸ hfirst) ?_
  rw [h.entry, if_neg (h.not_new hused), if_pos hc]

theorem Appended.next_old (h : Appended pmp pmp' l cn got) (hused : pmp.Used c) (hc : l.getLast? ≠ some c) :
    pmp'.next c = pmp.next c := by
  rw [Mount.next, Mount.next, h.entry, if_neg (h.not_new hused), if_neg hc, h.kind]

theorem Appended.used_old (h : Appended pmp pmp' l cn got) (hsound : pmp.Sound) (hc : pmp.Used c) : pmp'.Used c := by
  refine ⟨hc.first, h.maxcluster ▸ hc.last, ?_⟩
  rw [h.entry, if_neg (h.not_new hc)]
  split
  · have hfirst := h.free 0 h.pos
    have hlo := hfirst.first
    simp only [CLUST_FIRST] at hlo
    exact (h.sound hsound).entry_ne_zero (h.maxcluster ▸ hfirst.last) (by omega)
  · exact hc.entry

theorem Appended.used_new (h : Appended pmp pmp' l cn got) (hsound : pmp.Sound) (hc : cn ≤ c ∧ c < cn + got) :
    pmp'.Used c := by
  have hfree := h.free' hc
  refine ⟨hfree.first, h.maxcluster ▸ hfree.last, ?_⟩
  rw [h.entry, if_pos hc]
  split
  · have hnext := (h.free' (c := c + 1) (by omega)).last
    exact (h.sound hsound).entry_ne_zero (h.maxcluster ▸ hnext) (Nat.succ_ne_zero c)
  · cases pmp'.kind <;> decide

theorem FileChain.append (hl : FileChain pmp l) (hsound : pmp.Sound) (h : Appended pmp pmp' l cn got) :
    FileChain pmp' (l ++ List.range' cn got) := by
  have hpos := h.pos
  refine ⟨fun c hc => ?_, ?_, ?_, ?_⟩
  · obtain hc | hc := List.mem_append.1 hc
    · exact h.used_old hsound (hl.used c hc)
    · exact h.used_new hsound (List.mem_range'_1.1 hc)
  · refine List.nodup_append.2 ⟨hl.nodup, List.nodup_range', fun c hc d hd heq => ?_⟩
    exact h.not_new (hl.used c hc) (heq ▸ List.mem_range'_1.1 hd)
  · refine List.isChain_append.2 ⟨?_, ?_, ?_⟩
    · refine List.isChain_iff_getElem.2 fun i hi => ?_
      have hlink := List.isChain_iff_getElem.1 hl.linked i hi
      rw [← hlink]
      refine h.next_old (hl.used _ (List.getElem_mem _)) fun hlast => ?_
      rw [List.getLast?_eq_getElem?, List.getElem?_eq_getElem (by omega : l.length - 1 < l.length),
        Option.some_inj] at hlast
      have := (hl.nodup.getElem_inj_iff).1 hlast
      omega
    · refine List.isChain_iff_getElem.2 fun i hi => ?_
      rw [List.length_range'] at hi
      rw [List.getElem_range'_1, List.getElem_range'_1]
      exact h.next_new hsound (by omega)
    · intro c hc d hd
      rw [List.head?_range', if_neg (by omega), Option.mem_some_iff] at hd
      rw [← hd]
      exact h.next_last hsound (hl.used c (List.mem_of_getLast? hc)) hc
  · intro c hc
    rw [List.getLast?_append, List.getLast?_range', if_neg (by omega), Option.some_or, Option.mem_some_iff] at hc
    rw [← hc]
    exact h.eof

variable {m : Mount} {count : ℕ}

theorem Allocated.ne_zero (h : Allocated pmp count CLUST_EOFE m cn got) : cn ≠ 0 := by
  have hlo := (h.free 0 h.pos).first
  simp only [CLUST_FIRST] at hlo
  omega

theorem Allocated.coherent' (h : Allocated pmp count CLUST_EOFE m cn got) (hsound : pmp.Sound) : Coherent m :=
  h.coherent hsound (by cases pmp.kind <;> decide)

theorem Allocated.appended_nil (h : Allocated pmp count CLUST_EOFE m cn got) (hsound : pmp.Sound) :
    Appended pmp m [] cn got := by
  refine ⟨h.kind, h.maxcluster, h.coherent' hsound, h.pos, h.free, fun c => ?_⟩
  rw [h.kind, h.entry]
  rfl

theorem Allocated.appended_set (h : Allocated pmp count CLUST_EOFE m cn got) (hsound : pmp.Sound) {last : ℕ}
    (hused : pmp.Used last) (hlast : l.getLast? = some last) :
    ∃ m', fatentrySet m last (BitVec.ofNat 32 cn) = .ok m' ∧ Appended pmp m' l cn got := by
  have hguard : ¬(last < CLUST_FIRST ∨ m.pm_maxcluster < last) := by
    have h1 := hused.first
    have h2 := hused.last
    rw [h.maxcluster]
    omega
  have hnew : ¬(cn ≤ last ∧ last < cn + got) := by
    intro hin
    have hfree := h.free (last - cn) (by omega)
    rw [show cn + (last - cn) = last by omega] at hfree
    exact hused.entry hfree.entry
  have hcoh := h.coherent' hsound
  let m' : Mount := { m with
    fat := putEntry m.kind (last % 2 = 1) m.fat (m.kind.FATOFS last) (BitVec.ofNat 32 cn) }
  have hentry : ∀ c, fatEntry m'.kind m'.fat c = if c = last
      then BitVec.ofNat 32 cn &&& m'.kind.pm_fatmask else fatEntry m.kind m.fat c :=
    fun c => fatEntry_putEntry m.kind m.fat last c (BitVec.ofNat 32 cn)
  refine ⟨m', if_neg hguard, h.kind, h.maxcluster, ⟨fun c hlo hhi => ?_, hcoh.others⟩, h.pos, h.free, fun c => ?_⟩
  · change Bitmap.test m.pm_inusemap c = true ↔ fatEntry m'.kind m'.fat c ≠ 0
    rw [hcoh.inuse c hlo hhi, hentry]
    by_cases hc : c = last
    · rw [if_pos hc]
      refine iff_of_true ?_ ?_
      · rw [hc, h.kind, h.entry, if_neg hnew]
        exact hused.entry
      · change BitVec.ofNat 32 cn &&& m.kind.pm_fatmask ≠ 0
        rw [h.kind]
        exact hsound.entry_ne_zero (h.free 0 h.pos).last h.ne_zero
    · rw [if_neg hc]
  · rw [hentry, hlast]
    by_cases hc : c = last
    · rw [if_pos hc, hc, if_neg hnew, if_pos rfl]
    · have hc' : ¬some last = some c := fun heq => hc (Option.some_inj.1 heq).symm
      rw [if_neg hc, if_neg hc', h.kind, h.entry]

end Append

section Round

variable {vol : Volume} {dep : Denode} {l : List ℕ}

/-- A file whose last cluster the cache knows. -/
structure Ready (pmp : Mount) (dep : Denode) (l : List ℕ) : Prop extends File pmp dep l where
  sound : pmp.Sound
  coherent : Coherent pmp
  cache : CacheCoherent dep l
  lastfc : l ≠ [] → (dep.de_fc FC_LASTFC).fc_frcn + 1 = l.length ∧
    l.getLast? = some (dep.de_fc FC_LASTFC).fc_fsrcn

theorem Ready.mapped (h : Ready vol.toMount dep l) {frcn : ℕ} (hfrcn : frcn < l.length) :
    Ready vol.toMount (mapped dep l frcn) l := by
  refine ⟨⟨h.toFileChain, ?_, ?_⟩, h.sound, h.coherent, mapped_coherent h.cache frcn, fun hl => ?_⟩
  · rw [mapped_start]
    exact h.start
  · rw [mapped_start, mapped_directory]
    exact h.not_root
  · have hslot : (Msdosfs.mapped dep l frcn).de_fc FC_LASTFC = dep.de_fc FC_LASTFC := by
      rw [Msdosfs.mapped, List.getElem?_eq_getElem hfrcn]
      exact fcSetcache_of_ne dep (by decide) _ _
    rw [hslot]
    exact h.lastfc hl

theorem clearLoop_ready (h : Ready vol.toMount dep l) {got frcn : ℕ} (hfrcn : frcn + got ≤ l.length) :
    ∃ dep', clearLoop vol got frcn dep = .ok dep' ∧ Ready vol.toMount dep' l := by
  induction got generalizing frcn dep with
  | zero => exact ⟨dep, rfl, h⟩
  | succ got ih =>
    have hin : frcn < l.length := by omega
    have hmap := pcbmap_eq h.sound h.toFile h.cache frcn
    rw [walkChain, List.getElem?_eq_getElem hin] at hmap
    obtain ⟨dep', hclear, hready⟩ := ih (h.mapped hin) (show frcn + 1 + got ≤ l.length by omega)
    refine ⟨dep', ?_, hready⟩
    rw [clearLoop, hmap]
    exact hclear

theorem CacheCoherent.append (h : CacheCoherent dep l) (l' : List ℕ) : CacheCoherent dep (l ++ l') := by
  intro slot hne
  have hnames := h slot hne
  rw [List.getElem?_append_left, hnames]
  by_contra hle
  rw [List.getElem?_eq_none (not_lt.1 hle)] at hnames
  cases hnames

theorem Ready.link (h : Ready vol.toMount dep l) {m : Mount} {count cn got : ℕ}
    (halloc : Allocated vol.toMount count CLUST_EOFE m cn got) :
    ∃ vol' dep' frcn, linkRun { vol with toMount := m } dep cn = .ok (vol', dep', .ok frcn) ∧
      frcn = l.length ∧ Appended vol.toMount vol'.toMount l cn got ∧
      Ready vol'.toMount (dep'.fcSetcache FC_LASTFC (frcn + got - 1) (cn + got - 1))
        (l ++ List.range' cn got) := by
  have hpos := halloc.pos
  -- what is the same whether the file was empty or not
  have hready {m' : Mount} {start : ℕ} (happ : Appended vol.toMount m' l cn got)
      (hstart : start = (l ++ List.range' cn got).head?.getD 0) (hne : start ≠ 0) :
      Ready m' (Denode.fcSetcache { dep with de_StartCluster := start } FC_LASTFC (l.length + got - 1)
        (cn + got - 1)) (l ++ List.range' cn got) := by
    have hlast : (l ++ List.range' cn got)[l.length + got - 1]? = some (cn + got - 1) := by
      rw [List.getElem?_append_right (by omega), List.getElem?_range' (by omega)]
      congr 1
      omega
    have hcache : CacheCoherent { dep with de_StartCluster := start } (l ++ List.range' cn got) :=
      h.cache.append _
    refine ⟨⟨h.append h.sound happ, hstart, fun hroot => hne hroot.1⟩, happ.sound h.sound, happ.coherent,
      hcache.fcSetcache _ fun _ => hlast, fun _ => ?_⟩
    rw [fcSetcache_self]
    refine ⟨?_, ?_⟩
    · simp only [List.length_append, List.length_range']
      omega
    · rw [List.getLast?_eq_getElem?, List.length_append, List.length_range']
      exact hlast
  obtain rfl | hl := eq_or_ne l []
  · have hstart : dep.de_StartCluster = 0 := h.start
    have happ := halloc.appended_nil h.sound
    refine ⟨{ vol with toMount := m }, { dep with de_StartCluster := cn }, 0, if_pos hstart, rfl, happ, ?_⟩
    refine hready happ ?_ halloc.ne_zero
    rw [List.nil_append, List.head?_range', if_neg (by omega)]
    rfl
  · obtain ⟨hne, hzero⟩ := h.start_ne hl
    obtain ⟨hfrcn, hlast⟩ := h.lastfc hl
    obtain ⟨m', hset, happ⟩ := halloc.appended_set h.sound (h.used _ (List.mem_of_getLast? hlast)) hlast
    have hstart : ¬dep.de_StartCluster = 0 := hne
    have hlink : linkRun { vol with toMount := m } dep cn =
        .ok ({ vol with toMount := m' }, dep, .ok ((dep.de_fc FC_LASTFC).fc_frcn + 1)) := by
      rw [linkRun, if_neg hstart]
      simp only [hset]
    refine ⟨{ vol with toMount := m' }, dep, (dep.de_fc FC_LASTFC).fc_frcn + 1, hlink, hfrcn, happ, ?_⟩
    rw [hfrcn]
    refine hready happ ?_ hne
    rw [List.head?_append, List.head?_eq_getElem?, hzero]
    rfl

theorem Ready.cleared (h : Ready vol.toMount dep l) (clear : Bool) {got frcn : ℕ} (hlen : frcn + got ≤ l.length) :
    ∃ dep', (if clear = true ∧ dep.directory = false then clearLoop vol got frcn dep else .ok dep) = .ok dep' ∧
      Ready vol.toMount dep' l := by
  split
  · exact clearLoop_ready h hlen
  · exact ⟨dep, rfl, h⟩

theorem Ready.old (h : Ready vol.toMount dep l) : Ready vol.toMount
    (dep.fcSetcache FC_OLASTFC (dep.de_fc FC_LASTFC).fc_frcn (dep.de_fc FC_LASTFC).fc_fsrcn) l := by
  refine ⟨⟨h.toFileChain, h.start, h.not_root⟩, h.sound, h.coherent, ?_, ?_⟩
  · exact h.cache.fcSetcache _ (h.cache FC_LASTFC)
  · rw [fcSetcache_of_ne dep (by decide)]
    exact h.lastfc

end Round

section Extend

variable {vol : Volume} {dep : Denode} {l : List ℕ}

end Extend

end OpenbsdKernel.Msdosfs
