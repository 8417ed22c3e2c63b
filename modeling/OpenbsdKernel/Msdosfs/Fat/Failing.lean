import OpenbsdKernel.Msdosfs.Fat.Extend
import OpenbsdKernel.Msdosfs.Fat.FreeChain

/-!
# Calls that fail

`clusteralloc`, `clusterfree` and `extendfile` where a block of the FAT may fail to be read. What
was written before the block that fails stays written.
-/
namespace OpenbsdKernel.Msdosfs.Failing

open Bitmap FreeChain

variable (dev : Device Errno)

/-- The loop of `fatchain`; the reads so far are counted. -/
def fatchainLoop (kind : FatKind) (fillwith : BitVec 32) :
    ℕ → ℕ → Option ℕ → ℕ → Fat → Fat × ℕ × Option Errno
  | 0, _, _, reads, m => (m, reads, none)
  | count + 1, start, lbn, reads, m =>
    match dev.read lbn reads start with
    | some e => (m, dev.reads lbn reads start, some e)
    | none =>
      let newc := if 0 < count then BitVec.ofNat 32 (start + 1) else fillwith
      fatchainLoop kind fillwith count (start + 1) (some (dev.bn start)) (dev.reads lbn reads start)
        (putEntry kind (start % 2 = 1) m (kind.FATOFS start) newc)

def fatchain (pmp : Mount) (start count : ℕ) (fillwith : BitVec 32) (reads : ℕ) :
    Fat × ℕ × Option Errno :=
  if start < CLUST_FIRST ∨ pmp.pm_maxcluster < start + count - 1 then
    (pmp.fat, reads, some .EINVAL)
  else fatchainLoop dev pmp.kind fillwith count start none reads pmp.fat

def chainalloc (pmp : Mount) (start count : ℕ) (fillwith : BitVec 32) (reads : ℕ) :
    Except Fault (Mount × ℕ × Result) := do
  let pmp ← usemapAllocs count start pmp
  let r := fatchain dev pmp start count fillwith reads
  match r.2.2 with
  | some e => .ok ({ pmp with fat := r.1 }, r.2.1, .error e)
  | none => .ok ({ pmp with fat := r.1 }, r.2.1, .ok (start, count))

/-- The run that the searches of `clusteralloc` settle on from `newst` on. -/
def pickFrom (pmp : Mount) (newst start len count : ℕ) : Except Fault (Option (ℕ × ℕ)) := do
  match ← searchLoop pmp count (pmp.pm_maxcluster + 1) (pmp.pm_maxcluster + 1) newst 0 0 with
  | .enough cn => .ok (some (cn, count))
  | .most foundcn foundl =>
    match ← searchLoop pmp count newst newst 0 foundcn foundl with
    | .enough cn => .ok (some (cn, count))
    | .most foundcn foundl =>
      .ok (if foundl = 0 then none else if len ≠ 0 then some (start, len) else some (foundcn, foundl))

/-- The run that `clusteralloc` settles on, if there is one. -/
def pick (pmp : Mount) (start count : ℕ) (tv_usec : BitVec 32) : Except Fault (Option (ℕ × ℕ)) :=
  if start ≠ 0 then do
    let len ← chainlength pmp start count
    if count ≤ len then .ok (some (start, count))
    else pickFrom pmp (newst pmp start) start len count
  else
    let start := (tv_usec >>> 10 ||| tv_usec).toNat
    pickFrom pmp (newst pmp start) start 0 count

def clusteralloc (pmp : Mount) (start count : ℕ) (fillwith tv_usec : BitVec 32) (reads : ℕ) :
    Except Fault (Mount × ℕ × Result) := do
  match ← pick pmp start count tv_usec with
  | none => .ok (pmp, reads, .error .ENOSPC)
  | some (cn, len) => chainalloc dev pmp cn len fillwith reads

/-- `fatentry` with `FAT_SET`. -/
def fatentrySet (pmp : Mount) (cn : ℕ) (newcontents : BitVec 32) (reads : ℕ) :
    Except Errno Mount × ℕ :=
  if cn < CLUST_FIRST ∨ pmp.pm_maxcluster < cn then (.error .EINVAL, reads)
  else
    match dev.bread reads (dev.bn cn) with
    | some e => (.error e, reads + 1)
    | none => (Msdosfs.fatentrySet pmp cn newcontents, reads + 1)

def clusterfree (pmp : Mount) (cluster reads : ℕ) :
    Except Fault (Mount × ℕ × Except Errno (BitVec 32)) := do
  let pmp ← usemapFree pmp cluster
  let oldcn := fatentryGet pmp cluster
  match fatentrySet dev pmp cluster MSDOSFSFREE reads with
  | (.error e, reads) =>
    let pmp ← usemapAlloc pmp cluster
    .ok (pmp, reads, .error e)
  | (.ok pmp, reads) => .ok (pmp, reads, oldcn)

/-- The reads of the walk of `pcbmap`. -/
def mapReads (pmp : Mount) : ℕ → ℕ → Option ℕ → ℕ → ℕ × Option Errno
  | 0, _, _, reads => (reads, none)
  | n + 1, cn, lbn, reads =>
    if pmp.kind.Reserved cn then (reads, none)
    else
      match dev.read lbn reads cn with
      | some e => (dev.reads lbn reads cn, some e)
      | none => mapReads pmp n (pmp.next cn) (some (dev.bn cn)) (dev.reads lbn reads cn)

def pcbmap (pmp : Volume) (dep : Denode) (findcn reads : ℕ) : Denode × ℕ × Except Errno ℕ :=
  let first := (fcLookup dep findcn).getD ⟨0, dep.de_StartCluster⟩
  match if dep.de_StartCluster = MSDOSFSROOT then (reads, none)
    else mapReads dev pmp.toMount (findcn - first.fc_frcn) first.fc_fsrcn none reads with
  | (reads, some e) => (dep, reads, .error e)
  | (reads, none) =>
    let r := Msdosfs.pcbmap pmp dep findcn
    (r.1, reads, r.2.mapError Prod.fst)

def clearLoop (pmp : Volume) : ℕ → ℕ → Denode → ℕ → Except Stop (Denode × ℕ)
  | 0, _, dep, reads => .ok (dep, reads)
  | got + 1, frcn, dep, reads =>
    match pcbmap dev pmp dep frcn reads with
    | (dep, reads, .ok _) => clearLoop pmp got (frcn + 1) dep reads
    | (_, _, .error _) => .error .panic

/-- The new clusters from `cn` on are put at the end of the file; `frcn` is returned. -/
def linkRun (pmp : Volume) (dep : Denode) (cn reads : ℕ) :
    Except Fault (Volume × Denode × ℕ × Except Errno ℕ) :=
  if dep.de_StartCluster = 0 then .ok (pmp, { dep with de_StartCluster := cn }, reads, .ok 0)
  else
    let last := dep.de_fc FC_LASTFC
    match fatentrySet dev pmp.toMount last.fc_fsrcn (BitVec.ofNat 32 cn) reads with
    | (.error e, reads) => (clusterfree dev pmp.toMount cn reads).map fun (m, reads, _) =>
      ({ pmp with toMount := m }, dep, reads, .error e)
    | (.ok m, reads) => .ok ({ pmp with toMount := m }, dep, reads, .ok (last.fc_frcn + 1))

/-- What is at hand between the rounds of `extendfile`. -/
structure Extending where
  pmp : Volume
  dep : Denode
  count : ℕ
  ncp : Option ℕ
  reads : ℕ

def Extending.wanted (s : Extending) : ℕ :=
  if s.dep.de_StartCluster = 0 then 0 else (s.dep.de_fc FC_LASTFC).fc_fsrcn + 1

/-- One round of the loop of `extendfile`: what is at hand after it, or the error it returns. -/
def extendRound (clear : Bool) (tv_usec : BitVec 32) (s : Extending) :
    Except Stop (Except Extended Extending) :=
  match clusteralloc dev s.pmp.toMount s.wanted s.count CLUST_EOFE tv_usec s.reads with
  | .error f => .error (.fault f)
  | .ok (m, _, .error e) => .ok (.error ⟨{ s.pmp with toMount := m }, s.dep, .error e⟩)
  | .ok (m, reads, .ok (cn, got)) =>
    match linkRun dev { s.pmp with toMount := m } s.dep cn reads with
    | .error f => .error (.fault f)
    | .ok (pmp, dep, _, .error e) => .ok (.error ⟨pmp, dep, .error e⟩)
    | .ok (pmp, dep, reads, .ok frcn) =>
      let dep := dep.fcSetcache FC_LASTFC (frcn + got - 1) (cn + got - 1)
      match if clear = true ∧ dep.directory = false then clearLoop dev pmp got frcn dep reads
        else .ok (dep, reads) with
      | .error e => .error e
      | .ok (dep, reads) => .ok (.ok ⟨pmp, dep, s.count - got, s.ncp.or (some cn), reads⟩)

def extendLoop (clear : Bool) (tv_usec : BitVec 32) : ℕ → Extending → Except Stop Extended
  | fuel, s =>
    if s.count = 0 then .ok ⟨s.pmp, s.dep, .ok s.ncp⟩
    else
      match fuel with
      | 0 => .error .endless
      | fuel + 1 =>
        match extendRound dev clear tv_usec s with
        | .error stop => .error stop
        | .ok (.error r) => .ok r
        | .ok (.ok s) => extendLoop clear tv_usec fuel s

/-- What is at hand in front of the loop, where the cache names the last cluster of the file. -/
def extendFrom (pmp : Volume) (dep : Denode) (count reads : ℕ) : Extending :=
  let last := dep.de_fc FC_LASTFC
  ⟨pmp, dep.fcSetcache FC_OLASTFC last.fc_frcn last.fc_fsrcn, count, none, reads⟩

/-- `extendfile` up to its loop. -/
def extendStart (pmp : Volume) (dep : Denode) (count reads : ℕ) : Except Extended Extending :=
  if dep.de_StartCluster = MSDOSFSROOT ∧ dep.directory = true then .error ⟨pmp, dep, .error .ENOSPC⟩
  else if (dep.de_fc FC_LASTFC).fc_frcn = FCE_EMPTY ∧ dep.de_StartCluster ≠ 0 then
    match pcbmap dev pmp dep 0xffff reads with
    | (dep, _, .ok _) => .error ⟨pmp, dep, .ok none⟩
    | (dep, reads, .error e) =>
      if e = .E2BIG then .ok (extendFrom pmp dep count reads) else .error ⟨pmp, dep, .error e⟩
  else .ok (extendFrom pmp dep count reads)

def extendfile (clear : Bool) (tv_usec : BitVec 32) (pmp : Volume) (dep : Denode) (count reads : ℕ) :
    Except Stop Extended :=
  match extendStart dev pmp dep count reads with
  | .error r => .ok r
  | .ok s => extendLoop dev clear tv_usec count s

/-- The run that `clusteralloc` settles on, if it comes to one. -/
def runOf (pmp : Mount) (start count : ℕ) (tv_usec : BitVec 32) : Option (ℕ × ℕ) :=
  (pick pmp start count tv_usec).toOption.join

def marked (pmp : Mount) (cn got : ℕ) : Mount :=
  { pmp with pm_inusemap := (List.range' cn got).foldl set pmp.pm_inusemap }

/-- The run of the round `k` where `count` clusters are wanted from `start` on, and each further round
wants what is left of them behind the run before it. -/
def runAt (tv_usec : BitVec 32) : ℕ → Mount → ℕ → ℕ → Option (ℕ × ℕ)
  | 0, pmp, start, count => runOf pmp start count tv_usec
  | k + 1, pmp, start, count => (runOf pmp start count tv_usec).bind fun run =>
    runAt tv_usec k (marked pmp run.1 run.2) (run.1 + run.2) (count - run.2)

/-- The loop comes to the round `k`, after so many reads. -/
inductive Reaches (clear : Bool) (tv_usec : BitVec 32) : Extending → ℕ → ℕ → Prop
  | here {s} (hcount : s.count ≠ 0) : Reaches clear tv_usec s 0 s.reads
  | later {s s' k reads} (hcount : s.count ≠ 0) (hround : extendRound dev clear tv_usec s = .ok (.ok s'))
      (h : Reaches clear tv_usec s' k reads) : Reaches clear tv_usec s (k + 1) reads

/-- All blocks are read in which the entries of the run are. -/
def Readable : ℕ → ℕ → Option ℕ → ℕ → Prop
  | 0, _, _, _ => True
  | count + 1, start, lbn, reads =>
    dev.read lbn reads start = none ∧
      Readable count (start + 1) (some (dev.bn start)) (dev.reads lbn reads start)

section Chainalloc

variable {dev} {pmp : Mount} {kind : FatKind} {fillwith : BitVec 32} {start count : ℕ} {lbn : Option ℕ}
  {reads : ℕ}

theorem Readable.fatchainLoop (h : Readable dev count start lbn reads) (m : Fat) :
    ∃ reads', fatchainLoop dev kind fillwith count start lbn reads m =
      (Msdosfs.fatchainLoop kind fillwith count start (kind.FATOFS start) m, reads', none) := by
  induction count generalizing start lbn reads m with
  | zero => exact ⟨reads, rfl⟩
  | succ count ih =>
    obtain ⟨hread, hrest⟩ := h
    obtain ⟨reads', hloop⟩ := ih hrest (putEntry kind (start % 2 = 1) m (kind.FATOFS start)
      (if 0 < count then BitVec.ofNat 32 (start + 1) else fillwith))
    refine ⟨reads', ?_⟩
    rw [Failing.fatchainLoop, hread, fatchainLoop_succ]
    exact hloop

theorem fatchainLoop_fails (h : ¬Readable dev count start lbn reads) (m : Fat) :
    ∃ m' reads' e c, fatchainLoop dev kind fillwith count start lbn reads m = (m', reads', some e) ∧
      (start ≤ c ∧ c < start + count) ∧ ∀ d, d < start ∨ d = c → fatEntry kind m' d = fatEntry kind m d := by
  induction count generalizing start lbn reads m with
  | zero => exact absurd trivial h
  | succ count ih =>
    cases hread : dev.read lbn reads start with
    | some e =>
      refine ⟨m, dev.reads lbn reads start, e, start, ?_, ⟨le_rfl, by omega⟩, fun d _ => rfl⟩
      rw [Failing.fatchainLoop, hread]
    | none =>
      have hrest : ¬Readable dev count (start + 1) (some (dev.bn start)) (dev.reads lbn reads start) :=
        fun hrest => h ⟨hread, hrest⟩
      obtain ⟨m', reads', e, c, hloop, hc, hentry⟩ := ih hrest (putEntry kind (start % 2 = 1) m
        (kind.FATOFS start) (if 0 < count then BitVec.ofNat 32 (start + 1) else fillwith))
      refine ⟨m', reads', e, c, ?_, by omega, fun d hd => ?_⟩
      · rw [Failing.fatchainLoop, hread]
        exact hloop
      · rw [hentry d (by omega), fatEntry_putEntry, if_neg (by omega)]

theorem guard_of_clear (h : Consistent pmp) (hclear : ∀ i < count, pmp.Clear (start + i)) (hpos : 0 < count) :
    ¬(start < CLUST_FIRST ∨ pmp.pm_maxcluster < start + count - 1) := by
  have h1 := (h.free (hclear 0 hpos)).1
  have h2 := (h.free (hclear (count - 1) (by omega))).1
  omega

theorem Readable.chainalloc (hread : Readable dev count start none reads)
    (hclear : ∀ i < count, pmp.Clear (start + i)) :
    ∃ reads', chainalloc dev pmp start count fillwith reads =
      (Msdosfs.chainalloc pmp start count fillwith).map fun r => (r.1, reads', r.2) := by
  obtain ⟨a, halloc, -⟩ := @usemapAllocs_ok pmp _ _ fun i hi => (hclear i hi).1
  by_cases hguard : start < CLUST_FIRST ∨ pmp.pm_maxcluster < start + count - 1
  · refine ⟨reads, ?_⟩
    rw [Failing.chainalloc, Msdosfs.chainalloc, halloc]
    simp only [bind, Except.bind, fatchain, Msdosfs.fatchain, if_pos hguard]
    rfl
  · obtain ⟨reads', hloop⟩ := @Readable.fatchainLoop dev pmp.kind fillwith _ _ _ _ hread pmp.fat
    refine ⟨reads', ?_⟩
    rw [Failing.chainalloc, Msdosfs.chainalloc, halloc]
    simp only [bind, Except.bind, fatchain, Msdosfs.fatchain, if_neg hguard, hloop]
    rfl

theorem chainalloc_fails (h : Consistent pmp) (hclear : ∀ i < count, pmp.Clear (start + i))
    (hread : ¬Readable dev count start none reads) :
    ∃ pmp' reads' e, chainalloc dev pmp start count fillwith reads = .ok (pmp', reads', .error e) ∧
      ¬Consistent pmp' := by
  have hpos : 0 < count := by
    by_contra hzero
    obtain rfl : count = 0 := by omega
    exact hread trivial
  obtain ⟨a, halloc, htest⟩ := @usemapAllocs_ok pmp _ _ fun i hi => (hclear i hi).1
  obtain ⟨m, reads', e, c, hloop, hc, hentry⟩ := @fatchainLoop_fails dev pmp.kind fillwith _ _ _ _ hread pmp.fat
  refine ⟨{ pmp with
    pm_inusemap := a
    pm_freeclustercount := pmp.pm_freeclustercount - BitVec.ofNat 32 count
    fat := m }, reads', e, ?_, fun hcons => ?_⟩
  · rw [Failing.chainalloc, halloc]
    simp only [bind, Except.bind, fatchain, if_neg (guard_of_clear h hclear hpos), hloop]
  · have hfree := hclear (c - start) (by omega)
    rw [show start + (c - start) = c by omega] at hfree
    obtain ⟨hin, hzero⟩ := h.free hfree
    have hset : test a c = true := by
      rw [htest, decide_eq_true hc, Bool.or_true]
    exact (hcons.inuse c hin.1 hin.2).1 hset ((hentry c (.inr rfl)).trans hzero)

end Chainalloc

section Clusteralloc

variable {dev} {pmp : Mount} {fillwith tv_usec : BitVec 32} {start count reads : ℕ}

/-- What the searches settle on are free clusters, no more than are wanted. -/
structure Picked (pmp : Mount) (count cn len : ℕ) : Prop where
  clear : ∀ i < len, pmp.Clear (cn + i)
  pos : 0 < count → 0 < len

theorem pickFrom_free {n len cn got : ℕ} (hn : n ≤ pmp.pm_maxcluster + 1)
    (hlen : ∀ i < len, pmp.Clear (start + i)) (h : pickFrom pmp n start len count = .ok (some (cn, got))) :
    Picked pmp count cn got := by
  have henough {c : ℕ} (hfree : (Found.enough c).Free pmp count) : Picked pmp count c count :=
    ⟨hfree.2, id⟩
  obtain ⟨r₁, hr₁, hfree₁⟩ := @searchLoop_spec pmp count _ le_rfl (pmp.pm_maxcluster + 1) n 0 0
    fun i hi => absurd hi (Nat.not_lt_zero i)
  rw [pickFrom, hr₁] at h
  simp only [bind, Except.bind] at h
  cases r₁ with
  | enough c =>
    cases h
    exact henough hfree₁
  | most foundcn foundl =>
    obtain ⟨r₂, hr₂, hfree₂⟩ := @searchLoop_spec pmp count _ hn n 0 foundcn foundl hfree₁
    simp only [hr₂] at h
    cases r₂ with
    | enough c =>
      cases h
      exact henough hfree₂
    | most foundcn foundl =>
      injection h with h
      by_cases hnone : foundl = 0
      · rw [if_pos hnone] at h
        cases h
      · rw [if_neg hnone] at h
        by_cases hpref : len ≠ 0
        · rw [if_pos hpref] at h
          cases h
          exact ⟨hlen, fun _ => Nat.pos_of_ne_zero hpref⟩
        · rw [if_neg hpref] at h
          cases h
          exact ⟨hfree₂, fun _ => Nat.pos_of_ne_zero hnone⟩

theorem pick_free {cn got : ℕ} (h : pick pmp start count tv_usec = .ok (some (cn, got))) :
    Picked pmp count cn got := by
  rw [pick] at h
  by_cases hzero : start ≠ 0
  · rw [if_pos hzero] at h
    by_cases hword : start / N_INUSEBITS < pmp.words
    · obtain ⟨l, hl, hrun⟩ := @chainlength_spec pmp start count hword
      simp only [hl, bind, Except.bind] at h
      by_cases henough : count ≤ l
      · rw [if_pos henough] at h
        cases h
        exact ⟨fun i hi => hrun.clear i (by omega), id⟩
      · rw [if_neg henough] at h
        exact pickFrom_free (newst_le pmp start) hrun.clear h
    · rw [chainlength_fault (not_lt.1 hword)] at h
      cases h
  · rw [if_neg hzero] at h
    exact pickFrom_free (newst_le pmp _) (fun i hi => absurd hi (Nat.not_lt_zero i)) h

/-- The run that `clusteralloc` settles on can be written. -/
def Writable (dev : Device Errno) (pmp : Mount) (start count : ℕ) (tv_usec : BitVec 32) (reads : ℕ) : Prop :=
  ∀ cn got, pick pmp start count tv_usec = .ok (some (cn, got)) → Readable dev got cn none reads

theorem clusteralloc_of_pick {cn got : ℕ} (h : pick pmp start count tv_usec = .ok (some (cn, got))) :
    clusteralloc dev pmp start count fillwith tv_usec reads = chainalloc dev pmp cn got fillwith reads := by
  rw [clusteralloc, h]
  rfl

theorem clusteralloc_error_iff (h : Consistent pmp) :
    (∀ pmp' reads' e, clusteralloc dev pmp start count fillwith tv_usec reads = .ok (pmp', reads', .error e) →
      Consistent pmp') ↔ Writable dev pmp start count tv_usec reads := by
  constructor
  · intro hkeeps cn got hpick
    by_contra hread
    obtain ⟨pmp', reads', e, halloc, hnot⟩ := chainalloc_fails h (pick_free hpick).clear hread
    exact hnot (hkeeps pmp' reads' e ((clusteralloc_of_pick hpick).trans halloc))
  · intro hwrite pmp' reads' e halloc
    cases hpick : pick pmp start count tv_usec with
    | error f =>
      rw [clusteralloc, hpick] at halloc
      cases halloc
    | ok run =>
      cases run with
      | none =>
        rw [clusteralloc, hpick] at halloc
        cases halloc
        exact h
      | some run =>
        obtain ⟨cn, got⟩ := run
        have hpicked := pick_free hpick
        obtain ⟨reads'', hchain⟩ := @Readable.chainalloc dev pmp fillwith _ _ _ (hwrite cn got hpick) hpicked.clear
        rw [clusteralloc_of_pick hpick, hchain] at halloc
        by_cases hpos : 0 < got
        · -- a run of free clusters is in the file system, and is taken
          obtain ⟨a, hmap, -⟩ := @usemapAllocs_ok pmp _ _ fun i hi => (hpicked.clear i hi).1
          rw [Msdosfs.chainalloc, hmap] at halloc
          simp only [bind, Except.bind, Msdosfs.fatchain, if_neg (guard_of_clear h hpicked.clear hpos)] at halloc
          cases halloc
        · obtain rfl : got = 0 := by omega
          rw [Msdosfs.chainalloc, usemapAllocs] at halloc
          simp only [bind, Except.bind] at halloc
          cases hfat : Msdosfs.fatchain pmp cn 0 fillwith with
          | error err =>
            rw [hfat] at halloc
            cases halloc
            exact h
          | ok m =>
            rw [hfat] at halloc
            cases halloc

theorem runOf_eq_some {pmp : Mount} {start count cn got : ℕ} {tv_usec : BitVec 32} :
    runOf pmp start count tv_usec = some (cn, got) ↔ pick pmp start count tv_usec = .ok (some (cn, got)) := by
  rw [runOf]
  cases pick pmp start count tv_usec with
  | error f => exact iff_of_false nofun nofun
  | ok run => exact ⟨fun h => congrArg Except.ok h, fun h => Except.ok.inj h⟩

end Clusteralloc

/-- One map, whatever the FATs hold. -/
structure SameMap (pmp pmp' : Mount) : Prop where
  inusemap : pmp'.pm_inusemap = pmp.pm_inusemap
  maxcluster : pmp'.pm_maxcluster = pmp.pm_maxcluster

section SameMap

variable {pmp pmp' : Mount}

theorem SameMap.word (h : SameMap pmp pmp') : pmp'.word = pmp.word := by
  funext idx
  rw [Mount.word, Mount.word, Mount.words, Mount.words, h.inusemap, h.maxcluster]

theorem SameMap.lengthLoop (h : SameMap pmp pmp') (count n idx len : ℕ) :
    Msdosfs.lengthLoop pmp' count n idx len = Msdosfs.lengthLoop pmp count n idx len := by
  induction n generalizing idx len with
  | zero => rfl
  | succ n ih => simp only [Msdosfs.lengthLoop, h.word, ih]

theorem SameMap.chainlength (h : SameMap pmp pmp') (start count : ℕ) :
    Msdosfs.chainlength pmp' start count = Msdosfs.chainlength pmp start count := by
  simp only [Msdosfs.chainlength, h.word, h.maxcluster, h.lengthLoop]

theorem SameMap.searchLoop (h : SameMap pmp pmp') (count bound n cn foundcn foundl : ℕ) :
    Msdosfs.searchLoop pmp' count bound n cn foundcn foundl =
      Msdosfs.searchLoop pmp count bound n cn foundcn foundl := by
  induction n generalizing cn foundcn foundl with
  | zero => rfl
  | succ n ih => simp only [Msdosfs.searchLoop, h.word, h.chainlength, ih]

theorem SameMap.runOf (h : SameMap pmp pmp') (start count : ℕ) (tv_usec : BitVec 32) :
    Failing.runOf pmp' start count tv_usec = Failing.runOf pmp start count tv_usec := by
  simp only [Failing.runOf, pick, pickFrom, newst, h.chainlength, h.searchLoop, h.maxcluster]

theorem SameMap.runAt (h : SameMap pmp pmp') (tv_usec : BitVec 32) (k start count : ℕ) :
    Failing.runAt tv_usec k pmp' start count = Failing.runAt tv_usec k pmp start count := by
  induction k generalizing pmp pmp' start count with
  | zero => exact h.runOf start count tv_usec
  | succ k ih =>
    rw [Failing.runAt, Failing.runAt, h.runOf]
    cases Failing.runOf pmp start count tv_usec with
    | none => rfl
    | some r =>
      have hmarked : SameMap (marked pmp r.1 r.2) (marked pmp' r.1 r.2) :=
        ⟨by rw [marked, marked, h.inusemap], h.maxcluster⟩
      exact ih hmarked _ _

theorem usemapAllocs_sameMap {n cl : ℕ} (h : usemapAllocs n cl pmp = .ok pmp') :
    SameMap (marked pmp cl n) pmp' := by
  induction n generalizing cl pmp with
  | zero =>
    cases h
    exact ⟨rfl, rfl⟩
  | succ n ih =>
    rw [usemapAllocs, usemapAlloc] at h
    cases hword : pmp.word (cl / N_INUSEBITS) with
    | error f =>
      rw [hword] at h
      cases h
    | ok w =>
      rw [hword] at h
      exact ⟨(ih h).inusemap, (ih h).maxcluster⟩

theorem chainalloc_sameMap {cn got : ℕ} {fillwith : BitVec 32} {r : Result}
    (h : Msdosfs.chainalloc pmp cn got fillwith = .ok (pmp', r)) : SameMap (marked pmp cn got) pmp' := by
  rw [Msdosfs.chainalloc] at h
  cases halloc : usemapAllocs got cn pmp with
  | error f =>
    rw [halloc] at h
    cases h
  | ok m =>
    have hsame := usemapAllocs_sameMap halloc
    rw [halloc] at h
    simp only [bind, Except.bind] at h
    split at h
    · cases h
      exact ⟨hsame.inusemap, hsame.maxcluster⟩
    · cases h
      exact ⟨hsame.inusemap, hsame.maxcluster⟩

end SameMap

section Clusterfree

variable {dev} {pmp : Mount} {c reads : ℕ}

def undone (pmp : Mount) (c : ℕ) : Mount :=
  { pmp with
    pm_inusemap := set (clear pmp.pm_inusemap c) c
    pm_freeclustercount := pmp.pm_freeclustercount + 1 - 1 }

theorem test_undone (pmp : Mount) (c d : ℕ) :
    test (undone pmp c).pm_inusemap d = (test pmp.pm_inusemap d || decide (d = c)) := by
  rw [undone, test_set (by decide), test_clear (by decide)]
  by_cases hd : d = c
  · simp [hd]
  · simp [hd]

theorem undone_consistent_iff (h : Consistent pmp) (hc : c < N_INUSEBITS * pmp.words) :
    Consistent (undone pmp c) ↔ test pmp.pm_inusemap c = true := by
  constructor
  · intro hcons
    by_contra hbit
    obtain ⟨hin, hzero⟩ := h.free ⟨hc, Bool.eq_false_iff.2 hbit⟩
    have hset : test (undone pmp c).pm_inusemap c = true := by
      rw [test_undone, decide_eq_true rfl, Bool.or_true]
    exact (hcons.inuse c hin.1 hin.2).1 hset hzero
  · intro hbit
    have htest : ∀ d, test (undone pmp c).pm_inusemap d = test pmp.pm_inusemap d := by
      intro d
      rw [test_undone]
      by_cases hd : d = c
      · rw [hd, hbit, Bool.true_or]
      · rw [decide_eq_false hd, Bool.or_false]
    have hfree : (undone pmp c).freeClusters = pmp.freeClusters := by
      ext d
      simp only [Mount.freeClusters, Finset.mem_filter, Mount.Clear, htest]
      rfl
    refine ⟨fun d hlo hhi => ?_, fun d hd hout => ?_, ?_⟩
    · rw [htest]
      exact h.inuse d hlo hhi
    · rw [htest]
      exact h.others d hd hout
    · rw [hfree, ← h.count]
      exact add_sub_cancel_right _ _

/-- `clusterfree` does not touch a word behind the map, and marks the cluster again if its entry
could not be set. -/
theorem clusterfree_cases (dev : Device Errno) (pmp : Mount) (c reads : ℕ) :
    (pmp.words ≤ c / N_INUSEBITS ∧ clusterfree dev pmp c reads = .error ⟨c / N_INUSEBITS⟩) ∨
    c < N_INUSEBITS * pmp.words ∧
      ((∃ reads' e, clusterfree dev pmp c reads = .ok (undone pmp c, reads', .error e) ∧
          ((c < CLUST_FIRST ∨ pmp.pm_maxcluster < c) ∨ dev.bread reads (dev.bn c) = some e)) ∨
        (CLUST_FIRST ≤ c ∧ c ≤ pmp.pm_maxcluster) ∧ dev.bread reads (dev.bn c) = none ∧
          ∃ oldcn, clusterfree dev pmp c reads = .ok (pmp.freed c, reads + 1, .ok oldcn)) := by
  by_cases hc : c < N_INUSEBITS * pmp.words
  · have hagain : usemapAlloc { pmp with
        pm_inusemap := clear pmp.pm_inusemap c
        pm_freeclustercount := pmp.pm_freeclustercount + 1 } c = .ok (undone pmp c) := usemapAlloc_ok hc
    refine .inr ⟨hc, ?_⟩
    by_cases hguard : c < CLUST_FIRST ∨ pmp.pm_maxcluster < c
    · refine .inl ⟨reads, .EINVAL, ?_, .inl hguard⟩
      rw [clusterfree, usemapFree_ok hc]
      simp only [bind, Except.bind, fatentrySet, if_pos hguard, hagain]
    · cases hread : dev.bread reads (dev.bn c) with
      | some e =>
        refine .inl ⟨reads + 1, e, ?_, .inr rfl⟩
        rw [clusterfree, usemapFree_ok hc]
        simp only [bind, Except.bind, fatentrySet, if_neg hguard, hread, hagain]
      | none =>
        obtain ⟨oldcn, hold⟩ : ∃ oldcn, fatentryGet { pmp with
            pm_inusemap := clear pmp.pm_inusemap c
            pm_freeclustercount := pmp.pm_freeclustercount + 1 } c = .ok oldcn := ⟨_, if_neg hguard⟩
        refine .inr ⟨by omega, rfl, oldcn, ?_⟩
        rw [clusterfree, usemapFree_ok hc]
        simp only [bind, Except.bind, fatentrySet, if_neg hguard, hread, Msdosfs.fatentrySet, hold]
        rfl
  · have hword : pmp.words ≤ c / N_INUSEBITS := by
      simp only [N_INUSEBITS] at hc ⊢
      omega
    refine .inl ⟨hword, ?_⟩
    have hout : pmp.word (c / N_INUSEBITS) = .error ⟨c / N_INUSEBITS⟩ := if_neg (not_lt.2 hword)
    rw [clusterfree, usemapFree, hout]
    rfl

/-- Freeing that fails has left the map as the FAT, unless the cluster was free. -/
theorem clusterfree_error_iff (h : Consistent pmp) :
    (∀ pmp' reads' e, clusterfree dev pmp c reads = .ok (pmp', reads', .error e) → Consistent pmp') ↔
      (pmp.Clear c → dev.bread reads (dev.bn c) = none) := by
  obtain ⟨hword, hrun⟩ | ⟨hc, ⟨reads', e, hrun, hwhy⟩ | ⟨hin, hread, oldcn, hrun⟩⟩ :=
    clusterfree_cases dev pmp c reads
  · refine iff_of_true (fun _ _ _ heq => ?_) fun hclear => ?_
    · rw [hrun] at heq
      cases heq
    · have := hclear.1
      simp only [N_INUSEBITS] at hword this
      omega
  · constructor
    · intro hkeeps hclear
      have hset := (undone_consistent_iff h hc).1 (hkeeps _ _ _ hrun)
      rw [hclear.2] at hset
      cases hset
    · intro hread pmp' reads'' e' heq
      rw [hrun] at heq
      cases heq
      refine (undone_consistent_iff h hc).2 ?_
      by_contra hbit
      have hclear : pmp.Clear c := ⟨hc, Bool.eq_false_iff.2 hbit⟩
      have hin := (h.free hclear).1
      rcases hwhy with hout | herr
      · omega
      · rw [hread hclear] at herr
        cases herr
  · refine iff_of_true (fun _ _ _ heq => ?_) fun _ => hread
    rw [hrun] at heq
    cases heq

theorem clusterfree_used (h : Consistent pmp) (hc : pmp.Used c) (dev : Device Errno) (reads : ℕ) :
    ∃ pmp' reads' r, clusterfree dev pmp c reads = .ok (pmp', reads', r) ∧ Consistent pmp' := by
  obtain ⟨hword, -⟩ | ⟨hin, ⟨reads', e, hrun, -⟩ | ⟨-, -, oldcn, hrun⟩⟩ := clusterfree_cases dev pmp c reads
  · have := lt_words hc.last
    simp only [N_INUSEBITS] at hword this
    omega
  · exact ⟨_, _, _, hrun, (undone_consistent_iff h hin).2 ((h.inuse c hc.first hc.last).2 hc.entry)⟩
  · exact ⟨_, _, _, hrun, h.freed hc⟩

end Clusterfree

section Extendfile

variable {dev} {clear : Bool} {tv_usec : BitVec 32} {pmp : Volume} {dep : Denode}

/-- What the cache names as the last cluster of a file is not free. -/
def NotFree (pmp : Mount) (c : ℕ) : Prop :=
  CLUST_FIRST ≤ c → c ≤ pmp.pm_maxcluster → fatEntry pmp.kind pmp.fat c ≠ 0

/-- What is kept from one round to the next. -/
structure Extending.Good (s : Extending) : Prop where
  consistent : Consistent s.pmp.toMount
  sound : s.pmp.Sound
  last : s.dep.de_StartCluster ≠ 0 → NotFree s.pmp.toMount (s.dep.de_fc FC_LASTFC).fc_fsrcn

/-- The run that the next round settles on can be written. -/
def Extending.Writable (dev : Device Errno) (tv_usec : BitVec 32) (s : Extending) : Prop :=
  Failing.Writable dev s.pmp.toMount s.wanted s.count tv_usec s.reads

/-- A round took a run of clusters. -/
structure Next (tv_usec : BitVec 32) (s s' : Extending) (cn got : ℕ) : Prop where
  run : runOf s.pmp.toMount s.wanted s.count tv_usec = some (cn, got)
  count : s'.count = s.count - got
  wanted : s'.wanted = cn + got
  same : SameMap (marked s.pmp.toMount cn got) s'.pmp.toMount

/-- The outcomes of a round. -/
inductive Round (dev : Device Errno) (tv_usec : BitVec 32) (s : Extending) :
    Except Stop (Except Extended Extending) → Prop
  | stops {stop} (h : s.Writable dev tv_usec) : Round dev tv_usec s (.error stop)
  | fails {r e} (h : s.Writable dev tv_usec) (hret : r.ret = .error e) (hcons : Consistent r.pmp.toMount) :
      Round dev tv_usec s (.ok (.error r))
  | unread {r e} (h : ¬s.Writable dev tv_usec) (hret : r.ret = .error e)
      (hcons : ¬Consistent r.pmp.toMount) : Round dev tv_usec s (.ok (.error r))
  | goes {s' cn got} (h : s.Writable dev tv_usec) (hgood : s'.Good) (hcount : s'.count < s.count)
      (hnext : Next tv_usec s s' cn got) : Round dev tv_usec s (.ok (.ok s'))

theorem mapLoop_prev {m : Mount} {n i cn prevcn : ℕ} {r : Bool × ℕ × ℕ × ℕ} (h : mapLoop m n i cn prevcn = r) :
    (r.1 = true → m.kind.Reserved r.2.2.1) ∧
      ((r.2.2.1 = cn ∧ r.2.2.2 = prevcn) ∨ m.next r.2.2.2 = r.2.2.1) := by
  induction n generalizing i cn prevcn with
  | zero =>
    rw [← h]
    exact ⟨nofun, .inl ⟨rfl, rfl⟩⟩
  | succ n ih =>
    rw [mapLoop] at h
    by_cases hres : m.kind.Reserved cn
    · rw [if_pos hres] at h
      rw [← h]
      exact ⟨fun _ => hres, .inl ⟨rfl, rfl⟩⟩
    · rw [if_neg hres] at h
      obtain ⟨h1, ⟨h2, h3⟩ | h2⟩ := ih h
      · exact ⟨h1, .inr (by rw [h2, h3])⟩
      · exact ⟨h1, .inr h2⟩

theorem notFree_of_reserved {m : Mount} {c : ℕ} (h : m.kind.Reserved (m.next c)) : NotFree m c := by
  intro _ _ hzero
  rw [Mount.next, hzero] at h
  revert h
  cases m.kind <;> decide

theorem mapReads_error {m : Mount} {n cn reads reads' : ℕ} {lbn : Option ℕ} {e : Errno}
    (h : mapReads dev m n cn lbn reads = (reads', some e)) : ∃ k bn, dev.bread k bn = some e := by
  induction n generalizing cn lbn reads with
  | zero => cases h
  | succ n ih =>
    rw [mapReads] at h
    by_cases hres : m.kind.Reserved cn
    · rw [if_pos hres] at h
      cases h
    · rw [if_neg hres] at h
      cases hread : dev.read lbn reads cn with
      | none =>
        rw [hread] at h
        exact ih h
      | some e' =>
        rw [hread] at h
        cases h
        rw [Device.read] at hread
        split at hread
        · exact ⟨_, _, hread⟩
        · cases hread

theorem pcbmap_last (hstart : dep.de_StartCluster ≠ 0) {findcn reads reads' : ℕ} {dep' : Denode}
    (hdev : ∀ n bn, dev.bread n bn ≠ some .E2BIG)
    (h : pcbmap dev pmp dep findcn reads = (dep', reads', .error .E2BIG)) :
    NotFree pmp.toMount (dep'.de_fc FC_LASTFC).fc_fsrcn := by
  have hroot : ¬dep.de_StartCluster = MSDOSFSROOT := hstart
  rw [pcbmap] at h
  dsimp only at h
  rw [if_neg hroot] at h
  set first := (fcLookup dep findcn).getD ⟨0, dep.de_StartCluster⟩
  cases hreads : mapReads dev pmp.toMount (findcn - first.fc_frcn) first.fc_fsrcn none reads with
  | mk reads'' err =>
    rw [hreads] at h
    cases err with
    | some e =>
      cases h
      obtain ⟨k, bn, hread⟩ := mapReads_error hreads
      exact absurd hread (hdev k bn)
    | none =>
      rw [Msdosfs.pcbmap, if_neg hroot] at h
      dsimp only at h
      cases hloop : mapLoop pmp.toMount (findcn - first.fc_frcn) first.fc_frcn first.fc_fsrcn 0 with
      | mk hiteof rest =>
        obtain ⟨i, cn, prevcn⟩ := rest
        obtain ⟨hres, hprev⟩ := mapLoop_prev hloop
        rw [hloop] at h
        dsimp only at h hres hprev
        by_cases hend : hiteof = true ∨ pmp.kind.MSDOSFSEOF cn
        · rw [if_pos hend] at h
          cases h
          rw [fcSetcache_self]
          rcases hprev with ⟨-, hzero⟩ | hnext
          · -- no step was taken, and the cache names a cluster that there is not
            intro hlo
            rw [hzero] at hlo
            exact absurd (show 2 ≤ 0 from hlo) (by decide)
          · refine notFree_of_reserved ?_
            rw [hnext]
            exact hend.elim hres reserved_of_eof
        · rw [if_neg hend] at h
          cases h

theorem pcbmap_ok {findcn reads reads' cn : ℕ} {dep' : Denode}
    (h : pcbmap dev pmp dep findcn reads = (dep', reads', .ok cn)) :
    dep'.de_StartCluster = dep.de_StartCluster ∧ dep'.de_fc FC_LASTFC = dep.de_fc FC_LASTFC := by
  rw [pcbmap] at h
  dsimp only at h
  split at h
  · cases h
  · next reads'' hreads =>
    injection h with hdep hrest
    injection hrest with _ hret
    rw [← hdep]
    rw [Msdosfs.pcbmap] at hret ⊢
    by_cases hroot : dep.de_StartCluster = MSDOSFSROOT
    · rw [if_pos hroot]
      split
      · split
        · exact ⟨rfl, rfl⟩
        · exact ⟨rfl, rfl⟩
      · exact ⟨rfl, rfl⟩
    · rw [if_neg hroot] at hret ⊢
      dsimp only at hret ⊢
      split
      · next hend =>
        rw [if_pos hend] at hret
        cases hret
      · exact ⟨rfl, fcSetcache_of_ne dep (by decide) _ _⟩

theorem clearLoop_ok {got frcn reads reads' : ℕ} {dep' : Denode}
    (h : clearLoop dev pmp got frcn dep reads = .ok (dep', reads')) :
    dep'.de_StartCluster = dep.de_StartCluster ∧ dep'.de_fc FC_LASTFC = dep.de_fc FC_LASTFC := by
  induction got generalizing frcn dep reads with
  | zero =>
    cases h
    exact ⟨rfl, rfl⟩
  | succ got ih =>
    rw [clearLoop] at h
    split at h
    · next hmap =>
      obtain ⟨hstart, hfc⟩ := pcbmap_ok hmap
      obtain ⟨hstart', hfc'⟩ := ih h
      exact ⟨hstart'.trans hstart, hfc'.trans hfc⟩
    · cases h

theorem entry_of_taken {m m' : Mount} {cn got c : ℕ} (h : Consistent m) (hsound : m.Sound)
    (htaken : Taken m m' cn got CLUST_EOFE) (hc : (cn ≤ c ∧ c < cn + got) ∨ fatEntry m.kind m.fat c ≠ 0) :
    fatEntry m'.kind m'.fat c ≠ 0 := by
  rw [htaken.entry]
  by_cases hin : cn ≤ c ∧ c < cn + got
  · rw [if_pos hin]
    by_cases hlast : c + 1 < cn + got
    · rw [if_pos hlast]
      have hfree := htaken.clear (c + 1 - cn) (by omega)
      rw [show cn + (c + 1 - cn) = c + 1 by omega] at hfree
      exact hsound.entry_ne_zero (h.free hfree).1.2 (Nat.succ_ne_zero c)
    · rw [if_neg hlast]
      cases m.kind <;> decide
  · rw [if_neg hin]
    exact hc.resolve_left hin

/-- The clusters that were taken are linked to the file, or an error is returned; in both cases the
map is as the FAT. -/
theorem linkRun_cases {m : Mount} {cn got : ℕ} (h : Consistent pmp.toMount) (hsound : pmp.Sound)
    (hlast : dep.de_StartCluster ≠ 0 → NotFree pmp.toMount (dep.de_fc FC_LASTFC).fc_fsrcn)
    (hpos : 0 < got) (htaken : Taken pmp.toMount m cn got CLUST_EOFE) (reads : ℕ) :
    ∃ pmp' dep' reads' r, linkRun dev { pmp with toMount := m } dep cn reads = .ok (pmp', dep', reads', r) ∧
      Consistent pmp'.toMount ∧ ∀ frcn, r = .ok frcn → pmp'.Sound ∧
        fatEntry pmp'.kind pmp'.fat (cn + got - 1) ≠ 0 ∧ dep'.de_StartCluster ≠ 0 ∧ SameMap m pmp'.toMount := by
  have hsound' : m.Sound := by
    rw [Mount.Sound, htaken.kind, htaken.maxcluster]
    exact hsound
  have hnew : fatEntry m.kind m.fat (cn + got - 1) ≠ 0 :=
    entry_of_taken h hsound htaken (.inl ⟨by omega, by omega⟩)
  have hin := (h.free (htaken.clear 0 hpos)).1
  rw [Nat.add_zero] at hin
  by_cases hempty : dep.de_StartCluster = 0
  · have hcn : cn ≠ 0 := by
      have h2 : 2 ≤ cn := hin.1
      omega
    exact ⟨_, _, _, _, if_pos hempty, htaken.consistent, fun _ _ => ⟨hsound', hnew, hcn, rfl, rfl⟩⟩
  · set last := (dep.de_fc FC_LASTFC).fc_fsrcn with hdef
    have hfirst : m.Used cn := ⟨hin.1, htaken.maxcluster ▸ hin.2,
      entry_of_taken h hsound htaken (.inl ⟨le_rfl, by omega⟩)⟩
    -- the first cluster is freed again where the last one of the file cannot be set
    have hundo {reads₁ : ℕ} {e : Errno}
        (hset : fatentrySet dev m last (BitVec.ofNat 32 cn) reads = (.error e, reads₁)) :
        ∃ pmp' dep' reads' r, linkRun dev { pmp with toMount := m } dep cn reads = .ok (pmp', dep', reads', r) ∧
          Consistent pmp'.toMount ∧ ∀ frcn, r = .ok frcn → pmp'.Sound ∧
            fatEntry pmp'.kind pmp'.fat (cn + got - 1) ≠ 0 ∧ dep'.de_StartCluster ≠ 0 ∧
              SameMap m pmp'.toMount := by
      obtain ⟨m', reads₂, r, hfree, hcons⟩ := clusterfree_used htaken.consistent hfirst dev reads₁
      refine ⟨{ pmp with toMount := m' }, dep, reads₂, .error e, ?_, hcons, by rintro _ ⟨⟩⟩
      rw [linkRun, if_neg hempty]
      dsimp only
      rw [← hdef, hset]
      dsimp only
      rw [hfree]
      rfl
    by_cases hguard : last < CLUST_FIRST ∨ m.pm_maxcluster < last
    · exact hundo (if_pos hguard)
    · cases hread : dev.bread reads (dev.bn last) with
      | some e =>
        refine @hundo (reads + 1) e ?_
        rw [fatentrySet, if_neg hguard, hread]
      | none =>
        have hmax := htaken.maxcluster
        have hused : m.Used last := ⟨by omega, by omega,
          entry_of_taken h hsound htaken (.inr (hlast hempty (by omega) (by omega)))⟩
        have hv : BitVec.ofNat 32 cn &&& m.kind.pm_fatmask ≠ 0 := by
          refine hsound'.entry_ne_zero hfirst.last fun hzero => ?_
          rw [hzero] at hin
          exact absurd (show 2 ≤ 0 from hin.1) (by decide)
        obtain ⟨m', hset, hkind, hmax', hcons⟩ := htaken.consistent.fatentrySet hused hv
        have hfat : m'.fat = putEntry m.kind (last % 2 = 1) m.fat (m.kind.FATOFS last) (BitVec.ofNat 32 cn) := by
          rw [Msdosfs.fatentrySet, if_neg hguard] at hset
          cases hset
          rfl
        have hinuse : m'.pm_inusemap = m.pm_inusemap := by
          rw [Msdosfs.fatentrySet, if_neg hguard] at hset
          cases hset
          rfl
        refine ⟨{ pmp with toMount := m' }, dep, reads + 1, .ok ((dep.de_fc FC_LASTFC).fc_frcn + 1), ?_, hcons,
          fun _ _ => ⟨?_, ?_, hempty, hinuse, hmax'⟩⟩
        · have hwritten : fatentrySet dev m last (BitVec.ofNat 32 cn) reads = (.ok m', reads + 1) := by
            rw [fatentrySet, if_neg hguard, hread]
            dsimp only
            rw [hset]
          rw [linkRun, if_neg hempty]
          dsimp only
          rw [← hdef, hwritten]
        · change m'.Sound
          rw [Mount.Sound, hkind, hmax']
          exact hsound'
        · change fatEntry m'.kind m'.fat (cn + got - 1) ≠ 0
          rw [hkind, hfat, fatEntry_putEntry]
          split
          · exact hv
          · exact hnew

theorem extendRound_round {s : Extending} (h : s.Good) (hcount : s.count ≠ 0) :
    Round dev tv_usec s (extendRound dev clear tv_usec s) := by
  cases hpick : pick s.pmp.toMount s.wanted s.count tv_usec with
  | error f =>
    have hwrite : s.Writable dev tv_usec := fun cn got heq => by
      rw [hpick] at heq
      cases heq
    rw [extendRound, clusteralloc, hpick]
    exact .stops hwrite
  | ok run =>
    cases run with
    | none =>
      have hwrite : s.Writable dev tv_usec := fun cn got heq => by
        rw [hpick] at heq
        cases heq
      rw [extendRound, clusteralloc, hpick]
      exact .fails hwrite rfl h.consistent
    | some run =>
      obtain ⟨cn, got⟩ := run
      have hpicked := pick_free hpick
      have hpos := hpicked.pos (Nat.pos_of_ne_zero hcount)
      by_cases hread : Readable dev got cn none s.reads
      swap
      · obtain ⟨m, reads', e, halloc, hnot⟩ :=
          @chainalloc_fails dev s.pmp.toMount CLUST_EOFE cn got s.reads h.consistent hpicked.clear hread
        rw [extendRound, clusteralloc_of_pick hpick, halloc]
        exact .unread (fun hwrite => hread (hwrite cn got hpick)) rfl hnot
      · have hwrite : s.Writable dev tv_usec := fun cn' got' heq => by
          rw [hpick] at heq
          cases heq
          exact hread
        obtain ⟨reads', hchain⟩ :=
          @Readable.chainalloc dev s.pmp.toMount CLUST_EOFE _ _ _ hread hpicked.clear
        obtain ⟨m, hm, htaken⟩ := @Consistent.chainalloc s.pmp.toMount h.consistent h.sound _ _ CLUST_EOFE
          (by cases s.pmp.kind <;> decide) hpicked.clear fun hzero => absurd hzero (by omega)
        obtain ⟨pmp', dep', reads'', r, hlink, hcons, hok⟩ :=
          @linkRun_cases dev s.pmp s.dep m cn got h.consistent h.sound h.last hpos htaken reads'
        rw [extendRound, clusteralloc_of_pick hpick, hchain, hm]
        simp only [Except.map, hlink]
        cases r with
        | error e => exact .fails hwrite rfl hcons
        | ok frcn =>
          obtain ⟨hsound, hnew, hstart, hsame⟩ := hok frcn rfl
          dsimp only
          have hmap := chainalloc_sameMap hm
          -- clearing the clusters leaves what the cache has for the last one
          have hgoes {dep'' : Denode} {n : ℕ} (hstart' : dep''.de_StartCluster = dep'.de_StartCluster)
              (hfc : dep''.de_fc FC_LASTFC =
                (dep'.fcSetcache FC_LASTFC (frcn + got - 1) (cn + got - 1)).de_fc FC_LASTFC) :
              Round dev tv_usec s
                (.ok (.ok ⟨pmp', dep'', s.count - got, s.ncp.or (some cn), n⟩)) := by
            refine @Round.goes _ _ _ _ cn got hwrite ⟨hcons, hsound, fun _ _ _ => ?_⟩ ?_
              ⟨runOf_eq_some.2 hpick, rfl, ?_, hsame.inusemap.trans hmap.inusemap,
                hsame.maxcluster.trans hmap.maxcluster⟩
            · rw [hfc, fcSetcache_self]
              exact hnew
            · exact Nat.sub_lt (Nat.pos_of_ne_zero hcount) hpos
            · rw [Extending.wanted, if_neg (hstart'.trans_ne hstart), hfc, fcSetcache_self]
              exact Nat.sub_add_cancel (Nat.le_add_left_of_le hpos)
          split
          · exact .stops hwrite
          · next dep'' n hclear =>
            split at hclear
            · obtain ⟨hstart', hfc⟩ := clearLoop_ok hclear
              exact hgoes hstart' hfc
            · cases hclear
              exact hgoes rfl rfl

/-- In every round that the loop comes to, the run can be written. -/
def Extending.Readable (dev : Device Errno) (clear : Bool) (tv_usec : BitVec 32) (s : Extending) : Prop :=
  ∀ k reads cn got, Reaches dev clear tv_usec s k reads →
    runAt tv_usec k s.pmp.toMount s.wanted s.count = some (cn, got) → Failing.Readable dev got cn none reads

theorem readable_of_done {s : Extending} (h : s.count = 0) : s.Readable dev clear tv_usec := by
  intro k reads cn got hreach
  cases hreach with
  | here hcount => exact absurd h hcount
  | later hcount => exact absurd h hcount

theorem readable_iff {s : Extending} (h : s.Good) (hcount : s.count ≠ 0) :
    s.Readable dev clear tv_usec ↔ s.Writable dev tv_usec ∧
      ∀ s', extendRound dev clear tv_usec s = .ok (.ok s') → s'.Readable dev clear tv_usec := by
  have hnext : ∀ s', extendRound dev clear tv_usec s = .ok (.ok s') → ∀ k,
      runAt tv_usec (k + 1) s.pmp.toMount s.wanted s.count =
        runAt tv_usec k s'.pmp.toMount s'.wanted s'.count := by
    intro s' hround k
    have hout := @extendRound_round dev clear tv_usec s h hcount
    rw [hround] at hout
    cases hout with
    | @goes _ cn got _ _ _ hnext =>
      rw [runAt, hnext.run, Option.bind_some, hnext.wanted, hnext.count]
      exact (hnext.same.runAt tv_usec k _ _).symm
  constructor
  · refine fun hread => ⟨fun cn got hpick => ?_, fun s' hround k reads cn got hreach hrun => ?_⟩
    · exact hread 0 s.reads cn got (.here hcount) (runOf_eq_some.2 hpick)
    · refine hread (k + 1) reads cn got (.later hcount hround hreach) ?_
      rw [hnext s' hround]
      exact hrun
  · rintro ⟨hwrite, hrest⟩ k reads cn got hreach hrun
    cases hreach with
    | here => exact hwrite cn got (runOf_eq_some.1 hrun)
    | @later _ s' k _ _ hround hreach =>
      rw [hnext s' hround] at hrun
      exact hrest s' hround k reads cn got hreach hrun

theorem extendLoop_error_iff {s : Extending} (h : s.Good) {fuel : ℕ} (hfuel : s.count ≤ fuel) :
    (∀ r e, extendLoop dev clear tv_usec fuel s = .ok r → r.ret = .error e → Consistent r.pmp.toMount) ↔
      s.Readable dev clear tv_usec := by
  induction fuel generalizing s with
  | zero =>
    have hzero : s.count = 0 := by omega
    refine iff_of_true (fun r e hrun hret => ?_) (readable_of_done hzero)
    rw [extendLoop, if_pos hzero] at hrun
    cases hrun
    cases hret
  | succ fuel ih =>
    by_cases hzero : s.count = 0
    · refine iff_of_true (fun r e hrun hret => ?_) (readable_of_done hzero)
      rw [extendLoop, if_pos hzero] at hrun
      cases hrun
      cases hret
    · rw [extendLoop, if_neg hzero, readable_iff h hzero]
      have hround := @extendRound_round dev clear tv_usec s h hzero
      cases hout : extendRound dev clear tv_usec s with
      | error stop =>
        rw [hout] at hround
        cases hround with
        | stops hwrite => exact iff_of_true (fun r e hrun => by cases hrun) ⟨hwrite, by rintro s' ⟨⟩⟩
      | ok out =>
        rw [hout] at hround
        cases hround with
        | @fails r e hwrite hret hcons =>
          refine iff_of_true (fun r' e' hrun _ => ?_) ⟨hwrite, by rintro s' ⟨⟩⟩
          cases hrun
          exact hcons
        | @unread r e hwrite hret hcons =>
          exact iff_of_false (fun hkeeps => hcons (hkeeps r e rfl hret)) fun hread => hwrite hread.1
        | @goes s' _ _ hwrite hgood hcount =>
          dsimp only
          rw [ih hgood (by omega)]
          refine ⟨fun hread => ⟨hwrite, fun s'' heq => ?_⟩, fun hread => hread.2 s' rfl⟩
          cases heq
          exact hread

theorem extendStart_cases (h : Consistent pmp.toMount) (hsound : pmp.Sound)
    (hdev : ∀ n bn, dev.bread n bn ≠ some .E2BIG)
    (hlast : dep.de_StartCluster ≠ 0 → (dep.de_fc FC_LASTFC).fc_frcn ≠ FCE_EMPTY →
      NotFree pmp.toMount (dep.de_fc FC_LASTFC).fc_fsrcn) (count reads : ℕ) :
    (∃ r, extendStart dev pmp dep count reads = .error r ∧ Consistent r.pmp.toMount) ∨
      ∃ s, extendStart dev pmp dep count reads = .ok s ∧ s.Good ∧ s.count = count := by
  have hfrom {dep' : Denode} (reads' : ℕ) (hlast' : dep'.de_StartCluster ≠ 0 →
      NotFree pmp.toMount (dep'.de_fc FC_LASTFC).fc_fsrcn) :
      (extendFrom pmp dep' count reads').Good ∧ (extendFrom pmp dep' count reads').count = count := by
    refine ⟨⟨h, hsound, fun hstart => ?_⟩, rfl⟩
    rw [extendFrom, fcSetcache_of_ne dep' (by decide)]
    exact hlast' hstart
  rw [extendStart]
  by_cases hroot : dep.de_StartCluster = MSDOSFSROOT ∧ dep.directory = true
  · exact .inl ⟨_, if_pos hroot, h⟩
  · rw [if_neg hroot]
    by_cases hempty : (dep.de_fc FC_LASTFC).fc_frcn = FCE_EMPTY ∧ dep.de_StartCluster ≠ 0
    · rw [if_pos hempty]
      cases hmap : pcbmap dev pmp dep 0xffff reads with
      | mk dep' rest =>
        obtain ⟨reads', ret⟩ := rest
        cases ret with
        | ok cn => exact .inl ⟨_, rfl, h⟩
        | error e =>
          dsimp only
          by_cases he : e = .E2BIG
          · rw [he] at hmap
            exact .inr ⟨_, if_pos he, hfrom reads' fun _ => pcbmap_last hempty.2 hdev hmap⟩
          · exact .inl ⟨_, if_neg he, h⟩
    · rw [if_neg hempty]
      refine .inr ⟨_, rfl, hfrom reads fun hstart => hlast hstart fun hfc => hempty ⟨hfc, hstart⟩⟩

theorem extendfile_error_iff (h : Consistent pmp.toMount) (hsound : pmp.Sound)
    (hdev : ∀ n bn, dev.bread n bn ≠ some .E2BIG)
    (hlast : dep.de_StartCluster ≠ 0 → (dep.de_fc FC_LASTFC).fc_frcn ≠ FCE_EMPTY →
      NotFree pmp.toMount (dep.de_fc FC_LASTFC).fc_fsrcn) (count reads : ℕ) :
    (∀ r e, extendfile dev clear tv_usec pmp dep count reads = .ok r → r.ret = .error e →
      Consistent r.pmp.toMount) ↔
      ∀ s, extendStart dev pmp dep count reads = .ok s → s.Readable dev clear tv_usec := by
  rw [extendfile]
  obtain ⟨r, hstart, hcons⟩ | ⟨s, hstart, hgood, hcount⟩ :=
    extendStart_cases h hsound hdev hlast count reads
  · rw [hstart]
    refine iff_of_true (fun r' e hrun _ => ?_) nofun
    cases hrun
    exact hcons
  · rw [hstart]
    dsimp only
    rw [extendLoop_error_iff hgood hcount.le]
    exact ⟨fun hnot s' heq => by cases heq; exact hnot, fun hall => hall s rfl⟩

end Extendfile

/-- Where `clusteralloc`, `clusterfree` or `extendfile` returns an error, the map and the count are
as the FAT exactly if no run was to be written whose blocks cannot be read, and no cluster freed
that was free. -/
theorem error_consistent (dev : Device Errno) (pmp : Volume) (h : Consistent pmp.toMount) (hsound : pmp.Sound)
    (hdev : ∀ n bn, dev.bread n bn ≠ some .E2BIG) :
    (∀ start count fillwith tv_usec reads,
      (∀ pmp' reads' e,
        clusteralloc dev pmp.toMount start count fillwith tv_usec reads = .ok (pmp', reads', .error e) →
          Consistent pmp') ↔ Writable dev pmp.toMount start count tv_usec reads) ∧
    (∀ cluster reads,
      (∀ pmp' reads' e, clusterfree dev pmp.toMount cluster reads = .ok (pmp', reads', .error e) →
        Consistent pmp') ↔ (pmp.Clear cluster → dev.bread reads (dev.bn cluster) = none)) ∧
    ∀ clear tv_usec dep count reads, (dep.de_StartCluster ≠ 0 → (dep.de_fc FC_LASTFC).fc_frcn ≠ FCE_EMPTY →
        NotFree pmp.toMount (dep.de_fc FC_LASTFC).fc_fsrcn) →
      ((∀ r e, extendfile dev clear tv_usec pmp dep count reads = .ok r → r.ret = .error e →
        Consistent r.pmp.toMount) ↔
        ∀ s, extendStart dev pmp dep count reads = .ok s → s.Readable dev clear tv_usec) :=
  ⟨fun _ _ _ _ _ => clusteralloc_error_iff h, fun _ _ => clusterfree_error_iff h,
    fun _ _ _ count reads hlast => extendfile_error_iff h hsound hdev hlast count reads⟩

/-- A file system whose two clusters are free. -/
def twoFree : Volume where
  kind := .fat16
  pm_maxcluster := 3
  pm_inusemap _ := 0xfffffff3
  pm_freeclustercount := 2
  fat _ := 0
  pm_cnshift := 9
  pm_bnshift := 9
  pm_rootdirsize := 1

theorem twoFree_consistent : Consistent twoFree.toMount where
  inuse c hlo hhi := by
    change c ≤ 3 at hhi
    revert hlo
    revert c
    decide
  others c hc := by
    change c < 32 at hc
    revert c
    decide
  count := by decide

/-- A device that ends in front of the FAT. -/
def shortDevice : Device Errno := ⟨fun _ => 0, fun _ _ => some .EINVAL⟩

def emptyFile : Denode := ⟨0, false, 0, fun _ => ⟨FCE_EMPTY, 0⟩⟩

theorem error_consistent_twoFree :
    ((∀ pmp' reads' e, clusterfree shortDevice twoFree.toMount 1 0 = .ok (pmp', reads', .error e) →
      Consistent pmp') ↔ (twoFree.Clear 1 → shortDevice.bread 0 (shortDevice.bn 1) = none)) ∧
    ((∀ r e, extendfile shortDevice true 0 twoFree emptyFile 2 0 = .ok r → r.ret = .error e →
      Consistent r.pmp.toMount) ↔
      ∀ s, extendStart shortDevice twoFree emptyFile 2 0 = .ok s → s.Readable shortDevice true 0) := by
  obtain ⟨-, hfree, hextend⟩ :=
    error_consistent shortDevice twoFree twoFree_consistent (by decide) nofun
  exact ⟨hfree 1 0, hextend true 0 emptyFile 2 0 fun hstart => absurd rfl hstart⟩

/-- The first of the two clusters is in use according to the map, and free according to the FAT. -/
theorem clusteralloc_marks : Consistent twoFree.toMount ∧ ∃ pmp',
    clusteralloc shortDevice twoFree.toMount 0 1 CLUST_EOFE 0 0 = .ok (pmp', 1, .error .EINVAL) ∧
      ¬Consistent pmp' := by
  refine ⟨twoFree_consistent, { twoFree.toMount with
    pm_inusemap := set twoFree.pm_inusemap 2
    pm_freeclustercount := 1 }, rfl, fun h => ?_⟩
  exact (h.inuse 2 (by decide) (by decide)).1 (by decide) (by decide)

end OpenbsdKernel.Msdosfs.Failing
