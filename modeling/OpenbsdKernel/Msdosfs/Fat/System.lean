import OpenbsdKernel.Msdosfs.Fat.Runs

/-!
# A file system in use

The calls that change the FAT, in any order after the map of clusters in use was built. A file that
ends with the last cluster is extended from the cluster behind it; if the map ends there too,
`chainlength` looks at a word that the map does not have.
-/
namespace OpenbsdKernel.Msdosfs

open Bitmap

inductive Op
  | clusteralloc (start count : ℕ) (fillwith tv_usec : BitVec 32)
  | clusterfree (cluster : ℕ)
  | freeclusterchain (cluster : ℕ)
  /-- What `extendfile` does with the clusters it has got: the entry of the last cluster is set. -/
  | extend (last cn : ℕ)
  deriving DecidableEq, Repr

/-- The file system after a call, and the clusters that were handed out. -/
def step (pmp : Mount) : Op → Except Fault (Mount × List ℕ)
  | .clusteralloc start count fillwith tv_usec => do
    let (pmp, r) ← clusteralloc pmp start count fillwith tv_usec
    match r with
    | .ok (retcluster, got) => .ok (pmp, List.range' retcluster got)
    | .error _ => .ok (pmp, [])
  | .clusterfree cluster => do
    let (pmp, _) ← clusterfree pmp cluster
    .ok (pmp, [])
  | .freeclusterchain cluster => do
    let pmp ← freeclusterchain (pmp.pm_maxcluster + 1) pmp cluster
    .ok (pmp, [])
  | .extend last cn =>
    match fatentrySet pmp last (BitVec.ofNat 32 cn) with
    | .ok pmp => .ok (pmp, [])
    | .error _ => .ok (pmp, [])

/-- What the callers see to: a preferred start is behind the last cluster of a file, and what is freed
is a cluster in use, or a chain of them. -/
def Allowed (pmp : Mount) : Op → Prop
  | .clusteralloc start _ fillwith _ =>
    (start = 0 ∨ ∃ last, pmp.Used last ∧ start = last + 1) ∧ pmp.kind.Ends fillwith
  | .clusterfree cluster => pmp.Used cluster
  | .freeclusterchain cluster => ∃ l, pmp.Chain cluster l ∧ l.Nodup
  | .extend last cn => pmp.Used last ∧ CLUST_FIRST ≤ cn ∧ cn ≤ pmp.pm_maxcluster

/-- No clusters are asked for behind the last cluster where the map ends there. -/
def Inside (pmp : Mount) : Op → Prop
  | .clusteralloc start _ _ _ => ¬(start = pmp.pm_maxcluster + 1 ∧ N_INUSEBITS ∣ pmp.pm_maxcluster + 1)
  | _ => True

inductive Reachable (fs : Mount) : Mount → Prop
  | fill {pmp : Mount} (h : fillinusemap fs = .ok pmp) : Reachable fs pmp
  | step {pmp pmp' : Mount} {op : Op} {handed : List ℕ} (h : Reachable fs pmp) (hallowed : Allowed pmp op)
      (hinside : Inside pmp op) (hstep : step pmp op = .ok (pmp', handed)) : Reachable fs pmp'

section Step

variable {pmp : Mount} {op : Op}

theorem div_lt_words {start : ℕ} (hlast : start ≤ pmp.pm_maxcluster + 1)
    (hinside : ¬(start = pmp.pm_maxcluster + 1 ∧ N_INUSEBITS ∣ pmp.pm_maxcluster + 1)) :
    start / N_INUSEBITS < pmp.words := by
  rw [pmp.words_eq]
  simp only [N_INUSEBITS] at *
  omega

theorem Mount.Chain.length_le {c : ℕ} {l : List ℕ} (h : pmp.Chain c l) (hnodup : l.Nodup) :
    l.length ≤ pmp.pm_maxcluster + 1 := by
  have hsub : l.toFinset ⊆ Finset.range (pmp.pm_maxcluster + 1) := by
    intro d hd
    have := (h.used d (List.mem_toFinset.1 hd)).last
    exact Finset.mem_range.2 (by omega)
  have hcard := Finset.card_le_card hsub
  rwa [List.toFinset_card_of_nodup hnodup, Finset.card_range] at hcard

/-- What a call leaves, and that it hands out free clusters only. -/
structure Stepped (pmp pmp' : Mount) (handed : List ℕ) : Prop where
  kind : pmp'.kind = pmp.kind
  maxcluster : pmp'.pm_maxcluster = pmp.pm_maxcluster
  consistent : Consistent pmp'
  clear : ∀ c ∈ handed, pmp.Clear c

theorem Consistent.step (h : Consistent pmp) (hsound : pmp.Sound) (hallowed : Allowed pmp op)
    (hinside : Inside pmp op) : ∃ pmp' handed, step pmp op = .ok (pmp', handed) ∧ Stepped pmp pmp' handed := by
  cases op with
  | clusteralloc start count fillwith tv_usec =>
    obtain ⟨hstart, hfill⟩ := hallowed
    have hrange : start ≠ 0 → CLUST_FIRST ≤ start ∧ start ≤ pmp.pm_maxcluster + 1 := by
      intro hne
      obtain rfl | ⟨last, hlast, rfl⟩ := hstart
      · exact absurd rfl hne
      · have h1 := hlast.first
        have h2 := hlast.last
        omega
    have hle : start ≤ pmp.pm_maxcluster + 1 := by
      by_cases hne : start = 0
      · omega
      · exact (hrange hne).2
    obtain ⟨pmp', r, halloc, hhanded⟩ :=
      @Consistent.clusteralloc pmp start count fillwith h hsound hfill hrange (div_lt_words hle hinside) tv_usec
    rw [Msdosfs.step, halloc]
    cases r with
    | error e => exact ⟨pmp', [], rfl, hhanded.kind, hhanded.maxcluster, hhanded.consistent, nofun⟩
    | ok r =>
      refine ⟨pmp', _, rfl, hhanded.kind, hhanded.maxcluster, hhanded.consistent, fun c hc => ?_⟩
      obtain ⟨i, hi, rfl⟩ := List.mem_range'.1 hc
      rw [Nat.one_mul]
      exact hhanded.clear r.1 r.2 rfl i hi
  | clusterfree cluster =>
    rw [Msdosfs.step, clusterfree_used hallowed]
    exact ⟨_, [], rfl, rfl, rfl, h.freed hallowed, nofun⟩
  | freeclusterchain cluster =>
    obtain ⟨l, hl, hnodup⟩ := hallowed
    obtain ⟨pmp', hfree, hfreed⟩ := h.freeclusterchain hl hnodup (hl.length_le hnodup)
    rw [Msdosfs.step, hfree]
    exact ⟨pmp', [], rfl, hfreed.kind, hfreed.maxcluster, hfreed.consistent, nofun⟩
  | extend last cn =>
    obtain ⟨hlast, hcn⟩ := hallowed
    have hne : BitVec.ofNat 32 cn &&& pmp.kind.pm_fatmask ≠ 0 := by
      intro hzero
      have hval := hsound.toNat_entry hcn.2
      rw [hzero] at hval
      have h1 : 0 = cn := hval
      have h2 : 2 ≤ cn := hcn.1
      omega
    obtain ⟨pmp', hset, hkind, hmax, hcons⟩ := h.fatentrySet hlast hne
    rw [Msdosfs.step, hset]
    exact ⟨pmp', [], rfl, hkind, hmax, hcons, nofun⟩

theorem step_outside (hallowed : Allowed pmp op) (hinside : ¬Inside pmp op) :
    step pmp op = .error ⟨pmp.words⟩ := by
  cases op with
  | clusteralloc start count fillwith tv_usec =>
    obtain ⟨rfl, hdvd⟩ := not_not.1 hinside
    have hdiv : (pmp.pm_maxcluster + 1) / N_INUSEBITS = pmp.words := by
      rw [pmp.words_eq]
      simp only [N_INUSEBITS] at *
      omega
    rw [step, clusteralloc, if_pos (Nat.succ_ne_zero _), chainlength_fault hdiv.ge, hdiv]
    rfl
  | clusterfree cluster => exact absurd trivial hinside
  | freeclusterchain cluster => exact absurd trivial hinside
  | extend last cn => exact absurd trivial hinside

end Step

section Run

variable {fs pmp : Mount}

theorem Reachable.inv (h : Reachable fs pmp) (hsound : fs.Sound) : pmp.Sound ∧ Consistent pmp := by
  induction h with
  | fill hfill =>
    obtain ⟨pmp', hfill', hkind, hmax, -, hcons⟩ := fillinusemap_spec fs
    cases hfill'.symm.trans hfill
    refine ⟨?_, hcons⟩
    rw [Mount.Sound, hkind, hmax]
    exact hsound
  | step _ hallowed hinside hstep ih =>
    obtain ⟨pmp', handed, hstep', hstepped⟩ := ih.2.step ih.1 hallowed hinside
    cases hstep'.symm.trans hstep
    refine ⟨?_, hstepped.consistent⟩
    rw [Mount.Sound, hstepped.kind, hstepped.maxcluster]
    exact ih.1

/-- The count does not wrap around. -/
theorem Consistent.toNat_count (h : Consistent pmp) (hsound : pmp.Sound) :
    pmp.pm_freeclustercount.toNat = pmp.freeClusters.card := by
  have hsub : pmp.freeClusters ⊆ Finset.range (pmp.pm_maxcluster + 1) := by
    intro c hc
    have := (h.free (Finset.mem_filter.1 hc).2).1.2
    exact Finset.mem_range.2 (by omega)
  have hcard := Finset.card_le_card hsub
  rw [Finset.card_range] at hcard
  have := hsound.lt_mask.2
  rw [h.count, BitVec.toNat_ofNat, Nat.mod_eq_of_lt (by omega)]

/-- In every state of a run in which no clusters are asked for behind a map that ends with the last
cluster, the map, the count and the FAT agree; a call that its callers may make looks at words of
the map only if it asks for none, and hands out free clusters. -/
theorem inuse_run (fs : Mount) (hsound : fs.Sound) :
    (∃ pmp, fillinusemap fs = .ok pmp) ∧ ∀ pmp, Reachable fs pmp →
      (∀ c, CLUST_FIRST ≤ c → c ≤ pmp.pm_maxcluster →
        (test pmp.pm_inusemap c = true ↔ fatEntry pmp.kind pmp.fat c ≠ 0)) ∧
      (∀ c, c < N_INUSEBITS * pmp.words → c < CLUST_FIRST ∨ pmp.pm_maxcluster < c →
        test pmp.pm_inusemap c = true) ∧
      pmp.pm_freeclustercount.toNat = pmp.freeClusters.card ∧
      ∀ op, Allowed pmp op → ((∃ r, step pmp op = .ok r) ↔ Inside pmp op) ∧
        ∀ pmp' handed, step pmp op = .ok (pmp', handed) → ∀ c ∈ handed,
          c ≤ pmp.pm_maxcluster ∧ test pmp.pm_inusemap c = false ∧ fatEntry pmp.kind pmp.fat c = 0 := by
  constructor
  · obtain ⟨pmp, hfill, -⟩ := fillinusemap_spec fs
    exact ⟨pmp, hfill⟩
  · intro pmp hreach
    obtain ⟨hsound, hcons⟩ := hreach.inv hsound
    refine ⟨hcons.inuse, hcons.others, hcons.toNat_count hsound, fun op hallowed => ?_⟩
    have hinside : (∃ r, step pmp op = .ok r) → Inside pmp op := by
      rintro ⟨r, hr⟩
      by_contra hout
      rw [step_outside hallowed hout] at hr
      cases hr
    constructor
    · refine ⟨hinside, fun h => ?_⟩
      obtain ⟨pmp', handed, hstep, -⟩ := hcons.step hsound hallowed h
      exact ⟨_, hstep⟩
    · intro pmp' handed hstep c hc
      obtain ⟨_, _, hstep', hstepped⟩ := hcons.step hsound hallowed (hinside ⟨_, hstep⟩)
      cases hstep'.symm.trans hstep
      have hclear := hstepped.clear c hc
      obtain ⟨hrange, hentry⟩ := hcons.free hclear
      exact ⟨hrange.2, hclear.2, hentry⟩

/-- A FAT of 30 clusters, of which the last is in use. -/
def lastInUse : Mount where
  kind := .fat12
  pm_maxcluster := 31
  pm_inusemap _ := 0
  pm_freeclustercount := 0
  fat o := if o = 46 then 0xf0 else if o = 47 then 0xff else 0

theorem inuse_run_lastInUse : ∃ pmp pmp' handed, fillinusemap lastInUse = .ok pmp ∧
    step pmp (.clusteralloc 0 3 CLUST_EOFE 0) = .ok (pmp', handed) ∧
    (test pmp'.pm_inusemap 31 = true ↔ fatEntry pmp'.kind pmp'.fat 31 ≠ 0) ∧
    pmp'.pm_freeclustercount.toNat = pmp'.freeClusters.card ∧
    ∃ r, step pmp' (.clusteralloc 0 2 CLUST_EOFE 0) = .ok r := by
  have hrun := inuse_run lastInUse (by decide)
  obtain ⟨pmp, hfill⟩ := hrun.1
  obtain ⟨pmp₀, hfill₀, hkind, hmax, -⟩ := fillinusemap_spec lastInUse
  cases hfill₀.symm.trans hfill
  obtain ⟨hsound, hcons⟩ := (Reachable.fill hfill).inv (by decide)
  have hends : pmp.kind.Ends CLUST_EOFE := by
    rw [hkind]
    decide
  have hallowed : Allowed pmp (.clusteralloc 0 3 CLUST_EOFE 0) := ⟨.inl rfl, hends⟩
  have hinside : Inside pmp (.clusteralloc 0 3 CLUST_EOFE 0) := fun h => absurd h.1 (Nat.succ_ne_zero _).symm
  obtain ⟨pmp', handed, hstep, hstepped⟩ := hcons.step hsound hallowed hinside
  obtain ⟨hinuse, -, hcount, hop⟩ := hrun.2 pmp' (.step (.fill hfill) hallowed hinside hstep)
  refine ⟨pmp, pmp', handed, hfill, hstep, hinuse 31 (by decide) (hstepped.maxcluster.trans hmax).ge, hcount, ?_⟩
  refine (hop (.clusteralloc 0 2 CLUST_EOFE 0) ⟨.inl rfl, ?_⟩).1.2 fun h => absurd h.1 (Nat.succ_ne_zero _).symm
  rwa [hstepped.kind]

/-- The file with the last cluster is extended. -/
theorem extend_lastInUse : ∃ pmp, fillinusemap lastInUse = .ok pmp ∧
    Allowed pmp (.clusteralloc 32 1 CLUST_EOFE 0) ∧ pmp.words = 1 ∧
    step pmp (.clusteralloc 32 1 CLUST_EOFE 0) = .error ⟨1⟩ := by
  obtain ⟨pmp, hfill, hkind, hmax, hfat, -⟩ := fillinusemap_spec lastInUse
  have hwords : pmp.words = 1 := by
    rw [Mount.words, hmax]
    rfl
  have hallowed : Allowed pmp (.clusteralloc 32 1 CLUST_EOFE 0) := by
    refine ⟨.inr ⟨31, ⟨by decide, hmax.ge, ?_⟩, rfl⟩, ?_⟩
    · rw [hkind, hfat]
      decide
    · rw [hkind]
      decide
  refine ⟨pmp, hfill, hallowed, hwords, ?_⟩
  rw [step_outside hallowed, hwords]
  refine not_not.2 ⟨?_, ?_⟩
  · rw [hmax]
    rfl
  · rw [hmax]
    decide

end Run

end OpenbsdKernel.Msdosfs
