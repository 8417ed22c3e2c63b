import OpenbsdKernel.Kern.Srp.Safety

/-!
# Runs of readers, updates and collections

The invariant of the whole system, kept by every action, and what it says about the
destructor: it does not run on a value some CPU has a reference to, nor twice. A reader in
`srp_follow` is as safe, provided that no collection looks at its record meanwhile.
-/
namespace OpenbsdKernel.Srp

variable {n : ℕ} {π ν : Type*} [DecidableEq π] [DecidableEq ν]

def Gc.pair (g : Gc n π ν) : π × ν := (g.srp, g.v)

/-- The records a collection may still find its value in. -/
def GcPc.pending : GcPc n → List (Fin n × Fin SRP_HAZARD_NUM)
  | .scan todo => todo
  | .value r todo => r :: todo
  | .timeout => records n

def GcPc.record : GcPc n → Option (Fin n × Fin SRP_HAZARD_NUM)
  | .scan (r :: _) | .value r _ => some r
  | _ => none

theorem mem_records (r : Fin n × Fin SRP_HAZARD_NUM) : r ∈ records n := by
  simp [records, List.mem_flatMap]

/-- The invariant; `ins` lists what has been put in so far. -/
structure Inv (w : Bool) (ins : List (π × ν)) (s : State n π ν) : Prop where
  locals : ∀ c, s.LocalOk c
  current : ∀ p v, s.ref p = some v → (p, v) ∈ ins
  known : ∀ c i r, s.Uses true c i r → r ∈ ins
  retired : ∀ r ∈ s.gcs.map Gc.pair ++ s.destroyed, r ∈ ins ∧ s.ref r.1 ≠ some r.2
  nodup : (s.gcs.map Gc.pair ++ s.destroyed).Nodup
  scanned : ∀ g ∈ s.gcs, ∀ c i, (c, i) ∉ g.pc.pending → ¬ s.Uses w c i g.pair
  dead : ∀ r ∈ s.destroyed, ∀ c i, ¬ s.Uses w c i r

/-- A collection looks at a record at which `srp_follow` is at work, coming from the very
value that is being collected. -/
def State.overlooks (s : State n π ν) : Act n π ν → Bool
  | .gc j => s.gcs[j]?.any fun g => g.pc.record.any fun r => (s.pc r.1).transit = some (r.2, g.pair)
  | _ => false

theorem inv_init (w : Bool) : Inv w [] (State.init : State n π ν) where
  locals c := ⟨trivial, fun r => by simp [State.init]⟩
  current p v h := by cases h
  known c i r h := by
    rcases h with ⟨h, -⟩ | ⟨-, h⟩
    · cases h
    · cases h
  retired r h := by cases h
  nodup := List.nodup_nil
  scanned g h := by cases h
  dead r h := by cases h

variable {w : Bool} {ins : List (π × ν)} {s : State n π ν}

theorem Inv.reader (h : Inv w ins s) {t : State n π ν} (c : Fin n) (href : t.ref = s.ref)
    (hgcs : t.gcs = s.gcs) (hdestroyed : t.destroyed = s.destroyed)
    (hother : ∀ d, d ≠ c → t.hazards d = s.hazards d ∧ t.pc d = s.pc d ∧ t.holds d = s.holds d)
    (hlocal : t.LocalOk c)
    (huses : ∀ w i r, t.Uses w c i r → s.Uses w c i r ∨ s.ref r.1 = some r.2) : Inv w ins t := by
  have hall : ∀ w d i r, t.Uses w d i r → s.Uses w d i r ∨ s.ref r.1 = some r.2 := by
    intro w d i r hu
    by_cases hd : d = c
    · subst hd
      exact huses w i r hu
    · obtain ⟨h1, h2, -⟩ := hother d hd
      exact Or.inl (uses_congr hu h1 h2)
  constructor
  · intro d
    by_cases hd : d = c
    · subst hd
      exact hlocal
    · obtain ⟨h1, h2, h3⟩ := hother d hd
      exact localOk_congr (h.locals d) h1 h2 h3
  · intro p v hp
    rw [href] at hp
    exact h.current p v hp
  · intro d i r hu
    rcases hall true d i r hu with hu | hcur
    · exact h.known d i r hu
    · exact h.current _ _ hcur
  · intro r hr
    rw [hgcs, hdestroyed] at hr
    rw [href]
    exact h.retired r hr
  · rw [hgcs, hdestroyed]
    exact h.nodup
  · intro g hg d i hpast hu
    rw [hgcs] at hg
    rcases hall w d i _ hu with hu | hcur
    · exact h.scanned g hg d i hpast hu
    · have hmem : g.pair ∈ s.gcs.map Gc.pair ++ s.destroyed :=
        List.mem_append_left _ (List.mem_map_of_mem hg)
      exact (h.retired _ hmem).2 hcur
  · intro r hr d i hu
    rw [hdestroyed] at hr
    rcases hall w d i r hu with hu | hcur
    · exact h.dead r hr d i hu
    · exact (h.retired r (List.mem_append_right _ hr)).2 hcur

theorem Inv.goto (h : Inv w ins s) {c : Fin n} (hidle : s.pc c = .idle) {pc : Pc π ν}
    (hok : PcOk (s.hazards c) (s.holds c) pc) (hbusy : pc.busy = none)
    (htransit : pc.transit = none) : Inv w ins (s.goto c pc) := by
  apply h.reader (t := s.goto c pc) c rfl rfl rfl
  · intro d hd
    exact ⟨rfl, Function.update_of_ne hd _ _, rfl⟩
  · exact localOk_goto (h.locals c) hok (Or.inl hbusy)
  · intro w i r hu
    exact Or.inl (uses_goto hu (Or.inl (by rw [hidle]; rfl)) (Or.inl htransit))

theorem Inv.step (h : Inv w ins s) (c : Fin n) : Inv w ins (s.step c) := by
  obtain ⟨href, hgcs, hdestroyed, hother⟩ := step_frame s c
  apply h.reader c href hgcs hdestroyed hother
  · exact step_localOk (h.locals c)
  · intro w i r hu
    exact step_uses (h.locals c) hu

theorem Inv.update (h : Inv w ins s) (srp : π) (v : Option ν)
    (hfresh : ∀ x, v = some x → (srp, x) ∉ ins) :
    Inv w (ins ++ inserted [(.update srp v : Act n π ν)]) (s.update srp v) := by
  have hins : ∀ r ∈ ins, r ∈ ins ++ inserted [(.update srp v : Act n π ν)] :=
    fun r hr => List.mem_append_left _ hr
  -- what was put in before is not what the update puts in
  have hkeep : ∀ r ∈ ins, s.ref r.1 ≠ some r.2 → (s.update srp v).ref r.1 ≠ some r.2 := by
    intro r hr hne
    simp only [State.update, Function.update_apply]
    split_ifs with hp
    · intro hv
      apply hfresh r.2 hv
      rw [← hp]
      exact hr
    · exact hne
  have huses : ∀ w c i r, (s.update srp v).Uses w c i r → s.Uses w c i r :=
    fun w c i r hu => uses_congr hu rfl rfl
  have hgcs : (s.update srp v).gcs.map Gc.pair =
      s.gcs.map Gc.pair ++ (s.ref srp).toList.map fun ov => (srp, ov) := by
    cases hov : s.ref srp <;> simp [State.update, hov, Gc.pair]
  constructor
  · intro c
    exact localOk_congr (h.locals c) rfl rfl rfl
  · intro p x hp
    simp only [State.update, Function.update_apply] at hp
    split_ifs at hp with heq
    · subst heq hp
      apply List.mem_append_right
      simp [inserted]
    · exact hins _ (h.current p x hp)
  · intro c i r hu
    exact hins r (h.known c i r (huses true c i r hu))
  · intro r hr
    rw [hgcs, List.append_assoc, List.mem_append, List.mem_append] at hr
    rcases hr with hr | hr | hr
    · obtain ⟨h1, h2⟩ := h.retired r (List.mem_append_left _ hr)
      exact ⟨hins r h1, hkeep r h1 h2⟩
    · obtain ⟨ov, hov, rfl⟩ := List.mem_map.mp hr
      have hmem := h.current srp ov (by simpa using hov)
      refine ⟨hins _ hmem, ?_⟩
      simp only [State.update, Function.update_self]
      exact fun hv => hfresh ov hv hmem
    · obtain ⟨h1, h2⟩ := h.retired r (List.mem_append_right _ hr)
      exact ⟨hins r h1, hkeep r h1 h2⟩
  · rw [hgcs]
    cases hov : s.ref srp with
    | none => simpa [State.update] using h.nodup
    | some ov =>
      have hnew : (srp, ov) ∉ s.gcs.map Gc.pair ++ s.destroyed :=
        fun hmem => (h.retired _ hmem).2 hov
      have hperm : (s.gcs.map Gc.pair ++ [(srp, ov)] ++ s.destroyed).Perm
          ((srp, ov) :: (s.gcs.map Gc.pair ++ s.destroyed)) := by
        rw [List.append_assoc]
        exact List.perm_middle
      exact hperm.nodup_iff.mpr (List.nodup_cons.mpr ⟨hnew, h.nodup⟩)
  · intro g hg c i hpast hu
    have hcases : g ∈ s.gcs ∨ g.pc = .scan (records n) := by
      cases hov : s.ref srp with
      | none =>
        simp only [State.update, hov] at hg
        exact Or.inl hg
      | some ov =>
        simp only [State.update, hov, List.mem_append, List.mem_singleton] at hg
        rcases hg with hg | rfl
        · exact Or.inl hg
        · exact Or.inr rfl
    rcases hcases with hg | hpc
    · exact h.scanned g hg c i hpast (huses w c i _ hu)
    · rw [hpc] at hpast
      exact hpast (mem_records _)
  · intro r hr c i hu
    exact h.dead r hr c i (huses w c i r hu)

theorem scan_pending {g : Gc n π ν} {pc : GcPc n} (hscan : s.scan g = some pc)
    (hpast : ∀ c i, (c, i) ∉ g.pc.pending → ¬ s.Uses w c i g.pair)
    (hcare : w = true → ∀ r, g.pc.record = some r → (s.pc r.1).transit ≠ some (r.2, g.pair))
    (c : Fin n) (i : Fin SRP_HAZARD_NUM) (hnew : (c, i) ∉ pc.pending) : ¬ s.Uses w c i g.pair := by
  have htransit : ∀ r, g.pc.record = some r → ¬ (w = true ∧ (s.pc r.1).transit = some (r.2, g.pair)) :=
    fun r hr hw => hcare hw.1 r hr hw.2
  unfold State.scan at hscan
  cases hpc : g.pc with
  | scan todo =>
    cases todo with
    | nil =>
      rw [hpc] at hscan
      cases hscan
    | cons r todo =>
      rw [hpc] at hscan hpast
      simp only at hscan
      split_ifs at hscan with hp
      · cases hscan
        by_cases hr : (c, i) = r
        · subst hr
          rintro (hsolid | hw)
          · rw [hsolid.1] at hp
            exact hp rfl
          · exact htransit (c, i) (by rw [hpc]; rfl) hw
        · exact hpast c i (List.not_mem_cons_of_ne_of_not_mem hr hnew)
      · cases hscan
        exact hpast c i hnew
  | value r todo =>
    rw [hpc] at hscan hpast
    simp only at hscan
    split_ifs at hscan with hv
    · cases hscan
      by_cases hr : (c, i) = r
      · subst hr
        rintro (hsolid | hw)
        · rw [hsolid.1] at hv
          exact hv rfl
        · exact htransit (c, i) (by rw [hpc]; rfl) hw
      · exact hpast c i (List.not_mem_cons_of_ne_of_not_mem hr hnew)
    · cases hscan
      exact absurd (mem_records (c, i)) hnew
  | timeout =>
    rw [hpc] at hscan
    cases hscan
    exact absurd (mem_records (c, i)) hnew

theorem scan_none {g : Gc n π ν} (hscan : s.scan g = none) : g.pc = .scan [] := by
  unfold State.scan at hscan
  split at hscan
  · assumption
  · split_ifs at hscan
  · split_ifs at hscan
  · cases hscan

theorem Inv.gc (h : Inv w ins s) (j : ℕ) (hcare : w = true → s.overlooks (.gc j) = false) :
    Inv w ins (s.gc j) := by
  unfold State.gc
  cases hj : s.gcs[j]? with
  | none => exact h
  | some g =>
    have hg : g ∈ s.gcs := List.mem_of_getElem? hj
    have hcare' : w = true → ∀ r, g.pc.record = some r → (s.pc r.1).transit ≠ some (r.2, g.pair) := by
      intro hw r hr htr
      have hno := hcare hw
      simp [State.overlooks, hj, hr, htr] at hno
    simp only
    cases hscan : s.scan g with
    | some pc =>
      have hpairs : (s.gcs.set j { g with pc := pc }).map Gc.pair = s.gcs.map Gc.pair := by
        rw [List.map_set]
        apply List.ext_getElem?
        intro k
        rw [List.getElem?_set, List.length_map]
        split_ifs with hk hlen
        · subst hk
          rw [List.getElem?_map, hj]
          rfl
        · subst hk
          rw [List.getElem?_eq_none]
          rw [List.length_map]
          omega
        · rfl
      constructor
      · exact h.locals
      · exact h.current
      · exact h.known
      · intro r hr
        simp only [hpairs] at hr
        exact h.retired r hr
      · simp only [hpairs]
        exact h.nodup
      · intro g' hg' c i hpast
        rcases List.mem_or_eq_of_mem_set hg' with hmem | rfl
        · exact h.scanned g' hmem c i hpast
        · exact scan_pending hscan (h.scanned g hg) hcare' c i hpast
      · exact h.dead
    | none =>
      have hpc := scan_none hscan
      have hlt : j < s.gcs.length := (List.getElem?_eq_some_iff.mp hj).1
      have hget : s.gcs[j] = g := (List.getElem?_eq_some_iff.mp hj).2
      have hperm : ((s.gcs.eraseIdx j).map Gc.pair ++ (s.destroyed ++ [g.pair])).Perm
          (s.gcs.map Gc.pair ++ s.destroyed) := by
        have hmap := (List.getElem_cons_eraseIdx_perm hlt).map Gc.pair
        rw [hget, List.map_cons] at hmap
        rw [← List.append_assoc]
        exact (List.perm_append_singleton _ _).trans (hmap.append_right s.destroyed)
      constructor
      · exact h.locals
      · exact h.current
      · exact h.known
      · intro r hr
        exact h.retired r (hperm.mem_iff.mp hr)
      · exact hperm.nodup_iff.mpr h.nodup
      · intro g' hg'
        exact h.scanned g' (List.mem_of_mem_eraseIdx hg')
      · intro r hr c i
        rcases List.mem_append.mp hr with hr | hr
        · exact h.dead r hr c i
        · rw [List.mem_singleton.mp hr]
          apply h.scanned g hg c i
          rw [hpc]
          exact List.not_mem_nil

theorem Inv.act (h : Inv w ins s) (a : Act n π ν)
    (hfresh : ∀ srp v, a = .update srp (some v) → (srp, v) ∉ ins)
    (hcare : w = true → s.overlooks a = false) : Inv w (ins ++ inserted [a]) (s.act a) := by
  cases a with
  | enter c srp =>
    simp only [inserted, List.filterMap_cons_none, List.filterMap_nil, List.append_nil, State.act]
    split_ifs with hidle
    · exact h.goto hidle trivial rfl rfl
    · exact h
  | leave c srp v =>
    simp only [inserted, List.filterMap_cons_none, List.filterMap_nil, List.append_nil, State.act]
    split_ifs with hidle
    · exact h.goto hidle.1 hidle.2 rfl rfl
    · exact h
  | follow c srp v next =>
    simp only [inserted, List.filterMap_cons_none, List.filterMap_nil, List.append_nil, State.act]
    split_ifs with hidle
    · exact h.goto hidle.1 hidle.2 rfl rfl
    · exact h
  | step c =>
    simp only [inserted, List.filterMap_cons_none, List.filterMap_nil, List.append_nil]
    exact h.step c
  | update srp v =>
    apply h.update srp v
    intro x hx
    exact hfresh srp x (by rw [hx])
  | gc j =>
    simp only [inserted, List.filterMap_cons_none, List.filterMap_nil, List.append_nil]
    exact h.gc j hcare

/-- No collection overlooks a reader in `srp_follow` along the run. -/
def careful (s : State n π ν) : List (Act n π ν) → Bool
  | [] => true
  | a :: acts => !s.overlooks a && careful (s.act a) acts

omit [DecidableEq π] [DecidableEq ν] in
theorem inserted_cons (a : Act n π ν) (acts : List (Act n π ν)) :
    inserted (a :: acts) = inserted [a] ++ inserted acts := by
  unfold inserted
  rw [← List.filterMap_append, List.singleton_append]

theorem Inv.run (h : Inv w ins s) (acts : List (Act n π ν)) (hdistinct : (ins ++ inserted acts).Nodup)
    (hcare : w = true → careful s acts = true) : Inv w (ins ++ inserted acts) (s.run acts) := by
  induction acts generalizing s ins with
  | nil =>
    rw [(by rfl : inserted ([] : List (Act n π ν)) = []), List.append_nil]
    exact h
  | cons a acts ih =>
    rw [inserted_cons, ← List.append_assoc] at hdistinct ⊢
    have hcare' : w = true → s.overlooks a = false ∧ careful (s.act a) acts = true := by
      intro hw
      simpa [careful] using hcare hw
    refine ih (h.act a ?_ fun hw => (hcare' hw).1) hdistinct fun hw => (hcare' hw).2
    intro srp v heq hmem
    subst heq
    have hdisjoint := List.nodup_append.mp (List.nodup_append.mp hdistinct).1
    exact hdisjoint.2.2 (srp, v) hmem (srp, v) (by simp [inserted]) rfl

/-- In every run in which no value is put in the same place twice, no CPU has a reference
to a value the destructor has run on, and the destructor runs at most once on each. -/
theorem srp_runs (acts : List (Act n π ν)) (hdistinct : (inserted acts).Nodup) :
    let s := State.init.run acts
    s.destroyed.Nodup ∧ ∀ r ∈ s.destroyed, ∀ c, (r.1, some r.2) ∉ s.holds c := by
  intro s
  have hinv : Inv false (inserted acts) s := by
    apply (inv_init false).run acts hdistinct
    intro hw
    cases hw
  refine ⟨(List.nodup_append.mp hinv.nodup).2.1, ?_⟩
  intro r hr c hhold
  obtain ⟨i, hi⟩ := (hinv.locals c).2.exists_solid hhold
  exact hinv.dead r hr c i (Or.inl hi)

def readerRun : List (Act 1 Unit ℕ) :=
  List.flatten
    [[.update () (some 7), .enter 0 ()], List.replicate 5 (.step 0),
      [.update () (some 8), .gc 0, .gc 0, .leave 0 () (some 7)], List.replicate 17 (.step 0),
      List.replicate 18 (.gc 0)]

example : inserted readerRun = [((), 7), ((), 8)] := by decide +kernel

theorem srp_runs_reader :
    (inserted readerRun).Nodup ∧ (State.init.run readerRun).destroyed = [((), 7)] ∧
      ((), some 7) ∉ (State.init.run readerRun).holds 0 := by
  have hdistinct : (inserted readerRun).Nodup := by decide
  have hdestroyed : (State.init.run readerRun).destroyed = [((), 7)] := by decide +kernel
  refine ⟨hdistinct, hdestroyed, ?_⟩
  apply (srp_runs readerRun hdistinct).2 ((), 7)
  rw [hdestroyed]
  exact List.mem_singleton.mpr rfl

/-- The node from which `srp_follow` is about to read `next->ref`. -/
def Pc.reads : Pc π ν → Option (π × ν)
  | .load _ _ src | .check _ _ _ src => src
  | _ => none

omit [DecidableEq π] [DecidableEq ν] in
theorem Pc.transit_of_reads {pc : Pc π ν} {r : π × ν} (h : pc.reads = some r) :
    ∃ i, pc.transit = some (i, r) := by
  cases pc with
  | load srp i src | check srp i v src =>
    refine ⟨i, ?_⟩
    simp only [Pc.reads] at h
    simp [Pc.transit, h]
  | _ => cases h

/-- In every run in which no collection looks at a record while `srp_follow` is at work on
it, coming from the value that is collected, `srp_follow` does not read from a node the
destructor has run on. -/
theorem srp_follow_runs (acts : List (Act n π ν)) (hdistinct : (inserted acts).Nodup)
    (hcare : careful State.init acts = true) :
    let s := State.init.run acts
    ∀ c r, (s.pc c).reads = some r →
      r ∉ s.destroyed ∧
        (((inserted acts).map Prod.snd).Nodup → ∀ q ∈ s.destroyed, q.2 ≠ r.2) := by
  intro s c r hreads
  have hinv : Inv true (inserted acts) s :=
    (inv_init true).run acts hdistinct fun _ => hcare
  obtain ⟨i, hi⟩ := Pc.transit_of_reads hreads
  have huses : s.Uses true c i r := Or.inr ⟨rfl, hi⟩
  have hdead : r ∉ s.destroyed := fun hr => hinv.dead r hr c i huses
  refine ⟨hdead, ?_⟩
  intro hvalues q hq heq
  have hqins := (hinv.retired q (List.mem_append_right _ hq)).1
  have hrins := hinv.known c i r huses
  have hsame : q = r := List.inj_on_of_nodup_map hvalues hqins hrins heq
  exact hdead (hsame ▸ hq)

def waitingRun : List (Act 1 ℕ ℕ) :=
  List.flatten
    [[.update 0 (some 7), .update 1 (some 8), .enter 0 0], List.replicate 5 (.step 0),
      [.update 0 none, .gc 0, .gc 0, .follow 0 0 7 1], List.replicate 17 (.step 0)]

theorem srp_follow_runs_waiting :
    (inserted waitingRun).Nodup ∧ careful State.init waitingRun = true ∧
      ((State.init.run waitingRun).pc 0).reads = some (0, 7) ∧
      (0, 7) ∉ (State.init.run waitingRun).destroyed := by
  have hdistinct : (inserted waitingRun).Nodup := by decide
  have hcare : careful State.init waitingRun = true := by decide +kernel
  have hreads : ((State.init.run waitingRun).pc 0).reads = some (0, 7) := by decide +kernel
  exact ⟨hdistinct, hcare, hreads, (srp_follow_runs waitingRun hdistinct hcare 0 (0, 7) hreads).1⟩

/-- The reader has given up the record of the node before the collection looks at it. -/
def destroyedRun : List (Act 1 ℕ ℕ) :=
  List.flatten
    [[.update 0 (some 7), .enter 0 0], List.replicate 5 (.step 0), [.follow 0 0 7 1],
      List.replicate 17 (.step 0), [.update 0 none], List.replicate 17 (.gc 0)]

/-- The node has been destroyed, and the next step of the reader reads from it. -/
theorem srp_follow_reads_destroyed :
    (inserted destroyedRun).Nodup ∧ (State.init.run destroyedRun).destroyed = [(0, 7)] ∧
      ((State.init.run destroyedRun).pc 0).reads = some (0, 7) := by
  decide +kernel

end OpenbsdKernel.Srp
