import OpenbsdKernel.Kern.Pool.Safety

/-!
# One call after the other

Calls on a pool none of which begins before the last one is over, or asleep in `pool_get`. The page
allocator may refuse a page at any time; `answers` is what it has said so far. `pool_put` does not
choose a new current page for an item of a full page, and so the pool can have free items and no
current page: that is where calls fail without need.
-/
namespace OpenbsdKernel.Pool

/-- A page allocator: what it says when it is asked for the `n`th time, with these pages in use. -/
structure Allocator (cfg : Config) where
  answer : ℕ → List ℕ → Option ℕ
  fresh : ∀ n pages addr, answer n pages = some addr → Fresh cfg pages addr

/-- The pool between two calls. -/
structure Between (ι : Type) where
  pool : State
  pr_requests : List ι
  held : Multiset ℕ
  answers : List (Option ℕ)

def Between.init (ι : Type) : Between ι := ⟨poolInit, [], 0, []⟩

inductive Call (ι : Type)
  | get (t : ι) (flags : Flags)
  | put (v : ℕ) (ticks : BitVec 32)
  | prime (n : BitVec 32)
  | reclaim
  deriving DecidableEq, Repr

/-- What a call comes to: `pool_get` returns an item or null, or makes a request and waits. -/
inductive Outcome
  | item (v : ℕ)
  | null
  | requested
  | done
  deriving DecidableEq, Repr

section Calls

variable (cfg : Config) (A : Allocator cfg) {ι : Type}

/-- `pool_do_get` with no one between its halves. -/
def doGet (s : Between ι) : Except Fault (Option ℕ × Between ι) :=
  match poolDoGet cfg s.pool with
  | .error e => .error e
  | .ok (some v, pp) => .ok (some v, { s with pool := pp })
  | .ok (none, pp) =>
    let ph := A.answer s.answers.length pp.pages
    let pp := match ph with
      | none => pp
      | some addr => poolPAlloc cfg pp addr
    (poolDoGetEnd cfg pp ph).map fun r => (r.1, { s with pool := r.2, answers := s.answers ++ [ph] })

/-- `pool_runqueue` with no one else at it: the requests that are left are queued again. A thread
whose request is served has its item. -/
def runqueue : List ι → Between ι → Except Fault (Between ι)
  | [], s => .ok { s with pr_requests := [] }
  | pr :: prl, s =>
    if cfg.pr_hardlimit ≤ s.pool.pr_nout then .ok { s with pr_requests := pr :: prl }
    else
      match doGet cfg A s with
      | .error e => .error e
      | .ok (none, s) => .ok { s with pr_requests := pr :: prl }
      | .ok (some v, s) => runqueue prl { s with held := v ::ₘ s.held }

/-- `pool_get` that has got nothing. -/
def request (s : Between ι) (t : ι) : Except Fault (Outcome × Between ι) :=
  (runqueue cfg A (s.pr_requests ++ [t]) s).map fun s => (.requested, s)

/-- The loop of `pool_prime` over `pool_p_alloc`. -/
def primePages : ℕ → Between ι → List ℕ → Between ι × List ℕ
  | 0, s, pl => (s, pl)
  | newpages + 1, s, pl =>
    match A.answer s.answers.length (s.pool.pages ++ pl) with
    | none => ({ s with answers := s.answers ++ [none] }, pl)
    | some addr =>
      primePages newpages
        { s with pool := poolPAlloc cfg s.pool addr, answers := s.answers ++ [some addr] } (pl ++ [addr])

/-- `pool_p_free` for each page that was taken out. -/
def freePages (pl : List ℕ) (pp : State) : Except Fault State := pl.foldlM poolPFree pp

def call (s : Between ι) : Call ι → Except Fault (Outcome × Between ι)
  | .get t flags =>
    if cfg.pr_hardlimit ≤ s.pool.pr_nout then
      if flags.nowait || flags.limitfail then .ok (.null, s) else request cfg A s t
    else
      match doGet cfg A s with
      | .error e => .error e
      | .ok (some v, s) => .ok (.item v, { s with held := v ::ₘ s.held })
      | .ok (none, s) => if flags.nowait then .ok (.null, s) else request cfg A s t
  | .put v ticks =>
    match poolPut cfg s.pool v ticks with
    | .error e => .error e
    | .ok (pp, pl) =>
      match freePages pl pp with
      | .error e => .error e
      | .ok pp => (runqueue cfg A s.pr_requests { s with pool := pp, held := s.held.erase v }).map (.done, ·)
  | .prime n =>
    let r := primePages cfg A (newPages cfg n) s []
    .ok (.done, { r.1 with pool := r.2.foldl (poolPInsert cfg) r.1.pool })
  | .reclaim =>
    let r := poolReclaim cfg s.pool.pr_emptypages s.pool []
    (freePages r.2 r.1).map fun pp => (.done, { s with pool := pp })

end Calls

def State.Depleted (pp : State) : Prop := pp.pr_emptypages = [] ∧ pp.pr_partpages = []

def State.Current (pp : State) : Prop := pp.pr_curpage = none → pp.Depleted

theorem current_poolUpdateCurpage (pp : State) : (poolUpdateCurpage pp).Current := by
  intro hnone
  simp only [poolUpdateCurpage, Option.or_eq_none_iff, List.getLast?_eq_none_iff] at hnone
  exact ⟨hnone.2, hnone.1⟩

theorem current_getItem (cfg : Config) {pp : State} {ph : ℕ} (hcur : pp.pr_curpage = some ph)
    (itemlist : List ℕ) : (getItem cfg pp ph itemlist).Current := by
  simp only [getItem]
  by_cases hfull : (pp.ph ph).ph_nmissing + 1 = cfg.pr_itemsperpage
  · rw [if_pos hfull]
    exact current_poolUpdateCurpage _
  · rw [if_neg hfull]
    intro hnone
    have hsame : pp.pr_curpage = none := by
      rw [← hnone]
      split <;> rfl
    rw [hcur] at hsame
    cases hsame

theorem current_takeItem {cfg : Config} {pp pp' : State} {v : ℕ} (htake : takeItem cfg pp = .ok (v, pp')) :
    pp'.Current := by
  rw [takeItem] at htake
  cases hcur : pp.pr_curpage with
  | none => simp [hcur] at htake
  | some ph =>
    cases hlist : (pp.ph ph).ph_itemlist with
    | nil => simp [hcur, hlist] at htake
    | cons pi itemlist =>
      simp only [hcur, hlist, Except.ok.injEq, Prod.mk.injEq] at htake
      rw [← htake.2]
      exact current_getItem cfg hcur itemlist

theorem current_poolPRemove (cfg : Config) (pp : State) (ph : ℕ) : (poolPRemove cfg pp ph).Current :=
  current_poolUpdateCurpage _

theorem current_poolPInsert (cfg : Config) (pp : State) (ph : ℕ) : (poolPInsert cfg pp ph).Current := by
  intro hnone
  simp only [poolPInsert] at hnone
  split at hnone
  · cases hnone
  · contradiction

/-- The pool can take back an item of the page `ph`: if the page is full, there is a current page. -/
def State.Takes (cfg : Config) (pp : State) (ph : ℕ) : Prop :=
  (pp.ph ph).ph_nmissing = cfg.pr_itemsperpage → pp.pr_curpage ≠ none ∨ cfg.pr_itemsperpage = 1

theorem current_putItem {cfg : Config} {pp : State} {out outside : Multiset ℕ} {g ph pi : ℕ} {ticks : BitVec 32}
    (h : Ok cfg pp out outside g) (hcur : pp.Current) (hph : ph ∈ pp.pages)
    (htakes : pp.Takes cfg ph) : (putItem cfg pp ph pi ticks).Current := by
  simp only [putItem]
  by_cases hempty : (pp.ph ph).ph_nmissing - 1 = 0
  · rw [if_pos hempty]
    exact current_poolUpdateCurpage _
  · rw [if_neg hempty]
    intro hnone
    have hold : pp.pr_curpage = none := by
      rw [← hnone]
      split <;> rfl
    obtain ⟨hE, hP⟩ := hcur hold
    have hF : ph ∈ pp.pr_fullpages := by simpa [State.pages, hE, hP] using hph
    have hnm := (h.filed ph).full hF
    obtain hcurpage | hone := htakes hnm
    · exact absurd hold hcurpage
    · omega

/-- The allocator was asked between `s` and `s'`, and gave no page. -/
def Between.Refused {ι : Type} (s s' : Between ι) : Prop :=
  ∃ new, s'.answers = s.answers ++ new ∧ none ∈ new

theorem Between.Refused.of_prefix {ι : Type} {s s' s'' : Between ι} (hpre : s.answers <+: s'.answers)
    (h : s'.Refused s'') : s.Refused s'' := by
  obtain ⟨old, hold⟩ := hpre
  obtain ⟨new, hnew, hmem⟩ := h
  refine ⟨old ++ new, ?_, List.mem_append_right old hmem⟩
  rw [hnew, ← hold, List.append_assoc]

/-- What holds between calls. -/
structure Between.Good {ι : Type} (cfg : Config) (s : Between ι) : Prop where
  ok : Ok cfg s.pool s.held 0 0
  current : s.pool.Current

section Specs

variable {cfg : Config} {A : Allocator cfg} {ι : Type} {s : Between ι}

theorem map_eq_ok {α β ε : Type} {x : Except ε α} {f : α → β} {b : β} (h : x.map f = .ok b) :
    ∃ a, x = .ok a ∧ f a = b := by
  cases x with
  | error e => cases h
  | ok a =>
    cases h
    exact ⟨a, rfl, rfl⟩

theorem poolDoGet_cases {pp pp' : State} {o : Option ℕ} (hget : poolDoGet cfg pp = .ok (o, pp')) :
    (o = none ∧ pp.pr_curpage = none ∧ pp' = { pp with pr_nout := pp.pr_nout + 1 }) ∨
      ∃ v, o = some v ∧ pp'.Current := by
  rw [poolDoGet] at hget
  cases hcur : pp.pr_curpage with
  | none =>
    simp only [hcur, Except.ok.injEq, Prod.mk.injEq] at hget
    exact .inl ⟨hget.1.symm, rfl, by rw [← hget.2, ← hcur]⟩
  | some ph =>
    simp only [hcur] at hget
    obtain ⟨r, htake, hr⟩ := map_eq_ok hget
    cases hr
    exact .inr ⟨_, rfl, current_takeItem htake⟩

theorem current_poolDoGetEnd {pp pp' : State} {ph v : ℕ}
    (hend : poolDoGetEnd cfg pp (some ph) = .ok (some v, pp')) : pp'.Current := by
  obtain ⟨r, htake, hr⟩ := map_eq_ok hend
  cases hr
  exact current_takeItem htake

theorem Between.Good.doGet (h : s.Good cfg) (hlimit : ¬cfg.pr_hardlimit ≤ s.pool.pr_nout) :
    (∃ v s', doGet cfg A s = .ok (some v, s') ∧ Between.Good cfg { s' with held := v ::ₘ s'.held } ∧
      s.answers <+: s'.answers) ∨
    ∃ s', doGet cfg A s = .ok (none, s') ∧ s'.Good cfg ∧ s'.pool.Depleted ∧ s.Refused s' := by
  obtain ⟨pp, hget, hok⟩ | ⟨v, pp, hget, -, hok⟩ := h.ok.poolDoGet hlimit
  · obtain ⟨-, hnone, hpp⟩ | ⟨v, hv, -⟩ := poolDoGet_cases hget
    · have hcur : pp.Current := by
        rw [hpp]
        exact h.current
      have hdepleted : pp.Depleted := by
        rw [hpp]
        exact h.current hnone
      simp only [Pool.doGet, hget]
      cases hans : A.answer s.answers.length pp.pages with
      | none => exact .inr ⟨_, rfl, ⟨hok.uncount, hcur⟩, hdepleted, [none], rfl, by simp⟩
      | some addr =>
        have hfresh : Fresh cfg (pp.pages + 0) addr := by
          rw [add_zero]
          exact A.fresh _ _ _ hans
        obtain ⟨v, pp', hend, -, hok'⟩ := (hok.poolPAlloc hfresh).poolDoGetEnd_some
        refine .inl ⟨v, _, by simp only [hend, Except.map]; rfl, ⟨hok', current_poolDoGetEnd hend⟩, ?_⟩
        exact List.prefix_append _ _
    · cases hv
  · obtain ⟨hv, -⟩ | ⟨_, -, hcur⟩ := poolDoGet_cases hget
    · cases hv
    · simp only [Pool.doGet, hget]
      exact .inl ⟨v, _, rfl, ⟨hok, hcur⟩, List.prefix_rfl⟩

theorem Between.Good.runqueue (prl : List ι) (h : s.Good cfg) :
    ∃ s', runqueue cfg A prl s = .ok s' ∧ s'.Good cfg ∧ s.answers <+: s'.answers ∧
      (s'.pr_requests ≠ [] → s'.pool.pr_nout < cfg.pr_hardlimit → s'.pool.Depleted ∧ s.Refused s') := by
  induction prl generalizing s with
  | nil => exact ⟨_, rfl, ⟨h.ok, h.current⟩, List.prefix_rfl, fun hne => absurd rfl hne⟩
  | cons pr prl ih =>
    rw [Pool.runqueue]
    by_cases hlimit : cfg.pr_hardlimit ≤ s.pool.pr_nout
    · rw [if_pos hlimit]
      refine ⟨_, rfl, ⟨h.ok, h.current⟩, List.prefix_rfl, fun _ hlt => ?_⟩
      exact absurd hlt (BitVec.not_lt.2 hlimit)
    · rw [if_neg hlimit]
      obtain ⟨v, s', hget, hgood, hpre⟩ | ⟨s', hget, hgood, hdepleted, hrefused⟩ :=
        h.doGet (A := A) hlimit
      · rw [hget]
        obtain ⟨s'', hrun, hgood', hpre', hleft⟩ := ih hgood
        refine ⟨s'', hrun, hgood', hpre.trans hpre', fun hne hlt => ?_⟩
        obtain ⟨hdepleted, hrefused⟩ := hleft hne hlt
        exact ⟨hdepleted, hrefused.of_prefix hpre⟩
      · rw [hget]
        obtain ⟨new, hnew, hmem⟩ := hrefused
        exact ⟨_, rfl, ⟨hgood.ok, hgood.current⟩, ⟨new, hnew.symm⟩, fun _ _ => ⟨hdepleted, new, hnew, hmem⟩⟩

theorem ok_freePages {pp : State} {out : Multiset ℕ} {pl : List ℕ} (h : Ok cfg pp out pl 0) :
    freePages pl pp = .ok pp ∧ Ok cfg pp out 0 0 := by
  induction pl with
  | nil => exact ⟨rfl, h⟩
  | cons ph pl ih =>
    rw [← Multiset.cons_coe] at h
    obtain ⟨hfree, hok⟩ := h.poolPFree
    obtain ⟨hrest, hok'⟩ := ih hok
    refine ⟨?_, hok'⟩
    rw [freePages, List.foldlM_cons, hfree]
    exact hrest

theorem current_poolPut {pp pp' : State} {out : Multiset ℕ} {v : ℕ} {ticks : BitVec 32} {pl : List ℕ}
    (h : Ok cfg pp out 0 0) (hcur : pp.Current) (hv : v ∈ out)
    (htakes : ∀ ph, prFindPagehead cfg pp v = .ok ph → pp.Takes cfg ph)
    (hput : poolPut cfg pp v ticks = .ok (pp', pl)) : pp'.Current := by
  obtain ⟨ph, hph, hitem, hfree⟩ := h.out_items v hv
  have hfind := h.prFindPagehead hph hitem
  obtain ⟨page, hpage, hres⟩ := map_eq_ok hput
  rw [hfind] at hpage
  cases hpage
  simp only at hres
  split at hres
  · cases hres
    exact current_putItem h hcur hph (htakes ph hfind)
  · cases hres
    exact current_poolPRemove _ _ _

theorem current_poolReclaim {pp : State} (todo pl : List ℕ) (h : pp.Current) :
    (poolReclaim cfg todo pp pl).1.Current := by
  induction todo generalizing pp pl with
  | nil => exact h
  | cons ph todo ih =>
    rw [poolReclaim]
    split
    · exact h
    · split
      · exact h
      · exact ih _ (current_poolPRemove _ _ _)

theorem current_foldl_poolPInsert {pp : State} (pl : List ℕ) (h : pp.Current) :
    (pl.foldl (poolPInsert cfg) pp).Current := by
  induction pl generalizing pp with
  | nil => exact h
  | cons ph pl ih => exact ih (current_poolPInsert _ _ _)

theorem ok_primePages (n : ℕ) (pl : List ℕ) (h : Ok cfg s.pool s.held pl 0) (hcur : s.pool.Current) :
    Ok cfg (primePages cfg A n s pl).1.pool (primePages cfg A n s pl).1.held (primePages cfg A n s pl).2 0 ∧
      (primePages cfg A n s pl).1.pool.Current := by
  induction n generalizing s pl with
  | zero => exact ⟨h, hcur⟩
  | succ n ih =>
    rw [primePages]
    cases hans : A.answer s.answers.length (s.pool.pages ++ pl) with
    | none => exact ⟨h, hcur⟩
    | some addr =>
      refine ih (pl ++ [addr]) ?_ hcur
      have hfresh : Fresh cfg (s.pool.pages + pl) addr := by
        rw [Multiset.coe_add]
        exact A.fresh _ _ _ hans
      have hpl : ((pl ++ [addr] : List ℕ) : Multiset ℕ) = addr ::ₘ pl := by
        rw [Multiset.cons_coe]
        exact Multiset.coe_eq_coe.2 (List.perm_append_singleton addr pl)
      rw [hpl]
      exact h.poolPAlloc hfresh

/-- Callers put back what they hold. -/
def Call.Allowed (s : Between ι) : Call ι → Prop
  | .put v _ => v ∈ s.held
  | _ => True

/-- An item of a full page comes back only while there is a current page, unless it is the only one
of its page. -/
def Call.Fair (cfg : Config) (s : Between ι) : Call ι → Prop
  | .put v _ => ∀ ph, prFindPagehead cfg s.pool v = .ok ph → s.pool.Takes cfg ph
  | _ => True

/-- A call below the hard limit fails, or leaves requests, only if all pages are full and the
allocator gives none. -/
def Call.Justified (cfg : Config) (s s' : Between ι) (r : Outcome) : Call ι → Prop
  | .get _ _ => s'.pool.pr_nout < cfg.pr_hardlimit → r = .null → s'.pool.Depleted ∧ s.Refused s'
  | .put _ _ => s'.pool.pr_nout < cfg.pr_hardlimit → s'.pr_requests ≠ [] → s'.pool.Depleted ∧ s.Refused s'
  | _ => True

theorem Between.Good.request (h : s.Good cfg) (t : ι) :
    ∃ s', request cfg A s t = .ok (.requested, s') ∧ s'.Good cfg := by
  obtain ⟨s', hrun, hgood, -⟩ := h.runqueue (A := A) (s.pr_requests ++ [t])
  exact ⟨s', by rw [Pool.request, hrun]; rfl, hgood⟩

theorem Between.Good.call (h : s.Good cfg) {c : Call ι} (hallowed : c.Allowed s) (hfair : c.Fair cfg s) :
    ∃ r s', call cfg A s c = .ok (r, s') ∧ s'.Good cfg ∧ c.Justified cfg s s' r := by
  cases c with
  | get t flags =>
    rw [Pool.call]
    by_cases hlimit : cfg.pr_hardlimit ≤ s.pool.pr_nout
    · rw [if_pos hlimit]
      split
      · exact ⟨_, _, rfl, h, fun hlt _ => absurd hlt (BitVec.not_lt.2 hlimit)⟩
      · obtain ⟨s', hreq, hgood⟩ := h.request (A := A) t
        exact ⟨_, s', hreq, hgood, fun _ hnull => by cases hnull⟩
    · rw [if_neg hlimit]
      obtain ⟨v, s', hget, hgood, hpre⟩ | ⟨s', hget, hgood, hdepleted, hrefused⟩ := h.doGet (A := A) hlimit
      · rw [hget]
        exact ⟨_, _, rfl, hgood, fun _ hnull => by cases hnull⟩
      · rw [hget]
        simp only
        split
        · exact ⟨_, _, rfl, hgood, fun _ _ => ⟨hdepleted, hrefused⟩⟩
        · obtain ⟨s'', hreq, hgood'⟩ := hgood.request (A := A) t
          exact ⟨_, s'', hreq, hgood', fun _ hnull => by cases hnull⟩
  | put v ticks =>
    obtain ⟨pp, pl, hput, hok⟩ := @Ok.poolPut _ _ _ _ _ v ticks h.ok hallowed
    have hcur := current_poolPut h.ok h.current hallowed hfair hput
    rw [add_zero] at hok
    obtain ⟨hfree, hok'⟩ := ok_freePages hok
    have hgood : Between.Good cfg { s with pool := pp, held := s.held.erase v } := ⟨hok', hcur⟩
    obtain ⟨s', hrun, hgood', -, hleft⟩ := hgood.runqueue (A := A) s.pr_requests
    rw [Pool.call, hput]
    simp only [hfree, hrun, Except.map]
    exact ⟨_, _, rfl, hgood', fun hlt hne => hleft hne hlt⟩
  | prime n =>
    obtain ⟨hok, hcur⟩ := ok_primePages (A := A) (newPages cfg n) [] h.ok h.current
    rw [← add_zero ((_ : List ℕ) : Multiset ℕ)] at hok
    exact ⟨_, _, rfl, ⟨hok.foldl_poolPInsert, current_foldl_poolPInsert _ hcur⟩, trivial⟩
  | reclaim =>
    have hnodup : s.pool.pr_emptypages.Nodup :=
      (List.nodup_append'.1 (List.nodup_append'.1 h.ok.pages_nodup).1).1
    have hnil : Ok cfg s.pool s.held (([] : List ℕ) + 0) 0 := h.ok
    have hok := hnil.poolReclaim (fun _ hp => hp) hnodup
    rw [add_zero] at hok
    obtain ⟨hfree, hok'⟩ := ok_freePages hok
    rw [Pool.call]
    simp only [hfree, Except.map]
    exact ⟨_, _, rfl, ⟨hok', current_poolReclaim _ _ h.current⟩, trivial⟩

end Specs

/-- The states that calls come to. -/
inductive Runs (cfg : Config) (A : Allocator cfg) {ι : Type} : Between ι → Prop
  | init : Runs cfg A (Between.init ι)
  | call {s s' : Between ι} {c : Call ι} {r : Outcome} : Runs cfg A s → c.Allowed s → c.Fair cfg s →
      Pool.call cfg A s c = .ok (r, s') → Runs cfg A s'

theorem Runs.good {cfg : Config} {A : Allocator cfg} {ι : Type} {s : Between ι} (h : Runs cfg A s) :
    s.Good cfg := by
  induction h with
  | init => exact ⟨ok_poolInit cfg, fun _ => ⟨rfl, rfl⟩⟩
  | call _ hallowed hfair hcall ih =>
    obtain ⟨r, s', hcall', hgood, -⟩ := ih.call hallowed hfair
    rw [hcall] at hcall'
    cases hcall'
    exact hgood

/-- While items of full pages come back only when there is a current page, there is one whenever
some page has a free item, and calls fail or wait only if all pages are full and the allocator
gives none. -/
theorem curpage_run {cfg : Config} {A : Allocator cfg} {ι : Type} {s : Between ι} (h : Runs cfg A s) :
    (∀ ph ∈ s.pool.pages, (s.pool.ph ph).ph_itemlist ≠ [] → s.pool.pr_curpage ≠ none) ∧
      ∀ c : Call ι, c.Allowed s → c.Fair cfg s →
        ∃ r s', call cfg A s c = .ok (r, s') ∧ c.Justified cfg s s' r := by
  have hgood := h.good
  refine ⟨fun ph hph hfree hnone => hfree ?_, fun c hallowed hfair => ?_⟩
  · obtain ⟨hE, hP⟩ := hgood.current hnone
    have hF : ph ∈ s.pool.pr_fullpages := by simpa [State.pages, hE, hP] using hph
    have hnm := (hgood.ok.filed ph).full hF
    have hcount := (hgood.ok.page_header hph).count
    exact List.eq_nil_of_length_eq_zero (by omega)
  · obtain ⟨r, s', hcall, -, hjust⟩ := hgood.call (A := A) hallowed hfair
    exact ⟨r, s', hcall, hjust⟩

/-- An allocator that has one page. -/
def onePage : Allocator twoItems where
  answer _ pages := if pages = [] then some 8192 else none
  fresh := by
    intro n pages addr h
    split at h
    · next hnil =>
      cases h
      subst hnil
      exact ⟨by simp, by simp, fun hin => absurd rfl hin⟩
    · cases h

/-- An item is put back while its page has another free one, and then both are taken. -/
theorem curpage_run_again : ∃ s : Between Unit, s.pool.pr_nout = 2 ∧ s.pool.pr_fullpages = [8192] ∧
    (∀ ph ∈ s.pool.pages, (s.pool.ph ph).ph_itemlist ≠ [] → s.pool.pr_curpage ≠ none) ∧
      ∀ c : Call Unit, c.Allowed s → c.Fair twoItems s →
        ∃ r s', call twoItems onePage s c = .ok (r, s') ∧ c.Justified twoItems s s' r := by
  have h1 : Runs twoItems onePage _ :=
    .call (ι := Unit) (c := .get () ⟨false, true, false⟩) .init trivial trivial rfl
  have h2 : Runs twoItems onePage _ := .call (c := .put 8192 0) h1 (List.mem_singleton_self _)
    (fun _ _ _ => .inl (Option.some_ne_none 8192)) rfl
  have h3 : Runs twoItems onePage _ := .call (c := .get () ⟨false, true, false⟩) h2 trivial trivial rfl
  have h4 : Runs twoItems onePage _ := .call (c := .get () ⟨false, true, false⟩) h3 trivial trivial rfl
  exact ⟨_, rfl, rfl, curpage_run h4⟩

/-- Two items are taken and one is put back: it is free, but there is no current page, and the next
`pool_get` fails. -/
theorem free_item_not_found : ∃ s₁ s₂ s₃ s₄ : Between Unit,
    call twoItems onePage (Between.init Unit) (.get () ⟨false, true, false⟩) = .ok (.item 8192, s₁) ∧
    call twoItems onePage s₁ (.get () ⟨false, true, false⟩) = .ok (.item 10240, s₂) ∧
    call twoItems onePage s₂ (.put 8192 0) = .ok (.done, s₃) ∧
    (s₃.pool.pages = [8192] ∧ (s₃.pool.ph 8192).ph_itemlist = [8192] ∧ s₃.pool.pr_curpage = none) ∧
    call twoItems onePage s₃ (.get () ⟨false, true, false⟩) = .ok (.null, s₄) :=
  ⟨_, _, _, _, rfl, rfl, rfl, ⟨rfl, rfl, rfl⟩, rfl⟩

end OpenbsdKernel.Pool
