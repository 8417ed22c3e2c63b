import OpenbsdKernel.Kern.Pool.Threads

/-!
# Whatever the threads do

The accounts of the threads and the pool agree after every step: what a step takes from the pool
is with the thread that made it. A request is served once, since its thread is queued only while
it has nothing.
-/
namespace OpenbsdKernel.Pool

open Finset

section Doing

variable {cfg : Config} {pp : State} {out outside : Multiset ℕ} {g : ℕ} {ι : Type}

theorem Ok.of_eq {out' outside' : Multiset ℕ} {g' : ℕ} (h : Ok cfg pp out outside g) (hout : out' = out)
    (houtside : outside' = outside) (hg : g' = g) : Ok cfg pp out' outside' g' := by
  rw [hout, houtside, hg]
  exact h

theorem Ok.poolDoGet (h : Ok cfg pp out outside g) (hlimit : ¬cfg.pr_hardlimit ≤ pp.pr_nout) :
    (∃ pp', poolDoGet cfg pp = .ok (none, pp') ∧ Ok cfg pp' out outside (g + 1)) ∨
      ∃ v pp', poolDoGet cfg pp = .ok (some v, pp') ∧ v ∉ out ∧ Ok cfg pp' (v ::ₘ out) outside g := by
  have hcount := h.count (BitVec.not_le.1 hlimit)
  cases hcur : pp.pr_curpage with
  | none => exact .inl ⟨_, by simp only [Pool.poolDoGet, hcur], hcount⟩
  | some ph =>
    obtain ⟨v, pp', htake, hv, hok⟩ := hcount.takeItem (by simp [hcur])
    simp only [hcur] at htake
    exact .inr ⟨v, pp', by simp only [Pool.poolDoGet, hcur, htake, Except.map], hv, hok⟩

theorem Ok.poolDoGetEnd_some {ph : ℕ} (h : Ok cfg pp out (ph ::ₘ outside) (g + 1)) :
    ∃ v pp', poolDoGetEnd cfg pp (some ph) = .ok (some v, pp') ∧ v ∉ out ∧ Ok cfg pp' (v ::ₘ out) outside g := by
  obtain ⟨hins, hcur⟩ := h.poolPInsert
  obtain ⟨v, pp', htake, hv, hok⟩ := hins.takeItem hcur
  exact ⟨v, pp', by simp only [poolDoGetEnd, htake, Except.map], hv, hok⟩

theorem Ok.foldl_poolPInsert {pl : List ℕ} (h : Ok cfg pp out (pl + outside) g) :
    Ok cfg (pl.foldl (Pool.poolPInsert cfg) pp) out outside g := by
  induction pl generalizing pp with
  | nil => simpa using h
  | cons ph pl ih =>
    rw [← Multiset.cons_coe, Multiset.cons_add] at h
    exact ih h.poolPInsert.1

/-- The loop over the requests keeps count of the items it has for them. -/
theorem Ok.runRequests (a : After) (served : List (ι × ℕ)) (prl : List ι)
    (h : Ok cfg pp (out + served.map Prod.snd) outside g) :
    ∃ pp' pc, runRequests cfg a pp served prl = .ok (pp', pc) ∧
      Ok cfg pp' (out + pc.items) outside (pc.getting + g) ∧ pc.pages = 0 ∧
      pc.prl = served.map Prod.fst + prl ∧ pc.waits = decide (a = .sleep) ∧
      (served.map Prod.snd : Multiset ℕ) ≤ pc.items := by
  induction prl generalizing pp served with
  | nil =>
    refine ⟨pp, .serve served [] a, rfl, by simpa [Pc.items, Pc.getting] using h, rfl, rfl, ?_, le_rfl⟩
    cases a <;> rfl
  | cons pr prl ih =>
    rw [Pool.runRequests]
    by_cases hlimit : cfg.pr_hardlimit ≤ pp.pr_nout
    · rw [if_pos hlimit]
      refine ⟨pp, .serve served (pr :: prl) a, rfl, by simpa [Pc.items, Pc.getting] using h, rfl, rfl, ?_, le_rfl⟩
      cases a <;> rfl
    · rw [if_neg hlimit]
      obtain ⟨pp', hget, hok⟩ | ⟨v, pp', hget, -, hok⟩ := h.poolDoGet hlimit
      · rw [hget]
        refine ⟨pp', .alloc (.queue served pr prl a), rfl, ?_, rfl, rfl, ?_, le_rfl⟩
        · rw [Nat.add_comm] at hok
          exact hok
        · cases a <;> rfl
      · rw [hget]
        simp only
        have hserved : out + ((served ++ [(pr, v)]).map Prod.snd : List ℕ) = v ::ₘ (out + served.map Prod.snd) := by
          rw [List.map_append, ← Multiset.coe_add, ← Multiset.singleton_add v]
          change out + (_ + {v}) = _
          abel
        rw [← hserved] at hok
        obtain ⟨pp'', pc, hrun, hok', hpages, hprl, hwaits, hle⟩ := ih _ hok
        refine ⟨pp'', pc, hrun, hok', hpages, ?_, hwaits, le_trans ?_ hle⟩
        · rw [hprl, List.map_append, ← Multiset.coe_add, add_assoc]
          rfl
        · rw [List.map_append, ← Multiset.coe_add]
          exact Multiset.le_add_right _ _

end Doing

section Threads

variable {ι : Type} [Fintype ι] [DecidableEq ι] {M : Type*} [AddCommMonoid M]

theorem sum_eq_add_others (f : ι → M) (t : ι) : ∑ u, f u = f t + ∑ u ∈ univ.erase t, f u :=
  (add_sum_erase univ f (mem_univ t)).symm

theorem sum_update {β : Type*} (f : β → M) (pc : ι → β) (t : ι) (x : β) :
    ∑ u, f (Function.update pc t x u) = f x + ∑ u ∈ univ.erase t, f (pc u) := by
  rw [sum_eq_add_others _ t, Function.update_self]
  congr 1
  exact sum_congr rfl fun u hu => by rw [Function.update_of_ne (ne_of_mem_erase hu)]

/-- What is handed out and not with the thread `t` or its caller. -/
def System.othersOut (s : System ι) (t : ι) : Multiset ℕ :=
  ∑ u ∈ univ.erase t, (s.pc u).items + ∑ u, (s.mem u).elim 0 ({·})

def System.othersPages (s : System ι) (t : ι) : Multiset ℕ := ∑ u ∈ univ.erase t, (s.pc u).pages

def System.othersGetting (s : System ι) (t : ι) : ℕ := ∑ u ∈ univ.erase t, (s.pc u).getting

theorem System.out_eq (s : System ι) (t : ι) : s.out = s.held + (s.pc t).items + s.othersOut t := by
  rw [System.out, System.othersOut, sum_eq_add_others (fun u => (s.pc u).items) t]
  abel

theorem System.outside_eq (s : System ι) (t : ι) : s.outside = (s.pc t).pages + s.othersPages t :=
  sum_eq_add_others (fun u => (s.pc u).pages) t

theorem System.getting_eq (s : System ι) (t : ι) : s.getting = (s.pc t).getting + s.othersGetting t :=
  sum_eq_add_others (fun u => (s.pc u).getting) t

/-- The accounts of the pool and the threads agree, and a thread is queued once while it waits and
has nothing. -/
structure Inv (cfg : Config) (s : System ι) : Prop where
  ok : Ok cfg s.pool s.out s.outside s.getting
  queued : ∀ t, s.queued.count t = if (s.pc t).waits ∧ s.mem t = none then 1 else 0
  mem : ∀ t, (s.pc t).waits = false → s.mem t = none

/-- A step from `s` to `s'` that keeps the accounts, and keeps every item handed out that was. -/
structure Keeps (cfg : Config) (s s' : System ι) : Prop where
  inv : Inv cfg s'
  out : s.out ≤ s'.out

theorem inv_init (cfg : Config) : Inv cfg (System.init ι) where
  ok := by
    simpa [System.init, System.out, System.outside, System.getting, Pc.items, Pc.pages, Pc.getting] using
      ok_poolInit cfg
  queued := by simp [System.init, System.queued, Pc.prl, Pc.waits]
  mem := fun _ _ => rfl

variable {cfg : Config} {s : System ι}

theorem Inv.ok_split (h : Inv cfg s) (t : ι) :
    Ok cfg s.pool (s.held + (s.pc t).items + s.othersOut t) ((s.pc t).pages + s.othersPages t)
      ((s.pc t).getting + s.othersGetting t) := by
  rw [← s.out_eq t, ← s.outside_eq t, ← s.getting_eq t]
  exact h.ok

theorem ok_update (t : ι) {pp : State} {held : Multiset ℕ} {requests : List ι} {requesting : BitVec 32}
    {mem : ι → Option ℕ} {x : Pc ι}
    (hok : Ok cfg pp (held + x.items + ∑ u ∈ univ.erase t, (s.pc u).items + ∑ u, (mem u).elim 0 ({·}))
      (x.pages + s.othersPages t) (x.getting + s.othersGetting t)) :
    Ok cfg pp (System.out ⟨pp, requests, requesting, mem, held, Function.update s.pc t x⟩)
      (System.outside ⟨pp, requests, requesting, mem, held, Function.update s.pc t x⟩)
      (System.getting ⟨pp, requests, requesting, mem, held, Function.update s.pc t x⟩) := by
  refine hok.of_eq ?_ (sum_update Pc.pages s.pc t x) (sum_update Pc.getting s.pc t x)
  rw [System.out]
  simp only [sum_update Pc.items]
  abel

theorem queued_update (t : ι) {pp : State} {held : Multiset ℕ} {requests : List ι} {requesting : BitVec 32}
    {mem : ι → Option ℕ} {x : Pc ι} :
    System.queued ⟨pp, requests, requesting, mem, held, Function.update s.pc t x⟩ =
      requests + x.prl + ∑ u ∈ univ.erase t, (s.pc u).prl := by
  rw [System.queued]
  simp only [sum_update Pc.prl]
  rw [add_assoc]

theorem System.queued_eq (s : System ι) (t : ι) :
    s.queued = s.pr_requests + (s.pc t).prl + ∑ u ∈ univ.erase t, (s.pc u).prl := by
  rw [System.queued, sum_eq_add_others (fun u => (s.pc u).prl) t, add_assoc]

theorem out_update (t : ι) {pp : State} {held : Multiset ℕ} {requests : List ι} {requesting : BitVec 32}
    {x : Pc ι} :
    System.out ⟨pp, requests, requesting, s.mem, held, Function.update s.pc t x⟩ =
      held + x.items + s.othersOut t := by
  rw [System.out, System.othersOut]
  simp only [sum_update Pc.items]
  abel

/-- A thread goes to `x`, with its requests and what `mem` has for it as they are. -/
theorem Inv.goto (h : Inv cfg s) (t : ι) {pp : State} {held : Multiset ℕ} {requests : List ι}
    {requesting : BitVec 32} {x : Pc ι}
    (hok : Ok cfg pp (held + x.items + s.othersOut t) (x.pages + s.othersPages t)
      (x.getting + s.othersGetting t))
    (hqueue : (requests : Multiset ι) + x.prl = s.pr_requests + (s.pc t).prl)
    (hwaits : x.waits = (s.pc t).waits) :
    Inv cfg ⟨pp, requests, requesting, s.mem, held, Function.update s.pc t x⟩ := by
  have hwait : ∀ u, (Function.update s.pc t x u).waits = (s.pc u).waits := by
    intro u
    by_cases hu : u = t
    · rw [hu, Function.update_self, hwaits]
    · rw [Function.update_of_ne hu]
  refine ⟨ok_update t (hok.of_eq (add_assoc _ _ _) rfl rfl), ?_, ?_⟩
  · intro u
    rw [queued_update, hqueue, ← s.queued_eq t, h.queued u]
    simp only [hwait u]
  · intro u hu
    simp only [hwait u] at hu
    exact h.mem u hu

theorem Inv.move (h : Inv cfg s) (t : ι) {pp : State} {held : Multiset ℕ} {requests : List ι}
    {requesting : BitVec 32} {x : Pc ι}
    (hok : Ok cfg pp (held + x.items + s.othersOut t) (x.pages + s.othersPages t)
      (x.getting + s.othersGetting t))
    (hle : s.held + (s.pc t).items ≤ held + x.items)
    (hqueue : (requests : Multiset ι) + x.prl = s.pr_requests + (s.pc t).prl)
    (hwaits : x.waits = (s.pc t).waits) :
    Keeps cfg s ⟨pp, requests, requesting, s.mem, held, Function.update s.pc t x⟩ := by
  refine ⟨h.goto t hok hqueue hwaits, ?_⟩
  rw [out_update, s.out_eq t]
  exact add_le_add_left hle _

/-- The pool does not change, nor does what the thread has. -/
theorem Inv.move_same (h : Inv cfg s) (t : ι) {requests : List ι} {requesting : BitVec 32} {x : Pc ι}
    (hitems : x.items = (s.pc t).items) (hpages : x.pages = (s.pc t).pages)
    (hgetting : x.getting = (s.pc t).getting)
    (hqueue : (requests : Multiset ι) + x.prl = s.pr_requests + (s.pc t).prl)
    (hwaits : x.waits = (s.pc t).waits) :
    Keeps cfg s { s with
      pr_requests := requests
      pr_requesting := requesting
      pc := Function.update s.pc t x } := by
  refine h.move t ?_ (by rw [hitems]) hqueue hwaits
  rw [hitems, hpages, hgetting]
  exact h.ok_split t

theorem Inv.get (h : Inv cfg s) {t : ι} (hpc : s.pc t = .idle) (flags : Flags) :
    ∃ s', Pool.step cfg s t (.get flags) = .ok s' ∧ Keeps cfg s s' := by
  simp only [Pool.step, hpc]
  by_cases hlimit : cfg.pr_hardlimit ≤ s.pool.pr_nout
  · rw [if_pos hlimit]
    refine ⟨_, rfl, h.move_same t ?_ ?_ ?_ ?_ ?_⟩ <;> rw [hpc] <;> split <;> rfl
  · rw [if_neg hlimit]
    have hok := h.ok_split t
    rw [hpc] at hok
    obtain ⟨pp', hget, hok'⟩ | ⟨v, pp', hget, -, hok'⟩ := hok.poolDoGet hlimit
    · rw [hget]
      refine ⟨_, rfl, h.move t ?_ (by rw [hpc]; rfl) (by rw [hpc]; rfl) (by rw [hpc]; rfl)⟩
      exact hok'.of_eq rfl rfl (by simp only [Pc.getting]; omega)
    · rw [hget]
      refine ⟨_, rfl, h.move t ?_ ?_ (by rw [hpc]) (by rw [hpc])⟩
      swap
      · rw [hpc]
        exact add_le_add_left (Multiset.le_cons_self _ v) _
      exact hok'.of_eq (by simp only [Pc.items, Multiset.cons_add]) rfl rfl

theorem Inv.put (h : Inv cfg s) {t : ι} (hpc : s.pc t = .idle) {v : ℕ} (ticks : BitVec 32) (hv : v ∈ s.held) :
    ∃ s', Pool.step cfg s t (.put v ticks) = .ok s' ∧ Inv cfg s' ∧ s.out = v ::ₘ s'.out := by
  have hok := h.ok_split t
  rw [hpc, add_assoc] at hok
  obtain ⟨pp', pl, hput, hok'⟩ := @Ok.poolPut _ _ _ _ _ v ticks hok (Multiset.mem_add.2 (.inl hv))
  rw [Multiset.erase_add_left_pos _ hv] at hok'
  simp only [Pool.step, hpc, hput, Except.map]
  refine ⟨_, rfl, h.goto t ?_ (by rw [hpc]; rfl) (by rw [hpc]; rfl), ?_⟩
  · exact hok'.of_eq (add_assoc _ _ _) (by simp only [Pc.pages, zero_add]) rfl
  · rw [out_update, s.out_eq t, hpc, ← Multiset.cons_add, ← Multiset.cons_add, Multiset.cons_erase hv]
    rfl

theorem Inv.reclaim (h : Inv cfg s) {t : ι} (hpc : s.pc t = .idle) :
    ∃ s', Pool.step cfg s t .reclaim = .ok s' ∧ Keeps cfg s s' := by
  have hok := h.ok_split t
  rw [hpc] at hok
  have hnodup : s.pool.pr_emptypages.Nodup :=
    (List.nodup_append'.1 (List.nodup_append'.1 h.ok.pages_nodup).1).1
  have hnil : Ok cfg s.pool (s.held + Pc.idle.items + s.othersOut t)
      (([] : List ℕ) + s.othersPages t) (Pc.idle.getting + s.othersGetting t) := hok
  simp only [Pool.step, hpc]
  refine ⟨_, rfl, h.move t ?_ (by rw [hpc]; rfl) (by rw [hpc]; rfl) (by rw [hpc]; rfl)⟩
  exact hnil.poolReclaim (fun _ hp => hp) hnodup

/-- What is true of a thread that has called nothing and what `pool_runqueue` relies on: it has only
the requests `prl`. -/
structure Pc.Clear (x : Pc ι) (prl : List ι) (a : After) : Prop where
  items : x.items = 0
  pages : x.pages = 0
  getting : x.getting = 0
  prl : x.prl = prl
  waits : x.waits = decide (a = .sleep)

omit [Fintype ι] [DecidableEq ι] in
theorem After.clear_pc (a : After) : (a.pc : Pc ι).Clear [] a := by
  cases a <;> exact ⟨rfl, rfl, rfl, rfl, rfl⟩

theorem Inv.takeRequests (h : Inv cfg s) {t : ι} {prl : List ι} {a : After} (hpc : (s.pc t).Clear prl a) :
    Keeps cfg s (takeRequests s t prl a) := by
  have hclear := After.clear_pc (ι := ι) a
  rw [Pool.takeRequests]
  split
  · next hnil =>
    obtain ⟨rfl, hreq⟩ := List.append_eq_nil_iff.1 hnil
    refine h.move_same t ?_ ?_ ?_ ?_ ?_
    · rw [hclear.items, hpc.items]
    · rw [hclear.pages, hpc.pages]
    · rw [hclear.getting, hpc.getting]
    · rw [hclear.prl, hpc.prl, hreq]
    · rw [hclear.waits, hpc.waits]
  · refine h.move_same t ?_ ?_ ?_ ?_ ?_
    · rw [hpc.items]
      rfl
    · rw [hpc.pages]
      rfl
    · rw [hpc.getting]
      rfl
    · rw [hpc.prl, add_comm (s.pr_requests : Multiset ι), Multiset.coe_add]
      exact zero_add _
    · rw [hpc.waits]
      cases a <;> rfl

theorem Inv.poolRunqueue (h : Inv cfg s) {t : ι} {a : After} (hpc : (s.pc t).Clear [] a) :
    Keeps cfg s (poolRunqueue s t a) := by
  have hclear := After.clear_pc (ι := ι) a
  rw [Pool.poolRunqueue]
  split
  · refine h.move_same t ?_ ?_ ?_ ?_ ?_
    · rw [hclear.items, hpc.items]
    · rw [hclear.pages, hpc.pages]
    · rw [hclear.getting, hpc.getting]
    · rw [hclear.prl, hpc.prl]
    · rw [hclear.waits, hpc.waits]
  · exact h.takeRequests hpc

theorem Inv.endRunqueue (h : Inv cfg s) {t : ι} {prl : List ι} {a : After} (hpc : (s.pc t).Clear prl a) :
    Keeps cfg s (endRunqueue s t prl a) := by
  have hclear := After.clear_pc (ι := ι) a
  rw [Pool.endRunqueue]
  split
  · exact h.takeRequests hpc
  · refine h.move_same t ?_ ?_ ?_ ?_ ?_
    · rw [hclear.items, hpc.items]
    · rw [hclear.pages, hpc.pages]
    · rw [hclear.getting, hpc.getting]
    · rw [hclear.prl, hpc.prl, ← Multiset.coe_add]
      exact add_zero _
    · rw [hclear.waits, hpc.waits]

/-- The thread that has got nothing queues its request. -/
theorem Inv.request (h : Inv cfg s) {t : ι} (hpc : s.pc t = .request) :
    Keeps cfg s { s with pr_requests := s.pr_requests ++ [t], pc := Function.update s.pc t .sleep } := by
  have hmem := h.mem t (by rw [hpc]; rfl)
  have hsplit := h.ok_split t
  rw [hpc] at hsplit
  refine ⟨⟨ok_update t (hsplit.of_eq (add_assoc _ _ _) rfl rfl), ?_, ?_⟩, ?_⟩
  · intro u
    have hcount := h.queued u
    rw [s.queued_eq t, hpc] at hcount
    rw [queued_update, ← Multiset.coe_add, Multiset.coe_singleton, add_right_comm _ ({t} : Multiset ι),
      add_right_comm _ ({t} : Multiset ι), Multiset.count_add]
    by_cases hut : u = t
    · subst hut
      rw [hpc] at hcount
      simp only [Function.update_self, hmem]
      rw [Multiset.count_singleton_self]
      rw [if_neg fun hw => Bool.false_ne_true hw.1] at hcount
      have hsame : (Pc.sleep : Pc ι).prl = Pc.request.prl := rfl
      rw [hsame, hcount]
      rfl
    · simp only [Function.update_of_ne hut, Multiset.count_singleton, if_neg hut]
      exact hcount
  · intro u hu
    by_cases hut : u = t
    · rw [hut]
      exact hmem
    · simp only [Function.update_of_ne hut] at hu
      exact h.mem u hu
  · rw [out_update, s.out_eq t, hpc]
    rfl

theorem Inv.alloc (h : Inv cfg s) {t : ι} {c : Caller ι} (hpc : s.pc t = .alloc c) {addr : Option ℕ}
    (hfresh : (Act.allocated addr).Allowed cfg s) :
    ∃ s', Pool.step cfg s t (.allocated addr) = .ok s' ∧ Keeps cfg s s' := by
  simp only [Pool.step, hpc]
  cases addr with
  | none =>
    refine ⟨_, rfl, h.move_same t ?_ ?_ ?_ ?_ ?_⟩ <;> rw [hpc] <;> rfl
  | some addr =>
    have hok := h.ok.poolPAlloc hfresh
    rw [s.out_eq t, s.outside_eq t, s.getting_eq t, hpc] at hok
    refine ⟨_, rfl, h.move t (hok.of_eq rfl ?_ rfl) (by rw [hpc]; rfl) (by rw [hpc]; rfl) (by rw [hpc]; rfl)⟩
    simp only [Pc.pages, zero_add, Multiset.singleton_add]

/-- `pool_do_get` is over, for `pool_get` or for a request. -/
theorem Inv.insert (h : Inv cfg s) {t : ι} {c : Caller ι} {ph : Option ℕ} (hpc : s.pc t = .insert c ph) :
    ∃ s', Pool.step cfg s t .go = .ok s' ∧ Keeps cfg s s' := by
  have hok := h.ok_split t
  rw [hpc] at hok
  simp only [Pool.step, hpc]
  cases ph with
  | none =>
    have hcount : Ok cfg s.pool (s.held + c.items + s.othersOut t) (0 + s.othersPages t)
        (s.othersGetting t + 1) := hok.of_eq rfl rfl (by simp only [Pc.getting]; omega)
    have hend := hcount.uncount
    cases c with
    | get flags =>
      simp only [poolDoGetEnd, resume]
      refine ⟨_, rfl, h.move t ?_ ?_ ?_ ?_⟩
      · refine hend.of_eq ?_ ?_ ?_
        · split <;> rfl
        · split <;> rfl
        · split <;> simp only [Pc.getting, zero_add]
      · rw [hpc]
        split <;> rfl
      · rw [hpc]
        split <;> rfl
      · rw [hpc]
        split <;> rfl
    | queue served pr prl a =>
      simp only [poolDoGetEnd, resume]
      refine ⟨_, rfl, h.move t (hend.of_eq rfl rfl (zero_add _)) (by rw [hpc]; rfl) (by rw [hpc]; rfl) ?_⟩
      rw [hpc]
      cases a <;> rfl
  | some ph =>
    have hcount : Ok cfg s.pool (s.held + c.items + s.othersOut t) (ph ::ₘ s.othersPages t)
        (s.othersGetting t + 1) := by
      refine hok.of_eq rfl ?_ (by simp only [Pc.getting]; omega)
      simp only [Pc.pages, Multiset.singleton_add]
    obtain ⟨v, pp', hend, -, hok'⟩ := hcount.poolDoGetEnd_some
    rw [hend]
    cases c with
    | get flags =>
      simp only [resume]
      refine ⟨_, rfl, h.move t (hok'.of_eq ?_ (zero_add _) (zero_add _)) ?_ (by rw [hpc]; rfl) (by rw [hpc]; rfl)⟩
      · simp only [Caller.items, Pc.items, Multiset.cons_add]
      · rw [hpc]
        exact add_le_add_left (Multiset.le_cons_self _ v) _
    | queue served pr prl a =>
      have hserved : s.held + s.othersOut t + ((served ++ [(pr, v)]).map Prod.snd : List ℕ) =
          v ::ₘ (s.held + (Caller.queue served pr prl a).items + s.othersOut t) := by
        rw [List.map_append, ← Multiset.coe_add, ← Multiset.singleton_add v]
        change _ + (_ + {v}) = {v} + (s.held + (served.map Prod.snd : List ℕ) + s.othersOut t)
        abel
      rw [← hserved] at hok'
      obtain ⟨pp'', pc, hrun, hok'', hpages, hprl, hwaits, hle⟩ := hok'.runRequests a _ prl
      simp only [resume, hrun, Except.map]
      refine ⟨_, rfl, h.move t (hok''.of_eq (add_right_comm _ _ _) ?_ rfl) ?_ ?_ ?_⟩
      · rw [hpages, zero_add]
      · rw [hpc]
        refine add_le_add_right (le_trans ?_ hle) _
        rw [List.map_append, ← Multiset.coe_add]
        exact Multiset.le_add_right _ _
      · rw [hprl, hpc, List.map_append]
        have hmap : (Pc.insert (Caller.queue served pr prl a) (some ph)).prl =
            (served.map Prod.fst : Multiset ι) + (pr :: prl : List ι) := rfl
        rw [hmap, ← Multiset.coe_add, add_assoc (served.map Prod.fst : Multiset ι)]
        rfl
      · rw [hwaits, hpc]
        cases a <;> rfl

theorem Inv.run (h : Inv cfg s) {t : ι} {prl : List ι} {a : After} (hpc : s.pc t = .run prl a) :
    ∃ s', Pool.step cfg s t .go = .ok s' ∧ Keeps cfg s s' := by
  have hok := h.ok_split t
  rw [hpc] at hok
  have hnil : Ok cfg s.pool (s.held + s.othersOut t + (([] : List (ι × ℕ)).map Prod.snd : List ℕ))
      (s.othersPages t) (s.othersGetting t) :=
    hok.of_eq (add_right_comm _ _ _).symm (zero_add _).symm (zero_add _).symm
  obtain ⟨pp', pc, hrun, hok', hpages, hprl, hwaits, hle⟩ := hnil.runRequests a _ prl
  simp only [Pool.step, hpc, hrun, Except.map]
  refine ⟨_, rfl, h.move t (hok'.of_eq (add_right_comm _ _ _) ?_ rfl) ?_ ?_ ?_⟩
  · rw [hpages, zero_add]
  · rw [hpc]
    exact add_le_add_right hle _
  · rw [hprl, hpc]
    exact congrArg _ (zero_add _)
  · rw [hwaits, hpc]
    cases a <;> rfl

/-- `pool_get_done` gives its item to a thread that has none. -/
theorem Inv.deliver (h : Inv cfg s) {t pr : ι} {v : ℕ} {served : List (ι × ℕ)} {prl : List ι} {a : After}
    (hpc : s.pc t = .serve ((pr, v) :: served) prl a) :
    Keeps cfg s { s with mem := Function.update s.mem pr (some v), pc := Function.update s.pc t (.serve served prl a) } := by
  have hsplit := h.ok_split t
  rw [hpc] at hsplit
  have hold : (Pc.serve ((pr, v) :: served) prl a).prl = {pr} + (Pc.serve served prl a).prl := by
    change (((pr :: served.map Prod.fst : List ι) : Multiset ι) + prl) = {pr} + (served.map Prod.fst + prl)
    rw [← Multiset.cons_coe, ← Multiset.singleton_add, add_assoc]
  have hcount (u : ι) : s.queued.count u = Multiset.count u {pr} +
      (s.pr_requests + (Pc.serve served prl a).prl + ∑ w ∈ univ.erase t, (s.pc w).prl).count u := by
    rw [s.queued_eq t, hpc, hold, ← Multiset.count_add]
    congr 1
    abel
  have hwait : (s.pc pr).waits ∧ s.mem pr = none := by
    by_contra hnot
    have hpr := h.queued pr
    rw [if_neg hnot, hcount pr, Multiset.count_singleton_self] at hpr
    omega
  have hwaits : ∀ u, (Function.update s.pc t (.serve served prl a) u).waits = (s.pc u).waits := by
    intro u
    by_cases hu : u = t
    · rw [hu, Function.update_self, hpc]
      cases a <;> rfl
    · rw [Function.update_of_ne hu]
  have hout : s.held + (Pc.serve served prl a).items + ∑ u ∈ univ.erase t, (s.pc u).items +
      ∑ u, (Function.update s.mem pr (some v) u).elim 0 (fun i => ({i} : Multiset ℕ)) =
      s.held + (Pc.serve ((pr, v) :: served) prl a).items + s.othersOut t := by
    have hmem : ∑ u, (Function.update s.mem pr (some v) u).elim 0 (fun i => ({i} : Multiset ℕ)) =
        {v} + ∑ u, (s.mem u).elim 0 (fun i => {i}) := by
      rw [sum_update (fun o : Option ℕ => o.elim 0 fun i => ({i} : Multiset ℕ)),
        sum_eq_add_others (fun u => (s.mem u).elim 0 fun i => ({i} : Multiset ℕ)) pr, hwait.2]
      exact congrArg _ (zero_add _).symm
    have hitems : (Pc.serve ((pr, v) :: served) prl a).items = {v} + (Pc.serve served prl a).items := by
      change (((v :: served.map Prod.snd : List ℕ) : Multiset ℕ)) = {v} + (served.map Prod.snd : List ℕ)
      rw [← Multiset.cons_coe, ← Multiset.singleton_add]
    rw [hmem, hitems, System.othersOut]
    abel
  refine ⟨⟨ok_update t (hsplit.of_eq hout rfl rfl), ?_, ?_⟩, ?_⟩
  · intro u
    have hu := h.queued u
    rw [hcount u] at hu
    rw [queued_update]
    simp only [hwaits u]
    by_cases hpr : u = pr
    · subst hpr
      rw [if_pos hwait, Multiset.count_singleton_self] at hu
      simp only [Function.update_self]
      rw [if_neg (by simp)]
      omega
    · rw [Multiset.count_singleton, if_neg hpr, zero_add] at hu
      simp only [Function.update_of_ne hpr]
      exact hu
  · intro u hu
    simp only [hwaits u] at hu
    have hpr : u ≠ pr := by
      rintro rfl
      rw [hwait.1] at hu
      cases hu
    simp only [Function.update_of_ne hpr]
    exact h.mem u hu
  · have hsame : System.out { s with
        mem := Function.update s.mem pr (some v)
        pc := Function.update s.pc t (.serve served prl a) } = s.out := by
      rw [s.out_eq t, hpc, ← hout, System.out]
      simp only [sum_update Pc.items]
      abel
    exact hsame.ge

theorem Inv.wake (h : Inv cfg s) {t : ι} {v : ℕ} (hpc : s.pc t = .sleep) (hmem : s.mem t = some v) :
    Keeps cfg s { s with
      mem := Function.update s.mem t none
      held := v ::ₘ s.held
      pc := Function.update s.pc t .idle } := by
  have hsplit := h.ok_split t
  rw [hpc] at hsplit
  have hout : v ::ₘ s.held + (Pc.idle : Pc ι).items + ∑ u ∈ univ.erase t, (s.pc u).items +
      ∑ u, (Function.update s.mem t none u).elim 0 (fun i => ({i} : Multiset ℕ)) =
      s.held + (Pc.sleep : Pc ι).items + s.othersOut t := by
    have hsum : ∑ u, (s.mem u).elim 0 (fun i => ({i} : Multiset ℕ)) =
        {v} + ∑ u, (Function.update s.mem t none u).elim 0 (fun i => {i}) := by
      rw [sum_update (fun o : Option ℕ => o.elim 0 fun i => ({i} : Multiset ℕ)),
        sum_eq_add_others (fun u => (s.mem u).elim 0 fun i => ({i} : Multiset ℕ)) t, hmem]
      exact congrArg _ (zero_add _).symm
    rw [System.othersOut, hsum, ← Multiset.singleton_add v s.held]
    change {v} + s.held + (Pc.sleep : Pc ι).items + _ + _ = _
    abel
  refine ⟨⟨ok_update t (hsplit.of_eq hout rfl rfl), ?_, ?_⟩, ?_⟩
  · intro u
    have hu := h.queued u
    rw [s.queued_eq t, hpc] at hu
    rw [queued_update]
    by_cases hut : u = t
    · subst hut
      rw [hmem, if_neg (by simp)] at hu
      simp only [Function.update_self]
      rw [if_neg (by simp [Pc.waits])]
      exact hu
    · simp only [Function.update_of_ne hut]
      exact hu
  · intro u hu
    by_cases hut : u = t
    · rw [hut]
      exact Function.update_self _ _ _
    · simp only [Function.update_of_ne hut] at hu ⊢
      exact h.mem u hu
  · have hsame : System.out { s with
        mem := Function.update s.mem t none
        held := v ::ₘ s.held
        pc := Function.update s.pc t .idle } = s.out := by
      rw [s.out_eq t, hpc, ← hout, System.out]
      simp only [sum_update Pc.items]
      abel
    exact hsame.ge

theorem Inv.free (h : Inv cfg s) {t : ι} {pl : List ℕ} {put : Bool} (hpc : s.pc t = .free pl put) :
    ∃ s', Pool.step cfg s t .go = .ok s' ∧ Keeps cfg s s' := by
  cases pl with
  | nil =>
    simp only [Pool.step, hpc]
    refine ⟨_, rfl, ?_⟩
    split
    · refine h.poolRunqueue ?_
      rw [hpc]
      exact ⟨rfl, rfl, rfl, rfl, rfl⟩
    · refine h.move_same t ?_ ?_ ?_ ?_ ?_ <;> rw [hpc] <;> rfl
  | cons ph pl =>
    have hok := h.ok_split t
    rw [hpc] at hok
    have hcons : Ok cfg s.pool (s.held + (Pc.free (ph :: pl) put : Pc ι).items + s.othersOut t)
        (ph ::ₘ (pl + s.othersPages t)) ((Pc.free (ph :: pl) put : Pc ι).getting + s.othersGetting t) := by
      refine hok.of_eq rfl ?_ rfl
      rw [← Multiset.cons_add]
      rfl
    obtain ⟨hfree, hok'⟩ := hcons.poolPFree
    simp only [Pool.step, hpc, hfree, Except.map]
    exact ⟨_, rfl, h.move t hok' (by rw [hpc]; rfl) (by rw [hpc]; rfl) (by rw [hpc]; rfl)⟩

theorem Inv.primePage (h : Inv cfg s) {t : ι} {n : ℕ} {pl : List ℕ} (hpc : s.pc t = .prime (n + 1) pl)
    {addr : Option ℕ} (hfresh : (Act.allocated addr).Allowed cfg s) :
    ∃ s', Pool.step cfg s t (.allocated addr) = .ok s' ∧ Keeps cfg s s' := by
  simp only [Pool.step, hpc]
  cases addr with
  | none => refine ⟨_, rfl, h.move_same t ?_ ?_ ?_ ?_ ?_⟩ <;> rw [hpc] <;> rfl
  | some addr =>
    have hok := h.ok.poolPAlloc hfresh
    rw [s.out_eq t, s.outside_eq t, s.getting_eq t, hpc] at hok
    refine ⟨_, rfl, h.move t (hok.of_eq rfl ?_ rfl) (by rw [hpc]; rfl) (by rw [hpc]; rfl) (by rw [hpc]; rfl)⟩
    change ((pl ++ [addr] : List ℕ) : Multiset ℕ) + s.othersPages t = addr ::ₘ (pl + s.othersPages t)
    rw [← Multiset.coe_add, ← Multiset.singleton_add addr]
    change _ + {addr} + _ = _
    abel

theorem Inv.primeEnd (h : Inv cfg s) {t : ι} {pl : List ℕ} (hpc : s.pc t = .prime 0 pl) :
    ∃ s', Pool.step cfg s t .go = .ok s' ∧ Keeps cfg s s' := by
  have hok := h.ok_split t
  rw [hpc] at hok
  have hprime : Ok cfg s.pool (s.held + (Pc.prime 0 pl : Pc ι).items + s.othersOut t) (pl + s.othersPages t)
      ((Pc.prime 0 pl : Pc ι).getting + s.othersGetting t) := hok
  simp only [Pool.step, hpc]
  refine ⟨_, rfl, h.move t ?_ (by rw [hpc]; rfl) (by rw [hpc]; rfl) (by rw [hpc]; rfl)⟩
  exact hprime.foldl_poolPInsert.of_eq rfl (zero_add _) rfl

omit [Fintype ι] in
theorem poolRunqueue_update (s : System ι) (t : ι) (x : Pc ι) (a : After) :
    poolRunqueue { s with pc := Function.update s.pc t x } t a = poolRunqueue s t a := by
  simp only [poolRunqueue, takeRequests, Function.update_idem]

/-- The items that stay handed out when a thread does this. -/
def Act.kept (out : Multiset ℕ) : Act → Multiset ℕ
  | .put v _ => out.erase v
  | _ => out

theorem Act.kept_le (out : Multiset ℕ) (act : Act) : act.kept out ≤ out := by
  cases act with
  | put v ticks => exact Multiset.erase_le v out
  | _ => exact le_rfl

/-- A step that is no `pool_put` keeps what is handed out. -/
theorem Keeps.next {act : Act} {r : Except Fault (System ι)} (h : ∃ s', r = .ok s' ∧ Keeps cfg s s') :
    ∃ s', r = .ok s' ∧ Inv cfg s' ∧ act.kept s.out ≤ s'.out := by
  obtain ⟨s', hr, hk⟩ := h
  exact ⟨s', hr, hk.inv, (act.kept_le s.out).trans hk.out⟩

theorem Inv.step (h : Inv cfg s) (t : ι) {act : Act} (hact : act.Allowed cfg s) :
    ∃ s', Pool.step cfg s t act = .ok s' ∧ Inv cfg s' ∧ act.kept s.out ≤ s'.out := by
  have hstay (hstep : Pool.step cfg s t act = .ok s) :
      ∃ s', Pool.step cfg s t act = .ok s' ∧ Inv cfg s' ∧ act.kept s.out ≤ s'.out :=
    ⟨s, hstep, h, act.kept_le s.out⟩
  cases hpc : s.pc t with
  | idle =>
    cases act with
    | get flags => exact Keeps.next (h.get hpc flags)
    | put v ticks =>
      obtain ⟨s', hstep, hinv, hout⟩ := h.put hpc ticks hact
      refine ⟨s', hstep, hinv, ?_⟩
      rw [hout, Act.kept, Multiset.erase_cons_head]
    | reclaim => exact Keeps.next (h.reclaim hpc)
    | prime n =>
      refine Keeps.next ⟨{ s with pc := Function.update s.pc t (.prime (newPages cfg n) []) }, ?_, ?_⟩
      · simp only [Pool.step, hpc]
      · refine h.move_same t ?_ ?_ ?_ ?_ ?_ <;> rw [hpc] <;> rfl
    | _ => exact hstay (by simp only [Pool.step, hpc])
  | alloc c =>
    cases act with
    | allocated addr => exact Keeps.next (h.alloc hpc hact)
    | _ => exact hstay (by simp only [Pool.step, hpc])
  | insert c ph =>
    cases act with
    | go => exact Keeps.next (h.insert hpc)
    | _ => exact hstay (by simp only [Pool.step, hpc])
  | request =>
    cases act with
    | go =>
      have hreq := h.request hpc
      have hrun := hreq.inv.poolRunqueue (t := t) (a := .sleep) (by
        simp only [Function.update_self]
        exact ⟨rfl, rfl, rfl, rfl, rfl⟩)
      refine Keeps.next ⟨_, ?_, hrun.inv, hreq.out.trans hrun.out⟩
      simp only [Pool.step, hpc]
      exact congrArg Except.ok (poolRunqueue_update { s with pr_requests := s.pr_requests ++ [t] } t .sleep .sleep).symm
    | _ => exact hstay (by simp only [Pool.step, hpc])
  | run prl a =>
    cases act with
    | go => exact Keeps.next (h.run hpc)
    | _ => exact hstay (by simp only [Pool.step, hpc])
  | serve served prl a =>
    cases act with
    | go =>
      cases served with
      | nil =>
        refine Keeps.next ⟨Pool.endRunqueue s t prl a, by simp only [Pool.step, hpc], h.endRunqueue ?_⟩
        rw [hpc]
        refine ⟨rfl, rfl, rfl, zero_add _, ?_⟩
        cases a <;> rfl
      | cons r served =>
        obtain ⟨pr, v⟩ := r
        exact Keeps.next ⟨_, by simp only [Pool.step, hpc], h.deliver hpc⟩
    | _ => exact hstay (by cases served <;> simp only [Pool.step, hpc])
  | sleep =>
    cases act with
    | go =>
      cases hmem : s.mem t with
      | none => exact hstay (step_sleep cfg hpc hmem)
      | some v => exact Keeps.next ⟨_, by simp only [Pool.step, hpc, hmem], h.wake hpc hmem⟩
    | _ => exact hstay (by simp only [Pool.step, hpc])
  | free pl put =>
    cases act with
    | go => exact Keeps.next (h.free hpc)
    | _ => exact hstay (by cases pl <;> simp only [Pool.step, hpc])
  | prime n pl =>
    cases n with
    | zero =>
      cases act with
      | go => exact Keeps.next (h.primeEnd hpc)
      | _ => exact hstay (by simp only [Pool.step, hpc])
    | succ n =>
      cases act with
      | allocated addr => exact Keeps.next (h.primePage hpc hact)
      | _ => exact hstay (by simp only [Pool.step, hpc])

theorem Reachable.inv (h : Reachable cfg s) : Inv cfg s := by
  induction h with
  | init => exact inv_init cfg
  | step t act _ hact hstep ih =>
    obtain ⟨s'', hs'', hinv, -⟩ := ih.step t hact
    rw [hstep] at hs''
    cases hs''
    exact hinv

/-- What a pool is to be like while no thread holds `pr_mtx`. -/
structure Consistent (cfg : Config) (s : System ι) : Prop where
  pages : s.pool.pages.Nodup
  empty : ∀ ph ∈ s.pool.pages, ph ∈ s.pool.pr_emptypages ↔ (s.pool.ph ph).ph_nmissing = 0
  full : ∀ ph ∈ s.pool.pages, ph ∈ s.pool.pr_fullpages ↔ (s.pool.ph ph).ph_nmissing = cfg.pr_itemsperpage
  part : ∀ ph ∈ s.pool.pages, ph ∈ s.pool.pr_partpages ↔
    0 < (s.pool.ph ph).ph_nmissing ∧ (s.pool.ph ph).ph_nmissing < cfg.pr_itemsperpage
  itemlist : ∀ ph ∈ s.pool.pages, (s.pool.ph ph).ph_itemlist.Nodup ∧
    ((s.pool.ph ph).ph_itemlist.length : ℤ) = cfg.pr_itemsperpage - (s.pool.ph ph).ph_nmissing
  npages : s.pool.pr_npages = BitVec.ofNat 32 s.pool.pages.length
  nitems : s.pool.pr_nitems = s.pool.pr_npages * BitVec.ofNat 32 cfg.pr_itemsperpage
  nidle : s.pool.pr_nidle = BitVec.ofNat 64 s.pool.pr_emptypages.length
  nout : s.pool.pr_nout.toNat = s.out.card + s.getting
  out : s.out.Nodup

theorem Inv.consistent (h : Inv cfg s) : Consistent cfg s := by
  have hpos : (0 : ℤ) < cfg.pr_itemsperpage := by
    have := cfg.items_pos
    omega
  have hlist : ∀ ph ∈ s.pool.pages, ph ∈ s.pool.pr_emptypages ∨ ph ∈ s.pool.pr_partpages ∨
      ph ∈ s.pool.pr_fullpages := by
    intro ph hph
    simpa only [State.pages, List.mem_append, or_assoc] using hph
  refine ⟨h.ok.pages_nodup, ?_, ?_, ?_, ?_, h.ok.npages, h.ok.nitems, h.ok.nidle, h.ok.nout, h.ok.out_nodup⟩
  · intro ph hph
    have hfiled := h.ok.filed ph
    refine ⟨hfiled.empty, fun hnm => ?_⟩
    obtain hp | hp | hp := hlist ph hph
    · exact hp
    · have := hfiled.part hp
      omega
    · have := hfiled.full hp
      omega
  · intro ph hph
    have hfiled := h.ok.filed ph
    refine ⟨hfiled.full, fun hnm => ?_⟩
    obtain hp | hp | hp := hlist ph hph
    · have := hfiled.empty hp
      omega
    · have := hfiled.part hp
      omega
    · exact hp
  · intro ph hph
    have hfiled := h.ok.filed ph
    refine ⟨hfiled.part, fun hnm => ?_⟩
    obtain hp | hp | hp := hlist ph hph
    · have := hfiled.empty hp
      omega
    · exact hp
    · have := hfiled.full hp
      omega
  · intro ph hph
    have hhdr := h.ok.page_header hph
    refine ⟨hhdr.nodup, ?_⟩
    have := hhdr.count
    omega

/-- However the threads are interleaved, the pool is consistent whenever `pr_mtx` is free, no step
panics, and an item that is handed out stays so until it is put back. -/
theorem pool_consistent {s : System ι} (h : Reachable cfg s) :
    Consistent cfg s ∧ ∀ t act, act.Allowed cfg s →
      ∃ s', step cfg s t act = .ok s' ∧ act.kept s.out ≤ s'.out := by
  refine ⟨h.inv.consistent, fun t act hact => ?_⟩
  obtain ⟨s', hstep, -, hkept⟩ := h.inv.step t hact
  exact ⟨s', hstep, hkept⟩

end Threads

/-- Two items in a page. -/
def twoItems : Config where
  pr_size := 2048
  pr_pgsize := 4096
  pr_phoffset := 0
  pr_itemsperpage := 2
  pr_align := 16
  pr_minitems := 0
  pr_minpages := 0
  pr_maxpages := 8
  pr_hardlimit := -1
  hz := 100
  size_pos := by decide
  items_pos := by decide
  align_pos := by decide
  phoffset_le := by decide
  fits := by decide

/-- One of two threads gets the first page while the other waits for one. -/
theorem pool_consistent_two : ∃ s : System (Fin 2), s.held = {8192} ∧ s.pool.pr_nout = 2 ∧
    (Consistent twoItems s ∧ ∀ t act, act.Allowed twoItems s →
      ∃ s', step twoItems s t act = .ok s' ∧ act.kept s.out ≤ s'.out) := by
  have h1 : Reachable twoItems _ := .step (ι := Fin 2) 0 (.get ⟨true, false, false⟩) .init trivial rfl
  have h2 : Reachable twoItems _ := .step 1 (.get ⟨true, false, false⟩) h1 trivial rfl
  have h3 : Reachable twoItems _ := .step 0 (.allocated (some 8192)) h2
    ⟨by decide, by decide, by decide⟩ rfl
  have h4 : Reachable twoItems _ := .step 0 .go h3 trivial rfl
  exact ⟨_, rfl, rfl, pool_consistent h4⟩

end OpenbsdKernel.Pool
