import OpenbsdKernel.Kern.Tty.Deque

/-!
# Runs of the character lists

What each operation does to the queue of a clist, and from it the simulation of whole
runs by bounded queues.
-/
namespace OpenbsdKernel.Tty

open Clist

variable {clp : Clist} {cap : ℕ} {q : List (BitVec 8 × Bool)}

theorem Clist.Rep.eq_nil_iff (h : Rep clp cap q) : q = [] ↔ clp.c_cc = 0 := by
  rw [← h.length, List.length_eq_zero_iff]

theorem Clist.Rep.resetEmpty_eq (h : Rep clp cap q) : clp.resetEmpty = clp := by
  unfold resetEmpty
  split_ifs with hzero
  · obtain ⟨hcf, hcl⟩ := h.empty hzero
    rw [← hcf]
    cases clp
    simp_all
  · rfl

theorem getc_rep (h : Rep clp cap q) :
    Rep (getc clp).1 cap q.tail ∧ (getc clp).2 = (q.head?.map encode).getD (-1#32) := by
  by_cases hzero : clp.c_cc = 0
  · have hq : q = [] := h.eq_nil_iff.mpr hzero
    subst hq
    simp only [getc, hzero, if_true]
    exact ⟨h, rfl⟩
  · obtain ⟨f, hat⟩ := h.pos (Nat.pos_of_ne_zero hzero)
    obtain ⟨m, hcs⟩ := hat.cs
    obtain ⟨qm, hcq⟩ := hat.cq
    have hlt := hat.lt
    have hout : ∀ i, i < f ∨ f + 1 ≤ i →
        (Function.update m f 0#8 i, isset (clrbit qm f) i) = clp.cells i := by
      intro i hi
      have hne : i ≠ f := by omega
      simp [cells, byte, quoted, hcs, hcq, isset_clrbit, hne]
    obtain ⟨hat', hqueue⟩ := hat.remove (by omega) (by omega : 1 ≤ clp.c_cc) hout
    rw [h.queue, Ring.segment_one] at hqueue
    have heq : getc clp = (Clist.resetEmpty
        { clp with
          c_cs := some (Function.update m f 0#8)
          c_cq := some (clrbit qm f)
          c_cc := clp.c_cc - 1
          c_cf := some (clp.wrap (f + 1)) }, encode (clp.cells f)) := by
      simp only [getc, hzero, if_false, hcs, hcq, hat.cf, offset, Option.map_some,
        Option.getD_some]
      rfl
    rw [heq, hqueue]
    exact ⟨hat'.resetEmpty, rfl⟩

theorem prepare_at (h : Rep clp cap q) (hlt : clp.c_cc < cap) :
    ∃ f, At clp.prepare cap f ∧ clp.prepare.queue = q ∧ clp.prepare.c_cc = clp.c_cc := by
  by_cases hzero : clp.c_cc = 0
  · obtain ⟨m, hcs⟩ := h.alloc.cs
    have heq : clp.prepare = { clp with c_cf := some 0, c_cl := some 0 } := by
      simp [prepare, hzero, hcs]
    have hq : q = [] := h.eq_nil_iff.mpr hzero
    refine ⟨0, ?_, ?_, ?_⟩
    · rw [heq]
      refine ⟨⟨h.alloc.cn, h.alloc.ce, h.alloc.cs, h.alloc.cq, h.alloc.cc⟩, rfl, by omega, ?_⟩
      change some 0 = some ((0 + clp.c_cc) % cap)
      rw [hzero, Nat.zero_add, Nat.zero_mod]
    · rw [heq, hq]
      simp [queue, hzero]
    · rw [heq]
  · obtain ⟨f, hat⟩ := h.pos (Nat.pos_of_ne_zero hzero)
    have heq : clp.prepare = clp := by
      simp [prepare, hzero]
    rw [heq]
    exact ⟨f, hat, h.queue, rfl⟩

theorem Clist.At.rep {f : ℕ} (h : At clp cap f) (hpos : 0 < clp.c_cc) : Rep clp cap clp.queue :=
  ⟨h.toAlloc, rfl, fun h0 => by omega, fun _ => ⟨f, h⟩⟩

theorem putc_rep (h : Rep clp cap q) (c : BitVec 32) :
    if q.length = cap then putc c clp = (clp, -1)
    else Rep (putc c clp).1 cap (q ++ [decode c]) ∧ (putc c clp).2 = 0 := by
  have hcn := h.alloc.cn
  have hcc := h.alloc.cc
  rw [h.length]
  split_ifs with hfull
  · simp [putc, hcn, hfull]
  · obtain ⟨f, hat, hq, hsame⟩ := prepare_at h (by omega)
    obtain ⟨m, hcs⟩ := hat.cs
    obtain ⟨qm, hcq⟩ := hat.cq
    set l := (f + clp.prepare.c_cc) % cap with hl
    have hllt : l < cap := Nat.mod_lt _ (by omega)
    let q' := if c &&& TTY_QUOTE ≠ 0#32 then setbit qm l else clrbit qm l
    have hbit : ∀ i, i ≠ l → isset q' i = isset qm i := by
      intro i hi
      simp only [q']
      split_ifs <;> simp [isset_setbit, isset_clrbit, hi]
    have hbitl : isset q' l = decide (c &&& TTY_QUOTE ≠ 0#32) := by
      simp only [q']
      split_ifs with hc <;> simp [isset_setbit, isset_clrbit, hc]
    have hout : ∀ i, i < l ∨ l + 1 ≤ i →
        (Function.update m l ((c &&& 0xff#32).setWidth 8) i, isset q' i) = clp.prepare.cells i := by
      intro i hi
      have hne : i ≠ l := by omega
      simp [cells, byte, quoted, hcs, hcq, hbit i hne, hne]
    obtain ⟨hat', hqueue⟩ := hat.append (by omega) (by omega : clp.prepare.c_cc + 1 ≤ cap) hout
    rw [hq, Ring.segment_one, ← hl] at hqueue
    have heq : putc c clp = ({ clp.prepare with
          c_cs := some (Function.update m l ((c &&& 0xff#32).setWidth 8))
          c_cq := some q'
          c_cc := clp.prepare.c_cc + 1
          c_cl := some (clp.prepare.wrap (l + 1)) }, 0) := by
      have hne : clp.c_cc ≠ clp.c_cn := by omega
      simp only [putc, hne, if_false, hcs, hcq, hat.cl, offset, Option.map_some,
        Option.getD_some, ← hl, q']
    have hrep := hat'.rep (Nat.succ_pos _)
    rw [hqueue, Function.update_self, hbitl] at hrep
    rw [heq]
    exact ⟨hrep, rfl⟩

theorem unputc_rep (h : Rep clp cap q) :
    Rep (unputc clp).1 cap q.dropLast ∧ (unputc clp).2 = (q.getLast?.map encode).getD (-1#32) := by
  by_cases hzero : clp.c_cc = 0
  · have hq : q = [] := h.eq_nil_iff.mpr hzero
    subst hq
    simp only [unputc, hzero, if_true]
    exact ⟨h, rfl⟩
  · obtain ⟨f, hat⟩ := h.pos (Nat.pos_of_ne_zero hzero)
    obtain ⟨m, hcs⟩ := hat.cs
    obtain ⟨qm, hcq⟩ := hat.cq
    obtain ⟨n, hn⟩ := Nat.exists_eq_succ_of_ne_zero hzero
    have hlt := hat.lt
    have hcc := hat.cc
    -- stepping `c_cl` back leads to the last character
    have hlast : (if (f + clp.c_cc) % cap = 0 then cap - 1 else (f + clp.c_cc) % cap - 1) =
        (f + n) % cap := by
      rw [hn, Ring.mod_of_lt_two (by omega : f + n < 2 * cap),
        Ring.mod_of_lt_two (by omega : f + n.succ < 2 * cap)]
      by_cases hw : f + n.succ < cap
      · rw [if_pos hw, if_neg (by omega), if_pos (by omega)]
        omega
      · rw [if_neg hw]
        split_ifs <;> omega
    have heq : unputc clp = (Clist.resetEmpty
        { clp with
          c_cl := some ((f + n) % cap)
          c_cc := n
          c_cs := some (Function.update m ((f + n) % cap) 0#8)
          c_cq := some (clrbit qm ((f + n) % cap)) }, encode (clp.cells ((f + n) % cap))) := by
      simp only [unputc, hzero, if_false, hcs, hcq, hat.cl, hat.ce, offset, Option.map_some,
        Option.getD_some, hlast]
      simp only [hn, Nat.succ_sub_one]
      rfl
    have hout : ∀ i, i ≠ (f + n) % cap → (Function.update m ((f + n) % cap) 0#8 i,
        isset (clrbit qm ((f + n) % cap)) i) = clp.cells i := by
      intro i hi
      simp [cells, byte, quoted, hcs, hcq, isset_clrbit, hi]
    have hqueue := hat.queue_eq
    rw [h.queue, hn, Ring.view_removeLast (by omega) hout] at hqueue
    have hat' : At { clp with
          c_cl := some ((f + n) % cap)
          c_cc := n
          c_cs := some (Function.update m ((f + n) % cap) 0#8)
          c_cq := some (clrbit qm ((f + n) % cap)) } cap f :=
      ⟨⟨hat.cn, hat.ce, ⟨_, rfl⟩, ⟨_, rfl⟩, by simp only; omega⟩, hat.cf, hlt, rfl⟩
    rw [heq, hqueue, List.dropLast_concat, List.getLast?_concat]
    have hrep := hat'.resetEmpty
    rw [hat'.queue_eq] at hrep
    exact ⟨hrep, rfl⟩

/-- The characters taken in one go are at the front, and there is one at least. -/
theorem frontRun_spec {f : ℕ} {count : ℤ} (h : At clp cap f) (hc : 0 < count)
    (hpos : 0 < clp.c_cc) :
    1 ≤ frontRun clp count ∧ (frontRun clp count : ℤ) ≤ count ∧ f + frontRun clp count ≤ cap ∧
      frontRun clp count ≤ clp.c_cc := by
  have hlt := h.lt
  have hcc := h.cc
  unfold frontRun
  rw [h.cf, h.cl, h.ce]
  simp only [offset, Option.getD_some]
  rw [Ring.mod_of_lt_two (by omega)]
  split_ifs <;> omega

/-- One iteration of a removing loop, `k` characters having been removed before; what is
written over the removed ones does not matter. -/
theorem Clist.At.take {f k r : ℕ} {cs' cq' : Mem} (h : At clp cap f) (hq : clp.queue = q.drop k)
    (hf : f + r ≤ cap) (hr : r ≤ clp.c_cc)
    (hout : ∀ i, i < f ∨ f + r ≤ i → (cs' i, isset cq' i) = clp.cells i) :
    let clp' : Clist :=
      { clp with
        c_cs := some cs'
        c_cq := some cq'
        c_cc := clp.c_cc - r
        c_cf := some (clp.wrap (f + r)) }
    At clp' cap ((f + r) % cap) ∧ clp'.queue = q.drop (k + r) ∧
      (q.take k).map Prod.fst ++ Ring.segment clp.byte f r = (q.take (k + r)).map Prod.fst := by
  intro clp'
  obtain ⟨hat, hqueue⟩ := h.remove hf hr hout
  have hbytes : Ring.segment clp.byte f r = (Ring.segment clp.cells f r).map Prod.fst := by
    simp [Ring.segment, cells]
  rw [hq] at hqueue
  constructor
  · exact hat
  constructor
  · rw [← List.drop_drop, hqueue, List.drop_left' Ring.length_segment]
  · rw [List.take_add, hqueue, List.take_left' Ring.length_segment, List.map_append, hbytes]

theorem removed_eq {k : ℕ} {count : ℤ} (hk : k ≤ count.toNat)
    (hstop : count - k ≤ 0 ∨ q.length = k) :
    q.drop k = q.drop count.toNat ∧ q.take k = q.take count.toNat := by
  rcases hstop with hc | hl
  · have hkc : k = count.toNat := by omega
    rw [hkc]
    exact ⟨rfl, rfl⟩
  · rw [List.drop_of_length_le (by omega), List.drop_of_length_le (by omega),
      List.take_of_length_le (by omega), List.take_of_length_le (by omega)]
    exact ⟨rfl, rfl⟩

theorem qToB_rep (h : Rep clp cap q) (count : ℤ) :
    Rep (qToB clp count).1 cap (q.drop count.toNat) ∧
      (qToB clp count).2 = (q.take count.toNat).map Prod.fst := by
  by_cases hzero : clp.c_cc = 0
  · have hq : q = [] := h.eq_nil_iff.mpr hzero
    have hstep : qToBStep (clp, count, []) = .done (clp, []) := by
      simp [qToBStep, hzero, h.resetEmpty_eq]
    subst hq
    simp only [qToB, Loop.run_done _ hstep]
    simpa using h
  · -- `k` characters have been moved so far
    have hloop := Loop.run_returns qToBStep
      (I := fun x => ∃ k f, At x.1 cap f ∧ x.1.queue = q.drop k ∧ x.2.1 = count - k ∧
        k ≤ count.toNat ∧ k ≤ q.length ∧ x.2.2 = (q.take k).map Prod.fst)
      (μ := fun x => x.1.c_cc)
      (Q := fun r => Rep r.1 cap (q.drop count.toNat) ∧ r.2 = (q.take count.toNat).map Prod.fst)
      ?_ ?_ ?_ (clp.c_cc + 1) (clp, count, []) ?_ (Nat.lt_succ_self _)
    · obtain ⟨r, n, hrun, -, hr⟩ := hloop
      simp only [qToB, hrun]
      exact hr
    · rintro ⟨x, c, out⟩ y ⟨k, f, hat, hqueue, hcount, hk, hlen, hout⟩ hstep
      simp only at hat hqueue hcount hout
      simp only [qToBStep] at hstep
      split_ifs at hstep with hcond
      obtain ⟨m, hcs⟩ := hat.cs
      obtain ⟨qm, hcq⟩ := hat.cq
      obtain ⟨hone, hle, hfit, hcc⟩ := frontRun_spec hat hcond.1 hcond.2
      have hclear : ∀ i, i < f ∨ f + frontRun x c ≤ i →
          (memset m f 0#8 (frontRun x c) i, isset (clrbits qm f (frontRun x c)) i) = x.cells i := by
        intro i hi
        have hne : ¬ (f ≤ i ∧ i < f + frontRun x c) := by omega
        simp [cells, byte, quoted, hcs, hcq, memset, isset_clrbits, hne]
      obtain ⟨hat', hqueue', hout'⟩ := hat.take hqueue hfit hcc hclear
      have hlen' := congrArg List.length hqueue'
      rw [hat'.queue_eq, Ring.length_view, List.length_drop] at hlen'
      have hlen₀ := congrArg List.length hqueue
      rw [hat.queue_eq, Ring.length_view, List.length_drop] at hlen₀
      simp only [hcs, hcq, hat.cf, offset, Option.getD_some, Option.map_some] at hstep
      cases hstep
      constructor
      · refine ⟨k + frontRun x c, _, hat', hqueue', ?_, ?_, ?_, ?_⟩
        · push_cast
          omega
        · omega
        · omega
        · rw [hout]
          exact hout'
      · simp only
        omega
    · rintro ⟨x, c, out⟩ r ⟨k, f, hat, hqueue, hcount, hk, hlen, hout⟩ hstep
      simp only at hat hqueue hcount hout
      simp only [qToBStep] at hstep
      split_ifs at hstep with hcond
      cases hstep
      have hlen₀ := congrArg List.length hqueue
      rw [hat.queue_eq, Ring.length_view, List.length_drop] at hlen₀
      obtain ⟨hdrop, htake⟩ := removed_eq (q := q) hk (by omega)
      have hrep := hat.resetEmpty
      rw [hqueue, hdrop] at hrep
      rw [← htake]
      exact ⟨hrep, hout⟩
    · intro x e
      exact e.elim
    · obtain ⟨f, hat⟩ := h.pos (Nat.pos_of_ne_zero hzero)
      exact ⟨0, f, hat, h.queue, by simp, Nat.zero_le _, Nat.zero_le _, rfl⟩

theorem ndflush_rep (h : Rep clp cap q) (count : ℤ) :
    Rep (ndflush clp count) cap (q.drop count.toNat) := by
  have hlength := h.length
  unfold ndflush
  split_ifs with hall
  · rw [List.drop_of_length_le (by omega)]
    exact ⟨⟨h.alloc.cn, h.alloc.ce, h.alloc.cs, h.alloc.cq, Nat.zero_le _⟩, rfl,
      fun _ => ⟨rfl, rfl⟩, fun hpos => absurd hpos (by simp)⟩
  by_cases hzero : clp.c_cc = 0
  · have hq : q = [] := h.eq_nil_iff.mpr hzero
    have hstep : ndflushStep (clp, count) = .done clp := by
      simp [ndflushStep, hzero, h.resetEmpty_eq]
    subst hq
    simp only [Loop.run_done _ hstep]
    simpa using h
  · have hloop := Loop.run_returns ndflushStep
      (I := fun x => ∃ k f, At x.1 cap f ∧ x.1.queue = q.drop k ∧ x.2 = count - k ∧
        k ≤ count.toNat ∧ k ≤ q.length)
      (μ := fun x => x.1.c_cc) (Q := fun r => Rep r cap (q.drop count.toNat))
      ?_ ?_ ?_ (clp.c_cc + 1) (clp, count) ?_ (Nat.lt_succ_self _)
    · obtain ⟨r, n, hrun, -, hr⟩ := hloop
      simp only [hrun]
      exact hr
    · rintro ⟨x, c⟩ y ⟨k, f, hat, hqueue, hcount, hk, hlen⟩ hstep
      simp only at hat hqueue hcount
      simp only [ndflushStep] at hstep
      split_ifs at hstep with hcond
      obtain ⟨m, hcs⟩ := hat.cs
      obtain ⟨qm, hcq⟩ := hat.cq
      obtain ⟨hone, hle, hfit, hcc⟩ := frontRun_spec hat hcond.1 hcond.2
      have hkeep : ∀ i, i < f ∨ f + frontRun x c ≤ i → (m i, isset qm i) = x.cells i := by
        intro i _
        simp [cells, byte, quoted, hcs, hcq]
      obtain ⟨hat', hqueue', -⟩ := hat.take hqueue hfit hcc hkeep
      have hlen' := congrArg List.length hqueue'
      rw [hat'.queue_eq, Ring.length_view, List.length_drop] at hlen'
      have hlen₀ := congrArg List.length hqueue
      rw [hat.queue_eq, Ring.length_view, List.length_drop] at hlen₀
      simp only [hcs, hcq, hat.cf, offset, Option.getD_some] at hstep
      cases hstep
      constructor
      · refine ⟨k + frontRun x c, _, hat', hqueue', ?_, ?_, ?_⟩
        · push_cast
          omega
        · omega
        · omega
      · simp only
        omega
    · rintro ⟨x, c⟩ r ⟨k, f, hat, hqueue, hcount, hk, hlen⟩ hstep
      simp only at hat hqueue hcount
      simp only [ndflushStep] at hstep
      split_ifs at hstep with hcond
      cases hstep
      have hlen₀ := congrArg List.length hqueue
      rw [hat.queue_eq, Ring.length_view, List.length_drop] at hlen₀
      obtain ⟨hdrop, -⟩ := removed_eq (q := q) hk (by omega)
      have hrep := hat.resetEmpty
      rw [hqueue, hdrop] at hrep
      exact hrep
    · intro x e
      exact e.elim
    · obtain ⟨f, hat⟩ := h.pos (Nat.pos_of_ne_zero hzero)
      exact ⟨0, f, hat, h.queue, by simp, Nat.zero_le _, Nat.zero_le _⟩

theorem backRun_spec {f : ℕ} {count : ℤ} (h : At clp cap f) (hc : 0 < count)
    (hroom : clp.c_cc < cap) :
    1 ≤ backRun clp count ∧ (backRun clp count : ℤ) ≤ count ∧
      (f + clp.c_cc) % cap + backRun clp count ≤ cap ∧ clp.c_cc + backRun clp count ≤ cap := by
  have hlt := h.lt
  unfold backRun
  rw [h.cf, h.cl, h.ce]
  simp only [offset, Option.getD_some]
  rw [Ring.mod_of_lt_two (by omega)]
  split_ifs <;> omega

/-- The bytes `b_to_q` inserts, none of them quoted. -/
def unquoted (cp : Mem) (n : ℕ) : List (BitVec 8 × Bool) :=
  (Ring.segment cp 0 n).map fun b => (b, false)

theorem bToQ_rep (h : Rep clp cap q) (cp : Mem) (count : ℤ) :
    let n := min count.toNat (cap - q.length)
    Rep (bToQ cp count clp).1 cap (q ++ unquoted cp n) ∧
      (bToQ cp count clp).2 = if count ≤ 0 then 0 else count - n := by
  intro n
  have hlength := h.length
  have hcn := h.alloc.cn
  have hcc := h.alloc.cc
  by_cases hneg : count ≤ 0
  · have hn : n = 0 := by omega
    simp only [bToQ, hneg, if_true, hn]
    simpa [unquoted, Ring.segment] using h
  by_cases hfull : clp.c_cc = clp.c_cn
  · have hn : n = 0 := by omega
    simp only [bToQ, hneg, if_false, hfull, if_true, hn]
    simpa [unquoted, Ring.segment] using h
  obtain ⟨f₀, hat₀, hq₀, hsame⟩ := prepare_at h (by omega)
  have hloop := Loop.run_returns (bToQStep cp)
    (I := fun x => ∃ k f, At x.1 cap f ∧ x.1.queue = q ++ unquoted cp k ∧ x.2.1 = k ∧
      x.2.2 = count - k ∧ k ≤ count.toNat)
    (μ := fun x => x.2.2.toNat)
    (Q := fun r => Rep r.1 cap (q ++ unquoted cp n) ∧ r.2 = count - n)
    ?_ ?_ ?_ (count.toNat + 1) (clp.prepare, 0, count) ?_ (Nat.lt_succ_self _)
  · obtain ⟨r, i, hrun, -, hr⟩ := hloop
    simp only [bToQ, hneg, if_false, hfull, hrun]
    exact hr
  · rintro ⟨x, p, c⟩ y ⟨k, f, hat, hqueue, hp, hcount, hk⟩ hstep
    simp only at hat hqueue hp hcount
    subst hp
    simp only [bToQStep] at hstep
    split_ifs at hstep with hcond
    obtain ⟨m, hcs⟩ := hat.cs
    obtain ⟨qm, hcq⟩ := hat.cq
    obtain ⟨hone, hle, hfit, hroom⟩ := backRun_spec hat hcond.1 (by rw [← hat.cn]; exact hcond.2)
    set l := (f + x.c_cc) % cap with hl
    set r := backRun x c with hr
    have hout : ∀ i, i < l ∨ l + r ≤ i →
        (memcpy m l cp p r i, isset (clrbits qm l r) i) = x.cells i := by
      intro i hi
      have hne : ¬ (l ≤ i ∧ i < l + r) := by omega
      simp [cells, byte, quoted, hcs, hcq, memcpy, isset_clrbits, hne]
    obtain ⟨hat', hqueue'⟩ := hat.append hfit hroom hout
    have hseg : Ring.segment (fun i => (memcpy m l cp p r i, isset (clrbits qm l r) i)) l r =
        (Ring.segment cp p r).map fun b => (b, false) := by
      unfold Ring.segment
      rw [List.map_map]
      apply List.map_congr_left
      intro i hi
      have hi := List.mem_range.mp hi
      simp [memcpy, isset_clrbits, hi]
    simp only [hcs, hcq, hat.cl, offset, Option.getD_some, Option.map_some, ← hl] at hstep
    cases hstep
    constructor
    · refine ⟨p + r, f, hat', ?_, rfl, ?_, ?_⟩
      · rw [hqueue', hqueue, ← hl, hseg, unquoted, unquoted, Ring.segment_add, List.map_append,
          List.append_assoc, Nat.zero_add]
      · push_cast
        omega
      · omega
    · simp only
      omega
  · rintro ⟨x, p, c⟩ r ⟨k, f, hat, hqueue, hp, hcount, hk⟩ hstep
    simp only at hat hqueue hp hcount
    simp only [bToQStep] at hstep
    split_ifs at hstep with hcond
    cases hstep
    have hlen := congrArg List.length hqueue
    rw [hat.queue_eq, Ring.length_view, List.length_append, unquoted, List.length_map,
      Ring.length_segment] at hlen
    have hxn := hat.cn
    have hxc := hat.cc
    have hkn : k = n := by omega
    subst hkn
    have hrep := hat.rep (by omega)
    rw [hqueue] at hrep
    exact ⟨hrep, hcount⟩
  · intro x e
    exact e.elim
  · refine ⟨0, f₀, hat₀, ?_, rfl, by simp, Nat.zero_le _⟩
    rw [hq₀]
    simp [unquoted, Ring.segment]

/-- `firstc` and `nextc` visit the characters in order, whatever the static `cc` was. -/
theorem traverse_eq (h : Rep clp cap q) : traverse clp = q.map encode := by
  by_cases hzero : clp.c_cc = 0
  · have hq : q = [] := h.eq_nil_iff.mpr hzero
    simp [traverse, firstc, hzero, traverseStep, Loop.run, hq]
  obtain ⟨f, hat⟩ := h.pos (Nat.pos_of_ne_zero hzero)
  have hlt := hat.lt
  have hcc := hat.cc
  have hq := hat.queue_eq
  rw [h.queue] at hq
  -- the pointer is at the character of index `j`, and `cc` counts those from it on
  have hloop := Loop.run_returns (traverseStep clp)
    (I := fun x => (∃ j < clp.c_cc, x.1 = some ((f + j) % cap, clp.char ((f + j) % cap)) ∧
        x.2.1 = clp.c_cc - j ∧ x.2.2 = (Ring.view clp.cells cap f j).map encode) ∨
      (x.1 = none ∧ x.2.2 = q.map encode))
    (μ := fun x => if x.1.isNone then 0 else x.2.1)
    (Q := fun seen => seen = q.map encode)
    ?_ ?_ ?_ (clp.c_cc + 1) ((firstc clp).1, (firstc clp).2, []) ?_ ?_
  · obtain ⟨seen, n, hrun, -, hseen⟩ := hloop
    simp only [traverse, hrun]
    exact hseen
  · rintro ⟨ptr, cc, seen⟩ y hinv hstep
    simp only at hinv
    rcases hinv with ⟨j, hj, rfl, rfl, rfl⟩ | ⟨rfl, rfl⟩
    · simp only [traverseStep] at hstep
      -- at the first character the static counter is reset to the same value
      have hreset : (if clp.c_cf = some ((f + j) % cap) then clp.c_cc else clp.c_cc - j) =
          clp.c_cc - j := by
        split_ifs with hfirst
        · rw [hat.cf, Option.some_inj] at hfirst
          by_contra hne
          have hidx := Ring.index_ne (f := f) (by omega : 0 < j) (by omega : j < 0 + cap)
          rw [Nat.add_zero, Nat.mod_eq_of_lt hlt] at hidx
          exact hidx hfirst
        · rfl
      have hseen : (Ring.view clp.cells cap f j).map encode ++ [clp.char ((f + j) % cap)] =
          (Ring.view clp.cells cap f (j + 1)).map encode := by
        rw [Ring.view_add, List.map_append]
        simp only [Ring.view, List.range_one, List.map_cons, List.map_nil, Nat.add_zero,
          Nat.mod_mod]
        rfl
      have hnz : clp.c_cc - j ≠ 0 := by omega
      by_cases hend : clp.c_cc - j - 1 = 0
      · have hnext : nextc clp ((f + j) % cap) (clp.c_cc - j) = (none, clp.c_cc - j - 1) := by
          simp only [nextc, hreset, hnz, if_false, hend, if_true]
        rw [hnext, hseen] at hstep
        cases hstep
        constructor
        · right
          rw [hq]
          have hjc : j + 1 = clp.c_cc := by omega
          simp [hjc]
        · simp
          omega
      · have hwrap : clp.wrap ((f + j) % cap + 1) = (f + (j + 1)) % cap := by
          have hle : (f + j) % cap + 1 ≤ cap := Nat.mod_lt _ (by omega)
          rw [wrap_eq hat.toAlloc hle, Nat.mod_add_mod, Nat.add_assoc]
        have hnext : nextc clp ((f + j) % cap) (clp.c_cc - j) =
            (some ((f + (j + 1)) % cap, clp.char ((f + (j + 1)) % cap)), clp.c_cc - j - 1) := by
          simp only [nextc, hreset, hnz, if_false, hend, hwrap]
        rw [hnext, hseen] at hstep
        cases hstep
        constructor
        · left
          exact ⟨j + 1, by omega, rfl, Nat.sub_sub .., rfl⟩
        · simp
          omega
    · simp [traverseStep] at hstep
  · rintro ⟨ptr, cc, seen⟩ r hinv hstep
    simp only at hinv
    rcases hinv with ⟨j, hj, rfl, rfl, rfl⟩ | ⟨rfl, rfl⟩
    · simp [traverseStep] at hstep
    · simp only [traverseStep] at hstep
      cases hstep
      rfl
  · intro x e
    exact e.elim
  · left
    refine ⟨0, Nat.pos_of_ne_zero hzero, ?_, ?_, rfl⟩
    · simp [firstc, hzero, hat.cf, offset, Nat.mod_eq_of_lt hlt]
    · simp [firstc, hzero]
  · simp [firstc, hzero]

theorem catq_rep {src dst : Clist} {capS capD : ℕ} {qs qd : List (BitVec 8 × Bool)}
    (hs : Rep src capS qs) (hd : Rep dst capD qd) :
    Rep (catq src dst).1 capS [] ∧ Rep (catq src dst).2 capD ((qd ++ qs).take capD) := by
  have hlenS := hs.length
  have hlenD := hd.length
  have hccD := hd.alloc.cc
  unfold catq
  split_ifs with hempty hswap
  · have hq : qs = [] := hs.eq_nil_iff.mpr hempty
    subst hq
    rw [List.append_nil, List.take_of_length_le (by omega)]
    exact ⟨hs, hd⟩
  · -- the structures have the same size, so each fits the other's place
    obtain ⟨hdst, hcn⟩ := hswap
    have hq : qd = [] := hd.eq_nil_iff.mpr hdst
    have hcap : capS = capD := by
      rw [← hs.alloc.cn, hcn, hd.alloc.cn]
    have hccS := hs.alloc.cc
    subst hq hcap
    rw [List.nil_append, List.take_of_length_le (by omega)]
    exact ⟨hd, hs⟩
  · have hloop := Loop.run_returns catqStep
      (I := fun x => ∃ qs' qd', Rep x.1 capS qs' ∧ Rep x.2 capD qd' ∧
        (qd' ++ qs').take capD = (qd ++ qs).take capD)
      (μ := fun x => x.1.c_cc)
      (Q := fun r => Rep r.1 capS [] ∧ Rep r.2 capD ((qd ++ qs).take capD))
      ?_ ?_ ?_ (src.c_cc + 1) (src, dst) ⟨qs, qd, hs, hd, rfl⟩ (Nat.lt_succ_self _)
    · obtain ⟨r, n, hrun, -, hr⟩ := hloop
      simp only [hrun]
      exact hr
    · rintro ⟨x, y⟩ z ⟨qs', qd', hx, hy, htake⟩ hstep
      simp only at hx hy
      obtain ⟨hx', hc⟩ := getc_rep hx
      simp only [catqStep] at hstep
      cases qs' with
      | nil =>
        rw [List.head?_nil, Option.map_none, Option.getD_none] at hc
        simp [hc] at hstep
      | cons b qs' =>
        rw [List.head?_cons, Option.map_some, Option.getD_some] at hc
        rw [hc, if_pos (encode_ne b)] at hstep
        cases hstep
        have hput := putc_rep hy (encode b)
        rw [decode_encode] at hput
        constructor
        · split_ifs at hput with hfull
          · refine ⟨qs', qd', hx', ?_, ?_⟩
            · rw [hput]
              exact hy
            · rw [← htake, List.take_append_of_le_length (by omega),
                List.take_append_of_le_length (by omega)]
          · refine ⟨qs', qd' ++ [b], hx', hput.1, ?_⟩
            rw [← htake, List.append_assoc]
            rfl
        · simp only
          rw [← hx'.length, ← hx.length]
          simp
    · rintro ⟨x, y⟩ r ⟨qs', qd', hx, hy, htake⟩ hstep
      simp only at hx hy
      obtain ⟨hx', hc⟩ := getc_rep hx
      simp only [catqStep] at hstep
      cases qs' with
      | nil =>
        rw [List.head?_nil, Option.map_none, Option.getD_none] at hc
        simp only [hc, ne_eq, not_true_eq_false, if_false] at hstep
        cases hstep
        have hlen := hy.length
        have hcc := hy.alloc.cc
        rw [List.append_nil, List.take_of_length_le (by omega)] at htake
        rw [← htake]
        exact ⟨hx', hy⟩
      | cons b qs' =>
        rw [List.head?_cons, Option.map_some, Option.getD_some] at hc
        rw [hc, if_pos (encode_ne b)] at hstep
        cases hstep
    · intro x e
      exact e.elim

section Runs

variable {ι : Type*} [DecidableEq ι]

/-- The operations on a family of clists. -/
inductive Op (ι : Type*) where
  | putc (i : ι) (c : BitVec 32)
  | getc (i : ι)
  | bToQ (i : ι) (cp : Mem) (count : ℤ)
  | qToB (i : ι) (count : ℤ)
  | ndflush (i : ι) (count : ℤ)
  | unputc (i : ι)
  | traverse (i : ι)
  | catq (src dst : ι) (h : src ≠ dst)

/-- What an operation gives its caller. -/
inductive Out where
  | int (n : ℤ)
  | char (c : BitVec 32)
  | bytes (b : List (BitVec 8))
  | chars (c : List (BitVec 32))
  | nothing

def step (s : ι → Clist) : Op ι → (ι → Clist) × Out
  | .putc i c => (Function.update s i (putc c (s i)).1, .int (putc c (s i)).2)
  | .getc i => (Function.update s i (getc (s i)).1, .char (getc (s i)).2)
  | .bToQ i cp count =>
    (Function.update s i (bToQ cp count (s i)).1, .int (bToQ cp count (s i)).2)
  | .qToB i count => (Function.update s i (qToB (s i) count).1, .bytes (qToB (s i) count).2)
  | .ndflush i count => (Function.update s i (ndflush (s i) count), .nothing)
  | .unputc i => (Function.update s i (unputc (s i)).1, .char (unputc (s i)).2)
  | .traverse i => (s, .chars (traverse (s i)))
  | .catq src dst _ =>
    (Function.update (Function.update s src (catq (s src) (s dst)).1) dst
      (catq (s src) (s dst)).2, .nothing)

def run (s : ι → Clist) : List (Op ι) → (ι → Clist) × List Out
  | [] => (s, [])
  | op :: ops => ((run (step s op).1 ops).1, (step s op).2 :: (run (step s op).1 ops).2)

/-- The same operations on bounded queues of characters and quote marks. -/
def queueStep (cap : ι → ℕ) (q : ι → List (BitVec 8 × Bool)) :
    Op ι → (ι → List (BitVec 8 × Bool)) × Out
  | .putc i c =>
    if (q i).length = cap i then (q, .int (-1))
    else (Function.update q i (q i ++ [decode c]), .int 0)
  | .getc i => (Function.update q i (q i).tail, .char (((q i).head?.map encode).getD (-1#32)))
  | .bToQ i cp count =>
    let n := min count.toNat (cap i - (q i).length)
    (Function.update q i (q i ++ unquoted cp n), .int (if count ≤ 0 then 0 else count - n))
  | .qToB i count =>
    (Function.update q i ((q i).drop count.toNat), .bytes (((q i).take count.toNat).map Prod.fst))
  | .ndflush i count => (Function.update q i ((q i).drop count.toNat), .nothing)
  | .unputc i =>
    (Function.update q i (q i).dropLast, .char (((q i).getLast?.map encode).getD (-1#32)))
  | .traverse i => (q, .chars ((q i).map encode))
  | .catq src dst _ =>
    (Function.update (Function.update q src []) dst ((q dst ++ q src).take (cap dst)), .nothing)

def queueRun (cap : ι → ℕ) (q : ι → List (BitVec 8 × Bool)) :
    List (Op ι) → (ι → List (BitVec 8 × Bool)) × List Out
  | [] => (q, [])
  | op :: ops =>
    ((queueRun cap (queueStep cap q op).1 ops).1,
      (queueStep cap q op).2 :: (queueRun cap (queueStep cap q op).1 ops).2)

def Simulates (cap : ι → ℕ) (s : ι → Clist) (q : ι → List (BitVec 8 × Bool)) : Prop :=
  ∀ i, Rep (s i) (cap i) (q i)

theorem Simulates.update {cap : ι → ℕ} {s : ι → Clist} {q : ι → List (BitVec 8 × Bool)}
    (h : Simulates cap s q) {i : ι} {clp : Clist} {l : List (BitVec 8 × Bool)}
    (hi : Rep clp (cap i) l) : Simulates cap (Function.update s i clp) (Function.update q i l) := by
  intro j
  by_cases hij : j = i
  · subst hij
    rw [Function.update_self, Function.update_self]
    exact hi
  · rw [Function.update_of_ne hij, Function.update_of_ne hij]
    exact h j

theorem step_simulates {cap : ι → ℕ} {s : ι → Clist} {q : ι → List (BitVec 8 × Bool)}
    (h : Simulates cap s q) (op : Op ι) :
    Simulates cap (step s op).1 (queueStep cap q op).1 ∧
      (step s op).2 = (queueStep cap q op).2 := by
  cases op with
  | putc i c =>
    have hput := putc_rep (h i) c
    simp only [step, queueStep]
    split_ifs at hput ⊢
    · rw [hput, Function.update_eq_self]
      exact ⟨h, rfl⟩
    · rw [hput.2]
      exact ⟨h.update hput.1, rfl⟩
  | getc i =>
    obtain ⟨hrep, hout⟩ := getc_rep (h i)
    simp only [step, queueStep, hout]
    exact ⟨h.update hrep, trivial⟩
  | bToQ i cp count =>
    obtain ⟨hrep, hout⟩ := bToQ_rep (h i) cp count
    simp only [step, queueStep, hout]
    exact ⟨h.update hrep, trivial⟩
  | qToB i count =>
    obtain ⟨hrep, hout⟩ := qToB_rep (h i) count
    simp only [step, queueStep, hout]
    exact ⟨h.update hrep, trivial⟩
  | ndflush i count => exact ⟨h.update (ndflush_rep (h i) count), rfl⟩
  | unputc i =>
    obtain ⟨hrep, hout⟩ := unputc_rep (h i)
    simp only [step, queueStep, hout]
    exact ⟨h.update hrep, trivial⟩
  | traverse i =>
    simp only [step, queueStep, traverse_eq (h i)]
    exact ⟨h, trivial⟩
  | catq src dst hne =>
    obtain ⟨hsrc, hdst⟩ := catq_rep (h src) (h dst)
    exact ⟨(h.update hsrc).update hdst, rfl⟩

theorem run_simulates {cap : ι → ℕ} {s : ι → Clist} {q : ι → List (BitVec 8 × Bool)}
    (h : Simulates cap s q) (ops : List (Op ι)) :
    Simulates cap (run s ops).1 (queueRun cap q ops).1 ∧ (run s ops).2 = (queueRun cap q ops).2 := by
  induction ops generalizing s q with
  | nil => exact ⟨h, rfl⟩
  | cons op ops ih =>
    obtain ⟨hstep, hout⟩ := step_simulates h op
    obtain ⟨hrun, houts⟩ := ih hstep
    constructor
    · exact hrun
    · simp only [run, queueRun, hout, houts]

/-- Clists set up by `clalloc` with quoting behave as bounded queues in every run: they
hold the same characters with the same quote marks and give their callers the same. -/
theorem clist_runs (size : ι → ℕ) (ops : List (Op ι)) :
    (∀ i, (((run (fun i => clalloc (size i) true) ops).1 i).queue =
        (queueRun size (fun _ => []) ops).1 i) ∧
      ((run (fun i => clalloc (size i) true) ops).1 i).c_cn = size i) ∧
      (run (fun i => clalloc (size i) true) ops).2 = (queueRun size (fun _ => []) ops).2 := by
  have hinit : Simulates size (fun i => clalloc (size i) true) fun _ => [] :=
    fun i => rep_clalloc (size i)
  obtain ⟨hrun, hout⟩ := run_simulates hinit ops
  constructor
  · intro i
    exact ⟨(hrun i).queue, (hrun i).alloc.cn⟩
  · exact hout

end Runs

end OpenbsdKernel.Tty
