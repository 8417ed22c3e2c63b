import OpenbsdKernel.Kern.Sockbuf.Append

/-!
# Dropping data keeps the counters

`sbdrop` and `sbdroprecord` free mbufs from the front of the queue, so the last mbuf stays
where it is unless the queue becomes empty. `sbflush` calls `sbdrop` with all there is until
no mbuf is left, which takes at most one round for each record.
-/
namespace OpenbsdKernel.UipcSocket2

namespace Sockbuf

open Queue

variable {sb sb' : Sockbuf}

/-- Only the counters differ. -/
structure SameQueue (sb sb' : Sockbuf) : Prop where
  records : sb'.records = sb.records
  mbtail : sb'.sb_mbtail = sb.sb_mbtail
  lastrecord : sb'.sb_lastrecord = sb.sb_lastrecord
  lock : sb'.sb_lock = sb.sb_lock

theorem SameQueue.refl (sb : Sockbuf) : SameQueue sb sb := ⟨rfl, rfl, rfl, rfl⟩

theorem SameQueue.trans {sb'' : Sockbuf} (h : SameQueue sb sb') (h' : SameQueue sb' sb'') :
    SameQueue sb sb'' :=
  ⟨h'.records.trans h.records, h'.mbtail.trans h.mbtail, h'.lastrecord.trans h.lastrecord,
    h'.lock.trans h.lock⟩

theorem sbfree_same (sb : Sockbuf) (m : Mbuf) : SameQueue sb (sb.sbfree m) := ⟨rfl, rfl, rfl, rfl⟩

theorem counters_sbfree {m : Mbuf} {c : ℕ × ℕ × ℕ} (h : sb.counters = m.usage + c) :
    (sb.sbfree m).counters = c := by
  obtain ⟨c1, c2, c3⟩ := c
  obtain ⟨h1, h2, h3⟩ : sb.sb_cc = m.m_len + c1 ∧ sb.sb_datacc = m.dataLen + c2 ∧
    sb.sb_mbcnt = m.space + c3 := by simpa [counters, Mbuf.usage] using h
  simp [counters, sbfree, h1, h2, h3]

theorem sbtrim_same (sb : Sockbuf) (m : Mbuf) (len : ℕ) : SameQueue sb (sb.sbtrim m len) :=
  ⟨rfl, rfl, rfl, rfl⟩

theorem counters_sbtrim {m : Mbuf} {c : ℕ × ℕ × ℕ} {len : ℕ} (hl : len ≤ m.m_len)
    (h : sb.counters = m.usage + c) : (sb.sbtrim m len).counters = (m.trim len).usage + c := by
  obtain ⟨c1, c2, c3⟩ := c
  obtain ⟨h1, h2, h3⟩ : sb.sb_cc = m.m_len + c1 ∧ sb.sb_datacc = m.dataLen + c2 ∧
    sb.sb_mbcnt = m.space + c3 := by simpa [counters, Mbuf.usage] using h
  have hd : (m.trim len).isData = m.isData := rfl
  have ht : (m.trim len).m_len = m.m_len - len := rfl
  have hs : (m.trim len).space = m.space := rfl
  simp only [counters, sbtrim, Mbuf.usage, Mbuf.dataLen, hd, ht, hs, Prod.mk_add_mk, Prod.mk.injEq]
  rw [Mbuf.dataLen] at h2
  refine ⟨by omega, ?_, h3⟩
  split_ifs at h2 ⊢ <;> omega

@[simp] theorem lenSum_nil : lenSum [] = 0 := rfl

@[simp] theorem lenSum_cons (m : Mbuf) (l : List Mbuf) : lenSum (m :: l) = m.m_len + lenSum l := by
  simp [lenSum]

@[simp] theorem lenSum_append (l l' : List Mbuf) : lenSum (l ++ l') = lenSum l + lenSum l' := by
  simp [lenSum]

theorem usage_fst (l : List Mbuf) : (usage l).1 = lenSum l := by
  induction l with
  | nil => rfl
  | cons m l ih => simp [Mbuf.usage, ih]

/-- What a loop leaves of the mbufs `r`: the end `r'` of them, its first mbuf perhaps with
fewer bytes, and `len` bytes less, of which `len'` are still to come. `c` is what the rest
of the queue counts for. -/
structure Trimmed (sb : Sockbuf) (r : List Mbuf) (c : ℕ × ℕ × ℕ) (len len' : ℕ)
    (r' : List Mbuf) (sb' : Sockbuf) : Prop where
  counters : sb'.counters = usage r' + c
  suffix : addrs r' <:+ addrs r
  bytes : lenSum r' + len = lenSum r + len'
  same : SameQueue sb sb'

theorem Trimmed.cons {r r' : List Mbuf} {m : Mbuf} {c : ℕ × ℕ × ℕ} {len len' : ℕ}
    (h : Trimmed (sb.sbfree m) r c (len - m.m_len) len' r' sb') (hm : m.m_len ≤ len) :
    Trimmed sb (m :: r) c len len' r' sb' where
  counters := h.counters
  suffix := h.suffix.trans (List.suffix_cons ..)
  bytes := by
    have hb := h.bytes
    rw [lenSum_cons]
    omega
  same := (sbfree_same sb m).trans h.same

theorem dropMbufs_spec (r : List Mbuf) : ∀ {sb : Sockbuf} {c : ℕ × ℕ × ℕ} (len : ℕ),
    sb.counters = usage r + c → ∃ len' r' sb', dropMbufs len r sb = (len', r', sb') ∧
      Trimmed sb r c len len' r' sb' ∧ (len' ≠ 0 → r' = []) := by
  induction r with
  | nil =>
    intro sb c len h
    exact ⟨len, [], sb, rfl, ⟨h, List.suffix_refl _, rfl, .refl sb⟩, fun _ => rfl⟩
  | cons m r ih =>
    intro sb c len h
    rw [dropMbufs]
    split_ifs with h0 hlt
    · refine ⟨0, m :: r, sb, rfl, ⟨h, List.suffix_refl _, ?_, .refl sb⟩, fun h => absurd rfl h⟩
      rw [h0]
    · refine ⟨0, m.trim len :: r, _, rfl, ⟨?_, ?_, ?_, sbtrim_same ..⟩,
        fun h => absurd rfl h⟩
      · rw [usage_cons, add_assoc]
        exact counters_sbtrim (by omega) (by rw [h, usage_cons, add_assoc])
      · simp
      · simp only [lenSum_cons, Mbuf.trim]
        omega
    · have hfree : (sb.sbfree m).counters = usage r + c :=
        counters_sbfree (by rw [h, usage_cons, add_assoc])
      obtain ⟨len', r', sb', hs, ht, hl⟩ := ih (len - m.m_len) hfree
      exact ⟨len', r', sb', hs, ht.cons (by omega), hl⟩

/-- The first loop of `sbdrop` ends inside some record, or there are too few bytes. -/
theorem dropRecords_spec (next : Queue) : ∀ {sb : Sockbuf} (len : ℕ) (m : List Mbuf),
    sb.counters = usage m + usage next.flatten →
    (∃ m' next' sb' A r, dropRecords next len m sb = .ok (m', next', sb') ∧
      m :: next = A ++ r :: next' ∧ addrs m' <:+ addrs r ∧ SameQueue sb sb' ∧
      sb'.counters = usage m' + usage next'.flatten ∧
      lenSum m' + lenSum next'.flatten + len = lenSum m + lenSum next.flatten) ∨
    (dropRecords next len m sb = .error (.panic "sbdrop") ∧
      lenSum m + lenSum next.flatten < len) := by
  induction next with
  | nil =>
    intro sb len m h
    obtain ⟨len', r', sb', hs, ht, hl⟩ := dropMbufs_spec m len h
    rw [dropRecords, hs]
    have hb := ht.bytes
    cases len' with
    | zero => exact .inl ⟨r', [], sb', [], m, rfl, rfl, ht.suffix, ht.same, ht.counters, by simpa using hb⟩
    | succ len' =>
      rw [hl (by omega)] at hb
      refine .inr ⟨rfl, ?_⟩
      simp only [lenSum_nil, List.flatten_nil] at hb ⊢
      omega
  | cons p next ih =>
    intro sb len m h
    obtain ⟨len', r', sb', hs, ht, hl⟩ := dropMbufs_spec m len h
    rw [dropRecords, hs]
    have hb := ht.bytes
    cases len' with
    | zero =>
      refine .inl ⟨r', p :: next, sb', [], m, rfl, rfl, ht.suffix, ht.same, ht.counters, ?_⟩
      omega
    | succ len' =>
      have hr := hl (by omega)
      have hc := ht.counters
      rw [hr] at hb hc
      rw [usage_nil, zero_add, List.flatten_cons, usage_append] at hc
      simp only [lenSum_nil] at hb
      simp only [List.flatten_cons, lenSum_append]
      rcases ih (len' + 1) p hc with ⟨m', next', sb2, A, r, hs2, hq, hsuf, hsame, hc2, hb2⟩ | ⟨hs2, hlt⟩
      · refine .inl ⟨m', next', sb2, m :: A, r, hs2, by rw [hq]; rfl, hsuf, ht.same.trans hsame,
          hc2, ?_⟩
        omega
      · exact .inr ⟨hs2, by omega⟩

theorem dropEmpty_spec (r : List Mbuf) : ∀ {sb : Sockbuf} {c : ℕ × ℕ × ℕ},
    sb.counters = usage r + c → ∃ r' sb', dropEmpty r sb = (r', sb') ∧
      Trimmed sb r c 0 0 r' sb' ∧ (lenSum r = 0 → r' = []) := by
  induction r with
  | nil =>
    intro sb c h
    exact ⟨[], sb, rfl, ⟨h, List.suffix_refl _, rfl, .refl sb⟩, fun _ => rfl⟩
  | cons m r ih =>
    intro sb c h
    rw [dropEmpty]
    split_ifs with h0
    · have hfree : (sb.sbfree m).counters = usage r + c :=
        counters_sbfree (by rw [h, usage_cons, add_assoc])
      obtain ⟨r', sb', hs, ht, hl⟩ := ih hfree
      refine ⟨r', sb', hs, Trimmed.cons (by simpa [h0] using ht) (by omega), fun hz => hl ?_⟩
      rw [lenSum_cons] at hz
      omega
    · refine ⟨m :: r, sb, rfl, ⟨h, List.suffix_refl _, rfl, .refl sb⟩, fun hz => ?_⟩
      rw [lenSum_cons] at hz
      omega

/-- The queue `q` without its front: the records `A` before `r` are gone and of `r` only
`r'` is left. -/
structure Behind (q A : Queue) (r r' : List Mbuf) (next q' : Queue) : Prop where
  eq : q = A ++ r :: next
  suffix : addrs r' <:+ addrs r
  left : q' = if r' = [] then next else r' :: next

namespace Behind

variable {q A next q' : Queue} {r r' : List Mbuf}

theorem flatten (h : Behind q A r r' next q') : q'.flatten = r' ++ next.flatten := by
  rw [h.left]
  split_ifs with hr
  · simp [hr]
  · rfl

theorem nodup (h : Behind q A r r' next q') (hn : (addrs q.flatten).Nodup) :
    (addrs q'.flatten).Nodup := by
  have hsub : (addrs q'.flatten).Sublist (addrs q.flatten) := by
    rw [h.flatten, h.eq]
    simp only [List.flatten_append, List.flatten_cons, addrs_append]
    exact (h.suffix.sublist.append_right _).trans (List.sublist_append_right ..)
  exact hsub.nodup hn

theorem nonempty (h : Behind q A r r' next q') (hq : [] ∉ q) : [] ∉ q' := by
  rw [h.eq] at hq
  rw [h.left]
  split_ifs with hr
  · simp_all
  · simp only [List.mem_cons, not_or]
    exact ⟨Ne.symm hr, by simp_all⟩

theorem lastMbuf (h : Behind q A r r' next q') (hq : q' ≠ []) : q'.lastMbuf = q.lastMbuf := by
  rw [h.eq, lastMbuf_middle]
  have hleft := h.left
  split_ifs at hleft with hr
  · rw [if_neg (hleft ▸ hq), hleft]
  · rw [hleft, ← List.nil_append (r' :: next), lastMbuf_middle]
    obtain ⟨l, hl⟩ := h.suffix
    have hlast : (addrs r).getLast? = (addrs r').getLast? := by
      rw [← hl, List.getLast?_append_of_ne_nil _ (by simpa [addrs] using hr)]
    rw [← List.getLast?_map, ← List.getLast?_map]
    simp only [addrs] at hlast
    rw [hlast]

/-- As long as two records are left, the last of them was not touched. -/
theorem lastHead (h : Behind q A r r' next q') (hq : 2 ≤ q'.length) : q'.lastHead = q.lastHead := by
  have hnext : next ≠ [] := by
    rintro rfl
    have hl := congrArg List.length h.left
    split_ifs at hl <;> simp only [List.length_nil, List.length_cons] at hl <;> omega
  rw [h.eq, lastHead_middle, if_neg hnext]
  have hleft := h.left
  split_ifs at hleft
  · rw [hleft]
  · rw [hleft, ← List.nil_append (r' :: next), lastHead_middle, if_neg hnext]

end Behind

theorem Inv.dropFixup {sb2 : Sockbuf} {q A next : Queue} {r r' : List Mbuf} (hi : sb.Inv)
    (hb : Behind sb.records A r r' next q) (hs : SameQueue sb sb2)
    (hc : sb2.counters = usage q.flatten) :
    (sb2.dropFixup q).Inv ∧ (sb.HasTail → (sb2.dropFixup q).HasTail) := by
  have hnd := hb.nodup hi.nodup
  have hne := hb.nonempty hi.nonempty
  have hk := hs.lock.trans hi.lock
  rcases q with _ | ⟨p, _ | ⟨p', q⟩⟩
  · exact ⟨⟨hne, hnd, hc, rfl, fun _ => rfl, hk⟩, fun _ => rfl⟩
  · refine ⟨⟨hne, hnd, hc, rfl, fun h => absurd h (by simp [Sockbuf.dropFixup]), hk⟩, fun ht => ?_⟩
    exact (hs.mbtail.trans ht).trans (hb.lastMbuf (by simp)).symm
  · refine ⟨⟨hne, hnd, hc, ?_, fun h => absurd h (by simp [Sockbuf.dropFixup]), hk⟩, fun ht => ?_⟩
    · exact (hs.lastrecord.trans hi.lastrecord).trans (hb.lastHead (by simp)).symm
    · exact (hs.mbtail.trans ht).trans (hb.lastMbuf (by simp)).symm

theorem records_dropFixup (sb : Sockbuf) (q : Queue) : (sb.dropFixup q).records = q := by
  rcases q with _ | ⟨p, _ | ⟨p', q⟩⟩ <;> rfl

theorem Inv.cc (hi : sb.Inv) : sb.sb_cc = lenSum sb.records.flatten := by
  rw [← usage_fst, ← hi.counters]
  rfl

theorem sbdrop_nil (hi : sb.Inv) (hq : sb.records = []) (len : ℤ) :
    (∃ sb', sb.sbdrop len = .ok sb' ∧ sb'.Inv ∧ sb'.HasTail ∧ sb'.sb_cc + len.toNat = sb.sb_cc) ∨
    (sb.sbdrop len = .error (.panic "sbdrop") ∧ sb.sb_cc < len.toNat) := by
  have hcc : sb.sb_cc = 0 := by simp [hi.cc, hq]
  cases hl : len.toNat with
  | zero =>
    refine .inl ⟨sb.dropFixup [], ?_, ?_, rfl, rfl⟩
    · simp [sbdrop, hq, hl, dropRecords, dropMbufs, dropEmpty, bind, Except.bind]
    · exact ⟨by simp [Sockbuf.dropFixup], by simp [Sockbuf.dropFixup],
        hi.counters.trans (by rw [hq]; rfl), rfl, fun _ => rfl, hi.lock⟩
  | succ k =>
    refine .inr ⟨?_, by omega⟩
    simp [sbdrop, hq, hl, dropRecords, dropMbufs, bind, Except.bind]

theorem sbdrop_spec (hi : sb.Inv) (len : ℤ) :
    (∃ sb', sb.sbdrop len = .ok sb' ∧ sb'.Inv ∧ (sb.HasTail → sb'.HasTail) ∧
      sb'.sb_cc + len.toNat = sb.sb_cc ∧
      (len.toNat = sb.sb_cc → sb.records ≠ [] → sb'.records.length < sb.records.length)) ∨
    (sb.sbdrop len = .error (.panic "sbdrop") ∧ sb.sb_cc < len.toNat) := by
  cases hq : sb.records with
  | nil =>
    rcases sbdrop_nil hi hq len with ⟨sb', hs, hi', ht, hcc⟩ | h
    · exact .inl ⟨sb', hs, hi', fun _ => ht, hcc, fun _ h => absurd rfl h⟩
    · exact .inr h
  | cons m next =>
    have hcnt : sb.counters = usage m + usage next.flatten := by simp [hi.counters, hq]
    have hcc : sb.sb_cc = lenSum m + lenSum next.flatten := by simp [hi.cc, hq]
    rcases dropRecords_spec next len.toNat m hcnt with
      ⟨m1, next1, sb1, A, r, hs1, hsplit, hsuf, hsame1, hc1, hb⟩ | ⟨hs1, hlt⟩
    · obtain ⟨m2, sb2, hs2, ht2, hz⟩ := dropEmpty_spec m1 hc1
      have hbehind : Behind sb.records A r m2 next1 (if m2 = [] then next1 else m2 :: next1) :=
        ⟨hq.trans hsplit, ht2.suffix.trans hsuf, rfl⟩
      obtain ⟨hi', htail⟩ := hi.dropFixup hbehind (hsame1.trans ht2.same) (by
        rw [hbehind.flatten, usage_append, ht2.counters])
      refine .inl ⟨_, ?_, hi', htail, ?_, fun hlen _ => ?_⟩
      · simp only [sbdrop, hq, List.tail_cons, List.head?_cons, Option.getD_some, hs1, bind,
          Except.bind, hs2]
      · have hb2 := ht2.bytes
        rw [hi'.cc, records_dropFixup, hbehind.flatten, lenSum_append]
        omega
      -- everything was dropped, so the record the loop ended in is gone as well
      have hm1 : lenSum m1 = 0 := by omega
      rw [records_dropFixup, if_pos (hz hm1), hsplit]
      simp only [List.length_append, List.length_cons]
      omega
    · refine .inr ⟨?_, by omega⟩
      simp only [sbdrop, hq, List.tail_cons, List.head?_cons, Option.getD_some, hs1, bind,
        Except.bind]

theorem foldl_sbfree (r : List Mbuf) : ∀ {sb : Sockbuf} {c : ℕ × ℕ × ℕ},
    sb.counters = usage r + c → (r.foldl sbfree sb).counters = c ∧ SameQueue sb (r.foldl sbfree sb) := by
  induction r with
  | nil => intro sb c h; exact ⟨by simpa using h, .refl sb⟩
  | cons m r ih =>
    intro sb c h
    have hfree : (sb.sbfree m).counters = usage r + c :=
      counters_sbfree (by rw [h, usage_cons, add_assoc])
    obtain ⟨hc, hs⟩ := ih hfree
    exact ⟨hc, (sbfree_same sb m).trans hs⟩

theorem sbdroprecord_spec (hi : sb.Inv) :
    sb.sbdroprecord.Inv ∧ (sb.HasTail → sb.sbdroprecord.HasTail) := by
  rw [sbdroprecord]
  cases hq : sb.records with
  | nil =>
    have hsame : sb.emptyFixup = sb := by
      have hl : sb.sb_lastrecord = none := by rw [hi.lastrecord, hq]; rfl
      have ht := hi.mbtail hq
      rw [emptyFixup, if_pos hq]
      cases sb
      simp only at ht hl
      rw [ht, hl]
    dsimp only
    rw [hsame]
    exact ⟨hi, id⟩
  | cons r next =>
    have hcnt : sb.counters = usage r + usage next.flatten := by simp [hi.counters, hq]
    obtain ⟨hc, hs⟩ := foldl_sbfree r hcnt
    have hb : Behind sb.records [] r [] next next :=
      ⟨hq, List.nil_suffix, by simp⟩
    have hnd := hb.nodup hi.nodup
    have hne := hb.nonempty hi.nonempty
    have hk := hs.lock.trans hi.lock
    by_cases hn : next = []
    · subst hn
      exact ⟨⟨hne, hnd, hc, rfl, fun _ => rfl, hk⟩, fun _ => rfl⟩
    · have hfix : ((r.foldl sbfree sb).setRecords next).emptyFixup =
          (r.foldl sbfree sb).setRecords next := if_neg hn
      dsimp only
      rw [hfix]
      refine ⟨⟨hne, hnd, hc, ?_, fun h => absurd h hn, hk⟩, fun ht => ?_⟩
      · have hl : sb.records.lastHead = lastHead next := by
          rw [hq, ← List.singleton_append, lastHead_append hn]
        exact (hs.lastrecord.trans hi.lastrecord).trans hl
      · exact (hs.mbtail.trans ht).trans (hb.lastMbuf hn).symm

theorem Inv.records_ne_nil (hi : sb.Inv) (h : sb.sb_mbcnt ≠ 0) : sb.records ≠ [] := by
  intro hq
  have hc := hi.counters
  rw [hq] at hc
  exact h (congrArg (fun c => c.2.2) hc)

theorem Inv.eq_nil_of_mbcnt (hi : sb.Inv) (h : sb.sb_mbcnt = 0) : sb.records = [] := by
  cases hq : sb.records with
  | nil => rfl
  | cons r next =>
    obtain ⟨R, n, rfl⟩ := hi.concat (r := r) (by simp [hq])
    have hc : sb.sb_mbcnt = (usage sb.records.flatten).2.2 := congrArg (fun c => c.2.2) hi.counters
    rw [hq, h] at hc
    simp [Mbuf.usage, Mbuf.space, MSIZE] at hc
    omega

/-- All that is in the buffer is gone. -/
def Cleared (sb : Sockbuf) : Prop :=
  sb.records = [] ∧ sb.sb_cc = 0 ∧ sb.sb_datacc = 0 ∧ sb.sb_mbcnt = 0 ∧ sb.sb_mbtail = none ∧
    sb.sb_lastrecord = none

theorem Inv.cleared (hi : sb.Inv) (hq : sb.records = []) : sb.Cleared := by
  have hc := hi.counters
  rw [hq] at hc
  refine ⟨hq, congrArg (fun c => c.1) hc, congrArg (fun c => c.2.1) hc, congrArg (fun c => c.2.2) hc,
    hi.mbtail hq, ?_⟩
  rw [hi.lastrecord, hq]
  rfl

theorem cint_of_lt {k : ℕ} (h : k < 2 ^ 31) : cint k = k := by
  rw [cint, Int.bmod_def]
  omega

theorem flushStep_next (hi : sb.Inv) (hlt : sb.sb_cc < 2 ^ 31) (h : sb.sb_mbcnt ≠ 0) :
    ∃ sb', sb.flushStep = .next sb' ∧ sb'.Inv ∧ sb'.sb_cc < 2 ^ 31 ∧
      sb'.records.length < sb.records.length := by
  have hlen : (cint sb.sb_cc).toNat = sb.sb_cc := by rw [cint_of_lt hlt, Int.toNat_natCast]
  rcases sbdrop_spec hi (cint sb.sb_cc) with ⟨sb', hs, hi', -, hcc, hshort⟩ | ⟨-, hbad⟩
  · exact ⟨sb', by rw [flushStep, if_pos h, hs], hi', by omega, hshort hlen (hi.records_ne_nil h)⟩
  · omega

theorem flushStep_done (hi : sb.Inv) (h : sb.sb_mbcnt = 0) : sb.flushStep = .done sb := by
  obtain ⟨hq, hcc, hd, -, ht, hl⟩ := hi.cleared (hi.eq_nil_of_mbcnt h)
  simp [flushStep, h, flushAsserts, kassert, hcc, hd, hq, ht, hl, bind, Except.bind]

/-- `sbflush` returns with nothing left, as long as `sb_cc` fits in an `int`. -/
theorem sbflush_returns (hi : sb.Inv) (hlt : sb.sb_cc < 2 ^ 31) :
    ∃ fuel n sb', sbflush fuel sb = .returned sb' n ∧ sb'.Cleared := by
  have hrun := Loop.run_returns flushStep
    (I := fun s : Sockbuf => s.Inv ∧ s.sb_cc < 2 ^ 31) (μ := fun s => s.records.length)
    (Q := fun s => s.Cleared) ?_ ?_ ?_ (sb.records.length + 1) sb ⟨hi, hlt⟩ (by omega)
  · obtain ⟨sb', n, hs, -, hc⟩ := hrun
    refine ⟨sb.records.length + 1, n, sb', ?_, hc⟩
    rw [sbflush, hi.lock]
    exact hs
  · rintro s t ⟨hs, hls⟩ hst
    by_cases hm : s.sb_mbcnt = 0
    · rw [flushStep_done hs hm] at hst
      cases hst
    · obtain ⟨s', hn, hi', hl', hlen⟩ := flushStep_next hs hls hm
      obtain rfl : s' = t := by rw [hn] at hst; cases hst; rfl
      exact ⟨⟨hi', hl'⟩, hlen⟩
  · rintro s a ⟨hs, hls⟩ hst
    by_cases hm : s.sb_mbcnt = 0
    · rw [flushStep_done hs hm] at hst
      cases hst
      exact hs.cleared (hs.eq_nil_of_mbcnt hm)
    · obtain ⟨s', hn, -⟩ := flushStep_next hs hls hm
      rw [hn] at hst
      cases hst
  · rintro s e ⟨hs, hls⟩ hst
    by_cases hm : s.sb_mbcnt = 0
    · rw [flushStep_done hs hm] at hst
      cases hst
    · obtain ⟨s', hn, -⟩ := flushStep_next hs hls hm
      rw [hn] at hst
      cases hst

/-- Whenever `sbflush` returns, nothing is left. -/
theorem Inv.sbflush {fuel n : ℕ} (hi : sb.Inv) (h : sb.sbflush fuel = .returned sb' n) :
    sb'.Inv ∧ sb'.HasTail := by
  rw [Sockbuf.sbflush, hi.lock] at h
  have hrun := Loop.run_returned flushStep (I := Inv) (Q := fun s => s.Inv ∧ s.Cleared) ?_ ?_ h hi
  · obtain ⟨hi', hq, -, -, -, ht, -⟩ := hrun
    refine ⟨hi', ?_⟩
    rw [HasTail, ht, hq]
    rfl
  · intro s t hs hst
    by_cases hm : s.sb_mbcnt = 0
    · rw [flushStep_done hs hm] at hst
      cases hst
    · rw [flushStep, if_pos hm] at hst
      rcases sbdrop_spec hs (cint s.sb_cc) with ⟨s', hd, hi', -⟩ | ⟨hd, -⟩
      · rw [hd] at hst
        cases hst
        exact hi'
      · rw [hd] at hst
        cases hst
  · intro s a hs hst
    by_cases hm : s.sb_mbcnt = 0
    · rw [flushStep_done hs hm] at hst
      cases hst
      exact ⟨hs, hs.cleared (hs.eq_nil_of_mbcnt hm)⟩
    · rw [flushStep, if_pos hm] at hst
      split at hst <;> cases hst

end Sockbuf

end OpenbsdKernel.UipcSocket2
