import OpenbsdKernel.Kern.Sockbuf.Compress

/-!
# Adding mbufs keeps the counters

The invariant of a socket buffer says what its counters and `sb_lastrecord` are; of
`sb_mbtail` it only says that an empty buffer has none. Every routine that adds mbufs keeps
it. What each of them does to `sb_mbtail` is recorded beside it, as `HasTail` of the buffers
before and after.
-/
namespace OpenbsdKernel.UipcSocket2

/-- The counters are right, and so is `sb_lastrecord`. -/
structure Sockbuf.Inv (sb : Sockbuf) : Prop where
  nonempty : [] ∉ sb.records
  nodup : (addrs sb.records.flatten).Nodup
  counters : sb.counters = usage sb.records.flatten
  lastrecord : sb.sb_lastrecord = sb.records.lastHead
  mbtail : sb.records = [] → sb.sb_mbtail = none
  lock : sb.sb_lock = false

/-- `sb_mbtail` is the last mbuf of the last record. -/
def Sockbuf.HasTail (sb : Sockbuf) : Prop := sb.sb_mbtail = sb.records.lastMbuf

instance (sb : Sockbuf) : Decidable sb.HasTail :=
  inferInstanceAs (Decidable (sb.sb_mbtail = sb.records.lastMbuf))

namespace Queue

variable {A B : Queue} {r : List Mbuf}

theorem lastHead_concat (A : Queue) (r : List Mbuf) :
    lastHead (A ++ [r]) = r.head?.map Mbuf.addr := by
  simp [lastHead]

theorem lastMbuf_concat (A : Queue) (r : List Mbuf) :
    lastMbuf (A ++ [r]) = r.getLast?.map Mbuf.addr := by
  simp [lastMbuf]

/-- What stands before the last record does not matter. -/
theorem lastHead_append (hB : B ≠ []) : lastHead (A ++ B) = lastHead B := by
  rw [lastHead, List.getLast?_append_of_ne_nil A hB, lastHead]

theorem lastMbuf_append (hB : B ≠ []) : lastMbuf (A ++ B) = lastMbuf B := by
  rw [lastMbuf, List.getLast?_append_of_ne_nil A hB, lastMbuf]

theorem lastHead_middle (A B : Queue) (r : List Mbuf) :
    lastHead (A ++ r :: B) = if B = [] then r.head?.map Mbuf.addr else lastHead B := by
  by_cases hB : B = []
  · rw [if_pos hB, hB, lastHead_concat]
  · rw [if_neg hB, List.append_cons, lastHead_append hB]

theorem lastMbuf_middle (A B : Queue) (r : List Mbuf) :
    lastMbuf (A ++ r :: B) = if B = [] then r.getLast?.map Mbuf.addr else lastMbuf B := by
  by_cases hB : B = []
  · rw [if_pos hB, hB, lastMbuf_concat]
  · rw [if_neg hB, List.append_cons, lastMbuf_append hB]

theorem lastHead_mem {q : Queue} {a : Addr} (h : q.lastHead = some a) : a ∈ addrs q.flatten := by
  obtain ⟨m, hm, rfl⟩ := Option.map_eq_some_iff.1 h
  obtain ⟨r, hr, hmr⟩ := Option.bind_eq_some_iff.1 hm
  exact List.mem_map.2 ⟨m, List.mem_flatten.2 ⟨r, List.mem_of_getLast? hr, List.mem_of_mem_head? hmr⟩,
    rfl⟩

end Queue

namespace Sockbuf

open Queue

variable {sb sb' : Sockbuf} {A B : Queue} {R : List Mbuf} {n m : Mbuf} {chain rest : List Mbuf}

theorem Inv.lastrecord_ne (hi : sb.Inv) (hf : Fresh sb.records chain) :
    ∀ m ∈ chain, sb.sb_lastrecord ≠ some m.addr := by
  intro m hm he
  rw [hi.lastrecord] at he
  exact hf.2 m.addr (List.mem_map.2 ⟨m, hm, rfl⟩) (lastHead_mem he)

/-- A record of a buffer ends with some mbuf. -/
theorem Inv.concat {r : List Mbuf} (hi : sb.Inv) (hr : r ∈ sb.records) : ∃ R n, r = R ++ [n] := by
  have hne : r ≠ [] := fun h => hi.nonempty (h ▸ hr)
  exact ⟨r.dropLast, r.getLast hne, (List.dropLast_append_getLast hne).symm⟩

theorem Compressed.mem_addrs {eor : Bool} (hc : Compressed sb A R n B eor chain sb')
    (h : At sb.records A R n B) (hf : Fresh sb.records chain) :
    (addrs sb'.records.flatten).Nodup := by
  obtain ⟨l, hl, hsub⟩ := compress_addrs chain n eor
  have hperm : (addrs sb'.records.flatten).Perm (addrs sb.records.flatten ++ l) := by
    have he : addrs sb'.records.flatten =
        addrs A.flatten ++ (addrs R ++ n.addr :: (l ++ addrs B.flatten)) := by
      simp [hc.records, hl]
    have hq : addrs sb.records.flatten ++ l =
        addrs A.flatten ++ (addrs R ++ n.addr :: (addrs B.flatten ++ l)) := by
      simp [h.eq]
    rw [he, hq]
    exact .append_left _ (.append_left _ (.cons _ List.perm_append_comm))
  refine hperm.nodup_iff.2 (List.nodup_append.2 ⟨h.nodup, hsub.nodup hf.1, ?_⟩)
  rintro a ha b hb rfl
  exact hf.2 a (hsub.subset hb) ha

theorem Inv.compressed {eor : Bool} (hi : sb.Inv) (h : At sb.records A R n B)
    (hf : Fresh sb.records chain) (hc : Compressed sb A R n B eor chain sb') : sb'.Inv where
  nonempty := by
    have hne := compress_ne_nil n eor chain
    have hq := hi.nonempty
    rw [h.eq] at hq
    rw [hc.records]
    simp_all
  nodup := hc.mem_addrs h hf
  counters := by
    have hcnt := hc.counters
    rw [hi.counters, h.eq] at hcnt
    rw [hc.records]
    have hcancel : sb'.counters + n.usage =
        usage (A ++ (R ++ compress n eor chain) :: B).flatten + n.usage := by
      rw [hcnt]
      simp only [List.flatten_append, List.flatten_cons, usage_append, usage_cons, usage_nil]
      abel
    exact add_right_cancel hcancel
  lastrecord := by
    rw [hc.lastrecord, hi.lastrecord, h.eq, hc.records, lastHead_middle, lastHead_middle]
    congr 1
    cases R with
    | nil => exact (compress_head n eor chain).symm
    | cons m R => rfl
  mbtail := by
    rw [hc.records]
    simp
  lock := hc.lock.trans hi.lock

/-- Behind the last mbuf of the last record the tail is kept. -/
theorem HasTail.compressed {eor : Bool} (ht : sb.HasTail) (h : At sb.records A R n [])
    (hc : Compressed sb A R n [] eor chain sb') : sb'.HasTail := by
  have hlast : sb'.records.lastMbuf = (compress n eor chain).getLast?.map Mbuf.addr := by
    rw [hc.records, lastMbuf_concat, List.getLast?_append_of_ne_nil _ (compress_ne_nil _ _ _)]
  rw [HasTail, hlast, hc.mbtail]
  split
  · next ha =>
    rw [compress_getLast_of_absorbs chain n eor ha, ht, h.eq, lastMbuf_concat]
    simp
  · rfl

section PassEor

variable (m0 : Mbuf) (rest : List Mbuf)

@[simp] theorem addr_passEor : (passEor m0 rest).1.addr = m0.addr := by
  cases rest with
  | nil => rfl
  | cons m rest => rw [passEor]; split <;> rfl

@[simp] theorem usage_passEor : (passEor m0 rest).1.usage = m0.usage := by
  cases rest with
  | nil => rfl
  | cons m rest => rw [passEor]; split <;> rfl

@[simp] theorem addrs_passEor : addrs (passEor m0 rest).2 = addrs rest := by
  cases rest with
  | nil => rfl
  | cons m rest => rw [passEor]; split <;> rfl

end PassEor

/-- Nothing of the chain is linked behind its first mbuf when it becomes a record. -/
def absorbsRecord : List Mbuf → Bool
  | [] => false
  | m0 :: rest => absorbs (passEor m0 rest).1 false (passEor m0 rest).2

/-- A record of the one mbuf `m` is put between `A` and `B`. -/
theorem Inv.insert {sb1 : Sockbuf} (hi : sb.Inv) (hq : sb.records = A ++ B)
    (hm : m.addr ∉ addrs sb.records.flatten) (hr : sb1.records = A ++ [m] :: B)
    (hc : sb1.counters = sb.counters + m.usage)
    (hl : sb1.sb_lastrecord = if B = [] then some m.addr else sb.sb_lastrecord)
    (hk : sb1.sb_lock = sb.sb_lock) : sb1.Inv where
  nonempty := by
    have hne := hi.nonempty
    rw [hq] at hne
    rw [hr]
    simp_all
  nodup := by
    have hperm : (addrs sb1.records.flatten).Perm (m.addr :: addrs sb.records.flatten) := by
      rw [hr, hq]
      simp only [List.flatten_append, List.flatten_cons, List.cons_append, List.nil_append,
        addrs_append, addrs_cons]
      exact List.perm_middle
    exact hperm.nodup_iff.2 (List.nodup_cons.2 ⟨hm, hi.nodup⟩)
  counters := by
    rw [hc, hi.counters, hq, hr]
    simp only [List.flatten_append, List.flatten_cons, usage_append, usage_cons, usage_nil]
    abel
  lastrecord := by
    rw [hl, hr, lastHead_middle]
    split
    · rfl
    · next hB => rw [hi.lastrecord, hq, lastHead_append hB]
  mbtail := by
    rw [hr]
    simp
  lock := hk.trans hi.lock

/-- The first mbuf of a chain is a record of its own and the others are compressed into it. -/
theorem insertRecord_spec {sb1 : Sockbuf} {m0 : Mbuf} (hi : sb.Inv) (hq : sb.records = A ++ B)
    (hf : Fresh sb.records (m0 :: rest)) (hr : sb1.records = A ++ [(passEor m0 rest).1] :: B)
    (hc : sb1.counters = sb.counters + m0.usage)
    (hl : sb1.sb_lastrecord = if B = [] then some m0.addr else sb.sb_lastrecord)
    (ht : sb1.sb_mbtail = sb.sb_mbtail) (hk : sb1.sb_lock = sb.sb_lock) :
    ∃ sb', sbcompress (passEor m0 rest).2 (some m0.addr) false sb1 = .ok sb' ∧ sb'.Inv ∧
      (sb.HasTail → (absorbsRecord (m0 :: rest) = true ↔ B ≠ []) → sb'.HasTail) := by
  have hi1 : sb1.Inv := by
    refine hi.insert hq ?_ hr ?_ ?_ hk
    · rw [addr_passEor]
      exact hf.head
    · rw [hc, usage_passEor]
    · rw [hl, addr_passEor]
  have hat : At sb1.records A [] (passEor m0 rest).1 B := ⟨hr, hi1.nodup⟩
  have hfr : Fresh sb1.records (passEor m0 rest).2 := by
    refine ⟨by rw [addrs_passEor]; exact hf.tail.1, fun a ha ha1 => ?_⟩
    rw [addrs_passEor] at ha
    have hmem : a = m0.addr ∨ a ∈ addrs sb.records.flatten := by
      rw [hr] at ha1
      rw [hq]
      simp only [List.flatten_append, List.flatten_cons, List.cons_append, List.nil_append,
        addrs_append, addrs_cons, addr_passEor, List.mem_append, List.mem_cons] at ha1 ⊢
      tauto
    rcases hmem with rfl | hmem
    · exact (List.nodup_cons.1 hf.1).1 ha
    · exact hf.tail.2 a ha hmem
  obtain ⟨sb', hs, hcm⟩ := sbcompress_spec _ hat hfr (hi1.lastrecord_ne hfr)
  rw [addr_passEor] at hs
  refine ⟨sb', hs, hi1.compressed hat hfr hcm, fun htail hcond => ?_⟩
  rw [HasTail, hcm.mbtail, hcm.records, lastMbuf_middle]
  by_cases hB : B = []
  · have hab : absorbs (passEor m0 rest).1 false (passEor m0 rest).2 = false := by
      simpa [hB, absorbsRecord] using hcond
    simp [hB, hab]
  · have hab : absorbs (passEor m0 rest).1 false (passEor m0 rest).2 = true := hcond.2 hB
    rw [if_pos hab, if_neg hB, ht, htail, hq, lastMbuf_append hB]

theorem setNextpkt_lastHead {q : Queue} {a : Addr} {r : List Mbuf} (hn : (addrs q.flatten).Nodup)
    (h : q.lastHead = some a) : q.setNextpkt a r = q ++ [r] := by
  rcases List.eq_nil_or_concat' q with rfl | ⟨Q, r0, rfl⟩
  · simp [lastHead] at h
  · rw [lastHead_concat] at h
    rw [setNextpkt, linkAfter_append_singleton _ (by simpa using h)]
    · simp
    · intro p hp
      -- the head of an earlier record would occur twice
      simp only [decide_eq_false_iff_not]
      intro hpa
      obtain ⟨x, hx, rfl⟩ := Option.map_eq_some_iff.1 hpa
      obtain ⟨y, hy, hyx⟩ := Option.map_eq_some_iff.1 h
      rw [List.flatten_append, addrs_append, List.nodup_append] at hn
      refine hn.2.2 x.addr ?_ y.addr ?_ hyx.symm
      · exact List.mem_map.2 ⟨x, List.mem_flatten.2 ⟨p, hp, List.mem_of_mem_head? hx⟩, rfl⟩
      · exact List.mem_map.2 ⟨y, by simpa using List.mem_of_mem_head? hy, rfl⟩

theorem Inv.records_eq_nil (hi : sb.Inv) (h : sb.sb_lastrecord = none) : sb.records = [] := by
  rcases List.eq_nil_or_concat' sb.records with hq | ⟨Q, r, hq⟩
  · exact hq
  · obtain ⟨R, n, rfl⟩ := hi.concat (r := r) (by simp [hq])
    rw [hi.lastrecord, hq, lastHead_concat] at h
    simp at h

/-- `SBLINKRECORD` puts the record at the end. -/
theorem Inv.linkRecord {sb1 : Sockbuf} (hi : sb.Inv) (hq : sb1.records = sb.records)
    (hl : sb1.sb_lastrecord = sb.sb_lastrecord) (r : List Mbuf) :
    (sb1.linkRecord r).records = sb.records ++ [r] := by
  rw [Sockbuf.linkRecord]
  cases h : sb.sb_lastrecord with
  | none => simp [hl, h, hi.records_eq_nil h]
  | some a =>
    simp only [hl, h, hq]
    exact setNextpkt_lastHead hi.nodup (hi.lastrecord ▸ h)

theorem sbappendrecord_spec (hi : sb.Inv) (hf : Fresh sb.records chain) :
    ∃ sb', sb.sbappendrecord chain = .ok sb' ∧ sb'.Inv ∧
      (sb.HasTail → absorbsRecord chain = false → sb'.HasTail) := by
  cases chain with
  | nil => exact ⟨sb, rfl, hi, fun h _ => h⟩
  | cons m0 rest =>
    have hr : ((sb.sballoc m0).linkRecord [(passEor m0 rest).1]).records =
        sb.records ++ [[(passEor m0 rest).1]] := hi.linkRecord rfl rfl _
    obtain ⟨sb', hs, hi', ht⟩ := insertRecord_spec hi (List.append_nil _).symm hf hr rfl
      (by simp [linkRecord]) rfl rfl
    exact ⟨sb', hs, hi', fun h hab => ht h (by simp [hab])⟩

theorem sbinsertoob_spec (hi : sb.Inv) (hf : Fresh sb.records chain) :
    ∃ sb', sb.sbinsertoob chain = .ok sb' ∧ sb'.Inv ∧
      (sb.HasTail → (chain ≠ [] → (absorbsRecord chain = true ↔ sb.records.dropWhile isOob ≠ [])) →
        sb'.HasTail) := by
  cases chain with
  | nil => exact ⟨sb, rfl, hi, fun h _ => h⟩
  | cons m0 rest =>
    have hr : (sb.insertRecord (passEor m0 rest).1).records = sb.records.takeWhile isOob ++
        [(passEor m0 rest).1] :: sb.records.dropWhile isOob := rfl
    have hc : (sb.insertRecord (passEor m0 rest).1).counters = sb.counters + m0.usage :=
      congrArg (sb.counters + ·) (usage_passEor m0 rest)
    have hl : (sb.insertRecord (passEor m0 rest).1).sb_lastrecord =
        if sb.records.dropWhile isOob = [] then some m0.addr else sb.sb_lastrecord := by
      rw [insertRecord, addr_passEor]
    obtain ⟨sb', hs, hi', ht⟩ := insertRecord_spec hi (List.takeWhile_append_dropWhile).symm hf
      hr hc hl rfl rfl
    exact ⟨sb', hs, hi', fun h hab => ht h (hab (by simp))⟩

/-- The last record ends a message: `sbappend` starts a new one. -/
def lastEor (sb : Sockbuf) : Bool := (sb.records.getLast?.getD []).any Mbuf.m_eor

theorem head_concat (R : List Mbuf) (n : Mbuf) :
    ∃ a, (R ++ [n]).head?.map Mbuf.addr = some a := by
  cases R with
  | nil => exact ⟨n.addr, rfl⟩
  | cons x R => exact ⟨x.addr, rfl⟩

theorem chainFrom_concat {Q : Queue} {r : List Mbuf} {a : Addr}
    (hn : (addrs (Q ++ [r]).flatten).Nodup) (h : r.head?.map Mbuf.addr = some a) :
    chainFrom (Q ++ [r]) a = r := by
  obtain ⟨x, r', rfl, hx⟩ : ∃ x r', r = x :: r' ∧ x.addr = a := by
    cases r with
    | nil => simp at h
    | cons x r' => exact ⟨x, r', rfl, by simpa using h⟩
  have hnone : Q.find? (fun r => r.any fun m => m.addr = a) = none := by
    refine List.find?_eq_none.2 fun p hp hany => ?_
    obtain ⟨y, hy, hya⟩ := List.any_eq_true.1 hany
    rw [List.flatten_append, addrs_append, List.nodup_append] at hn
    refine hn.2.2 y.addr ?_ x.addr (by simp) ((of_decide_eq_true hya).trans hx.symm)
    exact List.mem_map.2 ⟨y, List.mem_flatten.2 ⟨p, hp, hy⟩, rfl⟩
  rw [chainFrom, List.find?_append, hnone]
  simp [hx]

/-- An empty buffer and what `sbcompress` made of it. -/
theorem Inv.filled {X : List Mbuf} {sb1 : Sockbuf} (hi : sb.Inv) (hq : sb.records = [])
    (hf : Filled sb1 chain X sb') (hc : sb1.counters = sb.counters)
    (ht : sb1.sb_mbtail = sb.sb_mbtail) (hk : sb1.sb_lock = sb.sb_lock) (hn : (addrs chain).Nodup)
    (hl : sb'.sb_lastrecord = X.head?.map Mbuf.addr) : sb'.Inv ∧ sb'.HasTail := by
  have h0 : sb.counters = 0 := by rw [hi.counters, hq]; rfl
  have hcnt : sb'.counters = usage X := by rw [hf.counters, hc, h0, zero_add]
  have hnd : (addrs X).Nodup := hf.sublist.nodup hn
  by_cases hX : X = []
  · have hr : sb'.records = [] := by rw [hf.records, if_pos hX]
    have hm : sb'.sb_mbtail = none := by rw [hf.mbtail, if_pos hX, ht, hi.mbtail hq]
    refine ⟨⟨by simp [hr], by simp [hr], by rw [hcnt, hr, hX]; rfl, by rw [hl, hr, hX]; rfl,
      fun _ => hm, (hf.lock.trans hk).trans hi.lock⟩, ?_⟩
    rw [HasTail, hm, hr]
    rfl
  · have hr : sb'.records = [] ++ [X] := by rw [hf.records, if_neg hX]; rfl
    refine ⟨⟨by simpa [hr] using hX, by simpa [hr] using hnd, by simp [hr, hcnt],
      by rw [hl, hr, lastHead_concat], by simp [hr], (hf.lock.trans hk).trans hi.lock⟩, ?_⟩
    rw [HasTail, hf.mbtail, if_neg hX, hr, lastMbuf_concat]

theorem sbappend_null (hi : sb.Inv) (hq : sb.records = []) (hf : Fresh sb.records (m :: rest)) :
    ∃ sb', sbcompress (m :: rest) none false { sb with sb_lastrecord := some m.addr } = .ok sb' ∧
      sb'.Inv ∧ sb'.HasTail := by
  have hq1 : ({ sb with sb_lastrecord := some m.addr } : Sockbuf).records = [] := hq
  obtain ⟨sb', X, hs, hfill⟩ := sbcompress_null_spec (m :: rest) hq1 hf.1 (.inr rfl)
  exact ⟨sb', hs, hi.filled hq hfill rfl rfl rfl hf.1 (hfill.lastrecord rfl)⟩

theorem sbappend_spec (hi : sb.Inv) (hf : Fresh sb.records chain) :
    ∃ sb', sb.sbappend chain = .ok sb' ∧ sb'.Inv ∧
      (sb.HasTail → (sb.lastEor = true → absorbsRecord chain = false) → sb'.HasTail) := by
  cases chain with
  | nil => exact ⟨sb, rfl, hi, fun h _ => h⟩
  | cons m rest =>
    rcases List.eq_nil_or_concat' sb.records with hq | ⟨Q, r, hq⟩
    · have hl : sb.sb_lastrecord = none := by rw [hi.lastrecord, hq]; rfl
      obtain ⟨sb', hs, hi', ht⟩ := sbappend_null hi hq hf
      rw [sbappend, hl]
      exact ⟨sb', hs, hi', fun _ _ => ht⟩
    · obtain ⟨R, n, rfl⟩ := hi.concat (r := r) (by simp [hq])
      obtain ⟨a, ha⟩ := head_concat R n
      have hl : sb.sb_lastrecord = some a := by rw [hi.lastrecord, hq, lastHead_concat, ha]
      have hnd := hi.nodup
      rw [hq] at hnd
      have hchain : sb.records.chainFrom a = R ++ [n] := by rw [hq, chainFrom_concat hnd ha]
      have heor : sb.lastEor = (R ++ [n]).any Mbuf.m_eor := by simp [lastEor, hq]
      rw [sbappend, hl]
      simp only [hchain, List.getLast?_concat]
      split
      · next he =>
        obtain ⟨sb', hs, hi', ht⟩ := sbappendrecord_spec hi hf
        exact ⟨sb', hs, hi', fun h hab => ht h (hab (heor.trans he))⟩
      · have hat : At sb.records Q R n [] := ⟨hq, hi.nodup⟩
        obtain ⟨sb', hs, hc⟩ := sbcompress_spec _ hat hf (hi.lastrecord_ne hf)
        exact ⟨sb', hs, hi.compressed hat hf hc, fun h _ => h.compressed hat hc⟩

/-- The assertion of `sbappendstream` leaves at most one record. -/
theorem Inv.one_record {Q : Queue} {r : List Mbuf} (hi : sb.Inv) (hq : sb.records = Q ++ [r])
    (h : sb.sb_mb = sb.sb_lastrecord) : Q = [] := by
  cases Q with
  | nil => rfl
  | cons p Q =>
    exfalso
    obtain ⟨R, n, rfl⟩ := hi.concat (r := r) (by simp [hq])
    obtain ⟨P, x, rfl⟩ := hi.concat (r := p) (by simp [hq])
    have hn := hi.nodup
    rw [hi.lastrecord, sb_mb, hq, lastHead_concat] at h
    rw [hq, List.cons_append, List.flatten_cons, addrs_append, List.nodup_append] at hn
    obtain ⟨a, ha⟩ : ∃ a, (R ++ [n]).head?.map Mbuf.addr = some a := by
      cases R with
      | nil => exact ⟨n.addr, rfl⟩
      | cons y R => exact ⟨y.addr, rfl⟩
    have hp : (P ++ [x]).head?.map Mbuf.addr = some a := h.trans ha
    obtain ⟨y, hy, rfl⟩ := Option.map_eq_some_iff.1 ha
    obtain ⟨z, hz, hzy⟩ := Option.map_eq_some_iff.1 hp
    refine hn.2.2 z.addr (List.mem_map.2 ⟨z, List.mem_of_mem_head? hz, rfl⟩) y.addr ?_ hzy
    exact List.mem_map.2 ⟨y, List.mem_flatten.2 ⟨_, by simp, List.mem_of_mem_head? hy⟩, rfl⟩

theorem sbappendstream_ok (h : sb.sbappendstream chain = .ok sb') :
    sb.sb_mb = sb.sb_lastrecord ∧ ∃ sb1, sbcompress chain sb.sb_mbtail false sb = .ok sb1 ∧
      sb' = { sb1 with sb_lastrecord := sb1.sb_mb } := by
  rw [sbappendstream, kassert] at h
  by_cases he : sb.sb_mb = sb.sb_lastrecord
  · refine ⟨he, ?_⟩
    cases hs : sbcompress chain sb.sb_mbtail false sb with
    | error e => simp [he, hs, bind, Except.bind] at h
    | ok sb1 => exact ⟨sb1, rfl, by simpa [he, hs, bind, Except.bind] using h.symm⟩
  · simp [he, bind, Except.bind] at h

theorem sbappendstream_spec (hi : sb.Inv) (hf : Fresh sb.records chain) (ht : sb.HasTail)
    (h : sb.sbappendstream chain = .ok sb') : sb'.Inv ∧ sb'.HasTail := by
  obtain ⟨he, sb1, hs, rfl⟩ := sbappendstream_ok h
  rcases List.eq_nil_or_concat' sb.records with hq | ⟨Q, r, hq⟩
  · rw [hi.mbtail hq] at hs
    have hl : sb.sb_lastrecord = none := by rw [hi.lastrecord, hq]; rfl
    obtain ⟨sb2, X, hs2, hfill⟩ := sbcompress_null_spec chain hq hf.1 (.inl hl)
    obtain rfl : sb1 = sb2 := Except.ok.inj (hs.symm.trans hs2)
    have hfill' : Filled sb chain X { sb1 with sb_lastrecord := sb1.sb_mb } :=
      ⟨hfill.records, hfill.sublist, hfill.counters, hfill.mbtail, fun _ => by
        rw [sb_mb, hfill.records]
        split <;> simp_all, hfill.lock⟩
    refine hi.filled hq hfill' rfl rfl rfl hf.1 ?_
    rw [sb_mb, hfill.records]
    split <;> simp_all
  · obtain rfl := hi.one_record hq he
    obtain ⟨R, n, rfl⟩ := hi.concat (r := r) (by simp [hq])
    have hat : At sb.records [] R n [] := ⟨hq, hi.nodup⟩
    have hn : sb.sb_mbtail = some n.addr := by rw [ht, hq, lastMbuf_concat]; simp
    rw [hn] at hs
    obtain ⟨sb2, hs2, hc⟩ := sbcompress_spec chain hat hf (hi.lastrecord_ne hf)
    obtain rfl : sb1 = sb2 := Except.ok.inj (hs.symm.trans hs2)
    have hi1 := hi.compressed hat hf hc
    have hsame : ({ sb1 with sb_lastrecord := sb1.sb_mb } : Sockbuf) = sb1 := by
      have hl : sb1.sb_mb = sb1.sb_lastrecord := by
        rw [hi1.lastrecord, hc.records, lastHead_concat, sb_mb, hc.records]
        rfl
      rw [hl]
    rw [hsame]
    exact ⟨hi1, ht.compressed hat hc⟩

/-- A chain of which every mbuf is empty and none ends a record is thrown away, wherever
`sb_mbtail` points. -/
theorem sbcompress_blank (n : Option Addr) (hc : ∀ m ∈ chain, m.m_len = 0 ∧ m.m_eor = false)
    (hl : ∀ m ∈ chain, sb.sb_lastrecord ≠ some m.addr) : sbcompress chain n false sb = .ok sb := by
  induction chain with
  | nil => cases n <;> rfl
  | cons m rest ih =>
    have hm := hc m (List.mem_cons_self ..)
    have hd : sb.discards m rest n (false || m.m_eor) = .ok true := by simp [discards, hm.1, hm.2]
    have hdisc : sb.discard m rest = sb := by
      rw [discard, if_neg (hl m (List.mem_cons_self ..))]
    have hrest := ih (fun k hk => hc k (List.mem_cons_of_mem m hk))
      fun k hk => hl k (List.mem_cons_of_mem m hk)
    rw [sbcompress, hd, hdisc]
    simpa [bind, Except.bind, hm.2] using hrest

theorem sbappendstream_blank (hi : sb.Inv) (hf : Fresh sb.records chain)
    (hc : ∀ m ∈ chain, m.m_len = 0 ∧ m.m_eor = false) (h : sb.sbappendstream chain = .ok sb') :
    sb' = sb := by
  obtain ⟨he, sb1, hs, rfl⟩ := sbappendstream_ok h
  rw [sbcompress_blank _ hc (hi.lastrecord_ne hf)] at hs
  obtain rfl := Except.ok.inj hs
  rw [he]

theorem foldl_sballoc (r : List Mbuf) : ∀ sb : Sockbuf, r.foldl sballoc sb =
    { sb with
      sb_cc := sb.sb_cc + (usage r).1
      sb_datacc := sb.sb_datacc + (usage r).2.1
      sb_mbcnt := sb.sb_mbcnt + (usage r).2.2 } := by
  induction r with
  | nil => intro sb; rfl
  | cons m r ih =>
    intro sb
    rw [List.foldl_cons, ih, usage_cons]
    simp [sballoc, Mbuf.usage, add_assoc]

theorem appendChain_spec {r : List Mbuf} (hi : sb.Inv) (hf : Fresh sb.records r) (hr : r ≠ []) :
    (sb.appendChain r).Inv ∧ (sb.appendChain r).HasTail := by
  have hrec : (sb.appendChain r).records = sb.records ++ [r] :=
    hi.linkRecord (by rw [foldl_sballoc]) (by rw [foldl_sballoc]) r
  have hcnt : (sb.appendChain r).counters = sb.counters + usage r := by
    change (r.foldl sballoc sb).counters = _
    rw [foldl_sballoc]
    rfl
  have hlock : (sb.appendChain r).sb_lock = sb.sb_lock := by
    change (r.foldl sballoc sb).sb_lock = _
    rw [foldl_sballoc]
  refine ⟨⟨?_, ?_, ?_, ?_, ?_, hlock.trans hi.lock⟩, ?_⟩
  · rw [hrec, List.mem_append]
    simpa [hr.symm] using hi.nonempty
  · rw [hrec, List.flatten_append, addrs_append]
    refine List.nodup_append.2 ⟨hi.nodup, by simpa using hf.1, ?_⟩
    rintro a ha b hb rfl
    exact hf.2 a (by simpa using hb) ha
  · rw [hcnt, hrec, hi.counters]
    simp
  · rw [hrec, lastHead_concat]
    rfl
  · simp [hrec]
  · rw [HasTail, hrec, lastMbuf_concat]
    rfl

theorem sbappendaddr_spec {sa_len : Fin 256} {m0 control : List Mbuf} {mget : Option Addr} {k : ℕ}
    (hi : sb.Inv) (hf : ∀ a ∈ mget, Fresh sb.records (soname a sa_len :: (control ++ m0)))
    (h : sb.sbappendaddr sa_len m0 control mget = .ok (k, sb')) :
    sb'.Inv ∧ (sb.HasTail → sb'.HasTail) := by
  unfold sbappendaddr at h
  split at h
  · cases h
  · dsimp only at h
    split at h
    · cases h; exact ⟨hi, id⟩
    · split at h
      · cases h; exact ⟨hi, id⟩
      · cases mget with
        | none => cases h; exact ⟨hi, id⟩
        | some a =>
          cases h
          obtain ⟨hi', ht'⟩ := appendChain_spec hi (hf a rfl) (List.cons_ne_nil _ _)
          exact ⟨hi', fun _ => ht'⟩

theorem sbappendcontrol_spec {m0 control : List Mbuf} {k : ℕ} (hi : sb.Inv)
    (hf : Fresh sb.records (control ++ m0))
    (h : sb.sbappendcontrol m0 control = .ok (k, sb')) :
    sb'.Inv ∧ (sb.HasTail → sb'.HasTail) := by
  rw [sbappendcontrol] at h
  split at h
  · cases h
  · next hc =>
    split at h
    · cases h; exact ⟨hi, id⟩
    · cases h
      obtain ⟨hi', ht'⟩ := appendChain_spec hi hf (by simp [hc])
      exact ⟨hi', fun _ => ht'⟩

end Sockbuf

end OpenbsdKernel.UipcSocket2
