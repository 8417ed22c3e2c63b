import OpenbsdKernel.Kern.Sockbuf.Drop

/-!
# Sequences of calls on a socket buffer

Any sequence of the routines on a buffer that was empty at first. The chains that are handed
over are new to the queue; between two calls the storage of a queued mbuf may become shared
with another chain, or stop being so.
-/
namespace OpenbsdKernel.UipcSocket2

open Sockbuf

/-- One call. -/
inductive Op where
  | sbappend (m : List Mbuf)
  | sbappendstream (m : List Mbuf)
  | sbappendrecord (m0 : List Mbuf)
  | sbinsertoob (m0 : List Mbuf)
  | sbappendaddr (sa_len : Fin 256) (m0 control : List Mbuf) (mget : Option Addr)
  | sbappendcontrol (m0 control : List Mbuf)
  | sbdrop (len : ℤ)
  | sbdroprecord
  | sbflush
  | share (a : Addr) (b : Bool)

namespace Op

/-- The call returns and leaves `sb'`. -/
def Returns (sb : Sockbuf) : Op → Sockbuf → Prop
  | .sbappend m, sb' => sb.sbappend m = .ok sb'
  | .sbappendstream m, sb' => sb.sbappendstream m = .ok sb'
  | .sbappendrecord m0, sb' => sb.sbappendrecord m0 = .ok sb'
  | .sbinsertoob m0, sb' => sb.sbinsertoob m0 = .ok sb'
  | .sbappendaddr sa_len m0 control mget, sb' =>
    ∃ k, sb.sbappendaddr sa_len m0 control mget = .ok (k, sb')
  | .sbappendcontrol m0 control, sb' => ∃ k, sb.sbappendcontrol m0 control = .ok (k, sb')
  | .sbdrop len, sb' => sb.sbdrop len = .ok sb'
  | .sbdroprecord, sb' => sb.sbdroprecord = sb'
  | .sbflush, sb' => ∃ fuel n, sb.sbflush fuel = .returned sb' n
  | .share a b, sb' => sb.setRecords (sb.records.update a fun m => { m with m_shared := b }) = sb'

example (sb : Sockbuf) : Returns sb .sbdroprecord sb.sbdroprecord := by simp [Returns]

def WellFormed (sb : Sockbuf) : Op → Prop
  | .sbappend m | .sbappendstream m | .sbappendrecord m | .sbinsertoob m => Fresh sb.records m
  | .sbappendaddr sa_len m0 control mget =>
    ∀ a ∈ mget, Fresh sb.records (soname a sa_len :: (control ++ m0))
  | .sbappendcontrol m0 control => Fresh sb.records (control ++ m0)
  | _ => True

/-- A stream is appended where `sb_mbtail` is the end of the queue, or nothing is appended
at all. -/
def StreamOk (sb : Sockbuf) : Op → Prop
  | .sbappendstream m => sb.HasTail ∨ ∀ k ∈ m, k.m_len = 0 ∧ k.m_eor = false
  | _ => True

/-- A new record at the end of the queue has an mbuf linked behind its first one, and one
before other records has none. -/
def RecordOk (sb : Sockbuf) : Op → Prop
  | .sbappendrecord m0 => absorbsRecord m0 = false
  | .sbappend m => sb.lastEor = true → absorbsRecord m = false
  | .sbinsertoob m0 => m0 ≠ [] → (absorbsRecord m0 = true ↔ sb.records.dropWhile isOob ≠ [])
  | _ => True

end Op

/-- The buffers reached by calls that all satisfy `C`. -/
inductive Run (C : Sockbuf → Op → Prop) : Sockbuf → Prop where
  | empty (hiwat mbmax : ℕ) : Run C (.empty hiwat mbmax)
  | call {sb sb' : Sockbuf} (op : Op) : Run C sb → op.WellFormed sb → C sb op →
      op.Returns sb sb' → Run C sb'

theorem inv_empty (hiwat mbmax : ℕ) : (Sockbuf.empty hiwat mbmax).Inv :=
  ⟨by simp [Sockbuf.empty], by simp [Sockbuf.empty], rfl, rfl, fun _ => rfl, rfl⟩

theorem Sockbuf.Inv.map {sb : Sockbuf} (hi : sb.Inv) {g : Mbuf → Mbuf} (ha : ∀ m, (g m).addr = m.addr)
    (hu : ∀ m, (g m).usage = m.usage) :
    (sb.setRecords (sb.records.map (List.map g))).Inv ∧
      (sb.HasTail → (sb.setRecords (sb.records.map (List.map g))).HasTail) := by
  have hag : Mbuf.addr ∘ g = Mbuf.addr := funext ha
  have hug : Mbuf.usage ∘ g = Mbuf.usage := funext hu
  have hflat : (sb.records.map (List.map g)).flatten = sb.records.flatten.map g :=
    List.map_flatten.symm
  have hhead : Queue.lastHead (sb.records.map (List.map g)) = sb.records.lastHead := by
    cases h : sb.records.getLast? <;>
      simp [Queue.lastHead, List.getLast?_map, h, List.head?_map, Option.map_map, hag]
  have hlast : Queue.lastMbuf (sb.records.map (List.map g)) = sb.records.lastMbuf := by
    cases h : sb.records.getLast? <;>
      simp [Queue.lastMbuf, List.getLast?_map, h, Option.map_map, hag]
  refine ⟨⟨?_, ?_, ?_, hi.lastrecord.trans hhead.symm, fun h => hi.mbtail (by simpa [setRecords] using h), hi.lock⟩,
    fun ht => ht.trans hlast.symm⟩
  · simpa [setRecords] using hi.nonempty
  · rw [setRecords, hflat, addrs, List.map_map, hag]
    exact hi.nodup
  · refine hi.counters.trans ?_
    rw [setRecords, hflat, usage, usage, List.map_map, hug]

theorem inv_call {sb sb' : Sockbuf} {op : Op} (hi : sb.Inv) (hw : op.WellFormed sb)
    (hs : op.StreamOk sb) (hr : op.Returns sb sb') : sb'.Inv := by
  cases op with
  | sbappend m =>
    obtain ⟨sb1, h1, hi1, -⟩ := sbappend_spec hi hw
    exact Except.ok.inj (h1.symm.trans hr) ▸ hi1
  | sbappendstream m =>
    rcases hs with ht | hblank
    · exact (sbappendstream_spec hi hw ht hr).1
    · exact sbappendstream_blank hi hw hblank hr ▸ hi
  | sbappendrecord m0 =>
    obtain ⟨sb1, h1, hi1, -⟩ := sbappendrecord_spec hi hw
    exact Except.ok.inj (h1.symm.trans hr) ▸ hi1
  | sbinsertoob m0 =>
    obtain ⟨sb1, h1, hi1, -⟩ := sbinsertoob_spec hi hw
    exact Except.ok.inj (h1.symm.trans hr) ▸ hi1
  | sbappendaddr sa_len m0 control mget =>
    obtain ⟨k, hr⟩ := hr
    exact (sbappendaddr_spec hi hw hr).1
  | sbappendcontrol m0 control =>
    obtain ⟨k, hr⟩ := hr
    exact (sbappendcontrol_spec hi hw hr).1
  | sbdrop len =>
    rcases sbdrop_spec hi len with ⟨sb1, h1, hi1, -⟩ | ⟨h1, -⟩
    · exact Except.ok.inj (h1.symm.trans hr) ▸ hi1
    · exact absurd (h1.symm.trans hr) (by simp)
  | sbdroprecord => exact hr ▸ (sbdroprecord_spec hi).1
  | sbflush =>
    obtain ⟨fuel, n, hr⟩ := hr
    exact (hi.sbflush hr).1
  | share a b =>
    subst hr
    exact (hi.map (fun m => by dsimp only; split <;> rfl) fun m => by dsimp only; split <;> rfl).1

theorem hasTail_call {sb sb' : Sockbuf} {op : Op} (hi : sb.Inv) (ht : sb.HasTail)
    (hw : op.WellFormed sb) (hs : op.RecordOk sb) (hr : op.Returns sb sb') : sb'.HasTail := by
  cases op with
  | sbappend m =>
    obtain ⟨sb1, h1, -, ht1⟩ := sbappend_spec hi hw
    exact Except.ok.inj (h1.symm.trans hr) ▸ ht1 ht hs
  | sbappendstream m => exact (sbappendstream_spec hi hw ht hr).2
  | sbappendrecord m0 =>
    obtain ⟨sb1, h1, -, ht1⟩ := sbappendrecord_spec hi hw
    exact Except.ok.inj (h1.symm.trans hr) ▸ ht1 ht hs
  | sbinsertoob m0 =>
    obtain ⟨sb1, h1, -, ht1⟩ := sbinsertoob_spec hi hw
    exact Except.ok.inj (h1.symm.trans hr) ▸ ht1 ht hs
  | sbappendaddr sa_len m0 control mget =>
    obtain ⟨k, hr⟩ := hr
    exact (sbappendaddr_spec hi hw hr).2 ht
  | sbappendcontrol m0 control =>
    obtain ⟨k, hr⟩ := hr
    exact (sbappendcontrol_spec hi hw hr).2 ht
  | sbdrop len =>
    rcases sbdrop_spec hi len with ⟨sb1, h1, -, ht1, -⟩ | ⟨h1, -⟩
    · exact Except.ok.inj (h1.symm.trans hr) ▸ ht1 ht
    · exact absurd (h1.symm.trans hr) (by simp)
  | sbdroprecord => exact hr ▸ (sbdroprecord_spec hi).2 ht
  | sbflush =>
    obtain ⟨fuel, n, hr⟩ := hr
    exact (hi.sbflush hr).2
  | share a b =>
    subst hr
    exact (hi.map (fun m => by dsimp only; split <;> rfl) fun m => by dsimp only; split <;> rfl).2 ht

/-- The counters and `sb_lastrecord` are those of the queue. -/
structure Sockbuf.Accounted (sb : Sockbuf) : Prop where
  cc : sb.sb_cc = (sb.records.flatten.map Mbuf.m_len).sum
  datacc : sb.sb_datacc = ((sb.records.flatten.filter Mbuf.isData).map Mbuf.m_len).sum
  mbcnt : sb.sb_mbcnt = (sb.records.flatten.map fun m => MSIZE + m.m_ext.getD 0).sum
  lastrecord : sb.sb_lastrecord = sb.records.lastHead
  empty : sb.sb_lastrecord = none ↔ sb.records = []

theorem usage_datacc (l : List Mbuf) :
    (usage l).2.1 = ((l.filter Mbuf.isData).map Mbuf.m_len).sum := by
  induction l with
  | nil => rfl
  | cons m l ih =>
    rw [usage_cons, List.filter_cons, Prod.snd_add, Prod.fst_add, ih]
    cases h : m.isData <;> simp [Mbuf.usage, Mbuf.dataLen, h]

theorem usage_mbcnt (l : List Mbuf) :
    (usage l).2.2 = (l.map fun m => MSIZE + m.m_ext.getD 0).sum := by
  induction l with
  | nil => rfl
  | cons m l ih =>
    rw [usage_cons, Prod.snd_add, Prod.snd_add, ih]
    rfl

theorem Sockbuf.Inv.accounted {sb : Sockbuf} (hi : sb.Inv) : sb.Accounted where
  cc := hi.cc
  datacc := by
    rw [← usage_datacc, ← hi.counters]
    rfl
  mbcnt := by
    rw [← usage_mbcnt, ← hi.counters]
    rfl
  lastrecord := hi.lastrecord
  empty := ⟨hi.records_eq_nil, fun h => by rw [hi.lastrecord, h]; rfl⟩

/-- In every run that appends streams only where `sb_mbtail` is right, the counters and
`sb_lastrecord` are those of the queue, and `sbflush` empties the buffer as long as it holds
fewer than `2 ^ 31` bytes. -/
theorem sockbuf_accounted {sb : Sockbuf} (h : Run (fun sb op => op.StreamOk sb) sb) :
    sb.Accounted ∧ (sb.sb_cc < 2 ^ 31 →
      ∃ fuel n sb', sbflush fuel sb = .returned sb' n ∧ sb'.Cleared) := by
  have hi : sb.Inv := by
    induction h with
    | empty hiwat mbmax => exact inv_empty hiwat mbmax
    | call op _ hw hs hr ih => exact inv_call ih hw hs hr
  exact ⟨hi.accounted, sbflush_returns hi⟩

/-- A data mbuf with `len` bytes at the start of its own storage. -/
def dataMbuf (a : Addr) (len : ℕ) : Mbuf := ⟨a, len, .data, false, none, none, 0, false⟩

/-- A buffer with the one record `r` and the cached pointers given. -/
def oneRecord (r : List Mbuf) (mbtail lastrecord : Option Addr) (cc mbcnt : ℕ) : Sockbuf :=
  ⟨[r], cc, cc, mbcnt, 8192, 16384, mbtail, lastrecord, false⟩

example : (oneRecord [dataMbuf 1 2] (some 1) (some 1) 2 256).records.flatten = [dataMbuf 1 2] := by
  decide +kernel

/-- Two bytes are appended one after the other, the second as a stream. -/
theorem sockbuf_accounted_merge :
    (oneRecord [dataMbuf 1 2] (some 1) (some 1) 2 256).Accounted ∧
      ((oneRecord [dataMbuf 1 2] (some 1) (some 1) 2 256).sb_cc < 2 ^ 31 →
        ∃ fuel n sb', sbflush fuel (oneRecord [dataMbuf 1 2] (some 1) (some 1) 2 256) =
          .returned sb' n ∧ sb'.Cleared) := by
  have h1 : Run (fun sb op => op.StreamOk sb) (oneRecord [dataMbuf 1 1] (some 1) (some 1) 1 256) :=
    .call (.sbappend [dataMbuf 1 1]) (.empty 8192 16384)
      ⟨by decide, by decide⟩ trivial (by rw [Op.Returns]; decide +kernel)
  exact sockbuf_accounted (.call (.sbappendstream [dataMbuf 2 1]) h1 ⟨by decide, by decide⟩
    (.inl (by decide)) (by rw [Op.Returns]; decide +kernel))

/-- A record of one mbuf leaves `sb_mbtail` behind, and the stream appended next takes the
place of the record: of two bytes counted only one is queued, and `sbflush` panics. -/
theorem stream_replaces_record :
    Run (fun _ _ => True) (oneRecord [dataMbuf 2 1] (some 2) (some 2) 2 512) ∧
      ¬(oneRecord [dataMbuf 2 1] (some 2) (some 2) 2 512).Accounted ∧
      sbflush 1 (oneRecord [dataMbuf 2 1] (some 2) (some 2) 2 512) = .wrong (.panic "sbdrop") 1 := by
  have h1 : Run (fun _ _ => True) (oneRecord [dataMbuf 1 1] none (some 1) 1 256) :=
    .call (.sbappendrecord [dataMbuf 1 1]) (.empty 8192 16384) ⟨by decide, by decide⟩ trivial
      (by rw [Op.Returns]; decide +kernel)
  refine ⟨.call (.sbappendstream [dataMbuf 2 1]) h1 ⟨by decide, by decide⟩ trivial
    (by rw [Op.Returns]; decide +kernel), fun h => ?_, by decide +kernel⟩
  exact absurd h.cc (by decide)

-- the check of `sb_mbtail` does not notice
example : (oneRecord [dataMbuf 2 1] (some 2) (some 2) 2 512).sblastmbufchk = .ok () := by
  decide +kernel

/-- In every run whose new records are linked to more than their first mbuf exactly when
they are the last, `sb_mbtail` is the last mbuf of the queue. -/
theorem sockbuf_mbtail {sb : Sockbuf} (h : Run (fun sb op => op.RecordOk sb) sb) :
    sb.sb_mbtail = sb.records.lastMbuf ∧ (sb.sb_mbtail = none ↔ sb.records = []) ∧
      sb.sblastmbufchk = .ok () := by
  have hi : sb.Inv ∧ sb.HasTail := by
    induction h with
    | empty hiwat mbmax => exact ⟨inv_empty hiwat mbmax, rfl⟩
    | @call sb sb' op _ hw hs hr ih =>
      have hstream : op.StreamOk sb := by
        cases op with
        | sbappendstream m => exact .inl ih.2
        | _ => trivial
      exact ⟨inv_call ih.1 hw hstream hr, hasTail_call ih.1 ih.2 hw hs hr⟩
  obtain ⟨hi, ht⟩ := hi
  refine ⟨ht, ⟨fun hn => ?_, hi.mbtail⟩, by rw [sblastmbufchk, if_pos ht.symm]⟩
  rcases List.eq_nil_or_concat' sb.records with hq | ⟨Q, r, hq⟩
  · exact hq
  · obtain ⟨R, n, rfl⟩ := hi.concat (r := r) (by simp [hq])
    rw [ht, hq, Queue.lastMbuf_concat] at hn
    simp at hn

/-- A record of two mbufs of different types: the second one is linked. -/
theorem sockbuf_mbtail_two :
    (oneRecord [{ dataMbuf 1 1 with m_type := .header }, dataMbuf 2 1] (some 2) (some 1) 2
        512).sb_mbtail = some 2 ∧
      (oneRecord [{ dataMbuf 1 1 with m_type := .header }, dataMbuf 2 1] (some 2) (some 1) 2
        512).sblastmbufchk = .ok () := by
  have h : Run (fun sb op => op.RecordOk sb)
      (oneRecord [{ dataMbuf 1 1 with m_type := .header }, dataMbuf 2 1] (some 2) (some 1) 2 512) :=
    .call (.sbappendrecord [{ dataMbuf 1 1 with m_type := .header }, dataMbuf 2 1])
      (.empty 8192 16384) ⟨by decide, by decide⟩ (by rw [Op.RecordOk]; decide +kernel)
      (by rw [Op.Returns]; decide +kernel)
  exact ⟨(sockbuf_mbtail h).1, (sockbuf_mbtail h).2.2⟩

example : absorbsRecord [dataMbuf 1 1] = true := by decide +kernel

/-- A record of one mbuf in an empty buffer leaves `sb_mbtail` at `NULL`. -/
theorem record_without_mbtail :
    Run (fun _ _ => True) (oneRecord [dataMbuf 1 1] none (some 1) 1 256) ∧
      (oneRecord [dataMbuf 1 1] none (some 1) 1 256).sblastmbufchk =
        .error (.panic "sblastmbufchk") :=
  ⟨.call (.sbappendrecord [dataMbuf 1 1]) (.empty 8192 16384) ⟨by decide, by decide⟩ trivial
    (by rw [Op.Returns]; decide +kernel), by decide +kernel⟩

end OpenbsdKernel.UipcSocket2
