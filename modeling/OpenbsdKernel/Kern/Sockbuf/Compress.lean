import OpenbsdKernel.Kern.Sockbuf.Basic

/-!
# What `sbcompress` does to the queue

Seen from the queue, `sbcompress` replaces the last mbuf `n` of one record by the list
`compress n eor chain`. This is proved from the loop, which works by address, and with it
that the counters move by what the queue gains and that `sb_mbtail` moves exactly when an
mbuf was linked.
-/
namespace OpenbsdKernel.UipcSocket2

section LinkAfter

variable {α : Type*} {p : α → Bool} {x y : α} {l : List α}

theorem linkAfter_of_forall (h : ∀ z ∈ l, p z = false) : linkAfter p x l = l := by
  induction l with
  | nil => rfl
  | cons z l ih =>
    rw [linkAfter, if_neg (by simp [h z]), ih fun w hw => h w (List.mem_cons_of_mem z hw)]

theorem linkAfter_append_singleton (h : ∀ z ∈ l, p z = false) (hy : p y = true) :
    linkAfter p x (l ++ [y]) = l ++ [y, x] := by
  induction l with
  | nil => simp [linkAfter, hy]
  | cons z l ih =>
    rw [List.cons_append, linkAfter, if_neg (by simp [h z]),
      ih fun w hw => h w (List.mem_cons_of_mem z hw), List.cons_append]

end LinkAfter

/-- What an mbuf counts for in `sb_cc`, `sb_datacc` and `sb_mbcnt`. -/
def Mbuf.usage (m : Mbuf) : ℕ × ℕ × ℕ := (m.m_len, m.dataLen, m.space)

def usage (l : List Mbuf) : ℕ × ℕ × ℕ := (l.map Mbuf.usage).sum

@[simp] theorem usage_nil : usage [] = 0 := rfl

@[simp] theorem usage_cons (m : Mbuf) (l : List Mbuf) : usage (m :: l) = m.usage + usage l := by
  simp [usage]

@[simp] theorem usage_append (l l' : List Mbuf) : usage (l ++ l') = usage l + usage l' := by
  simp [usage]

@[simp] theorem Mbuf.usage_setEor (m : Mbuf) (b : Bool) : (m.setEor b).usage = m.usage := rfl

theorem Mbuf.usage_grow {n m : Mbuf} (h : n.m_type = m.m_type) :
    (n.grow m.m_len).usage = n.usage + (m.m_len, m.dataLen, 0) := by
  have hd : n.isData = m.isData := by simp [Mbuf.isData, h]
  have hg : (n.grow m.m_len).isData = n.isData := rfl
  simp only [Mbuf.usage, Mbuf.dataLen, hg, hd, Prod.mk_add_mk, Prod.mk.injEq]
  refine ⟨rfl, ?_, rfl⟩
  split <;> rfl

/-- The three counters. -/
def Sockbuf.counters (sb : Sockbuf) : ℕ × ℕ × ℕ := (sb.sb_cc, sb.sb_datacc, sb.sb_mbcnt)

theorem Sockbuf.counters_link (sb : Sockbuf) (m : Mbuf) (n : Option Addr) :
    (sb.link m n).counters = sb.counters + m.usage := rfl

theorem Sockbuf.counters_merge (sb : Sockbuf) (m : Mbuf) (n : Option Addr) :
    (sb.merge m n).counters = sb.counters + (m.m_len, m.dataLen, 0) := rfl

def addrs (l : List Mbuf) : List Addr := l.map Mbuf.addr

@[simp] theorem addrs_nil : addrs [] = [] := rfl

@[simp] theorem addrs_cons (m : Mbuf) (l : List Mbuf) : addrs (m :: l) = m.addr :: addrs l := rfl

@[simp] theorem addrs_append (l l' : List Mbuf) : addrs (l ++ l') = addrs l ++ addrs l' := by
  simp [addrs]

@[simp] theorem Mbuf.addr_setEor (m : Mbuf) (b : Bool) : (m.setEor b).addr = m.addr := rfl

@[simp] theorem Mbuf.addr_grow (m : Mbuf) (k : ℕ) : (m.grow k).addr = m.addr := rfl

@[simp] theorem Mbuf.addr_trim (m : Mbuf) (k : ℕ) : (m.trim k).addr = m.addr := rfl

/-- `n` is the last mbuf of a record, with the mbufs `R` before it and the records `A` and
`B` around, and no two mbufs have the same address. -/
structure At (q A : Queue) (R : List Mbuf) (n : Mbuf) (B : Queue) : Prop where
  eq : q = A ++ (R ++ [n]) :: B
  nodup : (addrs q.flatten).Nodup

namespace At

variable {q A B : Queue} {R : List Mbuf} {n : Mbuf}

theorem ne_of_mem (h : At q A R n B) : ∀ x, x ∈ A.flatten ∨ x ∈ R ∨ x ∈ B.flatten →
    x.addr ≠ n.addr := by
  have hn := h.nodup
  simp only [h.eq, List.flatten_append, List.flatten_cons, addrs, List.map_append,
    List.nodup_append, List.mem_append, List.mem_map] at hn
  intro x hx he
  rcases hx with hx | hx | hx
  · exact hn.2.2 _ ⟨x, hx, rfl⟩ n.addr (by simp) he
  · exact hn.2.1.1.2.2 _ ⟨x, hx, rfl⟩ n.addr (by simp) he
  · exact hn.2.1.2.2 n.addr (by simp) _ ⟨x, hx, rfl⟩ he.symm

theorem lookup (h : At q A R n B) : q.lookup n.addr = some n := by
  have hf : q.flatten = (A.flatten ++ R) ++ n :: B.flatten := by simp [h.eq]
  rw [Queue.lookup, hf, List.find?_append, List.find?_eq_none.2, List.find?_cons_of_pos]
  · rfl
  · simp
  · intro x hx
    have hx' : x ∈ A.flatten ∨ x ∈ R := List.mem_append.1 hx
    simpa using h.ne_of_mem x (by tauto)

theorem update (h : At q A R n B) (f : Mbuf → Mbuf) :
    q.update n.addr f = A ++ (R ++ [f n]) :: B := by
  have hsame : ∀ l : List Mbuf, (∀ x ∈ l, x.addr ≠ n.addr) →
      l.map (fun m => if m.addr = n.addr then f m else m) = l := by
    intro l hl
    conv_rhs => rw [← List.map_id l]
    exact List.map_congr_left fun x hx => if_neg (hl x hx)
  have hq : ∀ C : Queue, (∀ x ∈ C.flatten, x.addr ≠ n.addr) →
      C.map (fun r => r.map fun m => if m.addr = n.addr then f m else m) = C := by
    intro C hC
    conv_rhs => rw [← List.map_id C]
    exact List.map_congr_left fun r hr => hsame r fun x hx => hC x (List.mem_flatten.2 ⟨r, hr, hx⟩)
  rw [Queue.update, h.eq, List.map_append, List.map_cons, List.map_append,
    hq A fun x hx => h.ne_of_mem x (.inl hx), hq B fun x hx => h.ne_of_mem x (.inr (.inr hx)),
    hsame R fun x hx => h.ne_of_mem x (.inr (.inl hx))]
  simp

theorem setNext (h : At q A R n B) (m : Mbuf) :
    q.setNext n.addr m = A ++ (R ++ [n] ++ [m]) :: B := by
  have hq : ∀ C : Queue, (∀ x ∈ C.flatten, x.addr ≠ n.addr) →
      C.map (linkAfter (fun k => k.addr = n.addr) m) = C := by
    intro C hC
    conv_rhs => rw [← List.map_id C]
    refine List.map_congr_left fun r hr => linkAfter_of_forall fun x hx => ?_
    simpa using hC x (List.mem_flatten.2 ⟨r, hr, hx⟩)
  rw [Queue.setNext, h.eq, List.map_append, List.map_cons,
    hq A fun x hx => h.ne_of_mem x (.inl hx), hq B fun x hx => h.ne_of_mem x (.inr (.inr hx)),
    linkAfter_append_singleton (fun x hx => by simpa using h.ne_of_mem x (.inr (.inl hx)))
      (by simp)]
  simp

end At

/-- `m` is thrown away when `n` stands before it and `rest` behind. -/
def Mbuf.dropped (m : Mbuf) (n : Option Mbuf) (rest : List Mbuf) (eor : Bool) : Bool :=
  m.m_len = 0 && (!eor || (rest.head?.or n).any fun o => o.m_type = m.m_type)

/-- The mbufs that `n` and a chain become. -/
def compress : Mbuf → Bool → List Mbuf → List Mbuf
  | n, eor, [] => [if eor then n.setEor true else n]
  | n, eor, m :: rest =>
    if m.dropped (some n) rest (eor || m.m_eor) then compress n (eor || m.m_eor) rest
    else if n.takes m then compress (n.grow m.m_len) (eor || m.m_eor) rest
    else n :: compress (m.setEor false) (eor || m.m_eor) rest

/-- Every mbuf of the chain is thrown away or copied into `n`: none is linked. -/
def absorbs : Mbuf → Bool → List Mbuf → Bool
  | _, _, [] => true
  | n, eor, m :: rest =>
    if m.dropped (some n) rest (eor || m.m_eor) then absorbs n (eor || m.m_eor) rest
    else if n.takes m then absorbs (n.grow m.m_len) (eor || m.m_eor) rest
    else false

theorem compress_addrs (chain : List Mbuf) : ∀ n eor, ∃ l,
    addrs (compress n eor chain) = n.addr :: l ∧ l.Sublist (addrs chain) := by
  induction chain with
  | nil => intro n eor; cases eor <;> exact ⟨[], rfl, List.nil_sublist _⟩
  | cons m rest ih =>
    intro n eor
    rw [compress]
    split_ifs
    · obtain ⟨l, hl, hs⟩ := ih n (eor || m.m_eor)
      exact ⟨l, hl, hs.trans (List.sublist_cons_self ..)⟩
    · obtain ⟨l, hl, hs⟩ := ih (n.grow m.m_len) (eor || m.m_eor)
      exact ⟨l, hl, hs.trans (List.sublist_cons_self ..)⟩
    · obtain ⟨l, hl, hs⟩ := ih (m.setEor false) (eor || m.m_eor)
      exact ⟨m.addr :: l, by rw [addrs_cons, hl]; rfl, hs.cons_cons _⟩

theorem compress_ne_nil (n : Mbuf) (eor : Bool) (chain : List Mbuf) : compress n eor chain ≠ [] := by
  obtain ⟨l, hl, -⟩ := compress_addrs chain n eor
  intro h
  simp [h] at hl

theorem compress_head (n : Mbuf) (eor : Bool) (chain : List Mbuf) :
    (compress n eor chain).head?.map Mbuf.addr = some n.addr := by
  obtain ⟨l, hl, -⟩ := compress_addrs chain n eor
  rw [← List.head?_map, ← addrs, hl]
  rfl

/-- The address of the last mbuf is that of `n` if the chain was absorbed. -/
theorem compress_getLast_of_absorbs (chain : List Mbuf) : ∀ n eor, absorbs n eor chain = true →
    (compress n eor chain).getLast?.map Mbuf.addr = some n.addr := by
  induction chain with
  | nil => intro n eor _; cases eor <;> rfl
  | cons m rest ih =>
    intro n eor h
    rw [absorbs] at h
    rw [compress]
    split_ifs at h ⊢
    · exact ih n _ h
    · exact ih (n.grow m.m_len) _ h

/-- The mbufs of a chain are new to the queue. -/
def Fresh (q : Queue) (chain : List Mbuf) : Prop :=
  (addrs chain).Nodup ∧ ∀ a ∈ addrs chain, a ∉ addrs q.flatten

namespace Fresh

variable {q : Queue} {m : Mbuf} {rest : List Mbuf}

theorem head (h : Fresh q (m :: rest)) : m.addr ∉ addrs q.flatten := h.2 _ (by simp)

theorem tail (h : Fresh q (m :: rest)) : Fresh q rest :=
  ⟨(List.nodup_cons.1 h.1).2, fun a ha => h.2 a (List.mem_cons_of_mem _ ha)⟩

/-- Whether a chain is new depends on the addresses in the queue alone. -/
theorem congr {q' : Queue} {chain : List Mbuf} (h : Fresh q chain)
    (hq : ∀ a, a ∈ addrs q'.flatten → a ∈ addrs q.flatten ∨ a ∉ addrs chain) :
    Fresh q' chain :=
  ⟨h.1, fun a ha hq' => (hq a hq').elim (h.2 a ha) (· ha)⟩

end Fresh

namespace At

variable {q A B : Queue} {R : List Mbuf} {n m : Mbuf}

/-- The last mbuf of the record is replaced by another one at the same address. -/
theorem replace (h : At q A R n B) {n' : Mbuf} (hn : n'.addr = n.addr) :
    At (A ++ (R ++ [n']) :: B) A R n' B := by
  refine ⟨rfl, ?_⟩
  have hq := h.nodup
  rw [h.eq] at hq
  simpa [hn] using hq

theorem addrs_replace (h : At q A R n B) {n' : Mbuf} (hn : n'.addr = n.addr) :
    addrs (A ++ (R ++ [n']) :: B).flatten = addrs q.flatten := by
  simp [h.eq, hn]

theorem perm_append (h : At q A R n B) :
    (addrs (A ++ (R ++ [n] ++ [m]) :: B).flatten).Perm (m.addr :: addrs q.flatten) := by
  have hl : addrs (A ++ (R ++ [n] ++ [m]) :: B).flatten =
      addrs (A.flatten ++ R ++ [n]) ++ m.addr :: addrs B.flatten := by simp
  have hr : addrs q.flatten = addrs (A.flatten ++ R ++ [n]) ++ addrs B.flatten := by
    simp [h.eq]
  rw [hl, hr]
  exact List.perm_middle

/-- An mbuf is linked behind the last one of the record. -/
theorem append (h : At q A R n B) (hm : m.addr ∉ addrs q.flatten) :
    At (A ++ (R ++ [n] ++ [m]) :: B) A (R ++ [n]) m B :=
  ⟨rfl, (h.perm_append).nodup_iff.2 (List.nodup_cons.2 ⟨hm, h.nodup⟩)⟩

end At

namespace Sockbuf

variable {sb : Sockbuf} {A B : Queue} {R : List Mbuf} {n m : Mbuf}

theorem deref_at (h : At sb.records A R n B) : sb.deref n.addr = .ok n := by
  rw [deref, h.lookup]

theorem discards_at (h : At sb.records A R n B) (rest : List Mbuf) (eor : Bool) :
    sb.discards m rest (some n.addr) eor = .ok (m.dropped (some n) rest eor) := by
  rw [discards, Mbuf.dropped]
  by_cases hl : m.m_len = 0
  · cases eor with
    | false => simp [hl]
    | true =>
      cases rest with
      | nil => simp [hl, sameTypeNext, deref_at h, bind, Except.bind]
      | cons o rest => simp [hl, sameTypeNext]
  · simp [hl]

theorem merges_at (h : At sb.records A R n B) : sb.merges m (some n.addr) = .ok (n.takes m) := by
  rw [merges, deref_at h]
  rfl

theorem sbcompress_cons (h : At sb.records A R n B) (rest : List Mbuf) (eor : Bool) :
    sbcompress (m :: rest) (some n.addr) eor sb =
      if m.dropped (some n) rest (eor || m.m_eor) then
        sbcompress rest (some n.addr) (eor || m.m_eor) (sb.discard m rest)
      else if n.takes m then
        sbcompress rest (some n.addr) (eor || m.m_eor) (sb.merge m (some n.addr))
      else sbcompress rest (some m.addr) (eor || m.m_eor) (sb.link m (some n.addr)) := by
  rw [sbcompress, discards_at h, merges_at h]
  rfl

/-- The outcome of `sbcompress` behind the mbuf `n`. -/
structure Compressed (sb : Sockbuf) (A : Queue) (R : List Mbuf) (n : Mbuf) (B : Queue)
    (eor : Bool) (chain : List Mbuf) (sb' : Sockbuf) : Prop where
  records : sb'.records = A ++ (R ++ compress n eor chain) :: B
  counters : sb'.counters + n.usage = sb.counters + usage (compress n eor chain)
  lastrecord : sb'.sb_lastrecord = sb.sb_lastrecord
  mbtail : sb'.sb_mbtail = if absorbs n eor chain then sb.sb_mbtail
    else (compress n eor chain).getLast?.map Mbuf.addr
  lock : sb'.sb_lock = sb.sb_lock

theorem compressed_nil (h : At sb.records A R n B) (eor : Bool) :
    ∃ sb', sbcompress [] (some n.addr) eor sb = .ok sb' ∧ Compressed sb A R n B eor [] sb' := by
  cases eor with
  | false =>
    exact ⟨sb, rfl, h.eq, by simp [compress], rfl, by simp [absorbs], rfl⟩
  | true =>
    refine ⟨sb.setRecords (sb.records.update n.addr fun n => n.setEor true), ?_, ?_⟩
    · simp [sbcompress, flagEor, deref_at h, bind, Except.bind]
    · exact ⟨h.update _, by simp [compress]; rfl, rfl, by simp [absorbs]; rfl, rfl⟩

/-! One round of the loop: what the rounds after it do gives what all of them do. -/

section Rounds

variable {eor : Bool} {rest : List Mbuf} {sb' : Sockbuf}

theorem Compressed.of_dropped (hd : m.dropped (some n) rest (eor || m.m_eor) = true)
    (hc : Compressed sb A R n B (eor || m.m_eor) rest sb') :
    Compressed sb A R n B eor (m :: rest) sb' := by
  have hcomp : compress n eor (m :: rest) = compress n (eor || m.m_eor) rest := by
    rw [compress, if_pos hd]
  have habs : absorbs n eor (m :: rest) = absorbs n (eor || m.m_eor) rest := by
    rw [absorbs, if_pos hd]
  exact ⟨by rw [hcomp]; exact hc.records, by rw [hcomp]; exact hc.counters, hc.lastrecord,
    by rw [hcomp, habs]; exact hc.mbtail, hc.lock⟩

theorem Compressed.of_merged (hd : ¬m.dropped (some n) rest (eor || m.m_eor) = true)
    (ht : n.takes m = true)
    (hc : Compressed (sb.merge m (some n.addr)) A R (n.grow m.m_len) B (eor || m.m_eor) rest sb') :
    Compressed sb A R n B eor (m :: rest) sb' := by
  have hcomp : compress n eor (m :: rest) = compress (n.grow m.m_len) (eor || m.m_eor) rest := by
    rw [compress, if_neg hd, if_pos ht]
  have habs : absorbs n eor (m :: rest) = absorbs (n.grow m.m_len) (eor || m.m_eor) rest := by
    rw [absorbs, if_neg hd, if_pos ht]
  refine ⟨by rw [hcomp]; exact hc.records, ?_, hc.lastrecord,
    by rw [hcomp, habs]; exact hc.mbtail, hc.lock⟩
  have htype : n.m_type = m.m_type := by
    simp only [Mbuf.takes, Bool.and_eq_true, decide_eq_true_eq] at ht
    exact ht.2
  have hcnt := hc.counters
  rw [Mbuf.usage_grow htype, counters_merge, ← hcomp] at hcnt
  have hcancel : sb'.counters + n.usage + (m.m_len, m.dataLen, 0) =
      sb.counters + usage (compress n eor (m :: rest)) + (m.m_len, m.dataLen, 0) := by
    rw [add_assoc, hcnt, add_right_comm]
  exact add_right_cancel hcancel

theorem Compressed.of_linked (hd : ¬m.dropped (some n) rest (eor || m.m_eor) = true)
    (ht : ¬n.takes m = true)
    (hc : Compressed (sb.link m (some n.addr)) A (R ++ [n]) (m.setEor false) B (eor || m.m_eor)
      rest sb') :
    Compressed sb A R n B eor (m :: rest) sb' := by
  have hcomp : compress n eor (m :: rest) =
      n :: compress (m.setEor false) (eor || m.m_eor) rest := by
    rw [compress, if_neg hd, if_neg ht]
  have habs : absorbs n eor (m :: rest) = false := by
    rw [absorbs, if_neg hd, if_neg ht]
  refine ⟨?_, ?_, hc.lastrecord, ?_, hc.lock⟩
  · rw [hc.records, hcomp]
    simp
  · have hcnt := hc.counters
    rw [counters_link, Mbuf.usage_setEor] at hcnt
    have hcancel : sb'.counters + m.usage =
        sb.counters + usage (compress (m.setEor false) (eor || m.m_eor) rest) + m.usage := by
      rw [hcnt, add_right_comm]
    rw [hcomp, usage_cons, add_right_cancel hcancel, add_assoc, add_comm n.usage]
  · rw [habs, hc.mbtail, hcomp, List.getLast?_cons_of_ne_nil (compress_ne_nil _ _ _)]
    split
    · next ha => exact (compress_getLast_of_absorbs rest (m.setEor false) _ ha).symm
    · rfl

end Rounds

/-- `sbcompress` behind the last mbuf `n` of a record. -/
theorem sbcompress_spec (chain : List Mbuf) : ∀ {sb : Sockbuf} {R : List Mbuf} {n : Mbuf}
    {eor : Bool}, At sb.records A R n B → Fresh sb.records chain →
    (∀ m ∈ chain, sb.sb_lastrecord ≠ some m.addr) →
    ∃ sb', sbcompress chain (some n.addr) eor sb = .ok sb' ∧
      Compressed sb A R n B eor chain sb' := by
  induction chain with
  | nil => intro sb R n eor h _ _; exact compressed_nil h eor
  | cons m rest ih =>
    intro sb R n eor h hf hlast
    have hrest : ∀ k ∈ rest, sb.sb_lastrecord ≠ some k.addr := fun k hk =>
      hlast k (List.mem_cons_of_mem m hk)
    have hdisc : sb.discard m rest = sb := by
      rw [discard, if_neg (hlast m (List.mem_cons_self ..))]
    rw [sbcompress_cons h]
    by_cases hd : m.dropped (some n) rest (eor || m.m_eor)
    · rw [if_pos hd, hdisc]
      obtain ⟨sb', hs, hc⟩ := ih h hf.tail hrest
      exact ⟨sb', hs, .of_dropped hd hc⟩
    rw [if_neg hd]
    by_cases ht : n.takes m
    · rw [if_pos ht]
      have hrec : (sb.merge m (some n.addr)).records = A ++ (R ++ [n.grow m.m_len]) :: B := h.update _
      have hat : At (sb.merge m (some n.addr)).records A R (n.grow m.m_len) B := by
        rw [hrec]
        exact h.replace rfl
      have hfr : Fresh (sb.merge m (some n.addr)).records rest :=
        hf.tail.congr fun a ha => .inl (by
          rw [hrec, h.addrs_replace (Mbuf.addr_grow n m.m_len)] at ha
          exact ha)
      obtain ⟨sb', hs, hc⟩ := ih hat hfr hrest
      exact ⟨sb', hs, .of_merged hd ht hc⟩
    · rw [if_neg ht]
      have hrec : (sb.link m (some n.addr)).records = A ++ (R ++ [n] ++ [m.setEor false]) :: B :=
        h.setNext _
      have hat : At (sb.link m (some n.addr)).records A (R ++ [n]) (m.setEor false) B := by
        rw [hrec]
        exact h.append hf.head
      have hfr : Fresh (sb.link m (some n.addr)).records rest := by
        refine hf.tail.congr fun a ha => ?_
        rw [hrec, (h.perm_append).mem_iff, List.mem_cons] at ha
        rcases ha with rfl | ha
        · exact .inr (List.nodup_cons.1 hf.1).1
        · exact .inl ha
      obtain ⟨sb', hs, hc⟩ := ih hat hfr hrest
      exact ⟨sb', hs, .of_linked hd ht hc⟩

/-- The outcome of `sbcompress` without an `n` on an empty queue: `X` is the only record, or
the queue stays empty. -/
structure Filled (sb : Sockbuf) (chain X : List Mbuf) (sb' : Sockbuf) : Prop where
  records : sb'.records = if X = [] then [] else [X]
  sublist : (addrs X).Sublist (addrs chain)
  counters : sb'.counters = sb.counters + usage X
  mbtail : sb'.sb_mbtail = if X = [] then sb.sb_mbtail else X.getLast?.map Mbuf.addr
  lastrecord : sb.sb_lastrecord = chain.head?.map Mbuf.addr →
    sb'.sb_lastrecord = X.head?.map Mbuf.addr
  lock : sb'.sb_lock = sb.sb_lock

theorem discards_null (sb : Sockbuf) (m : Mbuf) (rest : List Mbuf) (eor : Bool) :
    sb.discards m rest none eor = .ok (m.dropped none rest eor) := by
  rw [discards, Mbuf.dropped]
  by_cases hl : m.m_len = 0
  · cases eor with
    | false => simp [hl]
    | true => cases rest <;> simp [hl, sameTypeNext]
  · simp [hl]

theorem sbcompress_null_cons (sb : Sockbuf) (m : Mbuf) (rest : List Mbuf) (eor : Bool) :
    sbcompress (m :: rest) none eor sb =
      if m.dropped none rest (eor || m.m_eor) then
        sbcompress rest none (eor || m.m_eor) (sb.discard m rest)
      else sbcompress rest (some m.addr) (eor || m.m_eor) (sb.link m none) := by
  rw [sbcompress, discards_null]
  rfl

/-- The first mbuf that is kept becomes the queue. -/
theorem sbcompress_link_null {sb : Sockbuf} {m : Mbuf} {rest : List Mbuf} (eor : Bool)
    (hn : (addrs (m :: rest)).Nodup)
    (hlast : ∀ k ∈ rest, sb.sb_lastrecord ≠ some k.addr) :
    ∃ sb', sbcompress rest (some m.addr) eor (sb.link m none) = .ok sb' ∧
      Filled sb (m :: rest) (compress (m.setEor false) eor rest) sb' := by
  have hat : At (sb.link m none).records [] [] (m.setEor false) [] := ⟨rfl, by simp [link, sballoc]⟩
  have hfr : Fresh (sb.link m none).records rest := by
    refine ⟨(List.nodup_cons.1 hn).2, fun a ha hq => (List.nodup_cons.1 hn).1 ?_⟩
    have hm : a = m.addr := by simpa [link, sballoc] using hq
    exact hm ▸ ha
  obtain ⟨sb', hs, hc⟩ := sbcompress_spec rest hat hfr hlast
  refine ⟨sb', hs, ?_⟩
  have hne := compress_ne_nil (m.setEor false) eor rest
  obtain ⟨l, hl, hsub⟩ := compress_addrs rest (m.setEor false) eor
  refine ⟨by simpa [hne] using hc.records, ?_, ?_, ?_, ?_, hc.lock⟩
  · rw [hl]
    exact hsub.cons_cons _
  · have hcnt := hc.counters
    rw [counters_link, Mbuf.usage_setEor, add_right_comm] at hcnt
    exact add_right_cancel hcnt
  · rw [hc.mbtail, if_neg hne]
    split
    · next ha => exact (compress_getLast_of_absorbs rest (m.setEor false) _ ha).symm
    · rfl
  · intro hl
    rw [hc.lastrecord, compress_head]
    exact hl

/-- `sbcompress` on an empty queue. -/
theorem sbcompress_null_spec (chain : List Mbuf) : ∀ {sb : Sockbuf} {eor : Bool},
    sb.records = [] → (addrs chain).Nodup →
    (sb.sb_lastrecord = none ∨ sb.sb_lastrecord = chain.head?.map Mbuf.addr) →
    ∃ sb' X, sbcompress chain none eor sb = .ok sb' ∧ Filled sb chain X sb' := by
  induction chain with
  | nil =>
    intro sb eor hq _ _
    exact ⟨sb, [], rfl, hq, List.nil_sublist _, rfl, rfl, fun h => h, rfl⟩
  | cons m rest ih =>
    intro sb eor hq hn hl
    rw [sbcompress_null_cons]
    have hn' := List.nodup_cons.1 hn
    by_cases hd : m.dropped none rest (eor || m.m_eor)
    · rw [if_pos hd]
      have hl' : (sb.discard m rest).sb_lastrecord = none ∨
          (sb.discard m rest).sb_lastrecord = rest.head?.map Mbuf.addr := by
        rcases hl with hl | hl <;> simp [discard, hl]
      have hq' : (sb.discard m rest).records = [] := hq
      obtain ⟨sb', X, hs, hf⟩ := ih hq' hn'.2 hl'
      refine ⟨sb', X, hs, hf.records, hf.sublist.trans (List.sublist_cons_self ..), hf.counters,
        hf.mbtail, fun h => hf.lastrecord ?_, hf.lock⟩
      simp [discard, h]
    · rw [if_neg hd]
      have hlast : ∀ k ∈ rest, sb.sb_lastrecord ≠ some k.addr := by
        intro k hk he
        rcases hl with hl | hl
        · simp [hl] at he
        · rw [hl] at he
          exact hn'.1 (List.mem_map.2 ⟨k, hk, (Option.some.inj he).symm⟩)
      obtain ⟨sb', hs, hf⟩ := sbcompress_link_null (eor || m.m_eor) hn hlast
      exact ⟨sb', _, hs, hf⟩

end Sockbuf

end OpenbsdKernel.UipcSocket2
