import OpenbsdKernel.Net.BsdComp.Dictionary

/-!
# Runs of the decompressor

A code two beyond the last one in use passes the range check. It is shown as the one before
it, but then the next code becomes the one it says it is: its own prefix, so that its string
does not end. In every run without this, each call returns, and the dictionary is sound.
-/
namespace OpenbsdKernel.BsdComp

variable {z : Sizes} {db db' : BsdDb} {s : Coding} {incode : ℕ}

/-- The codes in use are within the dictionary and as long as `lens` says. -/
structure Sound (db : BsdDb) : Prop where
  last : db.max_ent ≤ db.maxmaxcode
  lens : ∀ code, InUse db code → ChainLength db code (db.lens code)

theorem Consistent.sound (h : Consistent db) : Sound db :=
  ⟨h.last, fun _ hu => h.chain hu⟩

/-- A code that is refused or for which there is no room does no harm, and one after a code
in use. -/
def Harmless (z : Sizes) (s : Coding) (incode : ℕ) : Prop :=
  incode = CLEAR ∨ Refused s incode ∨ s.oldcode = CLEAR ∨ s.oldcode ≤ s.db.max_ent ∨
    ∃ code, makeRoom z s (s.db.lens (shown s incode) + (decide (incode > s.db.max_ent)).toNat) = .error code

/-- The next byte completes no code that does harm. -/
def Meets (z : Sizes) (s : Coding) : Prop :=
  ∀ b cur t incode, s.cur = b :: cur → readByte s b cur = (t, some incode) → Harmless z t incode

/-- No code of the message does harm. -/
def Plain (z : Sizes) (db : BsdDb) (pkt : Packet) : Prop :=
  ∀ s₀, start z db pkt = .ok (.inr s₀) → ∀ s, Loop.Reaches (codeStep z) s₀ s → Meets z s

/-- The header of a result fits into its first mbuf. -/
def Fits (z : Sizes) (hdrlen : ℕ) : Prop :=
  hdrlen + PPP_HDRLEN ≤ z.MHLEN ∧ hdrlen + PPP_HDRLEN ≤ z.MCLBYTES

/-- A dictionary as it is after some messages, none of which did harm. -/
inductive Run (z : Sizes) : BsdDb → Prop
  | init {options options' : List Byte} {lens : ℕ → ℕ} {hdrlen : ℕ} {mru : u_int} {db₀ db : BsdDb}
      (hh : Fits z hdrlen) (ha : bsd_alloc options lens = some db₀)
      (hi : bsd_init db₀ options' hdrlen mru = some db) : Run z db
  | packet {db : BsdDb} {pkt : Packet} {r : Result} (h : Run z db) (hp : Plain z db pkt)
      (hr : bsd_decompress z db pkt = .ok r) : Run z r.db

/-- The same dictionary, or a part of it. -/
structure Kept (db db' : BsdDb) : Prop where
  hsize : db'.hsize = db.hsize
  hshift : db'.hshift = db.hshift
  hdrlen : db'.hdrlen = db.hdrlen
  maxmaxcode : db'.maxmaxcode = db.maxmaxcode
  lens : db'.lens = db.lens
  dict : db'.dict = db.dict
  max_ent : db'.max_ent = db.max_ent ∨ db'.max_ent = CLEAR

theorem Kept.consistent (hk : Kept db db') (h : Consistent db) : Consistent db' := by
  have hle : db'.max_ent ≤ db.max_ent := by
    obtain heq | heq := hk.max_ent
    · exact heq.le
    · exact heq ▸ h.first
  refine ⟨?_, ?_, ?_, ?_, ?_, fun code hfirst hcode => ?_, ?_⟩
  · obtain ⟨h1, h2, h3, h4, h5, h6⟩ := h.layout
    constructor <;> simpa only [hk.hsize, hk.maxmaxcode, hk.hshift]
  · obtain heq | heq := hk.max_ent
    · exact heq ▸ h.first
    · exact heq.ge
  · rw [hk.maxmaxcode]
    exact hle.trans h.last
  · rw [hk.lens]
    exact h.bytes
  · rw [hk.hsize, hk.dict]
    exact h.cptrs
  · obtain ⟨howner, hused, hlt, hlen⟩ := h.linked code hfirst (hcode.trans hle)
    refine ⟨?_, ?_, ?_, ?_⟩ <;> rw [hk.dict]
    · exact howner
    · exact ⟨hused.1, hlt.le.trans hcode⟩
    · exact hlt
    · rw [hk.lens]
      exact hlen
  · rw [hk.hsize, hk.dict]
    exact h.track

theorem Kept.trans {db'' : BsdDb} (h : Kept db db') (h' : Kept db' db'') : Kept db db'' where
  hsize := h'.hsize.trans h.hsize
  hshift := h'.hshift.trans h.hshift
  hdrlen := h'.hdrlen.trans h.hdrlen
  maxmaxcode := h'.maxmaxcode.trans h.maxmaxcode
  lens := h'.lens.trans h.lens
  dict := h'.dict.trans h.dict
  max_ent := h'.max_ent.elim (fun heq => heq ▸ h.max_ent) .inr

theorem bsd_clear_kept (db : BsdDb) : Kept db (bsd_clear db) :=
  ⟨rfl, rfl, rfl, rfl, rfl, rfl, .inr rfl⟩

theorem bsd_check_kept (db : BsdDb) : Kept db (bsd_check db) := by
  rw [bsd_check]
  split_ifs <;> first
    | exact ⟨rfl, rfl, rfl, rfl, rfl, rfl, .inl rfl⟩
    | rw [checkRatio]
      dsimp only
      split_ifs <;> first
        | exact ⟨rfl, rfl, rfl, rfl, rfl, rfl, .inl rfl⟩
        | exact ⟨rfl, rfl, rfl, rfl, rfl, rfl, .inr rfl⟩

theorem finish_kept (s : Coding) : Kept s.db (finish s).db := by
  obtain ⟨h1, h2, h3, h4, h5, h6, h7⟩ := bsd_check_kept { s.db with
    bytes_out := s.db.bytes_out + s.ilen, in_count := s.db.in_count + s.explen }
  exact ⟨h1, h2, h3, h4, h5, h6, h7⟩

/-- Between two rounds, the code before is within the dictionary, in use or not, and the room that
is left is within the mbuf. -/
structure Coding.Ok (z : Sizes) (s : Coding) : Prop where
  dict : Consistent s.db
  old : s.oldcode ≤ s.db.maxmaxcode
  fits : Fits z s.db.hdrlen
  room : s.wptr + s.space ≤ s.dmp.size
  space : 0 ≤ s.space

/-- What a round that ends the call leaves. -/
def Result.Ok (z : Sizes) (r : Result) : Prop := Consistent r.db ∧ Fits z r.db.hdrlen

theorem Coding.Ok.kept (h : s.Ok z) {r : Result} (hk : Kept s.db r.db) : r.Ok z :=
  ⟨hk.consistent h.dict, hk.hdrlen ▸ h.fits⟩

theorem makeRoom_spec {t : Coding} {n : ℕ} (h : makeRoom z s n = .ok t)
    (hroom : s.wptr + s.space ≤ s.dmp.size) :
    t.db = s.db ∧ t.oldcode = s.oldcode ∧ t.cur = s.cur ∧ t.cmp = s.cmp ∧
      t.wptr + (n + t.space) ≤ t.dmp.size ∧ 0 ≤ t.space := by
  rw [makeRoom] at h
  dsimp only at h
  split_ifs at h with hmru hspace
  · cases hm : s.mget with
    | nil => rw [hm] at h; cases h
    | cons answer mget =>
      rw [hm] at h
      cases answer with
      | none => cases h
      | some cluster =>
        dsimp only at h
        split_ifs at h with hsize
        all_goals
          cases h
          refine ⟨rfl, rfl, rfl, rfl, ?_, ?_⟩ <;> push_cast <;> omega
  · cases h
    refine ⟨rfl, rfl, rfl, rfl, ?_, ?_⟩ <;> dsimp only <;> omega

theorem putCode_spec {code n : ℕ} (hfits : s.db.maxmaxcode < s.db.hsize)
    (hc : ChainLength s.db code n) (extra : Bool) (hroom : s.wptr + n + extra.toNat ≤ s.dmp.size) :
    ∃ m finchar, putCode s code n extra =
        .ok ({ s with dmp := m, wptr := s.wptr + n + extra.toNat }, finchar) ∧
      m.size = s.dmp.size ∧ finchar ≤ LAST := by
  obtain ⟨m, finchar, hrun, hsize, hf⟩ := @unwind_spec s.db code n hfits hc s.wptr s.dmp (by omega)
  rw [putCode, hrun]
  cases extra with
  | false => exact ⟨m, finchar, rfl, hsize, hf⟩
  | true =>
    rw [Bool.toNat_true] at hroom
    refine ⟨{ m with dat := Function.update m.dat (s.wptr + n) (BitVec.ofNat 8 finchar) }, finchar, ?_,
      hsize, hf⟩
    dsimp only [bind, Except.bind]
    rw [if_pos rfl, put_eq (by omega)]
    rfl

theorem newCode_spec {finchar : ℕ} (h : Consistent s.db)
    (hknown : s.oldcode = CLEAR ∨ s.oldcode ≤ s.db.max_ent) (hf : finchar ≤ LAST) :
    ∃ db', newCode s finchar = .ok db' ∧ Consistent db' ∧ db'.hdrlen = s.db.hdrlen ∧
      db'.maxmaxcode = s.db.maxmaxcode := by
  rw [newCode]
  split_ifs with hnew
  · exact install_spec h ⟨hnew.1, hknown.resolve_left hnew.1⟩ hnew.2 hf
  · exact ⟨s.db, rfl, h, rfl, rfl⟩

/-- How a round goes on or ends, when it does not go wrong. -/
def StepOk (z : Sizes) (s : Coding) : Loop.Step Coding Result Fault → Prop
  | .next t => t.Ok z ∧ t.cur = s.cur ∧ t.cmp = s.cmp
  | .done r => r.Ok z
  | .wrong _ => False

theorem useCode_spec (h : s.Ok z) (hclear : incode ≠ CLEAR) (hr : ¬Refused s incode)
    (hh : Harmless z s incode) : ∃ r, useCode z s incode = .ok r ∧ StepOk z s r := by
  have hfits := h.dict.layout.fits
  have hlast := h.dict.last
  have hkept : Result.Ok z ⟨.DECOMP_OK, s.db, []⟩ := ⟨h.dict, h.fits⟩
  have hbeyond : incode > s.db.max_ent → s.oldcode ≠ CLEAR :=
    fun hgt hc => hr (.inr (.inr ⟨hgt, hc⟩))
  obtain hknown | ⟨code, herr⟩ : (s.oldcode = CLEAR ∨ s.oldcode ≤ s.db.max_ent) ∨ ∃ code,
      makeRoom z s (s.db.lens (shown s incode) + (decide (incode > s.db.max_ent)).toNat) = .error code := by
    obtain hc | hc | hc | hc | hc := hh
    · exact absurd hc hclear
    · exact absurd hc hr
    · exact .inl (.inl hc)
    · exact .inl (.inr hc)
    · exact .inr hc
  · have hused : InUse s.db (shown s incode) := by
      rw [shown]
      split_ifs with hgt
      · have hne := hbeyond hgt
        exact ⟨hne, hknown.resolve_left hne⟩
      · exact ⟨hclear, Nat.le_of_not_lt hgt⟩
    have hchain := h.dict.chain hused
    have hlen : s.db.len (shown s incode) = .ok (s.db.lens (shown s incode)) :=
      if_pos (hused.2.trans hlast)
    rw [useCode, hlen]
    generalize s.db.lens (shown s incode) = n at hchain
    generalize decide (incode > s.db.max_ent) = extra
    dsimp only [bind, Except.bind]
    cases hroom : makeRoom z s (n + extra.toNat) with
    | error code => exact ⟨_, rfl, hkept⟩
    | ok t =>
      obtain ⟨hdb, hold, hcur, hcmp, hle, hspace⟩ := makeRoom_spec hroom h.room
      push_cast at hle
      rw [← hdb] at hfits hchain hknown
      rw [← hold] at hknown
      obtain ⟨m, finchar, hput, hsize, hf⟩ := putCode_spec hfits hchain extra (by omega)
      obtain ⟨db', hnew, hdb', hhdr, hmax⟩ := @newCode_spec
        { t with dmp := m, wptr := t.wptr + n + extra.toNat } finchar (hdb ▸ h.dict) hknown hf
      dsimp only
      rw [hput]
      dsimp only
      rw [hnew]
      refine ⟨_, rfl, ⟨hdb', ?_, ?_, ?_, hspace⟩, hcur, hcmp⟩
      · rw [hmax, hdb]
        exact Nat.le_of_not_lt fun hgt => hr (.inr (.inl hgt))
      · rw [hhdr, hdb]
        exact h.fits
      · dsimp only
        push_cast
        rw [hsize]
        omega
  · -- only the length of the code before is read, be it in use or not
    have hle : shown s incode ≤ s.db.maxmaxcode := by
      rw [shown]
      split_ifs with hgt
      · exact h.old
      · exact (Nat.le_of_not_lt hgt).trans hlast
    have hlen : s.db.len (shown s incode) = .ok (s.db.lens (shown s incode)) := if_pos hle
    rw [useCode, hlen]
    dsimp only [bind, Except.bind]
    rw [herr]
    exact ⟨_, rfl, hkept⟩

theorem takeCode_spec (h : s.Ok z) (hh : Harmless z s incode) : StepOk z s (takeCode z s incode) := by
  rw [takeCode]
  split_ifs with hclear hleft hr
  · exact ⟨h.dict, h.fits⟩
  · exact h.kept ((bsd_clear_kept s.db).trans
      (finish_kept { s with db := bsd_clear s.db, explen := 0, ilen := 0 }))
  · exact ⟨h.dict, h.fits⟩
  · obtain ⟨r, hrun, hok⟩ := useCode_spec h hclear hr hh
    rw [hrun]
    exact hok

theorem readByte_spec (h : s.Ok z) (b : Byte) (cur : List Byte) :
    (readByte s b cur).1.Ok z ∧ (readByte s b cur).1.cur = cur ∧
      (readByte s b cur).1.cmp = s.cmp := by
  rw [readByte]
  split_ifs <;> exact ⟨⟨h.dict, h.old, h.fits, h.room, h.space⟩, rfl, rfl⟩

theorem codeStep_spec (h : s.Ok z) (hm : Meets z s) :
    match codeStep z s with
    | .next t => t.Ok z ∧ t.rounds < s.rounds
    | .done r => r.Ok z
    | .wrong _ => False := by
  cases hcur : s.cur with
  | nil =>
    cases hcmp : s.cmp with
    | nil =>
      rw [codeStep, hcur, hcmp]
      exact h.kept (finish_kept s)
    | cons m cmp =>
      rw [codeStep, hcur, hcmp]
      refine ⟨⟨h.dict, h.old, h.fits, h.room, h.space⟩, ?_⟩
      simp only [Coding.rounds, hcur, hcmp, List.length_nil, List.map_cons, List.sum_cons]
      omega
  | cons b cur =>
    have hmeets := hm b cur
    obtain ⟨hok, hcur', hcmp'⟩ := readByte_spec h b cur
    rw [codeStep, hcur]
    dsimp only
    cases hread : readByte s b cur with
    | mk t incode =>
      rw [hread] at hok hcur' hcmp'
      dsimp only at hok hcur' hcmp'
      have hfewer {u : Coding} (h1 : u.cur = t.cur) (h2 : u.cmp = t.cmp) : u.rounds < s.rounds := by
        simp only [Coding.rounds, h1, h2, hcur', hcmp', hcur, List.length_cons]
        omega
      cases incode with
      | none => exact ⟨hok, hfewer rfl rfl⟩
      | some incode =>
        have hstep := takeCode_spec hok (hmeets t incode hcur hread)
        dsimp only
        cases hr : takeCode z t incode with
        | next u =>
          rw [hr] at hstep
          exact ⟨hstep.1, hfewer hstep.2.1 hstep.2.2⟩
        | done r =>
          rw [hr] at hstep
          exact hstep
        | wrong f =>
          rw [hr] at hstep
          exact hstep

theorem header_spec {m : Mbuf} (hm : m.m_data + 3 ≤ m.size) (adrs ctrl : Byte) :
    ∃ m', header m adrs ctrl = .ok m' ∧ m'.size = m.size := by
  rw [header, put_eq (by omega)]
  dsimp only [bind, Except.bind]
  rw [put_eq (by dsimp only; omega)]
  dsimp only
  rw [put_eq (by dsimp only; omega)]
  exact ⟨_, rfl, rfl⟩

theorem start_spec (h : Consistent db) (hf : Fits z db.hdrlen) (pkt : Packet) :
    ∃ r, start z db pkt = .ok r ∧
      match r with
      | .inl r => r.Ok z
      | .inr s => s.Ok z := by
  rw [start]
  dsimp only
  cases readSeq (pkt.cmp.headD []) pkt.cmp.tail with
  | none => exact ⟨_, rfl, h, hf⟩
  | some seq =>
    obtain ⟨seq, cur, cmp⟩ := seq
    have hkept : Kept db { db with seqno := db.seqno + 1 } := ⟨rfl, rfl, rfl, rfl, rfl, rfl, .inl rfl⟩
    have hnext := hkept.consistent h
    dsimp only
    split_ifs with hseq
    · exact ⟨_, rfl, h, hf⟩
    cases hhdr : pkt.mgethdr with
    | none => exact ⟨_, rfl, hnext, hf⟩
    | some cluster =>
      have hsize : db.hdrlen + PPP_HDRLEN ≤ if cluster = true then z.MCLBYTES else z.MHLEN := by
        split_ifs
        · exact hf.2
        · exact hf.1
      dsimp only
      generalize (if cluster = true then z.MCLBYTES else z.MHLEN) = size at hsize
      rw [PPP_HDRLEN] at hsize
      obtain ⟨dmp, hrun, hdmp⟩ := @header_spec ⟨size, db.hdrlen, 0, fun _ => 0⟩ (by dsimp only; omega)
        ((pkt.cmp.headD []).getD 0 0) ((pkt.cmp.headD []).getD 1 0)
      rw [hrun]
      have hclear : CLEAR ≤ db.maxmaxcode := (Nat.le_succ _).trans h.layout.first
      refine ⟨_, rfl, hnext, hclear, hf, ?_, ?_⟩
      · dsimp only at hdmp ⊢
        rw [hdmp, PPP_HDRLEN]
        push_cast
        omega
      · dsimp only
        rw [PPP_HDRLEN]
        omega

/-- A call without a code that does harm returns, and keeps the dictionary consistent from
round to round. -/
theorem bsd_decompress_spec (h : Consistent db) (hf : Fits z db.hdrlen) {pkt : Packet}
    (hp : Plain z db pkt) :
    (∃ r, bsd_decompress z db pkt = .ok r ∧ r.Ok z) ∧
      ∀ s₀ s, start z db pkt = .ok (.inr s₀) → Loop.Reaches (codeStep z) s₀ s → s.Ok z := by
  obtain ⟨r, hstart, hok⟩ := start_spec h hf pkt
  rw [bsd_decompress, hstart]
  cases r with
  | inl r => exact ⟨⟨r, rfl, hok⟩, fun s₀ s h₀ => by cases h₀⟩
  | inr s₀ =>
    have hreach (s : Coding) (hs : Loop.Reaches (codeStep z) s₀ s) : s.Ok z := by
      induction hs with
      | refl => exact hok
      | next hs ht ih =>
        have hstep := codeStep_spec ih (hp s₀ hstart _ hs)
        rw [ht] at hstep
        exact hstep.1
    obtain ⟨r, n, hrun, -, hr⟩ := Loop.run_returns (codeStep z)
      (I := Loop.Reaches (codeStep z) s₀) (μ := fun s => s.rounds - 1) (Q := fun r => r.Ok z)
      (fun s t hs ht => by
        have hstep := codeStep_spec (hreach s hs) (hp s₀ hstart s hs)
        rw [ht] at hstep
        refine ⟨hs.next ht, ?_⟩
        have hpos : 0 < t.rounds := Nat.succ_pos _
        have := hstep.2
        omega)
      (fun s r hs hr => by
        have hstep := codeStep_spec (hreach s hs) (hp s₀ hstart s hs)
        rw [hr] at hstep
        exact hstep)
      (fun s f hs hw => by
        have hstep := codeStep_spec (hreach s hs) (hp s₀ hstart s hs)
        rw [hw] at hstep
        exact hstep)
      s₀.rounds s₀ .refl (Nat.pred_lt (Nat.succ_ne_zero _))
    refine ⟨⟨r, ?_, hr⟩, fun s₁ s h₁ hs => ?_⟩
    · dsimp only [bind, Except.bind]
      rw [hrun]
      rfl
    · cases h₁
      exact hreach s hs

theorem hash_lt {k code finchar hshift : ℕ} (hcode : code < 2 ^ k) (hs : 255 * 2 ^ hshift < 2 ^ k)
    (hf : finchar ≤ LAST) : BSD_HASH code finchar hshift < 2 ^ k := by
  refine Nat.xor_lt_two_pow ?_ hcode
  rw [Nat.shiftLeft_eq]
  exact (Nat.mul_le_mul_right _ hf).trans_lt hs

theorem layout_of_alloc {options : List Byte} {lens : ℕ → ℕ} (h : bsd_alloc options lens = some db) :
    Layout db := by
  rw [bsd_alloc] at h
  obtain ⟨bits, -, h⟩ := Option.bind_eq_some_iff.mp h
  obtain ⟨⟨hsize, hshift⟩, hhash, h⟩ := Option.bind_eq_some_iff.mp h
  cases h
  have hlayout (k : ℕ) (hp : hsize.Prime) (hk : MAXCODE bits < 2 ^ k ∧ 255 * 2 ^ hshift < 2 ^ k ∧
      2 ^ k ≤ hsize ∧ hsize ≤ 2 ^ 16 ∧ FIRST ≤ MAXCODE bits ∧ MAXCODE bits ≤ BADCODEM1)
      (dict : ℕ → BsdDict) :
      Layout ⟨hsize, hshift, 0, bits, 0, 0, 0, MAXCODE bits, 0, 0, 0, 0, 0, 0, 0, 0, 0, 0, 0, lens,
        dict⟩ := by
    obtain ⟨hmax, hshift, hlt, hsmall, hfirst, hbad⟩ := hk
    exact ⟨hp, hmax.trans_le hlt, hsmall, hfirst, hbad, fun code hcode finchar hf =>
      (hash_lt (hcode.trans_lt hmax) hshift hf).trans_le hlt⟩
  rw [hashSize] at hhash
  split_ifs at hhash with h12 h13 h14 h15 <;> cases hhash
  · obtain ⟨hlo, hhi⟩ := h12
    interval_cases bits <;> exact hlayout 12 (by norm_num) (by decide) _
  · subst h13
    exact hlayout 13 (by norm_num) (by decide) _
  · subst h14
    exact hlayout 14 (by norm_num) (by decide) _
  · subst h15
    exact hlayout 15 (by norm_num) (by decide) _

theorem init_spec {options : List Byte} {hdrlen : ℕ} {mru : u_int} (h : Layout db)
    (hi : bsd_init db options hdrlen mru = some db') : Consistent db' ∧ db'.hdrlen = hdrlen := by
  rw [bsd_init] at hi
  split_ifs at hi
  cases hi
  obtain ⟨h1, h2, h3, h4, h5, h6⟩ := h
  refine ⟨⟨⟨h1, h2, h3, h4, h5, h6⟩, le_rfl, (Nat.le_succ _).trans h4, fun code hcode => if_pos hcode,
    fun code hcode => ?_, fun code hfirst hcode =>
      absurd (hfirst.trans hcode) (show ¬FIRST ≤ FIRST - 1 by decide),
    fun slot hslot hbad => ?_⟩, rfl⟩
  · refine (congrArg BsdDict.cptr (if_pos hcode)).trans_lt ?_
    exact h1.pos
  · exact absurd (congrArg BsdDict.codem1 (if_pos hslot)) hbad

theorem Run.consistent (h : Run z db) : Consistent db ∧ Fits z db.hdrlen := by
  induction h with
  | init hh ha hi =>
    obtain ⟨hdb, hhdr⟩ := init_spec (layout_of_alloc ha) hi
    exact ⟨hdb, hhdr ▸ hh⟩
  | packet h hp hr ih =>
    obtain ⟨⟨r, hrun, hok⟩, -⟩ := bsd_decompress_spec ih.1 ih.2 hp
    rw [hr] at hrun
    cases hrun
    exact hok

/-- After messages without a code that does harm, the dictionary is sound, and the next such
message is decompressed without a fault, with a sound dictionary in every round. -/
theorem bsd_decompress_sound (h : Run z db) :
    Sound db ∧ ∀ pkt, Plain z db pkt →
      (∃ r, bsd_decompress z db pkt = .ok r) ∧
        ∀ s₀ s, start z db pkt = .ok (.inr s₀) → Loop.Reaches (codeStep z) s₀ s → Sound s.db := by
  obtain ⟨hdb, hfits⟩ := h.consistent
  refine ⟨hdb.sound, fun pkt hp => ?_⟩
  obtain ⟨⟨r, hrun, -⟩, hrounds⟩ := bsd_decompress_spec hdb hfits hp
  exact ⟨⟨r, hrun⟩, fun s₀ s h₀ hs => (hrounds s₀ s h₀ hs).dict.sound⟩

/-- No code comes after one that is not in use, in the rounds from `s` on. -/
def follows (z : Sizes) : ℕ → Coding → Bool
  | 0, _ => false
  | fuel + 1, s =>
    decide (s.oldcode = CLEAR ∨ s.oldcode ≤ s.db.max_ent) &&
      match codeStep z s with
      | .next t => follows z fuel t
      | _ => true

theorem follows_reaches {s t : Coding} {fuel : ℕ} (h : follows z fuel s) (hs : Loop.Reaches (codeStep z) s t) :
    ∃ fuel', follows z fuel' t := by
  induction hs with
  | refl => exact ⟨fuel, h⟩
  | next _ ht ih =>
    obtain ⟨fuel', ih⟩ := ih
    cases fuel' with
    | zero => cases ih
    | succ fuel' =>
      rw [follows, ht, Bool.and_eq_true] at ih
      exact ⟨fuel', ih.2⟩

theorem plain_of_follows {pkt : Packet} {fuel : ℕ}
    (h : ∀ s₀, start z db pkt = .ok (.inr s₀) → follows z fuel s₀) : Plain z db pkt := by
  intro s₀ h₀ s hs b cur t incode hcur hread
  obtain ⟨fuel', hf⟩ := follows_reaches (h s₀ h₀) hs
  cases fuel' with
  | zero => cases hf
  | succ fuel' =>
    rw [follows, Bool.and_eq_true] at hf
    have hold := of_decide_eq_true hf.1
    have hsame : t.oldcode = s.oldcode ∧ t.db = s.db := by
      rw [readByte] at hread
      split_ifs at hread <;> obtain ⟨rfl, -⟩ := Prod.mk.inj hread <;> exact ⟨rfl, rfl⟩
    rw [← hsame.1, ← hsame.2] at hold
    exact .inr (.inr (hold.imp_right .inl))

/-- A dictionary of nine bits, and the codes `97` and `257`, which is not in use before it is read. -/
theorem bsd_decompress_sound_kwkwk : ∃ db,
    (bsd_alloc [21, 3, 41] fun _ => 0).bind (bsd_init · [21, 3, 41] 0 1500) = some db ∧ Sound db ∧
      ∃ r, bsd_decompress ⟨160, 224, 2048⟩ db
        ⟨[[0xff, 0x03, 0x00, 0xfd, 0, 0, 0x30, 0xc0, 0x40]], some true, []⟩ = .ok r := by
  have h := @bsd_decompress_sound ⟨160, 224, 2048⟩ _ (@Run.init _ [21, 3, 41] [21, 3, 41] (fun _ => 0)
    0 1500 _ _ ⟨by decide, by decide⟩ rfl rfl)
  refine ⟨_, rfl, h.1, (h.2 _ (@plain_of_follows _ _ _ 5 fun s₀ h₀ => ?_)).1⟩
  cases h₀
  rfl

/-- The codes `97`, `258`, `98` and `258` again: the second is two beyond the last one in use,
and with the third it becomes its own prefix. -/
theorem bsd_decompress_outside : ∃ db,
    (bsd_alloc [21, 3, 41] fun _ => 0).bind (bsd_init · [21, 3, 41] 0 1500) = some db ∧
      bsd_decompress ⟨160, 224, 2048⟩ db
        ⟨[[0xff, 0x03, 0x00, 0xfd, 0, 0, 0x30, 0xc0, 0x8c, 0x50, 0x20]], some true, []⟩ =
          .error .outside :=
  ⟨_, rfl, rfl⟩

end OpenbsdKernel.BsdComp
