import OpenbsdKernel.Lib.Probe
import OpenbsdKernel.Net.BsdComp.Decompress

/-!
# The dictionary of the decompressor

A code in use has a slot of the hash table to itself, and the code before its last
character is one that was in use before. So its string ends, and `lens` is the length of
it; a slot that has been given up is found again from its code.
-/
namespace OpenbsdKernel.BsdComp

variable {db db' : BsdDb} {code oldcode finchar slot n : ℕ}

/-- The number of characters of a code, read from the table. -/
inductive ChainLength (db : BsdDb) : ℕ → ℕ → Prop
  | byte {code : ℕ} (h : code ≤ LAST) : ChainLength db code 1
  | entry {code n : ℕ} (h : LAST < code) (hcode : code ≤ db.maxmaxcode)
      (hslot : (db.dict code).cptr < db.hsize)
      (hrest : ChainLength db (db.dict (db.dict code).cptr).hsPrefix n) :
      ChainLength db code (n + 1)

/-- The bytes and the codes that have been allocated. -/
def InUse (db : BsdDb) (code : ℕ) : Prop := code ≠ CLEAR ∧ code ≤ db.max_ent

/-- What `bsd_alloc` chooses. -/
structure Layout (db : BsdDb) : Prop where
  prime : db.hsize.Prime
  fits : db.maxmaxcode < db.hsize
  small : db.hsize ≤ 2 ^ 16
  first : FIRST ≤ db.maxmaxcode
  bad : db.maxmaxcode ≤ BADCODEM1
  hash : ∀ code ≤ db.maxmaxcode, ∀ finchar ≤ LAST, BSD_HASH code finchar db.hshift < db.hsize

/-- The entry of an allocated code. -/
structure Linked (db : BsdDb) (code : ℕ) : Prop where
  owner : (db.dict (db.dict code).cptr).codem1 + 1 = code
  prefix_used : InUse db (db.dict (db.dict code).cptr).hsPrefix
  prefix_lt : (db.dict (db.dict code).cptr).hsPrefix < code
  len : db.lens code = db.lens (db.dict (db.dict code).cptr).hsPrefix + 1

structure Consistent (db : BsdDb) : Prop where
  layout : Layout db
  first : CLEAR ≤ db.max_ent
  last : db.max_ent ≤ db.maxmaxcode
  bytes : ∀ code ≤ LAST, db.lens code = 1
  cptrs : ∀ code < db.hsize, (db.dict code).cptr < db.hsize
  linked : ∀ code, FIRST ≤ code → code ≤ db.max_ent → Linked db code
  track : ∀ slot < db.hsize, (db.dict slot).codem1 ≠ BADCODEM1 →
    (db.dict ((db.dict slot).codem1 + 1)).cptr = slot

namespace Consistent

theorem code_lt (h : Consistent db) (hcode : code ≤ db.max_ent) : code < db.hsize :=
  (hcode.trans h.last).trans_lt h.layout.fits

theorem allocated (h : Consistent db) (hu : InUse db code) (hlast : LAST < code) : Linked db code := by
  obtain ⟨hclear, hmax⟩ := hu
  refine h.linked code ?_ hmax
  simp only [CLEAR, LAST, FIRST] at *
  omega

theorem chain (h : Consistent db) : InUse db code → ChainLength db code (db.lens code) := by
  induction code using Nat.strong_induction_on with
  | _ code ih =>
    intro hu
    obtain hbyte | hlast := le_or_gt code LAST
    · rw [h.bytes code hbyte]
      exact .byte hbyte
    · have hl := h.allocated hu hlast
      rw [hl.len]
      exact .entry hlast (hu.2.trans h.last) (h.cptrs code (h.code_lt hu.2))
        (ih _ hl.prefix_lt hl.prefix_used)

theorem lens_le (h : Consistent db) : InUse db code → db.lens code ≤ code + 1 := by
  induction code using Nat.strong_induction_on with
  | _ code ih =>
    intro hu
    obtain hbyte | hlast := le_or_gt code LAST
    · rw [h.bytes code hbyte]
      omega
    · have hl := h.allocated hu hlast
      have := ih _ hl.prefix_lt hl.prefix_used
      have := hl.prefix_lt
      rw [hl.len]
      omega

end Consistent

theorem cptr_eq (hcode : code ≤ db.maxmaxcode) (hfits : db.maxmaxcode < db.hsize) :
    db.cptr code = .ok (db.dict code).cptr := by
  rw [BsdDb.cptr, if_pos hcode, BsdDb.slot, if_pos (by omega)]
  rfl

theorem slot_eq (hslot : slot < db.hsize) : db.slot slot = .ok (db.dict slot) := if_pos hslot

theorem put_eq {m : Mbuf} {i : ℕ} (hi : i < m.size) (b : Byte) :
    m.put i b = .ok { m with dat := Function.update m.dat i b } := if_pos hi

theorem unwind_spec (hfits : db.maxmaxcode < db.hsize) (hc : ChainLength db code n) {k : ℕ} :
    ∀ {m : Mbuf}, k + n ≤ m.size →
      ∃ m' finchar, unwind db (k + n) code m = .ok (m', finchar) ∧ m'.size = m.size ∧
        finchar ≤ LAST := by
  induction hc with
  | @byte code h =>
    intro m hm
    refine ⟨{ m with dat := Function.update m.dat k (BitVec.ofNat 8 code) }, code, ?_, rfl, h⟩
    rw [unwind, if_neg (Nat.not_lt.mpr h), put_eq (by omega)]
    rfl
  | @entry code n h hcode hslot hrest ih =>
    intro m hm
    obtain ⟨m', finchar, hrun, hsize, hf⟩ := @ih { m with
      dat := Function.update m.dat (k + n) (db.dict (db.dict code).cptr).hsSuffix } (by dsimp only; omega)
    refine ⟨m', finchar, ?_, hsize, hf⟩
    rw [← Nat.add_assoc, unwind, if_pos h, cptr_eq hcode hfits]
    dsimp only [bind, Except.bind]
    rw [slot_eq hslot]
    dsimp only
    rw [put_eq (by omega)]
    exact hrun

/-- The probe ends: the slots whose codes are in use are fewer than the table has. -/
theorem probe_spec (h : Consistent db) {hval : ℕ} (hh : hval < db.hsize) :
    ∃ slot, probe db hval = .ok slot ∧ slot < db.hsize ∧ db.max_ent ≤ (db.dict slot).codem1 := by
  have hpos := h.layout.prime.pos
  have hbad := h.last.trans h.layout.bad
  obtain ⟨disp, hdisp⟩ : ∃ disp, disp = if hval = 0 then 1 else hval := ⟨_, rfl⟩
  have hd : 0 < disp ∧ disp < db.hsize := by
    have := h.layout.prime.one_lt
    rw [hdisp]
    split_ifs <;> omega
  have hc : db.hsize.Coprime disp := 
    Nat.coprime_of_lt_prime hd.1.ne' hd.2 h.layout.prime
  obtain ⟨i, hi, hfree⟩ := @Probe.exists_free db.hsize disp hval hc db.max_ent
    (h.last.trans_lt h.layout.fits) (fun s => (db.dict s).codem1) fun s hs t ht hlt heq => by
      rw [← h.track s hs (by omega), ← h.track t ht (by omega), heq]
  obtain ⟨r, k, hrun, hr, hfr⟩ := Probe.run_returns (probeStep db disp)
    (fun s => db.max_ent ≤ (db.dict s).codem1) hd.2
    (fun s hs hf => by
      rw [probeStep, slot_eq hs]
      exact if_neg (Nat.not_lt.mpr hf))
    (fun s hs hf => by
      rw [probeStep, slot_eq hs]
      exact if_pos (Nat.lt_of_not_le hf)) hh hfree hi
  refine ⟨r, ?_, hr, hfr⟩
  rw [probe, ← hdisp, hrun]

/-- The dictionary with a new code at `slot`. -/
structure Installed (db db' : BsdDb) (slot oldcode : ℕ) : Prop where
  hsize : db'.hsize = db.hsize
  hshift : db'.hshift = db.hshift
  hdrlen : db'.hdrlen = db.hdrlen
  maxmaxcode : db'.maxmaxcode = db.maxmaxcode
  max_ent : db'.max_ent = db.max_ent + 1
  cptr : ∀ x, (db'.dict x).cptr = if x = db.max_ent + 1 then slot else (db.dict x).cptr
  codem1 : ∀ x, (db'.dict x).codem1 = if x = slot then db.max_ent
    else if x = (db.dict (db.max_ent + 1)).cptr ∧ (db.dict x).codem1 = db.max_ent then BADCODEM1
    else (db.dict x).codem1
  hsPrefix : ∀ x, (db'.dict x).hsPrefix = if x = slot then oldcode else (db.dict x).hsPrefix
  lens : ∀ c, db'.lens c = if c = db.max_ent + 1 then db.lens oldcode + 1 else db.lens c

theorem BSD_KEY_mod (ho : oldcode < 2 ^ 16) (finchar : ℕ) :
    BSD_KEY oldcode finchar % 2 ^ 32 % 2 ^ 16 = oldcode := by
  rw [BSD_KEY, Nat.shiftLeft_eq]
  omega

theorem disown_same (db : BsdDb) (old : ℕ) : (disown db old).max_ent = db.max_ent ∧
    (disown db old).hsize = db.hsize ∧ (disown db old).hshift = db.hshift ∧
    (disown db old).hdrlen = db.hdrlen ∧ (disown db old).maxmaxcode = db.maxmaxcode ∧
    (disown db old).lens = db.lens := by
  rw [disown]
  split_ifs <;> exact ⟨rfl, rfl, rfl, rfl, rfl, rfl⟩

theorem disown_dict (old x : ℕ) : (disown db old).dict x =
    if x = old ∧ (db.dict x).codem1 = db.max_ent then { db.dict x with codem1 := BADCODEM1 }
    else db.dict x := by
  by_cases hx : x = old
  · subst hx
    by_cases hk : (db.dict x).codem1 = db.max_ent
    · rw [disown, if_pos hk, if_pos ⟨rfl, hk⟩]
      exact Function.update_self ..
    · rw [disown, if_neg hk, if_neg fun h => hk h.2]
  · have hne : ¬(x = old ∧ (db.dict x).codem1 = db.max_ent) := fun h => hx h.1
    rw [if_neg hne, disown]
    split_ifs
    · exact Function.update_of_ne hx ..
    · rfl

theorem own_dict (db : BsdDb) (slot oldcode finchar x : ℕ) (hslot : slot < 2 ^ 16) (hmax : db.max_ent < 2 ^ 16) :
    (own db slot oldcode finchar).dict x =
      { fcode := if x = slot then BSD_KEY oldcode finchar % 2 ^ 32 else (db.dict x).fcode
        codem1 := if x = slot then db.max_ent else (db.dict x).codem1
        cptr := if x = db.max_ent + 1 then slot else (db.dict x).cptr } := by
  simp only [own, BsdDb.set, Function.update_apply, Nat.mod_eq_of_lt hslot, Nat.mod_eq_of_lt hmax]
  split_ifs <;> simp_all

theorem install_eq (h : Consistent db) (hold : InUse db oldcode) (hroom : db.max_ent < db.maxmaxcode)
    (hf : finchar ≤ LAST) :
    ∃ db' slot, install db oldcode finchar = .ok db' ∧ Installed db db' slot oldcode ∧
      slot < db.hsize ∧ db.max_ent ≤ (db.dict slot).codem1 := by
  have hfits := h.layout.fits
  have hsmall := h.layout.small
  have hbad : db.maxmaxcode ≤ 32767 := h.layout.bad
  have hold' := hold.2.trans h.last
  obtain ⟨slot, hprobe, hslot, hfree⟩ := probe_spec h (h.layout.hash oldcode hold' finchar hf)
  have hlen : (db.lens oldcode + 1) % 2 ^ 16 = db.lens oldcode + 1 := by
    have := h.lens_le hold
    exact Nat.mod_eq_of_lt (by omega)
  have hmod : db.max_ent % 2 ^ 16 = db.max_ent := Nat.mod_eq_of_lt (by omega)
  have hslot' : slot % 2 ^ 16 = slot := Nat.mod_eq_of_lt (by omega)
  obtain ⟨old, hold_eq⟩ : ∃ old, old = (db.dict (db.max_ent + 1)).cptr := ⟨_, rfl⟩
  refine ⟨grow (own (disown db old) slot oldcode finchar) (db.lens oldcode), slot, ?_, ?_, hslot, hfree⟩
  · rw [install, hprobe, cptr_eq hroom hfits, ← hold_eq,
      show db.len oldcode = .ok (db.lens oldcode) from if_pos hold']
    dsimp only [bind, Except.bind]
    rw [slot_eq (hold_eq ▸ h.cptrs _ (by omega))]
    rfl
  · obtain ⟨hmax, hsize, hshift, hhdr, hcode, hlens⟩ := disown_same db old
    have hdict (x : ℕ) := own_dict (disown db old) slot oldcode finchar x (by omega) (by omega)
    refine ⟨hsize, hshift, hhdr, hcode, congrArg (· + 1) hmax, fun x => ?_, fun x => ?_, fun x => ?_,
      fun c => ?_⟩
    · rw [grow, hdict, disown_dict, hmax]
      split_ifs <;> rfl
    · rw [grow, hdict, disown_dict, hmax, hold_eq]
      split_ifs <;> rfl
    · rw [grow, hdict, disown_dict, BsdDict.hsPrefix]
      dsimp only
      split_ifs <;> first | exact BSD_KEY_mod (by omega) finchar | rfl
    · rw [grow, hlen]
      dsimp only
      rw [Function.update_apply, show (own (disown db old) slot oldcode finchar).lens = db.lens from hlens,
        show (own (disown db old) slot oldcode finchar).max_ent = db.max_ent from hmax]

/-- A new code keeps the dictionary consistent if the code before it was in use. -/
theorem Installed.consistent (h : Consistent db) (hold : InUse db oldcode)
    (hroom : db.max_ent < db.maxmaxcode) (hi : Installed db db' slot oldcode)
    (hslot : slot < db.hsize) (hfree : db.max_ent ≤ (db.dict slot).codem1) : Consistent db' where
  layout := by
    obtain ⟨h1, h2, h3, h4, h5, h6⟩ := h.layout
    constructor <;> simpa only [hi.hsize, hi.maxmaxcode, hi.hshift]
  first := by rw [hi.max_ent]; exact h.first.trans (Nat.le_succ _)
  last := by rw [hi.max_ent, hi.maxmaxcode]; exact hroom
  bytes := fun code hcode => by
    have := h.first
    rw [hi.lens, if_neg (by simp only [CLEAR, LAST] at *; omega)]
    exact h.bytes code hcode
  cptrs := fun code hcode => by
    rw [hi.hsize] at hcode ⊢
    rw [hi.cptr]
    split_ifs
    · exact hslot
    · exact h.cptrs code hcode
  linked := fun code hfirst hcode => by
    rw [hi.max_ent] at hcode
    obtain hlast | rfl | hlt := lt_trichotomy (db.max_ent + 1) code
    · omega
    · have hmax := hold.2
      have hp : (db'.dict (db'.dict (db.max_ent + 1)).cptr).hsPrefix = oldcode := by
        rw [hi.cptr, if_pos rfl, hi.hsPrefix, if_pos rfl]
      refine ⟨?_, ?_, ?_, ?_⟩
      · rw [hi.cptr, if_pos rfl, hi.codem1, if_pos rfl]
      · rw [hp]
        exact ⟨hold.1, hi.max_ent ▸ hmax.trans (Nat.le_succ _)⟩
      · rw [hp]
        omega
      · rw [hp, hi.lens, if_pos rfl, hi.lens, if_neg (by omega)]
    · have hl := h.linked code hfirst (by omega)
      have hlt' := hl.prefix_lt
      have howner := hl.owner
      have hc : (db'.dict code).cptr = (db.dict code).cptr := by
        rw [hi.cptr, if_neg (by omega)]
      have hne : (db.dict code).cptr ≠ slot := by
        intro heq
        rw [heq] at howner
        omega
      have hp : (db'.dict (db'.dict code).cptr).hsPrefix =
          (db.dict (db.dict code).cptr).hsPrefix := by
        rw [hc, hi.hsPrefix, if_neg hne]
      refine ⟨?_, ?_, ?_, ?_⟩
      · rw [hc, hi.codem1, if_neg hne, if_neg (by omega)]
        exact howner
      · rw [hp]
        exact ⟨hl.prefix_used.1, hi.max_ent ▸ hl.prefix_used.2.trans (Nat.le_succ _)⟩
      · rw [hp]
        exact hlt'
      · rw [hp, hi.lens, if_neg (by omega), hi.lens, if_neg (by omega)]
        exact hl.len
  track := fun s hs hbad => by
    rw [hi.hsize] at hs
    rw [hi.codem1] at hbad ⊢
    split_ifs at hbad ⊢ with hslot' hinv
    · rw [hi.cptr, if_pos rfl, hslot']
    · exact absurd rfl hbad
    · have htrack := h.track s hs hbad
      rw [hi.cptr, if_neg, htrack]
      intro heq
      obtain heq : (db.dict s).codem1 = db.max_ent := by omega
      exact hinv ⟨by rw [← heq, htrack], heq⟩

theorem install_spec (h : Consistent db) (hold : InUse db oldcode) (hroom : db.max_ent < db.maxmaxcode)
    (hf : finchar ≤ LAST) :
    ∃ db', install db oldcode finchar = .ok db' ∧ Consistent db' ∧ db'.hdrlen = db.hdrlen ∧
      db'.maxmaxcode = db.maxmaxcode := by
  obtain ⟨db', slot, hrun, hi, hslot, hfree⟩ := install_eq h hold hroom hf
  exact ⟨db', hrun, hi.consistent h hold hroom hslot hfree, hi.hdrlen, hi.maxmaxcode⟩

end OpenbsdKernel.BsdComp
