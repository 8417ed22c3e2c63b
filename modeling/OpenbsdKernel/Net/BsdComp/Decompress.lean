import OpenbsdKernel.Net.BsdComp.Basic

/-!
# The decompressor

`bsd_decompress` of `net/bsd-comp.c`: the loop over the bytes of a message, one round for
each byte and each mbuf. The local copies of `max_ent` and `n_bits` are kept equal to those
in the dictionary, which stand for both.
-/
namespace OpenbsdKernel.BsdComp

inductive Decomp where
  | DECOMP_OK
  | DECOMP_ERROR
  | DECOMP_FATALERROR
  deriving DecidableEq, Repr

/-- The sizes of an mbuf with a packet header, of one without, and of a cluster. -/
structure Sizes where
  MHLEN : ℕ
  MLEN : ℕ
  MCLBYTES : ℕ

/-- What a call gets: the message, and what `MGETHDR` and the calls of `MGET` find; whether
`MCLGET` finds a cluster too is the value. The end of the list is a failure. -/
structure Packet where
  cmp : List (List Byte)
  mgethdr : Option Bool
  mget : List (Option Bool)

/-- What a call returns. -/
structure Result where
  code : Decomp
  db : BsdDb
  dmpp : List Mbuf

/-- The variables of the loop; `cur` are the bytes left of the mbuf that is read, `mret` the
mbufs before `dmp`. -/
structure Coding where
  db : BsdDb
  accm : u_int
  bitno : u_int
  cur : List Byte
  cmp : List (List Byte)
  ilen : u_int
  oldcode : ℕ
  explen : u_int
  mret : List Mbuf
  dmp : Mbuf
  wptr : ℕ
  space : ℤ
  mget : List (Option Bool)

/-- `dmp->m_len = wptr - mtod(dmp, u_char *)`. -/
def Coding.close (s : Coding) : Mbuf := { s.dmp with m_len := s.wptr - s.dmp.m_data }

def finish (s : Coding) : Result :=
  let db := bsd_check { s.db with
    bytes_out := s.db.bytes_out + s.ilen, in_count := s.db.in_count + s.explen }
  ⟨.DECOMP_OK, { db with
    comp_count := db.comp_count + 1, comp_bytes := db.comp_bytes + (s.ilen + BSD_OVHD)
    uncomp_count := db.uncomp_count + 1, uncomp_bytes := db.uncomp_bytes + s.explen },
    s.mret ++ [s.close]⟩

def Refused (s : Coding) (incode : ℕ) : Prop :=
  incode > s.db.max_ent + 2 ∨ incode > s.db.maxmaxcode ∨
    incode > s.db.max_ent ∧ s.oldcode = CLEAR

instance (s : Coding) (incode : ℕ) : Decidable (Refused s incode) :=
  inferInstanceAs (Decidable (_ ∨ _ ∨ _ ∧ _))

/-- Make room for `n` more bytes: in the mbuf, or in another one. -/
def makeRoom (z : Sizes) (s : Coding) (n : ℕ) : Except Decomp Coding :=
  let s := { s with explen := s.explen + BitVec.ofNat 32 n, space := s.space - n }
  if s.explen > s.db.mru + 1 then .error .DECOMP_FATALERROR
  else if s.space < 0 then
    match s.mget with
    | some cluster :: mget =>
      let size := if cluster then z.MCLBYTES else z.MLEN
      if (size : ℤ) - n < 0 then .error .DECOMP_ERROR
      else .ok { s with
        mret := s.mret ++ [s.close], dmp := ⟨size, 0, 0, fun _ => 0⟩, wptr := 0
        space := size - n, mget := mget }
    | _ => .error .DECOMP_ERROR
  else .ok s

/-- Decode a code into the room that was made, with the first character once more in the
KwKwK case. -/
def putCode (s : Coding) (code codelen : ℕ) (extra : Bool) : Except Fault (Coding × ℕ) := do
  let wptr := s.wptr + codelen
  let (dmp, finchar) ← unwind s.db wptr code s.dmp
  if extra then
    let dmp ← dmp.put wptr (BitVec.ofNat 8 finchar)
    return ({ s with dmp := dmp, wptr := wptr + 1 }, finchar)
  else return ({ s with dmp := dmp, wptr := wptr }, finchar)

def newCode (s : Coding) (finchar : ℕ) : Except Fault BsdDb :=
  if s.oldcode ≠ CLEAR ∧ s.db.max_ent < s.db.maxmaxcode then install s.db s.oldcode finchar
  else .ok s.db

/-- A code that is beyond the last one in use stands for the one before it and its first
character. -/
def shown (s : Coding) (incode : ℕ) : ℕ := if incode > s.db.max_ent then s.oldcode else incode

/-- What a code that is not `CLEAR` and has passed the range check does. -/
def useCode (z : Sizes) (s : Coding) (incode : ℕ) : Except Fault (Loop.Step Coding Result Fault) := do
  let extra := decide (incode > s.db.max_ent)
  let code := shown s incode
  let codelen ← s.db.len code
  match makeRoom z s (codelen + extra.toNat) with
  | .error code => return .done ⟨code, s.db, []⟩
  | .ok s =>
    let (s, finchar) ← putCode s code codelen extra
    let db ← newCode s finchar
    return .next { s with db := db, oldcode := incode }

def takeCode (z : Sizes) (s : Coding) (incode : ℕ) : Loop.Step Coding Result Fault :=
  if incode = CLEAR then
    if 0 < s.cur.length + (s.cmp.map List.length).sum then .done ⟨.DECOMP_FATALERROR, s.db, []⟩
    else .done (finish { s with db := bsd_clear s.db, explen := 0, ilen := 0 })
  else if Refused s incode then .done ⟨.DECOMP_FATALERROR, s.db, []⟩
  else
    match useCode z s incode with
    | .ok r => r
    | .error f => .wrong f

def readByte (s : Coding) (b : Byte) (cur : List Byte) : Coding × Option ℕ :=
  let bitno := s.bitno - 8
  let accm := s.accm ||| (b.setWidth 32 <<< bitno.toNat)
  let n_bits := s.db.n_bits
  let tgtbitno : u_int := 32 - BitVec.ofNat 32 n_bits
  if tgtbitno < bitno then ({ s with cur := cur, bitno := bitno, accm := accm }, none)
  else
    ({ s with cur := cur, bitno := bitno + BitVec.ofNat 32 n_bits, accm := accm <<< n_bits },
      some (accm >>> tgtbitno.toNat).toNat)

/-- One round of the loop. -/
def codeStep (z : Sizes) (s : Coding) : Loop.Step Coding Result Fault :=
  match s.cur, s.cmp with
  | [], [] => .done (finish s)
  | [], m :: cmp =>
    .next { s with cur := m, cmp := cmp, ilen := s.ilen + BitVec.ofNat 32 m.length }
  | b :: cur, _ =>
    match readByte s b cur with
    | (s, none) => .next s
    | (s, some incode) => takeCode z s incode

def nextByte : List Byte → List (List Byte) → Option (Byte × List Byte × List (List Byte))
  | b :: cur, cmp => some (b, cur, cmp)
  | [], [] => none
  | [], m :: cmp => nextByte m cmp

/-- The header of the result: all but the last byte of the protocol. -/
def header (m : Mbuf) (adrs ctrl : Byte) : Except Fault Mbuf := do
  let m ← m.put m.m_data adrs
  let m ← m.put (m.m_data + 1) ctrl
  m.put (m.m_data + 2) 0

def readSeq (m : List Byte) (cmp : List (List Byte)) : Option (ℕ × List Byte × List (List Byte)) := do
  let (hi, cur, cmp) ← nextByte (m.drop PPP_HDRLEN) cmp
  let (lo, cur, cmp) ← nextByte cur cmp
  return (hi.toNat <<< 8 + lo.toNat, cur, cmp)

/-- The call up to the loop: where the loop starts, or what is returned. -/
def start (z : Sizes) (db : BsdDb) (pkt : Packet) : Except Fault (Result ⊕ Coding) :=
  let m := pkt.cmp.headD []
  match readSeq m pkt.cmp.tail with
  | none => .ok (.inl ⟨.DECOMP_ERROR, db, []⟩)
  | some (seq, cur, cmp) =>
    if seq ≠ db.seqno.toNat then .ok (.inl ⟨.DECOMP_ERROR, db, []⟩)
    else
      let db := { db with seqno := db.seqno + 1 }
      match pkt.mgethdr with
      | none => .ok (.inl ⟨.DECOMP_ERROR, db, []⟩)
      | some cluster => do
        let size := if cluster then z.MCLBYTES else z.MHLEN
        let dmp ← header ⟨size, db.hdrlen, 0, fun _ => 0⟩ (m.getD 0 0) (m.getD 1 0)
        return .inr {
          db := db, accm := 0, bitno := 32, cur := cur, cmp := cmp
          ilen := BitVec.ofNat 32 cur.length, oldcode := CLEAR, explen := 0, mret := [], dmp := dmp
          wptr := db.hdrlen + PPP_HDRLEN - 1, space := size - db.hdrlen - PPP_HDRLEN + 1
          mget := pkt.mget }

def Coding.rounds (s : Coding) : ℕ := s.cur.length + (s.cmp.map fun m => m.length + 1).sum + 1

def bsd_decompress (z : Sizes) (db : BsdDb) (pkt : Packet) : Except Fault Result := do
  match ← start z db pkt with
  | .inl r => return r
  | .inr s =>
    match Loop.run (codeStep z) s.rounds s with
    | .returned r _ => return r
    | .wrong f _ => throw f
    | .running _ => throw .diverges

end OpenbsdKernel.BsdComp
