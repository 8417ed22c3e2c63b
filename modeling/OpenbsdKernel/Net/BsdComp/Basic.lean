import OpenbsdKernel.Lib.Loop

/-!
# BSD Compress

The decompressor of `net/bsd-comp.c`, compiled without `DEBUG`. Codes and slots of the hash
table are natural numbers, counters words of 32 bits. An access to the dictionary beyond
its end, a write outside an mbuf and a loop that does not end are faults. A message is a
chain of mbufs given by their bytes; the allocator answers each request with the cluster
or the small mbuf that it finds, or with none.
-/
namespace OpenbsdKernel.BsdComp

abbrev Byte := BitVec 8
abbrev u_int := BitVec 32

def CLEAR : ℕ := 256
def FIRST : ℕ := 257
def LAST : ℕ := 255
def MAXCODE (b : ℕ) : ℕ := 2 ^ b - 1
def BSD_INIT_BITS : ℕ := 9
def BSD_MAX_BITS : ℕ := 15
def BADCODEM1 : ℕ := MAXCODE BSD_MAX_BITS
def CHECK_GAP : u_int := 10000
def RATIO_SCALE_LOG : ℕ := 8
def RATIO_SCALE : u_int := 1 <<< RATIO_SCALE_LOG
def RATIO_MAX : u_int := 0x7fffffff >>> RATIO_SCALE_LOG
def BSD_OVHD : u_int := 2
def PPP_HDRLEN : ℕ := 4

def BSD_HASH (oldcode suffix hshift : ℕ) : ℕ := (suffix <<< hshift) ^^^ oldcode

def BSD_KEY (oldcode suffix : ℕ) : ℕ := (suffix <<< 16) + oldcode

structure BsdDict where
  fcode : ℕ
  codem1 : ℕ
  cptr : ℕ

/-- `f.hs.prefix`: the lower half of the word. -/
def BsdDict.hsPrefix (d : BsdDict) : ℕ := d.fcode % 2 ^ 16

/-- `f.hs.suffix`: the byte above it. -/
def BsdDict.hsSuffix (d : BsdDict) : Byte := BitVec.ofNat 8 (d.fcode / 2 ^ 16)

/-- `struct bsd_db`, of a decompressor. -/
structure BsdDb where
  hsize : ℕ
  hshift : ℕ
  n_bits : ℕ
  maxbits : ℕ
  seqno : BitVec 16
  hdrlen : ℕ
  mru : u_int
  maxmaxcode : ℕ
  max_ent : ℕ
  in_count : u_int
  bytes_out : u_int
  ratio : u_int
  checkpoint : u_int
  clear_count : u_int
  incomp_count : u_int
  comp_count : u_int
  comp_bytes : u_int
  uncomp_count : u_int
  uncomp_bytes : u_int
  lens : ℕ → ℕ
  dict : ℕ → BsdDict

def bsd_clear (db : BsdDb) : BsdDb :=
  { db with
    clear_count := db.clear_count + 1, max_ent := FIRST - 1, n_bits := BSD_INIT_BITS, ratio := 0
    bytes_out := 0, in_count := 0, incomp_count := 0, checkpoint := CHECK_GAP }

/-- `bsd_check` once the counts have been aged. -/
def checkRatio (db : BsdDb) : BsdDb :=
  let db := { db with checkpoint := db.in_count + CHECK_GAP }
  if db.max_ent ≥ db.maxmaxcode then
    let new_ratio := db.in_count.shiftLeft RATIO_SCALE_LOG
    let new_ratio := if db.bytes_out ≠ 0 then new_ratio / db.bytes_out else new_ratio
    if new_ratio < db.ratio ∨ new_ratio < RATIO_SCALE then bsd_clear db
    else { db with ratio := new_ratio }
  else db

def bsd_check (db : BsdDb) : BsdDb :=
  if db.in_count ≥ db.checkpoint then
    checkRatio (if db.in_count ≥ RATIO_MAX ∨ db.bytes_out ≥ RATIO_MAX then
      { db with
        in_count := db.in_count - db.in_count / 4, bytes_out := db.bytes_out - db.bytes_out / 4 }
      else db)
  else db

def bsd_reset (db : BsdDb) : BsdDb :=
  { bsd_clear { db with seqno := 0 } with clear_count := 0 }

def hashSize (bits : ℕ) : Option (ℕ × ℕ) :=
  if 9 ≤ bits ∧ bits ≤ 12 then some (5003, 4)
  else if bits = 13 then some (9001, 5)
  else if bits = 14 then some (18013, 6)
  else if bits = 15 then some (35023, 7)
  else none

def optionBits (options : List Byte) : Option ℕ :=
  match options with
  | kind :: len :: opt :: _ =>
    if kind = 21 ∧ len = 3 ∧ opt >>> 5 = 1 then some (opt &&& 0x1f).toNat else none
  | _ => none

/-- `bsd_alloc` for a decompressor: the table is zeroed, `lens` is left as it was found. -/
def bsd_alloc (options : List Byte) (lens : ℕ → ℕ) : Option BsdDb := do
  let bits ← optionBits options
  let (hsize, hshift) ← hashSize bits
  return ⟨hsize, hshift, 0, bits, 0, 0, 0, MAXCODE bits, 0, 0, 0, 0, 0, 0, 0, 0, 0, 0, 0, lens,
    fun _ => ⟨0, 0, 0⟩⟩

/-- `bsd_init` for a decompressor. -/
def bsd_init (db : BsdDb) (options : List Byte) (hdrlen : ℕ) (mru : u_int) : Option BsdDb :=
  if optionBits options = some db.maxbits then
    some (bsd_reset { db with
      lens := fun c => if c ≤ LAST then 1 else db.lens c
      dict := fun i => if i < db.hsize then ⟨(db.dict i).fcode, BADCODEM1, 0⟩ else db.dict i
      hdrlen := hdrlen, mru := mru })
  else none

inductive Fault where
  | dict
  | outside
  | diverges
  deriving DecidableEq, Repr

/-- `db->lens[code]`. -/
def BsdDb.len (db : BsdDb) (code : ℕ) : Except Fault ℕ :=
  if code ≤ db.maxmaxcode then .ok (db.lens code) else .error .dict

/-- `db->dict[slot]`. -/
def BsdDb.slot (db : BsdDb) (slot : ℕ) : Except Fault BsdDict :=
  if slot < db.hsize then .ok (db.dict slot) else .error .dict

/-- `db->dict[code].cptr`. -/
def BsdDb.cptr (db : BsdDb) (code : ℕ) : Except Fault ℕ :=
  if code ≤ db.maxmaxcode then (db.slot code).map BsdDict.cptr else .error .dict

def BsdDb.set (db : BsdDb) (slot : ℕ) (d : BsdDict) : BsdDb :=
  { db with dict := Function.update db.dict slot d }

def probeStep (db : BsdDb) (disp hval : ℕ) : Loop.Step ℕ ℕ Fault :=
  match db.slot hval with
  | .error f => .wrong f
  | .ok dictp =>
    if dictp.codem1 < db.max_ent then
      .next (if hval + disp ≥ db.hsize then hval + disp - db.hsize else hval + disp)
    else .done hval

def probe (db : BsdDb) (hval : ℕ) : Except Fault ℕ :=
  match Loop.run (probeStep db (if hval = 0 then 1 else hval)) db.hsize hval with
  | .returned slot _ => .ok slot
  | .wrong f _ => .error f
  | .running _ => .error .diverges

def disown (db : BsdDb) (old : ℕ) : BsdDb :=
  if (db.dict old).codem1 = db.max_ent then db.set old { db.dict old with codem1 := BADCODEM1 }
  else db

/-- Take over the slot for the new code. -/
def own (db : BsdDb) (hval oldcode finchar : ℕ) : BsdDb :=
  let db := db.set (db.max_ent + 1) { db.dict (db.max_ent + 1) with cptr := hval % 2 ^ 16 }
  db.set hval { db.dict hval with
    codem1 := db.max_ent % 2 ^ 16, fcode := BSD_KEY oldcode finchar % 2 ^ 32 }

/-- Count the new code, which is one longer than `len`, and expand code size if needed. -/
def grow (db : BsdDb) (len : ℕ) : BsdDb :=
  let max_ent := db.max_ent + 1
  { db with
    max_ent := max_ent, lens := Function.update db.lens max_ent ((len + 1) % 2 ^ 16)
    n_bits := if max_ent ≥ MAXCODE db.n_bits ∧ max_ent < db.maxmaxcode then db.n_bits + 1
      else db.n_bits }

/-- Allocate a new code: `finchar` after the string of `oldcode`. -/
def install (db : BsdDb) (oldcode finchar : ℕ) : Except Fault BsdDb := do
  let hval ← probe db (BSD_HASH oldcode finchar db.hshift)
  let old ← db.cptr (db.max_ent + 1)
  let _ ← db.slot old
  let len ← db.len oldcode
  return grow (own (disown db old) hval oldcode finchar) len

/-- An mbuf of the result: its storage, where its data starts, and how long it is. -/
structure Mbuf where
  size : ℕ
  m_data : ℕ
  m_len : ℕ
  dat : ℕ → Byte

def Mbuf.put (m : Mbuf) (i : ℕ) (b : Byte) : Except Fault Mbuf :=
  if i < m.size then .ok { m with dat := Function.update m.dat i b } else .error .outside

/-- Decode a code backwards from `p` on. The first character of its string comes last. -/
def unwind (db : BsdDb) : ℕ → ℕ → Mbuf → Except Fault (Mbuf × ℕ)
  | 0, _, _ => .error .outside
  | p + 1, finchar, dmp =>
    if finchar > LAST then do
      let dictp ← db.slot (← db.cptr finchar)
      let dmp ← dmp.put p dictp.hsSuffix
      unwind db p dictp.hsPrefix dmp
    else do
      let dmp ← dmp.put p (BitVec.ofNat 8 finchar)
      return (dmp, finchar)

end OpenbsdKernel.BsdComp
