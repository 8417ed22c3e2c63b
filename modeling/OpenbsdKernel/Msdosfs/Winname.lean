import OpenbsdKernel.Msdosfs.Dosname

/-!
# Long file names

A long name is kept in directory entries of thirteen characters, the end of the name in the
first one. `unix2winfn` writes an entry, `win2unixfn` puts the names together again and
`winChkName` compares a name with them. The bytes of a part of an entry are kept in pairs, as
both readers take them: a character and its high byte.
-/
namespace OpenbsdKernel.Winname

open Dosname

def WIN_MAXLEN : ℕ := 255
def WIN_CHARS : ℕ := 13
def WIN_LAST : UInt8 := 0x40
def WIN_CNT : UInt8 := 0x3f
def ATTR_WIN95 : UInt8 := 0x0f

def u2lTable : List UInt8 :=
  [
    0, 0x01, 0x02, 0x03, 0x04, 0x05, 0x06, 0x07, 0x08, 0x09, 0x0a, 0x0b, 0x0c, 0x0d, 0x0e, 0x0f,
    0x10, 0x11, 0x12, 0x13, 0x14, 0x15, 0x16, 0x17, 0x18, 0x19, 0x1a, 0x1b, 0x1c, 0x1d, 0x1e, 0x1f,
    0x20, 0x21, 0x22, 0x23, 0x24, 0x25, 0x26, 0x27, 0x28, 0x29, 0x2a, 0x2b, 0x2c, 0x2d, 0x2e, 0x2f,
    0x30, 0x31, 0x32, 0x33, 0x34, 0x35, 0x36, 0x37, 0x38, 0x39, 0x3a, 0x3b, 0x3c, 0x3d, 0x3e, 0x3f,
    0x40, 0x61, 0x62, 0x63, 0x64, 0x65, 0x66, 0x67, 0x68, 0x69, 0x6a, 0x6b, 0x6c, 0x6d, 0x6e, 0x6f,
    0x70, 0x71, 0x72, 0x73, 0x74, 0x75, 0x76, 0x77, 0x78, 0x79, 0x7a, 0x5b, 0x5c, 0x5d, 0x5e, 0x5f,
    0x60, 0x61, 0x62, 0x63, 0x64, 0x65, 0x66, 0x67, 0x68, 0x69, 0x6a, 0x6b, 0x6c, 0x6d, 0x6e, 0x6f,
    0x70, 0x71, 0x72, 0x73, 0x74, 0x75, 0x76, 0x77, 0x78, 0x79, 0x7a, 0x7b, 0x7c, 0x7d, 0x7e, 0x7f,
    0x80, 0x81, 0x82, 0x83, 0x84, 0x85, 0x86, 0x87, 0x88, 0x89, 0x8a, 0x8b, 0x8c, 0x8d, 0x8e, 0x8f,
    0x90, 0x91, 0x92, 0x93, 0x94, 0x95, 0x96, 0x97, 0x98, 0x99, 0x9a, 0x9b, 0x9c, 0x9d, 0x9e, 0x9f,
    0xa0, 0xa1, 0xa2, 0xa3, 0xa4, 0xa5, 0xa6, 0xa7, 0xa8, 0xa9, 0xaa, 0xab, 0xac, 0xad, 0xae, 0xaf,
    0xb0, 0xb1, 0xb2, 0xb3, 0xb4, 0xb5, 0xb6, 0xb7, 0xb8, 0xb9, 0xba, 0xbb, 0xbc, 0xbd, 0xbe, 0xbf,
    0xe0, 0xe1, 0xe2, 0xe3, 0xe4, 0xe5, 0xe6, 0xe7, 0xe8, 0xe9, 0xea, 0xeb, 0xec, 0xed, 0xee, 0xef,
    0xf0, 0xf1, 0xf2, 0xf3, 0xf4, 0xf5, 0xf6, 0xd7, 0xf8, 0xf9, 0xfa, 0xfb, 0xfc, 0xfd, 0xfe, 0xdf,
    0xe0, 0xe1, 0xe2, 0xe3, 0xe4, 0xe5, 0xe6, 0xe7, 0xe8, 0xe9, 0xea, 0xeb, 0xec, 0xed, 0xee, 0xef,
    0xf0, 0xf1, 0xf2, 0xf3, 0xf4, 0xf5, 0xf6, 0xf7, 0xf8, 0xf9, 0xfa, 0xfb, 0xfc, 0xfd, 0xfe, 0xff]

def u2l (c : UInt8) : UInt8 := u2lTable.getD c.toNat 0

abbrev Part := List (UInt8 × UInt8)

structure Winentry where
  weCnt : UInt8
  wePart1 : Part
  weAttributes : UInt8
  weReserved1 : UInt8
  weChksum : UInt8
  wePart2 : Part
  weReserved2 : UInt16
  wePart3 : Part
  deriving DecidableEq

structure Dirent where
  d_namlen : UInt8
  d_name : List UInt8
  deriving DecidableEq

/-- Bytes that no character was stored in. -/
def unused (n : ℕ) : Part := List.replicate n (0xff, 0xff)

/-- One of the loops of `unix2winfn`: the part with `n` characters and what is left of the
name, or nothing where the name has ended and its terminator is stored. -/
def fillPart : ℕ → List UInt8 → Part × Option (List UInt8)
  | 0, un => ([], some un)
  | n + 1, [] => ((0, 0) :: unused n, none)
  | n + 1, c :: un => ((c, 0) :: (fillPart n un).1, (fillPart n un).2)

def unix2winfn (un : List UInt8) (cnt : ℕ) (chksum : UInt8) : Winentry × ℕ :=
  let un := (un.rdropWhile isPad).drop ((cnt - 1) * WIN_CHARS)
  let wep : Winentry :=
    ⟨UInt8.ofNat cnt, unused 5, ATTR_WIN95, 0, chksum, unused 6, 0, unused 2⟩
  let last := UInt8.ofNat cnt ||| WIN_LAST
  let p1 := fillPart 5 un
  let wep := { wep with wePart1 := p1.1 }
  match p1.2 with
  | none => ({ wep with weCnt := last }, 0)
  | some un =>
    let p2 := fillPart 6 un
    let wep := { wep with wePart2 := p2.1 }
    match p2.2 with
    | none => ({ wep with weCnt := last }, 0)
    | some un =>
      let p3 := fillPart 2 un
      let wep := { wep with wePart3 := p3.1 }
      match p3.2 with
      | none => ({ wep with weCnt := last }, 0)
      | some un => (if un.length = 0 then { wep with weCnt := last } else wep, un.length)

/-- One of the loops of `winChkName`. It goes on with what is left of the name, or ends: with
`true` at the end of both names and with `false` at a difference. -/
def chkPart : Part → List UInt8 → Except Bool (List UInt8)
  | [], un => .ok un
  | (c, hi) :: _, [] => .error (c == 0 && hi == 0)
  | (c, hi) :: part, u :: un =>
    if u2l c ≠ u2l u ∨ hi ≠ 0 then .error false else chkPart part un

/-- The test of the checksum that both readers begin with. -/
def chkSum (wep : Winentry) (chksum : ℤ) : ℤ :=
  if wep.weCnt &&& WIN_LAST ≠ 0 then wep.weChksum.toNat
  else if chksum ≠ wep.weChksum.toNat then -1
  else chksum

/-- `winChkName`; with the count zero it would read in front of the name. -/
def winChkName (un : List UInt8) (wep : Winentry) (chksum : ℤ) : Option ℤ :=
  let chksum := chkSum wep chksum
  if chksum = -1 then some (-1)
  else
    let cnt := (wep.weCnt &&& WIN_CNT).toNat
    if cnt = 0 then none
    else
      let un := un.drop ((cnt - 1) * WIN_CHARS)
      if un.length = 0 then some (-1)
      else if wep.weCnt &&& WIN_LAST ≠ 0 ∧ WIN_CHARS < un.length then some (-1)
      else
        match chkPart wep.wePart1 un >>= chkPart wep.wePart2 >>= chkPart wep.wePart3 with
        | .ok _ => some chksum
        | .error same => some (if same then chksum else -1)

/-- One of the loops of `win2unixfn`, with `after` characters in the parts after it. It goes
on at the next place of the name, or ends: with `true` at the terminator. -/
def readPart (check : Bool) (after : ℕ) :
    Part → ℕ × Dirent → Except (Bool × Dirent) (ℕ × Dirent)
  | [], s => .ok s
  | (c, hi) :: part, (np, dp) =>
    let stored := { dp with d_name := dp.d_name.set np c }
    let cleared := { dp with d_name := dp.d_name.set np 0 }
    if c = 0 then
      .error (true, { stored with
        d_namlen := dp.d_namlen - UInt8.ofNat (after + part.length + 1) })
    else if c = 0x2f then .error (false, cleared)
    else if check ∧ WIN_MAXLEN < np + 1 then .error (false, cleared)
    else if hi ≠ 0 then .error (false, stored)
    else readPart check after part (np + 1, stored)

def win2unixfn (wep : Winentry) (dp : Dirent) (chksum : ℤ) : ℤ × Dirent :=
  let cnt := (wep.weCnt &&& WIN_CNT).toNat
  if (WIN_MAXLEN + WIN_CHARS - 1) / WIN_CHARS < cnt ∨ cnt = 0 then (-1, dp)
  else
    let dp :=
      if wep.weCnt &&& WIN_LAST ≠ 0 then { dp with d_namlen := UInt8.ofNat (cnt * WIN_CHARS) }
      else dp
    let chksum := chkSum wep chksum
    if chksum = -1 then (-1, dp)
    else
      let odd := WIN_MAXLEN % WIN_CHARS
      match readPart (odd < 5) 8 wep.wePart1 ((cnt - 1) * WIN_CHARS, dp) >>=
          readPart (5 ≤ odd && odd < 11) 2 wep.wePart2 >>=
          readPart (11 ≤ odd) 0 wep.wePart3 with
      | .ok s => (chksum, s.2)
      | .error (complete, dp) => (if complete then chksum else -1, dp)

def winSlotCnt (un : List UInt8) : ℕ :=
  let unlen := (un.rdropWhile isPad).length
  if WIN_MAXLEN < unlen then 0 else (unlen + WIN_CHARS - 1) / WIN_CHARS

/-- The entries of a name in the order of the directory. -/
def winEntries (un : List UInt8) (chksum : UInt8) : ℕ → List Winentry
  | 0 => []
  | cnt + 1 => (unix2winfn un (cnt + 1) chksum).1 :: winEntries un chksum cnt

/-- Read entries one after the other, handing on the checksum; the results come first. -/
def readEntries : List Winentry → Dirent → ℤ → List ℤ × Dirent
  | [], dp, _ => ([], dp)
  | wep :: weps, dp, chksum =>
    let r := win2unixfn wep dp chksum
    let rest := readEntries weps r.2 r.1
    (r.1 :: rest.1, rest.2)

/-- The pairs of `n` places that hold the characters `r` and, if there is room, their end. -/
def pairs (n : ℕ) (r : List UInt8) : Part :=
  (r.take n).map (fun c => (c, 0)) ++
    if r.length < n then (0, 0) :: unused (n - 1 - r.length) else []

theorem pairs_nil (n : ℕ) : pairs (n + 1) [] = (0, 0) :: unused n := by
  simp [pairs]

theorem pairs_cons (n : ℕ) (c : UInt8) (r : List UInt8) :
    pairs (n + 1) (c :: r) = (c, 0) :: pairs n r := by
  have hsub : n + 1 - 1 - (r.length + 1) = n - 1 - r.length := by omega
  simp only [pairs, List.take_succ_cons, List.map_cons, List.length_cons, List.cons_append,
    Nat.add_lt_add_iff_right, hsub]

theorem fillPart_eq (n : ℕ) (r : List UInt8) :
    fillPart n r = (pairs n r, if n ≤ r.length then some (r.drop n) else none) := by
  induction n generalizing r with
  | zero => simp [fillPart, pairs]
  | succ n ih =>
    cases r with
    | nil => simp [fillPart, pairs_nil]
    | cons c r => simp [fillPart, pairs_cons, ih]

/-- The three parts of the entry for the characters `r`. -/
structure Holds (wep : Winentry) (r : List UInt8) : Prop where
  part1 : wep.wePart1 = pairs 5 r
  part2 : 5 ≤ r.length → wep.wePart2 = pairs 6 (r.drop 5)
  part3 : 11 ≤ r.length → wep.wePart3 = pairs 2 (r.drop 11)

/-- The characters of a name that are left for an entry. -/
def charsFrom (un : List UInt8) (cnt : ℕ) : List UInt8 := un.drop ((cnt - 1) * WIN_CHARS)

theorem unix2winfn_spec {un : List UInt8} (hun : un.rdropWhile isPad = un) (cnt : ℕ)
    (chksum : UInt8) :
    Holds (unix2winfn un cnt chksum).1 (charsFrom un cnt) ∧
      (unix2winfn un cnt chksum).1.weChksum = chksum ∧
      (unix2winfn un cnt chksum).1.weCnt =
        if (charsFrom un cnt).length ≤ 13 then UInt8.ofNat cnt ||| WIN_LAST
        else UInt8.ofNat cnt := by
  unfold unix2winfn
  have hchars : (un.rdropWhile isPad).drop ((cnt - 1) * WIN_CHARS) = charsFrom un cnt := by
    rw [hun, charsFrom]
  simp only [hchars, fillPart_eq]
  generalize charsFrom un cnt = r
  by_cases h5 : 5 ≤ r.length
  · rw [if_pos h5]
    dsimp only
    by_cases h11 : 6 ≤ (r.drop 5).length
    · have hdrop : (r.drop 5).drop 6 = r.drop 11 := List.drop_drop
      rw [if_pos h11]
      dsimp only
      rw [hdrop]
      rw [List.length_drop] at h11
      by_cases h13 : 2 ≤ (r.drop 11).length
      · rw [if_pos h13]
        dsimp only
        rw [List.length_drop] at h13
        have hlen : ((r.drop 11).drop 2).length = 0 ↔ r.length ≤ 13 := by
          simp only [List.length_drop]
          omega
        by_cases hlast : r.length ≤ 13
        · rw [if_pos (hlen.mpr hlast), if_pos hlast]
          exact ⟨⟨rfl, fun _ => rfl, fun _ => rfl⟩, rfl, rfl⟩
        · rw [if_neg (mt hlen.mp hlast), if_neg hlast]
          exact ⟨⟨rfl, fun _ => rfl, fun _ => rfl⟩, rfl, rfl⟩
      · rw [if_neg h13]
        rw [List.length_drop] at h13
        exact ⟨⟨rfl, fun _ => rfl, fun _ => rfl⟩, rfl, (if_pos (by omega)).symm⟩
    · rw [if_neg h11]
      rw [List.length_drop] at h11
      exact ⟨⟨rfl, fun _ => rfl, fun _ => by omega⟩, rfl, (if_pos (by omega)).symm⟩
  · rw [if_neg h5]
    exact ⟨⟨rfl, fun _ => by omega, fun _ => by omega⟩, rfl, (if_pos (by omega)).symm⟩

theorem weCnt_fields {cnt : ℕ} (h : cnt ≤ 20) :
    (UInt8.ofNat cnt &&& WIN_CNT).toNat = cnt ∧ UInt8.ofNat cnt &&& WIN_LAST = 0 ∧
      ((UInt8.ofNat cnt ||| WIN_LAST) &&& WIN_CNT).toNat = cnt ∧
      (UInt8.ofNat cnt ||| WIN_LAST) &&& WIN_LAST ≠ 0 := by
  interval_cases cnt <;> decide

theorem readPart_pairs (check : Bool) (after n : ℕ) {r : List UInt8} {np : ℕ} {dp : Dirent}
    (hr : ∀ c ∈ r, c ≠ 0 ∧ c ≠ 0x2f) (hnp : np + r.length ≤ WIN_MAXLEN) :
    readPart check after (pairs n r) (np, dp) =
      if n ≤ r.length then .ok (np + n, { dp with d_name := putAt dp.d_name np (r.take n) })
      else .error (true, ⟨dp.d_namlen - UInt8.ofNat (after + (n - r.length)),
        putAt dp.d_name np (r ++ [0])⟩) := by
  induction n generalizing r np dp with
  | zero => simp [pairs, readPart, putAt]
  | succ n ih =>
    cases r with
    | nil => simp [pairs_nil, readPart, putAt, unused, Nat.add_assoc]
    | cons c r =>
      obtain ⟨hc, hrest⟩ := List.forall_mem_cons.mp hr
      rw [List.length_cons] at hnp
      rw [pairs_cons, readPart, if_neg hc.1, if_neg hc.2,
        if_neg (fun h => by omega), if_neg (not_not.mpr rfl), ih hrest (by omega)]
      simp only [List.length_cons, Nat.add_le_add_iff_right, Nat.add_sub_add_right,
        List.take_succ_cons, List.cons_append, putAt]
      rw [Nat.add_right_comm np 1 n, Nat.add_assoc np n 1]

theorem putAt_append (dn : List UInt8) (i : ℕ) (cs ds : List UInt8) :
    putAt dn i (cs ++ ds) = putAt (putAt dn i cs) (i + cs.length) ds := by
  induction cs generalizing dn i with
  | nil => rfl
  | cons c cs ih =>
    rw [List.cons_append, putAt, ih, putAt, List.length_cons, Nat.add_right_comm,
      Nat.add_assoc i]

theorem putAt_take_drop (dn : List UInt8) (np : ℕ) {r : List UInt8} {n : ℕ} (h : n ≤ r.length)
    (cs : List UInt8) :
    putAt (putAt dn np (r.take n)) (np + n) cs = putAt dn np (r.take n ++ cs) := by
  rw [putAt_append, List.length_take_of_le h]

theorem readPart_holds {wep : Winentry} {r : List UInt8} (h : Holds wep r) {np : ℕ} (dp : Dirent)
    (c1 c2 c3 : Bool) (hr : ∀ c ∈ r, c ≠ 0 ∧ c ≠ 0x2f) (hnp : np + r.length ≤ WIN_MAXLEN) :
    (readPart c1 8 wep.wePart1 (np, dp) >>= readPart c2 2 wep.wePart2 >>=
        readPart c3 0 wep.wePart3) =
      if 13 ≤ r.length then .ok (np + 13, { dp with d_name := putAt dp.d_name np (r.take 13) })
      else .error (true, ⟨dp.d_namlen - UInt8.ofNat (13 - r.length),
        putAt dp.d_name np (r ++ [0])⟩) := by
  have hchars : ∀ n, ∀ c ∈ r.drop n, c ≠ 0 ∧ c ≠ 0x2f :=
    fun n c hc => hr c (List.mem_of_mem_drop hc)
  rw [h.part1, readPart_pairs c1 8 5 hr hnp]
  by_cases h5 : 5 ≤ r.length
  · have h5' : np + 5 + (r.drop 5).length ≤ WIN_MAXLEN := by
      rw [List.length_drop]
      omega
    rw [if_pos h5, h.part2 h5]
    change (readPart c2 2 (pairs 6 (r.drop 5)) (np + 5, _) >>= _) = _
    rw [readPart_pairs c2 2 6 (hchars 5) h5']
    by_cases h11 : 11 ≤ r.length
    · have h11' : np + 5 + 6 + (r.drop 11).length ≤ WIN_MAXLEN := by
        rw [List.length_drop]
        omega
      have h6 : 6 ≤ (r.drop 5).length := by
        rw [List.length_drop]
        omega
      have htake : r.take 5 ++ (r.drop 5).take 6 = r.take 11 := List.take_add.symm
      rw [if_pos h6, h.part3 h11]
      change readPart c3 0 (pairs 2 (r.drop 11)) (np + 5 + 6, _) = _
      rw [readPart_pairs c3 0 2 (hchars 11) h11']
      dsimp only
      rw [putAt_take_drop _ _ h5, htake, Nat.add_assoc np 5 6, putAt_take_drop _ _ h11,
        putAt_take_drop _ _ h11, ← List.append_assoc, List.take_append_drop,
        show r.take 11 ++ (r.drop 11).take 2 = r.take 13 from List.take_add.symm]
      by_cases h13 : 13 ≤ r.length
      · rw [if_pos (by rw [List.length_drop]; omega), if_pos h13]
      · rw [if_neg (by rw [List.length_drop]; omega), if_neg h13, List.length_drop,
          show 0 + (2 - (r.length - 11)) = 13 - r.length by omega]
    · rw [if_neg (by rw [List.length_drop]; omega), if_neg (by omega)]
      dsimp only
      rw [putAt_take_drop _ _ h5, ← List.append_assoc, List.take_append_drop, List.length_drop,
        show 2 + (6 - (r.length - 5)) = 13 - r.length by omega]
      rfl
  · rw [if_neg h5, if_neg (by omega), show 8 + (5 - r.length) = 13 - r.length by omega]
    rfl

/-- A name that can be stored: neither empty nor too long, without a terminator or slash
in it and without a blank or dot at the end. -/
structure LongName (un : List UInt8) : Prop where
  pos : 0 < un.length
  le : un.length ≤ WIN_MAXLEN
  chars : ∀ c ∈ un, c ≠ 0 ∧ c ≠ 0x2f
  last : un.rdropWhile isPad = un

section Slot

variable {un : List UInt8} {cnt : ℕ} (chksum : UInt8)

theorem length_charsFrom (un : List UInt8) (cnt : ℕ) :
    (charsFrom un cnt).length = un.length - (cnt - 1) * 13 :=
  List.length_drop

theorem entry_fields (hun : LongName un) (hle : (cnt - 1) * 13 < un.length) :
    ((unix2winfn un cnt chksum).1.weCnt &&& WIN_CNT).toNat = cnt ∧
      ((unix2winfn un cnt chksum).1.weCnt &&& WIN_LAST ≠ 0 ↔
        (charsFrom un cnt).length ≤ 13) ∧
      ∀ chk : ℤ, (charsFrom un cnt).length ≤ 13 ∨ chk = chksum.toNat →
        chkSum (unix2winfn un cnt chksum).1 chk = chksum.toNat := by
  obtain ⟨-, hsum, hweCnt⟩ := unix2winfn_spec hun.last cnt chksum
  have hmax := hun.le
  unfold WIN_MAXLEN at hmax
  obtain ⟨hc1, hl1, hc2, hl2⟩ := weCnt_fields (show cnt ≤ 20 by omega)
  have hlast : (unix2winfn un cnt chksum).1.weCnt &&& WIN_LAST ≠ 0 ↔
      (charsFrom un cnt).length ≤ 13 := by
    rw [hweCnt]
    split_ifs with h
    · exact iff_of_true hl2 h
    · exact iff_of_false (not_not.mpr hl1) h
  refine ⟨?_, hlast, fun chk hchk => ?_⟩
  · rw [hweCnt]
    split_ifs
    · exact hc2
    · exact hc1
  · unfold chkSum
    rw [hsum]
    by_cases h : (charsFrom un cnt).length ≤ 13
    · rw [if_pos (hlast.mpr h)]
    · rw [if_neg (mt hlast.mp h), hchk.resolve_left h, if_neg (not_not.mpr rfl)]

/-- An entry puts its characters in their place; the last one also gives the length. -/
theorem win2unixfn_entry (hun : LongName un) (hcnt : 1 ≤ cnt) (hle : (cnt - 1) * 13 < un.length)
    (dp : Dirent) {chk : ℤ} (hchk : (charsFrom un cnt).length ≤ 13 ∨ chk = chksum.toNat) :
    win2unixfn (unix2winfn un cnt chksum).1 dp chk =
      ((chksum.toNat : ℤ), (⟨if (charsFrom un cnt).length ≤ 13 then UInt8.ofNat un.length
          else dp.d_namlen,
        putAt dp.d_name ((cnt - 1) * 13) (if 13 ≤ (charsFrom un cnt).length then
          (charsFrom un cnt).take 13 else charsFrom un cnt ++ [0])⟩ : Dirent)) := by
  obtain ⟨hcount, hlast, hsum⟩ := entry_fields chksum hun hle
  have hlen := length_charsFrom un cnt
  have hmax := hun.le
  unfold WIN_MAXLEN at hmax
  have hfit : (cnt - 1) * 13 + (charsFrom un cnt).length ≤ WIN_MAXLEN := by
    unfold WIN_MAXLEN
    omega
  have hread := fun dp c1 c2 c3 => readPart_holds (unix2winfn_spec hun.last cnt chksum).1 dp
    c1 c2 c3 (fun c hc => hun.chars c (List.mem_of_mem_drop hc)) hfit
  unfold win2unixfn
  dsimp only
  rw [hcount, if_neg (by unfold WIN_MAXLEN WIN_CHARS; omega), hsum chk hchk, if_neg (by omega),
    show (cnt - 1) * WIN_CHARS = (cnt - 1) * 13 from rfl, hread]
  by_cases hend : (charsFrom un cnt).length ≤ 13
  · have hbytes : UInt8.ofNat (cnt * WIN_CHARS) - UInt8.ofNat (13 - (charsFrom un cnt).length) =
        UInt8.ofNat un.length := by
      -- the byte wraps around for the twentieth entry, and back
      rw [← UInt8.toNat_inj, UInt8.toNat_sub]
      simp only [UInt8.toNat_ofNat', WIN_CHARS]
      omega
    rw [if_pos (hlast.mpr hend), if_pos hend]
    by_cases h13 : 13 ≤ (charsFrom un cnt).length
    · have hfull : cnt * WIN_CHARS = un.length := by
        unfold WIN_CHARS
        omega
      rw [if_pos h13, if_pos h13, hfull]
    · rw [if_neg h13, if_neg h13]
      dsimp only
      rw [hbytes]
      rfl
  · rw [if_neg (mt hlast.mp hend), if_neg hend, if_pos (by omega), if_pos (by omega)]

end Slot

theorem putAt_length (dn : List UInt8) (i : ℕ) (cs : List UInt8) :
    (putAt dn i cs).length = dn.length := by
  induction cs generalizing dn i with
  | nil => rfl
  | cons c cs ih => rw [putAt, ih, List.length_set]

section Entries

variable {un : List UInt8} (chksum : UInt8)

/-- The characters of an entry and those behind it are in place when it has been read. -/
theorem entry_placed {dn cs : List UInt8} {k : ℕ} (hdn : dn.length = 256)
    (hcs : k * 13 + cs.length ≤ 256)
    (hchars : ∀ i, i < 13 → k * 13 + i < un.length → i < cs.length ∧ cs[i]? = un[k * 13 + i]?)
    (hbehind : ∀ i, (k + 1) * 13 ≤ i → i < un.length → dn[i]? = un[i]? ∧
      k * 13 + cs.length ≤ i) :
    ∀ i, k * 13 ≤ i → i < un.length → (putAt dn (k * 13) cs)[i]? = un[i]? := by
  intro i hlo hi
  rw [putAt_getElem? dn (k * 13) cs i (by omega)]
  by_cases hin : i < (k + 1) * 13
  · obtain ⟨hlt, heq⟩ := hchars (i - k * 13) (by omega) (by omega)
    rw [if_pos (by omega), heq, Nat.add_sub_cancel' hlo]
  · obtain ⟨heq, hle⟩ := hbehind i (by omega) hi
    rw [if_neg (by omega), heq]

theorem readEntries_full (hun : LongName un) {k : ℕ} (hk : k * 13 < un.length) {dp : Dirent}
    (hdn : dp.d_name.length = 256)
    (hbehind : ∀ i, k * 13 ≤ i → i < un.length → dp.d_name[i]? = un[i]?) :
    (readEntries (winEntries un chksum k) dp chksum.toNat).1 =
        List.replicate k (chksum.toNat : ℤ) ∧
      (readEntries (winEntries un chksum k) dp chksum.toNat).2.d_namlen = dp.d_namlen ∧
      ∀ i, i < un.length →
        (readEntries (winEntries un chksum k) dp chksum.toNat).2.d_name[i]? = un[i]? := by
  have hmax := hun.le
  unfold WIN_MAXLEN at hmax
  induction k generalizing dp with
  | zero => exact ⟨rfl, rfl, fun i hi => hbehind i (by omega) hi⟩
  | succ k ih =>
    have hlen := length_charsFrom un (k + 1)
    rw [Nat.add_sub_cancel] at hlen
    have hentry := win2unixfn_entry chksum hun (Nat.le_add_left 1 k)
      (by rw [Nat.add_sub_cancel]; omega) dp (Or.inr rfl)
    rw [if_neg (by omega), if_pos (by omega), Nat.add_sub_cancel] at hentry
    have hplaced : ∀ i, k * 13 ≤ i → i < un.length →
        (putAt dp.d_name (k * 13) ((charsFrom un (k + 1)).take 13))[i]? = un[i]? := by
      have htake : ((charsFrom un (k + 1)).take 13).length = 13 :=
        List.length_take_of_le (by omega)
      refine entry_placed hdn (by omega) (fun i hi hlt => ⟨by omega, ?_⟩) fun i hi hlt =>
        ⟨hbehind i hi hlt, by omega⟩
      rw [List.getElem?_take_of_lt hi, charsFrom, List.getElem?_drop]
      rfl
    have hdn' : (putAt dp.d_name (k * 13) ((charsFrom un (k + 1)).take 13)).length = 256 :=
      (putAt_length _ _ _).trans hdn
    obtain ⟨hrets, hnamlen, hname⟩ := @ih (by omega) ⟨dp.d_namlen, _⟩ hdn' hplaced
    rw [winEntries, readEntries, hentry]
    dsimp only
    exact ⟨by rw [hrets, List.replicate_succ], hnamlen, hname⟩

theorem winSlotCnt_eq (hun : LongName un) : winSlotCnt un = (un.length + 12) / 13 := by
  unfold winSlotCnt
  rw [hun.last, if_neg (Nat.not_lt.mpr hun.le)]
  rfl

/-- Reading all entries of a name, whatever the checksum and the name were before. -/
theorem readEntries_winEntries (hun : LongName un) {dp : Dirent} (hdn : dp.d_name.length = 256)
    (chk : ℤ) :
    (readEntries (winEntries un chksum (winSlotCnt un)) dp chk).1 =
        List.replicate (winSlotCnt un) (chksum.toNat : ℤ) ∧
      (readEntries (winEntries un chksum (winSlotCnt un)) dp chk).2.d_namlen.toNat = un.length ∧
      (readEntries (winEntries un chksum (winSlotCnt un)) dp chk).2.d_name.take un.length =
        un := by
  have hpos := hun.pos
  have hmax := hun.le
  unfold WIN_MAXLEN at hmax
  obtain ⟨k, hk⟩ : ∃ k, winSlotCnt un = k + 1 := by
    rw [winSlotCnt_eq hun]
    exact ⟨(un.length + 12) / 13 - 1, by omega⟩
  have hcount := winSlotCnt_eq hun
  have hlen := length_charsFrom un (k + 1)
  rw [hk] at hcount ⊢
  rw [Nat.add_sub_cancel] at hlen
  have hentry := win2unixfn_entry chksum hun (Nat.le_add_left 1 k)
    (by rw [Nat.add_sub_cancel]; omega) dp (Or.inl (by omega) : _ ∨ chk = chksum.toNat)
  rw [if_pos (by omega), Nat.add_sub_cancel] at hentry
  generalize hcs : (if 13 ≤ (charsFrom un (k + 1)).length then (charsFrom un (k + 1)).take 13
    else charsFrom un (k + 1) ++ [0]) = cs at hentry
  have hchars : cs.length ≤ (charsFrom un (k + 1)).length + 1 ∧
      ∀ i, i < 13 → k * 13 + i < un.length → i < cs.length ∧ cs[i]? = un[k * 13 + i]? := by
    have hat : ∀ i : ℕ, (charsFrom un (k + 1))[i]? = un[k * 13 + i]? := fun i => by
      rw [charsFrom, List.getElem?_drop]
      rfl
    rw [← hcs]
    split_ifs with h13
    · have htake : ((charsFrom un (k + 1)).take 13).length = 13 := List.length_take_of_le h13
      exact ⟨by omega, fun i hi hlt => ⟨by omega, by rw [List.getElem?_take_of_lt hi, hat]⟩⟩
    · rw [List.length_append, List.length_singleton]
      refine ⟨le_rfl, fun i hi hlt => ⟨by omega, ?_⟩⟩
      rw [List.getElem?_append_left (by omega), hat]
  have hplaced := entry_placed hdn (show k * 13 + cs.length ≤ 256 by omega) hchars.2
    fun i hi hlt => by omega
  have hdn' : (putAt dp.d_name (k * 13) cs).length = 256 := (putAt_length _ _ _).trans hdn
  obtain ⟨hrets, hnamlen, hname⟩ := @readEntries_full un chksum hun k (by omega)
    ⟨UInt8.ofNat un.length, putAt dp.d_name (k * 13) cs⟩ hdn' hplaced
  rw [winEntries, readEntries, hentry]
  dsimp only
  refine ⟨by rw [hrets, List.replicate_succ], ?_, ?_⟩
  · rw [hnamlen, UInt8.toNat_ofNat']
    omega
  · refine List.ext_getElem? fun i => ?_
    by_cases hi : i < un.length
    · rw [List.getElem?_take_of_lt hi, hname i hi]
    · rw [List.getElem?_take_eq_none (by omega), List.getElem?_eq_none (by omega)]

end Entries

/-- The first `n` characters of two names are the same but for their case. -/
def Agree (n : ℕ) (r s : List UInt8) : Prop := (r.take n).map u2l = (s.take n).map u2l

instance (n : ℕ) (r s : List UInt8) : Decidable (Agree n r s) :=
  inferInstanceAs (Decidable (_ = _))

theorem Agree.refl (n : ℕ) (r : List UInt8) : Agree n r r := rfl

theorem agree_cons {n : ℕ} {c d : UInt8} {r s : List UInt8} :
    Agree (n + 1) (c :: r) (d :: s) ↔ u2l c = u2l d ∧ Agree n r s := by
  simp [Agree]

theorem agree_add {i j : ℕ} {r s : List UInt8} (h : r.length = s.length) :
    Agree (i + j) r s ↔ Agree i r s ∧ Agree j (r.drop i) (s.drop i) := by
  unfold Agree
  rw [List.take_add, List.take_add, List.map_append, List.map_append]
  constructor
  · intro heq
    exact List.append_inj heq (by simp [h])
  · rintro ⟨h1, h2⟩
    rw [h1, h2]

theorem chkPart_pairs (n : ℕ) {r s : List UInt8} (h : r.length = s.length) :
    chkPart (pairs n r) s =
      if Agree n r s then (if n ≤ s.length then .ok (s.drop n) else .error true)
      else .error false := by
  induction n generalizing r s with
  | zero => simp [pairs, chkPart, Agree]
  | succ n ih =>
    cases r with
    | nil =>
      obtain rfl : s = [] := List.length_eq_zero_iff.mp h.symm
      simp [pairs_nil, chkPart, Agree]
    | cons c r =>
      cases s with
      | nil => exact absurd h (by simp)
      | cons d s =>
        have hrest := ih (Nat.succ.inj h)
        rw [pairs_cons, chkPart, hrest]
        by_cases hc : u2l c = u2l d
        · simp [agree_cons, hc]
        · simp [agree_cons, hc]

theorem chkPart_holds {wep : Winentry} {r s : List UInt8} (h : Holds wep r)
    (hlen : r.length = s.length) :
    (chkPart wep.wePart1 s >>= chkPart wep.wePart2 >>= chkPart wep.wePart3) =
      if Agree 13 r s then (if 13 ≤ s.length then .ok (s.drop 13) else .error true)
      else .error false := by
  have hdrop : ∀ n, (r.drop n).length = (s.drop n).length := fun n => by
    rw [List.length_drop, List.length_drop, hlen]
  have hall : Agree 13 r s ↔ Agree 5 r s ∧ Agree 6 (r.drop 5) (s.drop 5) ∧
      Agree 2 (r.drop 11) (s.drop 11) := by
    have h8 := @agree_add 6 2 (r.drop 5) (s.drop 5) (hdrop 5)
    rw [List.drop_drop, List.drop_drop] at h8
    exact (@agree_add 5 8 r s hlen).trans (and_congr_right fun _ => h8)
  have hnil : ∀ {n m : ℕ}, s.length ≤ m → Agree n (r.drop m) (s.drop m) := fun {n m} hm => by
    rw [List.drop_eq_nil_of_le (hlen.trans_le hm), List.drop_eq_nil_of_le hm]
    rfl
  rw [h.part1, chkPart_pairs 5 hlen]
  by_cases a5 : Agree 5 r s
  · rw [if_pos a5]
    by_cases l5 : 5 ≤ s.length
    · rw [if_pos l5, h.part2 (hlen.symm ▸ l5)]
      change (chkPart (pairs 6 (r.drop 5)) (s.drop 5) >>= _) = _
      rw [chkPart_pairs 6 (hdrop 5)]
      by_cases a6 : Agree 6 (r.drop 5) (s.drop 5)
      · rw [if_pos a6]
        by_cases l11 : 11 ≤ s.length
        · rw [if_pos (by rw [List.length_drop]; omega), h.part3 (hlen.symm ▸ l11), List.drop_drop]
          change chkPart (pairs 2 (r.drop 11)) (s.drop 11) = _
          rw [chkPart_pairs 2 (hdrop 11), List.drop_drop, List.length_drop]
          by_cases a2 : Agree 2 (r.drop 11) (s.drop 11)
          · rw [if_pos a2, if_pos (hall.mpr ⟨a5, a6, a2⟩)]
            exact if_congr (by omega) rfl rfl
          · rw [if_neg a2, if_neg fun h => a2 (hall.mp h).2.2]
        · rw [if_neg (by rw [List.length_drop]; omega), if_pos (hall.mpr ⟨a5, a6, hnil (by omega)⟩),
            if_neg (by omega)]
          rfl
      · rw [if_neg a6, if_neg fun h => a6 (hall.mp h).2.1]
        rfl
    · rw [if_neg l5, if_pos (hall.mpr ⟨a5, hnil (by omega), hnil (by omega)⟩), if_neg (by omega)]
      rfl
  · rw [if_neg a5, if_neg fun h => a5 (hall.mp h).1]
    rfl

section Compare

variable {un name : List UInt8} {cnt : ℕ} (chksum : UInt8)

theorem winChkName_entry (hun : LongName un) (hlen : name.length = un.length) (hcnt : 1 ≤ cnt)
    (hle : (cnt - 1) * 13 < un.length) (chk : ℤ) :
    winChkName name (unix2winfn un cnt chksum).1 chk =
      some (if Agree 13 (charsFrom un cnt) (charsFrom name cnt) then
        chkSum (unix2winfn un cnt chksum).1 chk else -1) := by
  obtain ⟨hcount, hlast, -⟩ := entry_fields chksum hun hle
  have hl := length_charsFrom un cnt
  have hl' : (charsFrom un cnt).length = (charsFrom name cnt).length := by
    rw [length_charsFrom, length_charsFrom, hlen]
  unfold winChkName
  dsimp only
  by_cases hsum : chkSum (unix2winfn un cnt chksum).1 chk = -1
  · rw [if_pos hsum, hsum, ite_self]
  · have hchars : name.drop ((cnt - 1) * WIN_CHARS) = charsFrom name cnt := rfl
    rw [if_neg hsum, hcount, if_neg (by omega), hchars, if_neg (by omega),
      if_neg (fun h => absurd (hlast.mp h.1) (by have := h.2; unfold WIN_CHARS at this; omega)),
      chkPart_holds (unix2winfn_spec hun.last cnt chksum).1 hl']
    by_cases hagree : Agree 13 (charsFrom un cnt) (charsFrom name cnt)
    · rw [if_pos hagree, if_pos hagree]
      by_cases h13 : 13 ≤ (charsFrom name cnt).length
      · rw [if_pos h13]
      · rw [if_neg h13]
        rfl
    · rw [if_neg hagree, if_neg hagree]
      rfl

theorem exists_not_agree (hlen : name.length = un.length) (hne : name.map u2l ≠ un.map u2l) :
    ∃ cnt, 1 ≤ cnt ∧ (cnt - 1) * 13 < un.length ∧
      ¬ Agree 13 (charsFrom un cnt) (charsFrom name cnt) := by
  by_contra hall
  refine hne (List.ext_getElem (by simp [hlen]) fun i hi hi' => ?_)
  rw [List.length_map] at hi hi'
  have hagree : Agree 13 (charsFrom un (i / 13 + 1)) (charsFrom name (i / 13 + 1)) := by
    by_contra h
    exact hall ⟨i / 13 + 1, by omega, by omega, h⟩
  have hat : ∀ l : List UInt8, (((charsFrom l (i / 13 + 1)).take 13).map u2l)[i % 13]? =
      l[i]?.map u2l := fun l => by
    rw [List.getElem?_map, List.getElem?_take_of_lt (Nat.mod_lt _ (by decide)), charsFrom,
      List.getElem?_drop, show (i / 13 + 1 - 1) * WIN_CHARS + i % 13 = i by
        unfold WIN_CHARS
        omega]
  have h := hat un
  rw [hagree, hat name, List.getElem?_eq_getElem hi, List.getElem?_eq_getElem hi'] at h
  rw [List.getElem_map, List.getElem_map]
  exact Option.some.inj h

end Compare

/-- A long name written to its entries and read back in the order of the directory comes
back with its length, every entry giving the checksum; each entry accepts the name, and a
name of the same length that differs in more than its case is rejected by some entry. -/
theorem longName_roundTrip (un : List UInt8) (chksum : UInt8) (dp : Dirent) (chk : ℤ)
    (hun : LongName un) (hdp : dp.d_name.length = 256) :
    let back := readEntries (winEntries un chksum (winSlotCnt un)) dp chk
    (back.1 = List.replicate (winSlotCnt un) (chksum.toNat : ℤ) ∧
      back.2.d_namlen.toNat = un.length ∧ back.2.d_name.take un.length = un) ∧
    (∀ cnt, 1 ≤ cnt → cnt ≤ winSlotCnt un → ∀ chk : ℤ, cnt = winSlotCnt un ∨ chk = chksum.toNat →
      winChkName un (unix2winfn un cnt chksum).1 chk = some (chksum.toNat : ℤ)) ∧
    ∀ name : List UInt8, name.length = un.length → name.map u2l ≠ un.map u2l →
      ∃ cnt, 1 ≤ cnt ∧ cnt ≤ winSlotCnt un ∧
        ∀ chk, winChkName name (unix2winfn un cnt chksum).1 chk = some (-1) := by
  intro back
  have hcount := winSlotCnt_eq hun
  refine ⟨readEntries_winEntries chksum hun hdp chk, fun cnt hcnt hle chk hchk => ?_,
    fun name hlen hne => ?_⟩
  · have hlt : (cnt - 1) * 13 < un.length := by omega
    have hl := length_charsFrom un cnt
    rw [winChkName_entry chksum hun rfl hcnt hlt, if_pos (Agree.refl 13 _)]
    exact congrArg some ((entry_fields chksum hun hlt).2.2 chk
      (hchk.imp_left fun h => by omega))
  · obtain ⟨cnt, hcnt, hlt, hagree⟩ := exists_not_agree hlen hne
    refine ⟨cnt, hcnt, by omega, fun chk => ?_⟩
    rw [winChkName_entry chksum hun hlen hcnt hlt, if_neg hagree]

/-- The name `longfilename.txt`. -/
def longText : List UInt8 :=
  [0x6c, 0x6f, 0x6e, 0x67, 0x66, 0x69, 0x6c, 0x65, 0x6e, 0x61, 0x6d, 0x65, 0x2e, 0x74, 0x78, 0x74]

theorem longName_roundTrip_text : winSlotCnt longText = 2 ∧
    (readEntries (winEntries longText 0x5a 2) ⟨0, List.replicate 256 0⟩ (-1)).1 = [0x5a, 0x5a] ∧
    (readEntries (winEntries longText 0x5a 2) ⟨0, List.replicate 256 0⟩ (-1)).2.d_name.take 16 = longText := by
  have h := longName_roundTrip longText 0x5a ⟨0, List.replicate 256 0⟩ (-1)
    ⟨by decide, by decide, by decide +kernel, by decide⟩ (List.length_replicate ..)
  exact ⟨rfl, h.1.1, h.1.2.2⟩

end OpenbsdKernel.Winname
