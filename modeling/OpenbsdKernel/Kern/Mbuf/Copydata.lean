import OpenbsdKernel.Kern.Mbuf.Copym

/-!
# Copying between a chain and a buffer

`m_copydata` collects bytes of a chain. `m_copyback` writes a buffer into a chain: a first
loop finds the position, where needed behind a new mbuf that fills the gap with zeros, and
a second one writes, extends the last mbuf into its free space and appends what is left.
The bytes passed and written are totalled to correct the length in the packet header.
-/
namespace OpenbsdKernel.UipcMbuf

open Store

/-- The loop of `m_copydata`. -/
def copydataLoop (mem : Mem) : List Mbuf → ℕ → ℕ → Option (List UInt8)
  | [], _, len => if len = 0 then some [] else none
  | m :: c, off, len =>
    if len = 0 then some []
    else
      let count := min (m.m_len - off) len
      (copydataLoop mem c 0 (len - count)).map
        (mem.store.read (region m.buf (m.m_data + off) count) ++ ·)

/-- `m_copydata`: the bytes that are stored in the buffer. -/
def m_copydata (mem : Mem) (c : List Mbuf) (off len : ℕ) : Option (List UInt8) :=
  match m_getptr c off with
  | none => none
  | some (src, off) => copydataLoop mem src off len

theorem copydataLoop_spec (mem : Mem) {c : List Mbuf} {off len : ℕ}
    (hoff : ∀ m ∈ c.head?, off ≤ m.m_len) (hlen : off + len ≤ chainLen c) :
    copydataLoop mem c off len = some (((mem.bytes c).drop off).take len) := by
  induction c generalizing off len with
  | nil =>
    have : len = 0 := by
      simp at hlen
      omega
    simp [copydataLoop, this]
  | cons m c ih =>
    have hm := hoff m rfl
    rw [chainLen_cons] at hlen
    unfold copydataLoop
    by_cases hzero : len = 0
    · simp [hzero]
    rw [if_neg hzero]
    have hread : mem.store.read (region m.buf (m.m_data + off) (min (m.m_len - off) len)) =
        ((mem.store.read m.locs).drop off).take len := by
      rw [read_part _ _ (min_le_left _ _), ← List.take_take, List.take_of_length_le]
      simp
    dsimp only
    rw [ih (by simp) (by omega), Option.map_some, hread, List.drop_zero, Mem.bytes_cons,
      List.drop_append_of_le_length (by simpa using hm), List.take_append]
    simp only [List.length_drop, length_read, Mbuf.length_locs]
    rw [show len - min (m.m_len - off) len = len - (m.m_len - off) by omega]

theorem m_copydata_spec (mem : Mem) {c : List Mbuf} {off len : ℕ} (hne : c ≠ [])
    (hlen : off + len ≤ chainLen c) :
    m_copydata mem c off len = some (((mem.bytes c).drop off).take len) := by
  obtain ⟨pre, m, src, o, hget, hsplit, hsum, ho⟩ :=
    m_getptr_spec hne (Nat.le_of_add_right_le hlen)
  have hhead : ∀ k ∈ (m :: src).head?, o ≤ k.m_len := by
    intro k hk
    obtain rfl : m = k := Option.some.inj hk
    exact ho
  have hrest : o + len ≤ chainLen (m :: src) := by
    rw [hsplit, chainLen_append] at hlen
    omega
  rw [m_copydata, hget]
  simp only
  rw [copydataLoop_spec mem hhead hrest, hsplit, Mem.bytes_append, hsum, ← List.drop_drop,
    List.drop_left' (by simp)]

/-- `MCLGETI(n, wait, NULL, size)` for a new mbuf that is to hold `size` bytes, when that is more
than it has room for; `none` as the mbuf means that there was no cluster. -/
def grow (mem : Mem) (n : Mbuf) (size : ℕ) : Option (Option Mbuf × Mem) :=
  if MLEN < size then
    match m_clget mem n size with
    | none => none
    | some (n, mem) =>
      if n.m_ext = none then (m_free mem n []).map fun r => (none, r.2)
      else some (some n, mem)
  else some (some n, mem)

/-- The first loop of `m_copyback`: the mbufs passed, the place found (none after `ENOBUFS`), and
the bytes passed. The loop ends at a new mbuf, which has `off` bytes and more. -/
def gapLoop (mem : Mem) (len : ℕ) : Mbuf → List Mbuf → ℕ →
    Option (List Mbuf × Option (Mbuf × List Mbuf × ℕ) × ℕ × Mem)
  | m, post, off =>
    if m.m_len < off then
      match post with
      | k :: post =>
        (gapLoop mem len k post (off - m.m_len)).map
          fun (pre, place, totlen, mem) => (m :: pre, place, totlen + m.m_len, mem)
      | [] =>
        let off := off - m.m_len
        match m_get mem with
        | (none, mem) => some ([m], none, m.m_len, mem)
        | (some n, mem) =>
          match grow mem n (off + len) with
          | none => none
          | some (none, mem) => some ([m], none, m.m_len, mem)
          | some (some n, mem) =>
            some ([m], some ({ n with m_len := len + off }, [], off), m.m_len,
              mem.copyin n.buf n.m_data (List.replicate off 0))
    else some ([], some (m, post, off), 0, mem)

/-- `m->m_len += min(len - (m->m_len - off), M_TRAILINGSPACE(m))` for the last mbuf. -/
def extend (mem : Mem) (m : Mbuf) (post : List Mbuf) (off len : ℕ) : Mbuf :=
  if post = [] ∧ m.m_len - off < len then
    { m with m_len := m.m_len + min (len - (m.m_len - off)) (m_trailingspace mem m) }
  else m

/-- The second loop of `m_copyback`: the chain from the place on, the bytes passed and written,
and whether it ended with `ENOBUFS`. -/
def writeLoop : ℕ → Mem → Mbuf → List Mbuf → ℕ → List UInt8 →
    Option (List Mbuf × ℕ × Bool × Mem)
  | 0, _, _, _, _, _ => none
  | i + 1, mem, m, post, off, cp =>
    if cp = [] then some (m :: post, 0, false, mem)
    else
      let m := extend mem m post off cp.length
      let mlen := min (m.m_len - off) cp.length
      let mem := mem.copyin m.buf (m.m_data + off) (cp.take mlen)
      let cp := cp.drop mlen
      if cp = [] then some (m :: post, mlen + off, false, mem)
      else
        match post with
        | k :: post =>
          (writeLoop i mem k post 0 cp).map
            fun (c, totlen, error, mem) => (m :: c, totlen + (mlen + off), error, mem)
        | [] =>
          match m_get mem with
          | (none, mem) => some ([m], mlen + off, true, mem)
          | (some n, mem) =>
            match grow mem n cp.length with
            | none => none
            | some (none, mem) => some ([m], mlen + off, true, mem)
            | some (some n, mem) =>
              (writeLoop i mem { n with m_len := cp.length } [] 0 cp).map
                fun (c, totlen, error, mem) => (m :: c, totlen + (mlen + off), error, mem)

/-- The code at the label `out`. -/
def fixLen (totlen : ℕ) : List Mbuf → List Mbuf
  | [] => []
  | m :: c =>
    { m with m_pkthdr := m.m_pkthdr.map fun ph =>
        if ph.len < (totlen : ℤ) then { ph with len := (totlen : ℤ) } else ph } :: c

/-- `m_copyback`: the chain afterwards and whether `ENOBUFS` is returned. -/
def m_copyback (mem : Mem) (m0 : List Mbuf) (off : ℕ) (cp : List UInt8) :
    Option (List Mbuf × Bool × Mem) :=
  match m0 with
  | [] => some ([], false, mem)
  | m :: c =>
    match gapLoop mem cp.length m c off with
    | none => none
    | some (pre, none, totlen, mem) => some (fixLen totlen pre, true, mem)
    | some (pre, some (m, post, off), totlen, mem) =>
      match writeLoop (post.length + 2) mem m post off cp with
      | none => none
      | some (c, more, error, mem) => some (fixLen (totlen + more) (pre ++ c), error, mem)

example (mem : Mem) (off : ℕ) (cp : List UInt8) :
    m_copyback mem [] off cp = some ([], false, mem) := by
  simp [m_copyback]

end OpenbsdKernel.UipcMbuf
