import Mathlib.Data.List.GetD
import OpenbsdKernel.Net.Bpf.Validate

/-!
# Packets in mbuf chains

Loads of `bpf_filter` from a chain of mbufs against those from a contiguous copy of the packet.
`bpf_m_xword` and `bpf_m_xhalf` take the bytes behind an mbuf from the next one and from no
other, and only `bpf_m_xword` checks that it holds them.
-/
namespace OpenbsdKernel.Bpf

def Mbuf.data (m : Mbuf) : List (BitVec 8) := (List.range m.m_len).map m.mtod

/-- The bytes of a chain. -/
def chainData (ms : List Mbuf) : List (BitVec 8) := ms.flatMap Mbuf.data

@[simp] theorem length_data (m : Mbuf) : m.data.length = m.m_len := by simp [Mbuf.data]

@[simp] theorem chainData_nil : chainData [] = [] := rfl

theorem length_chainData_cons (m : Mbuf) (ms : List Mbuf) :
    (chainData (m :: ms)).length = m.m_len + (chainData ms).length := by
  simp [chainData]

theorem getD_chainData_of_lt {m : Mbuf} (ms : List Mbuf) {i : ℕ} (h : i < m.m_len) :
    (chainData (m :: ms)).getD i 0 = m.mtod i := by
  have hi : i < m.data.length := by simpa using h
  rw [chainData, List.flatMap_cons, List.getD_append _ _ _ _ hi]
  simp [Mbuf.data, List.getD, h]

theorem getD_chainData_of_le {m : Mbuf} (ms : List Mbuf) {i : ℕ} (h : m.m_len ≤ i) :
    (chainData (m :: ms)).getD i 0 = (chainData ms).getD (i - m.m_len) 0 := by
  have hi : m.data.length ≤ i := by simpa using h
  rw [chainData, List.flatMap_cons, List.getD_append_right _ _ _ _ hi, length_data, chainData]

/-- The number of bytes of a load. -/
def Size.bytes : Size → ℕ
  | .W => 4
  | .H => 2
  | .B => 1

example : Size.W.bytes = 4 := by simp [Size.bytes]

def Size.extract : Size → (ℕ → BitVec 8) → BitVec 32
  | .W => extractLong
  | .H => extractShort
  | .B => fun p => (p 0).setWidth 32

/-- A load from the bytes of a packet. -/
def loadBytes (d : List (BitVec 8)) (k : ℕ) (sz : Size) : Option (BitVec 32) :=
  if k + sz.bytes ≤ d.length then some (sz.extract fun i => d.getD (k + i) 0) else none

def loadChain (m : Mbuf) (ms : List Mbuf) (k : ℕ) : Size → Option (BitVec 32)
  | .W => bpfMXword m ms k
  | .H => bpfMXhalf m ms k
  | .B => bpfMXbyte m ms k

example (m : Mbuf) (ms : List Mbuf) (k : ℕ) : loadChain m ms k .B = bpfMXbyte m ms k := by
  simp [loadChain]

theorem extract_congr (sz : Size) {p q : ℕ → BitVec 8} (h : ∀ i < sz.bytes, p i = q i) :
    sz.extract p = sz.extract q := by
  cases sz with
  | W =>
    have h0 := h 0 (by decide)
    have h1 := h 1 (by decide)
    have h2 := h 2 (by decide)
    have h3 := h 3 (by decide)
    simp only [Size.extract, extractLong, h0, h1, h2, h3]
  | H =>
    have h0 := h 0 (by decide)
    have h1 := h 1 (by decide)
    simp only [Size.extract, extractShort, h0, h1]
  | B =>
    have h0 := h 0 (by decide)
    simp only [Size.extract, h0]

/-- `q` holds in one buffer the packet that `p` holds in a chain. -/
structure IsCopy (p q : Packet) : Prop where
  chain : p.buflen = 0
  buffer : q.buflen ≠ 0
  wirelen : q.wirelen = p.wirelen
  length : q.buflen.toNat = (chainData (p.m :: p.m_next)).length
  bytes : ∀ i < q.buflen.toNat, q.bytes i = (chainData (p.m :: p.m_next)).getD i 0

/-- The contiguous copy of the packet in a chain. -/
def Packet.copy (p : Packet) : Packet :=
  { p with
    bytes := fun i => (chainData (p.m :: p.m_next)).getD i 0
    buflen := BitVec.ofNat 32 (chainData (p.m :: p.m_next)).length }

theorem isCopy_copy {p : Packet} (h : p.buflen = 0) (hpos : chainData (p.m :: p.m_next) ≠ [])
    (hlt : (chainData (p.m :: p.m_next)).length < 2 ^ 32) : IsCopy p p.copy := by
  have hlen : p.copy.buflen.toNat = (chainData (p.m :: p.m_next)).length := by
    rw [Packet.copy, BitVec.toNat_ofNat, Nat.mod_eq_of_lt hlt]
  refine ⟨h, ?_, rfl, hlen, fun _ _ => rfl⟩
  intro h0
  rw [h0] at hlen
  exact hpos (List.length_eq_zero_iff.mp hlen.symm)

theorem load_chain {p : Packet} (h : p.buflen = 0) (k : BitVec 32) (sz : Size) :
    load p k sz = loadChain p.m p.m_next k.toNat sz := by
  have hzero : ∀ n : BitVec 32, 0 < n → (p.buflen < k ∨ p.buflen - k < n) := by
    intro n hn
    rw [h]
    by_cases hk : k = 0
    · right
      simpa [hk] using hn
    · left
      rw [BitVec.lt_def]
      exact Nat.pos_of_ne_zero fun h0 => hk (BitVec.eq_of_toNat_eq h0)
  cases sz with
  | W => rw [load, if_pos (hzero 4 (by decide)), if_neg (not_not.mpr h), loadChain]
  | H => rw [load, if_pos (hzero 2 (by decide)), if_neg (not_not.mpr h), loadChain]
  | B => rw [load, if_pos (by rw [h, BitVec.le_def]; exact Nat.zero_le _), if_neg (not_not.mpr h), loadChain]

theorem load_buffer {q : Packet} (hne : q.buflen ≠ 0) {d : List (BitVec 8)}
    (hlen : q.buflen.toNat = d.length) (hbytes : ∀ i < q.buflen.toNat, q.bytes i = d.getD i 0)
    (k : BitVec 32) (sz : Size) : load q k sz = loadBytes d k.toNat sz := by
  have hout : ∀ n : BitVec 32, n ≠ 0 → ((q.buflen < k ∨ q.buflen - k < n) ↔
      ¬k.toNat + n.toNat ≤ d.length) := by
    intro n hn
    rw [← hlen]
    by_cases hlt : q.buflen < k
    · have h := BitVec.lt_def.mp hlt
      simp only [hlt, true_or, true_iff]
      omega
    · have h : k ≤ q.buflen := BitVec.not_lt.mp hlt
      have hsub : (q.buflen - k).toNat = q.buflen.toNat - k.toNat := BitVec.toNat_sub_of_le h
      rw [BitVec.le_def] at h
      simp only [hlt, false_or, BitVec.lt_def, hsub]
      omega
  have hval : k.toNat + sz.bytes ≤ d.length → sz.extract (fun i => q.bytes (k.toNat + i)) =
      sz.extract fun i => d.getD (k.toNat + i) 0 := by
    intro hle
    refine extract_congr sz fun i hi => hbytes (k.toNat + i) ?_
    rw [hlen]
    omega
  cases sz with
  | W =>
    have hc := hout 4 (by decide)
    by_cases hle : k.toNat + Size.bytes .W ≤ d.length
    · have hc' : ¬(q.buflen < k ∨ q.buflen - k < 4) := fun h => hc.mp h hle
      rw [load, if_neg hc', loadBytes, if_pos hle, ← hval hle]
      rfl
    · have hc' : q.buflen < k ∨ q.buflen - k < 4 := hc.mpr hle
      rw [load, if_pos hc', if_pos hne, loadBytes, if_neg hle]
  | H =>
    have hc := hout 2 (by decide)
    by_cases hle : k.toNat + Size.bytes .H ≤ d.length
    · have hc' : ¬(q.buflen < k ∨ q.buflen - k < 2) := fun h => hc.mp h hle
      rw [load, if_neg hc', loadBytes, if_pos hle, ← hval hle]
      rfl
    · have hc' : q.buflen < k ∨ q.buflen - k < 2 := hc.mpr hle
      rw [load, if_pos hc', if_pos hne, loadBytes, if_neg hle]
  | B =>
    by_cases hle : k.toNat + Size.bytes .B ≤ d.length
    · have hc' : ¬q.buflen ≤ k := by
        rw [BitVec.le_def, hlen]
        simp only [Size.bytes] at hle
        omega
      rw [load, if_neg hc', loadBytes, if_pos hle, ← hval hle]
      rfl
    · have hc' : q.buflen ≤ k := by
        rw [BitVec.le_def, hlen]
        simp only [Size.bytes] at hle
        omega
      rw [load, if_pos hc', if_pos hne, loadBytes, if_neg hle]

theorem mindex_of_lt {m : Mbuf} (ms : List Mbuf) {k : ℕ} (h : k < m.m_len) :
    mindex m ms k = some (m, ms, k) := by
  cases ms <;> simp [mindex, Nat.not_le.mpr h]

theorem mindex_of_le {m m' : Mbuf} (ms : List Mbuf) {k : ℕ} (h : m.m_len ≤ k) :
    mindex m (m' :: ms) k = mindex m' ms (k - m.m_len) := by
  simp [mindex, h]

theorem loadChain_nil_of_le {m : Mbuf} {k : ℕ} (h : m.m_len ≤ k) (sz : Size) :
    loadChain m [] k sz = none := by
  cases sz <;> simp [loadChain, bpfMXword, bpfMXhalf, bpfMXbyte, mindex, h]

theorem loadChain_cons_of_le {m m' : Mbuf} (ms : List Mbuf) {k : ℕ} (h : m.m_len ≤ k) (sz : Size) :
    loadChain m (m' :: ms) k sz = loadChain m' ms (k - m.m_len) sz := by
  cases sz <;> simp only [loadChain, bpfMXword, bpfMXhalf, bpfMXbyte, mindex_of_le ms h]

theorem loadBytes_cons_of_le {m : Mbuf} (ms : List Mbuf) {k : ℕ} (h : m.m_len ≤ k) (sz : Size) :
    loadBytes (chainData (m :: ms)) k sz = loadBytes (chainData ms) (k - m.m_len) sz := by
  have hlen := length_chainData_cons m ms
  by_cases hle : k + sz.bytes ≤ (chainData (m :: ms)).length
  · rw [loadBytes, if_pos hle, loadBytes, if_pos (by omega)]
    congr 1
    refine extract_congr sz fun i _ => ?_
    rw [getD_chainData_of_le ms (by omega), show k + i - m.m_len = k - m.m_len + i by omega]
  · rw [loadBytes, if_neg hle, loadBytes, if_neg (by omega)]

theorem loadChain_inside {m : Mbuf} (ms : List Mbuf) {k : ℕ} {sz : Size}
    (h : k + sz.bytes ≤ m.m_len) :
    loadChain m ms k sz = loadBytes (chainData (m :: ms)) k sz := by
  have hk : k < m.m_len := by cases sz <;> simp only [Size.bytes] at h <;> omega
  have hlen := length_chainData_cons m ms
  have hval : sz.extract (fun i => m.mtod (k + i)) =
      sz.extract fun i => (chainData (m :: ms)).getD (k + i) 0 :=
    extract_congr sz fun i hi => (getD_chainData_of_lt ms (by omega)).symm
  rw [loadBytes, if_pos (by omega), ← hval]
  cases sz with
  | W =>
    have h4 : k + 4 ≤ m.m_len := h
    simp [loadChain, bpfMXword, mindex_of_lt ms hk, h4, Size.extract]
  | H =>
    have h2 : k + 2 ≤ m.m_len := h
    simp [loadChain, bpfMXhalf, mindex_of_lt ms hk, h2, Size.extract]
  | B => simp [loadChain, bpfMXbyte, mindex_of_lt ms hk, Size.extract]

theorem loadChain_last {m : Mbuf} {k : ℕ} {sz : Size} (hk : k < m.m_len)
    (h : m.m_len < k + sz.bytes) : loadChain m [] k sz = none := by
  cases sz with
  | W =>
    have h4 : ¬k + 4 ≤ m.m_len := Nat.not_le.mpr h
    simp [loadChain, bpfMXword, mindex_of_lt [] hk, h4]
  | H =>
    have h2 : ¬k + 2 ≤ m.m_len := Nat.not_le.mpr h
    simp [loadChain, bpfMXhalf, mindex_of_lt [] hk, h2]
  | B =>
    simp only [Size.bytes] at h
    omega

theorem bpfMXword_over {m m0 : Mbuf} (rest : List Mbuf) {k : ℕ} (hk : k < m.m_len)
    (h : m.m_len < k + 4) :
    bpfMXword m (m0 :: rest) k =
      if m0.m_len + (m.m_len - k) < 4 then none
      else some (extractLong fun i =>
        if i < m.m_len - k then m.mtod (k + i) else m0.mtod (i - (m.m_len - k))) := by
  have h4 : ¬k + 4 ≤ m.m_len := Nat.not_le.mpr h
  have hsum : m0.m_len + m.m_len - k = m0.m_len + (m.m_len - k) := by omega
  simp only [bpfMXword, mindex_of_lt _ hk, if_neg h4, hsum]
  split_ifs with hshort
  · rfl
  · obtain hc | hc | hc : m.m_len - k = 1 ∨ m.m_len - k = 2 ∨ m.m_len - k = 3 := by omega
    all_goals simp only [hc]

theorem bpfMXhalf_over {m m0 : Mbuf} (rest : List Mbuf) {k : ℕ} (h : m.m_len = k + 1) :
    bpfMXhalf m (m0 :: rest) k =
      some (extractShort fun i => if i < 1 then m.mtod (k + i) else m0.mtod 0) := by
  have hk : k < m.m_len := by omega
  have h2 : ¬k + 2 ≤ m.m_len := by omega
  simp only [bpfMXhalf, mindex_of_lt _ hk, if_neg h2]

theorem word_over_iff {m m0 : Mbuf} (rest : List Mbuf) {k : ℕ} (hk : k < m.m_len)
    (h : m.m_len < k + 4) :
    bpfMXword m (m0 :: rest) k = loadBytes (chainData (m :: m0 :: rest)) k .W ↔
      (m0.m_len + (m.m_len - k) < 4 →
        m0.m_len + (m.m_len - k) + (chainData rest).length < 4) := by
  have hlen := length_chainData_cons m (m0 :: rest)
  have hlen0 := length_chainData_cons m0 rest
  rw [bpfMXword_over rest hk h, loadBytes, Size.bytes]
  by_cases hshort : m0.m_len + (m.m_len - k) < 4
  · rw [if_pos hshort]
    by_cases hle : k + 4 ≤ (chainData (m :: m0 :: rest)).length
    · rw [if_pos hle]
      simp only [reduceCtorEq, false_iff, hshort, true_imp_iff]
      omega
    · rw [if_neg hle]
      simp only [true_iff, hshort, true_imp_iff]
      omega
  · rw [if_neg hshort, if_pos (by omega)]
    simp only [hshort, false_imp_iff, iff_true, Option.some.injEq]
    rw [show extractLong = Size.extract .W from rfl]
    refine extract_congr .W fun i hi => ?_
    have hi : i < 4 := hi
    split_ifs with hin
    · exact (getD_chainData_of_lt _ (by omega)).symm
    · rw [getD_chainData_of_le _ (by omega), getD_chainData_of_lt _ (by omega)]
      congr 1
      omega

theorem extractShort_second {p q : ℕ → BitVec 8} (h : Size.extract .H p = Size.extract .H q) :
    p 1 = q 1 := by
  have hlow : ∀ r : ℕ → BitVec 8, (Size.extract .H r).setWidth 8 = r 1 := by
    intro r
    ext i hi
    simp [Size.extract, extractShort]
  rw [← hlow p, ← hlow q, h]

theorem half_over_iff {m m0 : Mbuf} (rest : List Mbuf) {k : ℕ} (h : m.m_len = k + 1) :
    bpfMXhalf m (m0 :: rest) k = loadBytes (chainData (m :: m0 :: rest)) k .H ↔
      (m0.m_len = 0 → (chainData rest).head? = some (m0.mtod 0)) := by
  have hlen := length_chainData_cons m (m0 :: rest)
  have hlen0 := length_chainData_cons m0 rest
  have hsecond : (chainData (m :: m0 :: rest)).getD (k + 1) 0 =
      (chainData (m0 :: rest)).getD 0 0 := by
    rw [getD_chainData_of_le _ (by omega), h, Nat.sub_self]
  have hsame : (chainData (m0 :: rest)).getD 0 0 = m0.mtod 0 →
      Size.extract .H (fun i => if i < 1 then m.mtod (k + i) else m0.mtod 0) =
        Size.extract .H fun i => (chainData (m :: m0 :: rest)).getD (k + i) 0 := by
    intro heq
    refine extract_congr .H fun i hi => ?_
    obtain rfl | rfl : i = 0 ∨ i = 1 := by
      have hi : i < 2 := hi
      omega
    · exact (getD_chainData_of_lt _ (by omega)).symm
    · rw [hsecond, heq]
      rfl
  rw [bpfMXhalf_over rest h, loadBytes, Size.bytes, show extractShort = Size.extract .H from rfl]
  by_cases hzero : m0.m_len = 0
  · have hnext : (chainData (m0 :: rest)).getD 0 0 = (chainData rest).getD 0 0 := by
      rw [getD_chainData_of_le _ (by omega), hzero]
    simp only [hzero, true_imp_iff]
    cases hrest : chainData rest with
    | nil =>
      rw [hrest, List.length_nil] at hlen0
      rw [if_neg (by omega)]
      simp
    | cons b d =>
      rw [hrest, List.length_cons] at hlen0
      rw [if_pos (by omega), List.head?_cons, Option.some.injEq, Option.some.injEq]
      rw [hrest, List.getD_cons_zero] at hnext
      constructor
      · intro heq
        have hb := extractShort_second heq
        rw [hsecond, hnext] at hb
        exact hb.symm
      · intro heq
        exact hsame (hnext.trans heq)
  · rw [if_pos (by omega)]
    simp only [hzero, false_imp_iff, iff_true]
    exact congrArg some (hsame (getD_chainData_of_lt rest (by omega)))

/-- No load that begins in `m` is cut short in `m0` or reads behind its end. -/
def Joint (m m0 : Mbuf) (rest : List Mbuf) : Prop :=
  0 < m.m_len →
    (m0.m_len < 3 → chainData rest = [] ∨ m.m_len + m0.m_len + (chainData rest).length < 4) ∧
    (m0.m_len = 0 → (chainData rest).head? = some (m0.mtod 0))

instance (m m0 : Mbuf) (rest : List Mbuf) : Decidable (Joint m m0 rest) :=
  inferInstanceAs (Decidable (_ → _ ∧ _))

/-- All mbufs of the chain are joint with their next one. -/
def Straight : List Mbuf → Prop
  | m :: m0 :: rest => Joint m m0 rest ∧ Straight (m0 :: rest)
  | _ => True

instance decidableStraight : DecidablePred Straight
  | [] => isTrue trivial
  | [_] => isTrue trivial
  | m :: m0 :: rest =>
    have := decidableStraight (m0 :: rest)
    inferInstanceAs (Decidable (Joint m m0 rest ∧ _))

theorem joint_iff (m m0 : Mbuf) (rest : List Mbuf) :
    Joint m m0 rest ↔ ∀ k < m.m_len, ∀ sz,
      loadChain m (m0 :: rest) k sz = loadBytes (chainData (m :: m0 :: rest)) k sz := by
  constructor
  · intro hjoint k hk sz
    obtain ⟨hword, hhalf⟩ := hjoint (by omega)
    by_cases hin : k + sz.bytes ≤ m.m_len
    · exact loadChain_inside (m0 :: rest) hin
    · cases sz with
      | W =>
        refine (word_over_iff rest hk (Nat.not_le.mp hin)).mpr fun hshort => ?_
        obtain hnil | hsum := hword (by omega)
        · rwa [hnil, List.length_nil, add_zero]
        · omega
      | H =>
        have h2 : m.m_len < k + 2 := Nat.not_le.mp hin
        exact (half_over_iff rest (by omega)).mpr hhalf
      | B => exact absurd (show k + 1 ≤ m.m_len from hk) hin
  · intro h hpos
    constructor
    · intro hlt
      -- the widest part of a word that `m` can hold when `m0` is too short for the others
      have hk : m.m_len - min m.m_len (3 - m0.m_len) < m.m_len := by omega
      have hword := (word_over_iff rest hk (by omega)).mp (h _ hk .W) (by omega)
      by_cases hnil : chainData rest = []
      · exact .inl hnil
      · have hrest := List.length_pos_iff.mpr hnil
        right
        omega
    · have hk : m.m_len - 1 < m.m_len := by omega
      exact (half_over_iff rest (by omega)).mp (h _ hk .H)

theorem straight_iff (m : Mbuf) (ms : List Mbuf) :
    Straight (m :: ms) ↔ ∀ k sz, loadChain m ms k sz = loadBytes (chainData (m :: ms)) k sz := by
  induction ms generalizing m with
  | nil =>
    refine ⟨fun _ k sz => ?_, fun _ => trivial⟩
    have hlen := length_chainData_cons m []
    rw [chainData_nil, List.length_nil, add_zero] at hlen
    by_cases hin : k + sz.bytes ≤ m.m_len
    · exact loadChain_inside [] hin
    · rw [loadBytes, if_neg (by omega)]
      by_cases hk : k < m.m_len
      · exact loadChain_last hk (Nat.not_le.mp hin)
      · exact loadChain_nil_of_le (Nat.not_lt.mp hk) sz
  | cons m0 rest ih =>
    rw [Straight, joint_iff, ih]
    constructor
    · rintro ⟨hhere, hrest⟩ k sz
      by_cases hk : k < m.m_len
      · exact hhere k hk sz
      · have hle := Nat.not_lt.mp hk
        rw [loadChain_cons_of_le rest hle, loadBytes_cons_of_le _ hle]
        exact hrest _ sz
    · intro h
      refine ⟨fun k _ sz => h k sz, fun k sz => ?_⟩
      have hle : m.m_len ≤ m.m_len + k := Nat.le_add_right _ _
      have heq := h (m.m_len + k) sz
      rwa [loadChain_cons_of_le rest hle, loadBytes_cons_of_le _ hle, Nat.add_sub_cancel_left] at heq

theorem loadChain_eq_none {m : Mbuf} {ms : List Mbuf} {k : ℕ}
    (h : (chainData (m :: ms)).length ≤ k) (sz : Size) : loadChain m ms k sz = none := by
  induction ms generalizing m k with
  | nil =>
    rw [length_chainData_cons, chainData_nil, List.length_nil, add_zero] at h
    exact loadChain_nil_of_le h sz
  | cons m0 rest ih =>
    rw [length_chainData_cons] at h
    rw [loadChain_cons_of_le rest (by omega)]
    exact ih (by omega)

theorem straight_iff_load {p q : Packet} (hcopy : IsCopy p q) :
    Straight (p.m :: p.m_next) ↔ ∀ k sz, load p k sz = load q k sz := by
  have hbuffer := load_buffer hcopy.buffer hcopy.length hcopy.bytes
  rw [straight_iff]
  constructor
  · intro h k sz
    rw [load_chain hcopy.chain, hbuffer, h]
  · intro h k sz
    by_cases hk : (chainData (p.m :: p.m_next)).length ≤ k
    · have hpos : 0 < sz.bytes := by cases sz <;> decide
      rw [loadChain_eq_none hk, loadBytes, if_neg (by omega)]
    · have hlt : k < 2 ^ 32 := by
        have hlen := hcopy.length
        have hbound := q.buflen.isLt
        omega
      have hload := h (BitVec.ofNat 32 k) sz
      rwa [load_chain hcopy.chain, hbuffer, BitVec.toNat_ofNat, Nat.mod_eq_of_lt hlt] at hload

theorem step_congr {p q : Packet} (hload : ∀ k sz, load p k sz = load q k sz)
    (hwire : q.wirelen = p.wirelen) (h : Shifter) (f : List Insn) (s : State) :
    step h f p s = step h f q s := by
  have hex : ∀ i op, execOp h p i s op = execOp h q i s op := by
    intro i op
    cases op with
    | alu a src => cases a <;> rfl
    | _ => simp only [execOp, hload, hwire]
  unfold step
  simp only [hex]

/-- A load at offset `k`, from which the filter returns with the value or with 1. -/
def loadProgram (sz : Size) (k : BitVec 32) (ret : Op) : List Insn :=
  [⟨Op.ldxImm.code, 0, 0, k⟩, ⟨(Op.ldInd sz).code, 0, 0, 0⟩, ⟨ret.code, 0, 0, 1⟩]

/-- The smallest `bpf_maxbufsize` that can be set. -/
def BPF_MINBUFSIZE : BitVec 32 := 32

theorem bpfValidate_loadProgram {maxbuf : BitVec 32} (hmax : BPF_MINBUFSIZE ≤ maxbuf) (sz : Size)
    (k : BitVec 32) {ret : Op} (hret : ret = .retA ∨ ret = .retK) :
    bpfValidate maxbuf (loadProgram sz k ret) = true := by
  have hpos : ¬maxbuf ≤ 0#32 := by
    rw [BPF_MINBUFSIZE, BitVec.le_def] at hmax
    rw [BitVec.le_def]
    have h32 : (32 : BitVec 32).toNat = 32 := rfl
    have h0 : (0#32).toNat = 0 := rfl
    omega
  have hldx : ∀ i len, checkInsn maxbuf len i ⟨Op.ldxImm.code, 0, 0, k⟩ = true := by
    intro i len
    simp only [checkInsn]
    rw [if_pos (by decide), if_pos (by decide)]
  have hld : ∀ i len, checkInsn maxbuf len i ⟨(Op.ldInd sz).code, 0, 0, 0⟩ = true := by
    intro i len
    simp only [checkInsn]
    rw [if_pos (by cases sz <;> decide), if_neg (by cases sz <;> decide),
      if_pos (by cases sz <;> decide)]
    simpa using hpos
  have hcls : BPF_CLASS ret.code = BPF_RET := by obtain rfl | rfl := hret <;> decide
  have hend : ∀ i len, checkInsn maxbuf len i ⟨ret.code, 0, 0, 1⟩ = true := by
    intro i len
    simp only [checkInsn, hcls]
    rw [if_neg (by decide), if_neg (by decide), if_neg (by decide), if_neg (by decide),
      if_pos trivial]
  have hcheck : checkFrom maxbuf 3 0 (loadProgram sz k ret) = true := by
    simp only [loadProgram, checkFrom, hldx, hld, hend, Bool.and_self]
  have hlen : (loadProgram sz k ret).length = 3 := rfl
  rw [bpfValidate, hlen, if_neg (by decide), if_pos hcheck]
  simp [loadProgram, hcls]

theorem bpfFilter_loadProgram (h : Shifter) (p : Packet) (sz : Size) (k : BitVec 32) {ret : Op}
    (hret : ret = .retA ∨ ret = .retK) :
    ∃ n, bpfFilter h 3 (some (loadProgram sz k ret)) p =
      .returned (if ret = .retA then (load p k sz).getD 0 else (load p k sz).elim 0 fun _ => 1) n := by
  have h₁ : step h (loadProgram sz k ret) p State.init = .next (State.init.setX k) := by
    simp [step, loadProgram, State.init, decode_code, execOp]
  have h₂ : step h (loadProgram sz k ret) p (State.init.setX k) =
      orReject (load p k sz) (State.init.setX k).setA := by
    simp [step, loadProgram, State.init, State.setX, decode_code, execOp]
  have h₃ : ∀ a, step h (loadProgram sz k ret) p ((State.init.setX k).setA a) =
      .done (if ret = .retA then a else 1) := by
    intro a
    obtain rfl | rfl := hret <;>
      simp [step, loadProgram, State.init, State.setX, State.setA, decode_code, execOp]
  rw [bpfFilter, Loop.run_next _ h₁]
  cases hload : load p k sz with
  | none =>
    rw [hload] at h₂
    rw [Loop.run_done _ h₂]
    exact ⟨2, by simp [Loop.Outcome.tick]⟩
  | some a =>
    rw [hload] at h₂
    rw [Loop.run_next _ h₂, Loop.run_done _ (h₃ a)]
    exact ⟨3, by simp [Loop.Outcome.tick]⟩

/-- The filter gives the same verdict on a chain as on its copy, whatever the program, if and
only if the chain reads like one buffer. -/
theorem bpfFilter_chain {maxbuf : BitVec 32} (hmax : BPF_MINBUFSIZE ≤ maxbuf) (h : Shifter)
    {p q : Packet} (hcopy : IsCopy p q) :
    (∀ f, bpfValidate maxbuf f = true → ∀ fuel ≥ f.length, ∃ v n n',
      bpfFilter h fuel (some f) p = .returned v n ∧
        bpfFilter h fuel (some f) q = .returned v n') ↔
      Straight (p.m :: p.m_next) := by
  rw [straight_iff_load hcopy]
  constructor
  · intro hsame k sz
    have hverdict : ∀ ret : Op, (ret = .retA ∨ ret = .retK) →
        (if ret = .retA then (load p k sz).getD 0 else (load p k sz).elim 0 fun _ => 1) =
          if ret = .retA then (load q k sz).getD 0 else (load q k sz).elim 0 fun _ => 1 := by
      intro ret hret
      obtain ⟨v, n, n', hp, hq⟩ :=
        hsame _ (bpfValidate_loadProgram hmax sz k hret) 3 (by simp [loadProgram])
      obtain ⟨i, hp'⟩ := bpfFilter_loadProgram h p sz k hret
      obtain ⟨j, hq'⟩ := bpfFilter_loadProgram h q sz k hret
      rw [hp] at hp'
      rw [hq] at hq'
      exact (Loop.Outcome.returned.inj hp').1.symm.trans (Loop.Outcome.returned.inj hq').1
    have hvalue := hverdict .retA (.inl rfl)
    have haccept := hverdict .retK (.inr rfl)
    cases hp : load p k sz <;> cases hq : load q k sz <;> simp_all
  · intro hload f hf fuel hfuel
    obtain ⟨v, n, hrun, -⟩ := @bpfFilter_of_validate h maxbuf f p hf fuel hfuel
    refine ⟨v, n, n, hrun, ?_⟩
    have hstep : step h f p = step h f q := funext (step_congr hload hcopy.wirelen h f)
    rw [← hrun]
    simp only [bpfFilter, hstep]

/-- A processor that ignores shift counts it cannot handle. -/
def sampleShifter : Shifter := ⟨fun a _ => a, fun a _ => a⟩

theorem bpfFilter_chain_sample : ∃ v n n',
    bpfFilter sampleShifter 3 (some (loadProgram .W 2 .retA)) samplePacket = .returned v n ∧
      bpfFilter sampleShifter 3 (some (loadProgram .W 2 .retA)) samplePacket.copy =
        .returned v n' :=
  (bpfFilter_chain (show BPF_MINBUFSIZE ≤ 0x200000 by decide) sampleShifter
    (isCopy_copy rfl (by decide) (by decide))).mpr (by decide) _
    (bpfValidate_loadProgram (by decide) .W 2 (.inl rfl)) 3 (by decide)

/-- A word in three mbufs. -/
def splitWord : Packet where
  bytes := fun _ => 0
  m := ⟨1, fun _ => 1, by decide⟩
  m_next := [⟨1, fun _ => 2, by decide⟩, ⟨2, fun _ => 3, by decide⟩]
  wirelen := 4
  buflen := 0

/-- A halfword with an empty mbuf between its bytes. -/
def splitHalf : Packet where
  bytes := fun _ => 0
  m := ⟨1, fun _ => 1, by decide⟩
  m_next := [⟨0, fun _ => 0xff, by decide⟩, ⟨1, fun _ => 2, by decide⟩]
  wirelen := 2
  buflen := 0

/-- Load the first bytes and return them. -/
def firstBytes (sz : Size) : List Insn :=
  [⟨(Op.ldAbs sz).code, 0, 0, 0⟩, ⟨Op.retA.code, 0, 0, 0⟩]

/-- The word is not found, and the halfword is read with the byte behind the empty mbuf. -/
theorem bpfFilter_chain_split :
    (bpfValidate 0x200000 (firstBytes .W) = true ∧ IsCopy splitWord splitWord.copy ∧
      bpfFilter sampleShifter 2 (some (firstBytes .W)) splitWord = .returned 0 1 ∧
      bpfFilter sampleShifter 2 (some (firstBytes .W)) splitWord.copy = .returned 0x01020303 2) ∧
    bpfValidate 0x200000 (firstBytes .H) = true ∧ IsCopy splitHalf splitHalf.copy ∧
      bpfFilter sampleShifter 2 (some (firstBytes .H)) splitHalf = .returned 0x01ff 2 ∧
      bpfFilter sampleShifter 2 (some (firstBytes .H)) splitHalf.copy = .returned 0x0102 2 :=
  ⟨⟨by decide, isCopy_copy rfl (by decide) (by decide), by decide +kernel, by decide +kernel⟩,
    by decide, isCopy_copy rfl (by decide) (by decide), by decide +kernel, by decide +kernel⟩

end OpenbsdKernel.Bpf
