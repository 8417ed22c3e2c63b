import OpenbsdKernel.Kern.Mbuf.Copydata

/-!
# What writing into a chain leaves

The writing loop puts the buffer, up to where an allocation fails, into consecutive
locations of the chain, to which it may have added free cells behind the last mbuf and a
new mbuf. Seen as one list of locations this is a single write, also when two mbufs of
the chain show the same cells of an external buffer.
-/
namespace OpenbsdKernel.UipcMbuf

open Store

section Grow

variable {mem₀ mem : Mem} {n : Mbuf} {size : ℕ}

/-- A new mbuf as `m_get` returns it. -/
structure New (mem₀ mem : Mem) (n : Mbuf) : Prop where
  keeps : mem₀.Keeps mem
  fresh : mem₀.next ≤ n.addr
  ext : n.m_ext = none
  zeroize : n.zeroize = false
  data : n.m_data = 0

theorem new_plain (mem : Mem) (junk : ℕ) :
    New mem { mem.advance with next := mem.next + 1 } (mem.plain junk) :=
  ⟨keeps_next mem, le_rfl, rfl, rfl, rfl⟩

/-- Where there is a pool for the size, the mbuf gets a cluster or is freed. -/
theorem grow_spec (hn : New mem₀ mem n) (hsize : size ≤ MAXMCLBYTES) :
    ∃ r mem', grow mem n size = some (r, mem') ∧ mem₀.Keeps mem' ∧ mem'.store = mem.store ∧
      (r = none → ¬ mem.Plenty) ∧ (mem.Plenty → mem'.Plenty) ∧
      ∀ n', r = some n' → n'.m_data = 0 ∧ n'.m_pkthdr = n.m_pkthdr ∧ ¬ mem₀.Old n'.buf := by
  unfold grow
  by_cases hbig : MLEN < size
  · rw [if_pos hbig]
    obtain ⟨psize, hpool⟩ := Option.isSome_iff_exists.mp (m_clpool_isSome.mpr hsize)
    rcases m_clget_cases mem n hpool with ⟨hg, hcl⟩ | ⟨junk, hg, hcl⟩
    · simp only [hcl, hn.ext, if_true]
      refine ⟨none, m_put mem.advance n, by simp [m_free, hn.zeroize], ?_, by simp [Mem.advance],
        fun _ h => h 0 hg, fun h => absurd hg (h 0), by simp⟩
      have hk := hn.keeps.trans (keeps_advance mem)
      exact ⟨hk.next.trans (m_put_next _ _).ge, hk.nextcl.trans (m_put_nextcl _ _).ge,
        fun b i hb => by rw [m_put_store]; exact hk.store b i hb⟩
    · simp only [hcl, reduceCtorEq, if_false]
      refine ⟨_, _, rfl, hn.keeps.trans (keeps_nextcl mem _), rfl, by simp, fun h i => h (i + 1), ?_⟩
      rintro n' ⟨⟩
      exact ⟨rfl, rfl, not_lt.mpr hn.keeps.nextcl⟩
  · rw [if_neg hbig]
    refine ⟨some n, mem, rfl, hn.keeps, rfl, by simp, id, ?_⟩
    rintro n' ⟨⟩
    refine ⟨hn.data, rfl, ?_⟩
    simp only [Mbuf.buf, hn.ext]
    exact not_lt.mpr hn.fresh

theorem grow_none (mem : Mem) (n : Mbuf) (hsize : MAXMCLBYTES < size) : grow mem n size = none := by
  have hbig : MLEN < size := lt_trans (by decide) hsize
  have hpool : m_clpool size = none := by
    rw [← Option.not_isSome_iff_eq_none, m_clpool_isSome]
    omega
  simp [grow, hbig, m_clget, hpool]

end Grow

section Extend

variable {mem : Mem} {m : Mbuf} {post : List Mbuf} {off len : ℕ}

/-- How far the last mbuf is extended. -/
def extra (mem : Mem) (m : Mbuf) (off len : ℕ) : ℕ :=
  min (len - (m.m_len - off)) (m_trailingspace mem m)

theorem extend_last (mem : Mem) (m : Mbuf) (off len : ℕ) :
    extend mem m [] off len = { m with m_len := m.m_len + extra mem m off len } := by
  unfold extend extra
  split_ifs with h
  · rfl
  · have : len - (m.m_len - off) = 0 := by
      simp at h
      omega
    simp [this]

theorem extend_cons (mem : Mem) (m k : Mbuf) (post : List Mbuf) (off len : ℕ) :
    extend mem m (k :: post) off len = m := by
  simp [extend]

theorem extra_readonly (h : extra mem m off len ≠ 0) : mem.M_READONLY m = false := by
  by_contra hro
  simp [extra, m_trailingspace, hro] at h

end Extend

/-- A write into the chain `src` from `off` on: `k` bytes of `cp` are in place, the last mbuf has
`e` more cells, and the cells `fs` are those of a new mbuf. -/
structure Written (mem : Mem) (src : List Mbuf) (off : ℕ) (cp : List UInt8) (back : List Mbuf)
    (more : ℕ) (error : Bool) (mem' : Mem) (k e : ℕ) (fs : List (Buf × ℕ)) : Prop where
  le : k ≤ cp.length
  locs : ∀ m ∈ src.getLast?,
    chainLocs back = chainLocs src ++ region m.buf (m.m_data + m.m_len) e ++ fs
  store : mem'.store = mem.store.put (((chainLocs back).drop off).take k) (cp.take k)
  fits : off + k ≤ chainLen back
  grown : chainLen src < chainLen back → off + k = chainLen back
  done : error = false → k = cp.length
  stopped : error = true → off + k = chainLen back
  total : more = if cp = [] then 0 else off + k
  head : ∀ m ∈ src.head?, ∃ m' ∈ back.head?, m'.m_pkthdr = m.m_pkthdr
  trail : e ≠ 0 → ∀ m ∈ src.getLast?, mem.M_READONLY m = false
  fresh : fs = [] ∨ ∃ b n, ¬ mem.Old b ∧ fs = region b 0 n
  plenty : mem.Plenty → error = false

theorem Written.nil {mem : Mem} {src : List Mbuf} {off : ℕ} {cp : List UInt8} (hcp : cp = [])
    (hoff : off ≤ chainLen src) : Written mem src off cp src 0 false mem 0 0 [] := by
  refine ⟨by simp, by simp, by simp, by simpa using hoff, by simp, by simp [hcp], by simp,
    by simp [hcp], ?_, by simp, .inl rfl, fun _ => rfl⟩
  intro k hk
  exact ⟨k, hk, rfl⟩

/-- The free cells behind the last mbuf, if it is not shared. -/
def trailing (mem : Mem) (c : List Mbuf) : ℕ :=
  match c.getLast? with
  | some m => m_trailingspace mem m
  | none => 0

theorem trailing_cons_cons (mem : Mem) (m k : Mbuf) (c : List Mbuf) :
    trailing mem (m :: k :: c) = trailing mem (k :: c) := by
  simp only [trailing, List.getLast?_cons_cons]

section Write

variable {mem : Mem} {m : Mbuf} {off : ℕ} {cp : List UInt8}

theorem writeLoop_new (i : ℕ) (mem : Mem) {n : Mbuf} (hcp : cp ≠ []) (hlen : n.m_len = cp.length) :
    writeLoop (i + 1) mem n [] 0 cp =
      some ([n], cp.length, false, mem.copyin n.buf n.m_data cp) := by
  have hext : extend mem n [] 0 cp.length = n := by simp [extend, hlen]
  rw [writeLoop, if_neg hcp]
  simp [hext, hlen]

theorem copyin_eq_put (mem : Mem) (m : Mbuf) {off len : ℕ} (rest : List (Buf × ℕ))
    (vs : List UInt8) (hvs : vs.length = len) (hlen : off + len ≤ m.m_len) :
    (mem.copyin m.buf (m.m_data + off) vs).store =
      mem.store.put (((m.locs ++ rest).drop off).take len) vs := by
  have hslice : ((m.locs ++ rest).drop off).take len = region m.buf (m.m_data + off) vs.length := by
    rw [List.drop_append_of_le_length (by simp; omega), Mbuf.locs, drop_region,
      List.take_append_of_le_length (by simp; omega), take_region, min_eq_left (by omega), hvs]
  rw [hslice]
  exact write_eq_put _ _ _ _

theorem locs_grow (m : Mbuf) (e : ℕ) :
    ({ m with m_len := m.m_len + e } : Mbuf).locs =
      m.locs ++ region m.buf (m.m_data + m.m_len) e :=
  region_add _ _ _ _

theorem put_through (mem : Mem) (m : Mbuf) {off k : ℕ} (hoff : off ≤ m.m_len)
    (rest : List (Buf × ℕ)) (hk : m.m_len - off ≤ cp.length) :
    mem.store.put (((m.locs ++ rest).drop off).take (m.m_len - off + k))
        (cp.take (m.m_len - off + k)) =
      (mem.copyin m.buf (m.m_data + off) (cp.take (m.m_len - off))).store.put (rest.take k)
        ((cp.drop (m.m_len - off)).take k) := by
  have hlocs : (m.locs ++ rest).drop off =
      region m.buf (m.m_data + off) (m.m_len - off) ++ rest := by
    rw [List.drop_append_of_le_length (by simpa using hoff), Mbuf.locs, drop_region]
  have hsize : (cp.take (m.m_len - off)).length = m.m_len - off := by simpa using hk
  have hslice : ((m.locs ++ rest).drop off).take (m.m_len - off + k) =
      region m.buf (m.m_data + off) (m.m_len - off) ++ rest.take k := by
    rw [hlocs, List.take_append, length_region, Nat.add_sub_cancel_left,
      List.take_of_length_le (by simp)]
  rw [hslice, List.take_add, put_append _ (by simpa using hsize.symm)]
  congr 1
  rw [Mem.copyin, write_eq_put, hsize]

/-- The last mbuf with `e` more cells. -/
structure Extended (mem : Mem) (m m₁ : Mbuf) (e : ℕ) : Prop where
  locs : m₁.locs = m.locs ++ region m.buf (m.m_data + m.m_len) e
  len : m₁.m_len = m.m_len + e
  hdr : m₁.m_pkthdr = m.m_pkthdr
  trail : e ≠ 0 → mem.M_READONLY m = false

theorem extended_extra (mem : Mem) (m : Mbuf) (off len : ℕ) :
    Extended mem m { m with m_len := m.m_len + extra mem m off len } (extra mem m off len) :=
  ⟨locs_grow m _, rfl, rfl, extra_readonly⟩

section Last

variable {mem' : Mem} {m₁ : Mbuf} {e more : ℕ}

theorem Extended.chainLocs (h : Extended mem m m₁ e) (rest : List Mbuf) : ∀ k ∈ [m].getLast?,
    UipcMbuf.chainLocs (m₁ :: rest) =
      UipcMbuf.chainLocs [m] ++ region k.buf (k.m_data + k.m_len) e ++ UipcMbuf.chainLocs rest := by
  intro k hk
  obtain rfl : m = k := Option.some.inj hk
  simp [h.locs]

theorem Extended.head (h : Extended mem m m₁ e) (rest : List Mbuf) : ∀ k ∈ [m].head?,
    ∃ m' ∈ (m₁ :: rest).head?, m'.m_pkthdr = k.m_pkthdr := by
  intro k hk
  obtain rfl : m = k := Option.some.inj hk
  exact ⟨m₁, rfl, h.hdr⟩

theorem Extended.readonly (h : Extended mem m m₁ e) (he : e ≠ 0) :
    ∀ k ∈ [m].getLast?, mem.M_READONLY k = false := by
  intro k hk
  obtain rfl : m = k := Option.some.inj hk
  exact h.trail he

theorem Extended.written_all (h : Extended mem m m₁ e) (hcp : cp ≠ []) (hdone : off + cp.length ≤ m₁.m_len)
    (hgrown : e ≠ 0 → off + cp.length = m₁.m_len) (hmore : more = off + cp.length) :
    Written mem [m] off cp [m₁] more false (mem.copyin m₁.buf (m₁.m_data + off) cp) cp.length e [] := by
  refine ⟨le_rfl, h.chainLocs [], ?_, by simpa using hdone, ?_, fun _ => rfl, by simp,
    by rw [if_neg hcp, hmore], h.head [], h.readonly, .inl rfl, fun _ => rfl⟩
  · rw [chainLocs_cons, List.take_length]
    exact copyin_eq_put mem m₁ (UipcMbuf.chainLocs []) cp rfl hdone
  · intro hlt
    have hlen := h.len
    simp only [chainLen_cons, chainLen_nil] at hlt ⊢
    rw [hgrown (by omega), Nat.add_zero]

/-- The mbuf is filled to the end of its storage, and no mbuf or no cluster can be had. -/
theorem Extended.written_none (h : Extended mem m m₁ e) (hcp : cp ≠ []) (hoff : off ≤ m₁.m_len)
    (hmid : m₁.m_len - off ≤ cp.length) (hmore : more = m₁.m_len)
    (hstore : mem'.store = (mem.copyin m₁.buf (m₁.m_data + off) (cp.take (m₁.m_len - off))).store)
    (hno : ¬mem.Plenty) : Written mem [m] off cp [m₁] more true mem' (m₁.m_len - off) e [] := by
  have hend : off + (m₁.m_len - off) = UipcMbuf.chainLen [m₁] := by
    rw [chainLen_cons, chainLen_nil]
    omega
  refine ⟨hmid, h.chainLocs [], ?_, hend.le, fun _ => hend, by simp, fun _ => hend, ?_, h.head [],
    h.readonly, .inl rfl, fun h => absurd h hno⟩
  · rw [hstore, chainLocs_cons]
    exact copyin_eq_put mem m₁ (UipcMbuf.chainLocs []) _ (by simpa using hmid) (by omega)
  · rw [if_neg hcp]
    omega

theorem Extended.written_new {n : Mbuf} (h : Extended mem m m₁ e) (hcp : cp ≠ []) (hoff : off ≤ m₁.m_len)
    (hmid : m₁.m_len - off ≤ cp.length) (hmore : more = off + cp.length)
    (hstore : mem'.store = (mem.copyin m₁.buf (m₁.m_data + off) (cp.take (m₁.m_len - off))).store)
    (hdata : n.m_data = 0) (hlen : n.m_len = (cp.drop (m₁.m_len - off)).length) (hfresh : ¬mem.Old n.buf) :
    Written mem [m] off cp [m₁, n] more false (mem'.copyin n.buf n.m_data (cp.drop (m₁.m_len - off)))
      cp.length e n.locs := by
  have hsum : cp.length = m₁.m_len - off + n.m_len := by
    rw [hlen, List.length_drop]
    omega
  have hend : off + cp.length = UipcMbuf.chainLen [m₁, n] := by
    rw [chainLen_cons, chainLen_cons, chainLen_nil]
    omega
  refine ⟨le_rfl, ?_, ?_, hend.le, fun _ => hend, fun _ => rfl, by simp, by rw [if_neg hcp, hmore],
    h.head [n], h.readonly, .inr ⟨n.buf, n.m_len, hfresh, ?_⟩, fun _ => rfl⟩
  · simpa using h.chainLocs [n]
  · have hput := put_through mem m₁ (k := n.m_len) hoff (UipcMbuf.chainLocs [n]) hmid
    rw [← hsum] at hput
    rw [chainLocs_cons, hput]
    have hrest : (UipcMbuf.chainLocs [n]).take n.m_len = region n.buf n.m_data n.m_len := by
      simp [Mbuf.locs]
    rw [hrest, hlen, List.take_length, ← write_eq_put]
    exact congrArg (fun s => Store.write s n.buf n.m_data _) hstore
  · exact congrArg (fun a => region n.buf a n.m_len) hdata

end Last

theorem writeLoop_last (i : ℕ) (mem : Mem) (m : Mbuf) (off : ℕ) (cp : List UInt8)
    (hoff : off ≤ m.m_len)
    (hsize : off + cp.length - m.m_len - m_trailingspace mem m ≤ MAXMCLBYTES) :
    ∃ back more error mem' k e fs,
      writeLoop (i + 2) mem m [] off cp = some (back, more, error, mem') ∧
      Written mem [m] off cp back more error mem' k e fs := by
  rw [writeLoop]
  by_cases hcp : cp = []
  · rw [if_pos hcp]
    exact ⟨_, _, _, _, 0, 0, [], rfl, .nil hcp (by simpa using hoff)⟩
  rw [if_neg hcp, extend_last]
  have he : extra mem m off cp.length =
      min (cp.length - (m.m_len - off)) (m_trailingspace mem m) := rfl
  have hext := extended_extra mem m off cp.length
  have hlen := hext.len
  generalize extra mem m off cp.length = e at he hext hlen ⊢
  generalize ({ m with m_len := m.m_len + e } : Mbuf) = m₁ at hext hlen ⊢
  by_cases hdone : off + cp.length ≤ m₁.m_len
  · have hmin : min (m₁.m_len - off) cp.length = cp.length := by omega
    have hdrop : cp.drop cp.length = [] := List.drop_length
    simp only [hmin, hdrop, if_true, List.take_length]
    exact ⟨[m₁], _, false, _, cp.length, e, [], rfl,
      hext.written_all hcp hdone (fun _ => by omega) (Nat.add_comm ..)⟩
  · have hmin : min (m₁.m_len - off) cp.length = m₁.m_len - off := by omega
    have hdrop : cp.drop (m₁.m_len - off) ≠ [] := by
      rw [Ne, List.drop_eq_nil_iff]
      omega
    have hmid : m₁.m_len - off ≤ cp.length := by omega
    have hoff₁ : off ≤ m₁.m_len := by omega
    have hfull : m₁.m_len - off + off = m₁.m_len := by omega
    simp only [hmin, if_neg hdrop]
    generalize hmem₁ : mem.copyin m₁.buf (m₁.m_data + off) (cp.take (m₁.m_len - off)) = mem₁
    rcases m_get_cases mem₁ with ⟨hg, hget⟩ | ⟨junk, hg, hget⟩
    · simp only [hget]
      exact ⟨_, _, _, _, _, _, _, rfl, hext.written_none hcp hoff₁ hmid hfull (by rw [hmem₁]; rfl)
        fun h => h 0 (by rwa [← hmem₁] at hg)⟩
    simp only [hget]
    obtain ⟨r, mem₂, hgrow, hk, hstore, hno, -, hr⟩ := grow_spec (new_plain mem₁ junk)
      (show (cp.drop (m₁.m_len - off)).length ≤ MAXMCLBYTES by simp; omega)
    have hstore' : mem₂.store = (mem.copyin m₁.buf (m₁.m_data + off) (cp.take (m₁.m_len - off))).store := by
      rw [hstore, hmem₁]
      rfl
    simp only [hgrow]
    cases r with
    | none =>
      refine ⟨_, _, _, _, _, _, _, rfl, hext.written_none hcp hoff₁ hmid hfull hstore' fun h => ?_⟩
      refine hno rfl fun i => ?_
      rw [← hmem₁]
      exact h (i + 1)
    | some n =>
      obtain ⟨hdata, hhdr, hfresh⟩ := hr n rfl
      let n₁ : Mbuf := { n with m_len := (cp.drop (m₁.m_len - off)).length }
      have hnew := writeLoop_new i mem₂ (n := n₁) hdrop rfl
      simp only [n₁] at hnew
      simp only [hnew]
      refine ⟨[m₁, n₁], _, false, _, cp.length, e, n₁.locs, rfl,
        hext.written_new hcp hoff₁ hmid ?_ hstore' hdata rfl ?_⟩
      · dsimp only
        rw [List.length_drop]
        omega
      · rw [← hmem₁] at hfresh
        exact hfresh

/-- One mbuf is filled to its end, the rest goes to the mbufs behind it. -/
theorem Written.cons {k : Mbuf} {post back : List Mbuf} {more kk e : ℕ} {error : Bool}
    {mem' : Mem} {fs : List (Buf × ℕ)} (hcp : cp ≠ []) (hoff : off ≤ m.m_len)
    (hmid : m.m_len - off ≤ cp.length)
    (h : Written (mem.copyin m.buf (m.m_data + off) (cp.take (m.m_len - off))) (k :: post) 0
      (cp.drop (m.m_len - off)) back more error mem' kk e fs)
    (hne : cp.drop (m.m_len - off) ≠ []) :
    Written mem (m :: k :: post) off cp (m :: back) (more + (m.m_len - off + off)) error mem'
      (m.m_len - off + kk) e fs := by
  have hle := h.le
  have hfits := h.fits
  rw [List.length_drop] at hle
  refine ⟨by omega, ?_, ?_, ?_, ?_, ?_, ?_, ?_, ?_, ?_, h.fresh, h.plenty⟩
  · intro j hj
    rw [List.getLast?_cons_cons] at hj
    rw [chainLocs_cons m back, h.locs j hj, chainLocs_cons m (k :: post)]
    simp only [List.append_assoc]
  · rw [h.store, chainLocs_cons, List.drop_zero, put_through mem m hoff _ hmid]
  · rw [chainLen_cons]
    omega
  · intro hgrown
    have := h.grown (by simp only [chainLen_cons] at hgrown ⊢; omega)
    rw [chainLen_cons]
    omega
  · intro herr
    have := h.done herr
    rw [List.length_drop] at this
    omega
  · intro herr
    have := h.stopped herr
    rw [chainLen_cons]
    omega
  · have := h.total
    rw [if_neg hne] at this
    rw [if_neg hcp]
    omega
  · intro j hj
    obtain rfl : m = j := Option.some.inj hj
    exact ⟨m, rfl, rfl⟩
  · intro he j hj
    rw [List.getLast?_cons_cons] at hj
    exact h.trail he j hj

theorem writeLoop_spec (post : List Mbuf) (i : ℕ) (mem : Mem) (m : Mbuf) (off : ℕ)
    (cp : List UInt8) (hi : post.length + 2 ≤ i) (hoff : off ≤ m.m_len)
    (hsize : off + cp.length - chainLen (m :: post) - trailing mem (m :: post) ≤ MAXMCLBYTES) :
    ∃ back more error mem' k e fs,
      writeLoop i mem m post off cp = some (back, more, error, mem') ∧
      Written mem (m :: post) off cp back more error mem' k e fs := by
  induction post generalizing i mem m off cp with
  | nil =>
    obtain ⟨i, rfl⟩ : ∃ j, i = j + 2 := ⟨i - 2, by simp at hi; omega⟩
    exact writeLoop_last i mem m off cp hoff (by simpa [trailing] using hsize)
  | cons k post ih =>
    obtain ⟨i, rfl⟩ : ∃ j, i = j + 1 := ⟨i - 1, by simp at hi; omega⟩
    rw [writeLoop]
    by_cases hcp : cp = []
    · rw [if_pos hcp]
      exact ⟨_, _, _, _, 0, 0, [], rfl, .nil hcp (by simp; omega)⟩
    rw [if_neg hcp, extend_cons]
    by_cases hdone : off + cp.length ≤ m.m_len
    · have hmin : min (m.m_len - off) cp.length = cp.length := by omega
      have hdrop : cp.drop cp.length = [] := List.drop_length
      simp only [hmin, hdrop, if_true, List.take_length]
      refine ⟨_, _, _, _, cp.length, 0, [], rfl, le_rfl, by simp, ?_, ?_, by simp, fun _ => rfl,
        by simp, ?_, ?_, by simp, .inl rfl, fun _ => rfl⟩
      · rw [chainLocs_cons, List.take_length]
        exact copyin_eq_put mem m (chainLocs (k :: post)) cp rfl hdone
      · simp
        omega
      · rw [if_neg hcp, Nat.add_comm]
      · intro j hj
        exact ⟨j, hj, rfl⟩
    · have hmin : min (m.m_len - off) cp.length = m.m_len - off := by omega
      have hdrop : cp.drop (m.m_len - off) ≠ [] := by
        rw [Ne, List.drop_eq_nil_iff]
        omega
      have hmid : m.m_len - off ≤ cp.length := by omega
      simp only [hmin, if_neg hdrop]
      obtain ⟨back, more, error, mem', kk, e, fs, hloop, hw⟩ := ih i
        (mem.copyin m.buf (m.m_data + off) (cp.take (m.m_len - off))) k 0
        (cp.drop (m.m_len - off)) (by simp at hi; omega) (Nat.zero_le _) (by
          rw [trailing_cons_cons, chainLen_cons m] at hsize
          rw [List.length_drop]
          refine le_trans (Nat.sub_le_sub_right ?_ _) hsize
          omega)
      rw [hloop]
      exact ⟨_, _, _, _, _, _, _, rfl, .cons hcp hoff hmid hw hdrop⟩

end Write

end OpenbsdKernel.UipcMbuf
