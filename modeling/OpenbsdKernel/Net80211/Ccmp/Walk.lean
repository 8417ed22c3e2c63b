import OpenbsdKernel.Kern.Mbuf.Fresh
import OpenbsdKernel.Net80211.Ccmp.Stream

/-!
# The walk through both chains

Whatever the sizes of the mbufs of both chains, the new chain holds the octets passed in the old one,
xored with the key stream. An iteration that copies nothing leaves an mbuf of the old chain behind.
-/
namespace OpenbsdKernel.Ieee80211

open Store UipcMbuf Ccm

/-- What a walk starts from: the memory and the chain, the octets `xs` of the chain of which the first
`total` are to be copied, and the first mbuf of the new chain with the octets written to it. -/
structure Task where
  mem : Mem
  c : List Mbuf
  E : Block → Block
  dir : Dir
  X : Block
  nc : List UInt8
  xs : List UInt8
  total : ℕ
  hdr : List UInt8
  n0 : Mbuf

structure Task.Good (t : Task) : Prop where
  old : ∀ m ∈ t.c, m.Old t.mem
  total : t.total ≤ t.xs.length
  nc : t.nc.length = 13

/-- The first `k` octets as they are in the new chain. -/
def Task.output (t : Task) (k : ℕ) : List UInt8 := xorStream (keyOctet t.E 2 t.nc) 0 (t.xs.take k)

/-- Their clear text. -/
def Task.clear (t : Task) (k : ℕ) : List UInt8 := t.dir.clearText (t.xs.take k) (t.output k)

/-- After `k` octets. -/
structure Inv (t : Task) (k : ℕ) (w : Walk) : Prop where
  grown : Grown t.mem w.mem
  own : Own t.mem w.mem w.chain
  storage : ∀ n ∈ w.chain, n.InStorage
  left : k + w.left = t.total
  sub : ∀ m ∈ w.src, m ∈ t.c
  ne : w.src ≠ []
  moff : ∀ m ∈ w.src.head?, w.moff ≤ m.m_len
  rest : (t.mem.bytes w.src).drop w.moff = t.xs.drop k
  noff : w.noff ≤ w.n.m_len
  cap : w.n.m_len - w.noff ≤ w.left
  bytes : w.mem.bytes w.out ++ w.mem.store.read (region w.n.buf w.n.m_data w.noff) = t.hdr ++ t.output k
  st : w.st = cipherAt t.E t.X t.nc (t.clear k)
  head : w.chain.head? = some t.n0

/-- An allocation was refused, and the new chain can be freed. -/
structure Failed (t : Task) (w : Walk) : Prop where
  refused : ¬t.mem.Plenty
  grown : Grown t.mem w.mem
  own : Own t.mem w.mem w.chain

section Output

variable {t : Task} {k : ℕ}

theorem length_output (h : k ≤ t.xs.length) : (t.output k).length = k := by
  rw [Task.output, length_xorStream, List.length_take, min_eq_left h]

theorem length_clear (h : k ≤ t.xs.length) : (t.clear k).length = k := by
  rw [Task.clear]
  cases t.dir with
  | encrypt => exact List.length_take_of_le h
  | decrypt => exact length_output h

theorem output_add (h : k ≤ t.xs.length) (l : ℕ) :
    t.output (k + l) = t.output k ++ xorStream (keyOctet t.E 2 t.nc) k ((t.xs.drop k).take l) := by
  rw [Task.output, List.take_add, xorStream_append, List.length_take, min_eq_left h, Nat.zero_add, Task.output]

theorem clear_add (h : k ≤ t.xs.length) (l : ℕ) :
    t.clear (k + l) = t.clear k ++ t.dir.clearText ((t.xs.drop k).take l)
      (xorStream (keyOctet t.E 2 t.nc) k ((t.xs.drop k).take l)) := by
  rw [Task.clear, output_add h, Task.clear]
  cases t.dir with
  | encrypt => exact List.take_add
  | decrypt => rfl

end Output

theorem read_copyin_behind (mem : Mem) (b : Buf) (a k : ℕ) (vs : List UInt8) :
    (mem.copyin b (a + k) vs).store.read (region b a (k + vs.length)) = mem.store.read (region b a k) ++ vs := by
  rw [region_add, read_append, read_copyin_self _ _ _ _ _ rfl]
  congr 1
  refine read_write_of_disjoint _ _ _ _ fun l hl hmem => ?_
  have hlt := (mem_region.1 hl).2.2
  have hge := (mem_region.1 hmem).2.1
  omega

section Room

variable {mem₀ mem : Mem} {n : Mbuf}

theorem cluster_spec (hg : Grown mem₀ mem) (hnew : Made mem₀ mem n) (hext : n.m_ext = none) (hin : n.InStorage) :
    ∃ n' mem', cluster mem n = some (n', mem') ∧ Grown mem mem' ∧ Made mem₀ mem' n' ∧ n'.InStorage ∧
      n.m_len ≤ n'.m_len ∧ n'.m_pkthdr = n.m_pkthdr := by
  obtain ⟨-, hclget⟩ | ⟨junk, -, hclget⟩ := m_clget_cases mem n m_clpool_MCLBYTES
  · refine ⟨n, mem.advance, ?_, grown_advance mem, hnew.grown (grown_advance mem), hin, le_rfl, rfl⟩
    rw [cluster, hclget]
    dsimp only
    rw [hext]
  · refine ⟨{ n with m_data := 0, m_len := MCLBYTES, m_ext := some ⟨mem.nextcl, MCLBYTES, true⟩ }, _,
      by rw [cluster, hclget], grown_nextcl mem, ⟨?_, hnew.addr, ?_⟩, ⟨le_rfl, ?_⟩, ?_, rfl⟩
    · refine ⟨hnew.old.1, ?_⟩
      rintro e ⟨⟩
      exact Nat.lt_succ_self _
    · rintro e ⟨⟩
      exact ⟨hg.keeps.nextcl, rfl, Function.update_self _ _ _⟩
    · change 0 + MCLBYTES ≤ MCLBYTES
      omega
    · have hle := hin.2
      have hlimit : n.limit = MLEN := by rw [Mbuf.limit, hext]
      rw [hlimit] at hle
      change n.m_len ≤ MCLBYTES
      have : MLEN ≤ MCLBYTES := by decide
      omega

/-- An mbuf is made large enough for some of the octets, and not larger than all of them. -/
theorem makeRoom_spec (hg : Grown mem₀ mem) (hnew : Made mem₀ mem n) (hext : n.m_ext = none) (hin : n.InStorage)
    (thr want : ℕ) :
    ∃ n' mem', makeRoom thr mem n want = some (n', mem') ∧ Grown mem mem' ∧ Made mem₀ mem' n' ∧ n'.InStorage ∧
      n'.m_len ≤ want ∧ min n.m_len want ≤ n'.m_len ∧ n'.m_pkthdr = n.m_pkthdr := by
  obtain ⟨n', mem', hroom, hg', hnew', hin', hle, hhdr⟩ : ∃ n' mem',
      (if thr ≤ want then cluster mem n else some (n, mem)) = some (n', mem') ∧ Grown mem mem' ∧
        Made mem₀ mem' n' ∧ n'.InStorage ∧ n.m_len ≤ n'.m_len ∧ n'.m_pkthdr = n.m_pkthdr := by
    by_cases hthr : thr ≤ want
    · rw [if_pos hthr]
      exact cluster_spec hg hnew hext hin
    · rw [if_neg hthr]
      exact ⟨n, mem, rfl, .refl mem, hnew, hin, le_rfl, rfl⟩
  rw [makeRoom, hroom]
  refine ⟨_, mem', rfl, hg', ?_⟩
  by_cases hwant : want < n'.m_len
  · rw [if_pos hwant]
    refine ⟨hnew'.congr rfl rfl, ⟨hin'.1, ?_⟩, le_rfl, min_le_right _ _, hhdr⟩
    exact (Nat.add_le_add_left hwant.le _).trans hin'.2
  · rw [if_neg hwant]
    exact ⟨hnew', hin', not_lt.1 hwant, (min_le_left _ _).trans hle, hhdr⟩

end Room

section Round

variable {t : Task} {k : ℕ} {w : Walk}

theorem Inv.seek (h : Inv t k w) (hgood : t.Good) (hleft : w.left ≠ 0) :
    ∃ m c, w.seek.src = m :: c ∧ Inv t k w.seek ∧ w.seek.left = w.left ∧
      (w.seek.src.length < w.src.length ∨ w.seek.src = w.src ∧ w.seek.moff < m.m_len) := by
  obtain ⟨m, c, hsrc⟩ := List.exists_cons_of_ne_nil h.ne
  have hmoff := h.moff m (by rw [hsrc]; rfl)
  have hrest := h.rest
  rw [hsrc] at hrest
  by_cases hend : w.moff = m.m_len
  · have hseek : w.seek = { w with src := c, moff := 0 } := by
      rw [Walk.seek, hsrc]
      exact if_pos hend
    rw [hend, Mem.bytes_cons, List.drop_left' (by simp)] at hrest
    have hlen := congrArg List.length hrest
    rw [Mem.length_bytes, List.length_drop] at hlen
    obtain ⟨m', c', rfl⟩ : ∃ m' c', c = m' :: c' := by
      refine List.exists_cons_of_ne_nil ?_
      rintro rfl
      have := h.left
      have := hgood.total
      rw [chainLen_nil] at hlen
      omega
    rw [hseek]
    refine ⟨m', c', rfl, ?_, rfl, .inl (by rw [hsrc]; exact Nat.lt_succ_self _)⟩
    exact {
      grown := h.grown
      own := h.own
      storage := h.storage
      left := h.left
      sub := fun n hn => h.sub n (by rw [hsrc]; exact List.mem_cons_of_mem _ hn)
      ne := by simp
      moff := by simp
      rest := hrest
      noff := h.noff
      cap := h.cap
      bytes := h.bytes
      st := h.st
      head := h.head }
  · have hseek : w.seek = w := by
      rw [Walk.seek, hsrc]
      exact if_neg hend
    rw [hseek]
    exact ⟨m, c, hsrc, h, rfl, .inr ⟨rfl, by omega⟩⟩

theorem Inv.room (h : Inv t k w) (hleft : w.left ≠ 0) (thr : ℕ) :
    (∃ w', w.room thr = some (.error w') ∧ Failed t w') ∨
      ∃ w', w.room thr = some (.ok w') ∧ Inv t k w' ∧ w'.src = w.src ∧ w'.moff = w.moff ∧ w'.left = w.left ∧
        w'.noff < w'.n.m_len := by
  rw [Walk.room]
  by_cases hfull : w.noff = w.n.m_len
  swap
  · rw [if_neg hfull]
    have := h.noff
    exact .inr ⟨w, rfl, h, rfl, rfl, rfl, by omega⟩
  rw [if_pos hfull]
  obtain ⟨hno, hget⟩ | ⟨junk, -, hget⟩ := m_get_cases w.mem
  · refine .inl ⟨{ w with mem := w.mem.advance }, by rw [hget], ?_, ?_, ?_⟩
    · exact fun hplenty => h.grown.plenty hplenty 0 hno
    · exact h.grown.trans (grown_advance _)
    · exact h.own.grown (grown_advance _)
  let mem₁ : Mem := { w.mem.advance with next := w.mem.next + 1 }
  have hnew : Made w.mem mem₁ { w.mem.plain junk with m_len := MLEN } :=
    ⟨⟨Nat.lt_succ_self _, fun e he => by cases he⟩, le_rfl, fun e he => by cases he⟩
  have hin : ({ w.mem.plain junk with m_len := MLEN } : Mbuf).InStorage := ⟨le_rfl, le_of_eq (Nat.zero_add _)⟩
  obtain ⟨n, mem', hroom, hg, hn, hnin, hle, hge, -⟩ :=
    makeRoom_spec (grown_next w.mem) hnew rfl hin thr w.left
  have hgrown : Grown w.mem mem' := (grown_next w.mem).trans hg
  refine .inr ⟨{ w with mem := mem', out := w.out ++ [w.n], n := n, noff := 0 }, ?_, ?_, rfl, rfl, rfl, ?_⟩
  · rw [hget]
    dsimp only
    rw [hroom]
  · exact {
      grown := h.grown.trans hgrown
      own := h.own.concat h.grown hgrown hn
      storage := by
        intro n' hn'
        rcases List.mem_append.1 hn' with hn' | hn'
        · exact h.storage n' hn'
        · rw [List.mem_singleton.1 hn']
          exact hnin
      left := h.left
      sub := h.sub
      ne := h.ne
      moff := h.moff
      rest := h.rest
      noff := Nat.zero_le _
      cap := hle
      bytes := by
        have hbytes := h.bytes
        rw [hfull] at hbytes
        change mem'.bytes (w.out ++ [w.n]) ++ [] = _
        rw [List.append_nil, show w.out ++ [w.n] = w.chain from rfl,
          hgrown.keeps.bytes fun m hm => (h.own.new m hm).old, Walk.chain, Mem.bytes_append, ← hbytes]
        simp [Mem.bytes, Mbuf.locs]
      st := h.st
      head := by
        change (w.out ++ [w.n] ++ [n]).head? = _
        rw [List.head?_append, show (w.out ++ [w.n]).head? = some t.n0 from h.head]
        rfl }
  · have : 0 < MLEN := by decide
    change min MLEN w.left ≤ n.m_len at hge
    change 0 < n.m_len
    omega

theorem Inv.copy (h : Inv t k w) (hgood : t.Good) {m : Mbuf} {c : List Mbuf} (hsrc : w.src = m :: c) :
    ∃ l, l = min (m.m_len - w.moff) (w.n.m_len - w.noff) ∧ Inv t (k + l) (w.copy t.E t.dir m) := by
  refine ⟨_, rfl, ?_⟩
  set l := min (m.m_len - w.moff) (w.n.m_len - w.noff) with hl
  have hleft := h.left
  have hcap := h.cap
  have htotal := hgood.total
  have hmoff := h.moff m (by rw [hsrc]; rfl)
  have hnoff := h.noff
  have hm : m.Old t.mem := hgood.old m (h.sub m (by rw [hsrc]; exact List.mem_cons_self))
  have hn : w.n ∈ w.chain := by simp [Walk.chain]
  have hne : m.buf ≠ w.n.buf := fun he => h.own.notOld hn (he ▸ hm.buf)
  have hread : w.mem.store.read (region m.buf (m.m_data + w.moff) l) = (t.xs.drop k).take l := by
    have hrest := h.rest
    rw [hsrc, Mem.bytes_cons, List.drop_append_of_le_length (by simpa using hmoff)] at hrest
    rw [read_part _ _ (show l ≤ m.m_len - w.moff from min_le_left _ _), h.grown.keeps.read hm.locs, ← hrest,
      List.take_append_of_le_length (by simp; omega)]
  have hloop := octetLoop_spec t.E t.X hgood.nc t.dir hne l (m.m_data + w.moff) (w.n.m_data + w.noff) w.mem (t.clear k)
  rw [hread, length_clear (by omega)] at hloop
  rw [Walk.copy, ← hl, h.st, hloop]
  exact {
    grown := h.grown.copyin (h.own.notOld hn) _ _
    own := h.own.copyin _ _ _
    storage := h.storage
    left := by dsimp only; omega
    sub := h.sub
    ne := h.ne
    moff := by
      intro m' hm'
      rw [hsrc] at hm'
      obtain rfl : m = m' := Option.some.inj hm'
      dsimp only
      omega
    rest := by
      dsimp only
      rw [← List.drop_drop, h.rest, List.drop_drop]
    noff := by dsimp only; omega
    cap := by dsimp only; omega
    bytes := by
      have hlen : (xorStream (keyOctet t.E 2 t.nc) k ((t.xs.drop k).take l)).length = l := by
        rw [length_xorStream, List.length_take, List.length_drop]
        omega
      have hbehind := read_copyin_behind w.mem w.n.buf w.n.m_data w.noff
        (xorStream (keyOctet t.E 2 t.nc) k ((t.xs.drop k).take l))
      rw [hlen] at hbehind
      dsimp only
      rw [h.own.bytes_copyin, hbehind, ← List.append_assoc, h.bytes, List.append_assoc, ← output_add (by omega)]
    st := by rw [clear_add (by omega)]
    head := h.head }

theorem Inv.round (h : Inv t k w) (hgood : t.Good) (hleft : w.left ≠ 0) (thr : ℕ) :
    (∃ w', w.round t.E t.dir thr = some (.error w') ∧ Failed t w') ∨
      ∃ k' w', w.round t.E t.dir thr = some (.ok w') ∧ Inv t k' w' ∧
        w'.left + w'.src.length < w.left + w.src.length := by
  obtain ⟨m, c, hsrc, hseek, hsame, hless⟩ := h.seek hgood hleft
  rw [Walk.round, hsrc]
  dsimp only
  obtain ⟨w', hroom, hfailed⟩ | ⟨w', hroom, hinv, hsrc', hmoff', hleft', hnoff'⟩ := hseek.room (hsame ▸ hleft) thr
  · exact .inl ⟨w', by rw [hroom], hfailed⟩
  obtain ⟨l, hl, hcopy⟩ := hinv.copy hgood (hsrc'.trans hsrc)
  refine .inr ⟨k + l, w'.copy t.E t.dir m, by rw [hroom], hcopy, ?_⟩
  have hafter : (w'.copy t.E t.dir m).left = w'.left - l := by rw [Walk.copy, hl]
  have hstay : (w'.copy t.E t.dir m).src = w'.src := rfl
  rw [hafter, hstay, hsrc', hleft', hsame]
  rcases hless with hless | ⟨heq, hmoff⟩
  · omega
  · rw [heq]
    rw [hmoff'] at hl
    omega

/-- With enough fuel the loop ends, where an allocation is refused or all octets are copied. -/
theorem Inv.run_of_lt (h : Inv t k w) (hgood : t.Good) (thr : ℕ) {fuel : ℕ} (hfuel : w.left + w.src.length < fuel) :
    (∃ w', w.run t.E t.dir thr fuel = some (.error w') ∧ Failed t w') ∨
      ∃ w', w.run t.E t.dir thr fuel = some (.ok w') ∧ Inv t t.total w' ∧ w'.left = 0 := by
  induction fuel generalizing w k with
  | zero => omega
  | succ fuel ih =>
    rw [Walk.run]
    by_cases hleft : w.left = 0
    · have hk := h.left
      rw [hleft, Nat.add_zero] at hk
      rw [if_pos hleft]
      exact .inr ⟨w, rfl, hk ▸ h, hleft⟩
    · rw [if_neg hleft]
      obtain ⟨w', hround, hfailed⟩ | ⟨k', w', hround, hinv, hless⟩ := h.round hgood hleft thr
      · exact .inl ⟨w', by rw [hround], hfailed⟩
      · rw [hround]
        exact ih hinv (by omega)

theorem Inv.run (h : Inv t k w) (hgood : t.Good) (thr : ℕ) :
    (∃ w', w.run t.E t.dir thr w.fuel = some (.error w') ∧ Failed t w') ∨
      ∃ w', w.run t.E t.dir thr w.fuel = some (.ok w') ∧ Inv t t.total w' ∧ w'.left = 0 :=
  h.run_of_lt hgood thr (Nat.lt_succ_self _)

theorem Inv.bytes_chain (h : Inv t t.total w) (hleft : w.left = 0) :
    w.mem.bytes w.chain = t.hdr ++ t.output t.total ∧ w.noff = w.n.m_len := by
  have hcap := h.cap
  have hend : w.noff = w.n.m_len := by
    have := h.noff
    omega
  refine ⟨?_, hend⟩
  rw [← h.bytes, hend, Walk.chain, Mem.bytes_append]
  simp [Mem.bytes, Mbuf.locs]

end Round

end OpenbsdKernel.Ieee80211
