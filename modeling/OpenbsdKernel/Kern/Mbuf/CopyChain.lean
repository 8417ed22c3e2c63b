import OpenbsdKernel.Kern.Mbuf.Copy

/-!
# What a copied chain holds

Every iteration of the loop of `m_copym0` takes a nonempty part of the wanted bytes or
goes on to the next mbuf, so that the loop ends; the new mbufs hold the wanted bytes in
order. When an allocation fails, the new mbufs are freed again, which must not wipe
storage that they share with the source.
-/
namespace OpenbsdKernel.UipcMbuf

open Store

/-- The loop stands within the chain and what it has to copy is there. -/
structure Copying (src : List Mbuf) (off len : ℕ) : Prop where
  off_le : ∀ m ∈ src.head?, off ≤ m.m_len
  off_nil : src = [] → off = 0
  len_le : len = M_COPYALL ∨ off + len ≤ chainLen src
  short : chainLen src < M_COPYALL

section Next

variable {m : Mbuf} {c : List Mbuf} {off len k : ℕ}

theorem Copying.next (h : Copying (m :: c) off len) (hk : k ≤ min len (m.m_len - off)) :
    Copying (copyNext m c off k).1 (copyNext m c off k).2 (lenLeft len k) := by
  have hoff := h.off_le m rfl
  have hlen := h.len_le
  have hshort := h.short
  rw [chainLen_cons] at hlen hshort
  unfold copyNext lenLeft
  split_ifs with h₁ h₂ h₂
  · exact ⟨by simp, fun _ => rfl, .inl h₂, by simp; omega⟩
  · exact ⟨by simp, fun _ => rfl, .inr (by simp; omega), by simp; omega⟩
  · exact ⟨by simp; omega, by simp, .inl h₂, by simpa using hshort⟩
  · exact ⟨by simp; omega, by simp, .inr (by simp; omega), by simpa using hshort⟩

theorem copyNext_lt (hoff : off ≤ m.m_len) (hk : k ≤ m.m_len - off)
    (hpos : off < m.m_len → 0 < k) :
    chainLen (copyNext m c off k).1 - (copyNext m c off k).2 + (copyNext m c off k).1.length <
      chainLen (m :: c) - off + (m :: c).length := by
  unfold copyNext
  split_ifs with h
  · simp only [chainLen_cons, List.length_cons]
    omega
  · simp only [chainLen_cons, List.length_cons]
    omega

theorem take_drop_split (l : List UInt8) {off len k : ℕ} (hk : k ≤ len) :
    (l.drop off).take len = (l.drop off).take k ++ (l.drop (off + k)).take (len - k) := by
  obtain ⟨d, rfl⟩ := Nat.exists_eq_add_of_le hk
  rw [List.take_add, List.drop_drop, Nat.add_sub_cancel_left]

theorem bytes_next (mem : Mem) (h : Copying (m :: c) off len)
    (hk : k ≤ min len (m.m_len - off)) :
    ((mem.bytes (m :: c)).drop off).take len =
      ((mem.store.read m.locs).drop off).take k ++
        ((mem.bytes (copyNext m c off k).1).drop (copyNext m c off k).2).take (lenLeft len k) := by
  have hoff := h.off_le m rfl
  have hshort := h.short
  rw [chainLen_cons] at hshort
  rw [take_drop_split _ (hk.trans (min_le_left _ _))]
  congr 1
  · rw [Mem.bytes_cons, List.drop_append_of_le_length (by simpa using hoff),
      List.take_append_of_le_length (by simp; omega)]
  · have hdrop : (mem.bytes (m :: c)).drop (off + k) =
        (mem.bytes (copyNext m c off k).1).drop (copyNext m c off k).2 := by
      unfold copyNext
      split_ifs with hend
      · rw [Mem.bytes_cons, List.drop_left' (by simpa using hend.symm), List.drop_zero]
      · rfl
    rw [hdrop]
    unfold lenLeft
    split_ifs with hall
    · rw [← hdrop, List.take_of_length_le, List.take_of_length_le] <;> simp <;> omega
    · rfl

end Next

/-- An mbuf with external storage is copied before another mbuf is allocated. -/
def Exposed (src : List Mbuf) (off len : ℕ) : Prop :=
  ∃ pre m post, src = pre ++ m :: post ∧ m.m_ext ≠ none ∧ post ≠ [] ∧
    chainLen pre + m.m_len < off + len

/-- The effect of the loop. -/
structure Copied (deep : Bool) (m0 : Mbuf) (mem : Mem) (src : List Mbuf) (off len : ℕ)
    (copyhdr ok : Bool) (ns : List Mbuf) (mem' : Mem) : Prop where
  keeps : mem.Keeps mem'
  old : ∀ n ∈ ns, n.Old mem'
  fresh : ∀ n ∈ ns, mem.next ≤ n.addr
  bytes : ok = true → mem'.bytes ns = ((mem.bytes src).drop off).take len
  storage : ok = true → (∀ m ∈ src, m.InStorage) →
    (copyhdr = true → ∀ m ∈ src.head?, m.m_ext = none → min len (m.m_len - off) ≤ MHLEN) →
    ∀ n ∈ ns, n.InStorage
  header : copyhdr = true → ok = true → ∀ n ∈ ns.head?, ∀ ph, m0.m_pkthdr = some ph →
    n.m_pkthdr = some { ph with len := if len ≠ M_COPYALL then (len : ℤ) else ph.len }
  plain : copyhdr = false → ∀ n ∈ ns, n.zeroize = false
  head : ok = true → len ≠ 0 → ∀ m ∈ src.head?, ∃ n ∈ ns.head?,
    m.m_ext = none → n.m_ext = none ∧ n.m_len = min len (m.m_len - off)
  zeroize : m0.zeroize = false → ∀ n ∈ ns, n.zeroize = false
  flagged : copyhdr = true → ∀ n ∈ ns.head?, n.zeroize = m0.zeroize
  plenty : mem.Plenty → ok = true ∧ mem'.Plenty
  stopped : ok = false → len ≠ 0 ∧ src ≠ []
  refs_old : ∀ x < mem.nextcl, mem'.refs x = mem.refs x + users x ns
  refs_new : ∀ x, mem.nextcl ≤ x → x < mem'.nextcl → mem'.refs x = users x ns
  owned : deep = true → ∀ n ∈ ns, ∀ e, n.m_ext = some e →
    mem.nextcl ≤ e.ext_buf ∧ e.extwr = true ∧ users e.ext_buf ns = 1
  shared : deep = false → ok = false → ∀ n ∈ ns, n.m_ext ≠ none → Exposed src off len
  source : deep = false → ∀ n ∈ ns, n.m_ext ≠ none → ∃ m ∈ src, n.m_ext = m.m_ext

section Loop

variable {deep : Bool} {m0 : Mbuf} {mem : Mem} {src : List Mbuf} {off len : ℕ} {copyhdr : Bool}

theorem users_eq_zero {x : ℕ} {c : List Mbuf} (h : ∀ m ∈ c, m.buf ≠ .ext x) : users x c = 0 :=
  List.countP_eq_zero.mpr fun m hm => by simpa using h m hm

theorem Copied.nil (mem' : Mem) (hk : mem.Keeps mem') (hcl : mem'.nextcl = mem.nextcl)
    (hrefs : mem'.refs = mem.refs) {ok : Bool}
    (hbytes : ok = true → ((mem.bytes src).drop off).take len = [])
    (hplenty : mem.Plenty → ok = true ∧ mem'.Plenty) (hstop : ok = false → len ≠ 0 ∧ src ≠ [])
    (hhead : ok = true → len = 0 ∨ src = []) :
    Copied deep m0 mem src off len copyhdr ok [] mem' where
  keeps := hk
  old := by simp
  fresh := by simp
  bytes h := (hbytes h).symm
  storage := by simp
  header := by simp
  plain := by simp
  head hok hlen m hm := by
    rcases hhead hok with h | rfl
    · exact absurd h hlen
    · cases hm
  zeroize := by simp
  flagged := by simp
  plenty := hplenty
  stopped := hstop
  refs_old x _ := by rw [hrefs, users_nil, Nat.add_zero]
  refs_new x hx hx' := absurd (hcl ▸ hx') (not_lt.mpr hx)
  owned := by simp
  shared := by simp
  source := by simp

theorem users_cons_eq (x : ℕ) (n : Mbuf) (ns : List Mbuf) :
    users x (n :: ns) = users x [n] + users x ns := by
  simp [users_cons, Nat.add_comm]

theorem users_eq_zero_of_old {mem : Mem} {x : ℕ} {c : List Mbuf} (h : ∀ m ∈ c, m.Old mem)
    (hx : mem.nextcl ≤ x) : users x c = 0 := by
  refine users_eq_zero fun m hm hbuf => ?_
  obtain ⟨e, he, rfl⟩ := buf_eq_ext.mp hbuf
  exact absurd ((h m hm).2 e he) (not_lt.mpr hx)

theorem mem_of_mem_copyNext {m k : Mbuf} {c : List Mbuf} {i : ℕ}
    (h : k ∈ (copyNext m c off i).1) : k ∈ m :: c := by
  unfold copyNext at h
  split_ifs at h
  · exact List.mem_cons_of_mem _ h
  · exact h

variable {mem₁ mem₂ mem₃ : Mem} {m n n' : Mbuf} {c ns : List Mbuf} {ok : Bool} {junk : ℕ}

/-- A shallow copy that fails later has gone to the end of the mbuf it copied. -/
theorem exposed_next (hc : Copying (m :: c) off len)
    (hfull : n'.m_len = min len (m.m_len - off))
    (hstop : lenLeft len n'.m_len ≠ 0 ∧ (copyNext m c off n'.m_len).1 ≠ []) :
    c ≠ [] ∧ m.m_len < off + len ∧
      (Exposed (copyNext m c off n'.m_len).1 (copyNext m c off n'.m_len).2
        (lenLeft len n'.m_len) → Exposed (m :: c) off len) := by
  have hoff := hc.off_le m rfl
  have hshort := hc.short
  have hle := hc.len_le
  rw [chainLen_cons] at hshort hle
  obtain ⟨hleft, hne⟩ := hstop
  have hend : off + n'.m_len = m.m_len := by
    unfold lenLeft at hleft
    split_ifs at hleft with hall
    · omega
    · omega
  have hnext : copyNext m c off n'.m_len = (c, 0) := by
    unfold copyNext
    rw [if_pos hend]
  have hlt : m.m_len < off + len := by
    unfold lenLeft at hleft
    split_ifs at hleft with hall <;> omega
  rw [hnext] at hne ⊢
  refine ⟨hne, hlt, ?_⟩
  rintro ⟨pre, k, post, hsplit, hext, hpost, hk⟩
  refine ⟨m :: pre, k, post, by simpa using hsplit, hext, hpost, ?_⟩
  have hsum : chainLen c = chainLen pre + (k.m_len + chainLen post) := by
    rw [show c = pre ++ k :: post from hsplit, chainLen_append, chainLen_cons]
  rw [chainLen_cons]
  unfold lenLeft at hk
  split_ifs at hk with hall <;> omega

theorem Copied.untagged (hlen : len ≠ 0) (hno : ¬ mem.Plenty) (hhdr : copyhdr = true)
    (hext : n.m_ext = none) (haddr : n.addr = mem.next) (hz : n.zeroize = m0.zeroize)
    (hk : mem.Keeps mem₁) (hnext : mem₁.next = mem.next + 1) (hcl : mem₁.nextcl = mem.nextcl)
    (hrefs : mem₁.refs = mem.refs) :
    Copied deep m0 mem (m :: c) off len copyhdr false [n] mem₁ where
  keeps := hk
  old := List.forall_mem_singleton.mpr ⟨by omega, by simp [hext]⟩
  fresh := List.forall_mem_singleton.mpr haddr.ge
  bytes := by simp
  storage := by simp
  header := by simp
  plain h := absurd hhdr (by simp [h])
  head := by simp
  zeroize h := List.forall_mem_singleton.mpr (hz.trans h)
  flagged _ k hk := by
    obtain rfl : n = k := Option.some.inj hk
    exact hz
  plenty h := absurd h hno
  stopped _ := ⟨hlen, by simp⟩
  refs_old x _ := by rw [users_singleton_of_none hext, hrefs, Nat.add_zero]
  refs_new x hx hx' := absurd (hcl ▸ hx') (not_lt.mpr hx)
  owned _ := List.forall_mem_singleton.mpr fun e he => by rw [hext] at he; cases he
  shared _ _ := List.forall_mem_singleton.mpr fun h => absurd hext h
  source _ := List.forall_mem_singleton.mpr fun h => absurd hext h

theorem Copied.cons (hc : Copying (m :: c) off len) (hlen : len ≠ 0)
    (hblank : Blank mem mem₁ n) (hh : Headed m0 (mem.plain junk) n len copyhdr)
    (hcl : mem₁.nextcl = mem.nextcl) (hrefs : mem₁.refs = mem.refs)
    (hplenty : mem.Plenty → mem₁.Plenty) (hm : m.Old mem) (hcold : ∀ k ∈ c, k.Old mem)
    (hd : DataCopied deep mem mem₁ m n off len n' mem₂)
    (hr : Copied deep m0 mem₂ (copyNext m c off n'.m_len).1 (copyNext m c off n'.m_len).2
      (lenLeft len n'.m_len) false ok ns mem₃) :
    Copied deep m0 mem (m :: c) off len copyhdr ok (n' :: ns) mem₃ where
  keeps := hd.keeps.trans hr.keeps
  old := List.forall_mem_cons.mpr ⟨hr.keeps.old hd.old, hr.old⟩
  fresh := by
    refine List.forall_mem_cons.mpr ⟨hd.addr ▸ hblank.fresh, fun k hk => ?_⟩
    exact hd.keeps.next.trans (hr.fresh k hk)
  bytes hok := by
    have hsrc : ∀ k ∈ (copyNext m c off n'.m_len).1, k.Old mem := fun k hk =>
      List.forall_mem_cons.mpr ⟨hm, hcold⟩ k (mem_of_mem_copyNext hk)
    rw [Mem.bytes_cons, hr.bytes hok, hr.keeps.read hd.old.locs, hd.bytes, hd.keeps.bytes hsrc,
      bytes_next mem hc hd.len_le]
  storage hok hin hfit := by
    refine List.forall_mem_cons.mpr ⟨?_, hr.storage hok ?_ (by simp)⟩
    · refine hd.storage (hin m List.mem_cons_self) fun hext => ?_
      cases hhdr : copyhdr with
      | true =>
        rw [hh.base hhdr]
        exact hfit hhdr m rfl hext
      | false =>
        obtain ⟨-, hend⟩ := hin m List.mem_cons_self
        have hlimit : m.limit = MLEN := by simp [Mbuf.limit, hext]
        have hbase : n.base = 0 := by
          rw [hh.none hhdr]
          rfl
        omega
    · exact fun k hk => hin k (mem_of_mem_copyNext hk)
  header hhdr _ k hk ph hph := by
    obtain rfl : n' = k := Option.some.inj hk
    rw [hd.pkthdr]
    exact hh.pkthdr hhdr ph hph
  plain hhdr := by
    refine List.forall_mem_cons.mpr ⟨?_, hr.plain rfl⟩
    rw [hd.zeroize, hh.none hhdr]
    rfl
  head _ _ k hk := by
    obtain rfl : m = k := Option.some.inj hk
    exact ⟨n', rfl, hd.plain⟩
  zeroize hz := by
    refine List.forall_mem_cons.mpr ⟨?_, hr.zeroize hz⟩
    rw [hd.zeroize]
    cases hhdr : copyhdr with
    | true => rw [hh.zeroize hhdr, hz]
    | false =>
      rw [hh.none hhdr]
      rfl
  flagged hhdr k hk := by
    obtain rfl : n' = k := Option.some.inj hk
    rw [hd.zeroize, hh.zeroize hhdr]
  plenty h := hr.plenty (hd.plenty (hplenty h))
  stopped _ := ⟨hlen, by simp⟩
  refs_old x hx := by
    have hx₁ : x < mem₁.nextcl := hcl.symm ▸ hx
    rw [hr.refs_old x (lt_of_lt_of_le hx₁ hd.nextcl), hd.refs_old x hx₁, hrefs,
      users_cons_eq x n' ns]
    omega
  refs_new x hx hx' := by
    rw [users_cons_eq x n' ns]
    rcases lt_or_ge x mem₂.nextcl with h | h
    · rw [hr.refs_old x h, hd.refs_new x (hcl.symm ▸ hx) h]
    · rw [hr.refs_new x h hx', users_eq_zero_of_old (List.forall_mem_singleton.mpr hd.old) h,
        Nat.zero_add]
  owned hdeep := by
    refine List.forall_mem_cons.mpr ⟨fun e he => ?_, fun k hk e he => ?_⟩
    · obtain ⟨hge, hwr⟩ := hd.owned hdeep e he
      have hns : users e.ext_buf ns = 0 := by
        refine users_eq_zero fun k hk hbuf => ?_
        obtain ⟨e', he', hee⟩ := buf_eq_ext.mp hbuf
        have := (hr.owned hdeep k hk e' he').1
        exact absurd (hd.old.2 e he) (by omega)
      refine ⟨hcl ▸ hge, hwr, ?_⟩
      rw [users_cons_eq, hns, users_singleton_of_some he, if_pos rfl]
    · obtain ⟨hge, hwr, hone⟩ := hr.owned hdeep k hk e he
      refine ⟨hd.keeps.nextcl.trans hge, hwr, ?_⟩
      rw [users_cons_eq, hone, users_eq_zero_of_old (List.forall_mem_singleton.mpr hd.old) hge]
  shared hdeep hok := by
    obtain ⟨hne, hlt, hnext⟩ := exposed_next hc (hd.full hdeep) (hr.stopped hok)
    refine List.forall_mem_cons.mpr ⟨fun hext => ?_, fun k hk hext => ?_⟩
    · refine ⟨[], m, c, rfl, ?_, hne, by simpa using hlt⟩
      rwa [hd.shared hdeep] at hext
    · exact hnext (hr.shared hdeep hok k hk hext)
  source hdeep := by
    refine List.forall_mem_cons.mpr ⟨fun _ => ?_, fun k hk hext => ?_⟩
    · exact ⟨m, List.mem_cons_self, hd.shared hdeep⟩
    · obtain ⟨j, hj, hext⟩ := hr.source hdeep k hk hext
      exact ⟨j, mem_of_mem_copyNext hj, hext⟩

/-- The loop ends within its fuel and does what it is for. -/
theorem copyLoop_spec (deep : Bool) (m0 : Mbuf) (i : ℕ) (mem : Mem) (src : List Mbuf)
    (off len : ℕ) (copyhdr : Bool)
    (hc : Copying src off len) (hold : ∀ m ∈ src, m.Old mem)
    (hhdr : copyhdr = true → m0.m_pkthdr ≠ none)
    (hfuel : chainLen src - off + src.length < i) :
    ∃ ok ns mem', copyLoop deep m0 i mem src off len copyhdr = some (ok, ns, mem') ∧
      Copied deep m0 mem src off len copyhdr ok ns mem' := by
  induction i generalizing mem src off len copyhdr with
  | zero => omega
  | succ i ih =>
    unfold copyLoop
    by_cases hlen : len = 0
    · rw [if_pos hlen]
      exact ⟨true, [], mem, rfl, .nil mem (.refl mem) rfl rfl (by simp [hlen]) (fun h => ⟨rfl, h⟩) (by simp)
        fun _ => .inl hlen⟩
    rw [if_neg hlen]
    cases src with
    | nil =>
      have hall : len = M_COPYALL := by
        rcases hc.len_le with h | h
        · exact h
        · simp at h
          omega
      simp only [hall, if_true]
      exact ⟨true, [], mem, rfl, .nil mem (.refl mem) rfl rfl (by simp) (fun h => ⟨rfl, h⟩) (by simp)
        fun _ => .inr rfl⟩
    | cons m c =>
      rcases m_get_cases mem with ⟨hg, hget⟩ | ⟨junk, hg, hget⟩
      · simp only [hget]
        exact ⟨false, [], mem.advance, rfl, .nil _ (keeps_advance mem) rfl rfl (by simp)
          (fun h => absurd hg (h 0)) (fun _ => ⟨hlen, by simp⟩) (by simp)⟩
      simp only [hget]
      have hm := hold m List.mem_cons_self
      obtain ⟨n, g, hp, ⟨hcopy, hno, hhdr', hext, haddr, hz⟩ | ⟨hcopy, hblank, hh⟩⟩ :=
        copyHeader_cases len (blank_plain mem junk) hhdr
      · simp only [hcopy]
        exact ⟨false, [n], _, rfl, .untagged hlen (fun h => hno fun i => h (i + 1)) hhdr' hext haddr
          hz ((keeps_next mem).trans (Mem.keeps_withGrants _ g)) rfl rfl rfl⟩
      · simp only [hcopy]
        obtain ⟨n', mem₂, hdata, hd⟩ := copyData_spec deep len hblank hm (hc.off_le m rfl)
        have hle := hd.len_le
        have hover : ¬ m.m_len < off + n'.m_len := by
          have := hc.off_le m rfl
          omega
        simp only [hdata, if_neg hover]
        have hcold : ∀ k ∈ c, k.Old mem := fun k hk => hold k (List.mem_cons_of_mem _ hk)
        obtain ⟨ok, ns, mem₃, hloop, hr⟩ := ih mem₂ (copyNext m c off n'.m_len).1
          (copyNext m c off n'.m_len).2 (lenLeft len n'.m_len) false (hc.next hle)
          (fun k hk => hd.keeps.old (hold k (mem_of_mem_copyNext hk))) (by simp)
          (by
            have := copyNext_lt (c := c) (hc.off_le m rfl) (hle.trans (min_le_right _ _))
              (hd.progress (Nat.pos_of_ne_zero hlen))
            omega)
        simp only [hloop]
        exact ⟨ok, n' :: ns, mem₃, rfl, .cons hc hlen hblank hh rfl rfl
          (fun h => hp fun i => h (i + 1)) hm hcold hd hr⟩

end Loop

end OpenbsdKernel.UipcMbuf
