import OpenbsdKernel.Net.Rtable.Insert

/-!
# Runs of a routing table

The nodes of the tree, the nodes handed out by the pool and the lists of routes stay
together through insertions and deletions, as long as no copy of a mask fails after its
node has gone into the tree.
-/
namespace OpenbsdKernel.Rt

open Art

/-- The insertion comes as far as the copy of the mask, and the copy fails. -/
def CopyFails (st : Rtable) (dst : List UInt8) (mask : Option (List UInt8)) (node : Option ℕ)
    (mem : ℕ → Bool) (msk : Bool) : Prop :=
  mask ≠ none ∧ msk = false ∧ node ≠ none ∧ ∃ ar plen, st.ar = some ar ∧
    satoplen ar mask = some plen ∧ Supplied ar (satoaddr ar dst) plen mem

theorem mem_placeRoute {prio : ℕ → ℕ} {p rt r : ℕ} {l : List ℕ} :
    r ∈ placeRoute prio p rt l ↔ r = rt ∨ r ∈ l := by
  induction l with
  | nil => simp [placeRoute]
  | cons m l ih =>
    simp only [placeRoute]
    split_ifs
    · simp
    · simp only [List.mem_cons, ih]
      exact or_left_comm

theorem nodup_placeRoute {prio : ℕ → ℕ} {p rt : ℕ} {l : List ℕ} (hl : l.Nodup) (hrt : rt ∉ l) :
    (placeRoute prio p rt l).Nodup := by
  induction l with
  | nil => simp [placeRoute]
  | cons m l ih =>
    obtain ⟨hm, hl⟩ := List.nodup_cons.mp hl
    obtain ⟨hne, hrt⟩ : rt ≠ m ∧ rt ∉ l := by simpa using hrt
    simp only [placeRoute]
    split_ifs
    · exact List.nodup_cons.mpr ⟨by simp [hne, hrt], List.nodup_cons.mpr ⟨hm, hl⟩⟩
    · refine List.nodup_cons.mpr ⟨?_, ih hl hrt⟩
      rw [mem_placeRoute]
      rintro (rfl | h)
      · exact hne rfl
      · exact hm h

/-- Two states that differ in what route entries hold besides their node and destination. -/
structure Flagged (st st' : Rtable) : Prop where
  ar : st'.ar = st.ar
  an_dst : st'.an_dst = st.an_dst
  an_rtlist : st'.an_rtlist = st.an_rtlist
  node : ∀ r, (st'.rt r).rt_node = (st.rt r).rt_node
  dest : ∀ r, (st'.rt r).rt_dest = (st.rt r).rt_dest

theorem flagged_setRt (st : Rtable) (rt : ℕ) (b : Bool) :
    Flagged st (st.setRt rt fun r => { r with rt_mpath := b }) := by
  refine ⟨rfl, rfl, rfl, fun r => ?_, fun r => ?_⟩ <;> rw [setRt_rt] <;> split_ifs with h <;>
    simp [h]

theorem Flagged.trans {st st' st'' : Rtable} (h : Flagged st st') (h' : Flagged st' st'') :
    Flagged st st'' :=
  ⟨h'.ar.trans h.ar, h'.an_dst.trans h.an_dst, h'.an_rtlist.trans h.an_rtlist,
    fun r => (h'.node r).trans (h.node r), fun r => (h'.dest r).trans (h.dest r)⟩

theorem flagged_markMpath (prio rt : ℕ) (l : List ℕ) (st : Rtable) :
    Flagged st (markMpath prio rt l st) ∧ (markMpath prio rt l st).an_pool = st.an_pool := by
  induction l generalizing st with
  | nil => exact ⟨⟨rfl, rfl, rfl, fun _ => rfl, fun _ => rfl⟩, rfl⟩
  | cons m l ih =>
    simp only [markMpath]
    split_ifs
    · obtain ⟨h, hp⟩ := ih ((st.setRt m fun r => { r with rt_mpath := true }).setRt rt fun r =>
        { r with rt_mpath := true })
      exact ⟨((flagged_setRt st m true).trans (flagged_setRt _ rt true)).trans h, hp⟩
    · exact ih st

/-- The node that was made is kept, or it goes back because there was one with routes. -/
theorem shareNode_spec {st st' : Rtable} {an prev : Node} {prio rt : ℕ}
    (h : shareNode st an prev prio rt = some st') :
    Flagged st st' ∧
      st'.an_pool = if prev.ptr = an.ptr then st.an_pool else st.an_pool.erase an.ptr := by
  by_cases heq : prev.ptr = an.ptr
  · rw [shareNode, if_pos heq] at h
    cases h
    exact ⟨flagged_setRt st rt false, by rw [if_pos heq]; rfl⟩
  · rw [shareNode, if_neg heq] at h
    rw [if_neg heq]
    simp only [Option.bind_eq_bind, Option.bind_eq_some_iff] at h
    obtain ⟨mrt, -, -, -, h⟩ := h
    have herase : Flagged st { st with an_pool := st.an_pool.erase an.ptr } :=
      ⟨rfl, rfl, rfl, fun _ => rfl, fun _ => rfl⟩
    split_ifs at h
    · cases h
      obtain ⟨hf, hp⟩ := flagged_markMpath prio rt (st.an_rtlist prev.ptr)
        (Rtable.setRt { st with an_pool := st.an_pool.erase an.ptr } rt
          fun r => { r with rt_mpath := false })
      exact ⟨(herase.trans (flagged_setRt _ rt false)).trans hf, hp⟩
    · cases h
      exact ⟨herase, rfl⟩

theorem Owned.linked {st : Rtable} {ar : Root} {L : Finset Node} {n : Node} {rt q : ℕ}
    (h : Owned st ar L) (hn : n ∈ L) (hroutes : ∀ m ∈ L, m ≠ n → st.an_rtlist m.ptr ≠ [])
    (hrt : ∀ m ∈ L, rt ∉ st.an_rtlist m.ptr) (hnode : (st.rt rt).rt_node = some n)
    (hdest : SamePrefix (satoaddr ar (st.rt rt).rt_dest) n.key n.an_plen) :
    Sound (rtable_mpath_reprio (st.setList n.ptr (rt :: st.an_rtlist n.ptr)) n rt q) ar L := by
  set st' := rtable_mpath_reprio (st.setList n.ptr (rt :: st.an_rtlist n.ptr)) n rt q with hst'
  obtain ⟨prio, hprio⟩ : ∃ prio, ∀ p, st'.an_rtlist p =
      if p = n.ptr then placeRoute prio q rt (st.an_rtlist n.ptr) else st.an_rtlist p := by
    refine ⟨fun m => ((st.setRt rt fun r => { r with rt_priority := q }).rt m).rt_priority,
      fun p => ?_⟩
    simp only [hst', rtable_mpath_reprio, setList_an_rtlist, setRt_an_rtlist, if_true,
      List.erase_cons_head]
    split_ifs <;> rfl
  have hfields : ∀ r, (st'.rt r).rt_node = (st.rt r).rt_node ∧
      (st'.rt r).rt_dest = (st.rt r).rt_dest := by
    intro r
    simp only [hst', rtable_mpath_reprio, setList_rt, setRt_rt]
    split_ifs with hr <;> simp [hr]
  have hlist : ∀ m ∈ L, m ≠ n → st'.an_rtlist m.ptr = st.an_rtlist m.ptr := by
    intro m hm hne
    rw [hprio, if_neg fun e => hne (h.inj m hm n hn e)]
  have hself : st'.an_rtlist n.ptr = placeRoute prio q rt (st.an_rtlist n.ptr) := by
    rw [hprio, if_pos rfl]
  refine ⟨⟨h.holds, h.pool, h.inj, fun m hm => ?_, fun m hm r hr => ?_, h.dst⟩, fun m hm => ?_⟩
  · by_cases hmn : m = n
    · subst hmn
      rw [hself]
      exact nodup_placeRoute (h.nodup m hm) (hrt m hm)
    · rw [hlist m hm hmn]
      exact h.nodup m hm
  · rw [(hfields r).1, (hfields r).2]
    by_cases hmn : m = n
    · subst hmn
      rw [hself, mem_placeRoute] at hr
      obtain rfl | hr := hr
      · exact ⟨hnode, hdest⟩
      · exact h.owner m hm r hr
    · rw [hlist m hm hmn] at hr
      exact h.owner m hm r hr
  · by_cases hmn : m = n
    · subst hmn
      rw [hself]
      intro hnil
      have hmem : rt ∈ placeRoute prio q rt (st.an_rtlist m.ptr) := mem_placeRoute.mpr (.inl rfl)
      rw [hnil] at hmem
      cases hmem
    · rw [hlist m hm hmn]
      exact hroutes m hm hmn

section Insert
variable {st st' : Rtable} {ar : Root} {L : Finset Node} {dst : List UInt8}
  {mask : Option (List UInt8)} {prio rt p plen : ℕ} {mem : ℕ → Bool} {msk : Bool}
  {e : Option Errno}

/-- The state in which `art_insert` is called: a node has been taken from the pool. -/
def Rtable.withNode (st : Rtable) (p : ℕ) (dst : List UInt8) : Rtable :=
  { st with
    an_pool := insert p st.an_pool
    an_dst := Function.update st.an_dst p dst
    an_rtlist := Function.update st.an_rtlist p [] }

theorem Sound.ptr_ne (h : Sound st ar L) (hp : p ∉ st.an_pool) {n : Node} (hn : n ∈ L) :
    n.ptr ≠ p := by
  rintro rfl
  exact hp (h.ptr_mem hn)

theorem Sound.gave_back (h : Sound st ar L) (hp : p ∉ st.an_pool) {br : Root} (hbr : Holds br L)
    (hk : Kept ar br) :
    Sound { st.withNode p dst with ar := some br, an_pool := (insert p st.an_pool).erase p } br L := by
  have hoff : ∀ sa, satoaddr br sa = satoaddr ar sa := fun sa => by rw [satoaddr, satoaddr, hk.off]
  have hlist : ∀ n ∈ L, Function.update st.an_rtlist p [] n.ptr = st.an_rtlist n.ptr :=
    fun n hn => Function.update_of_ne (h.ptr_ne hp hn) _ _
  have hdst : ∀ n ∈ L, Function.update st.an_dst p dst n.ptr = st.an_dst n.ptr :=
    fun n hn => Function.update_of_ne (h.ptr_ne hp hn) _ _
  refine ⟨⟨hbr, ?_, h.inj, fun n hn => ?_, fun n hn r hr => ?_, fun n hn => ?_⟩, fun n hn => ?_⟩
  · change (insert p st.an_pool).erase p = _
    rw [Finset.erase_insert hp, h.pool]
  · change (Function.update st.an_rtlist p [] n.ptr).Nodup
    rw [hlist n hn]
    exact h.nodup n hn
  · change r ∈ Function.update st.an_rtlist p [] n.ptr at hr
    rw [hlist n hn] at hr
    rw [hoff]
    exact h.owner n hn r hr
  · change SamePrefix (satoaddr br (Function.update st.an_dst p dst n.ptr)) n.key n.an_plen
    rw [hdst n hn, hoff]
    exact h.dst n hn
  · change Function.update st.an_rtlist p [] n.ptr ≠ []
    rw [hlist n hn]
    exact h.routes n hn

theorem Sound.shared (h : Sound st ar L) (hp : p ∉ st.an_pool) {br : Root} {L' : Finset Node}
    (hbr : Holds br L') (hk : Kept ar br) {s : Rtable} {n : Node}
    (hf : Flagged { st.withNode p dst with ar := some br } s)
    (hcase : (L' = L ∧ n ∈ L ∧ s.an_pool = (insert p st.an_pool).erase p) ∨
      (n = ⟨p, satoaddr ar dst, plen⟩ ∧ L' = insert n L ∧ s.an_pool = insert p st.an_pool)) :
    Owned s br L' ∧ n ∈ L' ∧ (∀ m ∈ L', m ≠ n → s.an_rtlist m.ptr ≠ []) ∧
      ∀ r, ¬ InTable st r → ∀ m ∈ L', r ∉ s.an_rtlist m.ptr := by
  have hoff : ∀ sa, satoaddr br sa = satoaddr ar sa := fun sa => by rw [satoaddr, satoaddr, hk.off]
  have hlist : ∀ m ∈ L, s.an_rtlist m.ptr = st.an_rtlist m.ptr := by
    intro m hm
    rw [hf.an_rtlist]
    exact Function.update_of_ne (h.ptr_ne hp hm) _ _
  have hdst : ∀ m ∈ L, s.an_dst m.ptr = st.an_dst m.ptr := by
    intro m hm
    rw [hf.an_dst]
    exact Function.update_of_ne (h.ptr_ne hp hm) _ _
  have howner : ∀ m ∈ L, ∀ r ∈ s.an_rtlist m.ptr, (s.rt r).rt_node = some m ∧
      SamePrefix (satoaddr br (s.rt r).rt_dest) m.key m.an_plen := by
    intro m hm r hr
    rw [hlist m hm] at hr
    rw [hf.node, hf.dest, hoff]
    exact h.owner m hm r hr
  have hno : ∀ r, ¬ InTable st r → ∀ m ∈ L, r ∉ s.an_rtlist m.ptr := by
    intro r hr m hm hrm
    exact hr (h.inTable_iff.mpr ⟨m, hm, hlist m hm ▸ hrm⟩)
  obtain ⟨rfl, hn, hpool⟩ | ⟨rfl, rfl, hpool⟩ := hcase
  · refine ⟨⟨hbr, ?_, h.inj, fun m hm => ?_, howner, fun m hm => ?_⟩, hn, fun m hm _ => ?_, hno⟩
    · rw [hpool, Finset.erase_insert hp, h.pool]
    · rw [hlist m hm]
      exact h.nodup m hm
    · rw [hdst m hm, hoff]
      exact h.dst m hm
    · rw [hlist m hm]
      exact h.routes m hm
  · have hnil : s.an_rtlist p = [] := by
      rw [hf.an_rtlist]
      exact Function.update_self ..
    have hnew : s.an_dst p = dst := by
      rw [hf.an_dst]
      exact Function.update_self ..
    refine ⟨⟨hbr, ?_, fun m hm m' hm' he => ?_, fun m hm => ?_, fun m hm r hr => ?_, fun m hm => ?_⟩,
      Finset.mem_insert_self _ _, fun m hm hne => ?_, fun r hr m hm => ?_⟩
    · rw [hpool, Finset.image_insert, h.pool]
    · obtain rfl | hm := Finset.mem_insert.mp hm <;> obtain rfl | hm' := Finset.mem_insert.mp hm'
      · rfl
      · exact absurd he.symm (h.ptr_ne hp hm')
      · exact absurd he (h.ptr_ne hp hm)
      · exact h.inj m hm m' hm' he
    · obtain rfl | hm := Finset.mem_insert.mp hm
      · rw [hnil]
        exact List.nodup_nil
      · rw [hlist m hm]
        exact h.nodup m hm
    · obtain rfl | hm := Finset.mem_insert.mp hm
      · rw [hnil] at hr
        cases hr
      · exact howner m hm r hr
    · obtain rfl | hm := Finset.mem_insert.mp hm
      · rw [hnew, hoff]
        exact fun _ _ => rfl
      · rw [hdst m hm, hoff]
        exact h.dst m hm
    · rw [hlist m ((Finset.mem_insert.mp hm).resolve_left hne)]
      exact h.routes m ((Finset.mem_insert.mp hm).resolve_left hne)
    · obtain rfl | hm := Finset.mem_insert.mp hm
      · rw [hnil]
        exact List.not_mem_nil
      · exact hno r hr m hm

/-- What an insertion that gets a node comes to: it runs out of memory for the tree with
the routes as before, it loses the node it has entered, or the route is in. -/
theorem Sound.insert_cases (h : Sound st ar L) (har : st.ar = some ar)
    (hlen : satoplen ar mask = some plen) (hp : p ∉ st.an_pool)
    (hins : rtable_insert st dst mask prio rt (some p) mem msk = some (st', e)) :
    ∃ br, st'.ar = some br ∧ Kept ar br ∧
      ((e = some .ESRCH ∧ ¬ Supplied ar (satoaddr ar dst) plen mem ∧ Sound st' br L ∧
          (∀ n ∈ L, st'.an_rtlist n.ptr = st.an_rtlist n.ptr) ∧
          ∀ n ∈ L, st'.an_dst n.ptr = st.an_dst n.ptr) ∨
        (e = some .ENOMEM ∧ mask ≠ none ∧ msk = false ∧
          Supplied ar (satoaddr ar dst) plen mem ∧ ∃ n, InHeap br n ∧ n.ptr ∉ st'.an_pool) ∨
        (e = none ∧ (mask = none ∨ msk = true) ∧
          (¬ InTable st rt → ∃ L', Sound st' br L'))) := by
  have hplen : plen ≤ ar.ar_alen := by
    by_contra hgt
    simp [rtable_insert, har, hlen, art_insert, guard, hgt] at hins
  obtain ⟨br, r, hbr, hk, hsup, hcase⟩ :=
    h.holds.insert (show (⟨p, satoaddr ar dst, plen⟩ : Node).an_plen ≤ ar.ar_alen from hplen) mem
  have hlist : ∀ n ∈ L, Function.update st.an_rtlist p [] n.ptr = st.an_rtlist n.ptr :=
    fun n hn => Function.update_of_ne (h.ptr_ne hp hn) _ _
  have hdst : ∀ n ∈ L, Function.update st.an_dst p dst n.ptr = st.an_dst n.ptr :=
    fun n hn => Function.update_of_ne (h.ptr_ne hp hn) _ _
  cases r with
  | none =>
    have hL : Holds br L := by
      obtain ⟨-, hL⟩ | ⟨n, -, hn, -⟩ | ⟨hn, -⟩ := hcase
      · exact hL
      · cases hn
      · cases hn
    simp only [rtable_insert, har, hlen, hbr, Option.bind_eq_bind, Option.bind_some,
      Option.pure_def, Option.some.injEq, Prod.mk.injEq] at hins
    obtain ⟨rfl, rfl⟩ := hins
    exact ⟨br, rfl, hk, .inl ⟨rfl, hsup.mp rfl, h.gave_back hp hL hk, hlist, hdst⟩⟩
  | some n =>
    have hsup' : Supplied ar (satoaddr ar dst) plen mem := by
      by_contra hno
      cases hsup.mpr hno
    simp only [rtable_insert, har, hlen, hbr, Option.bind_eq_bind, Option.bind_some,
      Option.bind_eq_some_iff] at hins
    obtain ⟨s, hshare, hins⟩ := hins
    obtain ⟨hf, hpool⟩ := shareNode_spec hshare
    -- the set that the tree holds now, and how the node stands to it
    obtain ⟨L', hL', hsplit, hsame⟩ : ∃ L' : Finset Node, Holds br L' ∧
        ((L' = L ∧ n ∈ L ∧ s.an_pool = (insert p st.an_pool).erase p) ∨
          (n = ⟨p, satoaddr ar dst, plen⟩ ∧ L' = insert n L ∧ s.an_pool = insert p st.an_pool)) ∧
        SamePrefix (satoaddr ar dst) n.key n.an_plen := by
      obtain ⟨hn, -⟩ | ⟨m, hm, hmn, hs, hL⟩ | ⟨hn, -, hL⟩ := hcase
      · cases hn
      · cases hmn
        refine ⟨L, hL, .inl ⟨rfl, Finset.mem_coe.mp hm, ?_⟩, ?_⟩
        · exact hpool.trans (if_neg (h.ptr_ne hp (Finset.mem_coe.mp hm)))
        · have hlen' : n.an_plen = plen := hs.1
          rw [hlen']
          exact SamePrefix.symm hs.2
      · cases hn
        refine ⟨insert ⟨p, satoaddr ar dst, plen⟩ L, by simpa using hL, .inr ⟨rfl, rfl, ?_⟩,
          fun _ _ => rfl⟩
        exact hpool.trans (if_pos rfl)
    obtain ⟨hown, hn, hroutes, hno⟩ := h.shared hp hL' hk hf hsplit
    have har' : s.ar = some br := hf.ar
    split_ifs at hins with hcopy
    · simp only [Option.pure_def, Option.some.injEq, Prod.mk.injEq] at hins
      obtain ⟨rfl, rfl⟩ := hins
      exact ⟨br, har', hk, .inr (.inl ⟨rfl, hcopy.1, hcopy.2, hsup', n,
        hL'.inHeap_iff.mpr (Finset.mem_coe.mpr hn), Finset.notMem_erase _ _⟩)⟩
    · simp only [Option.pure_def, Option.some.injEq, Prod.mk.injEq] at hins
      obtain ⟨rfl, rfl⟩ := hins
      refine ⟨br, har', hk, .inr (.inr ⟨rfl, ?_, fun hrt => ⟨L', ?_⟩⟩)⟩
      · cases mask with
        | none => exact .inl rfl
        | some m =>
          cases msk with
          | true => exact .inr rfl
          | false => exact absurd ⟨by simp, rfl⟩ hcopy
      · have hrt' := hno rt hrt
        refine Owned.linked ⟨hown.holds, hown.pool, hown.inj, hown.nodup, fun m hm r hr => ?_,
          hown.dst⟩ hn hroutes hrt' (by simp) ?_
        · have hne : r ≠ rt := by
            rintro rfl
            exact hrt' m hm hr
          simpa [hne] using hown.owner m hm r hr
        · have hoff : satoaddr br dst = satoaddr ar dst := by rw [satoaddr, satoaddr, hk.off]
          simpa [hoff] using hsame

end Insert

section Delete
variable {st st' : Rtable} {ar : Root} {L : Finset Node}

/-- The table after a route was taken from the list of its node. -/
def Rtable.without (st : Rtable) (n : Node) (rt : ℕ) : Rtable :=
  (st.setRt rt fun r => { r with rt_node := none, rt_mask := none }).setList n.ptr
    ((st.an_rtlist n.ptr).erase rt)

theorem Sound.without {n : Node} {rt : ℕ} (h : Sound st ar L) (hn : n ∈ L)
    (hrn : rt ∈ st.an_rtlist n.ptr) :
    Owned (st.without n rt) ar L ∧ ∀ m ∈ L, m ≠ n → (st.without n rt).an_rtlist m.ptr ≠ [] := by
  obtain ⟨hnode, -⟩ := h.owner n hn rt hrn
  have hother : ∀ m ∈ L, m ≠ n → (st.without n rt).an_rtlist m.ptr = st.an_rtlist m.ptr := by
    intro m hm hne
    have hp : m.ptr ≠ n.ptr := fun e => hne (h.inj m hm n hn e)
    simp [Rtable.without, hp]
  have hself : (st.without n rt).an_rtlist n.ptr = (st.an_rtlist n.ptr).erase rt := by
    simp [Rtable.without]
  have hkeep : ∀ m ∈ L, ∀ r ∈ (st.without n rt).an_rtlist m.ptr, r ≠ rt ∧ r ∈ st.an_rtlist m.ptr := by
    intro m hm r hr
    by_cases hmn : m = n
    · subst hmn
      rw [hself] at hr
      exact (h.nodup m hm).mem_erase_iff.mp hr
    · rw [hother m hm hmn] at hr
      refine ⟨?_, hr⟩
      rintro rfl
      have hnode' := (h.owner m hm r hr).1
      rw [hnode, Option.some.injEq] at hnode'
      exact hmn hnode'.symm
  refine ⟨⟨h.holds, h.pool, h.inj, fun m hm => ?_, fun m hm r hr => ?_, h.dst⟩, fun m hm hne => ?_⟩
  · by_cases hmn : m = n
    · subst hmn
      rw [hself]
      exact (h.nodup m hm).erase _
    · rw [hother m hm hmn]
      exact h.nodup m hm
  · obtain ⟨hne, hr⟩ := hkeep m hm r hr
    simpa [Rtable.without, hne] using h.owner m hm r hr
  · rw [hother m hm hne]
    exact h.routes m hm

theorem Owned.headed {n : Node} {r : ℕ} {rest : List ℕ} (h : Owned st ar L) (hn : n ∈ L)
    (hroutes : ∀ m ∈ L, m ≠ n → st.an_rtlist m.ptr ≠ []) (hl : st.an_rtlist n.ptr = r :: rest) (b : Bool) :
    Sound (Rtable.setRt { st with an_dst := Function.update st.an_dst n.ptr (st.rt r).rt_dest } r
      fun q => { q with rt_mpath := b && q.rt_mpath }) ar L := by
  have hdest : SamePrefix (satoaddr ar (st.rt r).rt_dest) n.key n.an_plen :=
    (h.owner n hn r (by rw [hl]; exact List.mem_cons_self)).2
  refine ⟨⟨h.holds, h.pool, h.inj, h.nodup, fun m hm q hq => ?_, fun m hm => ?_⟩, fun m hm => ?_⟩
  · have howner := h.owner m hm q hq
    rw [setRt_rt]
    split_ifs with hqr
    · subst hqr
      exact howner
    · exact howner
  · rw [setRt_an_dst]
    by_cases hmn : m = n
    · subst hmn
      simpa using hdest
    · have hne : m.ptr ≠ n.ptr := fun e => hmn (h.inj m hm n hn e)
      simpa [hne] using h.dst m hm
  · by_cases hmn : m = n
    · subst hmn
      change st.an_rtlist m.ptr ≠ []
      simp [hl]
    · exact hroutes m hm hmn

theorem Owned.removed {n : Node} {br : Root} (h : Owned st ar L) (hn : n ∈ L)
    (hroutes : ∀ m ∈ L, m ≠ n → st.an_rtlist m.ptr ≠ []) (hk : Kept ar br)
    (hL : Holds br ((L : Set Node) \ {n})) :
    Sound { st with ar := some br, an_pool := st.an_pool.erase n.ptr } br (L.erase n) := by
  have hoff : ∀ sa, satoaddr br sa = satoaddr ar sa := fun sa => by
    rw [satoaddr, satoaddr, hk.off]
  refine ⟨⟨by rwa [Finset.coe_erase], ?_, fun m hm m' hm' => ?_,
    fun m hm => ?_, fun m hm r hr => ?_, fun m hm => ?_⟩, fun m hm => ?_⟩
  · change st.an_pool.erase n.ptr = _
    rw [h.pool]
    ext q
    simp only [Finset.mem_erase, Finset.mem_image]
    constructor
    · rintro ⟨hne, m, hm, rfl⟩
      exact ⟨m, ⟨fun e => hne (e ▸ rfl), hm⟩, rfl⟩
    · rintro ⟨m, ⟨hne, hm⟩, rfl⟩
      exact ⟨fun e => hne (h.inj m hm n hn e), m, hm, rfl⟩
  · exact h.inj m (Finset.mem_of_mem_erase hm) m' (Finset.mem_of_mem_erase hm')
  · exact h.nodup m (Finset.mem_of_mem_erase hm)
  · rw [hoff]
    exact h.owner m (Finset.mem_of_mem_erase hm) r hr
  · rw [hoff]
    exact h.dst m (Finset.mem_of_mem_erase hm)
  · exact hroutes m (Finset.mem_of_mem_erase hm) (Finset.ne_of_mem_erase hm)

theorem Sound.delete (h : Sound st ar L) (har : st.ar = some ar) {dst : List UInt8}
    {mask : Option (List UInt8)} {rt : ℕ} {e : Option Errno} (hrt : InTable st rt)
    (hdel : rtable_delete st dst mask rt = some (st', e)) :
    ∃ br L', st'.ar = some br ∧ Sound st' br L' := by
  obtain ⟨n, hn, hrn⟩ := h.inTable_iff.mp hrt
  obtain ⟨hnode, -⟩ := h.owner n hn rt hrn
  obtain ⟨hown, hroutes⟩ := h.without hn hrn
  simp only [rtable_delete, hnode, har, Option.bind_eq_bind, Option.bind_some] at hdel
  split_ifs at hdel
  · cases hdel
    exact ⟨ar, L, har, h⟩
  · cases hdel
    exact ⟨ar, L, har, h⟩
  rw [setRt_an_rtlist, ← Rtable.without] at hdel
  simp only [Option.bind_eq_some_iff] at hdel
  obtain ⟨-, -, hdel⟩ := hdel
  cases hl : (st.without n rt).an_rtlist n.ptr with
  | cons r rest =>
    rw [hl] at hdel
    simp only [Option.pure_def] at hdel
    split_ifs at hdel
    · cases hdel
      exact ⟨ar, L, har, by simpa using hown.headed hn hroutes hl false⟩
    · cases hdel
      refine ⟨ar, L, har, ?_⟩
      -- a route that is one of many keeps its flag
      have hid := hown.headed hn hroutes hl true
      simpa [Rtable.setRt] using hid
  | nil =>
    rw [hl] at hdel
    have hdst : SamePrefix (satoaddr ar ((st.without n rt).an_dst n.ptr)) n.key n.an_plen := hown.dst n hn
    obtain ⟨br, hbr, hk, hL⟩ := h.holds.delete (Finset.mem_coe.mpr hn)
    rw [← h.holds.wf.art_delete_congr hdst] at hbr
    simp only [hbr, Option.bind_some, Option.pure_def, Option.some.injEq, Prod.mk.injEq] at hdel
    obtain ⟨rfl, -⟩ := hdel
    exact ⟨br, L.erase n, rfl, hown.removed hn hroutes hk hL⟩

end Delete

/-- What can be done to a routing table. The pool hands out nodes that are not in use,
a route is inserted while it is in no list and deleted while it is in one, and the rest of
the kernel leaves the node and the destination of the routes in the table alone. -/
inductive Step (st : Rtable) : Rtable → Prop
  | insert {dst : List UInt8} {mask : Option (List UInt8)} {prio rt : ℕ} {node : Option ℕ}
      {mem : ℕ → Bool} {msk : Bool} {st' : Rtable} {e : Option Errno} :
      (∀ p, node = some p → p ∉ st.an_pool) → ¬ InTable st rt →
      ¬ CopyFails st dst mask node mem msk →
      rtable_insert st dst mask prio rt node mem msk = some (st', e) → Step st st'
  | delete {dst : List UInt8} {mask : Option (List UInt8)} {rt : ℕ} {st' : Rtable}
      {e : Option Errno} : InTable st rt → rtable_delete st dst mask rt = some (st', e) →
      Step st st'
  | other {rt : ℕ → Rtentry} : (∀ r, InTable st r → (rt r).rt_node = (st.rt r).rt_node ∧
      (rt r).rt_dest = (st.rt r).rt_dest) → Step st { st with rt := rt }

/-- The routing tables there can be before any copy of a mask has failed. -/
inductive Reached : Rtable → Prop
  | absent {st : Rtable} : st.ar = none → Reached st
  | attached {off : ℕ} {mem : ℕ → Bool} {ar : Root} {st : Rtable} :
      art_attach off mem = some (some ar) → st.ar = some ar → st.an_pool = ∅ → Reached st
  | step {st st' : Rtable} : Reached st → Step st st' → Reached st'

theorem sound_attached {off : ℕ} {mem : ℕ → Bool} {ar : Root} {st : Rtable}
    (h : art_attach off mem = some (some ar)) (hpool : st.an_pool = ∅) : Sound st ar ∅ := by
  have hholds : Holds ar ((∅ : Finset Node) : Set Node) := by
    simpa using art_attach_holds h
  exact ⟨⟨hholds, by simp [hpool], by simp, by simp, by simp, by simp⟩, by simp⟩

theorem Step.sound {st st' : Rtable} (h : Step st st')
    (hst : ∀ ar, st.ar = some ar → ∃ L, Sound st ar L) :
    ∀ ar, st'.ar = some ar → ∃ L, Sound st' ar L := by
  intro cr hcr
  cases h with
  | @insert dst mask prio rt node mem msk _ e hp hrt hcopy hins =>
    cases har : st.ar with
    | none =>
      simp only [rtable_insert, har, Option.some.injEq, Prod.mk.injEq] at hins
      obtain ⟨rfl, -⟩ := hins
      exact hst cr hcr
    | some ar =>
      cases hlen : satoplen ar mask with
      | none =>
        simp only [rtable_insert, har, hlen, Option.some.injEq, Prod.mk.injEq] at hins
        obtain ⟨rfl, -⟩ := hins
        exact hst cr hcr
      | some plen =>
        cases node with
        | none =>
          simp only [rtable_insert, har, hlen, Option.some.injEq, Prod.mk.injEq] at hins
          obtain ⟨rfl, -⟩ := hins
          exact hst cr hcr
        | some p =>
          obtain ⟨L, hL⟩ := hst ar har
          obtain ⟨br, hbr, -, ⟨-, -, hS, -⟩ | ⟨-, hm, hk, hs, -⟩ | ⟨-, -, hS⟩⟩ :=
            hL.insert_cases har hlen (hp p rfl) hins
          · obtain rfl := Option.some.inj (hbr.symm.trans hcr)
            exact ⟨L, hS⟩
          · exact absurd ⟨hm, hk, by simp, ar, plen, har, hlen, hs⟩ hcopy
          · obtain rfl := Option.some.inj (hbr.symm.trans hcr)
            exact hS hrt
  | @delete dst mask rt _ e hrt hdel =>
    cases har : st.ar with
    | none =>
      simp only [rtable_delete, har, Option.bind_eq_bind, Option.bind_eq_some_iff,
        Option.pure_def, Option.some.injEq, Prod.mk.injEq] at hdel
      obtain ⟨-, -, rfl, -⟩ := hdel
      exact hst cr hcr
    | some ar =>
      obtain ⟨L, hL⟩ := hst ar har
      obtain ⟨br, L', hbr, hS⟩ := hL.delete har hrt hdel
      obtain rfl := Option.some.inj (hbr.symm.trans hcr)
      exact ⟨L', hS⟩
  | other hsame =>
    obtain ⟨L, hL⟩ := hst cr hcr
    refine ⟨L, ⟨hL.holds, hL.pool, hL.inj, hL.nodup, fun n hn r hr => ?_, hL.dst⟩, hL.routes⟩
    obtain ⟨hnode, hdest⟩ := hsame r (hL.inTable_iff.mpr ⟨n, hn, hr⟩)
    rw [hnode, hdest]
    exact hL.owner n hn r hr

theorem Reached.sound {st : Rtable} (h : Reached st) :
    ∀ ar, st.ar = some ar → ∃ L, Sound st ar L := by
  induction h with
  | absent hnone => intro ar har; simp [hnone] at har
  | attached hatt har0 hpool =>
    intro ar har
    obtain rfl := Option.some.inj (har0.symm.trans har)
    exact ⟨∅, sound_attached hatt hpool⟩
  | step _ hs ih => exact hs.sound ih

theorem Reached.undone_refl {st : Rtable} (h : Reached st) : Undone st st := by
  refine ⟨fun _ _ => rfl, fun _ => rfl, fun _ => Iff.rfl, fun ar n har hn => ?_⟩
  obtain ⟨L, hL⟩ := h.sound ar har
  exact hL.ptr_mem (Finset.mem_coe.mp (hL.holds.inHeap_iff.mp hn))

/-- An insertion that returns an error leaves every answer as it was and no freed node in
the tree, unless it is the copy of the mask that failed. -/
theorem rtable_insert_undone {st st' : Rtable} {dst : List UInt8} {mask : Option (List UInt8)}
    {prio rt : ℕ} {node : Option ℕ} {mem : ℕ → Bool} {msk : Bool} {e : Errno} (h : Reached st)
    (hp : ∀ p, node = some p → p ∉ st.an_pool)
    (hins : rtable_insert st dst mask prio rt node mem msk = some (st', some e)) :
    Undone st st' ↔ ¬ CopyFails st dst mask node mem msk := by
  have hearly : ∀ e' : Errno, rtable_insert st dst mask prio rt node mem msk = some (st, some e') →
      Undone st st' := by
    intro e' hsame
    rw [hsame, Option.some.injEq, Prod.mk.injEq] at hins
    exact hins.1 ▸ h.undone_refl
  cases har : st.ar with
  | none =>
    refine ⟨fun _ => ?_, fun _ => hearly .EAFNOSUPPORT (by simp [rtable_insert, har])⟩
    rintro ⟨-, -, -, ar, -, har', -⟩
    simp [har] at har'
  | some ar =>
    cases hlen : satoplen ar mask with
    | none =>
      refine ⟨fun _ => ?_, fun _ => hearly .EINVAL (by simp [rtable_insert, har, hlen])⟩
      rintro ⟨-, -, -, ar', plen, har', hlen', -⟩
      obtain rfl := Option.some.inj (har.symm.trans har')
      simp [hlen] at hlen'
    | some plen =>
      cases node with
      | none =>
        refine ⟨fun _ => ?_, fun _ => hearly .ENOBUFS (by simp [rtable_insert, har, hlen])⟩
        exact fun hc => hc.2.2.1 rfl
      | some p =>
        obtain ⟨L, hL⟩ := h.sound ar har
        obtain ⟨br, hbr, hk, ⟨-, hsup, hS, hlist, hdst⟩ | ⟨-, hm, hmsk, hsup, n, hn, hfree⟩ |
            ⟨hnone, -⟩⟩ := hL.insert_cases har hlen (hp p rfl) hins
        · refine ⟨fun _ => ?_, fun _ => hL.toOwned.undone har hS.toOwned hbr hk hlist hdst⟩
          rintro ⟨-, -, -, ar', plen', har', hlen', hsup'⟩
          obtain rfl := Option.some.inj (har.symm.trans har')
          obtain rfl := Option.some.inj (hlen.symm.trans hlen')
          exact hsup hsup'
        · refine ⟨fun hu => absurd (hu.live br n hbr hn) hfree, fun hc => ?_⟩
          exact absurd ⟨hm, hmsk, by simp, ar, plen, har, hlen, hsup⟩ hc
        · cases hnone

/-- The bytes of the destination and of the mask. -/
def tenDst : List UInt8 := [16, 2, 0, 0, 10, 0, 0, 0, 0, 0, 0, 0, 0, 0, 0, 0]

def tenMask : List UInt8 := [7, 0, 0, 0, 255, 255, 255]

def freshTable : Option Rtable :=
  (art_attach 4 fun _ => true).join.map fun ar =>
    ⟨some ar, fun _ => [], fun _ => [], fun _ => ⟨0, false, 0, none, [], none⟩, ∅⟩

theorem reached_freshTable {st : Rtable} (h : freshTable = some st) : Reached st ∧ st.an_pool = ∅ := by
  obtain ⟨ar, har, rfl⟩ := Option.map_eq_some_iff.mp h
  exact ⟨.attached (Option.join_eq_some_iff.mp har) rfl rfl, rfl⟩

theorem rtable_insert_undone_tables : ∃ st st', Reached st ∧
    rtable_insert st tenDst (some tenMask) 8 0 (some 1) (fun _ => false) true =
      some (st', some .ESRCH) ∧ Undone st st' := by
  have hrun : (freshTable.bind fun st => (rtable_insert st tenDst (some tenMask) 8 0 (some 1)
      (fun _ => false) true).map Prod.snd) = some (some .ESRCH) := by decide
  obtain ⟨st, hst, hrun⟩ := Option.bind_eq_some_iff.mp hrun
  obtain ⟨⟨st', e⟩, hins, he⟩ := Option.map_eq_some_iff.mp hrun
  obtain rfl : e = some .ESRCH := he
  obtain ⟨hr, hpool⟩ := reached_freshTable hst
  refine ⟨st, st', hr, hins, (rtable_insert_undone hr (by simp [hpool]) hins).mpr ?_⟩
  rintro ⟨-, hmsk, -⟩
  cases hmsk

/-- Without memory for the mask the node is back in the pool and in the tree. -/
theorem freed_node_reachable : ∃ st st', Reached st ∧
    rtable_insert st tenDst (some tenMask) 8 0 (some 1) (fun _ => true) false =
      some (st', some .ENOMEM) ∧
    (∃ ar n, st'.ar = some ar ∧ InHeap ar n ∧ n.ptr ∉ st'.an_pool) ∧ ¬ Undone st st' := by
  have hrun : (freshTable.bind fun st => (rtable_insert st tenDst (some tenMask) 8 0 (some 1)
      (fun _ => true) false).map fun x => (x.2, x.1.an_pool, x.1.ar.bind fun ar =>
        (ar.tables 1).map fun a => (a.at_minfringe, a.at_heap 256))) =
      some (some .ENOMEM, ∅, some (256, .node (some ⟨1, tenDst.drop 4, 24⟩))) := by decide
  obtain ⟨st, hst, hrun⟩ := Option.bind_eq_some_iff.mp hrun
  obtain ⟨⟨st', e⟩, hins, he⟩ := Option.map_eq_some_iff.mp hrun
  simp only [Prod.mk.injEq] at he
  obtain ⟨rfl, hpool, hheap⟩ := he
  obtain ⟨ar, har, hheap⟩ := Option.bind_eq_some_iff.mp hheap
  obtain ⟨a, ha, hheap⟩ := Option.map_eq_some_iff.mp hheap
  simp only [Prod.mk.injEq] at hheap
  have hin : InHeap ar ⟨1, tenDst.drop 4, 24⟩ :=
    ⟨1, a, 256, ha, by omega, by omega, hheap.2⟩
  have hfree : (⟨1, tenDst.drop 4, 24⟩ : Node).ptr ∉ st'.an_pool := by simp [hpool]
  exact ⟨st, st', (reached_freshTable hst).1, hins, ⟨ar, _, har, hin, hfree⟩,
    fun hu => hfree (hu.live ar _ har hin)⟩

end OpenbsdKernel.Rt
