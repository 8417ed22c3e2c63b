import OpenbsdKernel.Net.Art.Walk
import OpenbsdKernel.Net.Art.Match
import OpenbsdKernel.Net.Rtable.Basic

/-!
# Failing insertions

`rtable_insert` can fail before the tree is touched, inside `art_insert`, and when the
mask is copied. The first two leave the routes as they were. The last one gives the
node back to the pool while the tree still points to it, be it a new node or one that
other routes share.
-/
namespace OpenbsdKernel.Rt

open Art

/-- A route entry in the list of some node that the pool has handed out. -/
def InTable (st : Rtable) (rt : ℕ) : Prop := ∃ p ∈ st.an_pool, rt ∈ st.an_rtlist p

/-- A routing table that holds the nodes `L`: these are the nodes handed out, and the
routes in their lists belong to them. -/
structure Owned (st : Rtable) (ar : Root) (L : Finset Node) : Prop where
  holds : Holds ar L
  pool : st.an_pool = L.image Node.ptr
  inj : ∀ n ∈ L, ∀ m ∈ L, n.ptr = m.ptr → n = m
  nodup : ∀ n ∈ L, (st.an_rtlist n.ptr).Nodup
  owner : ∀ n ∈ L, ∀ r ∈ st.an_rtlist n.ptr, (st.rt r).rt_node = some n ∧
    SamePrefix (satoaddr ar (st.rt r).rt_dest) n.key n.an_plen
  dst : ∀ n ∈ L, SamePrefix (satoaddr ar (st.an_dst n.ptr)) n.key n.an_plen

/-- Every node has routes as well. -/
structure Sound (st : Rtable) (ar : Root) (L : Finset Node) : Prop extends Owned st ar L where
  routes : ∀ n ∈ L, st.an_rtlist n.ptr ≠ []

/-- The routes that `rtable_walk` calls a function on that never fails. -/
def Walked (st : Rtable) (r : ℕ) : Prop :=
  ∃ e l, rtable_walk st (fun r l => (0, l ++ [r])) [] = some (e, l) ∧ r ∈ l

/-- The second table answers as the first, and its tree points to no freed node. -/
structure Undone (st st' : Rtable) : Prop where
  lookup : ∀ dst mask, rtable_lookup st' dst mask = rtable_lookup st dst mask
  matched : ∀ dst, rtable_match st' dst = rtable_match st dst
  walk : ∀ r, Walked st' r ↔ Walked st r
  live : ∀ ar n, st'.ar = some ar → InHeap ar n → n.ptr ∈ st'.an_pool

@[simp] theorem setRt_ar (st : Rtable) (r : ℕ) (f : Rtentry → Rtentry) :
    (st.setRt r f).ar = st.ar := rfl

@[simp] theorem setRt_an_dst (st : Rtable) (r : ℕ) (f : Rtentry → Rtentry) :
    (st.setRt r f).an_dst = st.an_dst := rfl

@[simp] theorem setRt_an_rtlist (st : Rtable) (r : ℕ) (f : Rtentry → Rtentry) :
    (st.setRt r f).an_rtlist = st.an_rtlist := rfl

@[simp] theorem setRt_an_pool (st : Rtable) (r : ℕ) (f : Rtentry → Rtentry) :
    (st.setRt r f).an_pool = st.an_pool := rfl

@[simp] theorem setRt_rt (st : Rtable) (r q : ℕ) (f : Rtentry → Rtentry) :
    (st.setRt r f).rt q = if q = r then f (st.rt r) else st.rt q := by
  simp [Rtable.setRt, Function.update_apply]

@[simp] theorem setList_ar (st : Rtable) (p : ℕ) (l : List ℕ) : (st.setList p l).ar = st.ar := rfl

@[simp] theorem setList_an_dst (st : Rtable) (p : ℕ) (l : List ℕ) :
    (st.setList p l).an_dst = st.an_dst := rfl

@[simp] theorem setList_rt (st : Rtable) (p : ℕ) (l : List ℕ) : (st.setList p l).rt = st.rt := rfl

@[simp] theorem setList_an_pool (st : Rtable) (p : ℕ) (l : List ℕ) :
    (st.setList p l).an_pool = st.an_pool := rfl

@[simp] theorem setList_an_rtlist (st : Rtable) (p q : ℕ) (l : List ℕ) :
    (st.setList p l).an_rtlist q = if q = p then l else st.an_rtlist q := by
  simp [Rtable.setList, Function.update_apply]

theorem walkRoutes_collect (rs l : List ℕ) :
    walkRoutes (fun r l => (0, l ++ [r])) rs l = (0, l ++ rs) := by
  induction rs generalizing l with
  | nil => simp [walkRoutes]
  | cons r rs ih => simp [walkRoutes, ih]

/-- A node of another length is no perfect match, and one of this length is the same. -/
theorem perfectMatch_congr {st st' : Rtable} {dst : List UInt8} {plen : ℕ} {o o' : Option Node}
    (hiff : ∀ n, o = some n ∧ n.an_plen = plen ↔ o' = some n ∧ n.an_plen = plen)
    (hsame : ∀ n, o = some n → n.an_plen = plen → st.an_dst n.ptr = st'.an_dst n.ptr ∧
      firstRoute st (some n) = firstRoute st' (some n)) :
    perfectMatch st dst plen o = perfectMatch st' dst plen o' := by
  have hnone : ∀ (o : Option Node) (s : Rtable), (¬ ∃ n, o = some n ∧ n.an_plen = plen) →
      perfectMatch s dst plen o = some none := by
    intro o s ho
    cases o with
    | none => rfl
    | some n =>
      have hn : n.an_plen ≠ plen := fun e => ho ⟨n, rfl, e⟩
      simp [perfectMatch, hn]
  by_cases ho : ∃ n, o = some n ∧ n.an_plen = plen
  · obtain ⟨n, rfl, hn⟩ := ho
    obtain ⟨rfl, -⟩ := (hiff n).mp ⟨rfl, hn⟩
    obtain ⟨hd, hf⟩ := hsame n rfl hn
    simp only [perfectMatch, hd, hf]
  · have ho' : ¬ ∃ n, o' = some n ∧ n.an_plen = plen := by
      rintro ⟨n, hn⟩
      exact ho ⟨n, (hiff n).mpr hn⟩
    rw [hnone o st ho, hnone o' st' ho']

section Sound
variable {st st' : Rtable} {ar ar' : Root} {L : Finset Node}

theorem Owned.ptr_mem (h : Owned st ar L) {n : Node} (hn : n ∈ L) : n.ptr ∈ st.an_pool := by
  rw [h.pool]
  exact Finset.mem_image_of_mem _ hn

theorem Owned.inTable_iff (h : Owned st ar L) {rt : ℕ} :
    InTable st rt ↔ ∃ n ∈ L, rt ∈ st.an_rtlist n.ptr := by
  rw [InTable, h.pool]
  simp

theorem Owned.walked_iff (h : Owned st ar L) (har : st.ar = some ar) {r : ℕ} :
    Walked st r ↔ InTable st r := by
  obtain ⟨calls, -, hmem, hwalk⟩ := h.holds.walk
  have hfold : ∀ (ns : List Node) (l : List ℕ),
      ns.foldl (fun l n => (walkRoutes (fun r l => (0, l ++ [r])) (st.an_rtlist n.ptr) l).2) l =
        l ++ ns.flatMap fun n => st.an_rtlist n.ptr := by
    intro ns
    induction ns with
    | nil => simp
    | cons n ns ih =>
      intro l
      rw [List.foldl_cons, walkRoutes_collect, ih, List.flatMap_cons, List.append_assoc]
  have hrun : rtable_walk st (fun r l => (0, l ++ [r])) [] =
      some (some 0, calls.flatMap fun n => st.an_rtlist n.ptr) := by
    have hcalls := hwalk _ (fun n => walkRoutes (fun r l => (0, l ++ [r])) (st.an_rtlist n.ptr)) []
      fun n l => by rw [walkRoutes_collect]
    rw [hfold] at hcalls
    simp [rtable_walk, har, hcalls]
  rw [h.inTable_iff, Walked]
  constructor
  · rintro ⟨e, l, hl, hr⟩
    rw [hrun, Option.some.injEq, Prod.mk.injEq] at hl
    obtain ⟨-, rfl⟩ := hl
    obtain ⟨n, hn, hrn⟩ := List.mem_flatMap.mp hr
    exact ⟨n, Finset.mem_coe.mp ((hmem n).mp hn), hrn⟩
  · rintro ⟨n, hn, hrn⟩
    exact ⟨_, _, hrun, List.mem_flatMap.mpr ⟨n, (hmem n).mpr (Finset.mem_coe.mpr hn), hrn⟩⟩

theorem Owned.undone (h : Owned st ar L) (har : st.ar = some ar) (h' : Owned st' ar' L)
    (har' : st'.ar = some ar') (hk : Kept ar ar')
    (hlist : ∀ n ∈ L, st'.an_rtlist n.ptr = st.an_rtlist n.ptr)
    (hdst : ∀ n ∈ L, st'.an_dst n.ptr = st.an_dst n.ptr) : Undone st st' := by
  have hoff : ∀ sa, satoaddr ar' sa = satoaddr ar sa := by
    intro sa
    rw [satoaddr, satoaddr, hk.off]
  have hplen : ∀ mask, satoplen ar' mask = satoplen ar mask := by
    intro mask
    cases mask <;> simp [satoplen, hk.off, hk.alen]
  have hfirst : ∀ n ∈ L, firstRoute st' (some n) = firstRoute st (some n) := by
    intro n hn
    rw [firstRoute, firstRoute, hlist n hn]
  have hmatch : ∀ x, ∃ r, art_match ar x = some r ∧ art_match ar' x = some r ∧
      ∀ n, r = some n → n ∈ L := by
    intro x
    obtain ⟨r, hr, hlr⟩ := h.holds.matched x
    obtain ⟨q, hq, hlq⟩ := h'.holds.matched x
    obtain rfl := h.holds.longest_unique hlr hlq
    refine ⟨r, hr, hq, ?_⟩
    rintro n rfl
    exact Finset.mem_coe.mp hlr.1
  refine ⟨fun dst mask => ?_, fun dst => ?_, fun r => ?_, fun br n hbr hn => ?_⟩
  · simp only [rtable_lookup, har, har', hoff, hplen]
    cases mask with
    | none =>
      obtain ⟨r, hr, hr', hL⟩ := hmatch (satoaddr ar dst)
      simp only [hr, hr', Option.bind_eq_bind, Option.bind_some]
      cases r with
      | none => rfl
      | some n => exact hfirst n (hL n rfl)
    | some m =>
      cases hp : satoplen ar (some m) with
      | none => rfl
      | some plen =>
        by_cases hle : plen ≤ ar.ar_alen
        · obtain ⟨r, hr, hfound⟩ := h.holds.looked_up (satoaddr ar dst) hle
          obtain ⟨q, hq, hfound'⟩ := h'.holds.looked_up (satoaddr ar dst) (hk.alen ▸ hle)
          simp only [hr, hq, Option.bind_eq_bind, Option.bind_some]
          refine perfectMatch_congr (fun n => (hfound' n).trans (hfound n).symm) fun n hn hlen => ?_
          have hnL := Finset.mem_coe.mp ((hfound' n).mp ⟨hn, hlen⟩).1
          exact ⟨hdst n hnL, hfirst n hnL⟩
        · have hbig : ∀ (cr : Root), cr.ar_alen = ar.ar_alen →
              art_lookup cr (satoaddr ar dst) plen = none := by
            intro cr hcr
            simp [art_lookup, guard, hcr, hle]
          simp [hbig ar rfl, hbig ar' hk.alen]
  · simp only [rtable_match, har, har', hoff]
    obtain ⟨r, hr, hr', hL⟩ := hmatch (satoaddr ar dst)
    simp only [hr, hr', Option.bind_eq_bind, Option.bind_some]
    cases r with
    | none => rfl
    | some n => exact hfirst n (hL n rfl)
  · rw [h'.walked_iff har', h.walked_iff har, h'.inTable_iff, h.inTable_iff]
    exact exists_congr fun n => and_congr_right fun hn => by rw [hlist n hn]
  · obtain rfl : ar' = br := Option.some.inj (har'.symm.trans hbr)
    exact h'.ptr_mem (Finset.mem_coe.mp (h'.holds.inHeap_iff.mp hn))

end Sound

end OpenbsdKernel.Rt
