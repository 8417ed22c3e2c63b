import OpenbsdKernel.Netinet.Replay.Basic

/-!
# Runs of the anti-replay window

Histories of committed calls on one SA, with the extended numbers accepted. The map forgets
numbers of the window when it is shortened, and when the numbers wrap, since `2 ^ 32` is no
multiple of `TDB_REPLAYMAX`; there a word of the map can also keep marks of the lap before.
-/
namespace OpenbsdKernel.IpEsp

section Place

variable {a b n r s : ℕ}

def place (n : ℕ) : ℕ := n % 2 ^ 32 % 2132

theorem word_eq (n : ℕ) : word n = place n / 32 := rfl

theorem place_lt (n : ℕ) : place n < 2132 := Nat.mod_lt _ (by norm_num)

/-- Two numbers not far apart are in one lap, in two laps of one subspace, or on the two
sides of a multiple of `2 ^ 32`. -/
theorem place_near (hle : a ≤ b) (hnear : b < a + 2112) :
    (b / 2 ^ 32 = a / 2 ^ 32 ∧
        (place b = place a + (b - a) ∨ place b + 2132 = place a + (b - a))) ∨
      (b / 2 ^ 32 = a / 2 ^ 32 + 1 ∧ place b + 2128 = place a + (b - a) ∧ place a < 2128) := by
  simp only [place]
  by_cases hsub : b / 2 ^ 32 = a / 2 ^ 32
  · left
    refine ⟨hsub, ?_⟩
    have hlap : b % 2 ^ 32 / 2132 = a % 2 ^ 32 / 2132 ∨
        b % 2 ^ 32 / 2132 = a % 2 ^ 32 / 2132 + 1 := by omega
    omega
  · right
    have hsub' : b / 2 ^ 32 = a / 2 ^ 32 + 1 := by omega
    -- `2 ^ 32 = 2132 * 2014524 + 2128`
    have hla : a % 2 ^ 32 / 2132 = 2014524 := by omega
    have hlb : b % 2 ^ 32 / 2132 = 0 := by omega
    omega

theorem near_of_word_eq (hle : a ≤ b) (hnear : b ≤ a + 2100) (hsub : a / 2 ^ 32 = b / 2 ^ 32)
    (hw : word a = word b) : b < a + 32 := by
  have hplace := place_near hle (by omega)
  simp only [word_eq] at hw
  omega

theorem eq_of_bit (hab : a < b + 2112) (hba : b < a + 2112) (hw : word a = word b)
    (hb : a % 32 = b % 32) : a = b := by
  simp only [word_eq] at hw
  obtain hle | hle := le_total a b
  · have hplace := place_near hle hba
    omega
  · have hplace := place_near hle hab
    omega

theorem word_bounds (n : ℕ) :
    32 * word n ≤ place n ∧ place n < 32 * word n + 32 ∧ place n < 2132 := by
  have := place_lt n
  rw [word_eq]
  omega

theorem cleared_word (hle : n ≤ r) (hlt : r < s) (hin : s < n + 2100)
    (hpos : 0 < cyc (word r) (word n)) (hclear : cyc (word r) (word n) ≤ cyc (word r) (word s)) :
    n / 2 ^ 32 < s / 2 ^ 32 ∧ word n = word s ∧ word r ≠ word s := by
  have hsize : SEEN_SIZE = 67 := rfl
  have hn := word_bounds n
  have hr := word_bounds r
  have hs := word_bounds s
  have h1 := place_near hle (by omega)
  have h2 := place_near hlt.le (by omega)
  have hcn := cyc_add (word_lt r) (word_lt n)
  have hcs := cyc_add (word_lt r) (word_lt s)
  generalize n / 2 ^ 32 = qn at *
  generalize r / 2 ^ 32 = qr at *
  generalize s / 2 ^ 32 = qs at *
  obtain ⟨hq1, h1 | h1⟩ | ⟨hq1, h1, -⟩ := h1 <;> obtain ⟨hq2, h2 | h2⟩ | ⟨hq2, h2, -⟩ := h2 <;>
    obtain ⟨hcn, hcn'⟩ | ⟨hcn, hcn'⟩ := hcn <;> obtain ⟨hcs, hcs'⟩ | ⟨hcs, hcs'⟩ := hcs
  all_goals omega

/-- The loop clears every word it passes, unless it makes a whole lap. -/
theorem passed_word (hlt : r < n) (hle : n ≤ s) (hin : s ≤ r + 2100)
    (hlap : word r = word s → r / 2 ^ 32 = s / 2 ^ 32) :
    (0 < cyc (word r) (word n) ∧ cyc (word r) (word n) ≤ cyc (word r) (word s)) ∨
      (word r = word n ∧ r / 2 ^ 32 = n / 2 ^ 32) := by
  have hsize : SEEN_SIZE = 67 := rfl
  have hn := word_bounds n
  have hr := word_bounds r
  have hs := word_bounds s
  have h1 := place_near hlt.le (by omega)
  have h2 := place_near hle (by omega)
  have hcn := cyc_add (word_lt r) (word_lt n)
  have hcs := cyc_add (word_lt r) (word_lt s)
  generalize n / 2 ^ 32 = qn at *
  generalize r / 2 ^ 32 = qr at *
  generalize s / 2 ^ 32 = qs at *
  obtain ⟨hq1, h1 | h1⟩ | ⟨hq1, h1, h1'⟩ := h1 <;> obtain ⟨hq2, h2 | h2⟩ | ⟨hq2, h2, h2'⟩ := h2 <;>
    obtain ⟨hcn, hcn'⟩ | ⟨hcn, hcn'⟩ := hcn <;> obtain ⟨hcs, hcs'⟩ | ⟨hcs, hcs'⟩ := hcs
  all_goals omega

end Place

/-- Histories of committed calls on a new SA whose calls all satisfy `P`, with the extended
numbers that were accepted. -/
inductive Received (esn : Bool) (P : Tdb → BitVec 32 → Prop) : Tdb → List ℕ → Prop
  | start : Received esn P (Tdb.initial esn) []
  | accept {tdb tdb' acc seq seqh} (h : Received esn P tdb acc) (hP : P tdb seq)
      (hcall : checkreplaywindow tdb seq true = some ⟨0, some seqh, tdb'⟩) :
      Received esn P tdb' ((seqh.toNat * 2 ^ 32 + seq.toNat) :: acc)
  | reject {tdb tdb' acc seq ret seqh} (h : Received esn P tdb acc) (hP : P tdb seq)
      (hcall : checkreplaywindow tdb seq true = some ⟨ret, seqh, tdb'⟩) (hret : ret ≠ 0) :
      Received esn P tdb' acc

def receive (s : Tdb × List ℕ) (seq : BitVec 32) : Option (Tdb × List ℕ) := do
  let v ← checkreplaywindow s.1 seq true
  if v.ret ≠ 0 then some (v.tdb, s.2)
  else v.seqh.map fun seqh => (v.tdb, (seqh.toNat * 2 ^ 32 + seq.toNat) :: s.2)

theorem Received.receive {esn : Bool} {P : Tdb → BitVec 32 → Prop} {s s' : Tdb × List ℕ}
    {seq : BitVec 32} (h : Received esn P s.1 s.2) (hP : P s.1 seq) (hs : receive s seq = some s') :
    Received esn P s'.1 s'.2 := by
  rw [IpEsp.receive, Option.bind_eq_bind, Option.bind_eq_some_iff] at hs
  obtain ⟨⟨ret, seqh, tdb⟩, hcall, hs⟩ := hs
  split at hs
  · next hret =>
    cases hs
    exact .reject h hP hcall hret
  · next hret =>
    obtain ⟨x, rfl, rfl⟩ := Option.map_eq_some_iff.1 hs
    have h0 : ret = 0 := by simpa using hret
    subst h0
    exact .accept h hP hcall

theorem Received.receiveAll {esn : Bool} (calls : List (BitVec 32)) : ∀ {s s' : Tdb × List ℕ},
    Received esn (fun _ _ => True) s.1 s.2 → calls.foldlM IpEsp.receive s = some s' →
    Received esn (fun _ _ => True) s'.1 s'.2 := by
  induction calls with
  | nil =>
    intro s s' h hs
    cases hs
    exact h
  | cons seq calls ih =>
    intro s s' h hs
    rw [List.foldlM_cons, Option.bind_eq_bind, Option.bind_eq_some_iff] at hs
    obtain ⟨t, ht, hs⟩ := hs
    exact ih (h.receive trivial ht) hs

section Step

variable {esn : Bool} {tdb tdb' : Tdb} {acc : List ℕ} {seq : BitVec 32} {n : ℕ}

/-- What every history keeps: the right edge is the greatest number accepted. -/
structure Edge (esn : Bool) (tdb : Tdb) (acc : List ℕ) : Prop where
  flag : tdb.esn = esn
  pos : 1 ≤ tdb.tdb_rpl.toNat
  low : tdb.esn = false → tdb.tdb_rpl.toNat < 2 ^ 32
  le : ∀ n ∈ acc, 0 < n ∧ n ≤ tdb.tdb_rpl.toNat

inductive Accepts (tdb : Tdb) (seq : BitVec 32) : Tdb → Prop
  | late (hle : tdb.number seq ≤ tdb.tdb_rpl.toNat) (hnew : ¬ Marked tdb.tdb_seen (tdb.number seq)) :
      Accepts tdb seq { tdb with tdb_seen := mark tdb.tdb_seen seq }
  | ahead {tdb_seen} (hlt : tdb.tdb_rpl.toNat < tdb.number seq)
      (hin : tdb.number seq < 2 ^ (if tdb.esn then 64 else 32))
      (hclear : Cleared tdb (tdb.number seq) tdb_seen) :
      Accepts tdb seq ⟨tdb.esn, BitVec.ofNat 64 (tdb.number seq), mark tdb_seen seq⟩

theorem Edge.accepts {seqh : BitVec 32} (h : Edge esn tdb acc)
    (hcall : checkreplaywindow tdb seq true = some ⟨0, some seqh, tdb'⟩) :
    seqh.toNat * 2 ^ 32 + seq.toNat = tdb.number seq ∧ Accepts tdb seq tdb' := by
  obtain ⟨v, hv, hcom⟩ := checkreplaywindow_commit seq h.pos h.low
  have hmod := tdb.number_mod seq
  rw [hcall] at hv
  cases hv
  cases hcom with
  | zero hret _ _ => exact absurd rfl hret
  | outside hret _ => exact absurd rfl hret
  | replayed hret _ _ => exact absurd rfl hret
  | late hle hnew hseqh => exact ⟨by omega, .late hle hnew⟩
  | ahead hlt hin hseqh hclear => exact ⟨by omega, .ahead hlt hin hclear⟩

theorem Edge.rejects {ret : ℕ} {seqh : Option (BitVec 32)} (h : Edge esn tdb acc)
    (hcall : checkreplaywindow tdb seq true = some ⟨ret, seqh, tdb'⟩) (hret : ret ≠ 0) :
    tdb' = tdb := by
  obtain ⟨v, hv, hcom⟩ := checkreplaywindow_commit seq h.pos h.low
  rw [hcall] at hv
  cases hv
  cases hcom with
  | zero _ _ _ => rfl
  | outside _ _ => rfl
  | replayed _ _ _ => rfl
  | late _ _ _ => exact absurd rfl hret
  | ahead _ _ _ _ => exact absurd rfl hret

theorem ahead_toNat (hin : tdb.number seq < 2 ^ (if tdb.esn then 64 else 32)) :
    (BitVec.ofNat 64 (tdb.number seq)).toNat = tdb.number seq := by
  rw [BitVec.toNat_ofNat]
  refine Nat.mod_eq_of_lt ?_
  cases he : tdb.esn with
  | true => simpa [he] using hin
  | false =>
    simp only [he, Bool.false_eq_true, if_false] at hin
    omega

theorem Edge.accept (h : Edge esn tdb acc) (hacc : Accepts tdb seq tdb') :
    Edge esn tdb' (tdb.number seq :: acc) := by
  cases hacc with
  | late hle _ =>
    refine ⟨h.flag, h.pos, h.low, fun n hn => ?_⟩
    obtain rfl | hn := List.mem_cons.1 hn
    · exact ⟨tdb.number_pos seq h.pos, hle⟩
    · exact h.le n hn
  | ahead hlt hin _ =>
    have hrpl := ahead_toNat hin
    refine ⟨h.flag, ?_, ?_, fun n hn => ?_⟩
    · simp only [hrpl]
      omega
    · intro he
      simp only at he
      simpa only [hrpl, he, Bool.false_eq_true, if_false] using hin
    · simp only [hrpl]
      obtain rfl | hn := List.mem_cons.1 hn
      · exact ⟨by omega, le_rfl⟩
      · exact ⟨(h.le n hn).1, (h.le n hn).2.trans hlt.le⟩

theorem Edge.start (esn : Bool) : Edge esn (Tdb.initial esn) [] :=
  ⟨rfl, le_rfl, fun _ => (by decide : (1 : ℕ) < 2 ^ 32), by simp⟩

theorem marked_cleared {s : ℕ} {tdb_seen : ℕ → BitVec 32} (hclear : Cleared tdb s tdb_seen) :
    Marked tdb_seen n ↔ Marked tdb.tdb_seen n ∧
      s - tdb.tdb_rpl.toNat ≤ min 2100 tdb.tdb_rpl.toNat ∧
      ¬ (0 < cyc (word tdb.tdb_rpl.toNat) (word n) ∧
        cyc (word tdb.tdb_rpl.toNat) (word n) ≤ cyc (word tdb.tdb_rpl.toNat) (word s)) := by
  rw [Marked, hclear (word n) (word_lt n)]
  split
  · next h =>
    simp only [BitVec.getLsbD_zero, Bool.false_eq_true, false_iff]
    rintro ⟨-, hle, hkept⟩
    exact hkept (h.resolve_left (by omega))
  · next h =>
    rw [not_or, gt_iff_lt, not_lt] at h
    exact ⟨fun hm => ⟨hm, h⟩, fun hm => hm.1⟩

end Step

/-- The call, with a number that the SA can count, moves the window and loses an accepted number that stays in it: either the window
is still short and the number is more than a window ahead, so that the whole map is cleared,
or the loop enters the word of the new number, in which numbers from before a multiple of
`2 ^ 32` are marked. -/
def Forgets (tdb : Tdb) (seq : BitVec 32) : Prop :=
  tdb.number seq < 2 ^ (if tdb.esn then 64 else 32) ∧
  ∃ n > 0, Marked tdb.tdb_seen n ∧ n ≤ tdb.tdb_rpl.toNat ∧ tdb.tdb_rpl.toNat < tdb.number seq ∧
    tdb.number seq < n + 2100 ∧
    ((tdb.tdb_rpl.toNat < 2100 ∧ 2 * tdb.tdb_rpl.toNat < tdb.number seq) ∨
      (n / 2 ^ 32 < tdb.number seq / 2 ^ 32 ∧ word n = word (tdb.number seq) ∧
        word tdb.tdb_rpl.toNat ≠ word (tdb.number seq)))

/-- The accepted numbers of the window are marked. -/
structure Remembers (esn : Bool) (tdb : Tdb) (acc : List ℕ) : Prop extends Edge esn tdb acc where
  marked : ∀ n ∈ acc, tdb.tdb_rpl.toNat < n + 2100 → Marked tdb.tdb_seen n
  nodup : acc.Nodup

theorem Remembers.accept {esn : Bool} {tdb tdb' : Tdb} {acc : List ℕ} {seq : BitVec 32}
    (h : Remembers esn tdb acc) (hkeep : ¬ Forgets tdb seq) (hacc : Accepts tdb seq tdb') :
    Remembers esn tdb' (tdb.number seq :: acc) := by
  refine ⟨h.toEdge.accept hacc, ?_, ?_⟩
  · cases hacc with
    | late hle _ =>
      intro n hn hin
      rw [marked_mark (tdb.number_mod seq)]
      obtain rfl | hn := List.mem_cons.1 hn
      · exact .inr ⟨rfl, rfl⟩
      · exact .inl (h.marked n hn hin)
    | ahead hlt hbound hclear =>
      intro n hn hin
      simp only [ahead_toNat hbound] at hin
      rw [marked_mark (tdb.number_mod seq)]
      obtain rfl | hn := List.mem_cons.1 hn
      · exact .inr ⟨rfl, rfl⟩
      obtain ⟨hpos, hle⟩ := h.le n hn
      have hm := h.marked n hn (by omega)
      refine .inl ((marked_cleared hclear).2 ⟨hm, ?_, ?_⟩)
      · by_contra hfar
        exact hkeep ⟨hbound, n, hpos, hm, hle, hlt, hin, .inl (by omega)⟩
      · rintro ⟨hbehind, hcyc⟩
        exact hkeep ⟨hbound, n, hpos, hm, hle, hlt, hin,
          .inr (cleared_word hle hlt hin hbehind hcyc)⟩
  · refine List.nodup_cons.2 ⟨fun hmem => ?_, h.nodup⟩
    cases hacc with
    | late _ hnew => exact hnew (h.marked _ hmem (tdb.lt_number seq h.pos))
    | ahead hlt _ _ => exact absurd (h.le _ hmem).2 (by omega)

theorem Received.remembers {esn : Bool} {tdb : Tdb} {acc : List ℕ}
    (h : Received esn (fun tdb seq => ¬ Forgets tdb seq) tdb acc) : Remembers esn tdb acc := by
  induction h with
  | start => exact ⟨Edge.start esn, by simp, List.nodup_nil⟩
  | accept _ hP hcall ih =>
    obtain ⟨hnum, hacc⟩ := ih.accepts hcall
    rw [hnum]
    exact ih.accept hP hacc
  | reject _ _ hcall hret ih =>
    rw [ih.rejects hcall hret]
    exact ih

/-- As long as no call loses a number of the window, none is accepted twice. -/
theorem accepted_once {esn : Bool} {tdb : Tdb} {acc : List ℕ}
    (h : Received esn (fun tdb seq => ¬ Forgets tdb seq) tdb acc) : acc.Nodup :=
  h.remembers.nodup

theorem accepted_once_two : ∃ tdb,
    Received false (fun tdb seq => ¬ Forgets tdb seq) tdb [2, 1] ∧ [2, 1].Nodup := by
  have hrun : ((receive (Tdb.initial false, []) 1#32).bind fun s => (receive s 2#32).map fun t =>
      (s.1.tdb_rpl, t.2)) = some (1#64, [2, 1]) := by decide +kernel
  obtain ⟨s, hs, hrun⟩ := Option.bind_eq_some_iff.1 hrun
  obtain ⟨⟨tdb, acc⟩, ht, heq⟩ := Option.map_eq_some_iff.1 hrun
  simp only [Prod.mk.injEq] at heq
  obtain ⟨hrpl, rfl⟩ := heq
  have h1 : ¬ Forgets (Tdb.initial false) 1#32 := by
    rintro ⟨-, n, -, -, -, hlt, -⟩
    exact absurd hlt (by decide)
  have h2 : ¬ Forgets s.1 2#32 := by
    rintro ⟨-, n, -, -, hle, -, -, h⟩
    simp only [Tdb.number, hrpl, extended] at hle h
    norm_num at h
  have hstart : Received false (fun tdb seq => ¬ Forgets tdb seq) (Tdb.initial false) [] := .start
  have hrec := (Received.receive (s := (Tdb.initial false, [])) hstart h1 hs).receive h2 ht
  exact ⟨tdb, hrec, accepted_once hrec⟩

/-- The numbers 1, 3 and 1 again are all accepted: with 3 the map of the shortened window is
cleared. -/
theorem replay_accepted : ¬ ∀ (esn : Bool) (tdb : Tdb) (acc : List ℕ),
    Received esn (fun _ _ => True) tdb acc → acc.Nodup := by
  intro h
  have hrun : ([1#32, 3#32, 1#32].foldlM receive (Tdb.initial false, [])).map Prod.snd =
      some [1, 3, 1] := by decide +kernel
  obtain ⟨s, hs, hacc⟩ := Option.map_eq_some_iff.1 hrun
  have hnodup := h false s.1 s.2 (Received.receiveAll _ Received.start hs)
  rw [hacc] at hnodup
  exact absurd hnodup (by decide)

/-- The number and the right edge are on two sides of a multiple of `2 ^ 32`, in the same word
of the map: a number behind the edge leaves its mark on one ahead of the edge, and for a number
ahead of the edge the loop ends at once, with the marks of the lap before. -/
def Stale (tdb : Tdb) (seq : BitVec 32) : Prop :=
  tdb.esn = true ∧ tdb.number seq < 2 ^ 64 ∧ tdb.number seq ≤ tdb.tdb_rpl.toNat + 2100 ∧
    tdb.number seq / 2 ^ 32 ≠ tdb.tdb_rpl.toNat / 2 ^ 32 ∧
    word (tdb.number seq) = word tdb.tdb_rpl.toNat

/-- No number of the window is marked before it was accepted, nor is one ahead of the right
edge in the same word. -/
structure Fresh (esn : Bool) (tdb : Tdb) (acc : List ℕ) : Prop extends Edge esn tdb acc where
  accepted : ∀ n ≤ tdb.tdb_rpl.toNat, tdb.tdb_rpl.toNat < n + 2100 → Marked tdb.tdb_seen n → n ∈ acc
  ahead : ∀ n, tdb.tdb_rpl.toNat < n → n / 2 ^ 32 = tdb.tdb_rpl.toNat / 2 ^ 32 →
    word n = word tdb.tdb_rpl.toNat → n < tdb.tdb_rpl.toNat + 32 → ¬ Marked tdb.tdb_seen n

section Fresh

variable {esn : Bool} {tdb tdb' : Tdb} {acc : List ℕ} {seq : BitVec 32}

theorem subspace_of_not_stale (h : Edge esn tdb acc) (hstale : ¬ Stale tdb seq)
    (hin : tdb.number seq < 2 ^ (if tdb.esn then 64 else 32))
    (hnear : tdb.number seq ≤ tdb.tdb_rpl.toNat + 2100)
    (hw : word (tdb.number seq) = word tdb.tdb_rpl.toNat) :
    tdb.number seq / 2 ^ 32 = tdb.tdb_rpl.toNat / 2 ^ 32 := by
  by_contra hsub
  cases he : tdb.esn with
  | true => exact hstale ⟨he, by simpa [he] using hin, hnear, hsub, hw⟩
  | false =>
    have hlow := h.low he
    simp only [he, Bool.false_eq_true, if_false] at hin
    omega

theorem Fresh.late (h : Fresh esn tdb acc) (hstale : ¬ Stale tdb seq)
    (hle : tdb.number seq ≤ tdb.tdb_rpl.toNat) :
    Fresh esn { tdb with tdb_seen := mark tdb.tdb_seen seq } (tdb.number seq :: acc) := by
  have hwin := tdb.lt_number seq h.pos
  have hrpl := tdb.tdb_rpl.isLt
  have hin : tdb.number seq < 2 ^ (if tdb.esn then 64 else 32) := by
    cases he : tdb.esn with
    | true =>
      simp only [if_true]
      omega
    | false =>
      have := h.low he
      simp only [Bool.false_eq_true, if_false]
      omega
  refine ⟨⟨h.flag, h.pos, h.low, fun n hn => ?_⟩, fun n hn hlow hm => ?_, ?_⟩
  · obtain rfl | hn := List.mem_cons.1 hn
    · exact ⟨tdb.number_pos seq h.pos, hle⟩
    · exact h.le n hn
  · obtain hm | ⟨hw, hbit⟩ := (marked_mark (tdb.number_mod seq)).1 hm
    · exact List.mem_cons_of_mem _ (h.accepted n hn hlow hm)
    · simp only at hn hlow
      have heq := eq_of_bit (by omega) (by omega) hw hbit
      simp [heq]
  · intro n hlt hsub hword hnear hm
    simp only at hlt hsub hword hnear hm
    obtain hm | ⟨hw, hbit⟩ := (marked_mark (tdb.number_mod seq)).1 hm
    · exact h.ahead n hlt hsub hword hnear hm
    · -- the number is in the word of the edge, so it is close to it
      have hsub' := subspace_of_not_stale h.toEdge hstale hin (by omega) (hw.symm.trans hword)
      have hclose := near_of_word_eq hle (by omega) hsub' (hw.symm.trans hword)
      have heq := eq_of_bit (by omega) (by omega) hw hbit
      omega

theorem Fresh.advance {tdb_seen : ℕ → BitVec 32} (h : Fresh esn tdb acc) (hstale : ¬ Stale tdb seq)
    (hlt : tdb.tdb_rpl.toNat < tdb.number seq)
    (hin : tdb.number seq < 2 ^ (if tdb.esn then 64 else 32))
    (hclear : Cleared tdb (tdb.number seq) tdb_seen) :
    Fresh esn ⟨tdb.esn, BitVec.ofNat 64 (tdb.number seq), mark tdb_seen seq⟩
      (tdb.number seq :: acc) := by
  have hrpl := ahead_toNat hin
  refine ⟨h.toEdge.accept (.ahead hlt hin hclear), fun n hn hlow hm => ?_, ?_⟩
  · simp only [hrpl] at hn hlow
    obtain hm | ⟨hw, hbit⟩ := (marked_mark (tdb.number_mod seq)).1 hm
    · obtain ⟨hold, hnear, hkept⟩ := (marked_cleared hclear).1 hm
      refine List.mem_cons_of_mem _ ?_
      by_cases hpassed : n ≤ tdb.tdb_rpl.toNat
      · exact h.accepted n hpassed (by omega) hold
      · -- a number passed over is in a cleared word, or ahead in the word of the edge
        obtain hcleared | ⟨hword, hsub⟩ := passed_word (not_le.1 hpassed) hn (by omega)
          (fun hw => (subspace_of_not_stale h.toEdge hstale hin (by omega) hw.symm).symm)
        · exact absurd hcleared hkept
        · have hclose := near_of_word_eq (by omega) (by omega) hsub hword
          exact absurd hold (h.ahead n (by omega) hsub.symm hword.symm hclose)
    · have heq := eq_of_bit (by omega) (by omega) hw hbit
      simp [heq]
  · intro n hn hsub hword hnear hm
    simp only [hrpl] at hn hsub hword hnear hm
    obtain hm | ⟨hw, hbit⟩ := (marked_mark (tdb.number_mod seq)).1 hm
    · obtain ⟨hold, hclose, hkept⟩ := (marked_cleared hclear).1 hm
      rw [hword] at hkept
      have hsame : word (tdb.number seq) = word tdb.tdb_rpl.toNat := by
        by_contra hne
        have hpos := passed_word hlt le_rfl (by omega) (fun h => absurd h.symm hne)
        obtain hcleared | ⟨hw, -⟩ := hpos
        · exact hkept hcleared
        · exact hne hw.symm
      have hsub' := subspace_of_not_stale h.toEdge hstale hin (by omega) hsame
      have hstep := near_of_word_eq hlt.le (by omega) hsub'.symm hsame.symm
      have hfar := near_of_word_eq (a := tdb.tdb_rpl.toNat) (b := n) (by omega) (by omega)
        (by omega) (by rw [hword, hsame])
      exact h.ahead n (by omega) (by omega) (hword.trans hsame) hfar hold
    · have heq := eq_of_bit (by omega) (by omega) hw hbit
      omega

theorem Received.fresh (h : Received esn (fun tdb seq => ¬ Stale tdb seq) tdb acc) :
    Fresh esn tdb acc := by
  induction h with
  | start =>
    refine ⟨Edge.start esn, fun n _ _ hm => ?_, fun n _ _ _ _ hm => ?_⟩
    all_goals simp [Marked, Tdb.initial] at hm
  | accept _ hP hcall ih =>
    obtain ⟨hnum, hacc⟩ := ih.accepts hcall
    rw [hnum]
    cases hacc with
    | late hle _ => exact ih.late hP hle
    | ahead hlt hin hclear => exact ih.advance hP hlt hin hclear
  | reject _ _ hcall hret ih =>
    rw [ih.rejects hcall hret]
    exact ih

/-- As long as no call crosses a multiple of `2 ^ 32` within one word of the map, every number
of the window and up to `2 ^ 31` above it that was not accepted before is accepted. -/
theorem fresh_accepted (h : Received esn (fun tdb seq => ¬ Stale tdb seq) tdb acc) {n : ℕ}
    (hpos : 0 < n) (hnew : n ∉ acc) (hlow : tdb.tdb_rpl.toNat < n + (TDB_REPLAYMAX - TDB_REPLAYWASTE))
    (hhigh : n ≤ tdb.tdb_rpl.toNat + 2 ^ 31) (hin : n < 2 ^ (if esn then 64 else 32)) :
    ∃ tdb', checkreplaywindow tdb (BitVec.ofNat 32 n) true =
      some ⟨0, some (BitVec.ofNat 32 (n / 2 ^ 32)), tdb'⟩ := by
  have hfresh := h.fresh
  have hrpl := tdb.tdb_rpl.isLt
  have hlow' : tdb.tdb_rpl.toNat < n + 2100 := hlow
  have hnum : tdb.number (BitVec.ofNat 32 n) = n := by
    simp only [Tdb.number, extended, BitVec.toNat_ofNat]
    omega
  obtain ⟨v, hv, hcom⟩ := checkreplaywindow_commit (BitVec.ofNat 32 n) hfresh.pos hfresh.low
  rw [hv]
  have hflag := hfresh.flag
  cases hcom with
  | zero _ hseq hrpl =>
    exfalso
    have h0 : n % 2 ^ 32 = 0 := by
      have := congrArg BitVec.toNat hseq
      simpa using this
    cases he : esn with
    | true =>
      have := hrpl (hflag.trans he)
      omega
    | false =>
      simp only [he, Bool.false_eq_true, if_false] at hin
      omega
  | outside _ hfar =>
    rw [hnum, hflag] at hfar
    omega
  | replayed _ hle hm =>
    rw [hnum] at hle hm
    exact absurd (hfresh.accepted n hle hlow' hm) hnew
  | late hle hnew hseqh =>
    rw [hnum] at hseqh
    exact ⟨_, by rw [← hseqh, BitVec.ofNat_toNat, BitVec.setWidth_eq]⟩
  | ahead hlt hin hseqh hclear =>
    rw [hnum] at hseqh
    exact ⟨_, by rw [← hseqh, BitVec.ofNat_toNat, BitVec.setWidth_eq]⟩

theorem fresh_accepted_three : ∃ tdb tdb', Received true (fun tdb seq => ¬ Stale tdb seq) tdb [5] ∧
    checkreplaywindow tdb 3#32 true = some ⟨0, some 0#32, tdb'⟩ := by
  have hrun : (receive (Tdb.initial true, []) 5#32).map (fun s => (s.1.tdb_rpl, s.2)) =
      some (5#64, [5]) := by decide +kernel
  obtain ⟨⟨tdb, acc⟩, hs, heq⟩ := Option.map_eq_some_iff.1 hrun
  simp only [Prod.mk.injEq] at heq
  obtain ⟨hrpl, rfl⟩ := heq
  have hstale : ¬ Stale (Tdb.initial true) 5#32 := by
    rintro ⟨-, -, -, hsub, -⟩
    exact hsub (by decide)
  have hstart : Received true (fun tdb seq => ¬ Stale tdb seq) (Tdb.initial true) [] := .start
  have hrec := Received.receive (s := (Tdb.initial true, [])) hstart hstale hs
  obtain ⟨tdb', h⟩ := fresh_accepted hrec (n := 3) (by decide) (by simp)
    (by rw [hrpl]; decide) (by rw [hrpl]; decide) (by decide)
  exact ⟨tdb, tdb', hrec, h⟩

/-- After `2 ^ 32 - 10`, `2 ^ 32`, `2 ^ 32 - 2097` and `2 ^ 32 + 20` the number `2 ^ 32 + 15`,
never seen, is taken for a replay. -/
theorem fresh_rejected : ¬ ∀ (esn : Bool) (tdb : Tdb) (acc : List ℕ),
    Received esn (fun _ _ => True) tdb acc → ∀ n > 0, n ∉ acc →
      tdb.tdb_rpl.toNat < n + (TDB_REPLAYMAX - TDB_REPLAYWASTE) → n ≤ tdb.tdb_rpl.toNat + 2 ^ 31 →
      n < 2 ^ (if esn then 64 else 32) →
      ∃ tdb', checkreplaywindow tdb (BitVec.ofNat 32 n) true =
        some ⟨0, some (BitVec.ofNat 32 (n / 2 ^ 32)), tdb'⟩ := by
  intro h
  have hrun : ([BitVec.ofNat 32 (2 ^ 32 - 10), 0#32, BitVec.ofNat 32 (2 ^ 32 - 2097), 20#32].foldlM
      receive (Tdb.initial true, [])).map (fun s => (s.1.tdb_rpl, s.2,
        (checkreplaywindow s.1 (BitVec.ofNat 32 (2 ^ 32 + 15)) true).map Verdict.ret)) =
      some (BitVec.ofNat 64 (2 ^ 32 + 20),
        [2 ^ 32 + 20, 2 ^ 32 - 2097, 2 ^ 32, 2 ^ 32 - 10], some 3) := by decide +kernel
  obtain ⟨s, hs, heq⟩ := Option.map_eq_some_iff.1 hrun
  simp only [Prod.mk.injEq] at heq
  obtain ⟨hrpl, hacc, hret⟩ := heq
  obtain ⟨tdb', hcall⟩ := h true s.1 s.2 (Received.receiveAll _ Received.start hs) (2 ^ 32 + 15)
    (by decide) (by rw [hacc]; decide) (by rw [hrpl]; decide) (by rw [hrpl]; decide) (by decide)
  rw [hcall] at hret
  cases hret

end Fresh

end OpenbsdKernel.IpEsp
