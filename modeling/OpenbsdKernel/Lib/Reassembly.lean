import Mathlib.Data.List.Basic
import Mathlib.Data.List.TakeWhile
import Mathlib.Tactic

/-!
# Reassembly queues

A queue of pieces of some sequence, each with an offset and a length, from which the first
elements can be cut off. A new piece is put in its place: what the piece before it already
provides is cut off the new one, and the pieces behind it are cut, or dropped when they are
covered. The queue stays in order and covers what it covered and the new piece.

What a piece has to satisfy (`ok`) is a parameter: the laws of cutting are only asked of such
pieces, and cutting keeps them.
-/
namespace OpenbsdKernel.Reassembly

structure Pieces (ε : Type*) where
  off : ε → ℕ
  len : ε → ℕ
  cut : ℕ → ε → ε

namespace Pieces

variable {ε : Type*} (P : Pieces ε)

/-- The end of a piece. -/
def fin (e : ε) : ℕ := P.off e + P.len e

/-- Cutting the front of a piece. -/
structure Lawful (ok : ε → Prop) : Prop where
  off_cut : ∀ {e i}, ok e → i < P.len e → P.off (P.cut i e) = P.off e + i
  len_cut : ∀ {e i}, ok e → i < P.len e → P.len (P.cut i e) = P.len e - i
  ok_cut : ∀ {e i}, ok e → i < P.len e → ok (P.cut i e)

/-- Every piece ends before the next one begins. -/
def Ordered (queue : List ε) : Prop := queue.Pairwise fun a b => P.fin a ≤ P.off b

def Has (e : ε) (x : ℕ) : Prop := P.off e ≤ x ∧ x < P.fin e

def Covers (queue : List ε) (x : ℕ) : Prop := ∃ q ∈ queue, P.Has q x

/-- The part of the new piece that the piece before it does not provide. -/
def trimFront (e : ε) : Option ε → Option ε
  | none => some e
  | some p =>
    if P.fin p ≤ P.off e then some e
    else if P.len e ≤ P.fin p - P.off e then none
    else some (P.cut (P.fin p - P.off e) e)

/-- The pieces behind the new one, without what it covers. -/
def trimAfter (e : ε) : List ε → List ε
  | [] => []
  | q :: queue =>
    if P.fin e ≤ P.off q then q :: queue
    else if P.fin e - P.off q < P.len q then P.cut (P.fin e - P.off q) q :: queue
    else trimAfter e queue

example (e : ε) : P.trimAfter e [] = [] := by simp [trimAfter]

/-- The pieces that do not begin behind the new one, and the others. -/
def before (e : ε) (queue : List ε) : List ε := queue.takeWhile fun q => P.off q ≤ P.off e
def after (e : ε) (queue : List ε) : List ε := queue.dropWhile fun q => P.off q ≤ P.off e

/-- The new piece in its place; `none`: it is covered already. -/
def insert (e : ε) (queue : List ε) : Option (List ε) :=
  (P.trimFront e (P.before e queue).getLast?).map fun e' =>
    P.before e queue ++ e' :: P.trimAfter e' (P.after e queue)

section Order

variable {P} {ok : ε → Prop} {e p q : ε} {queue : List ε} {x : ℕ}

@[simp] theorem covers_nil : P.Covers [] x ↔ False := by simp [Covers]

@[simp] theorem covers_cons : P.Covers (q :: queue) x ↔ P.Has q x ∨ P.Covers queue x := by
  simp [Covers]

@[simp] theorem covers_append {a b : List ε} :
    P.Covers (a ++ b) x ↔ P.Covers a x ∨ P.Covers b x := by
  simp [Covers, or_and_right, exists_or]

theorem before_append_after (e : ε) (queue : List ε) :
    P.before e queue ++ P.after e queue = queue := List.takeWhile_append_dropWhile

theorem before_cons_of_le (h : P.off q ≤ P.off e) :
    P.before e (q :: queue) = q :: P.before e queue := by
  simp [before, h]

theorem before_cons_of_lt (h : P.off e < P.off q) : P.before e (q :: queue) = [] := by
  simp [before, h]

theorem mem_of_mem_before (h : q ∈ P.before e queue) : q ∈ queue :=
  (List.takeWhile_sublist _).subset h

theorem mem_of_mem_after (h : q ∈ P.after e queue) : q ∈ queue :=
  (List.dropWhile_sublist _).subset h

theorem off_of_mem_before (h : q ∈ P.before e queue) : P.off q ≤ P.off e := by
  simpa using List.mem_takeWhile_imp h

theorem Ordered.off_le (h : P.Ordered (q :: queue)) (hp : p ∈ queue) : P.off q ≤ P.off p := by
  have := List.rel_of_pairwise_cons h hp
  simp only [fin] at this
  omega

theorem Ordered.off_of_mem_after (h : P.Ordered queue) (hq : q ∈ P.after e queue) :
    P.off e < P.off q := by
  induction queue with
  | nil => simp [after] at hq
  | cons a queue ih =>
    by_cases ha : P.off a ≤ P.off e
    · rw [after, List.dropWhile_cons_of_pos (by simpa using ha)] at hq
      exact ih (List.Pairwise.of_cons h) hq
    · rw [after, List.dropWhile_cons_of_neg (by simpa using ha)] at hq
      obtain rfl | hq := List.mem_cons.1 hq
      · omega
      · have := h.off_le hq
        omega

theorem trimAfter_stop (h : P.fin e ≤ P.off q) : P.trimAfter e (q :: queue) = q :: queue := by
  rw [trimAfter, if_pos h]

theorem trimAfter_cut (h : P.off q < P.fin e) (hcut : P.fin e - P.off q < P.len q) :
    P.trimAfter e (q :: queue) = P.cut (P.fin e - P.off q) q :: queue := by
  rw [trimAfter, if_neg (not_le.2 h), if_pos hcut]

theorem trimAfter_drop (h : P.off q < P.fin e) (hlen : P.len q ≤ P.fin e - P.off q) :
    P.trimAfter e (q :: queue) = P.trimAfter e queue := by
  rw [trimAfter, if_neg (not_le.2 h), if_neg (not_lt.2 hlen)]

/-- What cutting the pieces behind comes to: the first of them are dropped, and the next one
is cut where the new piece ends inside it. -/
theorem trimAfter_cases (e : ε) (queue : List ε) : ∃ gone rest, queue = gone ++ rest ∧
    (∀ g ∈ gone, P.off g < P.fin e ∧ P.fin g ≤ P.fin e) ∧
    ((P.trimAfter e queue = rest ∧ ∀ q ∈ rest.head?, P.fin e ≤ P.off q) ∨
      ∃ q t, rest = q :: t ∧ P.off q < P.fin e ∧ P.fin e < P.fin q ∧
        P.trimAfter e queue = P.cut (P.fin e - P.off q) q :: t) := by
  induction queue with
  | nil => exact ⟨[], [], rfl, by simp, .inl ⟨rfl, by simp⟩⟩
  | cons q queue ih =>
    by_cases hle : P.fin e ≤ P.off q
    · exact ⟨[], q :: queue, rfl, by simp, .inl ⟨trimAfter_stop hle, by simpa using hle⟩⟩
    by_cases hcut : P.fin e - P.off q < P.len q
    · have heq : P.trimAfter e (q :: queue) = _ := trimAfter_cut (not_le.1 hle) hcut
      refine ⟨[], q :: queue, rfl, by simp, .inr ⟨q, queue, rfl, by omega, ?_, heq⟩⟩
      simp only [fin] at hcut hle ⊢
      omega
    · obtain ⟨gone, rest, rfl, hg, h⟩ := ih
      rw [trimAfter_drop (not_le.1 hle) (not_lt.1 hcut)]
      refine ⟨q :: gone, rest, rfl, ?_, h⟩
      intro g hmem
      obtain rfl | hmem := List.mem_cons.1 hmem
      · simp only [fin] at hle hcut ⊢
        omega
      · exact hg g hmem

theorem length_trimAfter_le (e : ε) (queue : List ε) :
    (P.trimAfter e queue).length ≤ queue.length := by
  obtain ⟨gone, rest, rfl, -, ⟨heq, -⟩ | ⟨q, t, rfl, -, -, heq⟩⟩ := P.trimAfter_cases e queue
  · simp [heq]
  · simp [heq]

end Order

section Insert

variable {P} {ok : ε → Prop} {e e' p q : ε} {queue queue' : List ε} {x : ℕ}

theorem Lawful.fin_cut (hP : P.Lawful ok) {i : ℕ} (he : ok e) (hi : i < P.len e) :
    P.fin (P.cut i e) = P.fin e := by
  simp only [fin, hP.off_cut he hi, hP.len_cut he hi]
  omega

/-- The pieces left behind the new one are in order and begin where it ends or later. -/
theorem Lawful.trimAfter_ordered (hP : P.Lawful ok) (hok : ∀ q ∈ queue, ok q)
    (h : P.Ordered queue) :
    P.Ordered (P.trimAfter e queue) ∧ (∀ q ∈ P.trimAfter e queue, P.fin e ≤ P.off q ∧ ok q) := by
  obtain ⟨gone, rest, rfl, -, ⟨heq, hhead⟩ | ⟨q, t, rfl, hlt, hgt, heq⟩⟩ := P.trimAfter_cases e queue
  · have hrest : P.Ordered rest := (List.pairwise_append.1 h).2.1
    rw [heq]
    refine ⟨hrest, fun q hq => ⟨?_, hok q (by simp [hq])⟩⟩
    cases rest with
    | nil => simp at hq
    | cons a rest =>
      have ha := hhead a (by simp)
      obtain rfl | hq := List.mem_cons.1 hq
      · exact ha
      · exact ha.trans (hrest.off_le hq)
  · have hrest : P.Ordered (q :: t) := (List.pairwise_append.1 h).2.1
    have hq : ok q := hok q (by simp)
    have hi : P.fin e - P.off q < P.len q := by
      simp only [fin] at *
      omega
    rw [heq]
    constructor
    · refine List.pairwise_cons.2 ⟨fun b hb => ?_, List.Pairwise.of_cons hrest⟩
      rw [hP.fin_cut hq hi]
      exact List.rel_of_pairwise_cons hrest hb
    · intro b hb
      obtain rfl | hb := List.mem_cons.1 hb
      · refine ⟨?_, hP.ok_cut hq hi⟩
        rw [hP.off_cut hq hi]
        omega
      · have := List.rel_of_pairwise_cons hrest hb
        exact ⟨by omega, hok b (by simp [hb])⟩

theorem Lawful.fin_of_mem_trimAfter (hP : P.Lawful ok) (hok : ∀ q ∈ queue, ok q)
    (hq : q ∈ P.trimAfter e queue) : ∃ r ∈ queue, P.fin q = P.fin r := by
  obtain ⟨gone, rest, rfl, -, ⟨heq, -⟩ | ⟨r, t, rfl, hlt, hgt, heq⟩⟩ := P.trimAfter_cases e queue
  · rw [heq] at hq
    exact ⟨q, by simp [hq], rfl⟩
  · rw [heq] at hq
    obtain rfl | hq := List.mem_cons.1 hq
    · refine ⟨r, by simp, hP.fin_cut (hok r (by simp)) ?_⟩
      simp only [fin] at *
      omega
    · exact ⟨q, by simp [hq], rfl⟩

theorem Lawful.covers_trimAfter (hP : P.Lawful ok) (hok : ∀ q ∈ queue, ok q)
    (hlow : ∀ q ∈ queue, P.off e ≤ P.off q) (h : P.Ordered queue) :
    P.Has e x ∨ P.Covers (P.trimAfter e queue) x ↔ P.Has e x ∨ P.Covers queue x := by
  obtain ⟨gone, rest, rfl, hgone, ⟨heq, -⟩ | ⟨q, t, rfl, hlt, hgt, heq⟩⟩ := P.trimAfter_cases e queue
  · rw [heq, covers_append]
    refine ⟨by tauto, ?_⟩
    rintro (hx | ⟨g, hg, hx⟩ | hx)
    · exact .inl hx
    · have h1 := hlow g (by simp [hg])
      have h2 := hgone g hg
      exact .inl ⟨h1.trans hx.1, hx.2.trans_le h2.2⟩
    · exact .inr hx
  · have hq : ok q := hok q (by simp)
    have hi : P.fin e - P.off q < P.len q := by
      simp only [fin] at *
      omega
    have hcut : P.Has (P.cut (P.fin e - P.off q) q) x ↔ P.fin e ≤ x ∧ P.Has q x := by
      simp only [Has, hP.fin_cut hq hi, hP.off_cut hq hi]
      omega
    rw [heq, covers_append, covers_cons, covers_cons, hcut]
    refine ⟨by tauto, ?_⟩
    rintro (hx | ⟨g, hg, hx⟩ | hx | hx)
    · exact .inl hx
    · have h1 := hlow g (by simp [hg])
      have h2 := hgone g hg
      exact .inl ⟨h1.trans hx.1, hx.2.trans_le h2.2⟩
    · by_cases hle : P.fin e ≤ x
      · exact .inr (.inl ⟨hle, hx⟩)
      · have h1 := hlow q (by simp)
        exact .inl ⟨h1.trans hx.1, by omega⟩
    · exact .inr (.inr hx)

theorem trimFront_some {last : Option ε} (h : P.trimFront e last = some e') :
    e' = e ∧ (∀ p ∈ last, P.fin p ≤ P.off e) ∨
      ∃ p ∈ last, P.off e < P.fin p ∧ P.fin p - P.off e < P.len e ∧
        e' = P.cut (P.fin p - P.off e) e := by
  cases last with
  | none =>
    cases h
    exact .inl ⟨rfl, by simp⟩
  | some p =>
    simp only [trimFront] at h
    split at h
    · next hle =>
      cases h
      exact .inl ⟨rfl, by simpa using hle⟩
    · next hlt =>
      split at h
      · cases h
      · next hlen =>
        cases h
        exact .inr ⟨p, rfl, by omega, by omega, rfl⟩

theorem trimFront_none {last : Option ε} (h : P.trimFront e last = none) :
    ∃ p ∈ last, P.off e < P.fin p ∧ P.fin e ≤ P.fin p := by
  cases last with
  | none => cases h
  | some p =>
    simp only [trimFront] at h
    split at h
    · cases h
    · next hlt =>
      split at h
      · next hlen =>
        refine ⟨p, rfl, by omega, ?_⟩
        simp only [fin] at *
        omega
      · cases h

/-- The piece as it is put in its place. -/
structure Placed (P : Pieces ε) (ok : ε → Prop) (e e' : ε) (queue : List ε) : Prop where
  ok : ok e'
  fin : P.fin e' = P.fin e
  le : P.off e ≤ P.off e'
  last : ∀ p ∈ (P.before e queue).getLast?, P.fin p ≤ P.off e'
  next : ∀ q ∈ P.after e queue, P.off e' ≤ P.off q

theorem Ordered.fin_le_last (h : P.Ordered queue) (hp : queue.getLast? = some p) (hq : q ∈ queue) :
    P.fin q ≤ P.fin p := by
  obtain ⟨front, rfl⟩ := List.getLast?_eq_some_iff.1 hp
  obtain hq | hq := List.mem_append.1 hq
  · have := (List.pairwise_append.1 h).2.2 q hq p (by simp)
    simp only [fin] at *
    omega
  · rw [List.mem_singleton.1 hq]

theorem Ordered.before (h : P.Ordered queue) : P.Ordered (P.before e queue) := by
  rw [← P.before_append_after e queue] at h
  exact (List.pairwise_append.1 h).1

theorem Ordered.after (h : P.Ordered queue) : P.Ordered (P.after e queue) := by
  rw [← P.before_append_after e queue] at h
  exact (List.pairwise_append.1 h).2.1

theorem Ordered.before_after (h : P.Ordered queue) (hp : p ∈ P.before e queue)
    (hq : q ∈ P.after e queue) : P.fin p ≤ P.off q := by
  rw [← P.before_append_after e queue] at h
  exact (List.pairwise_append.1 h).2.2 p hp q hq

theorem Lawful.placed (hP : P.Lawful ok) (he : ok e) (h : P.Ordered queue)
    (htrim : P.trimFront e (P.before e queue).getLast? = some e') : P.Placed ok e e' queue := by
  obtain ⟨rfl, hlast⟩ | ⟨p, hp, hlt, hcut, rfl⟩ := trimFront_some htrim
  · exact ⟨he, rfl, le_rfl, hlast, fun q hq => (h.off_of_mem_after hq).le⟩
  · have hoff := hP.off_cut he hcut
    refine ⟨hP.ok_cut he hcut, hP.fin_cut he hcut, by omega, ?_, ?_⟩
    · intro p' hp'
      obtain rfl : p' = p := by simpa using hp'.symm.trans hp
      omega
    · intro q hq
      have := h.before_after (List.mem_of_getLast? hp) hq
      omega

/-- The new piece ends up in place, between what was before it and what is left behind it. -/
theorem insert_some (h : P.insert e queue = some queue') :
    ∃ e', P.trimFront e (P.before e queue).getLast? = some e' ∧
      queue' = P.before e queue ++ e' :: P.trimAfter e' (P.after e queue) := by
  obtain ⟨e', he', rfl⟩ := Option.map_eq_some_iff.1 h
  exact ⟨e', he', rfl⟩

theorem Lawful.insert_ordered (hP : P.Lawful ok) (hok : ∀ q ∈ queue, ok q) (he : ok e)
    (h : P.Ordered queue) (hins : P.insert e queue = some queue') :
    P.Ordered queue' ∧ ∀ q ∈ queue', ok q := by
  obtain ⟨e', htrim, rfl⟩ := insert_some hins
  have hpl := hP.placed he h htrim
  have hmem : ∀ q, q ∈ P.before e queue ∨ q ∈ P.after e queue → ok q := by
    intro q hq
    refine hok q ?_
    rw [← P.before_append_after e queue]
    exact List.mem_append.2 hq
  obtain ⟨hafter, hok'⟩ := hP.trimAfter_ordered (e := e') (fun q hq => hmem q (.inr hq)) h.after
  have hfront : ∀ p ∈ P.before e queue, P.fin p ≤ P.off e' := by
    intro p hp
    obtain ⟨l, hl⟩ := List.getLast?_isSome.2 (List.ne_nil_of_mem hp) |> Option.isSome_iff_exists.1
    exact (h.before.fin_le_last hl hp).trans (hpl.last l hl)
  constructor
  · refine List.pairwise_append.2 ⟨h.before, List.pairwise_cons.2 ⟨fun q hq => (hok' q hq).1, hafter⟩, ?_⟩
    intro p hp q hq
    have hle := hfront p hp
    obtain rfl | hq := List.mem_cons.1 hq
    · exact hle
    · have := (hok' q hq).1
      simp only [fin] at *
      omega
  · intro q hq
    obtain hq | hq := List.mem_append.1 hq
    · exact hmem q (.inl hq)
    · obtain rfl | hq := List.mem_cons.1 hq
      · exact hpl.ok
      · exact (hok' q hq).2

/-- The queue covers what it covered, and the new piece. -/
theorem Lawful.covers_insert (hP : P.Lawful ok) (hok : ∀ q ∈ queue, ok q) (he : ok e)
    (h : P.Ordered queue) (hins : P.insert e queue = some queue') :
    P.Covers queue' x ↔ P.Covers queue x ∨ P.Has e x := by
  obtain ⟨e', htrim, rfl⟩ := insert_some hins
  have hpl := hP.placed he h htrim
  have hold : P.Covers queue x ↔ P.Covers (P.before e queue) x ∨ P.Covers (P.after e queue) x := by
    rw [← covers_append, P.before_append_after]
  have hafter := hP.covers_trimAfter (e := e') (x := x)
    (fun q hq => hok q (mem_of_mem_after hq)) hpl.next h.after
  -- the part cut off the new piece is that of the piece before it
  have hfront : P.Covers (P.before e queue) x ∨ P.Has e' x ↔
      P.Covers (P.before e queue) x ∨ P.Has e x := by
    obtain ⟨rfl, -⟩ | ⟨p, hp, hlt, hcut, rfl⟩ := trimFront_some htrim
    · rfl
    · have hmem : p ∈ P.before e queue := List.mem_of_getLast? hp
      have hp' := off_of_mem_before hmem
      simp only [Has, hP.fin_cut he hcut, hP.off_cut he hcut]
      constructor
      · rintro (hx | hx)
        · exact .inl hx
        · exact .inr (by omega)
      · rintro (hx | hx)
        · exact .inl hx
        · by_cases hlow : x < P.fin p
          · exact .inl ⟨p, hmem, by omega, hlow⟩
          · exact .inr (by omega)
  rw [covers_append, covers_cons, hold, hafter, ← or_assoc, hfront, or_right_comm]

/-- A piece that is not put in place was covered. -/
theorem insert_none (h : P.insert e queue = none) (hx : P.Has e x) : P.Covers queue x := by
  obtain ⟨p, hp, hlt, hfin⟩ := trimFront_none (Option.map_eq_none_iff.1 h)
  have hmem := List.mem_of_getLast? hp
  have hle := off_of_mem_before hmem
  refine ⟨p, mem_of_mem_before hmem, hle.trans hx.1, hx.2.trans_le hfin⟩

end Insert

section Chain

variable {P} {queue : List ε} {a b : ℕ}

/-- The pieces follow each other without a gap, from `a` to `b`. -/
def Chain : ℕ → List ε → ℕ → Prop
  | a, [], b => a = b
  | a, q :: queue, b => P.off q = a ∧ Chain (P.fin q) queue b

theorem Chain.le (h : P.Chain a queue b) : a ≤ b := by
  induction queue generalizing a with
  | nil => exact h.le
  | cons q queue ih =>
    have := ih h.2
    obtain ⟨rfl, -⟩ := h
    simp only [fin] at this
    omega

theorem Chain.covers (h : P.Chain a queue b) {x : ℕ} (hx : a ≤ x ∧ x < b) : P.Covers queue x := by
  induction queue generalizing a with
  | nil =>
    have : a = b := h
    omega
  | cons q queue ih =>
    obtain ⟨rfl, h⟩ := h
    rw [covers_cons]
    by_cases hq : x < P.fin q
    · exact .inl ⟨hx.1, hq⟩
    · exact .inr (ih h ⟨not_lt.1 hq, hx.2⟩)

/-- A queue in order that covers an interval and does not leave it has no gap. -/
theorem Ordered.chain (h : P.Ordered queue) (hab : a ≤ b)
    (hin : ∀ q ∈ queue, a ≤ P.off q ∧ P.fin q ≤ b)
    (hcov : ∀ x, a ≤ x → x < b → P.Covers queue x) : P.Chain a queue b := by
  induction queue generalizing a with
  | nil =>
    by_contra hne
    have hlt : a < b := lt_of_le_of_ne hab hne
    simpa using hcov a le_rfl hlt
  | cons q queue ih =>
    have hq := hin q (by simp)
    have hoff : P.off q = a := by
      by_contra hne
      have hlt : a < P.off q := by omega
      have hfin : P.off q ≤ P.fin q := by simp [fin]
      obtain ⟨r, hr, hx⟩ := hcov a le_rfl (by omega)
      obtain rfl | hr := List.mem_cons.1 hr
      · have := hx.1
        omega
      · have h1 := h.off_le hr
        have h2 := hx.1
        omega
    refine ⟨hoff, ih (List.Pairwise.of_cons h) hq.2 ?_ ?_⟩
    · intro r hr
      exact ⟨List.rel_of_pairwise_cons h hr, (hin r (by simp [hr])).2⟩
    · intro x hx hxb
      have hfin : P.off q ≤ P.fin q := by simp [fin]
      have := hcov x (by omega) hxb
      rw [covers_cons] at this
      refine this.resolve_left fun hxq => ?_
      have := hxq.2
      omega

theorem Chain.flatMap {β : Type*} {data : ε → List β} {D : List β} (h : P.Chain a queue b)
    (hdata : ∀ q ∈ queue, data q = (D.drop (P.off q)).take (P.len q)) :
    queue.flatMap data = (D.drop a).take (b - a) := by
  induction queue generalizing a with
  | nil =>
    have : a = b := h
    simp [this]
  | cons q queue ih =>
    have hle : P.fin q ≤ b := Chain.le h.2
    obtain ⟨rfl, h⟩ := h
    have hrest := ih h fun r hr => hdata r (by simp [hr])
    have hsplit : b - P.off q = P.len q + (b - P.fin q) := by
      simp only [fin] at *
      omega
    rw [List.flatMap_cons, hdata q (by simp), hrest, hsplit, List.take_add, List.drop_drop]
    rfl

end Chain

end Pieces

end OpenbsdKernel.Reassembly
