import Mathlib.Data.List.Perm.Basic
import Mathlib.Tactic

/-!
# Buffer queues: the fifo and the n-step scan discipline

A disk driver keeps its pending transfers in a `struct bufq`, whose discipline is
a table of functions. The n-step scan takes up to `nscanN` transfers from a fifo,
sorts them by block and serves them; while the segment has room left, transfers
that sort after its head may still join it. Both disciplines are bags: what was
queued is what came out together with what is still held, whatever happens and
also over a switch from one to the other.
-/
namespace OpenbsdKernel.KernBufq

/-- A transfer: its header's address and the first block it is for (`daddr_t`, signed). -/
structure Buf where
  addr : ℕ
  b_blkno : ℤ
  deriving Repr, DecidableEq

/-- The functions of one discipline, without the release of its empty data. -/
structure BufqImpl (σ : Type) where
  create : σ
  queue : σ → Buf → σ
  dequeue : σ → Option Buf × σ

/-- A discipline together with what its data hold: nothing is lost or made up, and
nothing comes out only when nothing is held. -/
structure BagImpl (σ : Type) extends BufqImpl σ where
  held : σ → List Buf
  held_create : held create = []
  held_queue : ∀ d bp, (held (queue d bp)).Perm (bp :: held d)
  held_dequeue : ∀ d, (held d).Perm ((dequeue d).1.toList ++ held (dequeue d).2)
  dequeue_none : ∀ d, (dequeue d).1 = none → held d = []

inductive Call where
  | queue (bp : Buf)
  | dequeue
  deriving Repr, DecidableEq

/-- The transfers that a sequence of calls hands to the queue. -/
def queued : List Call → List Buf
  | [] => []
  | .queue bp :: cs => bp :: queued cs
  | .dequeue :: cs => queued cs

def dequeues : List Call → ℕ
  | [] => 0
  | .queue _ :: cs => dequeues cs
  | .dequeue :: cs => dequeues cs + 1

/-- What each dequeue of a run returned, in order, and the data after it. -/
def BufqImpl.run {σ : Type} (impl : BufqImpl σ) (d : σ) : List Call → List (Option Buf) × σ
  | [] => ([], d)
  | .queue bp :: cs => impl.run (impl.queue d bp) cs
  | .dequeue :: cs =>
    let rest := impl.run (impl.dequeue d).2 cs
    ((impl.dequeue d).1 :: rest.1, rest.2)

/-- The transfers among the results of the dequeues. -/
def taken (results : List (Option Buf)) : List Buf :=
  results.filterMap id

theorem taken_cons (r : Option Buf) (rs : List (Option Buf)) :
    taken (r :: rs) = r.toList ++ taken rs := by
  cases r <;> rfl

section Bag

variable {σ τ : Type} (impl : BagImpl σ)

theorem BagImpl.dequeue_none_iff (d : σ) : (impl.dequeue d).1 = none ↔ impl.held d = [] := by
  refine ⟨impl.dequeue_none d, fun h => ?_⟩
  have hp := impl.held_dequeue d
  rw [h] at hp
  exact Option.toList_eq_nil_iff.mp (List.append_eq_nil_iff.mp (List.nil_perm.mp hp)).1

/-- Conservation over a run: held before and queued is taken and held after. -/
theorem BagImpl.run_perm (d : σ) (cs : List Call) :
    (taken (impl.run d cs).1 ++ impl.held (impl.run d cs).2).Perm
      (queued cs ++ impl.held d) := by
  induction cs generalizing d with
  | nil => exact List.Perm.refl _
  | cons c cs ih =>
    cases c with
    | queue bp =>
      have h := (ih (impl.queue d bp)).trans ((impl.held_queue d bp).append_left (queued cs))
      exact h.trans List.perm_middle
    | dequeue =>
      have h := (ih (impl.dequeue d).2).append_left (impl.dequeue d).1.toList
      have hd := (impl.held_dequeue d).symm.append_left (queued cs)
      simp only [BufqImpl.run, taken_cons, queued, List.append_assoc]
      refine h.trans (List.Perm.trans ?_ hd)
      simp only [← List.append_assoc]
      exact List.Perm.append_right _ List.perm_append_comm

/-- The loop of `bufq_switch`: every transfer of `odata` is queued in `data`. -/
def drain (old : BagImpl σ) (new : BufqImpl τ) (odata : σ) (data : τ) : σ × τ :=
  match _h : (old.dequeue odata).1 with
  | none => ((old.dequeue odata).2, data)
  | some bp => drain old new (old.dequeue odata).2 (new.queue data bp)
termination_by (old.held odata).length
decreasing_by
  have hp := (old.held_dequeue odata).length_eq
  rw [_h] at hp
  simp only [Option.toList, List.length_append, List.length_cons, List.length_nil] at hp
  omega

theorem drain_none (old : BagImpl σ) (new : BufqImpl τ) {odata : σ} (data : τ)
    (h : (old.dequeue odata).1 = none) :
    drain old new odata data = ((old.dequeue odata).2, data) := by
  rw [drain]
  split
  · rfl
  · simp_all

theorem drain_some (old : BagImpl σ) (new : BufqImpl τ) {odata : σ} (data : τ) {bp : Buf}
    (h : (old.dequeue odata).1 = some bp) :
    drain old new odata data = drain old new (old.dequeue odata).2 (new.queue data bp) := by
  rw [drain]
  split
  · simp_all
  · simp_all

/-- The old data are left empty and the new ones have gained what was in them. -/
theorem drain_perm (old : BagImpl σ) (new : BagImpl τ) (odata : σ) (data : τ) :
    old.held (drain old new.toBufqImpl odata data).1 = [] ∧
      (new.held (drain old new.toBufqImpl odata data).2).Perm
        (old.held odata ++ new.held data) := by
  induction odata, data using drain.induct old new.toBufqImpl with
  | case1 odata data h =>
    have hd := old.held_dequeue odata
    have he := old.dequeue_none odata h
    rw [h, he, Option.toList, List.nil_append] at hd
    rw [drain_none old _ data h, he]
    exact ⟨List.nil_perm.mp hd, List.Perm.refl _⟩
  | case2 odata data bp h ih =>
    have hd := old.held_dequeue odata
    rw [h, Option.toList, List.singleton_append] at hd
    rw [drain_some old _ data h]
    refine ⟨ih.1, ih.2.trans ?_⟩
    have hq := (new.held_queue data bp).append_left (old.held (old.dequeue odata).2)
    exact hq.trans (List.perm_middle.trans (hd.symm.append_right _))

end Bag

def bufqFifo : BufqImpl (List Buf) where
  create := []
  queue head bp := head ++ [bp]
  dequeue
    | [] => (none, [])
    | bp :: head => (some bp, head)

def bufqFifoBag : BagImpl (List Buf) where
  toBufqImpl := bufqFifo
  held := id
  held_create := rfl
  held_queue head bp := List.perm_append_comm
  held_dequeue head := by cases head <;> exact List.Perm.refl _
  dequeue_none head h := by
    cases head with
    | nil => rfl
    | cons bp head => exact absurd h (by simp [bufqFifo])

/-- `BUFQ_NSCAN_N` -/
def nscanN : ℕ := 128

def bufInorder (ba bb : Buf) : Bool := decide (ba.b_blkno < bb.b_blkno)

/-- Insert in front of the first transfer that `bp` sorts before. -/
def bufqSimpleNscan (bp : Buf) : List Buf → List Buf
  | [] => [bp]
  | cur :: head =>
    if bufInorder bp cur then bp :: cur :: head else cur :: bufqSimpleNscan bp head

structure NscanData where
  sorted : List Buf
  fifo : List Buf
  leftoverroom : ℕ
  deriving Repr, DecidableEq

/-- The loop of `bufq_nscan_resort`, with `left` rounds to go. -/
def resortLoop : ℕ → List Buf → List Buf → NscanData
  | 0, sorted, fifo => ⟨sorted, fifo, 0⟩
  | left + 1, sorted, [] => ⟨sorted, [], left + 1⟩
  | left + 1, sorted, bp :: fifo => resortLoop left (bufqSimpleNscan bp sorted) fifo

def bufqNscanResort (data : NscanData) : NscanData :=
  resortLoop nscanN data.sorted data.fifo

def bufqNscanCreate : NscanData := ⟨[], [], 0⟩

def bufqNscanQueue (data : NscanData) (bp : Buf) : NscanData :=
  if 0 < data.leftoverroom ∧ data.sorted.head?.any (bufInorder · bp) then
    { data with
      sorted := bufqSimpleNscan bp data.sorted
      leftoverroom := data.leftoverroom - 1 }
  else { data with fifo := data.fifo ++ [bp] }

def NscanData.pop (data : NscanData) : Option Buf × NscanData :=
  match data.sorted with
  | [] => (none, data)
  | bp :: sorted => (some bp, { data with sorted := sorted })

def bufqNscanDequeue (data : NscanData) : Option Buf × NscanData :=
  if data.sorted = [] then (bufqNscanResort data).pop else data.pop

def bufqNscan : BufqImpl NscanData where
  create := bufqNscanCreate
  queue := bufqNscanQueue
  dequeue := bufqNscanDequeue

def NscanData.held (data : NscanData) : List Buf := data.sorted ++ data.fifo

theorem bufqSimpleNscan_perm (bp : Buf) (head : List Buf) :
    (bufqSimpleNscan bp head).Perm (bp :: head) := by
  induction head with
  | nil => exact List.Perm.refl _
  | cons cur head ih =>
    unfold bufqSimpleNscan
    split_ifs
    · exact List.Perm.refl _
    · exact (ih.cons cur).trans (List.Perm.swap bp cur head)

theorem resortLoop_held (left : ℕ) (sorted fifo : List Buf) :
    (resortLoop left sorted fifo).held.Perm (sorted ++ fifo) := by
  induction left generalizing sorted fifo with
  | zero => exact List.Perm.refl _
  | succ left ih =>
    cases fifo with
    | nil => exact List.Perm.refl _
    | cons bp fifo =>
      have h := (bufqSimpleNscan_perm bp sorted).append_right fifo
      exact ((ih _ fifo).trans h).trans List.perm_middle.symm

theorem resort_held (data : NscanData) : (bufqNscanResort data).held.Perm data.held :=
  resortLoop_held nscanN data.sorted data.fifo

theorem pop_held (data : NscanData) :
    data.held = data.pop.1.toList ++ data.pop.2.held := by
  obtain ⟨sorted, fifo, room⟩ := data
  cases sorted <;> rfl

theorem pop_none (data : NscanData) : data.pop.1 = none ↔ data.sorted = [] := by
  obtain ⟨sorted, fifo, room⟩ := data
  cases sorted <;> simp [NscanData.pop]

theorem bufqSimpleNscan_ne_nil (bp : Buf) (head : List Buf) :
    bufqSimpleNscan bp head ≠ [] := by
  have h := (bufqSimpleNscan_perm bp head).length_eq
  intro h'
  rw [h'] at h
  exact absurd h (by simp)

/-- A refill takes something whenever there is something to take. -/
theorem resortLoop_sorted_nil {left : ℕ} {sorted fifo : List Buf}
    (h : (resortLoop (left + 1) sorted fifo).sorted = []) : sorted = [] ∧ fifo = [] := by
  induction left generalizing sorted fifo with
  | zero =>
    cases fifo with
    | nil => exact ⟨h, rfl⟩
    | cons bp fifo => exact absurd h (bufqSimpleNscan_ne_nil bp sorted)
  | succ left ih =>
    cases fifo with
    | nil => exact ⟨h, rfl⟩
    | cons bp fifo => exact absurd (ih h).1 (bufqSimpleNscan_ne_nil bp sorted)

def bufqNscanBag : BagImpl NscanData where
  toBufqImpl := bufqNscan
  held := NscanData.held
  held_create := rfl
  held_queue data bp := by
    change (bufqNscanQueue data bp).held.Perm (bp :: data.held)
    unfold bufqNscanQueue
    split_ifs
    · exact (bufqSimpleNscan_perm bp data.sorted).append_right data.fifo
    · rw [NscanData.held, ← List.append_assoc]
      exact List.perm_append_comm
  held_dequeue data := by
    change data.held.Perm ((bufqNscanDequeue data).1.toList ++ (bufqNscanDequeue data).2.held)
    unfold bufqNscanDequeue
    split_ifs
    · exact pop_held (bufqNscanResort data) ▸ (resort_held data).symm
    · exact pop_held data ▸ List.Perm.refl _
  dequeue_none data h := by
    change (bufqNscanDequeue data).1 = none at h
    unfold bufqNscanDequeue at h
    split_ifs at h with hs
    · have hn := resortLoop_sorted_nil ((pop_none _).mp h)
      rw [NscanData.held, hn.1, hn.2, List.append_nil]
    · exact absurd ((pop_none data).mp h) hs

def Ordered (bufs : List Buf) : Prop :=
  bufs.Pairwise fun ba bb => ba.b_blkno ≤ bb.b_blkno

theorem bufqSimpleNscan_ordered (bp : Buf) {head : List Buf} (h : Ordered head) :
    Ordered (bufqSimpleNscan bp head) := by
  induction head with
  | nil => exact List.pairwise_singleton _ _
  | cons cur head ih =>
    have hc := List.pairwise_cons.mp h
    unfold bufqSimpleNscan
    split_ifs with hlt
    · have hlt : bp.b_blkno < cur.b_blkno := of_decide_eq_true hlt
      refine List.pairwise_cons.mpr ⟨fun b hb => ?_, h⟩
      rcases List.mem_cons.mp hb with rfl | hb
      · exact hlt.le
      · exact hlt.le.trans (hc.1 b hb)
    · have hle : cur.b_blkno ≤ bp.b_blkno :=
        not_lt.mp fun h => hlt (decide_eq_true h)
      refine List.pairwise_cons.mpr ⟨fun b hb => ?_, ih hc.2⟩
      rcases List.mem_cons.mp ((bufqSimpleNscan_perm bp head).mem_iff.mp hb) with rfl | hb
      · exact hle
      · exact hc.1 b hb

theorem resortLoop_ordered (left : ℕ) {sorted : List Buf} (fifo : List Buf)
    (h : Ordered sorted) : Ordered (resortLoop left sorted fifo).sorted := by
  induction left generalizing sorted fifo with
  | zero => exact h
  | succ left ih =>
    cases fifo with
    | nil => exact h
    | cons bp fifo => exact ih fifo (bufqSimpleNscan_ordered bp h)

/-- What a refill does not take remains as room for late arrivals. -/
theorem resortLoop_room (left : ℕ) (sorted fifo : List Buf) :
    (resortLoop left sorted fifo).sorted.length +
      (resortLoop left sorted fifo).leftoverroom = sorted.length + left := by
  induction left generalizing sorted fifo with
  | zero => rfl
  | succ left ih =>
    cases fifo with
    | nil => rfl
    | cons bp fifo =>
      have hl := (bufqSimpleNscan_perm bp sorted).length_eq
      simp only [resortLoop, ih, hl, List.length_cons]
      omega

/-- The segment being served: `served` came out since the refill. -/
structure Serving (served : List Buf) (data : NscanData) : Prop where
  room : served.length + data.sorted.length + data.leftoverroom ≤ nscanN
  ordered : Ordered (served ++ data.sorted)

theorem serving_create : Serving [] bufqNscanCreate :=
  ⟨by decide, List.Pairwise.nil⟩

theorem serving_resort {data : NscanData} (h : data.sorted = []) :
    Serving [] (bufqNscanResort data) := by
  have hr := resortLoop_room nscanN data.sorted data.fifo
  have ho := resortLoop_ordered nscanN data.fifo (h ▸ List.Pairwise.nil : Ordered data.sorted)
  rw [h] at hr
  exact ⟨by simpa [bufqNscanResort, h] using hr.le, ho⟩

theorem Serving.queue {served : List Buf} {data : NscanData} (h : Serving served data)
    (bp : Buf) : Serving served (bufqNscanQueue data bp) := by
  obtain ⟨sorted, fifo, room⟩ := data
  unfold bufqNscanQueue
  split_ifs with hroom
  · -- a late arrival sorts strictly after the head, so after all that was served
    cases sorted with
    | nil => simp at hroom
    | cons next sorted =>
      have hlt : next.b_blkno < bp.b_blkno := by simpa [bufInorder] using hroom.2
      obtain ⟨hs, hn, hle⟩ := List.pairwise_append.mp h.ordered
      have hp := bufqSimpleNscan_perm bp (next :: sorted)
      constructor
      · have := h.room
        have hpos : 0 < room := hroom.1
        simp only [hp.length_eq, List.length_cons] at this ⊢
        omega
      · refine List.pairwise_append.mpr ⟨hs, bufqSimpleNscan_ordered bp hn, fun a ha b hb => ?_⟩
        rcases List.mem_cons.mp (hp.mem_iff.mp hb) with rfl | hb
        · exact (hle a ha next (by simp)).trans hlt.le
        · exact hle a ha b hb
  · exact ⟨h.room, h.ordered⟩

theorem Serving.pop {served : List Buf} {data : NscanData} (h : Serving served data) :
    Serving (served ++ data.pop.1.toList) data.pop.2 := by
  obtain ⟨sorted, fifo, room⟩ := data
  cases sorted with
  | nil => simpa [NscanData.pop] using h
  | cons bp sorted =>
    have := h.room
    simp only [List.length_cons] at this
    refine ⟨?_, by simpa [NscanData.pop] using h.ordered⟩
    simp only [NscanData.pop, Option.toList, List.length_append, List.length_singleton]
    omega

theorem Serving.dequeue {served : List Buf} {data : NscanData} (h : Serving served data) :
    Serving ((if data.sorted = [] then [] else served) ++ (bufqNscanDequeue data).1.toList)
      (bufqNscanDequeue data).2 := by
  unfold bufqNscanDequeue
  split_ifs with hs
  · exact (serving_resort hs).pop
  · exact h.pop

/-- How many dequeues of a run refill the segment. -/
def refills (data : NscanData) : List Call → ℕ
  | [] => 0
  | .queue bp :: cs => refills (bufqNscanQueue data bp) cs
  | .dequeue :: cs =>
    (if data.sorted = [] then 1 else 0) + refills (bufqNscanDequeue data).2 cs

theorem Serving.run {served : List Buf} {data : NscanData} (h : Serving served data)
    {cs : List Call} (hcs : refills data cs = 0) :
    Serving (served ++ taken (bufqNscan.run data cs).1) (bufqNscan.run data cs).2 := by
  induction cs generalizing served data with
  | nil => simpa [BufqImpl.run, taken] using h
  | cons c cs ih =>
    cases c with
    | queue bp => exact ih (h.queue bp) hcs
    | dequeue =>
      rw [refills, Nat.add_eq_zero_iff] at hcs
      have hs : data.sorted ≠ [] := fun hs => by simp [hs] at hcs
      have hd := h.dequeue
      rw [if_neg hs] at hd
      have := ih hd hcs.2
      rwa [List.append_assoc, ← taken_cons] at this

theorem exists_serving {served : List Buf} {data : NscanData} (h : Serving served data)
    (cs : List Call) : ∃ served', Serving served' (bufqNscan.run data cs).2 := by
  induction cs generalizing served data with
  | nil => exact ⟨served, h⟩
  | cons c cs ih =>
    cases c with
    | queue bp => exact ih (h.queue bp)
    | dequeue => exact ih h.dequeue

/-- Whatever a call and a run without a refill after it take is one segment. -/
theorem segment_taken {served : List Buf} {data : NscanData} (h : Serving served data)
    {c : Call} {cs : List Call} (hcs : refills (bufqNscan.run data [c]).2 cs = 0) :
    (taken (bufqNscan.run data (c :: cs)).1).length ≤ nscanN ∧
      Ordered (taken (bufqNscan.run data (c :: cs)).1) := by
  obtain ⟨earlier, hs⟩ : ∃ earlier, Serving
      (earlier ++ taken (bufqNscan.run data (c :: cs)).1) (bufqNscan.run data (c :: cs)).2 := by
    cases c with
    | queue bp => exact ⟨served, (h.queue bp).run hcs⟩
    | dequeue =>
      have := h.dequeue.run hcs
      rw [List.append_assoc, ← taken_cons] at this
      exact ⟨_, this⟩
  have hr := hs.room
  rw [List.length_append] at hr
  have ho := (List.pairwise_append.mp hs.ordered).1
  exact ⟨by omega, (List.pairwise_append.mp ho).2.1⟩

theorem resortLoop_perm (left : ℕ) (sorted fifo : List Buf) :
    (resortLoop left sorted fifo).sorted.Perm (sorted ++ fifo.take left) ∧
      (resortLoop left sorted fifo).fifo = fifo.drop left := by
  induction left generalizing sorted fifo with
  | zero => simp [resortLoop]
  | succ left ih =>
    cases fifo with
    | nil => simp [resortLoop]
    | cons bp fifo =>
      have h := (bufqSimpleNscan_perm bp sorted).append_right (fifo.take left)
      exact ⟨((ih _ fifo).1.trans h).trans List.perm_middle.symm, (ih _ fifo).2⟩

theorem resort_perm (data : NscanData) :
    (bufqNscanResort data).sorted.Perm (data.sorted ++ data.fifo.take nscanN) ∧
      (bufqNscanResort data).fifo = data.fifo.drop nscanN :=
  resortLoop_perm nscanN data.sorted data.fifo

theorem pop_fifo (data : NscanData) : data.pop.2.fifo = data.fifo := by
  obtain ⟨sorted, fifo, room⟩ := data
  cases sorted <;> rfl

/-- The dequeues that the segment can take before it is refilled. -/
def NscanData.quota (data : NscanData) : ℕ := data.sorted.length + data.leftoverroom

theorem quota_queue (data : NscanData) (bp : Buf) :
    (bufqNscanQueue data bp).quota = data.quota := by
  unfold bufqNscanQueue
  split_ifs with h
  · have hl := (bufqSimpleNscan_perm bp data.sorted).length_eq
    rw [List.length_cons] at hl
    simp only [NscanData.quota, hl]
    omega
  · rfl

theorem quota_pop {data : NscanData} (h : data.sorted ≠ []) :
    data.pop.2.quota + 1 = data.quota := by
  obtain ⟨sorted, fifo, room⟩ := data
  cases sorted with
  | nil => exact absurd rfl h
  | cons bp sorted =>
    simp only [NscanData.pop, NscanData.quota, List.length_cons]
    omega

theorem quota_resort {data : NscanData} (h : data.sorted = []) :
    (bufqNscanResort data).quota = nscanN := by
  rw [NscanData.quota, bufqNscanResort, resortLoop_room, h, List.length_nil, Nat.zero_add]

theorem mem_sorted_queue {data : NscanData} {bp : Buf} (h : bp ∈ data.sorted) (b : Buf) :
    bp ∈ (bufqNscanQueue data b).sorted := by
  unfold bufqNscanQueue
  split_ifs
  · exact (bufqSimpleNscan_perm b data.sorted).mem_iff.mpr (List.mem_cons_of_mem b h)
  · exact h

theorem mem_pop {data : NscanData} {bp : Buf} (h : bp ∈ data.sorted) :
    data.pop.1 = some bp ∨ bp ∈ data.pop.2.sorted := by
  obtain ⟨sorted, fifo, room⟩ := data
  cases sorted with
  | nil => exact absurd h List.not_mem_nil
  | cons b sorted =>
    rcases List.mem_cons.mp h with rfl | h
    · exact Or.inl rfl
    · exact Or.inr h

theorem mem_taken_cons {bp : Buf} {r : Option Buf} {rs : List (Option Buf)}
    (h : r = some bp ∨ bp ∈ taken rs) : bp ∈ taken (r :: rs) := by
  rw [taken_cons]
  rcases h with rfl | h
  · exact List.mem_append_left _ (by simp)
  · exact List.mem_append_right _ h

/-- A transfer in the segment comes out before the quota is used up. -/
theorem sorted_taken {data : NscanData} {bp : Buf} {cs : List Call} (h : bp ∈ data.sorted)
    (hcs : data.quota ≤ dequeues cs) : bp ∈ taken (bufqNscan.run data cs).1 := by
  induction cs generalizing data with
  | nil =>
    have hl := List.length_pos_of_mem h
    exact absurd hcs (by unfold NscanData.quota dequeues; omega)
  | cons c cs ih =>
    cases c with
    | queue b => exact ih (mem_sorted_queue h b) ((quota_queue data b).trans_le hcs)
    | dequeue =>
      have hs : data.sorted ≠ [] := List.ne_nil_of_mem h
      have hd : bufqNscan.dequeue data = data.pop := if_neg hs
      have hq := quota_pop hs
      rw [dequeues] at hcs
      refine mem_taken_cons ?_
      rw [hd]
      exact (mem_pop h).imp_right fun h => ih h (by omega)

/-- A transfer with `ahead` before it in the fifo waits for the segment being served,
for the full segments filled from what is ahead and for its own segment. -/
theorem fifo_taken {data : NscanData} {ahead behind : List Buf} {bp : Buf} {cs : List Call}
    (h : data.fifo = ahead ++ bp :: behind)
    (hcs : data.quota + (ahead.length / nscanN + 1) * nscanN ≤ dequeues cs) :
    bp ∈ taken (bufqNscan.run data cs).1 := by
  induction cs generalizing data ahead behind with
  | nil => exact absurd hcs (by unfold dequeues nscanN; omega)
  | cons c cs ih =>
    cases c with
    | queue b =>
      have hf : ∃ behind', (bufqNscanQueue data b).fifo = ahead ++ bp :: behind' := by
        unfold bufqNscanQueue
        split_ifs
        · exact ⟨behind, h⟩
        · exact ⟨behind ++ [b], by simp [h]⟩
      obtain ⟨behind', hf⟩ := hf
      refine ih hf ?_
      change (bufqNscanQueue data b).quota + _ ≤ _
      rwa [quota_queue]
    | dequeue =>
      rw [dequeues] at hcs
      refine mem_taken_cons ?_
      by_cases hs : data.sorted = []
      · obtain ⟨hp, hf⟩ := resort_perm data
        have hd : bufqNscan.dequeue data = (bufqNscanResort data).pop := if_pos hs
        have hq := quota_resort hs
        have hne : (bufqNscanResort data).sorted ≠ [] := fun hn => by
          have := (resortLoop_sorted_nil hn).2
          simp [h] at this
        have hq' := quota_pop hne
        rw [hd]
        rw [h] at hp hf
        by_cases hk : nscanN ≤ ahead.length
        · -- the refill takes only what is ahead
          rw [List.drop_append_of_le_length hk] at hf
          refine Or.inr (ih ((pop_fifo _).trans hf) ?_)
          rw [Nat.div_eq_sub_div (by decide : 0 < nscanN) hk] at hcs
          rw [List.length_drop]
          have : ((ahead.length - nscanN) / nscanN + 1 + 1) * nscanN =
              ((ahead.length - nscanN) / nscanN + 1) * nscanN + nscanN := Nat.succ_mul _ _
          omega
        · have hmem : bp ∈ (bufqNscanResort data).sorted := by
            refine hp.mem_iff.mpr (List.mem_append_right _ ?_)
            obtain ⟨n, hn⟩ : ∃ n, nscanN = ahead.length + (n + 1) :=
              ⟨nscanN - ahead.length - 1, by omega⟩
            rw [hn, List.take_length_add_append, List.take_succ_cons]
            simp
          have h1 : 1 * nscanN ≤ (ahead.length / nscanN + 1) * nscanN :=
            Nat.mul_le_mul_right _ (Nat.le_add_left 1 _)
          exact (mem_pop hmem).imp_right fun h => sorted_taken h (by omega)
      · have hd : bufqNscan.dequeue data = data.pop := if_neg hs
        have hq := quota_pop hs
        rw [hd]
        exact Or.inr (ih ((pop_fifo data).trans h) (by omega))

inductive BufqType where
  | fifo
  | nscan
  deriving Repr, DecidableEq

abbrev BufqType.Data : BufqType → Type
  | .fifo => List Buf
  | .nscan => NscanData

/-- The table `bufq_impls`. -/
def bufqImpls : (type : BufqType) → BagImpl type.Data
  | .fifo => bufqFifoBag
  | .nscan => bufqNscanBag

structure Bufq where
  bufq_type : BufqType
  bufq_data : bufq_type.Data

def Bufq.held (bq : Bufq) : List Buf := (bufqImpls bq.bufq_type).held bq.bufq_data

def bufqInit (type : BufqType) : Bufq := ⟨type, (bufqImpls type).create⟩

def ENOMEM : ℕ := 12

/-- `bufq_switch`, whose test and transfer hold the mutex but not together: the first
found the discipline `seen`, the second finds `bq`, and in between others may have
queued, dequeued or switched. `memory` is whether the new data could be allocated.
Besides the error, the data that are destroyed are returned. -/
def bufqSwitch (seen type : BufqType) (memory : Bool) (bq : Bufq) :
    ℕ × Bufq × Option Bufq :=
  if seen = type then (0, bq, none)
  else if !memory then (ENOMEM, bq, none)
  else if bq.bufq_type ≠ type then
    let moved := drain (bufqImpls bq.bufq_type) (bufqImpls type).toBufqImpl bq.bufq_data
      (bufqImpls type).create
    (0, ⟨type, moved.2⟩, some ⟨bq.bufq_type, moved.1⟩)
  else (0, bq, some (bufqInit type))

theorem bufqSwitch_held (seen type : BufqType) (memory : Bool) (bq : Bufq) :
    (bufqSwitch seen type memory bq).2.1.held.Perm bq.held ∧
      ∀ gone ∈ (bufqSwitch seen type memory bq).2.2, gone.held = [] := by
  unfold bufqSwitch
  split_ifs
  · exact ⟨List.Perm.refl _, by simp⟩
  · exact ⟨List.Perm.refl _, by simp⟩
  · obtain ⟨hold, hnew⟩ := drain_perm (bufqImpls bq.bufq_type) (bufqImpls type) bq.bufq_data
      (bufqImpls type).create
    rw [(bufqImpls type).held_create, List.append_nil] at hnew
    refine ⟨hnew, fun gone hgone => ?_⟩
    obtain rfl := Option.mem_some.mp hgone
    exact hold
  · refine ⟨List.Perm.refl _, fun gone hgone => ?_⟩
    obtain rfl := Option.mem_some.mp hgone
    exact (bufqImpls type).held_create

/-- What happens to a queue under its mutex. -/
inductive Event where
  | call (c : Call)
  | switch (seen type : BufqType) (memory : Bool)
  deriving Repr, DecidableEq

def Bufq.step (bq : Bufq) : Event → List (Option Buf) × Bufq
  | .call c =>
    let r := (bufqImpls bq.bufq_type).run bq.bufq_data [c]
    (r.1, ⟨bq.bufq_type, r.2⟩)
  | .switch seen type memory => ([], (bufqSwitch seen type memory bq).2.1)

def Bufq.run (bq : Bufq) : List Event → List (Option Buf) × Bufq
  | [] => ([], bq)
  | e :: es =>
    let rest := (bq.step e).2.run es
    ((bq.step e).1 ++ rest.1, rest.2)

def queuedBy : List Event → List Buf
  | [] => []
  | .call c :: es => queued [c] ++ queuedBy es
  | .switch _ _ _ :: es => queuedBy es

theorem Bufq.run_perm (bq : Bufq) (es : List Event) :
    (taken (bq.run es).1 ++ (bq.run es).2.held).Perm (queuedBy es ++ bq.held) := by
  induction es generalizing bq with
  | nil => exact List.Perm.refl _
  | cons e es ih =>
    cases e with
    | call c =>
      have hc := (bufqImpls bq.bufq_type).run_perm bq.bufq_data [c]
      have h := (ih (bq.step (.call c)).2).append_left (taken (bq.step (.call c)).1)
      have hsplit : taken (bq.run (.call c :: es)).1 = taken (bq.step (.call c)).1 ++
          taken ((bq.step (.call c)).2.run es).1 := List.filterMap_append
      rw [hsplit, List.append_assoc]
      refine h.trans ?_
      have hq := hc.append_left (queuedBy es)
      simp only [queuedBy]
      refine List.Perm.trans ?_ (hq.trans ?_)
      · simp only [← List.append_assoc]
        exact List.Perm.append_right _ List.perm_append_comm
      · simp only [← List.append_assoc]
        exact List.Perm.append_right _ List.perm_append_comm
    | switch seen type memory =>
      have h := (bufqSwitch_held seen type memory bq).1
      exact (ih _).trans (h.append_left _)

/-- The n-step scan after any calls. What was queued came out once or is held, and only
an empty queue has nothing to give; a refill and what follows it up to the next one
is at most `nscanN` transfers in block order; nothing waits longer than the full
segments ahead of it and the two it can share; and neither does a queue of either
discipline lose or duplicate anything when it is switched. -/
theorem bufqNscan_serves (before : List Call) :
    let results := (bufqNscan.run bufqNscan.create before).1
    let data := (bufqNscan.run bufqNscan.create before).2
    ((taken results ++ data.held).Perm (queued before) ∧
      ((bufqNscanDequeue data).1 = none ↔ data.held = [])) ∧
    (∀ c cs, refills (bufqNscan.run data [c]).2 cs = 0 →
      (taken (bufqNscan.run data (c :: cs)).1).length ≤ nscanN ∧
        Ordered (taken (bufqNscan.run data (c :: cs)).1)) ∧
    (∀ bp ∈ data.sorted, ∀ cs, nscanN ≤ dequeues cs →
      bp ∈ taken (bufqNscan.run data cs).1) ∧
    (∀ ahead bp behind, data.fifo = ahead ++ bp :: behind → ∀ cs,
      (ahead.length / nscanN + 2) * nscanN ≤ dequeues cs →
        bp ∈ taken (bufqNscan.run data cs).1) ∧
    (∀ type es, (taken ((bufqInit type).run es).1 ++ ((bufqInit type).run es).2.held).Perm
      (queuedBy es)) ∧
    ∀ seen type memory bq, (bufqSwitch seen type memory bq).2.1.held.Perm bq.held ∧
      ∀ gone ∈ (bufqSwitch seen type memory bq).2.2, gone.held = [] := by
  intro results data
  obtain ⟨served, hs⟩ := exists_serving serving_create before
  have hquota : data.quota ≤ nscanN := by
    have := hs.room
    change served.length + data.sorted.length + data.leftoverroom ≤ nscanN at this
    unfold NscanData.quota
    omega
  refine ⟨⟨?_, bufqNscanBag.dequeue_none_iff data⟩, fun c cs hcs => segment_taken hs hcs,
    fun bp hbp cs hcs => sorted_taken hbp (hquota.trans hcs),
    fun ahead bp behind hf cs hcs => fifo_taken hf ?_, fun type es => ?_, bufqSwitch_held⟩
  · have h := bufqNscanBag.run_perm bufqNscan.create before
    have hcreate : bufqNscanBag.held bufqNscan.create = [] := rfl
    rwa [hcreate, List.append_nil] at h
  · have : (ahead.length / nscanN + 2) * nscanN =
        (ahead.length / nscanN + 1) * nscanN + nscanN := Nat.succ_mul _ _
    omega
  · have h := (bufqInit type).run_perm es
    have hinit : (bufqInit type).held = [] := (bufqImpls type).held_create
    rwa [hinit, List.append_nil] at h

theorem bufqNscan_serves_two :
    [⟨0, 40⟩, ⟨0, 16⟩] ⊆ taken (bufqNscan.run ⟨[], [⟨0, 40⟩, ⟨0, 16⟩], 0⟩ (List.replicate 256 .dequeue)).1 := by
  obtain ⟨-, -, -, hserved, -⟩ := bufqNscan_serves [.queue ⟨0, 40⟩, .queue ⟨0, 16⟩]
  have h0 := hserved [] ⟨0, 40⟩ [⟨0, 16⟩] rfl (List.replicate 256 .dequeue) (by decide +kernel)
  have h1 := hserved [⟨0, 40⟩] ⟨0, 16⟩ [] rfl (List.replicate 256 .dequeue) (by decide +kernel)
  exact List.cons_subset.2 ⟨h0, List.cons_subset.2 ⟨h1, List.nil_subset _⟩⟩

end OpenbsdKernel.KernBufq
