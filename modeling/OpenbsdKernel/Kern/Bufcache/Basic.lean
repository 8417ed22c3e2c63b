import Mathlib.Tactic
import Mathlib.Logic.Function.Basic

/-!
# The queues of the buffer cache

The 2Q caches of `kern/vfs_bio.c`. A buffer is named by a number in place of its
address. Failed assertions and the panic of `chillbufs` are faults, as is a `while`
loop that outlives the bound given to it; the results show that none is reached.
-/
namespace OpenbsdKernel.Bufcache

def NUM_CACHES : ℕ := 2

def DMA_CACHE : ℕ := 0

/-- The fields of `struct buf` that the caches use, with the `B_*` bits of `b_flags`. -/
structure Buf where
  bc : Bool
  dma : Bool
  cold : Bool
  warm : Bool
  delwri : Bool
  cache : ℕ
  b_bufsize : ℕ
  deriving DecidableEq, Repr

/-- `atop`, for pages of 4096 bytes. -/
def atop (x : ℕ) : ℕ := x / 4096

inductive Queue where
  | hot
  | warm
  | cold
  deriving DecidableEq, Repr

structure BufCache where
  hotbufpages : ℤ
  warmbufpages : ℤ
  cachepages : ℤ
  hotqueue : List ℕ
  coldqueue : List ℕ
  warmqueue : List ℕ
  deriving DecidableEq, Repr

/-- The buffers, the caches, and the counters of `bcstats`. -/
structure State where
  buf : ℕ → Buf
  cleancache : ℕ → BufCache
  dirtyqueue : List ℕ
  numcleanpages : ℤ
  numdirtypages : ℤ
  delwribufs : ℤ

inductive Fault where
  | panic
  | kassert
  | spin
  deriving DecidableEq, Repr

namespace BufCache

def queue (c : BufCache) : Queue → List ℕ
  | .hot => c.hotqueue
  | .warm => c.warmqueue
  | .cold => c.coldqueue

def setQueue (c : BufCache) (l : List ℕ) : Queue → BufCache
  | .hot => { c with hotqueue := l }
  | .warm => { c with warmqueue := l }
  | .cold => { c with coldqueue := l }

/-- The counter that goes with a queue; the cold queue has none. -/
def queuepages (c : BufCache) : Queue → ℤ
  | .hot => c.hotbufpages
  | .warm => c.warmbufpages
  | .cold => 0

def addQueuepages (c : BufCache) (n : ℤ) : Queue → BufCache
  | .hot => { c with hotbufpages := c.hotbufpages + n }
  | .warm => { c with warmbufpages := c.warmbufpages + n }
  | .cold => c

/-- Count `n` more pages in the cache and in one of its queues. -/
def count (c : BufCache) (n : ℤ) (q : Queue) : BufCache :=
  { c.addQueuepages n q with cachepages := c.cachepages + n }

end BufCache

def emptyCache : BufCache := ⟨0, 0, 0, [], [], []⟩

def bufcacheInit (buf : ℕ → Buf) : State :=
  { buf := buf, cleancache := fun _ => emptyCache, dirtyqueue := [], numcleanpages := 0,
    numdirtypages := 0, delwribufs := 0 }

/-- The pages of a buffer. -/
def State.pages (s : State) (bp : ℕ) : ℕ := atop (s.buf bp).b_bufsize

def State.setBuf (s : State) (bp : ℕ) (b : Buf) : State :=
  { s with buf := Function.update s.buf bp b }

def State.setCache (s : State) (i : ℕ) (c : BufCache) : State :=
  { s with cleancache := Function.update s.cleancache i c }

/-- `TAILQ_REMOVE` from a queue of a cache. -/
def State.unlink (s : State) (i : ℕ) (q : Queue) (bp : ℕ) : State :=
  s.setCache i ((s.cleancache i).setQueue (((s.cleancache i).queue q).erase bp) q)

/-- `TAILQ_INSERT_TAIL` into a queue of a cache. -/
def State.insertTail (s : State) (i : ℕ) (q : Queue) (bp : ℕ) : State :=
  s.setCache i ((s.cleancache i).setQueue ((s.cleancache i).queue q ++ [bp]) q)

/-- Move a buffer to the cold queue of its cache; `B_WARM` is not cleared. -/
def chill (s : State) (i : ℕ) (q : Queue) (bp : ℕ) : State :=
  let s := s.setCache i ((s.cleancache i).addQueuepages (-s.pages bp) q)
  let s := s.unlink i q bp
  let s := s.setBuf bp { s.buf bp with cold := true }
  s.insertTail i .cold bp

/-- `chillbufs` on the hot or the warm queue of a cache. -/
def chillbufs (s : State) (i : ℕ) (q : Queue) : Except Fault (State × Bool) :=
  let cache := s.cleancache i
  let limit := cache.cachepages.tdiv 3
  if 96 < cache.queuepages q ∧ limit < cache.queuepages q then
    match cache.queue q with
    | [] => .error .panic
    | bp :: _ => .ok (chill s i q bp, true)
  else .ok (s, false)

/-- Count `n` pages in a cache and in one of its queues, and `k` in the total. -/
def State.count (s : State) (i : ℕ) (q : Queue) (n k : ℤ) : State :=
  { s.setCache i ((s.cleancache i).count n q) with numcleanpages := s.numcleanpages + k }

/-- Count a buffer, chill its new queue if that has grown too large, and insert it; the
total grows by `k`. -/
def fileClean (s : State) (i : ℕ) (q : Queue) (bp : ℕ) (k : ℤ) : Except Fault State := do
  let (s, _) ← chillbufs (s.count i q (s.pages bp) k) i q
  .ok (s.insertTail i q bp)

/-- The loop of `bufcache_adjust` over one cache, bounded by a number of turns. -/
def adjustCache : ℕ → State → ℕ → Except Fault State
  | 0, _, _ => .error .spin
  | n + 1, s, i => do
    let (s, warm) ← chillbufs s i .warm
    if warm then adjustCache n s i
    else
      let (s, hot) ← chillbufs s i .hot
      if hot then adjustCache n s i else .ok s

def bufcacheAdjust (s : State) : Except Fault State :=
  (List.range NUM_CACHES).foldlM (fun s i =>
    adjustCache ((s.cleancache i).warmqueue.length + (s.cleancache i).hotqueue.length + 1) s i) s

def bufFlipHigh (s : State) (bp : ℕ) : Except Fault State :=
  let b := s.buf bp
  if b.bc ∧ b.dma ∧ b.cache = DMA_CACHE then .ok (s.setBuf bp { b with dma := false })
  else .error .kassert

/-- One turn of the loop of `bufcache_getcleanbuf`: a buffer that has been warm moves from
the cold queue to the hot queue of the next cache. -/
def promote (s : State) (cachenum bp : ℕ) : Except Fault State := do
  let s := s.unlink cachenum .cold bp
  let s := s.setBuf bp { s.buf bp with warm := false, cold := false }
  if (s.buf bp).cache ≠ cachenum then .error .kassert
  else
    let s ← if (s.buf bp).cache = 0 then bufFlipHigh s bp else .ok s
    let s := s.setBuf bp { s.buf bp with cache := (s.buf bp).cache + 1 }
    -- the pages stay counted in the old cache
    fileClean s (s.buf bp).cache .hot bp 0

/-- The loop of `bufcache_getcleanbuf` over the cold queue, bounded by a number of turns. -/
def coldLoop : ℕ → State → ℕ → Except Fault (State × Option ℕ)
  | 0, _, _ => .error .spin
  | n + 1, s, cachenum =>
    match (s.cleancache cachenum).coldqueue with
    | [] => .ok (s, none)
    | bp :: _ =>
      if cachenum < NUM_CACHES - 1 ∧ (s.buf bp).warm then do
        let s ← promote s cachenum bp
        coldLoop n s cachenum
      else .ok (s, some bp)

/-- `bufcache_getcleanbuf`. -/
def getcleanbuf (s : State) (cachenum : ℕ) : Except Fault (State × Option ℕ) := do
  let (s, bp) ← coldLoop ((s.cleancache cachenum).coldqueue.length + 1) s cachenum
  let cache := s.cleancache cachenum
  match bp with
  | some bp => .ok (s, some bp)
  | none =>
    match cache.warmqueue.head? with
    | some bp => .ok (s, some bp)
    | none => .ok (s, cache.hotqueue.head?)

/-- The caches in the order in which `bufcache_getanycleanbuf` asks them: the last one
first, in turns that each leave out one more of the first caches. -/
def searchOrder : List ℕ :=
  (List.range NUM_CACHES).flatMap fun j =>
    ((List.range NUM_CACHES).filter fun i => j ≤ i).reverse

/-- The loops of `bufcache_getanycleanbuf`. -/
def firstClean (s : State) : List ℕ → Except Fault (State × Option ℕ)
  | [] => .ok (s, none)
  | i :: is => do
    let (s, bp) ← getcleanbuf s i
    match bp with
    | some bp => .ok (s, some bp)
    | none => firstClean s is

/-- `bufcache_getanycleanbuf`. -/
def getanycleanbuf (s : State) : Except Fault (State × Option ℕ) := firstClean s searchOrder

/-- The queue of a clean buffer, by its flags. -/
def Buf.queue (b : Buf) : Queue :=
  if b.cold then .cold else if b.warm then .warm else .hot

def bufcacheTake (s : State) (bp : ℕ) : Except Fault State :=
  let b := s.buf bp
  if b.bc ∧ DMA_CACHE ≤ b.cache ∧ b.cache < NUM_CACHES then
    let pages : ℤ := s.pages bp
    if !b.delwri then
      .ok ((s.count b.cache b.queue (-pages) (-pages)).unlink b.cache b.queue bp)
    else
      .ok { s with
        numdirtypages := s.numdirtypages - pages
        delwribufs := s.delwribufs - 1
        dirtyqueue := s.dirtyqueue.erase bp }
  else .error .kassert

def bufcacheRelease (s : State) (bp : ℕ) : Except Fault State :=
  let b := s.buf bp
  let pages : ℤ := s.pages bp
  if b.bc ∧ ((b.dma ∧ b.cache = 0) ∨ (!b.dma ∧ 0 < b.cache)) then
    if !b.delwri then
      if b.warm ∨ b.cold then
        fileClean (s.setBuf bp { b with warm := true, cold := false }) b.cache .warm bp pages
      else fileClean s b.cache .hot bp pages
    else
      .ok { s with
        numdirtypages := s.numdirtypages + pages
        delwribufs := s.delwribufs + 1
        dirtyqueue := s.dirtyqueue ++ [bp] }
  else .error .kassert

/-- What the rest of the kernel does to the caches. -/
inductive Op where
  | release (bp : ℕ)
  | take (bp : ℕ)
  | getclean (cachenum : ℕ)
  | getanyclean
  | adjust
  | setDelwri (bp : ℕ) (v : Bool)
  deriving DecidableEq, Repr

def step (s : State) : Op → Except Fault State
  | .release bp => bufcacheRelease s bp
  | .take bp => bufcacheTake s bp
  | .getclean cachenum => (getcleanbuf s cachenum).map Prod.fst
  | .getanyclean => (getanycleanbuf s).map Prod.fst
  | .adjust => bufcacheAdjust s
  | .setDelwri bp v => .ok (s.setBuf bp { s.buf bp with delwri := v })

/-- A buffer is released when it is taken, taken when it is released, and its `B_DELWRI`
changes only in between. -/
def Enabled (released : Set ℕ) : Op → Prop
  | .release bp => bp ∉ released
  | .take bp => bp ∈ released
  | .getclean cachenum => cachenum < NUM_CACHES
  | .setDelwri bp _ => bp ∉ released
  | _ => True

def after (released : Set ℕ) : Op → Set ℕ
  | .release bp => insert bp released
  | .take bp => released \ {bp}
  | _ => released

/-- What the allocation of a buffer sets up. -/
structure Buf.Sane (b : Buf) : Prop where
  bc : b.bc = true
  dma : b.dma = true ↔ b.cache = 0
  cache : b.cache < NUM_CACHES
  pages : atop b.b_bufsize ≤ 96

/-- The states of a run in which every step meets a condition. -/
inductive Run (P : State → Op → Prop) : State → Set ℕ → Prop
  | init {buf : ℕ → Buf} (h : ∀ bp, (buf bp).Sane) : Run P (bufcacheInit buf) ∅
  | step {s s' : State} {released : Set ℕ} {op : Op} : Run P s released → Enabled released op →
      P s op → step s op = .ok s' → Run P s' (after released op)

end OpenbsdKernel.Bufcache
