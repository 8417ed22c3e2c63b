import Mathlib.Tactic

/-!
# Allotment routing tables

`net/art.c`. A root owns a tree of tables, one stride of the address each. The
tables live in a memory of their own, so that a table is known by its address and
reading one that has been freed has no result; neither has a failed assertion.
The outcome of an allocation is given from outside, by the level of the table.
-/
namespace OpenbsdKernel.Art

/-- `struct art_node`: the object itself, the address it is entered under and its
prefix length. -/
structure Node where
  ptr : ℕ
  key : List UInt8
  an_plen : ℕ
  deriving DecidableEq, Repr

/-- A word of the heap: a node, possibly NULL, or with its low bit set a table. -/
inductive Entry where
  | node (an : Option Node)
  | child (t : ℕ)
  deriving DecidableEq, Repr

def Entry.asNode : Entry → Option Node
  | .node an => an
  | .child _ => none

/-- `struct art_table`. Word 0 of the heap, the route counter, is a field of its own. -/
structure Table where
  at_parent : Option ℕ
  at_index : ℕ
  at_minfringe : ℕ
  at_level : ℕ
  at_bits : ℕ
  at_offset : ℕ
  at_refcnt : ℤ
  at_heap : ℕ → Entry

def Table.at_default (at_ : Table) : Option Node := (at_.at_heap 1).asNode

/-- `struct art_root` with the memory of the tables and the next address in it. -/
structure Root where
  ar_root : ℕ
  ar_bits : List ℕ
  ar_nlvl : ℕ
  ar_alen : ℕ
  ar_off : ℕ
  tables : ℕ → Option Table
  fresh : ℕ

def Root.modify (ar : Root) (t : ℕ) (f : Table → Table) : Root :=
  { ar with tables := Function.update ar.tables t ((ar.tables t).map f) }

def Root.setHeap (ar : Root) (t k : ℕ) (e : Entry) : Root :=
  ar.modify t fun at_ => { at_ with at_heap := Function.update at_.at_heap k e }

/-- The base index of `addr` and `plen` in the range covered by the table; `none`
stands for -1. The strides of `art_attach` keep `bend` at 24 and below. -/
def art_bindex (at_ : Table) (addr : List UInt8) (plen : ℕ) : Option ℕ :=
  if plen < at_.at_offset ∨ plen > at_.at_offset + at_.at_bits then none
  else
    let plen := plen - at_.at_offset
    let a := fun i => (addr.getD (at_.at_offset / 8 + i) 0).toNat
    let boff := at_.at_offset % 8
    let bend := at_.at_bits + boff
    let k :=
      if bend > 24 then
        (a 0 &&& ((1 <<< (8 - boff)) - 1)) <<< (bend - 8) ||| a 1 <<< (bend - 16) |||
          a 2 <<< (bend - 24) ||| a 3 >>> (32 - bend)
      else if bend > 16 then
        (a 0 &&& ((1 <<< (8 - boff)) - 1)) <<< (bend - 8) ||| a 1 <<< (bend - 16) |||
          a 2 >>> (24 - bend)
      else if bend > 8 then
        (a 0 &&& ((1 <<< (8 - boff)) - 1)) <<< (bend - 8) ||| a 1 >>> (16 - bend)
      else (a 0 >>> (8 - bend)) &&& ((1 <<< at_.at_bits) - 1)
    some ((k >>> (at_.at_bits - plen)) + (1 <<< plen))

/-- The fringe index of `addr`. -/
def art_findex (at_ : Table) (addr : List UInt8) : Option ℕ :=
  art_bindex at_ addr (at_.at_offset + at_.at_bits)

def art_check_duplicate (old : Option Node) (new : Node) : Bool :=
  match old with
  | none => false
  | some old => old.an_plen = new.an_plen

def art_table_ref (ar : Root) (t : ℕ) : Root :=
  ar.modify t fun at_ => { at_ with at_refcnt := at_.at_refcnt + 1 }

/-- Create a table below index `j` of the parent, without modifying the parent. The
root is made with no parent and index -1. -/
def art_table_get (ar : Root) (parent : Option ℕ) (j : ℕ) (mem : ℕ → Bool) :
    Option (Root × Option ℕ) := do
  guard (j ≠ 0 ∧ j ≠ 1)
  guard (parent ≠ none ∨ j = 2 ^ 32 - 1)
  let above ← parent.elim (some none) fun p => (ar.tables p).map some
  let lvl := above.elim 0 fun p => p.at_level + 1
  guard (lvl < ar.ar_nlvl)
  if mem lvl then
    let bits := ar.ar_bits.getD lvl 0
    let at_ : Table :=
      { at_parent := parent
        at_index := j
        at_minfringe := 1 <<< bits
        at_level := lvl
        at_bits := bits
        at_offset := above.elim 0 fun p => p.at_offset + p.at_bits
        at_refcnt := 0
        at_heap := Function.update (fun _ => .node none) 1
          (.node (above.elim none fun p => (p.at_heap j).asNode)) }
    let t := ar.fresh
    let ar := { ar with tables := Function.update ar.tables t (some at_), fresh := t + 1 }
    return (art_table_ref ar t, some t)
  else
    return (ar, none)

mutual

/-- Drop a reference. An empty table is collected, with its parents that are empty;
whether that happened is returned. -/
def art_table_free : ℕ → Root → ℕ → Option (Root × Bool)
  | 0, _, _ => none
  | fuel + 1, ar, t => do
    let at_ ← ar.tables t
    let ar := ar.modify t fun at_ => { at_ with at_refcnt := at_.at_refcnt - 1 }
    if at_.at_refcnt - 1 = 0 then
      return (← collect fuel ar t, true)
    else
      return (ar, false)

def collect : ℕ → Root → ℕ → Option Root
  | 0, _, _ => none
  | fuel + 1, ar, t => do
    let (ar, p) ← art_table_put fuel ar t
    let at_ ← ar.tables p
    if at_.at_refcnt = 0 then collect fuel ar p else return ar

def art_table_put : ℕ → Root → ℕ → Option (Root × ℕ)
  | 0, _, _ => none
  | fuel + 1, ar, t => do
    let at_ ← ar.tables t
    let j := at_.at_index
    guard (j ≠ 0 ∧ j ≠ 1)
    let p ← at_.at_parent
    let parent ← ar.tables p
    guard (at_.at_level = parent.at_level + 1)
    let (ar, _) ← art_table_free fuel (ar.setHeap p j (.node at_.at_default)) p
    return ({ ar with tables := Function.update ar.tables t none }, p)

end

/-- The places of `art_allot` that control passes through. -/
inductive Label where
  | again | fringe | nonfringe | moveon | moveup
  deriving DecidableEq, Repr

/-- From one label to the next; `none` in the place of the next is the end. -/
def allotStep (t i : ℕ) (old new : Option Node) (ar : Root) :
    Label → ℕ → Option (Root × Option (Label × ℕ))
  | .again, k => do
    let at_ ← ar.tables t
    let k := k <<< 1
    return (ar, some (if k < at_.at_minfringe then .nonfringe else .fringe, k))
  | .fringe, k => do
    let at_ ← ar.tables t
    let ar ← match at_.at_heap k with
      | .child c => do
        let ct ← ar.tables c
        if ct.at_heap 1 = .node old then pure (ar.setHeap c 1 (.node new)) else pure ar
      | .node an => if an = old then pure (ar.setHeap t k (.node new)) else pure ar
    if k % 2 = 1 then return (ar, some (.moveup, k)) else return (ar, some (.fringe, k + 1))
  | .nonfringe, k => do
    let at_ ← ar.tables t
    return (ar, some (if at_.at_heap k = .node old then .again else .moveon, k))
  | .moveon, k =>
    if k % 2 = 1 then some (ar, some (.moveup, k)) else some (ar, some (.nonfringe, k + 1))
  | .moveup, k =>
    let k := k >>> 1
    let ar := ar.setHeap t k (.node new)
    if k ≠ i then some (ar, some (.moveon, k)) else some (ar, none)

def allotLoop (t i : ℕ) (old new : Option Node) : ℕ → Root → Label → ℕ → Option Root
  | 0, _, _, _ => none
  | fuel + 1, ar, l, k => do
    let (ar, next) ← allotStep t i old new ar l k
    match next with
    | none => return ar
    | some (l, k) => allotLoop t i old new fuel ar l k

example (t i k : ℕ) (old new : Option Node) (ar : Root) (h : ar.tables t = none) :
    allotLoop t i old new 1 ar .again k = none := by
  simp [allotLoop, allotStep, h]

/-- Substitute a node by another in the subtree whose root index is given. -/
def art_allot (ar : Root) (t i : ℕ) (old new : Option Node) : Option Root := do
  let at_ ← ar.tables t
  guard (i < at_.at_minfringe)
  allotLoop t i old new (12 * at_.at_minfringe) ar .again i

/-- The route that index `i` shows: the entry itself, or the default of the subtable. -/
def shownAt (ar : Root) (at_ : Table) (i : ℕ) : Option (Option Node) :=
  match at_.at_heap i with
  | .child c => (ar.tables c).map Table.at_default
  | .node an => some an

example (ar : Root) (at_ : Table) (i : ℕ) (an : Option Node) (h : at_.at_heap i = .node an) :
    shownAt ar at_ i = some an := by
  simp [shownAt, h]

/-- Give index `i` another route: allot it below an index that is not in the fringe. -/
def art_set (ar : Root) (t i : ℕ) (old new : Option Node) : Option Root := do
  let at_ ← ar.tables t
  if i < at_.at_minfringe then art_allot ar t i old new
  else match at_.at_heap i with
    | .child c => return ar.setHeap c 1 (.node new)
    | .node _ => return ar.setHeap t i (.node new)

def art_table_insert (ar : Root) (t i : ℕ) (an : Node) : Option (Root × Option Node) := do
  let at_ ← ar.tables t
  let prev ← shownAt ar at_ i
  if art_check_duplicate prev an then return (ar, prev)
  let ar ← art_set (art_table_ref ar t) t i prev (some an)
  return (ar, some an)

/-- The way down to the table that covers `plen`, making the tables that are missing;
`none` in the place of the table is a failed allocation. -/
def insertLoop (addr : List UInt8) (plen : ℕ) (mem : ℕ → Bool) :
    ℕ → Root → ℕ → Option (Root × Option ℕ)
  | 0, _, _ => none
  | fuel + 1, ar, t => do
    let at_ ← ar.tables t
    if plen > at_.at_offset + at_.at_bits then
      let j ← art_findex at_ addr
      match at_.at_heap j with
      | .child c => insertLoop addr plen mem fuel ar c
      | .node _ =>
        let (ar, child) ← art_table_get ar (some t) j mem
        match child with
        | none => return (ar, none)
        | some c => insertLoop addr plen mem fuel (ar.setHeap t j (.child c)) c
    else
      return (ar, some t)

/-- Insert the given node or return the one present with the same destination/mask. -/
def art_insert (ar : Root) (an : Node) (addr : List UInt8) (plen : ℕ) (mem : ℕ → Bool) :
    Option (Root × Option Node) := do
  guard (plen ≤ ar.ar_alen)
  if plen = 0 then
    let at_ ← ar.tables ar.ar_root
    if art_check_duplicate at_.at_default an then return (ar, at_.at_default)
    return (ar.setHeap ar.ar_root 1 (.node (some an)), some an)
  let (ar, found) ← insertLoop addr plen mem ar.ar_nlvl ar ar.ar_root
  match found with
  | none => return (ar, none)
  | some t =>
    let at_ ← ar.tables t
    match art_bindex at_ addr plen with
    | none => return (ar, none)
    | some i => art_table_insert ar t i an

/-- The way down to the table that covers `plen`; `none` in the place of the table is
a leaf on the way. -/
def lookupLoop (ar : Root) (addr : List UInt8) (plen : ℕ) : ℕ → ℕ → Option (Option ℕ)
  | 0, _ => none
  | fuel + 1, t => do
    let at_ ← ar.tables t
    if plen > at_.at_offset + at_.at_bits then
      let j ← art_findex at_ addr
      match at_.at_heap j with
      | .child c => lookupLoop ar addr plen fuel c
      | .node _ => return none
    else
      return some t

/-- Perfect lookup. -/
def art_lookup (ar : Root) (addr : List UInt8) (plen : ℕ) : Option (Option Node) := do
  guard (plen ≤ ar.ar_alen)
  if plen = 0 then
    let at_ ← ar.tables ar.ar_root
    return at_.at_default
  match ← lookupLoop ar addr plen ar.ar_nlvl ar.ar_root with
  | none => return none
  | some t =>
    let at_ ← ar.tables t
    match art_bindex at_ addr plen with
    | none => return none
    | some i => shownAt ar at_ i

def matchLoop (ar : Root) (addr : List UInt8) : ℕ → ℕ → Option Node → Option (Option Node)
  | 0, _, _ => none
  | fuel + 1, t, dflt => do
    let at_ ← ar.tables t
    let dflt := if at_.at_default ≠ none then at_.at_default else dflt
    let j ← art_findex at_ addr
    match at_.at_heap j with
    | .child c => matchLoop ar addr fuel c dflt
    | .node an => return (if an ≠ none then an else dflt)

/-- The best existing match for a destination. -/
def art_match (ar : Root) (addr : List UInt8) : Option (Option Node) :=
  matchLoop ar addr ar.ar_nlvl ar.ar_root none

def art_table_delete (ar : Root) (t i : ℕ) (node : Node) : Option (Root × Option Node) := do
  let at_ ← ar.tables t
  let prev ← shownAt ar at_ i
  guard (prev = some node)
  let (ar, collected) ← art_table_free (4 * ar.ar_nlvl + 4) ar t
  if collected then return (ar, some node)
  let at_ ← ar.tables t
  let next := if i >>> 1 > 1 then (at_.at_heap (i >>> 1)).asNode else none
  let ar ← art_set ar t i (some node) next
  return (ar, some node)

def art_delete (ar : Root) (an : Node) (addr : List UInt8) (plen : ℕ) :
    Option (Root × Option Node) := do
  guard (plen ≤ ar.ar_alen)
  if plen = 0 then
    let at_ ← ar.tables ar.ar_root
    let dflt := at_.at_default
    if art_check_duplicate dflt an then
      return (ar.setHeap ar.ar_root 1 (.node none), dflt)
    else
      return (ar, none)
  match ← lookupLoop ar addr plen ar.ar_nlvl ar.ar_root with
  | none => return (ar, none)
  | some t =>
    let at_ ← ar.tables t
    match art_bindex at_ addr plen with
    | none => return (ar, none)
    | some i => art_table_delete ar t i an

section Walk
variable {σ : Type}

def visitAll (g : ℕ → σ → Option (ℤ × σ)) : List ℕ → σ → Option (ℤ × σ)
  | [], st => some (0, st)
  | i :: is, st => do
    let (error, st) ← g i st
    if error ≠ 0 then return (error, st) else visitAll g is st

/-- The indices `i`, `i << 1`, ... below the fringe. -/
def doubles (minfringe : ℕ) : ℕ → ℕ → List ℕ
  | 0, _ => []
  | fuel + 1, i => if i < minfringe then i :: doubles minfringe fuel (i <<< 1) else []

def naturalOrder (at_ : Table) : List ℕ :=
  ((List.range at_.at_minfringe).filter (· % 2 = 1)).flatMap fun j =>
    doubles at_.at_minfringe at_.at_bits (max j 2)

/-- Call `f` unless the index shows nothing or what the index above it shows. -/
def visit (f : Node → σ → ℤ × σ) (at_ : Table) (an : Option Node) (i : ℕ) (st : σ) : ℤ × σ :=
  match an with
  | none => (0, st)
  | some n => if at_.at_heap (i >>> 1) = .node an then (0, st) else f n st

def art_table_walk (ar : Root) (f : Node → σ → ℤ × σ) : ℕ → ℕ → σ → Option (ℤ × σ)
  | 0, _, _ => none
  | fuel + 1, t, st => do
    let at_ ← ar.tables t
    let (error, st) ← visitAll
      (fun i st => some (visit f at_ (at_.at_heap i).asNode i st)) (naturalOrder at_) st
    if error ≠ 0 then return (error, st)
    visitAll (fun i st => do
      let an ← shownAt ar at_ i
      let (error, st) := visit f at_ an i st
      if error ≠ 0 then return (error, st)
      match at_.at_heap i with
      | .node _ => return (0, st)
      | .child c => art_table_walk ar f fuel c st)
      (List.range' at_.at_minfringe at_.at_minfringe) st

def art_walk (ar : Root) (f : Node → σ → ℤ × σ) (st : σ) : Option (ℤ × σ) := do
  let at_ ← ar.tables ar.ar_root
  let (error, st) := match at_.at_default with
    | none => (0, st)
    | some an => f an st
  if error ≠ 0 then return (error, st)
  art_table_walk ar f ar.ar_nlvl ar.ar_root st

end Walk

/-- Per routing table initialization, for keys at offset `off`: 4 for IPv4 and MPLS, 8
for IPv6. NULL is `some none`. -/
def art_attach (off : ℕ) (mem : ℕ → Bool) : Option (Option Root) :=
  let attach := fun (bits : List ℕ) (nlvl alen : ℕ) => do
    let (ar, root) ←
      art_table_get ⟨0, bits, nlvl, alen, off, fun _ => none, 0⟩ none (2 ^ 32 - 1) mem
    return root.map fun t => { ar with ar_root := t }
  if off = 4 then attach [16, 8, 8] 3 32
  else if off = 8 then attach (List.replicate 16 8) 16 128
  else some none

end OpenbsdKernel.Art
