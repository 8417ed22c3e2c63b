import Mathlib

/-!
# Pools

What `kern/subr_pool.c` does to a pool while it holds `pr_mtx`. A page is its address, and so is
an item. The page headers are `ph`, by the address of the page. What items hold, their magic and
poison among it, and the counters that are only shown are not modelled.
-/
namespace OpenbsdKernel.Pool

/-- The fields of `struct pool` that `pool_init` and the setters fill in. -/
structure Config where
  pr_size : ℕ
  pr_pgsize : ℕ
  pr_phoffset : ℕ
  pr_itemsperpage : ℕ
  pr_align : ℕ
  pr_minitems : BitVec 32
  pr_minpages : BitVec 32
  pr_maxpages : BitVec 32
  pr_hardlimit : BitVec 32
  hz : ℤ
  size_pos : 0 < pr_size
  items_pos : 0 < pr_itemsperpage
  align_pos : 0 < pr_align
  phoffset_le : pr_phoffset ≤ pr_pgsize
  fits : pr_itemsperpage * pr_size ≤ if pr_phoffset ≠ 0 then pr_phoffset else pr_pgsize

namespace Config

/-- `POOL_INPGHDR`: the page header is in the page. -/
def inPgHdr (pp : Config) : Prop := pp.pr_phoffset ≠ 0

instance (pp : Config) : Decidable pp.inPgHdr := inferInstanceAs (Decidable (_ ≠ _))

/-- What items and the page header leave of the page. -/
def space (pp : Config) : ℕ :=
  (if pp.inPgHdr then pp.pr_phoffset else pp.pr_pgsize) - pp.pr_itemsperpage * pp.pr_size

def pr_maxcolors (pp : Config) : ℕ := pp.space / pp.pr_align + 1

/-- The items of a page that start at `colored`. -/
def itemsFrom (pp : Config) (colored : ℕ) : List ℕ :=
  (List.range pp.pr_itemsperpage).map fun n => colored + n * pp.pr_size

end Config

def poolWaitFree : ℤ := 1

/-- `struct pool_item_header` -/
structure Header where
  ph_itemlist : List ℕ
  ph_nmissing : ℤ
  ph_colored : ℕ
  ph_tick : BitVec 32
  deriving DecidableEq, Repr, Inhabited

/-- The fields of `struct pool` that change. -/
structure State where
  pr_emptypages : List ℕ
  pr_fullpages : List ℕ
  pr_partpages : List ℕ
  pr_curpage : Option ℕ
  pr_phtree : List ℕ
  pr_npages : BitVec 32
  pr_nitems : BitVec 32
  pr_nout : BitVec 32
  pr_nidle : BitVec 64
  pr_npagealloc : BitVec 64
  ph : ℕ → Header

/-- What makes the kernel panic, or follow a null pointer. -/
inductive Fault
  | nullPage
  | pageEmpty
  | pageHeaderMissing
  | incorrectPage
  | pageBusy
  deriving DecidableEq, Repr

/-- The pool that `pool_init` makes. -/
def poolInit : State where
  pr_emptypages := []
  pr_fullpages := []
  pr_partpages := []
  pr_curpage := none
  pr_phtree := []
  pr_npages := 0
  pr_nitems := 0
  pr_nout := 0
  pr_nidle := 0
  pr_npagealloc := 0
  ph := fun _ => default

section Operations

variable (cfg : Config)

def poolUpdateCurpage (pp : State) : State :=
  { pp with pr_curpage := pp.pr_partpages.getLast?.or pp.pr_emptypages.getLast? }

/-- The header `pool_p_alloc` writes for the page at `addr`. -/
def poolPAlloc (pp : State) (addr : ℕ) : State :=
  let colored := addr + cfg.pr_align * (pp.pr_npagealloc.toNat % cfg.pr_maxcolors)
  { pp with ph := Function.update pp.ph addr ⟨cfg.itemsFrom colored, 0, colored, (pp.ph addr).ph_tick⟩ }

def poolPInsert (pp : State) (ph : ℕ) : State :=
  { pp with
    pr_curpage := if pp.pr_curpage = none then some ph else pp.pr_curpage
    pr_emptypages := pp.pr_emptypages ++ [ph]
    pr_phtree := if cfg.inPgHdr then pp.pr_phtree else ph :: pp.pr_phtree
    pr_nitems := pp.pr_nitems + BitVec.ofNat 32 cfg.pr_itemsperpage
    pr_nidle := pp.pr_nidle + 1
    pr_npagealloc := pp.pr_npagealloc + 1
    pr_npages := pp.pr_npages + 1 }

def poolPRemove (pp : State) (ph : ℕ) : State :=
  poolUpdateCurpage { pp with
    pr_npages := pp.pr_npages - 1
    pr_nidle := pp.pr_nidle - 1
    pr_nitems := pp.pr_nitems - BitVec.ofNat 32 cfg.pr_itemsperpage
    pr_phtree := if cfg.inPgHdr then pp.pr_phtree else pp.pr_phtree.erase ph
    pr_emptypages := pp.pr_emptypages.erase ph }

/-- `pool_p_free`: the page goes back to the allocator. -/
def poolPFree (pp : State) (ph : ℕ) : Except Fault State :=
  if (pp.ph ph).ph_nmissing = 0 then .ok pp else .error .pageBusy

/-- The page `ph` gets another free list and count. -/
def State.setItems (pp : State) (ph : ℕ) (itemlist : List ℕ) (nmissing : ℤ) : State :=
  let hdr := pp.ph ph
  { pp with ph := Function.update pp.ph ph ⟨itemlist, nmissing, hdr.ph_colored, hdr.ph_tick⟩ }

def State.setTick (pp : State) (ph : ℕ) (ticks : BitVec 32) : State :=
  let hdr := pp.ph ph
  { pp with ph := Function.update pp.ph ph ⟨hdr.ph_itemlist, hdr.ph_nmissing, hdr.ph_colored, ticks⟩ }

/-- `pool_do_get` from where it has taken the first item of the page `ph`. -/
def getItem (pp : State) (ph : ℕ) (itemlist : List ℕ) : State :=
  let nmissing := (pp.ph ph).ph_nmissing
  let pp := pp.setItems ph itemlist (nmissing + 1)
  let pp := if nmissing = 0 then
      { pp with
        pr_emptypages := pp.pr_emptypages.erase ph
        pr_partpages := pp.pr_partpages ++ [ph]
        pr_nidle := pp.pr_nidle - 1 }
    else pp
  if nmissing + 1 = cfg.pr_itemsperpage then
    poolUpdateCurpage { pp with
      pr_partpages := pp.pr_partpages.erase ph
      pr_fullpages := pp.pr_fullpages ++ [ph] }
  else pp

/-- `pool_do_get` from where it has a current page. -/
def takeItem (pp : State) : Except Fault (ℕ × State) :=
  match pp.pr_curpage with
  | none => .error .nullPage
  | some ph =>
    match (pp.ph ph).ph_itemlist with
    | [] => .error .pageEmpty
    | pi :: itemlist => .ok (pi, getItem cfg pp ph itemlist)

/-- `RB_NFIND` in the tree of page headers: the last page that does not start after `v`. -/
def nfind (tree : List ℕ) (v : ℕ) : Option ℕ := (tree.filter (· ≤ v)).max?

def prFindPagehead (pp : State) (v : ℕ) : Except Fault ℕ :=
  if cfg.inPgHdr then .ok (v - v % cfg.pr_pgsize)
  else
    match nfind pp.pr_phtree v with
    | none => .error .pageHeaderMissing
    | some ph => if ph + cfg.pr_pgsize ≤ v then .error .incorrectPage else .ok ph

/-- `pool_put` while it holds `pr_mtx`: the item `pi` goes back to its page `ph`. -/
def putItem (pp : State) (ph pi : ℕ) (ticks : BitVec 32) : State :=
  let nmissing := (pp.ph ph).ph_nmissing
  let pp := pp.setItems ph (pi :: (pp.ph ph).ph_itemlist) (nmissing - 1)
  let pp := if nmissing = cfg.pr_itemsperpage then
      { pp with
        pr_fullpages := pp.pr_fullpages.erase ph
        pr_partpages := pp.pr_partpages ++ [ph] }
    else pp
  let pp := if nmissing - 1 = 0 then
      poolUpdateCurpage { pp.setTick ph ticks with
        pr_nidle := pp.pr_nidle + 1
        pr_partpages := pp.pr_partpages.erase ph
        pr_emptypages := pp.pr_emptypages ++ [ph] }
    else pp
  { pp with pr_nout := pp.pr_nout - 1 }

/-- The page that `pool_put` frees, if it is time to. -/
def pageToFree (pp : State) (ticks : BitVec 32) : Option ℕ :=
  if cfg.pr_maxpages.toNat < pp.pr_nidle.toNat then
    pp.pr_emptypages.head?.filter fun ph =>
      cfg.hz * poolWaitFree < (ticks - (pp.ph ph).ph_tick).toInt
  else none

/-- `pool_put` while it holds `pr_mtx`. -/
def poolPut (pp : State) (v : ℕ) (ticks : BitVec 32) : Except Fault (State × List ℕ) :=
  (prFindPagehead cfg pp v).map fun ph =>
    let pp := putItem cfg pp ph v ticks
    match pageToFree cfg pp ticks with
    | none => (pp, [])
    | some ph => (poolPRemove cfg pp ph, [ph])

/-- The loop of `pool_reclaim` over the empty pages. -/
def poolReclaim : List ℕ → State → List ℕ → State × List ℕ
  | [], pp, pl => (pp, pl)
  | ph :: phnext, pp, pl =>
    if pp.pr_npages ≤ cfg.pr_minpages then (pp, pl)
    else if pp.pr_nitems - BitVec.ofNat 32 cfg.pr_itemsperpage < cfg.pr_minitems then (pp, pl)
    else poolReclaim phnext (poolPRemove cfg pp ph) (pl ++ [ph])

/-- `newpages` of `pool_prime`. -/
def newPages (n : BitVec 32) : ℕ :=
  let items := BitVec.ofNat 32 cfg.pr_itemsperpage
  ((n + (items - 1)) / items * items / items).toInt.toNat

end Operations

end OpenbsdKernel.Pool
