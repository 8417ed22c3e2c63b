import OpenbsdKernel.Lib.BinTree
import OpenbsdKernel.Sys.Errno

/-!
# Address selection

`uvm/uvm_addr.c`: fitting a request into the free space of a map entry, and the linear
search through the entries of a map. Addresses are words of 64 bits that wrap; the page
size is left open. A failed assertion has no result.
-/
namespace OpenbsdKernel.UvmAddr

open BinTree

abbrev vaddr_t := BitVec 64

def MAX (a b : vaddr_t) : vaddr_t := if a > b then a else b

def MIN (a b : vaddr_t) : vaddr_t := if a < b then a else b

/-- `struct vm_map_entry`: the part that is mapped, the guard after it and the free space
behind. -/
structure Entry where
  start : vaddr_t
  end_ : vaddr_t
  guard : vaddr_t
  fspace : vaddr_t
  deriving DecidableEq, Repr

def VMMAP_FREE_START (entry : Entry) : vaddr_t := entry.end_ + entry.guard

def VMMAP_FREE_END (entry : Entry) : vaddr_t := entry.end_ + entry.guard + entry.fspace

/-- The entry describing the given address. With it come the entries that `RB_PREV` and
`RB_NEXT` lead to from there, in the order in which they do. -/
def uvm_map_entrybyaddr : Bin Entry → vaddr_t → Option (List Entry × Entry × List Entry)
  | .nil, _ => none
  | .node l iter r, addr =>
    if iter.start > addr then
      (uvm_map_entrybyaddr l addr).map fun (prev, e, next) => (prev, e, next ++ iter :: r.toList)
    else if VMMAP_FREE_END iter ≤ addr then
      (uvm_map_entrybyaddr r addr).map fun (prev, e, next) =>
        (prev ++ iter :: l.toList.reverse, e, next)
    else some (l.toList.reverse, iter, r.toList)

section Page
variable (PAGE_SHIFT : Fin 64)

def PAGE_SIZE : vaddr_t := BitVec.twoPow 64 PAGE_SHIFT

def PAGE_MASK : vaddr_t := PAGE_SIZE PAGE_SHIFT - 1

def uvm_addr_align_forward (addr align offset : vaddr_t) : Option vaddr_t := do
  guard (offset < align ∨ align = 0 ∧ offset = 0)
  guard (align &&& (align - 1) = 0)
  guard (offset &&& PAGE_MASK PAGE_SHIFT = 0)
  let align := MAX align (PAGE_SIZE PAGE_SHIFT)
  let adjusted := (addr &&& ~~~(align - 1)) + offset
  return if adjusted < addr then adjusted + align else adjusted

def uvm_addr_align_backward (addr align offset : vaddr_t) : Option vaddr_t := do
  guard (offset < align ∨ align = 0 ∧ offset = 0)
  guard (align &&& (align - 1) = 0)
  guard (offset &&& PAGE_MASK PAGE_SHIFT = 0)
  let align := MAX align (PAGE_SIZE PAGE_SHIFT)
  let adjusted := (addr &&& ~~~(align - 1)) + offset
  return if adjusted > addr then adjusted - align else adjusted

/-- Try to fit the requested space: the lowest and the highest address that it may have. -/
def uvm_addr_fitspace (low_addr high_addr sz align offset before_gap after_gap : vaddr_t) :
    Option (Except Errno (vaddr_t × vaddr_t)) := do
  if low_addr > high_addr then return .error .ENOMEM
  let fspace := high_addr - low_addr
  if fspace < sz + before_gap + after_gap then return .error .ENOMEM
  -- calculate lowest address
  let tmp := low_addr + before_gap
  let low_addr ← uvm_addr_align_forward PAGE_SHIFT tmp align offset
  if low_addr < tmp then return .error .ENOMEM
  if high_addr - after_gap - sz < low_addr then return .error .ENOMEM
  -- calculate highest address
  let tmp := high_addr - (after_gap + sz)
  let high_addr ← uvm_addr_align_backward PAGE_SHIFT tmp align offset
  if high_addr > tmp then return .error .ENOMEM
  if low_addr > high_addr then return .error .ENOMEM
  return .ok (low_addr, high_addr)

/-- The loop of `uvm_addr_linsearch` over the entries that the search comes to. -/
def searchEntries (hint sz align offset : vaddr_t) (direction : ℤ) (low high : vaddr_t)
    (before_gap after_gap : vaddr_t) : List Entry → Option (Except Errno (Entry × vaddr_t))
  | [] => some (.error .ENOMEM)
  | entry :: rest => do
    if VMMAP_FREE_START entry > high ∨ VMMAP_FREE_END entry < low then return .error .ENOMEM
    match ← uvm_addr_fitspace PAGE_SHIFT (MAX low (VMMAP_FREE_START entry))
        (MIN high (VMMAP_FREE_END entry)) sz align offset before_gap after_gap with
    | .ok (low_addr, high_addr) =>
      return .ok (entry, if hint ≥ low_addr ∧ hint ≤ high_addr then hint
        else if direction = 1 then low_addr else high_addr)
    | .error _ =>
      searchEntries hint sz align offset direction low high before_gap after_gap rest

/-- Where the search starts; none is the end of it. -/
def startHint (hint : vaddr_t) (direction : ℤ) (low high : vaddr_t) : Option vaddr_t :=
  if hint = 0 then some (if direction = 1 then low else high)
  else if hint > high then if direction ≠ -1 then none else some high
  else if hint < low then if direction ≠ 1 then none else some low
  else some hint

/-- Directional first fit. -/
def uvm_addr_linsearch (map : Bin Entry) (hint sz align offset : vaddr_t) (direction : ℤ)
    (low high before_gap after_gap : vaddr_t) : Option (Except Errno (Entry × vaddr_t)) := do
  guard (direction = -1 ∨ direction = 1)
  guard (hint &&& PAGE_MASK PAGE_SHIFT = 0 ∧ high &&& PAGE_MASK PAGE_SHIFT = 0 ∧
    low &&& PAGE_MASK PAGE_SHIFT = 0 ∧ before_gap &&& PAGE_MASK PAGE_SHIFT = 0 ∧
    after_gap &&& PAGE_MASK PAGE_SHIFT = 0)
  guard (high + sz > high)
  match startHint hint direction low high with
  | none => return .error .ENOMEM
  | some hint =>
    match uvm_map_entrybyaddr map (hint - if direction = -1 then 1 else 0) with
    | none => return .error .ENOMEM
    | some (prev, entry, next) =>
      searchEntries PAGE_SHIFT hint sz align offset direction low high before_gap after_gap
        (entry :: if direction = 1 then next else prev)

end Page

end OpenbsdKernel.UvmAddr
