import Mathlib
import OpenbsdKernel.Sys.Errno
import OpenbsdKernel.Net.Art.Basic

/-!
# Routing tables over ART

The ART backend of `net/rtable.c` in a kernel with multipath routes. Every node of the
tree has a list of route entries; nodes come from a pool and go back to it. Socket
addresses are their bytes, the first of them the length. Whether memory can be had is
given from outside.
-/
namespace OpenbsdKernel.Rt

open Art

/-- `struct rtentry`, as far as the table deals with it. -/
structure Rtentry where
  rt_priority : ℕ
  /-- The bit `RTF_MPATH` of `rt_flags`. -/
  rt_mpath : Bool
  rt_refcnt : ℤ
  rt_node : Option Node
  rt_dest : List UInt8
  rt_mask : Option (List UInt8)

/-- The routing table of one id and address family, with the memory behind it: what the
nodes hold besides their prefix, the route entries, and the nodes handed out by the
pool. -/
structure Rtable where
  ar : Option Root
  an_dst : ℕ → List UInt8
  an_rtlist : ℕ → List ℕ
  rt : ℕ → Rtentry
  an_pool : Finset ℕ

def Rtable.setRt (st : Rtable) (r : ℕ) (f : Rtentry → Rtentry) : Rtable :=
  { st with rt := Function.update st.rt r (f (st.rt r)) }

def Rtable.setList (st : Rtable) (p : ℕ) (l : List ℕ) : Rtable :=
  { st with an_rtlist := Function.update st.an_rtlist p l }

def satoaddr (ar : Root) (sa : List UInt8) : List UInt8 := sa.drop ar.ar_off

def satoplenOut (bytes : List UInt8) (plen : ℕ) : Option ℕ :=
  if bytes.all (· = 0) then some plen else none

/-- The bytes of a mask; `none` stands for -1, a mask that is not contiguous. -/
def satoplenLoop : List UInt8 → ℕ → Option ℕ
  | [], plen => some plen
  | b :: bytes, plen =>
    if b = 0xff then satoplenLoop bytes (plen + 8)
    else if b = 0xfe then satoplenOut bytes (plen + 7)
    else if b = 0xfc then satoplenOut bytes (plen + 6)
    else if b = 0xf8 then satoplenOut bytes (plen + 5)
    else if b = 0xf0 then satoplenOut bytes (plen + 4)
    else if b = 0xe0 then satoplenOut bytes (plen + 3)
    else if b = 0xc0 then satoplenOut bytes (plen + 2)
    else if b = 0x80 then satoplenOut bytes (plen + 1)
    else if b = 0x00 then satoplenOut (b :: bytes) plen
    else none

def satoplen (ar : Root) (mask : Option (List UInt8)) : Option ℕ :=
  match mask with
  | none => some ar.ar_alen
  | some m =>
    let mlen := (m.getD 0 0).toNat
    if mlen = 0 then some 0
    else if ar.ar_off > mlen then none
    else satoplenLoop ((m.take mlen).drop ar.ar_off) 0

/-- `memcmp` of two socket addresses over the length of the second. -/
def sameDst (an_dst dst : List UInt8) : Bool :=
  an_dst.take (dst.getD 0 0).toNat = dst.take (dst.getD 0 0).toNat

/-- The first route of a node; a node without routes cannot be dereferenced further. -/
def firstRoute (st : Rtable) : Option Node → Option (Option ℕ)
  | none => some none
  | some an => ((st.an_rtlist an.ptr).head?).map some

def perfectMatch (st : Rtable) (dst : List UInt8) (plen : ℕ) : Option Node → Option (Option ℕ)
  | none => some none
  | some an =>
    if an.an_plen = plen ∧ sameDst (st.an_dst an.ptr) dst = true then firstRoute st (some an)
    else some none

/-- The route for a destination and mask, or the best match where there is no mask. The
reference that is taken on it is left out. -/
def rtable_lookup (st : Rtable) (dst : List UInt8) (mask : Option (List UInt8)) :
    Option (Option ℕ) :=
  match st.ar with
  | none => some none
  | some ar => do
    let addr := satoaddr ar dst
    match mask with
    | none => firstRoute st (← art_match ar addr)
    | some _ =>
      match satoplen ar mask with
      | none => return none
      | some plen => perfectMatch st dst plen (← art_lookup ar addr plen)

def rtable_match (st : Rtable) (dst : List UInt8) : Option (Option ℕ) :=
  match st.ar with
  | none => some none
  | some ar => do firstRoute st (← art_match ar (satoaddr ar dst))

/-- Call `f` on the routes of a node until it reports an error. -/
def walkRoutes {σ : Type} (f : ℕ → σ → ℤ × σ) : List ℕ → σ → ℤ × σ
  | [], st => (0, st)
  | r :: rs, st =>
    let (error, st) := f r st
    if error ≠ 0 then (error, st) else walkRoutes f rs st

/-- Call `f` on every route of the table; without a table the error is `none`. -/
def rtable_walk {σ : Type} (st : Rtable) (f : ℕ → σ → ℤ × σ) (arg : σ) :
    Option (Option ℤ × σ) :=
  match st.ar with
  | none => some (none, arg)
  | some ar => do
    let (error, arg) ← art_walk ar (fun an => walkRoutes f (st.an_rtlist an.ptr)) arg
    return (some error, arg)

/-- Take the flag of the new route from the routes of equal priority, and give it to
them. -/
def markMpath (prio rt : ℕ) : List ℕ → Rtable → Rtable
  | [], st => st
  | mrt :: rest, st =>
    markMpath prio rt rest (if (st.rt mrt).rt_priority = prio then
      (st.setRt mrt fun r => { r with rt_mpath := true }).setRt rt fun r =>
        { r with rt_mpath := true }
    else st)

def placeRoute (prio : ℕ → ℕ) (p rt : ℕ) : List ℕ → List ℕ
  | [] => [rt]
  | mrt :: rest => if prio mrt > p then rt :: mrt :: rest else mrt :: placeRoute prio p rt rest

def rtable_mpath_reprio (st : Rtable) (an : Node) (rt prio : ℕ) : Rtable :=
  let st := (st.setList an.ptr ((st.an_rtlist an.ptr).erase rt)).setRt rt fun r =>
    { r with rt_priority := prio }
  st.setList an.ptr (placeRoute (fun m => (st.rt m).rt_priority) prio rt (st.an_rtlist an.ptr))

def shareNode (st : Rtable) (an prev : Node) (prio rt : ℕ) : Option Rtable :=
  if prev.ptr = an.ptr then some (st.setRt rt fun r => { r with rt_mpath := false })
  else do
    let st := { st with an_pool := st.an_pool.erase an.ptr }
    let mrt ← (st.an_rtlist prev.ptr).head?
    guard ((st.rt rt).rt_mpath = true ∨ (st.rt mrt).rt_priority ≠ prio)
    if (st.rt rt).rt_mpath then
      return markMpath prio rt (st.an_rtlist prev.ptr)
        (st.setRt rt fun r => { r with rt_mpath := false })
    else return st

/-- Insert a route. `node` is what the pool gives for a node, `mem` tells for which
levels a table can be allocated, and `msk` whether the copy of the mask can. -/
def rtable_insert (st : Rtable) (dst : List UInt8) (mask : Option (List UInt8)) (prio rt : ℕ)
    (node : Option ℕ) (mem : ℕ → Bool) (msk : Bool) : Option (Rtable × Option Errno) :=
  match st.ar with
  | none => some (st, some .EAFNOSUPPORT)
  | some ar =>
    let addr := satoaddr ar dst
    match satoplen ar mask with
    | none => some (st, some .EINVAL)
    | some plen =>
      match node with
      | none => some (st, some .ENOBUFS)
      | some p => do
        let an : Node := ⟨p, addr, plen⟩
        let st := { st with
          an_pool := insert p st.an_pool
          an_dst := Function.update st.an_dst p dst
          an_rtlist := Function.update st.an_rtlist p [] }
        let (ar, prev) ← art_insert ar an addr plen mem
        let st := { st with ar := some ar }
        match prev with
        | none => return ({ st with an_pool := st.an_pool.erase p }, some .ESRCH)
        | some prev =>
          let st ← shareNode st an prev prio rt
          let st := st.setRt rt fun r => { r with rt_node := some prev, rt_dest := dst }
          if mask ≠ none ∧ msk = false then
            return ({ st with an_pool := st.an_pool.erase prev.ptr }, some .ENOMEM)
          let st := st.setRt rt fun r =>
            { r with
              rt_mask := (mask.map (·.take (dst.getD 0 0).toNat)).or r.rt_mask
              rt_refcnt := r.rt_refcnt + 1 }
          let st := st.setList prev.ptr (rt :: st.an_rtlist prev.ptr)
          return (rtable_mpath_reprio st prev rt (st.rt rt).rt_priority, none)

def rtable_delete (st : Rtable) (dst : List UInt8) (mask : Option (List UInt8)) (rt : ℕ) :
    Option (Rtable × Option Errno) := do
  let an ← (st.rt rt).rt_node
  match st.ar with
  | none => return (st, some .EAFNOSUPPORT)
  | some ar =>
    if sameDst (st.an_dst an.ptr) dst = false then return (st, some .EINVAL)
    if mask ≠ none ∧ satoplen ar mask ≠ some an.an_plen then return (st, some .EINVAL)
    let st := st.setRt rt fun r => { r with rt_node := none, rt_mask := none }
    let st := st.setList an.ptr ((st.an_rtlist an.ptr).erase rt)
    guard ((st.rt rt).rt_refcnt ≥ 0)
    match st.an_rtlist an.ptr with
    | r :: rest =>
      let st := { st with an_dst := Function.update st.an_dst an.ptr (st.rt r).rt_dest }
      if rest = [] then return (st.setRt r fun r => { r with rt_mpath := false }, none)
      else return (st, none)
    | [] =>
      let (ar, removed) ← art_delete ar an (satoaddr ar (st.an_dst an.ptr)) an.an_plen
      let st := { st with ar := some ar }
      match removed with
      | none => return (st, some .ESRCH)
      | some _ => return ({ st with an_pool := st.an_pool.erase an.ptr }, none)

end OpenbsdKernel.Rt
