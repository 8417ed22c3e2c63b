import OpenbsdKernel.Kern.Descrip.Basic

/-!
# Unix domain sockets that pass files

Files, sockets, their control blocks and control messages of `kern/uipc_usrreq.c`, and
the collector of cycles among passed sockets. Objects are known by numbers. The data of
a control message is an array of 4-byte words, where a pointer takes two words.
-/
namespace OpenbsdKernel.Unp

/-- What stops the kernel: a pointer read from words that hold none, the use of a null
pointer, a failed assertion, a loop that does not end. -/
inductive Fault where
  | wild
  | null
  | panic
  | diverges
  deriving DecidableEq, Repr

/-- A word of the data of a control message. -/
inductive Word where
  | int (n : ℤ)
  | lo (fp : Option ℕ)
  | hi (fp : Option ℕ)
  deriving DecidableEq, Repr

/-- `((struct file **)data)[i]`; `none` is a null pointer. -/
def getPtr (data : ℕ → Word) (i : ℕ) : Except Fault (Option ℕ) :=
  match data (2 * i), data (2 * i + 1) with
  | .lo fp, .hi fp' => if fp = fp' then .ok fp else .error .wild
  | _, _ => .error .wild

def setPtr (data : ℕ → Word) (i : ℕ) (fp : Option ℕ) : ℕ → Word :=
  Function.update (Function.update data (2 * i) (.lo fp)) (2 * i + 1) (.hi fp)

def SOL_SOCKET : ℕ := 0xffff
def SCM_RIGHTS : ℕ := 1

/-- An mbuf of a receive buffer; `room` is the number of bytes from `m_data` to the end of
its storage. -/
structure Mbuf where
  control : Bool
  m_len : BitVec 32
  ext : Bool
  room : ℤ
  cmsg_len : BitVec 32
  cmsg_level : ℕ
  cmsg_type : ℕ
  data : ℕ → Word

/-- `f_type`. -/
inductive DType where
  | DTYPE_VNODE | DTYPE_SOCKET | DTYPE_PIPE | DTYPE_KQUEUE | DTYPE_SYSTRACE
  deriving DecidableEq, Repr

/-- `struct file`; `larval` is `FIF_LARVAL`. -/
structure File where
  f_count : ℤ
  f_type : DType
  larval : Bool
  f_data : Option ℕ

/-- `struct socket`; `unixdomain` tells whether its protocol is of that domain. A receive
buffer is a list of packets, a packet a list of mbufs. -/
structure Socket where
  unixdomain : Bool
  so_pcb : Option ℕ
  so_rcv : List (List ℕ)

/-- `struct unpcb` without what is not about passed files. -/
structure Unpcb where
  unp_socket : ℕ
  unp_file : Option ℕ
  unp_msgcount : ℤ

structure State where
  file : ℕ → File
  socket : ℕ → Socket
  unpcb : ℕ → Unpcb
  mbuf : ℕ → Mbuf
  p_fd : ℕ → Descrip.Filedesc ℕ
  unp_head : List ℕ
  unp_deferred : List (List (Option ℕ))
  unp_rights : ℤ

def State.fptounp (s : State) (fp : ℕ) : Option ℕ :=
  if (s.file fp).f_type ≠ .DTYPE_SOCKET then none
  else
    match (s.file fp).f_data with
    | none => none
    | some so => if (s.socket so).unixdomain = false then none else (s.socket so).so_pcb

def State.setMbuf (s : State) (m : ℕ) (mb : Mbuf) : State :=
  { s with mbuf := Function.update s.mbuf m mb }

/-- The receive buffer of the socket of a control block. -/
def State.rcv (s : State) (unp : ℕ) : List (List ℕ) :=
  (s.socket (s.unpcb unp).unp_socket).so_rcv

/-- `sizeof(struct cmsghdr)` and `CMSG_ALIGN` of it. -/
def cmsghdrSize : ℕ := 12
def CMSG_HDR : BitVec 64 := 16#64

/-- `qfds` in `unp_scan` and `nfds` in `unp_externalize`. -/
def Mbuf.qfds (mb : Mbuf) : ℤ :=
  (((mb.cmsg_len.setWidth 64 - CMSG_HDR) / 8#64).setWidth 32).toInt

/-- The mbufs at which `unp_scan` stops. -/
def Mbuf.Rights (mb : Mbuf) : Prop :=
  mb.control = true ∧ cmsghdrSize ≤ mb.m_len.toNat ∧ mb.cmsg_level = SOL_SOCKET ∧
    mb.cmsg_type = SCM_RIGHTS

instance (mb : Mbuf) : Decidable mb.Rights := by
  unfold Mbuf.Rights
  infer_instance

section Scan

variable {σ : Type*} (hdr : σ → ℕ → Mbuf) (op : σ → ℕ → ℤ → Except Fault σ)

/-- The inner loop of `unp_scan`, over the mbufs of a packet. -/
def scanPacket (s : σ) : List ℕ → Except Fault σ
  | [] => .ok s
  | m :: ms =>
    if (hdr s m).Rights then
      if 0 < (hdr s m).qfds then op s m (hdr s m).qfds else .ok s
    else scanPacket s ms

def unpScan (s : σ) (m0 : List (List ℕ)) : Except Fault σ := m0.foldlM (scanPacket hdr op) s

end Scan

/-- `memcpy(defer + 1, rp, ..)`. -/
def getPtrs (data : ℕ → Word) (n : ℕ) : Except Fault (List (Option ℕ)) :=
  (List.range n).mapM (getPtr data)

/-- `memset(rp, 0, ..)`. -/
def zeroPtrs (data : ℕ → Word) (n : ℕ) : ℕ → Word := fun w =>
  if w < 2 * n then (if w % 2 = 0 then .lo none else .hi none) else data w

def unpDiscard (s : State) (m : ℕ) (nfds : ℤ) : Except Fault State := do
  let rp ← getPtrs (s.mbuf m).data nfds.toNat
  pure { s.setMbuf m { s.mbuf m with data := zeroPtrs (s.mbuf m).data nfds.toNat } with
    unp_deferred := rp :: s.unp_deferred }

/-- `UNP_GCMARK`, `UNP_GCDEFER` and `UNP_GCDEAD`. -/
@[ext] structure Flags where
  mark : Bool
  defer : Bool
  dead : Bool
  deriving DecidableEq, Repr

/-- What `unp_gc` changes while it marks. -/
structure Gc where
  unp_flags : ℕ → Flags
  unp_defer : ℤ
  nunref : ℤ

def Gc.setFlags (g : Gc) (unp : ℕ) (f : Flags) : Gc :=
  { g with unp_flags := Function.update g.unp_flags unp f }

/-- The body of the loop of `unp_mark`. -/
def markFile (s : State) (g : Gc) : Option ℕ → Gc
  | none => g
  | some fp =>
    match s.fptounp fp with
    | none => g
    | some unp =>
      let f := g.unp_flags unp
      if f.mark = true ∨ f.defer = true then g
      else { g.setFlags unp { f with defer := true, dead := false } with
        unp_defer := g.unp_defer + 1 }

def unpMark (s : State) (g : Gc) (m : ℕ) (nfds : ℤ) : Except Fault Gc :=
  (List.range nfds.toNat).foldlM
    (fun g i => do
      let fp ← getPtr (s.mbuf m).data i
      pure (markFile s g fp)) g

def Unreferenced (s : State) (unp : ℕ) : Prop :=
  ∃ fp ∈ (s.unpcb unp).unp_file, (s.file fp).f_count ≠ 0 ∧
    (s.file fp).f_count = (s.unpcb unp).unp_msgcount

instance (s : State) (unp : ℕ) : Decidable (Unreferenced s unp) := by
  unfold Unreferenced
  infer_instance

def markLive (s : State) (g : Gc) (unp : ℕ) : Except Fault Gc :=
  unpScan (fun _ => s.mbuf) (unpMark s)
    (g.setFlags unp { g.unp_flags unp with mark := true }) (s.rcv unp)

/-- The body of the loop over `unp_head`. -/
def visit (s : State) (g : Gc) (unp : ℕ) : Except Fault Gc :=
  let f := g.unp_flags unp
  if f.defer = true then
    markLive s { g.setFlags unp { f with defer := false } with unp_defer := g.unp_defer - 1 } unp
  else if f.mark = true then .ok g
  else if Unreferenced s unp then
    .ok { g.setFlags unp { f with dead := true } with nunref := g.nunref + 1 }
  else markLive s g unp

/-- One pass over `unp_head`. -/
def pass (s : State) (g : Gc) : Except Fault Gc :=
  s.unp_head.foldlM (visit s) { g with nunref := 0 }

def passStep (s : State) (g : Gc) : Loop.Step Gc Gc Fault :=
  match pass s g with
  | .error e => .wrong e
  | .ok g' => if g'.unp_defer ≠ 0 then .next g' else .done g'

def clearFlags (s : State) (flags : ℕ → Flags) : Gc where
  unp_flags := fun unp => if unp ∈ s.unp_head then ⟨false, false, false⟩ else flags unp
  unp_defer := 0
  nunref := 0

/-- The marking of `unp_gc`, for flags that were left behind. -/
def gcMark (s : State) (flags : ℕ → Flags) : Loop.Outcome Gc Gc Fault :=
  Loop.run (passStep s) (s.unp_head.length + 1) (clearFlags s flags)

/-- The loop of `unp_gc` that discards what dead sockets were sent. -/
def gcDiscard (s : State) (g : Gc) : Except Fault State :=
  if g.nunref ≠ 0 then
    s.unp_head.foldlM
      (fun s unp =>
        if (g.unp_flags unp).dead = true then unpScan State.mbuf unpDiscard s (s.rcv unp)
        else .ok s) s
  else .ok s

/-- `unp_gc` once its list of deferred closes is empty. -/
def gcCollect (s : State) (flags : ℕ → Flags) : Except Fault State :=
  match gcMark s flags with
  | .returned g _ => gcDiscard s g
  | .wrong e _ => .error e
  | .running _ => .error .diverges

end OpenbsdKernel.Unp
