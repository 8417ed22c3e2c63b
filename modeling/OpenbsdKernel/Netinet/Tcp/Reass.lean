import OpenbsdKernel.Lib.SeqNum
import OpenbsdKernel.Lib.Reassembly

/-!
# The TCP sequencing queue

`tcp_reass` and `tcp_flush_queue` of `netinet/tcp_input.c`, `tcp_freeq` of `netinet/tcp_subr.c`.
The length of a queued segment is kept in its header, in the 16 bits of the urgent pointer.
`so_rcv` is what was ever appended to the receive buffer.
-/
namespace OpenbsdKernel.TcpInput

open SeqNum

abbrev Mbuf : Type := List (BitVec 8)

def TH_FIN : BitVec 8 := 0x01#8

inductive TcpState
  | CLOSED | LISTEN | SYN_SENT | SYN_RECEIVED | ESTABLISHED | CLOSE_WAIT | FIN_WAIT_1 | CLOSING
  | LAST_ACK | FIN_WAIT_2 | TIME_WAIT
  deriving DecidableEq, Repr

/-- `TCPS_HAVEESTABLISHED`. -/
def TcpState.haveEstablished : TcpState → Bool
  | CLOSED | LISTEN | SYN_SENT | SYN_RECEIVED => false
  | _ => true

/-- The fields of `struct tcphdr` that the queue uses; `th_reseqlen` is `th_urp`. -/
structure Tcphdr where
  th_seq : Seq
  th_flags : BitVec 8
  th_reseqlen : BitVec 16
  deriving DecidableEq, Repr

structure Tcpqent where
  tcpqe_tcp : Tcphdr
  tcpqe_m : Mbuf
  deriving DecidableEq, Repr

/-- `struct tcpcb` with the receiving side of its socket. -/
structure Tcpcb where
  t_segq : List Tcpqent
  t_state : TcpState
  rcv_nxt : Seq
  so_cantrcvmore : Bool
  so_rcv : Mbuf
  deriving DecidableEq, Repr

def SEQ_GT (a b : Seq) : Bool := (a - b).toInt > 0

/-- `th_reseqlen` as the sequence arithmetic takes it. -/
def Tcpqent.reseqlen (q : Tcpqent) : Seq := q.tcpqe_tcp.th_reseqlen.setWidth 32

/-- The first `i` bytes are cut off a queued segment. -/
def Tcpqent.cut (i : ℕ) (q : Tcpqent) : Tcpqent :=
  ⟨{ q.tcpqe_tcp with
      th_seq := q.tcpqe_tcp.th_seq + BitVec.ofNat 32 i
      th_reseqlen := q.tcpqe_tcp.th_reseqlen - BitVec.ofNat 16 i },
    q.tcpqe_m.drop i⟩

/-- The loop: `rcv_nxt`, what was appended, the FIN of the last segment and the queue left. -/
def flushLoop (cantrcvmore : Bool) :
    Seq → Mbuf → BitVec 8 → List Tcpqent → Seq × Mbuf × BitVec 8 × List Tcpqent
  | rcv_nxt, so_rcv, flags, [] => (rcv_nxt, so_rcv, flags, [])
  | rcv_nxt, so_rcv, flags, q :: nq =>
    if q.tcpqe_tcp.th_seq = rcv_nxt then
      flushLoop cantrcvmore (rcv_nxt + q.reseqlen)
        (if cantrcvmore then so_rcv else so_rcv ++ q.tcpqe_m) (q.tcpqe_tcp.th_flags &&& TH_FIN) nq
    else (rcv_nxt, so_rcv, flags, q :: nq)

/-- `tcp_flush_queue`. The test of `TCPS_SYN_RECEIVED` behind that of `TCPS_HAVEESTABLISHED` is
never met. -/
def tcpFlushQueue (tp : Tcpcb) : BitVec 8 × Tcpcb :=
  if tp.t_state.haveEstablished = false then (0, tp)
  else
    match tp.t_segq with
    | [] => (0, tp)
    | q :: _ =>
      if q.tcpqe_tcp.th_seq ≠ tp.rcv_nxt then (0, tp)
      else if tp.t_state = .SYN_RECEIVED ∧ q.tcpqe_tcp.th_reseqlen ≠ 0 then (0, tp)
      else
        let (rcv_nxt, so_rcv, flags, segq) :=
          flushLoop tp.so_cantrcvmore tp.rcv_nxt tp.so_rcv 0 tp.t_segq
        (flags, { tp with rcv_nxt := rcv_nxt, so_rcv := so_rcv, t_segq := segq })

def tcpFreeq (tp : Tcpcb) : Tcpcb := { tp with t_segq := [] }

/-- What the preceding entry provides is dropped from the segment; `none`: all of it. -/
def dropProvided (th : Tcphdr) (m : Mbuf) (tlen : ℕ) : Option Tcpqent → Option (Tcphdr × Mbuf × ℕ)
  | none => some (th, m, tlen)
  | some p =>
    let i := (p.tcpqe_tcp.th_seq + p.reseqlen - th.th_seq).toInt
    if i > 0 then
      if i ≥ tlen then none
      else some ({ th with th_seq := th.th_seq + BitVec.ofInt 32 i }, m.drop i.toNat, tlen - i.toNat)
    else some (th, m, tlen)

/-- The succeeding entries are trimmed or dequeued; `fin` is `th_seq + tlen`. -/
def trimSucceeding (fin : Seq) : List Tcpqent → List Tcpqent
  | [] => []
  | q :: nq =>
    let i := (fin - q.tcpqe_tcp.th_seq).toInt
    if i ≤ 0 then q :: nq
    else if i < q.tcpqe_tcp.th_reseqlen.toNat then q.cut i.toNat :: nq
    else trimSucceeding fin nq

/-- `tcp_reass` with an entry at hand. -/
def tcpReassEntry (tp : Tcpcb) (th : Tcphdr) (m : Mbuf) (tlen : ℕ) : BitVec 8 × Tcpcb :=
  let before := tp.t_segq.takeWhile fun q => !SEQ_GT q.tcpqe_tcp.th_seq th.th_seq
  let after := tp.t_segq.dropWhile fun q => !SEQ_GT q.tcpqe_tcp.th_seq th.th_seq
  match dropProvided th m tlen before.getLast? with
  | none => (0, tp)
  | some (th, m, tlen) =>
    let after := trimSucceeding (th.th_seq + BitVec.ofNat 32 tlen) after
    let tiqe : Tcpqent := ⟨{ th with th_reseqlen := BitVec.ofNat 16 tlen }, m⟩
    let tp := { tp with t_segq := before ++ tiqe :: after }
    if th.th_seq ≠ tp.rcv_nxt then (0, tp) else tcpFlushQueue tp

/-- `tcp_reass`; `alloc` says that `pool_get` gives an entry. Without one the last entry of the
queue is taken for a segment that comes next, and the queue is given up for any other. -/
def tcpReass (alloc : Bool) (tp : Tcpcb) (th : Tcphdr) (m : Mbuf) (tlen : ℕ) : BitVec 8 × Tcpcb :=
  if alloc then tcpReassEntry tp th m tlen
  else if tp.t_segq ≠ [] ∧ th.th_seq = tp.rcv_nxt then
    tcpReassEntry { tp with t_segq := tp.t_segq.dropLast } th m tlen
  else (0, tcpFreeq tp)

end OpenbsdKernel.TcpInput
