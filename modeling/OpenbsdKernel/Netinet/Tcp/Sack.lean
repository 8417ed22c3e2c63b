import OpenbsdKernel.Lib.SeqNum

/-!
# The SACK scoreboard of a TCP sender

`tcp_sack_option` and `tcp_del_sackholes` of `netinet/tcp_input.c`, `tcp_sack_output` and the
retransmission of a hole in `netinet/tcp_output.c`, `tcp_timer_freesack` of
`netinet/tcp_timer.c`, without the option `TCP_FACK`. `none` is the use of a `NULL` predecessor,
a panic, or a loop that does not end.
-/
namespace OpenbsdKernel.TcpSack

open SeqNum

def tcprexmtthresh : ℕ := 3

def SEQ_LT (a b : Seq) : Bool := (a - b).toInt < 0
def SEQ_LEQ (a b : Seq) : Bool := (a - b).toInt ≤ 0
def SEQ_GT (a b : Seq) : Bool := (a - b).toInt > 0
def SEQ_GEQ (a b : Seq) : Bool := (a - b).toInt ≥ 0

def SEQ_MIN (a b : Seq) : Seq := if SEQ_LT a b then a else b
def SEQ_MAX (a b : Seq) : Seq := if SEQ_GT a b then a else b

structure Sackblk where
  start : Seq
  fin : Seq
  deriving DecidableEq, Repr

/-- `struct sackhole`, with `fin` for `end`. -/
structure Sackhole where
  start : Seq
  fin : Seq
  dups : ℕ
  rxmit : Seq
  deriving DecidableEq, Repr

/-- The fields of `struct tcpcb` that the scoreboard uses; `t_listen` is `t_state == TCPS_LISTEN`. -/
structure Tcpcb where
  t_listen : Bool
  sack_enable : Bool
  t_maxseg : ℕ
  snd_una : Seq
  snd_max : Seq
  rcv_lastsack : Seq
  snd_numholes : ℤ
  snd_holes : List Sackhole
  deriving DecidableEq, Repr

/-- The number of duplicates that a block behind a hole stands for. -/
def blockDups (maxseg : ℕ) (fin start : Seq) : ℕ := max 1 (min tcprexmtthresh ((fin - start).toNat / maxseg))

def Sackhole.dup (maxseg : ℕ) (sack : Sackblk) (cur : Sackhole) : Sackhole :=
  { cur with dups :=
      if (sack.fin - cur.fin).toNat / maxseg ≥ tcprexmtthresh then tcprexmtthresh else cur.dups + 1 }

/-- Where the loop over the holes has come to. `seen` are the holes up to and with `p`, `rest`
those from `cur` on; `enobufs` is `goto done`. -/
structure Walk where
  seen : List Sackhole
  rest : List Sackhole
  snd_numholes : ℤ
  enobufs : Bool
  deriving DecidableEq, Repr

def Walk.pass (seen : List Sackhole) (w : Walk) : Walk := { w with seen := seen ++ w.seen }

/-- The loop over the holes for one block; `alloc k` says that an entry is there for splitting
the `k`-th hole. -/
def walkHoles (alloc : ℕ → Bool) (maxseg : ℕ) (sack : Sackblk) :
    ℕ → ℤ → List Sackhole → Option Walk
  | _, numholes, [] => some ⟨[], [], numholes, false⟩
  | k, numholes, cur :: next =>
    if SEQ_LEQ sack.fin cur.start then some ⟨[], cur :: next, numholes, false⟩
    else if SEQ_GEQ sack.start cur.fin then
      (walkHoles alloc maxseg sack (k + 1) numholes next).map (Walk.pass [cur.dup maxseg sack])
    else if SEQ_LEQ sack.start cur.start then
      if SEQ_GEQ sack.fin cur.fin then walkHoles alloc maxseg sack (k + 1) (numholes - 1) next
      else
        (walkHoles alloc maxseg sack (k + 1) numholes next).map
          (Walk.pass [{ cur with start := sack.fin, rxmit := SEQ_MAX cur.rxmit sack.fin }])
    else if SEQ_GEQ sack.fin cur.fin then
      let cur := { cur with fin := sack.start, rxmit := SEQ_MIN cur.rxmit sack.start }
      (walkHoles alloc maxseg sack (k + 1) numholes next).map (Walk.pass [cur.dup maxseg sack])
    else if SEQ_LT cur.start sack.start ∧ SEQ_GT cur.fin sack.fin then
      if alloc k then
        let temp : Sackhole := ⟨sack.fin, cur.fin, cur.dups, SEQ_MAX cur.rxmit sack.fin⟩
        let cur := { cur with fin := sack.start, rxmit := SEQ_MIN cur.rxmit sack.start }
        (walkHoles alloc maxseg sack (k + 1) (numholes + 1) next).map
          (Walk.pass [cur.dup maxseg sack, temp])
      else some ⟨[], cur :: next, numholes, true⟩
    else none

/-- The list when `p->next` is set to a new hole; `none`: `p` is `NULL`. -/
def appendHole (w : Walk) (temp : Sackhole) : Option (List Sackhole) :=
  match w.seen, w.rest with
  | [], [] => none
  | [], p :: _ => some [p, temp]
  | seen, _ => some (seen ++ [temp])

def processed (tp : Tcpcb) (th_ack : Seq) (sack : Sackblk) : Bool :=
  !SEQ_LEQ sack.fin sack.start && !SEQ_LEQ sack.fin tp.snd_una &&
    !(SEQ_GT th_ack tp.snd_una && SEQ_LT sack.start th_ack) && !SEQ_GT sack.fin tp.snd_max

/-- One block of the option. `alloc` has the answers of `pool_get`: 0 for the first hole, 1 for
one at the end, `k + 2` for splitting the `k`-th. The flag is `goto done`. -/
def sackBlock (alloc : ℕ → Bool) (tp : Tcpcb) (th_ack : Seq) (sack : Sackblk) :
    Option (Tcpcb × Bool) :=
  if processed tp th_ack sack = false then some (tp, false)
  else if tp.snd_holes = [] then
    if alloc 0 then
      some ({ tp with
        snd_holes := [⟨th_ack, sack.start, blockDups tp.t_maxseg sack.fin sack.start, th_ack⟩]
        snd_numholes := 1
        rcv_lastsack := sack.fin }, false)
    else some (tp, true)
  else
    (walkHoles (fun k => alloc (k + 2)) tp.t_maxseg sack 0 tp.snd_numholes tp.snd_holes).bind fun w =>
      let tp := { tp with snd_holes := w.seen ++ w.rest, snd_numholes := w.snd_numholes }
      if w.enobufs then some (tp, true)
      else if SEQ_LT tp.rcv_lastsack sack.start then
        if alloc 1 then
          (appendHole w ⟨tp.rcv_lastsack, sack.start, blockDups tp.t_maxseg sack.fin sack.start,
            tp.rcv_lastsack⟩).map fun holes =>
              ({ tp with
                snd_holes := holes
                rcv_lastsack := sack.fin
                snd_numholes := tp.snd_numholes + 1 }, false)
        else some (tp, true)
      else some (tp, false)

def sackBlocks (th_ack : Seq) : (ℕ → ℕ → Bool) → Tcpcb → List Sackblk → Option Tcpcb
  | _, tp, [] => some tp
  | alloc, tp, sack :: blks =>
    (sackBlock (alloc 0) tp th_ack sack).bind fun (tp, done) =>
      if done then some tp else sackBlocks th_ack (fun i => alloc (i + 1)) tp blks

def be32 (a b c d : BitVec 8) : Seq := a ++ b ++ c ++ d

def readBlocks : List (BitVec 8) → List Sackblk
  | a :: b :: c :: d :: e :: f :: g :: h :: cp => ⟨be32 a b c d, be32 e f g h⟩ :: readBlocks cp
  | _ => []

/-- `tcp_sack_option`; `cp` has the `optlen` bytes of the option, `ack` is the flag `TH_ACK`. -/
def tcpSackOption (alloc : ℕ → ℕ → Bool) (tp : Tcpcb) (ack : Bool) (th_ack : Seq)
    (cp : List (BitVec 8)) : Option Tcpcb :=
  if tp.sack_enable = false ∨ ack = false then some tp
  else if SEQ_LT th_ack tp.snd_una ∨ SEQ_GT th_ack tp.snd_max then some tp
  else if cp.length ≤ 2 ∨ (cp.length - 2) % 8 ≠ 0 then some tp
  else if tp.t_maxseg = 0 then none
  else sackBlocks th_ack alloc { tp with snd_numholes := max 0 tp.snd_numholes } (readBlocks (cp.drop 2))

/-- The loop of `tcp_del_sackholes`. -/
def delHoles (lastack : Seq) : ℤ → List Sackhole → ℤ × List Sackhole
  | numholes, [] => (numholes, [])
  | numholes, cur :: next =>
    if SEQ_LEQ cur.fin lastack then delHoles lastack (numholes - 1) next
    else if SEQ_LT cur.start lastack then
      (numholes, { cur with
        start := lastack
        rxmit := if SEQ_LT cur.rxmit lastack then lastack else cur.rxmit } :: next)
    else (numholes, cur :: next)

def tcpDelSackholes (tp : Tcpcb) (th_ack : Seq) : Tcpcb :=
  if tp.sack_enable ∧ tp.t_listen = false then
    let lastack := if SEQ_GT th_ack tp.snd_una then th_ack else tp.snd_una
    let (numholes, holes) := delHoles lastack tp.snd_numholes tp.snd_holes
    { tp with snd_numholes := numholes, snd_holes := holes }
  else tp

/-- `tcp_sack_output`: the hole to send again, with the holes around it. -/
def tcpSackOutput (snd_una : Seq) : List Sackhole → Option (List Sackhole × Sackhole × List Sackhole)
  | [] => none
  | p :: next =>
    if p.dups ≥ tcprexmtthresh ∧ SEQ_LT p.rxmit p.fin ∧ SEQ_LT p.rxmit snd_una = false then
      some ([], p, next)
    else (tcpSackOutput snd_una next).map fun (front, q, rest) => (p :: front, q, rest)

def tcpTimerFreesack (tp : Tcpcb) : Tcpcb := { tp with snd_holes := [] }

end OpenbsdKernel.TcpSack
