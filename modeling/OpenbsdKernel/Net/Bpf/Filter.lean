import OpenbsdKernel.Lib.Loop
import OpenbsdKernel.Net.Bpf.Insn

/-!
# The BPF interpreter

`bpf_filter` as an iterated step. The three accesses whose safety rests on the
validator (fetching an instruction, indexing the scratch array, dividing) go wrong
in the model when they leave their domain; every other path of the `switch` is
total. Shifts by 32 or more have no meaning in C, so their result is a parameter.
-/
namespace OpenbsdKernel.Bpf

def extractShort (p : ℕ → BitVec 8) : BitVec 32 :=
  (p 0).setWidth 32 <<< 8 ||| (p 1).setWidth 32

def extractLong (p : ℕ → BitVec 8) : BitVec 32 :=
  (p 0).setWidth 32 <<< 24 ||| (p 1).setWidth 32 <<< 16 |||
    (p 2).setWidth 32 <<< 8 ||| (p 3).setWidth 32

/-- `MINDEX`: the mbuf holding byte `k`, the mbufs after it and the offset in it.
`none` is the early `return 0` at the end of the chain. -/
def mindex : Mbuf → List Mbuf → ℕ → Option (Mbuf × List Mbuf × ℕ)
  | m, [], k => if m.m_len ≤ k then none else some (m, [], k)
  | m, m' :: ms, k =>
    if m.m_len ≤ k then mindex m' ms (k - m.m_len) else some (m, m' :: ms, k)

/-- `bpf_m_xword`; `none` is a set `*err`. -/
def bpfMXword (m : Mbuf) (ms : List Mbuf) (k : ℕ) : Option (BitVec 32) :=
  match mindex m ms k with
  | none => none
  | some (m, ms, k) =>
    let cp := fun i => m.mtod (k + i)
    if k + 4 ≤ m.m_len then some (extractLong cp)
    else match ms with
      | [] => none
      | m0 :: _ =>
        if m0.m_len + m.m_len - k < 4 then none
        else
          let np := m0.mtod
          match m.m_len - k with
          | 1 => some (extractLong fun i => if i < 1 then cp i else np (i - 1))
          | 2 => some (extractLong fun i => if i < 2 then cp i else np (i - 2))
          | _ => some (extractLong fun i => if i < 3 then cp i else np (i - 3))

/-- `bpf_m_xhalf`; the first byte of the next mbuf is read without looking at
its length. -/
def bpfMXhalf (m : Mbuf) (ms : List Mbuf) (k : ℕ) : Option (BitVec 32) :=
  match mindex m ms k with
  | none => none
  | some (m, ms, k) =>
    let cp := fun i => m.mtod (k + i)
    if k + 2 ≤ m.m_len then some (extractShort cp)
    else match ms with
      | [] => none
      | m0 :: _ => some (extractShort fun i => if i < 1 then cp i else m0.mtod 0)

/-- The byte load of the three `MINDEX` users in `bpf_filter` itself. -/
def bpfMXbyte (m : Mbuf) (ms : List Mbuf) (k : ℕ) : Option (BitVec 32) :=
  (mindex m ms k).map fun r => (r.1.mtod r.2.2).setWidth 32

/-- A packet load of the given width at offset `k`; `none` is `return 0`. -/
def load (p : Packet) (k : BitVec 32) : Size → Option (BitVec 32)
  | .W =>
    if p.buflen < k ∨ p.buflen - k < 4 then
      if p.buflen ≠ 0 then none else bpfMXword p.m p.m_next k.toNat
    else some (extractLong fun i => p.bytes (k.toNat + i))
  | .H =>
    if p.buflen < k ∨ p.buflen - k < 2 then
      if p.buflen ≠ 0 then none else bpfMXhalf p.m p.m_next k.toNat
    else some (extractShort fun i => p.bytes (k.toNat + i))
  | .B =>
    if p.buflen ≤ k then
      if p.buflen ≠ 0 then none else bpfMXbyte p.m p.m_next k.toNat
    else some ((p.bytes k.toNat).setWidth 32)

/-- What the processor leaves in `A` for shift counts C does not define. -/
structure Shifter where
  lsh : BitVec 32 → BitVec 32 → BitVec 32
  rsh : BitVec 32 → BitVec 32 → BitVec 32

def Alu.eval (h : Shifter) : Alu → BitVec 32 → BitVec 32 → BitVec 32
  | .add, a, b => a + b
  | .sub, a, b => a - b
  | .mul, a, b => a * b
  | .div, a, b => a / b
  | .and, a, b => a &&& b
  | .or, a, b => a ||| b
  | .lsh, a, b => if b.toNat < 32 then a <<< b else h.lsh a b
  | .rsh, a, b => if b.toNat < 32 then a >>> b else h.rsh a b

def Cond.eval : Cond → BitVec 32 → BitVec 32 → Bool
  | .jgt, a, b => decide (b < a)
  | .jge, a, b => decide (b ≤ a)
  | .jeq, a, b => a == b
  | .jset, a, b => a &&& b != 0

/-- Registers of `bpf_filter`; `pc` indexes the instruction to fetch next. -/
structure State where
  A : BitVec 32
  X : BitVec 32
  mem : Vector (BitVec 32) BPF_MEMWORDS
  pc : ℕ
  deriving DecidableEq, Repr

inductive Fault where
  | fetch (pc : ℕ)
  | scratch (k : ℕ)
  | divide
  deriving DecidableEq, Repr

abbrev Exec := Loop.Step State (BitVec 32) Fault

namespace State

def init : State := ⟨0, 0, Vector.replicate BPF_MEMWORDS 0, 0⟩

def setA (s : State) (a : BitVec 32) : State := { s with A := a, pc := s.pc + 1 }
def setX (s : State) (x : BitVec 32) : State := { s with X := x, pc := s.pc + 1 }
def jump (s : State) (off : ℕ) : State := { s with pc := s.pc + off + 1 }

def operand (s : State) (i : Insn) : Src → BitVec 32
  | .K => i.k
  | .X => s.X

/-- Read `mem[k]` and hand it on. -/
def loadMem (s : State) (k : BitVec 32) (f : BitVec 32 → State) : Exec :=
  if h : k.toNat < BPF_MEMWORDS then .next (f s.mem[k.toNat]) else .wrong (.scratch k.toNat)

/-- Write `mem[k] = v`. -/
def storeMem (s : State) (k v : BitVec 32) : Exec :=
  if h : k.toNat < BPF_MEMWORDS then
    .next { s with mem := s.mem.set k.toNat v, pc := s.pc + 1 }
  else .wrong (.scratch k.toNat)

end State

def orReject (v : Option (BitVec 32)) (f : BitVec 32 → State) : Exec :=
  match v with
  | none => .done 0
  | some a => .next (f a)

/-- One arm of the `switch`. -/
def execOp (h : Shifter) (p : Packet) (i : Insn) (s : State) : Op → Exec
  | .retK => .done i.k
  | .retA => .done s.A
  | .ldAbs sz => orReject (load p i.k sz) s.setA
  | .ldInd sz => orReject (load p (s.X + i.k) sz) s.setA
  | .ldLen => .next (s.setA p.wirelen)
  | .ldxLen => .next (s.setX p.wirelen)
  | .ldxMsh => orReject (load p i.k .B) fun b => s.setX ((b &&& 0xf) <<< 2)
  | .ldImm => .next (s.setA i.k)
  | .ldxImm => .next (s.setX i.k)
  | .ldMem => s.loadMem i.k s.setA
  | .ldxMem => s.loadMem i.k s.setX
  | .st => s.storeMem i.k s.A
  | .stx => s.storeMem i.k s.X
  | .ja => .next (s.jump i.k.toNat)
  | .jmp c src =>
    .next (s.jump (if c.eval s.A (s.operand i src) then i.jt.toNat else i.jf.toNat))
  | .alu .div src =>
    -- only the register form tests its divisor at run time
    if src = .X ∧ s.X = 0 then .done 0
    else if s.operand i src = 0 then .wrong .divide
    else .next (s.setA (Alu.div.eval h s.A (s.operand i src)))
  | .alu a src => .next (s.setA (a.eval h s.A (s.operand i src)))
  | .neg => .next (s.setA (-s.A))
  | .tax => .next (s.setX s.A)
  | .txa => .next (s.setA s.X)

/-- Fetch, dispatch and execute. Unknown opcodes return zero in the kernel. -/
def step (h : Shifter) (f : List Insn) (p : Packet) (s : State) : Exec :=
  match f[s.pc]? with
  | none => .wrong (.fetch s.pc)
  | some i =>
    match decode i.code with
    | none => .done 0
    | some op => execOp h p i s op

/-- `bpf_filter` within a bound on the number of executed instructions. No
program at all accepts the packet. -/
def bpfFilter (h : Shifter) (fuel : ℕ) (f : Option (List Insn)) (p : Packet) :
    Loop.Outcome State (BitVec 32) Fault :=
  match f with
  | none => .returned (-1) 0
  | some f => Loop.run (step h f p) fuel State.init

@[simp] theorem setA_pc (s : State) (a : BitVec 32) : (s.setA a).pc = s.pc + 1 := rfl
@[simp] theorem setX_pc (s : State) (x : BitVec 32) : (s.setX x).pc = s.pc + 1 := rfl
@[simp] theorem jump_pc (s : State) (off : ℕ) : (s.jump off).pc = s.pc + off + 1 := rfl

def Op.maxJump (i : Insn) : Op → ℕ
  | .ja => i.k.toNat
  | .jmp _ _ => max i.jt.toNat i.jf.toNat
  | _ => 0

theorem orReject_next {v : Option (BitVec 32)} {f : BitVec 32 → State} {t : State}
    (h : orReject v f = .next t) : ∃ a, t = f a := by
  cases v with
  | none => simp [orReject] at h
  | some a => exact ⟨a, by simpa [orReject] using h.symm⟩

theorem loadMem_next {s t : State} {k : BitVec 32} {f : BitVec 32 → State}
    (h : s.loadMem k f = .next t) : ∃ a, t = f a := by
  unfold State.loadMem at h
  split_ifs at h with hk
  exact ⟨_, by simpa using h.symm⟩

theorem storeMem_next {s t : State} {k v : BitVec 32} (h : s.storeMem k v = .next t) :
    t.pc = s.pc + 1 := by
  unfold State.storeMem at h
  split_ifs at h with hk
  have ht : t = _ := (Loop.Step.next.inj h).symm
  simp [ht]

theorem execOp_next {h : Shifter} {p : Packet} {i : Insn} {s t : State} {op : Op}
    (hex : execOp h p i s op = .next t) :
    s.pc + 1 ≤ t.pc ∧ t.pc ≤ s.pc + op.maxJump i + 1 := by
  cases op with
  | retK | retA => simp [execOp] at hex
  | ldAbs sz | ldInd sz | ldxMsh =>
    obtain ⟨a, rfl⟩ := orReject_next hex
    simp [Op.maxJump]
  | ldMem | ldxMem =>
    obtain ⟨a, rfl⟩ := loadMem_next hex
    simp [Op.maxJump]
  | st | stx =>
    have ht := storeMem_next hex
    simp [ht, Op.maxJump]
  | ja =>
    have ht : t = _ := (Loop.Step.next.inj hex).symm
    simp [ht, Op.maxJump]
  | jmp c src =>
    have ht : t = _ := (Loop.Step.next.inj hex).symm
    subst ht
    simp only [jump_pc, Op.maxJump]
    split_ifs <;> omega
  | alu a src =>
    have ht : ∃ v, t = s.setA v := by
      cases a with
      | div =>
        simp only [execOp] at hex
        split_ifs at hex
        exact ⟨_, (Loop.Step.next.inj hex).symm⟩
      | _ => exact ⟨_, (Loop.Step.next.inj hex).symm⟩
    obtain ⟨v, rfl⟩ := ht
    simp [Op.maxJump]
  | _ =>
    have ht : t = _ := (Loop.Step.next.inj hex).symm
    simp [ht, Op.maxJump]

end OpenbsdKernel.Bpf
