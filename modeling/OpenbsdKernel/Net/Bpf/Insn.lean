import Mathlib.Tactic

/-!
# BPF instructions and packets

The instruction encoding of `net/bpf.h` and the two packet representations that
`bpf_filter` reads. An opcode is a 16-bit word; the interpreter dispatches on the
whole word, while the validator only looks at the fields selected by the
`BPF_CLASS`, `BPF_MODE`, `BPF_OP` and `BPF_SRC` masks.
-/
namespace OpenbsdKernel.Bpf

/-- `struct bpf_insn`. -/
structure Insn where
  code : BitVec 16
  jt : BitVec 8
  jf : BitVec 8
  k : BitVec 32
  deriving DecidableEq, Repr

def BPF_CLASS (code : BitVec 16) : BitVec 16 := code &&& 0x07
def BPF_LD : BitVec 16 := 0x00
def BPF_LDX : BitVec 16 := 0x01
def BPF_ST : BitVec 16 := 0x02
def BPF_STX : BitVec 16 := 0x03
def BPF_ALU : BitVec 16 := 0x04
def BPF_JMP : BitVec 16 := 0x05
def BPF_RET : BitVec 16 := 0x06
def BPF_MISC : BitVec 16 := 0x07

def BPF_W : BitVec 16 := 0x00
def BPF_H : BitVec 16 := 0x08
def BPF_B : BitVec 16 := 0x10

def BPF_MODE (code : BitVec 16) : BitVec 16 := code &&& 0xe0
def BPF_IMM : BitVec 16 := 0x00
def BPF_ABS : BitVec 16 := 0x20
def BPF_IND : BitVec 16 := 0x40
def BPF_MEM : BitVec 16 := 0x60
def BPF_LEN : BitVec 16 := 0x80
def BPF_MSH : BitVec 16 := 0xa0

def BPF_OP (code : BitVec 16) : BitVec 16 := code &&& 0xf0
def BPF_ADD : BitVec 16 := 0x00
def BPF_SUB : BitVec 16 := 0x10
def BPF_MUL : BitVec 16 := 0x20
def BPF_DIV : BitVec 16 := 0x30
def BPF_OR : BitVec 16 := 0x40
def BPF_AND : BitVec 16 := 0x50
def BPF_LSH : BitVec 16 := 0x60
def BPF_RSH : BitVec 16 := 0x70
def BPF_NEG : BitVec 16 := 0x80
def BPF_JA : BitVec 16 := 0x00
def BPF_JEQ : BitVec 16 := 0x10
def BPF_JGT : BitVec 16 := 0x20
def BPF_JGE : BitVec 16 := 0x30
def BPF_JSET : BitVec 16 := 0x40

def BPF_SRC (code : BitVec 16) : BitVec 16 := code &&& 0x08
def BPF_K : BitVec 16 := 0x00
def BPF_X : BitVec 16 := 0x08

def BPF_A : BitVec 16 := 0x10

def BPF_TAX : BitVec 16 := 0x00
def BPF_TXA : BitVec 16 := 0x80

/-- Number of scratch memory words. -/
def BPF_MEMWORDS : ℕ := 16

def BPF_MAXINSNS : ℕ := 512

inductive Size where
  | W | H | B
  deriving DecidableEq, Repr

inductive Src where
  | K | X
  deriving DecidableEq, Repr

inductive Cond where
  | jgt | jge | jeq | jset
  deriving DecidableEq, Repr

inductive Alu where
  | add | sub | mul | div | and | or | lsh | rsh
  deriving DecidableEq, Repr

/-- One constructor per `case` label of the `switch` in `bpf_filter`. -/
inductive Op where
  | retK | retA
  | ldAbs (s : Size) | ldInd (s : Size)
  | ldLen | ldxLen | ldxMsh
  | ldImm | ldxImm | ldMem | ldxMem
  | st | stx
  | ja | jmp (c : Cond) (s : Src)
  | alu (a : Alu) (s : Src) | neg
  | tax | txa
  deriving DecidableEq, Repr

def Size.code : Size → BitVec 16
  | .W => BPF_W
  | .H => BPF_H
  | .B => BPF_B

def Src.code : Src → BitVec 16
  | .K => BPF_K
  | .X => BPF_X

def Cond.code : Cond → BitVec 16
  | .jgt => BPF_JGT
  | .jge => BPF_JGE
  | .jeq => BPF_JEQ
  | .jset => BPF_JSET

def Alu.code : Alu → BitVec 16
  | .add => BPF_ADD
  | .sub => BPF_SUB
  | .mul => BPF_MUL
  | .div => BPF_DIV
  | .and => BPF_AND
  | .or => BPF_OR
  | .lsh => BPF_LSH
  | .rsh => BPF_RSH

/-- The label expression itself. -/
def Op.code : Op → BitVec 16
  | .retK => BPF_RET ||| BPF_K
  | .retA => BPF_RET ||| BPF_A
  | .ldAbs s => BPF_LD ||| s.code ||| BPF_ABS
  | .ldInd s => BPF_LD ||| s.code ||| BPF_IND
  | .ldLen => BPF_LD ||| BPF_W ||| BPF_LEN
  | .ldxLen => BPF_LDX ||| BPF_W ||| BPF_LEN
  | .ldxMsh => BPF_LDX ||| BPF_MSH ||| BPF_B
  | .ldImm => BPF_LD ||| BPF_IMM
  | .ldxImm => BPF_LDX ||| BPF_IMM
  | .ldMem => BPF_LD ||| BPF_MEM
  | .ldxMem => BPF_LDX ||| BPF_MEM
  | .st => BPF_ST
  | .stx => BPF_STX
  | .ja => BPF_JMP ||| BPF_JA
  | .jmp c s => BPF_JMP ||| c.code ||| s.code
  | .alu a s => BPF_ALU ||| a.code ||| s.code
  | .neg => BPF_ALU ||| BPF_NEG
  | .tax => BPF_MISC ||| BPF_TAX
  | .txa => BPF_MISC ||| BPF_TXA

def allSizes : List Size := [.W, .H, .B]
def allSrcs : List Src := [.K, .X]
def allConds : List Cond := [.jgt, .jge, .jeq, .jset]
def allAlus : List Alu := [.add, .sub, .mul, .div, .and, .or, .lsh, .rsh]

def plainOps : List Op :=
  [.retK, .retA, .ldLen, .ldxLen, .ldxMsh, .ldImm, .ldxImm, .ldMem, .ldxMem, .st, .stx, .ja,
    .neg, .tax, .txa]

def allOps : List Op :=
  List.flatten [plainOps, allSizes.map Op.ldAbs, allSizes.map Op.ldInd,
    allConds.flatMap fun c => allSrcs.map (Op.jmp c),
    allAlus.flatMap fun a => allSrcs.map (Op.alu a)]

/-- Dispatch on the whole opcode; `none` is the `default` label. -/
def decode (code : BitVec 16) : Option Op :=
  allOps.find? fun op => op.code == code

theorem code_of_decode {code : BitVec 16} {op : Op} (h : decode code = some op) :
    op.code = code := by
  have := List.find?_some h
  simpa using this

theorem mem_allOps (op : Op) : op ∈ allOps := by
  cases op with
  | ldAbs s => cases s <;> simp [allOps, plainOps, allSizes]
  | ldInd s => cases s <;> simp [allOps, plainOps, allSizes]
  | jmp c s => cases c <;> cases s <;> simp [allOps, plainOps, allConds, allSrcs]
  | alu a s => cases a <;> cases s <;> simp [allOps, plainOps, allAlus, allSrcs]
  | _ => simp [allOps, plainOps]

/-- No two labels collide and no label is missing from the table. -/
theorem decode_code (op : Op) : decode op.code = some op := by
  have h : ∀ op ∈ allOps, decode op.code = some op := by decide +kernel
  exact h op (mem_allOps op)

/-- The part of `struct mbuf` the filter reads: `mtod(m, u_char *)` as a memory
that also has contents past `m_len`, and the length itself. -/
structure Mbuf where
  m_len : ℕ
  mtod : ℕ → BitVec 8
  m_len_lt : m_len < 2 ^ 31

/-- The packet argument `p` of `bpf_filter`. The same pointer is a byte buffer
when `buflen` is not zero and a (non-NULL) mbuf chain when it is. -/
structure Packet where
  bytes : ℕ → BitVec 8
  m : Mbuf
  m_next : List Mbuf
  wirelen : BitVec 32
  buflen : BitVec 32

end OpenbsdKernel.Bpf
