import OpenbsdKernel.Net.Bpf.Filter

/-!
# The BPF validator and the safety of accepted programs

`bpf_validate` inspects opcode fields, the interpreter dispatches on whole
opcodes. `checkInsn_safe` bridges the two views instruction by instruction, and
the loop rule turns it into safety and termination of whole runs.
-/
namespace OpenbsdKernel.Bpf

/-- The body of the validator's loop for instruction `p` at index `i` of a
program of `len` instructions; `false` is `return 0`. -/
def checkInsn (bpf_maxbufsize : BitVec 32) (len i : ℕ) (p : Insn) : Bool :=
  let cls := BPF_CLASS p.code
  let mode := BPF_MODE p.code
  let op := BPF_OP p.code
  let start := BitVec.ofNat 32 (i + 1)
  let last := BitVec.ofNat 32 len
  if cls = BPF_LD ∨ cls = BPF_LDX then
    if mode = BPF_IMM then true
    else if mode = BPF_ABS ∨ mode = BPF_IND ∨ mode = BPF_MSH then
      !decide (bpf_maxbufsize ≤ p.k)
    else if mode = BPF_MEM then !decide (BPF_MEMWORDS ≤ p.k.toNat)
    else if mode = BPF_LEN then true
    else false
  else if cls = BPF_ST ∨ cls = BPF_STX then !decide (BPF_MEMWORDS ≤ p.k.toNat)
  else if cls = BPF_ALU then
    if op ∈ [BPF_ADD, BPF_SUB, BPF_MUL, BPF_OR, BPF_AND, BPF_LSH, BPF_RSH, BPF_NEG] then true
    else if op = BPF_DIV then !decide (BPF_SRC p.code = BPF_K ∧ p.k = 0)
    else false
  else if cls = BPF_JMP then
    if op = BPF_JA then !decide (start + p.k < start ∨ last ≤ start + p.k)
    else if op ∈ [BPF_JEQ, BPF_JGT, BPF_JGE, BPF_JSET] then
      !decide (last ≤ start + p.jt.setWidth 32 ∨ last ≤ start + p.jf.setWidth 32)
    else false
  else if cls = BPF_RET then true
  else if cls = BPF_MISC then true
  else false

/-- The validator's `for` loop from index `i` on. -/
def checkFrom (bpf_maxbufsize : BitVec 32) (len : ℕ) : ℕ → List Insn → Bool
  | _, [] => true
  | i, p :: ps => checkInsn bpf_maxbufsize len i p && checkFrom bpf_maxbufsize len (i + 1) ps

/-- `bpf_validate` on the array `f` of `f.length` instructions. -/
def bpfValidate (bpf_maxbufsize : BitVec 32) (f : List Insn) : Bool :=
  if f.length < 1 ∨ BPF_MAXINSNS < f.length then false
  else if checkFrom bpf_maxbufsize f.length 0 f then
    match f[f.length - 1]? with
    | none => false
    | some p => BPF_CLASS p.code == BPF_RET
  else false

theorem checkFrom_get {maxbuf : BitVec 32} {len : ℕ} {f : List Insn} {i j : ℕ} {p : Insn}
    (h : checkFrom maxbuf len i f = true) (hp : f[j]? = some p) :
    checkInsn maxbuf len (i + j) p = true := by
  induction f generalizing i j with
  | nil => simp at hp
  | cons q ps ih =>
    simp only [checkFrom, Bool.and_eq_true] at h
    cases j with
    | zero =>
      have hq : q = p := by simpa using hp
      simpa [hq] using h.1
    | succ j =>
      have hrest := ih h.2 (by simpa using hp)
      rwa [show i + 1 + j = i + (j + 1) by omega] at hrest

theorem bpfValidate_spec {maxbuf : BitVec 32} {f : List Insn} (h : bpfValidate maxbuf f = true) :
    1 ≤ f.length ∧ f.length ≤ BPF_MAXINSNS ∧
      (∀ i p, f[i]? = some p → checkInsn maxbuf f.length i p = true) ∧
      ∀ p, f[f.length - 1]? = some p → BPF_CLASS p.code = BPF_RET := by
  unfold bpfValidate at h
  split_ifs at h with hlen hcheck
  refine ⟨by omega, by omega, ?_, ?_⟩
  · intro i p hp
    simpa using checkFrom_get hcheck hp
  · intro p hp
    rw [hp] at h
    simpa using h

/-- What the interpreter relies on when it executes `op` at index `i`. -/
def Op.Safe (len i : ℕ) (p : Insn) : Op → Prop
  | .ldMem | .ldxMem | .st | .stx => p.k.toNat < BPF_MEMWORDS
  | .alu .div .K => p.k ≠ 0
  | .ja => i + p.k.toNat + 1 < len
  | .jmp _ _ => i + max p.jt.toNat p.jf.toNat + 1 < len
  | _ => True

theorem ja_target_lt {len i : ℕ} {k : BitVec 32} (hlen : len ≤ BPF_MAXINSNS) (hi : i < len)
    (hlo : ¬ BitVec.ofNat 32 (i + 1) + k < BitVec.ofNat 32 (i + 1))
    (hhi : ¬ BitVec.ofNat 32 len ≤ BitVec.ofNat 32 (i + 1) + k) : i + k.toNat + 1 < len := by
  unfold BPF_MAXINSNS at hlen
  simp only [BitVec.lt_def, BitVec.le_def, BitVec.toNat_add, BitVec.toNat_ofNat] at hlo hhi
  have hk := k.isLt
  omega

theorem jmp_target_lt {len i : ℕ} {j : BitVec 8} (hlen : len ≤ BPF_MAXINSNS) (hi : i < len)
    (hhi : ¬ BitVec.ofNat 32 len ≤ BitVec.ofNat 32 (i + 1) + j.setWidth 32) :
    i + j.toNat + 1 < len := by
  unfold BPF_MAXINSNS at hlen
  simp only [BitVec.le_def, BitVec.toNat_add, BitVec.toNat_ofNat, BitVec.toNat_setWidth] at hhi
  have hj := j.isLt
  omega

theorem checkInsn_safe {maxbuf : BitVec 32} {len i : ℕ} {p : Insn} {op : Op}
    (hlen : len ≤ BPF_MAXINSNS) (hi : i < len) (hop : op.code = p.code)
    (h : checkInsn maxbuf len i p = true) : op.Safe len i p := by
  unfold checkInsn at h
  rw [← hop] at h
  cases op with
  | ldMem | ldxMem | st | stx =>
    have hk : ¬ BPF_MEMWORDS ≤ p.k.toNat := by
      simpa [Op.code, BPF_CLASS, BPF_MODE, BPF_LD, BPF_LDX, BPF_ST, BPF_STX, BPF_IMM, BPF_ABS,
        BPF_IND, BPF_MSH, BPF_MEM] using h
    exact Nat.lt_of_not_le hk
  | ja =>
    have hk : ¬ (BitVec.ofNat 32 (i + 1) + p.k < BitVec.ofNat 32 (i + 1) ∨
        BitVec.ofNat 32 len ≤ BitVec.ofNat 32 (i + 1) + p.k) := by
      simpa [Op.code, BPF_CLASS, BPF_OP, BPF_LD, BPF_LDX, BPF_ST, BPF_STX, BPF_ALU, BPF_JMP,
        BPF_JA] using h
    exact ja_target_lt hlen hi (fun hc => hk (.inl hc)) (fun hc => hk (.inr hc))
  | jmp c s =>
    have hk : ¬ (BitVec.ofNat 32 len ≤ BitVec.ofNat 32 (i + 1) + p.jt.setWidth 32 ∨
        BitVec.ofNat 32 len ≤ BitVec.ofNat 32 (i + 1) + p.jf.setWidth 32) := by
      cases c <;> cases s <;>
        simpa [Op.code, Cond.code, Src.code, BPF_CLASS, BPF_OP, BPF_LD, BPF_LDX, BPF_ST, BPF_STX,
          BPF_ALU, BPF_JMP, BPF_JA, BPF_JEQ, BPF_JGT, BPF_JGE, BPF_JSET, BPF_K, BPF_X] using h
    have ht := jmp_target_lt hlen hi (fun hc => hk (.inl hc))
    have hf := jmp_target_lt hlen hi (fun hc => hk (.inr hc))
    simp only [Op.Safe]
    omega
  | alu a s =>
    cases a with
    | div =>
      cases s with
      | K =>
        have hk : ¬ p.k = 0 := by
          simpa [Op.code, Alu.code, Src.code, BPF_CLASS, BPF_OP, BPF_SRC, BPF_LD, BPF_LDX, BPF_ST,
            BPF_STX, BPF_ALU, BPF_ADD, BPF_SUB, BPF_MUL, BPF_OR, BPF_AND, BPF_LSH, BPF_RSH,
            BPF_NEG, BPF_DIV, BPF_K] using h
        exact hk
      | X => trivial
    | _ => trivial
  | _ => trivial

theorem op_of_class_ret {op : Op} (h : BPF_CLASS op.code = BPF_RET) : op = .retK ∨ op = .retA := by
  cases op with
  | retK => exact .inl rfl
  | retA => exact .inr rfl
  | ldAbs s => cases s <;> exact absurd h (by decide)
  | ldInd s => cases s <;> exact absurd h (by decide)
  | jmp c s => cases c <;> cases s <;> exact absurd h (by decide)
  | alu a s => cases a <;> cases s <;> exact absurd h (by decide)
  | _ => exact absurd h (by decide)

theorem execOp_safe {h : Shifter} {p : Packet} {len : ℕ} {i : Insn} {s : State} {op : Op}
    (hs : op.Safe len s.pc i) (e : Fault) : execOp h p i s op ≠ .wrong e := by
  cases op with
  | ldAbs sz => cases hl : load p i.k sz <;> simp [execOp, orReject, hl]
  | ldInd sz => cases hl : load p (s.X + i.k) sz <;> simp [execOp, orReject, hl]
  | ldxMsh => cases hl : load p i.k .B <;> simp [execOp, orReject, hl]
  | ldMem | ldxMem =>
    have hk : i.k.toNat < BPF_MEMWORDS := hs
    simp [execOp, State.loadMem, hk]
  | st | stx =>
    have hk : i.k.toNat < BPF_MEMWORDS := hs
    simp [execOp, State.storeMem, hk]
  | alu a src =>
    cases a with
    | div =>
      simp only [execOp]
      split_ifs with hx hz
      · simp
      · cases src with
        | K => exact absurd hz hs
        | X => exact absurd ⟨rfl, hz⟩ hx
      · simp
    | _ => simp [execOp]
  | _ => simp [execOp]

section Accepted

variable {h : Shifter} {maxbuf : BitVec 32} {f : List Insn} {p : Packet}

theorem step_of_accepted (hf : bpfValidate maxbuf f = true) {s : State} (hs : s.pc < f.length) :
    (∀ t, step h f p s = .next t → t.pc < f.length ∧ s.pc < t.pc) ∧
      ∀ e, step h f p s ≠ .wrong e := by
  obtain ⟨-, hmax, hcheck, hlast⟩ := bpfValidate_spec hf
  have hget : f[s.pc]? = some f[s.pc] := List.getElem?_eq_getElem hs
  cases hd : decode f[s.pc].code with
  | none => simp [step, hget, hd]
  | some op =>
    have hcode := code_of_decode hd
    have hsafe := checkInsn_safe hmax hs hcode (hcheck s.pc _ hget)
    have hstep : step h f p s = execOp h p f[s.pc] s op := by simp [step, hget, hd]
    rw [hstep]
    refine ⟨fun t ht => ?_, execOp_safe hsafe⟩
    obtain ⟨hlo, hhi⟩ := execOp_next ht
    refine ⟨?_, by omega⟩
    -- falling off the end would need a last instruction that is not a return
    have hnotlast : s.pc ≠ f.length - 1 := by
      intro heq
      have hret : BPF_CLASS op.code = BPF_RET := by
        rw [hcode]
        exact hlast _ (heq ▸ hget)
      rcases op_of_class_ret hret with rfl | rfl <;> simp [execOp] at ht
    cases op <;> simp only [Op.maxJump, Op.Safe] at hhi hsafe <;> omega

/-- An accepted program runs at most `f.length` instructions on any packet,
fetches only its own instructions, stays inside the scratch array, divides by
no zero, and returns a verdict. -/
theorem bpfFilter_of_validate (hf : bpfValidate maxbuf f = true) (fuel : ℕ)
    (hfuel : f.length ≤ fuel) :
    ∃ v n, bpfFilter h fuel (some f) p = .returned v n ∧ n ≤ f.length := by
  have hpos := (bpfValidate_spec hf).1
  obtain ⟨v, n, hrun, hn, -⟩ :=
    Loop.run_returns (step h f p) (I := fun s => s.pc < f.length)
      (μ := fun s => f.length - 1 - s.pc) (Q := fun _ => True)
      (fun s t hs ht => by
        obtain ⟨hlt, hgt⟩ := (step_of_accepted hf hs).1 t ht
        exact ⟨hlt, by omega⟩)
      (fun _ _ _ _ => trivial)
      (fun s e hs => (step_of_accepted hf hs).2 e)
      fuel State.init hpos (by simp only [State.init]; omega)
  refine ⟨v, n, hrun, ?_⟩
  simp only [State.init] at hn
  omega

end Accepted

def sampleProgram : List Insn :=
  [⟨BPF_LD ||| BPF_B ||| BPF_ABS, 0, 0, 9⟩, ⟨BPF_ST, 0, 0, 3⟩, ⟨BPF_LDX ||| BPF_MEM, 0, 0, 3⟩,
    ⟨BPF_ALU ||| BPF_DIV ||| BPF_K, 0, 0, 2⟩, ⟨BPF_JMP ||| BPF_JEQ ||| BPF_K, 0, 1, 3⟩,
    ⟨BPF_RET ||| BPF_K, 0, 0, 96⟩, ⟨BPF_RET ||| BPF_A, 0, 0, 0⟩]

def samplePacket : Packet where
  bytes := fun _ => 0
  m := ⟨4, fun i => BitVec.ofNat 8 i, by decide⟩
  m_next := [⟨20, fun i => BitVec.ofNat 8 (4 + i), by decide⟩]
  wirelen := 24
  buflen := 0

theorem bpfFilter_sampleProgram :
    bpfValidate 0x200000 sampleProgram = true ∧
      ∃ v n, bpfFilter ⟨fun a _ => a, fun a _ => a⟩ 7 (some sampleProgram) samplePacket =
        .returned v n ∧ n ≤ sampleProgram.length :=
  ⟨by decide,
    bpfFilter_of_validate (show bpfValidate 0x200000 sampleProgram = true by decide) 7 (by decide)⟩

end OpenbsdKernel.Bpf
