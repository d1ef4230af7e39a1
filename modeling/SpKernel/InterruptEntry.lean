import SpKernel.Lib.WordStack
import SpKernel.Process

/-!
# From an interrupt to its handler and back (`support.c`, `isr_stubs.S`)

`init_idt` has every vector enter at a stub of its own. For some vectors the
processor pushes an error code; the stubs of the others push a zero in its
place, so that the frame that `isr_save` completes is the `context_t` of the
kernel for every vector (`isrStub_stack`, `isrSave_stack`). Then it stores the
page directory and the stack pointer, the one in `last_pde` and the other in
the PCB of the process, and calls the handler on the stack of the system.
`__isr_restore` takes all of it back (`isrRestore_spec`): the processor is
where the interrupt has come from, but for what a handler has stored into the
frame. With `ISR_DEBUGGING_CODE` it prints the context first, below it on the
stack of the process.

One memory is used before and after the directories are switched: it stands for
the locations that both show at the same addresses, among them the variables
of the kernel and the stack of the process. These are apart from each other
(`IsrVars.Apart`); the rest of memory is anything.
-/

namespace SpKernel

open Lib

/-! ## The source -/

structure IdtGate where
  offset150 : Half
  segmentSelector : Half
  flags : Half
  offset3116 : Half
  deriving DecidableEq

abbrev idtAddress : Word := 0x2500

/-- `IDT_PRESENT | IDT_DPL_0 | IDT_INT32_GATE` -/
abbrev gateFlags : Half := 0x8000 ||| 0x0000 ||| 0x0E00

/-- The gate that `set_idt_entry` stores. -/
def idtGate (handler : Word) : IdtGate where
  offset150 := (handler &&& 0xFFFF).setWidth 16
  segmentSelector := 0x0010
  flags := gateFlags
  offset3116 := (handler.sshiftRight 16 &&& 0xFFFF).setWidth 16

def setIdtEntry (m : Mem) (entry : Nat) (handler : Word) : Mem :=
  let g := idtAddress + BitVec.ofNat 32 (8 * entry)
  let m := store 2 m g (idtGate handler).offset150
  let m := store 2 m (g + 2) (idtGate handler).segmentSelector
  let m := store 2 m (g + 4) (idtGate handler).flags
  store 2 m (g + 6) (idtGate handler).offset3116

/-- The gates that `init_idt` stores, with `__isr_stub_table`. -/
def initGates (isrStubTable : Nat → Word) (m : Mem) : Mem :=
  (List.range 256).foldl (fun m i => setIdtEntry m i (isrStubTable i)) m

/-- The vectors with `ERR_ISR` -/
def errIsr : List Nat := [0x08, 0x0A, 0x0B, 0x0C, 0x0D, 0x0E, 0x11]

/-- The stub of a vector. -/
def isrStub (vector : Nat) (s : WordStack) : WordStack :=
  if vector ∈ errIsr then s.push (BitVec.ofNat 32 vector)
  else (s.push 0).push (BitVec.ofNat 32 vector)

/-- The processor, with the register that holds its page directory. -/
structure Cpu where
  eax : Word
  ecx : Word
  edx : Word
  ebx : Word
  esp : Word
  ebp : Word
  esi : Word
  edi : Word
  ds : Half
  es : Half
  fs : Half
  gs : Half
  ss : Half
  cs : Half
  eip : Word
  eflags : Word
  cr3 : Word

def loadShort (m : Mem) (a : Word) : Half := m (a + 1) ++ m a

/-- Where the variables and the code are that `isr_stubs.S` names. -/
structure IsrVars where
  lastPde : Word
  pageDirectory : Word
  current : Word
  systemEsp : Word
  isrTable : Word
  now : Word
  fmt : Word
  /-- behind `call *%ebx` -/
  afterIsr : Word
  /-- behind `call c_printf_at` -/
  afterPrint : Word

/-- The call of a handler: where it is, its stack, and the page directory that
is loaded. -/
structure IsrCall where
  eip : Word
  stack : WordStack
  cr3 : Word

/-- `isr_save`, up to the call. -/
def isrSaveStack (v : IsrVars) (c : Cpu) (s : WordStack) : IsrCall :=
  -- pusha
  let s := s.pushAll [c.eax, c.ecx, c.edx, c.ebx, s.sp, c.ebp, c.esi, c.edi]
  let s := s.pushAll [c.ds.setWidth 32, c.es.setWidth 32, c.fs.setWidth 32, c.gs.setWidth 32,
    c.ss.setWidth 32]
  let eax := load32 s.mem (s.sp + 52)
  let ebx := load32 s.mem (s.sp + 56)
  let m := store 4 s.mem v.lastPde c.cr3
  let cr3 := load32 m v.pageDirectory
  -- the context pointer is the first field of the PCB
  let m := store 4 m (load32 m v.current) s.sp
  let os := (⟨m, load32 m v.systemEsp⟩ : WordStack).pushAll [ebx, eax]
  ⟨load32 os.mem (v.isrTable + 4 * eax), os.push v.afterIsr, cr3⟩

/-- `DEBUGGING CODE PART 1` for the PCB at `ebx`, with what `c_printf_at` does to
memory; there is none without `ISR_DEBUGGING_CODE`. -/
def isrDebug (v : IsrVars) (cPrintfAt : Option (WordStack → Mem)) (ebx : Word) (s : WordStack) :
    WordStack :=
  match cPrintfAt with
  | none => s
  | some cPrintfAt =>
      let s := s.push ((loadShort s.mem (ebx + 18)).setWidth 32)
      let s := s.push ((loadShort s.mem (ebx + 16)).setWidth 32)
      let s := s.push (load32 s.mem v.now)
      let s := s.pushAll [v.fmt, 1, 0]
      ⟨cPrintfAt (s.push v.afterPrint), s.sp + 24⟩

/-- `__isr_restore`: the processor, and memory. -/
def isrRestoreStack (v : IsrVars) (cPrintfAt : Option (WordStack → Mem)) (m : Mem) : Cpu × Mem :=
  let cr3 := load32 m v.lastPde
  let ebx := load32 m v.current
  let s := isrDebug v cPrintfAt ebx ⟨m, load32 m ebx⟩
  let (ss, s) := s.pop
  let (gs, s) := s.pop
  let (fs, s) := s.pop
  let (es, s) := s.pop
  let (ds, s) := s.pop
  -- popa, which does not take the pointer
  let (edi, s) := s.pop
  let (esi, s) := s.pop
  let (ebp, s) := s.pop
  let (_, s) := s.pop
  let (ebx, s) := s.pop
  let (edx, s) := s.pop
  let (ecx, s) := s.pop
  let (eax, s) := s.pop
  let s := { s with sp := s.sp + 8 }
  -- iret
  let (eip, s) := s.pop
  let (cs, s) := s.pop
  let (eflags, s) := s.pop
  (⟨eax, ecx, edx, ebx, s.sp, ebp, esi, edi, ds.setWidth 16, es.setWidth 16, fs.setWidth 16,
    gs.setWidth 16, ss.setWidth 16, cs.setWidth 16, eip, eflags, cr3⟩, s.mem)

/-! ## The processor -/

/-- The gate of a vector, in the table at `IDT_ADDRESS`. -/
def gateAt (m : Mem) (vector : Nat) : IdtGate :=
  let g := idtAddress + BitVec.ofNat 32 (8 * vector)
  ⟨loadShort m g, loadShort m (g + 2), loadShort m (g + 4), loadShort m (g + 6)⟩

/-- The exceptions that come with an error code. -/
def HasErrorCode (vector : Nat) : Prop :=
  vector = 8 ∨ 10 ≤ vector ∧ vector ≤ 14 ∨ vector = 17

instance (vector : Nat) : Decidable (HasErrorCode vector) :=
  inferInstanceAs (Decidable (_ ∨ _ ∨ _))

abbrev eflagsIf : Word := 0x200

/-- What the processor does for an interrupt within one ring: its registers,
and the stack. -/
def Cpu.interrupt (c : Cpu) (m : Mem) (vector : Nat) (code : Word) : Cpu × WordStack :=
  let g := gateAt m vector
  let s := (⟨m, c.esp⟩ : WordStack).pushAll [c.eflags, c.cs.setWidth 32, c.eip]
  let s := if HasErrorCode vector then s.push code else s
  ({ c with
      esp := s.sp
      cs := g.segmentSelector
      eip := g.offset3116 ++ g.offset150
      eflags := if g.flags &&& 0x0F00 = 0x0E00 then c.eflags &&& ~~~eflagsIf else c.eflags }, s)

/-! ## Contexts -/

/-- A context as it is in memory. -/
def Context.words (x : Context) : List Word :=
  [x.ss, x.gs, x.fs, x.es, x.ds, x.edi, x.esi, x.ebp, x.esp, x.ebx, x.edx, x.ecx, x.eax, x.vector,
    x.code, x.eip, x.cs, x.eflags]

/-- The processor that a context asks for, with the stack above it and a page
directory. -/
def Context.resumed (x : Context) (esp cr3 : Word) : Cpu :=
  ⟨x.eax, x.ecx, x.edx, x.ebx, esp, x.ebp, x.esi, x.edi, x.ds.setWidth 16, x.es.setWidth 16,
    x.fs.setWidth 16, x.gs.setWidth 16, x.ss.setWidth 16, x.cs.setWidth 16, x.eip, x.eflags, cr3⟩

/-- The context of the processor at an interrupt. -/
def Cpu.context (c : Cpu) (vector : Nat) (code : Word) : Context where
  ss := c.ss.setWidth 32
  gs := c.gs.setWidth 32
  fs := c.fs.setWidth 32
  es := c.es.setWidth 32
  ds := c.ds.setWidth 32
  edi := c.edi
  esi := c.esi
  ebp := c.ebp
  esp := c.esp - 20
  ebx := c.ebx
  edx := c.edx
  ecx := c.ecx
  eax := c.eax
  vector := BitVec.ofNat 32 vector
  code := if HasErrorCode vector then code else 0
  eip := c.eip
  cs := c.cs.setWidth 32
  eflags := c.eflags

/-! ## Memory -/

namespace IsrVars

/-- Where `isr_save` stores: the context, `last_pde`, the context pointer of the
PCB, and the top of the system's stack. -/
def stores (v : IsrVars) (m : Mem) (esp : Word) : List (Set Word) :=
  [span (esp - 72) 72, span v.lastPde 4, span (load32 m v.current) 4,
    span (load32 m v.systemEsp - 12) 12]

/-- What it reads after it has begun to store. -/
def reads (v : IsrVars) (vector : Nat) : List (Set Word) :=
  [span v.pageDirectory 4, span v.current 4, span v.systemEsp 4,
    span (v.isrTable + 4 * BitVec.ofNat 32 vector) 4]

/-- The addresses that it does not store to. -/
def rest (v : IsrVars) (m : Mem) (esp : Word) : Set Word := {a | ∀ r ∈ v.stores m esp, a ∉ r}

/-- All of these are different objects. -/
def Apart (v : IsrVars) (m : Mem) (esp : Word) (vector : Nat) : Prop :=
  (v.stores m esp ++ v.reads vector).Pairwise Disjoint

/-- What `isr_save` leaves of the way back: the context of the process, where
its PCB has it, and its page directory. -/
structure Saved (v : IsrVars) (m : Mem) (pcb context : Word) (x : Context) (cr3 : Word) : Prop where
  current : load32 m v.current = pcb
  pointer : load32 m pcb = context
  lastPde : load32 m v.lastPde = cr3
  words : WordsAt m context x.words

end IsrVars

/-- `c_printf_at` does not store above its six parameters, over the context. -/
def KeepsContext (cPrintfAt : WordStack → Mem) : Prop :=
  ∀ s, Set.EqOn (cPrintfAt s) s.mem (span (s.sp + 28) 72)

/-! ## Gates -/

variable {v : IsrVars} {cPrintfAt : Option (WordStack → Mem)} {m m' : Mem} {c : Cpu} {vector : Nat}
  {code pcb context cr3 : Word}

theorem loadShort_store {base : Word} {n n' : Nat} (hn : n < 2 ^ 30) (hn' : n' < 2 ^ 30)
    (v : Half) :
    loadShort (store 2 m (base + BitVec.ofNat 32 (2 * n)) v) (base + BitVec.ofNat 32 (2 * n'))
      = if n = n' then v else loadShort m (base + BitVec.ofNat 32 (2 * n')) := by
  have hdiff : ∀ k < 2, (base + BitVec.ofNat 32 (2 * n') + BitVec.ofNat 32 k
      - (base + BitVec.ofNat 32 (2 * n))).toNat < 2 ↔ n = n' := by
    intro k hk
    have hsub : base + BitVec.ofNat 32 (2 * n') + BitVec.ofNat 32 k
        - (base + BitVec.ofNat 32 (2 * n))
        = BitVec.ofNat 32 (2 * n' + k) - BitVec.ofNat 32 (2 * n) := by
      rw [BitVec.ofNat_add]
      ring
    rw [hsub, BitVec.toNat_sub, BitVec.toNat_ofNat, BitVec.toNat_ofNat]
    omega
  by_cases h : n = n'
  · subst h
    rw [if_pos rfl, loadShort]
    have h0 : (base + BitVec.ofNat 32 (2 * n) - (base + BitVec.ofNat 32 (2 * n))).toNat = 0 := by
      rw [BitVec.sub_self]
      rfl
    have h1 : (base + BitVec.ofNat 32 (2 * n) + 1 - (base + BitVec.ofNat 32 (2 * n))).toNat = 1 :=
      toNat_offset _ (by decide : 1 < 2 ^ 32)
    simp only [store, h0, h1, Nat.lt_succ_self, Nat.zero_lt_succ, ↓reduceIte]
    apply BitVec.eq_of_getLsbD_eq
    intro i hi
    rw [BitVec.getLsbD_append]
    by_cases h8 : i < 8
    · simp [h8]
    · have hsum : 8 + (i - 8) = i := by omega
      have hlt : i - 8 < 8 := by omega
      simp [h8, hsum, hlt]
  · have h0 := mt (hdiff 0 (by decide)).mp h
    have h1 := mt (hdiff 1 (by decide)).mp h
    rw [BitVec.add_zero] at h0
    rw [if_neg h, loadShort, loadShort, store, store, if_neg h0]
    exact congrArg (· ++ _) (if_neg h1)

theorem idtGate_offset (handler : Word) :
    (idtGate handler).offset3116 ++ (idtGate handler).offset150 = handler := by
  have hmask : ∀ i < 16, (0xFFFF : Word).getLsbD i = true := by decide
  apply BitVec.eq_of_getLsbD_eq
  intro i hi
  rw [idtGate, BitVec.getLsbD_append]
  by_cases h16 : i < 16
  · rw [if_pos h16, BitVec.getLsbD_setWidth, BitVec.getLsbD_and, hmask i h16, decide_eq_true h16,
      Bool.true_and, Bool.and_true]
  · have hlt : i - 16 < 16 := by omega
    have hsum : 16 + (i - 16) = i := by omega
    have h32 : ¬32 ≤ i - 16 := by omega
    rw [if_neg h16, BitVec.getLsbD_setWidth, BitVec.getLsbD_and, hmask _ hlt,
      decide_eq_true hlt, Bool.true_and, Bool.and_true, BitVec.getLsbD_sshiftRight, hsum,
      decide_eq_false h32, if_pos hi]
    rfl

theorem gateAt_setIdtEntry {i j : Nat} (hi : i < 256) (hj : j < 256) (handler : Word) :
    gateAt (setIdtEntry m i handler) j = if i = j then idtGate handler else gateAt m j := by
  -- the table is an array of shorts, four for an entry
  have h8 : ∀ n, 8 * n = 2 * (4 * n + 0) := fun n => by omega
  have hpos : ∀ n k, idtAddress + BitVec.ofNat 32 (2 * (4 * n + 0)) + BitVec.ofNat 32 (2 * k)
      = idtAddress + BitVec.ofNat 32 (2 * (4 * n + k)) := by
    intro n k
    have hsum : 2 * (4 * n + k) = 2 * (4 * n + 0) + 2 * k := by omega
    rw [hsum, BitVec.ofNat_add _ (2 * k), BitVec.add_assoc]
  have h1 : ∀ n, idtAddress + BitVec.ofNat 32 (2 * (4 * n + 0)) + 2 = _ := fun n => hpos n 1
  have h2 : ∀ n, idtAddress + BitVec.ofNat 32 (2 * (4 * n + 0)) + 4 = _ := fun n => hpos n 2
  have h3 : ∀ n, idtAddress + BitVec.ofNat 32 (2 * (4 * n + 0)) + 6 = _ := fun n => hpos n 3
  have hone : ∀ k < 4, ∀ k' < 4, (4 * i + k = 4 * j + k' ↔ i = j ∧ k = k') := by omega
  simp only [gateAt, setIdtEntry, h8, h1, h2, h3]
  simp (disch := omega) only [loadShort_store, hone]
  by_cases h : i = j
  · simp [h]
  · simp [h]

theorem gateAt_initGates (isrStubTable : Nat → Word) (m : Mem) {j : Nat} (hj : j < 256) :
    gateAt (initGates isrStubTable m) j = idtGate (isrStubTable j) := by
  have hall : ∀ n ≤ 256, gateAt ((List.range n).foldl
      (fun m i => setIdtEntry m i (isrStubTable i)) m) j
        = if j < n then idtGate (isrStubTable j) else gateAt m j := by
    intro n
    induction n with
    | zero => exact fun _ => (if_neg (Nat.not_lt_zero j)).symm
    | succ n ih =>
        intro hn
        rw [List.range_succ, List.foldl_append, List.foldl_cons, List.foldl_nil,
          gateAt_setIdtEntry (by omega) hj, ih (by omega)]
        by_cases hlast : n = j
        · rw [if_pos hlast, if_pos (by omega), hlast]
        · rw [if_neg hlast]
          by_cases hlt : j < n
          · rw [if_pos hlt, if_pos (by omega)]
          · rw [if_neg hlt, if_neg (by omega)]
  exact (hall 256 (Nat.le_refl _)).trans (if_pos hj)

theorem gateAt_congr {j : Nat} (hj : j < 256)
    (h : ∀ i < 2048, m' (idtAddress + BitVec.ofNat 32 i) = m (idtAddress + BitVec.ofNat 32 i)) :
    gateAt m' j = gateAt m j := by
  have hbyte : ∀ k < 8, m' (idtAddress + BitVec.ofNat 32 (8 * j) + BitVec.ofNat 32 k)
      = m (idtAddress + BitVec.ofNat 32 (8 * j) + BitVec.ofNat 32 k) := by
    intro k hk
    rw [BitVec.add_assoc, ← BitVec.ofNat_add]
    exact h (8 * j + k) (by omega)
  have hshort : ∀ k < 4,
      loadShort m' (idtAddress + BitVec.ofNat 32 (8 * j) + BitVec.ofNat 32 (2 * k))
      = loadShort m (idtAddress + BitVec.ofNat 32 (8 * j) + BitVec.ofNat 32 (2 * k)) := by
    intro k hk
    have hnext : idtAddress + BitVec.ofNat 32 (8 * j) + BitVec.ofNat 32 (2 * k) + 1
        = idtAddress + BitVec.ofNat 32 (8 * j) + BitVec.ofNat 32 (2 * k + 1) := by
      rw [BitVec.ofNat_add, ← BitVec.add_assoc]
      rfl
    rw [loadShort, loadShort, hnext, hbyte _ (by omega), hbyte _ (by omega)]
  have h0 := hshort 0 (by decide)
  rw [Nat.mul_zero, BitVec.add_zero] at h0
  rw [gateAt, gateAt, h0]
  congr 1
  · exact hshort 1 (by decide)
  · exact hshort 2 (by decide)
  · exact hshort 3 (by decide)

/-! ## Frames -/

theorem mem_errIsr (vector : Nat) : vector ∈ errIsr ↔ HasErrorCode vector := by
  simp only [errIsr, List.mem_cons, List.not_mem_nil, HasErrorCode, or_false]
  omega

/-- The stub has pushed a code wherever the processor has not. -/
theorem isrStub_stack (c : Cpu) (m : Mem) (vector : Nat) (code : Word) :
    isrStub vector (c.interrupt m vector code).2 = (⟨m, c.esp⟩ : WordStack).pushAll
      [c.eflags, c.cs.setWidth 32, c.eip, (c.context vector code).code,
        BitVec.ofNat 32 vector] := by
  by_cases h : HasErrorCode vector
  · rw [isrStub, if_pos ((mem_errIsr vector).mpr h), Cpu.interrupt, Cpu.context, if_pos h]
    simp only [if_pos h]
    rfl
  · rw [isrStub, if_neg (mt (mem_errIsr vector).mp h), Cpu.interrupt, Cpu.context, if_neg h]
    simp only [if_neg h]
    rfl

theorem isrSave_stack (v : IsrVars) (c : Cpu) (m : Mem) (vector : Nat) (code : Word) :
    ∃ s : WordStack, s = (⟨m, c.esp⟩ : WordStack).pushAll (c.context vector code).words.reverse
      ∧ isrSaveStack v (c.interrupt m vector code).1
          (isrStub vector (c.interrupt m vector code).2)
        = let m₁ := store 4 s.mem v.lastPde c.cr3
          let m₂ := store 4 m₁ (load32 m₁ v.current) s.sp
          let os := (⟨m₂, load32 m₂ v.systemEsp⟩ : WordStack).pushAll
            [load32 s.mem (s.sp + 56), load32 s.mem (s.sp + 52)]
          ⟨load32 os.mem (v.isrTable + 4 * load32 s.mem (s.sp + 52)), os.push v.afterIsr,
            load32 m₁ v.pageDirectory⟩ := by
  have hsp : ((⟨m, c.esp⟩ : WordStack).pushAll [c.eflags, c.cs.setWidth 32, c.eip,
      (c.context vector code).code, BitVec.ofNat 32 vector]).sp = c.esp - 20 :=
    WordStack.pushAll_sp ..
  refine ⟨_, rfl, ?_⟩
  rw [isrStub_stack, isrSaveStack, hsp, ← WordStack.pushAll_append, ← WordStack.pushAll_append]
  rfl

theorem isrDebug_spec (hprint : ∀ print ∈ cPrintfAt, KeepsContext print) {s : WordStack}
    {x : Context} (h : WordsAt s.mem s.sp x.words) (ebx : Word) :
    (isrDebug v cPrintfAt ebx s).sp = s.sp
      ∧ WordsAt (isrDebug v cPrintfAt ebx s).mem s.sp x.words := by
  cases cPrintfAt with
  | none => exact ⟨rfl, h⟩
  | some print =>
      obtain ⟨ws, hlen, hdebug⟩ : ∃ ws : List Word, ws.length = 7
          ∧ isrDebug v (some print) ebx s = ⟨print (s.pushAll ws), (s.pushAll ws).sp + 4 + 24⟩ :=
        ⟨[_, _, _, v.fmt, 1, 0, v.afterPrint], rfl,
          congrArg (WordStack.mk _) (congrArg (· + 24) (BitVec.sub_add_cancel ..).symm)⟩
      have hsp : (s.pushAll ws).sp = s.sp - 28 := by
        rw [WordStack.pushAll_sp, hlen]
        rfl
      have hback : (s.pushAll ws).sp + 28 = s.sp := by rw [hsp, BitVec.sub_add_cancel]
      -- the context is above what is pushed
      have habove : Disjoint (span s.sp 72) (span (s.sp - 28) 28) := by
        refine Set.disjoint_left.mpr fun a ha ha' => ?_
        have hlow : (a - s.sp).toNat < 72 := ha
        have hhigh : (a - (s.sp - 28)).toNat < 28 := ha'
        bv_omega
      have hkept : Set.EqOn (s.pushAll ws).mem s.mem (span s.sp 72) := by
        have hpushed := WordStack.pushAll_eqOn s ws
        rw [hlen] at hpushed
        exact hpushed.mono habove.subset_compl_right
      have hprinted := hprint print rfl (s.pushAll ws)
      rw [hback] at hprinted
      rw [hdebug]
      refine ⟨?_, h.of_eqOn (hprinted.trans hkept) (Nat.le_refl _) (by decide)⟩
      rw [hsp]
      bv_omega

theorem isrRestore_spec (hprint : ∀ print ∈ cPrintfAt, KeepsContext print) {x : Context}
    (h : v.Saved m pcb context x cr3) :
    (isrRestoreStack v cPrintfAt m).1 = x.resumed (context + 72) cr3 := by
  obtain ⟨hsp, hwords⟩ := isrDebug_spec (v := v) (s := ⟨m, context⟩) hprint h.words pcb
  obtain ⟨h0, h1, h2, h3, h4, h5, h6, h7, -, h9, h10, h11, h12, -, -, h15, h16, h17, -⟩ := hwords
  have hskip : ∀ b : Word, b + 8 = b + 4 + 4 := fun b => by
    rw [BitVec.add_assoc]
    rfl
  rw [isrRestoreStack, h.current, h.pointer, h.lastPde]
  simp only [WordStack.pop, hsp, hskip, h0, h1, h2, h3, h4, h5, h6, h7, h9, h10, h11,
    h12, h15, h16, h17, Context.resumed, Cpu.mk.injEq, and_self, true_and, and_true]
  ring

/-! ## There and back -/

theorem IsrVars.rest_subset {esp : Word} {r : Set Word} (hr : r ∈ v.stores m esp) :
    v.rest m esp ⊆ rᶜ := fun _ ha => ha r hr

/-- What `isr_save` reads is not what it has stored to. -/
theorem IsrVars.Apart.load32_eq {esp a : Word} (h : v.Apart m esp vector)
    (hm : Set.EqOn m' m (v.rest m esp)) (hr : span a 4 ∈ v.reads vector) :
    load32 m' a = load32 m a := by
  have hread : span a 4 ⊆ v.rest m esp := fun _ ha w hw =>
    Set.disjoint_right.mp ((List.pairwise_append.mp h).2.2 w hw _ hr) ha
  exact load32_eq_of_eqOn (hm.mono hread)

theorem context_pushed {s : WordStack}
    (hs : s = (⟨m, c.esp⟩ : WordStack).pushAll (c.context vector code).words.reverse) :
    s.sp = c.esp - 72
      ∧ WordsAt s.mem (c.esp - 72) (c.context vector code).words
      ∧ Set.EqOn s.mem m (span (c.esp - 72) 72)ᶜ := by
  have hsp : s.sp = c.esp - 72 := by
    rw [hs]
    exact WordStack.pushAll_sp ..
  refine ⟨hsp, ?_, ?_⟩
  · rw [← hsp, hs]
    exact WordStack.pushAll_reverse _ (by decide : 4 * 18 ≤ 2 ^ 32)
  · rw [hs]
    exact WordStack.pushAll_eqOn ..

/-- What `isr_save` leaves for the handler and for the way back. -/
theorem isrSave_spec (happ : v.Apart m c.esp vector) (code : Word) :
    let entered := c.interrupt m vector code
    let call := isrSaveStack v entered.1 (isrStub vector entered.2)
    call.eip = load32 m (v.isrTable + 4 * BitVec.ofNat 32 vector)
      ∧ call.cr3 = load32 m v.pageDirectory
      ∧ WordsAt call.stack.mem call.stack.sp
        [v.afterIsr, BitVec.ofNat 32 vector, (c.context vector code).code]
      ∧ v.Saved call.stack.mem (load32 m v.current) (c.esp - 72) (c.context vector code) c.cr3
      ∧ Set.EqOn call.stack.mem m (v.rest m c.esp) := by
  intro entered call
  obtain ⟨s, hs, hcall⟩ := isrSave_stack v c m vector code
  obtain ⟨hsp, hwords, hcontext⟩ := context_pushed hs
  have hvector : load32 s.mem (s.sp + 52) = BitVec.ofNat 32 vector := by
    rw [hsp]
    exact hwords.get (i := 13) rfl
  have hcode : load32 s.mem (s.sp + 56) = (c.context vector code).code := by
    rw [hsp]
    exact hwords.get (i := 14) rfl
  -- memory after each of the stores
  have h0 : Set.EqOn s.mem m (v.rest m c.esp) :=
    hcontext.mono (IsrVars.rest_subset (by simp [IsrVars.stores]))
  obtain ⟨m₁, hm₁⟩ : ∃ m₁, m₁ = store 4 s.mem v.lastPde c.cr3 := ⟨_, rfl⟩
  have hlast : Set.EqOn m₁ s.mem (span v.lastPde 4)ᶜ := hm₁ ▸ store_eqOn ..
  have h1 : Set.EqOn m₁ m (v.rest m c.esp) :=
    (hlast.mono (IsrVars.rest_subset (by simp [IsrVars.stores]))).trans h0
  have hcurrent : load32 m₁ v.current = load32 m v.current :=
    happ.load32_eq h1 (by simp [IsrVars.reads])
  obtain ⟨m₂, hm₂⟩ : ∃ m₂, m₂ = store 4 m₁ (load32 m₁ v.current) s.sp := ⟨_, rfl⟩
  have hpcb : Set.EqOn m₂ m₁ (span (load32 m v.current) 4)ᶜ := by
    rw [hm₂, hcurrent]
    exact store_eqOn ..
  have h2 : Set.EqOn m₂ m (v.rest m c.esp) :=
    (hpcb.mono (IsrVars.rest_subset (by simp [IsrVars.stores]))).trans h1
  have hsystem : load32 m₂ v.systemEsp = load32 m v.systemEsp :=
    happ.load32_eq h2 (by simp [IsrVars.reads])
  obtain ⟨os, hos⟩ : ∃ os : WordStack, os = (⟨m₂, load32 m v.systemEsp⟩ : WordStack).pushAll
      [(c.context vector code).code, BitVec.ofNat 32 vector] := ⟨_, rfl⟩
  have hcall' : call = ⟨load32 os.mem (v.isrTable + 4 * BitVec.ofNat 32 vector),
      os.push v.afterIsr, load32 m₁ v.pageDirectory⟩ := by
    rw [show call = _ from hcall]
    simp only [hvector, hcode, ← hm₁, ← hm₂, hsystem, ← hos]
  have hstack : os.push v.afterIsr = (⟨m₂, load32 m v.systemEsp⟩ : WordStack).pushAll
      [v.afterIsr, BitVec.ofNat 32 vector, (c.context vector code).code].reverse := by
    rw [hos]
    rfl
  have hpushed : Set.EqOn (os.push v.afterIsr).mem m₂ (span (load32 m v.systemEsp - 12) 12)ᶜ := by
    rw [hstack]
    exact WordStack.pushAll_eqOn ..
  have h3 : Set.EqOn (os.push v.afterIsr).mem m (v.rest m c.esp) :=
    (hpushed.mono (IsrVars.rest_subset (by simp [IsrVars.stores]))).trans h2
  -- the handler is looked up before its return address is pushed
  have htable : load32 os.mem (v.isrTable + 4 * BitVec.ofNat 32 vector)
      = load32 m (v.isrTable + 4 * BitVec.ofNat 32 vector) := by
    refine happ.load32_eq (Set.EqOn.trans ?_ h2) (by simp [IsrVars.reads])
    have htwo : Set.EqOn os.mem m₂ (span (load32 m v.systemEsp - 8) 8)ᶜ := by
      rw [hos]
      exact WordStack.pushAll_eqOn ..
    have hpos : load32 m v.systemEsp - 8 = load32 m v.systemEsp - 12 + BitVec.ofNat 32 4 := by
      bv_omega
    have hsub : span (load32 m v.systemEsp - 8) 8 ⊆ span (load32 m v.systemEsp - 12) 12 := by
      rw [hpos]
      exact span_add_subset _ (by decide) (by decide)
    exact htwo.mono ((IsrVars.rest_subset (by simp [IsrVars.stores])).trans
      (Set.compl_subset_compl.mpr hsub))
  -- what is stored is apart from what is stored after it
  obtain ⟨⟨hcl, hcp, hco⟩, ⟨hlp, hlo⟩, hpo⟩ :
      (Disjoint (span (c.esp - 72) 72) (span v.lastPde 4)
        ∧ Disjoint (span (c.esp - 72) 72) (span (load32 m v.current) 4)
        ∧ Disjoint (span (c.esp - 72) 72) (span (load32 m v.systemEsp - 12) 12))
      ∧ (Disjoint (span v.lastPde 4) (span (load32 m v.current) 4)
        ∧ Disjoint (span v.lastPde 4) (span (load32 m v.systemEsp - 12) 12))
      ∧ Disjoint (span (load32 m v.current) 4) (span (load32 m v.systemEsp - 12) 12) := by
    have hstores := (List.pairwise_append.mp happ).1
    simpa [IsrVars.stores] using hstores
  rw [hcall']
  refine ⟨htable, happ.load32_eq h1 (by simp [IsrVars.reads]), ?_, ⟨?_, ?_, ?_, ?_⟩, h3⟩
  · show WordsAt (os.push v.afterIsr).mem (os.push v.afterIsr).sp _
    rw [hstack]
    exact WordStack.pushAll_reverse _ (by decide : 4 * 3 ≤ 2 ^ 32)
  · exact happ.load32_eq h3 (by simp [IsrVars.reads])
  · refine (load32_eq_of_eqOn (hpushed.mono hpo.subset_compl_right)).trans ?_
    rw [hm₂, hcurrent, load32_store, hsp]
  · refine (load32_eq_of_eqOn (hpushed.mono hlo.subset_compl_right)).trans ?_
    refine (load32_eq_of_eqOn (hpcb.mono hlp.subset_compl_right)).trans ?_
    rw [hm₁, load32_store]
  · have hkept : Set.EqOn (os.push v.afterIsr).mem s.mem (span (c.esp - 72) 72) :=
      ((hpushed.mono hco.subset_compl_right).trans (hpcb.mono hcp.subset_compl_right)).trans
        (hlast.mono hcl.subset_compl_right)
    exact hwords.of_eqOn hkept (Nat.le_refl _) (by decide)

/-- With the table that `init_idt` has built, an interrupt with any vector
enters at its stub, with interrupts off. The handler of the vector is called with
the kernel's page directory and two parameters, the vector and the error code
or a zero. The processor's context is on the stack of the process and its
address in the PCB, and memory has changed in nothing but these, `last_pde` and
the three words on the system's stack. However the handler goes, if all that is
there when the process goes on, the processor is as it was, but for what the
handler has stored for `%eax`. -/
theorem interrupt_transparent (isrStubTable : Nat → Word) (m₀ : Mem)
    (hidt : ∀ i < 2048, m (idtAddress + BitVec.ofNat 32 i)
      = initGates isrStubTable m₀ (idtAddress + BitVec.ofNat 32 i))
    (hv : vector < 256) (happ : v.Apart m c.esp vector) (code : Word)
    (hprint : ∀ print ∈ cPrintfAt, KeepsContext print) :
    let entered := c.interrupt m vector code
    let call := isrSaveStack v entered.1 (isrStub vector entered.2)
    (entered.1.eip = isrStubTable vector ∧ entered.1.eflags &&& eflagsIf = 0)
      ∧ (call.eip = load32 m (v.isrTable + 4 * BitVec.ofNat 32 vector)
        ∧ call.cr3 = load32 m v.pageDirectory
        ∧ WordsAt call.stack.mem call.stack.sp
          [v.afterIsr, BitVec.ofNat 32 vector, if HasErrorCode vector then code else 0])
      ∧ v.Saved call.stack.mem (load32 m v.current) (c.esp - 72) (c.context vector code) c.cr3
      ∧ Set.EqOn call.stack.mem m (v.rest m c.esp)
      ∧ ∀ m' ret, v.Saved m' (load32 m v.current) (c.esp - 72)
          { c.context vector code with eax := ret } c.cr3 →
        (isrRestoreStack v cPrintfAt m').1 = { c with eax := ret } := by
  intro entered call
  have hgate : gateAt m vector = idtGate (isrStubTable vector) :=
    (gateAt_congr hv hidt).trans (gateAt_initGates isrStubTable m₀ hv)
  obtain ⟨heip, hcr3, hwords, hsaved, hrest⟩ := isrSave_spec happ code
  refine ⟨⟨?_, ?_⟩, ⟨heip, hcr3, hwords⟩, hsaved, hrest, fun m' ret h => ?_⟩
  · show (gateAt m vector).offset3116 ++ (gateAt m vector).offset150 = isrStubTable vector
    rw [hgate, idtGate_offset]
  · have hflags : entered.1.eflags = c.eflags &&& ~~~eflagsIf := by
      show (if (gateAt m vector).flags &&& 0x0F00 = 0x0E00 then _ else _) = _
      rw [hgate]
      exact if_pos (by decide : gateFlags &&& 0x0F00 = 0x0E00)
    have hnone : ~~~eflagsIf &&& eflagsIf = 0 := by decide
    rw [hflags, BitVec.and_assoc, hnone]
    exact BitVec.and_zero
  · rw [isrRestore_spec hprint h, BitVec.sub_add_cancel]
    simp [Context.resumed, Cpu.context]

/-- A processor with a stack at `0x20000`. -/
def someCpu : Cpu :=
  ⟨1, 2, 3, 4, 0x20000, 6, 7, 8, 0x18, 0x18, 0x18, 0x18, 0x20, 0x10, 0x10000, 0x202, 0x9000⟩

/-- Variables from `0x30000` on. -/
def someVars : IsrVars :=
  ⟨0x30000, 0x30004, 0x30008, 0x3000C, 0x30010, 0x30410, 0x30420, 0x10000, 0x10010⟩

/-- The gates, a PCB at `0x40000`, and the system's stack up to `0x50000`. -/
def someMem : Mem :=
  store 4 (store 4 (initGates (fun i => BitVec.ofNat 32 i) fun _ => 0) 0x30008 0x40000#32)
    0x3000C 0x50000#32

theorem someVars_apart : someVars.Apart someMem someCpu.esp 14 := by
  have hpcb : load32 someMem someVars.current = 0x40000 := by decide +kernel
  have hsystem : load32 someMem someVars.systemEsp = 0x50000 := by decide +kernel
  rw [IsrVars.Apart, IsrVars.stores, hpcb, hsystem]
  exact pairwise_disjoint_span [(0x20000 - 72, 72), (0x30000, 4), (0x40000, 4),
    (0x50000 - 12, 12), (0x30004, 4), (0x30008, 4), (0x3000C, 4), (0x30010 + 4 * 14, 4)]
    (by decide) (by decide)

theorem someMem_gates {i : Nat} (hi : i < 2048) : someMem (idtAddress + BitVec.ofNat 32 i)
    = initGates (fun i => BitVec.ofNat 32 i) (fun _ => 0) (idtAddress + BitVec.ofNat 32 i) := by
  have hmem := add_mem_span idtAddress hi (by decide)
  have hcurrent : Disjoint (span idtAddress 2048) (span 0x30008 4) :=
    disjoint_span (by decide) (by decide)
  have hsystem : Disjoint (span idtAddress 2048) (span 0x3000C 4) :=
    disjoint_span (by decide) (by decide)
  exact (store_eqOn _ _ _ (hsystem.subset_compl_right hmem)).trans
    (store_eqOn _ _ _ (hcurrent.subset_compl_right hmem))

/-- A page fault; the handler stores nothing, and `c_printf_at` a word on its
own stack. -/
theorem interrupt_transparent_fault :
    let entered := someCpu.interrupt someMem 14 2
    let call := isrSaveStack someVars entered.1 (isrStub 14 entered.2)
    WordsAt call.stack.mem call.stack.sp [0x10000, 14, 2]
      ∧ (isrRestoreStack someVars (some fun s => (s.push 0).mem) call.stack.mem).1 = someCpu := by
  have hprint : ∀ print ∈ some fun s : WordStack => (s.push 0).mem, KeepsContext print := by
    rintro print hp s a ha
    obtain rfl := Option.some.inj hp
    have hlow : (a - (s.sp + 28)).toNat < 72 := ha
    refine WordStack.push_other ?_
    show 4 ≤ (a - (s.sp - 4)).toNat
    bv_omega
  obtain ⟨-, ⟨-, -, hwords⟩, hsaved, -, hback⟩ := interrupt_transparent
    (fun i => BitVec.ofNat 32 i) (fun _ => 0) (fun _ => someMem_gates) (by decide : 14 < 256)
    someVars_apart 2 hprint
  exact ⟨hwords, hback _ someCpu.eax hsaved⟩

end SpKernel
