import SpKernel.Panics

/-!
# The status of a process

The stub of `getstatus` puts `SYS_getstatus` into `EAX`. That is the code
of `SYS_mmap` too, whose entry in the jump table was made later, so the
call arrives in `_sys_mmap`: it stops the kernel, maps memory, or finds
its arguments unaligned and returns `E_FAILURE`, which has the value of
`PS_INVALID` (`getstatus_cases`). `getstatus_truth_iff` says when that is
the truth.

The PID is the first argument, which `_sys_mmap` takes for an address.
One that is not negative is below the second directory entry, and the
call stops the kernel, which guards the identity mapping
(`getstatus_panics`); a negative one is above it
(`signExtend_lt_secondPde`). So the answer is `PS_INVALID`, or there is
none, and it is true of a PID that no process has.

`_sys_getstatus` itself, which is never called, would return the state of
the process with the PID, and would not know a free PCB from a process
with the PID -1 (`sysGetstatus_eq`, `sysGetstatus_free`).
-/

namespace SpKernel

open Lib

variable {k k' k₀ : Kernel} {image : Image} {mm : MemMgr} {pages : Nat}
  {tr : List (Kernel × Event)} {frame : Frame} {keys : List Byte} {pid : Half}

/-- `SYS_getstatus`, which the stub puts into `EAX` -/
abbrev sysGetstatusCode : Word := 11#32

/-- `PS_INVALID` and the other states as they appear in `EAX`. -/
def PState.word (s : PState) : Word := BitVec.ofInt 32 s.code

/-- The state of the allocated process with this PID, or `PS_INVALID`. -/
def statusOf (k : Kernel) (pid : Half) : PState :=
  match (List.finRange nPcbs).find? fun p =>
      decide ((k.pcbs p).state ≠ .free) && (k.pcbs p).pid == pid with
  | some p => (k.pcbs p).state
  | none => .invalid

/-- A system call has returned `v`, and has done nothing else. -/
def answered (k : Kernel) (frame : Frame) (v : Word) : Kernel :=
  isrRestore ((isrSave k frame).setRet k.current v)

theorem answered_eax (k : Kernel) (frame : Frame) (v : Word) :
    ((answered k frame v).pcbs k.current).context.regs.eax = v :=
  setRet_eax (isrSave k frame) k.current v

/-! ## The truth -/

theorem PState.word_inj {s t : PState} (h : s.word = t.word) : s = t := by
  cases s <;> cases t <;> first | rfl | exact absurd h (by decide)

theorem statusOf_ne_free : statusOf k pid ≠ .free := by
  unfold statusOf
  split
  · rename_i p hp
    have := List.find?_some hp
    rw [Bool.and_eq_true] at this
    exact of_decide_eq_true this.1
  · exact fun h => by cases h

/-- No process has the state `PS_INVALID`, so it is the status of a PID
that is not in use. -/
theorem statusOf_invalid (g : Good k) :
    statusOf k pid = .invalid ↔ ∀ p, (k.pcbs p).state ≠ .free → (k.pcbs p).pid ≠ pid := by
  unfold statusOf
  split
  · rename_i p hp
    have hfound := List.find?_some hp
    rw [Bool.and_eq_true, beq_iff_eq] at hfound
    refine iff_of_false (g.placed.legal p (Set.notMem_empty p)).invalid fun hall => ?_
    exact hall p (of_decide_eq_true hfound.1) hfound.2
  · rename_i hnone
    refine iff_of_true rfl fun p hp hpid => ?_
    have := List.find?_eq_none.mp hnone p (List.mem_finRange p)
    rw [Bool.and_eq_true, beq_iff_eq, decide_eq_true_iff] at this
    exact this ⟨hp, hpid⟩

/-! ## The handler -/

/-- `_sys_getstatus` would return the truth about every PID but -1. -/
theorem sysGetstatus_eq (g : Good k) {p : PcbId} (hpid : (k.arg p 1).setWidth 16 = pid)
    (hne : pid ≠ -1) : sysGetstatus k p = .ok (k.setRet p (statusOf k pid).word) := by
  have hfind : pcbFind k pid = (List.finRange nPcbs).find? fun q =>
      decide ((k.pcbs q).state ≠ .free) && (k.pcbs q).pid == pid := by
    unfold pcbFind
    congr 1
    funext q
    by_cases hq : (k.pcbs q).state = .free
    · have hfreed : (k.pcbs q).pid = -1 := (g.family.freed q (mode_eq_free.mpr hq)).1
      rw [hfreed]
      simp only [ne_eq, hq, not_true_eq_false, decide_false, Bool.false_and, beq_eq_false_iff_ne]
      exact hne.symm
    · simp [hq]
  unfold sysGetstatus statusOf
  rw [hpid, hfind]
  split
  · rename_i hnone
    rw [hnone]
    rfl
  · rename_i target hsome
    rw [hsome]
    rfl

/-- It would report a free PCB as the process with the PID -1. -/
theorem sysGetstatus_free (g : Good k) {p q : PcbId} (hpid : (k.arg p 1).setWidth 16 = (-1 : Half))
    (hq : (k.pcbs q).state = .free) : sysGetstatus k p = .ok (k.setRet p PState.free.word) := by
  unfold sysGetstatus
  rw [hpid]
  split
  · rename_i hnone
    have hfreed : (k.pcbs q).pid = -1 := (g.family.freed q (mode_eq_free.mpr hq)).1
    have := List.find?_eq_none.mp hnone q (List.mem_finRange q)
    exact absurd hfreed (by simpa using this)
  · rename_i target hsome
    have htarget : (k.pcbs target).pid = -1 := by simpa using List.find?_some hsome
    have hstate : (k.pcbs target).state = .free := by
      by_contra hne
      exact g.family.pid_ne_free (p := target) (fun hc => hne (mode_eq_free.mp hc)) htarget
    rw [hstate]
    rfl

/-! ## The call -/

/-- A PID is below the second page directory entry unless it is
negative. -/
theorem signExtend_lt_secondPde (pid : Half) :
    pid.signExtend 32 < secondPde ↔ 0 ≤ pid.toInt := by
  have hlt := pid.isLt
  rw [BitVec.lt_def, BitVec.toNat_signExtend, BitVec.toInt_eq_msb_cond, BitVec.toNat_setWidth]
  rw [show secondPde.toNat = 2 ^ 22 from rfl]
  split
  · omega
  · omega

theorem step_getstatus (k : Kernel) (heax : frame.regs.eax = sysGetstatusCode) :
    step k (.interrupt frame (.syscall keys)) = (do
      let k' ← sysMmap (isrSave k frame) k.current
      .ok (isrRestore k')) :=
  step_syscall k heax rfl

theorem getstatus_cases (h : step k (.interrupt frame (.syscall keys)) = .ok k')
    (heax : frame.regs.eax = sysGetstatusCode) :
    (k.pcbs k.current).memory ≠ k.mm.pageDirectory ∧ ¬frame.args 1 < secondPde
    ∧ (((frame.args 1 ||| frame.args 2) &&& 0xFFF#32 ≠ 0#32
        ∧ k' = answered k frame Status.failure.word)
      ∨ (k'.pcbs k.current).context.regs.eax = Status.success.word) := by
  rw [step_getstatus k heax, sysMmap_eq, kMmap] at h
  split at h
  · cases h
  · rename_i hguard
    obtain ⟨hdir, hlow⟩ := not_or.mp hguard
    refine ⟨hdir, hlow, ?_⟩
    split at h
    · rename_i hal
      exact .inl ⟨hal, (Except.ok.inj h).symm⟩
    · refine .inr ?_
      obtain ⟨k₁, hk₁, h⟩ := bind_eq_ok.mp h
      obtain rfl := Except.ok.inj h
      obtain ⟨x, hx, hk₁⟩ := bind_eq_ok.mp hk₁
      obtain rfl := Except.ok.inj hk₁
      have hst : x.2.1 = .success := by
        split at hx
        · obtain ⟨mm₁, -, hx⟩ := bind_eq_ok.mp hx
          exact Except.ok.inj hx ▸ rfl
        · obtain ⟨mm₁, -, hx⟩ := bind_eq_ok.mp hx
          exact Except.ok.inj hx ▸ rfl
      exact (setRet_eax _ _ _).trans (congrArg Status.word hst)

/-- `getstatus` returns the state of the process, or `PS_INVALID` if there
is none, and changes nothing else, exactly if the caller has an address
space of its own, the PID is negative, it or the word after it on the stack
is not a multiple of the page size, and no process has the PID. -/
theorem getstatus_truth_iff (h0 : init image mm pages = .ok k₀) (hrun : Steps step k₀ tr k)
    (heax : frame.regs.eax = sysGetstatusCode) (hpid : frame.args 1 = pid.signExtend 32) :
    step k (.interrupt frame (.syscall keys)) = .ok (answered k frame (statusOf k pid).word)
    ↔ (k.pcbs k.current).memory ≠ k.mm.pageDirectory ∧ pid.toInt < 0
      ∧ (frame.args 1 ||| frame.args 2) &&& 0xFFF#32 ≠ 0#32
      ∧ ∀ p, (k.pcbs p).state ≠ .free → (k.pcbs p).pid ≠ pid := by
  have g := reachable_good h0 hrun
  rw [← statusOf_invalid g]
  constructor
  · intro h
    obtain ⟨hdir, hlow, ⟨hal, hk'⟩ | hsucc⟩ := getstatus_cases h heax
    · have hword := congrArg (fun k' : Kernel => (k'.pcbs k.current).context.regs.eax) hk'
      simp only [answered_eax] at hword
      refine ⟨hdir, ?_, hal, PState.word_inj hword⟩
      rw [hpid, signExtend_lt_secondPde] at hlow
      omega
    · rw [answered_eax] at hsucc
      exact absurd (PState.word_inj (t := .free) hsucc) statusOf_ne_free
  · rintro ⟨hdir, hneg, hal, hinv⟩
    have hlow : ¬frame.args 1 < secondPde := by
      rw [hpid, signExtend_lt_secondPde]
      omega
    have hguard : ¬((k.pcbs k.current).memory = (isrSave k frame).mm.pageDirectory
        ∨ frame.args 1 < secondPde) := not_or.mpr ⟨hdir, hlow⟩
    rw [step_getstatus k heax, sysMmap_eq, kMmap, if_neg hguard, if_pos hal, hinv]
    rfl

theorem sysExec_other {p q : PcbId} (h : sysExec k p = .ok k') (hq : q ≠ p) :
    k'.pcbs q = k.pcbs q := by
  obtain ⟨⟨d, mm'⟩, -, h⟩ := bind_eq_ok.mp h
  obtain rfl := Except.ok.inj h
  simp only [Kernel.setPcb, Function.update_apply, if_neg hq]

/-- A process that calls `exec` leaves the other PCBs alone. -/
theorem step_exec_other {p : PcbId} (h : step k (.interrupt frame (.syscall keys)) = .ok k')
    (heax : frame.regs.eax = 4) (hp : p ≠ k.current) : k'.pcbs p = k.pcbs p := by
  have hstep : step k (.interrupt frame (.syscall keys)) = (do
      let k' ← sysExec (isrSave k frame) k.current
      .ok (isrRestore k')) := step_syscall k heax rfl
  rw [hstep] at h
  obtain ⟨k₁, hk₁, h⟩ := bind_eq_ok.mp h
  obtain rfl := Except.ok.inj h
  exact (sysExec_other hk₁ hp).trans (isrSave_other k frame hp)

/-- `init` starts a process with an address space of its own, which asks
for the PID -1. -/
theorem getstatus_truth_free : ∃ k₀ tr k, init someImage lowPageUsed 0 = .ok k₀
    ∧ Steps step k₀ tr k ∧ (∃ p, (k.pcbs p).state = .free ∧ (k.pcbs p).pid = -1)
    ∧ step k (call 11 (-1) 0 0)
      = .ok (answered k (callFrame 11 (-1) 0 0) PState.invalid.word) := by
  obtain ⟨k₀, k, h0, h₁, -, hdir⟩ := exec_run
  have hrun := Steps.refl.tail h₁
  obtain ⟨hfree, hpid⟩ : (k.pcbs 5).state = .free ∧ (k.pcbs 5).pid = -1 := by
    obtain ⟨k₀', h0', ht⟩ := init_of_test
      (fun k => decide (5 ≠ k.current ∧ (k.pcbs 5).state = .free ∧ (k.pcbs 5).pid = -1))
      (by decide +kernel)
    obtain rfl := Except.ok.inj (h0.symm.trans h0')
    obtain ⟨hne, hpcb⟩ := of_decide_eq_true ht
    rw [step_exec_other h₁ rfl hne]
    exact hpcb
  have hall : ∀ p, (k.pcbs p).state ≠ .free → (k.pcbs p).pid ≠ -1 := by
    intro p hp heq
    have g := reachable_good h0 hrun
    have hlt : (k.pcbs p).pid.toNat < k.nextPid.toNat :=
      g.family.pid_lt fun hf => hp (mode_eq_free.mp hf)
    have hmax : k.nextPid.toNat ≤ 65000 := g.family.nextPid.2
    rw [heq] at hlt
    exact absurd (Nat.lt_of_lt_of_le hlt hmax) (by decide)
  refine ⟨k₀, _, k, h0, hrun, ⟨5, hfree, hpid⟩, ?_⟩
  have hinv := (statusOf_invalid (reachable_good h0 hrun)).mpr hall
  rw [← hinv]
  exact (getstatus_truth_iff h0 hrun rfl rfl).mpr ⟨hdir, by decide, by decide, hall⟩

theorem getstatus_panics (k : Kernel) (heax : frame.regs.eax = sysGetstatusCode)
    (hpid : frame.args 1 = pid.signExtend 32) (hpos : 0 ≤ pid.toInt) :
    step k (.interrupt frame (.syscall keys))
      = .error (.panic "Cannot remap identity paging") := by
  have hlow : frame.args 1 < secondPde := by
    rw [hpid, signExtend_lt_secondPde]
    exact hpos
  rw [step_getstatus k heax, sysMmap_eq, kMmap, if_pos (.inr hlow), error_bind, error_bind]

/-- `init` asks for its own status. -/
theorem getstatus_init_panics : ∃ k₀, init someImage lowPageUsed 0 = .ok k₀
    ∧ statusOf k₀ 1 = .running
    ∧ step k₀ (call 11 1 0 0)
      ≠ .ok (answered k₀ (callFrame 11 1 0 0) (statusOf k₀ 1).word) := by
  obtain ⟨k₀, h0, ht⟩ := init_of_test (fun k => decide (statusOf k 1 = .running))
    (by decide +kernel)
  refine ⟨k₀, h0, of_decide_eq_true ht, fun hc => ?_⟩
  have hpanic : step k₀ (call 11 1 0 0) = .error (.panic "Cannot remap identity paging") :=
    getstatus_panics k₀ rfl rfl (by decide : (0 : Int) ≤ (1 : Half).toInt)
  rw [hpanic] at hc
  cases hc

end SpKernel
