import SpKernel.Boot
import SpKernel.Setup

/-!
# What holds in every run

A run starts where `_init` ends and takes any events, in any order, that
do not panic. `reachable_good` carries the invariant of the kernel
through it, and `Good.expected` says that an event which does not return
fails in an expected way. Every result about reachable states starts from
these two.

Two properties of all states of a run follow from the invariant directly:
every PCB is where its state says and nowhere else (`pcbs_in_place`), and
every process has a parent, so that the panic of `_zombify` for want of
one is unreachable (`no_orphans`).

Between them is what the witnesses of the later modules are built from:
an image and a memory to start with (`someImage`, `startMemory_ok`), the
frame of a system call, and `run_of_test`, by which a list of events that
has been executed is a run, and what has been computed of its last state
holds of it.
-/

namespace SpKernel

open Lib

variable {image : Image} {mm : MemMgr} {pages : Nat} {k₀ k : Kernel} {tr : List (Kernel × Event)}

theorem Good.step {k' : Kernel} {e : Event} (g : Good k) (h : step k e = .ok k') : Good k' := by
  have := step_sim g e
  rw [h] at this
  exact this.1

theorem reachable_good (h0 : init image mm pages = .ok k₀) (hrun : Steps step k₀ tr k) :
    Good k :=
  hrun.inv (fun _ _ _ g h => g.step h) (init_spec h0).1

theorem Good.expected {e : Event} {f : Fault} (g : Good k) (h : SpKernel.step k e = .error f) :
    f.Expected := by
  have := step_sim g e
  rwa [h] at this

/-! ## Places -/

/-- `p` is on the queue `q` and on no other. -/
def OnlyOn (k : Kernel) (p : PcbId) (q : PQueue) : Prop := ∀ q', p ∈ k.on q' ↔ q' = q

/-- `p` is where its state says. -/
def InPlace (k : Kernel) (p : PcbId) : Prop :=
  match (k.pcbs p).state with
  | .free => OnlyOn k p .free
  | .ready => ∃ prio : Fin nPrios, (k.pcbs p).prio.toNat = prio ∧ OnlyOn k p (.ready prio)
  | .sleeping => OnlyOn k p .sleeping
  | .waiting => OnlyOn k p .waiting
  | .blocked => OnlyOn k p .reading
  | .zombie | .killed => OnlyOn k p .zombie
  | .running => p = k.current ∧ ∀ q, p ∉ k.on q
  | .new | .invalid => False

theorem Good.onlyOn (g : Good k) {p : PcbId} {q : PQueue} (h : home (k.pcbs p) = some q) :
    OnlyOn k p q := by
  intro q'
  rw [g.placed.mem, h, Option.some.injEq]
  exact ⟨fun hq => hq.2.symm, fun hq => ⟨id, hq.symm⟩⟩

theorem Good.inPlace (g : Good k) (p : PcbId) : InPlace k p := by
  have hl := g.placed.legal p id
  rw [InPlace]
  split <;> rename_i hs
  · exact g.onlyOn (by simp [home, hs])
  · have hlt := hl.prio hs
    refine ⟨Fin.ofNat nPrios (k.pcbs p).prio.toNat, ?_, g.onlyOn (by simp [home, hs])⟩
    exact (Nat.mod_eq_of_lt hlt).symm
  · exact g.onlyOn (by simp [home, hs])
  · exact g.onlyOn (by simp [home, hs])
  · exact g.onlyOn (by simp [home, hs])
  · exact g.onlyOn (by simp [home, hs])
  · exact g.onlyOn (by simp [home, hs])
  · refine ⟨(Option.some.inj ((g.placed.running p id).mp hs)).symm, fun q hq => ?_⟩
    have := ((g.placed.mem p q).mp hq).2
    simp [home, hs] at this
  · exact hl.new hs
  · exact hl.invalid hs

/-- In every reachable state every PCB is on the one queue its state
names, `_current` alone runs, and no queue has a PCB twice. -/
theorem pcbs_in_place (h0 : init image mm pages = .ok k₀) (hrun : Steps step k₀ tr k) :
    (∀ p, InPlace k p) ∧ (∀ p, (k.pcbs p).state = .running ↔ p = k.current)
      ∧ ∀ q, (k.on q).Nodup := by
  have g := reachable_good h0 hrun
  refine ⟨g.inPlace, fun p => ?_, g.placed.nodup⟩
  rw [g.placed.running p id, Option.some.injEq, eq_comm]

/-! ## A first run -/

/-- Some link-time addresses. -/
def someImage : Image := ⟨0x10000, 0x20000⟩

/-- The frame of a system call with up to three arguments. -/
def callFrame (code arg₁ arg₂ arg₃ : Word) : Frame where
  regs :=
    { ss := 0x20, gs := 0x18, fs := 0x18, es := 0x18, ds := 0x18, edi := 0, esi := 0,
      ebp := 0, esp := 0, ebx := 0, edx := 0, ecx := 0, eax := code, vector := 0x80, code := 0,
      eip := 0x20000, cs := 0x10, eflags := 0x202 }
  args := fun n => if n = 1 then arg₁ else if n = 2 then arg₂ else if n = 3 then arg₃ else 0

/-- A system call, with nothing typed meanwhile. -/
def call (code arg₁ arg₂ arg₃ : Word) : Event :=
  .interrupt (callFrame code arg₁ arg₂ arg₃) (.syscall [])

theorem lowPageUsed_spare : Spare lowPageUsed (8 + 1027) := by
  refine ⟨by decide, Finset.Ico 8 2000, by simp, fun i hi => ?_⟩
  obtain ⟨h8, hlt⟩ := Finset.mem_Ico.mp hi
  refine ⟨by omega, ?_⟩
  have hne : i / 8 ≠ 0 := by omega
  have hpat : lowPageUsed.pat (i / 8) = 0 := by
    simp only [lowPageUsed, Function.update_apply, hne, ↓reduceIte]
  rw [patBit, hpat]
  exact BitVec.getLsbD_zero

/-- The memory after initialisation. -/
def startMemory : MemMgr := ((initMemory lowPageUsed 0).toOption).getD lowPageUsed

theorem startMemory_ok : initMemory lowPageUsed 0 = .ok startMemory ∧ Spare startMemory 8 := by
  obtain ⟨mm, h, hspare⟩ := initMemory_ok (by decide) lowPageUsed_spare
  rw [startMemory, h]
  exact ⟨rfl, hspare⟩

/-- The first process after these events. -/
def runFrom (es : List Event) : Except Fault Kernel := do
  let k ← initProcess (stkInit (pcbInit (Kernel.zero someImage startMemory)))
  run step k es

theorem run_of_test (es : List Event) (test : Kernel → Bool) (h : okAnd (runFrom es) test = true) :
    ∃ k₀ tr k, init someImage lowPageUsed 0 = .ok k₀ ∧ Steps step k₀ tr k
      ∧ tr.map Prod.snd = es ∧ test k = true := by
  obtain ⟨k, hk, ht⟩ := of_okAnd h
  rw [runFrom] at hk
  obtain ⟨k₀, h0, hrun⟩ := bind_eq_ok.mp hk
  obtain ⟨tr, hs, hes⟩ := steps_of_run hrun
  refine ⟨k₀, tr, k, ?_, hs, hes, ht⟩
  rw [init, startMemory_ok.1, ok_bind, h0]

theorem init_of_test (test : Kernel → Bool) (h : okAnd (runFrom []) test = true) :
    ∃ k₀, init someImage lowPageUsed 0 = .ok k₀ ∧ test k₀ = true := by
  obtain ⟨k₀, tr, k, h0, hrun, hes, ht⟩ := run_of_test [] test h
  cases hrun with
  | refl => exact ⟨k₀, h0, ht⟩
  | tail _ _ => simp at hes

/-- `init` has forked and the child is ready. -/
theorem pcbs_in_place_fork : ∃ k₀ tr k, init someImage lowPageUsed 0 = .ok k₀
    ∧ Steps step k₀ tr k ∧ (k.pcbs 1).state = .ready ∧ ∀ p, InPlace k p := by
  obtain ⟨k₀, tr, k, h0, hrun, -, ht⟩ := run_of_test [call 3 0 0 0]
    (fun k => decide ((k.pcbs 1).state = .ready)) (by decide +kernel)
  exact ⟨k₀, tr, k, h0, hrun, of_decide_eq_true ht, (pcbs_in_place h0 hrun).1⟩

/-! ## Parents -/

/-- In every reachable state the parent of every process exists, and
`_zombify` finds it. -/
theorem no_orphans (h0 : init image mm pages = .ok k₀) (hrun : Steps step k₀ tr k) :
    (∀ p, (k.pcbs p).state ≠ .free →
      ∃ q, (k.pcbs q).state ≠ .free ∧ (k.pcbs q).pid = (k.pcbs p).ppid)
    ∧ ∀ e, step k e ≠ .error (.kpanic "_zombify" "parent process doesn't exist!") := by
  have g := reachable_good h0 hrun
  refine ⟨fun p hp => ?_, fun e he => ?_⟩
  · obtain ⟨q, hq, hpid⟩ := g.family.parent p fun hf => hp (mode_eq_free.mp hf)
    exact ⟨q, fun hf => hq (mode_eq_free.mpr hf), hpid⟩
  · have := g.expected he
    simp [Fault.Expected] at this

/-- A child whose parent has exited, and its new parent. -/
theorem no_orphans_exit : ∃ k₀ tr k, init someImage lowPageUsed 0 = .ok k₀
    ∧ Steps step k₀ tr k ∧ (k.pcbs 1).state = .zombie ∧ (k.pcbs 2).state ≠ .free
    ∧ ∃ q, (k.pcbs q).state ≠ .free ∧ (k.pcbs q).pid = (k.pcbs 2).ppid := by
  -- `init` forks and sleeps, the child forks and exits
  obtain ⟨k₀, tr, k, h0, hrun, -, ht⟩ := run_of_test
    [call 3 0 0 0, call 7 10 0 0, call 3 0 0 0, call 0 0 0 0]
    (fun k => decide ((k.pcbs 1).state = .zombie ∧ (k.pcbs 2).state ≠ .free))
    (by decide +kernel)
  obtain ⟨h1, h2⟩ := of_decide_eq_true ht
  exact ⟨k₀, tr, k, h0, hrun, h1, h2, (no_orphans h0 hrun).1 2 h2⟩

end SpKernel
