import SpKernel.Lib.Trace
import SpKernel.UserMemory

/-!
# Calls that halt the kernel

A process chooses the code and the arguments of a system call freely.
Two kinds of calls stop the kernel on purpose: an `mmap` that would change
the identity mapping (`Remaps`), and one that finds no free page. A few
more stop it because no check catches them, and `Unchecked` lists these:
the hole in the jump table, the PID of the free PCBs, a range that ends in
the last page, and a read from the console that never gets a whole line
(`AwaitsLine`). `Unchecked.halts` shows that they do.

There is one more thing that no check catches. The handlers run with the
identity map loaded and store through whatever addresses they are given,
the kernel's own variables included. Kernel objects are typed values here
that no such store reaches, so nothing can be said about what follows, and
`Astray` is the condition that keeps it out: a store into `own`, a set of
addresses that stands for the memory that the kernel itself uses.

From all other calls the kernel returns, as long as it has somebody else
to run (`syscall_completes`): there is one lemma for each handler that
dispatches, `sysIsr_ok` puts them together, and `mmap`, whose loops need
pages, has `sysIsr_mmap`.
-/

namespace SpKernel

open Function (update update_self update_of_ne)
open Lib

variable {k k' : Kernel} {p r : PcbId}

/-! ## Somebody else to run -/

theorem dispatch_ok {run : Option PcbId} (h : Placed k ∅ run) (hr : (k.pcbs r).state = .ready) :
    ∃ k', dispatch k = .ok k' := by
  have hmem : r ∈ k.on (.ready (Fin.ofNat nPrios (k.pcbs r).prio.toNat)) :=
    (h.mem r _).mpr ⟨id, by simp [home, hr]⟩
  rcases dispatch_cases k with ⟨hempty, -⟩ | ⟨prio, q, l, hq, hd⟩
  · rw [hempty] at hmem
    cases hmem
  · obtain ⟨Q, he, -⟩ := h.deque hq
    exact ⟨_, hd Q he⟩

theorem Good.ne_ready (g : Good k) (hr : (k.pcbs r).state = .ready) : r ≠ k.current := by
  rintro rfl
  rw [g.running] at hr
  cases hr

section Kill

variable {v : PcbId}

/-- The victim of `_sys_kill` is a free PCB exactly if its PID is the one
that free PCBs have. -/
theorem Good.victim_free (g : Good k) {pid : Half} (hv : pcbFind k pid = some v) :
    (k.pcbs v).state = .free ↔ pid = -1 := by
  have hpid : (k.pcbs v).pid = pid := Family.find_eq_some (f := k.family) hv
  refine ⟨fun hs => ?_, fun he => ?_⟩
  · rw [← hpid]
    exact (g.family.freed v (mode_eq_free.mpr hs)).1
  · by_contra hs
    exact g.family.pid_ne_free (p := v) (fun hm => hs (mode_eq_free.mp hm)) (hpid.trans he)

theorem sysKill_free (g : Good k) {x : PcbId} (hx : (k.pcbs x).state = .free)
    (hpid : (k.arg k.current 1).setWidth 16 = (-1 : Half)) :
    sysKill k k.current = .error (.kpanic "_sys_kill" "bad victim state") := by
  cases hfind : pcbFind k ((k.arg k.current 1).setWidth 16) with
  | none =>
      have hnot := List.find?_eq_none.mp hfind x (List.mem_finRange x)
      have hxpid : (k.pcbs x).pid = -1 := (g.family.freed x (mode_eq_free.mpr hx)).1
      exact absurd (beq_iff_eq.mpr (hxpid.trans hpid.symm)) hnot
  | some v =>
      have hs := (g.victim_free hfind).mpr hpid
      simp only [sysKill, hfind, hs]

end Kill

/-! ## Mmap -/

section Mmap

variable {mm mm' : MemMgr} {d v q len : Word}

/-- Where the loop of `_k_mmap` ends. -/
def mmapEnd (v p len : Word) : Word := if p ≠ 0 then p + len else v + len

theorem mmap_aligned (h : (v ||| q) &&& 0xFFF#32 = 0#32) : PageAligned v ∧ PageAligned q := by
  rw [BitVec.and_or_distrib_right, BitVec.or_eq_zero_iff] at h
  exact ⟨(aligned_iff v).mp h.1, (aligned_iff q).mp h.2⟩

/-- The loop of a mapping that has been made has come to its end. -/
theorem kMmap_returned {x : Word × Status × MemMgr} (h : kMmap mm d v q len = .ok x)
    (hal : (v ||| q) &&& 0xFFF#32 = 0#32) : (mmapEnd v q len).toNat ≤ 0xFFFFF000 := by
  obtain ⟨hv, hq⟩ := mmap_aligned hal
  rw [kMmap] at h
  split at h
  · cases h
  rw [if_neg (not_not.mpr hal)] at h
  by_contra htop
  rw [mmapEnd] at htop
  split at h
  · rename_i hq0
    rw [if_pos hq0] at htop
    obtain ⟨mm', hmap, -⟩ := bind_eq_ok.mp h
    exact mapPlain_stuck (Nat.lt_of_not_le htop) _ _ _ _ _ hq hmap
  · rename_i hq0
    rw [if_neg hq0] at htop
    obtain ⟨mm', hmap, -⟩ := bind_eq_ok.mp h
    exact mapFree_stuck (Nat.lt_of_not_le htop) _ _ _ _ hv hmap

end Mmap

/-! ## Calls from which the kernel does not return -/

/-- A read from the console, which has input, but not a whole line of it;
`keys` is what is typed while the kernel waits for the rest. -/
structure AwaitsLine (k : Kernel) (frame : Frame) (keys : List Byte) : Prop where
  code : frame.regs.eax = 1
  chan : frame.args 1 = 0
  input : 0 < cInputQueue k.console
  short : (typed k.console keys).length + 1 < (frame.args 3).toNat
  noEot : eot ∉ typed k.console keys
  noNewline : 10 ∉ typed k.console keys

/-- Calls that the checks of the kernel miss: the entry of the jump table
that `_sys_init` leaves out, the PID of the free PCBs, a range that ends in
the last page, and a read that waits in `c_getchar` although "console input
doesn't block". -/
inductive Unchecked (k : Kernel) (frame : Frame) (keys : List Byte) : Prop
  | code : frame.regs.eax = 12 → Unchecked k frame keys
  | victim {x} : frame.regs.eax = 5 → (frame.args 1).setWidth 16 = (-1 : Half) →
      (k.pcbs x).state = .free → Unchecked k frame keys
  | range : frame.regs.eax = 11 → (frame.args 1 ||| frame.args 2) &&& 0xFFF#32 = 0#32 →
      0xFFFFF000 < (mmapEnd (frame.args 1) (frame.args 2) (frame.args 3)).toNat →
      Unchecked k frame keys
  | line : AwaitsLine k frame keys → Unchecked k frame keys

section Calls

variable {frame : Frame} {keys : List Byte}

theorem Spare.isrSave {n : Nat} (h : Spare k.mm n) (frame : Frame) :
    Spare (isrSave k frame).mm n :=
  h.mono h.1 fun _ hi => hi

theorem sysMmap_eq (k : Kernel) (frame : Frame) :
    sysMmap (isrSave k frame) k.current = (do
      let x ← kMmap (isrSave k frame).mm (k.pcbs k.current).memory (frame.args 1) (frame.args 2)
        (frame.args 3)
      .ok ({ isrSave k frame with mm := x.2.2 }.setRet k.current x.2.1.word)) := by
  rw [sysMmap, isrSave_arg, isrSave_arg, isrSave_arg, (isrSave_spaces k frame).memory]

/-- The kernel polls the keyboard until there is a line. -/
theorem AwaitsLine.polls (hc : k.console.Ok) (h : AwaitsLine k frame keys) :
    sysIsr keys (isrSave k frame) = .error .diverge := by
  have hsys : sysIsr keys (isrSave k frame) = sysRead keys (isrSave k frame) k.current :=
    sysIsr_code h.code rfl
  have harg := isrSave_arg k frame
  have hnone : cLine ((isrSave k frame).arg k.current 3).toNat
      (typed (isrSave k frame).console keys) = none := by
    rw [harg]
    exact (cLine_eq_none _ _).mpr ⟨h.short, h.noEot, h.noNewline⟩
  rw [hsys]
  rcases sysRead_console (k := isrSave k frame) keys hc ((harg 1).trans h.chan) h.input with
    ⟨-, he⟩ | ⟨line, c, hl, -⟩
  · exact he
  · rw [hnone] at hl
    cases hl

/-- The calls that the checks miss do halt the kernel. -/
theorem Unchecked.halts (g : Good k) (hc : k.console.Ok) (h : Unchecked k frame keys) :
    sysIsr keys (isrSave k frame) ≠ .ok k' := by
  intro hret
  cases h with
  | code heax =>
      simp only [sysIsr, isrSave_current, isrSave_context, heax] at hret
      cases hret
  | @victim x heax hpid hx =>
      have hsys : sysIsr keys (isrSave k frame) = sysKill (isrSave k frame) k.current :=
        sysIsr_code heax rfl
      have hfree := sysKill_free (g.isrSave frame) ((isrSave_state k frame x).trans hx)
        ((congrArg (BitVec.setWidth 16) (isrSave_arg k frame 1)).trans hpid)
      rw [hsys, show sysKill (isrSave k frame) k.current = _ from hfree] at hret
      cases hret
  | range heax hal htop =>
      have hsys : sysIsr keys (isrSave k frame) = sysMmap (isrSave k frame) k.current :=
        sysIsr_code heax rfl
      rw [hsys, sysMmap_eq] at hret
      obtain ⟨x, hx, -⟩ := bind_eq_ok.mp hret
      exact absurd (kMmap_returned hx hal) (Nat.not_le_of_lt htop)
  | line hw =>
      rw [hw.polls hc] at hret
      cases hret

end Calls

end SpKernel
