import SpKernel.Reading
import SpKernel.Waiting

/-!
# Where results are stored

The handlers run with the identity map loaded and store through the
addresses that processes pass to them: the buffer of `read`, and the two
out-pointers of `wait`, which `_zombify` follows on behalf of a parent
that is not even running. `Lands` says that such stores arrive at the
locations that the address space of the process has for the addresses.
They do if the addresses are mapped to themselves (`results_land`), and
go elsewhere for a page that was mapped to some other one
(`result_astray`).

`Stores k k' e p ss` names the stores `ss` that an event makes for a
process `p`, by what the event returns: the bytes that a `read` has got
for its caller, or the PID and the status that a parent is told. The
first are read off the call, the second off the list of reports, and
`step_stores` says that memory has changed by just these stores, at the
addresses themselves.

A hand-over needs more than the caller: `Told` follows the two fields of
the waiting parent through a death, from the call of `wait` that left
them to the stores (`lay_told`, `zombify_told`), and `handle_told` has
one case for each handler in which a process can die.
-/

namespace SpKernel

open Function (update update_self update_of_ne)
open Lib

variable {k k' : Kernel} {p : PcbId} {e : Event}

/-! ## Stores -/

/-- What the kernel stores for process `p` in the event `e`, which leads
to `k'`: the addresses `p` has passed, with the bytes. Every exit status
that is handed over leaves a report. -/
inductive Stores (k k' : Kernel) : Event → PcbId → List (Word × List Byte) → Prop
  | serial {frame keys} : frame.regs.eax = 1 → frame.args 1 = 1 →
      Stores k k' (.interrupt frame (.syscall keys)) k.current
        [(frame.args 2,
          (readsOffsets (frame.args 3).toInt k.sio.incount k.sio 0).map k.sio.inbuffer)]
  | console {frame keys line} : frame.regs.eax = 1 → frame.args 1 = 0 →
      0 < cInputQueue k.console →
      cLine (frame.args 3).toNat (typed k.console keys) = some line →
      Stores k k' (.interrupt frame (.syscall keys)) k.current [(frame.args 2, line ++ [0])]
  | report {frame cause q r} : k'.reports = k.reports ++ [r] → (k.pcbs q).state ≠ .free →
      (k.pcbs q).pid = r.parent →
      Stores k k' (.interrupt frame cause) q
        [((isrSave k frame).arg q 1, wordBytes 2 r.child),
         ((isrSave k frame).arg q 2, wordBytes 4 r.status)]

/-- The stores arrive where the translation `T` puts their addresses, and
nothing else changes. -/
structure Lands (T : Word → Option Word) (m m' : Mem) (stores : List (Word × List Byte)) :
    Prop where
  there : m' = stores.foldl (fun m s => storeVia T m s.1 s.2) m
  only : ∀ x, (∀ s ∈ stores, ∀ i < s.2.length, T (s.1 + BitVec.ofNat 32 i) ≠ some x) → m' x = m x

/-- Nothing but the stores changes, wherever they go. -/
theorem foldl_storeVia_other {T : Word → Option Word} {x : Word} :
    ∀ (stores : List (Word × List Byte)) (m : Mem),
    (∀ s ∈ stores, ∀ i < s.2.length, T (s.1 + BitVec.ofNat 32 i) ≠ some x) →
    stores.foldl (fun m s => storeVia T m s.1 s.2) m x = m x := by
  intro stores
  induction stores with
  | nil => exact fun _ _ => rfl
  | cons s stores ih =>
      intro m h
      rw [List.foldl_cons, ih _ fun t ht => h t (List.mem_cons_of_mem _ ht)]
      exact storeVia_other (h s List.mem_cons_self)

/-- Stores at addresses that are mapped to themselves. -/
theorem lands_of_same {T : Word → Option Word} {m : Mem} {stores : List (Word × List Byte)}
    (h : ∀ s ∈ stores, ∀ i < s.2.length,
      T (s.1 + BitVec.ofNat 32 i) = some (s.1 + BitVec.ofNat 32 i)) :
    Lands T m (stores.foldl (fun m s => storeBytes m s.1 s.2) m) stores := by
  have hsame : stores.foldl (fun m s => storeBytes m s.1 s.2) m
      = stores.foldl (fun m s => storeVia T m s.1 s.2) m := by
    refine List.foldl_ext _ _ m fun m s hs => ?_
    exact (storeVia_same (h s hs)).symm
  rw [hsame]
  exact ⟨rfl, fun x hx => foldl_storeVia_other stores m hx⟩

/-! ## Exit statuses -/

/-- Nobody was told of a death, or one waiting process, through its
out-pointers. -/
def Told (k k' : Kernel) : Prop :=
  k'.reports = k.reports ∨ ∃ q child status, (k.pcbs q).state = .waiting
    ∧ k'.reports = k.reports ++ [⟨(k.pcbs q).pid, child, status⟩]
    ∧ k'.mm.mem = store 4 (store 2 k.mm.mem (k.arg q 1) child) (k.arg q 2) status

theorem Told.before {k₁ : Kernel} (h : Told k₁ k') (hr : k₁.reports = k.reports)
    (hm : k₁.mm.mem = k.mm.mem)
    (hq : ∀ q, (k₁.pcbs q).state = .waiting → (k.pcbs q).state = .waiting
      ∧ (k₁.pcbs q).pid = (k.pcbs q).pid ∧ (k₁.pcbs q).context = (k.pcbs q).context) :
    Told k k' := by
  rcases h with h | ⟨q, child, status, hw, hrep, hmem⟩
  · exact .inl (h.trans hr)
  · obtain ⟨hw', hpid, hctx⟩ := hq q hw
    refine .inr ⟨q, child, status, hw', ?_, ?_⟩
    · rw [hrep, hr, hpid]
    · rw [hmem, hm, Kernel.arg, Kernel.arg, hctx]
      rfl

theorem Told.after {k₁ : Kernel} (h : Told k k₁) (hr : k'.reports = k₁.reports)
    (hm : k'.mm.mem = k₁.mm.mem) : Told k k' := by
  rcases h with h | ⟨q, child, status, hw, hrep, hmem⟩
  · exact .inl (hr.trans h)
  · exact .inr ⟨q, child, status, hw, hr.trans hrep, hm.trans hmem⟩

theorem Told.dispatch {k₁ : Kernel} (h : Told k k₁) (hd : dispatch k₁ = .ok k') : Told k k' := by
  obtain ⟨-, -, -, hm, hr, -⟩ := dispatch_rest hd
  exact h.after hr hm

/-- Before a change to a process that does not wait after it. -/
theorem Told.setPcb {f : Pcb → Pcb} (h : Told (k.setPcb p f) k')
    (hf : (f (k.pcbs p)).state ≠ .waiting) : Told k k' := by
  refine h.before rfl rfl fun q hq => ?_
  have hne : q ≠ p := by
    rintro rfl
    rw [setPcb_self] at hq
    exact hf hq
  rw [setPcb_other k f hne] at hq ⊢
  exact ⟨hq, rfl, rfl⟩

theorem schedule_reports (h : schedule k p = .ok k') : k'.reports = k.reports := by
  obtain ⟨prio, he⟩ := schedule_enque h
  rw [← show _ = k' from congrArg Prod.snd he]
  rfl

theorem pcbCleanup_reports (k : Kernel) (z : PcbId) : (pcbCleanup k z).reports = k.reports := by
  have hstk : ∀ stack, (stkDealloc k stack).reports = k.reports := by
    intro stack
    cases stack with
    | none => rfl
    | some s => rfl
  exact hstk _

theorem lay_told (hp : (k.pcbs p).state ≠ .waiting) (h : lay k p = .ok k') : Told k k' := by
  obtain ⟨q, ⟨hw, k₁, he, hs⟩ | ⟨-, he⟩⟩ := lay_cases h
  · have hne : p ≠ q := fun he => hp (he ▸ hw)
    obtain ⟨-, n, hk₁⟩ := remove_eq he
    obtain ⟨-, hmm⟩ := schedule_result hs
    obtain ⟨-, hclean⟩ := pcbCleanup_rest (deliver k₁ q p) p hne.symm
    refine .inr ⟨q, (k.pcbs p).pid, (k.pcbs p).exitstatus, hw, ?_, ?_⟩
    · rw [schedule_reports hs, pcbCleanup_reports]
      have := congrArg Family.reports (deliver_family k₁ q p)
      refine Eq.trans this ?_
      rw [hk₁]
    · rw [hmm, hclean, deliver_mem k₁ hne, hk₁]
      rfl
  · rcases enque_eq he with rfl | ⟨n, rfl⟩
    · exact .inl rfl
    · exact .inl rfl

theorem zombify_told (hpid : (k.pcbs p).pid ≠ -1) (hp : (k.pcbs p).state ≠ .waiting)
    (h : zombify k p = .ok k') : Told k k' := by
  obtain ⟨k₁, hk₁, h⟩ := bind_eq_ok.mp h
  obtain ⟨curr, tgt, ppid, children, rfl⟩ := reparent_kin hpid hk₁
  refine (lay_told ?_ h).before rfl rfl fun q hq => ⟨hq, rfl, rfl⟩
  exact hp

/-! ## Handlers -/

theorem Good.pid_ne (g : Good k) (hp : (k.pcbs p).state ≠ .free) : (k.pcbs p).pid ≠ -1 :=
  g.family.pid_ne_free (p := p) fun hf => hp (mode_eq_free.mp hf)

theorem Good.pid_inj {q : PcbId} (g : Good k) (hp : (k.pcbs p).state ≠ .free)
    (hq : (k.pcbs q).state ≠ .free) (h : (k.pcbs p).pid = (k.pcbs q).pid) : p = q :=
  g.family.pidInj p q (fun hf => hp (mode_eq_free.mp hf)) (fun hf => hq (mode_eq_free.mp hf)) h

theorem die_told {f : Pcb → Pcb} (hpid : (f (k.pcbs p)).pid ≠ -1)
    (hf : (f (k.pcbs p)).state ≠ .waiting)
    (h : (do
      let k' ← zombify (k.setPcb p f) p
      dispatch k') = .ok k') : Told k k' := by
  obtain ⟨k₁, hk₁, h⟩ := bind_eq_ok.mp h
  have hself := setPcb_self k p f
  exact ((zombify_told (hself ▸ hpid) (hself ▸ hf) hk₁).dispatch h).setPcb hf

theorem sysExit_told (g : Good k) (h : sysExit k k.current = .ok k') : Told k k' :=
  die_told (g.pid_ne (by rw [g.running]; decide)) (fun hc => by cases hc) h

theorem pageFaultIsr_told (g : Good k) (h : pageFaultIsr k = .ok k') : Told k k' :=
  die_told (g.pid_ne (by rw [g.running]; decide)) (fun hc => by cases hc) h

theorem finishKill_told {v : PcbId} (hpid : (k.pcbs v).pid ≠ -1) (hp : (k.pcbs p).state ≠ .waiting)
    (h : finishKill k p v = .ok k') : Told k k' := by
  obtain ⟨k₁, hk₁, h⟩ := bind_eq_ok.mp h
  have hself := setPcb_self k v fun x => { x with state := .killed, exitstatus := exitKilled }
  generalize hdead : k.setPcb v (fun x => { x with state := .killed, exitstatus := exitKilled })
    = kd at hself hk₁
  have hv : ((kd.setRet p Status.success.word).pcbs v).pid = (k.pcbs v).pid
      ∧ ((kd.setRet p Status.success.word).pcbs v).state = .killed := by
    rw [Kernel.setRet]
    rcases eq_or_ne v p with rfl | hne
    · rw [setPcb_self, hself]
      exact ⟨rfl, rfl⟩
    · rw [setPcb_other _ _ hne, hself]
      exact ⟨rfl, rfl⟩
  have hp' : (kd.pcbs p).state ≠ .waiting := by
    rcases eq_or_ne p v with rfl | hne
    · rw [hself]
      exact fun hc => by cases hc
    · rw [← hdead, setPcb_other _ _ hne]
      exact hp
  have htold : Told (kd.setRet p Status.success.word) k₁ :=
    zombify_told (hv.1 ▸ hpid) (by rw [hv.2]; exact fun hc => by cases hc) hk₁
  have htold' : Told k k₁ := by
    have := htold.setPcb hp'
    rw [← hdead] at this
    exact this.setPcb fun hc => by cases hc
  split at h
  · exact htold'.dispatch h
  · exact Except.ok.inj h ▸ htold'

theorem killFrom_told {v : PcbId} {q : PQueue} (hpid : (k.pcbs v).pid ≠ -1)
    (hp : (k.pcbs p).state ≠ .waiting) (h : killFrom k p v q = .ok k') : Told k k' := by
  rw [killFrom] at h
  split at h
  · rename_i k₁ he
    rw [← show _ = k₁ from congrArg Prod.snd he] at h
    exact (finishKill_told (k := (k.remove q v).2) hpid hp h).before rfl rfl
      fun q hq => ⟨hq, rfl, rfl⟩
  · cases h

theorem sysKill_told (g : Good k) (h : sysKill k k.current = .ok k') : Told k k' := by
  have hcur : (k.pcbs k.current).state ≠ .waiting := by
    rw [g.running]
    decide
  rcases sysKill_cases k k.current with ⟨v, hk⟩ | ⟨victim, -, hcases⟩
  · exact .inl (Except.ok.inj (hk.symm.trans h) ▸ rfl)
  rcases hcases with ⟨q, -, hlive, hk⟩ | ⟨hs, hk⟩ | ⟨-, hk⟩
  · exact killFrom_told (g.family.pid_ne_free (p := victim) hlive.ne_free) hcur (hk ▸ h)
  · exact finishKill_told (g.pid_ne (by rw [hs]; decide)) hcur (hk ▸ h)
  · cases hk.symm.trans h

/-- A handler that reports a death to the running process, in `wait`, or
to one that waits. -/
theorem handle_told {frame : Frame} {cause : Cause} (g : Good k)
    (h : handle (isrSave k frame) cause = .ok k') : Told (isrSave k frame) k'
    ∨ ∃ z, Collected (isrSave k frame) z k' := by
  have g' := g.isrSave frame
  have hspec := handle_spec g frame cause
  rw [h] at hspec
  obtain ⟨-, a, ha, -, hf⟩ := hspec
  cases ha with
  | quiet => exact .inl (.inl (congrArg Family.reports hf))
  | fork heax => exact .inl (.inl (congrArg Family.reports hf))
  | block heax => exact .inl (.inl (congrArg Family.reports hf))
  | reap heax =>
      rw [handle, sysIsr_code heax rfl] at h
      rcases sysWait_cases g' with ⟨-, hw⟩ | ⟨-, z, k₁, hw, hcol⟩ | ⟨-, -, k₁, hw, -, hfam, -⟩
      · exact .inl (.inl (Except.ok.inj (hw.symm.trans h) ▸ rfl))
      · exact .inr ⟨z, Except.ok.inj (hw.symm.trans h) ▸ hcol⟩
      · obtain ⟨-, -, -, -, hr, -⟩ := dispatch_rest (hw.symm.trans h)
        exact .inl (.inl (hr.trans (congrArg Family.reports hfam)))
  | exit heax =>
      rw [handle, sysIsr_code heax rfl] at h
      exact .inl (sysExit_told g' h)
  | badCode heax =>
      rw [handle, sysIsr_badCode _ heax] at h
      refine .inl ((sysExit_told (g'.setArg k.current 1 exitBadCode) h).setPcb fun hc => ?_)
      exact absurd (g'.running.symm.trans hc) (by decide)
  | kill heax hv =>
      rw [handle, sysIsr_code heax rfl] at h
      exact .inl (sysKill_told g' h)
  | pageFault => exact .inl (pageFaultIsr_told g' h)

/-! ## The stores of an event -/

theorem readDone_mem {n : Nat} (h : readDone k p n = .ok k') : k'.mm.mem = k.mm.mem := by
  rw [readDone] at h
  split at h
  · exact Except.ok.inj h ▸ rfl
  · split at h
    · rename_i k₁ he
      rw [← show _ = k₁ from congrArg Prod.snd he] at h
      obtain ⟨-, -, -, hm, -⟩ := dispatch_rest h
      exact hm
    · rename_i k₁ _ he
      rw [← show _ = k₁ from congrArg Prod.snd he] at h
      exact Except.ok.inj h ▸ rfl

theorem words_stored (m : Mem) (a b : Word) (child : Half) (status : Word) :
    store 4 (store 2 m a child) b status
      = [(a, wordBytes 2 child), (b, wordBytes 4 status)].foldl
        (fun m s => storeBytes m s.1 s.2) m := by
  rw [store_eq_storeBytes _ _ _ (by decide), store_eq_storeBytes _ _ _ (by decide)]
  rfl

theorem reap_reports {f : Family} {q z : PcbId} (hne : z ≠ q) : (f.reap q z).reports
    = f.reports ++ [⟨(f.members q).pid, (f.members z).pid, (f.members z).exitstatus⟩] := by
  simp only [Family.reap, Family.handOver, Family.release, Family.members_set, if_neg hne,
    ↓reduceIte]
  rfl

theorem step_stores {stores : List (Word × List Byte)} (g : Good k) (hc : k.console.Ok)
    (hst : step k e = .ok k') (hs : Stores k k' e p stores) :
    k'.mm.mem = stores.foldl (fun m s => storeBytes m s.1 s.2) k.mm.mem := by
  cases hs with
  | @serial frame keys heax hchan =>
      obtain ⟨k₁, hk₁, rfl⟩ := step_read keys heax hst
      rw [sysRead_serial keys ((isrSave_arg k frame 1).trans hchan)] at hk₁
      refine (readDone_mem hk₁).trans ?_
      obtain ⟨inlast, innext, heq, -⟩ := sioReads_eq k.sio k.mm.mem (frame.args 2)
        (frame.args 3).toInt
      rw [gotChars, isrSave_arg, isrSave_arg]
      exact congrArg (fun x => x.2.2) heq
  | @console frame keys line heax hchan hq hline =>
      obtain ⟨k₁, hk₁, rfl⟩ := step_read keys heax hst
      have hc' : (isrSave k frame).console.Ok := hc
      have hline' : cLine ((isrSave k frame).arg k.current 3).toNat
          (typed (isrSave k frame).console keys) = some line := by
        rw [isrSave_arg]
        exact hline
      rcases sysRead_console keys hc' ((isrSave_arg k frame 1).trans hchan) hq with
        ⟨hnone, -⟩ | ⟨line', c, hsome, -, heq⟩
      · rw [hline'] at hnone
        cases hnone
      · obtain rfl := Option.some.inj (hline'.symm.trans hsome)
        refine (readDone_mem (heq.symm.trans hk₁)).trans ?_
        rw [gotLine, isrSave_arg]
        rfl
  | @report frame cause _ r hrep hfree hpid =>
      obtain ⟨k₁, hk₁, hst⟩ := bind_eq_ok.mp hst
      obtain rfl := Except.ok.inj hst
      have hrep : k₁.reports = k.reports ++ [r] := hrep
      have hpid' : ∀ q, ((isrSave k frame).pcbs q).pid = (k.pcbs q).pid := fun q =>
        congrArg (fun f => (f.members q).pid) (isrSave_family k frame)
      rw [← words_stored]
      rcases handle_told g hk₁ with (hnone | ⟨q, child, status, hw, hone, hmem⟩) | ⟨z, hcol⟩
      · rw [hrep] at hnone
        exact absurd (List.append_right_eq_self.mp hnone) (List.cons_ne_nil _ _)
      · obtain rfl := List.singleton_inj.mp (List.append_cancel_left (hrep.symm.trans hone))
        have hw' : (k.pcbs q).state = .waiting := by
          rwa [isrSave, setPcb_state _ k.current rfl q] at hw
        obtain rfl := g.pid_inj hfree (hw'.trans_ne (by decide)) (hpid.trans (hpid' q))
        exact hmem
      · have hone := congrArg Family.reports hcol.family
        have hne : z ≠ k.current := by
          rintro rfl
          exact absurd ((g.isrSave frame).running.symm.trans hcol.zombie) (by decide)
        rw [isrSave_current, reap_reports hne] at hone
        obtain rfl := List.singleton_inj.mp (List.append_cancel_left (hrep.symm.trans hone))
        obtain rfl := g.pid_inj hfree (g.running.trans_ne (by decide))
          (hpid.trans (hpid' k.current))
        exact hcol.memory

variable {image : Image} {mm : MemMgr} {pages : Nat} {k₀ : Kernel} {tr : List (Kernel × Event)}

/-- In every reachable state, the results of `read` and `wait` land in the
memory of the process they are for, if its address space maps the
addresses it has passed, as far as they are stored through, to
themselves. -/
theorem results_land {stores : List (Word × List Byte)} (h0 : init image mm pages = .ok k₀)
    (hrun : Steps step k₀ tr k) (hst : step k e = .ok k') (hs : Stores k k' e p stores)
    (hid : ∀ s ∈ stores, ∀ i < s.2.length,
      translate k.mm (k.pcbs p).memory (s.1 + BitVec.ofNat 32 i)
        = some (s.1 + BitVec.ofNat 32 i)) :
    Lands (translate k.mm (k.pcbs p).memory) k.mm.mem k'.mm.mem stores := by
  have hi := reachable_inputOk h0 hrun
  rw [step_stores (reachable_good h0 hrun) hi.console hst hs]
  exact lands_of_same hid

/-! ## A page that is mapped -/

section Page

variable {d v q t : Word} {mm₁ : MemMgr} {n : Nat}

theorem translate_page (ht : Taken mm t mm₁) (hd : PageAligned d) (hmark : Marked mm d)
    (hv : PageAligned v) (hq : PageAligned q) :
    translate (setEntry { mm₁ with mem := writeWord mm₁.mem d (pdeIndex v) (t ||| pageFlags) }
      t v q) d v = some q := by
  have hne : t ≠ d := ht.ne hmark
  have hflags : ∀ x : Word, present (x ||| pageFlags) = true := by
    intro x
    rw [present, BitVec.getLsbD_or, show pageFlags.getLsbD 0 = true from rfl, Bool.or_true]
  have hpde : readWord (setEntry
      { mm₁ with mem := writeWord mm₁.mem d (pdeIndex v) (t ||| pageFlags) } t v q).mem d
      (pdeIndex v) = t ||| pageFlags := by
    rw [setEntry, readWord_writeWord ht.aligned hd (pteIndex_lt v) (pdeIndex_lt v),
      if_neg fun hc => hne hc.1, readWord_writeWord hd hd (pdeIndex_lt v) (pdeIndex_lt v),
      if_pos ⟨rfl, rfl⟩]
  have hpte : readWord (setEntry
      { mm₁ with mem := writeWord mm₁.mem d (pdeIndex v) (t ||| pageFlags) } t v q).mem t
      (pteIndex v) = q ||| pageFlags := by
    rw [setEntry, readWord_writeWord ht.aligned ht.aligned (pteIndex_lt v) (pteIndex_lt v),
      if_pos ⟨rfl, rfl⟩]
  rw [translate]
  simp only [hpde, base_or_flags ht.aligned, hpte, hflags, base_or_flags hq, Bool.and_self,
    ↓reduceIte, (aligned_iff v).mpr hv, BitVec.or_zero]

theorem mapPlain_done {done : Word} {fuel : Nat} (hf : 0 < fuel) (h : ¬q < done) :
    mapPlain d done fuel mm q v = .ok mm := by
  obtain ⟨fuel, rfl⟩ := Nat.exists_eq_add_of_lt hf
  rw [mapPlain, if_neg h]

theorem kMmap_page (hs : Spare mm (n + 1)) (hd : PageAligned d) (hmark : Marked mm d)
    (hne : d ≠ mm.pageDirectory) (hfree : tableOf mm d (pdeIndex v) = 0) (hlow : secondPde ≤ v)
    (hv : PageAligned v) (hq : PageAligned q) (hq0 : q ≠ 0) (hfit : q.toNat + 4096 < 2 ^ 32) :
    ∃ mm', kMmap mm d v q 4096 = .ok (v, .success, mm') ∧ translate mm' d v = some q := by
  have hmask : (v ||| q) &&& 0xFFF#32 = 0#32 := by
    rw [BitVec.and_or_distrib_right, (aligned_iff v).mpr hv, (aligned_iff q).mpr hq]
    rfl
  have hlt : q < q + 4096 := by
    rw [BitVec.lt_def, BitVec.toNat_add, show (4096 : Word).toNat = 4096 from rfl]
    omega
  obtain ⟨t, mm₁, hget, ht, -⟩ := hs.take
  have hentry : dEntry mm d v = .ok (t, { mm₁ with
      mem := writeWord mm₁.mem d (pdeIndex v) (t ||| pageFlags) }) := by
    rw [dEntry]
    simp only [show base (readWord mm.mem d (pdeIndex v)) = 0 from hfree, ↓reduceIte, newPageTable,
      hget]
    rfl
  refine ⟨_, ?_, translate_page ht hd hmark hv hq⟩
  rw [kMmap, if_neg (not_or.mpr ⟨hne, BitVec.not_lt.mpr hlow⟩), if_neg (not_not.mpr hmask),
    if_pos hq0, mapPlain, if_pos hlt, hentry, ok_bind]
  dsimp only
  rw [mapPlain_done (by decide) (show ¬q + 4096#32 < q + 4096 from BitVec.lt_irrefl _), ok_bind]

end Page

/-- `init` after an `exec`, in an address space with nothing but the
shared table. -/
theorem exec_space_run : ∃ k₀ k₁, init someImage lowPageUsed 0 = .ok k₀
    ∧ step k₀ (call 4 0x20000 0 1) = .ok k₁ ∧ Spare k₁.mm 7
    ∧ (k₁.pcbs k₁.current).memory ≠ k₁.mm.pageDirectory
    ∧ PageAligned (k₁.pcbs k₁.current).memory ∧ Marked k₁.mm (k₁.pcbs k₁.current).memory
    ∧ ∀ i < 1024, i ≠ 0 → tableOf k₁.mm (k₁.pcbs k₁.current).memory i = 0 := by
  obtain ⟨k₀, k₁, h0, h₁, hs, hne⟩ := exec_run
  refine ⟨k₀, k₁, h0, h₁, hs, hne, ?_⟩
  obtain ⟨dirs, hsp⟩ := init_spaced (by decide) (by decide) h0
  have hstep : step k₀ (call 4 0x20000 0 1) = (do
      let k' ← sysExec (isrSave k₀ (callFrame 4 0x20000 0 1)) k₀.current
      .ok (isrRestore k')) := step_syscall k₀ rfl rfl
  rw [hstep] at h₁
  obtain ⟨k₂, hk₂, h₁⟩ := bind_eq_ok.mp h₁
  obtain rfl := Except.ok.inj h₁
  obtain ⟨d, mm', hspace, hmm, hcur, hpcbs⟩ := sysExec_spaces hk₂
  rw [isrSave_arg, execSpace, if_neg (by decide)] at hspace
  have hnew : NewSpace (isrSave k₀ (callFrame 4 0x20000 0 1)).mm d mm' :=
    newPageDirectory_spec hsp.spaces.cursor hspace
  have hmem : (k₂.pcbs k₂.current).memory = d := by
    rw [hcur, (hpcbs _).1, isrSave_current, if_pos rfl]
  change PageAligned (k₂.pcbs k₂.current).memory ∧ Marked k₂.mm (k₂.pcbs k₂.current).memory
    ∧ ∀ i < 1024, i ≠ 0 → tableOf k₂.mm (k₂.pcbs k₂.current).memory i = 0
  rw [hmem, hmm]
  refine ⟨hnew.aligned, hnew.marked, fun i hi hi0 => ?_⟩
  exact (hnew.tables i hi).trans (if_neg hi0)

theorem step_input {frame : Frame} {keys : List Byte} (heax : frame.regs.eax ≠ 1)
    (h : step k (.interrupt frame (.syscall keys)) = .ok k') (hrd : k.on .reading = [])
    (hin : k.sio.incount = 0) : k'.on .reading = [] ∧ k'.sio.incount = 0 := by
  obtain ⟨k₁, hk₁, h⟩ := bind_eq_ok.mp h
  obtain rfl := Except.ok.inj h
  have hk := sysIsr_keeps (by rwa [isrSave_current, isrSave_context]) hk₁
  refine ⟨List.subset_nil.mp (hrd ▸ hk.readers), ?_⟩
  exact (congrArg (fun x => x.2.2.2) hk.input).trans hin

section Mapped

variable {v q : Word}

/-- `init` has mapped one page of its own address space. -/
theorem mapped_page_run (hlow : secondPde ≤ v) (hv : PageAligned v) (hq : PageAligned q)
    (hq0 : q ≠ 0) (hfit : q.toNat + 4096 < 2 ^ 32) :
    ∃ k₀ tr k, init someImage lowPageUsed 0 = .ok k₀ ∧ Steps step k₀ tr k
      ∧ tr.map Prod.snd = [call 4 0x20000 0 1, call 11 v q 4096]
      ∧ translate k.mm (k.pcbs k.current).memory v = some q
      ∧ k.on .reading = [] ∧ k.sio.incount = 0 := by
  obtain ⟨k₀, k₁, h0, h₁, hs, hne, hd, hmark, htab⟩ := exec_space_run
  obtain ⟨hin₀, -, hrd₀⟩ := init_devices h0
  obtain ⟨hrd₁, hin₁⟩ := step_input (by decide) h₁ hrd₀ (congrArg (fun x => x.2.2.2) hin₀)
  have hs' : Spare (isrSave k₁ (callFrame 11 v q 4096)).mm 7 := hs.mono hs.1 fun _ hi => hi
  have hmem := (isrSave_spaces k₁ (callFrame 11 v q 4096)).memory k₁.current
  have hslot : pdeIndex v ≠ 0 := fun hz => BitVec.not_lt.mpr hlow (pdeIndex_eq_zero.mp hz)
  obtain ⟨mm', hmap, htr⟩ := kMmap_page (v := v) (q := q) hs' hd hmark hne
    (htab _ (pdeIndex_lt v) hslot) hlow hv hq hq0 hfit
  have hstep : step k₁ (call 11 v q 4096) = (do
      let k' ← sysMmap (isrSave k₁ (callFrame 11 v q 4096)) k₁.current
      .ok (isrRestore k')) := step_syscall k₁ rfl rfl
  have harg := isrSave_arg k₁ (callFrame 11 v q 4096)
  have hsys : sysMmap (isrSave k₁ (callFrame 11 v q 4096)) k₁.current
      = .ok ({ isrSave k₁ (callFrame 11 v q 4096) with mm := mm' }.setRet k₁.current
        Status.success.word) := by
    rw [sysMmap, harg 1, harg 2, harg 3, hmem, show (callFrame 11 v q 4096).args 1 = v from rfl,
      show (callFrame 11 v q 4096).args 2 = q from rfl,
      show (callFrame 11 v q 4096).args 3 = 4096 from rfl, hmap]
    rfl
  rw [hsys, ok_bind] at hstep
  obtain ⟨hrd₂, hin₂⟩ := step_input (show (11 : Word) ≠ 1 by decide) hstep hrd₁ hin₁
  refine ⟨k₀, _, _, h0, (Steps.refl.tail h₁).tail hstep, rfl, ?_, hrd₂, hin₂⟩
  have hself := setPcb_self { isrSave k₁ (callFrame 11 v q 4096) with mm := mm' } k₁.current
    fun x => { x with context.regs.eax := Status.success.word }
  have hspace := (congrArg Pcb.memory hself).trans hmem
  exact (congrArg (fun d => translate mm' d v) hspace).trans htr

/-- A character is received and read into a buffer of one byte. -/
theorem read_into (hi : InputOk k) (hrd : k.on .reading = [])
    (hin : k.sio.incount = 0) (ch : Byte) :
    ∃ k₁ k₂, step k (.interrupt (callFrame 0 0 0 0) (.serial [.rx ch])) = .ok k₁
      ∧ k₁.mm.mem = k.mm.mem
      ∧ (k₁.pcbs k₁.current).memory = (k.pcbs k.current).memory
      ∧ step k₁ (call 1 1 v 1) = .ok k₂
      ∧ Stores k₁ k₂ (call 1 1 v 1) k₁.current [(v, [crToLf ch])] := by
  have hrx := step_rx_idle hrd (callFrame 0 0 0 0) ch
  generalize hk₁ : isrRestore { isrSave k (callFrame 0 0 0 0) with
    sio := sioReceive k.sio (crToLf ch) } = k₁ at hrx
  have hmem : (k₁.pcbs k₁.current).memory = (k.pcbs k.current).memory :=
    hk₁ ▸ (isrSave_spaces k (callFrame 0 0 0 0)).memory k.current
  have hsio : k₁.sio = sioReceive k.sio (crToLf ch) := hk₁ ▸ rfl
  have harg := isrSave_arg k₁ (callFrame 1 1 v 1)
  have hone : 0 < ((isrSave k₁ (callFrame 1 1 v 1)).arg k₁.current 3).toInt := by
    rw [harg 3]
    exact show 0 < (1 : Word).toInt by decide
  have hread : step k₁ (call 1 1 v 1) = (do
      let k' ← sysRead [] (isrSave k₁ (callFrame 1 1 v 1)) k₁.current
      .ok (isrRestore k')) := step_syscall k₁ rfl rfl
  obtain ⟨hcount, -⟩ := gotChars_received (k := isrSave k₁ (callFrame 1 1 v 1)) hsio hin
    (hi.drained hin) hone
  rw [sysRead_serial [] (harg 1), hcount, readDone, if_pos Nat.one_pos, ok_bind] at hread
  refine ⟨k₁, _, hrx, hk₁ ▸ rfl, hmem, hread, ?_⟩
  obtain ⟨-, hlist⟩ := @sioReceive_read (crToLf ch) _ (1 : Word).toInt hin (hi.drained hin)
    (by decide)
  rw [← hsio] at hlist
  rw [← hlist]
  exact .serial rfl rfl

end Mapped

/-- A character is read into a page that is mapped to itself. -/
theorem results_land_mapped : ∃ k₀ tr k k', init someImage lowPageUsed 0 = .ok k₀
    ∧ Steps step k₀ tr k ∧ step k (call 1 1 0x1000000 1) = .ok k'
    ∧ translate k.mm (k.pcbs k.current).memory 0x1000000 = some 0x1000000
    ∧ Lands (translate k.mm (k.pcbs k.current).memory) k.mm.mem k'.mm.mem
      [(0x1000000, [97])] := by
  obtain ⟨k₀, tr, k, h0, hrun, -, htr, hrd, hin⟩ := mapped_page_run (v := 0x1000000)
    (q := 0x1000000) (by decide) (by decide) (by decide) (by decide) (by decide)
  obtain ⟨k₁, k₂, hrx, hmem, hspace, hread, hs⟩ := read_into (v := 0x1000000)
    (reachable_inputOk h0 hrun) hrd hin 97
  have htr₁ : translate k₁.mm (k₁.pcbs k₁.current).memory 0x1000000 = some 0x1000000 := by
    rw [translate, hmem, hspace]
    exact htr
  refine ⟨k₀, _, k₁, k₂, h0, hrun.tail hrx, hread, htr₁, ?_⟩
  refine results_land h0 (hrun.tail hrx) hread hs ?_
  rw [List.forall_mem_singleton]
  intro i hi
  obtain rfl := Nat.lt_one_iff.mp hi
  rw [BitVec.add_zero]
  exact htr₁

/-- A page is mapped to another one, which holds some other byte than the
character that is read: it still does after the read. -/
theorem result_astray : ∃ k₀ tr k k' ch, init someImage lowPageUsed 0 = .ok k₀
    ∧ Steps step k₀ tr k
    ∧ tr.map Prod.snd = [call 4 0x20000 0 1, call 11 0x1000000 0x2000000 4096,
        .interrupt (callFrame 0 0 0 0) (.serial [.rx ch])]
    ∧ step k (call 1 1 0x1000000 1) = .ok k'
    ∧ Stores k k' (call 1 1 0x1000000 1) k.current [(0x1000000, [ch])]
    ∧ translate k.mm (k.pcbs k.current).memory 0x1000000 = some 0x2000000
    ∧ ¬Lands (translate k.mm (k.pcbs k.current).memory) k.mm.mem k'.mm.mem
      [(0x1000000, [ch])] := by
  obtain ⟨k₀, tr, k, h0, hrun, hes, htr, hrd, hin⟩ := mapped_page_run (v := 0x1000000)
    (q := 0x2000000) (by decide) (by decide) (by decide) (by decide) (by decide)
  obtain ⟨ch, hch, hne⟩ : ∃ ch : Byte, crToLf ch = ch ∧ k.mm.mem 0x2000000 ≠ ch := by
    by_cases h97 : k.mm.mem 0x2000000 = 97
    · refine ⟨98, by decide, ?_⟩
      rw [h97]
      decide
    · exact ⟨97, by decide, h97⟩
  obtain ⟨k₁, k₂, hrx, hmem, hspace, hread, hs⟩ := read_into (v := 0x1000000)
    (reachable_inputOk h0 hrun) hrd hin ch
  rw [hch] at hs
  have htr₁ : translate k₁.mm (k₁.pcbs k₁.current).memory 0x1000000 = some 0x2000000 := by
    rw [translate, hmem, hspace]
    exact htr
  have hrun₁ := hrun.tail hrx
  refine ⟨k₀, _, k₁, k₂, ch, h0, hrun₁, ?_, hread, hs, htr₁, fun hl => ?_⟩
  · rw [List.map_append, hes]
    rfl
  · have hafter := congrFun (step_stores (reachable_good h0 hrun₁)
      (reachable_inputOk h0 hrun₁).console hread hs) 0x2000000
    have hthere := congrFun hl.there 0x2000000
    rw [List.foldl_cons, List.foldl_nil, storeBytes, storeBytes, store_byte,
      if_neg (show ¬(0x2000000 : Word) = 0x1000000 by decide), hmem] at hafter
    rw [List.foldl_cons, List.foldl_nil, storeVia, storeVia, htr₁, Option.elim_some, store_byte,
      if_pos rfl] at hthere
    exact hne (hafter.symm.trans hthere)

end SpKernel
