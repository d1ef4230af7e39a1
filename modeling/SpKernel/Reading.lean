import SpKernel.Housekeeping
import SpKernel.Keyboard
import SpKernel.SerialInput

/-!
# Reading

`_sys_read` returns what has come in or puts its caller on `_reading`,
and a character that finds a process there goes to it past the buffer.
The assumption behind that, stated in `_sio_isr`, is that nobody waits
while there is something to read. A read blocks whenever it yields no
byte, which is not the same: `readers_exclude_input_iff` says which calls
break the assumption.

`sysRead_cases` has all that a `read` can do, for either channel, with
what it returns (`gotLine`, `gotChars`). `Exclusive` is that nobody waits
for a character that is there, and `Exclusive.step_iff` that a step keeps
it exactly if it is not a read that yields nothing beside input that is
there (`KeepsExclusive`). Together with the invariant of the two devices
(`InputOk`) this gives the equivalence for runs. `reader_beside_input` is
the shortest run that breaks it: a read of no characters.

A read that waited does not return what one that did not wait returns:
the character itself comes back in `EAX`, and nothing is stored.
`read_same_result_iff` compares the two orders of a read and the arrival
of a character, from any reachable state; they agree exactly if the
character is a 1, which is then also the count, and the byte that is
stored for it in one of the two was there already or cannot be seen by
the caller.
-/

namespace SpKernel

open Function (update update_self update_of_ne)
open Lib

variable {k k' : Kernel} {p : PcbId} (keys : List Byte)

/-! ## What `_sys_read` does -/

/-- The state after `c_gets` has returned a line. -/
def gotLine (k : Kernel) (p : PcbId) (c : Console) (line : List Byte) : Kernel :=
  { k with
    console := c
    mm := { k.mm with mem := storeBytes k.mm.mem (k.arg p 2) (line ++ [0]) } }

/-- The state after `_sio_reads`. -/
def gotChars (k : Kernel) (p : PcbId) : Kernel :=
  { k with
    sio := (sioReads k.sio k.mm.mem (k.arg p 2) (k.arg p 3).toInt).2.1
    mm := { k.mm with mem := (sioReads k.sio k.mm.mem (k.arg p 2) (k.arg p 3).toInt).2.2 } }

/-- The keyboard is not read while its buffer is empty. -/
theorem sysRead_refused (hcon : k.arg p 1 = 0 → cInputQueue k.console = 0)
    (hsio : k.arg p 1 ≠ 1) : ∃ v, sysRead keys k p = .ok (k.setRet p v) := by
  by_cases hchan : k.arg p 1 = 0
  · refine ⟨Status.noChar.word, ?_⟩
    rw [sysRead, if_pos hchan, if_pos (by rw [hcon hchan]; exact Nat.one_pos)]
  · refine ⟨Status.badChan.word, ?_⟩
    rw [sysRead, if_neg hchan, if_neg hsio]

theorem sysRead_console (hc : k.console.Ok) (hchan : k.arg p 1 = 0)
    (hq : 0 < cInputQueue k.console) :
    (cLine (k.arg p 3).toNat (typed k.console keys) = none
      ∧ sysRead keys k p = .error .diverge)
    ∨ ∃ line c, cLine (k.arg p 3).toNat (typed k.console keys) = some line ∧ c.Ok
      ∧ sysRead keys k p = readDone (gotLine k p c line) p line.length := by
  rw [sysRead, if_pos hchan, if_neg (by omega), cGets]
  rcases cGetsLoop_eq (k.arg p 3).toNat keys k.mm.mem (k.arg p 2) 0 hc with
    ⟨hnone, heq⟩ | ⟨line, c, hsome, hok, heq⟩
  · exact .inl ⟨hnone, by rw [heq, error_bind]⟩
  · refine .inr ⟨line, c, hsome, hok, ?_⟩
    rw [heq, ok_bind, Nat.zero_add]
    rfl

theorem sysRead_serial (hchan : k.arg p 1 = 1) :
    sysRead keys k p = readDone (gotChars k p) p (readsCount k.sio (k.arg p 3).toInt) := by
  obtain ⟨inlast, innext, heq, -⟩ := sioReads_eq k.sio k.mm.mem (k.arg p 2) (k.arg p 3).toInt
  rw [sysRead, if_neg (by rw [hchan]; decide), if_pos hchan, gotChars, heq]

theorem sysRead_cases {keys : List Byte} (hc : k.console.Ok) (h : sysRead keys k p = .ok k') :
    (k.arg p 1 = 1
      ∧ readDone (gotChars k p) p (readsCount k.sio (k.arg p 3).toInt) = .ok k')
    ∨ (∃ line c, k.arg p 1 = 0 ∧ 0 < cInputQueue k.console
      ∧ cLine (k.arg p 3).toNat (typed k.console keys) = some line ∧ c.Ok
      ∧ readDone (gotLine k p c line) p line.length = .ok k')
    ∨ (k.arg p 1 ≠ 1 ∧ (k.arg p 1 = 0 → cInputQueue k.console = 0)
      ∧ ∃ v, k' = k.setRet p v) := by
  by_cases hsio : k.arg p 1 = 1
  · exact .inl ⟨hsio, sysRead_serial keys hsio ▸ h⟩
  by_cases hcon : k.arg p 1 = 0 ∧ 0 < cInputQueue k.console
  · obtain ⟨hchan, hq⟩ := hcon
    rcases sysRead_console keys hc hchan hq with ⟨-, heq⟩ | ⟨line, c, hline, hok, heq⟩
    · rw [heq] at h
      cases h
    · exact .inr (.inl ⟨line, c, hchan, hq, hline, hok, heq ▸ h⟩)
  · have hcon' : k.arg p 1 = 0 → cInputQueue k.console = 0 := fun hchan =>
      Nat.eq_zero_of_not_pos fun hq => hcon ⟨hchan, hq⟩
    obtain ⟨v, hv⟩ := sysRead_refused keys hcon' hsio
    exact .inr (.inr ⟨hsio, hcon', v, Except.ok.inj (h.symm.trans hv)⟩)

theorem gotChars_count (k : Kernel) (p : PcbId) :
    (gotChars k p).sio.incount = k.sio.incount - readsCount k.sio (k.arg p 3).toInt := by
  obtain ⟨inlast, innext, heq, -⟩ := sioReads_eq k.sio k.mm.mem (k.arg p 2) (k.arg p 3).toInt
  rw [gotChars, heq]

theorem typed_cons (hc : k.console.Ok) (hq : 0 < cInputQueue k.console) : ∃ chars,
    typed k.console keys = k.console.inputBuffer k.console.nextChar :: chars := by
  have hne : k.console.nextChar ≠ k.console.nextSpace := fun he =>
    absurd (hc.queue_zero.mpr he) (by omega)
  exact ⟨_, (hc.cons hne keys).1⟩

/-! ## Blocking -/

theorem dispatch_rest (h : dispatch k = .ok k') : k'.on .reading = k.on .reading
    ∧ k'.sio = k.sio ∧ k'.console = k.console ∧ k'.mm.mem = k.mm.mem ∧ k'.reports = k.reports
    ∧ (∃ prio, k'.current ∈ k.on (.ready prio))
    ∧ ∀ x, x ≠ k'.current → k'.pcbs x = k.pcbs x := by
  obtain ⟨prio, p, k₁, -, he, rfl⟩ := dispatch_deque h
  obtain ⟨n, l, hl, rfl⟩ := deque_eq he
  have hmem : p ∈ k.on (.ready prio) := by
    rw [hl]
    exact List.mem_cons_self
  refine ⟨?_, rfl, rfl, rfl, rfl, ⟨prio, hmem⟩, fun x hx => setPcb_other _ _ hx⟩
  exact (on_update k (.ready prio) .reading l n).trans (if_neg fun hc => by cases hc)

/-- A read that yields no byte leaves its caller waiting. -/
theorem readDone_zero (g : Good k) (h : readDone k k.current 0 = .ok k') :
    k'.on .reading = k.on .reading ++ [k.current] ∧ (k'.pcbs k.current).state = .blocked
    ∧ k'.sio = k.sio ∧ k'.console = k.console ∧ k'.mm.mem = k.mm.mem := by
  obtain ⟨Q, he, hpl, -⟩ := g.block
  have hQ : Q.items (.pcbs .reading) = k.on .reading ++ [k.current] := by
    simp only [Kernel.enque, QPool.enque] at he
    split at he
    · cases he
    · have : _ = Q := congrArg (fun x : Status × Kernel => x.2.queues) he
      rw [← this]
      exact (on_update k .reading .reading _ _).trans (if_pos rfl)
  rw [readDone, if_neg (Nat.lt_irrefl 0)] at h
  simp only [he] at h
  obtain ⟨h1, h2, h3, h4, -, ⟨prio, hready⟩, h5⟩ := dispatch_rest h
  have hself := setPcb_self { k with queues := Q } k.current fun x => { x with state := .blocked }
  have hne : k.current ≠ k'.current := by
    intro hc
    have hhome := ((hpl.mem _ _).mp hready).2
    rw [← hc] at hhome
    exact absurd (home_eq_ready (hself ▸ hhome)) fun hs => by cases hs
  refine ⟨h1.trans hQ, ?_, h2, h3, h4⟩
  rw [h5 _ hne]
  exact congrArg Pcb.state hself

/-! ## Input devices -/

/-- The keyboard's positions are inside its buffer, and an empty serial
buffer starts over. -/
structure InputOk (k : Kernel) : Prop where
  console : k.console.Ok
  drained : k.sio.incount = 0 → k.sio.inlast = 0 ∧ k.sio.innext = 0

theorem InputOk.of_same (h : InputOk k) (hs : k'.sio.input = k.sio.input)
    (hc : k'.console = k.console) : InputOk k' := by
  simp only [Sio.input, Prod.mk.injEq] at hs
  obtain ⟨-, h1, h2, h3⟩ := hs
  refine ⟨hc ▸ h.console, fun hz => ?_⟩
  rw [h1, h2]
  exact h.drained (h3 ▸ hz)

theorem readDone_devices {n : Nat} (h : readDone k p n = .ok k') :
    k'.sio.input = k.sio.input ∧ k'.console = k.console := by
  rw [readDone] at h
  split at h
  · exact Except.ok.inj h ▸ ⟨rfl, rfl⟩
  · split at h
    · rename_i k₁ he
      rw [← show _ = k₁ from congrArg Prod.snd he] at h
      have hk := (dispatch_keeps h).1
      exact ⟨hk.input, hk.console⟩
    · rename_i k₁ _ he
      rw [← show _ = k₁ from congrArg Prod.snd he] at h
      exact Except.ok.inj h ▸ ⟨rfl, rfl⟩

theorem InputOk.read {keys : List Byte} (h : InputOk k) (hk : sysRead keys k p = .ok k') :
    InputOk k' := by
  rcases sysRead_cases h.console hk with ⟨-, hk⟩ | ⟨line, c, -, -, -, hok, hk⟩ | ⟨-, -, v, rfl⟩
  · obtain ⟨h1, h2⟩ := readDone_devices hk
    refine InputOk.of_same (k := gotChars k p) ⟨h.console, fun hz => ?_⟩ h1 h2
    obtain ⟨inlast, innext, heq, hempty, hrest⟩ :=
      sioReads_eq k.sio k.mm.mem (k.arg p 2) (k.arg p 3).toInt
    rw [gotChars, heq] at hz ⊢
    unfold readsCount at hz hrest
    simp only at hz ⊢
    by_cases hn : 0 < k.sio.incount
    · exact hempty hn (by omega)
    · obtain ⟨hl, hn'⟩ := h.drained (by omega)
      obtain ⟨hl', hn''⟩ := hrest (.inr (by omega))
      exact ⟨hl'.trans hl, by omega⟩
  · obtain ⟨h1, h2⟩ := readDone_devices hk
    exact InputOk.of_same (k := gotLine k p c line) ⟨hok, h.drained⟩ h1 h2
  · exact h.of_same rfl rfl

theorem sioReceive_drained {s : Sio} (h : s.incount = 0 → s.inlast = 0 ∧ s.innext = 0) (ch : Byte)
    (hz : (sioReceive s ch).incount = 0) :
    (sioReceive s ch).inlast = 0 ∧ (sioReceive s ch).innext = 0 := by
  rw [sioReceive] at hz ⊢
  split at hz
  · exact absurd hz (Nat.succ_ne_zero _)
  · rename_i hfull
    rw [if_neg hfull]
    exact h hz

/-- A received character goes to the first reader, or into the buffer if
there is none. -/
theorem sioEvent_rx {ch : Byte} (h : sioEvent k (.rx ch) = .ok k') :
    (k.on .reading = [] ∧ k' = { k with sio := sioReceive k.sio (crToLf ch) })
    ∨ ∃ p l k₁, k.on .reading = p :: l ∧ k.deque .reading = (.success, some p, k₁)
      ∧ schedule (k₁.setRet p ((crToLf ch).setWidth 32)) p = .ok k' := by
  simp only [sioEvent] at h
  split at h
  · split at h
    · rename_i p k₁ he
      refine .inr ?_
      cases hq : k.on .reading with
      | nil =>
          have hq' : k.queues.items (.pcbs .reading) = [] := hq
          simp [Kernel.deque, QPool.deque, hq'] at he
      | cons x l =>
          have hq' : k.queues.items (.pcbs .reading) = x :: l := hq
          obtain rfl : x = p := by
            simp only [Kernel.deque, QPool.deque, hq', Prod.mk.injEq] at he
            exact Option.some.inj he.2.1
          exact ⟨x, l, k₁, rfl, he, h⟩
    · cases h
  · rename_i hsz
    refine .inl ⟨List.length_eq_zero_iff.mp (Nat.eq_zero_of_not_pos hsz), ?_⟩
    exact (Except.ok.inj h).symm

theorem sioEvent_keeps {e : SioEvent} (h : sioEvent k e = .ok k') : Housekeeping k k'
    ∨ ∃ ch, k.on .reading = [] ∧ k' = { k with sio := sioReceive k.sio ch } := by
  cases e with
  | lineStatus => exact .inl (Except.ok.inj h ▸ .refl k)
  | rxTimeout ch => exact .inl (Except.ok.inj h ▸ .refl k)
  | modemStatus => exact .inl (Except.ok.inj h ▸ .refl k)
  | tx =>
      refine .inl (Except.ok.inj h ▸ ?_)
      exact ⟨⟨rfl, rfl, id⟩, sioTransmit_input k.sio, List.Subset.refl _, rfl⟩
  | unknown => cases h
  | rx ch =>
      rcases sioEvent_rx h with ⟨hnil, rfl⟩ | ⟨p, l, k₁, -, he, hk⟩
      · exact .inr ⟨_, hnil, rfl⟩
      · exact .inl (((deque_keeps he).setRet p _).trans (schedule_keeps hk))

/-- An invariant of the handlers: it survives housekeeping, a character
that is stored, a key and a read. -/
theorem handle_inv {P : Kernel → Prop} {cause : Cause}
    (hkeep : ∀ {k k'}, P k → Housekeeping k k' → P k')
    (hrx : ∀ {k} ch, P k → k.on .reading = [] → P { k with sio := sioReceive k.sio ch })
    (hkey : ∀ {k} code, P k → P { k with console := cInputScanCode k.console code })
    (hP : P k) (hk : handle k cause = .ok k')
    (hread : ∀ keys, cause = .syscall keys → (k.pcbs k.current).context.regs.eax = 1 →
      sysRead keys k k.current = .ok k' → P k') : P k' := by
  cases cause with
  | syscall keys =>
      by_cases heax : (k.pcbs k.current).context.regs.eax = 1
      · exact hread keys rfl heax (sysIsr_read heax ▸ hk)
      · exact hkeep hP (sysIsr_keeps heax hk)
  | clock => exact hkeep hP (clkIsr_keeps hk)
  | keyboard code => exact Except.ok.inj hk ▸ hkey code hP
  | pageFault => exact hkeep hP (pageFaultIsr_keeps hk)
  | serial pending =>
      clear hread
      induction pending generalizing k with
      | nil => exact Except.ok.inj hk ▸ hP
      | cons e pending ih =>
          rw [handle, sioIsr, List.foldlM_cons] at hk
          obtain ⟨k₁, hk₁, hk⟩ := bind_eq_ok.mp hk
          refine ih ?_ hk
          rcases sioEvent_keeps hk₁ with h₁ | ⟨ch, hnil, rfl⟩
          · exact hkeep hP h₁
          · exact hrx ch hP hnil

theorem InputOk.step {e : Event} (h : InputOk k) (hst : SpKernel.step k e = .ok k') :
    InputOk k' := by
  cases e with
  | store a b => exact Except.ok.inj hst ▸ h.of_same rfl rfl
  | interrupt frame cause =>
      obtain ⟨k₁, hk₁, hst⟩ := bind_eq_ok.mp hst
      have h₀ : InputOk (SpKernel.isrSave k frame) := h.of_same rfl rfl
      have h₁ : InputOk k₁ :=
        handle_inv (fun h hk => h.of_same hk.input hk.console)
          (fun ch h _ => ⟨h.console, sioReceive_drained h.drained ch⟩)
          (fun code h => ⟨h.console.press code, h.drained⟩) h₀ hk₁ fun _ _ _ hr => h₀.read hr
      exact Except.ok.inj hst ▸ h₁.of_same rfl rfl

/-! ## Readers and input -/

/-- Nobody waits for input while there is some. -/
def Exclusive (k : Kernel) : Prop := k.on .reading ≠ [] → k.sio.incount = 0

/-- A call of `read` that cannot yield a byte: there is no room for one,
or the next character of the keyboard is the end of transmission. -/
def YieldsNothing (c : Console) (args : Nat → Word) : Prop :=
  (args 1 = 0 ∧ 0 < cInputQueue c
    ∧ ((args 3).toNat ≤ 1 ∨ c.inputBuffer c.nextChar = eot))
  ∨ (args 1 = 1 ∧ (args 3).toInt ≤ 0)

theorem yieldsNothing_serial {c : Console} {args : Nat → Word} (h : args 1 = 1) :
    YieldsNothing c args ↔ (args 3).toInt ≤ 0 := by
  simp [YieldsNothing, h]

theorem yieldsNothing_console {c : Console} {args : Nat → Word} (h : args 1 = 0)
    (hq : 0 < cInputQueue c) : YieldsNothing c args
      ↔ (args 3).toNat ≤ 1 ∨ c.inputBuffer c.nextChar = eot := by
  simp [YieldsNothing, h, hq]

/-- Such a call is made only while there is no serial input. -/
def KeepsExclusive (k : Kernel) : Event → Prop
  | .interrupt frame (.syscall _) =>
      frame.regs.eax = 1 → YieldsNothing k.console frame.args → k.sio.incount = 0
  | _ => True

theorem Exclusive.keeps (h : Exclusive k) (hk : Housekeeping k k') : Exclusive k' := by
  intro hne
  have hcount : k'.sio.incount = k.sio.incount := congrArg (fun x => x.2.2.2) hk.input
  rw [hcount]
  exact h fun hnil => hne (List.subset_nil.mp (hnil ▸ hk.readers))

/-- The end of a read keeps the rule if it has a byte to return, and else
if there was no input. -/
theorem readDone_exclusive {n : Nat} (g : Good k) (h : readDone k k.current n = .ok k')
    (hx : 0 < n → Exclusive k) : Exclusive k' ↔ (n = 0 → k.sio.incount = 0) := by
  rcases Nat.eq_zero_or_pos n with rfl | hn
  · obtain ⟨hon, -, hs, -⟩ := readDone_zero g h
    rw [Exclusive, hon, hs]
    exact ⟨fun hex _ => hex (List.append_ne_nil_of_right_ne_nil _ (List.cons_ne_nil _ _)),
      fun hz _ => hz rfl⟩
  · exact iff_of_true ((hx hn).keeps (readDone_keeps hn h)) fun hz => by omega

theorem sysRead_exclusive {keys : List Byte} (g : Good k) (hc : k.console.Ok) (hx : Exclusive k)
    (h : sysRead keys k k.current = .ok k') :
    Exclusive k' ↔ (YieldsNothing k.console (k.arg k.current) → k.sio.incount = 0) := by
  rcases sysRead_cases hc h with
    ⟨hchan, h⟩ | ⟨line, c, hchan, hq, hline, -, h⟩ | ⟨hchan, hcon, v, rfl⟩
  · have g' : Good (gotChars k k.current) := g.congr rfl rfl rfl rfl
    rw [readDone_exclusive g' h fun _ hr => by rw [gotChars_count, hx hr, Nat.zero_sub],
      gotChars_count, yieldsNothing_serial hchan, readsCount]
    constructor
    · intro h1 h2
      have := h1 (by omega)
      omega
    · intro h1 h2
      by_cases hsz : (k.arg k.current 3).toInt ≤ 0
      · have := h1 hsz
        omega
      · omega
  · have g' : Good (gotLine k k.current c line) := g.congr rfl rfl rfl rfl
    obtain ⟨chars, hchars⟩ := typed_cons keys hc hq
    rw [hchars] at hline
    have hnil : line.length = 0 ↔ (k.arg k.current 3).toNat ≤ 1
        ∨ k.console.inputBuffer k.console.nextChar = eot := by
      rw [← @cLine_eq_nil _ _ chars, hline, Option.some.injEq, List.length_eq_zero_iff]
    rw [readDone_exclusive g' h fun _ => hx, yieldsNothing_console hchan hq, hnil]
    exact Iff.rfl
  · refine iff_of_true (hx.keeps ((Housekeeping.refl k).setRet _ _)) fun hy => ?_
    rcases hy with ⟨h0, hq, -⟩ | ⟨h1, -⟩
    · have := hcon h0
      omega
    · exact absurd h1 hchan

theorem Exclusive.step_iff {e : Event} (g : Good k) (hi : InputOk k) (hx : Exclusive k)
    (hst : step k e = .ok k') : Exclusive k' ↔ KeepsExclusive k e := by
  cases e with
  | store a b => exact iff_of_true (Except.ok.inj hst ▸ hx) trivial
  | interrupt frame cause =>
      obtain ⟨k₁, hk₁, hst⟩ := bind_eq_ok.mp hst
      have hk' : Exclusive k' ↔ Exclusive k₁ := Except.ok.inj hst ▸ Iff.rfl
      rw [hk']
      by_cases hread : frame.regs.eax = 1 ∧ ∃ keys, cause = .syscall keys
      · obtain ⟨heax, keys, rfl⟩ := hread
        rw [handle, sysIsr_read (by rw [isrSave_current, isrSave_context, heax])] at hk₁
        have harg : (isrSave k frame).arg (isrSave k frame).current = frame.args :=
          funext fun n => isrSave_arg k frame n
        rw [sysRead_exclusive (g.isrSave frame) hi.console hx hk₁, harg, KeepsExclusive]
        exact ⟨fun h _ => h, fun h => h heax⟩
      · have hread' : ∀ keys, cause = .syscall keys → frame.regs.eax ≠ 1 :=
          fun keys hc heax => hread ⟨heax, keys, hc⟩
        refine iff_of_true ?_ ?_
        · refine handle_inv (k := isrSave k frame) (fun h hk => h.keeps hk)
            (fun ch _ hnil hne => absurd hnil hne) (fun _ h => h) hx hk₁ fun keys hc heax => ?_
          rw [isrSave_current, isrSave_context] at heax
          exact absurd heax (hread' keys hc)
        · cases cause with
          | syscall keys => exact fun heax => absurd heax (hread' keys rfl)
          | _ => trivial

/-! ## Initialisation -/

theorem foldl_keeps {α : Type} {f : Kernel → α → Kernel} (hf : ∀ k a, Housekeeping k (f k a))
    (l : List α) (k : Kernel) : Housekeeping k (l.foldl f k) := by
  induction l generalizing k with
  | nil => exact .refl k
  | cons a l ih => exact (hf k a).trans (ih _)

theorem pcbInit_keeps (k : Kernel) : Housekeeping k (pcbInit k) := by
  have h := foldl_keeps pcbDealloc_keeps (List.finRange nPcbs) k
  rw [pcbInit]
  generalize (List.finRange nPcbs).foldl pcbDealloc k = k₁ at h
  exact ⟨⟨h.cr3, h.directory, h.synced⟩, h.input, h.readers, h.console⟩

theorem stkInit_keeps (k : Kernel) : Housekeeping k (stkInit k) :=
  foldl_keeps (fun k s => stkDealloc_keeps k (some s)) (List.finRange nStacks) k

theorem initProcess_devices (h : initProcess k = .ok k') : k'.sio.input = k.sio.input
    ∧ k'.console = k.console ∧ k'.on .reading ⊆ k.on .reading := by
  obtain ⟨⟨pcb, k₁⟩, hk₁, h⟩ := bind_eq_ok.mp h
  cases pcb with
  | none => cases h
  | some p =>
      obtain ⟨⟨stk, k₂⟩, hk₂, h⟩ := bind_eq_ok.mp h
      cases stk with
      | none => cases h
      | some stk =>
          obtain ⟨k₃, hk₃, h⟩ := bind_eq_ok.mp h
          obtain ⟨k₄, hk₄, h⟩ := bind_eq_ok.mp h
          have h₂ := (pcbAlloc_keeps hk₁).1.trans (stkAlloc_keeps hk₂).1
          have h₄ := (schedule_keeps hk₃).trans (dispatch_keeps hk₄).1
          exact Except.ok.inj h ▸ ⟨h₄.input.trans h₂.input, h₄.console.trans h₂.console,
            List.Subset.trans h₄.readers h₂.readers⟩

variable {image : Image} {mm : MemMgr} {pages : Nat} {k₀ : Kernel} {tr : List (Kernel × Event)}

/-- At the start there is no input, and nobody waits for it. -/
theorem init_devices (h0 : init image mm pages = .ok k₀) :
    k₀.sio.input = sioInit.input ∧ k₀.console = Console.zero ∧ k₀.on .reading = [] := by
  obtain ⟨mm', -, hk⟩ := bind_eq_ok.mp h0
  obtain ⟨h1, h2, h3⟩ := initProcess_devices hk
  have h := (pcbInit_keeps (Kernel.zero image mm')).trans (stkInit_keeps _)
  refine ⟨(h1.trans h.input).trans rfl, h2.trans h.console, ?_⟩
  exact List.subset_nil.mp (List.Subset.trans h3 h.readers)

theorem reachable_inputOk (h0 : init image mm pages = .ok k₀) (hrun : Steps step k₀ tr k) :
    InputOk k := by
  obtain ⟨hs, hc, -⟩ := init_devices h0
  refine hrun.inv (fun _ _ _ h hst => h.step hst) ⟨hc ▸ ⟨by decide, by decide⟩, fun _ => ?_⟩
  exact ⟨congrArg (fun x => x.2.1) hs, congrArg (fun x => x.2.2.1) hs⟩

/-- In all states of a run nobody waits for input while there is some,
exactly when no call of `read` that cannot yield a byte is made while
there is serial input. -/
theorem readers_exclude_input_iff (h0 : init image mm pages = .ok k₀)
    (hrun : Steps step k₀ tr k) :
    ((∀ x ∈ tr, Exclusive x.1) ∧ Exclusive k) ↔ ∀ x ∈ tr, KeepsExclusive x.1 x.2 := by
  obtain ⟨hs, -⟩ := init_devices h0
  have hi := reachable_inputOk h0 .refl
  refine hrun.all_iff (I := fun k => Good k ∧ InputOk k)
    (fun _ _ _ h hst => ⟨h.1.step hst, h.2.step hst⟩)
    (fun _ _ _ h hx hst => hx.step_iff h.1 h.2 hst) ⟨reachable_good h0 .refl, hi⟩ ?_
  exact fun _ => congrArg (fun x => x.2.2.2) hs

/-- `init` waits for a character while its child runs. -/
theorem readers_exclude_input_blocked : ∃ k₀ tr k, init someImage lowPageUsed 0 = .ok k₀
    ∧ Steps step k₀ tr k ∧ k.on .reading = [0] ∧ k.sio.incount = 0 := by
  obtain ⟨k₀, tr, k, h0, hrun, hes, ht⟩ := run_of_test [call 3 0 0 0, call 1 1 0x8000 4]
    (fun k => decide (k.on .reading = [0])) (by decide +kernel)
  have hon := of_decide_eq_true ht
  have hall : ∀ x ∈ tr, KeepsExclusive x.1 x.2 := by
    intro x hx
    have hmem : x.2 ∈ [call 3 0 0 0, call 1 1 0x8000 4] := hes ▸ List.mem_map_of_mem hx
    rw [List.mem_cons, List.mem_singleton] at hmem
    rcases hmem with he | he
    · rw [he]
      exact fun heax => absurd heax (by decide)
    · rw [he]
      exact fun _ hy => absurd ((yieldsNothing_serial rfl).mp hy) (by decide)
  refine ⟨k₀, tr, k, h0, hrun, hon, ((readers_exclude_input_iff h0 hrun).mpr hall).2 ?_⟩
  rw [hon]
  exact List.cons_ne_nil _ _

/-- A character comes in, and `init` asks for none: it waits although
there is something to read. -/
theorem reader_beside_input : ∃ k₀ tr k, init someImage lowPageUsed 0 = .ok k₀
    ∧ Steps step k₀ tr k
    ∧ tr.map Prod.snd = [call 3 0 0 0, .interrupt (callFrame 0 0 0 0) (.serial [.rx 97]),
        call 1 1 0x8000 0]
    ∧ ¬Exclusive k := by
  obtain ⟨k₀, tr, k, h0, hrun, hes, ht⟩ := run_of_test
    [call 3 0 0 0, .interrupt (callFrame 0 0 0 0) (.serial [.rx 97]), call 1 1 0x8000 0]
    (fun k => decide (k.on .reading ≠ [] ∧ k.sio.incount = 1)) (by decide +kernel)
  obtain ⟨hne, hin⟩ := of_decide_eq_true ht
  exact ⟨k₀, tr, k, h0, hrun, hes, fun hx => absurd (hin.symm.trans (hx hne)) (by decide)⟩

/-! ## Before and after -/

/-- The process `p` of `k` has the same result in two later states: its
call has returned, with the same value, and its buffer has the same
contents. -/
structure SameResult (k : Kernel) (p : PcbId) (buf size : Word) (k₁ k₂ : Kernel) : Prop where
  returned₁ : (k₁.pcbs p).state ≠ .blocked
  returned₂ : (k₂.pcbs p).state ≠ .blocked
  eax : (k₁.pcbs p).context.regs.eax = (k₂.pcbs p).context.regs.eax
  buffer : ∀ i < size.toNat, ∀ x,
    translate k.mm (k.pcbs p).memory (buf + BitVec.ofNat 32 i) = some x → k₁.mm.mem x = k₂.mm.mem x

theorem step_read {frame : Frame} (heax : frame.regs.eax = 1)
    (h : step k (.interrupt frame (.syscall keys)) = .ok k') :
    ∃ k₁, sysRead keys (isrSave k frame) k.current = .ok k₁ ∧ k' = isrRestore k₁ := by
  obtain ⟨k₁, hk₁, h⟩ := bind_eq_ok.mp h
  rw [handle, sysIsr_read (by rw [isrSave_current, isrSave_context, heax])] at hk₁
  exact ⟨k₁, hk₁, (Except.ok.inj h).symm⟩

theorem step_rx {frame : Frame} {ch : Byte}
    (h : step k (.interrupt frame (.serial [.rx ch])) = .ok k') :
    ∃ k₁, sioEvent (isrSave k frame) (.rx ch) = .ok k₁ ∧ k' = isrRestore k₁ := by
  obtain ⟨k₁, hk₁, h⟩ := bind_eq_ok.mp h
  rw [handle, sioIsr, List.foldlM_cons] at hk₁
  obtain ⟨k₂, hk₂, hk₁⟩ := bind_eq_ok.mp hk₁
  obtain rfl := Except.ok.inj hk₁
  exact ⟨k₂, hk₂, (Except.ok.inj h).symm⟩

theorem schedule_result (h : schedule k p = .ok k') :
    k'.pcbs p = (k.pcbs p).makeReady ∧ k'.mm = k.mm := by
  obtain ⟨prio, he⟩ := schedule_enque h
  rw [← show _ = k' from congrArg Prod.snd he]
  exact ⟨setPcb_self .., rfl⟩

section Compared

variable {k₁ k₂ : Kernel} {frame frame₁ frame₂ : Frame} {ch : Byte}

theorem step_rx_idle (hrd : k.on .reading = []) (frame : Frame) (ch : Byte) :
    step k (.interrupt frame (.serial [.rx ch])) = .ok (isrRestore { isrSave k frame with
      sio := sioReceive k.sio (crToLf ch) }) := by
  have hsz : ¬0 < (isrSave k frame).queues.size (.pcbs .reading) := by
    rw [Nat.not_lt, Nat.le_zero]
    exact List.length_eq_zero_iff.mpr hrd
  rw [step, handle, sioIsr, List.foldlM_cons, sioEvent]
  simp only [hsz, ↓reduceIte]
  rfl

/-- What `_sio_reads` finds if a character has come in on an idle line. -/
theorem sioReceive_read {s : Sio} {length : Int} (hin : s.incount = 0)
    (hdrain : s.inlast = 0 ∧ s.innext = 0) (hlen : 0 < length) :
    readsCount (sioReceive s ch) length = 1
    ∧ (readsOffsets length (sioReceive s ch).incount (sioReceive s ch) 0).map
      (sioReceive s ch).inbuffer = [ch] := by
  have hs : sioReceive s ch = { s with
      inbuffer := update s.inbuffer 0 ch, inlast := 1, incount := 1 } := by
    rw [sioReceive, if_pos (hin ▸ by decide), hdrain.1, hin]
  rw [hs]
  refine ⟨?_, ?_⟩
  · rw [readsCount]
    simp only
    omega
  · rw [readsOffsets, if_pos ⟨Nat.one_pos, hlen⟩, hdrain.2]
    exact congrArg (· :: []) (update_self 0 ch s.inbuffer)

theorem gotChars_received {s : Sio} (hs : k.sio = sioReceive s ch) (hin : s.incount = 0)
    (hdrain : s.inlast = 0 ∧ s.innext = 0) (hsize : 0 < (k.arg p 3).toInt) :
    readsCount k.sio (k.arg p 3).toInt = 1
    ∧ (gotChars k p).mm.mem = store 1 k.mm.mem (k.arg p 2) ch := by
  obtain ⟨hcount, hread⟩ := @sioReceive_read ch _ _ hin hdrain hsize
  rw [← hs] at hcount hread
  obtain ⟨inlast, innext, heq, -⟩ := sioReads_eq k.sio k.mm.mem (k.arg p 2) (k.arg p 3).toInt
  refine ⟨hcount, ?_⟩
  rw [gotChars, heq, hread]
  rfl

/-- The character comes first: the count is returned and the character is
in the buffer. With a size that is no positive `int` the call blocks. -/
theorem read_after_rx (g : Good k) (hi : InputOk k) (hin : k.sio.incount = 0)
    (hrd : k.on .reading = []) (heax : frame.regs.eax = 1) (hchan : frame.args 1 = 1)
    (hrx : step k (.interrupt frame₁ (.serial [.rx ch])) = .ok k₁)
    (hread : step k₁ (.interrupt frame (.syscall keys)) = .ok k₂) :
    (0 < (frame.args 3).toInt → (k₂.pcbs k.current).state = .running
      ∧ (k₂.pcbs k.current).context.regs.eax = 1
      ∧ k₂.mm.mem = store 1 k.mm.mem (frame.args 2) (crToLf ch))
    ∧ ((frame.args 3).toInt ≤ 0 → (k₂.pcbs k.current).state = .blocked) := by
  have g₁ := g.step hrx
  obtain ⟨k₃, hk₃, rfl⟩ := step_rx hrx
  rcases sioEvent_rx hk₃ with ⟨-, rfl⟩ | ⟨p, l, _, hq, -⟩
  swap
  · exact absurd (hrd.symm.trans hq) (List.cons_ne_nil _ _).symm
  have g₂ := g₁.isrSave frame
  obtain ⟨k₄, hk₄, rfl⟩ := step_read keys heax hread
  generalize hka : isrSave (isrRestore { isrSave k frame₁ with
      sio := sioReceive (isrSave k frame₁).sio (crToLf ch) }) frame = ka at g₂ hk₄
  have hcur : ka.current = k.current := hka ▸ rfl
  have hmem : ka.mm.mem = k.mm.mem := hka ▸ rfl
  have harg : ∀ n, ka.arg k.current n = frame.args n := hka ▸ isrSave_arg _ frame
  have hsio : ka.sio = sioReceive k.sio (crToLf ch) := hka ▸ rfl
  have hk₄ : sysRead keys ka k.current = .ok k₄ := hk₄
  rw [sysRead_serial keys ((harg 1).trans hchan)] at hk₄
  rw [← harg 3, ← harg 2, ← hmem]
  refine ⟨fun hsize => ?_, fun hsize => ?_⟩
  · obtain ⟨hcount, hgot⟩ := gotChars_received hsio hin (hi.drained hin) hsize
    rw [hcount, readDone, if_pos Nat.one_pos] at hk₄
    obtain rfl := Except.ok.inj hk₄
    refine ⟨?_, setRet_eax .., hgot⟩
    have := congrArg Pcb.state (setPcb_self (gotChars ka k.current) k.current
      fun x => { x with context.regs.eax := BitVec.ofNat 32 1 })
    exact this.trans (hcur ▸ g₂.running)
  · have hcount : readsCount ka.sio (ka.arg k.current 3).toInt = 0 := by
      rw [readsCount]
      omega
    rw [hcount, ← hcur] at hk₄
    have g₃ : Good (gotChars ka ka.current) := g₂.congr rfl rfl rfl rfl
    exact hcur ▸ (readDone_zero g₃ hk₄).2.1

/-- The call comes first: the character is returned and the buffer stays
as it was. -/
theorem read_before_rx (g : Good k) (hin : k.sio.incount = 0) (hrd : k.on .reading = [])
    (heax : frame.regs.eax = 1) (hchan : frame.args 1 = 1)
    (hread : step k (.interrupt frame (.syscall keys)) = .ok k₁)
    (hrx : step k₁ (.interrupt frame₂ (.serial [.rx ch])) = .ok k₂) :
    (k₂.pcbs k.current).state = .ready
    ∧ (k₂.pcbs k.current).context.regs.eax = (crToLf ch).setWidth 32
    ∧ k₂.mm.mem = k.mm.mem := by
  obtain ⟨k₃, hk₃, rfl⟩ := step_read keys heax hread
  have hcount : readsCount k.sio (frame.args 3).toInt = 0 := by
    rw [readsCount, hin, Nat.zero_min]
  have hserial := sysRead_serial keys ((isrSave_arg k frame 1).trans hchan)
  have hk₃' : readDone (gotChars (isrSave k frame) k.current) k.current
      (readsCount k.sio ((isrSave k frame).arg k.current 3).toInt) = .ok k₃ := hserial ▸ hk₃
  rw [isrSave_arg, hcount] at hk₃'
  have g₃ : Good (gotChars (isrSave k frame) k.current) := (g.isrSave frame).congr rfl rfl rfl rfl
  obtain ⟨hon, -, -, -, hmem⟩ := readDone_zero g₃ hk₃'
  have hgot : (gotChars (isrSave k frame) k.current).mm.mem = k.mm.mem := by
    rw [gotChars, sioReads, if_pos (show (isrSave k frame).sio.incount < 1 from hin ▸ Nat.one_pos)]
    rfl
  have hon' : (isrSave (isrRestore k₃) frame₂).on .reading = [k.current] :=
    hon.trans (congrArg (· ++ [k.current]) hrd)
  obtain ⟨k₄, hk₄, rfl⟩ := step_rx hrx
  rcases sioEvent_rx hk₄ with ⟨hnil, -⟩ | ⟨p, l, k₅, hq, he, hk⟩
  · exact absurd (hon'.symm.trans hnil) (List.cons_ne_nil _ _)
  obtain ⟨rfl, -⟩ := List.cons.inj (hon'.symm.trans hq)
  obtain ⟨hpcb, hmm⟩ := schedule_result hk
  have hk₅ : k₅.mm.mem = k₃.mm.mem := by
    rw [← show _ = k₅ from congrArg (fun x => x.2.2) he]
    rfl
  refine ⟨congrArg Pcb.state hpcb, ?_, ?_⟩
  · exact (congrArg (fun x => x.context.regs.eax) hpcb).trans (setRet_eax ..)
  · exact (congrArg MemMgr.mem hmm).trans (hk₅.trans (hmem.trans hgot))

/-- A read of the serial line gives the same result whether the character
comes before or after it, exactly if the character is 1, the size is a
positive `int`, and the character stored is one that was there already or
that the caller cannot see. -/
theorem read_same_result_iff (h0 : init image mm pages = .ok k₀) (hrun : Steps step k₀ tr k)
    (hin : k.sio.incount = 0) (hrd : k.on .reading = []) (heax : frame.regs.eax = 1)
    (hchan : frame.args 1 = 1)
    (hfirst : run step k [.interrupt frame₁ (.serial [.rx ch]), .interrupt frame (.syscall keys)]
      = .ok k₁)
    (hlast : run step k [.interrupt frame (.syscall keys), .interrupt frame₂ (.serial [.rx ch])]
      = .ok k₂) :
    SameResult k k.current (frame.args 2) (frame.args 3) k₁ k₂
      ↔ crToLf ch = 1 ∧ 0 < (frame.args 3).toInt
        ∧ (k.mm.mem (frame.args 2) = 1
          ∨ ∀ i < (frame.args 3).toNat, translate k.mm (k.pcbs k.current).memory
            (frame.args 2 + BitVec.ofNat 32 i) ≠ some (frame.args 2)) := by
  have g := reachable_good h0 hrun
  obtain ⟨ka, hka, hfirst⟩ := bind_eq_ok.mp hfirst
  obtain ⟨_, hkb, hfirst⟩ := bind_eq_ok.mp hfirst
  obtain rfl := Except.ok.inj hfirst
  obtain ⟨kc, hkc, hlast⟩ := bind_eq_ok.mp hlast
  obtain ⟨_, hkd, hlast⟩ := bind_eq_ok.mp hlast
  obtain rfl := Except.ok.inj hlast
  obtain ⟨hpos, hneg⟩ := read_after_rx keys g (reachable_inputOk h0 hrun) hin hrd heax hchan hka hkb
  obtain ⟨hst₂, heax₂, hmem₂⟩ := read_before_rx keys g hin hrd heax hchan hkc hkd
  by_cases hsize : 0 < (frame.args 3).toInt
  swap
  · exact iff_of_false (fun h => h.returned₁ (hneg (by omega))) fun h => hsize h.2.1
  obtain ⟨hst₁, heax₁, hmem₁⟩ := hpos hsize
  have hone : (1 : Word) = (crToLf ch).setWidth 32 ↔ crToLf ch = 1 := by
    generalize crToLf ch = b
    revert b
    decide
  constructor
  · intro h
    have hch : crToLf ch = 1 := hone.mp ((heax₁.symm.trans h.eax).trans heax₂)
    refine ⟨hch, hsize, or_iff_not_imp_right.mpr fun hno => ?_⟩
    obtain ⟨i, hi, htr⟩ := not_forall₂.mp hno
    have hbuf := h.buffer i hi _ (not_not.mp htr)
    rw [hmem₁, hmem₂, store_byte, if_pos rfl, hch] at hbuf
    exact hbuf.symm
  · rintro ⟨hch, -, hbuf⟩
    refine ⟨fun hc => ?_, fun hc => ?_, ?_, fun i hi x hx => ?_⟩
    · rw [hst₁] at hc
      cases hc
    · rw [hst₂] at hc
      cases hc
    · exact heax₁.trans ((hone.mpr hch).trans heax₂.symm)
    · rw [hmem₁, hmem₂, store_byte, hch]
      split
      · rename_i he
        subst he
        rcases hbuf with hbuf | hbuf
        · exact hbuf.symm
        · exact absurd hx (hbuf i hi)
      · rfl

end Compared

/-- The character 1 for a buffer that holds it already. -/
theorem read_same_result_one : ∃ k₀ tr k k₁ k₂, init someImage lowPageUsed 0 = .ok k₀
    ∧ Steps step k₀ tr k
    ∧ run step k [.interrupt (callFrame 0 0 0 0) (.serial [.rx 1]), call 1 1 0x8000 1] = .ok k₁
    ∧ run step k [call 1 1 0x8000 1, .interrupt (callFrame 0 0 0 0) (.serial [.rx 1])] = .ok k₂
    ∧ SameResult k k.current 0x8000 1 k₁ k₂ := by
  obtain ⟨k₀, tr, k, h0, hrun, -, ht⟩ := run_of_test [call 3 0 0 0, .store 0x8000 1]
    (fun k => decide (k.sio.incount = 0 ∧ k.on .reading = [] ∧ k.mm.mem 0x8000 = 1)
      && okAnd (run step k [.interrupt (callFrame 0 0 0 0) (.serial [.rx 1]), call 1 1 0x8000 1])
        (fun _ => true)
      && okAnd (run step k [call 1 1 0x8000 1, .interrupt (callFrame 0 0 0 0) (.serial [.rx 1])])
        (fun _ => true)) (by decide +kernel)
  rw [Bool.and_eq_true, Bool.and_eq_true] at ht
  obtain ⟨⟨ht, hA⟩, hB⟩ := ht
  obtain ⟨hin, hrd, hmem⟩ := of_decide_eq_true ht
  obtain ⟨k₁, hk₁, -⟩ := of_okAnd hA
  obtain ⟨k₂, hk₂, -⟩ := of_okAnd hB
  refine ⟨k₀, tr, k, k₁, k₂, h0, hrun, hk₁, hk₂, ?_⟩
  have hiff := read_same_result_iff [] h0 hrun hin hrd rfl rfl hk₁ hk₂
  exact hiff.mpr ⟨by decide, by decide, .inl hmem⟩

/-- The count if the `a` comes first, the character if the call does. -/
theorem read_results_differ : ∃ k₀ tr k k₁ k₂, init someImage lowPageUsed 0 = .ok k₀
    ∧ Steps step k₀ tr k ∧ k.sio.incount = 0 ∧ k.on .reading = []
    ∧ run step k [.interrupt (callFrame 0 0 0 0) (.serial [.rx 97]), call 1 1 0x8000 1] = .ok k₁
    ∧ run step k [call 1 1 0x8000 1, .interrupt (callFrame 0 0 0 0) (.serial [.rx 97])] = .ok k₂
    ∧ (k₁.pcbs k.current).context.regs.eax = 1
    ∧ (k₂.pcbs k.current).context.regs.eax = 97
    ∧ ¬SameResult k k.current 0x8000 1 k₁ k₂ := by
  obtain ⟨k₀, tr, k, h0, hrun, -, ht⟩ := run_of_test [call 3 0 0 0]
    (fun k => decide (k.sio.incount = 0 ∧ k.on .reading = [])
      && okAnd (run step k [.interrupt (callFrame 0 0 0 0) (.serial [.rx 97]), call 1 1 0x8000 1])
        (fun k₁ => decide ((k₁.pcbs k.current).context.regs.eax = 1))
      && okAnd (run step k [call 1 1 0x8000 1, .interrupt (callFrame 0 0 0 0) (.serial [.rx 97])])
        (fun k₂ => decide ((k₂.pcbs k.current).context.regs.eax = 97))) (by decide +kernel)
  rw [Bool.and_eq_true, Bool.and_eq_true] at ht
  obtain ⟨⟨ht, hA⟩, hB⟩ := ht
  obtain ⟨hin, hrd⟩ := of_decide_eq_true ht
  obtain ⟨k₁, hk₁, h₁⟩ := of_okAnd hA
  obtain ⟨k₂, hk₂, h₂⟩ := of_okAnd hB
  have h₁ := of_decide_eq_true h₁
  have h₂ := of_decide_eq_true h₂
  refine ⟨k₀, tr, k, k₁, k₂, h0, hrun, hin, hrd, hk₁, hk₂, h₁, h₂, fun h => ?_⟩
  exact absurd (h₁.symm.trans (h.eax.trans h₂)) (by decide)

end SpKernel
