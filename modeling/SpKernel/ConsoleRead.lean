import SpKernel.Keystrokes
import SpKernel.Reading

/-!
# Reading the console

The comment in `_sys_read` says that console input does not block, and
the call is refused while no character is queued. With a character
queued, `c_gets` goes on until it has a newline, an end of transmission
or one character less than the size, and so may wait for keys; and when
it comes back with nothing, the caller is put on the queue of the serial
line. `console_read_at_once_iff` says for which queues and sizes neither
happens.

`EndsInQueue` is the condition, on the waiting characters and the size: a
line ends among them, or there are enough of them, and it does not begin
with its end. Under it there is a line for which no key is needed, and
which is not empty (`cLine_queued_iff`). A read of nothing is no read to
`_sys_read`, whose caller then waits for the serial line
(`readDone_nothing`).

The keys that would be pressed during the call are arbitrary: "at once"
is that the call returns without any.
-/

namespace SpKernel

open Lib

variable {k k' : Kernel}

/-- `read` has returned `count` characters of the keyboard queue, whatever
is typed meanwhile. -/
structure ReadQueued (k k' : Kernel) (count : Nat) : Prop where
  atOnce : ∀ keys, sysRead keys k k.current = .ok k'
  notBlocked : k'.on .reading = k.on .reading
  returned : (k'.pcbs k.current).context.regs.eax = BitVec.ofNat 32 count
  least : 1 ≤ count
  most : count ≤ min (k.arg k.current 3).toNat (cInputQueue k.console)
  stored : bytes k'.mm.mem (k.arg k.current 2) count = (buffered k.console).take count
  /-- a newline is the last character -/
  line : 10 ∉ ((buffered k.console).take count).dropLast
  inside : ∀ x, (k.arg k.current 3).toNat ≤ (x - k.arg k.current 2).toNat →
    k'.mm.mem x = k.mm.mem x

/-- Something to return, and an end to it: a size that is reached, a
newline or an end of transmission. -/
def EndsInQueue (c : Console) (size : Nat) : Prop :=
  2 ≤ size ∧ c.inputBuffer c.nextChar ≠ eot
  ∧ (size ≤ cInputQueue c + 1 ∨ eot ∈ buffered c ∨ 10 ∈ buffered c)

/-! ## The line -/

/-- A line is the first characters, fewer than the size, up to a
newline. -/
theorem cLine_some : ∀ {size : Nat} {chars line : List Byte}, cLine size chars = some line →
    line <+: chars ∧ (0 < size → line.length < size) ∧ 10 ∉ line.dropLast := by
  intro size
  induction size with
  | zero =>
      intro chars line h
      obtain rfl := Option.some.inj h
      exact ⟨List.nil_prefix, id, List.not_mem_nil⟩
  | succ size ih =>
      intro chars line h
      cases size with
      | zero =>
          obtain rfl := Option.some.inj h
          exact ⟨List.nil_prefix, id, List.not_mem_nil⟩
      | succ size =>
          cases chars with
          | nil => cases h
          | cons ch chars =>
              rw [cLine] at h
              split at h
              · obtain rfl := Option.some.inj h
                exact ⟨List.nil_prefix, id, List.not_mem_nil⟩
              · split at h
                · rename_i hlf
                  obtain rfl := Option.some.inj h
                  exact ⟨hlf ▸ ⟨chars, rfl⟩, fun _ => by simp, List.not_mem_nil⟩
                · rename_i hlf
                  obtain ⟨rest, hrest, rfl⟩ := Option.map_eq_some_iff.mp h
                  obtain ⟨hpre, hlen, hlast⟩ := ih hrest
                  refine ⟨(List.prefix_cons_inj ch).mpr hpre, fun _ => ?_, fun hmem => ?_⟩
                  · exact Nat.succ_lt_succ (hlen (Nat.succ_pos _))
                  · cases rest with
                    | nil => exact List.not_mem_nil hmem
                    | cons x xs =>
                        rw [List.dropLast_cons_cons] at hmem
                        rcases List.mem_cons.mp hmem with h10 | hmem
                        · exact hlf h10.symm
                        · exact hlast hmem

theorem cGetsLoop_queued : ∀ (size : Nat) {c : Console} (keys : List Byte) (m : Mem)
    (buffer : Word) (count : Nat), c.Ok → cLine size (buffered c) ≠ none →
    cGetsLoop size c keys m buffer count = cGetsLoop size c [] m buffer count := by
  intro size
  induction size with
  | zero => exact fun _ _ _ _ _ _ => rfl
  | succ size ih =>
      intro c keys m buffer count hc hline
      cases size with
      | zero => rfl
      | succ size =>
          by_cases hne : c.nextChar ≠ c.nextSpace
          · obtain ⟨hok, hcons⟩ := hc.take_oldest hne
            rw [hcons, cLine] at hline
            rw [cGetsLoop, cGetsLoop, cGetchar_queued hne, cGetchar_queued hne, ok_bind, ok_bind]
            dsimp only
            split
            · rfl
            · rename_i heot
              rw [if_neg heot] at hline
              split
              · rfl
              · rename_i hlf
                rw [if_neg hlf] at hline
                exact ih keys _ _ _ hok fun hnone => hline (by rw [hnone]; rfl)
          · rw [buffered_nil (not_not.mp hne)] at hline
            exact absurd rfl hline

/-! ## The call -/

theorem typed_nil (c : Console) : typed c [] = buffered c :=
  List.append_nil _

theorem buffered_cons {c : Console} (hc : c.Ok) (hq : 0 < cInputQueue c) : ∃ chars,
    buffered c = c.inputBuffer c.nextChar :: chars := by
  have hne : c.nextChar ≠ c.nextSpace := fun he => absurd (hc.queue_zero.mpr he) (by omega)
  exact ⟨_, (hc.take_oldest hne).2⟩

/-- The call waits for no key exactly if there is an end in the queue. -/
theorem cLine_queued_iff {c : Console} (hc : c.Ok) (hq : 0 < cInputQueue c) {size : Nat} :
    (∃ line, cLine size (buffered c) = some line ∧ line ≠ []) ↔ EndsInQueue c size := by
  obtain ⟨chars, hcons⟩ := buffered_cons hc hq
  have hlen : (buffered c).length = cInputQueue c := cInputQueue_length
  constructor
  · rintro ⟨line, hline, hne⟩
    have hnil : ¬(size ≤ 1 ∨ c.inputBuffer c.nextChar = eot) := by
      intro h
      have : cLine size (c.inputBuffer c.nextChar :: chars) = some [] := cLine_eq_nil.mpr h
      rw [← hcons, hline] at this
      exact hne (Option.some.inj this)
    rw [not_or] at hnil
    refine ⟨by omega, hnil.2, ?_⟩
    by_contra hno
    simp only [not_or] at hno
    have hnone := (cLine_eq_none size (buffered c)).mpr ⟨by omega, hno.2.1, hno.2.2⟩
    rw [hline] at hnone
    cases hnone
  · rintro ⟨hsize, heot, hend⟩
    cases hline : cLine size (buffered c) with
    | none =>
        obtain ⟨h1, h2, h3⟩ := (cLine_eq_none size _).mp hline
        rcases hend with h | h | h
        · omega
        · exact absurd h h2
        · exact absurd h h3
    | some line =>
        refine ⟨line, rfl, fun hnil => ?_⟩
        rw [hnil, hcons] at hline
        rcases cLine_eq_nil.mp hline with h | h
        · omega
        · exact heot h

theorem ReadQueued.of_line {line : List Byte} {c : Console} (hc : k.console.Ok)
    (hsize : 0 < (k.arg k.current 3).toNat)
    (hline : cLine (k.arg k.current 3).toNat (buffered k.console) = some line) (hne : line ≠ [])
    (hread : sysRead [] k k.current = readDone (gotLine k k.current c line) k.current line.length) :
    ReadQueued k ((gotLine k k.current c line).setRet k.current (BitVec.ofNat 32 line.length))
      line.length := by
  obtain ⟨hpre, hlt, hlast⟩ := cLine_some hline
  have hlen := hlt hsize
  have hpos : 0 < line.length := List.length_pos_of_ne_nil hne
  have htake : (buffered k.console).take line.length = line :=
    (List.prefix_iff_eq_take.mp hpre).symm
  have hbound := (k.arg k.current 3).isLt
  have hstored : (line ++ [0#8]).length ≤ 2 ^ 32 := by
    rw [List.length_append, List.length_singleton]
    omega
  refine ⟨fun keys => ?_, rfl, ?_, hpos, ?_, ?_, ?_, fun x hx => ?_⟩
  · have hkeys : sysRead keys k k.current = sysRead [] k k.current := by
      rw [sysRead, sysRead, cGets, cGets,
        cGetsLoop_queued _ keys _ _ _ hc (by rw [hline]; exact Option.some_ne_none _)]
    rw [hkeys, hread, readDone, if_pos hpos]
  · exact setRet_eax ..
  · have hle := hpre.length_le
    rw [cInputQueue_length] at hle
    exact Nat.le_min.mpr ⟨hlen.le, hle⟩
  · rw [htake]
    have hall := bytes_storeBytes (m := k.mm.mem) (a := k.arg k.current 2) hstored
    have hfirst := congrArg (List.take line.length) hall
    rwa [bytes_take _ _ (by rw [List.length_append]; omega), List.take_left] at hfirst
  · rw [htake]
    exact hlast
  · refine storeBytes_other hstored ?_
    rw [List.length_append, List.length_singleton]
    omega

/-- A read of nothing is no read: the caller waits for the serial line. -/
theorem readDone_nothing (g : Good k) (h : readDone k k.current 0 = .ok k') :
    k'.on .reading ≠ k.on .reading := by
  rw [(readDone_zero g h).1]
  simp

/-- With a character queued, `read` from the console returns queued
characters without waiting exactly if the size is at least 2, the first
character is not the end of transmission, and the size, a newline or an
end of transmission is reached in the queue. -/
theorem console_read_at_once_iff (g : Good k) (hc : k.console.Ok)
    (hchan : k.arg k.current 1 = 0) (hq : 0 < cInputQueue k.console)
    (hsize : 0 < (k.arg k.current 3).toNat) :
    (∃ k' count, ReadQueued k k' count) ↔ EndsInQueue k.console (k.arg k.current 3).toNat := by
  rw [← cLine_queued_iff hc hq]
  constructor
  · rintro ⟨k', count, hread⟩
    have hnow := hread.atOnce []
    rcases sysRead_console [] hc hchan hq with ⟨-, heq⟩ | ⟨line, c, hline, -, heq⟩
    · rw [heq] at hnow
      cases hnow
    · rw [typed_nil] at hline
      refine ⟨line, hline, ?_⟩
      rintro rfl
      have g' : Good (gotLine k k.current c []) := g.congr rfl rfl rfl rfl
      exact readDone_nothing g' (heq.symm.trans hnow) hread.notBlocked
  · rintro ⟨line, hline, hne⟩
    rcases sysRead_console [] hc hchan hq with ⟨hnone, -⟩ | ⟨line', c, hline', -, heq⟩
    · rw [typed_nil, hline] at hnone
      cases hnone
    · rw [typed_nil, hline] at hline'
      obtain rfl := Option.some.inj hline'
      exact ⟨_, _, .of_line hc hsize hline hne heq⟩

/-- Two characters queued, and room for one. -/
theorem console_read_at_once_two : ∃ k₀ tr k, init someImage lowPageUsed 0 = .ok k₀
    ∧ Steps step k₀ tr k ∧ cInputQueue k.console = 2
    ∧ ∃ k' count, ReadQueued (isrSave k (callFrame 1 0 0x8000 2)) k' count := by
  obtain ⟨k₀, tr, k, h0, hrun, -, ht⟩ := run_of_test
    [.interrupt (callFrame 0 0 0 0) (.keyboard 0x1E),
      .interrupt (callFrame 0 0 0 0) (.keyboard 0x30)]
    (fun k => decide (cInputQueue k.console = 2 ∧ k.console.inputBuffer k.console.nextChar = 97))
    (by decide +kernel)
  obtain ⟨hqueue, hch⟩ := of_decide_eq_true ht
  have g := (reachable_good h0 hrun).isrSave (callFrame 1 0 0x8000 2)
  have hc := (reachable_inputOk h0 hrun).console
  have harg : ∀ n, (isrSave k (callFrame 1 0 0x8000 2)).arg k.current n
      = (callFrame 1 0 0x8000 2).args n := isrSave_arg k _
  have htwo : ((isrSave k (callFrame 1 0 0x8000 2)).arg k.current 3).toNat = 2 := by
    rw [harg]
    rfl
  refine ⟨k₀, tr, k, h0, hrun, hqueue, (console_read_at_once_iff g hc ?_ ?_ ?_).mpr ⟨?_, ?_, ?_⟩⟩
  · exact harg 1
  · exact hqueue.symm ▸ Nat.two_pos
  · exact htwo.symm ▸ Nat.two_pos
  · exact htwo.ge
  · show k.console.inputBuffer k.console.nextChar ≠ eot
    rw [hch]
    decide
  · exact .inl (htwo.trans_le (Nat.le_succ_of_le hqueue.ge))

/-- The letter `a` is queued and the buffer has room for one character:
the caller waits for the serial line. -/
theorem console_read_blocks : ∃ k₀ tr k k', init someImage lowPageUsed 0 = .ok k₀
    ∧ Steps step k₀ tr k ∧ cInputQueue k.console = 1
    ∧ step k (call 1 0 0x8000 1) = .ok k' ∧ k'.on .reading = [k.current]
    ∧ ¬∃ k' count, ReadQueued (isrSave k (callFrame 1 0 0x8000 1)) k' count := by
  obtain ⟨k₀, tr, k, h0, hrun, -, ht⟩ := run_of_test
    [call 3 0 0 0, .interrupt (callFrame 0 0 0 0) (.keyboard 0x1E)]
    (fun k => decide (cInputQueue k.console = 1 ∧ k.on .reading = [])
      && okAnd (step k (call 1 0 0x8000 1)) fun k' => decide (k'.on .reading = [k.current]))
    (by decide +kernel)
  obtain ⟨ht, hstep⟩ := Bool.and_eq_true_iff.mp ht
  obtain ⟨hqueue, hnil⟩ := of_decide_eq_true ht
  obtain ⟨k', hk', hon⟩ := of_okAnd hstep
  have hon := of_decide_eq_true hon
  refine ⟨k₀, tr, k, k', h0, hrun, hqueue, hk', hon, ?_⟩
  rintro ⟨k₂, count, hread⟩
  obtain ⟨k₁, hk₁, rfl⟩ := step_read [] rfl hk'
  have hsame := Except.ok.inj (hk₁.symm.trans (hread.atOnce []))
  have hrd : k₁.on .reading = k.on .reading := hsame ▸ hread.notBlocked
  rw [hnil] at hrd
  exact List.cons_ne_nil _ _ (hon.symm.trans hrd)

end SpKernel
