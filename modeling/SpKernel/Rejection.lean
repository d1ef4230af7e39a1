import SpKernel.FileEffects
import SpKernel.Lib.Trace

/-!
# Handles without an object

`IO_UPDATE`, `IO_DELETE`, `IO_EXECUTE` and `IO_LOCK` ask
`_io_handle_is_valid`; `IO_INTERROGATE` has a check of its own. It has no
upper bound, and any entry with a handle will do, so that a handle is
rejected by all of them exactly if its entry is free (`rejected_iff`).
Behind the table that entry is whatever the memory there has.

In a session after `IO_INIT` only entry 1 is ever used (`Confined`). That
leaves three kinds of handles that are not rejected and have no object:
those from 100 on, 99, whose entry `IO_INIT` forgets, and 1 when a failed
`IO_PROTOTYPE` has left its entry in use.

`Confined` is kept by every call (`Confined.step`), and under it
`Confined.rejected_iff` says which handles are rejected.
`invalid_rejected_iff` draws the conclusion for sessions of all calls, in
any order. `invalid_interrogated` is a call that is not rejected.
-/

namespace SpKernel

open Function (update update_self update_of_ne)
open Lib

variable {ext : Extern} {io io' : Io} {h : Int}

def ioLock (io : Io) (handle : IoHandle) : Except IoFault (Status × Io) :=
  if ioHandleIsValid io handle then do
    let i ← tableIndex handle
    .ok (.success, io.setEntry i { io.table i with locked := 1 })
  else .ok (.badHandle, io)

/-- Every call with this handle returns `E_BAD_HANDLE` and changes
nothing. -/
structure Rejected (ext : Extern) (io : Io) (h : Int) : Prop where
  update : ∀ which value length, ioUpdate io h which value length = .ok (.badHandle, [], io)
  delete : ioDelete io h = .ok (.badHandle, io)
  execute : ioExecute ext io h = .ok (.badHandle, [], io)
  lock : ioLock io h = .ok (.badHandle, io)
  interrogate : ∀ which buffer plength,
    ioInterrogate io h which buffer plength = .ok (.badHandle, plength, io)

theorem IoAny.getprop_negative {o : IoAny} {mm : MemMgr} {which : IoProp} {buffer : Word}
    {plength : Int} (hl : plength < 0) :
    o.getprop mm which buffer plength = .ok (.badArg, plength, mm) := by
  cases o
  all_goals
    simp only [IoAny.getprop, ioFsGetprop, ioDvGetprop, ioMdGetprop, ioMsgGetprop, ioMpGetprop,
      checked, hl, ↓reduceIte]

/-- The check of `IO_INTERROGATE`: a negative length shows whether a call
gets behind it. -/
theorem ioInterrogate_iff :
    (∀ which buffer plength,
      ioInterrogate io h which buffer plength = .ok (.badHandle, plength, io))
    ↔ h < 0 ∨ ∃ i : Fin 100, h = (i.val : Int) ∧ (io.table i).handle < 0 := by
  constructor
  · intro hall
    have hneg := hall .name 0 (-1)
    rw [ioInterrogate] at hneg
    split at hneg
    · rename_i hlt
      exact .inl hlt
    · obtain ⟨i, hi, hneg⟩ := bind_eq_ok.mp hneg
      refine .inr ⟨i, tableIndex_eq.mp hi, ?_⟩
      by_contra hused
      rw [if_neg hused] at hneg
      obtain ⟨r, -, hneg⟩ := bind_eq_ok.mp hneg
      cases r with
      | none => cases hneg
      | some r =>
          simp only [IoAny.getprop_negative (by decide : (-1 : Int) < 0)] at hneg
          cases hneg
  · rintro (hlt | ⟨i, rfl, hfree⟩) which buffer plength
    · rw [ioInterrogate, if_pos hlt]
    · rw [ioInterrogate]
      split
      · rfl
      · rw [tableIndex_val, ok_bind, if_pos hfree]

theorem not_valid (hfree : h < 0 ∨ ∃ i : Fin 100, h = (i.val : Int) ∧ (io.table i).handle < 0) :
    ¬ioHandleIsValid io h = true := by
  intro hv
  obtain ⟨i, hi, hh⟩ := ioHandleIsValid_eq.mp hv
  have hhi := tableIndex_eq.mp hi
  rcases hfree with hlt | ⟨j, hj, hfree⟩
  · omega
  · have hij : j = i := Fin.ext (by omega)
    rw [hij, hh] at hfree
    have hlt : h < 0 := hfree
    omega

theorem rejected_iff :
    Rejected ext io h ↔ h < 0 ∨ ∃ i : Fin 100, h = (i.val : Int) ∧ (io.table i).handle < 0 := by
  refine ⟨fun hr => ioInterrogate_iff.mp hr.interrogate, fun hfree => ?_⟩
  have hv := not_valid hfree
  refine ⟨fun which value length => ?_, ?_, ?_, ?_, ioInterrogate_iff.mpr hfree⟩
  · rw [ioUpdate, if_neg hv]
  · rw [ioDelete, if_neg hv]
  · rw [ioExecute, if_neg hv]
  · rw [ioLock, if_neg hv]

/-! ## The table after `IO_INIT` -/

/-- The entries as `IO_INIT` leaves static storage. -/
def initialEntry (i : Fin 100) : IoEntry :=
  if i.val < 99 then freeEntry else ⟨0, .filesystem, 0, none, 0⟩

/-- Only entry 1 is used. -/
structure Confined (io : Io) : Prop where
  next : io.next = 0
  others : ∀ i ≠ 1, io.table i = initialEntry i
  second : (io.table 1).handle = ioHandleNull ∨ (io.table 1).handle = 1

theorem ioInit_confined (mm : MemMgr) : Confined (ioInit (Io.zero mm)) :=
  ⟨rfl, fun _ _ => rfl, .inl rfl⟩

theorem Confined.first (hc : Confined io) : (io.table 0).handle = ioHandleNull := by
  rw [hc.others 0 (by decide)]
  rfl

theorem Confined.valid (hc : Confined io) {i : Fin 100} (hi : tableIndex h = .ok i)
    (hh : (io.table i).handle = h) : i = 1 := by
  by_contra hne
  have hhi := tableIndex_eq.mp hi
  rw [hc.others i hne, initialEntry] at hh
  split at hh
  · have : h = -1 := hh.symm
    omega
  · have : h = 0 := hh.symm
    omega

/-- A change of entry 1 that sets or frees its handle. -/
theorem Confined.update (hc : Confined io) {e : IoEntry} (hn : io'.next = io.next)
    (ht : io'.table = update io.table 1 e) (he : e.handle = ioHandleNull ∨ e.handle = 1) :
    Confined io' := by
  refine ⟨hn.trans hc.next, fun i hi => ?_, ?_⟩
  · rw [ht, update_of_ne hi]
    exact hc.others i hi
  · rw [ht, update_self]
    exact he

theorem Confined.congr (hc : Confined io) (hn : io'.next = io.next) (ht : io'.table = io.table) :
    Confined io' := by
  refine ⟨hn.trans hc.next, ?_, ?_⟩
  · rw [ht]
    exact hc.others
  · rw [ht]
    exact hc.second

theorem Confined.ioStep {s s' : IoSession} {c : IoCall} (hc : Confined s.io)
    (hst : ioStep s c = .ok s') : Confined s'.io := by
  cases c with
  | prototype type =>
      rcases ioStep_prototype hc.next hc.first hst with ⟨r, hr, -⟩ | ⟨st, hr, -⟩
      · refine hc.update (e := ⟨1, type, 0, some r, 0⟩) hr.next ?_ (.inr rfl)
        rw [hr.table]
        simp only [Io.setEntry, update_self, Function.update_idem]
      · exact hc.update (e := ⟨1, type, 0, none, 0⟩) hr.next hr.table (.inr rfl)
  | delete handle =>
      rcases ioStep_delete hst with ⟨i, r, hi, hh, del, -⟩ | rfl
      · obtain rfl := hc.valid hi hh
        exact hc.update del.next del.table (.inl rfl)
      · exact hc

/-! ## Sessions of all calls -/

/-- A call of the I/O manager, or the rest of the kernel running in
between. -/
inductive IoOp where
  | prototype (type : IoObjType)
  | delete (handle : IoHandle)
  | update (handle : IoHandle) (which : IoProp) (value : Word) (length : Int)
  | execute (handle : IoHandle)
  | lock (handle : IoHandle)
  | interrogate (handle : IoHandle) (which : IoProp) (buffer : Word) (plength : Int)
  | elsewhere (mm : MemMgr)

def ioOpStep (ext : Extern) (s : IoSession) : IoOp → Except IoFault IoSession
  | .prototype type => ioStep s (.prototype type)
  | .delete handle => ioStep s (.delete handle)
  | .update handle which value length => do
      let (_, _, io) ← ioUpdate s.io handle which value length
      .ok { s with io := io }
  | .execute handle => do
      let (_, _, io) ← ioExecute ext s.io handle
      .ok { s with io := io }
  | .lock handle => do
      let (_, io) ← ioLock s.io handle
      .ok { s with io := io }
  | .interrogate handle which buffer plength => do
      let (_, _, io) ← ioInterrogate s.io handle which buffer plength
      .ok { s with io := io }
  | .elsewhere mm => .ok { s with io := { s.io with mm := mm } }

theorem ioLock_table {st : Status} (hl : ioLock io h = .ok (st, io')) :
    io'.next = io.next ∧ (io'.table = io.table
      ∨ ∃ i, tableIndex h = .ok i ∧ (io.table i).handle = h
        ∧ io'.table = update io.table i { io.table i with locked := 1 }) := by
  rw [ioLock] at hl
  split at hl
  · rename_i hv
    obtain ⟨i, hi, hh⟩ := ioHandleIsValid_eq.mp hv
    rw [hi, ok_bind] at hl
    cases hl
    exact ⟨rfl, .inr ⟨i, hi, hh, rfl⟩⟩
  · cases hl
    exact ⟨rfl, .inl rfl⟩

theorem ioInterrogate_table {which : IoProp} {buffer : Word} {plength length : Int} {st : Status}
    (hi : ioInterrogate io h which buffer plength = .ok (st, length, io')) :
    io'.next = io.next ∧ io'.table = io.table := by
  rw [ioInterrogate] at hi
  split at hi
  · cases hi
    exact ⟨rfl, rfl⟩
  · obtain ⟨i, -, hi⟩ := bind_eq_ok.mp hi
    split at hi
    · cases hi
      exact ⟨rfl, rfl⟩
    · obtain ⟨r, -, hi⟩ := bind_eq_ok.mp hi
      cases r with
      | none =>
          cases hi
          exact ⟨rfl, rfl⟩
      | some r =>
          obtain ⟨x, -, hi⟩ := bind_eq_ok.mp hi
          cases hi
          exact ⟨rfl, rfl⟩

theorem Confined.step {s s' : IoSession} {c : IoOp} (hc : Confined s.io)
    (hst : ioOpStep ext s c = .ok s') : Confined s'.io := by
  cases c with
  | prototype type => exact hc.ioStep (c := .prototype type) hst
  | delete handle => exact hc.ioStep (c := .delete handle) hst
  | update handle which value length =>
      obtain ⟨x, hx, hst⟩ := bind_eq_ok.mp hst
      cases hst
      have hsame := ioUpdate_same hx
      exact hc.congr hsame.next hsame.table
  | execute handle =>
      obtain ⟨x, hx, hst⟩ := bind_eq_ok.mp hst
      cases hst
      obtain ⟨-, -, hio⟩ := ioExecute_quiet hx
      rw [hio]
      exact hc
  | lock handle =>
      obtain ⟨x, hx, hst⟩ := bind_eq_ok.mp hst
      cases hst
      obtain ⟨hn, ht | ⟨i, hi, hh, ht⟩⟩ := ioLock_table hx
      · exact hc.congr hn ht
      · obtain rfl := hc.valid hi hh
        exact hc.update hn ht hc.second
  | interrogate handle which buffer plength =>
      obtain ⟨x, hx, hst⟩ := bind_eq_ok.mp hst
      cases hst
      obtain ⟨hn, ht⟩ := ioInterrogate_table hx
      exact hc.congr hn ht
  | elsewhere mm =>
      cases hst
      exact hc.congr rfl rfl

theorem Confined.rejected_iff (hc : Confined io) (ext : Extern) (h : Int) :
    Rejected ext io h ↔ h < 99 ∧ (h = 1 → (io.table 1).handle ≠ 1) := by
  rw [SpKernel.rejected_iff]
  constructor
  · rintro (hlt | ⟨i, rfl, hfree⟩)
    · exact ⟨by omega, fun h1 => by omega⟩
    · refine ⟨?_, fun h1 hh => ?_⟩
      · by_contra hge
        have hi := i.isLt
        have hne : i ≠ 1 := by
          rintro rfl
          exact hge (by decide)
        rw [hc.others i hne, initialEntry, if_neg (by omega)] at hfree
        exact absurd hfree (by decide)
      · have hi : i = 1 := Fin.ext (by omega)
        rw [hi, hh] at hfree
        exact absurd hfree (by decide)
  · rintro ⟨hlt, hone⟩
    by_cases hneg : h < 0
    · exact .inl hneg
    · refine .inr ⟨⟨h.toNat, by omega⟩, by simp only [Int.toNat_of_nonneg (not_lt.mp hneg)], ?_⟩
      by_cases h1 : h = 1
      · subst h1
        rcases hc.second with hs | hs
        · change (io.table 1).handle < 0
          rw [hs]
          decide
        · exact absurd hs (hone rfl)
      · rw [hc.others _ fun he => h1 ?_, initialEntry, if_pos (by simp only; omega)]
        · decide
        · have := congrArg Fin.val he
          change h.toNat = 1 at this
          omega

/-- In every state of every session after `IO_INIT`, a handle without a
live object is rejected exactly if it is below 99 and, if it is 1, no
failed call has left its entry in use. -/
theorem invalid_rejected_iff {mm : MemMgr} {tr : List (IoSession × IoOp)} {s : IoSession}
    (hrun : Steps (ioOpStep ext) ⟨ioInit (Io.zero mm), []⟩ tr s) (h : Int) :
    ((∀ o ∈ s.live, o.handle ≠ h) → Rejected ext s.io h)
      ↔ (∃ o ∈ s.live, o.handle = h) ∨ h < 99 ∧ (h = 1 → (s.io.table 1).handle ≠ 1) := by
  have hc : Confined s.io :=
    hrun.inv (P := fun s => Confined s.io) (fun _ _ _ hc hst => hc.step hst) (ioInit_confined mm)
  rw [← hc.rejected_iff ext h]
  by_cases hlive : ∃ o ∈ s.live, o.handle = h
  · obtain ⟨o, ho, he⟩ := hlive
    exact iff_of_true (fun hdead => absurd he (hdead o ho)) (.inl ⟨o, ho, he⟩)
  · rw [or_iff_right hlive]
    push Not at hlive
    exact ⟨fun hr => hr hlive, fun hr _ => hr⟩

/-- The handle of a device that has been deleted. -/
theorem invalid_rejected_deleted : ∃ tr s,
    Steps (ioOpStep idle) ⟨ioInit (Io.zero lowPageUsed), []⟩ tr s
    ∧ tr.map Prod.snd = [.prototype .device, .delete 1] ∧ s.live = []
    ∧ Rejected idle s.io 1 := by
  have ht : okAnd (run (ioOpStep idle) ⟨ioInit (Io.zero lowPageUsed), []⟩
      [.prototype .device, .delete 1]) (fun s =>
        decide (s.live = []) && decide ((s.io.table 1).handle ≠ 1)) = true := by
    decide +kernel
  obtain ⟨tr, s, hrun, hes, ht⟩ := steps_of_test ht
  rw [Bool.and_eq_true, decide_eq_true_eq, decide_eq_true_eq] at ht
  refine ⟨tr, s, hrun, hes, ht.1, (invalid_rejected_iff hrun 1).mpr (.inr ?_) fun o ho => ?_⟩
  · exact ⟨by decide, fun _ => ht.2⟩
  · rw [ht.1] at ho
    cases ho

/-- Right after `IO_INIT`, handle 100 is looked up behind the table, and
handle 99 in an entry with a handle and no object. A type that cannot be
made leaves handle 1, which can be locked. -/
theorem invalid_interrogated :
    (∀ which buffer plength, ioInterrogate (ioInit (Io.zero lowPageUsed)) 100 which buffer plength
      = .error (.bounds 100))
    ∧ (∀ which buffer plength, ioInterrogate (ioInit (Io.zero lowPageUsed)) 99 which buffer plength
      = .error (.kernel .null))
    ∧ ¬Rejected idle (ioInit (Io.zero lowPageUsed)) 100
    ∧ ∃ s, ioOpStep idle ⟨ioInit (Io.zero lowPageUsed), []⟩ (.prototype .unknown) = .ok s
      ∧ s.live = [] ∧ ¬Rejected idle s.io 1 := by
  have hbounds : ∀ which buffer plength,
      ioInterrogate (ioInit (Io.zero lowPageUsed)) 100 which buffer plength
        = .error (.bounds 100) := fun _ _ _ => rfl
  refine ⟨hbounds, fun _ _ _ => rfl, fun hr => ?_, ?_⟩
  · have hi := hr.interrogate .name 0 0
    rw [hbounds] at hi
    cases hi
  · have ht : okAnd (ioOpStep idle ⟨ioInit (Io.zero lowPageUsed), []⟩ (.prototype .unknown))
        (fun s => decide (s.live = [])
          && okAnd (ioLock s.io 1) fun r => decide (r.1 = .success)) = true := by
      decide +kernel
    obtain ⟨s, hs, ht⟩ := of_okAnd ht
    rw [Bool.and_eq_true, decide_eq_true_eq] at ht
    obtain ⟨r, hl, hst⟩ := of_okAnd ht.2
    refine ⟨s, hs, ht.1, fun hr => ?_⟩
    rw [hr.lock] at hl
    cases hl
    cases of_decide_eq_true hst

end SpKernel
