import SpKernel.Lib.Cycle
import SpKernel.Pages

/-!
# The ring of command blocks (`intel.c`)

The network driver hands commands to the card in blocks, one to a page,
that are linked to a ring. `next_cb` is the block to hand out next,
`cb_to_check` the oldest one not yet taken back, and `avail_cb` counts
the blocks left. The card sets `cb_c` in a block when it is done with it;
a recycling pass takes blocks back from the oldest on, as long as they
are done.

There is one block more in the ring than `avail_cb` counts, so that the
two cursors never meet while every block counted is handed out
(`Ringed.get`). The blocks handed out and not taken back are kept beside
the driver's state, as a list `out`; `recycle_command_blocks` also
returns the blocks it passes over.

`Ringed` is the invariant: the ring is one cycle, `out` is the segment
from the one cursor to the other, and the count is what is left. It is
kept by a recycling pass (`Ringed.recycle`), by handing a block out
(`Ringed.get`) and by the card (`Ringed.complete`), which may finish
blocks in any order. `initCbl_ringed` says that the initialisation builds
such a ring, page by page (`Built.loop`), and `command_ring_accounting`
is the result about runs: no block is handed out that the card still has,
and none is lost.
-/

namespace SpKernel

open Function (update update_self update_of_ne minimalPeriod)
open Lib

abbrev totalCb : Nat := 0x80
/-- `cb_c`, the complete flag -/
abbrev cbC : Half := 0x8000#16

/-- `struct cb`, its header -/
structure Cb where
  status : Half
  command : Half
  link : Word
  deriving DecidableEq

/-- `struct nic_info`, the part about command blocks, and the blocks. -/
structure Nic where
  cbs : Word → Cb
  availCb : Word
  nextCb : Word
  cbToCheck : Word

def Nic.link (nic : Nic) : Word → Word := fun a => (nic.cbs a).link

/-- `cb->status & cb_c` -/
def Nic.completed (nic : Nic) (a : Word) : Bool := (nic.cbs a).status &&& cbC ≠ 0#16

/-- A block in a page fresh from `get_next_page`, its status set to 0. -/
def Nic.newCb (nic : Nic) (a : Word) : Nic :=
  { nic with cbs := update nic.cbs a ⟨0#16, 0#16, 0#32⟩ }

def Nic.setLink (nic : Nic) (a next : Word) : Nic :=
  { nic with cbs := update nic.cbs a { nic.cbs a with link := next } }

/-- The loop of `init_cbl`: the last block, and the state. -/
def initLoop : Nat → Word → Nic → MemMgr → Except Fault (Word × Nic × MemMgr)
  | 0, curr, nic, mm => .ok (curr, nic, mm)
  | n + 1, curr, nic, mm => do
      let (page, mm) ← getNextPage mm
      initLoop n page ((nic.newCb page).setLink curr page) mm

def initCbl (nic : Nic) (numCb : Nat) (mm : MemMgr) : Except Fault (Nic × MemMgr) := do
  let (first, mm) ← getNextPage mm
  let (curr, nic, mm) ← initLoop numCb first (nic.newCb first) mm
  let nic := nic.setLink curr first -- complete the circle
  .ok ({ nic with availCb := BitVec.ofNat 32 numCb, nextCb := first, cbToCheck := first }, mm)

/-- The loop body of `recycle_command_blocks`. -/
def Nic.takeBack (nic : Nic) : Nic :=
  let cb := nic.cbs nic.cbToCheck
  { nic with
    cbs := update nic.cbs nic.cbToCheck
      { cb with status := cb.status &&& ~~~cbC, command := cb.command &&& 0#16 }
    availCb := nic.availCb + 1#32
    cbToCheck := cb.link }

/-- Every round clears a flag that is set, so there are at most as many
rounds as there are addresses. -/
abbrev recycleFuel : Nat := 2 ^ 32 + 1

def recycleLoop : Nat → Nic → Except Fault (List Word × Nic)
  | 0, _ => .error .diverge
  | fuel + 1, nic =>
      if nic.completed nic.cbToCheck then do
        let (freed, nic') ← recycleLoop fuel nic.takeBack
        .ok (nic.cbToCheck :: freed, nic')
      else .ok ([], nic)

/-- The blocks taken back, and the state. -/
def recycleCommandBlocks (nic : Nic) : Except Fault (List Word × Nic) :=
  recycleLoop recycleFuel nic

/-- Hand out the next block. -/
def Nic.handOut (nic : Nic) : Nic :=
  { nic with nextCb := nic.link nic.nextCb, availCb := nic.availCb - 1#32 }

/-- The block, `none` for `NULL`; the blocks taken back; the state. -/
def getNextCb (nic : Nic) : Except Fault (Option Word × List Word × Nic) :=
  if nic.availCb = 0#32 then do
    let (freed, nic) ← recycleCommandBlocks nic
    if nic.availCb = 0#32 then .ok (none, freed, nic)
    else .ok (some nic.nextCb, freed, nic.handOut)
  else .ok (some nic.nextCb, [], nic.handOut)

/-! ## The driver and the card -/

structure CbRing where
  nic : Nic
  /-- handed out and not taken back, the oldest first -/
  out : List Word

inductive RingEvent where
  | get
  | recycle
  /-- the card is done with a block, and leaves this status in it -/
  | complete (block : Word) (status : Half)

/-- The card sets the complete flag of a block it was given and is not done
with; it has no other step. -/
def complete (s : CbRing) (block : Word) (status : Half) : CbRing :=
  if block ∈ s.out ∧ s.nic.completed block = false ∧ status &&& cbC ≠ 0#16 then
    { s with nic :=
      { s.nic with cbs := update s.nic.cbs block { s.nic.cbs block with status := status } } }
  else s

def ringStep (s : CbRing) : RingEvent → Except Fault CbRing
  | .get => do
      let (cb, freed, nic) ← getNextCb s.nic
      .ok ⟨nic, s.out.filter (· ∉ freed) ++ cb.toList⟩
  | .recycle => do
      let (freed, nic) ← recycleCommandBlocks s.nic
      .ok ⟨nic, s.out.filter (· ∉ freed)⟩
  | .complete block status => .ok (complete s block status)

/-! ## The segment -/

/-- The blocks handed out are a segment of a ring of `n + 1` blocks, from
`cb_to_check` up to `next_cb`; the others are counted, all but one, and not
marked complete. -/
structure Ringed (n : Nat) (nic : Nic) (out : List Word) : Prop where
  period : minimalPeriod nic.link nic.cbToCheck = n + 1
  count : nic.availCb.toNat + out.length = n
  segment : out = List.iterate nic.link nic.cbToCheck out.length
  next : nic.nextCb = nic.link^[out.length] nic.cbToCheck
  clear : ∀ j, out.length ≤ j → j ≤ n → nic.completed (nic.link^[j] nic.cbToCheck) = false

variable {n : Nat} {nic nic' : Nic} {out : List Word}

theorem link_update_status (cbs : Word → Cb) (a : Word) (status command : Half) :
    (fun b => (update cbs a { cbs a with status := status, command := command } b).link)
      = fun b => (cbs b).link := by
  funext b
  by_cases hb : b = a
  · subst hb
    rw [update_self]
  · rw [update_of_ne hb]

@[simp] theorem takeBack_link : nic.takeBack.link = nic.link :=
  link_update_status nic.cbs nic.cbToCheck _ _

theorem takeBack_completed (a : Word) :
    nic.takeBack.completed a = (decide (a ≠ nic.cbToCheck) && nic.completed a) := by
  by_cases ha : a = nic.cbToCheck
  · subst ha
    have hmask : ∀ s : Half, s &&& ~~~cbC &&& cbC = 0#16 := by
      intro s
      rw [BitVec.and_assoc]
      simp
    simp [Nic.takeBack, Nic.completed, hmask]
  · simp [Nic.takeBack, Nic.completed, ha]

theorem Ringed.nodup (h : Ringed n nic out) : out.Nodup := by
  rw [h.segment]
  refine iterate_nodup ?_
  have := h.count
  have := h.period
  omega

theorem Ringed.takeBack {b : Word} {rest : List Word} (hn : n < 2 ^ 32)
    (h : Ringed n nic (b :: rest)) : b = nic.cbToCheck ∧ Ringed n nic.takeBack rest := by
  have hseg := h.segment
  rw [List.length_cons, List.iterate] at hseg
  obtain ⟨hb, hrest⟩ := List.cons_eq_cons.mp hseg
  have hcount := h.count
  rw [List.length_cons] at hcount
  have hcheck : nic.takeBack.cbToCheck = nic.link nic.cbToCheck := rfl
  have hstep : ∀ j, nic.link^[j] (nic.link nic.cbToCheck) = nic.link^[j + 1] nic.cbToCheck :=
    fun j => (Function.iterate_succ_apply nic.link j nic.cbToCheck).symm
  refine ⟨hb, ?_, ?_, ?_, ?_, ?_⟩
  · rw [takeBack_link, hcheck]
    exact minimalPeriod_step h.period
  · have hav : nic.takeBack.availCb = nic.availCb + 1#32 := rfl
    rw [hav, BitVec.toNat_add]
    simp only [BitVec.toNat_ofNat]
    omega
  · rw [takeBack_link, hcheck]
    exact hrest
  · have hnext : nic.takeBack.nextCb = nic.nextCb := rfl
    rw [takeBack_link, hcheck, hnext, h.next, hstep]
    rfl
  · intro j hj hjn
    rw [takeBack_link, hcheck, hstep, takeBack_completed]
    rcases Nat.lt_or_eq_of_le hjn with hlt | rfl
    · rw [h.clear (j + 1) (by simp only [List.length_cons]; omega) (by omega), Bool.and_false]
    · -- around the ring: the block just taken back
      have hround : nic.link^[j + 1] nic.cbToCheck = nic.cbToCheck := by
        rw [← h.period]
        exact Function.isPeriodicPt_minimalPeriod _ _
      rw [hround]
      simp

/-- A recycling pass takes back the oldest blocks, up to the first that is
not complete. -/
theorem Ringed.recycleLoop (hn : n < 2 ^ 32) : ∀ (fuel : Nat) {nic : Nic} {out : List Word},
    Ringed n nic out → out.length < fuel →
    ∃ k nic', recycleLoop fuel nic = .ok (out.take k, nic') ∧ Ringed n nic' (out.drop k)
      ∧ nic'.nextCb = nic.nextCb ∧ (nic.completed nic.cbToCheck = false → k = 0)
      ∧ (nic.completed nic.cbToCheck = true → out.drop k ≠ out)
  | 0, _, _, _, hlt => absurd hlt (Nat.not_lt_zero _)
  | fuel + 1, nic, out, h, hlt => by
      unfold SpKernel.recycleLoop
      by_cases hc : nic.completed nic.cbToCheck = true
      · rw [if_pos hc]
        cases out with
        | nil =>
            have hclear := h.clear 0 (Nat.le_refl 0) (Nat.zero_le n)
            rw [Function.iterate_zero_apply, hc] at hclear
            cases hclear
        | cons b rest =>
            obtain ⟨hb, hrest⟩ := h.takeBack hn
            obtain ⟨k, nic', he, hring, hnext, -, -⟩ :=
              Ringed.recycleLoop hn fuel hrest (Nat.lt_of_succ_lt_succ hlt)
            refine ⟨k + 1, nic', ?_, hring, hnext, ?_, ?_⟩
            · rw [he, hb]
              rfl
            · intro hf
              rw [hc] at hf
              cases hf
            · intro _ heq
              have hlen := congrArg List.length heq
              simp only [List.length_drop, List.length_cons] at hlen
              omega
      · rw [if_neg hc]
        exact ⟨0, nic, rfl, h, rfl, fun _ => rfl, fun ht => absurd ht hc⟩

theorem Ringed.recycle (hn : n < 2 ^ 32) (h : Ringed n nic out) :
    ∃ k nic', recycleCommandBlocks nic = .ok (out.take k, nic') ∧ Ringed n nic' (out.drop k)
      ∧ nic'.nextCb = nic.nextCb ∧ (nic.completed nic.cbToCheck = false → k = 0)
      ∧ (nic.completed nic.cbToCheck = true → out.drop k ≠ out) := by
  have hcount := h.count
  exact h.recycleLoop hn recycleFuel (by simp only [recycleFuel]; omega)

theorem Ringed.next_not_mem (h : Ringed n nic out) : nic.nextCb ∉ out := by
  rw [h.next, h.segment, List.length_iterate]
  refine iterate_not_mem ?_
  have := h.count
  have := h.period
  omega

theorem Ringed.handOut (h : Ringed n nic out) (ha : nic.availCb ≠ 0#32) :
    Ringed n nic.handOut (out ++ [nic.nextCb]) := by
  have hpos : 0 < nic.availCb.toNat := by
    rw [Nat.pos_iff_ne_zero]
    exact fun h0 => ha (BitVec.eq_of_toNat_eq h0)
  have hlt := nic.availCb.isLt
  have hcount := h.count
  refine ⟨h.period, ?_, ?_, ?_, ?_⟩
  · have hav : nic.handOut.availCb = nic.availCb - 1#32 := rfl
    rw [hav, BitVec.toNat_sub, List.length_append, List.length_singleton]
    simp only [BitVec.toNat_ofNat]
    omega
  · rw [List.length_append, List.length_singleton, iterate_snoc]
    exact congrArg₂ (fun l b => l ++ [b]) h.segment h.next
  · rw [List.length_append, List.length_singleton, Function.iterate_succ_apply']
    exact congrArg nic.link h.next
  · intro j hj hjn
    rw [List.length_append, List.length_singleton] at hj
    exact h.clear j (by omega) hjn

/-- What `get_next_cb` does: it hands out `next_cb`, which is in no one's
hands, or fails when every block counted is out and the oldest is not
complete. -/
theorem Ringed.get (hn : n < 2 ^ 32) (h : Ringed n nic out) :
    ∃ cb k nic', getNextCb nic = .ok (cb, out.take k, nic')
      ∧ Ringed n nic' (out.drop k ++ cb.toList)
      ∧ (∀ b, cb = some b → b = nic.nextCb ∧ b ∉ out)
      ∧ (cb = none ↔ out.length = n ∧ nic.completed nic.cbToCheck = false) := by
  have hcount := h.count
  have hzero : ∀ {a : Word}, a = 0#32 → a.toNat = 0 := fun ha => by rw [ha]; rfl
  unfold getNextCb
  by_cases ha : nic.availCb = 0#32
  · rw [if_pos ha]
    obtain ⟨k, nic', he, hring, hnext, hstop, hmore⟩ := h.recycle hn
    have hcount' := hring.count
    rw [he, ok_bind]
    have hall : out.length = n := by
      have := hzero ha
      omega
    by_cases ha' : nic'.availCb = 0#32
    · refine ⟨none, k, nic', if_pos ha', by simpa using hring, ?_, ?_⟩
      · intro b hb
        cases hb
      · refine iff_of_true rfl ⟨hall, ?_⟩
        by_contra hc
        refine hmore (by simpa using hc) ?_
        have := hzero ha'
        refine List.Sublist.eq_of_length_le (List.drop_sublist k out) ?_
        omega
    · refine ⟨some nic'.nextCb, k, nic'.handOut, if_neg ha', hring.handOut ha', ?_, ?_⟩
      · intro b hb
        obtain rfl := Option.some.inj hb
        exact ⟨hnext, hnext ▸ h.next_not_mem⟩
      · refine iff_of_false (by simp) fun hc => ha' ?_
        have hk := hstop hc.2
        rw [hk, List.drop_zero] at hcount'
        exact BitVec.eq_of_toNat_eq (show nic'.availCb.toNat = 0 by omega)
  · rw [if_neg ha]
    refine ⟨some nic.nextCb, 0, nic.handOut, rfl, h.handOut ha, ?_, ?_⟩
    · intro b hb
      obtain rfl := Option.some.inj hb
      exact ⟨rfl, h.next_not_mem⟩
    · refine iff_of_false (by simp) fun hc => ha ?_
      exact BitVec.eq_of_toNat_eq (show nic.availCb.toNat = 0 by omega)

theorem Ringed.complete (h : Ringed n nic out) (block : Word) (status : Half) :
    Ringed n (complete ⟨nic, out⟩ block status).nic out := by
  unfold SpKernel.complete
  split
  · next hc =>
      have hlink : Nic.link { nic with
          cbs := update nic.cbs block { nic.cbs block with status := status } } = nic.link :=
        link_update_status nic.cbs block _ _
      refine ⟨?_, h.count, ?_, ?_, ?_⟩
      · simp only [hlink]
        exact h.period
      · simp only [hlink]
        exact h.segment
      · simp only [hlink]
        exact h.next
      · intro j hj hjn
        simp only [hlink]
        have hne : nic.link^[j] nic.cbToCheck ≠ block := by
          rintro rfl
          have hmem := hc.1
          rw [h.segment] at hmem
          obtain ⟨i, hi, he⟩ := List.mem_iterate.mp hmem
          have := h.period
          have := (Function.iterate_eq_iterate_iff_of_lt_minimalPeriod (by omega) (by omega)).mp he
          omega
        simp only [Nic.completed, update_of_ne hne]
        exact h.clear j hj hjn
  · exact h

theorem ringStep_ringed (hn : n < 2 ^ 32) {s s' : CbRing} {e : RingEvent}
    (h : Ringed n s.nic s.out) (hst : ringStep s e = .ok s') : Ringed n s'.nic s'.out := by
  cases e with
  | get =>
      obtain ⟨cb, k, nic', he, hring, -, -⟩ := h.get hn
      rw [ringStep, he] at hst
      obtain rfl := Except.ok.inj hst
      rw [filter_take h.nodup]
      exact hring
  | recycle =>
      obtain ⟨k, nic', he, hring, -, -, -⟩ := h.recycle hn
      rw [ringStep, he] at hst
      obtain rfl := Except.ok.inj hst
      rw [filter_take h.nodup]
      exact hring
  | complete block status =>
      obtain rfl := Except.ok.inj hst
      have hout : (SpKernel.complete s block status).out = s.out := by
        unfold SpKernel.complete
        split
        · rfl
        · rfl
      rw [hout]
      exact h.complete block status

/-! ## Building the ring -/

/-- After `i` rounds of the loop of `init_cbl`: a chain of blocks in pages
of their own, none of them marked complete. -/
structure Built (first : Word) (i : Nat) (curr : Word) (nic : Nic) (mm : MemMgr) : Prop where
  chain : Chained nic.link first i
  last : curr = nic.link^[i] first
  used : ∀ j ≤ i, patBit mm (pageOf (nic.link^[j] first)) = true
  clear : ∀ j ≤ i, nic.completed (nic.link^[j] first) = false
  cursor : mm.lastAvailible < patSize

theorem newCb_link (a : Word) : (nic.newCb a).link = update nic.link a 0#32 := by
  funext b
  by_cases hb : b = a
  · subst hb
    simp [Nic.newCb, Nic.link]
  · simp [Nic.newCb, Nic.link, update_of_ne hb]

theorem setLink_link (a b : Word) : (nic.setLink a b).link = update nic.link a b := by
  funext c
  by_cases hc : c = a
  · subst hc
    simp [Nic.setLink, Nic.link]
  · simp [Nic.setLink, Nic.link, update_of_ne hc]

theorem newCb_completed (a b : Word) :
    (nic.newCb a).completed b = (decide (b ≠ a) && nic.completed b) := by
  by_cases hb : b = a
  · subst hb
    simp [Nic.newCb, Nic.completed]
  · simp [Nic.newCb, Nic.completed, hb]

@[simp] theorem setLink_completed (a b c : Word) :
    (nic.setLink a b).completed c = nic.completed c := by
  by_cases hc : c = a
  · subst hc
    simp [Nic.setLink, Nic.completed]
  · simp [Nic.setLink, Nic.completed, hc]

theorem Built.extend {first curr page : Word} {i : Nat} {mm mm' : MemMgr}
    (h : Built first i curr nic mm) (ht : Taken mm page mm') :
    Built first (i + 1) page ((nic.newCb page).setLink curr page) mm' := by
  have hnew : ∀ j ≤ i, nic.link^[j] first ≠ page := by
    rintro j hj rfl
    have := h.used j hj
    rw [ht.wasFree] at this
    cases this
  have hsame : ∀ j ≤ i, (nic.newCb page).link^[j] first = nic.link^[j] first := by
    rw [newCb_link]
    exact iterate_update_of_ne fun j hj => hnew j hj.le
  have hchain : Chained (nic.newCb page).link first i := by
    rw [newCb_link]
    exact h.chain.update_of_ne hnew
  have hcurr : curr = (nic.newCb page).link^[i] first := by
    rw [hsame i (Nat.le_refl i)]
    exact h.last
  have hnode : ∀ j ≤ i, ((nic.newCb page).setLink curr page).link^[j] first
      = nic.link^[j] first := by
    intro j hj
    rw [setLink_link, hcurr, hchain.iterate_update j hj, hsame j hj]
  have hlast : ((nic.newCb page).setLink curr page).link^[i + 1] first = page := by
    rw [setLink_link, hcurr, hchain.iterate_update_last]
  refine ⟨?_, hlast.symm, ?_, ?_, ht.cursor⟩
  · rw [setLink_link, hcurr]
    refine hchain.extend fun j hj => ?_
    rw [hsame j hj]
    exact hnew j hj
  · intro j hj
    rw [ht.bits]
    rcases Nat.lt_or_eq_of_le hj with hlt | rfl
    · rw [hnode j (by omega), h.used j (by omega), Bool.or_true]
    · rw [hlast]
      simp
  · intro j hj
    rw [setLink_completed, newCb_completed]
    rcases Nat.lt_or_eq_of_le hj with hlt | rfl
    · rw [hnode j (by omega), h.clear j (by omega), Bool.and_false]
    · rw [hlast]
      simp

theorem Built.loop : ∀ (m : Nat) {first curr last : Word} {i : Nat} {nic nic' : Nic}
    {mm mm' : MemMgr}, Built first i curr nic mm →
    initLoop m curr nic mm = .ok (last, nic', mm') → Built first (i + m) last nic' mm'
  | 0, _, _, _, _, _, _, _, _, h, he => by
      obtain ⟨rfl, rfl, rfl⟩ := by simpa [initLoop] using he
      exact h
  | m + 1, _, _, _, i, _, _, _, _, h, he => by
      obtain ⟨⟨page, mm₁⟩, hget, he⟩ := bind_eq_ok.mp he
      have := Built.loop m (h.extend (taken_of_ok h.cursor hget)) he
      rwa [Nat.add_right_comm, Nat.add_assoc] at this

/-- `init_cbl` builds a ring with no block handed out. -/
theorem initCbl_ringed {mm mm' : MemMgr} (hlast : mm.lastAvailible < patSize) (hn : n < 2 ^ 32)
    (h : initCbl nic n mm = .ok (nic', mm')) : Ringed n nic' [] := by
  obtain ⟨⟨first, mm₁⟩, hget, h⟩ := bind_eq_ok.mp h
  obtain ⟨⟨curr, nic₁, mm₂⟩, hloop, h⟩ := bind_eq_ok.mp h
  obtain ⟨rfl, rfl⟩ := Prod.mk.inj (Except.ok.inj h)
  have ht := taken_of_ok hlast hget
  have hstart : Built first 0 first (nic.newCb first) mm₁ := by
    refine ⟨chained_zero, rfl, ?_, ?_, ht.cursor⟩
    · intro j hj
      obtain rfl := Nat.le_zero.mp hj
      rw [ht.bits]
      simp
    · intro j hj
      obtain rfl := Nat.le_zero.mp hj
      simp [newCb_completed]
  have hb := hstart.loop n hloop
  rw [Nat.zero_add] at hb
  have hlink : Nic.link { nic₁.setLink curr first with
      availCb := BitVec.ofNat 32 n, nextCb := first, cbToCheck := first }
      = update nic₁.link (nic₁.link^[n] first) first := by
    rw [← hb.last, ← setLink_link]
    rfl
  refine ⟨?_, ?_, rfl, rfl, ?_⟩
  · rw [hlink]
    exact hb.chain.close
  · simp only [BitVec.toNat_ofNat, List.length_nil, Nat.add_zero]
    exact Nat.mod_eq_of_lt hn
  · intro j _ hj
    rw [hlink, hb.chain.iterate_update j hj]
    exact (setLink_completed curr first _).trans (hb.clear j hj)

/-- The accounting of the ring: whatever the driver and the card do, the
blocks counted and the blocks handed out are 128 together, those handed
out are the segment of the ring from `cb_to_check` up to `next_cb`, and
`get_next_cb` hands out a block outside of it, or fails with all blocks
out and the oldest not complete. -/
theorem command_ring_accounting {nic₀ : Nic} {mm mm' : MemMgr} {tr : List (CbRing × RingEvent)}
    {s : CbRing} (hlast : mm.lastAvailible < patSize)
    (hinit : initCbl nic₀ totalCb mm = .ok (nic, mm')) (hrun : Steps ringStep ⟨nic, []⟩ tr s) :
    s.nic.availCb.toNat + s.out.length = totalCb
    ∧ minimalPeriod s.nic.link s.nic.cbToCheck = totalCb + 1
    ∧ s.out = List.iterate s.nic.link s.nic.cbToCheck s.out.length
    ∧ s.nic.nextCb = s.nic.link^[s.out.length] s.nic.cbToCheck
    ∧ (∃ freed nic', recycleCommandBlocks s.nic = .ok (freed, nic'))
    ∧ ∃ cb freed nic', getNextCb s.nic = .ok (cb, freed, nic')
      ∧ (∀ b, cb = some b → b ∉ s.out)
      ∧ (cb = none ↔ s.out.length = totalCb ∧ s.nic.completed s.nic.cbToCheck = false) := by
  have hn : totalCb < 2 ^ 32 := by decide
  have h : Ringed totalCb s.nic s.out :=
    hrun.inv (fun _ _ _ hr hst => ringStep_ringed hn hr hst) (initCbl_ringed hlast hn hinit)
  obtain ⟨k, nic₁, hrec, -⟩ := h.recycle hn
  obtain ⟨cb, k', nic₂, hget, -, hfresh, hnone⟩ := h.get hn
  exact ⟨h.count, h.period, h.segment, h.next, ⟨_, _, hrec⟩, cb, _, nic₂, hget,
    fun b hb => (hfresh b hb).2, hnone⟩

def noNic : Nic := ⟨fun _ => ⟨0#16, 0#16, 0#32⟩, 0#32, 0#32, 0#32⟩

/-- Two blocks are handed out, and the younger is done first. -/
theorem command_ring_accounting_two : ∃ nic mm' tr s,
    initCbl noNic totalCb lowPageUsed = .ok (nic, mm') ∧ Steps ringStep ⟨nic, []⟩ tr s
    ∧ s.out.length = 2 ∧ s.nic.availCb.toNat + s.out.length = totalCb := by
  have hinit : okAnd (initCbl noNic totalCb lowPageUsed) (fun r =>
      okAnd (run ringStep ⟨r.1, []⟩
        [.get, .get, .complete (r.1.link r.1.cbToCheck) cbC, .recycle]) fun s =>
      decide (s.out.length = 2)) = true := by
    decide +kernel
  obtain ⟨⟨nic, mm'⟩, hinit, htest⟩ := of_okAnd hinit
  obtain ⟨s, hs, hlen⟩ := of_okAnd htest
  obtain ⟨tr, hrun, -⟩ := steps_of_run hs
  exact ⟨nic, mm', tr, s, hinit, hrun, of_decide_eq_true hlen,
    (command_ring_accounting (by decide) hinit hrun).1⟩

end SpKernel
