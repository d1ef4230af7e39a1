import SpKernel.FatClusters

/-!
# One FAT context for each mount (`pubfat.c`)

`match_context` looks for the context of a mount among the stored ones.
It never stores the mount, so what it compares with is `NULL`, and when
it has found one it returns the second context, whichever it has found. A
run of messages keeps one context for each mount as long as every message
is of a mount of its own (`one_context_iff`).

`FatHistory` is a run with what a reader would have to remember: which
context each message was given and which mount it was of.
`OneContextEach` is the property, that two messages have the same context
exactly if they are of the same mount and that the contexts carry what
their messages said. `FitsHistory` is the condition on the next message,
on the mounts before it only.

A message of a new mount gets a new context, unless the mount is `NULL`,
which matches the first entry (`matchContext_new`, `matchContext_null`).
A repeat of the `NULL` mount is right by accident: its context is a copy
of the first, as long as there are no more than these two
(`FreshHistory.keep_null`). `FreshHistory` is the invariant,
`FreshHistory.keep` the step, and `FreshHistory.fits` the other
direction.
-/

namespace SpKernel

open Function (update)
open Lib

/-- `(FAT_CONTEXT){}`, and an element of `instances` before it is stored -/
def zeroContext : FatContext := ⟨0, .addr 0, .addr 0, .addr 0, 0, 0, 0⟩

/-- `instances` and `max_inst` -/
structure FatInstances where
  instances : Fin 50 → FatContext
  maxInst : Nat

/-- `instances[max_inst++] = ctx`; behind the 50 slots nothing of the array is written. -/
def FatInstances.push (s : FatInstances) (ctx : FatContext) : FatInstances where
  instances := if h : s.maxInst < 50 then update s.instances ⟨s.maxInst, h⟩ ctx else s.instances
  maxInst := s.maxInst + 1

/-- The context that is made for a message. -/
def newContext (msg : IoMessage) : FatContext where
  cache := 0
  filesystem := msg.filesystem
  mount := .addr 0
  driver := msg.device
  sectorSize := 512
  clusterSize := 32768
  clustersPerFat := 100

/-- The loop of `match_context`, from `i` on. -/
def matchContextLoop (s : FatInstances) (msg : IoMessage) : Nat → Nat → Option FatContext
  | 0, _ => none
  | fuel + 1, i =>
      if i ≤ 50 ∧ i < s.maxInst then
        if h : i < 50 then
          if (s.instances ⟨i, h⟩).mount = msg.mount then some (s.instances 1)
          else matchContextLoop s msg fuel (i + 1)
        else some zeroContext
      else none

/-- `match_context`. The loop has 51 rounds at most. -/
def matchContext (s : FatInstances) (msg : IoMessage) : FatContext × FatInstances :=
  match matchContextLoop s msg 51 0 with
  | some ctx => (ctx, s)
  | none => (newContext msg, s.push (newContext msg))

/-! ## Histories -/

/-- The messages that have been handled, oldest first, with the context each has got. -/
structure FatHistory where
  instances : FatInstances
  handled : List (IoMessage × FatContext)

def FatHistory.start : FatHistory := ⟨⟨fun _ => zeroContext, 0⟩, []⟩

def FatHistory.next (h : FatHistory) (msg : IoMessage) : FatHistory :=
  let (ctx, s) := matchContext h.instances msg
  ⟨s, h.handled ++ [(msg, ctx)]⟩

/-- One message is handled. -/
def FatHistory.step (h : FatHistory) (msg : IoMessage) : Except Fault FatHistory := .ok (h.next msg)

/-- The mounts that have been seen. -/
def FatHistory.mounts (h : FatHistory) : Finset IoPtr :=
  (h.handled.map fun x => x.1.mount).toFinset

/-- The context is of the message's device and filesystem. -/
def CarriesOwn (x : IoMessage × FatContext) : Prop :=
  x.2.driver = x.1.device ∧ x.2.filesystem = x.1.filesystem

/-- Each mount has one context. -/
structure OneContextEach (h : FatHistory) : Prop where
  same : ∀ x ∈ h.handled, ∀ y ∈ h.handled, x.1.mount = y.1.mount → x.2 = y.2
  own : ∀ x ∈ h.handled, ∀ y ∈ h.handled, x.1.mount ≠ y.1.mount → CarriesOwn x ∧ CarriesOwn y
  count : h.instances.maxInst = h.mounts.card
  room : h.instances.maxInst ≤ 50

def SameSource (msg msg' : IoMessage) : Prop :=
  msg.device = msg'.device ∧ msg.filesystem = msg'.filesystem

/-- The message's mount has not been seen, there is room, and no other message has come
before it if the mount is `NULL`; or it repeats the `NULL` mount of the first message,
and the second one is of the same device and filesystem. -/
def FitsHistory (h : FatHistory) (msg : IoMessage) : Prop :=
  (msg.mount ∉ h.mounts ∧ (msg.mount = .addr 0 → h.handled = []) ∧ h.instances.maxInst < 50)
    ∨ ∃ x y rest, h.handled = x :: y :: rest ∧ x.1.mount = .addr 0 ∧ msg.mount = .addr 0
      ∧ SameSource x.1 msg ∧ SameSource y.1 msg

/-! ## What is found -/

section Found

variable {s : FatInstances} {msg : IoMessage}

theorem matchContextLoop_other (hnull : ∀ i, (s.instances i).mount = .addr 0)
    (hroom : s.maxInst ≤ 50) (hmsg : msg.mount ≠ .addr 0) (fuel i : Nat) :
    matchContextLoop s msg fuel i = none := by
  induction fuel generalizing i with
  | zero => rfl
  | succ fuel ih =>
      unfold matchContextLoop
      split
      · rename_i hi
        rw [dif_pos (by omega), if_neg (fun he => hmsg (he.symm.trans (hnull _))), ih]
      · rfl

/-- No context is found for a mount that is not `NULL`, nor among none. -/
theorem matchContext_new (hnull : ∀ i, (s.instances i).mount = .addr 0)
    (hroom : s.maxInst ≤ 50) (h : msg.mount ≠ .addr 0 ∨ s.maxInst = 0) :
    matchContext s msg = (newContext msg, s.push (newContext msg)) := by
  have hnone : matchContextLoop s msg 51 0 = none := by
    rcases h with hmsg | hzero
    · exact matchContextLoop_other hnull hroom hmsg 51 0
    · exact if_neg fun hi => absurd hi.2 (by omega)
  simp only [matchContext, hnone]

/-- `NULL` is found at once, and it is the second context that is returned. -/
theorem matchContext_null (hnull : ∀ i, (s.instances i).mount = .addr 0)
    (hmsg : msg.mount = .addr 0) (hpos : 0 < s.maxInst) :
    matchContext s msg = (s.instances 1, s) := by
  have hsome : matchContextLoop s msg 51 0 = some (s.instances 1) := by
    unfold matchContextLoop
    rw [if_pos ⟨by decide, hpos⟩, dif_pos (by decide), if_pos ((hnull _).trans hmsg.symm)]
  simp only [matchContext, hsome]

end Found

/-! ## Runs -/

theorem FatHistory.mem_mounts {h : FatHistory} {a : IoPtr} :
    a ∈ h.mounts ↔ ∃ x ∈ h.handled, x.1.mount = a := by
  simp only [FatHistory.mounts, List.mem_toFinset, List.mem_map]

theorem FatHistory.mounts_snoc (h : FatHistory) (s : FatInstances) (x : IoMessage × FatContext) :
    (FatHistory.mk s (h.handled ++ [x])).mounts = insert x.1.mount h.mounts := by
  simp only [FatHistory.mounts, List.map_append, List.map_singleton, List.toFinset_append,
    List.toFinset_cons, List.toFinset_nil, Finset.union_insert, Finset.union_empty]

/-- A history that each message has fitted. -/
structure FreshHistory (h : FatHistory) : Prop extends OneContextEach h where
  null : ∀ i, (h.instances.instances i).mount = .addr 0
  unused : ∀ i : Fin 50, h.instances.maxInst ≤ i → h.instances.instances i = zeroContext
  made : ∀ x ∈ h.handled, x.2 = newContext x.1
  first : .addr 0 ∈ h.mounts → ∃ x rest, h.handled = x :: rest ∧ x.1.mount = .addr 0
  second : ∀ x y rest, h.handled = x :: y :: rest →
    h.instances.instances 1 = newContext y.1 ∧ 2 ≤ h.instances.maxInst

variable {h : FatHistory} {msg : IoMessage}

theorem FreshHistory.next_new (hf : FreshHistory h)
    (hnew : msg.mount ≠ .addr 0 ∨ h.instances.maxInst = 0) :
    h.next msg
      = ⟨h.instances.push (newContext msg), h.handled ++ [(msg, newContext msg)]⟩ := by
  simp only [FatHistory.next, matchContext_new hf.null hf.room hnew]

theorem FreshHistory.next_null (hf : FreshHistory h) (hmsg : msg.mount = .addr 0)
    (hpos : 0 < h.instances.maxInst) :
    h.next msg = ⟨h.instances, h.handled ++ [(msg, h.instances.instances 1)]⟩ := by
  simp only [FatHistory.next, matchContext_null hf.null hmsg hpos]

theorem freshHistory_start : FreshHistory .start where
  same _ hx := absurd hx List.not_mem_nil
  own _ hx := absurd hx List.not_mem_nil
  count := rfl
  room := Nat.zero_le 50
  null _ := rfl
  unused _ _ := rfl
  made _ hx := absurd hx List.not_mem_nil
  first hm := absurd hm (Finset.notMem_empty _)
  second _ _ _ he := absurd he.symm (List.cons_ne_nil _ _)

/-- Messages of one mount have got one context, also with one more message that has got
the context of the others of its mount. -/
theorem same_snoc {l : List (IoMessage × FatContext)} {z : IoMessage × FatContext}
    (hsame : ∀ x ∈ l, ∀ y ∈ l, x.1.mount = y.1.mount → x.2 = y.2)
    (hz : ∀ x ∈ l, x.1.mount = z.1.mount → x.2 = z.2) :
    ∀ x ∈ l ++ [z], ∀ y ∈ l ++ [z], x.1.mount = y.1.mount → x.2 = y.2 := by
  simp only [List.forall_mem_append, List.forall_mem_singleton]
  exact ⟨fun x hx => ⟨hsame x hx, hz x hx⟩, fun y hy he => (hz y hy he.symm).symm, fun _ => trivial⟩

/-- Contexts that have been made for their messages carry their own device. -/
theorem own_of_made {l : List (IoMessage × FatContext)} (hmade : ∀ x ∈ l, x.2 = newContext x.1) :
    ∀ x ∈ l, CarriesOwn x := by
  intro x hx
  unfold CarriesOwn
  rw [hmade x hx]
  exact ⟨rfl, rfl⟩

theorem snoc_two {α : Type*} {l rest : List α} {x y z : α} (h : l ++ [z] = x :: y :: rest) :
    l = [x] ∧ z = y ∨ ∃ rest', l = x :: y :: rest' := by
  cases l with
  | nil => cases h
  | cons a l =>
      cases l with
      | nil =>
          cases h
          exact .inl ⟨rfl, rfl⟩
      | cons b l =>
          cases h
          exact .inr ⟨l, rfl⟩

theorem newContext_congr {msg msg' : IoMessage} (h : SameSource msg msg') :
    newContext msg = newContext msg' := by
  unfold newContext
  rw [h.1, h.2]

theorem FatHistory.maxInst_of_nil (hf : FreshHistory h) (hnil : h.handled = []) :
    h.instances.maxInst = 0 := by
  rw [hf.count, FatHistory.mounts, hnil]
  rfl

theorem FatHistory.maxInst_of_single {x : IoMessage × FatContext} (hf : FreshHistory h)
    (hx : h.handled = [x]) : h.instances.maxInst = 1 := by
  rw [hf.count, FatHistory.mounts, hx]
  rfl

theorem FatInstances.push_apply {s : FatInstances} (hroom : s.maxInst < 50) (ctx : FatContext)
    (i : Fin 50) : (s.push ctx).instances i = if i.val = s.maxInst then ctx else s.instances i := by
  simp only [FatInstances.push, hroom, ↓reduceDIte, Function.update_apply, Fin.ext_iff]

/-- The second slot is written by the second message, and not again. -/
theorem FreshHistory.second_new (hf : FreshHistory h) (hroom : h.instances.maxInst < 50)
    {x y : IoMessage × FatContext} {rest : List (IoMessage × FatContext)}
    (he : h.handled ++ [(msg, newContext msg)] = x :: y :: rest) :
    (h.instances.push (newContext msg)).instances 1 = newContext y.1
      ∧ 2 ≤ h.instances.maxInst + 1 := by
  rw [FatInstances.push_apply hroom]
  rcases snoc_two he with ⟨hx, rfl⟩ | ⟨rest', hx⟩
  · have hone := FatHistory.maxInst_of_single hf hx
    have heq : (1 : Fin 50).val = h.instances.maxInst := hone.symm
    rw [if_pos heq]
    exact ⟨rfl, Nat.succ_le_succ hone.ge⟩
  · obtain ⟨hsecond, htwo⟩ := hf.second x y rest' hx
    have hne : (1 : Fin 50).val ≠ h.instances.maxInst := Nat.ne_of_lt htwo
    rw [if_neg hne]
    exact ⟨hsecond, htwo.trans (Nat.le_succ _)⟩

theorem FreshHistory.keep_new (hf : FreshHistory h) (hmount : msg.mount ∉ h.mounts)
    (hnull : msg.mount = .addr 0 → h.handled = []) (hroom : h.instances.maxInst < 50) :
    FreshHistory (h.next msg) := by
  have hnew : msg.mount ≠ .addr 0 ∨ h.instances.maxInst = 0 :=
    (em (msg.mount = .addr 0)).symm.imp_right fun hm => FatHistory.maxInst_of_nil hf (hnull hm)
  have hmade : ∀ x ∈ h.handled ++ [(msg, newContext msg)], x.2 = newContext x.1 := by
    rw [List.forall_mem_append, List.forall_mem_singleton]
    exact ⟨hf.made, rfl⟩
  rw [hf.next_new hnew]
  refine {
    same := same_snoc hf.same fun x hx he =>
      absurd (FatHistory.mem_mounts.mpr ⟨x, hx, he⟩) hmount
    own := fun x hx y hy _ => ⟨own_of_made hmade x hx, own_of_made hmade y hy⟩
    count := ?_
    room := hroom
    null := fun i => ?_
    unused := fun i hi => ?_
    made := hmade
    first := fun hm => ?_
    second := fun x y rest he => hf.second_new hroom he }
  · rw [FatHistory.mounts_snoc, Finset.card_insert_of_notMem hmount, ← hf.count]
    rfl
  · rw [FatInstances.push_apply hroom]
    split
    · rfl
    · exact hf.null i
  · have hi' : h.instances.maxInst < i := hi
    rw [FatInstances.push_apply hroom, if_neg hi'.ne', hf.unused i hi'.le]
  · rw [FatHistory.mounts_snoc, Finset.mem_insert] at hm
    rcases hm with hm | hm
    · exact ⟨_, [], congrArg (· ++ _) (hnull hm.symm), hm.symm⟩
    · obtain ⟨x, rest, hx, hx0⟩ := hf.first hm
      exact ⟨x, rest ++ _, congrArg (· ++ _) hx, hx0⟩

/-- A repeat of the `NULL` mount gets the second context, which is that of the first. -/
theorem FreshHistory.keep_null {x y : IoMessage × FatContext}
    {rest : List (IoMessage × FatContext)} (hf : FreshHistory h)
    (hh : h.handled = x :: y :: rest) (hx : x.1.mount = .addr 0) (hmsg : msg.mount = .addr 0)
    (hxm : SameSource x.1 msg) (hym : SameSource y.1 msg) : FreshHistory (h.next msg) := by
  obtain ⟨hsecond, htwo⟩ := hf.second x y rest hh
  have hxmem : x ∈ h.handled := hh ▸ List.mem_cons_self
  have hmade : ∀ z ∈ h.handled ++ [(msg, h.instances.instances 1)], z.2 = newContext z.1 := by
    rw [List.forall_mem_append, List.forall_mem_singleton]
    exact ⟨hf.made, hsecond.trans (newContext_congr hym)⟩
  have hseen : msg.mount ∈ h.mounts := FatHistory.mem_mounts.mpr ⟨x, hxmem, hx.trans hmsg.symm⟩
  have hmounts : (h.next msg).mounts = h.mounts := by
    rw [hf.next_null hmsg (by omega), FatHistory.mounts_snoc, Finset.insert_eq_of_mem hseen]
  rw [hf.next_null hmsg (by omega)] at hmounts ⊢
  exact {
    same := same_snoc hf.same fun z hz he => by
      rw [hf.same z hz x hxmem (he.trans (hmsg.trans hx.symm)), hf.made x hxmem, hsecond,
        newContext_congr hxm, newContext_congr hym]
    own := fun z hz w hw _ => ⟨own_of_made hmade z hz, own_of_made hmade w hw⟩
    count := hf.count.trans (congrArg Finset.card hmounts.symm)
    room := hf.room
    null := hf.null
    unused := hf.unused
    made := hmade
    first := fun _ => ⟨x, y :: rest ++ _, congrArg (· ++ _) hh, hx⟩
    second := fun z w rest' he => by
      rcases snoc_two he with ⟨hz, -⟩ | ⟨rest'', hz⟩
      · exact absurd (hh.symm.trans hz) (by simp)
      · exact hf.second z w rest'' hz }

theorem FreshHistory.keep (hf : FreshHistory h) (hfits : FitsHistory h msg) :
    FreshHistory (h.next msg) := by
  rcases hfits with ⟨hmount, hnull, hroom⟩ | ⟨x, y, rest, hh, hx, hmsg, hxm, hym⟩
  · exact hf.keep_new hmount hnull hroom
  · exact hf.keep_null hh hx hmsg hxm hym

/-- A message that has been given a context of its own was of a mount of its own. -/
theorem FreshHistory.fits_new (hf : FreshHistory h)
    (hnew : msg.mount ≠ .addr 0 ∨ h.instances.maxInst = 0) (hone : OneContextEach (h.next msg)) :
    FitsHistory h msg := by
  rw [hf.next_new hnew] at hone
  have hcount := hone.count
  rw [FatHistory.mounts_snoc] at hcount
  have hmount : msg.mount ∉ h.mounts := fun hm => by
    rw [Finset.insert_eq_of_mem hm, ← hf.count] at hcount
    exact absurd hcount (Nat.succ_ne_self _)
  refine .inl ⟨hmount, fun hmsg => ?_, hone.room⟩
  have hzero : h.mounts.card = 0 := hf.count.symm.trans (hnew.resolve_left (not_not_intro hmsg))
  rw [Finset.card_eq_zero, FatHistory.mounts, List.toFinset_eq_empty_iff] at hzero
  exact List.map_eq_nil_iff.mp hzero

/-- A message that has been given the second context was of the `NULL` mount of the
first message, and the second context was as good as the first. -/
theorem FreshHistory.fits_null (hf : FreshHistory h) (hmsg : msg.mount = .addr 0)
    (hpos : 0 < h.instances.maxInst) (hone : OneContextEach (h.next msg)) :
    FitsHistory h msg := by
  rw [hf.next_null hmsg hpos] at hone
  have hcount := hone.count
  rw [FatHistory.mounts_snoc] at hcount
  have hseen : msg.mount ∈ h.mounts := by
    by_contra hm
    rw [Finset.card_insert_of_notMem hm, ← hf.count] at hcount
    exact absurd hcount (Nat.succ_ne_self _).symm
  obtain ⟨x, rest, hh, hx⟩ := hf.first (hmsg ▸ hseen)
  have hxmem : x ∈ h.handled := hh ▸ List.mem_cons_self
  have hlast := List.mem_append_right h.handled
    (List.mem_singleton.mpr (rfl : (msg, h.instances.instances 1) = _))
  have hsame : x.2 = h.instances.instances 1 :=
    hone.same x (List.mem_append_left _ hxmem) _ hlast (hx.trans hmsg.symm)
  cases rest with
  | nil =>
      -- the second slot is still zero
      have hslot := hf.unused 1 (FatHistory.maxInst_of_single hf hh).le
      rw [hf.made x hxmem, hslot] at hsame
      have hsize : (512 : Word) = 0 := congrArg FatContext.sectorSize hsame
      exact absurd hsize (by decide)
  | cons y rest =>
      obtain ⟨hsecond, htwo⟩ := hf.second x y rest hh
      obtain ⟨a, ha, hane⟩ := Finset.exists_mem_ne (hf.count ▸ htwo) (.addr 0 : IoPtr)
      obtain ⟨z, hz, hza⟩ := FatHistory.mem_mounts.mp ha
      have hown := (hone.own z (List.mem_append_left _ hz) _ hlast
        (fun he => hane (hza.symm.trans (he.trans hmsg)))).2
      have hym : SameSource y.1 msg := by
        rw [hsecond] at hown
        exact hown
      have hxy : newContext x.1 = newContext y.1 := by rw [← hf.made x hxmem, hsame, hsecond]
      refine .inr ⟨x, y, rest, hh, hx, hmsg, ?_, hym⟩
      exact ⟨(congrArg FatContext.driver hxy).trans hym.1,
        (congrArg FatContext.filesystem hxy).trans hym.2⟩

theorem FreshHistory.fits (hf : FreshHistory h) (hone : OneContextEach (h.next msg)) :
    FitsHistory h msg := by
  by_cases hcase : msg.mount = .addr 0 ∧ 0 < h.instances.maxInst
  · exact hf.fits_null hcase.1 hcase.2 hone
  · exact hf.fits_new (by
      rw [← Nat.not_lt.trans Nat.le_zero]
      exact not_and_or.mp hcase) hone

/-- One context for each mount: every state of a run keeps it exactly if every message of
the run fits what has been handled before. -/
theorem one_context_iff {tr : List (FatHistory × IoMessage)} {h : FatHistory}
    (hrun : Steps FatHistory.step .start tr h) :
    ((∀ x ∈ tr, OneContextEach x.1) ∧ OneContextEach h) ↔ ∀ x ∈ tr, FitsHistory x.1 x.2 := by
  refine hrun.all_iff_of (fun _ hf => hf.toOneContextEach) (fun t msg t' hf hst hfits => ?_)
    (fun t msg t' hf hst hno hone => ?_) freshHistory_start
  · obtain rfl := Except.ok.inj hst
    exact hf.keep hfits
  · obtain rfl := Except.ok.inj hst
    exact hno (hf.fits hone)

/-- A message to a mount, each with a device of its own. -/
def volumeMessage (k : Fin 5) : IoMessage :=
  ⟨0, 0, .object (.filesystem 0), .object (.device k), .object (.mount k), 0, 0, .success, 0, 0⟩

theorem steps_two (h : FatHistory) (msg msg' : IoMessage) :
    Steps FatHistory.step h [(h, msg), (h.next msg, msg')] ((h.next msg).next msg') :=
  (Steps.refl.tail rfl).tail rfl

/-- Two mounts, with a context each. -/
theorem one_context_two :
    OneContextEach ((FatHistory.start.next (volumeMessage 0)).next (volumeMessage 1)) :=
  ((one_context_iff (steps_two .start (volumeMessage 0) (volumeMessage 1))).mpr (by
    rw [List.forall_mem_cons, List.forall_mem_singleton]
    exact ⟨.inl ⟨by decide, fun _ => rfl, by decide⟩,
      .inl ⟨by decide, fun h => absurd h (by decide), by decide⟩⟩)).2

/-- Two messages of one mount, and two contexts. -/
theorem one_context_twice : ∃ tr h, Steps FatHistory.step .start tr h
    ∧ tr.map Prod.snd = [volumeMessage 0, volumeMessage 0] ∧ ¬OneContextEach h :=
  ⟨_, _, steps_two .start (volumeMessage 0) (volumeMessage 0), rfl,
    fun h => absurd h.count (by decide)⟩

end SpKernel
