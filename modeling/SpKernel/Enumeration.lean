import SpKernel.Rejection

/-!
# Enumerating objects

`IO_ENUMERATE` is called with the indices 0, 1, 2 and so on until it
returns `E_OUT_OF_BOUNDS` (`Yields`). The five `_io_*_iterate` go through
the slots of a pool. Four of them yield `IOHANDLE_NULL` for a free slot,
and `_io_mp_iterate` ends there.

In a session the live objects are those in the slots that are in use
(`Tracked`, an invariant of every run of creations and deletions). So an
enumeration is complete exactly if there is no free slot in its way
(`enumeration_complete_iff`): the handles it yields are a rearrangement
of those of the live objects of the type. They may be the same handle
twice, as the router gives its handles out more than once, and this is
why the statement is about a rearrangement and not about a set.

- `yields_pool` and `yields_mounts` say what the two ways of iterating
  yield.
- `perm_filter_iff` and `takeWhile_perm_iff` say when that is all there
  is.
- A type without objects is never enumerated: its calls are not
  implemented and do not end.
-/

namespace SpKernel

open Function (update update_self update_of_ne)
open Lib

variable {io : Io} {type : IoObjType} {s s' : IoSession} {hs hs' : List IoHandle}

/-! ## Complete enumerations -/

/-- The calls return these handles with `E_SUCCESS` one after the other,
and then `E_OUT_OF_BOUNDS`. -/
structure Yields (io : Io) (type : IoObjType) (hs : List IoHandle) : Prop where
  values : ∀ (k : Nat) h, hs[k]? = some h → ioEnumerate io type k = (.success, some h)
  ends : (ioEnumerate io type hs.length).1 = .outOfBounds

/-- The live objects of a type. -/
def IoSession.ofType (s : IoSession) (type : IoObjType) : List LiveObject :=
  s.live.filter fun o => decide (o.type = type)

/-- Every live object of the type is enumerated once, and nothing else. -/
def EnumerationComplete (s : IoSession) (type : IoObjType) : Prop :=
  ∃ hs, Yields s.io type hs ∧ hs.Perm ((s.ofType type).map LiveObject.handle)

/-- No free slot gets in the way: for mounts, before one that is in use,
and for the other kinds of objects, anywhere. -/
def Gapless (io : Io) : IoObjType → Prop
  | .mount => ∀ i j, i < j → (io.mounts.slots j).handle ≠ ioHandleNull →
      (io.mounts.slots i).handle ≠ ioHandleNull
  | .filesystem => ∀ i, (io.filesystems.slots i).handle ≠ ioHandleNull
  | .device => ∀ i, (io.devices.slots i).handle ≠ ioHandleNull
  | .middleware => ∀ i, (io.middlewares.slots i).handle ≠ ioHandleNull
  | .message => ∀ i, (io.messages.slots i).handle ≠ ioHandleNull
  | .filter | .file | .unknown => False

theorem Yields.length_le (h : Yields io type hs) (h' : Yields io type hs') :
    hs'.length ≤ hs.length := by
  by_contra hlt
  have hv := h'.values hs.length _ (List.getElem?_eq_getElem (not_le.mp hlt))
  have he := h.ends
  rw [hv] at he
  cases he

theorem Yields.unique (h : Yields io type hs) (h' : Yields io type hs') : hs = hs' := by
  refine List.ext_getElem (Nat.le_antisymm (h'.length_le h) (h.length_le h')) fun k hk hk' => ?_
  have hv := h.values k _ (List.getElem?_eq_getElem hk)
  rw [h'.values k _ (List.getElem?_eq_getElem hk')] at hv
  exact (Option.some.inj (Prod.mk.inj hv).2).symm

theorem complete_iff (h : Yields s.io type hs) :
    EnumerationComplete s type ↔ hs.Perm ((s.ofType type).map LiveObject.handle) := by
  constructor
  · rintro ⟨hs', h', hp⟩
    rwa [h.unique h']
  · exact fun hp => ⟨hs, h, hp⟩

/-! ## What is enumerated -/

section Pool

variable {n : Nat} {α : Type} [IoObject α]

/-- The handle fields of the slots. -/
def Pool.handles (P : Pool n α) : List IoHandle :=
  (List.finRange n).map fun i => IoObject.handle (P.slots i)

theorem Pool.iterate_eq (P : Pool n α) (k : Nat) :
    P.iterate k = match P.handles[k]? with
      | some h => (.success, some h)
      | none => (.outOfBounds, none) := by
  rw [Pool.iterate]
  split
  · rename_i hk
    have hlt : k < n := by omega
    simp [Pool.handles, hlt]
  · rename_i hk
    have hge : n ≤ k := by omega
    simp [Pool.handles, hge]

/-- A pool with an `_io_*_iterate` that knows no free slots. -/
theorem yields_pool (P : Pool n α)
    (hP : ∀ k : Int, ioEnumerate io type k
      = ((P.iterate k).1, some ((P.iterate k).2.getD ioHandleNull))) :
    Yields io type P.handles := by
  refine ⟨fun k h hk => ?_, ?_⟩
  · simp only [hP, P.iterate_eq, hk, Option.getD_some]
  · simp only [hP, P.iterate_eq, List.getElem?_length]

end Pool

/-- The handle is that of an object. -/
def notNull (h : IoHandle) : Bool := decide (h ≠ ioHandleNull)

theorem takeWhile_next {α : Type} {p : α → Bool} {a : α} : ∀ {l : List α},
    l[(l.takeWhile p).length]? = some a → p a = false
  | [], h => by cases h
  | b :: l, h => by
      by_cases hb : p b = true
      · rw [List.takeWhile_cons_of_pos hb, List.length_cons, List.getElem?_cons_succ] at h
        exact takeWhile_next h
      · rw [List.takeWhile_cons_of_neg hb] at h
        cases h
        simpa using hb

theorem yields_mounts : Yields io .mount (io.mounts.handles.takeWhile notNull) := by
  have hmount : ∀ k : Int, ioEnumerate io .mount k
      = ((ioMpIterate io.mounts k).1, some ((ioMpIterate io.mounts k).2.getD ioHandleNull)) :=
    fun _ => rfl
  refine ⟨fun k h hk => ?_, ?_⟩
  · have hused : h ≠ ioHandleNull :=
      of_decide_eq_true (List.mem_takeWhile_imp (p := notNull) (List.mem_of_getElem? hk))
    have hget : io.mounts.handles[k]? = some h := by
      obtain ⟨hlt, rfl⟩ := List.getElem?_eq_some_iff.mp hk
      exact List.prefix_iff_getElem?.mp (List.takeWhile_prefix notNull) k hlt
    simp only [hmount, ioMpIterate, io.mounts.iterate_eq, hget, if_neg hused, Option.getD_some]
  · simp only [hmount, ioMpIterate, io.mounts.iterate_eq]
    cases hg : io.mounts.handles[(io.mounts.handles.takeWhile notNull).length]? with
    | none => rfl
    | some h =>
        have hfree : h = ioHandleNull := by
          have := takeWhile_next hg
          simpa [notNull] using this
        simp only [hfree, ↓reduceIte]

/-! ## Live objects and slots -/

/-- The live objects are those in the slots that are in use. -/
structure Tracked (s : IoSession) : Prop where
  confined : Confined s.io
  distinct : (s.live.map LiveObject.object).Nodup
  bound : ∀ o ∈ s.live, o.type = o.object.type ∧ (s.io.slot o.object).handle = o.handle
  live : ∀ r, (s.io.slot r).handle ≠ ioHandleNull ↔ ∃ o ∈ s.live, o.object = r

theorem ioInit_tracked (mm : MemMgr) : Tracked ⟨ioInit (Io.zero mm), []⟩ := by
  refine ⟨ioInit_confined mm, List.nodup_nil, by simp, fun r => ?_⟩
  refine iff_of_false (fun hne => hne ?_) (by simp)
  cases r
  all_goals rfl

theorem setEntry_slot (io : Io) (i : Fin 100) (e : IoEntry) (r : IoRef) :
    (io.setEntry i e).slot r = io.slot r := by
  cases r
  all_goals rfl

theorem Tracked.prototype (h : Tracked s) (hst : ioStep s (.prototype type) = .ok s') :
    Tracked s' := by
  have hconf := h.confined.ioStep hst
  rcases ioStep_prototype h.confined.next h.confined.first hst with
    ⟨r, hc, hlive⟩ | ⟨st, hc, hlive⟩
  · have hother : ∀ r' ≠ r, s'.io.slot r' = s.io.slot r' := fun r' hr => by
      rw [hc.others r' hr, setEntry_slot]
    have hnew : ∀ o ∈ s.live, o.object ≠ r := by
      intro o ho he
      have hused := (h.live o.object).mpr ⟨o, ho, rfl⟩
      have hfree := hc.wasFree
      rw [setEntry_slot, ← he] at hfree
      exact hused hfree
    refine ⟨hconf, ?_, fun o ho => ?_, fun r' => ?_⟩
    · rw [hlive, List.map_append, List.map_singleton, ← List.concat_eq_append]
      refine h.distinct.concat fun hmem => ?_
      obtain ⟨o, ho, he⟩ := List.mem_map.mp hmem
      exact hnew o ho he
    · rw [hlive, List.mem_append, List.mem_singleton] at ho
      rcases ho with ho | rfl
      · rw [hother o.object (hnew o ho)]
        exact h.bound o ho
      · exact ⟨hc.type.symm, hc.handle⟩
    · rw [hlive]
      simp only [List.mem_append, List.mem_singleton, or_and_right, exists_or, exists_eq_left]
      by_cases hr : r' = r
      · rw [hr, hc.handle]
        exact iff_of_true (by decide) (.inr rfl)
      · rw [hother r' hr, h.live r']
        exact (or_iff_left fun he => hr he.symm).symm
  · have hslot : ∀ r, s'.io.slot r = s.io.slot r := fun r => by
      rw [hc.slot, setEntry_slot]
    refine ⟨hconf, ?_, ?_, fun r => ?_⟩
    · rw [hlive]
      exact h.distinct
    · simp only [hlive, hslot]
      exact h.bound
    · rw [hlive, hslot]
      exact h.live r

theorem Tracked.delete {handle : IoHandle} (h : Tracked s)
    (hst : ioStep s (.delete handle) = .ok s') : Tracked s' := by
  have hconf := h.confined.ioStep hst
  rcases ioStep_delete hst with ⟨i, r, -, -, del, hlive⟩ | rfl
  · have hmem : ∀ o, o ∈ s'.live ↔ o ∈ s.live ∧ o.object ≠ r := fun o => by
      rw [hlive, List.mem_filter, decide_eq_true_eq]
    refine ⟨hconf, ?_, fun o ho => ?_, fun r' => ?_⟩
    · rw [hlive]
      exact h.distinct.sublist (List.filter_sublist.map _)
    · obtain ⟨ho, hne⟩ := (hmem o).mp ho
      rw [del.others o.object hne]
      exact h.bound o ho
    · by_cases hr : r' = r
      · rw [hr]
        refine iff_of_false (fun hne => hne del.handle) ?_
        rintro ⟨o, ho, he⟩
        exact ((hmem o).mp ho).2 he
      · rw [del.others r' hr, h.live r']
        refine exists_congr fun o => and_congr_left fun he => ?_
        rw [hmem]
        exact (and_iff_left fun hc => hr (he.symm.trans hc)).symm
  · exact h

theorem Tracked.step {c : IoCall} (h : Tracked s) (hst : ioStep s c = .ok s') : Tracked s' := by
  cases c with
  | prototype type => exact h.prototype hst
  | delete handle => exact h.delete hst

section View

variable {n : Nat} {α : Type} [IoObject α] {get : Io → Pool n α} {put : Io → Pool n α → Io}
  {ref : Fin n → IoRef} {mk : α → IoSlot}

/-- The handles of the live objects of a pool are those of its slots that
are in use. -/
theorem Tracked.perm (h : Tracked s) (v : PoolView get put ref type mk)
    (hinj : Function.Injective ref) :
    ((s.ofType type).map LiveObject.handle).Perm ((get s.io).handles.filter notNull) := by
  have hslot : ∀ i, IoObject.handle ((get s.io).slots i) = (s.io.slot (ref i)).handle := fun i => by
    rw [v.slot, v.handle]
  have hlive : (s.ofType type).map LiveObject.handle
      = ((s.ofType type).map LiveObject.object).map fun r => (s.io.slot r).handle := by
    rw [List.map_map]
    refine List.map_congr_left fun o ho => ?_
    exact (h.bound o (List.mem_of_mem_filter ho)).2.symm
  have hpool : (get s.io).handles.filter notNull
      = (((List.finRange n).filter fun i => notNull (s.io.slot (ref i)).handle).map ref).map
        fun r => (s.io.slot r).handle := by
    rw [Pool.handles, List.filter_map, List.map_map]
    simp only [Function.comp_def, hslot]
  rw [hlive, hpool]
  refine List.Perm.map _ ((List.perm_ext_iff_of_nodup ?_ ?_).mpr fun r => ?_)
  · exact h.distinct.sublist (List.filter_sublist.map _)
  · exact ((List.nodup_finRange n).filter _).map hinj
  · simp only [List.mem_map, IoSession.ofType, List.mem_filter, decide_eq_true_eq, notNull,
      List.mem_finRange, true_and]
    constructor
    · rintro ⟨o, ⟨ho, ht⟩, rfl⟩
      obtain ⟨i, hi⟩ := (v.refType o.object).mp ((h.bound o ho).1.symm.trans ht)
      refine ⟨i, ?_, hi.symm⟩
      rw [← hi]
      exact (h.live _).mpr ⟨o, ho, rfl⟩
    · rintro ⟨i, hused, rfl⟩
      obtain ⟨o, ho, he⟩ := (h.live _).mp hused
      refine ⟨o, ⟨ho, ?_⟩, he⟩
      rw [(h.bound o ho).1, he]
      exact (v.refType _).mpr ⟨i, rfl⟩

end View

/-! ## When an enumeration is complete -/

theorem perm_filter_iff {α : Type} {p : α → Bool} {l : List α} :
    l.Perm (l.filter p) ↔ ∀ a ∈ l, p a = true := by
  constructor
  · intro h
    exact List.length_filter_eq_length_iff.mp h.length_eq.symm
  · intro h
    rw [List.filter_eq_self.mpr h]

/-- Taking from the front misses nothing if what is taken comes first. -/
theorem takeWhile_perm_iff {α : Type} {p : α → Bool} {l : List α} :
    (l.takeWhile p).Perm (l.filter p) ↔ l.Pairwise fun a b => p b = true → p a = true := by
  induction l with
  | nil => simp
  | cons a l ih =>
      rw [List.pairwise_cons]
      by_cases ha : p a = true
      · rw [List.takeWhile_cons_of_pos ha, List.filter_cons_of_pos ha, List.perm_cons, ih]
        exact (and_iff_right fun _ _ _ => ha).symm
      · rw [List.takeWhile_cons_of_neg ha, List.filter_cons_of_neg ha, List.nil_perm,
          List.filter_eq_nil_iff]
        constructor
        · intro hnone
          refine ⟨fun b hb hpb => absurd hpb (hnone b hb), ?_⟩
          exact List.pairwise_of_forall_mem_list fun _ _ b hb hpb => absurd hpb (hnone b hb)
        · intro hall b hb hpb
          exact ha (hall.1 b hb hpb)

section View

variable {n : Nat} {α : Type} [IoObject α] {get : Io → Pool n α} {put : Io → Pool n α → Io}
  {ref : Fin n → IoRef} {mk : α → IoSlot}

theorem Tracked.pool_iff (h : Tracked s) (v : PoolView get put ref type mk)
    (hinj : Function.Injective ref)
    (hP : ∀ k : Int, ioEnumerate s.io type k
      = (((get s.io).iterate k).1, some (((get s.io).iterate k).2.getD ioHandleNull))) :
    EnumerationComplete s type
      ↔ ∀ i, IoObject.handle ((get s.io).slots i) ≠ ioHandleNull := by
  rw [complete_iff (yields_pool (get s.io) hP), (h.perm v hinj).congr_right, perm_filter_iff]
  simp only [Pool.handles, List.forall_mem_map, List.mem_finRange, forall_const, notNull,
    decide_eq_true_eq]

end View

theorem Tracked.mounts_iff (h : Tracked s) :
    EnumerationComplete s .mount ↔ Gapless s.io .mount := by
  rw [complete_iff yields_mounts, (h.perm mountView fun _ _ => IoRef.mount.inj).congr_right,
    takeWhile_perm_iff, Pool.handles, ← List.ofFn_eq_map, List.pairwise_ofFn]
  simp only [notNull, decide_eq_true_eq]
  exact Iff.rfl

/-- In every state of a session after `IO_INIT`, enumerating the objects of
a type is complete exactly if no free slot gets in the way. -/
theorem enumeration_complete_iff {mm : MemMgr} {tr : List (IoSession × IoCall)}
    (hrun : Steps ioStep ⟨ioInit (Io.zero mm), []⟩ tr s) (type : IoObjType) :
    EnumerationComplete s type ↔ Gapless s.io type := by
  have h : Tracked s := hrun.inv (fun _ _ _ ht hst => ht.step hst) (ioInit_tracked mm)
  have hnone : ∀ t, (∀ k, ioEnumerate s.io t k = (.notImplemented, none)) →
      ¬EnumerationComplete s t := by
    rintro t ht ⟨hs, hy, -⟩
    have he := hy.ends
    rw [ht] at he
    cases he
  cases type with
  | mount => exact h.mounts_iff
  | filesystem =>
      exact h.pool_iff filesystemView (fun _ _ => IoRef.filesystem.inj) fun _ => rfl
  | device => exact h.pool_iff deviceView (fun _ _ => IoRef.device.inj) fun _ => rfl
  | middleware =>
      exact h.pool_iff middlewareView (fun _ _ => IoRef.middleware.inj) fun _ => rfl
  | message => exact h.pool_iff messageView (fun _ _ => IoRef.message.inj) fun _ => rfl
  | filter => exact iff_of_false (hnone .filter fun _ => rfl) id
  | file => exact iff_of_false (hnone .file fun _ => rfl) id
  | unknown => exact iff_of_false (hnone .unknown fun _ => rfl) id

/-- Two mounts are made, with a message in between, and both are enumerated. -/
theorem enumeration_complete_mounts : ∃ tr s, Steps ioStep ⟨ioInit (Io.zero lowPageUsed), []⟩ tr s
    ∧ tr.map Prod.snd = [.prototype .mount, .prototype .message, .prototype .mount]
    ∧ (s.ofType .mount).length = 2 ∧ EnumerationComplete s .mount := by
  have ht : okAnd (run ioStep ⟨ioInit (Io.zero lowPageUsed), []⟩
      [.prototype .mount, .prototype .message, .prototype .mount]) (fun s =>
      decide ((s.ofType .mount).length = 2)
        && decide (∀ i j, i < j → (s.io.mounts.slots j).handle ≠ ioHandleNull →
          (s.io.mounts.slots i).handle ≠ ioHandleNull)) = true := by
    decide +kernel
  obtain ⟨tr, s, hrun, hes, ht⟩ := steps_of_test ht
  rw [Bool.and_eq_true, decide_eq_true_eq, decide_eq_true_eq] at ht
  exact ⟨tr, s, hrun, hes, ht.1, (enumeration_complete_iff hrun .mount).mpr ht.2⟩

/-- A complete enumeration of one object ends after it. -/
theorem EnumerationComplete.one {o : LiveObject} (h : EnumerationComplete s type)
    (hlive : s.live = [o]) (ho : o.type = type) :
    (ioEnumerate s.io type 0).1 = .success ∧ (ioEnumerate s.io type 1).1 = .outOfBounds := by
  obtain ⟨hs, hy, hp⟩ := h
  have hof : s.ofType type = [o] := by
    simp only [IoSession.ofType, hlive, List.filter_cons, ho, decide_true, ↓reduceIte,
      List.filter_nil]
  rw [hof, List.map_singleton, List.perm_singleton] at hp
  subst hp
  exact ⟨congrArg Prod.fst (hy.values 0 _ rfl), hy.ends⟩

/-- With one device, the second call yields a handle that is null. After a
mount has been deleted, the next one has a free slot in front of it and is
not enumerated. -/
theorem enumeration_astray :
    (∃ tr s, Steps ioStep ⟨ioInit (Io.zero lowPageUsed), []⟩ tr s
      ∧ tr.map Prod.snd = [.prototype .device] ∧ s.live = [⟨1, .device, .device 0⟩]
      ∧ ioEnumerate s.io .device 1 = (.success, some ioHandleNull)
      ∧ ¬EnumerationComplete s .device)
    ∧ ∃ tr s, Steps ioStep ⟨ioInit (Io.zero lowPageUsed), []⟩ tr s
      ∧ tr.map Prod.snd = [.prototype .mount, .delete 1, .prototype .mount]
      ∧ s.live = [⟨1, .mount, .mount 1⟩]
      ∧ ioEnumerate s.io .mount 0 = (.outOfBounds, some ioHandleNull)
      ∧ ¬EnumerationComplete s .mount := by
  constructor
  · have ht : okAnd (run ioStep ⟨ioInit (Io.zero lowPageUsed), []⟩ [.prototype .device]) (fun s =>
        decide (s.live = [⟨1, .device, .device 0⟩])
          && decide (ioEnumerate s.io .device 1 = (.success, some ioHandleNull))) = true := by
      decide +kernel
    obtain ⟨tr, s, hs, hes, ht⟩ := steps_of_test ht
    rw [Bool.and_eq_true, decide_eq_true_eq, decide_eq_true_eq] at ht
    refine ⟨tr, s, hs, hes, ht.1, ht.2, fun hc => ?_⟩
    cases (congrArg Prod.fst ht.2).symm.trans (hc.one ht.1 rfl).2
  · have ht : okAnd (run ioStep ⟨ioInit (Io.zero lowPageUsed), []⟩
        [.prototype .mount, .delete 1, .prototype .mount]) (fun s =>
          decide (s.live = [⟨1, .mount, .mount 1⟩])
            && decide (ioEnumerate s.io .mount 0 = (.outOfBounds, some ioHandleNull))) = true := by
      decide +kernel
    obtain ⟨tr, s, hs, hes, ht⟩ := steps_of_test ht
    rw [Bool.and_eq_true, decide_eq_true_eq, decide_eq_true_eq] at ht
    refine ⟨tr, s, hs, hes, ht.1, ht.2, fun hc => ?_⟩
    cases (congrArg Prod.fst ht.2).symm.trans (hc.one ht.1 rfl).1

end SpKernel
