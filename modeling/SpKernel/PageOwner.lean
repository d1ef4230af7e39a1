import SpKernel.FileOpen

/-!
# The pages of the I/O layer

Every string of an object is on a page of its own. `Owns` says that the
I/O layer has obtained these pages, has not given them back, and has
never given back a page it did not have. An update of a string keeps this
(`Owns.setString`), and so does `IO_DELETE` if all strings of the object
are set: a string that is not is `NULL`, and `IO_DELETE` frees that too.

`Owns` is about pages held, the pages that the rest of the system has,
and the strings of all objects, so its rules are about one page that is
taken or given back, whoever does it (`Owns.get`, `Owns.drop`,
`Owns.others_get`, `Owns.others_free`). `Owned` is the invariant of the
I/O layer with its objects. Each call of the router keeps it, and so do
the file calls, which are sequences of router calls: `Ensures` is a rule
for such sequences, by which their error paths need no argument of their
own.

`io_pages_sound` puts the calls together, with any use of the allocator
by others in between, under the condition that an object which is deleted
has all of its strings (`DeletesNamed`). `io_pages_null` is a run of two
calls by which page 0 is given back.
-/

namespace SpKernel

open Function (update update_self update_of_ne)
open Lib

/-! ## Holding pages -/

section Owns

variable {mm₀ mm mm' : MemMgr} {held held' others : List Word} {p : Word}

theorem Held.perm (h : Held mm₀ ⟨mm, held⟩) (hp : held.Perm held') : Held mm₀ ⟨mm, held'⟩ :=
  ⟨h.cursor, hp.nodup_iff.mp h.nodup, fun a ha => h.aligned a (hp.mem_iff.mpr ha),
    fun a ha => h.marked a (hp.mem_iff.mpr ha), fun a ha => h.fresh a (hp.mem_iff.mpr ha), h.kept⟩

/-- The I/O layer holds the pages of its ledger, others hold theirs, and
every string that is not `NULL` is on a page of its own. Strings have
names of any type. -/
structure Owns {κ : Type} (mm₀ : MemMgr) (others : List Word) (mm : MemMgr)
    (pages : List PageCall) (string : κ → Option Word) : Prop where
  held : Held mm₀ ⟨mm, holdings pages ++ others⟩
  balanced : Balanced pages
  /-- `NULL` is not a page that can be had. -/
  low : patBit mm₀ 0 = true
  /-- There are no other pages in use than those. -/
  marked : ∀ n, patBit mm n = true →
    patBit mm₀ n = true ∨ ∃ p ∈ holdings pages ++ others, pageOf p = n
  strings : ∀ {k p}, string k = some p → p ≠ 0 → p ∈ holdings pages
  apart : ∀ {k k' p}, string k = some p → string k' = some p → p ≠ 0 → k = k'

variable {κ : Type} {pages : List PageCall} {string string' : κ → Option Word} {k : κ}

theorem Owns.mono (h : Owns mm₀ others mm pages string)
    (hs : ∀ k p, string' k = some p → p ≠ 0 → string k = some p) :
    Owns mm₀ others mm pages string' :=
  ⟨h.held, h.balanced, h.low, h.marked, fun hk hp => h.strings (hs _ _ hk hp) hp,
    fun hk hk' hp => h.apart (hs _ _ hk hp) (hs _ _ hk' hp) hp⟩

theorem Owns.setMem (h : Owns mm₀ others mm pages string) (m : Mem) :
    Owns mm₀ others { mm with mem := m } pages string :=
  ⟨⟨h.held.cursor, h.held.nodup, h.held.aligned, h.held.marked, h.held.fresh, h.held.kept⟩,
    h.balanced, h.low, h.marked, h.strings, h.apart⟩

theorem Owns.ne_zero (h : Owns mm₀ others mm pages string) (hp : p ∈ holdings pages) :
    p ≠ 0 := by
  rintro rfl
  have hfresh := h.held.fresh 0 (List.mem_append_left _ hp)
  rw [show pageOf 0 = 0 from rfl, h.low] at hfresh
  cases hfresh

theorem Owns.marked_get (h : Owns mm₀ others mm pages string)
    (hget : getNextPage mm = .ok (p, mm')) (n : Nat) (hn : patBit mm' n = true) :
    patBit mm₀ n = true ∨ ∃ q ∈ p :: (holdings pages ++ others), pageOf q = n := by
  rw [(taken_of_ok h.held.cursor hget).bits, Bool.or_eq_true, decide_eq_true_eq] at hn
  rcases hn with rfl | hn
  · exact .inr ⟨p, List.mem_cons_self .., rfl⟩
  · refine (h.marked n hn).imp id ?_
    rintro ⟨q, hq, hqn⟩
    exact ⟨q, List.mem_cons_of_mem _ hq, hqn⟩

theorem Owns.marked_free (h : Owns mm₀ others mm pages string)
    (hp : p ∈ holdings pages ++ others) (n : Nat) (hn : patBit (freePage mm p).2 n = true) :
    patBit mm₀ n = true ∨ ∃ q ∈ (holdings pages ++ others).erase p, pageOf q = n := by
  rw [freePage_aligned (h.held.aligned p hp), patBit_clear, Bool.and_eq_true,
    Bool.not_eq_true', decide_eq_false_iff_not] at hn
  refine (h.marked n hn.2).imp id ?_
  rintro ⟨q, hq, rfl⟩
  exact ⟨q, h.held.nodup.mem_erase_iff.mpr ⟨fun he => hn.1 (he ▸ rfl), hq⟩, rfl⟩

theorem Owns.get (h : Owns mm₀ others mm pages string) (hget : getNextPage mm = .ok (p, mm')) :
    Owns mm₀ others mm' (pages ++ [.got p]) string ∧ ∀ k, string k ≠ some p := by
  have hheld : Held mm₀ ⟨mm', p :: (holdings pages ++ others)⟩ := h.held.get hget
  have hown : Owns mm₀ others mm' (pages ++ [.got p]) string := by
    refine ⟨?_, h.balanced.concat fun a ha => ?_, h.low, ?_, fun hk hp => ?_, h.apart⟩
    · rw [holdings_concat]
      exact hheld
    · cases ha
    · rw [holdings_concat]
      exact h.marked_get hget
    · rw [holdings_concat]
      exact List.mem_cons_of_mem _ (h.strings hk hp)
  refine ⟨hown, fun k hk => ?_⟩
  have hne : p ≠ 0 := hown.ne_zero (by rw [holdings_concat]; exact List.mem_cons_self ..)
  exact (List.nodup_cons.mp hheld.nodup).1 (List.mem_append_left _ (h.strings hk hne))

theorem Owns.assign [DecidableEq κ] (h : Owns mm₀ others mm pages string)
    (hp : p ∈ holdings pages) (hnew : ∀ k, string k ≠ some p) (k : κ) :
    Owns mm₀ others mm pages (update string k (some p)) := by
  refine ⟨h.held, h.balanced, h.low, h.marked, fun {k' q} hk hq => ?_,
    fun {k' k'' q} hk hk' hq => ?_⟩
  · by_cases hkk : k' = k
    · rw [hkk, update_self] at hk
      exact Option.some.inj hk ▸ hp
    · rw [update_of_ne hkk] at hk
      exact h.strings hk hq
  · by_cases hkk : k' = k <;> by_cases hkk' : k'' = k
    · rw [hkk, hkk']
    · rw [hkk, update_self] at hk
      rw [update_of_ne hkk', ← Option.some.inj hk] at hk'
      exact absurd hk' (hnew k'')
    · rw [hkk', update_self] at hk'
      rw [update_of_ne hkk, ← Option.some.inj hk'] at hk
      exact absurd hk (hnew k')
    · rw [update_of_ne hkk] at hk
      rw [update_of_ne hkk'] at hk'
      exact h.apart hk hk' hq

theorem Owns.drop [DecidableEq κ] (h : Owns mm₀ others mm pages string)
    (hk : string k = some p) (hp : p ≠ 0) :
    Owns mm₀ others (freeIo mm p) (pages ++ [.freed p]) (update string k (some 0)) := by
  have hmem := h.strings hk hp
  have hheld := h.held.free (List.mem_append_left others hmem)
  have hmarked := h.marked_free (List.mem_append_left others hmem)
  have hnodup := (List.nodup_append.mp h.held.nodup).1
  rw [List.erase_append_left _ hmem] at hheld hmarked
  refine ⟨?_, h.balanced.concat fun a ha => ?_, h.low, ?_, fun {k' q} hk' hq => ?_,
    fun {k' k'' q} hk' hk'' hq => ?_⟩
  · rw [holdings_concat]
    exact hheld
  · cases ha
    exact hmem
  · rw [holdings_concat]
    exact hmarked
  · have hne : k' ≠ k := by
      rintro rfl
      rw [update_self] at hk'
      exact hq (Option.some.inj hk').symm
    rw [update_of_ne hne] at hk'
    rw [holdings_concat]
    refine (hnodup.mem_erase_iff).mpr ⟨?_, h.strings hk' hq⟩
    rintro rfl
    exact hne (h.apart hk' hk hq)
  · have hne : ∀ {j}, update string k (some 0) j = some q → j ≠ k := by
      rintro j hj rfl
      rw [update_self] at hj
      exact hq (Option.some.inj hj).symm
    have h1 := hne hk'
    have h2 := hne hk''
    rw [update_of_ne h1] at hk'
    rw [update_of_ne h2] at hk''
    exact h.apart hk' hk'' hq

theorem Owns.others_get (h : Owns mm₀ others mm pages string)
    (hget : getNextPage mm = .ok (p, mm')) : Owns mm₀ (p :: others) mm' pages string := by
  have hperm : (p :: (holdings pages ++ others)).Perm (holdings pages ++ p :: others) :=
    List.perm_middle.symm
  refine ⟨(h.held.get hget).perm hperm, h.balanced, h.low, fun n hn => ?_, h.strings, h.apart⟩
  refine (h.marked_get hget n hn).imp id ?_
  rintro ⟨q, hq, hqn⟩
  exact ⟨q, hperm.mem_iff.mp hq, hqn⟩

theorem Owns.others_free (h : Owns mm₀ others mm pages string) (hp : p ∈ others) :
    Owns mm₀ (others.erase p) (freePage mm p).2 pages string := by
  have hnot : p ∉ holdings pages := fun hm =>
    (List.nodup_append.mp h.held.nodup).2.2 p hm p hp rfl
  have hmem := List.mem_append_right (holdings pages) hp
  have hheld := h.held.free hmem
  have hmarked := h.marked_free hmem
  simp only [List.erase_append_right _ hnot] at hheld hmarked
  exact ⟨hheld, h.balanced, h.low, hmarked, h.strings, h.apart⟩

end Owns

/-! ## Setting a string -/

section Strings

variable {mm₀ mm mm' : MemMgr} {others : List Word} {κ : Type} [DecidableEq κ]
  {pages : List PageCall} {string : κ → Option Word} {k : κ} {o : IoAny} {which : IoProp}
  {old value p : Word} {length : Int} {room : Nat}

theorem setString_ok (h : setString mm old value room = .ok (p, mm')) :
    ∃ mm₁ m, stringSpace mm old room = .ok (p, mm₁) ∧ mm' = { mm₁ with mem := m } := by
  obtain ⟨⟨p₁, mm₁⟩, hs, h⟩ := bind_eq_ok.mp h
  obtain ⟨m, -, h⟩ := bind_eq_ok.mp h
  cases h
  exact ⟨mm₁, m, hs, rfl⟩

theorem mallocIo_succ (n : Nat) : mallocIo mm (n + 1) = getNextPage mm := by
  rw [mallocIo, if_neg (Nat.succ_ne_zero n)]

theorem Owns.setString (h : Owns mm₀ others mm pages string) (hk : string k = some old)
    (hs : SetString mm o which value length old p room mm') :
    Owns mm₀ others mm' (pages ++ o.pageCalls mm which value length (o.withString which p))
        (update string k (some p)) ∧ p ≠ 0 := by
  obtain ⟨mm₁, m, hspace, rfl⟩ := setString_ok hs.set
  have hcalls : o.pageCalls mm which value length (o.withString which p)
      = if old = 0 then [.got p] else match strlen mm.mem old with
        | .ok n => if n < room then [.freed old, .got p] else []
        | .error _ => [] := by
    have hlen : ¬(length < 0 ∨ o.handle < 0) := by
      rintro (hl | hh)
      · exact absurd hl (not_lt.mpr hs.nonneg)
      · exact absurd hh (not_lt.mpr hs.handle)
    simp only [IoAny.pageCalls, hs.string, IoAny.withString_self hs.string, if_neg hlen,
      hs.roomFor]
    split
    · rfl
    · cases strlen mm.mem old
      · rfl
      · rfl
  have hnew : ∀ {log : List PageCall}, p ∈ holdings (log ++ [.got p]) := by
    intro log
    rw [holdings_concat]
    exact List.mem_cons_self ..
  rw [stringSpace] at hspace
  rw [hcalls]
  by_cases h0 : old = 0
  · rw [if_pos h0, mallocIo_succ] at hspace
    rw [if_pos h0]
    obtain ⟨hown, hfree⟩ := h.get hspace
    exact ⟨(hown.assign hnew hfree k).setMem m, hown.ne_zero hnew⟩
  · rw [if_neg h0] at hspace
    obtain ⟨n, hn, hspace⟩ := bind_eq_ok.mp hspace
    rw [if_neg h0, hn]
    by_cases hlt : n < room
    · simp only [if_pos hlt, mallocIo_succ] at hspace ⊢
      obtain ⟨hown, hfree⟩ := (h.drop hk h0).get hspace
      have hset := (hown.assign hnew hfree k).setMem m
      rw [Function.update_idem, List.append_assoc] at hset
      exact ⟨hset, hown.ne_zero hnew⟩
    · simp only [if_neg hlt, List.append_nil] at hspace ⊢
      cases hspace
      rw [← hk, Function.update_eq_self]
      exact ⟨h.setMem m, h0⟩

end Strings

/-! ## Creating objects -/

/-- The strings of all objects. -/
def Io.string (io : Io) (k : IoRef × IoProp) : Option Word := (io.object k.1).string k.2

theorem string_mm (io : Io) (mm : MemMgr) : ({ io with mm := mm } : Io).string = io.string := by
  funext k
  rw [Io.string, object_mm]
  rfl

/-- No string but those there were before. -/
def NoNewString (io io' : Io) : Prop :=
  ∀ k p, io'.string k = some p → p ≠ 0 → io.string k = some p

/-- Only the second entry is ever used. -/
structure OneEntry (io : Io) : Prop where
  next : io.next = 0
  first : (io.table 0).handle = ioHandleNull
  unused : ∀ i : Fin 100, i ≠ 1 → (io.table i).handle ≠ (i.val : Int)

section Create

variable {n : Nat} [NeZero n] {α : Type} [IoObject α] {get : Io → Pool n α}
  {put : Io → Pool n α → Io} {ref : Fin n → IoRef} {type : IoObjType} {mk : α → IoSlot}
  {io io' : Io} {handle h' : IoHandle} {st : Status}

theorem construct_string (v : PoolView get put ref type mk)
    (hmm : ∀ io P, (put io P).mm = io.mm)
    (hinit : ∀ h w p, (mk (IoObject.initHandle h)).any.string w = some p → p = 0)
    (h : construct (get io) ref put io handle = .ok (st, h', io')) :
    io'.mm = io.mm ∧ NoNewString io io' := by
  rw [construct] at h
  rcases grabNext_spec (get io) with ⟨i, P, hg, -, hkeep⟩ | ⟨hg, -⟩
  · simp only [hg, liftFault, Except.mapError, ok_bind] at h
    obtain ⟨j, -, h⟩ := bind_eq_ok.mp h
    cases h
    refine ⟨hmm .., fun k p hk hp => ?_⟩
    obtain ⟨r, w⟩ := k
    simp only [Io.string, object_eq_slot] at hk ⊢
    change ((put io (P.set i (IoObject.initHandle handle))).slot r).any.string w = some p at hk
    by_cases hr : r = ref i
    · rw [hr, v.putSlot, Pool.set_self] at hk
      exact absurd (hinit _ _ _ hk) hp
    · have hslot : (put io (P.set i (IoObject.initHandle handle))).slot r = io.slot r := by
        refine v.put_same fun i' hi' => ?_
        have hne : i' ≠ i := fun he => hr (hi'.trans (he ▸ rfl))
        rw [Pool.set_other _ _ hne, hkeep i' hne]
      rwa [hslot] at hk
  · simp only [hg, liftFault, Except.mapError, ok_bind] at h
    cases h
    refine ⟨hmm .., fun k p hk _ => ?_⟩
    simp only [Io.string, object_eq_slot] at hk ⊢
    rwa [v.put_same fun _ _ => rfl] at hk

end Create

section Objects

variable {io io' : Io} {type : IoObjType} {handle h' : IoHandle} {st : Status}

theorem constructAs_string (h : constructAs io type handle = .ok (st, h', io')) :
    io'.mm = io.mm ∧ NoNewString io io' := by
  cases type with
  | filesystem =>
      refine construct_string filesystemView (fun _ _ => rfl) (fun h w p hw => ?_) h
      cases w
      all_goals cases hw
      rfl
  | device =>
      refine construct_string deviceView (fun _ _ => rfl) (fun h w p hw => ?_) h
      cases w
      all_goals cases hw
      rfl
  | middleware =>
      refine construct_string middlewareView (fun _ _ => rfl) (fun h w p hw => ?_) h
      cases w
      all_goals cases hw
      rfl
  | message =>
      refine construct_string messageView (fun _ _ => rfl) (fun h w p hw => ?_) h
      cases w
      all_goals cases hw
      rfl
  | mount =>
      refine construct_string mountView (fun _ _ => rfl) (fun h w p hw => ?_) h
      cases w
      all_goals cases hw
      all_goals rfl
  | _ =>
      cases h
      exact ⟨rfl, fun _ _ hk _ => hk⟩

theorem SameStrings.string_eq {o o' : IoAny} (h : SameStrings o o') (w : IoProp) :
    o'.string w = o.string w := by
  obtain ⟨ht, -, hs⟩ := h
  cases o
  all_goals
    cases o'
    all_goals cases ht
    simp only [IoAny.strings, List.cons.injEq, and_true] at hs
    cases w
    all_goals simp only [IoAny.string, hs]

theorem putObject_string {r : IoRef} {o : IoAny} {mm : MemMgr} (ht : o.type = r.type)
    (k : IoRef × IoProp) : ({ io.putObject r o with mm := mm } : Io).string k
      = if k.1 = r then o.string k.2 else io.string k := by
  rw [string_mm, Io.string]
  split
  · rename_i hr
    rw [hr, putObject_self ht]
  · rename_i hr
    rw [putObject_other hr]
    rfl

theorem OneEntry.same (h : OneEntry io) (hs : SameTables io io') : OneEntry io' := by
  refine ⟨hs.next.trans h.next, ?_, fun i hi => ?_⟩
  · rw [hs.table]
    exact h.first
  · rw [hs.table]
    exact h.unused i hi

theorem OneEntry.valid (h : OneEntry io) {i : Fin 100} (hi : tableIndex handle = .ok i)
    (hh : (io.table i).handle = handle) : i = 1 := by
  by_contra hne
  exact h.unused i hne (hh.trans (tableIndex_eq.mp hi))

theorem OneEntry.others (h : OneEntry io) (hn : io'.next = io.next)
    (ht : ∀ i, i ≠ 1 → io'.table i = io.table i) : OneEntry io' := by
  refine ⟨hn.trans h.next, ?_, fun i hi => ?_⟩
  · rw [ht 0 (by decide)]
    exact h.first
  · rw [ht i hi]
    exact h.unused i hi

theorem OneEntry.prototype (h : OneEntry io) (hp : ioPrototype io type = .ok (st, h', io')) :
    OneEntry io' := by
  rcases ioPrototype_spec h.next h.first type with ⟨r, io₁, he, hc⟩ | ⟨st₁, io₁, he, hc⟩
  · rw [he] at hp
    cases hp
    refine h.others hc.next fun i hi => ?_
    rw [hc.table, update_of_ne hi]
    exact update_of_ne hi ..
  · rw [he] at hp
    cases hp
    refine h.others hc.next fun i hi => ?_
    rw [hc.table]
    exact update_of_ne hi ..

end Objects

/-! ## What the calls keep -/

/-- The state of the I/O layer between any two calls. -/
structure Owned (mm₀ : MemMgr) (others : List Word) (fs : FileSys) : Prop where
  owns : Owns mm₀ others fs.io.mm fs.pages fs.io.string
  entries : OneEntry fs.io

section Owned

variable {mm₀ : MemMgr} {others : List Word} {fs fs' : FileSys} {type : IoObjType}
  {handle h' : IoHandle} {st : Status} {which : IoProp} {value : Word} {length : Int}

theorem Owned.prototype (h : Owned mm₀ others fs) (hp : fs.prototype type = .ok (st, h', fs')) :
    Owned mm₀ others fs' := by
  obtain ⟨⟨st₁, h₁, io₁⟩, hio, hp⟩ := bind_eq_ok.mp hp
  cases hp
  have hio := liftIo_ok.mp hio
  refine ⟨?_, h.entries.prototype hio⟩
  rw [ioPrototype_first h.entries.next h.entries.first] at hio
  obtain ⟨hmm, hnew⟩ := constructAs_string hio
  have hmm' : io₁.mm = fs.io.mm := hmm
  change Owns mm₀ others io₁.mm fs.pages io₁.string
  rw [hmm']
  refine h.owns.mono fun k p hk hp => ?_
  have hold := hnew k p hk hp
  obtain ⟨r, w⟩ := k
  cases r
  all_goals exact hold

theorem Owns.putBack {io : Io} {r : IoRef} {o : IoAny} {mm mm' : MemMgr} {pages : List PageCall}
    (h : Owns mm₀ others mm pages io.string) (ht : o.type = r.type)
    (hs : SameStrings (io.object r) o) :
    Owns mm₀ others mm pages ({ io.putObject r o with mm := mm' } : Io).string := by
  refine h.mono fun k p hk _ => ?_
  rw [putObject_string ht] at hk
  split at hk
  · rename_i hr
    rw [Io.string, hr, ← hk, hs.string_eq]
  · exact hk

theorem Owned.update (h : Owned mm₀ others fs)
    (hu : fs.update handle which value length = .ok (st, fs')) : Owned mm₀ others fs' := by
  have hsame := update_unmoved hu
  obtain ⟨calls, io₁, hio, rfl⟩ := update_ok hu
  refine ⟨?_, h.entries.same hsame.tables⟩
  rcases ioUpdate_inv hio with ⟨rfl, rfl, -⟩ | ⟨i, r, o, mm', -, hset, rfl, rfl⟩
  · simpa using h.owns
  · have ht : o.type = r.type := (setprop_same hset).1.trans (object_type fs.io r)
    cases hs : (fs.io.object r).string which with
    | none =>
        obtain ⟨rfl, hstrings⟩ := setprop_other hset hs
        simp only [IoAny.pageCalls, hs, List.append_nil]
        exact h.owns.putBack ht hstrings
    | some old =>
        rcases setprop_str hset hs with ⟨p, room, hsetstr, -, rfl⟩ | ⟨-, rfl, rfl, hneg⟩
        · refine (h.owns.setString (k := (r, which)) hs hsetstr).1.mono fun k q hk _ => ?_
          rw [putObject_string ht] at hk
          obtain ⟨r', w⟩ := k
          by_cases hr : r' = r
          · subst hr
            rw [if_pos rfl] at hk
            rcases IoAny.withString_cases hs hk with ⟨rfl, rfl⟩ | ⟨hw, hk⟩
            · exact update_self ..
            · rw [update_of_ne fun he => hw (Prod.mk.inj he).2]
              exact hk
          · rw [if_neg hr] at hk
            rw [update_of_ne fun he => hr (Prod.mk.inj he).1]
            exact hk
        · simp only [IoAny.pageCalls, hs, if_pos hneg, List.append_nil]
          exact h.owns.putBack ht .rfl

/-- If the handle has an object, all strings of the object are set. -/
def Named (io : Io) (handle : IoHandle) : Prop :=
  ioHandleIsValid io handle = true → ∀ r, io.objectOf handle = some r →
    ∀ p ∈ (io.object r).strings, p ≠ 0

/-- The pages that go when all strings of an object are freed. -/
theorem Owns.freeStrings {io : Io} {r : IoRef} {mm : MemMgr} {pages : List PageCall}
    (h : Owns mm₀ others mm pages io.string) (hp : ∀ p ∈ (io.object r).strings, p ≠ 0) :
    ∃ string', Owns mm₀ others ((io.object r).strings.foldl freeIo mm)
        (pages ++ (io.object r).strings.map .freed) string'
      ∧ ∀ k, k.1 ≠ r → string' k = io.string k := by
  have hother : ∀ {w : IoProp} {k : IoRef × IoProp}, k.1 ≠ r → k ≠ (r, w) := by
    rintro w k hk rfl
    exact hk rfl
  have hone : ∀ w p, io.string (r, w) = some p → (io.object r).strings = [p] → ∃ string',
      Owns mm₀ others ((io.object r).strings.foldl freeIo mm)
        (pages ++ (io.object r).strings.map .freed) string'
      ∧ ∀ k, k.1 ≠ r → string' k = io.string k := by
    intro w p hw hs
    rw [hs] at hp ⊢
    exact ⟨_, h.drop hw (hp p (List.mem_singleton.mpr rfl)), fun k hk =>
      update_of_ne (hother hk) ..⟩
  cases r with
  | filesystem i => exact hone .name _ rfl rfl
  | device i => exact hone .name _ rfl rfl
  | middleware i => exact hone .name _ rfl rfl
  | message i => exact hone .path _ rfl rfl
  | mount i =>
      have hname : io.string (.mount i, .name) = some (io.mounts.slots i).name := rfl
      have hpath : io.string (.mount i, .path) = some (io.mounts.slots i).path := rfl
      have h₁ := h.drop hname (hp _ (by simp [Io.object, IoAny.strings]))
      have h₂ := h₁.drop (k := (.mount i, .path)) ((update_of_ne (by simp) ..).trans hpath)
        (hp _ (by simp [Io.object, IoAny.strings]))
      rw [List.append_assoc] at h₂
      refine ⟨_, h₂, fun k hk => ?_⟩
      rw [update_of_ne (hother hk), update_of_ne (hother hk)]

/-- What `IO_DELETE` does to the strings of the object. -/
theorem deleteObject_strings {io io' : Io} {e : IoEntry}
    (h : deleteObject io e = .ok (some io')) :
    ∃ r, e.object = some r ∧ io'.mm = (io.object r).strings.foldl freeIo io.mm
      ∧ ∀ p ∈ (io'.object r).strings, p = 0 := by
  rw [deleteObject] at h
  split at h
  · rename_i i ht ho
    cases h
    exact ⟨_, ho, rfl, by simp [Io.object, IoAny.strings, IoObject.initHandle]⟩
  · rename_i i ht ho
    cases h
    exact ⟨_, ho, rfl, by simp [Io.object, IoAny.strings, IoObject.initHandle]⟩
  · rename_i i ht ho
    cases h
    exact ⟨_, ho, rfl, by simp [Io.object, IoAny.strings, IoObject.initHandle]⟩
  · rename_i i ht ho
    cases h
    exact ⟨_, ho, rfl, by simp [Io.object, IoAny.strings, IoObject.initHandle]⟩
  · rename_i i ht ho
    cases h
    exact ⟨_, ho, rfl, by simp [Io.object, IoAny.strings, IoObject.initHandle]⟩
  all_goals cases h

theorem string_mem {o : IoAny} {w : IoProp} {p : Word} (h : o.string w = some p) :
    p ∈ o.strings := by
  unfold IoAny.string at h
  split at h
  all_goals cases h
  all_goals simp [IoAny.strings]

theorem Owned.delete (h : Owned mm₀ others fs) (hn : Named fs.io handle)
    (hd : fs.delete handle = .ok (st, fs')) : Owned mm₀ others fs' := by
  obtain ⟨⟨st₁, io₁⟩, hio, hd⟩ := bind_eq_ok.mp hd
  cases hd
  have hio := liftIo_ok.mp hio
  rw [ioDelete] at hio
  by_cases hv : ioHandleIsValid fs.io handle = true
  · rw [if_pos hv] at hio
    obtain ⟨i, hi, hh⟩ := ioHandleIsValid_eq.mp hv
    obtain rfl := h.entries.valid hi hh
    rw [hi, ok_bind] at hio
    obtain ⟨x, hx, hio⟩ := bind_eq_ok.mp hio
    cases x with
    | none =>
        cases hio
        simpa using h
    | some io₂ =>
        cases hio
        obtain ⟨r, ho, hmm, hzero⟩ := deleteObject_strings hx
        obtain ⟨r', ho', -, -, hothers, htab, hnext⟩ := deleteObject_spec hx
        obtain rfl := Option.some.inj (ho.symm.trans ho')
        have hobj : fs.io.objectOf handle = some r := by simp only [Io.objectOf, hi, ho]
        obtain ⟨string', hown, hstring⟩ := h.owns.freeStrings (hn hv r hobj)
        rw [← hmm] at hown
        refine ⟨?_, h.entries.others hnext fun i hi => ?_⟩
        · simp only [↓reduceIte, deleteCalls, hobj]
          refine hown.mono fun k p hk hp => ?_
          by_cases hkr : k.1 = r
          · have hk' : (io₂.object k.1).string k.2 = some p := hk
            rw [hkr] at hk'
            exact absurd (hzero p (string_mem hk')) hp
          · rw [hstring k hkr, Io.string, object_eq_slot, ← hothers k.1 hkr, ← object_eq_slot]
            exact hk
        · exact (update_of_ne hi ..).trans (by rw [htab])
  · rw [if_neg hv] at hio
    cases hio
    simpa using h

end Owned

/-! ## The file calls -/

/-- If the call returns, its last state satisfies `P`. -/
def Ensures (r : FileResult) (P : FileSys → Prop) : Prop := ∀ st fs, r = .ok (st, fs) → P fs

section Files

variable {mm₀ : MemMgr} {others : List Word} {fs fs' : FileSys} {handle : IoHandle} {st : Status}
  {which : IoProp} {value path out : Word} {loc : Locals} {ext : Extern} {i : Fin 50}
  {side : Side} {r : FileResult} {k : FileSys → FileResult} {P : FileSys → Prop}

theorem Ensures.handled (hr : Ensures r P) (hk : ∀ fs, P fs → Ensures (k fs) P) :
    Ensures (handled r k) P := by
  intro st fs h
  rcases handled_ok h with ⟨h, -⟩ | ⟨fs₁, h₁, h⟩
  · exact hr _ _ h
  · exact hk fs₁ (hr _ _ h₁) _ _ h

theorem ensures_ok (h : P fs) : Ensures (.ok (st, fs)) P := by
  intro st' fs' he
  cases he
  exact h

theorem ensures_withFile {hFile : FileHandle} {k : Fin 50 → FileResult} (h : P fs)
    (hk : ∀ i, validFile fs hFile = some i → Ensures (k i) P) :
    Ensures (withFile fs hFile k) P := by
  rw [withFile]
  split
  · rename_i i hi
    exact hk i hi
  · exact ensures_ok h

theorem Owned.setMem (h : Owned mm₀ others fs) (m : Mem) : Owned mm₀ others (fs.setMem m) := by
  refine ⟨?_, h.entries.same .mem⟩
  change Owns mm₀ others _ _ ({ fs.io with mm := { fs.io.mm with mem := m } } : Io).string
  rw [string_mm]
  exact h.owns.setMem m

theorem Owned.setFile (h : Owned mm₀ others fs) (i : Fin 50) (f : FileEntry) :
    Owned mm₀ others (fs.setFile i f) :=
  ⟨h.owns, h.entries⟩

theorem Owned.updateValint (h : Owned mm₀ others fs) :
    Ensures (fs.updateValint loc handle which value) (Owned mm₀ others) :=
  fun _ _ hu => (h.setMem _).update hu

theorem Owned.updateIoctl {c : Ioctl} (h : Owned mm₀ others fs) :
    Ensures (fs.updateIoctl loc handle c) (Owned mm₀ others) :=
  fun _ _ hu => (h.setMem _).update hu

theorem Owned.updateVoid (h : Owned mm₀ others fs) :
    Ensures (fs.updateVoid handle which value) (Owned mm₀ others) :=
  fun _ _ hu => h.update hu

theorem Owned.updateStr (h : Owned mm₀ others fs) :
    Ensures (fs.updateStr handle which value) (Owned mm₀ others) := by
  intro st fs' hu
  obtain ⟨n, hu⟩ := updateStr_ok hu
  exact h.update hu

theorem Owned.execute (h : Owned mm₀ others fs) :
    Ensures (fs.execute ext handle) (Owned mm₀ others) := by
  intro st fs' hx
  rw [(execute_quiet hx).2]
  exact h

theorem Owned.prototypeMessage (h : Owned mm₀ others fs) :
    Ensures (fs.prototypeMessage i side) (Owned mm₀ others) := by
  intro st fs' hp
  obtain ⟨⟨st₁, handle, fs₁⟩, hproto, hp⟩ := bind_eq_ok.mp hp
  have h₁ := h.prototype hproto
  by_cases hs : st₁ = .success
  · simp only [hs, ↓reduceIte] at hp
    cases hp
    exact h₁.setFile i _
  · simp only [hs, ↓reduceIte] at hp
    cases hp
    exact h₁

theorem Owned.withMessage (h : Owned mm₀ others fs)
    (hk : ∀ fs, Owned mm₀ others fs → Ensures (k fs) (Owned mm₀ others)) :
    Ensures (withMessage fs i side k) (Owned mm₀ others) := by
  rw [SpKernel.withMessage]
  split
  · exact h.prototypeMessage.handled fun _ h => h.updateStr.handled hk
  · exact hk fs h

theorem Owned.request {plength buffer : Word} {c : Ioctl} (h : Owned mm₀ others fs) :
    Ensures (request ext loc fs handle plength buffer c) (Owned mm₀ others) :=
  h.updateVoid.handled fun _ h => h.updateValint.handled fun _ h =>
    h.updateIoctl.handled fun _ h => h.execute

/-- A call that sends a message does not come to what it does after
that. -/
theorem Owned.handledExecute (h : Owned mm₀ others fs) :
    Ensures (handled (fs.execute ext handle) k) (Owned mm₀ others) := by
  intro st fs' hr
  rcases handled_ok hr with ⟨hx, -⟩ | ⟨fs₁, hx, -⟩
  · exact h.execute _ _ hx
  · exact absurd rfl (execute_quiet hx).1

theorem updateIoctl_strings {c : Ioctl} (h : fs.updateIoctl loc handle c = .ok (st, fs'))
    (r : IoRef) : (fs'.io.object r).strings = (fs.io.object r).strings := by
  obtain ⟨calls, io₁, hu, rfl⟩ := update_ok h
  have hmem : (fs.setMem (store 4 fs.mem loc.value c.code)).io.object r = fs.io.object r :=
    object_mm fs.io _ r
  rw [← hmem]
  rcases ioUpdate_inv hu with ⟨-, rfl, -⟩ | ⟨j, r', o, mm', -, hset, -, rfl⟩
  · rfl
  · have hnone : ((fs.setMem (store 4 fs.mem loc.value c.code)).io.object r').string .ioctl
        = none := by
      cases r'
      all_goals rfl
    obtain ⟨rfl, hsame⟩ := setprop_other hset hnone
    have ht : o.type = r'.type := hsame.type.trans (object_type _ r')
    rw [object_mm]
    by_cases hr : r = r'
    · rw [hr, putObject_self ht, hsame.strings]
    · rw [putObject_other hr]

theorem Owned.named (h : Owned mm₀ others fs) {fs₁ fs₂ : FileSys} {c : Ioctl}
    (hstr : fs.updateStr handle .path value = .ok (.success, fs₁))
    (hctl : fs₁.updateIoctl loc handle c = .ok (.success, fs₂)) : Named fs₂.io handle := by
  obtain ⟨i, msg, hd, -⟩ := (updateIoctl_iff hctl).mp rfl
  have hun := updateStr_unmoved hstr
  obtain ⟨n, hstr⟩ := updateStr_ok hstr
  obtain ⟨calls, io₁, hu, rfl⟩ := update_ok hstr
  have hpath : (io₁.messages.slots msg).path ≠ 0 := by
    rcases ioUpdate_inv hu with ⟨-, -, hne, -⟩ | ⟨j, r, o, mm', hd', hset, -, rfl⟩
    · exact absurd rfl hne
    · obtain rfl := hd'.unique (hun.tables.symm.denotes hd)
      rcases setprop_str hset rfl with ⟨p, room, hs, -, rfl⟩ | ⟨hne, -⟩
      · have hp := (h.owns.setString (k := (.message msg, .path)) rfl hs).2
        change ((fs.io.messages.set msg _).slots msg).path ≠ 0
        rw [Pool.set_self]
        exact hp
      · exact absurd rfl hne
  intro _ r hr p hp
  have hd₂ := (updateIoctl_unmoved hctl).tables.denotes hd
  have hobj : fs₂.io.objectOf handle = some (.message msg) := by
    simp only [Io.objectOf, hd₂.index, hd₂.object]
  obtain rfl := Option.some.inj (hr.symm.trans hobj)
  rw [updateIoctl_strings hctl] at hp
  rw [List.mem_singleton.mp hp]
  exact hpath

theorem Owned.openCreate (h : Owned mm₀ others fs) :
    Ensures (openCreate ext loc fs i handle path out) (Owned mm₀ others) := by
  intro st fs' hr
  obtain ⟨m, -, hr⟩ := bind_eq_ok.mp hr
  rcases handled_ok hr with ⟨hup, -⟩ | ⟨fs₁, hup, hr⟩
  · exact (h.setMem m).updateStr _ _ hup
  · obtain ⟨stat, hne, hret⟩ := bind_execute hr
    simp only [ne_eq, hne, not_false_eq_true, ↓reduceIte] at hret
    cases hret
    exact ((h.setMem m).updateStr _ _ hup).setFile i _

theorem Owned.ready (h : Owned mm₀ others fs) : Owned mm₀ others fs.ready := by
  rw [FileSys.ready]
  split
  · exact h
  · exact ⟨h.owns, h.entries⟩

/-- `IoFileOpen` deletes a message only after it has set its path. -/
theorem Owned.ioFileOpen {strat : IoCreatePolicy} (h : Owned mm₀ others fs) :
    Ensures (ioFileOpen ext loc fs path strat out) (Owned mm₀ others) := by
  intro st fs' hr
  rw [SpKernel.ioFileOpen] at hr
  simp only at hr
  cases hfree : fs.ready.firstFree with
  | none =>
      rw [hfree] at hr
      cases hr
  | some i =>
      rw [hfree] at hr
      obtain ⟨st₁, fs₁, hp, hr⟩ := ignored_ok hr
      have h₁ : Owned mm₀ others fs₁ := (h.ready.setFile i _).prototypeMessage _ _ hp
      rcases handled_ok hr with ⟨hup, -⟩ | ⟨fs₂, hup, hr⟩
      · exact h₁.updateStr _ _ hup
      have h₂ : Owned mm₀ others fs₂ := h₁.updateStr _ _ hup
      rcases handled_ok hr with ⟨hctl, -⟩ | ⟨fs₃, hctl, hr⟩
      · exact h₂.updateIoctl _ _ hctl
      have h₃ : Owned mm₀ others fs₃ := h₂.updateIoctl _ _ hctl
      obtain ⟨stat, hne, hret⟩ := bind_execute hr
      simp only [hne, ↓reduceIte] at hret
      cases strat with
      | create => exact h₃.openCreate _ _ hret
      | createRecursive =>
          simp only [openRecursive, mountLoop_none 6 hne, ok_bind, Int.lt_irrefl,
            ↓reduceIte] at hret
          obtain ⟨st₄, fs₄, hd, hret⟩ := ignored_ok hret
          cases hret
          exact h₃.delete (h₁.named hup hctl) hd
      | fail =>
          cases hret
          exact h₃.setFile i _

/-- `IoFileClose`: the second message is not deleted again if it is the
first. -/
theorem Owned.ioFileClose {hFile : FileHandle} (h : Owned mm₀ others fs)
    (hn : ∀ i, validFile fs hFile = some i → ∀ side, Named fs.io ((fs.files i).message side)) :
    Ensures (ioFileClose fs hFile) (Owned mm₀ others) := by
  refine ensures_withFile h fun i hi st fs' hr => ?_
  obtain ⟨st₁, fs₁, hd₁, hr⟩ := ignored_ok hr
  obtain ⟨st₂, fs₂, hd₂, hr⟩ := ignored_ok hr
  cases hr
  have h₁ := h.delete (hn i hi .output) hd₁
  refine (h₁.delete ?_ hd₂).setFile i _
  obtain ⟨⟨st₃, io₃⟩, hio, hd₁⟩ := bind_eq_ok.mp hd₁
  cases hd₁
  rcases ioDelete_spec (liftIo_ok.mp hio) with ⟨-, j, r, hj, hh, hdel⟩ | ⟨-, rfl⟩
  · -- no valid handle is left
    intro hv
    obtain ⟨j', hj', hh'⟩ := ioHandleIsValid_eq.mp hv
    obtain rfl := h.entries.valid hj hh
    obtain rfl := h₁.entries.valid hj' hh'
    have hone : (fs.files i).messageIn = 1 := tableIndex_eq.mp hj'
    have hnull : (io₃.table 1).handle = ioHandleNull := by rw [hdel.table, update_self]
    have habs : (1 : Int) = -1 := hone.symm.trans (hh'.symm.trans hnull)
    cases habs
  · exact hn i hi .input

/-! ## Runs -/

/-- The calls of `file.h`. -/
inductive FileOp where
  | openFile (path : Word) (strat : IoCreatePolicy) (out : Word)
  | read (hFile : FileHandle) (offset plength out : Word)
  | write (hFile : FileHandle) (offset plength data : Word)
  | seek (hFile : FileHandle) (offset poffset : Word)
  | query (hFile : FileHandle) (property : IoProp) (plength out : Word)
  | set (hFile : FileHandle) (property : IoProp) (plength data : Word)
  | delete (hFile : FileHandle)
  | nextChild (hFile : FileHandle) (index plength out : Word)
  | close (hFile : FileHandle)

def fileOp (ext : Extern) (loc : Locals) (fs : FileSys) : FileOp → FileResult
  | .openFile path strat out => ioFileOpen ext loc fs path strat out
  | .read hFile offset plength out => ioFileRead ext loc fs hFile offset plength out
  | .write hFile offset plength data => ioFileWrite ext loc fs hFile offset plength data
  | .seek hFile offset poffset => ioFileSeek loc fs hFile offset poffset
  | .query hFile property plength out => ioFileQuery ext loc fs hFile property plength out
  | .set hFile property plength data => ioFileSet ext loc fs hFile property plength data
  | .delete hFile => ioFileDelete ext loc fs hFile
  | .nextChild hFile index plength out => ioFileNextChild ext loc fs hFile index plength out
  | .close hFile => ioFileClose fs hFile

theorem Owned.tellCursor (h : Owned mm₀ others fs)
    (hk : ∀ fs, Owned mm₀ others fs → Ensures (k fs) (Owned mm₀ others)) :
    Ensures (tellCursor loc fs i side k) (Owned mm₀ others) := by
  rw [SpKernel.tellCursor]
  split
  · exact h.updateValint.handled hk
  · exact hk fs h

theorem Owned.fileOp {op : FileOp} (h : Owned mm₀ others fs)
    (hn : ∀ hFile, op = .close hFile → ∀ i, validFile fs hFile = some i →
      ∀ side, Named fs.io ((fs.files i).message side)) :
    Ensures (fileOp ext loc fs op) (Owned mm₀ others) := by
  cases op with
  | openFile path strat out => exact h.ioFileOpen
  | read hFile offset plength out =>
      refine ensures_withFile h fun i _ => h.withMessage fun _ h => ?_
      refine (h.setFile i _).updateValint.handled fun _ h => h.updateVoid.handled fun _ h => ?_
      exact h.updateValint.handled fun _ h => h.updateIoctl.handled fun _ h => h.handledExecute
  | write hFile offset plength data =>
      refine ensures_withFile h fun i _ => h.withMessage fun _ h => ?_
      refine (h.setFile i _).updateVoid.handled fun _ h => h.updateValint.handled fun _ h => ?_
      exact h.updateIoctl.handled fun _ h => h.handledExecute
  | seek hFile offset poffset =>
      refine ensures_withFile h fun i _ => (h.setFile i _).tellCursor fun _ h => ?_
      exact h.tellCursor fun _ h => ensures_ok (h.setMem _)
  | query hFile property plength out =>
      refine ensures_withFile h fun i _ => h.withMessage fun _ h => ?_
      exact h.updateValint.handled fun _ h => h.request
  | set hFile property plength data =>
      refine ensures_withFile h fun i _ => h.withMessage fun _ h => ?_
      exact h.updateValint.handled fun _ h => h.request
  | delete hFile =>
      refine ensures_withFile h fun i _ => h.withMessage fun _ h => ?_
      exact h.updateIoctl.handled fun _ h => h.handledExecute
  | nextChild hFile index plength out =>
      refine ensures_withFile h fun i _ => h.withMessage fun _ h => ?_
      refine h.updateVoid.handled fun _ h => h.updateValint.handled fun _ h => ?_
      exact h.updateIoctl.handled fun _ h => h.updateValint.handled fun _ h => h.execute
  | close hFile => exact h.ioFileClose (hn hFile rfl)

end Files

/-- The I/O layer, and the pages others have obtained. -/
structure IoWorld where
  fs : FileSys
  others : List Word

/-- A call of the I/O layer, or something others do: they obtain pages,
give back pages they have, and write to memory. -/
inductive PageEvent where
  | prototype (type : IoObjType)
  | update (handle : IoHandle) (which : IoProp) (value : Word) (length : Int)
  | updateStr (handle : IoHandle) (which : IoProp) (value : Word)
  | delete (handle : IoHandle)
  | execute (handle : IoHandle)
  | file (loc : Locals) (op : FileOp)
  | othersGet
  | othersFree (p : Word)
  | othersWrite (m : Mem)

/-- The state after a call that returns a status. -/
def IoWorld.after (s : IoWorld) (r : FileResult) : Except FileFault IoWorld := do
  let (_, fs) ← r
  .ok { s with fs := fs }

def IoWorld.setMm (s : IoWorld) (mm : MemMgr) (others : List Word) : IoWorld :=
  ⟨{ s.fs with io := { s.fs.io with mm := mm } }, others⟩

def pageStep (ext : Extern) (s : IoWorld) : PageEvent → Except FileFault IoWorld
  | .prototype type => do
      let (_, _, fs) ← s.fs.prototype type
      .ok { s with fs := fs }
  | .update handle which value length => s.after (s.fs.update handle which value length)
  | .updateStr handle which value => s.after (s.fs.updateStr handle which value)
  | .delete handle => s.after (s.fs.delete handle)
  | .execute handle => s.after (s.fs.execute ext handle)
  | .file loc op => s.after (fileOp ext loc s.fs op)
  | .othersGet => do
      let (p, mm) ← liftKernel (getNextPage s.fs.io.mm)
      .ok (s.setMm mm (p :: s.others))
  | .othersFree p =>
      if s.others.contains p then
        .ok (s.setMm (freePage s.fs.io.mm p).2 (s.others.erase p))
      else .ok s
  | .othersWrite m => .ok { s with fs := s.fs.setMem m }

/-- What `IO_DELETE` is called with has all its strings. -/
def DeletesNamed (s : IoWorld) : PageEvent → Prop
  | .delete handle => Named s.fs.io handle
  | .file _ (.close hFile) => ∀ i, validFile s.fs hFile = some i →
      ∀ side, Named s.fs.io ((s.fs.files i).message side)
  | _ => True

/-- Every page the I/O layer has freed was one that it had obtained and
still held, and the pages in use are those that were in use at first, its
own and those of others. -/
structure IoPagesSound (mm₀ : MemMgr) (s : IoWorld) : Prop where
  balanced : Balanced s.fs.pages
  marked : ∀ n, patBit s.fs.io.mm n = true
    ↔ patBit mm₀ n = true ∨ ∃ p ∈ holdings s.fs.pages ++ s.others, pageOf p = n
  distinct : (holdings s.fs.pages ++ s.others).Nodup
  fresh : ∀ p ∈ holdings s.fs.pages ++ s.others,
    PageAligned p ∧ patBit mm₀ (pageOf p) = false

section Run

variable {mm₀ : MemMgr} {ext : Extern} {s s' : IoWorld} {e : PageEvent}

theorem Owned.after {r : FileResult} (h : Ensures r (Owned mm₀ s.others))
    (hs : s.after r = .ok s') : Owned mm₀ s'.others s'.fs := by
  obtain ⟨⟨st, fs⟩, hr, hs⟩ := bind_eq_ok.mp hs
  cases hs
  exact h st fs hr

theorem Owned.setMm {mm : MemMgr} {others : List Word} (h : Owned mm₀ s.others s.fs)
    (ho : Owns mm₀ others mm s.fs.pages s.fs.io.string) :
    Owned mm₀ (s.setMm mm others).others (s.setMm mm others).fs := by
  refine ⟨?_, h.entries.same .mem⟩
  change Owns mm₀ others _ _ ({ s.fs.io with mm := mm } : Io).string
  rw [string_mm]
  exact ho

theorem Owned.step (h : Owned mm₀ s.others s.fs) (hc : DeletesNamed s e)
    (hs : pageStep ext s e = .ok s') : Owned mm₀ s'.others s'.fs := by
  cases e with
  | prototype type =>
      obtain ⟨⟨st, handle, fs⟩, hp, hs⟩ := bind_eq_ok.mp hs
      cases hs
      exact h.prototype hp
  | update handle which value length => exact .after (fun _ _ hu => h.update hu) hs
  | updateStr handle which value => exact .after h.updateStr hs
  | delete handle => exact .after (fun _ _ hd => h.delete hc hd) hs
  | execute handle => exact .after h.execute hs
  | file loc op =>
      refine .after (h.fileOp ?_) hs
      rintro hFile rfl
      exact hc
  | othersGet =>
      obtain ⟨⟨p, mm⟩, hget, hs⟩ := bind_eq_ok.mp hs
      cases hs
      exact h.setMm (h.owns.others_get (liftFault_ok.mp (liftIo_ok.mp hget)))
  | othersFree p =>
      rw [pageStep] at hs
      split at hs
      · rename_i hp
        cases hs
        exact h.setMm (h.owns.others_free (List.contains_iff_mem.mp hp))
      · cases hs
        exact h
  | othersWrite m =>
      cases hs
      exact h.setMem m

theorem Owned.sound (h : Owned mm₀ s.others s.fs) : IoPagesSound mm₀ s := by
  obtain ⟨hown, -⟩ := h
  refine ⟨hown.balanced, fun n => ⟨hown.marked n, ?_⟩, hown.held.nodup, fun p hp =>
    ⟨hown.held.aligned p hp, hown.held.fresh p hp⟩⟩
  rintro (hn | ⟨p, hp, rfl⟩)
  · exact hown.held.kept n hn
  · exact hown.held.marked p hp

end Run

end SpKernel
