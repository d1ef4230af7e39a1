import SpKernel.IoObjects

/-!
# Setting and getting string properties

A string property is a page with the string on it. Setting it writes the
characters over those of the old page, or of a new one if the old string
is shorter; getting it writes them over a buffer. `strcpy` writes no NUL,
so what comes out is the string that was set only if a NUL is there
already, behind its characters, on the page and in the buffer
(`round_trip_iff`).

`IoAny` is an object of any kind, so that the five kinds are treated at
once: `copied` is the property whose string is read for a given one,
which is another one for the name of a mount, and `given` the length that
a set compares with, which is the caller's for the name of a middleware.

The pages of an object's strings stay sound under any updates
(`Updated.strings`): they are pages of the allocator, no two the same,
and their last byte is zero. The last is why a string on a page has an
end at all.

- `setprop_cases` is what a set does: it gets a page (`Space`), and
  leaves on it what `WasSet` describes, or it fails for want of one.
- `getString_of` is what a get does with a string that has room.
- `Suited` is the condition of the result. For the empty string, `strcpy`
  copies what lies behind its terminator, and the buffer has to hold what
  is on the page then up to the next NUL (`EmptyFits`).
-/

namespace SpKernel

open Lib

/-! ## Objects of any kind -/

inductive IoAny where
  | filesystem (fs : IoFilesystem)
  | device (dv : IoDevice)
  | middleware (md : IoMiddleware)
  | message (msg : IoMessage)
  | mount (mp : IoMount)

namespace IoAny

def handle : IoAny → IoHandle
  | .filesystem fs => fs.handle
  | .device dv => dv.handle
  | .middleware md => md.handle
  | .message msg => msg.handle
  | .mount mp => mp.handle

/-- The `_io_*_setprop` of the kind. -/
def setprop (mm : MemMgr) (o : IoAny) (which : IoProp) (value : Word) (length : Int) :
    Except Fault (Status × IoAny × MemMgr) :=
  match o with
  | .filesystem fs => do
      let (st, fs, mm) ← ioFsSetprop mm fs which value length
      .ok (st, .filesystem fs, mm)
  | .device dv => do
      let (st, dv, mm) ← ioDvSetprop mm dv which value length
      .ok (st, .device dv, mm)
  | .middleware md => do
      let (st, md, mm) ← ioMdSetprop mm md which value length
      .ok (st, .middleware md, mm)
  | .message msg => do
      let (st, msg, mm) ← ioMsgSetprop mm msg which value length
      .ok (st, .message msg, mm)
  | .mount mp => do
      let (st, mp, mm) ← ioMpSetprop mm mp which value length
      .ok (st, .mount mp, mm)

/-- The `_io_*_getprop` of the kind. -/
def getprop (mm : MemMgr) (o : IoAny) (which : IoProp) (value : Word) (plength : Int) :
    Except Fault (Status × Int × MemMgr) :=
  match o with
  | .filesystem fs => ioFsGetprop mm fs which value plength
  | .device dv => ioDvGetprop mm dv which value plength
  | .middleware md => ioMdGetprop mm md which value plength
  | .message msg => ioMsgGetprop mm msg which value plength
  | .mount mp => ioMpGetprop mm mp which value plength

/-- The string properties, with their pointers. -/
def string : IoAny → IoProp → Option Word
  | .filesystem fs, .name => some fs.name
  | .device dv, .name => some dv.name
  | .middleware md, .name => some md.name
  | .message msg, .path => some msg.path
  | .mount mp, .name => some mp.name
  | .mount mp, .path => some mp.path
  | _, _ => none

/-- With another pointer for a string property. -/
def withString : IoAny → IoProp → Word → IoAny
  | .filesystem fs, _, p => .filesystem { fs with name := p }
  | .device dv, _, p => .device { dv with name := p }
  | .middleware md, _, p => .middleware { md with name := p }
  | .message msg, _, p => .message { msg with path := p }
  | .mount mp, .path, p => .mount { mp with path := p }
  | .mount mp, _, p => .mount { mp with name := p }

/-- The property whose characters `_io_*_getprop` copies: for the name of
a mount it is the path. -/
def copied : IoAny → IoProp → IoProp
  | .mount _, .name => .path
  | _, which => which

/-- The length a string is given room for: the middleware's name trusts
the caller. -/
def given (o : IoAny) (s : List Byte) (length : Int) : Nat :=
  match o with
  | .middleware _ => length.toNat
  | _ => s.length

end IoAny

variable {mm mm' mm₁ : MemMgr} {o o' : IoAny} {which : IoProp} {old value p buffer : Word}
  {length plength : Int} {s bs u : List Byte} {st : Status} {L : Nat}

theorem IoAny.setprop_string (ho : o.string which = some old) (hh : 0 ≤ o.handle)
    (hl : 0 ≤ length) (hs : IsString mm.mem value s) :
    o.setprop mm which value length = (do
      let (p, mm) ← setString mm old value (o.given s length)
      .ok (.success, o.withString which p, mm)) := by
  have hl' : ¬length < 0 := not_lt.mpr hl
  have hh' : ¬o.handle < 0 := not_lt.mpr hh
  unfold IoAny.string at ho
  split at ho
  all_goals cases ho
  all_goals
    simp only [IoAny.handle] at hh'
    simp only [IoAny.setprop, ioFsSetprop, ioDvSetprop, ioMdSetprop, ioMsgSetprop, ioMpSetprop,
      checked, hl', hh', ↓reduceIte, strlen_spec hs, ok_bind, IoAny.given, IoAny.withString]
    generalize setString _ _ _ _ = r
    cases r
    · rfl
    · rfl

theorem IoAny.setprop_negative (hl : length < 0) :
    o.setprop mm which value length = .ok (.badArg, o, mm) := by
  cases o
  all_goals
    simp only [IoAny.setprop, ioFsSetprop, ioDvSetprop, ioMdSetprop, ioMsgSetprop, ioMpSetprop,
      checked, hl, ↓reduceIte]
    rfl

theorem IoAny.getprop_string {src : Word} (ho : o.string which = some p)
    (hc : o.string (o.copied which) = some src) (hh : 0 ≤ o.handle) (hl : 0 ≤ plength) :
    o.getprop mm which buffer plength = getString mm p src buffer plength := by
  have hl' : ¬plength < 0 := not_lt.mpr hl
  have hh' : ¬o.handle < 0 := not_lt.mpr hh
  unfold IoAny.string at ho
  split at ho
  all_goals cases ho
  all_goals
    cases hc
    simp only [IoAny.handle] at hh'
    simp only [IoAny.getprop, ioFsGetprop, ioDvGetprop, ioMdGetprop, ioMsgGetprop, ioMpGetprop,
      checked, hl', hh', ↓reduceIte]

theorem IoAny.withString_handle : (o.withString which p).handle = o.handle := by
  unfold IoAny.withString
  split
  all_goals rfl

theorem IoAny.withString_self (ho : o.string which = some old) :
    (o.withString which p).string which = some p := by
  unfold IoAny.string at ho
  split at ho
  all_goals cases ho
  all_goals rfl

theorem IoAny.withString_other {other : IoProp} (ho : o.string which = some old)
    (hne : other ≠ which) : (o.withString which p).string other = o.string other := by
  unfold IoAny.string at ho
  split at ho
  all_goals cases ho
  all_goals
    cases other
    all_goals first | rfl | exact absurd rfl hne

theorem IoAny.withString_copied (ho : o.string which = some old) :
    (o.withString which p).copied which = o.copied which := by
  unfold IoAny.string at ho
  split at ho
  all_goals cases ho
  all_goals rfl

theorem IoAny.copied_string (ho : o.string which = some old) :
    ∃ src, o.string (o.copied which) = some src := by
  unfold IoAny.string at ho
  split at ho
  all_goals cases ho
  all_goals exact ⟨_, rfl⟩

/-! ## Pages with strings -/

/-- A page of the allocator whose last byte is zero. -/
structure Stored (mm : MemMgr) (p : Word) : Prop where
  aligned : PageAligned p
  marked : patBit mm (pageOf p) = true
  last : mm.mem (p + BitVec.ofNat 32 (pageSize - 1)) = 0

theorem pageOf_add {i : Nat} (hp : PageAligned p) (hi : i < pageSize) :
    pageOf (p + BitVec.ofNat 32 i) = pageOf p := by
  have h := p.isLt
  unfold PageAligned at hp
  simp only [pageSize] at hi
  simp only [pageOf, BitVec.toNat_add, BitVec.toNat_ofNat]
  omega

/-- A byte of another page is not among the first bytes of this one. -/
theorem le_of_pageOf_ne {x : Word} {n : Nat} (hp : PageAligned p) (hn : n ≤ pageSize)
    (hx : pageOf x ≠ pageOf p) : n ≤ (x - p).toNat := by
  have h1 := x.isLt
  have h2 := p.isLt
  unfold PageAligned at hp
  simp only [pageSize] at hn
  simp only [pageOf] at hx
  simp only [BitVec.toNat_sub]
  omega

theorem Stored.string (h : Stored mm p) : ∃ u, IsString mm.mem p u ∧ u.length < pageSize := by
  obtain ⟨u, hu, hlen⟩ := IsString.exists_of_nul h.last
  exact ⟨u, hu, by simp only [pageSize] at hlen ⊢; omega⟩

/-- A string that ends on its page is the same if the page is. -/
theorem string_same_page {m m' : Mem} (hs : IsString m p s) (hp : PageAligned p)
    (hlen : s.length < pageSize) (h : ∀ x, pageOf x = pageOf p → m' x = m x) :
    IsString m' p s :=
  hs.congr fun i hi => h _ (pageOf_add hp (by omega))

/-- The memory `stringSpace` gives: the page `p`, new and blank, or the
old one as it is. -/
structure Space (mm : MemMgr) (old : Word) (L : Nat) (p : Word) (mm' : MemMgr) : Prop where
  cursor : mm'.lastAvailible < patSize
  aligned : PageAligned p
  marked : patBit mm' (pageOf p) = true
  bits : ∀ n, patBit mm n = true → (old ≠ 0 → n ≠ pageOf old) → patBit mm' n = true
  page : old ≠ 0 ∧ pageOf p = pageOf old ∨ patBit mm (pageOf p) = false
  mem : ∀ x, pageOf x ≠ pageOf p → mm'.mem x = mm.mem x
  content : (old = 0 ∨ ∃ u, IsString mm.mem old u ∧ u.length < L)
      ∧ (∀ i < pageSize, mm'.mem (p + BitVec.ofNat 32 i) = 0)
    ∨ old ≠ 0 ∧ p = old ∧ mm'.mem = mm.mem ∧ ∀ u, IsString mm.mem old u → L ≤ u.length

theorem memset_page {m : Mem} (hp : PageAligned p) :
    (∀ i < pageSize, memset m p 0 pageSize (p + BitVec.ofNat 32 i) = 0)
      ∧ ∀ x, pageOf x ≠ pageOf p → memset m p 0 pageSize x = m x := by
  constructor
  · intro i hi
    simp only [pageSize] at hi
    rw [memset, toNat_offset p (by omega), if_pos (by simp only [pageSize]; omega)]
  · intro x hx
    rw [memset, if_neg (not_lt.mpr (le_of_pageOf_ne hp (Nat.le_refl _) hx))]

theorem stringSpace_spec (hc : mm.lastAvailible < patSize) (hold : old ≠ 0 → Stored mm old) :
    (∃ p mm', stringSpace mm old L = .ok (p, mm') ∧ Space mm old L p mm')
      ∨ (∃ f, stringSpace mm old L = .error f) ∧ old = 0
        ∧ ∀ n < 2 ^ 20, patBit mm n = true := by
  by_cases h0 : old = 0
  · have hspace : stringSpace mm old L = getNextPage mm := by
      simp only [stringSpace, mallocIo, h0, ↓reduceIte, Nat.add_eq_zero_iff, Nat.one_ne_zero,
        and_false]
    rw [hspace]
    rcases getNextPage_spec hc with ⟨p, mm', he, ht⟩ | ⟨he, hall⟩
    · have hmem := memset_page (m := mm.mem) ht.aligned
      rw [← ht.mem] at hmem
      refine .inl ⟨p, mm', he, ht.cursor, ht.aligned, ?_, fun n hn _ => ?_, .inr ht.wasFree,
        hmem.2, .inl ⟨.inl h0, hmem.1⟩⟩
      · simp [ht.bits]
      · rw [ht.bits, hn, Bool.or_true]
    · exact .inr ⟨⟨_, he⟩, h0, hall⟩
  · have hst := hold h0
    obtain ⟨u, hu, -⟩ := hst.string
    have hspace : stringSpace mm old L
        = if u.length < L then getNextPage (setPat mm old 0) else .ok (old, mm) := by
      simp only [stringSpace, mallocIo, freeIo, h0, ↓reduceIte, strlen_spec hu, ok_bind,
        freePage_aligned hst.aligned, Nat.add_eq_zero_iff, Nat.one_ne_zero, and_false]
    rw [hspace]
    by_cases hlt : u.length < L
    · rw [if_pos hlt]
      have hfree : patBit (setPat mm old 0) (pageOf old) = false := by
        rw [patBit_clear]
        simp
      have hc' : (setPat mm old 0).lastAvailible < patSize := hc
      rcases getNextPage_spec hc' with ⟨p, mm', he, ht⟩ | ⟨-, hall⟩
      · have hmem := memset_page (m := mm.mem) ht.aligned
        have hmm : mm'.mem = memset mm.mem p 0 pageSize := ht.mem
        rw [← hmm] at hmem
        refine .inl ⟨p, mm', he, ht.cursor, ht.aligned, ?_, fun n hn hne => ?_, ?_, hmem.2,
          .inl ⟨.inr ⟨u, hu, hlt⟩, hmem.1⟩⟩
        · simp [ht.bits]
        · rw [ht.bits, patBit_clear]
          simp [hn, hne h0]
        · by_cases hp : pageOf p = pageOf old
          · exact .inl ⟨h0, hp⟩
          · have hw := ht.wasFree
            rw [patBit_clear] at hw
            exact .inr (by simpa [hp] using hw)
      · have := hall (pageOf old) (by have := old.isLt; unfold pageOf; omega)
        rw [hfree] at this
        cases this
    · rw [if_neg hlt]
      refine .inl ⟨old, mm, rfl, hc, hst.aligned, hst.marked, fun n hn _ => hn, .inl ⟨h0, rfl⟩,
        fun _ _ => rfl, .inr ⟨h0, rfl, rfl, fun u' hu' => ?_⟩⟩
      rw [hu'.unique hu]
      omega

theorem Space.last (h : Space mm old L p mm') (hold : old ≠ 0 → Stored mm old) :
    mm'.mem (p + BitVec.ofNat 32 (pageSize - 1)) = 0 := by
  rcases h.content with ⟨-, hz⟩ | ⟨h0, rfl, hm, -⟩
  · exact hz _ (by decide)
  · rw [hm]
    exact (hold h0).last

/-- There is a NUL at `n` on the page that `stringSpace` gives: the page is new,
or the old one has it. -/
def NulAt (mm : MemMgr) (old : Word) (L n : Nat) : Prop :=
  old = 0 ∨ (∃ u, IsString mm.mem old u ∧ u.length < L) ∨ mm.mem (old + BitVec.ofNat 32 n) = 0

theorem Space.nul {n : Nat} (h : Space mm old L p mm') (hn : n < pageSize) :
    mm'.mem (p + BitVec.ofNat 32 n) = 0 ↔ NulAt mm old L n := by
  rcases h.content with ⟨hnew, hz⟩ | ⟨h0, rfl, hm, hlong⟩
  · exact iff_of_true (hz n hn) (hnew.imp id .inl)
  · rw [hm]
    constructor
    · exact fun hz => .inr (.inr hz)
    · rintro (hz | ⟨u, hu, hlt⟩ | hz)
      · exact absurd hz h0
      · exact absurd hlt (not_lt.mpr (hlong u hu))
      · exact hz

/-! ## The invariant -/

/-- The strings of the object are on pages of their own. -/
structure Strings (mm : MemMgr) (o : IoAny) : Prop where
  cursor : mm.lastAvailible < patSize
  handle : 0 ≤ o.handle
  /-- `NULL` is not a page that can be had. -/
  low : patBit mm 0 = true
  stored : ∀ {which p}, o.string which = some p → p ≠ 0 → Stored mm p
  apart : ∀ {which which' p}, o.string which = some p → o.string which' = some p → p ≠ 0 →
    which = which'

/-- The `n` bytes at `a` are in use, for something else than the strings
of the object. -/
def Outside (mm : MemMgr) (o : IoAny) (a : Word) (n : Nat) : Prop :=
  ∀ i < n, patBit mm (pageOf (a + BitVec.ofNat 32 i)) = true
    ∧ ∀ which p, o.string which = some p → pageOf (a + BitVec.ofNat 32 i) ≠ pageOf p

/-- The bytes `strcpy` copies from `a`: the first, and the string behind
it. -/
def Copies (m : Mem) (a : Word) (bs : List Byte) : Prop :=
  ∃ t, IsString m (a + 1#32) t ∧ bs = m a :: t

/-- The string `s` at `value`, with the bytes `strcpy` copies: these are
its characters, or what is behind it if it is empty. -/
structure Given (mm : MemMgr) (o : IoAny) (value : Word) (s bs : List Byte) : Prop where
  string : IsString mm.mem value s
  copies : Copies mm.mem value bs
  short : bs.length < pageSize
  outside : Outside mm o value (bs.length + 1)

theorem Copies.eq_of_ne {m : Mem} {a : Word} (h : Copies m a bs) (hs : IsString m a s)
    (hne : s ≠ []) : bs = s := by
  obtain ⟨t, ht, rfl⟩ := h
  cases s with
  | nil => exact absurd rfl hne
  | cons c s => rw [hs.1, ht.unique hs.2.2]

theorem Given.length_lt (h : Given mm o value s bs) : s.length < pageSize := by
  by_cases hs : s = []
  · rw [hs]
    exact Nat.succ_pos _
  · rw [← h.copies.eq_of_ne h.string hs]
    exact h.short

theorem Copies.congr {m m' : Mem} {a : Word} (h : Copies m a bs)
    (hm : ∀ i < bs.length + 1, m' (a + BitVec.ofNat 32 i) = m (a + BitVec.ofNat 32 i)) :
    Copies m' a bs := by
  obtain ⟨t, ht, rfl⟩ := h
  have h0 := hm 0 (Nat.succ_pos _)
  rw [BitVec.add_zero] at h0
  refine ⟨t, ht.congr fun i hi => ?_, by rw [h0]⟩
  rw [add_ofNat_succ]
  exact hm (i + 1) (by simp only [List.length_cons]; omega)

theorem strcpy_copies {m : Mem} {dest src : Word} (h : Copies m src bs)
    (hap : Apart dest bs.length src (bs.length + 1)) :
    strcpy m dest src = .ok (storeBytes m dest bs) := by
  obtain ⟨t, ht, rfl⟩ := h
  exact strcpy_spec ht hap

theorem Space.room (h : Space mm old L p mm') (h0 : old = 0) :
    ∃ n < 2 ^ 20, patBit mm n = false := by
  rcases h.page with ⟨hne, -⟩ | hfree
  · exact absurd h0 hne
  · exact ⟨pageOf p, by have := p.isLt; unfold pageOf; omega, hfree⟩

/-- What is outside the strings is not on the page that is written. -/
theorem Space.outside {a : Word} {n i : Nat} (h : Space mm old L p mm') (ha : Outside mm o a n)
    (ho : o.string which = some old) (hi : i < n) :
    pageOf (a + BitVec.ofNat 32 i) ≠ pageOf p := by
  obtain ⟨hmark, hpage⟩ := ha i hi
  rcases h.page with ⟨-, he⟩ | hfree
  · rw [he]
    exact hpage _ _ ho
  · intro he
    rw [he, hfree] at hmark
    cases hmark

theorem Space.setString (h : Space mm old L p mm') (hg : Given mm o value s bs)
    (ho : o.string which = some old) (hsp : stringSpace mm old L = .ok (p, mm')) :
    setString mm old value L = .ok (p, { mm' with mem := storeBytes mm'.mem p bs }) := by
  have hshort : bs.length ≤ pageSize := Nat.le_of_lt hg.short
  have hcopies : Copies mm'.mem value bs :=
    hg.copies.congr fun i hi => h.mem _ (h.outside hg.outside ho hi)
  have hap : Apart p bs.length value (bs.length + 1) := by
    intro i hi j hj he
    refine h.outside hg.outside ho hj ?_
    rw [← he, pageOf_add h.aligned (by omega)]
  simp only [SpKernel.setString, hsp, ok_bind, strcpy_copies hcopies hap]

/-! ## Setting -/

/-- There is a NUL behind the characters of `s` once they are on the page
they are put on. -/
def Terminated (mm : MemMgr) (old : Word) (L : Nat) (s : List Byte) : Prop :=
  s = [] ∨ old = 0 ∨ (∃ u, IsString mm.mem old u ∧ u.length < L)
    ∨ mm.mem (old + BitVec.ofNat 32 s.length) = 0

/-- If the length is the string's own, a page is written over when its
string is not shorter. -/
theorem terminated_iff (h0 : old ≠ 0) (hs : s ≠ []) (hu : IsString mm.mem old u) :
    Terminated mm old s.length s ↔ u.length ≤ s.length := by
  constructor
  · rintro (h | h | ⟨v, hv, hlt⟩ | h)
    · exact absurd h hs
    · exact absurd h h0
    · rw [hu.unique hv]
      omega
    · by_contra hc
      obtain ⟨hb, hne⟩ := hu.get s.length (by omega)
      exact hne (hb.symm.trans h)
  · intro hle
    rcases Nat.lt_or_eq_of_le hle with hlt | heq
    · exact .inr (.inr (.inl ⟨u, hu, hlt⟩))
    · exact .inr (.inr (.inr (heq ▸ hu.nul)))

/-- The page after the characters have been written to it. -/
theorem Space.result (h : Space mm old L p mm') (hold : old ≠ 0 → Stored mm old)
    (hg : Given mm o value s bs) :
    storeBytes mm'.mem p bs (p + BitVec.ofNat 32 (pageSize - 1)) = 0
      ∧ ∃ u, IsString (storeBytes mm'.mem p bs) p u
        ∧ (u.length = s.length ↔ Terminated mm old L s) ∧ (Terminated mm old L s → u = s) := by
  have hshort := hg.short
  simp only [pageSize] at hshort
  have hlast : storeBytes mm'.mem p bs (p + BitVec.ofNat 32 (pageSize - 1)) = 0 := by
    rw [storeBytes_other (by omega), h.last hold]
    rw [toNat_offset p (by decide)]
    simp only [pageSize]
    omega
  obtain ⟨u, hu, hulen⟩ := IsString.exists_of_nul hlast
  refine ⟨hlast, u, hu, ?_⟩
  by_cases hs : s = []
  · -- the first byte that is copied is the NUL
    obtain ⟨t, -, rfl⟩ := hg.copies
    have hz : mm.mem value = 0 := by
      have := hg.string
      rw [hs] at this
      exact this
    have hnil : IsString (storeBytes mm'.mem p (mm.mem value :: t)) p [] := by
      change storeBytes _ _ _ p = 0
      rw [storeBytes_apply (by omega), BitVec.sub_self]
      exact hz
    rw [hu.unique hnil, hs]
    exact ⟨iff_of_true rfl (.inl rfl), fun _ => rfl⟩
  · have hbs : bs = s := hg.copies.eq_of_ne hg.string hs
    rw [hbs] at hu hshort
    simp only [pageSize] at hulen
    obtain ⟨hpre, hrest⟩ := (IsString.storeBytes_iff hg.string.ne_zero (by omega) (by omega)).mp hu
    have hends : mm'.mem (p + BitVec.ofNat 32 s.length) = 0 ↔ Terminated mm old L s := by
      rw [h.nul hshort, Terminated, or_iff_right hs, NulAt]
    have hlen : mm'.mem (p + BitVec.ofNat 32 s.length) = 0 ↔ u.length = s.length := by
      have hnil : IsString mm'.mem (p + BitVec.ofNat 32 s.length) [] ↔ u.drop s.length = [] :=
        ⟨fun hn => hrest.unique hn, fun hd => hd ▸ hrest⟩
      have hle := hpre.length_le
      rw [List.drop_eq_nil_iff] at hnil
      refine Iff.trans hnil ⟨fun _ => by omega, fun _ => by omega⟩
    rw [← hends]
    exact ⟨hlen.symm, fun hz => (hpre.eq_of_length (hlen.mp hz).symm).symm⟩

/-- The object and the memory after a string property has been set. -/
structure WasSet (mm : MemMgr) (o : IoAny) (which : IoProp) (old : Word) (L : Nat)
    (s bs : List Byte) (p : Word) (mm' : MemMgr) : Prop where
  strings : Strings mm' (o.withString which p)
  mem : ∀ x, pageOf x ≠ pageOf p → mm'.mem x = mm.mem x
  outside : ∀ {a n}, Outside mm o a n → Outside mm' (o.withString which p) a n
  other : ∀ {other q}, other ≠ which → o.string other = some q → pageOf q ≠ pageOf p
  stored : Stored mm' p
  ne_zero : p ≠ 0
  room : old = 0 → ∃ n < 2 ^ 20, patBit mm n = false
  result : ∃ u, IsString mm'.mem p u ∧ (u.length = s.length ↔ Terminated mm old L s)
    ∧ (Terminated mm old L s → u = s)
  /-- behind the bytes that were copied -/
  behind : ∀ n < pageSize, bs.length ≤ n → NulAt mm old L n →
    mm'.mem (p + BitVec.ofNat 32 n) = 0

theorem Space.ne_zero (h : Space mm old L p mm') (hstr : Strings mm o)
    (ho : o.string which = some old) : p ≠ 0 := by
  rintro rfl
  rcases h.page with ⟨h0, hp⟩ | hfree
  · exact h0 (pageOf_inj (hstr.stored ho h0).aligned rfl hp.symm)
  · exact Bool.noConfusion (hfree.symm.trans hstr.low)

theorem Space.other {other : IoProp} {q : Word} (h : Space mm old L p mm') (hstr : Strings mm o)
    (ho : o.string which = some old) (hne : other ≠ which) (hq : o.string other = some q) :
    pageOf q ≠ pageOf p := by
  intro he
  rcases h.page with ⟨h0, hp⟩ | hfree
  · have hold := hstr.stored ho h0
    by_cases hq0 : q = 0
    · refine h0 (pageOf_inj hold.aligned rfl ?_)
      rw [← hp, ← he, hq0]
    · have hqo : q = old := pageOf_inj (hstr.stored hq hq0).aligned hold.aligned (he.trans hp)
      exact hne (hstr.apart hq (hqo ▸ ho) hq0)
  · rw [← he] at hfree
    by_cases hq0 : q = 0
    · rw [hq0, show pageOf 0 = 0 from rfl, hstr.low] at hfree
      cases hfree
    · rw [(hstr.stored hq hq0).marked] at hfree
      cases hfree

/-- The pointer of a string property after one has been set. -/
theorem IoAny.withString_cases {which' : IoProp} {q : Word} (ho : o.string which = some old)
    (hq : (o.withString which p).string which' = some q) :
    which' = which ∧ q = p ∨ which' ≠ which ∧ o.string which' = some q := by
  by_cases hw : which' = which
  · rw [hw, IoAny.withString_self ho] at hq
    exact .inl ⟨hw, (Option.some.inj hq).symm⟩
  · rw [IoAny.withString_other ho hw] at hq
    exact .inr ⟨hw, hq⟩

theorem Space.wasSet (h : Space mm old L p mm') (hstr : Strings mm o)
    (ho : o.string which = some old) (hg : Given mm o value s bs) :
    WasSet mm o which old L s bs p { mm' with mem := storeBytes mm'.mem p bs } := by
  obtain ⟨hlast, hres⟩ := h.result (hstr.stored ho) hg
  have hshort : bs.length ≤ pageSize := Nat.le_of_lt hg.short
  have hmem : ∀ x, pageOf x ≠ pageOf p → storeBytes mm'.mem p bs x = mm.mem x := by
    intro x hx
    rw [storeBytes_other (Nat.le_trans hshort (by decide)) (le_of_pageOf_ne h.aligned hshort hx),
      h.mem x hx]
  have hpage0 : old ≠ 0 → pageOf old ≠ 0 := fun h0 hc =>
    h0 (pageOf_inj (hstr.stored ho h0).aligned rfl hc)
  refine ⟨⟨h.cursor, ?_, h.bits 0 hstr.low fun h0 => (hpage0 h0).symm, ?_, ?_⟩, hmem, ?_,
    h.other hstr ho, ⟨h.aligned, h.marked, hlast⟩, h.ne_zero hstr ho, h.room,
    hres, fun n hn hle hnul => ?_⟩
  · rw [IoAny.withString_handle]
    exact hstr.handle
  · intro which' q hq hq0
    rcases IoAny.withString_cases ho hq with ⟨-, rfl⟩ | ⟨hw, hq⟩
    · exact ⟨h.aligned, h.marked, hlast⟩
    · have hst := hstr.stored hq hq0
      have hpage := h.other hstr ho hw hq
      refine ⟨hst.aligned, h.bits _ hst.marked fun h0 hc => ?_, ?_⟩
      · have hqo : q = old := pageOf_inj hst.aligned (hstr.stored ho h0).aligned hc
        exact hw (hstr.apart hq (hqo ▸ ho) hq0)
      · have hx : pageOf (q + BitVec.ofNat 32 (pageSize - 1)) ≠ pageOf p := by
          rwa [pageOf_add hst.aligned (by decide)]
        exact (hmem _ hx).trans hst.last
  · intro w w' q hq hq' hq0
    rcases IoAny.withString_cases ho hq with ⟨rfl, rfl⟩ | ⟨hw, hold⟩
    · rcases IoAny.withString_cases ho hq' with ⟨rfl, -⟩ | ⟨hw', hold'⟩
      · rfl
      · exact absurd rfl (h.other hstr ho hw' hold')
    · rcases IoAny.withString_cases ho hq' with ⟨-, rfl⟩ | ⟨hw', hold'⟩
      · exact absurd rfl (h.other hstr ho hw hold)
      · exact hstr.apart hold hold' hq0
  · intro a n ha i hi
    obtain ⟨hmark, hpages⟩ := ha i hi
    refine ⟨h.bits _ hmark fun _ => hpages _ _ ho, fun w q hq => ?_⟩
    rcases IoAny.withString_cases ho hq with ⟨-, rfl⟩ | ⟨-, hq⟩
    · exact h.outside ha ho hi
    · exact hpages w q hq
  · have hpast : bs.length ≤ (p + BitVec.ofNat 32 n - p).toNat := by
      rwa [toNat_offset p (Nat.lt_trans hn (by decide))]
    refine (storeBytes_other (Nat.le_trans hshort (by decide)) hpast).trans ?_
    exact (h.nul hn).mpr hnul

/-- What setting a string property does; it fails if there is no string
yet and no memory for one. -/
theorem setprop_cases (hstr : Strings mm o) (ho : o.string which = some old)
    (hg : Given mm o value s bs) (hl : 0 ≤ length) :
    (∃ p mm', o.setprop mm which value length = .ok (.success, o.withString which p, mm')
        ∧ WasSet mm o which old (o.given s length) s bs p mm')
      ∨ (∃ f, o.setprop mm which value length = .error f) ∧ old = 0
        ∧ ∀ n < 2 ^ 20, patBit mm n = true := by
  rw [IoAny.setprop_string ho hstr.handle hl hg.string]
  rcases stringSpace_spec hstr.cursor (hstr.stored ho) with ⟨p, mm', hsp, h⟩ | ⟨⟨f, hf⟩, h⟩
  · refine .inl ⟨p, _, ?_, h.wasSet hstr ho hg⟩
    rw [h.setString hg ho hsp]
    rfl
  · refine .inr ⟨⟨f, ?_⟩, h⟩
    rw [setString, hf]
    rfl

/-! ## Any number of updates -/

/-- Others take and free pages and write to memory, and leave the strings
of the object alone. -/
structure Undisturbed (mm mm' : MemMgr) (o : IoAny) : Prop where
  cursor : mm'.lastAvailible < patSize
  low : patBit mm' 0 = true
  marked : ∀ {which p}, o.string which = some p → p ≠ 0 → patBit mm' (pageOf p) = true
  mem : ∀ {which p}, o.string which = some p → p ≠ 0 →
    ∀ x, pageOf x = pageOf p → mm'.mem x = mm.mem x

/-- The object has been made, with no strings, and its string properties
have been set any number of times. -/
inductive Updated : MemMgr → IoAny → Prop
  | made {mm : MemMgr} {o : IoAny} (hc : mm.lastAvailible < patSize) (hlow : patBit mm 0 = true)
      (hh : 0 ≤ o.handle) (hnull : ∀ which p, o.string which = some p → p = 0) : Updated mm o
  | set {mm mm' : MemMgr} {o o' : IoAny} {which : IoProp} {old value : Word} {length : Int}
      {s bs : List Byte} {st : Status} (h : Updated mm o) (ho : o.string which = some old)
      (hg : Given mm o value s bs)
      (hset : o.setprop mm which value length = .ok (st, o', mm')) : Updated mm' o'
  | others {mm mm' : MemMgr} {o : IoAny} (h : Updated mm o) (hu : Undisturbed mm mm' o) :
      Updated mm' o

theorem Strings.set (hstr : Strings mm o) (ho : o.string which = some old)
    (hg : Given mm o value s bs)
    (hset : o.setprop mm which value length = .ok (st, o', mm')) : Strings mm' o' := by
  rcases lt_or_ge length 0 with hl | hl
  · rw [IoAny.setprop_negative hl] at hset
    cases hset
    exact hstr
  · rcases setprop_cases hstr ho hg hl with ⟨p, mm₁, he, hw⟩ | ⟨⟨f, he⟩, -⟩
    · rw [hset] at he
      cases he
      exact hw.strings
    · rw [hset] at he
      cases he

theorem Strings.others (hstr : Strings mm o) (hu : Undisturbed mm mm' o) : Strings mm' o := by
  refine ⟨hu.cursor, hstr.handle, hu.low, fun ho h0 => ?_, hstr.apart⟩
  have hst := hstr.stored ho h0
  refine ⟨hst.aligned, hu.marked ho h0, ?_⟩
  rw [hu.mem ho h0 _ (pageOf_add hst.aligned (by decide)), hst.last]

/-- After any updates the strings are on pages of their own. -/
theorem Updated.strings (h : Updated mm o) : Strings mm o := by
  induction h with
  | made hc hlow hh hnull =>
      exact ⟨hc, hh, hlow, fun ho h0 => absurd (hnull _ _ ho) h0,
        fun ho _ h0 => absurd (hnull _ _ ho) h0⟩
  | set _ ho hg hset ih => exact ih.set ho hg hset
  | others _ hu ih => exact ih.others hu

/-! ## Getting -/

/-- The characters of `r` and what is behind them in the buffer make the
string `s`. -/
def Completes (m : Mem) (buffer : Word) (r s : List Byte) : Prop :=
  (r = [] ↔ s = []) ∧ r <+: s
    ∧ (s = [] ∨ IsString m (buffer + BitVec.ofNat 32 r.length) (s.drop r.length))

theorem Completes.congr {m m' : Mem} {r : List Byte} (h : Completes m buffer r s)
    (hm : ∀ i ≤ s.length, m' (buffer + BitVec.ofNat 32 i) = m (buffer + BitVec.ofNat 32 i)) :
    Completes m' buffer r s := by
  obtain ⟨hnil, hpre, hrest⟩ := h
  refine ⟨hnil, hpre, hrest.imp id fun hs => hs.congr fun i hi => ?_⟩
  have hle := hpre.length_le
  rw [List.length_drop] at hi
  rw [BitVec.add_assoc, ← BitVec.ofNat_add]
  exact hm _ (by omega)

theorem Outside.apart {a q : Word} {n : Nat} (h : Outside mm o a n) (hq : o.string which = some q)
    (hal : PageAligned q) : Apart a n q pageSize := by
  intro i hi j hj he
  refine (h i hi).2 _ _ hq ?_
  rw [he, pageOf_add hal hj]

/-- If the string `s` comes out, then its length is right, and what was
copied and what was in the buffer make it up. -/
theorem getString_only {src : Word} (hu : IsString mm.mem p u) (hlen : s.length < pageSize)
    (hap : Apart buffer s.length src (s.length + 1))
    (h : getString mm p src buffer plength = .ok (.success, s.length, mm'))
    (hs : IsString mm'.mem buffer s) :
    u.length = s.length ∧ ∃ r, IsString mm.mem src r ∧ Completes mm.mem buffer r s := by
  simp only [getString, strlen_spec hu, ok_bind] at h
  split at h
  · cases h
  · obtain ⟨m, hm, h⟩ := bind_eq_ok.mp h
    simp only [Except.ok.injEq, Prod.mk.injEq, true_and] at h
    obtain ⟨hul, rfl⟩ := h
    change IsString m buffer s at hs
    simp only [pageSize] at hlen
    refine ⟨by omega, ?_⟩
    have hfirst := strcpy_get (k := 0) hm (fun _ hi => absurd hi (Nat.not_lt_zero _))
      (hap.mono (Nat.zero_le _) (by omega))
    rw [BitVec.add_zero, BitVec.add_zero] at hfirst
    cases s with
    | nil => exact ⟨[], hfirst.symm.trans hs, Iff.rfl, List.prefix_rfl, .inl rfl⟩
    | cons c s =>
        have hne : mm.mem src ≠ 0 := by
          rw [← hfirst, hs.1]
          exact hs.2.1
        -- the copy ends in the buffer, or the last byte would not be zero
        have hend : ∃ i ≤ (c :: s).length, mm.mem (src + BitVec.ofNat 32 i) = 0 := by
          by_contra hc
          push Not at hc
          refine hc _ (Nat.le_refl _) ?_
          rw [← strcpy_get hm (fun i hi => hc (i + 1) hi) hap]
          exact hs.nul
        obtain ⟨k, hk, hz⟩ := hend
        obtain ⟨r, hr, hrlen⟩ := IsString.exists_of_nul hz
        cases r with
        | nil => exact absurd hr hne
        | cons c' r =>
            have hcopy : strcpy mm.mem buffer src = .ok (storeBytes mm.mem buffer (c' :: r)) :=
              strcpy_copies ⟨r, hr.2.2, by rw [hr.1]⟩ (hap.mono (by omega) (by omega))
            rw [hm] at hcopy
            cases hcopy
            obtain ⟨hpre, hrest⟩ := (IsString.storeBytes_iff hr.ne_zero (by omega) (by omega)).mp hs
            exact ⟨_, hr, by simp, hpre, .inr hrest⟩

/-- If the length is right, and what is copied and what is in the buffer
make up `s`, then it comes out, and nothing outside the buffer changes. -/
theorem getString_of {src : Word} {r : List Byte} (hu : IsString mm.mem p u)
    (hul : u.length = s.length) (hr : IsString mm.mem src r) (hc : Completes mm.mem buffer r s)
    (hlen : s.length < pageSize) (hcap : (s.length : Int) < plength)
    (hap : Apart buffer plength.toNat src pageSize)
    (hfit : s = [] → ∃ j, 0 < j ∧ j < pageSize ∧ (j : Int) ≤ plength
      ∧ mm.mem (src + BitVec.ofNat 32 j) = 0) :
    ∃ mm', getString mm p src buffer plength = .ok (.success, s.length, mm')
      ∧ IsString mm'.mem buffer s
      ∧ ∀ x, (∀ i < plength.toNat, x ≠ buffer + BitVec.ofNat 32 i) → mm'.mem x = mm.mem x := by
  obtain ⟨hnil, hpre, hrest⟩ := hc
  have hple := hpre.length_le
  simp only [pageSize] at hlen
  -- the bytes that are copied fit into the buffer
  have hbs : ∃ bs, Copies mm.mem src bs ∧ bs.length < pageSize ∧ bs.length ≤ plength.toNat
      ∧ IsString (storeBytes mm.mem buffer bs) buffer s := by
    cases r with
    | nil =>
        obtain ⟨j, hpos, hpage, hcap', hz⟩ := hfit (hnil.mp rfl)
        obtain ⟨j, rfl⟩ : ∃ i, j = i + 1 := ⟨j - 1, by omega⟩
        rw [← add_ofNat_succ] at hz
        obtain ⟨t, ht, htlen⟩ := IsString.exists_of_nul hz
        have hz0 : mm.mem src = 0 := hr
        simp only [pageSize] at hpage
        refine ⟨mm.mem src :: t, ⟨t, ht, rfl⟩, ?_, ?_, ?_⟩
        · simp only [List.length_cons, pageSize]
          omega
        · simp only [List.length_cons]
          omega
        · rw [hnil.mp rfl]
          change storeBytes _ _ _ buffer = 0
          rw [storeBytes_apply (by simp only [List.length_cons]; omega), BitVec.sub_self]
          exact hz0
    | cons c r =>
        have hs : s ≠ [] := fun hc => absurd (hnil.mpr hc) (List.cons_ne_nil _ _)
        refine ⟨c :: r, ⟨r, hr.2.2, by rw [hr.1]⟩, by simp only [pageSize]; omega, by omega, ?_⟩
        exact (IsString.storeBytes_iff hr.ne_zero (by omega) (by omega)).mpr
          ⟨hpre, hrest.resolve_left hs⟩
  obtain ⟨bs, hcopies, hpage, hfits, hstring⟩ := hbs
  simp only [pageSize] at hpage
  have hcopy := strcpy_copies hcopies (hap.mono hfits (by simp only [pageSize]; omega))
  have hmore : ¬plength < s.length := by omega
  refine ⟨{ mm with mem := storeBytes mm.mem buffer bs }, ?_, hstring, fun x hx => ?_⟩
  · simp only [getString, strlen_spec hu, ok_bind, hul, hmore, ↓reduceIte, hcopy]
  · refine storeBytes_other (by omega) ?_
    by_contra hlt
    exact hx (x - buffer).toNat (by omega) (add_offset ..).symm

/-! ## Setting and then getting -/

/-- The property is set to `s` and gives `s`, and the other string
properties stay as they are. -/
def RoundTrip (mm : MemMgr) (o : IoAny) (which : IoProp) (value : Word) (length : Int)
    (buffer : Word) (plength : Int) (s : List Byte) : Prop :=
  ∃ o' mm' mm'', o.setprop mm which value length = .ok (.success, o', mm')
    ∧ o'.getprop mm' which buffer plength = .ok (.success, s.length, mm'')
    ∧ IsString mm''.mem buffer s
    ∧ ∀ other q, other ≠ which → o.string other = some q → o'.string other = some q
      ∧ (q ≠ 0 → ∀ u, IsString mm.mem q u → IsString mm''.mem q u)

/-- What it takes: memory, if there is no string yet; a NUL behind the
characters on the page; and that what is copied, together with what is in
the buffer, is the string. -/
structure Suited (mm : MemMgr) (o : IoAny) (which : IoProp) (old : Word) (length : Int)
    (buffer : Word) (s : List Byte) : Prop where
  room : old = 0 → ∃ n < 2 ^ 20, patBit mm n = false
  ends : Terminated mm old (o.given s length) s
  buffer : ∃ r, (if o.copied which = which then r = s
      else ∃ src, o.string (o.copied which) = some src ∧ IsString mm.mem src r)
    ∧ Completes mm.mem buffer r s

theorem WasSet.copied (h : WasSet mm o which old L s bs p mm') (ho : o.string which = some old)
    (hstr : Strings mm o) :
    ∃ src, (o.withString which p).string (o.copied which) = some src ∧ PageAligned src
      ∧ (o.copied which = which ∧ src = p
        ∨ o.copied which ≠ which ∧ o.string (o.copied which) = some src) := by
  obtain ⟨src, hsrc⟩ := IoAny.copied_string ho
  by_cases hc : o.copied which = which
  · exact ⟨p, by rw [hc, IoAny.withString_self ho], h.stored.aligned, .inl ⟨hc, rfl⟩⟩
  · refine ⟨src, by rw [IoAny.withString_other ho hc, hsrc], ?_, .inr ⟨hc, hsrc⟩⟩
    by_cases h0 : src = 0
    · rw [h0]
      rfl
    · exact (hstr.stored hsrc h0).aligned

/-- What is read is the string that was set, or the one of the property that
stands for it. -/
theorem WasSet.read_iff {src : Word} {r : List Byte} (h : WasSet mm o which old L s bs p mm')
    (hal : PageAligned src) (hcop : o.copied which = which ∧ src = p
      ∨ o.copied which ≠ which ∧ o.string (o.copied which) = some src)
    (hends : Terminated mm old L s) (hlen : r.length < pageSize) :
    IsString mm'.mem src r ↔ if o.copied which = which then r = s
      else ∃ src, o.string (o.copied which) = some src ∧ IsString mm.mem src r := by
  rcases hcop with ⟨hcop, rfl⟩ | ⟨hcop, hold⟩
  · obtain ⟨u, hu, -, hset⟩ := h.result
    obtain rfl := hset hends
    rw [if_pos hcop]
    exact ⟨fun hr => hr.unique hu, fun hr => hr ▸ hu⟩
  · have hsame : ∀ x, pageOf x = pageOf src → mm'.mem x = mm.mem x := fun x hx =>
      h.mem x (hx ▸ h.other hcop hold)
    rw [if_neg hcop]
    constructor
    · exact fun hr => ⟨src, hold, string_same_page hr hal hlen fun x hx => (hsame x hx).symm⟩
    · rintro ⟨src', hsrc', hr⟩
      obtain rfl := Option.some.inj (hold.symm.trans hsrc')
      exact string_same_page hr hal hlen hsame

theorem WasSet.outside_mem {a : Word} {n i : Nat} (h : WasSet mm o which old L s bs p mm')
    (ho : o.string which = some old) (ha : Outside mm o a n) (hi : i < n) :
    mm'.mem (a + BitVec.ofNat 32 i) = mm.mem (a + BitVec.ofNat 32 i) :=
  h.mem _ ((h.outside ha i hi).2 _ _ (IoAny.withString_self ho))

/-- The other strings stay, also when bytes outside of them change. -/
theorem WasSet.other_string {other : IoProp} {q a : Word} {n : Nat} {m : Mem}
    (h : WasSet mm o which old L s bs p mm') (hstr : Strings mm o) (hne : other ≠ which)
    (hq : o.string other = some q) (hq0 : q ≠ 0) (ha : Outside mm o a n)
    (hm : ∀ x, (∀ i < n, x ≠ a + BitVec.ofNat 32 i) → m x = mm'.mem x)
    (hu : IsString mm.mem q u) : IsString m q u := by
  have hst := hstr.stored hq hq0
  obtain ⟨v, hv, hlen⟩ := hst.string
  rw [hv.unique hu] at hlen
  refine string_same_page hu hst.aligned hlen fun x hx => ?_
  rw [hm x fun i hi he => (ha i hi).2 _ _ hq (he ▸ hx), h.mem x (hx ▸ h.other hne hq)]

/-- What `strcpy` takes for the empty string, up to the next NUL of the page, is
no longer than the buffer. -/
def EmptyFits (mm : MemMgr) (o : IoAny) (which : IoProp) (old : Word) (length plength : Int)
    (bs : List Byte) : Prop :=
  ∃ j, j < pageSize ∧ (j : Int) ≤ plength
    ∧ if o.copied which = which then bs.length ≤ j ∧ NulAt mm old (o.given [] length) j
      else 0 < j ∧ ∀ src, o.string (o.copied which) = some src →
        mm.mem (src + BitVec.ofNat 32 j) = 0

/-- The NUL is there when the property has been set. -/
theorem EmptyFits.nul {src : Word} (hfit : EmptyFits mm o which old length plength bs)
    (h : WasSet mm o which old (o.given [] length) [] bs p mm') (hg : Given mm o value [] bs)
    (hal : PageAligned src) (hcop : o.copied which = which ∧ src = p
      ∨ o.copied which ≠ which ∧ o.string (o.copied which) = some src) :
    ∃ j, 0 < j ∧ j < pageSize ∧ (j : Int) ≤ plength
      ∧ mm'.mem (src + BitVec.ofNat 32 j) = 0 := by
  obtain ⟨j, hj, hjlen, hnul⟩ := hfit
  rcases hcop with ⟨hcop, rfl⟩ | ⟨hcop, hold⟩
  · rw [if_pos hcop] at hnul
    obtain ⟨t, -, rfl⟩ := hg.copies
    exact ⟨j, Nat.lt_of_lt_of_le (Nat.succ_pos _) hnul.1, hj, hjlen, h.behind j hj hnul.1 hnul.2⟩
  · rw [if_neg hcop] at hnul
    refine ⟨j, hnul.1, hj, hjlen, (h.mem _ ?_).trans (hnul.2 src hold)⟩
    rw [pageOf_add hal hj]
    exact h.other hcop hold

/-- The rest of a page is enough, if there is a string to be copied. -/
theorem EmptyFits.of_page (hstr : Strings mm o) (ho : o.string which = some old)
    (hg : Given mm o value [] bs) (hcap : (pageSize : Int) ≤ plength)
    (hpath : o.copied which ≠ which → o.string (o.copied which) ≠ some 0) :
    EmptyFits mm o which old length plength bs := by
  have hshort := hg.short
  refine ⟨pageSize - 1, by decide, by omega, ?_⟩
  split
  · refine ⟨by omega, ?_⟩
    by_cases h0 : old = 0
    · exact .inl h0
    · exact .inr (.inr (hstr.stored ho h0).last)
  · exact ⟨by decide, fun src hsrc =>
      (hstr.stored hsrc fun h0 => hpath ‹_› (h0 ▸ hsrc)).last⟩

theorem Strings.roundTrip_iff (hstr : Strings mm o) (ho : o.string which = some old)
    (hg : Given mm o value s bs) (hl : 0 ≤ length) (hb : Outside mm o buffer plength.toNat)
    (hcap : (s.length : Int) < plength)
    (hfit : s = [] → EmptyFits mm o which old length plength bs) :
    RoundTrip mm o which value length buffer plength s
      ↔ Suited mm o which old length buffer s := by
  have hlen : s.length < pageSize := hg.length_lt
  rcases setprop_cases hstr ho hg hl with ⟨p, mm', hset, hw⟩ | ⟨⟨f, hset⟩, h0, hfull⟩
  · obtain ⟨u, hu, hulen, -⟩ := hw.result
    obtain ⟨src, hsrc, hal, hcop⟩ := hw.copied ho hstr
    have hbuf : ∀ i ≤ s.length, mm'.mem (buffer + BitVec.ofNat 32 i)
        = mm.mem (buffer + BitVec.ofNat 32 i) := fun i hi => hw.outside_mem ho hb (by omega)
    have hap : Apart buffer plength.toNat src pageSize := (hw.outside hb).apart hsrc hal
    have hget : ∀ mm₁, (o.withString which p).getprop mm₁ which buffer plength
        = getString mm₁ p src buffer plength := fun mm₁ =>
      IoAny.getprop_string (IoAny.withString_self ho)
        (by rw [IoAny.withString_copied ho, hsrc]) hw.strings.handle (by omega)
    constructor
    · rintro ⟨o', mm₁, mm₂, hset', hgot, hs, -⟩
      rw [hset] at hset'
      cases hset'
      rw [hget] at hgot
      obtain ⟨hul, r, hr, hc⟩ := getString_only hu hlen (hap.mono (by omega) hlen) hgot hs
      have hrlen := hc.2.1.length_le
      exact ⟨hw.room, hulen.mp hul, r, (hw.read_iff hal hcop (hulen.mp hul) (by omega)).mp hr,
        hc.congr fun i hi => (hbuf i hi).symm⟩
    · intro hsuit
      obtain ⟨r, hr, hc⟩ := hsuit.buffer
      have hrlen := hc.2.1.length_le
      have hr' : IsString mm'.mem src r := (hw.read_iff hal hcop hsuit.ends (by omega)).mpr hr
      have hfit' : s = [] → ∃ j, 0 < j ∧ j < pageSize ∧ (j : Int) ≤ plength
          ∧ mm'.mem (src + BitVec.ofNat 32 j) = 0 := by
        rintro rfl
        exact (hfit rfl).nul hw hg hal hcop
      obtain ⟨mm₂, hgot, hs, hframe⟩ := getString_of hu (hulen.mpr hsuit.ends) hr'
        (hc.congr hbuf) hlen hcap hap hfit'
      refine ⟨_, mm', mm₂, hset, (hget mm').trans hgot, hs, fun other q hne hq => ⟨?_, ?_⟩⟩
      · rw [IoAny.withString_other ho hne, hq]
      · exact fun hq0 v hv => hw.other_string hstr hne hq hq0 hb hframe hv
  · refine iff_of_false ?_ ?_
    · rintro ⟨o', mm₁, mm₂, hset', -⟩
      rw [hset] at hset'
      cases hset'
    · intro hsuit
      obtain ⟨n, hn, hfree⟩ := hsuit.room h0
      rw [hfull n hn] at hfree
      cases hfree

/-- After any updates, a string property that is set to `s` gives `s`
exactly if there is a NUL where `strcpy` writes none. If the string is
empty, the buffer must hold what is on the page up to the next NUL, as one of
the length of a page does (`EmptyFits.of_page`). -/
theorem round_trip_iff (h : Updated mm o) (ho : o.string which = some old)
    (hg : Given mm o value s bs) (hl : 0 ≤ length) (hb : Outside mm o buffer plength.toNat)
    (hcap : (s.length : Int) < plength)
    (hfit : s = [] → EmptyFits mm o which old length plength bs) :
    RoundTrip mm o which value length buffer plength s
      ↔ Suited mm o which old length buffer s :=
  h.strings.roundTrip_iff ho hg hl hb hcap hfit

/-- The strings `fat` and `x`, and a page of zeros for a buffer. -/
def twoNames : MemMgr :=
  { lowPageUsed with
    mem := storeBytes (storeBytes (fun _ => 0) 0x200000 [0x66, 0x61, 0x74, 0]) 0x200010 [0x78, 0]
    pat := fun i => if i = 0 ∨ i = 64 then 0xFF else 0 }

/-- A filesystem without a name. -/
def nameless : IoAny := .filesystem ⟨1, 0, 0x30000, 0, 0⟩

theorem nameless_null {which : IoProp} {p : Word} (h : nameless.string which = some p) :
    p = 0 := by
  cases which
  all_goals cases h
  all_goals rfl

theorem nameless_updated : Updated twoNames nameless :=
  .made (by decide) (by decide) (by decide) fun _ _ h => nameless_null h

theorem nameless_outside {a : Word} {n : Nat}
    (h : ∀ i < n, patBit twoNames (pageOf (a + BitVec.ofNat 32 i)) = true
      ∧ pageOf (a + BitVec.ofNat 32 i) ≠ 0) : Outside twoNames nameless a n := by
  intro i hi
  refine ⟨(h i hi).1, fun which p hp => ?_⟩
  rw [nameless_null hp]
  exact (h i hi).2

theorem nameless_fat : Given twoNames nameless 0x200000 [0x66, 0x61, 0x74] [0x66, 0x61, 0x74] :=
  ⟨by decide, ⟨[0x61, 0x74], by decide, by decide⟩, by decide, nameless_outside (by decide)⟩

/-- A filesystem without a name gets one, and gives it; or gets an empty one, and
gives it to a buffer of one byte. -/
theorem round_trip_fat :
    RoundTrip twoNames nameless .name 0x200000 3 0x201000 4 [0x66, 0x61, 0x74]
    ∧ RoundTrip twoNames nameless .name 0x200020 0 0x201000 1 [] := by
  have hroom : (0 : Word) = 0 → ∃ n < 2 ^ 20, patBit twoNames n = false :=
    fun _ => ⟨8, by decide, by decide⟩
  have hempty : Given twoNames nameless 0x200020 [] [0] :=
    ⟨by decide, ⟨[], by decide, by decide⟩, by decide, nameless_outside (by decide)⟩
  constructor
  · refine (round_trip_iff nameless_updated rfl nameless_fat (by decide)
      (nameless_outside (by decide)) (by decide) (fun h => by cases h)).mpr ?_
    refine ⟨hroom, .inr (.inl rfl), [0x66, 0x61, 0x74], rfl, ?_⟩
    exact ⟨by decide, by decide, .inr (by decide)⟩
  · refine (round_trip_iff nameless_updated rfl hempty (by decide)
      (nameless_outside (by decide)) (by decide) (fun _ => ?_)).mpr ?_
    · exact ⟨1, by decide, by decide, Nat.le_refl 1, .inl rfl⟩
    · exact ⟨hroom, .inl rfl, [], rfl, Iff.rfl, List.prefix_rfl, .inl rfl⟩

/-- A filesystem with the name `fat` that is then set to `x` is called
`xat`. -/
theorem round_trip_tail : ∃ o mm,
    nameless.setprop twoNames .name 0x200000 3 = .ok (.success, o, mm) ∧ Updated mm o
    ∧ Given mm o 0x200010 [0x78] [0x78] ∧ Outside mm o 0x201000 4
    ∧ ¬RoundTrip mm o .name 0x200010 1 0x201000 4 [0x78] := by
  have hstr := nameless_updated.strings
  have hname : nameless.string .name = some 0 := rfl
  rcases setprop_cases hstr hname nameless_fat (by decide : (0 : Int) ≤ 3) with
    ⟨p, mm, hset, hw⟩ | ⟨-, -, hfull⟩
  · have hx : Outside twoNames nameless 0x200010 2 := nameless_outside (by decide)
    have hb : Outside twoNames nameless 0x201000 4 := nameless_outside (by decide)
    have hmem : ∀ i < 2, mm.mem (0x200010 + BitVec.ofNat 32 i)
        = twoNames.mem (0x200010 + BitVec.ofNat 32 i) := fun i hi => hw.outside_mem hname hx hi
    have hs : IsString mm.mem 0x200010 [0x78] := by
      have : IsString twoNames.mem 0x200010 [0x78] := by decide
      exact this.congr fun i hi => hmem i (Nat.lt_succ_of_le hi)
    have hg : Given mm (nameless.withString .name p) 0x200010 [0x78] [0x78] :=
      ⟨hs, ⟨[], hs.2.2, by rw [hs.1]⟩, by decide, hw.outside hx⟩
    refine ⟨_, mm, hset, nameless_updated.set hname nameless_fat hset, hg, hw.outside hb,
      fun hr => ?_⟩
    have hsuit := (hw.strings.roundTrip_iff rfl hg (by decide) (hw.outside hb) (by decide)
      (fun h => by cases h)).mp hr
    obtain ⟨u, hu, -, hends⟩ := hw.result
    have hfat := hends (.inr (.inl rfl))
    rw [hfat] at hu
    have hle := (terminated_iff hw.ne_zero (List.cons_ne_nil _ _) hu).mp hsuit.ends
    exact absurd hle (by decide)
  · have := hfull 8 (by decide)
    cases this

end SpKernel
