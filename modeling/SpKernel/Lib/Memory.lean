import Mathlib

/-!
# A flat 32-bit memory

Byte-addressed memory with little-endian words, addresses wrapping at
`2 ^ 32`. There are three ways to look at it, each with the rules that
its clients use instead of the definition.

- Single words: `load32` after `store` gives what was stored
  (`load32_store`), and depends on the four bytes only (`load32_congr`).
- Structured data is read and written as arrays of words at a
  page-aligned base (`readWord`, `writeWord`). `readWord_writeWord` and
  `readWord_memset` are the two rules such accesses obey, and are all a
  client needs: words at different page-aligned bases or different
  indices never overlap.
- Strings are stored byte by byte (`storeBytes`): `storeBytes_apply` says
  of every location which byte of the string covers it,
  `storeBytes_other` that a location outside the range is unchanged,
  `bytes_storeBytes` that what was stored is there. A word is such a
  string as far as the memory is concerned (`store_eq_storeBytes`).

`storeVia` stores through a translation of addresses. It agrees with
`storeBytes` where the translation is the identity (`storeVia_same`) and
touches no location that is not the image of an address of the range
(`storeVia_other`).

Addresses wrap, so a range of the memory is described by offsets from its
first byte (`offset_inj`, `toNat_offset`) and not by an inequality
between addresses.
-/

namespace SpKernel.Lib

/-- Byte-addressed memory. -/
abbrev Mem := BitVec 32 → BitVec 8

/-- Store the low `n` bytes of `v` at `a`, least significant first. -/
def store (n : Nat) {w : Nat} (m : Mem) (a : BitVec 32) (v : BitVec w) : Mem := fun x =>
  if (x - a).toNat < n then (v >>> (8 * (x - a).toNat)).setWidth 8 else m x

/-- The 32-bit word at `a`. -/
def load32 (m : Mem) (a : BitVec 32) : BitVec 32 :=
  m (a + 3#32) ++ m (a + 2#32) ++ m (a + 1#32) ++ m a

/-- Fill `n` bytes from `a` on. -/
def memset (m : Mem) (a : BitVec 32) (v : BitVec 8) (n : Nat) : Mem := fun x =>
  if (x - a).toNat < n then v else m x

/-- Element `i` of the array of words at `base`. -/
def readWord (m : Mem) (base : BitVec 32) (i : Nat) : BitVec 32 :=
  load32 m (base + BitVec.ofNat 32 (4 * i))

def writeWord (m : Mem) (base : BitVec 32) (i : Nat) (v : BitVec 32) : Mem :=
  store 4 m (base + BitVec.ofNat 32 (4 * i)) v

/-- A multiple of the page size. -/
def PageAligned (a : BitVec 32) : Prop := a.toNat % 4096 = 0

instance (a : BitVec 32) : Decidable (PageAligned a) :=
  inferInstanceAs (Decidable (_ = _))

/-! ## Offsets -/

theorem add_ofNat_succ (a : BitVec 32) (i : Nat) :
    a + 1#32 + BitVec.ofNat 32 i = a + BitVec.ofNat 32 (i + 1) := by
  rw [BitVec.add_assoc, ← BitVec.ofNat_add, Nat.add_comm]

theorem toNat_offset (a : BitVec 32) {i : Nat} (hi : i < 2 ^ 32) :
    (a + BitVec.ofNat 32 i - a).toNat = i := by
  rw [BitVec.add_comm, BitVec.add_sub_cancel, BitVec.toNat_ofNat, Nat.mod_eq_of_lt hi]

theorem add_offset (a x : BitVec 32) : a + BitVec.ofNat 32 (x - a).toNat = x := by
  rw [BitVec.ofNat_toNat, BitVec.setWidth_eq, BitVec.add_comm, BitVec.sub_add_cancel]

theorem offset_inj {a : BitVec 32} {i j : Nat} (hi : i < 2 ^ 32) (hj : j < 2 ^ 32)
    (h : a + BitVec.ofNat 32 i = a + BitVec.ofNat 32 j) : i = j := by
  rw [← toNat_offset a hi, h, toNat_offset a hj]

/-! ## Bytes of words -/

theorem load32_congr {m m' : Mem} {a : BitVec 32}
    (h : ∀ k < 4, m' (a + BitVec.ofNat 32 k) = m (a + BitVec.ofNat 32 k)) :
    load32 m' a = load32 m a := by
  have h0 := h 0 (by decide)
  have h1 := h 1 (by decide)
  have h2 := h 2 (by decide)
  have h3 := h 3 (by decide)
  rw [BitVec.add_zero] at h0
  simp only [load32, h0, h1, h2, h3]

theorem load32_store (m : Mem) (a v : BitVec 32) : load32 (store 4 m a v) a = v := by
  have hb : ∀ k < 4, store 4 m a v (a + BitVec.ofNat 32 k) = (v >>> (8 * k)).setWidth 8 := by
    intro k hk
    simp only [store, toNat_offset a (by omega : k < 2 ^ 32), hk, ↓reduceIte]
  have h0 := hb 0 (by decide)
  have h1 := hb 1 (by decide)
  have h2 := hb 2 (by decide)
  have h3 := hb 3 (by decide)
  rw [BitVec.add_zero] at h0
  simp only [load32, h0, h1, h2, h3]
  ext i hi
  simp only [BitVec.getElem_append]
  grind

theorem append_eq_zero {v w : Nat} {x : BitVec v} {y : BitVec w} :
    x ++ y = 0 ↔ x = 0 ∧ y = 0 := by
  rw [← BitVec.toNat_inj, ← BitVec.toNat_inj, ← BitVec.toNat_inj]
  simp [BitVec.toNat_append, Nat.or_eq_zero_iff, Nat.shiftLeft_eq]

theorem load32_eq_zero {m : Mem} {a : BitVec 32} :
    load32 m a = 0 ↔ ∀ k < 4, m (a + BitVec.ofNat 32 k) = 0 := by
  have hfirst : a + BitVec.ofNat 32 0 = a := BitVec.add_zero a
  unfold load32
  rw [append_eq_zero, append_eq_zero, append_eq_zero]
  simp only [Nat.forall_lt_succ_right, Nat.not_lt_zero, false_imp_iff, implies_true, true_and,
    hfirst]
  constructor
  · rintro ⟨⟨⟨h3, h2⟩, h1⟩, h0⟩
    exact ⟨⟨⟨h0, h1⟩, h2⟩, h3⟩
  · rintro ⟨⟨⟨h0, h1⟩, h2⟩, h3⟩
    exact ⟨⟨⟨h3, h2⟩, h1⟩, h0⟩

/-! ## Arrays of words on pages -/

/-- The addresses of the four bytes of a word are not among the four bytes
of another word of a page. -/
theorem word_apart {b b' : BitVec 32} {i i' k : Nat} (hb : PageAligned b)
    (hb' : PageAligned b') (hi : i < 1024) (hi' : i' < 1024) (hk : k < 4)
    (hne : ¬(b = b' ∧ i = i')) :
    ¬(b' + BitVec.ofNat 32 (4 * i') + BitVec.ofNat 32 k
      - (b + BitVec.ofNat 32 (4 * i))).toNat < 4 := by
  have hne' : b.toNat + 4 * i ≠ b'.toNat + 4 * i' := by
    intro he
    unfold PageAligned at hb hb'
    have hpage : b.toNat = b'.toNat := by omega
    exact hne ⟨BitVec.eq_of_toNat_eq hpage, by omega⟩
  unfold PageAligned at hb hb'
  have h1 := b.isLt
  have h2 := b'.isLt
  simp only [BitVec.toNat_sub, BitVec.toNat_add, BitVec.toNat_ofNat]
  omega

theorem readWord_writeWord {m : Mem} {b b' v : BitVec 32} {i i' : Nat}
    (hb : PageAligned b) (hb' : PageAligned b') (hi : i < 1024) (hi' : i' < 1024) :
    readWord (writeWord m b i v) b' i'
      = if b = b' ∧ i = i' then v else readWord m b' i' := by
  split
  · rename_i h
    obtain ⟨rfl, rfl⟩ := h
    exact load32_store ..
  · rename_i h
    exact load32_congr fun k hk => if_neg (word_apart hb hb' hi hi' hk h)

theorem readWord_memset {m : Mem} {b b' : BitVec 32} {i : Nat} (hb : PageAligned b)
    (hb' : PageAligned b') (hi : i < 1024) :
    readWord (memset m b 0 4096) b' i = if b = b' then 0 else readWord m b' i := by
  have h1 := b.isLt
  have h2 := b'.isLt
  have hoff : ∀ k < 4, ((b' + BitVec.ofNat 32 (4 * i) + BitVec.ofNat 32 k - b).toNat < 4096
      ↔ b = b') := by
    intro k hk
    rw [← BitVec.toNat_inj]
    unfold PageAligned at hb hb'
    simp only [BitVec.toNat_sub, BitVec.toNat_add, BitVec.toNat_ofNat]
    omega
  split
  · rename_i h
    have hz : readWord (memset m b 0 4096) b' i = load32 (fun _ => 0) b' := by
      simp only [readWord, load32, memset]
      have h0 := (hoff 0 (by decide)).mpr h
      rw [BitVec.add_zero] at h0
      rw [if_pos h0, if_pos ((hoff 1 (by decide)).mpr h),
        if_pos ((hoff 2 (by decide)).mpr h), if_pos ((hoff 3 (by decide)).mpr h)]
    rw [hz]
    simp only [load32]
    decide
  · rename_i h
    exact load32_congr fun k hk => if_neg (fun hc => h ((hoff k hk).mp hc))

/-! ## Strings of bytes -/

/-- Store the bytes one after the other, from `a` on. -/
def storeBytes (m : Mem) (a : BitVec 32) : List (BitVec 8) → Mem
  | [] => m
  | b :: bs => storeBytes (store 1 m a b) (a + 1#32) bs

/-- The `n` bytes from `a` on. -/
def bytes (m : Mem) (a : BitVec 32) (n : Nat) : List (BitVec 8) :=
  (List.range n).map fun i => m (a + BitVec.ofNat 32 i)

@[simp] theorem bytes_length {m : Mem} {a : BitVec 32} {n : Nat} : (bytes m a n).length = n := by
  simp [bytes]

theorem bytes_succ (m : Mem) (a : BitVec 32) (n : Nat) :
    bytes m a (n + 1) = m a :: bytes m (a + 1#32) n := by
  rw [bytes, List.range_succ_eq_map, List.map_cons, List.map_map]
  refine congrArg₂ List.cons (by simp) (List.map_congr_left fun j _ => ?_)
  rw [Function.comp_apply, Nat.succ_eq_add_one, Nat.add_comm, BitVec.ofNat_add,
    BitVec.add_assoc]

theorem bytes_take (m : Mem) (a : BitVec 32) {i n : Nat} (h : i ≤ n) :
    (bytes m a n).take i = bytes m a i := by
  rw [bytes, bytes, ← List.map_take, List.take_range, Nat.min_eq_left h]

theorem store_byte (m : Mem) (a x : BitVec 32) (b : BitVec 8) :
    store 1 m a b x = if x = a then b else m x := by
  have hx : (x - a).toNat < 1 ↔ x = a := by
    rw [← BitVec.toNat_inj]
    have h1 := x.isLt
    have h2 := a.isLt
    simp only [BitVec.toNat_sub]
    omega
  simp only [store, hx]
  split
  · rename_i he
    simp [he]
  · rfl

/-- The byte of the string that covers a location, or the old one. -/
theorem storeBytes_apply {bs : List (BitVec 8)} : ∀ {m : Mem} {a x : BitVec 32},
    bs.length ≤ 2 ^ 32 → storeBytes m a bs x = (bs[(x - a).toNat]?).getD (m x) := by
  induction bs with
  | nil => exact fun _ => rfl
  | cons b bs ih =>
      intro m a x hlen
      rw [List.length_cons] at hlen
      rw [storeBytes, ih (by omega), store_byte]
      have h1 := x.isLt
      have h2 := a.isLt
      by_cases hx : x = a
      · subst hx
        have hpast : bs.length ≤ (x - (x + 1#32)).toNat := by
          simp only [BitVec.toNat_sub, BitVec.toNat_add, BitVec.toNat_ofNat]
          omega
        rw [if_pos rfl, List.getElem?_eq_none hpast, BitVec.sub_self]
        rfl
      · have hne : x.toNat ≠ a.toNat := fun he => hx (BitVec.eq_of_toNat_eq he)
        have hnext : (x - a).toNat = (x - (a + 1#32)).toNat + 1 := by
          simp only [BitVec.toNat_sub, BitVec.toNat_add, BitVec.toNat_ofNat]
          omega
        rw [if_neg hx, hnext, List.getElem?_cons_succ]

theorem storeBytes_other {bs : List (BitVec 8)} {m : Mem} {a x : BitVec 32}
    (hlen : bs.length ≤ 2 ^ 32) (hx : bs.length ≤ (x - a).toNat) :
    storeBytes m a bs x = m x := by
  rw [storeBytes_apply hlen, List.getElem?_eq_none hx]
  rfl

theorem bytes_storeBytes {bs : List (BitVec 8)} : ∀ {m : Mem} {a : BitVec 32},
    bs.length ≤ 2 ^ 32 → bytes (storeBytes m a bs) a bs.length = bs := by
  induction bs with
  | nil => exact fun _ => rfl
  | cons b bs ih =>
      intro m a hlen
      rw [List.length_cons] at hlen ⊢
      have hfirst : bs.length ≤ (a - (a + 1#32)).toNat := by
        have h2 := a.isLt
        simp only [BitVec.toNat_sub, BitVec.toNat_add, BitVec.toNat_ofNat]
        omega
      rw [storeBytes, bytes_succ, ih (by omega), storeBytes_other (by omega) hfirst, store_byte,
        if_pos rfl]

/-- The low `n` bytes of a word, least significant first. -/
def wordBytes (n : Nat) {w : Nat} (v : BitVec w) : List (BitVec 8) :=
  (List.range n).map fun i => (v >>> (8 * i)).setWidth 8

@[simp] theorem wordBytes_length {n w : Nat} {v : BitVec w} : (wordBytes n v).length = n := by
  simp [wordBytes]

theorem store_eq_storeBytes {n w : Nat} (m : Mem) (a : BitVec 32) (v : BitVec w)
    (hn : n ≤ 2 ^ 32) : store n m a v = storeBytes m a (wordBytes n v) := by
  funext x
  rw [storeBytes_apply (by rwa [wordBytes_length]), store, wordBytes, List.getElem?_map]
  split
  · rename_i hx
    rw [List.getElem?_range hx]
    rfl
  · rename_i hx
    rw [List.getElem?_eq_none (by rw [List.length_range]; omega)]
    rfl

/-! ## Stores through a translation -/

/-- Store the bytes where a translation of addresses puts them; a byte
whose address has no location is lost. -/
def storeVia (T : BitVec 32 → Option (BitVec 32)) (m : Mem) (a : BitVec 32) :
    List (BitVec 8) → Mem
  | [] => m
  | b :: bs => storeVia T ((T a).elim m fun x => store 1 m x b) (a + 1#32) bs

section Via

variable {T : BitVec 32 → Option (BitVec 32)}

theorem storeVia_same {bs : List (BitVec 8)} : ∀ {m : Mem} {a : BitVec 32},
    (∀ i < bs.length, T (a + BitVec.ofNat 32 i) = some (a + BitVec.ofNat 32 i)) →
    storeVia T m a bs = storeBytes m a bs := by
  induction bs with
  | nil => exact fun _ => rfl
  | cons b bs ih =>
      intro m a h
      have hfirst := h 0 (Nat.zero_lt_succ _)
      rw [BitVec.add_zero] at hfirst
      rw [storeVia, storeBytes, hfirst, ih fun i hi => ?_]
      · rfl
      · rw [add_ofNat_succ]
        exact h (i + 1) (Nat.succ_lt_succ hi)

/-- A location that no address of the range has is unchanged. -/
theorem storeVia_other {bs : List (BitVec 8)} {x : BitVec 32} : ∀ {m : Mem} {a : BitVec 32},
    (∀ i < bs.length, T (a + BitVec.ofNat 32 i) ≠ some x) → storeVia T m a bs x = m x := by
  induction bs with
  | nil => exact fun _ => rfl
  | cons b bs ih =>
      intro m a h
      have hfirst := h 0 (Nat.zero_lt_succ _)
      rw [BitVec.add_zero] at hfirst
      rw [storeVia, ih fun i hi => ?_]
      · cases hT : T a with
        | none => rfl
        | some y =>
            refine (store_byte m y x b).trans (if_neg ?_)
            rintro rfl
            exact hfirst hT
      · rw [add_ofNat_succ]
        exact h (i + 1) (Nat.succ_lt_succ hi)

end Via

end SpKernel.Lib
