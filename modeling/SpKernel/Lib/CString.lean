import SpKernel.Lib.Memory

/-!
# Strings that end in a NUL

`IsString m a s` says that the bytes from `a` on are those of `s`, none
of which is zero, and then a zero. It follows the recursion a loop over
the string makes, so that a specification of such a loop is an induction
on `s` and needs no index.

Which string is at an address is determined by the memory
(`IsString.unique`), and only by the bytes up to its NUL
(`IsString.congr`). Where a NUL follows there is a string
(`IsString.exists_of_nul`), and it ends at the first one
(`IsString.length_le`); addresses wrap, so a string is shorter than the
memory (`IsString.length_lt`).

Strings are made by storing their characters: with a NUL behind them
(`IsString.of_stored`), or over the beginning of what was there, which
then is a string exactly if what is left of it fits
(`IsString.storeBytes_iff`).
-/

namespace SpKernel.Lib

variable {m m' : Mem} {a : BitVec 32} {s t : List (BitVec 8)}

/-- The string at `a` is `s`. -/
def IsString (m : Mem) : BitVec 32 → List (BitVec 8) → Prop
  | a, [] => m a = 0
  | a, c :: s => m a = c ∧ c ≠ 0 ∧ IsString m (a + 1#32) s

instance decidableIsString (m : Mem) : ∀ a s, Decidable (IsString m a s)
  | a, [] => inferInstanceAs (Decidable (m a = 0))
  | a, _ :: s =>
      @instDecidableAnd _ _ _ (@instDecidableAnd _ _ _ (decidableIsString m (a + 1#32) s))

namespace IsString

theorem unique : ∀ {s t : List (BitVec 8)} {a : BitVec 32}, IsString m a s → IsString m a t → s = t
  | [], [], _, _, _ => rfl
  | [], _ :: _, _, hs, ht => absurd (ht.1.symm.trans hs) ht.2.1
  | _ :: _, [], _, hs, ht => absurd (hs.1.symm.trans ht) hs.2.1
  | _ :: _, _ :: _, _, hs, ht => by rw [← hs.1, ← ht.1, unique hs.2.2 ht.2.2]

theorem congr : ∀ {s : List (BitVec 8)} {a : BitVec 32}, IsString m a s →
    (∀ i ≤ s.length, m' (a + BitVec.ofNat 32 i) = m (a + BitVec.ofNat 32 i)) → IsString m' a s
  | [], a, hs, h => by
      have h0 := h 0 (Nat.le_refl 0)
      rw [BitVec.add_zero] at h0
      exact h0.trans hs
  | c :: s, a, hs, h => by
      have h0 := h 0 (Nat.zero_le _)
      rw [BitVec.add_zero] at h0
      refine ⟨h0.trans hs.1, hs.2.1, congr hs.2.2 fun i hi => ?_⟩
      rw [add_ofNat_succ]
      exact h (i + 1) (Nat.succ_le_succ hi)

theorem get : ∀ {s : List (BitVec 8)} {a : BitVec 32}, IsString m a s → ∀ i (h : i < s.length),
    m (a + BitVec.ofNat 32 i) = s[i] ∧ s[i] ≠ 0
  | c :: s, a, hs, 0, _ => by
      rw [BitVec.add_zero]
      exact ⟨hs.1, hs.2.1⟩
  | c :: s, a, hs, i + 1, h => by
      rw [← add_ofNat_succ]
      exact get hs.2.2 i (Nat.lt_of_succ_lt_succ h)

theorem ne_zero (h : IsString m a s) : ∀ b ∈ s, b ≠ 0 := by
  intro b hb
  obtain ⟨i, hi, rfl⟩ := List.mem_iff_getElem.mp hb
  exact (h.get i hi).2

theorem nul : ∀ {s : List (BitVec 8)} {a : BitVec 32}, IsString m a s →
    m (a + BitVec.ofNat 32 s.length) = 0
  | [], a, hs => by
      rw [List.length_nil, BitVec.add_zero]
      exact hs
  | _ :: s, a, hs => by
      rw [List.length_cons, ← add_ofNat_succ]
      exact nul hs.2.2

theorem length_lt (hs : IsString m a s) : s.length < 2 ^ 32 := by
  by_contra hc
  have hlt : s.length % 2 ^ 32 < s.length := by omega
  obtain ⟨hb, hne⟩ := hs.get _ hlt
  refine hne (hb.symm.trans ?_)
  have : BitVec.ofNat 32 (s.length % 2 ^ 32) = BitVec.ofNat 32 s.length := by
    apply BitVec.eq_of_toNat_eq
    simp only [BitVec.toNat_ofNat]
    omega
  rw [this]
  exact hs.nul

theorem of_bytes : ∀ {s : List (BitVec 8)} {a : BitVec 32},
    (∀ i (h : i < s.length), m (a + BitVec.ofNat 32 i) = s[i] ∧ s[i] ≠ 0) →
    m (a + BitVec.ofNat 32 s.length) = 0 → IsString m a s
  | [], a, _, hn => by rwa [List.length_nil, BitVec.add_zero] at hn
  | c :: s, a, hb, hn => by
      obtain ⟨h1, h2⟩ := hb 0 (Nat.succ_pos _)
      rw [BitVec.add_zero] at h1
      refine ⟨h1, h2, of_bytes (fun i hi => ?_) ?_⟩
      · rw [add_ofNat_succ]
        exact hb (i + 1) (Nat.succ_lt_succ hi)
      · rwa [add_ofNat_succ]

/-- Characters that have been stored with a NUL behind them. -/
theorem of_stored (hs : ∀ c ∈ s, c ≠ 0) (hlen : s.length < 2 ^ 32) :
    IsString (storeBytes m a (s ++ [0])) a s := by
  have hcount : (s ++ [(0 : BitVec 8)]).length ≤ 2 ^ 32 := by
    rw [List.length_append, List.length_singleton]
    exact hlen
  refine of_bytes (fun i hi => ⟨?_, hs _ (List.getElem_mem hi)⟩) ?_
  · rw [storeBytes_apply hcount, toNat_offset a (hi.trans hlen), List.getElem?_append_left hi,
      List.getElem?_eq_getElem hi]
    rfl
  · rw [storeBytes_apply hcount, toNat_offset a hlen, List.getElem?_concat_length]
    rfl

theorem exists_of_nul : ∀ {k : Nat} {a : BitVec 32}, m (a + BitVec.ofNat 32 k) = 0 →
    ∃ s, IsString m a s ∧ s.length ≤ k
  | 0, a, h => by
      rw [BitVec.add_zero] at h
      exact ⟨[], h, Nat.le_refl 0⟩
  | k + 1, a, h => by
      by_cases h0 : m a = 0
      · exact ⟨[], h0, Nat.zero_le _⟩
      · rw [← add_ofNat_succ] at h
        obtain ⟨s, hs, hlen⟩ := exists_of_nul h
        exact ⟨m a :: s, ⟨rfl, h0, hs⟩, Nat.succ_le_succ hlen⟩

theorem length_le {k : Nat} (hs : IsString m a s) (h : m (a + BitVec.ofNat 32 k) = 0) :
    s.length ≤ k := by
  obtain ⟨t, ht, hle⟩ := exists_of_nul h
  rwa [hs.unique ht]

/-- Characters written over the beginning of a string. -/
theorem storeBytes_iff : ∀ {bs s : List (BitVec 8)} {m : Mem} {a : BitVec 32},
    (∀ b ∈ bs, b ≠ 0) → s.length < 2 ^ 32 → bs.length < 2 ^ 32 →
    (IsString (storeBytes m a bs) a s
      ↔ bs <+: s ∧ IsString m (a + BitVec.ofNat 32 bs.length) (s.drop bs.length))
  | [], s, m, a, _, _, _ => by simp [storeBytes]
  | b :: bs, s, m, a, hb, hs, hlen => by
      obtain ⟨hb0, hbs⟩ := List.forall_mem_cons.mp hb
      rw [List.length_cons] at hlen
      have hfirst : storeBytes m a (b :: bs) a = b := by
        rw [storeBytes_apply (by rw [List.length_cons]; omega), BitVec.sub_self]
        rfl
      cases s with
      | nil =>
          constructor
          · intro h
            exact absurd (hfirst.symm.trans h) hb0
          · rintro ⟨h, -⟩
            exact absurd (List.prefix_nil.mp h) (List.cons_ne_nil _ _)
      | cons c s =>
          rw [List.length_cons] at hs
          have ih := storeBytes_iff (s := s) (m := store 1 m a b) (a := a + 1#32) hbs
            (by omega) (by omega)
          -- the first byte is not one of those behind the characters
          have hkeep : bs <+: s → ∀ i ≤ (s.drop bs.length).length,
              store 1 m a b (a + 1#32 + BitVec.ofNat 32 bs.length + BitVec.ofNat 32 i)
                = m (a + 1#32 + BitVec.ofNat 32 bs.length + BitVec.ofNat 32 i) := by
            intro hp i hi
            have hle := hp.length_le
            rw [List.length_drop] at hi
            rw [store_byte, if_neg]
            intro he
            have h1 := congrArg BitVec.toNat he
            have h2 := a.isLt
            simp only [BitVec.toNat_add, BitVec.toNat_ofNat] at h1
            omega
          rw [List.length_cons, ← add_ofNat_succ, List.drop_succ_cons, List.cons_prefix_cons]
          constructor
          · rintro ⟨h1, -, h2⟩
            obtain ⟨hp, hr⟩ := ih.mp h2
            exact ⟨⟨hfirst.symm.trans h1, hp⟩, hr.congr fun i hi => (hkeep hp i hi).symm⟩
          · rintro ⟨⟨rfl, hp⟩, hr⟩
            exact ⟨hfirst, hb0, ih.mpr ⟨hp, hr.congr (hkeep hp)⟩⟩

end IsString

end SpKernel.Lib
