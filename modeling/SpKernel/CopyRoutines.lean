import SpKernel.Lib.Moving
import SpKernel.Strings

/-!
# Copying (`libc/string`)

`memmove` goes up or down, by which of the ranges comes first, and never
reads a byte it has written (`memmove_overlap`). Each direction is an
induction on the rounds with the invariant of the library on moving in
place, that a part of the destination is what the source was
(`memmoveUp_spec`, `memmoveDown_spec`).

`strcpy` is to copy a string and its NUL and to touch nothing else. It
never stores the NUL, so there is a string at `dest` only if there was a
zero behind it before; and of the empty string it copies the NUL and goes
on to what comes after it (`copies_string_iff`).

What it touches is part of the statement, so the loop runs on a memory
that logs its reads and writes (`strcpyAccesses`). It is the loop of
`Strings` with the log (`strcpyTraced_mem`). The two directions are
`strcpyTraced_spec`, which has the memory, the reads and the writes for a
string that is not empty, and `CopiesString.not_empty`: of the empty one
the byte behind the first is read, which is no byte of the string.
-/

namespace SpKernel

open Lib

/-! ## `memmove` -/

/-- `for( i = 0; i != n; ++i ) dstPtr[i] = srcPtr[i];` -/
def memmoveUp (dstPtr srcPtr n : Word) : Nat → Mem → Word → Except Fault Mem
  | 0, _, _ => .error .diverge
  | fuel + 1, m, i =>
      if i ≠ n then
        memmoveUp dstPtr srcPtr n fuel (store 1 m (dstPtr + i) (m (srcPtr + i))) (i + 1#32)
      else .ok m

/-- `for( i = n; i != 0; --i ) dstPtr[i - 1] = srcPtr[i - 1];` -/
def memmoveDown (dstPtr srcPtr : Word) : Nat → Mem → Word → Except Fault Mem
  | 0, _, _ => .error .diverge
  | fuel + 1, m, i =>
      if i ≠ 0#32 then
        memmoveDown dstPtr srcPtr fuel
          (store 1 m (dstPtr + (i - 1#32)) (m (srcPtr + (i - 1#32)))) (i - 1#32)
      else .ok m

/-- `memmove`: the pointer it returns, and memory. -/
def memmove (m : Mem) (dest src n : Word) : Except Fault (Word × Mem) := do
  let m ← if dest < src then memmoveUp dest src n (2 ^ 32) m 0#32
    else memmoveDown dest src (2 ^ 32) m n
  .ok (dest, m)

/-- The bytes of the destination are those of the source before, and the others
are as they were. -/
structure MovesBytes (m : Mem) (dest src n : Word) (m' : Mem) : Prop where
  inside : ∀ i < n.toNat, m' (dest + BitVec.ofNat 32 i) = m (src + BitVec.ofNat 32 i)
  outside : ∀ x, (∀ i < n.toNat, x ≠ dest + BitVec.ofNat 32 i) → m' x = m x

variable {m : Mem} {dest src n : Word}

theorem memmoveUp_spec (hlt : dest.toNat < src.toNat) (hs : src.toNat + n.toNat ≤ 2 ^ 32) :
    ∀ (fuel i : Nat), i ≤ n.toNat → n.toNat < i + fuel →
      memmoveUp dest src n fuel (moved m dest src 0 i) (BitVec.ofNat 32 i)
        = .ok (moved m dest src 0 n.toNat)
  | 0, i, hi, hf => absurd hf (Nat.not_lt.mpr hi)
  | fuel + 1, i, hi, hf => by
      have hnum : (BitVec.ofNat 32 i).toNat = i := by
        rw [BitVec.toNat_ofNat, Nat.mod_eq_of_lt (Nat.lt_of_le_of_lt hi n.isLt)]
      rw [memmoveUp]
      by_cases hn : BitVec.ofNat 32 i = n
      · rw [if_neg (not_not.mpr hn), ← hn, hnum]
      · have hlt' : i < n.toNat :=
          Nat.lt_of_le_of_ne hi fun he => hn (BitVec.eq_of_toNat_eq (hnum.trans he))
        have hnext : BitVec.ofNat 32 i + 1#32 = BitVec.ofNat 32 (i + 1) :=
          (BitVec.ofNat_add ..).symm
        rw [if_pos hn, moved_up hlt hs hlt', hnext]
        exact memmoveUp_spec hlt hs fuel (i + 1) hlt' (by omega)

theorem memmoveDown_spec (hle : src.toNat ≤ dest.toNat) (hd : dest.toNat + n.toNat ≤ 2 ^ 32) :
    ∀ (fuel i : Nat), i ≤ n.toNat → i < fuel →
      memmoveDown dest src fuel (moved m dest src i n.toNat) (BitVec.ofNat 32 i)
        = .ok (moved m dest src 0 n.toNat)
  | 0, _, _, hf => absurd hf (Nat.not_lt_zero _)
  | fuel + 1, 0, _, _ => by
      rw [memmoveDown, if_neg (not_not.mpr rfl)]
  | fuel + 1, i + 1, hi, hf => by
      have hnum : (BitVec.ofNat 32 (i + 1)).toNat = i + 1 := by
        rw [BitVec.toNat_ofNat, Nat.mod_eq_of_lt (Nat.lt_of_le_of_lt hi n.isLt)]
      have hne : BitVec.ofNat 32 (i + 1) ≠ 0#32 := by
        intro hz
        rw [hz] at hnum
        exact absurd hnum.symm (Nat.succ_ne_zero i)
      have hprev : BitVec.ofNat 32 (i + 1) - 1#32 = BitVec.ofNat 32 i := by
        rw [BitVec.ofNat_add]
        exact BitVec.add_sub_cancel ..
      rw [memmoveDown, if_pos hne, hprev, moved_down hle hd hi]
      exact memmoveDown_spec hle hd fuel i (Nat.le_of_succ_le hi) (Nat.lt_of_succ_lt_succ hf)

theorem memmove_spec (hs : src.toNat + n.toNat ≤ 2 ^ 32) (hd : dest.toNat + n.toNat ≤ 2 ^ 32) :
    memmove m dest src n = .ok (dest, moved m dest src 0 n.toNat) := by
  have hn := n.isLt
  rw [memmove]
  by_cases hlt : dest < src
  · have hup := memmoveUp_spec (m := m) (BitVec.lt_def.mp hlt) hs (2 ^ 32) 0 (Nat.zero_le _)
      (by omega)
    rw [moved_empty] at hup
    rw [if_pos hlt, hup, ok_bind]
  · have hdown := memmoveDown_spec (m := m) (Nat.le_of_not_lt fun h => hlt (BitVec.lt_def.mpr h))
      hd (2 ^ 32) n.toNat (Nat.le_refl _) hn
    rw [moved_empty, BitVec.ofNat_toNat, BitVec.setWidth_eq] at hdown
    rw [if_neg hlt, hdown, ok_bind]

/-- `memmove` returns, and has moved the bytes, whatever the two ranges have
in common, as long as neither wraps around. -/
theorem memmove_overlap (m : Mem) (dest src n : Word) (hs : src.toNat + n.toNat ≤ 2 ^ 32)
    (hd : dest.toNat + n.toNat ≤ 2 ^ 32) :
    ∃ m', memmove m dest src n = .ok (dest, m') ∧ MovesBytes m dest src n m' := by
  have hn := n.isLt
  refine ⟨_, memmove_spec hs hd, fun i hi => ?_, fun x hx => moved_outside fun hin => ?_⟩
  · exact moved_inside (by omega) (Nat.zero_le i) hi
  · exact hx _ hin.2 (add_offset dest x).symm

/-- Three bytes are moved up by one. -/
theorem memmove_overlap_one : ∃ m',
    memmove (fun x => x.setWidth 8) 0x1001 0x1000 3 = .ok (0x1001, m')
      ∧ MovesBytes (fun x => x.setWidth 8) 0x1001 0x1000 3 m' :=
  memmove_overlap _ _ _ _ (by decide) (by decide)

/-! ## `strcpy` -/

/-- The loop of `strcpy`, with what it writes and reads. -/
def strcpyAccesses : Nat → Accessed → Word → Word → Except Fault Accessed
  | 0, _, _, _ => .error .diverge
  | fuel + 1, t, dest, src =>
      let (c, t) := t.load src
      let t := t.store 1 dest c
      let (next, t) := t.load (src + 1#32)
      if next ≠ 0 then strcpyAccesses fuel t (dest + 1#32) (src + 1#32) else .ok t

/-- `strcpy`, with what it writes and reads. -/
def strcpyTraced (m : Mem) (dest src : Word) : Except Fault Accessed :=
  strcpyAccesses (2 ^ 32) (.start m) dest src

/-- The string and its NUL have been copied, nothing else has been written, and
nothing behind the NUL has been read. -/
structure CopiesString (m : Mem) (dest src : Word) (s : List Byte) (t : Accessed) : Prop where
  copied : IsString t.log.mem dest s
  writes : WritesWithin (fun x => (x - dest).toNat < s.length + 1) (.start m) t.log
  reads : ∀ x, t.read x = true → (x - src).toNat < s.length + 1

variable {s : List Byte} {t t' : Accessed} {a x : Word}

/-- The accesses after one round. -/
def strcpyRound (t : Accessed) (dest src : Word) : Accessed :=
  (((t.load src).2.store 1 dest (t.load src).1).load (src + 1#32)).2

theorem strcpyAccesses_succ (fuel : Nat) (t : Accessed) (dest src : Word) :
    strcpyAccesses (fuel + 1) t dest src
      = if store 1 t.log.mem dest (t.log.mem src) (src + 1#32) ≠ 0 then
          strcpyAccesses fuel (strcpyRound t dest src) (dest + 1#32) (src + 1#32)
        else .ok (strcpyRound t dest src) :=
  rfl

theorem strcpyRound_read :
    (strcpyRound t dest a).read x = true ↔ x = a + 1#32 ∨ x = a ∨ t.read x = true :=
  Accessed.load_read.trans (or_congr Iff.rfl Accessed.load_read)

theorem strcpyAccesses_log : ∀ (fuel : Nat) (t : Accessed) (dest a : Word),
    (strcpyAccesses fuel t dest a).map Accessed.log = strcpyLogged fuel t.log dest a
  | 0, _, _, _ => rfl
  | fuel + 1, t, dest, a => by
      rw [strcpyAccesses_succ, strcpyLogged]
      exact (apply_ite _ _ _ _).trans (if_congr Iff.rfl (strcpyAccesses_log fuel _ _ _) rfl)

theorem strcpyTraced_mem (m : Mem) (dest src : Word) :
    (strcpyTraced m dest src).map (fun t => t.log.mem) = strcpy m dest src := by
  refine Eq.trans ?_ (strcpyLogged_mem (2 ^ 32) (.start m) dest src)
  refine Eq.trans ?_ (congrArg (Except.map Logged.mem)
    (strcpyAccesses_log (2 ^ 32) (.start m) dest src))
  rw [strcpyTraced]
  cases strcpyAccesses (2 ^ 32) (.start m) dest src <;> rfl

theorem strcpyAccesses_keeps_read {fuel : Nat} (h : strcpyAccesses (fuel + 1) t dest a = .ok t')
    (hx : (strcpyRound t dest a).read x = true) : t'.read x = true := by
  induction fuel generalizing t dest a with
  | zero =>
      rw [strcpyAccesses_succ] at h
      split at h
      · cases h
      · exact Except.ok.inj h ▸ hx
  | succ fuel ih =>
      rw [strcpyAccesses_succ] at h
      split at h
      · exact ih h (strcpyRound_read.mpr (.inr (.inr hx)))
      · exact Except.ok.inj h ▸ hx

theorem strcpyAccesses_reads {fuel : Nat} (h : strcpyAccesses fuel t dest a = .ok t') :
    t'.read (a + 1#32) = true := by
  cases fuel with
  | zero => cases h
  | succ fuel => exact strcpyAccesses_keeps_read h (strcpyRound_read.mpr (.inl rfl))

theorem strcpyAccesses_read_within : ∀ {s : List Byte} {fuel : Nat} {t : Accessed} {dest a : Word},
    IsString t.log.mem (a + 1#32) s → Apart dest (s.length + 1) a (s.length + 2) →
    s.length + 1 < 2 ^ 32 → strcpyAccesses fuel t dest a = .ok t' → t'.read x = true →
    t.read x = true ∨ (x - a).toNat < s.length + 2
  | _, 0, _, _, _, _, _, _, h, _ => by cases h
  | s, fuel + 1, t, dest, a, hs, hap, hlen, h, hx => by
      have hs' : IsString (strcpyRound t dest a).log.mem (a + 1#32) s := hs.congr fun i hi => by
        rw [add_ofNat_succ]
        exact store_keeps (hap.mono (by omega) (Nat.le_refl _)) (by omega)
      have hround : (strcpyRound t dest a).read x = true →
          t.read x = true ∨ (x - a).toNat < s.length + 2 := by
        intro hread
        rcases strcpyRound_read.mp hread with rfl | rfl | hread
        · have hone := toNat_offset a (i := 1) (by decide)
          exact .inr (by rw [hone]; omega)
        · exact .inr (by rw [BitVec.sub_self]; exact Nat.succ_pos _)
        · exact .inl hread
      rw [strcpyAccesses_succ] at h
      cases s with
      | nil =>
          cases (if_neg (not_not.mpr hs')).symm.trans h
          exact hround hx
      | cons c s =>
          have hc : (strcpyRound t dest a).log.mem (a + 1#32) = c := hs'.1
          have hgo : (strcpyRound t dest a).log.mem (a + 1#32) ≠ 0 := hc ▸ hs'.2.1
          have h := (if_pos hgo).symm.trans h
          rw [List.length_cons] at hlen hround ⊢
          rcases strcpyAccesses_read_within hs'.2.2 hap.next (by omega) h hx with hread | hin
          · exact hround hread
          · refine .inr ?_
            have h1 := x.isLt
            have h2 := a.isLt
            simp only [BitVec.toNat_sub, BitVec.toNat_add, BitVec.toNat_ofNat] at hin ⊢
            omega

/-- Of a string that is not empty the characters are copied, and the NUL is read. -/
theorem strcpyTraced_spec {c : Byte} (hs : IsString m src (c :: s))
    (hap : Apart dest (s.length + 1) src (s.length + 2)) :
    ∃ t, strcpyTraced m dest src = .ok t
      ∧ t.log = (Logged.start m).storeBytes dest (c :: s)
      ∧ ∀ x, t.read x = true → (x - src).toNat < s.length + 2 := by
  have hlen := hs.length_lt
  have hlog := strcpyAccesses_log (2 ^ 32) (.start m) dest src
  rw [List.length_cons] at hlen
  rw [strcpyLogged_spec (t := (Accessed.start m).log) hs.2.2 (by omega) hap] at hlog
  rw [strcpyTraced]
  cases hrun : strcpyAccesses (2 ^ 32) (.start m) dest src with
  | error e =>
      rw [hrun] at hlog
      cases hlog
  | ok t =>
      rw [hrun] at hlog
      refine ⟨t, rfl, ?_, fun x hx => ?_⟩
      · have hfirst : (Accessed.start m).log.mem src = c := hs.1
        rw [hfirst] at hlog
        exact Except.ok.inj hlog
      · rcases strcpyAccesses_read_within (t := .start m) hs.2.2 hap hlen hrun hx with hread | hin
        · cases hread
        · exact hin

theorem strcpyTraced_nul {c : Byte} (hs : IsString m src (c :: s))
    (hap : Apart dest (s.length + 1) src (s.length + 2))
    (h : strcpyTraced m dest src = .ok t) :
    t.log.mem (dest + BitVec.ofNat 32 (s.length + 1))
      = m (dest + BitVec.ofNat 32 (s.length + 1)) := by
  obtain ⟨t', ht', hlog, -⟩ := strcpyTraced_spec hs hap
  have hlen := hs.length_lt
  rw [List.length_cons] at hlen
  obtain rfl := Except.ok.inj (h.symm.trans ht')
  rw [hlog, Logged.storeBytes_mem, storeBytes_other (by rw [List.length_cons]; omega)
    (by rw [toNat_offset dest hlen, List.length_cons])]
  rfl

theorem CopiesString.not_empty (h : strcpyTraced m dest src = .ok t)
    (hc : CopiesString m dest src s t) : s ≠ [] := by
  rintro rfl
  have hread := hc.reads _ (strcpyAccesses_reads h)
  rw [toNat_offset src (i := 1) (by decide)] at hread
  exact absurd hread (by decide)

/-- `strcpy` does what it is to do exactly for the strings that are not
empty, when there is a zero behind the copy before. -/
theorem copies_string_iff (m : Mem) (dest src : Word) (s : List Byte) (hs : IsString m src s)
    (hap : Apart dest (s.length + 1) src (s.length + 1)) :
    (∃ t, strcpyTraced m dest src = .ok t ∧ CopiesString m dest src s t)
      ↔ s ≠ [] ∧ m (dest + BitVec.ofNat 32 s.length) = 0 := by
  cases s with
  | nil =>
      refine iff_of_false ?_ fun h => h.1 rfl
      rintro ⟨t, ht, hc⟩
      exact hc.not_empty ht rfl
  | cons c s =>
      have hlen := hs.length_lt
      have hap' : Apart dest (s.length + 1) src (s.length + 2) :=
        hap.mono (Nat.le_succ _) (Nat.le_refl _)
      rw [List.length_cons] at hlen ⊢
      constructor
      · rintro ⟨t, ht, hc⟩
        refine ⟨List.cons_ne_nil _ _, ?_⟩
        rw [← strcpyTraced_nul hs hap' ht]
        exact hc.copied.nul
      · rintro ⟨-, hnul⟩
        obtain ⟨t, ht, hlog, hreads⟩ := strcpyTraced_spec hs hap'
        have hbytes : (c :: s).length < 2 ^ 32 := hlen
        refine ⟨t, ht, ?_, ?_, hreads⟩
        · rw [hlog, Logged.storeBytes_mem]
          refine (IsString.storeBytes_iff hs.ne_zero hbytes hbytes).mpr ⟨List.prefix_refl _, ?_⟩
          rw [List.drop_length]
          exact hnul
        · rw [hlog]
          exact ((Logged.start m).storeBytes_within dest hbytes).mono fun x hx =>
            Nat.lt_succ_of_lt hx

/-- A copy of three characters into memory that was cleared. -/
theorem copies_string_cleared : ∃ t,
    strcpyTraced (storeBytes (fun _ => 0) 0x1000 [0x66, 0x61, 0x74]) 0x2000 0x1000 = .ok t
      ∧ CopiesString (storeBytes (fun _ => 0) 0x1000 [0x66, 0x61, 0x74]) 0x2000 0x1000
        [0x66, 0x61, 0x74] t :=
  (copies_string_iff _ 0x2000 0x1000 [0x66, 0x61, 0x74] (by decide)
    (by unfold Apart; decide)).mpr ⟨List.cons_ne_nil _ _, by decide⟩

/-- A copy over other characters. -/
theorem copies_string_stale : ¬∃ t,
    strcpyTraced (fun a => if a = 0x1001 then 0 else 0x41) 0x2000 0x1000 = .ok t
      ∧ CopiesString (fun a => if a = 0x1001 then 0 else 0x41) 0x2000 0x1000 [0x41] t := by
  rintro ⟨t, ht, hc⟩
  have hnul := strcpyTraced_nul (c := 0x41) (s := []) (by decide) (by unfold Apart; decide) ht
  exact absurd (hnul.symm.trans hc.copied.nul) (by decide)

end SpKernel
