import SpKernel.Lib.CString
import SpKernel.Lib.Outcome
import SpKernel.Lib.WriteLog
import SpKernel.Types

/-!
# The string library (`libc/string`)

The loops go on until they meet a NUL. They run on fuel `2 ^ 32`, after
which all of memory has been looked at, so a string that has a NUL
anywhere is enough for them to end (`strlen_spec`).

`strcpy` tests the character that comes next, after it has copied one: it
always copies the first character and never the NUL at the end
(`strcpy_spec`). `strcpy_get` is what a caller may rely on without
knowing where the copy ends. The modules that ask which addresses are
written use `strcpyLogged`, the same loop over a memory with a log, which
computes the same memory (`strcpyLogged_mem`).

`strpos` only returns an index once its result is not below the offset,
which it never is (`strpos_spec`), so it is right only about what is not
there (`finds_first_iff`). The router asks it for the length of the first
component of a path, and so never gets one (`finds_first_backslash`).

`Apart a n b k` says that two ranges have no address in common, wherever
they lie on the ring of addresses. A loop that copies needs it one
character at a time (`Apart.next`), and what is stored in one range
leaves the other as it is (`storeBytes_apart`).
-/

namespace SpKernel

open Lib

/-- The loop of `strlen`. -/
def strlenLoop (m : Mem) : Nat → Word → Nat → Except Fault Nat
  | 0, _, _ => .error .diverge
  | fuel + 1, str, len => if m str ≠ 0 then strlenLoop m fuel (str + 1#32) (len + 1) else .ok len

/-- `strlen`. After `2 ^ 32` rounds all of memory has been looked at. -/
def strlen (m : Mem) (str : Word) : Except Fault Nat := strlenLoop m (2 ^ 32) str 0

/-- The loop of `strcpy`: `do *dest++ = *src++; while( *src != '\0' );` -/
def strcpyLoop : Nat → Mem → Word → Word → Except Fault Mem
  | 0, _, _, _ => .error .diverge
  | fuel + 1, m, dest, src =>
      let m := store 1 m dest (m src)
      if m (src + 1#32) ≠ 0 then strcpyLoop fuel m (dest + 1#32) (src + 1#32) else .ok m

def strcpy (m : Mem) (dest src : Word) : Except Fault Mem := strcpyLoop (2 ^ 32) m dest src

/-- The loop of `strcpy`, with a log of what it writes (`strcpyLogged_mem`). -/
def strcpyLogged : Nat → Logged → Word → Word → Except Fault Logged
  | 0, _, _, _ => .error .diverge
  | fuel + 1, t, dest, src =>
      let t := t.store 1 dest (t.mem src)
      if t.mem (src + 1#32) ≠ 0 then strcpyLogged fuel t (dest + 1#32) (src + 1#32) else .ok t

/-- The loop of `strpos`; nothing assigns to `result` before it is
returned. -/
def strposLoop (m : Mem) (seek : Byte) (offset result : Int) : Nat → Word → Nat → Except Fault Int
  | 0, _, _ => .error .diverge
  | fuel + 1, str, index =>
      if m str ≠ 0 then
        if m str = seek ∧ offset ≤ result then .ok index
        else strposLoop m seek offset result fuel (str + 1#32) (index + 1)
      else .ok result

def strpos (m : Mem) (str : Word) (seek : Byte) (offset : Int) : Except Fault Int :=
  strposLoop m seek offset (-1) (2 ^ 32) str 0

/-- The first index of a character from the offset on, or -1. -/
def IsFirstIndex (s : List Byte) (seek : Byte) (offset r : Int) : Prop :=
  (∃ i : Nat, r = i ∧ offset ≤ i ∧ s[i]? = some seek
    ∧ ∀ j < i, offset ≤ (j : Int) → s[j]? ≠ some seek)
  ∨ r = -1 ∧ ∀ i : Nat, offset ≤ i → s[i]? ≠ some seek

/-- `strpos` returns the first index. -/
def FindsFirst (m : Mem) (str : Word) (s : List Byte) (seek : Byte) (offset : Int) : Prop :=
  ∃ r, strpos m str seek offset = .ok r ∧ IsFirstIndex s seek offset r

variable {m : Mem} {t' : Logged} {a dest src : Word} {s : List Byte}

theorem strlenLoop_spec : ∀ {s : List Byte} {a : Word} {fuel len : Nat}, IsString m a s →
    s.length < fuel → strlenLoop m fuel a len = .ok (len + s.length)
  | _, _, 0, _, _, hf => absurd hf (Nat.not_lt_zero _)
  | [], a, fuel + 1, len, hs, _ => by
      have hs : m a = 0 := hs
      simp [strlenLoop, hs]
  | c :: s, a, fuel + 1, len, hs, hf => by
      have hne : m a ≠ 0 := hs.1 ▸ hs.2.1
      rw [strlenLoop, if_pos hne, strlenLoop_spec hs.2.2 (Nat.lt_of_succ_lt_succ hf),
        List.length_cons]
      congr 1
      omega

theorem strlen_spec (hs : IsString m a s) : strlen m a = .ok s.length := by
  rw [strlen, strlenLoop_spec hs hs.length_lt, Nat.zero_add]

/-- No byte of the one range is a byte of the other. -/
def Apart (a : Word) (n : Nat) (b : Word) (n' : Nat) : Prop :=
  ∀ i < n, ∀ j < n', a + BitVec.ofNat 32 i ≠ b + BitVec.ofNat 32 j

theorem Apart.mono {a b : Word} {n n' k k' : Nat} (h : Apart a n b n') (hk : k ≤ n)
    (hk' : k' ≤ n') : Apart a k b k' :=
  fun i hi j hj => h i (Nat.lt_of_lt_of_le hi hk) j (Nat.lt_of_lt_of_le hj hk')

/-- Bytes that are stored apart from a range leave it as it is. -/
theorem storeBytes_apart {a out : Word} {bs : List Byte} {n n' j : Nat} (hap : Apart out n a n')
    (hbs : bs.length ≤ n) (hn : n ≤ 2 ^ 32) (hj : j < n') :
    storeBytes m out bs (a + BitVec.ofNat 32 j) = m (a + BitVec.ofNat 32 j) := by
  refine storeBytes_other (by omega) ?_
  by_contra hlt
  exact hap (a + BitVec.ofNat 32 j - out).toNat (by omega) j hj (add_offset ..)

/-- A byte that is stored apart from what is still to be read. -/
theorem store_keeps {m : Mem} {b : Byte} {n j : Nat} (hap : Apart dest 1 a n) (hj : j < n) :
    store 1 m dest b (a + BitVec.ofNat 32 j) = m (a + BitVec.ofNat 32 j) := by
  rw [store_byte, if_neg]
  have hne := hap 0 (Nat.one_pos) j hj
  rw [BitVec.add_zero] at hne
  exact hne.symm

theorem Apart.next {n n' : Nat} (hap : Apart dest (n + 1) a (n' + 1)) :
    Apart (dest + 1#32) n (a + 1#32) n' := fun i hi j hj => by
  rw [add_ofNat_succ, add_ofNat_succ]
  exact hap (i + 1) (Nat.succ_lt_succ hi) (j + 1) (Nat.succ_lt_succ hj)

theorem strcpyLogged_mem : ∀ (fuel : Nat) (t : Logged) (dest a : Word),
    (strcpyLogged fuel t dest a).map Logged.mem = strcpyLoop fuel t.mem dest a
  | 0, _, _, _ => rfl
  | fuel + 1, t, dest, a => by
      rw [strcpyLogged, strcpyLoop]
      exact (apply_ite _ _ _ _).trans (if_congr Iff.rfl (strcpyLogged_mem fuel _ _ _) rfl)

theorem strcpyLogged_extends : ∀ {fuel : Nat} {t : Logged} {dest a : Word},
    strcpyLogged fuel t dest a = .ok t' → Extends t t'
  | 0, _, _, _, h => nomatch h
  | fuel + 1, t, dest, a, h => by
      rw [strcpyLogged] at h
      split at h
      · exact (t.store_extends 1 dest (t.mem a)).trans (strcpyLogged_extends h)
      · cases h
        exact t.store_extends 1 dest (t.mem a)

theorem strcpyLogged_spec : ∀ {s : List Byte} {fuel : Nat} {t : Logged} {dest a : Word},
    IsString t.mem (a + 1#32) s → s.length < fuel → Apart dest (s.length + 1) a (s.length + 2) →
    strcpyLogged fuel t dest a = .ok (t.storeBytes dest (t.mem a :: s))
  | _, 0, _, _, _, _, hf, _ => absurd hf (Nat.not_lt_zero _)
  | s, fuel + 1, t, dest, a, hs, hf, hap => by
      have hkeep : ∀ j < s.length + 2, store 1 t.mem dest (t.mem a) (a + BitVec.ofNat 32 j)
          = t.mem (a + BitVec.ofNat 32 j) :=
        fun j hj => store_keeps (hap.mono (by omega) (Nat.le_refl _)) hj
      have hs' : IsString (t.store 1 dest (t.mem a)).mem (a + 1#32) s := hs.congr fun i hi => by
        rw [add_ofNat_succ]
        exact hkeep (i + 1) (by omega)
      rw [strcpyLogged]
      cases s with
      | nil => exact if_neg (not_not.mpr hs')
      | cons c s =>
          have hc : (t.store 1 dest (t.mem a)).mem (a + 1#32) = c := hs'.1
          refine (if_pos (hc ▸ hs'.2.1)).trans ?_
          rw [strcpyLogged_spec hs'.2.2 (Nat.lt_of_succ_lt_succ hf) hap.next, hc]
          rfl

theorem strcpyLogged_reaches : ∀ {k fuel : Nat} {t : Logged} {dest a : Word},
    strcpyLogged fuel t dest a = .ok t' → (∀ i < k, t.mem (a + BitVec.ofNat 32 (i + 1)) ≠ 0) →
    Apart dest k a (k + 1) → t'.written (dest + BitVec.ofNat 32 k) = true
  | _, 0, _, _, _, h, _, _ => nomatch h
  | 0, fuel + 1, t, dest, a, h, _, _ => by
      have hfirst : (t.store 1 dest (t.mem a)).written dest = true :=
        Logged.store_written.mpr (.inl (by rw [BitVec.sub_self]; exact Nat.one_pos))
      rw [BitVec.add_zero]
      rw [strcpyLogged] at h
      split at h
      · exact strcpyLogged_extends h _ hfirst
      · cases h
        exact hfirst
  | k + 1, fuel + 1, t, dest, a, h, hne, hap => by
      have hkeep : ∀ j < k + 2, store 1 t.mem dest (t.mem a) (a + BitVec.ofNat 32 j)
          = t.mem (a + BitVec.ofNat 32 j) :=
        fun j hj => store_keeps (hap.mono (by omega) (Nat.le_refl _)) hj
      have hgo : (t.store 1 dest (t.mem a)).mem (a + 1#32) ≠ 0 := by
        rw [Logged.store_mem, hkeep 1 (by omega)]
        exact hne 0 (Nat.succ_pos _)
      rw [strcpyLogged] at h
      have hrest := strcpyLogged_reaches ((if_pos hgo).symm.trans h) (fun i hi => ?_) hap.next
      · rwa [add_ofNat_succ] at hrest
      · rw [add_ofNat_succ, Logged.store_mem, hkeep (i + 2) (by omega)]
        exact hne (i + 1) (by omega)

theorem strcpyLoop_spec {fuel : Nat} (hs : IsString m (src + 1#32) s) (hf : s.length < fuel)
    (hap : Apart dest (s.length + 1) src (s.length + 2)) :
    strcpyLoop fuel m dest src = .ok (storeBytes m dest (m src :: s)) := by
  have hmem := strcpyLogged_mem fuel (.start m) dest src
  rw [strcpyLogged_spec (t := .start m) hs hf hap] at hmem
  exact hmem.symm.trans (congrArg Except.ok (Logged.storeBytes_mem ..))

/-- `strcpy` copies the first character and the string behind it, and no
NUL at the end. -/
theorem strcpy_spec (ht : IsString m (src + 1#32) s)
    (hap : Apart dest (s.length + 1) src (s.length + 2)) :
    strcpy m dest src = .ok (storeBytes m dest (m src :: s)) :=
  strcpyLoop_spec ht ht.length_lt hap

theorem strcpyLoop_other {x : Word} {m' : Mem} : ∀ {fuel : Nat} {m : Mem} {dest src : Word},
    strcpyLoop fuel m dest src = .ok m' → fuel ≤ (x - dest).toNat → m' x = m x
  | 0, _, _, _, h, _ => by cases h
  | fuel + 1, m, dest, src, h, hx => by
      have hne : x ≠ dest := by
        rintro rfl
        rw [BitVec.sub_self] at hx
        exact absurd hx (Nat.not_succ_le_zero _)
      have hkeep : store 1 m dest (m src) x = m x := by rw [store_byte, if_neg hne]
      simp only [strcpyLoop] at h
      split at h
      · have hnext : fuel ≤ (x - (dest + 1#32)).toNat := by
          have h1 := x.isLt
          have h2 := dest.isLt
          simp only [BitVec.toNat_sub, BitVec.toNat_add, BitVec.toNat_ofNat] at hx ⊢
          omega
        rw [strcpyLoop_other h hnext, hkeep]
      · cases h
        exact hkeep

/-- Every character `strcpy` gets to is copied, wherever it ends. -/
theorem strcpyLoop_get {m' : Mem} : ∀ {k fuel : Nat} {m : Mem} {dest src : Word},
    fuel ≤ 2 ^ 32 → strcpyLoop fuel m dest src = .ok m' →
    (∀ i < k, m (src + BitVec.ofNat 32 (i + 1)) ≠ 0) → Apart dest k src (k + 1) →
    m' (dest + BitVec.ofNat 32 k) = m (src + BitVec.ofNat 32 k)
  | _, 0, _, _, _, _, h, _, _ => by cases h
  | 0, fuel + 1, m, dest, src, hf, h, _, _ => by
      have hfirst : store 1 m dest (m src) dest = m src := by rw [store_byte, if_pos rfl]
      rw [BitVec.add_zero, BitVec.add_zero]
      simp only [strcpyLoop] at h
      split at h
      · have hpast : fuel ≤ (dest - (dest + 1#32)).toNat := by
          have h2 := dest.isLt
          simp only [BitVec.toNat_sub, BitVec.toNat_add, BitVec.toNat_ofNat]
          omega
        rw [strcpyLoop_other h hpast, hfirst]
      · cases h
        exact hfirst
  | k + 1, fuel + 1, m, dest, src, hf, h, hne, hap => by
      have hkeep : ∀ j < k + 2, store 1 m dest (m src) (src + BitVec.ofNat 32 j)
          = m (src + BitVec.ofNat 32 j) :=
        fun j hj => store_keeps (hap.mono (by omega) (Nat.le_refl _)) hj
      have hgo : store 1 m dest (m src) (src + 1#32) ≠ 0 := by
        rw [hkeep 1 (by omega)]
        exact hne 0 (Nat.succ_pos _)
      simp only [strcpyLoop, if_pos hgo] at h
      have hrest := strcpyLoop_get (k := k) (by omega) h (fun i hi => ?_) hap.next
      · rw [add_ofNat_succ, add_ofNat_succ, hkeep (k + 1) (by omega)] at hrest
        exact hrest
      · rw [add_ofNat_succ, hkeep (i + 2) (by omega)]
        exact hne (i + 1) (by omega)

theorem strcpy_get {m' : Mem} {k : Nat} (h : strcpy m dest src = .ok m')
    (hne : ∀ i < k, m (src + BitVec.ofNat 32 (i + 1)) ≠ 0) (hap : Apart dest k src (k + 1)) :
    m' (dest + BitVec.ofNat 32 k) = m (src + BitVec.ofNat 32 k) :=
  strcpyLoop_get (Nat.le_refl _) h hne hap

theorem strposLoop_spec {seek : Byte} {offset result : Int} (hlt : result < offset) :
    ∀ {s : List Byte} {a : Word} {fuel index : Nat}, IsString m a s → s.length < fuel →
      strposLoop m seek offset result fuel a index = .ok result
  | _, _, 0, _, _, hf => absurd hf (Nat.not_lt_zero _)
  | [], a, fuel + 1, index, hs, _ => by
      have hs : m a = 0 := hs
      simp [strposLoop, hs]
  | c :: s, a, fuel + 1, index, hs, hf => by
      have hne : m a ≠ 0 := hs.1 ▸ hs.2.1
      rw [strposLoop, if_pos hne, if_neg fun hc => absurd hc.2 (not_le.mpr hlt)]
      exact strposLoop_spec hlt hs.2.2 (Nat.lt_of_succ_lt_succ hf)

theorem strpos_spec {seek : Byte} {offset : Int} (hs : IsString m a s) (ho : 0 ≤ offset) :
    strpos m a seek offset = .ok (-1) :=
  strposLoop_spec (by omega) hs hs.length_lt

theorem findsFirst_iff_missing {seek : Byte} {offset : Int} (hs : IsString m a s)
    (ho : 0 ≤ offset) :
    FindsFirst m a s seek offset ↔ ∀ i : Nat, offset ≤ i → s[i]? ≠ some seek := by
  constructor
  · rintro ⟨r, hr, hfirst⟩
    obtain rfl := Except.ok.inj (hr.symm.trans (strpos_spec hs ho))
    rcases hfirst with ⟨i, hi, -⟩ | ⟨-, hnone⟩
    · omega
    · exact hnone
  · intro hnone
    exact ⟨-1, strpos_spec hs ho, .inr ⟨rfl, hnone⟩⟩

/-- `strpos` returns the first index of a character from the offset on
exactly if there is none. In front of a backslash it never returns the length
of the first component of a path. -/
theorem finds_first_iff (m : Mem) (str : Word) (s : List Byte) (hs : IsString m str s) :
    (∀ (seek : Byte) (offset : Int), 0 ≤ offset →
      (FindsFirst m str s seek offset ↔ ∀ i : Nat, offset ≤ i → s[i]? ≠ some seek))
    ∧ ∀ first rest : List Byte, s = first ++ 0x5C :: rest → 0x5C ∉ first →
      strpos m str 0x5C 0 ≠ .ok first.length := by
  refine ⟨fun seek offset ho => findsFirst_iff_missing hs ho, fun first rest _ _ h => ?_⟩
  have hlen := Except.ok.inj (h.symm.trans (strpos_spec hs (Int.le_refl 0)))
  omega

/-- The path `A\B`, in memory at `0x1000`. -/
def backslashMem : Mem := fun a =>
  if a = 0x1000 then 0x41 else if a = 0x1001 then 0x5C else if a = 0x1002 then 0x42 else 0

theorem backslashMem_string : IsString backslashMem 0x1000 [0x41, 0x5C, 0x42] := by decide

/-- The letter `C` is not in it. -/
theorem finds_first_missing : FindsFirst backslashMem 0x1000 [0x41, 0x5C, 0x42] 0x43 0 :=
  ((finds_first_iff _ _ _ backslashMem_string).1 0x43 0 (Int.le_refl 0)).mpr fun i _ h =>
    absurd (List.mem_of_getElem? h) (by decide)

/-- The backslash is in it. -/
theorem finds_first_backslash : ¬FindsFirst backslashMem 0x1000 [0x41, 0x5C, 0x42] 0x5C 0 :=
  fun h => (findsFirst_iff_missing backslashMem_string (Int.le_refl 0)).mp h 1 (by decide) rfl

end SpKernel
