import SpKernel.NumberFormats

/-!
# Printing a status (`ulibc.c`)

`prt_status` has a buffer of eight bytes, and `cvt_hex` stores up to
eight characters and a NUL. So a status with eight digits, as those of
all errors, has its NUL stored behind the buffer (`status_fits_iff`).

`StatusFits` is about where bytes are stored, not about what is in memory
afterwards, so the conversion runs on the memory with a log (`hexLogged`,
`cvtHexLogged`), which computes the same as the one of `NumberFormats`
(`cvtHexLogged_mem`). It stores as many characters as the numeral has,
one after the other from the start of the buffer, and a NUL
(`cvtHexLogged_stores`). All of this is in the buffer exactly if there
are at most seven digits (`statusFits_iff_digits`), which is a bound on
the status.

A message that is `NULL` is not printed, and neither is the status then.
-/

namespace SpKernel

open Lib

/-- The loop of `cvt_hex`, with a log of what it writes. -/
def hexLogged : Nat → Logged → Word → Word → Word → Logged × Word × Word
  | 0, t, bp, _, charsStored => (t, bp, charsStored)
  | rounds + 1, t, bp, value, charsStored =>
      let val := value &&& 0xF0000000
      if rounds = 0 ∨ val ≠ 0 ∨ charsStored ≠ 0 then
        let val := val.sshiftRight 28 &&& 0xF
        hexLogged rounds (t.store 1 bp (hexDigit val.toNat)) (bp + 1) (value <<< 4)
          (charsStored + 1)
      else hexLogged rounds t bp (value <<< 4) charsStored

/-- `cvt_hex`, with a log of what it writes (`cvtHexLogged_mem`). -/
def cvtHexLogged (t : Logged) (buf value : Word) : Logged × Word :=
  let (t, bp, charsStored) := hexLogged 8 t buf value 0
  (t.store 1 bp (0 : Byte), charsStored)

/-- `prt_status`, with its array at `buf`: what is written to the console, and to
memory. -/
def prtStatus (t : Logged) (buf msg stat : Word) : Except Fault (List Byte × Logged) :=
  if msg = 0 then .ok ([], t)
  else do
    let size ← strlen t.mem msg
    let front := bytes t.mem msg size
    let (t, n) := cvtHexLogged t buf stat
    .ok (front ++ bytes t.mem buf n.toNat ++ [0x0A], t)

/-- `sizeof buf` -/
abbrev statusBuffer : Nat := 8

/-- The call returns and has written to its buffer only. -/
def StatusFits (m : Mem) (buf msg stat : Word) : Prop :=
  ∃ out t, prtStatus (.start m) buf msg stat = .ok (out, t)
    ∧ WritesWithin (fun x => (x - buf).toNat < statusBuffer) (.start m) t

variable {t : Logged} {m : Mem} {buf msg stat bp value charsStored : Word}

theorem hexLogged_mem : ∀ (rounds : Nat) (t : Logged) (bp value charsStored : Word),
    Prod.map Logged.mem id (hexLogged rounds t bp value charsStored)
      = hexLoop (· + 1) rounds t.mem bp value charsStored
  | 0, _, _, _, _ => rfl
  | rounds + 1, t, bp, value, charsStored => by
      rw [hexLogged, hexLoop]
      exact (apply_ite _ _ _ _).trans
        (if_congr Iff.rfl (hexLogged_mem rounds ..) (hexLogged_mem rounds ..))

theorem cvtHexLogged_mem (t : Logged) (buf value : Word) :
    Prod.map Logged.mem id (cvtHexLogged t buf value) = cvtHex t.mem buf value := by
  rw [cvtHex, ← hexLogged_mem]
  rfl

/-- Each round stores one character at most, behind those before. -/
theorem hexLogged_stores : ∀ (rounds : Nat) (t : Logged) (bp value charsStored : Word),
    ∃ cs : List Byte, cs.length ≤ rounds
      ∧ (hexLogged rounds t bp value charsStored).1 = t.storeBytes bp cs
      ∧ (hexLogged rounds t bp value charsStored).2.1 = bp + BitVec.ofNat 32 cs.length
  | 0, t, bp, _, _ => ⟨[], Nat.le_refl 0, rfl, (BitVec.add_zero bp).symm⟩
  | rounds + 1, t, bp, value, charsStored => by
      rw [hexLogged]
      dsimp only
      split
      · obtain ⟨cs, hlen, hlog, hbp⟩ := hexLogged_stores rounds
          (t.store 1 bp (hexDigit ((value &&& 0xF0000000).sshiftRight 28 &&& 0xF).toNat))
          (bp + 1#32) (value <<< 4) (charsStored + 1)
        refine ⟨_ :: cs, Nat.succ_le_succ hlen, hlog, hbp.trans ?_⟩
        rw [add_ofNat_succ, List.length_cons]
      · obtain ⟨cs, hlen, hlog, hbp⟩ := hexLogged_stores rounds t bp (value <<< 4) charsStored
        exact ⟨cs, Nat.le_succ_of_le hlen, hlog, hbp⟩

/-- As many characters as the numeral has are stored, and a NUL. -/
theorem cvtHexLogged_stores (t : Logged) (buf value : Word) :
    ∃ cs : List Byte, cs.length = (unsigned 16 value).length + 1
      ∧ (cvtHexLogged t buf value).1 = t.storeBytes buf cs := by
  obtain ⟨cs, hlen, hlog, hbp⟩ := hexLogged_stores 8 t buf value 0
  have hstored : ∀ i ≤ 8, (· + 1 : Word → Word)^[i] 0 = 0 ↔ i = 0 := by decide
  have hend := congrArg (fun r => r.2.1) (hexLogged_mem 8 t buf value 0)
  have hcount : (unsigned 16 value).length ≤ 8 :=
    length_unsigned_le (by decide) (by decide) (by decide) value
  rw [hexLoop_all hstored] at hend
  have heq : cs.length = (unsigned 16 value).length :=
    offset_inj (by omega) (by omega) (hbp.symm.trans hend)
  refine ⟨cs ++ [0], by rw [List.length_append, heq, List.length_singleton], ?_⟩
  rw [cvtHexLogged, ← Logged.storeBytes_snoc, ← hlog, ← hbp]

theorem length_unsigned_hex_le (value : Word) :
    (unsigned 16 value).length ≤ 7 ↔ value.toNat < 0x10000000 := by
  rw [unsigned, digitChars, List.length_map]
  exact length_numeral_le_iff (by decide) (by decide)

/-- What `cvt_hex` writes is in a buffer of eight bytes if there are seven digits at
most, and only then. -/
theorem cvtHexLogged_within (m : Mem) (buf value : Word) :
    WritesWithin (fun x => (x - buf).toNat < statusBuffer) (.start m)
      (cvtHexLogged (.start m) buf value).1 ↔ value.toNat < 0x10000000 := by
  obtain ⟨cs, hlen, hlog⟩ := cvtHexLogged_stores (.start m) buf value
  have hcount : (unsigned 16 value).length ≤ 8 :=
    length_unsigned_le (by decide) (by decide) (by decide) value
  rw [hlog, ← length_unsigned_hex_le]
  constructor
  · intro h
    by_contra hlong
    have hwritten := Logged.storeBytes_writes (.start m) buf 8 (by omega : 8 < cs.length)
    rcases h.written _ hwritten with hbefore | hin
    · cases hbefore
    · rw [toNat_offset buf (by decide)] at hin
      exact absurd hin (Nat.lt_irrefl 8)
  · intro h
    exact (Logged.storeBytes_within (.start m) buf (by omega)).mono fun x hx =>
      Nat.lt_of_lt_of_le hx (by rw [hlen]; exact Nat.succ_le_succ h)

theorem statusFits_iff_digits {s : List Byte} (h0 : msg ≠ 0) (hs : IsString m msg s) :
    StatusFits m buf msg stat ↔ stat.toNat < 0x10000000 := by
  have hcall : prtStatus (.start m) buf msg stat = .ok
      (bytes m msg s.length ++ bytes (cvtHexLogged (.start m) buf stat).1.mem buf
        (cvtHexLogged (.start m) buf stat).2.toNat ++ [0x0A],
      (cvtHexLogged (.start m) buf stat).1) := by
    rw [prtStatus, if_neg h0]
    exact congrArg (· >>= _) (strlen_spec hs)
  rw [← cvtHexLogged_within m buf stat, StatusFits, hcall]
  constructor
  · rintro ⟨out, t, hok, hwithin⟩
    obtain ⟨-, rfl⟩ := Prod.mk.inj (Except.ok.inj hok)
    exact hwithin
  · exact fun hwithin => ⟨_, _, rfl, hwithin⟩

/-- A status fits its buffer exactly if it has seven digits at most, or is
not printed. -/
theorem status_fits_iff (m : Mem) (buf msg stat : Word)
    (hmsg : msg = 0 ∨ ∃ s, IsString m msg s) :
    StatusFits m buf msg stat ↔ msg = 0 ∨ stat.toNat < 0x10000000 := by
  by_cases h0 : msg = 0
  · refine iff_of_true ⟨[], .start m, ?_, .refl _ _⟩ (.inl h0)
    rw [prtStatus, if_pos h0]
  · obtain ⟨s, hs⟩ := hmsg.resolve_left h0
    rw [statusFits_iff_digits h0 hs, or_iff_right h0]

/-- A message of two characters, and the largest status of seven digits. -/
theorem status_fits_seven :
    StatusFits (storeBytes (fun _ => 0) 0x2000 [0x72, 0x63]) 0x1000 0x2000 0x0FFFFFFF :=
  (status_fits_iff _ _ _ _ (.inr ⟨[0x72, 0x63], by decide⟩)).mpr (.inr (by decide))

/-- `E_NO_PROCESS` does not. -/
theorem status_fits_noProcess : ¬StatusFits (fun _ => 0) 0x1000 0x2000 Status.noProcess.word := by
  have hmsg : IsString (fun _ => 0) 0x2000 [] := by decide
  rw [statusFits_iff_digits (by decide) hmsg]
  decide

end SpKernel
