import SpKernel.Types

/-!
# The timestamps of the FAT driver (`fat.c`, `time.c`)

A time and a date are two bytes each: `hour:5 minute:6 seconds:5` and
`year:7 month:4 day:5`. `write_fat32_time` and `write_fat32_date` pack
the fields and `time_from_bytes` and `date_from_bytes` take them apart;
all of it goes through `char`, which is signed, and so are the fields of
`FAT32TIME`: each is extended by its sign to an `int` before it is
shifted.

What comes back of each field is said once (`timeFromBytes_sent`,
`dateFromBytes_sent`). The hour and the year survive. The seconds are
shifted by three on the way back, the low three bits of the minute bring
the sign of their byte with them, the month has lost its lowest bit,
under which the day was put, and the day its highest.

Each of the other fields survives under a condition of its own
(`seconds_kept`, `minute_kept`, `month_kept`, `day_kept`), which are put
together in `roundTrips_iff`. No valid month meets its condition, so no
valid timestamp comes back (`fat_timestamps`). `unixToFattime_changed` is
the one that `update_dentry` writes.
-/

namespace SpKernel

/-! ## The source -/

/-- `FAT32TIME`; the fields are signed, and here the bits of each. -/
structure Fat32Time where
  hour : BitVec 5
  minute : BitVec 6
  seconds : BitVec 5
  year : BitVec 7
  month : BitVec 4
  day : BitVec 5
deriving DecidableEq

structure FatTimePacked where
  hour : BitVec 5
  minutes : BitVec 6
  seconds : BitVec 5
deriving DecidableEq

structure FatDatePacked where
  year : BitVec 7
  month : BitVec 4
  day : BitVec 5
deriving DecidableEq

/-- A signed value, as the `int` it is promoted to. -/
def promote {n : Nat} (b : BitVec n) : Word := b.signExtend 32

/-- An `int`, stored in a `char`. -/
def toChar (x : Word) : Byte := x.setWidth 8

def timeFromBytes (b1 b2 : Byte) : FatTimePacked where
  hour := ((promote b1).sshiftRight 3).setWidth 5
  minutes := ((promote b1 <<< 3) ||| (promote b2).sshiftRight 5).setWidth 6
  seconds := (promote b2 <<< 3).setWidth 5

def dateFromBytes (b1 b2 : Byte) : FatDatePacked where
  year := ((promote b1).sshiftRight 1).setWidth 7
  month := (((promote b1 <<< 4) &&& 0x8#32) ||| (promote b2).sshiftRight 5).setWidth 4
  day := (promote b2 &&& 0xF#32).setWidth 5

/-- What the device is given: the offset and the two bytes. -/
structure DevWrite where
  offset : Word
  byte0 : Byte
  byte1 : Byte

def writeFat32Time (time : Fat32Time) (startingOffset : Word) : DevWrite :=
  let byte0 := toChar (promote time.hour <<< 3)
  let byte0 := toChar (promote byte0 ||| ((promote time.minute).sshiftRight 3 &&& 0x7#32))
  let byte1 := toChar (promote time.minute <<< 5)
  let byte1 := toChar (promote byte1 ||| (promote time.seconds &&& 0x1F#32))
  { offset := startingOffset, byte0, byte1 }

def writeFat32Date (date : Fat32Time) (startingOffset : Word) : DevWrite :=
  let byte0 := toChar (promote date.year <<< 1)
  let byte0 := toChar (promote byte0 ||| ((promote date.month).sshiftRight 3 &&& 0x1#32))
  let byte1 := toChar (promote date.month <<< 4)
  let byte1 := toChar (promote byte1 ||| (promote date.day &&& 0x1F#32))
  { offset := startingOffset, byte0, byte1 }

def fattimeFromParts (date : FatDatePacked) (time : FatTimePacked) : Fat32Time where
  hour := time.hour
  minute := time.minutes
  seconds := time.seconds
  year := date.year
  month := date.month
  day := date.day

/-- `unix_to_fattime`, which does not look at the timestamp. -/
def unixToFattime (_timestamp : Word) : Fat32Time where
  hour := 0
  minute := 0
  seconds := 0
  year := 1970
  month := 6
  day := 1

/-! ## There and back -/

def DevWrite.time (w : DevWrite) : FatTimePacked := timeFromBytes w.byte0 w.byte1

def DevWrite.date (w : DevWrite) : FatDatePacked := dateFromBytes w.byte0 w.byte1

/-- What is decoded from the bytes sent is what was written. -/
def RoundTrips (t : Fat32Time) (timeOffset dateOffset : Word) : Prop :=
  fattimeFromParts (writeFat32Date t dateOffset).date (writeFat32Time t timeOffset).time = t

/-- A time of day, with the seconds in steps of two, and a day of the year. -/
structure Fat32Time.Valid (t : Fat32Time) : Prop where
  hour : t.hour.toNat < 24
  minute : t.minute.toNat < 60
  seconds : t.seconds.toNat < 30
  month : 1 ≤ t.month.toNat ∧ t.month.toNat ≤ 12
  day : 1 ≤ t.day.toNat ∧ t.day.toNat ≤ 31

section Bits

variable {n i : Nat} (b : BitVec n)

/-- The bits of a promoted value: its own, and then its sign. -/
theorem getElem_promote (hi : i < 32) (hn : i < n) : (promote b)[i] = b[i] := by
  rw [promote, BitVec.getElem_signExtend, dif_pos hn]

theorem getElem_promote_sign (hi : i < 32) (hn : n ≤ i) :
    (promote b)[i] = b.getLsbD (n - 1) := by
  rw [promote, BitVec.getElem_signExtend, dif_neg (by omega), BitVec.msb_eq_getLsbD_last]

end Bits

theorem timeFromBytes_sent (t : Fat32Time) (startingOffset : Word) :
    (writeFat32Time t startingOffset).time
      = { hour := t.hour
          minutes := t.minute ||| if t.minute[2] then 0b111000 else 0
          seconds := t.seconds <<< 3 } := by
  rw [DevWrite.time, timeFromBytes, FatTimePacked.mk.injEq]
  refine ⟨?_, ?_, ?_⟩ <;> refine BitVec.eq_of_getElem_eq fun i hi => ?_
  · interval_cases i <;>
      simp [writeFat32Time, toChar, BitVec.getElem_sshiftRight, getElem_promote]
  · -- the sign of the second byte is bit 2 of the minute
    cases hsign : t.minute[2] <;> interval_cases i <;>
      simp [writeFat32Time, toChar, BitVec.getElem_sshiftRight, getElem_promote,
        getElem_promote_sign, hsign]
  · interval_cases i <;> simp [writeFat32Time, toChar, getElem_promote]

theorem dateFromBytes_sent (t : Fat32Time) (startingOffset : Word) :
    (writeFat32Date t startingOffset).date
      = { year := t.year
          month := t.month.sshiftRight 1
          day := t.day &&& 0xF } := by
  rw [DevWrite.date, dateFromBytes, FatDatePacked.mk.injEq]
  refine ⟨?_, ?_, ?_⟩ <;> refine BitVec.eq_of_getElem_eq fun i hi => ?_
  · interval_cases i <;>
      simp [writeFat32Date, toChar, BitVec.getElem_sshiftRight, getElem_promote]
  · interval_cases i <;>
      simp [writeFat32Date, toChar, BitVec.getElem_sshiftRight, getElem_promote,
        getElem_promote_sign, BitVec.msb_eq_getLsbD_last]
  · interval_cases i <;> simp [writeFat32Date, toChar, getElem_promote]

/-! ## What survives -/

theorem seconds_kept : ∀ seconds : BitVec 5, seconds <<< 3 = seconds ↔ seconds = 0 := by
  decide

theorem minute_kept : ∀ minute : BitVec 6,
    (minute ||| if minute[2] then 0b111000 else 0) = minute
      ↔ minute[2] = false ∨ 56 ≤ minute.toNat := by
  decide

theorem month_kept : ∀ month : BitVec 4, month.sshiftRight 1 = month ↔ month = 0 ∨ month = 15 := by
  decide

theorem day_kept : ∀ day : BitVec 5, day &&& 0xF = day ↔ day.toNat < 16 := by
  decide

theorem roundTrips_iff (t : Fat32Time) (timeOffset dateOffset : Word) :
    RoundTrips t timeOffset dateOffset
      ↔ (t.seconds = 0 ∧ (t.minute[2] = false ∨ 56 ≤ t.minute.toNat))
        ∧ (t.month = 0 ∨ t.month = 15) ∧ t.day.toNat < 16 := by
  rw [RoundTrips, timeFromBytes_sent, dateFromBytes_sent, ← seconds_kept, ← minute_kept,
    ← month_kept, ← day_kept]
  obtain ⟨hour, minute, seconds, year, month, day⟩ := t
  simp only [fattimeFromParts, Fat32Time.mk.injEq, true_and]
  tauto

/-- There is no valid month among those that come back. -/
theorem Fat32Time.Valid.not_roundTrips {t : Fat32Time} (h : t.Valid)
    (timeOffset dateOffset : Word) : ¬RoundTrips t timeOffset dateOffset := by
  rw [roundTrips_iff]
  rintro ⟨-, hmonth, -⟩
  obtain ⟨hlo, hhi⟩ := h.month
  rcases hmonth with hm | hm <;> rw [hm] at hlo hhi
  · exact absurd hlo (by decide)
  · exact absurd hhi (by decide)

/-- No valid timestamp comes back from its bytes. Of all there are in the
widths of the fields those do that have no seconds, a minute with bit 2 clear
or from 56 on, a month of 0 or 15 and a day before the 16th. -/
theorem fat_timestamps (t : Fat32Time) (timeOffset dateOffset : Word) :
    (t.Valid → ¬RoundTrips t timeOffset dateOffset)
    ∧ (RoundTrips t timeOffset dateOffset
      ↔ (t.seconds = 0 ∧ (t.minute[2] = false ∨ 56 ≤ t.minute.toNat))
        ∧ (t.month = 0 ∨ t.month = 15) ∧ t.day.toNat < 16) :=
  ⟨fun h => h.not_roundTrips timeOffset dateOffset, roundTrips_iff t timeOffset dateOffset⟩

theorem unixToFattime_valid : (unixToFattime 0).Valid where
  hour := show 0 < 24 by omega
  minute := show 0 < 60 by omega
  seconds := show 0 < 30 by omega
  month := show 1 ≤ 6 ∧ 6 ≤ 12 by omega
  day := show 1 ≤ 1 ∧ 1 ≤ 31 by omega

/-- The one timestamp that `update_dentry` writes is not read back. -/
theorem unixToFattime_changed :
    ¬∀ t : Fat32Time, t.Valid → ∀ timeOffset dateOffset, RoundTrips t timeOffset dateOffset :=
  fun h => unixToFattime_valid.not_roundTrips 14 16 (h _ unixToFattime_valid 14 16)

end SpKernel
