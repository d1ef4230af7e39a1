import SpKernel.Lib.Memory
import SpKernel.Lib.Outcome
import SpKernel.Types

/-!
# The RAM disk (`ramdisk.c`)

A device of 500 pages of memory, written and read as a tape of bytes. The
buffer of a request is an object of its own, apart from the pages, and so
is the length the request is made with and that is updated as it is
served.

`ramdisk_read` and `ramdisk_write` are the same function but for the
direction in which a byte is moved. Two things are off in it: the end of
a request, in bytes, is compared with the number of pages, and serving it
starts at the first byte of the page the offset is in (`diskLoop_eq`).
`FitsStart` is where neither matters: requests of fewer than 500 bytes at
the start of the device, and those turned down with good reason.

The array that the disk is meant to be is `arrayStep`, on functions from
offsets to bytes, and `OnDisk` its representation in the pages. Every
request that is `FitsStart` is served rightly
(`DiskCall.FitsStart.served`), and no other on every disk
(`fitsStart_of_served`). For the second direction a byte is needed that
tells the two apart (`firstByte`), since a request that moves the wrong
bytes may move the right values.

`ramdisk_array_iff` says it of runs of any requests.
-/

namespace SpKernel

open Function (update update_self update_of_ne)
open Lib

abbrev pageCount : Nat := 500

/-- What a request returns: its status, the length, what was written to
(the buffer or the memory), and the addresses used on the device's side. -/
structure DiskResult (σ : Type) where
  status : Status
  length : Word
  state : σ
  touched : List Word

variable {σ : Type}

/-- The copying loop: `remaining` bytes are left, `done` are served, and
`pointer` is where the next one is on the device. -/
def diskLoop (pages : Nat → Word) (page : Nat) (move : Nat → Word → σ → σ) :
    Nat → Nat → Word → Word → σ → DiskResult σ
  | 0, _, length, _, s => ⟨.success, length, s, []⟩
  | remaining + 1, done, _, pointer, s =>
      let s := move done pointer s
      let done := done + 1
      let next := if done % 4096 = 0 then pages (page + done / 4096) else pointer + 1#32
      let r := diskLoop pages page move remaining done (BitVec.ofNat 32 done) next s
      { r with touched := pointer :: r.touched }

/-- The two functions, with the `move` of a byte between the buffer and the
device. The sum is an `int`, and wraps. -/
def diskRequest (pages : Nat → Word) (move : Nat → Word → σ → σ) (offset length : Word) (s : σ) :
    DiskResult σ :=
  if length.toInt < 0 ∨ offset.toInt < 0 then ⟨.badArg, length, s, []⟩
  else if (offset + length).toInt ≥ pageCount then ⟨.outOfBounds, length, s, []⟩
  else
    let page := offset.toNat / 4096
    diskLoop pages page move length.toNat 0 length (pages page) s

def ramdiskRead (pages : Nat → Word) (mem : Mem) (offset length : Word) (buffer : Nat → Byte) :
    DiskResult (Nat → Byte) :=
  diskRequest pages (fun j source b => update b j (mem source)) offset length buffer

def ramdiskWrite (pages : Nat → Word) (mem : Mem) (offset length : Word) (buffer : Nat → Byte) :
    DiskResult Mem :=
  diskRequest pages (fun j dest m => update m dest (buffer j)) offset length mem

/-! ## What the loop does -/

/-- The `j`-th byte from the start of `page` on. -/
def deviceAddr (pages : Nat → Word) (page j : Nat) : Word :=
  pages (page + j / 4096) + BitVec.ofNat 32 (j % 4096)

theorem deviceAddr_zero (pages : Nat → Word) (page : Nat) :
    deviceAddr pages page 0 = pages page := by
  simp [deviceAddr]

theorem deviceAddr_succ (pages : Nat → Word) (page j : Nat) :
    (if (j + 1) % 4096 = 0 then pages (page + (j + 1) / 4096) else deviceAddr pages page j + 1#32)
      = deviceAddr pages page (j + 1) := by
  split
  · next h => simp [deviceAddr, h]
  · next h =>
      have hdiv : (j + 1) / 4096 = j / 4096 := by omega
      have hmod : (j + 1) % 4096 = j % 4096 + 1 := by omega
      rw [deviceAddr, deviceAddr, hdiv, hmod, BitVec.ofNat_add, BitVec.add_assoc]

/-- The loop moves the bytes one after the other, from the start of the
page on. -/
theorem diskLoop_eq (pages : Nat → Word) (page : Nat) (move : Nat → Word → σ → σ) :
    ∀ (remaining done : Nat) (length : Word) (s : σ),
    diskLoop pages page move remaining done length (deviceAddr pages page done) s
      = ⟨.success, if remaining = 0 then length else BitVec.ofNat 32 (done + remaining),
          (List.range' done remaining).foldl (fun s j => move j (deviceAddr pages page j) s) s,
          (List.range' done remaining).map (deviceAddr pages page)⟩
  | 0, _, _, _ => rfl
  | remaining + 1, done, _, s => by
      rw [diskLoop]
      simp only [deviceAddr_succ, diskLoop_eq pages page move remaining (done + 1)]
      rw [if_neg (Nat.succ_ne_zero remaining), List.range'_succ, List.foldl_cons, List.map_cons]
      congr 1
      split
      · next h => rw [h]
      · rw [Nat.add_right_comm, Nat.add_assoc]

theorem diskRequest_accepted {pages : Nat → Word} {move : Nat → Word → σ → σ}
    {offset length : Word} {s : σ} (h0 : 0 ≤ length.toInt) (h1 : 0 ≤ offset.toInt)
    (h2 : (offset + length).toInt < pageCount) :
    diskRequest pages move offset length s
      = ⟨.success, length,
          (List.range length.toNat).foldl
            (fun s j => move j (deviceAddr pages (offset.toNat / 4096) j) s) s,
          (List.range length.toNat).map (deviceAddr pages (offset.toNat / 4096))⟩ := by
  have hloop := diskLoop_eq pages (offset.toNat / 4096) move length.toNat 0 length s
  rw [deviceAddr_zero, Nat.zero_add] at hloop
  rw [diskRequest, if_neg (by omega), if_neg (by omega), List.range_eq_range']
  refine hloop.trans ?_
  congr 1
  split
  · rfl
  · simp

theorem diskRequest_rejected {pages : Nat → Word} {move : Nat → Word → σ → σ}
    {offset length : Word} {s : σ} (h : length.toInt < 0 ∨ offset.toInt < 0
      ∨ pageCount ≤ (offset + length).toInt) :
    ∃ status ≠ .success, diskRequest pages move offset length s = ⟨status, length, s, []⟩ := by
  rw [diskRequest]
  by_cases hneg : length.toInt < 0 ∨ offset.toInt < 0
  · exact ⟨.badArg, by decide, if_pos hneg⟩
  · rw [if_neg hneg, if_pos (by tauto)]
    exact ⟨.outOfBounds, by decide, rfl⟩

/-! ## The array of bytes -/

/-- The size of the device, in bytes. -/
abbrev diskSize : Nat := pageCount * 4096

/-- `pages[]` after `ramdisk_install`. -/
structure DiskPages (pages : Nat → Word) : Prop where
  aligned : ∀ i < pageCount, PageAligned (pages i)
  distinct : ∀ i < pageCount, ∀ j < pageCount, pages i = pages j → i = j

/-- The contents of the device. -/
def diskOf (pages : Nat → Word) (mem : Mem) (i : Nat) : Byte := mem (deviceAddr pages 0 i)

/-- An address in the 500 pages. -/
def OnDisk (pages : Nat → Word) (a : Word) : Prop := ∃ i < diskSize, a = deviceAddr pages 0 i

inductive DiskCall where
  | read (offset length : Word) (buffer : Nat → Byte)
  | write (offset length : Word) (buffer : Nat → Byte)

def DiskCall.offset : DiskCall → Word
  | .read offset _ _ => offset
  | .write offset _ _ => offset

def DiskCall.length : DiskCall → Word
  | .read _ length _ => length
  | .write _ length _ => length

/-- The request is within the device. -/
def DiskCall.Fits (c : DiskCall) : Prop :=
  0 ≤ c.offset.toInt ∧ 0 ≤ c.length.toInt ∧ c.offset.toInt + c.length.toInt ≤ diskSize

instance (c : DiskCall) : Decidable c.Fits := inferInstanceAs (Decidable (_ ∧ _))

def arrayWrite (disk : Nat → Byte) (offset length : Nat) (buffer : Nat → Byte) : Nat → Byte :=
  fun i => if offset ≤ i ∧ i < offset + length then buffer (i - offset) else disk i

def arrayRead (disk : Nat → Byte) (offset length : Nat) (buffer : Nat → Byte) : Nat → Byte :=
  fun j => if j < length then disk (offset + j) else buffer j

/-- What a request does to an array of bytes. -/
def arrayStep (disk : Nat → Byte) (c : DiskCall) : Nat → Byte :=
  match c with
  | .read _ _ _ => disk
  | .write offset length buffer =>
      if c.Fits then arrayWrite disk offset.toNat length.toNat buffer else disk

/-- The device serves a request as an array of bytes does. -/
def DiskServed (pages : Nat → Word) (mem : Mem) (c : DiskCall) : Prop :=
  match c with
  | .read offset length buffer =>
      let r := ramdiskRead pages mem offset length buffer
      (r.status = .success ↔ c.Fits) ∧ r.length = length
      ∧ r.state = (if c.Fits then arrayRead (diskOf pages mem) offset.toNat length.toNat buffer
          else buffer)
      ∧ ∀ a ∈ r.touched, OnDisk pages a
  | .write offset length buffer =>
      let r := ramdiskWrite pages mem offset length buffer
      (r.status = .success ↔ c.Fits) ∧ r.length = length
      ∧ (∀ i < diskSize, diskOf pages r.state i = arrayStep (diskOf pages mem) c i)
      ∧ (¬c.Fits → r.state = mem) ∧ (∀ a, ¬OnDisk pages a → r.state a = mem a)
      ∧ ∀ a ∈ r.touched, OnDisk pages a

/-- The requests the code serves rightly: those turned down with good
reason, and those of fewer than 500 bytes at the start of the device. -/
def DiskCall.FitsStart (c : DiskCall) : Prop :=
  c.offset.toInt < 0 ∨ c.length.toInt < 0
  ∨ diskSize < c.offset.toInt + c.length.toInt ∧ c.offset.toInt + c.length.toInt < 2 ^ 31
  ∨ c.offset.toInt + c.length.toInt < pageCount ∧ (c.offset.toInt = 0 ∨ c.length.toInt = 0)

instance (c : DiskCall) : Decidable c.FitsStart := inferInstanceAs (Decidable (_ ∨ _))

variable {pages : Nat → Word} {mem : Mem}

theorem toNat_of_nonneg {x : Word} (h : 0 ≤ x.toInt) : x.toInt = x.toNat ∧ x.toNat < 2 ^ 31 := by
  rw [BitVec.toInt_eq_toNat_cond] at h ⊢
  split at h
  · next hlt =>
      rw [if_pos hlt]
      exact ⟨rfl, by omega⟩
  · have := x.isLt
    omega

theorem toInt_add_nonneg {x y : Word} (hx : 0 ≤ x.toInt) (hy : 0 ≤ y.toInt) :
    (x + y).toInt = if x.toInt + y.toInt < 2 ^ 31 then x.toInt + y.toInt
      else x.toInt + y.toInt - 2 ^ 32 := by
  obtain ⟨hx, hx'⟩ := toNat_of_nonneg hx
  obtain ⟨hy, hy'⟩ := toNat_of_nonneg hy
  rw [BitVec.toInt_eq_toNat_cond, BitVec.toNat_add, Nat.mod_eq_of_lt (by omega), hx, hy]
  split
  · next h => rw [if_pos (by omega)]; push_cast; rfl
  · next h => rw [if_neg (by omega)]; push_cast; rfl

/-- Different bytes of the device are at different addresses. -/
theorem DiskPages.addr_inj (hp : DiskPages pages) {i j : Nat} (hi : i < diskSize)
    (hj : j < diskSize) (h : deviceAddr pages 0 i = deviceAddr pages 0 j) : i = j := by
  have hi' : i / 4096 < pageCount := by simp only [diskSize, pageCount] at *; omega
  have hj' : j / 4096 < pageCount := by simp only [diskSize, pageCount] at *; omega
  have hai : (pages (i / 4096)).toNat % 4096 = 0 := hp.aligned _ hi'
  have haj : (pages (j / 4096)).toNat % 4096 = 0 := hp.aligned _ hj'
  have hli := (pages (i / 4096)).isLt
  have hlj := (pages (j / 4096)).isLt
  have hnat := congrArg BitVec.toNat h
  simp only [deviceAddr, Nat.zero_add, BitVec.toNat_add, BitVec.toNat_ofNat] at hnat
  have hpage : pages (i / 4096) = pages (j / 4096) := by
    apply BitVec.eq_of_toNat_eq
    omega
  have hdiv := hp.distinct _ hi' _ hj' hpage
  rw [hdiv] at hnat
  omega

theorem foldl_read (source : Nat → Byte) (buffer : Nat → Byte) (n i : Nat) :
    (List.range n).foldl (fun b j => update b j (source j)) buffer i
      = if i < n then source i else buffer i := by
  induction n with
  | zero => rfl
  | succ n ih =>
      rw [List.range_succ, List.foldl_append, List.foldl_cons, List.foldl_nil]
      by_cases hi : i = n
      · subst hi
        rw [update_self, if_pos (Nat.lt_succ_self i)]
      · rw [update_of_ne hi, ih]
        exact if_congr (by omega) rfl rfl

theorem foldl_write_other {addr : Nat → Word} {buffer : Nat → Byte} {a : Word} :
    ∀ {n : Nat} {mem : Mem}, (∀ j < n, addr j ≠ a) →
    (List.range n).foldl (fun m j => update m (addr j) (buffer j)) mem a = mem a := by
  intro n mem h
  induction n with
  | zero => rfl
  | succ n ih =>
      rw [List.range_succ, List.foldl_append, List.foldl_cons, List.foldl_nil,
        update_of_ne (h n (Nat.lt_succ_self n)).symm]
      exact ih fun j hj => h j (by omega)

theorem foldl_write_at {addr : Nat → Word} {buffer : Nat → Byte} {n i : Nat} {mem : Mem}
    (hinj : ∀ j < n, addr j = addr i → j = i) (hi : i < n) :
    (List.range n).foldl (fun m j => update m (addr j) (buffer j)) mem (addr i) = buffer i := by
  induction n with
  | zero => exact absurd hi (Nat.not_lt_zero i)
  | succ n ih =>
      rw [List.range_succ, List.foldl_append, List.foldl_cons, List.foldl_nil]
      by_cases hn : addr n = addr i
      · obtain rfl := hinj n (Nat.lt_succ_self n) hn
        rw [update_self]
      · rw [update_of_ne (Ne.symm hn)]
        refine ih (fun j hj => hinj j (by omega)) ?_
        have hne : i ≠ n := fun he => hn (by rw [he])
        omega

/-! ## Which requests are served rightly -/

/-- A request of the right kind that is accepted moves bytes at the start
of the device, or none at all. -/
theorem DiskCall.FitsStart.accepted {c : DiskCall} (h : c.FitsStart) (h0 : 0 ≤ c.length.toInt)
    (h1 : 0 ≤ c.offset.toInt) :
    c.Fits ∧ (c.offset + c.length).toInt < pageCount
      ∧ (c.offset.toNat = 0 ∨ c.length.toNat = 0) ∧ c.length.toNat < diskSize
    ∨ ¬c.Fits ∧ pageCount ≤ (c.offset + c.length).toInt := by
  obtain ⟨ho, -⟩ := toNat_of_nonneg h1
  obtain ⟨hl, -⟩ := toNat_of_nonneg h0
  rw [toInt_add_nonneg h1 h0]
  rcases h with h | h | ⟨hbig, hsmall⟩ | ⟨hlt, hz⟩
  · omega
  · omega
  · refine .inr ⟨fun hf => ?_, ?_⟩
    · have := hf.2.2
      omega
    · rw [if_pos hsmall]
      simp only [diskSize, pageCount] at *
      omega
  · refine .inl ⟨⟨h1, h0, ?_⟩, ?_, ?_, ?_⟩
    · simp only [diskSize, pageCount] at *
      omega
    · rw [if_pos (by simp only [pageCount] at *; omega)]
      exact hlt
    · omega
    · simp only [diskSize, pageCount] at *
      omega

theorem served_rejected {c : DiskCall} (hfits : ¬c.Fits) (h : c.length.toInt < 0
    ∨ c.offset.toInt < 0 ∨ pageCount ≤ (c.offset + c.length).toInt) : DiskServed pages mem c := by
  cases c with
  | read offset length buffer =>
      obtain ⟨status, hs, he⟩ : ∃ status ≠ .success, ramdiskRead pages mem offset length buffer
        = ⟨status, length, buffer, []⟩ := diskRequest_rejected h
      simp only [DiskServed, he]
      refine ⟨iff_of_false hs hfits, trivial, ?_, by simp⟩
      rw [if_neg hfits]
  | write offset length buffer =>
      obtain ⟨status, hs, he⟩ : ∃ status ≠ .success, ramdiskWrite pages mem offset length buffer
        = ⟨status, length, mem, []⟩ := diskRequest_rejected h
      simp only [DiskServed, he]
      refine ⟨iff_of_false hs hfits, trivial, fun i _ => ?_, fun _ => trivial, by simp, by simp⟩
      rw [arrayStep, if_neg hfits]

/-- A request within the device that is accepted, and starts where it
should. -/
theorem served_accepted {c : DiskCall} (hp : DiskPages pages) (hfits : c.Fits)
    (h : (c.offset + c.length).toInt < pageCount)
    (haddr : ∀ j < c.length.toNat,
      deviceAddr pages (c.offset.toNat / 4096) j = deviceAddr pages 0 (c.offset.toNat + j)) :
    DiskServed pages mem c := by
  obtain ⟨h1, h0, hend⟩ := hfits
  have hfits : c.Fits := ⟨h1, h0, hend⟩
  have hin : ∀ j < c.length.toNat, c.offset.toNat + j < diskSize := by
    intro j hj
    rw [(toNat_of_nonneg h1).1, (toNat_of_nonneg h0).1] at hend
    omega
  have htouched : ∀ a ∈ (List.range c.length.toNat).map (deviceAddr pages (c.offset.toNat / 4096)),
      OnDisk pages a := by
    intro a ha
    obtain ⟨j, hj, rfl⟩ := List.mem_map.mp ha
    have hj := List.mem_range.mp hj
    exact ⟨_, hin j hj, haddr j hj⟩
  cases c with
  | read offset length buffer =>
      simp only [DiskCall.offset, DiskCall.length] at *
      simp only [DiskServed, ramdiskRead, diskRequest_accepted h0 h1 h]
      refine ⟨iff_of_true trivial hfits, trivial, ?_, htouched⟩
      rw [if_pos hfits]
      funext i
      rw [foldl_read (fun j => mem (deviceAddr pages (offset.toNat / 4096) j)), arrayRead]
      by_cases hi : i < length.toNat
      · rw [if_pos hi, if_pos hi, haddr i hi]
        rfl
      · rw [if_neg hi, if_neg hi]
  | write offset length buffer =>
      simp only [DiskCall.offset, DiskCall.length] at *
      simp only [DiskServed, ramdiskWrite, diskRequest_accepted h0 h1 h]
      refine ⟨iff_of_true trivial hfits, trivial, ?_, fun hn => absurd hfits hn, ?_, htouched⟩
      · intro i hi
        rw [arrayStep, if_pos hfits, arrayWrite, diskOf]
        by_cases hr : offset.toNat ≤ i ∧ i < offset.toNat + length.toNat
        · obtain ⟨k, rfl⟩ := Nat.exists_eq_add_of_le hr.1
          have hk : k < length.toNat := by omega
          rw [if_pos hr, Nat.add_sub_cancel_left, ← haddr k hk]
          refine foldl_write_at (fun j hj hje => ?_) hk
          rw [haddr j hj, haddr k hk] at hje
          exact Nat.add_left_cancel (hp.addr_inj (hin j hj) hi hje)
        · rw [if_neg hr]
          refine foldl_write_other fun j hj hje => hr ?_
          rw [haddr j hj] at hje
          have := hp.addr_inj (hin j hj) hi hje
          omega
      · intro a ha
        refine foldl_write_other fun j hj hje => ha ?_
        exact ⟨_, hin j hj, by rw [← hje, haddr j hj]⟩

/-- The requests of the right kind are served rightly, whatever the memory. -/
theorem DiskCall.FitsStart.served {c : DiskCall} (hp : DiskPages pages) (h : c.FitsStart)
    (mem : Mem) : DiskServed pages mem c := by
  by_cases h0 : c.length.toInt < 0
  · exact served_rejected (fun hf => absurd hf.2.1 (not_le.mpr h0)) (.inl h0)
  by_cases h1 : c.offset.toInt < 0
  · exact served_rejected (fun hf => absurd hf.1 (not_le.mpr h1)) (.inr (.inl h1))
  rcases h.accepted (not_lt.mp h0) (not_lt.mp h1) with ⟨hf, hlt, hz, -⟩ | ⟨hf, hge⟩
  · refine served_accepted hp hf hlt fun j hj => ?_
    rcases hz with hz | hz
    · rw [hz, Nat.zero_div, Nat.zero_add]
    · omega
  · exact served_rejected hf (.inr (.inr hge))

/-! ## Which are not -/

/-- A device with its first byte set apart from the others. -/
def firstByte (pages : Nat → Word) (v w : Byte) : Mem := fun a => if a = pages 0 then v else w

theorem diskOf_firstByte (hp : DiskPages pages) (v w : Byte) {i : Nat} (hi : i < diskSize) :
    diskOf pages (firstByte pages v w) i = if i = 0 then v else w := by
  rw [diskOf, firstByte]
  refine if_congr ?_ rfl rfl
  rw [← deviceAddr_zero pages 0]
  refine ⟨fun he => ?_, fun he => by rw [he]⟩
  exact hp.addr_inj hi (by decide) he

theorem diskRequest_success {move : Nat → Word → σ → σ} {offset length : Word} {s : σ} :
    (diskRequest pages move offset length s).status = .success ↔
      0 ≤ length.toInt ∧ 0 ≤ offset.toInt ∧ (offset + length).toInt < pageCount := by
  by_cases h : 0 ≤ length.toInt ∧ 0 ≤ offset.toInt ∧ (offset + length).toInt < pageCount
  · rw [diskRequest_accepted h.1 h.2.1 h.2.2]
    exact iff_of_true rfl h
  · obtain ⟨status, hs, he⟩ : ∃ status ≠ .success, diskRequest pages move offset length s
        = ⟨status, length, s, []⟩ := diskRequest_rejected (by omega)
    rw [he]
    exact iff_of_false hs h

theorem DiskServed.accepted_iff {c : DiskCall} (h : DiskServed pages mem c) :
    (0 ≤ c.length.toInt ∧ 0 ≤ c.offset.toInt ∧ (c.offset + c.length).toInt < pageCount)
      ↔ c.Fits := by
  cases c with
  | read offset length buffer => exact diskRequest_success.symm.trans h.1
  | write offset length buffer => exact diskRequest_success.symm.trans h.1

/-- A request further on in the first page is served at its start. -/
theorem not_served_within {c : DiskCall} (hp : DiskPages pages) (hfits : c.Fits)
    (h : (c.offset + c.length).toInt < pageCount) (hpage : c.offset.toNat / 4096 = 0)
    (hoff : c.offset.toNat ≠ 0) (hlen : 0 < c.length.toNat) : ∃ mem, ¬DiskServed pages mem c := by
  have hin : c.offset.toNat < diskSize := by
    have : 4096 ≤ diskSize := by decide
    omega
  cases c with
  | read offset length buffer =>
      simp only [DiskCall.offset, DiskCall.length] at *
      have h1 : 0 ≤ offset.toInt := hfits.1
      have h0 : 0 ≤ length.toInt := hfits.2.1
      refine ⟨firstByte pages 0 1, fun hs => ?_⟩
      have hstate := congrFun hs.2.2.1 0
      rw [if_pos hfits, arrayRead, if_pos hlen, Nat.add_zero, diskOf_firstByte hp _ _ hin,
        if_neg hoff] at hstate
      simp only [ramdiskRead, diskRequest_accepted h0 h1 h] at hstate
      rw [foldl_read (fun j => firstByte pages 0 1 (deviceAddr pages (offset.toNat / 4096) j)),
        if_pos hlen, hpage, deviceAddr_zero, firstByte, if_pos rfl] at hstate
      exact absurd hstate (by decide)
  | write offset length buffer =>
      simp only [DiskCall.offset, DiskCall.length] at *
      have h1 : 0 ≤ offset.toInt := hfits.1
      have h0 : 0 ≤ length.toInt := hfits.2.1
      have hend : offset.toInt + length.toInt ≤ diskSize := hfits.2.2
      refine ⟨firstByte pages (buffer 0 + 1) 0, fun hs => ?_⟩
      have hstate := hs.2.2.1 0 (by decide)
      rw [arrayStep, if_pos hfits, arrayWrite, if_neg (by omega),
        diskOf_firstByte hp _ _ (by decide), if_pos rfl] at hstate
      simp only [ramdiskWrite, diskRequest_accepted h0 h1 h, hpage, diskOf] at hstate
      rw [foldl_write_at ?_ hlen] at hstate
      · have hne : ∀ b : Byte, b ≠ b + 1 := by decide
        exact hne _ hstate
      · intro j hj hje
        refine hp.addr_inj ?_ (by decide) hje
        rw [(toNat_of_nonneg h1).1, (toNat_of_nonneg h0).1] at hend
        omega

/-- A request that is served rightly whatever the memory holds is of the
right kind. -/
theorem fitsStart_of_served {c : DiskCall} (hp : DiskPages pages)
    (h : ∀ mem, DiskServed pages mem c) : c.FitsStart := by
  by_contra hbad
  unfold DiskCall.FitsStart at hbad
  push Not at hbad
  obtain ⟨h1, h0, hover, hstart⟩ := hbad
  have hacc := (h fun _ => 0).accepted_iff
  rw [toInt_add_nonneg h1 h0] at hacc
  obtain ⟨ho, ho'⟩ := toNat_of_nonneg h1
  obtain ⟨hl, hl'⟩ := toNat_of_nonneg h0
  have hsize : (diskSize : Int) = 2048000 := rfl
  have hcount : (pageCount : Int) = 500 := rfl
  rw [hsize] at hover
  rw [hcount] at hacc hstart
  by_cases hwrap : c.offset.toInt + c.length.toInt < 2 ^ 31
  · rw [if_pos hwrap] at hacc
    have hfits : c.Fits := by
      refine ⟨h1, h0, ?_⟩
      by_contra hgt
      exact absurd (hover (not_le.mp hgt)) (by omega)
    have hlt := (hacc.mpr hfits).2.2
    obtain ⟨mem, hbad⟩ := not_served_within hp hfits
      (by rw [toInt_add_nonneg h1 h0, if_pos hwrap]; exact hlt) (by omega)
      (by have := (hstart hlt).1; omega) (by have := (hstart hlt).2; omega)
    exact hbad (h mem)
  · rw [if_neg hwrap] at hacc
    have hfits := hacc.mp ⟨h0, h1, by omega⟩
    have := hfits.2.2
    rw [hsize] at this
    omega

/-! ## Runs -/

/-- A request, taken for its effect on the memory. -/
def diskStep (pages : Nat → Word) (mem : Mem) : DiskCall → Except Fault Mem
  | .read _ _ _ => .ok mem
  | .write offset length buffer => .ok (ramdiskWrite pages mem offset length buffer).state

theorem arrayStep_congr {disk disk' : Nat → Byte} (h : ∀ i < diskSize, disk i = disk' i)
    (c : DiskCall) : ∀ i < diskSize, arrayStep disk c i = arrayStep disk' c i := by
  intro i hi
  cases c with
  | read offset length buffer => exact h i hi
  | write offset length buffer =>
      rw [arrayStep, arrayStep]
      by_cases hf : (DiskCall.write offset length buffer).Fits
      · rw [if_pos hf, if_pos hf, arrayWrite, arrayWrite, h i hi]
      · rw [if_neg hf, if_neg hf, h i hi]

theorem DiskServed.step {c : DiskCall} {mem' : Mem} (h : DiskServed pages mem c)
    (hst : diskStep pages mem c = .ok mem') :
    ∀ i < diskSize, diskOf pages mem' i = arrayStep (diskOf pages mem) c i := by
  cases c with
  | read offset length buffer =>
      obtain rfl := Except.ok.inj hst
      exact fun _ _ => rfl
  | write offset length buffer =>
      obtain rfl := Except.ok.inj hst
      exact h.2.2.1

/-- The RAM disk is an array of bytes for the requests at its start and for
those rightly turned down, and for no others: these are the requests
served rightly whatever the device holds, and in a run of such requests
every one is served as by an array. -/
theorem ramdisk_array_iff (hp : DiskPages pages) :
    (∀ c : DiskCall, (∀ mem, DiskServed pages mem c) ↔ c.FitsStart)
    ∧ ∀ {mem mem' : Mem} {tr : List (Mem × DiskCall)}, Steps (diskStep pages) mem tr mem' →
      (∀ x ∈ tr, x.2.FitsStart) →
      (∀ x ∈ tr, DiskServed pages x.1 x.2)
      ∧ ∀ i < diskSize, diskOf pages mem' i
        = (tr.map Prod.snd).foldl arrayStep (diskOf pages mem) i := by
  refine ⟨fun c => ⟨fitsStart_of_served hp, fun h mem => h.served hp mem⟩, ?_⟩
  intro mem mem' tr hrun hgood
  refine ⟨fun x hx => (hgood x hx).served hp x.1, ?_⟩
  induction hrun with
  | refl => exact fun _ _ => rfl
  | @tail tr t t' c hpre hst ih =>
      have hlast := hgood (t, c) (List.mem_append_right _ (List.mem_singleton.mpr rfl))
      have ih := ih fun x hx => hgood x (List.mem_append_left _ hx)
      intro i hi
      rw [List.map_append, List.foldl_append]
      exact ((hlast.served hp t).step hst i hi).trans (arrayStep_congr ih c i hi)

/-- Page `i` of the device at the `i`-th page of memory from 1 MB on. -/
def somePages : Nat → Word := fun i => BitVec.ofNat 32 (0x100000 + 4096 * i)

theorem somePages_disk : DiskPages somePages where
  aligned := by
    intro i hi
    simp only [PageAligned, somePages, BitVec.toNat_ofNat, pageCount] at *
    omega
  distinct := by
    intro i hi j hj h
    have := congrArg BitVec.toNat h
    simp only [somePages, BitVec.toNat_ofNat, pageCount] at *
    omega

/-- Four bytes are written at the start. -/
theorem ramdisk_array_start :
    DiskPages somePages ∧ (DiskCall.write 0 4 fun _ => 7).FitsStart
    ∧ DiskServed somePages (fun _ => 0) (.write 0 4 fun _ => 7) := by
  have hgood : (DiskCall.write 0 4 fun _ => 7).FitsStart := by decide
  exact ⟨somePages_disk, hgood, ((ramdisk_array_iff somePages_disk).1 _).mpr hgood _⟩

/-- One byte is written at offset 1, and is found at offset 0. -/
theorem ramdisk_not_array : DiskPages somePages ∧ ∃ mem mem', Steps (diskStep somePages) mem
      [(mem, .write 1 1 fun _ => 7)] mem'
    ∧ diskOf somePages mem' 0 = 7 ∧ diskOf somePages mem' 1 = 0
    ∧ arrayStep (diskOf somePages mem) (.write 1 1 fun _ => 7) 1 = 7
    ∧ ¬DiskServed somePages mem (.write 1 1 fun _ => 7) := by
  refine ⟨somePages_disk, fun _ => 0, _, .tail .refl rfl, ?_, ?_, ?_, fun h => ?_⟩
  · decide +kernel
  · decide +kernel
  · decide +kernel
  · have := h.2.2.1 1 (by decide)
    exact absurd this (by decide +kernel)

end SpKernel
