import SpKernel.Lib.OpenAddressing
import SpKernel.Lib.Outcome
import SpKernel.Types

/-!
# The ARP cache (`intel.c`)

The network driver keeps the hardware addresses it has heard of in a
table of 256 entries, hashed by the IP address. `save_hw_addr` updates
the entry of an address or takes a free one; `get_hw_addr` tries every
entry, and when there is none asks the network and waits for the receive
daemon to save the reply.

The table with `filled` as the only mark of a free entry is the open
addressing of `Lib.OpenAddressing` (`saveHwAddr_contents`,
`findHwAddr_contents`), so 0.0.0.0 is an address like any other although
it is what a free entry holds.

A run is a sequence of saves. `latest` is the last hardware address that
was saved with success for an address, and `Mirrors` the invariant: the
table finds exactly these. One save changes the result for its own
address only (`findHwAddr_save`), so `Mirrors.save` is the step and
`mirrors_run` the induction. `arp_cache_map` adds what the table looks
like: no address is in two entries, and a save fails exactly when 256
other addresses are stored (`Mirrors.fails_iff`).
-/

namespace SpKernel

open Function (update update_self update_of_ne)
open Lib

abbrev arpCacheSize : Nat := 256

/-- `arp_entry_t`; the six bytes of the hardware address are one value. -/
structure ArpEntry where
  ipAddr : Word
  filled : BitVec 16
  hwAddr : BitVec 48
  deriving DecidableEq

abbrev ArpCache : Type := Nat → ArpEntry

/-- The page of the cache after `memset`. -/
def zeroedCache : ArpCache := fun _ => ⟨0, 0, 0⟩

/-- `ip % ARP_CACHE_SIZE` -/
def arpHash (ip : Word) : Nat := ip.toNat % arpCacheSize

/-- 0 on success, -1 otherwise, and the cache afterwards. -/
def saveHwAddr (cache : ArpCache) (ip : Word) (hwAddr : BitVec 48) : Int × ArpCache :=
  let slot := probe arpCacheSize
    (fun index => (cache index).ipAddr = ip ∨ (cache index).filled = 0#16) arpCacheSize (arpHash ip)
  match slot with
  | some index => (0, update cache index ⟨ip, 1#16, hwAddr⟩)
  | none => (-1, cache)

/-- The probe loop of `get_hw_addr`. -/
def findHwAddr (cache : ArpCache) (ip : Word) : Option (BitVec 48) :=
  (probe arpCacheSize
    (fun index => (cache index).ipAddr = ip ∧ (cache index).filled ≠ 0#16) arpCacheSize
    (arpHash ip)).map fun index => (cache index).hwAddr

/-- `get_hw_addr`: at most `tries` rounds. What is saved while a round
waits for the reply to its request is the environment's. -/
def getHwAddr (wait : Nat → ArpCache → ArpCache) (ip : Word) : Nat → ArpCache →
    Option (BitVec 48) × ArpCache
  | 0, cache => (none, cache)
  | tries + 1, cache =>
      match findHwAddr cache ip with
      | some hwAddr => (some hwAddr, cache)
      | none => getHwAddr wait ip tries (wait tries cache)

/-! ## The cache as a table of keys and values -/

/-- What an entry holds. -/
def ArpEntry.contents (e : ArpEntry) : Option (Word × BitVec 48) :=
  if e.filled = 0#16 then none else some (e.ipAddr, e.hwAddr)

def contents (cache : ArpCache) : Nat → Option (Word × BitVec 48) :=
  fun index => (cache index).contents

theorem arpHash_lt (ip : Word) : arpHash ip < arpCacheSize := Nat.mod_lt _ (by decide)

theorem admits_contents (e : ArpEntry) (ip : Word) :
    admits ip e.contents = decide (e.ipAddr = ip ∨ e.filled = 0#16) := by
  unfold ArpEntry.contents
  split
  · next h => simp [admits, h]
  · next h => simp [admits, h]

theorem holdsKey_contents (e : ArpEntry) (ip : Word) :
    holdsKey ip e.contents = decide (e.ipAddr = ip ∧ e.filled ≠ 0#16) := by
  unfold ArpEntry.contents
  split
  · next h => simp [holdsKey, h]
  · next h => simp [holdsKey, h]

theorem saveHwAddr_contents (cache : ArpCache) (ip : Word) (hwAddr : BitVec 48) :
    ((saveHwAddr cache ip hwAddr).1 = 0
      ∧ insertKey arpCacheSize arpHash (contents cache) ip hwAddr
        = some (contents (saveHwAddr cache ip hwAddr).2))
    ∨ (saveHwAddr cache ip hwAddr).1 = -1 ∧ (saveHwAddr cache ip hwAddr).2 = cache
      ∧ insertKey arpCacheSize arpHash (contents cache) ip hwAddr = none := by
  have htest : (fun p => admits ip (contents cache p))
      = fun index => decide ((cache index).ipAddr = ip ∨ (cache index).filled = 0#16) :=
    funext fun p => admits_contents (cache p) ip
  unfold saveHwAddr insertKey
  rw [htest]
  cases probe arpCacheSize _ arpCacheSize (arpHash ip) with
  | none => exact .inr ⟨rfl, rfl, rfl⟩
  | some index =>
      refine .inl ⟨rfl, congrArg some (funext fun p => ?_)⟩
      by_cases hp : p = index
      · subst hp
        simp [contents, ArpEntry.contents]
      · simp [contents, update_of_ne hp]

theorem findHwAddr_contents (cache : ArpCache) (ip : Word) :
    findHwAddr cache ip = lookupKey arpCacheSize arpHash (contents cache) ip := by
  have htest : (fun p => holdsKey ip (contents cache p))
      = fun index => decide ((cache index).ipAddr = ip ∧ (cache index).filled ≠ 0#16) :=
    funext fun p => holdsKey_contents (cache p) ip
  unfold findHwAddr lookupKey
  rw [htest]
  rcases probe_cases (fun index => decide ((cache index).ipAddr = ip ∧ (cache index).filled ≠ 0#16))
    (by decide) arpCacheSize (arpHash_lt ip).le with ⟨i, hi, he, hpass, -⟩ | ⟨he, -⟩
  · rw [he]
    simp only [decide_eq_true_eq] at hpass
    simp [contents, ArpEntry.contents, hpass.2]
  · rw [he]
    rfl

/-! ## Runs of saves -/

/-- A call of `save_hw_addr`. -/
abbrev Save : Type := Word × BitVec 48

def saveStep (cache : ArpCache) (call : Save) : Except Fault ArpCache :=
  .ok (saveHwAddr cache call.1 call.2).2

/-- The address of the latest successful save for `ip`. -/
def latest (ip : Word) : List (ArpCache × Save) → Option (BitVec 48)
  | [] => none
  | (cache, call) :: tr =>
      (latest ip tr).or
        (if call.1 = ip ∧ (saveHwAddr cache call.1 call.2).1 = 0 then some call.2 else none)

/-- The addresses that have been saved successfully. -/
def savedIps (tr : List (ArpCache × Save)) : Finset Word :=
  ((tr.filter fun x => (saveHwAddr x.1 x.2.1 x.2.2).1 = 0).map fun x => x.2.1).toFinset

theorem latest_append (ip : Word) (tr : List (ArpCache × Save)) (cache : ArpCache) (call : Save) :
    latest ip (tr ++ [(cache, call)])
      = if call.1 = ip ∧ (saveHwAddr cache call.1 call.2).1 = 0 then some call.2
        else latest ip tr := by
  induction tr with
  | nil => simp [latest]
  | cons x tr ih =>
      rw [List.cons_append, latest, ih, latest]
      split
      · rfl
      · rfl

/-- Exactly the addresses saved successfully have a latest save. -/
theorem mem_savedIps (ip : Word) (tr : List (ArpCache × Save)) :
    ip ∈ savedIps tr ↔ ∃ hwAddr, latest ip tr = some hwAddr := by
  induction tr using List.reverseRecOn with
  | nil => simp [savedIps, latest]
  | append_singleton tr x ih =>
      obtain ⟨cache, call⟩ := x
      have hmem : ip ∈ savedIps (tr ++ [(cache, call)]) ↔
          ip ∈ savedIps tr ∨ call.1 = ip ∧ (saveHwAddr cache call.1 call.2).1 = 0 := by
        simp only [savedIps, List.filter_append, List.map_append, List.toFinset_append,
          Finset.mem_union]
        refine or_congr_right ?_
        by_cases hs : (saveHwAddr cache call.1 call.2).1 = 0
        · simp [hs, eq_comm]
        · simp [hs]
      rw [hmem, latest_append, ih]
      split
      · next h => exact iff_of_true (.inr h) ⟨_, rfl⟩
      · next h => simp [h]

/-- What holds in a run: the table is well placed and is the map of the
latest saves. -/
structure Mirrors (tr : List (ArpCache × Save)) (cache : ArpCache) : Prop where
  placed : Placed arpCacheSize arpHash (contents cache)
  find : ∀ ip, findHwAddr cache ip = latest ip tr

/-- One save changes the result for its own address only. -/
theorem findHwAddr_save {cache : ArpCache} (h : Placed arpCacheSize arpHash (contents cache))
    (ip : Word) (hwAddr : BitVec 48) (ip' : Word) :
    findHwAddr (saveHwAddr cache ip hwAddr).2 ip'
      = if ip = ip' ∧ (saveHwAddr cache ip hwAddr).1 = 0 then some hwAddr
        else findHwAddr cache ip' := by
  rcases saveHwAddr_contents cache ip hwAddr with ⟨hok, hins⟩ | ⟨hfail, hsame, -⟩
  · rw [findHwAddr_contents, h.lookup_insert arpHash_lt hins, hok, findHwAddr_contents]
    simp [eq_comm]
  · rw [hsame, hfail, if_neg (by simp)]

theorem Mirrors.save {tr : List (ArpCache × Save)} {cache : ArpCache} (h : Mirrors tr cache)
    (call : Save) : Mirrors (tr ++ [(cache, call)]) (saveHwAddr cache call.1 call.2).2 where
  placed := by
    rcases saveHwAddr_contents cache call.1 call.2 with ⟨-, hins⟩ | ⟨-, hsame, -⟩
    · exact h.placed.insert (arpHash_lt _) hins
    · rw [hsame]
      exact h.placed
  find := fun ip => by
    rw [findHwAddr_save h.placed, latest_append, h.find]

theorem findHwAddr_zeroed (ip : Word) : findHwAddr zeroedCache ip = none := by
  refine Option.eq_none_iff_forall_ne_some.mpr fun hwAddr h => ?_
  rw [findHwAddr_contents] at h
  obtain ⟨p, -, hs⟩ := (placed_empty.lookup_iff (arpHash_lt ip)).mp h
  cases hs

theorem mirrors_run {tr : List (ArpCache × Save)} {cache : ArpCache}
    (h : Steps saveStep zeroedCache tr cache) : Mirrors tr cache := by
  induction h with
  | refl => exact ⟨placed_empty, findHwAddr_zeroed⟩
  | @tail tr cache cache' call _ hst ih =>
      obtain rfl := Except.ok.inj hst
      exact ih.save call

/-- A save fails exactly when 256 other addresses are stored. -/
theorem Mirrors.fails_iff {tr : List (ArpCache × Save)} {cache : ArpCache} (h : Mirrors tr cache)
    (ip : Word) (hwAddr : BitVec 48) :
    (saveHwAddr cache ip hwAddr).1 ≠ 0 ↔ ((savedIps tr).erase ip).card = arpCacheSize := by
  have hstored : ∀ ip, ip ∈ savedIps tr ↔
      ∃ v, lookupKey arpCacheSize arpHash (contents cache) ip = some v := by
    intro ip
    rw [mem_savedIps, ← h.find, findHwAddr_contents]
  rw [← h.placed.insert_none arpHash_lt hstored]
  rcases saveHwAddr_contents cache ip hwAddr with ⟨hok, hins⟩ | ⟨hfail, -, hins⟩
  · rw [hok, hins]
    simp
  · rw [hfail, hins]
    simp

theorem Mirrors.unique {tr : List (ArpCache × Save)} {cache : ArpCache} (h : Mirrors tr cache)
    {p q : Nat} (hp : p < arpCacheSize) (hq : q < arpCacheSize) (hpf : (cache p).filled ≠ 0#16)
    (hqf : (cache q).filled ≠ 0#16) (he : (cache p).ipAddr = (cache q).ipAddr) : p = q := by
  have hslot : contents cache q = some ((cache p).ipAddr, (cache q).hwAddr) := by
    rw [he]
    exact if_neg hqf
  exact h.placed.unique (arpHash_lt _) hp hq (if_neg hpf) hslot

/-- The cache is a finite map: after any sequence of saves the probe loop
yields the latest successful save of an address, for the addresses saved
and no others; a save that goes through changes the result for no other
address, and it fails only for want of an entry. -/
theorem arp_cache_map {tr : List (ArpCache × Save)} {cache : ArpCache}
    (h : Steps saveStep zeroedCache tr cache) :
    (∀ ip, findHwAddr cache ip = latest ip tr
      ∧ ((findHwAddr cache ip).isSome ↔ ip ∈ savedIps tr))
    ∧ (∀ p < arpCacheSize, ∀ q < arpCacheSize, (cache p).filled ≠ 0#16 → (cache q).filled ≠ 0#16 →
        (cache p).ipAddr = (cache q).ipAddr → p = q)
    ∧ ∀ ip hwAddr,
      ((saveHwAddr cache ip hwAddr).1 ≠ 0 ↔ ((savedIps tr).erase ip).card = arpCacheSize)
      ∧ ∀ ip' ≠ ip, findHwAddr (saveHwAddr cache ip hwAddr).2 ip' = findHwAddr cache ip' := by
  have hm := mirrors_run h
  refine ⟨fun ip => ⟨hm.find ip, ?_⟩, ?_, fun ip hwAddr => ⟨hm.fails_iff ip hwAddr, ?_⟩⟩
  · rw [hm.find, mem_savedIps, Option.isSome_iff_exists]
  · exact fun p hp q hq hpf hqf he => hm.unique hp hq hpf hqf he
  · intro ip' hne
    rw [findHwAddr_save hm.placed, if_neg]
    exact fun hc => hne hc.1.symm

/-- 0.0.0.0, and then an address with the same hash value. -/
theorem arp_cache_map_zero :
    findHwAddr (saveHwAddr (saveHwAddr zeroedCache 0x0 0xA).2 0x100 0xB).2 0x0 = some 0xA := by
  have h := arp_cache_map (.tail (.tail .refl rfl) rfl : Steps saveStep zeroedCache
    ([] ++ [(zeroedCache, (0x0#32, 0xA#48))]
      ++ [((saveHwAddr zeroedCache 0x0 0xA).2, (0x100#32, 0xB#48))])
    (saveHwAddr (saveHwAddr zeroedCache 0x0 0xA).2 0x100 0xB).2)
  rw [(h.1 0x0).1]
  decide +kernel

end SpKernel
