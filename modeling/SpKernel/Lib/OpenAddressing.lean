import Mathlib

/-!
# Open addressing

A table of `size` slots that holds a finite map: a key is looked for from
its hash value on, one slot after the other with a wrap-around at the
end. A lookup tries every slot; an insertion stops at the first slot that
is empty or has the key. Keys, values and the hash function are
arbitrary, and nothing is ever taken out.

`Placed` is the invariant: no empty slot, and no second slot of the same
key, stands between the hash value of a key and the slot it is in. Under
it the table has at most one slot for a key (`Placed.unique`), a key is
found exactly when some slot has it (`Placed.lookup_iff`), and
`insertKey` changes the result of `lookupKey` for its own key only
(`Placed.lookup_insert`). An insertion fails exactly when `size` other
keys are stored (`Placed.insert_none`).

Probing is a search of its own (`probe_cases`): with a test on slots it
returns the first one that passes, and every slot is some number of steps
from the first (`exists_steps`), fewer than `size` of them leading to
different slots (`steps_inj`).
-/

namespace SpKernel.Lib

open Function (update update_self update_of_ne)

/-! ## Probing -/

/-- The first of the `count` slots from `index` on that passes the test. -/
def probe (size : Nat) (test : Nat → Bool) : Nat → Nat → Option Nat
  | 0, _ => none
  | count + 1, index =>
      let index := if index = size then 0 else index
      if test index then some index else probe size test count (index + 1)

variable {size : Nat}

theorem wrap_eq {index : Nat} (h : index ≤ size) :
    (if index = size then 0 else index) = index % size := by
  split
  · next he => rw [he, Nat.mod_self]
  · next hne => rw [Nat.mod_eq_of_lt (by omega)]

/-- What probing finds: the first slot that passes, if there is one. -/
theorem probe_cases (test : Nat → Bool) (h0 : 0 < size) : ∀ (count : Nat) {index : Nat},
    index ≤ size →
    (∃ i < count, probe size test count index = some ((index + i) % size)
      ∧ test ((index + i) % size) = true ∧ ∀ j < i, test ((index + j) % size) = false)
    ∨ probe size test count index = none ∧ ∀ i < count, test ((index + i) % size) = false
  | 0, _, _ => .inr ⟨rfl, fun i hi => absurd hi (Nat.not_lt_zero i)⟩
  | count + 1, index, hle => by
      have hnext : ∀ j, (index % size + 1 + j) % size = (index + (j + 1)) % size := by
        intro j
        rw [Nat.add_assoc, Nat.mod_add_mod, Nat.add_comm 1 j]
      simp only [probe, wrap_eq hle]
      by_cases ht : test (index % size) = true
      · refine .inl ⟨0, Nat.succ_pos count, if_pos ht, ht, ?_⟩
        exact fun j hj => absurd hj (Nat.not_lt_zero j)
      · have ht0 : test ((index + 0) % size) = false := by simpa using ht
        rw [if_neg ht]
        rcases probe_cases test h0 count (Nat.mod_lt index h0) with
          ⟨i, hi, he, hpass, hbefore⟩ | ⟨he, hall⟩
        · rw [hnext] at he hpass
          refine .inl ⟨i + 1, Nat.succ_lt_succ hi, he, hpass, fun j hj => ?_⟩
          cases j with
          | zero => exact ht0
          | succ j =>
              rw [← hnext]
              exact hbefore j (Nat.lt_of_succ_lt_succ hj)
        · refine .inr ⟨he, fun i hi => ?_⟩
          cases i with
          | zero => exact ht0
          | succ i =>
              rw [← hnext]
              exact hall i (Nat.lt_of_succ_lt_succ hi)

/-- Every slot is some number of steps after a given one. -/
theorem exists_steps {start p : Nat} (hs : start < size) (hp : p < size) :
    ∃ i < size, (start + i) % size = p := by
  by_cases h : start ≤ p
  · refine ⟨p - start, by omega, ?_⟩
    rw [Nat.add_sub_cancel' h, Nat.mod_eq_of_lt hp]
  · refine ⟨size - start + p, by omega, ?_⟩
    have he : start + (size - start + p) = p + size := by omega
    rw [he, Nat.add_mod_right, Nat.mod_eq_of_lt hp]

theorem steps_inj {start i j : Nat} (hi : i < size) (hj : j < size)
    (h : (start + i) % size = (start + j) % size) : i = j := by
  have hmod : start + i ≡ start + j [MOD size] := h
  have := Nat.ModEq.add_left_cancel' start hmod
  rwa [Nat.ModEq, Nat.mod_eq_of_lt hi, Nat.mod_eq_of_lt hj] at this

/-! ## The map in the table -/

variable {K V : Type*} [DecidableEq K]

/-- A slot where a key may be put: an empty one, or its own. -/
def admits (k : K) (slot : Option (K × V)) : Bool := slot.all fun e => e.1 = k

/-- A slot that has the key. -/
def holdsKey (k : K) (slot : Option (K × V)) : Bool := slot.any fun e => e.1 = k

/-- `none` if every slot has another key. -/
def insertKey (size : Nat) (hash : K → Nat) (table : Nat → Option (K × V)) (k : K) (v : V) :
    Option (Nat → Option (K × V)) :=
  (probe size (fun p => admits k (table p)) size (hash k)).map fun p => update table p (some (k, v))

def lookupKey (size : Nat) (hash : K → Nat) (table : Nat → Option (K × V)) (k : K) : Option V :=
  (probe size (fun p => holdsKey k (table p)) size (hash k)).bind fun p => (table p).map Prod.snd

variable {hash : K → Nat} {table table' : Nat → Option (K × V)} {k k' : K} {v w : V}

theorem admits_false {slot : Option (K × V)} :
    admits k slot = false ↔ ∃ k' v, slot = some (k', v) ∧ k' ≠ k := by
  cases slot with
  | none => simp [admits]
  | some e => simp [admits, Prod.ext_iff]

theorem admits_true {slot : Option (K × V)} (h : admits k slot = true) :
    slot = none ∨ ∃ v, slot = some (k, v) := by
  cases slot with
  | none => exact .inl rfl
  | some e =>
      obtain rfl : e.1 = k := by simpa [admits] using h
      exact .inr ⟨e.2, rfl⟩

theorem holdsKey_true {slot : Option (K × V)} :
    holdsKey k slot = true ↔ ∃ v, slot = some (k, v) := by
  cases slot with
  | none => simp [holdsKey]
  | some e => simp [holdsKey, Prod.ext_iff]

/-- The slots from the hash value of a key up to the one it is in all have
other keys. -/
def Placed (size : Nat) (hash : K → Nat) (table : Nat → Option (K × V)) : Prop :=
  ∀ k v i, i < size → table ((hash k + i) % size) = some (k, v) →
    ∀ j < i, admits k (table ((hash k + j) % size)) = false

theorem placed_empty : Placed size hash (fun _ => none : Nat → Option (K × V)) := by
  intro k v i _ h
  cases h

theorem Placed.unique (h : Placed size hash table) (hh : hash k < size) {p q : Nat}
    (hp : p < size) (hq : q < size) (hkp : table p = some (k, v)) (hkq : table q = some (k, w)) :
    p = q := by
  obtain ⟨i, hi, rfl⟩ := exists_steps hh hp
  obtain ⟨j, hj, rfl⟩ := exists_steps hh hq
  rcases Nat.lt_trichotomy i j with hlt | rfl | hlt
  · have := h k w j hj hkq i hlt
    simp [hkp, admits] at this
  · rfl
  · have := h k v i hi hkp j hlt
    simp [hkq, admits] at this

theorem Placed.lookup_iff (h : Placed size hash table) (hh : hash k < size) :
    lookupKey size hash table k = some v ↔ ∃ p < size, table p = some (k, v) := by
  have h0 : 0 < size := Nat.zero_lt_of_lt hh
  rcases probe_cases (fun p => holdsKey k (table p)) h0 size hh.le with
    ⟨i, hi, he, hpass, -⟩ | ⟨he, hall⟩
  · obtain ⟨w, hw⟩ := holdsKey_true.mp hpass
    have hslot : (hash k + i) % size < size := Nat.mod_lt _ h0
    rw [lookupKey, he, Option.bind_some, hw]
    constructor
    · intro hv
      obtain rfl : w = v := Option.some.inj hv
      exact ⟨_, hslot, hw⟩
    · rintro ⟨p, hp, hkp⟩
      obtain rfl := h.unique hh hp hslot hkp hw
      exact congrArg (Option.map Prod.snd) (hw.symm.trans hkp)
  · rw [lookupKey, he, Option.bind_none]
    constructor
    · intro hn
      cases hn
    · rintro ⟨p, hp, hkp⟩
      obtain ⟨i, hi, rfl⟩ := exists_steps hh hp
      have := hall i hi
      rw [holdsKey_true.mpr ⟨v, hkp⟩] at this
      cases this

/-- What an insertion does: it fails when every slot has another key, and
else fills the first slot that admits the key. -/
theorem insertKey_cases (table : Nat → Option (K × V)) (v : V) (hh : hash k < size) :
    (∃ i < size, insertKey size hash table k v
        = some (update table ((hash k + i) % size) (some (k, v)))
      ∧ admits k (table ((hash k + i) % size)) = true
      ∧ ∀ j < i, admits k (table ((hash k + j) % size)) = false)
    ∨ insertKey size hash table k v = none ∧ ∀ p < size, admits k (table p) = false := by
  have h0 : 0 < size := Nat.zero_lt_of_lt hh
  rcases probe_cases (fun p => admits k (table p)) h0 size hh.le with
    ⟨i, hi, he, hpass, hbefore⟩ | ⟨he, hall⟩
  · exact .inl ⟨i, hi, by rw [insertKey, he, Option.map_some], hpass, hbefore⟩
  · refine .inr ⟨by rw [insertKey, he, Option.map_none], fun p hp => ?_⟩
    obtain ⟨i, hi, rfl⟩ := exists_steps hh hp
    exact hall i hi

theorem Placed.insert (h : Placed size hash table) (hh : hash k < size)
    (hins : insertKey size hash table k v = some table') : Placed size hash table' := by
  rcases insertKey_cases table v hh with ⟨i, hi, he, hpass, hbefore⟩ | ⟨he, -⟩
  · obtain rfl := Option.some.inj (he.symm.trans hins)
    intro k₁ v₁ i₁ hi₁ hk₁ j hj
    by_cases hslot : (hash k₁ + i₁) % size = (hash k + i) % size
    · -- the slot just filled: those before it were tried and are as they were
      rw [hslot, update_self] at hk₁
      obtain ⟨rfl, rfl⟩ := Prod.mk.inj (Option.some.inj hk₁)
      obtain rfl := steps_inj hi₁ hi hslot
      rw [update_of_ne]
      · exact hbefore j hj
      · intro hjeq
        exact absurd (steps_inj (hj.trans hi) hi hjeq) hj.ne
    · rw [update_of_ne hslot] at hk₁
      have hold := h k₁ v₁ i₁ hi₁ hk₁ j hj
      by_cases hjslot : (hash k₁ + j) % size = (hash k + i) % size
      · -- a slot on the way was filled anew: it was not empty, so it had the key before
        rw [hjslot] at hold ⊢
        rw [update_self]
        rcases admits_true hpass with hnone | ⟨w, hw⟩
        · rw [hnone] at hold
          cases hold
        · rw [hw] at hold
          exact hold
      · rwa [update_of_ne hjslot]
  · rw [he] at hins
    cases hins

/-- An insertion sets the value of its own key and of no other. -/
theorem Placed.lookup_insert (h : Placed size hash table) (hh : ∀ k, hash k < size)
    (hins : insertKey size hash table k v = some table') :
    lookupKey size hash table' k' = if k' = k then some v else lookupKey size hash table k' := by
  have h' := h.insert (hh k) hins
  rcases insertKey_cases table v (hh k) with ⟨i, hi, he, hpass, -⟩ | ⟨he, -⟩
  · obtain rfl := Option.some.inj (he.symm.trans hins)
    have hslot : (hash k + i) % size < size := Nat.mod_lt _ (Nat.zero_lt_of_lt hi)
    split
    · next hk =>
        rw [hk]
        exact (h'.lookup_iff (hh k)).mpr ⟨_, hslot, update_self ..⟩
    · next hk =>
        apply Option.ext
        intro w
        rw [h'.lookup_iff (hh k'), h.lookup_iff (hh k')]
        refine exists_congr fun p => and_congr_right fun hp => ?_
        by_cases hpe : p = (hash k + i) % size
        · subst hpe
          rw [update_self]
          constructor
          · intro hs
            exact absurd (Prod.mk.inj (Option.some.inj hs)).1.symm hk
          · intro hs
            rcases admits_true hpass with hnone | ⟨u, hu⟩
            · rw [hnone] at hs
              cases hs
            · rw [hu] at hs
              exact absurd (Prod.mk.inj (Option.some.inj hs)).1.symm hk
        · rw [update_of_ne hpe]
  · rw [he] at hins
    cases hins

/-- An insertion fails exactly when `size` other keys are stored. -/
theorem Placed.insert_none (h : Placed size hash table) (hh : ∀ k, hash k < size)
    {stored : Finset K}
    (hstored : ∀ k, k ∈ stored ↔ ∃ v, lookupKey size hash table k = some v) :
    insertKey size hash table k v = none ↔ (stored.erase k).card = size := by
  have hslot : ∀ k' ∈ stored, ∃ p < size, ∃ w, table p = some (k', w) := by
    intro k' hk'
    obtain ⟨w, hw⟩ := (hstored k').mp hk'
    obtain ⟨p, hp, hs⟩ := (h.lookup_iff (hh k')).mp hw
    exact ⟨p, hp, w, hs⟩
  -- the slot of each stored key, and that no two of them share one
  choose! slot hlt hkey using hslot
  have hinj : Set.InjOn slot (stored.erase k) := by
    intro a ha b hb hab
    obtain ⟨u, hu⟩ := hkey a (Finset.mem_erase.mp ha).2
    obtain ⟨w, hw⟩ := hkey b (Finset.mem_erase.mp hb).2
    rw [hab] at hu
    exact (Prod.mk.inj (Option.some.inj (hu.symm.trans hw))).1
  rcases insertKey_cases table v (hh k) with ⟨i, hi, he, hpass, -⟩ | ⟨he, hall⟩
  · -- the slot that admits the key is the slot of no other one
    rw [he]
    refine iff_of_false (by simp) fun hcard => ?_
    have hfree : (hash k + i) % size < size := Nat.mod_lt _ (Nat.zero_lt_of_lt hi)
    have hle : (stored.erase k).card ≤ ((Finset.range size).erase ((hash k + i) % size)).card := by
      refine Finset.card_le_card_of_injOn slot (fun k' hk' => ?_) hinj
      obtain ⟨hne, hk'⟩ := Finset.mem_erase.mp hk'
      refine Finset.mem_erase.mpr ⟨fun heq => ?_, Finset.mem_range.mpr (hlt k' hk')⟩
      obtain ⟨w, hw⟩ := hkey k' hk'
      rw [heq] at hw
      rw [hw] at hpass
      exact hne (by simpa [admits] using hpass)
    rw [Finset.card_erase_of_mem (Finset.mem_range.mpr hfree), Finset.card_range] at hle
    omega
  · rw [he]
    refine iff_of_true rfl (le_antisymm ?_ ?_)
    · calc (stored.erase k).card ≤ (Finset.range size).card :=
            Finset.card_le_card_of_injOn slot (fun k' hk' =>
              Finset.mem_range.mpr (hlt k' (Finset.mem_erase.mp hk').2)) hinj
        _ = size := Finset.card_range size
    · have hkeys : ∀ p < size, ∃ k', (∃ w, table p = some (k', w)) ∧ k' ∈ stored.erase k := by
        intro p hp
        obtain ⟨k', w, hs, hne⟩ := admits_false.mp (hall p hp)
        have hk' := (hstored k').mpr ⟨w, (h.lookup_iff (hh k')).mpr ⟨p, hp, hs⟩⟩
        exact ⟨k', ⟨w, hs⟩, Finset.mem_erase.mpr ⟨hne, hk'⟩⟩
      have : Nonempty K := ⟨k⟩
      choose! keyOf hsome hmem using hkeys
      calc size = (Finset.range size).card := (Finset.card_range size).symm
        _ ≤ (stored.erase k).card := by
            refine Finset.card_le_card_of_injOn keyOf (fun p hp => ?_) fun p hp q hq hpq => ?_
            · exact hmem p (Finset.mem_range.mp hp)
            · obtain ⟨u, hu⟩ := hsome p (Finset.mem_range.mp hp)
              obtain ⟨w, hw⟩ := hsome q (Finset.mem_range.mp hq)
              rw [← hpq] at hw
              exact h.unique (hh _) (Finset.mem_range.mp hp) (Finset.mem_range.mp hq) hu hw

end SpKernel.Lib
