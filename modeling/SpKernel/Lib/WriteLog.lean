import SpKernel.Lib.Memory

/-!
# A memory that knows where it was written

`Logged` is a memory together with the addresses that have been stored
to, so that one can say of a computation what it writes, also where it
writes what is there already. A comparison of the memories before and
after could not: a store of the same byte leaves no trace in them.

Two relations are for computations on it. From `t` to `t'`, nothing is
written but in `S` (`WritesWithin S t t'`), and what has been written
stays so (`Extends`). Both are reflexive and compose
(`WritesWithin.trans`, `Extends.trans`), and the first can be weakened to
a larger set. So what a computation writes is shown by a lemma for each
of its loops, and the loops by induction on their rounds.

The addresses that belong to a range are described by offsets from its
base (`Between`), as addresses wrap.

`Accessed` also knows where it was read. Its stores are those of
`Logged`, and a load adds one address to the reads and changes nothing
else (`load_read`).
-/

namespace SpKernel.Lib

/-- A memory, and the addresses that have been written. -/
structure Logged where
  mem : Mem
  written : BitVec 32 → Bool

/-- Nothing is written, and nothing changed, but in `S`. -/
structure WritesWithin (S : BitVec 32 → Prop) (t t' : Logged) : Prop where
  mem : ∀ x, ¬S x → t'.mem x = t.mem x
  written : ∀ x, t'.written x = true → t.written x = true ∨ S x

/-- What has been written stays written. -/
def Extends (t t' : Logged) : Prop := ∀ x, t.written x = true → t'.written x = true

variable {S T : BitVec 32 → Prop} {t t' t'' : Logged} {a base x : BitVec 32} {n w : Nat}
  {v : BitVec w} {bs : List (BitVec 8)}

theorem WritesWithin.refl (S : BitVec 32 → Prop) (t : Logged) : WritesWithin S t t where
  mem := fun _ _ => rfl
  written := fun _ h => .inl h

theorem WritesWithin.trans (h : WritesWithin S t t') (h' : WritesWithin S t' t'') :
    WritesWithin S t t'' where
  mem := fun x hx => (h'.mem x hx).trans (h.mem x hx)
  written := fun x hx => (h'.written x hx).elim (h.written x) .inr

theorem WritesWithin.mono (h : WritesWithin S t t') (hST : ∀ x, S x → T x) :
    WritesWithin T t t' where
  mem := fun x hx => h.mem x fun hS => hx (hST x hS)
  written := fun x hx => (h.written x hx).imp_right (hST x)

theorem Extends.trans (h : Extends t t') (h' : Extends t' t'') : Extends t t'' :=
  fun x hx => h' x (h x hx)

namespace Logged

/-- Nothing has been written yet. -/
def start (m : Mem) : Logged := ⟨m, fun _ => false⟩

/-- Store the low `n` bytes of `v` at `a`. -/
def store (n : Nat) {w : Nat} (t : Logged) (a : BitVec 32) (v : BitVec w) : Logged where
  mem := Lib.store n t.mem a v
  written x := decide ((x - a).toNat < n) || t.written x

/-- Store the bytes one after the other, from `a` on. -/
def storeBytes (t : Logged) (a : BitVec 32) : List (BitVec 8) → Logged
  | [] => t
  | b :: bs => storeBytes (t.store 1 a b) (a + 1#32) bs

@[simp] theorem store_mem : (t.store n a v).mem = Lib.store n t.mem a v := rfl

theorem store_written :
    (t.store n a v).written x = true ↔ (x - a).toNat < n ∨ t.written x = true := by
  rw [store, Bool.or_eq_true, decide_eq_true_eq]

theorem store_within (t : Logged) (n : Nat) (a : BitVec 32) (v : BitVec w) :
    WritesWithin (fun x => (x - a).toNat < n) t (t.store n a v) where
  mem := fun _ hx => if_neg hx
  written := fun _ hx => (store_written.mp hx).symm

theorem store_extends (t : Logged) (n : Nat) (a : BitVec 32) (v : BitVec w) :
    Extends t (t.store n a v) := fun _ hx => store_written.mpr (.inr hx)

theorem storeBytes_mem (t : Logged) (a : BitVec 32) :
    (t.storeBytes a bs).mem = Lib.storeBytes t.mem a bs := by
  induction bs generalizing t a with
  | nil => rfl
  | cons b bs ih => exact ih ..

theorem storeBytes_extends (t : Logged) (a : BitVec 32) : Extends t (t.storeBytes a bs) := by
  induction bs generalizing t a with
  | nil => exact fun _ h => h
  | cons b bs ih => exact fun x hx => ih (t.store 1 a b) (a + 1#32) x (store_extends t 1 a b x hx)

theorem storeBytes_writes (t : Logged) (a : BitVec 32) : ∀ i < bs.length,
    (t.storeBytes a bs).written (a + BitVec.ofNat 32 i) = true := by
  induction bs generalizing t a with
  | nil => exact fun i hi => absurd hi (Nat.not_lt_zero i)
  | cons b bs ih =>
      intro i hi
      cases i with
      | zero =>
          have hfirst : (t.store 1 a b).written a = true :=
            store_written.mpr (.inl (by rw [BitVec.sub_self]; exact Nat.one_pos))
          rw [BitVec.add_zero]
          exact storeBytes_extends (t.store 1 a b) (a + 1#32) a hfirst
      | succ i =>
          rw [← add_ofNat_succ]
          exact ih (t.store 1 a b) (a + 1#32) i (Nat.lt_of_succ_lt_succ hi)

theorem storeBytes_snoc (t : Logged) (a : BitVec 32) (c : BitVec 8) :
    (t.storeBytes a bs).store 1 (a + BitVec.ofNat 32 bs.length) c = t.storeBytes a (bs ++ [c]) := by
  induction bs generalizing t a with
  | nil =>
      rw [List.length_nil, BitVec.add_zero]
      rfl
  | cons b bs ih =>
      rw [List.length_cons, ← add_ofNat_succ]
      exact ih (t.store 1 a b) (a + 1#32)

theorem storeBytes_within (t : Logged) (a : BitVec 32) (hlen : bs.length < 2 ^ 32) :
    WritesWithin (fun x => (x - a).toNat < bs.length) t (t.storeBytes a bs) := by
  induction bs generalizing t a with
  | nil => exact .refl _ t
  | cons b bs ih =>
      rw [List.length_cons] at hlen ⊢
      refine ((store_within t 1 a b).mono fun x hx => by omega).trans
        ((ih (t.store 1 a b) (a + 1#32) (by omega)).mono fun x hx => ?_)
      have h1 := x.isLt
      have h2 := a.isLt
      simp only [BitVec.toNat_sub, BitVec.toNat_add, BitVec.toNat_ofNat] at hx ⊢
      omega

end Logged

/-! ## Offsets from a base -/

/-- Addresses by their offsets. -/
def Between (base : BitVec 32) (lo hi : Nat) (x : BitVec 32) : Prop :=
  lo ≤ (x - base).toNat ∧ (x - base).toNat < hi

theorem between_offset {lo hi i : Nat} (hi32 : i < 2 ^ 32) :
    Between base lo hi (base + BitVec.ofNat 32 i) ↔ lo ≤ i ∧ i < hi := by
  rw [Between, toNat_offset base hi32]

/-- The offset of an address from a place behind the base. -/
theorem sub_add_ofNat {x : BitVec 32} {j n : Nat} (hj : j + n ≤ 2 ^ 32) (h : 0 < n) :
    (x - (base + BitVec.ofNat 32 j)).toNat < n ↔ Between base j (j + n) x := by
  have h1 := x.isLt
  have h2 := base.isLt
  rw [Between]
  simp only [BitVec.toNat_sub, BitVec.toNat_add, BitVec.toNat_ofNat]
  omega

theorem add_ofNat_ofNat (a : BitVec 32) (i j : Nat) :
    a + BitVec.ofNat 32 i + BitVec.ofNat 32 j = a + BitVec.ofNat 32 (i + j) := by
  rw [BitVec.add_assoc, ← BitVec.ofNat_add]

theorem store_between {n w j : Nat} {v : BitVec w} (hj : j + n ≤ 2 ^ 32) (hn : 0 < n) :
    WritesWithin (Between base j (j + n)) t (t.store n (base + BitVec.ofNat 32 j) v) :=
  (t.store_within n _ v).mono fun _ hx => (sub_add_ofNat hj hn).mp hx

/-- A number with no byte among those written is kept. -/
theorem load32_within {S : BitVec 32 → Prop} (h : WritesWithin S t t') {j : Nat}
    (hS : ∀ i, j ≤ i → i < j + 4 → ¬S (base + BitVec.ofNat 32 i)) :
    load32 t'.mem (base + BitVec.ofNat 32 j) = load32 t.mem (base + BitVec.ofNat 32 j) :=
  load32_congr fun i hi => by
    rw [add_ofNat_ofNat]
    exact h.mem _ (hS _ (by omega) (by omega))

/-! ## Reads -/

/-- A memory, and the addresses that have been written and read. -/
structure Accessed where
  log : Logged
  read : BitVec 32 → Bool

namespace Accessed

/-- Nothing has been accessed yet. -/
def start (m : Mem) : Accessed := ⟨.start m, fun _ => false⟩

/-- The byte at `a`. -/
def load (t : Accessed) (a : BitVec 32) : BitVec 8 × Accessed :=
  (t.log.mem a, { t with read := fun x => decide (x = a) || t.read x })

/-- Store the low `n` bytes of `v` at `a`. -/
def store (n : Nat) {w : Nat} (t : Accessed) (a : BitVec 32) (v : BitVec w) : Accessed :=
  { t with log := t.log.store n a v }

theorem load_read {t : Accessed} {a x : BitVec 32} :
    (t.load a).2.read x = true ↔ x = a ∨ t.read x = true := by
  rw [load, Bool.or_eq_true, decide_eq_true_eq]

end Accessed

end SpKernel.Lib
