import SpKernel.Lib.Memory

/-!
# A stack of words in memory

The stack grows down, and its top is where the pointer is. What is on it is
stated from the top up (`WordsAt`): a push puts a word before the others, a pop
takes the first away. `pushAll_reverse` says what is on a stack after some
pushes, `pushAll_eqOn` that nothing but the words that are pushed changes.

Where something is in memory is a set of addresses (`span`), and that two
things are apart is that the sets are disjoint. A store changes its own span
alone (`store_eqOn`), and a load and the words at an address depend on theirs
(`load32_eq_of_eqOn`, `WordsAt.of_eqOn`), so that what a sequence of stores
leaves as it was follows from which spans are disjoint.
-/

namespace SpKernel.Lib

/-- Memory, and the address of the top. -/
structure WordStack where
  mem : Mem
  sp : BitVec 32

namespace WordStack

def push (s : WordStack) (w : BitVec 32) : WordStack := ⟨store 4 s.mem (s.sp - 4) w, s.sp - 4⟩

def pushAll (s : WordStack) (ws : List (BitVec 32)) : WordStack := ws.foldl push s

def pop (s : WordStack) : BitVec 32 × WordStack := (load32 s.mem s.sp, { s with sp := s.sp + 4 })

end WordStack

/-- The words from an address on. -/
def WordsAt (m : Mem) : BitVec 32 → List (BitVec 32) → Prop
  | _, [] => True
  | a, w :: ws => load32 m a = w ∧ WordsAt m (a + 4) ws

/-- The `n` addresses from `a` on. -/
def span (a : BitVec 32) (n : Nat) : Set (BitVec 32) := {x | (x - a).toNat < n}

instance (a : BitVec 32) (n : Nat) (x : BitVec 32) : Decidable (x ∈ span a n) :=
  inferInstanceAs (Decidable ((x - a).toNat < n))

variable {m m' : Mem} {a b w : BitVec 32} {i k n : Nat} {s : WordStack}
  {vs ws : List (BitVec 32)}

/-! ## Spans -/

theorem add_mem_span (a : BitVec 32) (hi : i < n) (hn : n ≤ 2 ^ 32) :
    a + BitVec.ofNat 32 i ∈ span a n := by
  rw [span, Set.mem_ofPred_eq, toNat_offset a (Nat.lt_of_lt_of_le hi hn)]
  exact hi

theorem span_add_subset (a : BitVec 32) (h : i + k ≤ n) (hn : n ≤ 2 ^ 32) :
    span (a + BitVec.ofNat 32 i) k ⊆ span a n := by
  intro x hx
  have hlt : (x - (a + BitVec.ofNat 32 i)).toNat < k := hx
  have hpos : x - a = BitVec.ofNat 32 (i + (x - (a + BitVec.ofNat 32 i)).toNat) := by
    rw [BitVec.ofNat_add, BitVec.ofNat_toNat, BitVec.setWidth_eq]
    ring
  rw [span, Set.mem_ofPred_eq, hpos, BitVec.toNat_ofNat, Nat.mod_eq_of_lt (by omega)]
  omega

/-- One span is below the other, and none comes back to the beginning of memory. -/
theorem disjoint_span (h : a.toNat + n ≤ b.toNat) (hb : b.toNat + k ≤ 2 ^ 32) :
    Disjoint (span a n) (span b k) := by
  refine Set.disjoint_left.mpr fun x hx hx' => ?_
  have hlow : (x - a).toNat < n := hx
  have hhigh : (x - b).toNat < k := hx'
  rw [BitVec.toNat_sub] at hlow hhigh
  omega

/-- Spans of which none comes back to the beginning of memory, one below the
other for any two. -/
theorem pairwise_disjoint_span (rs : List (BitVec 32 × Nat))
    (hlast : ∀ r ∈ rs, r.1.toNat + r.2 ≤ 2 ^ 32)
    (h : rs.Pairwise fun r q => r.1.toNat + r.2 ≤ q.1.toNat ∨ q.1.toNat + q.2 ≤ r.1.toNat) :
    (rs.map fun r => span r.1 r.2).Pairwise Disjoint := by
  refine List.pairwise_map.mpr (h.imp_of_mem fun hr hq hrq => ?_)
  rcases hrq with hrq | hqr
  · exact disjoint_span hrq (hlast _ hq)
  · exact (disjoint_span hqr (hlast _ hr)).symm

theorem store_eqOn (m : Mem) (a w : BitVec 32) :
    Set.EqOn (store 4 m a w) m (span a 4)ᶜ := fun _ hx => if_neg hx

theorem load32_eq_of_eqOn (h : Set.EqOn m' m (span a 4)) : load32 m' a = load32 m a :=
  load32_congr fun _ hk => h (add_mem_span a hk (by decide))

/-! ## Words -/

theorem WordsAt.congr : ∀ {ws : List (BitVec 32)} {a : BitVec 32}, WordsAt m a ws →
    (∀ i < 4 * ws.length, m' (a + BitVec.ofNat 32 i) = m (a + BitVec.ofNat 32 i)) → WordsAt m' a ws
  | [], _, _, _ => trivial
  | w :: ws, a, h, hsame => by
      rw [List.length_cons] at hsame
      refine ⟨?_, h.2.congr fun i hi => ?_⟩
      · rw [load32_congr fun i hi => hsame i (by omega), h.1]
      · have hpos : a + 4 + BitVec.ofNat 32 i = a + BitVec.ofNat 32 (4 + i) := by
          rw [BitVec.ofNat_add, BitVec.add_assoc]
          rfl
        rw [hpos]
        exact hsame (4 + i) (by omega)

theorem WordsAt.of_eqOn (h : WordsAt m a ws) (hm : Set.EqOn m' m (span a n))
    (hlen : 4 * ws.length ≤ n) (hn : n ≤ 2 ^ 32) : WordsAt m' a ws :=
  h.congr fun _ hi => hm (add_mem_span a (Nat.lt_of_lt_of_le hi hlen) hn)

theorem WordsAt.get : ∀ {ws : List (BitVec 32)} {a : BitVec 32} {i : Nat}, WordsAt m a ws →
    ws[i]? = some w → load32 m (a + BitVec.ofNat 32 (4 * i)) = w
  | [], _, _, _, hi => by cases hi
  | v :: ws, a, 0, h, hi => by
      rw [BitVec.add_zero, h.1]
      exact Option.some.inj hi
  | v :: ws, a, i + 1, h, hi => by
      have hpos : a + BitVec.ofNat 32 (4 * (i + 1)) = a + 4 + BitVec.ofNat 32 (4 * i) := by
        rw [Nat.mul_succ, Nat.add_comm, BitVec.ofNat_add, BitVec.add_assoc]
        rfl
      rw [hpos]
      exact h.2.get hi

namespace WordStack

theorem pushAll_append (s : WordStack) (vs ws : List (BitVec 32)) :
    s.pushAll (vs ++ ws) = (s.pushAll vs).pushAll ws :=
  List.foldl_append

theorem push_other (h : 4 ≤ (a - (s.push w).sp).toNat) : (s.push w).mem a = s.mem a := by
  exact if_neg (Nat.not_lt.mpr h)

theorem push_wordsAt (h : WordsAt s.mem s.sp ws) (hlen : 4 * (ws.length + 1) ≤ 2 ^ 32) :
    WordsAt (s.push w).mem (s.push w).sp (w :: ws) := by
  have hsp : (s.push w).sp + 4 = s.sp := BitVec.sub_add_cancel ..
  refine ⟨load32_store .., ?_⟩
  rw [hsp]
  refine h.congr fun i hi => push_other ?_
  have hpos : s.sp + BitVec.ofNat 32 i - (s.push w).sp = BitVec.ofNat 32 (4 + i) := by
    rw [← hsp, BitVec.add_assoc, BitVec.add_comm, BitVec.add_sub_cancel, BitVec.ofNat_add]
    rfl
  rw [hpos, BitVec.toNat_ofNat, Nat.mod_eq_of_lt (by omega)]
  omega

theorem pushAll_wordsAt : ∀ {vs ws : List (BitVec 32)} {s : WordStack}, WordsAt s.mem s.sp ws →
    4 * (vs.length + ws.length) ≤ 2 ^ 32 →
    WordsAt (s.pushAll vs).mem (s.pushAll vs).sp (vs.reverse ++ ws)
  | [], _, _, h, _ => h
  | v :: vs, ws, s, h, hlen => by
      rw [List.length_cons] at hlen
      have hrest : WordsAt _ _ (vs.reverse ++ v :: ws) :=
        pushAll_wordsAt (push_wordsAt h (by omega)) (by rw [List.length_cons]; omega)
      rw [List.reverse_cons, List.append_assoc]
      exact hrest

theorem pushAll_reverse (s : WordStack) (hlen : 4 * ws.length ≤ 2 ^ 32) :
    WordsAt (s.pushAll ws.reverse).mem (s.pushAll ws.reverse).sp ws := by
  have hroom : 4 * (ws.reverse.length + ([] : List (BitVec 32)).length) ≤ 2 ^ 32 := by
    rwa [List.length_reverse]
  have hpushed : WordsAt _ _ (ws.reverse.reverse ++ []) :=
    pushAll_wordsAt (s := s) trivial hroom
  rwa [List.reverse_reverse, List.append_nil] at hpushed

theorem pushAll_sp : ∀ (vs : List (BitVec 32)) (s : WordStack),
    (s.pushAll vs).sp = s.sp - BitVec.ofNat 32 (4 * vs.length)
  | [], s => (BitVec.sub_zero _).symm
  | v :: vs, s => by
      have hrest : (s.pushAll (v :: vs)).sp = s.sp - 4 - BitVec.ofNat 32 (4 * vs.length) :=
        pushAll_sp vs (s.push v)
      rw [hrest, List.length_cons, Nat.mul_succ, Nat.add_comm, BitVec.ofNat_add,
        ← BitVec.sub_sub]
      rfl

/-- Below the words that are pushed, and above, memory is as it was. -/
theorem pushAll_other : ∀ {vs : List (BitVec 32)} {s : WordStack},
    4 * vs.length ≤ (a - (s.pushAll vs).sp).toNat → (s.pushAll vs).mem a = s.mem a
  | [], _, _ => rfl
  | v :: vs, s, h => by
      have hrest : ((s.push v).pushAll vs).mem a = (s.push v).mem a :=
        pushAll_other (Nat.le_trans (by rw [List.length_cons]; omega) h)
      refine Eq.trans hrest ?_
      refine push_other ?_
      have hsp := pushAll_sp vs (s.push v)
      have hlt := (a - (s.pushAll (v :: vs)).sp).isLt
      have hdown : a - (s.push v).sp
          = a - (s.pushAll (v :: vs)).sp - BitVec.ofNat 32 (4 * vs.length) := by
        rw [show (s.pushAll (v :: vs)).sp = _ from hsp]
        ring
      rw [hdown, BitVec.toNat_sub, BitVec.toNat_ofNat]
      rw [List.length_cons] at h
      omega

/-- Nothing changes outside the span that the words are pushed to. -/
theorem pushAll_eqOn (s : WordStack) (vs : List (BitVec 32)) :
    Set.EqOn (s.pushAll vs).mem s.mem
      (span (s.sp - BitVec.ofNat 32 (4 * vs.length)) (4 * vs.length))ᶜ := fun x hx => by
  rw [← pushAll_sp] at hx
  exact pushAll_other (Nat.le_of_not_lt hx)

end WordStack

end SpKernel.Lib
