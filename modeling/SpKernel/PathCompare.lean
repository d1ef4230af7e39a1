import SpKernel.PathNodes

/-!
# Comparing paths

`io_path_canonicalized_compare` drops the delimiters at the beginning of
both paths, and then takes both sides on by one character before it looks
at them: the first characters of the first nodes are never compared, and
what is behind them has to agree character for character, delimiters
included (`ioPathCanonicalizedCompare_spec`).

A delimiter behind a character of a node counts as a token. If only one
side has met one, the inner loop waits for the other, which it never
takes on (`tokenLoop_stuck`): where one node ends and the other goes on,
the comparison does not return (`path_compare_returns_iff`).

`compared` is what the function computes, as a recursion over the
characters of the two paths: a result, or nothing if the loop is stuck.
The loops are shown to follow it (`tokenLoop_spec`, `compareLoop_spec`),
and all that is asked afterwards is asked of `compared`.

- `path_compare_iff`: when a result of 0 means that the two paths have
  the same nodes.
- `path_compare_returns_iff`: when there is a result at all; and that no
  character behind a NUL is looked at. For this the reads of each loop
  are lists of indices (`pathReads`).
- `compare_equivalence`: to return 0 is an equivalence on the paths in a
  memory.
-/

namespace SpKernel

open Lib

/-! ## Definitions -/

/-- A path without the delimiters at its beginning. -/
def trimmed (s : List Byte) : List Byte := s.dropWhile (· = ioPathDelimiter)

/-- The paths agree but for their first character, if they have one. -/
def SameBehindFirst (s t : List Byte) : Prop := (s = [] ↔ t = []) ∧ s.tail = t.tail

/-- Where the paths begin to differ, behind `last`, a node ends in one of
them, with something behind its delimiter, and goes on in the other. -/
def PartsFrom : Byte → List Byte → List Byte → Prop
  | last, c :: s, d :: t =>
      if c = d then PartsFrom c s t
      else last ≠ ioPathDelimiter ∧ (c = ioPathDelimiter ∧ s ≠ [] ∨ d = ioPathDelimiter ∧ t ≠ [])
  | _, _, _ => False

/-- `PartsFrom`, behind the first characters. -/
def Parts : List Byte → List Byte → Prop
  | c :: s, _ :: t => PartsFrom c s t
  | _, _ => False

/-- The pairs of indices at which the first loop looks at the paths. -/
def skipReads (m : Mem) (path1 path2 : Word) : Nat → Nat → Nat → List (Int × Int)
  | 0, _, _ => []
  | fuel + 1, lIndex, rIndex =>
      let l := if charAt m path1 lIndex = ioPathDelimiter then lIndex + 1 else lIndex
      let r := if charAt m path2 rIndex = ioPathDelimiter then rIndex + 1 else rIndex
      (↑lIndex, ↑rIndex) :: (↑l, ↑r)
        :: if charAt m path1 l = ioPathDelimiter ∨ charAt m path2 r = ioPathDelimiter then
            skipReads m path1 path2 fuel l r
          else []

/-- A round of the inner loop takes each side behind a delimiter that ends a
node. -/
def tokenRound (m : Mem) (path1 path2 : Word) (c : Comparison) : Comparison :=
  let c := if atDelimiter m path1 c.lIndex then
    { c with lTokens := c.lTokens + 1, lIndex := c.lIndex + 1 } else c
  if atDelimiter m path2 c.rIndex then
    { c with rTokens := c.rTokens + 1, rIndex := c.rIndex + 1 } else c

/-- Those of the inner loop, which also looks one character back. -/
def tokenReads (m : Mem) (path1 path2 : Word) : Nat → Comparison → List (Int × Int)
  | 0, _ => []
  | fuel + 1, c =>
      (↑c.lIndex, ↑c.rIndex)
        :: if charAt m path1 c.lIndex = 0 ∨ charAt m path2 c.rIndex = 0 then []
          else
            let next := tokenRound m path1 path2 c
            (↑c.lIndex - 1, ↑c.rIndex - 1)
              :: if next.lTokens ≠ next.rTokens then tokenReads m path1 path2 fuel next else []

/-- Those of the outer loop. -/
def compareReads (m : Mem) (path1 path2 : Word) : Nat → Comparison → List (Int × Int)
  | 0, _ => []
  | fuel + 1, c =>
      (↑c.lIndex, ↑c.rIndex)
        :: if charAt m path1 c.lIndex ≠ 0 ∧ charAt m path2 c.rIndex ≠ 0 then
            let next := { c with lIndex := c.lIndex + 1, rIndex := c.rIndex + 1 }
            tokenReads m path1 path2 (2 ^ 32) next
              ++ match tokenLoop m path1 path2 (2 ^ 32) next with
                | .ok c => (↑c.lIndex, ↑c.rIndex)
                    :: if charAt m path1 c.lIndex ≠ charAt m path2 c.rIndex then []
                      else compareReads m path1 path2 fuel c
                | .error _ => []
          else []

/-- Those of `io_path_canonicalized_compare`. -/
def pathReads (m : Mem) (path1 path2 : Word) : List (Int × Int) :=
  skipReads m path1 path2 (2 ^ 32) 0 0
    ++ match skipDelimiters m path1 path2 (2 ^ 32) 0 0 with
      | .ok (lIndex, rIndex) => compareReads m path1 path2 (2 ^ 32) ⟨lIndex, rIndex, 0, 0⟩
      | .error _ => []

/-- Both indices are in their strings, the NULs included. -/
def InStrings (s t : List Byte) (q : Int × Int) : Prop :=
  (0 ≤ q.1 ∧ q.1 ≤ s.length) ∧ (0 ≤ q.2 ∧ q.2 ≤ t.length)

/-- What is returned when the paths begin to be compared behind `last`. -/
def compared : Byte → List Byte → List Byte → Except Fault Int
  | _, [], [] => .ok 0
  | last, c :: s, d :: t =>
      if c = d then compared c s t
      else if last ≠ ioPathDelimiter
        ∧ (c = ioPathDelimiter ∧ s ≠ [] ∨ d = ioPathDelimiter ∧ t ≠ []) then .error .diverge
      else .ok 1
  | _, _, _ => .ok 1

variable {m : Mem} {path1 path2 : Word} {s t : List Byte} {last : Byte} {l r fuel : Nat}

/-! ## The delimiters at the beginning -/

theorem trimmed_cons (c : Byte) (s : List Byte) :
    trimmed (c :: s) = if c = ioPathDelimiter then trimmed s else c :: s := by
  rw [trimmed, List.dropWhile_cons, trimmed]
  simp only [decide_eq_true_eq]

theorem nodesOf_trimmed (s : List Byte) : nodesOf (trimmed s) = nodesOf s := by
  induction s with
  | nil => rfl
  | cons c s ih =>
      rw [trimmed_cons]
      split
      · next hc => rw [ih, hc, nodesOf, nodesOf, components_sep]
      · rfl

theorem trimmed_head {c : Byte} (h : trimmed s = c :: t) : c ≠ ioPathDelimiter := by
  have hhead := List.head?_dropWhile_not (fun b => decide (b = ioPathDelimiter)) s
  rw [trimmed] at h
  rw [h] at hhead
  simpa using hhead

/-- The number of delimiters dropped. -/
def leading (s : List Byte) : Nat := (s.takeWhile (· = ioPathDelimiter)).length

theorem leading_add (s : List Byte) : leading s + (trimmed s).length = s.length := by
  rw [leading, trimmed, ← List.length_append, List.takeWhile_append_dropWhile]

theorem leading_cons (c : Byte) (s : List Byte) :
    leading (c :: s) = if c = ioPathDelimiter then leading s + 1 else 0 := by
  rw [leading, List.takeWhile_cons, leading]
  by_cases hc : c = ioPathDelimiter
  · rw [if_pos (decide_eq_true hc), if_pos hc, List.length_cons]
  · rw [if_neg (by simpa using hc), if_neg hc, List.length_nil]

theorem isString_trimmed : ∀ {s : List Byte} {index : Nat},
    IsString m (path1 + BitVec.ofNat 32 index) s →
    IsString m (path1 + BitVec.ofNat 32 (index + leading s)) (trimmed s)
  | [], index, hs => hs
  | c :: s, index, hs => by
      rw [trimmed_cons, leading_cons]
      split
      · rw [← Nat.add_assoc, Nat.add_right_comm]
        exact isString_trimmed (isString_next hs).2.2
      · exact hs

theorem skip_round (hs : IsString m (path1 + BitVec.ofNat 32 l) s) :
    ∃ s', IsString m (path1 + BitVec.ofNat 32
        (if charAt m path1 l = ioPathDelimiter then l + 1 else l)) s'
      ∧ leading s' = leading s - 1 ∧ (charAt m path1
        (if charAt m path1 l = ioPathDelimiter then l + 1 else l) = ioPathDelimiter
          ↔ 1 < leading s)
      ∧ (if charAt m path1 l = ioPathDelimiter then l + 1 else l) + leading s'
        = l + leading s := by
  have hhead : ∀ {s : List Byte} {l : Nat}, IsString m (path1 + BitVec.ofNat 32 l) s →
      (charAt m path1 l = ioPathDelimiter ↔ 0 < leading s) := by
    intro s l hs
    cases s with
    | nil =>
        have hz : charAt m path1 l = 0 := hs
        rw [hz]
        exact iff_of_false (by decide) (Nat.lt_irrefl 0)
    | cons c s =>
        rw [(isString_next hs).1, leading_cons]
        split
        · next hc => exact iff_of_true hc (Nat.succ_pos _)
        · next hc => exact iff_of_false hc (Nat.lt_irrefl 0)
  by_cases hd : charAt m path1 l = ioPathDelimiter
  · rw [if_pos hd]
    cases s with
    | nil => exact absurd ((hhead hs).mp hd) (Nat.lt_irrefl 0)
    | cons c s =>
        obtain ⟨hc, -, hrest⟩ := isString_next hs
        have hlead : leading (c :: s) = leading s + 1 := by
          rw [leading_cons, if_pos (hc.symm.trans hd)]
        refine ⟨s, hrest, by omega, ?_, by omega⟩
        rw [hhead hrest]
        omega
  · rw [if_neg hd]
    have hz := mt (hhead hs).mpr hd
    exact ⟨s, hs, by omega, iff_of_false hd (by omega), rfl⟩

theorem skipDelimiters_spec : ∀ {fuel l r : Nat} {s t : List Byte},
    IsString m (path1 + BitVec.ofNat 32 l) s → IsString m (path2 + BitVec.ofNat 32 r) t →
    leading s < fuel → leading t < fuel →
    skipDelimiters m path1 path2 fuel l r = .ok (l + leading s, r + leading t)
  | 0, _, _, _, _, _, _, hf, _ => absurd hf (Nat.not_lt_zero _)
  | fuel + 1, l, r, s, t, hs, ht, hf, hf' => by
      obtain ⟨s', hs', hl, hd, hidx⟩ := skip_round hs
      obtain ⟨t', ht', hr, hd', hidx'⟩ := skip_round ht
      simp only [skipDelimiters]
      by_cases hmore : 1 < leading s ∨ 1 < leading t
      · rw [if_pos (hmore.imp hd.mpr hd'.mpr), skipDelimiters_spec hs' ht' (by omega) (by omega),
          hidx, hidx']
      · rw [if_neg (mt (Or.imp hd.mp hd'.mp) hmore)]
        obtain ⟨h, h'⟩ := not_or.mp hmore
        have hz : leading s' = 0 := by omega
        have hz' : leading t' = 0 := by omega
        rw [← hidx, ← hidx', hz, hz']
        rfl

/-! ## The loops -/

theorem tokenRound_eq (c : Comparison) : tokenRound m path1 path2 c
    = ⟨c.lIndex + (atDelimiter m path1 c.lIndex).toNat,
        c.rIndex + (atDelimiter m path2 c.rIndex).toNat,
        c.lTokens + (atDelimiter m path1 c.lIndex).toNat,
        c.rTokens + (atDelimiter m path2 c.rIndex).toNat⟩ := by
  rw [tokenRound]
  cases hl : atDelimiter m path1 c.lIndex with
  | false =>
      cases hr : atDelimiter m path2 c.rIndex with
      | false => simp [hr]
      | true => simp [hr]
  | true =>
      cases hr : atDelimiter m path2 c.rIndex with
      | false => simp [hr]
      | true => simp [hr]

theorem tokenLoop_succ (c : Comparison) : tokenLoop m path1 path2 (fuel + 1) c
    = if charAt m path1 c.lIndex = 0 ∨ charAt m path2 c.rIndex = 0 then .ok c
      else if (tokenRound m path1 path2 c).lTokens ≠ (tokenRound m path1 path2 c).rTokens then
        tokenLoop m path1 path2 fuel (tokenRound m path1 path2 c)
      else .ok (tokenRound m path1 path2 c) :=
  rfl

theorem tokenLoop_round {k k' : Nat} {a b : Bool} (hl : charAt m path1 l ≠ 0)
    (hr : charAt m path2 r ≠ 0) (ha : atDelimiter m path1 l = a)
    (hb : atDelimiter m path2 r = b) :
    tokenLoop m path1 path2 (fuel + 1) ⟨l, r, k, k'⟩
      = if k + a.toNat ≠ k' + b.toNat then
          tokenLoop m path1 path2 fuel ⟨l + a.toNat, r + b.toNat, k + a.toNat, k' + b.toNat⟩
        else .ok ⟨l + a.toNat, r + b.toNat, k + a.toNat, k' + b.toNat⟩ := by
  rw [tokenLoop_succ, if_neg (not_or.mpr ⟨hl, hr⟩), tokenRound_eq, ha, hb]

theorem tokenLoop_both {k : Nat} {a : Bool} (hl : charAt m path1 l ≠ 0)
    (hr : charAt m path2 r ≠ 0) (ha : atDelimiter m path1 l = a) (hb : atDelimiter m path2 r = a) :
    tokenLoop m path1 path2 (fuel + 1) ⟨l, r, k, k⟩
      = .ok ⟨l + a.toNat, r + a.toNat, k + a.toNat, k + a.toNat⟩ := by
  rw [tokenLoop_round hl hr ha hb]
  exact if_neg fun hne => hne rfl

theorem tokenLoop_left {k : Nat} (hl : charAt m path1 l ≠ 0) (hr : charAt m path2 r ≠ 0)
    (ha : atDelimiter m path1 l = true) (hb : atDelimiter m path2 r = false) :
    tokenLoop m path1 path2 (fuel + 1) ⟨l, r, k, k⟩
      = tokenLoop m path1 path2 fuel ⟨l + 1, r, k + 1, k⟩ := by
  rw [tokenLoop_round hl hr ha hb]
  exact if_pos (Nat.succ_ne_self k)

theorem tokenLoop_right {k : Nat} (hl : charAt m path1 l ≠ 0) (hr : charAt m path2 r ≠ 0)
    (ha : atDelimiter m path1 l = false) (hb : atDelimiter m path2 r = true) :
    tokenLoop m path1 path2 (fuel + 1) ⟨l, r, k, k⟩
      = tokenLoop m path1 path2 fuel ⟨l, r + 1, k, k + 1⟩ := by
  rw [tokenLoop_round hl hr ha hb]
  exact if_pos (Nat.succ_ne_self k).symm

/-- The inner loop gets nowhere once one side waits for the other. -/
theorem tokenLoop_stuck {k k' : Nat} (hl : charAt m path1 l ≠ 0) (hr : charAt m path2 r ≠ 0)
    (ha : atDelimiter m path1 l = false) (hb : atDelimiter m path2 r = false) (hne : k ≠ k') :
    ∀ fuel, tokenLoop m path1 path2 fuel ⟨l, r, k, k'⟩ = .error .diverge
  | 0 => rfl
  | fuel + 1 => by
      refine (tokenLoop_round hl hr ha hb).trans ((if_pos hne).trans ?_)
      exact tokenLoop_stuck hl hr ha hb hne fuel

/-- What is known at the beginning of a round of the inner loop. -/
structure Rests (m : Mem) (path1 path2 : Word) (l r : Nat) (s t : List Byte) : Prop where
  left : IsString m (path1 + BitVec.ofNat 32 l) s
  right : IsString m (path2 + BitVec.ofNat 32 r) t

theorem atDelimiter_next {path : Word} {index : Nat} {c d : Byte}
    (hc : charAt m path index = c) (hs : IsString m (path + BitVec.ofNat 32 (index + 1)) (d :: s)) :
    atDelimiter m path (index + 1) = decide (d = ioPathDelimiter ∧ c ≠ ioPathDelimiter) := by
  rw [atDelimiter, (isString_next hs).1, Nat.add_sub_cancel, hc]

/-- Where a round of the inner loop leaves the sides, unless it never ends. -/
def Waits (m : Mem) (path1 path2 : Word) (last : Byte) (s t : List Byte)
    (x : Except Fault Comparison) : Prop :=
  (compared last s t = .error .diverge ∧ x = .error .diverge)
  ∨ ∃ n s' t', x = .ok n ∧ Rests m path1 path2 n.lIndex n.rIndex s' t' ∧ s'.length ≤ s.length
      ∧ compared last s t = compared ioPathDelimiter s' t'
      ∧ (s' ≠ [] → t' ≠ [] → n.lTokens = n.rTokens)

/-- One side has met a delimiter and the other has not. -/
theorem compared_one {a b : Byte} (hlast : last ≠ ioPathDelimiter) (hab : a ≠ b) :
    compared last (a :: s) (b :: t) = if a = ioPathDelimiter ∧ s ≠ []
      ∨ b = ioPathDelimiter ∧ t ≠ [] then .error .diverge else .ok 1 := by
  rw [compared, if_neg hab]
  simp only [hlast, ne_eq, not_false_eq_true, true_and]

theorem tokenLoop_spec {c d : Byte} (hc : charAt m path1 l = c) (hd : charAt m path2 r = d)
    (hcl : c = ioPathDelimiter ↔ last = ioPathDelimiter)
    (hdl : d = ioPathDelimiter ↔ last = ioPathDelimiter)
    (h : Rests m path1 path2 (l + 1) (r + 1) s t) (k fuel : Nat) :
    Waits m path1 path2 last s t
      (tokenLoop m path1 path2 (fuel + 2) ⟨l + 1, r + 1, k, k⟩) := by
  cases s with
  | nil =>
      have hz : charAt m path1 (l + 1) = 0 := h.left
      refine .inr ⟨⟨l + 1, r + 1, k, k⟩, [], t, ?_, h, Nat.le_refl _, ?_, fun hn => absurd rfl hn⟩
      · simp only [tokenLoop, hz, true_or, ↓reduceIte]
      · cases t
        · rfl
        · rfl
  | cons a s =>
  cases t with
  | nil =>
      have hz : charAt m path2 (r + 1) = 0 := h.right
      refine .inr ⟨⟨l + 1, r + 1, k, k⟩, a :: s, [], ?_, h, Nat.le_refl _, rfl,
        fun _ hn => absurd rfl hn⟩
      simp only [tokenLoop, hz, or_true, ↓reduceIte]
  | cons b t =>
  obtain ⟨ha, hane, hs⟩ := isString_next h.left
  obtain ⟨hb, hbne, ht⟩ := isString_next h.right
  have hal := atDelimiter_next hc h.left
  have hbl := atDelimiter_next hd h.right
  have ha0 : charAt m path1 (l + 1) ≠ 0 := ha ▸ hane
  have hb0 : charAt m path2 (r + 1) ≠ 0 := hb ▸ hbne
  by_cases hlast : last = ioPathDelimiter
  · rw [decide_eq_false fun he => he.2 (hcl.mpr hlast)] at hal
    rw [decide_eq_false fun he => he.2 (hdl.mpr hlast)] at hbl
    refine .inr ⟨⟨l + 1, r + 1, k, k⟩, a :: s, b :: t, ?_, h, Nat.le_refl _, by rw [hlast],
      fun _ _ => rfl⟩
    exact tokenLoop_both ha0 hb0 hal hbl
  simp only [ne_eq, mt hcl.mp hlast, mt hdl.mp hlast, not_false_eq_true, and_true] at hal hbl
  by_cases had : a = ioPathDelimiter
  · rw [decide_eq_true had] at hal
    by_cases hbd : b = ioPathDelimiter
    · rw [decide_eq_true hbd] at hbl
      refine .inr ⟨⟨l + 2, r + 2, k + 1, k + 1⟩, s, t, ?_, ⟨hs, ht⟩, Nat.le_succ _, ?_,
        fun _ _ => rfl⟩
      · exact tokenLoop_both ha0 hb0 hal hbl
      · rw [compared, if_pos (had.trans hbd.symm), had]
    · rw [decide_eq_false hbd] at hbl
      have hab : a ≠ b := fun he => hbd (he.symm.trans had)
      rw [tokenLoop_left ha0 hb0 hal hbl, Waits, compared_one hlast hab]
      cases s with
      | nil =>
          have hz : charAt m path1 (l + 2) = 0 := hs
          refine .inr ⟨⟨l + 2, r + 1, k + 1, k⟩, [], b :: t, ?_, ⟨hs, h.right⟩, Nat.le_succ _, ?_,
            fun hn => absurd rfl hn⟩
          · exact (tokenLoop_succ _).trans (if_pos (.inl hz))
          · rw [if_neg (not_or.mpr ⟨fun he => he.2 rfl, fun he => hbd he.1⟩)]
            rfl
      | cons a' s =>
          obtain ⟨ha', hane', -⟩ := isString_next hs
          have hal' := atDelimiter_next ha hs
          rw [decide_eq_false fun he => he.2 had] at hal'
          refine .inl ⟨if_pos (.inl ⟨had, List.cons_ne_nil _ _⟩), ?_⟩
          exact tokenLoop_stuck (ha' ▸ hane') hb0 hal' hbl (Nat.succ_ne_self k) _
  · rw [decide_eq_false had] at hal
    by_cases hbd : b = ioPathDelimiter
    · rw [decide_eq_true hbd] at hbl
      have hab : a ≠ b := fun he => had (he.trans hbd)
      rw [tokenLoop_right ha0 hb0 hal hbl, Waits, compared_one hlast hab]
      cases t with
      | nil =>
          have hz : charAt m path2 (r + 2) = 0 := ht
          refine .inr ⟨⟨l + 1, r + 2, k, k + 1⟩, a :: s, [], ?_, ⟨h.left, ht⟩, Nat.le_refl _, ?_,
            fun _ hn => absurd rfl hn⟩
          · exact (tokenLoop_succ _).trans (if_pos (.inr hz))
          · rw [if_neg (not_or.mpr ⟨fun he => had he.1, fun he => he.2 rfl⟩)]
            rfl
      | cons b' t =>
          obtain ⟨hb', hbne', -⟩ := isString_next ht
          have hbl' := atDelimiter_next hb ht
          rw [decide_eq_false fun he => he.2 hbd] at hbl'
          refine .inl ⟨if_pos (.inr ⟨hbd, List.cons_ne_nil _ _⟩), ?_⟩
          exact tokenLoop_stuck ha0 (hb' ▸ hbne') hal hbl' (Nat.succ_ne_self k).symm _
    · rw [decide_eq_false hbd] at hbl
      refine .inr ⟨⟨l + 1, r + 1, k, k⟩, a :: s, b :: t, ?_, h, Nat.le_refl _, ?_, fun _ _ => rfl⟩
      · exact tokenLoop_both ha0 hb0 hal hbl
      · by_cases hab : a = b
        · rw [compared, compared, if_pos hab, if_pos hab]
        · rw [compared_one hlast hab, compared, if_neg hab,
            if_neg (not_or.mpr ⟨fun he => had he.1, fun he => hbd he.1⟩),
            if_neg fun he => he.1 rfl]

theorem compareLoop_round {k : Nat} (h : charAt m path1 l ≠ 0 ∧ charAt m path2 r ≠ 0) :
    compareLoop m path1 path2 (fuel + 1) ⟨l, r, k, k⟩
      = (tokenLoop m path1 path2 (2 ^ 32) ⟨l + 1, r + 1, k, k⟩ >>= fun c =>
          if charAt m path1 c.lIndex ≠ charAt m path2 c.rIndex then .ok 1
          else compareLoop m path1 path2 fuel c) := by
  rw [compareLoop, if_pos h]

theorem compareLoop_end {c : Comparison} (hf : 0 < fuel)
    (h : ¬(charAt m path1 c.lIndex ≠ 0 ∧ charAt m path2 c.rIndex ≠ 0)) :
    compareLoop m path1 path2 fuel c
      = if charAt m path1 c.lIndex ≠ charAt m path2 c.rIndex then .ok 1 else .ok 0 := by
  cases fuel with
  | zero => exact absurd hf (Nat.lt_irrefl 0)
  | succ fuel => rw [compareLoop, if_neg h]

/-- The inner loop waits at a place where the test behind it decides, or
both sides are on the same character. -/
theorem compareLoop_spec : ∀ {fuel l r k : Nat} {c d last : Byte} {s t : List Byte},
    charAt m path1 l = c → charAt m path2 r = d → c ≠ 0 → d ≠ 0 →
    (c = ioPathDelimiter ↔ last = ioPathDelimiter) →
    (d = ioPathDelimiter ↔ last = ioPathDelimiter) →
    Rests m path1 path2 (l + 1) (r + 1) s t → s.length + 1 < fuel →
    compareLoop m path1 path2 fuel ⟨l, r, k, k⟩ = compared last s t
  | 0, _, _, _, _, _, _, _, _, _, _, _, _, _, _, _, hf => absurd hf (Nat.not_lt_zero _)
  | fuel + 1, l, r, k, c, d, last, s, t, hc, hd, hc0, hd0, hcl, hdl, h, hf => by
      have hboth : charAt m path1 l ≠ 0 ∧ charAt m path2 r ≠ 0 := ⟨hc ▸ hc0, hd ▸ hd0⟩
      have hloop := tokenLoop_spec hc hd hcl hdl h k (2 ^ 32 - 2)
      rw [Nat.sub_add_cancel (by decide : 2 ≤ 2 ^ 32)] at hloop
      rw [compareLoop_round hboth]
      rcases hloop with
        ⟨hcmp, hloop⟩ | ⟨n, s', t', hloop, h', hlen, hcmp, htok⟩
      · rw [hloop, hcmp]
        rfl
      rw [hloop, hcmp, ok_bind]
      cases s' with
      | nil =>
          have hz : charAt m path1 n.lIndex = 0 := h'.left
          cases t' with
          | nil =>
              have hz' : charAt m path2 n.rIndex = 0 := h'.right
              rw [hz, hz', if_neg fun hne => hne rfl,
                compareLoop_end (by omega) fun hne => hne.1 hz, hz, hz',
                if_neg fun hne => hne rfl]
              rfl
          | cons b t' =>
              obtain ⟨hb, hb0, -⟩ := isString_next h'.right
              rw [hz, hb, if_pos hb0.symm]
              rfl
      | cons a s' =>
          obtain ⟨ha, ha0, hs⟩ := isString_next h'.left
          cases t' with
          | nil =>
              have hz' : charAt m path2 n.rIndex = 0 := h'.right
              rw [ha, hz', if_pos ha0]
              rfl
          | cons b t' =>
              obtain ⟨hb, hb0, ht⟩ := isString_next h'.right
              rw [ha, hb, compared]
              by_cases hab : a = b
              · obtain ⟨nl, nr, nk, nk'⟩ := n
                obtain rfl : nk = nk' := htok (List.cons_ne_nil _ _) (List.cons_ne_nil _ _)
                rw [if_neg fun hne => hne hab, if_pos hab]
                rw [List.length_cons] at hlen
                exact compareLoop_spec ha hb ha0 hb0 Iff.rfl (by rw [hab]) ⟨hs, ht⟩ (by omega)
              · rw [if_pos hab, if_neg hab, if_neg fun he => he.1 rfl]

/-- What `io_path_canonicalized_compare` returns. -/
def comparedPaths : List Byte → List Byte → Except Fault Int
  | [], [] => .ok 0
  | c :: s, _ :: t => compared c s t
  | _, _ => .ok 1

theorem ioPathCanonicalizedCompare_spec (hs : IsString m path1 s) (ht : IsString m path2 t) :
    ioPathCanonicalizedCompare m path1 path2 = comparedPaths (trimmed s) (trimmed t) := by
  have hlen := leading_add s
  have hlen' := leading_add t
  have hlt := hs.length_lt
  have hlt' := ht.length_lt
  rw [← BitVec.add_zero path1] at hs
  rw [← BitVec.add_zero path2] at ht
  have hu := isString_trimmed hs
  have hv := isString_trimmed ht
  rw [ioPathCanonicalizedCompare, skipDelimiters_spec hs ht (by omega) (by omega), ok_bind]
  simp only [Nat.zero_add] at hu hv ⊢
  have hpos : 0 < 2 ^ 32 := by decide
  cases hus : trimmed s with
  | nil =>
      rw [hus] at hu
      have hz : charAt m path1 (leading s) = 0 := hu
      rw [compareLoop_end hpos fun hne => hne.1 hz, hz]
      cases hvt : trimmed t with
      | nil =>
          rw [hvt] at hv
          have hz' : charAt m path2 (leading t) = 0 := hv
          rw [hz', if_neg fun hne => hne rfl]
          rfl
      | cons d v =>
          rw [hvt] at hv
          obtain ⟨hd, hd0, -⟩ := isString_next hv
          rw [hd, if_pos hd0.symm]
          rfl
  | cons c u =>
      rw [hus] at hu hlen
      obtain ⟨hc, hc0, hu⟩ := isString_next hu
      cases hvt : trimmed t with
      | nil =>
          rw [hvt] at hv
          have hz' : charAt m path2 (leading t) = 0 := hv
          rw [compareLoop_end hpos fun hne => hne.2 hz', hz', hc, if_pos hc0]
          rfl
      | cons d v =>
          rw [hvt] at hv
          obtain ⟨hd, hd0, hv⟩ := isString_next hv
          have hcd := trimmed_head hus
          rw [List.length_cons] at hlen
          exact compareLoop_spec hc hd hc0 hd0 Iff.rfl
            (iff_of_false (trimmed_head hvt) hcd) ⟨hu, hv⟩ (by omega)

/-! ## What a comparison decides -/

theorem compared_zero_iff : ∀ {s t : List Byte} {last : Byte},
    compared last s t = .ok 0 ↔ s = t
  | [], [], _ => iff_of_true rfl rfl
  | [], _ :: _, _ => iff_of_false (by simp [compared]) (by simp)
  | _ :: _, [], _ => iff_of_false (by simp [compared]) (by simp)
  | c :: s, d :: t, last => by
      rw [compared, List.cons.injEq]
      split
      · next hcd => rw [compared_zero_iff, and_iff_right hcd]
      · next hcd =>
          refine iff_of_false ?_ fun he => hcd he.1
          split
          · simp
          · simp

theorem compared_returns_iff : ∀ {s t : List Byte} {last : Byte},
    (∃ result, compared last s t = .ok result) ↔ ¬PartsFrom last s t
  | [], [], _ => iff_of_true ⟨0, rfl⟩ id
  | [], _ :: _, _ => iff_of_true ⟨1, rfl⟩ id
  | _ :: _, [], _ => iff_of_true ⟨1, rfl⟩ id
  | c :: s, d :: t, last => by
      rw [compared, PartsFrom]
      split
      · exact compared_returns_iff
      · split
        · next hparts => exact iff_of_false (by simp) (not_not_intro hparts)
        · next hparts => exact iff_of_true ⟨1, rfl⟩ hparts

theorem compare_zero_iff (hs : IsString m path1 s) (ht : IsString m path2 t) :
    ioPathCanonicalizedCompare m path1 path2 = .ok 0
      ↔ SameBehindFirst (trimmed s) (trimmed t) := by
  rw [ioPathCanonicalizedCompare_spec hs ht]
  cases trimmed s with
  | nil =>
      cases trimmed t with
      | nil => exact iff_of_true rfl ⟨Iff.rfl, rfl⟩
      | cons d v => exact iff_of_false (by simp [comparedPaths]) fun h => by simpa using h.1
  | cons c u =>
      cases trimmed t with
      | nil => exact iff_of_false (by simp [comparedPaths]) fun h => by simpa using h.1
      | cons d v =>
          rw [comparedPaths, compared_zero_iff]
          refine ⟨fun h => ⟨?_, h⟩, And.right⟩
          exact iff_of_false (List.cons_ne_nil _ _) (List.cons_ne_nil _ _)

theorem compare_returns_iff (hs : IsString m path1 s) (ht : IsString m path2 t) :
    (∃ result, ioPathCanonicalizedCompare m path1 path2 = .ok result)
      ↔ ¬Parts (trimmed s) (trimmed t) := by
  rw [ioPathCanonicalizedCompare_spec hs ht]
  cases trimmed s with
  | nil =>
      cases trimmed t with
      | nil => exact iff_of_true ⟨0, rfl⟩ id
      | cons d v => exact iff_of_true ⟨1, rfl⟩ id
  | cons c u =>
      cases trimmed t with
      | nil => exact iff_of_true ⟨1, rfl⟩ id
      | cons d v => exact compared_returns_iff

/-- To return 0 is an equivalence on the paths in a memory. -/
theorem compare_equivalence (m : Mem) : Equivalence fun p q : {p : Word // ∃ s, IsString m p s} =>
    ioPathCanonicalizedCompare m p q = .ok 0 where
  refl := by
    rintro ⟨p, s, hs⟩
    rw [compare_zero_iff hs hs]
    exact ⟨Iff.rfl, rfl⟩
  symm := by
    rintro ⟨p, s, hs⟩ ⟨q, t, ht⟩ h
    rw [compare_zero_iff hs ht] at h
    rw [compare_zero_iff ht hs]
    exact ⟨h.1.symm, h.2.symm⟩
  trans := by
    rintro ⟨p, s, hs⟩ ⟨q, t, ht⟩ ⟨r, u, hu⟩ h h'
    rw [compare_zero_iff hs ht] at h
    rw [compare_zero_iff ht hu] at h'
    rw [compare_zero_iff hs hu]
    exact ⟨h.1.trans h'.1, h.2.trans h'.2⟩

/-- Paths with the same nodes that agree behind the first character begin
with the same one. -/
theorem trimmed_eq (hn : nodesOf s = nodesOf t) (h : SameBehindFirst (trimmed s) (trimmed t)) :
    trimmed s = trimmed t := by
  rw [← nodesOf_trimmed s, ← nodesOf_trimmed t] at hn
  cases hus : trimmed s with
  | nil =>
      rw [hus] at h
      exact (h.1.mp rfl).symm
  | cons c u =>
      cases hvt : trimmed t with
      | nil =>
          rw [hus, hvt] at h
          exact h.1.mpr rfl
      | cons d v =>
          rw [hus, hvt] at h hn
          rw [head_eq_of_components (trimmed_head hus) (trimmed_head hvt) hn]
          exact congrArg _ h.2

/-- A result of 0 tells whether two paths have the same nodes exactly if they
are the same but for leading delimiters, or have different nodes that differ
in more than the first character; and for the latter the comparison has to
return. -/
theorem path_compare_iff (hs : IsString m path1 s) (ht : IsString m path2 t) :
    ((ioPathCanonicalizedCompare m path1 path2 = .ok 0 ↔ nodesOf s = nodesOf t)
      ↔ trimmed s = trimmed t
        ∨ nodesOf s ≠ nodesOf t ∧ ¬SameBehindFirst (trimmed s) (trimmed t))
    ∧ ((∃ result, ioPathCanonicalizedCompare m path1 path2 = .ok result
        ∧ (result = 0 ↔ nodesOf s = nodesOf t))
      ↔ trimmed s = trimmed t ∨ nodesOf s ≠ nodesOf t
        ∧ ¬SameBehindFirst (trimmed s) (trimmed t) ∧ ¬Parts (trimmed s) (trimmed t)) := by
  have hret := compare_returns_iff hs ht
  have hzero := compare_zero_iff hs ht
  have hself : trimmed s = trimmed t →
      nodesOf s = nodesOf t ∧ SameBehindFirst (trimmed s) (trimmed t) := by
    intro he
    rw [← nodesOf_trimmed s, ← nodesOf_trimmed t, he]
    exact ⟨rfl, Iff.rfl, rfl⟩
  have heq : nodesOf s = nodesOf t → SameBehindFirst (trimmed s) (trimmed t) →
      trimmed s = trimmed t := trimmed_eq
  have hboth : (∃ result, ioPathCanonicalizedCompare m path1 path2 = .ok result
        ∧ (result = 0 ↔ nodesOf s = nodesOf t))
      ↔ (∃ result, ioPathCanonicalizedCompare m path1 path2 = .ok result)
        ∧ (ioPathCanonicalizedCompare m path1 path2 = .ok 0 ↔ nodesOf s = nodesOf t) := by
    constructor
    · rintro ⟨result, hr, hz⟩
      refine ⟨⟨result, hr⟩, ?_⟩
      rwa [hr, Except.ok.injEq]
    · rintro ⟨⟨result, hr⟩, hz⟩
      refine ⟨result, hr, ?_⟩
      rwa [hr, Except.ok.injEq] at hz
  have hsame : SameBehindFirst (trimmed s) (trimmed t) → ¬Parts (trimmed s) (trimmed t) :=
    fun h => hret.mp ⟨0, hzero.mpr h⟩
  rw [hboth, hret, hzero]
  refine ⟨⟨fun h => ?_, ?_⟩, ⟨?_, ?_⟩⟩
  · by_cases hn : nodesOf s = nodesOf t
    · exact .inl (heq hn (h.mpr hn))
    · exact .inr ⟨hn, mt h.mp hn⟩
  · rintro (he | ⟨hn, hne⟩)
    · exact iff_of_true (hself he).2 (hself he).1
    · exact iff_of_false hne hn
  · rintro ⟨hp, h⟩
    by_cases hn : nodesOf s = nodesOf t
    · exact .inl (heq hn (h.mpr hn))
    · exact .inr ⟨hn, mt h.mp hn, hp⟩
  · rintro (he | ⟨hn, hne, hp⟩)
    · exact ⟨hsame (hself he).2, iff_of_true (hself he).2 (hself he).1⟩
    · exact ⟨hp, iff_of_false hne hn⟩

/-- Two paths, at `0x1000` and `0x2000`. -/
def twoPaths (s t : List Byte) : Mem := storeBytes (storeBytes (fun _ => 0) 0x1000 s) 0x2000 t

theorem twoPaths_leading :
    IsString (twoPaths [0x5C, 0x61, 0x5C, 0x62] [0x61, 0x5C, 0x62]) 0x1000
      [0x5C, 0x61, 0x5C, 0x62]
    ∧ IsString (twoPaths [0x5C, 0x61, 0x5C, 0x62] [0x61, 0x5C, 0x62]) 0x2000
      [0x61, 0x5C, 0x62] := by
  decide

theorem path_compare_leading : ioPathCanonicalizedCompare
    (twoPaths [0x5C, 0x61, 0x5C, 0x62] [0x61, 0x5C, 0x62]) 0x1000 0x2000 = .ok 0 := by
  obtain ⟨hs, ht⟩ := twoPaths_leading
  have heq : trimmed [0x5C, 0x61, 0x5C, 0x62] = trimmed [0x61, 0x5C, 0x62] := by decide
  refine ((path_compare_iff hs ht).1.mpr (.inl heq)).mpr ?_
  rw [← nodesOf_trimmed, heq, nodesOf_trimmed]

theorem twoPaths_first : IsString (twoPaths [0x61] [0x62]) 0x1000 [0x61]
    ∧ IsString (twoPaths [0x61] [0x62]) 0x2000 [0x62] := by
  decide

/-- `a` and `b` are compared as the same path. -/
theorem path_compare_first :
    ¬(ioPathCanonicalizedCompare (twoPaths [0x61] [0x62]) 0x1000 0x2000 = .ok 0
      ↔ nodesOf [0x61] = nodesOf [0x62]) := by
  obtain ⟨hs, ht⟩ := twoPaths_first
  rw [compare_zero_iff hs ht]
  have hsame : SameBehindFirst (trimmed [0x61]) (trimmed [0x62]) := by
    unfold SameBehindFirst
    decide
  intro h
  exact absurd (h.mp hsame) (by decide)

/-! ## What a comparison looks at -/

/-- Where a delimiter, or any character, has been seen, there is more of the
path. -/
theorem charAt_lt {path : Word} {index len : Nat} (hn : charAt m path len = 0) (hi : index ≤ len)
    (hne : charAt m path index ≠ 0) : index < len := by
  refine Nat.lt_of_le_of_ne hi ?_
  rintro rfl
  exact hne hn

theorem skip_le {path : Word} {index len : Nat} (hn : charAt m path len = 0) (hi : index ≤ len) :
    (if charAt m path index = ioPathDelimiter then index + 1 else index) ≤ len := by
  split
  · next hd => exact charAt_lt hn hi (by rw [hd]; decide)
  · exact hi

theorem inStrings_pair {s t : List Byte} (hl : l ≤ s.length) (hr : r ≤ t.length) :
    InStrings s t (↑l, ↑r) :=
  ⟨⟨Int.natCast_nonneg l, Int.ofNat_le.mpr hl⟩, Int.natCast_nonneg r, Int.ofNat_le.mpr hr⟩

theorem skipReads_inside (hs : charAt m path1 s.length = 0) (ht : charAt m path2 t.length = 0) :
    ∀ (fuel : Nat) {l r : Nat}, l ≤ s.length → r ≤ t.length →
    (∀ q ∈ skipReads m path1 path2 fuel l r, InStrings s t q)
    ∧ ∀ l' r', skipDelimiters m path1 path2 fuel l r = .ok (l', r') →
      l' ≤ s.length ∧ r' ≤ t.length
  | 0, _, _, _, _ => ⟨List.forall_mem_nil _, by simp [skipDelimiters]⟩
  | fuel + 1, l, r, hl, hr => by
      have hl' := skip_le hs hl
      have hr' := skip_le ht hr
      simp only [skipReads, skipDelimiters, List.forall_mem_cons]
      generalize (if charAt m path1 l = ioPathDelimiter then l + 1 else l) = l₁ at hl' ⊢
      generalize (if charAt m path2 r = ioPathDelimiter then r + 1 else r) = r₁ at hr' ⊢
      have ih := skipReads_inside hs ht fuel hl' hr'
      refine ⟨⟨inStrings_pair hl hr, inStrings_pair hl' hr', ?_⟩, ?_⟩
      · split
        · exact ih.1
        · exact List.forall_mem_nil _
      · split
        · exact ih.2
        · intro l₂ r₂ h
          obtain ⟨rfl, rfl⟩ := Prod.mk.inj (Except.ok.inj h)
          exact ⟨hl', hr'⟩

/-- The indices of a comparison are in the strings. -/
structure Within (s t : List Byte) (c : Comparison) : Prop where
  left : c.lIndex ≤ s.length
  right : c.rIndex ≤ t.length

theorem tokenRound_within {c : Comparison} (hs : charAt m path1 s.length = 0)
    (ht : charAt m path2 t.length = 0) (h : Within s t c) :
    Within s t (tokenRound m path1 path2 c) := by
  have hstep : ∀ {path : Word} {index len : Nat}, charAt m path len = 0 → index ≤ len →
      index + (atDelimiter m path index).toNat ≤ len := by
    intro path index len hn hi
    cases hd : atDelimiter m path index with
    | false => exact hi
    | true => exact charAt_lt hn hi (by rw [(of_decide_eq_true hd).1]; decide)
  rw [tokenRound_eq]
  exact ⟨hstep hs h.left, hstep ht h.right⟩

/-- The inner loop begins behind a first character, and can look back. -/
theorem tokenReads_inside (hs : charAt m path1 s.length = 0) (ht : charAt m path2 t.length = 0) :
    ∀ (fuel : Nat) {c : Comparison}, Within s t c → 0 < c.lIndex → 0 < c.rIndex →
    (∀ q ∈ tokenReads m path1 path2 fuel c, InStrings s t q)
    ∧ ∀ c', tokenLoop m path1 path2 fuel c = .ok c' → Within s t c'
  | 0, _, _, _, _ => ⟨List.forall_mem_nil _, by simp [tokenLoop]⟩
  | fuel + 1, c, h, hl, hr => by
      have hfirst := inStrings_pair h.left h.right
      have hback : InStrings s t (↑c.lIndex - 1, ↑c.rIndex - 1) := by
        have := h.left
        have := h.right
        refine ⟨⟨?_, ?_⟩, ?_, ?_⟩
        all_goals
          simp only
          omega
      have hnext := tokenRound_within hs ht h
      have hpos : 0 < (tokenRound m path1 path2 c).lIndex
          ∧ 0 < (tokenRound m path1 path2 c).rIndex := by
        rw [tokenRound_eq]
        exact ⟨Nat.add_pos_left hl _, Nat.add_pos_left hr _⟩
      have ih := tokenReads_inside hs ht fuel hnext hpos.1 hpos.2
      rw [tokenReads, tokenLoop_succ, List.forall_mem_cons]
      by_cases hz : charAt m path1 c.lIndex = 0 ∨ charAt m path2 c.rIndex = 0
      · rw [if_pos hz, if_pos hz]
        refine ⟨⟨hfirst, List.forall_mem_nil _⟩, fun c' h' => ?_⟩
        rwa [← Except.ok.inj h']
      · rw [if_neg hz, if_neg hz, List.forall_mem_cons]
        split
        · exact ⟨⟨hfirst, hback, ih.1⟩, ih.2⟩
        · refine ⟨⟨hfirst, hback, List.forall_mem_nil _⟩, fun c' h' => ?_⟩
          rwa [← Except.ok.inj h']

theorem compareReads_inside (hs : charAt m path1 s.length = 0)
    (ht : charAt m path2 t.length = 0) : ∀ {fuel : Nat} {c : Comparison}, Within s t c →
    ∀ q ∈ compareReads m path1 path2 fuel c, InStrings s t q
  | 0, _, _ => List.forall_mem_nil _
  | fuel + 1, c, h => by
      rw [compareReads, List.forall_mem_cons]
      refine ⟨inStrings_pair h.left h.right, ?_⟩
      split
      · next hne =>
          have hnext : Within s t { c with lIndex := c.lIndex + 1, rIndex := c.rIndex + 1 } :=
            ⟨charAt_lt hs h.left hne.1, charAt_lt ht h.right hne.2⟩
          have htok := tokenReads_inside hs ht (2 ^ 32) hnext (Nat.succ_pos _)
            (Nat.succ_pos _)
          rw [List.forall_mem_append]
          refine ⟨htok.1, ?_⟩
          split
          · next c' hc' =>
              have h' := htok.2 c' hc'
              rw [List.forall_mem_cons]
              refine ⟨inStrings_pair h'.left h'.right, ?_⟩
              split
              · exact List.forall_mem_nil _
              · exact compareReads_inside hs ht h'
          · exact List.forall_mem_nil _
      · exact List.forall_mem_nil _

theorem pathReads_inside (hs : IsString m path1 s) (ht : IsString m path2 t) :
    ∀ q ∈ pathReads m path1 path2, InStrings s t q := by
  have hskip := skipReads_inside hs.nul ht.nul (2 ^ 32) (Nat.zero_le _) (Nat.zero_le _)
  rw [pathReads, List.forall_mem_append]
  refine ⟨hskip.1, ?_⟩
  split
  · next l r hlr =>
      have h := hskip.2 l r hlr
      exact compareReads_inside hs.nul ht.nul ⟨h.1, h.2⟩
  · exact List.forall_mem_nil _

/-- A comparison stays in the strings, and returns exactly if the paths do
not part where a node of one ends, with something behind its delimiter, and
goes on in the other. -/
theorem path_compare_returns_iff (hs : IsString m path1 s) (ht : IsString m path2 t) :
    ((∃ result, ioPathCanonicalizedCompare m path1 path2 = .ok result)
      ∧ ∀ q ∈ pathReads m path1 path2, InStrings s t q)
      ↔ ¬Parts (trimmed s) (trimmed t) := by
  rw [and_iff_left (pathReads_inside hs ht)]
  exact compare_returns_iff hs ht

theorem path_compare_returns_leading : ∃ result, ioPathCanonicalizedCompare
    (twoPaths [0x5C, 0x61, 0x5C, 0x62] [0x61, 0x5C, 0x62]) 0x1000 0x2000 = .ok result := by
  obtain ⟨hs, ht⟩ := twoPaths_leading
  refine ((path_compare_returns_iff hs ht).mpr ?_).1
  simp [trimmed, Parts, PartsFrom]

theorem twoPaths_parting : IsString (twoPaths [0x61, 0x5C, 0x62] [0x61, 0x62]) 0x1000
      [0x61, 0x5C, 0x62]
    ∧ IsString (twoPaths [0x61, 0x5C, 0x62] [0x61, 0x62]) 0x2000 [0x61, 0x62] := by
  decide

/-- `a\b` is never done with `ab`. -/
theorem path_compare_parting : ¬∃ result, ioPathCanonicalizedCompare
    (twoPaths [0x61, 0x5C, 0x62] [0x61, 0x62]) 0x1000 0x2000 = .ok result := by
  obtain ⟨hs, ht⟩ := twoPaths_parting
  rw [compare_returns_iff hs ht, not_not]
  simp [trimmed, Parts, PartsFrom]

end SpKernel
