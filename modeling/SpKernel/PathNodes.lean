import SpKernel.Lib.Components
import SpKernel.Paths

/-!
# Counting and slicing paths

The nodes of a path are its components between delimiters, by the library
on components. `io_path_count_nodes` counts them, looking one character
back, and is right about every path (`count_nodes_components`).

`io_path_keep_n_nodes` copies characters until it has met the delimiters
that end `n` nodes, and then ends the path it copies from. If there are
fewer, the whole path is copied and nothing ends the copy
(`keepNNodesLoop_spec`). `io_path_disc_n_nodes` returns the number of
characters up to there and ends nothing either. So the copy is a path
with the right nodes, and the path is left alone, only where the whole
path is asked for and memory behind the copy happens to end it
(`path_slicing_iff`).

`cutFrom` is the position at which the loop stops, as a function of the
characters. It is where the `n`th node ends if there are so many
(`nodesFrom_ends`, `cutFrom_lt`), and nowhere otherwise
(`cutFrom_eq_none`); `sliced` is the memory that a call leaves. The two
conditions of the result are `keepsNodes_iff` and `discardsNodes_iff`.
-/

namespace SpKernel

open Lib

/-! ## Definitions -/

/-- The nodes of a path. -/
abbrev nodesOf (s : List Byte) : List (List Byte) := components ioPathDelimiter s

/-- The number of nodes the rest of a path adds. -/
def nodesFrom : Nat → Byte → List Byte → Nat
  | _, last, [] => if last ≠ ioPathDelimiter ∧ last ≠ 0 then 1 else 0
  | index, last, c :: s => (if endsNode index last c then 1 else 0) + nodesFrom (index + 1) c s

/-- The number of nodes that end in the rest of a path. -/
def endsFrom : Nat → Byte → List Byte → Nat
  | _, _, [] => 0
  | index, last, c :: s => (if endsNode index last c then 1 else 0) + endsFrom (index + 1) c s

/-- Where `io_path_keep_n_nodes` stops in the rest of a path, unless it
gets to the end. -/
def cutFrom (n : Nat) : Nat → Nat → Byte → List Byte → Option Nat
  | _, _, _, [] => none
  | index, pathcount, last, c :: s =>
      let pathcount := if endsNode index last c then pathcount + 1 else pathcount
      if pathcount = n then some 0 else (cutFrom n (index + 1) pathcount c s).map (· + 1)

/-- The call has made `out` a path of these nodes, in no more bytes than the
path takes, and has left the path as it was. -/
structure Sliced (m m' : Mem) (path out : Word) (s : List Byte) (kept : List (List Byte)) :
    Prop where
  copied : ∃ t, IsString m' out t ∧ nodesOf t = kept
  unchanged : IsString m' path s
  room : ∀ x, (∀ i ≤ s.length, x ≠ out + BitVec.ofNat 32 i ∧ x ≠ path + BitVec.ofNat 32 i) →
    m' x = m x

/-- `io_path_keep_n_nodes` slices the path `s`. -/
def KeepsNodes (m : Mem) (path n out : Word) (s : List Byte) : Prop :=
  ∃ m', ioPathKeepNNodes m path n out = .ok m'
    ∧ Sliced m m' path out s ((nodesOf s).take n.toNat)

/-- `io_path_disc_n_nodes` slices the path `s`. -/
def DiscardsNodes (m : Mem) (path n out : Word) (s : List Byte) : Prop :=
  ∃ m', ioPathDiscNNodes m path n out = .ok m'
    ∧ Sliced m m' path out s ((nodesOf s).take ((nodesOf s).length - n.toNat))

/-- From here on there are only delimiters up to a NUL. -/
def Ended (m : Mem) (a : Word) : Prop :=
  ∃ rest, IsString m a rest ∧ ∀ b ∈ rest, b = ioPathDelimiter

variable {m : Mem} {path out n : Word} {s : List Byte} {last : Byte} {index fuel : Nat}

/-! ## Counting -/

theorem isString_next {c : Byte} (hs : IsString m (path + BitVec.ofNat 32 index) (c :: s)) :
    charAt m path index = c ∧ c ≠ 0 ∧ IsString m (path + BitVec.ofNat 32 (index + 1)) s := by
  refine ⟨hs.1, hs.2.1, ?_⟩
  have hrest := hs.2.2
  rwa [BitVec.add_assoc, ← BitVec.ofNat_add] at hrest

theorem countNodesLoop_spec : ∀ {s : List Byte} {index fuel count : Nat} {last : Byte},
    IsString m (path + BitVec.ofNat 32 index) s → s.length < fuel →
    countNodesLoop m path fuel index count last = .ok (count + nodesFrom index last s)
  | _, _, 0, _, _, _, hf => absurd hf (Nat.not_lt_zero _)
  | [], index, fuel + 1, count, last, hs, _ => by
      have hz : charAt m path index = 0 := hs
      simp only [countNodesLoop, hz, ne_eq, not_true_eq_false, ↓reduceIte, nodesFrom]
      split
      · rfl
      · rfl
  | c :: s, index, fuel + 1, count, last, hs, hf => by
      obtain ⟨hc, hne, hrest⟩ := isString_next hs
      simp only [countNodesLoop, hc, ne_eq, hne, not_false_eq_true, ↓reduceIte, nodesFrom]
      rw [countNodesLoop_spec hrest (Nat.lt_of_succ_lt_succ hf)]
      congr 1
      split
      · omega
      · omega

/-- Behind the first character the look back tells whether a node is
going on. -/
theorem nodesFrom_eq : ∀ {s : List Byte} {index : Nat} {last : Byte}, index ≠ 0 → last ≠ 0 →
    (∀ c ∈ s, c ≠ 0) → nodesFrom index last s = (nodesOf (last :: s)).length
  | [], index, last, _, hl, _ => by
      rw [nodesFrom, nodesOf]
      by_cases hd : last = ioPathDelimiter
      · rw [hd, components_sep]
        rfl
      · rw [if_pos ⟨hd, hl⟩, components_singleton hd]
        rfl
  | c :: s, index, last, hi, _, hs => by
      obtain ⟨hc, hs⟩ := List.forall_mem_cons.mp hs
      rw [nodesFrom, nodesFrom_eq (Nat.succ_ne_zero index) hc hs, nodesOf, nodesOf]
      by_cases hd : last = ioPathDelimiter
      · have hends : endsNode index last c = false :=
          decide_eq_false fun he => he.2.2 (he.1.trans hd.symm)
        rw [hends, hd, components_sep]
        exact Nat.zero_add _
      · have hends : endsNode index last c = decide (c = ioPathDelimiter) := by
          rw [endsNode, decide_eq_decide]
          exact ⟨fun he => he.1, fun he => ⟨he, hi, fun hl => hd (hl.symm.trans he)⟩⟩
        rw [hends, length_components_cons hd, Nat.add_comm]
        simp only [decide_eq_true_eq]

theorem nodesFrom_start (hs : ∀ c ∈ s, c ≠ 0) : nodesFrom 0 0 s = (nodesOf s).length := by
  cases s with
  | nil => rfl
  | cons c s =>
      obtain ⟨hc, hs⟩ := List.forall_mem_cons.mp hs
      have hends : endsNode 0 0 c = false := decide_eq_false fun he => he.2.1 rfl
      rw [nodesFrom, hends, nodesFrom_eq (by decide) hc hs]
      exact Nat.zero_add _

/-- `io_path_count_nodes` counts what its loop over the characters counts. -/
theorem ioPathCountNodes_spec (hs : IsString m path s) :
    ioPathCountNodes m path = .ok (nodesFrom 0 0 s) := by
  have hs' : IsString m (path + BitVec.ofNat 32 0) s := by rwa [BitVec.add_zero]
  rw [ioPathCountNodes, countNodesLoop_spec hs' hs.length_lt, Nat.zero_add]

/-- `io_path_count_nodes` counts the nodes. -/
theorem count_nodes_components (hs : IsString m path s) :
    ioPathCountNodes m path = .ok (nodesOf s).length := by
  rw [ioPathCountNodes_spec hs, nodesFrom_start hs.ne_zero]

/-- The path `\a\b` at `0x1000`. -/
def pathAB : Mem := storeBytes (fun _ => 0) 0x1000 [0x5C, 0x61, 0x5C, 0x62]

theorem pathAB_isString : IsString pathAB 0x1000 [0x5C, 0x61, 0x5C, 0x62] := by
  decide

theorem pathAB_apart : Apart 0x2000 5 0x1000 5 := by
  unfold Apart
  decide

theorem count_nodes_components_two : ioPathCountNodes pathAB 0x1000 = .ok 2 :=
  count_nodes_components pathAB_isString

/-! ## Where a copy stops -/

theorem nodesFrom_ends : ∀ (s : List Byte) (index : Nat) (last : Byte),
    nodesFrom index last s
      = endsFrom index last s
        + if s.getLastD last ≠ ioPathDelimiter ∧ s.getLastD last ≠ 0 then 1 else 0
  | [], _, _ => (Nat.zero_add _).symm
  | c :: s, index, last => by
      rw [nodesFrom, endsFrom, nodesFrom_ends s, List.getLastD_cons, Nat.add_assoc]

/-- A copy gets to the end if fewer nodes end than it is to keep. -/
theorem cutFrom_eq_none {n : Nat} : ∀ {s : List Byte} {index pathcount : Nat} {last : Byte},
    pathcount < n →
    (cutFrom n index pathcount last s = none ↔ pathcount + endsFrom index last s < n)
  | [], _, _, _, hlt => iff_of_true rfl hlt
  | c :: s, index, pathcount, last, hlt => by
      have ih : ∀ count, count ≤ n → ((if count = n then some 0
          else (cutFrom n (index + 1) count c s).map (· + 1)) = none
            ↔ count + endsFrom (index + 1) c s < n) := by
        intro count hle
        by_cases hn : count = n
        · rw [if_pos hn]
          exact iff_of_false (Option.some_ne_none 0) (by omega)
        · rw [if_neg hn, Option.map_eq_none_iff, cutFrom_eq_none (Nat.lt_of_le_of_ne hle hn)]
      rw [cutFrom, endsFrom]
      split
      · rw [ih (pathcount + 1) hlt, Nat.add_assoc]
      · rw [ih pathcount hlt.le, Nat.zero_add]

theorem cutFrom_lt {n k : Nat} : ∀ {s : List Byte} {index pathcount : Nat} {last : Byte},
    cutFrom n index pathcount last s = some k → k < s.length
  | [], _, _, _, h => by cases h
  | c :: s, index, pathcount, last, h => by
      rw [cutFrom] at h
      generalize (if endsNode index last c = true then pathcount + 1 else pathcount) = count at h
      by_cases hn : count = n
      · rw [if_pos hn] at h
        rw [← Option.some.inj h]
        exact Nat.succ_pos _
      · rw [if_neg hn] at h
        obtain ⟨k', hk', rfl⟩ := Option.map_eq_some_iff.mp h
        exact Nat.succ_lt_succ (cutFrom_lt hk')

/-- The whole path is copied if it has fewer nodes than are to be kept, or
as many and the last one is not ended by a delimiter. -/
def CopiesAll (n : Nat) (s : List Byte) : Prop :=
  (nodesOf s).length < n ∨ (nodesOf s).length = n ∧ s.getLast? ≠ some ioPathDelimiter

theorem cutFrom_start {n : Nat} (hs : ∀ c ∈ s, c ≠ 0) :
    cutFrom n 0 0 0 s = none ↔ CopiesAll n s := by
  have hcount := nodesFrom_start hs
  rw [nodesFrom_ends] at hcount
  rw [CopiesAll, ← hcount]
  cases s with
  | nil =>
      refine iff_of_true rfl ?_
      rcases Nat.eq_zero_or_pos n with hn | hn
      · exact .inr ⟨hn.symm, by simp⟩
      · exact .inl hn
  | cons c s =>
      have hlast : (c :: s).getLast? = some ((c :: s).getLastD 0) := by
        rw [List.getLastD_eq_getLast?, List.getLast?_cons]
        rfl
      have hmem : (c :: s).getLastD 0 ≠ 0 := by
        refine hs _ (List.mem_of_getLast? hlast)
      have hends : endsNode 0 0 c = false := decide_eq_false fun he => he.2.1 rfl
      rw [hlast, Option.some_inj.ne]
      rcases Nat.eq_zero_or_pos n with hn | hn
      · rw [hn, cutFrom, hends]
        refine iff_of_false (by simp) ?_
        rintro (hlt | ⟨hz, hd⟩)
        · exact absurd hlt (Nat.not_lt_zero _)
        · rw [if_pos ⟨hd, hmem⟩] at hz
          exact absurd hz (Nat.succ_ne_zero _)
      · rw [cutFrom_eq_none hn, Nat.zero_add]
        by_cases hd : (c :: s).getLastD 0 = ioPathDelimiter
        · rw [if_neg fun he => he.1 hd, Nat.add_zero]
          exact (or_iff_left fun he => he.2 hd).symm
        · rw [if_pos ⟨hd, hmem⟩, and_iff_left hd]
          omega

/-! ## Slicing -/

/-- A byte stored to the copy is not one of the path. -/
theorem isString_store {n : Nat} {b : Byte}
    (hs : IsString m (path + BitVec.ofNat 32 index) s)
    (hap : Apart out n path (n + 1)) {k : Nat} (hk : k < n) (hn : index + s.length ≤ n) :
    IsString (store 1 m (out + BitVec.ofNat 32 k) b) (path + BitVec.ofNat 32 index) s := by
  refine hs.congr fun i hi => ?_
  rw [store_byte, if_neg]
  rw [BitVec.add_assoc, ← BitVec.ofNat_add]
  exact (hap k hk (index + i) (by omega)).symm

/-- The memory after a copy that stops at this place, if it does. -/
def sliced (m : Mem) (path out : Word) (s : List Byte) : Option Nat → Mem
  | none => storeBytes m out s
  | some k => store 1 (storeBytes m out (s.take (k + 1))) (path + BitVec.ofNat 32 k) (0 : Byte)

theorem keepNNodesLoop_spec {N n : Nat} (hap : Apart out N path (N + 1)) :
    ∀ {s : List Byte} {m : Mem} {fuel index pathcount : Nat} {last : Byte},
    IsString m (path + BitVec.ofNat 32 index) s → s.length < fuel → index + s.length ≤ N →
    keepNNodesLoop path n out fuel m index pathcount last
      = .ok (sliced m (path + BitVec.ofNat 32 index) (out + BitVec.ofNat 32 index) s
          (cutFrom n index pathcount last s))
  | _, _, 0, _, _, _, _, hf, _ => absurd hf (Nat.not_lt_zero _)
  | [], m, fuel + 1, index, pathcount, last, hs, _, _ => by
      have hz : charAt m path index = 0 := hs
      simp only [keepNNodesLoop, hz, ne_eq, not_true_eq_false, ↓reduceIte]
      rfl
  | c :: s, m, fuel + 1, index, pathcount, last, hs, hf, hN => by
      obtain ⟨hc, hne, hrest⟩ := isString_next hs
      rw [List.length_cons] at hf hN
      have hrest' := isString_store (b := c) hrest hap (by omega : index < N) (by omega)
      simp only [keepNNodesLoop, hc, ne_eq, hne, not_false_eq_true, ↓reduceIte, cutFrom]
      generalize (if endsNode index last c = true then pathcount + 1 else pathcount) = count
      by_cases hn : count = n
      · rw [if_pos hn, if_pos hn]
        simp only [sliced, BitVec.add_zero]
        rfl
      · rw [if_neg hn, if_neg hn, keepNNodesLoop_spec hap hrest' (by omega) (by omega)]
        have hnext : ∀ a : Word, a + BitVec.ofNat 32 (index + 1)
            = a + BitVec.ofNat 32 index + 1#32 := fun a => by
          rw [BitVec.ofNat_add, BitVec.add_assoc]
        cases cutFrom n (index + 1) count c s with
        | none =>
            simp only [sliced, Option.map_none, hnext]
            rfl
        | some k =>
            simp only [sliced, Option.map_some, hnext, add_ofNat_succ]
            rfl

theorem ioPathKeepNNodes_spec (hs : IsString m path s)
    (hap : Apart out s.length path (s.length + 1)) :
    ioPathKeepNNodes m path n out = .ok (sliced m path out s (cutFrom n.toNat 0 0 0 s)) := by
  have hs' : IsString m (path + BitVec.ofNat 32 0) s := by rwa [BitVec.add_zero]
  rw [ioPathKeepNNodes, keepNNodesLoop_spec hap hs' hs.length_lt (Nat.zero_add _).le,
    BitVec.add_zero, BitVec.add_zero]

/-- When the whole path is copied, the copy goes on as memory did. -/
theorem copy_isString (hs : IsString m path s)
    (hap : Apart out (s.length + 1) path (s.length + 1)) {t : List Byte} :
    IsString (storeBytes m out s) out t
      ↔ ∃ rest, IsString m (out + BitVec.ofNat 32 s.length) rest ∧ t = s ++ rest := by
  have hlt := hs.length_lt
  constructor
  · intro ht
    obtain ⟨hpre, hrest⟩ := (IsString.storeBytes_iff hs.ne_zero ht.length_lt hlt).mp ht
    obtain ⟨rest, rfl⟩ := hpre
    rw [List.drop_left] at hrest
    exact ⟨rest, hrest, rfl⟩
  · rintro ⟨rest, hrest, rfl⟩
    -- the NUL of the path comes before the copy begins again
    have hnul : (path + BitVec.ofNat 32 s.length - (out + BitVec.ofNat 32 s.length)).toNat
        + s.length < 2 ^ 32 := by
      by_contra hge
      refine hap (path + BitVec.ofNat 32 s.length - out).toNat ?_ s.length (Nat.lt_succ_self _)
        (add_offset ..)
      simp only [BitVec.toNat_sub, BitVec.toNat_add, BitVec.toNat_ofNat] at hge ⊢
      omega
    have hle : rest.length
        ≤ (path + BitVec.ofNat 32 s.length - (out + BitVec.ofNat 32 s.length)).toNat :=
      hrest.length_le (by rw [add_offset]; exact hs.nul)
    refine (IsString.storeBytes_iff hs.ne_zero ?_ hlt).mpr ⟨List.prefix_append s rest, ?_⟩
    · rw [List.length_append]
      omega
    · rwa [List.drop_left]

theorem keep_iff (hs : IsString m path s) (hap : Apart out (s.length + 1) path (s.length + 1))
    {kept : List (List Byte)} :
    (∃ m', ioPathKeepNNodes m path n out = .ok m' ∧ Sliced m m' path out s kept)
      ↔ CopiesAll n.toNat s ∧ ∃ rest, IsString m (out + BitVec.ofNat 32 s.length) rest
        ∧ nodesOf (s ++ rest) = kept := by
  have hlt := hs.length_lt
  have hap' := hap.mono (Nat.le_succ s.length) (Nat.le_refl _)
  rw [ioPathKeepNNodes_spec hs hap', ← cutFrom_start hs.ne_zero]
  cases hcut : cutFrom n.toNat 0 0 0 s with
  | none =>
      rw [and_iff_right rfl]
      constructor
      · rintro ⟨m', hm', hsl⟩
        obtain rfl := Except.ok.inj hm'
        obtain ⟨t, ht, hn⟩ := hsl.copied
        obtain ⟨rest, hrest, rfl⟩ := (copy_isString hs hap).mp ht
        exact ⟨rest, hrest, hn⟩
      · rintro ⟨rest, hrest, hn⟩
        refine ⟨_, rfl, ⟨_, (copy_isString hs hap).mpr ⟨rest, hrest, rfl⟩, hn⟩, ?_, fun x hx => ?_⟩
        · exact hs.congr fun i hi =>
            storeBytes_apart hap' (Nat.le_refl _) hlt.le (Nat.lt_succ_of_le hi)
        · refine storeBytes_other hlt.le ?_
          by_contra hc
          exact (hx (x - out).toNat (by omega)).1 (add_offset ..).symm
  | some k =>
      refine iff_of_false ?_ fun hc => Option.some_ne_none k hc.1
      rintro ⟨m', hm', hsl⟩
      obtain rfl := Except.ok.inj hm'
      have hget := hsl.unchanged.get k (cutFrom_lt hcut)
      have hz : sliced m path out s (some k) (path + BitVec.ofNat 32 k) = 0 := by
        simp only [sliced]
        rw [store_byte, if_pos rfl]
      exact hget.2 (hget.1.symm.trans hz)

theorem keepsNodes_iff (hs : IsString m path s)
    (hap : Apart out (s.length + 1) path (s.length + 1)) : KeepsNodes m path n out s
      ↔ CopiesAll n.toNat s ∧ Ended m (out + BitVec.ofNat 32 s.length) := by
  refine (keep_iff hs hap).trans (and_congr_right fun hall => exists_congr fun rest =>
    and_congr_right fun _ => ?_)
  have hle : (nodesOf s).length ≤ n.toNat := by
    rcases hall with hlt | ⟨heq, -⟩
    · exact hlt.le
    · exact heq.le
  rw [List.take_of_length_le hle, components_append_eq_iff]

theorem discardsNodes_iff (hs : IsString m path s)
    (hap : Apart out (s.length + 1) path (s.length + 1)) : DiscardsNodes m path n out s
      ↔ (if n = 0 then s.getLast? ≠ some ioPathDelimiter else nodesOf s = [])
        ∧ Ended m (out + BitVec.ofNat 32 s.length) := by
  have hcount : (nodesOf s).length < 2 ^ 32 :=
    Nat.lt_of_le_of_lt (length_components_le s) hs.length_lt
  simp only [DiscardsNodes, ioPathDiscNNodes, ioPathCountNodes_spec hs, nodesFrom_start hs.ne_zero,
    ok_bind]
  rw [keep_iff hs hap]
  by_cases hn : n = 0
  · have hall : CopiesAll (BitVec.ofNat 32 (nodesOf s).length - n).toNat s
        ↔ s.getLast? ≠ some ioPathDelimiter := by
      have hsub : BitVec.ofNat 32 (nodesOf s).length - n = BitVec.ofNat 32 (nodesOf s).length := by
        rw [hn]
        exact BitVec.sub_zero _
      rw [hsub, BitVec.toNat_ofNat, Nat.mod_eq_of_lt hcount, CopiesAll]
      simp only [lt_self_iff_false, false_or, true_and]
    have hz : n.toNat = 0 := by
      rw [hn]
      rfl
    rw [hall, if_pos hn, hz, Nat.sub_zero, List.take_length]
    exact and_congr_right fun _ => exists_congr fun rest =>
      and_congr_right fun _ => components_append_eq_iff
  · have hpos : n.toNat ≠ 0 := fun hz => hn (BitVec.eq_of_toNat_eq hz)
    have hdiff : (BitVec.ofNat 32 (nodesOf s).length - n).toNat
        = if (nodesOf s).length < n.toNat then 2 ^ 32 + (nodesOf s).length - n.toNat
          else (nodesOf s).length - n.toNat := by
      have := n.isLt
      rw [BitVec.toNat_sub, BitVec.toNat_ofNat]
      split
      · omega
      · omega
    rw [if_neg hn, hdiff]
    by_cases hlt : (nodesOf s).length < n.toNat
    · have hall : CopiesAll (2 ^ 32 + (nodesOf s).length - n.toNat) s := by
        have := n.isLt
        exact .inl (by omega)
      rw [if_pos hlt, and_iff_right hall, Nat.sub_eq_zero_of_le hlt.le, List.take_zero]
      simp only [nodesOf, components_eq_nil_iff, List.forall_mem_append, Ended]
      constructor
      · rintro ⟨rest, hrest, hs, hr⟩
        exact ⟨hs, rest, hrest, hr⟩
      · rintro ⟨hs, rest, hrest, hr⟩
        exact ⟨rest, hrest, hs, hr⟩
    · rw [if_neg hlt]
      refine iff_of_false ?_ fun hc => ?_
      · rintro ⟨hl | ⟨he, -⟩, -⟩
        · omega
        · omega
      · have hz := congrArg List.length hc.1
        rw [List.length_nil] at hz
        omega

/-- Apart from `out`, a path is sliced by `io_path_keep_n_nodes` exactly if
all of it is to be kept, and by `io_path_disc_n_nodes` exactly if nothing is
discarded or there is nothing to discard, and memory behind the copy ends it. -/
theorem path_slicing_iff (hs : IsString m path s)
    (hap : Apart out (s.length + 1) path (s.length + 1)) (n : Word) :
    (KeepsNodes m path n out s
      ↔ CopiesAll n.toNat s ∧ Ended m (out + BitVec.ofNat 32 s.length))
    ∧ (DiscardsNodes m path n out s
      ↔ (if n = 0 then s.getLast? ≠ some ioPathDelimiter else nodesOf s = [])
        ∧ Ended m (out + BitVec.ofNat 32 s.length)) :=
  ⟨keepsNodes_iff hs hap, discardsNodes_iff hs hap⟩

/-- All of `\a\b` is kept. -/
theorem path_slicing_whole : KeepsNodes pathAB 0x1000 2 0x2000 [0x5C, 0x61, 0x5C, 0x62] := by
  refine (path_slicing_iff pathAB_isString pathAB_apart 2).1.mpr ⟨.inr (by decide), [], ?_, ?_⟩
  · show pathAB _ = 0
    decide
  · simp

/-- One node of `\a\b`: the path is cut, whether one node is to be kept or
one is to be discarded. -/
theorem path_slicing_cuts : ¬KeepsNodes pathAB 0x1000 1 0x2000 [0x5C, 0x61, 0x5C, 0x62]
    ∧ ¬DiscardsNodes pathAB 0x1000 1 0x2000 [0x5C, 0x61, 0x5C, 0x62] := by
  rw [keepsNodes_iff pathAB_isString pathAB_apart,
    discardsNodes_iff pathAB_isString pathAB_apart]
  constructor
  · rintro ⟨hall, -⟩
    exact absurd hall (by unfold CopiesAll; decide)
  · rintro ⟨hnone, -⟩
    exact absurd hnone (by decide)

end SpKernel
