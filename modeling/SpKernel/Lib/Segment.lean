import Mathlib

/-!
# Segments of singly linked structures

A heap of nodes is a successor map `next : ν → Option ν`, `none` being
the null link. `Seg next p l q` says that following `next` from `p`
visits exactly the nodes `l`, in order, and arrives at `q`. A
null-terminated list is a segment ending in `none`; an insertion or a
removal cuts one segment at a link and glues two (`seg_append`).

The map is functional, so a segment is determined by its two ends
(`Seg.det`) and a null-terminated one cannot revisit a node
(`Seg.nodup`): acyclicity is a consequence, not a separate clause. A
write outside the segment leaves it alone (`Seg.frame`); `Seg.insert` and
`Seg.remove` are the two ways a list changes shape.

The library says nothing about what a node holds, nor about the pointers
that lead into a list from outside; both are the business of the
structure that is built on it.
-/

namespace SpKernel.Lib

variable {ν : Type*}

/-- Following `next` from `p` visits the nodes `l` and arrives at `q`. -/
def Seg (next : ν → Option ν) : Option ν → List ν → Option ν → Prop
  | p, [], q => p = q
  | p, n :: l, q => p = some n ∧ Seg next (next n) l q

theorem seg_cons {next : ν → Option ν} {p q : Option ν} {n : ν} {l : List ν} :
    Seg next p (n :: l) q ↔ p = some n ∧ Seg next (next n) l q := Iff.rfl

theorem seg_append {next : ν → Option ν} {q : Option ν} {m : List ν} :
    ∀ {l : List ν} {p : Option ν},
      Seg next p (l ++ m) q ↔ ∃ r, Seg next p l r ∧ Seg next r m q
  | [], p => by simp [Seg]
  | n :: l, p => by
      simp only [List.cons_append, seg_cons, seg_append (l := l)]
      exact ⟨fun ⟨hp, r, h1, h2⟩ => ⟨r, ⟨hp, h1⟩, h2⟩,
        fun ⟨r, ⟨hp, h1⟩, h2⟩ => ⟨hp, r, h1, h2⟩⟩

theorem Seg.head {next : ν → Option ν} {p : Option ν} {l : List ν}
    (h : Seg next p l none) : p = l.head? := by
  cases l with
  | nil => exact h
  | cons n l => exact h.1

/-- Two null-terminated segments from one start are the same. -/
theorem Seg.det {next : ν → Option ν} :
    ∀ {l m : List ν} {p : Option ν}, Seg next p l none → Seg next p m none →
      l = m
  | [], [], _, _, _ => rfl
  | [], _ :: _, _, hl, hm => by cases hl.symm.trans hm.1
  | _ :: _, [], _, hl, hm => by cases hm.symm.trans hl.1
  | a :: l, b :: m, _, hl, hm => by
      obtain rfl : a = b := Option.some.inj (hl.1.symm.trans hm.1)
      rw [Seg.det hl.2 hm.2]

/-- A null-terminated segment never revisits a node: the rest of the
segment after two visits of one node would have two lengths. -/
theorem Seg.nodup {next : ν → Option ν} :
    ∀ {l : List ν} {p : Option ν}, Seg next p l none → l.Nodup
  | [], _, _ => List.nodup_nil
  | n :: l, _, h => by
      refine List.nodup_cons.mpr ⟨fun hn => ?_, Seg.nodup h.2⟩
      obtain ⟨l₁, l₂, rfl⟩ := List.append_of_mem hn
      obtain ⟨r, -, hr⟩ := seg_append.mp h.2
      have hlen := congrArg List.length (Seg.det h.2 hr.2)
      simp only [List.length_append, List.length_cons] at hlen
      omega

/-- A segment only depends on the links of its own nodes. -/
theorem Seg.frame {next next' : ν → Option ν} {q : Option ν} :
    ∀ {l : List ν} {p : Option ν}, Seg next p l q →
      (∀ n ∈ l, next' n = next n) → Seg next' p l q
  | [], _, h, _ => h
  | n :: l, _, h, hf => by
      refine ⟨h.1, ?_⟩
      rw [hf n (List.mem_cons_self ..)]
      exact h.2.frame fun m hm => hf m (List.mem_cons_of_mem _ hm)

theorem Seg.frame_head {next next' : ν → Option ν} {l : List ν} {p : Option ν}
    (h : Seg next p l none) (hf : ∀ n ∈ l, next' n = next n) :
    Seg next' l.head? l none := by
  rw [← h.head]
  exact h.frame hf

/-! ## Linking a node in and out

Both rules describe the new successor map by what it does to the three
places involved: the node itself, the last node before it, and every
other node of the list. -/

theorem Seg.insert {next next' : ν → Option ν} {n : ν} {l₂ : List ν} :
    ∀ {l₁ : List ν} {p : Option ν}, Seg next p (l₁ ++ l₂) none →
      (l₁ ++ l₂).Nodup →
      (∀ m ∈ l₁ ++ l₂, l₁.getLast? ≠ some m → next' m = next m) →
      (∀ m, l₁.getLast? = some m → next' m = some n) →
      next' n = l₂.head? →
      Seg next' (l₁ ++ n :: l₂).head? (l₁ ++ n :: l₂) none
  | [], p, h, _, hsame, _, hnew => by
      refine ⟨rfl, ?_⟩
      rw [hnew]
      exact Seg.frame_head h fun m hm => hsame m hm (by simp)
  | [a], p, h, hnd, hsame, hlast, hnew => by
      have ha : a ∉ l₂ := (List.nodup_cons.mp hnd).1
      refine ⟨rfl, hlast a rfl, ?_⟩
      rw [hnew]
      refine Seg.frame_head h.2 fun m hm => hsame m (List.mem_cons_of_mem _ hm) ?_
      rintro ⟨rfl⟩
      exact ha hm
  | a :: b :: l, p, h, hnd, hsame, hlast, hnew => by
      have ha : a ∉ b :: l ++ l₂ := (List.nodup_cons.mp hnd).1
      have hnext : next' a = some b := by
        rw [hsame a (List.mem_cons_self ..) fun hl => ?_]
        · exact h.2.1
        · rw [List.getLast?_cons_cons] at hl
          exact ha (List.mem_append_left _ (List.mem_of_getLast? hl))
      refine ⟨rfl, ?_⟩
      rw [hnext]
      have htail : Seg next (next a) ((b :: l) ++ l₂) none := h.2
      refine htail.insert (List.nodup_cons.mp hnd).2 ?_ ?_ hnew
      · intro m hm hl
        exact hsame m (List.mem_cons_of_mem _ hm) (by rwa [List.getLast?_cons_cons])
      · intro m hm
        exact hlast m (by rwa [List.getLast?_cons_cons])

theorem Seg.remove {next next' : ν → Option ν} {n : ν} {l₂ : List ν} :
    ∀ {l₁ : List ν} {p : Option ν}, Seg next p (l₁ ++ n :: l₂) none →
      (l₁ ++ n :: l₂).Nodup →
      (∀ m ∈ l₁ ++ l₂, l₁.getLast? ≠ some m → next' m = next m) →
      (∀ m, l₁.getLast? = some m → next' m = l₂.head?) →
      Seg next' (l₁ ++ l₂).head? (l₁ ++ l₂) none
  | [], p, h, _, hsame, _ => by
      exact Seg.frame_head h.2 fun m hm => hsame m hm (by simp)
  | [a], p, h, hnd, hsame, hlast => by
      have ha : a ∉ n :: l₂ := (List.nodup_cons.mp hnd).1
      refine ⟨rfl, ?_⟩
      rw [hlast a rfl]
      refine Seg.frame_head h.2.2 fun m hm => hsame m (List.mem_cons_of_mem _ hm) ?_
      rintro ⟨rfl⟩
      exact ha (List.mem_cons_of_mem _ hm)
  | a :: b :: l, p, h, hnd, hsame, hlast => by
      have ha : a ∉ b :: l ++ n :: l₂ := (List.nodup_cons.mp hnd).1
      have hnext : next' a = some b := by
        rw [hsame a (List.mem_cons_self ..) fun hl => ?_]
        · exact h.2.1
        · rw [List.getLast?_cons_cons] at hl
          exact ha (List.mem_append_left _ (List.mem_of_getLast? hl))
      refine ⟨rfl, ?_⟩
      rw [hnext]
      have htail : Seg next (next a) ((b :: l) ++ n :: l₂) none := h.2
      refine htail.remove (List.nodup_cons.mp hnd).2 ?_ ?_
      · intro m hm hl
        exact hsame m (List.mem_cons_of_mem _ hm) (by rwa [List.getLast?_cons_cons])
      · intro m hm
        exact hlast m (by rwa [List.getLast?_cons_cons])

end SpKernel.Lib
