import SpKernel.QueueSound

/-!
# Queues without their heap

`QPool` is the queue module as its callers see it: the number of free
nodes and, for every queue, the list of its entries. Each operation of
`queue.c` computes the `QPool` operation of the same name on every heap
that represents the pool (`Refines`), so the kernel modules above are
modelled over `QPool` and need no pointers: `qEnque_refines`,
`qPeek_refines`, `qDeque_refines` and `qRemove_refines`, each with the
status that the call returns.

Entries are typed by their queue: the `void *` casts of the source only
ever recover the type an entry was stored with. `emb` embeds them into
the one pointer type of the heap. It is injective, and the comparison
function sees an embedded entry as the entry itself; insertion into a
list commutes with such a change of representation (`map_insertItem`).

The lemmas about `insertItem` (who is in the list afterwards, that nobody
is in it twice, its length) are those that the modules of the kernel use.
-/

namespace SpKernel

open Function (update update_self update_of_ne)
open Lib

/-- The free nodes and the entries of every queue, front first. -/
structure QPool (ι : Type) (β : ι → Type) where
  nodes : Nat
  items : (q : ι) → List (β q)

/-- Where an entry goes: to the end of a FIFO queue, behind every entry
that does not compare greater in an ordered one. -/
def insertItem {β : Type} (ord : Option (β → β → Int)) (d : β) (l : List β) : List β :=
  match ord with
  | none => l ++ [d]
  | some c => l.takeWhile (fun x => decide (0 ≤ c d x))
      ++ d :: l.dropWhile (fun x => decide (0 ≤ c d x))

namespace QPool

variable {ι : Type} {β : ι → Type} [DecidableEq ι]

/-- `_q_enque` -/
def enque (P : QPool ι β) (q : ι) (ord : Option (β q → β q → Int)) (d : β q) :
    Status × QPool ι β :=
  if P.nodes = 0 then (.noQnodes, P)
  else (.success, { nodes := P.nodes - 1
                    items := update P.items q (insertItem ord d (P.items q)) })

/-- `_q_peek` -/
def peek (P : QPool ι β) (q : ι) : Status × Option (β q) :=
  match P.items q with
  | [] => (.emptyQueue, none)
  | d :: _ => (.success, some d)

/-- `_q_deque` -/
def deque (P : QPool ι β) (q : ι) : Status × Option (β q) × QPool ι β :=
  match P.items q with
  | [] => (.emptyQueue, none, P)
  | d :: l => (.success, some d, { nodes := P.nodes + 1, items := update P.items q l })

/-- `_q_remove` -/
def remove (P : QPool ι β) (q : ι) [DecidableEq (β q)] (d : β q) : Status × QPool ι β :=
  if d ∈ P.items q then
    (.success, { nodes := P.nodes + 1, items := update P.items q ((P.items q).erase d) })
  else (.noProcess, P)

/-- `_q_size` -/
def size (P : QPool ι β) (q : ι) : Nat := (P.items q).length

end QPool

/-! ## Insertion commutes with a change of representation -/

theorem mem_insertItem {β : Type} {ord : Option (β → β → Int)} {d x : β} {l : List β} :
    x ∈ insertItem ord d l ↔ x = d ∨ x ∈ l := by
  cases ord with
  | none => simp [insertItem, or_comm]
  | some c =>
      have hl : x ∈ l ↔ x ∈ l.takeWhile (fun y => decide (0 ≤ c d y))
          ∨ x ∈ l.dropWhile (fun y => decide (0 ≤ c d y)) := by
        rw [← List.mem_append, List.takeWhile_append_dropWhile]
      simp only [insertItem, List.mem_append, List.mem_cons, hl]
      tauto

theorem nodup_insertItem {β : Type} {ord : Option (β → β → Int)} {d : β} {l : List β} :
    (insertItem ord d l).Nodup ↔ d ∉ l ∧ l.Nodup := by
  cases ord with
  | none =>
      rw [insertItem, List.nodup_append_comm, ← List.nodup_cons]
      rfl
  | some c =>
      rw [insertItem, List.nodup_middle, List.takeWhile_append_dropWhile, List.nodup_cons]

theorem length_insertItem {β : Type} (ord : Option (β → β → Int)) (d : β) (l : List β) :
    (insertItem ord d l).length = l.length + 1 := by
  cases ord with
  | none => simp [insertItem]
  | some c =>
      have hl : (l.takeWhile fun y => decide (0 ≤ c d y)).length
          + (l.dropWhile fun y => decide (0 ≤ c d y)).length = l.length := by
        rw [← List.length_append, List.takeWhile_append_dropWhile]
      simp only [insertItem, List.length_append, List.length_cons]
      omega

theorem map_insertItem {β γ : Type} (f : β → γ) (ord : Option (γ → γ → Int)) (d : β)
    (l : List β) :
    (insertItem (ord.map fun c x y => c (f x) (f y)) d l).map f
      = insertItem ord (f d) (l.map f) := by
  cases ord with
  | none => simp [insertItem]
  | some c => simp [insertItem, List.takeWhile_map, List.dropWhile_map, Function.comp_def]

/-! ## Refinement -/

variable {ι α κ : Type} {β : ι → Type} [DecidableEq ι]

/-- The heap represents the pool, entry `x` of queue `q` by the pointer
`emb q x`. -/
def Refines (emb : (q : ι) → β q → α) (h : QHeap ι α κ) (P : QPool ι β) : Prop :=
  ∃ free chain, Rep h free chain ∧ free.length = P.nodes
    ∧ ∀ q, items h chain q = (P.items q).map fun x => some (emb q x)

omit [DecidableEq ι] in
/-- Writing the data of nodes outside a chain does not change its entries. -/
theorem items_update {h h' : QHeap ι α κ} {chain : ι → List QPtr} {n : QPtr}
    {d : Option α} (hd : h'.data = update h.data n d) {q : ι} (hn : n ∉ chain q) :
    items h' chain q = items h chain q := by
  simp only [items, hd]
  refine List.map_congr_left fun m hm => update_of_ne (fun (he : m = n) => hn ?_) ..
  exact he ▸ hm

theorem Enqueued.items_eq {cmpf : κ → Option α → Option α → Int} {h h' : QHeap ι α κ}
    {chain chain' : ι → List QPtr} {q : ι} {d : Option α} {new : QPtr}
    {rest : List QPtr} (R : Rep h (new :: rest) chain)
    (hE : Enqueued cmpf h h' chain q d new rest)
    (hchain : chain' = update chain q
      ((spot ((h.ques q).cmp.map cmpf) d h'.data (chain q)).1
        ++ new :: (spot ((h.ques q).cmp.map cmpf) d h'.data (chain q)).2)) :
    items h' chain' =
      update (items h chain) q
        (insertItem ((h.ques q).cmp.map cmpf) d (items h chain q)) := by
  have hold : ∀ q', items h' chain q' = items h chain q' := fun q' =>
    items_update hE.data (R.freeApart q' new (List.mem_cons_self ..))
  funext q'
  rcases eq_or_ne q' q with rfl | hne
  · rw [update_self, ← hold, hchain, items, update_self, List.map_append, List.map_cons,
      show h'.data new = d from by rw [hE.data, update_self]]
    cases (h.ques q').cmp with
    | none => simp [spot, insertItem, items]
    | some c =>
        simp [spot, insertItem, items, List.takeWhile_map, List.dropWhile_map,
          Function.comp_def]
  · rw [update_of_ne hne, ← hold, hchain, items, update_of_ne hne]
    rfl

theorem qEnque_refines {emb : (q : ι) → β q → α} {h : QHeap ι α κ} {P : QPool ι β}
    (hR : Refines emb h P) (cmpf : κ → Option α → Option α → Int) (q : ι) (d : β q) :
    ∃ h', qEnque cmpf h (some q) (some (emb q d))
        = .ok ((P.enque q ((h.ques q).cmp.map fun c x y =>
            cmpf c (some (emb q x)) (some (emb q y))) d).1, h')
      ∧ Refines emb h' (P.enque q ((h.ques q).cmp.map fun c x y =>
            cmpf c (some (emb q x)) (some (emb q y))) d).2 := by
  obtain ⟨free, chain, R, hlen, hitems⟩ := hR
  rcases qEnque_spec R cmpf q (some (emb q d)) with ⟨rfl, he⟩ | ⟨new, rest, h', rfl, he, hE⟩
  · have hn : P.nodes = 0 := hlen.symm
    simp only [QPool.enque, hn, ↓reduceIte]
    exact ⟨h, he, [], chain, R, hlen, hitems⟩
  · have hn : P.nodes ≠ 0 := by rw [← hlen]; simp
    simp only [QPool.enque, hn, ↓reduceIte]
    refine ⟨h', he, rest, _, hE.rep, ?_, fun q' => ?_⟩
    · simp [← hlen]
    · rw [hE.items_eq R rfl]
      dsimp only
      rcases eq_or_ne q' q with rfl | hne
      · rw [update_self, update_self, hitems]
        have := map_insertItem (fun x => some (emb q' x)) ((h.ques q').cmp.map cmpf) d
          (P.items q')
        rw [← this, Option.map_map]
        rfl
      · rw [update_of_ne hne, update_of_ne hne, hitems]

omit [DecidableEq ι] in
theorem qPeek_refines {emb : (q : ι) → β q → α} {h : QHeap ι α κ} {P : QPool ι β}
    (hR : Refines emb h P) (q : ι) (old : Option α) :
    qPeek h (some q) (some old)
      = .ok ((P.peek q).1, ((P.peek q).2.map (emb q)).or old) := by
  obtain ⟨free, chain, R, -, hitems⟩ := hR
  have hq := hitems q
  rw [qPeek_spec R q old]
  cases hc : chain q with
  | nil =>
      have hP : P.items q = [] := by
        rw [items, hc, List.map_nil] at hq
        exact List.map_eq_nil_iff.mp hq.symm
      simp [QPool.peek, hP]
  | cons n l =>
      cases hP : P.items q with
      | nil => simp [items, hc, hP] at hq
      | cons d m =>
          have hd : h.data n = some (emb q d) := by
            simpa [items, hc, hP] using (congrArg List.head? hq)
          simp [QPool.peek, hP, hd]

theorem Removed.items_eq {h h' : QHeap ι α κ} {chain : ι → List QPtr} {q : ι} {n : QPtr}
    {free l₁ l₂ : List QPtr} (R : Rep h free chain) (hq : chain q = l₁ ++ n :: l₂)
    (hR : Removed h h' chain q n free (l₁ ++ l₂)) :
    items h' (update chain q (l₁ ++ l₂))
      = update (items h chain) q ((l₁ ++ l₂).map h.data) := by
  have hnot : n ∉ l₁ ++ l₂ :=
    (List.nodup_middle.mp (hq ▸ R.nodup q) |> List.nodup_cons.mp).1
  funext q'
  have hout : n ∉ update chain q (l₁ ++ l₂) q' := by
    rcases eq_or_ne q' q with rfl | hne
    · rwa [update_self]
    · rw [update_of_ne hne]
      exact fun hc => hne (R.apart _ _ n hc (by simp [hq]))
  rw [items_update hR.data hout]
  rcases eq_or_ne q' q with rfl | hne
  · rw [items, update_self, update_self]
  · rw [items, update_of_ne hne, update_of_ne hne, items]

/-- `_q_deque` computes the pool's removal of the first entry. -/
theorem qDeque_refines {emb : (q : ι) → β q → α} {h : QHeap ι α κ} {P : QPool ι β}
    (hR : Refines emb h P) (q : ι) (old : Option α) :
    ∃ h', qDeque h (some q) (some old)
        = .ok ((P.deque q).1, ((P.deque q).2.1.map (emb q)).or old, h')
      ∧ Refines emb h' (P.deque q).2.2 := by
  obtain ⟨free, chain, R, hlen, hitems⟩ := hR
  have hq := hitems q
  cases hc : chain q with
  | nil =>
      have hP : P.items q = [] := by
        rw [items, hc, List.map_nil] at hq
        exact List.map_eq_nil_iff.mp hq.symm
      simp only [QPool.deque, hP]
      exact ⟨h, qDeque_nil R hc old, free, chain, R, hlen, hitems⟩
  | cons n l =>
      cases hP : P.items q with
      | nil => simp [items, hc, hP] at hq
      | cons d m =>
          simp only [items, hc, hP, List.map_cons, List.cons.injEq] at hq
          obtain ⟨h', he, hRm⟩ := qDeque_cons R hc old
          simp only [QPool.deque, hP]
          refine ⟨h', ?_, n :: free, _, hRm.rep, by simp [hlen], fun q' => ?_⟩
          · rw [he, hq.1]
            rfl
          · rw [← List.nil_append (n :: l)] at hc
            rw [← List.nil_append l, Removed.items_eq R hc hRm]
            dsimp only
            rcases eq_or_ne q' q with rfl | hne
            · rw [update_self, update_self]
              exact hq.2
            · rw [update_of_ne hne, update_of_ne hne, hitems]

/-- `_q_remove` computes the pool's removal of an entry. -/
theorem qRemove_refines [DecidableEq α] {emb : (q : ι) → β q → α} {h : QHeap ι α κ}
    {P : QPool ι β} (hR : Refines emb h P) (q : ι) [DecidableEq (β q)]
    (hemb : Function.Injective (emb q)) (d : β q) :
    ∃ h', qRemove h (some q) (some (emb q d)) = .ok ((P.remove q d).1, h')
      ∧ Refines emb h' (P.remove q d).2 := by
  obtain ⟨free, chain, R, hlen, hitems⟩ := hR
  have hinj : Function.Injective fun x => some (emb q x) :=
    fun _ _ he => hemb (Option.some.inj he)
  have hmem : some (emb q d) ∈ items h chain q ↔ d ∈ P.items q := by
    rw [hitems]
    exact List.mem_map_of_injective hinj
  rcases qRemove_spec R q (some (emb q d)) with
    ⟨hnot, he⟩ | ⟨l₁, n, l₂, h', hc, hl₁, hn, he, hRm⟩
  · have hd : d ∉ P.items q := fun hd => hnot (hmem.mpr hd)
    simp only [QPool.remove, hd, ↓reduceIte]
    exact ⟨h, he, free, chain, R, hlen, hitems⟩
  · have hd : d ∈ P.items q := by
      rw [← hmem, items, hc, ← hn]
      exact List.mem_map_of_mem (by simp)
    simp only [QPool.remove, hd, ↓reduceIte]
    refine ⟨h', he, n :: free, _, hRm.rep, by simp [hlen], fun q' => ?_⟩
    rw [Removed.items_eq R hc hRm]
    dsimp only
    rcases eq_or_ne q' q with rfl | hne
    · rw [update_self, update_self, List.map_erase hinj, ← hitems, items, hc,
        List.map_append, List.map_append, List.map_cons, hn,
        List.erase_append_right _ hl₁, List.erase_cons_head]
    · rw [update_of_ne hne, update_of_ne hne, hitems]

end SpKernel
