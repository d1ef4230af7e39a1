import SpKernel.Runs

/-!
# Searching for children

A search is a call of `_pcb_find_child_of` with a PID and then calls with
-1 until there is no further child. Its callers change the `ppid` of
children it has returned; the search is ahead of those, so it returns the
PCBs that had the `ppid` at the start, once each and in the order of the
table (`searchChildren_spec`). It may start with the statics as any other
search has left them.

`CallerChange` is what a caller may do between two calls: anything to
PCBs that have been returned, and nothing to the `ppid` of those further
up (`CallerChange.kidsFrom`). The reparenting of `_zombify` is such a
caller (`adoptLast_change`), and its loop is this search
(`reparentLoop_eq_search`).

`child_search` says it of every state of every run of the kernel, and
that in no run the iterator is told to go on with a search that has not
begun, which is the panic it has.
-/

namespace SpKernel

open Lib

/-- What a caller does between two calls: the `ppid`s of the PCBs that have been
returned may change, and anything else but the iterator's statics and the other
`ppid`s. -/
structure CallerChange (returned : List PcbId) (k k' : Kernel) : Prop where
  childCurr : k'.childCurr = k.childCurr
  childTarget : k'.childTarget = k.childTarget
  ppid : ∀ p ∉ returned, (k'.pcbs p).ppid = (k.pcbs p).ppid

/-- The calls with -1; `change` is what the caller does when it has been returned
these PCBs. -/
def searchLoop (change : List PcbId → Kernel → Kernel) :
    Nat → List PcbId → Option PcbId → Kernel → Except Fault (List PcbId × Kernel)
  | _, returned, none, k => .ok (returned, k)
  | 0, _, some _, _ => .error .diverge
  | fuel + 1, returned, some child, k => do
      let (next, k) ← pcbFindChildOf (change (returned ++ [child]) k) (-1)
      searchLoop change fuel (returned ++ [child]) next k

/-- A search, and the PCBs it returns. -/
def searchChildren (change : List PcbId → Kernel → Kernel) (k : Kernel) (ppid : Word) :
    Except Fault (List PcbId × Kernel) := do
  let (first, k) ← pcbFindChildOf k ppid
  searchLoop change nPcbs [] first k

variable {change : List PcbId → Kernel → Kernel}

/-- The PCBs behind the iterator's position have not been changed. -/
theorem CallerChange.kidsFrom {returned : List PcbId} {k k' : Kernel} {c : PcbId} {target : Word}
    (h : CallerChange (returned ++ [c]) k k') (hbefore : ∀ q ∈ returned, q < c) :
    kidsFrom k' target (c.val + 1) = SpKernel.kidsFrom k target (c.val + 1) := by
  refine kidsFrom_congr fun p hp => h.ppid p fun hmem => ?_
  rcases List.mem_append.mp hmem with hret | hc
  · have hlt : p.val < c.val := hbefore p hret
    omega
  · obtain rfl := List.mem_singleton.mp hc
    omega

theorem searchLoop_spec (hchange : ∀ returned k, CallerChange returned k (change returned k)) :
    ∀ (fuel : Nat) (l returned : List PcbId) (k : Kernel) (target : Word),
    l.length ≤ fuel → Iter k target l → (∀ q ∈ returned, ∀ p ∈ l.head?, q < p) →
    ∃ k', searchLoop change fuel returned l.head? k = .ok (returned ++ l, k')
  | _, [], returned, k, _, _, _, _ => ⟨k, by simp [searchLoop]⟩
  | 0, _ :: _, _, _, _, hlen, _, _ => absurd hlen (by simp)
  | fuel + 1, c :: l, returned, k, target, hlen, h, hbefore => by
      obtain ⟨hcurr, htgt, hkids⟩ := h
      have hstep := hchange (returned ++ [c]) k
      have hnext : kidsFrom (change (returned ++ [c]) k) target (c.val + 1) = l := by
        rw [hstep.kidsFrom fun q hq => hbefore q hq c rfl, hkids]
      have hiter := iter_iterAt (change (returned ++ [c]) k) target (c.val + 1)
      rw [hnext] at hiter
      have hahead : ∀ q ∈ returned ++ [c], ∀ p ∈ l.head?, q < p := by
        intro q hq p hp
        have hmem : p ∈ kidsFrom k target (c.val + 1) := hkids ▸ List.mem_of_mem_head? hp
        have hcp : c < p := (mem_kidsFrom.mp hmem).1
        rcases List.mem_append.mp hq with hret | hc
        · exact (hbefore q hret c rfl).trans hcp
        · rwa [List.mem_singleton.mp hc]
      obtain ⟨k', hrec⟩ := searchLoop_spec hchange fuel l (returned ++ [c]) _ target
        (by simpa using hlen) hiter hahead
      refine ⟨k', ?_⟩
      rw [List.head?_cons, searchLoop, pcbFindChildOf_next (hstep.childCurr.trans hcurr),
        hstep.childTarget, htgt, hnext, ok_bind]
      simp only [hrec, List.append_assoc, List.singleton_append]

/-- The PCBs whose `ppid` is this one, in the order of the table. -/
def childrenOf (k : Kernel) (ppid : Word) : List PcbId :=
  (List.finRange nPcbs).filter fun p => (k.pcbs p).ppid.signExtend 32 == ppid

theorem kidsFrom_eq_childrenOf (k : Kernel) (ppid : Word) : kidsFrom k ppid 0 = childrenOf k ppid :=
  List.filter_congr fun p _ => by simp

theorem searchChildren_spec (k : Kernel) {ppid : Word} (hne : ppid ≠ -1)
    (hchange : ∀ returned k, CallerChange returned k (change returned k)) :
    ∃ k', searchChildren change k ppid = .ok (childrenOf k ppid, k') := by
  obtain ⟨k', hloop⟩ := searchLoop_spec hchange nPcbs _ [] _ ppid (kidsFrom_length_le k ppid 0)
    (iter_iterAt k ppid 0) (fun q hq => absurd hq List.not_mem_nil)
  rw [List.nil_append] at hloop
  refine ⟨k', ?_⟩
  rw [searchChildren, pcbFindChildOf_start hne, ok_bind, ← kidsFrom_eq_childrenOf]
  exact hloop

/-! ## The callers -/

/-- What `_zombify` does with a child it has been returned. -/
def adoptLast (returned : List PcbId) (k : Kernel) : Kernel :=
  match returned.getLast? with
  | none => k
  | some child => adopt k child

theorem adoptLast_change (returned : List PcbId) (k : Kernel) :
    CallerChange returned k (adoptLast returned k) := by
  rw [adoptLast]
  cases h : returned.getLast? with
  | none => exact ⟨rfl, rfl, fun _ _ => rfl⟩
  | some child =>
      refine ⟨rfl, rfl, fun p hp => ?_⟩
      have hne : p ≠ child := by
        rintro rfl
        exact hp (List.mem_of_getLast? h)
      simp only [adopt_pcbs, if_neg hne]

theorem reparentLoop_eq_search : ∀ (fuel : Nat) (returned : List PcbId) (k : Kernel)
    (child : Option PcbId),
    reparentLoop fuel k child = (searchLoop adoptLast fuel returned child k).map Prod.snd
  | _, _, _, none => by
      rw [reparentLoop, searchLoop]
      rfl
  | 0, _, _, some _ => rfl
  | fuel + 1, returned, k, some child => by
      have hlast : adoptLast (returned ++ [child]) k = adopt k child := by
        rw [adoptLast, List.getLast?_concat]
      rw [reparentLoop, searchLoop, hlast]
      cases pcbFindChildOf (adopt k child) (-1) with
      | error e => rfl
      | ok x => exact reparentLoop_eq_search fuel (returned ++ [child]) x.2 x.1

/-- Whatever its callers do to the `ppid`s of PCBs it has returned, a search
returns the children there were when it began. In no run of the system is it
told to go on with a search that has not begun. -/
theorem child_search :
    (∀ (change : List PcbId → Kernel → Kernel) (k : Kernel) (ppid : Word), ppid ≠ -1 →
      (∀ returned k, CallerChange returned k (change returned k)) →
      ∃ k', searchChildren change k ppid = .ok (childrenOf k ppid, k'))
    ∧ ∀ (image : Image) (mm : MemMgr) (pages : Nat) (k₀ k : Kernel) (tr : List (Kernel × Event))
        (e : Event), init image mm pages = .ok k₀ → Steps step k₀ tr k →
        step k e ≠ .error (.kpanic "_pcb_find_child_of" "ppid -1 but curr NULL") := by
  refine ⟨fun change k ppid hne hchange => searchChildren_spec k hne hchange, ?_⟩
  intro image mm pages k₀ k tr e h0 hrun hstep
  have hexp := (reachable_good h0 hrun).expected hstep
  simp [Fault.Expected] at hexp

/-- `init` has forked twice, and its children are handed on. -/
theorem child_search_adopt : ∃ k₀ tr k k', init someImage lowPageUsed 0 = .ok k₀
    ∧ Steps step k₀ tr k ∧ childrenOf k 1 = [0, 1, 2]
    ∧ searchChildren adoptLast k 1 = .ok (childrenOf k 1, k')
    ∧ step k (call 0 0 0 0)
      ≠ .error (.kpanic "_pcb_find_child_of" "ppid -1 but curr NULL") := by
  obtain ⟨k₀, tr, k, h0, hrun, -, ht⟩ := run_of_test [call 3 0 0 0, call 3 0 0 0]
    (fun k => decide (childrenOf k 1 = [0, 1, 2])) (by decide +kernel)
  obtain ⟨k', hk'⟩ := child_search.1 adoptLast k 1 (by decide) adoptLast_change
  exact ⟨k₀, tr, k, k', h0, hrun, of_decide_eq_true ht, hk',
    child_search.2 _ _ _ k₀ k tr _ h0 hrun⟩

end SpKernel
