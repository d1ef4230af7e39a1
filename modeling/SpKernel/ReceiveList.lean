import SpKernel.CommandRing
import SpKernel.Runs

/-!
# The list of receive descriptors (`intel.c`)

The card stores the frames it receives in descriptors, one to a page,
that are linked to a list. It fills them along the links and stops after
the one with the end-list bit, the last. For each it fills there is an
interrupt, which moves `rfa.next` on; `nic_rx_daemon` takes descriptors
from the head as long as that is not `rfa.next`, and puts a new one
behind the tail for each.

The list has room for 1025 frames. If that many come in before the daemon
runs, the last interrupt takes `rfa.next` past the tail, to `NULL`. That
is the only way the list gets out of order (`receive_list_sound_iff`).

`Listed` is the invariant: the descriptors from the head to the tail are
a chain of pages in use (`PageChain`), `rfa.next` and the card are
somewhere on it, and only the last has the end-list bit. The card keeps
it (`Listed.fill`), so does an iteration of the daemon
(`Listed.iterate`), which takes a page off at one end and adds a new one
at the other, and so does an interrupt that does not pass the tail
(`Listed.handler`). The initialisation builds such a list
(`initRfa_listed`).

The card and the interrupts run between two iterations of the daemon.
-/

namespace SpKernel

open Function (update update_self update_of_ne)
open Lib

abbrev totalRfd : Nat := 1024
/-- `NET_INTEL_RFD_SIZE` -/
abbrev rfdSize : Half := 3096#16
/-- the end-list bit of a descriptor -/
abbrev rfdEl : Half := 0x8000#16
abbrev ackFr : Byte := 0x40#8

/-- `rfd_t`, its header -/
structure Rfd where
  status : Half
  command : Half
  link : Word
  count : Half
  size : Half

/-- `nic->rfa` and the descriptors. -/
structure Rfa where
  rfds : Word → Rfd
  head : Word
  next : Word
  tail : Word

def Rfa.link (r : Rfa) : Word → Word := fun a => (r.rfds a).link

/-- A descriptor whose header has been cleared and set up. -/
def Rfa.setRfd (r : Rfa) (a : Word) (command : Half) : Rfa :=
  { r with rfds := update r.rfds a ⟨0, command, 0, 0, rfdSize⟩ }

def Rfa.setLink (r : Rfa) (a next : Word) : Rfa :=
  { r with rfds := update r.rfds a { r.rfds a with link := next } }

/-- The loop of `init_rfa`: the last page, and the state. -/
def initRfaLoop : Nat → Word → Rfa → MemMgr → Except Fault (Word × Rfa × MemMgr)
  | 0, curr, r, mm => .ok (curr, r, mm)
  | n + 1, curr, r, mm => do
      let r := r.setRfd curr 8
      let (page, mm) ← getNextPage mm
      initRfaLoop n page (r.setLink curr page) mm

def initRfa (r : Rfa) (numRfd : Nat) (mm : MemMgr) : Except Fault (Rfa × MemMgr) := do
  let (first, mm) ← getNextPage mm
  let (curr, r, mm) ← initRfaLoop numRfd first { r with head := first, next := first } mm
  let r := r.setRfd curr (0x8000 ||| 8) -- last in the list
  .ok ({ r with tail := curr }, mm)

/-- `intel_nic_handler`, what it does about the list. -/
def intelNicHandler (r : Rfa) (statAck : Byte) : Rfa :=
  if statAck &&& ackFr ≠ 0 then
    let rfd := r.rfds r.next
    { r with
      rfds := update r.rfds r.next { rfd with count := rfd.count &&& ~~~0x8000 &&& ~~~0x4000 }
      next := rfd.link }
  else r

def makeNewTail (r : Rfa) (mm : MemMgr) : Except Fault (Word × Rfa × MemMgr) := do
  let (curr, mm) ← getNextPage mm
  .ok (curr, r.setRfd curr (0x8000 ||| 8), mm)

/-- An iteration of `nic_rx_daemon`, after it has looked at the frame. -/
def rxIterate (r : Rfa) (mm : MemMgr) : Except Fault (Rfa × MemMgr) :=
  if r.head = r.next then .ok (r, mm)
  else do
    let rfd := r.head
    let r := { r with head := r.link rfd }
    let mm := (freePage mm rfd).2
    let (new, r, mm) ← makeNewTail r mm
    let r := r.setLink r.tail new
    let tail := r.rfds r.tail
    let r := { r with
      rfds := update r.rfds r.tail { tail with command := tail.command &&& ~~~rfdEl } }
    .ok ({ r with tail := r.link r.tail }, mm)

/-! ## The driver and the receive unit -/

/-- The receive unit. -/
inductive Ru where
  | idle
  | ready (rfd : Word)
  | noResources

structure Receiver where
  rfa : Rfa
  mm : MemMgr
  ru : Ru
  /-- descriptors filled, with their interrupts still to come -/
  pending : Nat

inductive RxEvent where
  /-- `intel_nic_enable_rx` -/
  | enable
  /-- the card stores a frame -/
  | fill (status count : Half)
  | interrupt (statAck : Byte)
  | iterate

/-- The card fills a descriptor, and goes on to the next unless it was the
last. -/
def Receiver.fill (s : Receiver) (status count : Half) : Receiver :=
  match s.ru with
  | .ready a =>
      let rfd := s.rfa.rfds a
      { s with
        rfa := { s.rfa with
          rfds := update s.rfa.rfds a { rfd with status := status, count := count } }
        ru := if rfd.command &&& rfdEl = 0 then .ready rfd.link else .noResources
        pending := s.pending + 1 }
  | _ => s

/-- An interrupt; the card reports a frame once for each descriptor filled. -/
def Receiver.interrupt (s : Receiver) (statAck : Byte) : Receiver :=
  if statAck &&& ackFr = 0 then { s with rfa := intelNicHandler s.rfa statAck }
  else
    match s.pending with
    | 0 => s
    | n + 1 => { s with rfa := intelNicHandler s.rfa statAck, pending := n }

def rxStep (s : Receiver) : RxEvent → Except Fault Receiver
  | .enable =>
      match s.ru with
      | .idle => .ok { s with ru := .ready s.rfa.next }
      | _ => .ok s
  | .fill status count => .ok (s.fill status count)
  | .interrupt statAck => .ok (s.interrupt statAck)
  | .iterate => do
      let (rfa, mm) ← rxIterate s.rfa s.mm
      .ok { s with rfa := rfa, mm := mm }

/-! ## Chains of pages -/

/-- `m + 1` pages in use, each linked to the next; page 0 is none of them. -/
structure PageChain (link : Word → Word) (first : Word) (m : Nat) (mm : MemMgr) : Prop where
  chain : Chained link first m
  used : ∀ i ≤ m, patBit mm (pageOf (link^[i] first)) = true
  aligned : ∀ i ≤ m, PageAligned (link^[i] first)
  above : ∀ i ≤ m, pageOf (link^[i] first) ≠ 0
  zero : patBit mm 0 = true
  cursor : mm.lastAvailible < patSize

namespace PageChain

variable {link : Word → Word} {first page : Word} {m i : Nat} {mm mm' : MemMgr}

theorem start (hzero : patBit mm 0 = true) (ht : Taken mm page mm') :
    PageChain link page 0 mm' := by
  have habove : pageOf page ≠ 0 := by
    intro h0
    have := ht.wasFree
    rw [h0, hzero] at this
    cases this
  refine ⟨chained_zero, fun i hi => ?_, fun i hi => ?_, fun i hi => ?_, ?_, ht.cursor⟩
  · obtain rfl := Nat.le_zero.mp hi
    rw [Function.iterate_zero_apply, ht.bits]
    simp
  · obtain rfl := Nat.le_zero.mp hi
    exact ht.aligned
  · obtain rfl := Nat.le_zero.mp hi
    exact habove
  · rw [ht.bits, hzero, Bool.or_true]

theorem ne_taken (h : PageChain link first m mm) (ht : Taken mm page mm') (hi : i ≤ m) :
    link^[i] first ≠ page := by
  rintro rfl
  have := h.used i hi
  rw [ht.wasFree] at this
  cases this

theorem extend (h : PageChain link first m mm) (ht : Taken mm page mm') :
    PageChain (update link (link^[m] first) page) first (m + 1) mm' := by
  have hold : ∀ i ≤ m, (update link (link^[m] first) page)^[i] first = link^[i] first :=
    h.chain.iterate_update
  have hnew : (update link (link^[m] first) page)^[m + 1] first = page :=
    h.chain.iterate_update_last
  have hpage : PageChain link page 0 mm' := start h.zero ht
  refine ⟨h.chain.extend fun i hi => h.ne_taken ht hi, fun i hi => ?_, fun i hi => ?_,
    fun i hi => ?_, hpage.zero, ht.cursor⟩ <;> rcases Nat.lt_or_eq_of_le hi with hlt | rfl
  · rw [hold i (by omega), ht.bits, h.used i (by omega), Bool.or_true]
  · rw [hnew]
    exact hpage.used 0 (le_refl 0)
  · rw [hold i (by omega)]
    exact h.aligned i (by omega)
  · rw [hnew]
    exact ht.aligned
  · rw [hold i (by omega)]
    exact h.above i (by omega)
  · rw [hnew]
    exact hpage.above 0 (le_refl 0)

theorem release (h : PageChain link first (m + 1) mm) :
    PageChain link (link first) m (freePage mm first).2 := by
  have hstep : ∀ i, link^[i] (link first) = link^[i + 1] first :=
    fun i => (Function.iterate_succ_apply link i first).symm
  have hfirst := h.aligned 0 (Nat.zero_le _)
  rw [Function.iterate_zero_apply] at hfirst
  rw [freePage_aligned hfirst]
  refine ⟨fun i j hij hj => ?_, fun i hi => ?_, fun i hi => ?_, fun i hi => ?_, ?_, h.cursor⟩
  · rw [hstep, hstep]
    exact h.chain (i + 1) (j + 1) (by omega) (by omega)
  · rw [hstep, patBit_clear, h.used (i + 1) (by omega), Bool.and_true]
    have hne : pageOf (link^[i + 1] first) ≠ pageOf first := by
      intro he
      exact h.chain 0 (i + 1) (Nat.succ_pos i) (by omega)
        (pageOf_inj hfirst (h.aligned (i + 1) (by omega)) he.symm)
    rw [decide_eq_false hne, Bool.not_false]
  · rw [hstep]
    exact h.aligned (i + 1) (by omega)
  · rw [hstep]
    exact h.above (i + 1) (by omega)
  · rw [patBit_clear, h.zero, Bool.and_true]
    have := h.above 0 (Nat.zero_le _)
    simpa using this.symm

theorem of_eq {link' : Word → Word} (h : PageChain link first m mm)
    (hold : ∀ i ≤ m, link'^[i] first = link^[i] first) : PageChain link' first m mm := by
  refine ⟨fun i k hik hk => ?_, fun i hi => ?_, fun i hi => ?_, fun i hi => ?_, h.zero, h.cursor⟩
  · rw [hold i (by omega), hold k hk]
    exact h.chain i k hik hk
  · rw [hold i hi]
    exact h.used i hi
  · rw [hold i hi]
    exact h.aligned i hi
  · rw [hold i hi]
    exact h.above i hi

theorem update_of_ne {a y : Word} (h : PageChain link first m mm)
    (ha : ∀ i ≤ m, link^[i] first ≠ a) : PageChain (update link a y) first m mm :=
  h.of_eq (iterate_update_of_ne fun i hi => ha i (by omega))

theorem update_last {y : Word} (h : PageChain link first m mm) :
    PageChain (update link (link^[m] first) y) first m mm :=
  h.of_eq h.chain.iterate_update

end PageChain

/-! ## The list -/

variable {r r' : Rfa} {mm mm' : MemMgr} {m j : Nat}

/-- The list is in order: from `rfa.head` on a list of pages in use, with
`rfa.next` one of them and `rfa.tail` the last, which alone has the end-list
bit. -/
def ListSound (r : Rfa) (mm : MemMgr) : Prop :=
  ∃ m j, j ≤ m ∧ r.next = r.link^[j] r.head ∧ r.next ≠ 0
    ∧ r.tail = r.link^[m] r.head ∧ r.link r.tail = 0
    ∧ (∀ i ≤ m, (r.rfds (r.link^[i] r.head)).command &&& rfdEl ≠ 0 ↔ i = m)
    ∧ ∀ i ≤ m, patBit mm (pageOf (r.link^[i] r.head)) = true

/-- The list has `m + 1` descriptors, and `rfa.next` is number `j`. -/
structure Listed (r : Rfa) (mm : MemMgr) (m j : Nat) : Prop where
  pages : PageChain r.link r.head m mm
  tail : r.tail = r.link^[m] r.head
  last : r.link r.tail = 0
  le : j ≤ m
  next : r.next = r.link^[j] r.head
  el : ∀ i ≤ m, (r.rfds (r.link^[i] r.head)).command &&& rfdEl ≠ 0 ↔ i = m

namespace Listed

theorem sound (h : Listed r mm m j) : ListSound r mm := by
  refine ⟨m, j, h.le, h.next, ?_, h.tail, h.last, h.el, h.pages.used⟩
  rw [h.next]
  intro h0
  exact h.pages.above j h.le (by rw [h0]; rfl)

theorem next_eq_tail_iff (h : Listed r mm m j) : r.next = r.tail ↔ j = m := by
  rw [h.next, h.tail]
  constructor
  · intro he
    by_contra hne
    exact h.pages.chain j m (Nat.lt_of_le_of_ne h.le hne) (le_refl m) he
  · rintro rfl
    rfl

/-- What is stored in the descriptors beside links and commands. -/
theorem congr {i : Nat} (h : Listed r mm m j)
    (hlink : r'.link = r.link) (hcmd : ∀ a, (r'.rfds a).command = (r.rfds a).command)
    (hhead : r'.head = r.head) (htail : r'.tail = r.tail) (hle : i ≤ m)
    (hnext : r'.next = r.link^[i] r.head) : Listed r' mm m i := by
  refine ⟨?_, ?_, ?_, hle, ?_, ?_⟩
  · rw [hlink, hhead]
    exact h.pages
  · rw [hlink, hhead, htail]
    exact h.tail
  · rw [hlink, htail]
    exact h.last
  · rw [hlink, hhead]
    exact hnext
  · rw [hlink, hhead]
    simp only [hcmd]
    exact h.el

end Listed

theorem update_header (rfds : Word → Rfd) (a : Word) (status count : Half) (b : Word) :
    (update rfds a { rfds a with status := status, count := count } b).link = (rfds b).link
    ∧ (update rfds a { rfds a with status := status, count := count } b).command
      = (rfds b).command := by
  by_cases hb : b = a
  · subst hb
    rw [update_self]
    exact ⟨rfl, rfl⟩
  · rw [update_of_ne hb]
    exact ⟨rfl, rfl⟩

theorem Listed.fill {s : Receiver} (h : Listed s.rfa s.mm m j) (status count : Half) :
    Listed (s.fill status count).rfa (s.fill status count).mm m j := by
  rw [Receiver.fill]
  split
  · rename_i a _
    have hkept := update_header s.rfa.rfds a status count
    exact h.congr (funext fun b => (hkept b).1) (fun b => (hkept b).2) rfl rfl h.le h.next
  · exact h

/-- An interrupt for a frame moves `rfa.next` to the next descriptor. -/
theorem Listed.handler (h : Listed r mm m j) {statAck : Byte} (hfr : statAck &&& ackFr ≠ 0) :
    (intelNicHandler r statAck).next = r.link r.next
    ∧ (j < m → Listed (intelNicHandler r statAck) mm m (j + 1)) := by
  rw [intelNicHandler, if_pos hfr]
  refine ⟨rfl, fun hlt => ?_⟩
  have hkept := update_header r.rfds r.next (r.rfds r.next).status
    ((r.rfds r.next).count &&& ~~~0x8000 &&& ~~~0x4000)
  refine h.congr (funext fun b => (hkept b).1) (fun b => (hkept b).2) rfl rfl hlt ?_
  rw [Function.iterate_succ_apply', ← h.next]
  rfl

theorem setRfd_link (a : Word) (command : Half) :
    (r.setRfd a command).link = update r.link a 0 := by
  funext b
  by_cases hb : b = a
  · subst hb
    simp [Rfa.setRfd, Rfa.link]
  · simp [Rfa.setRfd, Rfa.link, update_of_ne hb]

theorem rfaSetLink_link (a b : Word) : (r.setLink a b).link = update r.link a b := by
  funext c
  by_cases hc : c = a
  · subst hc
    simp [Rfa.setLink, Rfa.link]
  · simp [Rfa.setLink, Rfa.link, update_of_ne hc]

/-- The header of the old tail: linked to `page`, and no longer the last. -/
theorem relinked_link (rfds : Word → Rfd) (a page : Word) (b : Word) :
    (update (update rfds a { rfds a with link := page }) a
      { update rfds a { rfds a with link := page } a with
        command := (update rfds a { rfds a with link := page } a).command &&& ~~~rfdEl } b)
    = if b = a then { rfds a with link := page, command := (rfds a).command &&& ~~~rfdEl }
      else rfds b := by
  simp only [Function.update_apply, ↓reduceIte]
  split
  · rfl
  · rfl

/-- An iteration leaves the list alone, or takes the head away and links a new
page behind the tail. -/
theorem rxIterate_cases (hst : rxIterate r mm = .ok (r', mm')) :
    (r' = r ∧ mm' = mm)
    ∨ r.head ≠ r.next ∧ ∃ page, getNextPage (freePage mm r.head).2 = .ok (page, mm')
      ∧ r'.head = r.link r.head ∧ r'.next = r.next ∧ r'.tail = (r'.rfds r.tail).link
      ∧ (r.tail ≠ page → ∀ b, r'.rfds b = if b = r.tail then { r.rfds r.tail with
          link := page, command := (r.rfds r.tail).command &&& ~~~rfdEl }
          else if b = page then ⟨0, 0x8000 ||| 8, 0, 0, rfdSize⟩ else r.rfds b) := by
  rw [rxIterate] at hst
  split at hst
  · obtain ⟨rfl, rfl⟩ := Prod.mk.inj (Except.ok.inj hst)
    exact .inl ⟨rfl, rfl⟩
  rename_i hne
  obtain ⟨⟨new, r₁, mm₁⟩, hnew, hst⟩ := bind_eq_ok.mp hst
  obtain ⟨⟨page, mm₂⟩, hget, hnew⟩ := bind_eq_ok.mp hnew
  obtain ⟨rfl, hrest⟩ := Prod.mk.inj (Except.ok.inj hnew)
  obtain ⟨rfl, rfl⟩ := Prod.mk.inj hrest
  obtain ⟨hr', rfl⟩ := Prod.mk.inj (Except.ok.inj hst)
  rw [← hr']
  refine .inr ⟨hne, page, hget, rfl, rfl, rfl, fun htp b => ?_⟩
  refine (relinked_link _ r.tail page b).trans ?_
  simp only [Rfa.setRfd, update_of_ne htp, Function.update_apply]

/-- An iteration of the daemon takes a descriptor from the head and puts one
behind the tail. -/
theorem Listed.iterate (h : Listed r mm m j) (hst : rxIterate r mm = .ok (r', mm')) :
    ∃ i, Listed r' mm' m i := by
  rcases rxIterate_cases hst with ⟨rfl, rfl⟩ | ⟨hne, page, hget, hhead, hnext, hself, hrfds⟩
  · exact ⟨j, h⟩
  have hj : j ≠ 0 := by
    rintro rfl
    exact hne h.next.symm
  obtain ⟨i, rfl⟩ := Nat.exists_eq_succ_of_ne_zero hj
  obtain ⟨n, rfl⟩ : ∃ n, m = n + 1 := ⟨m - 1, by have := h.le; omega⟩
  have hrel := h.pages.release
  have ht := taken_of_ok hrel.cursor hget
  have hstep : ∀ i, r.link^[i] (r.link r.head) = r.link^[i + 1] r.head :=
    fun i => (Function.iterate_succ_apply r.link i r.head).symm
  have hfresh : ∀ i ≤ n, r.link^[i] (r.link r.head) ≠ page := fun i hi => hrel.ne_taken ht hi
  have htail : r.tail = r.link^[n] (r.link r.head) := h.tail.trans (hstep n).symm
  have htp : r.tail ≠ page := htail ▸ hfresh n (le_refl n)
  replace hrfds := hrfds htp
  have hlink : r'.link = update (update r.link page 0) r.tail page := by
    funext b
    rw [Rfa.link, hrfds, Function.update_apply, Function.update_apply]
    split
    · rfl
    · split
      · rfl
      · rfl
  have htail' : r'.tail = page := by rw [hself, hrfds, if_pos rfl]
  have hold : ∀ i ≤ n, (update r.link page 0)^[i] (r.link r.head) = r.link^[i] (r.link r.head) :=
    iterate_update_of_ne fun i hi => hfresh i (by omega)
  have hpages := (hrel.update_of_ne (y := 0) hfresh).extend ht
  have hlast := (hrel.update_of_ne (y := 0) hfresh).chain.iterate_update_last (y := page)
  have hsame : ∀ i ≤ n, r'.link^[i] (r.link r.head) = r.link^[i] (r.link r.head) := by
    intro i hi
    rw [hlink, htail, ← hold n (le_refl n),
      (hrel.update_of_ne (y := 0) hfresh).chain.iterate_update i hi, hold i hi]
  rw [hold n (le_refl n), ← htail, ← hlink] at hpages hlast
  refine ⟨i, ⟨hhead ▸ hpages, ?_, ?_, ?_, ?_, fun k hk => ?_⟩⟩
  · rw [htail', hhead, hlast]
  · rw [htail', hlink, update_of_ne htp.symm, update_self]
  · have := h.le
    omega
  · rw [hnext, hhead, hsame i (by have := h.le; omega), hstep]
    exact h.next
  · rw [hhead]
    rcases Nat.lt_or_eq_of_le hk with hlt | rfl
    · rw [hsame k (by omega), hrfds]
      have hel := h.el (k + 1) (by omega)
      rw [← hstep] at hel
      split
      · refine iff_of_false (fun hc => hc ?_) (by omega)
        rw [BitVec.and_assoc]
        simp
      · rename_i hkt
        rw [if_neg (hfresh k (by omega)), hel]
        refine iff_of_false (fun hc => hkt ?_) (by omega)
        rw [htail, Nat.succ.inj hc]
    · rw [hlast, hrfds, if_neg htp.symm, if_pos rfl]
      exact iff_of_true (by decide) rfl

/-! ## Building the list -/

/-- After `i` rounds of the loop of `init_rfa`. -/
structure RfaBuilt (first : Word) (i : Nat) (curr : Word) (r : Rfa) (mm : MemMgr) : Prop where
  pages : PageChain r.link first i mm
  last : curr = r.link^[i] first
  clear : ∀ k < i, (r.rfds (r.link^[k] first)).command &&& rfdEl = 0

theorem RfaBuilt.extend {first curr page : Word} {i : Nat} (h : RfaBuilt first i curr r mm)
    (ht : Taken mm page mm') :
    RfaBuilt first (i + 1) page ((r.setRfd curr 8).setLink curr page) mm' := by
  have hlink : ((r.setRfd curr 8).setLink curr page).link
      = update r.link (r.link^[i] first) page := by
    rw [rfaSetLink_link, setRfd_link, Function.update_idem, h.last]
  have hold := h.pages.chain.iterate_update (y := page)
  refine ⟨hlink ▸ h.pages.extend ht, ?_, fun k hk => ?_⟩
  · rw [hlink, h.pages.chain.iterate_update_last]
  · rw [hlink, hold k (by omega)]
    by_cases hcurr : r.link^[k] first = curr
    · rw [hcurr]
      simp only [Rfa.setLink, Rfa.setRfd, update_self]
      decide
    · have hki : k ≠ i := fun he => hcurr (he ▸ h.last.symm)
      simp only [Rfa.setLink, Rfa.setRfd, update_of_ne hcurr]
      exact h.clear k (by omega)

theorem RfaBuilt.loop : ∀ (n : Nat) {first curr last : Word} {i : Nat} {r r' : Rfa}
    {mm mm' : MemMgr}, RfaBuilt first i curr r mm →
    initRfaLoop n curr r mm = .ok (last, r', mm') →
    RfaBuilt first (i + n) last r' mm' ∧ r'.head = r.head ∧ r'.next = r.next
  | 0, _, _, _, _, _, _, _, _, h, he => by
      obtain ⟨rfl, hrest⟩ := Prod.mk.inj (Except.ok.inj he)
      obtain ⟨rfl, rfl⟩ := Prod.mk.inj hrest
      exact ⟨h, rfl, rfl⟩
  | n + 1, _, _, _, i, _, _, _, _, h, he => by
      obtain ⟨⟨page, mm₁⟩, hget, he⟩ := bind_eq_ok.mp he
      have hloop := RfaBuilt.loop n (h.extend (taken_of_ok h.pages.cursor hget)) he
      rwa [Nat.add_right_comm, Nat.add_assoc] at hloop

theorem initRfa_listed {n : Nat} (hlast : mm.lastAvailible < patSize)
    (hzero : patBit mm 0 = true) (h : initRfa r n mm = .ok (r', mm')) : Listed r' mm' n 0 := by
  obtain ⟨⟨first, mm₁⟩, hget, h⟩ := bind_eq_ok.mp h
  obtain ⟨⟨curr, r₁, mm₂⟩, hloop, h⟩ := bind_eq_ok.mp h
  obtain ⟨rfl, rfl⟩ := Prod.mk.inj (Except.ok.inj h)
  have hstart : RfaBuilt first 0 first { r with head := first, next := first } mm₁ :=
    ⟨.start hzero (taken_of_ok hlast hget), rfl, fun k hk => absurd hk (Nat.not_lt_zero k)⟩
  obtain ⟨hb, hhead, hnext⟩ := hstart.loop n hloop
  rw [Nat.zero_add] at hb
  have hlink : (r₁.setRfd curr (0x8000 ||| 8)).link = update r₁.link (r₁.link^[n] first) 0 := by
    rw [setRfd_link, hb.last]
  have hold := hb.pages.chain.iterate_update (y := 0)
  have hfirst : (r₁.setRfd curr (0x8000 ||| 8)).head = first := hhead
  refine ⟨?_, ?_, ?_, Nat.zero_le n, hnext.trans hhead.symm, fun i hi => ?_⟩
  · show PageChain (r₁.setRfd curr (0x8000 ||| 8)).link (r₁.setRfd curr (0x8000 ||| 8)).head n mm₂
    rw [hlink, hfirst]
    exact hb.pages.update_last
  · show curr = (r₁.setRfd curr (0x8000 ||| 8)).link^[n] (r₁.setRfd curr (0x8000 ||| 8)).head
    rw [hlink, hfirst, hold n (le_refl n)]
    exact hb.last
  · show (r₁.setRfd curr (0x8000 ||| 8)).link curr = 0
    rw [setRfd_link, update_self]
  · show ((r₁.setRfd curr (0x8000 ||| 8)).rfds ((r₁.setRfd curr (0x8000 ||| 8)).link^[i]
      (r₁.setRfd curr (0x8000 ||| 8)).head)).command &&& rfdEl ≠ 0 ↔ i = n
    rw [hlink, hfirst, hold i hi]
    by_cases hcurr : r₁.link^[i] first = curr
    · have hin : i = n := by
        by_contra hne
        exact hb.pages.chain i n (by omega) (le_refl n) (hcurr.trans hb.last)
      rw [hcurr]
      simp only [Rfa.setRfd, update_self]
      exact iff_of_true (by decide) hin
    · have hin : i ≠ n := fun he => hcurr (he ▸ hb.last.symm)
      simp only [Rfa.setRfd, update_of_ne hcurr]
      exact iff_of_false (fun hc => hc (hb.clear i (by omega))) hin

/-! ## Runs -/

/-- The interrupt for a frame that has been stored in the last descriptor. -/
def PassesTail (s : Receiver) : RxEvent → Prop
  | .interrupt statAck => statAck &&& ackFr ≠ 0 ∧ s.pending ≠ 0 ∧ s.rfa.next = s.rfa.tail
  | _ => False

theorem Listed.step {s s' : Receiver} {e : RxEvent} (h : Listed s.rfa s.mm m j)
    (hst : rxStep s e = .ok s') :
    (¬PassesTail s e → ∃ j', Listed s'.rfa s'.mm m j') ∧ (PassesTail s e → s'.rfa.next = 0) := by
  cases e with
  | enable =>
      refine ⟨fun _ => ⟨j, ?_⟩, fun hp => hp.elim⟩
      rw [rxStep] at hst
      split at hst
      · obtain rfl := Except.ok.inj hst
        exact h
      · obtain rfl := Except.ok.inj hst
        exact h
  | fill status count =>
      obtain rfl := Except.ok.inj hst
      exact ⟨fun _ => ⟨j, h.fill status count⟩, fun hp => hp.elim⟩
  | iterate =>
      obtain ⟨⟨r, mm⟩, hit, hst⟩ := bind_eq_ok.mp hst
      obtain rfl := Except.ok.inj hst
      exact ⟨fun _ => h.iterate hit, fun hp => hp.elim⟩
  | interrupt statAck =>
      obtain rfl := Except.ok.inj hst
      rw [Receiver.interrupt]
      split
      · rename_i hack
        have hsame : intelNicHandler s.rfa statAck = s.rfa := if_neg (not_not.mpr hack)
        refine ⟨fun _ => ⟨j, ?_⟩, fun hp => absurd hack hp.1⟩
        rw [hsame]
        exact h
      · rename_i hack
        split
        · rename_i hzero
          exact ⟨fun _ => ⟨j, h⟩, fun hp => absurd hzero hp.2.1⟩
        · rename_i n hpend
          obtain ⟨hnext, hlt⟩ := h.handler hack
          refine ⟨fun hp => ⟨j + 1, hlt ?_⟩, fun hp => ?_⟩
          · have hle := h.le
            have hne : j ≠ m := fun he => hp ⟨hack, by omega, h.next_eq_tail_iff.mpr he⟩
            omega
          · exact hnext.trans ((congrArg s.rfa.link hp.2.2).trans h.last)

/-- The list is in order all along a run exactly if no interrupt comes for
the last descriptor before the daemon has put another behind it. -/
theorem receive_list_sound_iff {tr : List (Receiver × RxEvent)} {s : Receiver}
    (hlast : mm.lastAvailible < patSize) (hzero : patBit mm 0 = true)
    (hinit : initRfa r totalRfd mm = .ok (r', mm'))
    (hrun : Steps rxStep ⟨r', mm', .idle, 0⟩ tr s) :
    ((∀ x ∈ tr, ListSound x.1.rfa x.1.mm) ∧ ListSound s.rfa s.mm)
      ↔ ∀ x ∈ tr, ¬PassesTail x.1 x.2 := by
  refine Steps.all_iff_of (P := fun s => ∃ m j, Listed s.rfa s.mm m j)
    (Q := fun s => ListSound s.rfa s.mm) (C := fun s e => ¬PassesTail s e)
    (fun s hs => ?_) (fun s e s' hs hst hc => ?_) (fun s e s' hs hst hc => ?_) hrun
    ⟨totalRfd, 0, initRfa_listed hlast hzero hinit⟩
  · obtain ⟨m, j, h⟩ := hs
    exact h.sound
  · obtain ⟨m, j, h⟩ := hs
    exact ⟨m, (h.step hst).1 hc⟩
  · obtain ⟨m, j, h⟩ := hs
    rintro ⟨-, -, -, -, hne, -⟩
    exact hne ((h.step hst).2 (not_not.mp hc))

/-! ## A burst of frames -/

theorem initRfaLoop_ok : ∀ (n : Nat) (curr : Word) (r : Rfa) {mm : MemMgr},
    Spare mm n → ∃ last r' mm', initRfaLoop n curr r mm = .ok (last, r', mm')
  | 0, _, _, _, _ => ⟨_, _, _, rfl⟩
  | n + 1, curr, r, mm, h => by
      obtain ⟨page, mm', hget, -, hs⟩ := h.take
      obtain ⟨last, r', mm'', hloop⟩ := initRfaLoop_ok n page ((r.setRfd curr 8).setLink curr page)
        hs
      exact ⟨last, r', mm'', by rw [initRfaLoop, hget]; exact hloop⟩

theorem initRfa_ok {n : Nat} (h : Spare mm (n + 1)) :
    ∃ r' mm', initRfa r n mm = .ok (r', mm') := by
  obtain ⟨first, mm', hget, -, hs⟩ := h.take
  obtain ⟨last, r', mm'', hloop⟩ := initRfaLoop_ok n first { r with head := first, next := first }
    hs
  simp only [initRfa, hget, ok_bind, hloop]
  exact ⟨_, _, rfl⟩

/-- There is a page for the new tail: the one just freed. -/
theorem Listed.iterate_ok (h : Listed r mm m j) : ∃ r' mm', rxIterate r mm = .ok (r', mm') := by
  rw [rxIterate]
  split
  · exact ⟨r, mm, rfl⟩
  · have hfirst := h.pages.aligned 0 (Nat.zero_le m)
    rw [Function.iterate_zero_apply] at hfirst
    have hcursor : (freePage mm r.head).2.lastAvailible < patSize := by
      rw [freePage_aligned hfirst]
      exact h.pages.cursor
    rcases getNextPage_spec hcursor with ⟨page, mm', hget, -⟩ | ⟨-, hfull⟩
    · simp only [makeNewTail, hget, ok_bind]
      exact ⟨_, _, rfl⟩
    · have hlt : pageOf r.head < 2 ^ 20 := by
        have := r.head.isLt
        rw [pageOf]
        omega
      have hfree := hfull _ hlt
      rw [freePage_aligned hfirst, patBit_clear] at hfree
      simp at hfree

/-- A frame is stored in the descriptor `rfa.next`, and reported. -/
def Receiver.gotFrame (s : Receiver) : Receiver := (s.fill 0 0).interrupt ackFr

/-- The card and `rfa.next` are at one descriptor, and no interrupt is to
come. -/
structure InStep (s : Receiver) (m i : Nat) : Prop where
  listed : Listed s.rfa s.mm m i
  ru : s.ru = .ready s.rfa.next
  pending : s.pending = 0

theorem InStep.gotFrame {s : Receiver} {i : Nat} (h : InStep s m i) :
    Steps rxStep s [(s, .fill 0 0), (s.fill 0 0, .interrupt ackFr)] s.gotFrame
      ∧ s.gotFrame.rfa.next = s.rfa.link s.rfa.next
      ∧ (i < m → InStep s.gotFrame m (i + 1) ∧ ¬PassesTail (s.fill 0 0) (.interrupt ackFr)) := by
  have hrun : Steps rxStep s ([] ++ [(s, .fill 0 0)] ++ [(s.fill 0 0, .interrupt ackFr)])
      s.gotFrame := .tail (.tail .refl rfl) rfl
  have hfill : (s.fill 0 0).pending = 1 ∧ (s.fill 0 0).rfa.next = s.rfa.next
      ∧ (s.fill 0 0).rfa.tail = s.rfa.tail ∧ (s.fill 0 0).ru
        = if (s.rfa.rfds s.rfa.next).command &&& rfdEl = 0 then .ready (s.rfa.link s.rfa.next)
          else .noResources := by
    rw [Receiver.fill, h.ru, h.pending]
    exact ⟨rfl, rfl, rfl, rfl⟩
  have hlisted := h.listed.fill 0 0
  have hgot : s.gotFrame
      = { s.fill 0 0 with rfa := intelNicHandler (s.fill 0 0).rfa ackFr, pending := 0 } := by
    rw [Receiver.gotFrame, Receiver.interrupt, if_neg (by decide), hfill.1]
  obtain ⟨hnext, hlt⟩ := hlisted.handler (show ackFr &&& ackFr ≠ 0 by decide)
  have hlink : (s.fill 0 0).rfa.link = s.rfa.link := by
    rw [Receiver.fill, h.ru]
    exact funext fun b => (update_header s.rfa.rfds s.rfa.next 0 0 b).1
  rw [hlink, hfill.2.1] at hnext
  refine ⟨hrun, ?_, fun him => ⟨⟨?_, ?_, ?_⟩, fun hp => ?_⟩⟩
  · rw [hgot]
    exact hnext
  · rw [hgot]
    exact hlt him
  · have hel : (s.rfa.rfds s.rfa.next).command &&& rfdEl = 0 := by
      by_contra hc
      rw [h.listed.next] at hc
      exact absurd ((h.listed.el i (by omega)).mp hc) (by omega)
    rw [hgot]
    refine hfill.2.2.2.trans ?_
    rw [if_pos hel]
    exact congrArg Ru.ready hnext.symm
  · rw [hgot]
  · have := hlisted.next_eq_tail_iff.mp hp.2.2
    omega

theorem Listed.burst (h : Listed r mm m 0) : ∀ i, i ≤ m → ∃ tr s,
    Steps rxStep ⟨r, mm, .idle, 0⟩ tr s ∧ InStep s m i ∧ ∀ x ∈ tr, ¬PassesTail x.1 x.2
  | 0, _ => ⟨_, ⟨r, mm, .ready r.next, 0⟩, .tail (e := .enable) .refl rfl, ⟨h, rfl, rfl⟩,
      by simp [PassesTail]⟩
  | i + 1, hi => by
      obtain ⟨tr, s, hrun, hs, hno⟩ := h.burst i (by omega)
      obtain ⟨-, -, hmore⟩ := hs.gotFrame
      obtain ⟨hs', hnot⟩ := hmore (by omega)
      have hrun' : Steps rxStep ⟨r, mm, .idle, 0⟩
          (tr ++ [(s, .fill 0 0)] ++ [(s.fill 0 0, .interrupt ackFr)]) s.gotFrame :=
        .tail (.tail hrun rfl) rfl
      refine ⟨_, _, hrun', hs', ?_⟩
      simp only [List.forall_mem_append, List.forall_mem_singleton]
      exact ⟨⟨hno, id⟩, hnot⟩

def noRfa : Rfa := ⟨fun _ => ⟨0, 0, 0, 0, 0⟩, 0, 0, 0⟩

theorem initRfa_low : ∃ r mm', initRfa noRfa totalRfd lowPageUsed = .ok (r, mm')
    ∧ Listed r mm' totalRfd 0 := by
  obtain ⟨r, mm', hinit⟩ := initRfa_ok (n := totalRfd) (r := noRfa)
    (lowPageUsed_spare.le (by decide))
  exact ⟨r, mm', hinit, initRfa_listed (by decide) (by decide) hinit⟩

/-- Three frames come in, and the daemon looks at the first. -/
theorem receive_list_sound_three : ∃ r mm' tr s, initRfa noRfa totalRfd lowPageUsed = .ok (r, mm')
    ∧ Steps rxStep ⟨r, mm', .idle, 0⟩ tr s ∧ ListSound s.rfa s.mm := by
  obtain ⟨r, mm', hinit, h⟩ := initRfa_low
  obtain ⟨tr, s, hrun, hs, hno⟩ := h.burst 3 (by decide)
  obtain ⟨r', mm'', hit⟩ := hs.listed.iterate_ok
  have hrun' : Steps rxStep ⟨r, mm', .idle, 0⟩ (tr ++ [(s, .iterate)])
      ⟨r', mm'', s.ru, s.pending⟩ := hrun.tail (by rw [rxStep, hit]; rfl)
  have hall := (receive_list_sound_iff (by decide) (by decide) hinit hrun').mpr fun x hx => by
    rcases List.mem_append.mp hx with hx | hx
    · exact hno x hx
    · rw [List.mem_singleton.mp hx]
      exact id
  exact ⟨r, mm', _, _, hinit, hrun', hall.2⟩

/-- The list is full before the daemon has looked at a frame: `rfa.next` is
`NULL`. -/
theorem receive_list_passed : ∃ r mm' tr s, initRfa noRfa totalRfd lowPageUsed = .ok (r, mm')
    ∧ Steps rxStep ⟨r, mm', .idle, 0⟩ tr s ∧ s.rfa.next = 0 ∧ ¬ListSound s.rfa s.mm := by
  obtain ⟨r, mm', hinit, h⟩ := initRfa_low
  obtain ⟨tr, s, hrun, hs, -⟩ := h.burst totalRfd (le_refl _)
  obtain ⟨-, hnext, -⟩ := hs.gotFrame
  have hzero : s.gotFrame.rfa.next = 0 := by
    rw [hnext, hs.listed.next_eq_tail_iff.mpr rfl]
    exact hs.listed.last
  refine ⟨r, mm', _, s.gotFrame, hinit, .tail (.tail (e := .fill 0 0) hrun rfl)
    (e := .interrupt ackFr) rfl, hzero, ?_⟩
  rintro ⟨-, -, -, -, hne, -⟩
  exact hne hzero

end SpKernel
