import SpKernel.Handles

/-!
# Routing messages

`routed` is what `IO_EXECUTE` is for: the message goes through the live
filters, in the order of their table, and then to the filesystem of the
mount its path begins with. `IO_EXECUTE` finds that mount by the position
of the first backslash in the path, which `strpos` never finds, so it
answers `E_NO_MATCH` for every message (`ioExecute_noMatch`).

`routed` is a list of the functions that are to be called, and
`RoutesSound` compares it with those that are. Since the code calls none,
the two agree exactly for the messages that no mount is for
(`routes_sound_iff`): a message that is routed makes somebody run
(`routed_calls`).

`Wired`, `Installed` and `Addressed` are what is assumed of the state and
the message: that every object in use is found under its handle, that the
mounts have different paths and a filesystem and a device in use, and
that the message has a path. The state at the end, with one mount, has
all three, and shows that both sides of the equivalence occur.
-/

namespace SpKernel

open Function (update update_self update_of_ne)
open Lib

variable {ext : Extern} {io : Io} {handle : IoHandle} {msg : Fin 50} {s : List Byte}

/-! ## What routing is -/

/-- The first component of a path, after an optional backslash. -/
def firstComponent (s : List Byte) : List Byte :=
  (if s.head? = some 0x5C then s.tail else s).takeWhile fun c => decide (c ≠ 0x5C)

/-- The mount is in use and its path is the first component of `s`. -/
def Matches (io : Io) (s : List Byte) (m : Fin 5) : Prop :=
  (io.mounts.slots m).handle ≠ ioHandleNull
    ∧ IsString io.mm.mem (io.mounts.slots m).path (firstComponent s)

instance (io : Io) (s : List Byte) (m : Fin 5) : Decidable (Matches io s m) :=
  inferInstanceAs (Decidable (_ ∧ _))

/-- The filters in use, in the order of their table. -/
def liveMiddlewares (io : Io) : List (Fin 5) :=
  (List.finRange 5).filter fun i => decide ((io.middlewares.slots i).handle ≠ ioHandleNull)

/-- Call these filters one after the other, until one cancels the
message. -/
def runFilters (ext : Extern) (msg : Fin 50) :
    List (Fin 5) → Io → Except IoFault (Bool × List Word × Io)
  | [], io => .ok (false, [], io)
  | f :: fs, io => do
      let execute := (io.middlewares.slots f).execute
      let (_, io) ← callExtern ext execute msg io
      if (io.messages.slots msg).status = .canceled then .ok (true, [execute], io)
      else do
        let (canceled, called, io) ← runFilters ext msg fs io
        .ok (canceled, execute :: called, io)

/-- Send the message through the filters to the filesystem of the mount. -/
def routed (ext : Extern) (io : Io) (msg : Fin 50) (m : Fin 5) :
    Except IoFault (Status × List Word × Io) := do
  let mp := io.mounts.slots m
  let device ← pointerAt io mp.device
  let filesystem ← pointerAt io mp.filesystem
  let message := { io.messages.slots msg with
    mount := .object (.mount m), device := device, filesystem := filesystem }
  let io := { io with messages := io.messages.set msg message }
  let (canceled, called, io) ← runFilters ext msg (liveMiddlewares io) io
  if canceled then .ok (.canceled, called, io)
  else do
    let fs ← asFilesystem (← objectAt io mp.filesystem)
    let execute := (io.filesystems.slots fs).execute
    let (st, io) ← callExtern ext execute msg io
    .ok (st, called ++ [execute], io)

/-- Every object in use is found under its handle. -/
def Wired (io : Io) : Prop :=
  ∀ r, (io.slot r).handle ≠ ioHandleNull → ∃ i : Fin 100, (io.slot r).handle = (i.val : Int)
    ∧ (io.table i).handle = (i.val : Int) ∧ (io.table i).type = r.type
    ∧ (io.table i).object = some r

/-- The mounts in use are as `install_mount` makes them: each has a path,
no two the same, and a filesystem and a device that are in use. -/
structure Installed (io : Io) : Prop where
  path : ∀ m, (io.mounts.slots m).handle ≠ ioHandleNull →
    ∃ t, IsString io.mm.mem (io.mounts.slots m).path t ∧ t.length < pageSize
  distinct : ∀ m m' t, (io.mounts.slots m).handle ≠ ioHandleNull →
    (io.mounts.slots m').handle ≠ ioHandleNull →
    IsString io.mm.mem (io.mounts.slots m).path t →
    IsString io.mm.mem (io.mounts.slots m').path t → m = m'
  filesystem : ∀ m, (io.mounts.slots m).handle ≠ ioHandleNull →
    ∃ i, io.objectOf (io.mounts.slots m).filesystem = some (.filesystem i)
      ∧ (io.filesystems.slots i).handle ≠ ioHandleNull
  device : ∀ m, (io.mounts.slots m).handle ≠ ioHandleNull →
    ∃ i, io.objectOf (io.mounts.slots m).device = some (.device i)
      ∧ (io.devices.slots i).handle ≠ ioHandleNull

/-- The handle is that of the message in slot `msg`, with path `s`. -/
structure Addressed (io : Io) (handle : IoHandle) (msg : Fin 50) (s : List Byte) : Prop where
  live : (io.messages.slots msg).handle ≠ ioHandleNull
  handle : (io.messages.slots msg).handle = handle
  path : IsString io.mm.mem (io.messages.slots msg).path s

/-- The message is routed to the mount its path begins with, or refused
if there is none. -/
structure RoutesSound (ext : Extern) (io : Io) (handle : IoHandle) (msg : Fin 50)
    (s : List Byte) : Prop where
  matched : ∀ m, Matches io s m → ioExecute ext io handle = routed ext io msg m
  unmatched : (∀ m, ¬Matches io s m) → ioExecute ext io handle = .ok (.noMatch, [], io)
  bounds : ∀ i, ioExecute ext io handle ≠ .error (.bounds i)

/-! ## What the code does -/

theorem objectAt_wired (hw : Wired io) {r : IoRef} (hr : (io.slot r).handle ≠ ioHandleNull) :
    objectAt io (io.slot r).handle = .ok r := by
  obtain ⟨i, hi, -, -, ho⟩ := hw r hr
  rw [objectAt, tableIndex_eq.mpr hi, ok_bind, ho]

theorem matchLoop_noMatch (hw : Wired io) (hm : Installed io) {path filesystem device : Word} :
    ∀ (fuel : Nat) (iter : Nat), iter + fuel = 6 → 0 < fuel →
      matchLoop io msg path (BitVec.ofInt 32 (-1)) filesystem device fuel iter
        = .ok (.noMatch, io)
  | 0, _, _, h0 => absurd h0 (Nat.lt_irrefl 0)
  | fuel + 1, iter, hsum, _ => by
      rw [matchLoop]
      by_cases hlt : iter < 5
      · have hiter : ioMpIterate io.mounts iter
            = if (io.mounts.slots ⟨iter, hlt⟩).handle = ioHandleNull then (.outOfBounds, none)
              else (.success, some (io.mounts.slots ⟨iter, hlt⟩).handle) := by
          have hb : (0 : Int) ≤ iter ∧ (iter : Int) < (5 : Nat) := by omega
          simp only [ioMpIterate, Pool.iterate, hb, and_self, ↓reduceDIte, Int.toNat_natCast]
          rfl
        rw [hiter]
        by_cases hfree : (io.mounts.slots ⟨iter, hlt⟩).handle = ioHandleNull
        · rw [if_pos hfree]
        · rw [if_neg hfree]
          obtain ⟨t, ht, hlen⟩ := hm.path ⟨iter, hlt⟩ hfree
          have hobj : objectAt io (io.mounts.slots ⟨iter, hlt⟩).handle
              = .ok (.mount ⟨iter, hlt⟩) :=
            objectAt_wired hw (r := .mount ⟨iter, hlt⟩) hfree
          have hne : ¬t.length = (BitVec.ofInt 32 (-1)).toNat := by
            change ¬t.length = 0xFFFFFFFF
            simp only [pageSize] at hlen
            omega
          simp only [hobj, ok_bind, asMount, strlen_spec ht, liftFault, Except.mapError, hne,
            ↓reduceIte]
          exact_mod_cast matchLoop_noMatch hw hm fuel (iter + 1) (by omega) (by omega)
      · have hiter : ioMpIterate io.mounts iter = (.outOfBounds, none) := by
          have hb : ¬((0 : Int) ≤ iter ∧ (iter : Int) < (5 : Nat)) := by omega
          simp only [ioMpIterate, Pool.iterate, hb, ↓reduceDIte]
        rw [hiter]

theorem afterSlash {m : Mem} {a : Word} (hs : IsString m a s) :
    ∃ t, IsString m (if m a = 0x5C then a + 1#32 else a) t := by
  split
  · rename_i hc
    cases s with
    | nil =>
        have : m a = 0 := hs
        rw [hc] at this
        cases this
    | cons c t => exact ⟨t, hs.2.2⟩
  · exact ⟨s, hs⟩

theorem ioExecute_noMatch (hw : Wired io) (hm : Installed io) (ha : Addressed io handle msg s) :
    ioExecute ext io handle = .ok (.noMatch, [], io) := by
  obtain ⟨i, hi, hh, ht, ho⟩ := hw (.message msg) ha.live
  have hslot : (io.slot (.message msg)).handle = handle := ha.handle
  rw [hslot] at hi
  have hidx := tableIndex_eq.mpr hi
  have hvalid : ioHandleIsValid io handle = true :=
    ioHandleIsValid_eq.mpr ⟨i, hidx, hh.trans hi.symm⟩
  have hobj : objectAt io handle = .ok (.message msg) := by rw [objectAt, hidx, ok_bind, ho]
  have htype : ¬(io.table i).type ≠ .message := by
    rw [ht]
    simp [IoRef.type]
  obtain ⟨t, htail⟩ := afterSlash ha.path
  have hmatch : matchPath io handle 0 0 = .ok (.noMatch, io) := by
    simp only [matchPath, hobj, ok_bind, asMessage, strpos_spec htail (le_refl 0), liftFault,
      Except.mapError]
    exact matchLoop_noMatch hw hm 6 0 rfl (by decide)
  simp only [ioExecute, hvalid, ↓reduceIte, hidx, ok_bind, htype, hmatch]
  simp

theorem runFilters_calls : ∀ (fs : List (Fin 5)) {io io' : Io} {called : List Word},
    runFilters ext msg fs io = .ok (true, called, io') → called ≠ []
  | [], io, io', called, h => by cases h
  | f :: fs, io, io', called, h => by
      obtain ⟨⟨st, io₁⟩, -, h⟩ := bind_eq_ok.mp h
      simp only at h
      split at h
      · cases h
        simp
      · obtain ⟨⟨c, cs, io₂⟩, -, h⟩ := bind_eq_ok.mp h
        cases h
        simp

theorem routed_calls {m : Fin 5} {st : Status} {called : List Word} {io' : Io}
    (h : routed ext io msg m = .ok (st, called, io')) : called ≠ [] := by
  obtain ⟨device, -, h⟩ := bind_eq_ok.mp h
  obtain ⟨filesystem, -, h⟩ := bind_eq_ok.mp h
  obtain ⟨⟨canceled, cs, io₁⟩, hr, h⟩ := bind_eq_ok.mp h
  cases canceled with
  | false =>
      obtain ⟨r, -, h⟩ := bind_eq_ok.mp h
      obtain ⟨fs, -, h⟩ := bind_eq_ok.mp h
      obtain ⟨⟨st', io₂⟩, -, h⟩ := bind_eq_ok.mp h
      cases h
      simp
  | true =>
      cases h
      exact runFilters_calls _ hr

/-- In every state in which the objects are found under their handles and
the mounts have been installed, a message is routed as it should be
exactly if its path begins with no mount. -/
theorem routes_sound_iff (hw : Wired io) (hm : Installed io) (ha : Addressed io handle msg s) :
    RoutesSound ext io handle msg s ↔ ∀ m, ¬Matches io s m := by
  have hno : ioExecute ext io handle = .ok (.noMatch, [], io) := ioExecute_noMatch hw hm ha
  constructor
  · intro hs m hmatch
    have hr := hs.matched m hmatch
    rw [hno] at hr
    exact routed_calls hr.symm rfl
  · intro hnone
    refine ⟨fun m hmatch => absurd hmatch (hnone m), fun _ => hno, fun i hc => ?_⟩
    rw [hno] at hc
    cases hc

/-! ## A state with one mount -/

/-- A device, a filesystem, the mount `raw` of the two, and a message with
this path. -/
def rawMount (path : List Byte) : Io :=
  let io := ioInit (Io.zero lowPageUsed)
  let m := storeBytes (storeBytes lowPageUsed.mem 0x200000 [0x72, 0x61, 0x77, 0]) 0x201000 path
  { io with
    mm := { lowPageUsed with mem := m }
    table := fun i =>
      if i = 1 then ⟨1, .device, 0, some (.device 0), 0⟩
      else if i = 2 then ⟨2, .filesystem, 0, some (.filesystem 0), 0⟩
      else if i = 3 then ⟨3, .mount, 0, some (.mount 0), 0⟩
      else if i = 4 then ⟨4, .message, 0, some (.message 0), 0⟩
      else io.table i
    devices := io.devices.set 0 ⟨1, 0, 0x30000, 0x30100, 0⟩
    filesystems := io.filesystems.set 0 ⟨2, 0, 0x30200, 0, 0⟩
    mounts := io.mounts.set 0 ⟨3, 0, 0x200000, 0, 2, 1⟩
    messages := io.messages.set 0 { io.messages.slots 0 with handle := 4, path := 0x201000 } }

theorem rawMount_wired (path : List Byte) : Wired (rawMount path) := by
  intro r hr
  cases r with
  | filesystem i =>
      by_cases hi : i = 0
      · exact hi ▸ ⟨2, rfl, rfl, rfl, rfl⟩
      · exact absurd (congrArg IoFilesystem.handle (Pool.set_other _ _ hi)) hr
  | device i =>
      by_cases hi : i = 0
      · exact hi ▸ ⟨1, rfl, rfl, rfl, rfl⟩
      · exact absurd (congrArg IoDevice.handle (Pool.set_other _ _ hi)) hr
  | middleware i => exact absurd rfl hr
  | message i =>
      by_cases hi : i = 0
      · exact hi ▸ ⟨4, rfl, rfl, rfl, rfl⟩
      · exact absurd (congrArg IoMessage.handle (Pool.set_other _ _ hi)) hr
  | mount i =>
      by_cases hi : i = 0
      · exact hi ▸ ⟨3, rfl, rfl, rfl, rfl⟩
      · exact absurd (congrArg IoMount.handle (Pool.set_other _ _ hi)) hr

theorem rawMount_only {path : List Byte} {m : Fin 5}
    (h : ((rawMount path).mounts.slots m).handle ≠ ioHandleNull) : m = 0 := by
  by_contra hm
  exact h (congrArg IoMount.handle (Pool.set_other _ _ hm))

theorem rawMount_installed {path : List Byte}
    (hp : IsString (rawMount path).mm.mem 0x200000 [0x72, 0x61, 0x77]) :
    Installed (rawMount path) := by
  refine ⟨fun m h => ?_, fun m m' t h h' _ _ => ?_, fun m h => ?_, fun m h => ?_⟩
  · obtain rfl := rawMount_only h
    exact ⟨_, hp, by decide⟩
  · exact (rawMount_only h).trans (rawMount_only h').symm
  · obtain rfl := rawMount_only h
    exact ⟨0, rfl, fun hc => by cases hc⟩
  · obtain rfl := rawMount_only h
    exact ⟨0, rfl, fun hc => by cases hc⟩

theorem rawMount_addressed {path s : List Byte}
    (hp : IsString (rawMount path).mm.mem 0x201000 s) : Addressed (rawMount path) 4 0 s :=
  ⟨fun hc => (by cases hc), rfl, hp⟩

/-- Functions that do nothing. -/
def idle : Extern := fun _ _ io => .ok (.success, io)

/-- `\fat\1` -/
def fatPath : List Byte := [0x5C, 0x66, 0x61, 0x74, 0x5C, 0x31]

/-- `\raw\1` -/
def rawPath : List Byte := [0x5C, 0x72, 0x61, 0x77, 0x5C, 0x31]

/-- There is no mount for `\fat\1`, and the message is refused. -/
theorem routes_sound_fat : RoutesSound idle (rawMount (fatPath ++ [0])) 4 0 fatPath := by
  have hinst : Installed (rawMount (fatPath ++ [0])) := rawMount_installed (by decide +kernel)
  have haddr : Addressed (rawMount (fatPath ++ [0])) 4 0 fatPath :=
    rawMount_addressed (by decide +kernel)
  refine (routes_sound_iff (rawMount_wired _) hinst haddr).mpr fun m hm => ?_
  obtain rfl := rawMount_only hm.1
  have hno : ¬Matches (rawMount (fatPath ++ [0])) fatPath 0 := by decide +kernel
  exact hno hm

/-- There is a mount for `\raw\1`, and the message is refused. -/
theorem routes_unsound_raw : Wired (rawMount (rawPath ++ [0]))
    ∧ Installed (rawMount (rawPath ++ [0]))
    ∧ Addressed (rawMount (rawPath ++ [0])) 4 0 rawPath
    ∧ Matches (rawMount (rawPath ++ [0])) rawPath 0
    ∧ ioExecute idle (rawMount (rawPath ++ [0])) 4 = .ok (.noMatch, [], rawMount (rawPath ++ [0]))
    ∧ ¬RoutesSound idle (rawMount (rawPath ++ [0])) 4 0 rawPath := by
  have hwired := rawMount_wired (rawPath ++ [0])
  have hinst : Installed (rawMount (rawPath ++ [0])) := rawMount_installed (by decide +kernel)
  have haddr : Addressed (rawMount (rawPath ++ [0])) 4 0 rawPath :=
    rawMount_addressed (by decide +kernel)
  have hmatch : Matches (rawMount (rawPath ++ [0])) rawPath 0 := by decide +kernel
  have hno : ioExecute idle (rawMount (rawPath ++ [0])) 4
      = .ok (.noMatch, [], rawMount (rawPath ++ [0])) := ioExecute_noMatch hwired hinst haddr
  refine ⟨hwired, hinst, haddr, hmatch, hno, fun hs => ?_⟩
  have hr := hs.matched 0 hmatch
  rw [hno] at hr
  exact routed_calls hr.symm rfl

end SpKernel
