import SpKernel.Lib.Memory
import SpKernel.Types

/-!
# Serial I/O (`sio.c`)

The input and output buffers of the serial line and the part of the UART
the kernel can see: the bytes written to its transmitter and the last
value written to its interrupt-enable register. The interrupt handler
also schedules processes and is defined with the other handlers.

The four pointers are offsets into their buffer. `_inlast` and, in
`_sio_writec`, `_outlast` are not wrapped by the source, so offsets may
pass the end: `inbuffer` and `outbuffer` are total, and an element past
`bufSize` stands for the byte that follows the array there. What follows
`_outbuffer` is `_outlast` itself and then `_ier`, and a store to these
bytes through the buffer changes no variable here; `SerialOverrun` has
the variables in the places the compiler gives them, and is about runs
in which the offset gets there.
-/

namespace SpKernel

open Function (update)
open Lib

abbrev bufSize : Nat := 2048

structure Sio where
  inbuffer : Nat → Byte
  inlast : Nat
  innext : Nat
  incount : Nat
  outbuffer : Nat → Byte
  outlast : Nat
  outnext : Nat
  outcount : Nat
  sending : Bool
  ier : Byte
  /-- bytes written to `UA4_TXD`, oldest first -/
  txd : List Byte
  /-- the last value written to `UA4_IER` -/
  ierReg : Byte

abbrev sioTx : Byte := 0x01
abbrev sioRx : Byte := 0x02

def sioInit : Sio where
  inbuffer := fun _ => 0
  inlast := 0
  innext := 0
  incount := 0
  outbuffer := fun _ => 0
  outlast := 0
  outnext := 0
  outcount := 0
  sending := false
  ier := 0
  txd := []
  ierReg := 0

/-- Write the register if its wanted value has changed. -/
def setIer (s : Sio) (ier : Byte) : Sio :=
  if s.ier ≠ ier then { s with ier := ier, ierReg := ier } else s

def sioEnable (s : Sio) (which : Byte) : Sio :=
  let ier := if which &&& sioTx ≠ 0 then s.ier ||| 0x02 else s.ier
  let ier := if which &&& sioRx ≠ 0 then ier ||| 0x01 else ier
  setIer s ier

def sioDisable (s : Sio) (which : Byte) : Sio :=
  let ier := if which &&& sioTx ≠ 0 then s.ier &&& ~~~0x02#8 else s.ier
  let ier := if which &&& sioRx ≠ 0 then ier &&& ~~~0x01#8 else ier
  setIer s ier

/-- A character arrives and nobody waits for it. -/
def sioReceive (s : Sio) (ch : Byte) : Sio :=
  if s.incount < bufSize then
    { s with
      inbuffer := update s.inbuffer s.inlast ch
      inlast := s.inlast + 1
      incount := s.incount + 1 }
  else s

/-- A transmitter interrupt. -/
def sioTransmit (s : Sio) : Sio :=
  if s.sending ∧ 0 < s.outcount then
    let outnext := s.outnext + 1
    { s with
      txd := s.txd ++ [s.outbuffer s.outnext]
      outnext := if bufSize ≤ outnext then 0 else outnext
      outcount := s.outcount - 1 }
  else
    sioDisable { s with outcount := 0, outlast := 0, outnext := 0, sending := false } sioTx

/-- `_sio_readc`: the character, or -1. -/
def sioReadc (s : Sio) : Int × Sio :=
  if 0 < s.incount then
    let ch : Int := (s.inbuffer s.innext).toNat
    let incount := s.incount - 1
    if incount < 1 then (ch, { s with incount := incount, inlast := 0, innext := 0 })
    else (ch, { s with incount := incount, innext := s.innext + 1 })
  else (-1, s)

/-- The copying loop of `_sio_reads`; `_incount` bounds its rounds. -/
def sioReadsLoop (length : Int) : Nat → Sio → Mem → Word → Nat → Nat × Sio × Mem
  | 0, s, m, _, copied => (copied, s, m)
  | fuel + 1, s, m, ptr, copied =>
      if 0 < s.incount ∧ (copied : Int) < length then
        let m := store 1 m ptr (s.inbuffer s.innext)
        let innext := s.innext + 1
        let s := { s with
          innext := if bufSize < innext then 0 else innext
          incount := s.incount - 1 }
        sioReadsLoop length fuel s m (ptr + 1) (copied + 1)
      else (copied, s, m)

/-- `_sio_reads`: the number of bytes copied. -/
def sioReads (s : Sio) (m : Mem) (buf : Word) (length : Int) : Nat × Sio × Mem :=
  if s.incount < 1 then (0, s, m)
  else
    let (copied, s, m) := sioReadsLoop length s.incount s m buf 0
    if s.incount < 1 then (copied, { s with inlast := 0, innext := 0 }, m)
    else (copied, s, m)

/-- `_sio_writec` after the newline mapping. -/
def sioPut (s : Sio) (ch : Byte) : Sio :=
  if s.sending then
    { s with
      outbuffer := update s.outbuffer s.outlast ch
      outlast := s.outlast + 1
      outcount := s.outcount + 1 }
  else
    sioEnable { s with sending := true, txd := s.txd ++ [ch] } sioTx

def sioWritec (s : Sio) (ch : Byte) : Sio :=
  if ch = 10 then sioPut (sioPut s 13) ch else sioPut s ch

/-- The copying loop of `_sio_writes`; the room in the buffer bounds its
rounds. -/
def sioWritesLoop (m : Mem) (length : Int) : Nat → Sio → Word → Int → Sio × Int
  | 0, s, _, copied => (s, copied)
  | fuel + 1, s, ptr, copied =>
      if copied < length ∧ s.outcount < bufSize then
        let outlast := s.outlast + 1
        let s := { s with
          outbuffer := update s.outbuffer s.outlast (m ptr)
          outlast := if bufSize ≤ outlast then 0 else outlast
          outcount := s.outcount + 1 }
        sioWritesLoop m length fuel s (ptr + 1) (copied + 1)
      else (s, copied)

/-- `_sio_writes`: the number of bytes copied. -/
def sioWrites (s : Sio) (m : Mem) (buffer : Word) (length : Int) : Int × Sio :=
  let first := m buffer
  let (ptr, copied) := if s.sending then (buffer, (0 : Int)) else (buffer + 1, 1)
  let (s', copied) := sioWritesLoop m length bufSize s ptr copied
  (copied, if s.sending then s' else sioWritec s' first)

/-- The loop of `_sio_puts`. After `2 ^ 32` rounds every address has been
looked at, so a loop that has not met a `'\0'` by then never ends. -/
def sioPutsLoop (m : Mem) : Nat → Sio → Word → Nat → Except Fault (Nat × Sio)
  | 0, _, _, _ => .error .diverge
  | fuel + 1, s, buffer, n =>
      if m buffer = 0 then .ok (n, s)
      else sioPutsLoop m fuel (sioWritec s (m buffer)) (buffer + 1) (n + 1)

/-- `_sio_puts`: the number of bytes transferred. -/
def sioPuts (s : Sio) (m : Mem) (buffer : Word) : Except Fault (Nat × Sio) :=
  sioPutsLoop m (2 ^ 32 + 1) s buffer 0

end SpKernel
