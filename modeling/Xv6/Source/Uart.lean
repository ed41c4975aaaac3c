import Xv6.Library.Fifo
import Xv6.Library.Thread

/-!
# Console output

The transmit buffer of kernel/uart.c. A thread is a process in `uartputc`, an interrupt in
`uartintr`, or the device. Each access to shared data is a step; `sleep` and `wakeup` are what
they are to the users of this buffer, with a process that sleeps going on only when it has been
woken. The loop of `uartputc` is bounded by `rounds`, for which any number can be chosen. The
input half of `uartintr` and `uartputc_sync`, which does not use the buffer, are left out.
-/
namespace Xv6.Source.Uart

open Xv6.Library Xv6.Library.Thread

def UART_TX_BUF_SIZE : Nat := 32

instance : NeZero UART_TX_BUF_SIZE := ⟨by decide⟩

structure State (Tid : Type) where
  /-- `uart_tx_lock`, with the thread that holds it. -/
  lock : Option Tid
  buf : Fin UART_TX_BUF_SIZE → UInt8
  w : BitVec 64
  r : BitVec 64
  /-- `LSR_TX_IDLE` in the line status register. -/
  idle : Bool
  asleep : Tid → Bool
  panicked : Bool
  -- recorded for statements about whole runs: the bytes `uartputc` has put into the buffer,
  -- those `uartstart` has written to the device, and what it saw when it last looked
  accepted : List UInt8
  sent : List UInt8
  looked : Bool

inductive Op (Tid : Type) where
  | acquire
  | release
  | isPanicked
  | peek
  /-- `uart_tx_buf[uart_tx_w % UART_TX_BUF_SIZE] = c` -/
  | store (c : UInt8)
  /-- `uart_tx_w += 1`, for the byte `c` -/
  | advanceW (c : UInt8)
  /-- `ReadReg(LSR) & LSR_TX_IDLE` in `uartstart` -/
  | readLsr
  /-- `uart_tx_buf[uart_tx_r % UART_TX_BUF_SIZE]` -/
  | load
  /-- `uart_tx_r += 1` -/
  | advanceR
  | wakeup
  | writeThr (c : UInt8)
  /-- `sleep` releases the lock and marks the process SLEEPING. -/
  | doze
  /-- The process runs again. -/
  | resume
  /-- The transmit holding register gets empty or full. -/
  | device (idle : Bool)
  /-- `kill` wakes a process. -/
  | rouse (p : Tid)
  | setPanicked
  /-- A loop is cut off here. -/
  | stuck

@[reducible] def Ret {Tid : Type} : Op Tid → Type
  | .isPanicked => Bool
  | .peek => BitVec 64 × BitVec 64
  | .readLsr => Bool
  | .load => UInt8
  | _ => Unit

variable {Tid : Type} [DecidableEq Tid]

def perform (t : Tid) : (op : Op Tid) → State Tid → Outcome (Ret op × State Tid)
  | .acquire, s =>
    match s.lock with
    | none => .ok ((), { s with lock := some t })
    | some u => if u = t then .panic "acquire" else .blocked
  | .release, s => if s.lock = some t then .ok ((), { s with lock := none }) else .panic "release"
  | .isPanicked, s => .ok (s.panicked, s)
  | .peek, s => .ok ((s.w, s.r), s)
  | .store c, s =>
    .ok ((), { s with buf := Function.update s.buf (Fifo.cell UART_TX_BUF_SIZE s.w) c })
  | .advanceW c, s => .ok ((), { s with w := s.w + 1, accepted := s.accepted ++ [c] })
  | .readLsr, s => .ok (s.idle, { s with looked := s.idle })
  | .load, s => .ok (s.buf (Fifo.cell UART_TX_BUF_SIZE s.r), s)
  | .advanceR, s => .ok ((), { s with r := s.r + 1 })
  | .wakeup, s => .ok ((), { s with asleep := fun _ => false })
  | .writeThr c, s => .ok ((), { s with sent := s.sent ++ [c] })
  | .doze, s =>
    if s.lock = some t then
      .ok ((), { s with lock := none, asleep := Function.update s.asleep t true })
    else .panic "release"
  | .resume, s => if s.asleep t then .blocked else .ok ((), s)
  | .device idle, s => .ok ((), { s with idle })
  | .rouse p, s => .ok ((), { s with asleep := Function.update s.asleep p false })
  | .setPanicked, s => .ok ((), { s with panicked := true })
  | .stuck, _ => .blocked

abbrev Code (Tid : Type) := Prog (Op Tid) Ret

def act (op : Op Tid) : Code Tid (Ret op) := Prog.op op

/-- `sleep(&uart_tx_r, &uart_tx_lock)` -/
def sleep : Code Tid Unit := do
  act .doze
  act .resume
  act .acquire

/-- The loop of `uartstart`, which sends no more than the buffer holds: the rounds it gets in
`uartstart` are never used up. -/
def startLoop : Nat → Code Tid Unit
  | 0 => pure ()
  | rounds + 1 => do
    let (w, r) ← act .peek
    if w = r then pure ()
    else
      let idle ← act .readLsr
      if idle then
        let c ← act .load
        act .advanceR
        act .wakeup
        act (.writeThr c)
        startLoop rounds
      else pure ()

def uartstart : Code Tid Unit := startLoop (UART_TX_BUF_SIZE + 1)

/-- The loop of `uartputc`. -/
def awaitRoom : Nat → Code Tid Unit
  | 0 => act .stuck
  | rounds + 1 => do
    let (w, r) ← act .peek
    if w = r + BitVec.ofNat 64 UART_TX_BUF_SIZE then
      sleep
      awaitRoom rounds
    else pure ()

def uartputc (c : UInt8) (rounds : Nat) : Code Tid Unit := do
  act .acquire
  if ← act .isPanicked then act .stuck
  awaitRoom rounds
  act (.store c)
  act (.advanceW c)
  uartstart
  act .release

def uartintr : Code Tid Unit := do
  act .acquire
  uartstart
  act .release

end Xv6.Source.Uart
