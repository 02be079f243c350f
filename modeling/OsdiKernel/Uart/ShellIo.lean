import OsdiKernel.Lib.System
import OsdiKernel.Uart.MiniUart

/-!
# The shell's buffers

The kernel shell reads and echoes through two buffers, each with an index one
past its last character. The receive interrupt puts characters into the read
buffer; the shell takes one out, puts it into the transmit buffer and enables the
transmit interrupt, which takes it out again. The shell masks interrupts for the
two moves, each by itself, and for nothing else; between any two of its steps
`shell_uart_irq_handler` may run.

Both buffers are filled and emptied at the same end.
-/

namespace OsdiKernel

/-- `MAX_BUFFER_LEN` -/
def maxBufferLen : Nat := 256

/-- Where the shell is in `read_transmit_asynchronous_procoessing`. -/
inductive ShellPc where
  /-- At the top of the loop. -/
  | poll
  /-- There was something to read. -/
  | dequeue
  /-- It has taken `c` out, -/
  | enqueue (c : UInt8)
  /-- and put it into the transmit buffer. -/
  | enableTransmit (c : UInt8)
  /-- Busy waiting for the transmit buffer. -/
  | drain
  deriving DecidableEq, Repr

/-- The globals of `uart.c`, where the shell is, and what has happened so far. -/
structure ShellIo where
  uartReadIdx : Int
  uartTransmitIdx : Int
  uartReadBuffer : Nat → UInt8
  uartTransmitBuffer : Nat → UInt8
  /-- `*AUX_MU_IER` -/
  ier : Nat
  pc : ShellPc
  /-- What `uart_getc` returned to the handler, -/
  received : List UInt8
  /-- what the shell took out of the read buffer, -/
  handed : List UInt8
  /-- and what the handler sent. -/
  echoed : List UInt8

/-- `buffer[idx]` -/
def bufferRead (buffer : Nat → UInt8) (idx : Int) : Except Fault UInt8 :=
  if 0 ≤ idx ∧ idx < maxBufferLen then .ok (buffer idx.toNat) else .error .outOfBounds

/-- `buffer[idx] = c` -/
def bufferWrite (buffer : Nat → UInt8) (idx : Int) (c : UInt8) : Except Fault (Nat → UInt8) :=
  if 0 ≤ idx ∧ idx < maxBufferLen then .ok (Function.update buffer idx.toNat c) else .error .outOfBounds

/-- `shell_uart_irq_handler`, where `*AUX_MU_IIR` is `id` and `r` is the byte the receiver holds, if it holds one. -/
def shellUartIrqHandler (s : ShellIo) (id : Nat) (r : UInt8) : Except Fault ShellIo :=
  if id &&& 0x06 = 0x04 then do
    let inputChar := crToNl r
    let buffer ← bufferWrite s.uartReadBuffer s.uartReadIdx inputChar
    .ok { s with
      uartReadBuffer := buffer, uartReadIdx := s.uartReadIdx + 1, received := s.received ++ [inputChar] }
  else if id &&& 0x06 = 0x02 then do
    let c ← bufferRead s.uartTransmitBuffer (s.uartTransmitIdx - 1)
    let idx := s.uartTransmitIdx - 1
    .ok { s with
      uartTransmitIdx := idx
      echoed := s.echoed ++ [c]
      ier := if idx = 0 then disableUartTransmitInterrupt s.ier else s.ier }
  else .ok s

/-- One step of `read_transmit_asynchronous_procoessing`, which the shell calls over and over. -/
def readTransmit (s : ShellIo) : Except Fault ShellIo :=
  match s.pc with
  | .poll => .ok { s with pc := if s.uartReadIdx > 0 then .dequeue else .drain }
  | .dequeue => do
      let inputChar ← bufferRead s.uartReadBuffer (s.uartReadIdx - 1)
      .ok { s with
        uartReadIdx := s.uartReadIdx - 1, handed := s.handed ++ [inputChar], pc := .enqueue inputChar }
  | .enqueue inputChar => do
      let buffer ← bufferWrite s.uartTransmitBuffer s.uartTransmitIdx inputChar
      .ok { s with
        uartTransmitBuffer := buffer, uartTransmitIdx := s.uartTransmitIdx + 1
        pc := .enableTransmit inputChar }
  | .enableTransmit _ => .ok { s with ier := enableUartTransmitInterrupt s.ier, pc := .poll }
  | .drain => .ok { s with pc := if s.uartTransmitIdx ≠ 0 then .drain else .poll }

/-- What may happen next. -/
inductive UartOp where
  /-- A byte is received. -/
  | receive (r : UInt8)
  /-- The transmitter is empty. -/
  | transmit
  | shell
  deriving DecidableEq, Repr

/-- The shell and its interrupts, each taken when it is enabled. -/
def uartSystem : System ShellIo UartOp Fault where
  legal := fun s op =>
    match op with
    | .receive _ => readEnabled s.ier = true
    | .transmit => transmitEnabled s.ier = true
    | .shell => True
  exec := fun s op =>
    match op with
    | .receive r => shellUartIrqHandler s 0x04 r
    | .transmit => shellUartIrqHandler s 0x02 0
    | .shell => readTransmit s

/-- The same, with the steps a condition allows. -/
def uartSystemWhen (allowed : ShellIo → UartOp → Prop) : System ShellIo UartOp Fault where
  legal := fun s op => uartSystem.legal s op ∧ allowed s op
  exec := uartSystem.exec

/-- After `uart_init` and `enable_uart_interrupt`, when the shell starts. -/
structure UartBoot (s : ShellIo) : Prop where
  readIdx : s.uartReadIdx = 0
  transmitIdx : s.uartTransmitIdx = 0
  ier : s.ier = enableUartReadInterrupt 0
  pc : s.pc = .poll
  received : s.received = []
  handed : s.handed = []
  echoed : s.echoed = []

/-! ## The handler -/

variable {s : ShellIo} {r : UInt8}

theorem bufferRead_ok {buffer : Nat → UInt8} {idx : Int} (h₀ : 0 ≤ idx) (h₁ : idx < maxBufferLen) :
    bufferRead buffer idx = .ok (buffer idx.toNat) := if_pos ⟨h₀, h₁⟩

theorem bufferWrite_ok {buffer : Nat → UInt8} {idx : Int} {c : UInt8} (h₀ : 0 ≤ idx)
    (h₁ : idx < maxBufferLen) : bufferWrite buffer idx c = .ok (Function.update buffer idx.toNat c) :=
  if_pos ⟨h₀, h₁⟩

/-- **A byte is received** while there is room. -/
theorem receive_eq (h₀ : 0 ≤ s.uartReadIdx) (h₁ : s.uartReadIdx < maxBufferLen) :
    uartSystem.exec s (.receive r) = .ok { s with
      uartReadBuffer := Function.update s.uartReadBuffer s.uartReadIdx.toNat (crToNl r)
      uartReadIdx := s.uartReadIdx + 1
      received := s.received ++ [crToNl r] } := by
  show shellUartIrqHandler s 0x04 r = _
  rw [shellUartIrqHandler, if_pos (by decide)]
  simp only [bufferWrite_ok h₀ h₁, ok_bind]

/-- **A character is sent**, if there is one. -/
theorem transmit_eq (h₀ : 1 ≤ s.uartTransmitIdx) (h₁ : s.uartTransmitIdx ≤ maxBufferLen) :
    uartSystem.exec s .transmit = .ok { s with
      uartTransmitIdx := s.uartTransmitIdx - 1
      echoed := s.echoed ++ [s.uartTransmitBuffer (s.uartTransmitIdx - 1).toNat]
      ier := if s.uartTransmitIdx - 1 = 0 then disableUartTransmitInterrupt s.ier else s.ier } := by
  show shellUartIrqHandler s 0x02 0 = _
  rw [shellUartIrqHandler, if_neg (by decide), if_pos (by decide)]
  have hread : bufferRead s.uartTransmitBuffer (s.uartTransmitIdx - 1)
      = .ok (s.uartTransmitBuffer (s.uartTransmitIdx - 1).toNat) := bufferRead_ok (by omega) (by omega)
  simp only [hread, ok_bind]

end OsdiKernel
