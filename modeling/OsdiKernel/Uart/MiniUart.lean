import OsdiKernel.ListHead

/-!
# The mini UART

What `uart.c` does with the mini UART's registers. `AUX_MU_IER` is its interrupt
enable register: bit 0 for a received byte, bit 1 for an empty transmitter. The
enable and disable functions read it, change it and write it back.
-/

namespace OsdiKernel

/-- `'\n'` -/
def lineFeed : UInt8 := 10

/-- `'\r'` -/
def carriageReturn : UInt8 := 13

/-- The last line of `uart_getc`. -/
def crToNl (r : UInt8) : UInt8 := if r = carriageReturn then lineFeed else r

/-- `uart_getc`, where `rx` is what the line has still to deliver. It waits for a byte, if need be for ever. -/
def uartGetc : List UInt8 → Except Fault (UInt8 × List UInt8)
  | [] => .error .spin
  | r :: rx => .ok (crToNl r, rx)

theorem crToNl_of_ne {r : UInt8} (h : r ≠ carriageReturn) : crToNl r = r := if_neg h

/-! ## The interrupt enable register -/

/-- `enable_uart_read_interrupt` -/
def enableUartReadInterrupt (ier : Nat) : Nat := ier ||| 1

/-- `enable_uart_transmit_interrupt` -/
def enableUartTransmitInterrupt (ier : Nat) : Nat := ier ||| 2

/-- `disable_uart_read_interrupt` -/
def disableUartReadInterrupt (ier : Nat) : Nat := ier &&& 2

/-- `disable_uart_transmit_interrupt` -/
def disableUartTransmitInterrupt (ier : Nat) : Nat := ier &&& 1

/-- A received byte interrupts. -/
def readEnabled (ier : Nat) : Bool := ier.testBit 0

/-- An empty transmitter interrupts. -/
def transmitEnabled (ier : Nat) : Bool := ier.testBit 1

section Enable

variable (ier : Nat)

@[simp] theorem readEnabled_enableRead : readEnabled (enableUartReadInterrupt ier) = true := by
  unfold readEnabled enableUartReadInterrupt
  rw [Nat.testBit_or, show Nat.testBit 1 0 = true from rfl, Bool.or_true]

@[simp] theorem readEnabled_disableRead : readEnabled (disableUartReadInterrupt ier) = false := by
  unfold readEnabled disableUartReadInterrupt
  rw [Nat.testBit_and, show Nat.testBit 2 0 = false from rfl, Bool.and_false]

@[simp] theorem readEnabled_enableTransmit :
    readEnabled (enableUartTransmitInterrupt ier) = readEnabled ier := by
  unfold readEnabled enableUartTransmitInterrupt
  rw [Nat.testBit_or, show Nat.testBit 2 0 = false from rfl, Bool.or_false]

@[simp] theorem readEnabled_disableTransmit :
    readEnabled (disableUartTransmitInterrupt ier) = readEnabled ier := by
  unfold readEnabled disableUartTransmitInterrupt
  rw [Nat.testBit_and, show Nat.testBit 1 0 = true from rfl, Bool.and_true]

@[simp] theorem transmitEnabled_enableTransmit :
    transmitEnabled (enableUartTransmitInterrupt ier) = true := by
  unfold transmitEnabled enableUartTransmitInterrupt
  rw [Nat.testBit_or, show Nat.testBit 2 1 = true from rfl, Bool.or_true]

@[simp] theorem transmitEnabled_disableTransmit :
    transmitEnabled (disableUartTransmitInterrupt ier) = false := by
  unfold transmitEnabled disableUartTransmitInterrupt
  rw [Nat.testBit_and, show Nat.testBit 1 1 = false from rfl, Bool.and_false]

end Enable

end OsdiKernel
