import OsdiKernel.Sched.TaskSystem
import OsdiKernel.Uart.MiniUart
import OsdiKernel.Wait.Wait

/-!
# `block_uart_read`

Tasks that wait for a byte, the UART's interrupt that wakes them, and the timer
that takes the CPU from them. `block_uart_read` and the `wait` it calls are taken
apart into the steps between which an interrupt can come; an interrupt, with the
`task_preemption` at its end, is one step.
-/

namespace OsdiKernel

/-- What a task does next in `block_uart_read`. -/
inductive ReadPc where
  /-- It is not there. -/
  | outside
  /-- `while (uart_read_status() != UART_READ_READY)` -/
  | status
  /-- `enable_uart_read_interrupt()` -/
  | enable
  /-- `current->state = TASK_WAITING` -/
  | setWaiting
  /-- `DECLARE_WAITQUEUE` and `add_wait_queue_entry_tail` -/
  | enqueue
  /-- `schedule()` -/
  | schedule
  deriving DecidableEq, Repr

/-- The kernel, the mini UART's `AUX_MU_IER`, and where each task is. -/
structure ReadState where
  w : WaitState
  ier : Nat
  pc : TaskPtr → ReadPc
  /-- Where the local of `wait` is in each task's call. -/
  waitingTask : TaskPtr → Nat

/-- `&uart_read_waitQueue` -/
def uartReadWaitQueue : Nat := 0

/-- `UART_READ_READY` -/
def uartReadReady : Nat := 1

/-- `uart_read_status` -/
def uartReadStatus (auxMuLsr : Nat) : Nat := auxMuLsr &&& 1

namespace ReadState

/-- The current task goes on from there. -/
def goto (s : ReadState) (pc : ReadPc) : ReadState :=
  { s with pc := Function.update s.pc s.w.k.current pc }

/-- The same with another kernel. -/
def withKernel (s : ReadState) (k : Kernel) : ReadState := { s with w := { s.w with k } }

end ReadState

/-- The first line of `wait`. -/
def setWaiting (k : Kernel) : Kernel := k.updateTask k.current (fun t => { t with state := .waiting })

/-- The next two. -/
def enqueueCurrent (w : WaitState) (wqHead waitingTask : Nat) : Except Fault WaitState := do
  let w := declareWaitqueue w waitingTask w.k.current
  let links ← addWaitQueueEntryTail w.links wqHead waitingTask
  .ok { w with links }

/-- Together they are `wait`, as far as its call of `schedule`. -/
theorem goToSleep_eq (w : WaitState) (wqHead waitingTask : Nat) :
    goToSleep w wqHead waitingTask = enqueueCurrent { w with k := setWaiting w.k } wqHead waitingTask := rfl

/-- The current task's next step in `block_uart_read`, where `AUX_MU_LSR` reads `auxMuLsr`. -/
def blockUartRead (s : ReadState) (auxMuLsr : Nat) : Except Fault ReadState :=
  match s.pc s.w.k.current with
  | .outside => .ok s
  | .status =>
      if uartReadStatus auxMuLsr ≠ uartReadReady then .ok (s.goto .enable) else .ok (s.goto .outside)
  | .enable => .ok { s.goto .setWaiting with ier := enableUartReadInterrupt s.ier }
  | .setWaiting => .ok ((s.goto .enqueue).withKernel (setWaiting s.w.k))
  | .enqueue => do
      let w ← enqueueCurrent s.w uartReadWaitQueue (s.waitingTask s.w.k.current)
      .ok { s.goto .schedule with w }
  | .schedule => do
      -- it is back at the top of the loop when it is scheduled again
      let k ← schedule s.w.k
      .ok ((s.goto .status).withKernel k)

/-- `uart_read_irq_wakeUp_handler` -/
def uartReadIrqWakeUpHandler (s : ReadState) : Except Fault ReadState := do
  let w ← wakeUp s.w uartReadWaitQueue
  .ok { s with w, ier := disableUartReadInterrupt s.ier }

/-- `irq_exc_handler`, when `irq_exc_router` finds the UART's interrupt pending and no kernel shell. -/
def uartInterrupt (s : ReadState) : Except Fault ReadState := do
  let s ← uartReadIrqWakeUpHandler s
  let k ← taskPreemption s.w.k
  .ok (s.withKernel k)

/-- The same for the core timer's. -/
def timerInterrupt (s : ReadState) : Except Fault ReadState := do
  let k ← taskPreemption (timerTick s.w.k)
  .ok (s.withKernel k)

/-- What happens next. -/
inductive ReadOp where
  /-- The current task calls `block_uart_read`, -/
  | call (waitingTask : Nat)
  /-- or `schedule` from elsewhere, -/
  | yield
  /-- or takes its next step in `block_uart_read`. -/
  | step (auxMuLsr : Nat)
  | uartInterrupt
  | timerInterrupt

/-- The UART interrupts while its read interrupt is enabled only; the timer at any time. -/
def readSystem : System ReadState ReadOp Fault where
  legal := fun s op =>
    match op with
    | .call waitingTask => s.pc s.w.k.current = .outside ∧
        OnKernelStack s.w.k.current waitingTask waitQueueEntrySize
    | .yield => s.pc s.w.k.current = .outside
    | .step _ => s.pc s.w.k.current ≠ .outside
    | .uartInterrupt => readEnabled s.ier = true
    | .timerInterrupt => True
  exec := fun s op =>
    match op with
    | .call waitingTask =>
        .ok { s.goto .status with waitingTask := Function.update s.waitingTask s.w.k.current waitingTask }
    | .yield => do
        let k ← schedule s.w.k
        .ok (s.withKernel k)
    | .step auxMuLsr => blockUartRead s auxMuLsr
    | .uartInterrupt => uartInterrupt s
    | .timerInterrupt => timerInterrupt s

end OsdiKernel
