import OsdiKernel.Uart.ShellIo

/-!
# The indices of the shell's buffers

Nothing keeps the read index from passing the end of its buffer but that the
shell reads fast enough, and the same goes for the transmit index. What keeps the
transmit index from going below zero is that the interrupt is disabled when the
buffer is empty. The shell enables it after it has put a character in, but not
in the same critical section: if the handler sends that character first, the
interrupt is enabled with nothing to send.

So the indices stay in range where there is room for what comes in, and the
handler does not empty the transmit buffer between those two steps of the shell.
-/

namespace OsdiKernel

variable {s s' s₀ : ShellIo} {op : UartOp}

/-- The shell is about to put a character into the transmit buffer, -/
def ShellPc.enqueues : ShellPc → Bool
  | .enqueue _ => true
  | _ => false

/-- or has, and is about to enable the interrupt. -/
def ShellPc.enables : ShellPc → Bool
  | .enableTransmit _ => true
  | _ => false

/-- There is room for what comes in, and what the shell has put in stays until it has enabled the interrupt. -/
def Roomy (s : ShellIo) : UartOp → Prop
  | .receive _ => s.uartReadIdx < maxBufferLen
  | .transmit => s.pc.enables = true → 2 ≤ s.uartTransmitIdx
  | .shell => s.pc.enqueues = true → s.uartTransmitIdx < maxBufferLen

instance (s : ShellIo) : ∀ op, Decidable (Roomy s op)
  | .receive _ => inferInstanceAs (Decidable (_ < _))
  | .transmit => inferInstanceAs (Decidable (_ → _))
  | .shell => inferInstanceAs (Decidable (_ → _))

/-- The indices are in range. -/
def IndicesInRange (s : ShellIo) : Prop :=
  (0 ≤ s.uartReadIdx ∧ s.uartReadIdx ≤ maxBufferLen) ∧
  (0 ≤ s.uartTransmitIdx ∧ s.uartTransmitIdx ≤ maxBufferLen)

/-- And what keeps them there. -/
structure IndexInv (s : ShellIo) : Prop where
  range : IndicesInRange s
  /-- Only the shell takes characters out of the read buffer. -/
  dequeue : s.pc = .dequeue → 1 ≤ s.uartReadIdx
  /-- The shell's last character is still there when it enables the interrupt. -/
  enable : ∀ c, s.pc = .enableTransmit c → 1 ≤ s.uartTransmitIdx
  /-- An enabled interrupt has something to send. -/
  enabled : transmitEnabled s.ier = true → 1 ≤ s.uartTransmitIdx

theorem indexInv_boot (h : UartBoot s) : IndexInv s where
  range := by
    unfold IndicesInRange maxBufferLen
    rw [h.readIdx, h.transmitIdx]
    omega
  dequeue := by
    intro hpc
    rw [h.pc] at hpc
    exact ShellPc.noConfusion hpc
  enable := by
    intro c hpc
    rw [h.pc] at hpc
    exact ShellPc.noConfusion hpc
  enabled := by
    intro hen
    rw [h.ier] at hen
    exact absurd hen (by decide)

/-- The shell's own steps. -/
theorem indexInv_shell (h : IndexInv s) (hroom : Roomy s .shell) :
    ∃ s', uartSystem.exec s .shell = .ok s' ∧ IndexInv s' := by
  obtain ⟨⟨⟨hr0, hr1⟩, ht0, ht1⟩, hdeq, hena, hen⟩ := h
  show ∃ s', readTransmit s = .ok s' ∧ IndexInv s'
  unfold readTransmit
  cases hpc : s.pc with
  | poll =>
      refine ⟨_, rfl, ⟨⟨hr0, hr1⟩, ht0, ht1⟩, fun hp => ?_, fun c hp => ?_, hen⟩
      · by_cases hi : s.uartReadIdx > 0
        · exact hi
        · rw [if_neg hi] at hp
          exact ShellPc.noConfusion hp
      · by_cases hi : s.uartReadIdx > 0
        · rw [if_pos hi] at hp
          exact ShellPc.noConfusion hp
        · rw [if_neg hi] at hp
          exact ShellPc.noConfusion hp
  | dequeue =>
      have h1 := hdeq hpc
      have hread : bufferRead s.uartReadBuffer (s.uartReadIdx - 1) = .ok (s.uartReadBuffer (s.uartReadIdx - 1).toNat) :=
        bufferRead_ok (by omega) (by omega)
      simp only [hread, ok_bind]
      refine ⟨_, rfl, ⟨⟨?_, ?_⟩, ht0, ht1⟩, nofun,
        nofun, hen⟩
      · show 0 ≤ s.uartReadIdx - 1
        omega
      · show s.uartReadIdx - 1 ≤ maxBufferLen
        omega
  | enqueue c =>
      have h1 := hroom (by rw [hpc]; rfl)
      have hwrite : bufferWrite s.uartTransmitBuffer s.uartTransmitIdx c = .ok _ := bufferWrite_ok ht0 h1
      simp only [hwrite, ok_bind]
      refine ⟨_, rfl, ⟨⟨hr0, hr1⟩, ?_, ?_⟩, nofun, fun d _ => ?_, fun he => ?_⟩
      · show 0 ≤ s.uartTransmitIdx + 1
        omega
      · show s.uartTransmitIdx + 1 ≤ maxBufferLen
        omega
      · show 1 ≤ s.uartTransmitIdx + 1
        omega
      · show 1 ≤ s.uartTransmitIdx + 1
        omega
  | enableTransmit c =>
      exact ⟨_, rfl, ⟨⟨hr0, hr1⟩, ht0, ht1⟩, nofun,
        nofun, fun _ => hena c hpc⟩
  | drain =>
      refine ⟨_, rfl, ⟨⟨hr0, hr1⟩, ht0, ht1⟩, fun hp => ?_, fun c hp => ?_, hen⟩
      · by_cases hi : s.uartTransmitIdx ≠ 0
        · rw [if_pos hi] at hp
          exact ShellPc.noConfusion hp
        · rw [if_neg hi] at hp
          exact ShellPc.noConfusion hp
      · by_cases hi : s.uartTransmitIdx ≠ 0
        · rw [if_pos hi] at hp
          exact ShellPc.noConfusion hp
        · rw [if_neg hi] at hp
          exact ShellPc.noConfusion hp

/-- **A step** with room returns, and keeps the indices in range. -/
theorem indexInv_step : (uartSystemWhen Roomy).Keeps IndexInv := by
  intro s op h hl
  obtain ⟨hlegal, hroom⟩ := hl
  cases op with
  | receive r =>
      obtain ⟨⟨⟨hr0, _⟩, ht⟩, hdeq, hena, hen⟩ := h
      have hlt : s.uartReadIdx < maxBufferLen := hroom
      refine ⟨_, receive_eq hr0 hlt, ⟨⟨?_, ?_⟩, ht⟩, fun hp => ?_, hena, hen⟩
      · show 0 ≤ s.uartReadIdx + 1
        omega
      · show s.uartReadIdx + 1 ≤ maxBufferLen
        omega
      · have := hdeq hp
        show 1 ≤ s.uartReadIdx + 1
        omega
  | transmit =>
      obtain ⟨⟨hr, ht0, ht1⟩, hdeq, hena, hen⟩ := h
      have h1 := hen hlegal
      refine ⟨_, transmit_eq h1 ht1, ⟨hr, ?_, ?_⟩, hdeq, fun c hp => ?_, fun he => ?_⟩
      · show 0 ≤ s.uartTransmitIdx - 1
        omega
      · show s.uartTransmitIdx - 1 ≤ maxBufferLen
        omega
      · have hpc : s.pc = .enableTransmit c := hp
        have := hroom (by rw [hpc]; rfl)
        show 1 ≤ s.uartTransmitIdx - 1
        omega
      · by_cases hz : s.uartTransmitIdx - 1 = 0
        · simp [hz] at he
        · show 1 ≤ s.uartTransmitIdx - 1
          omega
  | shell => exact indexInv_shell h hroom

/--
**The indices stay in range**, and the handler inside the buffers, as long as no
byte is received into a full read buffer, the shell puts no character into a full
transmit buffer, and the handler does not send its last one before the shell has
enabled the interrupt. Then an enabled transmit interrupt always has something to
send.
-/
theorem indices_in_range (h₀ : UartBoot s₀) (h : (uartSystemWhen Roomy).Reach s₀ s) :
    IndicesInRange s ∧ (transmitEnabled s.ier = true → 1 ≤ s.uartTransmitIdx) ∧
    ∀ op, (uartSystemWhen Roomy).legal s op → ∃ s', (uartSystemWhen Roomy).exec s op = .ok s' := by
  have hinv := h.inv (indexInv_boot h₀) indexInv_step
  refine ⟨hinv.range, hinv.enabled, fun op hl => ?_⟩
  obtain ⟨s', hs', _⟩ := indexInv_step s op hinv hl
  exact ⟨s', hs'⟩

/-! ## Runs that can be computed -/

/-- When the shell starts. -/
def uartStart : ShellIo where
  uartReadIdx := 0
  uartTransmitIdx := 0
  uartReadBuffer := fun _ => 0
  uartTransmitBuffer := fun _ => 0
  ier := enableUartReadInterrupt 0
  pc := .poll
  received := []
  handed := []
  echoed := []

theorem uartBoot_start : UartBoot uartStart := ⟨rfl, rfl, rfl, rfl, rfl, rfl, rfl⟩

instance (s : ShellIo) : ∀ op, Decidable (uartSystem.legal s op)
  | .receive _ => inferInstanceAs (Decidable (readEnabled s.ier = true))
  | .transmit => inferInstanceAs (Decidable (transmitEnabled s.ier = true))
  | .shell => inferInstanceAs (Decidable True)

instance (s : ShellIo) (op : UartOp) : Decidable ((uartSystemWhen Roomy).legal s op) :=
  inferInstanceAs (Decidable (_ ∧ _))

/-- One character is read and echoed. -/
theorem indices_in_range_echo :
    ∃ s, s.echoed = [97] ∧ IndicesInRange s := by
  have hrun : ((uartSystemWhen Roomy).run uartStart [.receive 97, .shell, .shell, .shell, .shell,
      .transmit]).map (fun s => s.echoed) = some [97] := by decide +kernel
  obtain ⟨s, hs, he⟩ := Option.map_eq_some_iff.mp hrun
  exact ⟨s, he, (indices_in_range uartBoot_start (System.Reach.of_run .init hs)).1⟩

/-- The handler sends the shell's last character before the shell enables the interrupt. -/
theorem not_indices_in_range :
    ¬ ∀ s₀ s, UartBoot s₀ → uartSystem.Reach s₀ s →
      IndicesInRange s ∧ (transmitEnabled s.ier = true → 1 ≤ s.uartTransmitIdx) ∧
      ∀ op, uartSystem.legal s op → ∃ s', uartSystem.exec s op = .ok s' := by
  intro hall
  have hrun : (uartSystem.run uartStart [.receive 97, .shell, .shell, .shell, .shell, .receive 98, .shell,
      .shell, .shell, .transmit, .transmit, .shell]).map
      (fun s => (transmitEnabled s.ier, s.uartTransmitIdx)) = some (true, 0) := by decide +kernel
  obtain ⟨s, hs, he⟩ := Option.map_eq_some_iff.mp hrun
  obtain ⟨hen, hidx⟩ := Prod.mk.inj he
  have := (hall uartStart s uartBoot_start (System.Reach.of_run .init hs)).2.1 hen
  omega

end OsdiKernel
