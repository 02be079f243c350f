import OsdiKernel.Uart.Indices

/-!
# What comes in goes out

A buffer that is filled and emptied at the same end gives back first what it was
given last. So the characters come out in the order they went in only where a
buffer never holds two different ones: each finds its buffer empty, or holding
nothing but copies of itself.
-/

namespace OsdiKernel

variable {s s' s₀ : ShellIo} {op : UartOp} {c d : UInt8}

/-- The buffer holds nothing but copies of `c`. -/
def OnlyCopies (buffer : Nat → UInt8) (idx : Int) (c : UInt8) : Prop := ∀ i, i < idx.toNat → buffer i = c

instance (buffer : Nat → UInt8) (idx : Int) (c : UInt8) : Decidable (OnlyCopies buffer idx c) :=
  inferInstanceAs (Decidable (∀ i, i < _ → _))

/-- The character the shell has taken out of one buffer and not yet put into the other. -/
def ShellPc.inHand : ShellPc → List UInt8
  | .enqueue c => [c]
  | _ => []

/-- A character finds its buffer empty, or holding copies of itself; and nothing is sent from an empty one. -/
def OneAtATime (s : ShellIo) : UartOp → Prop
  | .receive r => OnlyCopies s.uartReadBuffer s.uartReadIdx (crToNl r)
  | .transmit => 1 ≤ s.uartTransmitIdx
  | .shell => ∀ c ∈ s.pc.inHand, OnlyCopies s.uartTransmitBuffer s.uartTransmitIdx c

instance (s : ShellIo) : ∀ op, Decidable (OneAtATime s op)
  | .receive _ => inferInstanceAs (Decidable (OnlyCopies _ _ _))
  | .transmit => inferInstanceAs (Decidable (_ ≤ _))
  | .shell => inferInstanceAs (Decidable (∀ c ∈ s.pc.inHand, _))

instance (s : ShellIo) (op : UartOp) : Decidable ((uartSystemWhen OneAtATime).legal s op) :=
  inferInstanceAs (Decidable (_ ∧ _))

/-- Nothing is lost, made up or overtaken, between the handler and the shell and between the shell and the screen. -/
structure Fifo (s : ShellIo) : Prop where
  handed : s.handed <+: s.received
  echoed : s.echoed <+: s.handed

/-- A buffer of copies of `c`, as many as the index says. -/
structure Copies (buffer : Nat → UInt8) (idx : Int) (n : Nat) (c : UInt8) : Prop where
  idx : idx = n
  copies : ∀ i, i < n → buffer i = c

namespace Copies

variable {buffer : Nat → UInt8} {idx : Int} {n : Nat}

theorem onlyCopies (h : Copies buffer idx n c) (hd : OnlyCopies buffer idx d) : n = 0 ∨ c = d := by
  rcases Nat.eq_zero_or_pos n with hn | hn
  · exact Or.inl hn
  · have h1 := hd 0 (by rw [h.idx]; omega)
    exact Or.inr ((h.copies 0 hn).symm.trans h1)

/-- One more of them. -/
theorem push (h : Copies buffer idx n c) (hd : OnlyCopies buffer idx d) :
    Copies (Function.update buffer idx.toNat d) (idx + 1) (n + 1) d where
  idx := by rw [h.idx]; omega
  copies := by
    intro i hi
    have hn : idx.toNat = n := by rw [h.idx]; omega
    rw [hn]
    by_cases hin : i = n
    · rw [hin, Function.update_self]
    · rw [Function.update_of_ne hin]
      exact hd i (by omega)

/-- The last of them. -/
theorem pop (h : Copies buffer idx (n + 1) c) :
    buffer (idx - 1).toNat = c ∧ Copies buffer (idx - 1) n c := by
  refine ⟨h.copies _ ?_, ?_, fun i hi => h.copies i (by omega)⟩
  · rw [h.idx]; omega
  · rw [h.idx]; omega

end Copies

/-- What is in a buffer is what went in and has not come out. -/
structure FifoInv (s : ShellIo) : Prop where
  read : ∃ n c, Copies s.uartReadBuffer s.uartReadIdx n c ∧ s.received = s.handed ++ List.replicate n c
  transmit : ∃ n c, Copies s.uartTransmitBuffer s.uartTransmitIdx n c ∧
    s.handed = s.echoed ++ List.replicate n c ++ s.pc.inHand

theorem fifoInv_boot (h : UartBoot s) : FifoInv s where
  read := by
    refine ⟨0, 0, ⟨by rw [h.readIdx]; rfl, fun i hi => absurd hi (Nat.not_lt_zero i)⟩, ?_⟩
    rw [h.received, h.handed]
    rfl
  transmit := by
    refine ⟨0, 0, ⟨by rw [h.transmitIdx]; rfl, fun i hi => absurd hi (Nat.not_lt_zero i)⟩, ?_⟩
    rw [h.handed, h.echoed, h.pc]
    rfl

/-- Copies of a character, and one more. -/
theorem replicate_snoc {n : Nat} (h : n = 0 ∨ c = d) :
    List.replicate n c ++ [d] = List.replicate (n + 1) d := by
  rcases h with rfl | rfl
  · rfl
  · exact (List.replicate_succ' ..).symm

theorem bufferRead_inv {buffer : Nat → UInt8} {idx : Int} {α : Type} {f : UInt8 → Except Fault α} {a : α}
    (h : (bufferRead buffer idx >>= f) = .ok a) : 0 ≤ idx ∧ f (buffer idx.toNat) = .ok a := by
  unfold bufferRead at h
  by_cases hr : 0 ≤ idx ∧ idx < maxBufferLen
  · rw [if_pos hr, ok_bind] at h
    exact ⟨hr.1, h⟩
  · rw [if_neg hr, error_bind] at h
    exact absurd h (by simp)

theorem bufferWrite_inv {buffer : Nat → UInt8} {idx : Int} {α : Type} {f : (Nat → UInt8) → Except Fault α}
    {a : α} (h : (bufferWrite buffer idx c >>= f) = .ok a) :
    f (Function.update buffer idx.toNat c) = .ok a := by
  unfold bufferWrite at h
  by_cases hr : 0 ≤ idx ∧ idx < maxBufferLen
  · rw [if_pos hr, ok_bind] at h
    exact h
  · rw [if_neg hr, error_bind] at h
    exact absurd h (by simp)

/-- The shell's own steps. -/
theorem fifoInv_shell (h : FifoInv s) (hone : OneAtATime s .shell) (hrun : readTransmit s = .ok s') :
    FifoInv s' := by
  obtain ⟨⟨n, c, hr, hrec⟩, m, d, ht, hhand⟩ := h
  unfold readTransmit at hrun
  cases hpc : s.pc with
  | poll =>
      rw [hpc] at hrun hhand
      obtain rfl := Except.ok.inj hrun
      refine ⟨⟨n, c, hr, hrec⟩, m, d, ht, hhand.trans ?_⟩
      by_cases hi : s.uartReadIdx > 0
      · simp [hi, ShellPc.inHand]
      · simp [hi, ShellPc.inHand]
  | dequeue =>
      rw [hpc] at hrun hhand
      obtain ⟨h0, hs'⟩ := bufferRead_inv hrun
      obtain rfl := Except.ok.inj hs'
      obtain ⟨k, rfl⟩ : ∃ k, n = k + 1 := ⟨n - 1, by have := hr.idx; omega⟩
      obtain ⟨hc, hpop⟩ := hr.pop
      refine ⟨⟨k, c, hpop, ?_⟩, m, d, ht, ?_⟩
      · show s.received = s.handed ++ [s.uartReadBuffer (s.uartReadIdx - 1).toNat] ++ List.replicate k c
        rw [hc, hrec, List.append_assoc, List.replicate_succ]
        rfl
      · show s.handed ++ [_] = s.echoed ++ List.replicate m d ++ [_]
        rw [hhand, show ShellPc.inHand .dequeue = [] from rfl, List.append_nil]
  | enqueue e =>
      rw [hpc] at hrun hhand
      have hcopies : OnlyCopies s.uartTransmitBuffer s.uartTransmitIdx e :=
        hone e (by rw [hpc]; exact List.mem_singleton_self e)
      have hs' := bufferWrite_inv hrun
      obtain rfl := Except.ok.inj hs'
      refine ⟨⟨n, c, hr, hrec⟩, m + 1, e, ht.push hcopies, ?_⟩
      show s.handed = s.echoed ++ List.replicate (m + 1) e ++ []
      rw [hhand, List.append_nil, List.append_assoc, show ShellPc.inHand (.enqueue e) = [e] from rfl,
        replicate_snoc (ht.onlyCopies hcopies)]
  | enableTransmit e =>
      rw [hpc] at hrun hhand
      obtain rfl := Except.ok.inj hrun
      exact ⟨⟨n, c, hr, hrec⟩, m, d, ht, hhand⟩
  | drain =>
      rw [hpc] at hrun hhand
      obtain rfl := Except.ok.inj hrun
      refine ⟨⟨n, c, hr, hrec⟩, m, d, ht, hhand.trans ?_⟩
      by_cases hi : s.uartTransmitIdx ≠ 0
      · simp [hi, ShellPc.inHand]
      · simp [hi, ShellPc.inHand]

/-- **A step** in which a character meets no other kind keeps the order. -/
theorem fifoInv_step (h : FifoInv s) (hl : (uartSystemWhen OneAtATime).legal s op)
    (hrun : (uartSystemWhen OneAtATime).exec s op = .ok s') : FifoInv s' := by
  cases op with
  | shell => exact fifoInv_shell h hl.2 hrun
  | receive r =>
      obtain ⟨⟨n, c, hr, hrec⟩, htr⟩ := h
      have hcopies : OnlyCopies s.uartReadBuffer s.uartReadIdx (crToNl r) := hl.2
      have hrun' : shellUartIrqHandler s 0x04 r = .ok s' := hrun
      rw [shellUartIrqHandler, if_pos (by decide)] at hrun'
      have hs' := bufferWrite_inv hrun'
      obtain rfl := Except.ok.inj hs'
      refine ⟨⟨n + 1, crToNl r, hr.push hcopies, ?_⟩, htr⟩
      show s.received ++ [crToNl r] = s.handed ++ List.replicate (n + 1) (crToNl r)
      rw [hrec, List.append_assoc, replicate_snoc (hr.onlyCopies hcopies)]
  | transmit =>
      obtain ⟨hread, m, d, ht, hhand⟩ := h
      have h1 : 1 ≤ s.uartTransmitIdx := hl.2
      have hrun' : shellUartIrqHandler s 0x02 0 = .ok s' := hrun
      rw [shellUartIrqHandler, if_neg (by decide), if_pos (by decide)] at hrun'
      have hs' := (bufferRead_inv hrun').2
      obtain rfl := Except.ok.inj hs'
      obtain ⟨k, rfl⟩ : ∃ k, m = k + 1 := ⟨m - 1, by have := ht.idx; omega⟩
      obtain ⟨hd, hpop⟩ := ht.pop
      refine ⟨hread, k, d, hpop, ?_⟩
      show s.handed = s.echoed ++ [s.uartTransmitBuffer (s.uartTransmitIdx - 1).toNat] ++ List.replicate k d ++ s.pc.inHand
      rw [hd, hhand, List.replicate_succ, List.append_assoc s.echoed [d], List.singleton_append]

/--
**First in, first out**: the shell gets the characters in the order they were
received, and they are echoed in that order, as long as none meets another kind
in a buffer.
-/
theorem fifo_of_oneAtATime (h₀ : UartBoot s₀) (h : (uartSystemWhen OneAtATime).Reach s₀ s) : Fifo s := by
  obtain ⟨⟨n, c, _, hrec⟩, m, d, _, hhand⟩ :=
    h.inv_ok (fifoInv_boot h₀) (fun _ _ _ hs hl hrun => fifoInv_step hs hl hrun)
  exact ⟨⟨_, hrec.symm⟩, ⟨List.replicate m d ++ s.pc.inHand, by rw [hhand, List.append_assoc]⟩⟩

/-- A character is read, a second one is received, and the first is echoed. -/
theorem fifo_of_oneAtATime_echo :
    ∃ s, s.received = [97, 98] ∧ s.handed = [97] ∧ s.echoed = [97] ∧ Fifo s := by
  have hrun : ((uartSystemWhen OneAtATime).run uartStart [.receive 97, .shell, .shell, .receive 98, .shell,
      .shell, .transmit]).map (fun s => (s.received, s.handed, s.echoed))
      = some ([97, 98], [97], [97]) := by decide +kernel
  obtain ⟨s, hs, he⟩ := Option.map_eq_some_iff.mp hrun
  have hfifo := fifo_of_oneAtATime uartBoot_start (System.Reach.of_run .init hs)
  obtain ⟨h1, h2⟩ := Prod.mk.inj he
  obtain ⟨h2, h3⟩ := Prod.mk.inj h2
  exact ⟨s, h1, h2, h3, hfifo⟩

/-- Of two characters received before the shell reads, it is handed the second. -/
theorem not_fifo : ¬ ∀ s₀ s, UartBoot s₀ → uartSystem.Reach s₀ s → Fifo s := by
  intro hall
  have hrun : (uartSystem.run uartStart [.receive 97, .receive 98, .shell, .shell]).map
      (fun s => (s.received, s.handed)) = some ([97, 98], [98]) := by decide +kernel
  obtain ⟨s, hs, he⟩ := Option.map_eq_some_iff.mp hrun
  obtain ⟨h1, h2⟩ := Prod.mk.inj he
  have hpre := (hall uartStart s uartBoot_start (System.Reach.of_run .init hs)).handed
  rw [h1, h2] at hpre
  exact absurd hpre (by decide)

end OsdiKernel
