import Mathlib.Data.Nat.Find
import OsdiKernel.Boot.LoadKernel
import OsdiKernel.Shell.Stale
import OsdiKernel.Text.Reverse

/-!
# Editing in bounds

The kernel's shell and the boot loader's are one editor over buffers of different
sizes, with different commands. Here every access to the buffer is checked: what
is read or written past its end faults.

A line with room left is ended by a NUL before anybody looks at it. A full buffer
has no room for one, and `input_buffer_overflow_message` prints it up to the first
NUL all the same.
-/

namespace OsdiKernel

/-- A buffer of that size, as memory. -/
def bufferMemory (size : Nat) (buffer : Nat → UInt8) : Memory := fun a => if a < size then some (buffer a) else none

/-- `buffer[i] = c` -/
def storeChar (size : Nat) (buffer : Nat → UInt8) (i : Nat) (c : UInt8) : Except Fault (Nat → UInt8) :=
  if i < size then .ok (Function.update buffer i c) else .error .outOfBounds

/-- `if ( !test ) call else rest`, whatever the calls return. -/
def whenZero {η : Type} (test : Except Fault Int) (call rest : Except Fault η) : Except Fault η := do
  let r ← test
  if r = 0 then call else rest

/-- `uart_puts(s)`: the string is read to its NUL. -/
def uartPuts (s : Memory) : Except Fault (List UInt8) := printString s (some 0)

/-- A shell: its `MAX_BUFFER_LEN`, which handler its comparisons find, and the one for a line that is too long. -/
structure ShellProgram (η : Type) where
  maxBufferLen : Nat
  commands : Memory → Except Fault η
  overflow : η

/-- The comparisons of the kernel's `command_controller`, and `command_not_found`. -/
def kernelCommands (buffer : Memory) : Except Fault Handler :=
  let s := charsAt buffer 0
  whenZero (strcmp s (literal helpWord)) (.ok .help) <|
  whenZero (strcmp s (literal helloWord)) (.ok .hello) <|
  whenZero (strcmp s (literal rebootWord)) (.ok .reboot) <|
  whenZero (strcmp s (literal lsWord)) (.ok .cpioLs) <|
  whenZero (strncmp s (literal catWord) 3) (.ok .getCpioFile) <|
  whenZero (strcmp s (literal maWord)) (.ok .mmInit) <|
  whenZero (strcmp s (literal cpioSvcWord)) (.ok .cpioSvc) <|
  whenZero (strcmp s (literal currentElWord)) (.ok .currentEl) <|
  whenZero (strcmp s (literal coreTimerOnWord)) (.ok .coreTimerOn) <|
  whenZero (strcmp s (literal coreTimerOffWord)) (.ok .coreTimerOff) <|
  whenZero (strncmp s (literal setTimeoutWord) 10) (.ok .setTimeout) <| do
    let _ ← uartPuts buffer
    .ok .commandNotFound

/-- The kernel's shell. -/
def kernelShell : ShellProgram Handler where
  maxBufferLen := maxBufferLen
  commands := kernelCommands
  overflow := .inputBufferOverflowMessage

/-- What the boot loader's `command_controller` calls. -/
inductive BootHandler where
  | inputBufferOverflowMessage
  | help
  | hello
  | reboot
  | loadkernel
  | commandNotFound
  deriving DecidableEq, Repr

/-- `"loadKernel"` -/
def loadKernelWord : List UInt8 := [108, 111, 97, 100, 75, 101, 114, 110, 101, 108]

/-- The comparisons of the boot loader's `command_controller`, and `command_not_found`. -/
def bootloaderCommands (buffer : Memory) : Except Fault BootHandler :=
  let s := charsAt buffer 0
  whenZero (strcmp s (literal helpWord)) (.ok .help) <|
  whenZero (strcmp s (literal helloWord)) (.ok .hello) <|
  whenZero (strcmp s (literal rebootWord)) (.ok .reboot) <|
  whenZero (strcmp s (literal loadKernelWord)) (.ok .loadkernel) <| do
    let _ ← uartPuts buffer
    .ok .commandNotFound

/-- The boot loader's shell. -/
def bootloaderShell : ShellProgram BootHandler where
  maxBufferLen := bootBufferLen
  commands := bootloaderCommands
  overflow := .inputBufferOverflowMessage

namespace ShellProgram

variable {η : Type} (p : ShellProgram η)

/-- `command_controller`, of the key `c`: the line afterwards, and what was called. -/
def turn (line : CommandLine) (c : UInt8) : Except Fault (CommandLine × Option η) :=
  match parse c with
  | .unknown => .ok (line, none)
  | .backSpace => .ok (if line.counter > 0 then { line with counter := line.counter - 1 } else line, none)
  | .newLine => do
      let call ←
        if line.counter = p.maxBufferLen then do
          let _ ← uartPuts (bufferMemory p.maxBufferLen line.buffer)
          pure p.overflow
        else do
          let buffer ← storeChar p.maxBufferLen line.buffer line.counter 0
          p.commands (bufferMemory p.maxBufferLen buffer)
      .ok (freshLine, some call)
  | .regularInput =>
      if line.counter < p.maxBufferLen then do
        let buffer ← storeChar p.maxBufferLen line.buffer line.counter c
        .ok (⟨buffer, line.counter + 1⟩, none)
      else .ok (line, none)

/-- The line that the keys leave. -/
def run (keys : List UInt8) : Except Fault CommandLine :=
  keys.foldlM (fun line c => (p.turn line c).map Prod.fst) freshLine

/-- The counter is at the end of the buffer and there is no NUL in it. -/
def Full (line : CommandLine) : Prop :=
  line.counter = p.maxBufferLen ∧ ∀ i < p.maxBufferLen, line.buffer i ≠ 0

/-- However many of the keys have come, no access was outside the buffer and the counter is in range. -/
def InBounds (keys : List UInt8) : Prop :=
  ∀ typed, typed <+: keys → ∃ line, p.run typed = .ok line ∧ line.counter ≤ p.maxBufferLen

/-- No Enter comes upon a full buffer. -/
def EntersRoomy (keys : List UInt8) : Prop :=
  ∀ typed enter, typed ++ [enter] <+: keys → parse enter = .newLine →
    ∀ line, p.run typed = .ok line → ¬ p.Full line

/-- Any line that ends in the buffer is answered. -/
def Answers : Prop := ∀ buffer text, CString buffer 0 text → text.length < 2 ^ 31 → ∃ h, p.commands buffer = .ok h

end ShellProgram

variable {η : Type} {size i : Nat} {buffer : Nat → UInt8} {mem : Memory} {text keys : List UInt8} {c : UInt8}
  {line line' : CommandLine}

/-! ## Strings in the buffer -/

theorem bufferMemory_of_lt (hi : i < size) : bufferMemory size buffer i = some (buffer i) := if_pos hi

/-- A buffer with a NUL in it holds a string. -/
theorem cstring_of_nul (hi : i < size) (h0 : buffer i = 0) (hsize : size < 2 ^ 31) :
    ∃ text, CString (bufferMemory size buffer) 0 text ∧ text.length < size := by
  have hex : ∃ i, buffer i = 0 := ⟨i, h0⟩
  have hlt : Nat.find hex < size := (Nat.find_min' hex h0).trans_lt hi
  have hs : HoldsString buffer ((List.range (Nat.find hex)).map buffer) :=
    holdsString_ofFn (Nat.find_spec hex) (fun j hj => Nat.find_min hex hj)
  refine ⟨_, ⟨hs.nonzero, fun j c hj => ?_, ?_⟩, by rwa [List.length_map, List.length_range]⟩
  · have hjlt := (List.getElem?_eq_some_iff.mp hj).1
    rw [List.length_append, List.length_map, List.length_range, List.length_singleton] at hjlt
    rw [Nat.zero_add, bufferMemory_of_lt (by omega), hs.chars j c hj]
  · rw [List.length_map, List.length_range]
    omega

theorem uartPuts_ok (h : CString mem 0 text) : uartPuts mem = .ok text := by
  have hfit := h.fits
  exact readStringTurns_spec h (by omega)

/-- **Without a NUL**, the reading runs off the end. -/
theorem uartPuts_faults (hnz : ∀ i < size, buffer i ≠ 0) (hsize : size < 2 ^ 64) :
    uartPuts (bufferMemory size buffer) = .error .outOfBounds := by
  have hread : ∀ n p, p ≤ size → size - p < n →
      readStringTurns (bufferMemory size buffer) p n = .error .outOfBounds := by
    intro n
    induction n with
    | zero => exact fun _ _ h => absurd h (Nat.not_lt_zero _)
    | succ n ih =>
        intro p hp hn
        rw [readStringTurns]
        rcases Nat.eq_or_lt_of_le hp with rfl | hlt
        · have hnone : bufferMemory p buffer p = none := if_neg (Nat.lt_irrefl p)
          rw [loadByte, Nat.mod_eq_of_lt (by omega), hnone]
          rfl
        · rw [loadByte_of_lt (by omega) (bufferMemory_of_lt hlt), ok_bind, if_neg (hnz p hlt),
            ih (p + 1) hlt (by omega)]
          rfl
  exact hread (2 ^ 64) 0 (Nat.zero_le _) (by omega)

/-! ## The commands look no further than the NUL -/

theorem strcmp_returns (h : CString mem 0 text) (hlen : text.length < 2 ^ 31) {word : List UInt8}
    (hw : ∀ c ∈ word, c ≠ 0) : ∃ r, strcmp (charsAt mem 0) (literal word) = .ok r := by
  have hstrlen : strlen (charsAt mem 0) = .ok (0 + text.length) := strlenTurns_spec h.reads h.nonzero hlen
  obtain ⟨r, hr, _⟩ := strcmpTurns_spec hstrlen h.reads reads_literal h.nonzero hw hlen
  exact ⟨r, hr⟩

theorem strncmp_returns (h : CString mem 0 text) (n : Nat) {word : List UInt8} (hw : ∀ c ∈ word, c ≠ 0) :
    ∃ r, strncmp (charsAt mem 0) (literal word) n = .ok r := by
  obtain ⟨r, hr, _⟩ := strncmpTurns_spec (n := n) h.reads reads_literal h.nonzero hw
  exact ⟨r, hr⟩

/-- One comparison, when whatever comes of it returns. -/
theorem whenZero_returns {test : Except Fault Int} {h : η} {rest : Except Fault η} (ht : ∃ r, test = .ok r)
    (hr : ∃ h, rest = .ok h) : ∃ h', whenZero test (.ok h) rest = .ok h' := by
  obtain ⟨r, rfl⟩ := ht
  obtain ⟨h', rfl⟩ := hr
  rw [whenZero, ok_bind]
  by_cases h0 : r = 0
  · exact ⟨h, if_pos h0⟩
  · exact ⟨h', if_neg h0⟩

theorem kernelShell_answers : kernelShell.Answers := by
  intro buffer text h hlen
  have hword : ∀ {word : List UInt8}, (∀ c ∈ word, c ≠ 0) → ∃ r, strcmp (charsAt buffer 0) (literal word) = .ok r :=
    strcmp_returns h hlen
  refine whenZero_returns (hword (by decide +kernel)) <| whenZero_returns (hword (by decide +kernel)) <|
    whenZero_returns (hword (by decide +kernel)) <| whenZero_returns (hword (by decide +kernel)) <|
    whenZero_returns (strncmp_returns h 3 (by decide +kernel)) <| whenZero_returns (hword (by decide +kernel)) <|
    whenZero_returns (hword (by decide +kernel)) <| whenZero_returns (hword (by decide +kernel)) <|
    whenZero_returns (hword (by decide +kernel)) <| whenZero_returns (hword (by decide +kernel)) <|
    whenZero_returns (strncmp_returns h 10 (by decide +kernel)) ⟨.commandNotFound, ?_⟩
  rw [uartPuts_ok h]
  rfl

theorem bootloaderShell_answers : bootloaderShell.Answers := by
  intro buffer text h hlen
  have hword : ∀ {word : List UInt8}, (∀ c ∈ word, c ≠ 0) → ∃ r, strcmp (charsAt buffer 0) (literal word) = .ok r :=
    strcmp_returns h hlen
  refine whenZero_returns (hword (by decide +kernel)) <| whenZero_returns (hword (by decide +kernel)) <|
    whenZero_returns (hword (by decide +kernel)) <| whenZero_returns (hword (by decide +kernel))
    ⟨.commandNotFound, ?_⟩
  rw [uartPuts_ok h]
  rfl

/-! ## One key -/

namespace ShellProgram

variable {p : ShellProgram η}

/-- **Enter**, with the counter in range: it is answered but on a full buffer. -/
theorem enter_iff (ha : p.Answers) (hsize : p.maxBufferLen < 2 ^ 31) (hin : line.counter ≤ p.maxBufferLen)
    (hc : parse c = .newLine) :
    (∃ line' call, p.turn line c = .ok (line', call) ∧ line'.counter ≤ p.maxBufferLen) ↔ ¬ p.Full line := by
  rw [turn, hc]
  by_cases hend : line.counter = p.maxBufferLen
  · simp only [if_pos hend]
    by_cases hnul : ∃ i < p.maxBufferLen, line.buffer i = 0
    · obtain ⟨i, hi, h0⟩ := hnul
      obtain ⟨text, hs, _⟩ := cstring_of_nul hi h0 hsize
      rw [uartPuts_ok hs]
      exact iff_of_true ⟨freshLine, some p.overflow, rfl, Nat.zero_le _⟩ (fun hf => hf.2 i hi h0)
    · have hnz : ∀ i < p.maxBufferLen, line.buffer i ≠ 0 := fun i hi h0 => hnul ⟨i, hi, h0⟩
      rw [uartPuts_faults hnz (by omega)]
      refine iff_of_false ?_ (not_not.mpr ⟨hend, hnz⟩)
      rintro ⟨_, _, h, _⟩
      exact absurd h nofun
  · -- there is room for the NUL, and the string ends there at the latest
    have hlt : line.counter < p.maxBufferLen := by omega
    have hended : Function.update line.buffer line.counter 0 line.counter = 0 := Function.update_self ..
    obtain ⟨text, hs, hshort⟩ := cstring_of_nul hlt hended hsize
    obtain ⟨h, hh⟩ := ha _ text hs (by omega)
    simp only [if_neg hend, storeChar, if_pos hlt, ok_bind, hh]
    exact iff_of_true ⟨freshLine, some h, rfl, Nat.zero_le _⟩ (fun hf => hend hf.1)

/-- **Any key**: there is no access outside the buffer, and the counter stays in range, unless it is Enter on a full one. -/
theorem turn_iff (ha : p.Answers) (hsize : p.maxBufferLen < 2 ^ 31) (hin : line.counter ≤ p.maxBufferLen) (c : UInt8) :
    (∃ line' call, p.turn line c = .ok (line', call) ∧ line'.counter ≤ p.maxBufferLen) ↔
      (parse c = .newLine → ¬ p.Full line) := by
  cases hc : parse c with
  | newLine =>
      rw [enter_iff ha hsize hin hc]
      exact ⟨fun h _ => h, fun h => h rfl⟩
  | unknown =>
      refine iff_of_true ⟨line, none, ?_, hin⟩ nofun
      rw [turn, hc]
  | backSpace =>
      refine iff_of_true ⟨_, none, by rw [turn, hc], ?_⟩ nofun
      split
      · exact (Nat.sub_le _ _).trans hin
      · exact hin
  | regularInput =>
      refine iff_of_true ?_ nofun
      rw [turn, hc]
      by_cases hlt : line.counter < p.maxBufferLen
      · refine ⟨⟨Function.update line.buffer line.counter c, line.counter + 1⟩, none, ?_, hlt⟩
        simp only [if_pos hlt, storeChar, ok_bind]
      · exact ⟨line, none, by simp only [if_neg hlt], hin⟩

/-! ## Any number of keys -/

theorem run_concat (p : ShellProgram η) (keys : List UInt8) (c : UInt8) :
    p.run (keys ++ [c]) = p.run keys >>= fun line => (p.turn line c).map Prod.fst := by
  rw [run, List.foldlM_append]
  congr 1
  funext line
  rw [List.foldlM_cons]
  cases (p.turn line c).map Prod.fst <;> rfl

/-- **A run of keys**, the last one apart. -/
theorem inBounds_concat (ha : p.Answers) (hsize : p.maxBufferLen < 2 ^ 31) :
    p.InBounds (keys ++ [c]) ↔
      p.InBounds keys ∧ (parse c = .newLine → ∀ line, p.run keys = .ok line → ¬ p.Full line) := by
  constructor
  · intro h
    refine ⟨fun typed ht => h typed (ht.trans (List.prefix_append ..)), fun hc line hrun => ?_⟩
    obtain ⟨line₀, hrun₀, hin⟩ := h keys (List.prefix_append ..)
    obtain rfl := Except.ok.inj (hrun₀.symm.trans hrun)
    obtain ⟨line', hrun', hin'⟩ := h (keys ++ [c]) (List.prefix_refl _)
    rw [run_concat, hrun, ok_bind] at hrun'
    cases hturn : p.turn line₀ c with
    | error fault =>
        rw [hturn] at hrun'
        exact absurd hrun' nofun
    | ok r =>
        rw [hturn] at hrun'
        obtain rfl := Except.ok.inj hrun'
        exact (turn_iff ha hsize hin c).mp ⟨r.1, r.2, hturn, hin'⟩ hc
  · rintro ⟨h, hroomy⟩ typed ht
    rcases List.prefix_concat_iff.mp ht with rfl | ht
    · obtain ⟨line, hrun, hin⟩ := h keys (List.prefix_refl _)
      obtain ⟨line', call, hturn, hin'⟩ := (turn_iff ha hsize hin c).mpr (fun hc => hroomy hc line hrun)
      refine ⟨line', ?_, hin'⟩
      rw [run_concat, hrun, ok_bind, hturn]
      rfl
    · exact h typed ht

theorem entersRoomy_concat :
    p.EntersRoomy (keys ++ [c]) ↔
      p.EntersRoomy keys ∧ (parse c = .newLine → ∀ line, p.run keys = .ok line → ¬ p.Full line) := by
  constructor
  · intro h
    exact ⟨fun typed enter ht => h typed enter (ht.trans (List.prefix_append ..)), h keys c (List.prefix_refl _)⟩
  · rintro ⟨h, hlast⟩ typed enter ht hn
    rcases List.prefix_concat_iff.mp ht with he | ht
    · obtain ⟨rfl, he⟩ := List.append_inj' he rfl
      obtain rfl : enter = c := by simpa using he
      exact hlast hn
    · exact h typed enter ht hn

/-- **Any keys.** -/
theorem inBounds_iff (ha : p.Answers) (hsize : p.maxBufferLen < 2 ^ 31) (keys : List UInt8) :
    p.InBounds keys ↔ p.EntersRoomy keys := by
  induction keys using List.reverseRecOn with
  | nil =>
      refine iff_of_true (fun typed ht => ?_) (fun typed enter ht => absurd (List.prefix_nil.mp ht) (by simp))
      rw [List.prefix_nil.mp ht]
      exact ⟨freshLine, rfl, Nat.zero_le _⟩
  | append_singleton keys c ih => rw [inBounds_concat ha hsize, entersRoomy_concat, ih]

/-- A line typed with no backspace is in the buffer. -/
theorem run_typed (text : List UInt8) : (∀ c ∈ text, parse c = .regularInput) → text.length ≤ p.maxBufferLen →
    p.run text = .ok ⟨bufferOf text, text.length⟩ := by
  induction text using List.reverseRecOn with
  | nil => exact fun _ _ => rfl
  | append_singleton text c ih =>
      intro hreg hlen
      rw [List.length_append, List.length_singleton] at hlen
      have hc : parse c = .regularInput := hreg c (by simp)
      rw [run_concat, ih (fun d hd => hreg d (List.mem_append_left _ hd)) (by omega), ok_bind, turn, hc,
        ← update_bufferOf]
      simp only [storeChar, if_pos (show text.length < p.maxBufferLen by omega), ok_bind, List.length_append,
        List.length_singleton]
      rfl

/-- **Any line as long as the buffer** fills it. -/
theorem not_inBounds_of_full (ha : p.Answers) (hsize : p.maxBufferLen < 2 ^ 31)
    (hreg : ∀ c ∈ text, parse c = .regularInput) (hnz : ∀ c ∈ text, c ≠ 0) (hlen : text.length = p.maxBufferLen)
    (hn : parse c = .newLine) : ¬ p.InBounds (text ++ [c]) := by
  intro h
  have hs := holdsString_bufferOf hnz
  refine (inBounds_iff ha hsize _).mp h text c (List.prefix_refl _) hn _ (run_typed text hreg hlen.le) ⟨hlen, ?_⟩
  exact fun i hi => hs.ne_zero (by omega)

end ShellProgram

/-! ## The kernel's shell, with the arguments -/

theorem whenZero_of_ifZero {test : Except Fault Int} {call rest : Except Fault HandlerCall}
    {call' rest' : Except Fault Handler} {r : HandlerCall} (h : ifZero test call rest = .ok r)
    (hc : call = .ok r → call' = .ok r.handler) (hr : rest = .ok r → rest' = .ok r.handler) :
    whenZero test call' rest' = .ok r.handler := by
  obtain ⟨x, hx, h⟩ := bind_eq_ok h
  rw [whenZero, hx, ok_bind]
  by_cases h0 : x = 0
  · rw [if_pos h0] at h ⊢
    exact hc h
  · rw [if_neg h0] at h ⊢
    exact hr h

theorem callWith_handler {handler : Handler} {offset : Nat} {r : HandlerCall}
    (h : callWith buffer handler offset = .ok r) : r.handler = handler := by
  obtain ⟨_, _, h⟩ := bind_eq_ok h
  rw [← Except.ok.inj h]

/-- Whenever the argument is a string, the comparisons find the handler that is called with it. -/
theorem kernelCommands_of_callHandler {r : HandlerCall} (h : callHandler buffer = .ok r) :
    kernelCommands (lineMemory buffer) = .ok r.handler := by
  have hword : ∀ {handler : Handler}, Except.ok ⟨handler, none⟩ = Except.ok (ε := Fault) r →
      Except.ok handler = Except.ok (ε := Fault) r.handler := fun h => by rw [← Except.ok.inj h]
  refine whenZero_of_ifZero h hword fun h => whenZero_of_ifZero h hword fun h =>
    whenZero_of_ifZero h hword fun h => whenZero_of_ifZero h hword fun h =>
    whenZero_of_ifZero h (fun h => by rw [callWith_handler h]) fun h =>
    whenZero_of_ifZero h hword fun h => whenZero_of_ifZero h hword fun h =>
    whenZero_of_ifZero h hword fun h => whenZero_of_ifZero h hword fun h =>
    whenZero_of_ifZero h hword fun h => whenZero_of_ifZero h (fun h => by rw [callWith_handler h]) fun h => ?_
  obtain ⟨cs, hcs, _⟩ := bind_eq_ok h
  have hputs : uartPuts (lineMemory buffer) = .ok cs := hcs
  rw [hputs, callWith_handler h]
  rfl

/-- **Each turn of the kernel's shell**, with the argument's string or without. -/
theorem kernelShell_turn {call : Option HandlerCall} (hin : line.counter ≤ maxBufferLen)
    (h : shellTurn line c = .ok (line', call)) :
    kernelShell.turn line c = .ok (line', call.map HandlerCall.handler) := by
  rw [shellTurn] at h
  rw [ShellProgram.turn]
  cases hc : parse c with
  | unknown =>
      rw [hc] at h
      obtain ⟨rfl, rfl⟩ := Prod.mk.inj (Except.ok.inj h)
      rfl
  | backSpace =>
      rw [hc] at h
      obtain ⟨rfl, rfl⟩ := Prod.mk.inj (Except.ok.inj h)
      rfl
  | regularInput =>
      rw [hc] at h
      obtain ⟨rfl, rfl⟩ := Prod.mk.inj (Except.ok.inj h)
      show (if line.counter < maxBufferLen then _ else _) = _
      by_cases hlt : line.counter < maxBufferLen
      · rw [if_pos hlt, if_pos hlt, storeChar, show kernelShell.maxBufferLen = maxBufferLen from rfl, if_pos hlt]
        rfl
      · rw [if_neg hlt, if_neg hlt]
        rfl
  | newLine =>
      rw [hc] at h
      simp only [commandController] at h
      show (do
        let call ←
          if line.counter = maxBufferLen then do
            let _ ← uartPuts (lineMemory line.buffer)
            pure Handler.inputBufferOverflowMessage
          else do
            let buffer ← storeChar maxBufferLen line.buffer line.counter 0
            kernelCommands (lineMemory buffer)
        .ok (freshLine, some call)) = _
      by_cases hend : line.counter = maxBufferLen
      · rw [if_pos hend] at h ⊢
        obtain ⟨r, hr, h⟩ := bind_eq_ok h
        obtain ⟨rfl, rfl⟩ := Prod.mk.inj (Except.ok.inj h)
        obtain ⟨cs, hcs, _⟩ := bind_eq_ok hr
        have hputs : uartPuts (lineMemory line.buffer) = .ok cs := hcs
        rw [hputs, Option.map_some, callWith_handler hr]
        rfl
      · rw [if_neg hend] at h ⊢
        obtain ⟨r, hr, h⟩ := bind_eq_ok h
        obtain ⟨rfl, rfl⟩ := Prod.mk.inj (Except.ok.inj h)
        have hlt : line.counter < maxBufferLen := by omega
        rw [storeChar, if_pos hlt, ok_bind, kernelCommands_of_callHandler hr, ok_bind, Option.map_some]

/-! ## In bounds, or not -/

/--
**Line editing stays in the buffer**, in both shells, if and only if Enter is
never pressed on a buffer that is full and has no NUL in it.
-/
theorem editing_inBounds_iff (keys : List UInt8) :
    (kernelShell.InBounds keys ↔ kernelShell.EntersRoomy keys) ∧
      (bootloaderShell.InBounds keys ↔ bootloaderShell.EntersRoomy keys) :=
  ⟨ShellProgram.inBounds_iff kernelShell_answers (by decide) keys,
    ShellProgram.inBounds_iff bootloaderShell_answers (by decide) keys⟩

/-- 256 characters and Enter. -/
theorem not_editing_inBounds : ¬ ∀ keys, kernelShell.InBounds keys ∧ bootloaderShell.InBounds keys := by
  intro h
  have hreg : ∀ c ∈ List.replicate 256 (97 : UInt8), parse c = .regularInput := fun c hc => by
    rw [(List.mem_replicate.mp hc).2]
    decide
  have hnz : ∀ c ∈ List.replicate 256 (97 : UInt8), c ≠ 0 := fun c hc => by
    rw [(List.mem_replicate.mp hc).2]
    decide
  exact ShellProgram.not_inBounds_of_full (c := 13) kernelShell_answers (by decide) hreg hnz List.length_replicate
    (by decide) (h _).1

end OsdiKernel
