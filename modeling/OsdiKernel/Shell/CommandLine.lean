import OsdiKernel.Cpio.Newc
import OsdiKernel.Uart.ShellIo

/-!
# The command line

`shell.c`: keys are put into a buffer of the shell's, backspace takes the counter
back, and Enter ends the line with a NUL and looks for the command. Two of the
commands are told by a prefix, and what follows it is passed on by its address.

The comparisons are those of `string.c`. Reading past the buffer faults.
-/

namespace OsdiKernel

/-! ## Strings -/

/-- The loop of `strlen`, from `i` on, for so many turns. -/
def strlenTurns (s : Nat → Except Fault UInt8) (i : Nat) : Nat → Except Fault Nat
  | 0 => .error .spin
  | turns + 1 => do
      let c ← s i
      if c = 0 then .ok i else strlenTurns s (i + 1) turns

/-- `strlen`. The counter is an `int`. -/
def strlen (s : Nat → Except Fault UInt8) : Except Fault Nat := strlenTurns s 0 (2 ^ 31)

/-- The loop of `strcmp`, from `i` on, for so many turns. -/
def strcmpTurns (s1 s2 : Nat → Except Fault UInt8) (i : Nat) : Nat → Except Fault Int
  | 0 => .error .spin
  | turns + 1 => do
      let len ← strlen s1
      let x ← s1 i
      let y ← s2 i
      if i < len ∧ x = y then strcmpTurns s1 s2 (i + 1) turns else .ok (x.toNat - y.toNat)

/-- `strcmp` -/
def strcmp (s1 s2 : Nat → Except Fault UInt8) : Except Fault Int := strcmpTurns s1 s2 0 (2 ^ 31)

/-- `strncmp`, which `cpio_strncmp` repeats line by line. -/
def strncmp (a b : Nat → Except Fault UInt8) (n : Nat) : Except Fault Int := cpioStrncmpTurns a b 0 n

/-! ## Commands -/

/-- What `parse` makes of a character. -/
inductive SpecialCharacter where
  | backSpace
  | regularInput
  | newLine
  | unknown
  deriving DecidableEq, Repr

/-- `BACK_SPACE` -/
def backSpaceChar : UInt8 := 127

/-- `parse` -/
def parse (c : UInt8) : SpecialCharacter :=
  if c = backSpaceChar then .backSpace
  else if ¬ c < 128 then .unknown
  else if c = 10 ∨ c = 13 then .newLine
  else .regularInput

/-- What `command_controller` calls. -/
inductive Handler where
  | inputBufferOverflowMessage
  | help
  | hello
  | reboot
  | cpioLs
  | getCpioFile
  | mmInit
  | cpioSvc
  | currentEl
  | coreTimerOn
  | coreTimerOff
  | setTimeout
  | commandNotFound
  deriving DecidableEq, Repr

/-- A call of a handler, and the string its argument points to, where it has one. -/
structure HandlerCall where
  handler : Handler
  arg : Option (List UInt8)
  deriving DecidableEq, Repr

/-- `"help"` -/
def helpWord : List UInt8 := [104, 101, 108, 112]

/-- `"hello"` -/
def helloWord : List UInt8 := [104, 101, 108, 108, 111]

/-- `"reboot"` -/
def rebootWord : List UInt8 := [114, 101, 98, 111, 111, 116]

/-- `"ls"` -/
def lsWord : List UInt8 := [108, 115]

/-- `"cat "` -/
def catWord : List UInt8 := [99, 97, 116, 32]

/-- `"ma"` -/
def maWord : List UInt8 := [109, 97]

/-- `"cpio_svc"` -/
def cpioSvcWord : List UInt8 := [99, 112, 105, 111, 95, 115, 118, 99]

/-- `"currentEL"` -/
def currentElWord : List UInt8 := [99, 117, 114, 114, 101, 110, 116, 69, 76]

/-- `"coreTimerOn"` -/
def coreTimerOnWord : List UInt8 := [99, 111, 114, 101, 84, 105, 109, 101, 114, 79, 110]

/-- `"coreTimerOff"` -/
def coreTimerOffWord : List UInt8 := [99, 111, 114, 101, 84, 105, 109, 101, 114, 79, 102, 102]

/-- `"setTimeout "` -/
def setTimeoutWord : List UInt8 := [115, 101, 116, 84, 105, 109, 101, 111, 117, 116, 32]

/-- The shell's buffer as memory. -/
def lineMemory (buffer : Nat → UInt8) : Memory := fun a => if a < maxBufferLen then some (buffer a) else none

/-- A call with `buffer + offset`. -/
def callWith (buffer : Nat → UInt8) (handler : Handler) (offset : Nat) : Except Fault HandlerCall := do
  let arg ← printString (lineMemory buffer) (some offset)
  .ok ⟨handler, some arg⟩

/-- `if ( !test ) call else rest` -/
def ifZero (test : Except Fault Int) (call rest : Except Fault HandlerCall) : Except Fault HandlerCall := do
  let r ← test
  if r = 0 then call else rest

/-- The chain of comparisons in `command_controller`. -/
def callHandler (buffer : Nat → UInt8) : Except Fault HandlerCall :=
  let s := charsAt (lineMemory buffer) 0
  ifZero (strcmp s (literal helpWord)) (.ok ⟨.help, none⟩) <|
  ifZero (strcmp s (literal helloWord)) (.ok ⟨.hello, none⟩) <|
  ifZero (strcmp s (literal rebootWord)) (.ok ⟨.reboot, none⟩) <|
  ifZero (strcmp s (literal lsWord)) (.ok ⟨.cpioLs, none⟩) <|
  -- three of the four characters
  ifZero (strncmp s (literal catWord) 3) (callWith buffer .getCpioFile 4) <|
  ifZero (strcmp s (literal maWord)) (.ok ⟨.mmInit, none⟩) <|
  ifZero (strcmp s (literal cpioSvcWord)) (.ok ⟨.cpioSvc, none⟩) <|
  ifZero (strcmp s (literal currentElWord)) (.ok ⟨.currentEl, none⟩) <|
  ifZero (strcmp s (literal coreTimerOnWord)) (.ok ⟨.coreTimerOn, none⟩) <|
  ifZero (strcmp s (literal coreTimerOffWord)) (.ok ⟨.coreTimerOff, none⟩) <|
  -- ten of the eleven
  ifZero (strncmp s (literal setTimeoutWord) 10) (callWith buffer .setTimeout 11) <|
  callWith buffer .commandNotFound 0

/-- `buffer` and `buffer_counter` of `shell_start`. -/
structure CommandLine where
  buffer : Nat → UInt8
  counter : Nat

/-- `strset (buffer, 0, MAX_BUFFER_LEN)`, and the counter at 0. -/
def freshLine : CommandLine := ⟨fun _ => 0, 0⟩

/-- `command_controller`: the line afterwards, and what was called. -/
def commandController (inputParse : SpecialCharacter) (c : UInt8) (line : CommandLine) :
    Except Fault (CommandLine × Option HandlerCall) :=
  match inputParse with
  | .unknown => .ok (line, none)
  | .backSpace => .ok (if line.counter > 0 then { line with counter := line.counter - 1 } else line, none)
  | .newLine => do
      let call ←
        if line.counter = maxBufferLen then callWith line.buffer .inputBufferOverflowMessage 0
        else callHandler (Function.update line.buffer line.counter 0)
      .ok (freshLine, some call)
  | .regularInput =>
      .ok (if line.counter < maxBufferLen then
          ⟨Function.update line.buffer line.counter c, line.counter + 1⟩
        else line, none)

/-- One turn of the loop of `shell_start`, with the character that was read. -/
def shellTurn (line : CommandLine) (c : UInt8) : Except Fault (CommandLine × Option HandlerCall) :=
  commandController (parse c) c line

/-- Turns with no Enter among them: only the line is left. -/
def shellTurns (line : CommandLine) (keys : List UInt8) : Except Fault CommandLine :=
  keys.foldlM (fun line c => (shellTurn line c).map Prod.fst) line

/-- What is called at an Enter after these keys, on a line that was empty. -/
def enterAfter (keys : List UInt8) (enter : UInt8) : Except Fault (Option HandlerCall) := do
  let line ← shellTurns freshLine keys
  let (_, call) ← shellTurn line enter
  .ok call

variable {a b : Nat → Except Fault UInt8} {i n : Nat} {xs ys line : List UInt8} {buffer : Nat → UInt8}

/-! ## What the comparisons say -/

theorem strlenTurns_spec (ha : Reads a i (xs ++ [0])) (hx : ∀ c ∈ xs, c ≠ 0) (hn : xs.length < n) :
    strlenTurns a i n = .ok (i + xs.length) := by
  induction xs generalizing i n with
  | nil =>
      obtain ⟨n, rfl⟩ : ∃ m, n = m + 1 := ⟨n - 1, by omega⟩
      rw [strlenTurns, (reads_cons.mp ha).1]
      rfl
  | cons x xs ih =>
      obtain ⟨n, rfl⟩ : ∃ m, n = m + 1 := ⟨n - 1, by omega⟩
      obtain ⟨h0, hs⟩ := reads_cons.mp ha
      have hx0 : x ≠ 0 := hx x (List.mem_cons_self ..)
      rw [strlenTurns, h0]
      simp only [ok_bind, hx0, if_false]
      rw [ih hs (fun d hd => hx d (List.mem_cons_of_mem _ hd)) (Nat.lt_of_succ_lt_succ hn), List.length_cons]
      congr 1
      omega

/-- **`strcmp`** of the rest of two strings. -/
theorem strcmpTurns_spec (hlen : strlen a = .ok (i + xs.length)) (ha : Reads a i (xs ++ [0]))
    (hb : Reads b i (ys ++ [0])) (hx : ∀ c ∈ xs, c ≠ 0) (hy : ∀ c ∈ ys, c ≠ 0) (hn : xs.length < n) :
    ∃ r, strcmpTurns a b i n = .ok r ∧ (r = 0 ↔ xs = ys) := by
  induction xs generalizing ys i n with
  | nil =>
      obtain ⟨n, rfl⟩ : ∃ m, n = m + 1 := ⟨n - 1, by omega⟩
      rw [strcmpTurns, hlen, (reads_cons.mp ha).1]
      cases ys with
      | nil => exact ⟨0, by simp [(reads_cons.mp hb).1], by simp⟩
      | cons y ys =>
          have hy0 : (0 : UInt8) ≠ y := (hy y (List.mem_cons_self ..)).symm
          exact ⟨_, by simp [(reads_cons.mp hb).1], ⟨fun h => absurd h (byte_sub_ne_zero hy0), fun h => absurd h (by simp)⟩⟩
  | cons x xs ih =>
      obtain ⟨n, rfl⟩ : ∃ m, n = m + 1 := ⟨n - 1, by omega⟩
      obtain ⟨ha0, ha1⟩ := reads_cons.mp ha
      have hlt : i < i + (x :: xs).length := by
        rw [List.length_cons]
        omega
      rw [strcmpTurns, hlen, ha0]
      cases ys with
      | nil =>
          have hx0 : x ≠ 0 := hx x (List.mem_cons_self ..)
          exact ⟨_, by simp [(reads_cons.mp hb).1, hx0], ⟨fun h => absurd h (byte_sub_ne_zero hx0), fun h => absurd h (by simp)⟩⟩
      | cons y ys =>
          obtain ⟨hb0, hb1⟩ := reads_cons.mp hb
          simp only [ok_bind, hb0, hlt, true_and]
          by_cases hxy : x = y
          · subst hxy
            rw [if_pos rfl]
            have hlen' : strlen a = .ok (i + 1 + xs.length) := by
              rw [hlen, List.length_cons]
              congr 1
              omega
            obtain ⟨r, hr, hiff⟩ := ih hlen' ha1 hb1 (fun d hd => hx d (List.mem_cons_of_mem _ hd))
              (fun d hd => hy d (List.mem_cons_of_mem _ hd)) (Nat.lt_of_succ_lt_succ hn)
            exact ⟨r, hr, by rw [hiff, List.cons.injEq]; simp⟩
          · rw [if_neg hxy]
            exact ⟨_, rfl, ⟨fun h => absurd h (byte_sub_ne_zero hxy), fun h => absurd (List.cons.inj h).1 hxy⟩⟩

/-- **`strncmp`** compares so many characters. -/
theorem strncmpTurns_spec (ha : Reads a i (xs ++ [0])) (hb : Reads b i (ys ++ [0])) (hx : ∀ c ∈ xs, c ≠ 0)
    (hy : ∀ c ∈ ys, c ≠ 0) : ∃ r, cpioStrncmpTurns a b i n = .ok r ∧ (r = 0 ↔ xs.take n = ys.take n) := by
  induction n generalizing xs ys i with
  | zero => exact ⟨0, rfl, by simp⟩
  | succ n ih =>
      rw [cpioStrncmpTurns]
      cases xs with
      | nil =>
          have ha0 := (reads_cons.mp ha).1
          cases ys with
          | nil => exact ⟨0, by simp [ha0, (reads_cons.mp hb).1], by simp⟩
          | cons y ys =>
              have hy0 : (0 : UInt8) ≠ y := (hy y (List.mem_cons_self ..)).symm
              exact ⟨_, by simp only [ha0, (reads_cons.mp hb).1, ok_bind, ne_eq, hy0, not_false_eq_true, if_true],
                ⟨fun h => absurd h (byte_sub_ne_zero hy0), fun h => absurd h (by simp)⟩⟩
      | cons x xs =>
          obtain ⟨ha0, ha1⟩ := reads_cons.mp ha
          have hx0 : x ≠ 0 := hx x (List.mem_cons_self ..)
          cases ys with
          | nil =>
              exact ⟨_, by simp only [ha0, (reads_cons.mp hb).1, ok_bind, ne_eq, hx0, not_false_eq_true, if_true],
                ⟨fun h => absurd h (byte_sub_ne_zero hx0), fun h => absurd h (by simp)⟩⟩
          | cons y ys =>
              obtain ⟨hb0, hb1⟩ := reads_cons.mp hb
              by_cases hxy : x = y
              · subst hxy
                obtain ⟨r, hr, hiff⟩ := ih ha1 hb1 (fun d hd => hx d (List.mem_cons_of_mem _ hd))
                  (fun d hd => hy d (List.mem_cons_of_mem _ hd))
                refine ⟨r, ?_, by rw [hiff, List.take_succ_cons, List.take_succ_cons, List.cons.injEq]; simp⟩
                simp only [ha0, hb0, ok_bind, ne_eq, not_true_eq_false, if_false, hx0, hr]
              · refine ⟨_, by simp only [ha0, hb0, ok_bind, ne_eq, hxy, not_false_eq_true, if_true],
                  ⟨fun h => absurd h (byte_sub_ne_zero hxy), fun h => ?_⟩⟩
                rw [List.take_succ_cons, List.take_succ_cons] at h
                exact absurd (List.cons.inj h).1 hxy

end OsdiKernel
