import OsdiKernel.Boot.LoadKernel
import OsdiKernel.Lib.Words
import OsdiKernel.Sched.TaskMemory

/-!
# From power-on to `main`

Whatever is to run is put at `0x80000`. For the boot loader that is not where it
was linked to: it moves itself sixteen kilobytes down, clears its `.bss`, and
goes on there, so that the kernel it receives can be put in its place. The kernel
then clears its own `.bss`.

How long the loops go round is told by the linker, in words of eight bytes, and a
word that is not whole is not counted. What the loader's C code stores on its
stack and in its variables stands between its two steps as any stores there.
-/

namespace OsdiKernel

/-- What the linker says of an image: code and data, and behind them `.bss`, which is no part of the file. -/
structure LinkedImage where
  /-- `_start` -/
  start : Nat
  bssStart : Nat
  /-- `__bss_end`, where `_end` is too. -/
  bssEnd : Nat
  start_aligned : 16 ∣ start
  bss_aligned : 16 ∣ bssStart
  start_lt : start < bssStart
  bss_le : bssStart ≤ bssEnd
  /-- The sizes are read as 32 bits. -/
  bssEnd_lt : bssEnd < 2 ^ 32

namespace LinkedImage

/-- `__bss_size` -/
def bssSize (l : LinkedImage) : Nat := (l.bssEnd - l.bssStart) >>> 3

/-- `__loader_size` -/
def loaderSize (l : LinkedImage) : Nat := (l.bssEnd - l.start) >>> 3

end LinkedImage

/-- `ldr x4, [x1], #8`, `str x4, [x2], #8`, and `w3` counted down: again, unless it is zero. -/
def relocateLoop (mem : Nat → UInt8) (x1 x2 : Nat) (w3 : BitVec 32) : Nat → Except Fault (Nat → UInt8)
  | 0 => .error .spin
  | turns + 1 =>
      let mem := store64 mem x2 (load64 mem x1)
      if w3 - 1 ≠ 0 then relocateLoop mem (x1 + 8) (x2 + 8) (w3 - 1) turns else .ok mem

/-- `str xzr, [x1], #8`, and `w2` counted down: again, unless it is zero. -/
def clearLoop (mem : Nat → UInt8) (x1 : Nat) (w2 : BitVec 32) : Nat → Except Fault (Nat → UInt8)
  | 0 => .error .spin
  | turns + 1 =>
      if w2 = 0 then .ok mem
      else
        let mem := store64 mem x1 0
        if w2 - 1 ≠ 0 then clearLoop mem (x1 + 8) (w2 - 1) turns else .ok mem

/-- `clear_bss` -/
def clearBss (l : LinkedImage) (mem : Nat → UInt8) : Except Fault (Nat → UInt8) :=
  clearLoop mem l.bssStart (BitVec.ofNat 32 l.bssSize) (2 ^ 32)

/-- `start.S` of the boot loader, on the first core: it moves itself, and clears its `.bss`. -/
def loaderStart (l : LinkedImage) (mem : Nat → UInt8) : Except Fault (Nat → UInt8) := do
  let mem ← relocateLoop mem kernelAddr l.start (BitVec.ofNat 32 l.loaderSize) (2 ^ 32)
  clearBss l mem

variable {l loader kernel : LinkedImage} {mem mem' : Nat → UInt8} {n turns : Nat} {w : BitVec 32}

/-! ## The loops -/

/-- Counted down to zero, or not. -/
theorem count_down (hn : n + 1 < 2 ^ 32) :
    BitVec.ofNat 32 (n + 1) - 1 = BitVec.ofNat 32 n ∧ (BitVec.ofNat 32 n ≠ 0 ↔ n ≠ 0) := by
  have hzero : BitVec.ofNat 32 n = 0 ↔ n = 0 := by
    rw [← BitVec.toNat_inj, BitVec.toNat_ofNat, Nat.mod_eq_of_lt (by omega)]
    rfl
  refine ⟨?_, not_congr hzero⟩
  rw [BitVec.ofNat_add]
  exact BitVec.add_sub_cancel ..

theorem relocateLoop_eq : ∀ (n : Nat) (mem : Nat → UInt8) (x1 x2 turns : Nat), n + 1 < 2 ^ 32 → n < turns →
    relocateLoop mem x1 x2 (BitVec.ofNat 32 (n + 1)) turns = .ok (memcpyTurns mem x2 x1 (n + 1)) := by
  intro n
  induction n with
  | zero =>
      intro mem x1 x2 turns hn ht
      obtain ⟨turns, rfl⟩ : ∃ m, turns = m + 1 := ⟨turns - 1, by omega⟩
      rw [relocateLoop, (count_down hn).1, if_neg (fun h => h rfl)]
      rfl
  | succ n ih =>
      intro mem x1 x2 turns hn ht
      obtain ⟨turns, rfl⟩ : ∃ m, turns = m + 1 := ⟨turns - 1, by omega⟩
      obtain ⟨hdown, hmore⟩ := count_down hn
      rw [relocateLoop, hdown, if_pos (hmore.mpr (Nat.succ_ne_zero n)), ih _ _ _ turns (by omega) (by omega)]
      rfl

theorem clearLoop_eq : ∀ (n : Nat) (mem : Nat → UInt8) (x1 turns : Nat), n < 2 ^ 32 → n ≤ turns → 0 < turns →
    clearLoop mem x1 (BitVec.ofNat 32 n) turns = .ok (memzeroTurns mem x1 n) := by
  intro n
  induction n with
  | zero =>
      intro mem x1 turns _ _ ht
      obtain ⟨turns, rfl⟩ : ∃ m, turns = m + 1 := ⟨turns - 1, by omega⟩
      exact if_pos rfl
  | succ n ih =>
      intro mem x1 turns hn hle ht
      obtain ⟨turns, rfl⟩ : ∃ m, turns = m + 1 := ⟨turns - 1, by omega⟩
      obtain ⟨hdown, hmore⟩ := count_down hn
      have hne : BitVec.ofNat 32 (n + 1) ≠ 0 := by
        intro h
        have := congrArg BitVec.toNat h
        rw [BitVec.toNat_ofNat, Nat.mod_eq_of_lt hn] at this
        exact absurd this (Nat.succ_ne_zero n)
      rw [clearLoop, if_neg hne, hdown]
      by_cases h0 : n = 0
      · subst h0
        exact if_neg (fun h => h rfl)
      · rw [if_pos (hmore.mpr h0), ih _ _ turns (by omega) (by omega) (by omega)]
        rfl

namespace LinkedImage

theorem bssSize_eq (l : LinkedImage) : l.bssSize = (l.bssEnd - l.bssStart) / 8 := Nat.shiftRight_eq_div_pow _ 3

theorem loaderSize_eq (l : LinkedImage) : l.loaderSize = (l.bssEnd - l.start) / 8 := Nat.shiftRight_eq_div_pow _ 3

end LinkedImage

/-- **What is cleared.** -/
theorem clearBss_spec (l : LinkedImage) (mem : Nat → UInt8) : ∃ mem', clearBss l mem = .ok mem' ∧
    ∀ x, mem' x = if Within l.bssStart (8 * l.bssSize) x then 0 else mem x := by
  have hsize := l.bssSize_eq
  have hend := l.bssEnd_lt
  exact ⟨_, clearLoop_eq l.bssSize mem _ _ (by omega) (by omega) (by decide), memzeroTurns_byte _ mem _⟩

/-- **Where the boot loader is** when its C code begins. It may lie over itself while it moves down. -/
theorem loaderStart_spec (hdown : l.start ≤ kernelAddr) (mem : Nat → UInt8) (hbig : l.start + 8 ≤ l.bssEnd) :
    ∃ mem', loaderStart l mem = .ok mem' ∧ ∀ x, mem' x =
      if Within l.bssStart (8 * l.bssSize) x then 0
      else if Within l.start (8 * l.loaderSize) x then mem (kernelAddr + (x - l.start)) else mem x := by
  have hsize := l.loaderSize_eq
  have hend := l.bssEnd_lt
  obtain ⟨n, hn⟩ : ∃ n, l.loaderSize = n + 1 := ⟨l.loaderSize - 1, by omega⟩
  have hmove := relocateLoop_eq n mem kernelAddr l.start (2 ^ 32) (by omega) (by omega)
  rw [← hn] at hmove
  obtain ⟨mem', hclear, hmem'⟩ := clearBss_spec l (memcpyTurns mem l.start kernelAddr l.loaderSize)
  refine ⟨mem', ?_, fun x => ?_⟩
  · rw [loaderStart, hmove, ok_bind, hclear]
  · rw [hmem', memcpyTurns_byte _ _ _ _ (.inl hdown)]

/-! ## An image in memory -/

/-- The bytes of a file lie at `a` and up. -/
def FileAt (mem : Nat → UInt8) (a : Nat) (file : List UInt8) : Prop := ∀ i b, file[i]? = some b → mem (a + i) = b

/-- What an image needs to run: its file where it was linked to, and zeros in every whole word of its `.bss`. -/
structure Ready (l : LinkedImage) (file : List UInt8) (mem : Nat → UInt8) : Prop where
  file : FileAt mem l.start file
  bss : ∀ x, Within l.bssStart (8 * l.bssSize) x → mem x = 0

/-- `objcopy` ends the file before `.bss` begins, and that is where a word ends: so all of it is moved. -/
theorem loaderStart_ready (hdown : l.start ≤ kernelAddr) {file : List UInt8} (hlen : file.length ≤ l.bssStart - l.start)
    (hat : FileAt mem kernelAddr file) : ∃ mem', loaderStart l mem = .ok mem' ∧ Ready l file mem' ∧
      ∀ x, x < l.start ∨ l.bssEnd ≤ x → mem' x = mem x := by
  have hstart := l.start_aligned
  have hbss := l.bss_aligned
  have hlt := l.start_lt
  have hle := l.bss_le
  have hmoved := l.loaderSize_eq
  have hcleared := l.bssSize_eq
  obtain ⟨mem', hrun, hmem'⟩ := loaderStart_spec hdown mem (by omega)
  refine ⟨mem', hrun, ⟨fun i b hb => ?_, fun x hx => ?_⟩, fun x hx => ?_⟩
  · have hi := (List.getElem?_eq_some_iff.mp hb).1
    rw [hmem', if_neg (fun h => by have := h.1; omega), if_pos ⟨Nat.le_add_right .., by omega⟩, Nat.add_sub_cancel_left]
    exact hat i b hb
  · rw [hmem', if_pos hx]
  · have hnot : ∀ a n, l.start ≤ a → a + n ≤ l.bssEnd → ¬ Within a n x := by
      rintro a n h1 h2 ⟨h3, h4⟩
      omega
    rw [hmem', if_neg (hnot _ _ (by omega) (by omega)), if_neg (hnot _ _ (by omega) (by omega))]

/--
What an image's own C code has stored: its stack goes down from `_start`, no
deeper than `stack`, and its variables are in `.bss`, as `stdout_putf` is.
-/
def OwnStores (l : LinkedImage) (stack : Nat) (mem mem' : Nat → UInt8) : Prop :=
  ∀ x, ¬ Within stack (l.start - stack) x → ¬ Within l.bssStart (l.bssEnd - l.bssStart) x → mem' x = mem x

/-- Its file is not among it. -/
theorem FileAt.own_stores {file : List UInt8} {stack : Nat} (hat : FileAt mem l.start file)
    (hlen : file.length ≤ l.bssStart - l.start) (hstack : stack ≤ l.start) (hown : OwnStores l stack mem mem') :
    FileAt mem' l.start file := by
  intro i b hb
  have hlt := l.start_lt
  have hi := (List.getElem?_eq_some_iff.mp hb).1
  rw [hown (l.start + i) (fun h => by have := h.2; omega) (fun h => by have := h.1; omega)]
  exact hat i b hb

/--
**From power-on to the kernel's `main`.** The boot loader lies at `0x80000`, and the
kernel comes over the line, no carriage return in it. When the loader's C code
begins the loader is whole; whatever that code then has on its stack and in its
variables, the loader's file is in place when it jumps; and when the kernel's C
code begins, the kernel is whole, with nothing changed but the two images and
the loader's stack.
-/
theorem boot_chain {file raw rest : List UInt8} {stack : Nat} (hstart : loader.start = kernelAddr - 16384)
    (hfits : loader.bssEnd ≤ kernelAddr) (hlen : file.length ≤ loader.bssStart - loader.start)
    (hat : FileAt mem kernelAddr file) (hstack : stack ≤ loader.start) (hkernel : kernel.start = kernelAddr)
    (hraw : raw.length ≤ kernel.bssStart - kernel.start) (hmmio : kernel.bssEnd ≤ mmioBase) (hcr : carriageReturn ∉ raw) :
    ∃ mem₁, loaderStart loader mem = .ok mem₁ ∧ Ready loader file mem₁ ∧
      ∀ memC, OwnStores loader stack mem₁ memC → ∃ r mem₂,
        commandLoadkernel memC (kernel2Uart raw ++ rest) = .ok r ∧ r.rx = rest ∧ FileAt r.mem loader.start file ∧
        clearBss kernel r.mem = .ok mem₂ ∧ Ready kernel raw mem₂ ∧
        ∀ x, x < stack ∨ loader.bssEnd ≤ x ∧ x < kernelAddr ∨ kernel.bssEnd ≤ x → mem₂ x = mem x := by
  have hbss := kernel.bss_le
  have hlt := kernel.start_lt
  have hle := loader.bss_le
  have hstart' := loader.start_lt
  have hcleared := kernel.bssSize_eq
  obtain ⟨mem₁, hrun₁, hready, hrest₁⟩ := loaderStart_ready (by omega) hlen hat
  refine ⟨mem₁, hrun₁, hready, fun memC hown => ?_⟩
  have hroom : kernelAddr + raw.length ≤ mmioBase := by omega
  obtain ⟨mem', hload, hin, hout⟩ := commandLoadkernel_spec memC hroom rest
  obtain ⟨mem₂, hrun₂, hmem₂⟩ := clearBss_spec kernel mem'
  have hfile := hready.file.own_stores hlen hstack hown
  refine ⟨_, mem₂, hload, rfl, fun i b hb => ?_, hrun₂, ⟨fun i b hb => ?_, fun x hx => ?_⟩, fun x hx => ?_⟩
  · -- what is received lies behind the loader
    have hi := (List.getElem?_eq_some_iff.mp hb).1
    exact (hout _ (Or.inl (by omega))).trans (hfile i b hb)
  · have hi := (List.getElem?_eq_some_iff.mp hb).1
    rw [hmem₂, if_neg (fun h => by have := h.1; omega), hkernel, hin i b hb]
    exact crToNl_of_ne fun he => hcr (he ▸ List.mem_of_getElem? hb)
  · rw [hmem₂, if_pos hx]
  · rw [hmem₂, if_neg (fun h => by have := h.1; have := h.2; omega), hout _ (by omega),
      hown x (fun h => by have := h.1; have := h.2; omega) (fun h => by have := h.1; have := h.2; omega)]
    exact hrest₁ x (by omega)

/-- An image of two words with a `.bss` of one. -/
def twoWordImage (start : Nat) (h : 16 ∣ start) (hlt : start + 24 < 2 ^ 32) : LinkedImage where
  start := start
  bssStart := start + 16
  bssEnd := start + 24
  start_aligned := h
  bss_aligned := Nat.dvd_add h (Nat.dvd_refl 16)
  start_lt := by omega
  bss_le := by omega
  bssEnd_lt := hlt

/-- A small loader and a small kernel, each file a byte short of its `.bss`. -/
theorem boot_chain_small : ∃ mem₁, loaderStart (twoWordImage 0x7c000 (by decide) (by decide)) (fun _ => 1) = .ok mem₁ ∧
    Ready (twoWordImage 0x7c000 (by decide) (by decide)) (List.replicate 15 1) mem₁ ∧
    ∀ memC, OwnStores (twoWordImage 0x7c000 (by decide) (by decide)) 0x7b000 mem₁ memC → ∃ r mem₂,
      commandLoadkernel memC (kernel2Uart (List.replicate 15 2) ++ [3]) = .ok r ∧ r.rx = [3] ∧
      FileAt r.mem 0x7c000 (List.replicate 15 1) ∧
      clearBss (twoWordImage 0x80000 (by decide) (by decide)) r.mem = .ok mem₂ ∧
      Ready (twoWordImage 0x80000 (by decide) (by decide)) (List.replicate 15 2) mem₂ ∧
      ∀ x, x < 0x7b000 ∨ 0x7c018 ≤ x ∧ x < kernelAddr ∨ 0x80018 ≤ x → mem₂ x = 1 :=
  boot_chain rfl (by decide) (by decide) (fun i b hb => (List.mem_replicate.mp (List.mem_of_getElem? hb)).2.symm) (by decide)
    rfl (by decide) (by decide) (by decide)

/--
**Static variables begin at zero**: the loop ends, and whatever was in memory, it
has cleared them when `.bss` ends at a word's end; and else the last of them need
not be.
-/
theorem bss_cleared_iff (l : LinkedImage) : (∀ mem, ∃ mem', clearBss l mem = .ok mem') ∧
    ((∀ mem mem', clearBss l mem = .ok mem' → ∀ x, l.bssStart ≤ x → x < l.bssEnd → mem' x = 0) ↔ 8 ∣ l.bssEnd) := by
  have hbss := l.bss_aligned
  have hle := l.bss_le
  have hsize := l.bssSize_eq
  refine ⟨fun mem => (clearBss_spec l mem).imp fun _ h => h.1, ?_, ?_⟩
  · intro h
    by_contra hend
    -- the byte behind the last whole word
    obtain ⟨mem', hrun, hmem'⟩ := clearBss_spec l (fun _ => 1)
    have hzero := h _ mem' hrun (l.bssStart + 8 * l.bssSize) (by omega) (by omega)
    rw [hmem', if_neg (fun hw => by have := hw.2; omega)] at hzero
    exact absurd hzero (by decide)
  · intro hend mem mem' hrun x h1 h2
    obtain ⟨mem'', hrun', hmem'⟩ := clearBss_spec l mem
    obtain rfl := Except.ok.inj (hrun.symm.trans hrun')
    rw [hmem', if_pos ⟨h1, by omega⟩]

/-- A `.bss` of a word and a byte: the byte keeps what was there. -/
example : (clearBss { twoWordImage 0x80000 (by decide) (by decide) with
    bssEnd := 0x80019, bss_le := by decide, bssEnd_lt := by decide } (fun _ => 1)).map
      (fun mem => (mem 0x80017, mem 0x80018)) = .ok (0, 1) := by
  decide +kernel

end OsdiKernel
