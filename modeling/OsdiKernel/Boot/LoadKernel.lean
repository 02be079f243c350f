import OsdiKernel.CInt
import OsdiKernel.Uart.MiniUart

/-!
# Loading a kernel image

`kernel2Uart.py` on one end of the line, `command_loadkernel` of the boot loader
on the other. The sender writes the image's length in decimal, a newline, and the
image. The receiver reads its bytes through `uart_getc`, which is there for the
shell: it turns every carriage return into a newline. The length has none, so it
always arrives; the image arrives as it was sent exactly when it has none either.
-/

namespace OsdiKernel

/-- `kernel2Uart.py`: `str(length).encode() + b'\n'`, then the image byte by byte. -/
def kernel2Uart (kernelRaw : List UInt8) : List UInt8 :=
  (Nat.toDigits 10 kernelRaw.length).map (fun c => UInt8.ofNat c.toNat) ++ lineFeed :: kernelRaw

/-- The boot loader's `MAX_BUFFER_LEN`. -/
def bootBufferLen : Nat := 128

/-- Where the kernel goes. -/
def kernelAddr : Nat := 0x80000

/-- `MMIO_BASE`: where memory ends. -/
def mmioBase : Nat := 0x3F000000

/-- The loop of `atoi`, in the arithmetic of `int`: it ends at a `'\0'`. -/
def atoiFrom (res : Int) : List UInt8 → Int
  | [] => res
  | c :: str => if c = 0 then res else atoiFrom (toInt (res * 10 + c.toNat - 48)) str

/-- `atoi`, of a buffer that has a `'\0'` behind these bytes. -/
def atoi (str : List UInt8) : Int := atoiFrom 0 str

/-- The first loop of `command_loadkernel`: `buff` up to the newline, and what is still to come. -/
def readSize (buff : List UInt8) : List UInt8 → Except Fault (List UInt8 × List UInt8)
  | [] => .error .spin
  | r :: rx =>
      if buff.length < bootBufferLen then
        if crToNl r = lineFeed then .ok (buff, rx) else readSize (buff ++ [crToNl r]) rx
      else .error .outOfBounds

/-- Its second loop: so many bytes to `kernel` and on. -/
def readKernel (mem : Nat → UInt8) (kernel : Nat) (rx : List UInt8) :
    Nat → Except Fault ((Nat → UInt8) × List UInt8)
  | 0 => .ok (mem, rx)
  | temp + 1 => do
      let (tempChar, rx) ← uartGetc rx
      readKernel (Function.update mem kernel tempChar) (kernel + 1) rx temp

/-- What `command_loadkernel` has when it jumps. -/
structure Loaded where
  kernelSize : Int
  mem : Nat → UInt8
  /-- What it has not read. -/
  rx : List UInt8

/-- `command_loadkernel`, up to the jump. -/
def commandLoadkernel (mem : Nat → UInt8) (rx : List UInt8) : Except Fault Loaded := do
  let (buff, rx) ← readSize [] rx
  let kernelSize := atoi buff
  -- `while (temp--)` does not get to 0 from below
  if kernelSize < 0 then .error .spin
  else do
    let (mem, rx) ← readKernel mem kernelAddr rx kernelSize.toNat
    .ok ⟨kernelSize, mem, rx⟩

/-! ## The length -/

theorem digit_toNat {c : Char} (h : c.isDigit = true) : 48 ≤ c.toNat ∧ c.toNat ≤ 57 := by
  simp only [Char.isDigit, ge_iff_le, Bool.and_eq_true, decide_eq_true_eq, UInt32.le_iff_toNat_le] at h
  exact h

theorem toNat_ofNat_digit {c : Char} (h : c.isDigit = true) : (UInt8.ofNat c.toNat).toNat = c.toNat := by
  have := digit_toNat h
  rw [UInt8.toNat_ofNat']
  omega

theorem le_ofDigitChars (cs : List Char) (acc : Nat) : acc ≤ Nat.ofDigitChars 10 cs acc := by
  induction cs generalizing acc with
  | nil => simp
  | cons c cs ih =>
      rw [Nat.ofDigitChars_cons]
      have := ih (10 * acc + (c.toNat - '0'.toNat))
      omega

theorem atoiFrom_cons {c : UInt8} (h : c ≠ 0) (res : Int) (str : List UInt8) :
    atoiFrom res (c :: str) = atoiFrom (toInt (res * 10 + c.toNat - 48)) str := if_neg h

/-- `atoi` reads a number that an `int` can hold. -/
theorem atoi_digits {cs : List Char} (hd : ∀ c ∈ cs, c.isDigit = true) (acc : Nat)
    (hfit : Nat.ofDigitChars 10 cs acc < 2 ^ 31) :
    atoiFrom acc (cs.map (fun c => UInt8.ofNat c.toNat)) = Nat.ofDigitChars 10 cs acc := by
  induction cs generalizing acc with
  | nil => simp [atoiFrom]
  | cons c cs ih =>
      have hc := hd c List.mem_cons_self
      have h48 := digit_toNat hc
      have hto := toNat_ofNat_digit hc
      have hzero : '0'.toNat = 48 := by decide
      rw [Nat.ofDigitChars_cons, hzero] at hfit ⊢
      have hle := le_ofDigitChars cs (10 * acc + (c.toNat - 48))
      have hstep : toInt ((acc : Int) * 10 + c.toNat - 48) = ((10 * acc + (c.toNat - 48) : Nat) : Int) := by
        rw [toInt_of_range (by omega) (by omega)]
        omega
      have hne : UInt8.ofNat c.toNat ≠ 0 := by
        intro h
        rw [h] at hto
        have : (0 : UInt8).toNat = 0 := rfl
        omega
      rw [List.map_cons, atoiFrom_cons hne, hto, hstep]
      exact ih (fun d hd' => hd d (List.mem_cons_of_mem _ hd')) _ hfit

/-- The bytes up to the newline are read as they were sent. -/
theorem readSize_append {s : List UInt8} (hs : ∀ r ∈ s, r ≠ carriageReturn ∧ r ≠ lineFeed)
    (buff rest : List UInt8) (hlen : buff.length + s.length < bootBufferLen) :
    readSize buff (s ++ lineFeed :: rest) = .ok (buff ++ s, rest) := by
  induction s generalizing buff with
  | nil =>
      have hlt : buff.length < bootBufferLen := hlen
      rw [List.nil_append, readSize, if_pos hlt, if_pos (by decide), List.append_nil]
  | cons r s ih =>
      obtain ⟨hcr, hlf⟩ := hs r List.mem_cons_self
      rw [List.length_cons] at hlen
      rw [List.cons_append, readSize, if_pos (by omega), crToNl_of_ne hcr, if_neg hlf,
        ih (fun q hq => hs q (List.mem_cons_of_mem _ hq)) _ (by rw [List.length_append, List.length_singleton]; omega),
        List.append_assoc]
      rfl

/-! ## The image -/

/-- The image is put in place, its carriage returns turned into newlines. -/
theorem readKernel_append (kernelRaw rest : List UInt8) (mem : Nat → UInt8) (kernel : Nat) :
    ∃ mem', readKernel mem kernel (kernelRaw ++ rest) kernelRaw.length = .ok (mem', rest) ∧
      (∀ i b, kernelRaw[i]? = some b → mem' (kernel + i) = crToNl b) ∧
      ∀ a, (a < kernel ∨ kernel + kernelRaw.length ≤ a) → mem' a = mem a := by
  induction kernelRaw generalizing mem kernel with
  | nil => exact ⟨mem, rfl, fun i b hb => absurd hb (by simp), fun _ _ => rfl⟩
  | cons r raw ih =>
      obtain ⟨mem', hrun, hin, hout⟩ := ih (Function.update mem kernel (crToNl r)) (kernel + 1)
      refine ⟨mem', hrun, fun i b hb => ?_, fun a ha => ?_⟩
      · cases i with
        | zero =>
            rw [List.getElem?_cons_zero] at hb
            rw [Nat.add_zero, hout kernel (Or.inl (Nat.lt_succ_self _)), Function.update_self,
              Option.some.inj hb]
        | succ i =>
            rw [List.getElem?_cons_succ] at hb
            rw [show kernel + (i + 1) = kernel + 1 + i by omega]
            exact hin i b hb
      · rw [List.length_cons] at ha
        rw [hout a (by omega), Function.update_of_ne (by omega)]

/-- **What arrives.** -/
theorem commandLoadkernel_spec (mem : Nat → UInt8) {kernelRaw : List UInt8}
    (hfit : kernelAddr + kernelRaw.length ≤ mmioBase) (rest : List UInt8) :
    ∃ mem', commandLoadkernel mem (kernel2Uart kernelRaw ++ rest) = .ok ⟨kernelRaw.length, mem', rest⟩ ∧
      (∀ i b, kernelRaw[i]? = some b → mem' (kernelAddr + i) = crToNl b) ∧
      ∀ a, (a < kernelAddr ∨ kernelAddr + kernelRaw.length ≤ a) → mem' a = mem a := by
  obtain ⟨mem', hrun, hin, hout⟩ := readKernel_append kernelRaw rest mem kernelAddr
  have hlen : kernelRaw.length < 2 ^ 31 := by
    unfold kernelAddr mmioBase at hfit
    omega
  generalize hcs : Nat.toDigits 10 kernelRaw.length = cs
  have hd : ∀ c ∈ cs, c.isDigit = true := fun c hc => Nat.isDigit_of_mem_toDigits (by decide) (by decide) (hcs ▸ hc)
  have hval : Nat.ofDigitChars 10 cs 0 = kernelRaw.length := by
    rw [← hcs, Nat.ofDigitChars_ten_toDigits]
  have hshort : cs.length ≤ 10 := by
    rw [← hcs, Nat.length_toDigits_le_iff (by decide) (by decide)]
    omega
  have hbytes : ∀ r ∈ cs.map (fun c => UInt8.ofNat c.toNat), r ≠ carriageReturn ∧ r ≠ lineFeed := by
    intro r hr
    obtain ⟨c, hc, rfl⟩ := List.mem_map.mp hr
    have h48 := digit_toNat (hd c hc)
    have hto := toNat_ofNat_digit (hd c hc)
    refine ⟨fun he => ?_, fun he => ?_⟩
    · rw [he] at hto
      have : carriageReturn.toNat = 13 := rfl
      omega
    · rw [he] at hto
      have : lineFeed.toNat = 10 := rfl
      omega
  have hsize := readSize_append hbytes [] (kernelRaw ++ rest)
    (by rw [List.length_nil, List.length_map]; unfold bootBufferLen; omega)
  have hatoi : atoi (cs.map (fun c => UInt8.ofNat c.toNat)) = kernelRaw.length := by
    have := atoi_digits hd 0 (by rw [hval]; exact hlen)
    rw [hval] at this
    exact this
  refine ⟨mem', ?_, hin, hout⟩
  have hneg : ¬ (kernelRaw.length : Int) < 0 := by omega
  rw [commandLoadkernel, kernel2Uart, hcs, List.append_assoc, List.cons_append, hsize, ok_bind,
    List.nil_append]
  simp only [hatoi, if_neg hneg, Int.toNat_natCast, hrun, ok_bind]

/--
**The image arrives as it was sent** — all of it read, its length known, and
every byte in place — if and only if it has no carriage return in it.
-/
theorem loadKernel_lossless_iff (mem : Nat → UInt8) {kernelRaw : List UInt8}
    (hfit : kernelAddr + kernelRaw.length ≤ mmioBase) (rest : List UInt8) :
    (∃ r, commandLoadkernel mem (kernel2Uart kernelRaw ++ rest) = .ok r ∧ r.rx = rest ∧
      r.kernelSize = kernelRaw.length ∧ ∀ i b, kernelRaw[i]? = some b → r.mem (kernelAddr + i) = b) ↔
    carriageReturn ∉ kernelRaw := by
  obtain ⟨mem', hrun, hin, _⟩ := commandLoadkernel_spec mem hfit rest
  constructor
  · intro h hcr
    obtain ⟨r, hr, _, _, hmem⟩ := h
    rw [hrun] at hr
    obtain ⟨i, hi⟩ := List.mem_iff_getElem?.mp hcr
    have h1 := hmem i _ hi
    rw [← Except.ok.inj hr] at h1
    exact absurd ((hin i _ hi).symm.trans h1) (by decide)
  · intro hno
    refine ⟨_, hrun, rfl, rfl, fun i b hb => (hin i b hb).trans (crToNl_of_ne fun he => hno ?_)⟩
    exact he ▸ List.mem_of_getElem? hb

/-- An image of three bytes. -/
theorem loadKernel_lossless_three :
    ∃ r, commandLoadkernel (fun _ => 0) (kernel2Uart [1, 2, 3] ++ []) = .ok r ∧ r.rx = [] ∧
      r.kernelSize = 3 ∧ ∀ i b, ([1, 2, 3] : List UInt8)[i]? = some b → r.mem (kernelAddr + i) = b :=
  (loadKernel_lossless_iff _ (by decide) []).mpr (by decide)

/-- A carriage return arrives as a newline. -/
theorem loadKernel_not_lossless :
    ¬ ∀ (mem : Nat → UInt8) (kernelRaw rest : List UInt8), kernelAddr + kernelRaw.length ≤ mmioBase →
      ∃ r, commandLoadkernel mem (kernel2Uart kernelRaw ++ rest) = .ok r ∧ r.rx = rest ∧
        r.kernelSize = kernelRaw.length ∧
        ∀ i b, kernelRaw[i]? = some b → r.mem (kernelAddr + i) = b := by
  intro hall
  obtain ⟨r, hr, _, _, hmem⟩ := hall (fun _ => 0) [carriageReturn] [] (by decide)
  have h1 := hmem 0 carriageReturn rfl
  have hrun : (commandLoadkernel (fun _ => 0) (kernel2Uart [carriageReturn] ++ [])).map
      (fun r => r.mem (kernelAddr + 0)) = .ok lineFeed := by decide +kernel
  rw [hr] at hrun
  exact absurd ((Except.ok.inj hrun).symm.trans h1) (by decide)

end OsdiKernel
