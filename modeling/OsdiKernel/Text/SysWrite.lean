import OsdiKernel.Text.Directives

/-!
# `sys_write`, and `sys_uart_write`

Both put a string of the caller's on the line. One is told how many characters
there are and sends them; the other hands the string to `printf` for a format,
and no arguments with it.

A `%` in that format takes itself and one character more, and gives back one
character at most.
-/

namespace OsdiKernel

/-- `uart_send`: what it puts on the line. -/
def uartSend (c : UInt8) : List UInt8 := if c = lineFeed then [c, carriageReturn] else [c]

/-- `sys_write`. `putc` sends each character. -/
def sysWrite (mem : Memory) (bf : Nat → UInt8) (buf : Nat) : Except Fault (List UInt8) := do
  let out ← tfpFormat mem bf buf []
  .ok (out.flatMap uartSend)

/-- The loop of `sys_uart_write` from `i` on, for so many turns. -/
def sysUartWriteTurns (mem : Memory) (buf i : Nat) : Nat → Except Fault (List UInt8)
  | 0 => .ok []
  | turns + 1 => do
      let c ← charsAt mem buf i
      let line ← sysUartWriteTurns mem buf (i + 1) turns
      .ok (uartSend c ++ line)

/-- `sys_uart_write`: the line, and what it returns. -/
def sysUartWrite (mem : Memory) (buf size : Nat) : Except Fault (List UInt8 × Int) := do
  let line ← sysUartWriteTurns mem buf 0 size
  .ok (line, toInt size)

variable {mem : Memory} {p q k n : Nat} {ch : UInt8} {cs text rest : List UInt8} {s s' : Format} {w : Int} {zero : Bool}

/-! ## The line -/

theorem sysUartWriteTurns_spec : ∀ (cs : List UInt8) (i : Nat), Reads (charsAt mem p) i cs →
    sysUartWriteTurns mem p i cs.length = .ok (cs.flatMap uartSend)
  | [], _, _ => rfl
  | c :: cs, i, h => by
      obtain ⟨hc, hcs⟩ := reads_cons.mp h
      rw [List.length_cons, sysUartWriteTurns, hc, ok_bind, sysUartWriteTurns_spec cs (i + 1) hcs, ok_bind,
        List.flatMap_cons]

/-- The line tells what was sent. -/
theorem uartLine_injective : ∀ xs ys : List UInt8, xs.flatMap uartSend = ys.flatMap uartSend → xs = ys
  | [], [], _ => rfl
  | [], y :: ys, h => by
      rw [List.flatMap_cons, uartSend] at h
      by_cases hy : y = lineFeed
      · rw [if_pos hy] at h
        exact absurd h (by simp)
      · rw [if_neg hy] at h
        exact absurd h (by simp)
  | x :: xs, [], h => by
      rw [List.flatMap_cons, uartSend] at h
      by_cases hx : x = lineFeed
      · rw [if_pos hx] at h
        exact absurd h (by simp)
      · rw [if_neg hx] at h
        exact absurd h (by simp)
  | x :: xs, y :: ys, h => by
      have hhead : ∀ (c : UInt8) (cs : List UInt8), ((c :: cs).flatMap uartSend).head? = some c := by
        intro c cs
        rw [List.flatMap_cons, uartSend]
        by_cases hc : c = lineFeed
        · rw [if_pos hc]
          rfl
        · rw [if_neg hc]
          rfl
      have hxy : x = y := Option.some.inj ((hhead x xs).symm.trans ((congrArg List.head? h).trans (hhead y ys)))
      subst hxy
      rw [List.flatMap_cons, List.flatMap_cons] at h
      rw [uartLine_injective xs ys (List.append_cancel_left h)]

/-! ## A format without arguments -/

/-- `ch` was read in the string, and `q` points behind it. -/
def Cursor (p : Nat) (text : List UInt8) (ch : UInt8) (q : Nat) : Prop :=
  ∃ k, k ≤ text.length ∧ ch = (text.drop k).headD 0 ∧ q = p + k + 1

/-- A character that is not the last can be followed by one more. -/
theorem Cursor.next (h : Cursor p text ch q) (hmem : CString mem p text) (hch : ch ≠ 0) :
    ∃ ch', loadByte mem q = .ok ch' ∧ Cursor p text ch' (q + 1) := by
  obtain ⟨k, hk, rfl, rfl⟩ := h
  have hlt : k < text.length := by
    refine Nat.lt_of_le_of_ne hk (fun heq => hch ?_)
    rw [heq, List.drop_length]
    rfl
  exact ⟨_, (hmem.drop hlt).load, k + 1, hlt, rfl, rfl⟩

theorem Cursor.flag (h : Cursor p text ch q) (hmem : CString mem p text) {c : UInt8} {r : Nat} {lz : Bool}
    (hrun : Format.readFlag mem ch q = .ok (c, r, lz)) : Cursor p text c r := by
  unfold Format.readFlag at hrun
  by_cases h0 : ch = charByte '0'
  · obtain ⟨ch', hload, hnext⟩ := h.next hmem (by rw [h0]; decide)
    rw [if_pos h0, hload, ok_bind] at hrun
    obtain ⟨rfl, hr⟩ := Prod.mk.inj (Except.ok.inj hrun)
    obtain ⟨rfl, -⟩ := Prod.mk.inj hr
    exact hnext
  · rw [if_neg h0] at hrun
    obtain ⟨rfl, hr⟩ := Prod.mk.inj (Except.ok.inj hrun)
    obtain ⟨rfl, -⟩ := Prod.mk.inj hr
    exact h

theorem Cursor.number (hmem : CString mem p text) {c : UInt8} {r : Nat} : ∀ (n : Nat) (ch : UInt8) (q : Nat) (num num' : Int),
    Cursor p text ch q → a2iTurns mem ch q 10 num n = .ok (c, r, num') → Cursor p text c r := by
  intro n
  induction n with
  | zero => exact fun _ _ _ _ _ hrun => absurd hrun (by simp [a2iTurns])
  | succ n ih =>
      intro ch q num num' h hrun
      rw [a2iTurns] at hrun
      by_cases hd : 0 ≤ a2d ch ∧ ¬ 10 < a2d ch
      · have hch : ch ≠ 0 := fun h0 => absurd hd.1 (by rw [h0]; decide)
        obtain ⟨ch', hload, hnext⟩ := h.next hmem hch
        rw [if_pos hd, hload, ok_bind] at hrun
        exact ih ch' _ _ _ hnext hrun
      · rw [if_neg hd] at hrun
        obtain ⟨rfl, hr⟩ := Prod.mk.inj (Except.ok.inj hrun)
        obtain ⟨rfl, -⟩ := Prod.mk.inj hr
        exact h

theorem Cursor.width (h : Cursor p text ch q) (hmem : CString mem p text) {c : UInt8} {r : Nat}
    (hrun : Format.readWidth mem ch q = .ok (c, r, w)) : Cursor p text c r := by
  unfold Format.readWidth at hrun
  by_cases hd : charByte '0' ≤ ch ∧ ch ≤ charByte '9'
  · rw [if_pos hd] at hrun
    exact Cursor.number hmem _ _ _ _ _ h hrun
  · rw [if_neg hd] at hrun
    obtain ⟨rfl, hr⟩ := Prod.mk.inj (Except.ok.inj hrun)
    obtain ⟨rfl, -⟩ := Prod.mk.inj hr
    exact h

/-- Without an argument, a directive prints a `%` or nothing. -/
theorem Format.convert_none (hva : s.va = []) (hrun : Format.convert mem s ch w zero = .ok s') :
    s'.va = [] ∧ s'.fmt = s.fmt ∧ s'.out.length ≤ s.out.length + 1 := by
  unfold Format.convert at hrun
  rw [hva] at hrun
  simp only [vaArg, error_bind] at hrun
  split at hrun
  · cases hrun
  split at hrun
  · cases hrun
  split at hrun
  · cases hrun
  split at hrun
  · cases hrun
  split at hrun
  · cases hrun
  split at hrun
  · obtain rfl := Except.ok.inj hrun
    exact ⟨rfl, rfl, by rw [List.length_append, List.length_singleton]⟩
  · obtain rfl := Except.ok.inj hrun
    exact ⟨hva, rfl, Nat.le_succ _⟩

/-- **A directive** takes at least a character of the format for each it prints. -/
theorem Format.directive_none (hmem : CString mem s.fmt text) (hva : s.va = [])
    (hrun : Format.directive mem s = .ok (some s')) :
    s'.va = [] ∧ ∃ k, 1 ≤ k ∧ k ≤ text.length ∧ s'.fmt = s.fmt + k ∧ s'.out.length ≤ s.out.length + 1 := by
  have hcur : Cursor s.fmt text (text.headD 0) (s.fmt + 1) := ⟨0, Nat.zero_le _, rfl, rfl⟩
  rw [Format.directive, hmem.load, ok_bind] at hrun
  cases hflag : Format.readFlag mem (text.headD 0) (s.fmt + 1) with
  | error e =>
      rw [hflag] at hrun
      cases hrun
  | ok flag =>
      obtain ⟨c, r, lz⟩ := flag
      have hcur := hcur.flag hmem hflag
      rw [hflag, ok_bind] at hrun
      simp only at hrun
      cases hwidth : Format.readWidth mem c r with
      | error e =>
          rw [hwidth] at hrun
          cases hrun
      | ok width =>
          obtain ⟨c', r', w⟩ := width
          obtain ⟨k, hk, hc', hr'⟩ := hcur.width hmem hwidth
          rw [hwidth, ok_bind] at hrun
          simp only at hrun
          by_cases h0 : c' = 0
          · rw [if_pos h0] at hrun
            exact absurd (Except.ok.inj hrun) (by simp)
          · have hlt : k < text.length := by
              refine Nat.lt_of_le_of_ne hk (fun heq => h0 ?_)
              rw [hc', heq, List.drop_length]
              rfl
            rw [if_neg h0] at hrun
            cases hconv : Format.convert mem { s with fmt := r' } c' w lz with
            | error e =>
                rw [hconv] at hrun
                cases hrun
            | ok s'' =>
                rw [hconv, ok_bind] at hrun
                obtain rfl := Option.some.inj (Except.ok.inj hrun)
                obtain ⟨hva', hfmt', hout'⟩ := Format.convert_none (s := { s with fmt := r' }) hva hconv
                exact ⟨hva', k + 1, Nat.le_add_left 1 k, hlt, hfmt'.trans (by rw [hr', Nat.add_assoc]), hout'⟩

/-- **A format without arguments** prints no more than it has, and less where there is a `%`. -/
theorem Format.turns_none : ∀ (n : Nat) (s : Format) (text out : List UInt8), CString mem s.fmt text → s.va = [] →
    Format.turns mem s n = .ok out → out.length + (if charByte '%' ∈ text then 1 else 0) ≤ s.out.length + text.length := by
  intro n
  induction n with
  | zero => exact fun _ _ _ _ _ hrun => absurd hrun (by simp [Format.turns])
  | succ n ih =>
      intro s text out hmem hva hrun
      rw [Format.turns, hmem.load, ok_bind] at hrun
      cases text with
      | nil =>
          have hrun : Except.ok s.out = Except.ok out := hrun
          obtain rfl := Except.ok.inj hrun
          exact Nat.le_refl _
      | cons c text =>
          have hc := hmem.nonzero c List.mem_cons_self
          rw [List.headD_cons, if_neg hc] at hrun
          by_cases hp : c = charByte '%'
          · subst hp
            rw [if_neg (not_not.mpr rfl)] at hrun
            rw [if_pos List.mem_cons_self, List.length_cons]
            cases hdir : Format.directive mem { s with fmt := s.fmt + 1 } with
            | error e =>
                rw [hdir] at hrun
                cases hrun
            | ok next =>
                rw [hdir, ok_bind] at hrun
                cases next with
                | none =>
                    obtain rfl := Except.ok.inj hrun
                    omega
                | some s' =>
                    obtain ⟨hva', k, hk1, hk, hfmt', hout'⟩ := Format.directive_none (s := { s with fmt := s.fmt + 1 }) hmem.tail hva hdir
                    have hrest : CString mem s'.fmt (text.drop k) := by
                      rw [hfmt']
                      exact hmem.tail.drop hk
                    have hle := ih s' _ out hrest hva' hrun
                    rw [List.length_drop] at hle
                    have hout' : s'.out.length ≤ s.out.length + 1 := hout'
                    omega
          · rw [if_pos hp] at hrun
            have hle := ih { s with fmt := s.fmt + 1, out := s.out ++ [c] } text out hmem.tail hva hrun
            have hmem' : charByte '%' ∈ c :: text ↔ charByte '%' ∈ text := by
              rw [List.mem_cons]
              exact ⟨fun h => h.resolve_left (Ne.symm hp), Or.inr⟩
            simp only [hmem', List.length_cons, List.length_append, List.length_nil] at hle ⊢
            omega

/--
**`sys_uart_write` sends a string** as it is, and `sys_write` does the same when
there is no `%` in it, and never when there is. A directive that takes an
argument reads one that was never passed: that is a fault.
-/
theorem sysWrite_iff (h : CString mem p text) (bf : Nat → UInt8) :
    sysUartWrite mem p text.length = .ok (text.flatMap uartSend, toInt text.length) ∧
    (sysWrite mem bf p = .ok (text.flatMap uartSend) ↔ charByte '%' ∉ text) := by
  have hline : sysUartWrite mem p text.length = .ok (text.flatMap uartSend, toInt text.length) := by
    have hreads : Reads (charsAt mem p) 0 text := fun j c hc => h.reads j c (by
      rw [List.getElem?_append_left (List.getElem?_eq_some_iff.mp hc).1]
      exact hc)
    rw [sysUartWrite, sysUartWriteTurns_spec text 0 hreads, ok_bind]
  refine ⟨hline, ?_⟩
  constructor
  · intro hwrite hpercent
    unfold sysWrite at hwrite
    cases hout : tfpFormat mem bf p [] with
    | error e =>
        rw [hout] at hwrite
        cases hwrite
    | ok out =>
        rw [hout, ok_bind] at hwrite
        have heq := uartLine_injective out text (Except.ok.inj hwrite)
        have hle := Format.turns_none (2 ^ 64) ⟨bf, p, [], []⟩ text out h rfl hout
        rw [if_pos hpercent, heq, List.length_nil] at hle
        omega
  · intro hno
    -- every character stands for itself
    have htext : (text.map Directive.lit).flatMap Directive.text = text := by
      rw [List.flatMap_map]
      exact List.flatMap_singleton' text
    have hout : (text.map Directive.lit).flatMap Directive.out = text := by
      rw [List.flatMap_map]
      exact List.flatMap_singleton' text
    have hok : ∀ d ∈ text.map Directive.lit, d.Ok := by
      intro d hd
      obtain ⟨c, hc, rfl⟩ := List.mem_map.mp hd
      exact ⟨h.nonzero c hc, fun heq => hno (heq ▸ hc)⟩
    have hva : Supplied mem (text.map Directive.lit) [] := by
      clear h hline htext hout hok hno
      induction text with
      | nil => exact .nil
      | cons c text ih => exact .lit ih
    have hfits := h.fits
    have hprint := Format.turns_spec (text.map Directive.lit) ⟨bf, p, [], []⟩ (2 ^ 64) (by rw [htext]; exact h) hok hva
      (by rw [List.length_map]; omega)
    rw [hout] at hprint
    rw [sysWrite, tfpFormat, hprint, ok_bind]
    rfl

/-- `"100%"` -/
def percent : List UInt8 := "100%".toList.map charByte

/-- `sys_uart_write` alone sends it. -/
theorem sysWrite_iff_percent :
    sysUartWrite (stringMemory 0x80000 percent) 0x80000 4 = .ok (percent, 4) ∧
      sysWrite (stringMemory 0x80000 percent) (fun _ => 0) 0x80000 ≠ .ok percent := by
  have hmem : CString (stringMemory 0x80000 percent) 0x80000 percent := cstring_stringMemory (by decide) (by decide)
  have hlen : percent.length = 4 := by decide
  have hsent : percent.flatMap uartSend = percent := by decide
  have hsize : toInt (4 : Nat) = 4 := by decide
  obtain ⟨hline, hiff⟩ := sysWrite_iff hmem (fun _ => 0)
  rw [hsent, hlen, hsize] at hline
  rw [hsent] at hiff
  exact ⟨hline, fun hwrite => absurd (by decide) (hiff.mp hwrite)⟩

end OsdiKernel
