import Mathlib.Data.List.Infix
import Mathlib.Data.List.Range
import OsdiKernel.Shell.CommandLine

/-!
# What a command depends on

On the line, and on nothing else, wherever its argument begins at or before the
NUL that Enter puts behind it. Two lines are shorter than that: after `cat` and
after `setTimeout`, with no blank, the argument begins behind the NUL, where the
buffer still has whatever was typed in those columns and rubbed out again.
-/

namespace OsdiKernel

variable {keys keys' text : List UInt8} {line line' : CommandLine} {buffer buffer' : Nat → UInt8} {c : UInt8} {p : Nat}

/-! ## The line, as the user sees it -/

/-- What one key does to the text. -/
def editKey (text : List UInt8) (c : UInt8) : List UInt8 := if c = backSpaceChar then text.dropLast else text ++ [c]

/-- The text that the keys leave. -/
def edited (keys : List UInt8) : List UInt8 := keys.foldl editKey []

/-- Printable characters and backspaces, and never a full buffer. -/
structure Typed (keys : List UInt8) : Prop where
  key : ∀ c ∈ keys, c = backSpaceChar ∨ 32 ≤ c ∧ c ≤ 126
  room : ∀ pre ∈ keys.inits, (edited pre).length ≤ maxBufferLen - 1

/-- What was last typed in each column, where `last` was before, the text being `text` to begin with. -/
def lastTyped (text : List UInt8) (last : Nat → UInt8) : List UInt8 → Nat → UInt8
  | [] => last
  | c :: keys =>
      lastTyped (editKey text c) (if c = backSpaceChar then last else Function.update last text.length c) keys

/-- The string in a buffer from column `p` on. -/
def stringFrom (buffer : Nat → UInt8) (p : Nat) : List UInt8 :=
  ((List.range' p (maxBufferLen - p)).map buffer).takeWhile (· ≠ 0)

/-- What was last typed in column `p` and the columns behind it. -/
def typedFrom (keys : List UInt8) (p : Nat) : List UInt8 := stringFrom (lastTyped [] (fun _ => 0) keys) p

/-! ## The handler of a line -/

/-- The command on the line, and where its argument begins. -/
def handlerOf (text : List UInt8) : Handler × Option Nat :=
  if text = helpWord then (.help, none)
  else if text = helloWord then (.hello, none)
  else if text = rebootWord then (.reboot, none)
  else if text = lsWord then (.cpioLs, none)
  else if text.take 3 = catWord.take 3 then (.getCpioFile, some 4)
  else if text = maWord then (.mmInit, none)
  else if text = cpioSvcWord then (.cpioSvc, none)
  else if text = currentElWord then (.currentEl, none)
  else if text = coreTimerOnWord then (.coreTimerOn, none)
  else if text = coreTimerOffWord then (.coreTimerOff, none)
  else if text.take 10 = setTimeoutWord.take 10 then (.setTimeout, some 11)
  else (.commandNotFound, some 0)

/-- Calling it. -/
def callOf (buffer : Nat → UInt8) : Handler × Option Nat → Except Fault HandlerCall
  | (handler, none) => .ok ⟨handler, none⟩
  | (handler, some p) => callWith buffer handler p

theorem ifZero_strcmp {mem : Memory} (hc : CString mem 0 text) (hlen : text.length < 2 ^ 31) {word : List UInt8}
    (hw : ∀ c ∈ word, c ≠ 0) (call rest : Except Fault HandlerCall) :
    ifZero (strcmp (charsAt mem 0) (literal word)) call rest = if text = word then call else rest := by
  have hstrlen : strlen (charsAt mem 0) = .ok (0 + text.length) := strlenTurns_spec hc.reads hc.nonzero hlen
  obtain ⟨r, hr, hiff⟩ := strcmpTurns_spec hstrlen hc.reads reads_literal hc.nonzero hw hlen
  have hcmp : strcmp (charsAt mem 0) (literal word) = .ok r := hr
  rw [ifZero, hcmp, ok_bind]
  exact if_congr hiff rfl rfl

theorem ifZero_strncmp {mem : Memory} (hc : CString mem 0 text) {word : List UInt8} (hw : ∀ c ∈ word, c ≠ 0) (n : Nat)
    (call rest : Except Fault HandlerCall) :
    ifZero (strncmp (charsAt mem 0) (literal word) n) call rest =
      if text.take n = word.take n then call else rest := by
  obtain ⟨r, hr, hiff⟩ := strncmpTurns_spec (n := n) hc.reads reads_literal hc.nonzero hw
  have hcmp : strncmp (charsAt mem 0) (literal word) n = .ok r := hr
  rw [ifZero, hcmp, ok_bind]
  exact if_congr hiff rfl rfl

/-- **The chain of comparisons** finds the handler of the line. -/
theorem callHandler_eq (hc : CString (lineMemory buffer) 0 text) (hlen : text.length < 2 ^ 31) :
    callHandler buffer = callOf buffer (handlerOf text) := by
  unfold callHandler handlerOf
  rw [ifZero_strcmp hc hlen (by decide +kernel), ifZero_strcmp hc hlen (by decide +kernel),
    ifZero_strcmp hc hlen (by decide +kernel), ifZero_strcmp hc hlen (by decide +kernel),
    ifZero_strncmp hc (by decide +kernel), ifZero_strcmp hc hlen (by decide +kernel),
    ifZero_strcmp hc hlen (by decide +kernel), ifZero_strcmp hc hlen (by decide +kernel),
    ifZero_strcmp hc hlen (by decide +kernel), ifZero_strcmp hc hlen (by decide +kernel),
    ifZero_strncmp hc (by decide +kernel)]
  simp only [apply_ite (callOf buffer)]
  rfl

theorem take_eq_word {n : Nat} {word : List UInt8} (hn : n < word.length) (h : text.take n = word.take n) :
    n ≤ text.length ∧ (text.length = n → text = word.take n) := by
  have hlen := congrArg List.length h
  rw [List.length_take, List.length_take] at hlen
  refine ⟨by omega, fun he => ?_⟩
  rw [← h, List.take_of_length_le (by omega)]

/-- A command without an argument is out of the question. -/
theorem ite_arg {w : Prop} [Decidable w] {handler x : Handler} {rest : Handler × Option Nat}
    (h : (if w then (x, none) else rest) = (handler, some p)) : rest = (handler, some p) := by
  by_cases hw : w
  · rw [if_pos hw] at h
    exact absurd (Prod.mk.inj h).2 (by simp)
  · rwa [if_neg hw] at h

/-- Where an argument begins: on the line, or just behind its NUL after two words. -/
theorem handlerOf_arg {handler : Handler} (h : handlerOf text = (handler, some p)) :
    p ≤ text.length ∨ (text = catWord.take 3 ∧ p = 4) ∨ (text = setTimeoutWord.take 10 ∧ p = 11) := by
  have h := ite_arg (ite_arg (ite_arg (ite_arg h)))
  by_cases hcat : text.take 3 = catWord.take 3
  · rw [if_pos hcat] at h
    obtain ⟨hle, heq⟩ := take_eq_word (by decide) hcat
    obtain rfl := Option.some.inj (Prod.mk.inj h).2
    by_cases h3 : text.length = 3
    · exact Or.inr (Or.inl ⟨heq h3, rfl⟩)
    · exact Or.inl (by omega)
  · rw [if_neg hcat] at h
    have h := ite_arg (ite_arg (ite_arg (ite_arg (ite_arg h))))
    by_cases hset : text.take 10 = setTimeoutWord.take 10
    · rw [if_pos hset] at h
      obtain ⟨hle, heq⟩ := take_eq_word (by decide) hset
      obtain rfl := Option.some.inj (Prod.mk.inj h).2
      by_cases h10 : text.length = 10
      · exact Or.inr (Or.inr ⟨heq h10, rfl⟩)
      · exact Or.inl (by omega)
    · rw [if_neg hset] at h
      obtain rfl := Option.some.inj (Prod.mk.inj h).2
      exact Or.inl (Nat.zero_le _)

/-! ## Typing -/

/-- The line shows the text, and its last column has never been used. -/
structure Shows (line : CommandLine) (text : List UInt8) : Prop where
  counter : line.counter = text.length
  chars : ∀ j c, text[j]? = some c → line.buffer j = c
  nonzero : ∀ c ∈ text, c ≠ 0
  unused : line.buffer (maxBufferLen - 1) = 0

theorem shows_fresh : Shows freshLine [] where
  counter := rfl
  chars := fun j c h => absurd h (by simp)
  nonzero := by simp
  unused := rfl

/-- Whatever the line was, an Enter leaves it empty. -/
theorem enter_fresh {call : Option HandlerCall} (hc : parse c = .newLine) (h : shellTurn line c = .ok (line', call)) :
    line' = freshLine := by
  rw [shellTurn, hc] at h
  simp only [commandController] at h
  by_cases hfull : line.counter = maxBufferLen
  · rw [if_pos hfull] at h
    obtain ⟨_, _, h⟩ := bind_eq_ok h
    exact (Prod.mk.inj (Except.ok.inj h)).1.symm
  · rw [if_neg hfull] at h
    obtain ⟨_, _, h⟩ := bind_eq_ok h
    exact (Prod.mk.inj (Except.ok.inj h)).1.symm

theorem parse_key (hk : c = backSpaceChar ∨ 32 ≤ c ∧ c ≤ 126) :
    parse c = if c = backSpaceChar then .backSpace else .regularInput := by
  unfold parse
  by_cases hb : c = backSpaceChar
  · rw [if_pos hb, if_pos hb]
  · obtain ⟨h1, h2⟩ := hk.resolve_left hb
    have hlt : c < 128 := by
      rw [UInt8.lt_iff_toNat_lt]
      rw [UInt8.le_iff_toNat_le] at h2
      exact Nat.lt_of_le_of_lt h2 (by decide)
    have hctl : ¬ (c = 10 ∨ c = 13) := by
      rintro (rfl | rfl) <;> exact absurd h1 (by decide)
    rw [if_neg hb, if_neg hb, if_neg (not_not.mpr hlt), if_neg hctl]

/-- **One key.** -/
theorem Shows.key (h : Shows line text) (hk : c = backSpaceChar ∨ 32 ≤ c ∧ c ≤ 126)
    (hroom : (editKey text c).length ≤ maxBufferLen - 1) :
    ∃ line', shellTurn line c = .ok (line', none) ∧ Shows line' (editKey text c) ∧
      line'.buffer = if c = backSpaceChar then line.buffer else Function.update line.buffer text.length c := by
  rw [shellTurn, parse_key hk]
  unfold editKey at hroom ⊢
  by_cases hb : c = backSpaceChar
  · rw [if_pos hb, if_pos hb, if_pos hb]
    have hchars : ∀ j c, text.dropLast[j]? = some c → line.buffer j = c := by
      intro j c hc
      rw [List.getElem?_dropLast] at hc
      by_cases hj : j < text.length - 1
      · rw [if_pos hj] at hc
        exact h.chars j c hc
      · rw [if_neg hj] at hc
        exact absurd hc (by simp)
    have hnz : ∀ c ∈ text.dropLast, c ≠ 0 := fun c hc => h.nonzero c (List.dropLast_subset _ hc)
    by_cases hpos : line.counter > 0
    · refine ⟨{ line with counter := line.counter - 1 }, by simp only [commandController, if_pos hpos],
        ⟨?_, hchars, hnz, h.unused⟩, rfl⟩
      show line.counter - 1 = _
      rw [List.length_dropLast, ← h.counter]
    · refine ⟨line, by simp only [commandController, if_neg hpos], ⟨?_, hchars, hnz, h.unused⟩, rfl⟩
      have := h.counter
      rw [List.length_dropLast]
      omega
  · rw [if_neg hb, if_neg hb, if_neg hb]
    rw [if_neg hb, List.length_append, List.length_singleton] at hroom
    have hlt : text.length < maxBufferLen := by
      unfold maxBufferLen at *
      omega
    refine ⟨⟨Function.update line.buffer text.length c, text.length + 1⟩, ?_, ⟨?_, fun j d hd => ?_, fun d hd => ?_, ?_⟩, rfl⟩
    · simp only [commandController, h.counter, if_pos hlt]
    · rw [List.length_append, List.length_singleton]
    · rcases Nat.lt_trichotomy j text.length with hj | hj | hj
      · rw [List.getElem?_append_left hj] at hd
        exact (Function.update_of_ne (by omega) _ _).trans (h.chars j d hd)
      · subst hj
        rw [List.getElem?_concat_length] at hd
        rw [← Option.some.inj hd]
        exact Function.update_self ..
      · rw [List.getElem?_eq_none (by rw [List.length_append, List.length_singleton]; omega)] at hd
        exact absurd hd (by simp)
    · rcases List.mem_append.mp hd with hd | hd
      · exact h.nonzero d hd
      · obtain ⟨h1, _⟩ := hk.resolve_left hb
        rw [List.mem_singleton.mp hd]
        rintro rfl
        exact absurd h1 (by decide)
    · exact (Function.update_of_ne (by unfold maxBufferLen at *; omega) _ _).trans h.unused

/-- **Any number of keys.** -/
theorem shellTurns_spec (keys : List UInt8) : ∀ (line : CommandLine) (text : List UInt8), Shows line text →
    (∀ c ∈ keys, c = backSpaceChar ∨ 32 ≤ c ∧ c ≤ 126) →
    (∀ pre ∈ keys.inits, (pre.foldl editKey text).length ≤ maxBufferLen - 1) →
    ∃ line', shellTurns line keys = .ok line' ∧ Shows line' (keys.foldl editKey text) ∧
      line'.buffer = lastTyped text line.buffer keys := by
  induction keys with
  | nil => exact fun line text h _ _ => ⟨line, rfl, h, rfl⟩
  | cons c keys ih =>
      intro line text h hkey hroom
      have hroom' : ∀ pre ∈ keys.inits, (pre.foldl editKey (editKey text c)).length ≤ maxBufferLen - 1 := by
        intro pre hpre
        refine hroom (c :: pre) ?_
        rw [List.inits_cons]
        exact List.mem_cons_of_mem _ (List.mem_map_of_mem hpre)
      obtain ⟨line₁, hrun₁, h₁, hbuf₁⟩ := h.key (hkey c (List.mem_cons_self ..)) (hroom' [] (by simp))
      obtain ⟨line', hrun', h', hbuf'⟩ := ih line₁ (editKey text c) h₁ (fun d hd => hkey d (List.mem_cons_of_mem _ hd)) hroom'
      refine ⟨line', ?_, h', ?_⟩
      · rw [shellTurns, List.foldlM_cons, hrun₁]
        exact hrun'
      · rw [hbuf', hbuf₁]
        rfl

/-! ## The argument -/

/-- Enter puts a NUL behind the text. -/
theorem Shows.ended (h : Shows line text) (hroom : text.length ≤ maxBufferLen - 1) :
    CString (lineMemory (Function.update line.buffer line.counter 0)) 0 text := by
  unfold maxBufferLen at hroom
  refine ⟨h.nonzero, fun j d hd => ?_, by omega⟩
  have hj := (List.getElem?_eq_some_iff.mp hd).1
  rw [List.length_append, List.length_singleton] at hj
  rw [Nat.zero_add, lineMemory, if_pos (show j < maxBufferLen by unfold maxBufferLen; omega), h.counter]
  congr 1
  rcases Nat.lt_or_ge j text.length with hlt | hge
  · rw [List.getElem?_append_left hlt] at hd
    exact (Function.update_of_ne (by omega) _ _).trans (h.chars j d hd)
  · obtain rfl : j = text.length := by omega
    rw [List.getElem?_concat_length] at hd
    rw [← Option.some.inj hd]
    exact Function.update_self ..

theorem stringFrom_cons (hp : p < maxBufferLen) :
    stringFrom buffer p = if buffer p = 0 then [] else buffer p :: stringFrom buffer (p + 1) := by
  have hlen : maxBufferLen - p = (maxBufferLen - (p + 1)) + 1 := by omega
  rw [stringFrom, hlen, List.range'_succ, List.map_cons, List.takeWhile_cons]
  by_cases hz : buffer p = 0
  · simp [hz]
  · simp [hz, stringFrom]

/-- A string that ends in the buffer is read. -/
theorem readString_line (h0 : buffer (maxBufferLen - 1) = 0) (n : Nat) : ∀ p, p < maxBufferLen →
    maxBufferLen - p ≤ n → readStringTurns (lineMemory buffer) p n = .ok (stringFrom buffer p) := by
  induction n with
  | zero =>
      intro p hp hn
      omega
  | succ n ih =>
      intro p hp hn
      have hload : loadByte (lineMemory buffer) p = .ok (buffer p) := by
        refine loadByte_of_lt (by unfold maxBufferLen at hp; omega) ?_
        rw [lineMemory, if_pos hp]
      rw [readStringTurns, hload, stringFrom_cons hp]
      by_cases hz : buffer p = 0
      · rw [if_pos hz]
        simp only [ok_bind, hz, if_true]
      · have hlast : p ≠ maxBufferLen - 1 := fun he => hz (he ▸ h0)
        rw [if_neg hz]
        simp only [ok_bind, hz, if_false, ih (p + 1) (by omega) (by omega)]

theorem stringFrom_of_eq (h : ∀ j, p ≤ j → buffer' j = buffer j) : stringFrom buffer' p = stringFrom buffer p := by
  unfold stringFrom
  congr 1
  refine List.map_congr_left (fun j hj => h j ?_)
  exact (List.mem_range'_1.mp hj).1

theorem CString.drop {mem : Memory} {a n : Nat} (h : CString mem a text) (hn : n ≤ text.length) :
    CString mem (a + n) (text.drop n) where
  nonzero := fun c hc => h.nonzero c (List.mem_of_mem_drop hc)
  bytes := by
    intro j d hd
    rw [← List.drop_append_of_le_length hn, List.getElem?_drop] at hd
    rw [Nat.add_assoc]
    exact h.bytes (n + j) d hd
  fits := by
    have := h.fits
    rw [List.length_drop]
    omega

/-! ## The command -/

/-- The argument from column `p` on: the rest of the line, or what stands behind its NUL. -/
def argFrom (keys : List UInt8) (p : Nat) : List UInt8 :=
  if p ≤ (edited keys).length then (edited keys).drop p else typedFrom keys p

/-- What an Enter calls. -/
def called (keys : List UInt8) : HandlerCall :=
  ⟨(handlerOf (edited keys)).1, (handlerOf (edited keys)).2.map (argFrom keys)⟩

theorem Typed.length_le (h : Typed keys) : (edited keys).length ≤ maxBufferLen - 1 :=
  h.room keys ((List.mem_inits ..).mpr (List.prefix_refl _))

/-- **Keys, and then Enter.** -/
theorem enterAfter_spec {enter : UInt8} (h : Typed keys) (hn : parse enter = .newLine) :
    enterAfter keys enter = .ok (some (called keys)) := by
  have hroom := h.length_le
  obtain ⟨line, hrun, hshows, hbuf⟩ := shellTurns_spec keys freshLine [] shows_fresh h.key h.room
  have hshows : Shows line (edited keys) := hshows
  have hnotfull : line.counter ≠ maxBufferLen := by
    rw [hshows.counter]
    unfold maxBufferLen at *
    omega
  have hended := hshows.ended hroom
  have hlen : (edited keys).length < 2 ^ 31 := by
    unfold maxBufferLen at hroom
    omega
  have hcall : callHandler (Function.update line.buffer line.counter 0) = .ok (called keys) := by
    rw [callHandler_eq hended hlen, called]
    rcases hhandler : handlerOf (edited keys) with ⟨handler, _ | p⟩
    · rfl
    · have harg : printString (lineMemory (Function.update line.buffer line.counter 0)) (some p)
          = .ok (argFrom keys p) := by
        unfold argFrom
        by_cases hp : p ≤ (edited keys).length
        · rw [if_pos hp]
          have hdrop := hended.drop hp
          rw [Nat.zero_add] at hdrop
          refine readStringTurns_spec hdrop ?_
          rw [List.length_drop]
          omega
        · -- the NUL is in front of the argument, and what is behind it stays as it was
          rw [if_neg hp]
          have hp256 : p < maxBufferLen := by
            unfold maxBufferLen
            rcases handlerOf_arg hhandler with h | ⟨_, h⟩ | ⟨_, h⟩ <;> omega
          have hlast : Function.update line.buffer line.counter 0 (maxBufferLen - 1) = 0 := by
            by_cases he : maxBufferLen - 1 = line.counter
            · rw [he]
              exact Function.update_self ..
            · exact (Function.update_of_ne he _ _).trans hshows.unused
          have hread := readString_line hlast (2 ^ 64) p hp256 (by unfold maxBufferLen; omega)
          rw [printString, hread]
          congr 1
          refine stringFrom_of_eq (fun j hj => ?_)
          rw [Function.update_of_ne (by rw [hshows.counter]; omega), hbuf]
          rfl
      simp only [callOf, callWith, harg, ok_bind, Option.map_some]
  rw [enterAfter, hrun, ok_bind, shellTurn, hn]
  simp only [commandController, if_neg hnotfull, hcall, ok_bind]

theorem called_eq_iff (he : edited keys = edited keys') :
    called keys = called keys' ↔
      ∀ handler p, handlerOf (edited keys) = (handler, some p) → argFrom keys p = argFrom keys' p := by
  unfold called
  rw [← he, HandlerCall.mk.injEq]
  rcases handlerOf (edited keys) with ⟨handler, _ | p⟩
  · exact ⟨fun _ _ _ h => absurd (Prod.mk.inj h).2 (by simp), fun _ => ⟨rfl, rfl⟩⟩
  · constructor
    · rintro ⟨_, h⟩ _ _ hp
      rw [← Option.some.inj (Prod.mk.inj hp).2]
      exact Option.some.inj h
    · intro h
      exact ⟨rfl, congrArg some (h handler p rfl)⟩

/-- Behind the line, the argument is what was last typed there. -/
theorem argFrom_of_lt (h : (edited keys).length < p) : argFrom keys p = typedFrom keys p := if_neg (by omega)

/-- **Two histories of one line**: the handler is the same, and the argument is unless it begins
behind the line and something else has been rubbed out there. -/
theorem command_same_iff {enter enter' : UInt8} (h : Typed keys) (h' : Typed keys') (he : edited keys = edited keys')
    (hn : parse enter = .newLine) (hn' : parse enter' = .newLine) :
    (∃ call, enterAfter keys enter = .ok (some call)) ∧
      (enterAfter keys enter = enterAfter keys' enter' ↔
        (edited keys = catWord.take 3 → typedFrom keys 4 = typedFrom keys' 4) ∧
        (edited keys = setTimeoutWord.take 10 → typedFrom keys 11 = typedFrom keys' 11)) := by
  refine ⟨⟨_, enterAfter_spec h hn⟩, ?_⟩
  rw [enterAfter_spec h hn, enterAfter_spec h' hn', Except.ok.injEq, Option.some.injEq, called_eq_iff he]
  have hbehind : ∀ {word : List UInt8} {p}, edited keys = word → word.length < p →
      (argFrom keys p = argFrom keys' p ↔ typedFrom keys p = typedFrom keys' p) := by
    intro word p hw hlt
    rw [argFrom_of_lt (by rw [hw]; exact hlt), argFrom_of_lt (by rw [← he, hw]; exact hlt)]
  constructor
  · intro hsame
    refine ⟨fun hcat => ?_, fun hset => ?_⟩
    · exact (hbehind hcat (by decide)).mp (hsame .getCpioFile 4 (by rw [hcat]; decide))
    · exact (hbehind hset (by decide)).mp (hsame .setTimeout 11 (by rw [hset]; decide))
  · rintro ⟨hcat, hset⟩ handler p hhandler
    rcases handlerOf_arg hhandler with hp | ⟨hw, rfl⟩ | ⟨hw, rfl⟩
    · unfold argFrom
      rw [if_pos hp, ← he, if_pos hp]
    · exact (hbehind hw (by decide)).mpr (hcat hw)
    · exact (hbehind hw (by decide)).mpr (hset hw)

/-- `cat`, after a file name and the blank before it were rubbed out. -/
def catRubbedOut : List UInt8 := [99, 97, 116, 32, 120, 127, 127]

theorem typed_catRubbedOut : Typed catRubbedOut := ⟨by decide +kernel, by decide +kernel⟩

theorem typed_cat : Typed (catWord.take 3) := ⟨by decide +kernel, by decide +kernel⟩

theorem command_same_iff_cat :
    (∃ call, enterAfter catRubbedOut 13 = .ok (some call)) ∧
      (enterAfter catRubbedOut 13 = enterAfter (catWord.take 3) 10 ↔
        (edited catRubbedOut = catWord.take 3 → typedFrom catRubbedOut 4 = typedFrom (catWord.take 3) 4) ∧
        (edited catRubbedOut = setTimeoutWord.take 10 → typedFrom catRubbedOut 11 = typedFrom (catWord.take 3) 11)) :=
  command_same_iff typed_catRubbedOut typed_cat (by decide) (by decide) (by decide)

/-- The name that was rubbed out is looked for all the same. -/
theorem not_command_same :
    ¬ ∀ (keys keys' : List UInt8) (enter enter' : UInt8), Typed keys → Typed keys' → edited keys = edited keys' →
      parse enter = .newLine → parse enter' = .newLine → enterAfter keys enter = enterAfter keys' enter' := by
  intro h
  have hsame := h catRubbedOut (catWord.take 3) 13 10 typed_catRubbedOut typed_cat (by decide) (by decide) (by decide)
  rw [enterAfter_spec typed_catRubbedOut (by decide), enterAfter_spec typed_cat (by decide)] at hsame
  have hx : called catRubbedOut = ⟨.getCpioFile, some [120]⟩ := by decide +kernel
  have hempty : called (catWord.take 3) = ⟨.getCpioFile, some []⟩ := by decide +kernel
  rw [hx, hempty] at hsame
  exact absurd hsame (by decide)

end OsdiKernel
