import OsdiKernel.Shell.Stale
import OsdiKernel.Text.Reverse

/-!
# What counts as a command

The grammar of the command line: nine commands stand alone, and two take the rest
of the line, behind a blank, as their argument. `command_controller` looks at one
character less than the word and its blank, so it takes a line for one of these
two whatever comes in the place of the blank.
-/

namespace OsdiKernel

variable {text : List UInt8} {enter : UInt8} {call : HandlerCall}

/-- A line as it is typed with no backspace: no NUL, and room for one. -/
structure TypedLine (text : List UInt8) : Prop where
  regular : ∀ c ∈ text, parse c = .regularInput
  nonzero : ∀ c ∈ text, c ≠ 0
  room : text.length < maxBufferLen

/-- The commands that stand alone. -/
def parameterless : List (List UInt8 × Handler) :=
  [(helpWord, .help), (helloWord, .hello), (rebootWord, .reboot), (lsWord, .cpioLs), (maWord, .mmInit),
    (cpioSvcWord, .cpioSvc), (currentElWord, .currentEl), (coreTimerOnWord, .coreTimerOn),
    (coreTimerOffWord, .coreTimerOff)]

/-- The line is what the grammar says the call is for. -/
structure Recognised (text : List UInt8) (call : HandlerCall) : Prop where
  cat : call.handler = .getCpioFile ↔ catWord <+: text
  catArg : call.handler = .getCpioFile → call.arg = some (text.drop catWord.length)
  setTimeout : call.handler = .setTimeout ↔ setTimeoutWord <+: text
  setTimeoutArg : call.handler = .setTimeout → call.arg = some (text.drop setTimeoutWord.length)
  word : ∀ w ∈ parameterless, call.handler = w.2 ↔ text = w.1
  notFound : ¬ catWord <+: text → ¬ setTimeoutWord <+: text → (∀ w ∈ parameterless, text ≠ w.1) →
    call = ⟨.commandNotFound, some text⟩

/-- Where the line begins like one of the two words with an argument, the blank is there too. -/
def Blanked (text : List UInt8) : Prop :=
  (catWord.take 3 <+: text → catWord <+: text) ∧ (setTimeoutWord.take 10 <+: text → setTimeoutWord <+: text)

instance (text : List UInt8) : Decidable (Blanked text) := inferInstanceAs (Decidable ((_ → _) ∧ (_ → _)))

/-! ## Typing the line -/

/-- **The characters are in the buffer**, and nothing else is. -/
theorem shellTurns_typed (rest : List UInt8) : ∀ done : List UInt8, (∀ c ∈ rest, parse c = .regularInput) →
    done.length + rest.length ≤ maxBufferLen →
    shellTurns ⟨bufferOf done, done.length⟩ rest = .ok ⟨bufferOf (done ++ rest), (done ++ rest).length⟩ := by
  induction rest with
  | nil =>
      intro done _ _
      rw [List.append_nil]
      rfl
  | cons c rest ih =>
      intro done hreg hroom
      rw [List.length_cons] at hroom
      have hturn : shellTurn ⟨bufferOf done, done.length⟩ c =
          .ok (⟨bufferOf (done ++ [c]), (done ++ [c]).length⟩, none) := by
        rw [shellTurn, hreg c List.mem_cons_self]
        simp only [commandController, if_pos (show done.length < maxBufferLen by omega), update_bufferOf,
          List.length_append, List.length_singleton]
      have hrest := ih (done ++ [c]) (fun d hd => hreg d (List.mem_cons_of_mem _ hd))
        (by rw [List.length_append, List.length_singleton]; omega)
      rw [List.append_assoc, List.singleton_append] at hrest
      rw [shellTurns, List.foldlM_cons, hturn]
      exact hrest

theorem freshLine_eq : freshLine = ⟨bufferOf [], ([] : List UInt8).length⟩ := rfl

/-- A line in the shell's buffer is a string. -/
theorem TypedLine.cstring (h : TypedLine text) : CString (lineMemory (bufferOf text)) 0 text where
  nonzero := h.nonzero
  bytes := by
    intro j c hj
    have hroom := h.room
    have hlt := (List.getElem?_eq_some_iff.mp hj).1
    rw [List.length_append, List.length_singleton] at hlt
    rw [Nat.zero_add, lineMemory, if_pos (by omega), (holdsString_bufferOf h.nonzero).chars j c hj]
  fits := by
    have hroom := h.room
    unfold maxBufferLen at hroom
    omega

/-- The rest of the line from a column on, where everything behind the line is NUL. -/
theorem TypedLine.printRest (h : TypedLine text) {p : Nat} (hp : p < maxBufferLen) :
    printString (lineMemory (bufferOf text)) (some p) = .ok (text.drop p) := by
  have hroom := h.room
  rcases Nat.lt_or_ge text.length p with hlt | hge
  · -- the first character is a NUL already
    have hload : loadByte (lineMemory (bufferOf text)) p = .ok 0 := by
      refine loadByte_of_lt (by unfold maxBufferLen at hp; omega) ?_
      rw [lineMemory, if_pos hp, bufferOf, List.getD_eq_default _ _ (by omega)]
    rw [printString, List.drop_eq_nil_of_le (by omega), show 2 ^ 64 = (2 ^ 64 - 1) + 1 from rfl, readStringTurns, hload]
    rfl
  · have hdrop := h.cstring.drop hge
    rw [Nat.zero_add] at hdrop
    refine readStringTurns_spec hdrop ?_
    rw [List.length_drop]
    unfold maxBufferLen at hroom
    omega

/-- **Enter** calls the handler of the line, with the rest of it from the handler's column on. -/
theorem enterAfter_typed (h : TypedLine text) (hn : parse enter = .newLine) :
    enterAfter text enter = .ok (some ⟨(handlerOf text).1, (handlerOf text).2.map text.drop⟩) := by
  have hroom := h.room
  have hrun := shellTurns_typed text [] h.regular (by simpa using hroom.le)
  rw [List.nil_append, ← freshLine_eq] at hrun
  have hlen : text.length < 2 ^ 31 := by
    unfold maxBufferLen at hroom
    omega
  have hended : Function.update (bufferOf text) text.length 0 = bufferOf text :=
    Function.update_eq_self_iff.mpr (List.getD_eq_default _ _ le_rfl).symm
  have hcall : callHandler (bufferOf text) = .ok ⟨(handlerOf text).1, (handlerOf text).2.map text.drop⟩ := by
    rw [callHandler_eq h.cstring hlen]
    rcases hhandler : handlerOf text with ⟨handler, _ | p⟩
    · rfl
    · have hp : p < maxBufferLen := by
        unfold maxBufferLen at hroom ⊢
        rcases handlerOf_arg hhandler with hp | ⟨_, hp⟩ | ⟨_, hp⟩ <;> omega
      rw [callOf, callWith, h.printRest hp]
      rfl
  rw [enterAfter, hrun, ok_bind, shellTurn, hn]
  simp only [commandController, if_neg hroom.ne, hended, hcall, ok_bind]

/-! ## The chain of comparisons, in no order -/

/-- No two of the comparisons succeed on one line. -/
theorem handlerOf_eq (text : List UInt8) : handlerOf text =
    if catWord.take 3 <+: text then (.getCpioFile, some 4)
    else if setTimeoutWord.take 10 <+: text then (.setTimeout, some 11)
    else match parameterless.find? (fun w => w.1 = text) with
      | some w => (w.2, none)
      | none => (.commandNotFound, some 0) := by
  by_cases hw : ∃ w ∈ parameterless, w.1 = text
  · have hwords : ∀ w ∈ parameterless, handlerOf w.1 =
        if catWord.take 3 <+: w.1 then (.getCpioFile, some 4)
        else if setTimeoutWord.take 10 <+: w.1 then (.setTimeout, some 11)
        else match parameterless.find? (fun v => v.1 = w.1) with
          | some v => (v.2, none)
          | none => (.commandNotFound, some 0) := by decide +kernel
    obtain ⟨w, hw, rfl⟩ := hw
    exact hwords w hw
  · have hne : ∀ w ∈ parameterless, text ≠ w.1 := fun w hm he => hw ⟨w, hm, he.symm⟩
    have hfind : parameterless.find? (fun w => w.1 = text) = none :=
      List.find?_eq_none.mpr (fun w hm => by simpa using (hne w hm).symm)
    have hcat : catWord.take 3 <+: text ↔ text.take 3 = catWord.take 3 := by
      rw [List.prefix_iff_eq_take]
      exact eq_comm
    have hset : setTimeoutWord.take 10 <+: text ↔ text.take 10 = setTimeoutWord.take 10 := by
      rw [List.prefix_iff_eq_take]
      exact eq_comm
    rw [hfind, if_congr hcat rfl rfl, if_congr hset rfl rfl, handlerOf]
    simp only [parameterless, List.forall_mem_cons] at hne
    obtain ⟨h1, h2, h3, h4, h5, h6, h7, h8, h9, _⟩ := hne
    rw [if_neg h1, if_neg h2, if_neg h3, if_neg h4, if_neg h5, if_neg h6, if_neg h7, if_neg h8, if_neg h9]

/-- What an Enter calls after these characters. -/
def callFor (text : List UInt8) : HandlerCall := ⟨(handlerOf text).1, (handlerOf text).2.map text.drop⟩

/-- A line begins like one of the two words at most. -/
theorem not_cat_and_setTimeout (hc : catWord.take 3 <+: text) (hs : setTimeoutWord.take 10 <+: text) : False := by
  rcases List.prefix_or_prefix_of_prefix hc hs with h | h
  · exact absurd h (by decide)
  · exact absurd h (by decide)

theorem callFor_cat (h : catWord.take 3 <+: text) : callFor text = ⟨.getCpioFile, some (text.drop 4)⟩ := by
  rw [callFor, handlerOf_eq, if_pos h]
  rfl

theorem callFor_setTimeout (h : setTimeoutWord.take 10 <+: text) :
    callFor text = ⟨.setTimeout, some (text.drop 11)⟩ := by
  rw [callFor, handlerOf_eq, if_neg (fun hc => not_cat_and_setTimeout hc h), if_pos h]
  rfl

/-- The commands that stand alone begin like neither word, and are told apart by their handlers. -/
theorem parameterless_apart : ∀ w ∈ parameterless, ¬ catWord.take 3 <+: w.1 ∧ ¬ setTimeoutWord.take 10 <+: w.1 ∧
    w.2 ≠ .getCpioFile ∧ w.2 ≠ .setTimeout ∧ w.2 ≠ .commandNotFound ∧
    ∀ v ∈ parameterless, w.2 = v.2 ↔ w.1 = v.1 := by
  decide +kernel

/-- With the blank, a line that begins like `cat ` is recognised, -/
theorem recognised_cat (hfull : catWord <+: text) : Recognised text (callFor text) := by
  have hc : catWord.take 3 <+: text := (List.take_prefix 3 catWord).trans hfull
  rw [callFor_cat hc]
  have hns : ¬ setTimeoutWord <+: text := fun hs =>
    not_cat_and_setTimeout hc ((List.take_prefix 10 setTimeoutWord).trans hs)
  refine ⟨iff_of_true rfl hfull, fun _ => rfl, iff_of_false nofun hns, nofun, fun w hw => ?_, fun hn => absurd hfull hn⟩
  obtain ⟨hcat, _, hne, _⟩ := parameterless_apart w hw
  exact iff_of_false (fun he => hne he.symm) (fun he => hcat (he ▸ hc))

/-- one that begins like `setTimeout ` is, -/
theorem recognised_setTimeout (hfull : setTimeoutWord <+: text) : Recognised text (callFor text) := by
  have hs : setTimeoutWord.take 10 <+: text := (List.take_prefix 10 setTimeoutWord).trans hfull
  rw [callFor_setTimeout hs]
  have hnc : ¬ catWord <+: text := fun hc =>
    not_cat_and_setTimeout ((List.take_prefix 3 catWord).trans hc) hs
  refine ⟨iff_of_false nofun hnc, nofun, iff_of_true rfl hfull, fun _ => rfl, fun w hw => ?_,
    fun _ hn => absurd hfull hn⟩
  obtain ⟨_, hset, _, hne, _⟩ := parameterless_apart w hw
  exact iff_of_false (fun he => hne he.symm) (fun he => hset (he ▸ hs))

/-- and so is one that begins like neither. -/
theorem recognised_other (hc : ¬ catWord.take 3 <+: text) (hs : ¬ setTimeoutWord.take 10 <+: text) :
    Recognised text (callFor text) := by
  have hnc : ¬ catWord <+: text := fun h => hc ((List.take_prefix 3 catWord).trans h)
  have hns : ¬ setTimeoutWord <+: text := fun h => hs ((List.take_prefix 10 setTimeoutWord).trans h)
  have hhandler := handlerOf_eq text
  rw [if_neg hc, if_neg hs] at hhandler
  rcases hfind : parameterless.find? (fun w => w.1 = text) with _ | w
  · have hne : ∀ w ∈ parameterless, text ≠ w.1 := fun w hw he => by
      have := List.find?_eq_none.mp hfind w hw
      exact this (by simpa using he.symm)
    rw [hfind] at hhandler
    rw [callFor, hhandler]
    refine ⟨iff_of_false nofun hnc, nofun, iff_of_false nofun hns, nofun, fun w hw => ?_, fun _ _ _ => rfl⟩
    obtain ⟨_, _, _, _, hnf, _⟩ := parameterless_apart w hw
    exact iff_of_false (fun he => hnf he.symm) (hne w hw)
  · have hw := List.mem_of_find?_eq_some hfind
    have htext : w.1 = text := by simpa using List.find?_some hfind
    obtain ⟨_, _, h1, h2, _, hsame⟩ := parameterless_apart w hw
    rw [hfind] at hhandler
    rw [callFor, hhandler]
    refine ⟨iff_of_false h1 hnc, fun h => absurd h h1, iff_of_false h2 hns, fun h => absurd h h2, fun v hv => ?_,
      fun _ _ hno => absurd htext.symm (hno w hw)⟩
    rw [← htext]
    exact hsame v hv

theorem recognised_callFor_iff : Recognised text (callFor text) ↔ Blanked text := by
  constructor
  · intro h
    refine ⟨fun hc => h.cat.mp ?_, fun hs => h.setTimeout.mp ?_⟩
    · rw [callFor_cat hc]
    · rw [callFor_setTimeout hs]
  · rintro ⟨hcat, hset⟩
    by_cases hc : catWord.take 3 <+: text
    · exact recognised_cat (hcat hc)
    · by_cases hs : setTimeoutWord.take 10 <+: text
      · exact recognised_setTimeout (hset hs)
      · exact recognised_other hc hs

/--
**A line is recognised by its grammar** if and only if it does not begin with
`cat` or `setTimeout` and something other than a blank, or nothing, after it.
-/
theorem command_recognised_iff (h : TypedLine text) (hn : parse enter = .newLine) :
    ∃ call, enterAfter text enter = .ok (some call) ∧ (Recognised text call ↔ Blanked text) :=
  ⟨callFor text, enterAfter_typed h hn, recognised_callFor_iff⟩

/-- `cat a` -/
def catLine : List UInt8 := catWord ++ [97]

theorem command_recognised_cat :
    TypedLine catLine ∧ Blanked catLine ∧
      ∃ call, enterAfter catLine 13 = .ok (some call) ∧ Recognised catLine call := by
  have htyped : TypedLine catLine := ⟨by decide +kernel, by simp [catLine, catWord], by decide⟩
  obtain ⟨call, hrun, hiff⟩ := command_recognised_iff htyped (show parse 13 = .newLine by decide)
  exact ⟨htyped, by decide, call, hrun, hiff.mpr (by decide)⟩

/-- `cats` is taken for a command, to print the file without a name. -/
theorem not_command_recognised :
    ¬ ∀ (text : List UInt8) (enter : UInt8) (call : HandlerCall), TypedLine text → parse enter = .newLine →
      enterAfter text enter = .ok (some call) → Recognised text call := by
  intro hall
  have htyped : TypedLine [99, 97, 116, 115] := ⟨by decide +kernel, by simp, by decide⟩
  have hrun := enterAfter_typed htyped (show parse 13 = .newLine by decide)
  exact absurd (recognised_callFor_iff.mp (hall _ 13 _ htyped (by decide) hrun)) (by decide)

end OsdiKernel
