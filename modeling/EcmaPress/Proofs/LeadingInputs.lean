import EcmaPress.CommandLine.Parse
import Mathlib.Data.List.TakeWhile

/-!
# Inputs that stand before the flags

Which words are inputs is read off the words alone: they come before the first flag, or behind a
mark that does. The look for misplaced inputs skips what it takes for the value of a flag, and the
reader collects values by what it knows of the flag. The two go over the words side by side: while
no error has come up, the reader waits for a value just where the look expects one. They differ only
where a flag lacks the value it needs, and then there is an error in the end.
-/

namespace EcmaPress

/-- The inputs of a command line: the words before the first flag and those behind the mark, if it
comes before any flag. -/
def leadingInputs : List String → List String
  | [] => []
  | word :: rest =>
    if word = "--" then rest else if isFlag word then [] else word :: leadingInputs rest

/-! ### Kinds of words -/

theorem isFlag_iff {word : String} :
    isFlag word = true ↔ word ≠ "--" ∧ ∃ c rest, word.toList = '-' :: c :: rest := by
  rw [isFlag, ← String.length_toList]
  rcases word.toList with _ | ⟨d, _ | ⟨c, rest⟩⟩ <;> simp [and_comm]

theorem ofString_mark : Word.ofString "--" = .mark := by
  decide

theorem ofString_plain {word : String} (hmark : word ≠ "--") (hflag : ¬ isFlag word) :
    Word.ofString word = .plain word := by
  unfold Word.ofString
  split
  · next h => exact (hmark (String.toList_inj.mp h)).elim
  · next h => exact (hflag (isFlag_iff.mpr ⟨hmark, _, _, h⟩)).elim
  · next h => exact (hflag (isFlag_iff.mpr ⟨hmark, _, _, h⟩)).elim
  · rfl

/-- A flag is a long one or some short ones. -/
theorem ofString_flag {word : String} (hflag : isFlag word = true) :
    (∃ text, word.toList = '-' :: '-' :: text ∧ Word.ofString word =
      .long (String.ofList (splitAtEquals text).1) ((splitAtEquals text).2.map String.ofList)) ∨
    ∃ c letters, word.toList = '-' :: c :: letters ∧ Word.ofString word = .shorts (c :: letters) := by
  obtain ⟨hmark, c, letters, hword⟩ := isFlag_iff.mp hflag
  unfold Word.ofString
  split
  · next h => exact (hmark (String.toList_inj.mp h)).elim
  · next text _ h => exact .inl ⟨text, h, rfl⟩
  · next c letters _ _ h => exact .inr ⟨c, letters, h, rfl⟩
  · next hother => exact (hother c letters hword).elim

theorem exists_splitAtEquals_snd {text : List Char} (h : '=' ∈ text) :
    ∃ value, (splitAtEquals text).2 = some value := by
  unfold splitAtEquals
  split
  · next hnil =>
    have hne := List.dropWhile_eq_nil_iff.mp hnil '=' h
    simp at hne
  · exact ⟨_, rfl⟩

theorem arityOf_of_mem {word : String} (h : '=' ∈ word.toList) : arityOf word = .noValue := by
  simp [arityOf, h]

theorem arityOf_of_notMem {word : String} (h : '=' ∉ word.toList) :
    arityOf word = .ofWord (.ofString word) := by
  simp [arityOf, h]

theorem ofLetters_of_noValue {c : Char} {rest : List Char} {flag : Flag}
    (hc : Flag.ofShort? c = some flag) (hflag : flag.arity = .noValue) :
    Arity.ofWord.ofLetters (c :: rest) = Arity.ofWord.ofLetters rest := by
  simp [Arity.ofWord.ofLetters, hc, hflag]

theorem ofLetters_of_value {c : Char} {rest : List Char} {flag : Flag}
    (hc : Flag.ofShort? c = some flag) (hflag : flag.arity ≠ .noValue) :
    Arity.ofWord.ofLetters (c :: rest) = if rest.isEmpty then flag.arity else .noValue := by
  simp [Arity.ofWord.ofLetters, hc]

/-! ### The look for misplaced inputs -/

/-- Whether a word is skipped as the value of the flag before. -/
def Arity.Skips (arity : Arity) (word : String) : Prop :=
  arity = .required ∨ arity = .optional ∧ word.toList.head? ≠ some '-'

section

variable {flag : Option String} {first word : String} {arity : Arity} {rest : List String}

theorem Arity.not_skips_of_isFlag (hflag : isFlag word = true) (h : arity ≠ .required) :
    ¬ arity.Skips word := by
  obtain ⟨-, c, letters, hword⟩ := isFlag_iff.mp hflag
  simp [Skips, h, hword]

theorem misplaced?_of_skips (h : arity.Skips word) :
    misplaced? flag arity (word :: rest) = misplaced? flag .noValue rest := by
  rw [misplaced?.eq_def]
  exact if_pos (by simpa [Arity.Skips] using h)

theorem misplaced?_of_not_skips (h : ¬ arity.Skips word) :
    misplaced? flag arity (word :: rest) = misplaced? flag .noValue (word :: rest) := by
  rw [misplaced?.eq_def flag arity, misplaced?.eq_def flag .noValue]
  exact (if_neg (by simpa [Arity.Skips] using h)).trans (if_neg nofun).symm

theorem misplaced?_mark :
    misplaced? (some first) .noValue ("--" :: rest) = rest.head?.map fun input => (input, first) := by
  cases rest <;> rfl

theorem misplaced?_flag (hflag : isFlag word = true) :
    misplaced? flag .noValue (word :: rest) =
      misplaced? (flag <|> some word) (arityOf word) rest := by
  rw [misplaced?.eq_def]
  exact (if_neg nofun).trans ((if_neg (isFlag_iff.mp hflag).1).trans (if_pos hflag))

theorem misplaced?_plain (hmark : word ≠ "--") (hflag : ¬ isFlag word) :
    misplaced? flag .noValue (word :: rest) =
      flag.elim (misplaced? none .noValue rest) fun first => some (word, first) := by
  rw [misplaced?.eq_def]
  refine (if_neg nofun).trans ((if_neg hmark).trans ((if_neg hflag).trans ?_))
  cases flag <;> rfl

end

/-! ### Settling -/

theorem Except.bind_eq_ok {ε α β : Type} {x : Except ε α} {f : α → Except ε β} {b : β} :
    (x >>= f) = .ok b ↔ ∃ a, x = .ok a ∧ f a = .ok b := by
  cases x <;> simp [bind, Except.bind]

namespace Settled

theorem eq_of_pathOf {argument : Argument} {text : String} {path : Path}
    (h : pathOf argument text = .ok path) : path = .ofString text := by
  unfold pathOf at h
  split at h
  · cases h
  · exact (Except.ok.inj h).symm

theorem eq_of_mapM_pathOf {argument : Argument} {texts : List String} {paths : List Path}
    (h : texts.mapM (pathOf argument) = .ok paths) : paths = texts.map Path.ofString := by
  induction texts generalizing paths with
  | nil => exact (Except.ok.inj h).symm
  | cons text texts ih =>
    rw [List.mapM_cons] at h
    obtain ⟨path, hpath, h⟩ := Except.bind_eq_ok.mp h
    obtain ⟨more, hmore, h⟩ := Except.bind_eq_ok.mp h
    obtain rfl := Except.ok.inj h
    rw [eq_of_pathOf hpath, ih hmore, List.map_cons]

theorem mapM_pathOf {argument : Argument} {texts : List String} (h : "" ∉ texts) :
    texts.mapM (pathOf argument) = .ok (texts.map Path.ofString) := by
  induction texts with
  | nil => rfl
  | cons text texts ih =>
    rw [List.mem_cons, not_or] at h
    rw [List.mapM_cons, ih h.2, pathOf, if_neg (Ne.symm h.1)]
    rfl

theorem inputs_of_addInputs {settled settled' : Settled} {texts : List String}
    (h : settled.addInputs texts = .ok settled') :
    settled'.options.inputs = settled.options.inputs ++ texts.map Path.ofString := by
  obtain ⟨paths, hpaths, h⟩ := Except.bind_eq_ok.mp h
  obtain rfl := Except.ok.inj h
  rw [eq_of_mapM_pathOf hpaths]

/-- No flag adds inputs. -/
theorem inputs_of_apply {options options' : Options} {flag : Flag} {value : String}
    (h : apply options flag value = .ok options') : options'.inputs = options.inputs := by
  cases flag with
  | output =>
    obtain ⟨path, -, h⟩ := Except.bind_eq_ok.mp h
    obtain rfl := Except.ok.inj h
    rfl
  | indentWidth | encoding =>
    simp only [apply] at h
    split at h
    · obtain rfl := Except.ok.inj h
      rfl
    · cases h
  | mangle | pretty | sourceMap | version | obfuscate | dropSemicolons =>
    obtain rfl := Except.ok.inj h
    rfl
  | help => cases h

theorem of_addFlag {settled settled' : Settled} {flag : Flag} {value : Option String}
    (h : settled.addFlag flag value = .ok settled') :
    settled'.options.inputs = settled.options.inputs ∧ ¬ (flag.arity = .required ∧ value = none) := by
  unfold addFlag at h
  split at h
  · cases h
  · next hvalue =>
    split at h
    · cases h
    · obtain ⟨options, hoptions, h⟩ := Except.bind_eq_ok.mp h
      obtain rfl := Except.ok.inj h
      exact ⟨inputs_of_apply hoptions, hvalue⟩

end Settled

/-! ### Reading word by word -/

namespace Reader

theorem giveShorts_cons {reader last : Reader} {c : Char} {rest : List Char}
    (h : reader.giveShorts (c :: rest) = .ok last) : ∃ flag, Flag.ofShort? c = some flag ∧
      (flag.arity = .noValue ∧
          (∃ next, reader.giveFlag flag none = .ok next ∧ next.giveShorts rest = .ok last) ∨
        flag.arity ≠ .noValue ∧
          (rest = [] ∧ reader.awaitValue flag = .ok last ∨
            rest ≠ [] ∧ ∃ value, reader.giveFlag flag value = .ok last)) := by
  rw [giveShorts] at h
  split at h
  · cases h
  · next flag hc =>
    refine ⟨flag, hc, ?_⟩
    split at h
    · next hflag => exact .inl ⟨hflag, Except.bind_eq_ok.mp h⟩
    · next hflag => exact .inr ⟨hflag, .inl ⟨rfl, h⟩⟩
    · next hflag => exact .inr ⟨hflag, .inr ⟨nofun, _, h⟩⟩
    · next hnil _ hflag => exact .inr ⟨hflag, .inr ⟨hnil, _, h⟩⟩

/-- An equals sign is no flag, so it stands in a value. -/
theorem ofLetters_of_mem {reader last : Reader} {letters : List Char} (hequals : '=' ∈ letters)
    (hgive : reader.giveShorts letters = .ok last) : Arity.ofWord.ofLetters letters = .noValue := by
  induction letters generalizing reader with
  | nil => rfl
  | cons c rest ih =>
    obtain ⟨flag, hc, hgive⟩ := giveShorts_cons hgive
    have hne : c ≠ '=' := by
      rintro rfl
      cases hc
    have hmem : '=' ∈ rest := (List.mem_cons.mp hequals).resolve_left hne.symm
    obtain ⟨hflag, next, -, hgive⟩ | ⟨hflag, -⟩ := hgive
    · rw [ofLetters_of_noValue hc hflag, ih hmem hgive]
    · rw [ofLetters_of_value hc hflag, if_neg (by simpa using List.ne_nil_of_mem hmem)]

/-- Which inputs a reader has come to, and what value the word before may still get: one that is
needed, one that is optional, or none. -/
inductive Reached : Reader → List Path → Arity → Prop where
  | nothing {settled : Settled} : Reached ⟨settled, .nothing⟩ settled.options.inputs .noValue
  | inputs {settled : Settled} {texts : List String} :
    Reached ⟨settled, .inputs texts⟩ (settled.options.inputs ++ texts.map Path.ofString) .noValue
  | given {settled : Settled} {flag : Flag} {value : String} :
    Reached ⟨settled, .flag flag (some value)⟩ settled.options.inputs .noValue
  | awaiting {settled : Settled} {flag : Flag} (h : flag.arity ≠ .noValue) :
    Reached ⟨settled, .flag flag none⟩ settled.options.inputs flag.arity

namespace Reached

variable {reader next last : Reader} {inputs : List Path} {arity : Arity}

/-- A value that is needed has to be there before anything is settled. -/
theorem settle {settled : Settled} (h : Reached reader inputs arity)
    (hsettle : reader.settle = .ok settled) :
    arity ≠ .required ∧ settled.options.inputs = inputs := by
  cases h with
  | nothing =>
    obtain rfl := Except.ok.inj hsettle
    exact ⟨nofun, rfl⟩
  | inputs => exact ⟨nofun, Settled.inputs_of_addInputs hsettle⟩
  | given => exact ⟨nofun, (Settled.of_addFlag hsettle).1⟩
  | awaiting h =>
    obtain ⟨hinputs, hvalue⟩ := Settled.of_addFlag hsettle
    exact ⟨fun hrequired => hvalue ⟨hrequired, rfl⟩, hinputs⟩

theorem giveFlag {flag : Flag} {value : Option String} (h : Reached reader inputs arity)
    (hgive : reader.giveFlag flag value = .ok next) :
    arity ≠ .required ∧ Reached next inputs .noValue := by
  obtain ⟨settled, hsettle, hgive⟩ := Except.bind_eq_ok.mp hgive
  obtain ⟨settled', hadd, hgive⟩ := Except.bind_eq_ok.mp hgive
  obtain rfl := Except.ok.inj hgive
  obtain ⟨hvalue, rfl⟩ := h.settle hsettle
  rw [← (Settled.of_addFlag hadd).1]
  exact ⟨hvalue, .nothing⟩

theorem awaitValue {flag : Flag} (h : Reached reader inputs arity) (hflag : flag.arity ≠ .noValue)
    (hgive : reader.awaitValue flag = .ok next) :
    arity ≠ .required ∧ Reached next inputs flag.arity := by
  obtain ⟨settled, hsettle, hgive⟩ := Except.bind_eq_ok.mp hgive
  obtain rfl := Except.ok.inj hgive
  obtain ⟨hvalue, rfl⟩ := h.settle hsettle
  exact ⟨hvalue, .awaiting hflag⟩

theorem giveInput {text : String} (h : Reached reader inputs arity)
    (hgive : reader.giveInput text = .ok next) :
    arity ≠ .required ∧ Reached next (inputs ++ [.ofString text]) .noValue := by
  have hbegins {reader : Reader} (h : Reached reader inputs arity)
      (hgive : (do let settled ← reader.settle; return { settled, pending := .inputs [text] } :
        Except UsageError Reader) = .ok next) :
      arity ≠ .required ∧ Reached next (inputs ++ [.ofString text]) .noValue := by
    obtain ⟨settled, hsettle, hgive⟩ := Except.bind_eq_ok.mp hgive
    obtain rfl := Except.ok.inj hgive
    obtain ⟨hvalue, rfl⟩ := h.settle hsettle
    exact ⟨hvalue, .inputs⟩
  cases h with
  | inputs =>
    obtain rfl := Except.ok.inj hgive
    refine ⟨nofun, ?_⟩
    rw [List.append_assoc, ← List.map_singleton, ← List.map_append]
    exact .inputs
  | nothing => exact hbegins .nothing hgive
  | given => exact hbegins .given hgive
  | awaiting hflag => exact hbegins (.awaiting hflag) hgive

theorem givePlain_value {text : String} (h : Reached reader inputs arity)
    (hvalue : arity ≠ .noValue) (hgive : reader.givePlain text = .ok next) :
    Reached next inputs .noValue := by
  cases h with
  | nothing | inputs | given => exact (hvalue rfl).elim
  | awaiting =>
    obtain rfl := Except.ok.inj hgive
    exact .given

theorem givePlain_input {text : String} (h : Reached reader inputs .noValue)
    (hgive : reader.givePlain text = .ok next) : Reached next (inputs ++ [.ofString text]) .noValue := by
  refine (h.giveInput ?_).2
  rw [← hgive]
  generalize hvalue : Arity.noValue = arity at h
  cases h with
  | nothing | inputs | given => rfl
  | awaiting hflag => exact (hflag hvalue.symm).elim

theorem giveLong {name : String} {value : Option String} (h : Reached reader inputs arity)
    (hgive : reader.giveLong name value = .ok next) :
    arity ≠ .required ∧ Reached next inputs (.ofWord (.long name value)) := by
  unfold Reader.giveLong at hgive
  split at hgive
  · cases hgive
  · next flag hname =>
    split at hgive
    · cases hgive
    · next harity =>
      simpa [Arity.ofWord, hname, harity] using h.giveFlag hgive
    · exact h.giveFlag hgive
    · next _ _ harity =>
      simpa [Arity.ofWord, hname] using h.awaitValue harity hgive

/-- Unless there are no letters, the reader is left with what the last of them expects. -/
theorem giveShorts {letters : List Char} (h : Reached reader inputs arity)
    (hgive : reader.giveShorts letters = .ok last) :
    letters = [] ∧ last = reader ∨
      arity ≠ .required ∧ Reached last inputs (Arity.ofWord.ofLetters letters) := by
  induction letters generalizing reader arity with
  | nil => exact .inl ⟨rfl, (Except.ok.inj hgive).symm⟩
  | cons c rest ih =>
    right
    obtain ⟨flag, hc, ⟨hflag, next, hnext, hrest⟩ | ⟨hflag, hvalue⟩⟩ := giveShorts_cons hgive
    · obtain ⟨hvalue, hreached⟩ := h.giveFlag hnext
      rw [ofLetters_of_noValue hc hflag]
      obtain ⟨rfl, rfl⟩ | ⟨-, hreached⟩ := ih hreached hrest
      · exact ⟨hvalue, hreached⟩
      · exact ⟨hvalue, hreached⟩
    · rw [ofLetters_of_value hc hflag]
      obtain ⟨rfl, hawait⟩ | ⟨hrest, value, hgiven⟩ := hvalue
      · exact h.awaitValue hflag hawait
      · rw [if_neg (by simpa using hrest)]
        exact h.giveFlag hgiven

/-- Whatever stands behind a mark is an input, flags and further marks too. -/
theorem giveInputs {texts : List String} (h : Reached reader inputs arity)
    (hgive : texts.foldlM Reader.giveInput reader = .ok last) :
    ∃ arity', (arity = .required → arity' = .required) ∧
      Reached last (inputs ++ texts.map Path.ofString) arity' := by
  induction texts generalizing reader inputs arity with
  | nil =>
    obtain rfl := Except.ok.inj hgive
    rw [List.map_nil, List.append_nil]
    exact ⟨arity, id, h⟩
  | cons text texts ih =>
    rw [List.foldlM_cons] at hgive
    obtain ⟨next, hnext, hgive⟩ := Except.bind_eq_ok.mp hgive
    obtain ⟨hvalue, hreached⟩ := h.giveInput hnext
    obtain ⟨arity', -, hlast⟩ := ih hreached hgive
    rw [List.append_assoc] at hlast
    exact ⟨arity', fun hrequired => (hvalue hrequired).elim, hlast⟩

end Reached

/-! ### The words of a command line -/

theorem foldlM_giveInput {settled : Settled} {texts more : List String} :
    more.foldlM giveInput ⟨settled, .inputs texts⟩ = .ok ⟨settled, .inputs (texts ++ more)⟩ := by
  induction more generalizing texts with
  | nil =>
    rw [List.append_nil]
    rfl
  | cons text more ih =>
    rw [List.foldlM_cons, ← List.singleton_append, ← List.append_assoc]
    exact ih

variable {reader last : Reader} {inputs : List Path} {arity : Arity} {word : String}
  {rest : List String}

theorem giveWords_mark (hgive : reader.giveWords ("--" :: rest) = .ok last) :
    rest.foldlM giveInput reader = .ok last := by
  rwa [giveWords, ofString_mark] at hgive

theorem giveWords_plain (hmark : word ≠ "--") (hflag : ¬ isFlag word)
    (hgive : reader.giveWords (word :: rest) = .ok last) :
    ∃ next, reader.givePlain word = .ok next ∧ next.giveWords rest = .ok last := by
  rw [giveWords, ofString_plain hmark hflag] at hgive
  exact Except.bind_eq_ok.mp hgive

/-- Behind a flag the reader waits for a value just where the look for misplaced inputs expects
one. -/
theorem giveWords_flag (h : Reached reader inputs arity) (hflag : isFlag word = true)
    (hgive : reader.giveWords (word :: rest) = .ok last) :
    arity ≠ .required ∧
      ∃ next, Reached next inputs (arityOf word) ∧ next.giveWords rest = .ok last := by
  obtain ⟨text, hword, hkind⟩ | ⟨c, letters, hword, hkind⟩ := ofString_flag hflag
  · rw [giveWords, hkind] at hgive
    obtain ⟨next, hnext, hgive⟩ := Except.bind_eq_ok.mp hgive
    obtain ⟨hvalue, hreached⟩ := h.giveLong hnext
    refine ⟨hvalue, next, ?_, hgive⟩
    by_cases hequals : '=' ∈ word.toList
    · have htext : '=' ∈ text := by simpa [hword] using hequals
      obtain ⟨value, hsnd⟩ := exists_splitAtEquals_snd htext
      rw [hsnd] at hreached
      rwa [arityOf_of_mem hequals]
    · rwa [arityOf_of_notMem hequals, hkind]
  · rw [giveWords, hkind] at hgive
    obtain ⟨next, hnext, hgive⟩ := Except.bind_eq_ok.mp hgive
    obtain ⟨hnil, -⟩ | ⟨hvalue, hreached⟩ := h.giveShorts hnext
    · cases hnil
    refine ⟨hvalue, next, ?_, hgive⟩
    by_cases hequals : '=' ∈ word.toList
    · rw [ofLetters_of_mem (by simpa [hword] using hequals) hnext] at hreached
      rwa [arityOf_of_mem hequals]
    · rwa [arityOf_of_notMem hequals, hkind]

/-- Behind a flag nothing is an input, if no input is misplaced and no flag lacks its value. -/
theorem inputs_of_flag {first : String} {words : List String} {settled : Settled}
    (h : Reached reader inputs arity) (hlook : misplaced? (some first) arity words = none)
    (hgive : reader.giveWords words = .ok last) (hsettle : last.settle = .ok settled) :
    settled.options.inputs = inputs := by
  induction words generalizing reader arity with
  | nil =>
    obtain rfl := Except.ok.inj hgive
    exact (h.settle hsettle).2
  | cons word rest ih =>
    by_cases hmark : word = "--"
    · subst hmark
      -- The look skips a mark where a value is needed. The reader does not, but then it fails to
      -- settle, so that the flag before has no need.
      obtain ⟨arity', hrequired, hlast⟩ := h.giveInputs (giveWords_mark hgive)
      obtain ⟨hvalue, hinputs⟩ := hlast.settle hsettle
      have hskips : ¬ arity.Skips "--" := by
        rintro (harity | ⟨-, hhead⟩)
        · exact hvalue (hrequired harity)
        · exact hhead rfl
      rw [misplaced?_of_not_skips hskips, misplaced?_mark] at hlook
      cases rest with
      | nil => simpa using hinputs
      | cons input rest => cases hlook
    by_cases hflag : isFlag word = true
    · obtain ⟨harity, next, hnext, hgive⟩ := giveWords_flag h hflag hgive
      rw [misplaced?_of_not_skips (Arity.not_skips_of_isFlag hflag harity), misplaced?_flag hflag]
        at hlook
      exact ih hnext hlook hgive
    · obtain ⟨next, hnext, hgive⟩ := giveWords_plain hmark hflag hgive
      by_cases hskips : arity.Skips word
      · have harity : arity ≠ .noValue := by
          rintro rfl
          simp [Arity.Skips] at hskips
        rw [misplaced?_of_skips hskips] at hlook
        exact ih (h.givePlain_value harity hnext) hlook hgive
      · rw [misplaced?_of_not_skips hskips, misplaced?_plain hmark hflag] at hlook
        cases hlook

theorem inputs_eq {words : List String} {settled : Settled}
    (h : Reached reader inputs .noValue) (hlook : misplaced? none .noValue words = none)
    (hgive : reader.giveWords words = .ok last) (hsettle : last.settle = .ok settled) :
    settled.options.inputs = inputs ++ (leadingInputs words).map Path.ofString := by
  induction words generalizing reader inputs with
  | nil =>
    obtain rfl := Except.ok.inj hgive
    rw [(h.settle hsettle).2, leadingInputs, List.map_nil, List.append_nil]
  | cons word rest ih =>
    rw [leadingInputs]
    by_cases hmark : word = "--"
    · subst hmark
      obtain ⟨arity', -, hlast⟩ := h.giveInputs (giveWords_mark hgive)
      rw [if_pos rfl, (hlast.settle hsettle).2]
    rw [if_neg hmark]
    by_cases hflag : isFlag word = true
    · obtain ⟨-, next, hnext, hgive⟩ := giveWords_flag h hflag hgive
      rw [misplaced?_flag hflag] at hlook
      rw [if_pos hflag, inputs_of_flag hnext hlook hgive hsettle, List.map_nil, List.append_nil]
    · obtain ⟨next, hnext, hgive⟩ := giveWords_plain hmark hflag hgive
      rw [misplaced?_plain hmark hflag] at hlook
      rw [if_neg hflag, ih (h.givePlain_input hnext) hlook hgive, List.append_assoc, List.map_cons,
        List.singleton_append]

end Reader

/-- The inputs of a run are the words that stand before the first flag. -/
theorem inputs_of_run {charset : Charset} {words : List String} {options : Options}
    (h : requestOf charset words = .ok (.run options)) :
    options.inputs = (leadingInputs words).map Path.ofString := by
  unfold requestOf at h
  split at h
  · cases h
  · next hlook =>
    obtain ⟨last, hgive, h⟩ := Except.bind_eq_ok.mp h
    obtain ⟨settled, hsettle, h⟩ := Except.bind_eq_ok.mp h
    split at h
    · cases h
    · obtain rfl := Request.run.inj (Except.ok.inj h)
      exact Reader.inputs_eq .nothing hlook hgive hsettle

/-- The word behind the letters is the output, and the flag behind it is no value. -/
theorem inputs_of_run_letters :
    let words := ["a.js", "-", "-mO", "b.js", "-s", "--drop-semi"]
    let options : Options :=
      { inputs := ["a.js", "-"], output := some "b.js", mangle := true,
        dropSemicolons := true, sourceMap := .auto }
    requestOf .utf8 words = .ok (.run options) ∧
      options.inputs = (leadingInputs words).map Path.ofString := by
  intro words options
  have hlook : misplaced? none .noValue words = none := by
    have hletters : arityOf "-mO" = .required := arityOf_of_notMem (by decide)
    have hmap : arityOf "-s" = .optional := arityOf_of_notMem (by decide)
    rw [misplaced?_plain (by decide) (by decide), Option.elim_none,
      misplaced?_plain (by decide) (by decide), Option.elim_none,
      misplaced?_flag (by decide), hletters, misplaced?_of_skips (.inl rfl),
      misplaced?_flag (by decide), hmap,
      misplaced?_of_not_skips (by simp [Arity.Skips]),
      misplaced?_flag (by decide), misplaced?]
  have hrequest : requestOf .utf8 words = .ok (.run options) := by
    rw [requestOf, hlook]
    decide +kernel
  exact ⟨hrequest, inputs_of_run hrequest⟩

/-- Behind a mark any words are inputs, but for the empty one, which is no path. -/
theorem requestOf_mark {charset : Charset} {words : List String} (h : "" ∉ words) :
    requestOf charset ("--" :: words) = .ok (.run { charset, inputs := words.map Path.ofString }) := by
  have hlook : misplaced? none .noValue ("--" :: words) = none := by
    cases words <;> rfl
  rw [requestOf, hlook]
  cases words with
  | nil => rfl
  | cons word words =>
    have hgive : Reader.giveWords ⟨⟨[], { charset }⟩, .nothing⟩ ("--" :: word :: words) =
        .ok ⟨⟨[], { charset }⟩, .inputs (word :: words)⟩ :=
      @Reader.foldlM_giveInput _ [word] words
    have hsettle : Settled.addInputs ⟨[], { charset }⟩ (word :: words) =
        .ok ⟨[], { charset, inputs := (word :: words).map Path.ofString }⟩ := by
      rw [Settled.addInputs, Settled.mapM_pathOf h]
      rfl
    exact Except.bind_eq_ok.mpr ⟨_, hgive, Except.bind_eq_ok.mpr ⟨_, hsettle, rfl⟩⟩

end EcmaPress
