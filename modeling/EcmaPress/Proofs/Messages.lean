import EcmaPress.Run.Failure
import Mathlib.Data.List.Basic

/-!
# Messages of failures

What the message of a failure is made of: fixed words, numbers and names of character sets, none of
which has a line feed, and texts that it quotes from the sources, the command line or the system. So
a message has a line feed just if a text that it quotes has one.
-/

namespace EcmaPress

/-! ### Words without line feeds -/

/-- A fixed text is checked character by character, without the bytes that it is stored in. -/
theorem notMem_toList_ofList {c : Char} {cs : List Char} (h : c ∉ cs) :
    c ∉ (String.ofList cs).toList := by
  rwa [String.toList_ofList]

theorem lineFeed_notMem_digits (n : Nat) : '\n' ∉ Nat.toDigits 10 n := by
  intro hmem
  have hdigit := Nat.isDigit_of_mem_toDigits (by decide) (by decide) hmem
  exact absurd hdigit (by decide)

theorem digitChar_ne_lineFeed (n : Nat) : Nat.digitChar n ≠ '\n' := by
  by_cases hlt : n < 16
  · have hall : ∀ n < 16, Nat.digitChar n ≠ '\n' := by decide
    exact hall n hlt
  · have hstar : Nat.digitChar n = '*' := by
      unfold Nat.digitChar
      repeat rw [if_neg (by omega)]
    rw [hstar]
    decide

theorem lineFeed_notMem_hexDigits (n : Nat) : '\n' ∉ Nat.toDigits 16 n := by
  induction n using Nat.strongRecOn with
  | ind n ih =>
    rw [Nat.toDigits_eq_if (by decide)]
    split
    · intro hmem
      exact digitChar_ne_lineFeed n (List.mem_singleton.mp hmem).symm
    · intro hmem
      rcases List.mem_append.mp hmem with hmem | hmem
      · exact ih (n / 16) (by omega) hmem
      · exact digitChar_ne_lineFeed _ (List.mem_singleton.mp hmem).symm

theorem lineFeed_notMem_paddedHex (width n : Nat) : '\n' ∉ (paddedHex width n).toList := by
  simp [paddedHex, lineFeed_notMem_hexDigits]

theorem lineFeed_notMem_name (charset : Charset) : '\n' ∉ charset.name.toList := by
  cases charset with
  | legacy set =>
    cases set with
    | singleByte set => cases set <;> simp [Charset.name, LegacyCharset.name, SingleByte.name]
    | _ => simp [Charset.name, LegacyCharset.name]
  | _ => simp [Charset.name]

theorem CodingFault.lineFeed_notMem_message (fault : CodingFault) : '\n' ∉ fault.message.toList := by
  cases fault with
  | ordinal limit =>
    dsimp only [message]
    simp [toString, lineFeed_notMem_digits]
  | _ =>
    dsimp only [message]
    simp

theorem Misread.lineFeed_notMem_span (fault : Misread) : '\n' ∉ fault.span.toList := by
  unfold span
  split
  · simp [toString, lineFeed_notMem_digits, lineFeed_notMem_paddedHex]
  · simp [toString, lineFeed_notMem_digits]

theorem Unwritten.lineFeed_notMem_span (fault : Unwritten) : '\n' ∉ fault.span.toList := by
  have hshown : '\n' ∉ (span.shown fault.first).toList := by
    unfold span.shown
    split
    · simp [lineFeed_notMem_paddedHex]
    · split <;> simp [lineFeed_notMem_paddedHex]
  unfold span
  split
  · simp [toString, lineFeed_notMem_digits, hshown]
  · simp [toString, lineFeed_notMem_digits]

theorem lineFeed_notMem_systemErrorTexts :
    ∀ entry ∈ systemErrorTexts, '\n' ∉ entry.2.toList := by
  repeat' refine List.forall_mem_cons.mpr ⟨notMem_toList_ofList (by decide), ?_⟩
  exact fun _ hentry => absurd hentry List.not_mem_nil

theorem lineFeed_notMem_systemErrorText (number : Nat) : '\n' ∉ (systemErrorText number).toList := by
  unfold systemErrorText
  split
  · simp
  · cases hlookup : systemErrorTexts.lookup number with
    | none => simp [toString, lineFeed_notMem_digits]
    | some text =>
      obtain ⟨before, after, hsplit, -⟩ := List.lookup_eq_some_iff.mp hlookup
      exact lineFeed_notMem_systemErrorTexts (number, text) (by simp [hsplit])

/-! ### Quoted texts -/

/-- The texts that a fault quotes. -/
def Fault.quotes : Fault → List String
  | .illegalCharacter c => [String.singleton c]
  | .unexpectedToken text => [text]
  | _ => []

/-- The texts that the message of an error in a source quotes. -/
def SyntaxError.quotes (error : SyntaxError) : List String :=
  error.fault.quotes ++ error.source.toList

/-- The texts that the message of an error of a stream quotes. -/
def StreamError.quotes : StreamError → List String
  | .system _ => []
  | .other text => [text]

/-- The texts that the message of a failure quotes. -/
def Failure.quotes : Failure → List String
  | .source error => error.quotes
  | .decode _ | .encode _ | .interrupted => []
  | .file path error => path.text :: error.quotes
  | .stream error => error.quotes

theorem Fault.lineFeed_mem_message (fault : Fault) :
    '\n' ∈ fault.message.toList ↔ ∃ quote ∈ fault.quotes, '\n' ∈ quote.toList := by
  cases fault with
  | illegalCharacter | unexpectedToken =>
    dsimp only [message, quotes]
    simp [toString]
  | _ =>
    dsimp only [message, quotes]
    simp

theorem SyntaxError.lineFeed_mem_message (error : SyntaxError) :
    '\n' ∈ error.message.toList ↔ ∃ quote ∈ error.quotes, '\n' ∈ quote.toList := by
  obtain ⟨fault, pos, source⟩ := error
  cases source with
  | none => simp [message, quotes, toString, lineFeed_notMem_digits, fault.lineFeed_mem_message]
  | some name =>
    simp [message, quotes, toString, lineFeed_notMem_digits, fault.lineFeed_mem_message, or_and_right,
      exists_or]

theorem StreamError.lineFeed_mem_message (error : StreamError) :
    '\n' ∈ error.message.toList ↔ ∃ quote ∈ error.quotes, '\n' ∈ quote.toList := by
  cases error with
  | system number =>
    simp [message, quotes, toString, lineFeed_notMem_digits, lineFeed_notMem_systemErrorText]
  | other text => simp [message, quotes]

/-- A message has a line feed just if a text that it quotes has one. -/
theorem Failure.lineFeed_mem_message (failure : Failure) :
    '\n' ∈ failure.message.toList ↔ ∃ quote ∈ failure.quotes, '\n' ∈ quote.toList := by
  cases failure with
  | source error => exact error.lineFeed_mem_message
  | stream error => exact error.lineFeed_mem_message
  | file path error => simp [message, quotes, toString, error.lineFeed_mem_message]
  | decode error =>
    simp [message, quotes, toString, DecodeError.message, lineFeed_notMem_name,
      Misread.lineFeed_notMem_span, CodingFault.lineFeed_notMem_message]
  | encode error =>
    simp [message, quotes, toString, EncodeError.message, lineFeed_notMem_name,
      Unwritten.lineFeed_notMem_span, CodingFault.lineFeed_notMem_message]
  | interrupted => simp [message, quotes]

end EcmaPress
