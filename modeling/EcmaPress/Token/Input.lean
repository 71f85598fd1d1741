import EcmaPress.Token.Extent

/-!
# Reading tokens from a text

An `Input` is the text that is still to be read together with its place in the whole; a `Cursor`
is an input that begins with a known token. Reading a token cuts the text by the lengths that
`Lexeme` answers, and a cursor keeps the proof that its token was read in this way.
-/

namespace EcmaPress

/-- A text that is still to be read, how many characters it has, and where it begins. -/
structure Input where
  chars : List Char
  size : Nat
  pos : Position
  size_eq : size = chars.length

/-- A token stands at the front of a text if it is what is read there: nothing is to be skipped
before it, and it is a lexeme of the text, be it as a token of its own or as a regular
expression. -/
structure Token.StandsAt (token : Token) (text : List Char) : Prop where
  gapless : Lexeme.gap text = .ok 0
  spelled : token.text.toList <+: text
  lexeme : Lexeme.scan text = .ok (token.kind, token.text.length) ∨
    token.kind = .regex ∧ Lexeme.regex text = some token.text.length

/-- An input and the token that it begins with. A cursor remembers the tokens that were read on the
way to it, the last one first. -/
structure Cursor where
  token : Token
  input : Input
  stands : token.StandsAt input.chars
  past : List Token

namespace Input

/-- A whole text. -/
def ofList (text : List Char) : Input :=
  ⟨text, text.length, .start, rfl⟩

/-- The input behind its first `n` characters. -/
def drop (input : Input) (n : Nat) : Input where
  chars := input.chars.drop n
  size := input.size - n
  pos := input.pos.after (input.chars.take n)
  size_eq := by simp [input.size_eq]

/-- The error that lies `n` characters into the input. -/
def errorAt (input : Input) (n : Nat) (fault : Fault) : SyntaxError :=
  ⟨fault, (input.drop n).pos, none⟩

/-- The token that fills the first `n` characters of the input. -/
def tokenOf (input : Input) (kind : TokenKind) (n : Nat) (newlineBefore : Bool) : Token :=
  ⟨kind, String.ofList (input.chars.take n), input.pos, newlineBefore⟩

theorem length_tokenOf {input : Input} {n : Nat} (h : n ≤ input.chars.length)
    (kind : TokenKind) (newlineBefore : Bool) :
    (input.tokenOf kind n newlineBefore).text.length = n := by
  simp [tokenOf, h]

theorem spelled_tokenOf (input : Input) (kind : TokenKind) (n : Nat) (newlineBefore : Bool) :
    (input.tokenOf kind n newlineBefore).text.toList <+: input.chars := by
  simpa [tokenOf] using List.take_prefix n input.chars

/-- Skips the gap at the front of the input, which lies behind the tokens `past`, and reads the
token behind it. -/
def next (input : Input) (past : List Token := []) : Except SyntaxError Cursor :=
  match gapRead : Lexeme.gap input.chars with
  | .error n => .error (input.errorAt n .unterminatedComment)
  | .ok n =>
    let behind := input.drop n
    match tokenRead : Lexeme.scan behind.chars with
    | .error (fault, m) => .error (behind.errorAt m fault)
    | .ok (kind, m) =>
      .ok
        { token := behind.tokenOf kind m ((input.chars.take n).any isLineTerminator)
          input := behind
          stands :=
            { gapless := (Lexeme.gap_drop gapRead).2
              spelled := behind.spelled_tokenOf ..
              lexeme := .inl (by rw [length_tokenOf (Lexeme.scan_le tokenRead)]; exact tokenRead) }
          past }

end Input

namespace Cursor

/-- The cursor at the next token. -/
def next (c : Cursor) : Except SyntaxError Cursor :=
  (c.input.drop c.token.text.length).next (c.token :: c.past)

/-- Reads the token at the cursor once more, as a regular expression. -/
def asRegex (c : Cursor) : Except SyntaxError Cursor :=
  match regexRead : Lexeme.regex c.input.chars with
  | none => .error (c.input.errorAt 0 .unterminatedRegex)
  | some n =>
    .ok
      { token := c.input.tokenOf .regex n c.token.newlineBefore
        input := c.input
        stands :=
          { gapless := c.stands.gapless
            spelled := c.input.spelled_tokenOf ..
            lexeme := .inr ⟨rfl, by
              rw [Input.length_tokenOf (Lexeme.regex_le regexRead)]; exact regexRead⟩ }
        past := c.past }

end Cursor
end EcmaPress
