import Formulary.Text

/-!
Tokens of a formula. Parentheses and commas are tokens of their own, wherever they stand; every
other token is a maximal run of characters that are neither blank nor punctuation.
-/

namespace Formulary

open Text (isBlank)

inductive TokenKind
  | openParen
  | closeParen
  | comma
  | word
deriving DecidableEq, Repr

def TokenKind.ofChar (c : Char) : TokenKind :=
  if c = '(' then .openParen else if c = ')' then .closeParen else if c = ',' then .comma else .word

/-- The number of bytes that characters take in UTF-8. -/
def byteLength : List Char → Nat
  | [] => 0
  | c :: cs => c.utf8Size + byteLength cs

/-- A token with the byte offset at which it starts. -/
structure Token where
  kind : TokenKind
  spelling : List Char
  start : Nat
deriving DecidableEq, Repr

namespace Token

def text (t : Token) : String := String.ofList t.spelling

/-- The byte offset just past a token. -/
def stop (t : Token) : Nat := t.start + byteLength t.spelling

def ofChar (c : Char) (offset : Nat) : Token := ⟨.ofChar c, [c], offset⟩

/-- Puts a character in front of some tokens: it joins a word that starts right behind it, if it
can be part of a word itself. -/
def prepend (c : Char) (offset : Nat) : List Token → List Token
  | [] => [ofChar c offset]
  | t :: rest =>
    if TokenKind.ofChar c = .word ∧ t.kind = .word ∧ t.start = offset + c.utf8Size then
      ⟨.word, c :: t.spelling, offset⟩ :: rest
    else
      ofChar c offset :: t :: rest

/-- The tokens of a text that starts at a byte offset. -/
def scan (offset : Nat) : List Char → List Token
  | [] => []
  | c :: cs =>
    let rest := scan (offset + c.utf8Size) cs
    if isBlank c then rest else prepend c offset rest

end Token

def tokensOf (text : String) : List Token := Token.scan 0 text.toList

/-- The texts of the tokens, in order. -/
def tokenize (text : String) : List String := (tokensOf text).map Token.text

end Formulary
