import Lox.Number.Shortest
import Lox.Text.Quoted

/-!
# Tokens

The kinds of tokens, the reserved words, and tokens: a kind, the bytes it was read from, the value of
a number or string literal, and the line where it ends.
-/

namespace Lox

/-- A kind of token. -/
inductive Kind where
  | leftParen | rightParen | leftBrace | rightBrace
  | comma | dot | minus | plus | semicolon | slash | star | question | colon
  | bang | bangEqual | equal | equalEqual | greater | greaterEqual | less | lessEqual
  | identifier | string | number
  | andWord | classWord | elseWord | falseWord | funWord | forWord | ifWord | nilWord | orWord
  | printWord | returnWord | superWord | thisWord | trueWord | varWord | whileWord
  | endOfFile
  deriving DecidableEq, Repr, Inhabited

namespace Kind

/-- All kinds, in the order of their numbers. -/
def all : List Kind :=
  [.leftParen, .rightParen, .leftBrace, .rightBrace,
   .comma, .dot, .minus, .plus, .semicolon, .slash, .star, .question, .colon,
   .bang, .bangEqual, .equal, .equalEqual, .greater, .greaterEqual, .less, .lessEqual,
   .identifier, .string, .number,
   .andWord, .classWord, .elseWord, .falseWord, .funWord, .forWord, .ifWord, .nilWord, .orWord,
   .printWord, .returnWord, .superWord, .thisWord, .trueWord, .varWord, .whileWord,
   .endOfFile]

def name : Kind → String
  | .leftParen => "LEFT_PAREN"
  | .rightParen => "RIGHT_PAREN"
  | .leftBrace => "LEFT_BRACE"
  | .rightBrace => "RIGHT_BRACE"
  | .comma => "COMMA"
  | .dot => "DOT"
  | .minus => "MINUS"
  | .plus => "PLUS"
  | .semicolon => "SEMICOLON"
  | .slash => "SLASH"
  | .star => "STAR"
  | .question => "QUESTION"
  | .colon => "COLON"
  | .bang => "BANG"
  | .bangEqual => "BANG_EQUAL"
  | .equal => "EQUAL"
  | .equalEqual => "EQUAL_EQUAL"
  | .greater => "GREATER"
  | .greaterEqual => "GREATER_EQUAL"
  | .less => "LESS"
  | .lessEqual => "LESS_EQUAL"
  | .identifier => "IDENTIFIER"
  | .string => "STRING"
  | .number => "NUMBER"
  | .andWord => "AND"
  | .classWord => "CLASS"
  | .elseWord => "ELSE"
  | .falseWord => "FALSE"
  | .funWord => "FUN"
  | .forWord => "FOR"
  | .ifWord => "IF"
  | .nilWord => "NIL"
  | .orWord => "OR"
  | .printWord => "PRINT"
  | .returnWord => "RETURN"
  | .superWord => "SUPER"
  | .thisWord => "THIS"
  | .trueWord => "TRUE"
  | .varWord => "VAR"
  | .whileWord => "WHILE"
  | .endOfFile => "END_OF_FILE"

/-- The kind with a number, counted from zero. -/
def ofNat? (n : Nat) : Option Kind := all[n]?

def ofName? (s : String) : Option Kind := all.find? (·.name == s)

/-- The name of the kind with a number; a number past the last kind is named by itself. -/
def nameOfNat (n : Nat) : String :=
  match ofNat? n with
  | some k => k.name
  | none => s!"TokenKind({n})"

/-- The reserved words, which are never identifiers. -/
def reserved : List (Text × Kind) :=
  [(text "and", .andWord), (text "class", .classWord), (text "else", .elseWord),
   (text "false", .falseWord), (text "for", .forWord), (text "fun", .funWord),
   (text "if", .ifWord), (text "nil", .nilWord), (text "or", .orWord),
   (text "print", .printWord), (text "return", .returnWord), (text "super", .superWord),
   (text "this", .thisWord), (text "true", .trueWord), (text "var", .varWord),
   (text "while", .whileWord)]

/-- The kind of a word: reserved, or an identifier. -/
def ofWord (word : Text) : Kind := (reserved.lookup word).getD .identifier

end Kind

/-- A constant written in a source. -/
inductive Literal where
  | nil
  | bool (b : Bool)
  | number (x : Number)
  | string (s : Text)
  deriving DecidableEq, Repr

def Literal.toText : Literal → Text
  | .nil => text "nil"
  | .bool true => text "true"
  | .bool false => text "false"
  | .number x => x.toText
  | .string s => s

/-- A token. -/
structure Token where
  kind : Kind
  lexeme : Text
  /-- The value of a number or string; other tokens have none. -/
  literal : Option Literal := none
  line : Nat
  deriving DecidableEq, Repr

/-- A token in words: its kind, its quoted lexeme and, if it has one, its literal. -/
def Token.describe (t : Token) : Text :=
  text t.kind.name ++ 32 :: t.lexeme.quoted ++
    match t.literal with
    | some l => 32 :: l.toText
    | none => []

end Lox
