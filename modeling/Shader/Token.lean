import Shader.DataType
import Shader.Operator
import Shader.Position

/-!
# Tokens

A token is the class of a piece of source text. Operators are classed by what they do, so that the
grammar needs no table from tokens to operators; the signs `+`, `-` and `*` stand for operators
between two operands, and the grammar reads the first two in front of an operand as well.
-/

namespace Shader

/-- The kinds of numbers a text can spell. -/
inductive NumberKind where
  /-- digits alone -/
  | int
  /-- digits with the suffix `u` -/
  | uint
  /-- a fraction or an exponent with the suffix `f` -/
  | float
  /-- a fraction or an exponent -/
  | double
  deriving DecidableEq, Repr

namespace NumberKind

/-- All kinds of numbers, in the order of their numbers. -/
def all : List NumberKind := [int, uint, float, double]

/-- The type of a number of this kind. -/
def type : NumberKind → ScalarType
  | int => .int
  | uint => .uint
  | float => .float
  | double => .double

/-- The name of the kind. -/
def name (k : NumberKind) : String := k.type.name

end NumberKind

/-- The reserved words. -/
inductive Keyword where
  /-- a layout key -/
  | binding
  /-- leaves a loop -/
  | break
  /-- qualifies a declaration -/
  | const
  /-- ends a round of a loop -/
  | continue
  /-- opens a loop that tests last -/
  | do
  /-- opens an alternative -/
  | else
  /-- a truth value -/
  | false
  /-- opens a counting loop -/
  | for
  /-- opens a choice -/
  | if
  /-- qualifies an input -/
  | in
  /-- opens a layout -/
  | layout
  /-- a layout key -/
  | location
  /-- qualifies an output -/
  | out
  /-- leaves a function -/
  | return
  /-- a truth value -/
  | true
  /-- qualifies a uniform -/
  | uniform
  /-- opens a loop -/
  | while
  deriving DecidableEq, Repr

namespace Keyword

/-- All reserved words, in the order of their numbers. -/
def all : List Keyword :=
  [binding, .break, const, .continue, .do, .else, .false, .for, .if, .in, layout, location, out,
    .return, .true, uniform, .while]

/-- The word. -/
def text : Keyword → String
  | .binding => "binding"
  | .break => "break"
  | .const => "const"
  | .continue => "continue"
  | .do => "do"
  | .else => "else"
  | .false => "false"
  | .for => "for"
  | .if => "if"
  | .in => "in"
  | .layout => "layout"
  | .location => "location"
  | .out => "out"
  | .return => "return"
  | .true => "true"
  | .uniform => "uniform"
  | .while => "while"

end Keyword

/-- Brackets and separators. -/
inductive Delimiter where
  /-- `(` -/
  | lparen
  /-- `)` -/
  | rparen
  /-- `[` -/
  | lbrack
  /-- `]` -/
  | rbrack
  /-- an opening brace -/
  | lbrace
  /-- a closing brace -/
  | rbrace
  /-- `,` -/
  | comma
  /-- `;` -/
  | semi
  /-- `.` -/
  | dot
  deriving DecidableEq, Repr

namespace Delimiter

/-- All delimiters, in the order of their numbers. -/
def all : List Delimiter := [lparen, rparen, lbrack, rbrack, lbrace, rbrace, comma, semi, dot]

/-- The character of the delimiter. -/
def sign : Delimiter → Char
  | lparen => '('
  | rparen => ')'
  | lbrack => '['
  | rbrack => ']'
  | lbrace => '\x7b'
  | rbrace => '\x7d'
  | comma => ','
  | semi => ';'
  | dot => '.'

/-- The delimiter of a character. -/
def ofChar? (c : Char) : Option Delimiter := all.find? fun d => d.sign = c

end Delimiter

/-- The classes of source text. -/
inductive Token where
  /-- the end of the text -/
  | eof
  /-- a piece of text that is no token -/
  | error
  /-- a name -/
  | name
  /-- the name of a type -/
  | typeName (t : DataType)
  /-- a number -/
  | number (k : NumberKind)
  /-- the directive that opens a version line -/
  | version
  /-- an assignment, which may first apply an operator -/
  | assign (op : Option ArithOp)
  /-- `?` -/
  | question
  /-- `:` -/
  | colon
  /-- an operator between two operands -/
  | binary (op : BinaryOp)
  /-- a step of a variable -/
  | step (s : Step)
  /-- `!` -/
  | not
  /-- `~` -/
  | tilde
  /-- a bracket or separator -/
  | delim (d : Delimiter)
  /-- a reserved word -/
  | keyword (k : Keyword)
  deriving DecidableEq, Repr

namespace Token

/-- The text of a token, or the name of its class if its text varies. -/
def text : Token → String
  | eof => "EOF"
  | error => "ERROR"
  | name => "NAME"
  | typeName _ => "TYPE"
  | number _ => "NUMBER"
  | version => "#version"
  | assign op => assignSign op
  | question => "?"
  | colon => ":"
  | binary op => op.sign
  | step s => s.sign
  | not => "!"
  | tilde => "~"
  | delim d => String.ofList [d.sign]
  | keyword k => k.text

/-- Reserved words. -/
def isKeyword : Token → Bool
  | keyword _ => true
  | _ => false

/-- Operators, the two signs of a conditional among them. -/
def isOperator : Token → Bool
  | assign _ | question | colon | binary _ | step _ | not | tilde => true
  | _ => false

/-- The end of the text. -/
def isEof : Token → Bool
  | eof => true
  | _ => false

/-- One token of every class, in the order of their numbers. -/
def all : List Token :=
  [eof, error, name, typeName .void, number .int, version, assign none] ++
    Operator.compoundOps.map (fun op => assign (some op)) ++ [question, colon] ++
    Operator.binaryOps.map binary ++ [step .inc, step .dec, not, tilde] ++
    Delimiter.all.map delim ++ Keyword.all.map keyword

/-- The token of a word: a reserved word, the name of a type, or a name. -/
def ofWord (word : String) : Token :=
  match Keyword.all.find? fun k => k.text = word with
  | some k => keyword k
  | none =>
    match DataType.ofName? word with
    | some t => typeName t
    | none => name

end Token

/-- A token at its place in the text. -/
structure Item where
  /-- the class of the text -/
  token : Token
  /-- the text -/
  text : String
  /-- where it starts -/
  pos : Pos
  deriving DecidableEq, Repr

/-- A message about a place in the text. -/
structure Report where
  /-- the place -/
  pos : Pos
  /-- what is wrong there -/
  message : String
  deriving DecidableEq, Repr

/-- The message behind its place. -/
def Report.text (r : Report) : String := r.pos.locate r.message

end Shader
