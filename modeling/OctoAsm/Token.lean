/-
  Tokens: the words of a source text with their meaning, each with the line it stands on.

  The words of a closed vocabulary are kept as tables from spelling to meaning, so that the spelling
  of every keyword, directive and operator is written down once.
-/

namespace OctoAsm

/-! ## Vocabulary -/

/-- Words that begin or structure statements. -/
inductive Keyword where
  /-- `return` or `;` -/
  | ret
  | clear | bcd | save | load | sprite | jump | jump0
  | ifWord | thenWord | beginWord | elseWord | endWord
  | loop | again | whileWord
  | key
  /-- `-key` -/
  | notKey
  | random | hex
deriving DecidableEq, Repr

/-- The keywords by spelling. -/
def Keyword.spellings : List (String × Keyword) :=
  [("return", .ret), (";", .ret), ("clear", .clear), ("bcd", .bcd), ("save", .save),
   ("load", .load), ("sprite", .sprite), ("jump", .jump), ("jump0", .jump0), ("if", .ifWord),
   ("then", .thenWord), ("begin", .beginWord), ("else", .elseWord), ("end", .endWord),
   ("loop", .loop), ("again", .again), ("while", .whileWord), ("key", .key), ("-key", .notKey),
   ("random", .random), ("hex", .hex)]

/-- Words that begin with a colon. -/
inductive Directive where
  /-- `:` -/
  | label
  | aliasName | call | const | unpack | next | org | macroDef | calcName | byte | pointer
  | stringMode | assertion | breakpoint | monitor
deriving DecidableEq, Repr

/-- The directives by spelling. -/
def Directive.spellings : List (String × Directive) :=
  [(":", .label), (":alias", .aliasName), (":call", .call), (":const", .const),
   (":unpack", .unpack), (":next", .next), (":org", .org), (":macro", .macroDef),
   (":calc", .calcName), (":byte", .byte), (":pointer", .pointer), (":stringmode", .stringMode),
   (":assert", .assertion), (":breakpoint", .breakpoint), (":monitor", .monitor)]

/-- Operators of assignments, comparisons and calc expressions. -/
inductive Operator where
  | assign | addAssign | subAssign
  /-- `=-` -/
  | revSubAssign
  | orAssign | andAssign | xorAssign | shrAssign | shlAssign
  | eq | ne | lt | gt | le | ge
  | plus | minus | star | slash | percent | amp | pipe | caret | shl | shr | tilde | bang
  /-- `@` -/
  | address
  | pow | min | max | sin | cos | tan | exp | log | abs | sqrt | sign | ceil | floor | strlen
deriving DecidableEq, Repr

/-- The operators made of signs, by spelling. -/
def Operator.symbols : List (String × Operator) :=
  [(":=", .assign), ("+=", .addAssign), ("-=", .subAssign), ("=-", .revSubAssign),
   ("|=", .orAssign), ("&=", .andAssign), ("^=", .xorAssign), (">>=", .shrAssign),
   ("<<=", .shlAssign), ("==", .eq), ("!=", .ne), ("<", .lt), (">", .gt), ("<=", .le),
   (">=", .ge), ("+", .plus), ("-", .minus), ("*", .star), ("/", .slash), ("%", .percent),
   ("&", .amp), ("|", .pipe), ("^", .caret), ("<<", .shl), (">>", .shr), ("~", .tilde),
   ("!", .bang), ("@", .address)]

/-- The operators made of letters, by spelling. -/
def Operator.words : List (String × Operator) :=
  [("pow", .pow), ("min", .min), ("max", .max), ("sin", .sin), ("cos", .cos), ("tan", .tan),
   ("exp", .exp), ("log", .log), ("abs", .abs), ("sqrt", .sqrt), ("sign", .sign),
   ("ceil", .ceil), ("floor", .floor), ("strlen", .strlen)]

/-- An operator that may stand after the target of an assignment. -/
def Operator.isAssignment : Operator → Bool
  | .assign | .addAssign | .subAssign | .revSubAssign | .orAssign | .andAssign | .xorAssign
  | .shrAssign | .shlAssign => true
  | _ => false

/-- Registers as written. -/
inductive Register where
  | v (index : Fin 16)
  | i
  | delay
  | buzzer
deriving DecidableEq, Repr

/-- Reserved names whose meaning depends on where they stand. -/
inductive Constant where
  /-- the number of the current invocation of the enclosing macro, from 1 -/
  | calls
  /-- code point of the current stringmode character -/
  | char
  /-- position of the current stringmode character in its string -/
  | index
  /-- position of the current stringmode character in its alphabet -/
  | value
  /-- keypad value of a keyboard key -/
  | key (value : Nat)
deriving DecidableEq, Repr

/-- The reserved names by spelling. -/
def Constant.spellings : List (String × Constant) :=
  [("CALLS", .calls), ("CHAR", .char), ("INDEX", .index), ("VALUE", .value),
   ("KEY_1", .key 0x1), ("KEY_2", .key 0x2), ("KEY_3", .key 0x3), ("KEY_4", .key 0xC),
   ("KEY_Q", .key 0x4), ("KEY_W", .key 0x5), ("KEY_E", .key 0x6), ("KEY_R", .key 0xD),
   ("KEY_A", .key 0x7), ("KEY_S", .key 0x8), ("KEY_D", .key 0x9), ("KEY_F", .key 0xE),
   ("KEY_Z", .key 0xA), ("KEY_X", .key 0x0), ("KEY_C", .key 0xB), ("KEY_V", .key 0xF)]

/-! ## Tokens -/

/-- What a token is. -/
inductive TokenKind where
  | newline
  | keyword (word : Keyword)
  | number (value : Int)
  | name
  | directive (word : Directive)
  | operator (op : Operator)
  | register (reg : Register)
  | constant (const : Constant)
  | openBrace | closeBrace | openParen | closeParen
  | string
deriving DecidableEq, Repr

/-- A token: its line, what it is, and its text (of a string, the part between the quotes). -/
structure Token where
  /-- the line it stands on; sources are assumed to have fewer than `2 ^ 32` lines -/
  line : Nat
  kind : TokenKind
  text : String
deriving DecidableEq, Repr

/-- The token as a diagnostic shows it. -/
def Token.describe (t : Token) : String :=
  match t.kind with
  | .newline => "end of line"
  | .string => "\"" ++ t.text ++ "\""
  | _ => t.text

/-- The class a token belongs to, as a diagnostic words it. -/
def TokenKind.category : TokenKind → String
  | .newline => "end of line"
  | .keyword _ => "a keyword"
  | .number _ => "a number"
  | .name => "a name"
  | .directive _ => "a directive"
  | .operator _ => "an operator"
  | .register (.v _) => "a register"
  | .register _ => "a special register"
  | .constant _ => "a reserved constant"
  | .string => "a string"
  | .openBrace | .closeBrace | .openParen | .closeParen => "punctuation"

end OctoAsm
