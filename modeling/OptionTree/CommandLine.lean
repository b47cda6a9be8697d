import OptionTree.Definition

/-!
# The command line

Two commands are understood: `eval` prints the value of an expression under definitions, `tokens`
prints its tokens.  An option takes its value from the same argument or from the next one, which
must not look like an option then; after `--` nothing looks like an option.
-/

namespace OptionTree
namespace CommandLine

/-- What a command line asks for. -/
inductive Command where
  /-- The value of an expression. -/
  | evaluate (expression : String) (definitions : List Definition) (mode : Mode)
  /-- The tokens of an expression. -/
  | tokens (expression : String)
  deriving DecidableEq, Repr

/-- What a command line leads to. -/
structure Response where
  /-- The exit code: success, a failed command or bad usage. -/
  exit : Nat
  /-- What is printed. -/
  output : String := ""
  /-- What is reported. -/
  report : String := ""
  deriving DecidableEq, Repr

/-- What arguments have stated so far. -/
structure Draft where
  /-- The expression. -/
  expression : Option String := none
  /-- The definitions, in order. -/
  definitions : List Definition := []
  /-- How texts count. -/
  mode : Option Mode := none

/-- The options of a command. -/
inductive Flag where
  /-- `-D` or `--define`, a definition. -/
  | define
  /-- `--mode`, how texts count. -/
  | mode
  deriving DecidableEq, Repr

/-- A recognized argument. -/
inductive Argument where
  /-- An option whose value is in the next argument. -/
  | flag (flag : Flag)
  /-- An option with its value. -/
  | setting (flag : Flag) (value : String)
  /-- The mark after which nothing looks like an option. -/
  | separator
  /-- Anything that does not look like an option. -/
  | plain (text : String)
  /-- An option that is not known. -/
  | unknown
  deriving DecidableEq, Repr

/-- The option with a long name. -/
def Flag.ofName? : String → Option Flag
  | "define" => some define
  | "mode" => some mode
  | _ => none

/-- Recognizes what follows two dashes: the name of an option, perhaps with its value. -/
def recognizeLong (name : List Char) : Argument :=
  match Text.cut? '=' name with
  | none => ((Flag.ofName? (String.ofList name)).map Argument.flag).getD .unknown
  | some (word, value) =>
    ((Flag.ofName? (String.ofList word)).map (Argument.setting · (String.ofList value))).getD
      .unknown

/-- Recognizes an argument of the command `eval`. -/
def recognize (argument : String) : Argument :=
  match argument.toList with
  | ['-', '-'] => .separator
  | '-' :: '-' :: name => recognizeLong name
  | ['-', 'D'] => .flag .define
  | '-' :: 'D' :: '=' :: value => .setting .define (String.ofList value)
  | '-' :: 'D' :: value => .setting .define (String.ofList value)
  | '-' :: _ :: _ => .unknown
  | _ => .plain argument

/-- The mode that a word names. -/
def modeOf? : String → Option Mode
  | "truth" => some .truth
  | "preserve" => some .preserve
  | _ => none

namespace Draft

/-- States the expression, which may be stated only once. -/
def addExpression (draft : Draft) (text : String) : Option Draft :=
  match draft.expression with
  | none => some { draft with expression := some text }
  | some _ => none

/-- States an option; the mode may be stated only once. -/
def addSetting (draft : Draft) (value : String) : Flag → Option Draft
  | .define =>
    match Definition.parse value with
    | .ok definition => some { draft with definitions := draft.definitions ++ [definition] }
    | .error _ => none
  | .mode =>
    match draft.mode, modeOf? value with
    | none, some mode => some { draft with mode := some mode }
    | _, _ => none

/-- States the arguments of the command `eval`. -/
def addArguments (draft : Draft) : List String → Option Draft
  | [] => some draft
  | argument :: rest =>
    match recognize argument with
    | .plain text => (draft.addExpression text).bind (addArguments · rest)
    | .setting flag value => (draft.addSetting value flag).bind (addArguments · rest)
    | .separator => rest.foldlM addExpression draft
    | .unknown => none
    | .flag flag =>
      match rest with
      | [] => none
      | next :: later =>
        match recognize next with
        | .plain value => (draft.addSetting value flag).bind (addArguments · later)
        | _ => none

end Draft

/-- The arguments that stand for expressions where no option is known. -/
def plainArguments : List String → Option (List String)
  | [] => some []
  | argument :: rest =>
    match recognize argument with
    | .plain text => (plainArguments rest).map (text :: ·)
    | .separator => some rest
    | _ => none

/-- The command that arguments ask for. -/
def parse : List String → Option Command
  | "eval" :: arguments =>
    (Draft.addArguments {} arguments).bind fun draft =>
      draft.expression.map fun expression =>
        .evaluate expression draft.definitions (draft.mode.getD .truth)
  | "tokens" :: arguments =>
    match plainArguments arguments with
    | some [expression] => some (.tokens expression)
    | _ => none
  | _ => none

/-- The name of a token in listings. -/
def tokenName : Token → String
  | .symbol _ => "Symbol"
  | .quoted _ => "String"
  | .operator .negation => "Not"
  | .operator (.binary .equal) => "Equals"
  | .operator (.binary .unequal) => "NotEquals"
  | .operator (.binary .conjunction) => "And"
  | .operator (.binary .disjunction) => "Or"
  | .opening => "OpenParenthesis"
  | .closing => "CloseParenthesis"
  | .faulty _ => "Error"
  | .endOfInput => "EndOfInput"

/-- One line for each token of an expression, or the first fault in it. -/
def describeTokens (expression : String) : Except Error (List String) :=
  (Token.tokenize expression).mapM fun token =>
    match token.error? with
    | some cause => .error (.untokenizable expression cause)
    | none => .ok (tokenName token ++ " " ++ token.text)

/-- A value as a command prints it. -/
def render : Mode → Value → String
  | .truth, .number n => String.singleton (Tristate.ofNumber n).letter
  | _, value => value.display

/-- A text with every line but the first moved to the right. -/
def indented (text : String) : String :=
  String.ofList (text.toList.flatMap fun c => if c = '\n' then "\n    ".toList else [c])

/-- How a command reports an error. -/
def errorReport (error : Error) : String :=
  match error.chain with
  | [] => "Error: \n"
  | [outermost] => "Error: " ++ outermost ++ "\n"
  | outermost :: causes =>
    "Error: " ++ outermost ++ "\n\nCaused by:\n" ++
      String.join (causes.map fun cause => "    " ++ indented cause ++ "\n")

/-- Runs a command. -/
def execute (command : Command) : Response :=
  let printed : Except Error (List String) :=
    match command with
    | .evaluate expression definitions mode =>
      (Definition.evaluate definitions mode expression).map fun value => [render mode value]
    | .tokens expression => describeTokens expression
  match printed with
  | .ok lines => { exit := 0, output := String.join (lines.map (· ++ "\n")) }
  | .error error => { exit := 1, report := errorReport error }

/-- How the commands are used. -/
def usage : String :=
  "usage: eval EXPRESSION [-D|--define NAME[:TYPE]=VALUE]... [--mode truth|preserve]\n" ++
    "       tokens EXPRESSION\n"

/-- Runs the command that arguments ask for. -/
def run (arguments : List String) : Response :=
  match parse arguments with
  | some command => execute command
  | none => { exit := 2, report := usage }

end CommandLine
end OptionTree
