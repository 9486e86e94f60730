/-!
# Arguments

A command line is a verb with a query and options.  Options may stand before and after the query; an
option that takes a value has it attached or in the next argument.  After two hyphens everything is
taken as it stands.  A request for help or for the version counts as soon as it is met.
-/

namespace RelQuery.CommandLine

inductive Verb where
  | parse
  | compile
  | run
  deriving DecidableEq, Repr

def Verb.ofName? : String → Option Verb
  | "parse" => some .parse
  | "translate" => some .compile
  | "run" => some .run
  | _ => none

inductive Topic where
  | program
  | verb (verb : Verb)
  | help
  deriving DecidableEq, Repr

inductive Flag where
  | config
  | input
  | noComments
  | solver
  | help
  | version
  deriving DecidableEq, Repr

namespace Flag

def takesValue : Flag → Bool
  | config | input | solver => true
  | noComments | help | version => false

/-- The long name, which stands after two hyphens. -/
def name : Flag → String
  | config => "config"
  | input => "input"
  | noComments => "no-comments"
  | solver => "souffle"
  | help => "help"
  | version => "version"

/-- The letter, which stands after one hyphen. -/
def letter? : Flag → Option Char
  | config => some 'c'
  | input => some 'i'
  | noComments => none
  | solver => none
  | help => some 'h'
  | version => some 'V'

/-- The options that are known after a verb, or before any. -/
def known : Option Verb → List Flag
  | none => [config, help, version]
  | some .parse => [config, help]
  | some .compile | some .run => [config, input, noComments, solver, help]

end Flag

inductive UsageError where
  | missingCommand
  | unknownCommand (word : String)
  | unknownOption (argument : String)
  | missingValue (flag : Flag)
  | unwantedValue (flag : Flag)
  | repeated (flag : Flag)
  | missingQuery
  | unexpected (argument : String)
  deriving DecidableEq, Repr

def UsageError.message : UsageError → String
  | missingCommand => "a subcommand is required"
  | unknownCommand word => "unrecognized subcommand '" ++ word ++ "'"
  | unknownOption argument => "unexpected argument '" ++ argument ++ "' found"
  | missingValue flag => "a value is required for '--" ++ flag.name ++ "' but none was supplied"
  | unwantedValue flag => "unexpected value for '--" ++ flag.name ++ "' found"
  | repeated flag => "the argument '--" ++ flag.name ++ "' cannot be used multiple times"
  | missingQuery => "a query is required"
  | unexpected argument => "unexpected argument '" ++ argument ++ "' found"

structure Options where
  config : Option String := none
  inputs : List String := []
  noComments : Bool := false
  solver : Option String := none
  deriving DecidableEq, Repr

namespace Options

/-- Gives an option its value.  Only inputs can be given more than once, and the path of the solver
must not be empty. -/
def set (options : Options) (flag : Flag) (value : String) : Except UsageError Options :=
  match flag with
  | .config =>
    if options.config.isSome then .error (.repeated flag)
    else .ok { options with config := some value }
  | .input => .ok { options with inputs := options.inputs ++ [value] }
  | .solver =>
    if options.solver.isSome then .error (.repeated flag)
    else if value.isEmpty then .error (.missingValue flag)
    else .ok { options with solver := some value }
  | .noComments | .help | .version => .error (.unwantedValue flag)

/-- Sets an option that takes no value. -/
def raise (options : Options) (flag : Flag) : Except UsageError Options :=
  match flag with
  | .noComments =>
    if options.noComments then .error (.repeated flag)
    else .ok { options with noComments := true }
  | .config | .input | .solver => .error (.missingValue flag)
  | .help | .version => .ok options

end Options

structure Invocation where
  verb : Verb
  query : String
  options : Options
  deriving DecidableEq, Repr

inductive Request where
  | help (topic : Topic)
  | version
  | invoke (invocation : Invocation)
  deriving DecidableEq, Repr

/-- What an argument is by itself. -/
inductive Token where
  | word
  | escape
  | option (flag : Flag) (attached : Option String)
  | unknown
  deriving DecidableEq, Repr

/-- The value that is attached to a letter; an equals sign may precede it. -/
def attachedToLetter : List Char → Option String
  | [] => none
  | '=' :: cs => some (String.ofList cs)
  | cs => some (String.ofList cs)

/-- The value that is attached to a long name by an equals sign. -/
def attachedToName : List Char → Option String
  | [] => none
  | _ :: cs => some (String.ofList cs)

def tokenOf (verb : Option Verb) (argument : String) : Token :=
  match argument.toList with
  | ['-', '-'] => .escape
  | '-' :: '-' :: cs =>
    let name := String.ofList (cs.takeWhile (· != '='))
    match (Flag.known verb).find? fun flag => flag.name == name with
    | some flag => .option flag (attachedToName (cs.dropWhile (· != '=')))
    | none => .unknown
  | '-' :: c :: cs =>
    match (Flag.known verb).find? fun flag => flag.letter? == some c with
    | some flag => .option flag (if flag.takesValue then attachedToLetter cs else none)
    | none => .unknown
  | _ => .word

/-- Whether an argument cannot be the value of the option before it. -/
def startsOption (argument : String) : Bool :=
  argument.startsWith "-" && argument != "-"

/-- Ends a command line.  The configuration file may be named before the verb or after it; after it
counts more. -/
def Request.close (verb : Verb) (outer options : Options) (query : String) : Request :=
  .invoke ⟨verb, query, { options with config := options.config.or outer.config }⟩

def scanVerb (verb : Verb) (outer : Options) :
    Options → Option String → List String → Except UsageError Request
  | _, none, [] => .error .missingQuery
  | options, some query, [] => .ok (.close verb outer options query)
  | options, query, argument :: rest =>
    match tokenOf (some verb) argument with
    | .unknown => .error (.unknownOption argument)
    | .word =>
      if query.isSome then .error (.unexpected argument)
      else scanVerb verb outer options (some argument) rest
    | .escape =>
      match query.toList ++ rest with
      | [] => .error .missingQuery
      | [query] => .ok (.close verb outer options query)
      | _ :: extra :: _ => .error (.unexpected extra)
    | .option flag (some value) =>
      (options.set flag value).bind fun options => scanVerb verb outer options query rest
    | .option flag none =>
      if flag = .help then .ok (.help (.verb verb))
      else if flag.takesValue then
        match rest with
        | [] => .error (.missingValue flag)
        | value :: rest =>
          if startsOption value then .error (.missingValue flag)
          else (options.set flag value).bind fun options => scanVerb verb outer options query rest
      else (options.raise flag).bind fun options => scanVerb verb outer options query rest

def helpTopic : List String → Except UsageError Topic
  | [] => .ok .program
  | word :: rest =>
    match Verb.ofName? word, rest with
    | some verb, [] => .ok (.verb verb)
    | some _, extra :: _ => .error (.unknownCommand extra)
    | none, _ =>
      if word = "help" then
        match rest with
        | [] => .ok .help
        | extra :: _ => .error (.unknownCommand extra)
      else .error (.unknownCommand word)

def scanProgram : Options → List String → Except UsageError Request
  | _, [] => .error .missingCommand
  | options, argument :: rest =>
    match tokenOf none argument with
    | .unknown => .error (.unknownOption argument)
    | .escape => .error ((rest.head?.map UsageError.unexpected).getD .missingCommand)
    | .word =>
      match Verb.ofName? argument with
      | some verb => scanVerb verb options {} none rest
      | none =>
        if argument = "help" then (helpTopic rest).map .help
        else .error (.unknownCommand argument)
    | .option flag (some value) =>
      (options.set flag value).bind fun options => scanProgram options rest
    | .option flag none =>
      if flag = .help then .ok (.help .program)
      else if flag = .version then .ok .version
      else
        match rest with
        | [] => .error (.missingValue flag)
        | value :: rest =>
          if startsOption value then .error (.missingValue flag)
          else (options.set flag value).bind fun options => scanProgram options rest

def Request.parse (arguments : List String) : Except UsageError Request :=
  scanProgram {} arguments

end RelQuery.CommandLine
