/-
AssetAudit/CommandLine/Request.lean

Reading a command line.

The words of a command line are bytes.  What the program knows is ASCII, and a
pattern has to be text, but a root is any path, so it is taken as it is.

Words are read from the left.  An option may take a
value, attached (`--root=a`, `-ra`, `-r=a`) or as the next word (`--root a`);
a word that begins with a dash is no value, unless it is the dash alone.  A
value given as a word of its own is only taken in (`State.settle`) when the
next option comes or the words end, so that a help option behind a faulty
value loses to it, and one before it wins.

Two words are commands: `scan`, whose options follow it, and `help`.  What
stands before a command is read and, if it is in order, has no effect on it.
Behind `--` no further word is in place.

* `Request.ofWords words` — what is asked for, or why the words are refused.
-/
import AssetAudit.Text.Utf8

namespace AssetAudit.CommandLine

/-! ### What can be asked for -/

/-- What the user has set. -/
structure Settings where
  /-- The root of the project, if one is given. -/
  root : Option Bytes := none
  /-- The patterns of what to leave out. -/
  excludes : List Text := []
  /-- Hidden entries are wanted too. -/
  noDefaultExcludes : Bool := false
  /-- The report is wanted as JSON. -/
  json : Bool := false
  /-- Totals are wanted too. -/
  verbose : Bool := false
  deriving DecidableEq, Repr

/-- The root of the project, which is where the program is run unless another
is given. -/
def Settings.rootOrHere (s : Settings) : Bytes :=
  s.root.getD (bytesOf ".")

/-- What help is about. -/
inductive Topic where
  | program
  | scan
  | help
  deriving DecidableEq, Repr

/-- What is asked for. -/
inductive Request where
  /-- The report on a project. -/
  | audit (s : Settings)
  /-- The files that an audit would read. -/
  | scan (s : Settings)
  | help (topic : Topic)
  | version
  deriving DecidableEq, Repr

/-- Why a command line is refused. -/
inductive UsageError where
  /-- There is no such option. -/
  | unknownOption
  /-- A word stands where none is in place. -/
  | unexpectedWord
  /-- The option takes a value, and none follows. -/
  | missingValue
  /-- The value is empty. -/
  | emptyValue
  /-- The value has to be text, and is not UTF-8. -/
  | notText
  /-- The option takes no value, and one is attached. -/
  | unexpectedValue
  /-- The option may be given once only. -/
  | repeated
  /-- There is no help on that. -/
  | unknownTopic
  deriving DecidableEq, Repr

/-- The error in words.  Nothing depends on which words these are. -/
def UsageError.message : UsageError → Text
  | .unknownOption => "error: unknown option\n".toList
  | .unexpectedWord => "error: unexpected argument\n".toList
  | .missingValue => "error: a value is required for an option\n".toList
  | .emptyValue => "error: a value must not be empty\n".toList
  | .notText => "error: a value is not UTF-8\n".toList
  | .unexpectedValue => "error: an option takes no value\n".toList
  | .repeated => "error: an option was given more than once\n".toList
  | .unknownTopic => "error: there is no such command\n".toList

/-! ### Options -/

/-- The options that take a value. -/
inductive Valued where
  | root
  | exclude
  deriving DecidableEq, Repr

/-- The options that take none. -/
inductive Flag where
  | noDefaultExcludes
  | json
  | verbose
  | help
  | version
  deriving DecidableEq, Repr

/-- An option. -/
inductive Switch where
  | valued (o : Valued)
  | flag (f : Flag)
  deriving DecidableEq, Repr

/-- Whose options are being read. -/
inductive Level where
  | program
  | scan
  deriving DecidableEq, Repr

/-- The option that a command has besides the others, if it has it. -/
def Level.onlyProgram (l : Level) (f : Flag) : Option Switch :=
  match l with
  | .program => some (.flag f)
  | .scan => none

/-- The option of a long name. -/
def Level.long? (l : Level) (name : Bytes) : Option Switch :=
  if name = bytesOf "root" then some (.valued .root)
  else if name = bytesOf "exclude" then some (.valued .exclude)
  else if name = bytesOf "no-default-excludes" then some (.flag .noDefaultExcludes)
  else if name = bytesOf "help" then some (.flag .help)
  else if name = bytesOf "json" then l.onlyProgram .json
  else if name = bytesOf "verbose" then l.onlyProgram .verbose
  else if name = bytesOf "version" then l.onlyProgram .version
  else none

/-- The option of a letter. -/
def Level.short? (l : Level) (letter : UInt8) : Option Switch :=
  if CodeUnit.is letter 'r' then some (.valued .root)
  else if CodeUnit.is letter 'e' then some (.valued .exclude)
  else if CodeUnit.is letter 'h' then some (.flag .help)
  else if CodeUnit.is letter 'v' then l.onlyProgram .verbose
  else if CodeUnit.is letter 'V' then l.onlyProgram .version
  else none

/-- What the help option is asked at tells what help is about. -/
def Level.topic : Level → Topic
  | .program => .program
  | .scan => .scan

/-! ### Words -/

/-- What a word looks like. -/
inductive Word where
  /-- Two dashes alone. -/
  | escape
  /-- A long name behind two dashes, and what follows its equals sign. -/
  | long (name : Bytes) (attached : Option Bytes)
  /-- Letters behind one dash. -/
  | cluster (letters : Bytes)
  /-- Anything else. -/
  | plain (t : Bytes)
  deriving DecidableEq, Repr

/-- What follows the first equals sign, if there is one. -/
def attachedValue (t : Bytes) : Option Bytes :=
  match t.dropWhile (!CodeUnit.is · '=') with
  | [] => none
  | _ :: v => some v

/-- What a word looks like. -/
def Word.ofBytes (t : Bytes) : Word :=
  match t with
  | a :: b :: rest =>
    if !CodeUnit.is a '-' then .plain t
    else if !CodeUnit.is b '-' then .cluster (b :: rest)
    else if rest.isEmpty then .escape
    else .long (rest.takeWhile (!CodeUnit.is · '=')) (attachedValue rest)
  | _ => .plain t

/-- The value that letters are for the option in front of them, less an equals
sign at their front. -/
def valueBehind : Bytes → Option Bytes
  | [] => none
  | b :: v => if CodeUnit.is b '=' then some v else some (b :: v)

/-! ### Reading -/

/-- Why reading ends before the last word: the words are refused, or one asks
for something at once. -/
inductive Stop where
  | refused (e : UsageError)
  | answered (r : Request)
  deriving DecidableEq, Repr

/-- What has been read so far: what is set, and the last option that takes a
value in a word of its own, with that word once it has come. -/
structure State where
  settings : Settings := {}
  pending : Option (Valued × Option Bytes) := none
  deriving DecidableEq, Repr

/-- The settings with one more value. -/
def Settings.set (s : Settings) : Valued → Bytes → Except Stop Settings
  | .exclude, v =>
    match Utf8.decode? v with
    | some pattern => .ok { s with excludes := s.excludes ++ [pattern] }
    | none => .error (.refused .notText)
  | .root, v =>
    if s.root.isSome then .error (.refused .repeated)
    else if v.isEmpty then .error (.refused .emptyValue)
    else .ok { s with root := some v }

namespace State

/-- The settings, with the value of the last option taken in. -/
def settle (st : State) : Except Stop Settings :=
  match st.pending with
  | none => .ok st.settings
  | some (_, none) => .error (.refused .missingValue)
  | some (o, some v) => st.settings.set o v

/-- The last option still needs its value. -/
def isAwaiting (st : State) : Bool :=
  match st.pending with
  | some (_, none) => true
  | _ => false

/-- A flag is met. -/
def flag (l : Level) (st : State) (f : Flag) : Except Stop State := do
  let s ← st.settle
  match f with
  | .help => .error (.answered (.help l.topic))
  | .version => .error (.answered .version)
  | .noDefaultExcludes =>
    if s.noDefaultExcludes then .error (.refused .repeated)
    else return ⟨{ s with noDefaultExcludes := true }, none⟩
  | .json =>
    if s.json then .error (.refused .repeated) else return ⟨{ s with json := true }, none⟩
  | .verbose =>
    if s.verbose then .error (.refused .repeated) else return ⟨{ s with verbose := true }, none⟩

/-- An option that takes a value is met, with an attached value or without. -/
def valued (st : State) (o : Valued) (attached : Option Bytes) : Except Stop State := do
  let s ← st.settle
  match attached with
  | some v => return ⟨← s.set o v, none⟩
  | none => return ⟨s, some (o, none)⟩

/-- A long option is met. -/
def long (l : Level) (st : State) (name : Bytes) (attached : Option Bytes) :
    Except Stop State :=
  match l.long? name, attached with
  | none, _ => .error (.refused .unknownOption)
  | some (.valued o), v => st.valued o v
  | some (.flag f), none => st.flag l f
  | some (.flag _), some _ => .error (.refused .unexpectedValue)

/-- Letters behind one dash are met.  The first option among them that takes
a value has the rest as its value. -/
def cluster (l : Level) (st : State) : Bytes → Except Stop State
  | [] => .ok st
  | c :: cs =>
    match l.short? c with
    | none => .error (.refused .unknownOption)
    | some (.flag f) =>
      match st.flag l f with
      | .ok st => cluster l st cs
      | .error e => .error e
    | some (.valued o) => st.valued o (valueBehind cs)

/-- A word that is no option is met: it is the value that the last option
needs, or out of place. -/
def plain (st : State) (t : Bytes) : Except Stop State :=
  match st.pending with
  | some (o, none) => .ok { st with pending := some (o, some t) }
  | _ => .error (.refused .unexpectedWord)

end State

/-- What the words behind `help` ask for. -/
def helpOn : List Bytes → Stop
  | [] => .answered (.help .program)
  | [t] =>
    if t = bytesOf "scan" then .answered (.help .scan)
    else if t = bytesOf "help" then .answered (.help .help)
    else .refused .unknownTopic
  | _ => .refused .unknownTopic

/-- The settings that the words make, at the level of the program or of its
command `scan`.  At the level of the program the answer says too whether that
command was given, with the settings of the command then. -/
def readWords (l : Level) (st : State) : List Bytes → Except Stop (Level × Settings)
  | [] => st.settle.map (l, ·)
  | t :: rest =>
    if l = .program ∧ !st.isAwaiting ∧ t = bytesOf "scan" then do
      let inner ← readWords .scan {} rest
      let _ ← st.settle
      return inner
    else if l = .program ∧ !st.isAwaiting ∧ t = bytesOf "help" then .error (helpOn rest)
    else
      match Word.ofBytes t with
      | .escape =>
        if rest.isEmpty then st.settle.map (l, ·) else .error (.refused .unexpectedWord)
      | .long name attached => st.long l name attached >>= fun st => readWords l st rest
      | .cluster letters => st.cluster l letters >>= fun st => readWords l st rest
      | .plain t => st.plain t >>= fun st => readWords l st rest

/-- What a command line asks for. -/
def Request.ofWords (words : List Bytes) : Except UsageError Request :=
  match readWords .program {} words with
  | .ok (.program, s) => .ok (.audit s)
  | .ok (.scan, s) => .ok (.scan s)
  | .error (.answered r) => .ok r
  | .error (.refused e) => .error e

end AssetAudit.CommandLine
