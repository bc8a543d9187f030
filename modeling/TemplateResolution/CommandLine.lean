import TemplateResolution.Resolution.Report
import TemplateResolution.Resolution.Resolve
import TemplateResolution.Scenario

/-!
# The command line

`list` names the scenarios, and `demo` runs some of them or all: it shows what a
scenario declares and reports each of its queries.  Options switch the ordering
rules off, and `--strict` stops at the first query that selects nothing.  The
verbosity option may stand in front of a command or among the arguments of
these two, as often as one likes; it changes nothing that is printed here.
`help` takes the name of a command and nothing else.
-/

namespace TemplateResolution.CommandLine

/-! ### Arguments -/

inductive Switch where
  | noPackTieBreak
  | noQualificationTieBreak
  | noConversionAvoidance
  | allPositions
  | strict
deriving DecidableEq

def Switch.ofText? : String → Option Switch
  | "--no-pack-tie-break" => some noPackTieBreak
  | "--no-qualification-tie-break" => some noQualificationTieBreak
  | "--no-conversion-avoidance" => some noConversionAvoidance
  | "--all-positions" => some allPositions
  | "--strict" => some strict
  | _ => none

structure Demo where
  /-- The scenarios asked for; all of them if none is. -/
  scenarios : List String := []
  switches : List Switch := []
deriving DecidableEq

def Demo.rules (demo : Demo) : OrderingRules where
  packTieBreak := !demo.switches.contains .noPackTieBreak
  qualificationTieBreak := !demo.switches.contains .noQualificationTieBreak
  conversionAvoidance := !demo.switches.contains .noConversionAvoidance
  suppliedArgumentsOnly := !demo.switches.contains .allPositions

inductive Command where
  | list
  | demo (options : Demo)
  | help
  | version
deriving DecidableEq

/-- What an option says that is not one of a command's own. -/
inductive CommonOption where
  /-- Nothing that is printed changes. -/
  | verbosity
  /-- The rest of the arguments does not matter. -/
  | asks (command : Command)
  | unknown
deriving DecidableEq

namespace CommonOption

/-- Reads the letters behind a dash up to the first that is not `v`; the version can be asked for
`atTop` only, in front of any command. -/
def ofLetters (atTop : Bool) : List Char → CommonOption
  | [] => verbosity
  | 'v' :: letters => ofLetters atTop letters
  | 'h' :: _ => asks .help
  | 'V' :: _ => if atTop then asks .version else unknown
  | _ :: _ => unknown

def ofText (atTop : Bool) (arg : String) : CommonOption :=
  match arg with
  | "--verbose" => verbosity
  | "--help" => asks .help
  | "--version" => if atTop then asks .version else unknown
  | _ =>
    match arg.toList with
    | '-' :: letter :: letters => ofLetters atTop (letter :: letters)
    | _ => unknown

end CommonOption

/-- Whether an argument is read as an option; a lone dash is not. -/
def looksLikeOption (arg : String) : Bool :=
  match arg.toList with
  | '-' :: _ :: _ => true
  | _ => false

/-- The arguments of `list`, which takes no operands. -/
def parseList : List String → Option Command
  | [] => some .list
  | ["--"] => some .list
  | arg :: rest =>
    match CommonOption.ofText false arg with
    | .verbosity => parseList rest
    | .asks command => some command
    | .unknown => none

/-- The arguments of `demo`: switches, each at most once, and names of scenarios. -/
def parseDemo (demo : Demo) : List String → Option Command
  | [] => some (.demo demo)
  | "--" :: names => some (.demo { demo with scenarios := demo.scenarios ++ names })
  | arg :: rest =>
    match CommonOption.ofText false arg, Switch.ofText? arg with
    | .verbosity, _ => parseDemo demo rest
    | .asks command, _ => some command
    | .unknown, some switch =>
      if demo.switches.contains switch then none
      else parseDemo { demo with switches := switch :: demo.switches } rest
    | .unknown, none =>
      if looksLikeOption arg then none
      else parseDemo { demo with scenarios := demo.scenarios ++ [arg] } rest

/-- The arguments of `help`, which takes no options: the name of the command to explain.  As no
command has commands of its own, there is nothing to explain below that. -/
def parseHelp : List String → Option Command
  | [] => some .help
  | [topic] => if ["list", "demo", "help"].contains topic then some .help else none
  | _ :: _ :: _ => none

/-- The command that the arguments ask for, if they make sense. -/
def parse : List String → Option Command
  | [] => some .help
  | ["--"] => some .help
  | "list" :: rest => parseList rest
  | "demo" :: rest => parseDemo {} rest
  | "help" :: rest => parseHelp rest
  | arg :: rest =>
    match CommonOption.ofText true arg with
    | .verbosity => parse rest
    | .asks command => some command
    | .unknown => none

/-! ### Output -/

/-- Why a command ends early. -/
inductive Failure where
  /-- The arguments make no sense. -/
  | usage
  | unknownScenario (name : String)
  | registration (error : RegistrationError)
  | resolution (error : ResolutionError)
deriving DecidableEq

namespace Failure

def status : Failure → Nat
  | usage => 2
  | unknownScenario _ | registration _ | resolution _ => 1

def message : Failure → String
  | usage => "The arguments do not make sense; see `specres --help`"
  | unknownScenario name => s!"Unknown scenario `{name}`"
  | registration error => error.message
  | resolution error => error.message ++ "\n" ++ error.advice

end Failure

/-- What a command prints, and the failure that ended it, if one did. -/
structure Transcript where
  text : String := ""
  failure : Option Failure := none
deriving DecidableEq

namespace Transcript

/-- Goes on with `next` unless the command has ended. -/
def andThen (t next : Transcript) : Transcript :=
  if t.failure.isSome then t else ⟨t.text ++ next.text, next.failure⟩

def concat (ts : List Transcript) : Transcript := ts.foldl andThen {}

/-- The exit status. -/
def status (t : Transcript) : Nat := (t.failure.map Failure.status).getD 0

end Transcript

/-- A text filled up with blanks to `width` characters. -/
def padded (width : Nat) (s : String) : String := s ++ "".pushn ' ' (width - s.length)

def listing : String :=
  String.join (Scenario.all.map fun s => padded 14 s.name ++ " " ++ s.summary ++ "\n")

def patternLines (d : Declarations) : String :=
  Resolution.unlines (d.patterns.mapIdx fun id p => s!"  {PatternId.text id} {p.signature}")

/-- Reports a query; a strict run ends at the first that selects nothing. -/
def runQuery (d : Declarations) (demo : Demo) (q : Query) : Transcript :=
  let r := d.resolve demo.rules q
  let text := "\n" ++ r.report d q
  match r.demand d q with
  | .error e => ⟨text, if demo.switches.contains .strict then some (.resolution e) else none⟩
  | .ok _ => ⟨text, none⟩

def runScenario (demo : Demo) (s : Scenario) : Transcript :=
  let title := s!"== {s.name}: {s.summary}\n"
  match Registry.standard.registerAll s.patterns with
  | .error e => ⟨title, some (.registration e)⟩
  | .ok r =>
    let d := r.declarations
    .andThen ⟨title ++ patternLines d, none⟩ (.concat (s.queries.map (runQuery d demo)))

/-- The first name that no scenario has. -/
def unknown? (names : List String) : Option String :=
  names.find? fun name => (Scenario.find? name).isNone

/-- Runs the scenarios asked for, a blank line between them, unless a name is unknown. -/
def runDemo (demo : Demo) : Transcript :=
  match unknown? demo.scenarios with
  | some name => { failure := some (.unknownScenario name) }
  | none =>
    let asked :=
      if demo.scenarios.isEmpty then Scenario.all else demo.scenarios.filterMap Scenario.find?
    .concat ((asked.map (runScenario demo)).intersperse { text := "\n" })

def usage : String :=
  Resolution.unlines [
    "Usage: specres [OPTIONS] [COMMAND]",
    "",
    "Commands:",
    "  list  List the available scenarios",
    "  demo  Declare scenarios and resolve their use-sites",
    "  help  Explain a command"]

def run (args : List String) : Transcript :=
  match parse args with
  | some .list => { text := listing }
  | some (.demo demo) => runDemo demo
  | some .help => { text := usage }
  | some .version => { text := "specres 0.1.0\n" }
  | none => { failure := some .usage }

end TemplateResolution.CommandLine
