import OpticC.Build.CompileAll
import OpticC.Frontend.Directives
import OpticC.Lib.Words

/-! The command line of the direct driver: `parse_direct_driver_args`. -/

namespace OpticC.Driver

open Words

abbrev Text := List Char

inductive OutputType
  | Object
  | SharedLib
  | StaticLib
  | Executable
  deriving DecidableEq, Repr

structure DirectDriverInvocation where
  sourceFiles : List Text
  output : Text
  includePaths : List Text
  forceIncludes : List Text
  defines : Text → Option Text
  linkLibs : List Text
  optimization : ℕ
  outputType : OutputType
  jobs : ℕ
  depfile : Option Text
  depTarget : Option Text
  depPhony : Bool
  freestanding : Bool
  nostdinc : Bool
  returnThunkExtern : Bool
  printTarget : Option Text
  printVersion : Bool
  printVersionOnly : Bool
  printFileName : Option Text

def DirectDriverInvocation.default : DirectDriverInvocation where
  sourceFiles := []
  output := "a.out".toList
  includePaths := []
  forceIncludes := []
  defines := fun _ => none
  linkLibs := []
  optimization := 0
  outputType := .Executable
  jobs := 1
  depfile := none
  depTarget := none
  depPhony := false
  freestanding := false
  nostdinc := false
  returnThunkExtern := false
  printTarget := none
  printVersion := false
  printVersionOnly := false
  printFileName := none

def isDirectDriverInvocation (args : List Text) : Bool :=
  match args[1]? with
  | none => false
  | some arg => !(["compile", "build", "benchmark", "integration-test", "help", "--help",
      "-h"].map String.toList).contains arg

section Paths

/-- The last component of a path that is a name, behind the components in front of it. -/
def splitFileName (path : Text) : Option (List Text × Text) :=
  let kept := ((path.splitOnP (· = '/')).reverse.dropWhile fun s => s = [] ∨ s = ['.']).reverse
  match kept.getLast? with
  | none => none
  | some name => if name = ['.', '.'] then none else some (kept.dropLast, name)

/-- `Path::with_extension` -/
def withExtension (path ext : Text) : Text :=
  match splitFileName path with
  | none => path
  | some (dir, name) =>
    ['/'].intercalate (dir ++ [Build.Parallel.fileStem '.' name ++ '.' :: ext])

/-- Two paths are equal by their components: here one that is a single name. -/
def isPathOf (name path : Text) : Bool :=
  match path.splitOnP (· = '/') with
  | [] => false
  | first :: rest => first = name ∧ ∀ s ∈ rest, s = [] ∨ s = ['.']

end Paths

/-- What the loop changes. -/
structure State where
  invocation : DirectDriverInvocation
  depRequested : Bool

/-- What the loop does with an argument: it goes on behind it, takes the next one for a value, or
passes over the next one. -/
inductive Action
  | flag (f : State → State)
  | value (f : Text → State → State)
  | passNext

def parseDefineArg (arg : Text) (defines : Text → Option Text) : Text → Option Text :=
  if '=' ∈ arg then
    Function.update defines (arg.takeWhile (· ≠ '=')) (some (arg.dropWhile (· ≠ '=')).tail)
  else Function.update defines arg (some ['1'])

section Arguments

/-- The fields that options change. -/
def State.modify (f : DirectDriverInvocation → DirectDriverInvocation) (s : State) : State :=
  { s with invocation := f s.invocation }

def addInclude (path : Text) : State → State :=
  State.modify fun v => { v with includePaths := v.includePaths ++ [path] }

def define (arg : Text) : State → State :=
  State.modify fun v => { v with defines := parseDefineArg arg v.defines }

def undefine (name : Text) : State → State :=
  State.modify fun v => { v with defines := Function.update v.defines name none }

def addLib (lib : Text) : State → State :=
  State.modify fun v => { v with linkLibs := v.linkLibs ++ [lib] }

def setDepfile (path : Text) (s : State) : State :=
  ⟨{ s.invocation with depfile := some path }, true⟩

/-- The arguments that are matched as a whole. -/
def exactAction (arg : Text) : Option Action :=
  if arg = "--version".toList then some (.flag (State.modify fun v => { v with printVersion := true }))
  else if arg = "-dumpversion".toList then
    some (.flag (State.modify fun v => { v with printVersionOnly := true }))
  else if arg = "-dumpmachine".toList then
    some (.flag (State.modify fun v => { v with printTarget := some "x86_64-linux-gnu".toList }))
  else if arg = "-c".toList then
    some (.flag (State.modify fun v => { v with outputType := .Object }))
  else if arg = "-shared".toList then
    some (.flag (State.modify fun v => { v with outputType := .SharedLib }))
  else if arg = "-o".toList then
    some (.value fun value => State.modify fun v => { v with output := value })
  else if arg = "-I".toList ∨ arg = "-isystem".toList ∨ arg = "-iquote".toList then
    some (.value addInclude)
  else if arg = "-D".toList then some (.value define)
  else if arg = "-U".toList then some (.value undefine)
  else if arg = "-l".toList then some (.value addLib)
  else if arg = "-MF".toList then some (.value setDepfile)
  else if arg = "-MT".toList then
    some (.value fun value => State.modify fun v => { v with depTarget := some value })
  else if arg = "-MD".toList ∨ arg = "-MMD".toList then
    some (.flag fun s => { s with depRequested := true })
  else if arg = "-MP".toList then
    some (.flag fun s => ⟨{ s.invocation with depPhony := true }, true⟩)
  else if arg = "-ffreestanding".toList then
    some (.flag (State.modify fun v => { v with freestanding := true }))
  else if arg = "-nostdinc".toList then
    some (.flag (State.modify fun v => { v with nostdinc := true }))
  else if arg = "-include".toList then
    some (.value fun value => State.modify fun v =>
      { v with forceIncludes := v.forceIncludes ++ [value] })
  else if arg = "-x".toList then some .passNext
  else none

/-- The match on the text behind `-O` -/
def optimizationLevel (level : Text) (current : ℕ) : ℕ :=
  if level = ['0'] then 0
  else if level = ['1'] then 1
  else if level = ['2'] then 2
  else if level = ['3'] then 3
  else if level = ['s'] ∨ level = ['z'] then 2
  else current

def stripPrefix (start : String) (arg : Text) : Option Text := start.toList.isPrefixOf? arg

/-- The text behind the start of an argument, where it must not be empty. -/
def stripNonempty (start : String) (arg : Text) : Option Text :=
  (stripPrefix start arg).filter fun value => !value.isEmpty

/-- The other arguments: options with the value in the same argument, options that are passed over
and source files. -/
def joinedAction (arg : Text) : State → State :=
  if let some value := stripPrefix "-print-file-name=" arg then
    State.modify fun v => { v with printFileName := some value }
  else if let some value := (stripPrefix "-Wp,-MD," arg).or (stripPrefix "-Wp,-MMD," arg) then
    setDepfile value
  else if let some value := stripNonempty "-I" arg then addInclude value
  else if let some value := stripNonempty "-isystem" arg then addInclude value
  else if let some value := stripNonempty "-iquote" arg then addInclude value
  else if let some value := stripNonempty "-D" arg then define value
  else if let some value := stripNonempty "-U" arg then undefine value
  else if let some value := stripNonempty "-l" arg then addLib value
  else if let some level := stripPrefix "-O" arg then
    State.modify fun v => { v with optimization := optimizationLevel level v.optimization }
  else if let some mode := stripPrefix "-mfunction-return=" arg then
    State.modify fun v => { v with returnThunkExtern := mode = "thunk-extern".toList }
  -- `-W`, `-g`, `-f`, `-m`, `-L`, `-pipe`, `-v` and `-###` among them
  else if arg.head? = some '-' then id
  else State.modify fun v => { v with sourceFiles := v.sourceFiles ++ [arg] }

def missingValue (arg : Text) : Text := "missing value for ".toList ++ arg

/-- The loop of `parse_direct_driver_args` from an argument on. -/
def parseArgs (s : State) : List Text → Except Text State
  | [] => .ok s
  | arg :: rest =>
    match exactAction arg with
    | some (.flag f) => parseArgs (f s) rest
    | some (.value f) =>
      match rest with
      | [] => .error (missingValue arg)
      | value :: rest => parseArgs (f value s) rest
    | some .passNext =>
      match rest with
      | [] => .ok s
      | _ :: rest => parseArgs s rest
    | none => parseArgs (joinedAction arg s) rest

def expandResponseFile (readFile : Text → Except Text Text) (arg : Text) :
    Except Text (List Text) :=
  match stripPrefix "@" arg with
  | some path =>
    match readFile path with
    | .ok content => .ok (words Preprocessor.isWhiteSpace content)
    | .error e => .error ("Failed to read response file ".toList ++ path ++ ": ".toList ++ e)
  | none => .ok [arg]

/-- `expand_response_files`, behind the first argument -/
def expandResponseFiles (readFile : Text → Except Text Text) :
    List Text → Except Text (List Text)
  | [] => .ok []
  | arg :: rest => do
    let expanded ← expandResponseFile readFile arg
    return expanded ++ (← expandResponseFiles readFile rest)

/-- A freestanding build has `__STDC_HOSTED__` defined. -/
def DirectDriverInvocation.hosted (v : DirectDriverInvocation) : DirectDriverInvocation :=
  if v.freestanding ∧ v.defines "__STDC_HOSTED__".toList = none then
    { v with defines := Function.update v.defines "__STDC_HOSTED__".toList (some ['0']) }
  else v

/-- The output of a build, where `a.out` stands for a name that goes with the type. -/
def DirectDriverInvocation.outputFor (v : DirectDriverInvocation) (first : Text) : Text :=
  if isPathOf "a.out".toList v.output then
    match v.outputType with
    | .Object => withExtension first ['o']
    | .SharedLib => "a.so".toList
    | .StaticLib => "liba.a".toList
    | .Executable => "a.out".toList
  else v.output

def DirectDriverInvocation.asks (v : DirectDriverInvocation) : Bool :=
  v.printVersion || v.printVersionOnly || v.printTarget.isSome || v.printFileName.isSome

/-- What follows the loop. -/
def finish (s : State) : Except Text DirectDriverInvocation :=
  let v := s.invocation.hosted
  if v.asks then .ok v
  else
    match v.sourceFiles with
    | [] => .error "no input files provided".toList
    | first :: _ =>
      let v := { v with output := v.outputFor first }
      .ok (if s.depRequested ∧ v.depfile = none then
        { v with depfile := some (withExtension v.output ['d']) } else v)

/-- The arguments start with the name of the program. -/
def parseDirectDriverArgs (readFile : Text → Except Text Text) (args : List Text) :
    Except Text DirectDriverInvocation := do
  let words ← expandResponseFiles readFile args.tail
  finish (← parseArgs ⟨.default, false⟩ words)

end Arguments

end OpticC.Driver
