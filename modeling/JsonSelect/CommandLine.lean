import JsonSelect.Document
import JsonSelect.Json.Reading

/-!
# Command line

The arguments name at most one input file and some options; an option is given at most once and by
its full name. The value of an option is joined to it by an equals sign, or, after a letter,
directly, or is the next argument if that begins with no dash (a lone dash is a value). After two
dashes every argument is a file.

A run reads the request file first, lets the options override it, warns if nothing is asked for,
and only then opens the input. Here documents and streams get the format that they are in
(`Json.format`).
-/

namespace JsonSelect

/-- The readers and printers that the program runs with. -/
def Json.format : Format where
  quick? bytes := (Document.text? bytes).bind readLoosely?
  bytes? bytes := (Document.text? bytes).bind read?
  text? := read?
  compact := Json.compact
  pretty := Json.pretty

namespace Document

def run (compact : Bool) (request : Request) (bytes : List UInt8) : StateM Cache Report :=
  Json.format.run compact request bytes

def runStream (request : Request) (bytes : List UInt8) : StateM Cache Report :=
  Json.format.runStream request bytes

end Document

namespace CommandLine

/-- The options that take a value. -/
inductive Setting where
  | part (part : Request.Part)
  | requestFile
  deriving DecidableEq, Repr

inductive Switch where
  | lines
  | compact
  deriving DecidableEq, Repr

inductive Opt where
  | setting (setting : Setting)
  | switch (switch : Switch)
  deriving DecidableEq, Repr

def Opt.ofName? (name : String) : Option Opt :=
  if name = "root" then some (.setting (.part .root))
  else if name = "include" then some (.setting (.part .selected))
  else if name = "exclude" then some (.setting (.part .dropped))
  else if name = "fields" then some (.setting .requestFile)
  else if name = "ndjson" then some (.switch .lines)
  else if name = "compact" then some (.switch .compact)
  else none

def Setting.ofLetter? (letter : Char) : Option Setting :=
  if letter = 'i' then some (.part .selected)
  else if letter = 'e' then some (.part .dropped)
  else none

/-- What the arguments say. -/
structure Arguments where
  input : Option String
  settings : List (Setting × String)
  switches : List Switch
  deriving DecidableEq, Repr

namespace Arguments

def empty : Arguments := ⟨none, [], []⟩

/-- Each of these steps fails if what it adds is there already. -/
def addInput? (a : Arguments) (name : String) : Option Arguments :=
  if a.input.isSome then none else some { a with input := some name }

def addSetting? (a : Arguments) (setting : Setting) (value : String) : Option Arguments :=
  if (a.settings.lookup setting).isSome then none
  else some { a with settings := (setting, value) :: a.settings }

def addSwitch? (a : Arguments) (switch : Switch) : Option Arguments :=
  if a.switches.contains switch then none
  else some { a with switches := switch :: a.switches }

def get (a : Arguments) (setting : Setting) : Option String := a.settings.lookup setting

end Arguments

/-- One argument, as far as it can be told without the next. -/
inductive Word where
  | file (name : String)
  | endOfOptions
  | joined (setting : Setting) (value : String)
  | awaiting (setting : Setting)
  | switch (switch : Switch)
  | unknown
  deriving DecidableEq, Repr

namespace Word

/-- An argument that begins with two dashes, by what follows them. -/
def ofLong (cs : List Char) : Word :=
  let name := String.ofList (cs.takeWhile (· != '='))
  match cs.dropWhile (· != '='), Opt.ofName? name with
  | _ :: value, some (.setting s) => joined s (String.ofList value)
  | [], some (.setting s) => awaiting s
  | [], some (.switch s) => switch s
  | _, _ => unknown

/-- An argument that begins with one dash, by what follows it. -/
def ofShort (letter : Char) (cs : List Char) : Word :=
  match Setting.ofLetter? letter, cs with
  | some s, [] => awaiting s
  | some s, '=' :: value => joined s (String.ofList value)
  | some s, value => joined s (String.ofList value)
  | none, _ => unknown

def ofArgument (argument : String) : Word :=
  match argument.toList with
  | ['-', '-'] => endOfOptions
  | '-' :: '-' :: cs => ofLong cs
  | '-' :: letter :: cs => ofShort letter cs
  | _ => file argument

end Word

/-- Reads the arguments after those in `a`. -/
def parse? (a : Arguments) : List String → Option Arguments
  | [] => some a
  | argument :: others =>
    match Word.ofArgument argument with
    | .file name => do parse? (← a.addInput? name) others
    | .endOfOptions => others.foldlM Arguments.addInput? a
    | .joined setting value => do parse? (← a.addSetting? setting value) others
    | .switch switch => do parse? (← a.addSwitch? switch) others
    | .awaiting setting =>
      match others with
      | value :: others =>
        match Word.ofArgument value with
        | .file _ => do parse? (← a.addSetting? setting value) others
        | _ => none
      | [] => none
    | .unknown => none

/-- How a run ends: its exit code, what it printed, its warnings and its error text. -/
structure Outcome where
  code : Nat
  output : String
  warnings : List String
  message : Option String
  deriving DecidableEq, Repr

def badUsage : Outcome := ⟨2, "", [], none⟩

def cannotOpen (name : String) : String := "Failed to open " ++ name

def cannotReadRequest (name : String) : String := "Failed to parse request in " ++ name

def nothingAsked : String :=
  "chisel: no --root, --include or --exclude given; output equals input"

def elementsSkipped (count : Nat) : String :=
  "chisel::engine: dropping non-object array elements skipped=" ++ toString count

/-- The request of the request file, or the error text. -/
def fileRequest (a : Arguments) (file : String → Option (List UInt8)) : Except String Request :=
  match a.get .requestFile with
  | none => .ok .empty
  | some name =>
    match file name with
    | none => .error (cannotOpen name)
    | some bytes =>
      match (Document.text? bytes).bind Request.ofText? with
      | none => .error (cannotReadRequest name)
      | some request => .ok request

/-- The request with the parts that the options set. -/
def overridden (a : Arguments) (request : Request) : Request :=
  Request.parts.foldl
    (fun r part =>
      match a.get (.part part) with
      | some text => r.set part (some text)
      | none => r)
    request

/-- Runs with the files that can be opened and the standard input. -/
def runWith (a : Arguments) (file : String → Option (List UInt8)) (input : List UInt8) : Outcome :=
  match fileRequest a file with
  | .error message => ⟨1, "", [], some message⟩
  | .ok request =>
    let request := overridden a request
    let warnings := if request.isEmpty then [nothingAsked] else []
    let source : Option (List UInt8) := match a.input with
      | some name => file name
      | none => some input
    match source with
    | none => ⟨1, "", warnings, a.input.map cannotOpen⟩
    | some bytes =>
      let report := (if a.switches.contains .lines then Document.runStream request bytes
        else Document.run (a.switches.contains .compact) request bytes).run Cache.empty |>.1
      ⟨if report.failure.isSome then 1 else 0, report.output,
        warnings ++ report.skipped.map elementsSkipped, report.failure.map Failure.message⟩

def run (arguments : List String) (file : String → Option (List UInt8)) (input : List UInt8) :
    Outcome :=
  match parse? .empty arguments with
  | none => badUsage
  | some a => runWith a file input

end CommandLine

end JsonSelect
