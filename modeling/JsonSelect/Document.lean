import JsonSelect.Session

/-!
# Documents and lines

A document is one JSON text, projected and printed on a line of its own, pretty or compact. A
stream holds a JSON text on each line that is not blank; each is projected by itself and printed
compactly. Lines are numbered from 1, blank ones included, and end at a line feed or at a carriage
return and a line feed. The first fault ends the run, and what was printed before it stays.

How JSON is read and printed is left open: a run is given its readers and printers (`Format`).
-/

namespace JsonSelect

/-- Why a run ended early. -/
inductive Failure where
  | notJson
  | notJsonOnLine (number : Nat)
  | lineNotText
  | selection (cause : Fault)
  | selectionOnLine (number : Nat) (cause : Fault)
  deriving DecidableEq, Repr

namespace Failure

def message : Failure → String
  | notJson => "Failed to parse JSON"
  | notJsonOnLine number => "Failed to parse JSON on line " ++ toString number
  | lineNotText => "Failed to read line"
  | selection cause => cause.message
  | selectionOnLine number _ => "Failed to project line " ++ toString number

/-- The fault of a selector or a root, if that is what ended the run. -/
def cause? : Failure → Option Fault
  | selection cause | selectionOnLine _ cause => some cause
  | _ => none

end Failure

/-- What a run printed, from how many texts, how many array elements each of them left out, and why
it ended early if it did. -/
structure Report where
  output : String
  written : Nat
  skipped : List Nat
  failure : Option Failure
  deriving DecidableEq, Repr

namespace Report

def done : Report := ⟨"", 0, [], none⟩

def failed (failure : Failure) : Report := ⟨"", 0, [], some failure⟩

/-- The report with one projected text printed in front. -/
def after (text : String) (skipped : Nat) (r : Report) : Report :=
  ⟨text ++ "\n" ++ r.output, r.written + 1,
    if skipped = 0 then r.skipped else skipped :: r.skipped, r.failure⟩

end Report

namespace Document

def lineFeed : UInt8 := 10

def carriageReturn : UInt8 := 13

/-- The lines of a stream, without their ends. -/
def lines : List UInt8 → List (List UInt8)
  | [] => []
  | b :: bytes =>
    if b = lineFeed then [] :: lines bytes
    else
      match lines bytes with
      | [] => [[b]]
      | line :: others =>
        if b = carriageReturn && bytes.head? == some lineFeed then line :: others
        else (b :: line) :: others

/-- The text of some bytes, if they are well formed. -/
def text? (bytes : List UInt8) : Option String := String.fromUTF8? ⟨bytes.toArray⟩

end Document

/-- How JSON is read and printed. -/
structure Format where
  /-- The reader that is tried first on a document. -/
  quick? : List UInt8 → Option Json
  /-- The reader for the documents that the first one refuses. -/
  bytes? : List UInt8 → Option Json
  /-- The reader for a line. -/
  text? : String → Option Json
  compact : Json → String
  pretty : Json → String

namespace Format

def document? (f : Format) (bytes : List UInt8) : Option Json :=
  (f.quick? bytes).or (f.bytes? bytes)

def print (f : Format) (compact : Bool) (tree : Json) : String :=
  if compact then f.compact tree else f.pretty tree

def run (f : Format) (compact : Bool) (request : Request) (bytes : List UInt8) :
    StateM Cache Report := do
  match f.document? bytes with
  | none => return .failed .notJson
  | some tree =>
    match ← (Session.project tree request).run with
    | .error cause => return .failed (.selection cause)
    | .ok p => return Report.done.after (f.print compact p.tree) p.skipped

/-- Projects the texts on lines, the first of which has the given number. -/
def runLines (f : Format) (request : Request) : Nat → List (List UInt8) → StateM Cache Report
  | _, [] => return .done
  | number, line :: others => do
    match Document.text? line with
    | none => return .failed .lineNotText
    | some text =>
      if Text.allBlank text then f.runLines request (number + 1) others
      else match f.text? text with
        | none => return .failed (.notJsonOnLine number)
        | some tree =>
          match ← (Session.project tree request).run with
          | .error cause => return .failed (.selectionOnLine number cause)
          | .ok p =>
            return (← f.runLines request (number + 1) others).after (f.print true p.tree) p.skipped

def runStream (f : Format) (request : Request) (bytes : List UInt8) : StateM Cache Report :=
  f.runLines request 1 (Document.lines bytes)

end Format

end JsonSelect
