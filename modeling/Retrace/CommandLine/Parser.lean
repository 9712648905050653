import Retrace.CommandLine.Command
import Retrace.CommandLine.Grammar

/-!
Reading a command line, argument by argument. What an option or a place takes is settled when the
next argument that is understood comes, or at the end; what stands below a command is read whole
before the command itself is checked. Main definition: `CommandLine.parse`.
-/
namespace Retrace.CommandLine

/-- Why no command is run. -/
inductive Usage
  | displayHelp
  | displayVersion
  /-- A command with commands below it is given nothing at all. -/
  | helpOnMissing
  | missingSubcommand
  | invalidSubcommand
  | unknownArgument
  /-- A value is missing, or is an empty path. -/
  | invalidValue
  /-- A value that has to be text is none. -/
  | invalidText
  | valueValidation
  | argumentConflict
  /-- A flag is given a value. -/
  | tooManyValues
  | missingRequiredArgument
  deriving DecidableEq, Repr

/-- Asking for help or for the version is no error. -/
def Usage.exitCode : Usage → Nat
  | displayHelp | displayVersion => 0
  | _ => 2

/-- A word of a command line. -/
abbrev Word := Bytes

inductive Value
  | text (s : String)
  | path (p : Path)
  | number (n : Nat)
  deriving DecidableEq, Repr

/-- The values that arguments have been given, by their ids. -/
abbrev Found := List (String × List Value)

namespace Value

/-- Decimal digits, a plus in front allowed. -/
def natural? (s : String) : Option Nat :=
  let ds := match s.toList with
    | '+' :: r => r
    | r => r
  if ds = [] ∨ !ds.all Char.isDigit then none
  else some (ds.foldl (fun n c => 10 * n + (c.toNat - 48)) 0)

/-- A minus is understood too, before a zero. -/
def days? (s : String) : Option Nat :=
  match s.toList with
  | '-' :: r =>
    if r.head?.any Char.isDigit && natural? (String.ofList r) = some 0 then some 0 else none
  | _ => natural? s

def bounded (bits : Nat) : Option Nat → Except Usage Value
  | some n => if n < Nat.pow 2 bits then .ok (.number n) else .error .valueValidation
  | none => .error .valueValidation

def textOf (w : Word) : Except Usage String :=
  match Utf8.decode? w with
  | some s => .ok s
  | none => .error .invalidText

/-- The value that a word stands for. -/
def read (w : Word) : ValueKind → Except Usage Value
  | .text => return .text (← textOf w)
  | .path => if w = [] then .error .invalidValue else .ok (.path ⟨w⟩)
  | .count => do bounded 64 (natural? (← textOf w))
  | .days => do bounded 32 (days? (← textOf w))

end Value

/-- Where the reading of one command stands. -/
structure Reading where
  found : Found := []
  /-- An argument with values that are not settled yet. -/
  pending : Option (Argument × List Word) := none
  /-- The pending argument is an option that waits for its value. -/
  awaiting : Bool := false
  /-- Arguments given by place. -/
  placed : Nat := 0
  /-- After two dashes everything goes by place. -/
  trailing : Bool := false

namespace Reading

/-- Gives an argument its values. Only an option for many values may be given twice. -/
def store (r : Reading) (a : Argument) (values : List Word) : Except Usage Reading :=
  match a.effect with
  | .help => .error .displayHelp
  | .version => .error .displayVersion
  | .flag =>
    if (r.found.lookup a.id).isSome then .error .argumentConflict
    else .ok { r with found := r.found ++ [(a.id, [])] }
  | .value k =>
    match values with
    | [] => .error .invalidValue
    | v :: _ => do
      if (r.found.lookup a.id).isSome then throw .argumentConflict
      return { r with found := r.found ++ [(a.id, [← Value.read v k])] }
  | .values k =>
    match values with
    | [] => .error .invalidValue
    | v :: _ => do
      let x ← Value.read v k
      let before := (r.found.lookup a.id).getD []
      return { r with found := r.found.filter (·.1 ≠ a.id) ++ [(a.id, before ++ [x])] }

def settle (r : Reading) : Except Usage Reading :=
  match r.pending with
  | none => .ok r
  | some (a, values) => { r with pending := none, awaiting := false }.store a values

/-- An argument that is complete in itself. -/
def take (r : Reading) (a : Argument) (values : List Word) : Except Usage Reading := do
  (← r.settle).store a values

/-- An option that takes its value from what follows. -/
def await (r : Reading) (a : Argument) : Except Usage Reading := do
  return { ← r.settle with pending := some (a, []), awaiting := true }

def takesValue (a : Argument) : Bool :=
  match a.effect with
  | .value _ => true
  | .values _ => true
  | _ => false

/-- An option by its long name, with what stands after an equals sign. -/
def long (g : Grammar) (r : Reading) (name : Word) (attached : Option Word) :
    Except Usage Reading :=
  match g.options.find? (·.long.any (Utf8.encode · = name)) with
  | none => .error .unknownArgument
  | some a =>
    match takesValue a, attached with
    | true, some v => r.take a [v]
    | true, none => r.await a
    | false, some _ => .error .tooManyValues
    | false, none => r.take a []

def equals : UInt8 := 61

/-- Options by their letters; what follows the letter of an option with a value is the value. -/
def letters (g : Grammar) : Reading → Word → Except Usage Reading
  | r, [] => .ok r
  | r, b :: bs =>
    match g.options.find? (·.short.any (·.toNat = b.toNat)) with
    | none => .error .unknownArgument
    | some a =>
      if takesValue a then
        if bs = [] then r.await a
        else r.take a [if bs.head? = some equals then bs.tail else bs]
      else do letters g (← r.take a []) bs

/-- An argument that is no option. -/
def plain (g : Grammar) (r : Reading) (w : Word) : Except Usage Reading :=
  match r.awaiting && !r.trailing, r.pending with
  | true, some (a, vs) => .ok { r with pending := some (a, vs ++ [w]), awaiting := false }
  | _, _ =>
    match g.places[r.placed]? with
    | some a => do
      return { ← r.settle with pending := some (a, [w]), placed := r.placed + 1 }
    | none =>
      if g.commands.isEmpty then .error .unknownArgument
      else if r.trailing && (w = Grammar.help || (g.command? w).isSome) then .error .unknownArgument
      else .error .invalidSubcommand

/-- The part before an equals sign and, where there is one, the part after it. -/
def splitAttached (w : Word) : Word × Option Word :=
  let name := w.takeWhile (· ≠ equals)
  match w.drop name.length with
  | _ :: v => (name, some v)
  | [] => (name, none)

def dash : UInt8 := 45

/-- One argument of a command. -/
def step (g : Grammar) (r : Reading) (w : Word) : Except Usage Reading :=
  if r.trailing then r.plain g w
  else if w = [dash, dash] then .ok { r with trailing := true }
  else if [dash, dash].isPrefixOf w then
    let (name, attached) := splitAttached (w.drop 2)
    r.long g name attached
  else if w.head? = some dash ∧ w ≠ [dash] then r.letters g w.tail
  else r.plain g w

/-- What holds of the arguments of a command as a whole. -/
def check (g : Grammar) (below : Bool) (r : Reading) : Except Usage Found := do
  let r ← r.settle
  let given (id : String) : Bool := (r.found.lookup id).isSome
  if !g.commands.isEmpty && !below then
    throw (if r.found.isEmpty then .helpOnMissing else .missingSubcommand)
  if g.exclusive.any fun (a, b) => given a && given b then throw .argumentConflict
  if g.places.any fun a => a.required && !given a.id then throw .missingRequiredArgument
  return r.found

/-- The name of a command below may stand here. -/
def mayName (r : Reading) : Bool := !r.trailing && !r.awaiting

end Reading

/-- The command for help names commands from the outermost on. -/
def helpOn (g : Grammar) : List Word → Usage
  | [] => .displayHelp
  | w :: ws =>
    if !g.commands.isEmpty && w = Grammar.help then
      if ws.isEmpty then .displayHelp else .invalidSubcommand
    else match g.command? w with
      | some (_, c) => helpOn c ws
      | none => .invalidSubcommand

/-- The names of a command from the outermost on, with what each level was given. -/
structure Matched where
  names : List String
  levels : List Found

/-- Reads the arguments of a command from the state that earlier ones have left. -/
def matchFrom (g : Grammar) (r : Reading) : List Word → Except Usage Matched
  | [] => do return ⟨[], [← r.check g false]⟩
  | w :: rest =>
    if r.mayName && !g.commands.isEmpty && w = Grammar.help then .error (helpOn g rest)
    else match if r.mayName then g.command? w else none with
      | some (name, c) => do
        let inner ← matchFrom c {} rest
        let found ← r.check g true
        return ⟨name :: inner.names, found :: inner.levels⟩
      | none => do matchFrom g (← r.step g w) rest

namespace Found

def given (f : Found) (id : String) : Bool := (f.lookup id).isSome

def texts (f : Found) (id : String) : List String :=
  ((f.lookup id).getD []).filterMap fun
    | .text s => some s
    | _ => none

def text? (f : Found) (id : String) : Option String := (f.texts id).head?

def path? (f : Found) (id : String) : Option Path :=
  match f.lookup id with
  | some [.path p] => some p
  | _ => none

def number? (f : Found) (id : String) : Option Nat :=
  match f.lookup id with
  | some [.number n] => some n
  | _ => none

end Found

def defaultLimit : Nat := 20
def defaultProject : Path := .ofString "."

/-- The command that the names stand for, with what the innermost of them was given. -/
def commandOf? (f : Found) : List String → Option Command
  | ["history"] => some (.history ((f.number? "limit").getD defaultLimit))
  | ["points"] => some .points
  | ["preview"] => (f.text? "id").map .preview
  | ["undo"] =>
    some (.undo (f.text? "id") (f.given "force") (f.given "dry_run") (f.given "preserve_backups"))
  | ["checkpoint", "create"] =>
    (f.text? "name").map fun name =>
      .checkpointCreate name ((f.text? "description").getD "") (f.texts "transactions")
  | ["checkpoint", "list"] => some .checkpointList
  | ["checkpoint", "rollback"] =>
    (f.text? "id").map fun id =>
      .checkpointRollback id (f.given "force") (f.given "dry_run") (f.given "parallel")
        (f.given "preserve_backups")
  | ["checkpoint", "delete"] => (f.text? "id").map .checkpointDelete
  | ["stats"] => some .stats
  | ["clean"] => some (.clean (f.number? "older_than_days") (f.given "confirm"))
  | ["write"] => (f.path? "path").map (.write · (f.text? "content") (f.path? "from"))
  | ["remove"] => (f.path? "path").map .remove
  | ["mv"] => do return .move (← f.path? "from") (← f.path? "to")
  | _ => none

/-- Reads a command line. An option of every command counts wherever it is given, the innermost one
first. -/
def parse (args : List Word) : Except Usage Invocation := do
  let m ← matchFrom .program {} args
  match commandOf? (m.levels.getLastD []) m.names with
  | none => .error .missingSubcommand
  | some command =>
    return {
      verbose := m.levels.any (Found.given · "verbose")
      project := (m.levels.reverse.findSome? (Found.path? · "project")).getD defaultProject
      command }

end Retrace.CommandLine
