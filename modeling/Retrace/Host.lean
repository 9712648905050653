import Retrace.CommandLine.Program
import Retrace.Identifier
import Std.Time.DateTime.Timestamp

/-!
The calls of a script carried out on the files of this machine.
-/
namespace Retrace.Host

/-- The number of a failure; some calls give it with the opposite sign. -/
def errnoOfCode (n : UInt32) : Errno := ⟨if n < 0x80000000 then n.toNat else (-n).toNat⟩

/-- The number of a failure; one without a number counts as a failed transfer. -/
def errnoOf : IO.Error → Errno
  | .alreadyExists _ n _ | .otherError n _ | .resourceBusy n _ | .resourceVanished n _
  | .unsupportedOperation n _ | .hardwareFault n _ | .unsatisfiedConstraints n _
  | .illegalOperation n _ | .protocolError n _ | .timeExpired n _ | .interrupted _ n _
  | .noFileOrDirectory _ n _ | .invalidArgument _ n _ | .permissionDenied _ n _
  | .resourceExhausted _ n _ | .inappropriateType _ n _ | .noSuchThing _ n _ => errnoOfCode n
  | .unexpectedEof | .userError _ => ⟨5⟩

/-- Work on a named file. A name that is no text cannot be passed on. -/
def named {α : Type} (p : Path) (work : String → IO α) : IO (Except OsError α) := do
  if p.hasNul then return .error .nulByte
  match p.text? with
  | none => return .error (.errno ⟨84⟩)
  | some name =>
    try return .ok (← work name)
    catch e => return .error (.errno (errnoOf e))

/-- Work on two named files. -/
def namedBoth {α : Type} (p q : Path) (work : String → String → IO α) : IO (Except OsError α) := do
  match ← named p fun x => named q (work x) with
  | .ok r => return r
  | .error e => return .error e

def kindOf (m : IO.FS.Metadata) : FileKind :=
  match m.type with
  | .dir => .directory
  | .symlink => .link
  | _ => .file

def bytesOf (b : ByteArray) : Bytes := b.data.toList

def arrayOf (b : Bytes) : ByteArray := ⟨b.toArray⟩

/-- A new file of a random name, readable by its owner alone. -/
def makeTemporary (directory : Path) : IO (Except OsError Path) := do
  let p := directory.child (".tmp" ++ (bytesOf (← IO.getRandomBytes 3)).hex)
  named p fun name => do
    let _ ← IO.FS.Handle.mk name .writeNew
    IO.Prim.setAccessRights name 0o600
    return p

/-- Carries out a call. -/
def perform : (c : Call) → IO c.Reply
  | .linkStatus p => named p fun name => return kindOf (← (System.mkFilePath [name]).symlinkMetadata)
  | .status p => named p fun name => return kindOf (← (System.mkFilePath [name]).metadata)
  | .read p => named p fun name => return bytesOf (← IO.FS.readBinFile name)
  | .list p => named p fun name => do
    let entries ← (System.mkFilePath [name]).readDir
    return entries.toList.map fun e => Utf8.encode e.fileName
  | .realPath p => named p fun name => return .ofString (← IO.FS.realPath name).toString
  | .currentDirectory => return .ofString (← IO.currentDir).toString
  | .makeDirectory p => named p fun name => IO.FS.createDir name
  | .removeFile p => named p fun name => IO.FS.removeFile name
  | .removeDirectory p => named p fun name => IO.FS.removeDir name
  | .rename p q => namedBoth p q fun x y => IO.FS.rename x y
  | .copy p q => namedBoth p q fun x y => do IO.FS.writeBinFile y (← IO.FS.readBinFile x)
  | .setMode p mode => named p fun name => IO.Prim.setAccessRights name (UInt32.ofNat mode)
  | .makeTemporary d => makeTemporary d
  | .fill p content => named p fun name => IO.FS.writeBinFile name (arrayOf content)
  | .write p content => named p fun name => IO.FS.writeBinFile name (arrayOf content)

/-- Carries out a script, call by call. -/
def carryOut {α : Type} : Script α → IO α
  | .done a => return a
  | .call c next => do
    let r ← perform c
    carryOut (next r)

def now : IO Instant := do
  let t ← Std.Time.Timestamp.now
  let n := t.toNanosecondsSinceUnixEpoch.toInt
  return ⟨n / 1000000000, (n % 1000000000).toNat⟩

/-- The directory of the user's own settings. -/
def configDirectory : IO Path := do
  let own := Path.ofString ((← IO.getEnv "XDG_CONFIG_HOME").getD "")
  if own.isAbsolute then return own
  match ← IO.getEnv "HOME" with
  | some home => return (Path.ofString home).child ".config"
  | none => return .ofString "."

/-- What a run finds on this machine. -/
def surroundings : IO CommandLine.Surroundings := do
  let seed := bytesOf (← IO.getRandomBytes 32)
  return { configDirectory := ← configDirectory, now := ← now, ids := Identifier.supply seed }

end Retrace.Host
