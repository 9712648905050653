import Retrace.FileSystem.Operations

/-!
Work on files as a tree of calls: each call names one file operation, and what follows depends on its
reply. A script can be run on a tree of files, stopped after any number of calls, or be carried out
by whoever can perform its calls. Main definition: `Script.run`.
-/
namespace Retrace

inductive Call
  | linkStatus (p : Path)
  | status (p : Path)
  | read (p : Path)
  | list (p : Path)
  | realPath (p : Path)
  | currentDirectory
  | makeDirectory (p : Path)
  | removeFile (p : Path)
  | removeDirectory (p : Path)
  | rename (source target : Path)
  | copy (source target : Path)
  | setMode (p : Path) (mode : Nat)
  | makeTemporary (directory : Path)
  | fill (p : Path) (content : Bytes)
  | write (p : Path) (content : Bytes)
  deriving DecidableEq, Repr

namespace Call

/-- What a call answers. -/
abbrev Reply : Call → Type
  | .linkStatus _ => Except OsError FileKind
  | .status _ => Except OsError FileKind
  | .read _ => Except OsError Bytes
  | .list _ => Except OsError (List Bytes)
  | .realPath _ => Except OsError Path
  | .currentDirectory => Path
  | .makeDirectory _ => Except OsError Unit
  | .removeFile _ => Except OsError Unit
  | .removeDirectory _ => Except OsError Unit
  | .rename .. => Except OsError Unit
  | .copy .. => Except OsError Unit
  | .setMode .. => Except OsError Unit
  | .makeTemporary _ => Except OsError Path
  | .fill .. => Except OsError Unit
  | .write .. => Except OsError Unit

/-- The reply and the tree after an operation that only changes the tree. -/
def change (fs : FileSystem) : Except OsError FileSystem → Except OsError Unit × FileSystem
  | .ok fs => (.ok (), fs)
  | .error e => (.error e, fs)

/-- The reply and the tree after an operation. -/
def perform (fs : FileSystem) : (c : Call) → c.Reply × FileSystem
  | .linkStatus p => (fs.linkStatus p, fs)
  | .status p => (fs.status p, fs)
  | .read p => (fs.read p, fs)
  | .list p => (fs.list p, fs)
  | .realPath p => (fs.realPath p, fs)
  | .currentDirectory => (fs.currentDirectory, fs)
  | .makeDirectory p => change fs (fs.makeDirectory p)
  | .removeFile p => change fs (fs.removeFile p)
  | .removeDirectory p => change fs (fs.removeDirectory p)
  | .rename p q => change fs (fs.rename p q)
  | .copy p q => change fs (fs.copy p q)
  | .setMode p m => change fs (fs.setMode p m)
  | .makeTemporary d =>
    match fs.makeTemporary d with
    | .ok (p, fs) => (.ok p, fs)
    | .error e => (.error e, fs)
  | .fill p c => change fs (fs.fill p c)
  | .write p c => change fs (fs.write p c)

end Call

inductive Script (α : Type) where
  | done (a : α)
  | call (c : Call) (next : c.Reply → Script α)

namespace Script

variable {α β γ : Type}

def bind (s : Script α) (f : α → Script β) : Script β :=
  match s with
  | done a => f a
  | call c next => call c fun r => (next r).bind f

instance : Monad Script where
  pure := done
  bind := bind

/-- A single call and its reply. -/
def ask (c : Call) : Script c.Reply := call c done

/-- The result and the tree in the end. -/
def run (fs : FileSystem) : Script α → α × FileSystem
  | done a => (a, fs)
  | call c next => (next (c.perform fs).1).run (c.perform fs).2

/-- The trees after each call, the one before the first call included. -/
def stages (fs : FileSystem) : Script α → List FileSystem
  | done _ => [fs]
  | call c next => fs :: (next (c.perform fs).1).stages (c.perform fs).2

@[simp] theorem run_done (fs : FileSystem) (a : α) : (done a).run fs = (a, fs) := rfl

@[simp] theorem run_pure (fs : FileSystem) (a : α) : (pure a : Script α).run fs = (a, fs) := rfl

@[simp] theorem run_ask (fs : FileSystem) (c : Call) :
    @run (no_index c.Reply) fs (ask c) = c.perform fs := rfl

@[simp] theorem run_bind (s : Script α) (f : α → Script β) (fs : FileSystem) :
    (s >>= f).run fs = (f (s.run fs).1).run (s.run fs).2 := by
  change (s.bind f).run fs = _
  induction s generalizing fs with
  | done a => rfl
  | call c next ih => exact ih _ _

theorem bind_done (s : Script α) : s.bind done = s := by
  induction s with
  | done a => rfl
  | call c next ih => simp only [bind, ih]

theorem bind_assoc (s : Script α) (f : α → Script β) (g : β → Script γ) :
    (s.bind f).bind g = s.bind fun a => (f a).bind g := by
  induction s with
  | done a => rfl
  | call c next ih => simp only [bind, ih]

instance : LawfulMonad Script := LawfulMonad.mk' Script
  bind_done
  (fun _ _ => rfl)
  bind_assoc

end Script
end Retrace
