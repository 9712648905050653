import Retrace.Errno
import Retrace.Path
import Retrace.Text.Quoted

/-!
Reasons for which a file operation fails.
-/
namespace Retrace

inductive OsError
  | errno (e : Errno)
  /-- A name holds a zero byte, so that it cannot be passed on. -/
  | nulByte
  | invalidUtf8
  /-- The source of a copy is a directory. -/
  | notRegular
  /-- A failure on a path that the caller did not choose. -/
  | onPath (e : Errno) (p : Path)
  deriving DecidableEq, Repr

namespace OsError

def message : OsError → String
  | .errno e => e.message
  | .nulByte => "file name contained an unexpected NUL byte"
  | .invalidUtf8 => "stream did not contain valid UTF-8"
  | .notRegular => "the source path is neither a regular file nor a symlink to a regular file"
  | .onPath e p => e.message ++ " at path " ++ Text.quoted p.bytes

/-- Nothing stands where the path leads. -/
def isNotFound (e : OsError) : Bool := e = .errno .noEntry

end OsError
end Retrace
