import EcmaPress.Charset
import EcmaPress.Path
import EcmaPress.Run.StreamError
import EcmaPress.SyntaxError

/-!
# Failures of a run

Why a run ends without success, with its message and its exit code.
-/

namespace EcmaPress

/-- Why a run fails. A file is named by its path as it is shown. -/
inductive Failure where
  | source (error : SyntaxError)
  | decode (error : DecodeError)
  | encode (error : EncodeError)
  | file (path : Path) (error : StreamError)
  | stream (error : StreamError)
  | interrupted
deriving DecidableEq, Repr

namespace Failure

/-- The message of a failure. -/
def message : Failure → String
  | .source error => error.message
  | .decode error => s!"read error: {error.message}"
  | .encode error => s!"write error: {error.message}"
  | .file path error => s!"{path.text}: {error.message}"
  | .stream error => error.message
  | .interrupted => "interrupted"

/-- The exit code of a program whose run fails. -/
def exitCode : Failure → Nat
  | .source _ | .decode _ | .encode _ => 1
  | .file _ error | .stream error => error.exitCode
  | .interrupted => 130

end Failure
end EcmaPress
