import Z80.Text.ControlSequence
import Z80.Text.Indent

/-!
What a run tells its user besides its output, by importance.
-/

namespace Z80

inductive LogLevel where
  | error | warn | info
  deriving DecidableEq

structure LogEntry where
  level : LogLevel
  text : String

namespace LogEntry

def info (text : String) : LogEntry := ⟨.info, text⟩

def warn (text : String) : LogEntry := ⟨.warn, text⟩

def error (text : String) : LogEntry := ⟨.error, text⟩

def render (e : LogEntry) : String :=
  let level := match e.level with
    | .error => "ERROR"
    | .warn => "WARN"
    | .info => "INFO"
  ControlSequence.strip (level ++ " " ++ Indent.hanging e.text ++ "\n")

end LogEntry
end Z80
