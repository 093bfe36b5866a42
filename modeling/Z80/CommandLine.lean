import Z80.Runner.Run
import Z80.Text.Fixed
import Z80.Text.Numeral

/-!
The command line as a function of its arguments and the files they name: what goes
to each output and the exit code.
-/

namespace Z80.CommandLine

/-- Why a file cannot be read, in the words of the operating system. -/
inductive ReadFault where
  | notFound
  | denied
  | notDirectory
  | isDirectory
  | nameTooLong
  | other (text : String)

def ReadFault.message : ReadFault → String
  | notFound => "No such file or directory (os error 2)"
  | denied => "Permission denied (os error 13)"
  | notDirectory => "Not a directory (os error 20)"
  | isDirectory => "Is a directory (os error 21)"
  | nameTooLong => "File name too long (os error 36)"
  | other text => text

inductive Fault where
  | usage
  | unknownPlatform (name : String)
  | invalidAddress (text : String) (cause : NumeralFault)
  | unreadable (path : String) (cause : ReadFault)
  | run (fault : Runner.RunFault)

def Fault.message : Fault → String
  | usage => "usage: dynaz80 <z80|gb> <image> [load-address]"
  | unknownPlatform name => s!"unknown platform '{name}'. Supported: z80, gb"
  | invalidAddress text _ => s!"invalid load address '{text}'"
  | unreadable path _ => s!"failed to read image '{path}'"
  | run fault => fault.message

def Fault.cause? : Fault → Option String
  | invalidAddress _ cause => some cause.message
  | unreadable _ cause => some cause.message
  | usage | unknownPlatform _ | run _ => none

/-- The text that reports a fault, its cause below it. Names are shown as they were
given. -/
def Fault.report (f : Fault) : String :=
  let cause := match f.cause? with
    | some cause => "\n\nCaused by:\n" ++ Indent.block cause
    | none => ""
  "Error: " ++ f.message ++ cause ++ "\n"

structure Request where
  mode : Mode
  path : String
  load : Word

/-- Reads the arguments from the left; further ones are ignored. -/
def parse (args : List String) : Except Fault Request :=
  match args with
  | [] => .error .usage
  | name :: rest =>
    match Mode.ofName? name with
    | none => .error (.unknownPlatform name)
    | some mode =>
      match rest with
      | [] => .error .usage
      | [path] => .ok ⟨mode, path, 0⟩
      | path :: address :: _ =>
        match Numeral.parse address with
        | .error cause => .error (.invalidAddress address cause)
        | .ok load => .ok ⟨mode, path, load⟩

structure Outcome where
  code : UInt32
  stdout : Array Byte
  log : List LogEntry
  fault? : Option Fault

def Outcome.failed (log : List LogEntry) (f : Fault) : Outcome :=
  ⟨1, #[], log, some f⟩

/-- Output that does not end a line is completed to one. -/
def completeLine (output : Array Byte) : Array Byte :=
  if output.isEmpty || output.back? == some 0x0A then output else output.push 0x0A

def summaryLog (s : Runner.Summary) : List LogEntry :=
  let ratio := Fixed.ofFloat 1 (s.stats.hitRatio * 100)
  [.info (s!"stopped ({s.stop.name}) after {s.clock} T-states at " ++ s.registers.line),
   .info (s!"cache: {s.stats.compilations} compilations, {ratio}% hit ratio, " ++
     s!"{s.stats.invalidations} invalidations")]

def Request.execute (r : Request) (file : Except ReadFault (Array Byte)) : Outcome :=
  let running := LogEntry.info s!"Running image: '{r.path}'"
  match file with
  | .error cause => .failed [running] (.unreadable r.path cause)
  | .ok image =>
    match Runner.run { mode := r.mode, image := image, load := r.load } with
    | (log, .error fault) => .failed (running :: log) (.run fault)
    | (log, .ok s) => ⟨0, completeLine s.output, running :: log ++ summaryLog s, none⟩

/-- No file is read unless the arguments make a request. -/
def run (args : List String) (readFile : String → Except ReadFault (Array Byte)) : Outcome :=
  match parse args with
  | .error f => .failed [] f
  | .ok request => request.execute (readFile request.path)

/-- What the error output shows: the log, of which only errors are shown unless it
was asked for, and the report of a fault. -/
def Outcome.stderr (o : Outcome) (verbose : Bool) : String :=
  let shown := o.log.filter fun e => verbose || e.level == .error
  .join (shown.map LogEntry.render ++ o.fault?.toList.map Fault.report)

end Z80.CommandLine
