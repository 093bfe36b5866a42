import Z80.Core.Run
import Z80.Runner.Console
import Z80.Runner.Log

/-!
Runs a raw image on one of two machines: a Z80 with 64 KiB of memory and a console
port, or a Game Boy with the image as its cartridge and a serial port.
-/

namespace Z80

def Mode.ofName? : String → Option Mode
  | "z80" | "Z80" => some .z80
  | "gb" | "GB" | "gameboy" | "game-boy" => some .gameBoy
  | _ => none

def StopReason.name : StopReason → String
  | cycleBudget => "CycleBudget"
  | haltedWithInterruptsDisabled => "HaltedWithInterruptsDisabled"
  | haltedAwaitingInterrupt => "HaltedAwaitingInterrupt"

def Registers.line (r : Registers) : String :=
  let h (w : Word) := Hex.address w.toNat
  s!"PC={h r.pc} SP={h r.sp} AF={h r.af} BC={h r.bc} DE={h r.de} HL={h r.hl}"

namespace Runner

structure Options where
  mode : Mode
  image : Array Byte
  /-- Where the image is loaded and starts; the cartridge of a Game Boy has its own
  place. -/
  load : Word := 0
  /-- Ten seconds at 4 MHz. -/
  budget : Nat := 40000000
  /-- The console port of the Z80 machine. -/
  port : Byte := 1

structure Summary where
  output : Array Byte
  stop : StopReason
  registers : Registers
  clock : Nat
  stats : Cache.Stats

inductive RunFault where
  | imageTooLong (length : Nat) (load : Word)
  | map (fault : MapFault)
  | decode (fault : DecodeFault)
  /-- No time passes any more. -/
  | stalled
  deriving DecidableEq

def RunFault.message : RunFault → String
  | imageTooLong length load =>
    s!"image of {length} bytes does not fit at {Hex.address load.toNat}"
  | map fault => fault.message
  | decode fault => fault.message
  | stalled => "the machine came to a standstill"

abbrev Logged (α : Type) := List LogEntry × Except RunFault α

/-- Runs a core for the budget and collects what it did, with the given view of its
output. An undefined opcode is logged with the registers. -/
def collect {η : Type} [Host η] (budget : Nat) (output : Core η → Array Byte) (c : Core η) :
    Logged Summary :=
  match c.runFor budget with
  | .stopped stop c =>
    ([], .ok ⟨output c, stop, c.registers, c.clock, c.cache.stats⟩)
  | .fault fault c =>
    ([.error s!"{fault.message}: {c.registers.line}"], .error (.decode fault))
  | .waiting _ | .exhausted _ => ([], .error .stalled)

/-- The image at its load address, in two halves of read-write memory. -/
def flatSegments (image : Array Byte) (load : Word) : List Segment :=
  let contents := .replicate load.toNat 0 ++ image
  [.ram 0 0x8000 contents, .ram 0x8000 0x8000 (contents.extract 0x8000 contents.size)]

def cartridgeSegments (image : Array Byte) : List Segment :=
  [.rom 0 0x8000 image, .ram 0x8000 0x7F00 #[], .serial]

def runFlat (o : Options) : Logged Summary :=
  if o.image.size > 0x10000 - o.load.toNat then
    ([], .error (.imageTooLong o.image.size o.load))
  else
    let loading := LogEntry.info
      s!"loading {o.image.size} byte Z80 image at {Hex.address o.load.toNat}"
    match Core.new .z80 .caching { pc := o.load } (flatSegments o.image o.load)
        (Console.mk o.port #[]) with
    | .error fault => ([loading], .error (.map fault))
    | .ok c =>
      let (log, result) := collect o.budget (fun c => c.machine.host.output) c
      (loading :: log, result)

def cartridgeLog (o : Options) : List LogEntry :=
  (if o.image.size > 0x8000 then
    [.warn s!"Game Boy image is {o.image.size} bytes; only the first 32 KiB are mapped"]
  else []) ++
  (if o.load ≠ 0 then [.warn "load address is ignored for Game Boy images"] else []) ++
  [.info s!"loading {o.image.size} byte Game Boy image"]

def runCartridge (o : Options) : Logged Summary :=
  match Core.new .gameBoy .caching .gameBoy (cartridgeSegments o.image) NoPorts.mk with
  | .error fault => (cartridgeLog o, .error (.map fault))
  | .ok c =>
    let (log, result) := collect o.budget (fun c => c.memory.serialOutput?.getD #[]) c
    (cartridgeLog o ++ log, result)

def run (o : Options) : Logged Summary :=
  match o.mode with
  | .z80 => runFlat o
  | .gameBoy => runCartridge o

end Runner
end Z80
