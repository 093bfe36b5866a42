import Z80.Interrupt.Handshake

/-!
What surrounds the processor: its ports and the lines that tell of a halt. A
host may use the handshake wherever it is called.
-/

namespace Z80

/-- A port access carries the port number and the byte on the upper half of the
address bus. -/
class Host (η : Type) where
  readPort : Byte → Byte → η → Reaction η (Byte × η)
  writePort : Byte → Byte → Byte → η → Reaction η
  halted : η → Reaction η := .done
  resumed : η → Reaction η := .done
  /-- Called once, when the host becomes part of a core. -/
  attach : η → η := id

/-- A system without ports: reads float high. -/
structure NoPorts where

instance : Host NoPorts where
  readPort _ _ h := .done (0xFF, h)
  writePort _ _ _ h := .done h

end Z80
