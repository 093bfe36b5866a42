import Z80.Host

/-!
The ports of the flat machine: one of them is a console that collects every byte
written to it. Reads float high.
-/

namespace Z80

structure Console where
  port : Byte
  output : Array Byte

instance : Host Console where
  readPort _ _ c := .done (0xFF, c)
  writePort port _ value c :=
    .done (match c with
      | ⟨own, output⟩ => ⟨own, if port = own then output.push value else output⟩)

end Z80
