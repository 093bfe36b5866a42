/-!
Terminal control sequences are taken out of a text that is not read on a terminal,
and with them every control character that does not lay out text. Sequences start
with an escape and each kind has its own end; characters are judged by the bytes
that encode them.
-/

namespace Z80.ControlSequence

/-- The text between sequences, or a part of one kind of sequence. -/
inductive Place where
  | text
  | escape
  | escapeIntermediate
  /-- Numbers and a final letter, such as the ones that select a colour. -/
  | control
  | deviceEntry
  | deviceParameter
  | deviceIntermediate
  /-- Runs on to the byte 9C. -/
  | string
  /-- Runs on to a bell. -/
  | command
  deriving DecidableEq

def isLayout (c : Char) : Bool :=
  c = '\t' || c = '\n' || c = '\x0c' || c = '\r'

def isVisible (c : Char) : Bool :=
  (' ' ≤ c && c ≠ '\x7f') || isLayout c

namespace Place

/-- The place behind a character that is not shown. -/
def next (p : Place) (c : Char) : Place :=
  let intermediate := ' ' ≤ c && c ≤ '/'
  let parameter := '0' ≤ c && c ≤ '?'
  let final := '@' ≤ c && c ≤ '~'
  match p with
  | text => text
  | escape =>
    if intermediate then escapeIntermediate
    else if c = '[' then control
    else if c = ']' then command
    else if c = 'P' then deviceEntry
    else if c = 'X' || c = '^' || c = '_' then string
    else if parameter || final then text
    else escape
  | escapeIntermediate => if parameter || final then text else escapeIntermediate
  | control => if final then text else control
  | deviceEntry =>
    if intermediate then deviceIntermediate
    else if parameter then deviceParameter
    else if final then string
    else deviceEntry
  | deviceParameter =>
    if intermediate then deviceIntermediate
    else if final || '<' ≤ c && c ≤ '?' then string
    else deviceParameter
  | deviceIntermediate => if parameter || final then string else deviceIntermediate
  | string => if (String.utf8EncodeChar c).contains 0x9C then text else string
  | command => if c = '\x07' then text else command

def showsLayout : Place → Bool
  | text | escape | escapeIntermediate | control => true
  | _ => false

end Place

/-- A layout character inside a sequence suspends it: what follows is text up to the
next character that is not shown. Beyond ASCII such text also ends the sequence. -/
def stripFrom (place : Place) (suspended : Bool) : List Char → List Char
  | [] => []
  | c :: rest =>
    if (place = .text || suspended) && isVisible c then
      c :: stripFrom (if c.toNat < 0x80 then place else .text) suspended rest
    else if c = '\x1b' then stripFrom .escape false rest
    else if c = '\x18' || c = '\x1a' then stripFrom .text false rest
    else if place.showsLayout && isLayout c then c :: stripFrom place true rest
    else stripFrom (place.next c) false rest

def strip (text : String) : String :=
  .ofList (stripFrom .text false text.toList)

end Z80.ControlSequence
