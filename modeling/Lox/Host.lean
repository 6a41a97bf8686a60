import Lox.Text.Utf8

/-!
  What a program reads and writes.

  Input is bytes, read line by line; output is text.  What lies outside of the program is left open, and
  given as its answers:

  * the clock is a sequence of readings, one for every time it is asked;
  * the sink, which takes the output, says for every text that is printed whether it takes all of it.
    Where it does not, it takes a front of the text and gives a cause, which becomes a part of the error
    (`Refusal`).  The next text may be taken again.

  So whatever is proved of every host holds for every clock and every sink.
-/

namespace Lox

/-- Why a text was not taken as a whole. -/
structure Refusal where
  /-- How many of its characters were taken before. -/
  taken : Nat
  /-- What the sink says about it. -/
  cause : String

/-- The front of a text that was taken. -/
def Refusal.front (r : Refusal) (text : String) : String := String.ofList (text.toList.take r.taken)

/-- What takes the output: for each text in turn, whether it refuses to take all of it. -/
def Sink : Type := Nat → Option Refusal

namespace Sink

/-- A sink that takes everything. -/
def whole : Sink := fun _ => none

/-- A sink that takes nothing any more. -/
def closed : Sink := fun _ => some ⟨0, "sink closed"⟩

/-- A flag says whether a sink is open. -/
instance : Coe Bool Sink := ⟨fun isOpen => if isOpen then whole else closed⟩

end Sink

/-- What a program can reach outside itself. -/
structure Host where
  /-- The bytes that have not been read. -/
  input : List UInt8
  /-- What has been printed, piece by piece. -/
  printed : Array String
  /-- What takes the pieces. -/
  sink : Sink
  /-- The readings of the clock, in milliseconds. -/
  clock : Nat → Int
  /-- How often the clock has been read. -/
  readings : Nat

namespace Host

/-- Splits bytes behind the first end of a line. -/
def splitLine : List UInt8 → List UInt8 × List UInt8
  | [] => ([], [])
  | b :: rest =>
    if b = 10 then ([b], rest)
    else
      let (line, after) := splitLine rest
      (b :: line, after)

/-- A line without its end, which is a newline or a carriage return and a newline. -/
def withoutLineEnd (line : List UInt8) : List UInt8 :=
  match line.reverse with
  | 10 :: 13 :: rest => rest.reverse
  | 10 :: rest => rest.reverse
  | _ => line

/-- The next line of the input, without its end; no bytes where the input is over. -/
def line (h : Host) : List UInt8 := withoutLineEnd (splitLine h.input).1

/-- The host with the next line of its input read. -/
def skipLine (h : Host) : Host := { h with input := (splitLine h.input).2 }

/-- What the sink says to the next text. -/
def refusal? (h : Host) : Option Refusal := h.sink h.printed.size

/-- The host after a text has been taken. -/
def print (h : Host) (text : String) : Host := { h with printed := h.printed.push text }

/-- All that has been printed. -/
def output (h : Host) : String := String.join h.printed.toList

/-- The present time in seconds. -/
def time (h : Host) : Float := Float.ofInt (h.clock h.readings) / 1000

/-- The host after its clock has been read. -/
def tick (h : Host) : Host := { h with readings := h.readings + 1 }

end Host

end Lox
