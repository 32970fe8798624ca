import StackScript.Script
import StackScript.Text.Blank

/-!
# Sessions

A session reads lines and runs each of them as a script on one machine, so variables carry over
from line to line. It shows a prompt before it reads a line. A line that fails does not end the
session, but as long as a line runs no other is read: where the steps of a line do not suffice, the
session is unfinished.
-/

namespace StackScript

/-- Why a session breaks off. -/
inductive StreamError where
  /-- A line is not UTF-8. -/
  | invalidText
  /-- A prompt cannot be written. -/
  | outputFull
deriving DecidableEq

def StreamError.message : StreamError → String
  | invalidText => "stream did not contain valid UTF-8"
  | outputFull => outputFullMessage

structure Session where
  machine : Machine
  /-- What the user sees: prompts and printed lines. Its room counts for the prompts alone. -/
  screen : Output
  /-- The reports of the lines that failed. -/
  diagnostics : String

namespace Session

/-- A session on a machine, with the given room for prompts. -/
def start (machine : Machine) (promptRoom : Option Nat) : Session where
  machine := machine
  screen := .ofRoom promptRoom
  diagnostics := ""

/-- Shows a text and tells whether it fits. -/
def say (s : Session) (text : String) : Bool × Session :=
  let result := s.screen.writeText text
  (result.1, { s with screen := result.2 })

/-- Runs a script and shows what it prints. -/
def execute (steps : Nat) (s : Session) (source : String) : Outcome Script.Error × Session :=
  let count := s.machine.output.written.size
  let result := Script.execute steps source s.machine
  (result.1,
    { machine := result.2
      screen := s.screen.absorb (result.2.output.since count)
      diagnostics := s.diagnostics ++ Script.diagnostic result.1 })

/-- How a line leaves a session. -/
inductive Turn where
  | goOn (session : Session)
  | ended (outcome : Outcome StreamError) (session : Session)

/-- The session goes on after a script that has ended, however it has. -/
def Turn.after : Outcome Script.Error × Session → Turn
  | (.unfinished, s) => .ended .unfinished s
  | (_, s) => .goOn s

def prompt : String := "> "

/-- Answers a line. An empty line, which has not even an end, means that there is no more input. -/
def turn (steps : Nat) (s : Session) (line : List UInt8) : Turn :=
  if line.isEmpty then
    let result := s.say "\n"
    .ended (if result.1 then .finished else .failed .outputFull) result.2
  else
    match Text.decode? line with
    | none => .ended (.failed .invalidText) s
    | some text =>
      match Text.trimBlanks text with
      | "quit" => .ended .finished s
      | "" => .goOn s
      | source => .after (s.execute steps source)

/-! ### Lines

The input is read line by line; the last line may lack its newline. -/

def isLineByte (byte : UInt8) : Bool :=
  byte ≠ '\n'.toUInt8

/-- The first line with its end, or all of the input if there is no end of line. -/
def firstLine (input : List UInt8) : List UInt8 :=
  input.takeWhile isLineByte ++ (input.dropWhile isLineByte).take 1

/-- The input after the first line. -/
def afterLine (input : List UInt8) : List UInt8 :=
  (input.dropWhile isLineByte).drop 1

theorem firstLine_append_afterLine (input : List UInt8) :
    firstLine input ++ afterLine input = input := by
  rw [firstLine, afterLine, List.append_assoc, List.take_append_drop,
    List.takeWhile_append_dropWhile]

theorem length_afterLine_lt {input : List UInt8} (h : input ≠ []) :
    (afterLine input).length < input.length := by
  have hlen := congrArg List.length (firstLine_append_afterLine input)
  have hfirst : firstLine input ≠ [] := by
    cases input with
    | nil => contradiction
    | cons byte rest =>
      unfold firstLine
      cases hb : isLineByte byte <;> simp [hb]
  have := List.length_pos_iff.mpr hfirst
  simp only [List.length_append] at hlen
  omega

/-- Holds a session over all of the input: a prompt, a line, its answer, and so on. -/
def converse (steps : Nat) (s : Session) (input : List UInt8) : Outcome StreamError × Session :=
  let prompted := s.say prompt
  if prompted.1 then
    match prompted.2.turn steps (firstLine input) with
    | .ended outcome s => (outcome, s)
    | .goOn s => if _h : input = [] then (.finished, s) else converse steps s (afterLine input)
  else (.failed .outputFull, prompted.2)
termination_by input.length
decreasing_by exact length_afterLine_lt (by assumption)

end Session

end StackScript
