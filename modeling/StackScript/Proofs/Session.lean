import StackScript.Proofs.Machine.Concatenation
import StackScript.Proofs.Machine.Output
import StackScript.Session

/-!
# A session runs its lines one after the other

A session shows a prompt, reads a line and runs it, until a line says `quit`, is not a text, or is
missing. If every line ends, what it leaves behind is what running the lines one by one on the same
machine leaves, no matter how each of them ends. A line whose script does not end keeps the session:
no other prompt is shown and no other line is read.

* **`Lines`**: the lines of an input.
* **`Script.executeAll`**: scripts one after the other, whatever becomes of each.
* **`transcript`**: the prompts and what is printed after each of them.
* **`Recounts`** and **`BreaksOff`**: what a session comes to that ends, and one that does not.
* **`converse_eq_executeAll`**: a session does this and nothing else.
-/

namespace StackScript

open Session

/-! ## Scripts one after the other

What a script hands on to the next are the variables and the output. Everything else that it leaves
in the machine is set anew when the next one runs. -/

/-- Whether something has ended can be seen. -/
instance Outcome.decidableUnfinished {ε : Type} :
    (outcome : Outcome ε) → Decidable (outcome = .unfinished)
  | .finished => isFalse (by simp)
  | .failed _ => isFalse (by simp)
  | .unfinished => isTrue rfl

namespace Script

/-- The machine after some scripts; how each of them ends is ignored. -/
def executeAll (steps : Nat) (m : Machine) (sources : List String) : Machine :=
  sources.foldl (fun m source => (execute steps source m).2) m

/-- Scripts can be run in two batches. -/
theorem executeAll_append (steps : Nat) (m : Machine) (first second : List String) :
    executeAll steps m (first ++ second) = executeAll steps (executeAll steps m first) second :=
  List.foldl_append

/-- Each of the scripts comes to an end within the number of steps. -/
def AllEnd (steps : Nat) : Machine → List String → Prop
  | _, [] => True
  | m, source :: rest =>
    (execute steps source m).1 ≠ .unfinished ∧ AllEnd steps (execute steps source m).2 rest

/-- Scripts come to an end in two batches. -/
theorem allEnd_append {steps : Nat} {m : Machine} {first second : List String} :
    AllEnd steps m (first ++ second) ↔
      AllEnd steps m first ∧ AllEnd steps (executeAll steps m first) second := by
  induction first generalizing m with
  | nil => simp [AllEnd, executeAll]
  | cons source first ih =>
    show _ ∧ AllEnd steps _ (first ++ second) ↔ _
    rw [ih]
    exact and_assoc.symm

/-- Scripts can be tried out. -/
instance AllEnd.decidable (steps : Nat) :
    (m : Machine) → (sources : List String) → Decidable (AllEnd steps m sources)
  | _, [] => isTrue trivial
  | m, source :: rest =>
    have := AllEnd.decidable steps (execute steps source m).2 rest
    inferInstanceAs (Decidable (_ ∧ _))

/-- Two machines that a script cannot tell apart: what is left on their stacks, where they stand in
the code of an earlier script, and on which line, may be different. -/
structure Similar (m m' : Machine) : Prop where
  globals : m'.globals = m.globals
  output : m'.output = m.output

/-- A run starts with an empty stack at the start of the code. Only the line is left over. -/
theorem Similar.reset_eq {m m' : Machine} (h : Similar m m') :
    m'.reset = { m.reset with line := m'.line } := by
  unfold Machine.reset
  rw [h.globals, h.output]

/-- A script that cannot be compiled does not touch the machine. -/
theorem execute_of_compile_error {source : String} {e : Error}
    (h : Script.compile source = .error e) (steps : Nat) (m : Machine) :
    execute steps source m = (.failed e, m) := by
  unfold execute
  rw [h]

/-- A script does the same on two machines that it cannot tell apart, and leaves two such. -/
theorem Similar.execute {m m' : Machine} (h : Similar m m') (steps : Nat) (source : String) :
    (Script.execute steps source m').1 = (Script.execute steps source m).1 ∧
      Similar (Script.execute steps source m).2 (Script.execute steps source m').2 := by
  unfold Script.execute
  cases Script.compile source with
  | error e => exact ⟨rfl, h⟩
  | ok chunk =>
    -- the line that is left over is forgotten when the first instruction starts
    obtain ⟨line, hrun⟩ := Machine.exists_runFrom_line chunk steps m.reset m'.line
    show ((m'.run chunk steps).1.mapError Error.runtime = _) ∧ Similar _ (m'.run chunk steps).2
    unfold Machine.run
    rw [h.reset_eq, hrun]
    exact ⟨rfl, rfl, rfl⟩

/-- Scripts end on one machine if they do on another that they cannot tell from it. -/
theorem Similar.allEnd_iff {m m' : Machine} (h : Similar m m') {steps : Nat}
    {sources : List String} : AllEnd steps m' sources ↔ AllEnd steps m sources := by
  induction sources generalizing m m' with
  | nil => exact Iff.rfl
  | cons source rest ih =>
    obtain ⟨houtcome, hnext⟩ := h.execute steps source
    refine and_congr ?_ (ih hnext)
    rw [houtcome]

/-- A script that has come to an end does nothing more when it is given more steps. -/
theorem execute_add {steps : Nat} {source : String} {m : Machine}
    (h : (execute steps source m).1 ≠ .unfinished) (more : Nat) :
    execute (steps + more) source m = execute steps source m := by
  cases hcompile : Script.compile source with
  | error e => rw [execute_of_compile_error hcompile, execute_of_compile_error hcompile]
  | ok chunk =>
    rw [execute_of_compile hcompile] at h
    have hended : (m.run chunk steps).1 ≠ .unfinished := by
      intro hrun
      rw [hrun] at h
      exact h rfl
    rw [execute_of_compile hcompile, execute_of_compile hcompile]
    unfold Machine.run
    rw [Machine.runFrom_add hended]

/-- Scripts that come to an end do so with more steps. -/
theorem AllEnd.add {steps : Nat} {m : Machine} {sources : List String}
    (h : AllEnd steps m sources) (more : Nat) : AllEnd (steps + more) m sources := by
  induction sources generalizing m with
  | nil => trivial
  | cons source rest ih =>
    obtain ⟨hfirst, hrest⟩ := h
    show _ ≠ _ ∧ AllEnd _ _ rest
    rw [execute_add hfirst]
    exact ⟨hfirst, ih hrest⟩

end Script

namespace Session

/-! ## Lines

The program cuts its input at newlines as it goes. Here the lines are described for the input as a
whole, and shown to be the ones that the program reads. -/

def newline : UInt8 := '\n'.toUInt8

/-- The lines of an input. All of them end in a newline, except that the last one may not. -/
inductive Lines : List (List UInt8) → List UInt8 → Prop where
  | none : Lines [] []
  | last {line : List UInt8} : line ≠ [] → newline ∉ line → Lines [line] line
  | cons {line rest : List UInt8} {lines : List (List UInt8)} : newline ∉ line →
      Lines lines rest → Lines ((line ++ [newline]) :: lines) (line ++ newline :: rest)

/-- The bytes of a line before its end are those that the program reads. -/
theorem isLineByte_of_mem {line : List UInt8} (h : newline ∉ line) {byte : UInt8}
    (hbyte : byte ∈ line) : isLineByte byte = true := by
  have hne : byte ≠ newline := by
    rintro rfl
    exact h hbyte
  simpa [isLineByte, newline] using hne

theorem takeWhile_line {line : List UInt8} (h : newline ∉ line) (rest : List UInt8) :
    (line ++ newline :: rest).takeWhile isLineByte = line := by
  rw [List.takeWhile_append_of_pos fun _ => isLineByte_of_mem h]
  simp [isLineByte, newline]

theorem dropWhile_line {line : List UInt8} (h : newline ∉ line) (rest : List UInt8) :
    (line ++ newline :: rest).dropWhile isLineByte = newline :: rest := by
  rw [List.dropWhile_append_of_pos fun _ => isLineByte_of_mem h]
  simp [isLineByte, newline]

/-- The first line is read with its newline. -/
theorem firstLine_line {line : List UInt8} (h : newline ∉ line) (rest : List UInt8) :
    firstLine (line ++ newline :: rest) = line ++ [newline] := by
  rw [firstLine, takeWhile_line h, dropWhile_line h]
  rfl

/-- What is left is the input after the newline. -/
theorem afterLine_line {line : List UInt8} (h : newline ∉ line) (rest : List UInt8) :
    afterLine (line ++ newline :: rest) = rest := by
  rw [afterLine, dropWhile_line h]
  rfl

theorem dropWhile_last {line : List UInt8} (h : newline ∉ line) :
    line.dropWhile isLineByte = [] := by
  apply List.dropWhile_eq_nil_iff.mpr
  intro byte hbyte
  exact isLineByte_of_mem h hbyte

/-- A last line need not have a newline. -/
theorem firstLine_last {line : List UInt8} (h : newline ∉ line) : firstLine line = line := by
  have hwhole := firstLine_append_afterLine line
  rw [afterLine, dropWhile_last h] at hwhole
  simpa using hwhole

theorem afterLine_last {line : List UInt8} (h : newline ∉ line) : afterLine line = [] := by
  rw [afterLine, dropWhile_last h]
  rfl

/-- An input is its first line and the lines after that, and nothing only if it has no lines. -/
theorem Lines.cases {lines : List (List UInt8)} {input : List UInt8} (h : Lines lines input) :
    (lines = [] ∧ input = []) ∨
      ∃ rest, lines = firstLine input :: rest ∧ Lines rest (afterLine input) ∧ input ≠ [] ∧
        firstLine input ≠ [] := by
  cases h with
  | none => exact .inl ⟨rfl, rfl⟩
  | last hne hline =>
    rw [firstLine_last hline, afterLine_last hline]
    exact .inr ⟨[], rfl, .none, hne, hne⟩
  | @cons line rest lines hline hrest =>
    rw [firstLine_line hline, afterLine_line hline]
    exact .inr ⟨lines, rfl, hrest, by simp, by simp⟩

/-- Every input has lines. -/
theorem exists_lines (input : List UInt8) : ∃ lines, Lines lines input := by
  induction hlength : input.length using Nat.strongRecOn generalizing input with
  | ind length ih =>
    by_cases hmem : newline ∈ input
    · obtain ⟨line, rest, rfl, hline⟩ := List.eq_append_cons_of_mem hmem
      obtain ⟨lines, hlines⟩ := ih rest.length (by rw [← hlength]; simp; omega) rest rfl
      exact ⟨_, .cons hline hlines⟩
    · cases input with
      | nil => exact ⟨[], .none⟩
      | cons byte rest => exact ⟨[byte :: rest], .last (List.cons_ne_nil _ _) hmem⟩

/-- The bytes of a text, ended by a newline. -/
def typed (text : String) : List UInt8 :=
  Text.encode text ++ [newline]

/-- What is typed line by line has these lines. -/
theorem lines_typed {texts : List String} (h : ∀ text ∈ texts, newline ∉ Text.encode text) :
    Lines (texts.map typed) (texts.flatMap typed) := by
  induction texts with
  | nil => exact .none
  | cons text texts ih =>
    rw [List.forall_mem_cons] at h
    rw [List.flatMap_cons, typed, List.append_assoc]
    exact .cons h.1 (ih h.2)

/-- An input has only one decomposition into lines. -/
theorem Lines.unique {lines lines' : List (List UInt8)} {input : List UInt8}
    (h : Lines lines input) (h' : Lines lines' input) : lines' = lines := by
  induction lines generalizing input lines' with
  | nil =>
    obtain ⟨-, rfl⟩ | ⟨rest, hcons, -⟩ := h.cases
    · obtain ⟨rfl, -⟩ | ⟨rest, -, -, hne, -⟩ := h'.cases
      · rfl
      · contradiction
    · cases hcons
  | cons line lines ih =>
    obtain ⟨hnil, -⟩ | ⟨rest, hcons, hrest, hne, -⟩ := h.cases
    · cases hnil
    · cases hcons
      obtain ⟨-, rfl⟩ | ⟨rest', rfl, hrest', -⟩ := h'.cases
      · contradiction
      · rw [ih hrest hrest']

/-! ## What the lines say

A line is a script unless it is blank, says `quit`, or is not a text at all. -/

/-- What a line says, without the blanks around it; nothing if it is not a text. -/
def said? (line : List UInt8) : Option String :=
  (Text.decode? line).map Text.trimBlanks

/-- Whether a session goes on after a line. -/
def goesOn (line : List UInt8) : Bool :=
  (said? line).any (· ≠ "quit")

/-- The scripts in some lines; there is none in a blank line. -/
def sources (lines : List (List UInt8)) : List String :=
  (lines.filterMap said?).filter (· ≠ "")

/-- The scripts of some lines start with that of the first, if it has one. -/
theorem sources_cons (line : List UInt8) (lines : List (List UInt8)) :
    sources (line :: lines) = sources [line] ++ sources lines := by
  unfold sources
  rw [← List.filter_append, ← List.filterMap_append]
  rfl

/-- A line after which a session may go on is blank or holds one script. -/
theorem cases_of_goesOn {line : List UInt8} (h : goesOn line = true) :
    said? line = some "" ∧ sources [line] = [] ∨
      ∃ source, said? line = some source ∧ source ≠ "" ∧ source ≠ "quit" ∧
        sources [line] = [source] := by
  unfold goesOn at h
  unfold sources
  cases hsaid : said? line with
  | none => simp [hsaid] at h
  | some source =>
    have hquit : source ≠ "quit" := by simpa [hsaid] using h
    by_cases hblank : source = ""
    · exact .inl ⟨by rw [hblank], by simp [hsaid, hblank]⟩
    · exact .inr ⟨source, rfl, hblank, hquit, by simp [hsaid, hblank]⟩

/-- The prompts before some lines, each with what its line prints. -/
def transcript (steps : Nat) (m : Machine) : List (List UInt8) → List UInt8
  | [] => []
  | line :: lines =>
    let m' := Script.executeAll steps m (sources [line])
    Text.encode prompt ++ m'.output.written.toList.drop m.output.written.size ++
      transcript steps m' lines

/-! ## Turns

How a session answers one line, when its screen has room for everything. -/

/-- A session that shows a text, if there is room for it. -/
def saying (s : Session) (text : String) : Session :=
  (s.say text).2

/-- A session that runs the scripts of a line. -/
def hear (steps : Nat) (s : Session) (line : List UInt8) : Session :=
  (sources [line]).foldl (fun s source => (s.execute steps source).2) s

section Say

variable {s : Session} (hroom : s.screen.room = none)

include hroom

/-- Everything fits on the screen. -/
theorem say_of_room (text : String) : s.say text = (true, s.saying text) := by
  have hfits : (s.say text).1 = true := by
    simp [say, Output.writeText, Output.write, Output.fitting, hroom]
  rw [← hfits]
  rfl

/-- The screen still has room for everything. -/
theorem room_saying (text : String) : (s.saying text).screen.room = none := by
  simp [saying, say, Output.writeText, Output.write, hroom]

/-- A text is shown after what was shown before. -/
theorem written_saying (text : String) :
    (s.saying text).screen.written.toList = s.screen.written.toList ++ Text.encode text := by
  simp [saying, say, Output.writeText, Output.write, Output.fitting, hroom]

end Say

/-- The session goes on after a script that has ended. -/
theorem Turn.after_of_ended {result : Outcome Script.Error × Session}
    (h : result.1 ≠ .unfinished) : Turn.after result = .goOn result.2 := by
  obtain ⟨outcome, s⟩ := result
  cases outcome with
  | finished => rfl
  | failed error => rfl
  | unfinished => exact absurd rfl h

/-- The session is unfinished as long as a script is. -/
theorem Turn.after_of_unfinished {result : Outcome Script.Error × Session}
    (h : result.1 = .unfinished) : Turn.after result = .ended .unfinished result.2 := by
  obtain ⟨outcome, s⟩ := result
  cases h
  rfl

section Answers

variable {steps : Nat} {s : Session} {line : List UInt8} (hne : line ≠ [])

include hne

/-- A line is answered by what it says. -/
theorem turn_of_said {said : String} (h : said? line = some said) (hquit : said ≠ "quit") :
    s.turn steps line = if said = "" then .goOn s else .after (s.execute steps said) := by
  unfold said? at h
  unfold turn
  rw [if_neg (by simpa using hne)]
  cases hdecode : Text.decode? line with
  | none => simp [hdecode] at h
  | some text =>
    have htext : Text.trimBlanks text = said := by simpa [hdecode] using h
    simp only [htext]
    split
    · contradiction
    · rfl
    · rename_i hblank
      rw [if_neg hblank]

/-- After a line whose script ends the session goes on. -/
theorem turn_of_allEnd (h : goesOn line = true)
    (hends : Script.AllEnd steps s.machine (sources [line])) :
    s.turn steps line = .goOn (s.hear steps line) := by
  unfold hear
  rcases cases_of_goesOn h with ⟨hsaid, hnone⟩ | ⟨source, hsaid, hscript, hquit, hone⟩
  · rw [turn_of_said hne hsaid (by decide), if_pos rfl, hnone]
    rfl
  · rw [hone] at hends
    rw [turn_of_said hne hsaid hquit, if_neg hscript, hone]
    exact Turn.after_of_ended hends.1

/-- A line whose script does not end keeps the session. -/
theorem turn_of_not_allEnd (h : goesOn line = true)
    (hends : ¬ Script.AllEnd steps s.machine (sources [line])) :
    s.turn steps line = .ended .unfinished (s.hear steps line) := by
  unfold hear
  rcases cases_of_goesOn h with ⟨-, hnone⟩ | ⟨source, hsaid, hscript, hquit, hone⟩
  · rw [hnone] at hends
    exact absurd trivial hends
  · have hrunning : (Script.execute steps source s.machine).1 = .unfinished := by
      rw [hone] at hends
      by_contra hended
      exact hends ⟨hended, trivial⟩
    rw [turn_of_said hne hsaid hquit, if_neg hscript, hone]
    exact Turn.after_of_unfinished hrunning

/-- The session ends where a line says `quit` or is not a text. -/
theorem turn_of_not_goesOn (h : goesOn line = false) :
    s.turn steps line =
      .ended (if (said? line).isSome then .finished else .failed .invalidText) s := by
  unfold goesOn said? at h
  unfold turn said?
  rw [if_neg (by simpa using hne)]
  cases hdecode : Text.decode? line with
  | none => rfl
  | some text =>
    have hquit : Text.trimBlanks text = "quit" := by simpa [hdecode] using h
    simp [hquit]

end Answers

/-! ### Sessions, line by line

The equations of `converse`: the input is over, its first line ends the session, the session goes on
after it, or it stays in it. -/

section Converse

variable {steps : Nat} {s : Session} (hroom : s.screen.room = none)

include hroom

/-- At the end of the input there is a last prompt and a newline. -/
theorem converse_nil : s.converse steps [] = (.finished, (s.saying prompt).saying "\n") := by
  have hend : (s.saying prompt).turn steps (firstLine []) =
      .ended .finished ((s.saying prompt).saying "\n") := by
    show (s.saying prompt).turn steps [] = _
    unfold turn
    rw [if_pos (show ([] : List UInt8).isEmpty = true from rfl), say_of_room (room_saying hroom _)]
    rfl
  rw [converse, say_of_room hroom]
  simp only [hend, if_true]

/-- After a line whose script ends the session goes on with the rest of the input. -/
theorem converse_of_allEnd {input : List UInt8} (hne : input ≠ [])
    (hline : firstLine input ≠ []) (h : goesOn (firstLine input) = true)
    (hends : Script.AllEnd steps s.machine (sources [firstLine input])) :
    s.converse steps input =
      ((s.saying prompt).hear steps (firstLine input)).converse steps (afterLine input) := by
  have hends : Script.AllEnd steps (s.saying prompt).machine (sources [firstLine input]) := hends
  rw [converse, say_of_room hroom]
  simp only [turn_of_allEnd hline h hends, if_true, dif_neg hne]

/-- The rest of the input is not looked at as long as the script of a line runs. -/
theorem converse_of_not_allEnd {input : List UInt8} (hline : firstLine input ≠ [])
    (h : goesOn (firstLine input) = true)
    (hends : ¬ Script.AllEnd steps s.machine (sources [firstLine input])) :
    s.converse steps input = (.unfinished, (s.saying prompt).hear steps (firstLine input)) := by
  have hends : ¬ Script.AllEnd steps (s.saying prompt).machine (sources [firstLine input]) := hends
  rw [converse, say_of_room hroom]
  simp only [turn_of_not_allEnd hline h hends, if_true]

/-- Nor is it after a line that ends the session. -/
theorem converse_of_not_goesOn {input : List UInt8} (hline : firstLine input ≠ [])
    (h : goesOn (firstLine input) = false) :
    s.converse steps input =
      (if (said? (firstLine input)).isSome then .finished else .failed .invalidText,
        s.saying prompt) := by
  rw [converse, say_of_room hroom]
  simp only [turn_of_not_goesOn hline h, if_true]

end Converse

/-! ## Whole sessions

Both accounts of a session are proved by induction over its lines: what is shown and what is left in
the machine before a line is generalized. -/

/-- Scripts are run on the machine, and what they add to its output is shown. -/
theorem exists_shown (steps : Nat) (scripts : List String) (s : Session) :
    ∃ printed,
      (Script.executeAll steps s.machine scripts).output.written =
        s.machine.output.written ++ printed ∧
      (scripts.foldl (fun s source => (s.execute steps source).2) s).machine =
        Script.executeAll steps s.machine scripts ∧
      (scripts.foldl (fun s source => (s.execute steps source).2) s).screen =
        s.screen.absorb printed := by
  induction scripts generalizing s with
  | nil =>
    refine ⟨#[], ?_, rfl, ?_⟩
    · simp [Script.executeAll]
    · simp [Output.absorb]
  | cons source scripts ih =>
    -- what the first script adds is shown before what the others add
    obtain ⟨first, hfirst⟩ := Script.exists_printed steps source s.machine
    obtain ⟨rest, hrest, hmachine, hscreen⟩ := ih (s.execute steps source).2
    have hnext : (s.execute steps source).2.machine =
        (Script.execute steps source s.machine).2 := rfl
    have hshown : (s.execute steps source).2.screen = s.screen.absorb first := by
      show s.screen.absorb ((Script.execute steps source s.machine).2.output.since _) = _
      rw [Output.since, hfirst]
      simp
    rw [hnext] at hrest
    refine ⟨first ++ rest, ?_, hmachine, ?_⟩
    · rw [← Array.append_assoc, ← hfirst]
      exact hrest
    · rw [List.foldl_cons, hscreen, hshown]
      simp [Output.absorb]

/-- What a line leaves behind: the machine, and on the screen what its script prints. -/
theorem hear_spec (steps : Nat) (s : Session) (line : List UInt8) :
    (s.hear steps line).machine = Script.executeAll steps s.machine (sources [line]) ∧
      (s.hear steps line).screen.room = s.screen.room ∧
      (s.hear steps line).screen.written.toList =
        s.screen.written.toList ++
          (Script.executeAll steps s.machine (sources [line])).output.written.toList.drop
            s.machine.output.written.size := by
  obtain ⟨printed, hprinted, hmachine, hscreen⟩ := exists_shown steps (sources [line]) s
  unfold hear
  refine ⟨hmachine, ?_, ?_⟩
  · rw [hscreen]
    rfl
  · rw [hscreen, hprinted]
    simp [Output.absorb]

/-- What comes of a session that ends at the given line, or else at the end of its input, and what
it says then. -/
def farewell : Option (List UInt8) → Outcome StreamError × String
  | none => (.finished, "\n")
  | some line => (if said? line = none then .failed .invalidText else .finished, "")

/-- What a session has come to, given the machine, the lines and what was shown before: it has run
the lines before the first one that ends it. -/
structure Recounts (steps : Nat) (m : Machine) (lines : List (List UInt8)) (shown : List UInt8)
    (result : Outcome StreamError × Session) : Prop where
  ending : result.1 = (farewell (lines.dropWhile goesOn).head?).1
  machine : result.2.machine = Script.executeAll steps m (sources (lines.takeWhile goesOn))
  screen : result.2.screen.written.toList =
    shown ++ transcript steps m (lines.takeWhile goesOn) ++ Text.encode prompt ++
      Text.encode (farewell (lines.dropWhile goesOn).head?).2

/-- What a session has come to that is still in one of its lines: the lines before it have ended,
and its own script has not. There is a prompt for it and none after it. -/
structure BreaksOff (steps : Nat) (m : Machine) (before : List (List UInt8)) (line : List UInt8)
    (shown : List UInt8) (result : Outcome StreamError × Session) : Prop where
  ended : Script.AllEnd steps m (sources before)
  running : ∃ source, sources [line] = [source] ∧
    (Script.execute steps source (Script.executeAll steps m (sources before))).1 = .unfinished
  ending : result.1 = .unfinished
  machine : result.2.machine = Script.executeAll steps m (sources (before ++ [line]))
  screen : result.2.screen.written.toList = shown ++ transcript steps m (before ++ [line])

/-- Induction over a session: the input is over, its first line ends the session, or the session
goes on after it. -/
@[elab_as_elim]
theorem Lines.turns
    {motive : (lines : List (List UInt8)) → (input : List UInt8) → Lines lines input → Prop}
    (empty : motive [] [] .none)
    (ended : ∀ input lines h, firstLine input ≠ [] → goesOn (firstLine input) = false →
      motive (firstLine input :: lines) input h)
    (goes : ∀ input lines h hrest, input ≠ [] → firstLine input ≠ [] →
      goesOn (firstLine input) = true → motive lines (afterLine input) hrest →
        motive (firstLine input :: lines) input h)
    {lines : List (List UInt8)} {input : List UInt8} (h : Lines lines input) :
    motive lines input h := by
  induction lines generalizing input with
  | nil =>
    obtain ⟨-, rfl⟩ | ⟨rest, hcons, -⟩ := h.cases
    · exact empty
    · cases hcons
  | cons line lines ih =>
    obtain ⟨hnil, -⟩ | ⟨rest, hcons, hrest, hne, hline⟩ := h.cases
    · cases hnil
    · cases hcons
      cases hgoes : goesOn (firstLine input) with
      | false => exact ended input lines h hline hgoes
      | true => exact goes input lines h hrest hne hline hgoes (ih hrest)

/-- A session in which every line ends has run them all. -/
theorem recounts_converse {lines : List (List UInt8)} {input : List UInt8}
    (hlines : Lines lines input) {steps : Nat} {s : Session} (hroom : s.screen.room = none)
    (hends : Script.AllEnd steps s.machine (sources (lines.takeWhile goesOn))) :
    Recounts steps s.machine lines s.screen.written.toList (s.converse steps input) := by
  induction hlines using Lines.turns generalizing s with
  | empty =>
    rw [converse_nil hroom]
    refine ⟨rfl, rfl, ?_⟩
    simp [written_saying (room_saying hroom _), written_saying hroom, transcript, farewell]
  | ended input lines _ hline hgoes =>
    -- the session ends with this line: there is a last prompt, and no script is run
    rw [converse_of_not_goesOn hroom hline hgoes]
    refine ⟨?_, ?_, ?_⟩
    · rw [List.dropWhile_cons_of_neg (by simp [hgoes])]
      cases hsaid : said? (firstLine input) <;> simp [farewell, hsaid]
    · rw [List.takeWhile_cons_of_neg (by simp [hgoes])]
      rfl
    · rw [List.takeWhile_cons_of_neg (by simp [hgoes]),
        List.dropWhile_cons_of_neg (by simp [hgoes]), written_saying hroom]
      simp [transcript, farewell]
      rfl
  | goes input lines _ _ hne hline hgoes ih =>
    -- a prompt, then what the script in the line prints, and then the rest of the session
    rw [List.takeWhile_cons_of_pos hgoes, sources_cons] at hends
    obtain ⟨hfirst, hends⟩ := Script.allEnd_append.mp hends
    obtain ⟨hmachine, hroom', hwritten⟩ := hear_spec steps (s.saying prompt) (firstLine input)
    rw [converse_of_allEnd hroom hne hline hgoes hfirst]
    have hrest := ih (hroom'.trans (room_saying hroom _)) (hmachine ▸ hends)
    rw [hmachine] at hrest
    refine ⟨?_, ?_, ?_⟩
    · rw [List.dropWhile_cons_of_pos hgoes]
      exact hrest.ending
    · rw [List.takeWhile_cons_of_pos hgoes, sources_cons, Script.executeAll_append]
      exact hrest.machine
    · rw [List.takeWhile_cons_of_pos hgoes, List.dropWhile_cons_of_pos hgoes, hrest.screen,
        hwritten, written_saying hroom]
      show _ = s.screen.written.toList ++ (Text.encode prompt ++ _ ++ _) ++ _ ++ _
      simp only [List.append_assoc]
      rfl

/-- A session in which not every line ends is in the first that does not. -/
theorem breaksOff_converse {lines : List (List UInt8)} {input : List UInt8}
    (hlines : Lines lines input) {steps : Nat} {s : Session} (hroom : s.screen.room = none)
    (hends : ¬ Script.AllEnd steps s.machine (sources (lines.takeWhile goesOn))) :
    ∃ before line after, lines.takeWhile goesOn = before ++ line :: after ∧
      BreaksOff steps s.machine before line s.screen.written.toList (s.converse steps input) := by
  induction hlines using Lines.turns generalizing s with
  | empty => exact absurd trivial hends
  | ended input lines _ hline hgoes =>
    rw [List.takeWhile_cons_of_neg (by simp [hgoes])] at hends
    exact absurd trivial hends
  | goes input lines _ _ hne hline hgoes ih =>
    rw [List.takeWhile_cons_of_pos hgoes]
    rw [List.takeWhile_cons_of_pos hgoes, sources_cons, Script.allEnd_append] at hends
    obtain ⟨hmachine, hroom', hwritten⟩ := hear_spec steps (s.saying prompt) (firstLine input)
    rw [written_saying hroom] at hwritten
    by_cases hfirst : Script.AllEnd steps s.machine (sources [firstLine input])
    · -- the line ends: the one that does not comes later
      have hlater : ¬ Script.AllEnd steps ((s.saying prompt).hear steps (firstLine input)).machine
          (sources (lines.takeWhile goesOn)) := by
        rw [hmachine]
        exact fun hrest => hends ⟨hfirst, hrest⟩
      obtain ⟨before, line, after, hsplit, hrest⟩ := ih (hroom'.trans (room_saying hroom _)) hlater
      rw [hmachine, hwritten] at hrest
      refine ⟨firstLine input :: before, line, after, by rw [hsplit]; rfl, ?_⟩
      rw [converse_of_allEnd hroom hne hline hgoes hfirst]
      refine ⟨?_, ?_, hrest.ending, ?_, ?_⟩
      · rw [sources_cons]
        exact Script.allEnd_append.mpr ⟨hfirst, hrest.ended⟩
      · obtain ⟨source, hone, hrunning⟩ := hrest.running
        refine ⟨source, hone, ?_⟩
        rw [sources_cons, Script.executeAll_append]
        exact hrunning
      · rw [List.cons_append, sources_cons, Script.executeAll_append]
        exact hrest.machine
      · rw [hrest.screen]
        show _ = s.screen.written.toList ++ (Text.encode prompt ++ _ ++ _)
        simp only [List.append_assoc]
        rfl
    · -- this is the line that does not end
      refine ⟨[], firstLine input, lines.takeWhile goesOn, rfl, ?_⟩
      rw [converse_of_not_allEnd hroom hline hgoes hfirst]
      refine ⟨trivial, ?_, rfl, hmachine, ?_⟩
      · obtain ⟨-, hnone⟩ | ⟨source, -, -, -, hone⟩ := cases_of_goesOn hgoes
        · rw [hnone] at hfirst
          exact absurd trivial hfirst
        · refine ⟨source, hone, ?_⟩
          by_contra hended
          rw [hone] at hfirst
          exact hfirst ⟨hended, trivial⟩
      · rw [hwritten]
        simp only [transcript, List.nil_append, List.append_nil, List.append_assoc]
        rfl

/-! ### What one line leaves for the next

Sessions on machines that a script cannot tell apart are the same, line by line. -/

/-- Two sessions that differ only in what is left of earlier scripts. -/
structure Similar (s s' : Session) : Prop where
  machine : Script.Similar s.machine s'.machine
  screen : s'.screen = s.screen
  diagnostics : s'.diagnostics = s.diagnostics

/-- The screens stay the same. -/
theorem Similar.saying {s s' : Session} (h : Similar s s') (text : String) :
    Similar (s.saying text) (s'.saying text) := by
  refine ⟨h.machine, ?_, h.diagnostics⟩
  show (s'.screen.writeText text).2 = (s.screen.writeText text).2
  rw [h.screen]

/-- A script shows and reports the same in both sessions. -/
theorem Similar.execute {s s' : Session} (h : Similar s s') (steps : Nat) (source : String) :
    Similar (s.execute steps source).2 (s'.execute steps source).2 := by
  obtain ⟨houtcome, hmachine⟩ := h.machine.execute steps source
  refine ⟨hmachine, ?_, ?_⟩
  · show s'.screen.absorb ((Script.execute steps source s'.machine).2.output.since
        s'.machine.output.written.size) = _
    rw [h.screen, hmachine.output, h.machine.output]
    rfl
  · show s'.diagnostics ++ Script.diagnostic (Script.execute steps source s'.machine).1 = _
    rw [h.diagnostics, houtcome]
    rfl

/-- So does a line. -/
theorem Similar.hear {s s' : Session} (h : Similar s s') (steps : Nat) (line : List UInt8) :
    Similar (s.hear steps line) (s'.hear steps line) := by
  unfold Session.hear
  induction sources [line] generalizing s s' with
  | nil => exact h
  | cons source rest ih => exact ih (h.execute steps source)

/-- A session does not depend on what earlier scripts have left besides variables and output. -/
theorem similar_converse {lines : List (List UInt8)} {input : List UInt8}
    (hlines : Lines lines input) (steps : Nat) {s s' : Session} (hroom : s.screen.room = none)
    (h : Similar s s') :
    (s'.converse steps input).1 = (s.converse steps input).1 ∧
      Similar (s.converse steps input).2 (s'.converse steps input).2 := by
  have hroom' : s'.screen.room = none := h.screen ▸ hroom
  induction hlines using Lines.turns generalizing s s' with
  | empty =>
    rw [converse_nil hroom, converse_nil hroom']
    exact ⟨rfl, (h.saying prompt).saying "\n"⟩
  | ended input lines _ hline hgoes =>
    rw [converse_of_not_goesOn hroom hline hgoes, converse_of_not_goesOn hroom' hline hgoes]
    exact ⟨rfl, h.saying prompt⟩
  | goes input lines _ _ hne hline hgoes ih =>
    have hnext := (h.saying prompt).hear steps (firstLine input)
    by_cases hends : Script.AllEnd steps s.machine (sources [firstLine input])
    · have hends' := h.machine.allEnd_iff.mpr hends
      rw [converse_of_allEnd hroom hne hline hgoes hends,
        converse_of_allEnd hroom' hne hline hgoes hends']
      have hroom := (hear_spec steps (s.saying prompt) (firstLine input)).2.1.trans
        (room_saying hroom _)
      exact ih hroom hnext (hnext.screen ▸ hroom)
    · -- neither session comes out of this line
      have hends' := mt h.machine.allEnd_iff.mp hends
      rw [converse_of_not_allEnd hroom hline hgoes hends,
        converse_of_not_allEnd hroom' hline hgoes hends']
      exact ⟨rfl, hnext⟩

/-! ### More steps

How many steps a line is given matters only if it needs more. -/

/-- Scripts that come to an end show the same when they are given more steps. -/
theorem foldl_execute_add {steps : Nat} {s : Session} {scripts : List String}
    (h : Script.AllEnd steps s.machine scripts) (more : Nat) :
    scripts.foldl (fun s source => (s.execute (steps + more) source).2) s =
      scripts.foldl (fun s source => (s.execute steps source).2) s := by
  induction scripts generalizing s with
  | nil => rfl
  | cons source scripts ih =>
    have hfirst : s.execute (steps + more) source = s.execute steps source := by
      unfold Session.execute
      rw [Script.execute_add h.1]
    rw [List.foldl_cons, List.foldl_cons, hfirst]
    exact ih h.2

/-- A session in which every script comes to an end is not changed by more steps. -/
theorem converse_add {lines : List (List UInt8)} {input : List UInt8}
    (hlines : Lines lines input) {steps : Nat} {s : Session} (hroom : s.screen.room = none)
    (hends : Script.AllEnd steps s.machine (sources (lines.takeWhile goesOn))) (more : Nat) :
    s.converse (steps + more) input = s.converse steps input := by
  induction hlines using Lines.turns generalizing s with
  | empty => rw [converse_nil hroom, converse_nil hroom]
  | ended input lines _ hline hgoes =>
    rw [converse_of_not_goesOn hroom hline hgoes, converse_of_not_goesOn hroom hline hgoes]
  | goes input lines _ _ hne hline hgoes ih =>
    rw [List.takeWhile_cons_of_pos hgoes, sources_cons] at hends
    obtain ⟨hfirst, hrest⟩ := Script.allEnd_append.mp hends
    obtain ⟨hmachine, hroom', -⟩ := hear_spec steps (s.saying prompt) (firstLine input)
    have hmore : Script.AllEnd (steps + more) s.machine (sources [firstLine input]) :=
      hfirst.add more
    have hsame : (s.saying prompt).hear (steps + more) (firstLine input) =
        (s.saying prompt).hear steps (firstLine input) :=
      foldl_execute_add (s := s.saying prompt) hfirst more
    rw [converse_of_allEnd hroom hne hline hgoes hmore,
      converse_of_allEnd hroom hne hline hgoes hfirst, hsame]
    exact ih (hroom'.trans (room_saying hroom _)) (hmachine ▸ hrest)

/-- **A session runs its lines one after the other.** Take any machine, and a screen that has room
for everything. If the script of every line before the first that says `quit` or is not a text comes
to an end, the session runs these scripts, ends, and leaves the machine as they do, however each of
them has ended; the steps that each line is given do not matter then. The screen shows a prompt
before each line and for the last time before the session ends, and after each prompt what the
script in its line has printed. If one of the scripts does not come to an end, neither does the
session: it has run the lines before, is in the first such line, and shows no prompt after it. A
line hands on variables and output to the next and nothing else, and one that cannot be compiled
hands on the machine as it was. -/
theorem converse_eq_executeAll (steps : Nat) (m : Machine) (input : List UInt8) :
    ∃ lines, (∀ other, Lines other input ↔ other = lines) ∧
      (Script.AllEnd steps m (sources (lines.takeWhile goesOn)) →
        Recounts steps m lines [] ((Session.start m none).converse steps input) ∧
          ∀ more, (Session.start m none).converse (steps + more) input =
            (Session.start m none).converse steps input) ∧
      (¬ Script.AllEnd steps m (sources (lines.takeWhile goesOn)) →
        ∃ before line after, lines.takeWhile goesOn = before ++ line :: after ∧
          BreaksOff steps m before line [] ((Session.start m none).converse steps input)) ∧
      (∀ m', Script.Similar m m' →
        ((Session.start m' none).converse steps input).1 =
            ((Session.start m none).converse steps input).1 ∧
          Similar ((Session.start m none).converse steps input).2
            ((Session.start m' none).converse steps input).2) ∧
      (∀ source m, ∃ printed,
        (Script.execute steps source m).2.output.written = m.output.written ++ printed) ∧
      (∀ source e m, Script.compile source = .error e →
        Script.execute steps source m = (.failed e, m)) := by
  obtain ⟨lines, hlines⟩ := exists_lines input
  have hroom : ∀ m, (Session.start m none).screen.room = none := fun _ => rfl
  refine ⟨lines, ?_, ?_, breaksOff_converse hlines (hroom m), ?_, Script.exists_printed steps, ?_⟩
  · intro other
    constructor
    · exact hlines.unique
    · rintro rfl
      exact hlines
  -- with this many steps every script ends, so more steps change nothing
  · intro hends
    exact ⟨recounts_converse hlines (hroom m) hends, converse_add hlines (hroom m) hends⟩
  -- the machines differ only in what the first script resets
  · intro m' hsimilar
    exact similar_converse hlines steps (hroom m) ⟨hsimilar, rfl, rfl⟩
  · intro source e m h
    exact Script.execute_of_compile_error h steps m

/-- A line that fails does not keep the next one from being run. -/
theorem converse_eq_executeAll_failing_line :
    Script.AllEnd 10 (.start (.ofRoom none))
        (sources ((["a;", "print 1;", "quit"].map typed).takeWhile goesOn)) ∧
      Recounts 10 (.start (.ofRoom none)) (["a;", "print 1;", "quit"].map typed) []
        ((Session.start (.start (.ofRoom none)) none).converse 10
          (["a;", "print 1;", "quit"].flatMap typed)) := by
  obtain ⟨lines, hunique, hrecounts, -⟩ := converse_eq_executeAll 10 (.start (.ofRoom none))
    (["a;", "print 1;", "quit"].flatMap typed)
  obtain rfl := (hunique _).mp (lines_typed (by decide +kernel))
  have hends : Script.AllEnd 10 (.start (.ofRoom none))
      (sources ((["a;", "print 1;", "quit"].map typed).takeWhile goesOn)) := by
    decide +kernel
  exact ⟨hends, (hrecounts hends).1⟩

/-! ## Endless lines

A script may run forever. Here it is a loop without a body, which changes nothing at all. -/

/-- The states of a machine in the code of `while (true) \x7b\x7d`: before its test, on either side
of the jump behind it, where the value of the test is on the stack, and before the jump back. -/
def Looping (m : Machine) : Prop :=
  m.ip = 0 ∧ m.stack = #[] ∨ m.ip = 1 ∧ m.stack = #[.bool true] ∨
    m.ip = 4 ∧ m.stack = #[.bool true] ∨ m.ip = 5 ∧ m.stack = #[]

/-- The machine goes round in the loop. -/
theorem exists_step_of_looping {chunk : Chunk}
    (hcode : chunk.code = #[2, 26, 0, 4, 4, 27, 0, 8, 4, 33]) (m : Machine) (h : Looping m) :
    ∃ next, Machine.step chunk m = .ok .running next ∧ Looping next := by
  obtain ⟨stack, globals, ip, line, output⟩ := m
  obtain ⟨code, lines, constants⟩ := chunk
  cases hcode
  obtain ⟨rfl, rfl⟩ | ⟨rfl, rfl⟩ | ⟨rfl, rfl⟩ | ⟨rfl, rfl⟩ := h
  · exact ⟨_, rfl, .inr (.inl ⟨rfl, rfl⟩)⟩
  · exact ⟨_, rfl, .inr (.inr (.inl ⟨rfl, rfl⟩))⟩
  · exact ⟨_, rfl, .inr (.inr (.inr ⟨rfl, rfl⟩))⟩
  · -- the distance back is counted from the end of the jump, which is at 8
    have hdecode : Instruction.decode #[2, 26, 0, 4, 4, 27, 0, 8, 4, 33] 5 = .ok (.loop 8) := rfl
    have hback : ∀ last, Machine.jumpBackward 8 ⟨#[], globals, 8, last, output⟩ =
        .ok () ⟨#[], globals, 0, last, output⟩ := by
      intro last
      rw [Machine.jumpBackward_apply]
      exact if_pos (Nat.le_refl 8)
    exact ⟨_, (Machine.step_of_decode hdecode).trans (bind_of_ok (hback _)), .inl ⟨rfl, rfl⟩⟩

/-- No number of steps is enough for the loop. -/
theorem unfinished_loop (steps : Nat) (m : Machine) :
    (Script.execute steps "while (true) \x7b\x7d" m).1 = .unfinished := by
  have hcode : ∀ chunk ∈ (Script.compile "while (true) \x7b\x7d").toOption,
      chunk.code = #[2, 26, 0, 4, 4, 27, 0, 8, 4, 33] := by
    decide +kernel
  obtain ⟨chunk, hchunk⟩ : ∃ chunk, Script.compile "while (true) \x7b\x7d" = .ok chunk :=
    Compile.exists_ok_of_isOk (by decide +kernel)
  have hstart : Looping m.reset := .inl ⟨rfl, rfl⟩
  have hrun : (m.run chunk steps).1 = .unfinished :=
    Machine.unfinished_of_steps (exists_step_of_looping (hcode chunk (by rw [hchunk]; rfl))) hstart
      steps
  rw [Script.execute_of_compile hchunk, hrun]
  rfl

/-- An endless line, one that prints, and one that ends the session. -/
def endlessTexts : List String :=
  ["while (true) \x7b\x7d", "print \"after\";", "quit"]

/-- A session does not always end, although a line says `quit`: an endless line before that one
keeps the session, however many steps it is given. -/
theorem endless_line_keeps_session :
    Lines (endlessTexts.map typed) (endlessTexts.flatMap typed) ∧
      (farewell ((endlessTexts.map typed).dropWhile goesOn).head?).1 = .finished ∧
      ∀ steps, ((Session.start (.start (.ofRoom none)) none).converse steps
          (endlessTexts.flatMap typed)).1 = .unfinished ∧
        ¬ Recounts steps (.start (.ofRoom none)) (endlessTexts.map typed) []
          ((Session.start (.start (.ofRoom none)) none).converse steps
            (endlessTexts.flatMap typed)) := by
  have hlines : Lines (endlessTexts.map typed) (endlessTexts.flatMap typed) :=
    lines_typed (by decide +kernel)
  have hquit : ((endlessTexts.map typed).dropWhile goesOn).head? = some (typed "quit") := by
    decide +kernel
  have hfarewell : (farewell ((endlessTexts.map typed).dropWhile goesOn).head?).1 = .finished := by
    have hsaid : said? (typed "quit") ≠ none := by decide +kernel
    rw [hquit, farewell, if_neg hsaid]
  have hsources : sources ((endlessTexts.map typed).takeWhile goesOn) =
      ["while (true) \x7b\x7d", "print \"after\";"] := by
    decide +kernel
  refine ⟨hlines, hfarewell, fun steps => ?_⟩
  -- the first script does not end, however many steps it is given
  have hends : ¬ Script.AllEnd steps (.start (.ofRoom none))
      (sources ((endlessTexts.map typed).takeWhile goesOn)) := by
    rw [hsources]
    exact fun hends => hends.1 (unfinished_loop steps _)
  obtain ⟨before, line, after, -, hbreaks⟩ :=
    breaksOff_converse (s := Session.start (.start (.ofRoom none)) none) hlines rfl hends
  refine ⟨hbreaks.ending, fun hrecounts => ?_⟩
  -- a session that recounts all lines has ended, but this one is still in its first line
  have hending := hrecounts.ending
  rw [hfarewell, hbreaks.ending] at hending
  cases hending

end Session

end StackScript
