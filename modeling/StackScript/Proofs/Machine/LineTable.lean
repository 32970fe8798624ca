import StackScript.Proofs.Compile.ErrorOrder
import StackScript.Proofs.Compile.Recovery
import StackScript.Proofs.Machine.Concatenation
import StackScript.Proofs.Machine.StackHeight

/-!
# The line table

Code is emitted on the line of the token passed last, and tokens are only ever passed forward. So
the lines of the code follow those of the tokens, also where code is executed in another order than
it stands in the script, or is filled in later.

* **`Follows`**: a step appends code on the lines of tokens that it passes, in their order; all
  steps do.
* **`ignoresPrevious_program`**: the first code is emitted when a token has been passed.
* **`Chunk.Traces`**: the lines of a chunk lead back to the tokens.
* **`lines_trace`**: they do for every script, and so do the lines of errors.
-/

namespace StackScript

open Instruction (located offsets)

namespace Compile

/-! ## Lines along the tokens

Code is emitted with the line of the last token. Tokens are passed from left to right, so the lines
of the code come in the order of the tokens. -/

/-- The second state has passed more tokens and has more code. Each new byte is on the line of a
token, the one passed last when it was emitted, and those come in order. -/
def Follows (s t : State) : Prop :=
  ∃ (count : Nat) (positions : List Nat), t.cursor = s.cursor.skip count ∧
    positions.Pairwise (· ≤ ·) ∧ (∀ i ∈ positions, i ≤ count) ∧
    t.chunk.lines.toList =
      s.chunk.lines.toList ++ positions.map fun i => (s.cursor.skip i).previous.line

/-- Without new code only the cursor matters. -/
theorem follows_of_skip {s t : State} (count : Nat) (hcursor : t.cursor = s.cursor.skip count)
    (hlines : t.chunk.lines = s.chunk.lines) : Follows s t := by
  refine ⟨count, [], hcursor, .nil, List.forall_mem_nil _, ?_⟩
  rw [hlines, List.map_nil, List.append_nil]

/-- Code that comes later belongs to later tokens. -/
theorem Follows.trans {s t u : State} (hst : Follows s t) (htu : Follows t u) : Follows s u := by
  obtain ⟨count, positions, hcursor, hsorted, hbound, hlines⟩ := hst
  obtain ⟨count', positions', hcursor', hsorted', hbound', hlines'⟩ := htu
  refine ⟨count + count', positions ++ positions'.map (count + ·), ?_, ?_, ?_, ?_⟩
  · rw [hcursor', hcursor, Cursor.skip_skip]
  · rw [List.pairwise_append, List.pairwise_map]
    refine ⟨hsorted, hsorted'.imp fun h => Nat.add_le_add_left h count, ?_⟩
    -- all positions of the second part are behind those of the first
    intro i hi j hj
    obtain ⟨k, -, rfl⟩ := List.mem_map.mp hj
    have := hbound i hi
    omega
  · intro i hi
    rcases List.mem_append.mp hi with hi | hi
    · have := hbound i hi
      omega
    · obtain ⟨k, hk, rfl⟩ := List.mem_map.mp hi
      have := hbound' k hk
      omega
  · rw [hlines', hlines, List.map_append, List.append_assoc, List.map_map]
    congr 2
    apply List.map_congr_left
    intro k _
    rw [hcursor, Cursor.skip_skip]
    rfl

instance : Oblivious Follows where
  refl s := follows_of_skip 0 rfl rfl
  trans := Follows.trans
  advances s := follows_of_skip 1 rfl rfl
  synchronizes s := by
    obtain ⟨count, hcount⟩ := s.cursor.exists_skip_synchronize
    exact follows_of_skip count hcount rfl
  emits s chunk openJumps hlines := by
    obtain ⟨count, hlines⟩ := hlines
    refine ⟨0, List.replicate count 0, rfl, ?_, ?_, ?_⟩
    · exact List.pairwise_replicate.mpr (.inr (Nat.le_refl 0))
    · intro i hi
      exact Nat.le_of_eq (List.eq_of_mem_replicate hi)
    · show chunk.lines.toList = _
      rw [hlines, Array.toList_append, List.map_replicate]
      rfl
  records s e := follows_of_skip 0 rfl rfl
  rescopes s scope := follows_of_skip 0 rfl rfl

/-- A script passes a token before it emits any code. -/
theorem ignoresPrevious_program (bound : Nat) : IgnoresPrevious (program bound) := by
  intro s last token rest hahead
  have hend : (do advance; emit .ret : CompileM Unit) (s.past last (token :: rest)) =
      (do advance; emit .ret : CompileM Unit) s :=
    ignoresPrevious_advance.bind _ s last token rest hahead
  have hnext : nextKind (s.past last (token :: rest)).cursor.ahead = nextKind s.cursor.ahead := by
    rw [hahead]
    rfl
  unfold program
  cases bound with
  | zero => exact hend
  | succ bound =>
    cases hstop : decide (nextKind s.cursor.ahead = .eof) with
    | true =>
      rw [bind_of_ok (repeatUntil_of_stop (hnext ▸ hstop) _),
        bind_of_ok (repeatUntil_of_stop hstop _)]
      exact hend
    | false =>
      refine bind_apply_congr ?_
      rw [repeatUntil_succ (hnext ▸ hstop), repeatUntil_succ hstop]
      exact bind_apply_congr (ignoresPrevious_declaration _ s last token rest hahead)

/-- The lines of the code are those of tokens, in their order. -/
theorem exists_positions {tokens : List Token} (hne : tokens ≠ []) :
    ∃ positions : List Nat, positions.Pairwise (· ≤ ·) ∧
      (compile tokens).chunk.lines.toList =
        positions.map fun i => (tokenOrEnd tokens i).line := by
  obtain ⟨first, rest, rfl⟩ := List.exists_cons_of_ne_nil hne
  -- nothing changes if the first token has been passed before
  have hsame := ignoresPrevious_program (first :: rest).length (.start (first :: rest)) first first
    rest rfl
  have hprogram : Respects Follows (program (first :: rest).length) := respects_program _
  have hfollows := hprogram ((State.start (first :: rest)).past first (first :: rest))
  rw [hsame] at hfollows
  obtain ⟨count, positions, -, hsorted, -, hlines⟩ := hfollows
  -- with the first token passed, a position counts the tokens up to the one passed last
  refine ⟨positions.map (· - 1), ?_, ?_⟩
  · rw [List.pairwise_map]
    exact hsorted.imp fun h => Nat.sub_le_sub_right h 1
  · rw [compile_eq_endState, List.map_map]
    refine hlines.trans ?_
    apply List.map_congr_left
    intro i _
    cases i with
    | zero => rfl
    | succ i =>
      rw [Cursor.previous_skip_succ, Cursor.nth_eq]
      rfl

/-- Behind the last token it is the line of that token which counts. -/
theorem exists_mem_line {tokens : List Token} (hne : tokens ≠ []) (i : Nat) :
    ∃ token ∈ tokens, token.line = (tokenOrEnd tokens i).line := by
  unfold tokenOrEnd
  cases hget : tokens[i]? with
  | some token => exact ⟨token, List.mem_of_getElem? hget, rfl⟩
  | none =>
    -- behind the tokens the end of the script is on the line of the last one
    refine ⟨tokens.getLast hne, List.getLast_mem hne, ?_⟩
    rw [List.getLast?_eq_some_getLast hne]
    rfl

/-- The tokens of a text are on lines from the first one to that of the end. -/
theorem line_bounds {source : String} {body : List Token} {last : Nat}
    (h : Token.scan source = .ok (body ++ [.eof last])) :
    ∀ token ∈ body ++ [.eof last], 1 ≤ token.line ∧ token.line ≤ last := by
  have hlines := pairwise_lines_of_scans (scans_of_scan h)
  rw [List.pairwise_cons, List.map_append, List.pairwise_append] at hlines
  obtain ⟨hfirst, -, -, hlast⟩ := hlines
  intro token hmem
  refine ⟨hfirst _ (by rw [← List.map_append]; exact List.mem_map_of_mem hmem), ?_⟩
  rcases List.mem_append.mp hmem with hmem | hmem
  · exact hlast _ (List.mem_map_of_mem hmem) _ (List.mem_singleton_self _)
  · rw [List.mem_singleton.mp hmem]
    exact Nat.le_refl last

end Compile

/-! ## Lines of chunks

There is a line for every byte of the code, and all bytes of an instruction have the same. -/

/-- The lines of a chunk lead back to the tokens of its script, the end of which is on line
`last`. -/
structure Chunk.Traces (c : Chunk) (tokens : List Token) (ops : List Instruction) (last : Nat) :
    Prop where
  /-- Every byte has a line. -/
  size : c.lines.size = c.size
  /-- All bytes of an instruction are on one line. -/
  whole : ∀ t i, (t, i) ∈ located 0 ops → ∃ line, ∀ k < i.width, c.lines[t + k]? = some line
  ordered : c.lines.toList.Pairwise (· ≤ ·)
  found : ∀ line ∈ c.lines, ∃ token ∈ tokens, token.line = line
  ends : c.lines.back? = some last

/-- The line of an instruction is given once for each of its bytes. -/
theorem Chunk.Assembles.exists_line {c : Chunk} {code : List (Instruction × Nat)}
    (h : c.Assembles code) {t : Nat} {i : Instruction}
    (hi : (t, i) ∈ located 0 (code.map (·.1))) :
    ∃ line, ∀ k < i.width, c.lines[t + k]? = some line := by
  obtain ⟨before, line, after, rfl, rfl⟩ := Instruction.exists_append_of_located hi
  refine ⟨line, fun k hk => ?_⟩
  have hlines : c.lines.toList = Lowering.byteLines before ++
      (List.replicate i.width line ++ Lowering.byteLines after) := by
    rw [h.lines, Lowering.byteLines_append, Lowering.byteLines_cons]
  have hget := getElem?_of_toList hlines k
  rw [Nat.zero_add, ← Lowering.length_byteLines, hget,
    List.getElem?_append_left (by simpa using hk), List.getElem?_replicate, if_pos hk]

open StackScript.Tree Compile

/-- The chunk of a script without errors is the one that was compiled. -/
theorem chunk_of_result {c : Compilation} {chunk : Chunk} (h : c.result = .ok chunk) :
    c.chunk = chunk := by
  unfold Compilation.result at h
  split at h
  · exact Except.ok.inj h
  · cases h

/-- All that is said about the lines of a script that compiles. -/
theorem traces_of_compile {source : String} {script : Decls} {last : Nat}
    (hscan : Token.scan source = .ok (script.tokens ++ [.eof last]))
    (hfits : ScriptFits last script)
    (h : (compile (script.tokens ++ [.eof last])).result =
      .ok (Chunk.empty.extend (script.program last))) :
    (Chunk.empty.extend (script.program last)).Traces (script.tokens ++ [.eof last])
      (script.program last).ops last := by
  have hwell := wellFormed_of_fits hfits
  have hassembles := Chunk.assembles_extend_empty (script.program last)
  obtain ⟨hordered, hne⟩ := pairwise_lines_of_scan hscan
  obtain ⟨positions, hsorted, hlines⟩ := exists_positions hne
  rw [chunk_of_result h] at hlines
  refine ⟨hwell.lines, fun t i hi => hassembles.exists_line hi, ?_, ?_, ?_⟩
  · rw [hlines, List.pairwise_map]
    exact hsorted.imp fun hle => line_tokenOrEnd_le hordered hne hle
  · intro line hline
    rw [← Array.mem_toList_iff, hlines] at hline
    obtain ⟨i, -, rfl⟩ := List.mem_map.mp hline
    exact exists_mem_line hne i
  · have hreturn : (script.program last).code = (script.lower [] 0).code ++ [(.ret, last)] := rfl
    rw [← Array.getLast?_toList, hassembles.lines, hreturn, Lowering.byteLines_append]
    exact List.getLast?_concat

/-- **The line table leads back to the script.** In the chunk of a script every byte has a line,
the same one for all bytes of an instruction. The lines do not decrease along the code, each of them
is the line of a token, and the last one is that of the end of the script. So the line of an error
is always the line of a token, and never zero. -/
theorem lines_trace {source : String} {tokens : List Token} {chunk : Chunk}
    (hscan : Token.scan source = .ok tokens) (h : (compile tokens).result = .ok chunk) :
    ∃ ops last, chunk.instructions = .ok ops ∧ tokens.getLast? = some (.eof last) ∧
      chunk.Traces tokens ops last ∧
      ∀ (m : Machine) steps e m', m.run chunk steps = (.failed e, m') →
        (∃ token ∈ tokens, token.line = e.line) ∧ 1 ≤ e.line ∧ e.line ≤ last := by
  have hcompile := (Script.compile_eq_ok_of_scan hscan).mpr h
  obtain ⟨script, last, hscan', -, hfits, rfl⟩ := Script.compile_eq_ok_iff.mp hcompile
  obtain rfl : tokens = script.tokens ++ [.eof last] := Except.ok.inj (hscan.symm.trans hscan')
  have htraces := traces_of_compile hscan hfits h
  refine ⟨_, last, (wellFormed_of_fits hfits).instructions, List.getLast?_concat, htraces, ?_⟩
  intro m steps e m' hrun
  -- a run fails at an instruction, and the first byte of that has a line
  obtain ⟨height, hheights, hstart, -⟩ := flow_of_fits hfits
  obtain ⟨count, before, hreaches, -, hline⟩ := Machine.reaches_of_failed hrun
  obtain ⟨i, hi, -⟩ := (Machine.standing_of_reaches hfits hheights hstart hreaches).exists_decode
  obtain ⟨line, hbytes⟩ := htraces.whole _ i hi
  have hfirst := hbytes 0 i.width_pos
  rw [Nat.add_zero] at hfirst
  have hsame : e.line = line := by
    rw [← hline, Chunk.line, hfirst]
    rfl
  obtain ⟨token, hmem, htoken⟩ := htraces.found line (Array.mem_of_getElem? hfirst)
  rw [hsame, ← htoken]
  exact ⟨⟨token, hmem, rfl⟩, line_bounds hscan token hmem⟩

/-- The clauses of a loop are executed in another order, and the error is on the line behind it. -/
theorem lines_trace_loop :
    ∃ tokens chunk ops last e m',
      Token.scan "\x7b var a;\nfor (; a;\na = nil)\n\x7b \x7d print\n-a; \x7d\n" = .ok tokens ∧
      (compile tokens).result = .ok chunk ∧ chunk.instructions = .ok ops ∧
      chunk.Traces tokens ops last ∧
      (Machine.start (.ofRoom none)).run chunk 100 = (.failed e, m') ∧
      1 ≤ e.line ∧ e.line ≤ last := by
  have hcompiles : (Script.compile
      "\x7b var a;\nfor (; a;\na = nil)\n\x7b \x7d print\n-a; \x7d\n").isOk := by
    decide +kernel
  -- the script negates `nil`, on the last line but one
  have hfails : Script.Status.ofOutcome (Script.execute 100
      "\x7b var a;\nfor (; a;\na = nil)\n\x7b \x7d print\n-a; \x7d\n"
      (Machine.start (.ofRoom none))).1 = .runtimeError := by
    decide +kernel
  obtain ⟨chunk, hcompile⟩ := exists_ok_of_isOk hcompiles
  obtain ⟨script, _, hscan, -⟩ := Script.compile_eq_ok_iff.mp hcompile
  have hresult := (Script.compile_eq_ok_of_scan hscan).mp hcompile
  obtain ⟨ops, last, hops, -, htraces, hruns⟩ := lines_trace hscan hresult
  rw [Script.execute_of_compile hcompile] at hfails
  cases hrun : (Machine.start (.ofRoom none)).run chunk 100 with
  | mk outcome m' =>
    rw [hrun] at hfails
    cases outcome with
    | finished => cases hfails
    | unfinished => cases hfails
    | failed e =>
      refine ⟨_, chunk, ops, last, e, m', hscan, hresult, hops, htraces, hrun, ?_⟩
      exact (hruns _ _ e m' hrun).2

end StackScript
