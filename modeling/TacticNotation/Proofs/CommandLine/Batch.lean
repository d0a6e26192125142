import Mathlib.Data.List.DropRight
import TacticNotation.CommandLine.Run
import TacticNotation.Proofs.Grammar.Check

/-!
# Working on the lines of the input

Without a notation among its arguments the command works on its input line by line.
What it writes is what it would write for each line by itself, given as an operand,
one after the other.  A line that cannot be rendered ends the work, and what was
written for the lines before it stays written.

The input is read as a whole before the first line is worked on.  So nothing at all
is written if it is not text, even where only the last line is not.
-/

namespace TacticNotation

/-! ## Lines -/

/-- The characters of a line without the carriage return at its end. -/
def chomp (line : List Char) : List Char :=
  if line.getLast? = some '\r' then line.dropLast else line

/-- The pieces of a text between its line feeds, without the carriage returns that
stand before these.  The last piece has no line feed after it. -/
def endLines : List (List Char) → List (List Char)
  | [] => []
  | [last] => [last]
  | piece :: next :: pieces => chomp piece :: endLines (next :: pieces)

/-- A text less the blanks at both of its ends. -/
def trim (chars : List Char) : List Char :=
  (chars.dropWhile isBlank).rdropWhile isBlank

/-- The lines of a text of which something is left when they are trimmed. -/
def filledLines (text : String) : List String :=
  ((endLines (text.toList.splitOn '\n')).filter fun line => trim line ≠ []).map String.ofList

theorem trim_eq_nil_iff {chars : List Char} : trim chars = [] ↔ ∀ c ∈ chars, isBlank c = true := by
  rw [trim, List.rdropWhile_eq_nil_iff]
  constructor
  · intro h
    rw [← List.dropWhile_eq_nil_iff]
    by_contra hne
    -- The first character that is left is no blank.
    have hhead := List.head_dropWhile_not isBlank hne
    rw [h _ (List.head_mem hne)] at hhead
    cases hhead
  · exact fun h c hc => h c ((List.dropWhile_suffix isBlank).mem hc)

theorem isBlankLine_ofList (line : List Char) :
    isBlankLine (String.ofList line) = decide (trim line = []) := by
  rw [isBlankLine, String.toList_ofList, Bool.eq_iff_iff, List.all_eq_true, decide_eq_true_iff,
    trim_eq_nil_iff]

theorem dropReturn_reverse (line : List Char) : (dropReturn line).reverse = chomp line.reverse := by
  rw [chomp, List.getLast?_reverse, List.dropLast_reverse]
  cases line with
  | nil => rfl
  | cons c line =>
      by_cases hc : c = '\r'
      · rw [hc]
        rfl
      · rw [if_neg (by simpa using hc)]
        unfold dropReturn
        split
        · next heq => exact absurd (List.cons.inj heq).1 hc
        · rfl

theorem endLines_cons {pieces : List (List Char)} (h : pieces ≠ []) (piece : List Char) :
    endLines (piece :: pieces) = chomp piece :: endLines pieces := by
  cases pieces with
  | nil => exact absurd rfl h
  | cons next pieces => rfl

/-- The lines that are worked on, where `line` is what has been read of the first
one, last character first. -/
theorem filter_linesFrom {line : List Char} (hline : '\n' ∉ line) (chars : List Char) :
    (linesFrom line chars).filter (!isBlankLine ·) =
      ((endLines ((line.reverse ++ chars).splitOn '\n')).filter fun line => trim line ≠ []).map
        String.ofList := by
  induction chars generalizing line with
  | nil =>
      have hreverse : '\n' ∉ line.reverse := by rwa [List.mem_reverse]
      rw [linesFrom, List.append_nil, List.splitOn_eq_singleton hreverse, endLines]
      by_cases hne : line = []
      · rw [hne]
        rfl
      · rw [if_neg (by simpa using hne), List.filter_singleton, List.filter_singleton,
          isBlankLine_ofList]
        by_cases hblank : trim line.reverse = [] <;> simp [hblank]
  | cons c rest ih =>
      rw [linesFrom]
      by_cases hc : c = '\n'
      · have hreverse : '\n' ∉ line.reverse := by rwa [List.mem_reverse]
        rw [if_pos hc, hc, List.splitOn_append_cons_self_of_not_mem hreverse,
          endLines_cons (List.splitOn_ne_nil _ _), List.filter_cons, List.filter_cons,
          isBlankLine_ofList, dropReturn_reverse, ih List.not_mem_nil]
        by_cases hblank : trim (chomp line.reverse) = [] <;> simp [hblank]
      · have hcons : '\n' ∉ c :: line := by simpa [Ne.symm hc] using hline
        rw [if_neg hc, ih hcons, List.reverse_cons, List.append_assoc, List.singleton_append]

theorem filter_lines (text : String) :
    (lines text).filter (!isBlankLine ·) = filledLines text :=
  filter_linesFrom List.not_mem_nil text.toList

/-- Bytes are read as a text precisely if they are its bytes. -/
theorem fromUTF8?_eq_some_iff {bytes : ByteArray} {text : String} :
    String.fromUTF8? bytes = some text ↔ bytes = text.toUTF8 := by
  unfold String.fromUTF8?
  split
  · next h =>
    rw [Option.some.injEq]
    exact ⟨fun heq => heq ▸ rfl, fun heq => by subst heq; rfl⟩
  · next h =>
    refine ⟨fun hnone => absurd hnone (by simp), ?_⟩
    intro heq
    subst heq
    exact absurd text.isValidUTF8 h

namespace CommandLine

theorem sources?_of_input {input : ByteArray} {text : String} (h : input = text.toUTF8) :
    sources? none input = some (filledLines text) := by
  rw [sources?, fromUTF8?_eq_some_iff.2 h, Option.map_some, filter_lines]

theorem sources?_of_not_text {input : ByteArray} (h : ∀ text : String, input ≠ text.toUTF8) :
    sources? none input = none := by
  rw [sources?, Option.map_eq_none_iff]
  cases hread : String.fromUTF8? input with
  | none => rfl
  | some text => exact absurd (fromUTF8?_eq_some_iff.1 hread) (h text)

/-! ## One source after the other -/

section
variable {work : String → Except Problem String} {source : String} {colour : Bool}

theorem batch_cons_ok {result : String} (h : work source = .ok result) (sources : List String) :
    batch work (some (source :: sources)) colour =
      { batch work (some sources) colour with
        output := result ++ "\n" ++ (batch work (some sources) colour).output } := by
  rw [batch, inTurn, h, batch]
  rcases inTurn work sources with ⟨output, problem⟩
  cases problem <;> rfl

theorem batch_singleton_ok {result : String} (h : work source = .ok result) :
    batch work (some [source]) colour = .success (result ++ "\n") := by
  rw [batch_cons_ok h]
  simp [batch, inTurn, Report.success]

/-- What comes after a source that fails makes no difference. -/
theorem batch_cons_error {problem : Problem} (h : work source = .error problem)
    (sources : List String) :
    batch work (some (source :: sources)) colour = .ofProblem "" problem := by
  rw [batch, inTurn, h]

/-- The sources before the first one that fails are done, and what is written for
each of them by itself is written for them together. -/
theorem batch_cases (work : String → Except Problem String) (colour : Bool)
    (sources : List String) :
    ∃ done rest, sources = done ++ rest ∧
      (∀ source ∈ done, ∃ result, work source = .ok result) ∧
      (batch work (some sources) colour).output =
        String.join (done.map fun source => (batch work (some [source]) colour).output) ∧
      ((rest = [] ∧ (batch work (some sources) colour).code = 0) ∨
        ∃ source more problem, rest = source :: more ∧ work source = .error problem ∧
          (batch work (some sources) colour).code = 2) := by
  induction sources with
  | nil => exact ⟨[], [], rfl, by simp, rfl, Or.inl ⟨rfl, rfl⟩⟩
  | cons source sources ih =>
      cases hwork : work source with
      | error problem =>
          refine ⟨[], source :: sources, rfl, by simp, ?_, ?_⟩
          · rw [batch_cons_error hwork]
            rfl
          · rw [batch_cons_error hwork]
            exact Or.inr ⟨source, sources, problem, rfl, hwork, rfl⟩
      | ok result =>
          obtain ⟨done, rest, rfl, hdone, houtput, hend⟩ := ih
          refine ⟨source :: done, rest, rfl, ?_, ?_, ?_⟩
          · exact List.forall_mem_cons.2 ⟨⟨result, hwork⟩, hdone⟩
          · rw [batch_cons_ok hwork, List.map_cons, String.join_cons, batch_singleton_ok hwork,
              ← houtput]
            rfl
          · rw [batch_cons_ok hwork]
            exact hend

/-- If nothing can fail all sources are done. -/
theorem batch_of_forall_ok {result : String → String}
    (h : ∀ source, work source = .ok (result source)) (sources : List String) :
    batch work (some sources) colour =
      .success (String.join (sources.map fun source => result source ++ "\n")) := by
  induction sources with
  | nil => rfl
  | cons source sources ih =>
      rw [batch_cons_ok (h source), ih, List.map_cons, String.join_cons]
      rfl

end

/-! ## Sources that cannot be rendered -/

/-- A source is no notation, or its pattern is asked for and does not compile. -/
def Refused (table : ShorthandTable) (format : Format) (anchored : Bool) (source : String) :
    Prop :=
  (∃ problem, Notation.parse table source = .error problem) ∨
    ∃ form problem, Notation.parse table source = .ok form ∧ format = .regex ∧
      form.compile anchored = .error problem

/-- Rendering fails only where a pattern is asked for that does not compile. -/
theorem render_eq_error_iff {form : Notation} {format : Format} {anchored : Bool}
    {problem : Problem} :
    form.render format anchored = .error problem ↔
      format = .regex ∧ form.compile anchored = .error problem := by
  cases format with
  | regex =>
      rw [Notation.render, Notation.compiledText, Grammar.bind_eq_error_iff]
      simp
  | html => simp [Notation.render]
  | text => simp [Notation.render]
  | json => simp [Notation.render]

theorem refused_iff {table : ShorthandTable} {format : Format} {anchored : Bool}
    {source : String} :
    Refused table format anchored source ↔
      ∃ problem, renderLine table format anchored source = .error problem := by
  simp only [Refused, renderLine, Grammar.bind_eq_error_iff, render_eq_error_iff, exists_or]
  exact or_congr_right exists_comm

/-! ## A notation among the arguments -/

/-- Whether a command works on the input. -/
def Command.readsInput : Command → Bool
  | .render none _ _ | .substitute none => true
  | .render (some _) _ _ | .substitute (some _) | .check _ _ | .list => false

/-- The command that does with one source what a command does with the input. -/
def Command.on (source : String) : Command → Command
  | .render _ format anchored => .render (some source) format anchored
  | .substitute _ => .substitute (some source)
  | .check form text => .check form text
  | .list => .list

namespace Reading

/-- The arguments that ask for a command with the options that have been read. -/
def asking (reading : Reading) (command : Command) : Arguments where
  path := reading.after.path <|> reading.before.path
  verbose := reading.before.verbose || reading.after.verbose
  noColor := reading.before.noColor || reading.after.noColor
  command := some command

variable {reading : Reading} {asked : Arguments} {command : Command}

/-- What has been read asks for a command, and nothing is missing. -/
theorem finish_eq_ok_iff (hcommand : asked.command = some command) :
    reading.finish = .ok asked ↔
      reading.pending = none ∧ reading.helping = false ∧ asked = reading.asking command ∧
        ∃ subcommand, reading.subcommand = some subcommand ∧
          command? subcommand reading.after reading.operands = some command := by
  constructor
  · intro h
    unfold finish at h
    split at h
    · cases h
    · next hpending =>
      split at h
      · cases h
      · next hhelping =>
        split at h
        · cases h
          cases hcommand
        · next subcommand hsubcommand =>
          split at h
          · next command' hcommand' =>
            cases h
            cases hcommand
            exact ⟨by simpa using hpending, by simpa using hhelping, rfl, subcommand, hsubcommand,
              hcommand'⟩
          · cases h
  · rintro ⟨hpending, hhelping, rfl, subcommand, hsubcommand, hcommand'⟩
    simp [finish, asking, hpending, hhelping, hsubcommand, hcommand']

/-- A command with operands has its source among them, or needs none. -/
theorem readsInput_of_operands {subcommand : Subcommand} {given : Given} {operand : String}
    {operands : List String}
    (h : command? subcommand given (operand :: operands) = some command) :
    command.readsInput = false := by
  cases operands with
  | nil =>
      cases subcommand with
      | render =>
          cases h
          rfl
      | substitute =>
          cases h
          rfl
      | check => cases h
      | list => cases h
  | cons text operands =>
      cases operands with
      | nil =>
          cases subcommand with
          | check =>
              cases h
              rfl
          | render => cases h
          | substitute => cases h
          | list => cases h
      | cons => cases h

/-- A command that works on the input has no operand but could have one. -/
theorem command?_readsInput {subcommand : Subcommand} {given : Given} {operands : List String}
    (h : command? subcommand given operands = some command) (hinput : command.readsInput = true) :
    operands = [] ∧ 0 < subcommand.maxOperands ∧
      ∀ source, command? subcommand given [source] = some (command.on source) := by
  cases operands with
  | nil =>
      refine ⟨rfl, ?_⟩
      cases subcommand with
      | render =>
          cases h
          exact ⟨by decide, fun _ => rfl⟩
      | substitute =>
          cases h
          exact ⟨by decide, fun _ => rfl⟩
      | list =>
          cases h
          cases hinput
      | check => cases h
  | cons operand operands =>
      rw [readsInput_of_operands h] at hinput
      cases hinput

theorem step_operand {subcommand : Subcommand} (hhelping : reading.helping = false)
    (hsubcommand : reading.subcommand = some subcommand) (hoperands : reading.operands = [])
    (hmax : 0 < subcommand.maxOperands) (source : String) :
    { reading with literal := true }.step source =
      .ok { reading with literal := true, operands := [source] } := by
  simp [step, word, hhelping, hsubcommand, hoperands, hmax]

theorem step_dashes (hhelping : reading.helping = false) (hliteral : reading.literal = false)
    (hpending : reading.pending = none) :
    reading.step "--" = .ok { reading with literal := true } := by
  simp [step, hhelping, hliteral, hpending]

/-- After two dashes, if there were none, a source can follow as an operand. -/
theorem exists_operand (h : reading.finish = .ok asked) (hcommand : asked.command = some command)
    (hinput : command.readsInput = true) :
    ∃ dashes, (dashes = [] ∨ dashes = ["--"]) ∧ ∀ source, ∃ reading',
      (dashes ++ [source]).foldlM step reading = .ok reading' ∧
        reading'.finish = .ok { asked with command := some (command.on source) } := by
  obtain ⟨hpending, hhelping, rfl, subcommand, hsubcommand, hgiven⟩ :=
    (finish_eq_ok_iff hcommand).1 h
  obtain ⟨hoperands, hmax, hon⟩ := command?_readsInput hgiven hinput
  have hfinish (source : String) :
      { reading with literal := true, operands := [source] }.finish =
        .ok { reading.asking command with command := some (command.on source) } :=
    (finish_eq_ok_iff rfl).2 ⟨hpending, hhelping, rfl, subcommand, hsubcommand, hon source⟩
  have hstep := step_operand hhelping hsubcommand hoperands hmax
  cases hliteral : reading.literal with
  | true =>
      have hsame : { reading with literal := true } = reading := by rw [← hliteral]
      rw [hsame] at hstep
      refine ⟨[], Or.inl rfl, fun source => ⟨_, ?_, hfinish source⟩⟩
      rw [List.nil_append, List.foldlM_cons, hstep]
      rfl
  | false =>
      refine ⟨["--"], Or.inr rfl, fun source => ⟨_, ?_, hfinish source⟩⟩
      rw [List.singleton_append, List.foldlM_cons, step_dashes hhelping hliteral hpending]
      simp only [bind, Except.bind, List.foldlM_cons, hstep]
      rfl

end Reading

variable {arguments : List String} {surroundings : Surroundings} {asked : Arguments}
  {config : Config}

theorem run_of_read {command : Command} (hread : readArguments arguments = .ok asked)
    (hcommand : asked.command = some command)
    (hload : Config.load (surroundings.directory asked.path) = .ok config) :
    run arguments surroundings =
      perform command config surroundings.input asked.verbose
        (!(asked.noColor || surroundings.noColor)) := by
  simp only [run, hread, hcommand, hload]

/-- The same arguments with a source for an operand after them do with the source
what they do with the input. -/
theorem exists_run_operand {command : Command} (hread : readArguments arguments = .ok asked)
    (hcommand : asked.command = some command) (hinput : command.readsInput = true)
    (hload : Config.load (surroundings.directory asked.path) = .ok config) :
    ∃ dashes, (dashes = [] ∨ dashes = ["--"]) ∧ ∀ source,
      run (arguments ++ (dashes ++ [source])) surroundings =
        perform (command.on source) config surroundings.input asked.verbose
          (!(asked.noColor || surroundings.noColor)) := by
  obtain ⟨reading, hreading, hfinish⟩ := Grammar.bind_eq_ok_iff.1 hread
  obtain ⟨dashes, hdashes, hall⟩ := reading.exists_operand hfinish hcommand hinput
  refine ⟨dashes, hdashes, fun source => ?_⟩
  obtain ⟨reading', hfold, hfinish'⟩ := hall source
  have hread' : readArguments (arguments ++ (dashes ++ [source])) =
      .ok { asked with command := some (command.on source) } := by
    rw [readArguments, List.foldlM_append]
    exact Grammar.bind_eq_ok_iff.2
      ⟨reading', Grammar.bind_eq_ok_iff.2 ⟨reading, hreading, hfold⟩, hfinish'⟩
  rw [run_of_read hread' rfl hload]

/-- Without a notation among its arguments the command works on the lines of the
input that are left when they are trimmed.  To render them is to write what is
written for each of them by itself, up to the first that is no notation or whose
pattern is asked for and does not compile; to expand them is to write each of them
expanded.  If the input is not text nothing is written. -/
theorem run_line_by_line (hread : readArguments arguments = .ok asked)
    (hload : Config.load (surroundings.directory asked.path) = .ok config) :
    (∀ format anchored (text : String), asked.command = some (.render none format anchored) →
      surroundings.input = text.toUTF8 →
      ∃ dashes done rest, (dashes = [] ∨ dashes = ["--"]) ∧ filledLines text = done ++ rest ∧
        (∀ line ∈ done, ¬ Refused config.table (format.getD config.render.format)
          (anchored || config.render.anchored) line) ∧
        (run arguments surroundings).output = String.join (done.map fun line =>
          (run (arguments ++ (dashes ++ [line])) surroundings).output) ∧
        ((rest = [] ∧ (run arguments surroundings).code = 0) ∨
          ∃ line more, rest = line :: more ∧
            Refused config.table (format.getD config.render.format)
              (anchored || config.render.anchored) line ∧
            (run arguments surroundings).code = 2)) ∧
    (∀ text : String, asked.command = some (.substitute none) →
      surroundings.input = text.toUTF8 →
      (run arguments surroundings).output = String.join ((filledLines text).map fun line =>
        config.table.apply line ++ "\n") ∧
      (run arguments surroundings).code = 0) ∧
    ((∀ text : String, surroundings.input ≠ text.toUTF8) →
      (asked.command = some (.substitute none) ∨
        ∃ format anchored, asked.command = some (.render none format anchored)) →
      (run arguments surroundings).output = "" ∧ (run arguments surroundings).code = 2) := by
  refine ⟨?_, ?_, ?_⟩
  · intro format anchored text hcommand htext
    obtain ⟨dashes, hdashes, hsingle⟩ := exists_run_operand hread hcommand rfl hload
    obtain ⟨done, rest, hlines, hdone, houtput, hend⟩ :=
      batch_cases (renderLine config.table (format.getD config.render.format)
        (anchored || config.render.anchored)) (!(asked.noColor || surroundings.noColor))
        (filledLines text)
    have hrun := run_of_read hread hcommand hload
    rw [perform, sources?_of_input htext] at hrun
    refine ⟨dashes, done, rest, hdashes, hlines, ?_, ?_, ?_⟩
    · intro line hline hrefused
      obtain ⟨problem, hproblem⟩ := refused_iff.1 hrefused
      obtain ⟨result, hresult⟩ := hdone line hline
      rw [hresult] at hproblem
      cases hproblem
    · rw [hrun, houtput]
      simp only [hsingle]
      rfl
    · rw [hrun]
      rcases hend with ⟨hrest, hcode⟩ | ⟨line, more, problem, hrest, hproblem, hcode⟩
      · exact Or.inl ⟨hrest, hcode⟩
      · exact Or.inr ⟨line, more, hrest, refused_iff.2 ⟨problem, hproblem⟩, hcode⟩
  · intro text hcommand htext
    rw [run_of_read hread hcommand hload, perform, sources?_of_input htext,
      batch_of_forall_ok fun _ => rfl]
    exact ⟨rfl, rfl⟩
  · rintro htext (hcommand | ⟨format, anchored, hcommand⟩)
    · rw [run_of_read hread hcommand hload, perform, sources?_of_not_text htext]
      exact ⟨rfl, rfl⟩
    · rw [run_of_read hread hcommand hload, perform, sources?_of_not_text htext]
      exact ⟨rfl, rfl⟩

/-- A blank line is passed over, and a line that is no notation ends the work after
the first line has been written.  With a byte at the end of the input that is no
text nothing is written. -/
theorem run_line_by_line_refused :
    let text := "@x\r\n \n\x7b+ @y\n@z"
    let surroundings : Surroundings := ⟨fun _ _ => .missing, text.toUTF8, true⟩
    let garbled : Surroundings := ⟨fun _ _ => .missing, text.toUTF8.push 0xff, true⟩
    filledLines text = ["@x", "\x7b+ @y", "@z"] ∧
      (∃ dashes done rest, (dashes = [] ∨ dashes = ["--"]) ∧ filledLines text = done ++ rest ∧
        (∀ line ∈ done, ¬ Refused ShorthandTable.builtin .text false line) ∧
        "‘x’\n" = String.join (done.map fun line =>
          (run (["render"] ++ (dashes ++ [line])) surroundings).output) ∧
        ∃ line more, rest = line :: more ∧ Refused ShorthandTable.builtin .text false line) ∧
      (run ["render"] garbled).output = "" ∧ (run ["render"] garbled).code = 2 := by
  intro text surroundings garbled
  have hread : readArguments ["render"] =
      .ok ⟨none, false, false, some (.render none none false)⟩ := by decide +kernel
  have hload : Config.load (surroundings.directory none) = .ok {} := by decide +kernel
  have houtput : (run ["render"] surroundings).output = "‘x’\n" := by decide +kernel
  have hcode : (run ["render"] surroundings).code = 2 := by decide +kernel
  have hgarbled (other : String) : garbled.input ≠ other.toUTF8 := by
    intro heq
    have hsome := fromUTF8?_eq_some_iff.2 heq
    have hnone : String.fromUTF8? garbled.input = none := by decide +kernel
    rw [hnone] at hsome
    cases hsome
  refine ⟨by decide +kernel, ?_, ?_⟩
  · obtain ⟨dashes, done, rest, hdashes, hlines, hdone, hjoin, hend⟩ :=
      (run_line_by_line hread hload).1 none false text rfl rfl
    refine ⟨dashes, done, rest, hdashes, hlines, hdone, houtput.symm.trans hjoin, ?_⟩
    rcases hend with ⟨-, hzero⟩ | ⟨line, more, hrest, hrefused, -⟩
    · rw [hcode] at hzero
      cases hzero
    · exact ⟨line, more, hrest, hrefused⟩
  · have hload' : Config.load (garbled.directory none) = .ok {} := hload
    exact (run_line_by_line hread hload').2.2 hgarbled (Or.inr ⟨none, false, rfl⟩)

end CommandLine
end TacticNotation
