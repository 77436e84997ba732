import JetLive.Compiler.CommandLines
import JetLive.Live.Run

/-!
# Reading compile commands

The parser of the units takes a command apart like a shell and goes through its words with the
parser of options `argh`, in the mode in which an option takes the next word as its value unless
that is an option too. An option is never taken as a value. So the words before an option are read
as if they stood alone (`Argh.parse_append`), and the value of an option depends on nothing but
the word behind it.

What `doCompile` puts behind the command of a unit begins with an option. Read again, the command
that is run therefore gives the object file, the compiler and the flag of the unit, and the depfile
that the unit has by then (`parseEntry_reads_back`).
-/

namespace JetLive

open TeenyPath

namespace Argh

/-- What the parser has found. The parameters with the same name stand in their order. -/
@[ext]
structure Parser where
  params : List (String × String) := []
  posArgs : List String := []
  flags : List String := []
  deriving DecidableEq, Repr

instance : Append Parser :=
  ⟨fun a b => ⟨a.params ++ b.params, a.posArgs ++ b.posArgs, a.flags ++ b.flags⟩⟩

/-- The name without the dashes in front of it; a word of nothing but dashes stays as it is. -/
def trimLeadingDashes (name : String) : String :=
  let rest := name.toList.dropWhile (· = '-')
  if rest = [] then name else String.ofList rest

/-- The two sides of the first equal sign. -/
def splitAtEqual (name : String) : Option (String × String) :=
  if '=' ∈ name.toList then
    some (String.ofList (name.toList.takeWhile (· ≠ '=')),
      String.ofList ((name.toList.dropWhile (· ≠ '=')).drop 1))
  else none

section

/- What the stream operator accepts as the beginning of a number. -/
variable (isNumber : String → Bool)

def isOption (arg : String) : Bool := !isNumber arg && arg.toList.head? = some '-'

/-- The loop of `parse` in the mode `PREFER_PARAM_FOR_UNREG_OPTION` without registered names. -/
def parse : List String → Parser
  | [] => {}
  | arg :: args =>
      if isOption isNumber arg then
        match splitAtEqual (trimLeadingDashes arg) with
        | some param => { params := [param] } ++ parse args
        | none =>
            match args with
            | [] => { flags := [trimLeadingDashes arg] }
            | next :: rest =>
                if isOption isNumber next then
                  { flags := [trimLeadingDashes arg] } ++ parse (next :: rest)
                else { params := [(trimLeadingDashes arg, next)] } ++ parse rest
      else { posArgs := [arg] } ++ parse args

end

namespace Parser

def param (p : Parser) (names : List String) : String :=
  (names.findSome? fun name => p.params.lookup (trimLeadingDashes name)).getD ""

def flag (p : Parser) (names : List String) : Bool :=
  names.any fun name => trimLeadingDashes name ∈ p.flags

def posArg (p : Parser) (ind : ℕ) : String := p.posArgs.getD ind ""

end Parser

end Argh

/-- What the parser of the units looks for. -/
def Argh.Parser.toParsedCommand (parser : Parser) : ParsedCommand where
  output := parser.param ["-o", "--output"]
  depFile := parser.param ["-MF"]
  hasColorDiagnosticsFlag := parser.flag ["-fcolor-diagnostics"]
  compilerPath := parser.posArg 0

/-- The parameters that the parser of the units takes from a command. -/
def readCommand (isNumber : String → Bool) (command : String) : Option ParsedCommand :=
  (wordexp command).map fun words => (Argh.parse isNumber words).toParsedCommand

/-! ## Words in front of an option -/

namespace Argh

namespace Parser

variable (a b c : Parser)

@[simp] theorem params_append : (a ++ b).params = a.params ++ b.params := rfl

@[simp] theorem posArgs_append : (a ++ b).posArgs = a.posArgs ++ b.posArgs := rfl

@[simp] theorem flags_append : (a ++ b).flags = a.flags ++ b.flags := rfl

theorem nil_append : ({} : Parser) ++ a = a := rfl

theorem append_assoc : a ++ b ++ c = a ++ (b ++ c) := by
  ext1 <;> simp

end Parser

variable {isNumber : String → Bool}

variable {arg next : String} {args rest : List String}

theorem parse_of_equal {param : String × String} (h : isOption isNumber arg = true)
    (hparam : splitAtEqual (trimLeadingDashes arg) = some param) :
    parse isNumber (arg :: args) = { params := [param] } ++ parse isNumber args := by
  rw [parse.eq_def]
  simp only [h, if_true, hparam]

/-- In front of an option an option is a flag. -/
theorem parse_of_flag (h : isOption isNumber arg = true)
    (hname : splitAtEqual (trimLeadingDashes arg) = none) (hnext : isOption isNumber next = true) :
    parse isNumber (arg :: next :: rest) =
      { flags := [trimLeadingDashes arg] } ++ parse isNumber (next :: rest) := by
  rw [parse.eq_def]
  simp only [h, if_true, hname, hnext]

/-- Any other word is taken as the value. -/
theorem parse_of_value (h : isOption isNumber arg = true)
    (hname : splitAtEqual (trimLeadingDashes arg) = none)
    (hnext : ¬ isOption isNumber next = true) :
    parse isNumber (arg :: next :: rest) =
      { params := [(trimLeadingDashes arg, next)] } ++ parse isNumber rest := by
  rw [parse.eq_def]
  simp only [h, if_true, hname, if_neg hnext]

theorem parse_of_not_option (h : ¬ isOption isNumber arg = true) :
    parse isNumber (arg :: args) = { posArgs := [arg] } ++ parse isNumber args := by
  rw [parse.eq_def]
  simp only [if_neg h]

/-- An option is not the value of the word before it. -/
theorem parse_append (args : List String) (h : isOption isNumber next = true) :
    parse isNumber (args ++ next :: rest) =
      parse isNumber args ++ parse isNumber (next :: rest) := by
  fun_induction parse isNumber args with
  | case1 => rw [List.nil_append, Parser.nil_append]
  | case2 arg args harg param hparam ih =>
      rw [List.cons_append, parse_of_equal harg hparam, ih, Parser.append_assoc]
  | case3 arg harg hname => exact parse_of_flag harg hname h
  | case4 arg harg hname value args hvalue ih =>
      rw [List.cons_append, List.cons_append, parse_of_flag harg hname hvalue,
        Parser.append_assoc, ← ih, List.cons_append]
  | case5 arg harg hname value args hvalue ih =>
      rw [List.cons_append, List.cons_append, parse_of_value harg hname hvalue, ih,
        Parser.append_assoc]
  | case6 arg args harg ih =>
      rw [List.cons_append, parse_of_not_option harg, ih, Parser.append_assoc]

/-- Words of which nothing is found under the names change nothing for these names. -/
theorem Parser.param_append (a b : Parser) {names : List String}
    (h : ∀ name ∈ names, b.params.lookup (trimLeadingDashes name) = none) :
    (a ++ b).param names = a.param names := by
  unfold param
  congr 1
  induction names with
  | nil => rfl
  | cons name names ih =>
      obtain ⟨hname, hnames⟩ := List.forall_mem_cons.mp h
      rw [List.findSome?_cons, List.findSome?_cons, ih hnames, params_append, List.lookup_append,
        hname, Option.or_none]

/-- Of the words behind an option nothing but a depfile is looked for. -/
theorem Parser.toParsedCommand_append (a b : Parser)
    (houtput : ∀ name ∈ ["-o", "--output"], b.params.lookup (trimLeadingDashes name) = none)
    (hpos : b.posArgs = []) (hflag : "fcolor-diagnostics" ∉ b.flags) :
    (a ++ b).toParsedCommand = { a.toParsedCommand with
      depFile := ((a.params.lookup "MF").or (b.params.lookup "MF")).getD "" } := by
  have hname : trimLeadingDashes "-fcolor-diagnostics" = "fcolor-diagnostics" := by decide
  have hmf : trimLeadingDashes "-MF" = "MF" := by decide
  simp only [toParsedCommand, param_append a b houtput, ParsedCommand.mk.injEq, true_and]
  refine ⟨?_, ?_, ?_⟩
  · simp [param, hmf, List.lookup_append]
  · simp [flag, hname, hflag]
  · simp [posArg, hpos]

end Argh

/-! ## The command of a compilation -/

section

variable {isNumber : String → Bool} {out : Outside} {cmd : CompileCommand}
  {cu₀ cu : CompilationUnit} {parser : ParsedCommand}

def addedWords (depFilePath : String) : List String :=
  "-fPIC" :: if depFilePath = "" then [] else ["-MD", "-MF", depFilePath]

/-- The options that are added do not look like numbers. -/
def TellsOptions (isNumber : String → Bool) : Prop :=
  ∀ option ∈ ["-fPIC", "-MD", "-MF"], isNumber option = false

instance (isNumber : String → Bool) : Decidable (TellsOptions isNumber) :=
  List.decidableBAll _ ["-fPIC", "-MD", "-MF"]

theorem TellsOptions.isOption (h : TellsOptions isNumber) (option : String)
    (hmem : option ∈ ["-fPIC", "-MD", "-MF"]) : Argh.isOption isNumber option = true := by
  have hdash : option.toList.head? = some '-' := by
    revert option
    decide
  simp [Argh.isOption, h option hmem, hdash]

theorem parse_addedWords (h : TellsOptions isNumber) {depFilePath : String}
    (hvalue : Argh.isOption isNumber depFilePath = false) :
    Argh.parse isNumber (addedWords depFilePath) =
      if depFilePath = "" then { flags := ["fPIC"] }
      else { params := [("MF", depFilePath)], flags := ["fPIC", "MD"] } := by
  have hpic := h.isOption "-fPIC" (by simp)
  have hmd := h.isOption "-MD" (by simp)
  have hmf := h.isOption "-MF" (by simp)
  have hnames : Argh.trimLeadingDashes "-fPIC" = "fPIC" ∧
      Argh.trimLeadingDashes "-MD" = "MD" ∧ Argh.trimLeadingDashes "-MF" = "MF" := by decide +kernel
  have hequals : Argh.splitAtEqual "fPIC" = none ∧ Argh.splitAtEqual "MD" = none ∧
      Argh.splitAtEqual "MF" = none := by decide +kernel
  obtain ⟨hpicName, hmdName, hmfName⟩ := hnames
  unfold addedWords
  split
  · simp only [Argh.parse, hpic, if_true, hpicName, hequals.1]
  · rw [Argh.parse_of_flag hpic (hpicName ▸ hequals.1) hmd,
      Argh.parse_of_flag hmd (hmdName ▸ hequals.2.1) hmf,
      Argh.parse_of_value hmf (hmfName ▸ hequals.2.2) (by simp [hvalue]), hpicName, hmdName,
      hmfName]
    rfl

/-- The command that is run for a unit is read as that of the unit, with the depfile of the unit
if the command has none. -/
theorem readCommand_compilationCommand (h : TellsOptions isNumber) (cu : CompilationUnit)
    (hread : readCommand isNumber cu.compilationCommandStr = some parser)
    (hcarries : CarriesDepfile cu) (hoperators : OperatorFree cu.depFilePath)
    (hvalue : Argh.isOption isNumber cu.depFilePath = false)
    (hmf : ∀ words, wordexp cu.compilationCommandStr = some words →
      ∀ d, (Argh.parse isNumber words).params.lookup "MF" = some d → d = cu.depFilePath) :
    readCommand isNumber (compilationCommand cu) =
      some { parser with depFile := cu.depFilePath } := by
  obtain ⟨found, hwordexp, hfound⟩ := Option.map_eq_some_iff.mp hread
  obtain ⟨words, hwords, hadded⟩ := hcarries
  obtain rfl : found = words :=
    Option.some.inj ((wordexp_eq_some_iff.mp hwordexp).2.symm.trans hwords)
  have hcommand : wordexp (compilationCommand cu) =
      some (found ++ addedWords cu.depFilePath) := by
    rw [wordexp_compilationCommand hwordexp hoperators hadded, List.append_assoc]
    rfl
  have hparse : Argh.parse isNumber (found ++ addedWords cu.depFilePath) =
      Argh.parse isNumber found ++ Argh.parse isNumber (addedWords cu.depFilePath) :=
    Argh.parse_append found (h.isOption _ (by simp))
  rw [parse_addedWords h hvalue] at hparse
  rw [readCommand, hcommand, Option.map_some, Option.some.injEq, ← hfound, hparse]
  have hlookup := hmf found hwordexp
  generalize Argh.parse isNumber found = found at hlookup
  rw [Argh.Parser.toParsedCommand_append found _ (by split <;> simp [Argh.trimLeadingDashes])
    (by split <;> rfl) (by split <;> simp)]
  -- a depfile on the command comes first and is that of the unit
  cases hfound : found.params.lookup "MF" with
  | none =>
      split
      · rename_i hempty
        rw [hempty]
        rfl
      · rfl
  | some d =>
      rw [← hlookup d hfound]
      rfl

/-! ## The unit of a command -/

def unitOfEntry (out : Outside) (cmd : CompileCommand) (parser : ParsedCommand) :
    CompilationUnit :=
  let dirPath := resolveAbsolute out.fs cmd.directory.toList
  let sourceFilePath :=
    if isAbsolute cmd.file.toList then cmd.file.toList else append dirPath cmd.file.toList
  let objFilePath :=
    if isAbsolute parser.output.toList then parser.output.toList
    else append dirPath parser.output.toList
  { compilerPath := parser.compilerPath
    compilationCommandStr := cmd.command
    compilationDirStr := String.ofList dirPath
    sourceFilePath := String.ofList (resolveAbsolute out.fs sourceFilePath)
    objFilePath := String.ofList objFilePath
    depFilePath := parser.depFile
    hasColorDiagnosticsFlag := parser.hasColorDiagnosticsFlag }

theorem unitOfEntry_with (out : Outside) (cmd : CompileCommand) (parser : ParsedCommand)
    (command depFilePath : String) :
    unitOfEntry out { cmd with command } { parser with depFile := depFilePath } =
      { unitOfEntry out cmd parser with depFilePath, compilationCommandStr := command } := rfl

def EntryExists (out : Outside) (cmd : CompileCommand) : Prop :=
  pathExists out.fs cmd.directory.toList = true ∧
    pathExists out.fs (unitOfEntry out cmd {}).sourceFilePath.toList = true

theorem parseEntry_of_exists (hexists : EntryExists out cmd)
    (hparser : out.parseCommand cmd.command = some parser) (houtput : parser.output ≠ "") :
    parseEntry out cmd =
      (if out.filterCompilationUnit (unitOfEntry out cmd parser) then
        some (unitOfEntry out cmd parser) else none, []) := by
  obtain ⟨hdirectory, hsource⟩ := hexists
  simp only [unitOfEntry, String.toList_ofList] at hsource
  rw [parseEntry, if_neg (not_not.mpr hdirectory)]
  dsimp only
  rw [if_neg (not_not.mpr hsource), hparser]
  simp only [if_neg houtput]
  rfl

theorem exists_of_parseEntry (h : (parseEntry out cmd).1 = some cu) :
    EntryExists out cmd ∧ ∃ parser, out.parseCommand cmd.command = some parser ∧
      parser.output ≠ "" ∧ cu = unitOfEntry out cmd parser := by
  have hdirectory : pathExists out.fs cmd.directory.toList = true := by
    by_contra hnot
    rw [parseEntry, if_pos hnot] at h
    cases h
  have hsource : pathExists out.fs (unitOfEntry out cmd {}).sourceFilePath.toList = true := by
    by_contra hnot
    simp only [unitOfEntry, String.toList_ofList] at hnot
    rw [parseEntry, if_neg (not_not.mpr hdirectory)] at h
    dsimp only at h
    rw [if_pos hnot] at h
    cases h
  have hexists : EntryExists out cmd := ⟨hdirectory, hsource⟩
  refine ⟨hexists, ?_⟩
  cases hparser : out.parseCommand cmd.command with
  | none =>
      simp only [parseEntry, hparser] at h
      split_ifs at h
  | some parser =>
      by_cases houtput : parser.output = ""
      · simp only [parseEntry, hparser, houtput, if_true] at h
        split_ifs at h
      · rw [parseEntry_of_exists hexists hparser houtput] at h
        refine ⟨parser, rfl, houtput, ?_⟩
        split at h
        · exact (Option.some.inj h).symm
        · cases h

/-- The depfile of a command is the value of `-MF`. -/
theorem depFile_eq_of_lookup {command d : String} {words : List String}
    (hread : readCommand isNumber command = some parser) (hwords : wordexp command = some words)
    (hd : (Argh.parse isNumber words).params.lookup "MF" = some d) : parser.depFile = d := by
  rw [readCommand, hwords, Option.map_some, Option.some.injEq] at hread
  have hmf : Argh.trimLeadingDashes "-MF" = "MF" := by decide
  simp [← hread, Argh.Parser.toParsedCommand, Argh.Parser.param, hmf, hd]

/-- The entry with the command that is run for a unit has the same unit, whatever depfile was
found for it, if the filter of the units lets it pass. Nothing is said of commands with something
to expand. The depfile has to arrive as a word that is no option and has no operators, and the
command may not name an empty one. -/
theorem parseEntry_reads_back
    (hout : ∀ command, Unexpanded command → out.parseCommand command = readCommand isNumber command)
    (h : TellsOptions isNumber) (hentry : (parseEntry out cmd).1 = some cu)
    (hcmd : Unexpanded cmd.command)
    (depFilePath : String) (hkept : cu.depFilePath ≠ "" → depFilePath = cu.depFilePath)
    (hcarries : CarriesDepfile { cu with depFilePath }) (hdepfile : Unexpanded depFilePath)
    (hoperators : OperatorFree depFilePath)
    (hvalue : Argh.isOption isNumber depFilePath = false)
    (hempty : ∀ words, wordexp cmd.command = some words →
      (Argh.parse isNumber words).params.lookup "MF" ≠ some "") :
    parseEntry out { cmd with command := compilationCommand { cu with depFilePath } } =
      let unit := { cu with
        depFilePath, compilationCommandStr := compilationCommand { cu with depFilePath } }
      (if out.filterCompilationUnit unit then some unit else none, []) := by
  obtain ⟨hexists, parser, hparser, houtput, hcu⟩ := exists_of_parseEntry hentry
  have hcommand : cu.compilationCommandStr = cmd.command := by
    rw [hcu]
    rfl
  have hdepFile : cu.depFilePath = parser.depFile := by
    rw [hcu]
    rfl
  rw [hout _ hcmd] at hparser
  have hread : readCommand isNumber (compilationCommand { cu with depFilePath }) =
      some { parser with depFile := depFilePath } := by
    refine readCommand_compilationCommand h { cu with depFilePath } ?_ hcarries hoperators
      hvalue ?_
    · rw [hcommand, hparser]
    · intro words hwords d hd
      rw [hcommand] at hwords
      -- the depfile of the command is not empty, so it was kept
      have hne : d ≠ "" := by
        rintro rfl
        exact hempty words hwords hd
      rw [← depFile_eq_of_lookup hparser hwords hd, ← hdepFile] at hne ⊢
      exact (hkept hne).symm
  have hcommand' : Unexpanded cu.compilationCommandStr := hcommand ▸ hcmd
  have hunexpanded : Unexpanded (compilationCommand { cu with depFilePath }) :=
    unexpanded_compilationCommand hcommand' hdepfile
  rw [← hout _ hunexpanded] at hread
  have hexists' : EntryExists out
      { cmd with command := compilationCommand { cu with depFilePath } } := hexists
  rw [parseEntry_of_exists hexists' hread houtput, unitOfEntry_with, ← hcu]

end

/-- The entries are read with their commands. -/
def readingOutside : Outside :=
  { Outside.ofCommands [] with parseCommand := readCommand fun _ => false }

def readingEntry : CompileCommand := ⟨"c++ -Wall -o a.o -c a.cpp", "/p", "/p/a.cpp"⟩

def readingUnit : CompilationUnit where
  compilerPath := "c++"
  compilationCommandStr := "c++ -Wall -o a.o -c a.cpp"
  compilationDirStr := "/p"
  sourceFilePath := "/p/a.cpp"
  objFilePath := "/p/a.o"

/-- The unit gets a depfile that its command does not name. -/
theorem readingUnit_reads_back :
    (parseEntry readingOutside readingEntry).1 = some readingUnit ∧
      parseEntry readingOutside { readingEntry with
          command := compilationCommand { readingUnit with depFilePath := "/p/a.d" } } =
        (some { readingUnit with
          depFilePath := "/p/a.d"
          compilationCommandStr :=
            compilationCommand { readingUnit with depFilePath := "/p/a.d" } }, []) := by
  have hentry : (parseEntry readingOutside readingEntry).1 = some readingUnit := by decide +kernel
  have hcarries : CarriesDepfile { readingUnit with depFilePath := "/p/a.d" } :=
    (carriesDepfile_iff (by decide)).mpr ⟨by decide +kernel, .inr (by decide)⟩
  have hempty : ∀ words, wordexp readingEntry.command = some words →
      (Argh.parse (fun _ => false) words).params.lookup "MF" ≠ some "" := by
    have hwords : wordexp readingEntry.command =
        some ["c++", "-Wall", "-o", "a.o", "-c", "a.cpp"] := by decide +kernel
    rw [hwords]
    rintro words hwords
    obtain rfl := Option.some.inj hwords
    decide +kernel
  have hread := parseEntry_reads_back (fun _ _ => rfl) (by decide) hentry (by decide) "/p/a.d"
    (fun h => absurd rfl h) hcarries (by decide) (by decide) (by decide) hempty
  exact ⟨hentry, hread⟩

end JetLive
