import JetLive.Library.ShellWords
import JetLive.Compiler.Operations

/-!
# Command lines

The commands of the compiler and the linker are run by a shell, which takes them apart again. The
object files stand between double quotes on the command of the linker. The depfile and the name of
the library stand there as they are, so they arrive only if they are words of the shell
(`carriesDepfile_iff`, `carriesObjects_iff`). The names that the compiler gives to its libraries
are words (`startLink_carries_iff`), but a depfile may lie in any directory.
-/

namespace JetLive

open ShellWords

def shellWords (command : String) : Option (List String) :=
  (split command.toList).map (·.map String.ofList)

theorem shellWords_eq_some_iff {command : String} {words : List String} :
    shellWords command = some words ↔ split command.toList = some (words.map String.toList) := by
  rw [shellWords, Option.map_eq_some_iff]
  constructor
  · rintro ⟨texts, htexts, rfl⟩
    simpa [Function.comp_def] using htexts
  · intro hsplit
    exact ⟨_, hsplit, by simp [Function.comp_def]⟩

/-- The operators of a shell, which end a word if they are not quoted. -/
def operators : List Char := ['\n', '|', '&', ';', '<', '>', '(', ')', '{', '}']

/-- What a shell expands, and the begin of a comment. -/
def expansions : List Char := ['$', '\x60', '~', '*', '?', '[', '#']

def Unexpanded (text : String) : Prop := ∀ c ∈ text.toList, c ∉ expansions

instance (text : String) : Decidable (Unexpanded text) := List.decidableBAll _ text.toList

def OperatorFree (text : String) : Prop := ∀ c ∈ text.toList, c ∉ operators

instance (text : String) : Decidable (OperatorFree text) := List.decidableBAll _ text.toList

/-- `wordexp`, for a command that has nothing to expand: it fails at an operator. -/
def wordexp (command : String) : Option (List String) :=
  if (unquoted .plain command.toList).any (· ∈ operators) then none else shellWords command

theorem wordexp_eq_some_iff {command : String} {words : List String} :
    wordexp command = some words ↔
      (∀ c ∈ unquoted .plain command.toList, c ∉ operators) ∧ shellWords command = some words := by
  rw [wordexp, Option.ite_none_left_eq_some]
  simp

/-- The words of a command with which a shell starts one program and does nothing else. -/
def plainWords (command : String) : Option (List String) :=
  if Unexpanded command then wordexp command else none

/-- A name without the characters that are special between double quotes. -/
def IsFileName (name : String) : Prop := ∀ c ∈ name.toList, c ∉ ['\x22', '\\', '$', '\x60']

instance (name : String) : Decidable (IsFileName name) := List.decidableBAll _ name.toList

theorem IsFileName.verbatim {name : String} (h : IsFileName name) : Verbatim name.toList := by
  intro c hc
  have hspecial := h c hc
  simp only [List.mem_cons, not_or] at hspecial
  exact ⟨hspecial.1, hspecial.2.1⟩

/-! ## Compilations -/

/-- The shell sees the command of the unit, the option and the depfile. -/
def CarriesDepfile (cu : CompilationUnit) : Prop :=
  ∃ words, shellWords cu.compilationCommandStr = some words ∧
    shellWords (compilationCommand cu) = some (words ++ ["-fPIC"] ++
      if cu.depFilePath = "" then [] else ["-MD", "-MF", cu.depFilePath])

/-- What follows `-fPIC`. -/
def depfileText (depFilePath : String) : List Char :=
  if depFilePath = "" then []
  else ' ' :: ("-MD".toList ++ ' ' :: ("-MF".toList ++ ' ' :: depFilePath.toList))

theorem toList_compilationCommand (cu : CompilationUnit) :
    (compilationCommand cu).toList = cu.compilationCommandStr.toList ++
      ' ' :: ("-fPIC".toList ++ ' ' :: depfileText cu.depFilePath) := by
  unfold compilationCommand depfileText
  split <;> simp

theorem split_depfileText_iff {depFilePath : String} (h : IsFileName depFilePath) :
    split (depfileText depFilePath) = some ((if depFilePath = "" then []
        else ["-MD", "-MF", depFilePath]).map String.toList) ↔
      depFilePath = "" ∨ IsWord depFilePath.toList := by
  unfold depfileText
  split
  · rename_i hempty
    exact iff_of_true rfl (.inl hempty)
  · rename_i hne
    rw [split_blank, split_append_blank (by decide) (split_of_isWord (by decide)),
      split_append_blank (by decide) (split_of_isWord (by decide)), or_iff_right hne,
      ← split_eq_singleton_iff h.verbatim]
    simp [Option.map_eq_some_iff]

/-- Nothing but the depfile brings one of the characters to the command of the unit. -/
theorem notMem_addedText {chars : List Char} {depFilePath : String}
    (hfixed : " -fPICMDF".toList.all (· ∉ chars) = true) (h : ∀ c ∈ depFilePath.toList, c ∉ chars) :
    ∀ c ∈ ' ' :: ("-fPIC".toList ++ ' ' :: depfileText depFilePath), c ∉ chars := by
  intro c hc
  by_cases hmem : c ∈ depFilePath.toList
  · exact h c hmem
  · refine of_decide_eq_true (List.all_eq_true.mp hfixed c ?_)
    unfold depfileText at hc
    split at hc <;> simp only [String.reduceToList, List.cons_append, List.nil_append,
      List.mem_cons, List.not_mem_nil, hmem, or_false] at hc ⊢ <;> tauto

theorem unexpanded_compilationCommand {cu : CompilationUnit}
    (hcommand : Unexpanded cu.compilationCommandStr) (hdepfile : Unexpanded cu.depFilePath) :
    Unexpanded (compilationCommand cu) := by
  rw [Unexpanded, toList_compilationCommand]
  exact List.forall_mem_append.mpr ⟨hcommand, notMem_addedText (by decide) hdepfile⟩

theorem wordexp_compilationCommand {cu : CompilationUnit} {words added : List String}
    (hcommand : wordexp cu.compilationCommandStr = some words)
    (hdepfile : OperatorFree cu.depFilePath)
    (hadded : shellWords (compilationCommand cu) = some added) :
    wordexp (compilationCommand cu) = some added := by
  refine wordexp_eq_some_iff.mpr ⟨?_, hadded⟩
  rw [toList_compilationCommand, unquoted_append]
  refine List.forall_mem_append.mpr ⟨(wordexp_eq_some_iff.mp hcommand).1, fun c hc => ?_⟩
  exact notMem_addedText (by decide) hdepfile c (unquoted_subset _ _ hc)

/-- The command of the unit ends where `-fPIC` begins, and the depfile is one word. -/
theorem carriesDepfile_iff {cu : CompilationUnit} (h : IsFileName cu.depFilePath) :
    CarriesDepfile cu ↔ IsClosed cu.compilationCommandStr.toList ∧
      (cu.depFilePath = "" ∨ IsWord cu.depFilePath.toList) := by
  rw [← split_depfileText_iff h]
  simp only [CarriesDepfile, shellWords_eq_some_iff, toList_compilationCommand, List.map_append]
  have hoption : IsWord "-fPIC".toList := by decide
  constructor
  · rintro ⟨words, hcommand, hwords⟩
    rcases isClosed_or_escape_of_split hcommand with hclosed | hescape
    · rw [split_append_blank hclosed hcommand,
        split_append_blank hoption.isClosed (split_of_isWord hoption)] at hwords
      refine ⟨hclosed, ?_⟩
      simpa [Option.map_eq_some_iff] using hwords
    · obtain ⟨before, word, hbefore, hsplit⟩ := exists_split_of_escape hescape
      obtain ⟨hclosed, hsplit⟩ := hsplit _ hoption
      rw [hcommand, Option.some.injEq] at hbefore
      rw [hbefore, ← List.cons_append, ← List.append_assoc,
        split_append_blank hclosed hsplit] at hwords
      -- the word that ends with the backslash has `-fPIC` at its end instead
      obtain ⟨rest, _, hrest⟩ := Option.map_eq_some_iff.mp hwords
      simp at hrest
  · rintro ⟨hclosed, hdepfile⟩
    obtain ⟨words, hwords⟩ := hclosed.exists_split
    have htoList : (words.map String.ofList).map String.toList = words := by
      simp [Function.comp_def]
    refine ⟨words.map String.ofList, by rw [htoList, hwords], ?_⟩
    rw [htoList, split_append_blank hclosed hwords,
      split_append_blank hoption.isClosed (split_of_isWord hoption), hdepfile]
    simp

/-- The word behind the last `-MF`, where a compiler writes the depfile. -/
def depfileArgument : List String → Option String
  | [] => none
  | word :: words => (depfileArgument words).or (if word = "-MF" then words.head? else none)

theorem depfileArgument_append (words : List String) {rest : List String} {f : String}
    (h : depfileArgument rest = some f) : depfileArgument (words ++ rest) = some f := by
  induction words with
  | nil => exact h
  | cons word words ih => rw [List.cons_append, depfileArgument, ih, Option.some_or]

/-- The compiler is told to write the depfile of the unit. -/
def ReceivesDepfile (cu : CompilationUnit) : Prop :=
  (plainWords (compilationCommand cu)).bind depfileArgument = some cu.depFilePath

instance (cu : CompilationUnit) : Decidable (ReceivesDepfile cu) :=
  inferInstanceAs (Decidable (_ = _))

/-- A plain command that leaves no quotes open, and a depfile that is a plain word. -/
theorem receivesDepfile_of_isWord {cu : CompilationUnit} {words : List String}
    (hcommand : plainWords cu.compilationCommandStr = some words)
    (hclosed : IsClosed cu.compilationCommandStr.toList) (hword : IsWord cu.depFilePath.toList)
    (hname : IsFileName cu.depFilePath) (hdepfile : Unexpanded cu.depFilePath)
    (hoperators : OperatorFree cu.depFilePath) : ReceivesDepfile cu := by
  obtain ⟨hunexpanded, hwords⟩ := Option.ite_none_right_eq_some.mp hcommand
  obtain ⟨_, _, hcarried⟩ := (carriesDepfile_iff hname).mpr ⟨hclosed, .inr hword⟩
  have hne : cu.depFilePath ≠ "" := fun hempty => hword.1 (by rw [hempty]; rfl)
  rw [ReceivesDepfile, plainWords, if_pos (unexpanded_compilationCommand hunexpanded hdepfile),
    wordexp_compilationCommand hwords hoperators hcarried, if_neg hne]
  exact depfileArgument_append _ (by simp [depfileArgument])

/-! ## Libraries -/

/-- The shell sees the output and the object files at the end of the command of the linker. -/
def CarriesObjects (libName compilerPath : String) (baseAddress : ℕ) (linkerType : LinkerType)
    (objectFilePaths : List String) : Prop :=
  ∃ options, shellWords (createLinkCommand libName compilerPath baseAddress linkerType
    objectFilePaths) = some (options ++ ["-o", libName] ++ objectFilePaths)

def objectsText (objectFilePaths : List String) : List Char :=
  objectFilePaths.flatMap fun oFile => doubleQuoted oFile.toList ++ [' ']

theorem toList_quoteObjectFilePaths (objectFilePaths : List String) :
    (quoteObjectFilePaths objectFilePaths).toList = objectsText objectFilePaths := by
  unfold quoteObjectFilePaths objectsText
  induction objectFilePaths using List.reverseRecOn with
  | nil => rfl
  | append_singleton objectFilePaths oFile ih =>
      rw [List.foldl_concat, String.toList_append, ih, List.flatMap_append]
      simp [doubleQuoted]

theorem split_objectsText {objectFilePaths : List String}
    (h : ∀ oFile ∈ objectFilePaths, IsFileName oFile) :
    split (objectsText objectFilePaths) = some (objectFilePaths.map String.toList) := by
  induction objectFilePaths with
  | nil => rfl
  | cons oFile objectFilePaths ih =>
      have hname := (h oFile List.mem_cons_self).verbatim
      rw [objectsText, List.flatMap_cons, List.append_assoc, List.singleton_append,
        split_append_blank hname.isClosed_doubleQuoted hname.split_doubleQuoted, ← objectsText,
        ih fun oFile hmem => h oFile (List.mem_cons_of_mem _ hmem)]
      rfl

theorem isOpen_objectsText {objectFilePaths : List String} {m : Mode}
    (h : ∀ oFile ∈ objectFilePaths, IsFileName oFile) (hm : m.IsOpen) :
    ((objectsText objectFilePaths).foldl Mode.next m).IsOpen := by
  induction objectFilePaths generalizing m with
  | nil => exact hm
  | cons oFile objectFilePaths ih =>
      rw [objectsText, List.flatMap_cons, List.foldl_append]
      exact ih (fun oFile hmem => h oFile (List.mem_cons_of_mem _ hmem))
        ((h oFile List.mem_cons_self).verbatim.isOpen_doubleQuoted hm)

theorem unquoted_toHex (n : ℕ) : Unquoted (toHex n).toList := by
  have hdigit : ∀ d < 16, isQuoting d.digitChar = false := by decide
  rw [toHex, String.toList_ofList]
  induction n using Nat.strong_induction_on with
  | _ n ih =>
      intro c hc
      rcases lt_or_ge n 16 with hn | hn
      · rw [Nat.toDigits_of_lt_base hn, List.mem_singleton] at hc
        rw [hc]
        exact hdigit n hn
      · rw [Nat.toDigits_of_base_le (by decide) hn, List.mem_append, List.mem_singleton] at hc
        rcases hc with hc | rfl
        · exact ih (n / 16) (Nat.div_lt_self (by omega) (by decide)) c hc
        · exact hdigit _ (Nat.mod_lt _ (by decide))

/-- The options name the library once, without quotes around it. -/
theorem linkerOptions_eq (libName : String) (baseAddress : ℕ) {linkerType : LinkerType}
    (h : linkerType ≠ .kUnknown) : ∃ options before after,
      linkerOptions libName baseAddress linkerType = some options ∧
        options.toList = ' ' :: '-' :: (before ++ libName.toList ++ after) ∧
          Unquoted before ∧ Unquoted after := by
  have hplaced : ∀ {a b : List Char}, Unquoted a → Unquoted b →
      Unquoted (a ++ ((toHex baseAddress).toList ++ b)) :=
    fun ha hb => ha.append ((unquoted_toHex baseAddress).append hb)
  have hlld : ∃ options before after, linkerOptions libName baseAddress .kLLVM_lld = some options ∧
      options.toList = ' ' :: '-' :: (before ++ libName.toList ++ after) ∧
        Unquoted before ∧ Unquoted after := by
    have hfirst : " -Wl,--image-base,0x".toList = ' ' :: '-' :: "Wl,--image-base,0x".toList := rfl
    refine ⟨_, _, [], rfl, ?_, hplaced (a := "Wl,--image-base,0x".toList)
      (b := " -Wl,-export-dynamic".toList ++ " -Wl,-soname,".toList) (by decide) (by decide),
      by decide⟩
    simp only [String.toList_append, hfirst, List.cons_append, List.append_assoc, List.append_nil]
  cases linkerType with
  | kUnknown => exact absurd rfl h
  | kLLVM_lld => exact hlld
  | kLLVM_lld6 => exact hlld
  | kGNU_ld =>
      have hfirst : " -Wl,-Ttext-segment,0x".toList =
        ' ' :: '-' :: "Wl,-Ttext-segment,0x".toList := rfl
      refine ⟨_, _, [], rfl, ?_, hplaced (a := "Wl,-Ttext-segment,0x".toList)
        (b := " -Wl,-z,max-page-size=0x1000".toList ++ (" -Wl,-export-dynamic".toList ++
          " -Wl,-soname,".toList)) (by decide) (by decide), by decide⟩
      simp only [String.toList_append, hfirst, List.cons_append, List.append_assoc, List.append_nil]
  | kApple_ld =>
      have hfirst : " -Wl,-image_base,0x".toList = ' ' :: '-' :: "Wl,-image_base,0x".toList := rfl
      refine ⟨_, _, " -Wl,-flat_namespace".toList ++ " -Wl,-undefined,dynamic_lookup".toList, rfl,
        ?_, hplaced (a := "Wl,-image_base,0x".toList)
        (b := " -Wl,-export_dynamic".toList ++ " -Wl,-install_name,".toList) (by decide)
        (by decide), by decide⟩
      simp only [String.toList_append, hfirst, List.cons_append, List.append_assoc]

/-- The command of the linker between the first options and the object files. -/
def outputText (before after libName : List Char) : List Char :=
  before ++ libName ++ after ++ libName

theorem toList_createLinkCommand (libName compilerPath : String) (baseAddress : ℕ)
    {linkerType : LinkerType} (objectFilePaths : List String) (h : linkerType ≠ .kUnknown) :
    ∃ before after, Unquoted ('-' :: before) ∧ Unquoted after ∧
      (createLinkCommand libName compilerPath baseAddress linkerType objectFilePaths).toList =
        (compilerPath.toList ++ [' '] ++ "-fPIC -shared -g".toList) ++
          ' ' :: (outputText ('-' :: before) (after ++ " -o ".toList) libName.toList ++
            ' ' :: objectsText objectFilePaths) := by
  obtain ⟨options, before, after, hoptions, htext, hbefore, hafter⟩ :=
    linkerOptions_eq libName baseAddress h
  refine ⟨before, after, ?_, hafter, ?_⟩
  · have hminus : Unquoted ['-'] := by decide
    exact hminus.append hbefore
  · rw [createLinkCommand, hoptions]
    simp [htext, toList_quoteObjectFilePaths, outputText]

section OutputText

variable {before after libName : List Char}

theorem verbatim_outputText (hbefore : Unquoted before) (hafter : Unquoted after)
    (h : Verbatim libName) : Verbatim (outputText before after libName) := by
  rw [unquoted_iff] at hbefore hafter
  exact ((hbefore.1.append h).append hafter.1).append h

/-- The name of the library stands there twice, and so do the quotes in it. -/
theorem oddQuotes_outputText (hbefore : Unquoted before) (hafter : Unquoted after) :
    oddQuotes (outputText before after libName) = false := by
  rw [unquoted_iff] at hbefore hafter
  simp only [outputText, oddQuotes_append, oddQuotes_of_notMem hbefore.2,
    oddQuotes_of_notMem hafter.2, Bool.false_xor, Bool.xor_false, Bool.xor_self]

theorem isWord_of_mem_outputText (hbefore : Unquoted before) (hafter : Unquoted after)
    (h : Verbatim libName) {words : List (List Char)}
    (hsplit : split (outputText before after libName) = some words) (hmem : libName ∈ words) :
    IsWord libName := by
  have hverbatim := verbatim_outputText hbefore hafter h
  have hlib : Unquoted libName :=
    unquoted_iff.mpr ⟨h, hverbatim.notMem_of_mem_split hsplit libName hmem⟩
  have hunquoted : Unquoted (outputText before after libName) :=
    ((hbefore.append hlib).append hafter).append hlib
  exact hunquoted.isWord_of_mem_split hsplit libName hmem

theorem exists_split_outputText (hbefore : Unquoted before) (hafter : Unquoted after)
    (h : IsWord libName) : ∃ options,
      split (outputText before (after ++ " -o ".toList) libName) =
        some (options ++ ["-o".toList, libName]) := by
  have hoption : IsWord "-o".toList := by decide
  have hunquoted : Unquoted (before ++ libName ++ after) :=
    (hbefore.append h.unquoted).append hafter
  have htext : outputText before (after ++ " -o ".toList) libName =
      (before ++ libName ++ after) ++ ' ' :: ("-o".toList ++ ' ' :: libName) := by
    simp [outputText]
  obtain ⟨options, hoptions⟩ := hunquoted.isClosed.exists_split
  refine ⟨options, ?_⟩
  rw [htext, split_append_blank hunquoted.isClosed hoptions,
    split_append_blank hoption.isClosed (split_of_isWord hoption), split_of_isWord h]
  rfl

end OutputText

/-- A quote that is open at the end of the compiler stays open. -/
theorem split_eq_none_of_compiler {compiler output : List Char} {objectFilePaths : List String}
    (hcompiler : split compiler = none) (houtput : Verbatim output)
    (hquotes : oddQuotes output = false)
    (hobjects : ∀ oFile ∈ objectFilePaths, IsFileName oFile) :
    split ((compiler ++ [' '] ++ "-fPIC -shared -g".toList) ++
      ' ' :: (output ++ ' ' :: objectsText objectFilePaths)) = none := by
  have hfirst : Verbatim "-fPIC -shared -g ".toList := by decide
  have hblank : Verbatim [' '] := by decide
  have hmiddle : oddQuotes ("-fPIC -shared -g ".toList ++ output ++ [' ']) = false := by
    rw [oddQuotes_append, oddQuotes_append, hquotes]
    decide
  have htext : (compiler ++ [' '] ++ "-fPIC -shared -g".toList) ++
      ' ' :: (output ++ ' ' :: objectsText objectFilePaths) =
        (compiler ++ [' ']) ++ ("-fPIC -shared -g ".toList ++ output ++ [' ']) ++
          objectsText objectFilePaths := by
    simp
  refine split_eq_none ?_
  rw [htext, List.foldl_append, List.foldl_append]
  exact isOpen_objectsText hobjects (((hfirst.append houtput).append hblank).isOpen hmiddle
    (isOpen_blank_of_split hcompiler))

/-- The compiler has no open quotes, and the name of the library is one word. -/
theorem carriesObjects_iff {libName : String} (compilerPath : String) (baseAddress : ℕ)
    {linkerType : LinkerType} {objectFilePaths : List String} (hlibName : IsFileName libName)
    (hobjects : ∀ oFile ∈ objectFilePaths, IsFileName oFile) (hlinker : linkerType ≠ .kUnknown) :
    CarriesObjects libName compilerPath baseAddress linkerType objectFilePaths ↔
      shellWords compilerPath ≠ none ∧ IsWord libName.toList := by
  obtain ⟨before, after, hbefore, hafter, htext⟩ :=
    toList_createLinkCommand libName compilerPath baseAddress objectFilePaths hlinker
  have hafterOption : Unquoted (after ++ " -o ".toList) := hafter.append (by decide)
  have hverbatim := verbatim_outputText hbefore hafterOption hlibName.verbatim
  have hquotes : oddQuotes (outputText ('-' :: before) (after ++ " -o ".toList)
    libName.toList) = false := oddQuotes_outputText hbefore hafterOption
  simp only [CarriesObjects, shellWords_eq_some_iff, htext]
  cases hcompiler : split compilerPath.toList with
  | none =>
      rw [split_eq_none_of_compiler hcompiler hverbatim hquotes hobjects]
      simp [shellWords, hcompiler]
  | some words =>
      have hclosed : IsClosed (compilerPath.toList ++ [' '] ++ "-fPIC -shared -g".toList) :=
        (isClosed_blank_of_split hcompiler).append (by decide)
      have houtput := hverbatim.isClosed hquotes
      have hsome : shellWords compilerPath ≠ none := by simp [shellWords, hcompiler]
      obtain ⟨first, hfirst⟩ := hclosed.exists_split
      obtain ⟨named, hnamed⟩ := houtput.exists_split
      rw [split_append_blank hclosed hfirst, split_append_blank houtput hnamed,
        split_objectsText hobjects, and_iff_right hsome]
      constructor
      · rintro ⟨options, hwords⟩
        simp only [Option.map_some, Option.some.injEq, List.map_append, ← List.append_assoc]
          at hwords
        -- the last word in front of the object files comes from the output
        have hlast := congrArg List.getLast? (List.append_cancel_right hwords)
        have hne : named ≠ [] := ne_nil_of_split (by decide) (by decide) houtput hnamed
        rw [List.getLast?_append_of_ne_nil _ hne] at hlast
        refine isWord_of_mem_outputText hbefore hafterOption hlibName.verbatim hnamed
          (List.mem_of_getLast? ?_)
        rw [hlast]
        simp
      · intro hlib
        obtain ⟨options, hoptions⟩ := exists_split_outputText hbefore hafter hlib
        obtain rfl := Option.some.inj (hnamed.symm.trans hoptions)
        refine ⟨(first ++ options).map String.ofList, ?_⟩
        simp [Function.comp_def]

/-- The names that the compiler gives to libraries. -/
theorem isWord_reloadLibraryName (n : ℕ) :
    IsWord (reloadLibraryName n).toList ∧ IsFileName (reloadLibraryName n) := by
  unfold reloadLibraryName
  have hchars : ∀ c ∈ ("lib_reload" ++ toString n ++ ".so").toList,
      c ∉ [' ', '\t', '\n', '\x27', '\x22', '\\', '$', '\x60'] := by
    rw [String.toList_append, String.toList_append]
    refine List.forall_mem_append.mpr ⟨List.forall_mem_append.mpr ⟨by simp, fun c hc hmem => ?_⟩,
      by simp⟩
    have hdigit : c.isDigit = true := by
      rw [Nat.toString_eq_ofList_toDigits, String.toList_ofList] at hc
      exact Nat.isDigit_of_mem_toDigits (by decide) (by decide) hc
    have hspecial : ∀ c ∈ [' ', '\t', '\n', '\x27', '\x22', '\\', '$', '\x60'],
        c.isDigit = false := by
      simp [Char.isDigit]
    rw [hspecial c hmem] at hdigit
    cases hdigit
  simp only [List.mem_cons, not_or] at hchars
  refine ⟨⟨by simp, fun c hc => ?_⟩, fun c hc => ?_⟩
  · simp [isBlank, isQuoting, hchars c hc]
  · simp [hchars c hc]

/-- The link processes of the compiler get exactly the given object files. -/
theorem startLink_carries_iff {W : Type*} (config : LiveConfig) (env : Environment)
    (finishCallback : LinkFinishCallback) {objectFilePaths : List String} (s : Session W)
    (hobjects : ∀ oFile ∈ objectFilePaths, IsFileName oFile)
    (hlinker : config.linkerType ≠ .kUnknown) :
    (∃ task options,
      (s.startLink config env finishCallback objectFilePaths).compiler.runningLinkTask = some task ∧
        shellWords task.process.command = some (options ++
          ["-o", reloadLibraryName s.compiler.currentLibIndex] ++ objectFilePaths)) ↔
      shellWords s.compiler.compilerPath ≠ none := by
  obtain ⟨hword, hname⟩ := isWord_reloadLibraryName s.compiler.currentLibIndex
  have hcarries := carriesObjects_iff s.compiler.compilerPath
    (findPrefferedBaseAddressForLibrary env.tellg env.memoryRegions objectFilePaths)
    hname hobjects hlinker
  rw [and_iff_left hword] at hcarries
  rw [← hcarries]
  constructor
  · rintro ⟨task, options, htask, hwords⟩
    obtain rfl := Option.some.inj htask
    exact ⟨options, hwords⟩
  · rintro ⟨options, hwords⟩
    exact ⟨_, options, rfl, hwords⟩

/-! ## File names on both commands -/

/-- Names of files reach the compiler and the linker exactly if those that are not quoted are words
of the shell, next to a command and a compiler that leave no quotes open. -/
theorem carries_fileNames_iff (cu : CompilationUnit) (libName compilerPath : String)
    (baseAddress : ℕ) (linkerType : LinkerType) (objectFilePaths : List String)
    (hdepfile : IsFileName cu.depFilePath) (hlibName : IsFileName libName)
    (hobjects : ∀ oFile ∈ objectFilePaths, IsFileName oFile) (hlinker : linkerType ≠ .kUnknown) :
    (CarriesDepfile cu ↔ IsClosed cu.compilationCommandStr.toList ∧
      (cu.depFilePath = "" ∨ IsWord cu.depFilePath.toList)) ∧
    (CarriesObjects libName compilerPath baseAddress linkerType objectFilePaths ↔
      shellWords compilerPath ≠ none ∧ IsWord libName.toList) :=
  ⟨carriesDepfile_iff hdepfile,
    carriesObjects_iff compilerPath baseAddress hlibName hobjects hlinker⟩

def unitWithDepfile (depFilePath : String) : CompilationUnit where
  compilationCommandStr := "c++ -c a.cpp"
  depFilePath := depFilePath

/-- Blanks in the names of object files do no harm. -/
theorem carries_quotedObject :
    CarriesDepfile (unitWithDepfile "a.o.d") ∧
      CarriesObjects "lib.so" "c++" 0x1000 .kGNU_ld ["my build/a.o", "b.o"] := by
  have h := carries_fileNames_iff (unitWithDepfile "a.o.d") "lib.so" "c++" 0x1000 .kGNU_ld
    ["my build/a.o", "b.o"] (by decide) (by decide) (by decide) (by decide)
  exact ⟨h.1.mpr (by decide), h.2.mpr (by decide)⟩

/-- The directory of a depfile with a blank in its name makes two words out of it. -/
theorem not_carriesDepfile_blank :
    IsFileName "my build/a.o.d" ∧
      shellWords (compilationCommand (unitWithDepfile "my build/a.o.d")) =
        some ["c++", "-c", "a.cpp", "-fPIC", "-MD", "-MF", "my", "build/a.o.d"] ∧
      ¬ CarriesDepfile (unitWithDepfile "my build/a.o.d") ∧
      ¬ CarriesObjects "my lib.so" "c++" 0x1000 .kGNU_ld ["a.o"] := by
  refine ⟨by decide, by decide +kernel, ?_, ?_⟩
  · rw [carriesDepfile_iff (by decide)]
    decide
  · rw [carriesObjects_iff "c++" 0x1000 (by decide) (by decide) (by decide)]
    decide

end JetLive
