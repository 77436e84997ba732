import JetLive.Library.ByteRecords
import JetLive.Loader.MachoRelocations
import JetLive.Loader.SymbolNames

/-!
# Mach-O files as blocks of bytes

The loader reads a file into a block of bytes and looks at it through the records of the format:
the header, the load commands one behind the other, and the tables that they point to. It checks
the magic number and nothing else. No offset and no count is compared with the length of the file,
so a read can go beyond the block; then the functions here give `none`.

`ObjectAt content commands` says what the format says: how a file looks like that has these load
commands, wherever its tables lie. On such files no read goes beyond the block, and all that the
loader does with the bytes is what it does with the commands (`Describes.loads`).
-/

namespace JetLive

open ByteRecords TeenyPath

def charOfByte (b : UInt8) : Char := Char.ofNat b.toNat

def textOfBytes (l : List UInt8) : String := String.ofList (l.map charOfByte)

namespace MachoProgramInfoLoader

/-! ## The reader -/

def mhMagic64 : ℕ := 0xfeedfacf

def lcSegment64 : ℕ := 0x19

def lcSymtab : ℕ := 0x2

section

variable (content : List UInt8)

def readNlist (offset : ℕ) : Option Nlist := do
  let strx ← readField content offset 4
  let type ← readField content (offset + 4) 1
  let sect ← readField content (offset + 5) 1
  let desc ← readField content (offset + 6) 2
  let value ← readField content (offset + 8) 8
  some ⟨strx, UInt8.ofNat type, UInt8.ofNat sect, UInt16.ofNat desc, BitVec.ofNat 64 value⟩

/-- The entry `relocation_info` at an offset. Its second word is a row of bit fields. -/
def readReloc (offset : ℕ) : Option MachoReloc := do
  let address ← readField content offset 4
  let word ← readField content (offset + 4) 4
  some
    { address := BitVec.ofNat 32 address
      symbolnum := BitVec.ofNat 24 word
      pcrel := word.testBit 24
      length := BitVec.ofNat 2 (word / 2 ^ 25)
      type := BitVec.ofNat 4 (word / 2 ^ 28) }

def readRelocs (offset : ℕ) : Option (List MachoReloc) := do
  let reloff ← readField content (offset + 56) 4
  let nreloc ← readField content (offset + 60) 4
  readTable (readReloc content) 8 nreloc reloff

/-- The section `section_64` at an offset. Its name is read as a string that ends at a null byte,
which need not be one of the sixteen bytes of the field. Relocation entries are read only for
objects, and only those of the sections that are called `__text`. -/
def readSection (relocs : Bool) (offset : ℕ) : Option MachoObjectSection := do
  let sectname ← readCString content offset
  let addr ← readField content (offset + 32) 8
  let size ← readField content (offset + 40) 8
  let sec : MachoSection :=
    ⟨textOfBytes sectname, BitVec.ofNat 64 addr, BitVec.ofNat 64 size⟩
  if relocs && sec.sectname = "__text" then
    let relocs ← readRelocs content offset
    some ⟨sec, relocs⟩
  else some ⟨sec, []⟩

/-- The table of symbols of a `symtab_command`. Of the string table only the offset is used, so it
reaches to the end of the file. The names of all entries have to end there, also of those that are
skipped. -/
def readSymtab (offset : ℕ) : Option ObjectCommand := do
  let symoff ← readField content (offset + 8) 4
  let nsyms ← readField content (offset + 12) 4
  let stroff ← readField content (offset + 16) 4
  let symbols ← readTable (readNlist content) 16 nsyms symoff
  if ∀ n ∈ symbols, 0 ∈ content.drop (stroff + n.strx + 1) then
    some (.symtab ((content.drop stroff).map charOfByte) symbols)
  else none

/-- The sections behind a `segment_command_64`. -/
def readSegment (relocs : Bool) (offset : ℕ) : Option ObjectCommand := do
  let nsects ← readField content (offset + 64) 4
  let sections ← readTable (readSection content relocs) 80 nsects (offset + 72)
  some (.segment sections)

def readCommand (relocs : Bool) (cmd offset : ℕ) : Option ObjectCommand :=
  if cmd = lcSegment64 then readSegment content relocs offset
  else if cmd = lcSymtab then readSymtab content offset
  else some .other

/-- The loop over the load commands, as each of the passes runs it. -/
def readCommands (relocs : Bool) : ℕ → ℕ → Option (List ObjectCommand)
  | 0, _ => some []
  | ncmds + 1, commandOffset => do
      let cmd ← readField content commandOffset 4
      let cmdsize ← readField content (commandOffset + 4) 4
      let command ← readCommand content relocs cmd commandOffset
      let commands ← readCommands relocs ncmds (commandOffset + cmdsize)
      some (command :: commands)

/-- A file with its header `mach_header_64`. -/
def readFile (relocs : Bool) : Option MachoObjectFile := do
  let magic ← readField content 0 4
  if magic = mhMagic64 then
    let ncmds ← readField content 16 4
    let commands ← readCommands content relocs ncmds 32
    some (.macho commands)
  else some .foreign

end

/-! ## The format -/

/-- `mach_header_64`. -/
structure Header where
  cputype : UInt32
  cpusubtype : UInt32
  filetype : UInt32
  ncmds : UInt32
  sizeofcmds : UInt32
  flags : UInt32
  reserved : UInt32

def Header.fields (r : Header) : List (ℕ × ℕ) :=
  [(4, mhMagic64), (4, r.cputype.toNat), (4, r.cpusubtype.toNat), (4, r.filetype.toNat),
    (4, r.ncmds.toNat), (4, r.sizeofcmds.toNat), (4, r.flags.toNat), (4, r.reserved.toNat)]

/-- `segment_command_64`. -/
structure SegmentCommand where
  cmdsize : UInt32
  segname : BitVec 128
  vmaddr : UInt64
  vmsize : UInt64
  fileoff : UInt64
  filesize : UInt64
  maxprot : UInt32
  initprot : UInt32
  nsects : UInt32
  flags : UInt32

def SegmentCommand.fields (r : SegmentCommand) : List (ℕ × ℕ) :=
  [(4, lcSegment64), (4, r.cmdsize.toNat), (16, r.segname.toNat), (8, r.vmaddr.toNat),
    (8, r.vmsize.toNat), (8, r.fileoff.toNat), (8, r.filesize.toNat), (4, r.maxprot.toNat),
    (4, r.initprot.toNat), (4, r.nsects.toNat), (4, r.flags.toNat)]

/-- What follows the two names in a `section_64`. -/
structure SectionTail where
  addr : Address
  size : Address
  offset : UInt32
  align : UInt32
  reloff : UInt32
  nreloc : UInt32
  flags : UInt32
  reserved1 : UInt32
  reserved2 : UInt32
  reserved3 : UInt32

def SectionTail.fields (r : SectionTail) : List (ℕ × ℕ) :=
  [(8, r.addr.toNat), (8, r.size.toNat), (4, r.offset.toNat), (4, r.align.toNat),
    (4, r.reloff.toNat), (4, r.nreloc.toNat), (4, r.flags.toNat), (4, r.reserved1.toNat),
    (4, r.reserved2.toNat), (4, r.reserved3.toNat)]

/-- `symtab_command`. -/
structure SymtabCommand where
  cmdsize : UInt32
  symoff : UInt32
  nsyms : UInt32
  stroff : UInt32
  strsize : UInt32

def SymtabCommand.fields (r : SymtabCommand) : List (ℕ × ℕ) :=
  [(4, lcSymtab), (4, r.cmdsize.toNat), (4, r.symoff.toNat), (4, r.nsyms.toNat),
    (4, r.stroff.toNat), (4, r.strsize.toNat)]

end MachoProgramInfoLoader

def Nlist.fields (n : Nlist) : List (ℕ × ℕ) :=
  [(4, n.strx), (1, n.type.toNat), (1, n.sect.toNat), (2, n.desc.toNat), (8, n.value.toNat)]

/-- The second word of a relocation entry. The bit `r_extern` is not read. -/
def MachoReloc.word (reloc : MachoReloc) (external : Bool) : ℕ :=
  reloc.symbolnum.toNat + 2 ^ 24 * reloc.pcrel.toNat + 2 ^ 25 * reloc.length.toNat
    + 2 ^ 27 * external.toNat + 2 ^ 28 * reloc.type.toNat

def MachoReloc.fields (reloc : MachoReloc) (external : Bool) : List (ℕ × ℕ) :=
  [(4, reloc.address.toNat), (4, reloc.word external)]

namespace MachoProgramInfoLoader

section

variable (content : List UInt8)

def NlistAt (offset : ℕ) (n : Nlist) : Prop :=
  n.strx < 2 ^ 32 ∧ At content offset (record n.fields)

def RelocAt (offset : ℕ) (reloc : MachoReloc) : Prop :=
  ∃ external, At content offset (record (reloc.fields external))

/-- A section, with its relocation entries if it is called `__text`. The two names have sixteen
bytes each. A section's name of full length runs on into the name of the segment. -/
inductive SectionAt (offset : ℕ) (sec : MachoObjectSection) : Prop
  | intro (names : List UInt8) (tail : SectionTail) (hlength : names.length = 32)
      (hends : 0 ∈ names) (hnames : At content offset names)
      (htail : At content (offset + 32) (record tail.fields))
      (hsectname : sec.sectname = textOfBytes (names.takeWhile (· ≠ 0)))
      (haddr : sec.addr = tail.addr) (hsize : sec.size = tail.size)
      (hother : sec.sectname ≠ "__text" → sec.relocs = [])
      (htext : sec.sectname = "__text" → tail.nreloc.toNat = sec.relocs.length ∧
        Rows (RelocAt content) 8 tail.reloff.toNat sec.relocs) : SectionAt offset sec

/-- A load command of the given size. -/
inductive CommandAt (offset : ℕ) : ObjectCommand → ℕ → Prop
  | segment (r : SegmentCommand) (sections : List MachoObjectSection)
      (hrecord : At content offset (record r.fields)) (hnsects : r.nsects.toNat = sections.length)
      (hsections : Rows (SectionAt content) 80 (offset + 72) sections) :
      CommandAt offset (.segment sections) r.cmdsize.toNat
  | symtab (r : SymtabCommand) (symbols : List Nlist)
      (hrecord : At content offset (record r.fields)) (hnsyms : r.nsyms.toNat = symbols.length)
      (hsymbols : Rows (NlistAt content) 16 r.symoff.toNat symbols)
      (hends : ∀ n ∈ symbols, 0 ∈ content.drop (r.stroff.toNat + n.strx + 1)) :
      CommandAt offset (.symtab ((content.drop r.stroff.toNat).map charOfByte) symbols)
        r.cmdsize.toNat
  | other (cmd cmdsize : UInt32)
      (hrecord : At content offset (record [(4, cmd.toNat), (4, cmdsize.toNat)]))
      (hsegment : cmd.toNat ≠ lcSegment64) (hsymtab : cmd.toNat ≠ lcSymtab) :
      CommandAt offset .other cmdsize.toNat

/-- Load commands one behind the other. -/
inductive CommandsAt : ℕ → List ObjectCommand → Prop
  | nil (offset : ℕ) : CommandsAt offset []
  | cons {offset cmdsize : ℕ} {command : ObjectCommand} {commands : List ObjectCommand}
      (hcommand : CommandAt content offset command cmdsize)
      (hcommands : CommandsAt (offset + cmdsize) commands) :
      CommandsAt offset (command :: commands)

def ObjectAt (commands : List ObjectCommand) : Prop :=
  ∃ r : Header, At content 0 (record r.fields) ∧ r.ncmds.toNat = commands.length ∧
    CommandsAt content 32 commands

end

/-! ## What the reader reads -/

variable {content : List UInt8} {offset : ℕ}

/-- The section as it is read with or without its relocation entries. -/
def withRelocs (relocs : Bool) (sec : MachoObjectSection) : MachoObjectSection :=
  if relocs then sec else { sec with relocs := [] }

/-- The command as it is read with or without relocation entries. -/
def commandWithRelocs (relocs : Bool) : ObjectCommand → ObjectCommand
  | .segment sections => .segment (sections.map (withRelocs relocs))
  | .symtab stringTable symbols => .symtab stringTable symbols
  | .other => .other

theorem readNlist_eq {n : Nlist} (h : NlistAt content offset n) :
    readNlist content offset = some n := by
  obtain ⟨hstrx, hrecord⟩ := h
  have h0 : readField content offset 4 = some n.strx :=
    readField_of_record hrecord 0 rfl (by decide) hstrx
  have h1 : readField content (offset + 4) 1 = some n.type.toNat :=
    readField_of_record hrecord 1 rfl (by decide) n.type.toNat_lt
  have h2 : readField content (offset + 5) 1 = some n.sect.toNat :=
    readField_of_record hrecord 2 rfl (by decide) n.sect.toNat_lt
  have h3 : readField content (offset + 6) 2 = some n.desc.toNat :=
    readField_of_record hrecord 3 rfl (by decide) n.desc.toNat_lt
  have h4 : readField content (offset + 8) 8 = some n.value.toNat :=
    readField_of_record hrecord 4 rfl (by decide) n.value.isLt
  simp [readNlist, h0, h1, h2, h3, h4]

theorem word_lt (reloc : MachoReloc) (external : Bool) : reloc.word external < 256 ^ 4 := by
  have h1 := reloc.symbolnum.isLt
  have h2 := reloc.pcrel.toNat_lt
  have h3 := reloc.length.isLt
  have h4 := external.toNat_lt
  have h5 := reloc.type.isLt
  unfold MachoReloc.word
  omega

theorem readReloc_eq {reloc : MachoReloc} (h : RelocAt content offset reloc) :
    readReloc content offset = some reloc := by
  obtain ⟨external, hrecord⟩ := h
  have h0 : readField content offset 4 = some reloc.address.toNat :=
    readField_of_record hrecord 0 rfl (by decide) reloc.address.isLt
  have h1 : readField content (offset + 4) 4 = some (reloc.word external) :=
    readField_of_record hrecord 1 rfl (by decide) (word_lt reloc external)
  have hsymbolnum := reloc.symbolnum.isLt
  have hpcrel := reloc.pcrel.toNat_lt
  have hlength := reloc.length.isLt
  have hexternal := external.toNat_lt
  have htype := reloc.type.isLt
  simp only [readReloc, h0, h1, Option.bind_eq_bind, Option.bind_some, Option.some.injEq]
  obtain ⟨address, symbolnum, pcrel, length, type⟩ := reloc
  simp only [MachoReloc.mk.injEq, BitVec.ofNat_toNat, BitVec.setWidth_eq, true_and]
  dsimp only at hsymbolnum hpcrel hlength htype
  -- each field is a quotient of the word modulo its width
  refine ⟨BitVec.eq_of_toNat_eq ?_, ?_, BitVec.eq_of_toNat_eq ?_, BitVec.eq_of_toNat_eq ?_⟩
  · simp only [BitVec.toNat_ofNat, MachoReloc.word]
    omega
  · rw [Nat.testBit_eq_decide_div_mod_eq, MachoReloc.word]
    cases pcrel with
    | false => exact decide_eq_false (by simp only [Bool.toNat_false]; omega)
    | true => exact decide_eq_true (by simp only [Bool.toNat_true]; omega)
  · simp only [BitVec.toNat_ofNat, MachoReloc.word]
    omega
  · simp only [BitVec.toNat_ofNat, MachoReloc.word]
    omega

theorem readSection_eq (relocs : Bool) {sec : MachoObjectSection}
    (h : SectionAt content offset sec) :
    readSection content relocs offset = some (withRelocs relocs sec) := by
  obtain ⟨names, tail, hlength, hends, hnames, htail, hsectname, haddr, hsize, hother, htext⟩ := h
  have h0 := readCString_of_at hnames hends
  have h1 : readField content (offset + 32) 8 = some tail.addr.toNat :=
    readField_of_record htail 0 rfl (by decide) tail.addr.isLt
  have h2 : readField content (offset + 40) 8 = some tail.size.toNat :=
    readField_of_record htail 1 rfl (by decide) tail.size.isLt
  have h3 : readField content (offset + 56) 4 = some tail.reloff.toNat :=
    readField_of_record htail 4 rfl (by decide) tail.reloff.toNat_lt
  have h4 : readField content (offset + 60) 4 = some tail.nreloc.toNat :=
    readField_of_record htail 5 rfl (by decide) tail.nreloc.toNat_lt
  simp only [readSection, h0, h1, h2, Option.bind_eq_bind, Option.bind_some, ← hsectname,
    BitVec.ofNat_toNat, BitVec.setWidth_eq, ← haddr, ← hsize]
  cases relocs with
  | false => rfl
  | true =>
      by_cases hname : sec.sectname = "__text"
      · obtain ⟨hnreloc, hrows⟩ := htext hname
        have hread := hrows.readTable_eq (f := id) fun _ _ h => readReloc_eq h
        rw [← hnreloc, List.map_id] at hread
        rw [if_pos (by simp [hname])]
        simp only [readRelocs, h3, h4, hread, Option.bind_eq_bind, Option.bind_some]
        rfl
      · rw [if_neg (by simp [hname]), ← hother hname]
        rfl

theorem readSymtab_eq {r : SymtabCommand} {symbols : List Nlist}
    (hrecord : At content offset (record r.fields)) (hnsyms : r.nsyms.toNat = symbols.length)
    (hsymbols : Rows (NlistAt content) 16 r.symoff.toNat symbols)
    (hends : ∀ n ∈ symbols, 0 ∈ content.drop (r.stroff.toNat + n.strx + 1)) :
    readSymtab content offset =
      some (.symtab ((content.drop r.stroff.toNat).map charOfByte) symbols) := by
  have h1 : readField content (offset + 8) 4 = some r.symoff.toNat :=
    readField_of_record hrecord 2 rfl (by decide) r.symoff.toNat_lt
  have h2 : readField content (offset + 12) 4 = some r.nsyms.toNat :=
    readField_of_record hrecord 3 rfl (by decide) r.nsyms.toNat_lt
  have h3 : readField content (offset + 16) 4 = some r.stroff.toNat :=
    readField_of_record hrecord 4 rfl (by decide) r.stroff.toNat_lt
  have hread := hsymbols.readTable_eq (f := id) fun _ _ h => readNlist_eq h
  rw [← hnsyms, List.map_id] at hread
  simp only [readSymtab, h1, h2, h3, hread, Option.bind_eq_bind, Option.bind_some]
  exact if_pos hends

theorem readSegment_eq (relocs : Bool) {r : SegmentCommand} {sections : List MachoObjectSection}
    (hrecord : At content offset (record r.fields)) (hnsects : r.nsects.toNat = sections.length)
    (hsections : Rows (SectionAt content) 80 (offset + 72) sections) :
    readSegment content relocs offset = some (.segment (sections.map (withRelocs relocs))) := by
  have h1 : readField content (offset + 64) 4 = some r.nsects.toNat :=
    readField_of_record hrecord 9 rfl (by decide) r.nsects.toNat_lt
  have hread := hsections.readTable_eq fun _ _ h => readSection_eq relocs h
  rw [← hnsects] at hread
  simp only [readSegment, h1, hread, Option.bind_eq_bind, Option.bind_some]

/-- A command is read with its number and its size. -/
theorem readCommand_eq (relocs : Bool) {command : ObjectCommand} {cmdsize : ℕ}
    (h : CommandAt content offset command cmdsize) :
    ∃ cmd, readField content offset 4 = some cmd ∧
      readField content (offset + 4) 4 = some cmdsize ∧
      readCommand content relocs cmd offset = some (commandWithRelocs relocs command) := by
  cases h with
  | segment r sections hrecord hnsects hsections =>
      refine ⟨lcSegment64, readField_of_record hrecord 0 rfl (by decide) (by decide),
        readField_of_record hrecord 1 rfl (by decide) r.cmdsize.toNat_lt, ?_⟩
      rw [readCommand, if_pos rfl]
      exact readSegment_eq relocs hrecord hnsects hsections
  | symtab r symbols hrecord hnsyms hsymbols hends =>
      refine ⟨lcSymtab, readField_of_record hrecord 0 rfl (by decide) (by decide),
        readField_of_record hrecord 1 rfl (by decide) r.cmdsize.toNat_lt, ?_⟩
      rw [readCommand, if_neg (by decide), if_pos rfl]
      exact readSymtab_eq hrecord hnsyms hsymbols hends
  | other cmd cmdsize hrecord hsegment hsymtab =>
      refine ⟨cmd.toNat, readField_of_record hrecord 0 rfl (by decide) cmd.toNat_lt,
        readField_of_record hrecord 1 rfl (by decide) cmdsize.toNat_lt, ?_⟩
      rw [readCommand, if_neg hsegment, if_neg hsymtab]
      rfl

theorem readCommands_eq (relocs : Bool) {commands : List ObjectCommand}
    (h : CommandsAt content offset commands) :
    readCommands content relocs commands.length offset =
      some (commands.map (commandWithRelocs relocs)) := by
  induction h with
  | nil => rfl
  | cons hcommand _ ih =>
      obtain ⟨cmd, hcmd, hcmdsize, hread⟩ := readCommand_eq relocs hcommand
      simp [readCommands, hcmd, hcmdsize, hread, ih]

theorem ObjectAt.readFile_eq (relocs : Bool) {commands : List ObjectCommand}
    (h : ObjectAt content commands) :
    readFile content relocs = some (.macho (commands.map (commandWithRelocs relocs))) := by
  obtain ⟨r, hrecord, hncmds, hcommands⟩ := h
  have h0 : readField content 0 4 = some mhMagic64 :=
    readField_of_record hrecord 0 rfl (by decide) (by decide)
  have h1 : readField content 16 4 = some r.ncmds.toNat :=
    readField_of_record hrecord 4 rfl (by decide) r.ncmds.toNat_lt
  have hread := readCommands_eq relocs hcommands
  rw [← hncmds] at hread
  simp [readFile, h0, h1, hread]

end MachoProgramInfoLoader

/-! ## The loader -/

def MachoObjectFile.toMachoFile : MachoObjectFile → MachoFile
  | .unreadable => .unreadable
  | .foreign => .foreign
  | .macho commands => .macho (commands.map ObjectCommand.toLoadCommand)

namespace MachoProgramInfoLoader

section

variable (files : String → Option (List UInt8))

def openFile (relocs : Bool) (filepath : String) : Option MachoObjectFile :=
  match files filepath with
  | none => some .unreadable
  | some content => readFile content relocs

@[inherit_doc getSymbolNames]
def getSymbolNamesOfBytes (selects : Nlist → Bool) (filepath : String) :
    Option (List String × List LogEntry) := do
  let file ← openFile files false filepath
  some (getSymbolNames selects (fun _ => file.toMachoFile) filepath)

/-- Read the symbols of a program. The file is opened only if the image has a slide. -/
def getProgramSymbolsOfBytes (stringHasher : String → UInt64) (fs : FileSystem)
    (images : List (String × Address)) (thisExecutablePath filepath : String) :
    Option (Symbols × List LogEntry) := do
  let realFilepath := if filepath = "" then thisExecutablePath else filepath
  let file ←
    if (findSlide fs realFilepath images).1 = none then some .unreadable
    else openFile files false realFilepath
  some (getProgramSymbols stringHasher fs images (fun _ => file.toMachoFile) thisExecutablePath
    filepath)

@[inherit_doc getLinkTimeRelocations]
def getLinkTimeRelocationsOfBytes (arch : Architecture) (stringHasher : String → UInt64) :
    List String → Option (List Relocation × List LogEntry)
  | [] => some ([], [])
  | filepath :: objFilePaths => do
      match ← openFile files true filepath with
      | .unreadable =>
          let rest ← getLinkTimeRelocationsOfBytes arch stringHasher objFilePaths
          some (rest.1, .log .kError ("Cannot open " ++ filepath) :: rest.2)
      | .foreign => some ([], [])
      | .macho commands =>
          let found := MachoObject.linkTimeRelocations arch stringHasher ⟨filepath, commands⟩
          let rest ← getLinkTimeRelocationsOfBytes arch stringHasher objFilePaths
          some (found.1 ++ rest.1, found.2 ++ rest.2)

end

/-- What is found at a path: nothing, a file with another magic number, or a Mach-O file. -/
inductive FileAt : Option (List UInt8) → MachoObjectFile → Prop
  | unreadable : FileAt none .unreadable
  | foreign {content : List UInt8} (magic : UInt32)
      (hmagic : At content 0 (record [(4, magic.toNat)])) (hother : magic.toNat ≠ mhMagic64) :
      FileAt (some content) .foreign
  | macho {content : List UInt8} {commands : List ObjectCommand} (h : ObjectAt content commands) :
      FileAt (some content) (.macho commands)

/-- The bytes of all files are as the format says. -/
def Describes (files : String → Option (List UInt8)) (fopen : String → MachoObjectFile) : Prop :=
  ∀ filepath, FileAt (files filepath) (fopen filepath)

theorem commandWithRelocs_true : commandWithRelocs true = id := by
  funext command
  cases command with
  | segment sections => exact congrArg ObjectCommand.segment (List.map_id _)
  | symtab stringTable symbols => rfl
  | other => rfl

theorem toLoadCommand_commandWithRelocs (relocs : Bool) (command : ObjectCommand) :
    (commandWithRelocs relocs command).toLoadCommand = command.toLoadCommand := by
  cases command with
  | segment sections =>
      simp only [commandWithRelocs, ObjectCommand.toLoadCommand, List.map_map]
      congr 1
      refine List.map_congr_left fun sec _ => ?_
      cases relocs <;> rfl
  | symtab stringTable symbols => rfl
  | other => rfl

namespace Describes

variable {files : String → Option (List UInt8)} {fopen : String → MachoObjectFile}

theorem openFile_true (h : Describes files fopen) (filepath : String) :
    openFile files true filepath = some (fopen filepath) := by
  have hfile := h filepath
  unfold openFile
  generalize files filepath = bytes, fopen filepath = file at hfile
  cases hfile with
  | unreadable => rfl
  | foreign magic hmagic hother =>
      have h0 : readField _ 0 4 = some magic.toNat :=
        readField_of_record hmagic 0 rfl (by decide) magic.toNat_lt
      simp [readFile, h0, hother]
  | macho hobject =>
      simp only [hobject.readFile_eq, commandWithRelocs_true, List.map_id]

/-- Without the relocations the file is read as an image. -/
theorem openFile_false (h : Describes files fopen) (filepath : String) :
    ∃ file, openFile files false filepath = some file ∧
      file.toMachoFile = (fopen filepath).toMachoFile := by
  have hfile := h filepath
  unfold openFile
  generalize files filepath = bytes, fopen filepath = file at hfile
  cases hfile with
  | unreadable => exact ⟨_, rfl, rfl⟩
  | foreign magic hmagic hother =>
      have h0 : readField _ 0 4 = some magic.toNat :=
        readField_of_record hmagic 0 rfl (by decide) magic.toNat_lt
      exact ⟨.foreign, by simp [readFile, h0, hother], rfl⟩
  | macho hobject =>
      refine ⟨_, hobject.readFile_eq false, ?_⟩
      simp only [MachoObjectFile.toMachoFile, List.map_map]
      congr 1
      exact List.map_congr_left fun command _ => toLoadCommand_commandWithRelocs false command

theorem getSymbolNames_eq (h : Describes files fopen) (selects : Nlist → Bool)
    (filepath : String) : getSymbolNamesOfBytes files selects filepath =
      some (getSymbolNames selects (fun p => (fopen p).toMachoFile) filepath) := by
  obtain ⟨file, hopen, hfile⟩ := h.openFile_false filepath
  simp [getSymbolNamesOfBytes, hopen, getSymbolNames, hfile]

theorem getProgramSymbols_eq (h : Describes files fopen) (stringHasher : String → UInt64)
    (fs : FileSystem) (images : List (String × Address))
    (thisExecutablePath filepath : String) :
    getProgramSymbolsOfBytes files stringHasher fs images thisExecutablePath filepath =
      some (getProgramSymbols stringHasher fs images (fun p => (fopen p).toMachoFile)
        thisExecutablePath filepath) := by
  unfold getProgramSymbolsOfBytes getProgramSymbols
  dsimp only
  generalize (if filepath = "" then thisExecutablePath else filepath) = realFilepath
  obtain ⟨file, hopen, hfile⟩ := h.openFile_false realFilepath
  cases hslide : (findSlide fs realFilepath images).1 with
  | none => simp
  | some baseAddress => simp [hopen, hfile]

theorem getLinkTimeRelocations_eq (h : Describes files fopen) (arch : Architecture)
    (stringHasher : String → UInt64) (objFilePaths : List String) :
    getLinkTimeRelocationsOfBytes files arch stringHasher objFilePaths =
      some (getLinkTimeRelocations arch stringHasher fopen objFilePaths) := by
  induction objFilePaths with
  | nil => rfl
  | cons filepath objFilePaths ih =>
      rw [getLinkTimeRelocationsOfBytes, getLinkTimeRelocations, h.openFile_true filepath, ih]
      cases fopen filepath <;> rfl

/-- On files that are as the format says, the loader reads no byte beyond a file, and it finds
what the load commands and their tables say. -/
theorem loads (h : Describes files fopen) (arch : Architecture) (stringHasher : String → UInt64) :
    (∀ objFilePaths, getLinkTimeRelocationsOfBytes files arch stringHasher objFilePaths =
      some (getLinkTimeRelocations arch stringHasher fopen objFilePaths)) ∧
    (∀ fs images thisExecutablePath filepath,
      getProgramSymbolsOfBytes files stringHasher fs images thisExecutablePath filepath =
        some (getProgramSymbols stringHasher fs images (fun p => (fopen p).toMachoFile)
          thisExecutablePath filepath)) ∧
    (∀ filepath, getSymbolNamesOfBytes files Nlist.undefined filepath =
      some (getUndefinedSymbolNames (fun p => (fopen p).toMachoFile) filepath)) ∧
    ∀ filepath, getSymbolNamesOfBytes files Nlist.exported filepath =
      some (getExportedSymbolNames (fun p => (fopen p).toMachoFile) filepath) :=
  ⟨h.getLinkTimeRelocations_eq arch stringHasher, h.getProgramSymbols_eq stringHasher,
    h.getSymbolNames_eq Nlist.undefined, h.getSymbolNames_eq Nlist.exported⟩

end Describes

/-! ### An object with one function -/

def smallHeader : Header where
  cputype := 0x01000007
  cpusubtype := 3
  filetype := 1
  ncmds := 2
  sizeofcmds := 176
  flags := 0
  reserved := 0

def smallSegment : SegmentCommand where
  cmdsize := 152
  segname := 0
  vmaddr := 0
  vmsize := 8
  fileoff := 0
  filesize := 0
  maxprot := 7
  initprot := 7
  nsects := 1
  flags := 0

/-- The names of the section `__text` of the segment `__TEXT`. -/
def smallNames : List UInt8 :=
  [0x5f, 0x5f, 0x74, 0x65, 0x78, 0x74] ++ List.replicate 10 0 ++
    [0x5f, 0x5f, 0x54, 0x45, 0x58, 0x54] ++ List.replicate 10 0

def smallSection : SectionTail where
  addr := 0
  size := 8
  offset := 0
  align := 0
  reloff := 208
  nreloc := 1
  flags := 0
  reserved1 := 0
  reserved2 := 0
  reserved3 := 0

def smallSymtab : SymtabCommand where
  cmdsize := 24
  symoff := 216
  nsyms := 1
  stroff := 232
  strsize := 4

def smallReloc : MachoReloc where
  address := 3
  symbolnum := 0
  type := 1

def smallSymbol : Nlist where
  strx := 1
  type := 0xf
  sect := 1

def smallFile : List UInt8 :=
  record smallHeader.fields ++ record smallSegment.fields ++ smallNames ++
    record smallSection.fields ++ record smallSymtab.fields ++ record (smallReloc.fields true) ++
    record smallSymbol.fields ++ [0, 0x5f, 0x66, 0]

def smallCommands : List ObjectCommand :=
  [.segment [{ sectname := "__text", size := 8, relocs := [smallReloc] }],
    .symtab ['\x00', '_', 'f', '\x00'] [smallSymbol]]

theorem smallFile_objectAt : ObjectAt smallFile smallCommands := by
  have hsection : SectionAt smallFile 104
      { sectname := "__text", size := 8, relocs := [smallReloc] } := by
    refine .intro smallNames smallSection rfl (by decide) (by decide +kernel) (by decide +kernel)
      (by decide +kernel) rfl rfl (fun h => absurd rfl h) fun _ => ⟨rfl, ?_, trivial⟩
    exact ⟨true, by decide +kernel⟩
  have hstrings : (smallFile.drop smallSymtab.stroff.toNat).map charOfByte =
      ['\x00', '_', 'f', '\x00'] := by decide +kernel
  have hsymtab : CommandAt smallFile 184 (.symtab ['\x00', '_', 'f', '\x00'] [smallSymbol]) 24 := by
    rw [← hstrings]
    exact .symtab smallSymtab _ (by decide +kernel) rfl
      ⟨⟨by decide, by decide +kernel⟩, trivial⟩ (by decide +kernel)
  have hsegment : CommandAt smallFile 32
      (.segment [{ sectname := "__text", size := 8, relocs := [smallReloc] }]) 152 :=
    .segment smallSegment _ (by decide +kernel) rfl ⟨hsection, trivial⟩
  exact ⟨smallHeader, by decide +kernel, rfl, .cons hsegment (.cons hsymtab (.nil _))⟩

def smallFiles (filepath : String) : Option (List UInt8) :=
  if filepath = "/p/a.o" then some smallFile else none

def smallObjects (filepath : String) : MachoObjectFile :=
  if filepath = "/p/a.o" then .macho smallCommands else .unreadable

theorem smallFiles_loads : Describes smallFiles smallObjects ∧
    getSymbolNamesOfBytes smallFiles Nlist.exported "/p/a.o" = some (["f"], []) := by
  have h : Describes smallFiles smallObjects := by
    intro filepath
    unfold smallFiles smallObjects
    split
    · exact .macho smallFile_objectAt
    · exact .unreadable
  refine ⟨h, ((h.loads .x86_64 fun _ => 0).2.2.2 "/p/a.o").trans ?_⟩
  decide +kernel

end MachoProgramInfoLoader

end JetLive
