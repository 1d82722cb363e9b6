import Air101.Maptool.Records
import Air101.Storage.Pattern
import Mathlib.Data.List.DropRight

/-!
# Maptool.Parser

The parser of the map file tool (`tools/maptool/maptool/parser.py`): `parse_map_file` over the
decoded text of the file. `decimal` is the value of a decimal digit, of any script, as `\d` and
`int` know it.

A section of the file ends at a line of equals signs (`ParseState`). The cross references give the
calls and the symbols of the objects with a bare `.text` section; the memory map gives the sizes.
`distributeAnonSizes`, last, shares the size of such an object among its symbols.
-/

namespace Air101
namespace Maptool

open Storage

/-! ## Texts -/

/-- `c.isspace()`, which is also `\s`. -/
def isSpace (c : Char) : Bool :=
  let n := c.toNat
  (9 ≤ n && n ≤ 13) || (28 ≤ n && n ≤ 32) || n == 0x85 || n == 0xA0 || n == 0x1680 ||
    (0x2000 ≤ n && n ≤ 0x200A) || n == 0x2028 || n == 0x2029 || n == 0x202F || n == 0x205F ||
    n == 0x3000

/-- `text.strip()`. -/
def strip (t : Text) : Text := (t.dropWhile isSpace).rdropWhile isSpace

/-- The line ends of a file opened as text. -/
def universalNewlines : Text → Text
  | [] => []
  | '\r' :: '\n' :: cs => '\n' :: universalNewlines cs
  | '\r' :: cs => '\n' :: universalNewlines cs
  | c :: cs => c :: universalNewlines cs

/-- The lines of a file, with their ends. -/
def fileLines : Text → List Text
  | [] => []
  | c :: cs =>
    if c = '\n' then [c] :: fileLines cs
    else
      match fileLines cs with
      | [] => [[c]]
      | line :: lines => (c :: line) :: lines

def hexDigit (c : Char) : Option Nat :=
  if '0' ≤ c ∧ c ≤ '9' then some (c.toNat - '0'.toNat)
  else if 'a' ≤ c ∧ c ≤ 'f' then some (c.toNat - 'a'.toNat + 10)
  else if 'A' ≤ c ∧ c ≤ 'F' then some (c.toNat - 'A'.toNat + 10)
  else none

/-- `int(text, 16)` of a text with the prefix `0x`. `none` is a `ValueError`. -/
def int16 : Text → Option Nat
  | '0' :: 'x' :: digits => numeral 16 hexDigit digits
  | _ => none

def normalizeObjectPath (path : Text) : Text :=
  (strip path).map fun c => if c = '\\' then '/' else c

/-- The text without `.o` at its end. -/
def dropObjSuffix (t : Text) : Text :=
  if ".o".toList.isSuffixOf t then t.take (t.length - 2) else t

/-- What stands behind the last slash. -/
def fileName (path : Text) : Text :=
  if '/' ∈ path then path.rtakeWhile (· ≠ '/') else path

def extractSourceFile (objPath : Text) : Text :=
  let parts := (dropObjSuffix objPath).splitOn '/'
  let behind := ["release".toList, "cross".toList].findSome? fun marker =>
    if marker ∈ parts ∧ parts.idxOf marker + 3 < parts.length then
      some (['/'].intercalate (parts.drop (parts.idxOf marker + 3)) ++ ".c".toList)
    else none
  behind.getD (parts.getLastD [] ++ ".c".toList)

/-- `<foo>` for an object `foo.o`. -/
def syntheticName (objPath : Text) : Text := '<' :: dropObjSuffix (fileName objPath) ++ ['>']

def textDot : Text := ".text.".toList

def resolveCallerName (objPath sectionName : Text) : Text × Bool :=
  if textDot.isPrefixOf sectionName ∧ sectionName ≠ ".text".toList then
    (sectionName.drop textDot.length, false)
  else (syntheticName objPath, true)

/-! ## The line patterns -/

section Patterns

open Pattern

variable (decimal : Char → Option Nat)

def spaces0 : Pattern := many isSpace 0 true
def spaces1 : Pattern := many isSpace 1 true
def nonSpaces : Pattern := many (fun c => !isSpace c) 1 true
def anyLazy : Pattern := many (fun c => c != '\n') 1 false
def anyGreedy : Pattern := many (fun c => c != '\n') 1 true
def hexNumber : Pattern := concat [text "0x".toList, many (fun c => (hexDigit c).isSome) 1 true]
def decimals : Pattern := many (fun c => (decimal c).isSome) 1 true

def crossRefRe : Pattern :=
  concat [spaces0, group anyLazy, text ['('], group anyLazy, text [')'], spaces1,
    text "refers".toList, spaces1, text "to".toList, spaces1, group anyLazy, text ['('],
    group anyLazy, text [')'], spaces1, text "for".toList, spaces1, group anyGreedy, atEnd]

def memoryMapRe : Pattern :=
  concat [spaces0, group hexNumber, spaces1, group hexNumber, spaces1, group nonSpaces, spaces1,
    group nonSpaces, spaces1, group (decimals decimal), spaces1, group nonSpaces, spaces1,
    group anyGreedy, atEnd]

def totalRe : Pattern :=
  concat [spaces1, group (decimals decimal), spaces1, group (decimals decimal), spaces1,
    group (decimals decimal), spaces1, group (decimals decimal), spaces1,
    group (decimals decimal), spaces1, group anyGreedy, atEnd]

end Patterns

inductive ParseState where
  | header
  | crossRefs
  | removedSections
  | symbolTable
  | memoryMap
  | componentSizes
  | done
  deriving DecidableEq

/-- The state behind a line of equals signs. -/
def ParseState.next : ParseState → ParseState
  | header => crossRefs
  | crossRefs => removedSections
  | removedSections => symbolTable
  | symbolTable => memoryMap
  | memoryMap => componentSizes
  | componentSizes => done
  | done => done

/-- The variables of the parser. -/
structure Tracking where
  result : ParseResult
  objToSymbols : Dict Text (FinSet Text)
  objToCallers : Dict Text (FinSet Text)
  anonObjSizes : Dict Text Nat

def Tracking.setFunctions (t : Tracking) (functions : Dict Text FunctionInfo) : Tracking :=
  { t with result := { t.result with functions := functions } }

/-! ## Cross references -/

/-- What the parser reads in a line of the cross references. -/
def crossRef (line : Text) : Option CallEdge :=
  match crossRefRe.firstMatch line with
  | some [callerObj, callerSection, calleeObj, calleeSection, symbol] =>
    let callerObj := normalizeObjectPath callerObj
    let callerSection := strip callerSection
    let symbol := strip symbol
    some
      { callerFunc := (resolveCallerName callerObj callerSection).1
        calleeFunc := symbol
        callerObj := callerObj
        calleeObj := normalizeObjectPath calleeObj
        callerSection := callerSection
        calleeSection := strip calleeSection
        symbol := symbol }
  | _ => none

def CallEdge.isCallerAnon (edge : CallEdge) : Bool :=
  (resolveCallerName edge.callerObj edge.callerSection).2

/-- The callee is in a section without a name of its own. -/
def CallEdge.isCalleeAnon (edge : CallEdge) : Bool :=
  edge.calleeSection == ".text".toList || !textDot.isPrefixOf edge.calleeSection

def appendEdge (edge : CallEdge) (t : Tracking) : Tracking :=
  { t with result := { t.result with edges := t.result.edges ++ [edge] } }

/-- The symbol of an anonymous callee object. -/
def trackCallee (edge : CallEdge) (t : Tracking) : Tracking :=
  if edge.isCalleeAnon then
    { t with objToSymbols := addTo t.objToSymbols edge.calleeObj edge.calleeFunc }
  else t

def trackCaller (edge : CallEdge) (t : Tracking) : Tracking :=
  if edge.isCallerAnon then
    { t with objToCallers := addTo t.objToCallers edge.callerObj edge.callerFunc }
  else t

/-- An anonymous caller is registered as a function. -/
def registerCaller (edge : CallEdge) (t : Tracking) : Tracking :=
  if edge.isCallerAnon ∧ t.result.functions.contains edge.callerFunc = false then
    t.setFunctions (t.result.functions.set edge.callerFunc
      { name := edge.callerFunc
        objectFile := edge.callerObj
        sourceFile := extractSourceFile edge.callerObj
        isNamed := false
        isAnonymousCaller := true })
  else t

def addEdge (edge : CallEdge) (t : Tracking) : Tracking :=
  registerCaller edge (trackCaller edge (trackCallee edge (appendEdge edge t)))

def parseCrossRef (line : Text) (t : Tracking) : Tracking :=
  match crossRef line with
  | none => t
  | some edge => addEdge edge t

/-! ## The memory map -/

/-- An entry of the memory map. -/
structure MapEntry where
  size : Nat
  entryType : Text
  sectionName : Text
  objPath : Text
  deriving DecidableEq

/-- What the parser reads in a line of the memory map. `none` is a `ValueError`. -/
def mapEntry (decimal : Char → Option Nat) (line : Text) : Option (Option MapEntry) :=
  match (memoryMapRe decimal).firstMatch line with
  | some [baseAddr, size, entryType, _, _, sectionName, objPath] =>
    match int16 baseAddr, int16 size with
    | some _, some size =>
      some (some
        { size := size
          entryType := strip entryType
          sectionName := strip sectionName
          objPath := normalizeObjectPath objPath })
    | _, _ => none
  | _ => some none

def addOrUpdateFunc (functions : Dict Text FunctionInfo) (name objPath : Text) (size : Nat)
    (isNamed : Bool) : Dict Text FunctionInfo :=
  match functions.get? name with
  | some func =>
    let func := { func with flashSize := func.flashSize + size }
    let func :=
      if func.objectFile = [] then
        { func with objectFile := objPath, sourceFile := extractSourceFile objPath }
      else func
    functions.set name { func with isNamed := isNamed }
  | none =>
    functions.set name
      { name := name
        objectFile := objPath
        sourceFile := extractSourceFile objPath
        flashSize := size
        isNamed := isNamed }

/-- The function of a section `.text.name`. -/
def addNamed (entry : MapEntry) (t : Tracking) : Tracking :=
  t.setFunctions (addOrUpdateFunc t.result.functions (entry.sectionName.drop textDot.length)
    entry.objPath entry.size true)

/-- `anon_obj_sizes[obj_path] += size`. -/
def addAnonSize (entry : MapEntry) (t : Tracking) : Tracking :=
  let size := (t.anonObjSizes.get? entry.objPath).getD 0
  { t with anonObjSizes := t.anonObjSizes.set entry.objPath (size + entry.size) }

/-- `result.object_ram[obj_path]` after `f`. -/
def updateRam (entry : MapEntry) (f : ObjectRamInfo → ObjectRamInfo) (t : Tracking) : Tracking :=
  let objectRam := t.result.objectRam
  let info := (objectRam.get? entry.objPath).getD {}
  { t with result := { t.result with objectRam := objectRam.set entry.objPath (f info) } }

def ensureRam (entry : MapEntry) (t : Tracking) : Tracking :=
  if t.result.objectRam.contains entry.objPath then t else updateRam entry id t

def addCode (entry : MapEntry) (t : Tracking) : Tracking :=
  if textDot.isPrefixOf entry.sectionName ∧ entry.sectionName ≠ ".text".toList then
    addNamed entry t
  else if entry.sectionName = ".text".toList then addAnonSize entry t
  else if textDot.isPrefixOf entry.sectionName then addNamed entry t
  else t

def addEntry (entry : MapEntry) (t : Tracking) : Tracking :=
  if entry.entryType = "PAD".toList then t
  else if entry.entryType = "Code".toList then addCode entry (ensureRam entry t)
  else if entry.entryType = "Data".toList then
    updateRam entry (fun ram => { ram with dataSize := ram.dataSize + entry.size })
      (ensureRam entry t)
  else if entry.entryType = "Zero".toList then
    updateRam entry (fun ram => { ram with bssSize := ram.bssSize + entry.size })
      (ensureRam entry t)
  else ensureRam entry t

def parseMemoryMap (decimal : Char → Option Nat) (line : Text) (t : Tracking) : Option Tracking :=
  match mapEntry decimal line with
  | none => none
  | some none => some t
  | some (some entry) => some (addEntry entry t)

/-! ## Anonymous objects -/

/-- The symbols known of an object. -/
def Tracking.symbolsOf (t : Tracking) (objPath : Text) : FinSet Text :=
  let symbols := FinSet.empty
  let symbols :=
    match t.objToSymbols.get? objPath with
    | none => symbols
    | some s => symbols.union s
  match t.objToCallers.get? objPath with
  | none => symbols
  | some s => symbols.union s

/-- The symbols that are no synthetic names, or all of them without such. -/
def realSymbols (symbols : FinSet Text) : FinSet Text :=
  let real := symbols.filter fun s => s.head? != some '<'
  if real.elems = [] then symbols else real

/-- What the symbol at place `i` gets of a size. -/
def share (totalSize count i : Nat) : Nat :=
  let perFuncSize := totalSize / count
  let remainder := totalSize - perFuncSize * count
  perFuncSize + (if i < remainder then 1 else 0)

def newAnonObject (name objPath : Text) (size : Nat) : FunctionInfo where
  name := name
  objectFile := objPath
  sourceFile := extractSourceFile objPath
  flashSize := size
  isNamed := false
  isAnonObject := true

def allot (objPath : Text) (functions : Dict Text FunctionInfo) (sym : Text) (allocated : Nat) :
    Dict Text FunctionInfo :=
  match functions.get? sym with
  | some func =>
    if func.isNamed then functions
    else functions.set sym { func with flashSize := func.flashSize + allocated }
  | none => functions.set sym (newAnonObject sym objPath allocated)

def distributeObject (t : Tracking) (functions : Dict Text FunctionInfo) (objPath : Text)
    (totalSize : Nat) : Dict Text FunctionInfo :=
  let symbols := t.symbolsOf objPath
  if symbols.elems = [] then
    let synthName := syntheticName objPath
    if functions.contains synthName then functions
    else functions.set synthName (newAnonObject synthName objPath totalSize)
  else
    let real := realSymbols symbols
    let count := real.elems.length
    (sorted real.elems).zipIdx.foldl
      (fun functions (sym, i) => allot objPath functions sym (share totalSize count i)) functions

def distributeAnonSizes (t : Tracking) : ParseResult :=
  { t.result with
    functions := t.anonObjSizes.entries.foldl
      (fun functions (objPath, totalSize) => distributeObject t functions objPath totalSize)
      t.result.functions }

/-! ## The file -/

def parseTotals (decimal : Char → Option Nat) (line : Text) (t : Tracking) : Option Tracking :=
  match (totalRe decimal).firstMatch line with
  | some [code, roData, rwData, ziData, _, label] =>
    match numeral 10 decimal code, numeral 10 decimal roData, numeral 10 decimal rwData,
      numeral 10 decimal ziData with
    | some code, some roData, some rwData, some ziData =>
      if strip label = "Grand Totals".toList then
        let totals := t.result.grandTotals.set "code".toList code
        let totals := totals.set "ro_data".toList roData
        let totals := totals.set "rw_data".toList rwData
        let totals := totals.set "zi_data".toList ziData
        let totals := totals.set "total_flash".toList (code + roData + rwData)
        let totals := totals.set "total_ram".toList (rwData + ziData)
        some { t with result := { t.result with grandTotals := totals } }
      else some t
    | _, _, _, _ => none
  | _ => some t

def isSeparator (rawLine : Text) : Bool := "=======".toList.isPrefixOf rawLine

/-- A line without its end, in a state of the parser. -/
def parseLine (decimal : Char → Option Nat) (st : ParseState × Tracking) (line : Text) :
    Option (ParseState × Tracking) :=
  let rawLine := line.rdropWhile fun c => c == '\n' || c == '\r'
  let (state, t) := st
  if isSeparator rawLine then some (state.next, t)
  else
    match state with
    | .crossRefs => some (state, parseCrossRef rawLine t)
    | .memoryMap => (parseMemoryMap decimal rawLine t).map fun t => (state, t)
    | .done => (parseTotals decimal rawLine t).map fun t => (state, t)
    | _ => some (state, t)

/-- The name of the file without `.map` at its end. -/
def targetName (filepath : Text) : Text :=
  let basename := fileName filepath
  if ".map".toList.isSuffixOf basename then basename.take (basename.length - 4) else basename

/-- `parse_map_file` over the text of the file. `none` is an exception. -/
def parseMapFile (decimal : Char → Option Nat) (filepath content : Text) : Option ParseResult :=
  let start : Tracking :=
    ⟨{ targetName := targetName filepath }, Dict.empty, Dict.empty, Dict.empty⟩
  ((fileLines (universalNewlines content)).foldlM (parseLine decimal) (.header, start)).map
    fun st => distributeAnonSizes st.2

end Maptool
end Air101
