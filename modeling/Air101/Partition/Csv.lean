import Air101.Storage.LuaNumber

/-!
# Partition.Csv

`parse_csv` of the build script (`buildx.lua`): a partition table is read line by line, sorted by
offset and checked. A row gives the name, type, offset and size of a partition; lines of the form
`# key = value` give `flash_base`, `flash_size` and `ram_end`.

Numbers are those of Lua 5.4; `chip`, in the same file, divides with `//`, which older versions
with floats alone do not have. `table.sort` leaves the order of equal offsets open, so it is a
parameter here. A file is its characters, or `none` where `io.readfile` gives `nil`.

* `parseCsv`: the script, with `Raise` for its calls of `raise`.
* `Checked`, `parseCsv_checked`: what a table that is returned went through.
-/

namespace Air101
namespace Partition

open Storage

/-- An entry of `partition_list`. -/
structure Part where
  name : List Char
  ptype : List Char
  offset : LuaNumber
  size : LuaNumber
  deriving DecidableEq

/-- The table `meta`; an absent key is `nil`. -/
structure Meta where
  flashBase : Option LuaNumber
  flashSize : Option LuaNumber
  ramEnd : Option LuaNumber
  deriving DecidableEq

/-- The calls of `raise`, with what each names. -/
inductive Raise where
  | unreadable
  | badSize (s : List Char)
  | badOffset (name offsetS : List Char)
  | badRowSize (name sizeS : List Char)
  | missing (key : String)
  | overlap (prev curr : Part) (prevEnd : LuaNumber)
  | beyondFlash (last : Part) (lastEnd flashSize : LuaNumber)
  | noSysparam
  | sysparamMoved (sysparamOffset sysparamSize : LuaNumber) (sysparam : Part)
  | tailTaken (p : Part) (partEnd reservedStart : LuaNumber)
  deriving DecidableEq

/-! ## Messages -/

/-- The integer `string.format` prints for `%X`, if the number has one. -/
def formatInteger : LuaNumber → Option Int64
  | .int i => some i
  | .float (.fin q) =>
    if q.den = 1 ∧ -2 ^ 63 ≤ q.num ∧ q.num < 2 ^ 63 then some (Int64.ofInt q.num) else none
  | .float _ => none

/-- `%0<width>X`. -/
def formatX (width : Nat) (x : LuaNumber) : Option String :=
  (formatInteger x).map fun i =>
    String.ofList (((Nat.toDigits 16 i.toUInt64.toNat).map Char.toUpper).leftpad width '0')

/-- The text a `raise` shows; `none` where `string.format` fails first, on a number that is no
integer. -/
def Raise.text (filepath : String) : Raise → Option String
  | .unreadable => some ("无法读取分区表文件: " ++ filepath)
  | .badSize s => some ("无法解析大小: " ++ String.ofList s)
  | .badOffset name offsetS =>
    some ("分区 " ++ String.ofList name ++ " 偏移量解析失败: " ++ String.ofList offsetS)
  | .badRowSize name sizeS =>
    some ("分区 " ++ String.ofList name ++ " 大小解析失败: " ++ String.ofList sizeS)
  | .missing key => some (filepath ++ ": 缺少 " ++ key ++ " 元数据")
  | .overlap prev curr prevEnd => do
    some ("分区重叠: " ++ String.ofList prev.name ++ " (0x" ++ (← formatX 6 prev.offset) ++ "+0x"
      ++ (← formatX 0 prev.size) ++ "=0x" ++ (← formatX 6 prevEnd) ++ ") 与 "
      ++ String.ofList curr.name ++ " (0x" ++ (← formatX 6 curr.offset) ++ ")")
  | .beyondFlash last lastEnd flashSize => do
    some ("分区 " ++ String.ofList last.name ++ " 超出flash范围: 0x" ++ (← formatX 6 last.offset)
      ++ "+0x" ++ (← formatX 0 last.size) ++ "=0x" ++ (← formatX 6 lastEnd) ++ " > flash_size=0x"
      ++ (← formatX 0 flashSize))
  | .noSysparam => some (filepath ++ ": 缺少 sysparam 分区, flash 最后8K必须保留给 sysparam")
  | .sysparamMoved sysparamOffset sysparamSize sysparam => do
    some (filepath ++ ": sysparam 分区必须位于 flash 最后8K (offset=0x" ++ (← formatX 6 sysparamOffset)
      ++ ", size=0x" ++ (← formatX 0 sysparamSize) ++ "), 当前为 offset=0x"
      ++ (← formatX 6 sysparam.offset) ++ ", size=0x" ++ (← formatX 0 sysparam.size))
  | .tailTaken p partEnd reservedStart => do
    some (filepath ++ ": 分区 " ++ String.ofList p.name ++ " 占用了 flash 尾部保留区, 结束地址 0x"
      ++ (← formatX 6 partEnd) ++ " 超过保留区起始 0x" ++ (← formatX 6 reservedStart))

/-! ## Reading -/

/-- `s:match("^(%d+)([KkMm]?)$")`. -/
def digitsAndSuffix (s : List Char) : Option (List Char × List Char) :=
  let (num, suffix) := s.span Char.isDigit
  if num ≠ [] ∧ suffix ∈ [[], ['K'], ['k'], ['M'], ['m']] then some (num, suffix) else none

/-- `s:match("^0[xX](%x+)$")`. -/
def hexMatch (s : List Char) : Option (List Char) :=
  (hexDigits s).filter fun ds => ds ≠ [] && ds.all isXDigit

/-- `parse_size`: decimal digits with `K` or `M` behind them, or hexadecimal ones. -/
def parseSize (s : List Char) : Except Raise (Option LuaNumber) :=
  let s := trim s
  match digitsAndSuffix s with
  | some (num, suffix) =>
    .ok ((tonumber num).map fun num =>
      if suffix = ['K'] ∨ suffix = ['k'] then num.mul (.int 1024)
      else if suffix = ['M'] ∨ suffix = ['m'] then (num.mul (.int 1024)).mul (.int 1024)
      else num)
  | none =>
    match hexMatch s with
    | some hex => .ok (some (.int (tonumberBase16 hex)))
    | none => .error (.badSize s)

/-- `parse_offset`; `none` is `nil`. -/
def parseOffset (s : List Char) : Option LuaNumber :=
  let s := trim s
  match hexMatch s with
  | some hex => some (.int (tonumberBase16 hex))
  | none => tonumber s

/-- `data:gmatch("[^\r\n]+")`. -/
def linesOf (data : List Char) : List (List Char) :=
  (data.splitOnP fun c => c = '\r' ∨ c = '\n').filter (· ≠ [])

/-- `line:match("^#%s*([%w_]+)%s*=%s*(.+)$")`, the value trimmed. -/
def keyValue (line : List Char) : Option (List Char × List Char) :=
  match line with
  | '#' :: r =>
    match (r.dropWhile isSpace).span fun c => c.isAlphanum || c = '_' with
    | (key@(_ :: _), r) =>
      match r.dropWhile isSpace with
      | '=' :: value =>
        if value.dropWhile isSpace = [] then none else some (key, trim value)
      | _ => none
    | _ => none
  | _ => none

/-- What a comment line sets. -/
def parseMeta (m : Meta) (line : List Char) : Except Raise Meta :=
  match keyValue line with
  | none => .ok m
  | some (key, value) =>
    if key = "flash_base".toList then .ok { m with flashBase := parseOffset value }
    else if key = "ram_end".toList then .ok { m with ramEnd := parseOffset value }
    else if key = "flash_size".toList then
      (parseSize value).map fun n => { m with flashSize := n }
    else .ok m

/-- What a data row adds; a line without four fields is passed over. -/
def parseRow (line : List Char) : Except Raise (Option Part) :=
  match line.splitOn ',' with
  | [name, ptype, offsetS, sizeS] =>
    if name = [] ∨ ptype = [] ∨ offsetS = [] ∨ sizeS = [] then .ok none
    else do
      let size ← parseSize sizeS
      match parseOffset offsetS, size with
      | none, _ => .error (.badOffset (trim name) offsetS)
      | _, none => .error (.badRowSize (trim name) sizeS)
      | some offset, some size => .ok (some ⟨trim name, trim ptype, offset, size⟩)
  | _ => .ok none

/-- One turn of the loop over the lines: `meta`, and `partition_list` as it grows. -/
def parseLine (st : Meta × List Part) (line : List Char) : Except Raise (Meta × List Part) :=
  let line := trim line
  match line with
  | [] => .ok st
  | '#' :: _ => (parseMeta st.1 line).map fun m => (m, st.2)
  | _ => (parseRow line).map fun p => (st.1, st.2 ++ p.toList)

def readRows (data : List Char) : Except Raise (Meta × List Part) :=
  (linesOf data).foldlM parseLine (⟨none, none, none⟩, [])

/-! ## Checks -/

/-- `partitions[name]`: the last row of that name. -/
def partitions (rows : List Part) (name : List Char) : Option Part :=
  rows.reverse.find? fun p => p.name = name

def Part.end (p : Part) : LuaNumber := p.offset.add p.size

/-- Neighbours of the sorted list do not overlap. -/
def checkOverlap : List Part → Except Raise Unit
  | prev :: curr :: l =>
    if curr.offset.lt prev.end then .error (.overlap prev curr prev.end) else checkOverlap (curr :: l)
  | _ => .ok ()

/-- The last of the sorted list ends in the flash. -/
def checkLast (flashSize : LuaNumber) (l : List Part) : Except Raise Unit :=
  match l.getLast? with
  | none => .ok ()
  | some last =>
    if flashSize.lt last.end then .error (.beyondFlash last last.end flashSize) else .ok ()

def reservedTailSize : LuaNumber := .int 24576
def sysparamSize : LuaNumber := .int 8192
def reservedStart (flashSize : LuaNumber) : LuaNumber := flashSize.sub reservedTailSize
def sysparamOffset (flashSize : LuaNumber) : LuaNumber := flashSize.sub sysparamSize

/-- `sysparam` is there, in the last 8K. -/
def checkSysparam (flashSize : LuaNumber) (rows : List Part) : Except Raise Unit :=
  match partitions rows "sysparam".toList with
  | none => .error .noSysparam
  | some sysparam =>
    if !sysparam.offset.eq (sysparamOffset flashSize) || !sysparam.size.eq sysparamSize then
      .error (.sysparamMoved (sysparamOffset flashSize) sysparamSize sysparam)
    else .ok ()

/-- No other partition ends in the reserved tail. -/
def checkTail (flashSize : LuaNumber) : List Part → Except Raise Unit
  | [] => .ok ()
  | p :: l =>
    if p.name ≠ "sysparam".toList ∧ (reservedStart flashSize).lt p.end then
      .error (.tailTaken p p.end (reservedStart flashSize))
    else checkTail flashSize l

/-- What `parse_csv` returns. -/
structure Table where
  flashBase : LuaNumber
  flashSize : LuaNumber
  ramEnd : LuaNumber
  partitions : List Char → Option Part
  partitionList : List Part

/-- `if not meta[key] then raise(...) end`. -/
def present (key : String) : Option LuaNumber → Except Raise LuaNumber
  | some n => .ok n
  | none => .error (.missing key)

def parseCsv (sort : List Part → List Part) (data : Option (List Char)) : Except Raise Table :=
  match data with
  | none => .error .unreadable
  | some data => do
    let (m, rows) ← readRows data
    let flashBase ← present "flash_base" m.flashBase
    let flashSize ← present "flash_size" m.flashSize
    let ramEnd ← present "ram_end" m.ramEnd
    let list := sort rows
    checkOverlap list
    checkLast flashSize list
    checkSysparam flashSize rows
    checkTail flashSize list
    .ok ⟨flashBase, flashSize, ramEnd, partitions rows, list⟩

/-! ## What the checks let through -/

theorem checkOverlap_ok {l : List Part} (h : checkOverlap l = .ok ()) :
    l.IsChain fun prev curr => curr.offset.lt prev.end = false := by
  induction l using checkOverlap.induct with
  | case1 prev curr l hlt =>
    rw [checkOverlap, if_pos hlt] at h
    cases h
  | case2 prev curr l hlt ih =>
    rw [checkOverlap, if_neg hlt] at h
    exact .cons_cons (by simpa using hlt) (ih h)
  | case3 l hl =>
    match l with
    | [] => exact .nil
    | [p] => exact .singleton p
    | prev :: curr :: l => exact absurd rfl (hl prev curr l)

theorem checkSysparam_ok {flashSize : LuaNumber} {rows : List Part}
    (h : checkSysparam flashSize rows = .ok ()) :
    ∃ sysparam, partitions rows "sysparam".toList = some sysparam ∧
      sysparam.offset.eq (sysparamOffset flashSize) ∧ sysparam.size.eq sysparamSize := by
  rw [checkSysparam] at h
  split at h
  · cases h
  · rename_i sysparam hfind
    split at h
    · cases h
    · rename_i hmoved
      simp only [Bool.or_eq_true, Bool.not_eq_true', not_or, Bool.not_eq_false] at hmoved
      exact ⟨sysparam, hfind, hmoved.1, hmoved.2⟩

theorem checkTail_ok {flashSize : LuaNumber} {l : List Part} (h : checkTail flashSize l = .ok ()) :
    ∀ p ∈ l, p.name ≠ "sysparam".toList →
      (reservedStart flashSize).lt p.end = false := by
  induction l with
  | nil => simp
  | cons q l ih =>
    rw [checkTail] at h
    split at h
    · cases h
    · rename_i hq
      intro p hp hname
      cases hp with
      | head => simpa using fun hlt => hq ⟨hname, hlt⟩
      | tail _ hp => exact ih h p hp hname

theorem partitions_some {rows : List Part} {name : List Char} {p : Part}
    (h : partitions rows name = some p) : p ∈ rows ∧ p.name = name := by
  have hmem := List.mem_of_find?_eq_some h
  have hname := List.find?_some h
  exact ⟨by simpa using hmem, by simpa using hname⟩

/-- What a table that `parse_csv` returns went through. -/
structure Checked (sort : List Part → List Part) (rows : List Part) (t : Table) : Prop where
  list : t.partitionList = sort rows
  overlap : t.partitionList.IsChain fun prev curr => curr.offset.lt prev.end = false
  sysparam : ∃ sysparam ∈ rows, sysparam.name = "sysparam".toList ∧
    sysparam.offset.eq (sysparamOffset t.flashSize) ∧ sysparam.size.eq sysparamSize
  tail : ∀ p ∈ t.partitionList, p.name ≠ "sysparam".toList →
    (reservedStart t.flashSize).lt p.end = false

theorem bind_ok {ε α β : Type} {x : Except ε α} {f : α → Except ε β} {b : β}
    (h : (x >>= f) = .ok b) : ∃ a, x = .ok a ∧ f a = .ok b := by
  cases x with
  | error e => cases h
  | ok a => exact ⟨a, rfl, h⟩

theorem parseCsv_checked {sort : List Part → List Part} {data : List Char} {m : Meta}
    {rows : List Part} {t : Table} (hread : readRows data = .ok (m, rows))
    (h : parseCsv sort (some data) = .ok t) : Checked sort rows t := by
  rw [parseCsv] at h
  obtain ⟨_, hread', h⟩ := bind_ok h
  cases hread.symm.trans hread'
  obtain ⟨flashBase, -, h⟩ := bind_ok h
  obtain ⟨flashSize, -, h⟩ := bind_ok h
  obtain ⟨ramEnd, -, h⟩ := bind_ok h
  obtain ⟨⟨⟩, hoverlap, h⟩ := bind_ok h
  obtain ⟨⟨⟩, -, h⟩ := bind_ok h
  obtain ⟨⟨⟩, hsysparam, h⟩ := bind_ok h
  obtain ⟨⟨⟩, htail, h⟩ := bind_ok h
  cases h
  obtain ⟨sysparam, hfind, hoffset, hsize⟩ := checkSysparam_ok hsysparam
  obtain ⟨hmem, hname⟩ := partitions_some hfind
  exact ⟨rfl, checkOverlap_ok hoverlap, ⟨sysparam, hmem, hname, hoffset, hsize⟩,
    checkTail_ok htail⟩

/-- A run on a file, by the part of its result that can be compared. -/
theorem parseCsv_of_map (sort : List Part → List Part) (data : Option (List Char))
    (flashSize : LuaNumber) (l : List Part)
    (h : (parseCsv sort data).map (fun t => (t.flashSize, t.partitionList)) = .ok (flashSize, l)) :
    ∃ t, parseCsv sort data = .ok t ∧ t.flashSize = flashSize ∧ t.partitionList = l := by
  cases hp : parseCsv sort data with
  | error e => rw [hp] at h; cases h
  | ok t => rw [hp] at h; cases h; exact ⟨t, rfl, rfl, rfl⟩

end Partition
end Air101
