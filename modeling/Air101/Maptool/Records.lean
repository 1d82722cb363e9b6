import Air101.Storage.Dict
import Air101.Storage.Text

/-!
# Maptool.Records

The records of the map file tool (`tools/maptool/maptool/parser.py`): what `parse_map_file` returns
and `build_call_graph` reads. Names and paths are texts; addresses and sizes are not negative.
-/

namespace Air101
namespace Maptool

open Storage

/-- A call edge from caller to callee. -/
structure CallEdge where
  callerFunc : Text
  calleeFunc : Text
  callerObj : Text
  calleeObj : Text
  callerSection : Text
  calleeSection : Text
  symbol : Text
  deriving DecidableEq

structure FunctionInfo where
  name : Text
  objectFile : Text := []
  sourceFile : Text := []
  baseAddress : Nat := 0
  flashSize : Nat := 0
  isNamed : Bool := true
  isAnonymousCaller : Bool := false
  isAnonObject : Bool := false
  deriving DecidableEq

structure ObjectRamInfo where
  dataSize : Nat := 0
  bssSize : Nat := 0
  deriving DecidableEq

structure ParseResult where
  edges : List CallEdge := []
  functions : Dict Text FunctionInfo := Dict.empty
  objectRam : Dict Text ObjectRamInfo := Dict.empty
  grandTotals : Dict Text Nat := Dict.empty
  targetName : Text := []

/-- `if key not in d: d[key] = set()` and `d[key].add(x)`. -/
def addTo (d : Dict Text (FinSet Text)) (key x : Text) : Dict Text (FinSet Text) :=
  d.set key (((d.get? key).getD FinSet.empty).add x)

theorem mem_addTo (d : Dict Text (FinSet Text)) (key x u v : Text) :
    v ∈ ((addTo d key x).get? u).getD FinSet.empty ↔
      (u = key ∧ v = x) ∨ v ∈ (d.get? u).getD FinSet.empty := by
  unfold addTo
  rw [Dict.get?_set]
  by_cases hu : u = key
  · subst hu
    simp [FinSet.mem_add]
  · simp [hu]

end Maptool
end Air101
