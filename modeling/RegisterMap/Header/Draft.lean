import RegisterMap.Header.Line
import Std.Data.TreeMap

/-!
A header while it is being written: its lines, and the values of its constants
at hand, so that a name is looked up without going through the lines.
-/

namespace RegisterMap.Header

structure Draft where
  /-- The latest line comes first. -/
  lines : List Line
  values : Std.TreeMap String String
  values_eq : ∀ name : String, values[name]? = valueOf? name lines

namespace Draft

def empty : Draft := ⟨[], ∅, by simp [valueOf?]⟩

def valueOf? (d : Draft) (name : String) : Option String := d.values[name]?

/-- A comment that starts an address block. -/
def addBlock (d : Draft) (path : String) : Draft where
  lines := .block path :: d.lines
  values := d.values
  values_eq name := by simp [d.values_eq, Header.valueOf?]

def addConstant (d : Draft) (name value : String) : Draft where
  lines := .constant name value :: d.lines
  values := d.values.insert name value
  values_eq other := by
    by_cases h : name = other <;>
      simp [h, Std.TreeMap.getElem?_insert, d.values_eq, Header.valueOf?]

theorem valueOf?_eq (d : Draft) (name : String) :
    d.valueOf? name = Header.valueOf? name d.lines :=
  d.values_eq name

end Draft

end RegisterMap.Header
