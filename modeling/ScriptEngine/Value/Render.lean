import ScriptEngine.Value
import ScriptEngine.Library
import ScriptEngine.Decimal.Shortest
import ScriptEngine.Text.Quoted

/-! The text of a value. Of nested lists, the outer 64 levels and the first 10000 elements are shown. -/

namespace ScriptEngine.Value

def shownLevels : Nat := 64

def shownItems : Nat := 10000

/-- What texts of values are written from: the lists and the names of functions. -/
structure View where
  heap : Heap
  names : Callable → String

def View.of (p : Program) (h : Heap) : View := ⟨h, p.routineName⟩

/-- A text being written, and the number of elements that may still be written. -/
structure Draft where
  text : String
  budget : Nat

def Draft.add (d : Draft) (s : String) : Draft := { d with text := d.text ++ s }

def scalarText (view : View) (inList : Bool) : Value → String
  | unit => "()"
  | int n => toString n
  | float x => Decimal.floatText Decimal.pointStyle x
  | bool b => if b then "true" else "false"
  | text s => if inList then Text.quoted s else s
  | list _ => ""
  | function f => "<fn " ++ view.names f ++ ">"

/-- Elements with commas between them, until the budget is spent. -/
def writeItems (item : Value → Draft → Draft) : List Value → Bool → Draft → Draft
  | [], _, d => d
  | v :: vs, isFirst, d =>
    let d := if isFirst then d else d.add ", "
    if d.budget = 0 then d.add "..."
    else writeItems item vs false (item v { d with budget := d.budget - 1 })

/-- Write a value with so many levels of lists. -/
def write (view : View) : Nat → Bool → Value → Draft → Draft
  | 0, _, .list _, d => d.add "[...]"
  | levels + 1, _, .list id, d =>
    (writeItems (write view levels true) (view.heap.items id).toList true (d.add "[")).add "]"
  | _, inList, v, d => d.add (v.scalarText view inList)

/-- The text of a value as a program prints it: a text stands for itself. -/
def display (view : View) (v : Value) : String := (write view shownLevels false v ⟨"", shownItems⟩).text

/-- The text of a value as the console shows it: a text is quoted. -/
def repr (view : View) : Value → String
  | text s => Text.quoted s
  | v => v.display view

end ScriptEngine.Value
