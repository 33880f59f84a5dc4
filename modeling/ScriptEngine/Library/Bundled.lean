import ScriptEngine.Library.Builder

/-! The libraries that come with the engine, as source texts. -/

namespace ScriptEngine.Library

/-- The text of lines that each end in a newline. -/
def lines (ls : List String) : String := String.join (ls.map (· ++ "\n"))

def mathSource : String := lines [
  "// Numeric helpers. Exported as `math::*`.",
  "",
  "fn abs(x) \x7b",
  "    if x < 0 \x7b -x \x7d else \x7b x \x7d",
  "\x7d",
  "",
  "fn min(a, b) \x7b",
  "    if a < b \x7b a \x7d else \x7b b \x7d",
  "\x7d",
  "",
  "fn max(a, b) \x7b",
  "    if a > b \x7b a \x7d else \x7b b \x7d",
  "\x7d",
  "",
  "fn clamp(x, lo, hi) \x7b",
  "    min(max(x, lo), hi)",
  "\x7d",
  "",
  "fn pow(base, exp) \x7b",
  "    let mut result = 1;",
  "    let mut i = 0;",
  "    while i < exp \x7b",
  "        result = result * base;",
  "        i = i + 1;",
  "    \x7d",
  "    result",
  "\x7d",
  "",
  "fn gcd(a, b) \x7b",
  "    let mut x = abs(a);",
  "    let mut y = abs(b);",
  "    while y != 0 \x7b",
  "        let t = x % y;",
  "        x = y;",
  "        y = t;",
  "    \x7d",
  "    x",
  "\x7d",
  "",
  "fn sign(x) \x7b",
  "    if x < 0 \x7b -1 \x7d else if x > 0 \x7b 1 \x7d else \x7b 0 \x7d",
  "\x7d"]

def textSource : String := lines [
  "// String helpers. Exported as `text::*`.",
  "",
  "fn repeat(s, n) \x7b",
  "    let mut out = \"\";",
  "    let mut i = 0;",
  "    while i < n \x7b",
  "        out = out + s;",
  "        i = i + 1;",
  "    \x7d",
  "    out",
  "\x7d",
  "",
  "fn join(items, sep) \x7b",
  "    let mut out = \"\";",
  "    let mut i = 0;",
  "    while i < len(items) \x7b",
  "        if i > 0 \x7b",
  "            out = out + sep;",
  "        \x7d",
  "        out = out + str(items[i]);",
  "        i = i + 1;",
  "    \x7d",
  "    out",
  "\x7d",
  "",
  "fn reverse(s) \x7b",
  "    let mut out = \"\";",
  "    let mut i = len(s);",
  "    while i > 0 \x7b",
  "        i = i - 1;",
  "        out = out + s[i];",
  "    \x7d",
  "    out",
  "\x7d"]

def listSource : String := lines [
  "// List helpers. Exported as `list::*`.",
  "",
  "fn sum(items) \x7b",
  "    let mut total = 0;",
  "    let mut i = 0;",
  "    while i < len(items) \x7b",
  "        total = total + items[i];",
  "        i = i + 1;",
  "    \x7d",
  "    total",
  "\x7d",
  "",
  "fn range(start, end) \x7b",
  "    let out = [];",
  "    let mut i = start;",
  "    while i < end \x7b",
  "        push(out, i);",
  "        i = i + 1;",
  "    \x7d",
  "    out",
  "\x7d",
  "",
  "fn map(items, f) \x7b",
  "    let out = [];",
  "    let mut i = 0;",
  "    while i < len(items) \x7b",
  "        push(out, f(items[i]));",
  "        i = i + 1;",
  "    \x7d",
  "    out",
  "\x7d",
  "",
  "fn filter(items, keep) \x7b",
  "    let out = [];",
  "    let mut i = 0;",
  "    while i < len(items) \x7b",
  "        if keep(items[i]) \x7b",
  "            push(out, items[i]);",
  "        \x7d",
  "        i = i + 1;",
  "    \x7d",
  "    out",
  "\x7d",
  "",
  "fn contains(items, value) \x7b",
  "    let mut i = 0;",
  "    while i < len(items) \x7b",
  "        if items[i] == value \x7b",
  "            return true;",
  "        \x7d",
  "        i = i + 1;",
  "    \x7d",
  "    false",
  "\x7d"]

def bundledNames : List String := ["math", "text", "list"]

def bundledSource? : String → Option String
  | "math" => some mathSource
  | "text" => some textSource
  | "list" => some listSource
  | _ => none

/-- Locations that start so are those of bundled libraries. -/
def bundledRoot : String := "std/"

def fileExtension : String := ".plib"

def bundledLocation (name : String) : String := bundledRoot ++ name ++ fileExtension

def bundledLocations : List String := bundledNames.map bundledLocation

/-- What is left of a list of characters after a given start. -/
def afterStart? : List Char → List Char → Option (List Char)
  | [], cs => some cs
  | p :: ps, c :: cs => if p = c then afterStart? ps cs else none
  | _ :: _, [] => none

/-- The name that a location of a bundled library is built from. -/
def nameOfLocation? (location : String) : Option String := do
  let rest ← afterStart? bundledRoot.toList location.toList
  let name ← afterStart? fileExtension.toList.reverse rest.reverse
  return String.ofList name.reverse

/-- The name and the source of the library at a bundled location. -/
def bundledAt? (location : String) : Option (String × String) := do
  let name ← nameOfLocation? location
  let source ← bundledSource? name
  return (name, source)

end ScriptEngine.Library
