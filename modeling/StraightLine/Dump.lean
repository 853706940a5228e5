import StraightLine.Text.Shown
import StraightLine.Traversal

/-!
# One-line dump of a context

Every part is written as its name with its fields in braces, lists in brackets and tables as maps from
names to symbols; texts are quoted, with escapes for what would not show.
-/

namespace StraightLine.Dump

/-! ## The shape of a dump -/

def commas (ts : List Text) : Text := ", ".toList.intercalate ts

def braces (t : Text) : Text := '\x7b' :: t ++ ['\x7d']

def escape (c : Char) : Text :=
  if c = '"' then "\\\"".toList
  else if c = '\\' then "\\\\".toList
  else if c = '\n' then "\\n".toList
  else if c = '\r' then "\\r".toList
  else if c = '\t' then "\\t".toList
  else if c = '\x00' then "\\0".toList
  else if Text.isShown c then [c]
  else '\\' :: 'u' :: braces (Nat.toDigits 16 c.toNat)

def quoted (t : Text) : Text := '"' :: t.flatMap escape ++ ['"']

example : quoted "a\r\u00a0é".toList = "\"a\\r\\u\x7ba0\x7dé\"".toList := by decide

def list (ts : List Text) : Text := '[' :: commas ts ++ [']']

def wrapped (name : String) (t : Text) : Text := name.toList ++ '(' :: t ++ [')']

def option : Option Text → Text
  | some t => wrapped "Some" t
  | none => "None".toList

def field (name : String) (t : Text) : Text := name.toList ++ ": ".toList ++ t

def fields (name : String) (fs : List Text) : Text :=
  name.toList ++ ' ' :: braces (' ' :: commas fs ++ [' '])

/-! ## The parts of a context -/

def numType : NumType → Text
  | .int => "Int".toList
  | .float => "Float".toList

def symbolKind : Symbol.Kind → Text
  | .num ty => wrapped "Variable" (numType ty)
  | .str literal => fields "Str" [field "literal" (quoted literal)]

def symbol (s : Symbol) : Text :=
  fields "Symbol" [field "name" (quoted s.name), field "kind" (symbolKind s.kind)]

def table (t : SymbolTable) : Text :=
  fields "SymTable"
    [field "symbols" (braces (commas (t.symbols.map fun s => quoted s.name ++ ": ".toList ++ symbol s)))]

def scopeId (id : Nat) : Text := wrapped "ScopeId" (Text.numeral id)

def scope (s : Scope) : Text :=
  fields "Scope"
    [field "symt" (table s.symbols), field "parent" (option (s.parent.map scopeId)),
      field "id" (scopeId s.id)]

def scopes (s : ScopeStack) : Text :=
  fields "ScopeStack"
    [field "stack" (list (s.toList.map scope)), field "next_id" (Text.numeral s.nextId)]

def diagnostic (d : Diagnostic) : Text :=
  fields "Diagnostic"
    [field "code" (option (d.code.map (·.text))), field "severity" d.severity.label,
      field "message" (quoted d.message), field "source_text" (option (d.source.map quoted)),
      field "notes" (list (d.notes.map quoted))]

def diagnostics (ds : List Diagnostic) : Text :=
  fields "DiagnosticBag" [field "diagnostics" (list (ds.map diagnostic))]

def policy : Policy → Text
  | .legacy => "Legacy".toList
  | .structural => "Structural".toList

def order : Order → Text
  | .grouped => "Grouped".toList
  | .program => "Program".toList

def options (o : Options) : Text :=
  fields "CompilerOptions"
    [field "classify" (policy o.policy), field "emit_order" (order o.order),
      field "register_prefix" (quoted o.registerStem), field "temp_prefix" (quoted o.tempStem)]

/-- The dump of a context; the dots stand for parts that are not shown. -/
def context (c : Context) : Text :=
  fields "CompilerCtx"
    [field "scope" (scopes c.scopes), field "diagnostics" (diagnostics c.diagnostics),
      field "options" (options c.options), "..".toList]

end StraightLine.Dump
