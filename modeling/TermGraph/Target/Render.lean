import TermGraph.Target.Expr
import TermGraph.Target.Writer
import TermGraph.Text.Blank

/-!
# The text of expressions and declarations

An expression is written on one line.  Arguments that are not atomic stand in
parentheses, and so does the domain of an arrow that would otherwise reach over
it.  A declaration is written through a `Writer`, which indents the body of a
definition; declarations are separated by empty lines.
-/

namespace TermGraph

namespace Target

/-- One character inside a string literal. -/
def escapeChar (c : Char) : List Char :=
  if c = '"' then ['\\', '"']
  else if c = '\\' then ['\\', '\\']
  else if c = '\n' then ['\\', 'n']
  else [c]

/-- A string literal. -/
def stringLit (s : String) : String :=
  String.ofList ('"' :: s.toList.flatMap escapeChar ++ ['"'])

/-- A text in parentheses. -/
def parens (s : String) : String :=
  "(" ++ s ++ ")"

/-- A binder, in the brackets of its kind. -/
def binderText (name type : String) (implicit : Bool) : String :=
  if implicit then "\x7b" ++ name ++ " : " ++ type ++ "\x7d"
  else parens (name ++ " : " ++ type)

/-- A text in parentheses unless it can do without. -/
def parensUnless (bare : Bool) (s : String) : String :=
  if bare then s else parens s

/-- Whether an expression reaches over an arrow that follows it. -/
def Expr.isOpen : Expr → Bool
  | .pi _ _ | .lam _ _ | .letIn _ _ | .ite _ _ _ => true
  | _ => false

namespace Expr

mutual

/-- The text of an expression. -/
def text : Expr → String
  | var x => x
  | explicitVar x => "@" ++ x
  | app fn args => parensUnless fn.isAtomic (text fn) ++ argsText args
  | lam binders body => "fun " ++ " ".intercalate (bindersText binders) ++ " => " ++ text body
  | pi binders body => piText binders ++ text body
  | letIn bindings body => letText bindings ++ text body
  | ite c t e => "if " ++ text c ++ " then " ++ text t ++ " else " ++ text e
  | sort level => if level = 0 then "Type" else "Type " ++ toString level
  | nat n => toString n
  | string s => stringLit s
  | list elems => "[" ++ ", ".intercalate (textList elems) ++ "]"
  | ascription e ty => parens (text e ++ " : " ++ text ty)

/-- The texts of arguments, each after a space. -/
def argsText : List Expr → String
  | [] => ""
  | e :: rest => " " ++ parensUnless e.isAtomic (text e) ++ argsText rest

/-- The texts of several expressions. -/
def textList : List Expr → List String
  | [] => []
  | e :: rest => text e :: textList rest

/-- The texts of binders. -/
def bindersText : List (Binder Expr) → List String
  | [] => []
  | ⟨x, ty, implicit⟩ :: rest => binderText x (text ty) implicit :: bindersText rest

/-- The texts of the binders of a function type, each before an arrow. -/
def piText : List (PiBinder Expr) → String
  | [] => ""
  | ⟨some x, ty, implicit⟩ :: rest => binderText x (text ty) implicit ++ " → " ++ piText rest
  | ⟨none, ty, _⟩ :: rest =>
      parensUnless (!ty.isOpen) (text ty) ++ " → " ++ piText rest

/-- The texts of bindings, each before a semicolon. -/
def letText : List (Binding Expr) → String
  | [] => ""
  | ⟨x, none, v⟩ :: rest => "let " ++ x ++ " := " ++ text v ++ "; " ++ letText rest
  | ⟨x, some ty, v⟩ :: rest =>
      "let " ++ x ++ " : " ++ text ty ++ " := " ++ text v ++ "; " ++ letText rest

end

end Expr

namespace Decl

/-- A parameter of a definition, after a space. -/
def paramText (p : Binder Expr) : String :=
  " " ++ binderText p.name p.type.text p.implicit

/-- What a definition shows before its body. -/
def headText (name : String) (params : List (Binder Expr)) (type : Option Expr) : String :=
  let params := String.join (params.map paramText)
  let type := match type with
    | some ty => " : " ++ ty.text
    | none => ""
  "def " ++ name ++ params ++ type ++ " :="

/-- Writes a declaration. -/
def write : Decl → Writer → Writer
  | definition name params type body, w =>
      (((w.write (headText name params type)).indent true).write body.text).dedent false
  | postulate name type, w => w.write ("axiom " ++ name ++ " : " ++ type.text)
  | snippet text, w => w.write (trimEnd text)
  | comment text, w => w.writeSep "\n" (fun line w => w.write ("-- " ++ line)) (lines text)

/-- Writes a declaration and ends its line. -/
def writeLine (d : Decl) (w : Writer) : Writer :=
  (d.write w).newline

end Decl

/-- The text of declarations, with an empty line between neighbours. -/
def declsText (decls : List Decl) : String :=
  (Writer.empty.writeSep "\n" Decl.writeLine decls).text

end Target

end TermGraph
