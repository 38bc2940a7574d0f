import HostLisp.Compiler.Codegen
import HostLisp.Compiler.SymbolTable

/-!
# Compiling programs

A program compiles statement by statement into a draft, which holds the statements so far, the renaming
behind them, and whether the symbol table stands in front. The name of the table is reserved before the
first statement that needs it.

* `Draft.begin`, `Draft.push`: the draft before any statement, and with one more.
* `compile`: the text of a program.
-/

namespace HostLisp.Compiler

open Host

/-- When the symbol table stands in front of a program. -/
inductive TablePolicy where
  /-- if a quoted symbol needs it -/
  | auto
  | always
deriving DecidableEq

/-- How programs are compiled. -/
structure Config where
  indent : String
  policy : TablePolicy
  maxDepth : Nat

/-- One tab of indentation, the table if needed, 128 levels. -/
def Config.default : Config := ⟨"\t", .auto, 128⟩

/-- A program on its way to host code. -/
structure Draft where
  names : Renaming
  program : Program

namespace Draft

/-- Puts the symbol table in front. Its name has to be free. -/
def addTable (d : Draft) : Except Error Draft :=
  match d.names.reserve? tableName with
  | some ρ => .ok ⟨ρ, { d.program with table := true }⟩
  | none => .error (.plain (.internal (.tableNameTaken tableName)))

/-- The draft before any statement. The forms that are known decide whether the table is put in front
at once. -/
def begin (config : Config) (ρ : Renaming) (forms : List Form) : Except Error Draft := do
  forms.forM fun f => f.checkNesting Form.nestingLimit
  let d : Draft := ⟨ρ, ⟨false, []⟩⟩
  if config.policy = .always || SymbolTable.needed forms then d.addTable else return d

/-- A draft with one more statement. -/
def push (config : Config) (d : Draft) (form : Form) : Except Error Draft := do
  form.checkNesting Form.nestingLimit
  let d ← if !d.program.table && SymbolTable.needed [form] then d.addTable else pure d
  let (e, ρ) ← Codegen.compile config.maxDepth config.maxDepth (.form form) d.names
  return ⟨ρ, { d.program with statements := d.program.statements ++ [e] }⟩

end Draft

/-- The host program of some forms. -/
def compileProgram (config : Config) (ρ : Renaming) (forms : List Form) : Except Error Program := do
  let d ← Draft.begin config ρ forms
  return (← forms.foldlM (Draft.push config) d).program

/-- **The host text of a program.** -/
def compile (config : Config) (ρ : Renaming) (forms : List Form) : Except Error String :=
  (compileProgram config ρ forms).map fun p => p.render config.indent

end HostLisp.Compiler
