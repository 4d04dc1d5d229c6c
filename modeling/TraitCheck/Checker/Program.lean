import TraitCheck.Checker.Prelude
import TraitCheck.Checker.Walk

/-!
Checking whole programs. A checker keeps what a program declares, so a later
program sees it, and it keeps what a failed program declared before it failed.
-/

namespace TraitCheck.Checker

open Surface (Program Stmt)

def new (options : Options) : Checker := { options }

/-- The built-in environment comes in with the first program. -/
def preparePrelude : CheckM Unit :=
  modify fun s =>
    if s.options.prelude && !s.preludeInstalled then Prelude.install s else s

/-- Names the structs and enums of a program, so that their declarations may
refer to each other in any order. -/
def declareAdts : Program → CheckM Unit
  | [] => return
  | .struct name generics _ _ :: rest => do
    declareAdt name generics
    declareAdts rest
  | .enum name generics _ _ :: rest => do
    declareAdt name generics
    declareAdts rest
  | _ :: rest => declareAdts rest

/-- Checks statements, each a unit of its own. -/
def checkUnits (room : Nat) : Program → CheckM (List Core.Stmt)
  | [] => return []
  | stmt :: rest => do
    let out ← inUnit (checkStmt room stmt)
    let more ← checkUnits room rest
    return out ++ more

def checkProgram (program : Program) : CheckM (List Core.Stmt) := do
  preparePrelude
  declareAdts program
  checkUnits (← get).options.maxDepth program

/-- Checks a program. The checker that comes back is the one to go on with,
also after a failure. -/
def check (s : Checker) (program : Program) : Except TypeError (List Core.Stmt) × Checker :=
  (checkProgram program).run.run s

end TraitCheck.Checker
