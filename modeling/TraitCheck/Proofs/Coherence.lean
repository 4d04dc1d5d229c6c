import TraitCheck.Proofs.WellTyped

/-!
Evidence is coherent. No check fails for lack of evidence, since every bound of
a type has evidence by the time it is asked for, and the dictionary is bound
where it is asked for. What a call passes for a bound is then the one dictionary
of that bound: a built-in one, that of an implementation, or a parameter of a
generic function around.
-/

namespace TraitCheck.Checker

open Surface (Program FuncDecl functionsOf)

variable {options : Options} {program : Program} {core : List Core.Stmt} {s s' : Checker}

/-- The expression is the dictionary that its type says, at a place of the
checked program. -/
inductive Evident (program : Program) (core : List Core.Stmt) (place : Core.Place) :
    Core.Expr → Prop
  /-- The built-in dictionary of the bound for the primitive type. -/
  | builtin {bound : Trait} {primitive : String} : primitive ∈ Prelude.types →
    Evident program core place
      ⟨.builtin (.dictionary bound primitive) [], dictionaryType bound (.named primitive [])⟩
  /-- The dictionary of an implementation, which is bound at that type. -/
  | impl {id : BindingId} {fields : List Core.Expr} {ty : Ty} :
    .bind id ⟨.object none fields, ty⟩ ∈ core → Evident program core place ⟨.ident id, ty⟩
  /-- The parameter of a function around for a bound of one of its type
  parameters, which the tracers stand for. -/
  | param {decl : FuncDecl} {func : Core.FuncExpr} {tracers : List Nat} {id : BindingId} {ty : Ty} :
    decl ∈ functionsOf program → func ∈ place.around → Introduces decl tracers func →
      (id, ty) ∈ func.params.zip (dictionaryTypes (paramBounds decl.generics) tracers) →
        Evident program core place ⟨.ident id, ty⟩

theorem View.Proper.evident {ledger : Ledger} {place : Core.Place} {d : Core.Expr}
    (h : (View.final ledger s).Proper {decl | decl ∈ functionsOf program} place d)
    (hmade : BindsImpls ∅ ledger core) : Evident program core place d := by
  rcases h with ⟨bound, primitive, hprimitive, rfl⟩ | ⟨id, hkind, hheld⟩
  · exact .builtin hprimitive
  · obtain ⟨kind, ty⟩ := d
    obtain rfl : kind = .ident id := hkind
    rcases hheld with himpl | ⟨func, hfunc, decl, hdecl, tracers, hintroduces, _, hmem⟩
    · obtain ⟨fields, hmem⟩ := (hmade _ himpl).resolve_left (by nofun)
      exact .impl hmem
    · exact .param hdecl hfunc hintroduces hmem

theorem safe_checkProgram (hnames : options.prelude = true ∨ PlainNames program) :
    Safe (checkProgram program) (new options) := by
  refine Safe.bind (Runs.FailsWith.modifyGet _) ?_
  intro _ s hprepare
  exact (leads_program hprepare hnames).safe

end TraitCheck.Checker
