import TraitCheck.Proofs.Acyclic
import TraitCheck.Proofs.FreeBindings
import TraitCheck.Proofs.ShapedTypes
import TraitCheck.Proofs.TypedResults

/-!
Writing types back. At the end of a unit of inference every type in a checked
statement is replaced by what it stands for. The rest of a statement is its
outline, in which a hole stands for every expression, and the outlines of the
expressions that the walk meets. A statement is made of nothing but these and
its types (`reads_walk`), so to say what becomes of them says it all.
-/

namespace TraitCheck.Core

mutual

/-- The block without types and with a hole for every expression in it. -/
def Block.outline (block : Block) : Block :=
  match block with
  | ⟨stmts, _⟩ => ⟨outlineStmts stmts, .void⟩

def Stmt.outline (stmt : Stmt) : Stmt :=
  match stmt with
  | .bind id _ => .bind id default
  | .ret value => .ret (value.map fun _ => default)
  | .whileDo _ body => .whileDo default body.outline
  | .forEach id _ body => .forEach id default body.outline
  | .eval _ => .eval default

def outlineStmts (stmts : List Stmt) : List Stmt :=
  match stmts with
  | [] => []
  | s :: rest => s.outline :: outlineStmts rest

end

def FuncExpr.outline (func : FuncExpr) : FuncExpr :=
  ⟨func.name, func.captures.map (⟨·.binding, .void⟩), func.params, func.body.outline⟩

def Branch.outline (branch : Branch) : Branch := ⟨default, branch.body.outline⟩

/-- What stands at an expression itself: its form with the literals, ids, indices,
operations and flags in it. The expressions inside of it are holes. -/
def ExprKind.outline : ExprKind → ExprKind
  | .object tag fields => .object tag (fields.map fun _ => default)
  | .func f => .func f.outline
  | .call _ args hasValue => .call default (args.map fun _ => default) hasValue
  | .builtin op args => .builtin op (args.map fun _ => default)
  | .field _ index => .field default index
  | .block body => .block body.outline
  | .cond branches otherwise => .cond (branches.map (·.outline)) otherwise.outline
  | .cases scrutinee _ blocks => .cases scrutinee default (blocks.map (·.outline))
  | leaf => leaf

def outlines (exprs : List Expr) : List ExprKind := exprs.map (·.kind.outline)

theorem outlines_append (exprs more : List Expr) :
    outlines (exprs ++ more) = outlines exprs ++ outlines more :=
  List.map_append

section MapTy

variable (f : Ty → Ty)

theorem outline_mapTy : (∀ block : Block, (block.mapTy f).outline = block.outline) ∧
    (∀ stmts, outlineStmts (mapTyStmts f stmts) = outlineStmts stmts) ∧
    (∀ stmt : Stmt, (stmt.mapTy f).outline = stmt.outline) := by
  apply Block.outline.mutual_induct
  case case3 => rintro (_ | _) <;> simp [Stmt.mapTy, Stmt.outline]
  all_goals
    simp +contextual [Block.mapTy, Stmt.mapTy, mapTyStmts, Block.outline, Stmt.outline, outlineStmts]

theorem ExprKind.outline_mapTy (kind : ExprKind) : (kind.mapTy f).outline = kind.outline := by
  have hblock := (Core.outline_mapTy f).1
  cases kind with
  | func func =>
    obtain ⟨name, captures, params, body⟩ := func
    simp [mapTy, FuncExpr.mapTy, outline, FuncExpr.outline, hblock, Capture.mapTy]
  | _ =>
    simp [mapTy, outline, mapTyExprs_eq_map, mapTyBranches_eq_map, mapTyBlocks_eq_map, hblock,
      Function.comp_def, Branch.outline]

end MapTy

/-- However it goes on behind them: if something else has the same outline, and the outlines
and types of the two begin in the same way, then they are the same and end at the same places. -/
def Reads {α β : Type} (outline : α → β) (walk : α → List Expr) (types : α → List Ty) (a : α) :
    Prop :=
  ∀ a', outline a = outline a' → ∀ kinds kinds' more more',
    outlines (walk a) ++ kinds = outlines (walk a') ++ kinds' →
      types a ++ more = types a' ++ more' → a = a' ∧ kinds = kinds' ∧ more = more'

theorem reads_captures (captures : List Capture) :
    Reads (List.map (·.binding)) (List.map Capture.value) (List.map (·.ty)) captures := by
  intro captures' h _ _ _ _ hkinds htys
  have hlength : captures.length = captures'.length := by simpa using congrArg List.length h
  obtain ⟨_, hkinds⟩ := List.append_inj hkinds (by simpa [outlines] using hlength)
  obtain ⟨htys, hmore⟩ := List.append_inj htys (by simpa using hlength)
  refine ⟨List.ext_getElem hlength fun i hi hi' => ?_, hkinds, hmore⟩
  have hbinding := congrArg (·[i]?) h
  have hty := congrArg (·[i]?) htys
  simp only [List.getElem?_map, List.getElem?_eq_getElem hi, List.getElem?_eq_getElem hi',
    Option.map_some, Option.some.injEq] at hbinding hty
  exact congrArg₂ Capture.mk hbinding hty

/-- The outline of an expression tells how many expressions there are inside of it, and in
which blocks. So a statement can be read back, one expression after the other. -/
theorem reads_walk : (∀ e, Reads (fun _ => ()) Expr.walk Expr.types e) ∧
    (∀ kind, Reads ExprKind.outline ExprKind.walk ExprKind.types kind) ∧
    (∀ blocks, Reads (List.map Block.outline) walkBlocks typesBlocks blocks) ∧
    (∀ block, Reads Block.outline Block.walk Block.types block) ∧
    (∀ stmts, Reads outlineStmts walkStmts typesStmts stmts) ∧
    (∀ stmt, Reads Stmt.outline Stmt.walk Stmt.types stmt) ∧
    (∀ branches, Reads (List.map Branch.outline) walkBranches typesBranches branches) ∧
    (∀ func, Reads FuncExpr.outline FuncExpr.walk FuncExpr.types func) ∧
    (∀ exprs, Reads List.length walkExprs typesExprs exprs) := by
  apply Expr.walk.mutual_induct
  case case1 =>
    rintro kind ty ih ⟨kind', ty'⟩ _ _ _ _ _ hkinds htys
    simp only [Expr.walk, Expr.types, outlines, List.map_cons, List.cons_append, List.cons.injEq]
      at hkinds htys
    obtain ⟨rfl, hends⟩ := ih kind' hkinds.1 _ _ _ _ hkinds.2 htys.2
    exact ⟨congrArg _ htys.1, hends⟩
  case case16 =>
    rintro name captures params body ih ⟨name', captures', params', body'⟩ h _ _ _ _ hkinds htys
    obtain ⟨rfl, hcaptures, rfl, hbody⟩ := FuncExpr.mk.inj h
    have hbindings := congrArg (List.map Capture.binding) hcaptures
    rw [List.map_map, List.map_map] at hbindings
    simp only [FuncExpr.walk, FuncExpr.types, outlines_append, List.append_assoc]
      at hkinds htys
    obtain ⟨rfl, hkinds, htys⟩ := reads_captures captures captures' hbindings _ _ _ _ hkinds htys
    obtain ⟨rfl, hends⟩ := ih body' hbody _ _ _ _ hkinds htys
    exact ⟨rfl, hends⟩
  case case20 =>
    rintro value ih (_ | ⟨_ | value'⟩ | _ | _ | _) h
    all_goals simp [Stmt.outline] at h
    simp only [Stmt.walk, Stmt.types]
    exact fun _ _ _ _ hkinds htys =>
      (ih value' rfl _ _ _ _ hkinds htys).imp_left (congrArg (Stmt.ret ∘ some))
  case case27 =>
    rintro cond body rest ih ihb ihr (_ | ⟨⟨cond', body'⟩, rest'⟩) h _ _ _ _ hkinds htys
    · cases h
    · obtain ⟨hbody, hrest⟩ := List.cons.inj h
      simp only [walkBranches, typesBranches, outlines_append, List.append_assoc]
        at hkinds htys
      obtain ⟨rfl, hkinds, htys⟩ := ih cond' rfl _ _ _ _ hkinds htys
      obtain ⟨rfl, hkinds, htys⟩ := ihb body' (Branch.mk.inj hbody).2 _ _ _ _ hkinds htys
      obtain ⟨rfl, hends⟩ := ihr rest' hrest _ _ _ _ hkinds htys
      exact ⟨rfl, hends⟩
  all_goals
    intros
    rintro other h
    cases other
  -- what has another form has another outline
  all_goals simp [ExprKind.outline, Stmt.outline, outlineStmts, Block.outline] at h
  all_goals try subst h
  all_goals
    simp only [ExprKind.walk, walkBlocks, Block.walk, walkStmts, Stmt.walk, walkBranches, walkExprs,
      ExprKind.types, typesBlocks, Block.types, typesStmts, Stmt.types, typesBranches, typesExprs]
  all_goals intro _ _ _ _ hkinds htys
  all_goals try simp only [outlines_append, List.append_assoc] at hkinds htys
  all_goals grind [Reads, outlines]

/-- For every statement and all bindings of type variables that do not run in a circle:
writing the resolved types back leaves the outline of the statement and those of the
expressions that the walk meets, one by one. All types in it, of expressions, blocks and
captures, are those from before, resolved, so no bound variable is left in any of them, and
a second time changes nothing. The result is the only statement like that. -/
theorem resolve_types_only (u : Unifier) (h : u.subst.Acyclic) (stmt : Stmt) :
    let after := stmt.mapTy u.resolve
    after.outline = stmt.outline ∧ outlines after.walk = outlines stmt.walk ∧
      after.walk.map (·.ty) = stmt.walk.map (u.resolve ·.ty) ∧
      after.types = stmt.types.map u.resolve ∧
      (∀ t ∈ after.types, ∀ id, t.mentions id = true → u.subst.find? id = none) ∧
      after.mapTy u.resolve = after ∧
      ∀ other : Stmt, other.outline = stmt.outline → outlines other.walk = outlines stmt.walk →
        other.types = stmt.types.map u.resolve → other = after := by
  intro after
  have houtline : after.outline = stmt.outline := (outline_mapTy u.resolve).2.2 stmt
  have hwalk : after.walk = stmt.walk.map (Expr.mapTy u.resolve) :=
    (walk_mapTy u.resolve).2.2.2.2.2.1 stmt
  have houtlines : outlines after.walk = outlines stmt.walk := by
    rw [hwalk, outlines, outlines, List.map_map]
    refine List.map_congr_left fun e _ => ?_
    rw [Function.comp_apply, e.mapTy_kind, ExprKind.outline_mapTy]
  have htypes : after.types = stmt.types.map u.resolve := (types_mapTy u.resolve).2.2.2.2.2.1 stmt
  have hagain : u.resolve ∘ u.resolve = u.resolve :=
    funext ((Subst.Extends.refl u.subst).apply_apply h h)
  refine ⟨houtline, houtlines, ?_, htypes, ?_, ?_, ?_⟩
  · rw [hwalk, List.map_map]
    exact List.map_congr_left fun e _ => e.mapTy_ty u.resolve
  · intro t ht id hid
    obtain ⟨before, _, rfl⟩ := List.mem_map.mp (htypes ▸ ht)
    exact Subst.find?_of_mentions_apply h hid
  · exact ((mapTy_comp _ _).2.2.2.2.2.1 stmt).trans (congrArg stmt.mapTy hagain)
  · intro other ho hkinds htys
    refine (reads_walk.2.2.2.2.2.1 other after (ho.trans houtline.symm) [] [] [] [] ?_ ?_).1
    · rw [hkinds, houtlines]
    · rw [htys, htypes]

/-- A function that takes along a list, and a chain of two bindings. -/
theorem resolve_types_only_captured :
    let list : Ty := .var ⟨0, "L", ∅⟩
    let u : Unifier :=
      { subst := (Subst.insert {} 0 (.array (.var ⟨1, "E", ∅⟩) 2)).insert 1 .int }
    let stmt : Stmt := .bind 7 ⟨.func ⟨some "f", [⟨3, list⟩], [8],
      ⟨[.ret (some ⟨.cond [⟨⟨.ident 8, .bool⟩, ⟨[.eval ⟨.ident 3, list⟩], list⟩⟩]
        ⟨[], .void⟩, list⟩)], list⟩⟩, .func [.bool] list⟩
    let ints := Ty.array .int 2
    u.subst.Acyclic ∧
      (stmt.mapTy u.resolve).types =
        [.func [.bool] ints, ints, ints, ints, .bool, ints, ints, .void] ∧
      (stmt.mapTy u.resolve).mapTy u.resolve = stmt.mapTy u.resolve := by
  intro list u stmt ints
  have hacyclic : u.subst.Acyclic :=
    (Subst.acyclic_empty.insert ⟨rfl, by decide, fun _ _ => rfl⟩).insert
      ⟨by decide, by decide, by rintro _ ⟨⟩⟩
  obtain ⟨_, _, _, htypes, _, hagain, _⟩ := resolve_types_only u hacyclic stmt
  exact ⟨hacyclic, htypes.trans (by decide +kernel), hagain⟩

end TraitCheck.Core
