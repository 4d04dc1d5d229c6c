import TraitCheck.Core.Walk

/-!
Rules for core programs. `Every` says that a rule holds of each expression of a
program, of each block other than the body of a function, of each binding and
of each return. A rule sees the matches and the functions that a node stands in
(`Place`). The returns of a nested function are not those of the function around
it.
-/

namespace TraitCheck.Core

variable {stmts : List Stmt}

/-- Where a node of a program stands. -/
structure Place where
  /-- The match cases around it: by scrutinee, the type that is matched on and
  the index of the case. -/
  cases : BindingId → Option (Ty × Nat)
  /-- The functions around it, from the inside out. -/
  around : List FuncExpr

def Place.outside : Place := ⟨fun _ => none, []⟩

def Place.enter (place : Place) (scrutinee : BindingId) (ty : Ty) (tag : Nat) : Place :=
  { place with cases := fun id => if id = scrutinee then some (ty, tag) else place.cases id }

/-- The place inside of a function. -/
def Place.inside (place : Place) (func : FuncExpr) : Place :=
  { place with around := func :: place.around }

structure Rules where
  expr : Place → Expr → Prop := fun _ _ => True
  block : Place → Block → Prop := fun _ _ => True
  bind : Place → BindingId → Expr → Prop := fun _ _ _ => True
  ret : Option Expr → Prop := fun _ => True

/-- The rules inside a function, where the returns are its own. -/
def Rules.within (rules : Rules) : Rules := { rules with ret := fun _ => True }

mutual

/-- The rules hold in the expression. -/
def Expr.Every (rules : Rules) (place : Place) (e : Expr) : Prop :=
  match e with
  | ⟨kind, ty⟩ => rules.expr place ⟨kind, ty⟩ ∧ kind.Every rules place

def ExprKind.Every (rules : Rules) (place : Place) (kind : ExprKind) : Prop :=
  match kind with
  | .int _ | .float _ | .bool _ | .void | .string _ | .ident _ => True
  | .object _ fields => EveryExprs rules place fields
  | .func func => func.Every rules place
  | .call callee args _ => callee.Every rules place ∧ EveryExprs rules place args
  | .builtin _ args => EveryExprs rules place args
  | .field target _ => target.Every rules place
  | .block body => body.Every rules place
  | .cond branches otherwise => EveryBranches rules place branches ∧ otherwise.Every rules place
  | .cases scrutinee target blocks =>
    target.Every rules place ∧ EveryCases rules place scrutinee target.ty 0 blocks

def FuncExpr.Every (rules : Rules) (place : Place) (func : FuncExpr) : Prop :=
  match func with
  | ⟨name, captures, params, body⟩ =>
    (∀ c ∈ captures, rules.expr place c.value) ∧
      body.Inside rules.within (place.inside ⟨name, captures, params, body⟩)

/-- The rules hold in the statements of the block. -/
def Block.Inside (rules : Rules) (place : Place) (block : Block) : Prop :=
  match block with
  | ⟨stmts, _⟩ => EveryStmts rules place stmts

def Block.Every (rules : Rules) (place : Place) (block : Block) : Prop :=
  match block with
  | ⟨stmts, ty⟩ => rules.block place ⟨stmts, ty⟩ ∧ EveryStmts rules place stmts

def Stmt.Every (rules : Rules) (place : Place) (stmt : Stmt) : Prop :=
  match stmt with
  | .bind id value => rules.bind place id value ∧ value.Every rules place
  | .ret none => rules.ret none
  | .ret (some value) => rules.ret (some value) ∧ value.Every rules place
  | .whileDo cond body => cond.Every rules place ∧ body.Every rules place
  | .forEach _ iterable body => iterable.Every rules place ∧ body.Every rules place
  | .eval value => value.Every rules place

def EveryExprs (rules : Rules) (place : Place) (exprs : List Expr) : Prop :=
  match exprs with
  | [] => True
  | e :: rest => e.Every rules place ∧ EveryExprs rules place rest

def EveryBranches (rules : Rules) (place : Place) (branches : List Branch) : Prop :=
  match branches with
  | [] => True
  | ⟨cond, body⟩ :: rest =>
    cond.Every rules place ∧ body.Every rules place ∧ EveryBranches rules place rest

/-- The cases of a match from the index `tag` on. -/
def EveryCases (rules : Rules) (place : Place) (scrutinee : BindingId) (ty : Ty) (tag : Nat)
    (blocks : List Block) : Prop :=
  match blocks with
  | [] => True
  | b :: rest => b.Every rules (place.enter scrutinee ty tag) ∧
    EveryCases rules place scrutinee ty (tag + 1) rest

def EveryStmts (rules : Rules) (place : Place) (stmts : List Stmt) : Prop :=
  match stmts with
  | [] => True
  | s :: rest => s.Every rules place ∧ EveryStmts rules place rest

end

variable {rules rules' : Rules} {place : Place}

theorem everyExprs_iff {exprs : List Expr} :
    EveryExprs rules place exprs ↔ ∀ e ∈ exprs, e.Every rules place := by
  induction exprs with
  | nil => simp [EveryExprs]
  | cons e rest ih => simp [EveryExprs, ih]

theorem everyStmts_append {as bs : List Stmt} :
    EveryStmts rules place (as ++ bs) ↔ EveryStmts rules place as ∧ EveryStmts rules place bs := by
  induction as with
  | nil => simp [EveryStmts]
  | cons s rest ih => rw [List.cons_append, EveryStmts, EveryStmts, ih, and_assoc]

theorem everyBranches_iff {branches : List Branch} : EveryBranches rules place branches ↔
      ∀ b ∈ branches, b.cond.Every rules place ∧ b.body.Every rules place := by
  induction branches with
  | nil => simp [EveryBranches]
  | cons b rest ih =>
    obtain ⟨cond, body⟩ := b
    rw [EveryBranches, ih, List.forall_mem_cons, and_assoc]

theorem everyCases_iff {scrutinee : BindingId} {ty : Ty} {tag : Nat} {blocks : List Block} :
    EveryCases rules place scrutinee ty tag blocks ↔ ∀ (k : Nat) (b : Block), blocks[k]? = some b →
      b.Every rules (place.enter scrutinee ty (tag + k)) := by
  induction blocks generalizing tag with
  | nil => simp [EveryCases]
  | cons b rest ih =>
    rw [EveryCases, ih]
    constructor
    · rintro ⟨hfirst, hrest⟩ k c hc
      cases k with
      | zero =>
        cases hc
        exact hfirst
      | succ k =>
        have hnext := hrest k c hc
        rwa [Nat.add_assoc, Nat.add_comm 1] at hnext
    · intro h
      refine ⟨h 0 b rfl, ?_⟩
      intro k c hc
      have hnext := h (k + 1) c hc
      rwa [Nat.add_comm k, ← Nat.add_assoc] at hnext

/-! Rules that follow from others. -/

variable {related : Place → Place → Prop}

/-- What the first rules ask at a place the second ask at a related place. -/
structure Rules.Entails (related : Place → Place → Prop) (rules rules' : Rules) : Prop where
  expr : ∀ {p p' e}, related p p' → rules.expr p e → rules'.expr p' e
  block : ∀ {p p' b}, related p p' → rules.block p b → rules'.block p' b
  bind : ∀ {p p' id e}, related p p' → rules.bind p id e → rules'.bind p' id e
  ret : ∀ {e}, rules.ret e → rules'.ret e
  enter : ∀ {p p'} id ty tag, related p p' → related (p.enter id ty tag) (p'.enter id ty tag)
  inside : ∀ {p p'} func, related p p' → related (p.inside func) (p'.inside func)

theorem Rules.Entails.within {related : Place → Place → Prop} (h : rules.Entails related rules') :
    rules.within.Entails related rules'.within :=
  ⟨h.expr, h.block, h.bind, id, h.enter, h.inside⟩

/-- By induction on the program, as the rules go through it. -/
theorem every_transport :
    (∀ rules p (e : Expr) rules' p', rules.Entails related rules' → related p p' →
      e.Every rules p → e.Every rules' p') ∧
    (∀ rules p (kind : ExprKind) rules' p', rules.Entails related rules' → related p p' →
      kind.Every rules p → kind.Every rules' p') ∧
    (∀ rules p id ty tag blocks rules' p', rules.Entails related rules' → related p p' →
      EveryCases rules p id ty tag blocks → EveryCases rules' p' id ty tag blocks) ∧
    (∀ rules p (block : Block) rules' p', rules.Entails related rules' → related p p' →
      block.Every rules p → block.Every rules' p') ∧
    (∀ rules p stmts rules' p', rules.Entails related rules' → related p p' →
      EveryStmts rules p stmts → EveryStmts rules' p' stmts) ∧
    (∀ rules p (stmt : Stmt) rules' p', rules.Entails related rules' → related p p' →
      stmt.Every rules p → stmt.Every rules' p') ∧
    (∀ rules p branches rules' p', rules.Entails related rules' → related p p' →
      EveryBranches rules p branches → EveryBranches rules' p' branches) ∧
    (∀ rules p (func : FuncExpr) rules' p', rules.Entails related rules' → related p p' →
      func.Every rules p → func.Every rules' p') ∧
    (∀ rules p (block : Block) rules' p', rules.Entails related rules' → related p p' →
      block.Inside rules p → block.Inside rules' p') ∧
    (∀ rules p exprs rules' p', rules.Entails related rules' → related p p' →
      EveryExprs rules p exprs → EveryExprs rules' p' exprs) := by
  apply Expr.Every.mutual_induct
  -- The body of a function has rules of its own.
  case case16 =>
    intro rules p name captures params body ih rules' p' himp hp h
    rw [FuncExpr.Every] at h ⊢
    exact ⟨fun c hc => himp.expr hp (h.1 c hc), ih _ _ himp.within (himp.inside _ hp) h.2⟩
  all_goals intros
  all_goals
    simp only [Expr.Every, ExprKind.Every, EveryCases, Block.Every, EveryStmts, Stmt.Every,
      EveryBranches, Block.Inside, EveryExprs] at *
  all_goals grind [Rules.Entails]

theorem everyStmts_transport {p p' : Place} (h : EveryStmts rules p stmts)
    (himp : rules.Entails related rules') (hp : related p p') : EveryStmts rules' p' stmts :=
  every_transport.2.2.2.2.1 rules p stmts rules' p' himp hp h

/-- What the first rules ask the second ask too. -/
structure Rules.Implies (rules rules' : Rules) : Prop where
  expr : ∀ place e, rules.expr place e → rules'.expr place e
  block : ∀ place b, rules.block place b → rules'.block place b
  bind : ∀ place id e, rules.bind place id e → rules'.bind place id e
  ret : ∀ e, rules.ret e → rules'.ret e

theorem Rules.implies_within (rules : Rules) : rules.Implies rules.within :=
  ⟨fun _ _ h => h, fun _ _ h => h, fun _ _ _ h => h, fun _ _ => trivial⟩

theorem Rules.Implies.entails (h : rules.Implies rules') : rules.Entails (· = ·) rules' where
  expr := fun hp => hp ▸ h.expr _ _
  block := fun hp => hp ▸ h.block _ _
  bind := fun hp => hp ▸ h.bind _ _ _
  ret := h.ret _
  enter := fun _ _ _ hp => hp ▸ rfl
  inside := fun _ hp => hp ▸ rfl

theorem Expr.Every.imp {e : Expr} (h : e.Every rules place) (himp : rules.Implies rules') :
    e.Every rules' place :=
  every_transport.1 rules place e rules' place himp.entails rfl h

theorem everyStmts_imp (h : EveryStmts rules place stmts) (himp : rules.Implies rules') :
    EveryStmts rules' place stmts :=
  everyStmts_transport h himp.entails rfl

/-! The rules hold in every expression that the walk reaches. -/

/-- The rules hold in each of the expressions, wherever it stands. -/
def Reaches (rules : Rules) (exprs : List Expr) : Prop :=
  ∀ e ∈ exprs, ∃ place, e.Every rules.within place

theorem every_walk : (∀ rules p (e : Expr), e.Every rules p → Reaches rules e.walk) ∧
    (∀ rules p (kind : ExprKind), kind.Every rules p → Reaches rules kind.walk) ∧
    (∀ rules p id ty tag blocks, EveryCases rules p id ty tag blocks →
      Reaches rules (walkBlocks blocks)) ∧
    (∀ rules p (block : Block), block.Every rules p → Reaches rules block.walk) ∧
    (∀ rules p stmts, EveryStmts rules p stmts → Reaches rules (walkStmts stmts)) ∧
    (∀ rules p (stmt : Stmt), stmt.Every rules p → Reaches rules stmt.walk) ∧
    (∀ rules p branches, EveryBranches rules p branches → Reaches rules (walkBranches branches)) ∧
    (∀ rules p (func : FuncExpr), func.Every rules p → Reaches rules func.walk) ∧
    (∀ rules p (block : Block), block.Inside rules p → Reaches rules block.walk) ∧
    (∀ rules p exprs, EveryExprs rules p exprs → Reaches rules (walkExprs exprs)) := by
  apply Expr.Every.mutual_induct
  case case1 =>
    intro rules place kind ty ih h e he
    rw [Expr.walk] at he
    rcases List.mem_cons.mp he with rfl | he
    · exact ⟨place, h.imp rules.implies_within⟩
    · rw [Expr.Every] at h
      exact ih h.2 e he
  case case16 =>
    intro rules place name captures params body ih h e he
    rw [FuncExpr.Every] at h
    rw [FuncExpr.walk] at he
    rcases List.mem_append.mp he with he | he
    · obtain ⟨c, hc, rfl⟩ := List.mem_map.mp he
      refine ⟨place, ?_⟩
      rw [Capture.value, Expr.Every, ExprKind.Every]
      exact ⟨h.1 c hc, trivial⟩
    · exact ih h.2 e he
  all_goals intros
  all_goals
    simp only [Reaches, ExprKind.Every, EveryCases, Block.Every, EveryStmts, Stmt.Every,
      EveryBranches, Block.Inside, EveryExprs, ExprKind.walk, walkBlocks, Block.walk, walkStmts,
      Stmt.walk, walkBranches, walkExprs] at *
  all_goals grind

theorem everyStmts_walk (h : EveryStmts rules place stmts) : Reaches rules (walkStmts stmts) :=
  every_walk.2.2.2.2.1 rules place stmts h

/-! Changing types twice. -/

theorem mapTyExprs_eq_map (f : Ty → Ty) (exprs : List Expr) :
    mapTyExprs f exprs = exprs.map (Expr.mapTy f) := by
  induction exprs with
  | nil => rw [mapTyExprs, List.map_nil]
  | cons e rest ih => rw [mapTyExprs, List.map_cons, ih]

theorem mapTyBranches_eq_map (f : Ty → Ty) (branches : List Branch) :
    mapTyBranches f branches = branches.map fun b => ⟨b.cond.mapTy f, b.body.mapTy f⟩ := by
  induction branches with
  | nil => rw [mapTyBranches, List.map_nil]
  | cons b rest ih =>
    obtain ⟨cond, body⟩ := b
    rw [mapTyBranches, List.map_cons, ih]

theorem mapTyBlocks_eq_map (f : Ty → Ty) (blocks : List Block) :
    mapTyBlocks f blocks = blocks.map (Block.mapTy f) := by
  induction blocks with
  | nil => rw [mapTyBlocks, List.map_nil]
  | cons b rest ih => rw [mapTyBlocks, List.map_cons, ih]

theorem mapTyStmts_eq_map (f : Ty → Ty) (stmts : List Stmt) :
    mapTyStmts f stmts = stmts.map (Stmt.mapTy f) := by
  induction stmts with
  | nil => rw [mapTyStmts, List.map_nil]
  | cons s rest ih => rw [mapTyStmts, List.map_cons, ih]

theorem mapTy_comp (f g : Ty → Ty) : (∀ e : Expr, (e.mapTy f).mapTy g = e.mapTy (g ∘ f)) ∧
    (∀ kind : ExprKind, (kind.mapTy f).mapTy g = kind.mapTy (g ∘ f)) ∧
    (∀ blocks, mapTyBlocks g (mapTyBlocks f blocks) = mapTyBlocks (g ∘ f) blocks) ∧
    (∀ block : Block, (block.mapTy f).mapTy g = block.mapTy (g ∘ f)) ∧
    (∀ stmts, mapTyStmts g (mapTyStmts f stmts) = mapTyStmts (g ∘ f) stmts) ∧
    (∀ stmt : Stmt, (stmt.mapTy f).mapTy g = stmt.mapTy (g ∘ f)) ∧
    (∀ branches, mapTyBranches g (mapTyBranches f branches) = mapTyBranches (g ∘ f) branches) ∧
    (∀ func : FuncExpr, (func.mapTy f).mapTy g = func.mapTy (g ∘ f)) ∧
    (∀ exprs, mapTyExprs g (mapTyExprs f exprs) = mapTyExprs (g ∘ f) exprs) := by
  apply Expr.mapTy.mutual_induct
  all_goals
    simp +contextual [Expr.mapTy, ExprKind.mapTy, mapTyBlocks, Block.mapTy, mapTyStmts, Stmt.mapTy,
      mapTyBranches, FuncExpr.mapTy, mapTyExprs, Capture.mapTy]

theorem Expr.mapTy_mapTy (f g : Ty → Ty) (e : Expr) : (e.mapTy f).mapTy g = e.mapTy (g ∘ f) :=
  (mapTy_comp f g).1 e

theorem FuncExpr.mapTy_mapTy (f g : Ty → Ty) (func : FuncExpr) :
    (func.mapTy f).mapTy g = func.mapTy (g ∘ f) :=
  (mapTy_comp f g).2.2.2.2.2.2.2.1 func

theorem mapTy_mapTyStmts (f g : Ty → Ty) (stmts : List Stmt) :
    mapTyStmts g (mapTyStmts f stmts) = mapTyStmts (g ∘ f) stmts :=
  (mapTy_comp f g).2.2.2.2.1 stmts

/-- Types that are left as they are. -/
theorem mapTy_same : (∀ e : Expr, e.mapTy id = e) ∧ (∀ kind : ExprKind, kind.mapTy id = kind) ∧
    (∀ blocks, mapTyBlocks id blocks = blocks) ∧ (∀ block : Block, block.mapTy id = block) ∧
    (∀ stmts, mapTyStmts id stmts = stmts) ∧ (∀ stmt : Stmt, stmt.mapTy id = stmt) ∧
    (∀ branches, mapTyBranches id branches = branches) ∧
    (∀ func : FuncExpr, func.mapTy id = func) ∧ (∀ exprs, mapTyExprs id exprs = exprs) := by
  have hcapture : Capture.mapTy id = id := rfl
  apply Expr.mapTy.mutual_induct
  all_goals
    simp +contextual [Expr.mapTy, ExprKind.mapTy, mapTyBlocks, Block.mapTy, mapTyStmts, Stmt.mapTy,
      mapTyBranches, FuncExpr.mapTy, mapTyExprs, hcapture]

theorem Expr.mapTy_id (e : Expr) : e.mapTy id = e := mapTy_same.1 e

theorem FuncExpr.mapTy_id (func : FuncExpr) : func.mapTy id = func :=
  mapTy_same.2.2.2.2.2.2.2.1 func

theorem mapTyStmts_id (stmts : List Stmt) : mapTyStmts id stmts = stmts := mapTy_same.2.2.2.2.1 stmts

end TraitCheck.Core
