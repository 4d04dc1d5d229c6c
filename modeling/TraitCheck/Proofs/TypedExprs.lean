import TraitCheck.Proofs.TypedImplementations

/-!
The forms of expressions, each from what is known of its parts. A part is known
by what checking it leads to, from any state in order at the same site.
-/

namespace TraitCheck

/-- A value that is read in order is that of the key in its place. -/
theorem Assoc.getElem?_of_inOrder {κ α : Type} [DecidableEq κ] {table : Assoc κ α} {keys : List κ}
    {values : List α} {value : α} (h : table.inOrder keys = .ok values) {k : Nat}
    (hvalue : values[k]? = some value) :
    ∃ key, keys[k]? = some key ∧ table.find? key = some value := by
  obtain ⟨hlength, hfind⟩ := List.forall₂_iff_get.mp (forall₂_of_inOrder h)
  obtain ⟨hk, rfl⟩ := List.getElem?_eq_some_iff.mp hvalue
  have hk' : k < keys.length := hlength ▸ hk
  exact ⟨keys[k], List.getElem?_eq_getElem hk', hfind k hk' hk⟩

namespace Core

variable {stmts : List Stmt}

def Stmt.isEval : Stmt → Bool
  | .eval _ => true
  | _ => false

theorem isEval_getLast? (h : ∀ stmt ∈ stmts, stmt.isEval = false) :
    stmts.getLast?.any (·.isEval) = false := by
  cases hlast : stmts.getLast? with
  | none => rfl
  | some stmt => exact h stmt (List.mem_of_getLast? hlast)

/-- The type of a block that ends in some other statement than an expression. -/
theorem Block.valueTyped_void (h : stmts.getLast?.any (·.isEval) = false) :
    Block.ValueTyped ⟨stmts, .void⟩ := by
  dsimp only [Block.ValueTyped]
  split
  · rename_i value hlast
    rw [hlast] at h
    cases h
  · rfl

/-- Statements before those of a block. -/
theorem Block.ValueTyped.prepend {block : Block} (h : block.ValueTyped)
    (hstmts : block.stmts = [] → stmts.getLast?.any (·.isEval) = false) :
    Block.ValueTyped ⟨stmts ++ block.stmts, block.ty⟩ := by
  obtain ⟨body, ty⟩ := block
  rcases List.eq_nil_or_concat body with rfl | ⟨init, last, rfl⟩
  · cases h
    rw [List.append_nil]
    exact valueTyped_void (hstmts rfl)
  · dsimp only [Block.ValueTyped] at h ⊢
    rw [List.concat_eq_append, ← List.append_assoc, List.getLast?_concat]
    rwa [List.concat_eq_append, List.getLast?_concat] at h

theorem Block.ValueTyped.mapTy {block : Block} (h : block.ValueTyped) {f : Ty → Ty}
    (hf : f .void = .void) : (block.mapTy f).ValueTyped := by
  obtain ⟨stmts, ty⟩ := block
  rw [Block.mapTy, mapTyStmts_eq_map]
  dsimp only [Block.ValueTyped] at h ⊢
  rw [List.getLast?_map]
  cases hlast : stmts.getLast? with
  | none =>
    rw [hlast] at h
    cases h
    exact hf
  | some last =>
    rw [hlast] at h
    cases last with
    | eval value =>
      cases h
      simp only [Option.map_some, Stmt.mapTy, Expr.mapTy_ty]
    | ret value =>
      cases h
      cases value <;> exact hf
    | bind | whileDo | forEach =>
      cases h
      exact hf

end Core

namespace Checker

open Surface (Expr FieldInit Branch Case Block)

variable {site : Site} {ledger ledger' : Ledger} {s s' : Checker} {ty : Ty} {room : Nat}
  {span : Span}

/-- Checking with a hint gives an expression in order. -/
def LeadsExpr (site : Site) (check : Option Ty → CheckM Core.Expr) : Prop :=
  ∀ ⦃ledger s hint⦄, Wellformed site ledger s → Hinted hint ledger s →
    Leads site ledger s (check hint) (Gives site)

/-- Checking with a hint gives a block in order. -/
def LeadsBlock (site : Site) (check : Option Ty → CheckM Core.Block) : Prop :=
  ∀ ⦃ledger s hint⦄, Wellformed site ledger s → Hinted hint ledger s →
    Leads site ledger s (check hint) (GivesBlock site)

theorem LeadsExpr.expecting {check : Option Ty → CheckM Core.Expr} (h : LeadsExpr site check)
    (hs : Wellformed site ledger s) (hty : Known ledger s ty) (span : Span) :
    Leads site ledger s (expecting ty span check) (GivesAt site ty) :=
  hs.expecting hty span fun _ hhint => h hs hhint

/-! Tuples and arrays. -/

variable {rest elems : List Expr} {e : Expr}

/-- Checking with a hint for each element gives elements in order. -/
def LeadsElems (site : Site) (check : List Ty → CheckM (List Core.Expr)) : Prop :=
  ∀ ⦃ledger s hints⦄, Wellformed site ledger s → (∀ t ∈ hints, Known ledger s t) →
    Leads site ledger s (check hints) fun ledger' s' es => ∀ e ∈ es, Gives site ledger' s' e

theorem leads_elem (he : LeadsExpr site (checkExpr room · e))
    (hrest : LeadsElems site (checkElems room · rest)) :
    LeadsElems site (checkElems room · (e :: rest)) := by
  intro ledger s hints hs hhints
  dsimp only
  rw [checkElems]
  refine .bind (he hs fun t ht => hhints t (List.mem_of_head? ht)) ?_
  intro ledger1 s1 value hadv1 hvalue
  refine .bind (hrest hadv1.after fun t ht => hadv1.known (hhints t (List.mem_of_mem_tail ht))) ?_
  intro ledger2 s2 values hadv2 hvalues
  exact .pure hadv2.after (List.forall_mem_cons.mpr ⟨Gives.lasting hadv2.carries hvalue, hvalues⟩)

theorem leads_tuple (helems : LeadsElems site (checkElems room · elems)) :
    LeadsExpr site (checkExpr (room + 1) · (.tuple elems span)) := by
  intro ledger s hint hs hhint
  dsimp only
  rw [checkExpr]
  refine .bind (hs.tupleHints elems.length hhint) ?_
  intro ledger1 s1 hints hadv hhints
  refine .bind (helems hadv.after hhints) ?_
  intro ledger2 s2 fields hadv2 hfields
  refine .pure hadv2.after (.object (Ty.formed_tuple ?_) hfields fun _ hview => ?_)
  · intro t ht
    obtain ⟨e, he, rfl⟩ := List.mem_map.mp ht
    exact (hfields e he).known
  · rw [hview.reads.tuple]
    exact .tuple _

/-- The elements of an array all have its element type. -/
structure GivesItems (site : Site) (ty : Ty) (ledger : Ledger) (s : Checker)
    (r : List Core.Expr × Ty) : Prop where
  known : Known ledger s r.2
  same : Same ledger s ty r.2
  items : ∀ e ∈ r.1, GivesAt site r.2 ledger s e

/-- Checking with a hint, and with the type of the elements before, gives
elements of that type. -/
def LeadsItems (site : Site) (check : Option Ty → Ty → CheckM (List Core.Expr × Ty)) : Prop :=
  ∀ ⦃ledger s hint ty⦄, Wellformed site ledger s → Hinted hint ledger s → Known ledger s ty →
    Leads site ledger s (check hint ty) (GivesItems site ty)

theorem leads_noItems : LeadsItems site (checkItems room · · []) := by
  intro ledger s hint ty hs hhint hty
  dsimp only
  rw [checkItems]
  exact .pure hs ⟨hty, .refl _ _ _, by simp⟩

theorem leads_item (he : LeadsExpr site (checkExpr room · e))
    (hrest : LeadsItems site (checkItems room · · rest)) :
    LeadsItems site (checkItems room · · (e :: rest)) := by
  intro ledger s hint ty hs hhint hty
  dsimp only
  rw [checkItems]
  have hknown : Hinted (if (s.unifier.resolve ty).isVar then hint
      else some (s.unifier.resolve ty)) ledger s := by
    split
    · exact hhint
    · exact .some (hs.known_resolve hty)
  refine .resolve (.bind (he hs hknown) ?_)
  intro ledger1 s1 value hadv1 hvalue
  refine .bind (hadv1.after.unify _ (hadv1.known hty) hvalue.known) ?_
  rintro ledger2 s2 c hadv2 ⟨hc, hleft, hright⟩
  refine .bind (hrest hadv2.after (hhint.carry (hadv1.trans hadv2).carries) hc) ?_
  rintro ledger3 s3 ⟨values, t⟩ hadv3 ⟨ht, hsame, hvalues⟩
  refine .pure hadv3.after ⟨ht, (hadv3.same hleft).trans hsame, List.forall_mem_cons.mpr ⟨?_, hvalues⟩⟩
  exact ⟨Gives.lasting (hadv2.trans hadv3).carries hvalue, (hadv3.same hright).trans hsame⟩

theorem leads_array (helems : LeadsItems site (checkItems room · · elems)) :
    LeadsExpr site (checkExpr (room + 1) · (.array elems span)) := by
  intro ledger s hint hs hhint
  dsimp only
  rw [checkExpr]
  refine .bind (hs.arrayHint hhint) ?_
  intro ledger1 s1 hint' hadv1 hhint'
  refine .bind (hadv1.after.fresh _ _) ?_
  intro ledger2 s2 var hadv2 hvar
  refine .bind (helems hadv2.after (hhint'.carry hadv2.carries) hvar) ?_
  rintro ledger3 s3 ⟨fields, ty⟩ hadv3 ⟨hty, _, hitems⟩
  refine .resolve (.pure hadv3.after (.object ?_ (fun e he => (hitems e he).1) fun view hview => ?_))
  · exact Ty.formed_array (hadv3.after.known_resolve hty) _
  · have hreplicate : (fields.map (·.ty)).map view.map =
        List.replicate fields.length (view.map ty) := by
      rw [List.map_map]
      exact List.map_eq_replicate_iff.mpr fun e he => (hitems e he).2 view hview
    rw [hview.reads.array, hview.reads.resolve, hreplicate]
    exact .array _ _

/-! Structs and enums. -/

variable {name : Name}

/-- Checking adds to the supplied fields, each at its type in the instance. -/
def LeadsInits (site : Site) (check : Instance → Fields → Assoc String Core.Expr →
    CheckM (Assoc String Core.Expr)) : Prop :=
  ∀ ⦃ledger s adt inst tag fields supplied⦄, Wellformed site ledger s →
    Instantiates adt ledger s inst → Declared s adt tag fields →
      Supplies site inst.fieldType fields ledger s supplied →
        Leads site ledger s (check inst fields supplied) (Supplies site inst.fieldType fields)

theorem leads_init {rest : List FieldInit} (he : LeadsExpr site (checkExpr room · e))
    (hrest : LeadsInits site (checkInits room · · · rest)) :
    LeadsInits site (checkInits room · · · (⟨name, e⟩ :: rest)) := by
  intro ledger s adt inst tag fields supplied hs hinst hdeclared hsupplied
  dsimp only
  rw [checkInits]
  split
  · exact .resolve .fail
  · rename_i ty hty
    have hmem : ty ∈ fields.values := List.mem_map_of_mem (Assoc.mem_of_find? hty)
    have hformed := ((hs.adts _ _ hdeclared.find).fields _ _ hdeclared.fields).2 ty hmem
    refine .ensure fun _ => .bind (he.expecting hs (hinst.known_field hformed) _) ?_
    intro ledger1 s1 value hadv hvalue
    exact hrest hadv.after (Instantiates.lasting hadv.carries hinst)
      (hdeclared.later hadv.later.adts) ((Supplies.lasting hadv.carries hsupplied).insert hty hvalue)

theorem leads_construct {tag : Option Name} {inits : List FieldInit}
    (hinits : LeadsInits site (checkInits room · · · inits)) :
    LeadsExpr site (checkExpr (room + 1) · (.construct name tag inits span)) := by
  intro ledger s hint hs hhint
  dsimp only
  rw [checkExpr]
  refine .bind (hs.lookupAdt name) ?_
  intro ledger1 s1 adt hadv1 hadt
  refine .bind (hadv1.after.instantiateAdt adt) ?_
  rintro ledger2 s2 inst hadv2 ⟨hinst, hadts⟩
  refine .bind (hadv2.after.constructedFields (hadts ▸ hadt) tag span) ?_
  rintro ledger3 s3 ⟨index, fields⟩ hadv3 hdeclared
  have hinst3 := Instantiates.lasting hadv3.carries hinst
  refine .bind (hinits hadv3.after hinst3 hdeclared .empty) ?_
  intro ledger4 s4 supplied hadv4 hsupplied
  split
  · exact .fail
  · rename_i values hvalues
    have hdeclared4 := hdeclared.later hadv4.later.adts
    have hnodup := ((hadv4.after.adts _ _ hdeclared4.find).fields _ _ hdeclared4.fields).1
    refine .resolve (.pure hadv4.after ?_)
    exact hadv4.after.gives_constructed (Instantiates.lasting hadv4.carries hinst3) hdeclared4
      (hsupplied.inOrder hnodup hvalues)

/-! Calls. -/

/-- Checking with the parameter types gives arguments of these types. -/
def LeadsArgs (site : Site) (count : Nat) (check : List Ty → CheckM (List Core.Expr)) : Prop :=
  ∀ ⦃ledger s params⦄, Wellformed site ledger s → (∀ p ∈ params, Known ledger s p) →
    params.length = count → Leads site ledger s (check params) (GivesAll site params)

theorem leads_arg (he : LeadsExpr site (checkExpr room · e))
    (hrest : LeadsArgs site rest.length (checkArgs room · rest)) :
    LeadsArgs site (e :: rest).length (checkArgs room · (e :: rest)) := by
  intro ledger s params hs hparams hcount
  dsimp only
  cases params with
  | nil => cases hcount
  | cons param params =>
    rw [checkArgs]
    obtain ⟨hparam, hparams⟩ := List.forall_mem_cons.mp hparams
    refine .bind (he.expecting hs hparam _) ?_
    intro ledger1 s1 value hadv1 hvalue
    refine .bind (hrest hadv1.after (fun p hp => hadv1.known (hparams p hp)) (Nat.succ.inj hcount)) ?_
    intro ledger2 s2 values hadv2 hvalues
    exact .pure hadv2.after (.cons (GivesAt.lasting hadv2.carries hvalue) hvalues)

theorem leads_call {callee : Expr} {args : List Expr}
    (hcallee : LeadsExpr site (checkExpr room · callee))
    (hargs : LeadsArgs site args.length (checkArgs room · args)) :
    LeadsExpr site (checkExpr (room + 1) · (.call callee args span)) := by
  intro ledger s hint hs hhint
  dsimp only
  rw [checkExpr]
  refine .bind (hs.calleeOf callee (hcallee hs .none)) ?_
  rintro ledger1 s1 ⟨target, ty⟩ hadv1 ⟨hty, htarget⟩
  refine .bind (hadv1.after.openCall hty callee.span) ?_
  intro ledger2 s2 shape hadv2 hshape
  refine .ensure fun hcount => .bind (hargs hadv2.after hshape.params hcount) ?_
  intro ledger3 s3 values hadv3 hvalues
  exact hadv3.after.closeCall (htarget.carry (hadv2.trans hadv3).carries)
    (ShapeOf.lasting hadv3.carries hshape) hvalues span

theorem leads_binary {op : Surface.BinOp} {lhs rhs : Expr}
    (hlhs : LeadsExpr site (checkExpr room · lhs)) (hrhs : LeadsExpr site (checkExpr room · rhs)) :
    LeadsExpr site (checkExpr (room + 1) · (.binary op lhs rhs span)) := by
  intro ledger s hint hs hhint
  dsimp only
  rw [checkExpr]
  refine .bind (hs.namedCallee op.symbol span) ?_
  rintro ledger1 s1 ⟨target, ty⟩ hadv1 ⟨hty, htarget⟩
  refine .bind (hadv1.after.openCall hty span) ?_
  intro ledger2 s2 shape hadv2 hshape
  split
  · rename_i p q hparams
    obtain ⟨hp, hq⟩ := List.forall_mem_cons.mp (hparams ▸ hshape.params)
    refine .bind (hlhs.expecting hadv2.after hp _) ?_
    intro ledger3 s3 l hadv3 hl
    refine .bind (hrhs.expecting hadv3.after (hadv3.known (hq q List.mem_cons_self)) _) ?_
    intro ledger4 s4 r hadv4 hr
    have hadv := (hadv2.trans hadv3).trans hadv4
    refine hadv4.after.closeCall (htarget.carry hadv.carries)
      (ShapeOf.lasting (hadv3.trans hadv4).carries hshape) ?_ span
    rw [hparams]
    exact .cons (GivesAt.lasting hadv4.carries hl) (.cons hr .nil)
  · exact .fail

theorem leads_unary {op : Surface.UnOp} {operand : Expr}
    (hoperand : LeadsExpr site (checkExpr room · operand)) :
    LeadsExpr site (checkExpr (room + 1) · (.unary op operand span)) := by
  intro ledger s hint hs hhint
  dsimp only
  rw [checkExpr]
  refine .bind (hs.namedCallee op.symbol span) ?_
  rintro ledger1 s1 ⟨target, ty⟩ hadv1 ⟨hty, htarget⟩
  refine .bind (hadv1.after.openCall hty span) ?_
  intro ledger2 s2 shape hadv2 hshape
  split
  · rename_i p hparams
    have hp := hshape.params p (hparams ▸ List.mem_cons_self)
    refine .bind (hoperand.expecting hadv2.after hp _) ?_
    intro ledger3 s3 value hadv3 hvalue
    refine hadv3.after.closeCall (htarget.carry (hadv2.trans hadv3).carries)
      (ShapeOf.lasting hadv3.carries hshape) ?_ span
    rw [hparams]
    exact .cons hvalue .nil
  · exact .fail

/-! Blocks. -/

variable {stmts : List Surface.Stmt}

/-- The block is what checking the statements gave, one after the other. -/
structure GivesSeq (site : Site) (written : List Surface.Stmt) (ledger : Ledger) (s : Checker)
    (block : Core.Block) : Prop where
  known : Known ledger s block.ty
  stmts : GivesStmts site ledger s block.stmts
  value : block.ValueTyped
  nonempty : written ≠ [] → block.stmts ≠ []

theorem GivesSeq.lasting {written : List Surface.Stmt} : Lasting (GivesSeq site written) :=
  fun hcarries h =>
    ⟨hcarries.known h.known, GivesStmts.lasting hcarries h.stmts, h.value, h.nonempty⟩

theorem GivesSeq.block {written : List Surface.Stmt} {block : Core.Block}
    (h : GivesSeq site written ledger s block) : GivesBlock site ledger s block := by
  refine ⟨h.known, fun view hview place hplace => ?_⟩
  have hvalue := h.value.mapTy hview.reads.void
  have hstmts := h.stmts view hview place hplace
  have htraced := hplace.traced hview.reads.toHom h.known (subset_refl _)
  obtain ⟨stmts, ty⟩ := block
  rw [Core.Block.mapTy] at hvalue ⊢
  rw [Core.Block.Every]
  exact ⟨⟨hvalue, htraced⟩, hstmts⟩

/-- Checking with a hint gives the statements in order, one after the other. -/
def LeadsSeq (site : Site) (stmts : List Surface.Stmt) (check : Option Ty → CheckM Core.Block) :
    Prop :=
  ∀ ⦃ledger s hint⦄, Wellformed site ledger s → Hinted hint ledger s → s.scope.below ≠ [] →
    Leads site ledger s (check hint) (GivesSeq site stmts)

theorem leads_block (hstmts : LeadsSeq site stmts (checkStmts room · stmts)) :
    LeadsBlock site (checkBlock room · ⟨stmts, span⟩) := by
  intro ledger s hint hs hhint
  dsimp only
  rw [checkBlock]
  refine (Leads.inScope hs (fun hs0 => hstmts hs0 ?_ (List.cons_ne_nil _ _)) GivesSeq.lasting).imp
    fun _ _ _ _ h => h.block
  exact hhint.carry (.of_eq rfl rfl rfl rfl)

theorem givesSeq_nil (hs : Wellformed site ledger s) : GivesSeq site [] ledger s .empty :=
  ⟨hs.known_void, .nil, rfl, fun h => absurd rfl h⟩

theorem GivesSeq.last {stmt : Surface.Stmt} {value : Core.Expr} (h : Gives site ledger s value) :
    GivesSeq site [stmt] ledger s ⟨[.eval value], value.ty⟩ :=
  ⟨h.known, .eval h, rfl, fun _ => List.cons_ne_nil _ _⟩

/-! Conditionals. -/

/-- The branches are in order, and all have the type that was found. -/
structure GivesBranches (site : Site) (before : Option Ty) (ledger : Ledger) (s : Checker)
    (r : List Core.Branch × Option Ty) : Prop where
  known : Hinted r.2 ledger s
  before : ∀ b, before = some b → ∃ t, r.2 = some t ∧ Same ledger s b t
  branches : ∀ b ∈ r.1, Gives site ledger s b.cond ∧ Same ledger s b.cond.ty .bool ∧
    GivesBlock site ledger s b.body ∧ ∃ t, r.2 = some t ∧ Same ledger s b.body.ty t

/-- Checking with a hint, and with the type of the branches before, gives
branches in order. -/
def LeadsBranches (site : Site)
    (check : Option Ty → Option Ty → CheckM (List Core.Branch × Option Ty)) : Prop :=
  ∀ ⦃ledger s hint before⦄, Wellformed site ledger s → Hinted hint ledger s →
    Hinted before ledger s → Leads site ledger s (check hint before) (GivesBranches site before)

theorem leads_noBranches : LeadsBranches site (checkBranches room · · []) := by
  intro ledger s hint before hs hhint hbefore
  dsimp only
  rw [checkBranches]
  exact .pure hs ⟨hbefore, fun b hb => ⟨b, hb, .refl _ _ _⟩, by simp⟩

theorem leads_branch {cond : Expr} {body : Block} {rest : List Branch}
    (hcond : LeadsExpr site (checkExpr room · cond))
    (hbody : LeadsBlock site (checkBlock room · body))
    (hrest : LeadsBranches site (checkBranches room · · rest)) :
    LeadsBranches site (checkBranches room · · (⟨cond, body⟩ :: rest)) := by
  intro ledger s hint before hs hhint hbefore
  dsimp only
  rw [checkBranches]
  refine .bind (hcond.expecting hs hs.known_bool _) ?_
  rintro ledger1 s1 test hadv1 ⟨htest, hbool⟩
  refine .bind (hbody hadv1.after (hhint.carry hadv1.carries)) ?_
  intro ledger2 s2 block hadv2 hblock
  have hbefore2 := hbefore.carry (hadv1.trans hadv2).carries
  refine .bind (hadv2.after.join _ hbefore2 hblock.known) ?_
  rintro ledger3 s3 ty hadv3 ⟨hty, hsame, hjoined⟩
  have hhint3 := hhint.carry ((hadv1.trans hadv2).trans hadv3).carries
  refine .bind (hrest hadv3.after hhint3 (.some hty)) ?_
  rintro ledger4 s4 ⟨checked, result⟩ hadv4 hchecked
  obtain ⟨t, ht, htsame⟩ := hchecked.before ty rfl
  refine .pure hadv4.after ⟨hchecked.known, ?_, List.forall_mem_cons.mpr ⟨?_, hchecked.branches⟩⟩
  · exact fun b hb => ⟨t, ht, (hadv4.same (hjoined b hb)).trans htsame⟩
  · have hadv := (hadv2.trans hadv3).trans hadv4
    exact ⟨Gives.lasting hadv.carries htest, hadv.same hbool,
      GivesBlock.lasting (hadv3.trans hadv4).carries hblock, t, ht, (hadv4.same hsame).trans htsame⟩

theorem leads_cond {branches : List Branch} {otherwise : Option Block}
    (hbranches : LeadsBranches site (checkBranches room · · branches))
    (helse : ∀ {ledger s hint}, Wellformed site ledger s → Hinted hint ledger s →
      Leads site ledger s (checkElse room hint span otherwise) fun ledger' s' r =>
        GivesBlock site ledger' s' r.1) :
    LeadsExpr site (checkExpr (room + 1) · (.cond branches otherwise span)) := by
  intro ledger s hint hs hhint
  dsimp only
  rw [checkExpr]
  refine .bind (hbranches hs hhint .none) ?_
  rintro ledger1 s1 ⟨checked, found⟩ hadv1 ⟨hfound, _, hchecked⟩
  refine .bind (helse hadv1.after (hhint.carry hadv1.carries)) ?_
  rintro ledger2 s2 ⟨last, lastSpan⟩ hadv2 hlast
  refine .bind (hadv2.after.join _ (hfound.carry hadv2.carries) hlast.known) ?_
  rintro ledger3 s3 ty hadv3 ⟨hty, hsame, hjoined⟩
  have hadv := hadv2.trans hadv3
  have hresolve := (Wellformed.same_resolve ledger3 s3 ty).symm
  refine .resolve (.pure hadv3.after (.cond (hadv3.after.known_resolve hty) ?_
    (GivesBlock.lasting hadv3.carries hlast) (hsame.trans hresolve)))
  intro b hb
  obtain ⟨hcond, hbool, hbody, t, ht, hbodyty⟩ := hchecked b hb
  exact ⟨Gives.lasting hadv.carries hcond, hadv.same hbool, GivesBlock.lasting hadv.carries hbody,
    ((hadv.same hbodyty).trans (hjoined t ht)).trans hresolve⟩

/-! Matches. -/

variable {m : Match} {fields : Fields} {bindings : List Surface.CaseBinding}
  {lets : List Core.Stmt}

theorem isEval_caseFields {seen : List String} :
    Results (∀ stmt ∈ ·, stmt.isEval = false) (bindCaseFields m fields seen bindings) := by
  induction bindings generalizing seen with
  | nil => exact .pure (by simp)
  | cons b rest ih =>
    exact .after fun _ => .after fun _ => .after fun _ => .bind ih fun _ hmore => .pure (List.forall_mem_cons.mpr ⟨rfl, hmore⟩)

/-- A case of a match: its payload is bound, and then its body follows. -/
theorem GivesSeq.case {k : Nat} {written : List Surface.Stmt} {body : Core.Block}
    (h : GivesSeq (site.hide m.scrutinee) written ledger s body)
    (hlets : GivesPayload (site.hide m.scrutinee) m k ledger s lets)
    (heval : ∀ stmt ∈ lets, stmt.isEval = false) :
    GivesCase site m.scrutinee m.ty k ledger s ⟨lets ++ body.stmts, body.ty⟩ := by
  refine ⟨h.known, fun view hview place hplace => ?_⟩
  have hvalue := h.value.prepend fun _ => Core.isEval_getLast? heval
  have hmap := hvalue.mapTy hview.reads.void
  have hbody := h.stmts view hview _ (hplace.enter m.scrutinee (view.map m.ty) k)
  have hfirst := hlets view hview place hplace.hide
  have htraced := hplace.traced hview.reads.toHom h.known (subset_refl _)
  rw [Core.Block.mapTy] at hmap ⊢
  rw [Core.Block.Every]
  refine ⟨⟨hmap, htraced⟩, ?_⟩
  rw [Core.mapTyStmts_eq_map] at hfirst hbody ⊢
  rw [List.map_append, Core.everyStmts_append]
  exact ⟨hfirst, hbody⟩

/-- The cases are in order, and all have the type that was found. -/
structure GivesCases (site : Site) (m : Match) (ledger : Ledger) (s : Checker)
    (r : Assoc String Core.Block × Option Ty) : Prop where
  known : Hinted r.2 ledger s
  blocks : ∀ tag block, r.1.find? tag = some block →
    (∀ k, m.tags.keys[k]? = some tag → GivesCase site m.scrutinee m.ty k ledger s block) ∧
      ∃ t, r.2 = some t ∧ Same ledger s block.ty t

/-- Checking with a hint, and with the cases before and their type, gives cases
in order. -/
def LeadsCases (site : Site) (m : Match) (check : Option Ty → Option Ty → Assoc String Core.Block →
    CheckM (Assoc String Core.Block × Option Ty)) : Prop :=
  ∀ ⦃ledger s hint before done⦄, Wellformed (site.hide m.scrutinee) ledger s → Matches ledger s m →
    Hinted hint ledger s → GivesCases site m ledger s (done, before) →
      Leads (site.hide m.scrutinee) ledger s (check hint before done) (GivesCases site m)

/-- A tag is at one place only. -/
theorem Matches.place (hs : Wellformed site ledger s) (h : Matches ledger s m) {tag : String}
    (hfind : m.tags.find? tag = some fields) :
    ∃ k : Nat, m.tags.values[k]? = some fields ∧ ∀ j : Nat, m.tags.keys[j]? = some tag → j = k := by
  obtain ⟨k, hk⟩ := List.mem_iff_getElem?.mp (Assoc.mem_of_find? hfind)
  have hkey : m.tags.keys[k]? = some tag := by
    rw [Assoc.keys, List.getElem?_map, hk]
    rfl
  refine ⟨k, ?_, fun _ hj => ?_⟩
  · rw [Assoc.values, List.getElem?_map, hk]
    rfl
  · have hnodup := (hs.adts _ _ h.find).tags _ h.tags
    exact (List.getElem?_inj (List.getElem?_eq_some_iff.mp hj).1 hnodup).mp (hj.trans hkey.symm)

theorem leads_case {tag : Name} {bodySpan : Span} {rest : List Case}
    (hstmts : LeadsSeq (site.hide m.scrutinee) stmts (checkStmts room · stmts))
    (hrest : LeadsCases site m (checkCases room · m · · rest)) : LeadsCases site m
      (checkCases room · m · · (⟨tag, bindings, ⟨stmts, bodySpan⟩, span⟩ :: rest)) := by
  intro ledger s hint before done hs hm hhint hdone
  dsimp only
  rw [checkCases]
  split
  · exact .fail
  · rename_i fields hfields
    obtain ⟨k, hk, hunique⟩ := hm.place hs hfields
    refine .ensure fun _ => .bind (.inScope hs (fun hs0 => ?_)
      (@GivesCase.lasting site m.scrutinee m.ty k)) ?_
    · have hm0 : Matches ledger { s with scope := s.scope.push } m :=
        ⟨hm.find, hm.tags, hm.known, hm.lt, hm.unsettled⟩
      refine .bind (hs0.bindCaseFields hk hm0 []).run ?_
      rintro ledger1 s1 lets hadv1 ⟨hlets, hrun⟩
      have hframe : Carries ledger s ledger { s with scope := s.scope.push } :=
        .of_eq rfl rfl rfl rfl
      have hhint1 := (hhint.carry hframe).carry hadv1.carries
      refine .bind (hstmts hadv1.after hhint1 (hadv1.below_ne_nil (List.cons_ne_nil _ _))) ?_
      intro ledger2 s2 body hadv2 hbody
      exact .pure hadv2.after
        (hbody.case (GivesPayload.lasting hadv2.carries hlets) (isEval_caseFields hrun))
    · intro ledger1 s1 block hadv1 hblock
      refine .bind (hadv1.after.join _ (hdone.known.carry hadv1.carries) hblock.known) ?_
      rintro ledger2 s2 ty hadv2 ⟨hty, hsame, hjoined⟩
      have hadv := hadv1.trans hadv2
      refine hrest hadv2.after (hm.advance hadv) (hhint.carry hadv.carries) ⟨.some hty, ?_⟩
      refine Assoc.forall_insert ⟨fun j hj => ?_, ty, rfl, hsame⟩ fun other b hb => ?_
      · obtain rfl := hunique j hj
        exact GivesCase.lasting hadv2.carries hblock
      · obtain ⟨hcase, t, ht, hb⟩ := hdone.blocks other b hb
        exact ⟨fun j hj => GivesCase.lasting hadv.carries (hcase j hj), ty, rfl,
          (hadv.same hb).trans (hjoined t ht)⟩

/-- A new binding that no name refers to. -/
theorem Wellformed.freshScrutinee (hs : Wellformed site ledger s) :
    Leads site ledger s Checker.freshBinding fun ledger' s' id => Wellformed (site.hide id) ledger' s' ∧
      id < s'.scope.nextBinding ∧ ledger'.settled id = none ∧ s'.adts = s.adts := by
  have hnone : ledger.settled s.scope.nextBinding = none := by
    by_contra hne
    obtain ⟨ty, hty⟩ := Option.ne_none_iff_exists'.mp hne
    exact Nat.lt_irrefl _ (hs.settled_lt _ ty hty)
  have hlater : Later s
      { s with scope := { s.scope with nextBinding := s.scope.nextBinding + 1 } } :=
    ⟨.of_eq rfl rfl, le_refl _, .refl _, Nat.le_succ _, rfl, rfl⟩
  exact .change ⟨.refl _ _ _, hs, hs.hide.unhide, hlater⟩
    ⟨hs.hide, Nat.lt_succ_self _, hnone, rfl⟩

theorem leads_cases {target : Expr} {cases : List Case}
    (htarget : LeadsExpr site (checkExpr room · target))
    (hcases : ∀ m, LeadsCases site m (checkCases room · m · · cases)) :
    LeadsExpr site (checkExpr (room + 1) · (.cases target cases span)) := by
  intro ledger s hint hs hhint
  dsimp only
  rw [checkExpr]
  refine .bind (htarget hs .none) ?_
  intro ledger1 s1 value hadv1 hvalue
  refine .resolve (.bind (hadv1.after.enumOf _ _) ?_)
  rintro ledger2 s2 ⟨adt, tags⟩ hadv2 ⟨hadt, htags⟩
  refine .bind hadv2.after.freshScrutinee ?_
  rintro ledger3 s3 scrutinee hadv3 ⟨hs3, hlt, hnone, hadts⟩
  have hadv13 := hadv2.trans hadv3
  have hty := hadv13.known (hadv1.after.known_resolve hvalue.known)
  refine .bind (.unhide (hcases ⟨adt, tags, s1.unifier.resolve value.ty, scrutinee⟩ hs3
    ⟨hadts ▸ hadt, htags, hty, hlt, hnone⟩ (hhint.carry (hadv1.trans hadv13).carries)
    ⟨.none, by nofun⟩)) ?_
  rintro ledger4 s4 ⟨checked, result⟩ hadv4 ⟨hresult, hblocks⟩
  dsimp only
  split
  · exact .fail
  · rename_i blocks hordered
    have hadv := hadv13.trans hadv4
    have hknown : Known ledger4 s4 (result.getD .void) := by
      cases result with
      | none => exact hadv4.after.known_void
      | some t => exact hresult t rfl
    refine .resolve (.pure hadv4.after (.cases (Gives.lasting hadv.carries hvalue)
      (hadv4.after.known_resolve hknown) fun k b hb => ?_))
    obtain ⟨tag, htag, hfind⟩ := Assoc.getElem?_of_inOrder hordered hb
    obtain ⟨hcase, t, rfl, hsame⟩ := hblocks tag b hfind
    have hcase := hcase k htag
    refine ⟨⟨hcase.known, fun view hview => ?_⟩, ?_⟩
    · have hread : view.map (s1.unifier.resolve value.ty) = view.map value.ty :=
        Wellformed.same_resolve ledger1 s1 value.ty view (hadv.carries.sees hview)
      rw [← hread]
      exact hcase.every view hview
    · exact hsame.trans (Wellformed.same_resolve ledger4 s4 t).symm

end Checker

end TraitCheck
