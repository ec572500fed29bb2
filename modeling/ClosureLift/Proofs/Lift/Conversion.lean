import ClosureLift.Lift.Conversion
import ClosureLift.Proofs.Lift.Closure

/-!
What a conversion does, said once. `Converts` describes the successful conversion of a list of parts
by a rule for the parts that are copied and a rule for the closures that are lifted; every property
of converted programs is proved by induction on it. The functions that convert are compared with it
in one place, together with the only way in which they fail.
-/
namespace ClosureLift

def Node.enter : Node → Site → Site
  | .cls c, _ => ⟨Identifier.top.type c.name, c.name⟩
  | .constructor _, site => { site with scope := site.scope.constructor }
  | .method m, site => { site with scope := site.scope.method m.name }
  | .expr (.anonymousClass closure), site => { site with scope := site.scope.type closure.name }
  | _, site => site

namespace Expr

def form : Expr → ClosureForm
  | .methodReference _ => .methodReference
  | .anonymousClass _ => .anonymousClass
  | _ => .lambda

def span (e : Expr) : Span := e.closureSpan?.getD .dummy

def carry (e : Expr) (name : TypeName) (inner : List Extract) : List Extract :=
  match e with
  | .anonymousClass closure => inner.map (·.rename (closure.name.replace name))
  | _ => inner

/-- The place of a closure literal that does not name the method it implements. -/
def unnamed? : Expr → Option Span
  | .lambda closure => if closure.method = "" then some closure.span else none
  | .methodReference closure => if closure.method = "" then some closure.span else none
  | _ => none

end Expr

def Lifted.extract (lifted : Lifted) (e : Expr) (site : Site) : Extract :=
  ⟨lifted.cls, .ofLifted lifted e.form site.enclosing e.span⟩

/-- The parts on the left become the parts on the right, the extracts are lifted out of them, and
the table goes from one state to the other. -/
inductive Converts (options : LiftOptions) :
    Site → List Node → ScopeTable → List Node → List Extract → ScopeTable → Prop where
  | nil (site : Site) (t : ScopeTable) : Converts options site [] t [] [] t
  | cons {site : Site} {n n' : Node} {ns ns' : List Node} {first later : List Extract}
      {t t₁ t₂ : ScopeTable} (head : Converts options site [n] t [n'] first t₁)
      (tail : Converts options site ns t₁ ns' later t₂) :
      Converts options site (n :: ns) t (n' :: ns') (first ++ later) t₂
  | part {site : Site} {n n' : Node} {inner : List Extract} {t t' : ScopeTable}
      (plain : n.isClosure = false) (alike : n'.bare = n.bare)
      (under : Converts options (n.enter site) n.children t n'.children inner t') :
      Converts options site [n] t [n'] inner t'
  | closure {site : Site} {e e' : Expr} {inner : List Extract} {shape : Shape}
      {values : List (Variable × Expr)} {params : List Variable} {t t₁ t₂ t₃ : ScopeTable}
      (alike : (Node.expr e').bare = (Node.expr e).bare)
      (under : Converts options ((Node.expr e).enter site) (Node.ofExpr e) t (Node.ofExpr e')
        inner t₁)
      (sketch : Sketched site e' t₁ shape values t₂)
      (mint : (Shape.mintParams (site.scope.type shape.name).constructor
        (shape.slots values options)).run t₂ = (params, t₃)) :
      Converts options site [.expr e] t
        [.expr (shape.outcome (shape.slots values options) params).construction]
        (e.carry shape.name inner ++
          [(shape.outcome (shape.slots values options) params).extract e site]) t₃

section

variable {options : LiftOptions} {site : Site} {ns ns' : List Node} {xs : List Extract}
  {t t' : ScopeTable}

theorem converted_closure_free (converts : Converts options site ns t ns' xs t') :
    Node.ClosureFree ns' := by
  induction converts with
  | nil site t => exact Node.closure_free_nil
  | @cons _ n n' _ _ _ _ _ _ _ head tail ihHead ihTail =>
    have parts := Node.closure_free_cons.mp ihHead
    exact Node.closure_free_cons.mpr ⟨parts.1, parts.2.1, ihTail⟩
  | part plain alike under ih =>
    refine Node.closure_free_cons.mpr ⟨?_, ih, Node.closure_free_nil⟩
    rw [Node.alike_isClosure alike]
    exact plain
  | closure alike under sketch mint ih => exact construction_closure_free sketch ih _ _

theorem fields_convert (options : LiftOptions) (site : Site) (fields : List Field)
    (t : ScopeTable) :
    Converts options site (fields.map .field) t (fields.map .field) [] t := by
  induction fields with
  | nil => exact .nil site t
  | cons f rest ih => exact .cons (.part (n := .field f) rfl rfl (.nil _ _)) ih

theorem converts_append {ms ms' : List Node} {ys : List Extract} {t'' : ScopeTable}
    (first : Converts options site ns t ns' xs t')
    (later : Converts options site ms t' ms' ys t'') :
    Converts options site (ns ++ ms) t (ns' ++ ms') (xs ++ ys) t'' := by
  induction ns generalizing ns' xs t with
  | nil =>
    cases first
    exact later
  | cons n rest ih =>
    cases first with
    | cons head tail =>
      rw [List.append_assoc]
      exact .cons head (ih tail)
    | part plain alike under => exact .cons (.part plain alike under) later
    | closure alike under sketch mint =>
      exact .cons (.closure alike under sketch mint) later

end

/-- The step succeeds as described if none of the items is to blame, and otherwise fails for want of
a method name at the place of the first that is. -/
def Yields (blame : ι → Option Span) (items : List ι) (step : LiftM α) (t : ScopeTable)
    (good : α → ScopeTable → Prop) : Prop :=
  match items.findSome? blame with
  | none => ∃ a t', step.run.run t = (.ok a, t') ∧ good a t'
  | some span => ∃ t', step.run.run t = (.error ⟨.missingFunctionalMethod, span⟩, t')

namespace Yields

variable {ι α β : Type} {blame : ι → Option Span} {t : ScopeTable} {good : α → ScopeTable → Prop}
  {better : β → ScopeTable → Prop} {first later : List ι} {step : LiftM α} {next : α → LiftM β}

theorem done {a : α} (holds : good a t) : Yields blame [] (pure a) t good :=
  ⟨a, t, rfl, holds⟩

theorem bind (here : Yields blame first step t good)
    (there : ∀ a t', good a t' → Yields blame later (next a) t' better) :
    Yields blame (first ++ later) (step >>= next) t better := by
  unfold Yields at *
  rw [List.findSome?_append]
  cases named : first.findSome? blame with
  | none =>
    rw [named] at here
    obtain ⟨a, t', run, holds⟩ := here
    have rest := there a t' holds
    have runs : (step >>= next).run.run t = (next a).run.run t' := by
      simp only [ExceptT.run_bind, StateT.run_bind, run]
      rfl
    rw [Option.none_or, runs]
    exact rest
  | some span =>
    rw [named] at here
    obtain ⟨t', run⟩ := here
    refine ⟨t', ?_⟩
    simp only [ExceptT.run_bind, StateT.run_bind, run]
    rfl

theorem last (here : Yields blame first step t good)
    (there : ∀ a t', good a t' → Yields blame [] (next a) t' better) :
    Yields blame first (step >>= next) t better := by
  have all := here.bind there
  rwa [List.append_nil] at all

end Yields

/-- What lifting a closure literal does, at a site and for any table: it fails for want of a method
name, or makes the class of its sketch. -/
def LiftsLiteral (options : LiftOptions) (site : Site) (e : Expr) (step : LiftM Lifted) : Prop :=
  ∀ t, match e.unnamed? with
    | some span => step.run.run t = (.error ⟨.missingFunctionalMethod, span⟩, t)
    | none => ∃ shape values params t₁ t', Sketched site e t shape values t₁ ∧
        (Shape.mintParams (site.scope.type shape.name).constructor
          (shape.slots values options)).run t₁ = (params, t') ∧
        step.run.run t = (.ok (shape.outcome (shape.slots values options) params), t')

section

variable (options : LiftOptions) (site : Site)

theorem lambda_lifts (closure : Lambda)
    (free : Node.ClosureFree (Node.ofExpr (.lambda closure))) :
    LiftsLiteral options site (.lambda closure)
      (closure.toBody.lift site.scope site.enclosing options) := by
  intro t
  by_cases named : closure.method = ""
  · simp only [Expr.unnamed?, named, ↓reduceIte]
    simp only [ClosureBody.lift, Lambda.toBody, named, ↓reduceIte]
    rfl
  · simp only [Expr.unnamed?, named, ↓reduceIte]
    have sketch : Sketched site (.lambda closure) t _ _ _ := .lambda named rfl
    refine ⟨_, _, _, _, _, sketch, rfl, ?_⟩
    rw [← Shape.lift_run _ site.scope [] options (sketch.closure_free free) _ rfl]
    simp only [ClosureBody.lift, Lambda.toBody, named, ↓reduceIte]
    rfl

theorem method_reference_lifts (closure : MethodReference)
    (free : Node.ClosureFree (Node.ofExpr (.methodReference closure))) :
    LiftsLiteral options site (.methodReference closure)
      (closure.lift site.scope site.enclosing options) := by
  intro t
  by_cases named : closure.method = ""
  · simp only [Expr.unnamed?, named, ↓reduceIte]
    simp only [MethodReference.lift, named, ↓reduceIte]
    rfl
  · simp only [Expr.unnamed?, named, ↓reduceIte]
    have sketch : Sketched site (.methodReference closure) t _ _ _ :=
      .methodReference named rfl rfl rfl
    refine ⟨_, _, _, _, _, sketch, rfl, ?_⟩
    rw [← Shape.lift_run _ site.scope _ options (sketch.closure_free free) _ rfl]
    simp only [MethodReference.lift, named, ↓reduceIte]
    rfl

theorem anonymous_class_lifts (closure : AnonymousClass)
    (free : Node.ClosureFree (Node.ofExpr (.anonymousClass closure))) :
    LiftsLiteral options site (.anonymousClass closure)
      (closure.lift site.scope site.enclosing options) := by
  intro t
  have sketch : Sketched site (.anonymousClass closure) t _ _ _ := .anonymousClass rfl
  refine ⟨_, _, _, _, _, sketch, rfl, ?_⟩
  rw [← Shape.lift_run _ site.scope [] options (sketch.closure_free free) _ rfl]
  rfl

theorem extracted_yields {e e' : Expr} {inner : List Extract} {t t₁ : ScopeTable}
    {step : LiftM Lifted} (lifts : LiftsLiteral options site e' step)
    (under : Converts options ((Node.expr e).enter site) (Node.ofExpr e) t
      (Node.ofExpr e') inner t₁)
    (alike : (Node.expr e').bare = (Node.expr e).bare) (unnamed : e'.unnamed? = e.unnamed?)
    (span : ∀ s, e.unnamed? = some s → s = e.span) :
    Yields Expr.unnamed? [e]
      (extracted (fun name => e.carry name inner) e.form site.enclosing e.span step) t₁
      fun r t' => Converts options site [.expr e] t [.expr r.1] r.2 t' := by
  have lift := lifts t₁
  rw [unnamed] at lift
  unfold Yields
  simp only [List.findSome?_cons, List.findSome?_nil]
  cases place : e.unnamed? with
  | none =>
    rw [place] at lift
    obtain ⟨shape, values, params, t₂, t₃, sketch, mint, run⟩ := lift
    refine ⟨(_, _), t₃, ?_, .closure alike under sketch mint⟩
    simp only [extracted, locating, ExceptT.run_bind, StateT.run_bind, ExceptT.run_tryCatch, run]
    rfl
  | some s =>
    rw [place] at lift
    refine ⟨t₁, ?_⟩
    have located : (LiftError.mk .missingFunctionalMethod s).locate e.span =
        ⟨.missingFunctionalMethod, s⟩ := by
      rw [← span s place]
      simp [LiftError.locate, Span.orElse]
    simp only [extracted, locating, ExceptT.run_bind, StateT.run_bind, ExceptT.run_tryCatch, lift]
    exact congrArg (fun error => (Except.error error, t₁)) located

end

section

variable (options : LiftOptions) (enclosing : TypeName)

mutual

theorem expression_converts : (e : Expr) → (scope : Identifier) → (t : ScopeTable) →
    Yields Expr.unnamed? e.closures (Expr.convert options enclosing scope e) t fun r t' =>
      Converts options ⟨scope, enclosing⟩ [.expr e] t [.expr r.1] r.2 t'
  | .literal value, scope, t => by
    rw [Expr.closures, Expr.convert]
    exact .done (.part rfl rfl (.nil _ _))
  | .reference ref, scope, t => by
    rw [Expr.closures, Expr.convert]
    exact .done (.part rfl rfl (.nil _ _))
  | .assign target value, scope, t => by
    rw [Expr.closures, Expr.convert]
    refine (expression_converts target scope t).bind ?_
    rintro ⟨target', first⟩ t₁ head
    refine (expression_converts value scope t₁).last ?_
    rintro ⟨value', second⟩ t₂ tail
    exact .done (.part rfl rfl (.cons head tail))
  | .fieldAccess receiver field ty, scope, t => by
    rw [Expr.closures, Expr.convert]
    refine (expression_converts receiver scope t).last ?_
    rintro ⟨receiver', inner⟩ t₁ under
    exact .done (.part rfl rfl under)
  | .methodCall receiver method args typeArgs ty, scope, t => by
    rw [Expr.closures, Expr.convert]
    refine (expression_converts receiver scope t).bind ?_
    rintro ⟨receiver', first⟩ t₁ head
    refine (expression_list_converts args scope t₁).last ?_
    rintro ⟨args', second⟩ t₂ ⟨tail, count⟩
    exact .done (.part rfl (by simp [Node.bare, Node.bareExpr, count]) (.cons head tail))
  | .staticCall cls method args typeArgs ty, scope, t => by
    rw [Expr.closures, Expr.convert]
    refine (expression_list_converts args scope t).last ?_
    rintro ⟨args', inner⟩ t₁ ⟨under, count⟩
    exact .done (.part rfl (by simp [Node.bare, Node.bareExpr, count]) under)
  | .construct ty args, scope, t => by
    rw [Expr.closures, Expr.convert]
    refine (expression_list_converts args scope t).last ?_
    rintro ⟨args', inner⟩ t₁ ⟨under, count⟩
    exact .done (.part rfl (by simp [Node.bare, Node.bareExpr, count]) under)
  | .operation op args ty, scope, t => by
    rw [Expr.closures, Expr.convert]
    refine (expression_list_converts args scope t).last ?_
    rintro ⟨args', inner⟩ t₁ ⟨under, count⟩
    exact .done (.part rfl (by simp [Node.bare, Node.bareExpr, count]) under)
  | .conditional condition ifTrue ifFalse ty, scope, t => by
    rw [Expr.closures, Expr.convert]
    refine (expression_converts condition scope t).bind ?_
    rintro ⟨condition', first⟩ t₁ head
    refine (expression_converts ifTrue scope t₁).bind ?_
    rintro ⟨ifTrue', second⟩ t₂ middle
    refine (expression_converts ifFalse scope t₂).last ?_
    rintro ⟨ifFalse', third⟩ t₃ tail
    dsimp only
    rw [List.append_assoc]
    exact .done (.part rfl rfl (.cons head (.cons middle tail)))
  | .lambda closure, scope, t => by
    rw [Expr.closures, Expr.convert]
    exact lambda_converts closure scope t
  | .methodReference closure, scope, t => by
    rw [Expr.closures, Expr.convert]
    exact method_reference_converts closure scope t
  | .anonymousClass closure, scope, t => by
    rw [Expr.closures, Expr.convert]
    exact anonymous_class_converts closure scope t

theorem expression_list_converts : (es : List Expr) → (scope : Identifier) → (t : ScopeTable) →
    Yields Expr.unnamed? (Expr.closuresAll es) (Expr.convertAll options enclosing scope es) t
      fun r t' => Converts options ⟨scope, enclosing⟩ (es.map .expr) t (r.1.map .expr) r.2 t' ∧
        r.1.length = es.length
  | [], scope, t => by
    rw [Expr.closuresAll, Expr.convertAll]
    exact .done ⟨.nil _ _, rfl⟩
  | e :: rest, scope, t => by
    rw [Expr.closuresAll, Expr.convertAll]
    refine (expression_converts e scope t).bind ?_
    rintro ⟨e', first⟩ t₁ head
    refine (expression_list_converts rest scope t₁).last ?_
    rintro ⟨rest', second⟩ t₂ ⟨tail, count⟩
    exact .done ⟨.cons head tail, congrArg (· + 1) count⟩

theorem lambda_converts : (closure : Lambda) → (scope : Identifier) → (t : ScopeTable) →
    Yields Expr.unnamed? (closure.inner ++ [.lambda closure])
      (Lambda.convert options enclosing scope closure) t
      fun r t' => Converts options ⟨scope, enclosing⟩ [.expr (.lambda closure)] t [.expr r.1] r.2 t'
  | ⟨interface, method, params, returnType, body, span⟩, scope, t => by
    rw [Lambda.inner, Lambda.convert]
    refine (statement_list_converts body scope t).bind ?_
    rintro ⟨body', inner⟩ t₁ ⟨under, _⟩
    have lifts := lambda_lifts options ⟨scope, enclosing⟩
      ⟨interface, method, params, returnType, body', span⟩ (converted_closure_free under)
    exact extracted_yields options ⟨scope, enclosing⟩
      (e := .lambda ⟨interface, method, params, returnType, body, span⟩) lifts under rfl rfl
      (by simp [Expr.unnamed?, Expr.span, Expr.closureSpan?])

theorem target_converts : (target : Target) → (scope : Identifier) → (t : ScopeTable) →
    Yields Expr.unnamed? target.closures (Target.convert options enclosing scope target) t
      fun r t' => Node.bareTarget r.1 = Node.bareTarget target ∧
        ∀ closure : MethodReference, closure.target = target →
          Converts options ⟨scope, enclosing⟩ (Node.ofExpr (.methodReference closure)) t
            (Node.ofExpr (.methodReference { closure with target := r.1 })) r.2 t'
  | .static cls, scope, t => by
    rw [Target.closures, Target.convert]
    refine .done ⟨rfl, ?_⟩
    intro closure same
    simp only [Node.ofExpr, same]
    exact .nil _ _
  | .instance receiver, scope, t => by
    rw [Target.closures, Target.convert]
    refine (expression_converts receiver scope t).last ?_
    rintro ⟨receiver', inner⟩ t₁ under
    refine .done ⟨rfl, ?_⟩
    intro closure same
    simp only [Node.ofExpr, same]
    exact under

theorem method_reference_converts : (closure : MethodReference) → (scope : Identifier) →
    (t : ScopeTable) → Yields Expr.unnamed? (closure.inner ++ [.methodReference closure])
      (MethodReference.convert options enclosing scope closure) t fun r t' =>
        Converts options ⟨scope, enclosing⟩ [.expr (.methodReference closure)] t [.expr r.1] r.2 t'
  | ⟨interface, method, paramTypes, returnType, target, targetMethod, span⟩, scope, t => by
    rw [MethodReference.inner, MethodReference.convert]
    refine (target_converts target scope t).bind ?_
    rintro ⟨target', inner⟩ t₁ ⟨alike, conversion⟩
    have under := conversion
      ⟨interface, method, paramTypes, returnType, target, targetMethod, span⟩ rfl
    have lifts := method_reference_lifts options ⟨scope, enclosing⟩ _ (converted_closure_free under)
    exact extracted_yields options ⟨scope, enclosing⟩
      (e := .methodReference
        ⟨interface, method, paramTypes, returnType, target, targetMethod, span⟩) lifts under
      (by simp only [Node.bare, Node.bareExpr, alike]) rfl
      (by simp [Expr.unnamed?, Expr.span, Expr.closureSpan?])

theorem anonymous_class_converts : (closure : AnonymousClass) → (scope : Identifier) →
    (t : ScopeTable) → Yields Expr.unnamed? (closure.inner ++ [.anonymousClass closure])
      (AnonymousClass.convert options enclosing scope closure) t fun r t' =>
        Converts options ⟨scope, enclosing⟩ [.expr (.anonymousClass closure)] t [.expr r.1] r.2 t'
  | ⟨name, superTypes, fields, methods, span⟩, scope, t => by
    rw [AnonymousClass.inner, AnonymousClass.convert]
    refine (method_list_converts methods (scope.type name) t).bind ?_
    rintro ⟨methods', inner⟩ t₁ below
    have under := converts_append (fields_convert options ⟨scope.type name, enclosing⟩ fields t)
      below
    have lifts := anonymous_class_lifts options ⟨scope, enclosing⟩
      ⟨name, superTypes, fields, methods', span⟩ (converted_closure_free under)
    exact extracted_yields options ⟨scope, enclosing⟩
      (e := .anonymousClass ⟨name, superTypes, fields, methods, span⟩) lifts under rfl rfl
      (by simp [Expr.unnamed?])

theorem method_converts : (m : Method) → (scope : Identifier) → (t : ScopeTable) →
    Yields Expr.unnamed? m.closures (Method.convert options enclosing scope m) t fun r t' =>
      Converts options ⟨scope, enclosing⟩ [.method m] t [.method r.1] r.2 t'
  | ⟨name, isStatic, typeParams, params, returnType, body⟩, scope, t => by
    rw [Method.closures, Method.convert]
    refine (statement_list_converts body (scope.method name) t).last ?_
    rintro ⟨body', inner⟩ t₁ ⟨under, _⟩
    exact .done (.part rfl rfl under)

theorem method_list_converts : (ms : List Method) → (scope : Identifier) → (t : ScopeTable) →
    Yields Expr.unnamed? (Method.closuresAll ms) (Method.convertAll options enclosing scope ms) t
      fun r t' => Converts options ⟨scope, enclosing⟩ (ms.map .method) t (r.1.map .method) r.2 t'
  | [], scope, t => by
    rw [Method.closuresAll, Method.convertAll]
    exact .done (.nil _ _)
  | m :: rest, scope, t => by
    rw [Method.closuresAll, Method.convertAll]
    refine (method_converts m scope t).bind ?_
    rintro ⟨m', first⟩ t₁ head
    refine (method_list_converts rest scope t₁).last ?_
    rintro ⟨rest', second⟩ t₂ tail
    exact .done (.cons head tail)

theorem statement_converts : (s : Stmt) → (scope : Identifier) → (t : ScopeTable) →
    Yields Expr.unnamed? s.closures (Stmt.convert options enclosing scope s) t fun r t' =>
      Converts options ⟨scope, enclosing⟩ [.stmt s] t [.stmt r.1] r.2 t'
  | .expr value, scope, t => by
    rw [Stmt.closures, Stmt.convert]
    refine (expression_converts value scope t).last ?_
    rintro ⟨value', inner⟩ t₁ under
    exact .done (.part rfl rfl under)
  | .ret none, scope, t => by
    rw [Stmt.closures, Stmt.convert]
    exact .done (.part rfl rfl (.nil _ _))
  | .ret (some value), scope, t => by
    rw [Stmt.closures, Stmt.convert]
    refine (expression_converts value scope t).last ?_
    rintro ⟨value', inner⟩ t₁ under
    exact .done (.part rfl rfl under)
  | .decl x init, scope, t => by
    rw [Stmt.closures, Stmt.convert]
    refine (expression_converts init scope t).last ?_
    rintro ⟨init', inner⟩ t₁ under
    exact .done (.part rfl rfl under)
  | .cond condition thenBranch elseBranch, scope, t => by
    rw [Stmt.closures, Stmt.convert]
    refine (expression_converts condition scope t).bind ?_
    rintro ⟨condition', first⟩ t₁ head
    refine (statement_list_converts thenBranch scope t₁).bind ?_
    rintro ⟨thenBranch', second⟩ t₂ ⟨middle, thenCount⟩
    refine (statement_list_converts elseBranch scope t₂).last ?_
    rintro ⟨elseBranch', third⟩ t₃ ⟨tail, elseCount⟩
    dsimp only
    rw [List.append_assoc]
    exact .done (.part rfl (by simp [Node.bare, Node.bareStmt, thenCount, elseCount])
      (.cons head (converts_append middle tail)))
  | .loop condition body, scope, t => by
    rw [Stmt.closures, Stmt.convert]
    refine (expression_converts condition scope t).bind ?_
    rintro ⟨condition', first⟩ t₁ head
    refine (statement_list_converts body scope t₁).last ?_
    rintro ⟨body', second⟩ t₂ ⟨tail, _⟩
    exact .done (.part rfl rfl (.cons head tail))

theorem statement_list_converts : (ss : List Stmt) → (scope : Identifier) → (t : ScopeTable) →
    Yields Expr.unnamed? (Stmt.closuresAll ss) (Stmt.convertAll options enclosing scope ss) t
      fun r t' => Converts options ⟨scope, enclosing⟩ (ss.map .stmt) t (r.1.map .stmt) r.2 t' ∧
        r.1.length = ss.length
  | [], scope, t => by
    rw [Stmt.closuresAll, Stmt.convertAll]
    exact .done ⟨.nil _ _, rfl⟩
  | s :: rest, scope, t => by
    rw [Stmt.closuresAll, Stmt.convertAll]
    refine (statement_converts s scope t).bind ?_
    rintro ⟨s', first⟩ t₁ head
    refine (statement_list_converts rest scope t₁).last ?_
    rintro ⟨rest', second⟩ t₂ ⟨tail, count⟩
    exact .done ⟨.cons head tail, congrArg (· + 1) count⟩

end

theorem class_converts (c : Class) (site : Site) (t : ScopeTable) :
    Yields Expr.unnamed? c.closures (c.convert options) t fun r t' =>
      Converts options site [.cls c] t [.cls r.1] r.2 t' := by
  unfold Class.convert
  refine (statement_list_converts options c.name c.constructor.body
    (Identifier.top.type c.name).constructor t).bind ?_
  rintro ⟨body, first⟩ t₁ ⟨head, _⟩
  refine (method_list_converts options c.name c.methods (Identifier.top.type c.name) t₁).last ?_
  rintro ⟨methods, second⟩ t₂ tail
  have fields := fields_convert options ⟨Identifier.top.type c.name, c.name⟩ c.fields t
  have constructor : Converts options ⟨Identifier.top.type c.name, c.name⟩
      [.constructor c.constructor] t [.constructor { c.constructor with body }] first t₁ :=
    .part rfl rfl head
  have under := converts_append fields (.cons constructor tail)
  exact .done (.part (n := .cls c) rfl rfl under)

end

/-- The place that a failure is blamed on: that of the literal if it is known, else that of the
class. -/
def unnamedIn? (literal : Class × Expr) : Option Span :=
  literal.2.unnamed?.map (·.orElse literal.1.span)

theorem locating_yields (c : Class) {closures : List Expr} {step : LiftM α} {t : ScopeTable}
    {good : α → ScopeTable → Prop} (here : Yields Expr.unnamed? closures step t good) :
    Yields unnamedIn? (closures.map (c, ·)) (locating c.span step) t good := by
  have blame : (closures.map (c, ·)).findSome? unnamedIn? =
      (closures.findSome? Expr.unnamed?).map (·.orElse c.span) := by
    rw [List.findSome?_map, List.map_findSome?]
    rfl
  unfold Yields at *
  rw [blame]
  cases named : closures.findSome? Expr.unnamed? with
  | none =>
    rw [named] at here
    obtain ⟨a, t', run, holds⟩ := here
    refine ⟨a, t', ?_, holds⟩
    simp only [locating, ExceptT.run_tryCatch, StateT.run_bind, run]
    rfl
  | some span =>
    rw [named] at here
    obtain ⟨t', run⟩ := here
    refine ⟨t', ?_⟩
    simp only [locating, ExceptT.run_tryCatch, StateT.run_bind, run]
    rfl

theorem class_list_converts (options : LiftOptions) (site : Site) (cs : List Class)
    (t : ScopeTable) :
    Yields unnamedIn? (cs.flatMap fun c => c.closures.map (c, ·)) (Class.convertAll options cs) t
      fun r t' => Converts options site (cs.map .cls) t (r.1.map .cls) r.2 t' := by
  induction cs generalizing t with
  | nil => exact .done (.nil _ _)
  | cons c rest ih =>
    unfold Class.convertAll
    refine (locating_yields c (class_converts options c site t)).bind ?_
    rintro ⟨c', first⟩ t₁ head
    refine (ih t₁).last ?_
    rintro ⟨rest', second⟩ t₂ tail
    exact .done (.cons head tail)

end ClosureLift
