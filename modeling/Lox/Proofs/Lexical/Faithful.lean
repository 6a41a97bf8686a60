import Lox.Proofs.Lexical.Instances

/-!
  Programs, followed.

  With the same fuel the machine and the reference run in step: this is shown for every expression,
  statement and call at once, by induction on the fuel (`faithful`).  An expression leaves all frames
  as they are, a statement may give names to the current one.  Within a frame of its own a block or a
  function may do as it likes, since nothing outside has links to the frame yet.

  The statement for each kind of thing that is run (`Faithful`) has three parts: where the evaluator stands
  (`Stands`: in step, at a site to which the walk came, with frames linked to scopes), that the moment is among
  those that are lived, and that then one run follows the other, with results that are alike.  What a run may do
  to the world in the meantime is the first argument of `Follows`: `Fixed` for expressions, and for statements
  that the current frame may get names.

  There is one step lemma for each kind of statement, and one for all expressions.  Each goes along the
  evaluator and the reference side by side with the rules of `Follows`; for each part it needs the site of the
  part (`Stands.go`, by the part of the syntax) and that it is lived (by the call of the evaluator).  That the
  scopes of the walk are the same behind a part as before it, since expressions declare nothing, is what lets the
  next part stand where the first did.
-/

namespace Lox.Lexical

open Scope

section Standing

/-- The evaluator stands at a site: the current frames are linked with scopes there. -/
structure Stands (L : Lore) (E : Nat → String → Prop) (W : World) (m : Machine) (t : State)
    (ctx : Context) (w : Walk) (phrase : Phrase) (ls : List Layer) (fs : List Nat) (ts : Scopes) :
    Prop where
  inStep : InStep L E W m t
  visited : L.visited ⟨⟨ctx, w, phrase⟩, ls⟩
  linked : Linked W fs ls w.scopes ts
  chain : m.env.Has fs

variable {L : Lore} {E E' : Nat → String → Prop} {W W' : World} {m m' : Machine} {t t' : State}
  {ctx ctx' : Context} {w w' : Walk} {phrase phrase' : Phrase} {ls : List Layer} {fs : List Nat}
  {ts : Scopes} {loose : Nat → Prop}

/-- A part of the phrase within the same scopes. -/
theorem Stands.go (h : Stands L E W m t ctx w phrase ls fs ts) (hL : L.Closed)
    (hp : Part ⟨⟨ctx, w, phrase⟩, ls⟩ ⟨⟨ctx', w', phrase'⟩, ls⟩) (hs : w'.scopes = w.scopes)
    (hw : Later loose W W') (hi : InStep L E' W' m' t') (henv : m'.env = m.env) :
    Stands L E' W' m' t' ctx' w' phrase' ls fs ts :=
  ⟨hi, hL.part h.visited hp, hs ▸ h.linked.later hw, henv ▸ h.chain⟩

/-- A part of the phrase to which the walk comes at once. -/
theorem Stands.enter (h : Stands L E W m t ctx w phrase ls fs ts) (hL : L.Closed)
    (hp : Part ⟨⟨ctx, w, phrase⟩, ls⟩ ⟨⟨ctx', w, phrase'⟩, ls⟩) :
    Stands L E W m t ctx' w phrase' ls fs ts :=
  h.go hL hp rfl (Later.refl W : Later Fixed W W) h.inStep rfl

/-- The scopes behind a phrase that declares nothing. -/
theorem Lore.Closed.scopes (hL : L.Closed) {p : Site} (hv : L.visited p) (hq : p.phrase.IsQuiet) :
    p.after.scopes = p.walk.scopes :=
  (hL.settled hv).scopes hq

end Standing

/-! ## What is shown -/

/-- How a statement was completed, and the scopes behind it. -/
structure Behind (L : Lore) (fs : List Nat) (ls : List Layer) (ctx : Context) (w : Walk) (s : Stmt)
    (ts : Scopes) (W : World) (c : Completion) (r : Completion Scopes × Scopes) : Prop where
  completion : CompletionAlike L.visited W c r.1
  normal : c = .normal → Linked W fs ls (walkStmt ctx s w).scopes r.2 ∧ Exact W fs r.2
  quiet : s.IsQuiet → r.2 = ts

/-- With so much fuel the reference follows the machine. -/
structure Faithful (L : Lore) (n : Nat) : Prop where
  evaluate : ∀ {E W m t ctx w ls fs ts e}, Stands L E W m t ctx w (.expr e) ls fs ts →
    L.lived ⟨n, .evaluate e, m⟩ →
    Follows L E W Fixed Never (Alike L.visited) (Eval.evaluate n e) m (evaluate n ts e) t
  evaluateAll : ∀ {E W m t ctx w ls fs ts es}, Stands L E W m t ctx w (.exprs es) ls fs ts →
    L.lived ⟨n, .evaluateAll es, m⟩ →
    Follows L E W Fixed Never (fun W' => List.Forall₂ (Alike L.visited W')) (Eval.evaluateAll n es) m
      (evaluateAll n ts es) t
  call : ∀ {E W m t v r paren given given'}, InStep L E W m t → Alike L.visited W v r →
    List.Forall₂ (Alike L.visited W) given given' → L.lived ⟨n, .call v paren given, m⟩ →
    Follows L E W Fixed Never (Alike L.visited) (Eval.call n v paren given) m
      (call n r paren given') t
  callClosure : ∀ {E W m t c r given given'}, InStep L E W m t → Bound L.visited W c r →
    List.Forall₂ (Alike L.visited W) given given' → L.lived ⟨n, .callClosure c given, m⟩ →
    Follows L E W Fixed Never (Alike L.visited) (Eval.callClosure n c given) m
      (callClosure n r given') t
  execute : ∀ {E W m t ctx w ls fs ts s}, Stands L E W m t ctx w (.stmt s) ls fs ts →
    Exact W fs ts → L.lived ⟨n, .execute s, m⟩ →
    Follows L E W (fun f => Current fs f ∧ ¬ s.IsQuiet) (fs = []) (Behind L fs ls ctx w s ts)
      (Eval.execute n s) m (execute n ts s) t
  executeAll : ∀ {E W m t ctx w ls fs ts ss}, Stands L E W m t ctx w (.stmts ss) ls fs ts →
    Exact W fs ts → L.lived ⟨n, .executeAll ss, m⟩ →
    Follows L E W (Current fs) (fs = []) (CompletionAlike L.visited) (Eval.executeAll n ss) m
      (executeAll n ts ss) t

/-- Without fuel neither comes to anything. -/
theorem faithful_zero (L : Lore) : Faithful L 0 where
  evaluate _ _ := .exhausted
  evaluateAll _ _ := .exhausted
  call _ _ _ _ := .exhausted
  callClosure _ _ _ _ := .exhausted
  execute _ _ _ := .exhausted
  executeAll _ _ _ := .exhausted

/-! ## Expressions

  The machine goes along distances and the reference along scopes; the names that they meet are settled. -/

section Step

variable {L : Lore} {n : Nat} {E : Nat → String → Prop} {W : World} {m : Machine} {t : State}
  {ctx : Context} {w : Walk} {ls : List Layer} {fs : List Nat} {ts : Scopes}

/-- Literals are the same values. -/
theorem ofLiteral_alike (literal : Literal) :
    Alike L.visited W (.ofLiteral literal) (.ofLiteral literal) := by
  cases literal with
  | nil => exact .nil
  | bool b => exact .bool b
  | number x => exact .number x
  | string s => exact .string s

/-- Every form of expressions. -/
theorem evaluate_step (hL : L.Closed) (ih : Faithful L n) {e : Expr}
    (h : Stands L E W m t ctx w (.expr e) ls fs ts) (hlived : L.lived ⟨n + 1, .evaluate e, m⟩) :
    Follows L E W Fixed Never (Alike L.visited) (Eval.evaluate (n + 1) e) m (evaluate (n + 1) ts e)
      t := by
  have hcalls : ∀ {μ}, Calls ⟨n + 1, .evaluate e, m⟩ μ → L.lived μ := hL.calls hlived
  -- For each part: the site, by its place in the expression; that it is lived, by the call that comes to it;
  -- and the scopes, which are those of the whole.
  cases e with
  | literal l => exact .pure h.inStep (ofLiteral_alike l)
  | grouping inner => exact ih.evaluate (h.enter hL .grouping) (hcalls .grouping)
  | unary op right =>
    have hop := (hL.settled h.visited).unary
    refine .bind (ih.evaluate (h.enter hL .operand) (hcalls .operand)) ?_
    exact fun v m₁ r t₁ W₁ _ _ hi₁ _ ha => .lift hi₁ (ha.unary hop)
  | binary left op right =>
    have hop := (hL.settled h.visited).binary
    have hs := hL.scopes (hL.part h.visited .left) trivial
    refine .bind (ih.evaluate (h.enter hL .left) (hcalls .left)) ?_
    intro v m₁ r t₁ W₁ hx hw₁ hi₁ henv₁ ha
    refine .bind (ih.evaluate (h.go hL .right hs hw₁ hi₁ henv₁) (hcalls (.right hx))) ?_
    exact fun u m₂ q t₂ W₂ _ hw₂ hi₂ _ ha' => .lift hi₂ ((ha.mono (fun _ hp => hp) hw₂).binary hop ha')
  | logical left op right =>
    have hs := hL.scopes (hL.part h.visited .leftLogical) trivial
    refine .bind (ih.evaluate (h.enter hL .leftLogical) (hcalls .leftLogical)) ?_
    intro v m₁ r t₁ W₁ hx hw₁ hi₁ henv₁ ha
    rw [← ha.shortCircuits]
    cases hsc : Operator.shortCircuits op.kind v with
    | true => exact .pure hi₁ ha
    | false =>
      exact ih.evaluate (h.go hL .rightLogical hs hw₁ hi₁ henv₁) (hcalls (.rightLogical hx hsc))
  | ternary c a b =>
    have hs := hL.scopes (hL.part h.visited .condition) trivial
    have hs' := (hL.scopes (hL.part h.visited .thenValue) trivial).trans hs
    refine .bind (ih.evaluate (h.enter hL .condition) (hcalls .condition)) ?_
    intro v m₁ r t₁ W₁ hx hw₁ hi₁ henv₁ ha
    rw [← ha.truthy]
    cases htruthy : v.truthy with
    | true => exact ih.evaluate (h.go hL .thenValue hs hw₁ hi₁ henv₁) (hcalls (.thenValue hx htruthy))
    | false =>
      exact ih.evaluate (h.go hL .elseValue hs' hw₁ hi₁ henv₁) (hcalls (.elseValue hx htruthy))
  | «variable» ref =>
    exact lookUp_follows h.inStep h.linked h.chain (hL.settled h.visited).variable.1
  | assign ref value =>
    obtain ⟨hrecorded, hplain⟩ := (hL.settled h.visited).assign
    obtain ⟨is, hsits⟩ := hL.settled h.visited
    refine .bind (ih.evaluate (h.enter hL .assigned) (hcalls .assigned)) ?_
    intro v m₁ r t₁ W₁ hx hw₁ hi₁ henv₁ ha
    refine .bind (assign_follows hi₁ (h.linked.later hw₁) (henv₁ ▸ h.chain) hsits.before hplain
      hrecorded ha) ?_
    exact fun _ m₂ _ t₂ W₂ _ hw₂ hi₂ _ _ => .pure hi₂ (ha.mono (fun _ hp => hp) hw₂)
  | call callee paren arguments =>
    have hs := hL.scopes (hL.part h.visited .callee) trivial
    refine .bind (ih.evaluate (h.enter hL .callee) (hcalls .callee)) ?_
    intro v m₁ r t₁ W₁ hx hw₁ hi₁ henv₁ ha
    refine .bind (ih.evaluateAll (h.go hL .arguments hs hw₁ hi₁ henv₁) (hcalls (.arguments hx))) ?_
    intro given m₂ given' t₂ W₂ hx' hw₂ hi₂ _ hgiven
    exact ih.call hi₂ (ha.mono (fun _ hp => hp) hw₂) hgiven (hcalls (.call hx hx'))
  | get object name =>
    refine .bind (ih.evaluate (h.enter hL .object) (hcalls .object)) ?_
    intro v m₁ r t₁ W₁ hx _ hi₁ _ ha
    have hbinds : ∀ id c found, v = .object id c → m₁.store.field? id name.lexeme = none →
        c.method? name.lexeme = some found → name.lexeme ≠ "init" →
        L.lived ⟨n, .bind found (.object id c), m₁⟩ := by
      rintro id c found rfl hf hm hinit
      exact hcalls (.method hx hf hm hinit)
    exact getProperty_follows hL hi₁ ha hbinds
  | set object name value =>
    have hs := hL.scopes (hL.part h.visited .target) trivial
    refine .bind (ih.evaluate (h.enter hL .target) (hcalls .target)) ?_
    intro v m₁ r t₁ W₁ hx hw₁ hi₁ henv₁ ha
    cases ha with
    | object id hc =>
      refine .bind (ih.evaluate (h.go hL .field hs hw₁ hi₁ henv₁) (hcalls (.field hx))) ?_
      intro u m₂ q t₂ W₂ _ _ hi₂ _ ha'
      refine .bind (setField_follows hi₂ id name ha') ?_
      exact fun _ m₃ _ t₃ W₃ _ hw₃ hi₃ _ _ => .pure hi₃ (ha'.mono (fun _ hp => hp) hw₃)
    | _ => exact .fail hi₁ (by decide)
  | lambda d =>
    have hbound : Bound L.visited W ⟨d, m.env, false⟩ ⟨d, ts, false⟩ :=
      ⟨⟨rfl, rfl⟩, hL.part h.visited .lambda, h.chain, h.linked, nofun⟩
    exact .first rfl rfl (functionValue_follows h.inStep hbound)
  | this ref =>
    exact lookUp_follows h.inStep h.linked h.chain (hL.settled h.visited).this.1
  | super ref method =>
    have hbinds : ∀ d c id k found s s', m.resolution[ref.id]? = some d →
        Store.getAt m.env d ref.name.lexeme m.store = .done (.classOf c) s →
        Store.getAt m.env (d - 1) "this" m.store = .done (.object id k) s' →
        c.method? method.lexeme = some found → L.lived ⟨n, .bind found (.object id k), m⟩ :=
      fun _ _ _ _ _ _ _ hr hclass hthis hm => hcalls (.superMethod hr hclass hthis hm)
    exact superMethod_follows hL h.inStep h.visited h.linked h.chain hbinds

/-- Arguments, from left to right. -/
theorem evaluateAll_step (hL : L.Closed) (ih : Faithful L n) {es : List Expr}
    (h : Stands L E W m t ctx w (.exprs es) ls fs ts)
    (hlived : L.lived ⟨n + 1, .evaluateAll es, m⟩) :
    Follows L E W Fixed Never (fun W' => List.Forall₂ (Alike L.visited W'))
      (Eval.evaluateAll (n + 1) es) m (evaluateAll (n + 1) ts es) t := by
  have hcalls : ∀ {μ}, Calls ⟨n + 1, .evaluateAll es, m⟩ μ → L.lived μ := hL.calls hlived
  cases es with
  | nil => exact .pure h.inStep .nil
  | cons e es =>
    have hs := hL.scopes (hL.part h.visited .firstExpr) trivial
    refine .bind (ih.evaluate (h.enter hL .firstExpr) (hcalls .firstExpr)) ?_
    intro v m₁ r t₁ W₁ hx hw₁ hi₁ henv₁ ha
    refine .bind (ih.evaluateAll (h.go hL .otherExprs hs hw₁ hi₁ henv₁) (hcalls (.otherExprs hx))) ?_
    exact fun vs m₂ rs t₂ W₂ _ hw₂ hi₂ _ has => .pure hi₂ (.cons (ha.mono (fun _ hp => hp) hw₂) has)

/-! ## Calls -/

/-- A call of whatever has been evaluated: alike values are called in the same way. -/
theorem call_step (hL : L.Closed) (ih : Faithful L n) {v : Value} {r : Value Scopes} {paren : Token}
    {given : List Value} {given' : List (Value Scopes)} (hi : InStep L E W m t)
    (ha : Alike L.visited W v r) (hgiven : List.Forall₂ (Alike L.visited W) given given')
    (hlived : L.lived ⟨n + 1, .call v paren given, m⟩) :
    Follows L E W Fixed Never (Alike L.visited) (Eval.call (n + 1) v paren given) m
      (call (n + 1) r paren given') t := by
  have hcalls : ∀ {μ}, Calls ⟨n + 1, .call v paren given, m⟩ μ → L.lived μ := hL.calls hlived
  cases ha with
  | native native => exact callNative_follows hi paren native hgiven
  | function id hb => exact ih.callClosure hi hb hgiven (hcalls .closure)
  | @classOf c c' hc =>
    refine .bind (newObject_follows hi) ?_
    -- The new instance has the same number on both sides.
    rintro id m₁ _ t₁ W₁ hx hw₁ hi₁ _ rfl
    have hc₁ : ClassAlike L.visited W₁ c c' := ClassAlike.mono hc (fun _ hp => hp) hw₁
    have hinit := hc₁.method? "init"
    generalize hm : c.method? "init" = init at hinit ⊢
    generalize c'.method? "init" = init' at hinit ⊢
    cases hinit with
    | none => exact .pure hi₁ (.object id hc₁)
    | some hu =>
      refine .bind (bindThis_follows hL hi₁ hu hc₁ (hcalls (.created hx hm))) ?_
      intro ready m₂ ready' t₂ W₂ hx' hw₂ hi₂ _ hb
      have hgiven₂ := hgiven.imp fun _ _ hg => hg.mono (fun _ hp => hp) (hw₁.trans hw₂)
      refine .bind (ih.callClosure hi₂ hb hgiven₂ (hcalls (.initializes hx hm hx'))) ?_
      exact fun _ m₃ _ t₃ W₃ _ hw₃ hi₃ _ _ =>
        .pure hi₃ (.object id (ClassAlike.mono hc₁ (fun _ hp => hp) (hw₂.trans hw₃)))
  | _ => exact .fail hi (by decide)

/-- A call of a closure enters a frame of its own, and declares the parameters in it. -/
theorem entering_follows (hL : L.Closed) {c : Closure} {kind : BodyKind} {given : List Value}
    {given' : List (Value Scopes)} (hi : InStep L E W m t)
    (hv : L.visited ⟨⟨ctx, w, .function kind c.declaration⟩, ls⟩) (hl : Linked W fs ls w.scopes ts)
    (hgiven : List.Forall₂ (Alike L.visited W) given given')
    (hlived : L.lived ⟨n + 1, .callClosure c given, m⟩) :
    Later Fixed W (W.add m.store.frames.size (functionLayer ctx w kind c.declaration)) ∧
    Follows L E (W.add m.store.frames.size (functionLayer ctx w kind c.declaration))
      (· = m.store.frames.size) Never
      (fun W' _ ts' =>
        Linked W' (m.store.frames.size :: fs) (functionLayer ctx w kind c.declaration :: ls)
          (enterFunction c.declaration.params w).scopes ts' ∧
        Exact W' (m.store.frames.size :: fs) ts')
      (Machine.defineParams m.store.frames.size c.declaration.params given)
      { m with store := { m.store with frames := m.store.frames.push .empty } }
      (enterParams c.declaration.params given' (.empty :: ts)) t := by
  have hsettled := hL.settled hv
  have hadd : Later Fixed W (W.add m.store.frames.size (functionLayer ctx w kind c.declaration)) :=
    World.later_add hi.agree.unframed _
  have hframe := hi.agree.frame (.function hlived hv)
  have hlinked := Linked.cons (World.add_here W m.store.frames.size _) (a := .empty) (t := .empty)
    (fun _ => rfl) nofun (hl.later hadd)
  have hexact : Exact (W.add m.store.frames.size (functionLayer ctx w kind c.declaration))
      (m.store.frames.size :: fs) (.empty :: ts) := hi.agree.new_frame
  exact ⟨hadd, params_follow (w := w.enter) rfl c.declaration.params
    ⟨hframe, hi.host, hi.resolution⟩ hlinked hexact hsettled.params.2 hsettled.param_names
    (hgiven.imp fun _ _ ha => ha.mono (fun _ hp => hp) hadd)
    fun param hp => hi.agree.excused _ _ (.call hlived hp)⟩

/-- The body of a closure runs in the frame that the call has entered. -/
theorem callClosure_step (hL : L.Closed) (ih : Faithful L n) {c : Closure} {r : Closure Scopes}
    {given : List Value} {given' : List (Value Scopes)} (hi : InStep L E W m t)
    (hb : Bound L.visited W c r) (hgiven : List.Forall₂ (Alike L.visited W) given given')
    (hlived : L.lived ⟨n + 1, .callClosure c given, m⟩) :
    Follows L E W Fixed Never (Alike L.visited) (Eval.callClosure (n + 1) c given) m
      (callClosure (n + 1) r given') t := by
  have hbound := hb
  obtain ⟨twins, hvisited, hchain, hlinked, -⟩ := hb
  obtain ⟨hadd, hentering⟩ := entering_follows hL hi hvisited hlinked hgiven hlived
  unfold Eval.callClosure callClosure
  rw [twins.declaration]
  refine .first rfl rfl (.close hadd hi.agree.unframed (.bind hentering ?_))
  rintro _ m₂ ts₂ t₂ W₂ hparams hw₂ hi₂ - ⟨hlinked₂, hexact₂⟩
  -- Behind the parameters the body stands in the scope that they have been declared in.
  have hbody : Stands L E W₂ { m₂ with env := c.env.extend m.store.frames.size } t₂ _ _
      (.stmts c.declaration.body) _ _ ts₂ :=
    ⟨hi₂.within _, hL.part hvisited .body, hlinked₂, hchain.extend _⟩
  have hruns := ih.executeAll hbody hexact₂ (hL.calls hlived (.body rfl hparams))
  have hloose : ∀ {fs f}, Current (m.store.frames.size :: fs) f → f = m.store.frames.size :=
    fun hf => (Option.some.inj hf).symm
  refine .bind (.within (hruns.imp (fun _ => hloose) nofun fun _ _ _ _ h => h)) ?_
  intro k m₃ k' t₃ W₃ _ hw₃ hi₃ _ hk
  have hbound₃ := ((hbound.mono (fun _ hp => hp) hadd).mono (fun _ hp => hp) hw₂).mono
    (fun _ hp => hp) hw₃
  exact (answer_follows hL hi₃ hbound₃ hk).fixed

/-! ## Statements -/

/-- The statement was completed in the same way, with the scopes as they were. -/
def Rests (L : Lore) (ts : Scopes) (W : World) (c : Completion) (r : Completion Scopes × Scopes) :
    Prop :=
  CompletionAlike L.visited W c r.1 ∧ r.2 = ts

/-- A statement that declares nothing has its scopes behind it as well. -/
theorem Stands.quietly {s : Stmt} {x : Eval Completion} {y : Run (Completion Scopes × Scopes)}
    (hL : L.Closed) (h : Stands L E W m t ctx w (.stmt s) ls fs ts) (he : Exact W fs ts)
    (hq : s.IsQuiet) (hf : Follows L E W Fixed (fs = []) (Rests L ts) x m y t) :
    Follows L E W (fun f => Current fs f ∧ ¬ s.IsQuiet) (fs = []) (Behind L fs ls ctx w s ts) x m y
      t := by
  refine hf.imp nofun id fun W' c r hw hr => ?_
  obtain ⟨hc, hts⟩ := hr
  have hscopes : (walkStmt ctx s w).scopes = w.scopes := hL.scopes h.visited hq
  refine ⟨hc, fun _ => ?_, fun _ => hts⟩
  rw [hscopes, hts]
  exact ⟨h.linked.later hw, he.later h.linked hw fun _ _ => id⟩

/-- What is known of a statement that declares nothing. -/
theorem Follows.rests {s : Stmt} {x : Eval Completion} {y : Run (Completion Scopes × Scopes)}
    (hq : s.IsQuiet) (h : Follows L E W (fun f => Current fs f ∧ ¬ s.IsQuiet) (fs = [])
      (Behind L fs ls ctx w s ts) x m y t) :
    Follows L E W Fixed (fs = []) (Rests L ts) x m y t :=
  h.imp (fun _ hf => hf.2 hq) id fun _ _ _ _ hb => ⟨hb.completion, hb.quiet hq⟩

/-- The value of an expression that may be left out. -/
theorem optional_follows {e : Option Expr} (hi : InStep L E W m t)
    (h : ∀ e' ∈ e, Follows L E W Fixed Never (Alike L.visited) (Eval.evaluate n e') m
      (evaluate n ts e') t) :
    Follows L E W Fixed Never (fun W' => Option.Rel (Alike L.visited W'))
      (Eval.optional (Eval.evaluate n) e) m (optional (evaluate n ts) e) t := by
  cases e with
  | none => exact .pure hi .none
  | some e => exact (h e rfl).map fun _ _ _ ha => .some ha

/-- What may be left out fails only if it is there. -/
theorem optional_failed {value : Expr → Eval Value} {e : Option Expr} {error : RuntimeError}
    {m m' : Machine} (h : Eval.optional value e m = .failed error m') :
    ∃ e', e = some e' ∧ value e' m = .failed error m' := by
  cases e with
  | none => cases h
  | some e =>
    rw [Eval.optional, map_eq_pure_bind] at h
    rcases Action.bind_eq_failed_iff.mp h with h | ⟨v, m₁, -, h⟩
    · exact ⟨e, rfl, h⟩
    · cases h

/-- A block enters a frame of its own. -/
theorem Stands.enterBlock (hL : L.Closed) {ss : List Stmt}
    (h : Stands L E W m t ctx w (.stmt (.block ss)) ls fs ts)
    (hlived : L.lived ⟨n + 1, .execute (.block ss), m⟩) :
    Later Fixed W (W.add m.store.frames.size (blockLayer ctx w ss)) ∧
    Stands L E (W.add m.store.frames.size (blockLayer ctx w ss))
      ⟨{ m.store with frames := m.store.frames.push .empty }, m.env.extend m.store.frames.size,
        m.resolution, m.host⟩ t ctx w.enter (.stmts ss) (blockLayer ctx w ss :: ls)
      (m.store.frames.size :: fs) (.empty :: ts) ∧
    Exact (W.add m.store.frames.size (blockLayer ctx w ss)) (m.store.frames.size :: fs)
      (.empty :: ts) := by
  have hadd : Later Fixed W (W.add m.store.frames.size (blockLayer ctx w ss)) :=
    World.later_add h.inStep.agree.unframed _
  have hframe := h.inStep.agree.frame (.block hlived h.visited)
  have hlinked := Linked.cons (World.add_here W m.store.frames.size (blockLayer ctx w ss))
    (a := .empty) (t := .empty) (fun _ => rfl) nofun (h.linked.later hadd)
  exact ⟨hadd, ⟨⟨hframe, h.inStep.host, h.inStep.resolution⟩, hL.part h.visited .block, hlinked,
    h.chain.extend _⟩, h.inStep.agree.new_frame⟩

/-- A block runs in the frame that it has entered. -/
theorem block_step (hL : L.Closed) (ih : Faithful L n) {ss : List Stmt}
    (h : Stands L E W m t ctx w (.stmt (.block ss)) ls fs ts)
    (hlived : L.lived ⟨n + 1, .execute (.block ss), m⟩) :
    Follows L E W Fixed (fs = []) (Rests L ts) (Eval.execute (n + 1) (.block ss)) m
      (execute (n + 1) ts (.block ss)) t := by
  obtain ⟨hadd, hbody, hexact⟩ := h.enterBlock hL hlived
  have hruns := ih.executeAll hbody hexact (hL.calls hlived (.block rfl))
  -- The body may give names to its own frame only, and this is new, so to the outside nothing has changed.
  have hloose : ∀ f, Current (m.store.frames.size :: fs) f → f = m.store.frames.size :=
    fun f hf => (Option.some.inj hf).symm
  refine .first rfl rfl (.first rfl rfl (.close hadd h.inStep.agree.unframed ?_))
  exact .give (.within (hruns.imp hloose nofun fun _ _ _ _ h => h)) fun _ _ _ _ hc => ⟨hc, rfl⟩

/-- The branch that is decided on runs within the same scopes. -/
theorem ifElse_step (hL : L.Closed) (ih : Faithful L n) {c : Expr} {a : Stmt} {b : Option Stmt}
    (h : Stands L E W m t ctx w (.stmt (.ifElse c a b)) ls fs ts) (he : Exact W fs ts)
    (hlived : L.lived ⟨n + 1, .execute (.ifElse c a b), m⟩) :
    Follows L E W Fixed (fs = []) (Rests L ts) (Eval.execute (n + 1) (.ifElse c a b)) m
      (execute (n + 1) ts (.ifElse c a b)) t := by
  have hcalls : ∀ {μ}, Calls ⟨n + 1, .execute (.ifElse c a b), m⟩ μ → L.lived μ := hL.calls hlived
  obtain ⟨hqa, hqb⟩ := (hL.settled h.visited).ifElse
  have hs := hL.scopes (hL.part h.visited .decision) trivial
  refine .after (ih.evaluate (h.enter hL .decision) (hcalls .decision)) ?_
  intro v m₁ r t₁ W₁ hx hw₁ hi₁ henv₁ ha
  have he₁ := he.later h.linked hw₁ fun _ _ => id
  rw [← ha.truthy]
  -- The values are alike, so both sides take the same branch.
  cases htruthy : v.truthy with
  | true =>
    exact (ih.execute (h.go hL .thenBranch hs hw₁ hi₁ henv₁) he₁
      (hcalls (.thenBranch hx htruthy))).rests hqa
  | false =>
    cases b with
    | none => exact .pure hi₁ ⟨.normal, rfl⟩
    | some b =>
      have hs' := (hL.scopes (hL.part h.visited .thenBranch) hqa).trans hs
      exact (ih.execute (h.go hL .elseBranch hs' hw₁ hi₁ henv₁) he₁
        (hcalls (.elseBranch hx htruthy))).rests (hqb b rfl)

/-- A loop starts over within the same scopes. -/
theorem whileLoop_step (hL : L.Closed) (ih : Faithful L n) {c : Expr} {b : Stmt}
    (h : Stands L E W m t ctx w (.stmt (.whileLoop c b)) ls fs ts) (he : Exact W fs ts)
    (hlived : L.lived ⟨n + 1, .execute (.whileLoop c b), m⟩) :
    Follows L E W Fixed (fs = []) (Rests L ts) (Eval.execute (n + 1) (.whileLoop c b)) m
      (execute (n + 1) ts (.whileLoop c b)) t := by
  have hcalls : ∀ {μ}, Calls ⟨n + 1, .execute (.whileLoop c b), m⟩ μ → L.lived μ := hL.calls hlived
  have hq := (hL.settled h.visited).whileLoop
  have hs := hL.scopes (hL.part h.visited .test) trivial
  refine .after (ih.evaluate (h.enter hL .test) (hcalls .test)) ?_
  intro v m₁ r t₁ W₁ hx hw₁ hi₁ henv₁ ha
  have he₁ := he.later h.linked hw₁ fun _ _ => id
  rw [← ha.truthy]
  cases htruthy : v.truthy with
  | false => exact .pure hi₁ ⟨.normal, rfl⟩
  | true =>
    have hround := h.go hL .round hs hw₁ hi₁ henv₁
    refine .bind ((ih.execute hround he₁ (hcalls (.round hx htruthy))).rests hq) ?_
    -- Behind a round the loop stands where it stood before, in a larger world.
    rintro k m₂ ⟨k', ts'⟩ t₂ W₂ hx₂ hw₂ hi₂ henv₂ ⟨hk, hts⟩
    dsimp only at hk hts ⊢
    subst hts
    cases hk with
    | broke => exact .pure hi₂ ⟨.normal, rfl⟩
    | returned ha₂ => exact .pure hi₂ ⟨.returned ha₂, rfl⟩
    | normal =>
      have hagain : Stands L E W₂ m₂ t₂ ctx w (.stmt (.whileLoop c b)) ls fs ts' :=
        ⟨hi₂, h.visited, (h.linked.later hw₁).later hw₂, henv₂ ▸ henv₁ ▸ h.chain⟩
      exact (ih.execute hagain (he₁.later (h.linked.later hw₁) hw₂ fun _ _ => id)
        (hcalls (.again hx htruthy hx₂))).rests (s := .whileLoop c b) trivial

/-! ## Declarations

  The reference makes a cell before the initializer is evaluated, the machine a slot after it.  In between the
  name is pending: no occurrence can mean it, or the resolver has reported it. -/

/-- What a declared name is behind its declaration does not matter to the frames. -/
theorem Linked.of_claims {x : String} {u v v' : Walk} (hl : Linked W fs ls v.scopes ts)
    (h : Claims x u v) (h' : Claims x u v') : Linked W fs ls v'.scopes ts := by
  cases hs : u.scopes with
  | nil =>
    rw [h'.outside hs]
    rwa [h.outside hs] at hl
  | cons a rest =>
    obtain ⟨b, hb, hcontains⟩ := h.inside a rest hs
    obtain ⟨b', hb', hcontains'⟩ := h'.inside a rest hs
    rw [hb] at hl
    rw [hb']
    cases hl with
    | cons hf hn hc hrest =>
      refine .cons hf (fun y => ?_) hc hrest
      rw [hn, hcontains, hcontains']

/-- A variable has its cell before its initializer is evaluated.  If that fails, the frame lacks the
    name for good. -/
theorem varDecl_step (hL : L.Closed) (ih : Faithful L n) {name : Token} {e : Option Expr}
    (h : Stands L E W m t ctx w (.stmt (.varDecl name e)) ls fs ts) (he : Exact W fs ts)
    (hlived : L.lived ⟨n + 1, .execute (.varDecl name e), m⟩) :
    Follows L E W (Current fs) (fs = []) (Behind L fs ls ctx w (.varDecl name e) ts)
      (Eval.execute (n + 1) (.varDecl name e)) m (execute (n + 1) ts (.varDecl name e)) t := by
  have hsettled := hL.settled h.visited
  obtain ⟨hplain, hnew, hclaims⟩ := hsettled.varDecl
  obtain ⟨is, hsits⟩ := hsettled
  have hcover : Covers (walkStmt ctx (.varDecl name e) w).scopes ls := hsits.behind
  obtain ⟨W₁, ts₁, t₁, hannounce, hw₁, hi₁, hl₁, he₁, hunfilled⟩ :=
    announce_follows h.inStep h.linked he hnew (.declare hnew)
      (admits_of_claims hclaims hcover ⟨hplain.not_this, hplain.not_super⟩)
  have hvalue : ∀ e' ∈ e, Follows L (Pending E fs name.lexeme) W₁ Fixed Never (Alike L.visited)
      (Eval.evaluate n e') m (evaluate n ts₁ e') t₁ := by
    rintro e' rfl
    exact ih.evaluate ⟨hi₁, hL.part h.visited .initializer, hl₁, h.chain⟩
      (hL.calls hlived .initializer)
  -- If the initializer fails, the name stays missing, and this moment is the reason.
  have hfails : ∀ error m', Eval.optional (Eval.evaluate n) e m = .failed error m' →
      ∀ f x, Pending E fs name.lexeme f x → Missing L E f x := by
    intro error m' hx f x hpending
    rcases hpending with hexcused | ⟨hcurrent, rfl⟩
    · exact .inl hexcused
    · cases hcurrent.frame h.chain
      obtain ⟨e', rfl, hx'⟩ := optional_failed hx
      exact .inr (.initializer hlived hx')
  refine .second hannounce (.later hw₁ ?_)
  refine .excusing (optional_follows hi₁ hvalue) ?_ hfails
  intro slot m₂ slot' t₂ W₂ _ hw₂ hi₂ henv₂ hslot
  have hl₂ := (hl₁.later hw₂).of_claims (.declare hnew) hclaims
  have he₂ := he₁.later hl₁ hw₂ fun _ _ => id
  have hunfilled₂ : ∀ f, Current fs f → W₂.filled f name.lexeme = false := fun f hf =>
    (congrFun (hl₁.kept hw₂ hf) _).trans (hunfilled f hf)
  refine .bind (settle_follows hi₂ h.inStep.agree.excused hl₂ he₂ (henv₂ ▸ h.chain) hcover hplain
    (head_of_claims hclaims) hunfilled₂ hslot) ?_
  exact fun _ m₃ _ t₃ W₃ _ hw₃ hi₃ _ he₃ => .pure hi₃ ⟨.normal, fun _ => ⟨hl₂.later hw₃, he₃⟩, nofun⟩

/-- A function has its own name among those that it sees. -/
theorem funcDecl_step (hL : L.Closed) {d : FunctionDecl}
    (h : Stands L E W m t ctx w (.stmt (.funcDecl d)) ls fs ts) (he : Exact W fs ts) :
    Follows L E W (Current fs) (fs = []) (Behind L fs ls ctx w (.funcDecl d) ts)
      (Eval.execute (n + 1) (.funcDecl d)) m (execute (n + 1) ts (.funcDecl d)) t := by
  have hsettled := hL.settled h.visited
  obtain ⟨name, hname, hplain, hnew, hscopes⟩ := hsettled.funcDecl
  obtain ⟨is, hsits⟩ := hsettled
  have hcover : Covers (w.bind name).scopes ls := hscopes ▸ hsits.behind
  have hclaims : Claims name.lexeme w (w.bind name) := .bind hnew
  have hvisited : L.visited ⟨⟨ctx, w.bind name, .function .function d⟩, ls⟩ := by
    have hpart := hL.part h.visited .declared
    rwa [hname] at hpart
  -- The reference announces the name first, so that the function sees it; the machine declares it last.
  obtain ⟨W₁, ts₁, t₁, hannounce, hw₁, hi₁, hl₁, he₁, hunfilled⟩ :=
    announce_follows h.inStep h.linked he hnew hclaims
      (admits_of_claims hclaims hcover ⟨hplain.not_this, hplain.not_super⟩)
  have hbound : Bound L.visited W₁ ⟨d, m.env, false⟩ ⟨d, ts₁, false⟩ :=
    ⟨⟨rfl, rfl⟩, hvisited, h.chain, hl₁, nofun⟩
  unfold Eval.execute execute
  simp only [hname, Option.getD_some]
  refine .first rfl rfl (.second hannounce (.later hw₁ ?_))
  have hmakes : ∀ error m', Machine.functionValue ⟨d, m.env, false⟩ m ≠ .failed error m' :=
    fun _ _ => nofun
  refine .excusing (functionValue_follows hi₁ hbound) ?_ fun error m' hx => absurd hx (hmakes error m')
  intro v m₂ r t₂ W₂ _ hw₂ hi₂ henv₂ ha
  have hunfilled₂ : ∀ f, Current fs f → W₂.filled f name.lexeme = false := fun f hf =>
    (congrFun (hl₁.kept hw₂ hf) _).trans (hunfilled f hf)
  refine .bind (settle_follows hi₂ h.inStep.agree.excused (hl₁.later hw₂)
    (he₁.later hl₁ hw₂ fun _ _ => id) (henv₂ ▸ h.chain) hcover hplain
    (head_of_claims hclaims) hunfilled₂ (.some ha)) ?_
  exact fun _ m₃ _ t₃ W₃ _ hw₃ hi₃ _ he₃ =>
    .pure hi₃ ⟨.normal, fun _ => ⟨hscopes.symm ▸ (hl₁.later hw₂).later hw₃, he₃⟩, nofun⟩

/-- Every form of statements; those that declare nothing leave the scopes as they are. -/
theorem execute_step (hL : L.Closed) (ih : Faithful L n) {s : Stmt}
    (h : Stands L E W m t ctx w (.stmt s) ls fs ts) (he : Exact W fs ts)
    (hlived : L.lived ⟨n + 1, .execute s, m⟩) :
    Follows L E W (fun f => Current fs f ∧ ¬ s.IsQuiet) (fs = []) (Behind L fs ls ctx w s ts)
      (Eval.execute (n + 1) s) m (execute (n + 1) ts s) t := by
  have hcalls : ∀ {μ}, Calls ⟨n + 1, .execute s, m⟩ μ → L.lived μ := hL.calls hlived
  have hloose : ¬ s.IsQuiet → ∀ f, Current fs f → Current fs f ∧ ¬ s.IsQuiet :=
    fun hq _ hf => ⟨hf, hq⟩
  -- Only declarations change what is visible behind the statement; all others are quiet.
  cases s with
  | expression e =>
    refine h.quietly hL he trivial (.after (ih.evaluate (h.enter hL .expression) (hcalls .expression)) ?_)
    exact fun _ m₁ _ t₁ W₁ _ _ hi₁ _ _ => .pure hi₁ ⟨.normal, rfl⟩
  | value e =>
    refine h.quietly hL he trivial (.after (ih.evaluate (h.enter hL .value) (hcalls .value)) ?_)
    exact fun _ m₁ _ t₁ W₁ _ _ hi₁ _ _ => .pure hi₁ ⟨.normal, rfl⟩
  | varDecl name e => exact (varDecl_step hL ih h he hlived).imp (hloose id) id fun _ _ _ _ hb => hb
  | block ss => exact h.quietly hL he trivial (block_step hL ih h hlived)
  | ifElse c a b => exact h.quietly hL he trivial (ifElse_step hL ih h he hlived)
  | whileLoop c b => exact h.quietly hL he trivial (whileLoop_step hL ih h he hlived)
  | breakLoop keyword => exact h.quietly hL he trivial (.pure h.inStep ⟨.broke, rfl⟩)
  | funcDecl d => exact (funcDecl_step hL h he).imp (hloose id) id fun _ _ _ _ hb => hb
  | classDecl name superclass ds =>
    refine Follows.imp (.bind (declareClass_follows hL h.inStep h.visited h.linked he h.chain hlived)
      ?_) (hloose id) id fun _ _ _ _ hb => hb
    exact fun _ m₁ _ t₁ W₁ _ _ hi₁ _ hb => .pure hi₁ ⟨.normal, fun _ => hb, nofun⟩
  | returnValue keyword e =>
    refine h.quietly hL he trivial (.after (optional_follows h.inStep ?_) ?_)
    · rintro e' rfl
      have hvalue := h.go hL .returned (Walk.checkReturn_scopes _ _ _ _)
        (Later.refl W : Later Fixed W W) h.inStep rfl
      exact ih.evaluate hvalue (hcalls .returned)
    · intro slot m₁ slot' t₁ W₁ _ _ hi₁ _ hslot
      refine .pure hi₁ ⟨.returned ?_, rfl⟩
      cases hslot with
      | none => exact .nil
      | some ha => exact ha

/-- Statements one after the other, up to one that does not end normally. -/
theorem executeAll_step (hL : L.Closed) (ih : Faithful L n) {ss : List Stmt}
    (h : Stands L E W m t ctx w (.stmts ss) ls fs ts) (he : Exact W fs ts)
    (hlived : L.lived ⟨n + 1, .executeAll ss, m⟩) :
    Follows L E W (Current fs) (fs = []) (CompletionAlike L.visited) (Eval.executeAll (n + 1) ss) m
      (executeAll (n + 1) ts ss) t := by
  have hcalls : ∀ {μ}, Calls ⟨n + 1, .executeAll ss, m⟩ μ → L.lived μ := hL.calls hlived
  cases ss with
  | nil => exact .pure h.inStep .normal
  | cons s ss =>
    have hfirst := ih.execute (h.enter hL .firstStmt) he (hcalls .firstStmt)
    refine .bind (hfirst.imp (fun _ hf => hf.1) id fun _ _ _ _ hb => hb) ?_
    rintro c m₁ ⟨c', ts₁⟩ t₁ W₁ hx _ hi₁ henv₁ ⟨hc, hnormal, -⟩
    dsimp only at hc
    cases hc with
    | normal =>
      obtain ⟨hl₁, he₁⟩ := hnormal rfl
      have hothers : Stands L E W₁ m₁ t₁ ctx (walkStmt ctx s w) (.stmts ss) ls fs ts₁ :=
        ⟨hi₁, hL.part h.visited .otherStmts, hl₁, henv₁ ▸ h.chain⟩
      exact ih.executeAll hothers he₁ (hcalls (.otherStmts hx))
    | broke => exact .pure hi₁ .broke
    | returned ha => exact .pure hi₁ (.returned ha)

end Step

/-- **The reference follows the machine**, whatever it evaluates, calls or executes. -/
theorem faithful {L : Lore} (hL : L.Closed) (n : Nat) : Faithful L n := by
  induction n with
  | zero => exact faithful_zero L
  | succ n ih =>
    exact ⟨evaluate_step hL ih, evaluateAll_step hL ih, call_step hL ih, callClosure_step hL ih,
      execute_step hL ih, executeAll_step hL ih⟩

/-! ## Programs -/

section Programs

variable {L : Lore} {n : Nat} {E : Nat → String → Prop} {W : World} {m : Machine} {t : State}
  {w : Walk}

/-- At top level there are no scopes. -/
theorem Stands.otherStmts {W' : World} {m' : Machine} {t' : State} {s : Stmt} {ss : List Stmt}
    (hL : L.Closed) (h : Stands L E W m t .topLevel w (.stmts (s :: ss)) [] [] [])
    (hi : InStep L E W' m' t') (henv : m'.env = m.env) :
    Stands L E W' m' t' .topLevel (walkStmt .topLevel s w) (.stmts ss) [] [] [] := by
  obtain ⟨is, hsits⟩ := hL.settled (hL.part h.visited .firstStmt)
  have hgrown : Grown w.scopes (walkStmt .topLevel s w).scopes :=
    (growth_of_formed hsits.formed .topLevel w).1
  have hl := h.linked
  generalize w.scopes = scopes at hl hgrown
  cases hl with
  | nil =>
    generalize hs : (walkStmt .topLevel s w).scopes = scopes' at hgrown
    cases hgrown with
    | nil => exact ⟨hi, hL.part h.visited .otherStmts, hs ▸ .nil, henv ▸ h.chain⟩

/-- A program comes to the same value or the same error. -/
theorem runAll_follows (hL : L.Closed) (ss : List Stmt) :
    ∀ {W : World} {m : Machine} {t : State} {w : Walk} {last : Option Value}
      {last' : Option (Value Scopes)}, Stands L E W m t .topLevel w (.stmts ss) [] [] [] →
      Option.Rel (Alike L.visited W) last last' → L.lived ⟨n, .program ss last, m⟩ →
      Follows L E W Fixed True (fun W' => Option.Rel (Alike L.visited W')) (Eval.runAll n ss last) m
        (runAll n ss last') t := by
  induction ss with
  | nil => exact fun h hlast _ => .pure h.inStep hlast
  | cons s ss ih =>
    intro W m t w last last' h hlast hlived
    have hfirst := h.enter hL .firstStmt
    -- At the top level the walk is back where it was behind each statement, so the rest stands as before.
    by_cases hs : ∃ e, s = .value e
    · obtain ⟨e, rfl⟩ := hs
      refine .after ((faithful hL n).evaluate (hfirst.enter hL .value) (hL.calls hlived .shown)) ?_
      intro v m₁ r t₁ W₁ hx hw₁ hi₁ henv₁ ha
      exact ih (h.otherStmts hL hi₁ henv₁) (.some ha) (hL.calls hlived (.behindShown hx))
    · have hstmt : ∀ e, s ≠ .value e := fun e he => hs ⟨e, he⟩
      have hrun : Eval.runAll n (s :: ss) last =
          Eval.execute n s >>= fun _ => Eval.runAll n ss last := by
        cases s <;> first | rfl | exact absurd rfl (hstmt _)
      have hrun' : runAll n (s :: ss) last' = execute n [] s >>= fun _ => runAll n ss last' := by
        cases s <;> first | rfl | exact absurd rfl (hstmt _)
      rw [hrun, hrun']
      have hexecute := (faithful hL n).execute hfirst trivial (hL.calls hlived (.statement hstmt))
      refine .bind (hexecute.imp (fun _ hf => absurd hf.1 nofun) (fun _ => trivial)
        fun _ _ _ _ hb => hb) ?_
      intro c m₁ r t₁ W₁ hx hw₁ hi₁ henv₁ _
      have hlast₁ := related_imp hlast fun _ _ ha => ha.mono (fun _ hp => hp) hw₁
      exact ih (h.otherStmts hL hi₁ henv₁) hlast₁ (hL.calls hlived (.behindStatement hstmt hx))

end Programs

end Lox.Lexical
