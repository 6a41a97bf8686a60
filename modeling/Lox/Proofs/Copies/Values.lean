import Lox.Proofs.Copies.Trees
import Lox.Proofs.Values

/-!
  Values and machines that are alike.

  Two values are alike if they are the same, but for the declarations of functions, of which the one is
  a copy of the other.  They show the same, are equal to the same and mean the same to operators and
  native functions.  Two machines are alike if their stores have the same places with values that are
  alike, and occurrences that stand for each other have the same distances (`Machine.Like`).

  What operators and native functions make of values has been shown for any two kinds of closures
  (`Lox.Proofs.Values`); values that are alike are one instance of that (`Value.Like.related`), and so none
  of these facts is proved again here.

  The lemmas about stores say what each step of the machine does to stores that are alike: a slot or a
  field that is written with values that are alike (`put`, `putField`), a frame, an instance or an identity
  that is made anew and gets the same number (`push`, `newObject`, `newIdentity`).
-/

namespace Lox

variable (K : Likeness)

/-- The functions see the same variables, and the text of the one is a copy of that of the other. -/
structure Closure.Like (c c' : Closure) : Prop where
  declaration : Copy K (.function .function c.declaration) (.function .function c'.declaration)
  env : c'.env = c.env
  isInitializer : c'.isInitializer = c.isInitializer

/-- The classes are the same, with methods that are alike. -/
structure ClassBody.Like (b b' : ClassBody) : Prop where
  identity : b'.identity = b.identity
  name : b'.name = b.name
  methods : Table.Related (Closure.Like K) b.methods b'.methods

/-- The classes and all that they extend are the same. -/
def Class.Like (c c' : Class) : Prop := List.Forall₂ (ClassBody.Like K) c.chain c'.chain

/-- The values are the same but for the texts of functions. -/
inductive Value.Like : Value → Value → Prop where
  | nil : Like .nil .nil
  | bool (b : Bool) : Like (.bool b) (.bool b)
  | number (x : Float) : Like (.number x) (.number x)
  | string (s : String) : Like (.string s) (.string s)
  | native (n : Native) : Like (.native n) (.native n)
  | function (id : Nat) {c c' : Closure} : c.Like K c' → Like (.function id c) (.function id c')
  | classOf {c c' : Class} : c.Like K c' → Like (.classOf c) (.classOf c')
  | object (id : Nat) {c c' : Class} : c.Like K c' → Like (.object id c) (.object id c')

/-- Both fail with the same fault, or the values are alike. -/
inductive ResultLike : Except RuntimeFault Value → Except RuntimeFault Value → Prop where
  | ok {v v'} : v.Like K v' → ResultLike (.ok v) (.ok v')
  | error {fault} : ResultLike (.error fault) (.error fault)

/-- The stores have the same places, with values that are alike. -/
structure Store.Like (s s' : Store) : Prop where
  frames : ArraysRelated (Table.Related (Option.Rel (Value.Like K))) s.frames s'.frames
  objects : ArraysRelated (Table.Related (Value.Like K)) s.objects s'.objects
  nextIdentity : s'.nextIdentity = s.nextIdentity

/-- The machines are the same, but for the texts of functions and the numbers of occurrences. -/
structure Machine.Like (m m' : Machine) : Prop where
  store : m.store.Like K m'.store
  env : m'.env = m.env
  host : m'.host = m.host
  resolution : ∀ i i', K.number i i' → m'.resolution[i']? = m.resolution[i]?

variable {K} {K' : Likeness}

/-! ## More that stands for each other -/

/-- Closures stay alike when more stands for each other. -/
theorem Closure.Like.mono {c c' : Closure} (h : c.Like K c') (hle : K.Le K') : c.Like K' c' :=
  ⟨h.declaration.mono hle, h.env, h.isInitializer⟩

/-- A function is shown by the same name. -/
theorem Closure.Like.displayName_eq (c c' : Closure) (h : c.Like K c') :
    c'.declaration.displayName = c.declaration.displayName := h.declaration.displayName_eq

/-! ## As values that are related -/

/-- Classes that are alike are related with methods that are alike. -/
theorem Class.Like.related {c c' : Class} (h : c.Like K c') : c.Related (Closure.Like K) c' :=
  List.Forall₂.imp (fun _ _ hb => ⟨hb.identity, hb.name, hb.methods⟩) h

/-- The converse. -/
theorem Class.Related.like {c c' : Class} (h : c.Related (Closure.Like K) c') : c.Like K c' :=
  List.Forall₂.imp (fun _ _ hb => ⟨hb.identity, hb.name, hb.methods⟩) h

/-- Values that are alike are related with closures and methods that are alike. -/
theorem Value.Like.related {v v' : Value} (h : v.Like K v') :
    v.Related (Closure.Like K) (Closure.Like K) v' := by
  cases h with
  | nil => exact .nil
  | bool b => exact .bool b
  | number x => exact .number x
  | string s => exact .string s
  | native n => exact .native n
  | function id hc => exact .function id hc
  | classOf hc => exact .classOf hc.related
  | object id hc => exact .object id hc.related

/-- The converse, which brings back what has been shown for related values. -/
theorem Value.Related.like {v v' : Value} (h : v.Related (Closure.Like K) (Closure.Like K) v') :
    v.Like K v' := by
  cases h with
  | nil => exact .nil
  | bool b => exact .bool b
  | number x => exact .number x
  | string s => exact .string s
  | native n => exact .native n
  | function id hc => exact .function id hc
  | classOf hc => exact .classOf hc.like
  | object id hc => exact .object id hc.like

/-- Results of operators that are related are alike. -/
theorem ResultRelated.like {result result' : Except RuntimeFault Value}
    (h : ResultRelated (Closure.Like K) (Closure.Like K) result result') : ResultLike K result result' := by
  cases h with
  | ok hv => exact .ok hv.like
  | error => exact .error

/-- The method of a name is found in the same class of the chain. -/
theorem Class.Like.method? {c c' : Class} (h : c.Like K c') (name : String) :
    Option.Rel (Closure.Like K) (c.method? name) (c'.method? name) :=
  h.related.method? name

namespace Value.Like

variable {v v' u u' : Value} (h : v.Like K v')
include h

/-- Values stay alike when more stands for each other. -/
theorem mono (hle : K.Le K') : v.Like K' v' :=
  (h.related.imp (fun _ _ hc => hc.mono hle) fun _ _ hm => hm.mono hle).like

/-- Conditions go the same way. -/
theorem truthy_eq : v'.truthy = v.truthy := h.related.truthy_eq

/-- The same text is printed. -/
theorem printed_eq : v'.printed = v.printed := h.related.printed_eq Closure.Like.displayName_eq

/-- A unary operator gives values that are alike, or fails with the same fault. -/
theorem unary (op : TokenKind) : ResultLike K (Operator.unary op v) (Operator.unary op v') :=
  (h.related.unary op).like

/-- So does a binary operator. -/
theorem binary (op : TokenKind) (h' : u.Like K u') :
    ResultLike K (Operator.binary op v u) (Operator.binary op v' u') :=
  (h.related.binary op h'.related).like

/-- The right side of a logical operator is evaluated for both or for neither. -/
theorem shortCircuits_eq (op : TokenKind) :
    Operator.shortCircuits op v' = Operator.shortCircuits op v :=
  h.related.shortCircuits_eq op

end Value.Like

/-- Stores stay alike when more stands for each other. -/
theorem Store.Like.mono {s s' : Store} (h : s.Like K s') (hle : K.Le K') : s.Like K' s' :=
  ⟨h.frames.imp fun _ _ ht => ht.imp fun _ _ hslot => related_imp hslot fun _ _ hv => hv.mono hle,
    h.objects.imp fun _ _ ht => ht.imp fun _ _ hv => hv.mono hle, h.nextIdentity⟩

/-- A native function does the same with arguments that are alike. -/
theorem nativeAnswer_like {given given' : List Value} (h : List.Forall₂ (Value.Like K) given given')
    (host : Host) (native : Native) :
    ResultLike K (Machine.nativeAnswer given host native).1 (Machine.nativeAnswer given' host native).1 ∧
    (Machine.nativeAnswer given' host native).2 = (Machine.nativeAnswer given host native).2 :=
  have hanswer := nativeAnswer_related Closure.Like.displayName_eq
    (List.Forall₂.imp (fun _ _ hv => hv.related) h) host native
  ⟨hanswer.1.like, hanswer.2⟩

/-! ## Stores -/

/-- A literal has one value. -/
theorem ofLiteral_like (l : Literal) : Value.Like K (.ofLiteral l) (.ofLiteral l) :=
  (ofLiteral_related l).like

namespace Store.Like

variable {s s' : Store} (h : s.Like K s')
include h

/-- A slot is empty, without a value, or has values that are alike. -/
theorem slot? (f : Nat) (x : String) :
    Option.Rel (Option.Rel (Value.Like K)) (s.slot? f x) (s'.slot? f x) :=
  related_bind (h.frames f) fun _ _ ht => ht x

/-- A field is missing, or has values that are alike. -/
theorem field? (i : Nat) (x : String) : Option.Rel (Value.Like K) (s.field? i x) (s'.field? i x) :=
  related_bind (h.objects i) fun _ _ ht => ht x

/-- A slot is given values that are alike. -/
theorem put (f : Nat) (x : String) {slot slot' : Option Value}
    (hv : Option.Rel (Value.Like K) slot slot') : (s.put f x slot).Like K (s'.put f x slot') :=
  ⟨h.frames.modify f fun _ _ ht => ht.insert x hv, h.objects, h.nextIdentity⟩

/-- A field is given values that are alike. -/
theorem putField (i : Nat) (x : String) {v v' : Value} (hv : v.Like K v') :
    (s.putField i x v).Like K (s'.putField i x v') :=
  ⟨h.frames, h.objects.modify i fun _ _ ht => ht.insert x hv, h.nextIdentity⟩

/-- A frame is put inside a chain. -/
theorem push (env : Env) {t t' : Table (Option Value)}
    (ht : Table.Related (Option.Rel (Value.Like K)) t t') :
    (Store.push env t' s').1 = (Store.push env t s).1 ∧
    (Store.push env t s).2.Like K (Store.push env t' s').2 :=
  ⟨congrArg env.extend h.frames.size_eq, h.frames.push ht, h.objects, h.nextIdentity⟩

/-- A new instance has the same number, and no fields. -/
theorem newObject : s'.newObject.1 = s.newObject.1 ∧ s.newObject.2.Like K s'.newObject.2 :=
  ⟨h.objects.size_eq, h.frames, h.objects.push .empty, h.nextIdentity⟩

/-- Functions and classes get the same identities. -/
theorem newIdentity : s'.newIdentity.1 = s.newIdentity.1 ∧ s.newIdentity.2.Like K s'.newIdentity.2 :=
  ⟨h.nextIdentity, h.frames, h.objects, congrArg (· + 1) h.nextIdentity⟩

end Store.Like

/-- The store before the first program is like itself. -/
theorem initial_like : Store.initial.Like K .initial := by
  have hstart : Store.start.Like K .start := by
    refine ⟨fun i => ?_, fun i => ?_, rfl⟩
    · cases i with
      | zero => exact .some .empty
      | succ i => exact .none
    · exact .none
  unfold Store.initial
  generalize Native.all = natives
  generalize Store.start = s at hstart ⊢
  induction natives generalizing s with
  | nil => exact hstart
  | cons n natives ih => exact ih _ (hstart.put 0 n.name (.some (.native n)))

end Lox
