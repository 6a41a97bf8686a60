import Lox.Proofs.Renaming.Trees
import Lox.Proofs.Values

/-!
  Values and machines behind a renaming.

  In a run every frame was made for a scope of the program, which is marked or not, and so the frames have
  marks, too.  Frames come to the end of the list and never go, so that whatever is related stays so while the
  list of marks gets longer: every relation here has a lemma `mono`.

  * `Env.Marked` gives the marks of a chain of frames, innermost first: those of the scopes around a place.
  * A function and that of the renamed program see the same chain of frames; their texts are related within
    scopes that have the marks of these frames (`Closure.Akin`).
  * Classes and values are related as their functions are (`Class.Akin`, `Value.Akin`).  Constants are related
    to themselves only (`Value.Ground`), so that printing, operators and truth see no difference.
  * Of two stores a name of a frame means in the one what it means in the other behind the renaming
    (`Store.Akin`).  Fields are not renamed.
  * Machines agree on all else: the environment, the host and the distances (`Machine.Akin`).
-/

namespace Lox

open Renaming (classMarks)

/-! ## Frames -/

/-- The frames of the chain have the marks, among all frames.  Behind them come the globals, which are not
    marked. -/
def Env.Marked (env : Env) (frames marks : List Bool) : Prop :=
  (env.frame :: env.outer).map (frames[·]?) = (marks ++ [false]).map some

/-- What was marked stays so. -/
theorem mark_kept {frames frames' : List Bool} (hle : frames <+: frames') {f : Nat} {mark : Bool}
    (hf : frames[f]? = some mark) : frames'[f]? = some mark := by
  obtain ⟨more, rfl⟩ := hle
  rw [List.getElem?_append_left (List.getElem?_eq_some_iff.mp hf).1, hf]

namespace Env.Marked

variable {env : Env} {frames frames' marks : List Bool}

/-- Frames that come later do not touch the chain. -/
theorem mono (h : env.Marked frames marks) (hle : frames <+: frames') : env.Marked frames' marks := by
  rw [Marked, ← h]
  refine List.map_congr_left fun f hf => ?_
  have hmem : frames[f]? ∈ (env.frame :: env.outer).map (frames[·]?) := List.mem_map_of_mem hf
  rw [h] at hmem
  obtain ⟨mark, -, hmark⟩ := List.mem_map.mp hmem
  rw [← hmark]
  exact mark_kept hle hmark.symm

/-- The globals are no local scope, and have no mark. -/
theorem global (h : frames[0]? = some false) : Env.global.Marked frames [] := by
  rw [Marked]
  show [frames[0]?] = [some false]
  rw [h]

/-- A new frame inside the chain. -/
theorem extend (h : env.Marked frames marks) (mark : Bool) :
    (env.extend frames.length).Marked (frames ++ [mark]) (mark :: marks) := by
  have houter := h.mono (List.prefix_append frames [mark])
  rw [Marked, Env.extend, List.map_cons, List.getElem?_concat_length, houter]
  rfl

/-- The frame that lies a distance outward has the mark that is there. -/
theorem ancestor (h : env.Marked frames marks) {d f : Nat} (hf : env.ancestor? d = some f) :
    frames[f]? = some (markAt marks (some d)) := by
  have hget := congrArg (·[d]?) h
  simp only [List.getElem?_map] at hget
  rw [ancestor?] at hf
  rw [hf, Option.map_some] at hget
  obtain ⟨mark, hmark, heq⟩ := Option.map_eq_some_iff.mp hget.symm
  rw [← heq, markAt, Option.bind_some]
  rcases Nat.lt_or_ge d marks.length with hlt | hge
  · rw [List.getElem?_append_left hlt] at hmark
    rw [hmark]
    rfl
  · -- Only the globals lie so far outward.
    rw [List.getElem?_append_right hge] at hmark
    have hfalse : mark = false := by simpa using List.mem_of_getElem? hmark
    rw [List.getElem?_eq_none hge, hfalse]
    rfl

/-- The innermost frame has the innermost mark. -/
theorem frame (h : env.Marked frames marks) : frames[env.frame]? = some (marks.headD false) := by
  have hmark := h.ancestor (d := 0) rfl
  rw [hmark]
  cases marks <;> rfl

end Env.Marked

/-! ## Values -/

section Relations

variable (r : Renaming) (frames : List Bool)

/-- The functions see the same frames, and the text of the one is that of the other renamed, within the
    scopes of these frames and these `inner` ones, in which the function is still to be put. -/
inductive Closure.Akin (inner : List Bool) (c c' : Closure) : Prop where
  | intro {marks : List Bool} : c'.env = c.env → c'.isInitializer = c.isInitializer →
    c.env.Marked frames marks →
    Renamed r (inner ++ marks) (.function .function c.declaration) (.function .function c'.declaration) →
    Akin inner c c'

/-- The classes are the same, but for the variable in the texts of their methods, which are still to be
    put in the scope of an instance. -/
structure ClassBody.Akin (b b' : ClassBody) : Prop where
  identity : b'.identity = b.identity
  name : b'.name = b.name
  methods : Table.Related (Closure.Akin r frames [false]) b.methods b'.methods

/-- The classes and all that they extend are the same. -/
def Class.Akin (c c' : Class) : Prop := List.Forall₂ (ClassBody.Akin r frames) c.chain c'.chain

/-- The values are the same, but for the variable in the texts of functions. -/
inductive Value.Akin : Value → Value → Prop where
  | nil : Akin .nil .nil
  | bool (b : Bool) : Akin (.bool b) (.bool b)
  | number (x : Float) : Akin (.number x) (.number x)
  | string (s : String) : Akin (.string s) (.string s)
  | native (n : Native) : Akin (.native n) (.native n)
  | function (id : Nat) {c c' : Closure} : c.Akin r frames [] c' → Akin (.function id c) (.function id c')
  | classOf {c c' : Class} : c.Akin r frames c' → Akin (.classOf c) (.classOf c')
  | object (id : Nat) {c c' : Class} : c.Akin r frames c' → Akin (.object id c) (.object id c')

/-- The stores have frames with these marks, and the names of a frame mean the same behind the
    renaming. -/
structure Store.Akin (s s' : Store) : Prop where
  size : s.frames.size = frames.length
  size' : s'.frames.size = frames.length
  globals : frames[0]? = some false
  slots : ∀ f mark, frames[f]? = some mark → ∀ x,
    Option.Rel (Option.Rel (Value.Akin r frames)) (s.slot? f x) (s'.slot? f (r.name mark x))
  objects : ArraysRelated (Table.Related (Value.Akin r frames)) s.objects s'.objects
  nextIdentity : s'.nextIdentity = s.nextIdentity

/-- The machines are the same, but for the variable, and run in frames with these marks. -/
structure Machine.Akin (marks : List Bool) (m m' : Machine) : Prop where
  store : m.store.Akin r frames m'.store
  env : m'.env = m.env
  marked : m.env.Marked frames marks
  host : m'.host = m.host
  resolution : m'.resolution = m.resolution
  found : ∀ id : Nat, m.resolution[id]? = r.found[id]?

end Relations

variable {r : Renaming} {frames frames' : List Bool}

/-! ## More frames -/

/-- Related functions stay so. -/
theorem Closure.Akin.mono {inner : List Bool} {c c' : Closure} (h : c.Akin r frames inner c')
    (hle : frames <+: frames') : c.Akin r frames' inner c' := by
  obtain ⟨henv, hinit, hmarked, hdeclaration⟩ := h
  exact .intro henv hinit (hmarked.mono hle) hdeclaration

/-- No function is renamed, so that it is displayed as before. -/
theorem Closure.Akin.displayName_eq {inner : List Bool} (c c' : Closure) (h : c.Akin r frames inner c') :
    c'.declaration.displayName = c.declaration.displayName := by
  obtain ⟨-, -, -, hdeclaration⟩ := h
  exact hdeclaration.displayName_eq

/-! ## As values that are related -/

/-- Classes are related as their methods are: one direction. -/
theorem Class.Akin.related {c c' : Class} (h : c.Akin r frames c') :
    c.Related (Closure.Akin r frames [false]) c' :=
  List.Forall₂.imp (fun _ _ hb => ⟨hb.identity, hb.name, hb.methods⟩) h

/-- And the other. -/
theorem Class.Related.akin {c c' : Class} (h : c.Related (Closure.Akin r frames [false]) c') :
    c.Akin r frames c' :=
  List.Forall₂.imp (fun _ _ hb => ⟨hb.identity, hb.name, hb.methods⟩) h

/-- Values are related as the functions in them are: one direction. -/
theorem Value.Akin.related {v v' : Value} (h : v.Akin r frames v') :
    v.Related (Closure.Akin r frames []) (Closure.Akin r frames [false]) v' := by
  cases h with
  | nil => exact .nil
  | bool b => exact .bool b
  | number x => exact .number x
  | string s => exact .string s
  | native n => exact .native n
  | function id hc => exact .function id hc
  | classOf hc => exact .classOf hc.related
  | object id hc => exact .object id hc.related

/-- And the other. -/
theorem Value.Related.akin {v v' : Value}
    (h : v.Related (Closure.Akin r frames []) (Closure.Akin r frames [false]) v') : v.Akin r frames v' := by
  cases h with
  | nil => exact .nil
  | bool b => exact .bool b
  | number x => exact .number x
  | string s => exact .string s
  | native n => exact .native n
  | function id hc => exact .function id hc
  | classOf hc => exact .classOf hc.akin
  | object id hc => exact .object id hc.akin

/-- Related classes stay so. -/
theorem Class.Akin.mono {c c' : Class} (h : c.Akin r frames c') (hle : frames <+: frames') :
    c.Akin r frames' c' :=
  (h.related.imp fun _ _ hm => hm.mono hle).akin

/-- Related values stay so. -/
theorem Value.Akin.mono {v v' : Value} (h : v.Akin r frames v') (hle : frames <+: frames') :
    v.Akin r frames' v' :=
  (h.related.imp (fun _ _ hc => hc.mono hle) fun _ _ hm => hm.mono hle).akin

/-- The method of a name is found in the same class of the chain. -/
theorem Class.Akin.method? {c c' : Class} (h : c.Akin r frames c') (name : String) :
    Option.Rel (Closure.Akin r frames [false]) (c.method? name) (c'.method? name) :=
  h.related.method? name

/-! ## Values without functions -/

/-- The value has no function in it. -/
inductive Value.Ground : Value → Prop where
  | nil : Ground .nil
  | bool (b : Bool) : Ground (.bool b)
  | number (x : Float) : Ground (.number x)
  | string (s : String) : Ground (.string s)

/-- A constant is related to itself. -/
theorem Value.Ground.akin {v : Value} (h : v.Ground) : v.Akin r frames v := by
  cases h with
  | nil => exact .nil
  | bool b => exact .bool b
  | number x => exact .number x
  | string s => exact .string s

/-- What is related to a value without functions is that value. -/
theorem Value.Ground.eq_of_related {C M : Closure → Closure → Prop} {v v' : Value} (hv : v.Ground)
    (h : v.Related C M v') : v' = v := by
  cases hv <;> cases h <;> rfl

/-- Two related results are the same if they are constants or faults. -/
theorem ResultRelated.eq_of_ground {C M : Closure → Closure → Prop} {result result' : Except RuntimeFault Value}
    (h : ResultRelated C M result result') (hground : ∀ v, result = .ok v → v.Ground) : result' = result := by
  cases h with
  | ok hv => exact congrArg Except.ok ((hground _ rfl).eq_of_related hv)
  | error => rfl

/-- What an operator gives has no function in it. -/
theorem Operator.unary_ground {op : TokenKind} {v w : Value} (hw : Operator.unary op v = .ok w) :
    w.Ground := by
  unfold Operator.unary at hw
  split at hw <;> cases hw
  · exact .number _
  · exact .bool _

/-- What an operator gives is a constant. -/
theorem Operator.binary_ground {op : TokenKind} {a b w : Value} (hw : Operator.binary op a b = .ok w) :
    w.Ground := by
  have honNumbers : ∀ {x y : Float}, Operator.onNumbers op x y = .ok w → w.Ground := by
    intro x y h
    unfold Operator.onNumbers at h
    split at h <;> cases h <;> first | exact .number _ | exact .bool _
  -- Sums, comparisons for equality, and the operators on numbers.
  unfold Operator.binary at hw
  split at hw
  · unfold Operator.add at hw
    split at hw <;> cases hw
    · exact .number _
    · exact .string _
  · cases hw
    exact .bool _
  · cases hw
    exact .bool _
  · split at hw
    · exact honNumbers hw
    · cases hw

/-- A literal is a constant. -/
theorem ofLiteral_ground (l : Literal) : (Value.ofLiteral l : Value).Ground := by
  cases l with
  | nil => exact .nil
  | bool b => exact .bool b
  | number x => exact .number x
  | string s => exact .string s

/-- A native function answers with a constant. -/
theorem nativeAnswer_ground {given : List Value} {host : Host} {native : Native} {v : Value}
    (hv : (Machine.nativeAnswer given host native).1 = .ok v) : v.Ground := by
  unfold Machine.nativeAnswer at hv
  split at hv
  · cases hv
    exact .number _
  · split at hv <;> cases hv
    exact .string _
  · split at hv <;> cases hv
    exact .nil

namespace Value.Akin

variable {v v' u u' : Value} (h : v.Akin r frames v')
include h

/-- Whether a value counts as true is the same on both sides. -/
theorem truthy_eq : v'.truthy = v.truthy := h.related.truthy_eq

/-- What is printed is the same on both sides: functions and classes print their names, which are not
    renamed. -/
theorem printed_eq : v'.printed = v.printed := h.related.printed_eq Closure.Akin.displayName_eq

/-- An operator with one operand gives the same. -/
theorem unary_eq (op : TokenKind) : Operator.unary op v' = Operator.unary op v :=
  (h.related.unary op).eq_of_ground fun _ => Operator.unary_ground

/-- An operator with two operands gives the same. -/
theorem binary_eq (op : TokenKind) (h' : u.Akin r frames u') :
    Operator.binary op v' u' = Operator.binary op v u :=
  (h.related.binary op h'.related).eq_of_ground fun _ => Operator.binary_ground

theorem shortCircuits_eq (op : TokenKind) :
    Operator.shortCircuits op v' = Operator.shortCircuits op v :=
  h.related.shortCircuits_eq op

end Value.Akin

/-- A native function answers the same. -/
theorem nativeAnswer_akin {given given' : List Value} (h : List.Forall₂ (Value.Akin r frames) given given')
    (host : Host) (native : Native) :
    Machine.nativeAnswer given' host native = Machine.nativeAnswer given host native := by
  have hgiven := List.Forall₂.imp (fun _ _ hv => Value.Akin.related hv) h
  obtain ⟨hresult, hhost⟩ := nativeAnswer_related Closure.Akin.displayName_eq hgiven host native
  exact Prod.ext (hresult.eq_of_ground fun _ => nativeAnswer_ground) hhost

/-! ## Stores

  Stores are related by the marks of their frames; instances and globals are never marked. -/

namespace Store.Akin

variable {s s' : Store} (h : s.Akin r frames s')
include h

/-- Fields are found under the same names. -/
theorem field? (i : Nat) (x : String) :
    Option.Rel (Value.Akin r frames) (s.field? i x) (s'.field? i x) :=
  related_bind (h.objects i) fun _ _ ht => ht x

/-- A frame that has a mark is there, in both stores. -/
theorem lt {f : Nat} {mark : Bool} (hf : frames[f]? = some mark) :
    f < s.frames.size ∧ f < s'.frames.size := by
  rw [h.size, h.size']
  have hlt := (List.getElem?_eq_some_iff.mp hf).1
  exact ⟨hlt, hlt⟩

/-- A slot is given values that are related, under the name that it has on either side. -/
theorem put {f : Nat} {mark : Bool} (hf : frames[f]? = some mark) (x : String)
    {slot slot' : Option Value} (hv : Option.Rel (Value.Akin r frames) slot slot') :
    (s.put f x slot).Akin r frames (s'.put f (r.name mark x) slot') := by
  refine ⟨by simp [Store.put, h.size], by simp [Store.put, h.size'], h.globals, fun g mark' hg y => ?_,
    h.objects, h.nextIdentity⟩
  rw [Store.slot?_put s (h.lt hf).1, Store.slot?_put s' (h.lt hf).2]
  by_cases hfg : f = g
  · subst hfg
    cases hf.symm.trans hg
    -- Two names of a frame that are different stay different behind the renaming.
    simp only [r.name_inj]
    split
    · exact .some hv
    · exact h.slots f mark hf y
  · rw [if_neg fun heq => hfg heq.1, if_neg fun heq => hfg heq.1]
    exact h.slots g mark' hg y

/-- A field is given values that are related. -/
theorem putField (i : Nat) (x : String) {v v' : Value} (hv : v.Akin r frames v') :
    (s.putField i x v).Akin r frames (s'.putField i x v') :=
  { h with objects := h.objects.modify i fun _ _ ht => ht.insert x hv }

/-- A new frame shows on either side what it is given, under the names behind the renaming. -/
theorem push (env : Env) (mark : Bool) {t t' : Table (Option Value)}
    (ht : ∀ x, Option.Rel (Option.Rel (Value.Akin r (frames ++ [mark]))) (t.get? x)
      (t'.get? (r.name mark x))) :
    (Store.push env t' s').1 = (Store.push env t s).1 ∧
    (Store.push env t s).2.Akin r (frames ++ [mark]) (Store.push env t' s').2 := by
  have hle := List.prefix_append frames [mark]
  refine ⟨congrArg env.extend (h.size'.trans h.size.symm), by simp [Store.push, h.size],
    by simp [Store.push, h.size'], mark_kept hle h.globals, fun f mark' hf x => ?_, ?_, h.nextIdentity⟩
  · rw [Store.slot?_push, Store.slot?_push, h.size, h.size']
    -- The new frame is the last one on either side, as there are as many frames on both.
    by_cases hnew : f = frames.length
    · subst hnew
      rw [List.getElem?_concat_length] at hf
      cases hf
      rw [if_pos rfl, if_pos rfl]
      exact ht x
    · have hlt : f < frames.length := by
        have hlength := (List.getElem?_eq_some_iff.mp hf).1
        rw [List.length_append, List.length_singleton] at hlength
        omega
      rw [if_neg hnew, if_neg hnew]
      rw [List.getElem?_append_left hlt] at hf
      refine related_imp (h.slots f mark' hf x) fun _ _ hslot => ?_
      exact related_imp hslot fun _ _ hv => hv.mono hle
  · exact h.objects.imp fun _ _ ht => ht.imp fun _ _ hv => hv.mono hle

/-- A new object gets the same number in both stores. -/
theorem newObject :
    s'.newObject.1 = s.newObject.1 ∧ s.newObject.2.Akin r frames s'.newObject.2 :=
  ⟨h.objects.size_eq, { h with objects := h.objects.push .empty }⟩

/-- A new function gets the same number in both stores. -/
theorem newIdentity :
    s'.newIdentity.1 = s.newIdentity.1 ∧ s.newIdentity.2.Akin r frames s'.newIdentity.2 :=
  ⟨h.nextIdentity, { h with nextIdentity := congrArg (· + 1) h.nextIdentity }⟩

end Store.Akin

/-- The store before the first program is related to itself. -/
theorem initial_akin (r : Renaming) : Store.initial.Akin r [false] .initial := by
  have hglobal : [false][0]? = some false := rfl
  have hstart : Store.start.Akin r [false] .start := by
    refine ⟨rfl, rfl, rfl, fun f mark hf x => ?_, fun i => .none, rfl⟩
    have hzero : f = 0 := by
      have hlt := (List.getElem?_eq_some_iff.mp hf).1
      simpa using hlt
    subst hzero
    exact .none
  -- The natives are entered one after the other in the frame of the globals, which has no mark.
  unfold Store.initial
  generalize Native.all = natives
  generalize Store.start = s at hstart ⊢
  induction natives generalizing s with
  | nil => exact hstart
  | cons n natives ih => exact ih _ (hstart.put hglobal n.name (.some (.native n)))

end Lox
