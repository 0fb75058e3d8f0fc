import Primer.Proofs.Compilation.Steps
import Primer.Proofs.Layout

/-!
Compilation as a relation. A task is a piece of the compiler's work, from a single node to a block
of statements; `Yields` says by one rule for each kind of node what a task makes of the state that
it starts in. A task succeeds exactly when there is a derivation, so that facts about compiled code
are proved by induction on derivations.
-/

set_option autoImplicit false
set_option relaxedAutoImplicit false

namespace Primer

/-- A piece of the compiler's work. -/
inductive Task where
  | node (n : Node) (want : Option Ty)
  | operand (n : Node) (want : Ty) (role : Role)
  | value (n : Node) (expected : Option Ty) (role : Role)
  | initial (name : String) (type : Option Ty) (start : Option Node)
  | givenBack (draft : Draft) (value : Option Node)
  | arguments (callee : Callee) (position : Nat) (nodes : List Node)
  | items (position : Nat) (nodes : List Node)
  | statements (nodes : List Node)
  | block (nodes : List Node)

namespace Task

/-- A type and code, as the result of a task. -/
def typed (work : Compile (Ty × Fragment)) : Compile Compiled := do
  let (type, code) ← work
  return ⟨some type, code⟩

/-- The pieces of code, laid one after another, as the result of a task. -/
def joined (work : Compile (List Fragment)) : Compile Compiled :=
  return ⟨none, Fragment.sequence (← work)⟩

/-- Do the work. -/
def run : Task → Compile Compiled
  | node n want => Compile.node n want
  | operand n want role => typed do
    return (want, ← Compile.operand n want role (Compile.node n (some want)))
  | value n expected role => typed (Compile.value n expected role (Compile.node n expected))
  | initial name type start => typed (Compile.initial name type start)
  | givenBack draft expr => typed (Compile.givenBack draft expr)
  | arguments callee position nodes => joined (Compile.arguments callee position nodes)
  | items position nodes => joined (Compile.items position nodes)
  | statements nodes => joined (Compile.statements nodes)
  | block nodes => typed do return (.void, ← Compile.block (Compile.statements nodes))

end Task

/-- The instruction that compares the two sides of an equality. -/
def BinaryOp.comparison? : BinaryOp → Option Instruction
  | equal => some .equal
  | notEqual => some .notEqual
  | _ => none

/-- A task turns one state into another and makes code, by the rule for its kind of node. -/
inductive Yields : Task → Compiler → Compiled → Compiler → Prop
  | literal {value want c} (passes : (Instruction.push value).check = .ok ()) :
      Yields (.node (.literal value) want) c ⟨some value.type, [.push value]⟩ c
  | unary {op a want c x c'} (operand : Yields (.operand a op.type op.role) c x c') :
      Yields (.node (.unary op a) want) c ⟨some op.type, x.code ++ [op.instruction]⟩ c'
  | arith {op a b want c x c₁ y c'}
      (first : Yields (.operand a .number (.operand (.arith op))) c x c₁)
      (second : Yields (.operand b .number (.operand (.arith op))) c₁ y c') :
      Yields (.node (.binary (.arith op) a b) want) c
        ⟨some .number, Fragment.sequence [x.code, y.code, [.arith op]]⟩ c'
  | order {op a b want c x c₁ y c'}
      (first : Yields (.operand a .number (.operand (.order op))) c x c₁)
      (second : Yields (.operand b .number (.operand (.order op))) c₁ y c') :
      Yields (.node (.binary (.order op) a b) want) c
        ⟨some .boolean, Fragment.sequence [x.code, y.code, [.order op]]⟩ c'
  | logic {op a b want c x c₁ y c'}
      (first : Yields (.operand a .boolean (.operand (.logic op))) c x c₁)
      (second : Yields (.operand b .boolean (.operand (.logic op))) c₁ y c') :
      Yields (.node (.binary (.logic op) a b) want) c
        ⟨some .boolean, Fragment.shortCircuit op x.code y.code⟩ c'
  | comparison {op i a b want c x c₁ y c₂ c'} (compares : op.comparison? = some i)
      (first : Yields (.node a none) c x c₁) (firstValue : x.type ≠ some .void)
      (second : Yields (.node b x.type) c₁ y c₂) (secondValue : y.type ≠ some .void)
      (agreed : Compile.agree op a b x.type y.type c₂ = .ok ((), c')) :
      Yields (.node (.binary op a b) want) c
        ⟨some .boolean, Fragment.sequence [x.code, y.code] ++ [i]⟩ c'
  | result {want c slot c'} (available : c.prior ≠ .void)
      (found : Compile.resultSlot c = .ok (slot, c')) :
      Yields (.node .result want) c ⟨some c.prior, [.load slot]⟩ c'
  | var {name want c x c'} (found : Compile.reference name want c = .ok (x, c')) :
      Yields (.node (.var name) want) c x c'
  | declare {name type value want c slot c₁ x c'} {found : Ty} (fresh : c.isVisible name = false)
      (allocated : Compile.allocate c = .ok (slot, c₁))
      (start : Yields (.initial name type value) c₁ x c') (typed : x.type = some found) :
      Yields (.node (.declare name type value) want) c ⟨some .void, x.code ++ [.store slot]⟩
        { c' with scope := c'.scope.declare name found slot }
  | assignParam {name a want c position param x c₁ c'} {found : Ty}
      (isParam : c.param? name = some (position, param))
      (value : Yields (.value a param.type (.newValue name)) c x c₁) (typed : x.type = some found)
      (resolved : (if param.type.isNone then Compile.resolveParam position found
        else pure ()) c₁ = .ok ((), c')) :
      Yields (.node (.assign name a) want) c ⟨some .void, x.code ++ [.store param.slot]⟩ c'
  | assignVariable {name a want c target x c'} (noParam : c.param? name = none)
      (isVariable : c.scope.find? name = some target)
      (value : Yields (.value a (some target.type) (.newValue name)) c x c') :
      Yields (.node (.assign name a) want) c ⟨some .void, x.code ++ [.store target.slot]⟩ c'
  | branch {test body want c x c₁ y c'}
      (condition : Yields (.operand test .boolean .ifCondition) c x c₁)
      (inner : Yields (.block body) c₁ y c') :
      Yields (.node (.branch test body none) want) c
        ⟨some .void, Fragment.conditional x.code y.code⟩ c'
  | alternative {test body other want c x c₁ y c₂ z c'}
      (condition : Yields (.operand test .boolean .ifCondition) c x c₁)
      (inner : Yields (.block body) c₁ y c₂) (otherwise : Yields (.block other) c₂ z c') :
      Yields (.node (.branch test body (some other)) want) c
        ⟨some .void, Fragment.alternative x.code y.code z.code⟩ c'
  | loop {test body want c x c₁ y c'}
      (condition : Yields (.operand test .boolean .whileCondition) c x c₁)
      (inner : Yields (.block body) c₁ y c') :
      Yields (.node (.loop test body) want) c
        ⟨some .void, Fragment.whileLoop x.code y.code⟩ c'
  | times {count body want c x c₁ threshold c₂ counter c₃ y c'}
      (amount : Yields (.operand count .number .repeatCount) { c with scope := c.scope.enter } x c₁)
      (first : Compile.allocateScratch c₁ = .ok (threshold, c₂))
      (second : Compile.allocateScratch c₂ = .ok (counter, c₃))
      (inner : Yields (.block body) c₃ y c') :
      Yields (.node (.times count body) want) c
        ⟨some .void, Fragment.countedLoop x.code threshold counter y.code ++ c'.frees⟩ c'.left
  | call {name args want c callee x c₁ out c'} (found : Callee.find name c = .ok (callee, c))
      (arity : callee.arity = args.length) (given : Yields (.arguments callee 0 args) c x c₁)
      (finished : Compile.finishCall callee x.code want c₁ = .ok (out, c')) :
      Yields (.node (.call name args) want) c out c'
  | define {name params returns body want c c₁ x c₂ c'}
      (started : Compile.startDraft name params returns c = .ok ((), c₁))
      (inner : Yields (.block body) c₁ x c₂)
      (finished : Compile.finishDraft name body x.code c₂ = .ok ((), c')) :
      Yields (.node (.define name params returns body) want) c ⟨some .void, []⟩ c'
  | convert {a target want c x source c'} (value : Yields (.node a none) c x c')
      (typed : x.type = some source) (filled : source ≠ .void)
      (converts : source.convertsTo target = true) :
      Yields (.node (.convert a target) want) c ⟨some target, x.code ++ [.convert target]⟩ c'
  | giveBack {value want c draft x c₁ c'} {found : Ty} (inside : c.draft = some draft)
      (given : Yields (.givenBack draft value) c x c₁) (typed : x.type = some found)
      (noted : Compile.noteReturn draft found c₁ = .ok ((), c')) :
      Yields (.node (.giveBack value) want) c ⟨some .void, x.code ++ [.ret]⟩ c'
  | literals {nodes values want c} (all : Node.literals? nodes = some values)
      (passes : (Instruction.push (.list values)).check = .ok ()) :
      Yields (.node (.list nodes) want) c ⟨some .list, [.push (.list values)]⟩ c
  | list {nodes want c x c'} (mixed : Node.literals? nodes = none)
      (short : EncodeFault.checkLength .list nodes.length = .ok ())
      (items : Yields (.items 0 nodes) c x c') :
      Yields (.node (.list nodes) want) c
        ⟨some .list, x.code ++ [.makeList (UInt16.ofNat nodes.length)]⟩ c'
  | item {index list type c x c₁ y c'} (filled : type ≠ .void)
      (items : Yields (.operand list .list .indexedList) c x c₁)
      (place : Yields (.operand index .number .index) c₁ y c') :
      Yields (.node (.item index list) (some type)) c
        ⟨some type, Fragment.sequence [x.code, y.code, [.getItem type]]⟩ c'
  | setItem {index name a want c x c₁ slot y c₂ z c'}
      (items : Yields (.operand (.var name) .list (.named name)) c x c₁)
      (found : c₁.slot? name = some slot)
      (place : Yields (.operand index .number .setIndex) c₁ y c₂)
      (value : Yields (.value a none .newItem) c₂ z c') :
      Yields (.node (.setItem index (.var name) a) want) c
        ⟨some .void, Fragment.sequence [x.code, y.code, z.code, [.setItem, .store slot]]⟩ c'
  | operand {n want role c x c₁ c'} (inner : Yields (.node n (some want)) c x c₁)
      (expected : Compile.expect n x.type want role c₁ = .ok ((), c')) :
      Yields (.operand n want role) c ⟨some want, x.code⟩ c'
  | valueOf {n want role c x c₁ c'} (inner : Yields (.node n (some want)) c x c₁)
      (expected : Compile.expect n x.type want role c₁ = .ok ((), c')) (filled : want ≠ .void) :
      Yields (.value n (some want) role) c ⟨some want, x.code⟩ c'
  | valueFound {n role c x found c'} (inner : Yields (.node n none) c x c')
      (typed : x.type = some found) (filled : found ≠ .void) :
      Yields (.value n none role) c ⟨some found, x.code⟩ c'
  | initialValue {name type start c x c'}
      (inner : Yields (.value start type (.initialValue name)) c x c') :
      Yields (.initial name type (some start)) c x c'
  | initialDefault {name type start c} (default : Value.initial? type = some start)
      (passes : (Instruction.push start).check = .ok ()) :
      Yields (.initial name (some type) none) c ⟨some type, [.push start]⟩ c
  | giveNothing {draft c} : Yields (.givenBack draft none) c ⟨some .void, []⟩ c
  | giveDeclared {draft expr c x c'} (declared : draft.declared = true)
      (inner : Yields (.value expr draft.returns (.givenBack draft.name)) c x c') :
      Yields (.givenBack draft (some expr)) c x c'
  | giveFound {draft expr c x found c'} (undeclared : draft.declared = false)
      (inner : Yields (.node expr (draft.returns.filter (· ≠ .void))) c x c')
      (typed : x.type = some found) (filled : found ≠ .void) :
      Yields (.givenBack draft (some expr)) c ⟨some found, x.code⟩ c'
  | noArguments {callee position c} : Yields (.arguments callee position []) c ⟨none, []⟩ c
  | moreArguments {callee position a more c expected x found c₁ c₂ y c'}
      (wanted : callee.expected position c = .ok (expected, c))
      (first : Yields (.value a expected (.argument (position + 1) callee.name)) c x c₁)
      (typed : x.type = some found)
      (resolved : (if expected.isNone then Compile.resolveParam position found
        else pure ()) c₁ = .ok ((), c₂))
      (rest : Yields (.arguments callee (position + 1) more) c₂ y c') :
      Yields (.arguments callee position (a :: more)) c
        ⟨none, x.code ++ y.code.shift x.code.size⟩ c'
  | noItems {position c} : Yields (.items position []) c ⟨none, []⟩ c
  | moreItems {position a more c x c₁ y c'}
      (first : Yields (.value a none (.listItem (position + 1))) c x c₁)
      (rest : Yields (.items (position + 1) more) c₁ y c') :
      Yields (.items position (a :: more)) c ⟨none, x.code ++ y.code.shift x.code.size⟩ c'
  | noStatements {c} : Yields (.statements []) c ⟨none, []⟩ c
  | moreStatements {n more c x c₁ code c₂ y c'} (first : Yields (.node n none) c x c₁)
      (finished : Compile.finishStatement n x c₁ = .ok (code, c₂))
      (rest : Yields (.statements more) c₂ y c') :
      Yields (.statements (n :: more)) c ⟨none, code ++ y.code.shift code.size⟩ c'
  | block {nodes c x c'} (inner : Yields (.statements nodes) c.entered x c') :
      Yields (.block nodes) c ⟨some .void, x.code ++ c'.frees⟩ { c'.left with prior := c.prior }

namespace Compile

open Compiler

variable {c c' : Compiler}

theorem typed_eq_ok {work : Compile (Ty × Fragment)} {x : Compiled} :
    Task.typed work c = .ok (x, c') ↔
      ∃ type code, work c = .ok ((type, code), c') ∧ x = ⟨some type, code⟩ := by
  unfold Task.typed
  rw [bind_eq_ok]
  constructor
  · rintro ⟨⟨type, code⟩, between, done, last⟩
    simp only [pure_eq_ok, Prod.mk.injEq] at last
    obtain ⟨rfl, rfl⟩ := last
    exact ⟨type, code, done, rfl⟩
  · rintro ⟨type, code, done, rfl⟩
    exact ⟨(type, code), c', done, rfl⟩

theorem joined_eq_ok {work : Compile (List Fragment)} {x : Compiled} :
    Task.joined work c = .ok (x, c') ↔
      ∃ parts, work c = .ok (parts, c') ∧ x = ⟨none, Fragment.sequence parts⟩ := by
  unfold Task.joined
  rw [bind_eq_ok]
  constructor
  · rintro ⟨parts, between, done, last⟩
    simp only [pure_eq_ok, Prod.mk.injEq] at last
    obtain ⟨rfl, rfl⟩ := last
    exact ⟨parts, done, rfl⟩
  · rintro ⟨parts, done, rfl⟩
    exact ⟨parts, c', done, rfl⟩

/-- Whenever the node compiles there is a derivation. -/
def Derived (n : Node) : Prop :=
  ∀ ⦃want : Option Ty⦄ ⦃c : Compiler⦄ ⦃x : Compiled⦄ ⦃c' : Compiler⦄,
    node n want c = .ok (x, c') → Yields (.node n want) c x c'

/-- Whenever the statements compile there is a derivation. -/
def AllDerived (nodes : List Node) : Prop :=
  ∀ ⦃c : Compiler⦄ ⦃parts : List Fragment⦄ ⦃c' : Compiler⦄, statements nodes c = .ok (parts, c') →
    Yields (.statements nodes) c ⟨none, Fragment.sequence parts⟩ c'

theorem Derived.operand {n : Node} {want : Ty} {role : Role} {code : Fragment} (inner : Derived n)
    (done : Compile.operand n want role (node n (some want)) c = .ok (code, c')) :
    Yields (.operand n want role) c ⟨some want, code⟩ c' := by
  unfold Compile.operand at done
  obtain ⟨⟨found, made⟩, between, compiled, rest⟩ := bind_eq_ok.mp done
  obtain ⟨⟨⟩, after, expected, last⟩ := bind_eq_ok.mp rest
  simp only [pure_eq_ok, Prod.mk.injEq] at last
  obtain ⟨rfl, rfl⟩ := last
  exact .operand (inner compiled) expected

theorem Derived.value {n : Node} {expected : Option Ty} {role : Role} {type : Ty} {code : Fragment}
    (inner : Derived n)
    (done : Compile.value n expected role (node n expected) c = .ok ((type, code), c')) :
    Yields (.value n expected role) c ⟨some type, code⟩ c' := by
  unfold Compile.value at done
  obtain ⟨⟨found, made⟩, between, compiled, rest⟩ := bind_eq_ok.mp done
  cases expected with
  | some want =>
    obtain ⟨⟨⟩, after, expects, more⟩ := bind_eq_ok.mp rest
    obtain ⟨given, last, required, made⟩ := bind_eq_ok.mp more
    obtain ⟨same, filled, rfl⟩ := requireValue_ok required
    simp only [pure_eq_ok, Prod.mk.injEq] at made
    obtain ⟨⟨rfl, rfl⟩, rfl⟩ := made
    cases same
    exact .valueOf (inner compiled) expects filled
  | none =>
    obtain ⟨given, last, required, made⟩ := bind_eq_ok.mp rest
    obtain ⟨same, filled, rfl⟩ := requireValue_ok required
    simp only [pure_eq_ok, Prod.mk.injEq] at made
    obtain ⟨⟨rfl, rfl⟩, rfl⟩ := made
    exact .valueFound (inner compiled) same filled

theorem AllDerived.block {nodes : List Node} {code : Fragment} (inner : AllDerived nodes)
    (done : Compile.block (statements nodes) c = .ok (code, c')) :
    Yields (.block nodes) c ⟨some .void, code⟩ c' := by
  simp only [Compile.block, get_bind, modify_bind, enterScope] at done
  obtain ⟨parts, between, compiled, rest⟩ := bind_eq_ok.mp done
  obtain ⟨frees, after, leaving, last⟩ := bind_eq_ok.mp rest
  rw [leaveScope_eq] at leaving
  cases leaving
  simp only [modify_bind, pure_eq_ok, Prod.mk.injEq] at last
  obtain ⟨rfl, rfl⟩ := last
  exact .block (inner compiled)

theorem derived_literal (value : Value) : Derived (.literal value) := by
  intro want c x c' done
  obtain ⟨code, between, emitted, last⟩ := bind_eq_ok.mp done
  obtain ⟨passes, rfl, rfl⟩ := emit_ok emitted
  simp only [pure_eq_ok, Prod.mk.injEq] at last
  obtain ⟨rfl, rfl⟩ := last
  exact .literal passes

theorem derived_unary (op : UnaryOp) {a : Node} (operand : Derived a) :
    Derived (.unary op a) := by
  intro want c x c' done
  obtain ⟨code, between, compiled, last⟩ := bind_eq_ok.mp done
  simp only [pure_eq_ok, Prod.mk.injEq] at last
  obtain ⟨rfl, rfl⟩ := last
  exact .unary (operand.operand compiled)

theorem derived_arith (op : Arith) {a b : Node} (left : Derived a) (right : Derived b) :
    Derived (.binary (.arith op) a b) := by
  intro want c x c' done
  obtain ⟨leftCode, between, first, rest⟩ := bind_eq_ok.mp done
  obtain ⟨rightCode, after, second, last⟩ := bind_eq_ok.mp rest
  simp only [pure_eq_ok, Prod.mk.injEq] at last
  obtain ⟨rfl, rfl⟩ := last
  exact .arith (left.operand first) (right.operand second)

theorem derived_order (op : Order) {a b : Node} (left : Derived a) (right : Derived b) :
    Derived (.binary (.order op) a b) := by
  intro want c x c' done
  obtain ⟨leftCode, between, first, rest⟩ := bind_eq_ok.mp done
  obtain ⟨rightCode, after, second, last⟩ := bind_eq_ok.mp rest
  simp only [pure_eq_ok, Prod.mk.injEq] at last
  obtain ⟨rfl, rfl⟩ := last
  exact .order (left.operand first) (right.operand second)

theorem derived_logic (op : Logic) {a b : Node} (left : Derived a) (right : Derived b) :
    Derived (.binary (.logic op) a b) := by
  intro want c x c' done
  obtain ⟨leftCode, between, first, rest⟩ := bind_eq_ok.mp done
  obtain ⟨rightCode, after, second, last⟩ := bind_eq_ok.mp rest
  simp only [pure_eq_ok, Prod.mk.injEq] at last
  obtain ⟨rfl, rfl⟩ := last
  exact .logic (x := ⟨_, leftCode⟩) (y := ⟨_, rightCode⟩) (left.operand first)
    (right.operand second)

theorem Derived.sides {op : BinaryOp} {i : Instruction} {a b : Node} {want : Option Ty}
    {code : Fragment} (left : Derived a) (right : Derived b) (compares : op.comparison? = some i)
    (done : Compile.sides op a b (node a none) (fun type => node b type) c = .ok (code, c')) :
    Yields (.node (.binary op a b) want) c ⟨some .boolean, code ++ [i]⟩ c' := by
  unfold Compile.sides at done
  obtain ⟨⟨leftType, leftCode⟩, c₁, leftCompiled, rest⟩ := bind_eq_ok.mp done
  by_cases leftVoid : leftType = some .void
  · simp [leftVoid] at rest
  simp only [leftVoid, if_false] at rest
  obtain ⟨⟨rightType, rightCode⟩, c₂, rightCompiled, more⟩ := bind_eq_ok.mp rest
  by_cases rightVoid : rightType = some .void
  · simp [rightVoid] at more
  simp only [rightVoid, if_false] at more
  obtain ⟨⟨⟩, c₃, agreed, last⟩ := bind_eq_ok.mp more
  simp only [pure_eq_ok, Prod.mk.injEq] at last
  obtain ⟨rfl, rfl⟩ := last
  exact .comparison compares (left leftCompiled) leftVoid (right rightCompiled) rightVoid agreed

theorem derived_equal {a b : Node} (left : Derived a) (right : Derived b) :
    Derived (.binary .equal a b) := by
  intro want c x c' done
  obtain ⟨code, between, compiled, last⟩ := bind_eq_ok.mp done
  simp only [pure_eq_ok, Prod.mk.injEq] at last
  obtain ⟨rfl, rfl⟩ := last
  exact left.sides right rfl compiled

theorem derived_notEqual {a b : Node} (left : Derived a) (right : Derived b) :
    Derived (.binary .notEqual a b) := by
  intro want c x c' done
  obtain ⟨code, between, compiled, last⟩ := bind_eq_ok.mp done
  simp only [pure_eq_ok, Prod.mk.injEq] at last
  obtain ⟨rfl, rfl⟩ := last
  exact left.sides right rfl compiled

theorem derived_result : Derived .result := by
  intro want c x c' done
  replace done := (get_bind _).symm.trans done
  by_cases void : c.prior = .void
  · simp [void] at done
  simp only [void, if_false] at done
  obtain ⟨slot, between, found, last⟩ := bind_eq_ok.mp done
  simp only [pure_eq_ok, Prod.mk.injEq] at last
  obtain ⟨rfl, rfl⟩ := last
  exact .result void found

theorem derived_var (name : String) : Derived (.var name) := fun _ _ _ _ done => .var done

theorem derived_assign (name : String) {a : Node} (value : Derived a) :
    Derived (.assign name a) := by
  intro want c x c' done
  replace done := (get_bind _).symm.trans done
  cases isParam : c.param? name with
  | some place =>
    obtain ⟨position, param⟩ := place
    simp only [paramIndex?_of_param isParam] at done
    rw [bind_of_ok (paramAt_of_param isParam)] at done
    obtain ⟨⟨found, code⟩, between, compiled, rest⟩ := bind_eq_ok.mp done
    have resolved : (if param.type.isNone then resolveParam position found else pure ())
        between = .ok ((), c') ∧ x = ⟨some .void, code ++ [Instruction.store param.slot]⟩ := by
      by_cases isOpen : param.type.isNone
      · simp only [isOpen, if_true] at rest ⊢
        obtain ⟨⟨⟩, after, settled, last⟩ := bind_eq_ok.mp rest
        simp only [pure_eq_ok, Prod.mk.injEq] at last
        exact ⟨last.2 ▸ settled, last.1⟩
      · simp only [isOpen, Bool.false_eq_true, if_false, pure_eq_ok, Prod.mk.injEq] at rest ⊢
        exact ⟨⟨trivial, rest.2⟩, rest.1⟩
    obtain ⟨resolved, rfl⟩ := resolved
    exact .assignParam isParam (value.value compiled) rfl resolved
  | none =>
    cases isVariable : c.scope.find? name with
    | none => simp [paramIndex?_eq_none.mpr isParam, isVariable] at done
    | some target =>
      simp only [paramIndex?_eq_none.mpr isParam, isVariable] at done
      obtain ⟨⟨found, code⟩, between, compiled, last⟩ := bind_eq_ok.mp done
      simp only [pure_eq_ok, Prod.mk.injEq] at last
      obtain ⟨rfl, rfl⟩ := last
      exact .assignVariable isParam isVariable (value.value compiled)

theorem derived_branch {test : Node} {body : List Node} (condition : Derived test)
    (inner : AllDerived body) : Derived (.branch test body none) := by
  intro want c x c' done
  obtain ⟨testCode, c₁, first, rest⟩ := bind_eq_ok.mp done
  obtain ⟨bodyCode, c₂, second, last⟩ := bind_eq_ok.mp rest
  simp only [pure_eq_ok, Prod.mk.injEq] at last
  obtain ⟨rfl, rfl⟩ := last
  exact .branch (x := ⟨_, testCode⟩) (y := ⟨_, bodyCode⟩) (condition.operand first)
    (inner.block second)

theorem derived_alternative {test : Node} {body other : List Node} (condition : Derived test)
    (inner : AllDerived body) (otherwise : AllDerived other) :
    Derived (.branch test body (some other)) := by
  intro want c x c' done
  obtain ⟨testCode, c₁, first, rest⟩ := bind_eq_ok.mp done
  obtain ⟨bodyCode, c₂, second, more⟩ := bind_eq_ok.mp rest
  obtain ⟨otherCode, c₃, third, last⟩ := bind_eq_ok.mp more
  simp only [pure_eq_ok, Prod.mk.injEq] at last
  obtain ⟨rfl, rfl⟩ := last
  exact .alternative (x := ⟨_, testCode⟩) (y := ⟨_, bodyCode⟩) (z := ⟨_, otherCode⟩)
    (condition.operand first) (inner.block second) (otherwise.block third)

theorem derived_loop {test : Node} {body : List Node} (condition : Derived test)
    (inner : AllDerived body) : Derived (.loop test body) := by
  intro want c x c' done
  obtain ⟨testCode, c₁, first, rest⟩ := bind_eq_ok.mp done
  obtain ⟨bodyCode, c₂, second, last⟩ := bind_eq_ok.mp rest
  simp only [pure_eq_ok, Prod.mk.injEq] at last
  obtain ⟨rfl, rfl⟩ := last
  exact .loop (x := ⟨_, testCode⟩) (y := ⟨_, bodyCode⟩) (condition.operand first)
    (inner.block second)

theorem derived_times {count : Node} {body : List Node} (amount : Derived count)
    (inner : AllDerived body) : Derived (.times count body) := by
  intro want c x c' done
  replace done := (modify_bind _ _).symm.trans done
  obtain ⟨countCode, c₁, first, rest⟩ := bind_eq_ok.mp done
  obtain ⟨threshold, c₂, second, rest₁⟩ := bind_eq_ok.mp rest
  obtain ⟨counter, c₃, third, rest₂⟩ := bind_eq_ok.mp rest₁
  obtain ⟨bodyCode, c₄, fourth, rest₃⟩ := bind_eq_ok.mp rest₂
  obtain ⟨frees, after, leaving, last⟩ := bind_eq_ok.mp rest₃
  rw [leaveScope_eq] at leaving
  cases leaving
  simp only [pure_eq_ok, Prod.mk.injEq] at last
  obtain ⟨rfl, rfl⟩ := last
  exact .times (x := ⟨_, countCode⟩) (y := ⟨_, bodyCode⟩) (amount.operand first) second third
    (inner.block fourth)

theorem derived_define (name : String) (params : List Param) (returns : Option Ty)
    {body : List Node} (inner : AllDerived body) : Derived (.define name params returns body) := by
  intro want c x c' done
  obtain ⟨⟨⟩, c₁, started, rest⟩ := bind_eq_ok.mp done
  obtain ⟨code, c₂, compiled, more⟩ := bind_eq_ok.mp rest
  obtain ⟨⟨⟩, c₃, finished, last⟩ := bind_eq_ok.mp more
  simp only [pure_eq_ok, Prod.mk.injEq] at last
  obtain ⟨rfl, rfl⟩ := last
  exact .define started (inner.block compiled) finished

theorem derived_convert {a : Node} (target : Ty) (value : Derived a) :
    Derived (.convert a target) := by
  intro want c x c' done
  obtain ⟨⟨found, code⟩, c₁, compiled, rest⟩ := bind_eq_ok.mp done
  obtain ⟨source, c₂, required, last⟩ := bind_eq_ok.mp rest
  obtain ⟨typed, filled, rfl⟩ := requireValue_ok required
  by_cases converts : source.convertsTo target
  · simp only [converts, Bool.not_true, Bool.false_eq_true, if_false, pure_eq_ok,
      Prod.mk.injEq] at last
    obtain ⟨rfl, rfl⟩ := last
    exact .convert (value compiled) typed filled converts
  · simp [converts] at last

theorem derived_item {index list : Node} (place : Derived index) (items : Derived list) :
    Derived (.item index list) := by
  intro want c x c' done
  obtain ⟨listCode, c₁, first, rest⟩ := bind_eq_ok.mp done
  obtain ⟨indexCode, c₂, second, last⟩ := bind_eq_ok.mp rest
  cases want with
  | none => simp at last
  | some type =>
    have filled : type ≠ .void := by
      rintro rfl
      simp at last
    have made : x = ⟨some type, Fragment.sequence [listCode, indexCode, [.getItem type]]⟩ ∧
        c' = c₂ := by
      cases type with
      | void => exact absurd rfl filled
      | _ => simpa only [pure_bind, pure_eq_ok, Prod.mk.injEq] using last
    obtain ⟨rfl, rfl⟩ := made
    exact .item filled (items.operand first) (place.operand second)

theorem derived_setItem {index list a : Node} (place : Derived index) (items : Derived list)
    (value : Derived a) : Derived (.setItem index list a) := by
  intro want c x c' done
  cases list with
  | var name =>
    obtain ⟨listCode, c₁, first, rest⟩ := bind_eq_ok.mp done
    obtain ⟨slot, between, located, more⟩ := bind_eq_ok.mp rest
    obtain ⟨found, rfl⟩ := slotOf_ok located
    obtain ⟨indexCode, c₂, second, rest₁⟩ := bind_eq_ok.mp more
    obtain ⟨⟨type, valueCode⟩, c₃, third, last⟩ := bind_eq_ok.mp rest₁
    simp only [pure_eq_ok, Prod.mk.injEq] at last
    obtain ⟨rfl, rfl⟩ := last
    exact .setItem (items.operand first) found (place.operand second) (value.value third)
  | _ => simp [node] at done

theorem derived_declare {name : String} {type : Option Ty} {start : Option Node}
    (initial : ∀ {c found code c'}, Compile.initial name type start c = .ok ((found, code), c') →
      Yields (.initial name type start) c ⟨some found, code⟩ c') :
    Derived (.declare name type start) := by
  intro want c x c' done
  replace done := (get_bind _).symm.trans done
  by_cases visible : c.isVisible name
  · simp [visible] at done
  simp only [visible, Bool.false_eq_true, if_false] at done
  obtain ⟨slot, between, allocated, rest⟩ := bind_eq_ok.mp done
  obtain ⟨⟨found, code⟩, after, compiled, last⟩ := bind_eq_ok.mp rest
  simp only [modify_bind, pure_eq_ok, Prod.mk.injEq] at last
  obtain ⟨rfl, rfl⟩ := last
  exact .declare (by simpa using visible) allocated (initial compiled) rfl

theorem derived_call {name : String} {args : List Node}
    (given : ∀ {callee c parts c'}, arguments callee 0 args c = .ok (parts, c') →
      Yields (.arguments callee 0 args) c ⟨none, Fragment.sequence parts⟩ c') :
    Derived (.call name args) := by
  intro want c x c' done
  obtain ⟨callee, between, found, rest⟩ := bind_eq_ok.mp done
  obtain ⟨-, rfl⟩ := find_ok found
  by_cases arity : callee.arity = args.length
  · simp only [arity, ne_eq, not_true, if_false] at rest
    obtain ⟨parts, after, compiled, last⟩ := bind_eq_ok.mp rest
    exact .call found arity (given compiled) last
  · simp [arity] at rest

theorem derived_giveBack {value : Option Node}
    (given : ∀ {draft c found code c'}, givenBack draft value c = .ok ((found, code), c') →
      Yields (.givenBack draft value) c ⟨some found, code⟩ c') :
    Derived (.giveBack value) := by
  intro want c x c' done
  replace done := (get_bind _).symm.trans done
  cases inside : c.draft with
  | none => simp [inside] at done
  | some draft =>
    simp only [inside] at done
    obtain ⟨⟨found, code⟩, c₁, compiled, rest⟩ := bind_eq_ok.mp done
    obtain ⟨⟨⟩, c₂, noted, last⟩ := bind_eq_ok.mp rest
    simp only [pure_eq_ok, Prod.mk.injEq] at last
    obtain ⟨rfl, rfl⟩ := last
    exact .giveBack inside (given compiled) rfl noted

theorem derived_list {nodes : List Node}
    (each : ∀ {c parts c'}, items 0 nodes c = .ok (parts, c') →
      Yields (.items 0 nodes) c ⟨none, Fragment.sequence parts⟩ c') : Derived (.list nodes) := by
  intro want c x c' done
  simp only [node] at done
  cases all : Node.literals? nodes with
  | some values =>
    simp only [all] at done
    obtain ⟨code, between, emitted, last⟩ := bind_eq_ok.mp done
    obtain ⟨passes, rfl, rfl⟩ := emit_ok emitted
    simp only [pure_eq_ok, Prod.mk.injEq] at last
    obtain ⟨rfl, rfl⟩ := last
    exact .literals all passes
  | none =>
    cases short : EncodeFault.checkLength .list nodes.length with
    | error fault => simp [all, short] at done
    | ok passed =>
      simp only [all, short] at done
      obtain ⟨parts, between, compiled, last⟩ := bind_eq_ok.mp done
      simp only [pure_eq_ok, Prod.mk.injEq] at last
      obtain ⟨rfl, rfl⟩ := last
      exact .list all short (each compiled)

theorem initial_yields {name : String} {type : Option Ty} {start : Option Node} {found : Ty}
    {code : Fragment} (inner : ∀ n, start = some n → Derived n)
    (done : initial name type start c = .ok ((found, code), c')) :
    Yields (.initial name type start) c ⟨some found, code⟩ c' := by
  cases start with
  | some start => exact .initialValue ((inner start rfl).value done)
  | none =>
    cases type with
    | none => simp [initial] at done
    | some type =>
      cases default : Value.initial? type with
      | none => simp [initial, default] at done
      | some start =>
        simp only [initial, default] at done
        obtain ⟨code, between, emitted, last⟩ := bind_eq_ok.mp done
        obtain ⟨passes, rfl, rfl⟩ := emit_ok emitted
        simp only [pure_eq_ok, Prod.mk.injEq] at last
        obtain ⟨⟨rfl, rfl⟩, rfl⟩ := last
        exact .initialDefault default passes

theorem givenBack_yields {draft : Draft} {value : Option Node} {found : Ty} {code : Fragment}
    (inner : ∀ n, value = some n → Derived n)
    (done : givenBack draft value c = .ok ((found, code), c')) :
    Yields (.givenBack draft value) c ⟨some found, code⟩ c' := by
  cases value with
  | none =>
    simp only [givenBack, pure_eq_ok, Prod.mk.injEq] at done
    obtain ⟨⟨rfl, rfl⟩, rfl⟩ := done
    exact .giveNothing
  | some expr =>
    by_cases declared : draft.declared
    · simp only [givenBack, declared, if_true] at done
      exact .giveDeclared declared ((inner expr rfl).value done)
    · simp only [givenBack, declared, Bool.false_eq_true, if_false] at done
      obtain ⟨⟨type, made⟩, c₁, compiled, rest⟩ := bind_eq_ok.mp done
      obtain ⟨given, c₂, required, last⟩ := bind_eq_ok.mp rest
      obtain ⟨typed, filled, rfl⟩ := requireValue_ok required
      simp only [pure_eq_ok, Prod.mk.injEq] at last
      obtain ⟨⟨rfl, rfl⟩, rfl⟩ := last
      exact .giveFound (by simpa using declared) (inner expr rfl compiled) typed filled

theorem arguments_yields {callee : Callee} {nodes : List Node} (inner : ∀ n ∈ nodes, Derived n)
    {position : Nat} {c : Compiler} {parts : List Fragment}
    (done : arguments callee position nodes c = .ok (parts, c')) :
    Yields (.arguments callee position nodes) c ⟨none, Fragment.sequence parts⟩ c' := by
  induction nodes generalizing position c parts with
  | nil =>
    simp only [arguments, pure_eq_ok, Prod.mk.injEq] at done
    obtain ⟨rfl, rfl⟩ := done
    exact .noArguments
  | cons a more ih =>
    simp only [arguments] at done
    obtain ⟨expected, between, wanted, rest⟩ := bind_eq_ok.mp done
    obtain rfl := expected_ok wanted
    obtain ⟨⟨found, code⟩, c₁, compiled, rest₁⟩ := bind_eq_ok.mp rest
    have split : ∃ c₂ others, (if expected.isNone then resolveParam position found else pure ())
        c₁ = .ok ((), c₂) ∧ arguments callee (position + 1) more c₂ = .ok (others, c') ∧
        parts = code :: others := by
      by_cases isOpen : expected.isNone
      · simp only [isOpen, if_true] at rest₁ ⊢
        obtain ⟨⟨⟩, c₂, settled, rest₂⟩ := bind_eq_ok.mp rest₁
        obtain ⟨others, c₃, given, last⟩ := bind_eq_ok.mp rest₂
        simp only [pure_eq_ok, Prod.mk.injEq] at last
        obtain ⟨rfl, rfl⟩ := last
        exact ⟨c₂, others, settled, given, rfl⟩
      · simp only [isOpen, Bool.false_eq_true, if_false] at rest₁ ⊢
        obtain ⟨others, c₃, given, last⟩ := bind_eq_ok.mp rest₁
        simp only [pure_eq_ok, Prod.mk.injEq] at last
        obtain ⟨rfl, rfl⟩ := last
        exact ⟨c₁, others, rfl, given, rfl⟩
    obtain ⟨c₂, others, resolved, given, rfl⟩ := split
    rw [Fragment.sequence_cons]
    exact .moreArguments wanted ((inner a List.mem_cons_self).value compiled) rfl resolved
      (ih (fun n member => inner n (List.mem_cons_of_mem a member)) given)

theorem items_yields {nodes : List Node} (inner : ∀ n ∈ nodes, Derived n) {position : Nat}
    {c : Compiler} {parts : List Fragment} (done : items position nodes c = .ok (parts, c')) :
    Yields (.items position nodes) c ⟨none, Fragment.sequence parts⟩ c' := by
  induction nodes generalizing position c parts with
  | nil =>
    simp only [items, pure_eq_ok, Prod.mk.injEq] at done
    obtain ⟨rfl, rfl⟩ := done
    exact .noItems
  | cons a more ih =>
    simp only [items] at done
    obtain ⟨⟨found, code⟩, c₁, compiled, rest⟩ := bind_eq_ok.mp done
    obtain ⟨others, c₂, given, last⟩ := bind_eq_ok.mp rest
    simp only [pure_eq_ok, Prod.mk.injEq] at last
    obtain ⟨rfl, rfl⟩ := last
    rw [Fragment.sequence_cons]
    exact .moreItems ((inner a List.mem_cons_self).value compiled)
      (ih (fun n member => inner n (List.mem_cons_of_mem a member)) given)

theorem statements_yields {nodes : List Node} (inner : ∀ n ∈ nodes, Derived n) :
    AllDerived nodes := by
  induction nodes with
  | nil =>
    intro c parts c' done
    simp only [statements, pure_eq_ok, Prod.mk.injEq] at done
    obtain ⟨rfl, rfl⟩ := done
    exact .noStatements
  | cons n more ih =>
    intro c parts c' done
    simp only [statements] at done
    obtain ⟨compiled, c₁, first, rest⟩ := bind_eq_ok.mp done
    obtain ⟨code, c₂, finished, rest₁⟩ := bind_eq_ok.mp rest
    obtain ⟨others, c₃, given, last⟩ := bind_eq_ok.mp rest₁
    simp only [pure_eq_ok, Prod.mk.injEq] at last
    obtain ⟨rfl, rfl⟩ := last
    rw [Fragment.sequence_cons]
    exact .moreStatements (inner n List.mem_cons_self first) finished
      (ih (fun other member => inner other (List.mem_cons_of_mem n member)) given)

/-- Every node that compiles has a derivation. -/
theorem derived (n : Node) : Derived n := by
  match n with
  | .literal value => exact derived_literal value
  | .unary op a => exact derived_unary op (derived a)
  | .binary (.arith op) a b => exact derived_arith op (derived a) (derived b)
  | .binary (.order op) a b => exact derived_order op (derived a) (derived b)
  | .binary (.logic op) a b => exact derived_logic op (derived a) (derived b)
  | .binary .equal a b => exact derived_equal (derived a) (derived b)
  | .binary .notEqual a b => exact derived_notEqual (derived a) (derived b)
  | .result => exact derived_result
  | .var name => exact derived_var name
  | .declare name type start =>
    exact derived_declare (initial_yields fun n _ => derived n)
  | .assign name a => exact derived_assign name (derived a)
  | .branch test body none =>
    have inner : ∀ n ∈ body, Derived n := fun n member => by
      have smaller := List.sizeOf_lt_of_mem member
      exact derived n
    exact derived_branch (derived test) (statements_yields inner)
  | .branch test body (some other) =>
    exact derived_alternative (derived test) (statements_yields fun n _ => derived n)
      (statements_yields fun n _ => derived n)
  | .loop test body => exact derived_loop (derived test) (statements_yields fun n _ => derived n)
  | .times count body =>
    exact derived_times (derived count) (statements_yields fun n _ => derived n)
  | .call name args => exact derived_call (arguments_yields fun n _ => derived n)
  | .define name params returns body =>
    exact derived_define name params returns (statements_yields fun n _ => derived n)
  | .convert a target => exact derived_convert target (derived a)
  | .giveBack value => exact derived_giveBack (givenBack_yields fun n _ => derived n)
  | .list nodes => exact derived_list (items_yields fun n _ => derived n)
  | .item index list => exact derived_item (derived index) (derived list)
  | .setItem index list a => exact derived_setItem (derived index) (derived list) (derived a)
termination_by sizeOf n

end Compile

open Compile Compiler

/-- A task that succeeds has a derivation. -/
theorem Task.yields {task : Task} {c c' : Compiler} {x : Compiled}
    (done : task.run c = .ok (x, c')) : Yields task c x c' := by
  cases task with
  | node n want => exact derived n done
  | operand n want role =>
    obtain ⟨type, code, inner, rfl⟩ := typed_eq_ok.mp done
    obtain ⟨made, between, compiled, last⟩ := bind_eq_ok.mp inner
    simp only [pure_eq_ok, Prod.mk.injEq] at last
    obtain ⟨⟨rfl, rfl⟩, rfl⟩ := last
    exact (derived n).operand compiled
  | value n expected role =>
    obtain ⟨type, code, inner, rfl⟩ := typed_eq_ok.mp done
    exact (derived n).value inner
  | initial name type start =>
    obtain ⟨found, code, inner, rfl⟩ := typed_eq_ok.mp done
    exact initial_yields (fun n _ => derived n) inner
  | givenBack draft value =>
    obtain ⟨found, code, inner, rfl⟩ := typed_eq_ok.mp done
    exact givenBack_yields (fun n _ => derived n) inner
  | arguments callee position nodes =>
    obtain ⟨parts, inner, rfl⟩ := joined_eq_ok.mp done
    exact arguments_yields (fun n _ => derived n) inner
  | items position nodes =>
    obtain ⟨parts, inner, rfl⟩ := joined_eq_ok.mp done
    exact items_yields (fun n _ => derived n) inner
  | statements nodes =>
    obtain ⟨parts, inner, rfl⟩ := joined_eq_ok.mp done
    exact statements_yields (fun n _ => derived n) inner
  | block nodes =>
    obtain ⟨type, code, inner, rfl⟩ := typed_eq_ok.mp done
    obtain ⟨made, between, compiled, last⟩ := bind_eq_ok.mp inner
    simp only [pure_eq_ok, Prod.mk.injEq] at last
    obtain ⟨⟨rfl, rfl⟩, rfl⟩ := last
    exact (statements_yields fun n _ => derived n).block compiled

theorem Task.operand_run {n : Node} {want : Ty} {role : Role} {c c' : Compiler} {x : Compiled}
    (done : (Task.operand n want role).run c = .ok (x, c')) :
    Compile.operand n want role (Compile.node n (some want)) c = .ok (x.code, c') := by
  obtain ⟨type, code, inner, rfl⟩ := typed_eq_ok.mp done
  obtain ⟨made, between, compiled, last⟩ := bind_eq_ok.mp inner
  simp only [pure_eq_ok, Prod.mk.injEq] at last
  obtain ⟨⟨rfl, rfl⟩, rfl⟩ := last
  exact compiled

theorem Task.block_run {nodes : List Node} {c c' : Compiler} {x : Compiled}
    (done : (Task.block nodes).run c = .ok (x, c')) :
    Compile.block (Compile.statements nodes) c = .ok (x.code, c') := by
  obtain ⟨type, code, inner, rfl⟩ := typed_eq_ok.mp done
  obtain ⟨made, between, compiled, last⟩ := bind_eq_ok.mp inner
  simp only [pure_eq_ok, Prod.mk.injEq] at last
  obtain ⟨⟨rfl, rfl⟩, rfl⟩ := last
  exact compiled

theorem Task.value_run {n : Node} {expected : Option Ty} {role : Role} {c c' : Compiler}
    {x : Compiled} {found : Ty} (done : (Task.value n expected role).run c = .ok (x, c'))
    (typed : x.type = some found) :
    Compile.value n expected role (Compile.node n expected) c = .ok ((found, x.code), c') := by
  obtain ⟨type, code, inner, rfl⟩ := typed_eq_ok.mp done
  cases typed
  exact inner

theorem Task.node_run {n : Node} {want : Option Ty} {c c' : Compiler} {x : Compiled}
    (done : (Task.node n want).run c = .ok (x, c')) : Compile.node n want c = .ok (x, c') := done

theorem Compile.requireValue_of {type : Ty} (filled : type ≠ .void) (role : Role) (c : Compiler) :
    requireValue (some type) role c = .ok (type, c) := by
  cases type with
  | void => exact absurd rfl filled
  | _ => rfl

theorem Compile.sides_of {op : BinaryOp} {a b : Node} {first : Compile Compiled}
    {second : Option Ty → Compile Compiled} {c c₁ c₂ c' : Compiler} {x y : Compiled}
    (left : first c = .ok (x, c₁)) (leftValue : x.type ≠ some .void)
    (right : second x.type c₁ = .ok (y, c₂)) (rightValue : y.type ≠ some .void)
    (agreed : agree op a b x.type y.type c₂ = .ok ((), c')) :
    sides op a b first second c = .ok (Fragment.sequence [x.code, y.code], c') := by
  rw [sides, bind_of_ok left]
  simp only [leftValue, if_false]
  rw [bind_of_ok right]
  simp only [rightValue, if_false]
  rw [bind_of_ok agreed]
  rfl

-- The step that settles an open type, where there is one, and what follows it.
theorem Compile.optional_of {β : Type} {p : Bool} {step : Compile Unit} {next : Compile β}
    {c c' : Compiler} (done : (if p then step else pure ()) c = .ok ((), c')) :
    (do
      if p then step
      next) c = next c' := by
  cases p with
  | true =>
    simp only [if_true] at done ⊢
    exact bind_of_ok done
  | false =>
    simp only [Bool.false_eq_true, if_false, pure_eq_ok, Prod.mk.injEq, true_and] at done ⊢
    rw [done]

/-- A derivation says what the task does. -/
theorem Yields.run {task : Task} {c c' : Compiler} {x : Compiled}
    (derivation : Yields task c x c') : task.run c = .ok (x, c') := by
  induction derivation with
  | literal passes =>
    rw [Task.run, Compile.node, emit, passes]
    rfl
  | unary _ operand =>
    rw [Task.run, Compile.node, bind_of_ok (Task.operand_run operand)]
    rfl
  | arith _ _ first second | order _ _ first second | logic _ _ first second =>
    rw [Task.run, Compile.node, bind_of_ok (Task.operand_run first),
      bind_of_ok (Task.operand_run second)]
    rfl
  | @comparison op i a b want c x c₁ y c₂ c' compares _ firstValue _ secondValue agreed
      first second =>
    have both := Compile.sides_of first firstValue second secondValue agreed
    cases op with
    | equal | notEqual =>
      cases compares
      exact (bind_of_ok both).trans rfl
    | arith | order | logic => cases compares
  | result available found =>
    rw [Task.run, Compile.node, get_bind]
    simp only [available, if_false]
    rw [bind_of_ok found]
    rfl
  | var found => exact found
  | declare fresh allocated _ typed start =>
    obtain ⟨type, code, inner, rfl⟩ := typed_eq_ok.mp start
    cases typed
    rw [Task.run, Compile.node, get_bind]
    simp only [fresh, Bool.false_eq_true, if_false]
    rw [bind_of_ok allocated, bind_of_ok inner]
    rfl
  | assignParam isParam _ typed resolved value =>
    rw [Task.run, Compile.node, get_bind]
    simp only [paramIndex?_of_param isParam]
    rw [bind_of_ok (paramAt_of_param isParam), bind_of_ok (Task.value_run value typed)]
    exact optional_of resolved
  | assignVariable noParam isVariable _ value =>
    rw [Task.run, Compile.node, get_bind]
    simp only [paramIndex?_eq_none.mpr noParam, isVariable]
    obtain ⟨type, code, inner, rfl⟩ := typed_eq_ok.mp value
    rw [bind_of_ok inner]
    rfl
  | branch _ _ condition inner =>
    rw [Task.run, Compile.node, bind_of_ok (Task.operand_run condition),
      bind_of_ok (Task.block_run inner)]
    rfl
  | alternative _ _ _ condition inner otherwise =>
    rw [Task.run, Compile.node, bind_of_ok (Task.operand_run condition),
      bind_of_ok (Task.block_run inner)]
    simp only
    rw [bind_of_ok (Task.block_run otherwise)]
    rfl
  | loop _ _ condition inner =>
    rw [Task.run, Compile.node, bind_of_ok (Task.operand_run condition),
      bind_of_ok (Task.block_run inner)]
    rfl
  | times _ first second _ amount inner =>
    rw [Task.run, Compile.node, enterScope, modify_bind, bind_of_ok (Task.operand_run amount),
      bind_of_ok first, bind_of_ok second, bind_of_ok (Task.block_run inner),
      bind_of_ok (leaveScope_eq _)]
    rfl
  | call found arity _ finished given =>
    obtain ⟨parts, inner, rfl⟩ := joined_eq_ok.mp given
    rw [Task.run, Compile.node, bind_of_ok found]
    simp only [arity, ne_eq, not_true, if_false]
    rw [bind_of_ok inner]
    exact finished
  | define started _ finished inner =>
    rw [Task.run, Compile.node, bind_of_ok started, bind_of_ok (Task.block_run inner),
      bind_of_ok finished]
    rfl
  | convert _ typed filled converts value =>
    rw [Task.run, Compile.node, bind_of_ok (Task.node_run value)]
    simp only [typed]
    rw [bind_of_ok (requireValue_of filled _ _)]
    simp only [converts, Bool.not_true, Bool.false_eq_true, if_false]
    rfl
  | giveBack inside _ typed noted given =>
    obtain ⟨type, code, inner, rfl⟩ := typed_eq_ok.mp given
    cases typed
    rw [Task.run, Compile.node, get_bind]
    simp only [inside]
    rw [bind_of_ok inner, bind_of_ok noted]
    rfl
  | literals all passes =>
    rw [Task.run, Compile.node]
    simp only [all, emit, passes]
    rfl
  | list mixed short _ items =>
    obtain ⟨parts, inner, rfl⟩ := joined_eq_ok.mp items
    rw [Task.run, Compile.node]
    simp only [mixed, short]
    rw [bind_of_ok inner]
    rfl
  | @item index list type c x c₁ y c' filled _ _ items place =>
    rw [Task.run, Compile.node, bind_of_ok (Task.operand_run items),
      bind_of_ok (Task.operand_run place)]
    cases type with
    | void => exact absurd rfl filled
    | _ => rfl
  | @setItem index name a want c x c₁ slot y c₂ z c' _ found _ _ items place value =>
    obtain ⟨type, code, inner, rfl⟩ := typed_eq_ok.mp value
    rw [Task.run, Compile.node, bind_of_ok (Task.operand_run items),
      bind_of_ok (slotOf_of_slot found), bind_of_ok (Task.operand_run place), bind_of_ok inner]
    rfl
  | operand _ expected inner =>
    refine typed_eq_ok.mpr ⟨_, _, bind_eq_ok.mpr ⟨_, _, ?_, rfl⟩, rfl⟩
    rw [Compile.operand, bind_of_ok (Task.node_run inner)]
    exact (bind_of_ok expected).trans rfl
  | valueOf _ expected filled inner =>
    refine typed_eq_ok.mpr ⟨_, _, ?_, rfl⟩
    rw [Compile.value, bind_of_ok (Task.node_run inner)]
    exact (bind_of_ok expected).trans ((bind_of_ok (requireValue_of filled _ _)).trans rfl)
  | valueFound _ typed filled inner =>
    refine typed_eq_ok.mpr ⟨_, _, ?_, rfl⟩
    rw [Compile.value, bind_of_ok (Task.node_run inner)]
    simp only [typed]
    exact (bind_of_ok (requireValue_of filled _ _)).trans rfl
  | initialValue _ inner => exact inner
  | initialDefault default passes =>
    refine typed_eq_ok.mpr ⟨_, _, ?_, rfl⟩
    simp only [initial, default, emit, passes]
    rfl
  | giveNothing => rfl
  | giveDeclared declared _ inner =>
    obtain ⟨type, code, compiled, rfl⟩ := typed_eq_ok.mp inner
    refine typed_eq_ok.mpr ⟨_, _, ?_, rfl⟩
    simp only [givenBack, declared, if_true]
    exact compiled
  | giveFound undeclared _ typed filled inner =>
    refine typed_eq_ok.mpr ⟨_, _, ?_, rfl⟩
    simp only [givenBack, undeclared, Bool.false_eq_true, if_false]
    rw [bind_of_ok (Task.node_run inner)]
    simp only [typed]
    exact (bind_of_ok (requireValue_of filled _ _)).trans rfl
  | noArguments => rfl
  | moreArguments wanted _ typed resolved _ first rest =>
    obtain ⟨parts, others, rfl⟩ := joined_eq_ok.mp rest
    refine joined_eq_ok.mpr ⟨_ :: parts, ?_, by rw [Fragment.sequence_cons]⟩
    rw [arguments, bind_of_ok wanted, bind_of_ok (Task.value_run first typed)]
    exact (optional_of resolved).trans ((bind_of_ok others).trans rfl)
  | noItems => rfl
  | moreItems _ _ first rest =>
    obtain ⟨parts, others, rfl⟩ := joined_eq_ok.mp rest
    obtain ⟨type, code, inner, rfl⟩ := typed_eq_ok.mp first
    refine joined_eq_ok.mpr ⟨code :: parts, ?_, by rw [Fragment.sequence_cons]⟩
    rw [items, bind_of_ok inner]
    exact (bind_of_ok others).trans rfl
  | noStatements => rfl
  | moreStatements _ finished _ first rest =>
    obtain ⟨parts, others, rfl⟩ := joined_eq_ok.mp rest
    refine joined_eq_ok.mpr ⟨_ :: parts, ?_, by rw [Fragment.sequence_cons]⟩
    rw [statements, bind_of_ok (Task.node_run first), bind_of_ok finished, bind_of_ok others]
    rfl
  | block _ inner =>
    obtain ⟨parts, others, rfl⟩ := joined_eq_ok.mp inner
    refine typed_eq_ok.mpr ⟨_, _, bind_eq_ok.mpr ⟨_, _, ?_, rfl⟩, rfl⟩
    rw [Compile.block, get_bind, modify_bind, enterScope, modify_bind]
    exact (bind_of_ok others).trans ((bind_of_ok (leaveScope_eq _)).trans rfl)

end Primer
