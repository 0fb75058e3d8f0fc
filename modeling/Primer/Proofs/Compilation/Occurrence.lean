import Primer.Proofs.Compilation.Derivation

/-!
Where the parts of a task are compiled: at which offset their code stands, and in which state the
compiler is when it comes to them. `Part` goes one level down, and `Occurs` any number of levels.
-/

set_option autoImplicit false
set_option relaxedAutoImplicit false

namespace Primer

namespace Fragment

/-- The left side of a short circuit, with the test whether it decides. -/
def deciding (op : Logic) (left : Fragment) : Fragment :=
  match op with
  | .and => left ++ [.invert]
  | .or => left

/-- Where the right side of a short circuit starts. -/
def rightStart (op : Logic) (left : Fragment) : Nat := size (deciding op left) + jumpSize

/-- The count of a loop, and the test whether there is nothing to do. -/
def counted (count : Fragment) : Fragment :=
  count ++ [.dup, .push (.number .zero), .order .lessEq]

/-- Where the body of a counted loop starts. -/
def roundStart (count : Fragment) (threshold counter : UInt8) : Nat :=
  size (counted count) + jumpSize +
    size [.store threshold, .push (.number .zero), .store counter]

/-- Count a round, and test whether there is another one. -/
def advance (threshold counter : UInt8) : Fragment :=
  [.load counter, .push (.number .one), .arith .add, .dup, .store counter, .load threshold,
    .order .less]

end Fragment

/-- A task is a part of another, with the offset of its code and the state that it starts in. -/
inductive Part : Task → Compiler → Nat → Task → Compiler → Prop
  | unary {op a want c} : Part (.node (.unary op a) want) c 0 (.operand a op.type op.role) c
  | arithLeft {op a b want c} :
      Part (.node (.binary (.arith op) a b) want) c 0 (.operand a .number (.operand (.arith op))) c
  | arithRight {op a b want c x c₁}
      (first : Yields (.operand a .number (.operand (.arith op))) c x c₁) :
      Part (.node (.binary (.arith op) a b) want) c x.code.size
        (.operand b .number (.operand (.arith op))) c₁
  | orderLeft {op a b want c} :
      Part (.node (.binary (.order op) a b) want) c 0 (.operand a .number (.operand (.order op))) c
  | orderRight {op a b want c x c₁}
      (first : Yields (.operand a .number (.operand (.order op))) c x c₁) :
      Part (.node (.binary (.order op) a b) want) c x.code.size
        (.operand b .number (.operand (.order op))) c₁
  | logicLeft {op a b want c} :
      Part (.node (.binary (.logic op) a b) want) c 0 (.operand a .boolean (.operand (.logic op))) c
  | logicRight {op a b want c x c₁}
      (first : Yields (.operand a .boolean (.operand (.logic op))) c x c₁) :
      Part (.node (.binary (.logic op) a b) want) c (Fragment.rightStart op x.code)
        (.operand b .boolean (.operand (.logic op))) c₁
  | comparisonLeft {op i a b want c} (compares : BinaryOp.comparison? op = some i) :
      Part (.node (.binary op a b) want) c 0 (.node a none) c
  | comparisonRight {op i a b want c x c₁} (compares : BinaryOp.comparison? op = some i)
      (first : Yields (.node a none) c x c₁) :
      Part (.node (.binary op a b) want) c x.code.size (.node b x.type) c₁
  | declare {name type value want c slot c₁} (allocated : Compile.allocate c = .ok (slot, c₁)) :
      Part (.node (.declare name type value) want) c 0 (.initial name type value) c₁
  | assignParam {name a want c position param}
      (isParam : Compiler.param? c name = some (position, param)) :
      Part (.node (.assign name a) want) c 0 (.value a param.type (.newValue name)) c
  | assignVariable {name a want c target} (noParam : Compiler.param? c name = none)
      (isVariable : Scope.find? c.scope name = some target) :
      Part (.node (.assign name a) want) c 0 (.value a (some target.type) (.newValue name)) c
  | branchTest {test body other want c} :
      Part (.node (.branch test body other) want) c 0 (.operand test .boolean .ifCondition) c
  | branchBody {test body other want c x c₁}
      (condition : Yields (.operand test .boolean .ifCondition) c x c₁) :
      Part (.node (.branch test body other) want) c (Fragment.guardSize x.code) (.block body) c₁
  | branchOther {test body other want c x c₁ y c₂}
      (condition : Yields (.operand test .boolean .ifCondition) c x c₁)
      (inner : Yields (.block body) c₁ y c₂) :
      Part (.node (.branch test body (some other)) want) c
        (Fragment.guardSize x.code + y.code.size + Fragment.jumpSize) (.block other) c₂
  | loopTest {test body want c} :
      Part (.node (.loop test body) want) c 0 (.operand test .boolean .whileCondition) c
  | loopBody {test body want c x c₁}
      (condition : Yields (.operand test .boolean .whileCondition) c x c₁) :
      Part (.node (.loop test body) want) c (Fragment.guardSize x.code) (.block body) c₁
  | timesCount {count body want c} :
      Part (.node (.times count body) want) c 0 (.operand count .number .repeatCount)
        { c with scope := c.scope.enter }
  | timesBody {count body want c x c₁ threshold c₂ counter c₃}
      (amount : Yields (.operand count .number .repeatCount) { c with scope := c.scope.enter } x c₁)
      (first : Compile.allocateScratch c₁ = .ok (threshold, c₂))
      (second : Compile.allocateScratch c₂ = .ok (counter, c₃)) :
      Part (.node (.times count body) want) c (Fragment.roundStart x.code threshold counter)
        (.block body) c₃
  | call {name args want c callee} (found : Callee.find name c = .ok (callee, c)) :
      Part (.node (.call name args) want) c 0 (.arguments callee 0 args) c
  | convert {a target want c} : Part (.node (.convert a target) want) c 0 (.node a none) c
  | giveBack {value want c draft} (inside : Compiler.draft c = some draft) :
      Part (.node (.giveBack value) want) c 0 (.givenBack draft value) c
  | list {nodes want c} (mixed : Node.literals? nodes = none) :
      Part (.node (.list nodes) want) c 0 (.items 0 nodes) c
  | itemList {index list want c} :
      Part (.node (.item index list) want) c 0 (.operand list .list .indexedList) c
  | itemIndex {index list want c x c₁} (items : Yields (.operand list .list .indexedList) c x c₁) :
      Part (.node (.item index list) want) c x.code.size (.operand index .number .index) c₁
  | setItemList {index name a want c} :
      Part (.node (.setItem index (.var name) a) want) c 0
        (.operand (.var name) .list (.named name)) c
  | setItemIndex {index name a want c x c₁}
      (items : Yields (.operand (.var name) .list (.named name)) c x c₁) :
      Part (.node (.setItem index (.var name) a) want) c x.code.size
        (.operand index .number .setIndex) c₁
  | setItemValue {index name a want c x c₁ y c₂}
      (items : Yields (.operand (.var name) .list (.named name)) c x c₁)
      (place : Yields (.operand index .number .setIndex) c₁ y c₂) :
      Part (.node (.setItem index (.var name) a) want) c (x.code.size + y.code.size)
        (.value a none .newItem) c₂
  | operand {n want role c} : Part (.operand n want role) c 0 (.node n (some want)) c
  | value {n expected role c} : Part (.value n expected role) c 0 (.node n expected) c
  | initial {name type start c} :
      Part (.initial name type (some start)) c 0 (.value start type (.initialValue name)) c
  | giveDeclared {draft expr c} (declared : Draft.declared draft = true) :
      Part (.givenBack draft (some expr)) c 0 (.value expr draft.returns (.givenBack draft.name)) c
  | giveFound {draft expr c} (undeclared : Draft.declared draft = false) :
      Part (.givenBack draft (some expr)) c 0 (.node expr (draft.returns.filter (· ≠ .void))) c
  | firstArgument {callee position a more c expected}
      (wanted : Callee.expected callee position c = .ok (expected, c)) :
      Part (.arguments callee position (a :: more)) c 0
        (.value a expected (.argument (position + 1) callee.name)) c
  | moreArguments {callee position a more c expected x found c₁ c₂}
      (wanted : Callee.expected callee position c = .ok (expected, c))
      (first : Yields (.value a expected (.argument (position + 1) callee.name)) c x c₁)
      (typed : x.type = some found)
      (resolved : (if expected.isNone then Compile.resolveParam position found
        else pure ()) c₁ = .ok ((), c₂)) :
      Part (.arguments callee position (a :: more)) c x.code.size
        (.arguments callee (position + 1) more) c₂
  | firstItem {position a more c} :
      Part (.items position (a :: more)) c 0 (.value a none (.listItem (position + 1))) c
  | moreItems {position a more c x c₁}
      (first : Yields (.value a none (.listItem (position + 1))) c x c₁) :
      Part (.items position (a :: more)) c x.code.size (.items (position + 1) more) c₁
  | firstStatement {n more c} : Part (.statements (n :: more)) c 0 (.node n none) c
  | moreStatements {n more c x c₁ code c₂} (first : Yields (.node n none) c x c₁)
      (finished : Compile.finishStatement n x c₁ = .ok (code, c₂)) :
      Part (.statements (n :: more)) c code.size (.statements more) c₂
  | block {nodes c} : Part (.block nodes) c 0 (.statements nodes) c.entered

/-- A task occurs in another, with the offset of its code and the state that it starts in. -/
inductive Occurs (whole : Task) (start : Compiler) : Nat → Task → Compiler → Prop
  | here : Occurs whole start 0 whole start
  | part {offset rest : Nat} {task inner : Task} {c d : Compiler}
      (outer : Occurs whole start offset task c) (part : Part task c rest inner d) :
      Occurs whole start (offset + rest) inner d

theorem Occurs.first {whole task inner : Task} {start c d : Compiler} {offset : Nat}
    (outer : Occurs whole start offset task c) (part : Part task c 0 inner d) :
    Occurs whole start offset inner d :=
  outer.part part

/-- What occurs in a part occurs in the whole. -/
theorem Occurs.trans {whole task inner : Task} {start c d : Compiler} {offset place : Nat}
    (outer : Occurs whole start offset task c) (occurs : Occurs task c place inner d) :
    Occurs whole start (offset + place) inner d := by
  induction occurs with
  | here => exact outer
  | part _ part ih => exact Nat.add_assoc _ _ _ ▸ ih.part part

theorem Occurs.of_part {task inner : Task} {c d : Compiler} {rest : Nat}
    (part : Part task c rest inner d) : Occurs task c rest inner d :=
  Nat.zero_add rest ▸ Occurs.here.part part

/-- What occurs in a task is the task itself, or occurs in one of its parts. -/
theorem Occurs.split {whole inner : Task} {start d : Compiler} {offset : Nat}
    (occurs : Occurs whole start offset inner d) : inner = whole ∧ d = start ∨
      ∃ rest task c place, Part whole start rest task c ∧ Occurs task c place inner d := by
  induction occurs with
  | here => exact .inl ⟨rfl, rfl⟩
  | part _ part ih =>
    rcases ih with ⟨rfl, rfl⟩ | ⟨rest, task, c, place, outer, within⟩
    · exact .inr ⟨_, _, _, 0, part, .here⟩
    · exact .inr ⟨rest, task, c, _, outer, within.part part⟩

end Primer
