import Primer.Proofs.Compilation.Growth
import Primer.Proofs.Meaning.Interpreter

/-!
The types that the compiler finds are those of the values that the interpreter computes. Outside of
procedures an expression leaves the compiler as it is. It never gets stuck, provided that variables
hold values of their types and that the result is of the type of the statement before, or is refused
if it is not.
-/

set_option autoImplicit false
set_option relaxedAutoImplicit false

namespace Primer

open Compile

/-- The node is an expression, not a statement. -/
def Node.isExpression : Node → Bool
  | .declare .. | .assign .. | .branch .. | .loop .. | .times .. | .define .. | .giveBack ..
  | .setItem .. => false
  | _ => true

/-- What gives a value is an expression. -/
theorem Yields.isExpression {n : Node} {want : Option Ty} {c c' : Compiler} {x : Compiled}
    (derivation : Yields (.node n want) c x c') (filled : x.type ≠ some .void) :
    n.isExpression = true := by
  cases derivation <;> first | rfl | exact absurd rfl filled

/-- The task is about expressions. -/
def Task.Evaluates : Task → Prop
  | .node n _ => n.isExpression = true
  | .operand _ want _ => want ≠ .void
  | .value .. | .initial .. | .arguments .. | .items .. => True
  | _ => False

/-- Outside of procedures, expressions leave the compiler as it is. -/
theorem Yields.unchanged {task : Task} {c c' : Compiler} {x : Compiled}
    (derivation : Yields task c x c') (outside : c.draft = none) (evaluates : task.Evaluates) :
    c' = c := by
  induction derivation with
  | literal | literals | initialDefault | noArguments | noItems => rfl
  | unary _ ih => exact ih outside (UnaryOp.type_ne_void _)
  | arith _ _ first second | order _ _ first second | logic _ _ first second =>
    have same := first outside (by simp [Task.Evaluates])
    subst same
    exact second outside (by simp [Task.Evaluates])
  | comparison _ left leftValue right rightValue agreed first second =>
    have same := first outside (left.isExpression leftValue)
    subst same
    have again := second outside (right.isExpression rightValue)
    subst again
    exact (agree_ok agreed).eq_of_outside outside
  | result _ found =>
    rcases resultSlot_ok found with ⟨-, -, same⟩ | ⟨draft, inside, -⟩ | ⟨draft, -, inside, -⟩
    · exact same
    · rw [outside] at inside; cases inside
    · rw [outside] at inside; cases inside
  | var found =>
    rcases reference_ok found with ⟨_, _, _, _, retyped⟩ | ⟨_, _, _, _, same⟩
    · exact retyped.eq_of_outside outside
    · exact same
  | call found _ _ finished given =>
    have same := given outside trivial
    subst same
    exact (finishCall_ok finished).2.2.retyped.eq_of_outside outside
  | convert value typed filled _ ih =>
    exact ih outside (value.isExpression (by rw [typed]; simpa using filled))
  | list _ _ _ ih => exact ih outside trivial
  | item _ _ _ first second =>
    have same := first outside (by simp [Task.Evaluates])
    subst same
    exact second outside (by simp [Task.Evaluates])
  | operand inner expected ih =>
    have same := ih outside (inner.isExpression (expected_value expected evaluates))
    subst same
    exact (expect_ok expected).1.eq_of_outside outside
  | valueOf inner expected filled ih =>
    have same := ih outside (inner.isExpression (expected_value expected filled))
    subst same
    exact (expect_ok expected).1.eq_of_outside outside
  | valueFound inner typed filled ih =>
    exact ih outside (inner.isExpression (by rw [typed]; simpa using filled))
  | initialValue _ ih => exact ih outside trivial
  | moreArguments _ _ _ resolved _ first rest =>
    have same := first outside trivial
    subst same
    have settled := (settleOpen_retyped resolved).eq_of_outside outside
    subst settled
    exact rest outside trivial
  | moreItems _ _ first rest =>
    have same := first outside trivial
    subst same
    exact rest outside trivial
  | _ => cases evaluates

/-- No procedure is defined or being compiled, and the procedures of the host are known. -/
structure Compiler.Plain {σ : Type} (c : Compiler) (hosts : HostTable (StateM σ)) : Prop where
  outside : c.draft = none
  noProcedures : c.procedures = []
  hosts : ∀ name, c.hosts.lookup name = hosts.signature? name

theorem Compiler.Plain.callee {σ : Type} {c : Compiler} {hosts : HostTable (StateM σ)}
    (plain : c.Plain hosts) {name : String} {callee : Callee}
    (found : Callee.find name c = .ok (callee, c)) :
    ∃ signature, callee = .host name signature ∧ hosts.signature? name = some signature := by
  have known := (find_ok found).1
  cases callee with
  | drafted draft =>
    have inside := known.1
    rw [plain.outside] at inside
    cases inside
  | defined procedure =>
    have listed := List.mem_of_find?_eq_some known.2
    rw [plain.noProcedures] at listed
    cases listed
  | host other signature =>
    obtain ⟨rfl, -, -, listed⟩ := known
    exact ⟨signature, rfl, (plain.hosts other).symm.trans listed⟩

theorem Compile.finishHostCall_ok {name : String} {signature : Signature} {code : Fragment}
    {want : Option Ty} {out : Compiled} {c c' : Compiler}
    (done : finishCall (.host name signature) code want c = .ok (out, c')) :
    out = ⟨some signature.returns, code ++ [Instruction.callHost name]⟩ := by
  obtain ⟨made, between, emitted, last⟩ := bind_eq_ok.mp done
  obtain ⟨-, rfl, rfl⟩ := emit_ok emitted
  simp only [pure_eq_ok, Prod.mk.injEq] at last
  exact last.1

/-- A conversion gives a value of the type that was asked for. -/
theorem Value.convert_type {value converted : Value} {target : Ty}
    (done : value.convert target = .ok converted) : converted.type = target := by
  unfold Value.convert at done
  by_cases same : value.type = target
  · rw [if_pos same] at done
    cases done
    exact same
  · rw [if_neg same] at done
    split at done
    · cases done
      rfl
    · cases done
      rfl
    · rename_i text
      cases parsed : Number.parse? (Text.trim text.toList) with
      | none => simp [parsed] at done
      | some n =>
        simp only [parsed, Option.map_some, Except.ok.injEq] at done
        exact done ▸ rfl
    · rename_i text
      cases parsed : parseBoolean? (Text.trim text.toList) with
      | none => simp [parsed] at done
      | some b =>
        simp only [parsed, Option.map_some, Except.ok.injEq] at done
        exact done ▸ rfl
    · cases done

open Interpreter

/-- The variables of the store have the types that the compiler knows. -/
def Scope.Describes (scope : Scope) (store : Store) : Prop :=
  ∀ name found, scope.find? name = some found →
    ∃ value, store.find? name = some value ∧ value.type = found.type

/-- Without parameters, a name stands for a variable. -/
theorem Compile.reference_plain {name : String} {want : Option Ty} {out : Compiled}
    {c c' : Compiler} (outside : c.draft = none) (done : reference name want c = .ok (out, c')) :
    ∃ found, c.scope.find? name = some found ∧ out = ⟨some found.type, [.load found.slot]⟩ := by
  rcases reference_ok done with ⟨_, _, isParam, _⟩ | ⟨found, _, isVariable, same, _⟩
  · rw [Compiler.param?, outside] at isParam
    cases isParam
  · exact ⟨found, isVariable, same⟩

/-- The compiler and the interpreter find the same type. -/
theorem Yields.type_eq {σ : Type} {hosts : HostTable (StateM σ)} {n : Node} {c c' : Compiler}
    {x : Compiled} {store : Store} (derivation : Yields (.node n none) c x c')
    (plain : c.Plain hosts) (describes : c.scope.Describes store) :
    x.type = some (typeOf hosts store c.prior n) := by
  cases derivation with
  | comparison compares =>
    rename BinaryOp => op
    cases op <;> first | rfl | cases compares
  | var found =>
    obtain ⟨variable', known, rfl⟩ := reference_plain plain.outside found
    obtain ⟨value, held, typed⟩ := describes _ _ known
    simp only [typeOf, held, Option.map_some, Option.getD_some, typed]
  | call found _ _ finished =>
    obtain ⟨signature, rfl, known⟩ := plain.callee found
    rw [finishHostCall_ok finished]
    simp only [typeOf, known, Option.map_some, Option.getD_some]
  | _ => rfl

namespace Interpreter

variable {σ α β : Type}

/-- Evaluation does not get stuck, and what it gives is good. -/
def Safe (good : α → Prop) (work : Evaluate σ α) : Prop :=
  ∀ w, match (work w).1 with
    | .ok a => good a
    | .error halt => halt ≠ .stuck

namespace Safe

variable {good : α → Prop} {better : β → Prop}

theorem bind {first : Evaluate σ α} {next : α → Evaluate σ β} (begins : Safe good first)
    (goes : ∀ a, good a → Safe better (next a)) : Safe better (first >>= next) := by
  intro w
  have start := begins w
  rcases done : first w with ⟨outcome, w'⟩
  rw [done] at start
  cases outcome with
  | ok a =>
    rw [Evaluate.bind_ok done]
    exact goes a start w'
  | error halt =>
    rw [Evaluate.bind_error done]
    exact start

theorem pure {a : α} (holds : good a) : Safe good (pure a : Evaluate σ α) := fun _ => holds

theorem conclude {outcome : Except Halt α} (holds : match outcome with
    | .ok a => good a
    | .error halt => halt ≠ .stuck) : Safe good (conclude outcome : Evaluate σ α) := fun _ => holds

end Safe

/-- A value of a type, or nothing for void. -/
def OfType (type : Option Ty) : Option Value → Prop
  | none => type = some .void
  | some value => type = some value.type

theorem OfType.number {found : Option Value} (typed : OfType (some .number) found) :
    ∃ n, found = some (.number n) := by
  rcases found with _ | _ | _ | _ | _ | _ <;> first | exact ⟨_, rfl⟩ | cases typed

theorem OfType.boolean {found : Option Value} (typed : OfType (some .boolean) found) :
    ∃ b, found = some (.boolean b) := by
  rcases found with _ | _ | _ | _ | _ | _ <;> first | exact ⟨_, rfl⟩ | cases typed

theorem OfType.list {found : Option Value} (typed : OfType (some .list) found) :
    ∃ items, found = some (.list items) := by
  rcases found with _ | _ | _ | _ | _ | _ <;> first | exact ⟨_, rfl⟩ | cases typed

theorem OfType.some {type : Option Ty} {found : Option Value} (typed : OfType type found)
    (filled : type ≠ some .void) : ∃ value, found = some value ∧ type = some value.type := by
  cases found with
  | none => exact absurd typed filled
  | some value => exact ⟨value, rfl, typed⟩

/-- A position stands for a place in the list, or there is no such item. -/
theorem place_cases (index : Number) (items : List Value) :
    (∃ k, k < items.length ∧ place index items = .ok k ∧ itemPlace index items.length = .ok k) ∨
      (place index items = .error (.mishap (.noItem index items.length)) ∧
        itemPlace index items.length = .error (.mishap (.noItem index items.length))) := by
  unfold place itemPlace
  rcases index.toNat? with _ | _ | k
  · exact .inr ⟨rfl, rfl⟩
  · exact .inr ⟨rfl, rfl⟩
  · by_cases inside : k < items.length
    · exact .inl ⟨k, inside, by simp [inside], by simp [inside]⟩
    · exact .inr ⟨by simp [inside], by simp [inside]⟩

/-- What it means for a task of the compiler that evaluation is safe. -/
def SafeTask (rules : Rules σ) (store : Store) (prior : Ty) : Task → Compiled → Prop
  | .node n want, x => n.isExpression = true →
    Safe (OfType x.type) (evaluate rules store prior n want)
  | .operand n want _, _ => want ≠ .void →
    Safe (OfType (some want)) (evaluate rules store prior n (some want))
  | .value n expected _,
      x => x.type ≠ some .void ∧ (∀ want, expected = some want → x.type = expected) ∧
    Safe (OfType x.type) (evaluate rules store prior n expected)
  | .arguments callee position nodes, _ => ∀ name signature, callee = .host name signature →
    position + nodes.length = signature.params.length →
    Safe (fun values => values.map Value.type = signature.params.drop position)
      (evaluateArguments rules store prior signature.params position nodes)
  | .items _ nodes, _ => Safe (fun _ => True) (evaluateItems rules store prior nodes)
  | _, _ => True

theorem unaryValue_safe (op : UnaryOp) {a : Option Value} (typed : OfType (some op.type) a) :
    Safe (OfType (some op.type)) (conclude (unaryValue op a) : Evaluate σ _) := by
  apply Safe.conclude
  cases op with
  | negate =>
    obtain ⟨n, rfl⟩ := OfType.number typed
    rfl
  | invert =>
    obtain ⟨b, rfl⟩ := OfType.boolean typed
    rfl

theorem resultValue_safe {strict : Bool} {prior : Ty} {v : Value}
    (typed : strict = true ∨ v.type = prior) :
    Safe (OfType (some prior)) (conclude (resultValue strict prior (some v)) : Evaluate σ _) := by
  apply Safe.conclude
  by_cases same : v.type = prior
  · simp [resultValue, same, OfType]
  · have strict' := typed.resolve_right same
    simp [resultValue, same, strict']

theorem comparedValue_safe (op : BinaryOp) {type : Ty} (filled : type ≠ .void)
    {a b : Option Value} (left : OfType (some type) a) (right : OfType (some type) b) :
    Safe (OfType (some .boolean)) (conclude (comparedValue op a b) : Evaluate σ _) := by
  obtain ⟨u, rfl, leftType⟩ := left.some (by simpa using filled)
  obtain ⟨v, rfl, rightType⟩ := right.some (by simpa using filled)
  have same : u.type = v.type := Option.some.inj (leftType.symm.trans rightType)
  apply Safe.conclude
  simp only [comparedValue, if_pos same]
  rfl

theorem convertedValue_safe {source target : Ty} (converts : source.convertsTo target = true)
    (filled : source ≠ .void) {a : Option Value} (typed : OfType (some source) a) :
    Safe (OfType (some target)) (conclude (convertedValue target a) : Evaluate σ _) := by
  obtain ⟨v, rfl, same⟩ := typed.some (by simpa using filled)
  cases same
  apply Safe.conclude
  simp only [convertedValue, if_pos converts]
  cases done : v.convert target with
  | error failure => simp
  | ok converted => exact congrArg some (Value.convert_type done).symm

theorem itemValue_safe (type : Ty) {a b : Option Value} (list : OfType (some .list) a)
    (index : OfType (some .number) b) :
    Safe (OfType (some type)) (conclude (itemValue (some type) a b) : Evaluate σ _) := by
  obtain ⟨items, rfl⟩ := OfType.list list
  obtain ⟨n, rfl⟩ := OfType.number index
  apply Safe.conclude
  rcases place_cases n items with ⟨k, -, found, -⟩ | ⟨missing, -⟩
  · by_cases same : (items.getD k .void).type = type
    · simp only [itemValue, known, found, bind, Except.bind, if_pos same]
      exact congrArg some same.symm
    · simp only [itemValue, known, found, bind, Except.bind, if_neg same]
      simp
  · simp [itemValue, known, missing, bind, Except.bind]

theorem callHost_safe (hosts : HostTable (StateM σ)) (name : String) (signature : Signature)
    {given : List Value} (typed : given.map Value.type = signature.params) :
    Safe (OfType (some signature.returns)) (callHost hosts name signature given) := by
  intro w
  simp only [callHost, if_pos typed]
  rcases (hosts.call? name given).getD (pure (.ok none)) w with ⟨reply, w'⟩
  cases reply with
  | error reason => simp [answerValue]
  | ok answer =>
    simp only [answerValue]
    by_cases silent : signature.returns = .void
    · rw [if_pos silent]
      exact congrArg some silent
    · rw [if_neg silent]
      cases answer with
      | none => simp
      | some value =>
        by_cases same : value.type = signature.returns
        · simp only [if_pos same]
          exact congrArg some same.symm
        · simp [if_neg same]

end Interpreter

theorem Compile.agree_some {op : BinaryOp} {left right : Node} {a b : Ty} {c c' : Compiler}
    (done : agree op left right (some a) (some b) c = .ok ((), c')) : a = b := by
  by_cases same : a = b
  · exact same
  · simp only [agree, if_neg same] at done
    cases done

/-- Outside of procedures a type that is expected was found. -/
theorem Compile.expect_outside {n : Node} {found : Option Ty} {want : Ty} {role : Role}
    {c c' : Compiler} (outside : c.draft = none)
    (done : expect n found want role c = .ok ((), c')) : found = some want := by
  rcases (expect_ok done).2 with ⟨same, -⟩ | ⟨-, settled⟩
  · exact same
  · exfalso
    cases n with
    | var name => simp [settle, Compiler.paramIndex?, outside] at settled
    | call name args =>
      simp only [settle, get_bind] at settled
      by_cases drafting : c.drafting name
      · rw [if_pos drafting] at settled
        have inside := assumeReturn_inside settled
        rw [outside] at inside
        cases inside
      · simp [drafting] at settled
    | _ => simp [settle] at settled

theorem Callee.expected_host {name : String} {signature : Signature} {position : Nat}
    {expected : Option Ty} {c : Compiler}
    (done : (Callee.host name signature).expected position c = .ok (expected, c)) :
    expected = signature.params[position]? := by
  cases done
  rfl

namespace Interpreter

variable {σ : Type} {rules : Rules σ} {store : Store} {prior : Ty}

/-- Both comparisons are evaluated alike. -/
theorem evaluate_comparison {op : BinaryOp} {i : Instruction} (compares : op.comparison? = some i)
    (left right : Node) (want : Option Ty) :
    evaluate rules store prior (.binary op left right) want = (do
      let a ← evaluate rules store prior left none
      let b ← evaluate rules store prior right (some (typeOf rules.hosts store prior left))
      conclude (comparedValue op a b)) := by
  cases op with
  | equal | notEqual => rw [evaluate]
  | _ => cases compares

/-- Items that are literals evaluate to themselves. -/
theorem evaluateItems_literals {nodes : List Node} {values : List Value}
    (all : Node.literals? nodes = some values) :
    evaluateItems rules store prior nodes = pure values := by
  induction nodes generalizing values with
  | nil =>
    cases all
    rw [evaluateItems]
  | cons first more ih =>
    cases first with
    | literal v =>
      obtain ⟨rest, found, rfl⟩ := Option.map_eq_some_iff.mp all
      rw [evaluateItems, evaluate, ih found]
      rfl
    | _ => cases all

end Interpreter

section Safety

variable {σ : Type} {rules : Rules σ} {store : Store}

/-- Expressions that compile are evaluated without getting stuck, to values of their types. -/
theorem Yields.safe {task : Task} {c c' : Compiler} {x : Compiled}
    (derivation : Yields task c x c') (plain : c.Plain rules.hosts)
    (describes : c.scope.Describes store)
    (filled : c.prior ≠ .void → ∃ value, store.result = some value ∧
      (rules.strict = true ∨ value.type = c.prior)) :
    SafeTask rules store c.prior task x := by
  induction derivation with
  | literal passes =>
    intro _
    rw [evaluate]
    exact Safe.pure rfl
  | unary inner operand =>
    intro _
    rw [evaluate]
    exact (operand plain describes filled (UnaryOp.type_ne_void _)).bind fun _ typed =>
      unaryValue_safe _ typed
  | arith left right first second | order left right first second =>
    intro _
    have same := left.unchanged plain.outside (by simp [Task.Evaluates])
    subst same
    rw [evaluate]
    refine (first plain describes filled (by simp)).bind fun _ typed => ?_
    refine (second plain describes filled (by simp)).bind fun _ typed' => ?_
    obtain ⟨a, rfl⟩ := OfType.number typed
    obtain ⟨b, rfl⟩ := OfType.number typed'
    exact Safe.conclude rfl
  | @logic op _ _ _ _ _ _ _ _ left right first second =>
    intro _
    have same := left.unchanged plain.outside (by simp [Task.Evaluates])
    subst same
    rw [evaluate]
    refine (first plain describes filled (by simp)).bind fun _ typed => ?_
    obtain ⟨a, rfl⟩ := OfType.boolean typed
    by_cases decided : op.decides a = true
    · simp only [if_pos decided]
      exact Safe.pure rfl
    · simp only [if_neg decided]
      exact second plain describes filled (by simp)
  | comparison compares left leftValue right rightValue agreed first second =>
    intro _
    have same := left.unchanged plain.outside (left.isExpression leftValue)
    subst same
    have leftType := left.type_eq plain describes
    rw [evaluate_comparison compares]
    refine (first plain describes filled (left.isExpression leftValue)).bind fun a typed => ?_
    rw [leftType] at second right
    refine (second plain describes filled (right.isExpression rightValue)).bind fun b typed' => ?_
    obtain ⟨v, rfl, rightType⟩ := typed'.some rightValue
    rw [leftType, rightType] at agreed
    rw [leftType, agree_some agreed] at typed
    exact comparedValue_safe _ (by simpa [rightType] using rightValue) typed (congrArg some rfl)
  | result available _ =>
    intro _
    obtain ⟨v, found, typed⟩ := filled available
    rw [evaluate, found]
    exact resultValue_safe typed
  | var found =>
    intro _
    obtain ⟨variable', known', rfl⟩ := reference_plain plain.outside found
    obtain ⟨v, held, typed⟩ := describes _ _ known'
    rw [evaluate, held]
    exact Safe.conclude (congrArg some typed.symm)
  | call found arity _ finished given =>
    intro _
    obtain ⟨signature, rfl, known'⟩ := plain.callee found
    rw [finishHostCall_ok finished, evaluate, known']
    refine (given plain describes filled _ signature rfl ((Nat.zero_add _).trans arity.symm)).bind
      fun values typed => ?_
    exact callHost_safe _ _ _ typed
  | convert inner typed filled' converts ih =>
    intro _
    have isExpression := inner.isExpression (by rw [typed]; simpa using filled')
    rw [evaluate]
    refine (ih plain describes filled isExpression).bind fun _ typed' => ?_
    rw [typed] at typed'
    exact convertedValue_safe converts filled' typed'
  | literals all _ =>
    intro _
    rw [evaluate, evaluateItems_literals all]
    exact Safe.pure rfl
  | list _ _ _ ih =>
    intro _
    rw [evaluate]
    exact (ih plain describes filled).bind fun _ _ => Safe.pure rfl
  | item _ left right first second =>
    intro _
    have same := left.unchanged plain.outside (by simp [Task.Evaluates])
    subst same
    rw [evaluate]
    refine (first plain describes filled (by simp)).bind fun _ typed => ?_
    refine (second plain describes filled (by simp)).bind fun _ typed' => ?_
    exact itemValue_safe _ typed typed'
  | operand inner expected ih =>
    intro isValue
    have same :=
      inner.unchanged plain.outside (inner.isExpression (expected_value expected isValue))
    subst same
    have typed := expect_outside plain.outside expected
    have safe := ih plain describes filled (inner.isExpression (expected_value expected isValue))
    rwa [typed] at safe
  | valueOf inner expected isValue ih =>
    have same :=
      inner.unchanged plain.outside (inner.isExpression (expected_value expected isValue))
    subst same
    have typed := expect_outside plain.outside expected
    have safe := ih plain describes filled (inner.isExpression (expected_value expected isValue))
    rw [typed] at safe
    exact ⟨by simpa using isValue, fun _ same => same.symm ▸ rfl, safe⟩
  | valueFound inner typed isValue ih =>
    have isExpression := inner.isExpression (by rw [typed]; simpa using isValue)
    have safe := ih plain describes filled isExpression
    rw [typed] at safe
    exact ⟨by simpa using isValue, by simp, safe⟩
  | noArguments =>
    intro name signature _ all
    rw [evaluateArguments]
    refine Safe.pure ?_
    rw [List.length_nil, Nat.add_zero] at all
    rw [List.drop_eq_nil_of_le (Nat.le_of_eq all.symm)]
    rfl
  | @moreArguments callee position a more c expected x found c₁ c₂ y c' wanted value typed resolved
      others first rest =>
    intro name signature host all
    subst host
    have same := value.unchanged plain.outside trivial
    subst same
    have settled := (settleOpen_retyped resolved).eq_of_outside plain.outside
    subst settled
    have position' : position < signature.params.length := by
      rw [List.length_cons] at all
      omega
    obtain ⟨isValue, sameType, safe⟩ := first plain describes filled
    have expects := Callee.expected_host wanted
    rw [List.getElem?_eq_getElem position'] at expects
    rw [sameType _ expects, expects] at safe
    rw [evaluateArguments, List.getElem?_eq_getElem position']
    refine safe.bind fun a typed' => ?_
    obtain ⟨v, rfl, vType⟩ := typed'.some (by rw [← expects, ← sameType _ expects]; exact isValue)
    rw [known_some, conclude_ok_bind]
    refine (rest plain describes filled name signature rfl (by simp at all; omega)).bind
      fun values typed'' => Safe.pure ?_
    rw [List.map_cons, typed'', ← Option.some.inj vType, List.drop_eq_getElem_cons position']
  | noItems =>
    rw [SafeTask, evaluateItems]
    exact Safe.pure trivial
  | moreItems inner _ first rest =>
    have same := inner.unchanged plain.outside trivial
    subst same
    obtain ⟨isValue, -, safe⟩ := first plain describes filled
    rw [SafeTask, evaluateItems]
    refine safe.bind fun a typed => ?_
    obtain ⟨v, rfl, -⟩ := typed.some isValue
    rw [known_some, conclude_ok_bind]
    exact (rest plain describes filled).bind fun _ _ => Safe.pure trivial
  | initialValue | initialDefault | giveNothing | giveDeclared | giveFound | noStatements
  | moreStatements | block => trivial
  | _ => intro impossible; cases impossible

end Safety

end Primer
